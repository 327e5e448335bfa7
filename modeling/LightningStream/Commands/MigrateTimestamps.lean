import LightningStream.Base.Cells
import LightningStream.Header
import LightningStream.Lmdb.Environment
import LightningStream.Lmdb.Walk

/-!
# The migration of timestamps

`migrate-timestamps` copies the timestamps of a source DBI to the entries of a
destination DBI that have the same keys and are older. With
`--add-delete-entries` it then adds markers for the keys that the source has as
deleted and the destination does not have at all.

Both loops write to the destination. The first one is walking over it, and
replaces the entry at the cursor. The values are copies (`RawRead` is not set), so
the header is not changed in place. DBIs with duplicates, which the command
excludes in its description, and logging are left out.
-/

namespace LightningStream.Commands

open Lmdb

/-! ## The program -/

inductive MigrateErr
  /-- `source and destination DBI cannot be the same`. -/
  | sameDBI
  /-- `dst: value too short for header for key`. -/
  | dstHeader (key : Bytes)
  /-- `dst: value too short for key`. -/
  | dstTimestamp (key : Bytes) (e : Header.HeaderErr)
  /-- `src: value too short for key`. -/
  | srcTimestamp (key : Bytes) (e : Header.HeaderErr)
  /-- `src: invalid header for key`. -/
  | srcHeader (key : Bytes) (e : Header.HeaderErr)
  /-- `src: deleted but non-empty app value`. -/
  | srcDeleted (key : Bytes)
  | lmdb (e : LmdbErr)
deriving DecidableEq

/-- The destination, and the statistics. -/
structure Migration where
  dst : Txn
  nUpdated : ℕ
  nAddedDeletes : ℕ
deriving DecidableEq

/-- The destination value with the timestamp of the source, and a new transaction ID. -/
def restamp (txnID : TxnID) (srcVal dstVal : Bytes) : Bytes :=
  srcVal.take 8 ++ (beBytes 8 txnID.toNat ++ dstVal.drop 16)

/-- The body of the first loop. -/
def updateEntry (txnID : TxnID) (src : Dbi) (s : Migration) (e : Bytes × Bytes) :
    Except MigrateErr Migration :=
  if e.2.length < Header.minHeaderSize then .error (.dstHeader e.1)
  else match Header.parseTimestamp e.2 with
    | .error err => .error (.dstTimestamp e.1 err)
    | .ok dstTS =>
        match (Txn.start src).get e.1 with
        | .error .notFound => .ok s
        | .error err => .error (.lmdb err)
        | .ok srcVal =>
            match Header.parseTimestamp srcVal with
            | .error err => .error (.srcTimestamp e.1 err)
            | .ok srcTS =>
                -- do not touch if newer
                if srcTS ≤ dstTS then .ok s
                else match s.dst.put e.1 (restamp txnID srcVal e.2) with
                  | .error err => .error (.lmdb err)
                  | .ok t => .ok { s with dst := t, nUpdated := s.nUpdated + 1 }

/-- Whether a source value is marked as deleted. A timestamp alone is a marker of the
old style. -/
def srcIsDeleted (e : Bytes × Bytes) : Except MigrateErr Bool :=
  if e.2.length = 8 then .ok true
  else match Header.parse e.2 with
    | .error err => .error (.srcHeader e.1 err)
    | .ok (h, appVal) =>
        if Header.isDeleted h.flags && decide (0 < appVal.length) then .error (.srcDeleted e.1)
        else .ok (Header.isDeleted h.flags)

/-- The body of the second loop. -/
def addDelete (txnID : TxnID) (s : Migration) (e : Bytes × Bytes) : Except MigrateErr Migration :=
  match Header.parseTimestamp e.2 with
  | .error err => .error (.srcTimestamp e.1 err)
  | .ok srcTS =>
      match srcIsDeleted e with
      | .error err => .error err
      | .ok false => .ok s
      | .ok true =>
          match s.dst.get e.1 with
          | .ok _ => .ok s
          | .error .notFound =>
              match s.dst.put e.1 (Header.putBasic srcTS txnID Header.flagDeleted) with
              | .error err => .error (.lmdb err)
              | .ok t => .ok { s with dst := t, nAddedDeletes := s.nAddedDeletes + 1 }
          | .error err => .error (.lmdb err)

/-- The two loops of the transaction. -/
def migrate (txnID : TxnID) (addDeleted : Bool) (src dst : Dbi) :
    Except (Fault MigrateErr) Migration :=
  match walk (fun s : Migration => s.dst.dbi) (updateEntry txnID src) ⟨.start dst, 0, 0⟩ with
  | .error err => .error err
  | .ok s => if addDeleted then walk (fun _ => src) (addDelete txnID) s else .ok s

/-- `OpenDBI` without `lmdb.Create`. -/
def openDBI (c : Contents) (dbiName : Bytes) : Except LmdbErr Dbi :=
  if dbiName = [] then .error .badValSize
  else match c.get dbiName with
    | none => .error .notFound
    | some d => .ok d

theorem openDBI_eq_ok {c : Contents} {n : Bytes} {d : Dbi} :
    openDBI c n = .ok d ↔ c.get n = some d := by
  unfold openDBI
  constructor
  · intro h
    split at h
    · cases h
    · split at h
      · cases h
      · rename_i hget
        rw [hget, Except.ok.inj h]
  · intro h
    have hne : n ≠ [] := List.length_pos_iff.mp (Contents.named_of_get h).1
    rw [if_neg hne, h]

/-- The command: the new contents of the environment, and the statistics. An error leaves
the environment as it was. -/
def migrateTimestamps (txnID : TxnID) (srcDBIName dstDBIName : Bytes)
    (ignoreNotPresent addDeleted : Bool) (c : Contents) :
    Except (Fault MigrateErr) (Contents × ℕ × ℕ) :=
  if srcDBIName = dstDBIName then .error (.error .sameDBI)
  else match openDBI c srcDBIName with
    | .error err =>
        if err = .notFound ∧ ignoreNotPresent then .ok (c, 0, 0) else .error (.error (.lmdb err))
    | .ok src =>
        match h : openDBI c dstDBIName with
        | .error err => .error (.error (.lmdb err))
        | .ok dst =>
            match migrate txnID addDeleted src dst with
            | .error err => .error err
            | .ok s => .ok (c.set dstDBIName s.dst.dbi (Contents.named_of_get (openDBI_eq_ok.mp h)),
                s.nUpdated, s.nAddedDeletes)

/-! ## What it should do -/

/-- The timestamp in front of a value. -/
def stampOf (val : Bytes) : Timestamp := UInt64.ofNat (beNat (val.take 8))

/-- The destination value is older than the source value. -/
def Outdated (src : Option Bytes) (val : Bytes) : Prop := ∃ w ∈ src, stampOf val < stampOf w

instance (src : Option Bytes) (val : Bytes) : Decidable (Outdated src val) :=
  inferInstanceAs (Decidable (∃ w ∈ src, stampOf val < stampOf w))

/-- A source value that is marked as deleted. -/
def isDeletedSource (val : Bytes) : Bool :=
  decide (val.length = 8) || match Header.parse val with
    | .error _ => false
    | .ok (h, _) => Header.isDeleted h.flags

/-- A value of the destination after the migration, by the values before it. -/
def migratedValue (txnID : TxnID) (addDeleted : Bool) (src dst : Option Bytes) : Option Bytes :=
  match dst with
  | some v => some (if Outdated src v then restamp txnID (src.getD []) v else v)
  | none => (src.filter fun w => addDeleted && isDeletedSource w).map fun w =>
      Header.putBasic (stampOf w) txnID Header.flagDeleted

/-- A source value that the second loop accepts. -/
def SourceValid (val : Bytes) : Prop :=
  val.length = 8 ∨ ∃ h app, Header.parse val = .ok (h, app) ∧
    (Header.isDeleted h.flags = true → app = [])

/-- The DBIs that can be migrated. -/
structure Migratable (addDeleted : Bool) (src dst : Dbi) : Prop where
  headers : ∀ k v, dst.get k = some v → Header.minHeaderSize ≤ v.length
  stamps : ∀ k v w, dst.get k = some v → src.get k = some w → 8 ≤ w.length
  sources : addDeleted = true → ∀ k w, src.get k = some w → SourceValid w

/-! ## One entry -/

section Entries

variable {txnID : TxnID} {src : Dbi} {s t : Migration} {e : Bytes × Bytes} {v w : Bytes}

theorem parseTimestamp_of_le (h : 8 ≤ v.length) : Header.parseTimestamp v = .ok (stampOf v) :=
  if_neg (not_lt.mpr h)

theorem parseTimestamp_of_lt (h : v.length < 8) : Header.parseTimestamp v = .error .tooShort :=
  if_pos h

/-- An entry of the destination that the first loop accepts. -/
def EntryValid (src : Dbi) (e : Bytes × Bytes) : Prop :=
  Header.minHeaderSize ≤ e.2.length ∧ ∀ w, src.get e.1 = some w → 8 ≤ w.length

/-- The value at a key becomes `x`; the rest of the destination stays as it is. -/
def Stores (s : Migration) (k : Bytes) (x : Option Bytes) (t : Migration) : Prop :=
  t.dst.dbi.flags = s.dst.dbi.flags ∧
    ∀ j, t.dst.dbi.get j = if j = k then x else s.dst.dbi.get j

theorem stores_self {k : Bytes} {x : Option Bytes} (h : s.dst.dbi.get k = x) :
    Stores s k x s := by
  refine ⟨rfl, fun j => ?_⟩
  by_cases hj : j = k
  · rw [if_pos hj, hj, h]
  · rw [if_neg hj]

theorem stores_put {k : Bytes} {d : Txn} {m n : ℕ} (h : s.dst.put k v = .ok d) :
    Stores s k (some v) ⟨d, m, n⟩ :=
  Txn.put_spec h

theorem migratedValue_of_newer {addDeleted : Bool} {x : Option Bytes} (h : ¬ Outdated x v) :
    migratedValue txnID addDeleted x (some v) = some v := by
  rw [migratedValue, if_neg h]

theorem migratedValue_of_older {addDeleted : Bool} (h : stampOf v < stampOf w) :
    migratedValue txnID addDeleted (some w) (some v) = some (restamp txnID w v) := by
  rw [migratedValue, if_pos ⟨w, rfl, h⟩, Option.getD_some]

/-- The first loop stamps an outdated entry. -/
theorem updateEntry_ok (hget : s.dst.dbi.get e.1 = some e.2) (hvalid : EntryValid src e) :
    ∃ t, updateEntry txnID src s e = .ok t ∧
      Stores s e.1 (migratedValue txnID false (src.get e.1) (some e.2)) t := by
  obtain ⟨hlen, hsrc⟩ := hvalid
  have h8 : 8 ≤ e.2.length := le_trans (by decide) hlen
  unfold updateEntry
  rw [if_neg (not_lt.mpr hlen), parseTimestamp_of_le h8]
  cases hw : src.get e.1 with
  | none =>
      rw [Txn.get_of_none (Txn.ne_nil_of_get hget) hw,
        migratedValue_of_newer (by simp [Outdated])]
      exact ⟨s, rfl, stores_self hget⟩
  | some w =>
      rw [Txn.get_of_some (t := .start src) hw]
      dsimp only
      rw [parseTimestamp_of_le (hsrc w hw)]
      by_cases hle : stampOf w ≤ stampOf e.2
      · rw [migratedValue_of_newer (by simp [Outdated, hle])]
        exact ⟨s, if_pos hle, stores_self hget⟩
      · have hput := @Txn.put_of_allowed s.dst e.1 (restamp txnID w e.2) (Txn.allowed_of_get hget)
        rw [migratedValue_of_older (not_le.mp hle)]
        dsimp only
        rw [if_neg hle, hput]
        exact ⟨_, rfl, stores_put hput⟩

theorem updateEntry_error (hbad : ¬ EntryValid src e) :
    ∃ err, updateEntry txnID src s e = .error err := by
  unfold updateEntry
  by_cases hlen : e.2.length < Header.minHeaderSize
  · exact ⟨_, if_pos hlen⟩
  · rw [if_neg hlen, parseTimestamp_of_le (le_trans (by decide) (not_lt.mp hlen))]
    -- the source value is there, and too short
    obtain ⟨w, hw, hshort⟩ : ∃ w, src.get e.1 = some w ∧ w.length < 8 := by
      by_contra hnone
      refine hbad ⟨not_lt.mp hlen, fun w hw => ?_⟩
      by_contra hshort
      exact hnone ⟨w, hw, not_le.mp hshort⟩
    rw [Txn.get_of_some (t := .start src) hw]
    dsimp only
    rw [parseTimestamp_of_lt hshort]
    exact ⟨_, rfl⟩

/-- All that a round of the first loop can do. -/
theorem updateEntry_cases (h : updateEntry txnID src s e = .ok t) :
    (¬ Outdated (src.get e.1) e.2 ∧ t = s) ∨
      Outdated (src.get e.1) e.2 ∧ ∃ v d, s.dst.put e.1 v = .ok d ∧
        t = ⟨d, s.nUpdated + 1, s.nAddedDeletes⟩ := by
  unfold updateEntry at h
  split at h
  · cases h
  · rename_i hlen
    rw [parseTimestamp_of_le (le_trans (by decide) (not_lt.mp hlen))] at h
    cases hw : src.get e.1 with
    | none =>
        refine Or.inl ⟨by simp [Outdated], ?_⟩
        by_cases hk : e.1 = []
        · rw [show (Txn.start src).get e.1 = .error .badValSize from if_pos hk] at h
          cases h
        · rw [Txn.get_of_none hk hw] at h
          exact (Except.ok.inj h).symm
    | some w =>
        rw [Txn.get_of_some (t := .start src) hw] at h
        dsimp only at h
        rcases lt_or_ge w.length 8 with hshort | h8
        · rw [parseTimestamp_of_lt hshort] at h
          cases h
        · rw [parseTimestamp_of_le h8] at h
          dsimp only at h
          split at h
          · rename_i hle
            exact Or.inl ⟨by simp [Outdated, hle], (Except.ok.inj h).symm⟩
          · rename_i hlt
            split at h
            · cases h
            · rename_i d hput
              exact Or.inr ⟨⟨w, rfl, not_le.mp hlt⟩, _, d, hput, (Except.ok.inj h).symm⟩

theorem updateEntry_replaces (h : updateEntry txnID src s e = .ok t) :
    Replaces s.dst.dbi e t.dst.dbi := by
  rcases updateEntry_cases h with ⟨-, rfl⟩ | ⟨-, v, d, hput, rfl⟩
  · exact replaces_refl _ _
  · exact replaces_put hput

theorem updateEntry_nUpdated (h : updateEntry txnID src s e = .ok t) :
    t.nUpdated = s.nUpdated + if Outdated (src.get e.1) e.2 then 1 else 0 := by
  rcases updateEntry_cases h with ⟨hnot, rfl⟩ | ⟨hout, v, d, -, rfl⟩
  · rw [if_neg hnot, Nat.add_zero]
  · rw [if_pos hout]

theorem updateEntry_nAddedDeletes (h : updateEntry txnID src s e = .ok t) :
    t.nAddedDeletes = s.nAddedDeletes := by
  rcases updateEntry_cases h with ⟨-, rfl⟩ | ⟨-, v, d, -, rfl⟩
  · rfl
  · rfl

theorem SourceValid.le_length (h : SourceValid w) : 8 ≤ w.length := by
  rcases h with h | ⟨hdr, app, hp, -⟩
  · exact h.ge
  · exact le_trans (by decide) (Header.parse_ok_length hp)

theorem srcIsDeleted_ok (hvalid : SourceValid e.2) :
    srcIsDeleted e = .ok (isDeletedSource e.2) := by
  unfold srcIsDeleted isDeletedSource
  by_cases h8 : e.2.length = 8
  · simp [h8]
  · obtain ⟨h, app, hp, happ⟩ := hvalid.resolve_left h8
    rw [if_neg h8, hp]
    cases hdel : Header.isDeleted h.flags with
    | false => simp [hdel, h8]
    | true => simp [hdel, happ hdel]

theorem srcIsDeleted_error (hbad : ¬ SourceValid e.2) : ∃ err, srcIsDeleted e = .error err := by
  unfold srcIsDeleted
  by_cases h8 : e.2.length = 8
  · exact absurd (Or.inl h8) hbad
  · rw [if_neg h8]
    cases hp : Header.parse e.2 with
    | error err => exact ⟨_, rfl⟩
    | ok r =>
        obtain ⟨h, app⟩ := r
        by_cases happ : Header.isDeleted h.flags = true → app = []
        · exact absurd (Or.inr ⟨h, app, hp, happ⟩) hbad
        · obtain ⟨hdel, hne⟩ := Classical.not_imp.mp happ
          refine ⟨_, if_pos ?_⟩
          rw [hdel, Bool.true_and, decide_eq_true_eq]
          exact List.length_pos_iff.mpr hne

/-- The marker that the second loop may add. -/
def markerOf (txnID : TxnID) (w : Bytes) : Option Bytes :=
  if isDeletedSource w then some (Header.putBasic (stampOf w) txnID Header.flagDeleted) else none

/-- A key of another DBI may be stored in one without flags. -/
theorem allowed_of_plain {d : Dbi} {k : Bytes} (hplain : d.flags = .plain)
    (hget : src.get k = some w) : d.flags.Allowed (k :: d.keys) := by
  refine ⟨fun j hj => ?_, fun hi => ?_⟩
  · rcases List.mem_cons.mp hj with rfl | hj
    · exact src.keys_allowed.1 _ (Dbi.mem_keys_iff.mpr ⟨_, hget⟩)
    · exact d.keys_allowed.1 j hj
  · rw [hplain] at hi
    cases hi

/-- The second loop adds a marker where the destination has nothing. -/
theorem addDelete_ok (hget : src.get e.1 = some e.2) (hplain : s.dst.dbi.flags = .plain)
    (hvalid : SourceValid e.2) :
    ∃ t, addDelete txnID s e = .ok t ∧
      Stores s e.1 ((s.dst.dbi.get e.1).or (markerOf txnID e.2)) t := by
  unfold addDelete
  rw [parseTimestamp_of_le hvalid.le_length, srcIsDeleted_ok hvalid]
  cases hdel : isDeletedSource e.2 with
  | false =>
      have hnone : markerOf txnID e.2 = none := if_neg (by simp [hdel])
      rw [hnone, Option.or_none]
      exact ⟨s, rfl, stores_self rfl⟩
  | true =>
      have hmarker : markerOf txnID e.2 = _ := if_pos hdel
      cases hv : s.dst.dbi.get e.1 with
      | some v =>
          rw [Txn.get_of_some hv, Option.some_or]
          exact ⟨s, rfl, stores_self hv⟩
      | none =>
          have hput := @Txn.put_of_allowed s.dst e.1
            (Header.putBasic (stampOf e.2) txnID Header.flagDeleted) (allowed_of_plain hplain hget)
          rw [Txn.get_of_none (Txn.ne_nil_of_get hget) hv, Option.none_or, hmarker]
          dsimp only
          rw [hput]
          exact ⟨_, rfl, stores_put hput⟩

theorem addDelete_error (hbad : ¬ SourceValid e.2) : ∃ err, addDelete txnID s e = .error err := by
  unfold addDelete
  cases Header.parseTimestamp e.2 with
  | error err => exact ⟨_, rfl⟩
  | ok ts =>
      obtain ⟨err, herr⟩ := srcIsDeleted_error hbad
      dsimp only
      rw [herr]
      exact ⟨_, rfl⟩

/-- All that a round of the second loop can do. -/
theorem addDelete_cases (h : addDelete txnID s e = .ok t) :
    t = s ∨ s.dst.dbi.get e.1 = none ∧ ∃ v d, s.dst.put e.1 v = .ok d ∧
      t = ⟨d, s.nUpdated, s.nAddedDeletes + 1⟩ := by
  unfold addDelete at h
  split at h
  · cases h
  · split at h
    · cases h
    · exact Or.inl (Except.ok.inj h).symm
    · cases hv : s.dst.dbi.get e.1 with
      | some v =>
          rw [Txn.get_of_some hv] at h
          exact Or.inl (Except.ok.inj h).symm
      | none =>
          split at h
          · exact Or.inl (Except.ok.inj h).symm
          · split at h
            · cases h
            · rename_i d hput
              exact Or.inr ⟨rfl, _, d, hput, (Except.ok.inj h).symm⟩
          · cases h

theorem addDelete_nUpdated (h : addDelete txnID s e = .ok t) : t.nUpdated = s.nUpdated := by
  rcases addDelete_cases h with rfl | ⟨-, v, d, -, rfl⟩
  · rfl
  · rfl

/-- The new entries are counted. -/
theorem addDelete_length (h : addDelete txnID s e = .ok t) :
    t.dst.dbi.keys.length + s.nAddedDeletes = s.dst.dbi.keys.length + t.nAddedDeletes := by
  rcases addDelete_cases h with rfl | ⟨hnone, v, d, hput, rfl⟩
  · rfl
  · obtain ⟨ha, rfl⟩ := Txn.put_eq_ok hput
    dsimp only
    rw [Dbi.keys_length_set hnone ha]
    omega

end Entries

/-! ## The loops -/

section Loops

variable {txnID : TxnID} {src dst : Dbi} {s : Migration}

/-- The destination at a key. The flags belong to what the rounds leave alone. -/
def view (s : Migration) (k : Bytes) : KeyFlags × Option Bytes := (s.dst.dbi.flags, s.dst.dbi.get k)

theorem walk_updates :
    walk (fun s : Migration => s.dst.dbi) (updateEntry txnID src) s =
      (s.dst.dbi.entries.foldlM (updateEntry txnID src) s).mapError .error :=
  walk_eq_foldlM (fun _ _ _ h => updateEntry_replaces h) s

theorem walk_deletes :
    walk (fun _ => src) (addDelete txnID) s =
      (src.entries.foldlM (addDelete txnID) s).mapError .error :=
  walk_eq_foldlM (fun _ e _ _ => replaces_refl src e) s

theorem migratedValue_none (src : Option Bytes) : migratedValue txnID false src none = none := by
  cases src <;> rfl

theorem migratedValue_true (src dst : Option Bytes) :
    migratedValue txnID true src dst =
      (migratedValue txnID false src dst).or (src.bind (markerOf txnID)) := by
  cases dst with
  | some v => rfl
  | none =>
      cases src with
      | none => rfl
      | some w =>
          unfold migratedValue markerOf
          cases hdel : isDeletedSource w <;> simp [hdel, Option.filter]

/-- A loop over the entries of a DBI, each round of which writes to the destination at the key
of its entry. -/
theorem fold_ok {f : Migration → Bytes × Bytes → Except MigrateErr Migration} {d : Dbi}
    {new : Bytes × Bytes → Option Bytes} (hstep : ∀ e ∈ d.entries, ∀ t : Migration,
      t.dst.dbi.flags = s.dst.dbi.flags → t.dst.dbi.get e.1 = s.dst.dbi.get e.1 →
      ∃ t', f t e = .ok t' ∧ Stores t e.1 (new e) t') :
    ∃ s', d.entries.foldlM f s = .ok s' ∧ s'.dst.dbi.flags = s.dst.dbi.flags ∧
      (∀ k v, d.get k = some v → s'.dst.dbi.get k = new (k, v)) ∧
      ∀ k, d.get k = none → s'.dst.dbi.get k = s.dst.dbi.get k := by
  have hworks : ∀ e ∈ d.entries, ∀ t, Untouched view Prod.fst d.entries s t e →
      ∃ t', f t e = .ok t' ∧ Works view Prod.fst (fun e x => x.2 = new e) t t' e := by
    intro e he t ht
    obtain ⟨hflags, hget⟩ := Prod.mk.inj ht.own
    obtain ⟨t', hf, hflags', hvalues⟩ := hstep e he t hflags hget
    refine ⟨t', hf, ?_, fun k hk => ?_⟩
    · show t'.dst.dbi.get e.1 = new e
      rw [hvalues, if_pos rfl]
    · unfold view
      rw [hflags', hvalues, if_neg hk]
  obtain ⟨s', hfold, hown, hothers⟩ := foldlM_cells view Prod.fst _ d.keys_nodup hworks
  have houtside : ∀ k, d.get k = none → view s' k = view s k := by
    intro k hk
    exact hothers k (Dbi.get_eq_none_iff.mp hk)
  refine ⟨s', hfold, ?_, fun k v hv => ?_, fun k hk => (Prod.mk.inj (houtside k hk)).2⟩
  · -- no DBI has an empty key
    have hnil : d.get [] = none := by
      cases hv : d.get [] with
      | none => rfl
      | some v => exact absurd rfl (Txn.ne_nil_of_get hv)
    exact (Prod.mk.inj (houtside [] hnil)).1
  · exact hown (k, v) (Dbi.mem_entries_iff.mpr hv)

/-- The entries of the destination that are older than in the source. -/
def nOutdated (src dst : Dbi) : ℕ :=
  dst.entries.countP fun e => decide (Outdated (src.get e.1) e.2)

/-- The first loop stamps every outdated entry. -/
theorem updates_ok (hvalid : ∀ k v, dst.get k = some v → EntryValid src (k, v)) :
    ∃ s, walk (fun s : Migration => s.dst.dbi) (updateEntry txnID src) ⟨.start dst, 0, 0⟩ = .ok s ∧
      s.dst.dbi.flags = dst.flags ∧
      (∀ k, s.dst.dbi.get k = migratedValue txnID false (src.get k) (dst.get k)) ∧
      s.nUpdated = nOutdated src dst ∧ s.nAddedDeletes = 0 := by
  obtain ⟨s, hfold, hflags, hown, hothers⟩ := @fold_ok ⟨.start dst, 0, 0⟩ (updateEntry txnID src)
    dst (fun e => migratedValue txnID false (src.get e.1) (some e.2)) (by
      intro e he t _ hget
      have hmem : dst.get e.1 = some e.2 := Dbi.mem_entries_iff.mp he
      exact updateEntry_ok (hget.trans hmem) (hvalid e.1 e.2 hmem))
  refine ⟨s, ?_, hflags, fun k => ?_, ?_, ?_⟩
  · rw [walk_updates]
    exact mapError_eq_ok.mpr hfold
  · cases hv : dst.get k with
    | some v => exact hown k v hv
    | none =>
        rw [hothers k hv, migratedValue_none]
        exact hv
  · exact (foldlM_count (fun _ _ _ h => updateEntry_nUpdated h) hfold).trans (Nat.zero_add _)
  · refine foldlM_invariant (I := fun t => t.nAddedDeletes = 0) ?_ hfold rfl
    exact fun _ _ _ _ ht h => (updateEntry_nAddedDeletes h).trans ht

/-- The second loop adds the markers. -/
theorem deletes_ok (hplain : s.dst.dbi.flags = .plain)
    (hvalid : ∀ k w, src.get k = some w → SourceValid w) :
    ∃ s', walk (fun _ => src) (addDelete txnID) s = .ok s' ∧
      s'.dst.dbi.flags = s.dst.dbi.flags ∧
      (∀ k, s'.dst.dbi.get k = (s.dst.dbi.get k).or ((src.get k).bind (markerOf txnID))) ∧
      s'.nUpdated = s.nUpdated ∧
      s'.dst.dbi.keys.length + s.nAddedDeletes = s.dst.dbi.keys.length + s'.nAddedDeletes := by
  obtain ⟨s', hfold, hflags, hown, hothers⟩ := @fold_ok s (addDelete txnID) src
    (fun e => (s.dst.dbi.get e.1).or (markerOf txnID e.2)) (by
      intro e he t hflags hget
      have hmem : src.get e.1 = some e.2 := Dbi.mem_entries_iff.mp he
      rw [← hget]
      exact addDelete_ok hmem (hflags.trans hplain) (hvalid e.1 e.2 hmem))
  refine ⟨s', ?_, hflags, fun k => ?_, ?_, ?_⟩
  · rw [walk_deletes]
    exact mapError_eq_ok.mpr hfold
  · cases hw : src.get k with
    | some w => exact hown k w hw
    | none => rw [hothers k hw, Option.bind_none, Option.or_none]
  · refine foldlM_invariant (I := fun t => t.nUpdated = s.nUpdated) ?_ hfold rfl
    exact fun _ _ _ _ ht h => (addDelete_nUpdated h).trans ht
  · refine foldlM_invariant (I := fun t => t.dst.dbi.keys.length + s.nAddedDeletes =
      s.dst.dbi.keys.length + t.nAddedDeletes) ?_ hfold rfl
    intro e _ t t' ht h
    have := addDelete_length h
    omega

/-- What the two loops make of the destination. -/
structure Results (txnID : TxnID) (addDeleted : Bool) (src dst : Dbi) (s : Migration) : Prop where
  flags : s.dst.dbi.flags = dst.flags
  values : ∀ k, s.dst.dbi.get k = migratedValue txnID addDeleted (src.get k) (dst.get k)
  updated : s.nUpdated = nOutdated src dst
  added : s.dst.dbi.keys.length = dst.keys.length + s.nAddedDeletes

theorem migrate_ok {addDeleted : Bool} (hplain : dst.flags = .plain)
    (h : Migratable addDeleted src dst) :
    ∃ s, migrate txnID addDeleted src dst = .ok s ∧ Results txnID addDeleted src dst s := by
  obtain ⟨s, hs, hflags, hvalues, hupdated, hadded⟩ := @updates_ok txnID src dst fun k v hv =>
    ⟨h.headers k v hv, fun w hw => h.stamps k v w hv hw⟩
  have hkeys : s.dst.dbi.keys.length = dst.keys.length := by
    refine Dbi.keys_length_congr fun k => ?_
    rw [hvalues]
    cases dst.get k with
    | none => rw [migratedValue_none]
    | some v => simp [migratedValue]
  unfold migrate
  rw [hs]
  cases addDeleted with
  | false => exact ⟨s, rfl, hflags, hvalues, hupdated, by rw [hkeys, hadded, Nat.add_zero]⟩
  | true =>
      obtain ⟨s', hs', hflags', hvalues', hupdated', hadded'⟩ :=
        @deletes_ok txnID src s (hflags.trans hplain) (h.sources rfl)
      refine ⟨s', hs', hflags'.trans hflags, fun k => ?_, hupdated'.trans hupdated, ?_⟩
      · rw [hvalues', hvalues, migratedValue_true]
      · rw [hadded, hkeys, Nat.add_zero] at hadded'
        exact hadded'

theorem migratable_iff {addDeleted : Bool} : Migratable addDeleted src dst ↔
    (∀ e ∈ dst.entries, EntryValid src e) ∧
      (addDeleted = true → ∀ e ∈ src.entries, SourceValid e.2) := by
  constructor
  · intro h
    refine ⟨fun e he => ?_, fun hadd e he => h.sources hadd e.1 e.2 (Dbi.mem_entries_iff.mp he)⟩
    have hget : dst.get e.1 = some e.2 := Dbi.mem_entries_iff.mp he
    exact ⟨h.headers e.1 e.2 hget, fun w hw => h.stamps e.1 e.2 w hget hw⟩
  · rintro ⟨hentries, hsources⟩
    refine ⟨fun k v hv => ?_, fun k v w hv hw => ?_, fun hadd k w hw => ?_⟩
    · exact (hentries (k, v) (Dbi.mem_entries_iff.mpr hv)).1
    · exact (hentries (k, v) (Dbi.mem_entries_iff.mpr hv)).2 w hw
    · exact hsources hadd (k, w) (Dbi.mem_entries_iff.mpr hw)

theorem migrate_error {addDeleted : Bool} (h : ¬ Migratable addDeleted src dst) :
    ∃ err, migrate txnID addDeleted src dst = .error (.error err) := by
  rw [migratable_iff] at h
  unfold migrate
  by_cases hentries : ∀ e ∈ dst.entries, EntryValid src e
  · -- the first loop comes to its end
    obtain ⟨s, hs, -⟩ := @updates_ok txnID src dst fun k v hv =>
      hentries (k, v) (Dbi.mem_entries_iff.mpr hv)
    obtain ⟨hadd, hbad⟩ := Classical.not_imp.mp fun hsources => h ⟨hentries, hsources⟩
    push Not at hbad
    obtain ⟨e, he, hbad⟩ := hbad
    obtain ⟨err, herr⟩ := foldlM_error (f := addDelete txnID) (fun s => addDelete_error hbad) he s
    rw [hs]
    refine ⟨err, ?_⟩
    dsimp only
    rw [if_pos hadd, walk_deletes, herr]
    rfl
  · push Not at hentries
    obtain ⟨e, he, hbad⟩ := hentries
    obtain ⟨err, herr⟩ := foldlM_error (f := updateEntry txnID src)
      (fun s => updateEntry_error hbad) he ⟨.start dst, 0, 0⟩
    refine ⟨err, ?_⟩
    rw [walk_updates]
    dsimp only [Txn.start] at herr ⊢
    rw [herr]
    rfl

/-- With `--add-delete-entries`, a live value of the old style (0.2.0) is taken for one with a
header. If it is too short for that, the command gives up. -/
theorem migrate_old_style {k app : Bytes} {ts : Timestamp}
    (hget : src.get k = some (beBytes 8 ts.toNat ++ app)) (happ : app ≠ [])
    (hshort : app.length < 16) : ∃ err, migrate txnID true src dst = .error (.error err) := by
  refine migrate_error fun h => ?_
  have hpos := List.length_pos_iff.mpr happ
  rcases h.sources rfl k _ hget with h8 | ⟨hdr, rest, hp, -⟩
  · rw [List.length_append, beBytes_length] at h8
    omega
  · have hlen := Header.parse_ok_length hp
    rw [List.length_append, beBytes_length, Header.minHeaderSize] at hlen
    omega

end Loops

end LightningStream.Commands
