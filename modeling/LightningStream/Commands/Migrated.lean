import LightningStream.Commands.MigrateTimestamps
import LightningStream.Header.Codec
import LightningStream.Snapshot.Name

/-!
# Migrated timestamps

What `migrate-timestamps` leaves behind, in terms of headers and application
values (`Migrated`), and that it does so in one run: another one finds nothing to do.
-/

namespace LightningStream.Commands

open Lmdb Snapshot

/-! ## The migrated destination -/

section Values

variable {txnID : TxnID} {addDeleted : Bool} {v w app : Bytes} {h : Header} {src dst : Option Bytes}

theorem stampOf_append {a b : Bytes} (ha : a.length = 8) :
    stampOf (a ++ b) = UInt64.ofNat (beNat a) := by
  rw [stampOf, List.take_left' ha]

theorem beBytes_stampOf (hw : 8 ≤ w.length) : beBytes 8 (stampOf w).toNat = w.take 8 := by
  have hlen : (w.take 8).length = 8 := List.length_take_of_le hw
  rw [stampOf, Header.toNat_ofNat_beNat hlen, Header.beBytes_beNat hlen]

theorem stampOf_restamp (hw : 8 ≤ w.length) : stampOf (restamp txnID w v) = stampOf w :=
  stampOf_append (List.length_take_of_le hw)

/-- The transaction ID and what the value keeps. -/
theorem drop8_restamp (hw : 8 ≤ w.length) :
    (restamp txnID w v).drop 8 = beBytes 8 txnID.toNat ++ v.drop 16 :=
  List.drop_left' (List.length_take_of_le hw)

theorem restamp_length (hw : 8 ≤ w.length) (hv : 16 ≤ v.length) :
    (restamp txnID w v).length = v.length := by
  rw [restamp, List.length_append, List.length_append, beBytes_length, List.length_take_of_le hw,
    List.length_drop]
  omega

theorem stampOf_of_parse (hp : Header.parse v = .ok (h, app)) : stampOf v = h.timestamp := by
  obtain ⟨reserved, n, -, -, -, -, -, rfl⟩ := Header.parse_eq_ok hp
  rw [Header.layout, stampOf_append (by simp), beNat_beBytes]
  rw [Nat.mod_eq_of_lt (by have := h.timestamp.toNat_lt; omega), UInt64.ofNat_toNat]

/-- The header has the timestamp of the source and the new transaction ID. -/
theorem parse_restamp (hw : 8 ≤ w.length) (hp : Header.parse v = .ok (h, app)) :
    Header.parse (restamp txnID w v) =
      .ok ({ h with timestamp := stampOf w, txnID := txnID }, app) := by
  obtain ⟨reserved, n, hres, hn, hver, hnum, hextra, rfl⟩ := Header.parse_eq_ok hp
  rw [restamp, Header.drop16_layout, ← beBytes_stampOf hw]
  refine (Header.parse_layout hres hn hextra).trans ?_
  rw [← hver, ← hnum]

theorem parse_marker (ts : Timestamp) :
    Header.parse (Header.putBasic ts txnID Header.flagDeleted) =
      .ok (⟨ts, txnID, 0, Header.flagDeleted, 0, []⟩, []) :=
  Header.parse_putBasic ts txnID Header.flagDeleted []

theorem migratedValue_eq_some (hm : migratedValue txnID addDeleted src dst = some v) :
    (∃ u, dst = some u ∧
      (¬ Outdated src u ∧ v = u ∨ ∃ w, src = some w ∧ stampOf u < stampOf w ∧
        v = restamp txnID w u)) ∨
    dst = none ∧ addDeleted = true ∧ ∃ w, src = some w ∧ isDeletedSource w = true ∧
      v = Header.putBasic (stampOf w) txnID Header.flagDeleted := by
  unfold migratedValue at hm
  cases dst with
  | some u =>
      refine Or.inl ⟨u, rfl, ?_⟩
      have hm := Option.some.inj hm
      by_cases hout : Outdated src u
      · rw [if_pos hout] at hm
        obtain ⟨w, hw, hlt⟩ := hout
        obtain rfl : src = some w := hw
        exact Or.inr ⟨w, rfl, hlt, hm.symm⟩
      · rw [if_neg hout] at hm
        exact Or.inl ⟨hout, hm.symm⟩
  | none =>
      obtain ⟨w, hw, hv⟩ := Option.map_eq_some_iff.mp hm
      obtain ⟨hsrc, hpred⟩ := Option.filter_eq_some_iff.mp hw
      obtain ⟨hadd, hdel⟩ := Bool.and_eq_true_iff.mp hpred
      exact Or.inr ⟨rfl, hadd, w, hsrc, hdel, hv.symm⟩

/-- No value is outdated any more. -/
theorem not_outdated_migratedValue (hstamps : ∀ u w, dst = some u → src = some w → 8 ≤ w.length)
    (hm : migratedValue txnID addDeleted src dst = some v) : ¬ Outdated src v := by
  rcases migratedValue_eq_some hm with ⟨u, hu, ⟨hnot, rfl⟩ | ⟨w, hw, -, rfl⟩⟩ |
    ⟨-, -, w, hw, -, rfl⟩
  · exact hnot
  · rintro ⟨w', hw', hlt⟩
    obtain rfl : w = w' := Option.some.inj (hw.symm.trans hw')
    rw [stampOf_restamp (hstamps u w hu hw)] at hlt
    exact lt_irrefl _ hlt
  · rintro ⟨w', hw', hlt⟩
    obtain rfl : w = w' := Option.some.inj (hw.symm.trans hw')
    rw [stampOf_of_parse (parse_marker _)] at hlt
    exact lt_irrefl _ hlt

/-- A second migration changes nothing. -/
theorem migratedValue_again (txnID' : TxnID)
    (hstamps : ∀ u w, dst = some u → src = some w → 8 ≤ w.length) :
    migratedValue txnID' addDeleted src (migratedValue txnID addDeleted src dst) =
      migratedValue txnID addDeleted src dst := by
  cases hm : migratedValue txnID addDeleted src dst with
  | some v =>
      exact migratedValue_of_newer (not_outdated_migratedValue hstamps hm)
  | none =>
      cases dst with
      | some u => cases hm
      | none =>
          have hfilter := Option.map_eq_none_iff.mp hm
          rw [migratedValue, hfilter, Option.map_none]

end Values

/-- What becomes of the entries of the destination. -/
structure Migrated (txnID : TxnID) (addDeleted : Bool) (src dst dst' : Dbi) : Prop where
  flags : dst'.flags = dst.flags
  newer : ∀ k v, dst.get k = some v → (∀ w, src.get k = some w → stampOf w ≤ stampOf v) →
    dst'.get k = some v
  /-- The first two fields of the header are overwritten, whether or not the rest of it can be
  read. Nothing else in the value changes. -/
  older : ∀ k v w, dst.get k = some v → src.get k = some w → stampOf v < stampOf w →
    ∃ v', dst'.get k = some v' ∧ stampOf v' = stampOf w ∧
      (v'.drop 8).take 8 = beBytes 8 txnID.toNat ∧ v'.drop 16 = v.drop 16 ∧
      ∀ h app, Header.parse v = .ok (h, app) →
        Header.parse v' = .ok ({ h with timestamp := stampOf w, txnID := txnID }, app)
  marked : addDeleted = true → ∀ k w, dst.get k = none → src.get k = some w →
    isDeletedSource w = true → ∃ v', dst'.get k = some v' ∧
      Header.parse v' = .ok (⟨stampOf w, txnID, 0, Header.flagDeleted, 0, []⟩, [])
  absent : ∀ k, dst.get k = none → (addDeleted = true → ∀ w, src.get k = some w →
    isDeletedSource w = false) → dst'.get k = none

section Command

variable {txnID : TxnID} {addDeleted ignoreNotPresent : Bool} {src dst : Dbi} {s : Migration}
  {c : Contents} {srcDBIName dstDBIName : Bytes}

theorem Results.migrated (ho : Results txnID addDeleted src dst s)
    (h : Migratable addDeleted src dst) : Migrated txnID addDeleted src dst s.dst.dbi where
  flags := ho.flags
  newer k v hv hle := by
    have hnot : ¬ Outdated (src.get k) v := by
      rintro ⟨w, hw, hlt⟩
      exact absurd hlt (not_lt.mpr (hle w hw))
    rw [ho.values, hv, migratedValue_of_newer hnot]
  older k v w hv hw hlt := by
    have h8 := h.stamps k v w hv hw
    refine ⟨restamp txnID w v, ?_, stampOf_restamp h8, ?_, ?_, fun hdr app hp =>
      parse_restamp h8 hp⟩
    · rw [ho.values, hv, hw, migratedValue_of_older hlt]
    · rw [drop8_restamp h8, List.take_left' (beBytes_length 8 _)]
    · rw [show 16 = 8 + 8 from rfl, ← List.drop_drop, drop8_restamp h8,
        List.drop_left' (beBytes_length 8 _)]
  marked hadd k w hnone hw hdel := by
    refine ⟨_, ?_, parse_marker (stampOf w)⟩
    rw [ho.values, hnone, hw, migratedValue, hadd]
    simp [Option.filter, hdel]
  absent k hnone hlive := by
    rw [ho.values, hnone]
    cases hm : migratedValue txnID addDeleted (src.get k) none with
    | none => rfl
    | some v =>
        rcases migratedValue_eq_some hm with ⟨u, hu, -⟩ | ⟨-, hadd, w, hw, hdel, -⟩
        · cases hu
        · rw [hlive hadd w hw] at hdel
          cases hdel

/-- The migrated destination can be migrated again. -/
theorem Results.migratable (ho : Results txnID addDeleted src dst s)
    (h : Migratable addDeleted src dst) : Migratable addDeleted src s.dst.dbi where
  headers k v hv := by
    rw [ho.values] at hv
    rcases migratedValue_eq_some hv with ⟨u, hu, ⟨-, rfl⟩ | ⟨w, hw, -, rfl⟩⟩ | ⟨-, -, w, -, -, rfl⟩
    · exact h.headers k v hu
    · have hlen := h.headers k u hu
      rw [restamp_length (h.stamps k u w hu hw) (le_trans (by decide) hlen)]
      exact hlen
    · exact Header.parse_ok_length (parse_marker (stampOf w))
  stamps k v w hv hw := by
    rw [ho.values] at hv
    rcases migratedValue_eq_some hv with ⟨u, hu, -⟩ | ⟨-, hadd, -⟩
    · exact h.stamps k u w hu hw
    · exact (h.sources hadd k w hw).le_length
  sources := h.sources

/-- The second run finds nothing to do. -/
theorem Results.again {txnID' : TxnID} {s' : Migration} (ho : Results txnID addDeleted src dst s)
    (h : Migratable addDeleted src dst) (ho' : Results txnID' addDeleted src s.dst.dbi s') :
    s'.dst.dbi = s.dst.dbi ∧ s'.nUpdated = 0 ∧ s'.nAddedDeletes = 0 := by
  have hsame : s'.dst.dbi = s.dst.dbi := by
    refine Dbi.ext_get ho'.flags fun k => ?_
    rw [ho'.values, ho.values]
    exact migratedValue_again txnID' (h.stamps k)
  refine ⟨hsame, ?_, ?_⟩
  · rw [ho'.updated, nOutdated, List.countP_eq_zero]
    intro e he
    have hget := Dbi.mem_entries_iff.mp he
    rw [ho.values] at hget
    rw [decide_eq_true_eq]
    exact not_outdated_migratedValue (h.stamps e.1) hget
  · have hadded := ho'.added
    rw [hsame] at hadded
    omega

section Run

variable (hne : srcDBIName ≠ dstDBIName) (hsrc : c.get srcDBIName = some src)
  (hdst : c.get dstDBIName = some dst)

include hne hsrc in
theorem migrateTimestamps_eq :
    migrateTimestamps txnID srcDBIName dstDBIName ignoreNotPresent addDeleted c =
      (migrate txnID addDeleted src dst).map fun s =>
        (c.set dstDBIName s.dst.dbi (Contents.named_of_get hdst), s.nUpdated, s.nAddedDeletes) := by
  have hopen := openDBI_eq_ok.mpr hdst
  rw [migrateTimestamps, if_neg hne, openDBI_eq_ok.mpr hsrc]
  dsimp only
  split
  · rename_i err herr
    rw [herr] at hopen
    cases hopen
  · rename_i d hd
    obtain rfl : d = dst := Except.ok.inj (hd.symm.trans hopen)
    cases migrate txnID addDeleted src d with
    | error err => rfl
    | ok s => rfl

end Run

end Command

/-- **The migration of timestamps.** The command ends with an error just for values that are
shorter than expected or, if markers are to be added, for sources whose headers cannot be
read. If it succeeds, then each destination entry has the later one of the two timestamps and
its old value, and the markers of the source are there. Another run changes nothing. -/
theorem timestamps_migrated (txnID : TxnID) (ignoreNotPresent addDeleted : Bool) (c : Contents)
    (srcDBIName dstDBIName : Bytes) (src dst : Dbi) (hne : srcDBIName ≠ dstDBIName)
    (hsrc : c.get srcDBIName = some src) (hdst : c.get dstDBIName = some dst)
    (hplain : dst.flags = .plain) :
    (¬ Migratable addDeleted src dst → ∃ err,
      migrateTimestamps txnID srcDBIName dstDBIName ignoreNotPresent addDeleted c =
        .error (.error err)) ∧
    (Migratable addDeleted src dst → ∃ c' dst' nUpdated nAddedDeletes,
      migrateTimestamps txnID srcDBIName dstDBIName ignoreNotPresent addDeleted c =
        .ok (c', nUpdated, nAddedDeletes) ∧
      (∀ n, c'.get n = if n = dstDBIName then some dst' else c.get n) ∧
      Migrated txnID addDeleted src dst dst' ∧
      nUpdated = nOutdated src dst ∧ dst'.keys.length = dst.keys.length + nAddedDeletes ∧
      ∀ txnID', migrateTimestamps txnID' srcDBIName dstDBIName ignoreNotPresent addDeleted c' =
        .ok (c', 0, 0)) := by
  constructor
  · intro h
    obtain ⟨err, herr⟩ := migrate_error h
    refine ⟨err, ?_⟩
    rw [migrateTimestamps_eq hne hsrc hdst, herr]
    rfl
  · intro h
    obtain ⟨s, hs, ho⟩ := @migrate_ok txnID src dst addDeleted hplain h
    have hnamed := Contents.named_of_get hdst
    set c' := c.set dstDBIName s.dst.dbi hnamed with hc'
    have hget : ∀ n, c'.get n = if n = dstDBIName then some s.dst.dbi else c.get n :=
      fun n => Contents.get_set hnamed
    refine ⟨c', s.dst.dbi, s.nUpdated, s.nAddedDeletes, ?_, hget, ho.migrated h, ho.updated,
      ho.added, fun txnID' => ?_⟩
    · rw [migrateTimestamps_eq hne hsrc hdst, hs]
      rfl
    have hsrc' : c'.get srcDBIName = some src := by rw [hget, if_neg hne, hsrc]
    have hdst' : c'.get dstDBIName = some s.dst.dbi := by rw [hget, if_pos rfl]
    obtain ⟨s', hs', ho'⟩ :=
      @migrate_ok txnID' src s.dst.dbi addDeleted (ho.flags.trans hplain) (ho.migratable h)
    obtain ⟨hsame, hupdated, hadded⟩ := ho.again h ho'
    rw [migrateTimestamps_eq hne hsrc' hdst', hs', Except.map, hupdated, hadded]
    -- the DBI is written back as it is
    refine congrArg (fun x => Except.ok (x, 0, 0)) (Contents.ext (SortedMap.ext_get fun n => ?_))
    show (c'.set dstDBIName s'.dst.dbi _).get n = c'.get n
    rw [Contents.get_set, hsame, hget]
    split <;> rfl

/-- A marker of the old style, and a record. -/
def oldRecords : Dbi where
  flags := .plain
  map := ⟨[([1], beBytes 8 5), ([2], Header.putBasic 7 1 Header.noFlags ++ [65])],
    by decide +kernel⟩
  allowed := by decide +kernel

/-- The record was written anew, with the time of the conversion in its header. -/
def newRecords : Dbi where
  flags := .plain
  map := ⟨[([2], Header.putBasic 3 2 Header.noFlags ++ [65])], by decide +kernel⟩
  allowed := by decide +kernel

def converted : Contents where
  map := ⟨[(ascii "_sync_shadow_records", oldRecords), (ascii "records_v5", newRecords)],
    by decide +kernel⟩
  named := by decide +kernel

theorem timestamps_migrated_records : ∃ c' dst' nUpdated nAddedDeletes,
    migrateTimestamps 9 (ascii "_sync_shadow_records") (ascii "records_v5") false true converted =
      .ok (c', nUpdated, nAddedDeletes) ∧
    c'.get (ascii "records_v5") = some dst' ∧ Migrated 9 true oldRecords newRecords dst' ∧
    nUpdated = 1 := by
  have hentries : ∀ e ∈ newRecords.entries, EntryValid oldRecords e := by
    intro e he
    obtain rfl := List.mem_singleton.mp he
    refine ⟨by decide +kernel, fun w hw => ?_⟩
    obtain rfl := Option.some.inj hw
    decide +kernel
  have hsources : ∀ e ∈ oldRecords.entries, SourceValid e.2 := by
    intro e he
    rcases List.mem_pair.mp he with rfl | rfl
    · exact Or.inl (by decide +kernel)
    · exact Or.inr ⟨_, _, Header.parse_putBasic 7 1 Header.noFlags [65], fun h => by cases h⟩
  obtain ⟨c', dst', nUpdated, nAddedDeletes, hrun, hget, hm, hupdated, -, -⟩ :=
    (timestamps_migrated 9 false true converted (ascii "_sync_shadow_records")
      (ascii "records_v5") oldRecords newRecords (by decide +kernel) (by decide +kernel)
      (by decide +kernel) rfl).2 (migratable_iff.mpr ⟨hentries, fun _ => hsources⟩)
  refine ⟨c', dst', nUpdated, nAddedDeletes, hrun, by rw [hget, if_pos rfl], hm, ?_⟩
  rw [hupdated]
  decide +kernel

end LightningStream.Commands
