import LightningStream.Strategy.OtherOrder
import LightningStream.Syncer.Iterators
import LightningStream.Syncer.ReadDbi

/-!
# Shadow DBIs

Without the native schema the application's values carry no header, so every
main DBI has a shadow DBI that holds its entries with headers. `mainToShadow`
brings the shadow up to date with the main DBI, stamping what changed, and
`shadowToMain` puts the values of the shadow back into the main DBI.

Both run `IterUpdate`, whose order check and key comparison follow the flags
of the target. The main DBI may be kept in another order than its shadow,
which is where the two can fail to meet.
-/

namespace LightningStream.Syncer

open Lmdb Snapshot Strategy Header

inductive ShadowErr
  | read (e : EntryErr)
  | iterator (e : IterErr Empty)
  | strategy (e : StratErr (IterErr Empty))
deriving DecidableEq

/-- The flags a shadow DBI gets: `AllowedShadowDBIFlagsMask` is `MDB_INTEGERKEY`. -/
def shadowFlags (f : KeyFlags) : KeyFlags := ⟨false, f.integerKey⟩

/-- `mainToShadow` for one DBI that is not `MDB_DUPSORT`. -/
def mainToShadow (dbiName : Bytes) (deletedCutoff ts : Timestamp) (txnID : TxnID)
    (main : Dbi) (shadow : Txn) : Except ShadowErr Txn := do
  let kvs ← (readDBI dbiName true main).mapError .read
  let it ← (newNativeIterator currentFormatVersion compatFormatVersion ts txnID
    deletedCutoff).mapError .iterator
  (iterUpdate shadow (it.iterator (Reading.ofList kvs))).mapError .strategy

/-- `shadowToMain` for one DBI that is not `MDB_DUPSORT`. -/
def shadowToMain (shadowName : Bytes) (shadow : Dbi) (main : Txn) :
    Except ShadowErr Txn := do
  let kvs ← (readDBI shadowName false shadow).mapError .read
  (iterUpdate main (plainIterator (Reading.ofList kvs))).mapError .strategy

/-- The iterator `mainToShadow` runs with. -/
def shadowIterator (ts : Timestamp) (txnID : TxnID) (cutoff : Timestamp) : NativeIterator :=
  ⟨ts, txnID, currentFormatVersion, false, cutoff⟩

variable {name : Bytes} {cutoff ts : Timestamp} {txnID : TxnID}

theorem mainToShadow_eq (htxn : txnID ≠ 0) (main : Dbi) (shadow : Txn) :
    mainToShadow name cutoff ts txnID main shadow =
      (iterUpdate shadow ((shadowIterator ts txnID cutoff).iterator
        (Reading.ofList (main.entries.map rawKv)))).mapError .strategy := by
  unfold mainToShadow newNativeIterator
  rw [readDBI_raw, if_neg (by decide), if_neg (by decide), if_neg (by decide), if_neg htxn]
  rfl

theorem shadowToMain_eq {shadow : Dbi} (hvalid : HeadersValid shadow) (main : Txn) :
    shadowToMain name shadow main =
      (iterUpdate main (plainIterator
        (Reading.ofList (shadow.entries.map headerKv)))).mapError .strategy := by
  unfold shadowToMain
  rw [readDBI_headers name hvalid]
  rfl

theorem keys_rawKv (d : Dbi) : (d.entries.map rawKv).map Kv.key = d.keys := by
  rw [List.map_map]
  rfl

theorem keys_headerKv (d : Dbi) : (d.entries.map headerKv).map Kv.key = d.keys := by
  rw [List.map_map, show Kv.key ∘ headerKv = Prod.fst from funext headerKv_key]
  rfl

/-- A `mainToShadow` that succeeds has accepted the main DBI's order. -/
theorem mainToShadow_sorted (htxn : txnID ≠ 0) {main : Dbi} {t t' : Txn}
    (h : mainToShadow name cutoff ts txnID main t = .ok t') :
    ([] :: main.keys).Pairwise (Less t.dbi.flags.integerKey) := by
  rw [mainToShadow_eq htxn] at h
  rw [← keys_rawKv]
  exact iterUpdate_sorted (mapError_eq_ok.mp h)

/-- So has a `shadowToMain` the shadow's, after reading its headers. -/
theorem shadowToMain_sorted {shadow : Dbi} {t t' : Txn}
    (h : shadowToMain name shadow t = .ok t') :
    HeadersValid shadow ∧ ([] :: shadow.keys).Pairwise (Less t.dbi.flags.integerKey) := by
  unfold shadowToMain at h
  obtain ⟨kvs, hread, h⟩ := bind_eq_ok.mp h
  obtain ⟨hvalid, rfl⟩ := (readDBI_headers_iff name).mp (mapError_eq_ok.mp hread)
  rw [← keys_headerKv]
  exact ⟨hvalid, iterUpdate_sorted (mapError_eq_ok.mp h)⟩

/-! ## What the shadow iterator writes -/

/-- A raw entry is merged as a live one: it counts as changed unless the
stored application value is the same. -/
theorem shadow_merged_absent (k v : Bytes) :
    (shadowIterator ts txnID cutoff).merge (rawKv (k, v)) [] =
      .ok (some ((shadowIterator ts txnID cutoff).addHeader v 0 noFlags)) := by
  unfold NativeIterator.merge
  rw [if_pos rfl, rawKv_maskedFlags, if_neg (by simp)]
  rfl

/-- What the shadow iterator writes has the flags and the value it is told to write. -/
theorem parse_shadow (ts : Timestamp) (txnID : TxnID) (cutoff : Timestamp) (v : Bytes)
    (flags : Flags) (hv : isDeleted flags = true → v = []) (t : Timestamp) :
    ∃ h, parse ((shadowIterator ts txnID cutoff).addHeader v t flags) = .ok (h, v) ∧
      h.timestamp = (shadowIterator ts txnID cutoff).writtenTS t ∧ h.flags = flags := by
  obtain ⟨h, hp, hts, -, hfl⟩ := parse_addHeader (shadowIterator ts txnID cutoff) v t flags
  have hwf : (shadowIterator ts txnID cutoff).writtenFlags v flags = flags :=
    writtenFlags_of_current _ rfl _ _
  have hwv : (shadowIterator ts txnID cutoff).writtenVal v flags = v := by
    unfold NativeIterator.writtenVal
    rw [hwf]
    split
    · rename_i hdel
      exact (hv hdel).symm
    · rfl
  rw [hwv] at hp
  rw [hwf] at hfl
  exact ⟨h, hp, hts, hfl⟩

/-- A raw entry leaves a stored one alone when the value is the same or the
stored one is at least as new. -/
theorem shadow_keeps_iff {k v app : Bytes} {h : Header} :
    (shadowIterator ts txnID cutoff).keeps (rawKv (k, v)) h app ↔
      app = v ∨ ts < h.timestamp ∨ (ts = h.timestamp ∧ app ≤ v) := by
  unfold NativeIterator.keeps
  rw [show (shadowIterator ts txnID cutoff).writtenTS (rawKv (k, v)).timestampNano = ts
    from rfl]
  simp only [rawKv, true_and]

/-- What `mainToShadow` leaves in the shadow at a key. -/
def shadowedValue (it : NativeIterator) (main shadow : Dbi) (k : Bytes) : Option Bytes :=
  match main.get k with
  | some v => present (it.merged (rawKv (k, v)) (oldVal shadow k))
  | none => (shadow.get k).bind it.cleaned

/-- What `shadowToMain` leaves in the main DBI at a key. -/
def plainValue (shadow : Dbi) (k : Bytes) : Option Bytes :=
  (shadow.get k).bind fun v => present (some (appOf v))

/-! ## The outcome at a key -/

/-- A value with this timestamp, these flags and this application value. -/
def Stamped (ts : Timestamp) (flags : Flags) (v : Bytes) (stored : Option Bytes) : Prop :=
  ∃ raw h, stored = some raw ∧ parse raw = .ok (h, v) ∧ h.timestamp = ts ∧ h.flags = flags

/-- The stored entry has the value already, or wins against it at `ts`. -/
def Retained (ts : Timestamp) (v old : Bytes) : Prop :=
  ∃ h app, parse old = .ok (h, app) ∧
    (app = v ∨ ts < h.timestamp ∨ (ts = h.timestamp ∧ app ≤ v))

/-- A stored entry that is flagged Deleted. -/
def Tombstone (old : Bytes) : Prop := ∃ h app, parse old = .ok (h, app) ∧ isDeleted h.flags = true

/-- What `mainToShadow` at `ts` makes of a key, given what the main DBI and the shadow
have for it. -/
def Outcome (ts : Timestamp) : Option Bytes → Option Bytes → Option Bytes → Prop
  | some v, none, after => Stamped ts noFlags v after
  | some v, some old, after =>
      (Retained ts v old ∧ after = some old) ∨ (¬ Retained ts v old ∧ Stamped ts noFlags v after)
  | none, none, after => after = none
  | none, some old, after =>
      (Tombstone old ∧ after = some old) ∨ (¬ Tombstone old ∧ Stamped ts flagDeleted [] after)

section Outcome

variable {main shadow : Dbi} {k v old app : Bytes} {h : Header}

theorem nil_of_noFlags (h : isDeleted noFlags = true) : v = [] := by
  rw [isDeleted_noFlags] at h
  cases h

theorem retained_iff (hp : parse old = .ok (h, app)) :
    Retained ts v old ↔ app = v ∨ ts < h.timestamp ∨ (ts = h.timestamp ∧ app ≤ v) := by
  constructor
  · rintro ⟨h', app', hp', hr⟩
    rw [hp] at hp'
    cases hp'
    exact hr
  · intro hr
    exact ⟨h, app, hp, hr⟩

theorem tombstone_iff (hp : parse old = .ok (h, app)) :
    Tombstone old ↔ isDeleted h.flags = true := by
  constructor
  · rintro ⟨h', app', hp', hdel⟩
    rw [hp] at hp'
    cases hp'
    exact hdel
  · intro hdel
    exact ⟨h, app, hp, hdel⟩

theorem stamped_addHeader {flags : Flags} {t : Timestamp}
    (hv : isDeleted flags = true → v = [])
    (ht : (shadowIterator ts txnID cutoff).writtenTS t = ts) :
    Stamped ts flags v (present (some ((shadowIterator ts txnID cutoff).addHeader v t flags))) := by
  obtain ⟨h, hp, hts, hfl⟩ := parse_shadow ts txnID cutoff v flags hv t
  exact ⟨_, h, present_eq_some.mpr ⟨rfl, parse_ok_ne_nil hp⟩, hp, hts.trans ht, hfl⟩

/-- **What `mainToShadow` leaves at a key is its outcome.** -/
theorem shadowedValue_outcome (hvalid : HeadersValid shadow) (k : Bytes) :
    Outcome ts (main.get k) (shadow.get k)
      (shadowedValue (shadowIterator ts txnID cutoff) main shadow k) := by
  unfold shadowedValue
  cases hm : main.get k with
  | some v =>
      cases hs : shadow.get k with
      | none =>
          simp only [oldVal, hs, Option.getD_none]
          rw [merged_of_ok (shadow_merged_absent k v)]
          exact stamped_addHeader nil_of_noFlags rfl
      | some old =>
          obtain ⟨⟨h, app⟩, hp⟩ := hvalid k old hs
          simp only [oldVal, hs, Option.getD_some]
          rw [merged_of_ok (merge_of_parse _ hp)]
          by_cases hkeep : (shadowIterator ts txnID cutoff).keeps (rawKv (k, v)) h app
          · rw [if_pos hkeep]
            exact Or.inl ⟨(retained_iff hp).mpr (shadow_keeps_iff.mp hkeep),
              present_eq_some.mpr ⟨rfl, parse_ok_ne_nil hp⟩⟩
          · rw [if_neg hkeep, rawKv_maskedFlags]
            refine Or.inr ⟨fun hr => hkeep (shadow_keeps_iff.mpr ((retained_iff hp).mp hr)), ?_⟩
            exact stamped_addHeader nil_of_noFlags (writtenTS_writtenTS _ _)
  | none =>
      cases hs : shadow.get k with
      | none => rfl
      | some old =>
          obtain ⟨⟨h, app⟩, hp⟩ := hvalid k old hs
          simp only [Option.bind_some]
          rw [cleaned_of_ok (clean_of_parse _ hp)]
          by_cases hdel : isDeleted h.flags = true
          · rw [if_pos hdel]
            exact Or.inl ⟨(tombstone_iff hp).mpr hdel, rfl⟩
          · rw [if_neg hdel]
            refine Or.inr ⟨fun ht => hdel ((tombstone_iff hp).mp ht), ?_⟩
            rw [← present_eq_some.mpr
              ⟨rfl, addHeader_ne_nil (shadowIterator ts txnID cutoff) _ _ _⟩]
            exact stamped_addHeader (fun _ => rfl) rfl

variable {m s a : Option Bytes}

/-- The outcome has a header if the stored value had. -/
theorem Outcome.valid (h : Outcome ts m s a) (hs : ∀ old, s = some old → ∃ r, parse old = .ok r)
    {raw : Bytes} (ha : a = some raw) : ∃ r, parse raw = .ok r := by
  have hstamped : ∀ {flags v}, Stamped ts flags v a → ∃ r, parse raw = .ok r := by
    rintro flags v ⟨raw', hd, hraw, hp, -⟩
    rw [ha] at hraw
    exact ⟨_, Option.some.inj hraw ▸ hp⟩
  have hkept : ∀ {old}, s = some old → a = some old → ∃ r, parse raw = .ok r := by
    intro old hold heq
    rw [ha] at heq
    exact hs raw (Option.some.inj heq ▸ hold)
  rcases m with - | v <;> rcases s with - | old
  · rw [show a = none from h] at ha
    cases ha
  · exact h.elim (fun h => hkept rfl h.2) (fun h => hstamped h.2)
  · exact hstamped h
  · exact h.elim (fun h => hkept rfl h.2) (fun h => hstamped h.2)

/-- No key is forgotten, and no other is added. -/
theorem Outcome.ne_none_iff (h : Outcome ts m s a) : a ≠ none ↔ m ≠ none ∨ s ≠ none := by
  have hstamped : ∀ {flags v}, Stamped ts flags v a → a ≠ none := by
    rintro flags v ⟨raw, hd, hraw, -⟩
    rw [hraw]
    exact nofun
  rcases m with - | v <;> rcases s with - | old
  · simp [show a = none from h]
  · refine ⟨fun _ => Or.inr nofun, fun _ => ?_⟩
    exact h.elim (fun h => by rw [h.2]; exact nofun) (fun h => hstamped h.2)
  · exact ⟨fun _ => Or.inl nofun, fun _ => hstamped h⟩
  · refine ⟨fun _ => Or.inr nofun, fun _ => ?_⟩
    exact h.elim (fun h => by rw [h.2]; exact nofun) (fun h => hstamped h.2)

end Outcome

/-! ## The two copies, key by key -/

/-- A main DBI with its shadow. Integer keys have one size in both. -/
structure ShadowPair where
  main : Dbi
  shadow : Dbi
  flags : shadow.flags = shadowFlags main.flags
  sizes : shadow.flags.Allowed (main.keys ++ shadow.keys)

theorem merge_of_valid (it : NativeIterator) (kv : Kv) {old : Bytes}
    (hold : old = [] ∨ ∃ r, parse old = .ok r) : ∃ r, it.merge kv old = .ok r := by
  rcases hold with rfl | ⟨⟨h, app⟩, hp⟩
  · unfold NativeIterator.merge
    rw [if_pos rfl]
    split
    · exact ⟨_, rfl⟩
    · exact ⟨_, rfl⟩
  · exact ⟨_, merge_of_parse it hp⟩

/-- **`mainToShadow`, key by key.** It succeeds when the main DBI lists its
keys in the order the shadow's walk expects. -/
theorem mainToShadow_spec (p : ShadowPair) (hvalid : HeadersValid p.shadow)
    (htxn : txnID ≠ 0) (hsorted : ([] :: p.main.keys).Pairwise (Less p.main.flags.integerKey))
    (b : Bool) :
    ∃ t, mainToShadow name cutoff ts txnID p.main ⟨p.shadow, b⟩ = .ok t ∧
      t.dbi.flags = p.shadow.flags ∧
      ∀ k, t.dbi.get k = shadowedValue (shadowIterator ts txnID cutoff) p.main p.shadow k := by
  set it := shadowIterator ts txnID cutoff with hit
  set msg : Reading Empty := Reading.ofList (p.main.entries.map rawKv) with hmsg
  have hik : p.shadow.flags.integerKey = p.main.flags.integerKey := by rw [p.flags]; rfl
  have hord : InOrder p.shadow.flags := inOrder_of_forward (by rw [p.flags]; rfl)
  have hkeys : (it.iterator msg).entries.map (it.iterator msg).key = p.main.keys :=
    keys_rawKv p.main
  have hmerge : ∀ (x : Kv) (old : Option Bytes), (∀ v, old = some v → ∃ r, parse v = .ok r) →
      (it.iterator msg).merge x old = .ok (it.merged x (old.getD [])) := by
    intro x old hold
    have hbytes : old.getD [] = [] ∨ ∃ r, parse (old.getD []) = .ok r := by
      cases old with
      | none => exact Or.inl rfl
      | some v => exact Or.inr (hold v rfl)
    obtain ⟨r, hr⟩ := merge_of_valid it x hbytes
    exact iterator_merge_of_ok hr
  obtain ⟨t, hrun, hflags, hget⟩ := @iterUpdate_spec _ _ (it.iterator msg) ⟨p.shadow, b⟩
    (fun kv old => it.merged kv (old.getD [])) (fun _ => it.cleaned) (p.main.keys ++ p.shadow.keys)
    rfl
    (by
      intro x hx
      rw [hik]
      apply (List.pairwise_cons.mp hsorted).1
      rw [← hkeys]
      exact List.mem_map.mpr ⟨x, hx, rfl⟩)
    (by
      rw [← hkeys]
      refine mergeable_of_sorted hord ?_ ?_ (fun x _ => hmerge x none nofun) ?_ ?_
      · rw [hkeys]
        exact p.sizes
      · rw [hkeys, hik]
        exact (List.pairwise_cons.mp hsorted).2
      · intro x _ v hv
        refine hmerge x (some v) fun w hw => ?_
        exact hvalid _ w (hv.trans hw)
      · intro c k v hv
        obtain ⟨⟨h, app⟩, hp⟩ := hvalid k v hv
        exact iterator_clean_of_ok (clean_of_parse it hp))
  refine ⟨t, ?_, hflags, fun k => ?_⟩
  · rw [mainToShadow_eq htxn]
    exact mapError_eq_ok.mpr hrun
  · rw [hget k]
    have hfind : (it.iterator msg).find k = (p.main.get k).map (fun v => rawKv (k, v)) :=
      find_map_entries (fun _ => rfl) k
    rw [hfind, shadowedValue]
    cases p.main.get k with
    | none => rfl
    | some v => rfl

/-! ## What the main DBI gets -/

/-- What `shadowToMain` makes of an entry of the shadow. -/
def plainVal (kv : Kv) : Option Bytes := present (some kv.value)

theorem replacing_plain (msg : Reading Empty) (hend : msg.ending = none) :
    Replacing (plainIterator msg) plainVal where
  ending := by
    show msg.ending.map IterErr.next = none
    rw [hend, Option.map_none]
  merge := by
    intro kv old
    refine ⟨_, rfl, ?_⟩
    unfold plainVal
    split
    · rename_i hnil
      rw [hnil, present_none, present_nil]
    · rfl
  clean := fun _ _ => rfl

theorem target_plain (shadow : Dbi) :
    (plainIterator (Reading.ofList (η := Empty) (shadow.entries.map headerKv))).target plainVal =
      plainValue shadow := by
  funext k
  have hfind : (plainIterator (Reading.ofList (η := Empty) (shadow.entries.map headerKv))).find k =
      (shadow.get k).map (fun v => headerKv (k, v)) := find_map_entries headerKv_key k
  rw [Iterator.target, hfind, plainValue]
  cases shadow.get k with
  | none => rfl
  | some v => simp [plainVal]

namespace ShadowPair

/-- The live key `k` of the shadow is copied to its place in the main DBI. -/
def Takes (p : ShadowPair) (k : Bytes) : Prop :=
  HasPlace p.main.flags.integerKey p.main.flags p.main.entries (plainValue p.shadow) k

theorem integerKey (p : ShadowPair) : p.shadow.flags.integerKey = p.main.flags.integerKey := by
  rw [p.flags]
  rfl

theorem allowed (p : ShadowPair) : p.main.flags.Allowed (p.main.keys ++ p.shadow.keys) :=
  ⟨p.sizes.1, fun hi => p.sizes.2 (p.integerKey.trans hi)⟩

theorem shadow_sorted (p : ShadowPair) :
    p.shadow.keys.Pairwise (Less p.main.flags.integerKey) := by
  rw [← p.integerKey]
  exact keys_less (inOrder_of_forward (by rw [p.flags]; rfl))

theorem live_mem {p : ShadowPair} {k : Bytes} (h : plainValue p.shadow k ≠ none) :
    k ∈ p.shadow.keys := by
  by_contra hno
  rw [plainValue, Dbi.get_eq_none_iff.mpr hno] at h
  exact h rfl

/-- The entries that `shadowToMain` has a value for. -/
theorem forall_live_iff (p : ShadowPair) (P : Bytes → Prop) :
    (∀ x ∈ p.shadow.entries.map headerKv, plainVal x ≠ none → P x.key) ↔
      ∀ k, plainValue p.shadow k ≠ none → P k := by
  constructor
  · intro h k hk
    obtain ⟨raw, hraw⟩ := Dbi.mem_keys_iff.mp (live_mem hk)
    have hmem := List.mem_map_of_mem (f := headerKv) (Dbi.mem_entries_iff.mpr hraw)
    rw [plainValue, hraw, Option.bind_some] at hk
    have hP := h _ hmem (by rwa [plainVal, headerKv_value])
    rwa [headerKv_key] at hP
  · rintro h x hx hval
    obtain ⟨e, he, rfl⟩ := List.mem_map.mp hx
    rw [headerKv_key]
    apply h
    rwa [plainValue, Dbi.mem_entries_iff.mp he, Option.bind_some, ← headerKv_value]

end ShadowPair

section ToMain

variable {p : ShadowPair}

theorem plain_sorted (p : ShadowPair) :
    ((p.shadow.entries.map headerKv).map Kv.key).Pairwise (Less p.main.flags.integerKey) := by
  rw [keys_headerKv]
  exact p.shadow_sorted

theorem plain_sizes (p : ShadowPair) :
    p.main.flags.Allowed ((p.shadow.entries.map headerKv).map Kv.key ++ p.main.keys) := by
  rw [keys_headerKv]
  exact p.allowed.subset fun k hk => List.mem_append.mpr (List.mem_append.mp hk).symm

theorem plain_ne (hzero : ∀ k ∈ p.shadow.keys, Less p.main.flags.integerKey [] k) :
    ∀ x ∈ p.shadow.entries.map headerKv, Less p.main.flags.integerKey [] x.key := by
  intro x hx
  apply hzero
  rw [← keys_headerKv]
  exact List.mem_map.mpr ⟨x, hx, rfl⟩

/-- **`shadowToMain`, key by key.** Nothing but the shadow decides what the main
DBI holds afterwards, if its live keys find their places. -/
theorem shadowToMain_of_takes (hvalid : HeadersValid p.shadow)
    (hzero : ∀ k ∈ p.shadow.keys, Less p.main.flags.integerKey [] k)
    (hplace : ∀ k, plainValue p.shadow k ≠ none → p.Takes k) (b : Bool) :
    ∃ t, shadowToMain name p.shadow ⟨p.main, b⟩ = .ok t ∧ t.dbi.flags = p.main.flags ∧
      ∀ k, t.dbi.get k = plainValue p.shadow k := by
  have hlive := (p.forall_live_iff p.Takes).mpr hplace
  unfold ShadowPair.Takes at hlive
  rw [← target_plain] at hlive
  obtain ⟨t, hrun, hflags, hget⟩ := iterUpdate_of_hasPlace (t := ⟨p.main, b⟩)
    (replacing_plain (Reading.ofList (p.shadow.entries.map headerKv)) rfl) (plain_ne hzero)
    (plain_sorted p) (plain_sizes p) hlive
  refine ⟨t, ?_, hflags, fun k => ?_⟩
  · rw [shadowToMain_eq hvalid]
    exact mapError_eq_ok.mpr hrun
  · rw [hget k, target_plain]

/-- A copy that loses none of them has found all their places. -/
theorem takes_of_shadowToMain {b : Bool} {t : Txn}
    (hrun : shadowToMain name p.shadow ⟨p.main, b⟩ = .ok t)
    (hkept : ∀ k, plainValue p.shadow k ≠ none → t.dbi.get k ≠ none) :
    ∀ k, plainValue p.shadow k ≠ none → p.Takes k := by
  obtain ⟨hvalid, hsorted⟩ := shadowToMain_sorted hrun
  rw [shadowToMain_eq hvalid] at hrun
  apply (p.forall_live_iff p.Takes).mp
  unfold ShadowPair.Takes
  rw [← target_plain]
  exact hasPlace_of_iterUpdate (t := ⟨p.main, b⟩)
    (replacing_plain (Reading.ofList (p.shadow.entries.map headerKv)) rfl)
    (plain_ne (List.pairwise_cons.mp hsorted).1) (plain_sorted p) (plain_sizes p)
    (mapError_eq_ok.mp hrun) ((p.forall_live_iff fun k => t.dbi.get k ≠ none).mpr hkept)

/-- In the walk's order every key has a place. -/
theorem takes_of_inOrder (hord : InOrder p.main.flags) {k : Bytes}
    (hk : plainValue p.shadow k ≠ none) : p.Takes k := by
  have hkU : k ∈ p.main.keys ++ p.shadow.keys :=
    List.mem_append_right _ (ShadowPair.live_mem hk)
  constructor
  · intro y hy hless
    have hyU : y.1 ∈ p.main.keys ++ p.shadow.keys :=
      List.mem_append_left _ (List.mem_map.mpr ⟨y, hy, rfl⟩)
    exact (less_iff_rank hord p.allowed hkU hyU).mp hless
  · intro _ j hj hless
    have hjU : j ∈ p.main.keys ++ p.shadow.keys :=
      List.mem_append_right _ (ShadowPair.live_mem hj)
    exact (less_iff_rank hord p.allowed hjU hkU).mp hless

/-- So has a key that the main DBI has already, if it lists its keys in that order. -/
theorem takes_of_mem (hmain : p.main.keys.Pairwise (Less p.main.flags.integerKey)) {k : Bytes}
    (hk : k ∈ p.main.keys) : p.Takes k := by
  constructor
  · exact fun y hy hless => before_of_less hmain hk (List.mem_map.mpr ⟨y, hy, rfl⟩) hless
  · intro hlow
    obtain ⟨y, hy, rfl⟩ := List.mem_map.mp hk
    exact absurd (hlow y hy) Less.irrefl

end ToMain

/-- A main DBI in another order than the walk's takes no new keys here. -/
theorem shadowToMain_spec (p : ShadowPair) (hvalid : HeadersValid p.shadow)
    (hzero : ∀ k ∈ p.shadow.keys, Less p.main.flags.integerKey [] k)
    (hmain : p.main.keys.Pairwise (Less p.main.flags.integerKey))
    (hnew : InOrder p.main.flags ∨
      ∀ k, plainValue p.shadow k ≠ none → k ∈ p.main.keys) (b : Bool) :
    ∃ t, shadowToMain name p.shadow ⟨p.main, b⟩ = .ok t ∧ t.dbi.flags = p.main.flags ∧
      ∀ k, t.dbi.get k = plainValue p.shadow k :=
  shadowToMain_of_takes hvalid hzero
    (fun k hk => hnew.elim (fun hord => takes_of_inOrder hord hk)
      fun hall => takes_of_mem hmain (hall k hk)) b

/-! ## There and back -/

/-- `mainToShadow` and `shadowToMain` in one transaction; the result is the
main DBI. -/
def roundTrip (dbiName shadowName : Bytes) (deletedCutoff ts : Timestamp) (txnID : TxnID)
    (p : ShadowPair) : Except ShadowErr Dbi := do
  let sh ← mainToShadow dbiName deletedCutoff ts txnID p.main (Txn.start p.shadow)
  let mn ← shadowToMain shadowName sh.dbi ⟨p.main, sh.dirty⟩
  .ok mn.dbi

/-- The shadow holds only entries from before `ts`, and Deleted ones are empty. -/
def TrackedBefore (ts : Timestamp) (shadow : Dbi) : Prop :=
  ∀ k v, shadow.get k = some v → ∃ h app, parse v = .ok (h, app) ∧ h.timestamp < ts ∧
    (isDeleted h.flags = true → app = [])

theorem TrackedBefore.valid {d : Dbi} (h : TrackedBefore ts d) : HeadersValid d := by
  intro k v hk
  obtain ⟨hd, app, hp, -⟩ := h k v hk
  exact ⟨_, hp⟩

/-- After `mainToShadow` the shadow has the main DBI's value at every key of
the main DBI, and an empty one at the others. -/
theorem shadowedValue_app {main shadow : Dbi} (ht : TrackedBefore ts shadow) (k : Bytes) :
    match main.get k with
    | some v => ∃ raw h, shadowedValue (shadowIterator ts txnID cutoff) main shadow k =
        some raw ∧ parse raw = .ok (h, v)
    | none => ∀ raw, shadowedValue (shadowIterator ts txnID cutoff) main shadow k =
        some raw → ∃ h, parse raw = .ok (h, []) := by
  have hout : Outcome ts (main.get k) (shadow.get k)
      (shadowedValue (shadowIterator ts txnID cutoff) main shadow k) :=
    shadowedValue_outcome ht.valid k
  cases hm : main.get k with
  | some v =>
      cases hs : shadow.get k with
      | none =>
          rw [hm, hs] at hout
          obtain ⟨raw, h, hraw, hp, -⟩ := hout
          exact ⟨raw, h, hraw, hp⟩
      | some old =>
          rw [hm, hs] at hout
          obtain ⟨h, app, hp, hlt, -⟩ := ht k old hs
          rcases hout with ⟨hret, hraw⟩ | ⟨-, raw, h', hraw, hp', -⟩
          · -- the stored entry is older, so it is kept only for its value
            rcases (retained_iff hp).mp hret with rfl | hgt | ⟨heq, -⟩
            · exact ⟨old, h, hraw, hp⟩
            · exact absurd hlt hgt.not_gt
            · exact absurd hlt (by rw [heq]; exact lt_irrefl _)
          · exact ⟨raw, h', hraw, hp'⟩
  | none =>
      intro raw hraw
      rw [hm, hraw] at hout
      cases hs : shadow.get k with
      | none =>
          rw [hs] at hout
          cases hout
      | some old =>
          rw [hs] at hout
          obtain ⟨h, app, hp, -, hdel⟩ := ht k old hs
          rcases hout with ⟨htomb, heq⟩ | ⟨-, raw', h', heq, hp', -⟩
          · rw [Option.some.inj heq, hp, hdel ((tombstone_iff hp).mp htomb)]
            exact ⟨h, rfl⟩
          · rw [Option.some.inj heq]
            exact ⟨h', hp'⟩

/-- `mainToShadow` forgets no key of either side and adds no other. -/
theorem shadowedValue_ne_none_iff {main shadow : Dbi} (hvalid : HeadersValid shadow)
    (k : Bytes) :
    shadowedValue (shadowIterator ts txnID cutoff) main shadow k ≠ none ↔
      k ∈ main.keys ∨ k ∈ shadow.keys := by
  have hout : Outcome ts (main.get k) (shadow.get k)
      (shadowedValue (shadowIterator ts txnID cutoff) main shadow k) :=
    shadowedValue_outcome hvalid k
  rw [hout.ne_none_iff, ne_eq, ne_eq, Dbi.get_eq_none_iff, Dbi.get_eq_none_iff, not_not, not_not]

/-- The pair after a successful `mainToShadow`. -/
theorem keys_after {p : ShadowPair} {sh : Dbi} (hvalid : HeadersValid p.shadow)
    (hget : ∀ k, sh.get k = shadowedValue (shadowIterator ts txnID cutoff) p.main p.shadow k)
    (k : Bytes) : k ∈ sh.keys ↔ k ∈ p.main.keys ∨ k ∈ p.shadow.keys := by
  have hiff : shadowedValue (shadowIterator ts txnID cutoff) p.main p.shadow k ≠ none ↔ _ :=
    shadowedValue_ne_none_iff hvalid k
  rw [← hiff, ← hget k, ne_eq, Dbi.get_eq_none_iff, not_not]

def ShadowPair.after (p : ShadowPair) (sh : Dbi) (hflags : sh.flags = p.shadow.flags)
    (hkeys : ∀ k, k ∈ sh.keys ↔ k ∈ p.main.keys ∨ k ∈ p.shadow.keys) : ShadowPair where
  main := p.main
  shadow := sh
  flags := hflags.trans p.flags
  sizes := by
    rw [hflags]
    apply p.sizes.subset
    intro k hk
    rcases List.mem_append.mp hk with hk | hk
    · exact List.mem_append_left _ hk
    · exact List.mem_append.mpr ((hkeys k).mp hk)

/-- The values the shadow gives back are those of the main DBI, save for the
empty ones. -/
theorem plainValue_after {main shadow sh : Dbi} (ht : TrackedBefore ts shadow)
    (hget : ∀ k, sh.get k = shadowedValue (shadowIterator ts txnID cutoff) main shadow k) :
    HeadersValid sh ∧
      ∀ k, plainValue sh k = (main.get k).bind fun v => present (some v) := by
  have happ : ∀ k, match main.get k with
      | some v => ∃ raw h, shadowedValue (shadowIterator ts txnID cutoff) main shadow k =
          some raw ∧ parse raw = .ok (h, v)
      | none => ∀ raw, shadowedValue (shadowIterator ts txnID cutoff) main shadow k =
          some raw → ∃ h, parse raw = .ok (h, []) := shadowedValue_app ht
  refine ⟨fun k raw hraw => ?_, fun k => ?_⟩
  · have hk := happ k
    rw [hget k] at hraw
    cases hm : main.get k with
    | some v =>
        rw [hm] at hk
        obtain ⟨raw', h, hraw', hp⟩ := hk
        rw [hraw] at hraw'
        exact ⟨_, Option.some.inj hraw' ▸ hp⟩
    | none =>
        rw [hm] at hk
        obtain ⟨h, hp⟩ := hk raw hraw
        exact ⟨_, hp⟩
  · have hk := happ k
    rw [plainValue, hget k]
    cases hm : main.get k with
    | some v =>
        rw [hm] at hk
        obtain ⟨raw, h, hraw, hp⟩ := hk
        rw [hraw, Option.bind_some, Option.bind_some, appOf_of_parse hp]
    | none =>
        rw [hm] at hk
        cases hraw : shadowedValue (shadowIterator ts txnID cutoff) main shadow k with
        | none => rfl
        | some raw =>
            obtain ⟨h, hp⟩ := hk raw hraw
            rw [Option.bind_some, appOf_of_parse hp, present_nil, Option.bind_none]

/-- The second copy gives the main DBI its values back, save for empty ones. -/
theorem shadowToMain_after {n : Bytes} {p : ShadowPair} {sh : Dbi} (ht : TrackedBefore ts p.shadow)
    (hflags : sh.flags = p.shadow.flags)
    (hget : ∀ k, sh.get k = shadowedValue (shadowIterator ts txnID cutoff) p.main p.shadow k)
    (hmain : p.main.keys.Pairwise (Less p.main.flags.integerKey))
    (hzero : ∀ k ∈ sh.keys, Less p.main.flags.integerKey [] k) (b : Bool) :
    ∃ mn, shadowToMain n sh ⟨p.main, b⟩ = .ok mn ∧ mn.dbi.flags = p.main.flags ∧
      ∀ k, mn.dbi.get k = (p.main.get k).bind fun v => present (some v) := by
  have hkeys := keys_after ht.valid hget
  obtain ⟨hvalid, hplain⟩ := plainValue_after ht hget
  have hnew : ∀ k, plainValue sh k ≠ none → k ∈ p.main.keys := by
    intro k hk
    by_contra hnot
    rw [hplain, Dbi.get_eq_none_iff.mpr hnot] at hk
    exact hk rfl
  obtain ⟨mn, hmn, hmflags, hmget⟩ := shadowToMain_spec (p.after sh hflags hkeys) hvalid
    hzero hmain (Or.inr hnew) b
  exact ⟨mn, hmn, hmflags, fun k => (hmget k).trans (hplain k)⟩

/-- **When a round trip preserves the application's data.** It does exactly
when no value is empty, the main DBI lists its keys in the order the walk
expects, and neither DBI has the integer key 0. -/
theorem round_trip_iff {n₁ n₂ : Bytes} (p : ShadowPair) (ht : TrackedBefore ts p.shadow)
    (htxn : txnID ≠ 0) :
    roundTrip n₁ n₂ cutoff ts txnID p = .ok p.main ↔
      (∀ k v, p.main.get k = some v → v ≠ []) ∧
      ([] :: p.main.keys).Pairwise (Less p.main.flags.integerKey) ∧
      ∀ k ∈ p.shadow.keys, Less p.main.flags.integerKey [] k := by
  have hik : p.shadow.flags.integerKey = p.main.flags.integerKey := by rw [p.flags]; rfl
  have hfirst : ([] :: p.main.keys).Pairwise (Less p.main.flags.integerKey) →
      ∃ sh, mainToShadow n₁ cutoff ts txnID p.main (Txn.start p.shadow) = .ok sh ∧
        sh.dbi.flags = p.shadow.flags ∧
        ∀ k, sh.dbi.get k =
          shadowedValue (shadowIterator ts txnID cutoff) p.main p.shadow k := fun hsorted =>
    mainToShadow_spec p ht.valid htxn hsorted false
  constructor
  · intro h
    unfold roundTrip at h
    obtain ⟨sh, hsh, h⟩ := bind_eq_ok.mp h
    obtain ⟨mn, hmn, h⟩ := bind_eq_ok.mp h
    have hsorted : ([] :: p.main.keys).Pairwise (Less p.main.flags.integerKey) :=
      hik ▸ mainToShadow_sorted htxn hsh
    obtain ⟨sh', hsh', hflags, hget⟩ := hfirst hsorted
    rw [hsh] at hsh'
    obtain rfl := Except.ok.inj hsh'
    have hkeys := keys_after ht.valid hget
    have hzero := (List.pairwise_cons.mp (shadowToMain_sorted hmn).2).1
    obtain ⟨mn', hmn', -, hmget⟩ := shadowToMain_after (n := n₂) ht hflags hget
      (List.pairwise_cons.mp hsorted).2 hzero sh.dirty
    rw [hmn] at hmn'
    obtain rfl := Except.ok.inj hmn'
    refine ⟨fun k v hk hv => ?_, hsorted, fun k hk => hzero k ((hkeys k).mpr (Or.inr hk))⟩
    -- an empty value is deleted on the way back
    have hlost := hmget k
    rw [Except.ok.inj h, hk, hv] at hlost
    cases hlost
  · rintro ⟨hne, hsorted, hzero⟩
    obtain ⟨hnil, hpw⟩ := List.pairwise_cons.mp hsorted
    obtain ⟨sh, hsh, hflags, hget⟩ := hfirst hsorted
    have hkeys := keys_after ht.valid hget
    obtain ⟨mn, hmn, hmflags, hmget⟩ := shadowToMain_after (n := n₂) ht hflags hget hpw
      (fun k hk => ((hkeys k).mp hk).elim (hnil k) (hzero k)) sh.dirty
    have hsame : mn.dbi = p.main := by
      apply Dbi.ext_get hmflags
      intro k
      rw [hmget k]
      cases hk : p.main.get k with
      | none => rfl
      | some v => exact present_eq_some.mpr ⟨rfl, hne k v hk⟩
    unfold roundTrip
    rw [hsh]
    simp only [bind, Except.bind, hmn, hsame]

/-- One entry in a plain main DBI whose shadow is still empty. -/
def freshPair (v : Bytes) : ShadowPair where
  main := (Dbi.empty KeyFlags.plain).set [1] v Dbi.allowed_one
  shadow := Dbi.empty KeyFlags.plain
  flags := rfl
  sizes := show KeyFlags.plain.Allowed [[1]] by decide

theorem round_trip_iff_fresh :
    TrackedBefore 5 (freshPair [7]).shadow ∧
      roundTrip [] [] 0 5 1 (freshPair [7]) = .ok (freshPair [7]).main := by
  have ht : TrackedBefore 5 (freshPair [7]).shadow := by
    intro k v hk
    cases hk
  refine ⟨ht, (round_trip_iff (freshPair [7]) ht (by decide)).mpr ⟨?_, by decide, by decide⟩⟩
  intro k v hk hv
  have hmem := Dbi.mem_entries_iff.mpr hk
  rw [hv] at hmem
  simp [freshPair, Dbi.entries, Dbi.set, Dbi.empty, SortedMap.insert, SortedMap.empty,
    insertEntry] at hmem

/-- An entry with an empty value does not survive. -/
theorem round_trip_drops_empty :
    (freshPair []).main.get [1] = some [] ∧ TrackedBefore 5 (freshPair []).shadow ∧
      (roundTrip [] [] 0 5 1 (freshPair [])).map (Dbi.get · [1]) = .ok none := by
  refine ⟨by decide, fun k v hk => ?_, by decide +kernel⟩
  cases hk

end LightningStream.Syncer
