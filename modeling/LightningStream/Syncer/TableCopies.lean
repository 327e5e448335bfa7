import LightningStream.Syncer.ShadowTables

/-!
# The two copies on whole environments

`mainToShadow` and `shadowToMain` are loops over the names of the DBIs. Each round
works on one DBI, so a loop is described by what a round does to its own DBI
(`foldlM_cells`). A round over a DBI with `MDB_DUPSORT` is a round over the DBI of
its encoded pairs, and the pairs are decoded on the way back.

The main result is that the two copies in a row leave the application's DBIs as
they were, also those with `MDB_DUPSORT` (`tables_round_trip`).
-/

namespace LightningStream.Syncer.ShadowTables

open Lmdb Snapshot Strategy Header

variable {η : Type}

/-! ## The encoded pairs -/

/-- A pair with the key that the hack gives it. -/
def encodedPair (p : Bytes × Bytes) : Bytes × Bytes := (encodedKey (rawKv p), p.2)

/-- What the hack accepts can be kept in a DBI without `MDB_DUPSORT`. -/
theorem exists_encoded {ps : List (Bytes × Bytes)} (h : Accepted (ps.map rawKv)) :
    ∃ e : Dbi, e.flags = KeyFlags.plain ∧ e.entries = ps.map encodedPair := by
  have hkeys : (ps.map rawKv).map encodedKey = (ps.map encodedPair).map Prod.fst := by
    rw [List.map_map, List.map_map]
    rfl
  have hsorted : ((ps.map encodedPair).map Prod.fst).Pairwise (· < ·) := by
    have hchain := List.isChain_iff_pairwise.mp h.2
    rw [hkeys] at hchain
    exact (List.pairwise_cons.mp hchain).2
  have hallowed : KeyFlags.plain.Allowed ((ps.map encodedPair).map Prod.fst) := by
    refine ⟨fun k hk => ?_, fun hi => by cases hi⟩
    obtain ⟨q, hq, rfl⟩ := List.mem_map.mp hk
    obtain ⟨p, hp, rfl⟩ := List.mem_map.mp hq
    have hlen := encodedKey_length (h.1 _ (List.mem_map.mpr ⟨p, hp, rfl⟩))
    exact ⟨by show 1 ≤ (encodedKey (rawKv p)).length; omega, hlen.2.2⟩
  refine ⟨⟨KeyFlags.plain, ⟨ps.map encodedPair, List.pairwise_map.mp hsorted⟩, hallowed⟩, rfl, ?_⟩
  show (ps.map encodedPair).map (fun e => (KeyFlags.plain.rank e.1, e.2)) = _
  simp

/-- The DBI without `MDB_DUPSORT` that `mainToShadow` copies for a DBI. -/
def Image (x : Table) (e : Dbi) : Prop :=
  match x with
  | .single d => e = d
  | .dup d => Accepted (d.pairs.map rawKv) ∧ e.flags = KeyFlags.plain ∧
      e.entries = d.pairs.map encodedPair

/-- The entries that `mainToShadow` copies are those of the image. -/
theorem encodeEntries_eq_ok {o : Options} {n : Bytes} {x : Table} (ho : Enabled o x)
    {kvs : List Kv} :
    encodeEntries (η := η) o n x.flags (x.entries.map rawKv) = .ok kvs ↔
      ∃ e, Image x e ∧ kvs = e.entries.map rawKv := by
  cases x with
  | single d =>
      have hoff : (o.dupSortHack && (Table.single d).flags.dupSort) = false := Bool.and_false _
      rw [encodeEntries, hoff]
      simp only [Bool.false_eq_true, if_false, Except.ok.injEq, Image, exists_eq_left]
      exact eq_comm
  | dup d =>
      have hon : (o.dupSortHack && (Table.dup d).flags.dupSort) = true := by
        rw [ho rfl]
        rfl
      rw [encodeEntries, if_pos hon, mapError_eq_ok, mapKvs_encodeNext]
      have henc : ((Table.dup d).entries.map rawKv).map encoded =
          (d.pairs.map encodedPair).map rawKv := by
        rw [List.map_map, List.map_map]
        rfl
      constructor
      · rintro ⟨hfits, hchain, rfl⟩
        obtain ⟨e, hflags, hentries⟩ := exists_encoded ⟨hfits, hchain⟩
        exact ⟨e, ⟨⟨hfits, hchain⟩, hflags, hentries⟩, by rw [hentries, henc]; rfl⟩
      · rintro ⟨e, ⟨⟨hfits, hchain⟩, -, hentries⟩, rfl⟩
        exact ⟨hfits, hchain, by rw [hentries, henc]⟩

/-! ## The copy to the shadow -/

section Copy

variable {o : Options} {cutoff ts : Timestamp} {txnID : TxnID} {t t' : TablesTxn} {n : Bytes}

/-- The shadow of a DBI before the copy: the one that exists, or a new one. -/
def oldShadow (c : Tables) (n : Bytes) (x : Table) : Table :=
  (c.get (shadowName n)).getD (.single (Dbi.empty (shadowFlags x.flags.keys)))

/-- **A round of `mainToShadow` that succeeded** has run the copy of one DBI on the image
of its own. -/
theorem shadowDbi_ok (hpriv : isPrivate n = false)
    (h : shadowDbi (η := η) o cutoff ts txnID t n = .ok t') :
    ∃ x e s b r, t.contents.get n = some x ∧ Enabled o x ∧ Image x e ∧
      oldShadow t.contents n x = .single s ∧
      Syncer.mainToShadow n cutoff ts txnID e ⟨s, b⟩ = .ok r ∧ txnID ≠ 0 ∧
      ∀ m, t'.contents.get m =
        if m = shadowName n then some (.single r.dbi) else t.contents.get m := by
  unfold shadowDbi at h
  rw [hpriv] at h
  simp only [Bool.false_eq_true, if_false] at h
  obtain ⟨msg, hmsg, h⟩ := bind_eq_ok.mp h
  obtain ⟨x, hx, h⟩ := bind_eq_ok.mp h
  have hx := openDBI_eq_ok.mp hx
  split at h
  · cases h
  · rename_i hcheck
    have ho := enabled_of_check hcheck
    rw [readDBI_main hx ho] at hmsg
    obtain rfl := Except.ok.inj hmsg
    obtain ⟨kvs, hkvs, h⟩ := bind_eq_ok.mp h
    obtain ⟨e, himage, rfl⟩ := (encodeEntries_eq_ok ho).mp hkvs
    obtain ⟨t₁, hcreate, h⟩ := bind_eq_ok.mp h
    obtain ⟨it, hit, h⟩ := bind_eq_ok.mp h
    have hget₁ := TablesTxn.create_eq_ok (mapError_eq_ok.mp hcreate)
    obtain ⟨y, r, hy, hr, -, hget'⟩ := TablesTxn.onTable_eq_ok h
    have hold : oldShadow t.contents n x = y := by
      rw [hget₁, if_pos rfl] at hy
      exact Option.some.inj hy
    cases y with
    | dup d => cases hr
    | single s =>
        obtain ⟨q, hq, hr⟩ := bind_eq_ok.mp hr
        obtain rfl := Except.ok.inj hr
        -- the iterator is the one of the copy of a single DBI
        have hrun : Syncer.mainToShadow n cutoff ts txnID e ⟨s, t₁.dirty⟩ = .ok q := by
          unfold Syncer.mainToShadow
          rw [readDBI_raw, mapError_eq_ok.mp hit]
          exact mapError_eq_ok.mpr (mapError_eq_ok.mp hq)
        refine ⟨x, e, s, t₁.dirty, q, hx, ho, himage, hold, hrun, mainToShadow_txnID hrun,
          fun m => ?_⟩
        rw [hget' m]
        by_cases hm : m = shadowName n
        · rw [if_pos hm, if_pos hm]
        · rw [if_neg hm, if_neg hm, hget₁, if_neg hm]

/-- What the copy makes of the shadow `s` of a DBI: the DBI `sh`, with what the image `e`
has. -/
structure Copied (cutoff ts : Timestamp) (txnID : TxnID) (x : Table) (s e sh : Dbi) : Prop where
  image : Image x e
  flags : sh.flags = s.flags
  sorted : ([] :: e.keys).Pairwise (Less e.flags.integerKey)
  entries : ∀ k, sh.get k = shadowedValue (shadowIterator ts txnID cutoff) e s k

/-- A shadow that the copy can work on. -/
structure Shadowable (x : Table) (s : Dbi) : Prop where
  flags : s.flags = shadowFlags x.flags.keys
  headers : HeadersValid s
  /-- Integer keys have one size in both. -/
  sizes : ∀ e, Image x e → s.flags.Allowed (e.keys ++ s.keys)
  /-- Keys with `MDB_DUPSORT` are byte strings. -/
  plain : x.flags.dupSort = true → x.flags.keys = KeyFlags.plain

theorem Shadowable.image_flags {x : Table} {s e : Dbi} (h : Shadowable x s) (he : Image x e) :
    e.flags = x.flags.keys := by
  cases x with
  | single d => rw [show e = d from he]; rfl
  | dup d => exact he.2.1.trans (h.plain rfl).symm

/-- The image with its shadow. -/
def Shadowable.pair {x : Table} {s e : Dbi} (h : Shadowable x s) (he : Image x e) : ShadowPair :=
  ⟨e, s, by rw [h.flags, h.image_flags he], h.sizes e he⟩

/-- Before it is filled, a new shadow can be worked on. -/
theorem shadowable_empty {x : Table}
    (hplain : x.flags.dupSort = true → x.flags.keys = KeyFlags.plain) :
    Shadowable x (Dbi.empty (shadowFlags x.flags.keys)) where
  flags := rfl
  headers := fun k v hk => by cases hk
  sizes := by
    intro e he
    have hflags : e.flags = x.flags.keys := by
      cases x with
      | single d => rw [show e = d from he]; rfl
      | dup d => exact he.2.1.trans (hplain rfl).symm
    have hkeys := e.keys_allowed
    rw [hflags] at hkeys
    show (shadowFlags x.flags.keys).Allowed (e.keys ++ [])
    rw [List.append_nil]
    exact ⟨hkeys.1, hkeys.2⟩
  plain := hplain

/-- Every shadow of the environment can be worked on, and so can those that are to be
created. -/
def Workable (c : Tables) : Prop :=
  ∀ n x, isPrivate n = false → c.get n = some x →
    ∃ s, oldShadow c n x = .single s ∧ Shadowable x s

theorem appNames_nodup (c : Tables) : (appNames c).Nodup := c.names_nodup.filter _

theorem mem_appNames {c : Tables} :
    n ∈ appNames c ↔ isPrivate n = false ∧ ∃ x, c.get n = some x := by
  unfold appNames
  rw [List.mem_filter, Tables.mem_names_iff, Bool.not_eq_true', and_comm]

theorem not_mem_shadowNames {m : Bytes} {l : List Bytes} (h : isPrivate m = false) :
    m ∉ l.map shadowName := by
  intro hm
  obtain ⟨k, -, hk⟩ := List.mem_map.mp hm
  exact shadowName_ne h hk

/-- **`mainToShadow` over an environment**: every DBI of the application has been copied to
its shadow, and nothing but shadows has changed. -/
theorem mainToShadow_ok {c : Tables} {b : Bool} (hc : Workable c)
    (h : mainToShadow (η := η) o cutoff ts txnID ⟨c, b⟩ = .ok t') :
    (∀ n x, isPrivate n = false → c.get n = some x → Enabled o x ∧ ∃ s e sh,
      oldShadow c n x = .single s ∧ Shadowable x s ∧ Copied cutoff ts txnID x s e sh ∧
      t'.contents.get (shadowName n) = some (.single sh)) ∧
    ∀ m, (∀ n, isPrivate n = false → (c.get n).isSome → m ≠ shadowName n) →
      t'.contents.get m = c.get m := by
  unfold mainToShadow at h
  rw [foldlM_skip (p := isPrivate) (fun n hn s => by rw [shadowDbi, if_pos hn])] at h
  have hdone := foldlM_cells_ok (fun s : TablesTxn => s.contents.get) shadowName
    (fun n y => ∀ x, c.get n = some x → Enabled o x ∧ ∃ s e sh,
      oldShadow c n x = .single s ∧ Shadowable x s ∧ Copied cutoff ts txnID x s e sh ∧
      y = some (.single sh)) h
    ((appNames_nodup c).map fun _ _ heq => shadowName_inj.mp heq)
    (by
      intro n hn s s' hun hs'
      obtain ⟨hpriv, x, hx⟩ := mem_appNames.mp hn
      obtain ⟨x', e, sh, b, r, hx', ho, hi, hsh, hrun, htxn, hget⟩ := shadowDbi_ok hpriv hs'
      have hmain : s.contents.get n = c.get n := hun.outside n (not_mem_shadowNames hpriv)
      obtain rfl : x' = x := Option.some.inj (hx'.symm.trans (hmain.trans hx))
      have hold : oldShadow c n x' = .single sh := by
        rw [← hsh]
        unfold oldShadow
        rw [show s.contents.get (shadowName n) = c.get (shadowName n) from hun.own]
      obtain ⟨sh', hsh', hable⟩ := hc n x' hpriv hx
      obtain rfl : sh' = sh := Table.single.inj (hsh'.symm.trans hold)
      refine ⟨fun y hy => ?_, fun m hm => by rw [hget m, if_neg hm]⟩
      obtain rfl : x' = y := Option.some.inj (hx.symm.trans hy)
      have hsorted := mainToShadow_sorted htxn hrun
      have hik : (Txn.mk sh' b).dbi.flags.integerKey = e.flags.integerKey := by
        show sh'.flags.integerKey = _
        rw [hable.flags, hable.image_flags hi]
        rfl
      rw [hik] at hsorted
      obtain ⟨r', hrun', hflags, hentries⟩ := mainToShadow_spec (hable.pair hi) hable.headers htxn
        hsorted b
      obtain rfl := Except.ok.inj (hrun.symm.trans hrun')
      exact ⟨ho, sh', e, r.dbi, hold, hable, ⟨hi, hflags, hsorted, hentries⟩, by
        rw [hget, if_pos rfl]⟩)
  refine ⟨fun n x hpriv hx => ?_, fun m hm => hdone.2 m fun hmem => ?_⟩
  · exact hdone.1 n (mem_appNames.mpr ⟨hpriv, x, hx⟩) x hx
  · obtain ⟨n, hn, rfl⟩ := List.mem_map.mp hmem
    obtain ⟨hpriv, x, hx⟩ := mem_appNames.mp hn
    exact hm n hpriv (by rw [hx]; rfl) rfl

end Copy

/-! ## Decoding -/

/-- A key that the hack has made. -/
def Decodable (k : Bytes) : Prop := ∃ e : Kv, KeyFits e ∧ encodedKey e = k

/-- The key that the hack reads off a key. -/
def decodedKey (k : Bytes) : Bytes := k.take (k.getLastD 0).toNat

theorem decodedKey_encodedKey {e : Kv} (h : KeyFits e) : decodedKey (encodedKey e) = e.key := by
  rw [decodedKey, getLastD_encodedKey h, take_encodedKey]

/-- An entry with the key that is read off its own. -/
def decoded (kv : Kv) : Kv := ⟨decodedKey kv.key, kv.value, 0, kv.flags⟩

/-- The value plays no part in decoding a key. -/
theorem decodeOne_of_decodable {kv : Kv} (h : Decodable kv.key) :
    dupSortHackDecodeOne kv = .ok (decoded kv) := by
  obtain ⟨e, hfits, hkey⟩ := h
  have hok := decodeOne_encoded hfits
  unfold dupSortHackDecodeOne at hok ⊢
  rw [show (encoded e).key = kv.key from hkey] at hok
  split at hok
  · cases hok
  · rename_i h6
    rw [if_neg h6]
    dsimp only at hok ⊢
    split at hok
    · cases hok
    · rename_i h5
      rw [if_neg h5]
      split at hok
      · cases hok
      · rename_i hsep
        rw [if_neg hsep]
        rfl

theorem mapKvs_decodable {kvs : List Kv} (h : ∀ kv ∈ kvs, Decodable kv.key) :
    mapKvs decodeNext () kvs = .ok (kvs.map decoded) := by
  induction kvs with
  | nil => rfl
  | cons kv kvs ih =>
      obtain ⟨hkv, hall⟩ := List.forall_mem_cons.mp h
      rw [List.map_cons, mapKvs, decodeNext, decodeOne_of_decodable hkv]
      simp only [bind, Except.bind, ih hall]

/-! ## The copy back -/

section Back

variable {o : Options} {n : Bytes} {s : Dbi} {t : TablesTxn}

/-- The copy back into a DBI without `MDB_DUPSORT` is the one of a single DBI. -/
theorem putBack_single {name : Bytes} {d : Dbi} {b : Bool} {r : Txn} (hvalid : HeadersValid s)
    (h : Syncer.shadowToMain name s ⟨d, b⟩ = .ok r) :
    putBack (η := η) n (s.entries.map headerKv) (.single d) b = .ok (.single r.dbi, r.dirty) := by
  rw [shadowToMain_eq hvalid] at h
  rw [putBack, mapError_eq_ok.mp h]
  rfl

/-- **The copy back into a DBI with `MDB_DUPSORT`** leaves the pairs whose value the shadow
has. -/
theorem putBack_dup {d : DupDbi} {K : List Bytes} (hdec : ∀ k ∈ s.keys, Decodable k)
    (hK : d.flags.Allowed K)
    (hfits : ∀ k v, plainValue s k = some v → decodedKey k ∈ K ∧ v.length ≤ maxKeySize)
    (b : Bool) :
    ∃ d' b', putBack (η := η) n (s.entries.map headerKv) (.dup d) b = .ok (.dup d', b') ∧
      d'.flags = d.flags ∧
      ∀ p, p ∈ d'.pairs ↔ ∃ k, plainValue s k = some p.2 ∧ decodedKey k = p.1 := by
  set kvs := (s.entries.map headerKv).map decoded with hkvs
  have hmap : mapKvs decodeNext () (s.entries.map headerKv) = .ok kvs := by
    apply mapKvs_decodable
    intro kv hkv
    obtain ⟨e, he, rfl⟩ := List.mem_map.mp hkv
    rw [headerKv_key]
    exact hdec e.1 (List.mem_map.mpr ⟨e, he, rfl⟩)
  -- an entry of the iterator comes from an entry of the shadow
  have hentry : ∀ kv v, kv ∈ kvs →
      (present (if kv.value = [] then none else some kv.value) = some v ↔
        kv.value = v ∧ v ≠ []) := by
    intro kv v _
    by_cases hnil : kv.value = []
    · rw [if_pos hnil, present_none]
      constructor
      · intro h
        cases h
      · rintro ⟨rfl, hne⟩
        exact absurd hnil hne
    · rw [if_neg hnil, present_eq_some, Option.some.injEq]
  have hmem : ∀ kv, kv ∈ kvs → ∃ k v, s.get k = some v ∧ kv.key = decodedKey k ∧
      kv.value = appOf v := by
    intro kv hkv
    obtain ⟨x, hx, rfl⟩ := List.mem_map.mp hkv
    obtain ⟨e, he, rfl⟩ := List.mem_map.mp hx
    exact ⟨e.1, e.2, Dbi.mem_entries_iff.mp he, by simp [decoded], by simp [decoded]⟩
  have hplain : ∀ {k v app}, s.get k = some v → appOf v = app → app ≠ [] →
      plainValue s k = some app := by
    rintro k v app hk rfl hne
    rw [plainValue, hk, Option.bind_some]
    exact present_eq_some.mpr ⟨rfl, hne⟩
  obtain ⟨r, hrun, hflags, hpairs⟩ := @emptyPut_dup _ _
    (plainIterator (η := Empty) (Reading.ofList kvs))
    (fun kv => if kv.value = [] then none else some kv.value) K rfl (fun _ _ => rfl) ⟨d, b⟩ hK
    (by
      intro kv hkv v hv
      obtain ⟨hval, hne⟩ := (hentry kv v hkv).mp hv
      obtain ⟨k, w, hk, hkey, hvalue⟩ := hmem kv hkv
      rw [show (plainIterator (η := Empty) (Reading.ofList kvs)).key kv = decodedKey k from hkey]
      exact hfits k v (hplain hk (hvalue.symm.trans hval) hne))
  refine ⟨r.dbi, r.dirty, ?_, hflags, fun p => ?_⟩
  · unfold putBack
    rw [hmap]
    simp only [Except.mapError, bind, Except.bind, hrun]
  · rw [hpairs p]
    constructor
    · rintro ⟨kv, hkv, hkey, hv⟩
      obtain ⟨hval, hne⟩ := (hentry kv p.2 hkv).mp hv
      obtain ⟨k, w, hk, hkey', hvalue⟩ := hmem kv hkv
      exact ⟨k, hplain hk (hvalue.symm.trans hval) hne, (hkey.trans hkey').symm⟩
    · rintro ⟨k, hk, hkey⟩
      obtain ⟨w, hw, hpw⟩ := Option.bind_eq_some_iff.mp hk
      obtain ⟨hval, hne⟩ := present_eq_some.mp hpw
      have hin : decoded (headerKv (k, w)) ∈ kvs := List.mem_map.mpr
        ⟨_, List.mem_map.mpr ⟨_, Dbi.mem_entries_iff.mpr hw, rfl⟩, rfl⟩
      refine ⟨_, hin, ?_, (hentry _ _ hin).mpr ⟨?_, hne⟩⟩
      · rw [← hkey]
        simp [plainIterator, decoded]
      · simpa [decoded] using hval

/-- A round of `shadowToMain`. -/
theorem mainDbi_spec {x y : Table} {b : Bool} (hpriv : isPrivate n = false)
    (hx : t.contents.get n = some x) (ho : Enabled o x)
    (hs : t.contents.get (shadowName n) = some (.single s)) (hvalid : HeadersValid s)
    (hput : putBack (η := η) n (s.entries.map headerKv) x t.dirty = .ok (y, b)) :
    ∃ t', mainDbi (η := η) o t n = .ok t' ∧
      ∀ m, t'.contents.get m = if m = n then some y else t.contents.get m := by
  obtain ⟨t', ht', -, hget⟩ := TablesTxn.onTable_spec (.notFound n) hx hput
  refine ⟨t', ?_, hget⟩
  unfold mainDbi
  rw [hpriv, openDBI_eq_ok.mpr hx, readDBI_shadow hpriv hx ho hs hvalid]
  simp only [Bool.false_eq_true, if_false, bind, Except.bind, ho.check]
  exact ht'

/-- A DBI that the copy back turns into one with the property `P`. -/
def Restores (o : Options) (c : Tables) (P : Bytes → Table → Prop) (n : Bytes) (x : Table) :
    Prop :=
  Enabled o x ∧ ∃ s, c.get (shadowName n) = some (.single s) ∧ HeadersValid s ∧
    ∀ b, ∃ y b', putBack (η := η) n (s.entries.map headerKv) x b = .ok (y, b') ∧ P n y

/-- **`shadowToMain` over an environment**: every DBI of the application becomes what its
shadow makes of it, and the syncer's own DBIs stay as they are. -/
theorem shadowToMain_spec {c : Tables} {b : Bool} {P : Bytes → Table → Prop}
    (h : ∀ n x, isPrivate n = false → c.get n = some x → Restores (η := η) o c P n x) :
    ∃ t', shadowToMain (η := η) o ⟨c, b⟩ = .ok t' ∧
      (∀ n x, isPrivate n = false → c.get n = some x →
        ∃ y, t'.contents.get n = some y ∧ P n y) ∧
      ∀ m, isPrivate m = true ∨ c.get m = none → t'.contents.get m = c.get m := by
  unfold shadowToMain
  rw [foldlM_skip (p := isPrivate) (fun n hn s => by rw [mainDbi, if_pos hn])]
  obtain ⟨t', hrun, hdone⟩ : ∃ t', (appNames c).foldlM (mainDbi (η := η) o) ⟨c, b⟩ = .ok t' ∧
      Done (fun s : TablesTxn => s.contents.get) id (fun n y => ∃ z, y = some z ∧ P n z)
        (appNames c) ⟨c, b⟩ t' := by
    apply foldlM_cells
    · rw [List.map_id]
      exact appNames_nodup c
    · intro n hn r hun
      obtain ⟨hpriv, x, hx⟩ := mem_appNames.mp hn
      obtain ⟨ho, s, hs, hvalid, hput⟩ := h n x hpriv hx
      have hx' : r.contents.get n = some x := hun.own.trans hx
      have hs' : r.contents.get (shadowName n) = some (.single s) := by
        refine (hun.outside (shadowName n) fun hmem => ?_).trans hs
        rw [List.map_id] at hmem
        have hno := (mem_appNames.mp hmem).1
        rw [isPrivate_shadowName] at hno
        cases hno
      obtain ⟨y, b', hy, hP⟩ := hput r.dirty
      obtain ⟨r', hr', hget⟩ := mainDbi_spec hpriv hx' ho hs' hvalid hy
      refine ⟨r', hr', ⟨⟨y, ?_, hP⟩, fun m hm => ?_⟩⟩
      · show r'.contents.get n = _
        rw [hget, if_pos rfl]
      · rw [hget, if_neg (show m ≠ n from hm)]
  refine ⟨t', hrun, fun n x hpriv hx => ?_, fun m hm => hdone.2 m fun hmem => ?_⟩
  · exact hdone.1 n (mem_appNames.mpr ⟨hpriv, x, hx⟩)
  · rw [List.map_id] at hmem
    obtain ⟨hpriv, x, hx⟩ := mem_appNames.mp hmem
    rcases hm with hm | hm
    · rw [hpriv] at hm
      cases hm
    · rw [hx] at hm
      cases hm

end Back

/-! ## There and back -/

/-- What the application keeps in a DBI: no empty values. -/
def Storable : Table → Prop
  | .single d => ∀ k v, d.get k = some v → v ≠ []
  | .dup d => ∀ p ∈ d.pairs, p.2 ≠ []

/-- The keys of a shadow that can be brought back: not the integer 0, which the walk takes
for no key, and with `MDB_DUPSORT` the keys that the hack makes. -/
def Returnable (x : Table) (s : Dbi) : Prop :=
  match x with
  | .single d => ∀ k ∈ s.keys, Less d.flags.integerKey [] k
  | .dup _ => ∀ k ∈ s.keys, Decodable k

/-- An environment whose shadows are older than `ts`. -/
def Ready (ts : Timestamp) (c : Tables) : Prop :=
  ∀ n x, isPrivate n = false → c.get n = some x → Storable x ∧
    ∃ s, oldShadow c n x = .single s ∧ Shadowable x s ∧ TrackedBefore ts s ∧ Returnable x s

section RoundTrip

variable {o : Options} {cutoff ts : Timestamp} {txnID : TxnID} {c : Tables} {n : Bytes}
  {s e sh : Dbi} {x : Table}

theorem Ready.workable (h : Ready ts c) : Workable c := by
  intro n x hpriv hx
  obtain ⟨-, s, hs, hable, -⟩ := h n x hpriv hx
  exact ⟨s, hs, hable⟩

/-- The keys of an image that the hack made. -/
theorem image_decodable {d : DupDbi} (he : Image (.dup d) e) {k : Bytes} (hk : k ∈ e.keys) :
    Decodable k := by
  obtain ⟨hacc, -, hentries⟩ := he
  unfold Dbi.keys at hk
  rw [hentries] at hk
  obtain ⟨q, hq, rfl⟩ := List.mem_map.mp hk
  obtain ⟨p, hp, rfl⟩ := List.mem_map.mp hq
  exact ⟨rawKv p, hacc.1 _ (List.mem_map.mpr ⟨p, hp, rfl⟩), rfl⟩

/-- The pairs of a DBI, read off its image. -/
theorem mem_pairs_of_image {d : DupDbi} (he : Image (.dup d) e) {p : Bytes × Bytes} :
    p ∈ d.pairs ↔ ∃ k, e.get k = some p.2 ∧ decodedKey k = p.1 := by
  obtain ⟨hacc, -, hentries⟩ := he
  have hfits : ∀ q ∈ d.pairs, KeyFits (rawKv q) := fun q hq =>
    hacc.1 _ (List.mem_map.mpr ⟨q, hq, rfl⟩)
  constructor
  · intro hp
    refine ⟨encodedKey (rawKv p), Dbi.mem_entries_iff.mp ?_, decodedKey_encodedKey (hfits p hp)⟩
    rw [hentries]
    exact List.mem_map.mpr ⟨p, hp, rfl⟩
  · rintro ⟨k, hk, hkey⟩
    have hmem := Dbi.mem_entries_iff.mpr hk
    rw [hentries] at hmem
    obtain ⟨q, hq, heq⟩ := List.mem_map.mp hmem
    obtain ⟨hk', hv⟩ := Prod.mk.inj heq
    rw [← hk', decodedKey_encodedKey (hfits q hq)] at hkey
    have hpq : q = p := Prod.ext hkey hv
    exact hpq ▸ hq

/-- A shadow that says what the image has. -/
theorem plainValue_copied (ht : TrackedBefore ts s) (hc : Copied cutoff ts txnID x s e sh)
    {k v : Bytes} : plainValue sh k = some v ↔ e.get k = some v ∧ v ≠ [] := by
  rw [(plainValue_after ht hc.entries).2 k]
  cases e.get k with
  | none => simp
  | some w => rw [Option.bind_some, present_eq_some]

/-- A key of a copied shadow is one of the image or of the shadow before. -/
theorem keys_copied (hable : Shadowable x s) (ht : TrackedBefore ts s)
    (hc : Copied cutoff ts txnID x s e sh) {k : Bytes} (hk : k ∈ sh.keys) :
    k ∈ e.keys ∨ k ∈ s.keys :=
  (keys_after (p := hable.pair hc.image) ht.valid hc.entries k).mp hk

/-- **The copy back from a shadow that says what the image has** makes the DBI of the image,
whatever the DBI has held before. -/
theorem putBack_image {d d₀ : DupDbi} (hstore : Storable (.dup d)) (he : Image (.dup d) e)
    (hdec : ∀ k ∈ sh.keys, Decodable k)
    (hvalue : ∀ k v, plainValue sh k = some v ↔ e.get k = some v ∧ v ≠ [])
    (hflags : d₀.flags = d.flags) (b : Bool) :
    ∃ b', putBack (η := η) n (sh.entries.map headerKv) (.dup d₀) b = .ok (.dup d, b') := by
  have hkeys : d₀.flags.Allowed d.keys := hflags ▸ d.keys_allowed
  obtain ⟨d', b', hput, hflags', hpairs⟩ := putBack_dup (η := η) (n := n) hdec hkeys
    (fun k v hk => by
      have hp : (decodedKey k, v) ∈ d.pairs :=
        (mem_pairs_of_image he).mpr ⟨k, ((hvalue k v).mp hk).1, rfl⟩
      exact ⟨List.mem_map.mpr ⟨_, hp, rfl⟩, DupDbi.value_short hp⟩) b
  have hsame : d' = d := by
    apply DupDbi.ext_pairs (hflags'.trans hflags)
    intro p
    rw [hpairs p, mem_pairs_of_image he]
    constructor
    · rintro ⟨k, hk, hkey⟩
      exact ⟨k, ((hvalue k p.2).mp hk).1, hkey⟩
    · rintro ⟨k, hk, hkey⟩
      refine ⟨k, (hvalue k p.2).mpr ⟨hk, hstore p ?_⟩, hkey⟩
      exact (mem_pairs_of_image he).mpr ⟨k, hk, hkey⟩
  exact ⟨b', by rw [hput, hsame]⟩

/-- **The copy back undoes the copy**, for one DBI. -/
theorem putBack_copied (hstore : Storable x) (hable : Shadowable x s) (ht : TrackedBefore ts s)
    (hret : Returnable x s) (hc : Copied cutoff ts txnID x s e sh) (b : Bool) :
    ∃ b', putBack (η := η) n (sh.entries.map headerKv) x b = .ok (x, b') := by
  cases x with
  | single d =>
      obtain rfl : e = d := hc.image
      obtain ⟨hnil, hsorted⟩ := List.pairwise_cons.mp hc.sorted
      obtain ⟨mn, hmn, hflags, hget⟩ : ∃ mn, Syncer.shadowToMain n sh ⟨e, b⟩ = .ok mn ∧
          mn.dbi.flags = e.flags ∧
          ∀ k, mn.dbi.get k = (e.get k).bind fun v => present (some v) :=
        shadowToMain_after (p := hable.pair hc.image) ht hc.flags hc.entries hsorted
          (fun k hk => (keys_copied hable ht hc hk).elim (hnil k) (hret k)) b
      have hsame : mn.dbi = e := by
        apply Dbi.ext_get hflags
        intro k
        rw [hget k]
        cases hk : e.get k with
        | none => rfl
        | some v => exact present_eq_some.mpr ⟨rfl, hstore k v hk⟩
      exact ⟨mn.dirty, by rw [putBack_single (plainValue_after ht hc.entries).1 hmn, hsame]⟩
  | dup d =>
      exact putBack_image hstore hc.image
        (fun k hk => (keys_copied hable ht hc hk).elim (image_decodable hc.image) (hret k))
        (fun _ _ => plainValue_copied ht hc) rfl b

/-- **Copying an environment to its shadows and back leaves the application's DBIs as they
were**, those with `MDB_DUPSORT` as well, whenever the copy to the shadows succeeds. Of the
syncer's own DBIs only shadows change, and only by the first copy. -/
theorem tables_round_trip (hc : Ready ts c) {b : Bool} {t : TablesTxn}
    (h : mainToShadow (η := η) o cutoff ts txnID ⟨c, b⟩ = .ok t) :
    ∃ t', shadowToMain (η := η) o t = .ok t' ∧
      (∀ n, isPrivate n = false → t'.contents.get n = c.get n) ∧
      ∀ n, isPrivate n = true → t'.contents.get n = t.contents.get n := by
  obtain ⟨hcopied, hframe⟩ := mainToShadow_ok hc.workable h
  have hmain : ∀ n, isPrivate n = false → t.contents.get n = c.get n := fun n hn =>
    hframe n fun m _ _ heq => shadowName_ne hn heq.symm
  obtain ⟨t', hrun, hback, hown⟩ := shadowToMain_spec (o := o) (c := t.contents) (b := t.dirty)
    (P := fun n y => c.get n = some y) (η := η) (by
      intro n x hpriv hx
      rw [hmain n hpriv] at hx
      obtain ⟨ho, s, e, sh, hs, hable, hcop, hsh⟩ := hcopied n x hpriv hx
      obtain ⟨hstore, s', hs', -, ht, hret⟩ := hc n x hpriv hx
      obtain rfl : s = s' := Table.single.inj (hs.symm.trans hs')
      refine ⟨ho, sh, hsh, (plainValue_after ht hcop.entries).1, fun b => ?_⟩
      obtain ⟨b', hput⟩ := putBack_copied (η := η) (n := n) hstore hable ht hret hcop b
      exact ⟨x, b', hput, hx⟩)
  refine ⟨t', hrun, fun n hpriv => ?_, fun n hpriv => hown n (Or.inl hpriv)⟩
  cases hx : c.get n with
  | none =>
      have hnone : t.contents.get n = none := (hmain n hpriv).trans hx
      rw [hown n (Or.inr hnone), hnone]
  | some x =>
      obtain ⟨y, hy, hcy⟩ := hback n x hpriv ((hmain n hpriv).trans hx)
      rw [hy, ← hcy, hx]

end RoundTrip

/-! ### An environment with a DBI of each kind -/

def twoPairs : DupDbi :=
  ((DupDbi.empty KeyFlags.plain).insert [7] [1] (by decide)).insert [7] [2] (by decide)

def twoTables : Tables :=
  (Tables.empty.set (ascii "a") (.dup twoPairs) (by decide)).set (ascii "b") (.single oneKey)
    (by decide)

def hackOptions : Options := ⟨true, false, fun _ => none⟩

theorem twoTables_get {n : Bytes} {x : Table} (h : twoTables.get n = some x) :
    n = ascii "a" ∧ x = .dup twoPairs ∨ n = ascii "b" ∧ x = .single oneKey := by
  unfold twoTables at h
  rw [Tables.get_set, Tables.get_set] at h
  split at h
  · rename_i hn
    exact Or.inr ⟨hn, (Option.some.inj h).symm⟩
  · split at h
    · rename_i hn
      exact Or.inl ⟨hn, (Option.some.inj h).symm⟩
    · cases h

theorem twoTables_ready : Ready 5 twoTables := by
  intro n x hpriv hx
  have hempty : TrackedBefore 5 (Dbi.empty KeyFlags.plain) := fun k v hk => by cases hk
  rcases twoTables_get hx with ⟨rfl, rfl⟩ | ⟨rfl, rfl⟩
  · refine ⟨?_, Dbi.empty KeyFlags.plain, by decide +kernel,
      shadowable_empty fun _ => rfl, hempty, fun k hk => by cases hk⟩
    show ∀ p ∈ twoPairs.pairs, p.2 ≠ []
    decide +kernel
  · refine ⟨fun k v hk => ?_, Dbi.empty KeyFlags.plain, by decide +kernel,
      shadowable_empty fun _ => rfl, hempty, fun k hk => by cases hk⟩
    have hmem := Dbi.mem_entries_iff.mpr hk
    rw [show oneKey.entries = [([1], [8])] by decide, List.mem_singleton] at hmem
    rw [(Prod.mk.inj hmem).2]
    decide

theorem tables_round_trip_two :
    ∃ t t', mainToShadow (η := Empty) hackOptions 0 5 1 ⟨twoTables, false⟩ = .ok t ∧
      shadowToMain (η := Empty) hackOptions t = .ok t' ∧
      t'.contents.get (ascii "a") = some (.dup twoPairs) := by
  have hok : (mainToShadow (η := Empty) hackOptions 0 5 1 ⟨twoTables, false⟩).toOption.isSome :=
    by decide +kernel
  cases hrun : mainToShadow (η := Empty) hackOptions 0 5 1 ⟨twoTables, false⟩ with
  | error e =>
      rw [hrun] at hok
      cases hok
  | ok t =>
      obtain ⟨t', hback, happ, -⟩ := tables_round_trip twoTables_ready hrun
      exact ⟨t, t', rfl, hback, (happ _ (by decide)).trans (by decide +kernel)⟩

end LightningStream.Syncer.ShadowTables
