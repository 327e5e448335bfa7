import LightningStream.Snapshot.Map
import LightningStream.Syncer.Native

/-!
# The dupsort hack

A DBI with `MDB_DUPSORT` can hold several values for a key. To copy it into a
shadow DBI, each pair gets a key of its own: the key, a separator of four zero
bytes, as much of the value as fits into a key of LMDB, and a byte with the
length of the key. The encoder refuses entries whose new keys are not in
strictly increasing order; this is all that it checks, and `mapKvs_encodeNext`
says so.

What it accepts can be decoded again. What it accepts is less than its comments
say, though: the length byte takes part in the comparison where one value of a
key is the beginning of the next one.
-/

namespace LightningStream.Syncer

open Snapshot

def lmdbMaxKeySize : ℕ := 511
def dupSortHackMaxKeySize : ℕ := 255

inductive DupSortHackErr
  /-- "empty key not supported by dupsort_hack". -/
  | emptyKey
  /-- "key size exceeds dupsort_hack max size". -/
  | keySize (key : Bytes)
  /-- "not a valid dupsort_hack dump (key)". -/
  | notValidKey (key : Bytes)
  /-- "not a valid dupsort_hack dump (key len)". -/
  | notValidKeyLen (key : Bytes)
  /-- "not a valid dupsort_hack dump (no separator)". -/
  | noSeparator (key : Bytes)
  /-- "dupsort_hack does not result in unique keys". -/
  | notUnique (key : Bytes)
  /-- "dupsort_hack results in reverse sort order". -/
  | reverseOrder (key : Bytes)
deriving DecidableEq

def separator : Bytes := [0, 0, 0, 0]

def dupSortHackEncodeOne (e : Kv) : Except DupSortHackErr Kv :=
  if e.key.length = 0 then .error .emptyKey
  else if e.key.length > dupSortHackMaxKeySize then .error (.keySize e.key)
  else
    let key := e.key ++ separator
    -- the last byte is reserved for the length
    let remaining := lmdbMaxKeySize - key.length - 1
    let key := if e.value.length > remaining then key ++ e.value.take remaining
      else key ++ e.value
    .ok ⟨key ++ [UInt8.ofNat e.key.length], e.value, 0, e.flags⟩

def dupSortHackDecodeOne (e : Kv) : Except DupSortHackErr Kv :=
  if e.key.length < 6 then .error (.notValidKey e.key)
  else
    let keyLen := (e.key.getLastD 0).toNat
    if e.key.length < keyLen + 5 then .error (.notValidKeyLen e.key)
    else if (e.key.drop keyLen).take 4 ≠ separator then .error (.noSeparator e.key)
    else .ok ⟨e.key.take keyLen, e.value, 0, e.flags⟩

/-- The closure of `dupSortHackEncode`, which keeps the previous key. -/
def encodeNext : KVMapFunc Bytes DupSortHackErr := fun prevKey kv => do
  let kv ← dupSortHackEncodeOne kv
  if prevKey = kv.key then .error (.notUnique kv.key)
  else if kv.key < prevKey then .error (.reverseOrder kv.key)
  else .ok (kv, kv.key)

def decodeNext : KVMapFunc Unit DupSortHackErr := fun _ kv => do
  let kv ← dupSortHackDecodeOne kv
  .ok (kv, ())

def dupSortHackEncode (V : Varint) (G : Growth) (dbiMsg : DBI) :
    Except (Fault (MapErr DupSortHackErr)) DBI :=
  dbiMsg.map V G encodeNext transformDupSortHackV1 []

def dupSortHackDecode (V : Varint) (G : Growth) (dbiMsg : DBI) :
    Except (Fault (MapErr DupSortHackErr)) DBI :=
  dbiMsg.map V G decodeNext [] ()

/-! ## One entry -/

def KeyFits (e : Kv) : Prop := 1 ≤ e.key.length ∧ e.key.length ≤ 255

instance keyFitsDecidable (e : Kv) : Decidable (KeyFits e) :=
  inferInstanceAs (Decidable (_ ∧ _))

def encodedKey (e : Kv) : Bytes :=
  e.key ++ separator ++ e.value.take (506 - e.key.length) ++ [UInt8.ofNat e.key.length]

def encoded (e : Kv) : Kv := ⟨encodedKey e, e.value, 0, e.flags⟩

/-- The entry without the timestamp. -/
def untimed (e : Kv) : Kv := ⟨e.key, e.value, 0, e.flags⟩

theorem encodeOne_eq_ok {e r : Kv} :
    dupSortHackEncodeOne e = .ok r ↔ KeyFits e ∧ r = encoded e := by
  unfold dupSortHackEncodeOne KeyFits dupSortHackMaxKeySize
  by_cases h0 : e.key.length = 0
  · simp [h0]
  · by_cases h255 : e.key.length > 255
    · rw [if_neg h0, if_pos h255]
      simp only [reduceCtorEq, false_iff]
      omega
    · rw [if_neg h0, if_neg h255]
      have hrem : lmdbMaxKeySize - (e.key ++ separator).length - 1 = 506 - e.key.length := by
        simp only [lmdbMaxKeySize, separator, List.length_append, List.length_cons,
          List.length_nil]
        omega
      have hkey : (if e.value.length > 506 - e.key.length then
            e.key ++ separator ++ e.value.take (506 - e.key.length)
          else e.key ++ separator ++ e.value) =
          e.key ++ separator ++ e.value.take (506 - e.key.length) := by
        split
        · rfl
        · rw [List.take_of_length_le (by omega)]
      have hok : 1 ≤ e.key.length ∧ e.key.length ≤ 255 := by omega
      simp only [hrem, hkey, hok, and_self, true_and, Except.ok.injEq]
      exact eq_comm

theorem encodedKey_length {e : Kv} (h : KeyFits e) :
    6 ≤ (encodedKey e).length ∧ e.key.length + 5 ≤ (encodedKey e).length ∧
      (encodedKey e).length ≤ 511 := by
  obtain ⟨h1, h255⟩ := h
  simp only [encodedKey, separator, List.length_append, List.length_cons, List.length_nil,
    List.length_take]
  omega

/-- The length byte does not wrap around. -/
theorem getLastD_encodedKey {e : Kv} (h : KeyFits e) :
    ((encodedKey e).getLastD 0).toNat = e.key.length := by
  have hlt : e.key.length < 256 := by have := h.2; omega
  rw [encodedKey, List.getLastD_concat]
  exact UInt8.toNat_ofNat_of_lt' hlt

theorem take_encodedKey (e : Kv) : (encodedKey e).take e.key.length = e.key := by
  simp [encodedKey]

theorem decodeOne_encoded {e : Kv} (h : KeyFits e) :
    dupSortHackDecodeOne (encoded e) = .ok (untimed e) := by
  obtain ⟨h6, h5, -⟩ := encodedKey_length h
  have hsep : ((encodedKey e).drop e.key.length).take 4 = separator := by
    simp [encodedKey, separator]
  unfold dupSortHackDecodeOne
  show (if (encodedKey e).length < 6 then _ else _) = _
  simp only [encoded, getLastD_encodedKey h, take_encodedKey, hsep]
  rw [if_neg (by omega), if_neg (by omega), if_neg (by simp)]
  rfl

/-- The key can be read off the encoded one, so different keys stay different. -/
theorem key_eq_of_encodedKey_eq {e₁ e₂ : Kv} (h₁ : KeyFits e₁) (h₂ : KeyFits e₂)
    (h : encodedKey e₁ = encodedKey e₂) : e₁.key = e₂.key := by
  have hlen : e₁.key.length = e₂.key.length := by
    rw [← getLastD_encodedKey h₁, h, getLastD_encodedKey h₂]
  calc e₁.key = (encodedKey e₁).take e₁.key.length := (take_encodedKey e₁).symm
    _ = (encodedKey e₂).take e₂.key.length := by rw [h, hlen]
    _ = e₂.key := take_encodedKey e₂

/-! ## All entries -/

theorem encodeNext_eq_ok {prevKey : Bytes} {kv : Kv} {r : Kv × Bytes} :
    encodeNext prevKey kv = .ok r ↔
      KeyFits kv ∧ prevKey < encodedKey kv ∧ r = (encoded kv, encodedKey kv) := by
  unfold encodeNext
  rw [bind_eq_ok]
  constructor
  · rintro ⟨kv', henc, h⟩
    obtain ⟨hkv, rfl⟩ := encodeOne_eq_ok.mp henc
    split at h
    · cases h
    · rename_i hne
      split at h
      · cases h
      · rename_i hnlt
        exact ⟨hkv, lt_of_le_of_ne (not_lt.mp hnlt) hne, (Except.ok.inj h).symm⟩
  · rintro ⟨hkv, hlt, rfl⟩
    refine ⟨encoded kv, encodeOne_eq_ok.mpr ⟨hkv, rfl⟩, ?_⟩
    have hne : ¬ prevKey = (encoded kv).key := hlt.ne
    have hnlt : ¬ (encoded kv).key < prevKey := hlt.not_gt
    rw [if_neg hne, if_neg hnlt]
    rfl

/-- **What the encoder accepts**: entries with keys of 1 to 255 bytes whose
encoded keys increase. -/
theorem mapKvs_encodeNext {kvs kvs' : List Kv} {prevKey : Bytes} :
    mapKvs encodeNext prevKey kvs = .ok kvs' ↔
      (∀ kv ∈ kvs, KeyFits kv) ∧ (prevKey :: kvs.map encodedKey).IsChain (· < ·) ∧
        kvs' = kvs.map encoded := by
  induction kvs generalizing prevKey kvs' with
  | nil =>
      rw [mapKvs]
      simp [eq_comm]
  | cons kv kvs ih =>
      rw [mapKvs, bind_eq_ok, List.map_cons, List.isChain_cons_cons, List.forall_mem_cons,
        List.map_cons]
      constructor
      · rintro ⟨r, hr, h⟩
        obtain ⟨rest, hrest, h⟩ := bind_eq_ok.mp h
        obtain ⟨hkv, hlt, rfl⟩ := encodeNext_eq_ok.mp hr
        obtain ⟨hall, hchain, rfl⟩ := ih.mp hrest
        exact ⟨⟨hkv, hall⟩, ⟨hlt, hchain⟩, (Except.ok.inj h).symm⟩
      · rintro ⟨⟨hkv, hall⟩, ⟨hlt, hchain⟩, rfl⟩
        refine ⟨_, encodeNext_eq_ok.mpr ⟨hkv, hlt, rfl⟩, bind_eq_ok.mpr ⟨_, ?_, rfl⟩⟩
        exact ih.mpr ⟨hall, hchain, rfl⟩

theorem mapKvs_decodeNext {kvs : List Kv} (h : ∀ kv ∈ kvs, KeyFits kv) :
    mapKvs decodeNext () (kvs.map encoded) = .ok (kvs.map untimed) := by
  induction kvs with
  | nil => rfl
  | cons kv kvs ih =>
      obtain ⟨hkv, hall⟩ := List.forall_mem_cons.mp h
      rw [List.map_cons, List.map_cons, mapKvs, decodeNext, decodeOne_encoded hkv]
      simp only [bind, Except.bind, ih hall]

section Encode

variable {V : Varint} [V.Lawful] {G : Growth} {d : DBI} {kvs : List Kv}

theorem transform_length_le : transformDupSortHackV1.length ≤ 50 := by decide

/-- Entries with encodable keys, whose encoded keys increase. -/
def Accepted (kvs : List Kv) : Prop :=
  (∀ kv ∈ kvs, KeyFits kv) ∧ ([] :: kvs.map encodedKey).IsChain (· < ·)

instance acceptedDecidable (kvs : List Kv) : Decidable (Accepted kvs) :=
  inferInstanceAs (Decidable (_ ∧ _))

theorem dupSortHackEncode_eq_ok {d' : DBI} (hname : d.name.length ≤ 511) (hkvs : d.Holds V kvs)
    (henc : dupSortHackEncode V G d = .ok d') :
    Accepted kvs ∧ Built V d' (kvs.map encoded) ∧ d'.name = d.name := by
  rcases DBI.map_cases (G := G) (f := encodeNext) [] transform_length_le hname hkvs with
    ⟨kvs', d₁, hok, hd₁, hbuilt, hhead⟩ | ⟨e, -, herr⟩
  · obtain rfl : d₁ = d' := Except.ok.inj (hd₁.symm.trans henc)
    obtain ⟨hall, hchain, rfl⟩ := mapKvs_encodeNext.mp hok
    exact ⟨⟨hall, hchain⟩, hbuilt, congrArg Head.name hhead⟩
  · cases herr.symm.trans henc

theorem dupSortHackEncode_accepts (hname : d.name.length ≤ 511) (hkvs : d.Holds V kvs) :
    (∃ d', dupSortHackEncode V G d = .ok d') ↔ Accepted kvs := by
  constructor
  · rintro ⟨d', henc⟩
    exact (dupSortHackEncode_eq_ok hname hkvs henc).1
  · rintro ⟨hall, hchain⟩
    have hok := mapKvs_encodeNext.mpr ⟨hall, hchain, rfl⟩
    rcases DBI.map_cases (G := G) (f := encodeNext) [] transform_length_le hname hkvs with
      ⟨-, d', -, hd', -⟩ | ⟨e, herr, -⟩
    · exact ⟨d', hd'⟩
    · cases herr.symm.trans hok

end Encode

/-! ## Lossless -/

/-- The entries, with keys of up to 1024 bytes, leave room in the address space
of a 64 bit machine. -/
def Addressable (kvs : List Kv) : Prop :=
  (kvs.map fun kv => kv.value.length + 1024).sum + 1024 < 2 ^ 63

instance addressableDecidable (kvs : List Kv) : Decidable (Addressable kvs) :=
  inferInstanceAs (Decidable (_ < _))

theorem encoded_ne_empty (e : Kv) : encoded e ≠ .empty := by
  intro h
  have hkey : encodedKey e = [] := congrArg Kv.key h
  simp [encodedKey, separator] at hkey

theorem untimed_ne_empty {e : Kv} (h : KeyFits e) : untimed e ≠ .empty := by
  intro hempty
  have hkey : e.key = [] := congrArg Kv.key hempty
  have hpos := h.1
  rw [hkey] at hpos
  exact absurd hpos (by decide)

/-- The map of addressable entries to others with the same value is held by what
is built from it. -/
theorem Addressable.holds {V : Varint} [V.Lawful] {d : DBI} {kvs : List Kv} {g : Kv → Kv}
    (hmem : Addressable kvs) (hb : Built V d (kvs.map g))
    (hg : ∀ kv ∈ kvs, g kv ≠ .empty ∧ (g kv).value = kv.value ∧ (g kv).key.length ≤ 511) :
    d.Holds V (kvs.map g) := by
  refine hb.holds ?_ ?_
  · intro kv hkv
    obtain ⟨e, he, rfl⟩ := List.mem_map.mp hkv
    exact (hg e he).1
  · have hle : ((kvs.map g).map fun kv => kv.key.length + kv.value.length + 53).sum ≤
        (kvs.map fun kv => kv.value.length + 1024).sum := by
      rw [List.map_map]
      apply List.sum_le_sum
      intro kv hkv
      obtain ⟨-, hvalue, hkey⟩ := hg kv hkv
      simp only [Function.comp_apply, hvalue]
      omega
    unfold Addressable at hmem
    omega

/-- The part of an entry that the hack is about. -/
def content (kv : Kv) : Bytes × Bytes × UInt32 := (kv.key, kv.value, kv.flags)

/-- **The hack is lossless.** The entries of an encoded message have strictly
increasing keys that LMDB accepts, and decoding it gives the entries of the
original message. Different keys are encoded differently. Names of DBIs are keys
in LMDB as well and have at most 511 bytes. -/
theorem dupSortHack_lossless (V : Varint) [V.Lawful] (G : Growth) {d d' : DBI} {kvs : List Kv}
    (hname : d.name.length ≤ 511) (hkvs : d.Holds V kvs) (hmem : Addressable kvs)
    (henc : dupSortHackEncode V G d = .ok d') :
    (∃ enc, d'.Holds V enc ∧ (enc.map Kv.key).Pairwise (· < ·) ∧ (enc.map Kv.key).Nodup ∧
      ∀ kv ∈ enc, kv.key.length ≤ 511) ∧
    (∃ d'' dec, dupSortHackDecode V G d' = .ok d'' ∧ d''.Holds V dec ∧
      dec.map content = kvs.map content) ∧
    ∀ e₁ e₂ r₁ r₂, dupSortHackEncodeOne e₁ = .ok r₁ → dupSortHackEncodeOne e₂ = .ok r₂ →
      e₁.key ≠ e₂.key → r₁.key ≠ r₂.key := by
  obtain ⟨⟨hall, hchain⟩, hbuilt, hname'⟩ := dupSortHackEncode_eq_ok hname hkvs henc
  have hholds : d'.Holds V (kvs.map encoded) := hmem.holds hbuilt fun kv hkv =>
    ⟨encoded_ne_empty kv, rfl, (encodedKey_length (hall kv hkv)).2.2⟩
  refine ⟨⟨_, hholds, ?_⟩, ?_, ?_⟩
  · have hsorted : ((kvs.map encoded).map Kv.key).Pairwise (· < ·) := by
      rw [List.map_map]
      exact (List.pairwise_cons.mp (List.isChain_iff_pairwise.mp hchain)).2
    refine ⟨hsorted, hsorted.imp fun h => ne_of_lt h, ?_⟩
    intro kv hkv
    obtain ⟨e, he, rfl⟩ := List.mem_map.mp hkv
    exact (encodedKey_length (hall e he)).2.2
  · have hdec := mapKvs_decodeNext hall
    have hlen : ([] : Bytes).length ≤ 50 := by decide
    rcases DBI.map_cases (G := G) (f := decodeNext) () hlen (hname' ▸ hname) hholds with
      ⟨kvs'', d'', hok'', hd'', hb'', -⟩ | ⟨e, herr, -⟩
    · obtain rfl : kvs'' = kvs.map untimed := Except.ok.inj (hok''.symm.trans hdec)
      refine ⟨d'', _, hd'', hmem.holds hb'' ?_, ?_⟩
      · intro kv hkv
        have hkey := (hall kv hkv).2
        exact ⟨untimed_ne_empty (hall kv hkv), rfl, by show kv.key.length ≤ 511; omega⟩
      · rw [List.map_map]
        rfl
    · cases herr.symm.trans hdec
  · intro e₁ e₂ r₁ r₂ h₁ h₂ hne heq
    obtain ⟨hk₁, rfl⟩ := encodeOne_eq_ok.mp h₁
    obtain ⟨hk₂, rfl⟩ := encodeOne_eq_ok.mp h₂
    exact hne (key_eq_of_encodedKey_eq hk₁ hk₂ heq)

/-- A key with two values, the second of which goes on where the first ends. -/
def pairedDBI : DBI :=
  ⟨[100], 4, [], [10, 1, 100, 24, 4, 18, 6, 10, 1, 7, 18, 1, 1, 18, 7, 10, 1, 7, 18, 2, 1, 2, 18, 3,
    10, 1, 8], 10485768, false, true⟩

def pairedKvs : List Kv := [⟨[7], [1], 0, 0⟩, ⟨[7], [1, 2], 0, 0⟩, ⟨[8], [], 0, 0⟩]

theorem pairedDBI_holds : pairedDBI.Holds leb128 pairedKvs := by decide +kernel

theorem dupSortHack_lossless_paired :
    ∃ d' d'' dec, dupSortHackEncode leb128 tightGrowth pairedDBI = .ok d' ∧
      dupSortHackDecode leb128 tightGrowth d' = .ok d'' ∧ d''.Holds leb128 dec ∧
      dec.map content = [([7], [1], 0), ([7], [1, 2], 0), ([8], [], 0)] := by
  obtain ⟨d', henc⟩ := (dupSortHackEncode_accepts (G := tightGrowth) (by decide)
    pairedDBI_holds).mpr (by decide)
  obtain ⟨-, ⟨d'', dec, hdec, hread, hcontent⟩, -⟩ :=
    dupSortHack_lossless leb128 tightGrowth (by decide) pairedDBI_holds (by decide) henc
  exact ⟨d', d'', dec, henc, hdec, hread, hcontent⟩

/-! ## Order -/

/-- The order of the pairs in a DBI with `MDB_DUPSORT`. -/
def DupSortLess (a b : Kv) : Prop := a.key < b.key ∨ a.key = b.key ∧ a.value < b.value

/-- Pairs as LMDB iterates over them, short ones, and without zeros that could
be taken for the separator. -/
structure Ordered (kvs : List Kv) : Prop where
  sorted : kvs.Pairwise DupSortLess
  key : ∀ kv ∈ kvs, 1 ≤ kv.key.length ∧ kv.key.length ≤ 255 ∧ 0 ∉ kv.key
  value : ∀ kv ∈ kvs, kv.value.length ≤ 200 ∧ ¬ separator <:+: kv.value

/-- The next value of the key goes on, where this one ends, with a byte that is
smaller than the length of the key. -/
def CutShort (a b : Kv) : Prop :=
  a.key = b.key ∧ ∃ c rest, b.value = a.value ++ c :: rest ∧ c.toNat < a.key.length

theorem Ordered.tail {kv : Kv} {kvs : List Kv} (h : Ordered (kv :: kvs)) : Ordered kvs where
  sorted := (List.pairwise_cons.mp h.sorted).2
  key := fun e he => h.key e (List.mem_cons_of_mem _ he)
  value := fun e he => h.value e (List.mem_cons_of_mem _ he)

/-- A short value is encoded whole. -/
theorem encodedKey_of_short {e : Kv} (hkey : e.key.length ≤ 255) (hvalue : e.value.length ≤ 200) :
    encodedKey e = e.key ++ (separator ++ (e.value ++ [UInt8.ofNat e.key.length])) := by
  rw [encodedKey, List.take_of_length_le (by omega)]
  simp only [List.append_assoc]

/-- The separator sorts a key before the keys that it is the beginning of. -/
theorem append_zeros_lt {k k' : Bytes} (h : k < k') (h0 : 0 ∉ k') (s s' : Bytes) :
    k ++ (separator ++ s) < k' ++ (separator ++ s') := by
  rcases lt_iff_extends_or_differs.mp h with ⟨c, rest, rfl⟩ | ⟨p, x, y, as, bs, rfl, rfl, hxy⟩
  · have hc : c ≠ 0 := by
      rintro rfl
      exact h0 (by simp)
    rw [List.append_assoc, append_lt_append_iff]
    exact List.cons_lt_cons_iff.mpr (Or.inl (UInt8.pos_iff_ne_zero.mpr hc))
  · rw [List.append_assoc, List.append_assoc, append_lt_append_iff]
    exact List.cons_lt_cons_iff.mpr (Or.inl hxy)

/-- Behind equal keys, the values decide, unless one ends where the other goes
on: then the length byte is compared. -/
theorem append_length_lt_iff {v v' : Bytes} (h : v < v') (l : UInt8) :
    v ++ [l] < v' ++ [l] ↔ ¬ ∃ c rest, v' = v ++ c :: rest ∧ c < l := by
  rcases lt_iff_extends_or_differs.mp h with ⟨c, rest, rfl⟩ | ⟨p, x, y, as, bs, rfl, rfl, hxy⟩
  · rw [List.append_assoc, append_lt_append_iff, List.cons_append, List.cons_lt_cons_iff]
    constructor
    · rintro hlt ⟨c', rest', heq, hc⟩
      obtain ⟨rfl, -⟩ := List.cons.inj (List.append_cancel_left heq)
      rcases hlt with hlt | ⟨rfl, -⟩
      · exact lt_asymm hlt hc
      · exact lt_irrefl _ hc
    · intro hno
      have hle : l ≤ c := not_lt.mp fun hc => hno ⟨c, rest, rfl, hc⟩
      rcases lt_or_eq_of_le hle with hlt | heq
      · exact Or.inl hlt
      · exact Or.inr ⟨heq, nil_lt_concat rest l⟩
  · have hlt : (p ++ x :: as) ++ [l] < (p ++ y :: bs) ++ [l] := by
      rw [List.append_assoc, List.append_assoc, append_lt_append_iff]
      exact List.cons_lt_cons_iff.mpr (Or.inl hxy)
    refine iff_of_true hlt ?_
    rintro ⟨c, rest, heq, -⟩
    rw [List.append_assoc] at heq
    obtain ⟨rfl, -⟩ := List.cons.inj (List.append_cancel_left heq)
    exact lt_irrefl _ hxy

theorem encodedKey_lt_iff {a b : Kv} {kvs : List Kv} (h : Ordered (a :: b :: kvs)) :
    encodedKey a < encodedKey b ↔ ¬ CutShort a b := by
  obtain ⟨-, ha255, -⟩ := h.key a List.mem_cons_self
  obtain ⟨-, hb255, hb0⟩ := h.key b (List.mem_cons_of_mem _ List.mem_cons_self)
  rw [encodedKey_of_short ha255 (h.value a List.mem_cons_self).1,
    encodedKey_of_short hb255 (h.value b (List.mem_cons_of_mem _ List.mem_cons_self)).1]
  rcases (List.pairwise_cons.mp h.sorted).1 b List.mem_cons_self with hlt | ⟨hkey, hlt⟩
  · exact iff_of_true (append_zeros_lt hlt hb0 _ _) fun hcut => hlt.ne hcut.1
  · have hlen : ∀ c : UInt8, c < UInt8.ofNat a.key.length ↔ c.toNat < a.key.length := by
      intro c
      have hsize : a.key.length < 256 := by omega
      rw [UInt8.lt_iff_toNat_lt, UInt8.toNat_ofNat_of_lt' hsize]
    rw [← hkey, append_lt_append_iff, append_lt_append_iff, append_length_lt_iff hlt]
    refine not_congr ⟨?_, ?_⟩
    · rintro ⟨c, rest, hvalue, hc⟩
      exact ⟨hkey, c, rest, hvalue, (hlen c).mp hc⟩
    · rintro ⟨-, c, rest, hvalue, hc⟩
      exact ⟨c, rest, hvalue, (hlen c).mpr hc⟩

theorem isChain_encodedKey_iff {kvs : List Kv} (h : Ordered kvs) :
    ([] :: kvs.map encodedKey).IsChain (· < ·) ↔ kvs.IsChain fun a b => ¬ CutShort a b := by
  have hchain : (kvs.map encodedKey).IsChain (· < ·) ↔
      kvs.IsChain fun a b => ¬ CutShort a b := by
    induction kvs with
    | nil => simp
    | cons a kvs ih =>
        cases kvs with
        | nil => simp
        | cons b kvs =>
            rw [List.map_cons, List.map_cons, List.isChain_cons_cons, List.isChain_cons_cons,
              encodedKey_lt_iff h, ← List.map_cons, ih h.tail]
  rw [← hchain]
  cases kvs with
  | nil => simp
  | cons a kvs =>
      have hpos : [] < encodedKey a := nil_lt_concat _ _
      rw [List.map_cons, List.isChain_cons_cons]
      exact and_iff_right hpos

/-- **When the encoder keeps the order of LMDB.** It accepts short pairs without
zeros iff no value of a key is followed by one that goes on with a byte smaller
than the length of the key. -/
theorem dupSortHackEncode_ok_iff (V : Varint) [V.Lawful] (G : Growth) {d : DBI} {kvs : List Kv}
    (hname : d.name.length ≤ 511) (hkvs : d.Holds V kvs) (hin : Ordered kvs) :
    (∃ d', dupSortHackEncode V G d = .ok d') ↔ kvs.IsChain fun a b => ¬ CutShort a b := by
  have hfits : ∀ kv ∈ kvs, KeyFits kv := fun kv hkv => ⟨(hin.key kv hkv).1, (hin.key kv hkv).2.1⟩
  rw [dupSortHackEncode_accepts hname hkvs, ← isChain_encodedKey_iff hin]
  exact and_iff_right hfits

/-- The values 1 and 1, 2 of a key with one byte. -/
theorem dupSortHackEncode_ok_paired :
    ∃ d', dupSortHackEncode leb128 tightGrowth pairedDBI = .ok d' := by
  have hin : Ordered pairedKvs := by
    refine ⟨?_, by decide, by decide⟩
    simp [pairedKvs, DupSortLess, show ([7] : Bytes) < [8] by decide]
  refine (dupSortHackEncode_ok_iff leb128 tightGrowth (by decide) pairedDBI_holds hin).mpr ?_
  simp [pairedKvs, CutShort]

/-- The values "a" and "a\x01" of the key "key" are refused, though there is no
zero in the data: the length of the key is 3, and 1 is smaller. -/
theorem cut_short_refused :
    ∃ (d : DBI) (kvs : List Kv), d.name.length ≤ 511 ∧ d.Holds leb128 kvs ∧ Ordered kvs ∧
      dupSortHackEncode leb128 tightGrowth d = .error (.error (.map (.reverseOrder
        (ascii "key" ++ separator ++ [97, 1, 3])))) := by
  refine ⟨⟨[100], 4, [], [10, 1, 100, 24, 4, 18, 8, 10, 3, 107, 101, 121, 18, 1, 97, 18, 9, 10, 3,
    107, 101, 121, 18, 2, 97, 1], 10485770, false, true⟩,
    [⟨[107, 101, 121], [97], 0, 0⟩, ⟨[107, 101, 121], [97, 1], 0, 0⟩], by decide,
    by decide +kernel, ?_, by decide +kernel⟩
  refine ⟨?_, by decide, by decide⟩
  simp [DupSortLess]

end LightningStream.Syncer
