import LightningStream.Header

/-!
# The header codec

`Header.Bytes` allocates a slice that has room for a few extension blocks and
leaves the rest to `doBytes`, which extends the slice, or replaces it by a longer
one, and fills in the fields. The result is the description that `bytes` gives
(`doBytes_eq`), which `parse` reads back, and from which nothing is lost
(`header_codec`).
-/

namespace LightningStream

/-! ## Slices -/

/-- A slice of bytes with the part of its array that it may be extended over. -/
structure Slice where
  data : Bytes
  spare : Bytes
deriving DecidableEq

namespace Slice

/-- `make([]byte, len, cap)`. -/
def make (len cap : ℕ) : Slice := ⟨List.replicate len 0, List.replicate (cap - len) 0⟩

def cap (b : Slice) : ℕ := b.data.length + b.spare.length

/-- `b[:n]`; `none` is a slice out of bounds. -/
def reslice (b : Slice) (n : ℕ) : Option Slice :=
  if n ≤ b.cap then some ⟨(b.data ++ b.spare).take n, (b.data ++ b.spare).drop n⟩ else none

/-- Make the slice longer, or allocate a new one if it does not fit. -/
def grow (b : Slice) (newLen : ℕ) : Option Slice :=
  if b.cap < newLen then some (make newLen newLen) else b.reslice newLen

/-- Write `xs` to `b[i:i+len(xs)]`. -/
def putAt (b : Slice) (i : ℕ) (xs : Bytes) : Option Slice :=
  (Buf.put xs ⟨b.data, i⟩).map fun r => ⟨r.data, b.spare⟩

theorem putAt_eq {b : Slice} {a z c xs : Bytes} {i : ℕ} (hdata : b.data = a ++ (z ++ c))
    (ha : a.length = i) (hxs : xs.length = z.length) :
    b.putAt i xs = some ⟨a ++ (xs ++ c), b.spare⟩ := by
  have hfit : i + xs.length ≤ b.data.length := by
    rw [hdata, List.length_append, List.length_append]
    omega
  have hdrop : b.data.drop (i + xs.length) = c := by
    rw [hdata, ← List.drop_drop, List.drop_left' ha, List.drop_left' hxs.symm]
  have htake : b.data.take i = a := by rw [hdata, List.take_left' ha]
  rw [putAt, Buf.put, if_pos hfit, Option.map_some]
  simp only [Buf.overwrite, hdrop, htake, List.append_assoc]

end Slice

namespace Header

def preAllocSize : ℕ := 64
def reserved1Offset : ℕ := 18

/-! ## Bytes -/

/-- The start of `doBytes`: room for the blocks, in this slice or in a new one, and
`Extra` in front of it. -/
def putExtra (h : Header) (n : ℤ) (b : Slice) : Option Slice :=
  if 0 < n then do
    let b ← b.grow (minHeaderSize + n.toNat * blockSize)
    b.putAt minHeaderSize h.extra
  else some b

/-- The end of `doBytes`: the fields of the basic header. -/
def putFields (h : Header) (n : ℤ) (b : Slice) : Option Slice := do
  let b ← b.putAt 0 (beBytes 8 h.timestamp.toNat)
  let b ← b.putAt 8 (beBytes 8 h.txnID.toNat)
  let b ← b.putAt versionOffset [UInt8.ofInt h.version]
  let b ← b.putAt flagsOffset [h.flags]
  b.putAt numExtraOffsetHigh (beBytes 2 (n % 2 ^ 16).toNat)

def doBytes (h : Header) (b : Slice) : Option Slice := do
  let n := numBlocks h
  let b ← putExtra h n b
  putFields h n b

/-- What `Header.Bytes` passes to `doBytes`. -/
def preAlloc : Slice := Slice.make minHeaderSize preAllocSize

theorem putFields_eq (h : Header) (n : ℤ) (rest spare : Bytes) :
    putFields h n ⟨List.replicate 24 0 ++ rest, spare⟩ =
      some ⟨layout h.timestamp h.txnID (UInt8.ofInt h.version) h.flags [0, 0, 0, 0]
        (n % 2 ^ 16).toNat rest, spare⟩ := by
  set ts := beBytes 8 h.timestamp.toNat with hts
  set txn := beBytes 8 h.txnID.toNat with htxn
  -- each write replaces the next zeros behind what has been written
  have h₁ : (Slice.mk (List.replicate 24 0 ++ rest) spare).putAt 0 ts =
      some ⟨ts ++ (List.replicate 16 0 ++ rest), spare⟩ :=
    Slice.putAt_eq (a := []) (z := List.replicate 8 0) rfl rfl (by simp [hts])
  have h₂ : (Slice.mk (ts ++ (List.replicate 16 0 ++ rest)) spare).putAt 8 txn =
      some ⟨ts ++ (txn ++ (List.replicate 8 0 ++ rest)), spare⟩ :=
    Slice.putAt_eq (z := List.replicate 8 0) rfl (by simp [hts]) (by simp [htxn])
  have h₃ : (Slice.mk (ts ++ (txn ++ (List.replicate 8 0 ++ rest))) spare).putAt versionOffset
      [UInt8.ofInt h.version] =
        some ⟨ts ++ txn ++ ([UInt8.ofInt h.version] ++ (List.replicate 7 0 ++ rest)), spare⟩ :=
    Slice.putAt_eq (z := [0]) (List.append_assoc _ _ _).symm (by simp [hts, htxn, versionOffset])
      rfl
  have h₄ : (Slice.mk (ts ++ txn ++ ([UInt8.ofInt h.version] ++ (List.replicate 7 0 ++ rest)))
      spare).putAt flagsOffset [h.flags] =
        some ⟨ts ++ txn ++ [UInt8.ofInt h.version] ++ ([h.flags] ++ (List.replicate 6 0 ++ rest)),
          spare⟩ :=
    Slice.putAt_eq (z := [0]) (List.append_assoc _ _ _).symm (by simp [hts, htxn, flagsOffset])
      rfl
  have h₅ : (Slice.mk (ts ++ txn ++ [UInt8.ofInt h.version] ++
      ([h.flags] ++ (List.replicate 6 0 ++ rest))) spare).putAt numExtraOffsetHigh
        (beBytes 2 (n % 2 ^ 16).toNat) =
      some ⟨ts ++ txn ++ [UInt8.ofInt h.version] ++ [h.flags] ++ [0, 0, 0, 0] ++
        (beBytes 2 (n % 2 ^ 16).toNat ++ rest), spare⟩ :=
    Slice.putAt_eq (z := [0, 0]) (by simp [List.replicate])
      (by simp [hts, htxn, numExtraOffsetHigh]) (by simp)
  simp only [putFields, ← hts, ← htxn, h₁, h₂, h₃, h₄, h₅, Option.bind_eq_bind, Option.bind_some]
  simp [layout, ← hts, ← htxn]

/-- The blocks have room for `Extra`. -/
theorem extra_le_numBlocks (h : Header) : (h.extra.length : ℤ) ≤ max 0 (numBlocks h) * 8 := by
  unfold numBlocks blockSize
  split
  · split
    · split <;> omega
    · omega
  · omega

/-- Extended or new, the slice is zero. -/
theorem grow_preAlloc (len : ℕ) :
    ∃ spare, preAlloc.grow len = some ⟨List.replicate len 0, spare⟩ := by
  unfold Slice.grow
  split
  · exact ⟨List.replicate (len - len) 0, rfl⟩
  · rename_i hcap
    have hall : preAlloc.data ++ preAlloc.spare = List.replicate 64 0 := rfl
    have hlen : len ≤ 64 := not_lt.mp hcap
    refine ⟨List.replicate (64 - len) 0, ?_⟩
    rw [Slice.reslice, if_pos (not_lt.mp hcap), hall, List.take_replicate, List.drop_replicate,
      Nat.min_eq_left hlen]

/-- `Header.Bytes` gives what `bytes` describes. -/
theorem doBytes_eq (h : Header) : ∃ spare, doBytes h preAlloc = some ⟨bytes h, spare⟩ := by
  have hfit := extra_le_numBlocks h
  unfold doBytes putExtra bytes
  by_cases hn : 0 < numBlocks h
  · obtain ⟨spare, hgrow⟩ := grow_preAlloc (minHeaderSize + (numBlocks h).toNat * blockSize)
    have hzeros : List.replicate (minHeaderSize + (numBlocks h).toNat * blockSize) (0 : UInt8) =
        List.replicate 24 0 ++ (List.replicate h.extra.length 0 ++
          List.replicate (numBlocks h * blockSize - h.extra.length).toNat 0) := by
      rw [← List.replicate_add, ← List.replicate_add]
      congr 1
      simp only [minHeaderSize, blockSize]
      omega
    have hcopy : (Slice.mk (List.replicate (minHeaderSize + (numBlocks h).toNat * blockSize) 0)
        spare).putAt minHeaderSize h.extra = some ⟨List.replicate 24 0 ++ (h.extra ++
          List.replicate (numBlocks h * blockSize - h.extra.length).toNat 0), spare⟩ :=
      Slice.putAt_eq hzeros rfl (by simp)
    refine ⟨spare, ?_⟩
    simp only [if_pos hn, gt_iff_lt, hgrow, hcopy, Option.bind_eq_bind, Option.bind_some]
    exact putFields_eq h _ _ spare
  · refine ⟨preAlloc.spare, ?_⟩
    simp only [if_neg hn, gt_iff_lt, Option.bind_eq_bind, Option.bind_some]
    exact putFields_eq h _ [] _

/-! ## Reading any value -/

theorem beBytes_beNat {b : Bytes} {n : ℕ} (hlen : b.length = n) : beBytes n (beNat b) = b := by
  rw [beBytes, beNat, ← hlen, ← List.length_reverse, leBytes_leNat, List.reverse_reverse]

theorem toNat_ofNat_beNat {b : Bytes} (hlen : b.length = 8) :
    (UInt64.ofNat (beNat b)).toNat = beNat b := by
  have hlt := beNat_lt b
  rw [hlen] at hlt
  exact UInt64.toNat_ofNat_of_lt' (by omega)

theorem cut {b : Bytes} (n : ℕ) (h : n ≤ b.length) : ∃ a c, a.length = n ∧ b = a ++ c :=
  ⟨b.take n, b.drop n, List.length_take_of_le h, (List.take_append_drop n b).symm⟩

/-- A value long enough for a header is the layout of its fields. -/
theorem exists_layout {val : Bytes} (hlen : minHeaderSize ≤ val.length) :
    ∃ ts txnID version flags reserved n rest, reserved.length = 4 ∧ n < 2 ^ 16 ∧
      val = layout ts txnID version flags reserved n rest := by
  -- cut off the fields one by one
  obtain ⟨ts, b₁, hts, rfl⟩ := cut 8 (hlen.trans' (by decide))
  have hlen₁ : 16 ≤ b₁.length := by
    rw [List.length_append, minHeaderSize] at hlen
    omega
  obtain ⟨txn, b₂, htxn, rfl⟩ := cut 8 (hlen₁.trans' (by decide))
  have hlen₂ : 8 ≤ b₂.length := by
    rw [List.length_append] at hlen₁
    omega
  obtain ⟨vf, b₃, hvf, rfl⟩ := cut 2 (hlen₂.trans' (by decide))
  have hlen₃ : 6 ≤ b₃.length := by
    rw [List.length_append] at hlen₂
    omega
  obtain ⟨reserved, b₄, hres, rfl⟩ := cut 4 (hlen₃.trans' (by decide))
  have hlen₄ : 2 ≤ b₄.length := by
    rw [List.length_append] at hlen₃
    omega
  obtain ⟨num, rest, hnum, rfl⟩ := cut 2 hlen₄
  obtain ⟨version, flags, rfl⟩ := List.length_eq_two.mp hvf
  have hlt := beNat_lt num
  rw [hnum] at hlt
  refine ⟨UInt64.ofNat (beNat ts), UInt64.ofNat (beNat txn), version, flags, reserved, beNat num,
    rest, hres, hlt, ?_⟩
  rw [layout, toNat_ofNat_beNat hts, toNat_ofNat_beNat htxn, beBytes_beNat hts,
    beBytes_beNat htxn, beBytes_beNat hnum]
  rfl

/-- What `parse` accepts. -/
theorem parse_eq_ok {val app : Bytes} {h : Header} (hp : parse val = .ok (h, app)) :
    ∃ reserved n, reserved.length = 4 ∧ n < 2 ^ 16 ∧ h.version = 0 ∧ h.numExtra = (n : ℕ) ∧
      h.extra.length = 8 * n ∧
      val = layout h.timestamp h.txnID 0 h.flags reserved n (h.extra ++ app) := by
  have hlen := parse_ok_length hp
  obtain ⟨ts, txnID, version, flags, reserved, n, rest, hres, hn, rfl⟩ := exists_layout hlen
  have hnum : getNumExtra (layout ts txnID version flags reserved n rest) = n := by
    rw [getNumExtra, numExtraOffsetHigh, drop22_layout hres, List.take_left' (by simp),
      beNat_beBytes]
    exact Nat.mod_eq_of_lt (by omega)
  have hver : (layout ts txnID version flags reserved n rest).getD versionOffset 0 = version :=
    getD_of_drop drop16_layout
  obtain rfl : version = 0 := by
    by_contra hne
    rw [parse, if_neg (not_lt.mpr hlen), hver, if_pos hne] at hp
    cases hp
  have hblocks : 8 * n ≤ rest.length := by
    by_contra hshort
    have hcond : n > 0 ∧ (layout ts txnID 0 flags reserved n rest).length <
        minHeaderSize + blockSize * n := by
      rw [layout_length hres, minHeaderSize, blockSize]
      omega
    rw [parse, if_neg (not_lt.mpr hlen), hver, if_neg (not_not.mpr rfl), hnum, if_pos hcond] at hp
    cases hp
  obtain ⟨blocks, app', hlen', rfl⟩ := cut (8 * n) hblocks
  rw [parse_layout hres hn hlen'] at hp
  obtain ⟨rfl, rfl⟩ := Prod.mk.inj (Except.ok.inj hp)
  exact ⟨reserved, n, hres, hn, rfl, rfl, hlen', rfl⟩

/-! ## The codec -/

/-- The headers that can be written: version 0, and a block count of 16 bits. -/
structure Writable (h : Header) : Prop where
  version : h.version = 0
  numExtra_nonneg : 0 ≤ h.numExtra
  numExtra_le : h.numExtra ≤ 65535
  extra_le : h.extra.length ≤ 65535 * 8

/-- The number of blocks that `Extra` needs. -/
def blocksNeeded (h : Header) : ℕ := (h.extra.length + 7) / 8

/-- What is read back from a written header. -/
def stored (h : Header) : Header :=
  let n := max h.numExtra.toNat (blocksNeeded h)
  ⟨h.timestamp, h.txnID, 0, h.flags, n, h.extra ++ List.replicate (8 * n - h.extra.length) 0⟩

theorem numBlocks_eq {h : Header} (hn : 0 ≤ h.numExtra) :
    numBlocks h = (max h.numExtra.toNat (blocksNeeded h) : ℕ) := by
  unfold numBlocks blocksNeeded blockSize
  split
  · split
    · split <;> omega
    · omega
  · omega

theorem bytes_eq {h : Header} (hn : 0 ≤ h.numExtra) :
    bytes h = layout h.timestamp h.txnID (UInt8.ofInt h.version) h.flags [0, 0, 0, 0]
      (max h.numExtra.toNat (blocksNeeded h) % 2 ^ 16) (stored h).extra := by
  unfold bytes stored
  rw [numBlocks_eq hn]
  dsimp only
  congr 1
  split
  · congr 2
    rw [blockSize]
    omega
  · -- no blocks: `Extra` is empty
    rename_i hzero
    have hextra : h.extra.length = 0 := by
      unfold blocksNeeded at hzero
      omega
    rw [List.eq_nil_of_length_eq_zero hextra]
    have hmax : max h.numExtra.toNat (blocksNeeded h) = 0 := by omega
    rw [hmax]
    rfl

theorem layout_append (ts : Timestamp) (txnID : TxnID) (version flags : UInt8)
    (reserved rest v : Bytes) (n : ℕ) :
    layout ts txnID version flags reserved n rest ++ v =
      layout ts txnID version flags reserved n (rest ++ v) := by
  simp [layout]

theorem stored_extra_length (h : Header) :
    (stored h).extra.length = 8 * max h.numExtra.toNat (blocksNeeded h) := by
  unfold stored blocksNeeded
  rw [List.length_append, List.length_replicate]
  omega

theorem parse_bytes {h : Header} (hw : h.Writable) (v : Bytes) :
    parse (bytes h ++ v) = .ok (stored h, v) := by
  have hle : max h.numExtra.toNat (blocksNeeded h) < 2 ^ 16 := by
    have h1 := hw.numExtra_le
    have h2 := hw.extra_le
    unfold blocksNeeded
    omega
  rw [bytes_eq hw.numExtra_nonneg, hw.version, Nat.mod_eq_of_lt hle, layout_append]
  exact parse_layout rfl hle (stored_extra_length h)

theorem bytes_of_parse {val v : Bytes} {h : Header} (hp : parse val = .ok (h, v))
    (hzero : (val.drop reserved1Offset).take 4 = [0, 0, 0, 0]) : bytes h ++ v = val := by
  obtain ⟨reserved, n, hres, hn, hversion, hnum, hextra, rfl⟩ := parse_eq_ok hp
  obtain rfl : reserved = [0, 0, 0, 0] := by
    rw [← hzero, reserved1Offset, show 18 = 16 + 2 from rfl, ← List.drop_drop, drop16_layout]
    exact (List.take_left' hres).symm
  have hmax : max h.numExtra.toNat (blocksNeeded h) = n := by
    unfold blocksNeeded
    omega
  have hstored : (stored h).extra = h.extra := by
    unfold stored
    simp [hmax, hextra]
  rw [bytes_eq (by omega), hmax, hstored, hversion, Nat.mod_eq_of_lt hn, layout_append]
  rfl

theorem skip_eq (val : Bytes) : skip val = (parse val).map Prod.snd := by
  unfold skip parse
  split
  · rfl
  · split
    · rfl
    · dsimp only
      split
      · rfl
      · rfl

/-- **The header codec.** A header that is written in front of a value is read back
with the value, its count raised to the blocks that `Extra` needs and `Extra` filled
up with zeros. Nothing is lost in the other direction, if the reserved bytes are zero.
`Skip` agrees with `Parse` on every value. -/
theorem header_codec :
    (∀ (h : Header) (v : Bytes), h.Writable → ∃ b, doBytes h preAlloc = some b ∧
      parse (b.data ++ v) = .ok (stored h, v)) ∧
    (∀ (val v : Bytes) (h : Header), parse val = .ok (h, v) →
      (val.drop reserved1Offset).take 4 = [0, 0, 0, 0] →
      ∃ b, doBytes h preAlloc = some b ∧ b.data ++ v = val) ∧
    ∀ val : Bytes, skip val = (parse val).map Prod.snd := by
  refine ⟨?_, ?_, skip_eq⟩
  · intro h v hw
    obtain ⟨spare, hb⟩ := doBytes_eq h
    exact ⟨_, hb, parse_bytes hw v⟩
  · intro val v h hp hzero
    obtain ⟨spare, hb⟩ := doBytes_eq h
    exact ⟨_, hb, bytes_of_parse hp hzero⟩

def nineExtra : Header := ⟨5, 6, 0, flagDeleted, 1, [1, 2, 3, 4, 5, 6, 7, 8, 9]⟩

theorem header_codec_nine : nineExtra.Writable ∧ ∃ b, doBytes nineExtra preAlloc = some b ∧
    parse (b.data ++ [7]) = .ok (⟨5, 6, 0, flagDeleted, 2,
      [1, 2, 3, 4, 5, 6, 7, 8, 9, 0, 0, 0, 0, 0, 0, 0]⟩, [7]) := by
  have hw : nineExtra.Writable := ⟨rfl, by decide, by decide, by decide⟩
  exact ⟨hw, header_codec.1 nineExtra [7] hw⟩

end Header

end LightningStream
