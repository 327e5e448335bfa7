import LightningStream.Base.Bytes

/-!
# The Lightning Stream header

Every value of a native DBI, and every value of a shadow DBI, starts with a
header of 24 bytes and `NumExtra` extension blocks of 8 bytes each. `layout`
spells out the fields in order; the encoders produce it and `parse` reads it
back.
-/

namespace LightningStream

/-- Nanoseconds since the UNIX epoch, compared unsigned. -/
abbrev Timestamp : Type := UInt64

abbrev TxnID : Type := UInt64

abbrev Flags : Type := UInt8

/-- `Header`. The source keeps the version and the block count as `int`. -/
structure Header where
  timestamp : Timestamp
  txnID : TxnID
  version : ℤ
  flags : Flags
  numExtra : ℤ
  extra : Bytes
deriving DecidableEq, Repr

namespace Header

def minHeaderSize : ℕ := 24
def blockSize : ℕ := 8
def versionOffset : ℕ := 16
def flagsOffset : ℕ := 17
def numExtraOffsetHigh : ℕ := 22
def numExtraOffsetLow : ℕ := 23

def flagDeleted : Flags := 1
def noFlags : Flags := 0
def flagSyncMask : Flags := flagDeleted

def isDeleted (f : Flags) : Bool := decide (f &&& flagDeleted > 0)

def masked (f : Flags) : Flags := f &&& flagSyncMask

inductive HeaderErr
  | tooShort
  | version
deriving DecidableEq, Repr

/-- The fields of a header in the order they are stored. -/
def layout (ts : Timestamp) (txnID : TxnID) (version : UInt8) (flags : Flags)
    (reserved : Bytes) (numExtra : ℕ) (rest : Bytes) : Bytes :=
  beBytes 8 ts.toNat ++ (beBytes 8 txnID.toNat ++ (version :: flags ::
    (reserved ++ (beBytes 2 numExtra ++ rest))))

/-! ## Encoding -/

/-- The block count `doBytes` settles on: `NumExtra` may be too low and is
raised to what `Extra` needs. -/
def numBlocks (h : Header) : ℤ :=
  if h.numExtra > 0 ∨ h.extra.length > 0 then
    if (h.extra.length : ℤ) > h.numExtra * blockSize then
      h.extra.length / blockSize + (if h.extra.length % blockSize > 0 then 1 else 0)
    else h.numExtra
  else h.numExtra

/-- `Header.Bytes`. The blocks behind the basic header are zero where `Extra`
does not reach, and the stored count is cut to 16 bits. -/
def bytes (h : Header) : Bytes :=
  let n := numBlocks h
  layout h.timestamp h.txnID (UInt8.ofInt h.version) h.flags [0, 0, 0, 0]
    (n % 2 ^ 16).toNat
    (if n > 0 then
      h.extra ++ List.replicate (n * blockSize - h.extra.length).toNat 0
    else [])

/-- `PutBasic`: the 24 bytes of a header without extensions. -/
def putBasic (ts : Timestamp) (txnID : TxnID) (flags : Flags) : Bytes :=
  layout ts txnID 0 flags [0, 0, 0, 0] 0 []

/-! ## Decoding -/

def getNumExtra (val : Bytes) : ℕ := beNat ((val.drop numExtraOffsetHigh).take 2)

def parse (val : Bytes) : Except HeaderErr (Header × Bytes) :=
  if val.length < minHeaderSize then .error .tooShort
  else if val.getD versionOffset 0 ≠ 0 then .error .version
  else
    let numExtra := getNumExtra val
    if numExtra > 0 ∧ val.length < minHeaderSize + blockSize * numExtra then
      .error .tooShort
    else
      let offset := minHeaderSize + blockSize * numExtra
      .ok (⟨UInt64.ofNat (beNat (val.take 8)),
          UInt64.ofNat (beNat ((val.drop 8).take 8)),
          (val.getD versionOffset 0).toNat,
          val.getD flagsOffset 0,
          numExtra,
          (val.drop minHeaderSize).take (blockSize * numExtra)⟩,
        val.drop offset)

/-- `Skip`, written separately from `Parse` in the source. -/
def skip (val : Bytes) : Except HeaderErr Bytes :=
  if val.length < minHeaderSize then .error .tooShort
  else if val.getD versionOffset 0 ≠ 0 then .error .version
  else
    let numExtra := getNumExtra val
    if numExtra > 0 ∧ val.length < minHeaderSize + blockSize * numExtra then
      .error .tooShort
    else .ok (val.drop (minHeaderSize + blockSize * numExtra))

def parseTimestamp (val : Bytes) : Except HeaderErr Timestamp :=
  if val.length < 8 then .error .tooShort
  else .ok (UInt64.ofNat (beNat (val.take 8)))

/-! ## Reading a layout back -/

section Layout

variable {ts : Timestamp} {txnID : TxnID} {ver flags : UInt8} {res rest : Bytes}
  {n : ℕ}

theorem layout_length (hres : res.length = 4) :
    (layout ts txnID ver flags res n rest).length = 24 + rest.length := by
  simp [layout, hres]
  omega

private theorem drop8_layout :
    (layout ts txnID ver flags res n rest).drop 8 =
      beBytes 8 txnID.toNat ++ (ver :: flags :: (res ++ (beBytes 2 n ++ rest))) := by
  rw [layout, List.drop_left' (by simp)]

theorem drop16_layout :
    (layout ts txnID ver flags res n rest).drop 16 =
      ver :: flags :: (res ++ (beBytes 2 n ++ rest)) := by
  rw [show 16 = 8 + 8 from rfl, ← List.drop_drop, drop8_layout,
    List.drop_left' (by simp)]

theorem drop22_layout (hres : res.length = 4) :
    (layout ts txnID ver flags res n rest).drop 22 = beBytes 2 n ++ rest := by
  rw [show 22 = 16 + 6 from rfl, ← List.drop_drop, drop16_layout,
    List.drop_succ_cons, List.drop_succ_cons, List.drop_left' hres]

theorem drop24_layout (hres : res.length = 4) :
    (layout ts txnID ver flags res n rest).drop 24 = rest := by
  rw [show 24 = 22 + 2 from rfl, ← List.drop_drop, drop22_layout hres,
    List.drop_left' (by simp)]

theorem getD_of_drop {b : Bytes} {i : ℕ} {x : UInt8} {xs : Bytes}
    (h : b.drop i = x :: xs) : b.getD i 0 = x := by
  have hi : (b.drop i)[0]? = some x := by rw [h]; rfl
  rw [List.getElem?_drop, Nat.add_zero] at hi
  rw [List.getD_eq_getElem?_getD, hi, Option.getD_some]

/-- `parse` on a layout whose version is 0 and whose blocks are all there. -/
theorem parse_layout {blocks app : Bytes} (hres : res.length = 4) (hn : n < 2 ^ 16)
    (hblocks : blocks.length = 8 * n) :
    parse (layout ts txnID 0 flags res n (blocks ++ app)) =
      .ok (⟨ts, txnID, 0, flags, n, blocks⟩, app) := by
  set val := layout ts txnID 0 flags res n (blocks ++ app) with hval
  have hlen : val.length = 24 + (blocks.length + app.length) := by
    rw [hval, layout_length hres, List.length_append]
  have hver : val.getD versionOffset 0 = 0 := getD_of_drop drop16_layout
  have hflags : val.getD flagsOffset 0 = flags := by
    refine @getD_of_drop _ _ _ (res ++ (beBytes 2 n ++ (blocks ++ app))) ?_
    rw [flagsOffset, show 17 = 16 + 1 from rfl, ← List.drop_drop, hval, drop16_layout]
    rfl
  have hts : val.take 8 = beBytes 8 ts.toNat := by
    rw [hval, layout, List.take_left' (by simp)]
  have htxn : (val.drop 8).take 8 = beBytes 8 txnID.toNat := by
    rw [hval, drop8_layout, List.take_left' (by simp)]
  have hnum : getNumExtra val = n := by
    rw [getNumExtra, numExtraOffsetHigh, hval, drop22_layout hres,
      List.take_left' (by simp), beNat_beBytes]
    exact Nat.mod_eq_of_lt (by omega)
  have h24 : val.drop minHeaderSize = blocks ++ app := drop24_layout hres
  have hoff : val.drop (minHeaderSize + blockSize * n) = app := by
    rw [← List.drop_drop, h24, List.drop_left' (by rw [hblocks, blockSize])]
  have hextra : (val.drop minHeaderSize).take (blockSize * n) = blocks := by
    rw [h24, List.take_left' (by rw [hblocks, blockSize])]
  have h1 : ¬ val.length < minHeaderSize := by
    rw [hlen, minHeaderSize]
    omega
  have h2 : ¬ (n > 0 ∧ val.length < minHeaderSize + blockSize * n) := by
    rw [hlen, minHeaderSize, blockSize]
    omega
  have hts64 : UInt64.ofNat (ts.toNat % 256 ^ 8) = ts := by
    rw [Nat.mod_eq_of_lt (by have := ts.toNat_lt; omega), UInt64.ofNat_toNat]
  have htxn64 : UInt64.ofNat (txnID.toNat % 256 ^ 8) = txnID := by
    rw [Nat.mod_eq_of_lt (by have := txnID.toNat_lt; omega), UInt64.ofNat_toNat]
  unfold parse
  simp only [if_neg h1, hver, ne_eq, not_true_eq_false, if_false, hnum, if_neg h2, hts,
    htxn, hflags, hextra, hoff, beNat_beBytes, hts64, htxn64]
  rfl

end Layout

theorem parse_ok_length {val app : Bytes} {h : Header} (hp : parse val = .ok (h, app)) :
    minHeaderSize ≤ val.length := by
  unfold parse at hp
  split at hp
  · cases hp
  · omega

theorem parse_ok_ne_nil {val app : Bytes} {h : Header}
    (hp : parse val = .ok (h, app)) : val ≠ [] := by
  have := parse_ok_length hp
  intro he
  simp [he, minHeaderSize] at this

/-- A basic header in front of an application value. -/
theorem parse_putBasic (ts : Timestamp) (txnID : TxnID) (flags : Flags) (app : Bytes) :
    parse (putBasic ts txnID flags ++ app) = .ok (⟨ts, txnID, 0, flags, 0, []⟩, app) := by
  have h : putBasic ts txnID flags ++ app =
      layout ts txnID 0 flags [0, 0, 0, 0] 0 ([] ++ app) := by
    simp [putBasic, layout]
  rw [h, parse_layout rfl (by omega) rfl]
  rfl

/-- Counting one extension block into a basic header. -/
theorem putBasic_set_numExtra (ts : Timestamp) (txnID : TxnID) (flags : Flags) :
    (putBasic ts txnID flags).set numExtraOffsetLow 1 =
      layout ts txnID 0 flags [0, 0, 0, 0] 1 [] := by
  unfold putBasic layout numExtraOffsetLow
  rw [List.set_append_right _ _ (by simp), List.set_append_right _ _ (by simp)]
  simp only [beBytes_length, List.set_cons_succ]
  rfl

/-! ## Flags -/

@[simp] theorem isDeleted_flagDeleted : isDeleted flagDeleted = true := by decide

@[simp] theorem isDeleted_noFlags : isDeleted noFlags = false := by decide

theorem masked_eq (f : Flags) : masked f = if isDeleted f then flagDeleted else noFlags := by
  have hbit : (f &&& 1).toNat = f.toNat % 2 := by
    rw [UInt8.toNat_and]
    exact Nat.and_one_is_mod _
  have hcases : f &&& 1 = 0 ∨ f &&& 1 = 1 := by
    rcases Nat.mod_two_eq_zero_or_one f.toNat with h | h
    · exact Or.inl (UInt8.toNat_inj.mp (hbit.trans h))
    · exact Or.inr (UInt8.toNat_inj.mp (hbit.trans h))
  unfold masked isDeleted flagSyncMask flagDeleted noFlags
  rcases hcases with h | h <;> rw [h] <;> decide

@[simp] theorem isDeleted_masked (f : Flags) : isDeleted (masked f) = isDeleted f := by
  rw [masked_eq]
  cases h : isDeleted f <;> simp

@[simp] theorem masked_masked (f : Flags) : masked (masked f) = masked f := by
  rw [masked_eq (masked f), isDeleted_masked, masked_eq f]

end Header

end LightningStream
