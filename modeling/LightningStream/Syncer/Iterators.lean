import LightningStream.Snapshot.Kv
import LightningStream.Strategy.Update

/-!
# The iterators of the syncer

`NativeIterator` merges snapshot entries into a DBI whose values carry
headers; `PlainIterator` puts the values of a shadow DBI back into a main DBI
without them. The merge decides by timestamp and, on a tie, by value
(`merge_of_parse`), and whatever it writes parses back to what it meant to write
(`parse_addHeader`).
-/

namespace LightningStream.Syncer

open Snapshot Strategy Header

/-- The errors of the iterators; `η` is what the message's `Next` fails with. -/
inductive IterErr (η : Type)
  | noFormatVersion
  | compatVersionTooNew
  | formatVersionTooOld
  | noTxnID
  | next (e : η)
  | header (e : HeaderErr)
deriving DecidableEq

variable {η : Type}

/-! ## NativeIterator -/

structure NativeIterator where
  defaultTimestampNano : Timestamp
  txnID : TxnID
  formatVersion : UInt32
  headerPaddingBlock : Bool
  deletedCutoff : Timestamp
deriving DecidableEq, Repr

def newNativeIterator (formatVersion compatVersion : UInt32) (defaultTS : Timestamp)
    (txnID : TxnID) (deletedCutoff : Timestamp) : Except (IterErr η) NativeIterator :=
  if formatVersion = 0 then .error .noFormatVersion
  else if compatVersion > currentFormatVersion then .error .compatVersionTooNew
  else if formatVersion < compatFormatVersion then .error .formatVersionTooOld
  else if txnID = 0 then .error .noTxnID
  else .ok ⟨defaultTS, txnID, formatVersion, false, deletedCutoff⟩

namespace NativeIterator

/-- The flags `addHeader` writes: before format version 2 an empty value meant
a deleted entry. -/
def writtenFlags (it : NativeIterator) (entryVal : Bytes) (flags : Flags) : Flags :=
  if entryVal = [] ∧ it.formatVersion < 2 then flags ||| flagDeleted else flags

/-- The timestamp `addHeader` writes. -/
def writtenTS (it : NativeIterator) (ts : Timestamp) : Timestamp :=
  if ts = 0 then it.defaultTimestampNano else ts

def addHeader (it : NativeIterator) (entryVal : Bytes) (ts : Timestamp) (flags : Flags) :
    Bytes :=
  let flags := it.writtenFlags entryVal flags
  let entryVal := if isDeleted flags then [] else entryVal
  let buf := putBasic (it.writtenTS ts) it.txnID flags
  let buf := if it.headerPaddingBlock then
      buf.set numExtraOffsetLow 1 ++ [0, 0, 0, 0, 0, 0, 0, 0]
    else buf
  buf ++ entryVal

def merge (it : NativeIterator) (entry : Kv) (oldval : Bytes) :
    Except HeaderErr (Option Bytes) :=
  if oldval = [] then
    -- a stale deletion marker may just have been swept here, do not add it again
    if isDeleted entry.maskedFlags ∧ entry.timestampNano < it.deletedCutoff then .ok none
    else .ok (some (it.addHeader entry.value entry.timestampNano entry.maskedFlags))
  else
    match parse oldval with
    | .error e => .error e
    | .ok (h, appVal) =>
        if entry.timestampNano = 0 ∧ appVal = entry.value then .ok (some oldval)
        else
          let newTS := it.writtenTS entry.timestampNano
          if newTS < h.timestamp then .ok (some oldval)
          else if newTS = h.timestamp ∧ appVal ≤ entry.value then .ok (some oldval)
          else .ok (some (it.addHeader entry.value newTS entry.maskedFlags))

def clean (it : NativeIterator) (oldval : Bytes) : Except HeaderErr (Option Bytes) :=
  match parse oldval with
  | .error e => .error e
  | .ok (h, _) =>
      if isDeleted h.flags then .ok (some oldval)
      else .ok (some (it.addHeader [] 0 flagDeleted))

/-- The iterator as the strategies see it. `Merge` asks for the length of the stored
value, so nil is the empty one to it. -/
def iterator (it : NativeIterator) (msg : Reading η) : Iterator Kv (IterErr η) where
  entries := msg.kvs
  ending := msg.ending.map .next
  key := Kv.key
  merge := fun kv old => (it.merge kv (old.getD [])).mapError .header
  clean := fun _ old => (it.clean old).mapError .header

end NativeIterator

/-! ## PlainIterator -/

/-- `PlainIterator`: an empty value asks for deletion, as does `Clean`. -/
def plainIterator (msg : Reading η) : Iterator Kv (IterErr η) where
  entries := msg.kvs
  ending := msg.ending.map .next
  key := Kv.key
  merge := fun kv _ => .ok (if kv.value = [] then none else some kv.value)
  clean := fun _ _ => .ok none

/-! ## What the native iterator writes -/

section Written

variable (it : NativeIterator)

/-- The application value `addHeader` writes. -/
def NativeIterator.writtenVal (entryVal : Bytes) (flags : Flags) : Bytes :=
  if isDeleted (it.writtenFlags entryVal flags) then [] else entryVal

/-- **Whatever `addHeader` writes parses back.** -/
theorem parse_addHeader (entryVal : Bytes) (ts : Timestamp) (flags : Flags) :
    ∃ h, parse (it.addHeader entryVal ts flags) = .ok (h, it.writtenVal entryVal flags) ∧
      h.timestamp = it.writtenTS ts ∧ h.txnID = it.txnID ∧
      h.flags = it.writtenFlags entryVal flags := by
  unfold NativeIterator.addHeader NativeIterator.writtenVal
  simp only
  set fl := it.writtenFlags entryVal flags
  set app := if isDeleted fl then [] else entryVal
  cases it.headerPaddingBlock with
  | false => exact ⟨_, parse_putBasic _ _ _ _, rfl, rfl, rfl⟩
  | true =>
      -- with the padding block the value is laid out with one block of zeros
      have hlayout : (putBasic (it.writtenTS ts) it.txnID fl).set numExtraOffsetLow 1 ++
          [0, 0, 0, 0, 0, 0, 0, 0] ++ app =
          layout (it.writtenTS ts) it.txnID 0 fl [0, 0, 0, 0] 1
            ([0, 0, 0, 0, 0, 0, 0, 0] ++ app) := by
        rw [putBasic_set_numExtra]
        simp [layout]
      simp only [if_true]
      rw [hlayout]
      exact ⟨_, parse_layout rfl (by norm_num) rfl, rfl, rfl, rfl⟩

@[simp] theorem writtenTS_writtenTS (ts : Timestamp) :
    it.writtenTS (it.writtenTS ts) = it.writtenTS ts := by
  unfold NativeIterator.writtenTS
  by_cases h : ts = 0
  · simp [h]
  · simp [h]

/-- Without a default, timestamps are written as they are. -/
theorem writtenTS_of_noDefault (h : it.defaultTimestampNano = 0) (ts : Timestamp) :
    it.writtenTS ts = ts := by
  unfold NativeIterator.writtenTS
  split
  · rename_i hzero
    exact h.trans hzero.symm
  · rfl

/-- In the current format, so are flags. -/
theorem writtenFlags_of_current (h : it.formatVersion = currentFormatVersion) (entryVal : Bytes)
    (flags : Flags) : it.writtenFlags entryVal flags = flags := by
  unfold NativeIterator.writtenFlags
  rw [if_neg]
  rintro ⟨-, hold⟩
  rw [h] at hold
  exact absurd hold (by decide)

theorem addHeader_ne_nil (entryVal : Bytes) (ts : Timestamp) (flags : Flags) :
    it.addHeader entryVal ts flags ≠ [] := by
  obtain ⟨h, hp, -⟩ := parse_addHeader it entryVal ts flags
  exact parse_ok_ne_nil hp

/-- The condition under which `Merge` keeps the stored value. -/
def NativeIterator.keeps (entry : Kv) (h : Header) (appVal : Bytes) : Prop :=
  (entry.timestampNano = 0 ∧ appVal = entry.value) ∨
    it.writtenTS entry.timestampNano < h.timestamp ∨
    (it.writtenTS entry.timestampNano = h.timestamp ∧ appVal ≤ entry.value)

instance (entry : Kv) (h : Header) (appVal : Bytes) :
    Decidable (it.keeps entry h appVal) := by
  unfold NativeIterator.keeps
  infer_instance

/-- `Merge` against a stored value with a valid header. -/
theorem merge_of_parse {entry : Kv} {oldval appVal : Bytes} {h : Header}
    (hp : parse oldval = .ok (h, appVal)) :
    it.merge entry oldval = .ok (some (if it.keeps entry h appVal then oldval
      else it.addHeader entry.value (it.writtenTS entry.timestampNano)
        entry.maskedFlags)) := by
  unfold NativeIterator.merge
  rw [if_neg (parse_ok_ne_nil hp), hp]
  simp only
  by_cases h1 : entry.timestampNano = 0 ∧ appVal = entry.value
  · rw [if_pos h1, if_pos (show it.keeps entry h appVal from Or.inl h1)]
  · rw [if_neg h1]
    by_cases h2 : it.writtenTS entry.timestampNano < h.timestamp
    · rw [if_pos h2, if_pos (show it.keeps entry h appVal from Or.inr (Or.inl h2))]
    · rw [if_neg h2]
      by_cases h3 : it.writtenTS entry.timestampNano = h.timestamp ∧ appVal ≤ entry.value
      · rw [if_pos h3, if_pos (show it.keeps entry h appVal from Or.inr (Or.inr h3))]
      · rw [if_neg h3, if_neg (by unfold NativeIterator.keeps; tauto)]

theorem clean_of_parse {oldval appVal : Bytes} {h : Header}
    (hp : parse oldval = .ok (h, appVal)) :
    it.clean oldval = .ok (some (if isDeleted h.flags then oldval
      else it.addHeader [] 0 flagDeleted)) := by
  unfold NativeIterator.clean
  rw [hp]
  simp only
  split <;> rfl

/-- The value `Merge` returns when it succeeds. -/
def NativeIterator.merged (entry : Kv) (oldval : Bytes) : Option Bytes :=
  match it.merge entry oldval with
  | .ok r => r
  | .error _ => none

/-- The value `Clean` returns when it succeeds. -/
def NativeIterator.cleaned (oldval : Bytes) : Option Bytes :=
  match it.clean oldval with
  | .ok r => r
  | .error _ => none

variable {it}

theorem merged_of_ok {entry : Kv} {oldval : Bytes} {r : Option Bytes}
    (h : it.merge entry oldval = .ok r) : it.merged entry oldval = r := by
  rw [NativeIterator.merged, h]

theorem cleaned_of_ok {oldval : Bytes} {r : Option Bytes} (h : it.clean oldval = .ok r) :
    it.cleaned oldval = r := by
  rw [NativeIterator.cleaned, h]

theorem iterator_merge_of_ok {msg : Reading η} {entry : Kv} {oldval r : Option Bytes}
    (h : it.merge entry (oldval.getD []) = .ok r) :
    (it.iterator msg).merge entry oldval = .ok (it.merged entry (oldval.getD [])) := by
  show (it.merge entry (oldval.getD [])).mapError _ = _
  rw [merged_of_ok h, h]
  rfl

theorem iterator_clean_of_ok {msg : Reading η} {cur : Option Kv} {oldval : Bytes}
    {r : Option Bytes} (h : it.clean oldval = .ok r) :
    (it.iterator msg).clean cur oldval = .ok (it.cleaned oldval) := by
  show (it.clean oldval).mapError _ = _
  rw [cleaned_of_ok h, h]
  rfl

end Written

end LightningStream.Syncer
