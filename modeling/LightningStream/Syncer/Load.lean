import LightningStream.Syncer.Iterators
import LightningStream.Syncer.ReadDbi

/-!
# Applying a snapshot

The part of `LoadOnce` that merges one DBI message into its target DBI.
-/

namespace LightningStream.Syncer

open Lmdb Snapshot Strategy Header

inductive ApplyErr (η : Type)
  | iterator (e : IterErr η)
  | strategy (e : StratErr (IterErr η))
deriving DecidableEq

variable {η : Type}

/-- Merge one DBI message into the target DBI: no default timestamp, and the
padding block if it is configured. -/
def applyMessage (headerExtraPaddingBlock : Bool) (deletedCutoff : Timestamp)
    (formatVersion compatVersion : UInt32) (txnID : TxnID) (msg : Reading η) (t : Txn) :
    Except (ApplyErr η) Txn := do
  let it ← (newNativeIterator formatVersion compatVersion 0 txnID deletedCutoff).mapError
    .iterator
  let it := if headerExtraPaddingBlock then { it with headerPaddingBlock := true } else it
  (update t (it.iterator msg)).mapError .strategy

/-- The iterator `applyMessage` runs with. -/
def loadIterator (padding : Bool) (cutoff : Timestamp) (formatVersion : UInt32)
    (txnID : TxnID) : NativeIterator :=
  ⟨0, txnID, formatVersion, padding, cutoff⟩

theorem applyMessage_eq {padding : Bool} {cutoff : Timestamp} {fv cv : UInt32}
    {txnID : TxnID} (msg : Reading η) (t : Txn) (hfv : compatFormatVersion ≤ fv)
    (hcv : cv ≤ currentFormatVersion) (htxn : txnID ≠ 0) :
    applyMessage padding cutoff fv cv txnID msg t =
      (update t ((loadIterator padding cutoff fv txnID).iterator msg)).mapError .strategy := by
  have h0 : fv ≠ 0 := by
    rintro rfl
    exact absurd hfv (by decide)
  unfold applyMessage newNativeIterator
  rw [if_neg h0, if_neg (UInt32.not_lt.mpr hcv),
    if_neg (UInt32.not_lt.mpr hfv), if_neg htxn]
  cases padding <;> rfl

end LightningStream.Syncer
