import LightningStream.Syncer.Load
import LightningStream.Syncer.Shadow

/-!
# Merging in another order, and merging again

Instances receive the same entries in different orders, and the same snapshot
more than once. Where `Merge` compares two entries for one key it looks at their
timestamps and application values. The flag that says whether the key exists
travels along uncompared, and an empty live value looks like a deleted one
(`merge_order_agrees_iff`). An empty value of the first snapshot format is a
deletion once it is written, but not where stale deletions are told apart
(`encodings_agree_iff`). An entry merged again is always recognised, so that
loading a snapshot twice writes nothing the second time
(`reload_writes_nothing`).
-/

namespace LightningStream.Syncer

open Lmdb Snapshot Strategy Header

variable {η : Type}

/-! ## Two entries in either order -/

namespace TieBreak

/-- An iterator for snapshots in the current format, without a deletion cutoff. -/
structure Current (defaultTS : Timestamp) (it : NativeIterator) : Prop where
  defaultTS : it.defaultTimestampNano = defaultTS
  formatVersion : it.formatVersion = currentFormatVersion
  deletedCutoff : it.deletedCutoff = 0

/-- An entry that a schema may hold: nothing is left of a deleted value. -/
def Valid (kv : Kv) : Prop := isDeleted kv.maskedFlags = true → kv.value = []

/-- Two entries merged one after the other into an absent key. -/
def mergeBoth (it it' : NativeIterator) (a b : Kv) : Except HeaderErr (Option Bytes) := do
  let v ← it.merge a []
  it'.merge b (v.getD [])

/-- The Deleted flag of a stored value. -/
def deletedFlag (v : Bytes) : Option Bool :=
  match parse v with
  | .ok (h, _) => some (isDeleted h.flags)
  | .error _ => none

def stampOf (defaultTS : Timestamp) (kv : Kv) : Timestamp :=
  if kv.timestampNano = 0 then defaultTS else kv.timestampNano

/-- The entry stays when the other one is merged on top of it. -/
def Stays (defaultTS : Timestamp) (a b : Kv) : Prop :=
  (b.timestampNano = 0 ∧ a.value = b.value) ∨ stampOf defaultTS b < stampOf defaultTS a ∨
    (stampOf defaultTS b = stampOf defaultTS a ∧ a.value ≤ b.value)

instance (defaultTS : Timestamp) (a b : Kv) : Decidable (Stays defaultTS a b) := by
  unfold Stays
  infer_instance

section

variable {defaultTS : Timestamp} {it it' : NativeIterator} {a b : Kv}

theorem Current.writtenTS (h : Current defaultTS it) (kv : Kv) :
    it.writtenTS kv.timestampNano = stampOf defaultTS kv := by
  unfold NativeIterator.writtenTS stampOf
  rw [h.defaultTS]

theorem Current.writtenVal (h : Current defaultTS it) (ha : Valid a) :
    it.writtenVal a.value a.maskedFlags = a.value := by
  unfold NativeIterator.writtenVal
  rw [writtenFlags_of_current it h.formatVersion]
  split
  · rename_i hdel
    exact (ha hdel).symm
  · rfl

/-- What is stored for an entry. -/
theorem Current.parse (h : Current defaultTS it) (ha : Valid a) (ts : Timestamp)
    (hts : it.writtenTS ts = stampOf defaultTS a) :
    ∃ hd, parse (it.addHeader a.value ts a.maskedFlags) = .ok (hd, a.value) ∧
      hd.timestamp = stampOf defaultTS a ∧ hd.flags = a.maskedFlags := by
  obtain ⟨hd, hp, ht, -, hf⟩ := parse_addHeader it a.value ts a.maskedFlags
  rw [h.writtenVal ha] at hp
  rw [writtenFlags_of_current it h.formatVersion] at hf
  exact ⟨hd, hp, ht.trans hts, hf⟩

/-- The flag after both merges is that of the entry that stays. -/
theorem mergeBoth_flag (h : Current defaultTS it) (h' : Current defaultTS it') (ha : Valid a)
    (hb : Valid b) :
    ∃ v, mergeBoth it it' a b = .ok (some v) ∧ deletedFlag v =
      some (isDeleted (if Stays defaultTS a b then a.maskedFlags else b.maskedFlags)) := by
  have hfirst : it.merge a [] =
      .ok (some (it.addHeader a.value a.timestampNano a.maskedFlags)) := by
    unfold NativeIterator.merge
    rw [if_pos rfl, if_neg]
    rintro ⟨-, hlt⟩
    rw [h.deletedCutoff] at hlt
    exact absurd hlt (by simp)
  obtain ⟨hd, hp, hts, hfl⟩ := h.parse ha a.timestampNano (h.writtenTS a)
  have hstays : it'.keeps b hd a.value ↔ Stays defaultTS a b := by
    unfold NativeIterator.keeps Stays
    rw [hts, h'.writtenTS]
  unfold mergeBoth
  rw [hfirst]
  refine ⟨_, merge_of_parse it' hp, ?_⟩
  by_cases hkeep : Stays defaultTS a b
  · rw [if_pos (hstays.mpr hkeep), if_pos hkeep, Option.getD_some, deletedFlag, hp]
    simp only [hfl]
  · rw [if_neg (fun hk => hkeep (hstays.mp hk)), if_neg hkeep]
    obtain ⟨hd', hp', -, hfl'⟩ := h'.parse hb (it'.writtenTS b.timestampNano)
      ((writtenTS_writtenTS it' _).trans (h'.writtenTS b))
    rw [deletedFlag, hp']
    simp only [hfl']

end

/-- Entries of which one says that the key exists and the other that it does not, and
which are the same to `Merge`: both values are empty, and the timestamps are the
same, or the higher one stands in for a missing one. -/
def Clash (defaultTS : Timestamp) (a b : Kv) : Prop :=
  isDeleted a.maskedFlags ≠ isDeleted b.maskedFlags ∧ a.value = [] ∧ b.value = [] ∧
    (stampOf defaultTS a = stampOf defaultTS b ∨
      (stampOf defaultTS a < stampOf defaultTS b ∧ b.timestampNano = 0) ∨
      (stampOf defaultTS b < stampOf defaultTS a ∧ a.timestampNano = 0))

/-- One of two entries stays under the other. -/
theorem stays_total (defaultTS : Timestamp) (a b : Kv) :
    Stays defaultTS a b ∨ Stays defaultTS b a := by
  rcases lt_trichotomy (stampOf defaultTS a) (stampOf defaultTS b) with hlt | heq | hgt
  · exact Or.inr (Or.inr (Or.inl hlt))
  · rcases le_total a.value b.value with hle | hle
    · exact Or.inl (Or.inr (Or.inr ⟨heq.symm, hle⟩))
    · exact Or.inr (Or.inr (Or.inr ⟨heq, hle⟩))
  · exact Or.inl (Or.inr (Or.inl hgt))

/-- Entries that stay under each other have the same value. -/
theorem stays_both_iff {defaultTS : Timestamp} {a b : Kv} :
    (Stays defaultTS a b ∧ Stays defaultTS b a) ↔ a.value = b.value ∧
      (stampOf defaultTS a = stampOf defaultTS b ∨
        (stampOf defaultTS a < stampOf defaultTS b ∧ b.timestampNano = 0) ∨
        (stampOf defaultTS b < stampOf defaultTS a ∧ a.timestampNano = 0)) := by
  unfold Stays
  constructor
  · rintro ⟨hab, hba⟩
    rcases lt_trichotomy (stampOf defaultTS a) (stampOf defaultTS b) with hlt | heq | hgt
    · rcases hab with ⟨hz, hv⟩ | hgt | ⟨heq, -⟩
      · exact ⟨hv, Or.inr (Or.inl ⟨hlt, hz⟩)⟩
      · exact absurd hlt hgt.not_gt
      · exact absurd hlt (by rw [heq]; exact lt_irrefl _)
    · refine ⟨?_, Or.inl heq⟩
      rw [heq] at hab hba
      rcases hab with ⟨-, hv⟩ | hlt | ⟨-, hle⟩
      · exact hv
      · exact absurd hlt (lt_irrefl _)
      · rcases hba with ⟨-, hv⟩ | hlt | ⟨-, hle'⟩
        · exact hv.symm
        · exact absurd hlt (lt_irrefl _)
        · exact le_antisymm hle hle'
    · rcases hba with ⟨hz, hv⟩ | hlt | ⟨heq, -⟩
      · exact ⟨hv.symm, Or.inr (Or.inr ⟨hgt, hz⟩)⟩
      · exact absurd hgt hlt.not_gt
      · exact absurd hgt (by rw [heq]; exact lt_irrefl _)
  · rintro ⟨hv, heq | ⟨hlt, hz⟩ | ⟨hlt, hz⟩⟩
    · exact ⟨Or.inr (Or.inr ⟨heq.symm, hv.le⟩), Or.inr (Or.inr ⟨heq, hv.symm.le⟩)⟩
    · exact ⟨Or.inl ⟨hz, hv⟩, Or.inr (Or.inl hlt)⟩
    · exact ⟨Or.inr (Or.inl hlt), Or.inl ⟨hz, hv.symm⟩⟩

/-- Valid entries with different flags and the same value have no value. -/
theorem value_nil_of_ne {a b : Kv} (ha : Valid a) (hb : Valid b)
    (hne : isDeleted a.maskedFlags ≠ isDeleted b.maskedFlags) (hv : a.value = b.value) :
    a.value = [] := by
  cases hda : isDeleted a.maskedFlags with
  | true => exact ha hda
  | false =>
      rw [hda] at hne
      rw [hv]
      exact hb (by simpa using hne.symm)

/-- **Two instances that merge the same two entries in different orders agree on
whether the key exists, exactly if the entries do not clash.** -/
theorem merge_order_agrees_iff {defaultTS : Timestamp} {i₁ i₂ j₁ j₂ : NativeIterator} {a b : Kv}
    (hi₁ : Current defaultTS i₁) (hi₂ : Current defaultTS i₂) (hj₁ : Current defaultTS j₁)
    (hj₂ : Current defaultTS j₂) (ha : Valid a) (hb : Valid b) :
    ∃ v w, mergeBoth i₁ i₂ a b = .ok (some v) ∧ mergeBoth j₁ j₂ b a = .ok (some w) ∧
      deletedFlag v ≠ none ∧ (deletedFlag v = deletedFlag w ↔ ¬ Clash defaultTS a b) := by
  obtain ⟨v, hv, hfv⟩ := mergeBoth_flag hi₁ hi₂ ha hb
  obtain ⟨w, hw, hfw⟩ := mergeBoth_flag hj₁ hj₂ hb ha
  refine ⟨v, w, hv, hw, by rw [hfv]; simp, ?_⟩
  rw [hfv, hfw, Option.some.injEq]
  have hclash : Clash defaultTS a b ↔ isDeleted a.maskedFlags ≠ isDeleted b.maskedFlags ∧
      Stays defaultTS a b ∧ Stays defaultTS b a := by
    rw [stays_both_iff]
    unfold Clash
    refine and_congr_right fun hne => ?_
    constructor
    · rintro ⟨hav, hbv, hts⟩
      exact ⟨hav.trans hbv.symm, hts⟩
    · rintro ⟨hval, hts⟩
      have hnil := value_nil_of_ne ha hb hne hval
      exact ⟨hnil, hval ▸ hnil, hts⟩
  rw [hclash]
  by_cases hab : Stays defaultTS a b
  · by_cases hba : Stays defaultTS b a
    · rw [if_pos hab, if_pos hba]
      simp [hab, hba]
    · rw [if_pos hab, if_neg hba]
      simp [hba]
  · have hba := (stays_total defaultTS a b).resolve_left hab
    rw [if_neg hab, if_pos hba]
    simp [hab]

def sampleIterator : NativeIterator := ⟨0, 1, currentFormatVersion, false, 0⟩

theorem sampleIterator_current : Current 0 sampleIterator := ⟨rfl, rfl, rfl⟩

/-- An entry with a value, and a later deletion. -/
theorem merge_order_agrees_sample :
    ∃ v w, mergeBoth sampleIterator sampleIterator ⟨[1], [7], 4, 0⟩ ⟨[1], [], 5, 1⟩ = .ok (some v) ∧
      mergeBoth sampleIterator sampleIterator ⟨[1], [], 5, 1⟩ ⟨[1], [7], 4, 0⟩ = .ok (some w) ∧
      deletedFlag v = deletedFlag w := by
  obtain ⟨v, w, hv, hw, -, hiff⟩ := merge_order_agrees_iff (a := ⟨[1], [7], 4, 0⟩)
    (b := ⟨[1], [], 5, 1⟩) sampleIterator_current sampleIterator_current sampleIterator_current
    sampleIterator_current (by unfold Valid; decide) (fun _ => rfl)
  exact ⟨v, w, hv, hw, hiff.mpr (by rintro ⟨-, hnil, -⟩; cases hnil)⟩

/-- An entry with an empty value, set and deleted at the same time. -/
theorem empty_value_disagrees :
    ∃ v w, mergeBoth sampleIterator sampleIterator ⟨[1], [], 5, 0⟩ ⟨[1], [], 5, 1⟩ = .ok (some v) ∧
      mergeBoth sampleIterator sampleIterator ⟨[1], [], 5, 1⟩ ⟨[1], [], 5, 0⟩ = .ok (some w) ∧
      deletedFlag v = some false ∧ deletedFlag w = some true := by
  refine ⟨_, _, rfl, rfl, ?_, ?_⟩
  · decide +kernel
  · decide +kernel

end TieBreak

/-! ## Deletions of the first format -/

namespace Encodings

/-- An iterator for a snapshot of the given format version. -/
def ofVersion (it : NativeIterator) (formatVersion : UInt32) : NativeIterator :=
  { it with formatVersion := formatVersion }

/-- How format version 1 says that a key is deleted. -/
def emptied (key : Bytes) (ts : Timestamp) : Kv := ⟨key, [], ts, 0⟩

/-- How later versions say it. -/
def marked (key : Bytes) (ts : Timestamp) : Kv := ⟨key, [], ts, 1⟩

variable (it : NativeIterator) (key : Bytes) (ts : Timestamp)

theorem emptied_maskedFlags : (emptied key ts).maskedFlags = noFlags := by
  show masked (0 : UInt32).toUInt8 = noFlags
  decide

theorem marked_maskedFlags : (marked key ts).maskedFlags = flagDeleted := by
  show masked (1 : UInt32).toUInt8 = flagDeleted
  decide

/-- Where a header is written, it is the same one. -/
theorem addHeader_agree (ts : Timestamp) :
    (ofVersion it 1).addHeader [] ts noFlags = (ofVersion it 3).addHeader [] ts flagDeleted := by
  have hold : (ofVersion it 1).writtenFlags [] noFlags = flagDeleted := by
    have hbefore : (1 : UInt32) < 2 := by decide
    unfold NativeIterator.writtenFlags
    rw [if_pos ⟨rfl, hbefore⟩]
    decide
  have hnew : (ofVersion it 3).writtenFlags [] flagDeleted = flagDeleted :=
    writtenFlags_of_current _ rfl _ _
  unfold NativeIterator.addHeader
  rw [hold, hnew]
  rfl

/-- A deletion of an absent key. Only the marker is recognised as stale. -/
theorem merge_absent :
    (ofVersion it 1).merge (emptied key ts) [] =
      .ok (some ((ofVersion it 3).addHeader [] ts flagDeleted)) ∧
    (ofVersion it 3).merge (marked key ts) [] =
      .ok (if ts < it.deletedCutoff then none
        else some ((ofVersion it 3).addHeader [] ts flagDeleted)) := by
  unfold NativeIterator.merge
  rw [if_pos rfl, if_pos rfl, emptied_maskedFlags, marked_maskedFlags, isDeleted_noFlags,
    isDeleted_flagDeleted]
  constructor
  · rw [if_neg (by simp), ← addHeader_agree]
    rfl
  · by_cases hstale : ts < it.deletedCutoff
    · rw [if_pos ⟨rfl, hstale⟩, if_pos hstale]
    · rw [if_neg (fun h => hstale h.2), if_neg hstale]
      rfl

/-- A deletion of a stored key: both are compared by timestamp and empty value. -/
theorem merge_stored {old app : Bytes} {h : Header} (hp : parse old = .ok (h, app)) :
    (ofVersion it 1).merge (emptied key ts) old = (ofVersion it 3).merge (marked key ts) old := by
  have hkeeps : (ofVersion it 1).keeps (emptied key ts) h app ↔
      (ofVersion it 3).keeps (marked key ts) h app := Iff.rfl
  have hwrite : (ofVersion it 1).addHeader (emptied key ts).value
        ((ofVersion it 1).writtenTS (emptied key ts).timestampNano)
        (emptied key ts).maskedFlags =
      (ofVersion it 3).addHeader (marked key ts).value
        ((ofVersion it 3).writtenTS (marked key ts).timestampNano)
        (marked key ts).maskedFlags := by
    rw [emptied_maskedFlags, marked_maskedFlags]
    exact addHeader_agree it _
  rw [merge_of_parse _ hp, merge_of_parse _ hp, hwrite]
  simp only [hkeeps]

/-- **The two encodings of a deletion give the same result, exactly if it is not a stale
deletion of a key that is not there.** A deletion of the first format is then added,
and a deletion marker is not. -/
theorem encodings_agree_iff {old : Bytes} (hold : old = [] ∨ ∃ x, parse old = .ok x) :
    ∃ v w, (ofVersion it 1).merge (emptied key ts) old = .ok v ∧
      (ofVersion it 3).merge (marked key ts) old = .ok w ∧
      (v = w ↔ ¬ (old = [] ∧ ts < it.deletedCutoff)) := by
  rcases hold with rfl | ⟨⟨h, app⟩, hp⟩
  · obtain ⟨hv, hw⟩ := merge_absent it key ts
    refine ⟨_, _, hv, hw, ?_⟩
    by_cases hstale : ts < it.deletedCutoff
    · rw [if_pos hstale]
      simp [hstale]
    · rw [if_neg hstale]
      simp [hstale]
  · have hw := @merge_of_parse (ofVersion it 3) (marked key ts) _ _ _ hp
    refine ⟨_, _, (merge_stored it key ts hp).trans hw, hw, ?_⟩
    exact iff_of_true rfl fun h => parse_ok_ne_nil hp h.1

/-- A deletion of a live entry. -/
theorem encodings_agree_live :
    ∃ v, (ofVersion TieBreak.sampleIterator 1).merge (emptied [1] 5)
        (putBasic 4 1 noFlags ++ [7]) = .ok v ∧
      (ofVersion TieBreak.sampleIterator 3).merge (marked [1] 5)
        (putBasic 4 1 noFlags ++ [7]) = .ok v := by
  have hp : parse (putBasic 4 1 noFlags ++ [7]) = .ok (_, [7]) := parse_putBasic 4 1 noFlags [7]
  obtain ⟨v, w, hv, hw, hiff⟩ :=
    encodings_agree_iff TieBreak.sampleIterator [1] 5 (Or.inr ⟨_, hp⟩)
  obtain rfl := hiff.mpr fun h => parse_ok_ne_nil hp h.1
  exact ⟨v, hv, hw⟩

/-- A deletion before the cutoff, of a key that the sweeper has just removed. -/
theorem old_deletion_added_again :
    (∃ v, (ofVersion ⟨0, 1, 3, false, 9⟩ 1).merge (emptied [1] 5) [] = .ok (some v)) ∧
      (ofVersion ⟨0, 1, 3, false, 9⟩ 3).merge (marked [1] 5) [] = .ok none := by
  exact ⟨⟨_, rfl⟩, rfl⟩

end Encodings

/-! ## A snapshot loaded again -/

section Reload

variable {padding : Bool} {cutoff : Timestamp} {fv : UInt32} {id : TxnID} {kv : Kv}

theorem writtenTS_loadIterator (ts : Timestamp) :
    (loadIterator padding cutoff fv id).writtenTS ts = ts :=
  writtenTS_of_noDefault _ rfl ts

/-- What was written for an entry is kept when the entry comes again: its value is
the entry's, or empty. -/
theorem merge_written_again (padding' : Bool) (id' : TxnID) {ts : Timestamp}
    (hts : ts = kv.timestampNano) :
    (loadIterator padding' cutoff fv id').merge kv
        ((loadIterator padding cutoff fv id).addHeader kv.value ts kv.maskedFlags) =
      .ok (some ((loadIterator padding cutoff fv id).addHeader kv.value ts kv.maskedFlags)) := by
  obtain ⟨h, hp, hh, -, -⟩ :=
    parse_addHeader (loadIterator padding cutoff fv id) kv.value ts kv.maskedFlags
  rw [merge_of_parse _ hp, if_pos]
  refine Or.inr (Or.inr ⟨?_, ?_⟩)
  · rw [writtenTS_loadIterator, hh, writtenTS_loadIterator, hts]
  · unfold NativeIterator.writtenVal
    split
    · exact not_lt.mp (List.not_lt_nil _)
    · exact le_rfl

/-- **An entry merged again is recognised.** -/
theorem merge_again (padding' : Bool) (id' : TxnID) {old : Bytes} {r : Option Bytes}
    (hold : old = [] ∨ ∃ x, parse old = .ok x)
    (hm : (loadIterator padding cutoff fv id).merge kv old = .ok r) :
    (loadIterator padding' cutoff fv id').merge kv ((present r).getD []) = .ok (present r) := by
  rcases hold with rfl | ⟨⟨h, app⟩, hp⟩
  · unfold NativeIterator.merge at hm
    rw [if_pos rfl] at hm
    split at hm
    · -- a stale deletion is skipped again
      rename_i hstale
      obtain rfl := Except.ok.inj hm
      unfold NativeIterator.merge
      exact (if_pos rfl).trans (if_pos hstale)
    · obtain rfl := Except.ok.inj hm
      rw [present_eq_some.mpr ⟨rfl, addHeader_ne_nil _ _ _ _⟩]
      exact merge_written_again padding' id' rfl
  · rw [merge_of_parse _ hp] at hm
    obtain rfl := Except.ok.inj hm
    split
    · rename_i hkeep
      rw [present_eq_some.mpr ⟨rfl, parse_ok_ne_nil hp⟩, Option.getD_some, merge_of_parse _ hp,
        if_pos]
      unfold NativeIterator.keeps at hkeep ⊢
      rw [writtenTS_loadIterator] at hkeep ⊢
      exact hkeep
    · rw [present_eq_some.mpr ⟨rfl, addHeader_ne_nil _ _ _ _⟩]
      exact merge_written_again padding' id' (writtenTS_loadIterator _)

/-- **Loading a snapshot again writes nothing.** The transaction that applies the same
message a second time ends as it began, and does not count as changed by it. -/
theorem reload_writes_nothing (padding : Bool) (cutoff : Timestamp) (fv : UInt32) (id id' : TxnID)
    {msg : Reading η} {t t' : Txn} (hvalid : HeadersValid t.dbi)
    (hnd : (msg.kvs.map Kv.key).Nodup)
    (h : update t ((loadIterator padding cutoff fv id).iterator msg) = .ok t') (dirty : Bool) :
    update ⟨t'.dbi, dirty⟩ ((loadIterator padding cutoff fv id').iterator msg) =
      .ok ⟨t'.dbi, dirty⟩ := by
  have hend : ((loadIterator padding cutoff fv id').iterator msg).ending = none :=
    (update_eq_ok h).1
  apply update_idle hend
  intro e he
  obtain ⟨hne, r, hm, hget⟩ := update_ok h hnd e he
  have hold : oldVal t.dbi e.key = [] ∨ ∃ x, parse (oldVal t.dbi e.key) = .ok x := by
    unfold oldVal
    cases hg : t.dbi.get e.key with
    | none => exact Or.inl rfl
    | some v => exact Or.inr (hvalid _ v hg)
  refine ⟨hne, present r, ?_, ?_⟩
  · have hagain := merge_again padding id' hold (mapError_eq_ok.mp hm)
    show ((loadIterator padding cutoff fv id').merge e (oldVal t'.dbi e.key)).mapError _ = _
    rw [oldVal, show t'.dbi.get e.key = present r from hget, hagain]
    rfl
  · rw [present_present]
    exact hget.symm

/-- A live entry and a deletion that carries a value. -/
def sampleMessage : Reading Empty := Reading.ofList [⟨[1], [7], 4, 0⟩, ⟨[2], [8], 5, 1⟩]

theorem reload_writes_nothing_sample :
    ∃ t', update (Txn.start (Dbi.empty KeyFlags.plain))
        ((loadIterator false 0 3 1).iterator sampleMessage) = .ok t' ∧ t'.dirty = true ∧
      update ⟨t'.dbi, false⟩ ((loadIterator false 0 3 2).iterator sampleMessage) =
        .ok ⟨t'.dbi, false⟩ := by
  obtain ⟨t', ht', hdirty⟩ : ∃ t', update (Txn.start (Dbi.empty KeyFlags.plain))
      ((loadIterator false 0 3 1).iterator sampleMessage) = .ok t' ∧ t'.dirty = true :=
    ⟨_, rfl, rfl⟩
  refine ⟨t', ht', hdirty, reload_writes_nothing false 0 3 1 2 ?_ (by decide) ht' false⟩
  intro k v hk
  cases hk

end Reload

end LightningStream.Syncer
