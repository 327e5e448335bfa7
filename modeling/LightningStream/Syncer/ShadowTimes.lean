import LightningStream.Base.Runs
import LightningStream.Syncer.ShadowCopies

/-!
# The timestamps of a shadow

A merge keeps an entry unless the new one is at least as new, whether it comes from
a snapshot or from the main DBI. The entry of a key that has gone from the main DBI
is replaced by a tombstone without looking at its timestamp. So the times in a
shadow go forward along a run in which no copy finds a key missing whose entry is
from after the time of the copy (`shadow_times_forward`). At startup the time of
the copy is 1.
-/

namespace LightningStream.Syncer

open Lmdb Snapshot Strategy Header

variable {cutoff ts : Timestamp} {txnID : TxnID} {f : KeyFlags} {d d' : Dbi}

namespace ShadowTimes

/-! ## The run -/

inductive Change
  | copy (ts : Timestamp) (main : Dbi)
  | load

/-- A copy of the main DBI, or a merge of a snapshot. LMDB demands that integer keys
have one size. -/
inductive Step (f : KeyFlags) : Dbi → Change → Dbi → Prop
  | copy {name : Bytes} {cutoff ts : Timestamp} {txnID : TxnID} {main d : Dbi} {b : Bool}
      {t : Txn} : main.flags = f → d.flags.Allowed (main.keys ++ d.keys) →
      mainToShadow name cutoff ts txnID main ⟨d, b⟩ = .ok t → Step f d (.copy ts main) t.dbi
  | load {η : Type} {padding : Bool} {cutoff : Timestamp} {fv cv : UInt32} {txnID : TxnID}
      {msg : Reading η} {d : Dbi} {b : Bool} {t : Txn} :
      applyMessage padding cutoff fv cv txnID msg ⟨d, b⟩ = .ok t → Step f d .load t.dbi

theorem Step.reached {e : Change} (h : Step f d e d') (hd : Reached f d) : Reached f d' := by
  cases h with
  | copy hmain _ hrun => exact hd.copy hmain hrun
  | load hrun => exact hd.load hrun

/-- What is before and after at a key goes forward in time. -/
def Forward (d d' : Dbi) : Prop :=
  ∀ k old new h h' app app', d.get k = some old → d'.get k = some new →
    parse old = .ok (h, app) → parse new = .ok (h', app') → h.timestamp ≤ h'.timestamp

/-- A copy does not find a key missing whose entry is live and newer. -/
def Meets (d : Dbi) : Change → Prop
  | .copy ts main => ∀ k old h app, main.get k = none → d.get k = some old →
      parse old = .ok (h, app) → isDeleted h.flags = false → h.timestamp ≤ ts
  | .load => True

/-! ## What goes forward -/

/-- An entry stays, or a later one takes its place. -/
def LaterAt (before after : Option Bytes) : Prop :=
  ∀ old h app, before = some old → parse old = .ok (h, app) →
    ∃ new h' app', after = some new ∧ parse new = .ok (h', app') ∧ h.timestamp ≤ h'.timestamp

def Later (d d' : Dbi) : Prop := ∀ k, LaterAt (d.get k) (d'.get k)

theorem LaterAt.refl (v : Option Bytes) : LaterAt v v := fun old h app hv hp =>
  ⟨old, h, app, hv, hp, le_rfl⟩

theorem LaterAt.trans {a b c : Option Bytes} (hab : LaterAt a b) (hbc : LaterAt b c) :
    LaterAt a c := by
  intro old h app hold hp
  obtain ⟨mid, h', app', hmid, hp', hle⟩ := hab old h app hold hp
  obtain ⟨new, h'', app'', hnew, hp'', hle'⟩ := hbc mid h' app' hmid hp'
  exact ⟨new, h'', app'', hnew, hp'', hle.trans hle'⟩

theorem Later.forward (h : Later d d') : Forward d d' := by
  intro k old new hd hd' app app' hold hnew hp hp'
  obtain ⟨new', hn, appn, hnew', hpn, hle⟩ := h k old hd app hold hp
  obtain rfl := Option.some.inj (hnew.symm.trans hnew')
  rw [hp'] at hpn
  cases hpn
  exact hle

/-! ## Loads -/

/-- What is merged over an entry is not older. -/
theorem laterAt_merge {it : NativeIterator} {kv : Kv} {old r : Option Bytes}
    (hm : it.merge kv (old.getD []) = .ok r) : LaterAt old (present r) := by
  rintro v h app rfl hp
  rw [Option.getD_some, merge_of_parse it hp] at hm
  obtain rfl := Except.ok.inj hm
  split
  · exact ⟨v, h, app, present_eq_some.mpr ⟨rfl, parse_ok_ne_nil hp⟩, hp, le_rfl⟩
  · rename_i hkeep
    obtain ⟨h', hp', hts, -⟩ := parse_addHeader it kv.value (it.writtenTS kv.timestampNano)
      kv.maskedFlags
    refine ⟨_, h', _, present_eq_some.mpr ⟨rfl, addHeader_ne_nil _ _ _ _⟩, hp', ?_⟩
    rw [hts, writtenTS_writtenTS]
    exact not_lt.mp fun hlt => hkeep (Or.inr (Or.inl hlt))

/-- **A load takes no entry back in time.** -/
theorem later_load {η : Type} {padding : Bool} {fv cv : UInt32} {msg : Reading η} {b : Bool}
    {t : Txn} (h : applyMessage padding cutoff fv cv txnID msg ⟨d, b⟩ = .ok t) :
    Later d t.dbi := by
  refine update_invariant (I := Later d) ?_ (applyMessage_ok h) fun k => LaterAt.refl _
  intro e _ d₁ d₂ r hd₁ hm _ hget k
  rw [hget k]
  split
  · rename_i hk
    rw [hk]
    exact (hd₁ _).trans (laterAt_merge (mapError_eq_ok.mp hm))
  · exact hd₁ k

/-! ## Copies -/

/-- What a copy leaves at every key. -/
theorem copy_outcome {name : Bytes} {main : Dbi} {b : Bool} {t : Txn} (hd : Reached f d)
    (hmain : main.flags = f) (hsizes : d.flags.Allowed (main.keys ++ d.keys))
    (h : mainToShadow name cutoff ts txnID main ⟨d, b⟩ = .ok t) (k : Bytes) :
    Outcome ts (main.get k) (d.get k) (t.dbi.get k) := by
  obtain ⟨hflags, hvals⟩ := hd.native
  have hvalid := headersValid_of_native hvals
  have htxn := mainToShadow_txnID h
  have hsorted := mainToShadow_sorted htxn h
  have hik : d.flags.integerKey = main.flags.integerKey := by
    rw [hmain, hflags]
    rfl
  rw [show (Txn.mk d b).dbi.flags.integerKey = main.flags.integerKey from hik] at hsorted
  obtain ⟨t', hrun, -, hget⟩ := @mainToShadow_spec name cutoff ts txnID
    ⟨main, d, hmain ▸ hflags, hsizes⟩ hvalid htxn hsorted b
  obtain rfl := Except.ok.inj (h.symm.trans hrun)
  rw [hget k]
  exact shadowedValue_outcome hvalid k

theorem laterAt_stamped {before after : Option Bytes} {flags : Flags} {v : Bytes}
    (hst : Stamped ts flags v after)
    (hle : ∀ old h app, before = some old → parse old = .ok (h, app) → h.timestamp ≤ ts) :
    LaterAt before after := by
  obtain ⟨raw, h', hraw, hp', rfl, -⟩ := hst
  intro old h app hold hp
  exact ⟨raw, h', v, hraw, hp', hle old h app hold hp⟩

/-- An outcome is later, unless a newer live entry has gone. -/
theorem Outcome.laterAt {m before after : Option Bytes} (h : Outcome ts m before after)
    (hlive : m = none → ∀ old h app, before = some old → parse old = .ok (h, app) →
      isDeleted h.flags = false → h.timestamp ≤ ts) : LaterAt before after := by
  rcases m with - | v <;> rcases before with - | old
  · rintro old h app hold -
    cases hold
  · rcases h with ⟨-, rfl⟩ | ⟨htomb, hst⟩
    · exact LaterAt.refl _
    · refine laterAt_stamped hst fun old' h app hold hp => ?_
      obtain rfl := Option.some.inj hold
      refine hlive rfl old h app rfl hp ?_
      rwa [tombstone_iff hp, Bool.not_eq_true] at htomb
  · rintro old h app hold -
    cases hold
  · rcases h with ⟨-, rfl⟩ | ⟨hret, hst⟩
    · exact LaterAt.refl _
    · refine laterAt_stamped hst fun old' h app hold hp => ?_
      obtain rfl := Option.some.inj hold
      rw [retained_iff hp] at hret
      exact not_lt.mp fun hlt => hret (Or.inr (Or.inl hlt))

/-- The tombstone of a live entry has the time of the copy. -/
theorem Outcome.tombstoned {old app : Bytes} {h : Header} {after : Option Bytes}
    (ho : Outcome ts none (some old) after) (hp : parse old = .ok (h, app))
    (hlive : isDeleted h.flags = false) :
    ∃ raw h', after = some raw ∧ parse raw = .ok (h', []) ∧ h'.timestamp = ts := by
  rcases ho with ⟨htomb, -⟩ | ⟨-, raw, h', hraw, hp', hts, -⟩
  · rw [tombstone_iff hp, hlive] at htomb
    cases htomb
  · exact ⟨raw, h', hraw, hp', hts⟩

/-! ## Every step and every run -/

theorem Step.later {e : Change} (hd : Reached f d) (h : Step f d e d') (he : Meets d e) :
    Later d d' := by
  cases h with
  | copy hmain hsizes hrun =>
      intro k
      exact Outcome.laterAt (copy_outcome hd hmain hsizes hrun k) fun hm old h app =>
        he k old h app hm
  | load hrun => exact later_load hrun

/-- **The times of a shadow go forward in a step exactly if it is not a copy that finds
a key missing whose entry is live and newer than the copy. A run without such
copies takes no entry back.** -/
theorem shadow_times_forward (f : KeyFlags) :
    (∀ d e d', Reached f d → Step f d e d' → (Forward d d' ↔ Meets d e)) ∧
    (∀ d d', Reached f d → RunsUnder (Step f) Meets d d' → Forward d d') := by
  constructor
  · intro d e d' hd hstep
    refine ⟨fun hforward => ?_, fun he => (hstep.later hd he).forward⟩
    cases hstep with
    | copy hmain hsizes hrun =>
        intro k old h app hm hold hp hlive
        have hout := copy_outcome hd hmain hsizes hrun k
        rw [hm, hold] at hout
        obtain ⟨raw, h', hraw, hp', rfl⟩ := Outcome.tombstoned hout hp hlive
        exact hforward k old raw h h' app [] hold hraw hp hp'
    | load _ => trivial
  · intro d d' hd hrun
    have hinv : Reached f d' ∧ Later d d' := by
      refine RunsUnder.invariant (I := fun x => Reached f x ∧ Later d x) ?_ hrun
        ⟨hd, fun k => LaterAt.refl _⟩
      rintro x e x' hstep hP ⟨hx, hlater⟩
      exact ⟨hstep.reached hx, fun k => (hlater k).trans (hstep.later hx hP k)⟩
    exact hinv.2.forward

theorem twoShadow_get (k : Bytes) :
    twoShadow.get k = if k = [98, 49] then some (putBasic 4 1 noFlags ++ [8])
      else if k = [97, 50] then some (putBasic 4 1 noFlags ++ [7]) else none := by
  unfold twoShadow
  rw [Dbi.get_set, Dbi.get_set]
  rfl

/-- Both entries of time 4 are gone when a copy is made at time 9. -/
theorem shadow_times_forward_sample :
    ∃ d', Step KeyFlags.plain twoShadow (.copy 9 (Dbi.empty KeyFlags.plain)) d' ∧
      Forward twoShadow d' := by
  obtain ⟨t, hrun, -⟩ := @mainToShadow_spec [] 0 9 1
    (plainPair (Dbi.empty KeyFlags.plain) twoShadow rfl rfl)
    (headersValid_of_native (reached_twoShadow (f := KeyFlags.plain) rfl).native.2) (by decide)
    (by decide) false
  have hstep : Step KeyFlags.plain twoShadow (.copy 9 (Dbi.empty KeyFlags.plain)) t.dbi :=
    Step.copy rfl (plainPair (Dbi.empty KeyFlags.plain) twoShadow rfl rfl).sizes hrun
  refine ⟨t.dbi, hstep, ?_⟩
  refine ((shadow_times_forward KeyFlags.plain).1 _ _ _ (reached_twoShadow rfl) hstep).mpr ?_
  intro k old h app _ hold hp _
  have hparse : ∀ v, parse (putBasic 4 1 noFlags ++ v) = .ok (h, app) → h.timestamp ≤ 9 := by
    intro v hv
    rw [parse_putBasic] at hv
    cases hv
    decide
  rw [twoShadow_get] at hold
  split_ifs at hold
  · exact hparse [8] (Option.some.inj hold ▸ hp)
  · exact hparse [7] (Option.some.inj hold ▸ hp)

/-- At startup the main DBI lacks a key that another instance has set at time 4. -/
theorem tombstone_at_startup :
    Reached KeyFlags.plain twoShadow ∧
      twoShadow.get [97, 50] = some (putBasic 4 1 noFlags ++ [7]) ∧
      (mainToShadow [] 0 1 1 (Dbi.empty KeyFlags.plain) (Txn.start twoShadow)).map
          (fun t => t.dbi.get [97, 50]) = .ok (some (putBasic 1 1 flagDeleted)) := by
  refine ⟨reached_twoShadow rfl, ?_, ?_⟩
  · decide +kernel
  · decide +kernel

end ShadowTimes

end LightningStream.Syncer
