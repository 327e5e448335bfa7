import LightningStream.Syncer.Loop
import LightningStream.Syncer.ShadowTxn

/-!
# The sync loop in shadow mode

Every load ends by copying the shadow back, so a write of the application
survives only if it is in the shadow by then. Whether a load first copies the
main DBI to the shadow is decided by transaction IDs.

The history below remembers, for every key, what the application last did to
it and when that was first copied to the shadow. The result is that nothing
but an entry with a timestamp as high can undo a write, as long as the
application never commits in the window of `Loop.Window`; a write in the window
can be lost (`commit_in_window_undone`).
-/

namespace LightningStream.Syncer.ShadowLoop

open Lmdb Snapshot Strategy Header Loop

variable {η : Type}

/-- `LoadOnce` and `SendOnce` without `SchemaTracksChanges`, for one main DBI. The
application stores no empty values and leaves the shadow alone. -/
def shadowMode (o : ShadowOptions) : Mode Shadowed (Message η) (Message Empty) where
  schemaTracksChanges := false
  app := fun d d' => d'.shadow = d.shadow ∧ d'.main.flags = d.main.flags ∧
    (∀ k v, d'.main.get k = some v → v ≠ []) ∧
    d.shadow.flags.Allowed (d'.main.keys ++ d.shadow.keys)
  startTxn := fun t txnID d =>
    match copyToShadow (η := η) o t.deletedCutoff 1 txnID t.elsewhere d with
    | .error _ => none
    | .ok sh => some (⟨d.main, sh.dbi⟩, sh.dirty)
  loadTxn := fun localChanged t txnID m d =>
    match loadShadowed o localChanged t.deletedCutoff t.now txnID t.elsewhere m d with
    | .error _ => none
    | .ok r => some r
  sendTxn := fun receiveOnly t txnID d =>
    match copyToShadow (η := η) o t.deletedCutoff t.now txnID t.elsewhere d with
    | .error _ => none
    | .ok sh =>
        if receiveOnly then some (⟨d.main, sh.dbi⟩, sh.dirty,
          ⟨currentFormatVersion, writeCompatFormatVersion, []⟩)
        else match dumpShadowed (η := η) o d.main sh.dbi with
          | .error _ => none
          | .ok msg => some (⟨d.main, sh.dbi⟩, sh.dirty, msg)

/-! ## The history of the application's writes -/

/-- What the application last did to a key. -/
structure Mark where
  /-- The value it set, or `none` if it removed the key. -/
  value : Option Bytes
  txnID : ℕ
  /-- The time of the first copy to the shadow that saw it. -/
  seen : Option Timestamp
  /-- There was a reason for it to be overruled. -/
  excused : Prop

structure History where
  /-- The last version that a copy to the shadow has seen. -/
  shadowed : ℕ
  marks : Bytes → Option Mark

/-- The shadow holds an entry for the key that is not older than `T`. -/
def Newer (d : Shadowed) (k : Bytes) (T : Timestamp) : Prop :=
  ∃ raw h app, d.shadow.get k = some raw ∧ parse raw = .ok (h, app) ∧ T ≤ h.timestamp

/-- The shadow already says about the key what the main DBI says. The merge then
leaves its timestamp alone. -/
def Agrees (d : Shadowed) (k : Bytes) : Prop :=
  match d.main.get k with
  | some v => ∃ raw h, d.shadow.get k = some raw ∧ parse raw = .ok (h, v)
  | none => ∀ raw h app, d.shadow.get k = some raw → parse raw = .ok (h, app) →
      isDeleted h.flags = true

/-- What excuses a write when it is first copied to the shadow at time `T`. -/
abbrev Excuse : Type := Shadowed → Bytes → Timestamp → Prop

def newer : Excuse := Newer

def newerOrAgrees : Excuse := fun d k T => Newer d k T ∨ Agrees d k

namespace History

open Classical in
/-- A commit that set or removed these keys. -/
noncomputable def commit (H : History) (txnID : ℕ) (touched : Set Bytes) (main : Dbi) : History :=
  { H with marks := fun k =>
      if k ∈ touched then some ⟨main.get k, txnID, none, False⟩ else H.marks k }

/-- A copy to the shadow at time `T`, of data up to version `last`. -/
def copy (E : Excuse) (H : History) (last : ℕ) (T : Timestamp) (d : Shadowed) : History where
  shadowed := last
  marks := fun k => (H.marks k).map fun mk =>
    match mk.seen with
    | none => { mk with seen := some T, excused := E d k T }
    | some _ => mk

/-- A load of a snapshot. -/
def load (o : ShadowOptions) (H : History) (m : Message η) : History :=
  { H with marks := fun k => (H.marks k).map fun mk =>
      { mk with excused := mk.excused ∨ ∃ T, mk.seen = some T ∧ Held o m k T } }

end History

abbrev LoopState (η : Type) : Type := State Shadowed (Message η) (Message Empty)

structure Observed (η : Type) where
  st : LoopState η
  hist : History

/-- How a step enters the history. A transaction that failed leaves no trace. -/
def Enters (o : ShadowOptions) (E : Excuse) (s s' : LoopState η) :
    Event Shadowed (Message η) → History → History → Prop
  | .commit d, H, H' => ∃ touched : Set Bytes,
      (∀ k, d.main.get k ≠ s.env.current.main.get k → k ∈ touched) ∧
      H' = H.commit (s.env.last + 1) touched d.main
  | .start _, H, H' =>
      if s.hasDataAtStart = true then
        (s'.pc = .stopped ∧ H' = H) ∨
          (s'.pc ≠ .stopped ∧ H' = H.copy E s.env.last 1 s.env.current)
      else H' = H
  | .load t u, H, H' => (s'.pc = .stopped ∧ H' = H) ∨
      (s'.pc ≠ .stopped ∧ H' = History.load o (if s.localChanged (s.env.last + 1) = true then
        H.copy E s.env.last t.now s.env.current else H) u.snapshot)
  | .send t, H, H' => (s'.pc = .stopped ∧ H' = H) ∨
      (s'.pc ≠ .stopped ∧ H' = H.copy E s.env.last t.now s.env.current)
  | .other, H, H' => H' = H

/-- One step of the loop or the application, with the history kept. -/
structure OStep (o : ShadowOptions) (c : Config) (E : Excuse) (x : Observed η)
    (e : Event Shadowed (Message η)) (y : Observed η) : Prop where
  step : Step (shadowMode o) c x.st e y.st
  enters : Enters o E x.st y.st e x.hist y.hist

/-- The runs with history in which no commit falls into the window. -/
def ORun (o : ShadowOptions) (c : Config) (E : Excuse) : Observed η → Observed η → Prop :=
  Relation.ReflTransGen fun x y => ∃ e, OStep o c E x e y ∧ OutsideWindow x.st e

/-- The loop before its first step. Writes from before count as seen by nobody yet,
and an environment without a transaction has no data. -/
structure OStart (f : KeyFlags) (x : Observed η) : Prop where
  start : Start x.st
  paired : x.st.env.current.Paired f
  shadowed : x.hist.shadowed = 0
  last : 0 < x.st.env.last → x.st.env.last ∈ x.st.commits
  fresh : x.st.env.last = 0 → x.st.env.current.main.keys = []
  marks : ∀ k mk, x.hist.marks k = some mk → mk.txnID ∈ x.st.commits ∧ mk.seen = none ∧
    x.st.env.current.main.get k = mk.value

/-! ## What the shadow says about a write -/

/-- The shadow has an entry for the write, with time `T`. -/
def Recorded (shadow : Dbi) (k : Bytes) (value : Option Bytes) (T : Timestamp) : Prop :=
  ∃ raw h, shadow.get k = some raw ∧ parse raw = .ok (h, value.getD []) ∧ h.timestamp = T ∧
    (value = none → isDeleted h.flags = true)

section Recorded

variable {cutoff ts : Timestamp} {id : TxnID} {d : Shadowed} {sh : Dbi} {k : Bytes}

/-- The first copy records the write, unless there is an excuse. -/
theorem recorded_of_copy
    (hsh : sh.get k = shadowedValue (shadowIterator ts id cutoff) d.main d.shadow k)
    (hvalid : HeadersValid d.shadow) (hx : ¬ newerOrAgrees d k ts) :
    Recorded sh k (d.main.get k) ts := by
  have hnew : ¬ Newer d k ts := fun h => hx (Or.inl h)
  have hagr : ¬ Agrees d k := fun h => hx (Or.inr h)
  unfold Agrees at hagr
  have hout : Outcome ts (d.main.get k) (d.shadow.get k) (sh.get k) :=
    hsh ▸ shadowedValue_outcome hvalid k
  cases hm : d.main.get k with
  | some v =>
      simp only [hm] at hagr
      cases hs : d.shadow.get k with
      | none =>
          rw [hm, hs] at hout
          obtain ⟨raw, h, hraw, hp, hts, -⟩ := hout
          exact ⟨raw, h, hraw, hp, hts, nofun⟩
      | some old =>
          rw [hm, hs] at hout
          rcases hout with ⟨⟨h₀, app, hp₀, hret⟩, -⟩ | ⟨-, raw, h, hraw, hp, hts, -⟩
          · rcases hret with rfl | hlt | ⟨heq, -⟩
            · exact absurd ⟨old, h₀, hs, hp₀⟩ hagr
            · exact absurd ⟨old, h₀, app, hs, hp₀, hlt.le⟩ hnew
            · exact absurd ⟨old, h₀, app, hs, hp₀, heq.le⟩ hnew
          · exact ⟨raw, h, hraw, hp, hts, nofun⟩
  | none =>
      simp only [hm] at hagr
      push Not at hagr
      obtain ⟨old, h₀, app, hs, hp₀, hlive⟩ := hagr
      rw [hm, hs] at hout
      rcases hout with ⟨htomb, -⟩ | ⟨-, raw, h, hraw, hp, hts, hfl⟩
      · exact absurd ((tombstone_iff hp₀).mp htomb) hlive
      · exact ⟨raw, h, hraw, hp, hts, fun _ => by rw [hfl]; decide⟩

/-- Where the shadow agrees, a copy leaves it alone. -/
theorem shadowedValue_of_agrees (hvalid : HeadersValid d.shadow) (h : Agrees d k) :
    shadowedValue (shadowIterator ts id cutoff) d.main d.shadow k = d.shadow.get k := by
  have hout : Outcome ts (d.main.get k) (d.shadow.get k)
      (shadowedValue (shadowIterator ts id cutoff) d.main d.shadow k) :=
    shadowedValue_outcome hvalid k
  unfold Agrees at h
  cases hm : d.main.get k with
  | some v =>
      simp only [hm] at h
      obtain ⟨raw, hd, hs, hp⟩ := h
      rw [hm, hs] at hout
      rcases hout with ⟨-, heq⟩ | ⟨hnot, -⟩
      · rw [heq, hs]
      · exact absurd ((retained_iff hp).mpr (Or.inl rfl)) hnot
  | none =>
      simp only [hm] at h
      cases hs : d.shadow.get k with
      | none =>
          rw [hm, hs] at hout
          exact hout
      | some raw =>
          rw [hm, hs] at hout
          rcases hout with ⟨-, heq⟩ | ⟨hnot, -⟩
          · exact heq
          · obtain ⟨⟨hd, app⟩, hp⟩ := hvalid k raw hs
            exact absurd ((tombstone_iff hp).mpr (h raw hd app hs hp)) hnot

/-- Later copies leave the record alone. -/
theorem recorded_copy_again
    (hsh : sh.get k = shadowedValue (shadowIterator ts id cutoff) d.main d.shadow k)
    (hvalid : HeadersValid d.shadow) {T : Timestamp}
    (hr : Recorded d.shadow k (d.main.get k) T) : Recorded sh k (d.main.get k) T := by
  have hagrees : Agrees d k := by
    obtain ⟨raw, h, hs, hp, -, hdel⟩ := hr
    unfold Agrees
    cases hm : d.main.get k with
    | some v =>
        rw [hm] at hp
        exact ⟨raw, h, hs, hp⟩
    | none =>
        intro raw' h' app hs' hp'
        rw [hs] at hs'
        rw [← Option.some.inj hs', hp] at hp'
        cases hp'
        exact hdel hm
  rw [shadowedValue_of_agrees hvalid hagrees] at hsh
  obtain ⟨raw, h, hs, hrest⟩ := hr
  exact ⟨raw, h, hsh.trans hs, hrest⟩

/-- A merge without an entry as new leaves the record alone. -/
theorem Recorded.grown {H : Bytes → Timestamp → Prop} {sh sh' : Dbi} {value : Option Bytes}
    {T : Timestamp} (hr : Recorded sh k value T) (hg : Grown H sh sh') (hn : ¬ H k T) :
    Recorded sh' k value T := by
  obtain ⟨raw, h, hs, hp, hts, hdel⟩ := hr
  exact ⟨raw, h, hg.kept k raw h _ hs hp (by rw [hts]; exact hn), hp, hts, hdel⟩

/-- The copy back restores what is recorded. -/
theorem Recorded.plainValue {value : Option Bytes} {T : Timestamp}
    (hr : Recorded sh k value T) (hv : ∀ v, value = some v → v ≠ []) :
    plainValue sh k = value := by
  obtain ⟨raw, h, hs, hp, -, -⟩ := hr
  rw [Syncer.plainValue, hs, Option.bind_some, appOf_of_parse hp]
  cases value with
  | none => rfl
  | some v => exact present_eq_some.mpr ⟨rfl, hv v rfl⟩

end Recorded

/-! ## The invariant -/

/-- What the history promises about a key: a write that was not copied yet stands
in the main DBI, and one that was is also recorded in the shadow. -/
def Protected (d : Shadowed) (shadowed : ℕ) (commits : List ℕ) (k : Bytes) (mk : Mark) : Prop :=
  match mk.seen with
  | none => mk.txnID ∈ commits ∧ shadowed < mk.txnID ∧ d.main.get k = mk.value
  | some T => ¬ mk.excused → d.main.get k = mk.value ∧ Recorded d.shadow k mk.value T

/-- The data and the history fit. -/
structure Upheld (f : KeyFlags) (d : Shadowed) (H : History) (last : ℕ) (commits : List ℕ) :
    Prop where
  paired : d.Paired f
  shadowed : H.shadowed ≤ last
  inSync : (∀ i ∈ commits, i ≤ H.shadowed) → ∀ k ∈ d.main.keys, k ∈ d.shadow.keys
  marks : ∀ k mk, H.marks k = some mk → Protected d H.shadowed commits k mk

section Upheld

variable {f : KeyFlags} {d : Shadowed} {H : History} {last last' : ℕ} {commits : List ℕ}

/-- A commit of the application. -/
theorem Upheld.commit {o : ShadowOptions} (h : Upheld f d H last commits) {d' : Shadowed}
    (happ : (shadowMode (η := η) o).app d d') {touched : Set Bytes}
    (ht : ∀ k, d'.main.get k ≠ d.main.get k → k ∈ touched) :
    Upheld f d' (H.commit (last + 1) touched d'.main) (last + 1) ((last + 1) :: commits) := by
  obtain ⟨hsh, hflags, hvals, hsizes⟩ := happ
  have hp := h.paired
  refine ⟨⟨hflags.trans hp.mainFlags, by rw [hsh]; exact hp.shadowFlags,
    by rw [hsh]; exact hsizes, hvals, by rw [hsh]; exact hp.headers⟩,
    h.shadowed.trans (Nat.le_succ _), fun hall => ?_, fun k mk hmk => ?_⟩
  · -- the commit itself is not in the shadow
    have hnew := hall (last + 1) List.mem_cons_self
    have hold := h.shadowed
    change last + 1 ≤ H.shadowed at hnew
    omega
  · unfold History.commit at hmk
    simp only at hmk
    split at hmk
    · obtain rfl := Option.some.inj hmk
      exact ⟨List.mem_cons_self, Nat.lt_succ_of_le h.shadowed, rfl⟩
    · rename_i hk
      have hsame : d'.main.get k = d.main.get k := by
        by_contra hne
        exact hk (ht k hne)
      have hmark := h.marks k mk hmk
      unfold Protected at hmark ⊢
      cases hseen : mk.seen with
      | none =>
          rw [hseen] at hmark
          exact ⟨List.mem_cons_of_mem _ hmark.1, hmark.2.1, hsame.trans hmark.2.2⟩
      | some T =>
          rw [hseen] at hmark
          intro hx
          rw [hsame, hsh]
          exact hmark hx

/-- A copy to the shadow. -/
theorem Upheld.copy (h : Upheld f d H last commits) (hlast : last ≤ last')
    {cutoff T : Timestamp} {id : TxnID} {sh : Dbi} (hp : Shadowed.Paired f ⟨d.main, sh⟩)
    (hget : ∀ k, sh.get k = shadowedValue (shadowIterator T id cutoff) d.main d.shadow k)
    (hkeys : ∀ k ∈ d.main.keys, k ∈ sh.keys) :
    Upheld f ⟨d.main, sh⟩ (H.copy newerOrAgrees last T d) last' commits := by
  refine ⟨hp, hlast, fun _ => hkeys, fun k mk hmk => ?_⟩
  obtain ⟨mk₀, hmk₀, rfl⟩ := Option.map_eq_some_iff.mp hmk
  have hmark := h.marks k mk₀ hmk₀
  unfold Protected at hmark
  cases hseen : mk₀.seen with
  | none =>
      rw [hseen] at hmark
      intro hx
      refine ⟨hmark.2.2, ?_⟩
      rw [← hmark.2.2]
      exact recorded_of_copy (hget k) h.paired.headers hx
  | some T₀ =>
      rw [hseen] at hmark
      simp only [Protected, hseen]
      intro hx
      obtain ⟨hmain, hrec⟩ := hmark hx
      exact ⟨hmain, hmain ▸ recorded_copy_again (hget k) h.paired.headers
        (hmain.symm ▸ hrec)⟩

/-- After a copy every write has been seen. -/
theorem copy_seen {E : Excuse} {T : Timestamp} {k : Bytes} {mk : Mark}
    (h : (H.copy E last T d).marks k = some mk) : ∃ T', mk.seen = some T' := by
  obtain ⟨mk₀, -, rfl⟩ := Option.map_eq_some_iff.mp h
  cases hseen : mk₀.seen with
  | none => exact ⟨T, rfl⟩
  | some T₀ => exact ⟨T₀, hseen⟩

/-- The merge of a snapshot and the copy back, once every write has been seen. -/
theorem Upheld.load {o : ShadowOptions} {m : Message η} {d' : Shadowed}
    (h : Upheld f d H last commits) (hlast : last ≤ last')
    (hseen : ∀ k mk, H.marks k = some mk → ∃ T, mk.seen = some T)
    (hg : Grown (Held o m) d.shadow d'.shadow) (hp : d'.Paired f)
    (hkeys : ∀ k ∈ d'.main.keys, k ∈ d'.shadow.keys)
    (hmain : ∀ k, d'.main.get k = plainValue d'.shadow k) :
    Upheld f d' (History.load o H m) last' commits := by
  refine ⟨hp, h.shadowed.trans hlast, fun _ => hkeys, fun k mk hmk => ?_⟩
  obtain ⟨mk₀, hmk₀, rfl⟩ := Option.map_eq_some_iff.mp hmk
  obtain ⟨T, hT⟩ := hseen k mk₀ hmk₀
  have hmark := h.marks k mk₀ hmk₀
  unfold Protected at hmark
  rw [hT] at hmark
  simp only [Protected, hT]
  intro hx
  push Not at hx
  obtain ⟨hval, hrec⟩ := hmark hx.1
  have hrec' := hrec.grown hg (hx.2 T rfl)
  refine ⟨?_, hrec'⟩
  rw [hmain k]
  exact hrec'.plainValue fun v hv => h.paired.values k v (hval.trans hv)

end Upheld

/-! ## Along a run -/

structure Safe (f : KeyFlags) (x : Observed η) : Prop where
  sound : Sound (· ≤ x.hist.shadowed) x.st
  /-- A `SendOnce` under way has copied what it saw. -/
  pending : ∀ t q snap, x.st.pc = .dumped t q snap ∨ x.st.pc = .storing t q snap →
    q ≤ x.hist.shadowed
  upheld : Upheld f x.st.env.current x.hist x.st.env.last x.st.commits

section Run

variable {o : ShadowOptions} {c : Config} {f : KeyFlags} {x y : Observed η} {H' : History}

/-- What a transaction has done that only copied to the shadow. -/
structure CopiedAt (f : KeyFlags) (T : Timestamp) (d d' : Shadowed) (dirty : Bool) : Prop where
  main : d'.main = d.main
  paired : d'.Paired f
  shadow : ∃ id cutoff, ∀ k, d'.shadow.get k =
    shadowedValue (shadowIterator T id cutoff) d.main d.shadow k
  keys : ∀ k ∈ d.main.keys, k ∈ d'.shadow.keys
  clean : dirty = false → d' = d

theorem copiedAt_of_copy {d : Shadowed} (hp : d.Paired f) {cutoff T : Timestamp} {txnID : ℕ}
    {b : Bool} {sh : Txn} (h : copyToShadow (η := η) o cutoff T txnID b d = .ok sh) :
    CopiedAt f T d ⟨d.main, sh.dbi⟩ sh.dirty := by
  obtain ⟨hp', hget, hkeys⟩ := copyToShadow_ok hp h
  refine ⟨rfl, hp', ⟨_, _, hget⟩, hkeys, fun hclean => ?_⟩
  rw [(mainToShadow_marked (mapError_eq_ok.mp h)).eq_of_clean hclean]

theorem startTxn_ok {d d' : Shadowed} (hp : d.Paired f) {t : Moment} {txnID : ℕ} {dirty : Bool}
    (h : (shadowMode (η := η) o).startTxn t txnID d = some (d', dirty)) :
    CopiedAt f 1 d d' dirty := by
  unfold shadowMode at h
  simp only at h
  split at h
  · cases h
  · rename_i sh hcopy
    obtain ⟨rfl, rfl⟩ := Prod.mk.inj (Option.some.inj h)
    exact copiedAt_of_copy hp hcopy

theorem sendTxn_ok {d d' : Shadowed} (hp : d.Paired f) {t : Moment} {txnID : ℕ} {ro dirty : Bool}
    {snap : Message Empty}
    (h : (shadowMode (η := η) o).sendTxn ro t txnID d = some (d', dirty, snap)) :
    CopiedAt f t.now d d' dirty := by
  unfold shadowMode at h
  simp only at h
  split at h
  · cases h
  · rename_i sh hcopy
    have hboth : d' = ⟨d.main, sh.dbi⟩ ∧ dirty = sh.dirty := by
      split at h
      · obtain ⟨h₁, h₂⟩ := Prod.mk.inj (Option.some.inj h)
        exact ⟨h₁.symm, (Prod.mk.inj h₂).1.symm⟩
      · split at h
        · cases h
        · obtain ⟨h₁, h₂⟩ := Prod.mk.inj (Option.some.inj h)
          exact ⟨h₁.symm, (Prod.mk.inj h₂).1.symm⟩
    rw [hboth.1, hboth.2]
    exact copiedAt_of_copy hp hcopy

theorem Upheld.copied {d d' : Shadowed} {H : History} {last last' : ℕ} {commits : List ℕ}
    {T : Timestamp} {dirty : Bool} (h : Upheld f d H last commits) (hlast : last ≤ last')
    (hc : CopiedAt f T d d' dirty) :
    Upheld f d' (H.copy newerOrAgrees last T d) last' commits := by
  obtain ⟨id, cutoff, hget⟩ := hc.shadow
  have heq : d' = ⟨d.main, d'.shadow⟩ := by rw [← hc.main]
  rw [heq]
  exact h.copy hlast (heq ▸ hc.paired) hget hc.keys

/-- The IDs of commits that a load without a local change finds are all in the
shadow. -/
theorem Safe.all_shadowed (hs : Safe f x) (hpc : x.st.pc = .ready)
    (hlc : x.st.localChanged (x.st.env.last + 1) = false) :
    ∀ i ∈ x.st.commits, i ≤ x.hist.shadowed := by
  have hcov := hs.sound.synced
  rw [Synced, hpc] at hcov
  have hle : x.st.env.last ≤ x.st.lastSynced := by simpa [State.localChanged] using hlc
  intro i hi
  exact hcov i hi ((hs.sound.numbered i hi).2.trans hle)

/-- The books go on, whatever the step was. -/
theorem Safe.sound_next (hs : Safe f x) {e : Event Shadowed (Message η)}
    (h : Step (shadowMode o) c x.st e y.st) (hw : OutsideWindow x.st e)
    (hmono : x.hist.shadowed ≤ y.hist.shadowed) : Sound (· ≤ y.hist.shadowed) y.st := by
  refine h.sound hw (fun i hi => hi.trans hmono) ?_ ?_ hs.sound
  · intro t q snap hpc _ i _ hle
    exact hle.trans ((hs.pending t q snap (Or.inr hpc)).trans hmono)
  · intro _ t q snap hpc i _ hle
    exact hle.trans ((hs.pending t q snap (Or.inl hpc)).trans hmono)

theorem afterStartup_env (s : LoopState η) (b : Bool) :
    (s.afterStartup b).env = s.env ∧ (s.afterStartup b).commits = s.commits ∧
      ∀ t q snap, (s.afterStartup b).pc ≠ .dumped t q snap ∧
        (s.afterStartup b).pc ≠ .storing t q snap ∧ (s.afterStartup b).pc ≠ .stopped := by
  rcases afterStartup_cases s b with h | h
  · rw [h]
    exact ⟨rfl, rfl, by simp⟩
  · rw [h]
    refine ⟨rfl, rfl, ?_⟩
    cases hin : s.inLoop with
    | true => simp [State.resume, hin]
    | false => simp [State.resume, hin]

/-- A step that leaves data and history alone. -/
theorem Safe.unchanged (hs : Safe f x) (hsound : Sound (· ≤ y.hist.shadowed) y.st)
    (hH : y.hist = x.hist) (henv : y.st.env = x.st.env) (hcom : y.st.commits = x.st.commits)
    (hpend : ∀ t q snap, y.st.pc = .dumped t q snap ∨ y.st.pc = .storing t q snap →
      ∃ t', x.st.pc = .dumped t' q snap ∨ x.st.pc = .storing t' q snap) : Safe f y := by
  refine ⟨hsound, fun t q snap hp => ?_, ?_⟩
  · obtain ⟨t', hp'⟩ := hpend t q snap hp
    rw [hH]
    exact hs.pending t' q snap hp'
  · rw [hH, henv, hcom]
    exact hs.upheld

theorem Safe.commit (hs : Safe f x) {d : Shadowed}
    (h : OStep o c newerOrAgrees x (.commit d) y) (hw : OutsideWindow x.st (.commit d)) :
    Safe f y := by
  obtain ⟨hstep, touched, htouched, hH⟩ := h
  have hsound := hs.sound_next hstep hw (by rw [hH]; exact le_rfl)
  have happ : (shadowMode (η := η) o).app x.st.env.current d ∧ y.st = x.st.commit d := by
    generalize hy : y.st = s' at hstep
    cases hstep with
    | commit happ => exact ⟨happ, rfl⟩
  refine ⟨hsound, fun t q snap hp => ?_, ?_⟩
  · rw [hH]
    rw [happ.2] at hp
    exact hs.pending t q snap hp
  · rw [hH, happ.2, show (x.st.commit d).env.current = d from Versioned.commit_current]
    exact hs.upheld.commit happ.1 htouched

theorem same_of_stopped {A : Prop} (hpc : y.st.pc = .stopped)
    (hH : (y.st.pc = .stopped ∧ y.hist = x.hist) ∨ (y.st.pc ≠ .stopped ∧ A)) :
    y.hist = x.hist := by
  rcases hH with ⟨-, h⟩ | ⟨hne, -⟩
  · exact h
  · exact absurd hpc hne

theorem of_not_stopped {A : Prop} (hpc : y.st.pc ≠ .stopped)
    (hH : (y.st.pc = .stopped ∧ y.hist = x.hist) ∨ (y.st.pc ≠ .stopped ∧ A)) : A := by
  rcases hH with ⟨hst, -⟩ | ⟨-, h⟩
  · exact absurd hst hpc
  · exact h

/-- A transaction that failed. -/
theorem Safe.stop (hs : Safe f x) (hy : y.st = x.st.stop) (hH : y.hist = x.hist) :
    Safe f y := by
  refine hs.unchanged ?_ hH (by rw [hy]; rfl) (by rw [hy]; rfl) fun t q snap hp => ?_
  · rw [hH, hy]
    exact ⟨hs.sound.numbered, hs.sound.bounded, trivial⟩
  · rw [hy] at hp
    simp [State.stop] at hp

/-- A transaction that copied to the shadow and went through. -/
theorem Safe.copied (hs : Safe f x) (hsound : Sound (· ≤ y.hist.shadowed) y.st)
    {T : Timestamp} {d : Shadowed} {b : Bool} (hc : CopiedAt f T x.st.env.current d b)
    (henv : y.st.env = x.st.env.finish d b) (hcom : y.st.commits = x.st.commits)
    (hH : y.hist = x.hist.copy newerOrAgrees x.st.env.last T x.st.env.current)
    (hpend : ∀ t q snap, y.st.pc = .dumped t q snap ∨ y.st.pc = .storing t q snap →
      q ≤ x.st.env.last) : Safe f y := by
  refine ⟨hsound, fun t q snap hp => ?_, ?_⟩
  · rw [hH]
    exact hpend t q snap hp
  · rw [hH, hcom, henv, Versioned.finish_current hc.clean]
    exact hs.upheld.copied (Versioned.last_le_finish b) hc

theorem Safe.start (hs : Safe f x) {t : Moment} (h : OStep o c newerOrAgrees x (.start t) y) :
    Safe f y := by
  obtain ⟨hstep, hH⟩ := h
  have hw : OutsideWindow x.st (.start t) := nofun
  simp only [Enters] at hH
  have hstep' := hstep
  generalize hy : y.st = s' at hstep'
  cases hstep' with
  | @startup hsnap _ hpc =>
      rcases startup_cases (shadowMode o) x.st t hsnap with
        ⟨hskip, heq⟩ | heq | ⟨hdata, d, b, htxn, heq⟩
      · -- there was no data, so nothing was copied
        rw [if_neg fun hd => hskip ⟨hd, rfl⟩] at hH
        obtain ⟨henv, hcom, hp⟩ := afterStartup_env x.st hsnap
        refine hs.unchanged (hs.sound_next hstep hw (by rw [hH])) hH (by rw [hy, heq, henv])
          (by rw [hy, heq, hcom]) fun t q snap hpend => ?_
        rw [hy, heq] at hpend
        exact absurd hpend (by simp [hp t q snap])
      · have hstop : y.st.pc = .stopped := by
          rw [hy, heq]
          rfl
        refine hs.stop (hy.trans heq) ?_
        split at hH
        · exact same_of_stopped hstop hH
        · exact hH
      · obtain ⟨henv, hcom, hp⟩ := afterStartup_env { x.st with env := x.st.env.finish d b } hsnap
        have hne : y.st.pc ≠ .stopped := by
          rw [hy, heq]
          exact (hp 0 0 ⟨0, 0, []⟩).2.2
        rw [if_pos hdata] at hH
        have hcopy := of_not_stopped hne hH
        have hmono : x.hist.shadowed ≤ y.hist.shadowed := by
          rw [hcopy]
          exact hs.upheld.shadowed
        refine hs.copied (hs.sound_next hstep hw hmono) (startTxn_ok hs.upheld.paired htxn)
          (by rw [hy, heq, henv]) (by rw [hy, heq, hcom]) hcopy fun t q snap hpend => ?_
        rw [hy, heq] at hpend
        exact absurd hpend (by simp [hp t q snap])

theorem Safe.send (hs : Safe f x) {t : Moment} (h : OStep o c newerOrAgrees x (.send t) y) :
    Safe f y := by
  obtain ⟨hstep, hH⟩ := h
  have hw : OutsideWindow x.st (.send t) := nofun
  simp only [Enters] at hH
  have hstep' := hstep
  generalize hy : y.st = s' at hstep'
  cases hstep' with
  | send _ hpc =>
      rcases sendTxn_cases (shadowMode o) c x.st t with
        heq | ⟨hmode, -⟩ | ⟨-, d, b, snap, htxn, heq⟩
      · have hstop : y.st.pc = .stopped := by
          rw [hy, heq]
          rfl
        exact hs.stop (hy.trans heq) (same_of_stopped hstop hH)
      · cases hmode
      · have hne : y.st.pc ≠ .stopped := by
          rw [hy, heq]
          simp
        have hcopy := of_not_stopped hne hH
        have hmono : x.hist.shadowed ≤ y.hist.shadowed := by
          rw [hcopy]
          exact hs.upheld.shadowed
        refine hs.copied (hs.sound_next hstep hw hmono) (sendTxn_ok hs.upheld.paired htxn)
          (by rw [hy, heq]) (by rw [hy, heq]) hcopy fun t' q snap' hpend => ?_
        rw [hy, heq] at hpend
        simp only [Pc.dumped.injEq, reduceCtorEq, or_false] at hpend
        exact hpend.2.1.symm.le

/-- What a load finds after its first step, with or without a copy to the shadow:
the history fits and every write has been seen. -/
theorem Safe.before_merge (hs : Safe f x) (hpc : x.st.pc = .ready) {lc : Bool}
    (hlc : x.st.localChanged (x.st.env.last + 1) = lc) {T cutoff : Timestamp} {id : TxnID}
    {sh : Dbi} (hp : Shadowed.Paired f ⟨x.st.env.current.main, sh⟩)
    (hcopy : lc = true → (∀ k, sh.get k = shadowedValue (shadowIterator T id cutoff)
      x.st.env.current.main x.st.env.current.shadow k) ∧
      ∀ k ∈ x.st.env.current.main.keys, k ∈ sh.keys)
    (hsame : lc = false → sh = x.st.env.current.shadow) :
    ∃ H, H = (if lc = true then x.hist.copy newerOrAgrees x.st.env.last T x.st.env.current
        else x.hist) ∧ x.hist.shadowed ≤ H.shadowed ∧
      Upheld f ⟨x.st.env.current.main, sh⟩ H x.st.env.last x.st.commits ∧
      ∀ k mk, H.marks k = some mk → ∃ T', mk.seen = some T' := by
  refine ⟨_, rfl, ?_⟩
  cases lc with
  | true =>
      obtain ⟨hget, hkeys⟩ := hcopy rfl
      exact ⟨hs.upheld.shadowed, hs.upheld.copy le_rfl hp hget hkeys, fun k mk => copy_seen⟩
  | false =>
      have hall := hs.all_shadowed hpc hlc
      rw [hsame rfl]
      refine ⟨le_rfl, hs.upheld, fun k mk hmk => ?_⟩
      have hmark := hs.upheld.marks k mk hmk
      unfold Protected at hmark
      cases hseen : mk.seen with
      | some T' => exact ⟨T', rfl⟩
      | none =>
          -- a write that was not copied yet would have counted as a local change
          rw [hseen] at hmark
          exact absurd (hall _ hmark.1) (not_le.mpr hmark.2.1)

theorem Safe.load (hs : Safe f x) (hrev : f.reverseKey = false) {t : Moment}
    {u : Loop.Update (Message η)} (h : OStep o c newerOrAgrees x (.load t u) y) : Safe f y := by
  obtain ⟨hstep, hH⟩ := h
  have hw : OutsideWindow x.st (.load t u) := nofun
  simp only [Enters] at hH
  have hstep' := hstep
  generalize hy : y.st = s' at hstep'
  cases hstep' with
  | load _ _ hpc =>
      rcases loadTxn_cases (shadowMode o) x.st t u with heq | ⟨d', b, n, w, htxn, heq⟩
      · have hstop : y.st.pc = .stopped := by
          rw [hy, heq]
          rfl
        exact hs.stop (hy.trans heq) (same_of_stopped hstop hH)
      · have hne : y.st.pc ≠ .stopped := by
          rw [hy, heq]
          simp
        have hload := of_not_stopped hne hH
        have hrun : loadShadowed o (x.st.localChanged (x.st.env.last + 1)) t.deletedCutoff t.now
            (x.st.env.last + 1) t.elsewhere u.snapshot x.st.env.current = .ok (d', b) := by
          unfold shadowMode at htxn
          simp only at htxn
          split at htxn
          · cases htxn
          · rename_i r hr
            rw [hr, Option.some.inj htxn]
        obtain ⟨sh, hp₁, hcopy, hsame, hgrown, hp', hkeys, hmain, hclean⟩ :=
          loadShadowed_ok hrev hs.upheld.paired
            (fun hlc => hs.upheld.inSync (hs.all_shadowed hpc hlc)) hrun
        obtain ⟨H, hdef, hmono, hup, hseen⟩ := hs.before_merge hpc rfl hp₁ hcopy hsame
        rw [← hdef] at hload
        refine ⟨hs.sound_next hstep hw (by rw [hload]; exact hmono), fun t' q snap hpend => ?_, ?_⟩
        · rw [hy, heq] at hpend
          simp at hpend
        · rw [hload, hy, heq]
          simp only
          rw [Versioned.finish_current hclean]
          exact hup.load (Versioned.last_le_finish b) hseen hgrown hp' hkeys hmain

/-- The steps without a transaction. -/
theorem Safe.other (hs : Safe f x) (h : OStep o c newerOrAgrees x .other y) : Safe f y := by
  obtain ⟨hstep, hH⟩ := h
  have hH : y.hist = x.hist := hH
  have hsound := hs.sound_next hstep nofun (by rw [hH])
  generalize hy : y.st = s' at hstep
  have hframe : s'.env = x.st.env ∧ s'.commits = x.st.commits ∧
      ∀ t q snap, s'.pc = .dumped t q snap ∨ s'.pc = .storing t q snap →
        ∃ t', x.st.pc = .dumped t' q snap ∨ x.st.pc = .storing t' q snap := by
    cases hstep with
    | loadInfo _ =>
        refine ⟨rfl, rfl, fun t q snap hp => ?_⟩
        unfold State.loadInfo at hp
        simp only at hp
        split at hp
        · simp at hp
        · simp at hp
    | poll overdue _ _ =>
        rcases poll_cases c x.st overdue with h | h | ⟨-, h⟩
        all_goals
          rw [h]
          exact ⟨rfl, rfl, by simp⟩
    | @sendInfo t q snap hpc =>
        unfold State.sendInfo
        split
        · refine ⟨rfl, rfl, fun t' q' snap' hp => ?_⟩
          cases hin : x.st.inLoop with
          | true => simp [State.resume, hin] at hp
          | false => simp [State.resume, hin] at hp
        · refine ⟨rfl, rfl, fun t' q' snap' hp => ?_⟩
          simp only [reduceCtorEq, false_or, Pc.storing.injEq] at hp
          obtain ⟨-, rfl, rfl⟩ := hp
          exact ⟨t, Or.inl hpc⟩
    | @store t q snap hpc =>
        refine ⟨rfl, rfl, fun t' q' snap' hp => ?_⟩
        cases hin : x.st.inLoop with
        | true => simp [State.store, State.resume, hin] at hp
        | false => simp [State.store, State.resume, hin] at hp
    | _ => exact ⟨rfl, rfl, by simp [State.info, State.listed, State.idle, State.clean,
        State.sleep, State.stop]⟩
  exact hs.unchanged hsound hH (by rw [hy]; exact hframe.1) (by rw [hy]; exact hframe.2.1)
    (by rw [hy]; exact hframe.2.2)

/-- **One step upholds the history.** -/
theorem OStep.safe (hrev : f.reverseKey = false) {e : Event Shadowed (Message η)}
    (h : OStep o c newerOrAgrees x e y) (hw : OutsideWindow x.st e) (hs : Safe f x) :
    Safe f y := by
  cases e with
  | commit d => exact hs.commit h hw
  | start t => exact hs.start h
  | load t u => exact hs.load hrev h
  | send t => exact hs.send h
  | other => exact hs.other h

theorem OStart.safe (h : OStart f x) : Safe f x := by
  refine ⟨h.start.sound, fun t q snap hp => ?_, h.paired, ?_, fun hall k hk => ?_,
    fun k mk hmk => ?_⟩
  · rw [h.start.pc] at hp
    simp at hp
  · rw [h.shadowed]
    exact Nat.zero_le _
  · -- whatever was there before the start is a commit that nobody has seen
    have hzero : x.st.env.last = 0 := by
      by_contra hne
      have hle := hall _ (h.last (Nat.pos_of_ne_zero hne))
      rw [h.shadowed] at hle
      omega
    rw [h.fresh hzero] at hk
    cases hk
  · obtain ⟨hid, hseen, hval⟩ := h.marks k mk hmk
    unfold Protected
    rw [hseen, h.shadowed]
    exact ⟨hid, (h.start.commits _ hid).1, hval⟩

theorem ORun.safe (hrev : f.reverseKey = false) (hr : ORun o c newerOrAgrees x y)
    (hs : Safe f x) : Safe f y := by
  induction hr with
  | refl => exact hs
  | tail _ hstep ih =>
      obtain ⟨e, he, hw⟩ := hstep
      exact he.safe hrev hw ih

/-- **No local write is undone.** In every state of a run in which no commit falls
into the window, every key has the value, or the absence, that the application
last gave it, unless one of three things happened since. Either the shadow held an
entry as new as the first copy that saw the write, or it already agreed with the
write, or a snapshot with an entry as new was loaded. -/
theorem local_writes_survive (hrev : f.reverseKey = false) (hs : OStart f x)
    (hr : ORun o c newerOrAgrees x y) {k : Bytes} {mk : Mark} (hk : y.hist.marks k = some mk)
    (hx : ¬ mk.excused) : y.st.env.current.main.get k = mk.value := by
  have hmark := (hr.safe hrev hs.safe).upheld.marks k mk hk
  unfold Protected at hmark
  cases hseen : mk.seen with
  | none =>
      rw [hseen] at hmark
      exact hmark.2.2
  | some T =>
      rw [hseen] at hmark
      exact (hmark hx).1

end Run

/-! ## Two short runs -/

def options : ShadowOptions := ⟨[97], false⟩

def config : Config := ⟨ascii "own", false, false, false⟩

/-- One entry in the main DBI, and possibly one in the shadow. -/
def holding (v : Bytes) (shadow : Dbi) : Shadowed :=
  ⟨(Dbi.empty KeyFlags.plain).set [1] v Dbi.allowed_one, shadow⟩

/-- The shadow after a copy of the value 7 at time 1. -/
def copied : Dbi :=
  (Dbi.empty KeyFlags.plain).set [1] (putBasic 1 1 noFlags ++ [7]) Dbi.allowed_one

/-- The loop before its first step, on data from one transaction. -/
def initial (d : Shadowed) : LoopState Empty where
  env := ⟨1, fun _ => d⟩
  pc := .begin
  lastSynced := 0
  hasDataAtStart := false
  waitingForInstances := ∅
  nLoads := 0
  inLoop := false
  lastByInstance := fun _ => none
  committed := fun _ => none
  stored := []
  commits := [1]

/-- An update with one entry of the DBI. -/
def updateWith (kv : Kv) : Loop.Update (Message Empty) :=
  ⟨ascii "other", true, 0, ⟨3, 1, [⟨[97], 0, [], Reading.ofList [kv]⟩]⟩⟩

def morning : Moment := ⟨5, 0, false⟩

def noon : Moment := ⟨10, 0, false⟩

def started (d : Shadowed) : LoopState Empty :=
  ((initial d).info.listed true ∅).startup (shadowMode options) morning true

theorem initial_start (d : Shadowed) : Start (initial d) := by
  refine ⟨rfl, rfl, rfl, rfl, fun i hi => ?_⟩
  obtain rfl := List.mem_singleton.mp hi
  exact ⟨le_rfl, le_rfl⟩

/-- The start of a run: the loop finds data and snapshots, and copies to the
shadow. -/
theorem run_started {E : Excuse} (d : Shadowed) (H : History)
    (hne : (started d).pc ≠ .stopped) :
    ORun options config E ⟨initial d, H⟩ ⟨started d, H.copy E 1 1 d⟩ := by
  have hinfo : OStep options config E ⟨initial d, H⟩ .other ⟨(initial d).info, H⟩ :=
    ⟨Step.info rfl, rfl⟩
  have hlisted : OStep options config E ⟨(initial d).info, H⟩ .other
      ⟨(initial d).info.listed true ∅, H⟩ := ⟨Step.listed true ∅ rfl, rfl⟩
  have hstartup : OStep options config E ⟨(initial d).info.listed true ∅, H⟩ (.start morning)
      ⟨started d, H.copy E 1 1 d⟩ := by
    refine ⟨Step.startup morning rfl, ?_⟩
    simp only [Enters]
    split
    · exact Or.inr ⟨hne, rfl⟩
    · rename_i hdata
      exact absurd rfl hdata
  exact ((Relation.ReflTransGen.single ⟨_, hinfo, nofun⟩).tail ⟨_, hlisted, nofun⟩).tail
    ⟨_, hstartup, nofun⟩

/-- A load that finds a local change and goes through. -/
theorem step_load {E : Excuse} {s : LoopState Empty} {H : History} {t : Moment}
    {u : Loop.Update (Message Empty)} (hpc : s.pc = .ready)
    (hlc : s.localChanged (s.env.last + 1) = true)
    (hne : (s.loadTxn (shadowMode options) t u).pc ≠ .stopped) :
    OStep options config E ⟨s, H⟩ (.load t u) ⟨s.loadTxn (shadowMode options) t u,
      History.load options (H.copy E s.env.last t.now s.env.current) u.snapshot⟩ :=
  ⟨Step.load t u hpc, Or.inr ⟨hne, by rw [if_pos hlc]⟩⟩

theorem holding_paired {v : Bytes} (hv : v ≠ []) {shadow : Dbi} (hs : HeadersValid shadow)
    (hf : shadow.flags = KeyFlags.plain) (hk : ∀ k ∈ shadow.keys, k = [1]) :
    (holding v shadow).Paired KeyFlags.plain := by
  refine ⟨rfl, hf, ?_, fun k w hw => ?_, hs⟩
  · show shadow.flags.Allowed _
    rw [hf]
    have hone : KeyFlags.plain.Allowed [[1]] := by decide
    apply hone.subset
    intro k hkm
    rcases List.mem_append.mp hkm with hkm | hkm
    · exact hkm
    · exact List.mem_singleton.mpr (hk k hkm)
  · have hget : (holding v shadow).main.get k = if k = [1] then some v else none :=
      Dbi.get_set (by decide)
    rw [hget] at hw
    split at hw
    · rw [← Option.some.inj hw]
      exact hv
    · cases hw

/-- A value the application set is copied to the shadow at startup, and a load of
another entry leaves it alone. -/
theorem local_writes_survive_load :
    ∃ x y : Observed Empty, OStart KeyFlags.plain x ∧ ORun options config newerOrAgrees x y ∧
      y.st.env.current.main.get [1] = some [7] ∧ y.st.env.current.main.get [2] = some [9] := by
  set d := holding [7] (Dbi.empty KeyFlags.plain) with hd
  set H : History := ⟨0, fun k => if k = [1] then some ⟨some [7], 1, none, False⟩ else none⟩
    with hH
  have hstart : OStart KeyFlags.plain (⟨initial d, H⟩ : Observed Empty) := by
    refine ⟨initial_start d, holding_paired (by decide) (fun k v hk => by cases hk) rfl
      (fun k hk => by cases hk), rfl, fun _ => List.mem_singleton.mpr rfl, nofun, ?_⟩
    intro k mk hmk
    simp only [hH] at hmk
    split at hmk
    · rename_i hk
      rw [hk, ← Option.some.inj hmk]
      exact ⟨List.mem_singleton.mpr rfl, rfl, by decide⟩
    · cases hmk
  set u := updateWith ⟨[2], [9], 5, 0⟩ with hu
  have hload := step_load (E := newerOrAgrees) (H := H.copy newerOrAgrees 1 1 d)
    (s := started d) (t := noon) (u := u) (by decide +kernel) (by decide +kernel)
    (by decide +kernel)
  have hrun := (run_started d H (by decide +kernel)).tail ⟨_, hload, nofun⟩
  -- the write was first copied at time 1
  have hmark : ∀ n T d', (History.load options (((H.copy newerOrAgrees 1 1 d)).copy newerOrAgrees
      n T d') u.snapshot).marks [1] = some ⟨some [7], 1, some 1, newerOrAgrees d [1] 1 ∨
        ∃ T', some 1 = some T' ∧ Held options u.snapshot [1] T'⟩ := fun _ _ _ => rfl
  refine ⟨_, _, hstart, hrun, local_writes_survive rfl hstart hrun (hmark _ _ _) ?_,
    by decide +kernel⟩
  rintro (hx | ⟨T, -, dm, hdm, -, kv, hkv, hkey, -⟩)
  · rcases hx with ⟨raw, h, app, hraw, -⟩ | hag
    · cases hraw
    · obtain ⟨raw, h, hraw, -⟩ := hag
      cases hraw
  · obtain rfl := List.mem_singleton.mp hdm
    obtain rfl := List.mem_singleton.mp hkv
    cases hkey

theorem holding_get (v : Bytes) (shadow : Dbi) (k : Bytes) :
    (holding v shadow).main.get k = if k = [1] then some v else none :=
  Dbi.get_set (by decide)

theorem copied_get (k : Bytes) :
    copied.get k = if k = [1] then some (putBasic 1 1 noFlags ++ [7]) else none :=
  Dbi.get_set (by decide)

theorem copied_valid : HeadersValid copied := by
  intro k v hk
  rw [copied_get] at hk
  split at hk
  · exact ⟨_, Option.some.inj hk ▸ parse_putBasic 1 1 noFlags [7]⟩
  · cases hk

/-- A start with what an earlier run has left. -/
theorem start_copied : OStart KeyFlags.plain
    (⟨initial (holding [7] copied), ⟨0, fun _ => none⟩⟩ : Observed Empty) :=
  ⟨initial_start _, holding_paired (by decide) copied_valid rfl (by decide), rfl,
    fun _ => List.mem_singleton.mpr rfl, fun hlast => absurd hlast (by decide),
    fun k mk hmk => by cases hmk⟩

/-- The application sets the key. -/
theorem step_set {E : Excuse} {s : LoopState Empty} {H : History} {v w : Bytes} (hw : w ≠ [])
    (hs : s.env.current = holding v copied) :
    OStep options config E ⟨s, H⟩ (.commit (holding w copied)) ⟨s.commit (holding w copied),
      H.commit (s.env.last + 1) {[1]} (holding w copied).main⟩ := by
  have hp := holding_paired hw copied_valid rfl (by decide)
  refine ⟨Step.commit (hs ▸ ⟨rfl, rfl, hp.values, hp.sizes⟩), {[1]}, fun k hk => ?_, rfl⟩
  by_contra hmem
  have hne : k ≠ [1] := hmem
  apply hk
  rw [hs, holding_get, holding_get, if_neg hne, if_neg hne]

/-- The application sets a key to another value and back. The next copy finds the
value in the shadow and leaves its timestamp alone, so an entry that is older
than the copy wins. -/
theorem older_entry_overrules_write :
    ∃ x y : Observed Empty, OStart KeyFlags.plain x ∧ ORun options config newer x y ∧
      ∃ u t lc mk, y.st.pc = .loaded u t lc ∧ y.hist.marks [1] = some mk ∧ ¬ mk.excused ∧
        mk.value = some [7] ∧ y.st.env.current.main.get [1] = some [9] := by
  have hstart := start_copied
  set d := holding [7] copied with hd
  set H : History := ⟨0, fun _ => none⟩ with hH
  set s := started d with hs
  set u := updateWith ⟨[1], [9], 5, 0⟩ with hu
  have hout : ∀ (s' : LoopState Empty) e, s'.pc = .ready → OutsideWindow s' e := by
    intro s' e hpc d' _ hwin
    rw [Window, hpc] at hwin
    exact hwin
  have haway := step_set (E := newer) (s := s) (H := H.copy newer 1 1 d) (v := [7]) (w := [8])
    (by decide) (by decide +kernel)
  have hback := step_set (E := newer) (s := s.commit (holding [8] copied))
    (H := (H.copy newer 1 1 d).commit (s.env.last + 1) {[1]} (holding [8] copied).main)
    (v := [8]) (w := [7]) (by decide) (by decide +kernel)
  have hload := step_load (E := newer) (t := noon) (u := u)
    (s := (s.commit (holding [8] copied)).commit d)
    (H := ((H.copy newer 1 1 d).commit (s.env.last + 1) {[1]} (holding [8] copied).main).commit
      ((s.commit (holding [8] copied)).env.last + 1) {[1]} d.main)
    (by decide +kernel) (by decide +kernel) (by decide +kernel)
  have hrun := (((run_started d H (by decide +kernel)).tail
    ⟨_, haway, hout _ _ (by decide +kernel)⟩).tail
    ⟨_, hback, hout _ _ (by decide +kernel)⟩).tail ⟨_, hload, hout _ _ (by decide +kernel)⟩
  have hcur : ((s.commit (holding [8] copied)).commit d).env.current = d :=
    Versioned.commit_current
  -- the last write was first copied by the load, at time 10
  have hmark : ∀ (H : History) n d', (History.load options ((H.commit n {[1]} d.main).copy newer
      n 10 d') u.snapshot).marks [1] = some ⟨d.main.get [1], n, some 10, newer d' [1] 10 ∨
        ∃ T, some 10 = some T ∧ Held options u.snapshot [1] T⟩ := by
    intro H n d'
    simp [History.load, History.copy, History.commit]
  refine ⟨_, _, hstart, hrun, u, 4, true, _, by decide +kernel, hmark _ _ _, ?_, by decide,
    by decide +kernel⟩
  rintro (⟨raw, h, app, hraw, hp, hle⟩ | ⟨T, hT, dm, hdm, -, kv, hkv, -, hle⟩)
  · rw [hcur] at hraw
    have hraw : copied.get [1] = some raw := hraw
    rw [copied_get, if_pos rfl] at hraw
    rw [← Option.some.inj hraw, parse_putBasic] at hp
    rw [← (Prod.mk.inj (Except.ok.inj hp)).1] at hle
    exact absurd hle (by decide)
  · obtain rfl := List.mem_singleton.mp hdm
    obtain rfl := List.mem_singleton.mp hkv
    rw [← Option.some.inj hT] at hle
    exact absurd hle (by decide)

/-! ## A commit in the window -/

section Window

variable {o : ShadowOptions} {c : Config} {E : Excuse} {x y : Observed η} {s s' : LoopState η}
  {H : History}

/-- The runs with history, whenever the application commits. -/
def AnyRun (o : ShadowOptions) (c : Config) (E : Excuse) : Observed η → Observed η → Prop :=
  Relation.ReflTransGen fun x y => ∃ e, OStep o c E x e y

theorem ORun.any (hr : ORun o c E x y) : AnyRun o c E x y := by
  induction hr with
  | refl => exact Relation.ReflTransGen.refl
  | tail _ hstep ih =>
      obtain ⟨e, he, -⟩ := hstep
      exact ih.tail ⟨e, he⟩

theorem AnyRun.other (hr : AnyRun o c E x ⟨s, H⟩) (hstep : Step (shadowMode o) c s .other s') :
    AnyRun o c E x ⟨s', H⟩ :=
  hr.tail ⟨.other, hstep, rfl⟩

theorem AnyRun.send (hr : AnyRun o c E x ⟨s, H⟩) (t : Moment) (hpc : s.pc = .send)
    (hne : (s.sendTxn (shadowMode o) c t).pc ≠ .stopped) :
    AnyRun o c E x ⟨s.sendTxn (shadowMode o) c t, H.copy E s.env.last t.now s.env.current⟩ :=
  hr.tail ⟨.send t, Step.send t hpc, Or.inr ⟨hne, rfl⟩⟩

end Window

/-- The value 7 as it is sent. -/
def sevenSent : Message Empty := (updateWith ⟨[1], [7], 1, 0⟩).snapshot

/-- The loop finds that it has not sent anything yet. -/
def aboutToSend : LoopState Empty :=
  ((started (holding [7] copied)).idle.clean ∅).poll config false

/-- The transaction of `SendOnce` has nothing to write. -/
def dumpedSeven : LoopState Empty := aboutToSend.sendTxn (shadowMode options) config noon

theorem dumpedSeven_pc : dumpedSeven.pc = .dumped 2 1 sevenSent := by decide +kernel

/-- The application has set the key, under the ID of that transaction, and the loop has
stored its snapshot. -/
def overtaken : LoopState Empty :=
  (((dumpedSeven.commit (holding [8] copied)).sendInfo config 2 1 sevenSent).store 2 1
    sevenSent).sleep

theorem overtaken_unaware : overtaken.pc = .ready ∧
    overtaken.localChanged (overtaken.env.last + 1) = false := by decide +kernel

theorem run_aboutToSend (H : History) : AnyRun options config newerOrAgrees
    ⟨initial (holding [7] copied), H⟩
    ⟨aboutToSend, H.copy newerOrAgrees 1 1 (holding [7] copied)⟩ := by
  have hready : (started (holding [7] copied)).pc = .ready := by decide +kernel
  have hstarted := (run_started (E := newerOrAgrees) (holding [7] copied) H
    (by rw [hready]; nofun)).any
  exact ((hstarted.other (.idle hready)).other (.clean ∅ rfl)).other (.poll false rfl nofun)

/-- The commit has entered the history, and no copy has seen it. -/
theorem run_overtaken (H : History) : ∃ H', AnyRun options config newerOrAgrees
    ⟨initial (holding [7] copied), H⟩ ⟨overtaken, H'⟩ ∧
    H'.marks [1] = some ⟨some [8], 2, none, False⟩ := by
  obtain ⟨H₁, hdumped⟩ : ∃ H₁, AnyRun options config newerOrAgrees
      ⟨initial (holding [7] copied), H⟩ ⟨dumpedSeven, H₁⟩ := by
    refine ⟨_, (run_aboutToSend H).send noon (by decide +kernel) ?_⟩
    show dumpedSeven.pc ≠ .stopped
    rw [dumpedSeven_pc]
    nofun
  have hset := step_set (E := newerOrAgrees) (s := dumpedSeven) (H := H₁) (v := [7]) (w := [8])
    (by decide) (by decide +kernel)
  have hcommitted : AnyRun options config newerOrAgrees ⟨initial (holding [7] copied), H⟩
      ⟨dumpedSeven.commit (holding [8] copied), _⟩ := hdumped.tail ⟨_, hset⟩
  have hstoring : ((dumpedSeven.commit (holding [8] copied)).sendInfo config 2 1 sevenSent).pc =
      .storing 2 1 sevenSent := by decide +kernel
  have hstored := (hcommitted.other (.sendInfo dumpedSeven_pc)).other (.store hstoring)
  refine ⟨_, hstored.other (.sleep (by decide +kernel)), ?_⟩
  have hlast : dumpedSeven.env.last = 1 := by decide +kernel
  rw [hlast]
  exact if_pos (Set.mem_singleton _)

/-- The application commits between the transaction of a `SendOnce` that wrote nothing and
its look at `env.Info`. The loop takes the commit for its own, and the next load undoes it. -/
theorem commit_in_window_undone :
    ∃ x y : Observed Empty, OStart KeyFlags.plain x ∧ AnyRun options config newerOrAgrees x y ∧
      ∃ u t mk, y.st.pc = .loaded u t false ∧ y.hist.marks [1] = some mk ∧ ¬ mk.excused ∧
        mk.value = some [8] ∧ y.st.env.current.main.get [1] = some [7] := by
  have hstart := start_copied
  obtain ⟨H, hH⟩ : ∃ H : History, H = ⟨0, fun _ => none⟩ := ⟨_, rfl⟩
  rw [← hH] at hstart
  obtain ⟨H', hr, hmark⟩ := run_overtaken H
  obtain ⟨u, hu⟩ : ∃ u, u = updateWith ⟨[2], [9], 5, 0⟩ := ⟨_, rfl⟩
  obtain ⟨hpc, hlc⟩ := overtaken_unaware
  have hloaded : (overtaken.loadTxn (shadowMode options) noon u).pc = .loaded u 3 false := by
    rw [hu]
    decide +kernel
  have hload : AnyRun options config newerOrAgrees ⟨initial (holding [7] copied), H⟩
      ⟨overtaken.loadTxn (shadowMode options) noon u, History.load options H' u.snapshot⟩ := by
    refine hr.tail ⟨.load noon u, Step.load noon u hpc, Or.inr ⟨?_, ?_⟩⟩
    · rw [hloaded]
      nofun
    · rw [if_neg (by rw [hlc]; nofun)]
  refine ⟨_, _, hstart, hload, u, 3, _, hloaded, congrArg (Option.map _) hmark, ?_, rfl, ?_⟩
  · rintro (hno | ⟨T, hT, -⟩)
    · exact hno
    · cases hT
  · show (overtaken.loadTxn (shadowMode options) noon u).env.current.main.get [1] = some [7]
    rw [hu]
    decide +kernel

end LightningStream.Syncer.ShadowLoop
