import LightningStream.Syncer.OwnData

/-!
# Passes of the sync loop

What the loop tells the outside about itself: the start tracker, from which the health
check learns that the startup is over, and the return of a syncer that was asked for a
single pass. Both go by the set of instances the loop is waiting for. It is accounted for
(`Accounted`): an instance of the initial listing leaves the set only by a load of one of
its snapshots, or when a later listing no longer has any.

The loop loads all snapshots that are ready before it looks for local changes. If there
are some already, it does not put them off for long (`local_change_not_starved`).
-/

namespace LightningStream.Syncer.Passes

open Snapshot Cleaner Loop
open OwnData (System SystemStep SystemStart SystemRun Guarded Free)
open Receiver (instances)

variable {σ υ ν : Type}

/-! ## The start tracker -/

/-- `StartConfig`, with durations in nanoseconds. -/
structure StartConfig where
  errorDuration : ℤ
  warnDuration : ℤ
  reportHealthz : Bool
deriving DecidableEq

def minErrorDuration : ℤ := 0

def minWarnDuration : ℤ := 0

def StartConfig.validated (sc : StartConfig) : StartConfig :=
  { sc with
    errorDuration := if sc.errorDuration < minErrorDuration then minErrorDuration
      else sc.errorDuration
    warnDuration := if sc.warnDuration < minWarnDuration then minWarnDuration
      else sc.warnDuration }

structure StartTracker where
  initialListing : Bool
  initialStore : Bool
  initialReceiveAndLoad : Bool
deriving DecidableEq

inductive Health
  | healthy
  | warning
  | failing
deriving DecidableEq

namespace StartTracker

def new : StartTracker := ⟨false, false, false⟩

variable (st : StartTracker)

def setPassedInitialListing : StartTracker := { st with initialListing := true }

def setPassedInitialStore : StartTracker := { st with initialStore := true }

def setPassCompleted : StartTracker :=
  if !st.initialReceiveAndLoad then { st with initialReceiveAndLoad := true } else st

/-- The function that the tracker registers with the health check, a time after the start.
The second result tells that the startup is reported as finished, and the tracker
deregistered. -/
def evaluate (sc : StartConfig) (failingFor : ℤ) : Health × Bool :=
  if !st.initialListing || !st.initialStore || !st.initialReceiveAndLoad then
    if sc.reportHealthz then
      if failingFor ≥ sc.errorDuration then (.failing, false)
      else if failingFor ≥ sc.warnDuration then (.warning, false)
      else (.healthy, false)
    else (.healthy, false)
  else (.healthy, true)

@[simp] theorem setPassCompleted_initialListing :
    st.setPassCompleted.initialListing = st.initialListing := by
  unfold setPassCompleted
  split <;> rfl

@[simp] theorem setPassCompleted_initialStore :
    st.setPassCompleted.initialStore = st.initialStore := by
  unfold setPassCompleted
  split <;> rfl

theorem evaluate_finished {sc : StartConfig} {failingFor : ℤ}
    (h : (st.evaluate sc failingFor).2 = true) :
    st.initialListing = true ∧ st.initialStore = true ∧ st.initialReceiveAndLoad = true := by
  unfold evaluate at h
  split_ifs at h
  rename_i hall
  simpa [and_assoc] using hall

end StartTracker

/-- The calls that `syncLoop` makes on its tracker in a step: after the initial listing; at
startup if there is no data; after `SendOnce`; and at the end of a pass in which it was not
waiting for any instance. -/
def track (s s' : State σ υ ν) (st : StartTracker) : StartTracker :=
  match s.pc, s'.pc with
  | .listing, .startup _ => st.setPassedInitialListing
  | .startup _, .ready => if s.hasDataAtStart then st else st.setPassedInitialStore
  | .dumped _ _ _, .ready => st.setPassedInitialStore
  | .dumped _ _ _, .pause => st.setPassedInitialStore
  | .storing _ _ _, .ready => st.setPassedInitialStore
  | .storing _ _ _, .pause => st.setPassedInitialStore
  | .pause, .ready => if s.waitingForInstances = ∅ then st.setPassCompleted else st
  | .pause, .stopped => if s.waitingForInstances = ∅ then st.setPassCompleted else st
  | _, _ => st

/-- The commits that were there when the loop last checked for a change. -/
def polledAfter (s s' : State σ υ ν) (polled : List ℕ) : List ℕ :=
  match s.pc, s'.pc with
  | .poll, .poll => polled
  | .poll, _ => s.commits
  | _, _ => polled

/-- The loop and its receiver with the tracker, and the commits at the last check. -/
structure Pass (σ υ ν : Type) where
  system : System σ υ ν
  tracker : StartTracker
  polled : List ℕ

inductive PassStep (nm : Naming) (m : Mode σ υ ν) (c : Config) : Pass σ υ ν → Pass σ υ ν → Prop
  | step {x y st p} : SystemStep nm m c x y →
      PassStep nm m c ⟨x, st, p⟩ ⟨y, track x.loop y.loop st, polledAfter x.loop y.loop p⟩

structure PassStart (c : Config) (x : Pass σ υ ν) : Prop where
  system : SystemStart c x.system
  tracker : x.tracker = .new
  polled : x.polled = []

/-- The runs all of whose steps meet a condition. -/
def PassRun (nm : Naming) (m : Mode σ υ ν) (c : Config) (P : Pass σ υ ν → Pass σ υ ν → Prop) :
    Pass σ υ ν → Pass σ υ ν → Prop :=
  Relation.ReflTransGen fun x y => PassStep nm m c x y ∧ P x y

/-- The application does not commit in the window. -/
def Quiet (x y : Pass σ υ ν) : Prop :=
  Window x.system.loop → y.system.loop.commits = x.system.loop.commits

/-! ## The instances of the initial listing -/

/-- Every instance is being waited for, or a listing was without it, or a snapshot of it
was loaded. -/
def Accounted (x : System σ υ ν) : Prop :=
  OwnData.waits x.loop.pc = true → ∀ inst, inst ∈ x.loop.waitingForInstances ∨
    Free inst x.listings x.loads

section Accounted

variable {nm : Naming} {m : Mode σ υ ν} {c : Config} {x y : System σ υ ν}

/-- A load takes its instance out of the set, and is committed by then. -/
theorem accounted_load {s : State σ υ ν} {r r' : Receiver υ} {ls : List (List NameInfo)}
    {us : List (Update υ)} {t : Moment} {u : Update υ} {d : σ} {dirty : Bool}
    (ha : Accounted ⟨s, r, ls, us⟩) (hpc : s.pc = .ready)
    (hload : m.loadTxn (s.localChanged (s.env.last + 1)) t (s.env.last + 1) u.snapshot
      s.env.current = some (d, dirty)) :
    Accounted ⟨s.loadTxn m t u, r', ls, u :: us⟩ := by
  intro _ inst
  have hx := ha (by rw [hpc]; rfl) inst
  unfold State.loadTxn
  simp only [hload]
  rcases hx with hin | hf
  · cases hsnap : u.isSnapshot with
    | false => exact Or.inl hin
    | true =>
        by_cases hi : u.instanceID = inst
        · exact Or.inr (Or.inr ⟨u, List.mem_cons_self, hsnap, hi⟩)
        · exact Or.inl (Finset.mem_erase.mpr ⟨Ne.symm hi, hin⟩)
  · exact Or.inr (hf.mono (List.Subset.refl _) (List.subset_cons_self _ _))

/-- One step keeps the account. -/
theorem accounted_step (h : SystemStep nm m c x y) (hg : Guarded c x) (ha : Accounted x) :
    Accounted y := by
  cases h with
  | loop hstep hap =>
      intro hw inst
      have hk := OwnData.keeps_step hstep hap
      have hx := ha (hk.waits hw) inst
      rwa [← hk.waiting] at hx
  | list names _ _ => exact ha
  | publish _ =>
      intro hw inst
      exact (ha hw inst).imp_right fun h => h.mono (List.subset_cons_self _ _)
        (List.Subset.refl _)
  | receiver _ => exact ha
  | @listed s r ls us hpc hstart hidle =>
      intro _ inst
      -- the set is filled from the only listing so far
      have hls : ls = [r.lastSeenByInstance] :=
        (hg.early (Or.inr hpc)).after hstart (by simp [hidle])
      by_cases hseen : inst ∈ r.seenInstances
      · exact Or.inl hseen
      · refine Or.inr (Or.inl ⟨r.lastSeenByInstance, ?_, hseen⟩)
        rw [hls]
        exact List.mem_singleton_self _
  | load t hpc _ hload => exact accounted_load ha hpc hload
  | @loadFail s r ls us inst ni snap t _ _ hload =>
      intro hw
      have hstop : s.loadTxn m t (OwnData.updateOf inst ni snap) = s.stop := by
        unfold State.loadTxn
        simp only [OwnData.updateOf, hload]
      rw [hstop] at hw
      cases hw
  | @clean s r ls us hpc =>
      intro _ inst
      have hw : OwnData.waits s.pc = true := by
        rw [hpc]
        rfl
      rcases ha hw inst with hin | hf
      · by_cases hseen : inst ∈ r.seenInstances
        · exact Or.inl (Finset.mem_inter.mpr ⟨hin, hseen⟩)
        · exact Or.inr (Or.inl ⟨_, hg.shown hw, hseen⟩)
      · exact Or.inr hf

theorem accounted_run (hr : SystemRun nm m c x y) (hs : SystemStart c x) : Accounted y := by
  induction hr with
  | refl =>
      intro hw
      rw [hs.loop.pc] at hw
      cases hw
  | tail hr hstep ih => exact accounted_step hstep (OwnData.SystemRun.guarded hr hs) ih

/-- The instances of the initial listing are loaded, or were seen to have gone. -/
def InstancesDone (x : System σ υ ν) : Prop :=
  ∃ l, x.listings.getLast? = some l ∧ ∀ inst ∈ instances l,
    (∃ u ∈ x.loads, u.isSnapshot = true ∧ u.instanceID = inst) ∨
      ∃ l' ∈ x.listings.dropLast, inst ∉ instances l'

theorem instancesDone_of_free (hne : x.listings ≠ [])
    (h : ∀ inst, Free inst x.listings x.loads) : InstancesDone x := by
  refine ⟨x.listings.getLast hne, List.getLast?_eq_some_getLast hne, fun inst hinst => ?_⟩
  rcases OwnData.mayStore_iff.mpr (h inst) with ⟨l, hl, hno⟩ | hload | hgone
  · rw [List.getLast?_eq_some_getLast hne] at hl
    rw [← Option.some.inj hl] at hno
    exact absurd hinst hno
  · exact Or.inl hload
  · exact Or.inr hgone

end Accounted

/-! ## What a step can do to the loop -/

section Steps

variable {nm : Naming} {m : Mode σ υ ν} {c : Config} {x y : System σ υ ν} {s s' : State σ υ ν}
  {e : Event σ υ} {t q : ℕ} {snap : ν}

/-- Every step of the system is one of the loop, or none at all for it. -/
theorem loop_step (h : SystemStep nm m c x y) :
    y.loop = x.loop ∨ ∃ e, Step m c x.loop e y.loop := by
  cases h with
  | loop hstep _ => exact Or.inr ⟨_, hstep⟩
  | list _ _ _ => exact Or.inl rfl
  | publish _ => exact Or.inl rfl
  | receiver _ => exact Or.inl rfl
  | listed hpc _ _ => exact Or.inr ⟨_, Step.listed _ _ hpc⟩
  | load t hpc _ _ => exact Or.inr ⟨_, Step.load t _ hpc⟩
  | loadFail t hpc _ _ => exact Or.inr ⟨_, Step.load t _ hpc⟩
  | clean hpc => exact Or.inr ⟨_, Step.clean _ hpc⟩

theorem step_dumped (h : Step m c s e s') (hpc : s.pc = .dumped t q snap) :
    (∃ d, s' = s.commit d) ∨ s' = s.sendInfo c t q snap ∨ s' = s.stop := by
  cases h with
  | commit _ => exact Or.inl ⟨_, rfl⟩
  | sendInfo hpc' =>
      rw [hpc] at hpc'
      cases hpc'
      exact Or.inr (Or.inl rfl)
  | fail => exact Or.inr (Or.inr rfl)
  | _ => simp_all

theorem step_storing (h : Step m c s e s') (hpc : s.pc = .storing t q snap) :
    (∃ d, s' = s.commit d) ∨ s' = s.store t q snap ∨ s' = s.stop := by
  cases h with
  | commit _ => exact Or.inl ⟨_, rfl⟩
  | store hpc' =>
      rw [hpc] at hpc'
      cases hpc'
      exact Or.inr (Or.inl rfl)
  | fail => exact Or.inr (Or.inr rfl)
  | _ => simp_all

/-- The places of the loop where nothing depends on the data that was there at the start. -/
def calm : Pc υ ν → Bool
  | .listing => false
  | .startup _ => false
  | .dumped _ _ _ => false
  | .storing _ _ _ => false
  | _ => true

theorem calm_resume (s : State σ υ ν) : calm s.resume.pc = true := by
  unfold State.resume
  cases s.inLoop <;> rfl

theorem calm_afterStartup (s : State σ υ ν) (b : Bool) : calm (s.afterStartup b).pc = true := by
  rcases afterStartup_cases s b with h | h
  · rw [h]
    rfl
  · rw [h]
    exact calm_resume s

/-- The environment had `n` versions at the start. The loop knows if there were any, and
what it sends was read later. -/
structure Began (n : ℕ) (s : State σ υ ν) : Prop where
  last : n ≤ s.env.last
  data : (s.pc = .listing ∨ ∃ b, s.pc = .startup b) → 0 < n → s.hasDataAtStart = true
  pending : ∀ t q snap, s.pc = .dumped t q snap ∨ s.pc = .storing t q snap → n ≤ q

theorem began_of_calm {n : ℕ} (hlast : n ≤ s.env.last) (hpc : calm s.pc = true) : Began n s := by
  refine ⟨hlast, ?_, ?_⟩
  · rintro (h | ⟨b, h⟩) <;> simp [h, calm] at hpc
  · rintro t q snap (h | h) <;> simp [h, calm] at hpc

theorem Began.step {n : ℕ} (hb : Began n s) (h : Step m c s e s') : Began n s' := by
  have hlast : n ≤ s'.env.last := by
    rcases h.keeps with ⟨d, -, rfl⟩ | hk
    · exact hb.last.trans (Nat.le_succ _)
    · exact hb.last.trans hk.last
  cases h with
  | commit _ => exact ⟨hlast, hb.data, hb.pending⟩
  | info _ => exact ⟨hlast, fun _ hn => decide_eq_true (hn.trans_le hb.last), by simp [State.info]⟩
  | listed _ _ hpc => exact ⟨hlast, fun _ => hb.data (Or.inl hpc), by simp [State.listed]⟩
  | startup t _ =>
      refine began_of_calm hlast ?_
      rcases startup_cases m s t _ with ⟨-, h⟩ | h | ⟨-, d, b, -, h⟩
      · rw [h]
        exact calm_afterStartup s _
      · rw [h]
        rfl
      · rw [h]
        exact calm_afterStartup { s with env := s.env.finish d b } _
  | load t u _ =>
      refine began_of_calm hlast ?_
      rcases loadTxn_cases m s t u with h | ⟨d, b, n, w, -, h⟩ <;> rw [h] <;> rfl
  | loadInfo _ =>
      refine began_of_calm hlast ?_
      unfold State.loadInfo
      simp only
      split <;> rfl
  | poll overdue _ _ =>
      refine began_of_calm hlast ?_
      rcases poll_cases c s overdue with h | h | ⟨-, h⟩ <;> rw [h] <;> rfl
  | send t _ =>
      -- the transaction sees the last version
      refine ⟨hlast, ?_, fun t' q snap hpc' => ?_⟩
      · rcases sendTxn_cases m c s t with h | ⟨-, d, b, snap, -, h⟩ | ⟨-, d, b, snap, -, h⟩ <;>
          rw [h] <;> simp [State.stop]
      · rcases sendTxn_cases m c s t with h | ⟨-, d, b, snap', -, h⟩ | ⟨-, d, b, snap', -, h⟩
        · rw [h] at hpc'
          simp [State.stop] at hpc'
        · rw [h] at hpc'
          simp only [Pc.dumped.injEq, reduceCtorEq, or_false] at hpc'
          exact hpc'.2.1 ▸ hb.last
        · rw [h] at hpc'
          simp only [Pc.dumped.injEq, reduceCtorEq, or_false] at hpc'
          exact hpc'.2.1 ▸ hb.last
  | @sendInfo t q snap hpc =>
      unfold State.sendInfo at hlast ⊢
      split at hlast
      · rename_i hro
        rw [if_pos hro]
        exact began_of_calm hlast (calm_resume _)
      · rename_i hro
        rw [if_neg hro]
        refine ⟨hlast, by simp, fun t' q' snap' hpc' => ?_⟩
        simp only [Pc.storing.injEq, reduceCtorEq, false_or] at hpc'
        exact hpc'.2.1 ▸ hb.pending t q snap (Or.inl hpc)
  | store _ => exact began_of_calm hlast (calm_resume _)
  | _ => exact began_of_calm hlast rfl

/-- Listings and loads are not forgotten. -/
theorem free_step (h : SystemStep nm m c x y) {inst : Bytes} (hf : Free inst x.listings x.loads) :
    Free inst y.listings y.loads := by
  cases h with
  | publish _ => exact hf.mono (List.subset_cons_self _ _) (List.Subset.refl _)
  | load t _ _ _ => exact hf.mono (List.Subset.refl _) (List.subset_cons_self _ _)
  | _ => exact hf

theorem listings_step (h : SystemStep nm m c x y) (hne : x.listings ≠ []) : y.listings ≠ [] := by
  cases h with
  | publish _ => exact List.cons_ne_nil _ _
  | _ => exact hne

end Steps

/-! ## The end of the startup -/

section Tracked

variable {nm : Naming} {m : Mode σ υ ν} {c : Config} {s s' : State σ υ ν} {st : StartTracker}

/-- The calls on the tracker, with what the loop has done by then. -/
theorem track_cases (s s' : State σ υ ν) (st : StartTracker) :
    track s s' st = st ∨
    (track s s' st = st.setPassedInitialListing ∧ OwnData.waits s'.pc = true) ∨
    (track s s' st = st.setPassedInitialStore ∧
      ((s.hasDataAtStart = false ∧ ∃ b, s.pc = .startup b) ∨
        ∃ t q snap, (s.pc = .dumped t q snap ∨ s.pc = .storing t q snap) ∧
          (s'.pc = .ready ∨ s'.pc = .pause))) ∨
    (track s s' st = st.setPassCompleted ∧ s.pc = .pause ∧ s.waitingForInstances = ∅) := by
  unfold track
  split
  case h_1 b hpc hpc' =>
    refine Or.inr (Or.inl ⟨rfl, ?_⟩)
    rw [hpc']
    rfl
  case h_2 b hpc hpc' =>
    cases hd : s.hasDataAtStart with
    | true => exact Or.inl rfl
    | false => exact Or.inr (Or.inr (Or.inl ⟨rfl, Or.inl ⟨rfl, b, hpc⟩⟩))
  -- both ends of `SendOnce`, at startup and in the loop
  case h_3 hpc hpc' =>
    exact Or.inr (Or.inr (Or.inl ⟨rfl, Or.inr ⟨_, _, _, Or.inl hpc, Or.inl hpc'⟩⟩))
  case h_4 hpc hpc' =>
    exact Or.inr (Or.inr (Or.inl ⟨rfl, Or.inr ⟨_, _, _, Or.inl hpc, Or.inr hpc'⟩⟩))
  case h_5 hpc hpc' =>
    exact Or.inr (Or.inr (Or.inl ⟨rfl, Or.inr ⟨_, _, _, Or.inr hpc, Or.inl hpc'⟩⟩))
  case h_6 hpc hpc' =>
    exact Or.inr (Or.inr (Or.inl ⟨rfl, Or.inr ⟨_, _, _, Or.inr hpc, Or.inr hpc'⟩⟩))
  case h_7 hpc hpc' =>
    split
    case isTrue hempty => exact Or.inr (Or.inr (Or.inr ⟨rfl, hpc, hempty⟩))
    case isFalse => exact Or.inl rfl
  case h_8 hpc hpc' =>
    split
    case isTrue hempty => exact Or.inr (Or.inr (Or.inr ⟨rfl, hpc, hempty⟩))
    case isFalse => exact Or.inl rfl
  case h_9 => exact Or.inl rfl

/-- `SendOnce` ends with the data of the start in storage, unless the loop only receives. -/
theorem sendOnce_ends {e : Event σ υ} {n t q : ℕ} {snap : ν} (h : Step m c s e s')
    (hb : Began n s) (hpc : s.pc = .dumped t q snap ∨ s.pc = .storing t q snap)
    (hpc' : s'.pc = .ready ∨ s'.pc = .pause) : c.receiveOnly = true ∨ InStorage s' n := by
  have hseen := hb.pending t q snap hpc
  rcases hpc with hpc | hpc
  · rcases step_dumped h hpc with ⟨d, rfl⟩ | rfl | rfl
    · simp [State.commit, hpc] at hpc'
    · left
      by_contra hro
      simp [State.sendInfo, hro] at hpc'
    · simp [State.stop] at hpc'
  · rcases step_storing h hpc with ⟨d, rfl⟩ | rfl | rfl
    · simp [State.commit, hpc] at hpc'
    · exact Or.inr ⟨⟨q, snap⟩, List.mem_cons_self, hseen⟩
    · simp [State.stop] at hpc'

/-- What the tracker stands for, on an environment that had `n` versions at the start. -/
structure Tracked (c : Config) (n : ℕ) (x : Pass σ υ ν) : Prop where
  listing : x.tracker.initialListing = true → x.system.listings ≠ []
  store : x.tracker.initialStore = true → 0 < n → c.receiveOnly = true ∨ InStorage x.system.loop n
  loaded : x.tracker.initialReceiveAndLoad = true →
    ∀ inst, Free inst x.system.listings x.system.loads

variable {x y : System σ υ ν} {p p' : List ℕ} {n : ℕ}

/-- As long as there is no call on the tracker, it stands for the same. -/
theorem Tracked.step (h : SystemStep nm m c x y) (ht : Tracked c n ⟨x, st, p⟩) :
    Tracked c n ⟨y, st, p'⟩ := by
  refine ⟨fun hl => listings_step h (ht.listing hl), fun hs hn => ?_,
    fun hl inst => free_step h (ht.loaded hl inst)⟩
  rcases loop_step h with heq | ⟨e, hstep⟩
  · simp only [heq]
    exact ht.store hs hn
  · exact (ht.store hs hn).imp_right hstep.inStorage

theorem tracked_step (h : SystemStep nm m c x y) (ha : Accounted x) (hg : Guarded c y)
    (hb : Began n x.loop) (ht : Tracked c n ⟨x, st, p⟩) :
    Tracked c n ⟨y, track x.loop y.loop st, p'⟩ := by
  have hy : Tracked c n ⟨y, st, p'⟩ := ht.step h
  rcases track_cases x.loop y.loop st with heq | ⟨heq, hw⟩ | ⟨heq, hwhy⟩ | ⟨heq, hpc, hempty⟩
  · rwa [heq]
  · rw [heq]
    exact ⟨fun _ => List.ne_nil_of_mem (hg.shown hw), hy.store, hy.loaded⟩
  · rw [heq]
    refine ⟨hy.listing, fun _ hn => ?_, hy.loaded⟩
    rcases hwhy with ⟨hno, hpc⟩ | ⟨t, q, snap, hpc, hpc'⟩
    · rw [hb.data (Or.inr hpc) hn] at hno
      cases hno
    · rcases loop_step h with hsame | ⟨e, hstep⟩
      · rw [hsame] at hpc'
        rcases hpc with hpc | hpc <;> simp [hpc] at hpc'
      · exact sendOnce_ends hstep hb hpc hpc'
  · rw [heq]
    refine ⟨by simpa using hy.listing, by simpa using hy.store, fun _ inst => free_step h ?_⟩
    have hx := ha (by rw [hpc]; rfl) inst
    rw [hempty] at hx
    exact hx.resolve_left (Finset.notMem_empty _)

end Tracked

section Runs

variable {nm : Naming} {m : Mode σ υ ν} {c : Config} {P : Pass σ υ ν → Pass σ υ ν → Prop}
  {x y : Pass σ υ ν}

theorem PassRun.system (hr : PassRun nm m c P x y) : SystemRun nm m c x.system y.system := by
  induction hr with
  | refl => exact Relation.ReflTransGen.refl
  | tail _ hstep ih =>
      obtain ⟨⟨h⟩, -⟩ := hstep
      exact ih.tail h

/-- A run goes on with a step of the system. -/
theorem PassRun.next {z z' : System σ υ ν} {st st' : StartTracker} {p p' : List ℕ}
    (hr : PassRun nm m c P x ⟨z, st, p⟩) (h : SystemStep nm m c z z')
    (hst : track z.loop z'.loop st = st') (hp : polledAfter z.loop z'.loop p = p')
    (hP : P ⟨z, st, p⟩ ⟨z', st', p'⟩) : PassRun nm m c P x ⟨z', st', p'⟩ := by
  subst hst hp
  exact hr.tail ⟨PassStep.step h, hP⟩

/-- A step of the loop alone, in which the application does not commit. -/
theorem PassRun.nextLoop {s s' : State σ υ ν} {e : Event σ υ} {r : Receiver υ}
    {ls : List (List NameInfo)} {us : List (Update υ)} {st st' : StartTracker} {p p' : List ℕ}
    (hr : PassRun nm m c Quiet x ⟨⟨s, r, ls, us⟩, st, p⟩) (h : Step m c s e s')
    (hap : OwnData.Apart s e) (hst : track s s' st = st') (hp : polledAfter s s' p = p')
    (hcommits : s'.commits = s.commits) : PassRun nm m c Quiet x ⟨⟨s', r, ls, us⟩, st', p'⟩ :=
  hr.next (.loop h hap) hst hp fun _ => hcommits

/-- What the steps of the loop keep, a run keeps. -/
theorem PassRun.loop_invariant {I : State σ υ ν → Prop}
    (hstep : ∀ {s e s'}, Step m c s e s' → I s → I s') (hr : PassRun nm m c P x y)
    (hx : I x.system.loop) : I y.system.loop := by
  induction hr with
  | refl => exact hx
  | tail _ h ih =>
      obtain ⟨⟨h⟩, -⟩ := h
      rcases loop_step h with heq | ⟨e, hstep'⟩
      · simp only [heq]
        exact ih
      · exact hstep hstep' ih

theorem PassRun.began (hr : PassRun nm m c P x y) (hs : PassStart c x) :
    Began x.system.loop.env.last y.system.loop := by
  refine hr.loop_invariant (fun h hb => hb.step h) (began_of_calm le_rfl ?_)
  rw [hs.system.loop.pc]
  rfl

theorem PassRun.genuine (hr : PassRun nm m c P x y) (hs : PassStart c x) :
    Genuine m c y.system.loop :=
  hr.loop_invariant (fun h hg => h.genuine hg) hs.system.loop.genuine

theorem PassRun.tracked (hr : PassRun nm m c P x y) (hs : PassStart c x) :
    Tracked c x.system.loop.env.last y := by
  induction hr with
  | refl =>
      have hnew := hs.tracker
      exact ⟨by simp [hnew, StartTracker.new], by simp [hnew, StartTracker.new],
        by simp [hnew, StartTracker.new]⟩
  | tail hr hstep ih =>
      have hrun := PassRun.system hr
      have hbegan := PassRun.began hr hs
      obtain ⟨⟨h⟩, -⟩ := hstep
      exact tracked_step h (accounted_run hrun hs.system)
        (OwnData.SystemRun.guarded (hrun.tail h) hs.system) hbegan ih

end Runs

/-! ### A pass with one commit -/

open NativeLoop

/-- The receiver after it has listed an empty storage. -/
def emptyStorage (nm : Naming) : Receiver (Message Empty) :=
  { ((Receiver.new (Message Empty) plainConfig.ownInstanceID).list nm []).publish true [] with
    pc := .idle }

/-- The loop when the pass that stored the commit is over. -/
def onePass : State Lmdb.Contents (Message Empty) (Message Empty) :=
  ((((((started.commit oneDbi).idle.clean ∅).poll plainConfig false).sendTxn (native plainOptions)
    plainConfig noon).sendInfo plainConfig 1 1 ⟨3, 1, [⟨[97], 0, [], Reading.ofList []⟩]⟩).store 1
    1 ⟨3, 1, [⟨[97], 0, [], Reading.ofList []⟩]⟩)

/-- The start on some environment, up to the initial listing. -/
theorem run_listed (nm : Naming) (env : Versioned Lmdb.Contents) (commits : List ℕ) :
    PassRun nm (native plainOptions) plainConfig Quiet
      ⟨⟨{ fresh with env := env, commits := commits },
        Receiver.new (Message Empty) plainConfig.ownInstanceID, [], []⟩, .new, []⟩
      ⟨⟨State.listed { fresh with env := env, commits := commits }.info false ∅,
        emptyStorage nm, [[]], []⟩, ⟨true, false, false⟩, []⟩ := by
  have hstart : PassRun nm (native plainOptions) plainConfig Quiet
      ⟨⟨{ fresh with env := env, commits := commits },
        Receiver.new (Message Empty) plainConfig.ownInstanceID, [], []⟩, .new, []⟩
      ⟨⟨{ fresh with env := env, commits := commits },
        Receiver.new (Message Empty) plainConfig.ownInstanceID, [], []⟩, .new, []⟩ :=
    Relation.ReflTransGen.refl
  exact ((((hstart.nextLoop
    (Step.info rfl) (Or.inr ⟨nofun, nofun, nofun⟩) rfl rfl rfl).next
    (SystemStep.list [] rfl (Or.inl ⟨rfl, rfl⟩)) rfl rfl fun _ => rfl).next
    (SystemStep.publish rfl) rfl rfl fun _ => rfl).next
    (SystemStep.receiver (Receiver.Step.finish rfl)) rfl rfl fun _ => rfl).next
    (SystemStep.listed rfl rfl rfl) rfl rfl fun _ => rfl

theorem run_onePass (nm : Naming) :
    PassRun nm (native plainOptions) plainConfig Quiet
      ⟨⟨fresh, Receiver.new (Message Empty) plainConfig.ownInstanceID, [], []⟩, .new, []⟩
      ⟨⟨onePass, emptyStorage nm, [[]], []⟩, ⟨true, true, false⟩, [1]⟩ := by
  have hpolled := (((((run_listed nm fresh.env []).nextLoop
    (Step.startup noon rfl) (Or.inr ⟨nofun, nofun, nofun⟩) rfl rfl rfl).next
    (SystemStep.loop (Step.commit (d := oneDbi) trivial) (Or.inl ⟨_, rfl⟩)) rfl rfl nofun).nextLoop
    (Step.idle rfl) (Or.inr ⟨nofun, nofun, nofun⟩) rfl rfl rfl).next
    (SystemStep.clean rfl) rfl rfl fun _ => rfl).nextLoop
    (Step.poll false rfl (by simp)) (Or.inr ⟨nofun, nofun, nofun⟩) rfl rfl rfl
  exact ((hpolled.nextLoop
    (Step.send noon rfl) (Or.inr ⟨nofun, nofun, nofun⟩) rfl rfl rfl).nextLoop
    (Step.sendInfo rfl) (Or.inr ⟨nofun, nofun, nofun⟩) rfl rfl rfl).nextLoop
    (Step.store rfl) (Or.inr ⟨nofun, nofun, nofun⟩) rfl rfl rfl

/-- **The startup is over when it is reported to be**: there was an initial listing, every
instance in it is loaded or gone, and if there was data before, a snapshot of it or of a
later version of the environment is stored, unless the syncer only receives. -/
theorem startup_completed (nm : Naming) (m : Mode σ υ ν) (c : Config) (sc : StartConfig)
    {P : Pass σ υ ν → Pass σ υ ν → Prop} {x y : Pass σ υ ν} (hs : PassStart c x)
    (hr : PassRun nm m c P x y) (failingFor : ℤ)
    (hdone : (y.tracker.evaluate sc.validated failingFor).2 = true) :
    InstancesDone y.system ∧ (0 < x.system.loop.env.last → c.receiveOnly = true ∨
      ∃ st ∈ y.system.loop.stored, x.system.loop.env.last ≤ st.seen ∧
        ReadFrom m c y.system.loop.env st.seen st.snapshot) := by
  obtain ⟨hlisting, hstore, hload⟩ := y.tracker.evaluate_finished hdone
  have ht := hr.tracked hs
  refine ⟨instancesDone_of_free (ht.listing hlisting) (ht.loaded hload), fun hn => ?_⟩
  exact (ht.store hstore hn).imp_right (hr.genuine hs).read

/-- An environment with data, and nothing in storage: its initial snapshot is stored. -/
def initialStored : State Lmdb.Contents (Message Empty) (Message Empty) :=
  ((((((fresh.commit oneDbi).info.listed false ∅).startup (native plainOptions) noon
    false).sendTxn (native plainOptions) plainConfig noon).sendInfo plainConfig 1 1
    ⟨3, 1, [⟨[97], 0, [], Reading.ofList []⟩]⟩).store 1 1
    ⟨3, 1, [⟨[97], 0, [], Reading.ofList []⟩]⟩)

def initialPass : State Lmdb.Contents (Message Empty) (Message Empty) :=
  ((initialStored.idle.clean ∅).poll plainConfig false).sleep

theorem start_withData : Start (fresh.commit oneDbi) :=
  ⟨rfl, rfl, rfl, rfl, by decide⟩

theorem run_initialPass (nm : Naming) :
    PassRun nm (native plainOptions) plainConfig Quiet
      ⟨⟨fresh.commit oneDbi, Receiver.new (Message Empty) plainConfig.ownInstanceID, [], []⟩,
        .new, []⟩
      ⟨⟨initialPass, emptyStorage nm, [[]], []⟩, ⟨true, true, true⟩, [1]⟩ := by
  have hstored := ((((run_listed nm (fresh.env.commit oneDbi) [1]).nextLoop
    (Step.startup noon rfl) (Or.inr ⟨nofun, nofun, nofun⟩) rfl rfl rfl).nextLoop
    (Step.send noon rfl) (Or.inr ⟨nofun, nofun, nofun⟩) rfl rfl rfl).nextLoop
    (Step.sendInfo rfl) (Or.inr ⟨nofun, nofun, nofun⟩) rfl rfl rfl).nextLoop
    (Step.store rfl) (Or.inr ⟨nofun, nofun, nofun⟩) rfl rfl rfl
  exact (((hstored.nextLoop
    (Step.idle rfl) (Or.inr ⟨nofun, nofun, nofun⟩) rfl rfl rfl).next
    (SystemStep.clean rfl) rfl rfl fun _ => rfl).nextLoop
    (Step.poll false rfl (by simp)) (Or.inr ⟨nofun, nofun, nofun⟩) rfl rfl rfl).nextLoop
    (Step.sleep rfl) (Or.inr ⟨nofun, nofun, nofun⟩) rfl rfl rfl

theorem startup_completed_initial :
    InstancesDone (⟨initialPass, emptyStorage defaultNaming, [[]], []⟩ :
      System Lmdb.Contents (Message Empty) (Message Empty)) ∧
      (0 < 1 → false = true ∨ ∃ st ∈ initialPass.stored, 1 ≤ st.seen ∧
        ReadFrom (native (η := Empty) plainOptions) plainConfig initialPass.env st.seen
          st.snapshot) :=
  startup_completed defaultNaming (native plainOptions) plainConfig ⟨-1, 0, true⟩
    ⟨⟨start_withData, rfl, rfl⟩, rfl, rfl⟩ (run_initialPass defaultNaming) 7 rfl

/-! ## The commits of a pass -/

section Flushed

variable {m : Mode σ υ ν} {c : Config} {s s' : State σ υ ν} {e : Event σ υ} {own : Bytes}
  {polled : List ℕ}

/-- How far the commits have come that were there at the last check. -/
def Flushed (own : Bytes) (s : State σ υ ν) (polled : List ℕ) : Prop :=
  match s.pc with
  | .begin => polled = []
  | .listing => polled = []
  | .startup _ => polled = []
  | .send => ∀ i ∈ polled, i ≤ s.env.last
  | .dumped _ seen _ => ∀ i ∈ polled, i ≤ seen
  | .storing _ seen _ => ∀ i ∈ polled, i ≤ seen
  | .pause => own ∉ s.waitingForInstances → ∀ i ∈ polled, InStorage s i
  | _ => True

theorem flushed_nil (own : Bytes) (s : State σ υ ν) : Flushed own s [] := by
  unfold Flushed
  split <;> simp

theorem polledAfter_of_ne (hpc : s.pc ≠ .poll) : polledAfter s s' polled = polled := by
  unfold polledAfter
  split
  · rfl
  · exact absurd (by assumption) hpc
  · rfl

theorem polledAfter_of_eq (hpc : s'.pc = s.pc) : polledAfter s s' polled = polled := by
  unfold polledAfter
  rw [hpc]
  cases s.pc <;> rfl

theorem polledAfter_poll (hpc : s.pc = .poll) (hpc' : s'.pc ≠ .poll) :
    polledAfter s s' polled = s.commits := by
  unfold polledAfter
  rw [hpc]
  split
  · exact absurd (by assumption) hpc'
  · rfl
  · simp_all

theorem flushed_commit (d : σ) (hf : Flushed own s polled) : Flushed own (s.commit d) polled := by
  unfold Flushed at hf ⊢
  rw [show (s.commit d).pc = s.pc from rfl]
  cases hpc : s.pc with
  | send =>
      rw [hpc] at hf
      exact fun i hi => (hf i hi).trans (Nat.le_succ _)
  | _ =>
      rw [hpc] at hf
      exact hf

/-- At the check, either nothing is new, or it will be sent, or the loop waits for its own
old snapshot. -/
theorem flushed_poll (hs : Sound (InStorage s) s) (hpc : s.pc = .poll) (overdue : Bool) :
    Flushed c.ownInstanceID (s.poll c overdue) s.commits := by
  have hcov := hs.synced
  rw [Synced, hpc] at hcov
  unfold State.poll
  split
  · split
    case isTrue hown => exact fun hno => absurd hown hno
    case isFalse =>
      split
      case isTrue => exact fun i hi => (hs.numbered i hi).2
      case isFalse hempty =>
        intro _ i hi
        have hi' := hs.numbered i hi
        simp only [Bool.or_eq_true, decide_eq_true_eq, not_or] at hempty
        omega
  · rename_i hsame
    simp only [Bool.or_eq_true, decide_eq_true_eq, not_or, not_lt] at hsame
    exact fun _ i hi => hcov i hi ((hs.numbered i hi).2.trans hsame.1)

/-- One step brings them further. -/
theorem flushed_step (hc : c.receiveOnly = false) (h : Step m c s e s')
    (hs : Sound (InStorage s) s) (hf : Flushed c.ownInstanceID s polled) :
    Flushed c.ownInstanceID s' (polledAfter s s' polled) := by
  cases h with
  | @commit d _ =>
      rw [polledAfter_of_eq (show (s.commit d).pc = s.pc from rfl)]
      exact flushed_commit d hf
  | info hpc =>
      rw [polledAfter_of_ne (by rw [hpc]; nofun)]
      rw [Flushed, hpc] at hf
      exact hf
  | listed _ _ hpc =>
      rw [polledAfter_of_ne (by rw [hpc]; nofun)]
      rw [Flushed, hpc] at hf
      exact hf
  | startup t hpc =>
      rw [polledAfter_of_ne (by rw [hpc]; nofun)]
      rw [Flushed, hpc] at hf
      rw [show polled = [] from hf]
      exact flushed_nil _ _
  | load t u hpc =>
      rcases loadTxn_cases m s t u with h | ⟨d, b, n, w, -, h⟩
      · rw [h]
        trivial
      · rw [h]
        trivial
  | @loadInfo u t lc hpc =>
      unfold Flushed State.loadInfo
      cases lc && decide (maxConsecutiveSnapshotLoads < s.nLoads) with
      | true => trivial
      | false => trivial
  | poll overdue hpc _ =>
      rw [polledAfter_poll hpc]
      · exact flushed_poll hs hpc overdue
      · rcases poll_cases c s overdue with h | h | ⟨-, h⟩ <;> rw [h] <;> nofun
  | send t hpc =>
      rw [polledAfter_of_ne (by rw [hpc]; nofun)]
      rw [Flushed, hpc] at hf
      rcases sendTxn_cases m c s t with h | ⟨-, d, b, snap, -, h⟩ | ⟨-, d, b, snap, -, h⟩
      · rw [h]
        trivial
      · rw [h]
        exact hf
      · rw [h]
        exact hf
  | @sendInfo t q snap hpc =>
      rw [polledAfter_of_ne (by rw [hpc]; nofun)]
      rw [Flushed, hpc] at hf
      unfold State.sendInfo
      rw [hc]
      exact hf
  | @store t q snap hpc =>
      rw [polledAfter_of_ne (by rw [hpc]; nofun)]
      rw [Flushed, hpc] at hf
      unfold Flushed State.store State.resume
      cases s.inLoop with
      | true => exact fun _ i hi => ⟨⟨q, snap⟩, List.mem_cons_self, hf i hi⟩
      | false => trivial
  | _ => trivial

end Flushed

theorem Quiet.outsideWindow {x y : Pass σ υ ν} {m : Mode σ υ ν} {c : Config} {e : Event σ υ}
    (hq : Quiet x y) (h : Step m c x.system.loop e y.system.loop) :
    OutsideWindow x.system.loop e := by
  intro d hd hw
  have hsame := hq hw
  rcases h.keeps with ⟨d', -, hcommit⟩ | hk
  · rw [hcommit] at hsame
    exact absurd hsame (List.cons_ne_self _ _)
  · subst hd
    generalize y.system.loop = s' at h hk
    cases h with
    | commit _ => exact absurd hk.commits (List.cons_ne_self _ _)

theorem PassRun.flushed {nm : Naming} {m : Mode σ υ ν} {c : Config} (hc : c.receiveOnly = false)
    {x y : Pass σ υ ν} (hr : PassRun nm m c Quiet x y) (hs : PassStart c x) :
    Sound (InStorage y.system.loop) y.system.loop ∧
      Flushed c.ownInstanceID y.system.loop y.polled := by
  induction hr with
  | refl =>
      refine ⟨hs.system.loop.sound, ?_⟩
      rw [hs.polled]
      exact flushed_nil _ _
  | tail _ hstep ih =>
      obtain ⟨⟨h⟩, hq⟩ := hstep
      obtain ⟨hsound, hf⟩ := ih
      rcases loop_step h with heq | ⟨e, hstep⟩
      · simp only [heq, polledAfter_of_eq]
        exact ⟨hsound, hf⟩
      · refine ⟨?_, flushed_step hc hstep hsound hf⟩
        exact hstep.sound (hq.outsideWindow hstep) (fun _ => hstep.inStorage)
          (fun t q snap _ heq i _ hle => by
            rw [heq]
            exact ⟨_, List.mem_cons_self, hle⟩)
          (fun hro => by simp [hc] at hro) hsound

/-- **A single pass is complete.** Where `OnlyOnce` lets the loop return, every instance of
the initial listing is loaded or gone, and every commit of the application that was there
at the check is in a version of the environment that a stored snapshot was read from. -/
theorem single_pass_complete (nm : Naming) (m : Mode σ υ ν) (c : Config)
    (hc : c.receiveOnly = false) {x y : Pass σ υ ν} (hs : PassStart c x)
    (hr : PassRun nm m c Quiet x y) (hpc : y.system.loop.pc = .pause)
    (hdone : y.system.loop.waitingForInstances = ∅) :
    InstancesDone y.system ∧ ∀ i ∈ y.polled, ∃ st ∈ y.system.loop.stored, i ≤ st.seen ∧
      ReadFrom m c y.system.loop.env st.seen st.snapshot := by
  have hw : OwnData.waits y.system.loop.pc = true := by
    rw [hpc]
    rfl
  have hrun := hr.system
  constructor
  · have hg := OwnData.SystemRun.guarded hrun hs.system
    refine instancesDone_of_free (List.ne_nil_of_mem (hg.shown hw)) fun inst => ?_
    have ha := accounted_run hrun hs.system hw inst
    rw [hdone] at ha
    exact ha.resolve_left (Finset.notMem_empty _)
  · have hf := (hr.flushed hc hs).2
    rw [Flushed, hpc, hdone] at hf
    exact fun i hi => (hr.genuine hs).read (hf (Finset.notMem_empty _) i hi)

theorem single_pass_complete_one :
    InstancesDone (⟨onePass, emptyStorage defaultNaming, [[]], []⟩ :
      System Lmdb.Contents (Message Empty) (Message Empty)) ∧
      ∀ i ∈ [1], ∃ st ∈ onePass.stored, i ≤ st.seen ∧
        ReadFrom (native (η := Empty) plainOptions) plainConfig onePass.env st.seen st.snapshot :=
  single_pass_complete defaultNaming (native plainOptions) plainConfig rfl
    ⟨⟨fresh_start, rfl, rfl⟩, rfl, rfl⟩ (run_onePass defaultNaming) rfl rfl

/-! ## Local changes are not put off -/

section Loads

/-- The number of snapshots among the updates loaded in a step. -/
def loadsIn : Event σ υ → ℕ
  | .load _ u => if u.isSnapshot then 1 else 0
  | _ => 0

theorem loadsIn_le_one (e : Event σ υ) : loadsIn e ≤ 1 := by
  cases e with
  | load t u => exact ite_le_one le_rfl zero_le_one
  | _ => exact zero_le_one

/-- Where the loop is from its first load to the check for a local change. -/
def Loading : Pc υ ν → Prop
  | .ready => True
  | .loaded _ _ _ => True
  | .cleaning => True
  | .poll => True
  | _ => False

/-- A run from `loadReadySnapshotsLoop` to the check at most, and the number of snapshots it
loads. -/
inductive LoadRun (m : Mode σ υ ν) (c : Config) : State σ υ ν → ℕ → State σ υ ν → Prop
  | refl {s} : LoadRun m c s 0 s
  | tail {s n s' e s''} : LoadRun m c s n s' → Step m c s' e s'' → Loading s''.pc →
      LoadRun m c s (n + loadsIn e) s''

variable {m : Mode σ υ ν} {c : Config} {s s' : State σ υ ν} {n : ℕ}

/-- A local change is still to be sent, and so many snapshots were loaded since. -/
structure PutOff (s : State σ υ ν) (n : ℕ) : Prop where
  pending : s.lastSynced < s.env.last
  loads : n ≤ s.nLoads
  at_loop : (s.pc = .ready ∧ n ≤ maxConsecutiveSnapshotLoads) ∨
    ((∃ u txnID, s.pc = .loaded u txnID true) ∨ s.pc = .cleaning ∨ s.pc = .poll) ∧
      n ≤ maxConsecutiveSnapshotLoads + 1

theorem PutOff.bounded (h : PutOff s n) : n ≤ maxConsecutiveSnapshotLoads + 1 := by
  rcases h.at_loop with ⟨-, hn⟩ | ⟨-, hn⟩
  · exact hn.trans (Nat.le_succ _)
  · exact hn

theorem PutOff.load (h : PutOff s n) {t : Moment} {u : Update υ} (hpc : s.pc = .ready)
    (hpc' : Loading (s.loadTxn m t u).pc) :
    PutOff (s.loadTxn m t u) (n + loadsIn (.load t u : Event σ υ)) := by
  have hn : n ≤ maxConsecutiveSnapshotLoads := by
    rcases h.at_loop with ⟨-, hn⟩ | ⟨hpc', -⟩
    · exact hn
    · simp [hpc] at hpc'
  -- the write transaction sees the commit that is pending
  have hlc : s.localChanged (s.env.last + 1) = true := by
    have hpending := h.pending
    simpa [State.localChanged] using hpending
  unfold State.loadTxn at hpc' ⊢
  simp only [hlc] at hpc' ⊢
  cases htxn : m.loadTxn true t (s.env.last + 1) u.snapshot s.env.current with
  | none => simp [htxn, State.stop, Loading] at hpc'
  | some r =>
      have hlast : s.env.last ≤ (s.env.finish r.1 r.2).last := Versioned.last_le_finish r.2
      refine ⟨h.pending.trans_le hlast, ?_, Or.inr ⟨Or.inl ⟨u, s.env.last + 1, rfl⟩, ?_⟩⟩
      · have hloads := h.loads
        cases hsnap : u.isSnapshot with
        | true => simpa [loadsIn, hsnap] using hloads
        | false => simpa [loadsIn, hsnap] using hloads
      · exact Nat.add_le_add hn (loadsIn_le_one _)

/-- One step, unless it leads past the check. -/
theorem PutOff.step {e : Event σ υ} (h : PutOff s n) (hstep : Step m c s e s')
    (hpc' : Loading s'.pc) : PutOff s' (n + loadsIn e) := by
  cases hstep with
  | commit _ => exact ⟨h.pending.trans (Nat.lt_succ_self _), h.loads, h.at_loop⟩
  | load t u hpc => exact h.load hpc hpc'
  | @loadInfo u txnID lc hpc =>
      obtain rfl : lc = true := by
        rcases h.at_loop with ⟨hready, -⟩ | ⟨⟨u', txnID', hloaded⟩ | hlate | hlate, -⟩
        · simp [hpc] at hready
        · simp only [hpc, Pc.loaded.injEq] at hloaded
          exact hloaded.2.2
        · simp [hpc] at hlate
        · simp [hpc] at hlate
      refine ⟨h.pending, h.loads, ?_⟩
      by_cases hmany : maxConsecutiveSnapshotLoads < s.nLoads
      · exact Or.inr ⟨Or.inr (Or.inl (by simp [State.loadInfo, hmany])), h.bounded⟩
      · exact Or.inl ⟨by simp [State.loadInfo, hmany], h.loads.trans (not_lt.mp hmany)⟩
  | idle _ => exact ⟨h.pending, h.loads, Or.inr ⟨Or.inr (Or.inl rfl), h.bounded⟩⟩
  | clean seen _ => exact ⟨h.pending, h.loads, Or.inr ⟨Or.inr (Or.inr rfl), h.bounded⟩⟩
  | poll overdue _ _ =>
      rcases poll_cases c s overdue with heq | heq | ⟨-, heq⟩ <;> rw [heq] at hpc' <;> cases hpc'
  | fail => cases hpc'
  | _ =>
      rcases h.at_loop with ⟨hready, -⟩ | ⟨⟨u', txnID', hloaded⟩ | hlate | hlate, -⟩ <;> simp_all

theorem LoadRun.putOff (hr : LoadRun m c s n s') (hpc : s.pc = .ready)
    (hlocal : s.lastSynced < s.env.last) : PutOff s' n := by
  induction hr with
  | refl => exact ⟨hlocal, Nat.zero_le _, Or.inl ⟨hpc, Nat.zero_le _⟩⟩
  | tail _ hstep hpc' ih => exact ih.step hstep hpc'

/-- The check finds the change. -/
theorem PutOff.poll (h : PutOff s n) (hown : c.ownInstanceID ∉ s.waitingForInstances)
    (overdue : Bool) : (s.poll c overdue).pc = .send := by
  have hpos : 0 < s.env.last := Nat.zero_lt_of_lt h.pending
  simp [State.poll, h.pending, hown, hpos]

end Loads

/-- **A local change is not starved.** If there is one when the loop is about to load, at
most `MaxConsecutiveSnapshotLoads` snapshots and one more are loaded up to the next check.
The loop leaves that check, if it does not fail, only to send, unless it waits for its own
old snapshot. -/
theorem local_change_not_starved (m : Mode σ υ ν) (c : Config) {s s' : State σ υ ν} {n : ℕ}
    (hr : LoadRun m c s n s') (hpc : s.pc = .ready) (hlocal : s.lastSynced < s.env.last) :
    n ≤ maxConsecutiveSnapshotLoads + 1 ∧
      (s'.pc = .poll → c.ownInstanceID ∉ s'.waitingForInstances → ∀ e s'', Step m c s' e s'' →
        s''.pc = .send ∨ s''.pc = .stopped ∨ ∃ d, s'' = s'.commit d) := by
  have h := hr.putOff hpc hlocal
  refine ⟨h.bounded, fun hpoll hown e s'' hstep => ?_⟩
  cases hstep with
  | @commit d _ => exact Or.inr (Or.inr ⟨d, rfl⟩)
  | poll overdue _ _ => exact Or.inl (h.poll hown overdue)
  | fail => exact Or.inr (Or.inl rfl)
  | _ => simp_all

/-- The application commits, and an update is loaded after it. -/
def loadedFirst : State Lmdb.Contents (Message Empty) (Message Empty) :=
  (((started.commit oneDbi).loadTxn (native plainOptions) noon emptyUpdate).loadInfo emptyUpdate 2
    true).idle.clean ∅

theorem run_loadedFirst :
    LoadRun (native plainOptions) plainConfig (started.commit oneDbi) 1 loadedFirst := by
  have hload : LoadRun (native plainOptions) plainConfig (started.commit oneDbi) 1
      ((started.commit oneDbi).loadTxn (native plainOptions) noon emptyUpdate) :=
    LoadRun.refl.tail (Step.load noon emptyUpdate rfl) trivial
  exact ((hload.tail (Step.loadInfo rfl) trivial).tail (Step.idle rfl) trivial).tail
    (Step.clean ∅ rfl) trivial

theorem local_change_not_starved_one :
    1 ≤ maxConsecutiveSnapshotLoads + 1 ∧
      ∀ e s'', Step (native plainOptions) plainConfig loadedFirst e s'' →
        s''.pc = .send ∨ s''.pc = .stopped ∨ ∃ d, s'' = loadedFirst.commit d := by
  obtain ⟨hn, hsend⟩ := local_change_not_starved (native plainOptions) plainConfig run_loadedFirst
    rfl (by decide)
  exact ⟨hn, hsend rfl (by decide)⟩

end LightningStream.Syncer.Passes
