import LightningStream.Base.Runs
import LightningStream.Base.Versioned
import LightningStream.Header
import LightningStream.Snapshot.Name

/-!
# The sync loop

`syncLoop` as a machine that shares an LMDB environment with an application.
Each step is one thing the loop does without the application being able to
commit in between: a transaction, or a read of `env.Info`. Between any two
steps the application may commit.

What the transactions do to the data is left to a `Mode`. This file is about
the transaction IDs: which commits the loop believes to have sent, and which
it has. Hooks are left out, and so is the sweeper.
-/

namespace LightningStream.Syncer.Loop

open Snapshot

/-- `MaxConsecutiveSnapshotLoads`. -/
def maxConsecutiveSnapshotLoads : ℕ := 10

/-- An update the receiver has ready. -/
structure Update (υ : Type) where
  instanceID : Bytes
  /-- Its kind is `KindSnapshot`. -/
  isSnapshot : Bool
  timestamp : Time
  snapshot : υ
deriving DecidableEq

structure Config where
  ownInstanceID : Bytes
  receiveOnly : Bool
  /-- `StorageForceSnapshotInterval > 0`. -/
  forceInterval : Bool
  onlyOnce : Bool

/-- What a transaction meets: the clock, the cutoff for stale deletions, and
whether it also writes to DBIs that the data of the mode leaves out. -/
structure Moment where
  now : Timestamp
  deletedCutoff : Timestamp
  elsewhere : Bool

/-- What the transactions of the loop do. They return the new data and whether
anything was written, or `none` when they fail. -/
structure Mode (σ υ ν : Type) where
  schemaTracksChanges : Bool
  /-- What the application may commit. -/
  app : σ → σ → Prop
  /-- The copy to the shadow at startup. -/
  startTxn : Moment → ℕ → σ → Option (σ × Bool)
  /-- The first argument tells whether there was a local change. -/
  loadTxn : Bool → Moment → ℕ → υ → σ → Option (σ × Bool)
  /-- The first argument is `ReceiveOnly`. -/
  sendTxn : Bool → Moment → ℕ → σ → Option (σ × Bool × ν)

/-- Where the loop is. -/
inductive Pc (υ ν : Type)
  | begin
  | listing
  | startup (hasSnapshots : Bool)
  /-- About to ask the receiver for an update. -/
  | ready
  /-- `LoadOnce` after its transaction, before it reads `env.Info`. -/
  | loaded (update : Update υ) (txnID : ℕ) (localChanged : Bool)
  | cleaning
  /-- About to compare `info.LastTxnID` with `lastSyncedTxnID`. -/
  | poll
  | send
  /-- `SendOnce` after its transaction, before it reads `env.Info`. The
  transaction saw all versions up to `seen`. -/
  | dumped (txnID seen : ℕ) (snapshot : ν)
  | storing (txnID seen : ℕ) (snapshot : ν)
  | pause
  | stopped
deriving DecidableEq

/-- A snapshot in storage, with the last version it was read from. -/
structure Stored (ν : Type) where
  seen : ℕ
  snapshot : ν

structure State (σ υ ν : Type) where
  env : Versioned σ
  pc : Pc υ ν
  lastSynced : ℕ
  hasDataAtStart : Bool
  waitingForInstances : Finset Bytes
  nLoads : ℕ
  inLoop : Bool
  lastByInstance : Bytes → Option Time
  /-- What the cleaner was told by `SetCommitted`. -/
  committed : Bytes → Option Time
  stored : List (Stored ν)
  /-- The transaction IDs of the application's commits. -/
  commits : List ℕ

variable {σ υ ν : Type}

/-- The ID of a transaction, after it was found not to be recorded. -/
def adjusted (txnID lastTxnID : ℕ) : ℕ := if lastTxnID < txnID then lastTxnID else txnID

theorem adjusted_le (t l : ℕ) : adjusted t l ≤ t ∧ adjusted t l ≤ l := by
  unfold adjusted
  split <;> omega

namespace State

variable (m : Mode σ υ ν) (c : Config) (s : State σ υ ν)

def commit (d : σ) : State σ υ ν :=
  { s with env := s.env.commit d, commits := (s.env.last + 1) :: s.commits }

def stop : State σ υ ν := { s with pc := .stopped }

/-- Go on after `SendOnce`, or into the loop for the first time. -/
def resume : State σ υ ν :=
  { s with pc := if s.inLoop then .pause else .ready, inLoop := true }

def info : State σ υ ν :=
  { s with pc := .listing, hasDataAtStart := decide (0 < s.env.last) }

/-- The initial listing by the receiver. -/
def listed (hasSnapshots : Bool) (seen : Finset Bytes) : State σ υ ν :=
  { s with pc := .startup hasSnapshots, waitingForInstances := seen }

/-- Go on to an initial snapshot, if there is data and no snapshot exists yet. -/
def afterStartup (hasSnapshots : Bool) : State σ υ ν :=
  if s.hasDataAtStart && !hasSnapshots then { s with pc := .send } else s.resume

def startup (t : Moment) (hasSnapshots : Bool) : State σ υ ν :=
  if s.hasDataAtStart && !m.schemaTracksChanges then
    match m.startTxn t (s.env.last + 1) s.env.current with
    | none => s.stop
    | some (d, dirty) => { s with env := s.env.finish d dirty }.afterStartup hasSnapshots
  else s.afterStartup hasSnapshots

/-- Was there a local change, seen from the write transaction with this ID? -/
def localChanged (txnID : ℕ) : Bool := decide (s.lastSynced < txnID - 1)

/-- `LoadOnce` up to the end of its transaction. -/
def loadTxn (t : Moment) (u : Update υ) : State σ υ ν :=
  let txnID := s.env.last + 1
  let localChanged := s.localChanged txnID
  match m.loadTxn localChanged t txnID u.snapshot s.env.current with
  | none => s.stop
  | some (d, dirty) =>
      { s with
        env := s.env.finish d dirty
        pc := .loaded u txnID localChanged
        nLoads := if u.isSnapshot then s.nLoads + 1 else s.nLoads
        waitingForInstances := if u.isSnapshot then s.waitingForInstances.erase u.instanceID
          else s.waitingForInstances }

/-- The end of `LoadOnce`, and what the loop makes of its results. -/
def loadInfo (u : Update υ) (txnID : ℕ) (localChanged : Bool) : State σ υ ν :=
  { s with
    lastByInstance := Function.update s.lastByInstance u.instanceID (some u.timestamp)
    lastSynced := if localChanged then s.lastSynced else adjusted txnID s.env.last
    pc := if localChanged && decide (maxConsecutiveSnapshotLoads < s.nLoads) then .cleaning
      else .ready }

/-- No update is ready. -/
def idle : State σ υ ν := { s with pc := .cleaning }

/-- `CleanDisappeared` with the instances the receiver knows. -/
def clean (seen : Finset Bytes) : State σ υ ν :=
  { s with pc := .poll, waitingForInstances := s.waitingForInstances ∩ seen }

def poll (snapshotOverdue : Bool) : State σ υ ν :=
  if s.lastSynced < s.env.last || snapshotOverdue then
    if c.ownInstanceID ∈ s.waitingForInstances then { s with pc := .pause }
    else if s.hasDataAtStart || decide (0 < s.env.last) then
      { s with lastSynced := s.env.last, pc := .send }
    else { s with lastSynced := s.env.last, pc := .pause }
  else { s with pc := .pause }

/-- `SendOnce` up to the end of its transaction, which only reads when the
schema tracks changes. -/
def sendTxn (t : Moment) : State σ υ ν :=
  let txnID := if m.schemaTracksChanges then s.env.last else s.env.last + 1
  match m.sendTxn c.receiveOnly t txnID s.env.current with
  | none => s.stop
  | some (d, dirty, snap) =>
      { s with
        env := if m.schemaTracksChanges then s.env else s.env.finish d dirty
        pc := .dumped txnID s.env.last snap }

def sendInfo (txnID seen : ℕ) (snap : ν) : State σ υ ν :=
  if c.receiveOnly then { s with lastSynced := adjusted txnID s.env.last }.resume
  else { s with pc := .storing (adjusted txnID s.env.last) seen snap }

/-- The storage has accepted the snapshot. -/
def store (txnID seen : ℕ) (snap : ν) : State σ υ ν :=
  { s with
    stored := ⟨seen, snap⟩ :: s.stored
    committed := s.lastByInstance
    lastSynced := txnID }.resume

def sleep : State σ υ ν := { s with pc := .ready, nLoads := 0 }

end State

/-- The steps that a history of the data has to know about. -/
inductive Event (σ υ : Type)
  | commit (data : σ)
  | start (t : Moment)
  | load (t : Moment) (update : Update υ)
  | send (t : Moment)
  | other

/-- One step of the loop or of the application. Listings, updates, the clock and
the success of the storage are up to the outside. A store that fails is tried
again, which changes nothing here, or given up. -/
inductive Step (m : Mode σ υ ν) (c : Config) :
    State σ υ ν → Event σ υ → State σ υ ν → Prop
  | commit {s d} : m.app s.env.current d → Step m c s (.commit d) (s.commit d)
  | info {s} : s.pc = .begin → Step m c s .other s.info
  | listed {s} (hasSnapshots seen) : s.pc = .listing →
      Step m c s .other (s.listed hasSnapshots seen)
  | startup {s hasSnapshots} (t) : s.pc = .startup hasSnapshots →
      Step m c s (.start t) (s.startup m t hasSnapshots)
  | load {s} (t u) : s.pc = .ready → Step m c s (.load t u) (s.loadTxn m t u)
  | loadInfo {s u txnID localChanged} : s.pc = .loaded u txnID localChanged →
      Step m c s .other (s.loadInfo u txnID localChanged)
  | idle {s} : s.pc = .ready → Step m c s .other s.idle
  | clean {s} (seen) : s.pc = .cleaning → Step m c s .other (s.clean seen)
  | poll {s} (overdue : Bool) : s.pc = .poll →
      (overdue = true → c.receiveOnly = false ∧ c.forceInterval = true) →
      Step m c s .other (s.poll c overdue)
  | send {s} (t) : s.pc = .send → Step m c s (.send t) (s.sendTxn m c t)
  | sendInfo {s txnID seen snap} : s.pc = .dumped txnID seen snap →
      Step m c s .other (s.sendInfo c txnID seen snap)
  | store {s txnID seen snap} : s.pc = .storing txnID seen snap →
      Step m c s .other (s.store txnID seen snap)
  | sleep {s} : s.pc = .pause → Step m c s .other s.sleep
  | done {s} : s.pc = .pause → c.onlyOnce = true → s.waitingForInstances = ∅ →
      Step m c s .other s.stop
  | fail {s} : Step m c s .other s.stop

/-- The loop before its first step, on any environment. -/
structure Start (s : State σ υ ν) : Prop where
  pc : s.pc = .begin
  lastSynced : s.lastSynced = 0
  inLoop : s.inLoop = false
  stored : s.stored = []
  commits : ∀ i ∈ s.commits, 1 ≤ i ∧ i ≤ s.env.last

/-- The runs all of whose steps meet a condition. -/
def Run (m : Mode σ υ ν) (c : Config) (P : State σ υ ν → Event σ υ → Prop) :
    State σ υ ν → State σ υ ν → Prop :=
  Relation.ReflTransGen fun s s' => ∃ e, Step m c s e s' ∧ P s e

/-- What holds at the start and survives every step holds along the run. -/
theorem Run.invariant {m : Mode σ υ ν} {c : Config} {P : State σ υ ν → Event σ υ → Prop}
    {I : State σ υ ν → Prop} (hstep : ∀ {s e s'}, Step m c s e s' → P s e → I s → I s')
    {s s' : State σ υ ν} (hr : Run m c P s s') (hs : I s) : I s' := by
  have hruns : RunsUnder (Step m c) P s s' := hr
  exact hruns.invariant hstep hs

/-! ## What the steps with a transaction do -/

section Cases

variable (m : Mode σ υ ν) (c : Config) (s : State σ υ ν)

/-- The startup either skips its transaction, fails, or copies to the shadow. -/
theorem startup_cases (t : Moment) (hasSnapshots : Bool) :
    (¬ (s.hasDataAtStart = true ∧ m.schemaTracksChanges = false) ∧
      s.startup m t hasSnapshots = s.afterStartup hasSnapshots) ∨
    s.startup m t hasSnapshots = s.stop ∨
    (s.hasDataAtStart = true ∧ ∃ d dirty,
      m.startTxn t (s.env.last + 1) s.env.current = some (d, dirty) ∧
      s.startup m t hasSnapshots =
        State.afterStartup { s with env := s.env.finish d dirty } hasSnapshots) := by
  unfold State.startup
  split
  · rename_i hrun
    right
    cases htxn : m.startTxn t (s.env.last + 1) s.env.current with
    | none => exact Or.inl rfl
    | some r => exact Or.inr ⟨(Bool.and_eq_true _ _ ▸ hrun).1, r.1, r.2, rfl, rfl⟩
  · rename_i hskip
    exact Or.inl ⟨by simpa using hskip, rfl⟩

theorem afterStartup_cases (hasSnapshots : Bool) :
    s.afterStartup hasSnapshots = { s with pc := .send } ∨
      s.afterStartup hasSnapshots = s.resume := by
  unfold State.afterStartup
  split
  · exact Or.inl rfl
  · exact Or.inr rfl

theorem loadTxn_cases (t : Moment) (u : Update υ) :
    s.loadTxn m t u = s.stop ∨
    ∃ d dirty n w, m.loadTxn (s.localChanged (s.env.last + 1)) t (s.env.last + 1) u.snapshot
        s.env.current = some (d, dirty) ∧
      s.loadTxn m t u =
        { s with
          env := s.env.finish d dirty
          pc := .loaded u (s.env.last + 1) (s.localChanged (s.env.last + 1))
          nLoads := n
          waitingForInstances := w } := by
  unfold State.loadTxn
  simp only
  cases htxn : m.loadTxn (s.localChanged (s.env.last + 1)) t (s.env.last + 1) u.snapshot
      s.env.current with
  | none => exact Or.inl rfl
  | some r => exact Or.inr ⟨r.1, r.2, _, _, rfl, rfl⟩

theorem poll_cases (overdue : Bool) :
    s.poll c overdue = { s with pc := .pause } ∨
    s.poll c overdue = { s with lastSynced := s.env.last, pc := .send } ∨
    (s.env.last = 0 ∧ s.poll c overdue = { s with lastSynced := s.env.last, pc := .pause }) := by
  unfold State.poll
  split
  · split
    · exact Or.inl rfl
    · split
      · exact Or.inr (Or.inl rfl)
      · rename_i hempty
        refine Or.inr (Or.inr ⟨?_, rfl⟩)
        simp only [Bool.or_eq_true, decide_eq_true_eq, not_or, not_lt, Nat.le_zero] at hempty
        exact hempty.2
  · exact Or.inl rfl

/-- `SendOnce` reads under the last ID, or writes under the next one. -/
theorem sendTxn_cases (t : Moment) :
    s.sendTxn m c t = s.stop ∨
    (m.schemaTracksChanges = true ∧ ∃ d dirty snap,
      m.sendTxn c.receiveOnly t s.env.last s.env.current = some (d, dirty, snap) ∧
      s.sendTxn m c t = { s with pc := .dumped s.env.last s.env.last snap }) ∨
    (m.schemaTracksChanges = false ∧ ∃ d dirty snap,
      m.sendTxn c.receiveOnly t (s.env.last + 1) s.env.current = some (d, dirty, snap) ∧
      s.sendTxn m c t =
        { s with
          env := s.env.finish d dirty
          pc := .dumped (s.env.last + 1) s.env.last snap }) := by
  unfold State.sendTxn
  simp only
  cases hmode : m.schemaTracksChanges with
  | true =>
      simp only [if_true]
      cases htxn : m.sendTxn c.receiveOnly t s.env.last s.env.current with
      | none => exact Or.inl rfl
      | some r => exact Or.inr (Or.inl ⟨trivial, r.1, r.2.1, r.2.2, rfl, rfl⟩)
  | false =>
      simp only [Bool.false_eq_true, if_false]
      cases htxn : m.sendTxn c.receiveOnly t (s.env.last + 1) s.env.current with
      | none => exact Or.inl rfl
      | some r => exact Or.inr (Or.inr ⟨trivial, r.1, r.2.1, r.2.2, rfl, rfl⟩)

end Cases

/-! ## Which commits the loop has sent

A write transaction that changes nothing gives its ID back. Until the loop has
looked at `env.Info`, it takes that ID for its own, although the next commit of
the application will get it. -/

/-- A transaction of the loop has ended unrecorded, and the loop does not know
it yet. -/
def Window (s : State σ υ ν) : Prop :=
  match s.pc with
  | .loaded _ txnID false => s.env.last < txnID
  | .dumped txnID _ _ => s.env.last < txnID
  | _ => False

/-- The application does not commit now, unless outside the window. -/
def OutsideWindow (s : State σ υ ν) (e : Event σ υ) : Prop :=
  ∀ d, e = .commit d → ¬ Window s

/-- All commits up to an ID are done with. What that means is up to the mode:
being in a stored snapshot, or in the shadow. -/
def Covered (D : ℕ → Prop) (s : State σ υ ν) (n : ℕ) : Prop :=
  ∀ i ∈ s.commits, i ≤ n → D i

/-- What the loop may rely on, at every point. -/
def Synced (D : ℕ → Prop) (s : State σ υ ν) : Prop :=
  match s.pc with
  | .loaded _ txnID localChanged => Covered D s s.lastSynced ∧
      (localChanged = false → txnID ≤ s.env.last + 1 ∧
        ∀ i ∈ s.commits, i ≤ txnID → i ≤ s.lastSynced)
  | .send => True
  | .dumped txnID seen _ => txnID ≤ s.env.last + 1 ∧ ∀ i ∈ s.commits, i ≤ txnID → i ≤ seen
  | .storing txnID seen _ => txnID ≤ s.env.last ∧ ∀ i ∈ s.commits, i ≤ txnID → i ≤ seen
  | .stopped => True
  | _ => Covered D s s.lastSynced

/-- The IDs of the commits are IDs that LMDB has given out. -/
def Numbered (s : State σ υ ν) : Prop := ∀ i ∈ s.commits, 1 ≤ i ∧ i ≤ s.env.last

theorem covered_commit {D D' : ℕ → Prop} (hmono : ∀ i, D i → D' i) {s : State σ υ ν} {d : σ}
    {n : ℕ} (h : Covered D s n) (hn : n ≤ s.env.last) : Covered D' (s.commit d) n := by
  intro i hi hin
  rcases List.mem_cons.mp hi with rfl | hi
  · exact absurd hin (by omega)
  · exact hmono i (h i hi hin)

/-- Without a commit of the application, the list of them stays and the last
ID does not go back. -/
structure Keeps (s s' : State σ υ ν) : Prop where
  commits : s'.commits = s.commits
  last : s.env.last ≤ s'.env.last

theorem keeps_afterStartup (s : State σ υ ν) (b : Bool) : Keeps s (s.afterStartup b) := by
  rcases afterStartup_cases s b with h | h
  · rw [h]
    exact ⟨rfl, le_rfl⟩
  · rw [h]
    exact ⟨rfl, le_rfl⟩

theorem afterStartup_stored (s : State σ υ ν) (b : Bool) :
    (s.afterStartup b).stored = s.stored := by
  rcases afterStartup_cases s b with h | h
  · rw [h]
  · rw [h]
    rfl

/-- Only the application's own commits add to the list of them. -/
theorem Step.keeps {m : Mode σ υ ν} {c : Config} {s s' : State σ υ ν} {e : Event σ υ}
    (h : Step m c s e s') : (∃ d, e = .commit d ∧ s' = s.commit d) ∨ Keeps s s' := by
  cases h with
  | commit _ => exact Or.inl ⟨_, rfl, rfl⟩
  | @startup hs t _ =>
      right
      rcases startup_cases m s t hs with ⟨-, h⟩ | h | ⟨-, d, b, -, h⟩
      · rw [h]
        exact keeps_afterStartup s hs
      · rw [h]
        exact ⟨rfl, le_rfl⟩
      · rw [h]
        have hk := keeps_afterStartup { s with env := s.env.finish d b } hs
        exact ⟨hk.commits, (Versioned.last_le_finish b).trans hk.last⟩
  | load t u _ =>
      right
      rcases loadTxn_cases m s t u with h | ⟨d, b, n, w, -, h⟩
      · rw [h]
        exact ⟨rfl, le_rfl⟩
      · rw [h]
        exact ⟨rfl, Versioned.last_le_finish b⟩
  | poll overdue _ _ =>
      right
      rcases poll_cases c s overdue with h | h | ⟨-, h⟩
      all_goals
        rw [h]
        exact ⟨rfl, le_rfl⟩
  | send t _ =>
      right
      rcases sendTxn_cases m c s t with h | ⟨-, d, b, snap, -, h⟩ | ⟨-, d, b, snap, -, h⟩
      · rw [h]
        exact ⟨rfl, le_rfl⟩
      · rw [h]
        exact ⟨rfl, le_rfl⟩
      · rw [h]
        exact ⟨rfl, Versioned.last_le_finish b⟩
  | sendInfo _ =>
      right
      unfold State.sendInfo
      split
      · exact ⟨rfl, le_rfl⟩
      · exact ⟨rfl, le_rfl⟩
  | _ => exact Or.inr ⟨rfl, le_rfl⟩

theorem loadTxn_stored (m : Mode σ υ ν) (s : State σ υ ν) (t : Moment) (u : Update υ) :
    (s.loadTxn m t u).stored = s.stored := by
  rcases loadTxn_cases m s t u with h | ⟨d, b, n, w, -, h⟩
  · rw [h]
    rfl
  · rw [h]

/-- Only the end of `SendOnce` adds to the storage. -/
theorem Step.stored {m : Mode σ υ ν} {c : Config} {s s' : State σ υ ν} {e : Event σ υ}
    (h : Step m c s e s') : s'.stored = s.stored ∨
      ∃ txnID seen snap, s.pc = .storing txnID seen snap ∧ s' = s.store txnID seen snap := by
  cases h with
  | @startup hs t _ =>
      left
      rcases startup_cases m s t hs with ⟨-, h⟩ | h | ⟨-, d, b, -, h⟩
      · rw [h, afterStartup_stored]
      · rw [h]
        rfl
      · rw [h, afterStartup_stored]
  | load t u _ => exact Or.inl (loadTxn_stored m s t u)
  | poll overdue _ _ =>
      left
      rcases poll_cases c s overdue with h | h | ⟨-, h⟩ <;> rw [h]
  | send t _ =>
      left
      rcases sendTxn_cases m c s t with h | ⟨-, d, b, snap, -, h⟩ | ⟨-, d, b, snap, -, h⟩
      · rw [h]
        rfl
      · rw [h]
      · rw [h]
  | sendInfo _ =>
      left
      unfold State.sendInfo
      split <;> rfl
  | store hpc => exact Or.inr ⟨_, _, _, hpc, rfl⟩
  | _ => exact Or.inl rfl

theorem Step.numbered {m : Mode σ υ ν} {c : Config} {s s' : State σ υ ν} {e : Event σ υ}
    (h : Step m c s e s') (hn : Numbered s) : Numbered s' := by
  rcases h.keeps with ⟨d, -, rfl⟩ | hk
  · intro i hi
    rcases List.mem_cons.mp hi with rfl | hi
    · exact ⟨by omega, le_rfl⟩
    · exact ⟨(hn i hi).1, (hn i hi).2.trans (Nat.le_succ _)⟩
  · intro i hi
    rw [hk.commits] at hi
    exact ⟨(hn i hi).1, (hn i hi).2.trans hk.last⟩

structure Sound (D : ℕ → Prop) (s : State σ υ ν) : Prop where
  numbered : Numbered s
  bounded : s.lastSynced ≤ s.env.last
  synced : Synced D s

section Sound

variable {D D' : ℕ → Prop} {s s' : State σ υ ν}

theorem Covered.mono {n : ℕ} (h : Covered D s n) (hmono : ∀ i, D i → D' i) :
    Covered D' s n := fun i hi hle => hmono i (h i hi hle)

theorem synced_resume (h : Covered D s s.lastSynced) : Synced D s.resume := by
  unfold State.resume
  cases s.inLoop with
  | true => exact h
  | false => exact h

theorem Sound.afterStartup (hnum : Numbered s) (hb : s.lastSynced ≤ s.env.last)
    (h : Covered D s s.lastSynced) (b : Bool) : Sound D (s.afterStartup b) := by
  rcases afterStartup_cases s b with heq | heq
  · rw [heq]
    exact ⟨hnum, hb, trivial⟩
  · rw [heq]
    exact ⟨hnum, hb, synced_resume h⟩

/-- A commit outside the window gets an ID that the loop does not hold. -/
theorem Sound.commit (h : Sound D s) (hmono : ∀ i, D i → D' i) (hw : ¬ Window s) (d : σ) :
    Synced D' (s.commit d) := by
  have hsync := h.synced
  have hnew : ∀ {t q : ℕ}, t ≤ s.env.last → (∀ i ∈ s.commits, i ≤ t → i ≤ q) →
      ∀ i ∈ (s.commit d).commits, i ≤ t → i ≤ q := by
    intro t q ht hq i hi hit
    rcases List.mem_cons.mp hi with rfl | hi
    · exact absurd hit (by omega)
    · exact hq i hi hit
  unfold Synced at hsync ⊢
  rw [show (s.commit d).pc = s.pc from rfl]
  cases hpc : s.pc with
  | loaded u t lc =>
      rw [hpc] at hsync
      refine ⟨covered_commit hmono hsync.1 h.bounded, fun hlc => ?_⟩
      obtain ⟨-, hq⟩ := hsync.2 hlc
      have ht : t ≤ s.env.last := by
        by_contra hlt
        apply hw
        rw [Window, hpc, hlc]
        exact not_le.mp hlt
      exact ⟨ht.trans (by simp [State.commit]; omega), hnew ht hq⟩
  | dumped t q snap =>
      rw [hpc] at hsync
      have ht : t ≤ s.env.last := by
        by_contra hlt
        apply hw
        rw [Window, hpc]
        exact not_le.mp hlt
      exact ⟨ht.trans (by simp [State.commit]; omega), hnew ht hsync.2⟩
  | storing t q snap =>
      rw [hpc] at hsync
      exact ⟨hsync.1.trans (Nat.le_succ _), hnew hsync.1 hsync.2⟩
  | send => trivial
  | stopped => trivial
  | _ =>
      rw [hpc] at hsync
      exact covered_commit hmono hsync h.bounded

/-- **One step keeps the books**, as long as no commit falls into the window and
the end of a `SendOnce` gets done what its transaction saw. -/
theorem Step.sound {m : Mode σ υ ν} {c : Config} {e : Event σ υ} (h : Step m c s e s')
    (hw : OutsideWindow s e) (hmono : ∀ i, D i → D' i)
    (hstore : ∀ t q snap, s.pc = .storing t q snap → s' = s.store t q snap →
      ∀ i ∈ s.commits, i ≤ q → D' i)
    (hskip : c.receiveOnly = true → ∀ t q snap, s.pc = .dumped t q snap →
      ∀ i ∈ s.commits, i ≤ q → D' i)
    (hs : Sound D s) : Sound D' s' := by
  have hnum := h.numbered hs.numbered
  have hsync := hs.synced
  have hb := hs.bounded
  cases h with
  | @commit d _ => exact ⟨hnum, hb.trans (Nat.le_succ _), hs.commit hmono (hw d rfl) d⟩
  | info hpc =>
      rw [Synced, hpc] at hsync
      exact ⟨hnum, hb, hsync.mono hmono⟩
  | listed _ _ hpc =>
      rw [Synced, hpc] at hsync
      exact ⟨hnum, hb, hsync.mono hmono⟩
  | @startup hs' t hpc =>
      rw [Synced, hpc] at hsync
      rcases startup_cases m s t hs' with ⟨-, h⟩ | h | ⟨-, d, b, -, h⟩
      · rw [h]
        exact Sound.afterStartup hs.numbered hb (hsync.mono hmono) hs'
      · rw [h] at hnum ⊢
        exact ⟨hnum, hb, trivial⟩
      · rw [h]
        have hle : s.env.last ≤ (s.env.finish d b).last := Versioned.last_le_finish b
        exact Sound.afterStartup (s := { s with env := s.env.finish d b })
          (fun i hi => ⟨(hs.numbered i hi).1, (hs.numbered i hi).2.trans hle⟩)
          (hb.trans hle) (hsync.mono hmono) hs'
  | load t u hpc =>
      rw [Synced, hpc] at hsync
      rcases loadTxn_cases m s t u with h | ⟨d, b, n, w, -, h⟩
      · rw [h] at hnum ⊢
        exact ⟨hnum, hb, trivial⟩
      · rw [h] at hnum ⊢
        refine ⟨hnum, hb.trans (Versioned.last_le_finish b), hsync.mono hmono, fun hlc => ?_⟩
        -- no local change was seen, so everything up to the last ID is done
        have hle : s.env.last ≤ s.lastSynced := by
          simpa [State.localChanged] using hlc
        refine ⟨Nat.succ_le_succ (Versioned.last_le_finish b), fun i hi _ => ?_⟩
        exact (hs.numbered i hi).2.trans hle
  | @loadInfo u t lc hpc =>
      rw [Synced, hpc] at hsync
      have hcov : Covered D' s (s.loadInfo u t lc).lastSynced ∧
          (s.loadInfo u t lc).lastSynced ≤ s.env.last := by
        cases lc with
        | true => exact ⟨hsync.1.mono hmono, hb⟩
        | false =>
            refine ⟨fun i hi hle => ?_, (adjusted_le t s.env.last).2⟩
            have hit : i ≤ t := le_trans hle (adjusted_le t s.env.last).1
            exact hmono i (hsync.1 i hi ((hsync.2 rfl).2 i hi hit))
      refine ⟨hnum, hcov.2, ?_⟩
      unfold Synced
      rcases Bool.eq_false_or_eq_true
        (lc && decide (maxConsecutiveSnapshotLoads < s.nLoads)) with hbr | hbr
      · rw [show (s.loadInfo u t lc).pc = .cleaning by simp only [State.loadInfo, hbr, if_true]]
        exact hcov.1
      · rw [show (s.loadInfo u t lc).pc = .ready by
          simp only [State.loadInfo, hbr, Bool.false_eq_true, if_false]]
        exact hcov.1
  | idle hpc =>
      rw [Synced, hpc] at hsync
      exact ⟨hnum, hb, hsync.mono hmono⟩
  | clean _ hpc =>
      rw [Synced, hpc] at hsync
      exact ⟨hnum, hb, hsync.mono hmono⟩
  | poll overdue hpc _ =>
      rw [Synced, hpc] at hsync
      rcases poll_cases c s overdue with h | h | ⟨hzero, h⟩
      · rw [h] at hnum ⊢
        exact ⟨hnum, hb, hsync.mono hmono⟩
      · rw [h] at hnum ⊢
        exact ⟨hnum, le_rfl, trivial⟩
      · rw [h] at hnum ⊢
        refine ⟨hnum, le_rfl, fun i hi hle => ?_⟩
        -- nothing was ever committed
        have hi1 := (hs.numbered i hi).1
        simp only [hzero] at hle
        omega
  | send t hpc =>
      rcases sendTxn_cases m c s t with h | ⟨-, d, b, snap, -, h⟩ | ⟨-, d, b, snap, -, h⟩
      · rw [h] at hnum ⊢
        exact ⟨hnum, hb, trivial⟩
      · rw [h] at hnum ⊢
        exact ⟨hnum, hb, Nat.le_succ _, fun i hi _ => (hs.numbered i hi).2⟩
      · rw [h] at hnum ⊢
        exact ⟨hnum, hb.trans (Versioned.last_le_finish b),
          Nat.succ_le_succ (Versioned.last_le_finish b), fun i hi _ => (hs.numbered i hi).2⟩
  | @sendInfo t q snap hpc =>
      rw [Synced, hpc] at hsync
      have hadj := adjusted_le t s.env.last
      have hseen : ∀ i ∈ s.commits, i ≤ adjusted t s.env.last → i ≤ q :=
        fun i hi hle => hsync.2 i hi (hle.trans hadj.1)
      unfold State.sendInfo at hnum ⊢
      split
      · rename_i hro
        exact ⟨hs.numbered, hadj.2, synced_resume fun i hi hle =>
          hskip hro t q snap hpc i hi (hseen i hi hle)⟩
      · exact ⟨hs.numbered, hb, hadj.2, hseen⟩
  | @store t q snap hpc =>
      rw [Synced, hpc] at hsync
      refine ⟨hnum, hsync.1, synced_resume fun i hi hle => ?_⟩
      exact hstore t q snap hpc rfl i hi (hsync.2 i hi hle)
  | sleep hpc =>
      rw [Synced, hpc] at hsync
      exact ⟨hnum, hb, hsync.mono hmono⟩
  | done _ _ _ => exact ⟨hnum, hb, trivial⟩
  | fail => exact ⟨hnum, hb, trivial⟩

theorem Start.sound (h : Start s) : Sound D s := by
  refine ⟨h.commits, by rw [h.lastSynced]; exact Nat.zero_le _, ?_⟩
  rw [Synced, h.pc]
  intro i hi hle
  have hi1 := (h.commits i hi).1
  rw [h.lastSynced] at hle
  omega

end Sound

/-! ## What the stored snapshots contain -/

/-- The snapshot was read from this version. -/
def ReadFrom (m : Mode σ υ ν) (c : Config) (e : Versioned σ) (n : ℕ) (snap : ν) : Prop :=
  n ≤ e.last ∧ ∃ t txnID d dirty,
    m.sendTxn c.receiveOnly t txnID (e.version n) = some (d, dirty, snap)

/-- Every snapshot was read from the version it is recorded with. -/
structure Genuine (m : Mode σ υ ν) (c : Config) (s : State σ υ ν) : Prop where
  stored : ∀ st ∈ s.stored, ReadFrom m c s.env st.seen st.snapshot
  pending : ∀ t q snap, s.pc = .dumped t q snap ∨ s.pc = .storing t q snap →
    ReadFrom m c s.env q snap

/-- The environment has only gained versions. -/
def Extends (e e' : Versioned σ) : Prop :=
  e.last ≤ e'.last ∧ ∀ n ≤ e.last, e'.version n = e.version n

theorem extends_refl (e : Versioned σ) : Extends e e := ⟨le_rfl, fun _ _ => rfl⟩

theorem extends_finish (e : Versioned σ) (d : σ) (b : Bool) : Extends e (e.finish d b) :=
  ⟨Versioned.last_le_finish b, fun _ hn => Versioned.finish_version b hn⟩

theorem ReadFrom.mono {m : Mode σ υ ν} {c : Config} {e e' : Versioned σ} {n : ℕ} {snap : ν}
    (h : ReadFrom m c e n snap) (he : Extends e e') : ReadFrom m c e' n snap := by
  obtain ⟨hn, t, txnID, d, b, hr⟩ := h
  exact ⟨hn.trans he.1, t, txnID, d, b, by rw [he.2 n hn]; exact hr⟩

/-- A step that stores nothing and leaves no snapshot pending that was not. -/
theorem Genuine.mono {m : Mode σ υ ν} {c : Config} {s s' : State σ υ ν} (h : Genuine m c s)
    (he : Extends s.env s'.env) (hst : s'.stored = s.stored)
    (hpc : s'.pc = s.pc ∨ ∀ t q snap, s'.pc ≠ .dumped t q snap ∧ s'.pc ≠ .storing t q snap) :
    Genuine m c s' := by
  refine ⟨fun st hmem => (h.stored st (hst ▸ hmem)).mono he, fun t q snap hp => ?_⟩
  rcases hpc with hpc | hpc
  · rw [hpc] at hp
    exact (h.pending t q snap hp).mono he
  · rcases hp with hp | hp
    · exact absurd hp (hpc t q snap).1
    · exact absurd hp (hpc t q snap).2

theorem genuine_resume {m : Mode σ υ ν} {c : Config} {s : State σ υ ν}
    (h : ∀ st ∈ s.stored, ReadFrom m c s.env st.seen st.snapshot) : Genuine m c s.resume := by
  refine ⟨h, fun t q snap hp => ?_⟩
  cases hin : s.inLoop with
  | true => simp [State.resume, hin] at hp
  | false => simp [State.resume, hin] at hp

theorem genuine_afterStartup {m : Mode σ υ ν} {c : Config} {s : State σ υ ν}
    (h : ∀ st ∈ s.stored, ReadFrom m c s.env st.seen st.snapshot) (b : Bool) :
    Genuine m c (s.afterStartup b) := by
  rcases afterStartup_cases s b with heq | heq
  · rw [heq]
    exact ⟨h, fun t q snap hp => by simp at hp⟩
  · rw [heq]
    exact genuine_resume h

theorem Step.genuine {m : Mode σ υ ν} {c : Config} {s s' : State σ υ ν} {e : Event σ υ}
    (h : Step m c s e s') (hg : Genuine m c s) : Genuine m c s' := by
  cases h with
  | @commit d _ => exact hg.mono (extends_finish s.env d true) rfl (Or.inl rfl)
  | @startup hs t _ =>
      rcases startup_cases m s t hs with ⟨-, h⟩ | h | ⟨-, d, b, -, h⟩
      · rw [h]
        exact genuine_afterStartup hg.stored hs
      · rw [h]
        exact hg.mono (extends_refl _) rfl (Or.inr (by simp [State.stop]))
      · rw [h]
        exact genuine_afterStartup (s := { s with env := s.env.finish d b })
          (fun st hst => (hg.stored st hst).mono (extends_finish s.env d b)) hs
  | load t u _ =>
      rcases loadTxn_cases m s t u with h | ⟨d, b, n, w, -, h⟩
      · rw [h]
        exact hg.mono (extends_refl _) rfl (Or.inr (by simp [State.stop]))
      · rw [h]
        exact hg.mono (extends_finish s.env d b) rfl (Or.inr (by simp))
  | loadInfo _ =>
      refine hg.mono (extends_refl _) rfl (Or.inr fun t q snap => ?_)
      unfold State.loadInfo
      simp only
      split
      · simp
      · simp
  | poll overdue _ _ =>
      rcases poll_cases c s overdue with h | h | ⟨-, h⟩
      all_goals
        rw [h]
        exact hg.mono (extends_refl _) rfl (Or.inr (by simp))
  | send t _ =>
      rcases sendTxn_cases m c s t with h | ⟨-, d, b, snap, hr, h⟩ | ⟨-, d, b, snap, hr, h⟩
      · rw [h]
        exact hg.mono (extends_refl _) rfl (Or.inr (by simp [State.stop]))
      · rw [h]
        refine ⟨hg.stored, fun t' q snap' hp => ?_⟩
        simp only [Pc.dumped.injEq, reduceCtorEq, or_false] at hp
        obtain ⟨-, rfl, rfl⟩ := hp
        exact ⟨le_rfl, t, _, d, b, hr⟩
      · rw [h]
        refine ⟨fun st hst => (hg.stored st hst).mono (extends_finish s.env d b),
          fun t' q snap' hp => ?_⟩
        simp only [Pc.dumped.injEq, reduceCtorEq, or_false] at hp
        obtain ⟨-, rfl, rfl⟩ := hp
        exact ReadFrom.mono ⟨le_rfl, t, _, d, b, hr⟩ (extends_finish s.env d b)
  | @sendInfo t q snap hpc =>
      have hread := hg.pending t q snap (Or.inl hpc)
      unfold State.sendInfo
      split
      · exact genuine_resume hg.stored
      · refine ⟨hg.stored, fun t' q' snap' hp => ?_⟩
        simp only [reduceCtorEq, false_or, Pc.storing.injEq] at hp
        obtain ⟨-, rfl, rfl⟩ := hp
        exact hread
  | @store t q snap hpc =>
      apply genuine_resume
      intro st hst
      rcases List.mem_cons.mp hst with rfl | hst
      · exact hg.pending t q snap (Or.inr hpc)
      · exact hg.stored st hst
  | _ => exact hg.mono (extends_refl _) rfl (Or.inr (by simp [State.info, State.listed,
      State.idle, State.clean, State.sleep, State.stop]))

theorem Start.genuine {m : Mode σ υ ν} {c : Config} {s : State σ υ ν} (h : Start s) :
    Genuine m c s := by
  constructor
  · rw [h.stored]
    simp
  · rw [h.pc]
    simp

/-- The commit is in a stored snapshot. -/
def InStorage (s : State σ υ ν) (i : ℕ) : Prop := ∃ st ∈ s.stored, i ≤ st.seen

theorem Step.inStorage {m : Mode σ υ ν} {c : Config} {s s' : State σ υ ν} {e : Event σ υ}
    (h : Step m c s e s') {i : ℕ} (hi : InStorage s i) : InStorage s' i := by
  obtain ⟨st, hst, hle⟩ := hi
  rcases h.stored with heq | ⟨txnID, seen, snap, -, rfl⟩
  · exact ⟨st, by rw [heq]; exact hst, hle⟩
  · exact ⟨st, List.mem_cons_of_mem _ hst, hle⟩

/-- That snapshot is one of the version that it is recorded with. -/
theorem Genuine.read {m : Mode σ υ ν} {c : Config} {s : State σ υ ν} (hg : Genuine m c s) {i : ℕ}
    (h : InStorage s i) :
    ∃ st ∈ s.stored, i ≤ st.seen ∧ ReadFrom m c s.env st.seen st.snapshot := by
  obtain ⟨st, hst, hle⟩ := h
  exact ⟨st, hst, hle, hg.stored st hst⟩

/-- **No commit is missed outside the window.** When the loop finds no change,
every commit of the application is in a version that a stored snapshot was
read from. -/
theorem commits_stored {m : Mode σ υ ν} {c : Config} (hc : c.receiveOnly = false)
    {s s' : State σ υ ν} (hs : Start s) (hr : Run m c OutsideWindow s s')
    (hpc : s'.pc = .poll) (hle : s'.env.last ≤ s'.lastSynced) :
    ∀ i ∈ s'.commits, ∃ st ∈ s'.stored, i ≤ st.seen ∧
      ReadFrom m c s'.env st.seen st.snapshot := by
  have hsound : Sound (InStorage s') s' := Run.invariant (I := fun s => Sound (InStorage s) s)
    (fun h hw hI => h.sound hw (fun _ => h.inStorage)
      (fun t q snap _ heq i _ hle => by
        rw [heq]
        exact ⟨_, List.mem_cons_self, hle⟩)
      (fun hro => by simp [hc] at hro) hI) hr hs.sound
  have hgen := Run.invariant (fun h _ hI => h.genuine hI) hr (hs.genuine (m := m) (c := c))
  have hcov := hsound.synced
  rw [Synced, hpc] at hcov
  exact fun i hi => hgen.read (hcov i hi ((hsound.numbered i hi).2.trans hle))

end LightningStream.Syncer.Loop
