import LightningStream.Syncer.NativeLoop

/-!
# Loading never echoes

Two instances that loaded each other's snapshots and took what they loaded for a
local change would send snapshots back and forth for ever. What prevents this
is that a load raises `lastSyncedTxnID` along with the transaction ID it has used
up, whether or not it has used one up.
-/

namespace LightningStream.Syncer.Echo

open Loop

variable {σ υ ν : Type}

/-- Nobody but the loop commits. -/
def Alone (_ : State σ υ ν) (e : Event σ υ) : Prop := ∀ d, e ≠ .commit d

/-- In the loop, outside `LoadOnce` and `SendOnce`. -/
def Between (pc : Pc υ ν) : Prop := pc = .ready ∨ pc = .cleaning ∨ pc = .poll ∨ pc = .pause

/-- All that is in the environment is considered sent, or will be at the end of the
call in progress. -/
def Settled (s : State σ υ ν) : Prop :=
  match s.pc with
  | .begin => False
  | .listing => False
  | .startup _ => False
  | .loaded _ txnID localChanged => localChanged = false ∧ adjusted txnID s.env.last = s.env.last
  | .dumped txnID _ _ => adjusted txnID s.env.last = s.env.last
  | .storing txnID _ _ => txnID = s.env.last
  | .stopped => True
  | _ => s.lastSynced = s.env.last

theorem adjusted_self (n : ℕ) : adjusted n n = n := if_neg (lt_irrefl n)

/-- A transaction counts, or gives its ID back. -/
theorem adjusted_finish (e : Versioned σ) (d : σ) (dirty : Bool) :
    adjusted (e.last + 1) (e.finish d dirty).last = (e.finish d dirty).last := by
  cases dirty with
  | true => exact adjusted_self _
  | false => exact if_pos (Nat.lt_succ_self _)

theorem settled_of_between {s : State σ υ ν} (hpc : Between s.pc)
    (h : s.lastSynced = s.env.last) : Settled s := by
  unfold Settled
  rcases hpc with hpc | hpc | hpc | hpc
  all_goals
    rw [hpc]
    exact h

theorem Settled.lastSynced {s : State σ υ ν} (h : Settled s) (hpc : Between s.pc) :
    s.lastSynced = s.env.last := by
  unfold Settled at h
  rcases hpc with hpc | hpc | hpc | hpc
  all_goals
    rw [hpc] at h
    exact h

theorem settled_resume {s : State σ υ ν} (h : s.lastSynced = s.env.last) : Settled s.resume := by
  refine settled_of_between ?_ h
  unfold State.resume Between
  cases s.inLoop with
  | true => simp
  | false => simp

variable {m : Mode σ υ ν} {c : Config} {s s' : State σ υ ν}

/-- `LoadOnce` sees no local change, and its transaction leaves none to see. -/
theorem Settled.load (h : s.lastSynced = s.env.last) (t : Moment) (u : Update υ) :
    Settled (s.loadTxn m t u) := by
  rcases loadTxn_cases m s t u with hstop | ⟨d, b, n, w, -, hload⟩
  · rw [hstop]
    trivial
  · rw [hload]
    refine ⟨?_, adjusted_finish s.env d b⟩
    simp [State.localChanged, h]

theorem Settled.loadInfo {u : Update υ} {txnID : ℕ} {localChanged : Bool} (h : Settled s)
    (hpc : s.pc = .loaded u txnID localChanged) : Settled (s.loadInfo u txnID localChanged) := by
  unfold Settled at h
  rw [hpc] at h
  obtain ⟨rfl, hadj⟩ := h
  refine settled_of_between ?_ hadj
  simp [State.loadInfo, Between]

theorem Settled.poll (h : s.lastSynced = s.env.last) (overdue : Bool) :
    Settled (s.poll c overdue) := by
  rcases poll_cases c s overdue with hp | hp | ⟨-, hp⟩
  all_goals rw [hp]
  · exact h
  · exact rfl
  · exact rfl

theorem settled_send (t : Moment) : Settled (s.sendTxn m c t) := by
  rcases sendTxn_cases m c s t with hs | ⟨-, d, b, snap, -, hs⟩ | ⟨-, d, b, snap, -, hs⟩
  · rw [hs]
    trivial
  · rw [hs]
    exact adjusted_self _
  · rw [hs]
    exact adjusted_finish s.env d b

/-- Without commits of others, every step of the loop keeps the environment settled. -/
theorem Step.settled {e : Event σ υ} (h : Step m c s e s') (halone : Alone s e)
    (hs : Settled s) : Settled s' := by
  have hrest : Between s.pc → s.lastSynced = s.env.last := hs.lastSynced
  cases h with
  | @commit d _ => exact absurd rfl (halone d)
  | info hpc =>
      unfold Settled at hs
      rw [hpc] at hs
      exact hs.elim
  | listed _ _ hpc =>
      unfold Settled at hs
      rw [hpc] at hs
      exact hs.elim
  | startup _ hpc =>
      unfold Settled at hs
      rw [hpc] at hs
      exact hs.elim
  | load t u hpc => exact Settled.load (hrest (Or.inl hpc)) t u
  | loadInfo hpc => exact hs.loadInfo hpc
  | idle hpc => exact hrest (Or.inl hpc)
  | clean _ hpc => exact hrest (Or.inr (Or.inl hpc))
  | poll overdue hpc _ => exact Settled.poll (hrest (Or.inr (Or.inr (Or.inl hpc)))) overdue
  | send t _ => exact settled_send t
  | sendInfo hpc =>
      unfold Settled at hs
      rw [hpc] at hs
      unfold State.sendInfo
      split
      · exact settled_resume hs
      · exact hs
  | store hpc =>
      unfold Settled at hs
      rw [hpc] at hs
      exact settled_resume hs
  | sleep hpc => exact hrest (Or.inr (Or.inr (Or.inr hpc)))
  | done _ _ _ => trivial
  | fail => trivial

/-- **Loading never echoes.** From a point where everything is considered sent, and as
long as nobody else commits, no load sees a local change, everything is still
considered sent after it, and only an overdue snapshot is sent. -/
theorem loading_never_echoes (m : Mode σ υ ν) (c : Config) {s s' : State σ υ ν}
    (hpc : Between s.pc) (hsync : s.lastSynced = s.env.last) (hr : Run m c Alone s s') :
    (∀ u txnID localChanged, s'.pc = .loaded u txnID localChanged → localChanged = false) ∧
    (Between s'.pc → s'.lastSynced = s'.env.last) ∧
    (s'.pc = .poll → s'.poll c false = { s' with pc := .pause }) := by
  have hsettled : Settled s' :=
    hr.invariant (fun h halone hs => Step.settled h halone hs) (settled_of_between hpc hsync)
  refine ⟨fun u txnID localChanged hp => ?_, hsettled.lastSynced, fun hp => ?_⟩
  · unfold Settled at hsettled
    rw [hp] at hsettled
    exact hsettled.1
  · have hle : ¬ s'.lastSynced < s'.env.last := by
      rw [hsettled.lastSynced (Or.inr (Or.inr (Or.inl hp)))]
      exact lt_irrefl _
    unfold State.poll
    rw [if_neg (by simpa using hle)]

/-! ### Two loads -/

open NativeLoop Snapshot

/-- An update that creates a DBI. -/
def creatingUpdate : Update (Message Empty) :=
  ⟨ascii "other", true, 0, ⟨3, 1, [⟨[97], 0, [], Reading.ofList []⟩]⟩⟩

/-- A load that changes something, and one that does not. -/
def twoLoads : State Lmdb.Contents (Message Empty) (Message Empty) :=
  (((started.loadTxn (native plainOptions) noon creatingUpdate).loadInfo creatingUpdate 1
    false).loadTxn (native plainOptions) noon emptyUpdate).loadInfo emptyUpdate 2 false

theorem loading_never_echoes_twice :
    started.lastSynced = started.env.last ∧ twoLoads.pc = .ready ∧ twoLoads.env.last = 1 ∧
      twoLoads.lastSynced = twoLoads.env.last := by
  have halone : ∀ {s : State Lmdb.Contents (Message Empty) (Message Empty)}
      {e : Event Lmdb.Contents (Message Empty)}, (∀ d, e ≠ .commit d) → Alone s e := id
  have hr : Run (native plainOptions) plainConfig Alone started twoLoads :=
    (((Relation.ReflTransGen.single
      ⟨_, Step.load noon creatingUpdate rfl, halone (by simp)⟩).tail
      ⟨_, Step.loadInfo (u := creatingUpdate) rfl, halone (by simp)⟩).tail
      ⟨_, Step.load noon emptyUpdate rfl, halone (by simp)⟩).tail
      ⟨_, Step.loadInfo (u := emptyUpdate) rfl, halone (by simp)⟩
  exact ⟨rfl, rfl, rfl, (loading_never_echoes (native plainOptions) plainConfig (Or.inl rfl) rfl
    hr).2.1 (Or.inl rfl)⟩

end LightningStream.Syncer.Echo
