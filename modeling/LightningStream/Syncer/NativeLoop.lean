import LightningStream.Syncer.Loop
import LightningStream.Syncer.Native

/-!
# The sync loop in native mode

In native mode `SendOnce` only reads, so it runs under the last transaction ID
and never loses one. `LoadOnce` writes, and a load that finds nothing to change
opens a window: the application's next commit gets the ID that the loop is
about to consider sent.
-/

namespace LightningStream.Syncer.NativeLoop

open Lmdb Snapshot Loop

variable {η : Type}

/-- `LoadOnce` and `SendOnce` with `SchemaTracksChanges`. The application may
commit whatever it likes. -/
def native (o : LoadOptions) : Mode Contents (Message η) (Message Empty) where
  schemaTracksChanges := true
  app := fun _ _ => True
  -- never called in this mode
  startTxn := fun _ _ _ => none
  loadTxn := fun _ t txnID msg c =>
    match loadOnce o t.deletedCutoff (UInt64.ofNat txnID) msg c with
    | .error _ => none
    | .ok r => some (r.contents, r.dirty)
  sendTxn := fun receiveOnly _ _ c =>
    if receiveOnly then some (c, false, ⟨currentFormatVersion, writeCompatFormatVersion, []⟩)
    else match dump c with
      | .error _ => none
      | .ok msg => some (c, false, msg)

theorem native_sendTxn {o : LoadOptions} {t : Moment} {txnID : ℕ} {c d : Contents}
    {dirty : Bool} {msg : Message Empty}
    (h : (native (η := η) o).sendTxn false t txnID c = some (d, dirty, msg)) :
    dump c = .ok msg := by
  change (match dump c with
    | .error _ => none
    | .ok msg => some (c, false, msg)) = some (d, dirty, msg) at h
  cases hd : dump c (η := Empty) with
  | error e => simp [hd] at h
  | ok r =>
      simp only [hd, Option.some.injEq, Prod.mk.injEq] at h
      rw [h.2.2]

/-- **No local change is missed** in a run in which the application never commits
between a `LoadOnce` transaction that changed nothing and saw no local change,
and the `env.Info` read after it: when the loop finds nothing to send, every
commit is in a version of the environment that a stored snapshot is a dump of. -/
theorem native_commits_stored {o : LoadOptions} {c : Config} (hc : c.receiveOnly = false)
    {s s' : State Contents (Message η) (Message Empty)} (hs : Start s)
    (hr : Run (native o) c OutsideWindow s s') (hpc : s'.pc = .poll)
    (hle : s'.env.last ≤ s'.lastSynced) :
    ∀ i ∈ s'.commits, ∃ st ∈ s'.stored, i ≤ st.seen ∧ st.seen ≤ s'.env.last ∧
      dump (s'.env.version st.seen) = .ok st.snapshot := by
  intro i hi
  obtain ⟨st, hst, hseen, hlast, t, txnID, d, b, hread⟩ := commits_stored hc hs hr hpc hle i hi
  rw [hc] at hread
  exact ⟨st, hst, hseen, hlast, native_sendTxn hread⟩

/-! ## Two short runs -/

def plainConfig : Config := ⟨ascii "own", false, false, false⟩

def plainOptions : LoadOptions := ⟨false, fun _ => none⟩

/-- The loop on a new environment. -/
def fresh : State Contents (Message Empty) (Message Empty) where
  env := ⟨0, fun _ => Contents.empty⟩
  pc := .begin
  lastSynced := 0
  hasDataAtStart := false
  waitingForInstances := ∅
  nLoads := 0
  inLoop := false
  lastByInstance := fun _ => none
  committed := fun _ => none
  stored := []
  commits := []

theorem fresh_start : Start fresh :=
  ⟨rfl, rfl, rfl, rfl, fun _ h => by cases h⟩

/-- An environment with one DBI. -/
def oneDbi : Contents :=
  Contents.empty.set [97] (Dbi.empty KeyFlags.plain) (by decide)

def noon : Moment := ⟨5, 0, false⟩

/-- An update that holds no DBI. -/
def emptyUpdate : Update (Message Empty) := ⟨ascii "other", true, 0, ⟨3, 1, []⟩⟩

def started : State Contents (Message Empty) (Message Empty) :=
  (((fresh.info).listed false ∅).startup (native plainOptions) noon false)

theorem run_started (P : State Contents (Message Empty) (Message Empty) →
    Event Contents (Message Empty) → Prop) (hP : ∀ s t, P s .other ∧ P s (.start t)) :
    Run (native plainOptions) plainConfig P fresh started :=
  ((Relation.ReflTransGen.single ⟨_, Step.info rfl, (hP _ noon).1⟩).tail
    ⟨_, Step.listed false ∅ rfl, (hP _ noon).1⟩).tail ⟨_, Step.startup noon rfl, (hP _ noon).2⟩

/-- The application commits, and the loop finds and stores the change. -/
theorem native_commits_stored_once :
    ∃ s', Run (native plainOptions) plainConfig OutsideWindow fresh s' ∧ 1 ∈ s'.commits ∧
      ∃ st ∈ s'.stored, 1 ≤ st.seen ∧ dump (s'.env.version st.seen) = .ok st.snapshot := by
  have hother : ∀ {s : State Contents (Message Empty) (Message Empty)}
      {e : Event Contents (Message Empty)}, (∀ d, e ≠ .commit d) → OutsideWindow s e :=
    fun he d hd => absurd hd (he d)
  have hwin : ¬ Window started := fun hw => hw
  have hsent : Run (native plainOptions) plainConfig OutsideWindow fresh
      ((((((started.commit oneDbi).idle.clean ∅).poll plainConfig false).sendTxn
        (native plainOptions) plainConfig noon).sendInfo plainConfig 1 1
        ⟨3, 1, [⟨[97], 0, [], Reading.ofList []⟩]⟩).store 1 1
        ⟨3, 1, [⟨[97], 0, [], Reading.ofList []⟩]⟩) := by
    refine (((((((run_started _ fun s t => ⟨hother (by simp), hother (by simp)⟩).tail
      ⟨_, Step.commit trivial, fun _ _ => hwin⟩).tail
      ⟨_, Step.idle rfl, hother (by simp)⟩).tail
      ⟨_, Step.clean ∅ rfl, hother (by simp)⟩).tail
      ⟨_, Step.poll false rfl (by simp), hother (by simp)⟩).tail
      ⟨_, Step.send noon rfl, hother (by simp)⟩).tail
      ⟨_, Step.sendInfo rfl, hother (by simp)⟩).tail
      ⟨_, Step.store rfl, hother (by simp)⟩
  have hpoll := ((hsent.tail ⟨_, Step.sleep rfl, hother (by simp)⟩).tail
    ⟨_, Step.idle rfl, hother (by simp)⟩).tail ⟨_, Step.clean ∅ rfl, hother (by simp)⟩
  obtain ⟨st, hst, hseen, -, hdump⟩ := native_commits_stored rfl fresh_start hpoll rfl
    (by decide) 1 List.mem_cons_self
  exact ⟨_, hpoll, List.mem_cons_self, st, hst, hseen, hdump⟩

/-- The application commits right after a load that changed nothing. The loop
takes the commit for its own and sends nothing. -/
theorem commit_in_window_missed :
    ∃ s', Start fresh ∧
      Run (native plainOptions) plainConfig (fun _ _ => True) fresh s' ∧
      s'.pc = .poll ∧ s'.env.last ≤ s'.lastSynced ∧ 1 ∈ s'.commits ∧ s'.stored = [] := by
  refine ⟨_, fresh_start, (((((run_started _ fun s t => ⟨trivial, trivial⟩).tail
    ⟨_, Step.load noon emptyUpdate rfl, trivial⟩).tail
    ⟨_, Step.commit (d := oneDbi) trivial, trivial⟩).tail
    ⟨_, Step.loadInfo (u := emptyUpdate) rfl, trivial⟩).tail
    ⟨_, Step.idle rfl, trivial⟩).tail ⟨_, Step.clean ∅ rfl, trivial⟩, rfl, ?_, ?_, rfl⟩
  · decide
  · exact List.mem_cons_self

end LightningStream.Syncer.NativeLoop
