import LightningStream.Cleaner

/-!
# Proof of merge before a stale instance goes

The cleaner removes the last snapshot of an instance that looks dead when this
process has loaded it and has then stored a snapshot of its own. What it knows
of that is a map of times: `LoadOnce` notes the time of what it has loaded, and
`SendOnce`, at one of its exits, copies these notes to the cleaner.

Here `LoadOnce` and `SendOnce` are called in any order by one goroutine, and
`RunOnce` by another. Each step is what happens under one lock, one transaction
or one call of the storage, so that `SetCommitted` may fall between any two of
the cleaner's checks. A history records what has come about.
-/

namespace LightningStream.Syncer.Committed

open Snapshot Cleaner

/-! ## RunOnce in steps -/

/-- `RunOnce` up to the loop over the `tooOld` list: the superseded snapshots and
that list. -/
def sift (w : Worker) (nm : Naming) (srt : Sorter) (now : Time) (ls : Listing) :
    Worker × List NameInfo × List NameInfo :=
  let candidates := w.candidates nm ls.names
  let firstSeen := fun name =>
    if name ∈ candidates.map NameInfo.fullName then w.snapFirstSeen name else none
  let r := protectRecent w.conf now (srt.sort candidates) firstSeen (fun _ => false)
  ({ w with ignoredFilenames := w.ignored nm ls.names, snapFirstSeen := r.1 },
    keepNewest w.conf now r.2.2 r.2.1)

/-- The check of the last loop: not after what was committed. -/
def mergeProven (w : Worker) (ni : NameInfo) : Bool :=
  decide (¬ w.getCommitted ni.instanceID < ni.timestamp)

theorem runOnce_eq {w : Worker} (hen : w.conf.enabled = true) (nm : Naming) (srt : Sorter)
    (now : Time) (ls : Listing) :
    w.runOnce nm srt now (some ls) =
      ((sift w nm srt now ls).1,
        (sift w nm srt now ls).2.1.map (⟨.newerSnapshot, ·⟩) ++
        ((sift w nm srt now ls).2.2.filter (mergeProven w)).map (⟨.staleInstance, ·⟩)) := by
  unfold Worker.runOnce
  rw [if_neg (by simp [hen])]
  rfl

/-! ## The process -/

/-- The settings `SendOnce` reads. -/
structure SendConf where
  receiveOnly : Bool
  storageRetryCount : ℕ
  storageRetryForever : Bool
  /-- Checked when the configuration is read. -/
  retryCount_pos : 1 ≤ storageRetryCount

/-- The condition of the store loop. -/
def SendConf.again (c : SendConf) (i : ℕ) : Prop :=
  i < c.storageRetryCount ∨ c.storageRetryForever = true

/-- What has come about. -/
inductive Event
  /-- `LoadOnce` has returned without an error. -/
  | loaded (inst : Bytes) (ts : Time)
  /-- The transaction of `SendOnce` has read the data. -/
  | read
  /-- The storage has accepted the snapshot. -/
  | stored
  | deleted (d : Deletion)
deriving DecidableEq

/-- Where the goroutine of the sync loop is. -/
inductive Pc
  | idle
  /-- In `LoadOnce`, after its transaction. -/
  | loading (inst : Bytes) (ts : Time)
  /-- In `SendOnce`, after its transaction. -/
  | dumped
  /-- In the store loop, after so many failed attempts. -/
  | storing (i : ℕ)
  /-- Behind the store loop, without an error. -/
  | stored
deriving DecidableEq

structure Process where
  pc : Pc
  lastByInstance : Bytes → Option Time
  worker : Worker
  /-- What the `RunOnce` in progress has still to check. -/
  tooOld : List NameInfo
  /-- The latest event comes first. -/
  history : List Event

namespace Process

def start (conf : Cleanup) : Process := ⟨.idle, fun _ => none, Worker.new conf, [], []⟩

variable (p : Process)

def goto (pc : Pc) : Process := { p with pc := pc }

def loaded (inst : Bytes) (ts : Time) : Process :=
  { p with
    pc := .idle
    lastByInstance := Function.update p.lastByInstance inst (some ts)
    history := .loaded inst ts :: p.history }

def read : Process := { p with pc := .dumped, history := .read :: p.history }

def stored : Process := { p with pc := .stored, history := .stored :: p.history }

/-- The end of `SendOnce`. -/
def sent : Process :=
  { p with pc := .idle, worker := p.worker.setCommitted p.lastByInstance }

/-- `RunOnce` up to its last loop. -/
def listed (nm : Naming) (srt : Sorter) (now : Time) (ls : Listing) : Process :=
  let r := sift p.worker nm srt now ls
  { p with
    worker := r.1
    tooOld := r.2.2
    history := (r.2.1.map fun ni => .deleted ⟨.newerSnapshot, ni⟩).reverse ++ p.history }

/-- One round of that loop. -/
def checked (ni : NameInfo) (rest : List NameInfo) : Process :=
  { p with
    tooOld := rest
    history := if mergeProven p.worker ni then .deleted ⟨.staleInstance, ni⟩ :: p.history
      else p.history }

end Process

/-- One step of either goroutine. Calls that fail before anything has happened
are left out. -/
inductive Step (nm : Naming) (srt : Sorter) (c : SendConf) : Process → Process → Prop
  | loadTxn {p} (inst ts) : p.pc = .idle → Step nm srt c p (p.goto (.loading inst ts))
  | loadReturn {p inst ts} : p.pc = .loading inst ts → Step nm srt c p (p.loaded inst ts)
  /-- The transaction has been committed, but reading `env.Info` fails. -/
  | loadFail {p inst ts} : p.pc = .loading inst ts → Step nm srt c p (p.goto .idle)
  | sendTxn {p} : p.pc = .idle → Step nm srt c p p.read
  /-- Reading `env.Info` or the dump fails, or nothing is to be sent. -/
  | sendSkip {p} : p.pc = .dumped → Step nm srt c p (p.goto .idle)
  | dump {p} : p.pc = .dumped → c.receiveOnly = false → Step nm srt c p (p.goto (.storing 0))
  | storeFail {p i} : p.pc = .storing i → c.again i → Step nm srt c p (p.goto (.storing (i + 1)))
  | store {p i} : p.pc = .storing i → c.again i → Step nm srt c p p.stored
  /-- The last attempt has failed, or the sleep after one was cancelled. -/
  | giveUp {p i} : p.pc = .storing (i + 1) → Step nm srt c p (p.goto .idle)
  /-- A loop without rounds would leave no error. -/
  | noRound {p} : p.pc = .storing 0 → ¬ c.again 0 → Step nm srt c p (p.goto .stored)
  | sendReturn {p} : p.pc = .stored → Step nm srt c p p.sent
  | list {p} (now ls) : p.tooOld = [] → p.worker.conf.enabled = true →
      Step nm srt c p (p.listed nm srt now ls)
  | check {p ni rest} : p.tooOld = ni :: rest → Step nm srt c p (p.checked ni rest)

/-- The states of a process, over all orders of calls. -/
def Reachable (nm : Naming) (srt : Sorter) (c : SendConf) (conf : Cleanup) : Process → Prop :=
  Relation.ReflTransGen (Step nm srt c) (Process.start conf)

/-! ## Proof of merge -/

/-- What came before the latest read. -/
def beforeRead : List Event → List Event
  | [] => []
  | .read :: h => h
  | _ :: h => beforeRead h

/-- A load at this time was completed, and then a snapshot was stored that had
been read after it. -/
def Merged (inst : Bytes) (ts : Time) (h : List Event) : Prop :=
  ∃ h', (.stored :: h') <:+ h ∧ .loaded inst ts ∈ beforeRead h'

/-- Whenever this snapshot was deleted as stale, it had been merged. -/
def Proven (ni : NameInfo) (p : Process) : Prop :=
  ∀ h, (.deleted ⟨.staleInstance, ni⟩ :: h) <:+ p.history →
    ∃ ts, ni.timestamp ≤ ts ∧ Merged ni.instanceID ts h

theorem Merged.mono {inst : Bytes} {ts : Time} {h h' : List Event} (hm : Merged inst ts h)
    (hs : h <:+ h') : Merged inst ts h' := by
  obtain ⟨h₁, hstored, hread⟩ := hm
  exact ⟨h₁, hstored.trans hs, hread⟩

/-- Deletions do not change what was read when. -/
theorem beforeRead_deletions (ds : List Deletion) (h : List Event) :
    beforeRead ((ds.map Event.deleted) ++ h) = beforeRead h := by
  induction ds with
  | nil => rfl
  | cons d ds ih => exact ih

/-- All the times in a map are those of loads of which something is known. -/
def Noted (last : Bytes → Option Time) (K : Bytes → Time → Prop) : Prop :=
  ∀ inst ts, last inst = some ts → K inst ts

theorem Noted.mono {last : Bytes → Option Time} {K K' : Bytes → Time → Prop}
    (h : Noted last K) (hK : ∀ inst ts, K inst ts → K' inst ts) : Noted last K' :=
  fun inst ts heq => hK inst ts (h inst ts heq)

/-- What the notes of the sync loop stand for, at every point. -/
def Pc.Knows (pc : Pc) (h : List Event) : Bytes → Time → Prop :=
  match pc with
  | .idle => fun inst ts => .loaded inst ts ∈ h
  | .loading _ _ => fun inst ts => .loaded inst ts ∈ h
  | .dumped => fun inst ts => .loaded inst ts ∈ beforeRead h
  | .storing _ => fun inst ts => .loaded inst ts ∈ beforeRead h
  | .stored => fun inst ts => Merged inst ts h

theorem beforeRead_subset {h : List Event} {e : Event} (he : e ∈ beforeRead h) : e ∈ h := by
  induction h with
  | nil => exact he
  | cons x h ih =>
      cases x with
      | read => exact List.mem_cons_of_mem _ he
      | _ => exact List.mem_cons_of_mem _ (ih he)

theorem Merged.loaded {inst : Bytes} {ts : Time} {h : List Event} (hm : Merged inst ts h) :
    .loaded inst ts ∈ h := by
  obtain ⟨h', hs, hread⟩ := hm
  exact hs.subset (List.mem_cons_of_mem _ (beforeRead_subset hread))

theorem Pc.Knows.loaded {pc : Pc} {h : List Event} {inst : Bytes} {ts : Time}
    (hk : pc.Knows h inst ts) : .loaded inst ts ∈ h := by
  cases pc with
  | idle => exact hk
  | loading _ _ => exact hk
  | dumped => exact beforeRead_subset hk
  | storing _ => exact beforeRead_subset hk
  | stored => exact Merged.loaded hk

theorem Pc.Knows.deletions {pc : Pc} {h : List Event} {inst : Bytes} {ts : Time}
    (hk : pc.Knows h inst ts) (ds : List Deletion) :
    pc.Knows (ds.map Event.deleted ++ h) inst ts := by
  cases pc with
  | idle => exact List.mem_append_right _ hk
  | loading _ _ => exact List.mem_append_right _ hk
  | dumped =>
      show _ ∈ beforeRead _
      rw [beforeRead_deletions]
      exact hk
  | storing _ =>
      show _ ∈ beforeRead _
      rw [beforeRead_deletions]
      exact hk
  | stored => exact Merged.mono hk (List.suffix_append _ _)

/-- The notes are true, and so was every removal that had a time to compare. -/
structure Sound (p : Process) : Prop where
  notes : Noted p.lastByInstance (p.pc.Knows p.history)
  committed : Noted p.worker.lastByInstance (fun inst ts => Merged inst ts p.history)
  proven : ∀ ni, zeroTime < ni.timestamp → Proven ni p

/-- An event other than a stale removal. -/
theorem Proven.cons {ni : NameInfo} {p p' : Process} {e : Event} (h : Proven ni p)
    (he : e ≠ .deleted ⟨.staleInstance, ni⟩) (hp : p'.history = e :: p.history) :
    Proven ni p' := by
  intro h' hs
  rw [hp] at hs
  rcases List.suffix_cons_iff.mp hs with heq | hs
  · exact absurd (List.cons.inj heq).1.symm he
  · exact h h' hs

theorem Proven.of_eq {ni : NameInfo} {p p' : Process} (h : Proven ni p)
    (hp : p'.history = p.history) : Proven ni p' := by
  intro h' hs
  rw [hp] at hs
  exact h h' hs

theorem Sound.goto {p : Process} (hs : Sound p) {pc : Pc}
    (hk : ∀ inst ts, p.pc.Knows p.history inst ts → pc.Knows p.history inst ts) :
    Sound (p.goto pc) :=
  ⟨hs.notes.mono hk, hs.committed, fun ni hni => (hs.proven ni hni).of_eq rfl⟩

/-- Superseded snapshots go without a proof of merge. -/
theorem Sound.listed {p : Process} (hs : Sound p) (nm : Naming) (srt : Sorter) (now : Time)
    (ls : Listing) : Sound (p.listed nm srt now ls) := by
  obtain ⟨l, hl⟩ : ∃ l, l = (sift p.worker nm srt now ls).2.1 := ⟨_, rfl⟩
  obtain ⟨ds, hds⟩ : ∃ ds : List Deletion, ds = (l.map (⟨.newerSnapshot, ·⟩)).reverse := ⟨_, rfl⟩
  have hh : (p.listed nm srt now ls).history = ds.map Event.deleted ++ p.history := by
    rw [hds, List.map_reverse, List.map_map, hl]
    rfl
  constructor
  · rw [hh]
    exact hs.notes.mono fun inst ts hk => hk.deletions ds
  · rw [hh]
    exact hs.committed.mono fun inst ts hk => hk.mono (List.suffix_append _ _)
  · intro ni hni
    have hstep : ∀ (ds : List Deletion) (h : List Event), (∀ d ∈ ds, d.reason = .newerSnapshot) →
        Event.deleted ⟨.staleInstance, ni⟩ :: h <:+ ds.map Event.deleted ++ p.history →
        Event.deleted ⟨.staleInstance, ni⟩ :: h <:+ p.history := by
      intro ds h hreason hsuf
      induction ds with
      | nil => exact hsuf
      | cons d ds ih =>
          rcases List.suffix_cons_iff.mp hsuf with heq | hsuf
          · have hd : (⟨.staleInstance, ni⟩ : Deletion) = d :=
              Event.deleted.inj (List.cons.inj heq).1
            have hr := hreason d List.mem_cons_self
            rw [← hd] at hr
            cases hr
          · exact ih (fun d hd => hreason d (List.mem_cons_of_mem _ hd)) hsuf
    intro h hsuf
    rw [hh] at hsuf
    refine hs.proven ni hni h (hstep ds h ?_ hsuf)
    intro d hd
    rw [hds, List.mem_reverse] at hd
    obtain ⟨m, -, rfl⟩ := List.mem_map.mp hd
    rfl

/-- What the check finds proven was merged, if its time is a time at all. -/
theorem Sound.checked {p : Process} (hs : Sound p) (ni : NameInfo) (rest : List NameInfo) :
    Sound (p.checked ni rest) := by
  unfold Process.checked
  cases hchk : mergeProven p.worker ni with
  | false => exact ⟨hs.notes, hs.committed, fun m hm => (hs.proven m hm).of_eq rfl⟩
  | true =>
      refine ⟨hs.notes.mono fun inst ts hk => hk.deletions [⟨.staleInstance, ni⟩],
        hs.committed.mono fun inst ts hk => hk.mono (List.suffix_cons _ _), ?_⟩
      intro m hm h hsuf
      rcases List.suffix_cons_iff.mp hsuf with heq | hsuf
      · obtain ⟨hd, rfl⟩ := List.cons.inj heq
        obtain rfl : m = ni := congrArg Deletion.snapshot (Event.deleted.inj hd)
        have hle : m.timestamp ≤ p.worker.getCommitted m.instanceID := by
          simpa [mergeProven] using hchk
        cases hc : p.worker.lastByInstance m.instanceID with
        | none =>
            rw [Worker.getCommitted, hc] at hle
            exact absurd hm (not_lt.mpr hle)
        | some ts =>
            rw [Worker.getCommitted, hc] at hle
            exact ⟨ts, hle, hs.committed m.instanceID ts hc⟩
      · exact hs.proven m hm h hsuf

theorem Step.sound {nm : Naming} {srt : Sorter} {c : SendConf} {p p' : Process}
    (h : Step nm srt c p p') (hs : Sound p) : Sound p' := by
  cases h with
  | loadTxn inst ts hpc => exact hs.goto fun _ _ hk => hk.loaded
  | @loadReturn inst ts hpc =>
      refine ⟨?_, hs.committed.mono fun _ _ hk => hk.mono (List.suffix_cons _ _),
        fun ni hni => (hs.proven ni hni).cons (by simp) rfl⟩
      intro inst' ts' heq
      change Function.update p.lastByInstance inst (some ts) inst' = some ts' at heq
      show _ ∈ _ :: _
      by_cases hi : inst' = inst
      · rw [hi, Function.update_self] at heq
        rw [hi, Option.some.inj heq]
        exact List.mem_cons_self
      · rw [Function.update_of_ne hi] at heq
        exact List.mem_cons_of_mem _ (hs.notes inst' ts' heq).loaded
  | loadFail hpc => exact hs.goto fun _ _ hk => hk.loaded
  | sendTxn hpc =>
      exact ⟨hs.notes.mono fun _ _ hk => hk.loaded,
        hs.committed.mono fun _ _ hk => hk.mono (List.suffix_cons _ _),
        fun ni hni => (hs.proven ni hni).cons (by simp) rfl⟩
  | sendSkip hpc => exact hs.goto fun _ _ hk => hk.loaded
  | dump hpc _ =>
      apply hs.goto
      rw [hpc]
      exact fun _ _ hk => hk
  | storeFail hpc _ =>
      apply hs.goto
      rw [hpc]
      exact fun _ _ hk => hk
  | store hpc _ =>
      refine ⟨?_, hs.committed.mono fun _ _ hk => hk.mono (List.suffix_cons _ _),
        fun ni hni => (hs.proven ni hni).cons (by simp) rfl⟩
      have hnotes := hs.notes
      rw [hpc] at hnotes
      exact hnotes.mono fun inst ts hk => ⟨p.history, List.suffix_rfl, hk⟩
  | giveUp hpc => exact hs.goto fun _ _ hk => hk.loaded
  | noRound hpc hno => exact absurd (Or.inl c.retryCount_pos) hno
  | sendReturn hpc =>
      have hnotes := hs.notes
      rw [hpc] at hnotes
      refine ⟨hnotes.mono fun _ _ hk => Merged.loaded hk, ?_,
        fun ni hni => (hs.proven ni hni).of_eq rfl⟩
      intro inst ts heq
      rcases Option.or_eq_some_iff.mp heq with heq | ⟨-, heq⟩
      · exact hnotes inst ts heq
      · exact hs.committed inst ts heq
  | list now ls _ _ => exact hs.listed nm srt now ls
  | check _ => exact hs.checked _ _

theorem sound_start (conf : Cleanup) : Sound (Process.start conf) := by
  refine ⟨fun _ _ h => ?_, fun _ _ h => ?_, fun ni _ h hs => ?_⟩
  · cases h
  · cases h
  · exact absurd (List.suffix_nil.mp hs) (by simp)

theorem Reachable.sound {nm : Naming} {srt : Sorter} {c : SendConf} {conf : Cleanup}
    {p : Process} (h : Reachable nm srt c conf p) : Sound p := by
  induction h with
  | refl => exact sound_start conf
  | tail _ hstep ih => exact hstep.sound ih

/-! ## RunOnce without interruption -/

/-- The rounds of the last loop, if nothing comes between them. -/
theorem run_checks (nm : Naming) (srt : Sorter) (c : SendConf) (p : Process) :
    Relation.ReflTransGen (Step nm srt c) p
      { p with
        tooOld := []
        history := ((p.tooOld.filter (mergeProven p.worker)).map fun ni =>
          .deleted ⟨.staleInstance, ni⟩).reverse ++ p.history } := by
  obtain ⟨l, hl⟩ : ∃ l, l = p.tooOld := ⟨_, rfl⟩
  induction l generalizing p with
  | nil =>
      obtain ⟨pc, last, w, tooOld, h⟩ := p
      obtain rfl : [] = tooOld := hl
      exact Relation.ReflTransGen.refl
  | cons ni rest ih =>
      refine Relation.ReflTransGen.head (Step.check hl.symm) ?_
      have hrun := ih (p.checked ni rest) rfl
      rw [← hl]
      cases hchk : mergeProven p.worker ni with
      | true =>
          rw [List.filter_cons_of_pos hchk]
          simpa [Process.checked, hchk] using hrun
      | false =>
          rw [List.filter_cons_of_neg (by simp [hchk])]
          simpa [Process.checked, hchk] using hrun

/-- **The steps of the cleaner are those of `RunOnce`.** -/
theorem run_runOnce (nm : Naming) (srt : Sorter) (c : SendConf) {p : Process}
    (hidle : p.tooOld = []) (hen : p.worker.conf.enabled = true) (now : Time) (ls : Listing) :
    Relation.ReflTransGen (Step nm srt c) p
      { p with
        worker := (p.worker.runOnce nm srt now (some ls)).1
        history := ((p.worker.runOnce nm srt now (some ls)).2.map Event.deleted).reverse ++
          p.history } := by
  refine Relation.ReflTransGen.head (Step.list now ls hidle hen) ?_
  have hrun := run_checks nm srt c (p.listed nm srt now ls)
  obtain ⟨pc, last, w, tooOld, h⟩ := p
  obtain rfl : tooOld = [] := hidle
  rw [runOnce_eq hen]
  -- the first part of `RunOnce` leaves alone what the checks read
  have hchk : mergeProven (sift w nm srt now ls).1 = mergeProven w := rfl
  simpa [Process.listed, List.map_map, Function.comp_def, hchk] using hrun

/-! ## The zero time -/

/-- Nothing is proven where nothing was stored. -/
theorem not_merged {inst : Bytes} {ts : Time} {h : List Event} (hno : .stored ∉ h) :
    ¬ Merged inst ts h := by
  rintro ⟨h', hs, -⟩
  exact hno (hs.subset List.mem_cons_self)

theorem sift_single {nm : Naming} (srt : Sorter) {name : Bytes} {ni : NameInfo}
    (h : snapshotOf nm name = some ni) {w : Worker} (hw : w.ignoredFilenames name = false)
    (now : Time) {ls : Listing} (hls : ls.names = [name]) :
    sift w nm srt now ls =
      let r := protectRecent w.conf now [ni]
        (fun n => if n = name then w.snapFirstSeen n else none) (fun _ => false)
      ({ w with ignoredFilenames := w.ignored nm [name], snapFirstSeen := r.1 },
        keepNewest w.conf now r.2.2 r.2.1) := by
  have hcand : w.candidates nm [name] = [ni] := by
    simp [Worker.candidates, hw, h]
  have hsort : srt.sort [ni] = [ni] := List.perm_singleton.mp (srt.perm [ni])
  unfold sift
  simp only [hls, hcand, hsort, List.map_cons, List.map_nil, List.mem_singleton,
    snapshotOf_fullName h]

/-- A snapshot that nobody has merged, alone in the storage, is deleted by the
second run if its time is not after the zero time. -/
theorem removed_unproven (nm : Naming) (srt : Sorter) (c : SendConf) {name : Bytes}
    {ni : NameInfo} (h : snapshotOf nm name = some ni) (hts : ni.timestamp ≤ zeroTime) :
    ∃ p, Reachable nm srt c sampleConf p ∧ ¬ Proven ni p := by
  obtain ⟨ls, hls⟩ : ∃ ls : Listing, ls.names = [name] := ⟨⟨[name], by simp⟩, rfl⟩
  have hname := snapshotOf_fullName h
  have hvalid : isInvalid nm name = false := by
    unfold snapshotOf at h
    unfold isInvalid
    split at h
    · cases h
    · rfl
  -- the first run notes when it saw the file
  obtain ⟨w, hw⟩ :
      ∃ w, w = ((Worker.new sampleConf).runOnce nm srt sampleStart (some ls)).1 := ⟨_, rfl⟩
  have hfirst : (Worker.new sampleConf).runOnce nm srt sampleStart (some ls) = (w, []) ∧
      w.conf = sampleConf ∧ w.ignoredFilenames name = false ∧
      w.snapFirstSeen name = some sampleStart ∧ w.lastByInstance = fun _ => none := by
    rw [runOnce_eq (by rfl), sift_single srt h (by rfl) sampleStart hls] at hw ⊢
    rw [hw]
    simp [protectRecent, hname, keepNewest, Worker.new, Worker.ignored, hvalid]
  obtain ⟨hrun, hconf, hign, hseen, hlast⟩ := hfirst
  -- the second one finds it old
  obtain ⟨now, hnow⟩ : ∃ now, now = sampleStart + 3600 * 10 ^ 9 := ⟨_, rfl⟩
  have hsettled : ¬ now.sub sampleStart ≤ sampleConf.mustKeepInterval := by
    rw [hnow]
    decide
  have hold : sampleConf.removeOldInstancesInterval < now.sub ni.timestamp := by
    rw [hnow]
    refine lt_max_of_lt_right (lt_min (by decide) ?_)
    exact lt_of_lt_of_le (by decide) (sub_le_sub_left hts _)
  have hsecond : (w.runOnce nm srt now (some ls)).2 = [⟨.staleInstance, ni⟩] := by
    rw [runOnce_eq (by rw [hconf]; rfl), sift_single srt h hign now hls]
    have hproven : mergeProven w ni = true := by
      simpa [mergeProven, Worker.getCommitted, hlast] using hts
    simp [protectRecent, hname, hseen, hconf, keepNewest, hsettled, hold, hproven]
  obtain ⟨p, hp⟩ : ∃ p, p = { Process.start sampleConf with worker := w } := ⟨_, rfl⟩
  have h1 : Relation.ReflTransGen (Step nm srt c) (Process.start sampleConf) p := by
    have hstart := run_runOnce nm srt c (p := Process.start sampleConf) rfl rfl sampleStart ls
    rw [show (Process.start sampleConf).worker = Worker.new sampleConf from rfl, hrun] at hstart
    rw [hp]
    exact hstart
  have h2 := run_runOnce nm srt c (p := p) (by rw [hp]; rfl) (by rw [hp, hconf]; rfl) now ls
  refine ⟨_, h1.trans h2, fun hproven => ?_⟩
  obtain ⟨ts, -, hmerged⟩ := hproven [] (by simp [hp, hsecond, Process.start])
  exact not_merged (by simp) hmerged

/-- **A stale instance goes only after a proven merge, exactly if its time is one
that the zero time does not stand for.** -/
theorem stale_removal_proven_iff (nm : Naming) (srt : Sorter) (c : SendConf) {name : Bytes}
    {ni : NameInfo} (h : snapshotOf nm name = some ni) :
    (∀ conf p, Reachable nm srt c conf p → Proven ni p) ↔ zeroTime < ni.timestamp := by
  constructor
  · intro hall
    by_contra hts
    obtain ⟨p, hr, hno⟩ := removed_unproven nm srt c h (not_lt.mp hts)
    exact hno (hall sampleConf p hr)
  · intro hts conf p hr
    exact hr.sound.proven ni hts

def defaultSend : SendConf := ⟨false, 100, false, by decide⟩

theorem stale_removal_proven_sample :
    ∃ ni, snapshotOf defaultNaming newerFile = some ni ∧
      ∀ conf p, Reachable defaultNaming insertionSorter defaultSend conf p → Proven ni p := by
  obtain ⟨ni, hni, hts⟩ : ∃ ni, snapshotOf defaultNaming newerFile = some ni ∧
      zeroTime < ni.timestamp := ⟨_, rfl, by decide⟩
  exact ⟨ni, hni, (stale_removal_proven_iff defaultNaming insertionSorter defaultSend hni).mpr hts⟩

/-- A snapshot dated to the zero time. -/
def zeroFile : Bytes := ascii "db__a__00010101-000000-000000000__G1.pb.gz"

/-- It is removed by a process that has loaded and stored nothing. -/
theorem zero_removed_unproven :
    ∃ ni p, snapshotOf defaultNaming zeroFile = some ni ∧
      Reachable defaultNaming insertionSorter defaultSend sampleConf p ∧ ¬ Proven ni p := by
  obtain ⟨ni, hni, hts⟩ : ∃ ni, snapshotOf defaultNaming zeroFile = some ni ∧
      ni.timestamp ≤ zeroTime := ⟨_, rfl, by decide⟩
  obtain ⟨p, hr, hno⟩ := removed_unproven defaultNaming insertionSorter defaultSend hni hts
  exact ⟨ni, p, hni, hr, hno⟩

end LightningStream.Syncer.Committed
