import LightningStream.Base.Runs
import LightningStream.Cleaner

/-!
# The receiver and its downloaders

`RunOnce` lists the storage, replaces the map of the latest snapshots, and wakes
a downloader for each instance whose latest snapshot is not the one it was last
woken for. A downloader, one for each instance, waits for such a signal, looks
up what the latest snapshot is by then, and loads it unless it was the last one
it dealt with.

All of this runs concurrently. A step of the machine below is what happens under
one lock or on one channel; between any two steps of a goroutine the others may
move. Listings, the time of each step and the outcome of each load are open.
-/

namespace LightningStream

open Snapshot Cleaner

variable {υ : Type}

/-! ## State -/

namespace Receiver

/-- A map from instances to snapshots, as the list of the assignments made to
it: a later one overwrites. -/
def lookup (l : List NameInfo) (inst : Bytes) : Option NameInfo :=
  l.reverse.find? fun ni => decide (ni.instanceID = inst)

/-- The keys of such a map. -/
def instances (l : List NameInfo) : Finset Bytes := (l.map NameInfo.instanceID).toFinset

/-- `FullName` of a map's value, or of the zero `NameInfo`. -/
def nameOf : Option NameInfo → Bytes
  | none => []
  | some ni => ni.fullName

/-- Where the goroutine of a downloader is. -/
inductive Phase
  /-- In the `select`. -/
  | waiting
  /-- In the retry loop, about to look up the latest snapshot. -/
  | checking
  | loading (ni : NameInfo)
deriving DecidableEq

structure Downloader where
  phase : Phase
  last : Option NameInfo
  /-- The channel of capacity 1 holds a signal. -/
  newSnapshotSignal : Bool
deriving DecidableEq

def Downloader.new : Downloader := ⟨.waiting, none, false⟩

/-- Where the goroutine of `RunOnce` is. -/
inductive Pc
  | idle
  /-- The listing has been read. -/
  | listed (includingOwn : Bool) (usable : List NameInfo)
  /-- In the loop over the map, in any order. -/
  | notifying (includingOwn : Bool) (todo : Finset Bytes)

end Receiver

structure Receiver (υ : Type) where
  ownInstance : Bytes
  lastNotifiedByInstance : Bytes → Option NameInfo
  ignoredFilenames : Bytes → Bool
  snapshotsByInstance : Bytes → Option (NameInfo × υ)
  lastSeenByInstance : List NameInfo
  downloadersByInstance : Bytes → Option Receiver.Downloader
  corruptSnapshots : Bytes → Bool
  /-- The first `RunOnce`, the one including our own instance, has listed. -/
  started : Bool
  pc : Receiver.Pc

namespace Receiver

def new (υ : Type) (own : Bytes) : Receiver υ :=
  ⟨own, fun _ => none, fun _ => false, fun _ => none, [], fun _ => none, fun _ => false, false,
    .idle⟩

section Steps

variable (r : Receiver υ)

def hasSnapshots : Bool := !r.lastSeenByInstance.isEmpty

def seenInstances : Finset Bytes := instances r.lastSeenByInstance

/-! ## RunOnce -/

/-- The names ignored once the corrupt snapshots are added to them. -/
def ignoring (name : Bytes) : Bool := r.ignoredFilenames name || r.corruptSnapshots name

/-- The snapshots in a listing that `RunOnce` takes notice of. -/
def usable (nm : Naming) (names : List Bytes) : List NameInfo :=
  names.filterMap fun name => if r.ignoring name then none else snapshotOf nm name

/-- `List`, and the loop over the names. -/
def list (nm : Naming) (names : List Bytes) : Receiver υ :=
  { r with
    ignoredFilenames := fun name =>
      r.ignoring name || (decide (name ∈ names) && isInvalid nm name)
    started := true
    pc := .listed (!r.started) (r.usable nm names) }

/-- The map is replaced. -/
def publish (includingOwn : Bool) (usable : List NameInfo) : Receiver υ :=
  { r with
    lastSeenByInstance := usable
    pc := .notifying includingOwn (instances usable) }

/-- No signal is due for this snapshot: it is the last one notified, or our own. -/
def PassesOver (includingOwn : Bool) (inst : Bytes) (ni : NameInfo) : Prop :=
  ni.fullName = nameOf (r.lastNotifiedByInstance inst) ∨
    (includingOwn = false ∧ inst = r.ownInstance)

instance (includingOwn : Bool) (inst : Bytes) (ni : NameInfo) :
    Decidable (r.PassesOver includingOwn inst ni) :=
  inferInstanceAs (Decidable (_ ∨ _))

def setDownloader (inst : Bytes) (d : Downloader) : Receiver υ :=
  { r with downloadersByInstance := Function.update r.downloadersByInstance inst (some d) }

/-- `getDownloader` and `NotifyNewSnapshot`. -/
def notify (inst : Bytes) : Receiver υ :=
  r.setDownloader inst
    { (r.downloadersByInstance inst).getD Downloader.new with newSnapshotSignal := true }

/-- One round of the loop over the map. -/
def consider (includingOwn : Bool) (todo : Finset Bytes) (inst : Bytes) (ni : NameInfo) :
    Receiver υ :=
  let r' := { r with pc := .notifying includingOwn (todo.erase inst) }
  if r.PassesOver includingOwn inst ni then r'
  else { r'.notify inst with
    lastNotifiedByInstance := Function.update r.lastNotifiedByInstance inst (some ni) }

/-! ## Downloaders -/

/-- The signal is received. -/
def wake (inst : Bytes) (d : Downloader) : Receiver υ :=
  r.setDownloader inst { d with phase := .checking, newSnapshotSignal := false }

/-- The start of a round of the retry loop. -/
def look (inst : Bytes) (d : Downloader) : Receiver υ :=
  match lookup r.lastSeenByInstance inst with
  | none => r.setDownloader inst { d with phase := .waiting }
  | some ni =>
      if ni.fullName = nameOf d.last then r.setDownloader inst { d with phase := .waiting }
      else r.setDownloader inst { d with phase := .loading ni }

/-- The blob cannot be fetched. After a sleep the loop starts over. -/
def loadFailed (inst : Bytes) (d : Downloader) : Receiver υ :=
  r.setDownloader inst { d with phase := .checking }

/-- The blob is not a snapshot: `MarkCorrupt`, and on to the next round. -/
def loadCorrupt (inst : Bytes) (d : Downloader) (ni : NameInfo) : Receiver υ :=
  { r.setDownloader inst { d with phase := .checking, last := some ni } with
    corruptSnapshots := Function.update r.corruptSnapshots ni.fullName true }

/-- The snapshot is made available to the syncer. -/
def loadOk (inst : Bytes) (d : Downloader) (ni : NameInfo) (snap : υ) : Receiver υ :=
  { r.setDownloader inst { d with phase := .waiting, last := some ni } with
    snapshotsByInstance := Function.update r.snapshotsByInstance inst (some (ni, snap)) }

/-- `Next` hands a snapshot to the syncer. -/
def take (inst : Bytes) : Receiver υ :=
  { r with snapshotsByInstance := Function.update r.snapshotsByInstance inst none }

end Steps

/-- The steps that a condition on runs, or a system around the receiver, refers to. -/
inductive Event
  | list (names : List Bytes)
  | publish
  | take (inst : Bytes)
  | other
deriving DecidableEq

/-- One step of `RunOnce`, of a downloader, or of the syncer taking a snapshot. A
listing that fails changes nothing. -/
inductive Step (nm : Naming) : Receiver υ → Event → Receiver υ → Prop
  | list {r} (names) : r.pc = .idle → Step nm r (.list names) (r.list nm names)
  | publish {r includingOwn usable} : r.pc = .listed includingOwn usable →
      Step nm r .publish (r.publish includingOwn usable)
  | consider {r includingOwn todo inst ni} : r.pc = .notifying includingOwn todo →
      inst ∈ todo → lookup r.lastSeenByInstance inst = some ni →
      Step nm r .other (r.consider includingOwn todo inst ni)
  | finish {r includingOwn} : r.pc = .notifying includingOwn ∅ →
      Step nm r .other { r with pc := .idle }
  | wake {r inst d} : r.downloadersByInstance inst = some d → d.phase = .waiting →
      d.newSnapshotSignal = true → Step nm r .other (r.wake inst d)
  | look {r inst d} : r.downloadersByInstance inst = some d → d.phase = .checking →
      Step nm r .other (r.look inst d)
  | loadFailed {r inst d ni} : r.downloadersByInstance inst = some d →
      d.phase = .loading ni → Step nm r .other (r.loadFailed inst d)
  | loadCorrupt {r inst d ni} : r.downloadersByInstance inst = some d →
      d.phase = .loading ni → Step nm r .other (r.loadCorrupt inst d ni)
  | loadOk {r inst d ni} (snap) : r.downloadersByInstance inst = some d →
      d.phase = .loading ni → Step nm r .other (r.loadOk inst d ni snap)
  | take {r inst} : r.snapshotsByInstance inst ≠ none → Step nm r (.take inst) (r.take inst)

theorem mem_instances {l : List NameInfo} {inst : Bytes} :
    inst ∈ instances l ↔ ∃ ni ∈ l, ni.instanceID = inst := by
  simp [instances]

theorem lookup_ne_none {l : List NameInfo} {inst : Bytes} :
    lookup l inst ≠ none ↔ inst ∈ instances l := by
  rw [mem_instances, lookup, ne_eq, List.find?_eq_none]
  simp

/-! ## Signals -/

/-- Nothing for this instance is forgotten: between two calls of `RunOnce`, its
downloader does not sleep without a signal while there is a snapshot, not known
to be corrupt, other than the last one it has dealt with. -/
def Attended (inst : Bytes) (r : Receiver υ) : Prop :=
  r.pc = .idle → ∀ d ni, r.downloadersByInstance inst = some d →
    lookup r.lastSeenByInstance inst = some ni → r.corruptSnapshots ni.fullName = false →
    ni.fullName ≠ nameOf d.last → ¬ (d.phase = .waiting ∧ d.newSnapshotSignal = false)

/-- `RunOnce` passes over a snapshot of the instance only if the map already had
it before. -/
def InSight (inst : Bytes) (r : Receiver υ) (e : Event) : Prop :=
  e = .publish → ∀ includingOwn usable, r.pc = .listed includingOwn usable →
    ∀ ni, lookup usable inst = some ni → r.PassesOver includingOwn inst ni →
      ∃ ni', lookup r.lastSeenByInstance inst = some ni' ∧ ni'.fullName = ni.fullName

/-- `RunOnce` is on its way to notify the instance of this snapshot. -/
def Due (inst : Bytes) (ni : NameInfo) (r : Receiver υ) : Prop :=
  ∃ includingOwn todo, r.pc = .notifying includingOwn todo ∧ inst ∈ todo ∧
    ¬ r.PassesOver includingOwn inst ni

/-- What the latest snapshot is to the downloader, by where that is. -/
def Minds (inst : Bytes) (d : Downloader) (ni : NameInfo) (r : Receiver υ) : Prop :=
  match d.phase with
  | .waiting => r.corruptSnapshots ni.fullName = true ∨ ni.fullName = nameOf d.last ∨
      d.newSnapshotSignal = true ∨ Due inst ni r
  | .checking => True
  | .loading x => ni.fullName = x.fullName ∨ d.newSnapshotSignal = true ∨ Due inst ni r

def Mindful (inst : Bytes) (r : Receiver υ) : Prop :=
  ∀ d ni, r.downloadersByInstance inst = some d → lookup r.lastSeenByInstance inst = some ni →
    Minds inst d ni r

section Signals

variable {inst : Bytes} {d : Downloader} {ni : NameInfo} {r r' : Receiver υ}

theorem minds_of_signal (h : d.newSnapshotSignal = true) : Minds inst d ni r := by
  unfold Minds
  split
  · exact Or.inr (Or.inr (Or.inl h))
  · trivial
  · exact Or.inr (Or.inl h)

/-- What is due makes up for anything. -/
theorem minds_of_due (h : Due inst ni r) : Minds inst d ni r := by
  unfold Minds
  split
  · exact Or.inr (Or.inr (Or.inr h))
  · trivial
  · exact Or.inr (Or.inr h)

/-- The snapshot may be another one of the same name, corrupt files stay so, and
what is due stays due or gets a signal. -/
theorem Minds.mono {ni' : NameInfo} (h : Minds inst d ni r) (hname : ni'.fullName = ni.fullName)
    (hc : ∀ name, r.corruptSnapshots name = true → r'.corruptSnapshots name = true)
    (hdue : Due inst ni r → Due inst ni' r') : Minds inst d ni' r' := by
  unfold Minds at h ⊢
  split
  · rename_i hphase
    rw [hphase] at h
    rw [hname]
    exact h.imp (hc _) (Or.imp_right (Or.imp_right hdue))
  · trivial
  · rename_i x hphase
    rw [hphase] at h
    rw [hname]
    exact h.imp_right (Or.imp_right hdue)

/-- Steps that leave the map, the instance's downloader and what is due alone. -/
theorem Mindful.mono (h : Mindful inst r)
    (hd : r'.downloadersByInstance inst = r.downloadersByInstance inst)
    (hseen : r'.lastSeenByInstance = r.lastSeenByInstance)
    (hc : ∀ name, r.corruptSnapshots name = true → r'.corruptSnapshots name = true)
    (hdue : ∀ ni, Due inst ni r → Due inst ni r') : Mindful inst r' := by
  intro d ni hd' hni
  rw [hd] at hd'
  rw [hseen] at hni
  exact (h d ni hd' hni).mono rfl hc (hdue ni)

/-- A step of a downloader. Only its own instance is concerned. -/
theorem Mindful.downloader (h : Mindful inst r) {i : Bytes} {d' : Downloader}
    (hd : r'.downloadersByInstance = Function.update r.downloadersByInstance i (some d'))
    (hseen : r'.lastSeenByInstance = r.lastSeenByInstance)
    (hc : ∀ name, r.corruptSnapshots name = true → r'.corruptSnapshots name = true)
    (hdue : ∀ ni, Due inst ni r → Due inst ni r')
    (hown : i = inst → ∀ ni, lookup r.lastSeenByInstance inst = some ni → Minds inst d' ni r') :
    Mindful inst r' := by
  by_cases hi : i = inst
  · intro d ni hd' hni
    rw [hd, hi, Function.update_self] at hd'
    obtain rfl := Option.some.inj hd'
    rw [hseen] at hni
    exact hown hi ni hni
  · exact h.mono (by rw [hd, Function.update_of_ne (Ne.symm hi)]) hseen hc hdue

theorem Mindful.publish (h : Mindful inst r) {includingOwn : Bool} {usable : List NameInfo}
    (hpc : r.pc = .listed includingOwn usable) (hsight : InSight inst r .publish) :
    Mindful inst (r.publish includingOwn usable) := by
  intro d ni hd hni
  change lookup usable inst = some ni at hni
  by_cases hover : r.PassesOver includingOwn inst ni
  · -- the map had it before, and nothing was due then
    obtain ⟨ni', hni', hname⟩ := hsight rfl includingOwn usable hpc ni hni hover
    refine (h d ni' hd hni').mono hname.symm (fun _ hc => hc) ?_
    rintro ⟨inc, todo, hpc', -⟩
    rw [hpc] at hpc'
    cases hpc'
  · apply minds_of_due
    refine ⟨includingOwn, instances usable, rfl, lookup_ne_none.mp ?_, hover⟩
    rw [hni]
    exact Option.some_ne_none ni

theorem Mindful.consider (h : Mindful inst r) {includingOwn : Bool} {todo : Finset Bytes}
    {i : Bytes} {x : NameInfo} (hpc : r.pc = .notifying includingOwn todo)
    (hx : lookup r.lastSeenByInstance i = some x) :
    Mindful inst (r.consider includingOwn todo i x) := by
  -- what is due to another instance is still to come
  have hother : i ≠ inst → ∀ (f : Bytes → Option NameInfo) (g : Bytes → Option Downloader),
      f inst = r.lastNotifiedByInstance inst → ∀ ni, Due inst ni r →
      Due inst ni { r with
        pc := .notifying includingOwn (todo.erase i)
        lastNotifiedByInstance := f
        downloadersByInstance := g } := by
    rintro hi f g hf ni ⟨inc, todo', hpc', hmem, hover⟩
    rw [hpc] at hpc'
    obtain ⟨rfl, rfl⟩ := Pc.notifying.inj hpc'
    refine ⟨_, _, rfl, Finset.mem_erase.mpr ⟨Ne.symm hi, hmem⟩, ?_⟩
    unfold Receiver.PassesOver at hover ⊢
    simpa only [hf] using hover
  unfold Receiver.consider
  by_cases hover : r.PassesOver includingOwn i x
  · rw [if_pos hover]
    by_cases hi : i = inst
    · intro d ni hd hni
      refine (h d ni hd hni).mono rfl (fun _ hc => hc) ?_
      rintro ⟨inc, todo', hpc', -, hno⟩
      rw [hpc] at hpc'
      obtain ⟨rfl, rfl⟩ := Pc.notifying.inj hpc'
      rw [hi] at hx hover
      rw [hx] at hni
      obtain rfl := Option.some.inj hni
      exact absurd hover hno
    · exact h.mono rfl rfl (fun _ hc => hc) (hother hi _ _ rfl)
  · rw [if_neg hover]
    by_cases hi : i = inst
    · intro d ni hd hni
      change Function.update r.downloadersByInstance i _ inst = some d at hd
      rw [hi, Function.update_self] at hd
      apply minds_of_signal
      rw [← Option.some.inj hd]
    · refine h.mono ?_ rfl (fun _ hc => hc) (hother hi _ _ ?_)
      · exact Function.update_of_ne (Ne.symm hi) _ _
      · exact Function.update_of_ne (Ne.symm hi) _ _

theorem Mindful.look (h : Mindful inst r) (i : Bytes) (d : Downloader) :
    Mindful inst (r.look i d) := by
  have hset : ∀ p, (i = inst → ∀ ni, lookup r.lastSeenByInstance inst = some ni →
      Minds inst { d with phase := p } ni r) →
    Mindful inst (r.setDownloader i { d with phase := p }) :=
    fun p hp => h.downloader rfl rfl (fun _ hc => hc) (fun _ hdue => hdue) hp
  unfold Receiver.look
  cases hni : lookup r.lastSeenByInstance i with
  | none =>
      refine hset _ fun hi ni hni' => ?_
      rw [← hi, hni] at hni'
      cases hni'
  | some ni =>
      simp only
      by_cases hlast : ni.fullName = nameOf d.last
      · rw [if_pos hlast]
        refine hset _ fun hi ni' hni' => ?_
        rw [← hi, hni] at hni'
        obtain rfl := Option.some.inj hni'
        exact Or.inr (Or.inl hlast)
      · rw [if_neg hlast]
        refine hset _ fun hi ni' hni' => ?_
        rw [← hi, hni] at hni'
        obtain rfl := Option.some.inj hni'
        exact Or.inl rfl

/-- **One step keeps the downloader mindful**, if `RunOnce` passes over nothing that
it brings back. -/
theorem Step.mindful {nm : Naming} {e : Event} (hstep : Step nm r e r')
    (hsight : InSight inst r e) (h : Mindful inst r) : Mindful inst r' := by
  cases hstep with
  | list names hpc =>
      refine h.mono rfl rfl (fun _ hc => hc) ?_
      rintro ni ⟨inc, todo, hpc', -⟩
      rw [hpc] at hpc'
      cases hpc'
  | publish hpc => exact h.publish hpc hsight
  | consider hpc _ hx => exact h.consider hpc hx
  | finish hpc =>
      refine h.mono rfl rfl (fun _ hc => hc) ?_
      rintro ni ⟨inc, todo, hpc', hmem, -⟩
      rw [hpc] at hpc'
      obtain ⟨-, rfl⟩ := Pc.notifying.inj hpc'
      exact absurd hmem (Finset.notMem_empty inst)
  | wake hd _ _ =>
      exact h.downloader rfl rfl (fun _ hc => hc) (fun _ hdue => hdue) fun _ _ _ => trivial
  | look hd _ => exact h.look _ _
  | loadFailed hd _ =>
      exact h.downloader rfl rfl (fun _ hc => hc) (fun _ hdue => hdue) fun _ _ _ => trivial
  | @loadCorrupt i d ni hd _ =>
      refine h.downloader rfl rfl ?_ (fun _ hdue => hdue) fun _ _ _ => trivial
      intro name hc
      by_cases hname : name = ni.fullName
      · exact hname ▸ Function.update_self _ _ _
      · exact (Function.update_of_ne hname _ _).trans hc
  | @loadOk i d ni snap hd hphase =>
      refine h.downloader rfl rfl (fun _ hc => hc) (fun _ hdue => hdue) fun hi ni' hni' => ?_
      have hminds := h d ni' (hi ▸ hd) hni'
      unfold Minds at hminds
      rw [hphase] at hminds
      exact Or.inr hminds
  | take _ => exact h.mono rfl rfl (fun _ hc => hc) (fun _ hdue => hdue)

theorem Mindful.attended (h : Mindful inst r) : Attended inst r := by
  rintro hpc d ni hd hni hc hlast ⟨hphase, hsignal⟩
  have hminds := h d ni hd hni
  unfold Minds at hminds
  rw [hphase] at hminds
  rcases hminds with hc' | hlast' | hsignal' | ⟨inc, todo, hpc', -⟩
  · simp [hc] at hc'
  · exact hlast hlast'
  · simp [hsignal] at hsignal'
  · rw [hpc] at hpc'
    cases hpc'

end Signals

/-- **No wake-up of an instance is missed** in a run that passes over no snapshot of
it that it brings back. -/
theorem no_missed_wakeup (nm : Naming) (own inst : Bytes) {r : Receiver υ}
    (hr : RunsUnder (Step nm) (InSight inst) (Receiver.new υ own) r) : Attended inst r := by
  have h0 : Mindful inst (Receiver.new υ own) := by
    intro d ni hd
    cases hd
  exact (hr.invariant (fun hstep hsight h => hstep.mindful hsight h) h0).attended

/-! ### Lost and found -/

section LostAndFound

variable {nm : Naming} {r : Receiver υ}

/-- The runs without a condition. -/
def Reaches (nm : Naming) : Receiver υ → Receiver υ → Prop :=
  RunsUnder (Step nm) fun _ _ => True

/-- `RunOnce` on a listing with a single snapshot. -/
theorem runs_single {P : Receiver υ → Event → Prop} {names : List Bytes} {ni : NameInfo}
    (hpc : r.pc = .idle) (hus : r.usable nm names = [ni])
    (hP : ∀ r e, e ≠ .publish → P r e) (hpub : P (r.list nm names) .publish) :
    RunsUnder (Step nm) P r
      { ((r.list nm names).publish (!r.started) [ni]).consider (!r.started) {ni.instanceID}
        ni.instanceID ni with pc := .idle } := by
  have hlisted : (r.list nm names).pc = .listed (!r.started) [ni] := by
    unfold Receiver.list
    rw [hus]
  have hseen : lookup [ni] ni.instanceID = some ni := by simp [lookup]
  have hdone : (((r.list nm names).publish (!r.started) [ni]).consider (!r.started)
      {ni.instanceID} ni.instanceID ni).pc = .notifying (!r.started) ∅ := by
    unfold Receiver.consider
    split
    · simp
    · simp [Receiver.notify, Receiver.setDownloader]
  have h₁ : RunsUnder (Step nm) P r (r.list nm names) :=
    (RunsUnder.refl r).snoc (Step.list names hpc) (hP _ _ (by simp))
  have h₂ := h₁.snoc (Step.publish hlisted) hpub
  have h₃ := h₂.snoc (Step.consider rfl (Finset.mem_singleton_self _) hseen) (hP _ _ (by simp))
  exact h₃.snoc (Step.finish hdone) (hP _ _ (by simp))

theorem reaches_empty (hpc : r.pc = .idle) :
    Reaches nm r { (r.list nm []).publish (!r.started) [] with pc := .idle } :=
  RunsUnder.snoc (RunsUnder.snoc (RunsUnder.snoc (RunsUnder.refl r)
    (Step.list [] hpc) trivial) (Step.publish rfl) trivial)
    (Step.finish rfl) trivial

/-- Between two calls of `RunOnce`, with the file notified and not ignored. -/
structure Rests (name : Bytes) (ni : NameInfo) (d : Downloader) (r : Receiver υ) : Prop where
  pc : r.pc = .idle
  downloader : r.downloadersByInstance ni.instanceID = some d
  notified : r.lastNotifiedByInstance ni.instanceID = some ni
  ignored : r.ignoredFilenames name = false
  corrupt : ∀ name, r.corruptSnapshots name = false

variable {name : Bytes} {ni : NameInfo} {d : Downloader}

theorem Rests.usable (hr : Rests name ni d r) (h : snapshotOf nm name = some ni) :
    r.usable nm [name] = [ni] := by
  simp [Receiver.usable, Receiver.ignoring, hr.ignored, hr.corrupt, h]

theorem not_invalid (h : snapshotOf nm name = some ni) : isInvalid nm name = false := by
  unfold snapshotOf at h
  unfold isInvalid
  split at h
  · cases h
  · rfl

/-- The first listing of the file gives its downloader a signal. -/
theorem first_listing (own : Bytes) (h : snapshotOf nm name = some ni) (hname : name ≠ []) :
    ∃ r : Receiver υ, RunsUnder (Step nm) (InSight ni.instanceID) (Receiver.new υ own) r ∧
      Rests name ni ⟨.waiting, none, true⟩ r := by
  have hus : (Receiver.new υ own).usable nm [name] = [ni] := by
    simp [Receiver.usable, Receiver.ignoring, Receiver.new, h]
  have hover : ¬ ((Receiver.new υ own).list nm [name]).PassesOver true ni.instanceID ni := by
    rintro (heq | ⟨hfalse, -⟩)
    · exact hname ((snapshotOf_fullName h).symm.trans heq)
    · cases hfalse
  refine ⟨_, runs_single rfl hus (fun r e he heq => absurd heq he) ?_, ?_⟩
  · intro _ inc l hpc m hm hpass
    rw [Receiver.list, hus] at hpc
    obtain ⟨rfl, rfl⟩ := Pc.listed.inj hpc
    obtain rfl : ni = m := by simpa [lookup] using hm
    exact absurd hpass hover
  have hdue : ¬ (((Receiver.new υ own).list nm [name]).publish true [ni]).PassesOver true
      ni.instanceID ni := hover
  unfold Receiver.consider
  rw [show (!(Receiver.new υ own).started) = true from rfl, if_neg hdue]
  refine ⟨rfl, ?_, ?_, ?_, fun _ => rfl⟩
  · exact Function.update_self _ _ _
  · exact Function.update_self _ _ _
  · simp [Receiver.notify, Receiver.setDownloader, Receiver.publish, Receiver.list,
      Receiver.ignoring, Receiver.new, not_invalid h]

/-- A later listing of the file passes over it. -/
theorem Rests.listed_again (hr : Rests name ni d r) (h : snapshotOf nm name = some ni) :
    ∃ r', Reaches nm r r' ∧ Rests name ni d r' ∧
      lookup r'.lastSeenByInstance ni.instanceID = some ni := by
  refine ⟨_, runs_single hr.pc (hr.usable h) (fun _ _ _ => trivial) trivial, ?_⟩
  have hover : ((r.list nm [name]).publish (!r.started) [ni]).PassesOver (!r.started)
      ni.instanceID ni := by
    left
    show ni.fullName = nameOf (r.lastNotifiedByInstance ni.instanceID)
    rw [hr.notified]
    rfl
  unfold Receiver.consider
  rw [if_pos hover]
  refine ⟨⟨rfl, hr.downloader, hr.notified, ?_, hr.corrupt⟩, ?_⟩
  · simp [Receiver.publish, Receiver.list, Receiver.ignoring, hr.ignored, hr.corrupt, not_invalid h]
  · simp [Receiver.publish, lookup]

/-- The downloader looks while the file is missing. -/
theorem Rests.lost (nm : Naming) (hr : Rests name ni ⟨.waiting, none, true⟩ r) :
    ∃ r', Reaches nm r r' ∧ Rests name ni ⟨.waiting, none, false⟩ r' := by
  obtain ⟨r₁, hr₁⟩ : ∃ r₁, r₁ = { (r.list nm []).publish (!r.started) [] with pc := .idle } :=
    ⟨_, rfl⟩
  have hreach : Reaches nm r r₁ := hr₁ ▸ reaches_empty hr.pc
  have hwake : r₁.downloadersByInstance ni.instanceID = some ⟨.waiting, none, true⟩ := by
    rw [hr₁]
    exact hr.downloader
  have hlook : (r₁.wake ni.instanceID ⟨.waiting, none, true⟩).downloadersByInstance ni.instanceID =
      some ⟨.checking, none, false⟩ := Function.update_self _ _ _
  refine ⟨_, RunsUnder.snoc (RunsUnder.snoc hreach (Step.wake hwake rfl rfl) trivial)
    (Step.look hlook rfl) trivial, ?_⟩
  rw [hr₁]
  refine ⟨rfl, Function.update_self _ _ _, hr.notified, ?_, hr.corrupt⟩
  simp [Receiver.look, Receiver.wake, Receiver.setDownloader, Receiver.publish, Receiver.list,
    Receiver.ignoring, lookup, hr.ignored, hr.corrupt]

/-- **A snapshot that is lost and found again can be forgotten.** It is listed and its
instance notified, but before the downloader looks, a listing without it has
replaced the map; when it is back, `RunOnce` has notified it before. -/
theorem lost_and_found (nm : Naming) (own : Bytes) (h : snapshotOf nm name = some ni)
    (hname : name ≠ []) :
    ∃ r : Receiver υ, Reaches nm (Receiver.new υ own) r ∧ ¬ Attended ni.instanceID r := by
  obtain ⟨r₁, hreach₁, hr₁⟩ := first_listing (υ := υ) own h hname
  obtain ⟨r₂, hreach₂, hr₂⟩ := hr₁.lost nm
  obtain ⟨r₃, hreach₃, hr₃, hseen⟩ := hr₂.listed_again h
  refine ⟨r₃, (hreach₁.mono fun _ _ _ => trivial).trans (hreach₂.trans hreach₃), fun hatt => ?_⟩
  refine hatt hr₃.pc _ ni hr₃.downloader hseen (hr₃.corrupt _) ?_ ⟨rfl, rfl⟩
  rw [snapshotOf_fullName h]
  exact hname

end LostAndFound

theorem first_listing_attended :
    ∃ ni r, snapshotOf defaultNaming newerFile = some ni ∧
      Rests newerFile ni ⟨.waiting, none, true⟩ r ∧ Attended (υ := Unit) ni.instanceID r := by
  obtain ⟨ni, hni⟩ : ∃ ni, snapshotOf defaultNaming newerFile = some ni := ⟨_, rfl⟩
  obtain ⟨r, hr, hrests⟩ := first_listing (υ := Unit) (ascii "b") hni (by decide)
  exact ⟨ni, r, hni, hrests, no_missed_wakeup defaultNaming (ascii "b") ni.instanceID hr⟩

/-- The snapshot of another instance is forgotten. -/
theorem other_instance_forgotten :
    ∃ ni r, snapshotOf defaultNaming newerFile = some ni ∧ ni.instanceID ≠ ascii "b" ∧
      RunsUnder (Step defaultNaming) (fun _ _ => True) (Receiver.new Unit (ascii "b")) r ∧
      ¬ Attended ni.instanceID r := by
  obtain ⟨ni, hni, hother⟩ : ∃ ni, snapshotOf defaultNaming newerFile = some ni ∧
      ni.instanceID ≠ ascii "b" := ⟨_, rfl, by decide⟩
  obtain ⟨r, hr, hno⟩ := lost_and_found (υ := Unit) defaultNaming (ascii "b") hni (by decide)
  exact ⟨ni, r, hni, hother, hr, hno⟩

end Receiver

end LightningStream
