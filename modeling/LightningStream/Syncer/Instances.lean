import LightningStream.Base.Archive
import LightningStream.Receiver.Newest
import LightningStream.Syncer.Committed
import LightningStream.Syncer.OwnData

/-!
# Instances with a storage in common

Several instances, each with its sync loop, its receiver and its cleaner, and the storage
through which they exchange their snapshots. Any of them may move at any time. An instance
may be restarted, with its LMDB or with a new one, and applications commit even while
their syncer is down.

The storage is one bucket: a listing shows what is there, a download gives what was
stored, and files come and go only by `Store` and `Delete`. The clock of an instance gives
every snapshot of it a later time than the ones before, and does not go back between two
runs of its cleaner.

What data and snapshots hold is an element of some preorder (`Knowledge`). Of the mode it
is only used that commits do not lower it, that a load adds what the snapshot holds and
nothing else, and that a snapshot holds what the data does. Then the storage is an `Archive`
(`NetStep.refines`): an instance stores a snapshot only if it holds all that the stored
snapshots of the instance hold, and the cleaners remove only what others hold.
-/

namespace LightningStream.Syncer.Instances

open Snapshot Cleaner Loop
open OwnData (System SystemStep SystemStart Guarded Free)
open Receiver (instances lookup Nameable Lists)
open Committed (mergeProven)

variable {ι σ μ κ : Type}

/-! ## The system -/

/-- A snapshot that was stored, with its number in the order of their storing. -/
structure File (μ : Type) where
  number : ℕ
  info : NameInfo
  snapshot : μ

def File.name (f : File μ) : Bytes := f.info.fullName

def File.instanceID (f : File μ) : Bytes := f.info.instanceID

structure Storage (μ : Type) where
  /-- Every snapshot ever stored, the latest first. -/
  files : List (File μ)
  /-- The names that are there. -/
  names : Set Bytes

/-- The process of an instance. Of a `RunOnce` of the cleaner that is in progress, it has
the snapshots that are still to be deleted or checked. -/
structure Node (σ μ : Type) where
  system : System σ μ μ
  worker : Worker
  superseded : List NameInfo
  tooOld : List NameInfo

structure Net (ι σ μ : Type) where
  node : ι → Node σ μ
  storage : Storage μ

/-- What the instances have in common, and what tells them apart. -/
structure Deployment (ι σ μ : Type) where
  nm : Naming
  reads : Reads nm
  srt : Sorter
  /-- The name of the database. -/
  db : Bytes
  separable : Separable db
  mode : Mode σ μ μ
  tracks : mode.schemaTracksChanges = true
  /-- The data of a new LMDB. -/
  blank : σ
  config : ι → Config
  distinct : ∀ i j, (config i).ownInstanceID = (config j).ownInstanceID → i = j

namespace Storage

variable (b : Storage μ)

/-- The file is there. -/
def Has (f : File μ) : Prop := f ∈ b.files ∧ f.name ∈ b.names

/-- The latest file of its instance that is there. -/
def Latest (f : File μ) : Prop :=
  b.Has f ∧ ∀ g, b.Has g → g.instanceID = f.instanceID → g.info.timestamp ≤ f.info.timestamp

/-- A listing of the storage. Other files in it are not recognised. -/
structure Shows (nm : Naming) (names : List Bytes) : Prop where
  sorted : names.Pairwise (· < ·)
  all : ∀ name ∈ b.names, name ∈ names
  only : ∀ name ∈ names, name ∈ b.names ∨ ∃ e, parseName nm name = .error e

/-- What the receiver gets from the storage is what is there: its listings, and the
snapshots that it downloads. None of them is corrupt. -/
structure Honest (nm : Naming) (r r' : Receiver μ) : Prop where
  listing : ∀ includingOwn usable, r'.pc = .listed includingOwn usable →
    r.pc = .listed includingOwn usable ∨ ∃ names, b.Shows nm names ∧ r' = r.list nm names
  download : ∀ inst info snap, r'.snapshotsByInstance inst = some (info, snap) →
    r.snapshotsByInstance inst = some (info, snap) ∨
      ∃ f ∈ b.files, f.info = info ∧ f.snapshot = snap
  intact : r'.corruptSnapshots = r.corruptSnapshots

/-- A snapshot is accepted. -/
def put (info : NameInfo) (snap : μ) : Storage μ :=
  ⟨⟨b.files.length, info, snap⟩ :: b.files, insert info.fullName b.names⟩

/-- A call of `Delete`, which may fail. -/
def delete (deleted : Bool) (name : Bytes) : Storage μ :=
  { b with names := if deleted then b.names \ {name} else b.names }

end Storage

/-- `RunOnce` up to its first call of `Delete`. -/
def Node.sift (x : Node σ μ) (nm : Naming) (srt : Sorter) (now : Time) (ls : Listing) :
    Node σ μ :=
  let r := Committed.sift x.worker nm srt now ls
  { x with worker := r.1, superseded := r.2.1, tooOld := r.2.2 }

/-- A process that starts, on the LMDB of the one before or on a new one. -/
structure Boots (c : Config) (blank : σ) (x y : System σ μ μ) : Prop where
  start : SystemStart c y
  data : y.loop.env.current = x.loop.env.current ∨ y.loop.env.current = blank
  /-- An LMDB without a transaction is new. -/
  unused : y.loop.env.last = 0 → y.loop.env.current = blank
  lastByInstance : y.loop.lastByInstance = fun _ => none
  committed : y.loop.committed = fun _ => none
  loads : y.loads = []

/-- The process of an instance has gone on, and the storage with it. -/
def Net.set [DecidableEq ι] (s : Net ι σ μ) (i : ι) (x : Node σ μ) (b : Storage μ) : Net ι σ μ :=
  ⟨Function.update s.node i x, b⟩

section Set

variable [DecidableEq ι] (s : Net ι σ μ) {i j : ι} (x y : Node σ μ) (b b' : Storage μ)

@[simp] theorem Net.node_set_self : (s.set i x b).node i = x := Function.update_self _ _ _

theorem Net.node_set_of_ne (hj : j ≠ i) : (s.set i x b).node j = s.node j :=
  Function.update_of_ne hj _ _

@[simp] theorem Net.set_set : (s.set i x b).set i y b' = s.set i y b' := by
  simp [Net.set]

end Set

/-- One step of an instance, of its application, or of a call to the storage. -/
inductive NetStep [DecidableEq ι] (D : Deployment ι σ μ) (s : Net ι σ μ) : Net ι σ μ → Prop
  | system (i : ι) {y : System σ μ μ} :
      SystemStep D.nm D.mode (D.config i) (s.node i).system y →
      y.loop.stored = (s.node i).system.loop.stored →
      s.storage.Honest D.nm (s.node i).system.receiver y.receiver →
      NetStep D s (s.set i { s.node i with system := y } s.storage)
  /-- The name is built from a time later than that of every snapshot of the instance. -/
  | store (i : ι) {x : System σ μ μ} {txnID seen : ℕ} {snap : μ} {built info : NameInfo} :
      x = (s.node i).system → x.loop.pc = .storing txnID seen snap →
      Nameable D.db built → built.instanceID = (D.config i).ownInstanceID →
      snapshotOf D.nm (buildName built) = some info →
      (∀ f ∈ s.storage.files, f.instanceID = built.instanceID →
        f.info.timestamp < built.timestamp) →
      zeroTime < built.timestamp →
      NetStep D s (s.set i
        { s.node i with system := { x with loop := x.loop.store txnID seen snap } }
        (s.storage.put info snap))
  /-- The end of `SendOnce`. -/
  | setCommitted (i : ι) {w : Worker} :
      w = (s.node i).worker.setCommitted (s.node i).system.loop.committed →
      NetStep D s (s.set i { s.node i with worker := w } s.storage)
  | sift (i : ι) {now : Time} {ls : Listing} :
      (s.node i).superseded = [] → (s.node i).tooOld = [] →
      (s.node i).worker.conf.enabled = true → s.storage.Shows D.nm ls.names →
      (∀ name t, (s.node i).worker.snapFirstSeen name = some t → t ≤ now) →
      NetStep D s (s.set i ((s.node i).sift D.nm D.srt now ls) s.storage)
  | supersede (i : ι) {info : NameInfo} {rest : List NameInfo} (deleted : Bool) :
      (s.node i).superseded = info :: rest →
      NetStep D s (s.set i { s.node i with superseded := rest }
        (s.storage.delete deleted info.fullName))
  | check (i : ι) {info : NameInfo} {rest : List NameInfo} (deleted : Bool) :
      (s.node i).superseded = [] → (s.node i).tooOld = info :: rest →
      (deleted = true → mergeProven (s.node i).worker info = true) →
      NetStep D s (s.set i { s.node i with tooOld := rest }
        (s.storage.delete deleted info.fullName))
  | restart (i : ι) {y : System σ μ μ} (conf : Cleanup) :
      Boots (D.config i) D.blank (s.node i).system y →
      NetStep D s (s.set i ⟨y, Worker.new conf, [], []⟩ s.storage)

def NetRun [DecidableEq ι] (D : Deployment ι σ μ) : Net ι σ μ → Net ι σ μ → Prop :=
  Relation.ReflTransGen (NetStep D)

/-- What the data and the snapshots of a mode hold. -/
structure Knowledge (D : Deployment ι σ μ) (κ : Type) [Preorder κ] where
  held : σ → κ
  content : μ → κ
  Good : σ → Prop
  Fit : μ → Prop
  good_blank : Good D.blank
  blank_le : ∀ k, held D.blank ≤ k
  app : ∀ {d d'}, Good d → D.mode.app d d' → Good d' ∧ held d ≤ held d'
  load : ∀ {localChanged t txnID u d d' dirty}, Good d → Fit u →
    D.mode.loadTxn localChanged t txnID u d = some (d', dirty) →
    Good d' ∧ held d ≤ held d' ∧ content u ≤ held d' ∧ (dirty = false → d' = d)
  load_le : ∀ {localChanged t txnID u d d' dirty}, Good d → Fit u →
    D.mode.loadTxn localChanged t txnID u d = some (d', dirty) →
    ∀ {k}, held d ≤ k → content u ≤ k → held d' ≤ k
  send : ∀ {t txnID d d' dirty u}, Good d → D.mode.sendTxn false t txnID d = some (d', dirty, u) →
    Fit u ∧ content u ≤ held d ∧ held d ≤ content u

/-- Before the first step: no process runs yet, and the storage is empty. -/
structure NetStart (D : Deployment ι σ μ) (Good : σ → Prop) (s : Net ι σ μ) : Prop where
  system : ∀ i, Boots (D.config i) D.blank (s.node i).system (s.node i).system
  good : ∀ i, Good (s.node i).system.loop.env.current
  worker : ∀ i, ∃ conf, (s.node i).worker = Worker.new conf
  superseded : ∀ i, (s.node i).superseded = []
  tooOld : ∀ i, (s.node i).tooOld = []
  storage : s.storage = ⟨[], ∅⟩

/-! ## What holds of every state -/

section Invariants

variable [Preorder κ] {D : Deployment ι σ μ} (K : Knowledge D κ) (b : Storage μ)

/-- A snapshot as an item of the archive. -/
def item (f : File μ) : Item Bytes κ := ⟨f.instanceID, f.number, K.content f.snapshot⟩

def archive : Archive Bytes κ :=
  ⟨{x | ∃ f ∈ b.files, item K f = x}, {x | ∃ f, b.Has f ∧ item K f = x}⟩

structure StorageSound : Prop where
  number : ∀ f ∈ b.files, f.number < b.files.length
  distinct : ∀ f ∈ b.files, ∀ g ∈ b.files, f.number = g.number → f = g
  named : ∀ f ∈ b.files, snapshotOf D.nm f.name = some f.info
  built : ∀ f ∈ b.files, ∃ ni, Nameable D.db ni ∧ f.name = buildName ni
  dated : ∀ f ∈ b.files, ∀ g ∈ b.files, f.instanceID = g.instanceID → f.number < g.number →
    f.info.timestamp < g.info.timestamp
  positive : ∀ f ∈ b.files, zeroTime < f.info.timestamp
  fit : ∀ f ∈ b.files, K.Fit f.snapshot
  filed : ∀ name ∈ b.names, ∃ f ∈ b.files, f.name = name
  archived : (archive K b).Sound

/-- All that is stored of the instance is contained in this. -/
def Caught (own : Bytes) (k : κ) : Prop :=
  ∀ f, b.Has f → f.instanceID = own → K.content f.snapshot ≤ k

/-- The times in a map are those of snapshots that are contained in this. -/
def Noted (last : Bytes → Option Time) (k : κ) : Prop :=
  ∀ inst ts, last inst = some ts →
    ∃ f ∈ b.files, f.instanceID = inst ∧ f.info.timestamp = ts ∧ K.content f.snapshot ≤ k

/-- The times in a map are those of snapshots that are contained in later ones. -/
def Absorbed (last : Bytes → Option Time) : Prop :=
  ∀ inst ts, last inst = some ts → ∃ f ∈ b.files, f.instanceID = inst ∧ f.info.timestamp = ts ∧
    ∃ g ∈ b.files, f.number < g.number ∧ K.content f.snapshot ≤ K.content g.snapshot

/-- `SendOnce` has this snapshot in hand. -/
def InHand (c : Config) (s : State σ μ μ) (snap : μ) : Prop :=
  ∃ txnID seen, (s.pc = .dumped txnID seen snap ∧ c.receiveOnly = false) ∨
    s.pc = .storing txnID seen snap

structure Pending (own : Bytes) (s : State σ μ μ) (snap : μ) : Prop where
  fit : K.Fit snap
  held : K.content snap ≤ K.held s.env.current
  caught : Caught K b own (K.content snap)
  noted : Noted K b s.lastByInstance (K.content snap)

structure LoopSound (c : Config) (s : State σ μ μ) : Prop where
  good : K.Good s.env.current
  notes : Noted K b s.lastByInstance (K.held s.env.current)
  loaded : ∀ u txnID localChanged, s.pc = .loaded u txnID localChanged →
    ∃ f ∈ b.files, f.instanceID = u.instanceID ∧ f.info.timestamp = u.timestamp ∧
      K.content f.snapshot ≤ K.held s.env.current
  pending : ∀ snap, InHand c s snap → Pending K b c.ownInstanceID s snap
  committed : Absorbed K b s.committed

/-- The data has all that is stored of the instance, or this is the latest of that. -/
def Newest (own : Bytes) (k : κ) (info : NameInfo) : Prop :=
  Caught K b own k ∨ ∀ f, b.Has f → f.instanceID = own → f.info.timestamp ≤ info.timestamp

/-- A listing that was without the instance, or shows the latest of it. -/
structure Seen (own : Bytes) (k : κ) (l : List NameInfo) : Prop where
  missing : own ∉ instances l → Caught K b own k
  newest : ∀ info, lookup l own = some info → Newest K b own k info

/-- The receiver and the history of the instance, beside data that holds `k`. -/
structure ReceiverSound (own : Bytes) (k : κ) (r : Receiver μ) (ls : List (List NameInfo))
    (us : List (Update μ)) : Prop where
  ignores : ∀ name, r.ignoredFilenames name = true → isInvalid D.nm name = true
  intact : ∀ name, r.corruptSnapshots name = false
  listed : ∀ includingOwn l, r.pc = .listed includingOwn l → Seen K b own k l
  listings : ∀ l ∈ ls, own ∉ instances l → Caught K b own k
  shown : ∀ info, lookup r.lastSeenByInstance own = some info → Newest K b own k info
  loading : ∀ inst d info, r.downloadersByInstance inst = some d → d.phase = .loading info →
    info.instanceID = inst ∧ (inst = own → Newest K b own k info)
  taken : ∀ inst info snap, r.snapshotsByInstance inst = some (info, snap) →
    (∃ f ∈ b.files, f.info = info ∧ f.snapshot = snap) ∧ info.instanceID = inst ∧
      (inst = own → Newest K b own k info)
  loads : (∃ u ∈ us, u.isSnapshot = true ∧ u.instanceID = own) → Caught K b own k

structure CleanerSound (x : Node σ μ) : Prop where
  ignores : x.worker.IgnoresInvalid D.nm
  committed : Absorbed K b x.worker.lastByInstance
  seen : ∀ name t, x.worker.snapFirstSeen name = some t → ∃ f ∈ b.files, f.name = name
  /-- Of two files that are there, the one stored earlier was not seen later. -/
  firstSeen : ∀ f g, b.Has f → b.Has g → f.number < g.number →
    ∀ t, x.worker.snapFirstSeen g.name = some t → ∃ t' ≤ t, x.worker.snapFirstSeen f.name = some t'
  superseded : ∀ info ∈ x.superseded, ∃ f ∈ b.files, f.info = info ∧
    ∃ g ∈ b.files, g.instanceID = f.instanceID ∧ f.number < g.number
  tooOld : ∀ info ∈ x.tooOld, ∃ f ∈ b.files, f.info = info

structure SystemSound (c : Config) (x : System σ μ μ) : Prop where
  guarded : Guarded c x
  loop : LoopSound K b c x.loop
  receiver : ReceiverSound K b c.ownInstanceID (K.held x.loop.env.current) x.receiver
    x.listings x.loads

structure NodeSound (c : Config) (x : Node σ μ) : Prop where
  system : SystemSound K b c x.system
  cleaner : CleanerSound K b x

structure NetSound (s : Net ι σ μ) : Prop where
  storage : StorageSound K s.storage
  nodes : ∀ i, NodeSound K s.storage (D.config i) (s.node i)

end Invariants

/-! ## Another instance moves -/

section Grown

variable [Preorder κ] {D : Deployment ι σ μ} {K : Knowledge D κ} {b b' : Storage μ} {own : Bytes}
  {k k' : κ}

/-- Files have come or gone, but none of the instance's own has come. -/
structure Grown (own : Bytes) (b b' : Storage μ) : Prop where
  files : b.files ⊆ b'.files
  own : ∀ f, b'.Has f → f.instanceID = own → b.Has f

theorem grown_refl (own : Bytes) (b : Storage μ) : Grown own b b :=
  ⟨fun _ h => h, fun _ h _ => h⟩

theorem Caught.mono (h : Caught K b own k) (hg : Grown own b b') (hle : k ≤ k') :
    Caught K b' own k' := fun f hf hown => (h f (hg.own f hf hown) hown).trans hle

theorem Noted.mono {last : Bytes → Option Time} (h : Noted K b last k) (hg : b.files ⊆ b'.files)
    (hle : k ≤ k') : Noted K b' last k' := by
  intro inst ts hlast
  obtain ⟨f, hf, hinst, hts, hheld⟩ := h inst ts hlast
  exact ⟨f, hg hf, hinst, hts, hheld.trans hle⟩

theorem Absorbed.mono {last : Bytes → Option Time} (h : Absorbed K b last)
    (hg : b.files ⊆ b'.files) : Absorbed K b' last := by
  intro inst ts hlast
  obtain ⟨f, hf, hinst, hts, g, hgf, hnum, hheld⟩ := h inst ts hlast
  exact ⟨f, hg hf, hinst, hts, g, hg hgf, hnum, hheld⟩

theorem Newest.mono {info : NameInfo} (h : Newest K b own k info) (hg : Grown own b b')
    (hle : k ≤ k') : Newest K b' own k' info :=
  h.imp (fun hc => hc.mono hg hle) fun hall f hf hown => hall f (hg.own f hf hown) hown

theorem Seen.mono {l : List NameInfo} (h : Seen K b own k l) (hg : Grown own b b') (hle : k ≤ k') :
    Seen K b' own k' l :=
  ⟨fun hno => (h.missing hno).mono hg hle, fun info hl => (h.newest info hl).mono hg hle⟩

theorem LoopSound.grown {c : Config} {s : State σ μ μ} (h : LoopSound K b c s)
    (hg : Grown c.ownInstanceID b b') : LoopSound K b' c s := by
  refine ⟨h.good, h.notes.mono hg.files le_rfl, fun u txnID lc hpc => ?_, fun snap hin => ?_,
    h.committed.mono hg.files⟩
  · obtain ⟨f, hf, hrest⟩ := h.loaded u txnID lc hpc
    exact ⟨f, hg.files hf, hrest⟩
  · have hp := h.pending snap hin
    exact ⟨hp.fit, hp.held, hp.caught.mono hg le_rfl, hp.noted.mono hg.files le_rfl⟩

theorem ReceiverSound.mono {r : Receiver μ} {ls : List (List NameInfo)} {us : List (Update μ)}
    (h : ReceiverSound K b own k r ls us) (hg : Grown own b b') (hle : k ≤ k') :
    ReceiverSound K b' own k' r ls us where
  ignores := h.ignores
  intact := h.intact
  listed := fun inc l hpc => (h.listed inc l hpc).mono hg hle
  listings := fun l hl hno => (h.listings l hl hno).mono hg hle
  shown := fun info hl => (h.shown info hl).mono hg hle
  loading := fun inst d info hd hphase =>
    ⟨(h.loading inst d info hd hphase).1, fun hown =>
      ((h.loading inst d info hd hphase).2 hown).mono hg hle⟩
  taken := by
    intro inst info snap htaken
    obtain ⟨⟨f, hf, hinfo⟩, hinst, hnew⟩ := h.taken inst info snap htaken
    exact ⟨⟨f, hg.files hf, hinfo⟩, hinst, fun hown => (hnew hown).mono hg hle⟩
  loads := fun hload => (h.loads hload).mono hg hle

/-- If a snapshot may be stored, then the data has all that is stored of the instance. -/
theorem ReceiverSound.caught {r : Receiver μ} {ls : List (List NameInfo)} {us : List (Update μ)}
    (h : ReceiverSound K b own k r ls us) (hfree : Free own ls us) : Caught K b own k := by
  rcases hfree with ⟨l, hl, hno⟩ | hload
  · exact h.listings l hl hno
  · exact h.loads hload

end Grown

/-! ## Steps of the loop -/

section Loop

variable [Preorder κ] {D : Deployment ι σ μ} {K : Knowledge D κ} {b : Storage μ} {c : Config}
  {s s' : State σ μ μ} {e : Event σ μ}

/-- Neither `LoadOnce` nor `SendOnce` is between its transaction and its end. -/
def atRest : Pc μ μ → Bool
  | .loaded _ _ _ => false
  | .dumped _ _ _ => false
  | .storing _ _ _ => false
  | _ => true

theorem atRest_resume (s : State σ μ μ) : atRest s.resume.pc = true := by
  unfold State.resume
  cases s.inLoop <;> rfl

theorem LoopSound.move (h : LoopSound K b c s) (henv : s'.env = s.env)
    (hlast : s'.lastByInstance = s.lastByInstance) (hcom : s'.committed = s.committed)
    (hpc : atRest s'.pc = true) : LoopSound K b c s' := by
  refine ⟨by rw [henv]; exact h.good, by rw [henv, hlast]; exact h.notes, fun u txnID lc hl => ?_,
    fun snap hin => ?_, by rw [hcom]; exact h.committed⟩
  · rw [hl] at hpc
    cases hpc
  · obtain ⟨txnID, seen, ⟨hd, -⟩ | hd⟩ := hin
    · rw [hd] at hpc
      cases hpc
    · rw [hd] at hpc
      cases hpc

theorem LoopSound.stop (h : LoopSound K b c s) : LoopSound K b c s.stop := h.move rfl rfl rfl rfl

theorem LoopSound.resume (h : LoopSound K b c s) : LoopSound K b c s.resume :=
  h.move rfl rfl rfl (atRest_resume s)

theorem startup_of_tracks (t : Moment) (hasSnapshots : Bool) :
    s.startup D.mode t hasSnapshots = s.afterStartup hasSnapshots := by
  unfold State.startup
  rw [D.tracks, Bool.not_true, Bool.and_false]
  rfl

theorem LoopSound.afterStartup (h : LoopSound K b c s) (hasSnapshots : Bool) :
    LoopSound K b c (s.afterStartup hasSnapshots) := by
  rcases afterStartup_cases s hasSnapshots with heq | heq
  · rw [heq]
    exact h.move rfl rfl rfl rfl
  · rw [heq]
    exact h.resume

theorem LoopSound.commit (h : LoopSound K b c s) {d : σ} (happ : D.mode.app s.env.current d) :
    LoopSound K b c (s.commit d) := by
  obtain ⟨hgood, hle⟩ := K.app h.good happ
  have hcur : (s.commit d).env.current = d := Versioned.commit_current
  refine ⟨by rw [hcur]; exact hgood, by rw [hcur]; exact h.notes.mono (fun _ hf => hf) hle,
    fun u txnID lc hpc => ?_, fun snap hin => ?_, h.committed⟩
  · obtain ⟨f, hf, hinst, hts, hheld⟩ := h.loaded u txnID lc hpc
    exact ⟨f, hf, hinst, hts, by rw [hcur]; exact hheld.trans hle⟩
  · obtain ⟨hfit, hheld, hcaught, hnoted⟩ := h.pending snap hin
    exact ⟨hfit, by rw [hcur]; exact hheld.trans hle, hcaught, hnoted⟩

/-- The snapshot holds what the data does, so what is stored of the instance as well. -/
theorem LoopSound.send (h : LoopSound K b c s)
    (hcaught : Caught K b c.ownInstanceID (K.held s.env.current)) (t : Moment) :
    LoopSound K b c (s.sendTxn D.mode c t) := by
  rcases sendTxn_cases D.mode c s t with heq | ⟨-, d, dirty, snap, htxn, heq⟩ | ⟨hno, -⟩
  · rw [heq]
    exact h.stop
  · rw [heq]
    refine ⟨h.good, h.notes, nofun, fun snap' hin => ?_, h.committed⟩
    obtain ⟨txnID, seen, ⟨hpc, hro⟩ | hpc⟩ := hin
    · obtain ⟨-, -, rfl⟩ := Pc.dumped.inj hpc
      rw [hro] at htxn
      obtain ⟨hfit, hle, hge⟩ := K.send h.good htxn
      exact ⟨hfit, hle, hcaught.mono (grown_refl _ _) hge, h.notes.mono (fun _ hf => hf) hge⟩
    · cases hpc
  · rw [D.tracks] at hno
    cases hno

theorem LoopSound.sendInfo (h : LoopSound K b c s) {txnID seen : ℕ} {snap : μ}
    (hpc : s.pc = .dumped txnID seen snap) : LoopSound K b c (s.sendInfo c txnID seen snap) := by
  unfold State.sendInfo
  split
  · exact h.move rfl rfl rfl (atRest_resume _)
  · rename_i hro
    refine ⟨h.good, h.notes, nofun, fun snap' hin => ?_, h.committed⟩
    obtain ⟨txnID', seen', ⟨hpc', -⟩ | hpc'⟩ := hin
    · cases hpc'
    · obtain ⟨-, -, rfl⟩ := Pc.storing.inj hpc'
      have hp := h.pending snap ⟨txnID, seen, Or.inl ⟨hpc, by simpa using hro⟩⟩
      exact ⟨hp.fit, hp.held, hp.caught, hp.noted⟩

/-- `LoadOnce` notes the time of what it has loaded. -/
theorem LoopSound.loadInfo (h : LoopSound K b c s) {u : Update μ} {txnID : ℕ} {lc : Bool}
    (hpc : s.pc = .loaded u txnID lc) : LoopSound K b c (s.loadInfo u txnID lc) := by
  have hrest : atRest (s.loadInfo u txnID lc).pc = true := by
    unfold State.loadInfo
    cases lc && decide (maxConsecutiveSnapshotLoads < s.nLoads) <;> rfl
  refine ⟨h.good, fun inst ts hlast => ?_, fun u' txnID' lc' hl => ?_, fun snap hin => ?_,
    h.committed⟩
  · change Function.update s.lastByInstance u.instanceID (some u.timestamp) inst = some ts at hlast
    by_cases hi : inst = u.instanceID
    · rw [hi, Function.update_self] at hlast
      obtain ⟨f, hf, hinst, hts, hheld⟩ := h.loaded u txnID lc hpc
      exact ⟨f, hf, hinst.trans hi.symm, hts.trans (Option.some.inj hlast), hheld⟩
    · rw [Function.update_of_ne hi] at hlast
      exact h.notes inst ts hlast
  · rw [hl] at hrest
    cases hrest
  · obtain ⟨t, q, ⟨hd, -⟩ | hd⟩ := hin
    · rw [hd] at hrest
      cases hrest
    · rw [hd] at hrest
      cases hrest

/-- A load of a file. -/
theorem LoopSound.load (h : LoopSound K b c s) {f : File μ} (hf : f ∈ b.files)
    (hfit : K.Fit f.snapshot) {t : Moment} {u : Update μ} (hinst : f.instanceID = u.instanceID)
    (hts : f.info.timestamp = u.timestamp) (hsnap : f.snapshot = u.snapshot) {d : σ} {dirty : Bool}
    (hload : D.mode.loadTxn (s.localChanged (s.env.last + 1)) t (s.env.last + 1) u.snapshot
      s.env.current = some (d, dirty)) :
    LoopSound K b c (s.loadTxn D.mode t u) ∧ (s.loadTxn D.mode t u).env.current = d ∧
      K.held s.env.current ≤ K.held d ∧ K.content f.snapshot ≤ K.held d := by
  obtain ⟨hgood, hle, hcontent, hclean⟩ := K.load h.good (hsnap ▸ hfit) hload
  have hcur : (s.loadTxn D.mode t u).env.current = d := by
    unfold State.loadTxn
    simp only [hload]
    exact Versioned.finish_current hclean
  have hpc : (s.loadTxn D.mode t u).pc =
      .loaded u (s.env.last + 1) (s.localChanged (s.env.last + 1)) := by
    unfold State.loadTxn
    simp only [hload]
  have hlast : (s.loadTxn D.mode t u).lastByInstance = s.lastByInstance ∧
      (s.loadTxn D.mode t u).committed = s.committed := by
    unfold State.loadTxn
    simp only [hload, and_self]
  rw [← hsnap] at hcontent
  refine ⟨⟨by rw [hcur]; exact hgood, ?_, fun u' txnID lc hl => ?_, fun snap hin => ?_, ?_⟩,
    hcur, hle, hcontent⟩
  · rw [hcur, hlast.1]
    exact h.notes.mono (fun _ hf => hf) hle
  · rw [hpc] at hl
    obtain ⟨rfl, -, -⟩ := Pc.loaded.inj hl
    exact ⟨f, hf, hinst, hts, by rw [hcur]; exact hcontent⟩
  · obtain ⟨txnID, seen, ⟨hd, -⟩ | hd⟩ := hin
    · rw [hpc] at hd
      cases hd
    · rw [hpc] at hd
      cases hd
  · rw [hlast.2]
    exact h.committed

/-- A step that consults neither the receiver nor the storage. -/
theorem LoopSound.step (h : LoopSound K b c s) (hstep : Step D.mode c s e s')
    (hap : OwnData.Apart s e) (hst : s'.stored = s.stored)
    (hcaught : s.pc = .send → Caught K b c.ownInstanceID (K.held s.env.current)) :
    LoopSound K b c s' ∧ K.held s.env.current ≤ K.held s'.env.current := by
  have hmove : ∀ {s'' : State σ μ μ}, LoopSound K b c s'' → s''.env = s.env →
      LoopSound K b c s'' ∧ K.held s.env.current ≤ K.held s''.env.current := by
    intro s'' hs'' henv
    exact ⟨hs'', by rw [henv]⟩
  cases hstep with
  | commit happ =>
      refine ⟨h.commit happ, ?_⟩
      rw [show (s.commit _).env.current = _ from Versioned.commit_current]
      exact (K.app h.good happ).2
  | info _ => exact hmove (h.move rfl rfl rfl rfl) rfl
  | listed _ _ hpc =>
      rcases hap with ⟨d, hd⟩ | ⟨hno, -, -⟩
      · cases hd
      · exact absurd hpc hno
  | startup t _ =>
      rw [startup_of_tracks]
      refine hmove (h.afterStartup _) ?_
      rcases afterStartup_cases s _ with heq | heq
      · rw [heq]
      · rw [heq]
        rfl
  | load t u _ =>
      rcases hap with ⟨d, hd⟩ | ⟨-, -, hno⟩
      · cases hd
      · exact absurd rfl (hno t u)
  | loadInfo hpc => exact hmove (h.loadInfo hpc) rfl
  | idle _ => exact hmove (h.move rfl rfl rfl rfl) rfl
  | clean _ hpc =>
      rcases hap with ⟨d, hd⟩ | ⟨-, hno, -⟩
      · cases hd
      · exact absurd hpc hno
  | poll overdue _ _ =>
      rcases poll_cases c s overdue with heq | heq | ⟨-, heq⟩
      all_goals
        rw [heq]
        exact hmove (h.move rfl rfl rfl rfl) rfl
  | send t hpc =>
      refine hmove (h.send (hcaught hpc) t) ?_
      rcases sendTxn_cases D.mode c s t with heq | ⟨-, d, dirty, snap, -, heq⟩ | ⟨hno, -⟩
      · rw [heq]
        rfl
      · rw [heq]
      · rw [D.tracks] at hno
        cases hno
  | sendInfo hpc =>
      refine hmove (h.sendInfo hpc) ?_
      unfold State.sendInfo
      split <;> rfl
  | store _ => exact absurd hst (List.cons_ne_self _ _)
  | sleep _ => exact hmove (h.move rfl rfl rfl rfl) rfl
  | done _ _ _ => exact hmove h.stop rfl
  | fail => exact hmove h.stop rfl

end Loop

/-! ## Steps of the receiver -/

section Receiver

variable [Preorder κ] {D : Deployment ι σ μ} {K : Knowledge D κ} {b : Storage μ} {own : Bytes}
  {k : κ} {r r' : Receiver μ} {ls : List (List NameInfo)} {us : List (Update μ)}

theorem StorageSound.lists (hb : StorageSound K b) {names : List Bytes}
    (h : b.Shows D.nm names) : Lists D.nm D.db names where
  sorted := h.sorted.imp fun hlt => hlt.le
  built := by
    intro name hname
    rcases h.only name hname with hin | herr
    · obtain ⟨f, hf, rfl⟩ := hb.filed name hin
      exact Or.inl (hb.built f hf)
    · exact Or.inr herr

/-- What the receiver ends up with for an instance has the greatest timestamp. -/
theorem lookup_newest {nm : Naming} {db : Bytes} (hnm : Reads nm) (hdb : Separable db)
    {names : List Bytes} (hnames : Lists nm db names) {inst : Bytes} {info m : NameInfo}
    (hl : lookup (r.usable nm names) inst = some info) (hm : m ∈ r.usable nm names)
    (hi : m.instanceID = inst) : m.timestamp ≤ info.timestamp := by
  obtain ⟨rfl, before, after, hsplit, hafter⟩ := Receiver.lookup_eq_some hl
  obtain ⟨name, hname, -, hsnap, -⟩ : r.Offered nm names info.instanceID info :=
    Receiver.mem_usable.mp (by simp [hsplit])
  obtain ⟨name', hname', -, hsnap', -⟩ := Receiver.mem_usable.mp hm
  by_contra hlt
  have hless := hnames.name_lt hnm hdb hname hname' hsnap hsnap' hi.symm (not_le.mp hlt)
  -- the greater name is assigned later
  have hsorted := hsplit ▸ Receiver.usable_sorted nm r hnames.sorted
  rw [hsplit] at hm
  rcases List.mem_append.mp hm with hbefore | hrest
  · have hle := (List.pairwise_append.mp hsorted).2.2 m hbefore info List.mem_cons_self
    rw [snapshotOf_fullName hsnap, snapshotOf_fullName hsnap'] at hle
    exact absurd hless (not_lt.mpr hle)
  · rcases List.mem_cons.mp hrest with rfl | hlater
    · exact hlt le_rfl
    · exact hafter m hlater hi

theorem not_invalid_of_snapshotOf {nm : Naming} {name : Bytes} {info : NameInfo}
    (h : snapshotOf nm name = some info) : isInvalid nm name = false := by
  rw [isInvalid, Receiver.parseName_of_snapshotOf h]

/-- Every file that is there is usable. -/
theorem ReceiverSound.usable (h : ReceiverSound K b own k r ls us) (hb : StorageSound K b)
    {names : List Bytes} (hshow : b.Shows D.nm names) {f : File μ} (hf : b.Has f) :
    f.info ∈ r.usable D.nm names := by
  have hnamed := hb.named f hf.1
  refine Receiver.mem_usable.mpr ⟨f.name, hshow.all f.name hf.2, ?_, hnamed, rfl⟩
  have hnot : r.ignoredFilenames f.name = false := by
    by_contra hign
    have hinv := h.ignores f.name (by simpa using hign)
    rw [not_invalid_of_snapshotOf hnamed] at hinv
    cases hinv
  rw [Receiver.ignoring, hnot, h.intact]
  rfl

/-- A listing is without the instance only if nothing of it is stored, and it shows the
latest. -/
theorem ReceiverSound.list (h : ReceiverSound K b own k r ls us) (hb : StorageSound K b)
    {names : List Bytes} (hshow : b.Shows D.nm names) :
    ReceiverSound K b own k (r.list D.nm names) ls us := by
  refine { h with ignores := fun name hign => ?_, listed := fun inc l hpc => ?_ }
  · simp only [Receiver.list, Receiver.ignoring, h.intact, Bool.or_false, Bool.or_eq_true,
      Bool.and_eq_true] at hign
    exact hign.elim (h.ignores name) fun hi => hi.2
  · obtain ⟨-, rfl⟩ := Receiver.Pc.listed.inj hpc
    refine ⟨fun hno f hf hown => ?_, fun info hl => Or.inr fun f hf hown => ?_⟩
    · exact absurd (Receiver.mem_instances.mpr ⟨f.info, h.usable hb hshow hf, hown⟩) hno
    · exact lookup_newest D.reads D.separable (hb.lists hshow) hl (h.usable hb hshow hf) hown

theorem ReceiverSound.publish (h : ReceiverSound K b own k r ls us) {inc : Bool}
    {l : List NameInfo} (hpc : r.pc = .listed inc l) :
    ReceiverSound K b own k (r.publish inc l) (l :: ls) us := by
  have hseen := h.listed inc l hpc
  refine { h with listed := nofun, listings := fun l' hl' hno => ?_, shown := hseen.newest }
  rcases List.mem_cons.mp hl' with rfl | hl'
  · exact hseen.missing hno
  · exact h.listings l' hl' hno

theorem ReceiverSound.take (h : ReceiverSound K b own k r ls us) (inst : Bytes) :
    ReceiverSound K b own k (r.take inst) ls us := by
  refine { h with taken := fun inst' info snap htaken => ?_ }
  by_cases hi : inst' = inst
  · rw [hi] at htaken
    simp [Receiver.take] at htaken
  · exact h.taken inst' info snap ((Function.update_of_ne hi _ _).symm.trans htaken)

/-- A downloader that does not load, or loads what is known to be the latest. -/
theorem ReceiverSound.setDownloader (h : ReceiverSound K b own k r ls us) (inst : Bytes)
    (d : Receiver.Downloader) (hd : ∀ info, d.phase = .loading info →
      info.instanceID = inst ∧ (inst = own → Newest K b own k info)) :
    ReceiverSound K b own k (r.setDownloader inst d) ls us := by
  refine { h with loading := fun inst' d' info hd' hphase => ?_ }
  by_cases hi : inst' = inst
  · subst hi
    obtain rfl : d = d' := by
      simpa [Receiver.setDownloader] using hd'
    exact hd info hphase
  · exact h.loading inst' d' info ((Function.update_of_ne hi _ _).symm.trans hd') hphase

theorem ReceiverSound.notify (h : ReceiverSound K b own k r ls us) (inst : Bytes) :
    ReceiverSound K b own k (r.notify inst) ls us := by
  refine h.setDownloader inst _ fun info hphase => ?_
  cases hd : r.downloadersByInstance inst with
  | none => simp [hd, Receiver.Downloader.new] at hphase
  | some d => exact h.loading inst d info hd (by simpa [hd] using hphase)

/-- The other steps of the receiver. What it downloads is what was stored under the name
that it had looked up. -/
theorem ReceiverSound.other (h : ReceiverSound K b own k r ls us)
    (hstep : Receiver.Step D.nm r .other r') (hh : b.Honest D.nm r r') :
    ReceiverSound K b own k r' ls us := by
  cases hstep with
  | @consider includingOwn todo inst ni hpc hmem hl =>
      have hpc' : ReceiverSound K b own k
          { r with pc := .notifying includingOwn (todo.erase inst) } ls us :=
        { h with listed := nofun }
      unfold Receiver.consider
      dsimp only
      split
      · exact hpc'
      · exact { hpc'.notify inst with }
  | finish hpc => exact { h with listed := nofun }
  | wake hd hphase hsig => exact h.setDownloader _ _ (by simp)
  | @look inst d hd hphase =>
      unfold Receiver.look
      split
      · exact h.setDownloader _ _ (by simp)
      · rename_i info hl
        split
        · exact h.setDownloader _ _ (by simp)
        · refine h.setDownloader _ _ fun info' hload => ?_
          obtain rfl := Receiver.Phase.loading.inj hload
          refine ⟨(Receiver.lookup_eq_some hl).1, ?_⟩
          rintro rfl
          exact h.shown info hl
  | loadFailed hd hphase => exact h.setDownloader _ _ (by simp)
  | @loadCorrupt inst d info hd hphase =>
      have hcorrupt := congrFun hh.intact info.fullName
      rw [h.intact] at hcorrupt
      simp [Receiver.loadCorrupt] at hcorrupt
  | @loadOk inst d info snap hd hphase =>
      have hset : ReceiverSound K b own k
          (r.setDownloader inst { d with phase := .waiting, last := some info }) ls us :=
        h.setDownloader _ _ (by simp)
      refine { hset with taken := fun inst' info' snap' htaken => ?_ }
      rcases hh.download inst' info' snap' htaken with hold | hfile
      · exact h.taken inst' info' snap' hold
      · by_cases hi : inst' = inst
        · subst hi
          have hnow : (r.loadOk inst' d info snap).snapshotsByInstance inst' = some (info, snap) :=
            Function.update_self _ _ _
          obtain ⟨rfl, rfl⟩ := Prod.mk.inj (Option.some.inj (hnow.symm.trans htaken))
          exact ⟨hfile, h.loading inst' d info hd hphase⟩
        · exact h.taken inst' info' snap' ((Function.update_of_ne hi _ _).symm.trans htaken)

end Receiver

/-! ## Steps of the loop and its receiver -/

section System

variable [Preorder κ] {D : Deployment ι σ μ} {K : Knowledge D κ} {b : Storage μ} {c : Config}
  {x y : System σ μ μ}

/-- Who has the latest snapshot of the instance has all that is stored of it. -/
theorem Newest.caught {own : Bytes} {k k' : κ} {f : File μ} (h : Newest K b own k f.info)
    (hb : StorageSound K b) (hf : f ∈ b.files) (hown : f.instanceID = own) (hle : k ≤ k')
    (hcontent : K.content f.snapshot ≤ k') : Caught K b own k' := by
  rcases h with hcaught | hlatest
  · exact hcaught.mono (grown_refl own b) hle
  · intro g hg hgown
    have hnum : g.number ≤ f.number := by
      by_contra hlt
      exact absurd (hlatest g hg hgown)
        (not_le.mpr (hb.dated f hf g hg.1 (hown.trans hgown.symm) (not_le.mp hlt)))
    have hordered : (item K g).content ≤ (item K f).content :=
      hb.archived.ordered _ ⟨g, hg, rfl⟩ _ ⟨f, hf, rfl⟩ (hown.trans hgown.symm) hnum
    exact hordered.trans hcontent

theorem SystemSound.load {s : State σ μ μ} {r : Receiver μ} {ls : List (List NameInfo)}
    {us : List (Update μ)} (h : SystemSound K b c ⟨s, r, ls, us⟩) (hb : StorageSound K b)
    (t : Moment) {inst : Bytes} {info : NameInfo} {snap : μ} (hpc : s.pc = .ready)
    (htaken : r.snapshotsByInstance inst = some (info, snap)) {d : σ} {dirty : Bool}
    (hload : D.mode.loadTxn (s.localChanged (s.env.last + 1)) t (s.env.last + 1) snap
      s.env.current = some (d, dirty)) :
    SystemSound K b c ⟨s.loadTxn D.mode t (OwnData.updateOf inst info snap), r.take inst, ls,
      OwnData.updateOf inst info snap :: us⟩ := by
  obtain ⟨⟨f, hf, rfl, rfl⟩, hinst, hnew⟩ := h.receiver.taken inst info snap htaken
  obtain ⟨hloop, hcur, hle, hcontent⟩ :=
    h.loop.load (u := OwnData.updateOf inst f.info f.snapshot) hf (hb.fit f hf) hinst rfl rfl hload
  refine ⟨h.guarded.load hpc hload, hloop, ?_⟩
  dsimp only
  rw [hcur]
  refine { (h.receiver.mono (grown_refl _ _) hle).take inst with loads := ?_ }
  rintro ⟨u, hu, hsnap, hown⟩
  rcases List.mem_cons.mp hu with rfl | hu
  · exact (hnew hown).caught hb hf (hinst.trans hown) hle hcontent
  · exact (h.receiver.loads ⟨u, hu, hsnap, hown⟩).mono (grown_refl _ _) hle

/-- A step that stores nothing. -/
theorem SystemSound.step (h : SystemSound K b c x) (hb : StorageSound K b)
    (hstep : SystemStep D.nm D.mode c x y) (hst : y.loop.stored = x.loop.stored)
    (hh : b.Honest D.nm x.receiver y.receiver) : SystemSound K b c y := by
  have hguarded := hstep.guarded h.guarded
  cases hstep with
  | loop hs hap =>
      obtain ⟨hloop, hle⟩ := h.loop.step hs hap hst fun hpc =>
        h.receiver.caught (h.guarded.sending (by rw [hpc]; rfl))
      exact ⟨hguarded, hloop, h.receiver.mono (grown_refl _ _) hle⟩
  | list names hidle _ =>
      rcases hh.listing _ _ rfl with hold | ⟨names', hshow, heq⟩
      · rw [hidle] at hold
        cases hold
      · refine ⟨hguarded, h.loop, ?_⟩
        dsimp only at heq ⊢
        rw [heq]
        exact h.receiver.list hb hshow
  | publish hpc => exact ⟨hguarded, h.loop, h.receiver.publish hpc⟩
  | receiver hs => exact ⟨hguarded, h.loop, h.receiver.other hs hh⟩
  | listed _ _ _ => exact ⟨hguarded, h.loop.move rfl rfl rfl rfl, h.receiver⟩
  | load t hpc htaken hload => exact h.load hb t hpc htaken hload
  | @loadFail s r ls us inst info snap t _ _ hload =>
      have hstop : s.loadTxn D.mode t (OwnData.updateOf inst info snap) = s.stop := by
        unfold State.loadTxn
        simp only [OwnData.updateOf, hload]
      refine ⟨hguarded, ?_, ?_⟩
      · dsimp only
        rw [hstop]
        exact h.loop.stop
      · dsimp only
        rw [hstop]
        exact h.receiver.take inst
  | clean _ => exact ⟨hguarded, h.loop.move rfl rfl rfl rfl, h.receiver⟩

end System

end LightningStream.Syncer.Instances
