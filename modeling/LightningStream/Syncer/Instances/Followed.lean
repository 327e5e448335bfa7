import LightningStream.Syncer.Instances.Archived

/-!
# The instances follow each other

How the latest snapshots get from the storage into the data of an instance: the receiver
lists them, notifies the downloader of each instance, which makes the snapshot available,
and the loop loads it. Each of these may lag behind, and a snapshot may be gone by the time
the next one asks for it. But nothing that is still there gets stuck on the way
(`Tracks`): once the receiver has seen the latest snapshots and everyone has come to rest
(`Quiet`), the data has them all (`Quiet.caught`).

That `RunOnce` passes over what it has notified before does no harm here. It could pass
over a snapshot that was lost and is found again, but what is deleted from the storage does
not come back.
-/

namespace LightningStream.Syncer.Instances

open Snapshot Cleaner Loop
open OwnData (System SystemStep SystemStart Free updateOf)
open Receiver (instances lookup nameOf Mindful Downloader)

variable {ι σ μ κ : Type}

/-- A file of this name was stored. -/
def Storage.Filed (b : Storage μ) (m : NameInfo) : Prop := ∃ f ∈ b.files, f.info = m

/-- It is still there. -/
def Storage.Holds (b : Storage μ) (m : NameInfo) : Prop := ∃ f, b.Has f ∧ f.info = m

/-! ## What is on its way -/

section Invariants

variable (b : Storage μ) (own : Bytes) (r : Receiver μ)

/-- The listing that is about to replace the map. Of what was in the map, it has what is
still there, and nothing is new to it that was notified before. -/
structure Listed (l : List NameInfo) : Prop where
  filed : ∀ m ∈ l, b.Filed m
  kept : ∀ m ∈ r.lastSeenByInstance, b.Holds m → m ∈ l
  notified : ∀ inst m, r.lastNotifiedByInstance inst = some m → m ∈ l →
    m ∈ r.lastSeenByInstance

structure Notified (inst : Bytes) (m : NameInfo) : Prop where
  instanceID : m.instanceID = inst
  filed : b.Filed m
  seen : b.Holds m → m ∈ r.lastSeenByInstance
  downloader : r.downloadersByInstance inst ≠ none

/-- The receiver follows the other instances. -/
structure Follows : Prop where
  ownInstance : r.ownInstance = own
  filed : ∀ m ∈ r.lastSeenByInstance, b.Filed m
  listed : ∀ inc l, r.pc = .listed inc l → Listed b r l
  notified : ∀ inst m, r.lastNotifiedByInstance inst = some m → Notified b r inst m
  /-- What is in the map was notified, or `RunOnce` has yet to come to it. -/
  noticed : ∀ inst m, inst ≠ own → lookup r.lastSeenByInstance inst = some m →
    (∃ inc todo, r.pc = .notifying inc todo ∧ inst ∈ todo) ∨
      nameOf (r.lastNotifiedByInstance inst) = m.fullName
  mindful : ∀ inst, inst ≠ own → Mindful inst r

/-- The first `RunOnce` has yet to come to our own instance. -/
def OwnDue : Prop :=
  r.lastNotifiedByInstance own = none ∧
    (r.started = false ∨ (∃ l, r.pc = .listed true l) ∨
      ∃ todo, r.pc = .notifying true todo ∧ own ∈ todo)

/-- The downloader has been woken and will not rest without a snapshot. -/
def Busy (d : Downloader) : Prop :=
  d.newSnapshotSignal = true ∨ d.phase ≠ .waiting ∨ d.last ≠ none

/-- Our own snapshot is on its way, unless a listing was without one. -/
structure Recalls (ls : List (List NameInfo)) (us : List (Update μ)) : Prop where
  before : r.started = false → r.pc = .idle ∧ ls = []
  shown : (∃ inc todo, r.pc = .notifying inc todo) ∨ r.downloadersByInstance own ≠ none →
    r.lastSeenByInstance ∈ ls
  awaited : Free own ls us ∨ OwnDue own r ∨ ∃ d, r.downloadersByInstance own = some d ∧ Busy d

variable [Preorder κ] {D : Deployment ι σ μ} (K : Knowledge D κ)

structure Loaded (k : κ) (us : List (Update μ)) (inst : Bytes) (m : NameInfo) : Prop where
  held : ∃ f ∈ b.files, f.info = m ∧ K.content f.snapshot ≤ k
  load : ∃ u ∈ us, u.isSnapshot = true ∧ u.instanceID = inst

/-- What a downloader has dealt with is available, or loaded. -/
def Delivers (k : κ) (us : List (Update μ)) : Prop :=
  ∀ inst d m, r.downloadersByInstance inst = some d → d.last = some m →
    (∃ snap, r.snapshotsByInstance inst = some (m, snap)) ∨ Loaded b K k us inst m

structure Tracks (c : Config) (x : System σ μ μ) : Prop where
  follows : Follows b c.ownInstanceID x.receiver
  recalls : Recalls c.ownInstanceID x.receiver x.listings x.loads
  delivers : x.loop.pc ≠ .stopped →
    Delivers b x.receiver K (K.held x.loop.env.current) x.loads

end Invariants

/-! ## Another instance moves -/

section Later

variable {b b' : Storage μ} {own : Bytes} {r : Receiver μ}

/-- Files have come or gone, but none has come back. -/
structure Later (b b' : Storage μ) : Prop where
  files : b.files ⊆ b'.files
  has : ∀ f, b'.Has f → b.Filed f.info → b.Has f

theorem later_refl (b : Storage μ) : Later b b := ⟨fun _ h => h, fun _ h _ => h⟩

theorem later_delete (b : Storage μ) (deleted : Bool) (name : Bytes) :
    Later b (b.delete deleted name) := ⟨fun _ h => h, fun _ h _ => has_of_delete h⟩

variable {m : NameInfo}

theorem Later.filed (hl : Later b b') (h : b.Filed m) : b'.Filed m := by
  obtain ⟨f, hf, hinfo⟩ := h
  exact ⟨f, hl.files hf, hinfo⟩

theorem Later.holds (hl : Later b b') (h : b'.Holds m) (hm : b.Filed m) : b.Holds m := by
  obtain ⟨f, hf, rfl⟩ := h
  exact ⟨f, hl.has f hf hm, rfl⟩

theorem Follows.later (h : Follows b own r) (hl : Later b b') : Follows b' own r := by
  refine { h with
    filed := fun m hm => hl.filed (h.filed m hm)
    listed := fun inc l hpc => ?_
    notified := fun inst m hm => ?_ }
  · have hlist := h.listed inc l hpc
    exact ⟨fun m hm => hl.filed (hlist.filed m hm),
      fun m hm hhas => hlist.kept m hm (hl.holds hhas (h.filed m hm)), hlist.notified⟩
  · have hnot := h.notified inst m hm
    exact ⟨hnot.instanceID, hl.filed hnot.filed, fun hhas => hnot.seen (hl.holds hhas hnot.filed),
      hnot.downloader⟩

variable [Preorder κ] {D : Deployment ι σ μ} {K : Knowledge D κ} {k k' : κ}
  {us : List (Update μ)}

theorem later_put {info : NameInfo} {snap : μ} (hb : StorageSound K b)
    (hfresh : Fresh b D own info) : Later b (b.put info snap) := by
  refine ⟨List.subset_cons_self _ _, fun f hf hold => ?_⟩
  rcases (hfresh.has_put hb).mp hf with rfl | hf
  · obtain ⟨g, hg, hinfo⟩ := hold
    exact absurd (congrArg NameInfo.fullName hinfo) (hfresh.name_ne hb hg)
  · exact hf

theorem Delivers.later (h : Delivers b r K k us) (hl : Later b b') (hle : k ≤ k') :
    Delivers b' r K k' us := by
  intro inst d m hd hm
  refine (h inst d m hd hm).imp_right fun hload => ?_
  obtain ⟨⟨f, hf, hinfo, hheld⟩, hu⟩ := hload
  exact ⟨⟨f, hl.files hf, hinfo, hheld.trans hle⟩, hu⟩

theorem Tracks.later {c : Config} {x : System σ μ μ} (h : Tracks b K c x) (hl : Later b b') :
    Tracks b' K c x :=
  ⟨h.follows.later hl, h.recalls, fun hpc => (h.delivers hpc).later hl le_rfl⟩

end Later

/-! ## Names of files -/

section Files

variable [Preorder κ] {D : Deployment ι σ μ} {K : Knowledge D κ} {b : Storage μ} {m m' : NameInfo}

theorem StorageSound.fullName_ne_nil (hb : StorageSound K b) (h : b.Filed m) :
    m.fullName ≠ [] := by
  obtain ⟨f, hf, rfl⟩ := h
  obtain ⟨ni, -, hname⟩ := hb.built f hf
  intro hnil
  rw [show f.name = [] from hnil] at hname
  simp [buildName] at hname

theorem StorageSound.info_inj (hb : StorageSound K b) (h : b.Filed m) (h' : b.Filed m')
    (hname : m.fullName = m'.fullName) : m = m' := by
  obtain ⟨f, hf, rfl⟩ := h
  obtain ⟨g, hg, rfl⟩ := h'
  rw [hb.name_inj hf hg hname]

/-- What is usable in a listing is there. -/
theorem StorageSound.holds_of_usable (hb : StorageSound K b) {names : List Bytes}
    (hshow : b.Shows D.nm names) {r : Receiver μ} (hm : m ∈ r.usable D.nm names) : b.Holds m := by
  obtain ⟨name, hname, -, hsnap, -⟩ := Receiver.mem_usable.mp hm
  rcases hshow.only name hname with hin | ⟨e, herr⟩
  · obtain ⟨f, hf, rfl⟩ := hb.filed name hin
    refine ⟨f, ⟨hf, hin⟩, ?_⟩
    rw [hb.named f hf] at hsnap
    exact Option.some.inj hsnap
  · rw [Receiver.parseName_of_snapshotOf hsnap] at herr
    cases herr

theorem lookup_mem {l : List NameInfo} {inst : Bytes} (h : lookup l inst = some m) : m ∈ l := by
  obtain ⟨-, before, after, hsplit, -⟩ := Receiver.lookup_eq_some h
  rw [hsplit]
  exact List.mem_append_right _ List.mem_cons_self

theorem Storage.Holds.filed (h : b.Holds m) : b.Filed m := by
  obtain ⟨f, hf, hinfo⟩ := h
  exact ⟨f, hf.1, hinfo⟩

end Files

/-! ## The maps of the receiver -/

section Follow

variable [Preorder κ] {D : Deployment ι σ μ} {K : Knowledge D κ} {b : Storage μ} {own : Bytes}
  {r r' : Receiver μ}

theorem follows_new (b : Storage μ) (own : Bytes) : Follows b own (Receiver.new μ own) where
  ownInstance := rfl
  filed := nofun
  listed := nofun
  notified := nofun
  noticed := nofun
  mindful := fun _ _ _ _ hd => nomatch hd

theorem Follows.list (h : Follows b own r) (hb : StorageSound K b) {names : List Bytes}
    (hshow : b.Shows D.nm names) (husable : ∀ m, b.Holds m → m ∈ r.usable D.nm names)
    (hpc : r.pc = .idle) : Follows b own (r.list D.nm names) := by
  refine { h with
    listed := fun inc l hl => ?_
    notified := fun inst m hm => ?_
    noticed := fun inst m hi hm => Or.inr ?_
    mindful := fun inst hi => ?_ }
  · obtain ⟨-, rfl⟩ := Receiver.Pc.listed.inj hl
    refine ⟨fun m hm => (hb.holds_of_usable hshow hm).filed, fun m _ hhas => husable m hhas, ?_⟩
    intro inst m hm hin
    exact (h.notified inst m hm).seen (hb.holds_of_usable hshow hin)
  · exact { h.notified inst m hm with }
  · refine (h.noticed inst m hi hm).resolve_left ?_
    rintro ⟨inc, todo, hnot, -⟩
    rw [hpc] at hnot
    cases hnot
  · exact (Receiver.Step.list names hpc).mindful nofun (h.mindful inst hi)

/-- `RunOnce` passes over what the map had before. -/
theorem Follows.inSight (h : Follows b own r) (hb : StorageSound K b) {inst : Bytes}
    (hi : inst ≠ own) : Receiver.InSight inst r .publish := by
  intro _ inc l hpc ni hni hover
  have hlist := h.listed inc l hpc
  have hinst := (Receiver.lookup_eq_some hni).1
  have hmem := lookup_mem hni
  rcases hover with hname | ⟨-, hown⟩
  · cases hlast : r.lastNotifiedByInstance inst with
    | none =>
        rw [hlast] at hname
        exact absurd hname (hb.fullName_ne_nil (hlist.filed ni hmem))
    | some m =>
        rw [hlast] at hname
        -- two names of one file
        obtain rfl : ni = m :=
          hb.info_inj (hlist.filed ni hmem) (h.notified inst m hlast).filed hname
        have hseen := hlist.notified inst ni hlast hmem
        obtain ⟨ni', hni'⟩ := Option.ne_none_iff_exists'.mp
          (Receiver.lookup_ne_none.mpr (Receiver.mem_instances.mpr ⟨ni, hseen, hinst⟩))
        refine ⟨ni', hni', ?_⟩
        rcases h.noticed inst ni' hi hni' with ⟨inc', todo, hpc', -⟩ | heq
        · rw [hpc] at hpc'
          cases hpc'
        · rw [hlast] at heq
          exact heq.symm
  · exact absurd (hown.trans h.ownInstance) hi

theorem Follows.publish (h : Follows b own r) (hb : StorageSound K b) {inc : Bool}
    {l : List NameInfo} (hpc : r.pc = .listed inc l) : Follows b own (r.publish inc l) := by
  have hlist := h.listed inc l hpc
  refine ⟨h.ownInstance, hlist.filed, nofun, fun inst m hm => ?_,
    fun inst m _ hm => Or.inl ⟨inc, _, rfl, ?_⟩, fun inst hi => ?_⟩
  · have hnot := h.notified inst m hm
    exact ⟨hnot.instanceID, hnot.filed, fun hhas => hlist.kept m (hnot.seen hhas) hhas,
      hnot.downloader⟩
  · exact Receiver.lookup_ne_none.mp (Option.ne_none_iff_exists'.mpr ⟨m, hm⟩)
  · exact (h.mindful inst hi).publish hpc (h.inSight hb hi)

theorem downloaders_notify (r : Receiver μ) (inst i : Bytes)
    (h : r.downloadersByInstance i ≠ none) : (r.notify inst).downloadersByInstance i ≠ none := by
  by_cases hi : i = inst
  · subst hi
    rw [show (r.notify i).downloadersByInstance i = some _ from Function.update_self _ _ _]
    exact Option.some_ne_none _
  · rw [show (r.notify inst).downloadersByInstance i = r.downloadersByInstance i from
      Function.update_of_ne hi _ _]
    exact h

theorem Follows.consider (h : Follows b own r) {inc : Bool} {todo : Finset Bytes} {inst : Bytes}
    {ni : NameInfo} (hpc : r.pc = .notifying inc todo)
    (hl : lookup r.lastSeenByInstance inst = some ni) :
    Follows b own (r.consider inc todo inst ni) := by
  have hmindful : ∀ i, i ≠ own → Mindful i (r.consider inc todo inst ni) :=
    fun i hi => (h.mindful i hi).consider hpc hl
  -- another instance is as much on the list as before
  have hother : ∀ i m, i ≠ own → i ≠ inst → lookup r.lastSeenByInstance i = some m →
      (∃ inc' todo', (.notifying inc (todo.erase inst) : Receiver.Pc) = .notifying inc' todo' ∧
        i ∈ todo') ∨ nameOf (r.lastNotifiedByInstance i) = m.fullName := by
    intro i m hi hne hm
    refine (h.noticed i m hi hm).imp_left ?_
    rintro ⟨inc', todo', hpc', hmem⟩
    rw [hpc] at hpc'
    obtain ⟨-, rfl⟩ := Receiver.Pc.notifying.inj hpc'
    exact ⟨_, _, rfl, Finset.mem_erase.mpr ⟨hne, hmem⟩⟩
  unfold Receiver.consider at hmindful ⊢
  by_cases hover : r.PassesOver inc inst ni
  · rw [if_pos hover] at hmindful ⊢
    refine { h with
      listed := nofun
      notified := fun i m hm => { h.notified i m hm with }
      noticed := fun i m hi hm => ?_
      mindful := hmindful }
    by_cases hne : i = inst
    · subst hne
      obtain rfl : ni = m := Option.some.inj (hl.symm.trans hm)
      rcases hover with hname | ⟨-, hown⟩
      · exact Or.inr hname.symm
      · exact absurd (hown.trans h.ownInstance) hi
    · exact hother i m hi hne hm
  · rw [if_neg hover] at hmindful ⊢
    have hinst := (Receiver.lookup_eq_some hl).1
    have hmem := lookup_mem hl
    refine ⟨h.ownInstance, h.filed, nofun, fun i m hm => ?_, fun i m hi hm => ?_, hmindful⟩
    · change Function.update r.lastNotifiedByInstance inst (some ni) i = some m at hm
      by_cases hne : i = inst
      · subst hne
        rw [Function.update_self] at hm
        obtain rfl := Option.some.inj hm
        refine ⟨hinst, h.filed ni hmem, fun _ => hmem, ?_⟩
        change Function.update r.downloadersByInstance i (some _) i ≠ none
        rw [Function.update_self]
        exact Option.some_ne_none _
      · rw [Function.update_of_ne hne] at hm
        have hnot := h.notified i m hm
        exact ⟨hnot.instanceID, hnot.filed, hnot.seen,
          downloaders_notify { r with pc := _ } inst i hnot.downloader⟩
    · change _ ∨ nameOf (Function.update r.lastNotifiedByInstance inst (some ni) i) = m.fullName
      by_cases hne : i = inst
      · subst hne
        rw [Function.update_self, ← Option.some.inj (hl.symm.trans hm)]
        exact Or.inr rfl
      · rw [Function.update_of_ne hne]
        exact hother i m hi hne hm

/-- A step of a downloader, which is `d` then. -/
structure Downloads (inst : Bytes) (d : Downloader) (r r' : Receiver μ) : Prop where
  own : r'.ownInstance = r.ownInstance
  seen : r'.lastSeenByInstance = r.lastSeenByInstance
  notified : r'.lastNotifiedByInstance = r.lastNotifiedByInstance
  started : r'.started = r.started
  pc : r'.pc = r.pc
  downloaders : r'.downloadersByInstance = Function.update r.downloadersByInstance inst (some d)

theorem downloads_setDownloader (r : Receiver μ) (inst : Bytes) (d : Downloader) :
    Downloads inst d r (r.setDownloader inst d) := ⟨rfl, rfl, rfl, rfl, rfl, rfl⟩

theorem Downloads.ne_none {inst : Bytes} {d : Downloader} (h : Downloads inst d r r') {i : Bytes}
    (hi : r.downloadersByInstance i ≠ none) : r'.downloadersByInstance i ≠ none := by
  rw [h.downloaders]
  by_cases hne : i = inst
  · rw [hne, Function.update_self]
    exact Option.some_ne_none d
  · rw [Function.update_of_ne hne]
    exact hi

/-- What a downloader looks up decides on its phase. -/
theorem look_cases (r : Receiver μ) (inst : Bytes) (d : Downloader) :
    ∃ p, r.look inst d = r.setDownloader inst { d with phase := p } ∧
      (p = .waiting → lookup r.lastSeenByInstance inst = none ∨
        ∃ ni, lookup r.lastSeenByInstance inst = some ni ∧ ni.fullName = nameOf d.last) := by
  unfold Receiver.look
  cases hl : lookup r.lastSeenByInstance inst with
  | none => exact ⟨.waiting, rfl, fun _ => Or.inl rfl⟩
  | some ni =>
      simp only
      by_cases hname : ni.fullName = nameOf d.last
      · rw [if_pos hname]
        exact ⟨.waiting, rfl, fun _ => Or.inr ⟨ni, rfl, hname⟩⟩
      · rw [if_neg hname]
        exact ⟨.loading ni, rfl, nofun⟩

theorem Follows.downloads (h : Follows b own r) {inst : Bytes} {d : Downloader}
    (hd : Downloads inst d r r') (hmindful : ∀ i, i ≠ own → Mindful i r') : Follows b own r' := by
  refine ⟨hd.own.trans h.ownInstance, ?_, fun inc l hpc => ?_, fun i m hm => ?_, ?_, hmindful⟩
  · rw [hd.seen]
    exact h.filed
  · have hlist := h.listed inc l (hd.pc ▸ hpc)
    exact ⟨hlist.filed, by rw [hd.seen]; exact hlist.kept,
      by rw [hd.seen, hd.notified]; exact hlist.notified⟩
  · have hnot := h.notified i m (hd.notified ▸ hm)
    exact ⟨hnot.instanceID, hnot.filed, by rw [hd.seen]; exact hnot.seen,
      hd.ne_none hnot.downloader⟩
  · rw [hd.seen, hd.pc, hd.notified]
    exact h.noticed

theorem Follows.other (h : Follows b own r) (hstep : Receiver.Step D.nm r .other r') :
    Follows b own r' := by
  have hmindful : ∀ i, i ≠ own → Mindful i r' :=
    fun i hi => hstep.mindful nofun (h.mindful i hi)
  cases hstep with
  | consider hpc _ hl => exact h.consider hpc hl
  | finish hpc =>
      refine { h with
        listed := nofun
        notified := fun i m hm => { h.notified i m hm with }
        noticed := fun i m hi hm => Or.inr ?_
        mindful := hmindful }
      refine (h.noticed i m hi hm).resolve_left ?_
      rintro ⟨inc, todo, hpc', hmem⟩
      rw [hpc] at hpc'
      obtain ⟨-, rfl⟩ := Receiver.Pc.notifying.inj hpc'
      exact Finset.notMem_empty i hmem
  | wake _ _ _ => exact h.downloads (downloads_setDownloader _ _ _) hmindful
  | @look inst d _ _ =>
      obtain ⟨p, hlook, -⟩ := look_cases r inst d
      rw [hlook] at hmindful ⊢
      exact h.downloads (downloads_setDownloader _ _ _) hmindful
  | loadFailed _ _ => exact h.downloads (downloads_setDownloader _ _ _) hmindful
  | loadCorrupt _ _ => exact h.downloads ⟨rfl, rfl, rfl, rfl, rfl, rfl⟩ hmindful
  | loadOk _ _ _ => exact h.downloads ⟨rfl, rfl, rfl, rfl, rfl, rfl⟩ hmindful

theorem Follows.take (h : Follows b own r) (inst : Bytes) : Follows b own (r.take inst) :=
  { h with
    listed := fun inc l hpc => { h.listed inc l hpc with }
    notified := fun i m hm => { h.notified i m hm with }
    mindful := fun i hi => (h.mindful i hi).mono rfl rfl (fun _ hc => hc) fun _ hdue => hdue }

end Follow

/-! ## Our own snapshot -/

section Recall

variable [Preorder κ] {D : Deployment ι σ μ} {K : Knowledge D κ} {b : Storage μ} {own : Bytes}
  {r r' : Receiver μ} {ls : List (List NameInfo)} {us us' : List (Update μ)}

theorem recalls_new (own : Bytes) (us : List (Update μ)) :
    Recalls own (Receiver.new μ own) [] us where
  before := fun _ => ⟨rfl, rfl⟩
  shown := by
    rintro (⟨inc, todo, hpc⟩ | hd)
    · cases hpc
    · exact absurd rfl hd
  awaited := Or.inr (Or.inl ⟨rfl, Or.inl rfl⟩)

theorem Recalls.list (h : Recalls own r ls us) (hpc : r.pc = .idle) (nm : Naming)
    (names : List Bytes) : Recalls own (r.list nm names) ls us := by
  refine ⟨nofun, ?_, h.awaited.imp_right (Or.imp_left ?_)⟩
  · rintro (⟨inc, todo, hnot⟩ | hd)
    · cases hnot
    · exact h.shown (Or.inr hd)
  · rintro ⟨hnone, hstart | ⟨l, hl⟩ | ⟨todo, hnot, -⟩⟩
    · refine ⟨hnone, Or.inr (Or.inl ⟨r.usable nm names, ?_⟩)⟩
      rw [Receiver.list, hstart]
      rfl
    · rw [hpc] at hl
      cases hl
    · rw [hpc] at hnot
      cases hnot

theorem Recalls.started (h : Recalls own r ls us) (hpc : r.pc ≠ .idle) : r.started ≠ false :=
  fun hs => hpc (h.before hs).1

/-- The loop over the map of the first `RunOnce`. -/
theorem Recalls.todo (h : Recalls own r ls us) {inc : Bool} {todo : Finset Bytes}
    (hpc : r.pc = .notifying inc todo) (hdue : OwnDue own r) : inc = true ∧ own ∈ todo := by
  rcases hdue.2 with hs | ⟨l, hl⟩ | ⟨todo', hnot, hmem⟩
  · exact absurd hs (h.started (by simp [hpc]))
  · rw [hpc] at hl
    cases hl
  · rw [hpc] at hnot
    obtain ⟨rfl, rfl⟩ := Receiver.Pc.notifying.inj hnot
    exact ⟨rfl, hmem⟩

theorem Recalls.publish (h : Recalls own r ls us) {inc : Bool} {l : List NameInfo}
    (hpc : r.pc = .listed inc l) : Recalls own (r.publish inc l) (l :: ls) us := by
  have hstart := h.started (by simp [hpc])
  refine ⟨fun hs => absurd hs hstart, fun _ => List.mem_cons_self, ?_⟩
  rcases h.awaited with hfree | ⟨hnone, hdue⟩ | hbusy
  · exact Or.inl (hfree.mono (List.subset_cons_self _ _) (List.Subset.refl _))
  · by_cases hin : own ∈ instances l
    · refine Or.inr (Or.inl ⟨hnone, Or.inr (Or.inr ?_)⟩)
      rcases hdue with hs | ⟨l', hl'⟩ | ⟨todo, hnot, -⟩
      · exact absurd hs hstart
      · rw [hpc] at hl'
        obtain ⟨rfl, -⟩ := Receiver.Pc.listed.inj hl'
        exact ⟨_, rfl, hin⟩
      · rw [hpc] at hnot
        cases hnot
    · exact Or.inl (Or.inl ⟨l, List.mem_cons_self, hin⟩)
  · exact Or.inr (Or.inr hbusy)

theorem Recalls.consider (h : Recalls own r ls us) {inc : Bool} {todo : Finset Bytes}
    {inst : Bytes} {ni : NameInfo} (hpc : r.pc = .notifying inc todo)
    (hname : ni.fullName ≠ []) : Recalls own (r.consider inc todo inst ni) ls us := by
  have hseen := h.shown (Or.inl ⟨inc, todo, hpc⟩)
  have hstart := h.started (by simp [hpc])
  unfold Receiver.consider
  by_cases hover : r.PassesOver inc inst ni
  · rw [if_pos hover]
    refine ⟨fun hs => absurd hs hstart, fun _ => hseen,
      h.awaited.imp_right (Or.imp_left fun hdue => ?_)⟩
    obtain ⟨rfl, hmem⟩ := h.todo hpc hdue
    refine ⟨hdue.1, Or.inr (Or.inr ⟨_, rfl, Finset.mem_erase.mpr ⟨?_, hmem⟩⟩)⟩
    -- our own instance is not passed over the first time
    rintro rfl
    rcases hover with heq | ⟨hinc, -⟩
    · rw [hdue.1] at heq
      exact hname heq
    · cases hinc
  · rw [if_neg hover]
    refine ⟨fun hs => absurd hs hstart, fun _ => hseen, ?_⟩
    by_cases hi : own = inst
    · subst hi
      exact Or.inr (Or.inr ⟨_, Function.update_self _ _ _, Or.inl rfl⟩)
    · refine h.awaited.imp_right (Or.imp (fun hdue => ?_) ?_)
      · obtain ⟨rfl, hmem⟩ := h.todo hpc hdue
        exact ⟨(Function.update_of_ne hi _ _).trans hdue.1,
          Or.inr (Or.inr ⟨_, rfl, Finset.mem_erase.mpr ⟨hi, hmem⟩⟩)⟩
      · rintro ⟨d, hd, hbusy⟩
        exact ⟨d, (Function.update_of_ne hi _ _).trans hd, hbusy⟩

/-- A step of a downloader that leaves it busy, or finds that nothing is to be done. -/
theorem Recalls.downloads (h : Recalls own r ls us) {inst : Bytes} {d d' : Downloader}
    (hd : r.downloadersByInstance inst = some d) (hdl : Downloads inst d' r r')
    (hbusy : inst = own → Busy d → Busy d' ∨ Free own ls us) : Recalls own r' ls us := by
  refine ⟨by rw [hdl.started, hdl.pc]; exact h.before, fun hshow => ?_, ?_⟩
  · rw [hdl.seen]
    rw [hdl.pc] at hshow
    refine h.shown (hshow.imp_right fun hne => ?_)
    by_cases hi : own = inst
    · rw [hi, hd]
      exact Option.some_ne_none d
    · rwa [hdl.downloaders, Function.update_of_ne hi] at hne
  · rcases h.awaited with hfree | hdue | ⟨d₀, hd₀, hbusy₀⟩
    · exact Or.inl hfree
    · refine Or.inr (Or.inl ?_)
      rw [OwnDue, hdl.notified, hdl.started, hdl.pc]
      exact hdue
    · by_cases hi : own = inst
      · subst hi
        obtain rfl : d = d₀ := Option.some.inj (hd.symm.trans hd₀)
        rcases hbusy rfl hbusy₀ with hb | hfree
        · exact Or.inr (Or.inr ⟨d', by rw [hdl.downloaders, Function.update_self], hb⟩)
        · exact Or.inl hfree
      · exact Or.inr (Or.inr ⟨d₀, by rw [hdl.downloaders, Function.update_of_ne hi, hd₀], hbusy₀⟩)

theorem Recalls.look (h : Recalls own r ls us) (hb : StorageSound K b)
    (hfiled : ∀ m ∈ r.lastSeenByInstance, b.Filed m) {inst : Bytes} {d : Downloader}
    (hd : r.downloadersByInstance inst = some d) : Recalls own (r.look inst d) ls us := by
  obtain ⟨p, hlook, hwait⟩ := look_cases r inst d
  rw [hlook]
  refine h.downloads hd (downloads_setDownloader _ _ _) ?_
  rintro rfl -
  by_cases hp : p = .waiting
  · rcases hwait hp with hnone | ⟨ni, hl, hname⟩
    · refine Or.inr (Or.inl ⟨_, h.shown (Or.inr (by rw [hd]; exact Option.some_ne_none d)), ?_⟩)
      exact fun hin => Receiver.lookup_ne_none.mpr hin hnone
    · -- it has dealt with this one already
      refine Or.inl (Or.inr (Or.inr fun hlast => ?_))
      rw [show d.last = none from hlast] at hname
      exact hb.fullName_ne_nil (hfiled ni (lookup_mem hl)) hname
  · exact Or.inl (Or.inr (Or.inl hp))

theorem Recalls.other (h : Recalls own r ls us) (hb : StorageSound K b)
    (hfiled : ∀ m ∈ r.lastSeenByInstance, b.Filed m)
    (hstep : Receiver.Step D.nm r .other r') : Recalls own r' ls us := by
  cases hstep with
  | consider hpc _ hl => exact h.consider hpc (hb.fullName_ne_nil (hfiled _ (lookup_mem hl)))
  | finish hpc =>
      refine ⟨fun hs => ⟨rfl, (h.before hs).2⟩, fun hshow => ?_,
        h.awaited.imp_right (Or.imp_left fun hdue => ?_)⟩
      · rcases hshow with ⟨inc, todo, hnot⟩ | hd
        · cases hnot
        · exact h.shown (Or.inr hd)
      · exact absurd (h.todo hpc hdue).2 (Finset.notMem_empty own)
  | wake hd _ _ =>
      exact h.downloads hd (downloads_setDownloader _ _ _) fun _ _ => Or.inl (Or.inr (Or.inl nofun))
  | look hd _ => exact h.look hb hfiled hd
  | loadFailed hd _ =>
      exact h.downloads hd (downloads_setDownloader _ _ _) fun _ _ => Or.inl (Or.inr (Or.inl nofun))
  | loadCorrupt hd _ =>
      exact h.downloads hd ⟨rfl, rfl, rfl, rfl, rfl, rfl⟩ fun _ _ => Or.inl (Or.inr (Or.inl nofun))
  | loadOk _ hd _ =>
      exact h.downloads hd ⟨rfl, rfl, rfl, rfl, rfl, rfl⟩ fun _ _ => Or.inl (Or.inr (Or.inr nofun))

theorem Recalls.take (h : Recalls own r ls us) (hus : us ⊆ us') (inst : Bytes) :
    Recalls own (r.take inst) ls us' :=
  ⟨h.before, h.shown, h.awaited.imp_left fun hfree => hfree.mono (List.Subset.refl _) hus⟩

end Recall

/-! ## Downloads and loads -/

section Deliver

variable [Preorder κ] {D : Deployment ι σ μ} {K : Knowledge D κ} {b : Storage μ} {own : Bytes}
  {r r' : Receiver μ} {k k' : κ} {us us' : List (Update μ)}

/-- A step that makes nothing available. -/
theorem Delivers.keep (h : Delivers b r K k us)
    (hsnap : r'.snapshotsByInstance = r.snapshotsByInstance)
    (hlast : ∀ i d' m, r'.downloadersByInstance i = some d' → d'.last = some m →
      ∃ d, r.downloadersByInstance i = some d ∧ d.last = some m) : Delivers b r' K k us := by
  intro i d' m hd' hm
  obtain ⟨d, hd, hm⟩ := hlast i d' m hd' hm
  rw [hsnap]
  exact h i d m hd hm

theorem Delivers.setDownloader (h : Delivers b r K k us) {inst : Bytes} {d d' : Downloader}
    (hd : r.downloadersByInstance inst = some d) (hlast : d'.last = d.last) :
    Delivers b (r.setDownloader inst d') K k us := by
  refine h.keep rfl fun i e m he hm => ?_
  change Function.update r.downloadersByInstance inst (some d') i = some e at he
  by_cases hi : i = inst
  · rw [hi, Function.update_self] at he
    obtain rfl := Option.some.inj he
    exact ⟨d, hi ▸ hd, hlast ▸ hm⟩
  · rw [Function.update_of_ne hi] at he
    exact ⟨e, he, hm⟩

theorem Delivers.consider (h : Delivers b r K k us) {inc : Bool} {todo : Finset Bytes}
    {inst : Bytes} {ni : NameInfo} : Delivers b (r.consider inc todo inst ni) K k us := by
  unfold Receiver.consider
  by_cases hover : r.PassesOver inc inst ni
  · rw [if_pos hover]
    exact h
  · rw [if_neg hover]
    refine h.keep rfl fun i e m he hm => ?_
    change Function.update r.downloadersByInstance inst _ i = some e at he
    by_cases hi : i = inst
    · subst hi
      rw [Function.update_self] at he
      cases hd : r.downloadersByInstance i with
      | none =>
          rw [← Option.some.inj he] at hm
          simp [hd, Downloader.new] at hm
      | some d =>
          rw [← Option.some.inj he] at hm
          exact ⟨d, rfl, by simpa [hd] using hm⟩
    · rw [Function.update_of_ne hi] at he
      exact ⟨e, he, hm⟩

theorem Delivers.other (h : Delivers b r K k us) (hstep : Receiver.Step D.nm r .other r')
    (hintact : ∀ name, r'.corruptSnapshots name = false) : Delivers b r' K k us := by
  cases hstep with
  | consider _ _ _ => exact h.consider
  | finish _ => exact h
  | wake hd _ _ => exact h.setDownloader hd rfl
  | @look inst d hd _ =>
      obtain ⟨p, hlook, -⟩ := look_cases r inst d
      rw [hlook]
      exact h.setDownloader hd rfl
  | loadFailed hd _ => exact h.setDownloader hd rfl
  | @loadCorrupt inst d ni hd _ =>
      have hcorrupt := hintact ni.fullName
      simp [Receiver.loadCorrupt] at hcorrupt
  | @loadOk inst d ni snap hd _ =>
      intro i e m he hm
      change Function.update r.downloadersByInstance inst _ i = some e at he
      change (∃ snap', Function.update r.snapshotsByInstance inst (some (ni, snap)) i =
        some (m, snap')) ∨ _
      by_cases hi : i = inst
      · rw [hi, Function.update_self] at he
        rw [← Option.some.inj he] at hm
        rw [hi, Function.update_self, Option.some.inj hm]
        exact Or.inl ⟨snap, rfl⟩
      · rw [Function.update_of_ne hi] at he
        rw [Function.update_of_ne hi]
        exact h i e m he hm

/-- What was available is loaded. -/
theorem Delivers.load (h : Delivers b r K k us) (hle : k ≤ k') {inst : Bytes} {u : Update μ}
    {f : File μ} (hf : f ∈ b.files)
    (htaken : r.snapshotsByInstance inst = some (f.info, f.snapshot))
    (hcontent : K.content f.snapshot ≤ k') (hsnap : u.isSnapshot = true)
    (hinst : u.instanceID = inst) : Delivers b (r.take inst) K k' (u :: us) := by
  intro i d m hd hm
  change (∃ snap, Function.update r.snapshotsByInstance inst none i = some (m, snap)) ∨ _
  have hloaded : Loaded b K k us i m → Loaded b K k' (u :: us) i m := by
    rintro ⟨⟨g, hg, hinfo, hheld⟩, v, hv, hrest⟩
    exact ⟨⟨g, hg, hinfo, hheld.trans hle⟩, v, List.mem_cons_of_mem _ hv, hrest⟩
  by_cases hi : i = inst
  · subst hi
    refine Or.inr ?_
    rcases h i d m hd hm with ⟨snap, hs⟩ | hl
    · rw [htaken] at hs
      obtain ⟨rfl, -⟩ := Prod.mk.inj (Option.some.inj hs)
      exact ⟨⟨f, hf, rfl, hcontent⟩, u, List.mem_cons_self, hsnap, hinst⟩
    · exact hloaded hl
  · rw [Function.update_of_ne hi]
    exact (h i d m hd hm).imp_right hloaded

end Deliver

/-! ## Steps of the system -/

section System

variable [Preorder κ] {D : Deployment ι σ μ} {K : Knowledge D κ} {b : Storage μ} {c : Config}
  {x y : System σ μ μ}

/-- A loop that has stopped stays so. -/
theorem pc_ne_stopped {s s' : State σ μ μ} {e : Event σ μ} (hstep : Step D.mode c s e s')
    (h : s'.pc ≠ .stopped) : s.pc ≠ .stopped := by
  intro hstop
  cases hstep with
  | commit _ => exact h hstop
  | fail => exact h rfl
  | _ => simp_all

theorem kind_of_snapshotOf {nm : Naming} {name : Bytes} {info : NameInfo}
    (h : snapshotOf nm name = some info) : info.kind = kindSnapshot := by
  unfold snapshotOf at h
  split at h
  · cases h
  · split at h
    · rename_i hkind
      rw [← Option.some.inj h]
      exact hkind
    · cases h

theorem Tracks.load {s : State σ μ μ} {r : Receiver μ} {ls : List (List NameInfo)}
    {us : List (Update μ)} (h : Tracks b K c ⟨s, r, ls, us⟩)
    (hsound : SystemSound K b c ⟨s, r, ls, us⟩) (hb : StorageSound K b) (t : Moment)
    {inst : Bytes} {info : NameInfo} {snap : μ} (hpc : s.pc = .ready)
    (htaken : r.snapshotsByInstance inst = some (info, snap)) {d : σ} {dirty : Bool}
    (hload : D.mode.loadTxn (s.localChanged (s.env.last + 1)) t (s.env.last + 1) snap
      s.env.current = some (d, dirty)) :
    Tracks b K c ⟨s.loadTxn D.mode t (updateOf inst info snap), r.take inst, ls,
      updateOf inst info snap :: us⟩ := by
  obtain ⟨⟨f, hf, rfl, rfl⟩, hinst, -⟩ := hsound.receiver.taken inst info snap htaken
  obtain ⟨-, hcur, hle, hcontent⟩ := hsound.loop.load (u := updateOf inst f.info f.snapshot) hf
    (hb.fit f hf) hinst rfl rfl hload
  refine ⟨h.follows.take inst, h.recalls.take (List.subset_cons_self _ _) inst, fun _ => ?_⟩
  dsimp only
  rw [hcur]
  have hdelivers := h.delivers (by simp [hpc])
  refine hdelivers.load hle hf htaken hcontent ?_ rfl
  exact decide_eq_true (kind_of_snapshotOf (hb.named f hf))

/-- A step that stores nothing. -/
theorem Tracks.step (h : Tracks b K c x) (hsound : SystemSound K b c x) (hb : StorageSound K b)
    (hstep : SystemStep D.nm D.mode c x y) (hst : y.loop.stored = x.loop.stored)
    (hh : b.Honest D.nm x.receiver y.receiver) : Tracks b K c y := by
  cases hstep with
  | loop hs hap =>
      obtain ⟨-, hle⟩ := hsound.loop.step hs hap hst fun hpc =>
        hsound.receiver.caught (hsound.guarded.sending (by rw [hpc]; rfl))
      exact ⟨h.follows, h.recalls, fun hpc =>
        (h.delivers (pc_ne_stopped hs hpc)).later (later_refl b) hle⟩
  | list names hidle _ =>
      rcases hh.listing _ _ rfl with hold | ⟨names', hshow, heq⟩
      · rw [hidle] at hold
        cases hold
      · have hdelivers := h.delivers
        dsimp only at heq hdelivers ⊢
        rw [heq]
        refine ⟨h.follows.list hb hshow ?_ hidle, h.recalls.list hidle _ _, hdelivers⟩
        rintro m ⟨f, hf, rfl⟩
        exact hsound.receiver.usable hb hshow hf
  | publish hpc => exact ⟨h.follows.publish hb hpc, h.recalls.publish hpc, h.delivers⟩
  | receiver hs =>
      refine ⟨h.follows.other hs, h.recalls.other hb h.follows.filed hs, fun hpc => ?_⟩
      refine (h.delivers hpc).other hs fun name => ?_
      exact (congrFun hh.intact name).trans (hsound.receiver.intact name)
  | listed hpc _ _ => exact ⟨h.follows, h.recalls, fun _ => h.delivers (by simp [hpc])⟩
  | load t hpc htaken hload => exact h.load hsound hb t hpc htaken hload
  | @loadFail s r ls us inst info snap t _ _ hload =>
      have hstop : s.loadTxn D.mode t (updateOf inst info snap) = s.stop := by
        unfold State.loadTxn
        simp only [updateOf, hload]
      refine ⟨h.follows.take inst, h.recalls.take (List.Subset.refl _) inst, fun hpc => ?_⟩
      dsimp only at hpc
      rw [hstop] at hpc
      exact absurd rfl hpc
  | clean hpc => exact ⟨h.follows, h.recalls, fun _ => h.delivers (by simp [hpc])⟩

theorem tracks_start (h : SystemStart c x) : Tracks b K c x := by
  refine ⟨?_, ?_, fun _ => ?_⟩
  · rw [h.receiver]
    exact follows_new b c.ownInstanceID
  · rw [h.receiver, h.listings]
    exact recalls_new c.ownInstanceID x.loads
  · rw [h.receiver]
    exact fun _ _ _ hd => nomatch hd

end System

section Net

variable [DecidableEq ι] [Preorder κ] {D : Deployment ι σ μ} {K : Knowledge D κ}
  {s s' : Net ι σ μ}

theorem tracks_set {i : ι} {x : Node σ μ} {b : Storage μ} (hl : Later s.storage b)
    (h : ∀ j, Tracks s.storage K (D.config j) (s.node j).system)
    (hi : Tracks b K (D.config i) x.system) (j : ι) :
    Tracks b K (D.config j) ((s.set i x b).node j).system := by
  change Tracks b K (D.config j) (Function.update s.node i x j).system
  by_cases hj : j = i
  · rw [hj, Function.update_self]
    exact hi
  · rw [Function.update_of_ne hj]
    exact (h j).later hl

theorem NetStep.tracks (hstep : NetStep D s s') (hs : NetSound K s)
    (h : ∀ j, Tracks s.storage K (D.config j) (s.node j).system) :
    ∀ j, Tracks s'.storage K (D.config j) (s'.node j).system := by
  cases hstep with
  | system i hstep hst hh =>
      exact tracks_set (later_refl _) h ((h i).step (hs.nodes i).system hs.storage hstep hst hh)
  | @store i x txnID seen snap built info hx hpc hbuilt hown hsnap hlater hpos =>
      subst hx
      have hfresh := fresh_of_built hbuilt hown hsnap hlater hpos
      have hput : Later s.storage (s.storage.put info snap) := later_put hs.storage hfresh
      have hi := (h i).later hput
      exact tracks_set hput h ⟨hi.follows, hi.recalls, fun _ => hi.delivers (by simp [hpc])⟩
  | setCommitted i _ => exact tracks_set (later_refl _) h (h i)
  | sift i _ _ _ _ _ => exact tracks_set (later_refl _) h (h i)
  | supersede i deleted _ =>
      exact tracks_set (later_delete _ _ _) h ((h i).later (later_delete _ _ _))
  | check i deleted _ _ _ =>
      exact tracks_set (later_delete _ _ _) h ((h i).later (later_delete _ _ _))
  | restart i conf hboots => exact tracks_set (later_refl _) h (tracks_start hboots.start)

theorem NetRun.tracks (hr : NetRun D s s') (h : NetStart D K.Good s) :
    ∀ i, Tracks s'.storage K (D.config i) (s'.node i).system := by
  induction hr with
  | refl => exact fun i => tracks_start (h.system i).start
  | tail hr hstep ih => exact hstep.tracks (NetRun.sound hr h) ih

end Net

/-! ## An instance at rest -/

/-- The loop sleeps and has nothing to send, the receiver has seen the latest snapshots, and
nothing is on its way. -/
structure Quiet (b : Storage μ) (x : System σ μ μ) : Prop where
  loop : x.loop.pc = .pause
  synced : x.loop.env.last ≤ x.loop.lastSynced
  receiver : x.receiver.pc = .idle
  seen : ∀ f, b.Latest f → lookup x.receiver.lastSeenByInstance f.instanceID = some f.info
  downloaders : ∀ inst d, x.receiver.downloadersByInstance inst = some d →
    d.phase = .waiting ∧ d.newSnapshotSignal = false
  snapshots : ∀ inst, x.receiver.snapshotsByInstance inst = none

section Quiet

variable [Preorder κ] {D : Deployment ι σ μ} {K : Knowledge D κ} {b : Storage μ} {c : Config}
  {x : System σ μ μ}

theorem Quiet.loaded (hq : Quiet b x) (h : Tracks b K c x) {inst : Bytes} {d : Downloader}
    {m : NameInfo} (hd : x.receiver.downloadersByInstance inst = some d) (hm : d.last = some m) :
    Loaded b K (K.held x.loop.env.current) x.loads inst m := by
  refine (h.delivers (by simp [hq.loop]) inst d m hd hm).resolve_left ?_
  rintro ⟨snap, hsnap⟩
  rw [hq.snapshots] at hsnap
  cases hsnap

/-- Our own snapshot was loaded, or there was none. -/
theorem Quiet.free (hq : Quiet b x) (h : Tracks b K c x) (hsound : SystemSound K b c x) :
    Free c.ownInstanceID x.listings x.loads := by
  have hlisted := hsound.guarded.shown (by rw [hq.loop]; rfl)
  rcases h.recalls.awaited with hfree | ⟨-, hdue⟩ | ⟨d, hd, hbusy⟩
  · exact hfree
  · rcases hdue with hs | ⟨l, hl⟩ | ⟨todo, hnot, -⟩
    · rw [(h.recalls.before hs).2] at hlisted
      cases hlisted
    · rw [hq.receiver] at hl
      cases hl
    · rw [hq.receiver] at hnot
      cases hnot
  · obtain ⟨hphase, hsignal⟩ := hq.downloaders _ d hd
    rcases hbusy with hsig | hph | hlast
    · rw [hsignal] at hsig
      cases hsig
    · exact absurd hphase hph
    · obtain ⟨m, hm⟩ := Option.ne_none_iff_exists'.mp hlast
      exact Or.inr (hq.loaded h hd hm).load

/-- **An instance at rest has what is stored**: its data has the latest snapshot of every
instance. -/
theorem Quiet.caught (hq : Quiet b x) (h : Tracks b K c x) (hsound : SystemSound K b c x)
    (hb : StorageSound K b) {f : File μ} (hf : b.Latest f) :
    K.content f.snapshot ≤ K.held x.loop.env.current := by
  by_cases hown : f.instanceID = c.ownInstanceID
  · exact hsound.receiver.caught (hq.free h hsound) f hf.1 hown
  · have hseen := hq.seen f hf
    have hfiled : b.Filed f.info := ⟨f, hf.1.1, rfl⟩
    -- it was notified, and its downloader has dealt with it
    have hname : nameOf (x.receiver.lastNotifiedByInstance f.instanceID) = f.name := by
      refine (h.follows.noticed _ _ hown hseen).resolve_left ?_
      rintro ⟨inc, todo, hpc, -⟩
      rw [hq.receiver] at hpc
      cases hpc
    obtain ⟨m, hm⟩ : ∃ m, x.receiver.lastNotifiedByInstance f.instanceID = some m := by
      cases hlast : x.receiver.lastNotifiedByInstance f.instanceID with
      | none =>
          rw [hlast] at hname
          exact absurd hname.symm (hb.fullName_ne_nil hfiled)
      | some m => exact ⟨m, rfl⟩
    obtain ⟨d, hd⟩ := Option.ne_none_iff_exists'.mp (h.follows.notified _ m hm).downloader
    have hlast : f.name = nameOf d.last := by
      by_contra hne
      exact (h.follows.mindful _ hown).attended hq.receiver d f.info hd hseen
        (hsound.receiver.intact _) hne (hq.downloaders _ d hd)
    cases hd' : d.last with
    | none =>
        rw [hd'] at hlast
        exact absurd hlast (hb.fullName_ne_nil hfiled)
    | some m' =>
        obtain ⟨⟨g, hg, rfl, hheld⟩, -⟩ := hq.loaded h hd hd'
        rw [hd'] at hlast
        rw [hb.name_inj hf.1.1 hg hlast]
        exact hheld

end Quiet

end LightningStream.Syncer.Instances
