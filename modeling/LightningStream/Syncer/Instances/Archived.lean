import LightningStream.Cleaner.KeepInterval
import LightningStream.Syncer.Instances

/-!
# The storage is an archive

What the cleaners and the calls of `Store` do to the storage, and with that every step of
the system: the storage goes on as an `Archive`, or not at all (`NetStep.refines`).

A cleaner takes one snapshot for superseded because of another of the same instance. That
one has a later time in its name, or the cleaner has seen it for a shorter time. Both mean
that it was stored later: the clock of the instance does not go back, and whoever lists the
storage sees first what was stored first.
-/

namespace LightningStream.Syncer.Instances

open Snapshot Cleaner Loop
open OwnData (System SystemStep SystemStart Guarded Free)
open Receiver (Nameable)
open Committed (mergeProven)

variable {ι σ μ κ : Type}

/-! ## The lists of `RunOnce` -/

section Sift

variable {nm : Naming} {srt : Sorter} {now : Time} {w : Worker} {ls : Listing} {ni : NameInfo}

theorem sub_antitone (now : Time) {t t' : Time} (h : t ≤ t') : now.sub t' ≤ now.sub t :=
  max_le_max le_rfl (min_le_min le_rfl (Int.sub_le_sub_left h now))

/-- The first filter leaves no file without a first sighting. -/
theorem protectRecent_sightings (conf : Cleanup) (now : Time) (name : Bytes) (l : List NameInfo)
    (fs : Bytes → Option Time) (si : Bytes → Bool) :
    (protectRecent conf now l fs si).1 name =
      if name ∈ l.map NameInfo.fullName then some ((fs name).getD now) else fs name := by
  induction l generalizing fs si with
  | nil => rfl
  | cons x rest ih =>
      unfold protectRecent
      cases hfs : fs x.fullName with
      | none =>
          simp only
          rw [ih]
          by_cases hname : name = x.fullName
          · subst hname
            simp [hfs]
          · simp [hname]
      | some t =>
          simp only
          have hrest : ∀ si', (protectRecent conf now rest fs si').1 name =
              if name ∈ (x :: rest).map NameInfo.fullName then some ((fs name).getD now)
              else fs name := by
            intro si'
            rw [ih]
            by_cases hname : name = x.fullName
            · subst hname
              simp [hfs]
            · simp [hname]
          split
          · exact hrest _
          · exact hrest _

theorem sort_snapshots_nodup (srt : Sorter) (nm : Naming) (ls : Listing) :
    ((srt.sort (snapshotsIn nm ls)).map NameInfo.fullName).Nodup :=
  ((srt.perm _).map _).nodup_iff.mpr (snapshotsIn_nodup nm ls)

theorem sift_sightings (hw : w.IgnoresInvalid nm) (name : Bytes) :
    (Committed.sift w nm srt now ls).1.snapFirstSeen name =
      if name ∈ (snapshotsIn nm ls).map NameInfo.fullName then
        some ((w.snapFirstSeen name).getD now) else none := by
  unfold Committed.sift
  simp only [candidates_eq hw, protectRecent_sightings,
    ((srt.perm (snapshotsIn nm ls)).map NameInfo.fullName).mem_iff]
  split <;> rfl

/-- What is taken for superseded stands beside another of its instance, that has a later
time or was seen later. -/
theorem sift_superseded (hw : w.IgnoresInvalid nm) (hen : w.conf.enabled = true)
    (h : ni ∈ (Committed.sift w nm srt now ls).2.1) :
    ni ∈ snapshotsIn nm ls ∧ ∃ m ∈ snapshotsIn nm ls, m.instanceID = ni.instanceID ∧
      (ni.timestamp ≤ m.timestamp ∧ m ≠ ni ∨
        settled w.conf now w.snapFirstSeen ni = true ∧
          recent w.conf now w.snapFirstSeen m = true) := by
  obtain ⟨kept, served, hf⟩ := runOnce_filtered srt (c := ⟨w, now, ls⟩) hw hen
  have hmem : ni ∈ (keepNewest w.conf now kept served).1 := by
    have hdel : (⟨.newerSnapshot, ni⟩ : Deletion) ∈ (w.runOnce nm srt now (some ls)).2 := by
      rw [Committed.runOnce_eq hen]
      exact List.mem_append_left _ (List.mem_map_of_mem h)
    rw [show (w.runOnce nm srt now (some ls)).2 = _ from hf.deletions] at hdel
    rcases List.mem_append.mp hdel with hdel | hdel
    · obtain ⟨m, hm, heq⟩ := List.mem_map.mp hdel
      exact (Deletion.mk.inj heq).2 ▸ hm
    · obtain ⟨m, -, heq⟩ := List.mem_map.mp hdel
      cases (Deletion.mk.inj heq).1
  obtain ⟨hkept, hor⟩ := keepNewest_removed hf.order hmem
  obtain ⟨hin, hsettled⟩ := (hf.kept_iff ni).mp hkept
  refine ⟨hin, ?_⟩
  rcases hor with hserved | ⟨m, hm, ⟨hle, hne⟩, hinst⟩
  · obtain ⟨m, hm, hinst, hrecent⟩ := (hf.served_iff _).mp hserved
    exact ⟨m, hm, hinst, Or.inr ⟨hsettled, hrecent⟩⟩
  · exact ⟨m, ((hf.kept_iff m).mp hm).1, hinst, Or.inl ⟨hle, hne⟩⟩

theorem sift_tooOld (hw : w.IgnoresInvalid nm) (h : ni ∈ (Committed.sift w nm srt now ls).2.2) :
    ni ∈ snapshotsIn nm ls := by
  unfold Committed.sift at h
  simp only [candidates_eq hw] at h
  have hkept := keepNewest_subset h
  rw [(protectRecent_spec _ _ (sort_snapshots_nodup srt nm ls) _ _).1] at hkept
  exact (srt.perm _).mem_iff.mp (List.mem_filter.mp hkept).1

end Sift

/-! ## Steps of the cleaner -/

section Cleaner

variable [Preorder κ] {D : Deployment ι σ μ} {K : Knowledge D κ} {b b' : Storage μ} {x : Node σ μ}

/-- What is listed as a snapshot is a file that is there. -/
theorem StorageSound.of_listed (hb : StorageSound K b) {ls : Listing}
    (hshow : b.Shows D.nm ls.names) {m : NameInfo} (hm : m ∈ snapshotsIn D.nm ls) :
    ∃ f, b.Has f ∧ f.info = m := by
  obtain ⟨name, hname, hsnap⟩ := List.mem_filterMap.mp hm
  rcases hshow.only name hname with hin | ⟨e, he⟩
  · obtain ⟨f, hf, rfl⟩ := hb.filed name hin
    rw [hb.named f hf] at hsnap
    exact ⟨f, ⟨hf, hin⟩, Option.some.inj hsnap⟩
  · rw [Receiver.parseName_of_snapshotOf hsnap] at he
    cases he

theorem StorageSound.listed (hb : StorageSound K b) {ls : Listing} (hshow : b.Shows D.nm ls.names)
    {f : File μ} (hf : b.Has f) : f.name ∈ (snapshotsIn D.nm ls).map NameInfo.fullName :=
  List.mem_map.mpr
    ⟨f.info, List.mem_filterMap.mpr ⟨f.name, hshow.all _ hf.2, hb.named f hf.1⟩, rfl⟩

/-- Of two files of an instance, the one with the later time was stored later. -/
theorem StorageSound.number_le (hb : StorageSound K b) {f g : File μ} (hf : f ∈ b.files)
    (hg : g ∈ b.files) (hinst : f.instanceID = g.instanceID)
    (hle : f.info.timestamp ≤ g.info.timestamp) : f.number ≤ g.number := by
  by_contra hlt
  exact absurd hle (not_le.mpr (hb.dated g hg f hf hinst.symm (not_le.mp hlt)))

/-- Of two files, one that was seen recently was stored after one that was not. -/
theorem CleanerSound.number_lt (h : CleanerSound K b x) (hb : StorageSound K b) {now : Time}
    {f g : File μ} (hf : b.Has f) (hg : b.Has g)
    (hsettled : settled x.worker.conf now x.worker.snapFirstSeen f.info = true)
    (hrecent : recent x.worker.conf now x.worker.snapFirstSeen g.info = true) :
    f.number < g.number := by
  by_contra hge
  unfold settled at hsettled
  unfold recent at hrecent
  cases hsf : x.worker.snapFirstSeen f.info.fullName with
  | none => simp [hsf] at hsettled
  | some t =>
      obtain ⟨t', hle, hsg⟩ : ∃ t' ≤ t, x.worker.snapFirstSeen g.name = some t' := by
        rcases (not_lt.mp hge).lt_or_eq with hlt | heq
        · exact h.firstSeen g f hg hf hlt t hsf
        · rw [hb.distinct g hg.1 f hf.1 heq]
          exact ⟨t, le_rfl, hsf⟩
      rw [show x.worker.snapFirstSeen g.info.fullName = some t' from hsg] at hrecent
      simp only [hsf, decide_eq_true_eq] at hsettled hrecent
      exact absurd (hsettled.trans_le (sub_antitone now hle)) (not_lt.mpr hrecent)

theorem CleanerSound.sift (h : CleanerSound K b x) (hb : StorageSound K b)
    (hen : x.worker.conf.enabled = true) {now : Time} {ls : Listing}
    (hshow : b.Shows D.nm ls.names)
    (hclock : ∀ name t, x.worker.snapFirstSeen name = some t → t ≤ now) :
    CleanerSound K b (x.sift D.nm D.srt now ls) := by
  refine ⟨?_, h.committed, fun name t hseen => ?_, fun f g hf hg hlt t hseen => ?_,
    fun info hinfo => ?_, fun info hinfo => ?_⟩
  · have hkeeps := @runOnce_ignoresInvalid D.nm D.srt x.worker now (some ls) h.ignores
    rw [Committed.runOnce_eq hen] at hkeeps
    exact hkeeps
  · change (Committed.sift _ _ _ _ _).1.snapFirstSeen name = some t at hseen
    rw [sift_sightings h.ignores] at hseen
    split at hseen
    · rename_i hmem
      obtain ⟨m, hm, rfl⟩ := List.mem_map.mp hmem
      obtain ⟨f, hf, rfl⟩ := hb.of_listed hshow hm
      exact ⟨f, hf.1, rfl⟩
    · cases hseen
  · change (Committed.sift _ _ _ _ _).1.snapFirstSeen g.name = some t at hseen
    change ∃ t' ≤ t, (Committed.sift _ _ _ _ _).1.snapFirstSeen f.name = some t'
    rw [sift_sightings h.ignores, if_pos (hb.listed hshow hg)] at hseen
    rw [sift_sightings h.ignores, if_pos (hb.listed hshow hf)]
    obtain rfl := Option.some.inj hseen
    refine ⟨_, ?_, rfl⟩
    cases hg' : x.worker.snapFirstSeen g.name with
    | some t =>
        -- the earlier file was there when the later one was first seen
        obtain ⟨t', hle, hf'⟩ := h.firstSeen f g hf hg hlt t hg'
        rw [hf']
        exact hle
    | none =>
        cases hf' : x.worker.snapFirstSeen f.name with
        | some t => exact hclock f.name t hf'
        | none => exact le_rfl
  · obtain ⟨hin, m, hm, hinst, hor⟩ := sift_superseded h.ignores hen hinfo
    obtain ⟨f, hf, rfl⟩ := hb.of_listed hshow hin
    obtain ⟨g, hg, rfl⟩ := hb.of_listed hshow hm
    refine ⟨f, hf.1, rfl, g, hg.1, hinst, ?_⟩
    rcases hor with ⟨hle, hne⟩ | ⟨hsettled, hrecent⟩
    · refine lt_of_le_of_ne (hb.number_le hf.1 hg.1 hinst.symm hle) fun heq => hne ?_
      rw [hb.distinct f hf.1 g hg.1 heq]
    · exact h.number_lt hb hf hg hsettled hrecent
  · obtain ⟨f, hf, hfi⟩ := hb.of_listed hshow (sift_tooOld h.ignores hinfo)
    exact ⟨f, hf.1, hfi⟩

/-- Files have gone. -/
theorem CleanerSound.shrink (h : CleanerSound K b x) (hfiles : b'.files = b.files)
    (hhas : ∀ f, b'.Has f → b.Has f) : CleanerSound K b' x := by
  refine ⟨h.ignores, h.committed.mono (hfiles ▸ List.Subset.refl _), ?_, ?_, ?_, ?_⟩
  · rw [hfiles]
    exact h.seen
  · exact fun f g hf hg => h.firstSeen f g (hhas f hf) (hhas g hg)
  · rw [hfiles]
    exact h.superseded
  · rw [hfiles]
    exact h.tooOld

/-- A file has come, under a new name. -/
theorem CleanerSound.grow (h : CleanerSound K b x) {new : File μ} (hnew : ∀ f ∈ b.files,
      f.number < new.number ∧ f.name ≠ new.name) (hfiles : b'.files = new :: b.files)
    (hhas : ∀ f, b'.Has f → f = new ∨ b.Has f) : CleanerSound K b' x := by
  have hsub : b.files ⊆ b'.files := by
    rw [hfiles]
    exact List.subset_cons_self _ _
  refine ⟨h.ignores, h.committed.mono hsub, fun name t hseen => ?_,
    fun f g hf hg hlt t hseen => ?_, fun info hinfo => ?_, fun info hinfo => ?_⟩
  · obtain ⟨f, hf, hname⟩ := h.seen name t hseen
    exact ⟨f, hsub hf, hname⟩
  · -- the cleaner has not seen the new file, and no file is later
    obtain ⟨g', hg', hname⟩ := h.seen g.name t hseen
    rcases hhas g hg with rfl | hgold
    · exact absurd hname (hnew g' hg').2
    · rcases hhas f hf with rfl | hfold
      · exact absurd hlt (hnew g hgold.1).1.not_gt
      · exact h.firstSeen f g hfold hgold hlt t hseen
  · obtain ⟨f, hf, hinfo, g, hg, hrest⟩ := h.superseded info hinfo
    exact ⟨f, hsub hf, hinfo, g, hsub hg, hrest⟩
  · obtain ⟨f, hf, hinfo⟩ := h.tooOld info hinfo
    exact ⟨f, hsub hf, hinfo⟩

theorem CleanerSound.setCommitted (h : CleanerSound K b x) {last : Bytes → Option Time}
    (hlast : Absorbed K b last) :
    CleanerSound K b { x with worker := x.worker.setCommitted last } := by
  refine { h with committed := fun inst ts hts => ?_ }
  change (last inst).or (x.worker.lastByInstance inst) = some ts at hts
  rcases Option.or_eq_some_iff.mp hts with hts | ⟨-, hts⟩
  · exact hlast inst ts hts
  · exact h.committed inst ts hts

theorem cleanerSound_new (conf : Cleanup) (y : System σ μ μ) :
    CleanerSound K b ⟨y, Worker.new conf, [], []⟩ where
  ignores := nofun
  committed := nofun
  seen := nofun
  firstSeen := nofun
  superseded := nofun
  tooOld := nofun

/-- What is committed, according to the cleaner, is part of a later snapshot. -/
theorem CleanerSound.absorbed (h : CleanerSound K b x) (hb : StorageSound K b) {f : File μ}
    (hf : f ∈ b.files) (hproven : mergeProven x.worker f.info = true) :
    Archive.Step (archive K b) ⟨(archive K b).added, (archive K b).present \ {item K f}⟩ := by
  have hle : f.info.timestamp ≤ x.worker.getCommitted f.info.instanceID := by
    simpa [mergeProven] using hproven
  unfold Worker.getCommitted at hle
  cases hlast : x.worker.lastByInstance f.info.instanceID with
  | none =>
      rw [hlast] at hle
      exact absurd (hb.positive f hf) (not_lt.mpr hle)
  | some ts =>
      rw [hlast] at hle
      obtain ⟨g, hg, hinst, rfl, g', hg', hlt, hheld⟩ := h.committed _ ts hlast
      exact Archive.Step.absorb (x := item K f) (y := item K g) (z := item K g')
        ⟨g, hg, rfl⟩ hinst (hb.number_le hf hg hinst.symm hle) ⟨g', hg', rfl⟩ hlt hheld

end Cleaner

/-! ## Calls of the storage -/

section Calls

variable [Preorder κ] {D : Deployment ι σ μ} {K : Knowledge D κ} {b b' : Storage μ} {f g : File μ}

theorem StorageSound.name_inj (hb : StorageSound K b) (hf : f ∈ b.files) (hg : g ∈ b.files)
    (h : f.name = g.name) : f = g := by
  have hinfo : f.info = g.info := by
    have hnamed := hb.named f hf
    rw [h, hb.named g hg] at hnamed
    exact (Option.some.inj hnamed).symm
  have hinst : f.instanceID = g.instanceID := congrArg NameInfo.instanceID hinfo
  have hts : f.info.timestamp = g.info.timestamp := congrArg NameInfo.timestamp hinfo
  exact hb.distinct f hf g hg
    ((hb.number_le hf hg hinst hts.le).antisymm (hb.number_le hg hf hinst.symm hts.ge))

/-- A file that is stored under the name of a later time. -/
structure Fresh (b : Storage μ) (D : Deployment ι σ μ) (own : Bytes) (info : NameInfo) : Prop where
  named : snapshotOf D.nm info.fullName = some info
  built : ∃ ni, Nameable D.db ni ∧ info.fullName = buildName ni
  instanceID : info.instanceID = own
  later : ∀ f ∈ b.files, f.instanceID = own → f.info.timestamp < info.timestamp
  positive : zeroTime < info.timestamp

/-- What is found in the name under which a snapshot is stored. -/
theorem fresh_of_built {own : Bytes} {built info : NameInfo} (hbuilt : Nameable D.db built)
    (hown : built.instanceID = own) (hsnap : snapshotOf D.nm (buildName built) = some info)
    (hlater : ∀ f ∈ b.files, f.instanceID = built.instanceID →
      f.info.timestamp < built.timestamp) (hpos : zeroTime < built.timestamp) :
    Fresh b D own info := by
  have hname := snapshotOf_fullName hsnap
  obtain ⟨hinst, hts⟩ :=
    hbuilt.parsed D.reads D.separable (Receiver.parseName_of_snapshotOf hsnap)
  refine ⟨by rw [hname]; exact hsnap, ⟨built, hbuilt, hname⟩, hinst.trans hown, ?_, ?_⟩
  · intro f hf hfown
    rw [hts]
    exact hlater f hf (hfown.trans hown.symm)
  · rw [hts]
    exact hpos

section Put

variable {own : Bytes} {info : NameInfo} {snap : μ}

theorem Fresh.name_ne (h : Fresh b D own info) (hb : StorageSound K b) (hf : f ∈ b.files) :
    f.name ≠ info.fullName := by
  intro heq
  have hinfo : info = f.info := by
    have hnamed := hb.named f hf
    rw [heq, h.named] at hnamed
    exact Option.some.inj hnamed
  have hlt := h.later f hf ((congrArg NameInfo.instanceID hinfo).symm.trans h.instanceID)
  rw [hinfo] at hlt
  exact lt_irrefl _ hlt

theorem Fresh.has_put (h : Fresh b D own info) (hb : StorageSound K b) :
    (b.put info snap).Has f ↔ f = ⟨b.files.length, info, snap⟩ ∨ b.Has f := by
  constructor
  · rintro ⟨hf, hname⟩
    rcases List.mem_cons.mp hf with rfl | hf
    · exact Or.inl rfl
    · exact Or.inr ⟨hf, hname.resolve_left (h.name_ne hb hf)⟩
  · rintro (rfl | ⟨hf, hname⟩)
    · exact ⟨List.mem_cons_self, Or.inl rfl⟩
    · exact ⟨List.mem_cons_of_mem _ hf, Or.inr hname⟩

/-- A snapshot that holds all that is stored of its instance is added to the archive. -/
theorem Fresh.archive_put (h : Fresh b D own info) (hb : StorageSound K b)
    (hcaught : Caught K b own (K.content snap)) :
    Archive.Step (archive K b) (archive K (b.put info snap)) := by
  have harchive : archive K (b.put info snap) =
      ⟨insert (item K ⟨b.files.length, info, snap⟩) (archive K b).added,
        insert (item K ⟨b.files.length, info, snap⟩) (archive K b).present⟩ := by
    unfold archive
    congr 1
    · ext x
      simp [Storage.put, eq_comm]
    · ext x
      simp only [h.has_put hb, Set.mem_ofPred_eq, Set.mem_insert_iff, or_and_right, exists_or,
        exists_eq_left, eq_comm]
  rw [harchive]
  refine Archive.Step.add _ ?_ ?_
  · rintro y ⟨f, hf, rfl⟩
    exact hb.number f hf
  · rintro y ⟨f, hf, rfl⟩ hp
    exact hcaught f hf (hp.trans h.instanceID)

theorem StorageSound.put (hb : StorageSound K b) (h : Fresh b D own info) (hfit : K.Fit snap)
    (hcaught : Caught K b own (K.content snap)) : StorageSound K (b.put info snap) := by
  have hmem : ∀ {P : File μ → Prop}, P ⟨b.files.length, info, snap⟩ → (∀ f ∈ b.files, P f) →
      ∀ f ∈ (b.put info snap).files, P f := fun hnew hold => List.forall_mem_cons.mpr ⟨hnew, hold⟩
  refine ⟨?_, ?_, hmem h.named hb.named, hmem h.built hb.built, ?_, hmem h.positive hb.positive,
    hmem hfit hb.fit, ?_, (h.archive_put hb hcaught).sound hb.archived⟩
  · exact hmem (Nat.lt_succ_self _) fun f hf => Nat.lt_succ_of_lt (hb.number f hf)
  · refine hmem (hmem (fun _ => rfl) fun g hg heq => ?_) fun f hf => hmem (fun heq => ?_)
      (hb.distinct f hf)
    · exact absurd heq (hb.number g hg).ne'
    · exact absurd heq (hb.number f hf).ne
  · refine hmem (hmem (fun _ hlt => absurd hlt (lt_irrefl _)) fun g hg _ hlt => ?_)
      fun f hf => hmem (fun hinst _ => ?_) (hb.dated f hf)
    · exact absurd hlt (hb.number g hg).not_gt
    · exact h.later f hf (hinst.trans h.instanceID)
  · rintro name (rfl | hname)
    · exact ⟨_, List.mem_cons_self, rfl⟩
    · obtain ⟨f, hf, hfn⟩ := hb.filed name hname
      exact ⟨f, List.mem_cons_of_mem _ hf, hfn⟩

end Put

theorem has_of_delete {deleted : Bool} {name : Bytes} (h : (b.delete deleted name).Has f) :
    b.Has f := by
  refine ⟨h.1, ?_⟩
  have hname := h.2
  cases deleted with
  | false => exact hname
  | true => exact hname.1

theorem StorageSound.archive_delete (hb : StorageSound K b) (hf : f ∈ b.files) :
    archive K (b.delete true f.name) =
      ⟨(archive K b).added, (archive K b).present \ {item K f}⟩ := by
  have hhas : ∀ g, (b.delete true f.name).Has g ↔ b.Has g ∧ item K g ≠ item K f := by
    intro g
    constructor
    · intro hg
      refine ⟨has_of_delete hg, fun heq => hg.2.2 ?_⟩
      rw [hb.distinct g hg.1 f hf (congrArg Item.number heq)]
      rfl
    · rintro ⟨⟨hg, hname⟩, hne⟩
      refine ⟨hg, hname, fun heq => hne ?_⟩
      rw [hb.name_inj hg hf heq]
  unfold archive
  congr 1
  ext x
  simp only [hhas, Set.mem_ofPred_eq, Set.mem_sdiff, Set.mem_singleton_iff]
  constructor
  · rintro ⟨g, ⟨hg, hne⟩, rfl⟩
    exact ⟨⟨g, hg, rfl⟩, hne⟩
  · rintro ⟨⟨g, hg, rfl⟩, hne⟩
    exact ⟨g, ⟨hg, hne⟩, rfl⟩

/-- A call of `Delete` for a file that may be removed from the archive. -/
theorem StorageSound.delete (hb : StorageSound K b) (hf : f ∈ b.files) (deleted : Bool)
    (hstep : deleted = true → Archive.Step (archive K b)
      ⟨(archive K b).added, (archive K b).present \ {item K f}⟩) :
    StorageSound K (b.delete deleted f.name) ∧
      (archive K (b.delete deleted f.name) = archive K b ∨
        Archive.Step (archive K b) (archive K (b.delete deleted f.name))) := by
  cases deleted with
  | false => exact ⟨hb, Or.inl rfl⟩
  | true =>
      have hs := hstep rfl
      rw [← hb.archive_delete hf] at hs
      refine ⟨{ hb with filed := fun name hname => hb.filed name hname.1, archived := ?_ },
        Or.inr hs⟩
      exact hs.sound hb.archived

end Calls

/-! ## Steps of an instance -/

section Instance

variable [Preorder κ] {D : Deployment ι σ μ} {K : Knowledge D κ} {b b' : Storage μ} {c : Config}
  {x : Node σ μ} {y y' : System σ μ μ} {own : Bytes} {info : NameInfo} {snap : μ}

theorem SystemSound.grown (h : SystemSound K b c y) (hg : Grown c.ownInstanceID b b') :
    SystemSound K b' c y :=
  ⟨h.guarded, h.loop.grown hg, h.receiver.mono hg le_rfl⟩

theorem NodeSound.delete (h : NodeSound K b c x) (deleted : Bool) (name : Bytes) :
    NodeSound K (b.delete deleted name) c x :=
  ⟨h.system.grown ⟨fun _ hf => hf, fun _ hf _ => has_of_delete hf⟩,
    h.cleaner.shrink rfl fun _ hf => has_of_delete hf⟩

theorem CleanerSound.put (h : CleanerSound K b x) (hb : StorageSound K b)
    (hfresh : Fresh b D own info) : CleanerSound K (b.put info snap) x := by
  refine h.grow (fun f hf => ?_)
    (rfl : (b.put info snap).files = ⟨b.files.length, info, snap⟩ :: b.files) fun f hf => ?_
  · exact ⟨hb.number f hf, hfresh.name_ne hb hf⟩
  · exact (hfresh.has_put hb).mp hf

/-- Another instance stores a snapshot. -/
theorem NodeSound.put (h : NodeSound K b c x) (hb : StorageSound K b)
    (hfresh : Fresh b D own info) (hne : c.ownInstanceID ≠ own) :
    NodeSound K (b.put info snap) c x := by
  refine ⟨h.system.grown ⟨List.subset_cons_self _ _, fun f hf hown => ?_⟩,
    h.cleaner.put hb hfresh⟩
  rcases (hfresh.has_put hb).mp hf with rfl | hold
  · exact absurd (hown.symm.trans hfresh.instanceID) hne
  · exact hold

/-- An instance that has all that is stored of it need not worry what is its latest. -/
theorem ReceiverSound.of_caught {k : κ} {r : Receiver μ} {ls : List (List NameInfo)}
    {us : List (Update μ)} (h : ReceiverSound K b own k r ls us) (hg : b.files ⊆ b'.files)
    (hcaught : Caught K b' own k) : ReceiverSound K b' own k r ls us where
  ignores := h.ignores
  intact := h.intact
  listed := fun _ _ _ => ⟨fun _ => hcaught, fun _ _ => Or.inl hcaught⟩
  listings := fun _ _ _ => hcaught
  shown := fun _ _ => Or.inl hcaught
  loading := fun inst d info hd hphase =>
    ⟨(h.loading inst d info hd hphase).1, fun _ => Or.inl hcaught⟩
  taken := by
    intro inst info snap htaken
    obtain ⟨⟨f, hf, hinfo⟩, hinst, -⟩ := h.taken inst info snap htaken
    exact ⟨⟨f, hg hf, hinfo⟩, hinst, fun _ => Or.inl hcaught⟩
  loads := fun _ => hcaught

/-- What the notes speak of is contained in the snapshot that was stored. -/
theorem LoopSound.store {s : State σ μ μ} (h : LoopSound K b c s) (hb : StorageSound K b)
    {txnID seen : ℕ} (hnoted : Noted K b s.lastByInstance (K.content snap)) :
    LoopSound K (b.put info snap) c (s.store txnID seen snap) := by
  have hsub : b.files ⊆ (b.put info snap).files := List.subset_cons_self _ _
  have hrest : atRest (s.store txnID seen snap).pc = true := atRest_resume _
  refine ⟨h.good, h.notes.mono hsub le_rfl, fun u t lc hl => ?_, fun snap' hin => ?_,
    fun inst ts hlast => ?_⟩
  · rw [hl] at hrest
    cases hrest
  · obtain ⟨t, q, ⟨hd, -⟩ | hd⟩ := hin
    · rw [hd] at hrest
      cases hrest
    · rw [hd] at hrest
      cases hrest
  · obtain ⟨f, hf, hinst, hts, hle⟩ := hnoted inst ts hlast
    exact ⟨f, hsub hf, hinst, hts, _, List.mem_cons_self, hb.number f hf, hle⟩

/-- The instance has stored a snapshot. -/
theorem SystemSound.store (h : SystemSound K b c y) (hb : StorageSound K b)
    (hfresh : Fresh b D c.ownInstanceID info) {txnID seen : ℕ}
    (hpc : y.loop.pc = .storing txnID seen snap) :
    SystemSound K (b.put info snap) c { y with loop := y.loop.store txnID seen snap } := by
  have hpending := h.loop.pending snap ⟨txnID, seen, Or.inr hpc⟩
  have hcaught := h.receiver.caught (h.guarded.sending (by rw [hpc]; rfl))
  have hstep : SystemStep D.nm D.mode c y { y with loop := y.loop.store txnID seen snap } :=
    SystemStep.loop (Step.store hpc) (Or.inr ⟨by simp [hpc], by simp [hpc], nofun⟩)
  refine ⟨hstep.guarded h.guarded, h.loop.store hb hpending.noted, ?_⟩
  refine h.receiver.of_caught (List.subset_cons_self _ _) fun f hf hown => ?_
  rcases (hfresh.has_put hb).mp hf with rfl | hold
  · exact hpending.held
  · exact hcaught f hold hown

/-- A process that has not done anything yet. -/
theorem Boots.sound (h : Boots c D.blank y y') (hgood : K.Good y.loop.env.current) :
    SystemSound K b c y' := by
  have hrest : atRest y'.loop.pc = true := by
    rw [h.start.loop.pc]
    rfl
  refine ⟨h.start.guarded, ⟨?_, ?_, fun u t lc hl => ?_, fun snap hin => ?_, ?_⟩, ?_⟩
  · rcases h.data with hdata | hdata
    · rw [hdata]
      exact hgood
    · rw [hdata]
      exact K.good_blank
  · rw [h.lastByInstance]
    exact nofun
  · rw [hl] at hrest
    cases hrest
  · obtain ⟨t, q, ⟨hd, -⟩ | hd⟩ := hin
    · rw [hd] at hrest
      cases hrest
    · rw [hd] at hrest
      cases hrest
  · rw [h.committed]
    exact nofun
  · rw [h.start.receiver, h.start.listings, h.loads]
    exact ⟨nofun, fun _ => rfl, nofun, nofun, nofun, nofun, nofun, by simp⟩

end Instance

/-! ## Steps of the whole -/

section Whole

variable [Preorder κ] {D : Deployment ι σ μ} {K : Knowledge D κ} {s s' : Net ι σ μ}

theorem NetStart.sound (h : NetStart D K.Good s) : NetSound K s := by
  have hstorage := h.storage
  refine ⟨?_, fun i => ⟨(h.system i).sound (h.good i), ?_⟩⟩
  · rw [hstorage]
    have harchive : archive K (⟨[], ∅⟩ : Storage μ) = ⟨∅, ∅⟩ := by
      unfold archive Storage.Has
      congr 1
      · ext x
        simp
      · ext x
        simp
    refine ⟨nofun, nofun, nofun, nofun, nofun, nofun, nofun, nofun, ?_⟩
    rw [harchive]
    exact Archive.sound_empty
  · obtain ⟨conf, hconf⟩ := h.worker i
    have hnode : s.node i = ⟨(s.node i).system, Worker.new conf, [], []⟩ := by
      rw [← hconf, ← h.superseded i]
      nth_rewrite 2 [h.superseded i]
      rw [← h.tooOld i]
    rw [hnode]
    exact cleanerSound_new conf _

variable [DecidableEq ι]

theorem netSound_set {i : ι} {x : Node σ μ} {b : Storage μ} (hb : StorageSound K b)
    (hi : NodeSound K b (D.config i) x)
    (hrest : ∀ j, j ≠ i → NodeSound K b (D.config j) (s.node j)) : NetSound K (s.set i x b) := by
  refine ⟨hb, fun j => ?_⟩
  by_cases hj : j = i
  · subst hj
    change NodeSound K b (D.config j) (Function.update s.node j x j)
    rw [Function.update_self]
    exact hi
  · change NodeSound K b (D.config j) (Function.update s.node i x j)
    rw [Function.update_of_ne hj]
    exact hrest j hj

/-- A step that leaves the storage alone. -/
theorem NetSound.local (h : NetSound K s) {i : ι} {x : Node σ μ}
    (hi : NodeSound K s.storage (D.config i) x) : NetSound K (s.set i x s.storage) :=
  netSound_set h.storage hi fun j _ => h.nodes j

/-- A call of `Delete`. -/
theorem NetSound.delete (h : NetSound K s) {i : ι} (x : Node σ μ) {f : File μ}
    (hf : f ∈ s.storage.files) (hsystem : x.system = (s.node i).system)
    (hcleaner : CleanerSound K s.storage x) (deleted : Bool)
    (hstep : deleted = true → Archive.Step (archive K s.storage)
      ⟨(archive K s.storage).added, (archive K s.storage).present \ {item K f}⟩) :
    NetSound K (s.set i x (s.storage.delete deleted f.name)) ∧
      (archive K (s.storage.delete deleted f.name) = archive K s.storage ∨
        Archive.Step (archive K s.storage) (archive K (s.storage.delete deleted f.name))) := by
  obtain ⟨hb, harchive⟩ := h.storage.delete hf deleted hstep
  refine ⟨netSound_set hb ?_ fun j _ => (h.nodes j).delete deleted f.name, harchive⟩
  have hnode : NodeSound K s.storage (D.config i) x :=
    ⟨by rw [hsystem]; exact (h.nodes i).system, hcleaner⟩
  exact hnode.delete deleted f.name

/-- **The storage of the instances is an archive**: a step of the system is one of the
archive, or does not concern it. -/
theorem NetStep.refines (hstep : NetStep D s s') (h : NetSound K s) :
    NetSound K s' ∧ (archive K s'.storage = archive K s.storage ∨
      Archive.Step (archive K s.storage) (archive K s'.storage)) := by
  have hb := h.storage
  cases hstep with
  | system i hs hst hh =>
      exact ⟨h.local ⟨(h.nodes i).system.step hb hs hst hh, { (h.nodes i).cleaner with }⟩,
        Or.inl rfl⟩
  | @store i x txnID seen snap built info hx hpc hbuilt hown hsnap hlater hpos =>
      subst hx
      have hfresh := fresh_of_built hbuilt hown hsnap hlater hpos
      have hsystem := (h.nodes i).system
      have hpending := hsystem.loop.pending snap ⟨txnID, seen, Or.inr hpc⟩
      refine ⟨netSound_set (hb.put hfresh hpending.fit hpending.caught)
        ⟨hsystem.store hb hfresh hpc, ?_⟩ fun j hj => (h.nodes j).put hb hfresh fun heq => hj ?_,
        Or.inr (hfresh.archive_put hb hpending.caught)⟩
      · exact { (h.nodes i).cleaner.put hb hfresh with }
      · exact D.distinct j i heq
  | @setCommitted i w hw =>
      subst hw
      exact ⟨h.local ⟨(h.nodes i).system,
        (h.nodes i).cleaner.setCommitted (h.nodes i).system.loop.committed⟩, Or.inl rfl⟩
  | sift i _ _ hen hshow hclock =>
      exact ⟨h.local ⟨(h.nodes i).system, (h.nodes i).cleaner.sift hb hen hshow hclock⟩,
        Or.inl rfl⟩
  | @supersede i info rest deleted htodo =>
      have hcleaner := (h.nodes i).cleaner
      obtain ⟨f, hf, rfl, g, hg, hinst, hlt⟩ :=
        hcleaner.superseded info (by rw [htodo]; exact List.mem_cons_self)
      refine h.delete { s.node i with superseded := rest } hf rfl
        { hcleaner with superseded := fun info' hinfo' => ?_ } deleted fun _ => ?_
      · exact hcleaner.superseded info' (by rw [htodo]; exact List.mem_cons_of_mem _ hinfo')
      · exact Archive.Step.supersede (x := item K f) (y := item K g) ⟨g, hg, rfl⟩ hinst hlt
  | @check i info rest deleted _ htodo hproven =>
      have hcleaner := (h.nodes i).cleaner
      obtain ⟨f, hf, rfl⟩ := hcleaner.tooOld info (by rw [htodo]; exact List.mem_cons_self)
      refine h.delete { s.node i with tooOld := rest } hf rfl
        { hcleaner with tooOld := fun info' hinfo' => ?_ } deleted fun hdel => ?_
      · exact hcleaner.tooOld info' (by rw [htodo]; exact List.mem_cons_of_mem _ hinfo')
      · exact hcleaner.absorbed hb hf (hproven hdel)
  | restart i conf hboots =>
      exact ⟨h.local ⟨hboots.sound (h.nodes i).system.loop.good, cleanerSound_new conf _⟩,
        Or.inl rfl⟩

theorem NetRun.sound (hr : NetRun D s s') (h : NetStart D K.Good s) : NetSound K s' := by
  induction hr with
  | refl => exact h.sound
  | tail _ hstep ih => exact (hstep.refines ih).1

/-- A run of the system is a run of the archive. -/
theorem NetRun.refines (hr : NetRun D s s') (h : NetStart D K.Good s) :
    Relation.ReflTransGen Archive.Step (archive K s.storage) (archive K s'.storage) := by
  induction hr with
  | refl => exact Relation.ReflTransGen.refl
  | tail hr hstep ih =>
      rcases (hstep.refines (NetRun.sound hr h)).2 with heq | hs
      · rw [heq]
        exact ih
      · exact ih.tail hs

/-- **Nothing that was stored is lost**: the latest snapshot of some instance holds it. -/
theorem NetRun.held (hr : NetRun D s s') (h : NetStart D K.Good s) {f : File μ}
    (hf : f ∈ s'.storage.files) :
    ∃ g, s'.storage.Latest g ∧ K.content f.snapshot ≤ K.content g.snapshot := by
  have hb := (NetRun.sound hr h).storage
  obtain ⟨-, ⟨g, hg, rfl⟩, hle, hnewest⟩ := hb.archived.newest
    (by rintro x ⟨g, hg, rfl⟩; exact (hb.number g hg).le) ⟨f, hf, rfl⟩
  refine ⟨g, ⟨hg, fun g' hg' hinst => ?_⟩, hle⟩
  rcases (hnewest _ ⟨g', hg', rfl⟩ hinst : g'.number ≤ g.number).lt_or_eq with hlt | heq
  · exact (hb.dated g' hg'.1 g hg.1 hinst hlt).le
  · rw [hb.distinct g' hg'.1 g hg.1 heq]

end Whole

end LightningStream.Syncer.Instances
