import LightningStream.Snapshot.Name

/-!
# The cleaner

`RunOnce` lists the storage and deletes the snapshots it finds superseded,
and those of instances that look dead once their data is known to be part of
a snapshot of our own. It remembers across runs when it first saw each file
and which file names are not snapshots.

Which of an instance's snapshots is spared is decided by two filters that
share a set of instances already served. The first filter marks an instance
as served when it meets a snapshot that appeared recently, whatever that
snapshot's timestamp, and the second deletes everything of a served instance.
`run_keeps_newest_iff` says exactly when this spares the newest snapshot.
-/

namespace LightningStream.Cleaner

open Snapshot

/-! ## The worker -/

structure Cleanup where
  enabled : Bool
  mustKeepInterval : Duration
  removeOldInstancesInterval : Duration
deriving DecidableEq, Repr

/-- A storage listing. A storage holds at most one file under a name. -/
structure Listing where
  names : List Bytes
  nodup : names.Nodup

/-- `slices.SortFunc` with newer snapshots first. The sort is not stable. -/
structure Sorter where
  sort : List NameInfo → List NameInfo
  perm : ∀ l, (sort l).Perm l
  newestFirst : ∀ l, (sort l).Pairwise (fun a b => b.timestamp ≤ a.timestamp)

structure Worker where
  conf : Cleanup
  ignoredFilenames : Bytes → Bool
  snapFirstSeen : Bytes → Option Time
  lastByInstance : Bytes → Option Time

def Worker.new (conf : Cleanup) : Worker :=
  ⟨conf, fun _ => false, fun _ => none, fun _ => none⟩

/-- `SetCommitted` copies a map over the recorded one. -/
def Worker.setCommitted (w : Worker) (last : Bytes → Option Time) : Worker :=
  { w with lastByInstance := fun i => (last i).or (w.lastByInstance i) }

/-- `GetCommitted` gives the zero time for an unknown instance. -/
def Worker.getCommitted (w : Worker) (inst : Bytes) : Time :=
  (w.lastByInstance inst).getD zeroTime

/-- The label of the delete metric. -/
inductive Reason
  | newerSnapshot
  | staleInstance
deriving DecidableEq, Repr

/-- A call of the storage's `Delete`. -/
structure Deletion where
  reason : Reason
  snapshot : NameInfo
deriving DecidableEq, Repr

/-! ## RunOnce -/

/-- The snapshot a name stands for, if it does. -/
def snapshotOf (nm : Naming) (name : Bytes) : Option NameInfo :=
  match parseName nm name with
  | .error _ => none
  | .ok ni => if ni.kind = kindSnapshot then some ni else none

def isInvalid (nm : Naming) (name : Bytes) : Bool :=
  match parseName nm name with
  | .error _ => true
  | .ok _ => false

/-- The loop over the listing. -/
def Worker.candidates (w : Worker) (nm : Naming) (names : List Bytes) : List NameInfo :=
  names.filterMap fun name => if w.ignoredFilenames name then none else snapshotOf nm name

/-- The names ignored after that loop. -/
def Worker.ignored (w : Worker) (nm : Naming) (names : List Bytes) (name : Bytes) : Bool :=
  w.ignoredFilenames name || (decide (name ∈ names) && isInvalid nm name)

/-- The first filter: new files and files first seen recently are kept. -/
def protectRecent (conf : Cleanup) (now : Time) :
    List NameInfo → (Bytes → Option Time) → (Bytes → Bool) →
      (Bytes → Option Time) × (Bytes → Bool) × List NameInfo
  | [], firstSeen, seenInstances => (firstSeen, seenInstances, [])
  | ni :: rest, firstSeen, seenInstances =>
      match firstSeen ni.fullName with
      | none =>
          protectRecent conf now rest (Function.update firstSeen ni.fullName (some now))
            seenInstances
      | some firstSeenTime =>
          if now.sub firstSeenTime ≤ conf.mustKeepInterval then
            protectRecent conf now rest firstSeen
              (Function.update seenInstances ni.instanceID true)
          else
            let r := protectRecent conf now rest firstSeen seenInstances
            (r.1, r.2.1, ni :: r.2.2)

/-- The second filter: the first snapshot of an instance not seen yet is kept
and considered for the `tooOld` list. -/
def keepNewest (conf : Cleanup) (now : Time) :
    List NameInfo → (Bytes → Bool) → List NameInfo × List NameInfo
  | [], _ => ([], [])
  | ni :: rest, seenInstances =>
      if seenInstances ni.instanceID then
        let r := keepNewest conf now rest seenInstances
        (ni :: r.1, r.2)
      else
        let r := keepNewest conf now rest (Function.update seenInstances ni.instanceID true)
        (r.1, if now.sub ni.timestamp > conf.removeOldInstancesInterval then ni :: r.2
          else r.2)

/-- `RunOnce`, with the `Delete` calls it makes. Whether they succeed changes
only what is logged. A failing `List` call is `none`. -/
def Worker.runOnce (w : Worker) (nm : Naming) (srt : Sorter) (now : Time)
    (ls : Option Listing) : Worker × List Deletion :=
  if ¬ w.conf.enabled then (w, [])
  else match ls with
    | none => (w, [])
    | some ls =>
        let candidates := w.candidates nm ls.names
        let firstSeen := fun name =>
          if name ∈ candidates.map NameInfo.fullName then w.snapFirstSeen name else none
        let r := protectRecent w.conf now (srt.sort candidates) firstSeen (fun _ => false)
        let s := keepNewest w.conf now r.2.2 r.2.1
        ({ w with ignoredFilenames := w.ignored nm ls.names, snapFirstSeen := r.1 },
          s.1.map (⟨.newerSnapshot, ·⟩) ++
          (s.2.filter fun ni => decide (¬ w.getCommitted ni.instanceID < ni.timestamp)).map
            (⟨.staleInstance, ·⟩))

/-! ## What the filters keep -/

section Filters

variable {conf : Cleanup} {now : Time}

/-- First seen longer ago than the interval. -/
def settled (conf : Cleanup) (now : Time) (firstSeen : Bytes → Option Time)
    (ni : NameInfo) : Bool :=
  match firstSeen ni.fullName with
  | none => false
  | some t => decide (conf.mustKeepInterval < now.sub t)

/-- First seen in an earlier run, within the interval. -/
def recent (conf : Cleanup) (now : Time) (firstSeen : Bytes → Option Time)
    (ni : NameInfo) : Bool :=
  match firstSeen ni.fullName with
  | none => false
  | some t => decide (now.sub t ≤ conf.mustKeepInterval)

theorem settled_congr {f g : Bytes → Option Time} {ni : NameInfo}
    (h : f ni.fullName = g ni.fullName) : settled conf now f ni = settled conf now g ni := by
  unfold settled
  rw [h]

theorem recent_congr {f g : Bytes → Option Time} {ni : NameInfo}
    (h : f ni.fullName = g ni.fullName) : recent conf now f ni = recent conf now g ni := by
  unfold recent
  rw [h]

/-- The first filter on files with distinct names: what stays a candidate has
settled, and an instance has been served if one of its files is recent. -/
theorem protectRecent_spec (conf : Cleanup) (now : Time) {l : List NameInfo}
    (hnd : (l.map NameInfo.fullName).Nodup) (fs : Bytes → Option Time) (si : Bytes → Bool) :
    (protectRecent conf now l fs si).2.2 = l.filter (settled conf now fs) ∧
    ∀ i, (protectRecent conf now l fs si).2.1 i = true ↔
      si i = true ∨ ∃ m ∈ l, m.instanceID = i ∧ recent conf now fs m = true := by
  induction l generalizing fs si with
  | nil => simp [protectRecent]
  | cons ni rest ih =>
      rw [List.map_cons, List.nodup_cons] at hnd
      unfold protectRecent
      cases hfs : fs ni.fullName with
      | none =>
          -- a new file: recording it does not touch the files still to come
          obtain ⟨hkept, hseen⟩ := ih hnd.2 (Function.update fs ni.fullName (some now)) si
          have hother : ∀ m ∈ rest, Function.update fs ni.fullName (some now) m.fullName =
              fs m.fullName := by
            intro m hm
            apply Function.update_of_ne
            intro heq
            exact hnd.1 (heq ▸ List.mem_map.mpr ⟨m, hm, rfl⟩)
          refine ⟨?_, fun i => ?_⟩
          · rw [hkept, List.filter_cons_of_neg (by simp [settled, hfs])]
            exact List.filter_congr fun m hm => settled_congr (hother m hm)
          · rw [hseen, List.exists_mem_cons_iff, recent, hfs]
            simp only [Bool.false_eq_true, and_false, false_or]
            refine or_congr Iff.rfl (exists_congr fun m => and_congr_right fun hm => ?_)
            rw [recent_congr (hother m hm)]
      | some t =>
          simp only
          by_cases hrec : now.sub t ≤ conf.mustKeepInterval
          · obtain ⟨hkept, hseen⟩ := ih hnd.2 fs (Function.update si ni.instanceID true)
            rw [if_pos hrec]
            refine ⟨?_, fun i => ?_⟩
            · rw [hkept, List.filter_cons_of_neg (by simp [settled, hfs, hrec])]
            · rw [hseen, List.exists_mem_cons_iff, recent, hfs]
              simp only [hrec, decide_true, and_true, ← or_assoc]
              refine or_congr ?_ Iff.rfl
              by_cases hi : i = ni.instanceID
              · simp [hi]
              · simp [Function.update_of_ne hi, Ne.symm hi]
          · obtain ⟨hkept, hseen⟩ := ih hnd.2 fs si
            rw [if_neg hrec]
            refine ⟨?_, fun i => ?_⟩
            · rw [List.filter_cons_of_pos (by simpa [settled, hfs] using hrec), ← hkept]
            · rw [show (protectRecent conf now rest fs si).2.1 i = true ↔ _ from hseen i,
                List.exists_mem_cons_iff, recent, hfs]
              simp [hrec]

/-- What the second filter removes comes after one of its instance, or its
instance had been served before. -/
theorem keepNewest_removed {R : NameInfo → NameInfo → Prop} {l : List NameInfo}
    (hl : l.Pairwise R) {si : Bytes → Bool} {ni : NameInfo}
    (h : ni ∈ (keepNewest conf now l si).1) :
    ni ∈ l ∧ (si ni.instanceID = true ∨ ∃ m ∈ l, R m ni ∧ m.instanceID = ni.instanceID) := by
  induction l generalizing si with
  | nil => cases h
  | cons x rest ih =>
      obtain ⟨hx, hrest⟩ := List.pairwise_cons.mp hl
      unfold keepNewest at h
      split at h
      · rename_i hsx
        rcases List.mem_cons.mp h with rfl | h
        · exact ⟨List.mem_cons_self, Or.inl hsx⟩
        · obtain ⟨hmem, hor⟩ := ih hrest h
          refine ⟨List.mem_cons_of_mem _ hmem, hor.imp_right ?_⟩
          rintro ⟨m, hm, hr⟩
          exact ⟨m, List.mem_cons_of_mem _ hm, hr⟩
      · obtain ⟨hmem, hor⟩ := ih hrest h
        refine ⟨List.mem_cons_of_mem _ hmem, ?_⟩
        rcases hor with hsi | ⟨m, hm, hr⟩
        · by_cases hi : ni.instanceID = x.instanceID
          · exact Or.inr ⟨x, List.mem_cons_self, hx ni hmem, hi.symm⟩
          · rw [Function.update_of_ne hi] at hsi
            exact Or.inl hsi
        · exact Or.inr ⟨m, List.mem_cons_of_mem _ hm, hr⟩

/-- Everything of an instance served before is removed. -/
theorem keepNewest_served {l : List NameInfo} {si : Bytes → Bool} {ni : NameInfo}
    (hmem : ni ∈ l) (hsi : si ni.instanceID = true) : ni ∈ (keepNewest conf now l si).1 := by
  induction l generalizing si with
  | nil => cases hmem
  | cons x rest ih =>
      unfold keepNewest
      split
      · rcases List.mem_cons.mp hmem with rfl | hmem
        · exact List.mem_cons_self
        · exact List.mem_cons_of_mem _ (ih hmem hsi)
      · rename_i hsx
        rcases List.mem_cons.mp hmem with rfl | hmem
        · exact absurd hsi hsx
        · apply ih hmem
          by_cases hi : ni.instanceID = x.instanceID
          · rw [hi, Function.update_self]
          · rw [Function.update_of_ne hi, hsi]

/-- What is considered for the `tooOld` list was a candidate. -/
theorem keepNewest_subset {l : List NameInfo} {si : Bytes → Bool} {ni : NameInfo}
    (h : ni ∈ (keepNewest conf now l si).2) : ni ∈ l := by
  induction l generalizing si with
  | nil => cases h
  | cons x rest ih =>
      unfold keepNewest at h
      split at h
      · exact List.mem_cons_of_mem _ (ih h)
      · simp only at h
        split at h
        · rcases List.mem_cons.mp h with rfl | h
          · exact List.mem_cons_self
          · exact List.mem_cons_of_mem _ (ih h)
        · exact List.mem_cons_of_mem _ (ih h)

theorem keepNewest_tooOld {l : List NameInfo} {si : Bytes → Bool} {ni : NameInfo}
    (h : ni ∈ (keepNewest conf now l si).2) :
    conf.removeOldInstancesInterval < now.sub ni.timestamp := by
  induction l generalizing si with
  | nil => cases h
  | cons x rest ih =>
      unfold keepNewest at h
      split at h
      · exact ih h
      · simp only at h
        split at h
        · rename_i hold
          rcases List.mem_cons.mp h with rfl | h
          · exact hold
          · exact ih h
        · exact ih h

end Filters

/-! ## Runs -/

inductive Event
  | runOnce (now : Time) (ls : Option Listing)
  | setCommitted (last : Bytes → Option Time)

/-- A call of `RunOnce` whose listing succeeded. -/
structure Call where
  worker : Worker
  now : Time
  listing : Listing

/-- The calls of a run, each with the worker as it was before. -/
def calls (nm : Naming) (srt : Sorter) : Worker → List Event → List Call
  | _, [] => []
  | w, .setCommitted last :: es => calls nm srt (w.setCommitted last) es
  | w, .runOnce now none :: es => calls nm srt (w.runOnce nm srt now none).1 es
  | w, .runOnce now (some ls) :: es =>
      ⟨w, now, ls⟩ :: calls nm srt (w.runOnce nm srt now (some ls)).1 es

/-- The snapshots in a listing. -/
def snapshotsIn (nm : Naming) (ls : Listing) : List NameInfo :=
  ls.names.filterMap (snapshotOf nm)

/-- Strictly newer than every other snapshot of its instance. -/
def NewestIn (l : List NameInfo) (ni : NameInfo) : Prop :=
  ni ∈ l ∧ ∀ m ∈ l, m.instanceID = ni.instanceID → m ≠ ni → m.timestamp < ni.timestamp

def Call.deletions (c : Call) (nm : Naming) (srt : Sorter) : List Deletion :=
  (c.worker.runOnce nm srt c.now (some c.listing)).2

/-- A call spares the newest data of every instance. -/
structure KeepsNewest (nm : Naming) (srt : Sorter) (c : Call) : Prop where
  /-- A snapshot that is the newest of its instance goes only when it is old
  and known to be committed. -/
  newest : ∀ d ∈ c.deletions nm srt, NewestIn (snapshotsIn nm c.listing) d.snapshot →
    c.worker.conf.removeOldInstancesInterval < c.now.sub d.snapshot.timestamp ∧
      d.snapshot.timestamp ≤ c.worker.getCommitted d.snapshot.instanceID
  /-- A snapshot goes as superseded only beside one at least as new. -/
  superseded : ∀ d ∈ c.deletions nm srt, d.reason = .newerSnapshot →
    ∃ m ∈ snapshotsIn nm c.listing, m ≠ d.snapshot ∧
      m.instanceID = d.snapshot.instanceID ∧ d.snapshot.timestamp ≤ m.timestamp

/-- No snapshot that is the newest of its instance, and was first seen longer
ago than the keep interval, has beside it one of the same instance that was
first seen within the interval. -/
def Undisturbed (nm : Naming) (c : Call) : Prop :=
  c.worker.conf.enabled = true → ∀ ni, NewestIn (snapshotsIn nm c.listing) ni →
    settled c.worker.conf c.now c.worker.snapFirstSeen ni = true →
    ∀ m ∈ snapshotsIn nm c.listing, m.instanceID = ni.instanceID →
      recent c.worker.conf c.now c.worker.snapFirstSeen m = false

/-- The worker ignores only names that are not snapshot names. -/
def Worker.IgnoresInvalid (w : Worker) (nm : Naming) : Prop :=
  ∀ name, w.ignoredFilenames name = true → isInvalid nm name = true

theorem ignoresInvalid_new (conf : Cleanup) (nm : Naming) :
    (Worker.new conf).IgnoresInvalid nm := by
  intro name h
  cases h

theorem candidates_eq {w : Worker} {nm : Naming} (hw : w.IgnoresInvalid nm) (ls : Listing) :
    w.candidates nm ls.names = snapshotsIn nm ls := by
  unfold Worker.candidates snapshotsIn
  apply List.filterMap_congr
  intro name _
  split
  · rename_i hig
    have hinv := hw name hig
    unfold isInvalid at hinv
    unfold snapshotOf
    split at hinv
    · rfl
    · cases hinv
  · rfl

theorem snapshotOf_fullName {nm : Naming} {name : Bytes} {ni : NameInfo}
    (h : snapshotOf nm name = some ni) : ni.fullName = name := by
  unfold snapshotOf at h
  split at h
  · cases h
  · rename_i hp
    split at h
    · rw [← Option.some.inj h]
      exact parseName_fullName hp
    · cases h

theorem snapshotsIn_nodup (nm : Naming) (ls : Listing) :
    ((snapshotsIn nm ls).map NameInfo.fullName).Nodup := by
  unfold snapshotsIn
  rw [List.map_filterMap]
  apply List.Nodup.filterMap _ ls.nodup
  intro a a' b hb hb'
  obtain ⟨ni, hni, rfl⟩ := Option.map_eq_some_iff.mp hb
  obtain ⟨ni', hni', heq⟩ := Option.map_eq_some_iff.mp hb'
  rw [← snapshotOf_fullName hni, ← snapshotOf_fullName hni', heq]

/-- The two filters of one call, over the snapshots in the listing. -/
structure Filtered (nm : Naming) (srt : Sorter) (c : Call) (kept : List NameInfo)
    (served : Bytes → Bool) : Prop where
  kept_iff : ∀ ni, ni ∈ kept ↔ ni ∈ snapshotsIn nm c.listing ∧
    settled c.worker.conf c.now c.worker.snapFirstSeen ni = true
  order : kept.Pairwise (fun a b => b.timestamp ≤ a.timestamp ∧ a ≠ b)
  served_iff : ∀ i, served i = true ↔ ∃ m ∈ snapshotsIn nm c.listing,
    m.instanceID = i ∧ recent c.worker.conf c.now c.worker.snapFirstSeen m = true
  deletions : c.deletions nm srt =
    (keepNewest c.worker.conf c.now kept served).1.map (⟨.newerSnapshot, ·⟩) ++
    ((keepNewest c.worker.conf c.now kept served).2.filter fun ni =>
      decide (¬ c.worker.getCommitted ni.instanceID < ni.timestamp)).map
        (⟨.staleInstance, ·⟩)

theorem runOnce_filtered {nm : Naming} (srt : Sorter) {c : Call}
    (hw : c.worker.IgnoresInvalid nm) (hen : c.worker.conf.enabled = true) :
    ∃ kept served, Filtered nm srt c kept served := by
  obtain ⟨w, now, ls⟩ := c
  simp only at hw hen
  set L := snapshotsIn nm ls
  set fs : Bytes → Option Time := fun name =>
    if name ∈ L.map NameInfo.fullName then w.snapFirstSeen name else none
  have hperm := srt.perm L
  have hnd : ((srt.sort L).map NameInfo.fullName).Nodup :=
    (hperm.map _).nodup_iff.mpr (snapshotsIn_nodup nm ls)
  have hfs : ∀ ni ∈ L, fs ni.fullName = w.snapFirstSeen ni.fullName := fun ni hni =>
    if_pos (List.mem_map.mpr ⟨ni, hni, rfl⟩)
  obtain ⟨hkept, hserved⟩ := protectRecent_spec w.conf now hnd fs (fun _ => false)
  refine ⟨(protectRecent w.conf now (srt.sort L) fs (fun _ => false)).2.2,
    (protectRecent w.conf now (srt.sort L) fs (fun _ => false)).2.1,
    fun ni => ?_, ?_, fun i => ?_, ?_⟩
  · rw [hkept, List.mem_filter, hperm.mem_iff]
    refine and_congr_right fun hni => ?_
    rw [settled_congr (hfs ni hni)]
  · rw [hkept]
    apply List.Pairwise.filter
    refine (srt.newestFirst L).and (hnd.of_map _ |>.imp ?_)
    intro a b h
    exact h
  · rw [hserved]
    simp only [Bool.false_eq_true, false_or]
    refine exists_congr fun m => ?_
    rw [hperm.mem_iff]
    refine and_congr_right fun hm => ?_
    rw [recent_congr (hfs m hm)]
  · unfold Call.deletions Worker.runOnce
    rw [if_neg (by simp [hen])]
    simp only [candidates_eq hw]
    rfl

/-- **When the newest snapshot is spared.** -/
theorem keepsNewest_iff {nm : Naming} {srt : Sorter} {c : Call}
    (hw : c.worker.IgnoresInvalid nm) : KeepsNewest nm srt c ↔ Undisturbed nm c := by
  by_cases hen : c.worker.conf.enabled = true
  swap
  · have hnone : c.deletions nm srt = [] := by
      unfold Call.deletions Worker.runOnce
      rw [if_pos hen]
    refine ⟨fun _ h => absurd h hen, fun _ => ⟨?_, ?_⟩⟩ <;> simp [hnone]
  obtain ⟨kept, served, hf⟩ := runOnce_filtered srt hw hen
  constructor
  · intro h _ ni hnew hset m hm hmi
    by_contra hrec
    -- the recent snapshot serves the instance, so its newest one is removed
    have hserved : served ni.instanceID = true :=
      (hf.served_iff _).mpr ⟨m, hm, hmi, by simpa using hrec⟩
    have hkept : ni ∈ kept := (hf.kept_iff ni).mpr ⟨hnew.1, hset⟩
    have hdel : (⟨.newerSnapshot, ni⟩ : Deletion) ∈ c.deletions nm srt := by
      rw [hf.deletions]
      exact List.mem_append_left _ (List.mem_map.mpr
        ⟨ni, keepNewest_served hkept hserved, rfl⟩)
    obtain ⟨m', hm', hne, hi, hle⟩ := h.superseded _ hdel rfl
    exact absurd (hnew.2 m' hm' hi hne) (not_lt.mpr hle)
  · intro hund
    have hsup : ∀ ni ∈ (keepNewest c.worker.conf c.now kept served).1,
        ∃ m ∈ snapshotsIn nm c.listing, m ≠ ni ∧ m.instanceID = ni.instanceID ∧
          ni.timestamp ≤ m.timestamp := by
      intro ni hni
      obtain ⟨hmem, hsi | ⟨m, hm, ⟨hts, hne⟩, hi⟩⟩ := keepNewest_removed hf.order hni
      · by_contra hno
        obtain ⟨hin, hset⟩ := (hf.kept_iff ni).mp hmem
        obtain ⟨m, hm, hmi, hrec⟩ := (hf.served_iff _).mp hsi
        have hnew : NewestIn (snapshotsIn nm c.listing) ni := by
          refine ⟨hin, fun m' hm' hi hne => ?_⟩
          by_contra hle
          exact hno ⟨m', hm', hne, hi, not_lt.mp hle⟩
        rw [hund hen ni hnew hset m hm hmi] at hrec
        cases hrec
      · exact ⟨m, ((hf.kept_iff m).mp hm).1, hne, hi, hts⟩
    refine ⟨?_, ?_⟩
    · intro d hd hnew
      rw [hf.deletions] at hd
      rcases List.mem_append.mp hd with hd | hd
      · obtain ⟨ni, hni, rfl⟩ := List.mem_map.mp hd
        obtain ⟨m, hm, hne, hi, hle⟩ := hsup ni hni
        exact absurd (hnew.2 m hm hi hne) (not_lt.mpr hle)
      · obtain ⟨ni, hni, rfl⟩ := List.mem_map.mp hd
        obtain ⟨hold, hcommitted⟩ := List.mem_filter.mp hni
        exact ⟨keepNewest_tooOld hold, not_lt.mp (by simpa using hcommitted)⟩
    · intro d hd hreason
      rw [hf.deletions] at hd
      rcases List.mem_append.mp hd with hd | hd
      · obtain ⟨ni, hni, rfl⟩ := List.mem_map.mp hd
        exact hsup ni hni
      · obtain ⟨ni, -, rfl⟩ := List.mem_map.mp hd
        cases hreason

/-! ### From calls to runs -/

theorem runOnce_ignoresInvalid {nm : Naming} {srt : Sorter} {w : Worker} {now : Time}
    {ls : Option Listing} (hw : w.IgnoresInvalid nm) :
    (w.runOnce nm srt now ls).1.IgnoresInvalid nm := by
  unfold Worker.runOnce
  split
  · exact hw
  · split
    · exact hw
    · intro name hig
      simp only [Worker.ignored, Bool.or_eq_true, Bool.and_eq_true] at hig
      rcases hig with hig | hig
      · exact hw name hig
      · exact hig.2

theorem calls_ignoresInvalid {nm : Naming} {srt : Sorter} {w : Worker} {es : List Event}
    (hw : w.IgnoresInvalid nm) : ∀ c ∈ calls nm srt w es, c.worker.IgnoresInvalid nm := by
  induction es generalizing w with
  | nil => simp [calls]
  | cons e es ih =>
      cases e with
      | setCommitted last => exact ih hw
      | runOnce now ls =>
          cases ls with
          | none => exact ih (runOnce_ignoresInvalid hw)
          | some ls =>
              intro c hc
              rcases List.mem_cons.mp hc with rfl | hc
              · exact hw
              · exact ih (runOnce_ignoresInvalid hw) c hc

/-- **A run spares the newest data of every instance exactly when it is
undisturbed.** -/
theorem run_keeps_newest_iff (nm : Naming) (srt : Sorter) (conf : Cleanup)
    (es : List Event) :
    (∀ c ∈ calls nm srt (Worker.new conf) es, KeepsNewest nm srt c) ↔
      ∀ c ∈ calls nm srt (Worker.new conf) es, Undisturbed nm c := by
  exact forall_congr' fun c => forall_congr' fun hc =>
    keepsNewest_iff (calls_ignoresInvalid (ignoresInvalid_new conf nm) c hc)

/-! ### A late arrival -/

/-- Insertion sort, newest first. -/
def insertionSorter : Sorter where
  sort := List.insertionSort (fun a b => b.timestamp ≤ a.timestamp)
  perm := List.perm_insertionSort _
  newestFirst := fun l => by
    have : Std.Total (fun a b : NameInfo => b.timestamp ≤ a.timestamp) :=
      ⟨fun a b => le_total b.timestamp a.timestamp⟩
    have : IsTrans NameInfo (fun a b => b.timestamp ≤ a.timestamp) :=
      ⟨fun a b c hab hbc => le_trans hbc hab⟩
    exact List.pairwise_insertionSort _ l

def newerFile : Bytes := ascii "db__a__20240101-000000-000000100__G1.pb.gz"

def olderFile : Bytes := ascii "db__a__20240101-000000-000000050__G1.pb.gz"

/-- Snapshots are kept for ten minutes, instances for a week. -/
def sampleConf : Cleanup := ⟨true, 600 * 10 ^ 9, 604800 * 10 ^ 9⟩

/-- 2024-01-01 01:00:00 UTC. -/
def sampleStart : Time := 1704070800 * 10 ^ 9

def firstListing : Listing := ⟨[newerFile], by decide⟩

def laterListing : Listing := ⟨[olderFile, newerFile], by decide⟩

/-- An hour after an instance's snapshot was first seen, an older one of the
same instance shows up; five minutes later the cleaner runs again. -/
def lateArrival : List Event :=
  [.runOnce sampleStart (some firstListing),
    .runOnce (sampleStart + 3600 * 10 ^ 9) (some laterListing),
    .runOnce (sampleStart + 3900 * 10 ^ 9) (some laterListing)]

/-- The third run deletes the newest snapshot, although it is not old. -/
theorem late_arrival_deletes_newest :
    ∃ c ∈ calls defaultNaming insertionSorter (Worker.new sampleConf) lateArrival,
      ∃ d ∈ c.deletions defaultNaming insertionSorter,
        d.snapshot.fullName = newerFile ∧
        NewestIn (snapshotsIn defaultNaming c.listing) d.snapshot ∧
        ¬ c.worker.conf.removeOldInstancesInterval < c.now.sub d.snapshot.timestamp := by
  refine ⟨_, List.mem_cons_of_mem _ (List.mem_cons_of_mem _ List.mem_cons_self), ?_⟩
  unfold NewestIn
  decide +kernel

end LightningStream.Cleaner
