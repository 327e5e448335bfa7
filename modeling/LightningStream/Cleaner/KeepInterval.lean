import LightningStream.Cleaner

/-!
# What the cleaner has seen of a file it deletes

The map of first sightings is all that the cleaner knows about the past. It is
pruned by every listing and filled by every listing, so that an entry in it tells
of a call since which no listing was without the file (`Remembers`). A file that
vanishes and comes back is a new one. The names themselves come from the storage,
which lists those that start with the name of the syncer.
-/

namespace LightningStream.Cleaner

open Snapshot

/-! ## The storage -/

/-- The prefix that a worker lists. -/
def listedPrefix (name : Bytes) : Bytes := name ++ ascii "__"

/-- The storage lists only names that start with what it was asked for. -/
def Event.Lists (pre : Bytes) : Event → Prop
  | .runOnce _ (some listing) => ∀ name ∈ listing.names, pre <+: name
  | .runOnce _ none => True
  | .setCommitted _ => True

instance (pre : Bytes) : DecidablePred (Event.Lists pre)
  | .runOnce _ (some listing) => inferInstanceAs (Decidable (∀ name ∈ listing.names, pre <+: name))
  | .runOnce _ none => inferInstanceAs (Decidable True)
  | .setCommitted _ => inferInstanceAs (Decidable True)

variable {nm : Naming} {srt : Sorter} {conf : Cleanup} {now : Time} {w : Worker}
  {before : List Call} {c : Call} {name : Bytes}

theorem calls_listed {pre : Bytes} : ∀ (es : List Event) (w : Worker), (∀ e ∈ es, e.Lists pre) →
    ∀ c ∈ calls nm srt w es, ∀ name ∈ c.listing.names, pre <+: name
  | [], _, _, c, hc => by cases hc
  | .setCommitted last :: es, w, hl, c, hc =>
      calls_listed es _ (fun e he => hl e (List.mem_cons_of_mem _ he)) c hc
  | .runOnce now none :: es, w, hl, c, hc =>
      calls_listed es _ (fun e he => hl e (List.mem_cons_of_mem _ he)) c hc
  | .runOnce now (some ls) :: es, w, hl, c, hc => by
      rcases List.mem_cons.mp hc with rfl | hc
      · exact hl _ List.mem_cons_self
      · exact calls_listed es _ (fun e he => hl e (List.mem_cons_of_mem _ he)) c hc

/-! ## What is remembered -/

/-- A call at time `t` listed the file, and so did every call since. -/
def SeenSince (before : List Call) (name : Bytes) (t : Time) : Prop :=
  ∃ pre c₀ mid, before = pre ++ c₀ :: mid ∧ c₀.now = t ∧
    ∀ c ∈ c₀ :: mid, name ∈ c.listing.names

/-- Every first sighting is that of a call since which the file was listed. -/
def Remembers (before : List Call) (w : Worker) : Prop :=
  ∀ name t, w.snapFirstSeen name = some t → SeenSince before name t

/-- The first filter adds the sightings of now. -/
theorem protectRecent_firstSeen {t : Time} : ∀ (l : List NameInfo) (fs : Bytes → Option Time)
    (si : Bytes → Bool), (protectRecent conf now l fs si).1 name = some t →
      fs name = some t ∨ (t = now ∧ name ∈ l.map NameInfo.fullName)
  | [], fs, si, h => Or.inl h
  | ni :: rest, fs, si, h => by
      have hlater : ∀ {fs' : Bytes → Option Time},
          fs' name = some t ∨ (t = now ∧ name ∈ rest.map NameInfo.fullName) →
          fs' name = fs name ∨ (fs' name = some now ∧ name = ni.fullName) →
          fs name = some t ∨ (t = now ∧ name ∈ (ni :: rest).map NameInfo.fullName) := by
        rintro fs' (hfs' | ⟨rfl, hmem⟩) hor
        · rcases hor with hsame | ⟨hnow, hname⟩
          · exact Or.inl (hsame ▸ hfs')
          · rw [hnow] at hfs'
            exact Or.inr ⟨(Option.some.inj hfs').symm, by rw [hname]; exact List.mem_cons_self⟩
        · exact Or.inr ⟨rfl, List.mem_cons_of_mem _ hmem⟩
      unfold protectRecent at h
      cases hfs : fs ni.fullName with
      | none =>
          rw [hfs] at h
          refine hlater (protectRecent_firstSeen rest _ si h) ?_
          by_cases hname : name = ni.fullName
          · exact Or.inr ⟨by rw [hname, Function.update_self], hname⟩
          · exact Or.inl (Function.update_of_ne hname _ _)
      | some seen =>
          rw [hfs] at h
          simp only at h
          split at h
          · exact hlater (protectRecent_firstSeen rest fs _ h) (Or.inl rfl)
          · exact hlater (protectRecent_firstSeen rest fs si h) (Or.inl rfl)

theorem candidates_subset (w : Worker) (nm : Naming) (ls : Listing)
    (h : name ∈ (w.candidates nm ls.names).map NameInfo.fullName) : name ∈ ls.names := by
  obtain ⟨ni, hni, rfl⟩ := List.mem_map.mp h
  obtain ⟨name, hmem, hsome⟩ := List.mem_filterMap.mp hni
  split at hsome
  · cases hsome
  · rw [snapshotOf_fullName hsome]
    exact hmem

/-- **A call keeps the memory right**: what it finds in the map it lists, and what it adds
it lists for the first time. -/
theorem Remembers.runOnce (h : Remembers before c.worker) (hen : c.worker.conf.enabled = true) :
    Remembers (before ++ [c]) (c.worker.runOnce nm srt c.now (some c.listing)).1 := by
  intro name t ht
  unfold Worker.runOnce at ht
  rw [if_neg (by simp [hen])] at ht
  rcases protectRecent_firstSeen _ _ _ ht with hold | ⟨rfl, hmem⟩
  · split at hold
    · rename_i hmem
      obtain ⟨pre, c₀, mid, rfl, hnow, hlisted⟩ := h name t hold
      refine ⟨pre, c₀, mid ++ [c], by simp, hnow, fun c' hc' => ?_⟩
      rw [← List.cons_append] at hc'
      rcases List.mem_append.mp hc' with hc' | hc'
      · exact hlisted c' hc'
      · rw [List.mem_singleton.mp hc']
        exact candidates_subset _ _ _ hmem
    · cases hold
  · refine ⟨before, c, [], rfl, rfl, fun c' hc' => ?_⟩
    rw [List.mem_singleton.mp hc']
    apply candidates_subset
    rwa [((srt.perm _).map NameInfo.fullName).mem_iff] at hmem

/-- What a call deletes has settled, by its memory. -/
theorem deletions_settled (hw : c.worker.IgnoresInvalid nm) {d : Deletion}
    (hd : d ∈ c.deletions nm srt) :
    c.worker.conf.enabled = true ∧ d.snapshot ∈ snapshotsIn nm c.listing ∧
      settled c.worker.conf c.now c.worker.snapFirstSeen d.snapshot = true := by
  have hen : c.worker.conf.enabled = true := by
    by_contra hoff
    unfold Call.deletions Worker.runOnce at hd
    rw [if_pos hoff] at hd
    cases hd
  obtain ⟨kept, served, hf⟩ := runOnce_filtered srt hw hen
  refine ⟨hen, (hf.kept_iff _).mp ?_⟩
  rw [hf.deletions] at hd
  rcases List.mem_append.mp hd with hd | hd
  · obtain ⟨ni, hni, rfl⟩ := List.mem_map.mp hd
    exact (keepNewest_removed hf.order hni).1
  · obtain ⟨ni, hni, rfl⟩ := List.mem_map.mp hd
    exact keepNewest_subset (List.mem_filter.mp hni).1

/-! ## The whole history -/

/-- The file was listed more than an interval ago, and in every call since. -/
def KeptFor (interval : Duration) (before : List Call) (c : Call) (name : Bytes) : Prop :=
  ∃ pre c₀ mid, before = pre ++ c₀ :: mid ∧ interval < c.now - c₀.now ∧
    ∀ c' ∈ c₀ :: mid ++ [c], name ∈ c'.listing.names

theorem runOnce_conf (w : Worker) (nm : Naming) (srt : Sorter) (now : Time) (ls : Option Listing) :
    (w.runOnce nm srt now ls).1.conf = w.conf := by
  unfold Worker.runOnce
  split
  · rfl
  · split <;> rfl

/-- A call whose listing fails changes nothing. -/
theorem runOnce_unlisted (w : Worker) (nm : Naming) (srt : Sorter) (now : Time) :
    (w.runOnce nm srt now none).1 = w := by
  unfold Worker.runOnce
  split <;> rfl

theorem calls_conf : ∀ (es : List Event) (w : Worker),
    ∀ c ∈ calls nm srt w es, c.worker.conf = w.conf
  | [], _, c, hc => by cases hc
  | .setCommitted last :: es, w, c, hc => calls_conf es (w.setCommitted last) c hc
  | .runOnce now none :: es, w, c, hc =>
      (calls_conf es _ c hc).trans (runOnce_conf w nm srt now none)
  | .runOnce now (some ls) :: es, w, c, hc => by
      rcases List.mem_cons.mp hc with rfl | hc
      · rfl
      · exact (calls_conf es _ c hc).trans (runOnce_conf w nm srt now (some ls))

/-- The worker of every call remembers the calls before it. -/
theorem calls_remember : ∀ {es : List Event} {w : Worker} {done before after : List Call}
    {c : Call}, w.conf.enabled = true → Remembers done w →
      calls nm srt w es = before ++ c :: after → Remembers (done ++ before) c.worker
  | [], _, _, before, _, _, _, _, h => by
      cases before <;> cases h
  | .setCommitted last :: es, w, _, _, _, _, hen, hr, h =>
      calls_remember (w := w.setCommitted last) hen hr h
  | .runOnce now none :: es, w, done, before, after, c, hen, hr, h => by
      unfold calls at h
      rw [runOnce_unlisted] at h
      exact calls_remember hen hr h
  | .runOnce now (some ls) :: es, w, done, before, after, c, hen, hr, h => by
      unfold calls at h
      cases before with
      | nil =>
          obtain ⟨rfl, -⟩ := List.cons.inj h
          rw [List.append_nil]
          exact hr
      | cons c₁ before =>
          obtain ⟨rfl, hrest⟩ := List.cons.inj h
          have hr' : Remembers (done ++ [⟨w, now, ls⟩])
              (w.runOnce nm srt now (some ls)).1 := Remembers.runOnce (c := ⟨w, now, ls⟩) hr hen
          have hlater := calls_remember (by rw [runOnce_conf]; exact hen) hr' hrest
          rwa [List.append_assoc] at hlater

/-- With a clock that does not go back, a duration above a limit is the time that has
passed. -/
theorem lt_of_lt_sub {a b : Time} {limit : Duration} (hle : b ≤ a) (h : limit < a.sub b) :
    limit < a - b := by
  have hnonneg : (0 : ℤ) ≤ a - b := Int.sub_nonneg_of_le hle
  have hsub : a.sub b ≤ a - b := by
    unfold Time.sub
    refine max_le ?_ (min_le_right _ _)
    exact le_trans (by decide) hnonneg
  exact lt_of_lt_of_le h hsub

/-- **Whatever a call deletes was listed more than the keep interval ago and in every
call since**, starts with the name of the syncer and is a snapshot. -/
theorem deleted_was_kept (nm : Naming) (srt : Sorter) (conf : Cleanup) (syncer : Bytes)
    {es : List Event} (hlist : ∀ e ∈ es, e.Lists (listedPrefix syncer)) {before after : List Call}
    {c : Call} (hcalls : calls nm srt (Worker.new conf) es = before ++ c :: after)
    (hclock : (before ++ [c]).Pairwise fun a b => a.now ≤ b.now) {d : Deletion}
    (hd : d ∈ c.deletions nm srt) :
    KeptFor conf.mustKeepInterval before c d.snapshot.fullName ∧
      listedPrefix syncer <+: d.snapshot.fullName ∧
      parseName nm d.snapshot.fullName = .ok d.snapshot ∧ d.snapshot.kind = kindSnapshot := by
  have hmem : c ∈ calls nm srt (Worker.new conf) es := by
    rw [hcalls]
    simp
  have hw : c.worker.IgnoresInvalid nm :=
    calls_ignoresInvalid (ignoresInvalid_new conf nm) c hmem
  have hconf : c.worker.conf = conf := calls_conf _ _ c hmem
  obtain ⟨hen, hin, hsettled⟩ := deletions_settled hw hd
  have hon : (Worker.new conf).conf.enabled = true := hconf ▸ hen
  obtain ⟨name, hname, hsnap⟩ := List.mem_filterMap.mp hin
  have hfull := snapshotOf_fullName hsnap
  rw [← hfull] at hname hsnap
  -- its first sighting
  unfold settled at hsettled
  cases hseen : c.worker.snapFirstSeen d.snapshot.fullName with
  | none =>
      rw [hseen] at hsettled
      cases hsettled
  | some t =>
      rw [hseen] at hsettled
      have hlong : conf.mustKeepInterval < c.now.sub t := by
        rw [← hconf]
        simpa using hsettled
      have hremember : Remembers ([] ++ before) c.worker :=
        calls_remember hon (fun _ _ h => by cases h) hcalls
      obtain ⟨pre, c₀, mid, rfl, rfl, hlisted⟩ := hremember _ t hseen
      refine ⟨⟨pre, c₀, mid, rfl, ?_, fun c' hc' => ?_⟩, ?_, ?_⟩
      · refine lt_of_lt_sub ?_ hlong
        exact (List.pairwise_append.mp hclock).2.2 c₀ (by simp) c (by simp)
      · rcases List.mem_append.mp hc' with hc' | hc'
        · exact hlisted c' hc'
        · rw [List.mem_singleton.mp hc']
          exact hname
      · exact calls_listed es _ hlist c hmem _ hname
      · unfold snapshotOf at hsnap
        split at hsnap
        · cases hsnap
        · rename_i ni hp
          split at hsnap
          · rename_i hkind
            obtain rfl := Option.some.inj hsnap
            exact ⟨hp, hkind⟩
          · cases hsnap

/-- Two snapshots of one instance are listed, and listed again an hour later. -/
def hourApart : List Event :=
  [.runOnce sampleStart (some laterListing),
    .runOnce (sampleStart + 3600 * 10 ^ 9) (some laterListing)]

theorem deleted_was_kept_hour :
    ∃ before c d, d ∈ c.deletions defaultNaming insertionSorter ∧
      d.snapshot.fullName = olderFile ∧
      KeptFor sampleConf.mustKeepInterval before c d.snapshot.fullName := by
  obtain ⟨before, c, hcalls, hclock, d, hd, hname⟩ : ∃ before c,
      calls defaultNaming insertionSorter (Worker.new sampleConf) hourApart =
        before ++ c :: [] ∧
      ((before ++ [c]).Pairwise fun a b => a.now ≤ b.now) ∧
      ∃ d ∈ c.deletions defaultNaming insertionSorter, d.snapshot.fullName = olderFile := by
    refine ⟨[_], _, rfl, ?_, ?_⟩
    · decide +kernel
    · decide +kernel
  have hlist : ∀ e ∈ hourApart, e.Lists (listedPrefix (ascii "db")) := by decide +kernel
  exact ⟨before, c, d, hd, hname, (deleted_was_kept _ _ _ _ hlist hcalls hclock hd).1⟩

end LightningStream.Cleaner
