import LightningStream.Receiver
import LightningStream.Snapshot.NameOrder
import LightningStream.Syncer.SentName

/-!
# The newest snapshot of an instance

`RunOnce` of the receiver goes through a listing in the order of the names and
overwrites what it has for an instance, so that it ends up with the greatest name.
The cleaner sorts the same names by the times in them. The names that `BuildName`
makes for a database are ordered as their times, so both agree on which snapshot
of an instance is the newest (`receiver_sees_newest`).
-/

namespace LightningStream.Receiver

open Snapshot Cleaner Syncer

variable {υ : Type} {nm : Naming} {db : Bytes} {names : List Bytes}

/-! ## The listing -/

/-- What `BuildName` is given for a database: a sanitised instance and a time. The
generation and the extra items are any texts without a dot. -/
structure Nameable (db : Bytes) (ni : NameInfo) : Prop where
  syncerName : ni.syncerName = db
  sanitised : ∃ instanceName hostname, ni.instanceID = instanceID instanceName hostname
  noString : ni.timestampString = []
  inYears : ni.timestamp.InYears
  generationID : 46 ∉ ni.generationID
  extra : ∀ extraItem ∈ ni.extra, 46 ∉ extraItem

/-- A sorted listing of built names and names that are not recognised. -/
structure Lists (nm : Naming) (db : Bytes) (names : List Bytes) : Prop where
  sorted : names.Pairwise (· ≤ ·)
  built : ∀ name ∈ names,
    (∃ ni, Nameable db ni ∧ name = buildName ni) ∨ ∃ e, parseName nm name = .error e

/-- A snapshot of the instance in the listing that is not ignored. -/
def Offered (r : Receiver υ) (nm : Naming) (names : List Bytes) (inst : Bytes) (ni : NameInfo) :
    Prop :=
  ∃ name ∈ names, r.ignoring name = false ∧ snapshotOf nm name = some ni ∧ ni.instanceID = inst

/-! ## Parsing built names -/

theorem parseName_of_snapshotOf {name : Bytes} {ni : NameInfo} (h : snapshotOf nm name = some ni) :
    parseName nm name = .ok ni := by
  unfold snapshotOf at h
  split at h
  · cases h
  · rename_i hparse
    split at h
    · rw [hparse, Option.some.inj h]
    · cases h

/-- What is found in a built name is what it was built from. -/
theorem Nameable.parsed (hnm : Reads nm) (hdb : Separable db) {ni parsed : NameInfo}
    (h : Nameable db ni) (hparse : parseName nm (buildName ni) = .ok parsed) :
    parsed.instanceID = ni.instanceID ∧ parsed.timestamp = ni.timestamp := by
  have hname : 46 ∉ ni.syncerName ∧ SafePart ni.syncerName := by
    rw [h.syncerName]
    exact separable_iff.mp hdb
  obtain ⟨instanceName, hostname, hid⟩ := h.sanitised
  have hinst : 46 ∉ ni.instanceID ∧ SafePart ni.instanceID := by
    rw [hid]
    exact ⟨fun hmem => (instanceID_safe hmem).1 rfl,
      safePart_of_not_mem fun hmem => (instanceID_safe hmem).2 rfl⟩
  have hend : 46 ∉ nameEnd ni := by
    intro hmem
    rcases List.mem_append.mp hmem with hmem | hmem
    · exact h.generationID hmem
    · obtain ⟨extraItem, hitem, hmem⟩ := List.mem_flatMap.mp hmem
      rcases List.mem_append.mp hmem with hmem | hmem
      · exact absurd hmem (by decide)
      · exact h.extra extraItem hitem hmem
  rcases parseName_buildName h.noString hname hinst hend (hnm.parse_format _ h.inYears) with
    ⟨-, herr⟩ | ⟨p, hp, -, hid', hts, -⟩
  · rw [hparse] at herr
    cases herr
  · obtain rfl : parsed = p := Except.ok.inj (hparse.symm.trans hp)
    exact ⟨hid', hts⟩

/-- Two snapshots of one instance in a listing. -/
theorem Lists.name_lt (hnm : Reads nm) (hdb : Separable db) (h : Lists nm db names)
    {name name' : Bytes} {ni ni' : NameInfo} (hname : name ∈ names) (hname' : name' ∈ names)
    (hni : snapshotOf nm name = some ni) (hni' : snapshotOf nm name' = some ni')
    (hinst : ni.instanceID = ni'.instanceID) (hlt : ni.timestamp < ni'.timestamp) :
    name < name' := by
  have hparse := parseName_of_snapshotOf hni
  have hparse' := parseName_of_snapshotOf hni'
  rcases h.built name hname with ⟨b, hb, rfl⟩ | ⟨e, he⟩
  · rcases h.built name' hname' with ⟨b', hb', rfl⟩ | ⟨e, he⟩
    · obtain ⟨hid, hts⟩ := hb.parsed hnm hdb hparse
      obtain ⟨hid', hts'⟩ := hb'.parsed hnm hdb hparse'
      rw [hts, hts'] at hlt
      rw [hid, hid'] at hinst
      exact buildName_lt hb.noString hb'.noString (hb.syncerName.trans hb'.syncerName.symm) hinst
        hb.inYears hb'.inYears hlt
    · rw [hparse'] at he
      cases he
  · rw [hparse] at he
    cases he

/-! ## The map of the latest snapshots -/

/-- Until the map is replaced, `RunOnce` has the same snapshots in hand. -/
theorem Step.pc_listed {r r' : Receiver υ} {e : Event} (h : Step nm r e r') {includingOwn : Bool}
    {l : List NameInfo} (hpc : r.pc = .listed includingOwn l) (he : e ≠ .publish) :
    r'.pc = .listed includingOwn l := by
  cases h with
  | list names hidle =>
      rw [hpc] at hidle
      cases hidle
  | publish hlisted => exact absurd rfl he
  | consider hnot _ _ =>
      rw [hpc] at hnot
      cases hnot
  | finish hnot =>
      rw [hpc] at hnot
      cases hnot
  | wake _ _ _ => exact hpc
  | look _ _ =>
      unfold Receiver.look
      split
      · exact hpc
      · split
        · exact hpc
        · exact hpc
  | loadFailed _ _ => exact hpc
  | loadCorrupt _ _ => exact hpc
  | loadOk _ _ _ => exact hpc
  | take _ => exact hpc

/-- The calls of `RunOnce` up to the new map, with anything in between. -/
theorem lastSeen_of_runOnce {r r₁ r₂ r₃ : Receiver υ} (hlist : Step nm r (.list names) r₁)
    (hruns : RunsUnder (Step nm) (fun _ e => e ≠ .publish) r₁ r₂)
    (hpublish : Step nm r₂ .publish r₃) : r₃.lastSeenByInstance = r.usable nm names := by
  have hpc : r₁.pc = .listed (!r.started) (r.usable nm names) := by
    cases hlist with
    | list _ _ => rfl
  have hpc₂ : r₂.pc = .listed (!r.started) (r.usable nm names) :=
    hruns.invariant (I := fun s => s.pc = .listed (!r.started) (r.usable nm names))
      (fun hstep he hs => hstep.pc_listed hs he) hpc
  cases hpublish with
  | publish hlisted =>
      rw [hpc₂] at hlisted
      obtain ⟨-, rfl⟩ := Pc.listed.inj hlisted
      rfl

theorem mem_usable {r : Receiver υ} {ni : NameInfo} :
    ni ∈ r.usable nm names ↔ r.Offered nm names ni.instanceID ni := by
  unfold usable Offered
  rw [List.mem_filterMap]
  refine exists_congr fun name => and_congr_right fun _ => ?_
  cases r.ignoring name <;> simp

theorem snapshot_of_usable {r : Receiver υ} {name : Bytes} {ni : NameInfo}
    (h : (if r.ignoring name then none else snapshotOf nm name) = some ni) :
    snapshotOf nm name = some ni := by
  split at h
  · cases h
  · exact h

theorem usable_sorted (nm : Naming) (r : Receiver υ) (h : names.Pairwise (· ≤ ·)) :
    (r.usable nm names).Pairwise fun a b => a.fullName ≤ b.fullName := by
  unfold usable
  refine h.filterMap _ ?_
  intro name name' hle a ha b hb
  rw [snapshotOf_fullName (snapshot_of_usable ha), snapshotOf_fullName (snapshot_of_usable hb)]
  exact hle

/-- The map has the last one assigned. -/
theorem lookup_eq_some {l : List NameInfo} {inst : Bytes} {ni : NameInfo}
    (h : lookup l inst = some ni) :
    ni.instanceID = inst ∧ ∃ before after, l = before ++ ni :: after ∧
      ∀ m ∈ after, m.instanceID ≠ inst := by
  obtain ⟨hinst, as, bs, hl, has⟩ := List.find?_eq_some_iff_append.mp h
  refine ⟨by simpa using hinst, bs.reverse, as.reverse, ?_, fun m hm => ?_⟩
  · rw [← List.reverse_reverse l, hl]
    simp
  · simpa using has m (List.mem_reverse.mp hm)

/-- **The receiver has the newest snapshots.** After `RunOnce` has listed the storage
and replaced its map, whatever the downloaders do meanwhile, the map has an instance
iff there is a snapshot of it that is not ignored, and then one of these with the
greatest timestamp. Of two snapshots of an instance, the one with the earlier
timestamp, by which the cleaner sorts, has the smaller name. -/
theorem receiver_sees_newest (hnm : Reads nm) (hdb : Separable db) (hnames : Lists nm db names)
    {r r₁ r₂ r₃ : Receiver υ} (hlist : Step nm r (.list names) r₁)
    (hruns : RunsUnder (Step nm) (fun _ e => e ≠ .publish) r₁ r₂)
    (hpublish : Step nm r₂ .publish r₃) :
    (∀ inst ni, lookup r₃.lastSeenByInstance inst = some ni →
      r.Offered nm names inst ni ∧
        ∀ ni', r.Offered nm names inst ni' → ni'.timestamp ≤ ni.timestamp) ∧
    (∀ inst, lookup r₃.lastSeenByInstance inst ≠ none ↔ ∃ ni, r.Offered nm names inst ni) ∧
    ∀ name ∈ names, ∀ name' ∈ names, ∀ ni ni', snapshotOf nm name = some ni →
      snapshotOf nm name' = some ni' → ni.instanceID = ni'.instanceID →
      ni.timestamp < ni'.timestamp → name < name' := by
  rw [lastSeen_of_runOnce hlist hruns hpublish]
  refine ⟨fun inst ni hni => ?_, fun inst => ?_, ?_⟩
  · obtain ⟨rfl, before, after, hsplit, hafter⟩ := lookup_eq_some hni
    have hoffered : r.Offered nm names ni.instanceID ni := mem_usable.mp (by simp [hsplit])
    refine ⟨hoffered, fun ni' hni' => ?_⟩
    obtain ⟨name, hname, -, hsnap, -⟩ := hoffered
    obtain ⟨name', hname', -, hsnap', hinst⟩ := id hni'
    by_contra hlt
    have hnames_lt := hnames.name_lt hnm hdb hname hname' hsnap hsnap' hinst.symm (not_le.mp hlt)
    -- the greater name is assigned later
    have hmem : ni' ∈ before ++ ni :: after := hsplit ▸ mem_usable.mpr (hinst ▸ hni')
    have hsorted := hsplit ▸ usable_sorted nm r hnames.sorted
    rcases List.mem_append.mp hmem with hbefore | hrest
    · have hle := (List.pairwise_append.mp hsorted).2.2 ni' hbefore ni List.mem_cons_self
      rw [snapshotOf_fullName hsnap, snapshotOf_fullName hsnap'] at hle
      exact absurd hnames_lt (not_lt.mpr hle)
    · rcases List.mem_cons.mp hrest with rfl | hlater
      · exact hlt le_rfl
      · exact hafter ni' hlater hinst
  · rw [lookup_ne_none, mem_instances]
    constructor
    · rintro ⟨ni, hni, rfl⟩
      exact ⟨ni, mem_usable.mp hni⟩
    · rintro ⟨ni, hni⟩
      have hinst := hni.choose_spec.2.2.2
      exact ⟨ni, mem_usable.mpr (hinst ▸ hni), hinst⟩
  · intro name hname name' hname' ni ni' hni hni' hinst hlt
    exact hnames.name_lt hnm hdb hname hname' hni hni' hinst hlt

def sampleInfo (ts : Time) : NameInfo where
  fullName := []
  baseName := []
  extension := defaultExtension
  kind := kindSnapshot
  syncerName := ascii "main"
  instanceID := instanceID "ns1" "host"
  generationID := generationID
  timestampString := []
  timestamp := ts
  extra := []

/-- Two snapshots and another file. -/
def sampleNames : List Bytes :=
  [buildName (sampleInfo 7), buildName (sampleInfo 8), ascii "notes.txt"]

theorem nameable_sample {ts : Time} (h : ts.InYears) : Nameable (ascii "main") (sampleInfo ts) where
  syncerName := rfl
  sanitised := ⟨"ns1", "host", rfl⟩
  noString := rfl
  inYears := h
  generationID := by
    show 46 ∉ generationID
    decide
  extra := fun _ hitem => nomatch hitem

theorem lists_sample : Lists defaultNaming (ascii "main") sampleNames where
  sorted := by
    unfold sampleNames
    decide +kernel
  built := by
    intro name hname
    rcases List.mem_cons.mp hname with rfl | hname
    · exact Or.inl ⟨_, nameable_sample (by decide), rfl⟩
    · rcases List.mem_cons.mp hname with rfl | hname
      · exact Or.inl ⟨_, nameable_sample (by decide), rfl⟩
      · rw [List.mem_singleton.mp hname]
        exact Or.inr ⟨.unknownExtension, by decide +kernel⟩

theorem receiver_sees_newest_two : ∃ (r : Receiver Unit) (ni : NameInfo),
    lookup r.lastSeenByInstance (ascii "ns1") = some ni ∧ ni.timestamp = 8 ∧
      ∀ ni', (Receiver.new Unit (ascii "own")).Offered defaultNaming sampleNames (ascii "ns1") ni' →
        ni'.timestamp ≤ ni.timestamp := by
  obtain ⟨r, hr⟩ : ∃ r, r = Receiver.new Unit (ascii "own") := ⟨_, rfl⟩
  have hpc : r.pc = .idle := by rw [hr]; rfl
  obtain ⟨hnewest, -⟩ := receiver_sees_newest reads_default
    (show Separable (ascii "main") from ⟨by decide, by decide, by decide⟩) lists_sample
    (Step.list sampleNames hpc) (RunsUnder.refl _) (Step.publish rfl)
  obtain ⟨ni, hni, hts⟩ : ∃ ni, lookup (r.usable defaultNaming sampleNames) (ascii "ns1") =
      some ni ∧ ni.timestamp = 8 := by
    rw [hr]
    exact ⟨_, rfl, by decide +kernel⟩
  rw [← hr]
  let listed := r.list defaultNaming sampleNames
  exact ⟨listed.publish (!r.started) (r.usable defaultNaming sampleNames),
    ni, hni, hts, (hnewest _ ni hni).2⟩

end LightningStream.Receiver
