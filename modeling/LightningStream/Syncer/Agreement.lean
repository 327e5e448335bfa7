import LightningStream.Syncer.Durability

/-!
# Instances at rest have the same data

Instances in native mode with a storage in common, once they have all come to rest: their
loops sleep with nothing to send, their receivers have seen the latest snapshots, and no
snapshot is on its way. Whatever came before, restarts and cleaning included, an instance
has all that was ever stored then (`stored_data_held_at_rest`), and any two have the same
entries (`instances_agree_at_rest`).
-/

namespace LightningStream.Syncer.Agreement

open Lmdb Snapshot Loop Instances Durability
open Convergence (rankOf rankOf_injective)
open Receiver (lookup)

variable {ι : Type} [DecidableEq ι] {D : Deployment ι Contents (Message Empty)} {padding : Bool}
  {s s' : Net ι Contents (Message Empty)}

/-- **An instance at rest has all that was ever stored**, or something newer. -/
theorem stored_data_held_at_rest (hmode : D.mode = unswept padding)
    (hblank : D.blank = Contents.empty) (hs : NetStart D NativeEnv s) (hr : NetRun D s s') {i : ι}
    (hi : Quiet s'.storage (s'.node i).system) :
    ∀ f ∈ s'.storage.files, ∀ n k e, entryOfMessage f.snapshot n k = some e →
      ∃ e', entryAt (s'.node i).system.loop.env.current n k = some e' ∧ Supersedes e' e := by
  intro f hf n k e he
  have hsound := NetRun.sound (K := knowledge hmode hblank) hr hs
  have htracks := NetRun.tracks (K := knowledge hmode hblank) hr hs i
  obtain ⟨g, hg, hle⟩ := NetRun.held (K := knowledge hmode hblank) hr hs hf
  have hcaught := hi.caught htracks (hsound.nodes i).system hsound.storage hg
  refine supersedes_of_le ?_
  rw [← he]
  exact (hle n k).trans (hcaught n k)

/-- **Instances at rest have the same entries**, unless they only receive, and as long as no
application has committed behind the back of its loop. -/
theorem instances_agree_at_rest (hmode : D.mode = unswept padding)
    (hblank : D.blank = Contents.empty) (hs : NetStart D NativeEnv s) (hr : TimelyRun D s s')
    {i j : ι} (hci : (D.config i).receiveOnly = false) (hcj : (D.config j).receiveOnly = false)
    (hi : Quiet s'.storage (s'.node i).system) (hj : Quiet s'.storage (s'.node j).system) :
    ∀ n k, entryAt (s'.node i).system.loop.env.current n k =
      entryAt (s'.node j).system.loop.env.current n k := by
  intro n k
  have hij := TimelyRun.agree (K := knowledge hmode hblank) hr hs hci hi hj
  have hji := TimelyRun.agree (K := knowledge hmode hblank) hr hs hcj hj hi
  exact rankOf_injective (le_antisymm (hij n k) (hji n k))

/-! ### Two instances come to rest -/

section Sample

open Fidelity (oneEntry)

/-- The storage with one snapshot. -/
def oneFile (info : NameInfo) : Storage (Message Empty) :=
  pairStart.storage.put info (sentMessage (oneEntry 7 [65]))

variable {info : NameInfo} {x : State Contents (Message Empty) (Message Empty)}
  {r : Receiver (Message Empty)} {ls : List (List NameInfo)} {us : List (Update (Message Empty))}
  {i : Bool}

theorem shows_oneFile (nm : Naming) (info : NameInfo) :
    (oneFile info).Shows nm [info.fullName] where
  sorted := List.pairwise_singleton _ _
  all := fun _ hname => List.mem_singleton.mpr (hname.resolve_right id)
  only := fun _ hname => Or.inl (Or.inl (List.mem_singleton.mp hname))

theorem latest_oneFile {f : File (Message Empty)} (h : (oneFile info).Latest f) :
    f.info = info := by
  rw [List.mem_singleton.mp h.1.1]

/-- The receiver after `RunOnce` on this storage. -/
def heard (r : Receiver (Message Empty)) (info : NameInfo) : Receiver (Message Empty) :=
  { ((r.list pair.nm [info.fullName]).publish (!r.started) [info]).consider (!r.started)
    (Receiver.instances [info]) info.instanceID info with pc := .idle }

theorem heard_seen (r : Receiver (Message Empty)) (info : NameInfo) :
    (heard r info).lastSeenByInstance = [info] := by
  unfold heard Receiver.consider
  split <;> rfl

theorem heard_snapshots (r : Receiver (Message Empty)) (info : NameInfo) :
    (heard r info).snapshotsByInstance = r.snapshotsByInstance := by
  unfold heard Receiver.consider
  split <;> rfl

theorem heard_downloaders (r : Receiver (Message Empty)) (info : NameInfo) :
    (heard r info).downloadersByInstance =
      if r.PassesOver (!r.started) info.instanceID info then r.downloadersByInstance
      else (r.notify info.instanceID).downloadersByInstance := by
  by_cases hover : r.PassesOver (!r.started) info.instanceID info
  · rw [if_pos hover]
    unfold heard Receiver.consider
    split
    · rfl
    · exact absurd hover ‹_›
  · rw [if_neg hover]
    unfold heard Receiver.consider
    split
    · exact absurd ‹_› hover
    · rfl

theorem beside_runOnce (hidle : r.pc = .idle) (hmay : OwnData.MayList x r)
    (hus : r.usable pair.nm [info.fullName] = [info]) :
    Relation.ReflTransGen (Beside pair (oneFile info) i) ⟨x, r, ls, us⟩
      ⟨x, heard r info, [info] :: ls, us⟩ := by
  have hlookup : lookup [info] info.instanceID = some info := by simp [lookup]
  have hmem : info.instanceID ∈ Receiver.instances [info] := by simp [Receiver.instances]
  obtain ⟨r₁, hr₁⟩ : ∃ r₁, r₁ = (r.list pair.nm [info.fullName]).publish (!r.started) [info] :=
    ⟨_, rfl⟩
  have hlist : Relation.ReflTransGen (Beside pair (oneFile info) i) ⟨x, r, ls, us⟩
      ⟨x, r₁, [info] :: ls, us⟩ :=
    hr₁ ▸ beside_listed hidle hmay (shows_oneFile pair.nm info) hus
  have hpc : r₁.pc = .notifying (!r.started) (Receiver.instances [info]) := by
    rw [hr₁]
    rfl
  have hseen : lookup r₁.lastSeenByInstance info.instanceID = some info := by
    rw [hr₁]
    exact hlookup
  have hdone : (r₁.consider (!r.started) (Receiver.instances [info]) info.instanceID info).pc =
      .notifying (!r.started) ∅ := by
    unfold Receiver.consider
    split <;> simp [Receiver.notify, Receiver.setDownloader, Receiver.instances]
  have hconsider : Beside pair (oneFile info) i ⟨x, r₁, [info] :: ls, us⟩
      ⟨x, r₁.consider (!r.started) (Receiver.instances [info]) info.instanceID info,
        [info] :: ls, us⟩ := by
    refine beside_receiver (.consider hpc hmem hseen) (fun inc l hl => ?_) ?_ ?_
    · rw [hdone] at hl
      cases hl
    · unfold Receiver.consider
      split <;> rfl
    · unfold Receiver.consider
      split <;> rfl
  have hfinish := (hlist.tail hconsider).tail (beside_receiver (.finish hdone) (by simp) rfl rfl)
  rw [hr₁] at hfinish
  exact hfinish

/-- The downloader that was notified gets the snapshot. -/
theorem beside_download {inst : Bytes}
    (hd : r.downloadersByInstance inst = some ⟨.waiting, none, true⟩)
    (hseen : lookup r.lastSeenByInstance inst = some info) (hname : info.fullName ≠ []) :
    ∃ r', Relation.ReflTransGen (Beside pair (oneFile info) i) ⟨x, r, ls, us⟩ ⟨x, r', ls, us⟩ ∧
      r'.pc = r.pc ∧ r'.lastSeenByInstance = r.lastSeenByInstance ∧
      r'.downloadersByInstance =
        Function.update r.downloadersByInstance inst (some ⟨.waiting, some info, false⟩) ∧
      r'.snapshotsByInstance = Function.update r.snapshotsByInstance inst
        (some (info, sentMessage (oneEntry 7 [65]))) := by
  obtain ⟨r₁, hr₁⟩ : ∃ r₁, r₁ = r.wake inst ⟨.waiting, none, true⟩ := ⟨_, rfl⟩
  obtain ⟨r₂, hr₂⟩ : ∃ r₂, r₂ = r₁.look inst ⟨.checking, none, false⟩ := ⟨_, rfl⟩
  have hd₁ : r₁.downloadersByInstance inst = some ⟨.checking, none, false⟩ := by
    rw [hr₁]
    exact Function.update_self _ _ _
  have hlook : r₂ = r₁.setDownloader inst ⟨.loading info, none, false⟩ := by
    have hseen₁ : lookup r₁.lastSeenByInstance inst = some info := by
      rw [hr₁]
      exact hseen
    rw [hr₂, Receiver.look, hseen₁]
    exact if_neg hname
  have hd₂ : r₂.downloadersByInstance inst = some ⟨.loading info, none, false⟩ := by
    rw [hlook]
    exact Function.update_self _ _ _
  have hwake : Beside pair (oneFile info) i ⟨x, r, ls, us⟩ ⟨x, r₁, ls, us⟩ := by
    rw [hr₁]
    exact beside_receiver (.wake hd rfl rfl) (fun _ _ h => h) rfl rfl
  have hlooked : Beside pair (oneFile info) i ⟨x, r₁, ls, us⟩ ⟨x, r₂, ls, us⟩ := by
    refine beside_receiver (hr₂ ▸ .look hd₁ rfl) (fun _ _ h => ?_) ?_ ?_
    · rw [hlook] at h
      exact h
    · rw [hlook]
      rfl
    · rw [hlook]
      rfl
  have hload : Beside pair (oneFile info) i ⟨x, r₂, ls, us⟩ ⟨x, r₂.loadOk inst
      ⟨.loading info, none, false⟩ info (sentMessage (oneEntry 7 [65])), ls, us⟩ := by
    refine ⟨.receiver (.loadOk _ hd₂ rfl), rfl, ⟨fun _ _ h => Or.inl h, fun i' m snap h => ?_, rfl⟩,
      fun d hd => absurd hd (ne_commit x d)⟩
    change Function.update r₂.snapshotsByInstance inst _ i' = some (m, snap) at h
    by_cases hi : i' = inst
    · rw [hi, Function.update_self] at h
      obtain ⟨rfl, rfl⟩ := Prod.mk.inj (Option.some.inj h)
      exact Or.inr ⟨_, List.mem_singleton_self _, rfl, rfl⟩
    · exact Or.inl ((Function.update_of_ne hi _ _).symm.trans h)
  refine ⟨_, ((Relation.ReflTransGen.single hwake).tail hlooked).tail hload, ?_, ?_, ?_, ?_⟩
  · rw [hlook, hr₁]
    rfl
  · rw [hlook, hr₁]
    rfl
  · rw [hlook, hr₁]
    simp [Receiver.loadOk, Receiver.setDownloader, Receiver.wake]
  · rw [hlook, hr₁]
    rfl

/-- The loop finds nothing to load and nothing to send. -/
theorem beside_rest {b : Storage (Message Empty)} (hpc : x.pc = .ready)
    (hsync : x.env.last ≤ x.lastSynced) :
    Relation.ReflTransGen (Beside pair b i) ⟨x, r, ls, us⟩
      ⟨{ x with pc := .pause, waitingForInstances := x.waitingForInstances ∩ r.seenInstances },
        r, ls, us⟩ := by
  have hidle : Beside pair b i ⟨x, r, ls, us⟩ ⟨x.idle, r, ls, us⟩ :=
    beside_loop (.idle hpc) (Or.inr ⟨by simp [hpc], by simp [hpc], by simp⟩) rfl
      (Or.inr (by simp [State.idle, hpc]))
  have hclean : Beside pair b i ⟨x.idle, r, ls, us⟩ ⟨x.idle.clean r.seenInstances, r, ls, us⟩ :=
    ⟨.clean rfl, rfl, honest_refl _ _ _, fun _ _ => id⟩
  have hpoll : (x.idle.clean r.seenInstances).poll (pair.config i) false =
      { x with pc := .pause, waitingForInstances := x.waitingForInstances ∩ r.seenInstances } := by
    unfold State.poll
    have hno : ¬ (decide (x.lastSynced < x.env.last) || false) = true := by simpa using hsync
    exact if_neg hno
  rw [← hpoll]
  exact ((Relation.ReflTransGen.single hidle).tail hclean).tail
    (beside_loop (.poll false rfl (by simp)) (Or.inr ⟨by simp [State.clean], by simp [State.clean],
      by simp⟩) (by rw [hpoll]; rfl)
      (Or.inl id))

theorem usable_single (hinfo : Cleaner.snapshotOf defaultNaming info.fullName = some info)
    (hignored : r.ignoring info.fullName = false) :
    r.usable pair.nm [info.fullName] = [info] := by
  change [info.fullName].filterMap _ = _
  simp [hignored, show Cleaner.snapshotOf pair.nm info.fullName = some info from hinfo]

/-- The first instance sees its own snapshot in the storage. -/
theorem run_first (hinfo : Cleaner.snapshotOf defaultNaming info.fullName = some info)
    (hinst : info.instanceID = ascii "ns1") :
    ∃ y, Relation.ReflTransGen (Beside pair (oneFile info) true)
        ((pairStored info).node true).system y ∧ Quiet (oneFile info) y := by
  have hlist : Relation.ReflTransGen (Beside pair (oneFile info) true)
      ((pairStored info).node true).system
      ⟨pairStoring.store 1 1 (sentMessage (oneEntry 7 [65])), heard pairListed info, [[info], []],
        []⟩ :=
    beside_runOnce rfl (Or.inr rfl) (usable_single hinfo rfl)
  have hover : pairListed.PassesOver (!pairListed.started) info.instanceID info :=
    Or.inr ⟨rfl, hinst⟩
  refine ⟨_, hlist.trans (beside_rest rfl le_rfl), rfl, le_rfl, rfl, fun f hf => ?_, ?_, ?_⟩
  · rw [File.instanceID, latest_oneFile hf, heard_seen]
    simp [lookup]
  · rw [heard_downloaders, if_pos hover]
    intro inst d hd
    exact absurd hd.symm (Option.some_ne_none d)
  · rw [heard_snapshots]
    exact fun _ => rfl

/-- The loop loads the snapshot, and has nothing to send after that. -/
theorem beside_load {inst : Bytes} (hpc : x.pc = .ready) (hsync : x.env.last ≤ x.lastSynced)
    (hnew : x.env.last = 0) (hempty : x.env.current = Contents.empty)
    (hsnap : r.snapshotsByInstance inst = some (info, sentMessage (oneEntry 7 [65]))) :
    ∃ y us', Relation.ReflTransGen (Beside pair (oneFile info) i) ⟨x, r, ls, us⟩
        ⟨y, r.take inst, ls, us'⟩ ∧ y.pc = .ready ∧ y.env.last ≤ y.lastSynced := by
  obtain ⟨u, hu⟩ : ∃ u, u = OwnData.updateOf inst info (sentMessage (oneEntry 7 [65])) := ⟨_, rfl⟩
  have hsent := (dump_entries (oneEntry_native 7 [65]) (dump_exchanged (oneEntry_native 7 [65]))).1
  obtain ⟨t, hok⟩ : ∃ t, loadOnce (Fidelity.loadOptions false) 0 1 (sentMessage (oneEntry 7 [65]))
      Contents.empty = .ok t := by
    obtain ⟨t, hok, -⟩ := loadOnce_max false empty_native hsent (by decide : (1 : TxnID) ≠ 0)
    exact ⟨t, hok⟩
  have hload : pair.mode.loadTxn (x.localChanged (x.env.last + 1)) NativeLoop.noon
      (x.env.last + 1) u.snapshot x.env.current = some (t.contents, t.dirty) := by
    rw [hnew, hempty, hu]
    change ((unswept false).loadTxn _ _ 1 (sentMessage (oneEntry 7 [65])) Contents.empty) = _
    unfold unswept NativeLoop.native
    simp only [show UInt64.ofNat 1 = 1 from rfl, hok]
  obtain ⟨z, hz⟩ : ∃ z, z = x.loadTxn pair.mode NativeLoop.noon u := ⟨_, rfl⟩
  have hlc : x.localChanged (x.env.last + 1) = false := by
    simpa [State.localChanged] using hsync
  have hzpc : z.pc = .loaded u (x.env.last + 1) false := by
    rw [hz, State.loadTxn]
    simp only [hload]
    rw [hlc]
  have hzlast : z.env.last ≤ x.env.last + 1 := by
    rw [hz, State.loadTxn]
    simp only [hload]
    cases t.dirty <;> simp
  have hstep : Beside pair (oneFile info) i ⟨x, r, ls, us⟩ ⟨z, r.take inst, ls, u :: us⟩ := by
    refine ⟨?_, ?_, ⟨fun _ _ h => Or.inl h, fun i' m snap h => Or.inl ?_, rfl⟩, fun d hd => ?_⟩
    · rw [hz, hu]
      exact .load NativeLoop.noon hpc hsnap (hu ▸ hload)
    · rw [hz]
      exact loadTxn_stored _ _ _ _
    · change Function.update r.snapshotsByInstance inst none i' = some (m, snap) at h
      by_cases hi : i' = inst
      · rw [hi, Function.update_self] at h
        cases h
      · rwa [Function.update_of_ne hi] at h
    · simp [Window, hpc]
  have hinfo : Beside pair (oneFile info) i ⟨z, r.take inst, ls, u :: us⟩
      ⟨z.loadInfo u (x.env.last + 1) false, r.take inst, ls, u :: us⟩ :=
    beside_loop (.loadInfo hzpc) (Or.inr ⟨by simp [hzpc], by simp [hzpc], by simp⟩) rfl
      (Or.inr (by simp [State.loadInfo, hzpc]))
  refine ⟨_, _, (Relation.ReflTransGen.single hstep).tail hinfo, rfl, ?_⟩
  change z.env.last ≤ adjusted (x.env.last + 1) z.env.last
  unfold adjusted
  split <;> omega

theorem run_second (hinfo : Cleaner.snapshotOf defaultNaming info.fullName = some info)
    (hname : info.fullName ≠ []) :
    ∃ y, Relation.ReflTransGen (Beside pair (oneFile info) false)
        ((pairStored info).node false).system y ∧ Quiet (oneFile info) y := by
  obtain ⟨r₀, hr₀⟩ : ∃ r₀, r₀ = Receiver.new (Message Empty) (pair.config false).ownInstanceID :=
    ⟨_, rfl⟩
  have hbegin : Beside pair (oneFile info) false ((pairStored info).node false).system
      ⟨NativeLoop.fresh.info, r₀, [], []⟩ := by
    rw [hr₀]
    exact beside_loop (.info rfl) (Or.inr ⟨by simp [NativeLoop.fresh],
      by simp [NativeLoop.fresh], by simp⟩) rfl (Or.inl id)
  have hlist : Relation.ReflTransGen (Beside pair (oneFile info) false)
      ⟨NativeLoop.fresh.info, r₀, [], []⟩ ⟨NativeLoop.fresh.info, heard r₀ info, [[info]], []⟩ := by
    rw [hr₀]
    exact beside_runOnce rfl (Or.inl ⟨rfl, rfl⟩) (usable_single hinfo rfl)
  have hstarted : (heard r₀ info).started = true := by
    unfold heard Receiver.consider
    split <;> rfl
  have hlisted := hlist.tail ⟨.listed rfl hstarted rfl, rfl, honest_refl _ _ _, fun _ _ => id⟩
  have hready := hlisted.tail (beside_loop (.startup NativeLoop.noon rfl)
    (Or.inr ⟨by simp [State.listed], by simp [State.listed], by simp⟩) rfl (Or.inl id))
  -- the downloader of the first instance has been notified
  have hover : ¬ r₀.PassesOver (!r₀.started) info.instanceID info := by
    rw [hr₀]
    rintro (heq | ⟨hfalse, -⟩)
    · exact hname heq
    · cases hfalse
  have hd : (heard r₀ info).downloadersByInstance info.instanceID =
      some ⟨.waiting, none, true⟩ := by
    rw [heard_downloaders, if_neg hover, hr₀]
    exact Function.update_self _ _ _
  have hseen : lookup (heard r₀ info).lastSeenByInstance info.instanceID = some info := by
    rw [heard_seen]
    simp [lookup]
  obtain ⟨x₁, hx₁⟩ : ∃ x₁, x₁ = (NativeLoop.fresh.info.listed (heard r₀ info).hasSnapshots
      (heard r₀ info).seenInstances).startup pair.mode NativeLoop.noon
      (heard r₀ info).hasSnapshots := ⟨_, rfl⟩
  rw [← hx₁] at hready
  obtain ⟨r₁, hdownload, hpc₁, hseen₁, hd₁, hsnap₁⟩ :=
    @beside_download info x₁ (heard r₀ info) [[info]] [] false info.instanceID hd hseen hname
  obtain ⟨y, us, hload, hpcy, hsyncy⟩ := @beside_load info x₁ r₁ [[info]] [] false info.instanceID
    (by rw [hx₁]; rfl) (by rw [hx₁]; exact le_rfl) (by rw [hx₁]; rfl) (by rw [hx₁]; rfl)
    (by rw [hsnap₁, Function.update_self])
  refine ⟨_, ((((Relation.ReflTransGen.single hbegin).trans hready).trans hdownload).trans
    hload).trans (beside_rest hpcy hsyncy), rfl, hsyncy, hpc₁, fun f hf => ?_, ?_, fun inst => ?_⟩
  · rw [File.instanceID, latest_oneFile hf]
    exact hseen₁ ▸ hseen
  · intro inst d hd'
    change r₁.downloadersByInstance inst = some d at hd'
    rw [hd₁, heard_downloaders, if_neg hover, hr₀] at hd'
    by_cases hi : inst = info.instanceID
    · rw [hi, Function.update_self] at hd'
      rw [← Option.some.inj hd']
      exact ⟨rfl, rfl⟩
    · rw [Function.update_of_ne hi] at hd'
      change Function.update (fun _ => none) info.instanceID _ inst = some d at hd'
      rw [Function.update_of_ne hi] at hd'
      cases hd'
  · change Function.update r₁.snapshotsByInstance info.instanceID none inst = none
    rw [hsnap₁, heard_snapshots, hr₀]
    by_cases hi : inst = info.instanceID
    · rw [hi, Function.update_self]
    · rw [Function.update_of_ne hi, Function.update_of_ne hi]
      rfl

/-- Both instances at rest. -/
theorem run_pairQuiet : ∃ s' f, TimelyRun pair pairStart s' ∧
    s'.storage.files = [f] ∧ f.snapshot = sentMessage (oneEntry 7 [65]) ∧
    ∀ i, Quiet s'.storage (s'.node i).system := by
  obtain ⟨info, hinfo⟩ : ∃ info, Cleaner.snapshotOf defaultNaming
    (buildName (Receiver.sampleInfo 7)) = some info := ⟨_, rfl⟩
  have hname := Cleaner.snapshotOf_fullName hinfo
  have hinfo' : Cleaner.snapshotOf defaultNaming info.fullName = some info := by
    rw [hname, hinfo]
  have hnil : info.fullName ≠ [] := by
    rw [hname]
    decide +kernel
  have hinst : info.instanceID = ascii "ns1" := by
    have hns1 : (Cleaner.snapshotOf defaultNaming (buildName (Receiver.sampleInfo 7))).map
        NameInfo.instanceID = some (ascii "ns1") := by decide +kernel
    rw [hinfo] at hns1
    exact Option.some.inj hns1
  obtain ⟨y₁, hrun₁, hquiet₁⟩ := run_first hinfo' hinst
  obtain ⟨y₂, hrun₂, hquiet₂⟩ := run_second hinfo' hnil
  obtain ⟨s₁, hs₁⟩ : ∃ s₁, s₁ = (pairStored info).set true
      { (pairStored info).node true with system := y₁ } (pairStored info).storage := ⟨_, rfl⟩
  have hrun : TimelyRun pair (pairStored info) s₁ := hs₁ ▸ timelyRun_of_beside hrun₁
  have hrun' : Relation.ReflTransGen (Beside pair s₁.storage false) (s₁.node false).system y₂ := by
    rw [hs₁]
    exact hrun₂
  refine ⟨_, ⟨0, info, sentMessage (oneEntry 7 [65])⟩,
    ((run_pairStored hinfo).trans hrun).trans (timelyRun_of_beside hrun'), ?_, ?_, ?_⟩
  · rw [hs₁]
    rfl
  · rfl
  · rw [hs₁]
    intro i
    cases i with
    | false => exact hquiet₂
    | true => exact hquiet₁

theorem stored_data_held_at_rest_two : ∃ s', NetRun pair pairStart s' ∧
    Quiet s'.storage (s'.node false).system ∧
    ∃ e', entryAt (s'.node false).system.loop.env.current [100] [1] = some e' ∧
      Supersedes e' (7, [65]) := by
  obtain ⟨s', f, hrun, hfiles, hsnap, hquiet⟩ := run_pairQuiet
  have hf : f ∈ s'.storage.files := by
    rw [hfiles]
    exact List.mem_singleton_self f
  refine ⟨s', hrun.netRun, hquiet false, stored_data_held_at_rest (D := pair) rfl rfl
    netStart_pairStart hrun.netRun (hquiet false) f hf _ _ _ ?_⟩
  rw [hsnap]
  exact entryOfMessage_sent 7 [65]

theorem instances_agree_at_rest_two : ∃ s', TimelyRun pair pairStart s' ∧
    (∀ i, Quiet s'.storage (s'.node i).system) ∧
    ∀ n k, entryAt (s'.node true).system.loop.env.current n k =
      entryAt (s'.node false).system.loop.env.current n k := by
  obtain ⟨s', f, hrun, -, -, hquiet⟩ := run_pairQuiet
  exact ⟨s', hrun, hquiet, instances_agree_at_rest (D := pair) rfl rfl netStart_pairStart hrun rfl
    rfl (hquiet true) (hquiet false)⟩

end Sample

end LightningStream.Syncer.Agreement
