import LightningStream.Syncer.Instances.Followed

/-!
# The instances agree at rest

The loop compares the last transaction of its LMDB with the one it has synced. That one is
no more than a number, but it stands for data: all that the version of this number holds is
in the snapshots that were stored, by this instance or by others (`Backed`). A snapshot of
the version may have been stored; or the version is the outcome of a load, on top of a
version that was synced before.

It takes an application that does not commit between a load that changed nothing and the
moment when the loop learns of this. The loop would take that commit for its own.

So an instance that has nothing to send has nothing that is not stored, and one at rest has
all that is stored: two instances at rest have the same (`TimelyRun.agree`).
-/

namespace LightningStream.Syncer.Instances

open Snapshot Cleaner Loop
open OwnData (System SystemStep updateOf)

variable {ι σ μ κ : Type}

/-! ## What the synced version stands for -/

section Invariants

variable [Preorder κ] {D : Deployment ι σ μ} (K : Knowledge D κ) (b : Storage μ)

/-- The stored snapshots together have all of this. -/
def Kept (k : κ) : Prop := ∀ v, (∀ f ∈ b.files, K.content f.snapshot ≤ v) → k ≤ v

/-- The version is one that was synced, or there is none yet. -/
def Marked (e : Versioned σ) (n : ℕ) : Prop :=
  n = 0 ∧ 0 < e.last ∨ Kept K b (K.held (e.version n))

/-- The loop goes by the transaction that it has synced. -/
def marks : Pc μ μ → Bool
  | .send => false
  | .dumped _ _ _ => false
  | .storing _ _ _ => false
  | .stopped => false
  | _ => true

structure Backed (s : State σ μ μ) : Prop where
  bounded : s.lastSynced ≤ s.env.last
  unused : s.env.last = 0 → s.env.current = D.blank
  marked : marks s.pc = true → Marked K b s.env s.lastSynced
  loaded : ∀ u txnID, s.pc = .loaded u txnID false →
    Kept K b (K.held (s.env.version (adjusted txnID s.env.last)))
  sent : ∀ txnID seen snap, s.pc = .dumped txnID seen snap ∨ s.pc = .storing txnID seen snap →
    txnID ≤ s.env.last ∧ K.held (s.env.version txnID) ≤ K.content snap

end Invariants

section Backed

variable [Preorder κ] {D : Deployment ι σ μ} {K : Knowledge D κ} {b b' : Storage μ} {c : Config}
  {s s' : State σ μ μ} {e : Versioned σ} {n : ℕ}

theorem Kept.mono {k : κ} (h : Kept K b k) (hsub : b.files ⊆ b'.files) : Kept K b' k :=
  fun v hv => h v fun f hf => hv f (hsub hf)

theorem kept_blank : Kept K b (K.held D.blank) := fun v _ => K.blank_le v

theorem kept_of_le {k : κ} {f : File μ} (hf : f ∈ b.files) (h : k ≤ K.content f.snapshot) :
    Kept K b k := fun _ hv => h.trans (hv f hf)

theorem Marked.mono (h : Marked K b e n) (hsub : b.files ⊆ b'.files) : Marked K b' e n :=
  h.imp_right fun hk => hk.mono hsub

theorem Marked.commit (h : Marked K b e n) (hn : n ≤ e.last) (d : σ) :
    Marked K b (e.commit d) n := by
  refine h.imp (fun hz => ⟨hz.1, Nat.succ_pos _⟩) fun hk => ?_
  rwa [Versioned.commit_version hn]

theorem Marked.finish (h : Marked K b e n) (hn : n ≤ e.last) (d : σ) (dirty : Bool) :
    Marked K b (e.finish d dirty) n := by
  cases dirty with
  | false => exact h
  | true => exact h.commit hn d

/-- The last version, if it is the one that was synced. -/
theorem Marked.current (h : Marked K b e n) (hle : e.last ≤ n) (hn : n ≤ e.last) :
    Kept K b (K.held e.current) := by
  obtain rfl : n = e.last := Nat.le_antisymm hn hle
  rcases h with ⟨hz, hpos⟩ | hk
  · omega
  · exact hk

theorem Backed.mono (h : Backed K b s) (hsub : b.files ⊆ b'.files) : Backed K b' s :=
  { h with
    marked := fun hm => (h.marked hm).mono hsub
    loaded := fun u txnID hpc => (h.loaded u txnID hpc).mono hsub }

/-- Steps that leave the data and the synced transaction alone. -/
theorem Backed.move (h : Backed K b s) (henv : s'.env = s.env)
    (hsynced : s'.lastSynced = s.lastSynced) (hrest : atRest s'.pc = true)
    (hmarks : marks s'.pc = true → marks s.pc = true) : Backed K b s' := by
  refine ⟨?_, ?_, fun hm => ?_, fun u txnID hpc => ?_, fun txnID seen snap hpc => ?_⟩
  · rw [henv, hsynced]
    exact h.bounded
  · rw [henv]
    exact h.unused
  · rw [henv, hsynced]
    exact h.marked (hmarks hm)
  · rw [hpc] at hrest
    cases hrest
  · rcases hpc with hpc | hpc
    · rw [hpc] at hrest
      cases hrest
    · rw [hpc] at hrest
      cases hrest

theorem Backed.stop (h : Backed K b s) : Backed K b s.stop := h.move rfl rfl rfl nofun

theorem Backed.resume (h : Backed K b s) (hm : marks s.pc = true) : Backed K b s.resume :=
  h.move rfl rfl (atRest_resume s) fun _ => hm

/-- A commit of the application. Unless it falls into the window, its number is not one
that the loop holds. -/
theorem Backed.commit (h : Backed K b s) (hw : ¬ Window s) (d : σ) : Backed K b (s.commit d) := by
  refine ⟨h.bounded.trans (Nat.le_succ _), nofun, fun hm => (h.marked hm).commit h.bounded d,
    fun u txnID hpc => ?_, fun txnID seen snap hpc => ?_⟩
  · have hle : txnID ≤ s.env.last := by
      by_contra hlt
      refine hw ?_
      rw [Window, show s.pc = .loaded u txnID false from hpc]
      exact not_le.mp hlt
    have hk := h.loaded u txnID hpc
    change Kept K b (K.held ((s.env.commit d).version (adjusted txnID (s.env.last + 1))))
    rw [adjusted, if_neg (by omega)] at hk ⊢
    rwa [Versioned.commit_version hle]
  · obtain ⟨hle, hheld⟩ := h.sent txnID seen snap hpc
    refine ⟨hle.trans (Nat.le_succ _), ?_⟩
    change K.held ((s.env.commit d).version txnID) ≤ _
    rwa [Versioned.commit_version hle]

/-- A load. Without a local change, the last version was the one synced, and what the load
has added is stored. -/
theorem Backed.load (h : Backed K b s) (hgood : K.Good s.env.current) (hpc : s.pc = .ready)
    {f : File μ} (hf : f ∈ b.files) (hfit : K.Fit f.snapshot) {t : Moment} {u : Update μ}
    (hsnap : u.snapshot = f.snapshot) : Backed K b (s.loadTxn D.mode t u) := by
  rcases loadTxn_cases D.mode s t u with heq | ⟨d, dirty, nLoads, w, hload, heq⟩
  · rw [heq]
    exact h.stop
  · rw [heq]
    rw [hsnap] at hload
    have hclean := (K.load hgood hfit hload).2.2.2
    have hmarked := h.marked (by rw [hpc]; rfl)
    have hcur : (s.env.finish d dirty).current = d := Versioned.finish_current hclean
    refine ⟨h.bounded.trans (Versioned.last_le_finish _), fun hzero => ?_,
      fun _ => hmarked.finish h.bounded d dirty, fun u' txnID hl => ?_, nofun⟩
    · cases dirty with
      | false => exact h.unused hzero
      | true => cases hzero
    · obtain ⟨-, rfl, hlc⟩ := Pc.loaded.inj hl
      have hle : s.env.last ≤ s.lastSynced := by
        simpa [State.localChanged] using hlc
      have hlast : adjusted (s.env.last + 1) (s.env.finish d dirty).last =
          (s.env.finish d dirty).last := by
        cases dirty <;> simp [adjusted]
      dsimp only
      rw [hlast]
      change Kept K b (K.held (s.env.finish d dirty).current)
      rw [hcur]
      intro v hv
      exact K.load_le hgood hfit hload (hmarked.current hle h.bounded v hv) (hv f hf)

theorem Backed.loadInfo (h : Backed K b s) {u : Update μ} {txnID : ℕ} {localChanged : Bool}
    (hpc : s.pc = .loaded u txnID localChanged) : Backed K b (s.loadInfo u txnID localChanged) := by
  have hmarked := h.marked (by rw [hpc]; rfl)
  have hrest : atRest (s.loadInfo u txnID localChanged).pc = true := by
    unfold State.loadInfo
    cases localChanged && decide (maxConsecutiveSnapshotLoads < s.nLoads) <;> rfl
  cases localChanged with
  | true =>
      refine h.move rfl rfl hrest fun _ => ?_
      rw [hpc]
      rfl
  | false =>
      have hk := h.loaded u txnID hpc
      refine ⟨(adjusted_le txnID s.env.last).2, h.unused, fun _ => Or.inr hk, ?_, ?_⟩
      · intro u' txnID' hl
        rw [hl] at hrest
        cases hrest
      · rintro txnID' seen snap (hl | hl)
        · rw [hl] at hrest
          cases hrest
        · rw [hl] at hrest
          cases hrest

/-- `SendOnce` reads the last version. -/
theorem Backed.send (h : Backed K b s) (hgood : K.Good s.env.current)
    (hc : c.receiveOnly = false) (t : Moment) : Backed K b (s.sendTxn D.mode c t) := by
  rcases sendTxn_cases D.mode c s t with heq | ⟨-, d, dirty, snap, htxn, heq⟩ | ⟨hno, -⟩
  · rw [heq]
    exact h.stop
  · rw [heq]
    refine ⟨h.bounded, h.unused, nofun, nofun, ?_⟩
    rintro txnID seen snap' (hl | hl)
    · obtain ⟨rfl, -, rfl⟩ := Pc.dumped.inj hl
      rw [hc] at htxn
      exact ⟨le_rfl, (K.send hgood htxn).2.2⟩
    · cases hl
  · rw [D.tracks] at hno
    cases hno

theorem Backed.sendInfo (h : Backed K b s) (hc : c.receiveOnly = false) {txnID seen : ℕ}
    {snap : μ} (hpc : s.pc = .dumped txnID seen snap) :
    Backed K b (s.sendInfo c txnID seen snap) := by
  obtain ⟨hle, hheld⟩ := h.sent txnID seen snap (Or.inl hpc)
  unfold State.sendInfo
  rw [hc, if_neg Bool.false_ne_true]
  refine ⟨h.bounded, h.unused, nofun, nofun, ?_⟩
  rintro txnID' seen' snap' (hl | hl)
  · cases hl
  · obtain ⟨rfl, -, rfl⟩ := Pc.storing.inj hl
    rw [adjusted, if_neg (by omega)]
    exact ⟨hle, hheld⟩

theorem Backed.poll (h : Backed K b s) (hpc : s.pc = .poll) (overdue : Bool) :
    Backed K b (s.poll c overdue) := by
  rcases poll_cases c s overdue with heq | heq | ⟨hzero, heq⟩
  · rw [heq]
    exact h.move rfl rfl rfl fun _ => by rw [hpc]; rfl
  · rw [heq]
    exact ⟨le_rfl, h.unused, nofun, nofun, by rintro _ _ _ (hl | hl) <;> cases hl⟩
  · rw [heq]
    refine ⟨le_rfl, h.unused, fun _ => Or.inr ?_, nofun, by rintro _ _ _ (hl | hl) <;> cases hl⟩
    -- there is no data
    change Kept K b (K.held s.env.current)
    rw [h.unused hzero]
    exact kept_blank

/-- The stored snapshot has what the version holds. -/
theorem Backed.store (h : Backed K b s) {txnID seen : ℕ} {snap : μ} {info : NameInfo}
    (hpc : s.pc = .storing txnID seen snap) :
    Backed K (b.put info snap) (s.store txnID seen snap) := by
  obtain ⟨hle, hheld⟩ := h.sent txnID seen snap (Or.inr hpc)
  have hrest : atRest (s.store txnID seen snap).pc = true := atRest_resume _
  refine ⟨hle, h.unused, fun _ => Or.inr ?_, fun u t hl => ?_, fun t q snap' hl => ?_⟩
  · exact kept_of_le (f := ⟨b.files.length, info, snap⟩) List.mem_cons_self hheld
  · rw [hl] at hrest
    cases hrest
  · rcases hl with hl | hl
    · rw [hl] at hrest
      cases hrest
    · rw [hl] at hrest
      cases hrest

theorem backed_start (h : Start s) (hunused : s.env.last = 0 → s.env.current = D.blank) :
    Backed K b s := by
  refine ⟨by rw [h.lastSynced]; exact Nat.zero_le _, hunused, fun _ => ?_,
    by rw [h.pc]; exact nofun, by rw [h.pc]; rintro _ _ _ (hl | hl) <;> cases hl⟩
  rw [h.lastSynced]
  rcases Nat.eq_zero_or_pos s.env.last with hzero | hpos
  · refine Or.inr ?_
    rw [← hzero]
    change Kept K b (K.held s.env.current)
    rw [hunused hzero]
    exact kept_blank
  · exact Or.inl ⟨rfl, hpos⟩

/-- A step that consults neither the receiver nor the storage. -/
theorem Backed.step (h : Backed K b s) (hgood : K.Good s.env.current)
    (hc : c.receiveOnly = false) {e : Event σ μ} (hstep : Step D.mode c s e s')
    (hap : OwnData.Apart s e) (hst : s'.stored = s.stored)
    (hw : ∀ d, s' = s.commit d → ¬ Window s) : Backed K b s' := by
  cases hstep with
  | @commit d _ => exact h.commit (hw d rfl) d
  | info hpc => exact h.move rfl rfl rfl fun _ => by rw [hpc]; rfl
  | listed _ _ hpc =>
      rcases hap with ⟨d, hd⟩ | ⟨hno, -, -⟩
      · cases hd
      · exact absurd hpc hno
  | startup t hpc =>
      rw [startup_of_tracks]
      rcases afterStartup_cases s _ with heq | heq
      · rw [heq]
        exact h.move rfl rfl rfl nofun
      · rw [heq]
        exact h.resume (by rw [hpc]; rfl)
  | load t u _ =>
      rcases hap with ⟨d, hd⟩ | ⟨-, -, hno⟩
      · cases hd
      · exact absurd rfl (hno t u)
  | loadInfo hpc => exact h.loadInfo hpc
  | idle hpc => exact h.move rfl rfl rfl fun _ => by rw [hpc]; rfl
  | clean _ hpc =>
      rcases hap with ⟨d, hd⟩ | ⟨-, hno, -⟩
      · cases hd
      · exact absurd hpc hno
  | poll overdue hpc _ => exact h.poll hpc overdue
  | send t _ => exact h.send hgood hc t
  | sendInfo hpc => exact h.sendInfo hc hpc
  | store _ => exact absurd hst (List.cons_ne_self _ _)
  | sleep hpc => exact h.move rfl rfl rfl fun _ => by rw [hpc]; rfl
  | done _ _ _ => exact h.stop
  | fail => exact h.stop

/-- A step that stores nothing. -/
theorem Backed.system {x y : System σ μ μ} (h : Backed K b x.loop) (hsound : SystemSound K b c x)
    (hb : StorageSound K b) (hc : c.receiveOnly = false)
    (hstep : SystemStep D.nm D.mode c x y) (hst : y.loop.stored = x.loop.stored)
    (hw : ∀ d, y.loop = x.loop.commit d → ¬ Window x.loop) : Backed K b y.loop := by
  have hload : ∀ {s : State σ μ μ} {r ls us inst info snap} (t : Moment),
      x = ⟨s, r, ls, us⟩ → s.pc = .ready → r.snapshotsByInstance inst = some (info, snap) →
      Backed K b (s.loadTxn D.mode t (updateOf inst info snap)) := by
    rintro s r ls us inst info snap t rfl hpc htaken
    obtain ⟨⟨f, hf, -, hsnap⟩, -, -⟩ := hsound.receiver.taken inst info snap htaken
    exact h.load hsound.loop.good hpc hf (hb.fit f hf) hsnap.symm
  cases hstep with
  | loop hs hap => exact h.step hsound.loop.good hc hs hap hst hw
  | list _ _ _ => exact h
  | publish _ => exact h
  | receiver _ => exact h
  | listed hpc _ _ => exact h.move rfl rfl rfl fun _ => by rw [hpc]; rfl
  | load t hpc htaken _ => exact hload t rfl hpc htaken
  | loadFail t hpc htaken _ => exact hload t rfl hpc htaken
  | clean hpc => exact h.move rfl rfl rfl fun _ => by rw [hpc]; rfl

end Backed

/-! ## Runs -/

section Net

variable [DecidableEq ι] [Preorder κ] {D : Deployment ι σ μ} {K : Knowledge D κ}
  {s s' : Net ι σ μ}

/-- No application commits while its loop does not know yet that a load has changed
nothing. -/
def Timely (s s' : Net ι σ μ) : Prop :=
  ∀ i d, (s'.node i).system.loop = (s.node i).system.loop.commit d →
    ¬ Window (s.node i).system.loop

def TimelyRun (D : Deployment ι σ μ) : Net ι σ μ → Net ι σ μ → Prop :=
  Relation.ReflTransGen fun s s' => NetStep D s s' ∧ Timely s s'

theorem TimelyRun.netRun (hr : TimelyRun D s s') : NetRun D s s' := by
  induction hr with
  | refl => exact Relation.ReflTransGen.refl
  | tail _ hstep ih => exact ih.tail hstep.1

theorem backed_set {i : ι} {x : Node σ μ} {b : Storage μ} (hsub : s.storage.files ⊆ b.files)
    (h : ∀ j, (D.config j).receiveOnly = false → Backed K s.storage (s.node j).system.loop)
    (hi : (D.config i).receiveOnly = false → Backed K b x.system.loop) (j : ι)
    (hj : (D.config j).receiveOnly = false) : Backed K b ((s.set i x b).node j).system.loop := by
  change Backed K b (Function.update s.node i x j).system.loop
  by_cases hji : j = i
  · subst hji
    rw [Function.update_self]
    exact hi hj
  · rw [Function.update_of_ne hji]
    exact (h j hj).mono hsub

theorem NetStep.backed (hstep : NetStep D s s') (ht : Timely s s') (hs : NetSound K s)
    (h : ∀ j, (D.config j).receiveOnly = false → Backed K s.storage (s.node j).system.loop) :
    ∀ j, (D.config j).receiveOnly = false → Backed K s'.storage (s'.node j).system.loop := by
  cases hstep with
  | @system i y hstep hst _ =>
      refine backed_set (fun _ hf => hf) h fun hc => ?_
      refine (h i hc).system (hs.nodes i).system hs.storage hc hstep hst fun d heq => ?_
      refine ht i d ?_
      rw [← heq]
      exact congrArg (fun x : Node σ μ => x.system.loop) (Function.update_self _ _ _)
  | store i hx hpc _ _ _ _ _ =>
      subst hx
      exact backed_set (List.subset_cons_self _ _) h fun hc => (h i hc).store hpc
  | setCommitted i _ => exact backed_set (fun _ hf => hf) h (h i)
  | sift i _ _ _ _ _ => exact backed_set (fun _ hf => hf) h (h i)
  | supersede i deleted _ =>
      exact backed_set (fun _ hf => hf) h fun hc => (h i hc).mono fun _ hf => hf
  | check i deleted _ _ _ =>
      exact backed_set (fun _ hf => hf) h fun hc => (h i hc).mono fun _ hf => hf
  | restart i conf hboots =>
      exact backed_set (fun _ hf => hf) h fun _ => backed_start hboots.start.loop hboots.unused

theorem TimelyRun.backed (hr : TimelyRun D s s') (h : NetStart D K.Good s) :
    ∀ i, (D.config i).receiveOnly = false → Backed K s'.storage (s'.node i).system.loop := by
  induction hr with
  | refl => exact fun i _ => backed_start (h.system i).start.loop (h.system i).unused
  | tail hr hstep ih => exact hstep.1.backed hstep.2 (NetRun.sound (TimelyRun.netRun hr) h) ih

/-- **At rest, one instance has what another has**: what the one has is stored, unless it
only receives, and the other has all that is stored. -/
theorem TimelyRun.agree (hr : TimelyRun D s s') (h : NetStart D K.Good s) {i j : ι}
    (hc : (D.config i).receiveOnly = false) (hi : Quiet s'.storage (s'.node i).system)
    (hj : Quiet s'.storage (s'.node j).system) :
    K.held (s'.node i).system.loop.env.current ≤ K.held (s'.node j).system.loop.env.current := by
  have hnet := hr.netRun
  have hsound := NetRun.sound hnet h
  have hbacked := hr.backed h i hc
  have hkept := (hbacked.marked (by rw [hi.loop]; rfl)).current hi.synced hbacked.bounded
  refine hkept _ fun f hf => ?_
  obtain ⟨g, hg, hle⟩ := NetRun.held hnet h hf
  exact hle.trans (hj.caught (NetRun.tracks hnet h j) (hsound.nodes j).system hsound.storage hg)

end Net

end LightningStream.Syncer.Instances
