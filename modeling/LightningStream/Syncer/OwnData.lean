import LightningStream.Receiver
import LightningStream.Syncer.NativeLoop

/-!
# Own data is loaded before it is overwritten

A syncer that starts with an empty LMDB must not store a snapshot before it has
loaded the last one of its own instance. The sync loop makes sure of that with
a set of instances it is waiting for: filled from the first listing, and
shrunk by loads and by what the receiver no longer sees.

Here the loop and the receiver are one system. The loop takes from the receiver
what it has downloaded and asks it which instances it sees; the receiver lists,
and its downloaders load, whenever they like.
-/

namespace LightningStream.Syncer.OwnData

open Snapshot Cleaner Loop
open Receiver (instances)

variable {σ υ ν : Type}

structure System (σ υ ν : Type) where
  loop : State σ υ ν
  receiver : Receiver υ
  /-- The usable snapshots in each listing, the latest listing first. -/
  listings : List (List NameInfo)
  /-- The loads that were committed. -/
  loads : List (Update υ)

/-- The update that `Next` gives for an instance. -/
def updateOf (inst : Bytes) (ni : NameInfo) (snap : υ) : Update υ :=
  ⟨inst, decide (ni.kind = kindSnapshot), ni.timestamp, snap⟩

/-- `RunOnce` is called once by the loop itself until it has a listing, and in the
background when the loop has been entered. -/
def MayList (s : State σ υ ν) (r : Receiver υ) : Prop :=
  s.pc = .listing ∧ r.started = false ∨ s.inLoop = true

/-- The steps in which the loop does not consult the receiver. -/
def Apart (s : State σ υ ν) (e : Event σ υ) : Prop :=
  (∃ d, e = .commit d) ∨ (s.pc ≠ .listing ∧ s.pc ≠ .cleaning ∧ ∀ t u, e ≠ .load t u)

inductive SystemStep (nm : Naming) (m : Mode σ υ ν) (c : Config) :
    System σ υ ν → System σ υ ν → Prop
  | loop {s s' e r ls us} : Step m c s e s' → Apart s e →
      SystemStep nm m c ⟨s, r, ls, us⟩ ⟨s', r, ls, us⟩
  | list {s r ls us} (names) : r.pc = .idle → MayList s r →
      SystemStep nm m c ⟨s, r, ls, us⟩ ⟨s, r.list nm names, ls, us⟩
  | publish {s r ls us includingOwn usable} : r.pc = .listed includingOwn usable →
      SystemStep nm m c ⟨s, r, ls, us⟩ ⟨s, r.publish includingOwn usable, usable :: ls, us⟩
  | receiver {s r r' ls us} : Receiver.Step nm r .other r' →
      SystemStep nm m c ⟨s, r, ls, us⟩ ⟨s, r', ls, us⟩
  /-- The initial listing is done. -/
  | listed {s r ls us} : s.pc = .listing → r.started = true → r.pc = .idle →
      SystemStep nm m c ⟨s, r, ls, us⟩ ⟨s.listed r.hasSnapshots r.seenInstances, r, ls, us⟩
  | load {s r ls us inst ni snap d dirty} (t) : s.pc = .ready →
      r.snapshotsByInstance inst = some (ni, snap) →
      m.loadTxn (s.localChanged (s.env.last + 1)) t (s.env.last + 1) snap s.env.current =
        some (d, dirty) →
      SystemStep nm m c ⟨s, r, ls, us⟩
        ⟨s.loadTxn m t (updateOf inst ni snap), r.take inst, ls, updateOf inst ni snap :: us⟩
  | loadFail {s r ls us inst ni snap} (t) : s.pc = .ready →
      r.snapshotsByInstance inst = some (ni, snap) →
      m.loadTxn (s.localChanged (s.env.last + 1)) t (s.env.last + 1) snap s.env.current = none →
      SystemStep nm m c ⟨s, r, ls, us⟩
        ⟨s.loadTxn m t (updateOf inst ni snap), r.take inst, ls, us⟩
  /-- The check for instances that have disappeared. -/
  | clean {s r ls us} : s.pc = .cleaning →
      SystemStep nm m c ⟨s, r, ls, us⟩ ⟨s.clean r.seenInstances, r, ls, us⟩

/-- The system before its first step. -/
structure SystemStart (c : Config) (x : System σ υ ν) : Prop where
  loop : Start x.loop
  receiver : x.receiver = Receiver.new υ c.ownInstanceID
  listings : x.listings = []

def SystemRun (nm : Naming) (m : Mode σ υ ν) (c : Config) : System σ υ ν → System σ υ ν → Prop :=
  Relation.ReflTransGen (SystemStep nm m c)

/-- A run goes on with a step of the loop alone. -/
theorem SystemRun.loop {nm : Naming} {m : Mode σ υ ν} {c : Config} {x : System σ υ ν}
    {s s' : State σ υ ν} {e : Event σ υ} {r : Receiver υ} {ls : List (List NameInfo)}
    {us : List (Update υ)} (hr : SystemRun nm m c x ⟨s, r, ls, us⟩) (h : Step m c s e s')
    (hap : Apart s e) : SystemRun nm m c x ⟨s', r, ls, us⟩ := hr.tail (.loop h hap)

/-- What must have happened before a snapshot is stored: the initial listing had no
usable snapshot of our own instance, or one was loaded, or a later listing no
longer had any. -/
def MayStore (own : Bytes) (x : System σ υ ν) : Prop :=
  (∃ l, x.listings.getLast? = some l ∧ own ∉ instances l) ∨
  (∃ u ∈ x.loads, u.isSnapshot = true ∧ u.instanceID = own) ∨
  ∃ l ∈ x.listings.dropLast, own ∉ instances l

/-! ## The guard -/

section Guard

variable {own : Bytes} {ls ls' : List (List NameInfo)} {us us' : List (Update υ)}

/-- The same, without telling the initial listing from the others. -/
def Free (own : Bytes) (ls : List (List NameInfo)) (us : List (Update υ)) : Prop :=
  (∃ l ∈ ls, own ∉ instances l) ∨ ∃ u ∈ us, u.isSnapshot = true ∧ u.instanceID = own

theorem Free.mono (h : Free own ls us) (hls : ls ⊆ ls') (hus : us ⊆ us') : Free own ls' us' := by
  rcases h with ⟨l, hl, hno⟩ | ⟨u, hu, hown⟩
  · exact Or.inl ⟨l, hls hl, hno⟩
  · exact Or.inr ⟨u, hus hu, hown⟩

theorem mayStore_iff {x : System σ υ ν} : MayStore own x ↔ Free own x.listings x.loads := by
  have hmem : ∀ l, l ∈ x.listings ↔ x.listings.getLast? = some l ∨ l ∈ x.listings.dropLast := by
    intro l
    rcases List.eq_nil_or_concat x.listings with hnil | ⟨init, last, hcat⟩
    · simp [hnil]
    · simp [hcat, or_comm, eq_comm]
  unfold MayStore Free
  constructor
  · rintro (⟨l, hl, hno⟩ | hload | ⟨l, hl, hno⟩)
    · exact Or.inl ⟨l, (hmem l).mpr (Or.inl hl), hno⟩
    · exact Or.inr hload
    · exact Or.inl ⟨l, (hmem l).mpr (Or.inr hl), hno⟩
  · rintro (⟨l, hl, hno⟩ | hload)
    · rcases (hmem l).mp hl with hl | hl
      · exact Or.inl ⟨l, hl, hno⟩
      · exact Or.inr (Or.inr ⟨l, hl, hno⟩)
    · exact Or.inr (Or.inl hload)

/-- The loop has read the initial listing and goes by its set of instances. -/
def waits : Pc υ ν → Bool
  | .begin => false
  | .listing => false
  | .stopped => false
  | _ => true

/-- The loop is on its way to store a snapshot. -/
def sends : Pc υ ν → Bool
  | .startup false => true
  | .send => true
  | .dumped _ _ _ => true
  | .storing _ _ _ => true
  | _ => false

/-- What a step apart from the receiver does to the guard. -/
structure Keeps (own : Bytes) (s s' : State σ υ ν) : Prop where
  waiting : s'.waitingForInstances = s.waitingForInstances
  early : s'.pc = .begin ∨ s'.pc = .listing → (s.pc = .begin ∨ s.pc = .listing) ∧
    s'.inLoop = s.inLoop
  waits : waits s'.pc = true → waits s.pc = true
  sends : sends s'.pc = true → sends s.pc = true ∨ own ∉ s.waitingForInstances

theorem keeps_stop (s : State σ υ ν) : Keeps own s s.stop :=
  ⟨rfl, by simp [State.stop], by simp [State.stop, OwnData.waits],
    by simp [State.stop, OwnData.sends]⟩

/-- Back to the loop from a point where the set was in force. -/
theorem keeps_resume {s s' : State σ υ ν} (hw : s'.waitingForInstances = s.waitingForInstances)
    (hpc : OwnData.waits s.pc = true) : Keeps own s s'.resume := by
  refine ⟨hw, ?_, fun _ => hpc, ?_⟩
  · unfold State.resume
    cases s'.inLoop with
    | true => simp
    | false => simp
  · unfold State.resume
    cases s'.inLoop with
    | true => simp [OwnData.sends]
    | false => simp [OwnData.sends]

theorem keeps_afterStartup {s s' : State σ υ ν} {hasSnapshots : Bool}
    (hw : s'.waitingForInstances = s.waitingForInstances) (hpc : s.pc = .startup hasSnapshots) :
    Keeps own s (s'.afterStartup hasSnapshots) := by
  unfold State.afterStartup
  split
  · rename_i hsend
    have hs : hasSnapshots = false := by
      rw [Bool.and_eq_true, Bool.not_eq_true'] at hsend
      exact hsend.2
    refine ⟨hw, by simp, fun _ => by rw [hpc]; rfl, fun _ => Or.inl ?_⟩
    rw [hpc, hs]
    rfl
  · exact keeps_resume hw (by rw [hpc]; rfl)

theorem keeps_poll {c : Config} {s : State σ υ ν} (hpc : s.pc = .poll) (overdue : Bool) :
    Keeps c.ownInstanceID s (s.poll c overdue) := by
  have hwaits : OwnData.waits s.pc = true := by
    rw [hpc]
    rfl
  have hpause : ∀ n, Keeps c.ownInstanceID s { s with lastSynced := n, pc := .pause } :=
    fun n => ⟨rfl, by simp, fun _ => hwaits, by simp [OwnData.sends]⟩
  unfold State.poll
  split
  · split
    · exact hpause _
    · rename_i hown
      split
      · exact ⟨rfl, by simp, fun _ => hwaits, fun _ => Or.inr hown⟩
      · exact hpause _
  · exact hpause _

/-- Only the check of the set, or a listing without snapshots, lets the loop send. -/
theorem keeps_step {m : Mode σ υ ν} {c : Config} {s s' : State σ υ ν} {e : Event σ υ}
    (h : Step m c s e s') (hap : Apart s e) : Keeps c.ownInstanceID s s' := by
  have hgo : ∀ (pc' : Pc υ ν) {s' : State σ υ ν}, s'.pc = pc' →
      s'.waitingForInstances = s.waitingForInstances → OwnData.waits s.pc = true →
      OwnData.waits pc' = true → (OwnData.sends pc' = true → OwnData.sends s.pc = true) →
      Keeps c.ownInstanceID s s' := by
    intro pc' s' hpc' hw hs hs' hsend
    refine ⟨hw, ?_, fun _ => hs, fun hk => Or.inl (hsend (hpc' ▸ hk))⟩
    rintro (heq | heq)
    · rw [← hpc', heq] at hs'
      cases hs'
    · rw [← hpc', heq] at hs'
      cases hs'
  cases h with
  | commit _ => exact ⟨rfl, fun h => ⟨h, rfl⟩, id, Or.inl⟩
  | info hpc => exact ⟨rfl, fun _ => ⟨Or.inl hpc, rfl⟩, by simp [State.info, OwnData.waits],
      by simp [State.info, OwnData.sends]⟩
  | listed _ _ hpc =>
      rcases hap with ⟨d, hd⟩ | ⟨hno, -, -⟩
      · cases hd
      · exact absurd hpc hno
  | startup t hpc =>
      rcases startup_cases m s t _ with ⟨-, h⟩ | h | ⟨-, d, b, -, h⟩
      · rw [h]
        exact keeps_afterStartup rfl hpc
      · rw [h]
        exact keeps_stop s
      · rw [h]
        exact keeps_afterStartup rfl hpc
  | load t u _ =>
      rcases hap with ⟨d, hd⟩ | ⟨-, -, hno⟩
      · cases hd
      · exact absurd rfl (hno t u)
  | loadInfo hpc =>
      unfold State.loadInfo
      split
      · exact hgo .cleaning rfl rfl (by rw [hpc]; rfl) rfl (by simp [OwnData.sends])
      · exact hgo .ready rfl rfl (by rw [hpc]; rfl) rfl (by simp [OwnData.sends])
  | idle hpc => exact hgo .cleaning rfl rfl (by rw [hpc]; rfl) rfl (by simp [OwnData.sends])
  | clean _ hpc =>
      rcases hap with ⟨d, hd⟩ | ⟨-, hno, -⟩
      · cases hd
      · exact absurd hpc hno
  | poll overdue hpc _ => exact keeps_poll hpc overdue
  | send t hpc =>
      have hw : OwnData.waits s.pc = true ∧ OwnData.sends s.pc = true := by
        rw [hpc]
        exact ⟨rfl, rfl⟩
      rcases sendTxn_cases m c s t with h | ⟨-, d, b, snap, -, h⟩ | ⟨-, d, b, snap, -, h⟩
      · rw [h]
        exact keeps_stop s
      · rw [h]
        exact hgo (.dumped _ _ _) rfl rfl hw.1 rfl fun _ => hw.2
      · rw [h]
        exact hgo (.dumped _ _ _) rfl rfl hw.1 rfl fun _ => hw.2
  | sendInfo hpc =>
      have hw : OwnData.waits s.pc = true ∧ OwnData.sends s.pc = true := by
        rw [hpc]
        exact ⟨rfl, rfl⟩
      unfold State.sendInfo
      split
      · exact keeps_resume rfl hw.1
      · exact hgo (.storing _ _ _) rfl rfl hw.1 rfl fun _ => hw.2
  | store hpc => exact keeps_resume rfl (by rw [hpc]; rfl)
  | sleep hpc => exact hgo .ready rfl rfl (by rw [hpc]; rfl) rfl (by simp [OwnData.sends])
  | done _ _ _ => exact keeps_stop s
  | fail => exact keeps_stop s

/-- Before the loop has read the initial listing, there is at most one. -/
structure Early (s : State σ υ ν) (r : Receiver υ) (ls : List (List NameInfo)) : Prop where
  inLoop : s.inLoop = false
  before : r.started = false → ls = [] ∧ r.pc = .idle
  listed : ∀ inc l, r.pc = .listed inc l → ls = []
  after : r.started = true → (∀ inc l, r.pc ≠ .listed inc l) → ls = [r.lastSeenByInstance]

/-- The guard of the system: as long as our own instance is not waited for, or a
snapshot is on its way, storing is fine. -/
structure Guarded (c : Config) (x : System σ υ ν) : Prop where
  early : x.loop.pc = .begin ∨ x.loop.pc = .listing → Early x.loop x.receiver x.listings
  /-- The receiver shows one of the listings. -/
  shown : OwnData.waits x.loop.pc = true → x.receiver.lastSeenByInstance ∈ x.listings
  waiting : OwnData.waits x.loop.pc = true → c.ownInstanceID ∈ x.loop.waitingForInstances ∨
    Free c.ownInstanceID x.listings x.loads
  sending : OwnData.sends x.loop.pc = true → Free c.ownInstanceID x.listings x.loads

theorem waits_of_sends {pc : Pc υ ν} (h : OwnData.sends pc = true) : OwnData.waits pc = true := by
  cases pc with
  | begin => cases h
  | listing => cases h
  | stopped => cases h
  | _ => rfl

variable {nm : Naming} {m : Mode σ υ ν} {c : Config} {s s' : State σ υ ν} {r r' : Receiver υ}

theorem Guarded.loop (hg : Guarded c ⟨s, r, ls, us⟩) (hk : Keeps c.ownInstanceID s s') :
    Guarded c ⟨s', r, ls, us⟩ := by
  constructor
  · intro hpc
    obtain ⟨hpc, hin⟩ := hk.early hpc
    obtain ⟨h1, h2, h3, h4⟩ := hg.early hpc
    exact ⟨hin.trans h1, h2, h3, h4⟩
  · exact fun hw => hg.shown (hk.waits hw)
  · intro hw
    have hwait := hg.waiting (hk.waits hw)
    rw [← hk.waiting] at hwait
    exact hwait
  · intro hsend
    rcases hk.sends hsend with hsend' | hown
    · exact hg.sending hsend'
    · exact (hg.waiting (hk.waits (waits_of_sends hsend))).resolve_left hown

theorem Guarded.list (hg : Guarded c ⟨s, r, ls, us⟩) (hmay : MayList s r) (names : List Bytes) :
    Guarded c ⟨s, r.list nm names, ls, us⟩ := by
  refine ⟨fun hpc => ?_, hg.shown, hg.waiting, hg.sending⟩
  have hearly := hg.early hpc
  rcases hmay with ⟨-, hstart⟩ | hin
  · refine ⟨hearly.inLoop, ?_, fun _ _ _ => (hearly.before hstart).1, ?_⟩
    · intro h
      cases h
    · intro _ hno
      exact absurd rfl (hno _ _)
  · have hout := hearly.inLoop
    simp only at hout
    rw [hin] at hout
    cases hout

theorem Guarded.publish (hg : Guarded c ⟨s, r, ls, us⟩) {inc : Bool} {usable : List NameInfo}
    (hpc : r.pc = .listed inc usable) :
    Guarded c ⟨s, r.publish inc usable, usable :: ls, us⟩ := by
  have hfree : ∀ h : Free c.ownInstanceID ls us, Free c.ownInstanceID (usable :: ls) us :=
    fun h => h.mono (List.subset_cons_self _ _) (List.Subset.refl _)
  refine ⟨fun hp => ?_, fun _ => List.mem_cons_self, fun hw => (hg.waiting hw).imp_right hfree,
    fun hs => hfree (hg.sending hs)⟩
  have hearly := hg.early hp
  refine ⟨hearly.inLoop, fun hstart => ?_, fun _ _ h => ?_, fun _ _ => ?_⟩
  · have hidle := (hearly.before hstart).2
    simp only at hidle
    rw [hpc] at hidle
    cases hidle
  · cases h
  · rw [show ls = [] from hearly.listed inc usable hpc]
    rfl

/-- The other steps of the receiver leave its map and its listing alone. -/
theorem receiver_keeps (h : Receiver.Step nm r .other r') :
    r'.lastSeenByInstance = r.lastSeenByInstance ∧ r'.started = r.started ∧
      (r'.pc = r.pc ∨
        (∃ inc todo, r.pc = .notifying inc todo) ∧ ∀ inc l, r'.pc ≠ .listed inc l) := by
  cases h with
  | consider hpc _ _ =>
      unfold Receiver.consider
      split
      · exact ⟨rfl, rfl, Or.inr ⟨⟨_, _, hpc⟩, by simp⟩⟩
      · exact ⟨rfl, rfl, Or.inr ⟨⟨_, _, hpc⟩, by simp [Receiver.notify, Receiver.setDownloader]⟩⟩
  | finish hpc => exact ⟨rfl, rfl, Or.inr ⟨⟨_, _, hpc⟩, by simp⟩⟩
  | look _ _ =>
      unfold Receiver.look
      split
      · exact ⟨rfl, rfl, Or.inl rfl⟩
      · split
        · exact ⟨rfl, rfl, Or.inl rfl⟩
        · exact ⟨rfl, rfl, Or.inl rfl⟩
  | _ => exact ⟨rfl, rfl, Or.inl rfl⟩

theorem Guarded.receiver (hg : Guarded c ⟨s, r, ls, us⟩) (h : Receiver.Step nm r .other r') :
    Guarded c ⟨s, r', ls, us⟩ := by
  obtain ⟨hseen, hstart, hpc⟩ := receiver_keeps h
  refine ⟨fun hp => ?_, fun hw => hseen ▸ hg.shown hw, hg.waiting, hg.sending⟩
  obtain ⟨hin, hbefore, hlisted, hafter⟩ := hg.early hp
  simp only at hin hbefore hlisted hafter
  rcases hpc with hpc | ⟨⟨inc, todo, hnot⟩, hno⟩
  · exact ⟨hin, by rw [hstart, hpc]; exact hbefore, by rw [hpc]; exact hlisted,
      by rw [hstart, hpc, hseen]; exact hafter⟩
  · refine ⟨hin, fun h => ?_, fun inc l h => absurd h (hno inc l), fun h _ => ?_⟩
    · rw [hstart] at h
      have hidle := (hbefore h).2
      rw [hnot] at hidle
      cases hidle
    · rw [hseen]
      rw [hstart] at h
      exact hafter h (by simp [hnot])

/-- The set is filled from the only listing so far. -/
theorem Guarded.listed (hg : Guarded c ⟨s, r, ls, us⟩) (hpc : s.pc = .listing)
    (hstart : r.started = true) (hidle : r.pc = .idle) :
    Guarded c ⟨s.listed r.hasSnapshots r.seenInstances, r, ls, us⟩ := by
  have hls : ls = [r.lastSeenByInstance] := (hg.early (Or.inr hpc)).after hstart (by simp [hidle])
  rw [hls]
  refine ⟨by simp [State.listed], fun _ => List.mem_singleton_self _, fun _ => ?_, fun hsend => ?_⟩
  · by_cases hown : c.ownInstanceID ∈ r.seenInstances
    · exact Or.inl hown
    · exact Or.inr (Or.inl ⟨_, List.mem_singleton_self _, hown⟩)
  · have hno : r.hasSnapshots = false := by
      cases hh : r.hasSnapshots with
      | false => rfl
      | true => simp [State.listed, OwnData.sends, hh] at hsend
    have hnil : r.lastSeenByInstance = [] := by simpa [Receiver.hasSnapshots] using hno
    rw [hnil]
    exact Or.inl ⟨[], List.mem_singleton_self _, by simp [instances]⟩

/-- The set is shrunk by a load, which is committed by then. -/
theorem Guarded.load (hg : Guarded c ⟨s, r, ls, us⟩) (hpc : s.pc = .ready) {t : Moment}
    {u : Update υ} {d : σ} {dirty : Bool} {inst : Bytes}
    (hload : m.loadTxn (s.localChanged (s.env.last + 1)) t (s.env.last + 1) u.snapshot
      s.env.current = some (d, dirty)) :
    Guarded c ⟨s.loadTxn m t u, r.take inst, ls, u :: us⟩ := by
  have hwaits : OwnData.waits s.pc = true := by
    rw [hpc]
    rfl
  have hfree : ∀ h : Free c.ownInstanceID ls us, Free c.ownInstanceID ls (u :: us) :=
    fun h => h.mono (List.Subset.refl _) (List.subset_cons_self _ _)
  unfold State.loadTxn
  simp only [hload]
  refine ⟨by simp, fun _ => hg.shown hwaits, fun _ => ?_, by simp [OwnData.sends]⟩
  rcases hg.waiting hwaits with hown | hf
  · cases hsnap : u.isSnapshot with
    | false => exact Or.inl hown
    | true =>
        by_cases hi : u.instanceID = c.ownInstanceID
        · exact Or.inr (Or.inr ⟨u, List.mem_cons_self, hsnap, hi⟩)
        · exact Or.inl (Finset.mem_erase.mpr ⟨Ne.symm hi, hown⟩)
  · exact Or.inr (hfree hf)

/-- The set is shrunk to what the receiver shows. -/
theorem Guarded.clean (hg : Guarded c ⟨s, r, ls, us⟩) (hpc : s.pc = .cleaning) :
    Guarded c ⟨s.clean r.seenInstances, r, ls, us⟩ := by
  have hwaits : OwnData.waits s.pc = true := by
    rw [hpc]
    rfl
  refine ⟨by simp [State.clean], fun _ => hg.shown hwaits, fun _ => ?_,
    by simp [State.clean, OwnData.sends]⟩
  rcases hg.waiting hwaits with hown | hf
  · by_cases hseen : c.ownInstanceID ∈ r.seenInstances
    · exact Or.inl (Finset.mem_inter.mpr ⟨hown, hseen⟩)
    · exact Or.inr (Or.inl ⟨_, hg.shown hwaits, hseen⟩)
  · exact Or.inr hf

theorem SystemStep.guarded {x y : System σ υ ν} (h : SystemStep nm m c x y)
    (hg : Guarded c x) : Guarded c y := by
  cases h with
  | loop hstep hap => exact hg.loop (keeps_step hstep hap)
  | list names _ hmay => exact hg.list hmay names
  | publish hpc => exact hg.publish hpc
  | receiver hstep => exact hg.receiver hstep
  | listed hpc hstart hidle => exact hg.listed hpc hstart hidle
  | @load s r ls us inst ni snap d dirty t hpc _ hload =>
      exact hg.load (u := updateOf inst ni snap) hpc hload
  | @loadFail s r ls us inst ni snap t hpc _ hload =>
      have hstop : s.loadTxn m t (updateOf inst ni snap) = s.stop := by
        unfold State.loadTxn
        simp only [updateOf, hload]
      rw [hstop]
      have hk := hg.loop (keeps_stop s)
      exact ⟨by simp [State.stop], hk.shown, hk.waiting, hk.sending⟩
  | clean hpc => exact hg.clean hpc

theorem SystemStart.guarded {x : System σ υ ν} (h : SystemStart c x) : Guarded c x := by
  have hpc := h.loop.pc
  refine ⟨fun _ => ?_, by simp [hpc, OwnData.waits], by simp [hpc, OwnData.waits],
    by simp [hpc, OwnData.sends]⟩
  rw [h.receiver, h.listings]
  exact ⟨h.loop.inLoop, fun _ => ⟨rfl, rfl⟩, fun _ _ _ => rfl, fun hs => by cases hs⟩

end Guard

theorem SystemRun.guarded {nm : Naming} {m : Mode σ υ ν} {c : Config} {x y : System σ υ ν}
    (hr : SystemRun nm m c x y) (hs : SystemStart c x) : Guarded c y := by
  induction hr with
  | refl => exact hs.guarded
  | tail _ hstep ih => exact hstep.guarded ih

/-- **Own data is loaded before it can be overwritten**: a step that stores a snapshot
comes after one of these. -/
theorem own_data_loaded_first (nm : Naming) (m : Mode σ υ ν) (c : Config) {x y z : System σ υ ν}
    (hs : SystemStart c x) (hr : SystemRun nm m c x y) (hstep : SystemStep nm m c y z)
    (hstored : z.loop.stored ≠ y.loop.stored) : MayStore c.ownInstanceID y := by
  rw [mayStore_iff]
  apply (hr.guarded hs).sending
  cases hstep with
  | loop hstep _ =>
      obtain ⟨txnID, seen, snap, hpc, -⟩ := hstep.stored.resolve_left hstored
      rw [hpc]
      rfl
  | load t _ _ _ => exact absurd (loadTxn_stored _ _ _ _) hstored
  | loadFail t _ _ _ => exact absurd (loadTxn_stored _ _ _ _) hstored
  | _ => exact absurd rfl hstored

/-! ### A restart on a new LMDB -/

open NativeLoop

/-- The last snapshot of our own instance. -/
def ownFile : Bytes := ascii "db__own__20240101-000000-000000100__G1.pb.gz"

def ownInfo : NameInfo := (snapshotOf defaultNaming ownFile).get (by decide +kernel)

theorem snapshotOf_ownFile : snapshotOf defaultNaming ownFile = some ownInfo :=
  (Option.some_get _).symm

theorem ownInfo_instanceID : ownInfo.instanceID = plainConfig.ownInstanceID := by decide +kernel

theorem instances_own : instances [ownInfo] = {plainConfig.ownInstanceID} := by
  simp [instances, ownInfo_instanceID]

theorem lookup_own : Receiver.lookup [ownInfo] plainConfig.ownInstanceID = some ownInfo := by
  simp [Receiver.lookup, ownInfo_instanceID]

/-- The receiver when the initial listing has told the downloader of the snapshot. -/
def ownListed : Receiver (Message Empty) :=
  { (Receiver.new (Message Empty) plainConfig.ownInstanceID).list defaultNaming [ownFile] with
    lastNotifiedByInstance := Function.update (fun _ => none) plainConfig.ownInstanceID ownInfo
    lastSeenByInstance := [ownInfo]
    downloadersByInstance :=
      Function.update (fun _ => none) plainConfig.ownInstanceID (some ⟨.waiting, none, true⟩)
    pc := .idle }

theorem list_own :
    ((Receiver.new (Message Empty) plainConfig.ownInstanceID).list defaultNaming [ownFile]).pc =
      .listed true [ownInfo] := by
  show Receiver.Pc.listed true ([ownFile].filterMap _) = _
  simp [Receiver.new, Receiver.ignoring, snapshotOf_ownFile]

theorem consider_own :
    (((Receiver.new (Message Empty) plainConfig.ownInstanceID).list defaultNaming
      [ownFile]).publish true [ownInfo]).consider true (instances [ownInfo])
      plainConfig.ownInstanceID ownInfo = { ownListed with pc := .notifying true ∅ } := by
  have hname : ownInfo.fullName ≠ [] := by decide +kernel
  unfold Receiver.consider
  rw [if_neg (by rintro (h | ⟨h, -⟩); exacts [hname h, nomatch h])]
  simp [Receiver.notify, Receiver.setDownloader, Receiver.publish, Receiver.list, Receiver.new,
    ownListed, Receiver.Downloader.new, instances_own]

theorem run_ownListed :
    SystemRun defaultNaming (native plainOptions) plainConfig
      ⟨fresh, Receiver.new (Message Empty) plainConfig.ownInstanceID, [], []⟩
      ⟨fresh.info.listed true (instances [ownInfo]), ownListed, [[ownInfo]], []⟩ := by
  have hpublished : SystemRun defaultNaming (native plainOptions) plainConfig
      ⟨fresh, Receiver.new (Message Empty) plainConfig.ownInstanceID, [], []⟩
      ⟨fresh.info, ((Receiver.new (Message Empty) plainConfig.ownInstanceID).list defaultNaming
        [ownFile]).publish true [ownInfo], [[ownInfo]], []⟩ :=
    ((Relation.ReflTransGen.single (SystemStep.loop (Step.info (s := fresh) rfl)
      (Or.inr ⟨nofun, nofun, nofun⟩))).tail
      (SystemStep.list [ownFile] rfl (Or.inl ⟨rfl, rfl⟩))).tail (SystemStep.publish list_own)
  have hconsidered := hpublished.tail (SystemStep.receiver (.consider rfl
    (by rw [instances_own]; exact Finset.mem_singleton_self _) lookup_own))
  rw [consider_own] at hconsidered
  have hfinished : SystemRun defaultNaming (native plainOptions) plainConfig
      ⟨fresh, Receiver.new (Message Empty) plainConfig.ownInstanceID, [], []⟩
      ⟨fresh.info, ownListed, [[ownInfo]], []⟩ :=
    hconsidered.tail (SystemStep.receiver (.finish rfl))
  exact hfinished.tail (SystemStep.listed rfl rfl rfl)

/-- The receiver while the downloader is at it, and when it has the snapshot. -/
def ownFetching : Receiver (Message Empty) :=
  { ownListed with
    downloadersByInstance := Function.update (fun _ => none) plainConfig.ownInstanceID
      (some ⟨.loading ownInfo, none, false⟩) }

def ownLoaded : Receiver (Message Empty) :=
  { ownListed with
    snapshotsByInstance :=
      Function.update (fun _ => none) plainConfig.ownInstanceID (some (ownInfo, ⟨3, 1, []⟩))
    downloadersByInstance := Function.update (fun _ => none) plainConfig.ownInstanceID
      (some ⟨.waiting, some ownInfo, false⟩) }

theorem look_own : (ownListed.wake plainConfig.ownInstanceID ⟨.waiting, none, true⟩).look
    plainConfig.ownInstanceID ⟨.checking, none, false⟩ = ownFetching := by
  have hname : ownInfo.fullName ≠ [] := by decide +kernel
  unfold Receiver.look
  rw [show Receiver.lookup (ownListed.wake plainConfig.ownInstanceID
    ⟨.waiting, none, true⟩).lastSeenByInstance plainConfig.ownInstanceID = some ownInfo
    from lookup_own]
  simp [hname, Receiver.nameOf, Receiver.setDownloader, Receiver.wake, ownFetching, ownListed]

theorem loadOk_own : ownFetching.loadOk plainConfig.ownInstanceID ⟨.loading ownInfo, none, false⟩
    ownInfo ⟨3, 1, []⟩ = ownLoaded := by
  simp [Receiver.loadOk, Receiver.setDownloader, ownFetching, ownLoaded, ownListed, Receiver.list,
    Receiver.new]

theorem run_ownLoaded {x : State Lmdb.Contents (Message Empty) (Message Empty)} :
    SystemRun defaultNaming (native plainOptions) plainConfig
      ⟨x, ownListed, [[ownInfo]], []⟩ ⟨x, ownLoaded, [[ownInfo]], []⟩ := by
  have hsignal : ownListed.downloadersByInstance plainConfig.ownInstanceID =
      some ⟨.waiting, none, true⟩ := by simp [ownListed]
  have hfetching : ownFetching.downloadersByInstance plainConfig.ownInstanceID =
      some ⟨.loading ownInfo, none, false⟩ := by simp [ownFetching]
  have hwake : SystemRun defaultNaming (native plainOptions) plainConfig
      ⟨x, ownListed, [[ownInfo]], []⟩
      ⟨x, ownListed.wake plainConfig.ownInstanceID ⟨.waiting, none, true⟩, [[ownInfo]], []⟩ :=
    .single (.receiver (.wake hsignal rfl rfl))
  have hlooked := hwake.tail (.receiver (.look (Function.update_self _ _ _) rfl))
  rw [look_own] at hlooked
  have hloaded := hlooked.tail (.receiver (.loadOk ⟨3, 1, []⟩ hfetching rfl))
  rwa [loadOk_own] at hloaded

/-- The loop after it has loaded its own snapshot and found a commit of the application. -/
def ownStoring : State Lmdb.Contents (Message Empty) (Message Empty) :=
  ((((((((fresh.info.listed true (instances [ownInfo])).startup (native plainOptions) noon
    true).loadTxn (native plainOptions) noon (updateOf plainConfig.ownInstanceID ownInfo
    ⟨3, 1, []⟩)).loadInfo (updateOf plainConfig.ownInstanceID ownInfo ⟨3, 1, []⟩) 1
    false).commit oneDbi).idle.clean (instances [ownInfo])).poll plainConfig false).sendTxn
    (native plainOptions) plainConfig noon).sendInfo plainConfig 1 1
    ⟨3, 1, [⟨[97], 0, [], Reading.ofList []⟩]⟩

theorem run_ownStoring :
    SystemRun defaultNaming (native plainOptions) plainConfig
      ⟨fresh, Receiver.new (Message Empty) plainConfig.ownInstanceID, [], []⟩
      ⟨ownStoring, ownLoaded.take plainConfig.ownInstanceID, [[ownInfo]],
        [updateOf plainConfig.ownInstanceID ownInfo ⟨3, 1, []⟩]⟩ := by
  have hstarted := run_ownListed.loop (Step.startup noon rfl) (Or.inr ⟨nofun, nofun, nofun⟩)
  have hready : ownLoaded.snapshotsByInstance plainConfig.ownInstanceID =
      some (ownInfo, ⟨3, 1, []⟩) := by simp [ownLoaded]
  have hloaded : SystemRun defaultNaming (native plainOptions) plainConfig
      ⟨fresh, Receiver.new (Message Empty) plainConfig.ownInstanceID, [], []⟩ _ :=
    (hstarted.trans run_ownLoaded).tail (SystemStep.load noon rfl hready rfl)
  have hidle := ((hloaded.loop (Step.loadInfo rfl) (Or.inr ⟨nofun, nofun, nofun⟩)).loop
    (Step.commit (d := oneDbi) trivial) (Or.inl ⟨_, rfl⟩)).loop (Step.idle rfl)
    (Or.inr ⟨nofun, nofun, nofun⟩)
  have hcleaned : SystemRun defaultNaming (native plainOptions) plainConfig
      ⟨fresh, Receiver.new (Message Empty) plainConfig.ownInstanceID, [], []⟩ _ :=
    hidle.tail (SystemStep.clean rfl)
  exact ((hcleaned.loop (Step.poll false rfl (by simp)) (Or.inr ⟨nofun, nofun, nofun⟩)).loop
    (Step.send noon rfl) (Or.inr ⟨nofun, nofun, nofun⟩)).loop (Step.sendInfo rfl)
    (Or.inr ⟨nofun, nofun, nofun⟩)

/-- The initial listing has our own snapshot, and it is loaded before the application's commit
is stored. -/
theorem own_data_loaded_first_own :
    plainConfig.ownInstanceID ∈ instances [ownInfo] ∧ MayStore plainConfig.ownInstanceID
      (⟨ownStoring, ownLoaded.take plainConfig.ownInstanceID, [[ownInfo]],
        [updateOf plainConfig.ownInstanceID ownInfo ⟨3, 1, []⟩]⟩ :
        System Lmdb.Contents (Message Empty) (Message Empty)) := by
  have hap : Apart ownStoring (.other : Event Lmdb.Contents (Message Empty)) :=
    Or.inr ⟨nofun, nofun, nofun⟩
  refine ⟨by rw [instances_own]; exact Finset.mem_singleton_self _, ?_⟩
  refine own_data_loaded_first defaultNaming (native plainOptions) plainConfig
    ⟨fresh_start, rfl, rfl⟩ run_ownStoring (SystemStep.loop (Step.store rfl) hap) ?_
  exact List.cons_ne_nil _ _

end LightningStream.Syncer.OwnData
