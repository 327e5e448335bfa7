import LightningStream.Base.Runs
import Mathlib.Tactic

/-!
# The global storage

`SetGlobal` puts a backend into a global variable and `GetGlobal` reads it. A
reader that finds none waits for the channel `ready`, which the first call of
`SetGlobal` closes, and reads again.

The test after the second read is the wrong way round: the call panics if it has
found a backend. So a reader that comes too early never returns. A run can go on without
a panic just if no reader has come too early (`global_storage_safe_iff`). Everything else
holds in any order of the calls (`Sound`).
-/

namespace LightningStream.Storage

variable {β : Type}

/-- The package's variables. The mutex is left out: what happens under it is one step. -/
structure Global (β : Type) where
  storage : Option β
  /-- How often `ready` has been closed. -/
  closes : ℕ

/-! ## SetGlobal -/

inductive SetPc (β : Type)
  | setting (st : Option β)
  | returned
  | panicked

/-- `SetGlobal`. To close `ready` a second time is a panic, and the variable is
not set then. -/
def Global.setGlobal (g : Global β) : Option β → Global β × SetPc β
  | none => (g, .panicked)
  | some b =>
      match g.storage with
      | none => if g.closes = 0 then (⟨some b, 1⟩, .returned) else (⟨none, g.closes + 1⟩, .panicked)
      | some _ => (⟨some b, g.closes⟩, .returned)

/-! ## GetGlobal -/

inductive GetPc (β : Type)
  /-- Before the first read. -/
  | reading
  /-- In `wait`. -/
  | waiting
  /-- Before the second read. -/
  | rereading
  | returned (st : Option β)
  | panicked

/-- The end of `GetGlobal`, after the second read. -/
def readAgain : Option β → GetPc β
  | some _ => .panicked
  | none => .returned none

structure Get (β : Type) where
  pc : GetPc β
  /-- The first read has found no backend. -/
  early : Bool

inductive Get.Step (g : Global β) : Get β → Get β → Prop
  | found {early b} : g.storage = some b →
      Get.Step g ⟨.reading, early⟩ ⟨.returned (some b), early⟩
  | missing {early} : g.storage = none → Get.Step g ⟨.reading, early⟩ ⟨.waiting, true⟩
  /-- The ticker of `wait`, which logs a warning. -/
  | tick {early} : Get.Step g ⟨.waiting, early⟩ ⟨.waiting, early⟩
  | ready {early} : g.closes ≠ 0 → Get.Step g ⟨.waiting, early⟩ ⟨.rereading, early⟩
  | readAgain {early} : Get.Step g ⟨.rereading, early⟩ ⟨readAgain g.storage, early⟩

/-! ## The system -/

structure State (β : Type) extends Global β where
  gets : List (Get β)
  sets : List (SetPc β)
  /-- The backends that have been set so far, the last one first. -/
  given : List β

def start (β : Type) : State β := ⟨⟨none, 0⟩, [], [], []⟩

inductive Event (β : Type)
  | getGlobal
  | setGlobal (st : Option β)
  /-- The first read of a call of `GetGlobal`. -/
  | firstRead
  /-- Another step of a call. -/
  | call

/-- What the next step of a call is. -/
def GetPc.event : GetPc β → Event β
  | .reading => .firstRead
  | _ => .call

/-- The backends after a call of `SetGlobal` has ended so. -/
def noted (given : List β) (st : Option β) : SetPc β → List β
  | .returned => st.toList ++ given
  | _ => given

inductive Step : State β → Event β → State β → Prop
  | getGlobal {s} : Step s .getGlobal { s with gets := ⟨.reading, false⟩ :: s.gets }
  | setGlobal {s} (st) : Step s (.setGlobal st) { s with sets := .setting st :: s.sets }
  | get {s before c after c'} : s.gets = before ++ c :: after → Get.Step s.toGlobal c c' →
      Step s c.pc.event { s with gets := before ++ c' :: after }
  | set {s before st after} : s.sets = before ++ .setting st :: after →
      Step s .call ⟨(s.toGlobal.setGlobal st).1, s.gets,
        before ++ (s.toGlobal.setGlobal st).2 :: after,
        noted s.given st (s.toGlobal.setGlobal st).2⟩

/-- `SetGlobal` is not called with `nil`. -/
def NonNil (_ : State β) (e : Event β) : Prop := e ≠ .setGlobal none

/-- `GetGlobal` makes its first read after the first `SetGlobal` has stored its backend. -/
def InTime (s : State β) (e : Event β) : Prop :=
  NonNil s e ∧ (e = .firstRead → s.storage ≠ none)

/-! ## What holds in every run -/

/-- What a call of `GetGlobal` has come to. -/
def Get.Sound (given : List β) (c : Get β) : Prop :=
  match c.pc with
  | .reading => c.early = false
  | .waiting => c.early = true
  | .rereading => c.early = true ∧ given ≠ []
  | .returned st => c.early = false ∧ ∃ b ∈ given, st = some b
  | .panicked => c.early = true

structure Sound (s : State β) : Prop where
  storage_eq : s.storage = s.given.head?
  closes_eq : s.closes = if s.given = [] then 0 else 1
  sets : ∀ c ∈ s.sets, c = .returned ∨ ∃ b, c = .setting (some b)
  gets : ∀ c ∈ s.gets, c.Sound s.given

theorem Get.Sound.mono {given : List β} {c : Get β} (h : c.Sound given) (b : β) :
    c.Sound (b :: given) := by
  obtain ⟨pc, early⟩ := c
  cases pc with
  | reading => exact h
  | waiting => exact h
  | rereading => exact ⟨h.1, List.cons_ne_nil _ _⟩
  | returned st =>
      obtain ⟨hearly, b', hb', rfl⟩ := h
      exact ⟨hearly, b', List.mem_cons_of_mem _ hb', rfl⟩
  | panicked => exact h

/-- A second read finds a backend, so it ends in the panic. -/
theorem Get.Step.sound {g : Global β} {given : List β} {c c' : Get β} (h : Get.Step g c c')
    (hstorage : g.storage = given.head?) (hcloses : g.closes = if given = [] then 0 else 1)
    (hc : c.Sound given) : c'.Sound given := by
  cases h with
  | found hb =>
      refine ⟨hc, _, ?_, rfl⟩
      exact List.mem_of_mem_head? (hstorage.symm.trans hb)
  | missing _ => rfl
  | tick => exact hc
  | ready hready =>
      refine ⟨hc, ?_⟩
      rintro rfl
      exact hready hcloses
  | readAgain =>
      obtain ⟨hearly, hgiven⟩ := hc
      obtain ⟨b, rest, rfl⟩ := List.exists_cons_of_ne_nil hgiven
      rw [hstorage]
      exact hearly

/-- `SetGlobal` of a backend sets it, and the channel is closed by the first one. -/
theorem Sound.setGlobal {s : State β} (h : Sound s) (b : β) :
    s.toGlobal.setGlobal (some b) = (⟨some b, 1⟩, .returned) := by
  have hstorage := h.storage_eq
  have hcloses := h.closes_eq
  cases hgiven : s.given with
  | nil =>
      rw [hgiven] at hstorage hcloses
      simp only [Global.setGlobal, hstorage, hcloses, List.head?_nil, if_true]
  | cons b' rest =>
      rw [hgiven] at hstorage hcloses
      simp only [Global.setGlobal, hstorage, hcloses, List.head?_cons, reduceCtorEq, if_false]

theorem sound_start (β : Type) : Sound (start β) where
  storage_eq := rfl
  closes_eq := rfl
  sets _ h := nomatch h
  gets _ h := nomatch h

theorem Step.sound {s s' : State β} {e : Event β} (h : Step s e s') (he : NonNil s e)
    (hs : Sound s) : Sound s' := by
  cases h with
  | getGlobal =>
      refine ⟨hs.storage_eq, hs.closes_eq, hs.sets, ?_⟩
      exact List.forall_mem_cons.mpr ⟨rfl, hs.gets⟩
  | setGlobal st =>
      refine ⟨hs.storage_eq, hs.closes_eq, List.forall_mem_cons.mpr ⟨?_, hs.sets⟩, hs.gets⟩
      cases st with
      | none => exact absurd rfl he
      | some b => exact Or.inr ⟨b, rfl⟩
  | get hgets hc =>
      refine ⟨hs.storage_eq, hs.closes_eq, hs.sets, ?_⟩
      have hall := hs.gets
      rw [hgets, List.forall_mem_append, List.forall_mem_cons] at hall
      obtain ⟨hbefore, hcall, hafter⟩ := hall
      have hcall' := hc.sound hs.storage_eq hs.closes_eq hcall
      exact List.forall_mem_append.mpr ⟨hbefore, List.forall_mem_cons.mpr ⟨hcall', hafter⟩⟩
  | @set before st after hsets =>
      have hall := hs.sets
      rw [hsets, List.forall_mem_append, List.forall_mem_cons] at hall
      obtain ⟨hbefore, hcall, hafter⟩ := hall
      obtain ⟨b, rfl⟩ : ∃ b, st = some b := by
        rcases hcall with hcall | ⟨b, hcall⟩
        · cases hcall
        · cases hcall
          exact ⟨b, rfl⟩
      rw [hs.setGlobal b]
      refine ⟨rfl, rfl, ?_, fun c hc => (hs.gets c hc).mono b⟩
      exact List.forall_mem_append.mpr ⟨hbefore, List.forall_mem_cons.mpr ⟨Or.inl rfl, hafter⟩⟩

theorem sound_of_run {s : State β} (h : RunsUnder Step NonNil (start β) s) : Sound s :=
  h.invariant Step.sound (sound_start β)

/-! ## Readers that come too early -/

/-- No reader has found no backend. -/
def Prompt (s : State β) : Prop := ∀ c ∈ s.gets, c.early = false

theorem Get.Step.early_eq {g : Global β} {c c' : Get β} (h : Get.Step g c c') :
    c'.early = c.early ∨ c.pc = .reading ∧ g.storage = none := by
  cases h with
  | missing hnone => exact Or.inr ⟨rfl, hnone⟩
  | _ => exact Or.inl rfl

theorem prompt_append {s : State β} {before after : List (Get β)} {c : Get β}
    (h : s.gets = before ++ c :: after) :
    Prompt s ↔ (∀ c ∈ before, c.early = false) ∧ c.early = false ∧
      ∀ c ∈ after, c.early = false := by
  rw [Prompt, h, List.forall_mem_append, List.forall_mem_cons]

/-- In time, nobody finds no backend. -/
theorem Step.prompt {s s' : State β} {e : Event β} (h : Step s e s') (he : InTime s e)
    (hs : Prompt s) : Prompt s' := by
  cases h with
  | getGlobal => exact List.forall_mem_cons.mpr ⟨rfl, hs⟩
  | setGlobal st => exact hs
  | @get before c after c' hgets hc =>
      obtain ⟨hbefore, hearly, hafter⟩ := (prompt_append hgets).mp hs
      refine (prompt_append rfl).mpr ⟨hbefore, ?_, hafter⟩
      rcases hc.early_eq with hsame | ⟨hreading, hnone⟩
      · rw [hsame, hearly]
      · exact absurd hnone (he.2 (by rw [hreading]; rfl))
  | set hsets => exact hs

/-- A reader that has found no backend is remembered, so the step before was in time as well. -/
theorem Step.prompt_before {s s' : State β} {e : Event β} (h : Step s e s') (hs : Prompt s') :
    Prompt s ∧ (e = .firstRead → s.storage ≠ none) := by
  cases h with
  | getGlobal => exact ⟨(List.forall_mem_cons.mp hs).2, nofun⟩
  | setGlobal st => exact ⟨hs, nofun⟩
  | @get before c after c' hgets hc =>
      obtain ⟨hbefore, hearly', hafter⟩ := (prompt_append rfl).mp hs
      cases hc with
      | found hb =>
          refine ⟨(prompt_append hgets).mpr ⟨hbefore, hearly', hafter⟩, fun _ => ?_⟩
          rw [hb]
          exact Option.some_ne_none _
      | missing hnone => cases hearly'
      | tick => exact ⟨(prompt_append hgets).mpr ⟨hbefore, hearly', hafter⟩, nofun⟩
      | ready hready => exact ⟨(prompt_append hgets).mpr ⟨hbefore, hearly', hafter⟩, nofun⟩
      | readAgain => exact ⟨(prompt_append hgets).mpr ⟨hbefore, hearly', hafter⟩, nofun⟩
  | set hsets => exact ⟨hs, nofun⟩

/-- The runs in time are those in which nobody has found no backend. -/
theorem runs_inTime_iff {s : State β} (h : RunsUnder Step NonNil (start β) s) :
    RunsUnder Step InTime (start β) s ↔ Prompt s := by
  constructor
  · intro hr
    exact hr.invariant Step.prompt nofun
  · intro hs
    induction h with
    | refl => exact RunsUnder.refl _
    | tail _ hstep ih =>
        obtain ⟨e, he, hnil⟩ := hstep
        obtain ⟨hbefore, hread⟩ := he.prompt_before hs
        exact (ih hbefore).snoc he ⟨hnil, hread⟩

/-- A call of `GetGlobal` that found no backend at first waits, is about to read
again, or has panicked. It does not return. -/
theorem Get.Sound.early_iff {given : List β} {c : Get β} (h : c.Sound given) :
    c.early = true ↔ c.pc = .waiting ∨ c.pc = .rereading ∨ c.pc = .panicked := by
  obtain ⟨pc, early⟩ := c
  cases pc with
  | reading =>
      have hearly : early = false := h
      simp [hearly]
  | waiting => exact iff_of_true h (Or.inl rfl)
  | rereading => exact iff_of_true h.1 (Or.inr (Or.inl rfl))
  | returned st => simpa using h.1
  | panicked => exact iff_of_true h (Or.inr (Or.inr rfl))

/-! ### How an early reader ends -/

section Ends

variable {s : State β} {before after : List (Get β)} {early : Bool}

/-- Some call of `GetGlobal` panics if the run goes on so. -/
def MayPanic (s : State β) : Prop :=
  ∃ s', RunsUnder Step InTime s s' ∧ ∃ c ∈ s'.gets, c.pc = .panicked

theorem mayPanic_of_step {e : Event β} {s' : State β} (hstep : Step s e s') (he : InTime s e)
    (h : MayPanic s') : MayPanic s := by
  obtain ⟨s'', hr, hpanic⟩ := h
  exact ⟨s'', ((RunsUnder.refl s).snoc hstep he).trans hr, hpanic⟩

theorem mayPanic_of_rereading {b : β} (hstorage : s.storage = some b)
    (hgets : s.gets = before ++ ⟨.rereading, early⟩ :: after) : MayPanic s := by
  have hstep := Step.get hgets (Get.Step.readAgain (g := s.toGlobal))
  rw [hstorage] at hstep
  refine ⟨_, (RunsUnder.refl s).snoc hstep ⟨nofun, nofun⟩, ⟨.panicked, early⟩, ?_, rfl⟩
  exact List.mem_append_right _ List.mem_cons_self

theorem mayPanic_of_ready {b : β} (hstorage : s.storage = some b) (hready : s.closes ≠ 0)
    (hgets : s.gets = before ++ ⟨.waiting, early⟩ :: after) : MayPanic s := by
  refine mayPanic_of_step (Step.get hgets (Get.Step.ready hready)) ⟨nofun, nofun⟩ ?_
  exact mayPanic_of_rereading hstorage rfl

/-- `SetGlobal` wakes the reader up. -/
theorem mayPanic_of_waiting (hs : Sound s) (b : β)
    (hgets : s.gets = before ++ ⟨.waiting, early⟩ :: after) : MayPanic s := by
  have hset := @Step.set β { s with sets := .setting (some b) :: s.sets } [] (some b) s.sets rfl
  rw [show Global.setGlobal s.toGlobal (some b) = (⟨some b, 1⟩, .returned) from hs.setGlobal b]
    at hset
  refine mayPanic_of_step (Step.setGlobal (some b)) ⟨nofun, nofun⟩ ?_
  refine mayPanic_of_step hset ⟨nofun, nofun⟩ ?_
  exact mayPanic_of_ready rfl one_ne_zero hgets

theorem mayPanic_of_early (hs : Sound s) (b : β) {c : Get β} (hc : c ∈ s.gets)
    (hearly : c.early = true) : MayPanic s := by
  obtain ⟨before, after, hgets⟩ := List.append_of_mem hc
  have hsound := hs.gets c hc
  obtain ⟨pc, early⟩ := c
  rcases hsound.early_iff.mp hearly with rfl | rfl | rfl
  · exact mayPanic_of_waiting hs b hgets
  · obtain ⟨b', rest, hgiven⟩ := List.exists_cons_of_ne_nil hsound.2
    exact mayPanic_of_rereading (hs.storage_eq.trans (by rw [hgiven]; rfl)) hgets
  · exact ⟨s, RunsUnder.refl s, _, hc, rfl⟩

end Ends

/-! ## Calls in any order -/

/-- **Only a reader that comes too early panics.** A run was in time just if no call can
panic as it goes on in time. A `GetGlobal` whose first read found no backend waits, is
about to read again or has panicked, so it never returns. In every run the channel
is closed by the first `SetGlobal` and never again, no `SetGlobal` panics, and what a
`GetGlobal` returns has been set before. -/
theorem global_storage_safe_iff [Nonempty β] {s : State β}
    (h : RunsUnder Step NonNil (start β) s) :
    (RunsUnder Step InTime (start β) s ↔
      ∀ s', RunsUnder Step InTime s s' → ∀ c ∈ s'.gets, c.pc ≠ .panicked) ∧
    (∀ c ∈ s.gets, c.early = true ↔ c.pc = .waiting ∨ c.pc = .rereading ∨ c.pc = .panicked) ∧
    (∀ c ∈ s.sets, c ≠ .panicked) ∧
    s.closes = (if s.given = [] then 0 else 1) ∧
    ∀ c ∈ s.gets, ∀ st, c.pc = .returned st → ∃ b ∈ s.given, st = some b := by
  have hs := sound_of_run h
  refine ⟨⟨fun hr s' hr' c hc hpanic => ?_, fun hsafe => ?_⟩,
    fun c hc => (hs.gets c hc).early_iff, fun c hc => ?_, hs.closes_eq, ?_⟩
  · have hrun' := (hr.trans hr').mono fun _ _ he => he.1
    have hearly := ((sound_of_run hrun').gets c hc).early_iff.mpr (Or.inr (Or.inr hpanic))
    rw [(runs_inTime_iff hrun').mp (hr.trans hr') c hc] at hearly
    cases hearly
  · rw [runs_inTime_iff h]
    intro c hc
    by_contra hearly
    obtain ⟨b⟩ := ‹Nonempty β›
    obtain ⟨s', hr', c', hc', hpanic⟩ := mayPanic_of_early hs b hc (by simpa using hearly)
    exact hsafe s' hr' c' hc' hpanic
  · rcases hs.sets c hc with rfl | ⟨b, rfl⟩ <;> exact nofun
  · rintro ⟨pc, early⟩ hc st rfl
    exact (hs.gets _ hc).2

/-- A reader that comes in time. -/
theorem global_storage_safe_iff_late : ∃ s : State Unit, RunsUnder Step InTime (start Unit) s ∧
    s.gets = [⟨.returned (some ()), false⟩] ∧ (∀ c ∈ s.gets, c.pc ≠ .panicked) ∧
    s.closes = 1 := by
  have h₁ := (RunsUnder.refl (start Unit)).snoc (P := InTime) (Step.setGlobal (some ()))
    ⟨nofun, nofun⟩
  have h₂ := h₁.snoc (@Step.set Unit _ [] _ [] rfl) ⟨nofun, nofun⟩
  have h₃ := h₂.snoc Step.getGlobal ⟨nofun, nofun⟩
  have h₄ := h₃.snoc (@Step.get Unit _ [] _ [] _ rfl (.found rfl)) ⟨nofun, fun _ => nofun⟩
  obtain ⟨hsafe, -, -, hcloses, -⟩ := global_storage_safe_iff (h₄.mono fun _ _ he => he.1)
  exact ⟨_, h₄, rfl, hsafe.mp h₄ _ (RunsUnder.refl _), hcloses⟩

/-- A reader that comes before `SetGlobal` panics because it finds the backend. -/
theorem early_reader_panics : ∃ s : State Unit, RunsUnder Step NonNil (start Unit) s ∧
    s.storage = some () ∧ s.sets = [.returned] ∧ s.gets = [⟨.panicked, true⟩] := by
  have h₁ := (RunsUnder.refl (start Unit)).snoc (P := NonNil) Step.getGlobal nofun
  have h₂ := h₁.snoc (@Step.get Unit _ [] _ [] _ rfl (.missing rfl)) nofun
  have h₃ := h₂.snoc (Step.setGlobal (some ())) nofun
  have h₄ := h₃.snoc (@Step.set Unit _ [] _ [] rfl) nofun
  have h₅ := h₄.snoc (@Step.get Unit _ [] _ [] _ rfl (.ready nofun)) nofun
  have h₆ := h₅.snoc (@Step.get Unit _ [] _ [] _ rfl .readAgain) nofun
  exact ⟨_, h₆, rfl, rfl, rfl⟩

end LightningStream.Storage
