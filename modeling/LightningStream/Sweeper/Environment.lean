import LightningStream.Base.Runs
import LightningStream.Lmdb.Environment
import LightningStream.Sweeper.Chunks
import LightningStream.Syncer.Native

/-!
# A sweep of an environment

`sweep` lists the DBIs and goes through them in turn, with the chunks of one DBI
as in `Sweeper.State`. If the schema does not track changes, the values of the
application have no headers, and only the DBIs of the syncer are swept. The
application may commit whatever it likes between two transactions of the sweep,
from the listing on. It may also drop a DBI that is still to be swept, and opening
it then fails.

The counters of the sweep are variables of the process. A transaction that fails
does not take back what it counted.
-/

namespace LightningStream.Sweeper

open Lmdb Snapshot

/-! ## Counting -/

/-- `stats`, without the time taken. -/
@[ext] structure Stats where
  nEntries : ℕ
  nDeleted : ℕ
  nCleaned : ℕ
  nTxn : ℕ
deriving DecidableEq

namespace Stats

def zero : Stats := ⟨0, 0, 0, 0⟩

/-- The counters that the body of the scan loop raises for a value. -/
def count (cutoffTS : Timestamp) (st : Stats) (val : Bytes) : Stats :=
  match Header.parse val with
  | .error _ => st
  | .ok (h, _) =>
      if !Header.isDeleted h.flags then { st with nEntries := st.nEntries + 1 }
      else if cutoffTS ≤ h.timestamp then
        { st with nEntries := st.nEntries + 1, nDeleted := st.nDeleted + 1 }
      else { st with nCleaned := st.nCleaned + 1 }

def countTxn (st : Stats) : Stats := { st with nTxn := st.nTxn + 1 }

end Stats

/-- The entry that the next round of a chunk looks at. -/
def scanned (clock : ℕ → Bool) (c : Chunk) : Option (Bytes × Bytes) :=
  match c.ls.scan clock c.txn.dbi with
  | (false, _) => none
  | (true, ls) => ls.cursor

/-- The loop of `sweepChunk` with its counters, which outlive an error. -/
def countedRounds (cutoffTS : Timestamp) (clock : ℕ → Bool) :
    ℕ → Chunk → Stats → Stats × Except (Fault SweepErr) Chunk
  | 0, _, st => (st, .error .stuck)
  | fuel + 1, c, st =>
      let st := (scanned clock c).elim st fun e => st.count cutoffTS e.2
      match chunkRound cutoffTS clock c with
      | .error e => (st, .error e)
      | .ok (.inl c') => countedRounds cutoffTS clock fuel c' st
      | .ok (.inr c') => (st, .ok c')

def countedChunk (cutoffTS : Timestamp) (clock : ℕ → Bool) (opt : ScanOptions) (d : Dbi)
    (st : Stats) : Stats × Except (Fault SweepErr) Chunk :=
  countedRounds cutoffTS clock (d.keys.length + 2) ⟨.start d, newLimitScanner opt⟩ st

theorem countedRounds_snd (cutoffTS : Timestamp) (clock : ℕ → Bool) (fuel : ℕ) (c : Chunk)
    (st : Stats) :
    (countedRounds cutoffTS clock fuel c st).2 = runRounds (chunkRound cutoffTS clock) fuel c := by
  induction fuel generalizing c st with
  | zero => rfl
  | succ fuel ih =>
      unfold countedRounds
      cases hr : chunkRound cutoffTS clock c with
      | error e => rw [runRounds_error hr]
      | ok r =>
          cases r with
          | inl c' => rw [runRounds_next hr]; exact ih c' _
          | inr c' => rw [runRounds_done hr]

/-- Counting changes nothing about a chunk. -/
theorem countedChunk_snd (cutoffTS : Timestamp) (clock : ℕ → Bool) (opt : ScanOptions) (d : Dbi)
    (st : Stats) :
    (countedChunk cutoffTS clock opt d st).2 = sweepChunk cutoffTS clock opt d :=
  countedRounds_snd _ _ _ _ _

/-! ## The sweep -/

def syncDBIPrefix : Bytes := ascii "_sync"

/-- The DBIs that the loop does not pass over. -/
def sweeps (schemaTracksChanges : Bool) (dbiName : Bytes) : Bool :=
  schemaTracksChanges || decide (syncDBIPrefix <+: dbiName)

/-- A sweep on its way. The first of the DBIs in `todo` is the one in progress, and
`last` and `limitReached` are about it. -/
structure Sweep where
  contents : Contents
  todo : List Bytes
  last : Option (Bytes × Bytes)
  limitReached : Bool
  outcome : Outcome
  stats : Stats
deriving DecidableEq

inductive SweepEvent
  /-- The application commits, and leaves these DBIs. -/
  | commit (c : Contents)
  | chunk (clock : ℕ → Bool) (fault : Option TxnFault)
  /-- The context is closed during a pause. -/
  | cancel

namespace Sweep

/-- Go on to the DBIs `todo`. -/
def enter (c : Contents) (todo : List Bytes) (st : Stats) : Sweep where
  contents := c
  todo := todo
  last := none
  limitReached := false
  outcome := if todo = [] then .done else .running
  stats := st

def start (schemaTracksChanges : Bool) (c : Contents) : Sweep :=
  enter c (c.names.filter (sweeps schemaTracksChanges)) .zero

/-- The sweep as one of the DBI in progress. -/
def current (s : Sweep) (d : Dbi) : State := ⟨d, s.last, s.limitReached, s.outcome⟩

/-- The DBI `n` is as far as `r` after a chunk. -/
def proceed (s : Sweep) (n : Bytes) (rest : List Bytes) (r : State) (st : Stats)
    (h : 1 ≤ n.length ∧ n.length ≤ maxKeySize) : Sweep :=
  let c := s.contents.set n r.dbi h
  if r.outcome = .done then enter c rest st
  else { s with
    contents := c
    last := r.last
    limitReached := r.limitReached
    outcome := r.outcome
    stats := st }

/-- One turn of the inner loop. -/
def chunk (conf : Conf) (clock : ℕ → Bool) (fault : Option TxnFault) (s : Sweep) : Sweep :=
  match s.todo with
  | [] => s
  | n :: rest =>
      let st := s.stats.countTxn
      match h : s.contents.get n with
      | none =>
          -- `OpenDBI` fails
          { s with
            outcome := if s.limitReached then s.outcome else .failed (.txn .early)
            stats := st }
      | some d =>
          s.proceed n rest ((s.current d).chunk conf clock fault)
            (countedChunk conf.cutoffTS clock ((s.current d).options conf) d st).1
            (Contents.named_of_get h)

def step (conf : Conf) (s : Sweep) (e : SweepEvent) : Sweep :=
  match e with
  | .commit c => { s with contents := c }
  | .chunk clock fault => if s.outcome = .running then s.chunk conf clock fault else s
  | .cancel =>
      if s.outcome = .running ∧ s.limitReached = true then
        { s with outcome := .failed .cancelled }
      else s

/-- The runs of a sweep that meet a condition at every step. -/
def Runs (conf : Conf) (P : Sweep → SweepEvent → Prop) : Sweep → Sweep → Prop :=
  RunsUnder (fun s e s' => s.step conf e = s') P

end Sweep

/-- The value of a key in a DBI. -/
def valueAt (c : Contents) (n j : Bytes) : Option Bytes := (c.get n).bind fun d => d.get j

def flagsOf (c : Contents) (n : Bytes) : Option KeyFlags := (c.get n).map fun d => d.flags

/-! ## What a sweep should do -/

/-- The application does not drop the DBI `n` and does not change the entry `j` in it. -/
def SweepEvent.LeavesAlone (n j : Bytes) (s : Sweep) (e : SweepEvent) : Prop :=
  ∀ c, e = .commit c →
    flagsOf c n = flagsOf s.contents n ∧ valueAt c n j = valueAt s.contents n j

/-- A chunk that reaches its limit does not fail in its commit. -/
def SweepEvent.CommitsLimited (conf : Conf) (s : Sweep) (e : SweepEvent) : Prop :=
  ∀ clock fault, e = .chunk clock fault → ∀ n rest d, s.todo = n :: rest →
    s.contents.get n = some d →
    Sweeper.CommitsLimited conf (s.current d) (.chunk clock fault)

/-- What becomes of the environment in a step of the sweeper: DBIs stay with their flags, and
entries change only in that stale markers go, from DBIs that are to be swept. -/
structure OnlyRemoves (conf : Conf) (schemaTracksChanges : Bool) (c c' : Contents) : Prop where
  flags : ∀ n, flagsOf c' n = flagsOf c n
  entries : ∀ n j, valueAt c' n j = valueAt c n j ∨
    valueAt c' n j = none ∧ Stale conf.cutoffTS (valueAt c n j) ∧
      (schemaTracksChanges = true ∨ Syncer.isPrivate n = true)

/-- A sweep from `c` removes exactly the stale markers. -/
structure ExactlyStale (conf : Conf) (schemaTracksChanges : Bool) (c : Contents) : Prop where
  removes : ∀ s clock fault, Sweep.Runs conf (fun _ _ => True) (.start schemaTracksChanges c) s →
    OnlyRemoves conf schemaTracksChanges s.contents
      (s.step conf (.chunk clock fault)).contents
  /-- At the end none is left that was there at the start and that the application left
  alone. -/
  gone : ∀ s n j, sweeps schemaTracksChanges n = true → Stale conf.cutoffTS (valueAt c n j) →
    Sweep.Runs conf (fun s e => e.CommitsLimited conf s ∧ e.LeavesAlone n j s)
      (.start schemaTracksChanges c) s →
    s.outcome = .done → valueAt s.contents n j = none
  /-- The DBIs behind the one in progress are not touched. -/
  waiting : ∀ s n j, Sweep.Runs conf (fun s e => e.LeavesAlone n j s)
      (.start schemaTracksChanges c) s →
    n ∈ s.todo.tail → valueAt s.contents n j = valueAt c n j

/-! ## The steps -/

section Steps

variable {conf : Conf} {s : Sweep} {clock : ℕ → Bool} {fault : Option TxnFault}
  {n m j : Bytes} {rest : List Bytes} {d : Dbi} {r : State} {st : Stats} {c : Contents}

theorem sweeps_eq_true {b : Bool} :
    sweeps b n = true ↔ b = true ∨ Syncer.isPrivate n = true := by
  unfold sweeps
  rw [Bool.or_eq_true]
  rfl

theorem valueAt_of_get (h : c.get n = some d) : valueAt c n j = d.get j := by
  rw [valueAt, h, Option.bind_some]

theorem flagsOf_of_get (h : c.get n = some d) : flagsOf c n = some d.flags := by
  rw [flagsOf, h, Option.map_some]

/-- A chunk of a DBI changes it only in that stale markers go. -/
theorem chunk_dbi (conf : Conf) (clock : ℕ → Bool) (fault : Option TxnFault) (r : State) :
    (r.chunk conf clock fault).dbi.flags = r.dbi.flags ∧
      ∀ j, (r.chunk conf clock fault).dbi.get j = r.dbi.get j ∨
        (r.chunk conf clock fault).dbi.get j = none ∧ Stale conf.cutoffTS (r.dbi.get j) := by
  rcases chunk_cases conf clock fault r with ⟨err, h⟩ | ⟨c, hc, ⟨-, h⟩ | ⟨-, h⟩⟩
  · rw [h, afterUpdate_dbi]
    exact ⟨rfl, fun _ => Or.inl rfl⟩
  · rw [h, afterUpdate_dbi]
    have hswept := sweepChunk_swept hc
    exact ⟨hswept.flags, hswept.kept⟩
  · rw [h, afterUpdate_dbi]
    exact ⟨rfl, fun _ => Or.inl rfl⟩

namespace Sweep

@[simp] theorem start_contents (b : Bool) (c : Contents) : (start b c).contents = c := rfl

@[simp] theorem proceed_contents (h) : (s.proceed n rest r st h).contents.get m =
    if m = n then some r.dbi else s.contents.get m := by
  unfold proceed
  dsimp only
  split <;> exact Contents.get_set h

theorem proceed_todo (h) : (s.proceed n rest r st h).todo =
    if r.outcome = .done then rest else s.todo := by
  unfold proceed
  dsimp only
  split <;> rfl

theorem proceed_of_done (h) (hdone : r.outcome = .done) :
    s.proceed n rest r st h = enter (s.proceed n rest r st h).contents rest st := by
  unfold proceed
  dsimp only
  rw [if_pos hdone]
  rfl

theorem proceed_of_going (h) (hgo : r.outcome ≠ .done) :
    s.proceed n rest r st h = { s with
      contents := (s.proceed n rest r st h).contents
      last := r.last
      limitReached := r.limitReached
      outcome := r.outcome
      stats := st } := by
  unfold proceed
  dsimp only
  rw [if_neg hgo]

/-- Everything a turn of the inner loop can do. -/
theorem chunk_cases (conf : Conf) (clock : ℕ → Bool) (fault : Option TxnFault) (s : Sweep) :
    (s.todo = [] ∧ s.chunk conf clock fault = s) ∨
    (∃ n rest, s.todo = n :: rest ∧ s.contents.get n = none ∧
      s.chunk conf clock fault = { s with
        outcome := if s.limitReached then s.outcome else .failed (.txn .early)
        stats := s.stats.countTxn }) ∨
    ∃ n rest d h, s.todo = n :: rest ∧ s.contents.get n = some d ∧
      s.chunk conf clock fault = s.proceed n rest ((s.current d).chunk conf clock fault)
        (countedChunk conf.cutoffTS clock ((s.current d).options conf) d s.stats.countTxn).1 h := by
  unfold chunk
  split
  · rename_i htodo
    exact Or.inl ⟨htodo, rfl⟩
  · rename_i n rest htodo
    right
    dsimp only
    split
    · rename_i hget
      exact Or.inl ⟨n, rest, htodo, hget, rfl⟩
    · rename_i d hget
      exact Or.inr ⟨n, rest, d, Contents.named_of_get hget, htodo, hget, rfl⟩

theorem step_chunk_running (hrun : s.outcome = .running) :
    s.step conf (.chunk clock fault) = s.chunk conf clock fault := if_pos hrun

/-- A step leaves the list of DBIs, or takes off the one in progress. -/
theorem step_todo (conf : Conf) (s : Sweep) (e : SweepEvent) :
    (s.step conf e).todo <:+ s.todo := by
  cases e with
  | commit c => exact List.suffix_refl _
  | cancel =>
      unfold step
      dsimp only
      split <;> exact List.suffix_refl _
  | chunk clock fault =>
      unfold step
      dsimp only
      split
      · rcases chunk_cases conf clock fault s with
          ⟨-, h⟩ | ⟨n, rest, -, -, h⟩ | ⟨n, rest, d, hn, htodo, -, h⟩
        · rw [h]
        · rw [h]
        · rw [h, proceed_todo, htodo]
          split
          · exact List.suffix_cons n rest
          · exact List.suffix_refl _
      · exact List.suffix_refl _

/-- The DBIs of a sweep on its way. -/
structure Listed (b : Bool) (s : Sweep) : Prop where
  swept : ∀ n ∈ s.todo, sweeps b n = true
  nodup : s.todo.Nodup
  done : s.outcome = .done → s.todo = []

theorem listed_start (b : Bool) (c : Contents) : Listed b (start b c) where
  swept := fun _ hn => (List.mem_filter.mp hn).2
  nodup := (c.map.keys_sorted.imp fun h => ne_of_lt h).filter _
  done := by
    intro h
    by_contra hne
    have hrun : (start b c).outcome = .running := if_neg hne
    rw [hrun] at h
    cases h

theorem done_of_step (conf : Conf) (s : Sweep) (e : SweepEvent)
    (hs : s.outcome = .done → s.todo = []) (h : (s.step conf e).outcome = .done) :
    (s.step conf e).todo = [] := by
  cases e with
  | commit c => exact hs h
  | cancel =>
      unfold step at h ⊢
      dsimp only at h ⊢
      split at h
      · cases h
      · rename_i hno
        rw [if_neg hno]
        exact hs h
  | chunk clock fault =>
      unfold step at h ⊢
      dsimp only at h ⊢
      split at h
      · rename_i hrun
        rw [if_pos hrun]
        rcases chunk_cases conf clock fault s with
          ⟨htodo, heq⟩ | ⟨n, rest, -, -, heq⟩ | ⟨n, rest, d, hn, -, -, heq⟩
        · rw [heq]
          exact htodo
        · rw [heq] at h
          dsimp only at h
          rw [hrun] at h
          split at h <;> cases h
        · rw [heq] at h ⊢
          by_cases hdone : ((s.current d).chunk conf clock fault).outcome = .done
          · rw [proceed_of_done hn hdone] at h ⊢
            by_contra hne
            rw [show (enter _ rest _).outcome = .running from if_neg hne] at h
            cases h
          · rw [proceed_of_going hn hdone] at h
            exact absurd h hdone
      · rename_i hstop
        rw [if_neg hstop]
        exact hs h

theorem Listed.step {b : Bool} (h : Listed b s) (conf : Conf) (e : SweepEvent) :
    Listed b (s.step conf e) where
  swept := fun n hn => h.swept n ((step_todo conf s e).subset hn)
  nodup := h.nodup.sublist (step_todo conf s e).sublist
  done := done_of_step conf s e h.done

theorem Runs.listed {b : Bool} {P : Sweep → SweepEvent → Prop}
    (h : Runs conf P (start b c) s) : Listed b s := by
  refine RunsUnder.invariant (I := Listed b) ?_ h (listed_start b c)
  rintro s e s' rfl - hs
  exact hs.step conf e

/-- A turn of the loop touches only the DBI in progress, and only its stale markers. -/
theorem chunk_removes {b : Bool} (h : Listed b s) (clock : ℕ → Bool) (fault : Option TxnFault) :
    OnlyRemoves conf b s.contents (s.step conf (.chunk clock fault)).contents := by
  have hsame : ∀ c : Contents, OnlyRemoves conf b c c :=
    fun c => ⟨fun _ => rfl, fun _ _ => Or.inl rfl⟩
  unfold step
  dsimp only
  split
  · rcases chunk_cases conf clock fault s with
      ⟨-, heq⟩ | ⟨n, rest, -, -, heq⟩ | ⟨n, rest, d, hn, htodo, hget, heq⟩
    · rw [heq]
      exact hsame _
    · rw [heq]
      exact hsame _
    · rw [heq]
      obtain ⟨hflags, hkept⟩ := chunk_dbi conf clock fault (s.current d)
      refine ⟨fun m => ?_, fun m j => ?_⟩
      · by_cases hm : m = n
        · subst hm
          rw [flagsOf_of_get hget, flagsOf, proceed_contents, if_pos rfl, Option.map_some, hflags]
          rfl
        · rw [flagsOf, proceed_contents, if_neg hm]
          rfl
      · by_cases hm : m = n
        · subst hm
          have hswept := sweeps_eq_true.mp (h.swept m (by rw [htodo]; exact List.mem_cons_self))
          rw [valueAt_of_get hget, valueAt, proceed_contents, if_pos rfl, Option.bind_some]
          rcases hkept j with hk | ⟨hk, hstale⟩
          · exact Or.inl hk
          · exact Or.inr ⟨hk, hstale, hswept⟩
        · rw [valueAt, proceed_contents, if_neg hm]
          exact Or.inl rfl
  · exact hsame _

/-- The other DBIs are as they were. -/
theorem step_other {e : SweepEvent} (hn : s.todo.head? ≠ some n) (hcommit : ∀ c, e ≠ .commit c) :
    (s.step conf e).contents.get n = s.contents.get n := by
  cases e with
  | commit c => exact absurd rfl (hcommit c)
  | cancel =>
      unfold step
      dsimp only
      split <;> rfl
  | chunk clock fault =>
      unfold step
      dsimp only
      split
      · rcases chunk_cases conf clock fault s with
          ⟨-, h⟩ | ⟨m, rest, -, -, h⟩ | ⟨m, rest, d, hm, htodo, -, h⟩
        · rw [h]
        · rw [h]
        · rw [h, proceed_contents, if_neg]
          rintro rfl
          exact hn (by rw [htodo, List.head?_cons])
      · rfl

/-- What the sweep does not touch, and the application leaves alone, stays. -/
theorem step_value {e : SweepEvent} (hn : s.todo.head? ≠ some n) (halone : e.LeavesAlone n j s) :
    valueAt (s.step conf e).contents n j = valueAt s.contents n j := by
  by_cases hcommit : ∃ c, e = .commit c
  · obtain ⟨c, rfl⟩ := hcommit
    exact (halone c rfl).2
  · unfold valueAt
    rw [step_other hn fun c hc => hcommit ⟨c, hc⟩]

theorem head_ne_of_mem_tail {b : Bool} (h : Listed b s) (hn : n ∈ s.todo.tail) :
    s.todo.head? ≠ some n := by
  cases htodo : s.todo with
  | nil => simp
  | cons m rest =>
      rw [htodo, List.tail_cons] at hn
      rw [List.head?_cons]
      rintro heq
      obtain rfl := Option.some.inj heq
      exact (List.nodup_cons.mp (htodo ▸ h.nodup)).1 hn

theorem mem_tail_of_step {e : SweepEvent} (hn : n ∈ (s.step conf e).todo.tail) :
    n ∈ s.todo.tail := by
  obtain ⟨l, hl⟩ := step_todo conf s e
  rw [← hl]
  cases l with
  | nil => exact hn
  | cons m l => exact List.mem_append_right l (List.mem_of_mem_tail hn)

/-! ## One entry along a run -/

/-- What a run from the DBI `d` keeps of an entry that the application leaves alone. -/
structure Tracked (conf : Conf) (d : Dbi) (n j : Bytes) (s : Sweep) : Prop where
  kept : valueAt s.contents n j = d.get j ∨ valueAt s.contents n j = none
  waiting : n ∈ s.todo.tail → valueAt s.contents n j = d.get j
  current : ∀ rest d', s.todo = n :: rest → s.contents.get n = some d' →
    Progress conf d j (s.current d')
  past : n ∉ s.todo → ¬ Stale conf.cutoffTS (valueAt s.contents n j)

/-- A DBI that is entered has all its entries ahead. -/
theorem progress_enter {todo : List Bytes} {d' : Dbi} (hne : todo ≠ [])
    (hkept : d'.get j = d.get j ∨ d'.get j = none) :
    Progress conf d j ((enter c todo st).current d') where
  kept := hkept
  ahead := by
    intro _ _ last hlast
    cases hlast
  done := by
    intro hdone
    rw [show ((enter c todo st).current d').outcome = .running from if_neg hne] at hdone
    cases hdone

theorem tracked_start {b : Bool} (hget : c.get n = some d) (hn : sweeps b n = true) :
    Tracked conf d n j (start b c) where
  kept := Or.inl (valueAt_of_get hget)
  waiting := fun _ => valueAt_of_get hget
  current := by
    intro rest d' htodo hd'
    have hsame : d' = d := Option.some.inj (hd'.symm.trans hget)
    refine progress_enter (fun hnil => ?_) (Or.inl (by rw [hsame]))
    change c.names.filter (sweeps b) = n :: rest at htodo
    rw [htodo] at hnil
    cases hnil
  past := fun hnot =>
    absurd (List.mem_filter.mpr ⟨Contents.mem_names_iff.mpr ⟨d, hget⟩, hn⟩) hnot

/-- The progress with an entry depends on the order of the DBI and on the entry only. -/
theorem progress_congr {d' d'' : Dbi} (h : Progress conf d j (s.current d'))
    (hflags : d''.flags = d'.flags) (hget : d''.get j = d'.get j) :
    Progress conf d j (s.current d'') where
  kept := by
    show d''.get j = d.get j ∨ d''.get j = none
    rw [hget]
    exact h.kept
  ahead := by
    intro hrun hstale last hlast
    change Stale conf.cutoffTS (d''.get j) at hstale
    rw [hget] at hstale
    have hbefore : d'.before last.1 j := h.ahead hrun hstale last hlast
    show d''.before last.1 j
    unfold Dbi.before at hbefore ⊢
    rwa [hflags]
  done := by
    intro hdone
    show ¬ Stale conf.cutoffTS (d''.get j)
    rw [hget]
    exact h.done hdone

theorem Tracked.commit (h : Tracked conf d n j s)
    (halone : (SweepEvent.commit c).LeavesAlone n j s) :
    Tracked conf d n j (s.step conf (.commit c)) := by
  obtain ⟨hflags, hvalue⟩ := halone c rfl
  refine ⟨?_, fun hn => hvalue.trans (h.waiting hn), fun rest d' htodo hget => ?_, fun hn => ?_⟩
  · show valueAt c n j = d.get j ∨ valueAt c n j = none
    rw [hvalue]
    exact h.kept
  · change c.get n = some d' at hget
    rw [flagsOf_of_get hget] at hflags
    rw [valueAt_of_get hget] at hvalue
    obtain ⟨d'', hget'', hflags⟩ := Option.map_eq_some_iff.mp hflags.symm
    rw [valueAt_of_get hget''] at hvalue
    exact progress_congr (h.current rest d'' htodo hget'') hflags.symm hvalue
  · show ¬ Stale conf.cutoffTS (valueAt c n j)
    rw [hvalue]
    exact h.past hn

/-- A sweep that is stopped keeps what is known. -/
theorem Tracked.stop (h : Tracked conf d n j s) (e : Failure) (st : Stats) :
    Tracked conf d n j { s with outcome := .failed e, stats := st } where
  kept := h.kept
  waiting := h.waiting
  current := by
    intro rest d' htodo hget
    refine ⟨(h.current rest d' htodo hget).kept, ?_, ?_⟩
    · intro hrun
      cases hrun
    · intro hdone
      cases hdone
  past := h.past

theorem Tracked.cancel (h : Tracked conf d n j s) :
    Tracked conf d n j (s.step conf .cancel) := by
  unfold step
  dsimp only
  split
  · exact h.stop .cancelled s.stats
  · exact h

/-- The DBI of the entry has had a chunk. -/
theorem tracked_proceed {b : Bool} (hl : Listed b s)
    (htodo : s.todo = n :: rest) (hr : Progress conf d j r) (hn) :
    Tracked conf d n j (s.proceed n rest r st hn) := by
  have hnot : n ∉ rest := (List.nodup_cons.mp (htodo ▸ hl.nodup)).1
  have hvalue : valueAt (s.proceed n rest r st hn).contents n j = r.dbi.get j := by
    rw [valueAt, proceed_contents, if_pos rfl, Option.bind_some]
  refine ⟨by rw [hvalue]; exact hr.kept, fun htail => ?_, fun rest' d' htodo' hget => ?_,
    fun hpast => ?_⟩
  · rw [proceed_todo, htodo] at htail
    split at htail
    · exact absurd (List.mem_of_mem_tail htail) hnot
    · exact absurd htail hnot
  · rw [proceed_contents, if_pos rfl] at hget
    obtain rfl := Option.some.inj hget
    by_cases hdone : r.outcome = .done
    · rw [proceed_todo, if_pos hdone] at htodo'
      rw [htodo'] at hnot
      exact absurd List.mem_cons_self hnot
    · rw [proceed_of_going hn hdone]
      exact hr
  · rw [hvalue]
    refine hr.done ?_
    by_contra hdone
    refine hpast ?_
    rw [proceed_todo, if_neg hdone, htodo]
    exact List.mem_cons_self

/-- Another DBI has had a chunk. -/
theorem Tracked.proceed_other (h : Tracked conf d n j s) (hne : n ≠ m)
    (htodo : s.todo = m :: rest) (hm) :
    Tracked conf d n j (s.proceed m rest r st hm) := by
  have hget : (s.proceed m rest r st hm).contents.get n = s.contents.get n := by
    rw [proceed_contents, if_neg hne]
  have hvalue : valueAt (s.proceed m rest r st hm).contents n j = valueAt s.contents n j := by
    rw [valueAt, hget, valueAt]
  have hwait : n ∈ rest → valueAt s.contents n j = d.get j := by
    intro hn
    refine h.waiting ?_
    rw [htodo]
    exact hn
  refine ⟨by rw [hvalue]; exact h.kept, fun htail => ?_, fun rest' d' htodo' hd' => ?_,
    fun hpast => ?_⟩
  · rw [hvalue]
    refine hwait ?_
    rw [proceed_todo, htodo] at htail
    split at htail
    · exact List.mem_of_mem_tail htail
    · exact htail
  · rw [hget] at hd'
    by_cases hdone : r.outcome = .done
    · -- it is the next one
      rw [proceed_todo, if_pos hdone] at htodo'
      have hvalue' := hwait (by rw [htodo']; exact List.mem_cons_self)
      rw [valueAt_of_get hd'] at hvalue'
      rw [proceed_of_done hm hdone]
      refine progress_enter ?_ (Or.inl hvalue')
      rw [htodo']
      exact List.cons_ne_nil n rest'
    · rw [proceed_todo, if_neg hdone, htodo] at htodo'
      exact absurd (List.cons.inj htodo').1.symm hne
  · rw [hvalue]
    refine h.past fun hin => hpast ?_
    rw [htodo] at hin
    have hrest : n ∈ rest := (List.mem_cons.mp hin).resolve_left hne
    rw [proceed_todo, htodo]
    split
    · exact hrest
    · exact List.mem_cons_of_mem m hrest

theorem Tracked.chunk {b : Bool} (h : Tracked conf d n j s) (hl : Listed b s)
    (hrun : s.outcome = .running)
    (hok : (SweepEvent.chunk clock fault).CommitsLimited conf s) :
    Tracked conf d n j (s.chunk conf clock fault) := by
  rcases chunk_cases conf clock fault s with
    ⟨-, heq⟩ | ⟨m, rest, -, -, heq⟩ | ⟨m, rest, d', hm, htodo, hget, heq⟩
  · rw [heq]
    exact h
  · rw [heq]
    split
    · exact ⟨h.kept, h.waiting, h.current, h.past⟩
    · exact h.stop _ _
  · rw [heq]
    by_cases hne : n = m
    · subst hne
      refine tracked_proceed hl htodo ?_ hm
      exact (h.current rest d' htodo hget).chunk hrun (hok clock fault rfl n rest d' htodo hget)
    · exact h.proceed_other hne htodo hm

theorem Tracked.step {b : Bool} {e : SweepEvent} (h : Tracked conf d n j s) (hl : Listed b s)
    (hok : e.CommitsLimited conf s) (halone : e.LeavesAlone n j s) :
    Tracked conf d n j (s.step conf e) := by
  cases e with
  | commit c => exact h.commit halone
  | cancel => exact h.cancel
  | chunk clock fault =>
      unfold Sweep.step
      dsimp only
      split
      · rename_i hrun
        exact h.chunk hl hrun hok
      · exact h

theorem Runs.tracked {b : Bool} (hget : c.get n = some d) (hn : sweeps b n = true)
    (h : Runs conf (fun s e => e.CommitsLimited conf s ∧ e.LeavesAlone n j s) (start b c) s) :
    Tracked conf d n j s := by
  have hboth : Listed b s ∧ Tracked conf d n j s := by
    refine RunsUnder.invariant (I := fun s => Listed b s ∧ Tracked conf d n j s) ?_ h
      ⟨listed_start b c, tracked_start hget hn⟩
    rintro s e s' rfl ⟨hok, halone⟩ ⟨hl, ht⟩
    exact ⟨hl.step conf e, ht.step hl hok halone⟩
  exact hboth.2

/-- A DBI that waits for its turn is as the application leaves it. -/
theorem Runs.waiting {b : Bool}
    (h : Runs conf (fun s e => e.LeavesAlone n j s) (start b c) s) :
    n ∈ s.todo.tail → valueAt s.contents n j = valueAt c n j := by
  have hboth : Listed b s ∧ (n ∈ s.todo.tail → valueAt s.contents n j = valueAt c n j) := by
    refine RunsUnder.invariant
      (I := fun s => Listed b s ∧ (n ∈ s.todo.tail → valueAt s.contents n j = valueAt c n j)) ?_ h
      ⟨listed_start b c, fun _ => rfl⟩
    rintro s e s' rfl halone ⟨hl, hs⟩
    refine ⟨hl.step conf e, fun hn => ?_⟩
    have htail := mem_tail_of_step hn
    rw [step_value (head_ne_of_mem_tail hl htail) halone]
    exact hs htail
  exact hboth.2

end Sweep

end Steps

/-- **A sweep of an environment removes exactly the stale markers** of the DBIs it may
sweep, whatever the application commits between its transactions, if no chunk that
reaches its limit fails in its commit. -/
theorem environment_sweep_exact (conf : Conf) (schemaTracksChanges : Bool) (c : Contents) :
    ExactlyStale conf schemaTracksChanges c where
  removes := fun _ clock fault hrun => Sweep.chunk_removes hrun.listed clock fault
  gone := by
    intro s n j hn hstale hrun hdone
    obtain ⟨v, hv, -⟩ := id hstale
    obtain ⟨d, hget, -⟩ := Option.bind_eq_some_iff.mp hv
    have htracked := hrun.tracked hget hn
    have hnot : ¬ Stale conf.cutoffTS (valueAt s.contents n j) :=
      htracked.past (by rw [hrun.listed.done hdone]; exact List.not_mem_nil)
    rcases htracked.kept with hk | hk
    · rw [valueAt_of_get hget, ← hk] at hstale
      exact absurd hstale hnot
    · exact hk
  waiting := fun _ _ _ hrun hn => hrun.waiting hn

end LightningStream.Sweeper
