import LightningStream.Sweeper

/-!
# A sweep of one DBI

The loop of `sweep` over the chunks of one DBI, as a machine. Its variables
`last` and `limitReached` live outside the transactions: a transaction that fails
before it takes the cursor leaves them as the chunk before set them, and one that
fails afterwards, in its commit, leaves them as if it had not failed. The loop
looks at `limitReached` before it looks at the error.
-/

namespace LightningStream.Sweeper

open Lmdb

/-- Where a transaction may fail. -/
inductive TxnFault
  /-- Opening the DBI, or a delete. -/
  | early
  /-- An error of the scanner, or the commit. -/
  | late
deriving DecidableEq

/-- What a sweep may return. -/
inductive Failure
  | chunk (e : Fault SweepErr)
  | txn (fault : TxnFault)
  | cancelled
deriving DecidableEq

inductive Outcome
  | running
  | done
  | failed (e : Failure)
deriving DecidableEq

structure State where
  dbi : Dbi
  last : Option (Bytes × Bytes)
  limitReached : Bool
  outcome : Outcome
deriving DecidableEq

inductive Event
  /-- The application commits, and leaves this DBI. -/
  | commit (d : Dbi)
  | chunk (clock : ℕ → Bool) (fault : Option TxnFault)
  /-- The context is closed during a pause. -/
  | cancel

structure Conf where
  cutoffTS : Timestamp
  lockDuration : ℤ

/-- What follows `env.Update` in the loop. -/
def State.afterUpdate (s : State) (err : Option Failure) : State :=
  if s.limitReached then s
  else { s with outcome := match err with
    | some e => .failed e
    | none => .done }

def State.options (conf : Conf) (s : State) : ScanOptions := sweepOptions conf.lockDuration s.last

/-- One turn of the loop. -/
def State.chunk (conf : Conf) (clock : ℕ → Bool) (fault : Option TxnFault) (s : State) : State :=
  match sweepChunk conf.cutoffTS clock (s.options conf) s.dbi, fault with
  | .ok c, none =>
      { s with dbi := c.txn.dbi, last := c.ls.cursor,
               limitReached := c.ls.limitReached }.afterUpdate none
  | .ok c, some .late =>
      { s with last := c.ls.cursor,
               limitReached := c.ls.limitReached }.afterUpdate (some (.txn .late))
  | .ok _, some .early => s.afterUpdate (some (.txn .early))
  | .error e, _ => s.afterUpdate (some (.chunk e))

def step (conf : Conf) (s : State) (e : Event) : State :=
  if s.outcome = .running then
    match e with
    | .commit d => if d.flags = s.dbi.flags then { s with dbi := d } else s
    | .chunk clock fault => s.chunk conf clock fault
    | .cancel => if s.limitReached then { s with outcome := .failed .cancelled } else s
  else s

def start (d : Dbi) : State := ⟨d, none, false, .running⟩

def run (conf : Conf) (s : State) (es : List Event) : State := es.foldl (step conf) s

/-- A property of every step of a run. -/
def Along (conf : Conf) (P : State → Event → Prop) : State → List Event → Prop
  | _, [] => True
  | s, e :: es => P s e ∧ Along conf P (step conf s e) es

/-- The rule for runs. -/
theorem Along.run {conf : Conf} {P : State → Event → Prop} {I : State → Prop}
    (hstep : ∀ s e, I s → P s e → I (step conf s e)) :
    ∀ {es : List Event} {s : State}, Along conf P s es → I s → I (run conf s es)
  | [], _, _, hs => hs
  | e :: es, s, h, hs =>
      show I (Sweeper.run conf (step conf s e) es) from Along.run hstep h.2 (hstep s e hs h.1)

theorem along_and {conf : Conf} {P Q : State → Event → Prop} :
    ∀ {es : List Event} {s : State}, Along conf P s es → Along conf Q s es →
      Along conf (fun s e => P s e ∧ Q s e) s es
  | [], _, _, _ => trivial
  | _ :: _, _, hP, hQ => ⟨⟨hP.1, hQ.1⟩, along_and hP.2 hQ.2⟩

theorem along_of_forall {conf : Conf} {P : State → Event → Prop} :
    ∀ {es : List Event} (s : State), (∀ e ∈ es, ∀ s, P s e) → Along conf P s es
  | [], _, _ => trivial
  | e :: _, s, h =>
      ⟨h e List.mem_cons_self s, along_of_forall _ fun x hx => h x (List.mem_cons_of_mem _ hx)⟩

/-! ## What a sweep should do -/

def Event.byApp : Event → Prop
  | .commit _ => True
  | _ => False

/-- A step of the sweeper changes an entry only by removing a stale marker. -/
def Removes (conf : Conf) (s : State) (e : Event) : Prop :=
  ¬ e.byApp → ∀ j, (step conf s e).dbi.get j = s.dbi.get j ∨
    (step conf s e).dbi.get j = none ∧ Stale conf.cutoffTS (s.dbi.get j)

/-- The application does not change an entry. -/
def LeavesAlone (conf : Conf) (j : Bytes) (s : State) (e : Event) : Prop :=
  e.byApp → (step conf s e).dbi.get j = s.dbi.get j

structure ExactSweep (conf : Conf) (d : Dbi) (es : List Event) : Prop where
  removes : Along conf (Removes conf) (start d) es
  gone : (run conf (start d) es).outcome = .done → ∀ j, Stale conf.cutoffTS (d.get j) →
    Along conf (LeavesAlone conf j) (start d) es → (run conf (start d) es).dbi.get j = none

/-- A chunk that reaches its limit does not fail in its commit. -/
def CommitsLimited (conf : Conf) (s : State) (e : Event) : Prop :=
  ∀ clock c, e = .chunk clock (some .late) →
    sweepChunk conf.cutoffTS clock (s.options conf) s.dbi = .ok c → c.ls.limitReached = false

/-! ## The proof -/

section Proof

variable {conf : Conf} {s : State} {e : Event} {d : Dbi} {j : Bytes}

/-- Everything a turn of the loop can do. -/
theorem chunk_cases (conf : Conf) (clock : ℕ → Bool) (fault : Option TxnFault) (s : State) :
    (∃ err, s.chunk conf clock fault = s.afterUpdate (some err)) ∨
    ∃ c, sweepChunk conf.cutoffTS clock (s.options conf) s.dbi = .ok c ∧
      ((fault = none ∧ s.chunk conf clock fault =
        { s with dbi := c.txn.dbi, last := c.ls.cursor,
                 limitReached := c.ls.limitReached }.afterUpdate none) ∨
      (fault = some .late ∧ s.chunk conf clock fault =
        { s with last := c.ls.cursor,
                 limitReached := c.ls.limitReached }.afterUpdate (some (.txn .late)))) := by
  unfold State.chunk
  cases hc : sweepChunk conf.cutoffTS clock (s.options conf) s.dbi with
  | error err => exact Or.inl ⟨_, rfl⟩
  | ok c =>
      cases fault with
      | none => exact Or.inr ⟨c, rfl, Or.inl ⟨rfl, rfl⟩⟩
      | some f =>
          cases f with
          | early => exact Or.inl ⟨_, rfl⟩
          | late => exact Or.inr ⟨c, rfl, Or.inr ⟨rfl, rfl⟩⟩

@[simp] theorem afterUpdate_dbi (err : Option Failure) : (s.afterUpdate err).dbi = s.dbi := by
  unfold State.afterUpdate
  split <;> rfl

@[simp] theorem afterUpdate_last (err : Option Failure) : (s.afterUpdate err).last = s.last := by
  unfold State.afterUpdate
  split <;> rfl

theorem afterUpdate_done {err : Option Failure} (h : (s.afterUpdate err).outcome = .done)
    (hs : s.outcome = .running) : s.limitReached = false ∧ err = none := by
  unfold State.afterUpdate at h
  split at h
  · rw [hs] at h
    cases h
  · rename_i hlimit
    cases err with
    | none => exact ⟨by simpa using hlimit, rfl⟩
    | some e => cases h

theorem afterUpdate_running {err : Option Failure} (h : (s.afterUpdate err).outcome = .running) :
    s.limitReached = true := by
  unfold State.afterUpdate at h
  split at h
  · assumption
  · cases err <;> cases h

theorem removes_always (conf : Conf) (s : State) (e : Event) : Removes conf s e := by
  intro happ j
  unfold step
  split
  · cases e with
    | commit d => exact absurd trivial happ
    | cancel =>
        left
        dsimp only
        split <;> rfl
    | chunk clock fault =>
        dsimp only
        rcases chunk_cases conf clock fault s with ⟨err, h⟩ | ⟨c, hc, ⟨-, h⟩ | ⟨-, h⟩⟩
        · rw [h]
          exact Or.inl (by simp)
        · rw [h]
          simpa using (sweepChunk_swept hc).kept j
        · rw [h]
          exact Or.inl (by simp)
  · exact Or.inl rfl

/-- What a run from `d` keeps of an entry that the application leaves alone. -/
structure Progress (conf : Conf) (d : Dbi) (j : Bytes) (s : State) : Prop where
  kept : s.dbi.get j = d.get j ∨ s.dbi.get j = none
  ahead : s.outcome = .running → Stale conf.cutoffTS (s.dbi.get j) →
    ∀ last, s.last = some last → s.dbi.before last.1 j
  done : s.outcome = .done → ¬ Stale conf.cutoffTS (s.dbi.get j)

theorem progress_start (conf : Conf) (d : Dbi) (j : Bytes) : Progress conf d j (start d) where
  kept := Or.inl rfl
  ahead := fun _ _ _ h => nomatch h
  done := fun h => nomatch h

/-- A stale entry is in the scope of the next chunk. -/
theorem Progress.scope (h : Progress conf d j s) (hrun : s.outcome = .running)
    (hstale : Stale conf.cutoffTS (s.dbi.get j)) : (s.options conf).Scope s.dbi j := by
  unfold ScanOptions.Scope
  rw [show (s.options conf).last = s.last from rfl]
  cases hlast : s.last with
  | none => trivial
  | some last => exact Or.inl (h.ahead hrun hstale last hlast)

theorem Progress.chunk (h : Progress conf d j s) (hrun : s.outcome = .running)
    {clock : ℕ → Bool} {fault : Option TxnFault}
    (hok : CommitsLimited conf s (.chunk clock fault)) :
    Progress conf d j (s.chunk conf clock fault) := by
  rcases chunk_cases conf clock fault s with ⟨err, heq⟩ | ⟨c, hc, ⟨-, heq⟩ | ⟨rfl, heq⟩⟩
  · -- the transaction is rolled back, the cursor is the old one
    rw [heq]
    refine ⟨by simpa using h.kept, fun _ hs => ?_, fun hdone => ?_⟩
    · simpa using h.ahead hrun (by simpa using hs)
    · cases (afterUpdate_done hdone hrun).2
  · rw [heq]
    have hswept := sweepChunk_swept hc
    -- what is stale now was stale before the chunk, and in its scope
    have hscope : Stale conf.cutoffTS (c.txn.dbi.get j) → (s.options conf).Scope s.dbi j := by
      intro hs
      rcases hswept.kept j with hk | ⟨hk, -⟩
      · exact h.scope hrun (by rw [← hk]; exact hs)
      · rw [hk] at hs
        exact absurd hs not_stale_none
    refine ⟨?_, fun hrunning hs last hlast => ?_, fun hdone hs => ?_⟩
    · rw [afterUpdate_dbi]
      show c.txn.dbi.get j = d.get j ∨ c.txn.dbi.get j = none
      rcases hswept.kept j with hk | ⟨hk, -⟩
      · rw [hk]
        exact h.kept
      · exact Or.inr hk
    · rw [afterUpdate_dbi] at hs ⊢
      rw [afterUpdate_last] at hlast
      obtain ⟨e, hcursor, hbehind⟩ := hswept.limited (afterUpdate_running hrunning)
      obtain rfl : e = last := Option.some.inj (hcursor.symm.trans hlast)
      unfold Dbi.before
      rw [hswept.flags]
      exact hbehind j (hscope hs) hs
    · rw [afterUpdate_dbi] at hs
      exact hswept.complete (afterUpdate_done hdone hrun).1 j (hscope hs) hs
  · -- a failed commit of a chunk that did not reach its limit ends the sweep
    rw [heq]
    have hlimit : c.ls.limitReached = false := hok clock c rfl hc
    refine ⟨by simpa using h.kept, fun hrunning => ?_, fun hdone => ?_⟩
    · have := afterUpdate_running hrunning
      rw [hlimit] at this
      cases this
    · cases (afterUpdate_done hdone hrun).2

theorem Progress.step (h : Progress conf d j s)
    (he : LeavesAlone conf j s e ∧ CommitsLimited conf s e) :
    Progress conf d j (step conf s e) := by
  obtain ⟨halone, hok⟩ := he
  by_cases hrun : s.outcome = .running
  · cases e with
    | commit d' =>
        have hget := halone trivial
        have hlast : (Sweeper.step conf s (.commit d')).last = s.last ∧
            (Sweeper.step conf s (.commit d')).outcome = s.outcome ∧
            (Sweeper.step conf s (.commit d')).dbi.flags = s.dbi.flags := by
          unfold Sweeper.step
          rw [if_pos hrun]
          dsimp only
          split
          · rename_i hflags
            exact ⟨rfl, rfl, hflags⟩
          · exact ⟨rfl, rfl, rfl⟩
        obtain ⟨hlast, hout, hflags⟩ := hlast
        refine ⟨by rw [hget]; exact h.kept, ?_, by rw [hget, hout]; exact h.done⟩
        unfold Dbi.before
        rw [hget, hlast, hout, hflags]
        exact h.ahead
    | chunk clock fault =>
        unfold Sweeper.step
        rw [if_pos hrun]
        exact h.chunk hrun hok
    | cancel =>
        unfold Sweeper.step
        rw [if_pos hrun]
        dsimp only
        split
        · exact ⟨h.kept, nofun, nofun⟩
        · exact h
  · unfold Sweeper.step
    rw [if_neg hrun]
    exact h

end Proof

/-! ## A chunk of a thousand markers -/

/-- A chunk in the middle of a DBI whose first `n` entries are gone. -/
structure Wiping (conf : Conf) (es : List (Bytes × Bytes)) (n : ℕ) (c : Chunk) : Prop where
  ready : c.ls.Ready
  opt : c.ls.opt = sweepOptions conf.lockDuration none
  deadline : c.ls.deadline = true
  count : c.ls.count = n
  entries : c.txn.dbi.entries = es.drop n
  ahead : ∀ e ∈ es.drop n, c.ls.Ahead c.txn.dbi e.1
  placed : ∀ m, n = m + 1 → c.ls.sc.entry = es[m]?

section Wiping

variable {conf : Conf} {es : List (Bytes × Bytes)} {n : ℕ} {c : Chunk}

/-- A DBI finds its first entry first. -/
theorem least_head {d : Dbi} {P : Bytes → Prop} {e : Bytes × Bytes} {fs : List (Bytes × Bytes)}
    {x : Option (Bytes × Bytes)} (hd : d.entries = e :: fs) (hP : P e.1) (h : d.Least P x) :
    x = some e := by
  have hmem : e ∈ d.entries := by rw [hd]; exact List.mem_cons_self
  have hget : d.get e.1 = some e.2 := Dbi.mem_entries_iff.mp hmem
  have hkey : e.1 ∈ d.keys := Dbi.mem_keys_iff.mpr ⟨_, hget⟩
  cases x with
  | none => exact absurd hP (h e.1 hkey)
  | some y =>
      obtain ⟨-, hy, hleast⟩ := h
      have hin : y ∈ e :: fs := by
        rw [← hd]
        exact Dbi.mem_entries_iff.mpr hy
      rcases List.mem_cons.mp hin with rfl | hin
      · rfl
      · have hlt := (List.pairwise_cons.mp (hd ▸ d.entries_sorted)).1 y hin
        exact absurd (hleast e.1 hkey hP) (not_le.mpr hlt)

theorem Wiping.step (clock : ℕ → Bool) (h : Wiping conf es n c) (hn : n < 1000)
    (hlen : n < es.length) (hstale : isStale conf.cutoffTS es[n].2 = true) :
    ∃ c', chunkRound conf.cutoffTS clock c = .ok (.inl c') ∧ Wiping conf es (n + 1) c' := by
  have hdrop : es.drop n = es[n] :: es.drop (n + 1) := List.drop_eq_getElem_cons hlen
  have hentries : c.txn.dbi.entries = es[n] :: es.drop (n + 1) := h.entries.trans hdrop
  have hget : c.txn.dbi.get es[n].1 = some es[n].2 :=
    Dbi.mem_entries_iff.mp (by rw [hentries]; exact List.mem_cons_self)
  have hrec : c.ls.outOfRecords = false := by simp [LimitScanner.outOfRecords, h.opt, sweepOptions]
  have htime : c.ls.outOfTime (clock c.ls.count) = false := by
    have hmod : ¬ (0 < n ∧ (n : ℤ) % 1000 = 0) := by omega
    simp only [LimitScanner.outOfTime, h.opt, sweepOptions, limitDurationCheckEveryDefault,
      h.count, Bool.and_eq_false_iff, decide_eq_false_iff_not]
    tauto
  obtain ⟨x, hleast, hscan⟩ := LimitScanner.scan_go (d := c.txn.dbi) h.ready hrec htime
  obtain rfl := least_head hentries (h.ahead _ (by rw [hdrop]; exact List.mem_cons_self)) hleast
  have hclean : cleanEntry conf.cutoffTS c.txn es[n].1 es[n].2 =
      .ok ⟨c.txn.dbi.erase es[n].1, true⟩ := by
    rcases cleanEntry_cases conf.cutoffTS hget with ⟨hbad, -⟩ | ⟨hfresh, -⟩ | ⟨-, hok⟩
    · unfold isStale at hstale
      split at hstale
      · cases hstale
      · rename_i r _ hr
        exact absurd ⟨_, hr⟩ hbad
    · rw [hstale] at hfresh
      cases hfresh
    · exact hok
  refine ⟨⟨⟨c.txn.dbi.erase es[n].1, true⟩,
    { c.ls with sc := .on es[n] false, count := c.ls.count + 1 }⟩, ?_, ?_⟩
  · unfold chunkRound
    rw [hscan]
    simp only [Option.isSome_some, LimitScanner.cursor, Scanner.place, Scanner.entry,
      Option.getD_some, hclean]
  · have hsplit : c.txn.dbi.entries = [] ++ (es[n].1, es[n].2) :: es.drop (n + 1) := hentries
    refine ⟨⟨h.ready.open_, Or.inr ⟨Nat.succ_pos _, _, rfl⟩⟩, h.opt, h.deadline, ?_, ?_, ?_, ?_⟩
    · exact congrArg (· + 1) h.count
    · exact Dbi.entries_erase_split hsplit
    · intro e he
      have hpw := (List.pairwise_cons.mp (hentries ▸ c.txn.dbi.entries_sorted)).1 e he
      exact hpw
    · intro m hm
      obtain rfl : m = n := by omega
      exact (List.getElem?_eq_getElem hlen).symm

theorem Wiping.run (clock : ℕ → Bool) (hlen : 1000 ≤ es.length)
    (hstale : ∀ i (hi : i < es.length), i < 1000 → isStale conf.cutoffTS es[i].2 = true)
    (fuel : ℕ) :
    ∀ (k : ℕ) {n : ℕ} {c : Chunk}, Wiping conf es n c → n + k = 1000 →
      ∃ c', Wiping conf es 1000 c' ∧ runRounds (chunkRound conf.cutoffTS clock) (fuel + k) c =
        runRounds (chunkRound conf.cutoffTS clock) fuel c'
  | 0, n, c, h, hn => by
      obtain rfl : n = 1000 := hn
      exact ⟨c, h, rfl⟩
  | k + 1, n, c, h, hn => by
      obtain ⟨c₁, hround, h₁⟩ := h.step clock (by omega) (by omega)
        (hstale n (by omega) (by omega))
      obtain ⟨c', h', hrun⟩ := Wiping.run clock hlen hstale fuel k h₁ (by omega)
      exact ⟨c', h', by rw [← hrun, ← add_assoc, runRounds_next hround]⟩

/-- With the clock always late, a chunk that starts with a thousand stale markers ends
on the last one of them. -/
theorem sweepChunk_thousand {d : Dbi} (hlock : 0 < conf.lockDuration)
    (hlen : 1000 ≤ d.entries.length)
    (hstale : ∀ i (hi : i < d.entries.length), i < 1000 →
      isStale conf.cutoffTS d.entries[i].2 = true) :
    ∃ c, sweepChunk conf.cutoffTS (fun _ => true) (sweepOptions conf.lockDuration none) d = .ok c ∧
      c.ls.limitReached = true ∧ c.ls.cursor = d.entries[999]? ∧
      c.txn.dbi.entries = d.entries.drop 1000 := by
  have hstart : Wiping conf d.entries 0
      ⟨.start d, newLimitScanner (sweepOptions conf.lockDuration none)⟩ :=
    ⟨LimitScanner.ready_new _, rfl, decide_eq_true hlock, rfl, rfl, fun _ _ => trivial, nofun⟩
  obtain ⟨n, hn⟩ := Nat.exists_eq_add_of_le hlen
  obtain ⟨c, hc, hrun⟩ := Wiping.run (fun _ => true) hlen hstale (n + 2) 1000 hstart rfl
  have hkeys : d.keys.length = 1000 + n := by rw [Dbi.keys, List.length_map, hn]
  have hstop : chunkRound conf.cutoffTS (fun _ => true) c =
      .ok (.inr ⟨c.txn, { c.ls with limitReached := true }⟩) := by
    unfold chunkRound
    rw [LimitScanner.scan_stop hc.ready (by rw [hc.count]; decide)]
    simp [LimitScanner.outOfTime, hc.opt, hc.count, hc.deadline, sweepOptions,
      limitDurationCheckEveryDefault]
  refine ⟨⟨c.txn, { c.ls with limitReached := true }⟩, ?_, rfl, hc.placed 999 rfl, hc.entries⟩
  rw [sweepChunk, hkeys, add_assoc, add_comm, hrun, runRounds_done hstop]

/-- The turn of the loop that does so. -/
theorem step_thousand {conf : Conf} {d : Dbi} {last : Bytes × Bytes}
    (hlock : 0 < conf.lockDuration) (hlast : d.entries[999]? = some last)
    (hstale : ∀ e ∈ d.entries, isStale conf.cutoffTS e.2 = true) :
    ∃ d', d'.flags = d.flags ∧
      step conf (start d) (.chunk (fun _ => true) none) = ⟨d', some last, true, .running⟩ ∧
      step conf (start d) (.chunk (fun _ => true) (some .late)) =
        ⟨d, some last, true, .running⟩ := by
  have hlen : 1000 ≤ d.entries.length := by
    obtain ⟨hlt, -⟩ := List.getElem?_eq_some_iff.mp hlast
    omega
  obtain ⟨c, hc, hlimit, hcursor, -⟩ := sweepChunk_thousand hlock hlen fun i hi _ =>
    hstale _ (List.getElem_mem hi)
  have hchunk : sweepChunk conf.cutoffTS (fun _ => true) ((start d).options conf) (start d).dbi =
    .ok c := hc
  refine ⟨c.txn.dbi, (sweepChunk_swept hc).flags, ?_, ?_⟩
  · show (start d).chunk conf (fun _ => true) none = _
    unfold State.chunk
    rw [hchunk]
    show State.afterUpdate ⟨c.txn.dbi, c.ls.cursor, c.ls.limitReached, .running⟩ none = _
    rw [hlimit, hcursor, hlast]
    rfl
  · show (start d).chunk conf (fun _ => true) (some .late) = _
    unfold State.chunk
    rw [hchunk]
    show State.afterUpdate ⟨d, c.ls.cursor, c.ls.limitReached, .running⟩ (some (.txn .late)) = _
    rw [hlimit, hcursor, hlast]
    rfl

/-- A chunk that resumes on the last entry, unchanged, has nothing to do. -/
theorem sweepChunk_end (cutoffTS : Timestamp) (clock : ℕ → Bool) (lock : ℤ) {d : Dbi}
    {last : Bytes × Bytes}
    (hget : d.get last.1 = some last.2)
    (hlast : ∀ j ∈ d.keys, ¬ d.before last.1 j) :
    ∃ c, sweepChunk cutoffTS clock (sweepOptions lock (some last)) d = .ok c ∧
      c.ls.limitReached = false ∧ c.txn.dbi = d := by
  have hscope : ∀ j ∈ d.keys, ¬ (sweepOptions lock (some last)).Scope d j := by
    rintro j hj (hbefore | ⟨-, hne⟩)
    · exact hlast j hj hbefore
    · exact hne hget
  have hready := LimitScanner.ready_new (sweepOptions lock (some last))
  rcases chunkRound_cases (c := ⟨.start d, newLimitScanner (sweepOptions lock (some last))⟩)
      cutoffTS clock hready with
    ⟨e, ⟨hahead, hget', -⟩, -⟩ | ⟨e, he, -, -⟩ | ⟨-, hround⟩
  · exact absurd ((LimitScanner.scope_new _ _).mp hahead)
      (hscope e.1 (Dbi.mem_keys_iff.mpr ⟨e.2, hget'⟩))
  · cases he
  · exact ⟨_, runRounds_done hround, rfl, rfl⟩

end Wiping

/-! ## Sweeps in chunks -/

/-- **A sweep in chunks removes exactly the stale markers**, whatever the application
commits between the chunks, if no chunk that reaches its limit fails in its commit. -/
theorem chunked_sweep_exact (conf : Conf) (d : Dbi) (es : List Event)
    (hok : Along conf (CommitsLimited conf) (start d) es) : ExactSweep conf d es := by
  refine ⟨along_of_forall _ (fun e _ s => removes_always conf s e), fun hdone j hstale halone => ?_⟩
  have hprogress : Progress conf d j (run conf (start d) es) :=
    Along.run (fun s e hs he => hs.step he) (along_and halone hok) (progress_start conf d j)
  rcases hprogress.kept with hk | hk
  · exact absurd (by rw [hk]; exact hstale) (hprogress.done hdone)
  · exact hk

/-- A deletion marker from the beginning of time. -/
def oldMarker : Bytes := Header.putBasic 0 0 Header.flagDeleted

def oldConf : Conf := ⟨1, 1000000⟩

/-- The old marker at the key 1, and a live entry at the key 2. -/
def oneMarker : Dbi where
  flags := .plain
  map := ⟨[([1], oldMarker), ([2], Header.putBasic 0 0 Header.noFlags)], by decide +kernel⟩
  allowed := by decide +kernel

/-- A thousand old markers. -/
def markers : Dbi := .numbered 1000 (by decide) oldMarker

theorem markers_entries :
    markers.entries = (List.range 1000).map fun i => (beBytes 2 i, oldMarker) :=
  Dbi.numbered_entries _ _ _

theorem oldMarker_stale : isStale oldConf.cutoffTS oldMarker = true := by decide +kernel

theorem markers_stale : ∀ e ∈ markers.entries, isStale oldConf.cutoffTS e.2 = true := by
  intro e he
  rw [markers_entries] at he
  obtain ⟨i, -, rfl⟩ := List.mem_map.mp he
  exact oldMarker_stale

theorem markers_last : markers.entries[999]? = some (beBytes 2 999, oldMarker) := by
  rw [markers_entries, List.getElem?_map, List.getElem?_range (by omega), Option.map_some]

/-- What the application commits between two chunks: another old marker, behind the thousand,
and a live entry. -/
def arrived : Dbi where
  flags := .plain
  map := ⟨[([1], Header.putBasic 0 0 Header.noFlags), ([4], oldMarker)], by decide +kernel⟩
  allowed := by decide +kernel

def twoChunks : List Event :=
  [.chunk (fun _ => true) none, .commit arrived, .chunk (fun _ => false) none]

/-- The first chunk removes a thousand markers, the second one what has arrived since. -/
theorem chunked_sweep_two :
    ExactSweep oldConf markers twoChunks ∧
      (run oldConf (start markers) twoChunks).outcome = .done ∧
      (run oldConf (start markers) twoChunks).dbi.keys = [[1]] := by
  have hok : Along oldConf (CommitsLimited oldConf) (start markers) twoChunks := by
    refine along_of_forall _ fun e he _ clock _ hlate _ => ?_
    rw [hlate] at he
    simp [twoChunks] at he
  obtain ⟨d', hflags, hfirst, -⟩ := @step_thousand oldConf _ _ (by decide) markers_last
    markers_stale
  have hcommit : step oldConf ⟨d', some (beBytes 2 999, oldMarker), true, .running⟩
      (.commit arrived) = ⟨arrived, some (beBytes 2 999, oldMarker), true, .running⟩ := by
    show (if arrived.flags = d'.flags then _ else _) = _
    rw [if_pos (show arrived.flags = d'.flags from hflags.symm)]
  have hrun : run oldConf (start markers) twoChunks =
      step oldConf ⟨arrived, some (beBytes 2 999, oldMarker), true, .running⟩
        (.chunk (fun _ => false) none) := by
    rw [run, twoChunks, List.foldl_cons, hfirst, List.foldl_cons, hcommit, List.foldl_cons,
      List.foldl_nil]
  refine ⟨chunked_sweep_exact _ _ _ hok, ?_, ?_⟩
  · rw [hrun]
    decide +kernel
  · rw [hrun]
    decide +kernel

/-! ## A commit that fails -/

/-- The commit of the first chunk fails, and the sweep goes on behind it. -/
def failedCommit : List Event := [.chunk (fun _ => true) (some .late), .chunk (fun _ => true) none]

theorem failedCommit_run (conf : Conf) {d : Dbi} (hlock : 0 < conf.lockDuration)
    (hlen : d.entries.length = 1000)
    (hstale : ∀ e ∈ d.entries, isStale conf.cutoffTS e.2 = true) :
    (run conf (start d) failedCommit).outcome = .done ∧
      (run conf (start d) failedCommit).dbi = d := by
  obtain ⟨last, front, hsplit⟩ : ∃ last front, d.entries = front ++ [last] ∧
      d.entries[999]? = some last := by
    have hne : d.entries ≠ [] := by
      rintro hnil
      rw [hnil] at hlen
      cases hlen
    refine ⟨d.entries.getLast hne, d.entries.dropLast,
      (List.dropLast_append_getLast hne).symm, ?_⟩
    rw [← List.getLast?_eq_some_getLast hne, List.getLast?_eq_getElem?, hlen]
  obtain ⟨hentries, hlast⟩ := hsplit
  have hget : d.get last.1 = some last.2 :=
    Dbi.mem_entries_iff.mp (by rw [hentries]; simp)
  -- nothing lies behind the last entry
  have hmax : ∀ j ∈ d.keys, ¬ d.before last.1 j := by
    intro j hj hbefore
    obtain ⟨e, he, rfl⟩ := List.mem_map.mp hj
    rw [hentries] at he
    rcases List.mem_append.mp he with he | he
    · have hlt := (List.pairwise_append.mp (hentries ▸ d.entries_sorted)).2.2 e he last (by simp)
      exact lt_asymm hlt hbefore
    · obtain rfl := List.mem_singleton.mp he
      exact lt_irrefl _ hbefore
  obtain ⟨-, -, -, hfirst⟩ := step_thousand hlock hlast hstale
  obtain ⟨c', hc', hlimit', hdbi'⟩ := sweepChunk_end conf.cutoffTS (fun _ => true)
    conf.lockDuration hget hmax
  have hsecond : step conf ⟨d, some last, true, .running⟩ (.chunk (fun _ => true) none) =
      ⟨d, c'.ls.cursor, false, .done⟩ := by
    show State.chunk conf (fun _ => true) none _ = _
    unfold State.chunk
    rw [show sweepChunk conf.cutoffTS (fun _ => true)
      (State.options conf ⟨d, some last, true, .running⟩) d = .ok c' from hc']
    show State.afterUpdate ⟨c'.txn.dbi, c'.ls.cursor, c'.ls.limitReached, .running⟩ none = _
    rw [hlimit', hdbi']
    rfl
  have hrun : run conf (start d) failedCommit = ⟨d, c'.ls.cursor, false, .done⟩ := by
    rw [← hsecond, ← hfirst]
    rfl
  rw [hrun]
  exact ⟨rfl, rfl⟩

/-- A sweep ends without an error and leaves every stale marker of the chunk whose
commit failed. -/
theorem failed_commit_swallowed :
    (run oldConf (start markers) failedCommit).outcome = .done ∧
      (run oldConf (start markers) failedCommit).dbi = markers ∧
      ¬ ExactSweep oldConf markers failedCommit := by
  have hlen : markers.entries.length = 1000 := by
    rw [markers_entries, List.length_map, List.length_range]
  obtain ⟨hdone, hdbi⟩ := failedCommit_run oldConf (by decide) hlen markers_stale
  refine ⟨hdone, hdbi, fun h => ?_⟩
  have hmem : (beBytes 2 0, oldMarker) ∈ markers.entries := by
    rw [markers_entries]
    exact List.mem_map.mpr ⟨0, List.mem_range.mpr (by omega), rfl⟩
  have hget := Dbi.mem_entries_iff.mp hmem
  have hgone := h.gone hdone (beBytes 2 0) (by rw [hget, stale_some]; exact oldMarker_stale)
    ⟨nofun, nofun, trivial⟩
  rw [hdbi, hget] at hgone
  cases hgone

end LightningStream.Sweeper
