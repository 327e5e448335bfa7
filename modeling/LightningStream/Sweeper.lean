import LightningStream.Base.Outcome
import LightningStream.Base.Rounds
import LightningStream.Header
import LightningStream.Lmdb.LimitScanner

/-!
# The sweeper

`sweep` removes deletion markers older than a cutoff. It works on a DBI in chunks,
each in a write transaction of its own, so that the application gets the lock in
between. The machine below is the loop over the chunks of one DBI: the application
commits what it likes between two of them, a clock says when a chunk is over, and
a transaction may fail.

The invariant of a chunk is that a stale marker it is to remove is still ahead of
its scanner (`Cleaning`). The invariant of the loop is that a stale marker from
the start, which the application left alone, is behind the cursor only if it is
gone.
-/

namespace LightningStream.Sweeper

open Lmdb

inductive SweepErr
  /-- "failed to parse header for key". -/
  | header (key : Bytes) (e : Header.HeaderErr)
  /-- "failed to delete key". -/
  | del (key : Bytes) (e : LmdbErr)
deriving DecidableEq

/-! ## One chunk -/

/-- A transaction and the scanner in it. -/
structure Chunk where
  txn : Txn
  ls : LimitScanner
deriving DecidableEq

/-- The body of the scan loop: remove the entry if it is a stale marker. -/
def cleanEntry (cutoffTS : Timestamp) (t : Txn) (key val : Bytes) : Except SweepErr Txn :=
  match Header.parse val with
  | .error e => .error (.header key e)
  | .ok (h, _) =>
      if !Header.isDeleted h.flags then .ok t
      else if cutoffTS ≤ h.timestamp then .ok t
      else (t.del key).mapError (.del key)

def chunkRound (cutoffTS : Timestamp) (clock : ℕ → Bool) (c : Chunk) :
    Except (Fault SweepErr) (Chunk ⊕ Chunk) :=
  match c.ls.scan clock c.txn.dbi with
  | (false, ls) => .ok (.inr ⟨c.txn, ls⟩)
  | (true, ls) =>
      let e := ls.cursor.getD ([], [])
      match cleanEntry cutoffTS c.txn e.1 e.2 with
      | .error e => .error (.error e)
      | .ok t => .ok (.inl ⟨t, ls⟩)

def sweepOptions (lockDuration : ℤ) (last : Option (Bytes × Bytes)) : ScanOptions where
  limitRecords := 0
  limitDuration := lockDuration
  limitDurationCheckEvery := limitDurationCheckEveryDefault
  last := last

/-- The transaction of one chunk, up to its commit. A round scans one entry. -/
def sweepChunk (cutoffTS : Timestamp) (clock : ℕ → Bool) (opt : ScanOptions) (d : Dbi) :
    Except (Fault SweepErr) Chunk :=
  runRounds (chunkRound cutoffTS clock) (d.keys.length + 2) ⟨.start d, newLimitScanner opt⟩

/-! ## What a chunk does -/

/-- A marker that is to be removed. -/
def isStale (cutoffTS : Timestamp) (val : Bytes) : Bool :=
  match Header.parse val with
  | .error _ => false
  | .ok (h, _) => Header.isDeleted h.flags && decide (h.timestamp < cutoffTS)

/-- There is a value, and it is a marker to be removed. -/
def Stale (cutoffTS : Timestamp) (val : Option Bytes) : Prop :=
  ∃ v, val = some v ∧ isStale cutoffTS v = true

variable {cutoffTS : Timestamp} {clock : ℕ → Bool}

theorem stale_some {v : Bytes} : Stale cutoffTS (some v) ↔ isStale cutoffTS v = true := by
  simp [Stale]

theorem not_stale_none : ¬ Stale cutoffTS none := by
  rintro ⟨v, hv, -⟩
  cases hv

/-- The header of a value can be parsed. -/
def Parses (val : Bytes) : Prop := ∃ r, Header.parse val = .ok r

theorem cleanEntry_cases (cutoffTS : Timestamp) {t : Txn} {k v : Bytes}
    (hget : t.dbi.get k = some v) :
    (¬ Parses v ∧ ∃ e, cleanEntry cutoffTS t k v = .error e) ∨
    (isStale cutoffTS v = false ∧ cleanEntry cutoffTS t k v = .ok t) ∨
    (isStale cutoffTS v = true ∧ cleanEntry cutoffTS t k v = .ok ⟨t.dbi.erase k, true⟩) := by
  unfold cleanEntry isStale Parses
  cases hp : Header.parse v with
  | error e => exact Or.inl ⟨(fun ⟨_, hr⟩ => nomatch hr), _, rfl⟩
  | ok r =>
      obtain ⟨h, app⟩ := r
      right
      by_cases hdel : Header.isDeleted h.flags = true
      · by_cases hts : cutoffTS ≤ h.timestamp
        · exact Or.inl (by simp [hdel, hts])
        · exact Or.inr (by simp [hdel, hts, not_le.mp hts, Txn.del_of_some hget, Except.mapError])
      · exact Or.inl (by simp [hdel])

/-- A chunk on its way, from the DBI `d`. -/
structure Cleaning (cutoffTS : Timestamp) (opt : ScanOptions) (d : Dbi) (c : Chunk) : Prop where
  ready : c.ls.Ready
  flags : c.txn.dbi.flags = d.flags
  kept : ∀ j, c.txn.dbi.get j = d.get j ∨ c.txn.dbi.get j = none ∧ Stale cutoffTS (d.get j)
  ahead : ∀ j, opt.Scope d j → Stale cutoffTS (c.txn.dbi.get j) → c.ls.Ahead c.txn.dbi j

/-- A chunk that has come to its end. With a limit, the stale markers left are
behind its cursor in the order of the DBI; without, none are left. -/
structure Swept (cutoffTS : Timestamp) (opt : ScanOptions) (d : Dbi) (c : Chunk) : Prop where
  flags : c.txn.dbi.flags = d.flags
  kept : ∀ j, c.txn.dbi.get j = d.get j ∨ c.txn.dbi.get j = none ∧ Stale cutoffTS (d.get j)
  limited : c.ls.limitReached = true → ∃ e, c.ls.cursor = some e ∧
    ∀ j, opt.Scope d j → Stale cutoffTS (c.txn.dbi.get j) → d.before e.1 j
  complete : c.ls.limitReached = false →
    ∀ j, opt.Scope d j → ¬ Stale cutoffTS (c.txn.dbi.get j)

variable {opt : ScanOptions} {d : Dbi} {c c' : Chunk}

theorem cleaning_start (cutoffTS : Timestamp) (opt : ScanOptions) (d : Dbi) :
    Cleaning cutoffTS opt d ⟨.start d, newLimitScanner opt⟩ where
  ready := LimitScanner.ready_new opt
  flags := rfl
  kept := fun _ => Or.inl rfl
  ahead := fun j hj _ => (LimitScanner.scope_new opt j).mpr hj

/-- The three rounds: an entry is looked at, a limit is reached, the end is. -/
theorem chunkRound_cases (cutoffTS : Timestamp) (clock : ℕ → Bool) (hready : c.ls.Ready) :
    (∃ e, c.txn.dbi.Least (c.ls.Ahead c.txn.dbi) (some e) ∧
      chunkRound cutoffTS clock c = match cleanEntry cutoffTS c.txn e.1 e.2 with
        | .error err => .error (.error err)
        | .ok t => .ok (.inl ⟨t, { c.ls with sc := .on e false, count := c.ls.count + 1 }⟩)) ∨
    (∃ e, c.ls.sc = .on e false ∧ (c.ls.outOfRecords || c.ls.outOfTime (clock c.ls.count)) = true ∧
      chunkRound cutoffTS clock c = .ok (.inr ⟨c.txn, { c.ls with limitReached := true }⟩)) ∨
    (c.txn.dbi.Least (c.ls.Ahead c.txn.dbi) none ∧
      chunkRound cutoffTS clock c =
        .ok (.inr ⟨c.txn, { c.ls with sc := .ended, count := c.ls.count + 1 }⟩)) := by
  unfold chunkRound
  rcases LimitScanner.scan_cases clock c.txn.dbi hready with
    ⟨hscan, hlimit, e, he⟩ | ⟨e, hleast, hscan⟩
  · exact Or.inr (Or.inl ⟨e, he, hlimit, by rw [hscan]⟩)
  · cases e with
    | none => exact Or.inr (Or.inr ⟨hleast, by rw [hscan]; rfl⟩)
    | some e => exact Or.inl ⟨e, hleast, by rw [hscan]; rfl⟩

theorem Cleaning.step (h : Cleaning cutoffTS opt d c)
    (hstep : chunkRound cutoffTS clock c = .ok (.inl c')) : Cleaning cutoffTS opt d c' := by
  rcases chunkRound_cases cutoffTS clock h.ready with
    ⟨e, ⟨-, hget, hleast⟩, hround⟩ | ⟨e, -, -, hround⟩ | ⟨-, hround⟩
  · rw [hstep] at hround
    -- what is still stale is not the entry just looked at
    have hbefore : ∀ j, opt.Scope d j → Stale cutoffTS (c.txn.dbi.get j) → j ≠ e.1 →
        c.txn.dbi.before e.1 j := by
      intro j hj hstale hne
      obtain ⟨v, hv, -⟩ := id hstale
      have hle := hleast j (Dbi.mem_keys_iff.mpr ⟨v, hv⟩) (h.ahead j hj hstale)
      exact lt_of_le_of_ne hle fun hrank => hne (KeyFlags.rank_inj.mp hrank).symm
    rcases cleanEntry_cases cutoffTS hget with
      ⟨-, err, hc⟩ | ⟨hfresh, hc⟩ | ⟨hstale, hc⟩
    · rw [hc] at hround
      cases hround
    · rw [hc] at hround
      obtain rfl := Sum.inl.inj (Except.ok.inj hround)
      refine ⟨⟨h.ready.open_, Or.inr ⟨Nat.succ_pos _, e, rfl⟩⟩, h.flags, h.kept, ?_⟩
      intro j hj hs
      refine hbefore j hj hs fun hne => ?_
      rw [hne] at hs
      change Stale cutoffTS (c.txn.dbi.get e.1) at hs
      rw [hget, stale_some, hfresh] at hs
      cases hs
    · rw [hc] at hround
      obtain rfl := Sum.inl.inj (Except.ok.inj hround)
      refine ⟨⟨h.ready.open_, Or.inr ⟨Nat.succ_pos _, e, rfl⟩⟩, h.flags, ?_, ?_⟩
      · intro j
        show (c.txn.dbi.erase e.1).get j = d.get j ∨ (c.txn.dbi.erase e.1).get j = none ∧ _
        rw [Dbi.get_erase]
        split
        · rename_i hj
          rw [hj]
          rcases h.kept e.1 with hk | ⟨hk, -⟩
          · exact Or.inr ⟨rfl, by rw [← hk, hget, stale_some]; exact hstale⟩
          · rw [hget] at hk
            cases hk
        · exact h.kept j
      · intro j hj hs
        change Stale cutoffTS ((c.txn.dbi.erase e.1).get j) at hs
        rw [Dbi.get_erase] at hs
        split at hs
        · exact absurd hs not_stale_none
        · rename_i hne
          exact hbefore j hj hs hne
  · rw [hstep] at hround
    cases hround
  · rw [hstep] at hround
    cases hround

theorem Cleaning.done (h : Cleaning cutoffTS opt d c)
    (hdone : chunkRound cutoffTS clock c = .ok (.inr c')) : Swept cutoffTS opt d c' := by
  rcases chunkRound_cases cutoffTS clock h.ready with
    ⟨e, -, hround⟩ | ⟨e, he, -, hround⟩ | ⟨hleast, hround⟩
  · rw [hdone] at hround
    split at hround <;> cases hround
  · rw [hdone] at hround
    obtain rfl := Sum.inr.inj (Except.ok.inj hround)
    refine ⟨h.flags, h.kept, fun _ => ⟨e, ?_, fun j hj hs => ?_⟩, fun hfalse => ?_⟩
    · show c.ls.sc.entry = some e
      rw [he]
      rfl
    · have := h.ahead j hj hs
      unfold LimitScanner.Ahead at this
      rw [he] at this
      rw [Dbi.before, ← h.flags]
      exact this
    · cases hfalse
  · rw [hdone] at hround
    obtain rfl := Sum.inr.inj (Except.ok.inj hround)
    refine ⟨h.flags, h.kept, fun htrue => ?_, fun _ j hj hs => ?_⟩
    · have := h.ready.open_
      rw [this] at htrue
      cases htrue
    · obtain ⟨v, hv, -⟩ := id hs
      exact hleast j (Dbi.mem_keys_iff.mpr ⟨v, hv⟩) (h.ahead j hj hs)

/-- **What a chunk leaves behind.** -/
theorem sweepChunk_swept (h : sweepChunk cutoffTS clock opt d = .ok c) :
    Swept cutoffTS opt d c :=
  runRounds_ok (I := Cleaning cutoffTS opt d) (P := Swept cutoffTS opt d)
    (fun _ _ hc hstep => hc.step hstep) (fun _ _ hc hdone => hc.done hdone)
    (cleaning_start cutoffTS opt d) h

/-- A chunk that nothing limits goes to the end of the DBI. -/
theorem sweepChunk_unlimited (hclock : ∀ n, clock n = false) (hrec : opt.limitRecords ≤ 0)
    (h : sweepChunk cutoffTS clock opt d = .ok c) : c.ls.limitReached = false := by
  refine runRounds_ok
    (I := fun c => Cleaning cutoffTS opt d c ∧ c.ls.opt.limitRecords ≤ 0)
    (P := fun c => c.ls.limitReached = false) ?_ ?_ ⟨cleaning_start cutoffTS opt d, ?_⟩ h
  · rintro c c' ⟨hc, hopt⟩ hstep
    refine ⟨hc.step hstep, ?_⟩
    rcases chunkRound_cases cutoffTS clock hc.ready with
      ⟨e, -, hround⟩ | ⟨e, -, -, hround⟩ | ⟨-, hround⟩
    · rw [hstep] at hround
      split at hround
      · cases hround
      · obtain rfl := Sum.inl.inj (Except.ok.inj hround)
        exact hopt
    · rw [hstep] at hround
      cases hround
    · rw [hstep] at hround
      cases hround
  · rintro c c' ⟨hc, hopt⟩ hdone
    rcases chunkRound_cases cutoffTS clock hc.ready with
      ⟨e, -, hround⟩ | ⟨e, -, hlimit, -⟩ | ⟨-, hround⟩
    · rw [hdone] at hround
      split at hround <;> cases hround
    · simp [LimitScanner.outOfRecords, LimitScanner.outOfTime, hclock, not_lt.mpr hopt] at hlimit
    · rw [hdone] at hround
      obtain rfl := Sum.inr.inj (Except.ok.inj hround)
      exact hc.ready.open_
  · show (newLimitScanner opt).opt.limitRecords ≤ 0
    unfold newLimitScanner
    split <;> exact hrec

/-- The keys that a chunk has looked at, one for each entry it counted. -/
structure Passed (d : Dbi) (c : Chunk) (ks : List Bytes) : Prop where
  nodup : ks.Nodup
  subset : ks ⊆ d.keys
  counted : ks.length = c.ls.count
  notAhead : c.ls.sc ≠ .fresh → ∀ k ∈ ks, ¬ c.ls.Ahead c.txn.dbi k

theorem Cleaning.passed_step (h : Cleaning cutoffTS opt d c) {ks : List Bytes}
    (hp : Passed d c ks) (hstep : chunkRound cutoffTS clock c = .ok (.inl c')) :
    ∃ k, Passed d c' (k :: ks) := by
  have hflags := (h.step hstep).flags
  rcases chunkRound_cases cutoffTS clock h.ready with
    ⟨e, ⟨hahead, hget, -⟩, hround⟩ | ⟨e, -, -, hround⟩ | ⟨-, hround⟩
  · rw [hstep] at hround
    have hls : c'.ls = { c.ls with sc := .on e false, count := c.ls.count + 1 } := by
      split at hround
      · cases hround
      · obtain rfl := Sum.inl.inj (Except.ok.inj hround)
        rfl
    have hmem : e.1 ∈ d.keys := by
      rcases h.kept e.1 with hk | ⟨hk, -⟩
      · exact Dbi.mem_keys_iff.mpr ⟨e.2, by rw [← hk, hget]⟩
      · rw [hget] at hk
        cases hk
    have hold : ∀ k ∈ ks, ¬ c.ls.Ahead c.txn.dbi k := by
      rcases h.ready.placed with ⟨hcount, -⟩ | ⟨-, e', he'⟩
      · have hnil : ks = [] := List.length_eq_zero_iff.mp (hp.counted.trans hcount)
        simp [hnil]
      · exact hp.notAhead (by rw [he']; exact Scanner.noConfusion)
    refine ⟨e.1, ⟨?_, ?_, ?_, ?_⟩⟩
    · exact List.nodup_cons.mpr ⟨fun hin => hold _ hin hahead, hp.nodup⟩
    · exact List.cons_subset.mpr ⟨hmem, hp.subset⟩
    · rw [List.length_cons, hp.counted, hls]
    · intro _ k hk hbefore
      unfold LimitScanner.Ahead at hbefore
      rw [hls] at hbefore
      change c'.txn.dbi.before e.1 k at hbefore
      unfold Dbi.before at hbefore
      rw [hflags, ← h.flags] at hbefore
      rcases List.mem_cons.mp hk with rfl | hk
      · exact lt_irrefl _ hbefore
      · -- a key passed earlier is below this one
        refine hold k hk ?_
        rcases h.ready.placed with ⟨hcount, -⟩ | ⟨-, e', he'⟩
        · have hnil : ks = [] := List.length_eq_zero_iff.mp (hp.counted.trans hcount)
          simp [hnil] at hk
        · unfold LimitScanner.Ahead at hahead ⊢
          rw [he'] at hahead ⊢
          exact lt_trans hahead hbefore
  · rw [hstep] at hround
    cases hround
  · rw [hstep] at hround
    cases hround

/-- **A chunk comes to its end** in a DBI whose headers can all be parsed. -/
theorem sweepChunk_returns (cutoffTS : Timestamp) (clock : ℕ → Bool) (opt : ScanOptions)
    (hvalid : ∀ k v, d.get k = some v → Parses v) :
    ∃ c, sweepChunk cutoffTS clock opt d = .ok c := by
  suffices hrun : ∀ (fuel : ℕ) (c : Chunk) (ks : List Bytes), Cleaning cutoffTS opt d c →
      Passed d c ks → d.keys.length + 2 ≤ ks.length + fuel →
      ∃ c', runRounds (chunkRound cutoffTS clock) fuel c = .ok c' from
    hrun _ _ [] (cleaning_start cutoffTS opt d)
      ⟨List.nodup_nil, List.nil_subset _, rfl, fun _ _ hk => nomatch hk⟩ (by simp)
  intro fuel
  induction fuel with
  | zero =>
      intro c ks _ hp hfuel
      have := (hp.nodup.subperm hp.subset).length_le
      omega
  | succ fuel ih =>
      intro c ks hc hp hfuel
      cases hr : chunkRound cutoffTS clock c with
      | ok r =>
          cases r with
          | inl c' =>
              obtain ⟨k, hp'⟩ := hc.passed_step hp hr
              rw [runRounds_next hr]
              exact ih c' (k :: ks) (hc.step hr) hp' (by rw [List.length_cons]; omega)
          | inr c' => exact ⟨c', runRounds_done hr⟩
      | error err =>
          rcases chunkRound_cases cutoffTS clock hc.ready with
            ⟨e, ⟨-, hget, -⟩, hround⟩ | ⟨e, -, -, hround⟩ | ⟨-, hround⟩
          · rcases cleanEntry_cases cutoffTS hget with ⟨hbad, -⟩ | ⟨-, hok⟩ | ⟨-, hok⟩
            · refine absurd (hvalid e.1 e.2 ?_) hbad
              rcases hc.kept e.1 with hk | ⟨hk, -⟩
              · rw [← hk, hget]
              · rw [hget] at hk
                cases hk
            · rw [hr, hok] at hround
              cases hround
            · rw [hr, hok] at hround
              cases hround
          · rw [hr] at hround
            cases hround
          · rw [hr] at hround
            cases hround

end LightningStream.Sweeper
