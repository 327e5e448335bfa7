import LightningStream.Lmdb

/-!
# The limit scanner

`LimitScanner` walks over a DBI in chunks. A chunk ends at the end of the DBI,
or when a number of records or the time is up; the next chunk then resumes at
the entry where the last one was, in a DBI that may have changed since.

`lmdbscan` is known here by its documentation: `Set` positions at once, and the
next `Scan` returns the entry it found. A clock reading is a parameter of each
scan, as the number of entries scanned before it.
-/

namespace LightningStream.Lmdb

/-! ## The scanner of `lmdbscan` -/

inductive Scanner
  /-- Not yet positioned. -/
  | fresh
  /-- On an entry; with `pending`, the next `Scan` returns it. -/
  | on (entry : Bytes × Bytes) (pending : Bool)
  /-- A move found nothing. -/
  | ended
deriving DecidableEq

namespace Scanner

/-- `Key` and `Val`. -/
def entry : Scanner → Option (Bytes × Bytes)
  | .on e _ => some e
  | _ => none

def place (pending : Bool) : Option (Bytes × Bytes) → Scanner
  | some e => .on e pending
  | none => .ended

def scan (d : Dbi) : Scanner → Scanner
  | .fresh => place false (d.next none)
  | .on e true => .on e false
  | .on e false => place false (d.next (some e.1))
  | .ended => .ended

/-- `Set` with `SetRange`. -/
def setRange (d : Dbi) (k : Bytes) : Scanner → Scanner
  | .ended => .ended
  | _ => place true (d.seek k)

/-- `Set` with `Next`. -/
def setNext (d : Dbi) : Scanner → Scanner
  | .fresh => place true (d.next none)
  | .on e _ => place true (d.next (some e.1))
  | .ended => .ended

@[simp] theorem entry_place (b : Bool) (e : Option (Bytes × Bytes)) : (place b e).entry = e := by
  cases e <;> rfl

@[simp] theorem scan_place (d : Dbi) (e : Option (Bytes × Bytes)) :
    (place true e).scan d = place false e := by
  cases e <;> rfl

end Scanner

/-! ## The limits -/

structure ScanOptions where
  limitRecords : ℤ
  limitDuration : ℤ
  limitDurationCheckEvery : ℤ
  /-- The `LimitCursor` of the chunk before. -/
  last : Option (Bytes × Bytes)
deriving DecidableEq

structure LimitScanner where
  opt : ScanOptions
  sc : Scanner
  count : ℕ
  /-- Whether there is a deadline. -/
  deadline : Bool
  limitReached : Bool
deriving DecidableEq

def limitDurationCheckEveryDefault : ℤ := 1000

def newLimitScanner (opt : ScanOptions) : LimitScanner where
  opt := if opt.limitDurationCheckEvery ≤ 0 then
    { opt with limitDurationCheckEvery := limitDurationCheckEveryDefault } else opt
  sc := .fresh
  count := 0
  deadline := decide (0 < opt.limitDuration)
  limitReached := false

namespace LimitScanner

/-- Set the initial position: where the last chunk was, or behind it if that
entry is still there as it was. -/
def resume (d : Dbi) (s : LimitScanner) : LimitScanner :=
  match s.opt.last with
  | none => s
  | some last =>
      let sc := s.sc.setRange d last.1
      { s with sc := if sc.entry = some last then sc.setNext d else sc }

def outOfRecords (s : LimitScanner) : Bool :=
  decide (0 < s.opt.limitRecords) && decide (s.opt.limitRecords ≤ s.count)

/-- `late` says that it is after the deadline. -/
def outOfTime (s : LimitScanner) (late : Bool) : Bool :=
  decide (0 < s.opt.limitDurationCheckEvery) && decide (0 < s.count) &&
    decide ((s.count : ℤ) % s.opt.limitDurationCheckEvery = 0) && s.deadline && late

def scan (clock : ℕ → Bool) (d : Dbi) (s : LimitScanner) : Bool × LimitScanner :=
  if s.limitReached then (false, s)
  else
    let s := if s.count = 0 then s.resume d else s
    if s.outOfRecords || s.outOfTime (clock s.count) then (false, { s with limitReached := true })
    else
      let sc := s.sc.scan d
      (sc.entry.isSome, { s with sc := sc, count := s.count + 1 })

/-- `Cursor`, without its second result, the field `limitReached`. -/
def cursor (s : LimitScanner) : Option (Bytes × Bytes) := s.sc.entry

end LimitScanner

/-! ## What a scan returns -/

/-- The keys of a chunk that resumes in the DBI `d`: those behind the last entry,
and its own key if the entry has changed. -/
def ScanOptions.Scope (opt : ScanOptions) (d : Dbi) (j : Bytes) : Prop :=
  match opt.last with
  | none => True
  | some last => d.before last.1 j ∨ j = last.1 ∧ d.get last.1 ≠ some last.2

namespace LimitScanner

variable {s : LimitScanner} {d : Dbi}

/-- The keys that a scanner is still to come to. -/
def Ahead (s : LimitScanner) (d : Dbi) (j : Bytes) : Prop :=
  match s.sc with
  | .fresh => s.opt.Scope d j
  | .on e _ => d.before e.1 j
  | .ended => False

/-- A scanner between two calls of `Scan`, the last of which returned an entry. -/
structure Ready (s : LimitScanner) : Prop where
  open_ : s.limitReached = false
  placed : s.count = 0 ∧ s.sc = .fresh ∨ 0 < s.count ∧ ∃ e, s.sc = .on e false

theorem ready_new (opt : ScanOptions) : (newLimitScanner opt).Ready :=
  ⟨rfl, Or.inl ⟨rfl, rfl⟩⟩

theorem scope_new (opt : ScanOptions) (j : Bytes) :
    (newLimitScanner opt).Ahead d j ↔ opt.Scope d j := by
  show (newLimitScanner opt).opt.Scope d j ↔ _
  unfold newLimitScanner
  split <;> rfl

theorem resume_eq : s.resume d = { s with sc := (s.resume d).sc } := by
  unfold resume
  split <;> rfl

/-- After the initial position is set, the first scan returns the first entry in
scope. -/
theorem resume_scan (hfresh : s.sc = .fresh) :
    ∃ e, (s.resume d).sc.scan d = .place false e ∧ d.Least (s.opt.Scope d) e := by
  unfold resume ScanOptions.Scope
  cases hlast : s.opt.last with
  | none => exact ⟨d.next none, by rw [hfresh]; rfl, d.first_least⟩
  | some last =>
      obtain ⟨k, v⟩ := last
      have hseek := d.seek_least k
      simp only [hfresh, Scanner.setRange, Scanner.entry_place]
      by_cases heq : d.seek k = some (k, v)
      · -- the last entry is still there
        rw [heq] at hseek
        have hget : d.get k = some v := hseek.2.1
        refine ⟨d.next (some k), ?_, ?_⟩
        · rw [if_pos heq, heq]
          exact Scanner.scan_place d _
        · exact (d.next_least k).congr fun j _ => by simp [hget]
      · refine ⟨d.seek k, by rw [if_neg heq, Scanner.scan_place], hseek.congr fun j hj => ?_⟩
        constructor
        · intro hle
          rcases hle.lt_or_eq with hlt | hrank
          · exact Or.inl hlt
          · obtain rfl := KeyFlags.rank_inj.mp hrank
            refine Or.inr ⟨rfl, fun hget => heq ?_⟩
            -- the key itself is the first one at or above it
            cases hs : d.seek k with
            | none =>
                rw [hs] at hseek
                exact absurd le_rfl (hseek k hj)
            | some e =>
                rw [hs] at hseek
                have hk : k = e.1 := KeyFlags.rank_inj.mp
                  (le_antisymm hseek.1 (hseek.2.2 k hj le_rfl))
                have hv : some v = some e.2 := by
                  rw [← hget, hk]
                  exact hseek.2.1
                rw [hk, Option.some.inj hv]
        · rintro (hlt | ⟨rfl, -⟩)
          · exact le_of_lt hlt
          · exact le_rfl

/-- **What a scan does**: it is stopped by a limit, and stays on the entry it
returned before; or it returns the first entry that is ahead; or there is none. -/
theorem scan_cases (clock : ℕ → Bool) (d : Dbi) (h : s.Ready) :
    (s.scan clock d = (false, { s with limitReached := true }) ∧
      (s.outOfRecords || s.outOfTime (clock s.count)) = true ∧ ∃ e, s.sc = .on e false) ∨
    ∃ e, d.Least (s.Ahead d) e ∧
      s.scan clock d = (e.isSome, { s with sc := .place false e, count := s.count + 1 }) := by
  obtain ⟨hopen, ⟨hcount, hfresh⟩ | ⟨hcount, e, hon⟩⟩ := h
  · right
    obtain ⟨e, hscan, hleast⟩ := resume_scan (d := d) hfresh
    refine ⟨e, by unfold Ahead; rw [hfresh]; exact hleast, ?_⟩
    obtain ⟨sc, hsc⟩ : ∃ sc, s.resume d = { s with sc := sc } := ⟨_, resume_eq⟩
    rw [hsc] at hscan
    unfold scan
    simp only [hopen, Bool.false_eq_true, if_false, if_pos hcount, hsc]
    -- no limit is checked before the first entry
    rw [if_neg (by simp [outOfRecords, outOfTime, hcount]), hscan, Scanner.entry_place]
  · have hne : s.count ≠ 0 := by omega
    unfold scan
    simp only [hopen, Bool.false_eq_true, if_false, if_neg hne]
    split
    · rename_i hlimit
      exact Or.inl ⟨rfl, hlimit, e, hon⟩
    · right
      refine ⟨d.next (some e.1), by unfold Ahead; rw [hon]; exact d.next_least e.1, ?_⟩
      rw [hon]
      simp [Scanner.scan]

/-- A limit stops a scanner that is on an entry. -/
theorem scan_stop {clock : ℕ → Bool} (h : s.Ready) (hcount : s.count ≠ 0)
    (hlimit : s.outOfTime (clock s.count) = true) :
    s.scan clock d = (false, { s with limitReached := true }) := by
  unfold scan
  simp only [h.open_, Bool.false_eq_true, if_false, if_neg hcount, hlimit, Bool.or_true, if_true]

/-- Without a limit a scanner goes on. -/
theorem scan_go {clock : ℕ → Bool} (h : s.Ready) (hrec : s.outOfRecords = false)
    (htime : s.outOfTime (clock s.count) = false) :
    ∃ e, d.Least (s.Ahead d) e ∧
      s.scan clock d = (e.isSome, { s with sc := .place false e, count := s.count + 1 }) := by
  rcases scan_cases clock d h with ⟨-, hlimit, -⟩ | hgo
  · rw [hrec, htime] at hlimit
    cases hlimit
  · exact hgo

end LimitScanner

end LightningStream.Lmdb
