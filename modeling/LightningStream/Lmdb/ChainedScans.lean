import LightningStream.Base.Rounds
import LightningStream.Lmdb.LimitScanner

/-!
# Chained limit scans

A DBI can be walked over in chunks, each with a new `LimitScanner` that starts
from the `Cursor` of the one before, until one of them is not stopped by a limit.
Between two chunks entries that have been visited may be deleted, the one at the
cursor included. Together the chunks visit every entry once, in the order of the
DBI (`chained_scans_cover`).
-/

namespace LightningStream.Lmdb

/-! ## One scan -/

/-- A scanner and the entries it has returned. -/
structure Visiting where
  ls : LimitScanner
  seen : List (Bytes × Bytes)
deriving DecidableEq

/-- A round of `for ls.Scan()`. -/
def scanRound (clock : ℕ → Bool) (d : Dbi) (v : Visiting) :
    Except (Fault Empty) (Visiting ⊕ Visiting) :=
  match v.ls.scan clock d with
  | (true, ls) => .ok (.inl ⟨ls, v.seen ++ ls.cursor.toList⟩)
  | (false, ls) => .ok (.inr ⟨ls, v.seen⟩)

/-- All that a new scanner returns. -/
def scanAll (clock : ℕ → Bool) (opt : ScanOptions) (d : Dbi) : Except (Fault Empty) Visiting :=
  runRounds (scanRound clock d) (d.entries.length + 1) ⟨newLimitScanner opt, []⟩

/-! ## The chain -/

/-- One scan of a chain: its limits, whether it is after the deadline when that many
entries have been returned, and the visited keys that are deleted after it. -/
structure Stage where
  limitRecords : ℤ
  limitDuration : ℤ
  limitDurationCheckEvery : ℤ
  clock : ℕ → Bool
  deletes : Bytes → Bool

def Stage.options (st : Stage) (last : Option (Bytes × Bytes)) : ScanOptions :=
  ⟨st.limitRecords, st.limitDuration, st.limitDurationCheckEvery, last⟩

structure Chain where
  dbi : Dbi
  last : Option (Bytes × Bytes)
  /-- What the scans have returned, each with its `limitReached`. -/
  scans : List (List (Bytes × Bytes) × Bool)
deriving DecidableEq

namespace Chain

def start (d : Dbi) : Chain := ⟨d, none, []⟩

def visited (c : Chain) : List (Bytes × Bytes) := (c.scans.map Prod.fst).flatten

end Chain

def Dbi.eraseAll (d : Dbi) (ks : List Bytes) : Dbi := ks.foldl Dbi.erase d

/-- The next scan, from the cursor of the last one. The stages are counted by the
scans that have been made. -/
def chainRound (stages : ℕ → Stage) (c : Chain) : Except (Fault Empty) (Chain ⊕ Chain) := do
  let st := stages c.scans.length
  let v ← scanAll st.clock (st.options c.last) c.dbi
  let scans := c.scans ++ [(v.seen, v.ls.limitReached)]
  if v.ls.limitReached then
    let seen := (c.visited ++ v.seen).map Prod.fst
    .ok (.inl ⟨c.dbi.eraseAll (seen.filter st.deletes), v.ls.cursor, scans⟩)
  else .ok (.inr ⟨c.dbi, v.ls.cursor, scans⟩)

/-! ## What is left to visit -/

namespace Dbi

variable {d : Dbi}

theorem before_trans {i j k : Bytes} (h : d.before i j) (h' : d.before j k) : d.before i k :=
  lt_trans h h'

theorem eraseAll_flags (ks : List Bytes) : (d.eraseAll ks).flags = d.flags := by
  induction ks generalizing d with
  | nil => rfl
  | cons k ks ih => exact ih

theorem get_eraseAll (ks : List Bytes) (j : Bytes) :
    (d.eraseAll ks).get j = if j ∈ ks then none else d.get j := by
  induction ks generalizing d with
  | nil => rfl
  | cons k ks ih =>
      rw [eraseAll, List.foldl_cons]
      refine ih.trans ?_
      rw [get_erase]
      by_cases hk : j = k <;> simp [hk]

/-- The entries whose keys have a property, in order. -/
structure Remaining (d : Dbi) (P : Bytes → Prop) (es : List (Bytes × Bytes)) : Prop where
  sorted : es.Pairwise fun a b => d.before a.1 b.1
  mem_iff : ∀ e, e ∈ es ↔ d.get e.1 = some e.2 ∧ P e.1

variable {P : Bytes → Prop} {es : List (Bytes × Bytes)}

theorem Remaining.congr {Q : Bytes → Prop} (h : d.Remaining P es)
    (hPQ : ∀ j ∈ d.keys, P j ↔ Q j) : d.Remaining Q es := by
  refine ⟨h.sorted, fun e => ?_⟩
  rw [h.mem_iff]
  constructor
  · rintro ⟨hget, hP⟩
    exact ⟨hget, (hPQ e.1 (mem_keys_iff.mpr ⟨_, hget⟩)).mp hP⟩
  · rintro ⟨hget, hQ⟩
    exact ⟨hget, (hPQ e.1 (mem_keys_iff.mpr ⟨_, hget⟩)).mpr hQ⟩

/-- The first of them is the head of the list. -/
theorem Remaining.least {e : Option (Bytes × Bytes)} (h : d.Remaining P es)
    (hleast : d.Least P e) : e = es.head? := by
  cases e with
  | none =>
      cases es with
      | nil => rfl
      | cons x es =>
          obtain ⟨hget, hP⟩ := (h.mem_iff x).mp List.mem_cons_self
          exact absurd hP (hleast x.1 (mem_keys_iff.mpr ⟨_, hget⟩))
  | some e =>
      obtain ⟨hP, hget, hmin⟩ := hleast
      have hmem : e ∈ es := (h.mem_iff e).mpr ⟨hget, hP⟩
      cases es with
      | nil => cases hmem
      | cons x es =>
          obtain ⟨hx, hPx⟩ := (h.mem_iff x).mp List.mem_cons_self
          rcases List.mem_cons.mp hmem with rfl | hmem
          · rfl
          · have hlt := (List.pairwise_cons.mp h.sorted).1 e hmem
            have hle := hmin x.1 (mem_keys_iff.mpr ⟨_, hx⟩) hPx
            exact absurd hlt (not_lt.mpr hle)

theorem Remaining.tail {e : Bytes × Bytes} (h : d.Remaining P (e :: es))
    (hup : ∀ j, d.before e.1 j → P j) : d.Remaining (d.before e.1) es := by
  obtain ⟨hhead, htail⟩ := List.pairwise_cons.mp h.sorted
  refine ⟨htail, fun x => ⟨fun hx => ⟨?_, hhead x hx⟩, fun ⟨hget, hlt⟩ => ?_⟩⟩
  · exact ((h.mem_iff x).mp (List.mem_cons_of_mem _ hx)).1
  · rcases List.mem_cons.mp ((h.mem_iff x).mpr ⟨hget, hup x.1 hlt⟩) with rfl | hx
    · exact absurd hlt (lt_irrefl _)
    · exact hx

end Dbi

/-! ## What one scan visits -/

namespace LimitScanner

variable {s : LimitScanner} {d : Dbi}

theorem Ahead.mono {j k : Bytes} (h : s.Ahead d j) (hjk : d.before j k) : s.Ahead d k := by
  unfold Ahead at h ⊢
  cases hsc : s.sc with
  | fresh =>
      rw [hsc] at h
      unfold ScanOptions.Scope at h ⊢
      cases hlast : s.opt.last with
      | none => trivial
      | some last =>
          rw [hlast] at h
          rcases h with hlt | ⟨rfl, -⟩
          · exact Or.inl (Dbi.before_trans hlt hjk)
          · exact Or.inl hjk
  | on e pending =>
      rw [hsc] at h
      exact Dbi.before_trans h hjk
  | ended =>
      rw [hsc] at h
      exact h.elim

/-- An entry is returned only while there are fewer than the limit. -/
theorem count_lt_of_scan (clock : ℕ → Bool) (d : Dbi) (hlimit : 1 ≤ s.opt.limitRecords)
    (h : (s.scan clock d).1 = true) : (s.count : ℤ) < s.opt.limitRecords := by
  by_cases hcount : s.count = 0
  · omega
  · unfold scan at h
    rw [if_neg hcount] at h
    by_contra hge
    have hout : s.outOfRecords = true := by
      simp only [outOfRecords, Bool.and_eq_true, decide_eq_true_eq]
      omega
    simp only [hout, Bool.true_or, if_true] at h
    split at h <;> cases h

end LimitScanner

namespace Visiting

/-- A scanner that has returned the entries seen, and may go on. -/
structure Tracks (v : Visiting) (limit : ℤ) : Prop where
  ready : v.ls.Ready
  limit_eq : v.ls.opt.limitRecords = limit
  count : v.ls.count = v.seen.length
  cursor : v.ls.cursor = v.seen.getLast?
  within : (v.seen.length : ℤ) ≤ limit

/-- A scan that has ended, with the entries it has not come to. -/
structure Ended (v : Visiting) (limit : ℤ) (rest : List (Bytes × Bytes)) : Prop where
  within : (v.seen.length : ℤ) ≤ limit
  limited : v.ls.limitReached = true → v.seen ≠ [] ∧ v.ls.cursor = v.seen.getLast?
  complete : v.ls.limitReached = false → rest = []

theorem tracks_new {opt : ScanOptions} (h : 1 ≤ opt.limitRecords) :
    Tracks ⟨newLimitScanner opt, []⟩ opt.limitRecords where
  ready := LimitScanner.ready_new opt
  limit_eq := by
    show (if opt.limitDurationCheckEvery ≤ 0 then _ else opt).limitRecords = _
    split <;> rfl
  count := rfl
  cursor := rfl
  within := by
    rw [List.length_nil]
    omega

variable {clock : ℕ → Bool} {d : Dbi} {limit : ℤ} {v : Visiting} {es : List (Bytes × Bytes)}

/-- A round ends the scan, or visits the first entry that is left. -/
theorem Tracks.round (clock : ℕ → Bool) (hlimit : 1 ≤ limit) (h : v.Tracks limit)
    (hes : d.Remaining (v.ls.Ahead d) es) :
    (∃ v', scanRound clock d v = .ok (.inr v') ∧ v'.seen = v.seen ∧ v'.Ended limit es) ∨
    ∃ e rest v', es = e :: rest ∧ scanRound clock d v = .ok (.inl v') ∧
      v'.seen = v.seen ++ [e] ∧ v'.Tracks limit ∧ d.Remaining (v'.ls.Ahead d) rest := by
  unfold scanRound
  rcases LimitScanner.scan_cases clock d h.ready with ⟨hscan, -, e, hon⟩ | ⟨e, hleast, hscan⟩
  · -- stopped by a limit
    left
    rw [hscan]
    refine ⟨_, rfl, rfl, h.within, fun _ => ⟨?_, h.cursor⟩, fun hfalse => ?_⟩
    · have hcursor := h.cursor
      rw [LimitScanner.cursor, hon] at hcursor
      intro hnil
      rw [hnil] at hcursor
      cases hcursor
    · cases hfalse
  · obtain rfl := hes.least hleast
    cases es with
    | nil =>
        left
        rw [hscan]
        refine ⟨_, rfl, rfl, h.within, fun htrue => ?_, fun _ => rfl⟩
        rw [h.ready.open_] at htrue
        cases htrue
    | cons e rest =>
        right
        have hlt := LimitScanner.count_lt_of_scan clock d (h.limit_eq ▸ hlimit)
          (by rw [hscan]; rfl)
        rw [hscan]
        refine ⟨e, rest, ⟨{ v.ls with sc := .on e false, count := v.ls.count + 1 }, v.seen ++ [e]⟩,
          rfl, rfl, rfl, ⟨⟨h.ready.open_, Or.inr ⟨Nat.succ_pos _, e, rfl⟩⟩, h.limit_eq, ?_, ?_, ?_⟩,
          ?_⟩
        · rw [List.length_append, ← h.count]
          rfl
        · exact List.getLast?_concat.symm
        · rw [h.limit_eq, h.count] at hlt
          rw [List.length_append, List.length_singleton]
          omega
        · exact hes.tail fun j hj => (((hes.mem_iff e).mp List.mem_cons_self).2).mono hj

/-- A scan visits the entries that are left, up to where a limit stops it. -/
theorem Tracks.run (clock : ℕ → Bool) (hlimit : 1 ≤ limit) :
    ∀ {es : List (Bytes × Bytes)} {v : Visiting} {fuel : ℕ}, v.Tracks limit →
      d.Remaining (v.ls.Ahead d) es → es.length < fuel →
      ∃ v' visited rest, runRounds (scanRound clock d) fuel v = .ok v' ∧ es = visited ++ rest ∧
        v'.seen = v.seen ++ visited ∧ v'.Ended limit rest := by
  intro es v fuel
  induction fuel generalizing es v with
  | zero =>
      intro _ _ hfuel
      omega
  | succ fuel ih =>
      intro h hes hfuel
      rcases h.round clock hlimit hes with
        ⟨v', hround, hseen, hended⟩ | ⟨e, rest, v', rfl, hround, hseen, h', hes'⟩
      · refine ⟨v', [], es, runRounds_done hround, rfl, ?_, hended⟩
        rw [hseen, List.append_nil]
      · have hfuel' : rest.length < fuel := by
          rw [List.length_cons] at hfuel
          omega
        obtain ⟨v'', visited, rest', hrun, rfl, hseen', hended⟩ := ih h' hes' hfuel'
        refine ⟨v'', e :: visited, rest', ?_, rfl, ?_, hended⟩
        · rw [runRounds_next hround, hrun]
        · rw [hseen', hseen, List.append_assoc]
          rfl

end Visiting

/-- What a scan from a cursor returns, if these entries are in its scope. -/
theorem scanAll_spec (clock : ℕ → Bool) {opt : ScanOptions} {d : Dbi} {es : List (Bytes × Bytes)}
    (hlimit : 1 ≤ opt.limitRecords) (hes : d.Remaining (opt.Scope d) es) :
    ∃ v rest, scanAll clock opt d = .ok v ∧ es = v.seen ++ rest ∧
      v.Ended opt.limitRecords rest := by
  have hahead : d.Remaining ((newLimitScanner opt).Ahead d) es :=
    hes.congr fun j _ => (LimitScanner.scope_new opt j).symm
  have hlen : es.length ≤ d.entries.length := by
    refine List.Nodup.length_le_of_subset ?_ fun e he => ?_
    · refine hes.sorted.imp fun {a b} hlt heq => ?_
      rw [heq] at hlt
      exact lt_irrefl _ hlt
    · exact Dbi.mem_entries_iff.mpr ((hes.mem_iff e).mp he).1
  obtain ⟨v, visited, rest, hrun, rfl, hseen, hended⟩ :=
    (Visiting.tracks_new hlimit).run clock hlimit hahead (Nat.lt_succ_of_le hlen)
  obtain rfl : v.seen = visited := hseen
  exact ⟨v, rest, hrun, rfl, hended⟩

/-! ## What the chain visits -/

namespace Chain

/-- A chain on its way over the DBI `d`, with the entries still to visit. Nothing but
visited entries has been deleted. -/
structure Covers (c : Chain) (d : Dbi) (rest : List (Bytes × Bytes)) : Prop where
  split : d.entries = c.visited ++ rest
  flags : c.dbi.flags = d.flags
  get : ∀ k, c.dbi.get k = d.get k ∨ c.dbi.get k = none ∧ k ∈ c.visited.map Prod.fst
  last : c.last = c.visited.getLast?

variable {c : Chain} {d : Dbi} {rest : List (Bytes × Bytes)}

theorem covers_start (d : Dbi) : (start d).Covers d d.entries :=
  ⟨rfl, rfl, fun _ => Or.inl rfl, rfl⟩

theorem Covers.before (h : c.Covers d rest) :
    ∀ a ∈ c.visited, ∀ b ∈ rest, d.before a.1 b.1 :=
  (List.pairwise_append.mp (h.split ▸ d.entries_sorted)).2.2

theorem Covers.mem_entries (h : c.Covers d rest) {e : Bytes × Bytes}
    (hget : c.dbi.get e.1 = some e.2) : e ∈ c.visited ∨ e ∈ rest := by
  rcases h.get e.1 with hk | ⟨hk, -⟩
  · rw [← List.mem_append, ← h.split]
    exact Dbi.mem_entries_iff.mpr (hk ▸ hget)
  · rw [hk] at hget
    cases hget

theorem Covers.get_rest (h : c.Covers d rest) {e : Bytes × Bytes} (he : e ∈ rest) :
    c.dbi.get e.1 = some e.2 := by
  rcases h.get e.1 with hk | ⟨-, hk⟩
  · rw [hk, ← Dbi.mem_entries_iff, h.split]
    exact List.mem_append_right _ he
  · obtain ⟨a, ha, heq⟩ := List.mem_map.mp hk
    have hlt := h.before a ha e he
    rw [heq] at hlt
    exact absurd hlt (lt_irrefl _)

/-- The next scan has the entries still to visit in its scope, and no others. -/
theorem Covers.remaining (h : c.Covers d rest) (opt : ScanOptions) (hlast : opt.last = c.last) :
    c.dbi.Remaining (opt.Scope c.dbi) rest := by
  have hsorted := h.split ▸ d.entries_sorted
  have hbefore : ∀ j k, c.dbi.before j k ↔ d.before j k := by
    intro j k
    rw [Dbi.before, Dbi.before, h.flags]
  refine ⟨(List.pairwise_append.mp hsorted).2.1.imp fun hlt => (hbefore _ _).mpr hlt, ?_⟩
  intro e
  unfold ScanOptions.Scope
  rw [hlast, h.last]
  rcases List.eq_nil_or_concat c.visited with hnil | ⟨before, last, hvisited⟩
  · -- nothing has been visited
    rw [hnil]
    refine ⟨fun he => ⟨h.get_rest he, trivial⟩, ?_⟩
    rintro ⟨hget, -⟩
    rcases h.mem_entries hget with he | he
    · rw [hnil] at he
      cases he
    · exact he
  · have hmem : last ∈ c.visited := by simp [hvisited]
    have hend : c.visited.getLast? = some last := by simp [hvisited]
    rw [hend]
    refine ⟨fun he => ⟨h.get_rest he, Or.inl ((hbefore _ _).mpr (h.before last hmem e he))⟩, ?_⟩
    rintro ⟨hget, hscope⟩
    refine (h.mem_entries hget).resolve_left fun he => ?_
    rcases hscope with hlt | ⟨heq, hchanged⟩
    · -- a visited entry is not behind the last one
      have hsplit : c.visited.Pairwise fun a b => d.before a.1 b.1 :=
        (List.pairwise_append.mp hsorted).1
      rw [hvisited, List.concat_eq_append] at he hsplit
      rcases List.mem_append.mp he with he | he
      · have hgt := (List.pairwise_append.mp hsplit).2.2 e he last List.mem_cons_self
        exact lt_asymm ((hbefore _ _).mp hlt) hgt
      · rw [List.mem_singleton.mp he] at hlt
        exact lt_irrefl _ hlt
    · refine hchanged ?_
      have hd : d.get last.1 = some last.2 := by
        rw [← Dbi.mem_entries_iff, h.split]
        exact List.mem_append_left _ hmem
      rw [← heq, hget, ← hd, ← heq]
      rcases h.get e.1 with hk | ⟨hk, -⟩
      · rw [← hk, hget]
      · rw [hk] at hget
        cases hget

theorem visited_concat {c' : Chain} {es : List (Bytes × Bytes)} {limited : Bool}
    (h : c'.scans = c.scans ++ [(es, limited)]) : c'.visited = c.visited ++ es := by
  simp [visited, h]

/-- Entries are visited, and then some of the visited ones deleted. -/
theorem Covers.delete {es : List (Bytes × Bytes)} (h : c.Covers d (es ++ rest)) (hne : es ≠ [])
    (deletes : Bytes → Bool) :
    Covers ⟨c.dbi.eraseAll (((c.visited ++ es).map Prod.fst).filter deletes), es.getLast?,
      c.scans ++ [(es, true)]⟩ d rest := by
  have hvisited : visited ⟨c.dbi.eraseAll (((c.visited ++ es).map Prod.fst).filter deletes),
      es.getLast?, c.scans ++ [(es, true)]⟩ = c.visited ++ es := visited_concat rfl
  refine ⟨?_, ?_, ?_, ?_⟩
  · rw [hvisited, List.append_assoc, h.split]
  · rw [← h.flags]
    exact Dbi.eraseAll_flags _
  · intro k
    rw [hvisited]
    show (c.dbi.eraseAll _).get k = _ ∨ (c.dbi.eraseAll _).get k = none ∧ _
    rw [Dbi.get_eraseAll]
    split
    · rename_i hk
      exact Or.inr ⟨rfl, (List.mem_filter.mp hk).1⟩
    · refine (h.get k).imp_right fun ⟨hnone, hk⟩ => ⟨hnone, ?_⟩
      rw [List.map_append]
      exact List.mem_append_left _ hk
  · rw [hvisited, List.getLast?_append_of_ne_nil _ hne]

variable {stages : ℕ → Stage}

/-- A scan ends the chain, with all entries visited, or is stopped by a limit after
at least one entry. -/
theorem Covers.round (hlimit : ∀ i, 1 ≤ (stages i).limitRecords) (h : c.Covers d rest) :
    ∃ es rest', rest = es ++ rest' ∧
      (es.length : ℤ) ≤ (stages c.scans.length).limitRecords ∧
      ((∃ c', chainRound stages c = .ok (.inr c') ∧ c'.scans = c.scans ++ [(es, false)] ∧
        rest' = []) ∨
      ∃ c', chainRound stages c = .ok (.inl c') ∧ c'.scans = c.scans ++ [(es, true)] ∧
        es ≠ [] ∧ c'.Covers d rest') := by
  set st := stages c.scans.length with hst
  obtain ⟨v, rest', hscan, rfl, hended⟩ := scanAll_spec st.clock (hlimit c.scans.length)
    (h.remaining (st.options c.last) rfl)
  refine ⟨v.seen, rest', rfl, hended.within, ?_⟩
  unfold chainRound
  rw [← hst]
  simp only [hscan, bind, Except.bind]
  cases hreached : v.ls.limitReached with
  | false => exact Or.inl ⟨_, rfl, rfl, hended.complete hreached⟩
  | true =>
      obtain ⟨hne, hcursor⟩ := hended.limited hreached
      refine Or.inr ⟨_, rfl, rfl, hne, ?_⟩
      rw [hcursor]
      exact h.delete hne st.deletes

/-- The scans keep to their limits, and those that were stopped have visited something. -/
def Bounded (stages : ℕ → Stage) (c : Chain) : Prop :=
  ∀ i es limited, c.scans[i]? = some (es, limited) →
    (es.length : ℤ) ≤ (stages i).limitRecords ∧ (limited = true → 1 ≤ es.length)

/-- All scans but the last one were stopped by a limit. -/
def OnlyLastEnded (c : Chain) : Prop :=
  ∃ before es, c.scans = before ++ [(es, false)] ∧ ∀ s ∈ before, s.2 = true

theorem Bounded.snoc {c' : Chain} {es : List (Bytes × Bytes)} {limited : Bool}
    (h : c.Bounded stages) (hscans : c'.scans = c.scans ++ [(es, limited)])
    (hle : (es.length : ℤ) ≤ (stages c.scans.length).limitRecords)
    (hne : limited = true → es ≠ []) : c'.Bounded stages := by
  intro i fs b hi
  rw [hscans] at hi
  rcases Nat.lt_or_ge i c.scans.length with hlt | hge
  · rw [List.getElem?_append_left hlt] at hi
    exact h i fs b hi
  · rw [List.getElem?_append_right hge] at hi
    obtain ⟨hlt, -⟩ := List.getElem?_eq_some_iff.mp hi
    rw [List.length_singleton] at hlt
    obtain rfl : i = c.scans.length := by omega
    rw [Nat.sub_self] at hi
    obtain ⟨rfl, rfl⟩ := Prod.mk.inj (Option.some.inj hi)
    exact ⟨hle, fun hlimited => List.length_pos_iff.mpr (hne hlimited)⟩

theorem Covers.run (hlimit : ∀ i, 1 ≤ (stages i).limitRecords) :
    ∀ {fuel : ℕ} {c : Chain} {rest : List (Bytes × Bytes)}, c.Covers d rest →
      c.Bounded stages → (∀ s ∈ c.scans, s.2 = true) → rest.length < fuel →
      ∃ c', runRounds (chainRound stages) fuel c = .ok c' ∧ c'.visited = d.entries ∧
        c'.Bounded stages ∧ c'.OnlyLastEnded := by
  intro fuel
  induction fuel with
  | zero =>
      intro c rest _ _ _ hfuel
      omega
  | succ fuel ih =>
      intro c rest h hb hall hfuel
      obtain ⟨es, rest', rfl, hle, ⟨c', hround, hscans, rfl⟩ | ⟨c', hround, hscans, hne, h'⟩⟩ :=
        h.round hlimit
      · refine ⟨c', runRounds_done hround, ?_, ?_, c.scans, es, hscans, hall⟩
        · rw [visited_concat hscans, h.split, List.append_nil]
        · exact hb.snoc hscans hle fun hfalse => nomatch hfalse
      · have hfuel' : rest'.length < fuel := by
          have hpos := List.length_pos_iff.mpr hne
          rw [List.length_append] at hfuel
          omega
        have hall' : ∀ s ∈ c'.scans, s.2 = true := by
          intro s hs
          rw [hscans] at hs
          rcases List.mem_append.mp hs with hs | hs
          · exact hall s hs
          · rw [List.mem_singleton.mp hs]
        rw [runRounds_next hround]
        exact ih h' (hb.snoc hscans hle fun _ => hne) hall' hfuel'

end Chain

/-- **Chained scans visit every entry once, in order.** Whatever the limits are, when
the time is up, and which visited entries are deleted between the scans, the chain ends
after at most one scan more than there are entries. A scan stays within its limit, and
one that was stopped has visited something. -/
theorem chained_scans_cover (d : Dbi) (stages : ℕ → Stage)
    (hlimit : ∀ i, 1 ≤ (stages i).limitRecords) :
    ∃ c, runRounds (chainRound stages) (d.entries.length + 1) (.start d) = .ok c ∧
      c.visited = d.entries ∧ c.Bounded stages ∧ c.OnlyLastEnded := by
  refine (Chain.covers_start d).run hlimit ?_ ?_ (Nat.lt_succ_self _)
  · intro i es limited hi
    cases hi
  · intro s hs
    cases hs

def threeEntries : Dbi :=
  ⟨.plain, ⟨[([1], [10]), ([2], [20]), ([3], [30])], by decide⟩, by decide⟩

/-- Scans of at most this many entries, after which everything visited is deleted. -/
def deletingStages (limit : ℤ) (_ : ℕ) : Stage := ⟨limit, 0, 0, fun _ => false, fun _ => true⟩

theorem chained_scans_cover_three : (∀ i, 1 ≤ (deletingStages 2 i).limitRecords) ∧
    ∃ c, runRounds (chainRound (deletingStages 2)) 4 (.start threeEntries) = .ok c ∧
      c.visited = [([1], [10]), ([2], [20]), ([3], [30])] ∧ c.Bounded (deletingStages 2) ∧
      c.OnlyLastEnded := by
  have hlimit : ∀ i, 1 ≤ (deletingStages 2 i).limitRecords := by
    intro i
    show (1 : ℤ) ≤ 2
    decide
  exact ⟨hlimit, chained_scans_cover threeEntries (deletingStages 2) hlimit⟩

-- a limit that falls on the last entry is followed by a scan of nothing
example : (runRounds (chainRound (deletingStages 3)) 4 (.start threeEntries)).map Chain.scans =
    .ok [([([1], [10]), ([2], [20]), ([3], [30])], true), ([], false)] := by
  decide +kernel

end LightningStream.Lmdb
