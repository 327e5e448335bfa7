import LightningStream.Sweeper.Environment

/-!
# A sweep that nobody interferes with

If nobody else writes and no transaction fails, a sweep comes to its end after at
most as many transactions as there are entries and DBIs to be swept. It has then
removed the stale markers, and its counters tell what it removed and what it left.

A chunk takes entries off the front of those that remain behind the cursor
(`remaining`), and counts each as it takes it.
-/

namespace LightningStream.Sweeper

open Lmdb Snapshot

/-! ## What there is to count -/

/-- Whether a value is a deletion marker, stale or not. -/
def isMarker (val : Bytes) : Bool :=
  match Header.parse val with
  | .error _ => false
  | .ok (h, _) => Header.isDeleted h.flags

/-- What a sweep leaves of a value. -/
def swept (cutoffTS : Timestamp) (val : Option Bytes) : Option Bytes :=
  val.filter fun v => !isStale cutoffTS v

@[simp] theorem swept_none (cutoffTS : Timestamp) : swept cutoffTS none = none := rfl

theorem swept_some (cutoffTS : Timestamp) (v : Bytes) :
    swept cutoffTS (some v) = if isStale cutoffTS v then none else some v := by
  cases h : isStale cutoffTS v <;> simp [swept, Option.filter, h]

/-- The entries of the DBIs that are to be swept. -/
def entriesOf (c : Contents) (todo : List Bytes) : List (Bytes × Bytes) :=
  todo.flatMap fun n => (c.get n).elim [] Dbi.entries

/-- A sweep from `c` that has come to its end. -/
structure Completed (conf : Conf) (todo : List Bytes) (c : Contents) (s : Sweep) : Prop where
  outcome : s.outcome = .done
  flags : ∀ n, flagsOf s.contents n = flagsOf c n
  values : ∀ n j, valueAt s.contents n j =
    if n ∈ todo then swept conf.cutoffTS (valueAt c n j) else valueAt c n j
  nEntries : s.stats.nEntries =
    (entriesOf c todo).countP fun e => !isStale conf.cutoffTS e.2
  nDeleted : s.stats.nDeleted =
    (entriesOf c todo).countP fun e => isMarker e.2 && !isStale conf.cutoffTS e.2
  nCleaned : s.stats.nCleaned = (entriesOf c todo).countP fun e => isStale conf.cutoffTS e.2
  nTxn : s.stats.nTxn ≤ (entriesOf c todo).length + todo.length

/-! ## The counters -/

/-- The counters after some entries. -/
def Stats.addAll (cutoffTS : Timestamp) (st : Stats) (es : List (Bytes × Bytes)) : Stats where
  nEntries := st.nEntries + es.countP fun e => !isStale cutoffTS e.2
  nDeleted := st.nDeleted + es.countP fun e => isMarker e.2 && !isStale cutoffTS e.2
  nCleaned := st.nCleaned + es.countP fun e => isStale cutoffTS e.2
  nTxn := st.nTxn

section Counters

variable {cutoffTS : Timestamp} {st : Stats}

@[simp] theorem addAll_nil : st.addAll cutoffTS [] = st := rfl

theorem addAll_append (es fs : List (Bytes × Bytes)) :
    st.addAll cutoffTS (es ++ fs) = (st.addAll cutoffTS es).addAll cutoffTS fs := by
  simp only [Stats.addAll, List.countP_append, Nat.add_assoc]

/-- The loop counts a value that has a header. -/
theorem count_eq_addAll (e : Bytes × Bytes) (h : Parses e.2) :
    st.count cutoffTS e.2 = st.addAll cutoffTS [e] := by
  obtain ⟨⟨hd, app⟩, hp⟩ := h
  unfold Stats.count Stats.addAll
  simp only [List.countP_singleton, isStale, isMarker, hp]
  by_cases hdel : Header.isDeleted hd.flags = true
  · by_cases hts : cutoffTS ≤ hd.timestamp
    · simp [hdel, hts, not_lt.mpr hts]
    · simp [hdel, hts, not_le.mp hts]
  · simp [hdel]

/-- The counters after some entries and transactions. -/
def Stats.after (cutoffTS : Timestamp) (st : Stats) (es : List (Bytes × Bytes)) (txns : ℕ) :
    Stats :=
  { st.addAll cutoffTS es with nTxn := st.nTxn + txns }

theorem after_addAll_countTxn (es fs : List (Bytes × Bytes)) (k : ℕ) :
    (st.countTxn.addAll cutoffTS es).after cutoffTS fs k =
      st.after cutoffTS (es ++ fs) (k + 1) := by
  unfold Stats.after
  rw [addAll_append]
  simp only [Stats.addAll, Stats.countTxn]
  congr 1
  omega

theorem after_after (es fs : List (Bytes × Bytes)) (k l : ℕ) :
    (st.after cutoffTS es k).after cutoffTS fs l = st.after cutoffTS (es ++ fs) (k + l) := by
  unfold Stats.after
  rw [addAll_append]
  simp only [Stats.addAll, Nat.add_assoc]

end Counters

/-! ## What remains behind a position -/

/-- The entries behind a position. -/
def remaining (d : Dbi) (pos : Option (Bytes × Bytes)) : List (Bytes × Bytes) :=
  d.entries.filter fun e => decide (Left d pos e.1)

section Remaining

variable {d : Dbi} {pos : Option (Bytes × Bytes)} {e : Bytes × Bytes} {j : Bytes}

theorem left_none : Left d none j := by
  rintro e ⟨⟩

theorem left_some : Left d (some e) j ↔ d.before e.1 j := by
  unfold Left
  simp

theorem remaining_none (d : Dbi) : remaining d none = d.entries := by
  unfold remaining
  rw [List.filter_eq_self]
  exact fun _ _ => decide_eq_true left_none

theorem mem_remaining : e ∈ remaining d pos ↔ d.get e.1 = some e.2 ∧ Left d pos e.1 := by
  unfold remaining
  rw [List.mem_filter, decide_eq_true_eq]
  exact and_congr_left fun _ => Dbi.mem_entries_iff

/-- The least of the entries that remain is the first. -/
theorem remaining_least (h : d.Least (Left d pos) (some e)) :
    remaining d pos = e :: remaining d (some e) := by
  obtain ⟨hleft, hget, hleast⟩ := h
  obtain ⟨es, fs, hsplit⟩ := List.append_of_mem (Dbi.mem_entries_iff.mpr hget)
  have hsorted := d.entries_sorted
  rw [show (e.1, e.2) = e from rfl] at hsplit
  rw [hsplit, List.pairwise_append] at hsorted
  obtain ⟨-, hfs, hes⟩ := hsorted
  -- before it, nothing remains; behind it, everything
  have hbefore : ∀ x ∈ es, ¬ Left d pos x.1 ∧ ¬ Left d (some e) x.1 := by
    intro x hx
    have hlt : d.flags.rank x.1 < d.flags.rank e.1 := hes x hx e List.mem_cons_self
    have hkey : x.1 ∈ d.keys := by
      refine List.mem_map_of_mem ?_
      rw [hsplit]
      exact List.mem_append_left _ hx
    refine ⟨fun hl => absurd (hleast x.1 hkey hl) (not_le.mpr hlt), ?_⟩
    rw [left_some]
    exact lt_asymm hlt
  have hbehind : ∀ x ∈ fs, Left d pos x.1 ∧ Left d (some e) x.1 := by
    intro x hx
    have hlt : d.flags.rank e.1 < d.flags.rank x.1 := (List.pairwise_cons.mp hfs).1 x hx
    exact ⟨fun p hp => lt_trans (hleft p hp) hlt, left_some.mpr hlt⟩
  have hself : ¬ Left d (some e) e.1 := by
    rw [left_some]
    exact lt_irrefl _
  have hnil : ∀ p, (∀ x ∈ es, ¬ Left d p x.1) →
      es.filter (fun x => decide (Left d p x.1)) = [] := by
    intro p hp
    rw [List.filter_eq_nil_iff]
    exact fun x hx => by simpa using hp x hx
  have hall : ∀ p, (∀ x ∈ fs, Left d p x.1) →
      fs.filter (fun x => decide (Left d p x.1)) = fs := by
    intro p hp
    rw [List.filter_eq_self]
    exact fun x hx => decide_eq_true (hp x hx)
  unfold remaining
  rw [hsplit, List.filter_append, List.filter_append, hnil pos fun x hx => (hbefore x hx).1,
    hnil (some e) fun x hx => (hbefore x hx).2, List.filter_cons_of_pos (by simpa using hleft),
    List.filter_cons_of_neg (by simpa using hself), hall pos fun x hx => (hbehind x hx).1,
    hall (some e) fun x hx => (hbehind x hx).2]
  rfl

theorem remaining_eq_nil (h : d.Least (Left d pos) none) : remaining d pos = [] := by
  rw [List.eq_nil_iff_forall_not_mem]
  intro e he
  obtain ⟨hget, hleft⟩ := mem_remaining.mp he
  exact h e.1 (Dbi.mem_keys_iff.mpr ⟨_, hget⟩) hleft

end Remaining

/-! ## A chunk -/

/-- A DBI that is swept up to a position. -/
structure SweptTo (cutoffTS : Timestamp) (d : Dbi) (pos : Option (Bytes × Bytes)) (d' : Dbi) :
    Prop where
  flags : d'.flags = d.flags
  values : ∀ j, d'.get j = if Left d pos j then d.get j else swept cutoffTS (d.get j)

section Chunk

variable {cutoffTS : Timestamp} {clock : ℕ → Bool} {opt : ScanOptions} {d d' : Dbi}
  {pos : Option (Bytes × Bytes)} {c : Chunk} {e : Bytes × Bytes} {j : Bytes} {st : Stats}

theorem SweptTo.of_left (h : SweptTo cutoffTS d pos d') (hj : Left d pos j) :
    d'.get j = d.get j := by
  rw [h.values, if_pos hj]

/-- The least entry behind the position is the same in the DBI that is swept up to it. -/
theorem SweptTo.least (h : SweptTo cutoffTS d pos d') {P : Bytes → Prop}
    (hP : ∀ k ∈ d'.keys, P k ↔ Left d pos k) {x : Option (Bytes × Bytes)}
    (hx : d'.Least P x) : d.Least (Left d pos) x := by
  have hback : ∀ k ∈ d.keys, Left d pos k → k ∈ d'.keys := by
    intro k hk hleft
    obtain ⟨v, hv⟩ := Dbi.mem_keys_iff.mp hk
    exact Dbi.mem_keys_iff.mpr ⟨v, by rw [h.of_left hleft, hv]⟩
  have hx := hx.congr hP
  cases x with
  | none => exact fun k hk hleft => hx k (hback k hk hleft) hleft
  | some e =>
      obtain ⟨hleft, hget, hleast⟩ := hx
      refine ⟨hleft, by rw [← h.of_left hleft, hget], fun k hk hk' => ?_⟩
      have := hleast k (hback k hk hk') hk'
      rwa [h.flags] at this

/-- The position moves behind the least entry, which goes if it is stale. -/
theorem SweptTo.move (h : SweptTo cutoffTS d pos d') (hleast : d.Least (Left d pos) (some e)) :
    (isStale cutoffTS e.2 = true → SweptTo cutoffTS d (some e) (d'.erase e.1)) ∧
      (isStale cutoffTS e.2 = false → SweptTo cutoffTS d (some e) d') := by
  obtain ⟨hleft, hget, hle⟩ := hleast
  have hself : ¬ Left d (some e) e.1 := by
    rw [left_some]
    exact lt_irrefl _
  have hother : ∀ j, j ≠ e.1 →
      d'.get j = if Left d (some e) j then d.get j else swept cutoffTS (d.get j) := by
    intro j hj
    rw [h.values]
    cases hv : d.get j with
    | none => rw [swept_none, ite_self, ite_self]
    | some v =>
        -- of the entries only this one is passed
        have hiff : Left d pos j ↔ Left d (some e) j := by
          rw [left_some]
          constructor
          · intro hl
            refine lt_of_le_of_ne (hle j (Dbi.mem_keys_iff.mpr ⟨v, hv⟩) hl) fun hrank => ?_
            exact hj (KeyFlags.rank_inj.mp hrank).symm
          · exact fun hlt p hp => lt_trans (hleft p hp) hlt
        simp only [hiff]
  constructor
  · intro hstale
    refine ⟨h.flags, fun j => ?_⟩
    rw [Dbi.get_erase]
    split
    · rename_i hj
      rw [hj, if_neg hself, hget, swept_some, if_pos hstale]
    · rename_i hj
      exact hother j hj
  · intro hfresh
    refine ⟨h.flags, fun j => ?_⟩
    by_cases hj : j = e.1
    · rw [hj, if_neg hself, h.of_left hleft, hget, swept_some, hfresh]
      rfl
    · exact hother j hj

/-- A chunk on its way through a DBI that nobody else writes to. -/
structure Visiting (cutoffTS : Timestamp) (d : Dbi) (pos : Option (Bytes × Bytes)) (c : Chunk) :
    Prop where
  ready : c.ls.Ready
  swept : SweptTo cutoffTS d pos c.txn.dbi
  ahead : ∀ k ∈ c.txn.dbi.keys, c.ls.Ahead c.txn.dbi k ↔ Left d pos k
  on : ∀ e, c.ls.sc = .on e false → pos = some e
  entry : ∀ e, pos = some e → d.get e.1 = some e.2

theorem visiting_start (hs : SweptTo cutoffTS d opt.last d')
    (hlast : ∀ e, opt.last = some e → d.get e.1 = some e.2) :
    Visiting cutoffTS d opt.last ⟨.start d', newLimitScanner opt⟩ where
  ready := LimitScanner.ready_new opt
  swept := hs
  ahead := by
    intro k hk
    rw [LimitScanner.scope_new]
    show opt.Scope d' k ↔ Left d opt.last k
    unfold ScanOptions.Scope
    cases ho : opt.last with
    | none => exact iff_of_true trivial left_none
    | some e =>
        rw [left_some]
        have hbefore : d'.before e.1 k ↔ d.before e.1 k := by
          unfold Dbi.before
          rw [hs.flags]
        refine ⟨fun h => ?_, fun h => Or.inl (hbefore.mpr h)⟩
        rcases h with h | ⟨rfl, hchanged⟩
        · exact hbefore.mp h
        · -- the last entry is as it was, or gone
          obtain ⟨v, hv⟩ := Dbi.mem_keys_iff.mp hk
          refine absurd ?_ hchanged
          have hself : ¬ Left d opt.last e.1 := by
            rw [ho, left_some]
            exact lt_irrefl _
          have hgone := hs.values e.1
          rw [if_neg hself, hlast e ho] at hgone
          change d'.get e.1 = some v at hv
          rw [hv] at hgone ⊢
          rw [(Option.filter_eq_some_iff.mp hgone.symm).1]
  on := by
    intro e he
    cases he
  entry := hlast

/-- The rounds of such a chunk. -/
theorem Visiting.round (h : Visiting cutoffTS d pos c)
    (hvalid : ∀ k v, d.get k = some v → Parses v) (clock : ℕ → Bool) :
    (∃ e c', remaining d pos = e :: remaining d (some e) ∧
      scanned clock c = some e ∧ chunkRound cutoffTS clock c = .ok (.inl c') ∧
      Visiting cutoffTS d (some e) c') ∨
    (∃ e c', pos = some e ∧ c.ls.sc ≠ .fresh ∧ scanned clock c = none ∧
      chunkRound cutoffTS clock c = .ok (.inr c') ∧ c'.txn = c.txn ∧
      c'.ls.limitReached = true ∧ c'.ls.cursor = some e) ∨
    (∃ c', remaining d pos = [] ∧ scanned clock c = none ∧
      chunkRound cutoffTS clock c = .ok (.inr c') ∧ c'.txn = c.txn ∧
      c'.ls.limitReached = false) := by
  unfold scanned chunkRound
  rcases LimitScanner.scan_cases clock c.txn.dbi h.ready with
    ⟨hscan, -, e, he⟩ | ⟨x, hleast, hscan⟩
  · right
    left
    rw [hscan]
    refine ⟨e, _, h.on e he, by rw [he]; exact Scanner.noConfusion, rfl, rfl, rfl, rfl, ?_⟩
    show c.ls.sc.entry = some e
    rw [he]
    rfl
  · have hleast' := h.swept.least h.ahead hleast
    cases x with
    | none =>
        right
        right
        rw [hscan]
        exact ⟨_, remaining_eq_nil hleast', rfl, rfl, rfl, h.ready.open_⟩
    | some e =>
        left
        have hget : c.txn.dbi.get e.1 = some e.2 := hleast.2.1
        obtain ⟨hstale, hfresh⟩ := h.swept.move hleast'
        have hnext : ∀ t : Txn, SweptTo cutoffTS d (some e) t.dbi → Visiting cutoffTS d (some e)
            ⟨t, { c.ls with sc := .place false (some e), count := c.ls.count + 1 }⟩ := by
          intro t ht
          refine ⟨⟨h.ready.open_, Or.inr ⟨Nat.succ_pos _, e, rfl⟩⟩, ht, fun k _ => ?_, ?_, ?_⟩
          · rw [left_some]
            show t.dbi.before e.1 k ↔ _
            unfold Dbi.before
            rw [ht.flags]
          · rintro e' ⟨⟩
            rfl
          · rintro e' ⟨⟩
            exact hleast'.2.1
        rw [hscan]
        dsimp only [Option.isSome_some, LimitScanner.cursor]
        rw [Scanner.entry_place, Option.getD_some]
        rcases cleanEntry_cases cutoffTS hget with ⟨hbad, -⟩ | ⟨hno, hc⟩ | ⟨hyes, hc⟩
        · exact absurd (hvalid e.1 e.2 hleast'.2.1) hbad
        · refine ⟨e, _, remaining_least hleast', rfl, by rw [hc], ?_⟩
          exact hnext _ (hfresh hno)
        · refine ⟨e, _, remaining_least hleast', rfl, by rw [hc], ?_⟩
          exact hnext _ (hstale hyes)

/-- A chunk has taken the entries `es`, the first of those that remained. -/
structure Taken (cutoffTS : Timestamp) (d : Dbi) (pos : Option (Bytes × Bytes))
    (es : List (Bytes × Bytes)) (pos' : Option (Bytes × Bytes)) (c : Chunk) : Prop where
  split : remaining d pos = es ++ remaining d pos'
  swept : SweptTo cutoffTS d pos' c.txn.dbi
  limited : c.ls.limitReached = true → c.ls.cursor = pos'
  complete : c.ls.limitReached = false → remaining d pos' = []
  entry : ∀ e, pos' = some e → d.get e.1 = some e.2

/-- A chunk that is interrupted has taken an entry. -/
theorem Visiting.taken (hvalid : ∀ k v, d.get k = some v → Parses v) (clock : ℕ → Bool)
    (fuel : ℕ) (h : Visiting cutoffTS d pos c) (st : Stats)
    (hfuel : (remaining d pos).length < fuel) :
    ∃ es pos' c', countedRounds cutoffTS clock fuel c st = (st.addAll cutoffTS es, .ok c') ∧
      Taken cutoffTS d pos es pos' c' ∧
      (c.ls.sc = .fresh → c'.ls.limitReached = true → es ≠ []) := by
  -- the induction is on the rounds; a chunk that goes on is no longer fresh
  induction fuel generalizing c pos st with
  | zero => exact absurd hfuel (Nat.not_lt_zero _)
  | succ fuel ih =>
      unfold countedRounds
      rcases h.round hvalid clock with
        ⟨e, c', hrest, hscan, hround, hnext⟩ |
        ⟨e, c', hpos, hsc, hscan, hround, htxn, hlimit, hcursor⟩ |
        ⟨c', hrest, hscan, hround, htxn, hopen⟩
      · rw [hrest, List.length_cons] at hfuel
        obtain ⟨es, pos', c'', hrun, htaken, -⟩ :=
          ih hnext (st.count cutoffTS e.2) (Nat.lt_of_succ_lt_succ hfuel)
        refine ⟨e :: es, pos', c'', ?_, ⟨?_, htaken.swept, htaken.limited, htaken.complete,
          htaken.entry⟩, fun _ _ => List.cons_ne_nil e es⟩
        · rw [hscan, hround, Option.elim_some]
          dsimp only
          rw [hrun, count_eq_addAll e (hvalid e.1 e.2 (hnext.entry e rfl)), ← addAll_append,
            List.singleton_append]
        · rw [hrest, htaken.split, List.cons_append]
      · refine ⟨[], pos, c', ?_, ⟨rfl, by rw [htxn]; exact h.swept, fun _ => ?_, fun hfalse => ?_,
          h.entry⟩, fun hfresh => absurd hfresh hsc⟩
        · rw [hscan, hround]
          rfl
        · rw [hcursor, hpos]
        · rw [hlimit] at hfalse
          cases hfalse
      · refine ⟨[], pos, c', ?_, ⟨rfl, by rw [htxn]; exact h.swept, fun htrue => ?_, fun _ => hrest,
          h.entry⟩, fun _ htrue => ?_⟩
        · rw [hscan, hround]
          rfl
        · rw [hopen] at htrue
          cases htrue
        · rw [hopen] at htrue
          cases htrue

theorem SweptTo.length_le (h : SweptTo cutoffTS d pos d') :
    (remaining d pos).length ≤ d'.keys.length := by
  have hnodup : ((remaining d pos).map Prod.fst).Nodup :=
    d.keys_nodup.sublist (List.filter_sublist.map _)
  have hsub : (remaining d pos).map Prod.fst ⊆ d'.keys := by
    intro k hk
    obtain ⟨e, he, rfl⟩ := List.mem_map.mp hk
    obtain ⟨hget, hleft⟩ := mem_remaining.mp he
    exact Dbi.mem_keys_iff.mpr ⟨e.2, by rw [h.of_left hleft, hget]⟩
  rw [← List.length_map Prod.fst]
  exact (hnodup.subperm hsub).length_le

/-- A DBI is swept up to its end. -/
structure SweptAll (cutoffTS : Timestamp) (d d' : Dbi) : Prop where
  flags : d'.flags = d.flags
  values : ∀ j, d'.get j = Sweeper.swept cutoffTS (d.get j)

theorem SweptTo.all (h : SweptTo cutoffTS d pos d') (hnil : remaining d pos = []) :
    SweptAll cutoffTS d d' where
  flags := h.flags
  values := by
    intro j
    rw [h.values]
    split
    · rename_i hleft
      cases hv : d.get j with
      | none => rfl
      | some v =>
          have hmem : (j, v) ∈ remaining d pos := mem_remaining.mpr ⟨hv, hleft⟩
          rw [hnil] at hmem
          cases hmem
    · rfl

end Chunk

/-! ## A DBI -/

section Sweeps

variable {conf : Conf} {d d' : Dbi} {r : State} {s : Sweep} {n : Bytes} {rest todo : List Bytes}
  {c : Contents} {st : Stats}

/-- A sweep of `d` alone, on its way. -/
structure Halfway (conf : Conf) (d : Dbi) (r : State) : Prop where
  swept : SweptTo conf.cutoffTS d r.last r.dbi
  entry : ∀ e, r.last = some e → d.get e.1 = some e.2

/-- A chunk takes entries off the front of those that remain: one at least, or all. -/
theorem Halfway.chunk (h : Halfway conf d r) (hvalid : ∀ k v, d.get k = some v → Parses v)
    (hrun : r.outcome = .running) (clock : ℕ → Bool) (st : Stats) :
    ∃ es, (countedChunk conf.cutoffTS clock (r.options conf) r.dbi st).1 =
        st.addAll conf.cutoffTS es ∧
      (((r.chunk conf clock none).outcome = .running ∧ Halfway conf d (r.chunk conf clock none) ∧
          es ≠ [] ∧ remaining d r.last = es ++ remaining d (r.chunk conf clock none).last) ∨
        ((r.chunk conf clock none).outcome = .done ∧
          SweptAll conf.cutoffTS d (r.chunk conf clock none).dbi ∧ remaining d r.last = es)) := by
  have hfuel : (remaining d r.last).length < r.dbi.keys.length + 2 := by
    have := h.swept.length_le
    omega
  have hstart : Visiting conf.cutoffTS d r.last ⟨.start r.dbi, newLimitScanner (r.options conf)⟩ :=
    @visiting_start conf.cutoffTS (r.options conf) d r.dbi h.swept h.entry
  obtain ⟨es, pos', c', hcount, htaken, hfresh⟩ := hstart.taken hvalid clock _ st hfuel
  have hchunk : sweepChunk conf.cutoffTS clock (r.options conf) r.dbi = .ok c' := by
    rw [← countedChunk_snd _ _ _ _ st]
    exact congrArg Prod.snd hcount
  have heq : r.chunk conf clock none = { r with
      dbi := c'.txn.dbi
      last := c'.ls.cursor
      limitReached := c'.ls.limitReached }.afterUpdate none := by
    unfold State.chunk
    rw [hchunk]
  refine ⟨es, congrArg Prod.fst hcount, ?_⟩
  rw [heq]
  unfold State.afterUpdate
  dsimp only
  by_cases hlimit : c'.ls.limitReached = true
  · rw [if_pos hlimit]
    have hcursor := htaken.limited hlimit
    refine Or.inl ⟨hrun, ⟨?_, ?_⟩, hfresh rfl hlimit, ?_⟩
    · rw [hcursor]
      exact htaken.swept
    · rw [hcursor]
      exact htaken.entry
    · rw [hcursor]
      exact htaken.split
  · rw [if_neg hlimit]
    have hnil := htaken.complete (by simpa using hlimit)
    refine Or.inr ⟨rfl, htaken.swept.all hnil, ?_⟩
    rw [htaken.split, hnil, List.append_nil]

/-! ## All DBIs -/

/-- A sweep that only its own transactions change. -/
def quiet (conf : Conf) (s : Sweep) (clocks : List (ℕ → Bool)) : Sweep :=
  clocks.foldl (fun s clock => s.step conf (.chunk clock none)) s

theorem quiet_append (ks ls : List (ℕ → Bool)) :
    quiet conf s (ks ++ ls) = quiet conf (quiet conf s ks) ls := List.foldl_append

theorem quiet_cons (hrun : s.outcome = .running) (clock : ℕ → Bool) (ks : List (ℕ → Bool)) :
    quiet conf s (clock :: ks) = quiet conf (s.chunk conf clock none) ks := by
  rw [quiet, List.foldl_cons, Sweep.step_chunk_running hrun]
  rfl

theorem quiet_stopped (hstop : s.outcome ≠ .running) (ks : List (ℕ → Bool)) :
    quiet conf s ks = s := by
  induction ks with
  | nil => rfl
  | cons clock ks ih =>
      rw [quiet, List.foldl_cons, show s.step conf (.chunk clock none) = s from if_neg hstop]
      exact ih

/-- A turn of the loop on a DBI that is there. -/
theorem Sweep.chunk_of_get (conf : Conf) (htodo : s.todo = n :: rest)
    (hget : s.contents.get n = some d') (clock : ℕ → Bool) (fault : Option TxnFault) :
    ∃ h, s.chunk conf clock fault =
      s.proceed n rest ((s.current d').chunk conf clock fault)
        (countedChunk conf.cutoffTS clock ((s.current d').options conf) d'
          s.stats.countTxn).1 h := by
  rcases Sweep.chunk_cases conf clock fault s with
    ⟨hnil, -⟩ | ⟨m, rest', htodo', hnone, -⟩ | ⟨m, rest', d'', hm, htodo', hget', heq⟩
  · rw [htodo] at hnil
    cases hnil
  · rw [htodo] at htodo'
    obtain ⟨rfl, -⟩ := List.cons.inj htodo'
    rw [hget] at hnone
    cases hnone
  · rw [htodo] at htodo'
    obtain ⟨rfl, rfl⟩ := List.cons.inj htodo'
    obtain rfl := Option.some.inj (hget.symm.trans hget')
    exact ⟨hm, heq⟩

/-- The DBI `n` is swept, after some transactions, and the next one is entered. -/
structure Passes (conf : Conf) (d : Dbi) (n : Bytes) (rest : List Bytes)
    (es : List (Bytes × Bytes)) (s : Sweep) (txns : ℕ) (s' : Sweep) : Prop where
  enters : s' = Sweep.enter s'.contents rest (s.stats.after conf.cutoffTS es txns)
  swept : ∃ d', s'.contents.get n = some d' ∧ SweptAll conf.cutoffTS d d'
  others : ∀ m, m ≠ n → s'.contents.get m = s.contents.get m

/-- A turn of the loop takes entries off the front, one at least, or passes the DBI. -/
theorem quiet_turn (hvalid : ∀ k v, d.get k = some v → Parses v)
    (htodo : s.todo = n :: rest) (hrun : s.outcome = .running)
    (hget : s.contents.get n = some d') (h : Halfway conf d (s.current d'))
    (clock : ℕ → Bool) :
    (∃ es s' d'', s.chunk conf clock none = s' ∧ s'.todo = n :: rest ∧ s'.outcome = .running ∧
      s'.contents.get n = some d'' ∧ Halfway conf d (s'.current d'') ∧ es ≠ [] ∧
      remaining d s.last = es ++ remaining d s'.last ∧
      s'.stats = s.stats.countTxn.addAll conf.cutoffTS es ∧
      ∀ m, m ≠ n → s'.contents.get m = s.contents.get m) ∨
    Passes conf d n rest (remaining d s.last) s 1 (s.chunk conf clock none) := by
  obtain ⟨hn, hchunk⟩ := Sweep.chunk_of_get conf htodo hget clock none
  have hothers : ∀ m, m ≠ n →
      (s.chunk conf clock none).contents.get m = s.contents.get m := by
    intro m hm
    rw [hchunk, Sweep.proceed_contents, if_neg hm]
  have hown : (s.chunk conf clock none).contents.get n =
      some ((s.current d').chunk conf clock none).dbi := by
    rw [hchunk, Sweep.proceed_contents, if_pos rfl]
  obtain ⟨es, hcount, ⟨hgo, hhalf, hne, hsplit⟩ | ⟨hdone, hall, hes⟩⟩ :=
    h.chunk hvalid hrun clock s.stats.countTxn
  · left
    have hgoing : ((s.current d').chunk conf clock none).outcome ≠ .done := by
      rw [hgo]
      exact Outcome.noConfusion
    rw [Sweep.proceed_of_going hn hgoing] at hchunk
    exact ⟨es, _, _, hchunk, htodo, hgo, hchunk ▸ hown, hhalf, hne, hsplit, hcount,
      hchunk ▸ hothers⟩
  · right
    refine ⟨?_, ⟨_, hown, hall⟩, hothers⟩
    change remaining d s.last = es at hes
    have hstats : (countedChunk conf.cutoffTS clock ((s.current d').options conf) d'
        s.stats.countTxn).1 = s.stats.after conf.cutoffTS es 1 := by
      rw [← List.append_nil es, ← after_addAll_countTxn]
      exact hcount
    rw [hes, ← hstats]
    conv_lhs => rw [hchunk, Sweep.proceed_of_done hn hdone]
    rw [hchunk]

/-- **The sweep of a DBI comes to its end** within one transaction more than there are
entries left. -/
theorem quiet_dbi (hvalid : ∀ k v, d.get k = some v → Parses v) (clocks : List (ℕ → Bool))
    (htodo : s.todo = n :: rest) (hrun : s.outcome = .running)
    (hget : s.contents.get n = some d') (h : Halfway conf d (s.current d'))
    (hlen : (remaining d s.last).length < clocks.length) :
    ∃ ks ls, clocks = ks ++ ls ∧ ks.length ≤ (remaining d s.last).length + 1 ∧
      Passes conf d n rest (remaining d s.last) s ks.length (quiet conf s ks) := by
  induction clocks generalizing s d' with
  | nil => exact absurd hlen (Nat.not_lt_zero _)
  | cons clock clocks ih =>
      rcases quiet_turn hvalid htodo hrun hget h clock with
        ⟨es, s', d'', hchunk, htodo', hrun', hget', hhalf, hne, hsplit, hstats, hothers⟩ | hpasses
      · -- the limit is reached, with fewer entries left
        have hpos := List.length_pos_iff.mpr hne
        have hcut : (remaining d s.last).length =
            es.length + (remaining d s'.last).length := by
          rw [hsplit, List.length_append]
        rw [List.length_cons] at hlen
        obtain ⟨ks, ls, hks, hle, hpasses⟩ := ih htodo' hrun' hget' hhalf (by omega)
        refine ⟨clock :: ks, ls, by rw [hks, List.cons_append], ?_, ?_⟩
        · rw [List.length_cons]
          omega
        · rw [quiet_cons hrun, hchunk, List.length_cons]
          refine ⟨?_, hpasses.swept, fun m hm => ?_⟩
          · rw [hsplit, ← after_addAll_countTxn, ← hstats]
            exact hpasses.enters
          · rw [hpasses.others m hm, hothers m hm]
      · exact ⟨[clock], clocks, rfl, by simp, by rw [quiet_cons hrun]; exact hpasses⟩

theorem entriesOf_cons (hget : c.get n = some d) :
    entriesOf c (n :: rest) = d.entries ++ entriesOf c rest := by
  rw [entriesOf, List.flatMap_cons, hget]
  rfl

theorem entriesOf_congr {c' : Contents} (h : ∀ m ∈ todo, c'.get m = c.get m) :
    entriesOf c' todo = entriesOf c todo := by
  unfold entriesOf
  refine List.flatMap_congr fun m hm => ?_
  rw [h m hm]

/-- The DBIs `todo` are swept, and the others as they were. -/
structure SweptDbis (cutoffTS : Timestamp) (todo : List Bytes) (c c' : Contents) : Prop where
  swept : ∀ n ∈ todo, ∃ d d', c.get n = some d ∧ c'.get n = some d' ∧ SweptAll cutoffTS d d'
  others : ∀ n, n ∉ todo → c'.get n = c.get n

/-- **The sweep of a list of DBIs comes to its end**, within as many transactions as they
have entries and are themselves. -/
theorem quiet_all (todo : List Bytes) (hnodup : todo.Nodup) (c : Contents) (st : Stats)
    (hthere : ∀ n ∈ todo, ∃ d, c.get n = some d) (hvalid : ∀ e ∈ entriesOf c todo, Parses e.2)
    (clocks : List (ℕ → Bool)) (hlen : (entriesOf c todo).length + todo.length ≤ clocks.length) :
    ∃ txns, txns ≤ (entriesOf c todo).length + todo.length ∧
      (quiet conf (.enter c todo st) clocks).outcome = .done ∧
      (quiet conf (.enter c todo st) clocks).stats =
        st.after conf.cutoffTS (entriesOf c todo) txns ∧
      SweptDbis conf.cutoffTS todo c (quiet conf (.enter c todo st) clocks).contents := by
  induction todo generalizing c st clocks with
  | nil =>
      have hdone : (Sweep.enter c [] st).outcome = .done := rfl
      rw [quiet_stopped (by rw [hdone]; exact Outcome.noConfusion)]
      refine ⟨0, Nat.zero_le _, rfl, rfl, ⟨?_, fun _ _ => rfl⟩⟩
      intro n hn
      cases hn
  | cons n rest ih =>
      obtain ⟨hnot, hnodup⟩ := List.nodup_cons.mp hnodup
      obtain ⟨d, hget⟩ := hthere n List.mem_cons_self
      rw [entriesOf_cons hget, List.length_append, List.length_cons] at hlen ⊢
      rw [entriesOf_cons hget] at hvalid
      have hrun : (Sweep.enter c (n :: rest) st).outcome = .running := rfl
      have hhalf : Halfway conf d ((Sweep.enter c (n :: rest) st).current d) := by
        refine ⟨⟨rfl, fun j => (if_pos left_none).symm⟩, ?_⟩
        intro e he
        cases he
      have hrem : remaining d (Sweep.enter c (n :: rest) st).last = d.entries := remaining_none d
      have hparses : ∀ k v, d.get k = some v → Parses v := fun k v hv =>
        hvalid (k, v) (List.mem_append_left _ (Dbi.mem_entries_iff.mpr hv))
      obtain ⟨ks, ls, rfl, hks, hpasses⟩ :=
        quiet_dbi hparses clocks rfl hrun hget hhalf (by rw [hrem]; omega)
      rw [hrem] at hks hpasses
      set c' := (quiet conf (Sweep.enter c (n :: rest) st) ks).contents with hc'
      have hrest : ∀ m ∈ rest, c'.get m = c.get m := fun m hm =>
        hpasses.others m (by rintro rfl; exact hnot hm)
      have hsame : entriesOf c' rest = entriesOf c rest := entriesOf_congr hrest
      rw [List.length_append] at hlen
      obtain ⟨txns, htxns, hdone, hstats, hdbis⟩ := ih hnodup c'
        (st.after conf.cutoffTS d.entries ks.length)
        (fun m hm => by rw [hrest m hm]; exact hthere m (List.mem_cons_of_mem n hm))
        (by rw [hsame]; exact fun e he => hvalid e (List.mem_append_right _ he))
        ls (by rw [hsame]; omega)
      rw [quiet_append, hpasses.enters]
      refine ⟨ks.length + txns, by rw [hsame] at htxns; omega, hdone, ?_, ⟨?_, ?_⟩⟩
      · rw [← after_after, ← hsame]
        exact hstats
      · intro m hm
        rcases List.mem_cons.mp hm with rfl | hm
        · obtain ⟨d', hd', hall⟩ := hpasses.swept
          exact ⟨d, d', hget, (hdbis.others m hnot).trans hd', hall⟩
        · obtain ⟨d₁, d₂, h₁, h₂, hall⟩ := hdbis.swept m hm
          exact ⟨d₁, d₂, (hrest m hm).symm.trans h₁, h₂, hall⟩
      · intro m hm
        rw [List.mem_cons, not_or] at hm
        exact (hdbis.others m hm.2).trans (hpasses.others m hm.1)

end Sweeps

/-- **A sweep that nobody interferes with comes to its end**, if every entry it looks at has a
header. It removes the stale markers of the DBIs that are to be swept and changes nothing
else, and its counters tell how many entries it removed and how many it left. -/
theorem quiet_sweep_complete (conf : Conf) (schemaTracksChanges : Bool) (c : Contents)
    (hvalid : ∀ e ∈ entriesOf c (c.names.filter (sweeps schemaTracksChanges)), Parses e.2)
    (clocks : List (ℕ → Bool))
    (hlen : (entriesOf c (c.names.filter (sweeps schemaTracksChanges))).length +
      (c.names.filter (sweeps schemaTracksChanges)).length ≤ clocks.length) :
    Completed conf (c.names.filter (sweeps schemaTracksChanges)) c
      (quiet conf (.start schemaTracksChanges c) clocks) := by
  set todo := c.names.filter (sweeps schemaTracksChanges) with htodo
  have hnodup : todo.Nodup := (Sweep.listed_start schemaTracksChanges c).nodup
  have hthere : ∀ n ∈ todo, ∃ d, c.get n = some d := by
    intro n hn
    rw [htodo, List.mem_filter] at hn
    exact Contents.mem_names_iff.mp hn.1
  obtain ⟨txns, htxns, hdone, hstats, hdbis⟩ :=
    quiet_all todo hnodup c .zero hthere hvalid clocks hlen
  have hstart : Sweep.start schemaTracksChanges c = .enter c todo .zero := rfl
  rw [← hstart] at hdone hstats hdbis
  refine ⟨hdone, fun n => ?_, fun n j => ?_, ?_, ?_, ?_, ?_⟩
  · by_cases hn : n ∈ todo
    · obtain ⟨d, d', hget, hget', hall⟩ := hdbis.swept n hn
      rw [flagsOf_of_get hget', flagsOf_of_get hget, hall.flags]
    · rw [flagsOf, hdbis.others n hn, flagsOf]
  · by_cases hn : n ∈ todo
    · obtain ⟨d, d', hget, hget', hall⟩ := hdbis.swept n hn
      rw [if_pos hn, valueAt_of_get hget', valueAt_of_get hget, hall.values]
    · rw [if_neg hn, valueAt, hdbis.others n hn, valueAt]
  all_goals
    rw [hstats]
    simp only [Stats.after, Stats.addAll, Stats.zero, Nat.zero_add]
  exact htxns

/-- A shadow DBI with an old marker and a live entry, and a DBI of the application whose
value has no header. -/
def shadowed : Contents where
  map := ⟨[(ascii "_sync_shadow_a", oneMarker), (ascii "a", brokenOne)], by decide +kernel⟩
  named := by decide +kernel

theorem quiet_sweep_shadowed :
    Completed oldConf (shadowed.names.filter (sweeps false)) shadowed
        (quiet oldConf (.start false shadowed) (List.replicate 3 fun _ => false)) ∧
      shadowed.names.filter (sweeps false) = [ascii "_sync_shadow_a"] ∧
      (quiet oldConf (.start false shadowed) (List.replicate 3 fun _ => false)).stats =
        ⟨1, 0, 1, 1⟩ := by
  have hentries : entriesOf shadowed (shadowed.names.filter (sweeps false)) =
      [([1], oldMarker), ([2], Header.putBasic 0 0 Header.noFlags)] := by decide +kernel
  refine ⟨quiet_sweep_complete oldConf false shadowed ?_ _ (by rw [hentries]; decide +kernel),
    by decide +kernel, by decide +kernel⟩
  rw [hentries]
  intro e he
  rcases List.mem_pair.mp he with rfl | rfl
  · exact ⟨_, Header.parse_putBasic 0 0 Header.flagDeleted []⟩
  · exact ⟨_, Header.parse_putBasic 0 0 Header.noFlags []⟩

end LightningStream.Sweeper
