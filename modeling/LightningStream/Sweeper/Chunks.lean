import LightningStream.Sweeper.Run

/-!
# The chunks of a sweep

Every chunk but the last one of a DBI moves the cursor at which the next one
resumes forward to another entry, so that a sweep without interference takes at most
one chunk more than there are entries. That is, if none of them fails: the loop
looks at the flag `limitReached` before it looks at the error, and a transaction
that stops early leaves the flag as the chunk before set it. Only the first chunk
of a DBI reports its error. A later one is tried again without an end
(`failing_sweep_reports`).
-/

namespace LightningStream.Sweeper

open Lmdb

variable {conf : Conf} {d : Dbi} {s : State} {clock : ℕ → Bool} {fault : Option TxnFault}
  {cutoffTS : Timestamp} {opt : ScanOptions} {c c' : Chunk}

def Event.isChunk : Event → Bool
  | .chunk _ _ => true
  | _ => false

/-- The error with which a transaction stops before its scan is over: a value without a
valid header, or a delete that fails. -/
def chunkErr (conf : Conf) (clock : ℕ → Bool) (fault : Option TxnFault) (s : State) :
    Option Failure :=
  match sweepChunk conf.cutoffTS clock (s.options conf) s.dbi, fault with
  | .error e, _ => some (.chunk e)
  | .ok _, some .early => some (.txn .early)
  | .ok _, _ => none

/-- `nTxn`, for the chunks of one DBI. -/
def nTxn (conf : Conf) : State → List Event → ℕ
  | _, [] => 0
  | s, e :: es =>
      (if s.outcome = .running ∧ e.isChunk = true then 1 else 0) + nTxn conf (step conf s e) es

/-! ## A chunk that fails -/

theorem chunk_of_err {err : Failure} (h : chunkErr conf clock fault s = some err) :
    s.chunk conf clock fault = s.afterUpdate (some err) := by
  unfold chunkErr at h
  unfold State.chunk
  cases hc : sweepChunk conf.cutoffTS clock (s.options conf) s.dbi with
  | error e =>
      rw [hc] at h
      obtain rfl := Option.some.inj h
      rfl
  | ok c =>
      rw [hc] at h
      rcases fault with - | - | -
      · cases h
      · obtain rfl := Option.some.inj h
        rfl
      · cases h

theorem step_chunk (hrun : s.outcome = .running) :
    step conf s (.chunk clock fault) = s.chunk conf clock fault := by
  unfold step
  rw [if_pos hrun]

theorem step_stopped (e : Event) (hstop : s.outcome ≠ .running) : step conf s e = s := by
  unfold step
  rw [if_neg hstop]

theorem running_of_step {e : Event} (h : (step conf s e).outcome = .running) :
    s.outcome = .running := by
  by_contra hstop
  rw [step_stopped e hstop] at h
  exact hstop h

/-- A pause that is not cancelled changes nothing. -/
theorem step_cancel (h : (step conf s .cancel).outcome = .running) : step conf s .cancel = s := by
  have hrun := running_of_step h
  unfold step at h ⊢
  rw [if_pos hrun] at h ⊢
  dsimp only at h ⊢
  split
  · rename_i hlimit
    rw [if_pos hlimit] at h
    cases h
  · rfl

theorem afterUpdate_limitReached (err : Option Failure) :
    (s.afterUpdate err).limitReached = s.limitReached := by
  unfold State.afterUpdate
  split <;> rfl

/-- A chunk after which the sweep goes on has set the flag, or found it set. -/
theorem limitReached_of_chunk (h : (s.chunk conf clock fault).outcome = .running) :
    (s.chunk conf clock fault).limitReached = true := by
  rcases chunk_cases conf clock fault s with ⟨err, heq⟩ | ⟨c, -, ⟨-, heq⟩ | ⟨-, heq⟩⟩
  all_goals
    rw [heq] at h ⊢
    rw [afterUpdate_limitReached]
    exact afterUpdate_running h

theorem run_snoc (conf : Conf) (s : State) (es : List Event) (e : Event) :
    run conf s (es ++ [e]) = step conf (run conf s es) e := by
  unfold run
  rw [List.foldl_append]
  rfl

/-- **The flag is set exactly if there was a chunk before.** -/
theorem limitReached_iff (conf : Conf) (d : Dbi) (es : List Event) :
    (run conf (start d) es).outcome = .running →
      ((run conf (start d) es).limitReached = false ↔ ∀ e ∈ es, e.isChunk = false) := by
  induction es using List.reverseRecOn with
  | nil => exact fun _ => iff_of_true rfl nofun
  | append_singleton es e ih =>
      intro hrun
      rw [run_snoc] at hrun ⊢
      have hbefore := running_of_step hrun
      have ih := ih hbefore
      simp only [List.mem_append, List.mem_singleton, or_imp, forall_and, forall_eq]
      cases e with
      | commit d' =>
          have hsame : (step conf (run conf (start d) es) (.commit d')).limitReached =
              (run conf (start d) es).limitReached := by
            unfold step
            rw [if_pos hbefore]
            dsimp only
            split <;> rfl
          rw [hsame, ih]
          exact ⟨fun h => ⟨h, rfl⟩, fun h => h.1⟩
      | chunk clock fault =>
          rw [step_chunk hbefore] at hrun ⊢
          rw [limitReached_of_chunk hrun]
          refine iff_of_false (by simp) ?_
          rintro ⟨-, hchunk⟩
          cases hchunk
      | cancel =>
          rw [step_cancel hrun, ih]
          exact ⟨fun h => ⟨h, rfl⟩, fun h => h.1⟩

/-! ## Where a chunk stops -/

/-- Behind a key in scope everything is. -/
theorem scope_mono {j j' : Bytes} (h : opt.Scope d j) (hlt : d.before j j') : opt.Scope d j' := by
  unfold ScanOptions.Scope at h ⊢
  cases hlast : opt.last with
  | none => trivial
  | some last =>
      rw [hlast] at h
      left
      rcases h with hbefore | ⟨rfl, -⟩
      · exact lt_trans hbefore hlt
      · exact hlt

/-- The scanner of a chunk in `d` is on an entry of `d` that is in its scope. -/
structure Placed (cutoffTS : Timestamp) (opt : ScanOptions) (d : Dbi) (c : Chunk) : Prop where
  cleaning : Cleaning cutoffTS opt d c
  fresh : c.ls.sc = .fresh → c = ⟨.start d, newLimitScanner opt⟩
  on : ∀ e b, c.ls.sc = .on e b → d.get e.1 = some e.2 ∧ opt.Scope d e.1

theorem placed_start (cutoffTS : Timestamp) (opt : ScanOptions) (d : Dbi) :
    Placed cutoffTS opt d ⟨.start d, newLimitScanner opt⟩ where
  cleaning := cleaning_start cutoffTS opt d
  fresh := fun _ => rfl
  on := fun _ _ h => by cases h

theorem Placed.step (h : Placed cutoffTS opt d c)
    (hstep : chunkRound cutoffTS clock c = .ok (.inl c')) : Placed cutoffTS opt d c' := by
  have hc := h.cleaning
  rcases chunkRound_cases cutoffTS clock hc.ready with
    ⟨e, ⟨hahead, hget, -⟩, hround⟩ | ⟨e, -, -, hround⟩ | ⟨-, hround⟩
  · rw [hstep] at hround
    have hsc : c'.ls.sc = .on e false := by
      split at hround
      · cases hround
      · obtain rfl := Sum.inl.inj (Except.ok.inj hround)
        rfl
    refine ⟨hc.step hstep, fun hfresh => ?_, fun e' b he' => ?_⟩
    · rw [hsc] at hfresh
      cases hfresh
    · rw [hsc] at he'
      cases he'
      constructor
      · rcases hc.kept e.1 with hk | ⟨hk, -⟩
        · rw [← hk, hget]
        · rw [hget] at hk
          cases hk
      · rcases hc.ready.placed with ⟨-, hfresh⟩ | ⟨-, e', hon⟩
        · rw [h.fresh hfresh] at hahead
          exact (LimitScanner.scope_new opt _).mp hahead
        · refine scope_mono (h.on e' false hon).2 ?_
          unfold LimitScanner.Ahead at hahead
          rw [hon] at hahead
          unfold Dbi.before at hahead ⊢
          rwa [hc.flags] at hahead
  · rw [hstep] at hround
    cases hround
  · rw [hstep] at hround
    cases hround

/-- **A chunk that reaches its limit stops on an entry in its scope.** -/
theorem sweepChunk_cursor (h : sweepChunk cutoffTS clock opt d = .ok c)
    (hlimit : c.ls.limitReached = true) :
    ∃ e, c.ls.cursor = some e ∧ d.get e.1 = some e.2 ∧ opt.Scope d e.1 := by
  refine runRounds_ok (I := Placed cutoffTS opt d)
    (P := fun c => c.ls.limitReached = true →
      ∃ e, c.ls.cursor = some e ∧ d.get e.1 = some e.2 ∧ opt.Scope d e.1)
    (fun _ _ hc hstep => hc.step hstep) ?_ (placed_start cutoffTS opt d) h hlimit
  intro c c' hc hdone hlimit
  rcases chunkRound_cases cutoffTS clock hc.cleaning.ready with
    ⟨e, -, hround⟩ | ⟨e, he, -, hround⟩ | ⟨-, hround⟩
  · rw [hdone] at hround
    split at hround <;> cases hround
  · rw [hdone] at hround
    obtain rfl := Sum.inr.inj (Except.ok.inj hround)
    refine ⟨e, ?_, hc.on e false he⟩
    show c.ls.sc.entry = some e
    rw [he]
    rfl
  · rw [hdone] at hround
    obtain rfl := Sum.inr.inj (Except.ok.inj hround)
    have hopen := hc.cleaning.ready.open_
    rw [show c.ls.limitReached = true from hlimit] at hopen
    cases hopen

/-! ## Without other writers -/

/-- A sweep of `d` that nobody interferes with. -/
structure Unwritten (d : Dbi) (s : State) : Prop where
  flags : s.dbi.flags = d.flags
  kept : ∀ j, s.dbi.get j = d.get j ∨ s.dbi.get j = none
  last : ∀ e, s.last = some e → d.get e.1 = some e.2

theorem unwritten_start (d : Dbi) : Unwritten d (start d) where
  flags := rfl
  kept := fun _ => Or.inl rfl
  last := fun _ h => by cases h

/-- The next chunk resumes at an entry behind the one where this chunk did. -/
def Onward (d : Dbi) (s s' : State) : Prop :=
  ∃ e', s'.last = some e' ∧ d.get e'.1 = some e'.2 ∧ ∀ e, s.last = some e → d.before e.1 e'.1

/-- In an unwritten DBI the scope of a chunk is what is behind the last entry. -/
theorem Unwritten.before_of_scope (h : Unwritten d s) {e : Bytes × Bytes}
    (hget : s.dbi.get e.1 = some e.2) (hscope : (s.options conf).Scope s.dbi e.1) :
    d.get e.1 = some e.2 ∧ ∀ e', s.last = some e' → d.before e'.1 e.1 := by
  have hd : d.get e.1 = some e.2 := by
    rcases h.kept e.1 with hk | hk
    · rw [← hk, hget]
    · rw [hget] at hk
      cases hk
  refine ⟨hd, fun e' hlast => ?_⟩
  unfold ScanOptions.Scope at hscope
  rw [show (s.options conf).last = s.last from rfl, hlast] at hscope
  rcases hscope with hbefore | ⟨hkey, hchanged⟩
  · unfold Dbi.before at hbefore ⊢
    rwa [h.flags] at hbefore
  · -- the last entry is as it was, or gone
    refine absurd ?_ hchanged
    rw [← hkey, hget, ← hd, hkey]
    exact h.last e' hlast

theorem Unwritten.chunk (h : Unwritten d s) (herr : chunkErr conf clock fault s = none)
    (hgo : (s.chunk conf clock fault).outcome = .running) :
    Unwritten d (s.chunk conf clock fault) ∧ Onward d s (s.chunk conf clock fault) := by
  -- whether or not the commit fails, the cursor is that of the chunk
  have hmove : ∀ (c : Chunk) (dbi : Dbi) (err : Option Failure),
      sweepChunk conf.cutoffTS clock (s.options conf) s.dbi = .ok c →
      dbi.flags = d.flags → (∀ j, dbi.get j = d.get j ∨ dbi.get j = none) →
      s.chunk conf clock fault =
        { s with dbi := dbi, last := c.ls.cursor,
                 limitReached := c.ls.limitReached }.afterUpdate err →
      Unwritten d (s.chunk conf clock fault) ∧ Onward d s (s.chunk conf clock fault) := by
    intro c dbi err hc hflags hkept heq
    rw [heq] at hgo ⊢
    obtain ⟨e, hcursor, hget, hscope⟩ := sweepChunk_cursor hc (afterUpdate_running hgo)
    obtain ⟨hd, hbehind⟩ := h.before_of_scope hget hscope
    refine ⟨⟨by rw [afterUpdate_dbi]; exact hflags, by rw [afterUpdate_dbi]; exact hkept, ?_⟩,
      e, by rw [afterUpdate_last]; exact hcursor, hd, hbehind⟩
    intro e' he'
    rw [afterUpdate_last] at he'
    obtain rfl := Option.some.inj (hcursor.symm.trans he')
    exact hd
  unfold chunkErr at herr
  cases hc : sweepChunk conf.cutoffTS clock (s.options conf) s.dbi with
  | error e =>
      rw [hc] at herr
      cases herr
  | ok c =>
      rw [hc] at herr
      have hswept := sweepChunk_swept hc
      rcases fault with - | - | -
      · refine hmove c c.txn.dbi none hc (hswept.flags.trans h.flags) (fun j => ?_) ?_
        · rcases hswept.kept j with hk | ⟨hk, -⟩
          · rw [hk]
            exact h.kept j
          · exact Or.inr hk
        · unfold State.chunk
          rw [hc]
      · cases herr
      · refine hmove c s.dbi (some (.txn .late)) hc h.flags h.kept ?_
        unfold State.chunk
        rw [hc]

/-! ## The number of chunks -/

/-- The keys that are left for the chunks after the one that stopped at `last`. -/
def Left (d : Dbi) (last : Option (Bytes × Bytes)) (k : Bytes) : Prop :=
  ∀ e ∈ last, d.before e.1 k

instance leftDecidable (d : Dbi) (last : Option (Bytes × Bytes)) : DecidablePred (Left d last) :=
  fun k => inferInstanceAs (Decidable (∀ e ∈ last, d.flags.rank e.1 < d.flags.rank k))

def left (d : Dbi) (last : Option (Bytes × Bytes)) : ℕ :=
  (d.keys.toFinset.filter (Left d last)).card

theorem left_none_le (d : Dbi) : left d none ≤ d.entries.length := by
  calc left d none ≤ d.keys.toFinset.card := Finset.card_filter_le _ _
    _ ≤ d.keys.length := List.toFinset_card_le _
    _ = d.entries.length := by rw [Dbi.keys, List.length_map]

theorem left_lt {s' : State} (h : Onward d s s') : left d s'.last < left d s.last := by
  obtain ⟨e', hlast, hget, hbehind⟩ := h
  rw [hlast]
  apply Finset.card_lt_card
  rw [Finset.ssubset_iff_of_subset]
  · refine ⟨e'.1, ?_, ?_⟩
    · rw [Finset.mem_filter, List.mem_toFinset]
      exact ⟨Dbi.mem_keys_iff.mpr ⟨_, hget⟩, hbehind⟩
    · rw [Finset.mem_filter, not_and]
      exact fun _ hleft => lt_irrefl _ (hleft e' rfl)
  · intro k hk
    rw [Finset.mem_filter] at hk ⊢
    exact ⟨hk.1, fun e he => lt_trans (hbehind e he) (hk.2 e' rfl)⟩

/-- A transaction fails only if it is the first one. -/
def FailsFirst (conf : Conf) (s : State) (e : Event) : Prop :=
  ∀ clock fault, e = .chunk clock fault → s.outcome = .running →
    chunkErr conf clock fault s ≠ none → s.limitReached = false

/-- Every chunk but the last advances the key at which the next one resumes. -/
def Advances (conf : Conf) (d : Dbi) (s : State) (e : Event) : Prop :=
  e.isChunk = true → s.outcome = .running → (step conf s e).outcome = .running →
    Onward d s (step conf s e)

/-- What holds of every event in a stopped sweep holds of a run of it. -/
theorem along_stopped {P : State → Event → Prop} (hstop : s.outcome ≠ .running)
    (hP : ∀ e, P s e) : ∀ es : List Event, Along conf P s es
  | [] => trivial
  | e :: es => ⟨hP e, by rw [step_stopped e hstop]; exact along_stopped hstop hP es⟩

theorem nTxn_stopped : ∀ {es : List Event} {s : State}, s.outcome ≠ .running → nTxn conf s es = 0
  | [], _, _ => rfl
  | e :: es, s, hstop => by
      rw [nTxn, if_neg fun h => hstop h.1, step_stopped e hstop, nTxn_stopped hstop]

/-- A chunk from which the sweep goes on did not fail. -/
theorem no_err_of_running {e : Event} (hfirst : FailsFirst conf s e)
    (he : e = .chunk clock fault) (hrun : s.outcome = .running)
    (hgo : (s.chunk conf clock fault).outcome = .running) :
    chunkErr conf clock fault s = none := by
  by_contra herr
  have hflag := hfirst clock fault he hrun herr
  obtain ⟨err, hsome⟩ := Option.ne_none_iff_exists'.mp herr
  rw [chunk_of_err hsome] at hgo
  have hset := afterUpdate_running hgo
  rw [hflag] at hset
  cases hset

/-- **Without other writers and without failures after the first chunk**, every chunk but
the last advances, and there are no more of them than keys left and one. -/
theorem chunks_bounded : ∀ {es : List Event} {s : State}, Unwritten d s →
    (∀ e ∈ es, ¬ e.byApp) → Along conf (FailsFirst conf) s es →
    Along conf (Advances conf d) s es ∧ nTxn conf s es ≤ left d s.last + 1
  | [], _, _, _, _ => ⟨trivial, Nat.zero_le _⟩
  | e :: es, s, hs, hquiet, hfirst => by
      have htail : ∀ x ∈ es, ¬ x.byApp := fun x hx => hquiet x (List.mem_cons_of_mem _ hx)
      by_cases hgo : (step conf s e).outcome = .running
      · have hrun := running_of_step hgo
        cases e with
        | commit d' => exact absurd trivial (hquiet _ List.mem_cons_self)
        | cancel =>
            have hsame := step_cancel hgo
            have hrest := hfirst.2
            rw [hsame] at hrest
            obtain ⟨hadv, hn⟩ := chunks_bounded hs htail hrest
            refine ⟨⟨nofun, by rw [hsame]; exact hadv⟩, ?_⟩
            rw [nTxn, if_neg (fun h => by cases h.2), hsame, Nat.zero_add]
            exact hn
        | chunk clock fault =>
            have hstep : step conf s (.chunk clock fault) = s.chunk conf clock fault :=
              step_chunk hrun
            rw [hstep] at hgo
            obtain ⟨hs', hon⟩ := hs.chunk (no_err_of_running hfirst.1 rfl hrun hgo) hgo
            have hrest := hfirst.2
            rw [hstep] at hrest
            obtain ⟨hadv, hn⟩ := chunks_bounded hs' htail hrest
            refine ⟨⟨fun _ _ _ => by rw [hstep]; exact hon, by rw [hstep]; exact hadv⟩, ?_⟩
            rw [nTxn, if_pos ⟨hrun, rfl⟩, hstep]
            have hlt := left_lt hon
            omega
      · refine ⟨⟨fun _ _ h => absurd h hgo, ?_⟩, ?_⟩
        · exact along_stopped hgo (fun _ _ h => absurd h hgo) es
        · rw [nTxn, nTxn_stopped hgo]
          split <;> omega

/-- **A failing chunk is reported exactly if it is the first one of its DBI.** The error
of a later one leaves the sweep where it was. Apart from that, and without other
writers, every chunk but the last advances, and there is at most one more of them
than there are entries. -/
theorem failing_sweep_reports (conf : Conf) (d : Dbi) (es : List Event) :
    (∀ clock fault err, (run conf (start d) es).outcome = .running →
      chunkErr conf clock fault (run conf (start d) es) = some err →
      ((step conf (run conf (start d) es) (.chunk clock fault)).outcome = .failed err ↔
        ∀ e ∈ es, e.isChunk = false) ∧
      ((∃ e ∈ es, e.isChunk = true) →
        step conf (run conf (start d) es) (.chunk clock fault) = run conf (start d) es)) ∧
    ((∀ e ∈ es, ¬ e.byApp) → Along conf (FailsFirst conf) (start d) es →
      Along conf (Advances conf d) (start d) es ∧
        nTxn conf (start d) es ≤ d.entries.length + 1) := by
  constructor
  · intro clock fault err hrun herr
    have hiff := limitReached_iff conf d es hrun
    rw [step_chunk hrun, chunk_of_err herr]
    unfold State.afterUpdate
    cases hlimit : (run conf (start d) es).limitReached with
    | false =>
        have hfirst := hiff.mp hlimit
        rw [if_neg (by simp)]
        refine ⟨iff_of_true rfl hfirst, ?_⟩
        rintro ⟨e, he, hchunk⟩
        rw [hfirst e he] at hchunk
        cases hchunk
    | true =>
        rw [if_pos rfl]
        refine ⟨iff_of_false (by rw [hrun]; nofun) fun hfirst => ?_, fun _ => rfl⟩
        rw [hiff.mpr hfirst] at hlimit
        cases hlimit
  · intro hquiet hfirst
    obtain ⟨hadv, hn⟩ := chunks_bounded (unwritten_start d) hquiet hfirst
    have hle := left_none_le d
    exact ⟨hadv, hn.trans (Nat.add_le_add_right hle 1)⟩

/-- A DBI with a value that has no header. -/
def brokenOne : Dbi := (Dbi.empty KeyFlags.plain).set [1] [9] Dbi.allowed_one

theorem failing_sweep_reports_first :
    ∃ err, (step oldConf (start brokenOne) (.chunk (fun _ => false) none)).outcome =
      .failed (.chunk (.error (.header [1] err))) := by
  obtain ⟨err, herr⟩ : ∃ err, chunkErr oldConf (fun _ => false) none (start brokenOne) =
      some (.chunk (.error (.header [1] err))) := ⟨_, rfl⟩
  exact ⟨err, (((failing_sweep_reports oldConf brokenOne []).1 _ _ _ rfl herr).1).mpr nofun⟩

/-! ## A chunk that is tried again -/

/-- A chunk that leaves the sweep as it was can go on for ever. -/
theorem nTxn_replicate {e : Event} (hrun : s.outcome = .running) (he : e.isChunk = true)
    (hsame : step conf s e = s) :
    ∀ n, nTxn conf s (List.replicate n e) = n ∧ run conf s (List.replicate n e) = s
  | 0 => ⟨rfl, rfl⟩
  | n + 1 => by
      obtain ⟨hn, hr⟩ := nTxn_replicate hrun he hsame n
      rw [List.replicate_succ, nTxn, if_pos ⟨hrun, he⟩, hsame, hn]
      refine ⟨Nat.add_comm 1 n, ?_⟩
      show run conf (step conf s e) (List.replicate n e) = s
      rw [hsame, hr]

/-- A chunk over one entry without a header fails. -/
theorem sweepChunk_broken {k v : Bytes} (clock : ℕ → Bool) (hd : d.entries = [(k, v)])
    (hbad : ¬ Parses v) (hscope : opt.Scope d k) :
    ∃ e, sweepChunk cutoffTS clock opt d = .error e := by
  have hready := LimitScanner.ready_new opt
  have hahead : (newLimitScanner opt).Ahead d k := (LimitScanner.scope_new opt k).mpr hscope
  obtain ⟨err, hclean⟩ : ∃ err, cleanEntry cutoffTS (.start d) k v = .error err := by
    unfold cleanEntry
    cases hp : Header.parse v with
    | error e => exact ⟨_, rfl⟩
    | ok r => exact absurd ⟨r, hp⟩ hbad
  rcases chunkRound_cases (c := ⟨.start d, newLimitScanner opt⟩) cutoffTS clock hready with
    ⟨e, hleast, hround⟩ | ⟨e, he, -, -⟩ | ⟨hleast, -⟩
  · obtain rfl := Option.some.inj (least_head hd hahead hleast)
    rw [hclean] at hround
    exact ⟨_, runRounds_error hround⟩
  · cases he
  · cases least_head hd hahead hleast

/-- A sweep whose first chunk ends before a value without a header tries the second one
again and again. -/
theorem retried {last bad : Bytes × Bytes} (hlock : 0 < conf.lockDuration)
    (hlen : 1000 ≤ d.entries.length)
    (hstale : ∀ i (hi : i < d.entries.length), i < 1000 →
      isStale conf.cutoffTS d.entries[i].2 = true)
    (hlast : d.entries[999]? = some last) (hbad : d.entries.drop 1000 = [bad])
    (hbefore : d.before last.1 bad.1) (hnohead : ¬ Parses bad.2) (n : ℕ) :
    nTxn conf (start d) (List.replicate (n + 1) (.chunk (fun _ => true) none)) = n + 1 ∧
      (run conf (start d) (List.replicate (n + 1) (.chunk (fun _ => true) none))).outcome =
        .running := by
  obtain ⟨c, hc, hlimit, hcursor, hentries⟩ := sweepChunk_thousand hlock hlen hstale
  rw [hlast] at hcursor
  rw [hbad] at hentries
  obtain ⟨s, hs⟩ : ∃ s : State, s = ⟨c.txn.dbi, some last, true, .running⟩ := ⟨_, rfl⟩
  have hfirst : step conf (start d) (.chunk (fun _ => true) none) = s := by
    show (start d).chunk conf (fun _ => true) none = s
    unfold State.chunk
    rw [show sweepChunk conf.cutoffTS (fun _ => true) ((start d).options conf) (start d).dbi =
      .ok c from hc]
    show State.afterUpdate ⟨c.txn.dbi, c.ls.cursor, c.ls.limitReached, .running⟩ none = s
    rw [hlimit, hcursor, hs]
    rfl
  have hrun : s.outcome = .running := by rw [hs]
  have hscope : (s.options conf).Scope s.dbi bad.1 := by
    unfold ScanOptions.Scope
    rw [show (s.options conf).last = some last by rw [hs]; rfl]
    left
    unfold Dbi.before at hbefore ⊢
    rw [show s.dbi.flags = d.flags by rw [hs]; exact (sweepChunk_swept hc).flags]
    exact hbefore
  obtain ⟨e, hbroken⟩ := @sweepChunk_broken s.dbi conf.cutoffTS (s.options conf) bad.1 bad.2
    (fun _ => true) (by rw [hs]; exact hentries) hnohead hscope
  have herr : chunkErr conf (fun _ => true) none s = some (.chunk e) := by
    unfold chunkErr
    rw [hbroken]
  -- the error is not looked at, since the flag is still that of the first chunk
  have hsame : step conf s (.chunk (fun _ => true) none) = s := by
    rw [step_chunk hrun, chunk_of_err herr]
    unfold State.afterUpdate
    rw [if_pos (by rw [hs])]
  obtain ⟨hn, hr⟩ := nTxn_replicate hrun rfl hsame n
  constructor
  · rw [List.replicate_succ, nTxn, if_pos ⟨rfl, rfl⟩, hfirst, hn, Nat.add_comm]
  · rw [List.replicate_succ]
    show (run conf (step conf (start d) _) _).outcome = _
    rw [hfirst, hr, hrun]

/-- A thousand old markers, and a value without a header behind them. -/
def brokenMarkers : Dbi :=
  markers.set (beBytes 2 1000) [9] (by
    refine ⟨fun k hk => ?_, fun h => nomatch h⟩
    rcases List.mem_cons.mp hk with rfl | hk
    · simp [maxKeySize]
    · exact markers.keys_allowed.1 k hk)

theorem numbered_lt {i j : ℕ} (hij : i < j) (hj : j < 65536) : beBytes 2 i < beBytes 2 j := by
  refine (beNat_lt_iff (by simp)).mp ?_
  rw [beNat_beBytes, beNat_beBytes]
  omega

theorem markers_length : markers.entries.length = 1000 := by
  rw [markers_entries, List.length_map, List.length_range]

theorem brokenMarkers_entries :
    brokenMarkers.entries = markers.entries ++ [(beBytes 2 1000, [9])] := by
  refine Dbi.entries_set_split (List.append_nil _).symm (fun e he => ?_) nofun _
  rw [markers_entries] at he
  obtain ⟨i, hi, rfl⟩ := List.mem_map.mp he
  exact numbered_lt (List.mem_range.mp hi) (by decide)

theorem brokenMarkers_length : brokenMarkers.entries.length = 1001 := by
  rw [brokenMarkers_entries, List.length_append, markers_length]
  rfl

/-- The first thousand entries. -/
theorem brokenMarkers_getElem {i : ℕ} (hi : i < 1000) :
    brokenMarkers.entries[i]? = some (beBytes 2 i, oldMarker) := by
  rw [brokenMarkers_entries, List.getElem?_append_left (by rw [markers_length]; exact hi),
    markers_entries, List.getElem?_map, List.getElem?_range hi]
  rfl

/-- **A value without a header behind the first chunk keeps the sweep busy for ever**: it
has failed more often than there are entries, and goes on. -/
theorem broken_header_retried :
    brokenMarkers.entries.length = 1001 ∧
      nTxn oldConf (start brokenMarkers)
        (List.replicate 2000 (.chunk (fun _ => true) none)) = 2000 ∧
      (run oldConf (start brokenMarkers)
        (List.replicate 2000 (.chunk (fun _ => true) none))).outcome = .running := by
  refine ⟨brokenMarkers_length, ?_⟩
  have hnohead : ¬ Parses [9] := by
    rintro ⟨r, hr⟩
    cases hr
  refine @retried oldConf brokenMarkers (beBytes 2 999, oldMarker) (beBytes 2 1000, [9])
    (by decide) (by rw [brokenMarkers_length]; omega)
    (fun i hi hsmall => ?_) (brokenMarkers_getElem (by omega)) ?_
    (numbered_lt (by omega) (by omega)) hnohead 1999
  · have hget := brokenMarkers_getElem hsmall
    rw [List.getElem?_eq_getElem hi] at hget
    rw [Option.some.inj hget]
    exact oldMarker_stale
  · rw [brokenMarkers_entries, List.drop_append_of_le_length markers_length.ge,
      List.drop_eq_nil_of_le markers_length.le]
    rfl

end LightningStream.Sweeper
