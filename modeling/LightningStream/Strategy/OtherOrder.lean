import LightningStream.Strategy.IterUpdate

/-!
# `IterUpdate` on a DBI in another order

`iterBoth` compares keys bytewise, but a cursor on a DBI with `MDB_REVERSEKEY` lists
them in another order. For an iterator that says by itself what the DBI is to hold
(`Replacing`) this file finds out exactly when the walk does not lose an entry.

A new entry has to come to lie behind the cursor. One that is put ahead of it is met
again after the iterator has passed its key, and is then taken for one that the
iterator does not have (`Walking.lost`). At the end of the DBI it is appended, so it
has to come after all that is there. `Placeable` says so of the two listings, without
the walk.
-/

namespace LightningStream.Strategy

open Lmdb

variable {E ε : Type}

/-- The iterator decides alone: `val` is what the DBI gets for an entry, and all other keys are
deleted. -/
structure Replacing (it : Iterator E ε) (val : E → Option Bytes) : Prop where
  ending : it.ending = none
  merge : ∀ x old, ∃ r, it.merge x old = .ok r ∧ present r = val x
  clean : ∀ c v, it.clean c v = .ok none

/-- The walk in between. `U` are the keys that can be there at any time. -/
structure Walking (it : Iterator E ε) (ik : Bool) (U : List Bytes) (w : Walk E) (xs : List E)
    (pre ys : List (Bytes × Bytes)) : Prop where
  pending : Pending it ik w xs pre ys
  sorted : (xs.map it.key).Pairwise (Less ik)
  integerKey : w.txn.dbi.flags.integerKey = ik
  allowed : w.txn.dbi.flags.Allowed U
  entries : ∀ x ∈ xs, it.key x ∈ U
  live : ∀ j ∈ w.txn.dbi.keys, j ∈ U

/-- One round of the walk, which leaves `r` at the key `k`. -/
structure Round (it : Iterator E ε) (ik : Bool) (w : Walk E) (k : Bytes) (r : Option Bytes)
    (w' : Walk E) : Prop where
  run : ∀ n, iterBoth it ik (iterUpdateFunc it) (n + 1) w =
    iterBoth it ik (iterUpdateFunc it) n w'
  flags : w'.txn.dbi.flags = w.txn.dbi.flags
  get : ∀ j, w'.txn.dbi.get j = if j = k then r else w.txn.dbi.get j

/-- A round that leaves the entry it is about behind the cursor: the entries to come of
both sides before and after it, the key, and what the DBI then has there. -/
inductive Turn (it : Iterator E ε) (val : E → Option Bytes) (ik : Bool) (d : Dbi) :
    List E → List (Bytes × Bytes) → List E → List (Bytes × Bytes) → Bytes → Option Bytes → Prop
  | dbOnly {xs y ys} (h : ∀ x ∈ xs, Less ik y.1 (it.key x)) :
      Turn it val ik d xs (y :: ys) xs ys y.1 none
  | both {x xs y ys} (h : it.key x = y.1) :
      Turn it val ik d (x :: xs) (y :: ys) xs ys y.1 (val x)
  | skip {x xs ys} (hval : val x = none) :
      Turn it val ik d (x :: xs) ys xs ys (it.key x) (d.get (it.key x))
  | append {x xs v} (hval : val x = some v) (h : ∀ j ∈ d.keys, d.before j (it.key x)) :
      Turn it val ik d (x :: xs) [] xs [] (it.key x) (some v)
  | behind {x xs y ys v} (hval : val x = some v) (hless : Less ik (it.key x) y.1)
      (h : d.before (it.key x) y.1) :
      Turn it val ik d (x :: xs) (y :: ys) xs (y :: ys) (it.key x) (some v)

/-- What the walk does next. -/
inductive Next (it : Iterator E ε) (val : E → Option Bytes) (ik : Bool) (U : List Bytes)
    (w : Walk E) : List E → List (Bytes × Bytes) → Prop
  | done (h : ∀ n, iterBoth it ik (iterUpdateFunc it) (n + 1) w = .ok w.txn) :
      Next it val ik U w [] []
  | refused {x xs v} (hval : val x = some v)
      (hnot : ¬ ∀ j ∈ w.txn.dbi.keys, w.txn.dbi.before j (it.key x))
      (h : ∀ n, iterBoth it ik (iterUpdateFunc it) (n + 1) w = .error (.append .keyExist)) :
      Next it val ik U w (x :: xs) []
  | turn {xs ys w' xs' pre' ys' k r} (h : Turn it val ik w.txn.dbi xs ys xs' ys' k r)
      (hround : Round it ik w k r w') (hw : Walking it ik U w' xs' pre' ys') :
      Next it val ik U w xs ys
  | ahead {x xs y ys w' pre' ys' v} (hval : val x = some v) (hless : Less ik (it.key x) y.1)
      (h : w.txn.dbi.before y.1 (it.key x)) (hround : Round it ik w (it.key x) (some v) w')
      (hw : Walking it ik U w' xs pre' (y :: ys')) (hmem : it.key x ∈ ys'.map Prod.fst)
      (hsub : ∀ k ∈ ys.map Prod.fst, k ∈ ys'.map Prod.fst) :
      Next it val ik U w (x :: xs) (y :: ys)

/-- What comes before the first entry comes before all of them. -/
theorem before_cons {d : Dbi} {k : Bytes} {y : Bytes × Bytes} {ys : List (Bytes × Bytes)}
    (hplace : d.before k y.1) (hys : ∀ z ∈ ys, d.before y.1 z.1) :
    ∀ z ∈ y :: ys, d.before k z.1 := by
  intro z hz
  rcases List.mem_cons.mp hz with rfl | hz
  · exact hplace
  · exact hplace.trans (hys z hz)

theorem not_mem_of_before {d : Dbi} {k : Bytes} {ys : List (Bytes × Bytes)}
    (h : ∀ z ∈ ys, d.before k z.1) : k ∉ ys.map Prod.fst := by
  intro hmem
  obtain ⟨z, hz, rfl⟩ := List.mem_map.mp hmem
  exact lt_irrefl _ (h z hz)

section Rounds

variable {it : Iterator E ε} {val : E → Option Bytes} {ik : Bool} {U : List Bytes} {w : Walk E}
  {x : E} {xs : List E} {y : Bytes × Bytes} {pre ys : List (Bytes × Bytes)}

theorem head_less_of_sorted (h : ((x :: xs).map it.key).Pairwise (Less ik)) :
    ∀ z ∈ xs, Less ik (it.key x) (it.key z) := fun z hz =>
  (List.pairwise_cons.mp h).1 _ (List.mem_map.mpr ⟨z, hz, rfl⟩)

theorem Walking.head_less (h : Walking it ik U w (x :: xs) pre ys) :
    ∀ z ∈ xs, Less ik (it.key x) (it.key z) := head_less_of_sorted h.sorted

theorem Walking.short (h : Walking it ik U w xs pre ys) :
    ∀ x ∈ xs, (it.key x).length ≤ maxKeySize := fun x hx =>
  (h.allowed.1 _ (h.entries x hx)).2

theorem Walking.mem_keys (h : Walking it ik U w xs pre ys) {j : Bytes}
    (hj : j ∈ ys.map Prod.fst) : j ∈ w.txn.dbi.keys := by
  rw [Dbi.keys, h.pending.live, List.map_append]
  exact List.mem_append_right _ hj

theorem Walking.ys_sorted (h : Walking it ik U w xs pre ys) :
    ys.Pairwise fun a b => w.txn.dbi.before a.1 b.1 := by
  have hsorted := w.txn.dbi.entries_sorted
  rw [h.pending.live, List.pairwise_append] at hsorted
  exact hsorted.2.1

theorem Walking.before_of_mem (h : Walking it ik U w xs pre (y :: ys)) :
    ∀ z ∈ ys, w.txn.dbi.before y.1 z.1 := (List.pairwise_cons.mp h.ys_sorted).1

/-- The entries ahead of the cursor come after those behind it. -/
theorem Walking.pre_before (h : Walking it ik U w xs pre (y :: ys)) :
    ∀ p ∈ pre, w.txn.dbi.before p.1 y.1 := by
  have hsorted := w.txn.dbi.entries_sorted
  rw [h.pending.live, List.pairwise_append] at hsorted
  exact fun p hp => hsorted.2.2 p hp y List.mem_cons_self

/-- What a round keeps of the surroundings. -/
theorem Walking.next {w' : Walk E} {k : Bytes} {r : Option Bytes} {xs' : List E}
    {pre' ys' : List (Bytes × Bytes)} (h : Walking it ik U w xs pre ys) (hk : k ∈ U)
    (hround : Round it ik w k r w') (hp : Pending it ik w' xs' pre' ys')
    (hsub : ∀ z ∈ xs', z ∈ xs) (hsorted : (xs'.map it.key).Pairwise (Less ik)) :
    Walking it ik U w' xs' pre' ys' where
  pending := hp
  sorted := hsorted
  integerKey := by rw [hround.flags, h.integerKey]
  allowed := by rw [hround.flags]; exact h.allowed
  entries := fun z hz => h.entries z (hsub z hz)
  live := by
    intro j hj
    obtain ⟨v, hv⟩ := Dbi.mem_keys_iff.mp hj
    rw [hround.get] at hv
    split at hv
    · rename_i hjk
      rwa [hjk]
    · exact h.live j (Dbi.mem_keys_iff.mpr ⟨v, hv⟩)

/-- A visit at the cursor. -/
theorem Passed.round {c : Option E} {w₁ : Walk E} {t₁ : Txn} {v : Visit E} {r : Option Bytes}
    {k : Bytes} (hpass : Passed w.txn t₁ pre ys k r) (hfetch : fetchIt it ik w = .ok w₁)
    {zs : List (Bytes × Bytes)} (hs : Shown it (fetchDb w₁) xs zs c)
    (hpick : pick it ik xs.head? zs.head? = some v)
    (hf : iterUpdateFunc it (fetchDb w₁).cur v (fetchDb w₁).txn = .ok t₁) :
    Round it ik w k r (consume (fetchDb w₁) t₁ v) where
  run := fun n => iterBoth_succ hfetch hs hpick hf
  flags := by rw [consume_txn]; exact hpass.flags
  get := by rw [consume_txn]; exact hpass.get

/-- An entry that only the DBI has is deleted. -/
theorem Walking.dbOnly (hr : Replacing it val) (h : Walking it ik U w xs pre (y :: ys))
    (hpick : pick it ik xs.head? (some y) = some (.dbOnly y.1 y.2)) :
    ∃ w' pre', Round it ik w y.1 none w' ∧ Walking it ik U w' xs pre' ys := by
  obtain ⟨w₁, hfetch, htxn, hs⟩ := fetch_shown h.pending hr.ending h.short
  have hlive : (fetchDb w₁).txn.dbi.entries = pre ++ y :: ys := by rw [htxn, h.pending.live]
  obtain ⟨t₁, hf, hpass⟩ := iterUpdateFunc_dbOnly hlive (hr.clean (fetchDb w₁).cur y.2)
  obtain ⟨pre', hlive', -⟩ := hpass.live
  have hnext := hpass.next hlive
  rw [htxn] at hpass
  have hround := hpass.round hfetch hs hpick hf
  have hy : y.1 ∈ U := h.live _ (h.mem_keys (by simp))
  exact ⟨_, pre', hround, h.next hy hround (hs.dbOnly hlive' hnext) (fun _ hz => hz) h.sorted⟩

/-- A key that both sides have gets the value of the iterator. -/
theorem Walking.both (hr : Replacing it val) (h : Walking it ik U w (x :: xs) pre (y :: ys))
    (hxy : it.key x = y.1)
    (hpick : pick it ik (some x) (some y) = some (.both x y.1 y.2)) :
    ∃ w' pre', Round it ik w y.1 (val x) w' ∧ Walking it ik U w' xs pre' ys := by
  obtain ⟨w₁, hfetch, htxn, hs⟩ := fetch_shown h.pending hr.ending h.short
  have hlive : (fetchDb w₁).txn.dbi.entries = pre ++ y :: ys := by rw [htxn, h.pending.live]
  obtain ⟨r₀, hmerge₀, -⟩ := hr.merge x none
  obtain ⟨r, hmerge, hval⟩ := hr.merge x (some y.2)
  obtain ⟨t₁, hf, hpass⟩ := iterUpdateFunc_both (c := (fetchDb w₁).cur) hlive hxy hmerge₀ hmerge
  obtain ⟨pre', hlive', -⟩ := hpass.live
  have hnext := hpass.next hlive
  rw [htxn, hval] at hpass
  have hround := hpass.round hfetch hs hpick hf
  have hy : y.1 ∈ U := h.live _ (h.mem_keys (by simp))
  exact ⟨_, pre', hround, h.next hy hround (hs.both hlive' hnext h.head_less)
    (fun _ hz => List.mem_cons_of_mem _ hz) (List.pairwise_cons.mp h.sorted).2⟩

/-- An entry of the iterator without a value is passed over. -/
theorem Walking.skip (hr : Replacing it val) (h : Walking it ik U w (x :: xs) pre ys)
    (hval : val x = none) {eof : Bool}
    (hpick : pick it ik (some x) ys.head? = some (.itOnly x eof)) :
    ∃ w', Round it ik w (it.key x) (w.txn.dbi.get (it.key x)) w' ∧
      Walking it ik U w' xs pre ys := by
  obtain ⟨w₁, hfetch, htxn, hs⟩ := fetch_shown h.pending hr.ending h.short
  obtain ⟨r, hmerge, hpresent⟩ := hr.merge x none
  have hf : iterUpdateFunc it (fetchDb w₁).cur (.itOnly x eof) (fetchDb w₁).txn =
      .ok w.txn := by
    simp only [iterUpdateFunc, hmerge, Except.mapError, bind, Except.bind, hpresent, hval, htxn]
  have hround : Round it ik w (it.key x) (w.txn.dbi.get (it.key x))
      (consume (fetchDb w₁) w.txn (.itOnly x eof)) := by
    refine ⟨fun n => iterBoth_succ hfetch hs hpick hf, rfl, fun j => ?_⟩
    show w.txn.dbi.get j = _
    split
    · rename_i hj
      rw [hj]
    · rfl
  exact ⟨_, hround, h.next (h.entries x List.mem_cons_self) hround
    (hs.itOnly h.pending.live h.head_less) (fun _ hz => List.mem_cons_of_mem _ hz)
    (List.pairwise_cons.mp h.sorted).2⟩

/-! ### New entries -/

/-- A new entry is stored; at the end of the DBI it has to come last. -/
theorem iterUpdateFunc_new (hr : Replacing it val) {t : Txn} {c : Option E} {eof : Bool}
    {v : Bytes} (hval : val x = some v) (ha : t.dbi.flags.Allowed (it.key x :: t.dbi.keys))
    (hlast : eof = true → ∀ j ∈ t.dbi.keys, t.dbi.before j (it.key x)) :
    iterUpdateFunc it c (.itOnly x eof) t = .ok ⟨t.dbi.set (it.key x) v ha, true⟩ := by
  obtain ⟨r, hmerge, hpresent⟩ := hr.merge x none
  simp only [iterUpdateFunc, hmerge, Except.mapError, bind, Except.bind, hpresent, hval]
  cases eof with
  | false => simp [Txn.put_of_allowed ha]
  | true =>
      have happend : t.append (it.key x) v = t.put (it.key x) v := if_pos (hlast rfl)
      rw [if_pos rfl, happend, Txn.put_of_allowed ha]

theorem iterUpdateFunc_append_error (hr : Replacing it val) {t : Txn} {c : Option E} {v : Bytes}
    (hval : val x = some v) (hnot : ¬ ∀ j ∈ t.dbi.keys, t.dbi.before j (it.key x)) :
    iterUpdateFunc it c (.itOnly x true) t = .error (.append .keyExist) := by
  obtain ⟨r, hmerge, hpresent⟩ := hr.merge x none
  have happend : t.append (it.key x) v = .error .keyExist := if_neg hnot
  simp only [iterUpdateFunc, hmerge, Except.mapError, bind, Except.bind, hpresent, hval, happend,
    if_true]

theorem Walking.may_take (h : Walking it ik U w (x :: xs) pre ys) :
    w.txn.dbi.flags.Allowed (it.key x :: w.txn.dbi.keys) := by
  refine h.allowed.subset fun j hj => ?_
  rcases List.mem_cons.mp hj with rfl | hj
  · exact h.entries x List.mem_cons_self
  · exact h.live j hj

theorem Shown.congr {c : Option E} {zs : List (Bytes × Bytes)} (h : Shown it w xs ys c)
    (hhead : zs.head? = ys.head?) : Shown it w xs zs c where
  head := h.head
  rest := h.rest
  cur := h.cur
  itEOF := h.itEOF
  prevKey := h.prevKey
  dbKV := h.dbKV.trans hhead.symm
  dbEOF := by
    rw [h.dbEOF, ← List.head?_eq_none_iff, ← List.head?_eq_none_iff, hhead]
  pos := h.pos

/-- A new entry is stored, and lies before or behind the cursor. -/
theorem Walking.store (hr : Replacing it val) (h : Walking it ik U w (x :: xs) pre ys) {v : Bytes}
    (hval : val x = some v) {eof : Bool}
    (hpick : pick it ik (some x) ys.head? = some (.itOnly x eof))
    (hlast : eof = true → ∀ j ∈ w.txn.dbi.keys, w.txn.dbi.before j (it.key x))
    {pre' ys' : List (Bytes × Bytes)}
    (hlive : (w.txn.dbi.set (it.key x) v h.may_take).entries = pre' ++ ys')
    (hhead : ys'.head? = ys.head?) :
    ∃ w', Round it ik w (it.key x) (some v) w' ∧ Walking it ik U w' xs pre' ys' := by
  obtain ⟨w₁, hfetch, htxn, hs⟩ := fetch_shown h.pending hr.ending h.short
  have hf : iterUpdateFunc it (fetchDb w₁).cur (.itOnly x eof) (fetchDb w₁).txn =
      .ok ⟨w.txn.dbi.set (it.key x) v h.may_take, true⟩ := by
    rw [htxn]
    exact iterUpdateFunc_new hr hval h.may_take hlast
  have hround : Round it ik w (it.key x) (some v)
      (consume (fetchDb w₁) ⟨w.txn.dbi.set (it.key x) v h.may_take, true⟩ (.itOnly x eof)) :=
    ⟨fun n => iterBoth_succ hfetch hs hpick hf, rfl, fun _ => Dbi.get_set h.may_take⟩
  exact ⟨_, hround, h.next (h.entries x List.mem_cons_self) hround
    ((hs.congr hhead).itOnly hlive h.head_less) (fun _ hz => List.mem_cons_of_mem _ hz)
    (List.pairwise_cons.mp h.sorted).2⟩

/-- At the end of the DBI, an entry that comes last is appended. -/
theorem Walking.append (hr : Replacing it val) (h : Walking it ik U w (x :: xs) pre [])
    {v : Bytes} (hval : val x = some v)
    (hlast : ∀ j ∈ w.txn.dbi.keys, w.txn.dbi.before j (it.key x)) :
    ∃ w' pre', Round it ik w (it.key x) (some v) w' ∧ Walking it ik U w' xs pre' [] := by
  obtain ⟨w', hround, hw'⟩ := h.store hr hval rfl (fun _ => hlast) (List.append_nil _).symm rfl
  exact ⟨w', _, hround, hw'⟩

/-- One that does not is refused. -/
theorem Walking.append_error (hr : Replacing it val) (h : Walking it ik U w (x :: xs) pre [])
    {v : Bytes} (hval : val x = some v)
    (hnot : ¬ ∀ j ∈ w.txn.dbi.keys, w.txn.dbi.before j (it.key x)) (n : ℕ) :
    iterBoth it ik (iterUpdateFunc it) (n + 1) w = .error (.append .keyExist) := by
  obtain ⟨w₁, hfetch, htxn, hs⟩ := fetch_shown h.pending hr.ending h.short
  have hf : iterUpdateFunc it (fetchDb w₁).cur (.itOnly x true) (fetchDb w₁).txn =
      .error (.append .keyExist) := by
    rw [htxn]
    exact iterUpdateFunc_append_error hr hval hnot
  rw [iterBoth, hfetch]
  simp only [bind, Except.bind, hs.head, hs.dbKV, List.head?_cons, List.head?_nil, pick, hf]

/-- An entry that lies before the cursor is not met again. -/
theorem Walking.behind (hr : Replacing it val) (h : Walking it ik U w (x :: xs) pre (y :: ys))
    {v : Bytes} (hval : val x = some v)
    (hpick : pick it ik (some x) (some y) = some (.itOnly x false))
    (hplace : w.txn.dbi.before (it.key x) y.1) :
    ∃ w' pre', Round it ik w (it.key x) (some v) w' ∧ Walking it ik U w' xs pre' (y :: ys) := by
  obtain ⟨pre', hlive⟩ := Dbi.entries_set_left (v := v) h.pending.live
    (before_cons hplace h.before_of_mem) h.may_take
  obtain ⟨w', hround, hw'⟩ := h.store hr hval hpick nofun hlive rfl
  exact ⟨w', pre', hround, hw'⟩

/-- An entry that lies ahead of the cursor is. -/
theorem Walking.ahead (hr : Replacing it val) (h : Walking it ik U w (x :: xs) pre (y :: ys))
    {v : Bytes} (hval : val x = some v)
    (hpick : pick it ik (some x) (some y) = some (.itOnly x false))
    (hplace : w.txn.dbi.before y.1 (it.key x)) :
    ∃ w' ys', Round it ik w (it.key x) (some v) w' ∧ Walking it ik U w' xs pre (y :: ys') ∧
      it.key x ∈ ys'.map Prod.fst ∧ ∀ k ∈ ys.map Prod.fst, k ∈ ys'.map Prod.fst := by
  have hsplit : w.txn.dbi.entries = (pre ++ [y]) ++ ys := by
    rw [h.pending.live, List.append_assoc, List.singleton_append]
  obtain ⟨ys', hlive⟩ := Dbi.entries_set_right (v := v) hsplit (by
    intro p hp
    rcases List.mem_append.mp hp with hp | hp
    · exact (h.pre_before p hp).trans hplace
    · rw [List.mem_singleton.mp hp]
      exact hplace) h.may_take
  rw [List.append_assoc, List.singleton_append] at hlive
  obtain ⟨w', hround, hw'⟩ := h.store hr hval hpick nofun hlive rfl
  -- whatever comes after `y` lies among the entries ahead
  have hmem : ∀ k, w'.txn.dbi.get k ≠ none → w.txn.dbi.before y.1 k → k ∈ ys'.map Prod.fst := by
    intro k hk hbefore
    have hbefore : w'.txn.dbi.before y.1 k := by
      rw [Dbi.before, hround.flags]
      exact hbefore
    have hkeys : k ∈ w'.txn.dbi.keys := by
      by_contra hno
      exact hk (Dbi.get_eq_none_iff.mpr hno)
    rw [Dbi.keys, hw'.pending.live, List.map_append, List.mem_append] at hkeys
    rcases hkeys with hpre | hys
    · obtain ⟨p, hp, rfl⟩ := List.mem_map.mp hpre
      exact absurd (hbefore.trans (hw'.pre_before p hp)) (lt_irrefl _)
    · rcases List.mem_cons.mp hys with rfl | hys
      · exact absurd hbefore (lt_irrefl _)
      · exact hys
  refine ⟨w', ys', hround, hw', hmem _ ?_ hplace, fun k hk => ?_⟩
  · rw [hround.get, if_pos rfl]
    exact Option.some_ne_none v
  · obtain ⟨z, hz, rfl⟩ := List.mem_map.mp hk
    refine hmem _ ?_ (h.before_of_mem z hz)
    rw [hround.get]
    split
    · exact Option.some_ne_none v
    · rw [h.pending.get_of_mem (List.mem_cons_of_mem _ hz)]
      exact Option.some_ne_none _

/-! ### What a round does -/

theorem Walking.next_done (hr : Replacing it val) (h : Walking it ik U w [] pre []) :
    Next it val ik U w [] [] := by
  obtain ⟨w₁, hfetch, htxn, hs⟩ := fetch_shown h.pending hr.ending h.short
  refine .done fun n => ?_
  rw [iterBoth, hfetch]
  simp only [bind, Except.bind, hs.head, hs.dbKV, List.head?_nil, pick, htxn]

theorem Walking.next_dbOnly (hr : Replacing it val) (h : Walking it ik U w xs pre (y :: ys))
    (hpick : pick it ik xs.head? (some y) = some (.dbOnly y.1 y.2))
    (hlow : ∀ x ∈ xs, Less ik y.1 (it.key x)) : Next it val ik U w xs (y :: ys) := by
  obtain ⟨w', pre', hround, hw'⟩ := h.dbOnly hr hpick
  exact .turn (.dbOnly hlow) hround hw'

/-- At the end of the DBI. -/
theorem Walking.next_append (hr : Replacing it val) (h : Walking it ik U w (x :: xs) pre []) :
    Next it val ik U w (x :: xs) [] := by
  cases hval : val x with
  | none =>
      obtain ⟨w', hround, hw'⟩ := h.skip hr hval rfl
      exact .turn (.skip hval) hround hw'
  | some v =>
      by_cases hlast : ∀ j ∈ w.txn.dbi.keys, w.txn.dbi.before j (it.key x)
      · obtain ⟨w', pre', hround, hw'⟩ := h.append hr hval hlast
        exact .turn (.append hval hlast) hround hw'
      · exact .refused hval hlast (h.append_error hr hval hlast)

/-- An entry below the next one of the DBI. -/
theorem Walking.next_itOnly (hr : Replacing it val) (h : Walking it ik U w (x :: xs) pre (y :: ys))
    (hpick : pick it ik (some x) (some y) = some (.itOnly x false))
    (hless : Less ik (it.key x) y.1) : Next it val ik U w (x :: xs) (y :: ys) := by
  cases hval : val x with
  | none =>
      obtain ⟨w', hround, hw'⟩ := h.skip hr hval hpick
      exact .turn (.skip hval) hround hw'
  | some v =>
      rcases lt_trichotomy (w.txn.dbi.flags.rank (it.key x)) (w.txn.dbi.flags.rank y.1) with
        hlt | heq | hgt
      · obtain ⟨w', pre', hround, hw'⟩ := h.behind hr hval hpick hlt
        exact .turn (.behind hval hless hlt) hround hw'
      · exact absurd (KeyFlags.rank_inj.mp heq) hless.ne
      · obtain ⟨w', ys', hround, hw', hmem, hsub⟩ := h.ahead hr hval hpick hgt
        exact .ahead hval hless hgt hround hw' hmem hsub

theorem Walking.advance (hr : Replacing it val) (h : Walking it ik U w xs pre ys) :
    Next it val ik U w xs ys := by
  match xs, ys, h with
  | [], [], h => exact h.next_done hr
  | [], y :: ys, h => exact h.next_dbOnly hr rfl nofun
  | x :: xs, [], h => exact h.next_append hr
  | x :: xs, y :: ys, h =>
      cases hcmp : cmpFunc ik y.1 (it.key x) with
      | lt =>
          refine h.next_dbOnly hr (by simp [pick, hcmp]) fun z hz => ?_
          rcases List.mem_cons.mp hz with rfl | hz
          · exact hcmp
          · exact Less.trans hcmp (h.head_less z hz)
      | eq =>
          have hyU : y.1 ∈ U := h.live _ (h.mem_keys (by simp))
          have hxU : it.key x ∈ U := h.entries x List.mem_cons_self
          rw [← h.integerKey] at hcmp
          have hxy : it.key x = y.1 := (eq_of_cmpFunc_eq h.allowed hyU hxU hcmp).symm
          rw [h.integerKey] at hcmp
          obtain ⟨w', pre', hround, hw'⟩ := h.both hr hxy (by simp [pick, hcmp])
          exact .turn (.both hxy) hround hw'
      | gt => exact h.next_itOnly hr (by simp [pick, hcmp]) (less_of_gt hcmp)

/-! ### An entry ahead of the cursor -/

/-- An entry that the walk has still to come to, or that is not there. -/
def Doomed (d : Dbi) (ys : List (Bytes × Bytes)) (k : Bytes) : Prop :=
  k ∈ ys.map Prod.fst ∨ d.get k = none

theorem Turn.doomed {d d' : Dbi} {xs' : List E} {ys' : List (Bytes × Bytes)} {k j : Bytes}
    {r : Option Bytes} (h : Turn it val ik d xs ys xs' ys' k r)
    (hget : ∀ j, d'.get j = if j = k then r else d.get j)
    (hlow : ∀ x ∈ xs, Less ik j (it.key x)) (hj : Doomed d ys j) :
    Doomed d' ys' j ∧ ∀ x ∈ xs', Less ik j (it.key x) := by
  have hstay : j ≠ k → d.get j = none → d'.get j = none := by
    intro hne hnone
    rw [hget, if_neg hne, hnone]
  cases h with
  | dbOnly _ =>
      refine ⟨?_, hlow⟩
      rcases hj with hj | hj
      · rcases List.mem_cons.mp hj with rfl | hj
        · exact Or.inr (by rw [hget, if_pos rfl])
        · exact Or.inl hj
      · refine Or.inr ?_
        rw [hget, hj, ite_self]
  | both hxy =>
      have hne := (hlow _ List.mem_cons_self).ne
      rw [hxy] at hne
      refine ⟨?_, fun z hz => hlow z (List.mem_cons_of_mem _ hz)⟩
      rcases hj with hj | hj
      · exact Or.inl ((List.mem_cons.mp hj).resolve_left hne)
      · exact Or.inr (hstay hne hj)
  | skip _ | append _ _ | behind _ _ _ =>
      have hne := (hlow _ List.mem_cons_self).ne
      exact ⟨hj.imp_right (hstay hne), fun z hz => hlow z (List.mem_cons_of_mem _ hz)⟩

/-- **What lies ahead of the cursor when the iterator has passed its key is deleted.** -/
theorem Walking.lost (hr : Replacing it val) {k : Bytes} : ∀ {n : ℕ} {w : Walk E} {xs : List E}
    {pre ys : List (Bytes × Bytes)} {t' : Txn}, Walking it ik U w xs pre ys →
    (∀ x ∈ xs, Less ik k (it.key x)) → Doomed w.txn.dbi ys k →
    iterBoth it ik (iterUpdateFunc it) n w = .ok t' → t'.dbi.get k = none
  | 0, _, _, _, _, _, _, _, _, hrun => by cases hrun
  | n + 1, w, xs, pre, ys, t', h, hlow, hk, hrun => by
      cases h.advance hr with
      | done hdone =>
          rw [hdone] at hrun
          cases hrun
          exact hk.resolve_left (by simp)
      | refused _ _ herror =>
          rw [herror] at hrun
          cases hrun
      | turn hturn hround hw =>
          rw [hround.run] at hrun
          obtain ⟨hk', hlow'⟩ := hturn.doomed hround.get hlow hk
          exact hw.lost hr hlow' hk' hrun
      | ahead hval hless hplace hround hw hmem hsub =>
          rw [hround.run] at hrun
          refine hw.lost hr (fun z hz => hlow z (List.mem_cons_of_mem _ hz)) ?_ hrun
          refine hk.imp (fun hk => ?_) fun hnone => ?_
          · exact (List.mem_cons.mp hk).elim (fun h => h ▸ List.mem_cons_self)
              fun h => List.mem_cons_of_mem _ (hsub k h)
          · rw [hround.get, if_neg (hlow _ List.mem_cons_self).ne, hnone]

end Rounds

/-! ### What the walk is to leave -/

/-- What is left of the DBI when the entries to come are gone. -/
def left (d : Dbi) (ys : List (Bytes × Bytes)) (j : Bytes) : Option Bytes :=
  if j ∈ ys.map Prod.fst then none else d.get j

/-- What a walk should leave at a key: what the iterator has for it, or else what is left. -/
def wanted (it : Iterator E ε) (val : E → Option Bytes) (rest : Bytes → Option Bytes) :
    List E → Bytes → Option Bytes
  | [], j => rest j
  | x :: xs, j => if it.key x = j then val x else wanted it val rest xs j

/-- A new entry with the key `k` comes to lie behind the cursor, or last. -/
structure HasPlace (ik : Bool) (f : KeyFlags) (ys : List (Bytes × Bytes))
    (target : Bytes → Option Bytes) (k : Bytes) : Prop where
  behind : ∀ y ∈ ys, Less ik k y.1 → f.rank k < f.rank y.1
  last : (∀ y ∈ ys, Less ik y.1 k) → ∀ j, target j ≠ none → Less ik j k → f.rank j < f.rank k

/-- Every entry that the iterator has a value for finds its place. -/
def Placeable (it : Iterator E ε) (val : E → Option Bytes) (ik : Bool) (d : Dbi) (xs : List E)
    (ys : List (Bytes × Bytes)) : Prop :=
  ∀ x ∈ xs, val x ≠ none → HasPlace ik d.flags ys (wanted it val (left d ys) xs) (it.key x)

/-- What is left was passed by the iterator. -/
def LeftBehind (it : Iterator E ε) (ik : Bool) (d : Dbi) (xs : List E)
    (ys : List (Bytes × Bytes)) : Prop :=
  ∀ j, left d ys j ≠ none → ∀ x ∈ xs, Less ik j (it.key x)

section Wanted

variable {it : Iterator E ε} {val : E → Option Bytes} {ik : Bool} {d d' : Dbi} {x : E}
  {xs xs' : List E} {y : Bytes × Bytes} {ys ys' : List (Bytes × Bytes)} {k j : Bytes}
  {r : Option Bytes} {rest rest' : Bytes → Option Bytes}

theorem wanted_congr (h : rest j = rest' j) :
    wanted it val rest xs j = wanted it val rest' xs j := by
  induction xs with
  | nil => exact h
  | cons x xs ih => rw [wanted, wanted, ih]

theorem wanted_of_not_mem (h : ∀ x ∈ xs, it.key x ≠ j) : wanted it val rest xs j = rest j := by
  induction xs with
  | nil => rfl
  | cons x xs ih =>
      rw [wanted, if_neg (h x List.mem_cons_self)]
      exact ih fun z hz => h z (List.mem_cons_of_mem _ hz)

/-- An entry that was dealt with is wanted as it is left. -/
theorem wanted_cons (hlow : ∀ z ∈ xs, Less ik (it.key x) (it.key z))
    (hhere : rest' (it.key x) = val x) (hother : ∀ j, j ≠ it.key x → rest' j = rest j) :
    wanted it val rest' xs = wanted it val rest (x :: xs) := by
  funext j
  rw [wanted]
  split
  · rename_i hj
    rw [← hj, wanted_of_not_mem fun z hz => (hlow z hz).ne.symm, hhere]
  · rename_i hj
    exact wanted_congr (hother j (Ne.symm hj))

theorem hasPlace_cons_iff {f : KeyFlags} {target : Bytes → Option Bytes} (h : Less ik y.1 k) :
    HasPlace ik f (y :: ys) target k ↔ HasPlace ik f ys target k := by
  constructor
  · rintro ⟨hbehind, hlast⟩
    refine ⟨fun z hz => hbehind z (List.mem_cons_of_mem _ hz), fun hlow => hlast fun z hz => ?_⟩
    rcases List.mem_cons.mp hz with rfl | hz
    · exact h
    · exact hlow z hz
  · rintro ⟨hbehind, hlast⟩
    refine ⟨fun z hz hless => ?_, fun hlow =>
      hlast fun z hz => hlow z (List.mem_cons_of_mem _ hz)⟩
    rcases List.mem_cons.mp hz with rfl | hz
    · exact absurd (h.trans hless) Less.irrefl
    · exact hbehind z hz hless

/-- A round that keeps what is wanted, and that deals with an entry that has a place, keeps
`Placeable`. -/
theorem placeable_cons_iff (hflags : d'.flags = d.flags)
    (hwanted : wanted it val (left d' ys') xs = wanted it val (left d ys) (x :: xs))
    (hx : val x ≠ none → HasPlace ik d.flags ys (wanted it val (left d ys) (x :: xs)) (it.key x))
    (hplace : ∀ z ∈ xs, ∀ target, HasPlace ik d.flags ys target (it.key z) ↔
      HasPlace ik d.flags ys' target (it.key z)) :
    Placeable it val ik d (x :: xs) ys ↔ Placeable it val ik d' xs ys' := by
  unfold Placeable
  rw [hwanted, hflags]
  constructor
  · intro h z hz hval
    exact (hplace z hz _).mp (h z (List.mem_cons_of_mem _ hz) hval)
  · intro h z hz hval
    rcases List.mem_cons.mp hz with rfl | hz
    · exact hx hval
    · exact (hplace z hz _).mpr (h z hz hval)

theorem left_eq_of_get (hget : ∀ j, d'.get j = if j = k then r else d.get j) (hj : j ≠ k) :
    left d' ys j = left d ys j := by
  rw [left, left, hget, if_neg hj]

theorem left_cons (hj : j ≠ y.1) : left d (y :: ys) j = left d ys j :=
  if_congr (by simp [hj]) rfl rfl

theorem left_cons_self : left d (y :: ys) y.1 = none := by
  simp [left]

theorem left_of_not_mem (hj : j ∉ ys.map Prod.fst) : left d ys j = d.get j := if_neg hj

theorem Turn.wanted_eq (h : Turn it val ik d xs ys xs' ys' k r)
    (hsorted : (xs.map it.key).Pairwise (Less ik))
    (hys : ys.Pairwise fun a b => d.before a.1 b.1) (hleft : LeftBehind it ik d xs ys)
    (hget : ∀ j, d'.get j = if j = k then r else d.get j) :
    wanted it val (left d' ys') xs' = wanted it val (left d ys) xs := by
  cases h with
  | @dbOnly _ y _ _ =>
      funext j
      apply wanted_congr
      by_cases hj : j = y.1
      · rw [hj, left_cons_self, left, hget, if_pos rfl, ite_self]
      · rw [left_eq_of_get hget hj, left_cons hj]
  | @both x xs y ys hxy =>
      refine wanted_cons (head_less_of_sorted hsorted) ?_ fun j hj => ?_
      · have hnot := not_mem_of_before (List.pairwise_cons.mp hys).1
        rw [hxy, left_of_not_mem hnot, hget, if_pos rfl]
      · rw [hxy] at hj
        rw [left_eq_of_get hget hj, left_cons hj]
  | @skip x xs ys hval =>
      refine wanted_cons (head_less_of_sorted hsorted) ?_ fun j hj => left_eq_of_get hget hj
      rw [hval]
      by_contra hne
      refine Less.irrefl (hleft (it.key x) ?_ x List.mem_cons_self)
      rwa [left, hget, if_pos rfl] at hne
  | @append x xs v hval hlast =>
      refine wanted_cons (head_less_of_sorted hsorted) ?_ fun j hj => left_eq_of_get hget hj
      rw [left, if_neg (by simp), hget, if_pos rfl, hval]
  | @behind x xs y ys v hval hless hplace =>
      refine wanted_cons (head_less_of_sorted hsorted) ?_ fun j hj => left_eq_of_get hget hj
      have hnot := not_mem_of_before (before_cons hplace (List.pairwise_cons.mp hys).1)
      rw [left_of_not_mem hnot, hget, if_pos rfl, hval]

theorem Turn.subset (h : Turn it val ik d xs ys xs' ys' k r) : ∀ z ∈ xs', z ∈ xs := by
  cases h with
  | dbOnly _ => exact fun z hz => hz
  | both _ | skip _ | append _ _ | behind _ _ _ => exact fun z hz => List.mem_cons_of_mem _ hz

theorem Turn.shorter (h : Turn it val ik d xs ys xs' ys' k r) :
    xs'.length + ys'.length < xs.length + ys.length := by
  cases h <;> simp only [List.length_cons, List.length_nil] <;> omega

/-- Only the key of a turn can be new behind the cursor. -/
theorem Turn.leftBehind (h : Turn it val ik d xs ys xs' ys' k r)
    (hsorted : (xs.map it.key).Pairwise (Less ik)) (hleft : LeftBehind it ik d xs ys)
    (hget : ∀ j, d'.get j = if j = k then r else d.get j) : LeftBehind it ik d' xs' ys' := by
  intro j hj z hz
  by_cases hk : j = k
  · cases h with
    | dbOnly _ =>
        rw [left, hget, if_pos hk, ite_self] at hj
        exact absurd rfl hj
    | both hxy =>
        rw [hk, ← hxy]
        exact head_less_of_sorted hsorted z hz
    | skip _ | append _ _ | behind _ _ _ =>
        rw [hk]
        exact head_less_of_sorted hsorted z hz
  · refine hleft j ?_ z (h.subset z hz)
    rw [left_eq_of_get hget hk] at hj
    cases h with
    | dbOnly _ | both _ => rwa [left_cons hk]
    | skip _ | append _ _ | behind _ _ _ => exact hj

theorem wanted_cases (h : wanted it val rest xs j ≠ none) :
    (∃ z ∈ xs, it.key z = j) ∨ rest j ≠ none := by
  by_cases hmem : ∃ z ∈ xs, it.key z = j
  · exact Or.inl hmem
  · push Not at hmem
    rw [wanted_of_not_mem hmem] at h
    exact Or.inr h

/-- **A turn neither creates nor solves a problem.** -/
theorem Turn.placeable_iff (h : Turn it val ik d xs ys xs' ys' k r)
    (hsorted : (xs.map it.key).Pairwise (Less ik))
    (hys : ys.Pairwise fun a b => d.before a.1 b.1) (hleft : LeftBehind it ik d xs ys)
    (hflags : d'.flags = d.flags) (hget : ∀ j, d'.get j = if j = k then r else d.get j) :
    Placeable it val ik d xs ys ↔ Placeable it val ik d' xs' ys' := by
  have hwanted := h.wanted_eq hsorted hys hleft hget
  cases h with
  | dbOnly hless =>
      unfold Placeable
      rw [hwanted, hflags]
      exact forall₂_congr fun z hz => imp_congr_right fun _ => hasPlace_cons_iff (hless z hz)
  | both hxy =>
      refine placeable_cons_iff hflags hwanted (fun _ => ⟨fun z hz hless => ?_, fun hall => ?_⟩)
        fun z hz _ => hasPlace_cons_iff (hxy ▸ head_less_of_sorted hsorted z hz)
      · rw [hxy] at hless ⊢
        rcases List.mem_cons.mp hz with rfl | hz
        · exact absurd hless Less.irrefl
        · exact (List.pairwise_cons.mp hys).1 z hz
      · exact absurd (hxy ▸ hall _ List.mem_cons_self) Less.irrefl
  | skip hval => exact placeable_cons_iff hflags hwanted (absurd hval) fun _ _ _ => Iff.rfl
  | append hval hlast =>
      refine placeable_cons_iff hflags hwanted (fun _ => ⟨nofun, fun _ j hj hless => ?_⟩)
        fun _ _ _ => Iff.rfl
      refine hlast j ?_
      rcases wanted_cases hj with ⟨z, hz, rfl⟩ | hj
      · rcases List.mem_cons.mp hz with rfl | hz
        · exact absurd hless Less.irrefl
        · exact absurd (hless.trans (head_less_of_sorted hsorted z hz)) Less.irrefl
      · by_contra hno
        exact hj (Dbi.get_eq_none_iff.mpr hno)
  | behind hval hless hplace =>
      refine placeable_cons_iff hflags hwanted (fun _ => ⟨fun z hz _ => ?_, fun hall => ?_⟩)
        fun _ _ _ => Iff.rfl
      · exact before_cons hplace (List.pairwise_cons.mp hys).1 z hz
      · exact absurd (hless.trans (hall _ List.mem_cons_self)) Less.irrefl

end Wanted

/-! ### The whole walk -/

section Runs

variable {it : Iterator E ε} {val : E → Option Bytes} {ik : Bool} {U : List Bytes}

/-- **If every entry finds its place, the walk succeeds** and leaves what it should. -/
theorem Walking.run_of_placeable (hr : Replacing it val) : ∀ {n : ℕ} {w : Walk E} {xs : List E}
    {pre ys : List (Bytes × Bytes)}, xs.length + ys.length < n → Walking it ik U w xs pre ys →
    LeftBehind it ik w.txn.dbi xs ys → Placeable it val ik w.txn.dbi xs ys →
    ∃ t', iterBoth it ik (iterUpdateFunc it) n w = .ok t' ∧
      t'.dbi.flags = w.txn.dbi.flags ∧
      ∀ j, t'.dbi.get j = wanted it val (left w.txn.dbi ys) xs j
  | 0, _, _, _, _, hn, _, _, _ => absurd hn (Nat.not_lt_zero _)
  | n + 1, w, xs, pre, ys, hn, h, hleft, hplaceable => by
      cases h.advance hr with
      | done hdone => exact ⟨w.txn, hdone n, rfl, fun j => rfl⟩
      | @refused x zs v hval hnot _ =>
          refine absurd (fun j hj => ?_) hnot
          obtain ⟨u, hu⟩ := Dbi.mem_keys_iff.mp hj
          have hlow := hleft j (by rw [left_of_not_mem (by simp), hu]; simp)
          refine (hplaceable x List.mem_cons_self (by simp [hval])).last nofun j ?_
            (hlow x List.mem_cons_self)
          rw [wanted_of_not_mem fun z hz => (hlow z hz).ne.symm, left_of_not_mem (by simp), hu]
          exact Option.some_ne_none u
      | turn hturn hround hw =>
          have hstep := hturn.placeable_iff h.sorted h.ys_sorted hleft hround.flags hround.get
          obtain ⟨t', hrun, hflags, hget⟩ := hw.run_of_placeable (n := n) hr
            (by have := hturn.shorter; omega) (hturn.leftBehind h.sorted hleft hround.get)
            (hstep.mp hplaceable)
          refine ⟨t', by rw [hround.run, hrun], hflags.trans hround.flags, fun j => ?_⟩
          rw [hget, hturn.wanted_eq h.sorted h.ys_sorted hleft hround.get]
      | @ahead x zs y _ _ _ _ v hval hless hplace _ _ _ _ =>
          have hbehind := (hplaceable x List.mem_cons_self (by simp [hval])).behind y
            List.mem_cons_self hless
          exact absurd (hbehind.trans hplace) (lt_irrefl _)

/-- **And otherwise it fails, or loses an entry.** -/
theorem Walking.placeable_of_run (hr : Replacing it val) : ∀ {n : ℕ} {w : Walk E} {xs : List E}
    {pre ys : List (Bytes × Bytes)} {t' : Txn}, Walking it ik U w xs pre ys →
    LeftBehind it ik w.txn.dbi xs ys → iterBoth it ik (iterUpdateFunc it) n w = .ok t' →
    (∀ x ∈ xs, val x ≠ none → t'.dbi.get (it.key x) ≠ none) →
    Placeable it val ik w.txn.dbi xs ys
  | 0, _, _, _, _, _, _, _, hrun, _ => by cases hrun
  | n + 1, w, xs, pre, ys, t', h, hleft, hrun, hkept => by
      cases h.advance hr with
      | done _ => exact nofun
      | refused _ _ herror =>
          rw [herror] at hrun
          cases hrun
      | turn hturn hround hw =>
          rw [hround.run] at hrun
          have hstep := hturn.placeable_iff h.sorted h.ys_sorted hleft hround.flags hround.get
          exact hstep.mpr (hw.placeable_of_run hr (hturn.leftBehind h.sorted hleft hround.get)
            hrun fun z hz => hkept z (hturn.subset z hz))
      | @ahead x zs y _ _ _ _ v hval _ _ hround hw hmem _ =>
          rw [hround.run] at hrun
          have hlost := hw.lost hr h.head_less (Or.inl (List.mem_cons_of_mem _ hmem)) hrun
          exact absurd hlost (hkept x List.mem_cons_self (by simp [hval]))

end Runs

/-! ## `IterUpdate` -/

section IterUpdate

variable {it : Iterator E ε} {val : E → Option Bytes} {t t' : Txn}

/-- What `IterUpdate` with such an iterator is to make of a key. -/
def Iterator.target (it : Iterator E ε) (val : E → Option Bytes) (j : Bytes) : Option Bytes :=
  (it.find j).bind val

theorem wanted_start (d : Dbi) :
    wanted it val (left d d.entries) it.entries = it.target val := by
  funext j
  have hleft : left d d.entries j = none := by
    unfold left
    split
    · rfl
    · rename_i hj
      exact Dbi.get_eq_none_iff.mpr hj
  unfold Iterator.target Iterator.find
  induction it.entries with
  | nil => exact hleft
  | cons x xs ih =>
      rw [wanted, ih, List.find?_cons]
      by_cases hx : it.key x = j
      · simp [hx]
      · simp [hx]

theorem walking_start (hne : ∀ x ∈ it.entries, Less t.dbi.flags.integerKey [] (it.key x))
    (hsorted : (it.entries.map it.key).Pairwise (Less t.dbi.flags.integerKey))
    (hsizes : t.dbi.flags.Allowed (it.entries.map it.key ++ t.dbi.keys)) :
    Walking it t.dbi.flags.integerKey (it.entries.map it.key ++ t.dbi.keys) (Walk.start it t)
      it.entries [] t.dbi.entries where
  pending := pending_start hne
  sorted := hsorted
  integerKey := rfl
  allowed := hsizes
  entries := fun x hx => List.mem_append_left _ (List.mem_map.mpr ⟨x, hx, rfl⟩)
  live := fun _ hj => List.mem_append_right _ hj

theorem leftBehind_start (d : Dbi) (ik : Bool) (xs : List E) :
    LeftBehind it ik d xs d.entries := by
  intro j hj
  unfold left at hj
  split at hj
  · exact absurd rfl hj
  · rename_i hno
    exact absurd (Dbi.get_eq_none_iff.mpr hno) hj

/-- **`IterUpdate` does what it is to do if every key of the iterator has a place.** -/
theorem iterUpdate_of_hasPlace (hr : Replacing it val)
    (hne : ∀ x ∈ it.entries, Less t.dbi.flags.integerKey [] (it.key x))
    (hsorted : (it.entries.map it.key).Pairwise (Less t.dbi.flags.integerKey))
    (hsizes : t.dbi.flags.Allowed (it.entries.map it.key ++ t.dbi.keys))
    (hplace : ∀ x ∈ it.entries, val x ≠ none → HasPlace t.dbi.flags.integerKey t.dbi.flags
      t.dbi.entries (it.target val) (it.key x)) :
    ∃ t', iterUpdate t it = .ok t' ∧ t'.dbi.flags = t.dbi.flags ∧
      ∀ j, t'.dbi.get j = it.target val j := by
  have hplaceable : Placeable it val t.dbi.flags.integerKey t.dbi it.entries t.dbi.entries := by
    unfold Placeable
    rw [wanted_start]
    exact hplace
  obtain ⟨t', hrun, hflags, hget⟩ := (walking_start hne hsorted hsizes).run_of_placeable hr
    (n := 2 * it.entries.length + t.dbi.entries.length + 1) (by omega) (leftBehind_start _ _ _)
    hplaceable
  refine ⟨t', hrun, hflags, fun j => ?_⟩
  rw [hget]
  exact congrFun (wanted_start t.dbi) j

/-- **Only then does it keep them all.** -/
theorem hasPlace_of_iterUpdate (hr : Replacing it val)
    (hne : ∀ x ∈ it.entries, Less t.dbi.flags.integerKey [] (it.key x))
    (hsorted : (it.entries.map it.key).Pairwise (Less t.dbi.flags.integerKey))
    (hsizes : t.dbi.flags.Allowed (it.entries.map it.key ++ t.dbi.keys))
    (hrun : iterUpdate t it = .ok t')
    (hkept : ∀ x ∈ it.entries, val x ≠ none → t'.dbi.get (it.key x) ≠ none) :
    ∀ x ∈ it.entries, val x ≠ none → HasPlace t.dbi.flags.integerKey t.dbi.flags t.dbi.entries
      (it.target val) (it.key x) := by
  have hplaceable := (walking_start hne hsorted hsizes).placeable_of_run hr
    (leftBehind_start _ _ _) hrun hkept
  unfold Placeable at hplaceable
  rw [show wanted it val (left (Walk.start it t).txn.dbi t.dbi.entries) it.entries =
    it.target val from wanted_start t.dbi] at hplaceable
  exact hplaceable

end IterUpdate

/-! ### Orders that agree -/

/-- In a DBI that lists its keys in the walk's order, the two orders agree. -/
theorem before_of_less {d : Dbi} {ik : Bool} (h : d.keys.Pairwise (Less ik)) {j k : Bytes}
    (hj : j ∈ d.keys) (hk : k ∈ d.keys) (hless : Less ik j k) : d.before j k := by
  obtain ⟨m, hm, rfl⟩ := List.getElem_of_mem hj
  obtain ⟨n, hn, rfl⟩ := List.getElem_of_mem hk
  rcases Nat.lt_trichotomy m n with hlt | rfl | hgt
  · exact List.pairwise_iff_getElem.mp d.keys_sorted m n hm hn hlt
  · exact absurd hless Less.irrefl
  · exact absurd (hless.trans (List.pairwise_iff_getElem.mp h n m hn hm hgt)) Less.irrefl

end LightningStream.Strategy
