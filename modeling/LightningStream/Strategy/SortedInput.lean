import LightningStream.Strategy.IterUpdate

/-!
# What `IterUpdate` computes, and what it refuses

Over sorted input `IterUpdate` is a function of what the two sides have for each
key. All that remains of the walk is the argument of `Clean` (`iterUpdate_pointwise`).

Input out of order is refused where the first key is met that is not above the one
before it. Up to there the walk is that of the input cut off at this key, which is
sorted and so cannot fail in any other way (`iterBoth_refuses`). The walk compares
the first key with an empty one, and that counts as the integer 0: input that
starts with the integer key 0 is refused as well (`refused_unsorted_iff`).
-/

namespace LightningStream.Strategy

open Lmdb

variable {E ε : Type}

/-- An iterator none of whose methods fail. -/
structure Total (it : Iterator E ε) (mg : E → Option Bytes → Option Bytes)
    (cl : Option E → Bytes → Option Bytes) : Prop where
  ending : it.ending = none
  merge : ∀ e old, it.merge e old = .ok (mg e old)
  clean : ∀ c old, it.clean c old = .ok (cl c old)

variable {it : Iterator E ε} {mg : E → Option Bytes → Option Bytes}
  {cl : Option E → Bytes → Option Bytes} {t : Txn} {xs : List E}

theorem Total.mergeable (h : Total it mg cl) (hord : InOrder t.dbi.flags)
    (hsizes : t.dbi.flags.Allowed (xs.map it.key ++ t.dbi.keys))
    (hsorted : (xs.map it.key).Pairwise (Less t.dbi.flags.integerKey)) :
    Mergeable it t.dbi.flags.integerKey t.dbi.flags mg cl (xs.map it.key ++ t.dbi.keys) xs
      t.dbi.entries :=
  mergeable_of_sorted hord hsizes hsorted (fun x _ => h.merge x none)
    (fun x _ v _ => h.merge x (some v)) (fun c _ v _ => h.clean c v)

/-! ## The pointwise specification -/

/-- What is to be stored for a key: the merged value if the iterator has the key, and
else what is left of the stored value after cleaning. The entry `Clean` can refer
to is the first one above the key, or the last one if there is none. -/
def pointwise (it : Iterator E ε) (mg : E → Option Bytes → Option Bytes)
    (cl : Option E → Bytes → Option Bytes) (d : Dbi) (k : Bytes) : Option Bytes :=
  match it.find k with
  | some e => mg e (d.get k)
  | none => (d.get k).bind (cl (context it d.flags.integerKey it.entries none k))

/-- Keys in the order of their bytes. -/
structure ByteOrdered (ks : List Bytes) : Prop where
  sorted : ks.Pairwise (· < ·)
  sizes : ∀ k ∈ ks, k ≠ [] ∧ k.length ≤ maxKeySize

theorem ByteOrdered.allowed {ks : List Bytes} (h : ByteOrdered ks) {d : Dbi}
    (hd : d.flags = KeyFlags.plain) : d.flags.Allowed (ks ++ d.keys) := by
  constructor
  · intro k hk
    rcases List.mem_append.mp hk with hk | hk
    · obtain ⟨hne, hlen⟩ := h.sizes k hk
      exact ⟨List.length_pos_iff.mpr hne, hlen⟩
    · exact d.keys_allowed.1 k hk
  · intro hik
    rw [hd] at hik
    cases hik

/-- **`IterUpdate` is its pointwise specification.** -/
theorem iterUpdate_pointwise (h : Total it mg cl) (hnil : ∀ e old, mg e old ≠ some [])
    (hkeys : ByteOrdered it.keys) (hplain : t.dbi.flags = KeyFlags.plain) :
    ∃ t', iterUpdate t it = .ok t' ∧ t'.dbi.flags = t.dbi.flags ∧
      ∀ k, t'.dbi.get k = pointwise it mg cl t.dbi k := by
  have hik : t.dbi.flags.integerKey = false := by
    rw [hplain]
    rfl
  have hord : InOrder t.dbi.flags := inOrder_of_forward (by rw [hplain]; rfl)
  have hsorted : it.keys.Pairwise (Less t.dbi.flags.integerKey) := by
    rw [hik]
    exact hkeys.sorted.imp fun hlt => less_iff.mpr hlt
  have hfirst : ∀ x ∈ it.entries, Less t.dbi.flags.integerKey [] (it.key x) := by
    intro x hx
    rw [hik]
    exact nil_less (hkeys.sizes _ (List.mem_map.mpr ⟨x, hx, rfl⟩)).1
  obtain ⟨t', hrun, hflags, hget⟩ := iterUpdate_spec h.ending hfirst
    (h.mergeable hord (hkeys.allowed hplain) hsorted)
  refine ⟨t', hrun, hflags, fun k => ?_⟩
  rw [hget k]
  unfold pointwise
  cases it.find k with
  | none => rfl
  | some e =>
      show present (mg e (t.dbi.get k)) = mg e (t.dbi.get k)
      cases hm : mg e (t.dbi.get k) with
      | none => rfl
      | some v => exact present_eq_some.mpr ⟨rfl, fun hv => hnil e _ (hv ▸ hm)⟩

/-- An iterator that takes a value away where it is stored already, and else adds it
with a mark. -/
def toggling (es : List (Bytes × Bytes)) : Iterator (Bytes × Bytes) Empty where
  entries := es
  ending := none
  key := Prod.fst
  merge := fun e old => .ok (if old = some e.2 then none else some (0 :: e.2))
  clean := fun _ _ => .ok none

theorem toggling_total (es : List (Bytes × Bytes)) :
    Total (toggling es) (fun e old => if old = some e.2 then none else some (0 :: e.2))
      (fun _ _ => none) where
  ending := rfl
  merge := fun _ _ => rfl
  clean := fun _ _ => rfl

def oneKey : Dbi := (Dbi.empty KeyFlags.plain).set [1] [8] Dbi.allowed_one

/-- A key that is taken away and one that is appended. -/
theorem iterUpdate_pointwise_toggling :
    ∃ t', iterUpdate (Txn.start oneKey) (toggling [([1], [8]), ([4], [9])]) = .ok t' ∧
      t'.dbi.get [1] = none ∧ t'.dbi.get [4] = some [0, 9] := by
  obtain ⟨t', hrun, -, hget⟩ := iterUpdate_pointwise (t := Txn.start oneKey)
    (toggling_total [([1], [8]), ([4], [9])]) (fun e old => by split <;> simp)
    ⟨by decide, by decide⟩ rfl
  refine ⟨t', hrun, ?_, ?_⟩
  · rw [hget]
    decide +kernel
  · rw [hget]
    decide +kernel

/-! ## The first key out of order -/

/-- The key before the next one, after the entries `xs`. -/
def lastKey (it : Iterator E ε) (prevKey : Bytes) (xs : List E) : Bytes :=
  xs.foldl (fun _ e => it.key e) prevKey

/-- Input out of order is sorted up to a first key that is not. -/
theorem exists_first_break {R : Bytes → Bytes → Prop} :
    ∀ {prevKey : Bytes} {xs : List E}, ¬ List.IsChain R (prevKey :: xs.map it.key) →
      ∃ pre x post, xs = pre ++ x :: post ∧ List.IsChain R (prevKey :: pre.map it.key) ∧
        ¬ R (lastKey it prevKey pre) (it.key x)
  | prevKey, [], h => absurd (List.isChain_singleton prevKey) h
  | prevKey, x :: xs, h => by
      rw [List.map_cons, List.isChain_cons_cons, not_and] at h
      by_cases hx : R prevKey (it.key x)
      · obtain ⟨pre, y, post, rfl, hchain, hy⟩ := exists_first_break (h hx)
        exact ⟨x :: pre, y, post, rfl, List.isChain_cons_cons.mpr ⟨hx, hchain⟩, hy⟩
      · exact ⟨[], x, xs, rfl, List.isChain_singleton _, hx⟩

/-! ## The walk over cut off input -/

section Cut

variable {ik : Bool} {w w₁ : Walk E} {x : E} {post : List E}

/-- The same walk, with more to come from the iterator. -/
def Walk.more (w : Walk E) (post : List E) : Walk E := { w with rest := w.rest ++ post }

theorem fetchDb_more (w : Walk E) (post : List E) :
    fetchDb (w.more post) = (fetchDb w).more post := by
  unfold fetchDb
  rw [show (w.more post).dbKV = w.dbKV from rfl, show (w.more post).dbEOF = w.dbEOF from rfl,
    show (w.more post).txn = w.txn from rfl, show (w.more post).pos = w.pos from rfl]
  split
  · cases w.txn.dbi.next w.pos with
    | none => rfl
    | some kv => rfl
  · rfl

theorem consume_more (w : Walk E) (post : List E) (t : Txn) (v : Visit E) :
    consume (w.more post) t v = (consume w t v).more post := by
  cases v with
  | dbOnly k u => rfl
  | itOnly e eof => rfl
  | both e k u => rfl

/-- A fetch from the cut off input either finds its end or does the same. -/
theorem fetchIt_more (post : List E) (h : fetchIt it ik w = .ok w₁) (heof : w.itEOF = false) :
    (w.head = none ∧ w.rest = []) ∨
    (fetchIt it ik (w.more post) = .ok (w₁.more post) ∧ w₁.itEOF = false ∧
      lastKey it w₁.prevKey w₁.rest = lastKey it w.prevKey w.rest ∧ ∃ e, w₁.head = some e) := by
  obtain ⟨rest, cur, head, itEOF, dbKV, dbEOF, pos, prevKey, txn⟩ := w
  simp only at heof
  subst heof
  cases head with
  | some e =>
      right
      have hsame : (⟨rest, cur, some e, false, dbKV, dbEOF, pos, prevKey, txn⟩ : Walk E) = w₁ :=
        Except.ok.inj h
      rw [← hsame]
      exact ⟨rfl, rfl, rfl, e, rfl⟩
  | none =>
      cases rest with
      | nil => exact Or.inl ⟨rfl, rfl⟩
      | cons e rest =>
          right
          rcases fetchIt_cases h with ⟨hrest, -⟩ | ⟨e', rest', hrest, hless, rfl⟩ | ⟨hor, -⟩
          · cases hrest
          · obtain ⟨rfl, rfl⟩ := List.cons.inj hrest
            refine ⟨?_, rfl, rfl, e, rfl⟩
            have hlen : ¬ (it.key e).length > maxKeySize := by
              intro hlong
              simp [fetchIt, hless, hlong] at h
            simp only [fetchIt, Walk.more, List.cons_append, Option.isNone_none, Bool.not_false,
              Bool.and_self, if_true, hless, not_true_eq_false, if_false, hlen]
          · simp at hor

/-- **A walk that succeeds on the input before a key fails on the input with it, if the
key is not above the last one.** -/
theorem iterBoth_refuses {f : Option E → Visit E → Txn → Except (StratErr ε) Txn} {t' : Txn} :
    ∀ {n : ℕ} {w : Walk E}, iterBoth it ik f n w = .ok t' → w.itEOF = false →
      ¬ Less ik (lastKey it w.prevKey w.rest) (it.key x) →
      iterBoth it ik f n (w.more (x :: post)) = .error (.notSorted (it.key x))
  | 0, _, h, _, _ => by cases h
  | n + 1, w, h, heof, hx => by
      rw [iterBoth] at h ⊢
      obtain ⟨w₁, hfetch, h⟩ := bind_eq_ok.mp h
      rcases fetchIt_more (x :: post) hfetch heof with
        ⟨hhead, hrest⟩ | ⟨hmore, heof₁, hlast, e, hhead⟩
      · -- the cut off input ends here, and the full one shows the key
        rw [hrest] at hx
        have hbad : ¬ Less ik w.prevKey (it.key x) := hx
        simp [fetchIt, Walk.more, hhead, heof, hrest, hbad, bind, Except.bind]
      · rw [hmore]
        obtain ⟨hitEOF, hprev, hrest, hsame, -⟩ := fetchDb_frame w₁
        simp only [bind, Except.bind] at h ⊢
        rw [fetchDb_more]
        simp only [Walk.more] at h ⊢
        cases hpick : pick it ik (fetchDb w₁).head (fetchDb w₁).dbKV with
        | none =>
            -- an entry is pending, so the walk is not at its end
            rw [hsame, hhead] at hpick
            exact absurd hpick pick_ne_none
        | some v =>
            rw [hpick] at h
            simp only at h ⊢
            obtain ⟨t₁, hf, h⟩ := bind_eq_ok.mp h
            rw [hf]
            show iterBoth it ik f n (consume ((fetchDb w₁).more (x :: post)) t₁ v) = _
            rw [consume_more]
            have hframe : (consume (fetchDb w₁) t₁ v).itEOF = false ∧
                (consume (fetchDb w₁) t₁ v).prevKey = w₁.prevKey ∧
                (consume (fetchDb w₁) t₁ v).rest = w₁.rest := by
              cases v <;> exact ⟨hitEOF.trans heof₁, hprev, hrest⟩
            refine iterBoth_refuses h hframe.1 ?_
            rw [hframe.2.1, hframe.2.2, hlast]
            exact hx

end Cut

/-! ## Which input is refused -/

section Refused

/-- The input is strictly increasing in the order of the DBI. -/
def Increasing (f : KeyFlags) (ks : List Bytes) : Prop :=
  ks.Pairwise fun a b => f.rank a < f.rank b

/-- The first key is the integer 0. -/
def StartsAtZero (f : KeyFlags) (ks : List Bytes) : Prop :=
  f.integerKey = true ∧ ∃ k, ks.head? = some k ∧ leNat k = 0

theorem accepts_sorted (h : Total it mg cl) (hord : InOrder t.dbi.flags)
    (hsizes : t.dbi.flags.Allowed (it.keys ++ t.dbi.keys))
    (hsorted : ([] :: it.keys).Pairwise (Less t.dbi.flags.integerKey)) :
    ∃ t', iterUpdate t it = .ok t' := by
  obtain ⟨hfirst, hsorted⟩ := List.pairwise_cons.mp hsorted
  obtain ⟨t', hrun, -⟩ := iterUpdate_spec h.ending
    (fun x hx => hfirst _ (List.mem_map.mpr ⟨x, hx, rfl⟩)) (h.mergeable hord hsizes hsorted)
  exact ⟨t', hrun⟩

theorem refuses_unsorted (h : Total it mg cl) (hord : InOrder t.dbi.flags)
    (hsizes : t.dbi.flags.Allowed (it.keys ++ t.dbi.keys))
    (hunsorted : ¬ ([] :: it.keys).Pairwise (Less t.dbi.flags.integerKey)) :
    ∃ k, iterUpdate t it = .error (.notSorted k) := by
  obtain ⟨pre, x, post, hxs, hchain, hx⟩ :=
    exists_first_break (fun hchain => hunsorted (isChain_less_pairwise hchain))
  obtain ⟨hfirst, hsorted⟩ := List.pairwise_cons.mp (isChain_less_pairwise hchain)
  have hpre : t.dbi.flags.Allowed (pre.map it.key ++ t.dbi.keys) := by
    apply hsizes.subset
    intro k hk
    unfold Iterator.keys
    rw [hxs, List.map_append, List.append_assoc]
    rcases List.mem_append.mp hk with hk | hk
    · exact List.mem_append_left _ hk
    · exact List.mem_append_right _ (List.mem_append_right _ hk)
  -- the walk over the sorted part ends well
  obtain ⟨t', hrun, -⟩ := iterBoth_finishes h.ending
    (n := 2 * it.entries.length + t.dbi.entries.length + 1)
    (by rw [hxs, List.length_append]; omega)
    ⟨pending_start fun x hx => hfirst _ (List.mem_map.mpr ⟨x, hx, rfl⟩),
      h.mergeable hord hpre hsorted, by simp, by simp⟩
  refine ⟨it.key x, ?_⟩
  have hstart : Walk.start it t =
      Walk.more { Walk.start it t with rest := pre } (x :: post) := by
    unfold Walk.start Walk.more
    rw [hxs]
  rw [iterUpdate, hstart]
  exact iterBoth_refuses hrun rfl hx

/-- Sorted from an empty key on means increasing, and not from 0 on. -/
theorem sorted_iff {f : KeyFlags} {ks : List Bytes} (hord : InOrder f) (hks : f.Allowed ks) :
    ([] :: ks).Pairwise (Less f.integerKey) ↔ Increasing f ks ∧ ¬ StartsAtZero f ks := by
  have hrank : ks.Pairwise (Less f.integerKey) ↔ Increasing f ks :=
    List.Pairwise.iff_of_mem fun ha hb => less_iff_rank hord hks ha hb
  have hzero : ∀ k ∈ ks, Less f.integerKey [] k ↔ ¬ (f.integerKey = true ∧ leNat k = 0) := by
    intro k hk
    cases hik : f.integerKey with
    | false =>
        have hne : k ≠ [] := List.length_pos_iff.mp (hks.1 k hk).1
        exact iff_of_true (nil_less hne) (by simp)
    | true =>
        rw [less_iff, if_pos rfl, bytesToInt_eq hks hik hk, show bytesToInt [] = 0 from rfl]
        simp [Nat.pos_iff_ne_zero]
  rw [List.pairwise_cons, and_comm, hrank]
  refine and_congr_right fun hinc => ?_
  constructor
  · rintro hfirst ⟨hik, k, hk, hk0⟩
    have hmem := List.mem_of_mem_head? hk
    exact (hzero k hmem).mp (hfirst k hmem) ⟨hik, hk0⟩
  · intro hstart k hk
    cases ks with
    | nil => cases hk
    | cons k₀ ks =>
        have hk₀ : Less f.integerKey [] k₀ :=
          (hzero k₀ List.mem_cons_self).mpr fun hz => hstart ⟨hz.1, k₀, rfl, hz.2⟩
        rcases List.mem_cons.mp hk with rfl | hk
        · exact hk₀
        · exact hk₀.trans ((List.pairwise_cons.mp (hrank.mpr hinc)).1 k hk)

/-- **Input out of order is refused, and only that, exactly if it is not input that is in
order and starts with the integer key 0.** All other input in order is accepted. -/
theorem refused_unsorted_iff (h : Total it mg cl) (hord : InOrder t.dbi.flags)
    (hsizes : t.dbi.flags.Allowed (it.keys ++ t.dbi.keys)) :
    (((∃ k, iterUpdate t it = .error (.notSorted k)) ↔ ¬ Increasing t.dbi.flags it.keys) ↔
      ¬ (Increasing t.dbi.flags it.keys ∧ StartsAtZero t.dbi.flags it.keys)) ∧
    (Increasing t.dbi.flags it.keys → ¬ StartsAtZero t.dbi.flags it.keys →
      ∃ t', iterUpdate t it = .ok t') := by
  have hiff := sorted_iff hord (hsizes.subset fun k hk => List.mem_append_left _ hk)
  have hrefused : (∃ k, iterUpdate t it = .error (.notSorted k)) ↔
      ¬ (Increasing t.dbi.flags it.keys ∧ ¬ StartsAtZero t.dbi.flags it.keys) := by
    rw [← hiff]
    constructor
    · rintro ⟨k, hk⟩ hsorted
      obtain ⟨t', hok⟩ := accepts_sorted h hord hsizes hsorted
      rw [hk] at hok
      cases hok
    · intro hunsorted
      exact refuses_unsorted h hord hsizes hunsorted
  constructor
  · rw [hrefused]
    tauto
  · intro hinc hzero
    exact accepts_sorted h hord hsizes (hiff.mpr ⟨hinc, hzero⟩)

instance increasingDecidable (f : KeyFlags) (ks : List Bytes) : Decidable (Increasing f ks) :=
  inferInstanceAs (Decidable (List.Pairwise _ _))

/-- The same key twice. -/
theorem refused_unsorted_twice :
    ∃ k, iterUpdate (Txn.start oneKey) (toggling [([1], [8]), ([1], [9])]) =
      .error (.notSorted k) := by
  have hiff := (refused_unsorted_iff (t := Txn.start oneKey)
    (toggling_total [([1], [8]), ([1], [9])]) (inOrder_of_forward rfl) (by decide)).1
  have htwice : ¬ Increasing (Txn.start oneKey).dbi.flags
      (toggling [([1], [8]), ([1], [9])]).keys := by
    decide
  exact (hiff.mpr fun h => htwice h.1).mpr htwice

/-- Two integer keys in order, of which the first is 0. -/
theorem zero_key_refused :
    Increasing ⟨false, true⟩ (toggling [([0, 0, 0, 0], [8]), ([1, 0, 0, 0], [9])]).keys ∧
      iterUpdate (Txn.start (Dbi.empty ⟨false, true⟩))
          (toggling [([0, 0, 0, 0], [8]), ([1, 0, 0, 0], [9])]) =
        .error (.notSorted [0, 0, 0, 0]) := by
  constructor
  · decide
  · decide +kernel

end Refused

end LightningStream.Strategy
