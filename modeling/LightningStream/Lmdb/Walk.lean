import LightningStream.Base.Rounds
import LightningStream.Lmdb.LimitScanner

/-!
# Loops over a DBI

A loop `for scan.Scan()` over the entries of a DBI, with a body that may write to
it. If the body only replaces the value of the entry it is given, the cursor is not
disturbed: the loop is a fold over the entries that were there at the start
(`walk_eq_foldlM`).
-/

namespace LightningStream.Lmdb

variable {σ ε : Type}

/-- One turn of the loop. The DBI is part of the state. -/
def walkRound (dbi : σ → Dbi) (body : σ → Bytes × Bytes → Except ε σ) (s : σ × Scanner) :
    Except (Fault ε) ((σ × Scanner) ⊕ σ) :=
  match (s.2.scan (dbi s.1)).entry with
  | none => .ok (.inr s.1)
  | some e =>
      match body s.1 e with
      | .error err => .error (.error err)
      | .ok t => .ok (.inl (t, s.2.scan (dbi s.1)))

def walk (dbi : σ → Dbi) (body : σ → Bytes × Bytes → Except ε σ) (s : σ) :
    Except (Fault ε) σ :=
  runRounds (walkRound dbi body) ((dbi s).entries.length + 1) (s, .fresh)

/-- The value of an entry is replaced, or nothing changes. -/
def Replaces (d : Dbi) (e : Bytes × Bytes) (d' : Dbi) : Prop :=
  ∀ es fs, d.entries = es ++ e :: fs → ∃ v, d'.entries = es ++ (e.1, v) :: fs

theorem replaces_refl (d : Dbi) (e : Bytes × Bytes) : Replaces d e d :=
  fun _ _ h => ⟨e.2, h⟩

theorem replaces_put {t t' : Txn} {e : Bytes × Bytes} {v : Bytes} (h : t.put e.1 v = .ok t') :
    Replaces t.dbi e t'.dbi := by
  obtain ⟨ha, rfl⟩ := Txn.put_eq_ok h
  intro es fs hsplit
  exact ⟨v, Dbi.entries_set_replace hsplit ha⟩

/-- The cursor stands behind the entries `es`. -/
def Behind (es : List (Bytes × Bytes)) (sc : Scanner) : Prop :=
  es = [] ∧ sc = .fresh ∨ ∃ es' e v, es = es' ++ [e] ∧ sc = .on (e.1, v) false

/-- The next entry is the first of those ahead. -/
theorem Behind.scan {d : Dbi} {es fs : List (Bytes × Bytes)} {sc : Scanner} (h : Behind es sc)
    (hsplit : d.entries = es ++ fs) : sc.scan d = .place false fs.head? := by
  rcases h with ⟨rfl, rfl⟩ | ⟨es', e, v, rfl, rfl⟩
  · rw [List.nil_append] at hsplit
    rw [Scanner.scan, Dbi.next_none_eq_head, hsplit]
  · have hsorted := d.entries_sorted
    rw [hsplit, List.pairwise_append] at hsorted
    obtain ⟨hes, -, hfs⟩ := hsorted
    rw [List.pairwise_append] at hes
    have hnext : d.next (some e.1) = fs.head? := by
      refine Dbi.next_of_split hsplit (fun x hx => ?_) fun f hf => ?_
      · rcases List.mem_append.mp hx with hx | hx
        · exact Or.inl (hes.2.2 x hx e List.mem_cons_self)
        · exact Or.inr (by rw [List.mem_singleton.mp hx])
      · exact hfs e (by simp) f hf
    rw [Scanner.scan, hnext]

theorem runRounds_walk {dbi : σ → Dbi} {body : σ → Bytes × Bytes → Except ε σ}
    (hbody : ∀ s e t, body s e = .ok t → Replaces (dbi s) e (dbi t)) :
    ∀ (fs es : List (Bytes × Bytes)) (s : σ) (sc : Scanner) (fuel : ℕ),
      (dbi s).entries = es ++ fs → Behind es sc → fs.length < fuel →
      runRounds (walkRound dbi body) fuel (s, sc) = (fs.foldlM body s).mapError .error := by
  intro fs
  induction fs with
  | nil =>
      intro es s sc fuel hsplit hsc hfuel
      obtain ⟨fuel, rfl⟩ := Nat.exists_eq_succ_of_ne_zero (Nat.ne_of_gt hfuel)
      refine runRounds_done ?_
      rw [walkRound, hsc.scan hsplit]
      rfl
  | cons e fs ih =>
      intro es s sc fuel hsplit hsc hfuel
      obtain ⟨fuel, rfl⟩ := Nat.exists_eq_succ_of_ne_zero (Nat.ne_of_gt (Nat.zero_lt_of_lt hfuel))
      have hscan : sc.scan (dbi s) = .on e false := hsc.scan hsplit
      rw [List.foldlM_cons]
      cases hb : body s e with
      | error err =>
          have hround : walkRound dbi body (s, sc) = .error (.error err) := by
            simp [walkRound, hscan, Scanner.entry, hb]
          rw [runRounds_error hround]
          rfl
      | ok t =>
          have hround : walkRound dbi body (s, sc) = .ok (.inl (t, .on e false)) := by
            simp [walkRound, hscan, Scanner.entry, hb]
          obtain ⟨v, hv⟩ := hbody s e t hb es fs hsplit
          rw [runRounds_next hround]
          refine ih (es ++ [(e.1, v)]) t _ fuel ?_ ?_ (Nat.lt_of_succ_lt_succ hfuel)
          · rw [hv, List.append_assoc, List.singleton_append]
          · exact Or.inr ⟨es, (e.1, v), e.2, rfl, rfl⟩

/-- **A loop that replaces the entries it is given is a fold over them.** -/
theorem walk_eq_foldlM {dbi : σ → Dbi} {body : σ → Bytes × Bytes → Except ε σ}
    (hbody : ∀ s e t, body s e = .ok t → Replaces (dbi s) e (dbi t)) (s : σ) :
    walk dbi body s = ((dbi s).entries.foldlM body s).mapError .error :=
  runRounds_walk hbody _ [] s .fresh _ rfl (Or.inl ⟨rfl, rfl⟩) (Nat.lt_succ_self _)

end LightningStream.Lmdb
