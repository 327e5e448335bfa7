import Mathlib.Data.List.Lex
import Mathlib.Tactic

/-!
# Byte strings

Byte strings are lists of `UInt8`, compared lexicographically; this is the
order of `bytes.Compare`. The file adds the linear orders Lean's machine
integers lack, the fixed-width big and little endian codecs, and in-place
writes into a preallocated buffer.
-/

namespace LightningStream

/-! ## Orders -/

instance uint8LinearOrder : LinearOrder UInt8 where
  le_refl := UInt8.le_refl
  le_trans _ _ _ := UInt8.le_trans
  lt_iff_le_not_ge a b := by
    rw [UInt8.lt_iff_toNat_lt, UInt8.le_iff_toNat_le, UInt8.le_iff_toNat_le]
    omega
  le_antisymm _ _ := UInt8.le_antisymm
  le_total := UInt8.le_total
  toDecidableLE := inferInstance

instance uint32LinearOrder : LinearOrder UInt32 where
  le_refl := UInt32.le_refl
  le_trans _ _ _ := UInt32.le_trans
  lt_iff_le_not_ge a b := by
    rw [UInt32.lt_iff_toNat_lt, UInt32.le_iff_toNat_le, UInt32.le_iff_toNat_le]
    omega
  le_antisymm _ _ := UInt32.le_antisymm
  le_total := UInt32.le_total
  toDecidableLE := inferInstance

instance uint64LinearOrder : LinearOrder UInt64 where
  le_refl := UInt64.le_refl
  le_trans _ _ _ := UInt64.le_trans
  lt_iff_le_not_ge a b := by
    rw [UInt64.lt_iff_toNat_lt, UInt64.le_iff_toNat_le, UInt64.le_iff_toNat_le]
    omega
  le_antisymm _ _ := UInt64.le_antisymm
  le_total := UInt64.le_total
  toDecidableLE := inferInstance

instance uint32WellFoundedLT : WellFoundedLT UInt32 :=
  ⟨InvImage.wf UInt32.toNat Nat.lt_wfRel.wf⟩

instance uint64WellFoundedLT : WellFoundedLT UInt64 :=
  ⟨InvImage.wf UInt64.toNat Nat.lt_wfRel.wf⟩

abbrev Bytes : Type := List UInt8

instance bytesLawfulBEq : LawfulBEq Bytes := inferInstance

theorem append_lt_append_iff {α : Type} [LinearOrder α] (p : List α) {a b : List α} :
    p ++ a < p ++ b ↔ a < b := by
  induction p with
  | nil => rfl
  | cons x p ih => simp [ih]

/-- Behind starts of one length, the starts are compared first. -/
theorem append_lt_iff_of_length {α : Type} [LinearOrder α] : ∀ {a b x y : List α},
    a.length = b.length → (a ++ x < b ++ y ↔ a < b ∨ a = b ∧ x < y)
  | [], [], x, y, _ => by simp
  | c :: a, d :: b, x, y, h => by
      have ih := @append_lt_iff_of_length α _ a b x y (by simpa using h)
      simp only [List.cons_append, List.cons_lt_cons_iff, List.cons.injEq, ih]
      constructor
      · rintro (hcd | ⟨rfl, hab | ⟨rfl, hxy⟩⟩)
        · exact Or.inl (Or.inl hcd)
        · exact Or.inl (Or.inr ⟨rfl, hab⟩)
        · exact Or.inr ⟨⟨rfl, rfl⟩, hxy⟩
      · rintro ((hcd | ⟨rfl, hab⟩) | ⟨⟨rfl, rfl⟩, hxy⟩)
        · exact Or.inl hcd
        · exact Or.inr ⟨rfl, Or.inl hab⟩
        · exact Or.inr ⟨rfl, Or.inr ⟨rfl, hxy⟩⟩

theorem nil_lt_concat {α : Type} [LinearOrder α] (a : List α) (x : α) : [] < a ++ [x] := by
  cases a <;> simp

/-- One list is below another if it ends where the other goes on, or is smaller
where they first differ. -/
theorem lt_iff_extends_or_differs {α : Type} [LinearOrder α] : ∀ {a b : List α},
    a < b ↔ (∃ c rest, b = a ++ c :: rest) ∨
      ∃ p x y as bs, a = p ++ x :: as ∧ b = p ++ y :: bs ∧ x < y
  | a, [] => by simp
  | [], y :: bs => by simp
  | x :: as, y :: bs => by
      rw [List.cons_lt_cons_iff, lt_iff_extends_or_differs]
      constructor
      · rintro (h | ⟨rfl, ⟨c, rest, rfl⟩ | ⟨p, u, v, us, vs, rfl, rfl, h⟩⟩)
        · exact Or.inr ⟨[], x, y, as, bs, rfl, rfl, h⟩
        · exact Or.inl ⟨c, rest, rfl⟩
        · exact Or.inr ⟨x :: p, u, v, us, vs, rfl, rfl, h⟩
      · rintro (⟨c, rest, h⟩ | ⟨p, u, v, us, vs, ha, hb, h⟩)
        · obtain ⟨rfl, rfl⟩ := List.cons.inj h
          exact Or.inr ⟨rfl, Or.inl ⟨c, rest, rfl⟩⟩
        · cases p with
          | nil =>
              obtain ⟨rfl, rfl⟩ := List.cons.inj ha
              obtain ⟨rfl, rfl⟩ := List.cons.inj hb
              exact Or.inl h
          | cons z p =>
              obtain ⟨rfl, rfl⟩ := List.cons.inj ha
              obtain ⟨rfl, rfl⟩ := List.cons.inj hb
              exact Or.inr ⟨rfl, Or.inr ⟨p, u, v, us, vs, rfl, rfl, h⟩⟩

/-! ## Fixed-width integers -/

/-- The `n` low bytes of `x`, least significant first. -/
def leBytes : ℕ → ℕ → Bytes
  | 0, _ => []
  | n + 1, x => UInt8.ofNat (x % 256) :: leBytes n (x / 256)

/-- The number whose little endian digits are the given bytes. -/
def leNat : Bytes → ℕ
  | [] => 0
  | b :: bs => b.toNat + 256 * leNat bs

def beBytes (n x : ℕ) : Bytes := (leBytes n x).reverse

def beNat (b : Bytes) : ℕ := leNat b.reverse

@[simp] theorem leBytes_length (n x : ℕ) : (leBytes n x).length = n := by
  induction n generalizing x with
  | zero => rfl
  | succ n ih => simp [leBytes, ih]

@[simp] theorem beBytes_length (n x : ℕ) : (beBytes n x).length = n := by
  simp [beBytes]

theorem leNat_leBytes (n x : ℕ) : leNat (leBytes n x) = x % 256 ^ n := by
  induction n generalizing x with
  | zero => simp [leBytes, leNat, Nat.mod_one]
  | succ n ih =>
      have hb : (UInt8.ofNat (x % 256)).toNat = x % 256 := by
        rw [UInt8.toNat_ofNat']
        omega
      rw [leBytes, leNat, ih, hb, pow_succ, Nat.mul_comm (256 ^ n) 256,
        Nat.mod_mul]

theorem beNat_beBytes (n x : ℕ) : beNat (beBytes n x) = x % 256 ^ n := by
  rw [beNat, beBytes, List.reverse_reverse, leNat_leBytes]

theorem leNat_lt (b : Bytes) : leNat b < 256 ^ b.length := by
  induction b with
  | nil => simp [leNat]
  | cons x xs ih =>
      have hx : x.toNat < 256 := x.toNat_lt
      rw [leNat, List.length_cons, pow_succ]
      omega

theorem leBytes_leNat (b : Bytes) : leBytes b.length (leNat b) = b := by
  induction b with
  | nil => rfl
  | cons x xs ih =>
      have hx : x.toNat < 256 := x.toNat_lt
      have hmod : (x.toNat + 256 * leNat xs) % 256 = x.toNat := by omega
      have hdiv : (x.toNat + 256 * leNat xs) / 256 = leNat xs := by omega
      rw [leNat, List.length_cons, leBytes, hmod, hdiv, ih]
      simp

theorem beNat_lt (b : Bytes) : beNat b < 256 ^ b.length := by
  simpa [beNat] using leNat_lt b.reverse

theorem leNat_append (a b : Bytes) : leNat (a ++ b) = leNat a + 256 ^ a.length * leNat b := by
  induction a with
  | nil => simp [leNat]
  | cons x xs ih =>
      rw [List.cons_append, leNat, leNat, ih, List.length_cons, pow_succ]
      ring

theorem beNat_cons (x : UInt8) (xs : Bytes) :
    beNat (x :: xs) = beNat xs + 256 ^ xs.length * x.toNat := by
  rw [beNat, List.reverse_cons, leNat_append, List.length_reverse]
  simp [beNat, leNat]

theorem leNat_inj {a b : Bytes} (hlen : a.length = b.length) (h : leNat a = leNat b) :
    a = b := by
  rw [← leBytes_leNat a, ← leBytes_leNat b, h, hlen]

/-- On byte strings of one length the bytewise order is the order of the big
endian numbers. -/
theorem beNat_lt_iff : ∀ {a b : Bytes}, a.length = b.length → (beNat a < beNat b ↔ a < b)
  | [], [], _ => by simp
  | x :: xs, y :: ys, hlen => by
      have hlen' : xs.length = ys.length := by simpa using hlen
      have hx := beNat_lt xs
      have hy := beNat_lt ys
      rw [beNat_cons, beNat_cons, List.cons_lt_cons_iff, ← beNat_lt_iff hlen', ← hlen']
      rw [← hlen'] at hy
      rcases lt_trichotomy x.toNat y.toNat with h | h | h
      · have hmul : 256 ^ xs.length * (x.toNat + 1) ≤ 256 ^ xs.length * y.toNat :=
          Nat.mul_le_mul_left _ h
        have hxy : x < y := UInt8.lt_iff_toNat_lt.mpr h
        rw [Nat.mul_add, Nat.mul_one] at hmul
        simp only [hxy, true_or, iff_true]
        omega
      · have hxy : x = y := UInt8.toNat_inj.mp h
        simp [hxy]
      · have hmul : 256 ^ xs.length * (y.toNat + 1) ≤ 256 ^ xs.length * x.toNat :=
          Nat.mul_le_mul_left _ h
        have hyx : y < x := UInt8.lt_iff_toNat_lt.mpr h
        rw [Nat.mul_add, Nat.mul_one] at hmul
        simp only [hyx.not_gt, hyx.ne', false_and, or_self, iff_false, not_lt]
        omega

/-! ## Writing into a buffer

A buffer has a fixed length. `put` writes at an offset and fails when the
bytes do not fit; `copyAt` writes as many bytes as fit. -/

/-- A buffer together with the offset of the next write. -/
structure Buf where
  data : Bytes
  offset : ℕ
deriving DecidableEq

namespace Buf

def overwrite (b : Buf) (xs : Bytes) : Buf :=
  ⟨b.data.take b.offset ++ xs ++ b.data.drop (b.offset + xs.length),
    b.offset + xs.length⟩

/-- Write `xs` at the offset; `none` is an index out of range. -/
def put (xs : Bytes) (b : Buf) : Option Buf :=
  if b.offset + xs.length ≤ b.data.length then some (b.overwrite xs) else none

/-- The built-in `copy`: silently stops at the end of the buffer. -/
def copyAt (xs : Bytes) (b : Buf) : Buf :=
  b.overwrite (xs.take (b.data.length - b.offset))

/-- The bytes in front of the offset, `b[:offset]`. -/
def written (b : Buf) : Bytes := b.data.take b.offset

/-- A buffer that has had `xs` written from offset `start`, with `room` bytes
still to fill behind them. -/
structure Wrote (b : Buf) (start : Bytes) (xs : Bytes) (room : ℕ) : Prop where
  offset_eq : b.offset = start.length + xs.length
  split : ∃ tail, tail.length = room ∧ b.data = start ++ xs ++ tail

theorem Wrote.put {b : Buf} {start xs ys : Bytes} {room : ℕ}
    (h : b.Wrote start xs room) (hfit : ys.length ≤ room) :
    ∃ b', b.put ys = some b' ∧ b'.Wrote start (xs ++ ys) (room - ys.length) := by
  obtain ⟨tail, hlen, hdata⟩ := h.split
  have hoff : b.offset = (start ++ xs).length := by simp [h.offset_eq]
  refine ⟨b.overwrite ys, ?_, ?_, ⟨tail.drop ys.length, ?_, ?_⟩⟩
  · rw [Buf.put, if_pos]
    rw [h.offset_eq, hdata]
    simp
    omega
  · simp [overwrite, h.offset_eq, Nat.add_assoc]
  · simp [hlen]
  · simp only [overwrite, hdata, hoff]
    rw [List.take_left, ← List.drop_drop, List.drop_left]
    simp [List.append_assoc]

theorem Wrote.copyAt {b : Buf} {start xs ys : Bytes} {room : ℕ}
    (h : b.Wrote start xs room) (hfit : ys.length ≤ room) :
    (b.copyAt ys).Wrote start (xs ++ ys) (room - ys.length) := by
  obtain ⟨b', hput, hb'⟩ := h.put hfit
  obtain ⟨tail, hlen, hdata⟩ := h.split
  have hall : ys.take (b.data.length - b.offset) = ys := by
    apply List.take_of_length_le
    rw [hdata, h.offset_eq]
    simp
    omega
  have heq : b.overwrite ys = b' := by
    rw [Buf.put] at hput
    split at hput
    · exact Option.some.inj hput
    · cases hput
  rw [Buf.copyAt, hall, heq]
  exact hb'

theorem Wrote.written_eq {b : Buf} {xs : Bytes} {room : ℕ}
    (h : b.Wrote [] xs room) : b.written = xs := by
  obtain ⟨tail, -, hdata⟩ := h.split
  rw [written, hdata, h.offset_eq]
  simp

/-- When no room is left the whole buffer is known. -/
theorem Wrote.data_eq {b : Buf} {start xs : Bytes} (h : b.Wrote start xs 0) :
    b.data = start ++ xs := by
  obtain ⟨tail, hlen, hdata⟩ := h.split
  rw [List.length_eq_zero_iff.mp hlen] at hdata
  simpa using hdata

/-- A fresh region of `n` zero bytes behind `start`. -/
theorem wrote_fresh (start : Bytes) (n : ℕ) :
    (Buf.mk (start ++ List.replicate n 0) start.length).Wrote start [] n :=
  ⟨by simp, List.replicate n 0, by simp, by simp⟩

end Buf

end LightningStream
