import LightningStream.Base.Bytes

/-!
# Variable-length integers

An encoder and decoder for 64 bit integers of variable length, known only by
their laws. A reader of such integers sees the value and the number of bytes
it takes. `leb128` is the encoding that protocol buffers use.
-/

namespace LightningStream

/-- The encoding of an integer, its size, and the decoding of a prefix. -/
structure Varint where
  encode : UInt64 → Bytes
  size : UInt64 → ℕ
  decode : Bytes → Option (UInt64 × ℕ)

namespace Varint

/-- The decoder inverts the encoder, reads 1 to 10 bytes of its input, and looks
at nothing behind them. -/
class Lawful (V : Varint) : Prop where
  decode_encode : ∀ v, V.decode (V.encode v) = some (v, (V.encode v).length)
  encode_length : ∀ v, 1 ≤ (V.encode v).length ∧ (V.encode v).length ≤ 10
  encode_small : ∀ v, v < 128 → (V.encode v).length = 1
  size_eq : ∀ v, V.size v = (V.encode v).length
  decode_length : ∀ {b v n}, V.decode b = some (v, n) → 1 ≤ n ∧ n ≤ b.length ∧ n ≤ 10
  decode_append : ∀ {b v}, V.decode b = some (v, b.length) →
    ∀ rest, V.decode (b ++ rest) = some (v, b.length)

variable {V : Varint} [V.Lawful]

theorem decode_encode_append (v : UInt64) (rest : Bytes) :
    V.decode (V.encode v ++ rest) = some (v, (V.encode v).length) :=
  Lawful.decode_append (Lawful.decode_encode v) rest

theorem decode_nil : V.decode [] = none := by
  cases h : V.decode [] with
  | none => rfl
  | some r =>
      obtain ⟨h1, h2, -⟩ :=
        Lawful.decode_length (V := V) (show V.decode [] = some (r.1, r.2) from h)
      simp at h2
      omega

end Varint

/-! ## LEB128 -/

/-- Seven bits a byte, lowest first; all bytes but the last have the high bit. -/
def lebEncode : ℕ → ℕ → Bytes
  | 0, _ => []
  | fuel + 1, n =>
      if n < 128 then [UInt8.ofNat n]
      else UInt8.ofNat (n % 128 + 128) :: lebEncode fuel (n / 128)

def lebDecode : ℕ → Bytes → Option (ℕ × ℕ)
  | 0, _ => none
  | _ + 1, [] => none
  | fuel + 1, b :: bs =>
      if b.toNat < 128 then some (b.toNat, 1)
      else (lebDecode fuel bs).map fun r => (b.toNat - 128 + 128 * r.1, r.2 + 1)

/-- At most ten bytes, and nothing that does not fit 64 bits. A sample to run examples
on: other decoders, csproto's among them, accept ten bytes with more than 64 bits and
drop what is too much. -/
def leb128 : Varint where
  encode := fun v => lebEncode 10 v.toNat
  size := fun v => (lebEncode 10 v.toNat).length
  decode := fun b => (lebDecode 10 b).bind fun r =>
    if r.1 < 2 ^ 64 then some (UInt64.ofNat r.1, r.2) else none

theorem lebEncode_length {fuel n : ℕ} (h : 0 < fuel) :
    1 ≤ (lebEncode fuel n).length ∧ (lebEncode fuel n).length ≤ fuel := by
  induction fuel generalizing n with
  | zero => omega
  | succ fuel ih =>
      unfold lebEncode
      split
      · simp
      · rcases Nat.eq_zero_or_pos fuel with rfl | hpos
        · simp [lebEncode]
        · have := ih (n := n / 128) hpos
          simp only [List.length_cons]
          omega

theorem lebDecode_lebEncode {fuel n : ℕ} (h : n < 128 ^ (fuel + 1)) :
    lebDecode (fuel + 1) (lebEncode (fuel + 1) n) =
      some (n, (lebEncode (fuel + 1) n).length) := by
  induction fuel generalizing n with
  | zero =>
      have hn : n < 128 := by simpa using h
      have hb : (UInt8.ofNat n).toNat = n := by
        rw [UInt8.toNat_ofNat']
        omega
      simp [lebEncode, lebDecode, hn, hb]
  | succ fuel ih =>
      rw [lebEncode]
      split
      · rename_i hn
        have hb : (UInt8.ofNat n).toNat = n := by
          rw [UInt8.toNat_ofNat']
          omega
        simp [lebDecode, hn, hb]
      · have hb : (UInt8.ofNat (n % 128 + 128)).toNat = n % 128 + 128 := by
          rw [UInt8.toNat_ofNat']
          omega
        have hdiv : n / 128 < 128 ^ (fuel + 1) := by
          rw [Nat.div_lt_iff_lt_mul (by norm_num), ← pow_succ]
          exact h
        rw [lebDecode, hb, if_neg (by omega), ih hdiv]
        simp only [Option.map_some, List.length_cons, Option.some.injEq, Prod.mk.injEq, and_true]
        omega

theorem lebDecode_length {fuel : ℕ} : ∀ {b : Bytes} {v n : ℕ}, lebDecode fuel b = some (v, n) →
    1 ≤ n ∧ n ≤ b.length ∧ n ≤ fuel := by
  induction fuel with
  | zero =>
      intro b v n h
      cases h
  | succ fuel ih =>
      intro b v n h
      cases b with
      | nil => cases h
      | cons x xs =>
          unfold lebDecode at h
          split at h
          · obtain ⟨-, rfl⟩ := Prod.mk.inj (Option.some.inj h)
            simp
          · obtain ⟨r, hr, heq⟩ := Option.map_eq_some_iff.mp h
            have hlen := ih (show lebDecode fuel xs = some (r.1, r.2) from hr)
            obtain ⟨-, rfl⟩ := Prod.mk.inj heq
            simp only [List.length_cons]
            omega

theorem lebDecode_append {fuel : ℕ} (rest : Bytes) : ∀ {b : Bytes} {v n : ℕ},
    lebDecode fuel b = some (v, n) → lebDecode fuel (b ++ rest) = some (v, n) := by
  induction fuel with
  | zero =>
      intro b v n h
      cases h
  | succ fuel ih =>
      intro b v n h
      cases b with
      | nil => cases h
      | cons x xs =>
          rw [List.cons_append]
          unfold lebDecode at h ⊢
          split at h
          · rename_i hx
            rw [if_pos hx]
            exact h
          · rename_i hx
            obtain ⟨r, hr, heq⟩ := Option.map_eq_some_iff.mp h
            rw [if_neg hx, ih (show lebDecode fuel xs = some (r.1, r.2) from hr)]
            exact congrArg some heq

theorem leb128_decode {b : Bytes} {v : UInt64} {n : ℕ} :
    leb128.decode b = some (v, n) ↔ lebDecode 10 b = some (v.toNat, n) := by
  show (lebDecode 10 b).bind _ = some (v, n) ↔ _
  constructor
  · intro h
    obtain ⟨r, hr, hif⟩ := Option.bind_eq_some_iff.mp h
    split at hif
    · rename_i hlt
      obtain ⟨hv, hn⟩ := Prod.mk.inj (Option.some.inj hif)
      rw [hr, ← hv, ← hn, UInt64.toNat_ofNat_of_lt' hlt]
    · cases hif
  · intro h
    rw [h, Option.bind_some, if_pos v.toNat_lt]
    simp

instance : leb128.Lawful where
  decode_encode := fun v => leb128_decode.mpr (lebDecode_lebEncode (by
    have hv : v.toNat < 2 ^ 64 := v.toNat_lt
    norm_num at hv ⊢
    omega))
  encode_length := fun _ => lebEncode_length (by norm_num)
  encode_small := fun v hv => by
    have hlt : v.toNat < 128 := UInt64.lt_iff_toNat_lt.mp hv
    show (lebEncode 10 v.toNat).length = 1
    rw [lebEncode, if_pos hlt]
    rfl
  size_eq := fun _ => rfl
  decode_length := fun h => lebDecode_length (leb128_decode.mp h)
  decode_append := fun h rest =>
    leb128_decode.mpr (lebDecode_append rest (leb128_decode.mp h))

end LightningStream
