import LightningStream.Header.Codec
import LightningStream.Snapshot.BuildName

/-!
# Keys of the PowerDNS domain index

PowerDNS keeps an index of its domains in the DBI `domains_v5_0`. A key is the
length of the domain name in two bytes, the name, with its labels in reverse
order and a zero byte between them, and the domain's ID in four bytes. So the
index is ordered by length, then by name, then by ID (`domainKey_lt_iff`), and
the entries of one domain are next to each other (`domainKey_between`).

A duplicate is moved to a name below `invalid`, with a label made of its ID.
-/

namespace LightningStream.Commands

open Snapshot

/-! ## Keys -/

def domainKey (domain : Bytes) (id : UInt32) : Bytes :=
  beBytes 2 domain.length ++ (domain ++ beBytes 4 id.toNat)

inductive KeyErr
  /-- `too short key`. -/
  | tooShort (key : Bytes)
  /-- `unexpected key length (expected %d, got %d) for key`. -/
  | unexpectedLength (expected got : ℕ) (key : Bytes)
deriving DecidableEq, Repr

/-- Take a key apart. At least a 2 byte domain key length and 4 byte ID, and
nothing besides these and the domain. -/
def readKey (key : Bytes) : Except KeyErr (Bytes × UInt32) :=
  if key.length < 6 then .error (.tooShort key)
  else
    let n := beNat (key.take 2)
    let expectedLen := 2 + n + 4
    if key.length ≠ expectedLen then .error (.unexpectedLength expectedLen key.length key)
    else .ok ((key.drop 2).take n, UInt32.ofNat (beNat (key.drop (2 + n))))

section

variable {a b : Bytes} {i j : UInt32}

@[simp] theorem domainKey_length (a : Bytes) (i : UInt32) :
    (domainKey a i).length = a.length + 6 := by
  simp [domainKey]
  omega

theorem readKey_domainKey (ha : a.length < 2 ^ 16) (i : UInt32) :
    readKey (domainKey a i) = .ok (a, i) := by
  have hn : beNat ((domainKey a i).take 2) = a.length := by
    rw [domainKey, List.take_left' (beBytes_length _ _), beNat_beBytes]
    exact Nat.mod_eq_of_lt ha
  have hdrop : (domainKey a i).drop 2 = a ++ beBytes 4 i.toNat :=
    List.drop_left' (beBytes_length _ _)
  have hid : UInt32.ofNat (beNat ((domainKey a i).drop (2 + a.length))) = i := by
    rw [← List.drop_drop, hdrop, List.drop_left, beNat_beBytes,
      Nat.mod_eq_of_lt (show i.toNat < 256 ^ 4 from i.toNat_lt), UInt32.ofNat_toNat]
  have hlen : (domainKey a i).length = 2 + a.length + 4 := by
    rw [domainKey_length]
    omega
  unfold readKey
  rw [if_neg (by omega)]
  simp only [hn, hdrop, List.take_left, hid, hlen, ne_eq, not_true_eq_false, if_false]

theorem domainKey_inj (ha : a.length < 2 ^ 16) (hb : b.length < 2 ^ 16)
    (h : domainKey a i = domainKey b j) : a = b ∧ i = j := by
  have hread := readKey_domainKey ha i
  rw [h, readKey_domainKey hb] at hread
  obtain ⟨rfl, rfl⟩ := Prod.mk.inj (Except.ok.inj hread)
  exact ⟨rfl, rfl⟩

private theorem beBytes_lt_iff {w x y : ℕ} (hx : x < 256 ^ w) (hy : y < 256 ^ w) :
    beBytes w x < beBytes w y ↔ x < y := by
  rw [← beNat_lt_iff (by rw [beBytes_length, beBytes_length]), beNat_beBytes, beNat_beBytes,
    Nat.mod_eq_of_lt hx, Nat.mod_eq_of_lt hy]

private theorem beBytes_inj {w x y : ℕ} (hx : x < 256 ^ w) (hy : y < 256 ^ w) :
    beBytes w x = beBytes w y ↔ x = y := by
  refine ⟨fun h => ?_, fun h => by rw [h]⟩
  have := congrArg beNat h
  rwa [beNat_beBytes, beNat_beBytes, Nat.mod_eq_of_lt hx, Nat.mod_eq_of_lt hy] at this

/-- **Keys are ordered by length, name and ID.** -/
theorem domainKey_lt_iff (ha : a.length < 2 ^ 16) (hb : b.length < 2 ^ 16) :
    domainKey a i < domainKey b j ↔
      a.length < b.length ∨ a.length = b.length ∧ (a < b ∨ a = b ∧ i < j) := by
  unfold domainKey
  rw [append_lt_iff_of_length (by rw [beBytes_length, beBytes_length]), beBytes_lt_iff ha hb,
    beBytes_inj ha hb]
  refine or_congr_right (and_congr_right fun hlen => ?_)
  rw [append_lt_iff_of_length hlen, beBytes_lt_iff i.toNat_lt j.toNat_lt, UInt32.lt_iff_toNat_lt]

theorem domainKey_lt_same (ha : a.length < 2 ^ 16) : domainKey a i < domainKey a j ↔ i < j := by
  simp [domainKey_lt_iff ha ha]

/-- Between two keys of one domain there are only keys of this domain. -/
theorem domainKey_between {i' : UInt32} (ha : a.length < 2 ^ 16) (hb : b.length < 2 ^ 16)
    (h : domainKey a i < domainKey b j) (h' : domainKey b j ≤ domainKey a i') : b = a := by
  rcases h'.lt_or_eq with h' | h'
  · rw [domainKey_lt_iff ha hb] at h
    rw [domainKey_lt_iff hb ha] at h'
    rcases h with h | ⟨hlen, h | ⟨rfl, -⟩⟩
    · omega
    · rcases h' with h' | ⟨-, h' | ⟨rfl, -⟩⟩
      · omega
      · exact absurd (h.trans h') (lt_irrefl _)
      · rfl
    · rfl
  · exact (domainKey_inj hb ha h').1

end

/-! ## Names of duplicates -/

/-- The verb `%d` for a number that is not negative. -/
def itoa (n : ℕ) : Bytes := decimal (Nat.log 10 n + 1) n

/-- The new name of a duplicate; note that the domain is reversed. -/
def newDomain (id : UInt32) (domain : Bytes) : Bytes :=
  ascii "invalid\x00dup-" ++ (itoa id.toNat ++ 0 :: domain)

/-- The domain is below `dup-N.invalid` for some `N`. -/
def IsRenamed (domain : Bytes) : Prop := ∃ id rest, domain = newDomain id rest

theorem digits_itoa (n : ℕ) : digits (itoa n) = some n :=
  digits_decimal_of_lt (Nat.lt_pow_succ_log_self (by decide) n)

theorem zero_notMem_itoa (n : ℕ) : 0 ∉ itoa n := by
  intro h
  exact absurd (mem_decimal h).1 (by decide)

/-- The digits end at the first zero byte. -/
theorem takeWhile_itoa (n : ℕ) (rest : Bytes) :
    (itoa n ++ 0 :: rest).takeWhile (· ≠ 0) = itoa n := by
  rw [List.takeWhile_append_of_pos, List.takeWhile_cons_of_neg, List.append_nil]
  · decide
  · intro c hc
    exact decide_eq_true fun h => zero_notMem_itoa n (h ▸ hc)

theorem newDomain_inj {i j : UInt32} {a b : Bytes} (h : newDomain i a = newDomain j b) :
    i = j ∧ a = b := by
  have hrest : itoa i.toNat ++ 0 :: a = itoa j.toNat ++ 0 :: b := List.append_cancel_left h
  have hid : itoa i.toNat = itoa j.toNat := by
    rw [← takeWhile_itoa i.toNat a, hrest, takeWhile_itoa]
  have hdigits := congrArg digits hid
  rw [digits_itoa, digits_itoa] at hdigits
  rw [hid] at hrest
  exact ⟨UInt32.toNat_inj.mp (Option.some.inj hdigits),
    (List.cons.inj (List.append_cancel_left hrest)).2⟩

theorem length_lt_newDomain (i : UInt32) (a : Bytes) : a.length < (newDomain i a).length := by
  simp [newDomain]
  omega

theorem isRenamed_newDomain (i : UInt32) (a : Bytes) : IsRenamed (newDomain i a) := ⟨i, a, rfl⟩

theorem not_isRenamed_nil : ¬ IsRenamed [] := by
  rintro ⟨i, a, h⟩
  have hlen := length_lt_newDomain i a
  rw [← h] at hlen
  exact absurd hlen (Nat.not_lt_zero _)

/-! ## Names as shown -/

/-- The name with its labels in the order of DNS and dots between them. -/
def displayDomain (domain : Bytes) : Bytes :=
  List.intercalate [46] ((domain.splitOn 0).reverse.filter (· ≠ []))

/-- The name looks like one given to a duplicate. -/
def isShownDuplicate (shown : Bytes) : Bool :=
  (ascii ".invalid").isSuffixOf shown && decide (ascii ".dup-" <:+: shown)

example : displayDomain (newDomain 70 (ascii "com\x00example")) =
    ascii "example.com.dup-70.invalid" := by decide

end LightningStream.Commands
