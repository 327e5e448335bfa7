import LightningStream.Snapshot.Name

/-!
# Building a snapshot file name

`BuildName` joins the parts of a name with `__` and puts the extension behind a
dot. `ParseName` cuts at the first dot and splits at every `__` from the left.
It finds the parts again if none of them contains a dot or `__`, and none but
the last ends in an underscore.

The timestamp is written with the layout `20060102-150405.000000000`, with the
dot replaced by a dash. Writing a time and reading it back are inverse for the
years that have four digits.
-/

namespace LightningStream.Snapshot

/-! ## The calendar -/

/-- A date of the Gregorian calendar. -/
structure Civil where
  year : ℤ
  month : ℤ
  day : ℤ
deriving DecidableEq

/-- The day in an era of 400 years as a year of the era and a day of that year.
The last century of the era and the last year of four are one day longer. -/
def yearOfEra (doe : ℤ) : ℤ × ℤ :=
  let century := min 3 (doe / 36524)
  let doc := doe - century * 36524
  let cycle := doc / 1461
  let doc4 := doc - cycle * 1461
  let year := min 3 (doc4 / 365)
  (century * 100 + cycle * 4 + year, doc4 - year * 365)

/-- The date of a day in a year of an era; the years of an era begin in March. -/
def civilOfEra (era yoe doy : ℤ) : Civil :=
  let mp := (5 * doy + 2) / 153
  let day := doy - (153 * mp + 2) / 5 + 1
  if mp < 10 then ⟨era * 400 + yoe, mp + 3, day⟩ else ⟨era * 400 + yoe + 1, mp - 9, day⟩

/-- The date a number of days after the UNIX epoch. -/
def civilFromDays (days : ℤ) : Civil :=
  let era := (days + 719468) / 146097
  let year := yearOfEra (days + 719468 - era * 146097)
  civilOfEra era year.1 year.2

theorem yearOfEra_spec (doe : ℤ) (h0 : 0 ≤ doe) (h : doe < 146097) :
    0 ≤ (yearOfEra doe).1 ∧ (yearOfEra doe).1 < 400 ∧
      0 ≤ (yearOfEra doe).2 ∧ (yearOfEra doe).2 ≤ 365 ∧
      (yearOfEra doe).1 * 365 + (yearOfEra doe).1 / 4 - (yearOfEra doe).1 / 100 +
        (yearOfEra doe).2 = doe := by
  simp only [yearOfEra]
  obtain ⟨century, hc⟩ : ∃ c, c = min 3 (doe / 36524) := ⟨_, rfl⟩
  obtain ⟨doc, hdoc⟩ : ∃ d, d = doe - century * 36524 := ⟨_, rfl⟩
  have hdoc' : 0 ≤ century ∧ century ≤ 3 ∧ 0 ≤ doc ∧ doc ≤ 36524 := by omega
  obtain ⟨cycle, hcy⟩ : ∃ c, c = doc / 1461 := ⟨_, rfl⟩
  obtain ⟨doc4, hdoc4⟩ : ∃ d, d = doc - cycle * 1461 := ⟨_, rfl⟩
  have hdoc4' : 0 ≤ cycle ∧ cycle ≤ 24 ∧ 0 ≤ doc4 ∧ doc4 ≤ 1460 := by omega
  obtain ⟨year, hy⟩ : ∃ y, y = min 3 (doc4 / 365) := ⟨_, rfl⟩
  have hyear : 0 ≤ year ∧ year ≤ 3 ∧ 0 ≤ doc4 - year * 365 ∧ doc4 - year * 365 ≤ 365 := by omega
  rw [← hc, ← hdoc, ← hcy, ← hdoc4, ← hy]
  have hquarter : (century * 100 + cycle * 4 + year) / 4 = century * 25 + cycle := by omega
  have hcentury : (century * 100 + cycle * 4 + year) / 100 = century := by omega
  rw [hquarter, hcentury]
  omega

theorem civilOfEra_spec (era : ℤ) {yoe doy : ℤ} (hy0 : 0 ≤ yoe) (hy : yoe < 400) (hd0 : 0 ≤ doy)
    (hd : doy ≤ 365) :
    1 ≤ (civilOfEra era yoe doy).month ∧ (civilOfEra era yoe doy).month ≤ 12 ∧
      1 ≤ (civilOfEra era yoe doy).day ∧ (civilOfEra era yoe doy).day ≤ 31 ∧
      daysFromCivil (civilOfEra era yoe doy).year (civilOfEra era yoe doy).month
        (civilOfEra era yoe doy).day =
          era * 146097 + (yoe * 365 + yoe / 4 - yoe / 100 + doy) - 719468 := by
  obtain ⟨mp, hmp⟩ : ∃ m, m = (5 * doy + 2) / 153 := ⟨_, rfl⟩
  have hmp11 : 0 ≤ mp ∧ mp ≤ 11 := by omega
  have hday : 1 ≤ doy - (153 * mp + 2) / 5 + 1 ∧ doy - (153 * mp + 2) / 5 + 1 ≤ 31 := by omega
  have hera : (era * 400 + yoe) / 400 = era := by omega
  unfold civilOfEra daysFromCivil
  simp only [← hmp]
  by_cases hm : mp < 10
  · have h2 : ¬ mp + 3 ≤ 2 := by omega
    have h3 : mp + 3 > 2 := by omega
    simp only [if_pos hm, if_neg h2, if_pos h3, hera, add_sub_cancel_right]
    exact ⟨by omega, by omega, hday.1, hday.2, by omega⟩
  · have h2 : mp - 9 ≤ 2 := by omega
    have h3 : ¬ mp - 9 > 2 := by omega
    simp only [if_neg hm, if_pos h2, if_neg h3, hera, add_sub_cancel_right, sub_add_cancel]
    exact ⟨by omega, by omega, hday.1, hday.2, by omega⟩

/-- The date is a date, and as many days after the epoch. -/
theorem civilFromDays_spec (days : ℤ) :
    1 ≤ (civilFromDays days).month ∧ (civilFromDays days).month ≤ 12 ∧
      1 ≤ (civilFromDays days).day ∧ (civilFromDays days).day ≤ 31 ∧
      daysFromCivil (civilFromDays days).year (civilFromDays days).month
        (civilFromDays days).day = days := by
  obtain ⟨hy0, hy, hd0, hd, hdoe⟩ :=
    yearOfEra_spec (days + 719468 - (days + 719468) / 146097 * 146097) (by omega) (by omega)
  obtain ⟨hm1, hm12, hd1, hd31, hdays⟩ :=
    civilOfEra_spec ((days + 719468) / 146097) hy0 hy hd0 hd
  refine ⟨hm1, hm12, hd1, hd31, hdays.trans ?_⟩
  rw [hdoe]
  omega

/-! ## Timestamps -/

/-- A number in decimal notation with the given number of digits. -/
def decimal : ℕ → ℕ → Bytes
  | 0, _ => []
  | width + 1, n => decimal width (n / 10) ++ [UInt8.ofNat (48 + n % 10)]

/-- `Format` with `timeFormat`, in UTC, for a year of four digits. -/
def formatTime (ts : Time) : Bytes :=
  let seconds := ts / 1000000000
  let date := civilFromDays (seconds / 86400)
  decimal 4 date.year.toNat ++ decimal 2 date.month.toNat ++ decimal 2 date.day.toNat ++ [45] ++
    decimal 2 (seconds / 3600 % 24).toNat ++ decimal 2 (seconds / 60 % 60).toNat ++
    decimal 2 (seconds % 60).toNat ++ [46] ++ decimal 9 (ts % 1000000000).toNat

/-- `strings.Replace(s, ".", "-", 1)`. -/
def replaceDot : Bytes → Bytes
  | [] => []
  | c :: rest => if c = 46 then 45 :: rest else c :: replaceDot rest

def nameTimestamp (ts : Time) : Bytes := replaceDot (formatTime ts)

/-- The year has at most four digits and no sign. -/
def Time.InYears (ts : Time) : Prop :=
  0 ≤ (civilFromDays (ts / 1000000000 / 86400)).year ∧
    (civilFromDays (ts / 1000000000 / 86400)).year ≤ 9999

instance inYearsDecidable (ts : Time) : Decidable ts.InYears :=
  inferInstanceAs (Decidable (_ ∧ _))

@[simp] theorem decimal_length (width n : ℕ) : (decimal width n).length = width := by
  induction width generalizing n with
  | zero => rfl
  | succ width ih => simp [decimal, ih]

theorem decimal_digit (n : ℕ) : (UInt8.ofNat (48 + n % 10)).toNat = 48 + n % 10 :=
  UInt8.toNat_ofNat_of_lt' (show 48 + n % 10 < 256 by omega)

theorem mem_decimal {width n : ℕ} {c : UInt8} (h : c ∈ decimal width n) : 48 ≤ c ∧ c ≤ 57 := by
  induction width generalizing n with
  | zero => cases h
  | succ width ih =>
      rcases List.mem_append.mp h with h | h
      · exact ih h
      · rw [List.mem_singleton.mp h, UInt8.le_iff_toNat_le, UInt8.le_iff_toNat_le, decimal_digit]
        exact ⟨Nat.le_add_right 48 _, show 48 + n % 10 ≤ 57 by omega⟩

theorem digits_decimal (width n : ℕ) : digits (decimal width n) = some (n % 10 ^ width) := by
  induction width generalizing n with
  | zero => simp [decimal, digits, Nat.mod_one]
  | succ width ih =>
      have hlast := @mem_decimal (width + 1) n _
        (List.mem_append_right _ (List.mem_singleton.mpr rfl))
      have hih := ih (n / 10)
      unfold digits at hih ⊢
      rw [decimal, List.foldl_append, hih]
      simp only [List.foldl_cons, List.foldl_nil, Option.bind_some, hlast, and_self, if_true,
        decimal_digit, Nat.add_sub_cancel_left]
      rw [pow_succ, Nat.mul_comm (10 ^ width) 10, Nat.mod_mul, Nat.add_comm]

theorem digits_decimal_of_lt {width n : ℕ} (h : n < 10 ^ width) :
    digits (decimal width n) = some n := by
  rw [digits_decimal, Nat.mod_eq_of_lt h]

/-- The parts of a time make up the time. -/
theorem clock_total (ts : ℤ) :
    (((ts / 1000000000 / 86400 * 24 + (ts / 1000000000 / 3600 % 24).toNat) * 60 +
      (ts / 1000000000 / 60 % 60).toNat) * 60 + (ts / 1000000000 % 60).toNat) * 1000000000 +
        (ts % 1000000000).toNat = ts := by
  obtain ⟨seconds, hseconds⟩ : ∃ n, n = ts / 1000000000 := ⟨_, rfl⟩
  have hhours : seconds / 86400 * 24 + (seconds / 3600 % 24).toNat = seconds / 3600 := by omega
  have hminutes : seconds / 3600 * 60 + (seconds / 60 % 60).toNat = seconds / 60 := by omega
  have htotal : seconds / 60 * 60 + (seconds % 60).toNat = seconds := by omega
  rw [← hseconds, hhours, hminutes, htotal, hseconds]
  omega

/-- The calendar reading inverts the calendar writing. -/
theorem readTimestamp_formatTime {ts : Time} (h : ts.InYears) :
    readTimestamp (formatTime ts) = some ts := by
  obtain ⟨hm1, hm12, hd1, hd31, hdays⟩ := civilFromDays_spec (ts / 1000000000 / 86400)
  obtain ⟨date, hdate⟩ : ∃ d, d = civilFromDays (ts / 1000000000 / 86400) := ⟨_, rfl⟩
  obtain ⟨hy0, hy⟩ := h
  rw [← hdate] at hm1 hm12 hd1 hd31 hdays hy0 hy
  have hyear : digits (decimal 4 date.year.toNat) = some date.year.toNat :=
    digits_decimal_of_lt (by omega)
  have hmonth : digits (decimal 2 date.month.toNat) = some date.month.toNat :=
    digits_decimal_of_lt (by omega)
  have hday : digits (decimal 2 date.day.toNat) = some date.day.toNat :=
    digits_decimal_of_lt (by omega)
  have hhour : digits (decimal 2 (ts / 1000000000 / 3600 % 24).toNat) =
      some (ts / 1000000000 / 3600 % 24).toNat := digits_decimal_of_lt (by omega)
  have hminute : digits (decimal 2 (ts / 1000000000 / 60 % 60).toNat) =
      some (ts / 1000000000 / 60 % 60).toNat := digits_decimal_of_lt (by omega)
  have hsecond : digits (decimal 2 (ts / 1000000000 % 60).toNat) =
      some (ts / 1000000000 % 60).toNat := digits_decimal_of_lt (by omega)
  have hnano : digits (decimal 9 (ts % 1000000000).toNat) = some (ts % 1000000000).toNat :=
    digits_decimal_of_lt (by omega)
  have hread : readTimestamp (formatTime ts) = some
      ((((daysFromCivil date.year.toNat date.month.toNat date.day.toNat * 24 +
        (ts / 1000000000 / 3600 % 24).toNat) * 60 + (ts / 1000000000 / 60 % 60).toNat) * 60 +
        (ts / 1000000000 % 60).toNat) * 1000000000 + (ts % 1000000000).toNat) := by
    unfold readTimestamp formatTime
    simp [← hdate, List.drop_append, List.drop_eq_nil_of_le, hyear, hmonth, hday, hhour, hminute,
      hsecond, hnano]
  have hm0 : 0 ≤ date.month := by omega
  have hd0 : 0 ≤ date.day := by omega
  rw [hread, Int.toNat_of_nonneg hy0, Int.toNat_of_nonneg hm0, Int.toNat_of_nonneg hd0, hdays,
    clock_total]

/-- Digits and dashes. -/
def InStamp (c : UInt8) : Prop := c = 45 ∨ 48 ≤ c ∧ c ≤ 57

/-- A dot stands in the place that `ParseName` looks at, and nowhere else. -/
theorem formatTime_dot (ts : Time) : ∃ date nanos : Bytes,
    formatTime ts = date ++ 46 :: nanos ∧ date.length = dotIndex ∧ nanos.length = 9 ∧
      (∀ c ∈ date, InStamp c) ∧ ∀ c ∈ nanos, InStamp c := by
  refine ⟨_, _, List.append_assoc _ [46] _, by simp [dotIndex], by simp, ?_,
    fun c hc => Or.inr (mem_decimal hc)⟩
  intro c hc
  simp only [List.mem_append, List.mem_singleton] at hc
  rcases hc with (((((h | h) | h) | h) | h) | h) | h
  · exact Or.inr (mem_decimal h)
  · exact Or.inr (mem_decimal h)
  · exact Or.inr (mem_decimal h)
  · exact Or.inl h
  · exact Or.inr (mem_decimal h)
  · exact Or.inr (mem_decimal h)
  · exact Or.inr (mem_decimal h)

theorem InStamp.ne {c : UInt8} (h : InStamp c) : c ≠ 46 ∧ c ≠ 95 := by
  constructor
  · rintro rfl
    exact absurd h (by unfold InStamp; decide)
  · rintro rfl
    exact absurd h (by unfold InStamp; decide)

theorem replaceDot_append {p : Bytes} (h : 46 ∉ p) (rest : Bytes) :
    replaceDot (p ++ 46 :: rest) = p ++ 45 :: rest := by
  induction p with
  | nil => rfl
  | cons c p ih =>
      obtain ⟨hc, hp⟩ := not_or.mp (mt List.mem_cons.mpr h)
      rw [List.cons_append, replaceDot, if_neg (Ne.symm hc), ih hp]
      rfl

/-- In a name the dot is a dash. -/
theorem nameTimestamp_dash (ts : Time) : ∃ date nanos : Bytes,
    formatTime ts = date ++ 46 :: nanos ∧ nameTimestamp ts = date ++ 45 :: nanos ∧
      date.length = dotIndex ∧ nanos.length = 9 ∧ (∀ c ∈ date, InStamp c) ∧
      ∀ c ∈ nanos, InStamp c := by
  obtain ⟨date, nanos, hformat, hdate, hnanos, hin, hin'⟩ := formatTime_dot ts
  refine ⟨date, nanos, hformat, ?_, hdate, hnanos, hin, hin'⟩
  rw [nameTimestamp, hformat]
  exact replaceDot_append (fun hmem => (hin 46 hmem).ne.1 rfl) nanos

/-- The timestamp in a name passes the checks of `ParseName`, which puts the dot
back. -/
theorem nameTimestamp_spec (ts : Time) :
    (nameTimestamp ts).length = timeFormatLen ∧ (nameTimestamp ts).getD dotIndex 0 = 45 ∧
      (nameTimestamp ts).set dotIndex 46 = formatTime ts ∧ ∀ c ∈ nameTimestamp ts, InStamp c := by
  obtain ⟨date, nanos, hformat, hname, hdate, hnanos, hin, hin'⟩ := nameTimestamp_dash ts
  rw [hname, hformat, ← hdate]
  refine ⟨?_, by simp, by simp, ?_⟩
  · rw [List.length_append, List.length_cons, hdate, hnanos]
    rfl
  · intro c hc
    rcases List.mem_append.mp hc with hc | hc
    · exact hin c hc
    · rcases List.mem_cons.mp hc with rfl | hc
      · exact Or.inl rfl
      · exact hin' c hc

/-! ## Parts of a name -/

def dunder : Bytes := [95, 95]

/-- A part that can be told from a separator behind it. -/
def SafePart (p : Bytes) : Prop := ¬ dunder <:+: p ++ [95]

theorem safePart_cons {c : UInt8} {p : Bytes} :
    SafePart (c :: p) ↔ ¬ (c = 95 ∧ (p ++ [95]).head? = some 95) ∧ SafePart p := by
  rw [SafePart, List.cons_append, List.infix_cons_iff, not_or]
  refine and_congr_left fun _ => not_congr ?_
  cases p with
  | nil => simp [dunder, eq_comm]
  | cons d p => simp [dunder, eq_comm]

theorem splitDunder_cons {c d : UInt8} {rest p : Bytes} {ps : List Bytes}
    (h : ¬ (c = 95 ∧ d = 95)) (hs : splitDunder (d :: rest) = p :: ps) :
    splitDunder (c :: d :: rest) = (c :: p) :: ps := by
  rw [splitDunder, if_neg h, hs]

theorem splitDunder_ne_nil (s : Bytes) : ∃ p ps, splitDunder s = p :: ps := by
  unfold splitDunder
  split
  · exact ⟨_, _, rfl⟩
  · exact ⟨_, _, rfl⟩
  · split
    · exact ⟨_, _, rfl⟩
    · split
      · exact ⟨_, _, rfl⟩
      · exact ⟨_, _, rfl⟩

/-- The first separator is the one behind the part. -/
theorem splitDunder_append {p : Bytes} (h : SafePart p) (rest : Bytes) :
    splitDunder (p ++ dunder ++ rest) = p :: splitDunder rest := by
  induction p with
  | nil => rfl
  | cons c p ih =>
      obtain ⟨hc, hp⟩ := safePart_cons.mp h
      have hs := ih hp
      cases p with
      | nil => exact splitDunder_cons (by simpa using hc) hs
      | cons d p => exact splitDunder_cons (by simpa using hc) hs

theorem splitDunder_last {p : Bytes} (h : SafePart p) : splitDunder p = [p] := by
  induction p with
  | nil => rfl
  | cons c p ih =>
      obtain ⟨hc, hp⟩ := safePart_cons.mp h
      have hs := ih hp
      cases p with
      | nil => rfl
      | cons d p => exact splitDunder_cons (by simpa using hc) hs

/-- What is split off can be told from the separator behind it. -/
theorem safePart_of_splitDunder : ∀ {s p q : Bytes} {ps : List Bytes},
    splitDunder s = p :: q :: ps → SafePart p ∧ p ⊆ s ∧ (p ++ [95]).head? = s.head?
  | [], _, _, _, h => by cases h
  | [_], _, _, _, h => by cases h
  | c :: d :: rest, p, q, ps, h => by
      by_cases hsep : c = 95 ∧ d = 95
      · rw [splitDunder, if_pos hsep] at h
        obtain ⟨rfl, -⟩ := List.cons.inj h
        refine ⟨by unfold SafePart; decide, List.nil_subset _, ?_⟩
        rw [hsep.1]
        rfl
      · cases hs : splitDunder (d :: rest) with
        | nil =>
            rw [splitDunder, if_neg hsep, hs] at h
            cases h
        | cons p' ps' =>
            rw [splitDunder_cons hsep hs] at h
            obtain ⟨rfl, rfl⟩ := List.cons.inj h
            obtain ⟨hsafe, hsub, hhead⟩ := safePart_of_splitDunder hs
            refine ⟨safePart_cons.mpr ⟨?_, hsafe⟩, List.cons_subset_cons _ hsub, rfl⟩
            rintro ⟨hc, hd⟩
            exact hsep ⟨hc, Option.some.inj (hhead.symm.trans hd)⟩

theorem safePart_of_not_mem {p : Bytes} (h : 95 ∉ p) : SafePart p := by
  induction p with
  | nil => unfold SafePart; decide
  | cons c p ih =>
      obtain ⟨hc, hp⟩ := not_or.mp (mt List.mem_cons.mpr h)
      exact safePart_cons.mpr ⟨fun hcd => hc hcd.1.symm, ih hp⟩

theorem safePart_iff {p : Bytes} : SafePart p ↔ ¬ dunder <:+: p ∧ p.getLast? ≠ some 95 := by
  have hlast : dunder <:+ p ++ [95] ↔ p.getLast? = some 95 := by
    rw [show dunder = [95] ++ [95] from rfl, List.suffix_append_self_iff,
      List.singleton_suffix_iff_getLast?_eq_some]
  rw [SafePart, List.infix_concat_iff, hlast, not_or, and_comm]

/-- `strings.Cut` finds the dot behind a text without dots. -/
theorem cutDot_append {p : Bytes} (h : 46 ∉ p) (rest : Bytes) :
    cutDot (p ++ 46 :: rest) = some (p, rest) := by
  induction p with
  | nil => rfl
  | cons c p ih =>
      obtain ⟨hc, hp⟩ := not_or.mp (mt List.mem_cons.mpr h)
      rw [List.cons_append, cutDot, if_neg (Ne.symm hc), ih hp]
      rfl

theorem cutDot_eq_some {s p rest : Bytes} (h : cutDot s = some (p, rest)) : 46 ∉ p := by
  induction s generalizing p rest with
  | nil => cases h
  | cons c s ih =>
      rw [cutDot] at h
      split at h
      · obtain ⟨rfl, -⟩ := Prod.mk.inj (Option.some.inj h)
        exact List.not_mem_nil
      · rename_i hc
        obtain ⟨⟨p', rest'⟩, hs, hp⟩ := Option.map_eq_some_iff.mp h
        obtain ⟨rfl, -⟩ := Prod.mk.inj hp
        rintro hmem
        rcases List.mem_cons.mp hmem with h46 | hmem
        · exact hc h46.symm
        · exact ih hs hmem

/-! ## BuildName -/

def buildName (ni : NameInfo) : Bytes :=
  let ts := if ni.timestampString = [] then nameTimestamp ni.timestamp else ni.timestampString
  ni.syncerName ++ dunder ++ ni.instanceID ++ dunder ++ ts ++ dunder ++ ni.generationID ++
    ni.extra.flatMap (fun extraItem => dunder ++ extraItem) ++ [46] ++ ni.extension

/-- The start of a name up to the timestamp. -/
def nameStart (ni : NameInfo) : Bytes := ni.syncerName ++ dunder ++ ni.instanceID ++ dunder

/-- The parts of a name behind the timestamp, without the extension. -/
def nameEnd (ni : NameInfo) : Bytes :=
  ni.generationID ++ ni.extra.flatMap (fun extraItem => dunder ++ extraItem)

theorem buildName_eq {ni : NameInfo} (h : ni.timestampString = []) :
    buildName ni = nameStart ni ++ (nameTimestamp ni.timestamp ++
      (dunder ++ nameEnd ni ++ 46 :: ni.extension)) := by
  simp [buildName, nameStart, nameEnd, h]

/-- `ParseName` on a name with its timestamp, whatever follows that. -/
theorem parseName_buildName {nm : Naming} {ni : NameInfo} (hstring : ni.timestampString = [])
    (hname : 46 ∉ ni.syncerName ∧ SafePart ni.syncerName)
    (hinst : 46 ∉ ni.instanceID ∧ SafePart ni.instanceID) (hend : 46 ∉ nameEnd ni)
    (hts : nm.timeParse (formatTime ni.timestamp) = some ni.timestamp) :
    (nm.registeredExtensions ni.extension = none ∧
      parseName nm (buildName ni) = .error .unknownExtension) ∨
    ∃ parsed, parseName nm (buildName ni) = .ok parsed ∧ parsed.syncerName = ni.syncerName ∧
      parsed.instanceID = ni.instanceID ∧ parsed.timestamp = ni.timestamp ∧
      nm.registeredExtensions ni.extension = some parsed.kind ∧
      parsed.generationID :: parsed.extra = splitDunder (nameEnd ni) := by
  obtain ⟨hlen, hdash, hset, hstamp⟩ := nameTimestamp_spec ni.timestamp
  obtain ⟨basename, hbase⟩ : ∃ b, b = ni.syncerName ++ dunder ++ (ni.instanceID ++ dunder ++
      (nameTimestamp ni.timestamp ++ dunder ++ nameEnd ni)) := ⟨_, rfl⟩
  have hbuild : buildName ni = basename ++ 46 :: ni.extension := by
    rw [buildName_eq hstring, hbase]
    simp [nameStart]
  have hdot : 46 ∉ basename := by
    rw [hbase]
    simp only [List.mem_append, not_or]
    exact ⟨⟨hname.1, by decide⟩, ⟨hinst.1, by decide⟩,
      ⟨fun hmem => (hstamp 46 hmem).ne.1 rfl, by decide⟩, hend⟩
  have hsafe : SafePart (nameTimestamp ni.timestamp) :=
    safePart_of_not_mem fun hmem => (hstamp 95 hmem).ne.2 rfl
  have hcheck : ¬ ((nameTimestamp ni.timestamp).length ≠ timeFormatLen ∨
      (nameTimestamp ni.timestamp).getD dotIndex 0 ≠ 45) := by
    rw [hlen, hdash]
    simp
  obtain ⟨generationID, extra, hsplit⟩ := splitDunder_ne_nil (nameEnd ni)
  rw [parseName, hbuild, cutDot_append hdot]
  cases hext : nm.registeredExtensions ni.extension with
  | none => exact Or.inl ⟨rfl, by simp only [hext]⟩
  | some kind =>
      refine Or.inr ⟨⟨basename ++ 46 :: ni.extension, basename, ni.extension, kind, ni.syncerName,
        ni.instanceID, generationID, nameTimestamp ni.timestamp, ni.timestamp, extra⟩, ?_, rfl, rfl,
        rfl, rfl, hsplit.symm⟩
      simp only [hext, hbase, splitDunder_append hname.2, splitDunder_append hinst.2,
        splitDunder_append hsafe, hsplit, if_neg hcheck, hset, hts]

/-- Parsing the built name finds the same parts. -/
def RoundTrips (nm : Naming) (ni : NameInfo) : Prop :=
  ∃ parsed, parseName nm (buildName ni) = .ok parsed ∧ parsed.syncerName = ni.syncerName ∧
    parsed.instanceID = ni.instanceID ∧ parsed.generationID = ni.generationID ∧
    parsed.kind = ni.kind ∧ parsed.timestamp = ni.timestamp

/-- A name without a timestamp text and extra items, whose parts are safe. -/
structure Buildable (ni : NameInfo) : Prop where
  plain : ni.timestampString = [] ∧ ni.extra = []
  syncerName : 46 ∉ ni.syncerName ∧ SafePart ni.syncerName
  instanceID : 46 ∉ ni.instanceID ∧ SafePart ni.instanceID
  generationID : 46 ∉ ni.generationID ∧ SafePart ni.generationID

theorem Buildable.roundTrips {nm : Naming} {ni : NameInfo} (h : Buildable ni)
    (hext : nm.registeredExtensions ni.extension = some ni.kind)
    (hts : nm.timeParse (formatTime ni.timestamp) = some ni.timestamp) : RoundTrips nm ni := by
  have hend : nameEnd ni = ni.generationID := by simp [nameEnd, h.plain.2]
  rcases parseName_buildName h.plain.1 h.syncerName h.instanceID (hend ▸ h.generationID.1) hts with
    ⟨hnone, -⟩ | ⟨parsed, hparse, hname, hinst, htime, hkind, hsplit⟩
  · rw [hext] at hnone
    cases hnone
  · rw [hend, splitDunder_last h.generationID.2] at hsplit
    rw [hext] at hkind
    exact ⟨parsed, hparse, hname, hinst, (List.cons.inj hsplit).1, (Option.some.inj hkind).symm,
      htime⟩

theorem parseName_split {nm : Naming} {name : Bytes} {ni : NameInfo}
    (h : parseName nm name = .ok ni) : ∃ basename ext, cutDot name = some (basename, ext) ∧
      splitDunder basename =
        ni.syncerName :: ni.instanceID :: ni.timestampString :: ni.generationID :: ni.extra := by
  unfold parseName at h
  split at h
  · cases h
  · rename_i basename ext hcut
    refine ⟨basename, ext, hcut, ?_⟩
    split at h
    · cases h
    · split at h
      · rename_i hsplit
        split at h
        · cases h
        · split at h
          · cases h
          · obtain rfl := Except.ok.inj h
            exact hsplit
      · cases h

/-- Whatever is parsed, its syncer name has no dot and is safe. -/
theorem parsed_syncerName {nm : Naming} {name : Bytes} {ni : NameInfo}
    (h : parseName nm name = .ok ni) : 46 ∉ ni.syncerName ∧ SafePart ni.syncerName := by
  obtain ⟨basename, ext, hcut, hsplit⟩ := parseName_split h
  obtain ⟨hsafe, hsub, -⟩ := safePart_of_splitDunder hsplit
  exact ⟨fun hmem => cutDot_eq_some hcut (hsub hmem), hsafe⟩

end LightningStream.Snapshot
