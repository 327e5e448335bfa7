import LightningStream.Snapshot.BuildName

/-!
# The order of snapshot names

Names of snapshots of one instance have a common start, and behind it the
timestamp in a fixed number of digits, from the year down to the nanosecond.
So they are ordered bytewise as their times are: `buildName_lt`. It takes the
calendar to be monotone, which is followed down from the eras to the days.
-/

namespace LightningStream.Snapshot

/-! ## Texts of fixed width -/

theorem decimal_lt {width n m : ℕ} (h : n < m) (hm : m < 10 ^ width) :
    decimal width n < decimal width m := by
  induction width generalizing n m with
  | zero =>
      rw [pow_zero] at hm
      omega
  | succ width ih =>
      rw [decimal, decimal, append_lt_iff_of_length (by simp)]
      rcases (Nat.div_le_div_right h.le : n / 10 ≤ m / 10).lt_or_eq with hlt | heq
      · refine Or.inl (ih hlt ?_)
        rw [pow_succ] at hm
        omega
      · refine Or.inr ⟨by rw [heq], ?_⟩
        rw [List.cons_lt_cons_iff, UInt8.lt_iff_toNat_lt, decimal_digit, decimal_digit]
        left
        omega

/-- Two numbers of one width, and what follows them. -/
theorem decimal_append_lt {width : ℕ} {n m : ℤ} {x y : Bytes} (hn : 0 ≤ n)
    (hm : m < 10 ^ width) (h : n < m ∨ n = m ∧ x < y) :
    decimal width n.toNat ++ x < decimal width m.toNat ++ y := by
  rw [append_lt_iff_of_length (by simp)]
  rcases h with hlt | ⟨rfl, hxy⟩
  · refine Or.inl (decimal_lt (by omega) ?_)
    zify
    rwa [Int.toNat_of_nonneg (by omega)]
  · exact Or.inr ⟨rfl, hxy⟩

/-! ## The calendar -/

/-- The first of two pairs comes first. -/
def PairLt (p q : ℤ × ℤ) : Prop := p.1 < q.1 ∨ p.1 = q.1 ∧ p.2 < q.2

theorem ediv_emod_lt {k x y : ℤ} (hk : 0 < k) (h : x < y) :
    PairLt (x / k, x % k) (y / k, y % k) := by
  rcases (Int.ediv_le_ediv hk h.le).lt_or_eq with hlt | heq
  · exact Or.inl hlt
  · refine Or.inr ⟨heq, ?_⟩
    have hx := Int.mul_ediv_add_emod x k
    have hy := Int.mul_ediv_add_emod y k
    rw [heq] at hx
    show x % k < y % k
    omega

theorem yearOfEra_lt {a b : ℤ} (ha : 0 ≤ a) (h : a < b) (hb : b < 146097) :
    PairLt (yearOfEra a) (yearOfEra b) := by
  simp only [PairLt, yearOfEra]
  -- centuries
  obtain ⟨ca, hca⟩ : ∃ c, c = min 3 (a / 36524) := ⟨_, rfl⟩
  obtain ⟨cb, hcb⟩ : ∃ c, c = min 3 (b / 36524) := ⟨_, rfl⟩
  obtain ⟨da, hda⟩ : ∃ d, d = a - ca * 36524 := ⟨_, rfl⟩
  obtain ⟨db, hdb⟩ : ∃ d, d = b - cb * 36524 := ⟨_, rfl⟩
  have hcentury : ca < cb ∨ ca = cb ∧ da < db := by omega
  have hdoc : 0 ≤ da ∧ da ≤ 36524 ∧ 0 ≤ db := by omega
  rw [← hca, ← hcb, ← hda, ← hdb]
  clear hca hcb hda hdb ha h hb
  -- cycles of four years
  obtain ⟨ya, hya⟩ : ∃ y, y = da / 1461 := ⟨_, rfl⟩
  obtain ⟨yb, hyb⟩ : ∃ y, y = db / 1461 := ⟨_, rfl⟩
  obtain ⟨ea, hea⟩ : ∃ e, e = da - ya * 1461 := ⟨_, rfl⟩
  obtain ⟨eb, heb⟩ : ∃ e, e = db - yb * 1461 := ⟨_, rfl⟩
  have hcycle : da < db → ya < yb ∨ ya = yb ∧ ea < eb := by omega
  have hdoc4 : 0 ≤ ya ∧ ya ≤ 24 ∧ 0 ≤ yb ∧ 0 ≤ ea ∧ ea ≤ 1460 ∧ 0 ≤ eb := by omega
  rw [← hya, ← hyb, ← hea, ← heb]
  clear hya hyb hea heb hdoc
  -- years
  obtain ⟨na, hna⟩ : ∃ n, n = min 3 (ea / 365) := ⟨_, rfl⟩
  obtain ⟨nb, hnb⟩ : ∃ n, n = min 3 (eb / 365) := ⟨_, rfl⟩
  have hyear : ea < eb → na < nb ∨ na = nb ∧ ea - na * 365 < eb - nb * 365 := by omega
  have hbounds : 0 ≤ na ∧ na ≤ 3 ∧ 0 ≤ nb := by omega
  rw [← hna, ← hnb]
  clear hna hnb
  omega

theorem civilOfEra_index (era yoe doy : ℤ) :
    (civilOfEra era yoe doy).year * 12 + (civilOfEra era yoe doy).month =
      (era * 400 + yoe) * 12 + (5 * doy + 2) / 153 + 3 := by
  unfold civilOfEra
  dsimp only
  split
  · dsimp only
    ring
  · dsimp only
    ring

theorem civilOfEra_day (era yoe doy : ℤ) :
    (civilOfEra era yoe doy).day = doy - (153 * ((5 * doy + 2) / 153) + 2) / 5 + 1 := by
  unfold civilOfEra
  dsimp only
  split <;> rfl

/-- A date comes before another one. -/
def Civil.Lt (c d : Civil) : Prop :=
  c.year < d.year ∨ c.year = d.year ∧ PairLt (c.month, c.day) (d.month, d.day)

/-- Dates are compared by their months counted from one start, and then their days. -/
theorem Civil.lt_of_index {c d : Civil} (hc : 1 ≤ c.month ∧ c.month ≤ 12)
    (hd : 1 ≤ d.month ∧ d.month ≤ 12)
    (h : PairLt (c.year * 12 + c.month, c.day) (d.year * 12 + d.month, d.day)) : c.Lt d := by
  unfold Civil.Lt PairLt at *
  dsimp only at *
  omega

theorem civilOfEra_lt {era yoe doy era' yoe' doy' : ℤ} (hd : 0 ≤ doy) (hd' : 0 ≤ doy')
    (hle : doy ≤ 365) (h : PairLt (era * 400 + yoe, doy) (era' * 400 + yoe', doy')) :
    PairLt ((civilOfEra era yoe doy).year * 12 + (civilOfEra era yoe doy).month,
      (civilOfEra era yoe doy).day)
      ((civilOfEra era' yoe' doy').year * 12 + (civilOfEra era' yoe' doy').month,
        (civilOfEra era' yoe' doy').day) := by
  rw [civilOfEra_index, civilOfEra_index, civilOfEra_day, civilOfEra_day]
  obtain ⟨mp, hmp⟩ : ∃ m, m = (5 * doy + 2) / 153 := ⟨_, rfl⟩
  obtain ⟨mp', hmp'⟩ : ∃ m, m = (5 * doy' + 2) / 153 := ⟨_, rfl⟩
  have hbounds : 0 ≤ mp ∧ mp ≤ 11 ∧ 0 ≤ mp' := by omega
  have hmono : doy < doy' → mp ≤ mp' := by omega
  rw [← hmp, ← hmp']
  clear hmp hmp'
  unfold PairLt at *
  dsimp only at *
  rcases h with hlt | ⟨heq, hlt⟩
  · left
    omega
  · rcases (hmono hlt).lt_or_eq with hm | rfl
    · left
      omega
    · right
      omega

/-- A later day has a later date. -/
theorem civilFromDays_lt {a b : ℤ} (h : a < b) : (civilFromDays a).Lt (civilFromDays b) := by
  obtain ⟨ha1, ha12, -⟩ := civilFromDays_spec a
  obtain ⟨hb1, hb12, -⟩ := civilFromDays_spec b
  refine Civil.lt_of_index ⟨ha1, ha12⟩ ⟨hb1, hb12⟩ ?_
  unfold civilFromDays
  obtain ⟨ea, hea⟩ : ∃ e, e = (a + 719468) / 146097 := ⟨_, rfl⟩
  obtain ⟨eb, heb⟩ : ∃ e, e = (b + 719468) / 146097 := ⟨_, rfl⟩
  obtain ⟨da, hda⟩ : ∃ d, d = a + 719468 - ea * 146097 := ⟨_, rfl⟩
  obtain ⟨db, hdb⟩ : ∃ d, d = b + 719468 - eb * 146097 := ⟨_, rfl⟩
  have hera : ea < eb ∨ ea = eb ∧ da < db := by omega
  have hda' : 0 ≤ da ∧ da < 146097 := by omega
  have hdb' : 0 ≤ db ∧ db < 146097 := by omega
  simp only [← hea, ← heb, ← hda, ← hdb]
  obtain ⟨hya0, hya, hoa0, hoa, -⟩ := yearOfEra_spec da hda'.1 hda'.2
  obtain ⟨hyb0, hyb, hob0, -, -⟩ := yearOfEra_spec db hdb'.1 hdb'.2
  refine civilOfEra_lt hoa0 hob0 hoa ?_
  rcases hera with hlt | ⟨rfl, hlt⟩
  · left
    dsimp only
    omega
  · rcases yearOfEra_lt hda'.1 hlt hdb'.2 with hy | ⟨hy, hd⟩
    · left
      dsimp only
      omega
    · right
      dsimp only
      omega

/-! ## Times -/

/-- The date in a timestamp, and what follows it. -/
def dateText (date : Civil) (rest : Bytes) : Bytes :=
  decimal 4 date.year.toNat ++ (decimal 2 date.month.toNat ++ (decimal 2 date.day.toNat ++ rest))

/-- The time of day in a timestamp. -/
def clockText (ts : Time) : Bytes :=
  let seconds := ts / 1000000000
  [45] ++ (decimal 2 (seconds / 3600 % 24).toNat ++ (decimal 2 (seconds / 60 % 60).toNat ++
    (decimal 2 (seconds % 60).toNat ++ ([46] ++ decimal 9 (ts % 1000000000).toNat))))

theorem formatTime_eq (ts : Time) :
    formatTime ts = dateText (civilFromDays (ts / 1000000000 / 86400)) (clockText ts) := by
  simp only [formatTime, dateText, clockText, List.append_assoc]

theorem dateText_lt {c d : Civil} {x y : Bytes} (hyear : 0 ≤ c.year) (hyear' : d.year ≤ 9999)
    (hmonth : 1 ≤ c.month) (hmonth' : d.month ≤ 12) (hday : 1 ≤ c.day) (hday' : d.day ≤ 31)
    (h : c.Lt d ∨ c = d ∧ x < y) : dateText c x < dateText d y := by
  have hday100 : d.day < 10 ^ 2 := by omega
  have hmonth100 : d.month < 10 ^ 2 := by omega
  refine decimal_append_lt hyear (show d.year < 10 ^ 4 by omega) ?_
  rcases h with (hy | ⟨hy, hm | ⟨hm, hd⟩⟩) | ⟨rfl, hxy⟩
  · exact Or.inl hy
  · exact Or.inr ⟨hy, decimal_append_lt (by omega) hmonth100 (Or.inl hm)⟩
  · exact Or.inr ⟨hy, decimal_append_lt (by omega) hmonth100 (Or.inr ⟨hm,
      decimal_append_lt (by omega) hday100 (Or.inl hd)⟩)⟩
  · exact Or.inr ⟨rfl, decimal_append_lt (by omega) hmonth100 (Or.inr ⟨rfl,
      decimal_append_lt (by omega) hday100 (Or.inr ⟨rfl, hxy⟩)⟩)⟩

/-- Hours, minutes and seconds, and what follows them. -/
theorem hms_lt {s s' : ℤ} {x y : Bytes} (h : s < s' ∨ s = s' ∧ x < y) :
    s / 86400 < s' / 86400 ∨ s / 86400 = s' / 86400 ∧
      decimal 2 (s / 3600 % 24).toNat ++ (decimal 2 (s / 60 % 60).toNat ++
        (decimal 2 (s % 60).toNat ++ x)) <
      decimal 2 (s' / 3600 % 24).toNat ++ (decimal 2 (s' / 60 % 60).toNat ++
        (decimal 2 (s' % 60).toNat ++ y)) := by
  have hhours : ∀ t : ℤ, t / 3600 = t / 60 / 60 := fun t => by omega
  have hdays : ∀ t : ℤ, t / 86400 = t / 60 / 60 / 24 := fun t => by omega
  rw [hhours s, hhours s', hdays s, hdays s']
  have hhour : s' / 60 / 60 % 24 < 10 ^ 2 := by norm_num; omega
  have hmin : s' / 60 % 60 < 10 ^ 2 := by norm_num; omega
  have hsec : s' % 60 < 10 ^ 2 := by norm_num; omega
  -- the divisions one after the other, down to the first difference
  rcases h with hlt | ⟨rfl, hxy⟩
  · rcases ediv_emod_lt (show (0 : ℤ) < 60 by decide) hlt with hm | ⟨hm, hs⟩
    · rcases ediv_emod_lt (show (0 : ℤ) < 60 by decide) hm with hh | ⟨hh, hm'⟩
      · rcases ediv_emod_lt (show (0 : ℤ) < 24 by decide) hh with hd | ⟨hd, hh'⟩
        · exact Or.inl hd
        · exact Or.inr ⟨hd, decimal_append_lt (by omega) hhour (Or.inl hh')⟩
      · exact Or.inr ⟨congrArg (· / 24) hh, decimal_append_lt (by omega) hhour (Or.inr
          ⟨congrArg (· % 24) hh, decimal_append_lt (by omega) hmin (Or.inl hm')⟩)⟩
    · exact Or.inr ⟨congrArg (· / 60 / 24) hm, decimal_append_lt (by omega) hhour (Or.inr
        ⟨congrArg (· / 60 % 24) hm, decimal_append_lt (by omega) hmin (Or.inr
          ⟨congrArg (· % 60) hm, decimal_append_lt (by omega) hsec (Or.inl hs)⟩)⟩)⟩
  · exact Or.inr ⟨rfl, decimal_append_lt (by omega) hhour (Or.inr
      ⟨rfl, decimal_append_lt (by omega) hmin (Or.inr
        ⟨rfl, decimal_append_lt (by omega) hsec (Or.inr ⟨rfl, hxy⟩)⟩)⟩)⟩

/-- A later time is on a later day, or later on the same day. -/
theorem clockText_lt {a b : ℤ} (h : a < b) :
    a / 1000000000 / 86400 < b / 1000000000 / 86400 ∨
      a / 1000000000 / 86400 = b / 1000000000 / 86400 ∧ clockText a < clockText b := by
  unfold clockText
  rw [append_lt_append_iff]
  refine hms_lt ?_
  rcases ediv_emod_lt (show (0 : ℤ) < 1000000000 by decide) h with hlt | ⟨heq, hlt⟩
  · exact Or.inl hlt
  · refine Or.inr ⟨heq, ?_⟩
    rw [append_lt_append_iff]
    dsimp only at hlt
    exact decimal_lt (by omega) (by norm_num; omega)

/-- A later time is written as a greater text. -/
theorem formatTime_lt {a b : Time} (ha : a.InYears) (hb : b.InYears) (h : a < b) :
    formatTime a < formatTime b := by
  obtain ⟨ham, -, had, -⟩ := civilFromDays_spec (a / 1000000000 / 86400)
  obtain ⟨-, hbm, -, hbd, -⟩ := civilFromDays_spec (b / 1000000000 / 86400)
  rw [formatTime_eq, formatTime_eq]
  refine dateText_lt ha.1 hb.2 ham hbm had hbd ?_
  rcases clockText_lt h with hdays | ⟨hdays, hclock⟩
  · exact Or.inl (civilFromDays_lt hdays)
  · exact Or.inr ⟨by rw [hdays], hclock⟩

theorem nameTimestamp_lt {a b : Time} (ha : a.InYears) (hb : b.InYears) (h : a < b) :
    nameTimestamp a < nameTimestamp b := by
  have hlt := formatTime_lt ha hb h
  obtain ⟨date, nanos, hformat, hname, hlen, -⟩ := nameTimestamp_dash a
  obtain ⟨date', nanos', hformat', hname', hlen', -⟩ := nameTimestamp_dash b
  rw [hformat, hformat', append_lt_iff_of_length (hlen.trans hlen'.symm)] at hlt
  rw [hname, hname', append_lt_iff_of_length (hlen.trans hlen'.symm)]
  simpa using hlt

/-! ## Names -/

/-- **Names of one instance are ordered as their times.** -/
theorem buildName_lt {ni ni' : NameInfo} (hstring : ni.timestampString = [])
    (hstring' : ni'.timestampString = []) (hname : ni.syncerName = ni'.syncerName)
    (hinst : ni.instanceID = ni'.instanceID) (hts : ni.timestamp.InYears)
    (hts' : ni'.timestamp.InYears) (h : ni.timestamp < ni'.timestamp) :
    buildName ni < buildName ni' := by
  have hstart : nameStart ni = nameStart ni' := by rw [nameStart, nameStart, hname, hinst]
  have hlen : (nameTimestamp ni.timestamp).length = (nameTimestamp ni'.timestamp).length :=
    (nameTimestamp_spec _).1.trans (nameTimestamp_spec _).1.symm
  rw [buildName_eq hstring, buildName_eq hstring', hstart, append_lt_append_iff,
    append_lt_iff_of_length hlen]
  exact Or.inl (nameTimestamp_lt hts hts' h)

end LightningStream.Snapshot
