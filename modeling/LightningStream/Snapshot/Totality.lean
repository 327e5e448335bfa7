import LightningStream.Snapshot.Decoder
import LightningStream.Base.Outcome

/-!
# Hostile data

What the decoder of a DBI message does with bytes that nobody encoded. Two kinds
of field are trouble. A length of `2 ^ 63` or more is negative as an `int`: it
passes the check against the remaining data, and the slice behind it panics. The
length of an unknown field is added to its own width, and a sum that is negative
takes the offset back, where the loop may read the same bytes again for ever.
Everything else is an error or moves the offset forward.
-/

namespace LightningStream.Snapshot

variable (V : Varint)

/-- A length that is negative as an `int`. -/
def HugeLength (b : Bytes) : Prop :=
  ∃ v n, V.decode b = some (v, n) ∧ 2 ^ 63 ≤ v.toNat

/-- A length whose sum with its own width is negative as an `int`, and takes back
the `width` bytes of the tag or more. -/
def SkipsBack (b : Bytes) (width : ℤ) : Prop :=
  ∃ v n, V.decode b = some (v, n) ∧ 2 ^ 63 ≤ v.toNat + n ∧
    (v.toNat : ℤ) + n + width ≤ 2 ^ 64

/-- The field at an offset has such a length. The content of an unknown field is
looked for in the slice `src`. -/
def BadField (kind : ℕ → Kind) (src : ℤ → Bytes) (data : Bytes) (offset : ℤ) : Prop :=
  ∃ t, readTag V data offset = .ok t ∧ t.wireType = .lengthDelimited ∧
    (kind t.number = .sized ∧ HugeLength V (data.drop t.offset.toNat) ∨
      kind t.number = .unknown ∧ SkipsBack V (src t.offset) (t.offset - offset))

/-- An error that the program reports. -/
def Reports {β : Type} (x : Decoding β) : Prop := ∃ e, x = .error (.error e)

/-! ## One field -/

section Field

variable {V} {data b : Bytes} {offset lo hi : ℤ}

theorem sliceFrom_in (h0 : 0 ≤ offset) (hlen : offset ≤ data.length) :
    sliceFrom data offset = .ok (data.drop offset.toNat) :=
  if_pos ⟨h0, hlen⟩

theorem sliceFrom_eq_ok (h : sliceFrom data lo = .ok b) :
    0 ≤ lo ∧ lo ≤ data.length ∧ b = data.drop lo.toNat := by
  unfold sliceFrom at h
  split at h
  · rename_i hin
    exact ⟨hin.1, hin.2, (Except.ok.inj h).symm⟩
  · cases h

theorem slice_eq_ok (h : slice data lo hi = .ok b) :
    lo ≤ hi ∧ hi ≤ data.length ∧ b <:+: data := by
  unfold slice at h
  split at h
  · rename_i hin
    obtain rfl := Except.ok.inj h
    have hdrop : (data.take hi.toNat).drop lo.toNat <:+: data.take hi.toNat :=
      (List.drop_suffix _ _).isInfix
    exact ⟨hin.2.1, hin.2.2, hdrop.trans (List.take_prefix _ _).isInfix⟩
  · cases h

theorem slice_in (data : Bytes) {lo hi : ℤ} (h0 : 0 ≤ lo) (hle : lo ≤ hi)
    (hlen : hi ≤ data.length) : ∃ b, slice data lo hi = .ok b :=
  ⟨_, if_pos ⟨h0, hle, hlen⟩⟩

theorem slice_reversed (h : hi < lo) : slice data lo hi = .error .panic :=
  if_neg (by omega)

variable [V.Lawful]

theorem readTag_eq_ok {t : Tag} (h : readTag V data offset = .ok t) :
    0 ≤ offset ∧ offset < t.offset ∧ t.offset ≤ data.length := by
  obtain ⟨b, hb, h⟩ := bind_eq_ok.mp h
  obtain ⟨h0, hlen, rfl⟩ := sliceFrom_eq_ok hb
  obtain ⟨r, hr, h⟩ := bind_eq_ok.mp h
  unfold decodeVarint at hr
  split at hr
  · rename_i r' hdec
    obtain rfl := Except.ok.inj hr
    obtain rfl := Except.ok.inj h
    obtain ⟨h1, h2, -⟩ := Varint.Lawful.decode_length (V := V)
      (show V.decode _ = some (r'.1, r'.2) from hdec)
    rw [List.length_drop] at h2
    refine ⟨h0, ?_, ?_⟩ <;> simp <;> omega
  · cases hr

omit [V.Lawful] in
theorem readTag_cases (h0 : 0 ≤ offset) (hlen : offset ≤ data.length) :
    Reports (readTag V data offset) ∨ ∃ t, readTag V data offset = .ok t := by
  unfold readTag decodeVarint
  rw [sliceFrom_in h0 hlen]
  cases hdec : V.decode (data.drop offset.toNat) with
  | none => exact Or.inl ⟨.malformed, by simp [bind, Except.bind, hdec]⟩
  | some r => exact Or.inr ⟨_, by simp [bind, Except.bind, hdec]; rfl⟩

theorem decode_drop {v : UInt64} {n : ℕ} (h0 : 0 ≤ offset)
    (h : V.decode (data.drop offset.toNat) = some (v, n)) :
    0 < (n : ℤ) ∧ offset + n ≤ data.length := by
  obtain ⟨h1, h2, -⟩ := Varint.Lawful.decode_length h
  rw [List.length_drop] at h2
  omega

theorem readSized_huge (h0 : 0 ≤ offset) (hlen : offset ≤ data.length)
    (h : HugeLength V (data.drop offset.toNat)) : readSized V data offset = .error .panic := by
  obtain ⟨v, n, hdec, hv⟩ := h
  obtain ⟨-, hn⟩ := decode_drop h0 hdec
  have hneg : toInt v < 0 := by
    have hlt : v.toNat < 2 ^ 64 := v.toNat_lt
    rw [toInt_of_le hv]
    omega
  simp only [readSized, decodeVarint, sliceFrom_in h0 hlen, hdec, bind, Except.bind]
  rw [if_neg (by omega), slice_reversed (by omega)]

theorem readSized_cases (h0 : 0 ≤ offset) (hlen : offset ≤ data.length)
    (h : ¬ HugeLength V (data.drop offset.toNat)) :
    Reports (readSized V data offset) ∨
      ∃ r, readSized V data offset = .ok r ∧ offset < r.2 := by
  simp only [readSized, decodeVarint, sliceFrom_in h0 hlen, bind, Except.bind]
  cases hdec : V.decode (data.drop offset.toNat) with
  | none => exact Or.inl ⟨.malformed, rfl⟩
  | some r =>
      obtain ⟨v, n⟩ := r
      obtain ⟨hpos, hn⟩ := decode_drop h0 hdec
      have hv : toInt v = v.toNat := toInt_of_lt (not_le.mp fun hv => h ⟨v, n, hdec, hv⟩)
      simp only [hv]
      split
      · exact Or.inl ⟨.tooShortForSize, rfl⟩
      · rename_i hfit
        obtain ⟨c, hc⟩ : ∃ c, slice data (offset + n) (offset + n + v.toNat) = .ok c :=
          slice_in data (by omega) (by omega) (by omega)
        exact Or.inr ⟨(c, offset + n + v.toNat), by rw [hc], by simp; omega⟩

theorem readVarint_cases (h0 : 0 ≤ offset) (hlen : offset ≤ data.length) :
    Reports (readVarint V data offset) ∨
      ∃ r, readVarint V data offset = .ok r ∧ offset < r.2 := by
  simp only [readVarint, decodeVarint, sliceFrom_in h0 hlen, bind, Except.bind]
  cases hdec : V.decode (data.drop offset.toNat) with
  | none => exact Or.inl ⟨.malformed, rfl⟩
  | some r =>
      obtain ⟨hpos, -⟩ := decode_drop (v := r.1) (n := r.2) h0 hdec
      exact Or.inr ⟨_, rfl, by simp; omega⟩

omit [V.Lawful] in
theorem readFixed64_cases (data : Bytes) (h0 : 0 ≤ offset) :
    Reports (readFixed64 data offset) ∨
      ∃ r, readFixed64 data offset = .ok r ∧ offset < r.2 := by
  unfold readFixed64
  split
  · exact Or.inl ⟨.tooShortForFixed64, rfl⟩
  · obtain ⟨c, hc⟩ : ∃ c, slice data offset (offset + 8) = .ok c :=
      slice_in data h0 (by omega) (by omega)
    exact Or.inr ⟨(UInt64.ofNat (leNat c), offset + 8), by rw [hc]; rfl, by simp⟩

/-- The number of bytes that `skipTag` skips for a length. -/
theorem skip_length {v : UInt64} {n : ℕ} (hn : n ≤ 10) :
    wrap64 (toInt v + n) = if v.toNat + n < 2 ^ 63 then (v.toNat : ℤ) + n
      else v.toNat + n - 2 ^ 64 := by
  have hv : v.toNat < 2 ^ 64 := v.toNat_lt
  unfold toInt wrap64
  split <;> omega

theorem skipTag_back {width : ℤ} (hw : 0 < width) (h : SkipsBack V b width) :
    ∃ n, skipTag V b .lengthDelimited = .ok n ∧ n + width ≤ 0 := by
  obtain ⟨v, n, hdec, hsum, hback⟩ := h
  obtain ⟨-, -, hn⟩ := Varint.Lawful.decode_length hdec
  have hskip := skip_length (v := v) hn
  rw [if_neg (by omega)] at hskip
  refine ⟨v.toNat + n - 2 ^ 64, ?_, by omega⟩
  simp only [skipTag, contentSize, decodeVarint, hdec, bind, Except.bind, hskip]
  rw [if_neg (by omega)]

theorem skipTag_cases {width : ℤ} {wt : WireType} (hw : 0 < width)
    (h : wt = .lengthDelimited → ¬ SkipsBack V b width) :
    Reports (skipTag V b wt) ∨ ∃ n, skipTag V b wt = .ok n ∧ 0 < n + width := by
  -- the check against the data, for every wire type
  have check : ∀ n : ℤ, contentSize V b wt = .ok n → 0 < n + width →
      Reports (skipTag V b wt) ∨ ∃ n, skipTag V b wt = .ok n ∧ 0 < n + width := by
    intro n hn hpos
    simp only [skipTag, hn, bind, Except.bind]
    split
    · exact Or.inl ⟨.unexpectedEOF, rfl⟩
    · exact Or.inr ⟨n, rfl, hpos⟩
  cases wt with
  | varint =>
      cases hdec : V.decode b with
      | none => exact Or.inl ⟨.malformed, by simp [skipTag, contentSize, decodeVarint, hdec, bind,
          Except.bind]⟩
      | some r =>
          exact check r.2 (by simp [contentSize, decodeVarint, hdec, bind, Except.bind]) (by omega)
  | lengthDelimited =>
      cases hdec : V.decode b with
      | none => exact Or.inl ⟨.malformed, by simp [skipTag, contentSize, decodeVarint, hdec, bind,
          Except.bind]⟩
      | some r =>
          obtain ⟨v, n⟩ := r
          obtain ⟨-, -, hn⟩ := Varint.Lawful.decode_length hdec
          refine check (wrap64 (toInt v + n))
            (by simp [contentSize, decodeVarint, hdec, bind, Except.bind]) ?_
          have hnot : ¬ (2 ^ 63 ≤ v.toNat + n ∧ (v.toNat : ℤ) + n + width ≤ 2 ^ 64) :=
            fun hback => h rfl ⟨v, n, hdec, hback.1, hback.2⟩
          rw [skip_length hn]
          split <;> omega
  | fixed32 => exact check 4 rfl (by omega)
  | fixed64 => exact check 8 rfl (by omega)
  | unsupported n => exact Or.inl ⟨_, rfl⟩

variable {kind : ℕ → Kind} {skipped : ℤ → Decoding Bytes} {src : ℤ → Bytes}

/-- What a bad field does: a panic, or an offset that is not ahead. -/
theorem readField_bad (hsrc : ∀ o : ℤ, 0 ≤ o → o ≤ data.length → skipped o = .ok (src o))
    (h : BadField V kind src data offset) :
    readField V kind skipped data offset = .error .panic ∨
      ∃ r, readField V kind skipped data offset = .ok r ∧ r.content = .skipped ∧
        r.offset ≤ offset := by
  obtain ⟨t, ht, hwt, h⟩ := h
  obtain ⟨h0, hlt, hlen⟩ := readTag_eq_ok ht
  have h0t : 0 ≤ t.offset := by omega
  rcases h with ⟨hkind, hhuge⟩ | ⟨hkind, hback⟩
  · refine Or.inl ?_
    simp [readField, ht, hkind, hwt, expectWT, readSized_huge h0t hlen hhuge, bind, Except.bind]
  · obtain ⟨n, hskip, hn⟩ := skipTag_back (by omega) hback
    refine Or.inr ⟨⟨t.number, .skipped, t.offset + n⟩, ?_, rfl, by simp; omega⟩
    simp [readField, ht, hkind, hwt, hsrc _ h0t hlen, hskip, bind, Except.bind]

/-- Every other field is an error or moves the offset forward. -/
theorem readField_good (hsrc : ∀ o : ℤ, 0 ≤ o → o ≤ data.length → skipped o = .ok (src o))
    (h0 : 0 ≤ offset) (hlen : offset ≤ data.length) (h : ¬ BadField V kind src data offset) :
    Reports (readField V kind skipped data offset) ∨
      ∃ r, readField V kind skipped data offset = .ok r ∧ offset < r.offset := by
  rcases readTag_cases (V := V) h0 hlen with ⟨e, he⟩ | ⟨t, ht⟩
  · exact Or.inl ⟨e, by simp [readField, he, bind, Except.bind]⟩
  obtain ⟨-, hlt, htlen⟩ := readTag_eq_ok ht
  have h0t : 0 ≤ t.offset := by omega
  simp only [readField, ht, bind, Except.bind]
  cases hkind : kind t.number with
  | sized =>
      by_cases hwt : t.wireType = .lengthDelimited
      · have hsize : ¬ HugeLength V (data.drop t.offset.toNat) :=
          fun hhuge => h ⟨t, ht, hwt, Or.inl ⟨hkind, hhuge⟩⟩
        rcases readSized_cases h0t htlen hsize with ⟨e, he⟩ | ⟨r, hr, hro⟩
        · exact Or.inl ⟨e, by simp [expectWT, hwt, he]⟩
        · exact Or.inr ⟨⟨t.number, .sized r.1, r.2⟩, by simp [expectWT, hwt, hr], by simp; omega⟩
      · exact Or.inl ⟨_, by simp [expectWT, hwt]; rfl⟩
  | varint =>
      by_cases hwt : t.wireType = .varint
      · rcases readVarint_cases (V := V) h0t htlen with ⟨e, he⟩ | ⟨r, hr, hro⟩
        · exact Or.inl ⟨e, by simp [expectWT, hwt, he]⟩
        · exact Or.inr ⟨⟨t.number, .varint r.1, r.2⟩, by simp [expectWT, hwt, hr], by simp; omega⟩
      · exact Or.inl ⟨_, by simp [expectWT, hwt]; rfl⟩
  | fixed64 =>
      by_cases hwt : t.wireType = .fixed64
      · rcases readFixed64_cases data h0t with ⟨e, he⟩ | ⟨r, hr, hro⟩
        · exact Or.inl ⟨e, by simp [expectWT, hwt, he]⟩
        · exact Or.inr ⟨⟨t.number, .fixed64 r.1, r.2⟩, by simp [expectWT, hwt, hr],
            by simp; omega⟩
      · exact Or.inl ⟨_, by simp [expectWT, hwt]; rfl⟩
  | unknown =>
      have hskip : t.wireType = .lengthDelimited →
          ¬ SkipsBack V (src t.offset) (t.offset - offset) :=
        fun hwt hback => h ⟨t, ht, hwt, Or.inr ⟨hkind, hback⟩⟩
      rcases skipTag_cases (by omega) hskip with ⟨e, he⟩ | ⟨n, hn, hpos⟩
      · exact Or.inl ⟨e, by simp [hsrc _ h0t htlen, he]⟩
      · exact Or.inr ⟨⟨t.number, .skipped, t.offset + n⟩, by simp [hsrc _ h0t htlen, hn],
          by simp; omega⟩

omit [V.Lawful] in
/-- The four ways to read a field. -/
theorem readField_eq_ok {r : Read} (h : readField V kind skipped data offset = .ok r) :
    ∃ t, readTag V data offset = .ok t ∧
      ((∃ x, readSized V data t.offset = .ok x ∧ r = ⟨t.number, .sized x.1, x.2⟩) ∨
        (∃ x, readVarint V data t.offset = .ok x ∧ r = ⟨t.number, .varint x.1, x.2⟩) ∨
        (∃ x, readFixed64 data t.offset = .ok x ∧ r = ⟨t.number, .fixed64 x.1, x.2⟩) ∨
        ∃ b n, skipped t.offset = .ok b ∧ skipTag V b t.wireType = .ok n ∧
          r = ⟨t.number, .skipped, t.offset + n⟩) := by
  obtain ⟨t, ht, h⟩ := bind_eq_ok.mp h
  refine ⟨t, ht, ?_⟩
  cases hkind : kind t.number with
  | sized =>
      simp only [hkind] at h
      obtain ⟨-, -, h⟩ := bind_eq_ok.mp h
      obtain ⟨x, hx, h⟩ := bind_eq_ok.mp h
      exact Or.inl ⟨x, hx, (Except.ok.inj h).symm⟩
  | varint =>
      simp only [hkind] at h
      obtain ⟨-, -, h⟩ := bind_eq_ok.mp h
      obtain ⟨x, hx, h⟩ := bind_eq_ok.mp h
      exact Or.inr (Or.inl ⟨x, hx, (Except.ok.inj h).symm⟩)
  | fixed64 =>
      simp only [hkind] at h
      obtain ⟨-, -, h⟩ := bind_eq_ok.mp h
      obtain ⟨x, hx, h⟩ := bind_eq_ok.mp h
      exact Or.inr (Or.inr (Or.inl ⟨x, hx, (Except.ok.inj h).symm⟩))
  | unknown =>
      simp only [hkind] at h
      obtain ⟨b, hb, h⟩ := bind_eq_ok.mp h
      obtain ⟨n, hn, h⟩ := bind_eq_ok.mp h
      exact Or.inr (Or.inr (Or.inr ⟨b, n, hb, hn, (Except.ok.inj h).symm⟩))

omit [V.Lawful] in
theorem readSized_eq_ok {x : Bytes × ℤ} (h : readSized V data offset = .ok x) :
    0 ≤ x.2 ∧ x.2 ≤ data.length ∧ x.1 <:+: data := by
  obtain ⟨c, hc, h⟩ := bind_eq_ok.mp h
  obtain ⟨r, -, h⟩ := bind_eq_ok.mp h
  simp only at h
  split at h
  · cases h
  · obtain ⟨b, hb, h⟩ := bind_eq_ok.mp h
    obtain rfl := Except.ok.inj h
    obtain ⟨hle, hlen, hin⟩ := slice_eq_ok hb
    have h0 := (sliceFrom_eq_ok hc).1
    exact ⟨by simp only; omega, hlen, hin⟩

theorem readVarint_eq_ok {x : UInt64 × ℤ} (h : readVarint V data offset = .ok x) :
    x.2 ≤ data.length := by
  obtain ⟨c, hc, h⟩ := bind_eq_ok.mp h
  obtain ⟨h0, -, rfl⟩ := sliceFrom_eq_ok hc
  obtain ⟨r, hr, h⟩ := bind_eq_ok.mp h
  obtain rfl := Except.ok.inj h
  unfold decodeVarint at hr
  split at hr
  · rename_i r' hdec
    obtain rfl := Except.ok.inj hr
    exact (decode_drop (v := r'.1) (n := r'.2) h0 hdec).2
  · cases hr

omit [V.Lawful] in
theorem readFixed64_eq_ok {x : UInt64 × ℤ} (h : readFixed64 data offset = .ok x) :
    x.2 ≤ data.length := by
  unfold readFixed64 at h
  split at h
  · cases h
  · obtain ⟨c, hc, h⟩ := bind_eq_ok.mp h
    obtain rfl := Except.ok.inj h
    exact (slice_eq_ok hc).2.1

omit [V.Lawful] in
theorem skipTag_eq_ok {wt : WireType} {n : ℤ} (h : skipTag V b wt = .ok n) : n ≤ b.length := by
  obtain ⟨m, -, h⟩ := bind_eq_ok.mp h
  split at h
  · cases h
  · obtain rfl := Except.ok.inj h
    omega

omit [V.Lawful] in
theorem readField_sized {r : Read} (h : readField V kind skipped data offset = .ok r)
    (hb : r.content = .sized b) : 0 ≤ r.offset ∧ b <:+: data := by
  obtain ⟨t, -, ⟨x, hx, rfl⟩ | ⟨x, -, rfl⟩ | ⟨x, -, rfl⟩ | ⟨c, n, -, -, rfl⟩⟩ := readField_eq_ok h
  · obtain rfl := Content.sized.inj hb
    obtain ⟨h0, -, hin⟩ := readSized_eq_ok hx
    exact ⟨h0, hin⟩
  all_goals cases hb

theorem readField_le {r : Read} (h : readField V kind (sliceFrom data) data offset = .ok r) :
    r.offset ≤ data.length := by
  obtain ⟨t, ht, ⟨x, hx, rfl⟩ | ⟨x, hx, rfl⟩ | ⟨x, hx, rfl⟩ | ⟨c, n, hc, hn, rfl⟩⟩ :=
    readField_eq_ok h
  · exact (readSized_eq_ok hx).2.1
  · exact readVarint_eq_ok hx
  · exact readFixed64_eq_ok hx
  · obtain ⟨h0, hlen, rfl⟩ := sliceFrom_eq_ok hc
    have hle := skipTag_eq_ok hn
    rw [List.length_drop] at hle
    simp only
    omega

theorem badField_lt (h : BadField V kind src data offset) : offset < data.length := by
  obtain ⟨t, ht, -⟩ := h
  obtain ⟨-, hlt, hle⟩ := readTag_eq_ok ht
  omega

/-- A round that reads one field, and goes on behind it or ends with it, falters
at the bad fields and nowhere else. -/
theorem falters_iff_bad {σ β : Type} {round : σ → Decoding (σ ⊕ β)} {μ : σ → ℤ} {s : σ}
    {k : Read → σ ⊕ β} (hsrc : ∀ o : ℤ, 0 ≤ o → o ≤ data.length → skipped o = .ok (src o))
    (h0 : 0 ≤ μ s) (hlen : μ s ≤ data.length)
    (hround : round s = readField V kind skipped data (μ s) >>= fun r => .ok (k r))
    (hk : ∀ r, (∃ s', k r = .inl s' ∧ μ s' = r.offset) ∨
      ∃ b, k r = .inr b ∧ (r.content = .skipped → (data.length : ℤ) ≤ r.offset)) :
    Falters round μ s ↔ BadField V kind src data (μ s) := by
  unfold Falters
  constructor
  · intro hF
    by_contra hbad
    rcases readField_good hsrc h0 hlen hbad with ⟨e, he⟩ | ⟨r, hr, hlt⟩
    · simp [hround, he, bind, Except.bind] at hF
    · rcases hk r with ⟨s', hs', hμ⟩ | ⟨b, hb, -⟩
      · simp [hround, hr, bind, Except.bind, hs', hμ] at hF
        omega
      · simp [hround, hr, bind, Except.bind, hb] at hF
  · intro hbad
    have hend := badField_lt hbad
    rcases readField_bad hsrc hbad with hpanic | ⟨r, hr, hskip, hle⟩
    · simp [hround, hpanic, bind, Except.bind]
    · rcases hk r with ⟨s', hs', hμ⟩ | ⟨b, -, hb⟩
      · simpa [hround, hr, bind, Except.bind, hs', hμ] using hle
      · have := hb hskip
        omega

end Field

/-! ## The loops -/

/-- The slice in which `Next` and `KV.Unmarshal` skip an unknown field. -/
def behind (data : Bytes) (o : ℤ) : Bytes := data.drop o.toNat

/-- `indexData` comes to a bad field. It skips from the start of its data. -/
def BadIndex (data : Bytes) (s : Indexing) : Prop :=
  BadField V dbiKind (fun _ => data) data s.offset

/-- `Next` comes to a bad field. -/
def BadEntry (data : Bytes) (o : ℤ) : Prop := BadField V entryKind (behind data) data o

/-- `KV.Unmarshal` comes to a bad field. -/
def BadKv (data : Bytes) (s : Unmarshalling) : Prop :=
  BadField V kvKind (behind data) data s.offset

section Loops

variable {V} {data : Bytes} [V.Lawful]

theorem indexRound_falters {s : Indexing} (h0 : 0 ≤ s.offset) :
    Falters (indexRound V data) Indexing.offset s ↔ BadIndex V data s := by
  by_cases hend : (data.length : ℤ) ≤ s.offset
  · constructor
    · simp [Falters, indexRound, hend]
    · exact fun hbad => absurd (badField_lt hbad) (by omega)
  · refine falters_iff_bad
      (k := fun r => .inl ⟨s.dbi.setField r.number r.content, r.offset⟩)
      (fun _ _ _ => rfl) h0 (by omega) (if_neg hend) fun r => Or.inl ⟨_, rfl, rfl⟩

/-- What a round of `Next` makes of a field. -/
def nextStep (r : Read) : ℤ ⊕ Option (Bytes × ℤ) :=
  match r.content with
  | .sized b => .inr (some (b, r.offset))
  | _ => .inl r.offset

theorem nextRound_falters {o : ℤ} (h0 : 0 ≤ o) :
    Falters (nextRound V data) id o ↔ BadEntry V data o := by
  by_cases hend : (data.length : ℤ) ≤ o
  · constructor
    · simp [Falters, nextRound, hend]
    · exact fun hbad => absurd (badField_lt hbad) (by omega)
  · have hround : nextRound V data o =
        readField V entryKind (sliceFrom data) data o >>= fun r => .ok (nextStep r) := by
      rw [nextRound, if_neg hend]
      congr 1
      funext r
      unfold nextStep
      cases r.content <;> rfl
    refine falters_iff_bad (fun _ => sliceFrom_in) h0 (by simp; omega) hround fun r => ?_
    unfold nextStep
    cases hc : r.content with
    | sized b =>
        refine Or.inr ⟨_, rfl, ?_⟩
        intro hskipped
        cases hskipped
    | varint v => exact Or.inl ⟨_, rfl, rfl⟩
    | fixed64 x => exact Or.inl ⟨_, rfl, rfl⟩
    | skipped => exact Or.inl ⟨_, rfl, rfl⟩

theorem kvRound_falters {s : Unmarshalling} (h0 : 0 ≤ s.offset) (hlen : s.offset ≤ data.length) :
    Falters (kvRound V data) Unmarshalling.offset s ↔ BadKv V data s := by
  refine falters_iff_bad (k := fun r =>
      if r.offset = data.length then .inr (s.kv.setField r.number r.content)
      else .inl ⟨s.kv.setField r.number r.content, r.offset⟩)
    (fun _ => sliceFrom_in) h0 hlen rfl fun r => ?_
  by_cases hr : r.offset = data.length
  · exact Or.inr ⟨_, if_pos hr, fun _ => hr.ge⟩
  · exact Or.inl ⟨_, if_neg hr, rfl⟩

omit [V.Lawful] in
theorem indexRound_next {s s' : Indexing} (h : indexRound V data s = .ok (.inl s')) :
    s.offset ≤ data.length := by
  unfold indexRound at h
  split at h
  · cases h
  · omega

omit [V.Lawful] in
theorem nextRound_next {o o' : ℤ} (h : nextRound V data o = .ok (.inl o')) :
    o ≤ data.length := by
  unfold nextRound at h
  split at h
  · cases h
  · omega

theorem kvRound_next {s s' : Unmarshalling} (h : kvRound V data s = .ok (.inl s')) :
    s.offset ≤ data.length ∧ s'.offset ≤ data.length := by
  obtain ⟨r, hr, h⟩ := bind_eq_ok.mp h
  obtain ⟨t, ht, -⟩ := bind_eq_ok.mp hr
  obtain ⟨-, hlt, hle⟩ := readTag_eq_ok ht
  have hrle := readField_le hr
  split at h
  · cases h
  · obtain rfl := Sum.inl.inj (Except.ok.inj h)
    exact ⟨by omega, hrle⟩

theorem index_steady_iff {d : DBI} :
    Steady (indexRound V data) Indexing.offset ⟨d, 0⟩ ↔
      ∀ s, Visits (indexRound V data) ⟨d, 0⟩ s → ¬ BadIndex V data s :=
  steady_iff_not_bad (fun s => 0 ≤ s.offset) (fun _ _ => indexRound_next)
    (fun _ _ h0 _ hlt => h0.trans hlt.le) (fun _ => indexRound_falters) le_rfl

theorem next_steady_iff {cur : ℤ} (h0 : 0 ≤ cur) :
    Steady (nextRound V data) id cur ↔
      ∀ o, Visits (nextRound V data) cur o → ¬ BadEntry V data o :=
  steady_iff_not_bad (fun o => 0 ≤ o) (fun _ _ => nextRound_next)
    (fun _ _ h0 _ hlt => le_trans h0 (le_of_lt hlt)) (fun _ => nextRound_falters) h0

theorem kv_steady_iff {kv : Kv} :
    Steady (kvRound V data) Unmarshalling.offset ⟨kv, 0⟩ ↔
      ∀ s, Visits (kvRound V data) ⟨kv, 0⟩ s → ¬ BadKv V data s :=
  steady_iff_not_bad (fun s => 0 ≤ s.offset ∧ s.offset ≤ data.length)
    (fun _ _ h => (kvRound_next h).1)
    (fun _ _ h0 h hlt => ⟨h0.1.trans hlt.le, (kvRound_next h).2⟩)
    (fun _ h => kvRound_falters h.1 h.2) ⟨le_rfl, by simp⟩

omit [V.Lawful] in
/-- An entry that the loop of `Next` ends with lies in the data, and so does the
new cursor. -/
theorem nextRound_found {o cur : ℤ} {b : Bytes}
    (h : nextRound V data o = .ok (.inr (some (b, cur)))) : 0 ≤ cur ∧ b <:+: data := by
  unfold nextRound at h
  split at h
  · cases h
  · obtain ⟨r, hr, h⟩ := bind_eq_ok.mp h
    split at h
    · rename_i c hc
      obtain ⟨rfl, rfl⟩ := Prod.mk.inj (Option.some.inj (Sum.inr.inj (Except.ok.inj h)))
      exact readField_sized hr hc
    · cases h

/-- It is ahead of where the round began, unless the field there is bad. -/
theorem nextRound_found_lt {o cur : ℤ} {b : Bytes} (h0 : 0 ≤ o) (hbad : ¬ BadEntry V data o)
    (h : nextRound V data o = .ok (.inr (some (b, cur)))) : o < cur := by
  unfold nextRound at h
  split at h
  · cases h
  · obtain ⟨r, hr, h⟩ := bind_eq_ok.mp h
    rcases readField_good (fun _ => sliceFrom_in) h0 (by omega) hbad with ⟨e, he⟩ | ⟨r', hr', hlt⟩
    · rw [he] at hr
      cases hr
    · obtain rfl := Except.ok.inj (hr.symm.trans hr')
      split at h
      · obtain ⟨-, rfl⟩ := Prod.mk.inj (Option.some.inj (Sum.inr.inj (Except.ok.inj h)))
        exact hlt
      · cases h

theorem next_loop_lt {cur cur' : ℤ} {b : Bytes} {fuel : ℕ} (h0 : 0 ≤ cur)
    (hsteady : Steady (nextRound V data) id cur)
    (h : runRounds (nextRound V data) fuel cur = .ok (some (b, cur'))) : cur < cur' := by
  refine runRounds_ok (I := fun o => Steady (nextRound V data) id o ∧ cur ≤ o)
    (P := fun x => ∀ b cur', x = some (b, cur') → cur < cur') ?_ ?_ ⟨hsteady, le_rfl⟩ h b cur' rfl
  · rintro o o' ⟨hs, hle⟩ hstep
    obtain ⟨hlt, hs'⟩ := hs.of_step hstep
    exact ⟨hs', hle.trans (le_of_lt hlt)⟩
  · rintro o x ⟨hs, hle⟩ hdone b cur' rfl
    have hgood : ¬ BadEntry V data o :=
      (next_steady_iff (h0.trans hle)).mp hs o Relation.ReflTransGen.refl
    exact lt_of_le_of_lt hle (nextRound_found_lt (h0.trans hle) hgood hdone)

omit [V.Lawful] in
theorem next_loop_entry {cur cur' : ℤ} {b : Bytes} {fuel : ℕ}
    (h : runRounds (nextRound V data) fuel cur = .ok (some (b, cur'))) :
    0 ≤ cur' ∧ b <:+: data :=
  runRounds_ok (I := fun _ => True)
    (P := fun x => ∀ b cur', x = some (b, cur') → 0 ≤ cur' ∧ b <:+: data)
    (fun _ _ _ _ => trivial)
    (fun _ _ _ hdone _ _ hx => nextRound_found (hx ▸ hdone)) trivial h b cur' rfl

omit [V.Lawful] in
/-- Key and value of a decoded entry are sub-ranges of its bytes. -/
theorem Kv.unmarshal_within {kv : Kv} (h : Kv.unmarshal V data = .ok kv) :
    kv.key <:+: data ∧ kv.value <:+: data := by
  have hfield : ∀ (s : Unmarshalling) (r : Read), (s.kv.key <:+: data ∧ s.kv.value <:+: data) →
      readField V kvKind (sliceFrom data) data s.offset = .ok r →
      (s.kv.setField r.number r.content).key <:+: data ∧
        (s.kv.setField r.number r.content).value <:+: data := by
    intro s r hs hr
    cases hc : r.content with
    | sized b =>
        have hb := (readField_sized hr hc).2
        by_cases hkey : r.number = fieldKVKey
        · rw [Kv.setField, if_pos hkey]
          exact ⟨hb, hs.2⟩
        · rw [Kv.setField, if_neg hkey]
          exact ⟨hs.1, hb⟩
    | varint v => exact hs
    | fixed64 x => exact hs
    | skipped => exact hs
  refine runRounds_ok (I := fun s => s.kv.key <:+: data ∧ s.kv.value <:+: data)
    (P := fun kv => kv.key <:+: data ∧ kv.value <:+: data) ?_ ?_
    ⟨List.nil_infix, List.nil_infix⟩ h
  · intro s s' hs hstep
    obtain ⟨r, hr, hstep⟩ := bind_eq_ok.mp hstep
    split at hstep
    · cases hstep
    · obtain rfl := Sum.inl.inj (Except.ok.inj hstep)
      exact hfield s r hs hr
  · intro s kv hs hdone
    obtain ⟨r, hr, hdone⟩ := bind_eq_ok.mp hdone
    split at hdone
    · obtain rfl := Sum.inr.inj (Except.ok.inj hdone)
      exact hfield s r hs hr
    · cases hdone

end Loops

/-! ## Totality -/

/-- What a call of `Next` at a cursor may do: its loops go forward to their end,
and it returns `io.EOF`, an error, or a KV that lies in the data together with a
cursor further on. -/
structure TotalCall (data : Bytes) (cur : ℤ) : Prop where
  find : Steady (nextRound V data) id cur
  decode : ∀ b cur', runRounds (nextRound V data) (data.length + 2) cur = .ok (some (b, cur')) →
    Steady (kvRound V b) Unmarshalling.offset ⟨.empty, 0⟩
  result : next V data cur = .ok none ∨ Reports (next V data cur) ∨
    ∃ kv cur', next V data cur = .ok (some (kv, cur')) ∧ cur < cur' ∧
      kv.key <:+: data ∧ kv.value <:+: data

/-- What the decoder may do with some data: index it, forward to the end, with a
DBI or an error as the result; and if it gives a DBI, then call `Next` until that
ends, each call as it should be. -/
structure Total (data : Bytes) : Prop where
  index : Steady (indexRound V data) Indexing.offset ⟨.ofData data, 0⟩
  opens : (∃ d, newDBIFromData V data = .ok d) ∨ Reports (newDBIFromData V data)
  calls : ∀ d, newDBIFromData V data = .ok d →
    ∀ c, Visits (readRound V data) .reset c → TotalCall V data c.cur
  reads : ∀ d, newDBIFromData V data = .ok d →
    Steady (readRound V data) Cursor.cur .reset ∧ ∃ r, readAll V data = .ok r

/-- None of the loops comes to a bad field. -/
structure Harmless (data : Bytes) : Prop where
  index : ∀ s, Visits (indexRound V data) ⟨.ofData data, 0⟩ s → ¬ BadIndex V data s
  entries : ∀ d, newDBIFromData V data = .ok d →
    ∀ c, Visits (readRound V data) .reset c →
    ∀ o, Visits (nextRound V data) c.cur o → ¬ BadEntry V data o
  fields : ∀ d, newDBIFromData V data = .ok d →
    ∀ c, Visits (readRound V data) .reset c →
    ∀ b cur, runRounds (nextRound V data) (data.length + 2) c.cur = .ok (some (b, cur)) →
    ∀ s, Visits (kvRound V b) ⟨.empty, 0⟩ s → ¬ BadKv V b s

section Totality

variable {V} {data : Bytes}

theorem next_eq_some {cur cur' : ℤ} {kv : Kv} (h : next V data cur = .ok (some (kv, cur'))) :
    ∃ b, runRounds (nextRound V data) (data.length + 2) cur = .ok (some (b, cur')) ∧
      Kv.unmarshal V b = .ok kv := by
  obtain ⟨x, hx, h⟩ := bind_eq_ok.mp h
  cases x with
  | none => cases h
  | some x =>
      obtain ⟨kv', hkv, h⟩ := bind_eq_ok.mp h
      obtain ⟨rfl, rfl⟩ := Prod.mk.inj (Option.some.inj (Except.ok.inj h))
      exact ⟨x.1, hx, hkv⟩

theorem visits_nonneg {c : Cursor} (h : Visits (readRound V data) .reset c) : 0 ≤ c.cur := by
  cases h with
  | refl => exact le_rfl
  | tail _ hstep =>
      obtain ⟨kv, hnext, -⟩ := readRound_next hstep
      obtain ⟨b, hb, -⟩ := next_eq_some hnext
      exact (next_loop_entry hb).1

theorem readRound_le {c c' : Cursor} (h : readRound V data c = .ok (.inl c')) :
    c.cur ≤ data.length := by
  obtain ⟨kv, hnext, -⟩ := readRound_next h
  obtain ⟨b, hb, -⟩ := next_eq_some hnext
  by_contra hlen
  rw [runRounds_done (b := none) (by rw [nextRound, if_pos (by omega)])] at hb
  cases hb

/-- A reader whose calls are as they should be gets to the end of the data. -/
theorem reads_of_calls (h : ∀ c, Visits (readRound V data) .reset c → TotalCall V data c.cur) :
    Steady (readRound V data) Cursor.cur .reset ∧ ∃ r, readAll V data = .ok r := by
  have hb : ∀ c c', readRound V data c = .ok (.inl c') → c.cur ≤ data.length :=
    fun _ _ => readRound_le
  have hsteady : Steady (readRound V data) Cursor.cur .reset := by
    refine (steady_iff hb).mpr fun c hc => ?_
    rcases (h c hc).result with hnone | ⟨e, he⟩ | ⟨kv, cur', hsome, hlt, -⟩
    · simp [Falters, readRound, hnone]
    · simp [Falters, readRound, he]
    · simpa [Falters, readRound, hsome] using hlt
  refine ⟨hsteady, ?_⟩
  rcases hsteady.run (data.length + 1) hb (by simp [Cursor.reset]) with hok | ⟨e, he⟩
  · exact hok
  · -- the reader turns an error of `Next` into a result
    rcases runRounds_eq_error he with hstuck | ⟨c, hc⟩
    · cases hstuck
    · unfold readRound at hc
      split at hc
      · cases hc
      · cases hc
      · cases hc
      · rename_i f hf _
        obtain rfl := Except.error.inj hc
        exact absurd rfl (hf e)

variable [V.Lawful]

/-- A call of `Next` whose loops are steady. -/
theorem totalCall {cur : ℤ} (h0 : 0 ≤ cur) (hfind : Steady (nextRound V data) id cur)
    (hdecode : ∀ b cur', runRounds (nextRound V data) (data.length + 2) cur = .ok (some (b, cur')) →
      Steady (kvRound V b) Unmarshalling.offset ⟨.empty, 0⟩) : TotalCall V data cur := by
  refine ⟨hfind, hdecode, ?_⟩
  have hloop := hfind.run (data.length + 1) (fun _ _ => nextRound_next)
    (by show (data.length : ℤ) - cur < _; push_cast; omega)
  rcases hloop with ⟨x, hx⟩ | ⟨e, he⟩
  · cases x with
    | none => exact Or.inl (by simp [next, hx, bind, Except.bind])
    | some x =>
        obtain ⟨b, cur'⟩ := x
        have hkv := (hdecode b cur' hx).run (b.length + 1)
          (fun _ _ h => (kvRound_next h).1) (by push_cast; omega)
        rcases hkv with ⟨kv, hkv⟩ | ⟨e, he⟩
        · have hin := (next_loop_entry hx).2
          obtain ⟨hkey, hval⟩ := Kv.unmarshal_within (V := V) hkv
          refine Or.inr (Or.inr ⟨kv, cur', ?_, next_loop_lt h0 hfind hx, hkey.trans hin,
            hval.trans hin⟩)
          simp [next, hx, Kv.unmarshal, hkv, bind, Except.bind]
        · exact Or.inr (Or.inl ⟨e, by simp [next, hx, Kv.unmarshal, he, bind, Except.bind]⟩)
  · exact Or.inr (Or.inl ⟨e, by simp [next, he, bind, Except.bind]⟩)

end Totality

/-! ## Data without large numbers -/

/-- No bytes in the data decode to a number near `2 ^ 63`. -/
def SmallLengths (data : Bytes) : Prop :=
  ∀ t ∈ data.tails, ∀ b ∈ t.inits, ∀ r ∈ V.decode b, r.1.toNat + r.2 < 2 ^ 63

instance (data : Bytes) : Decidable (SmallLengths V data) :=
  inferInstanceAs (Decidable (∀ t ∈ data.tails, ∀ b ∈ t.inits, ∀ r ∈ V.decode b,
    r.1.toNat + r.2 < 2 ^ 63))

section Small

variable {V} {data : Bytes}

theorem SmallLengths.lt_of_infix {b : Bytes} {v : UInt64} {n : ℕ} (h : SmallLengths V data)
    (hb : b <:+: data) (hdec : V.decode b = some (v, n)) : v.toNat + n < 2 ^ 63 := by
  obtain ⟨t, hpre, hsuf⟩ := List.infix_iff_prefix_suffix.mp hb
  exact h t ((List.mem_tails _ _).mpr hsuf) b ((List.mem_inits _ _).mpr hpre) (v, n) hdec

theorem SmallLengths.not_bad {kind : ℕ → Kind} {src : ℤ → Bytes} {b : Bytes} {offset : ℤ}
    (h : SmallLengths V data) (hb : b <:+: data) (hsrc : ∀ o, src o <:+: b) :
    ¬ BadField V kind src b offset := by
  rintro ⟨t, -, -, ⟨-, v, n, hdec, hv⟩ | ⟨-, v, n, hdec, hv, -⟩⟩
  · have hin : b.drop t.offset.toNat <:+: data := (List.drop_suffix _ _).isInfix.trans hb
    have hlt := h.lt_of_infix hin hdec
    omega
  · have hlt := h.lt_of_infix ((hsrc _).trans hb) hdec
    omega

theorem SmallLengths.harmless (h : SmallLengths V data) : Harmless V data where
  index := fun _ _ => h.not_bad (List.infix_refl _) fun _ => List.infix_refl _
  entries := fun _ _ _ _ _ _ =>
    h.not_bad (List.infix_refl _) fun _ => (List.drop_suffix _ _).isInfix
  fields := fun _ _ _ _ _ _ hb _ _ =>
    h.not_bad (next_loop_entry hb).2 fun _ => (List.drop_suffix _ _).isInfix

end Small

/-- **The decoder is total exactly on the data in which it comes to no bad field.** -/
theorem dbi_total_iff (V : Varint) [V.Lawful] (data : Bytes) : Total V data ↔ Harmless V data := by
  constructor
  · intro h
    refine ⟨index_steady_iff.mp h.index, ?_, ?_⟩
    · intro d hd c hc
      exact (next_steady_iff (visits_nonneg hc)).mp (h.calls d hd c hc).find
    · intro d hd c hc b cur hb
      exact kv_steady_iff.mp ((h.calls d hd c hc).decode b cur hb)
  · intro h
    have hcalls : ∀ d, newDBIFromData V data = .ok d →
        ∀ c, Visits (readRound V data) .reset c → TotalCall V data c.cur := by
      intro d hd c hc
      exact totalCall (visits_nonneg hc)
        ((next_steady_iff (visits_nonneg hc)).mpr (h.entries d hd c hc))
        fun b cur hb => kv_steady_iff.mpr (h.fields d hd c hc b cur hb)
    have hindex := index_steady_iff.mpr h.index
    exact ⟨hindex, hindex.run (data.length + 1) (fun _ _ => indexRound_next)
      (by push_cast; omega), hcalls, fun d hd => reads_of_calls (hcalls d hd)⟩

/-- A DBI with the name `a` and one entry with the key `k`. -/
def namedDBI : Bytes := [0x0a, 1, 0x61, 0x12, 3, 0x0a, 1, 0x6b]

theorem dbi_total_named : Total leb128 namedDBI :=
  (dbi_total_iff leb128 namedDBI).mpr (SmallLengths.harmless (by decide +kernel))

/-- An entry of length `2 ^ 63`. -/
def hugeEntry : Bytes := [0x12, 0x80, 0x80, 0x80, 0x80, 0x80, 0x80, 0x80, 0x80, 0x80, 1]

/-- An unknown fixed32 field with the tag `2 ^ 64 - 11`, and the tag of an unknown
length-delimited field. `indexData` takes the first tag for the length of the second
field, and goes one byte back. -/
def endlessSkip : Bytes :=
  [0xf5, 0xff, 0xff, 0xff, 0xff, 0xff, 0xff, 0xff, 0xff, 1, 0, 0, 0, 0, 0x2a]

/-- One message makes `indexData` panic, another makes it turn for ever. -/
theorem hostile_dbi :
    newDBIFromData leb128 hugeEntry = .error .panic ∧ ¬ Total leb128 hugeEntry ∧
      (∃ s, Visits (indexRound leb128 endlessSkip) ⟨.ofData endlessSkip, 0⟩ s ∧
        indexRound leb128 endlessSkip s = .ok (.inl s)) ∧ ¬ Total leb128 endlessSkip := by
  have hpanic : newDBIFromData leb128 hugeEntry = .error .panic := by decide +kernel
  have hfirst : indexRound leb128 endlessSkip ⟨.ofData endlessSkip, 0⟩ =
      .ok (.inl ⟨.ofData endlessSkip, 14⟩) := by decide +kernel
  have hturn : indexRound leb128 endlessSkip ⟨.ofData endlessSkip, 14⟩ =
      .ok (.inl ⟨.ofData endlessSkip, 14⟩) := by decide +kernel
  refine ⟨hpanic, ?_, ⟨_, Relation.ReflTransGen.single hfirst, hturn⟩, ?_⟩
  · intro h
    rcases h.opens with ⟨d, hd⟩ | ⟨e, he⟩
    · rw [hpanic] at hd
      cases hd
    · rw [hpanic] at he
      cases he
  · intro h
    have hsteady := (h.index.of_step hfirst).2
    exact absurd (hsteady.of_step hturn).1 (lt_irrefl _)

end LightningStream.Snapshot
