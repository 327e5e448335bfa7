import LightningStream.Snapshot.Decoder

/-!
# What the decoders make of a well-formed DBI message

A well-formed DBI message is a list of parts: entries, whose fields are again
well-formed, and other fields. The decoders return what a plain pass over the
parts returns. For `Next` and `KV.Unmarshal` this holds of every such message
(`readAll_parts`); for `indexData` it takes that unknown fields are skipped by
their size (`indexData_parts`).
-/

namespace LightningStream.Snapshot

variable {V : Varint}

/-- An entry: its tag, its length and the fields of the `KV` message. -/
structure Entry (V : Varint) where
  raw : Bytes
  rawSize : Bytes
  fields : List (Field V)
  tag : V.decode raw = some (UInt64.ofNat (8 * fieldDBIEntries + 2), raw.length)
  size : V.decode rawSize = some (UInt64.ofNat (encodeFields fields).length, rawSize.length)
  fits : rawSize.length + (encodeFields fields).length < 2 ^ 63
  typed : ∀ f ∈ fields, f.payload.Typed (kvKind f.number)

inductive Part (V : Varint)
  | entry (e : Entry V)
  | field (f : Field V) (noEntry : f.number ≠ fieldDBIEntries)
      (typed : f.payload.Typed (dbiKind f.number))

def Entry.toField (e : Entry V) : Field V where
  raw := e.raw
  number := fieldDBIEntries
  payload := .sized e.rawSize (encodeFields e.fields) e.size e.fits
  small := by decide
  valid := e.tag

def Part.toField : Part V → Field V
  | .entry e => e.toField
  | .field f _ _ => f

def encodeParts (ps : List (Part V)) : Bytes := encodeFields (ps.map Part.toField)

@[simp] theorem encodeParts_cons (p : Part V) (ps : List (Part V)) :
    encodeParts (p :: ps) = p.toField.bytes ++ encodeParts ps := rfl

@[simp] theorem encodeParts_append (ps qs : List (Part V)) :
    encodeParts (ps ++ qs) = encodeParts ps ++ encodeParts qs := by
  simp [encodeParts]

theorem Part.typed : ∀ p : Part V, p.toField.payload.Typed (dbiKind p.toField.number)
  | .entry _ => rfl
  | .field _ _ typed => typed

/-! ## The plain pass -/

def Kv.withField (kv : Kv) (f : Field V) : Kv :=
  kv.setField f.number (f.payload.content (kvKind f.number))

/-- The entry that a list of fields stands for; a later field overrules. -/
def kvOf (fs : List (Field V)) : Kv := fs.foldl Kv.withField .empty

def DBI.withPart (d : DBI) (p : Part V) : DBI :=
  d.setField p.toField.number (p.toField.payload.content (dbiKind p.toField.number))

/-- What reading the entries gives. An entry without a field is malformed for
`KV.Unmarshal`, which looks for a tag first. -/
def readParts : List (Part V) → Reading DecodeErr
  | [] => ⟨[], none⟩
  | .field _ _ _ :: ps => readParts ps
  | .entry e :: ps =>
      if e.fields.isEmpty then ⟨[], some .malformed⟩
      else ⟨kvOf e.fields :: (readParts ps).kvs, (readParts ps).ending⟩

/-! ## The loops -/

variable [V.Lawful] {data : Bytes}

theorem length_le_encodeFields : ∀ fs : List (Field V), fs.length ≤ (encodeFields fs).length
  | [] => le_rfl
  | f :: fs => by
      have hf := f.bytes_ne_nil
      have ih := length_le_encodeFields fs
      rw [encodeFields_cons, List.length_append, List.length_cons]
      omega

omit [V.Lawful] in
/-- A loop that handles one field a round runs over a list of fields. -/
theorem runRounds_fields {σ β : Type} (round : σ → Decoding (σ ⊕ β)) (μ : σ → ℤ)
    (step : σ → Field V → σ) (tail : Bytes) : ∀ {fs : List (Field V)} {s : σ} (fuel : ℕ),
    (∀ f ∈ fs, ∀ (t : σ) (rest : Bytes), tail.length ≤ rest.length →
      At data (μ t) (f.bytes ++ rest) →
      round t = .ok (.inl (step t f)) ∧ μ (step t f) = μ t + f.bytes.length) →
    At data (μ s) (encodeFields fs ++ tail) →
    runRounds round (fs.length + fuel) s = runRounds round fuel (fs.foldl step s) ∧
      At data (μ (fs.foldl step s)) tail
  | [], s, fuel, _, hat => ⟨by rw [List.length_nil, Nat.zero_add]; rfl, hat⟩
  | f :: fs, s, fuel, hround, hat => by
      rw [encodeFields_cons, List.append_assoc] at hat
      obtain ⟨hr, hμ⟩ := hround f List.mem_cons_self s _ (by simp) hat
      have hat' : At data (μ (step s f)) (encodeFields fs ++ tail) := by
        rw [hμ]
        exact hat.advance
      have ih := runRounds_fields round μ step tail fuel
        (fun g hg => hround g (List.mem_cons_of_mem _ hg)) hat'
      have hlen : (f :: fs).length + fuel = fs.length + fuel + 1 := by
        rw [List.length_cons]
        omega
      rw [hlen, runRounds_next hr, List.foldl_cons]
      exact ih

/-! ## KV.Unmarshal -/

def Unmarshalling.withField (s : Unmarshalling) (f : Field V) : Unmarshalling :=
  ⟨s.kv.withField f, s.offset + f.bytes.length⟩

omit [V.Lawful] in
theorem foldl_withField_kv (fs : List (Field V)) (s : Unmarshalling) :
    (fs.foldl Unmarshalling.withField s).kv = fs.foldl Kv.withField s.kv := by
  induction fs generalizing s with
  | nil => rfl
  | cons f fs ih => exact ih _

theorem kvRound_field {s : Unmarshalling} {f : Field V} {rest : Bytes}
    (ht : f.payload.Typed (kvKind f.number)) (hat : At data s.offset (f.bytes ++ rest)) :
    kvRound V data s = .ok (if rest = [] then .inr (s.kv.withField f)
      else .inl (s.withField f)) := by
  have hlen := hat.length_eq
  rw [List.length_append] at hlen
  have hend : s.offset + f.bytes.length = data.length ↔ rest = [] := by
    rw [← List.length_eq_zero_iff]
    push_cast at hlen
    omega
  rw [kvRound, readField_field_here f hat ht]
  simp only [bind, Except.bind, hend]
  rfl

theorem unmarshal_fields {fs : List (Field V)} (hne : fs ≠ [])
    (ht : ∀ f ∈ fs, f.payload.Typed (kvKind f.number)) :
    Kv.unmarshal V (encodeFields fs) = .ok (kvOf fs) := by
  obtain ⟨front, last, rfl⟩ : ∃ front last, fs = front ++ [last] :=
    ⟨_, _, (List.dropLast_append_getLast hne).symm⟩
  obtain ⟨data, hdata⟩ : ∃ data, data = encodeFields (front ++ [last]) := ⟨_, rfl⟩
  have hstart : At data 0 (encodeFields front ++ last.bytes) := by
    have : encodeFields front ++ last.bytes = data := by simp [hdata]
    rw [this]
    exact at_start data
  obtain ⟨fuel, hfuel⟩ : ∃ fuel, data.length + 2 = front.length + (fuel + 1) := by
    have := length_le_encodeFields (front ++ [last])
    rw [← hdata, List.length_append] at this
    exact ⟨data.length + 1 - front.length, by omega⟩
  -- all fields but the last one leave something behind them
  obtain ⟨hrun, hat⟩ := runRounds_fields (kvRound V data) Unmarshalling.offset
    Unmarshalling.withField last.bytes (s := ⟨.empty, 0⟩) (fuel + 1) (by
      intro f hf t rest hrest hat
      have hne : rest ≠ [] := by
        rintro rfl
        have := last.bytes_ne_nil
        rw [List.length_nil] at hrest
        omega
      rw [kvRound_field (ht f (List.mem_append_left _ hf)) hat, if_neg hne]
      exact ⟨rfl, rfl⟩) hstart
  rw [← List.append_nil last.bytes] at hat
  have hlast := kvRound_field (ht last (by simp)) hat
  rw [if_pos rfl] at hlast
  rw [Kv.unmarshal, ← hdata, hfuel, hrun, runRounds_done hlast, foldl_withField_kv, kvOf,
    List.foldl_append]
  rfl

theorem unmarshal_nil : Kv.unmarshal V [] = .error (.error .malformed) := by
  apply runRounds_error
  have hdec : decodeVarint V [] = .error (.error .malformed) := by
    rw [decodeVarint, Varint.decode_nil]
  rw [kvRound, readField, readTag, sliceFrom_at (at_start [])]
  simp only [bind, Except.bind, hdec]

/-! ## Next -/

theorem nextRound_field {f : Field V} {rest : Bytes} {offset : ℤ}
    (hno : f.number ≠ fieldDBIEntries) (hat : At data offset (f.bytes ++ rest)) :
    nextRound V data offset = .ok (.inl (offset + f.bytes.length)) := by
  have hlen := hat.length_eq
  have hf := f.bytes_ne_nil
  have hkind : entryKind f.number = .unknown := if_neg hno
  rw [List.length_append] at hlen
  rw [nextRound, if_neg (by push_cast at hlen; omega),
    readField_field_here f hat (by rw [hkind]; trivial), hkind]
  cases f.payload <;> rfl

theorem nextRound_entry {e : Entry V} {rest : Bytes} {offset : ℤ}
    (hat : At data offset (e.toField.bytes ++ rest)) :
    nextRound V data offset =
      .ok (.inr (some (encodeFields e.fields, offset + e.toField.bytes.length))) := by
  have hlen := hat.length_eq
  have hf := e.toField.bytes_ne_nil
  rw [List.length_append] at hlen
  have hkind : entryKind e.toField.number = .sized := if_pos rfl
  rw [nextRound, if_neg (by push_cast at hlen; omega),
    readField_field_here _ hat (by rw [hkind]; rfl)]
  rfl

omit [V.Lawful] in
theorem nextRound_end {offset : ℤ} (h : data.length ≤ offset) :
    nextRound V data offset = .ok (.inr none) := if_pos h

/-- Run over the fields in front of the next entry. -/
theorem runRounds_nextRound {fs : List (Field V)} {tail : Bytes} {offset : ℤ} (fuel : ℕ)
    (hno : ∀ f ∈ fs, f.number ≠ fieldDBIEntries)
    (hat : At data offset (encodeFields fs ++ tail)) :
    runRounds (nextRound V data) (fs.length + fuel) offset =
      runRounds (nextRound V data) fuel (offset + (encodeFields fs).length) := by
  obtain ⟨hrun, hend⟩ := runRounds_fields (nextRound V data) id
    (fun o f => o + f.bytes.length) tail fuel (s := offset) (by
      intro f hf t rest _ hat
      exact ⟨nextRound_field (hno f hf) hat, rfl⟩) hat
  have h1 := hat.length_eq
  have h2 := hend.length_eq
  rw [List.length_append] at h1
  rw [hrun]
  congr 1
  simp only [id_eq] at h2
  push_cast at h1
  omega

omit [V.Lawful] in
/-- The fields in front of the first entry, and what follows them. -/
theorem parts_split : ∀ ps : List (Part V), ∃ (fs : List (Field V)) (qs : List (Part V)),
    (∀ f ∈ fs, f.number ≠ fieldDBIEntries) ∧ encodeParts ps = encodeFields fs ++ encodeParts qs ∧
      readParts ps = readParts qs ∧ (qs = [] ∨ ∃ e qs', qs = .entry e :: qs')
  | [] => ⟨[], [], by simp, rfl, rfl, Or.inl rfl⟩
  | .entry e :: ps => ⟨[], .entry e :: ps, by simp, rfl, rfl, Or.inr ⟨e, ps, rfl⟩⟩
  | .field f hno ht :: ps => by
      obtain ⟨fs, qs, hfs, henc, hread, hqs⟩ := parts_split ps
      refine ⟨f :: fs, qs, ?_, ?_, hread, hqs⟩
      · rintro g (_ | ⟨_, hg⟩)
        · exact hno
        · exact hfs g hg
      · rw [encodeParts_cons, henc, encodeFields_cons, List.append_assoc]
        rfl

/-- `Next` at the start of a list of parts. -/
theorem next_parts {ps : List (Part V)} {cur : ℤ} (hat : At data cur (encodeParts ps)) :
    (readParts ps = ⟨[], none⟩ ∧ next V data cur = .ok none) ∨
    (readParts ps = ⟨[], some .malformed⟩ ∧ next V data cur = .error (.error .malformed)) ∨
    ∃ (kv : Kv) (cur' : ℤ) (qs : List (Part V)),
      readParts ps = ⟨kv :: (readParts qs).kvs, (readParts qs).ending⟩ ∧
      next V data cur = .ok (some (kv, cur')) ∧ cur < cur' ∧ At data cur' (encodeParts qs) := by
  obtain ⟨fs, qs, hno, henc, hread, hqs⟩ := parts_split ps
  rw [henc] at hat
  have hlen := hat.length_eq
  rw [List.length_append] at hlen
  have hfs := length_le_encodeFields fs
  have h0 := hat.nonneg
  have hat' := hat.advance
  obtain ⟨fuel, hfuel⟩ : ∃ fuel, data.length + 2 = fs.length + (fuel + 1) :=
    ⟨data.length + 1 - fs.length, by omega⟩
  have hrun := runRounds_nextRound (fuel + 1) hno hat
  rcases hqs with rfl | ⟨e, qs', rfl⟩
  · left
    have hlen' := hat'.length_eq
    rw [next, hfuel, hrun, runRounds_done (nextRound_end (by simp [encodeParts] at hlen'; omega))]
    exact ⟨hread, rfl⟩
  · right
    rw [encodeParts_cons] at hat'
    have he := nextRound_entry (e := e) hat'
    rw [hread, next, hfuel, hrun, runRounds_done he, readParts]
    by_cases hempty : e.fields = []
    · left
      rw [hempty]
      simp only [List.isEmpty_nil, if_true, bind, Except.bind, encodeFields_nil, unmarshal_nil]
      exact ⟨trivial, trivial⟩
    · right
      have hpos : 1 ≤ (Part.entry e).toField.bytes.length := e.toField.bytes_ne_nil
      refine ⟨kvOf e.fields, _, qs', ?_, ?_, ?_, hat'.advance⟩
      · rw [if_neg (by simpa using hempty)]
      · simp only [bind, Except.bind, unmarshal_fields hempty e.typed]
        rfl
      · omega

theorem readAll_loop {kvs : List Kv} : ∀ {fuel : ℕ} {ps : List (Part V)} {cur : ℤ},
    At data cur (encodeParts ps) → (encodeParts ps).length < fuel →
    runRounds (readRound V data) fuel ⟨kvs, cur⟩ =
      .ok ⟨kvs ++ (readParts ps).kvs, (readParts ps).ending⟩ := by
  intro fuel
  induction fuel generalizing kvs with
  | zero =>
      intro ps cur _ hfuel
      omega
  | succ fuel ih =>
      intro ps cur hat hfuel
      rcases next_parts hat with ⟨hr, hn⟩ | ⟨hr, hn⟩ | ⟨kv, cur', qs, hr, hn, hlt, hat'⟩
      · have hround : readRound V data ⟨kvs, cur⟩ = .ok (.inr ⟨kvs, none⟩) := by
          simp only [readRound, hn]
        rw [runRounds_done hround, hr, List.append_nil]
      · have hround : readRound V data ⟨kvs, cur⟩ = .ok (.inr ⟨kvs, some .malformed⟩) := by
          simp only [readRound, hn]
        rw [runRounds_done hround, hr, List.append_nil]
      · have hround : readRound V data ⟨kvs, cur⟩ = .ok (.inl ⟨kvs ++ [kv], cur'⟩) := by
          simp only [readRound, hn]
        have h1 := hat.length_eq
        have h2 := hat'.length_eq
        rw [runRounds_next hround, ih hat' (by omega), hr, List.append_assoc]
        rfl

/-- **Reading a well-formed message gives its entries.** -/
theorem readAll_parts (ps : List (Part V)) :
    readAll V (encodeParts ps) = .ok (readParts ps) := by
  rw [readAll, Cursor.reset, readAll_loop (at_start _) (by omega)]
  rfl

/-! ## indexData -/

/-- `indexData` skips a part by its size: it knows the number, or the content
size found at the start of the data is the right one. -/
def Skippable (data : Bytes) (p : Part V) : Prop :=
  dbiKind p.toField.number = .unknown →
    skipTag V data p.toField.payload.wireType = .ok p.toField.payload.bytes.length

def Indexing.withField (s : Indexing) (f : Field V) : Indexing :=
  ⟨s.dbi.setField f.number (f.payload.content (dbiKind f.number)), s.offset + f.bytes.length⟩

omit [V.Lawful] in
theorem foldl_withField_dbi (ps : List (Part V)) (s : Indexing) :
    ((ps.map Part.toField).foldl Indexing.withField s).dbi = ps.foldl DBI.withPart s.dbi := by
  induction ps generalizing s with
  | nil => rfl
  | cons p ps ih => exact ih _

theorem indexRound_part {p : Part V} {s : Indexing} {rest : Bytes} (hskip : Skippable data p)
    (hat : At data s.offset (p.toField.bytes ++ rest)) :
    indexRound V data s = .ok (.inl (s.withField p.toField)) := by
  have hlen := hat.length_eq
  have hpos := p.toField.bytes_ne_nil
  rw [List.length_append] at hlen
  rw [indexRound, if_neg (by push_cast at hlen; omega),
    readField_field _ hat p.typed fun hu => ⟨data, rfl, hskip hu⟩]
  rfl

omit [V.Lawful] in
theorem indexRound_end {s : Indexing} (h : data.length ≤ s.offset) :
    indexRound V data s = .ok (.inr s.dbi) := if_pos h

/-- **Indexing a well-formed message gives its fields**, if every unknown field
is skipped by its size. -/
theorem indexData_parts {ps : List (Part V)}
    (hskip : ∀ p ∈ ps, Skippable (encodeParts ps) p) :
    newDBIFromData V (encodeParts ps) =
      .ok (ps.foldl DBI.withPart (DBI.ofData (encodeParts ps))) := by
  obtain ⟨data, hdata⟩ : ∃ data, data = encodeParts ps := ⟨_, rfl⟩
  rw [← hdata] at hskip ⊢
  have hle := length_le_encodeFields (ps.map Part.toField)
  obtain ⟨fuel, hfuel⟩ : ∃ fuel, data.length + 2 = (ps.map Part.toField).length + (fuel + 1) :=
    ⟨data.length + 1 - (ps.map Part.toField).length, by
      rw [hdata, encodeParts]
      omega⟩
  have hstart : At data 0 (encodeFields (ps.map Part.toField) ++ []) := by
    rw [List.append_nil]
    show At data 0 (encodeParts ps)
    rw [← hdata]
    exact at_start data
  have hround : ∀ f ∈ ps.map Part.toField, ∀ (t : Indexing) (rest : Bytes),
      ([] : Bytes).length ≤ rest.length → At data t.offset (f.bytes ++ rest) →
      indexRound V data t = .ok (.inl (t.withField f)) ∧
        (t.withField f).offset = t.offset + f.bytes.length := by
    intro f hf t rest _ hat
    obtain ⟨p, hp, rfl⟩ := List.mem_map.mp hf
    exact ⟨indexRound_part (hskip p hp) hat, rfl⟩
  obtain ⟨hrun, hat⟩ := runRounds_fields (indexRound V data) Indexing.offset
    Indexing.withField [] (s := ⟨DBI.ofData data, 0⟩) (fuel + 1) hround hstart
  have hend := hat.length_eq
  rw [List.length_nil, Nat.cast_zero, add_zero] at hend
  rw [newDBIFromData, DBI.indexData]
  show runRounds (indexRound V data) (data.length + 2) ⟨DBI.ofData data, 0⟩ = _
  rw [hfuel, hrun, runRounds_done (indexRound_end hend.le), foldl_withField_dbi]

end LightningStream.Snapshot
