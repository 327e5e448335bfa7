import LightningStream.Snapshot.Parts

/-!
# Unknown fields

A newer version may write fields that this decoder does not know. `Inserted`
relates a well-formed message to one with such fields put in, between the parts
of the message and between the fields of its entries. `Next` and `KV.Unmarshal`
skip them. `indexData` skips a field from the start of the data, so it finds the
end of an unknown field only when the data begin with bytes of the same content
size: always for the two fixed sizes, seldom for the other wire types.
-/

namespace LightningStream.Snapshot

variable {V : Varint}

/-! ## Insertion -/

/-- Unknown fields are put between the fields of an entry. -/
inductive InsertedFields : List (Field V) → List (Field V) → Prop
  | nil : InsertedFields [] []
  | keep {fs gs : List (Field V)} (f : Field V) :
      InsertedFields fs gs → InsertedFields (f :: fs) (f :: gs)
  | insert {fs gs : List (Field V)} (g : Field V) (unknown : kvKind g.number = .unknown) :
      InsertedFields fs gs → InsertedFields fs (g :: gs)

/-- Unknown fields are put between the parts of a message and into its entries. -/
inductive Inserted : List (Part V) → List (Part V) → Prop
  | nil : Inserted [] []
  | entry {ps qs : List (Part V)} (e e' : Entry V) :
      InsertedFields e.fields e'.fields → Inserted ps qs →
      Inserted (.entry e :: ps) (.entry e' :: qs)
  | keep {ps qs : List (Part V)} (f : Field V) (noEntry : f.number ≠ fieldDBIEntries)
      (typed : f.payload.Typed (dbiKind f.number)) :
      Inserted ps qs → Inserted (.field f noEntry typed :: ps) (.field f noEntry typed :: qs)
  | insert {ps qs : List (Part V)} (f : Field V) (noEntry : f.number ≠ fieldDBIEntries)
      (typed : f.payload.Typed (dbiKind f.number)) (unknown : dbiKind f.number = .unknown) :
      Inserted ps qs → Inserted ps (.field f noEntry typed :: qs)

/-- The two messages decode to the same DBI and the same entries. -/
structure SameReading (ps qs : List (Part V)) : Prop where
  index : ∃ d d', newDBIFromData V (encodeParts ps) = .ok d ∧
    newDBIFromData V (encodeParts qs) = .ok d' ∧
    d'.name = d.name ∧ d'.flags = d.flags ∧ d'.transform = d.transform
  kvs : readAll V (encodeParts qs) = readAll V (encodeParts ps)

def entriesOf : List (Part V) → List (Entry V)
  | [] => []
  | .entry e :: ps => e :: entriesOf ps
  | .field _ _ _ :: ps => entriesOf ps

/-- An entry without a field gets none. -/
def EmptyStay (ps qs : List (Part V)) : Prop :=
  List.Forall₂ (fun e e' => e.fields = [] → e'.fields = []) (entriesOf ps) (entriesOf qs)

/-! ## Entries -/

theorem Kv.withField_unknown {kv : Kv} {f : Field V} (h : kvKind f.number = .unknown) :
    kv.withField f = kv := by
  rw [Kv.withField, h]
  cases f.payload <;> rfl

theorem InsertedFields.foldl {fs gs : List (Field V)} (h : InsertedFields fs gs) (kv : Kv) :
    gs.foldl Kv.withField kv = fs.foldl Kv.withField kv := by
  induction h generalizing kv with
  | nil => rfl
  | keep f _ ih => exact ih _
  | insert g unknown _ ih => rw [List.foldl_cons, Kv.withField_unknown unknown, ih]

theorem InsertedFields.ne_nil {fs gs : List (Field V)} (h : InsertedFields fs gs)
    (hne : fs ≠ []) : gs ≠ [] := by
  cases h with
  | nil => exact hne
  | keep f _ => exact List.cons_ne_nil _ _
  | insert g _ _ => exact List.cons_ne_nil _ _

theorem Inserted.readParts_eq {ps qs : List (Part V)} (h : Inserted ps qs)
    (hempty : EmptyStay ps qs) : readParts qs = readParts ps := by
  induction h with
  | nil => rfl
  | entry e e' hfs _ ih =>
      obtain ⟨hstay, hrest⟩ := List.forall₂_cons.mp hempty
      have hiff : e'.fields = [] ↔ e.fields = [] :=
        ⟨fun h' => by_contra fun hne => hfs.ne_nil hne h', hstay⟩
      simp only [readParts, kvOf, hfs.foldl, List.isEmpty_iff, hiff, ih hrest]
  | keep f _ _ _ ih => exact ih hempty
  | insert f _ _ _ _ ih => exact ih hempty

/-! ## The fields of the DBI -/

/-- The fields that `indexData` looks for. -/
structure SameFields (d d' : DBI) : Prop where
  name : d'.name = d.name
  flags : d'.flags = d.flags
  transform : d'.transform = d.transform

theorem SameFields.setField {d d' : DBI} (h : SameFields d d') (tag : ℕ) (c : Content) :
    SameFields (d.setField tag c) (d'.setField tag c) := by
  obtain ⟨hname, hflags, htransform⟩ := h
  cases c with
  | sized b =>
      by_cases hn : tag = fieldDBIName
      · rw [DBI.setField, DBI.setField, if_pos hn, if_pos hn]
        exact ⟨rfl, hflags, htransform⟩
      · by_cases ht : tag = fieldDBITransform
        · rw [DBI.setField, DBI.setField, if_neg hn, if_pos ht, if_neg hn, if_pos ht]
          exact ⟨hname, hflags, rfl⟩
        · rw [DBI.setField, DBI.setField, if_neg hn, if_neg ht, if_neg hn, if_neg ht]
          exact ⟨hname, hflags, htransform⟩
  | varint v => exact ⟨hname, rfl, htransform⟩
  | fixed64 x => exact ⟨hname, hflags, htransform⟩
  | skipped => exact ⟨hname, hflags, htransform⟩

theorem DBI.withPart_unknown {d : DBI} {f : Field V} (hno : f.number ≠ fieldDBIEntries)
    (ht : f.payload.Typed (dbiKind f.number)) (h : dbiKind f.number = .unknown) :
    d.withPart (.field f hno ht) = d := by
  show d.setField f.number (f.payload.content (dbiKind f.number)) = d
  rw [h]
  cases f.payload <;> rfl

theorem Inserted.sameFields {ps qs : List (Part V)} (h : Inserted ps qs) {d d' : DBI}
    (hd : SameFields d d') :
    SameFields (ps.foldl DBI.withPart d) (qs.foldl DBI.withPart d') := by
  induction h generalizing d d' with
  | nil => exact hd
  | entry e e' _ _ ih => exact ih hd
  | keep f _ _ _ ih => exact ih (hd.setField _ _)
  | insert f hno ht unknown _ ih =>
      rw [List.foldl_cons, DBI.withPart_unknown hno ht unknown]
      exact ih hd

/-! ## What `indexData` skips -/

section Skippable

variable {data : Bytes} {p : Part V}

theorem skippable_known (h : dbiKind p.toField.number ≠ .unknown) : Skippable data p :=
  fun hu => absurd hu h

/-- A field of a fixed size is skipped wherever it is. -/
theorem skippable_fixed {ps : List (Part V)} (hp : p ∈ ps)
    (h : p.toField.payload.wireType = .fixed32 ∨ p.toField.payload.wireType = .fixed64) :
    Skippable (encodeParts ps) p := by
  intro _
  have hlen : p.toField.payload.bytes.length ≤ (encodeParts ps).length := by
    obtain ⟨as, bs, rfl⟩ := List.append_of_mem hp
    rw [encodeParts_append, encodeParts_cons, Field.bytes]
    simp only [List.length_append]
    omega
  generalize p.toField.payload = payload at h hlen
  cases payload with
  | varint _ _ _ => rcases h with h | h <;> cases h
  | sized _ _ _ _ => rcases h with h | h <;> cases h
  | fixed32 b valid =>
      simp only [Payload.bytes, Payload.wireType, skipTag, contentSize, bind, Except.bind,
        valid] at hlen ⊢
      rw [if_neg (by omega)]
      rfl
  | fixed64 b valid =>
      simp only [Payload.bytes, Payload.wireType, skipTag, contentSize, bind, Except.bind,
        valid] at hlen ⊢
      rw [if_neg (by omega)]
      rfl

end Skippable

/-- **Unknown fields are skipped**, if `indexData` finds the end of each one in
either message, and no entry without a field gets one. -/
theorem unknown_fields_skipped (V : Varint) [V.Lawful] {ps qs : List (Part V)}
    (h : Inserted ps qs)
    (hps : ∀ p ∈ ps, Skippable (encodeParts ps) p) (hqs : ∀ p ∈ qs, Skippable (encodeParts qs) p)
    (hempty : EmptyStay ps qs) : SameReading ps qs := by
  have hfields : SameFields (ps.foldl DBI.withPart (DBI.ofData (encodeParts ps)))
      (qs.foldl DBI.withPart (DBI.ofData (encodeParts qs))) :=
    h.sameFields ⟨rfl, rfl, rfl⟩
  refine ⟨⟨_, _, indexData_parts hps, indexData_parts hqs, hfields.name, hfields.flags,
    hfields.transform⟩, ?_⟩
  rw [readAll_parts, readAll_parts, h.readParts_eq hempty]

/-! ## Examples of messages -/

/-- The name `a`. -/
def namePart : Part leb128 :=
  .field ⟨[0x0a], 1, .sized [1] [0x61] (by decide +kernel) (by decide), by decide,
    by decide +kernel⟩ (by decide) rfl

/-- The key `k`. -/
def keyField : Field leb128 :=
  ⟨[0x0a], 1, .sized [1] [0x6b] (by decide +kernel) (by decide), by decide, by decide +kernel⟩

/-- Field 5 of an entry, which nobody knows, with the number 300. -/
def newKvField : Field leb128 :=
  ⟨[0x28], 5, .varint [0xac, 2] 300 (by decide +kernel), by decide, by decide +kernel⟩

/-- Field 5 of a DBI, which nobody knows, in four bytes. -/
def newFixedField : Field leb128 :=
  ⟨[0x2d], 5, .fixed32 [1, 2, 3, 4] rfl, by decide, by decide +kernel⟩

/-- Field 5 of a DBI, which nobody knows, with the text `x`. -/
def newTextField : Field leb128 :=
  ⟨[0x2a], 5, .sized [1] [0x78] (by decide +kernel) (by decide), by decide, by decide +kernel⟩

def keyEntry : Entry leb128 :=
  ⟨[0x12], [3], [keyField], by decide +kernel, by decide +kernel, by decide +kernel, by
    simp [keyField, Payload.Typed, kvKind, Payload.wireType, fieldKVKey]⟩

def newKeyEntry : Entry leb128 :=
  ⟨[0x12], [6], [keyField, newKvField], by decide +kernel, by decide +kernel, by decide +kernel, by
    simp [keyField, newKvField, Payload.Typed, kvKind, Payload.wireType, fieldKVKey, fieldKVValue,
      fieldKVFlags, fieldKVTimestampNano]⟩

def newFixedPart : Part leb128 := .field newFixedField (by decide) trivial

def newTextPart : Part leb128 := .field newTextField (by decide) trivial

theorem unknown_fixed_skipped :
    SameReading [namePart, .entry keyEntry] [namePart, newFixedPart, .entry newKeyEntry] := by
  refine unknown_fields_skipped leb128
    (.keep _ _ _ (.insert _ _ _ (by decide)
      (.entry _ _ (.keep _ (.insert _ (by decide) .nil)) .nil)))
    ?_ ?_ ?_
  · intro p hp
    simp only [List.mem_cons, List.not_mem_nil, or_false] at hp
    rcases hp with rfl | rfl
    · exact skippable_known (by decide)
    · exact skippable_known (by decide)
  · intro p hp
    have hmem := hp
    simp only [List.mem_cons, List.not_mem_nil, or_false] at hp
    rcases hp with rfl | rfl | rfl
    · exact skippable_known (by decide)
    · exact skippable_fixed hmem (Or.inl rfl)
    · exact skippable_known (by decide)
  · exact List.Forall₂.cons (fun h => absurd h (List.cons_ne_nil _ _)) List.Forall₂.nil

/-- A text field behind the name: `indexData` takes the tag of the name for the
length of the new field. -/
theorem unknown_text_not_skipped :
    Inserted [namePart] [namePart, newTextPart] ∧
      newDBIFromData leb128 (encodeParts [namePart, newTextPart]) =
        .error (.error .unexpectedEOF) ∧
      ¬ SameReading [namePart] [namePart, newTextPart] := by
  have hindex : newDBIFromData leb128 (encodeParts [namePart, newTextPart]) =
      .error (.error .unexpectedEOF) := by decide +kernel
  refine ⟨.keep _ _ _ (.insert _ _ _ (by decide) .nil), hindex, ?_⟩
  rintro ⟨⟨d, d', -, hd', -⟩, -⟩
  rw [hindex] at hd'
  cases hd'

end LightningStream.Snapshot
