import LightningStream.Snapshot.Codec

/-!
# Mapping a DBI

`Map` copies a `DBI`. It reads the entries one by one, passes each of them to a
function, and appends what the function returns to a new `DBI`, which has the
name and the flags of the old one and another transform. The function is a
closure and may keep variables from call to call.

On a message whose entries can be read, `Map` is the fold `mapKvs` over these
entries (`DBI.map_cases`).
-/

namespace LightningStream.Snapshot

inductive MapErr (ε : Type)
  /-- An error of `Next`. -/
  | next (e : DecodeErr)
  /-- An error of the function. -/
  | map (e : ε)
deriving DecidableEq

/-- A `KVMapFunc` as a function of the variables that its closure keeps. -/
abbrev KVMapFunc (σ ε : Type) : Type := σ → Kv → Except ε (Kv × σ)

structure Mapping (σ : Type) where
  cur : ℤ
  newDBI : DBI
  vars : σ

variable {σ ε : Type}

def orPanic {α : Type} : Except Panic α → Except (Fault (MapErr ε)) α
  | .ok a => .ok a
  | .error _ => .error .panic

section Map

variable (V : Varint) (G : Growth) (f : KVMapFunc σ ε)

/-- A round of the loop. -/
def mapRound (data : Bytes) (m : Mapping σ) : Except (Fault (MapErr ε)) (Mapping σ ⊕ DBI) :=
  match next V data m.cur with
  | .error (.error e) => .error (.error (.next e))
  | .error .panic => .error .panic
  | .error .stuck => .error .stuck
  | .ok none => .ok (.inr m.newDBI)
  | .ok (some (kv, cur)) =>
      match f m.vars kv with
      | .error e => .error (.error (.map e))
      | .ok (newKV, vars) => do
          let newDBI ← orPanic (m.newDBI.append V G newKV)
          .ok (.inl ⟨cur, newDBI, vars⟩)

def DBI.map (transform : Bytes) (vars : σ) (d : DBI) : Except (Fault (MapErr ε)) DBI := do
  let newDBI ← orPanic ((newDBISize d.data.length).setName d.name)
  let newDBI ← orPanic (newDBI.setFlags d.flags)
  let newDBI ← orPanic (newDBI.setTransform transform)
  runRounds (mapRound V G f d.data) (d.data.length + 2) ⟨0, newDBI, vars⟩

end Map

/-- The function applied to one entry after the other. -/
def mapKvs (f : KVMapFunc σ ε) : σ → List Kv → Except ε (List Kv)
  | _, [] => .ok []
  | vars, kv :: kvs => do
      let r ← f vars kv
      let rest ← mapKvs f r.2 kvs
      .ok (r.1 :: rest)

/-- These are the entries that a reader of the `DBI` gets. -/
def DBI.Holds (V : Varint) (d : DBI) (kvs : List Kv) : Prop :=
  readAll V d.data = .ok ⟨kvs, none⟩

instance dbiHoldsDecidable (V : Varint) (d : DBI) (kvs : List Kv) : Decidable (d.Holds V kvs) :=
  inferInstanceAs (Decidable (readAll V d.data = .ok ⟨kvs, none⟩))

/-! ## A built DBI holds its entries -/

variable {V : Varint} [V.Lawful] {G : Growth} {f : KVMapFunc σ ε}

/-- If the message is not too long for an `int`, its entries are read back,
whether its fields have been flushed or not. -/
theorem Built.holds {d : DBI} {kvs : List Kv} (h : Built V d kvs) (hne : ∀ kv ∈ kvs, kv ≠ .empty)
    (hfit : (kvs.map fun kv => kv.key.length + kv.value.length + 53).sum + 604 < 2 ^ 63) :
    d.Holds V kvs := by
  obtain ⟨before, after, hkvs, hdata⟩ := h.data_eq
  obtain ⟨head, hhead, hname, htransform⟩ : ∃ head : DBI,
      (if d.dirty then [] else headItems d) = headItems head ∧ head.name.length ≤ 511 ∧
        head.transform.length ≤ 50 := by
    cases d.dirty with
    | true => exact ⟨.newDBI, rfl, by decide, by decide⟩
    | false => exact ⟨d, rfl, h.name_le, h.transform_le⟩
  rw [hhead] at hdata
  have hlen := congrArg List.length hdata
  rw [length_dbiItems, ← hkvs] at hlen
  have hentries := entries_length_le (V := V) kvs
  have hfields := length_headItems_le (V := V) hname htransform
  obtain ⟨-, hread⟩ := built_reads hdata (by omega) hname htransform (hkvs ▸ hne)
  rw [DBI.Holds, hread, hkvs]

/-! ## The loop of Map -/

/-- From where a reader gets the remaining entries, the loop maps them. -/
theorem mapRound_loop {data : Bytes} : ∀ {fuel : ℕ} {c : Cursor} {r : List Kv},
    runRounds (readRound V data) fuel c = .ok ⟨r, none⟩ →
    ∃ kvs, r = c.kvs ++ kvs ∧ ∀ {m : Mapping σ} {done : List Kv}, m.cur = c.cur →
      Built V m.newDBI done →
      (∃ kvs' d', mapKvs f m.vars kvs = .ok kvs' ∧
        runRounds (mapRound V G f data) fuel m = .ok d' ∧ Built V d' (done ++ kvs') ∧
        d'.head = m.newDBI.head) ∨
      ∃ e, mapKvs f m.vars kvs = .error e ∧
        runRounds (mapRound V G f data) fuel m = .error (.error (.map e)) := by
  intro fuel
  induction fuel with
  | zero =>
      intro c r h
      cases h
  | succ fuel ih =>
      intro c r h
      rcases runRounds_succ_eq_ok h with hr | ⟨c', hr, h⟩
      · -- The reader is at the end, and so is the loop.
        obtain ⟨hnext, rfl⟩ := readRound_done hr
        refine ⟨[], (List.append_nil _).symm, ?_⟩
        intro m done hcur hbuilt
        have hm : mapRound V G f data m = .ok (.inr m.newDBI) := by rw [mapRound, hcur, hnext]
        refine Or.inl ⟨[], m.newDBI, rfl, runRounds_done hm, ?_, rfl⟩
        rwa [List.append_nil]
      · obtain ⟨kv, hnext, hkv⟩ := readRound_next hr
        obtain ⟨kvs, hkvs, hloop⟩ := ih h
        refine ⟨kv :: kvs, by rw [hkvs, hkv, List.append_assoc]; rfl, ?_⟩
        intro m done hcur hbuilt
        cases hf : f m.vars kv with
        | error e =>
            have hm : mapRound V G f data m = .error (.error (.map e)) := by
              rw [mapRound, hcur, hnext]
              simp only [hf]
            refine Or.inr ⟨e, ?_, runRounds_error hm⟩
            rw [mapKvs, hf]
            rfl
        | ok q =>
            obtain ⟨newKV, vars⟩ := q
            obtain ⟨d₁, happ, hb₁, hhead₁⟩ := hbuilt.append (G := G) newKV
            have hm : mapRound V G f data m = .ok (.inl ⟨c'.cur, d₁, vars⟩) := by
              rw [mapRound, hcur, hnext]
              simp only [hf, happ, orPanic]
              rfl
            rw [runRounds_next hm]
            rcases hloop (m := ⟨c'.cur, d₁, vars⟩) rfl hb₁ with
              ⟨kvs', d', hk, hrun, hb', hhead'⟩ | ⟨e, hk, hrun⟩
            · refine Or.inl ⟨newKV :: kvs', d', ?_, hrun, ?_, hhead'.trans hhead₁⟩
              · rw [mapKvs, hf]
                simp only [bind, Except.bind, hk]
              · rwa [List.append_assoc] at hb'
            · refine Or.inr ⟨e, ?_, hrun⟩
              rw [mapKvs, hf]
              simp only [bind, Except.bind, hk]

/-- **`Map` maps the entries.** It fails where the function does, and otherwise
builds a `DBI` of the mapped entries. -/
theorem DBI.map_cases {d : DBI} {kvs : List Kv} {transform : Bytes} (vars : σ)
    (htransform : transform.length ≤ 50) (hname : d.name.length ≤ 511) (h : d.Holds V kvs) :
    (∃ kvs' d', mapKvs f vars kvs = .ok kvs' ∧ d.map V G f transform vars = .ok d' ∧
      Built V d' kvs' ∧ d'.head = ⟨d.name, d.flags, transform⟩) ∨
    ∃ e, mapKvs f vars kvs = .error e ∧ d.map V G f transform vars = .error (.error (.map e)) := by
  have hnew : Built V ⟨d.name, d.flags, transform, [], d.data.length, true, false⟩ [] :=
    (built_new d.data.length).set rfl d.flags hname htransform
  obtain ⟨kvs₁, rfl, hloop⟩ := mapRound_loop (G := G) (f := f) h
  exact hloop (m := ⟨0, _, vars⟩) rfl hnew

end LightningStream.Snapshot
