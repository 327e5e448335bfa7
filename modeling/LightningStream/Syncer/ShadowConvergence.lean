import LightningStream.Syncer.ShadowCopies

/-!
# Shadow instances converge

A run of several instances in shadow mode, each with one main DBI and its shadow. The
applications commit what they like. At startup and in `SendOnce` an instance copies its
main DBI to the shadow and stores a dump of it; `LoadOnce` copies if there was a local
change, merges any dump made earlier in the run, and copies back.

An instance carries the writes that its shadow is made of. A copy adds what it writes.
If it writes something older than what was there, the instance no longer goes by what it
knew of that key; that takes a clock that is behind, or the copy at startup, which is made
at time 1. Whatever the clocks, a shadow holds the best of the writes it is made of
(`Replica.Sound`), so instances with the same ones have the same shadow, and the same main
DBI as of their last loads.
-/

namespace LightningStream.Syncer.ShadowConvergence

open Lmdb Snapshot Strategy Header
open Convergence (Write Stamp NativeValue NativeDbi NativeMessage IsBest writesOf absWrites absDbi
  absDump entryOf entryIn rankOf)

/-! ## Runs -/

/-- An instance, with the writes that its shadow is made of, and whether its last
transaction but for copies was a load. -/
structure Replica where
  data : Shadowed
  writes : Set Write
  settled : Bool

/-- A stored dump, with the writes of its instance. -/
structure Dump where
  msg : Message Empty
  writes : Set Write

structure Net (ι : Type) where
  replica : ι → Replica
  dumps : Set Dump

/-- A copy has put something older in the place of what the shadow had. -/
def Lowered (d d' : Dbi) (k : Bytes) : Prop := rankOf (entryOf d' k) < rankOf (entryOf d k)

/-- The writes of a shadow after a copy. -/
def retaken (W : Set Write) (d d' : Dbi) : Set Write :=
  {w ∈ W | ¬ Lowered d d' w.key} ∪ writesOf d'

namespace Replica

variable (r : Replica)

def commit (main : Dbi) : Replica :=
  { r with data := ⟨main, r.data.shadow⟩, settled := false }

/-- A copy leaves the shadow `d`. -/
def copy (d : Dbi) : Replica :=
  { r with data := ⟨r.data.main, d⟩, writes := retaken r.writes r.data.shadow d }

/-- The first copy of `LoadOnce`, if there is one. -/
def copyIf (localChanged : Bool) (d : Dbi) : Replica := if localChanged then r.copy d else r

/-- A load leaves `data`, with the writes of the dump added. -/
def load (data : Shadowed) (W : Set Write) : Replica := ⟨data, r.writes ∪ W, true⟩

end Replica

variable {ι : Type} [DecidableEq ι] {o : ShadowOptions}

def Net.set (s : Net ι) (i : ι) (r : Replica) : Net ι :=
  { s with replica := Function.update s.replica i r }

/-- The steps of the applications and of the instances. The sweeper is disabled, so there
is no deletion cutoff. -/
inductive Step (o : ShadowOptions) (s : Net ι) : Net ι → Prop
  | commit (i : ι) {main : Dbi}
      (hp : Shadowed.Paired KeyFlags.plain ⟨main, (s.replica i).data.shadow⟩) :
      Step o s (s.set i ((s.replica i).commit main))
  /-- The copy at startup. -/
  | start (i : ι) {ts : Timestamp} {txnID : ℕ} {t : Txn}
      (hcopy : copyToShadow (η := Empty) o 0 ts txnID false (s.replica i).data = .ok t) :
      Step o s (s.set i ((s.replica i).copy t.dbi))
  | send (i : ι) {ts : Timestamp} {txnID : ℕ} {t : Txn} {msg : Message Empty}
      (hcopy : copyToShadow (η := Empty) o 0 ts txnID false (s.replica i).data = .ok t)
      (hdump : dumpShadowed (η := Empty) o (s.replica i).data.main t.dbi = .ok msg) :
      Step o s { s.set i ((s.replica i).copy t.dbi) with
        dumps := insert ⟨msg, ((s.replica i).copy t.dbi).writes⟩ s.dumps }
  | load (i : ι) {d : Dump} {localChanged : Bool} {ts : Timestamp} {txnID : ℕ} {t : Txn}
      {data : Shadowed} {dirty : Bool} (hd : d ∈ s.dumps)
      (hcopy : copyIfChanged (η := Empty) o localChanged 0 ts txnID false (s.replica i).data =
        .ok t)
      (hload : loadShadowed o localChanged 0 ts txnID false d.msg (s.replica i).data =
        .ok (data, dirty)) :
      Step o s (s.set i (((s.replica i).copyIf localChanged t.dbi).load data d.writes))

/-- A run starts from any DBIs whose shadows a run can have left; what these hold counts
as written. -/
structure Start (s : Net ι) : Prop where
  paired : ∀ i, (s.replica i).data.Paired KeyFlags.plain
  native : ∀ i k v, (s.replica i).data.shadow.get k = some v → NativeValue v
  writes : ∀ i, (s.replica i).writes = writesOf (s.replica i).data.shadow
  settled : ∀ i, (s.replica i).settled = false
  dumps : s.dumps = ∅

/-! ## What every transaction keeps -/

structure Replica.Sound (r : Replica) : Prop where
  paired : r.data.Paired KeyFlags.plain
  native : ∀ k v, r.data.shadow.get k = some v → NativeValue v
  /-- The shadow holds the latest of the writes it is made of. -/
  faithful : (absDbi r.data.shadow r.writes).Faithful
  settled : r.settled = true → ∀ k, r.data.main.get k = plainValue r.data.shadow k

/-- The only message of a dump. -/
def message (o : ShadowOptions) (kvs : List Kv) : Message Empty :=
  ⟨currentFormatVersion, writeCompatFormatVersion,
    [⟨o.dbiName, KeyFlags.plain.bits, transformNone, Reading.ofList kvs⟩]⟩

/-- A dump has the latest of its writes. -/
def Dump.Sound (o : ShadowOptions) (d : Dump) : Prop :=
  ∃ kvs, d.msg = message o kvs ∧ NativeMessage kvs ∧ (absDump ⟨kvs, d.writes⟩).Faithful

structure Net.Sound (o : ShadowOptions) (s : Net ι) : Prop where
  replicas : ∀ i, (s.replica i).Sound
  dumps : ∀ d ∈ s.dumps, d.Sound o

section Transactions

variable {r : Replica} {ts : Timestamp} {txnID : ℕ} {b : Bool} {t : Txn}

theorem Replica.Sound.nativeDbi (h : r.Sound) : NativeDbi r.data.shadow :=
  ⟨h.paired.shadowFlags, h.native⟩

theorem absWrites_union (W W' : Set Write) :
    absWrites (W ∪ W') = absWrites W ∪ absWrites W' := Set.image_union ..

/-- The writes to a key after a copy: those of before, unless it was lowered, and what the
shadow has now. -/
theorem writesTo_retaken (W : Set Write) (d d' : Dbi) (k : Bytes) :
    LastWriter.writesTo (absWrites (retaken W d d')) k =
      {a ∈ LastWriter.writesTo (absWrites W) k | ¬ Lowered d d' k} ∪
        LastWriter.writesTo (absWrites (writesOf d')) k := by
  rw [retaken, absWrites_union]
  ext a
  constructor
  · rintro (⟨w, ⟨hw, hlow⟩, heq⟩ | h)
    · obtain ⟨rfl, rfl⟩ := Prod.mk.inj heq
      exact Or.inl ⟨⟨w, hw, rfl⟩, hlow⟩
    · exact Or.inr h
  · rintro (⟨⟨w, hw, heq⟩, hlow⟩ | h)
    · obtain ⟨rfl, rfl⟩ := Prod.mk.inj heq
      exact Or.inl ⟨w, ⟨hw, hlow⟩, rfl⟩
    · exact Or.inr h

theorem faithful_retaken {W : Set Write} {d d' : Dbi} (h : (absDbi d W).Faithful)
    (hd' : NativeDbi d') : (absDbi d' (retaken W d d')).Faithful := by
  intro k
  have hnew := Convergence.latest_writesOf hd' k
  show LastWriter.Latest (LastWriter.writesTo (absWrites (retaken W d d')) k)
    (rankOf (entryOf d' k))
  rw [writesTo_retaken]
  by_cases hlow : Lowered d d' k
  · simpa [hlow] using hnew
  · have hle : rankOf (entryOf d k) ≤ rankOf (entryOf d' k) := not_lt.mp hlow
    have hunion := (h k).union hnew
    rw [show (absDbi d W).held k = rankOf (entryOf d k) from rfl, max_eq_right hle] at hunion
    have hall : {a ∈ LastWriter.writesTo (absWrites W) k | ¬ Lowered d d' k} =
        LastWriter.writesTo (absDbi d W).heard k := by simp [hlow, absDbi]
    rw [hall]
    exact hunion

/-- A main DBI that says what its shadow says still does after a copy. -/
theorem Outcome.plainValue_eq {main shadow sh : Dbi} {k : Bytes}
    (hnat : ∀ v, shadow.get k = some v → NativeValue v)
    (hmain : main.get k = plainValue shadow k)
    (hout : Outcome ts (main.get k) (shadow.get k) (sh.get k)) :
    main.get k = plainValue sh k := by
  cases hs : shadow.get k with
  | none =>
      have hnone : main.get k = none := by rw [hmain, plainValue, hs, Option.bind_none]
      rw [hnone, hs] at hout
      rw [hnone, plainValue, show sh.get k = none from hout, Option.bind_none]
  | some old =>
      obtain ⟨h, app, hp, -⟩ := hnat old hs
      rw [plainValue_of_parse hs hp] at hmain
      by_cases happ : app = []
      · rw [happ, present_nil] at hmain
        rw [hmain, hs] at hout
        rcases hout with ⟨-, hsame⟩ | ⟨-, raw, h', hraw, hp', -⟩
        · rw [hmain, plainValue_of_parse hsame hp, happ, present_nil]
        · rw [hmain, plainValue_of_parse hraw hp', present_nil]
      · rw [present_eq_some.mpr ⟨rfl, happ⟩] at hmain
        rw [hmain, hs] at hout
        -- the value is the same, so the entry stays
        have hret : Retained ts app old := ⟨h, app, hp, Or.inl rfl⟩
        rcases hout with ⟨-, hsame⟩ | ⟨hnot, -⟩
        · rw [hmain, plainValue_of_parse hsame hp, present_eq_some.mpr ⟨rfl, happ⟩]
        · exact absurd hret hnot

theorem Replica.Sound.outcome (h : r.Sound)
    (hcopy : copyToShadow (η := Empty) o 0 ts txnID b r.data = .ok t) (k : Bytes) :
    Outcome ts (r.data.main.get k) (r.data.shadow.get k) (t.dbi.get k) := by
  obtain ⟨-, hget, -⟩ := copyToShadow_ok h.paired hcopy
  rw [hget k]
  exact shadowedValue_outcome h.paired.headers k

/-- A copy at any time. -/
theorem Replica.Sound.copy (h : r.Sound)
    (hcopy : copyToShadow (η := Empty) o 0 ts txnID b r.data = .ok t) : (r.copy t.dbi).Sound := by
  obtain ⟨hp, -, -⟩ := copyToShadow_ok h.paired hcopy
  have hout := h.outcome hcopy
  have hnat : ∀ k v, t.dbi.get k = some v → NativeValue v := fun k v hv =>
    (hout k).native (h.native k) hv
  refine ⟨hp, hnat, faithful_retaken h.faithful ⟨hp.shadowFlags, hnat⟩, fun hset k => ?_⟩
  exact Outcome.plainValue_eq (h.native k) (h.settled hset k) (hout k)

theorem Replica.Sound.copyIf (h : r.Sound) {localChanged : Bool}
    (hcopy : copyIfChanged (η := Empty) o localChanged 0 ts txnID b r.data = .ok t) :
    (r.copyIf localChanged t.dbi).Sound ∧
      (r.copyIf localChanged t.dbi).data = ⟨r.data.main, t.dbi⟩ := by
  unfold copyIfChanged at hcopy
  cases localChanged with
  | true => exact ⟨h.copy hcopy, rfl⟩
  | false =>
      obtain rfl := Except.ok.inj hcopy
      exact ⟨h, rfl⟩

/-- A message of a dump, merged in a transaction that may have written before. -/
theorem applyMessage_max {padding : Bool} {id : TxnID} {kvs : List Kv} (hd : NativeDbi t.dbi)
    (hm : NativeMessage kvs) (hid : id ≠ 0) :
    ∃ t', applyMessage padding 0 currentFormatVersion writeCompatFormatVersion id
        (Reading.ofList (η := Empty) kvs) t = .ok t' ∧ NativeDbi t'.dbi ∧
      ∀ k, rankOf (entryOf t'.dbi k) =
        max (rankOf (entryOf t.dbi k)) (rankOf (entryIn kvs k)) := by
  obtain ⟨q, hload, hnat, hmax⟩ := @Convergence.load_max padding id t.dbi kvs hd hm hid
  have hstart : update (Txn.start t.dbi) ((loadIterator padding 0 currentFormatVersion
      id).iterator (Reading.ofList (η := Empty) kvs)) = .ok q := applyMessage_ok hload
  obtain ⟨t', hup, hdbi⟩ := update_dbi (show (Txn.start t.dbi).dbi = t.dbi from rfl) hstart
  rw [hdbi] at hnat
  simp only [hdbi] at hmax
  refine ⟨t', ?_, hnat, hmax⟩
  rw [applyMessage_eq _ _ (by decide) (by decide) hid]
  exact mapError_eq_ok.mpr hup

theorem validateTransform_plain {d : DbiMsg Empty} (hflags : d.flags = KeyFlags.plain.bits)
    (htransform : d.transform = transformNone) (nativeSchema : Bool) :
    d.validateTransform currentFormatVersion nativeSchema = .ok () := by
  have hdup : ¬ KeyFlags.plain.bits &&& dupSort > 0 := by decide
  have hhack : transformNone ≠ transformDupSortHackV1 := by decide
  unfold DbiMsg.validateTransform
  simp only [hflags, htransform, hdup, hhack, transformSupported, decide_true, Bool.true_or,
    Bool.not_true, Bool.false_eq_true, if_false, ne_eq, not_true_eq_false, and_false, false_and]

/-- **The merge of a dump takes the maximum at every key.** -/
theorem merge_message {kvs : List Kv} (hd : NativeDbi t.dbi) (hm : NativeMessage kvs)
    (htxn : UInt64.ofNat txnID ≠ 0) :
    ∃ t', (message o kvs).databases.foldlM (mergeShadow o 0 (message o kvs).formatVersion
        (message o kvs).compatVersion txnID) t = .ok t' ∧ NativeDbi t'.dbi ∧
      ∀ k, rankOf (entryOf t'.dbi k) =
        max (rankOf (entryOf t.dbi k)) (rankOf (entryIn kvs k)) := by
  obtain ⟨t', happly, hmax⟩ := @applyMessage_max t o.headerExtraPaddingBlock _ kvs hd hm htxn
  refine ⟨t', ?_, hmax⟩
  show List.foldlM (mergeShadow o 0 currentFormatVersion writeCompatFormatVersion txnID) t [_] = _
  rw [List.foldlM_cons, mergeShadow, if_pos rfl, validateTransform_plain rfl rfl]
  simp only [Except.mapError, bind, Except.bind, happly]
  rfl

theorem applyMessage_txnID {padding : Bool} {cutoff : Timestamp} {fv cv : UInt32} {id : TxnID}
    {msg : Reading Empty} {t t' : Txn}
    (h : applyMessage padding cutoff fv cv id msg t = .ok t') : id ≠ 0 := by
  rintro rfl
  unfold applyMessage newNativeIterator at h
  obtain ⟨it, hit, -⟩ := bind_eq_ok.mp h
  have hit := mapError_eq_ok.mp hit
  split_ifs at hit
  rename_i hzero
  exact hzero rfl

/-- **A load of a dump** brings the shadow to the maximum with it, and makes the main DBI
what the shadow says. -/
theorem loadShadowed_spec (h : r.Sound) {localChanged : Bool}
    (hcopy : copyIfChanged (η := Empty) o localChanged 0 ts txnID false r.data = .ok t)
    {kvs : List Kv} (hm : NativeMessage kvs) (htxn : UInt64.ofNat txnID ≠ 0) :
    ∃ data dirty, loadShadowed o localChanged 0 ts txnID false (message o kvs) r.data =
        .ok (data, dirty) ∧
      data.Paired KeyFlags.plain ∧ NativeDbi data.shadow ∧
      (∀ k, rankOf (entryOf data.shadow k) =
        max (rankOf (entryOf t.dbi k)) (rankOf (entryIn kvs k))) ∧
      ∀ k, data.main.get k = plainValue data.shadow k := by
  obtain ⟨hsound, hdata⟩ := h.copyIf hcopy
  have hnat := hsound.nativeDbi
  rw [hdata] at hnat
  obtain ⟨t₂, hmerge, hnat₂, hmax⟩ := merge_message (o := o) hnat hm htxn
  have hvalid := headersValid_of_native hnat₂.values
  have hmain := h.paired.mainFlags
  obtain ⟨t₃, hback, hflags, hget⟩ : ∃ t₃, shadowToMain o.shadowName t₂.dbi
      ⟨r.data.main, t₂.dirty⟩ = .ok t₃ ∧ t₃.dbi.flags = r.data.main.flags ∧
      ∀ k, t₃.dbi.get k = plainValue t₂.dbi k :=
    shadowToMain_spec (plainPair r.data.main t₂.dbi hmain hnat₂.flags) hvalid
      (fun k hk => by
        have hless := nil_less_plain hnat₂.flags k hk
        rw [hnat₂.flags] at hless
        rwa [show (plainPair r.data.main t₂.dbi hmain hnat₂.flags).main.flags = KeyFlags.plain
          from hmain])
      (keys_less (inOrder_plain hmain)) (Or.inl (inOrder_plain hmain)) t₂.dirty
  have hpaired : Shadowed.Paired KeyFlags.plain ⟨t₃.dbi, t₂.dbi⟩ :=
    ⟨hflags.trans hmain, hnat₂.flags, (plainPair t₃.dbi t₂.dbi (hflags.trans hmain)
      hnat₂.flags).sizes, fun k v hv => plainValue_ne_nil ((hget k).symm.trans hv), hvalid⟩
  refine ⟨⟨t₃.dbi, t₂.dbi⟩, t₃.dirty, ?_, hpaired, hnat₂, hmax, hget⟩
  unfold loadShadowed
  rw [hcopy]
  simp only [bind, Except.bind, hmerge, hback, Except.mapError]

/-- A load that succeeded. -/
theorem Replica.Sound.load (h : r.Sound) {d : Dump} (hd : d.Sound o) {localChanged : Bool}
    (hcopy : copyIfChanged (η := Empty) o localChanged 0 ts txnID false r.data = .ok t)
    {data : Shadowed} {dirty : Bool}
    (hload : loadShadowed o localChanged 0 ts txnID false d.msg r.data = .ok (data, dirty)) :
    ((r.copyIf localChanged t.dbi).load data d.writes).Sound := by
  obtain ⟨kvs, hmsg, hm, hfaithful⟩ := hd
  rw [hmsg] at hload
  have htxn : UInt64.ofNat txnID ≠ 0 := by
    unfold loadShadowed at hload
    obtain ⟨t₁, -, hload⟩ := bind_eq_ok.mp hload
    obtain ⟨t₂, hmerge, -⟩ := bind_eq_ok.mp hload
    change List.foldlM (mergeShadow o 0 _ _ txnID) t₁ [_] = _ at hmerge
    rw [List.foldlM_cons, mergeShadow, if_pos rfl] at hmerge
    obtain ⟨q, hq, -⟩ := bind_eq_ok.mp hmerge
    obtain ⟨-, -, hq⟩ := bind_eq_ok.mp hq
    exact applyMessage_txnID (mapError_eq_ok.mp hq)
  obtain ⟨data', dirty', hload', hp, hnat, hmax, hmain⟩ := loadShadowed_spec h hcopy hm htxn
  obtain ⟨rfl, rfl⟩ := Prod.mk.inj (Except.ok.inj (hload.symm.trans hload'))
  obtain ⟨hsound, hdata⟩ := h.copyIf hcopy
  have hjoin : absDbi data.shadow ((r.copyIf localChanged t.dbi).writes ∪ d.writes) =
      (absDbi t.dbi (r.copyIf localChanged t.dbi).writes).join (absDump ⟨kvs, d.writes⟩) := by
    unfold absDbi LastWriter.Copy.join
    congr 1
    · funext k
      exact hmax k
    · exact absWrites_union _ _
  refine ⟨hp, hnat.values, ?_, fun _ => hmain⟩
  show (absDbi data.shadow _).Faithful
  rw [show ((r.copyIf localChanged t.dbi).load data d.writes).writes =
    (r.copyIf localChanged t.dbi).writes ∪ d.writes from rfl, hjoin]
  have hbefore := hsound.faithful
  rw [hdata] at hbefore
  exact hbefore.join hfaithful

/-- A dump has what the shadow has. -/
theorem dump_sound (h : r.Sound) {msg : Message Empty}
    (hdump : dumpShadowed (η := Empty) o r.data.main r.data.shadow = .ok msg) :
    Dump.Sound o ⟨msg, r.writes⟩ := by
  unfold dumpShadowed at hdump
  obtain ⟨kvs, hread, hdump⟩ := bind_eq_ok.mp hdump
  obtain ⟨hm, hentries⟩ := Convergence.dump_native h.nativeDbi (mapError_eq_ok.mp hread)
  refine ⟨kvs, ?_, hm, ?_⟩
  · rw [← Except.ok.inj hdump, h.paired.mainFlags]
    rfl
  · have habs : absDump ⟨kvs, r.writes⟩ = absDbi r.data.shadow r.writes := by
      unfold absDump absDbi
      simp only [hentries]
    rw [habs]
    exact h.faithful

end Transactions

/-! ## Convergence -/

theorem Net.Sound.set {s : Net ι} (h : s.Sound o) (i : ι) {r : Replica} (hr : r.Sound) :
    (s.set i r).Sound o := by
  refine ⟨fun j => ?_, h.dumps⟩
  show (Function.update s.replica i r j).Sound
  by_cases hj : j = i
  · rw [hj, Function.update_self]
    exact hr
  · rw [Function.update_of_ne hj]
    exact h.replicas j

theorem Step.sound {s s' : Net ι} (hstep : Step o s s') (h : s.Sound o) : s'.Sound o := by
  cases hstep with
  | commit i hp =>
      have hi := h.replicas i
      exact h.set i ⟨hp, hi.native, hi.faithful, nofun⟩
  | start i hcopy => exact h.set i ((h.replicas i).copy hcopy)
  | send i hcopy hdump =>
      have hi := (h.replicas i).copy hcopy
      refine ⟨(h.set i hi).replicas, ?_⟩
      rintro d (rfl | hd)
      · exact dump_sound hi hdump
      · exact h.dumps d hd
  | load i hd hcopy hload => exact h.set i ((h.replicas i).load (h.dumps _ hd) hcopy hload)

omit [DecidableEq ι] in
theorem Start.sound {s : Net ι} (h : Start s) : s.Sound o := by
  refine ⟨fun i => ⟨h.paired i, h.native i, fun k => ?_, fun hset => ?_⟩, ?_⟩
  · show LastWriter.Latest (LastWriter.writesTo (absWrites (s.replica i).writes) k) _
    rw [h.writes i]
    exact Convergence.latest_writesOf ⟨(h.paired i).shadowFlags, h.native i⟩ k
  · rw [h.settled i] at hset
    cases hset
  · rw [h.dumps]
    simp

theorem run_sound {s s' : Net ι} (hs : Start s) (hr : Relation.ReflTransGen (Step o) s s') :
    s'.Sound o := by
  induction hr with
  | refl => exact hs.sound
  | tail _ hstep ih => exact hstep.sound ih

open ShadowLoop (options copied)

def emptyReplica : Replica :=
  ⟨⟨Dbi.empty KeyFlags.plain, Dbi.empty KeyFlags.plain⟩, writesOf (Dbi.empty KeyFlags.plain), false⟩

def blank : Net Bool := ⟨fun _ => emptyReplica, ∅⟩

theorem empty_paired (main : Dbi) (hm : main.flags = KeyFlags.plain)
    (hv : ∀ k v, main.get k = some v → v ≠ []) :
    Shadowed.Paired KeyFlags.plain ⟨main, Dbi.empty KeyFlags.plain⟩ :=
  ⟨hm, rfl, (plainPair main (Dbi.empty KeyFlags.plain) hm rfl).sizes, hv, nofun⟩

theorem blank_start : Start blank :=
  ⟨fun _ => empty_paired _ rfl nofun, fun _ => nofun, fun _ => rfl, fun _ => rfl, rfl⟩

/-- The dump of a shadow with one entry. -/
def oneEntry : Message Empty := message options [⟨[1], [7], 1, 0⟩]

end LightningStream.Syncer.ShadowConvergence
