import LightningStream.Base.Cells
import LightningStream.Syncer.Fidelity
import LightningStream.Syncer.Instances.Settled
import LightningStream.Syncer.ShadowConvergence

/-!
# Stored data survives

Instances in native mode that share a storage, with the sweeper disabled. An environment
holds, at every key of every DBI but the private ones, an entry with its timestamp. The
applications may do what they like as long as no entry falls behind.

A load takes the maximum at every key, of all the DBIs of the snapshot (`loadOnce_max`),
and a snapshot has what the environment holds (`dump_entries`). So the storage is an
archive, and all that was ever stored can be read back from it: the newest snapshots of the
instances have it (`stored_data_survives`), and whoever loads these, in any order and on
top of anything, has it as well (`restore_complete`).
-/

namespace LightningStream.Syncer.Durability

open Lmdb Snapshot Strategy Header Loop Instances
open Convergence (Stamp NativeValue NativeDbi NativeMessage entryOf entryIn rankOf stamp)
open Fidelity (loadOptions)

/-! ## Entries of an environment and of a snapshot -/

/-- The entry at a key of a DBI that the instances exchange. -/
def entryAt (c : Contents) (n k : Bytes) : Option (Timestamp × Bytes) :=
  if isPrivate n then none else (c.get n).bind fun d => entryOf d k

/-- The entry that a snapshot has there. -/
def entryOfMessage (msg : Message Empty) (n k : Bytes) : Option (Timestamp × Bytes) :=
  (msg.databases.find? fun d => decide (d.name = n)).bind fun d => entryIn d.reading.kvs k

/-- The DBIs that the instances exchange are as the native schema demands. -/
def NativeEnv (c : Contents) : Prop :=
  ∀ n d, isPrivate n = false → c.get n = some d → NativeDbi d

/-- What an application may do: no entry gets lost or falls behind. -/
structure Rises (c c' : Contents) : Prop where
  native : NativeEnv c'
  entries : ∀ n k, rankOf (entryAt c n k) ≤ rankOf (entryAt c' n k)

/-- One DBI of a snapshot of such an environment. -/
structure SentDbi (d : DbiMsg Empty) : Prop where
  exchanged : isPrivate d.name = false
  name : 1 ≤ d.name.length ∧ d.name.length ≤ maxKeySize
  flags : d.flags = KeyFlags.plain.bits
  transform : d.transform = transformNone
  reading : ∃ kvs, d.reading = Reading.ofList kvs ∧ NativeMessage kvs

structure Sent (msg : Message Empty) : Prop where
  formatVersion : msg.formatVersion = currentFormatVersion
  compatVersion : msg.compatVersion = writeCompatFormatVersion
  nodup : (msg.databases.map DbiMsg.name).Nodup
  dbis : ∀ d ∈ msg.databases, SentDbi d

/-! ## Loading a snapshot -/

section Load

variable (padding : Bool) {txnID : TxnID} {t t' : EnvTxn} {d : DbiMsg Empty} {c : Contents}
  {msg : Message Empty}

/-- A DBI with the entries of the target, if there is one. -/
def Continues (o o' : Option Dbi) : Prop :=
  ∃ dbi, o' = some dbi ∧ NativeDbi dbi ∧ ∀ k, entryOf dbi k = o.bind fun d => entryOf d k

theorem createTarget_continues (hd : SentDbi d)
    (hnative : ∀ dbi, t.contents.get d.name = some dbi → NativeDbi dbi) :
    ∃ t', createTarget (loadOptions padding) t d = .ok t' ∧
      Continues (t.contents.get d.name) (t'.contents.get d.name) ∧
      ∀ n, n ≠ d.name → t'.contents.get n = t.contents.get n := by
  unfold createTarget
  cases hget : t.contents.get d.name with
  | some dbi =>
      exact ⟨t, by simp, ⟨dbi, hget, hnative dbi hget, fun _ => rfl⟩, fun _ _ => rfl⟩
  | none =>
      obtain ⟨t', hcreate, hget'⟩ := EnvTxn.create_spec (t := t) KeyFlags.plain hd.name
      have hbits : KeyFlags.ofBits KeyFlags.plain.bits = KeyFlags.plain := by decide
      refine ⟨t', ?_, ⟨Dbi.empty KeyFlags.plain, by rw [hget', if_pos rfl], ⟨rfl, ?_⟩, ?_⟩, ?_⟩
      · simp only [Option.isSome_none, Bool.false_eq_true, if_false, loadOptions, Option.getD_none,
          hd.flags, hbits, if_true, hcreate]
        rfl
      · intro k v hv
        cases hv
      · exact fun _ => rfl
      · intro n hn
        rw [hget', if_neg hn]

/-- What a round of `LoadOnce` makes of a DBI. -/
def Merged (d : DbiMsg Empty) (o o' : Option Dbi) : Prop :=
  ∃ dbi, o' = some dbi ∧ NativeDbi dbi ∧ ∀ k, rankOf (entryOf dbi k) =
    max (rankOf (o.bind fun d => entryOf d k)) (rankOf (entryIn d.reading.kvs k))

/-- One round of `LoadOnce` takes the maximum. -/
theorem loadDbi_max (hd : SentDbi d)
    (hnative : ∀ dbi, t.contents.get d.name = some dbi → NativeDbi dbi) (htxn : txnID ≠ 0) :
    ∃ t', loadDbi (loadOptions padding) 0 currentFormatVersion writeCompatFormatVersion txnID t
        d = .ok t' ∧ Merged d (t.contents.get d.name) (t'.contents.get d.name) ∧
      ∀ n, n ≠ d.name → t'.contents.get n = t.contents.get n := by
  obtain ⟨t₁, htarget, ⟨dbi₁, hget₁, hnat₁, hsame⟩, hother⟩ :=
    createTarget_continues padding hd hnative
  obtain ⟨kvs, hreading, hmsg⟩ := hd.reading
  obtain ⟨r, happly, hnat, hmax⟩ := @ShadowConvergence.applyMessage_max ⟨dbi₁, t₁.dirty⟩ padding
    txnID kvs hnat₁ hmsg htxn
  obtain ⟨t', hon, -, hget'⟩ := @EnvTxn.onDbi_spec _ t₁ d.name dbi₁
    (fun r => (applyMessage padding 0 currentFormatVersion writeCompatFormatVersion txnID
      d.reading r).mapError LoadErr.apply) LoadErr.notFound r hget₁ (by
        rw [hreading]
        exact mapError_eq_ok.mpr happly)
  refine ⟨t', ?_, ⟨r.dbi, by rw [hget', if_pos rfl], hnat, fun k => ?_⟩, fun n hn => ?_⟩
  · unfold loadDbi
    rw [hd.exchanged, ShadowConvergence.validateTransform_plain hd.flags hd.transform]
    simp only [Bool.false_eq_true, if_false, Except.mapError, bind, Except.bind, htarget]
    exact hon
  · rw [hmax k, hsame k, hreading]
    rfl
  · rw [hget', if_neg hn, hother n hn]

/-- The name of a DBI picks its message. -/
theorem Sent.find (h : Sent msg) (hd : d ∈ msg.databases) :
    msg.databases.find? (fun x => decide (x.name = d.name)) = some d := by
  cases hf : msg.databases.find? (fun x => decide (x.name = d.name)) with
  | none => simpa using List.find?_eq_none.mp hf d hd
  | some x =>
      have hname : x.name = d.name := by simpa using List.find?_some hf
      exact congrArg some
        (List.inj_on_of_nodup_map h.nodup (List.mem_of_find?_eq_some hf) hd hname)

/-- **`LoadOnce` takes the maximum at every key.** -/
theorem loadOnce_max (hc : NativeEnv c) (hmsg : Sent msg) (htxn : txnID ≠ 0) :
    ∃ t, loadOnce (loadOptions padding) 0 txnID msg c = .ok t ∧ NativeEnv t.contents ∧
      ∀ n k, rankOf (entryAt t.contents n k) =
        max (rankOf (entryAt c n k)) (rankOf (entryOfMessage msg n k)) := by
  obtain ⟨t, hload, hdone, hother⟩ : ∃ t, msg.databases.foldlM (loadDbi (loadOptions padding) 0
        currentFormatVersion writeCompatFormatVersion txnID) (EnvTxn.start c) = .ok t ∧
      Done (fun s n => s.contents.get n) DbiMsg.name (fun d o => Merged d (c.get d.name) o)
        msg.databases (EnvTxn.start c) t := by
    refine foldlM_cells _ _ _ hmsg.nodup fun d hd s hs => ?_
    have hsame : s.contents.get d.name = c.get d.name := hs.own
    have hdbi := hmsg.dbis d hd
    obtain ⟨s', hok, hmerged, hrest⟩ := loadDbi_max padding hdbi (fun dbi hget =>
      hc d.name dbi hdbi.exchanged (hsame.symm.trans hget)) htxn
    exact ⟨s', hok, by rw [← hsame]; exact hmerged, hrest⟩
  refine ⟨t, ?_, fun n dbi hpriv hget => ?_, fun n k => ?_⟩
  · rw [loadOnce, hmsg.formatVersion, hmsg.compatVersion]
    exact hload
  · by_cases hn : n ∈ msg.databases.map DbiMsg.name
    · obtain ⟨d, hd, rfl⟩ := List.mem_map.mp hn
      obtain ⟨dbi', hget', hnat, -⟩ := hdone d hd
      exact Option.some.inj (hget'.symm.trans hget) ▸ hnat
    · rw [show t.contents.get n = c.get n from hother n hn] at hget
      exact hc n dbi hpriv hget
  · unfold entryAt entryOfMessage
    by_cases hn : n ∈ msg.databases.map DbiMsg.name
    · obtain ⟨d, hd, rfl⟩ := List.mem_map.mp hn
      obtain ⟨dbi, hget, -, hmax⟩ := hdone d hd
      rw [(hmsg.dbis d hd).exchanged, if_neg Bool.false_ne_true, if_neg Bool.false_ne_true,
        show t.contents.get d.name = some dbi from hget, hmsg.find hd]
      exact hmax k
    · have hnone : msg.databases.find? (fun d => decide (d.name = n)) = none := by
        rw [List.find?_eq_none]
        intro d hd heq
        exact hn (List.mem_map.mpr ⟨d, hd, by simpa using heq⟩)
      rw [hnone, show t.contents.get n = c.get n from hother n hn]
      exact (max_eq_left bot_le).symm

theorem loadDbi_txnID (hd : SentDbi d) (h : loadDbi (loadOptions padding) 0 currentFormatVersion
    writeCompatFormatVersion txnID t d = .ok t') : txnID ≠ 0 := by
  unfold loadDbi at h
  rw [hd.exchanged, if_neg Bool.false_ne_true] at h
  obtain ⟨-, -, h⟩ := bind_eq_ok.mp h
  obtain ⟨t₁, -, h⟩ := bind_eq_ok.mp h
  obtain ⟨dbi, r, -, happly, -⟩ := EnvTxn.onDbi_eq_ok h
  exact ShadowConvergence.applyMessage_txnID (mapError_eq_ok.mp happly)

/-- A load that succeeded. -/
theorem loadOnce_ok (hc : NativeEnv c) (hmsg : Sent msg)
    (h : loadOnce (loadOptions padding) 0 txnID msg c = .ok t) : NativeEnv t.contents ∧
      ∀ n k, rankOf (entryAt t.contents n k) =
        max (rankOf (entryAt c n k)) (rankOf (entryOfMessage msg n k)) := by
  by_cases htxn : txnID = 0
  · -- then there was nothing to merge
    unfold loadOnce at h
    cases hdbs : msg.databases with
    | nil =>
        rw [hdbs] at h
        obtain rfl := Except.ok.inj h
        refine ⟨hc, fun n k => ?_⟩
        rw [entryOfMessage, hdbs]
        exact (max_eq_left bot_le).symm
    | cons d ds =>
        rw [hdbs, List.foldlM_cons, hmsg.formatVersion, hmsg.compatVersion] at h
        obtain ⟨t₁, hone, -⟩ := bind_eq_ok.mp h
        have hd : d ∈ msg.databases := by
          rw [hdbs]
          exact List.mem_cons_self
        exact absurd htxn (loadDbi_txnID padding (hmsg.dbis d hd) hone)
  · obtain ⟨t', hok, hspec⟩ := loadOnce_max padding hc hmsg htxn
    obtain rfl := Except.ok.inj (hok.symm.trans h)
    exact hspec

/-- Either nothing was written, or the transaction knows. -/
def EnvMarked (t t' : EnvTxn) : Prop := t' = t ∨ t'.dirty = true

theorem EnvMarked.refl (t : EnvTxn) : EnvMarked t t := Or.inl rfl

theorem EnvMarked.trans {t₁ t₂ t₃ : EnvTxn} (h : EnvMarked t₁ t₂) (h' : EnvMarked t₂ t₃) :
    EnvMarked t₁ t₃ := by
  rcases h' with rfl | hdirty
  · exact h
  · exact Or.inr hdirty

theorem createTarget_marked {o : LoadOptions} (h : createTarget o t d = .ok t') :
    EnvMarked t t' := by
  unfold createTarget at h
  split at h
  · exact Or.inl (Except.ok.inj h).symm
  · simp only at h
    split at h
    · have h := mapError_eq_ok.mp h
      unfold EnvTxn.create at h
      split at h
      · rw [← Except.ok.inj h]
        exact Or.inr rfl
      · cases h
    · cases h

theorem onDbi_marked {ε : Type} {n : Bytes} {f : Txn → Except ε Txn} {missing : ε}
    (hf : ∀ {a b}, f a = .ok b → Marked a b) (h : t.onDbi n f missing = .ok t') :
    EnvMarked t t' := by
  obtain ⟨dbi, r, hget, hr, hdirty, hget'⟩ := EnvTxn.onDbi_eq_ok h
  rcases hf hr with rfl | hmark
  · left
    have hcontents : t'.contents = t.contents := by
      apply Contents.ext
      apply SortedMap.ext_get
      intro m
      show t'.contents.get m = t.contents.get m
      rw [hget']
      split
      · rename_i hm
        rw [hm, hget]
      · rfl
    obtain ⟨c₁, b₁⟩ := t
    obtain ⟨c₂, b₂⟩ := t'
    obtain rfl : c₂ = c₁ := hcontents
    obtain rfl : b₂ = b₁ := hdirty
    rfl
  · exact Or.inr (hdirty.trans hmark)

theorem loadDbi_marked {o : LoadOptions} {cutoff : Timestamp} {fv cv : UInt32}
    (h : loadDbi o cutoff fv cv txnID t d = .ok t') : EnvMarked t t' := by
  unfold loadDbi at h
  split at h
  · exact Or.inl (Except.ok.inj h).symm
  · obtain ⟨-, -, h⟩ := bind_eq_ok.mp h
    obtain ⟨t₁, htarget, h⟩ := bind_eq_ok.mp h
    have hon := onDbi_marked (fun hr => update_marked (applyMessage_ok (mapError_eq_ok.mp hr))) h
    exact (createTarget_marked htarget).trans hon

/-- A load that did not write has changed nothing. -/
theorem loadOnce_clean {o : LoadOptions} {cutoff : Timestamp}
    (h : loadOnce o cutoff txnID msg c = .ok t) (hclean : t.dirty = false) : t.contents = c := by
  unfold loadOnce at h
  have hmarked : EnvMarked (EnvTxn.start c) t :=
    foldlM_rel EnvMarked.refl EnvMarked.trans loadDbi_marked h
  rcases hmarked with rfl | hdirty
  · rfl
  · rw [hclean] at hdirty
    cases hdirty

end Load

/-! ## Sending a snapshot -/

section Send

variable {c : Contents} {msg : Message Empty}

/-- The message that `SendOnce` dumps for a DBI. -/
def sent (e : Bytes × Dbi) : DbiMsg Empty :=
  ⟨e.1, e.2.flags.bits, transformNone, Reading.ofList (e.2.entries.map headerKv)⟩

/-- The DBIs that are sent. -/
def exchanged (c : Contents) : List (Bytes × Dbi) := c.map.entries.filter fun e => !isPrivate e.1

/-- The whole message. -/
def sentMessage (c : Contents) : Message Empty :=
  ⟨currentFormatVersion, writeCompatFormatVersion, (exchanged c).map sent⟩

theorem mem_exchanged {e : Bytes × Dbi} :
    e ∈ exchanged c ↔ c.get e.1 = some e.2 ∧ isPrivate e.1 = false := by
  rw [exchanged, List.mem_filter, Bool.not_eq_true']
  exact and_congr_left fun _ => SortedMap.mem_entries_iff

theorem NativeEnv.of_mem (hc : NativeEnv c) {e : Bytes × Dbi} (he : e ∈ exchanged c) :
    NativeDbi e.2 :=
  hc e.1 e.2 (mem_exchanged.mp he).2 (mem_exchanged.mp he).1

theorem dump_exchanged (hc : NativeEnv c) : dump c = .ok (sentMessage c) := by
  have hall : (exchanged c).mapM dumpDbi = .ok ((exchanged c).map sent) := by
    apply mapM_eq_ok_map
    intro e he
    rw [dumpDbi, readDBI_headers e.1 (headersValid_of_native (hc.of_mem he).values)]
    rfl
  rw [dump, ← exchanged, hall]
  rfl

theorem sentDbi_of_native {e : Bytes × Dbi} (hpriv : isPrivate e.1 = false)
    (hname : 1 ≤ e.1.length ∧ e.1.length ≤ maxKeySize) (he : NativeDbi e.2) :
    SentDbi (sent e) ∧ ∀ k, entryIn (sent e).reading.kvs k = entryOf e.2 k := by
  obtain ⟨hkvs, hentries⟩ := Convergence.dump_native he
    (readDBI_headers e.1 (headersValid_of_native he.values))
  exact ⟨⟨hpriv, hname, by rw [← he.flags]; rfl, rfl, _, rfl, hkvs⟩, hentries⟩

/-- **A snapshot has what the environment holds.** -/
theorem dump_entries (hc : NativeEnv c) (h : dump c = .ok msg) :
    Sent msg ∧ ∀ n k, entryOfMessage msg n k = entryAt c n k := by
  rw [dump_exchanged hc] at h
  obtain rfl := Except.ok.inj h
  have hnames : ((exchanged c).map sent).map DbiMsg.name = (exchanged c).map Prod.fst := by
    rw [List.map_map]
    rfl
  have hone : ∀ e ∈ exchanged c,
      SentDbi (sent e) ∧ ∀ k, entryIn (sent e).reading.kvs k = entryOf e.2 k := fun e he =>
    sentDbi_of_native (mem_exchanged.mp he).2 (Contents.named_of_get (mem_exchanged.mp he).1)
      (hc.of_mem he)
  have hsent : Sent (sentMessage c) := by
    refine ⟨rfl, rfl, ?_, fun d hd => ?_⟩
    · rw [sentMessage, hnames]
      exact (c.map.keys_sorted.imp fun hlt => hlt.ne).sublist (List.filter_sublist.map _)
    · obtain ⟨e, he, rfl⟩ := List.mem_map.mp hd
      exact (hone e he).1
  refine ⟨hsent, fun n k => ?_⟩
  by_cases hn : ∃ dbi, (n, dbi) ∈ exchanged c
  · obtain ⟨dbi, he⟩ := hn
    obtain ⟨hget, hpriv⟩ := mem_exchanged.mp he
    have hfind := hsent.find (List.mem_map_of_mem he)
    rw [entryOfMessage, show (sent (n, dbi)).name = n from rfl] at *
    rw [hfind, entryAt, hpriv, if_neg Bool.false_ne_true, hget]
    exact (hone _ he).2 k
  · have hnone : ((exchanged c).map sent).find? (fun d => decide (d.name = n)) = none := by
      rw [List.find?_eq_none]
      intro d hd heq
      obtain ⟨e, he, rfl⟩ := List.mem_map.mp hd
      obtain rfl : e.1 = n := of_decide_eq_true heq
      exact hn ⟨e.2, he⟩
    rw [entryOfMessage, sentMessage, hnone, entryAt]
    cases hpriv : isPrivate n with
    | true => rfl
    | false =>
        cases hget : c.get n with
        | none => rfl
        | some dbi => exact absurd ⟨dbi, mem_exchanged.mpr ⟨hget, hpriv⟩⟩ hn

end Send

/-! ## The instances -/

/-- `LoadOnce` and `SendOnce` in native mode while the sweeper is disabled, for applications
that let no entry fall behind. -/
def unswept (padding : Bool) : Mode Contents (Message Empty) (Message Empty) :=
  { NativeLoop.native (η := Empty) (loadOptions padding) with
    app := Rises
    loadTxn := fun localChanged t =>
      (NativeLoop.native (loadOptions padding)).loadTxn localChanged { t with deletedCutoff := 0 } }

theorem unswept_loadTxn {padding localChanged : Bool} {t : Moment} {txnID : ℕ}
    {msg : Message Empty} {c c' : Contents} {dirty : Bool}
    (h : (unswept padding).loadTxn localChanged t txnID msg c = some (c', dirty)) :
    loadOnce (loadOptions padding) 0 (UInt64.ofNat txnID) msg c = .ok ⟨c', dirty⟩ := by
  unfold unswept NativeLoop.native at h
  cases hload : loadOnce (loadOptions padding) 0 (UInt64.ofNat txnID) msg c with
  | error e => simp [hload] at h
  | ok r =>
      simp only [hload, Option.some.injEq, Prod.mk.injEq] at h
      obtain ⟨rfl, rfl⟩ := h
      rfl

variable {ι : Type} {D : Deployment ι Contents (Message Empty)} {padding : Bool}

/-- What environments and snapshots hold: the rank of every entry. -/
def knowledge (hmode : D.mode = unswept padding) (hblank : D.blank = Contents.empty) :
    Knowledge D (Bytes → Bytes → WithBot Stamp) where
  held := fun c n k => rankOf (entryAt c n k)
  content := fun msg n k => rankOf (entryOfMessage msg n k)
  Good := NativeEnv
  Fit := Sent
  good_blank := by
    rw [hblank]
    intro n d _ hget
    cases hget
  blank_le := by
    intro v n k
    have hnone : entryAt Contents.empty n k = none := by
      unfold entryAt
      split <;> rfl
    simp only [hblank, hnone]
    exact bot_le
  app := by
    intro c c' _ happ
    rw [hmode] at happ
    exact ⟨happ.native, happ.entries⟩
  load := by
    intro localChanged t txnID msg c c' dirty hc hmsg hload
    rw [hmode] at hload
    have hok := unswept_loadTxn hload
    obtain ⟨hnative, hmax⟩ := loadOnce_ok padding hc hmsg hok
    refine ⟨hnative, fun n k => ?_, fun n k => ?_, loadOnce_clean hok⟩
    · exact (le_max_left _ _).trans (hmax n k).ge
    · exact (le_max_right _ _).trans (hmax n k).ge
  load_le := by
    intro localChanged t txnID msg c c' dirty hc hmsg hload v hheld hcontent n k
    rw [hmode] at hload
    have hmax := (loadOnce_ok padding hc hmsg (unswept_loadTxn hload)).2 n k
    exact hmax.le.trans (max_le (hheld n k) (hcontent n k))
  send := by
    intro t txnID c c' dirty msg hc hsend
    rw [hmode] at hsend
    obtain ⟨hmsg, hentries⟩ := dump_entries hc (@NativeLoop.native_sendTxn Empty
      (loadOptions padding) t txnID c c' dirty msg hsend)
    exact ⟨hmsg, fun n k => (congrArg rankOf (hentries n k)).le,
      fun n k => (congrArg rankOf (hentries n k)).ge⟩

/-- The entry has the later time, or the same time and a value that wins. -/
def Supersedes (e' e : Timestamp × Bytes) : Prop := e.1 < e'.1 ∨ (e.1 = e'.1 ∧ e'.2 ≤ e.2)

theorem supersedes_of_le {e : Timestamp × Bytes} {o : Option (Timestamp × Bytes)}
    (h : rankOf (some e) ≤ rankOf o) : ∃ e', o = some e' ∧ Supersedes e' e := by
  cases o with
  | none => exact absurd (le_bot_iff.mp h) WithBot.coe_ne_bot
  | some e' => exact ⟨e', rfl, Convergence.stamp_le_iff.mp (WithBot.coe_le_coe.mp h)⟩

variable [DecidableEq ι] {s s' : Net ι Contents (Message Empty)}

/-- **Stored data survives.** However the instances go on, whatever was ever stored is in
the storage, or something newer: there is one snapshot, the latest of its instance, that
has it all. -/
theorem stored_data_survives (hmode : D.mode = unswept padding) (hblank : D.blank = Contents.empty)
    (hs : NetStart D NativeEnv s) (hr : NetRun D s s') {f : File (Message Empty)}
    (hf : f ∈ s'.storage.files) :
    ∃ g, s'.storage.Latest g ∧ ∀ n k e, entryOfMessage f.snapshot n k = some e →
      ∃ e', entryOfMessage g.snapshot n k = some e' ∧ Supersedes e' e := by
  obtain ⟨g, hg, hle⟩ := NetRun.held (K := knowledge hmode hblank) hr hs hf
  refine ⟨g, hg, fun n k e he => supersedes_of_le ?_⟩
  rw [← he]
  exact hle n k

/-- Loads one after the other, each in a transaction of its own. -/
def restore (padding : Bool) (c : Contents) (us : List (TxnID × Message Empty)) :
    Except (LoadErr Empty) Contents :=
  us.foldlM (fun c u => (loadOnce (loadOptions padding) 0 u.1 u.2 c).map EnvTxn.contents) c

theorem restore_max (padding : Bool) {us : List (TxnID × Message Empty)}
    (hus : ∀ u ∈ us, u.1 ≠ 0 ∧ Sent u.2) {c : Contents} (hc : NativeEnv c) :
    ∃ c', restore padding c us = .ok c' ∧ NativeEnv c' ∧
      (∀ n k, rankOf (entryAt c n k) ≤ rankOf (entryAt c' n k)) ∧
      ∀ u ∈ us, ∀ n k, rankOf (entryOfMessage u.2 n k) ≤ rankOf (entryAt c' n k) := by
  induction us generalizing c with
  | nil => exact ⟨c, rfl, hc, fun _ _ => le_rfl, nofun⟩
  | cons u us ih =>
      obtain ⟨htxn, hsent⟩ := hus u List.mem_cons_self
      obtain ⟨t, hload, hnat, hmax⟩ := loadOnce_max padding hc hsent htxn
      obtain ⟨c', hrest, hnat', hle, hall⟩ :=
        ih (fun x hx => hus x (List.mem_cons_of_mem _ hx)) hnat
      refine ⟨c', ?_, hnat', fun n k => ?_, fun x hx n k => ?_⟩
      · rw [restore, List.foldlM_cons, hload]
        exact hrest
      · exact ((le_max_left _ _).trans (hmax n k).ge).trans (hle n k)
      · rcases List.mem_cons.mp hx with rfl | hx
        · exact ((le_max_right _ _).trans (hmax n k).ge).trans (hle n k)
        · exact hall x hx n k

/-- **The storage restores all that was ever stored.** Stored snapshots that include the
latest of every instance can be loaded in any order, into any environment; all that was
ever stored is there then, or something newer. -/
theorem restore_complete (hmode : D.mode = unswept padding) (hblank : D.blank = Contents.empty)
    (hs : NetStart D NativeEnv s) (hr : NetRun D s s') {us : List (TxnID × Message Empty)}
    (hstored : ∀ u ∈ us, u.1 ≠ 0 ∧ ∃ f ∈ s'.storage.files, f.snapshot = u.2)
    (hlatest : ∀ g, s'.storage.Latest g → ∃ u ∈ us, u.2 = g.snapshot) {c : Contents}
    (hc : NativeEnv c) :
    ∃ c', restore padding c us = .ok c' ∧ NativeEnv c' ∧
      ∀ f ∈ s'.storage.files, ∀ n k e, entryOfMessage f.snapshot n k = some e →
        ∃ e', entryAt c' n k = some e' ∧ Supersedes e' e := by
  have hb := (NetRun.sound (K := knowledge hmode hblank) hr hs).storage
  have hus : ∀ u ∈ us, u.1 ≠ 0 ∧ Sent u.2 := by
    intro u hu
    obtain ⟨htxn, f, hf, hsnap⟩ := hstored u hu
    exact ⟨htxn, hsnap ▸ hb.fit f hf⟩
  obtain ⟨c', hrestore, hnat, -, hall⟩ := restore_max padding hus hc
  refine ⟨c', hrestore, hnat, fun f hf n k e he => supersedes_of_le ?_⟩
  obtain ⟨g, hg, hle⟩ := NetRun.held (K := knowledge hmode hblank) hr hs hf
  obtain ⟨u, hu, hsnap⟩ := hlatest g hg
  have hin := hall u hu n k
  rw [hsnap] at hin
  rw [← he]
  exact (hle n k).trans hin

/-! ### One of two instances stores its data -/

section Sample

open Fidelity (oneEntry single_get)

theorem oneEntry_native (ts : Timestamp) (value : Bytes) : NativeEnv (oneEntry ts value) := by
  intro n d _ hget
  obtain ⟨-, rfl⟩ := single_get hget
  refine ⟨rfl, fun k v hv => ?_⟩
  rw [Dbi.get_set] at hv
  split at hv
  · rw [← Option.some.inj hv]
    exact ⟨_, _, parse_putBasic ts 1 noFlags value, fun hdel => by simp at hdel⟩
  · cases hv

theorem entryAt_oneEntry (ts : Timestamp) (value n k : Bytes) :
    entryAt (oneEntry ts value) n k =
      if n = [100] ∧ k = [1] then some (ts, value) else none := by
  unfold entryAt
  rw [oneEntry, Fidelity.single, Contents.get_set]
  by_cases hn : n = [100]
  · have hpriv : isPrivate n = false := by
      rw [hn]
      decide
    rw [hpriv, if_neg Bool.false_ne_true, if_pos hn, Option.bind_some, entryOf, Dbi.get_set]
    by_cases hk : k = [1]
    · rw [if_pos hk, if_pos ⟨hn, hk⟩, Option.bind_some,
        Convergence.entryOfValue_of_parse (parse_putBasic ts 1 noFlags value)]
    · rw [if_neg hk, if_neg fun h => hk h.2]
      rfl
  · rw [if_neg hn, if_neg (show ¬(n = [100] ∧ k = [1]) from fun h => hn h.1)]
    split <;> rfl

/-- An entry is replaced by a newer one. -/
theorem oneEntry_rises {ts ts' : Timestamp} (hlt : ts < ts') (value value' : Bytes) :
    Rises (oneEntry ts value) (oneEntry ts' value') := by
  refine ⟨oneEntry_native ts' value', fun n k => ?_⟩
  rw [entryAt_oneEntry, entryAt_oneEntry]
  split
  · exact WithBot.coe_le_coe.mpr (Convergence.stamp_le_iff.mpr (Or.inl hlt))
  · exact le_rfl

/-- Two instances of a database. -/
def pair : Deployment Bool Contents (Message Empty) where
  nm := defaultNaming
  reads := reads_default
  srt := Cleaner.insertionSorter
  db := ascii "main"
  separable := ⟨by decide, by decide, by decide⟩
  mode := unswept false
  tracks := rfl
  blank := Contents.empty
  config := fun i => ⟨if i then ascii "ns1" else ascii "ns2", false, false, false⟩
  distinct := by decide

/-- The first has data, the second is new, and nothing is stored yet. -/
def pairStart : Net Bool Contents (Message Empty) where
  node := fun i =>
    ⟨⟨if i then { NativeLoop.fresh with env := ⟨1, fun _ => oneEntry 7 [65]⟩ }
      else NativeLoop.fresh, Receiver.new _ (pair.config i).ownInstanceID, [], []⟩,
      .new Cleaner.sampleConf, [], []⟩
  storage := ⟨[], ∅⟩

theorem empty_native : NativeEnv Contents.empty := fun _ _ _ hget => nomatch hget

theorem netStart_pairStart : NetStart pair NativeEnv pairStart where
  system := fun i => by
    cases i with
    | false =>
        exact ⟨⟨⟨rfl, rfl, rfl, rfl, nofun⟩, rfl, rfl⟩, Or.inl rfl, fun _ => rfl, rfl, rfl, rfl⟩
    | true => exact ⟨⟨⟨rfl, rfl, rfl, rfl, nofun⟩, rfl, rfl⟩, Or.inl rfl, nofun, rfl, rfl, rfl⟩
  good := fun i => by
    cases i with
    | false => exact empty_native
    | true => exact oneEntry_native 7 [65]
  worker := fun _ => ⟨Cleaner.sampleConf, rfl⟩
  superseded := fun _ => rfl
  tooOld := fun _ => rfl
  storage := rfl

/-- What a step of one instance beside the storage is. -/
structure Beside (D : Deployment ι Contents (Message Empty)) (b : Storage (Message Empty)) (i : ι)
    (x y : OwnData.System Contents (Message Empty) (Message Empty)) : Prop where
  step : OwnData.SystemStep D.nm D.mode (D.config i) x y
  stored : y.loop.stored = x.loop.stored
  honest : b.Honest D.nm x.receiver y.receiver
  timely : ∀ d, y.loop = x.loop.commit d → ¬ Window x.loop

theorem ne_commit (x : State Contents (Message Empty) (Message Empty)) (d : Contents) :
    x ≠ x.commit d := fun h => absurd (congrArg (fun s => s.env.last) h) (Nat.succ_ne_self _).symm

theorem timelyRun_of_beside {i : ι} {y : OwnData.System Contents (Message Empty) (Message Empty)}
    (hr : Relation.ReflTransGen (Beside D s.storage i) (s.node i).system y) :
    TimelyRun D s (s.set i { s.node i with system := y } s.storage) := by
  induction hr with
  | refl =>
      rw [show s.set i { s.node i with system := (s.node i).system } s.storage = s by
        simp [Net.set]]
      exact Relation.ReflTransGen.refl
  | @tail y z _ hstep ih =>
      refine ih.tail ⟨?_, fun j d hj => ?_⟩
      · have hlater := NetStep.system (s := s.set i { s.node i with system := y } s.storage) i
          (y := z) (by rw [Net.node_set_self]; exact hstep.step)
          (by rw [Net.node_set_self]; exact hstep.stored)
          (by rw [Net.node_set_self]; exact hstep.honest)
        rw [Net.node_set_self, Net.set_set] at hlater
        exact hlater
      · by_cases hji : j = i
        · subst hji
          rw [Net.node_set_self, Net.node_set_self] at hj
          rw [Net.node_set_self]
          exact hstep.timely d hj
        · rw [Net.node_set_of_ne _ _ _ hji, Net.node_set_of_ne _ _ _ hji] at hj
          exact absurd hj (ne_commit _ d)

section Steps

variable {ι : Type} {D : Deployment ι Contents (Message Empty)} {b : Storage (Message Empty)}
  {i : ι} {x x' : State Contents (Message Empty) (Message Empty)} {r r' : Receiver (Message Empty)}
  {ls : List (List NameInfo)} {us : List (Update (Message Empty))}

theorem honest_refl (b : Storage (Message Empty)) (nm : Naming) (r : Receiver (Message Empty)) :
    b.Honest nm r r :=
  ⟨fun _ _ h => Or.inl h, fun _ _ _ h => Or.inl h, rfl⟩

theorem beside_loop {e : Event Contents (Message Empty)} (hstep : Step D.mode (D.config i) x e x')
    (hap : OwnData.Apart x e) (hst : x'.stored = x.stored) (hw : ¬ Window x ∨ x'.pc ≠ x.pc) :
    Beside D b i ⟨x, r, ls, us⟩ ⟨x', r, ls, us⟩ := by
  refine ⟨.loop hstep hap, hst, honest_refl _ _ _, fun d hd => ?_⟩
  refine hw.resolve_right fun hne => hne ?_
  rw [show x' = x.commit d from hd]
  rfl

theorem beside_receiver (hstep : Receiver.Step D.nm r .other r')
    (hpc : ∀ inc l, r'.pc = .listed inc l → r.pc = .listed inc l)
    (hsnap : r'.snapshotsByInstance = r.snapshotsByInstance)
    (hcorrupt : r'.corruptSnapshots = r.corruptSnapshots) :
    Beside D b i ⟨x, r, ls, us⟩ ⟨x, r', ls, us⟩ :=
  ⟨.receiver hstep, rfl, ⟨fun inc l h => Or.inl (hpc inc l h),
    fun _ _ _ h => Or.inl (hsnap ▸ h), hcorrupt⟩, fun d hd => absurd hd (ne_commit x d)⟩

/-- The listing of the storage, and the map with it. -/
theorem beside_listed {names : List Bytes} {usable : List NameInfo} (hidle : r.pc = .idle)
    (hmay : OwnData.MayList x r) (hshow : b.Shows D.nm names) (hus : r.usable D.nm names = usable) :
    Relation.ReflTransGen (Beside D b i) ⟨x, r, ls, us⟩
      ⟨x, (r.list D.nm names).publish (!r.started) usable, usable :: ls, us⟩ := by
  refine (Relation.ReflTransGen.single ⟨.list names hidle hmay, rfl,
    ⟨fun _ _ _ => Or.inr ⟨names, hshow, rfl⟩, fun _ _ _ h => Or.inl h, rfl⟩,
    fun d hd => absurd hd (ne_commit x d)⟩).tail ?_
  refine ⟨.publish (by rw [← hus]; rfl), rfl, ⟨nofun, fun _ _ _ h => Or.inl h, rfl⟩, ?_⟩
  exact fun d hd => absurd hd (ne_commit x d)

end Steps

/-- `SendOnce` up to the call of the storage. -/
theorem beside_send {x : State Contents (Message Empty) (Message Empty)}
    {r : Receiver (Message Empty)} {ls : List (List NameInfo)} {us : List (Update (Message Empty))}
    {b : Storage (Message Empty)} {i : Bool} (hpc : x.pc = .send) (hx : NativeEnv x.env.current) :
    Relation.ReflTransGen (Beside pair b i) ⟨x, r, ls, us⟩
      ⟨{ x with pc := .storing x.env.last x.env.last (sentMessage x.env.current) }, r, ls, us⟩ := by
  obtain ⟨y, hy⟩ : ∃ y : State Contents (Message Empty) (Message Empty),
    y = { x with pc := .dumped x.env.last x.env.last (sentMessage x.env.current) } := ⟨_, rfl⟩
  have hdump : x.sendTxn pair.mode (pair.config i) NativeLoop.noon = y := by
    have hsend : pair.mode.sendTxn (pair.config i).receiveOnly NativeLoop.noon x.env.last
        x.env.current = some (x.env.current, false, sentMessage x.env.current) := by
      show (unswept false).sendTxn false NativeLoop.noon x.env.last x.env.current = _
      unfold unswept NativeLoop.native
      simp only [Bool.false_eq_true, if_false, dump_exchanged hx]
    unfold State.sendTxn
    simp only [pair.tracks, if_true, hsend]
    exact hy.symm
  have hinfo : y.sendInfo (pair.config i) x.env.last x.env.last (sentMessage x.env.current) =
      { x with pc := .storing x.env.last x.env.last (sentMessage x.env.current) } := by
    have hrecorded : adjusted x.env.last x.env.last = x.env.last := if_neg (lt_irrefl _)
    rw [hy]
    show { x with pc := Pc.storing (adjusted x.env.last x.env.last) _ _ } = _
    rw [hrecorded]
  have htxn : Beside pair b i ⟨x, r, ls, us⟩ ⟨y, r, ls, us⟩ := by
    rw [← hdump]
    exact beside_loop (.send NativeLoop.noon hpc) (Or.inr ⟨by simp [hpc], by simp [hpc], by simp⟩)
      (by rw [hdump, hy]) (Or.inl (by simp [Window, hpc]))
  refine (Relation.ReflTransGen.single htxn).tail ?_
  rw [← hinfo]
  refine beside_loop (.sendInfo (by rw [hy])) (Or.inr ?_) ?_ (Or.inr ?_)
  · exact ⟨by simp [hy], by simp [hy], by simp⟩
  · rw [hinfo, hy]
  · rw [hinfo, hy]
    simp

/-- The first instance when it is about to send what it has. -/
def pairReady : State Contents (Message Empty) (Message Empty) :=
  ((pairStart.node true).system.loop.info.listed false ∅).startup (unswept false) NativeLoop.noon
    false

/-- Its receiver has listed the empty storage. -/
def pairListed : Receiver (Message Empty) :=
  { ((Receiver.new _ (ascii "ns1")).list defaultNaming []).publish true [] with pc := .idle }

def pairStoring : State Contents (Message Empty) (Message Empty) :=
  { pairReady with pc := .storing 1 1 (sentMessage (oneEntry 7 [65])) }

theorem run_pairStoring :
    Relation.ReflTransGen (Beside pair pairStart.storage true) (pairStart.node true).system
      ⟨pairStoring, pairListed, [[]], []⟩ := by
  have hshow : pairStart.storage.Shows pair.nm [] := ⟨.nil, nofun, nofun⟩
  have hinfo : Beside pair pairStart.storage true (pairStart.node true).system
      ⟨(pairStart.node true).system.loop.info, Receiver.new _ (ascii "ns1"), [], []⟩ :=
    beside_loop (.info rfl) (Or.inr ⟨nofun, nofun, nofun⟩) rfl (Or.inl id)
  have hlist := (Relation.ReflTransGen.single hinfo).trans
    (beside_listed rfl (Or.inl ⟨rfl, rfl⟩) hshow rfl)
  have hlisted := (hlist.tail (beside_receiver (.finish rfl) nofun rfl rfl)).tail
    ⟨.listed rfl rfl rfl, rfl, honest_refl _ _ _, fun _ _ => id⟩
  have hready := hlisted.tail (beside_loop (.startup NativeLoop.noon rfl)
    (Or.inr ⟨nofun, nofun, by simp⟩) rfl (Or.inl id))
  exact hready.trans (beside_send (x := pairReady) rfl (oneEntry_native 7 [65]))

/-- The storage accepts the snapshot that an instance has come to store. -/
theorem run_store {i : Bool} {s : Net Bool Contents (Message Empty)}
    {y : OwnData.System Contents (Message Empty) (Message Empty)} {txnID seen : ℕ}
    {snap : Message Empty} {built info : NameInfo}
    (hr : Relation.ReflTransGen (Beside pair s.storage i) (s.node i).system y)
    (hpc : y.loop.pc = .storing txnID seen snap) (hname : Receiver.Nameable pair.db built)
    (hinst : built.instanceID = (pair.config i).ownInstanceID)
    (hinfo : Cleaner.snapshotOf pair.nm (buildName built) = some info)
    (hlater : ∀ f ∈ s.storage.files, f.instanceID = built.instanceID →
      f.info.timestamp < built.timestamp) (hpos : zeroTime < built.timestamp) :
    TimelyRun pair s (s.set i
      { s.node i with system := { y with loop := y.loop.store txnID seen snap } }
      (s.storage.put info snap)) := by
  have hstoring := timelyRun_of_beside hr
  have hstore : NetStep pair (s.set i { s.node i with system := y } s.storage) (s.set i
      { s.node i with system := { y with loop := y.loop.store txnID seen snap } }
      (s.storage.put info snap)) := by
    have hstep := NetStep.store (s := s.set i { s.node i with system := y } s.storage) (D := pair)
      i rfl (by rw [Net.node_set_self]; exact hpc) hname hinst hinfo hlater hpos
    rw [Net.node_set_self, Net.set_set] at hstep
    exact hstep
  refine hstoring.tail ⟨hstore, fun j d hj => ?_⟩
  by_cases hji : j = i
  · rw [hji, Net.node_set_self]
    simp [Window, hpc]
  · rw [Net.node_set_of_ne _ _ _ hji, Net.node_set_of_ne _ _ _ hji] at hj
    exact absurd hj (ne_commit _ d)

/-- The storage has accepted the snapshot. -/
def pairStored (info : NameInfo) : Net Bool Contents (Message Empty) :=
  pairStart.set true { pairStart.node true with
    system := ⟨pairStoring.store 1 1 (sentMessage (oneEntry 7 [65])), pairListed, [[]], []⟩ }
    (pairStart.storage.put info (sentMessage (oneEntry 7 [65])))

theorem run_pairStored {info : NameInfo} (hinfo : Cleaner.snapshotOf defaultNaming
    (buildName (Receiver.sampleInfo 7)) = some info) :
    TimelyRun pair pairStart (pairStored info) :=
  run_store run_pairStoring rfl (Receiver.nameable_sample (by decide)) (by decide +kernel) hinfo
    nofun (by decide)

/-- What a snapshot of one entry has. -/
theorem entryOfMessage_sent (ts : Timestamp) (value : Bytes) :
    entryOfMessage (sentMessage (oneEntry ts value)) [100] [1] = some (ts, value) := by
  rw [(dump_entries (oneEntry_native ts value) (dump_exchanged (oneEntry_native ts value))).2,
    entryAt_oneEntry, if_pos ⟨rfl, rfl⟩]

/-! ### An old snapshot is deleted -/

/-- The application writes a newer entry, and the loop is about to send it. -/
def pairChanged : State Contents (Message Empty) (Message Empty) :=
  (((pairStoring.store 1 1 (sentMessage (oneEntry 7 [65]))).commit (oneEntry 8 [66])).idle.clean
    pairListed.seenInstances).poll (pair.config true) false

def pairStoringAgain : State Contents (Message Empty) (Message Empty) :=
  { pairChanged with pc := .storing 2 2 (sentMessage (oneEntry 8 [66])) }

theorem run_pairStoringAgain (info : NameInfo) :
    Relation.ReflTransGen (Beside pair (pairStored info).storage true)
      ((pairStored info).node true).system ⟨pairStoringAgain, pairListed, [[]], []⟩ := by
  obtain ⟨x, hx⟩ : ∃ x, x = pairStoring.store 1 1 (sentMessage (oneEntry 7 [65])) := ⟨_, rfl⟩
  have hcommit : Beside pair (pairStored info).storage true ⟨x, pairListed, [[]], []⟩
      ⟨x.commit (oneEntry 8 [66]), pairListed, [[]], []⟩ := by
    rw [hx]
    exact beside_loop (.commit (oneEntry_rises (by decide) [65] [66])) (Or.inl ⟨_, rfl⟩) rfl
      (Or.inl id)
  have hidle := (Relation.ReflTransGen.single hcommit).tail (beside_loop (.idle (by rw [hx]; rfl))
    (Or.inr ⟨by rw [hx]; nofun, by rw [hx]; nofun, nofun⟩) rfl (Or.inl (by rw [hx]; exact id)))
  have hclean := hidle.tail ⟨.clean rfl, rfl, honest_refl _ _ _, fun _ _ => id⟩
  have hpoll := hclean.tail (beside_loop (.poll false rfl (by simp))
    (Or.inr ⟨by simp [State.clean], by simp [State.clean], by simp⟩) (by rw [hx]; rfl) (Or.inl id))
  rw [hx] at hpoll
  exact hpoll.trans (beside_send (x := pairChanged) rfl (oneEntry_native 8 [66]))

/-- The storage with both snapshots. -/
def pairStoredAgain (older newer : NameInfo) : Net Bool Contents (Message Empty) :=
  (pairStored older).set true { (pairStored older).node true with
    system := ⟨pairStoringAgain.store 2 2 (sentMessage (oneEntry 8 [66])), pairListed, [[]], []⟩ }
    ((pairStored older).storage.put newer (sentMessage (oneEntry 8 [66])))

theorem run_pairStoredAgain {older newer : NameInfo} (hts : older.timestamp = 7)
    (hnewer : Cleaner.snapshotOf defaultNaming (buildName (Receiver.sampleInfo 9)) = some newer) :
    TimelyRun pair (pairStored older) (pairStoredAgain older newer) := by
  refine run_store (run_pairStoringAgain older) rfl (Receiver.nameable_sample (by decide))
    (by decide +kernel) hnewer (fun f hf _ => ?_) (by decide)
  rw [List.mem_singleton.mp hf]
  show older.timestamp < 9
  rw [hts]
  decide

/-- Both of them in a listing. -/
def bothListed : Cleaner.Listing :=
  ⟨[buildName (Receiver.sampleInfo 7), buildName (Receiver.sampleInfo 9)], by decide +kernel⟩

/-- The cleaner of the second instance after it has seen them for the first time. -/
def pairSifted : Cleaner.Worker :=
  (Committed.sift (.new Cleaner.sampleConf) defaultNaming Cleaner.insertionSorter 100 bothListed).1

/-- The first one is to be deleted ten minutes later. -/
theorem pairSifted_superseded :
    (Committed.sift (.new Cleaner.sampleConf) defaultNaming Cleaner.insertionSorter 100
      bothListed).2 = ([], []) ∧
    (Committed.sift pairSifted defaultNaming Cleaner.insertionSorter (700 * 10 ^ 9)
      bothListed).2.1 =
        (Cleaner.snapshotOf defaultNaming (buildName (Receiver.sampleInfo 7))).toList := by
  decide +kernel

theorem netStep_sift {i : ι} {x : Node Contents (Message Empty)} {b : Storage (Message Empty)}
    {ls : Cleaner.Listing} (now : Time) (hsup : x.superseded = []) (hold : x.tooOld = [])
    (hen : x.worker.conf.enabled = true) (hshow : b.Shows D.nm ls.names)
    (hclock : ∀ name t, x.worker.snapFirstSeen name = some t → t ≤ now) :
    NetStep D (s.set i x b) (s.set i (x.sift D.nm D.srt now ls) b) := by
  have hstep : NetStep D (s.set i x b) ((s.set i x b).set i
      (((s.set i x b).node i).sift D.nm D.srt now ls) b) :=
    NetStep.sift i (by rwa [Net.node_set_self]) (by rwa [Net.node_set_self])
      (by rwa [Net.node_set_self]) hshow (by rwa [Net.node_set_self])
  rwa [Net.node_set_self, Net.set_set] at hstep

theorem shows_bothListed {older newer : NameInfo}
    (holder : Cleaner.snapshotOf defaultNaming (buildName (Receiver.sampleInfo 7)) = some older)
    (hnewer : Cleaner.snapshotOf defaultNaming (buildName (Receiver.sampleInfo 9)) = some newer) :
    (pairStoredAgain older newer).storage.Shows pair.nm bothListed.names := by
  have hnames : ∀ name, name ∈ (pairStoredAgain older newer).storage.names ↔
      name = newer.fullName ∨ name = older.fullName := by
    intro name
    show name ∈ insert newer.fullName (insert older.fullName (∅ : Set Bytes)) ↔ _
    simp
  rw [Cleaner.snapshotOf_fullName holder, Cleaner.snapshotOf_fullName hnewer] at hnames
  refine ⟨by decide +kernel, fun name hname => ?_, fun name hname => Or.inl ?_⟩
  · rcases (hnames name).mp hname with rfl | rfl
    · exact List.mem_cons_of_mem _ (List.mem_singleton_self _)
    · exact List.mem_cons_self
  · rcases List.mem_cons.mp hname with rfl | hname
    · exact (hnames _).mpr (Or.inr rfl)
    · exact (hnames _).mpr (Or.inl (List.mem_singleton.mp hname))

/-- **The cleaner deletes the first snapshot**, and the first instance restarts on a new
LMDB. -/
theorem run_pairCleaned {older newer : NameInfo}
    (holder : Cleaner.snapshotOf defaultNaming (buildName (Receiver.sampleInfo 7)) = some older)
    (hnewer : Cleaner.snapshotOf defaultNaming (buildName (Receiver.sampleInfo 9)) = some newer) :
    ∃ s', NetRun pair (pairStoredAgain older newer) s' ∧
      s'.storage = (pairStoredAgain older newer).storage.delete true older.fullName ∧
      (s'.node true).system.loop.env.current = Contents.empty := by
  have hshow := shows_bothListed holder hnewer
  obtain ⟨hfirst, hsecond⟩ := pairSifted_superseded
  rw [holder] at hsecond
  obtain ⟨s, hs⟩ : ∃ s, s = pairStoredAgain older newer := ⟨_, rfl⟩
  have hself : s.set false (pairStart.node false) s.storage = s := by
    rw [hs]
    exact congrArg (Net.mk · _) (Function.update_eq_self false _)
  rw [← hs] at hshow ⊢
  obtain ⟨x₁, hx₁⟩ : ∃ x₁, x₁ = (pairStart.node false).sift pair.nm pair.srt 100 bothListed :=
    ⟨_, rfl⟩
  have hworker₁ : x₁.worker = pairSifted := by rw [hx₁]; rfl
  have hlists₁ : (x₁.superseded, x₁.tooOld) = ([], []) := by rw [← hfirst, hx₁]; rfl
  obtain ⟨hsup₁, hold₁⟩ := Prod.mk.inj hlists₁
  obtain ⟨x₂, hx₂⟩ : ∃ x₂, x₂ = x₁.sift pair.nm pair.srt (700 * 10 ^ 9) bothListed := ⟨_, rfl⟩
  have hsup₂ : x₂.superseded = [older] := by
    rw [hx₂, ← Option.toList_some, ← hsecond, ← hworker₁]
    rfl
  have hsift₁ : NetStep pair s (s.set false x₁ s.storage) := by
    rw [hx₁]
    nth_rewrite 1 [← hself]
    exact netStep_sift 100 rfl rfl rfl hshow fun _ _ h => nomatch h
  have hclock : ∀ name t, x₁.worker.snapFirstSeen name = some t → t ≤ 700 * 10 ^ 9 := by
    intro name t ht
    rw [hworker₁, pairSifted, sift_sightings (Cleaner.ignoresInvalid_new _ _)] at ht
    split at ht
    · rw [← Option.some.inj ht]
      show (100 : Time) ≤ 700 * 10 ^ 9
      decide
    · cases ht
  have hsift₂ : NetStep pair (s.set false x₁ s.storage) (s.set false x₂ s.storage) := by
    rw [hx₂]
    exact netStep_sift _ hsup₁ hold₁ (by rw [hworker₁]; rfl) hshow hclock
  have hdelete : NetStep pair (s.set false x₂ s.storage) (s.set false { x₂ with superseded := [] }
      (s.storage.delete true older.fullName)) := by
    have hstep := NetStep.supersede (D := pair) (s := s.set false x₂ s.storage) false true
      (by rw [Net.node_set_self]; exact hsup₂)
    rwa [Net.node_set_self, Net.set_set] at hstep
  obtain ⟨y, hy⟩ : ∃ y : OwnData.System Contents (Message Empty) (Message Empty),
      y = ⟨NativeLoop.fresh, Receiver.new _ (ascii "ns1"), [], []⟩ := ⟨_, rfl⟩
  have hrestart := NetStep.restart (D := pair) (s := s.set false { x₂ with superseded := [] }
    (s.storage.delete true older.fullName)) true (y := y) Cleaner.sampleConf (by
      rw [hy]
      exact ⟨⟨⟨rfl, rfl, rfl, rfl, nofun⟩, rfl, rfl⟩, Or.inr rfl, fun _ => rfl, rfl, rfl, rfl⟩)
  refine ⟨_, (((Relation.ReflTransGen.single hsift₁).tail hsift₂).tail hdelete).tail hrestart,
    rfl, ?_⟩
  rw [Net.node_set_self, hy]
  rfl

/-- Two snapshots were stored, and the first one was deleted. -/
theorem exists_cleaned : ∃ s' f g, NetRun pair pairStart s' ∧ s'.storage.files = [g, f] ∧
    s'.storage.names = {g.name} ∧ f.name ≠ g.name ∧
    f.snapshot = sentMessage (oneEntry 7 [65]) ∧ g.snapshot = sentMessage (oneEntry 8 [66]) ∧
    (s'.node true).system.loop.env.current = Contents.empty := by
  obtain ⟨older, holder⟩ : ∃ older, Cleaner.snapshotOf defaultNaming
    (buildName (Receiver.sampleInfo 7)) = some older := ⟨_, rfl⟩
  obtain ⟨newer, hnewer⟩ : ∃ newer, Cleaner.snapshotOf defaultNaming
    (buildName (Receiver.sampleInfo 9)) = some newer := ⟨_, rfl⟩
  have hts : older.timestamp = 7 := by
    have hmap : (Cleaner.snapshotOf defaultNaming (buildName (Receiver.sampleInfo 7))).map
        NameInfo.timestamp = some 7 := by decide +kernel
    rw [holder] at hmap
    exact Option.some.inj hmap
  have hne : older.fullName ≠ newer.fullName := by
    rw [Cleaner.snapshotOf_fullName holder, Cleaner.snapshotOf_fullName hnewer]
    decide +kernel
  obtain ⟨s', hclean, hstorage, hblank⟩ := run_pairCleaned holder hnewer
  refine ⟨s', ⟨0, older, sentMessage (oneEntry 7 [65])⟩, ⟨1, newer, sentMessage (oneEntry 8 [66])⟩,
    ((run_pairStored holder).netRun.trans (run_pairStoredAgain hts hnewer).netRun).trans hclean,
    ?_, ?_, hne, rfl, rfl, hblank⟩
  · rw [hstorage]
    rfl
  · rw [hstorage]
    show insert newer.fullName (insert older.fullName (∅ : Set Bytes)) \ {older.fullName} = _
    ext name
    simp only [Set.mem_sdiff, Set.mem_insert_iff, Set.mem_empty_iff_false, Set.mem_singleton_iff]
    constructor
    · rintro ⟨rfl | rfl | hno, hother⟩
      · rfl
      · exact absurd rfl hother
      · exact hno.elim
    · rintro rfl
      exact ⟨Or.inl rfl, hne.symm⟩

/-- The newer one has what the deleted one had, although the instance has lost its LMDB. -/
theorem stored_data_survives_cleaned : ∃ s' f, NetRun pair pairStart s' ∧
    (s'.node true).system.loop.env.current = Contents.empty ∧
    f ∈ s'.storage.files ∧ f.name ∉ s'.storage.names ∧
    entryOfMessage f.snapshot [100] [1] = some (7, [65]) ∧
    ∃ g, s'.storage.Latest g ∧ ∃ e', entryOfMessage g.snapshot [100] [1] = some e' ∧
      Supersedes e' (7, [65]) := by
  obtain ⟨s', f, g, hrun, hfiles, hnames, hne, hf, -, hblank⟩ := exists_cleaned
  have hmem : f ∈ s'.storage.files := by simp [hfiles]
  have hentry : entryOfMessage f.snapshot [100] [1] = some (7, [65]) := by
    rw [hf]
    exact entryOfMessage_sent 7 [65]
  obtain ⟨g', hg', hall⟩ := stored_data_survives (D := pair) rfl rfl netStart_pairStart hrun hmem
  refine ⟨s', f, hrun, hblank, hmem, ?_, hentry, g', hg', hall _ _ _ hentry⟩
  rw [hnames]
  exact hne

/-- The only snapshot that is left is loaded on top of other data. -/
theorem restore_complete_cleaned : ∃ s' f g c', NetRun pair pairStart s' ∧
    s'.storage.files = [g, f] ∧ f.name ∉ s'.storage.names ∧
    restore false (oneEntry 6 [67]) [(1, g.snapshot)] = .ok c' ∧
    entryOfMessage f.snapshot [100] [1] = some (7, [65]) ∧
    ∃ e', entryAt c' [100] [1] = some e' ∧ Supersedes e' (7, [65]) := by
  obtain ⟨s', f, g, hrun, hfiles, hnames, hne, hf, -⟩ := exists_cleaned
  have hgone : f.name ∉ s'.storage.names := by
    rw [hnames]
    exact hne
  have hentry : entryOfMessage f.snapshot [100] [1] = some (7, [65]) := by
    rw [hf]
    exact entryOfMessage_sent 7 [65]
  have hstored : ∀ u ∈ [((1 : TxnID), g.snapshot)],
      u.1 ≠ 0 ∧ ∃ f ∈ s'.storage.files, f.snapshot = u.2 := by
    rw [List.forall_mem_singleton]
    exact ⟨show (1 : TxnID) ≠ 0 by decide, g, by simp [hfiles], rfl⟩
  have hlatest : ∀ g', s'.storage.Latest g' → ∃ u ∈ [((1 : TxnID), g.snapshot)],
      u.2 = g'.snapshot := by
    rintro g' ⟨⟨hg', hname⟩, -⟩
    rw [hfiles] at hg'
    rcases List.mem_cons.mp hg' with rfl | hg'
    · exact ⟨_, List.mem_singleton_self _, rfl⟩
    · rw [List.mem_singleton.mp hg'] at hname
      exact absurd hname hgone
  obtain ⟨c', hrestore, -, hall⟩ := restore_complete (D := pair) rfl rfl netStart_pairStart hrun
    hstored hlatest (oneEntry_native 6 [67])
  exact ⟨s', f, g, c', hrun, hfiles, hgone, hrestore, hentry,
    hall f (by simp [hfiles]) _ _ _ hentry⟩

end Sample

end LightningStream.Syncer.Durability
