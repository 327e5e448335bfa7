import LightningStream.Syncer.Native
import LightningStream.Syncer.Shadow

/-!
# The transactions of shadow mode

Without the native schema `SendOnce` first copies the main DBI to its shadow
and dumps the shadow. `LoadOnce` does the same copy if there was a local
change, merges the snapshot into the shadow and copies the shadow back. This
file follows one main DBI and its shadow through these transactions. It
says what a transaction that succeeded has done, without assuming that the
snapshot it loaded was well formed.
-/

namespace LightningStream.Syncer

open Lmdb Snapshot Strategy Header

/-- A main DBI and its shadow. -/
structure Shadowed where
  main : Dbi
  shadow : Dbi
deriving DecidableEq

/-- The name of the DBI, and the options `LoadOnce` reads. -/
structure ShadowOptions where
  dbiName : Bytes
  headerExtraPaddingBlock : Bool

def syncDBIShadowPrefix : Bytes := ascii "_sync_shadow_"

def ShadowOptions.shadowName (o : ShadowOptions) : Bytes := syncDBIShadowPrefix ++ o.dbiName

inductive ShadowTxnErr (η : Type)
  | shadow (e : ShadowErr)
  | transform (e : TransformErr)
  | apply (e : ApplyErr η)
  | read (e : EntryErr)
deriving DecidableEq

variable {η : Type}

/-- The copy to the shadow; `dirty` tells what the transaction did before. -/
def copyToShadow (o : ShadowOptions) (deletedCutoff ts : Timestamp) (txnID : ℕ) (dirty : Bool)
    (d : Shadowed) : Except (ShadowTxnErr η) Txn :=
  (mainToShadow o.dbiName deletedCutoff ts (UInt64.ofNat txnID) d.main
    ⟨d.shadow, dirty⟩).mapError .shadow

/-- The first copy of `LoadOnce`, which is skipped when nothing changed. -/
def copyIfChanged (o : ShadowOptions) (localChanged : Bool) (deletedCutoff ts : Timestamp)
    (txnID : ℕ) (dirty : Bool) (d : Shadowed) : Except (ShadowTxnErr η) Txn :=
  if localChanged then copyToShadow o deletedCutoff ts txnID dirty d
  else .ok ⟨d.shadow, dirty⟩

/-- One round of the loop in `LoadOnce`. Messages for other DBIs do not touch
this one. -/
def mergeShadow (o : ShadowOptions) (deletedCutoff : Timestamp) (fv cv : UInt32) (txnID : ℕ)
    (t : Txn) (m : DbiMsg η) : Except (ShadowTxnErr η) Txn :=
  if m.name = o.dbiName then do
    (m.validateTransform fv false).mapError .transform
    (applyMessage o.headerExtraPaddingBlock deletedCutoff fv cv (UInt64.ofNat txnID)
      m.reading t).mapError .apply
  else .ok t

/-- The transaction of `LoadOnce`. -/
def loadShadowed (o : ShadowOptions) (localChanged : Bool) (deletedCutoff ts : Timestamp)
    (txnID : ℕ) (dirty : Bool) (m : Message η) (d : Shadowed) :
    Except (ShadowTxnErr η) (Shadowed × Bool) := do
  let sh ← copyIfChanged o localChanged deletedCutoff ts txnID dirty d
  let sh ← m.databases.foldlM
    (mergeShadow o deletedCutoff m.formatVersion m.compatVersion txnID) sh
  let mn ← (shadowToMain o.shadowName sh.dbi ⟨d.main, sh.dirty⟩).mapError .shadow
  .ok (⟨mn.dbi, sh.dbi⟩, mn.dirty)

/-- The dump of `SendOnce`: the entries of the shadow, under the name and with the
flags of the main DBI. -/
def dumpShadowed (o : ShadowOptions) (main shadow : Dbi) :
    Except (ShadowTxnErr η) (Message Empty) := do
  let kvs ← (readDBI o.shadowName false shadow).mapError .read
  .ok ⟨currentFormatVersion, writeCompatFormatVersion,
    [⟨o.dbiName, main.flags.bits, transformNone, Reading.ofList kvs⟩]⟩

/-! ## The copy to the shadow -/

section Copy

variable {name : Bytes} {cutoff ts : Timestamp} {txnID : TxnID}

theorem mainToShadow_txnID {main : Dbi} {t t' : Txn}
    (h : mainToShadow name cutoff ts txnID main t = .ok t') : txnID ≠ 0 := by
  rintro rfl
  unfold mainToShadow at h
  obtain ⟨kvs, -, h⟩ := bind_eq_ok.mp h
  obtain ⟨it, hit, -⟩ := bind_eq_ok.mp h
  unfold newNativeIterator at hit
  rw [if_neg (by decide), if_neg (by decide), if_neg (by decide), if_pos rfl] at hit
  cases hit

/-- Whatever `mainToShadow` leaves has a header. -/
theorem shadowedValue_valid {main shadow : Dbi} (hvalid : HeadersValid shadow) {k raw : Bytes}
    (h : shadowedValue (shadowIterator ts txnID cutoff) main shadow k = some raw) :
    ∃ r, parse raw = .ok r := by
  have hout : Outcome ts (main.get k) (shadow.get k)
      (shadowedValue (shadowIterator ts txnID cutoff) main shadow k) :=
    shadowedValue_outcome hvalid k
  exact hout.valid (hvalid k) h

end Copy

/-- What holds of the two DBIs between transactions. The application stores no
empty values, the shadow only values with headers, and integer keys have one
size in both. -/
structure Shadowed.Paired (f : KeyFlags) (d : Shadowed) : Prop where
  mainFlags : d.main.flags = f
  shadowFlags : d.shadow.flags = shadowFlags f
  sizes : d.shadow.flags.Allowed (d.main.keys ++ d.shadow.keys)
  values : ∀ k v, d.main.get k = some v → v ≠ []
  headers : HeadersValid d.shadow

def Shadowed.Paired.pair {f : KeyFlags} {d : Shadowed} (h : d.Paired f) : ShadowPair :=
  ⟨d.main, d.shadow, by rw [h.mainFlags, h.shadowFlags], h.sizes⟩

variable {o : ShadowOptions} {cutoff ts : Timestamp} {txnID : ℕ} {b : Bool} {f : KeyFlags}
  {d : Shadowed}

/-- **A copy to the shadow that succeeded** left at every key what the merge or
the deletion of that key gives. -/
theorem copyToShadow_ok (hp : d.Paired f) {t : Txn}
    (h : copyToShadow (η := η) o cutoff ts txnID b d = .ok t) :
    Shadowed.Paired f ⟨d.main, t.dbi⟩ ∧
      (∀ k, t.dbi.get k = shadowedValue (shadowIterator ts (UInt64.ofNat txnID) cutoff)
        d.main d.shadow k) ∧
      ∀ k ∈ d.main.keys, k ∈ t.dbi.keys := by
  have hrun := mapError_eq_ok.mp h
  have htxn := mainToShadow_txnID hrun
  have hsorted := mainToShadow_sorted htxn hrun
  rw [show (Txn.mk d.shadow b).dbi.flags.integerKey = d.main.flags.integerKey by
    rw [hp.shadowFlags, hp.mainFlags]; rfl] at hsorted
  obtain ⟨t', hrun', hflags, hget⟩ := mainToShadow_spec hp.pair hp.headers htxn hsorted b
  have heq : t = t' := Except.ok.inj (hrun.symm.trans hrun')
  rw [← heq] at hflags hget
  have hkeys := keys_after (p := hp.pair) hp.headers hget
  refine ⟨⟨hp.mainFlags, hflags.trans hp.shadowFlags, ?_, hp.values, fun k raw hraw => ?_⟩,
    hget, fun k hk => (hkeys k).mpr (Or.inl hk)⟩
  · exact (hp.pair.after t.dbi hflags hkeys).sizes
  · rw [hget k] at hraw
    exact shadowedValue_valid hp.headers hraw

/-! ## The merge into the shadow -/

theorem applyMessage_ok {padding : Bool} {fv cv : UInt32} {id : TxnID} {msg : Reading η}
    {t t' : Txn} (h : applyMessage padding cutoff fv cv id msg t = .ok t') :
    update t ((loadIterator padding cutoff fv id).iterator msg) = .ok t' := by
  unfold applyMessage at h
  obtain ⟨it, hit, h⟩ := bind_eq_ok.mp h
  have hit := mapError_eq_ok.mp hit
  unfold newNativeIterator at hit
  split_ifs at hit
  obtain rfl := Except.ok.inj hit
  cases padding with
  | true => exact mapError_eq_ok.mp h
  | false => exact mapError_eq_ok.mp h

/-- The snapshot holds an entry for the key that is not older than `T`. -/
def Held (o : ShadowOptions) (m : Message η) (k : Bytes) (T : Timestamp) : Prop :=
  ∃ dm ∈ m.databases, dm.name = o.dbiName ∧
    ∃ kv ∈ dm.reading.kvs, kv.key = k ∧ T ≤ kv.timestampNano

/-- What any merge into a shadow keeps: the flags, the headers, every key, and the
entries with a timestamp above all those the message has for their key. -/
structure Grown (H : Bytes → Timestamp → Prop) (d d' : Dbi) : Prop where
  flags : d'.flags = d.flags
  headers : HeadersValid d → HeadersValid d'
  keys : HeadersValid d → ∀ k ∈ d.keys, k ∈ d'.keys
  kept : ∀ k raw h app, d.get k = some raw → parse raw = .ok (h, app) → ¬ H k h.timestamp →
    d'.get k = some raw

theorem Grown.refl (H : Bytes → Timestamp → Prop) (d : Dbi) : Grown H d d :=
  ⟨rfl, fun h => h, fun _ _ h => h, fun _ _ _ _ h _ _ => h⟩

theorem Grown.trans {H : Bytes → Timestamp → Prop} {d d' d'' : Dbi} (h : Grown H d d')
    (h' : Grown H d' d'') : Grown H d d'' where
  flags := h'.flags.trans h.flags
  headers := fun hv => h'.headers (h.headers hv)
  keys := fun hv k hk => h'.keys (h.headers hv) k (h.keys hv k hk)
  kept := fun k raw hd app hget hp hn => h'.kept k raw hd app (h.kept k raw hd app hget hp hn) hp hn

/-- One merged entry. -/
theorem grown_merge {H : Bytes → Timestamp → Prop} {padding : Bool} {fv : UInt32} {id : TxnID}
    {kv : Kv} (hH : ∀ T, T ≤ kv.timestampNano → H kv.key T) {d d' : Dbi} {r : Option Bytes}
    (hm : (loadIterator padding cutoff fv id).merge kv (oldVal d kv.key) = .ok r)
    (hflags : d'.flags = d.flags)
    (hget : ∀ j, d'.get j = if j = kv.key then present r else d.get j) : Grown H d d' := by
  set it := loadIterator padding cutoff fv id with hit
  -- what the merge returns for a stored value has a header, too
  have hstored : ∀ old, d.get kv.key = some old → ∀ hd app, parse old = .ok (hd, app) →
      r = some (if it.keeps kv hd app then old
        else it.addHeader kv.value (it.writtenTS kv.timestampNano) kv.maskedFlags) := by
    intro old hold hd app hp
    rw [oldVal, hold, Option.getD_some, merge_of_parse it hp] at hm
    exact (Except.ok.inj hm).symm
  refine ⟨hflags, fun hv k raw hraw => ?_, fun hv k hk => ?_,
    fun k raw hd app hraw hp hn => ?_⟩
  · rw [hget k] at hraw
    split at hraw
    · cases hold : d.get kv.key with
      | none =>
          rw [oldVal, hold, Option.getD_none] at hm
          unfold NativeIterator.merge at hm
          rw [if_pos rfl] at hm
          split at hm
          · rw [← Except.ok.inj hm] at hraw
            cases hraw
          · rw [← Except.ok.inj hm] at hraw
            obtain ⟨hd', hp', -⟩ := parse_addHeader it kv.value kv.timestampNano kv.maskedFlags
            exact ⟨_, Option.some.inj (present_eq_some.mp hraw).1 ▸ hp'⟩
      | some old =>
          obtain ⟨⟨hd, app⟩, hp⟩ := hv kv.key old hold
          rw [hstored old hold hd app hp] at hraw
          have hr := Option.some.inj (present_eq_some.mp hraw).1
          split at hr
          · exact ⟨_, hr ▸ hp⟩
          · obtain ⟨hd', hp', -⟩ := parse_addHeader it kv.value _ kv.maskedFlags
            exact ⟨_, hr ▸ hp'⟩
    · exact hv k raw hraw
  · obtain ⟨old, hold⟩ := Dbi.mem_keys_iff.mp hk
    by_cases hkey : k = kv.key
    · obtain ⟨⟨hd, app⟩, hp⟩ := hv k old hold
      refine Dbi.mem_keys_iff.mpr ?_
      rw [hget k, if_pos hkey, hstored old (hkey ▸ hold) hd app hp]
      split
      · exact ⟨old, present_eq_some.mpr ⟨rfl, parse_ok_ne_nil hp⟩⟩
      · exact ⟨_, present_eq_some.mpr ⟨rfl, addHeader_ne_nil _ _ _ _⟩⟩
    · exact Dbi.mem_keys_iff.mpr ⟨old, by rw [hget k, if_neg hkey]; exact hold⟩
  · by_cases hkey : k = kv.key
    · have hlt : kv.timestampNano < hd.timestamp := by
        by_contra hge
        exact hn (hkey ▸ hH _ (not_lt.mp hge))
      have hts : it.writtenTS kv.timestampNano = kv.timestampNano :=
        writtenTS_of_noDefault it rfl _
      have hkeeps : it.keeps kv hd app := Or.inr (Or.inl (by rw [hts]; exact hlt))
      rw [hget k, if_pos hkey, hstored raw (hkey ▸ hraw) hd app hp, if_pos hkeeps]
      exact present_eq_some.mpr ⟨rfl, parse_ok_ne_nil hp⟩
    · rw [hget k, if_neg hkey]
      exact hraw

/-- The merge of all messages. -/
theorem mergeShadow_grown {m : Message η} {t t' : Txn}
    (h : m.databases.foldlM (mergeShadow o cutoff m.formatVersion m.compatVersion txnID) t =
      .ok t') : Grown (Held o m) t.dbi t'.dbi := by
  refine foldlM_invariant (I := fun s : Txn => Grown (Held o m) t.dbi s.dbi)
    (fun dm hdm s s' hs hone => hs.trans ?_) h (Grown.refl _ _)
  unfold mergeShadow at hone
  split at hone
  · rename_i hname
    obtain ⟨_, -, hone⟩ := bind_eq_ok.mp hone
    refine update_invariant (I := Grown (Held o m) s.dbi) ?_
      (applyMessage_ok (mapError_eq_ok.mp hone)) (Grown.refl _ _)
    intro kv hkv d₁ d₂ r hd₁ hm hflags hget
    refine hd₁.trans (grown_merge (fun T hT => ?_) (mapError_eq_ok.mp hm) hflags hget)
    exact ⟨dm, hdm, hname, kv, hkv, rfl, hT⟩
  · rw [← Except.ok.inj hone]
    exact Grown.refl _ _

/-! ## The copy back -/

/-- A copy back that succeeded made the main DBI what the shadow says. -/
theorem shadowToMain_ok (hrev : f.reverseKey = false) {name : Bytes} {main sh : Dbi} {t : Txn}
    (hmain : main.flags = f) (hsh : sh.flags = shadowFlags f)
    (hsizes : sh.flags.Allowed (main.keys ++ sh.keys))
    (h : shadowToMain name sh ⟨main, b⟩ = .ok t) :
    t.dbi.flags = f ∧ ∀ k, t.dbi.get k = plainValue sh k := by
  obtain ⟨hvalid, hsorted⟩ := shadowToMain_sorted h
  have hord : InOrder main.flags := inOrder_of_forward (by rw [hmain, hrev])
  obtain ⟨t', hrun, hflags, hget⟩ := shadowToMain_spec
    ⟨main, sh, by rw [hsh, hmain], hsizes⟩ hvalid (List.pairwise_cons.mp hsorted).1
    (keys_less hord) (Or.inl hord) b
  have heq : t = t' := Except.ok.inj (h.symm.trans hrun)
  rw [heq]
  exact ⟨hflags.trans hmain, hget⟩

theorem plainValue_ne_nil {sh : Dbi} {k v : Bytes} (h : plainValue sh k = some v) : v ≠ [] := by
  obtain ⟨raw, -, hv⟩ := Option.bind_eq_some_iff.mp h
  exact (present_eq_some.mp hv).2

theorem mem_keys_of_plainValue {sh : Dbi} {k v : Bytes} (h : plainValue sh k = some v) :
    k ∈ sh.keys := by
  obtain ⟨raw, hraw, -⟩ := Option.bind_eq_some_iff.mp h
  exact Dbi.mem_keys_iff.mpr ⟨raw, hraw⟩

/-! ## Transactions that change nothing -/

theorem mainToShadow_marked {name : Bytes} {id : TxnID} {main : Dbi} {t t' : Txn}
    (h : mainToShadow name cutoff ts id main t = .ok t') : Marked t t' := by
  have hrun := mainToShadow_eq (mainToShadow_txnID h) main t ▸ h
  exact iterUpdate_marked (mapError_eq_ok.mp hrun)

theorem shadowToMain_marked {name : Bytes} {sh : Dbi} {t t' : Txn}
    (h : shadowToMain name sh t = .ok t') : Marked t t' := by
  have hrun := shadowToMain_eq (shadowToMain_sorted h).1 t ▸ h
  exact iterUpdate_marked (mapError_eq_ok.mp hrun)

theorem copyIfChanged_marked {localChanged : Bool} {t : Txn}
    (h : copyIfChanged (η := η) o localChanged cutoff ts txnID b d = .ok t) :
    Marked ⟨d.shadow, b⟩ t := by
  unfold copyIfChanged at h
  split at h
  · exact mainToShadow_marked (mapError_eq_ok.mp h)
  · exact Or.inl (Except.ok.inj h).symm

theorem mergeShadow_marked {fv cv : UInt32} {t t' : Txn} {dm : DbiMsg η}
    (h : mergeShadow o cutoff fv cv txnID t dm = .ok t') : Marked t t' := by
  unfold mergeShadow at h
  split at h
  · obtain ⟨_, -, h⟩ := bind_eq_ok.mp h
    exact update_marked (applyMessage_ok (mapError_eq_ok.mp h))
  · exact Or.inl (Except.ok.inj h).symm

/-! ## LoadOnce -/

/-- **A load that succeeded.** There was a shadow in between, up to date with the
main DBI; the snapshot was merged into it, and the main DBI got what the result
says. -/
theorem loadShadowed_ok (hrev : f.reverseKey = false) (hp : d.Paired f) {localChanged : Bool}
    (hsync : localChanged = false → ∀ k ∈ d.main.keys, k ∈ d.shadow.keys) {m : Message η}
    {d' : Shadowed} {dirty : Bool}
    (h : loadShadowed o localChanged cutoff ts txnID b m d = .ok (d', dirty)) :
    ∃ sh : Dbi, Shadowed.Paired f ⟨d.main, sh⟩ ∧
      (localChanged = true → (∀ k, sh.get k =
        shadowedValue (shadowIterator ts (UInt64.ofNat txnID) cutoff) d.main d.shadow k) ∧
        ∀ k ∈ d.main.keys, k ∈ sh.keys) ∧
      (localChanged = false → sh = d.shadow) ∧
      Grown (Held o m) sh d'.shadow ∧ d'.Paired f ∧
      (∀ k ∈ d'.main.keys, k ∈ d'.shadow.keys) ∧
      (∀ k, d'.main.get k = plainValue d'.shadow k) ∧ (dirty = false → d' = d) := by
  unfold loadShadowed at h
  obtain ⟨t₁, hcopy, h⟩ := bind_eq_ok.mp h
  obtain ⟨t₂, hmerge, h⟩ := bind_eq_ok.mp h
  obtain ⟨t₃, hback, h⟩ := bind_eq_ok.mp h
  obtain ⟨rfl, rfl⟩ := Prod.mk.inj (Except.ok.inj h)
  have hfirst : Shadowed.Paired f ⟨d.main, t₁.dbi⟩ ∧
      (localChanged = true → ∀ k, t₁.dbi.get k =
        shadowedValue (shadowIterator ts (UInt64.ofNat txnID) cutoff) d.main d.shadow k) ∧
      (localChanged = false → t₁.dbi = d.shadow) ∧ ∀ k ∈ d.main.keys, k ∈ t₁.dbi.keys := by
    unfold copyIfChanged at hcopy
    cases localChanged with
    | true =>
        obtain ⟨hp₁, hget₁, hin₁⟩ := copyToShadow_ok hp hcopy
        exact ⟨hp₁, fun _ => hget₁, nofun, hin₁⟩
    | false =>
        rw [← Except.ok.inj hcopy]
        exact ⟨hp, nofun, fun _ => rfl, hsync rfl⟩
  obtain ⟨hp₁, hget₁, hsame₁, hin₁⟩ := hfirst
  have hgrown := mergeShadow_grown hmerge
  have hin₂ : ∀ k ∈ d.main.keys, k ∈ t₂.dbi.keys := fun k hk =>
    hgrown.keys hp₁.headers k (hin₁ k hk)
  have hflags₂ : t₂.dbi.flags = shadowFlags f := hgrown.flags.trans hp₁.shadowFlags
  have hsub : ∀ {ks : List Bytes}, (∀ k ∈ ks, k ∈ t₂.dbi.keys) →
      t₂.dbi.flags.Allowed (ks ++ t₂.dbi.keys) := by
    intro ks hks
    apply t₂.dbi.keys_allowed.subset
    intro k hk
    exact (List.mem_append.mp hk).elim (hks k) id
  have hback' := mapError_eq_ok.mp hback
  obtain ⟨hflags₃, hget₃⟩ := shadowToMain_ok hrev hp.mainFlags hflags₂ (hsub hin₂) hback'
  have hin₃ : ∀ k ∈ t₃.dbi.keys, k ∈ t₂.dbi.keys := by
    intro k hk
    obtain ⟨v, hv⟩ := Dbi.mem_keys_iff.mp hk
    exact mem_keys_of_plainValue ((hget₃ k).symm.trans hv)
  refine ⟨t₁.dbi, hp₁, fun hlc => ⟨hget₁ hlc, hin₁⟩, hsame₁, hgrown,
    ⟨hflags₃, hflags₂, hsub hin₃, ?_, hgrown.headers hp₁.headers⟩, hin₃, hget₃, ?_⟩
  · intro k v hv
    exact plainValue_ne_nil ((hget₃ k).symm.trans hv)
  · intro hclean
    have h₃ := (shadowToMain_marked hback').eq_of_clean hclean
    have hclean₂ : t₂.dirty = false := by rw [h₃] at hclean; exact hclean
    have h₂ := (foldlM_rel Marked.refl Marked.trans mergeShadow_marked hmerge).eq_of_clean hclean₂
    have h₁ := (copyIfChanged_marked hcopy).eq_of_clean (h₂ ▸ hclean₂)
    rw [h₃, h₂, h₁]

end LightningStream.Syncer
