import LightningStream.Sweeper.Retention
import LightningStream.Syncer.ShadowTxn

/-!
# Swept markers and loads

A snapshot may still hold a deletion marker that a sweep has removed here. A load
must not bring it back, or the sweeps and loads of several instances would go on
for ever. `deletedCutoff` is the cutoff of the load: deletion markers below it are
not added. It lies a buffer above the cutoff of the sweep, because the load takes
its time before it waits for the write lock.
-/

namespace LightningStream.Sweeper

/-- The retention, less the buffer in which markers are no longer loaded. -/
def SweeperConf.retentionDurationMinusCutoff (sw : SweeperConf) : Duration :=
  let retention := sw.retentionDuration
  if 0 < sw.retentionLoadCutoffDuration then
    let buffer := sw.retentionLoadCutoffDuration
    let maxBuffer := retention * 3 / 4
    retention - (if maxBuffer < buffer then maxBuffer else buffer)
  else retention - retention / 100

/-- `deletedCutoff` of the syncer. -/
def SweeperConf.deletedCutoff (sw : SweeperConf) (now : ℤ) : Timestamp :=
  if !sw.enabled then 0
  else timestampFromTime (addTime now (-sw.retentionDurationMinusCutoff))

/-! ## The buffer -/

section Buffer

variable {sw : SweeperConf}

theorem toInt_div_duration {d : Duration} {n : Int64} (hd : 0 ≤ d.toInt) (hn : 0 < n.toInt) :
    (d / n).toInt = d.toInt / n.toInt := by
  have hlt := d.toInt_lt
  have hle : d.toInt / n.toInt ≤ d.toInt := Int.ediv_le_self _ hd
  have hpos : 0 ≤ d.toInt / n.toInt := Int.ediv_nonneg hd hn.le
  rw [Int64.toInt_div, Int.tdiv_eq_ediv_of_nonneg hd]
  exact Int.bmod_eq_of_le (by omega) (by omega)

theorem toInt_sub_duration {d b : Duration} (hb : 0 ≤ b.toInt) (hle : b.toInt ≤ d.toInt) :
    (d - b).toInt = d.toInt - b.toInt := by
  have hlt := d.toInt_lt
  rw [Int64.toInt_sub]
  exact Int.bmod_eq_of_le (by omega) (by omega)

theorem toInt_maxBuffer (hR : 0 ≤ sw.retention) (h3 : 3 * sw.retention < 2 ^ 63) :
    (sw.retentionDuration * 3 / 4).toInt = 3 * sw.retention / 4 := by
  have hthree : (sw.retentionDuration * 3).toInt = 3 * sw.retention := by
    rw [Int64.toInt_mul, show (3 : Int64).toInt = 3 from rfl, mul_comm]
    exact Int.bmod_eq_of_le (by unfold SweeperConf.retention at *; omega)
      (by unfold SweeperConf.retention at *; omega)
  rw [toInt_div_duration (by rw [hthree]; omega) (by decide), hthree]
  rfl

/-- **The buffer takes at most three quarters of the retention.** -/
theorem minusCutoff_bounds (hR : 0 ≤ sw.retention) (h3 : 3 * sw.retention < 2 ^ 63) :
    sw.retention ≤ 4 * sw.retentionDurationMinusCutoff.toInt ∧
      sw.retentionDurationMinusCutoff.toInt ≤ sw.retention := by
  have hmax := toInt_maxBuffer hR h3
  unfold SweeperConf.retentionDurationMinusCutoff
  simp only
  split
  · rename_i hbuffer
    have hpos : 0 < sw.retentionLoadCutoffDuration.toInt := Int64.lt_iff_toInt_lt.mp hbuffer
    obtain ⟨b, hb⟩ : ∃ b, b = (if sw.retentionDuration * 3 / 4 < sw.retentionLoadCutoffDuration
      then sw.retentionDuration * 3 / 4 else sw.retentionLoadCutoffDuration) := ⟨_, rfl⟩
    have hle : 0 ≤ b.toInt ∧ b.toInt ≤ 3 * sw.retention / 4 := by
      rw [hb]
      split
      · rw [hmax]
        omega
      · rename_i hle
        rw [Int64.lt_iff_toInt_lt, hmax] at hle
        omega
    have hsub : (sw.retentionDuration - b).toInt = sw.retention - b.toInt :=
      toInt_sub_duration hle.1 (by show b.toInt ≤ sw.retention; omega)
    rw [← hb, hsub]
    omega
  · have hdiv : (sw.retentionDuration / 100).toInt = sw.retention / 100 :=
      toInt_div_duration hR (by decide)
    have hsub : (sw.retentionDuration - sw.retentionDuration / 100).toInt =
        sw.retention - sw.retention / 100 := by
      rw [← hdiv]
      exact toInt_sub_duration (by rw [hdiv]; omega)
        (by rw [hdiv]; show _ ≤ sw.retention; omega)
    rw [hsub]
    omega

theorem deletedCutoff_toNat {t0 : ℤ} (henabled : sw.enabled = true)
    (hM : 0 ≤ sw.retentionDurationMinusCutoff.toInt)
    (h0 : sw.retentionDurationMinusCutoff.toInt ≤ t0) (hdef : t0 < 2 ^ 63) :
    ((sw.deletedCutoff t0).toNat : ℤ) = t0 - sw.retentionDurationMinusCutoff.toInt := by
  rw [SweeperConf.deletedCutoff, henabled]
  simp only [Bool.not_true, Bool.false_eq_true, if_false]
  rw [timestampFromTime_toNat, addTime, toInt_neg_duration hM, ← sub_eq_add_neg]
  omega

end Buffer

end LightningStream.Sweeper

namespace LightningStream.Syncer

open Lmdb Snapshot Strategy Header Sweeper

/-! ## Loads -/

section Load

variable {η : Type} {k : Bytes} {ts cutoff : Timestamp}

/-- All that a snapshot has for a key of a DBI are deletion markers of a timestamp
or older. -/
def OnlyMarkers (m : Message η) (name k : Bytes) (ts : Timestamp) : Prop :=
  ∀ dm ∈ m.databases, dm.name = name → ∀ kv ∈ dm.reading.kvs, kv.key = k →
    isDeleted kv.maskedFlags = true ∧ kv.timestampNano ≤ ts

/-- A deletion marker below the cutoff is not merged into an absent key. -/
theorem applyMessage_absent {padding : Bool} {fv cv : UInt32} {id : TxnID} {msg : Reading η}
    {t t' : Txn} (hcut : ts < cutoff)
    (hmsg : ∀ kv ∈ msg.kvs, kv.key = k → isDeleted kv.maskedFlags = true ∧ kv.timestampNano ≤ ts)
    (h : applyMessage padding cutoff fv cv id msg t = .ok t') (ht : t.dbi.get k = none) :
    t'.dbi.get k = none := by
  refine update_invariant (I := fun d => d.get k = none) ?_ (applyMessage_ok h) ht
  intro kv hkv d d' r hd hm _ hget
  rw [hget k]
  split
  · rename_i hk
    change k = kv.key at hk
    obtain ⟨hdel, hts⟩ := hmsg kv hkv hk.symm
    have hold : oldVal d kv.key = [] := by
      rw [oldVal, show d.get kv.key = none from hk ▸ hd]
      rfl
    have hmerge : (loadIterator padding cutoff fv id).merge kv [] = .ok none := by
      unfold NativeIterator.merge
      rw [if_pos rfl, if_pos ⟨hdel, lt_of_le_of_lt hts hcut⟩]
    have hm' := mapError_eq_ok.mp hm
    change (loadIterator padding cutoff fv id).merge kv (oldVal d kv.key) = .ok r at hm'
    rw [hold, hmerge] at hm'
    rw [← Except.ok.inj hm']
    rfl
  · exact hd

/-- A DBI that lacks the key. -/
def Lacks (c : Contents) (name k : Bytes) : Prop := ∃ d, c.get name = some d ∧ d.get k = none

theorem createTarget_lacks {o : LoadOptions} {t t' : EnvTxn} {dm : DbiMsg η} {name : Bytes}
    (h : createTarget o t dm = .ok t') (ht : Lacks t.contents name k) :
    Lacks t'.contents name k := by
  unfold createTarget at h
  split at h
  · rw [← Except.ok.inj h]
    exact ht
  · rename_i hnone
    simp only at h
    split at h
    · obtain ⟨d, hd, hk⟩ := ht
      refine ⟨d, ?_, hk⟩
      rw [EnvTxn.create_eq_ok (mapError_eq_ok.mp h), if_neg]
      · exact hd
      · rintro rfl
        rw [hd] at hnone
        exact hnone rfl
    · cases h

theorem loadOnce_lacks {o : LoadOptions} {txnID : TxnID} {m : Message η} {c : Contents}
    {t' : EnvTxn} {name : Bytes} (hcut : ts < cutoff) (hm : OnlyMarkers m name k ts)
    (hc : Lacks c name k) (h : loadOnce o cutoff txnID m c = .ok t') :
    Lacks t'.contents name k := by
  refine foldlM_invariant (I := fun t : EnvTxn => Lacks t.contents name k)
    (fun dm hdm t t' ht hone => ?_) h hc
  unfold loadDbi at hone
  split at hone
  · rw [← Except.ok.inj hone]
    exact ht
  · obtain ⟨_, -, hone⟩ := bind_eq_ok.mp hone
    obtain ⟨t₁, htarget, hone⟩ := bind_eq_ok.mp hone
    obtain ⟨d, r, hd, hr, -, hget⟩ := EnvTxn.onDbi_eq_ok hone
    obtain ⟨d₁, hd₁, hk⟩ := createTarget_lacks htarget ht
    by_cases hname : name = dm.name
    · subst hname
      obtain rfl := Option.some.inj (hd.symm.trans hd₁)
      refine ⟨r.dbi, by rw [hget, if_pos rfl], ?_⟩
      exact applyMessage_absent hcut (hm dm hdm rfl) (mapError_eq_ok.mp hr) hk
    · exact ⟨d₁, by rw [hget, if_neg hname]; exact hd₁, hk⟩

theorem mainToShadow_absent {name : Bytes} {now : Timestamp} {id : TxnID} {main : Dbi}
    {t t' : Txn} (hmain : main.get k = none) (ht : t.dbi.get k = none)
    (h : mainToShadow name cutoff now id main t = .ok t') : t'.dbi.get k = none := by
  rw [mainToShadow_eq (mainToShadow_txnID h)] at h
  refine iterUpdate_absent ?_ ht (mapError_eq_ok.mp h)
  show k ∉ (main.entries.map rawKv).map Kv.key
  rw [keys_rawKv]
  exact Dbi.get_eq_none_iff.mp hmain

theorem shadowToMain_absent {name : Bytes} {shadow : Dbi} {t t' : Txn}
    (hshadow : shadow.get k = none) (ht : t.dbi.get k = none)
    (h : shadowToMain name shadow t = .ok t') : t'.dbi.get k = none := by
  rw [shadowToMain_eq (shadowToMain_sorted h).1] at h
  refine iterUpdate_absent ?_ ht (mapError_eq_ok.mp h)
  show k ∉ (shadow.entries.map headerKv).map Kv.key
  rw [keys_headerKv]
  exact Dbi.get_eq_none_iff.mp hshadow

theorem loadShadowed_absent {o : ShadowOptions} {changed : Bool} {now : Timestamp} {txnID : ℕ}
    {dirty : Bool} {m : Message η} {d : Shadowed} {r : Shadowed × Bool} (hcut : ts < cutoff)
    (hm : OnlyMarkers m o.dbiName k ts) (hmain : d.main.get k = none)
    (hshadow : d.shadow.get k = none)
    (h : loadShadowed o changed cutoff now txnID dirty m d = .ok r) :
    r.1.main.get k = none ∧ r.1.shadow.get k = none := by
  unfold loadShadowed at h
  obtain ⟨sh, hcopy, h⟩ := bind_eq_ok.mp h
  obtain ⟨sh', hmerge, h⟩ := bind_eq_ok.mp h
  obtain ⟨mn, hback, h⟩ := bind_eq_ok.mp h
  have hsh : sh.dbi.get k = none := by
    unfold copyIfChanged at hcopy
    split at hcopy
    · exact mainToShadow_absent hmain hshadow (mapError_eq_ok.mp hcopy)
    · rw [← Except.ok.inj hcopy]
      exact hshadow
  have hsh' : sh'.dbi.get k = none := by
    refine foldlM_invariant (I := fun t : Txn => t.dbi.get k = none)
      (fun dm hdm t t' ht hone => ?_) hmerge hsh
    unfold mergeShadow at hone
    split at hone
    · rename_i hname
      obtain ⟨_, -, hone⟩ := bind_eq_ok.mp hone
      exact applyMessage_absent hcut (hm dm hdm hname) (mapError_eq_ok.mp hone) ht
    · rw [← Except.ok.inj hone]
      exact ht
  rw [← Except.ok.inj h]
  exact ⟨shadowToMain_absent hsh' hmain (mapError_eq_ok.mp hback), hsh'⟩

end Load

/-! ## Sweep and load -/

/-- A load that began at a time does not bring back a key of which a snapshot has
only deletion markers up to a timestamp, in either mode. -/
structure NotReadded (sw : SweeperConf) (t0 : ℤ) (k : Bytes) (ts : Timestamp) : Prop where
  native : ∀ (η : Type) (o : LoadOptions) (txnID : TxnID) (m : Message η) (name : Bytes)
    (c : Contents) (t' : EnvTxn), OnlyMarkers m name k ts → Lacks c name k →
    loadOnce o (sw.deletedCutoff t0) txnID m c = .ok t' → Lacks t'.contents name k
  shadow : ∀ (η : Type) (o : ShadowOptions) (changed : Bool) (now : Timestamp) (txnID : ℕ)
    (dirty : Bool) (m : Message η) (d d' : Shadowed) (dirty' : Bool),
    OnlyMarkers m o.dbiName k ts → d.main.get k = none → d.shadow.get k = none →
    loadShadowed o changed (sw.deletedCutoff t0) now txnID dirty m d = .ok (d', dirty') →
    d'.main.get k = none ∧ d'.shadow.get k = none

/-- The sweep that took its cutoff at `t1` removes the marker of a key. -/
def SweptAt (sw : SweeperConf) (t1 : ℤ) (k : Bytes) (ts : Timestamp) : Prop :=
  ∃ (s : Sweeper.State) (e : Sweeper.Event) (v app : Bytes) (h : Header),
    ¬ e.byApp ∧ s.dbi.get k = some v ∧ parse v = .ok (h, app) ∧ h.timestamp = ts ∧
      (Sweeper.step (sw.conf t1) s e).dbi.get k = none

theorem sweptAt_lt {sw : SweeperConf} {t1 : ℤ} {k : Bytes} {ts : Timestamp}
    (hR : 0 ≤ sw.retention) (ht1 : sw.retention ≤ t1) (h : SweptAt sw t1 k ts) :
    (ts.toNat : ℤ) < t1 - sw.retention := by
  obtain ⟨s, e, v, app, hd, happ, hget, hp, rfl, hgone⟩ := h
  have hcut := cutoffTS_toNat t1 hR
  rcases removes_always (sw.conf t1) s e happ k with hk | ⟨-, hstale⟩
  · rw [hk, hget] at hgone
    cases hgone
  · rw [hget, stale_some, isStale_iff] at hstale
    obtain ⟨hd', app', hp', -, hts⟩ := hstale
    obtain ⟨rfl, -⟩ := Prod.mk.inj (Except.ok.inj (hp.symm.trans hp'))
    change hd.timestamp.toNat < (sw.cutoffTS t1).toNat at hts
    omega

/-- **Swept markers are not loaded again**, if the load began early enough before the
sweep for its buffer; and the buffer leaves between a quarter and all of the
retention. -/
theorem swept_not_readded (sw : SweeperConf) (henabled : sw.enabled = true)
    (hR : 0 ≤ sw.retention) (h3 : 3 * sw.retention < 2 ^ 63) (t0 t1 : ℤ)
    (ht1 : sw.retention ≤ t1) (hdef : t0 < 2 ^ 63)
    (hclose : t1 - t0 ≤ sw.retention - sw.retentionDurationMinusCutoff.toInt) :
    (∀ k ts, SweptAt sw t1 k ts → NotReadded sw t0 k ts) ∧
      sw.retention ≤ 4 * sw.retentionDurationMinusCutoff.toInt ∧
      sw.retentionDurationMinusCutoff.toInt ≤ sw.retention := by
  have hbounds := minusCutoff_bounds hR h3
  refine ⟨fun k ts hswept => ?_, hbounds⟩
  have hcut : ts < sw.deletedCutoff t0 := by
    have hts := sweptAt_lt hR ht1 hswept
    have hdel := deletedCutoff_toNat henabled (by omega) (by omega) hdef
    rw [UInt64.lt_iff_toNat_lt]
    omega
  exact ⟨fun _ _ _ _ _ _ _ hm hc h => loadOnce_lacks hcut hm hc h,
    fun _ _ _ _ _ _ _ _ _ _ hm hmain hshadow h => loadShadowed_absent hcut hm hmain hshadow h⟩

/-- With the default settings, a load of the same minute. -/
theorem swept_not_readded_default :
    (∀ k ts, SweptAt defaultSweeper 1767225660000000000 k ts →
      NotReadded defaultSweeper 1767225600000000000 k ts) ∧
      defaultSweeper.retention ≤ 4 * defaultSweeper.retentionDurationMinusCutoff.toInt ∧
      defaultSweeper.retentionDurationMinusCutoff.toInt ≤ defaultSweeper.retention :=
  swept_not_readded defaultSweeper rfl (by decide +kernel) (by decide +kernel)
    1767225600000000000 1767225660000000000 (by decide +kernel) (by decide +kernel)
    (by decide +kernel)

/-- A negative retention, and none. -/
def negativeSweeper : SweeperConf := ⟨true, -1000, 0, 50000000⟩
def noRetention : SweeperConf := ⟨true, 0, 0, 50000000⟩

/-- With a negative retention the buffer adds to it. And at `2 ^ 64` nanoseconds the
cutoff of a load is 0, so a marker that the sweep at the nanosecond before takes for
stale is merged again. -/
theorem swept_readded_outside :
    3 * negativeSweeper.retention < 2 ^ 63 ∧
      negativeSweeper.retention < negativeSweeper.retentionDurationMinusCutoff.toInt ∧
      ((2 ^ 64 - 1 : ℤ) - 2 ^ 64 ≤
        noRetention.retention - noRetention.retentionDurationMinusCutoff.toInt) ∧
      isStale (noRetention.cutoffTS (2 ^ 64 - 1)) (putBasic 5 0 flagDeleted) = true ∧
      (loadIterator false (noRetention.deletedCutoff (2 ^ 64)) 3 1).merge ⟨[1], [], 5, 1⟩ [] =
        .ok (some (putBasic 5 1 flagDeleted)) := by
  decide +kernel

end LightningStream.Syncer
