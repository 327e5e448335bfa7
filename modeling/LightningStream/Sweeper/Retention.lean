import LightningStream.Sweeper.Run

/-!
# Retention

The cutoff of a sweep is the current time less the retention duration, as a
timestamp. It goes through `time.Add`, the signed 64 bits of `UnixNano` and the
unsigned 64 bits of a timestamp. A time before the epoch is a negative number of
nanoseconds, and a very late timestamp.
-/

namespace LightningStream.Sweeper

open Lmdb Header

/-- `time.Duration`: nanoseconds. -/
abbrev Duration : Type := Int64

/-- `Time.Add`. A `time.Time` is a number of nanoseconds since the UNIX epoch; it
keeps seconds and nanoseconds apart and has no overflow here. -/
def addTime (t : ℤ) (d : Duration) : ℤ := t + d.toInt

/-- `Time.UnixNano`. -/
def unixNano (t : ℤ) : Int64 := Int64.ofInt t

def timestampFromTime (t : ℤ) : Timestamp := (unixNano t).toUInt64

/-- The settings of the sweeper. The retention is the result of `RetentionDuration`. -/
structure SweeperConf where
  enabled : Bool
  retentionDuration : Duration
  retentionLoadCutoffDuration : Duration
  lockDuration : Duration
deriving DecidableEq

/-- The cutoff that `sweep` computes. -/
def SweeperConf.cutoffTS (sw : SweeperConf) (now : ℤ) : Timestamp :=
  timestampFromTime (addTime now (-sw.retentionDuration))

/-- What the loop over the chunks works with. -/
def SweeperConf.conf (sw : SweeperConf) (now : ℤ) : Conf :=
  ⟨sw.cutoffTS now, sw.lockDuration.toInt⟩

/-- The retention as a number. -/
def SweeperConf.retention (sw : SweeperConf) : ℤ := sw.retentionDuration.toInt

/-- A sweep that began at a time removes only markers that are older than the
retention then. -/
def Honoured (sw : SweeperConf) (now : ℤ) : Prop :=
  ∀ (d : Dbi) (es : List Event), Along (sw.conf now) (fun s e => ¬ e.byApp →
    ∀ j v, s.dbi.get j = some v → (step (sw.conf now) s e).dbi.get j = none →
      ∃ h app, parse v = .ok (h, app) ∧ isDeleted h.flags = true ∧
        (h.timestamp.toNat : ℤ) < now - sw.retention) (start d) es

/-! ## The cutoff as a number -/

theorem timestampFromTime_toNat (t : ℤ) :
    (timestampFromTime t).toNat = (t % 2 ^ 64).toNat := by
  show (BitVec.ofInt 64 t).toNat = _
  rw [BitVec.toNat_ofInt]
  rfl

/-- The negation of a duration that is not the least one. -/
theorem toInt_neg_duration {d : Duration} (h : 0 ≤ d.toInt) : (-d).toInt = -d.toInt := by
  have hlt := d.toInt_lt
  rw [Int64.toInt_neg]
  exact Int.bmod_eq_of_le (by omega) (by omega)

theorem cutoffTS_toNat {sw : SweeperConf} (now : ℤ) (hR : 0 ≤ sw.retention) :
    ((sw.cutoffTS now).toNat : ℤ) = (now - sw.retention) % 2 ^ 64 := by
  rw [SweeperConf.cutoffTS, timestampFromTime_toNat, addTime, toInt_neg_duration hR,
    ← sub_eq_add_neg]
  exact Int.toNat_of_nonneg (Int.emod_nonneg _ (by norm_num))

theorem isStale_iff {cutoffTS : Timestamp} {v : Bytes} :
    isStale cutoffTS v = true ↔ ∃ h app, parse v = .ok (h, app) ∧ isDeleted h.flags = true ∧
      h.timestamp.toNat < cutoffTS.toNat := by
  unfold isStale
  cases hp : parse v with
  | error e => simp
  | ok r =>
      obtain ⟨h, app⟩ := r
      simp [UInt64.lt_iff_toNat_lt]

/-! ## When the retention is honoured -/

/-- A DBI with nothing but a marker. -/
def markerAt (ts : Timestamp) : Dbi where
  flags := .plain
  map := ⟨[([1], putBasic ts 0 flagDeleted)], List.pairwise_singleton _ _⟩
  allowed := by simp [KeyFlags.Allowed, KeyFlags.plain, SortedMap.keys, maxKeySize]

theorem markerAt_get (ts : Timestamp) : (markerAt ts).get [1] = some (putBasic ts 0 flagDeleted) :=
  Dbi.mem_entries_iff.mp List.mem_cons_self

theorem parse_marker (ts : Timestamp) : ∃ h, parse (putBasic ts 0 flagDeleted) = .ok (h, []) ∧
    isDeleted h.flags = true ∧ h.timestamp = ts := by
  have hp := parse_putBasic ts 0 flagDeleted []
  rw [List.append_nil] at hp
  exact ⟨_, hp, isDeleted_flagDeleted, rfl⟩

/-- A sweep removes a marker below its cutoff. -/
theorem sweep_markerAt {conf : Conf} {ts : Timestamp} (h : ts.toNat < conf.cutoffTS.toNat) :
    (step conf (start (markerAt ts)) (.chunk (fun _ => false) none)).dbi.get [1] = none := by
  obtain ⟨hd, hp, hdel, hts⟩ := parse_marker ts
  have hstale : Stale conf.cutoffTS ((markerAt ts).get [1]) := by
    rw [markerAt_get, stale_some, isStale_iff]
    exact ⟨hd, [], hp, hdel, by rw [hts]; exact h⟩
  have hvalid : ∀ k v, (markerAt ts).get k = some v → Parses v := by
    intro k v hk
    have hmem : (k, v) ∈ [(([1] : Bytes), putBasic ts 0 flagDeleted)] :=
      Dbi.mem_entries_iff.mpr hk
    obtain ⟨-, rfl⟩ := Prod.mk.inj (List.mem_singleton.mp hmem)
    exact ⟨_, hp⟩
  obtain ⟨c, hc⟩ := sweepChunk_returns conf.cutoffTS (fun _ => false)
    (sweepOptions conf.lockDuration none) hvalid
  have hlimit := sweepChunk_unlimited (fun _ => rfl) le_rfl hc
  have hswept := sweepChunk_swept hc
  have hstep : (step conf (start (markerAt ts)) (.chunk (fun _ => false) none)).dbi =
      c.txn.dbi := by
    show ((start (markerAt ts)).chunk conf (fun _ => false) none).dbi = _
    unfold State.chunk
    rw [show sweepChunk conf.cutoffTS (fun _ => false) ((start (markerAt ts)).options conf)
      (start (markerAt ts)).dbi = .ok c from hc]
    simp
  rw [hstep]
  rcases hswept.kept [1] with hk | ⟨hk, -⟩
  · exact absurd (by rw [hk]; exact hstale) (hswept.complete hlimit [1] trivial)
  · exact hk

/-- A sweep that removes a marker which is not old enough. -/
theorem not_honoured {sw : SweeperConf} {now : ℤ} {ts : Timestamp}
    (hcut : ts.toNat < (sw.cutoffTS now).toNat) (hold : now - sw.retention ≤ ts.toNat) :
    ¬ Honoured sw now := by
  intro h
  obtain ⟨hd, app, hp, -, hlt⟩ := (h (markerAt ts) [.chunk (fun _ => false) none]).1 id [1] _
    (markerAt_get ts) (sweep_markerAt hcut)
  obtain ⟨hd', hp', -, hts⟩ := parse_marker ts
  obtain ⟨rfl, -⟩ := Prod.mk.inj (Except.ok.inj (hp.symm.trans hp'))
  rw [hts] at hlt
  omega

/-- **A sweep honours the retention exactly if the retention does not reach back
behind the epoch.** -/
theorem retention_honoured_iff (sw : SweeperConf) (now : ℤ) (hnow : 0 ≤ now)
    (hR : 0 ≤ sw.retention) : Honoured sw now ↔ sw.retention ≤ now := by
  have hcut := cutoffTS_toNat now hR
  have hlt : sw.retention < 2 ^ 63 := sw.retentionDuration.toInt_lt
  constructor
  · intro h
    by_contra hold
    -- the cutoff is a negative number modulo 2 ^ 64
    have hpos : (0 : Timestamp).toNat < (sw.cutoffTS now).toNat := by
      show 0 < (sw.cutoffTS now).toNat
      omega
    exact not_honoured hpos (by push_cast; omega) h
  · intro hle d es
    refine along_of_forall _ fun e _ s happ j v hget hgone => ?_
    rcases removes_always (sw.conf now) s e happ j with hk | ⟨-, hstale⟩
    · rw [hk, hget] at hgone
      cases hgone
    · rw [hget, stale_some, isStale_iff] at hstale
      obtain ⟨hd, app, hp, hdel, hts⟩ := hstale
      refine ⟨hd, app, hp, hdel, ?_⟩
      have hts' : (hd.timestamp.toNat : ℤ) < ((sw.cutoffTS now).toNat : ℤ) := by exact_mod_cast hts
      omega

/-- The default settings: 370 days, as a product of `float32` numbers. -/
def defaultSweeper : SweeperConf := ⟨true, 31968002077360128, 0, 50000000⟩

/-- At the start of 2026. -/
theorem retention_honoured_default :
    Honoured defaultSweeper 1767225600000000000 :=
  (retention_honoured_iff defaultSweeper 1767225600000000000 (by decide) (by decide)).mpr
    (by decide)

/-- A retention of 36500 days, as a product of `float32` numbers. -/
def centurySweeper : SweeperConf := ⟨true, 3153600009333637120, 0, 50000000⟩

/-- At the start of 2026, a sweep that is to keep markers for 100 years removes
a marker made that very moment. -/
theorem century_not_honoured :
    (step (centurySweeper.conf 1767225600000000000) (start (markerAt 1767225600000000000))
        (.chunk (fun _ => false) none)).dbi.get [1] = none ∧
      ¬ Honoured centurySweeper 1767225600000000000 := by
  have hcut : (1767225600000000000 : Timestamp).toNat <
      (centurySweeper.cutoffTS 1767225600000000000).toNat := by decide +kernel
  exact ⟨sweep_markerAt hcut, not_honoured hcut (by decide +kernel)⟩

end LightningStream.Sweeper
