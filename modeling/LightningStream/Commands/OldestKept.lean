import LightningStream.Commands.FixDuplicateDomains

/-!
# The repair keeps the oldest entry

The walk sees the entries of a domain one after the other, in the order of their
IDs, and keeps the oldest of those it has seen: a running minimum. Whatever it
has seen besides is moved (`Lost`). The entries it adds lie ahead of the cursor,
each in a domain of its own, so that the walk comes to them but never compares
two of them.

Between two entries of one domain there may be deleted ones, which the walk
skips, but no entry of another domain; so the entry kept is always one of the
domain at hand or of a domain whose entries have all been seen.
-/

namespace LightningStream.Commands

open Lmdb

/-! ## The position of the walk -/

/-- The cursor is at the key or behind it. -/
def Reached : Scanner → Bytes → Prop
  | .fresh, _ => False
  | .on e _, k => k ≤ e.1
  | .ended, _ => True

instance (sc : Scanner) (k : Bytes) : Decidable (Reached sc k) :=
  match sc with
  | .fresh => isFalse id
  | .on e _ => inferInstanceAs (Decidable (k ≤ e.1))
  | .ended => isTrue trivial

/-- The next `Scan` moves on. -/
def Settled : Scanner → Prop
  | .on _ pending => pending = false
  | _ => True

/-- The cursor goes on to `k`, the first key ahead of it. -/
structure Advances (d : Dbi) (sc : Scanner) (k : Bytes) : Prop where
  lt : ∀ j, Reached sc j → j < k
  least : ∀ j ∈ d.keys, ¬ Reached sc j → k ≤ j

section Position

variable {d d' : Dbi} {sc : Scanner} {j k v : Bytes}

theorem Reached.mono (h : Reached sc k) (hj : j ≤ k) : Reached sc j := by
  cases sc with
  | fresh => exact h
  | on e pending => exact hj.trans h
  | ended => trivial

theorem scan_least (hplain : d.flags = KeyFlags.plain) (hs : Settled sc) :
    ∃ o, sc.scan d = Scanner.place false o ∧ d.Least (fun k => ¬ Reached sc k) o := by
  cases sc with
  | fresh => exact ⟨_, rfl, d.first_least.congr fun j _ => iff_of_true trivial not_false⟩
  | on e pending =>
      obtain rfl : pending = false := hs
      refine ⟨_, rfl, (d.next_least e.1).congr fun j _ => ?_⟩
      rw [Dbi.before, hplain]
      exact not_le.symm
  | ended => exact ⟨none, rfl, fun j _ h => h trivial⟩

/-- A scan goes on to the first key ahead, or there is none. -/
theorem scan_cases (hplain : d.flags = KeyFlags.plain) (hs : Settled sc) :
    (∃ k v, sc.scan d = .on (k, v) false ∧ d.get k = some v ∧ Advances d sc k) ∨
      sc.scan d = .ended ∧ ∀ j ∈ d.keys, Reached sc j := by
  obtain ⟨o, hscan, hleast⟩ := scan_least hplain hs
  cases o with
  | none => exact Or.inr ⟨hscan, fun j hj => not_not.mp (hleast j hj)⟩
  | some e =>
      obtain ⟨hnew, hget, hle⟩ := hleast
      refine Or.inl ⟨e.1, e.2, hscan, hget, fun j hj => ?_, fun j hj hnot => ?_⟩
      · exact not_le.mp fun h => hnew (hj.mono h)
      · have := hle j hj hnot
        rwa [hplain] at this

theorem Advances.not_reached (h : Advances d sc k) : ¬ Reached sc k :=
  fun hk => lt_irrefl k (h.lt k hk)

theorem Advances.reached_iff (h : Advances d sc k) (hj : j ∈ d.keys) :
    Reached (.on (k, v) false) j ↔ Reached sc j ∨ j = k := by
  constructor
  · intro hle
    by_cases hr : Reached sc j
    · exact Or.inl hr
    · exact Or.inr (le_antisymm hle (h.least j hj hr))
  · rintro (hr | rfl)
    · exact (h.lt j hr).le
    · exact le_rfl

end Position

/-! ## Entries seen -/

/-- The ages of the live entries of a domain up to the cursor. -/
def Seen (d : Dbi) (sc : Scanner) (domain : Bytes) : Set (Timestamp ×ₗ UInt32) :=
  {x | LiveAt d domain (ofLex x).2 (ofLex x).1 ∧ Reached sc (domainKey domain (ofLex x).2)}

/-- The entry was seen, and an older one as well. -/
def Lost (d : Dbi) (sc : Scanner) (domain : Bytes) (id : UInt32) : Prop :=
  ∃ ts, age ts id ∈ Seen d sc domain ∧ ∃ x ∈ Seen d sc domain, x < age ts id

section Seen

variable {d d' : Dbi} {sc sc' : Scanner} {a b : Bytes} {i j : UInt32} {ts : Timestamp}
  {k : Bytes} {x : Timestamp ×ₗ UInt32}

theorem age_mem_seen : age ts i ∈ Seen d sc a ↔ LiveAt d a i ts ∧ Reached sc (domainKey a i) :=
  Iff.rfl

theorem Lost.superseded (h : Lost d sc a i) : Superseded d a i := by
  obtain ⟨ts, hmem, x, hx, hlt⟩ := h
  exact ⟨ts, hmem.1, (ofLex x).1, (ofLex x).2, hx.1, hlt⟩

theorem Lost.mem_keys (h : Lost d sc a i) : domainKey a i ∈ d.keys := by
  obtain ⟨ts, hmem, -⟩ := h
  exact hmem.1.mem_keys

theorem Lost.reached (h : Lost d sc a i) : Reached sc (domainKey a i) := by
  obtain ⟨ts, hmem, -⟩ := h
  exact hmem.2

theorem lost_ended_iff : Lost d .ended a i ↔ Superseded d a i := by
  refine ⟨Lost.superseded, ?_⟩
  rintro ⟨ts, hlive, ts', i', hlive', hlt⟩
  exact ⟨ts, ⟨hlive, trivial⟩, age ts' i', ⟨hlive', trivial⟩, hlt⟩

/-- What was lost depends on what was seen. -/
theorem lost_congr (h : Seen d sc' a = Seen d sc a) : Lost d sc' a i ↔ Lost d sc a i := by
  unfold Lost
  rw [h]

/-- Of what was seen, everything but the oldest entry is lost. -/
theorem lost_iff (h : IsLeast (Seen d sc a) x) :
    Lost d sc a i ↔ ∃ ts, age ts i ∈ Seen d sc a \ {x} := by
  refine exists_congr fun ts => and_congr_right fun hmem => ?_
  constructor
  · rintro ⟨y, hy, hlt⟩ rfl
    exact absurd (h.2 hy) (not_le.mpr hlt)
  · intro hne
    exact ⟨x, h.1, lt_of_le_of_ne (h.2 hmem) (Ne.symm hne)⟩

theorem seen_congr (h : ∀ i ts, LiveAt d a i ts →
    (Reached sc' (domainKey a i) ↔ Reached sc (domainKey a i))) : Seen d sc' a = Seen d sc a := by
  ext x
  exact and_congr_right fun hlive => h _ _ hlive

/-- One step of a running minimum: the larger of the new element and the least one
joins those set aside. -/
theorem insert_diff_min {α : Type} [LinearOrder α] {S : Set α} {x m : α} (hm : m ∈ S)
    (hx : x ∉ S) : insert x S \ {min x m} = insert (max x m) (S \ {m}) := by
  have hne : x ≠ m := fun h => hx (h ▸ hm)
  ext y
  rcases hne.lt_or_gt with h | h
  · rw [min_eq_left h.le, max_eq_right h.le]
    by_cases hy : y = x
    · simp [hy, hx, hne]
    · by_cases hym : y = m <;> simp [hy, hym, hm, hne.symm]
  · rw [min_eq_right h.le, max_eq_left h.le]
    by_cases hy : y = x <;> simp [hy, hne]

/-- The cursor comes to an entry of another domain, or to none that is live. -/
theorem Advances.seen_other (h : Advances d' sc k) (hsub : ∀ j ∈ d.keys, j ∈ d'.keys) (v : Bytes)
    (hk : ∀ i ts, LiveAt d a i ts → domainKey a i ≠ k) :
    Seen d (.on (k, v) false) a = Seen d sc a := by
  refine seen_congr fun i ts hlive => ?_
  rw [h.reached_iff (hsub _ hlive.mem_keys)]
  exact or_iff_left (hk i ts hlive)

/-- The cursor comes to a key of another domain. -/
theorem Advances.seen_domain (h : Advances d' sc (domainKey b j)) (hsub : ∀ j ∈ d.keys, j ∈ d'.keys)
    (hb : b.length < 2 ^ 16) (hne : a ≠ b) (v : Bytes) :
    Seen d (.on (domainKey b j, v) false) a = Seen d sc a := by
  refine h.seen_other hsub v fun i ts hlive heq => hne ?_
  exact (domainKey_inj hlive.length_lt hb heq).1

/-- The cursor comes to a live entry of the domain. -/
theorem Advances.seen_live (h : Advances d' sc (domainKey a i)) (hsub : ∀ j ∈ d.keys, j ∈ d'.keys)
    (v : Bytes) (hlive : LiveAt d a i ts) :
    Seen d (.on (domainKey a i, v) false) a = insert (age ts i) (Seen d sc a) := by
  ext x
  rw [Set.mem_insert_iff]
  constructor
  · rintro ⟨hx, hr⟩
    rcases (h.reached_iff (hsub _ hx.mem_keys)).mp hr with hr | heq
    · exact Or.inr ⟨hx, hr⟩
    · have hid := (domainKey_inj hx.length_lt hx.length_lt heq).2
      rw [hid] at hx
      exact Or.inl (toLex_inj.mpr (Prod.ext (hx.unique hlive) hid))
  · rintro (rfl | ⟨hx, hr⟩)
    · exact ⟨hlive, le_rfl⟩
    · exact ⟨hx, (h.lt _ hr).le⟩

end Seen

/-! ## The invariant -/

/-- The entry kept: none yet, an added one, or the oldest one seen of its domain. -/
inductive Prev (d : Dbi) (sc : Scanner) : Bytes → Timestamp → UInt32 → Prop
  | none (ts : Timestamp) (id : UInt32) : Prev d sc [] ts id
  | added {a : Bytes} {i : UInt32} (ts : Timestamp) (id : UInt32) :
      Reached sc (domainKey (newDomain i a) i) → Prev d sc (newDomain i a) ts id
  | oldest {a : Bytes} {ts : Timestamp} {id : UInt32} :
      IsLeast (Seen d sc a) (age ts id) → Prev d sc a ts id

/-- The walk over the index `d` is at `sc`, has made it `d'`, and has kept an entry
of the domain `prevDomain`. -/
structure Sound (d : Dbi) (sc : Scanner) (d' : Dbi) (prevDomain : Bytes) (ts : Timestamp)
    (id : UInt32) : Prop where
  settled : Settled sc
  moved : Moved d (Lost d sc) d'
  parsed : ∀ k v, d.get k = some v → Reached sc k → ∃ p, Header.parse v = .ok p
  prev : Prev d sc prevDomain ts id
  /-- The other domains are seen in full or not at all. -/
  finished : ∀ a, a ≠ prevDomain → (Seen d sc a).Nonempty →
    ∀ i ts, LiveAt d a i ts → Reached sc (domainKey a i)

theorem sound_start (d : Dbi) : Sound d .fresh d [] 0 0 where
  settled := trivial
  moved := (moved_refl d).congr fun a i => iff_false_intro fun h => h.reached
  parsed _ _ _ h := h.elim
  prev := Prev.none 0 0
  finished a _ h := by
    obtain ⟨x, hx⟩ := h
    exact hx.2.elim

namespace Sound

variable {d d' : Dbi} {sc : Scanner} {prevDomain : Bytes} {ts ts' : Timestamp} {id : UInt32}
  {a b : Bytes} {i j : UInt32} {k v : Bytes}

theorem mem_keys (h : Sound d sc d' prevDomain ts id) : ∀ j ∈ d.keys, j ∈ d'.keys :=
  fun _ hj => h.moved.mem_keys hj

/-- The entry the cursor comes to is as it was, or an added one. -/
theorem entry (hd : Repairable d) (h : Sound d sc d' prevDomain ts id) (hadv : Advances d' sc k)
    (hget : d'.get k = some v) :
    d.get k = some v ∨ ∃ a i ts txnID, k = domainKey (newDomain i a) i ∧ k ∉ d.keys ∧
      v = Header.putBasic ts txnID Header.noFlags := by
  rcases h.moved.cases k with heq | ⟨a, i, hlost, rfl⟩ | ⟨a, i, hlost, rfl⟩
  · exact Or.inl (heq.symm.trans hget)
  · exact absurd hlost.reached hadv.not_reached
  · obtain ⟨ts, txnID, hadded⟩ := h.moved.added a i hlost
    refine Or.inr ⟨a, i, ts, txnID, rfl, fun hmem => ?_, Option.some.inj (hget.symm.trans hadded)⟩
    exact hd.names _ _ hmem (isRenamed_newDomain i a)

theorem parsed_move (h : Sound d sc d' prevDomain ts id) (hadv : Advances d' sc k)
    (hk : ∀ w, d.get k = some w → ∃ p, Header.parse w = .ok p) (j w : Bytes)
    (hj : d.get j = some w) (hr : Reached (.on (k, v) false) j) :
    ∃ p, Header.parse w = .ok p := by
  rcases (hadv.reached_iff (h.mem_keys j (Dbi.mem_keys_iff.mpr ⟨w, hj⟩))).mp hr with hr | rfl
  · exact h.parsed j w hj hr
  · exact hk w hj

/-- When the cursor comes to a domain, the other ones are seen in full or not at all. -/
theorem finished_move (h : Sound d sc d' prevDomain ts id) (hadv : Advances d' sc (domainKey b j))
    (hb : b.length < 2 ^ 16) (a : Bytes) (hne : a ≠ b)
    (hseen : (Seen d (.on (domainKey b j, v) false) a).Nonempty) (i : UInt32) (ts : Timestamp)
    (hlive : LiveAt d a i ts) : Reached (.on (domainKey b j, v) false) (domainKey a i) := by
  rw [hadv.seen_domain h.mem_keys hb hne] at hseen
  by_cases hr : Reached sc (domainKey a i)
  · exact (hadv.lt _ hr).le
  · -- the cursor would be between two entries of `a`
    obtain ⟨x, -, hx⟩ := hseen
    exact absurd (domainKey_between hlive.length_lt hb (hadv.lt _ hx)
      (hadv.least _ (h.mem_keys _ hlive.mem_keys) hr)).symm hne

/-- The cursor comes to an entry that is not live. -/
theorem skip (h : Sound d sc d' prevDomain ts id) (hadv : Advances d' sc k)
    (hk : ∀ a i ts, LiveAt d a i ts → domainKey a i ≠ k)
    (hparse : ∀ w, d.get k = some w → ∃ p, Header.parse w = .ok p) :
    Sound d (.on (k, v) false) d' prevDomain ts id := by
  have hseen : ∀ a, Seen d (.on (k, v) false) a = Seen d sc a :=
    fun a => hadv.seen_other h.mem_keys v (hk a)
  refine ⟨rfl, h.moved.congr fun a i => lost_congr (hseen a), h.parsed_move hadv hparse, ?_, ?_⟩
  · cases h.prev with
    | none => exact Prev.none ts id
    | added _ _ hr => exact Prev.added ts id (hadv.lt _ hr).le
    | oldest hleast => exact Prev.oldest (by rwa [hseen])
  · intro a hne hmem i ts hlive
    rw [hseen] at hmem
    exact (hadv.lt _ (h.finished a hne hmem i ts hlive)).le

/-- The cursor comes to an added entry. -/
theorem added (h : Sound d sc d' prevDomain ts id)
    (hadv : Advances d' sc (domainKey (newDomain i a) i))
    (hnew : domainKey (newDomain i a) i ∉ d.keys) (hlen : (newDomain i a).length < 2 ^ 16)
    (ts' : Timestamp) (id' : UInt32) :
    Sound d (.on (domainKey (newDomain i a) i, v) false) d' (newDomain i a) ts' id' := by
  have hskip : Sound d (.on (domainKey (newDomain i a) i, v) false) d' prevDomain ts id := by
    refine h.skip hadv (fun b j ts hlive heq => hnew (heq ▸ hlive.mem_keys)) fun w hw => ?_
    exact absurd (Dbi.mem_keys_iff.mpr ⟨w, hw⟩) hnew
  exact ⟨rfl, hskip.moved, hskip.parsed, Prev.added ts' id' le_rfl, h.finished_move hadv hlen⟩

/-- The cursor comes to the first entry of a domain. -/
theorem first (h : Sound d sc d' prevDomain ts id) (hadv : Advances d' sc (domainKey b j))
    (hlive : LiveAt d b j ts') (hne : b ≠ prevDomain) :
    Sound d (.on (domainKey b j, v) false) d' b ts' j := by
  have hnone : Seen d sc b = ∅ := by
    by_contra hsome
    exact hadv.not_reached
      (h.finished b hne (Set.nonempty_iff_ne_empty.mpr hsome) j ts' hlive)
  have hseen : Seen d (.on (domainKey b j, v) false) b = {age ts' j} := by
    rw [hadv.seen_live h.mem_keys v hlive, hnone, insert_empty_eq]
  have hleast : IsLeast (Seen d (.on (domainKey b j, v) false) b) (age ts' j) := by
    rw [hseen]
    exact isLeast_singleton
  refine ⟨rfl, h.moved.congr fun a i => ?_, h.parsed_move hadv fun w hw => ?_,
    Prev.oldest hleast, h.finished_move hadv hlive.length_lt⟩
  · by_cases hab : a = b
    · subst hab
      rw [lost_iff hleast, hseen]
      simp [Lost, hnone]
    · exact lost_congr (hadv.seen_domain h.mem_keys hlive.length_lt hab v)
  · obtain ⟨hdr, app, hparse, -⟩ := hlive.parse hw
    exact ⟨_, hparse⟩

/-- The entry kept for the domain of a live entry is the oldest one seen. -/
theorem oldest (hd : Repairable d) (h : Sound d sc d' prevDomain ts id)
    (hlive : LiveAt d prevDomain j ts') : IsLeast (Seen d sc prevDomain) (age ts id) := by
  have hmem := hlive.mem_keys
  obtain ⟨v, hdr, app, hget, hparse, hflags, -⟩ := hlive
  cases h.prev with
  | none =>
      obtain ⟨a, i, hkey, hne⟩ := hd.keys _ v hdr app hget hparse hflags
      rw [hkey] at hmem
      exact absurd (domainKey_inj (by decide) (length_lt_of_mem hmem) hkey).1.symm hne
  | added => exact absurd (isRenamed_newDomain _ _) (hd.names _ _ hmem)
  | oldest hleast => exact hleast

section Again

variable {ts₀ ts₁ : Timestamp} {i₀ i₁ : UInt32}

/-- The entries compared are in the order of their IDs. -/
theorem prevID_lt (hadv : Advances d' sc (domainKey a j))
    (hleast : IsLeast (Seen d sc a) (age ts id)) : id < j :=
  (domainKey_lt_same hleast.1.1.length_lt).mp (hadv.lt _ hleast.1.2)

theorem notMem_seen (hadv : Advances d' sc (domainKey a j)) : age ts' j ∉ Seen d sc a :=
  fun hmem => hadv.not_reached hmem.2

/-- The newer of the two entries compared is lost. -/
theorem lost_again (h : Sound d sc d' prevDomain ts id)
    (hadv : Advances d' sc (domainKey prevDomain j)) (hlive : LiveAt d prevDomain j ts')
    (hleast : IsLeast (Seen d sc prevDomain) (age ts id))
    (hmax : max (age ts' j) (age ts id) = age ts₁ i₁) (b : Bytes) (i : UInt32) :
    Lost d (.on (domainKey prevDomain j, v) false) b i ↔
      Lost d sc b i ∨ b = prevDomain ∧ i = i₁ := by
  by_cases hb : b = prevDomain
  · subst hb
    have hseen := hadv.seen_live h.mem_keys v hlive
    have hleast' := hleast.insert (age ts' j)
    rw [← hseen] at hleast'
    rw [lost_iff hleast', lost_iff hleast, hseen, insert_diff_min hleast.1 (notMem_seen hadv), hmax]
    constructor
    · rintro ⟨ts, heq | hmem⟩
      · exact Or.inr ⟨rfl, (age_inj heq).2⟩
      · exact Or.inl ⟨ts, hmem⟩
    · rintro (⟨ts, hmem⟩ | ⟨-, rfl⟩)
      · exact ⟨ts, Or.inr hmem⟩
      · exact ⟨ts₁, Or.inl rfl⟩
  · rw [lost_congr (hadv.seen_domain h.mem_keys hlive.length_lt hb v)]
    exact (or_iff_left fun hp => hb hp.1).symm

/-- The cursor comes to another entry of the domain. -/
theorem again {d'' : Dbi} (h : Sound d sc d' prevDomain ts id)
    (hadv : Advances d' sc (domainKey prevDomain j)) (hlive : LiveAt d prevDomain j ts')
    (hleast : IsLeast (Seen d sc prevDomain) (age ts id))
    (hmin : min (age ts' j) (age ts id) = age ts₀ i₀)
    (hmoved : Moved d (Lost d (.on (domainKey prevDomain j, v) false)) d'') :
    Sound d (.on (domainKey prevDomain j, v) false) d'' prevDomain ts₀ i₀ := by
  refine ⟨rfl, hmoved, h.parsed_move hadv fun w hw => ?_, Prev.oldest ?_,
    h.finished_move hadv hlive.length_lt⟩
  · obtain ⟨hdr, app, hparse, -⟩ := hlive.parse hw
    exact ⟨_, hparse⟩
  · rw [hadv.seen_live h.mem_keys v hlive, ← hmin]
    exact hleast.insert _

end Again

/-- At the end of the walk every entry but the oldest of each domain is moved. -/
theorem ended (h : Sound d sc d' prevDomain ts id) (hall : ∀ j ∈ d'.keys, Reached sc j) :
    Moved d (Superseded d) d' ∧ ∀ k v, d.get k = some v → ∃ p, Header.parse v = .ok p := by
  constructor
  · refine h.moved.congr fun a i => ?_
    rw [← lost_ended_iff]
    refine lost_congr (seen_congr fun i ts hlive => ?_)
    exact iff_of_true trivial (hall _ (h.mem_keys _ hlive.mem_keys))
  · intro k v hget
    exact h.parsed k v hget (hall k (h.mem_keys k (Dbi.mem_keys_iff.mpr ⟨v, hget⟩)))

end Sound

/-! ## The rounds of the walk -/

/-- The keys ahead of the cursor. -/
def ahead (d : Dbi) (sc : Scanner) : Finset Bytes :=
  d.keys.toFinset.filter fun k => ¬ Reached sc k

theorem mem_ahead {d : Dbi} {sc : Scanner} {k : Bytes} :
    k ∈ ahead d sc ↔ k ∈ d.keys ∧ ¬ Reached sc k := by
  rw [ahead, Finset.mem_filter, List.mem_toFinset]

theorem Advances.ahead_eq {d d' : Dbi} {sc : Scanner} {k : Bytes} (h : Advances d' sc k)
    (hsub : ∀ j ∈ d.keys, j ∈ d'.keys) (v : Bytes) :
    ahead d (.on (k, v) false) = (ahead d sc).erase k := by
  ext j
  rw [Finset.mem_erase, mem_ahead, mem_ahead, and_left_comm]
  refine and_congr_right fun hj => ?_
  rw [h.reached_iff (hsub j hj), not_or, and_comm]

theorem Advances.card_ahead_lt {d d' : Dbi} {sc : Scanner} {k : Bytes} (h : Advances d' sc k)
    (hsub : ∀ j ∈ d.keys, j ∈ d'.keys) (hk : k ∈ d.keys) (v : Bytes) :
    (ahead d (.on (k, v) false)).card < (ahead d sc).card := by
  rw [h.ahead_eq hsub]
  exact Finset.card_erase_lt_of_mem (mem_ahead.mpr ⟨hk, h.not_reached⟩)

namespace Fixing

protected def Sound (d : Dbi) (s : Fixing) : Prop :=
  Commands.Sound d s.scan s.txn.dbi s.prevDomain s.prevHeader.timestamp s.prevID

/-- Every entry of the index may be visited twice: as it is, and where it is moved to. -/
def work (d : Dbi) (s : Fixing) : ℕ :=
  (ahead s.txn.dbi s.scan).card + (ahead d s.scan).card

/-- `s'` is `s` with the cursor on an entry. -/
structure At (s s' : Fixing) (k v : Bytes) : Prop where
  scan : s'.scan = .on (k, v) false
  txn : s'.txn = s.txn
  prevDomain : s'.prevDomain = s.prevDomain
  prevHeader : s'.prevHeader = s.prevHeader
  prevID : s'.prevID = s.prevID

variable {d : Dbi} {s s' s₁ : Fixing} {a b : Bytes} {i j : UInt32} {k v : Bytes} {hdr : Header}
  (now : ℕ → Timestamp) (txnID : TxnID)

theorem At.list (h : At s s' k v) (b : Bytes) : At s (s'.list b) k v := by
  unfold Fixing.list
  split
  · exact ⟨h.scan, h.txn, h.prevDomain, h.prevHeader, h.prevID⟩
  · exact h

/-- A round that writes nothing. -/
theorem work_lt (h : s.Sound d) (hadv : Advances s.txn.dbi s.scan k) (hk : k ∈ s.txn.dbi.keys)
    (hscan : s'.scan = .on (k, v) false) (htxn : s'.txn = s.txn) : s'.work d < s.work d := by
  have hlt := hadv.card_ahead_lt (fun _ hj => hj) hk v
  have hle : (ahead d (.on (k, v) false)).card ≤ (ahead d s.scan).card := by
    rw [hadv.ahead_eq h.mem_keys]
    exact Finset.card_erase_le
  rw [work, work, hscan, htxn]
  omega

/-- A round that adds an entry, at an entry of the index. -/
theorem work_lt_of_added {new : Bytes} (h : s.Sound d) (hadv : Advances s.txn.dbi s.scan k)
    (hk : k ∈ d.keys) (hscan : s'.scan = .on (k, v) false)
    (hkeys : ∀ j ∈ s'.txn.dbi.keys, j = new ∨ j ∈ s.txn.dbi.keys) : s'.work d < s.work d := by
  have hlt := hadv.card_ahead_lt (fun _ hj => hj) (h.mem_keys k hk) v
  have hlt' := hadv.card_ahead_lt h.mem_keys hk v
  have hsub : ahead s'.txn.dbi (.on (k, v) false) ⊆
      insert new (ahead s.txn.dbi (.on (k, v) false)) := by
    intro j hj
    obtain ⟨hj, hr⟩ := mem_ahead.mp hj
    rcases hkeys j hj with rfl | hj
    · exact Finset.mem_insert_self _ _
    · exact Finset.mem_insert_of_mem (mem_ahead.mpr ⟨hj, hr⟩)
  have hcard := (Finset.card_le_card hsub).trans (Finset.card_insert_le _ _)
  rw [work, work, hscan]
  omega

/-- Of two entries of a domain the newer one is renamed. -/
theorem rename_newer {ts₁ : Timestamp} {i₁ : UInt32} (hd : Repairable d) (h : s.Sound d)
    (hadv : Advances s.txn.dbi s.scan (domainKey s.prevDomain j))
    (hat : At s s₁ (domainKey s.prevDomain j) v) (hlive : LiveAt d s.prevDomain j hdr.timestamp)
    (hmax : max (age hdr.timestamp j) (age s.prevHeader.timestamp s.prevID) = age ts₁ i₁) :
    ∃ s', s₁.rename now txnID s.prevDomain i₁ = .ok s' ∧ SameWalk s₁ s' ∧
      Moved d (Lost d s'.scan) s'.txn.dbi ∧ s'.work d < s.work d := by
  have hlost := h.lost_again (v := v) hadv hlive (h.oldest hd hlive) hmax
  have hnewer := (hlost s.prevDomain i₁).mpr (Or.inr ⟨rfl, rfl⟩)
  have hmoved : Moved d (Lost d s.scan) s₁.txn.dbi := hat.txn ▸ h.moved
  obtain ⟨s', hrun, hsame, hmoved', hkeys⟩ := rename_ok now txnID hd hmoved
    (fun b i hlost => hlost.mem_keys) hnewer.mem_keys (hd.fits _ _ hnewer.superseded)
  have hscan : s'.scan = .on (domainKey s.prevDomain j, v) false := hsame.scan.trans hat.scan
  rw [hat.txn] at hkeys
  refine ⟨s', hrun, hsame, ?_, work_lt_of_added h hadv hlive.mem_keys hscan hkeys⟩
  rw [hscan]
  exact hmoved'.congr hlost

/-- A live entry of the index is compared with the one kept. -/
theorem compare_live (hd : Repairable d) (h : s.Sound d)
    (hadv : Advances s.txn.dbi s.scan (domainKey b j)) (hat : At s s₁ (domainKey b j) v)
    (hlive : LiveAt d b j hdr.timestamp) :
    ∃ s', s₁.compare now txnID true b hdr j = .ok s' ∧ s'.Sound d ∧ s'.work d < s.work d := by
  unfold compare
  rw [hat.prevDomain, hat.prevHeader, hat.prevID]
  by_cases hb : s.prevDomain = b
  · subst hb
    have hleast := h.oldest hd hlive
    have hid := Sound.prevID_lt hadv hleast
    rw [if_pos rfl]
    by_cases hts : hdr.timestamp < s.prevHeader.timestamp
    · have hlt := age_lt_iff.mpr (Or.inl hts : _ ∨ _ ∧ j < s.prevID)
      obtain ⟨s', hrun, hsame, hmoved, hwork⟩ :=
        rename_newer now txnID hd h hadv hat hlive (max_eq_right hlt.le)
      rw [if_pos hts]
      refine ⟨_, bind_eq_ok.mpr ⟨s', hrun, rfl⟩, ?_, hwork⟩
      have hscan := hsame.scan.trans hat.scan
      rw [hscan] at hmoved
      show Commands.Sound d s'.scan s'.txn.dbi _ _ _
      rw [hscan]
      exact h.again hadv hlive hleast (min_eq_left hlt.le) hmoved
    · have hlt : age s.prevHeader.timestamp s.prevID < age hdr.timestamp j := by
        rw [age_lt_iff]
        rcases (not_lt.mp hts).lt_or_eq with hlt | heq
        · exact Or.inl hlt
        · exact Or.inr ⟨heq, hid⟩
      obtain ⟨s', hrun, hsame, hmoved, hwork⟩ :=
        rename_newer now txnID hd h hadv hat hlive (max_eq_left hlt.le)
      rw [if_neg hts]
      refine ⟨s', hrun, ?_, hwork⟩
      have hscan := hsame.scan.trans hat.scan
      rw [hscan] at hmoved
      show Commands.Sound d s'.scan s'.txn.dbi s'.prevDomain s'.prevHeader.timestamp s'.prevID
      rw [hscan, hsame.prevDomain, hsame.prevHeader, hsame.prevID, hat.prevDomain, hat.prevHeader,
        hat.prevID]
      exact h.again hadv hlive hleast (min_eq_right hlt.le) hmoved
  · rw [if_neg hb]
    refine ⟨_, rfl, ?_, work_lt h hadv (h.mem_keys _ hlive.mem_keys) hat.scan hat.txn⟩
    show Commands.Sound d s₁.scan s₁.txn.dbi b hdr.timestamp j
    rw [hat.scan, hat.txn]
    exact h.first hadv hlive (Ne.symm hb)

/-- An added entry is the only one of its domain. -/
theorem compare_added (hd : Repairable d) (h : s.Sound d)
    (hadv : Advances s.txn.dbi s.scan (domainKey (newDomain i a) i))
    (hat : At s s₁ (domainKey (newDomain i a) i) v)
    (hmem : domainKey (newDomain i a) i ∈ s.txn.dbi.keys)
    (hnew : domainKey (newDomain i a) i ∉ d.keys) :
    ∃ s', s₁.compare now txnID true (newDomain i a) hdr i = .ok s' ∧ s'.Sound d ∧
      s'.work d < s.work d := by
  have hne : s.prevDomain ≠ newDomain i a := by
    intro heq
    have hprev := h.prev
    rw [heq] at hprev
    generalize hc : newDomain i a = c at hprev
    cases hprev with
    | none => exact not_isRenamed_nil ⟨i, a, hc.symm⟩
    | added _ _ hr =>
        obtain ⟨rfl, rfl⟩ := newDomain_inj hc
        exact hadv.not_reached hr
    | oldest hleast => exact hd.names _ _ hleast.1.1.mem_keys ⟨i, a, hc.symm⟩
  unfold compare
  rw [hat.prevDomain, if_neg hne]
  refine ⟨_, rfl, ?_, work_lt h hadv hmem hat.scan hat.txn⟩
  show Commands.Sound d s₁.scan s₁.txn.dbi (newDomain i a) hdr.timestamp i
  rw [hat.scan, hat.txn]
  exact h.added hadv hnew (length_lt_of_mem hmem) _ _

/-- A visit makes progress, or finds an entry of the index without a header. -/
theorem visit_cases (hd : Repairable d) (h : s.Sound d) (hadv : Advances s.txn.dbi s.scan k)
    (hget : s.txn.dbi.get k = some v) (hat : At s s₁ k v) :
    (∃ s', s₁.visit now txnID true k v = .ok s' ∧ s'.Sound d ∧ s'.work d < s.work d) ∨
      ∃ e, d.get k = some v ∧ Header.parse v = .error e ∧
        s₁.visit now txnID true k v = .error (.error (.header k e)) := by
  have hmem : k ∈ s.txn.dbi.keys := Dbi.mem_keys_iff.mpr ⟨v, hget⟩
  unfold visit
  rcases h.entry hd hadv hget with hold | ⟨a, i, ts, x, rfl, hnew, rfl⟩
  · cases hparse : Header.parse v with
    | error e => exact Or.inr ⟨e, hold, rfl, rfl⟩
    | ok p =>
        refine Or.inl ?_
        by_cases hdel : Header.isDeleted p.1.flags = true
        · simp only [if_pos hdel]
          refine ⟨s₁, rfl, ?_, work_lt h hadv hmem hat.scan hat.txn⟩
          unfold Fixing.Sound
          rw [hat.scan, hat.txn, hat.prevDomain, hat.prevHeader, hat.prevID]
          refine h.skip hadv ?_ fun w hw => ?_
          · rintro a i ts hlive rfl
            rw [hlive.not_deleted hold hparse] at hdel
            cases hdel
          · obtain rfl := Option.some.inj (hold.symm.trans hw)
            exact ⟨p, hparse⟩
        · rw [Bool.not_eq_true] at hdel
          obtain ⟨b, j, rfl, -⟩ := hd.keys k v p.1 p.2 hold hparse hdel
          have hlive : LiveAt d b j p.1.timestamp := ⟨v, p.1, p.2, hold, hparse, hdel, rfl⟩
          simp only [hdel, Bool.false_eq_true, if_false, readKey_domainKey hlive.length_lt]
          exact compare_live now txnID hd h hadv (hat.list b) hlive
  · refine Or.inl ?_
    simp only [parse_patch, Header.isDeleted_noFlags, Bool.false_eq_true, if_false,
      readKey_domainKey (length_lt_of_mem hmem)]
    exact compare_added now txnID hd h hadv (hat.list _) hmem hnew

end Fixing

/-- How the loop ends. -/
def Outcome (d : Dbi) : Except (Fault FixErr) Fixing → Prop
  | .ok s => Moved d (Superseded d) s.txn.dbi ∧
      ∀ k v, d.get k = some v → ∃ p, Header.parse v = .ok p
  | .error e => ∃ k v e', d.get k = some v ∧ Header.parse v = .error e' ∧ e = .error (.header k e')

theorem Fixing.Sound.round {d : Dbi} {s : Fixing} (now : ℕ → Timestamp) (txnID : TxnID)
    (hd : Repairable d) (h : s.Sound d) :
    (∃ s', s.round now txnID true = .ok (.inl s') ∧ s'.Sound d ∧ s'.work d < s.work d) ∨
      (∃ s', s.round now txnID true = .ok (.inr s') ∧ Outcome d (.ok s')) ∨
      ∃ e, s.round now txnID true = .error e ∧ Outcome d (.error e) := by
  unfold Fixing.round
  rcases scan_cases (h.moved.flags.trans hd.plain) h.settled with
    ⟨k, v, hscan, hget, hadv⟩ | ⟨hscan, hall⟩
  · have hat : Fixing.At s s.move k v := ⟨hscan, rfl, rfl, rfl, rfl⟩
    rw [hat.scan]
    rcases Fixing.visit_cases now txnID hd h hadv hget hat with
      ⟨s', hrun, hs', hwork⟩ | ⟨e, hold, hparse, hrun⟩
    · exact Or.inl ⟨s', by simp [Scanner.entry, hrun, Except.map], hs', hwork⟩
    · refine Or.inr (Or.inr ⟨_, ?_, k, v, e, hold, hparse, rfl⟩)
      simp [Scanner.entry, hrun, Except.map]
  · have hmove : s.move.scan = .ended := hscan
    rw [hmove]
    exact Or.inr (Or.inl ⟨s.move, rfl, h.ended hall⟩)

theorem fixDomains_outcome {d : Dbi} (now : ℕ → Timestamp) (txnID : TxnID) (hd : Repairable d) :
    Outcome d (fixDomains now txnID true d) := by
  have hcard : (ahead d .fresh).card ≤ d.keys.length :=
    (Finset.card_filter_le _ _).trans (List.toFinset_card_le _)
  refine runRounds_total (I := Fixing.Sound d) (Fixing.work d)
    (fun s hs => hs.round now txnID hd) (sound_start d) ?_
  show (ahead d .fresh).card + (ahead d .fresh).card < _
  omega

end LightningStream.Commands
