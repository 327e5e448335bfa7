import LightningStream.Commands.OldestKept

/-!
# The repaired domain index

What `pdns-v5-fix-duplicate-domains` leaves behind. `Repaired` says it in terms
of live and deleted entries: each domain has one live entry, an oldest one, and
the other ones are found under new names. The command ends with an error if the
schema is not the expected one or an entry has no header, and then nothing is
written.
-/

namespace LightningStream.Commands

open Lmdb

/-! ## The repaired index -/

/-- What the repair makes of the index `d`. -/
structure Repaired (d d' : Dbi) : Prop where
  /-- One entry stays, an oldest one; the other ones are found under their new names only. -/
  oldest : ∀ domain id, Live d domain id → ∃ id₀ ts₀, LiveAt d domain id₀ ts₀ ∧
    (∀ id ts, LiveAt d domain id ts → ts₀ ≤ ts) ∧
    d'.get (domainKey domain id₀) = d.get (domainKey domain id₀) ∧
    (∀ id, Live d' domain id ↔ id = id₀) ∧
    ∀ id, Live d domain id → id ≠ id₀ → Deleted d' domain id ∧
      ∀ id', Live d' (newDomain id domain) id' ↔ id' = id
  single : ∀ domain id, Live d domain id → (∀ id', Live d domain id' → id' = id) →
    d'.get (domainKey domain id) = d.get (domainKey domain id)
  deleted : ∀ k v h app, d.get k = some v → Header.parse v = .ok (h, app) →
    Header.isDeleted h.flags = true → d'.get k = some v
  others : ∀ k, d'.get k ≠ d.get k → ∃ domain id, Superseded d domain id ∧
    (k = domainKey domain id ∨ k = domainKey (newDomain id domain) id)

section Repaired

variable {d d' : Dbi} {a : Bytes} {i i₀ : UInt32} {ts₀ : Timestamp}

theorem Superseded.mem_keys (h : Superseded d a i) : domainKey a i ∈ d.keys := by
  obtain ⟨ts, hlive, -⟩ := h
  exact hlive.mem_keys

theorem exists_oldest (h : Live d a i) : ∃ id ts, IsLeast (Seen d .ended a) (age ts id) := by
  obtain ⟨ts, hlive⟩ := h
  have hne : (Seen d .ended a).Nonempty := ⟨age ts i, hlive, trivial⟩
  exact ⟨(ofLex (wellFounded_lt.min _ hne)).2, (ofLex (wellFounded_lt.min _ hne)).1,
    wellFounded_lt.min_mem _ hne, fun x hx => wellFounded_lt.min_le hx⟩

theorem superseded_iff (h : IsLeast (Seen d .ended a) (age ts₀ i₀)) :
    Superseded d a i ↔ Live d a i ∧ i ≠ i₀ := by
  rw [← lost_ended_iff, lost_iff h]
  constructor
  · rintro ⟨ts, hmem, hne⟩
    refine ⟨⟨ts, hmem.1⟩, ?_⟩
    rintro rfl
    have hts : ts₀ = ts := h.1.1.unique hmem.1
    exact hne (congrArg (age · i) hts.symm)
  · rintro ⟨⟨ts, hlive⟩, hne⟩
    exact ⟨ts, ⟨hlive, trivial⟩, fun heq => hne (age_inj heq).2⟩

namespace Moved

variable (hd : Repairable d) (h : Moved d (Superseded d) d')

include h in
theorem deleted_of_superseded (hs : Superseded d a i) : Deleted d' a i := by
  obtain ⟨ts, txnID, hget⟩ := h.marked a i hs
  exact ⟨_, _, _, hget, parse_patch _ _ _, Header.isDeleted_flagDeleted⟩

include hd h

theorem get_of_not_superseded (hmem : domainKey a i ∈ d.keys) (hs : ¬ Superseded d a i) :
    d'.get (domainKey a i) = d.get (domainKey a i) := by
  refine h.kept _ fun b j hbj => ⟨fun heq => hs ?_, hd.ne_added hmem (h.length_lt hbj)⟩
  obtain ⟨rfl, rfl⟩ := domainKey_inj (length_lt_of_mem hmem) (length_lt_of_mem hbj.mem_keys) heq
  exact hbj

theorem live_iff {j : UInt32} (ha : Live d a j) :
    Live d' a i ↔ Live d a i ∧ ¬ Superseded d a i := by
  constructor
  · rintro ⟨ts, hlive⟩
    have hs : ¬ Superseded d a i := by
      intro hs
      obtain ⟨v, hdr, app, hget, hparse, hdel⟩ := h.deleted_of_superseded hs
      rw [hlive.not_deleted hget hparse] at hdel
      cases hdel
    refine ⟨⟨ts, ?_⟩, hs⟩
    rcases h.cases (domainKey a i) with heq | ⟨b, j, hbj, heq⟩ | ⟨b, j, hbj, heq⟩
    · exact hlive.congr heq.symm
    · obtain ⟨rfl, rfl⟩ := domainKey_inj hlive.length_lt (length_lt_of_mem hbj.mem_keys) heq
      exact absurd hbj hs
    · obtain ⟨rfl, -⟩ := domainKey_inj hlive.length_lt (h.length_lt hbj) heq
      obtain ⟨ts', ha⟩ := ha
      exact absurd (isRenamed_newDomain j b) (hd.names _ _ ha.mem_keys)
  · rintro ⟨⟨ts, hlive⟩, hs⟩
    exact ⟨ts, hlive.congr (h.get_of_not_superseded hd hlive.mem_keys hs)⟩

theorem live_newDomain_iff {i' : UInt32} (hs : Superseded d a i) :
    Live d' (newDomain i a) i' ↔ i' = i := by
  constructor
  · rintro ⟨ts, hlive⟩
    rcases h.cases (domainKey (newDomain i a) i') with heq | ⟨b, j, hbj, heq⟩ | ⟨b, j, hbj, heq⟩
    · exact absurd (isRenamed_newDomain i a) (hd.names _ _ (hlive.congr heq.symm).mem_keys)
    · have hmem := hbj.mem_keys
      rw [← heq] at hmem
      exact absurd (isRenamed_newDomain i a) (hd.names _ _ hmem)
    · obtain ⟨hdomain, rfl⟩ := domainKey_inj hlive.length_lt (h.length_lt hbj) heq
      exact (newDomain_inj hdomain).1.symm
  · rintro rfl
    obtain ⟨ts, txnID, hget⟩ := h.added a i' hs
    exact ⟨ts, _, _, _, hget, parse_patch _ _ _, Header.isDeleted_noFlags, rfl⟩

theorem get_of_deleted {k v : Bytes} {hdr : Header} {app : Bytes} (hget : d.get k = some v)
    (hparse : Header.parse v = .ok (hdr, app)) (hdel : Header.isDeleted hdr.flags = true) :
    d'.get k = some v := by
  rw [← hget]
  refine h.kept k fun b j hbj => ⟨?_, ?_⟩
  · rintro rfl
    obtain ⟨ts, hlive, -⟩ := hbj
    rw [hlive.not_deleted hget hparse] at hdel
    cases hdel
  · rintro rfl
    exact hd.names _ _ (Dbi.mem_keys_iff.mpr ⟨v, hget⟩) (isRenamed_newDomain j b)

theorem repaired : Repaired d d' where
  oldest a i hlive := by
    obtain ⟨i₀, ts₀, hleast⟩ := exists_oldest hlive
    have hlive₀ : LiveAt d a i₀ ts₀ := hleast.1.1
    have hs₀ : ¬ Superseded d a i₀ := fun hs => ((superseded_iff hleast).mp hs).2 rfl
    refine ⟨i₀, ts₀, hlive₀, fun id ts hid => ?_, h.get_of_not_superseded hd hlive₀.mem_keys hs₀,
      fun id => ?_, fun id hid hne => ?_⟩
    · rcases (hleast.2 (age_mem_seen.mpr ⟨hid, trivial⟩)).lt_or_eq with hlt | heq
      · rcases age_lt_iff.mp hlt with hlt | ⟨rfl, -⟩
        · exact hlt.le
        · exact le_rfl
      · exact (age_inj heq).1.le
    · rw [h.live_iff hd hlive, superseded_iff hleast]
      constructor
      · rintro ⟨hid, hnot⟩
        by_contra hne
        exact hnot ⟨hid, hne⟩
      · rintro rfl
        exact ⟨⟨ts₀, hlive₀⟩, fun hn => hn.2 rfl⟩
    · have hs : Superseded d a id := (superseded_iff hleast).mpr ⟨hid, hne⟩
      exact ⟨h.deleted_of_superseded hs, fun id' => h.live_newDomain_iff hd hs⟩
  single a i hlive hone := by
    obtain ⟨i₀, ts₀, hleast⟩ := exists_oldest hlive
    obtain rfl := hone i₀ ⟨ts₀, hleast.1.1⟩
    exact h.get_of_not_superseded hd hleast.1.1.mem_keys
      fun hs => ((superseded_iff hleast).mp hs).2 rfl
  deleted k v hdr app hget hparse hdel := h.get_of_deleted hd hget hparse hdel
  others k hk := by
    rcases h.cases k with heq | ⟨a, i, hs, heq⟩ | ⟨a, i, hs, heq⟩
    · exact absurd heq hk
    · exact ⟨a, i, hs, Or.inl heq⟩
    · exact ⟨a, i, hs, Or.inr heq⟩

end Moved

end Repaired

/-! ## The command -/

/-- The environment has schema version 5. -/
def Schema5 (c : Contents) : Prop :=
  ∃ d val, c.get schemaDBI = some d ∧ d.get schemaKey = some val ∧
    Header.skip val = .ok [0, 0, 0, 5]

theorem checkSchema_ok_iff (c : Contents) : checkSchema c = .ok () ↔ Schema5 c := by
  have hne : schemaKey ≠ [] := by decide
  unfold checkSchema Schema5
  cases hc : c.get schemaDBI with
  | none => simp
  | some d =>
      cases hv : d.get schemaKey with
      | none => simp [Txn.get, Txn.start, hne, hv]
      | some val =>
          cases hskip : Header.skip val with
          | error e => simp [Txn.get, Txn.start, hne, hv, hskip]
          | ok v =>
              have hfive : v = [0, 0, 0, 5] ↔ v.length = 4 ∧ beNat v = 5 := by
                constructor
                · rintro rfl
                  decide
                · rintro ⟨hlen, hnum⟩
                  rw [← Header.beBytes_beNat hlen, hnum]
                  decide
              by_cases hlen : v.length = 4
              · by_cases hnum : beNat v = 5 <;>
                  simp [Txn.get, Txn.start, hne, hv, hskip, hfive, hlen, hnum]
              · simp [Txn.get, Txn.start, hne, hv, hskip, hfive, hlen]

section Command

variable {now : ℕ → Timestamp} {txnID : TxnID} {c c' : Contents} {d : Dbi} {zones : List Bytes}

theorem command_eq_ok (hget : c.get domainsDBI = some d)
    (h : pdnsV5FixDuplicateDomains now txnID true c = .ok (c', zones)) :
    Schema5 c ∧ ∃ s, fixDomains now txnID true d = .ok s ∧
      (∀ n, n ≠ domainsDBI → c'.get n = c.get n) ∧ c'.get domainsDBI = some s.txn.dbi := by
  unfold pdnsV5FixDuplicateDomains at h
  split at h
  · cases h
  · rename_i hcheck
    split at h
    · cases h
    · rename_i d₁ hd₁
      obtain rfl : d₁ = d := Option.some.inj (hd₁.symm.trans hget)
      split at h
      · cases h
      · rename_i s hs
        obtain ⟨rfl, -⟩ := Prod.mk.inj (Except.ok.inj h)
        refine ⟨(checkSchema_ok_iff c).mp hcheck, s, hs, fun n hn => ?_, ?_⟩
        · rw [Contents.get_set, if_neg hn]
        · rw [Contents.get_set, if_pos rfl]

theorem command_ok {s : Fixing} (hget : c.get domainsDBI = some d) (hschema : Schema5 c)
    (hfix : fixDomains now txnID true d = .ok s) :
    ∃ out, pdnsV5FixDuplicateDomains now txnID true c = .ok out := by
  unfold pdnsV5FixDuplicateDomains
  rw [(checkSchema_ok_iff c).mpr hschema]
  dsimp only
  split
  · rename_i hnone
    rw [hnone] at hget
    cases hget
  · rename_i d₁ hd₁
    obtain rfl : d₁ = d := Option.some.inj (hd₁.symm.trans hget)
    rw [hfix]
    exact ⟨_, rfl⟩

end Command

section Dry

variable {now : ℕ → Timestamp} {txnID : TxnID} {s s' : Fixing}

theorem list_txn (s : Fixing) (b : Bytes) : (s.list b).txn = s.txn := by
  unfold Fixing.list
  split <;> rfl

theorem compare_dry {b : Bytes} {hdr : Header} {j : UInt32}
    (h : s.compare now txnID false b hdr j = .ok s') : s'.txn = s.txn := by
  simp only [Fixing.compare, Fixing.renameIf, Bool.false_eq_true, if_false] at h
  split at h
  · split at h <;> rw [← Except.ok.inj h]
    rfl
  · rw [← Except.ok.inj h]
    rfl

theorem visit_dry {k v : Bytes} (h : s.visit now txnID false k v = .ok s') : s'.txn = s.txn := by
  unfold Fixing.visit at h
  split at h
  · cases h
  · split at h
    · rw [← Except.ok.inj h]
    · split at h
      · cases h
      · exact (compare_dry h).trans (list_txn _ _)

theorem round_dry {r : Fixing ⊕ Fixing} (h : s.round now txnID false = .ok r) :
    r.elim Fixing.txn Fixing.txn = s.txn := by
  unfold Fixing.round at h
  split at h
  · rw [← Except.ok.inj h]
    rfl
  · cases hv : s.move.visit now txnID false _ _ with
    | error e =>
        rw [hv] at h
        cases h
    | ok s' =>
        rw [hv] at h
        rw [← Except.ok.inj h]
        show s'.txn = s.move.txn
        exact visit_dry hv

/-- Without `--dangerous-do-rename` nothing is written. -/
theorem fixDomains_dry {d : Dbi} (h : fixDomains now txnID false d = .ok s) :
    s.txn = Txn.start d := by
  refine runRounds_ok (I := fun t : Fixing => t.txn = Txn.start d)
    (P := fun t => t.txn = Txn.start d) ?_ ?_ rfl h
  · intro t t' ht hround
    exact (round_dry hround).trans ht
  · intro t t' ht hround
    exact (round_dry hround).trans ht

end Dry

/-- **The repair keeps exactly the oldest entry of each domain.** The command
succeeds if the schema version is 5 and every entry has a header; other DBIs stay
as they are. -/
theorem duplicates_repaired (now : ℕ → Timestamp) (txnID : TxnID) {c : Contents} {d : Dbi}
    (hget : c.get domainsDBI = some d) (hd : Repairable d) :
    ((∃ out, pdnsV5FixDuplicateDomains now txnID true c = .ok out) ↔
      Schema5 c ∧ ∀ k v, d.get k = some v → ∃ p, Header.parse v = .ok p) ∧
    ∀ c' zones, pdnsV5FixDuplicateDomains now txnID true c = .ok (c', zones) →
      (∀ n, n ≠ domainsDBI → c'.get n = c.get n) ∧
      ∃ d', c'.get domainsDBI = some d' ∧ d'.flags = d.flags ∧ Repaired d d' := by
  have houtcome := fixDomains_outcome now txnID hd
  constructor
  · constructor
    · rintro ⟨⟨c', zones⟩, hrun⟩
      obtain ⟨hschema, s, hfix, -⟩ := command_eq_ok hget hrun
      rw [hfix] at houtcome
      exact ⟨hschema, houtcome.2⟩
    · rintro ⟨hschema, hparse⟩
      cases hfix : fixDomains now txnID true d with
      | ok s => exact command_ok hget hschema hfix
      | error e =>
          rw [hfix] at houtcome
          obtain ⟨k, v, e', hk, herr, -⟩ := houtcome
          obtain ⟨p, hp⟩ := hparse k v hk
          rw [herr] at hp
          cases hp
  · intro c' zones hrun
    obtain ⟨-, s, hfix, hother, hc'⟩ := command_eq_ok hget hrun
    rw [hfix] at houtcome
    exact ⟨hother, s.txn.dbi, hc', houtcome.1.flags, houtcome.1.repaired hd⟩

/-- Two entries of one domain. The one with the higher ID is the older one. -/
def twoEntries : Dbi :=
  ((Dbi.empty KeyFlags.plain).set (domainKey [97] 1) (Header.putBasic 7 1 Header.noFlags)
    (by decide)).set (domainKey [97] 2) (Header.putBasic 5 1 Header.noFlags) (by decide)

theorem twoEntries_get {k v : Bytes} (h : twoEntries.get k = some v) :
    ∃ i ts, (i = 1 ∧ ts = 7 ∨ i = 2 ∧ ts = 5) ∧ k = domainKey [97] i ∧
      v = Header.putBasic ts 1 Header.noFlags := by
  unfold twoEntries at h
  rw [Dbi.get_set, Dbi.get_set, Dbi.get_empty] at h
  split at h
  · exact ⟨2, 5, Or.inr ⟨rfl, rfl⟩, ‹_›, (Option.some.inj h).symm⟩
  · split at h
    · exact ⟨1, 7, Or.inl ⟨rfl, rfl⟩, ‹_›, (Option.some.inj h).symm⟩
    · cases h

theorem domain_of_mem {a : Bytes} {i : UInt32} (h : domainKey a i ∈ twoEntries.keys) :
    a = [97] ∧ (i = 1 ∨ i = 2) := by
  obtain ⟨v, hv⟩ := Dbi.mem_keys_iff.mp h
  obtain ⟨j, ts, hj, hkey, -⟩ := twoEntries_get hv
  obtain ⟨rfl, rfl⟩ := domainKey_inj (length_lt_of_mem h) (by decide) hkey
  exact ⟨rfl, hj.imp And.left And.left⟩

theorem repairable_twoEntries : Repairable twoEntries where
  plain := rfl
  keys k v hdr app hget _ _ := by
    obtain ⟨i, ts, -, rfl, -⟩ := twoEntries_get hget
    exact ⟨[97], i, rfl, List.cons_ne_nil _ _⟩
  names a i hmem := by
    obtain ⟨rfl, -⟩ := domain_of_mem hmem
    rintro ⟨id, rest, h⟩
    have hhead := congrArg List.head? h
    rw [show (newDomain id rest).head? = some 105 from rfl] at hhead
    exact absurd hhead (by decide)
  fits a i hs := by
    obtain ⟨rfl, rfl | rfl⟩ := domain_of_mem hs.mem_keys
    · decide
    · decide

def schemaEntries : Dbi :=
  (Dbi.empty KeyFlags.plain).set schemaKey (Header.putBasic 1 1 Header.noFlags ++ [0, 0, 0, 5])
    (by decide)

def twoDuplicates : Contents :=
  (Contents.empty.set schemaDBI schemaEntries (by decide)).set domainsDBI twoEntries (by decide)

theorem duplicates_repaired_two : Repairable twoEntries ∧
    ∃ c' zones d', pdnsV5FixDuplicateDomains (fun _ => 9) 3 true twoDuplicates = .ok (c', zones) ∧
      c'.get domainsDBI = some d' ∧ (∀ id, Live d' [97] id ↔ id = 2) ∧ Deleted d' [97] 1 ∧
      ∀ id, Live d' (newDomain 1 [97]) id ↔ id = 1 := by
  have hget : twoDuplicates.get domainsDBI = some twoEntries := by
    rw [twoDuplicates, Contents.get_set, if_pos rfl]
  obtain ⟨hok, hrepaired⟩ := duplicates_repaired (fun _ => 9) 3 hget repairable_twoEntries
  have hparse : ∀ k v, twoEntries.get k = some v → ∃ p, Header.parse v = .ok p := by
    intro k v hv
    obtain ⟨i, ts, -, -, rfl⟩ := twoEntries_get hv
    exact ⟨_, parse_patch _ _ _⟩
  have hschema : Schema5 twoDuplicates := by
    refine ⟨schemaEntries, Header.putBasic 1 1 Header.noFlags ++ [0, 0, 0, 5], ?_, ?_, by decide⟩
    · rw [twoDuplicates, Contents.get_set, if_neg (by decide), Contents.get_set, if_pos rfl]
    · rw [schemaEntries, Dbi.get_set, if_pos rfl]
  obtain ⟨⟨c', zones⟩, hrun⟩ := hok.mpr ⟨hschema, hparse⟩
  obtain ⟨-, d', hc', -, hd'⟩ := hrepaired c' zones hrun
  have hone : LiveAt twoEntries [97] 1 7 := ⟨_, _, _, rfl, parse_patch _ _ _, rfl, rfl⟩
  have htwo : LiveAt twoEntries [97] 2 5 := ⟨_, _, _, rfl, parse_patch _ _ _, rfl, rfl⟩
  obtain ⟨id₀, ts₀, hlive, hmin, -, hlives, hothers⟩ := hd'.oldest [97] 1 ⟨7, hone⟩
  -- the entry that stays is not newer than the second one
  obtain rfl : id₀ = 2 := by
    rcases (domain_of_mem hlive.mem_keys).2 with rfl | rfl
    · rw [hlive.unique hone] at hmin
      exact absurd (hmin 2 5 htwo) (by decide)
    · rfl
  obtain ⟨hdeleted, hnew⟩ := hothers 1 ⟨7, hone⟩ (by decide)
  exact ⟨repairable_twoEntries, c', zones, d', hrun, hc', hlives, hdeleted, hnew⟩

-- the walk comes to the entry it has added, and lists it again
example : (fixDomains (fun _ => 9) 3 true twoEntries).map Fixing.domainsToDelete =
    .ok [Snapshot.ascii "a.dup-1.invalid", Snapshot.ascii "a.dup-1.invalid"] := by
  decide +kernel

end LightningStream.Commands
