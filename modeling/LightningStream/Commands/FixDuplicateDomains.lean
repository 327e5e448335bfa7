import LightningStream.Base.Rounds
import LightningStream.Commands.DomainKey
import LightningStream.Lmdb.Environment
import LightningStream.Lmdb.LimitScanner

/-!
# The repair of duplicate domains

`pdns-v5-fix-duplicate-domains` walks over the domain index of PowerDNS. Where
two live entries are for one domain, it marks the newer one as deleted and adds
it again under another name. It writes to the DBI it is walking over: behind the
cursor or at it, when it marks an entry, and ahead of it, when it adds one, so
the walk comes to the entries it has added.

The clock is read for every entry written; the reading is a function of the
number of entries written before. Logging is left out.
-/

namespace LightningStream.Commands

open Lmdb Snapshot

/-! ## The program -/

inductive FixErr
  /-- `'%s' DBI not found, this does not look like a main DBI`. -/
  | notMain (dbi : Bytes)
  /-- `cannot check schemaversion`. -/
  | schemaGet (e : LmdbErr)
  /-- `schemaversion: %v`. -/
  | schemaHeader (e : Header.HeaderErr)
  /-- `schemaversion wrong length`. -/
  | schemaLength (v : Bytes)
  /-- `schemaversion incorrect: expected 5, got %d`. -/
  | schemaVersion (version : ℕ)
  /-- `key: %s: invalid header`. -/
  | header (key : Bytes) (e : Header.HeaderErr)
  | key (e : KeyErr)
  | put (e : LmdbErr)
deriving DecidableEq

structure Fixing where
  txn : Txn
  scan : Scanner
  prevDomain : Bytes
  prevHeader : Header
  prevID : UInt32
  /-- How many entries were written. -/
  patches : ℕ
  domainsToDelete : List Bytes
deriving DecidableEq

namespace Fixing

def start (d : Dbi) : Fixing where
  txn := Txn.start d
  scan := .fresh
  prevDomain := []
  prevHeader := ⟨0, 0, 0, 0, 0, []⟩
  prevID := 0
  patches := 0
  domainsToDelete := []

variable (now : ℕ → Timestamp) (txnID : TxnID) (doRename : Bool)

def patchDomain (domain : Bytes) (id : UInt32) (flags : Flags) (s : Fixing) :
    Except (Fault FixErr) Fixing :=
  match s.txn.put (domainKey domain id) (Header.putBasic (now s.patches) txnID flags) with
  | .error e => .error (.error (.put e))
  | .ok txn => .ok { s with txn := txn, patches := s.patches + 1 }

/-- Mark the newer of two entries and add it under its new name. -/
def rename (domain : Bytes) (newest : UInt32) (s : Fixing) : Except (Fault FixErr) Fixing := do
  let s ← s.patchDomain now txnID domain newest Header.flagDeleted
  let s ← s.patchDomain now txnID (newDomain newest domain) newest Header.noFlags
  .ok { s with domainsToDelete := s.domainsToDelete ++ [displayDomain (newDomain newest domain)] }

/-- Without `--dangerous-do-rename` nothing is patched. -/
def renameIf (domain : Bytes) (newest : UInt32) (s : Fixing) : Except (Fault FixErr) Fixing :=
  if doRename then s.rename now txnID domain newest else .ok s

def keep (domain : Bytes) (hdr : Header) (id : UInt32) (s : Fixing) : Fixing :=
  { s with prevDomain := domain, prevHeader := hdr, prevID := id }

def compare (domain : Bytes) (hdr : Header) (id : UInt32) (s : Fixing) :
    Except (Fault FixErr) Fixing :=
  if s.prevDomain = domain then
    -- oldest entry wins, and is the one to compare the next entry with
    if hdr.timestamp < s.prevHeader.timestamp then do
      let s ← s.renameIf now txnID doRename domain s.prevID
      .ok (s.keep domain hdr id)
    else s.renameIf now txnID doRename domain id
  else .ok (s.keep domain hdr id)

/-- List a domain that was renamed by an earlier run. -/
def list (domain : Bytes) (s : Fixing) : Fixing :=
  if isShownDuplicate (displayDomain domain) then
    { s with domainsToDelete := s.domainsToDelete ++ [displayDomain domain] }
  else s

def visit (key val : Bytes) (s : Fixing) : Except (Fault FixErr) Fixing :=
  match Header.parse val with
  | .error e => .error (.error (.header key e))
  | .ok (hdr, _) =>
      if Header.isDeleted hdr.flags then .ok s
      else match readKey key with
        | .error e => .error (.error (.key e))
        | .ok (domain, id) => (s.list domain).compare now txnID doRename domain hdr id

def move (s : Fixing) : Fixing := { s with scan := s.scan.scan s.txn.dbi }

def round (s : Fixing) : Except (Fault FixErr) (Fixing ⊕ Fixing) :=
  match s.move.scan.entry with
  | none => .ok (.inr s.move)
  | some (key, val) => (s.move.visit now txnID doRename key val).map .inl

end Fixing

def schemaDBI : Bytes := ascii "pdns"
def schemaKey : Bytes := ascii "schemaversion"
def domainsDBI : Bytes := ascii "domains_v5_0"

/-- Check the schemaversion. Only v5 (auth 4.8) is supported. -/
def checkSchema (c : Contents) : Except FixErr Unit :=
  match c.get schemaDBI with
  | none => .error (.notMain schemaDBI)
  | some d =>
      match (Txn.start d).get schemaKey with
      | .error e => .error (.schemaGet e)
      | .ok val =>
          match Header.skip val with
          | .error e => .error (.schemaHeader e)
          | .ok v =>
              if v.length ≠ 4 then .error (.schemaLength v)
              else if beNat v ≠ 5 then .error (.schemaVersion (beNat v))
              else .ok ()

/-- The loop. Every entry is visited, and every entry of the index at the start
may add one. -/
def fixDomains (now : ℕ → Timestamp) (txnID : TxnID) (doRename : Bool) (d : Dbi) :
    Except (Fault FixErr) Fixing :=
  runRounds (Fixing.round now txnID doRename) (2 * d.keys.length + 1) (Fixing.start d)

/-- The command: the new contents of the environment, and the zones it prints. An
error leaves the environment as it was. -/
def pdnsV5FixDuplicateDomains (now : ℕ → Timestamp) (txnID : TxnID) (doRename : Bool)
    (c : Contents) : Except (Fault FixErr) (Contents × List Bytes) :=
  match checkSchema c with
  | .error e => .error (.error e)
  | .ok () =>
      match h : c.get domainsDBI with
      | none => .error (.error (.notMain domainsDBI))
      | some d =>
          match fixDomains now txnID doRename d with
          | .error e => .error e
          | .ok s => .ok (c.set domainsDBI s.txn.dbi (Contents.named_of_get h), s.domainsToDelete)

/-! ## Live entries -/

/-- The domain has a live entry with this ID and timestamp. -/
def LiveAt (d : Dbi) (domain : Bytes) (id : UInt32) (ts : Timestamp) : Prop :=
  ∃ v h app, d.get (domainKey domain id) = some v ∧ Header.parse v = .ok (h, app) ∧
    Header.isDeleted h.flags = false ∧ h.timestamp = ts

def Live (d : Dbi) (domain : Bytes) (id : UInt32) : Prop := ∃ ts, LiveAt d domain id ts

def Deleted (d : Dbi) (domain : Bytes) (id : UInt32) : Prop :=
  ∃ v h app, d.get (domainKey domain id) = some v ∧ Header.parse v = .ok (h, app) ∧
    Header.isDeleted h.flags = true

/-- Entries of a domain by age: by time, and by ID among those of one time. -/
def age (ts : Timestamp) (id : UInt32) : Timestamp ×ₗ UInt32 := toLex (ts, id)

/-- The domain has an older live entry. -/
def Superseded (d : Dbi) (domain : Bytes) (id : UInt32) : Prop :=
  ∃ ts, LiveAt d domain id ts ∧ ∃ ts' id', LiveAt d domain id' ts' ∧ age ts' id' < age ts id

/-- An index the command can repair. -/
structure Repairable (d : Dbi) : Prop where
  plain : d.flags = KeyFlags.plain
  keys : ∀ k v h app, d.get k = some v → Header.parse v = .ok (h, app) →
    Header.isDeleted h.flags = false → ∃ domain id, k = domainKey domain id ∧ domain ≠ []
  names : ∀ domain id, domainKey domain id ∈ d.keys → ¬ IsRenamed domain
  fits : ∀ domain id, Superseded d domain id →
    (domainKey (newDomain id domain) id).length ≤ maxKeySize

section Live

variable {d d' : Dbi} {a b : Bytes} {i j : UInt32} {ts ts' : Timestamp} {k v : Bytes}

theorem age_lt_iff : age ts i < age ts' j ↔ ts < ts' ∨ ts = ts' ∧ i < j :=
  Prod.Lex.toLex_lt_toLex

theorem age_inj (h : age ts i = age ts' j) : ts = ts' ∧ i = j := Prod.mk.inj (toLex_inj.mp h)

theorem length_lt_of_mem (h : domainKey a i ∈ d.keys) : a.length < 2 ^ 16 := by
  have hle := (d.keys_allowed.1 _ h).2
  rw [domainKey_length, maxKeySize] at hle
  omega

theorem LiveAt.mem_keys (h : LiveAt d a i ts) : domainKey a i ∈ d.keys := by
  obtain ⟨v, -, -, hget, -⟩ := h
  exact Dbi.mem_keys_iff.mpr ⟨v, hget⟩

theorem LiveAt.length_lt (h : LiveAt d a i ts) : a.length < 2 ^ 16 := length_lt_of_mem h.mem_keys

theorem LiveAt.unique (h : LiveAt d a i ts) (h' : LiveAt d a i ts') : ts = ts' := by
  obtain ⟨v, hdr, app, hget, hparse, -, rfl⟩ := h
  obtain ⟨v', hdr', app', hget', hparse', -, rfl⟩ := h'
  rw [hget] at hget'
  obtain rfl := Option.some.inj hget'
  rw [hparse] at hparse'
  rw [(Prod.mk.inj (Except.ok.inj hparse')).1]

/-- What is stored for a live entry has a header, which is not one of a deleted entry. -/
theorem LiveAt.parse (h : LiveAt d a i ts) (hget : d.get (domainKey a i) = some v) :
    ∃ hdr app, Header.parse v = .ok (hdr, app) ∧ Header.isDeleted hdr.flags = false := by
  obtain ⟨v', hdr, app, hget', hparse, hflags, -⟩ := h
  obtain rfl := Option.some.inj (hget.symm.trans hget')
  exact ⟨hdr, app, hparse, hflags⟩

theorem LiveAt.not_deleted {hdr : Header} {app : Bytes} (h : LiveAt d a i ts)
    (hget : d.get (domainKey a i) = some v) (hparse : Header.parse v = .ok (hdr, app)) :
    Header.isDeleted hdr.flags = false := by
  obtain ⟨hdr', app', hparse', hflags⟩ := h.parse hget
  rw [hparse] at hparse'
  rw [(Prod.mk.inj (Except.ok.inj hparse')).1, hflags]

theorem LiveAt.congr (h : LiveAt d a i ts)
    (heq : d'.get (domainKey a i) = d.get (domainKey a i)) : LiveAt d' a i ts := by
  obtain ⟨v, hdr, app, hget, hrest⟩ := h
  exact ⟨v, hdr, app, heq.trans hget, hrest⟩

theorem parse_patch (ts : Timestamp) (txnID : TxnID) (flags : Flags) :
    Header.parse (Header.putBasic ts txnID flags) = .ok (⟨ts, txnID, 0, flags, 0, []⟩, []) := by
  have h := Header.parse_putBasic ts txnID flags []
  rwa [List.append_nil] at h

end Live

/-! ## Moved entries -/

/-- The DBI `d'` is `d` with some entries marked and added under their new names. -/
structure Moved (d : Dbi) (lost : Bytes → UInt32 → Prop) (d' : Dbi) : Prop where
  flags : d'.flags = d.flags
  marked : ∀ a i, lost a i →
    ∃ ts txnID, d'.get (domainKey a i) = some (Header.putBasic ts txnID Header.flagDeleted)
  added : ∀ a i, lost a i → ∃ ts txnID,
    d'.get (domainKey (newDomain i a) i) = some (Header.putBasic ts txnID Header.noFlags)
  kept : ∀ k, (∀ a i, lost a i → k ≠ domainKey a i ∧ k ≠ domainKey (newDomain i a) i) →
    d'.get k = d.get k

section Moved

variable {d d' : Dbi} {lost : Bytes → UInt32 → Prop} {a b : Bytes} {i j : UInt32} {k v : Bytes}

theorem moved_refl (d : Dbi) : Moved d (fun _ _ => False) d :=
  ⟨rfl, fun _ _ => False.elim, fun _ _ => False.elim, fun _ _ => rfl⟩

theorem Moved.congr {lost' : Bytes → UInt32 → Prop} (h : Moved d lost d')
    (heq : ∀ a i, lost' a i ↔ lost a i) : Moved d lost' d' := by
  obtain rfl : lost' = lost := funext fun a => funext fun i => propext (heq a i)
  exact h

/-- An entry is as it was, or marked, or an added one. -/
theorem Moved.cases (h : Moved d lost d') (k : Bytes) :
    d'.get k = d.get k ∨ (∃ a i, lost a i ∧ k = domainKey a i) ∨
      ∃ a i, lost a i ∧ k = domainKey (newDomain i a) i := by
  by_cases hk : ∀ a i, lost a i → k ≠ domainKey a i ∧ k ≠ domainKey (newDomain i a) i
  · exact Or.inl (h.kept k hk)
  · push Not at hk
    obtain ⟨a, i, hlost, hk⟩ := hk
    by_cases hka : k = domainKey a i
    · exact Or.inr (Or.inl ⟨a, i, hlost, hka⟩)
    · exact Or.inr (Or.inr ⟨a, i, hlost, hk hka⟩)

theorem Moved.mem_keys (h : Moved d lost d') (hk : k ∈ d.keys) : k ∈ d'.keys := by
  obtain ⟨v, hv⟩ := Dbi.mem_keys_iff.mp hk
  rcases h.cases k with heq | ⟨a, i, hlost, rfl⟩ | ⟨a, i, hlost, rfl⟩
  · exact Dbi.mem_keys_iff.mpr ⟨v, heq.trans hv⟩
  · obtain ⟨ts, txnID, hget⟩ := h.marked a i hlost
    exact Dbi.mem_keys_iff.mpr ⟨_, hget⟩
  · obtain ⟨ts, txnID, hget⟩ := h.added a i hlost
    exact Dbi.mem_keys_iff.mpr ⟨_, hget⟩

theorem Moved.length_lt (h : Moved d lost d') (hlost : lost a i) :
    (newDomain i a).length < 2 ^ 16 := by
  obtain ⟨ts, txnID, hget⟩ := h.added a i hlost
  exact length_lt_of_mem (Dbi.mem_keys_iff.mpr ⟨_, hget⟩)

/-- The key of a domain of the index is not one that is added. -/
theorem Repairable.ne_added (hd : Repairable d) (ha : domainKey a i ∈ d.keys)
    (hb : (newDomain j b).length < 2 ^ 16) : domainKey a i ≠ domainKey (newDomain j b) j := by
  intro heq
  obtain ⟨rfl, -⟩ := domainKey_inj (length_lt_of_mem ha) hb heq
  exact hd.names _ _ ha (isRenamed_newDomain j b)

/-- Move one more entry. -/
theorem Moved.insert {d'' : Dbi} {ts ts' : Timestamp} {txnID : TxnID} (hd : Repairable d)
    (h : Moved d lost d') (hlost : ∀ b j, lost b j → domainKey b j ∈ d.keys)
    (ha : domainKey a i ∈ d.keys) (hlen : (newDomain i a).length < 2 ^ 16)
    (hflags : d''.flags = d'.flags)
    (hget : ∀ k, d''.get k = if k = domainKey (newDomain i a) i then
      some (Header.putBasic ts' txnID Header.noFlags) else if k = domainKey a i then
      some (Header.putBasic ts txnID Header.flagDeleted) else d'.get k) :
    Moved d (fun b j => lost b j ∨ b = a ∧ j = i) d'' where
  flags := hflags.trans h.flags
  marked b j hbj := by
    have hmem : domainKey b j ∈ d.keys := by
      rcases hbj with hbj | ⟨rfl, rfl⟩
      · exact hlost b j hbj
      · exact ha
    rw [hget, if_neg (hd.ne_added hmem hlen)]
    split
    · exact ⟨ts, txnID, rfl⟩
    · rename_i hne
      rcases hbj with hbj | ⟨rfl, rfl⟩
      · exact h.marked b j hbj
      · exact absurd rfl hne
  added b j hbj := by
    rw [hget]
    split
    · exact ⟨ts', txnID, rfl⟩
    · rename_i hne
      rcases hbj with hbj | ⟨rfl, rfl⟩
      · rw [if_neg (hd.ne_added ha (h.length_lt hbj)).symm]
        exact h.added b j hbj
      · exact absurd rfl hne
  kept k hk := by
    obtain ⟨hne, hne'⟩ := hk a i (Or.inr ⟨rfl, rfl⟩)
    rw [hget, if_neg hne', if_neg hne]
    exact h.kept k fun b j hbj => hk b j (Or.inl hbj)

end Moved

/-! ## What renaming does -/

namespace Fixing

/-- The states are on the same entry and have kept the same one. -/
structure SameWalk (s s' : Fixing) : Prop where
  scan : s'.scan = s.scan
  prevDomain : s'.prevDomain = s.prevDomain
  prevHeader : s'.prevHeader = s.prevHeader
  prevID : s'.prevID = s.prevID

variable {d : Dbi} {lost : Bytes → UInt32 → Prop} {a : Bytes} {i : UInt32} {s s' s'' : Fixing}

theorem SameWalk.trans (h : SameWalk s s') (h' : SameWalk s' s'') : SameWalk s s'' :=
  ⟨h'.scan.trans h.scan, h'.prevDomain.trans h.prevDomain, h'.prevHeader.trans h.prevHeader,
    h'.prevID.trans h.prevID⟩

variable (now : ℕ → Timestamp) (txnID : TxnID)

theorem patchDomain_ok (flags : Flags)
    (h : s.txn.dbi.flags.Allowed (domainKey a i :: s.txn.dbi.keys)) :
    ∃ s', s.patchDomain now txnID a i flags = .ok s' ∧ SameWalk s s' ∧
      s'.txn.dbi.flags = s.txn.dbi.flags ∧ ∀ k, s'.txn.dbi.get k = if k = domainKey a i then
        some (Header.putBasic (now s.patches) txnID flags) else s.txn.dbi.get k := by
  have hput := @Txn.put_of_allowed s.txn _ (Header.putBasic (now s.patches) txnID flags) h
  refine ⟨{ s with txn := ⟨s.txn.dbi.set _ _ h, true⟩, patches := s.patches + 1 }, ?_,
    ⟨rfl, rfl, rfl, rfl⟩, Txn.put_spec hput⟩
  rw [patchDomain, hput]

theorem allowed_plain {d : Dbi} {k : Bytes} (hd : d.flags = KeyFlags.plain) (hk : 1 ≤ k.length)
    (hk' : k.length ≤ maxKeySize) : d.flags.Allowed (k :: d.keys) := by
  refine ⟨fun j hj => ?_, fun h => ?_⟩
  · rcases List.mem_cons.mp hj with rfl | hj
    · exact ⟨hk, hk'⟩
    · exact d.keys_allowed.1 j hj
  · rw [hd] at h
    cases h

/-- Renaming succeeds if the new key fits, and moves one entry. -/
theorem rename_ok (hd : Repairable d) (h : Moved d lost s.txn.dbi)
    (hlost : ∀ b j, lost b j → domainKey b j ∈ d.keys) (ha : domainKey a i ∈ d.keys)
    (hfit : (domainKey (newDomain i a) i).length ≤ maxKeySize) :
    ∃ s', s.rename now txnID a i = .ok s' ∧ SameWalk s s' ∧
      Moved d (fun b j => lost b j ∨ b = a ∧ j = i) s'.txn.dbi ∧
      ∀ k ∈ s'.txn.dbi.keys, k = domainKey (newDomain i a) i ∨ k ∈ s.txn.dbi.keys := by
  obtain ⟨v, hv⟩ := Dbi.mem_keys_iff.mp (h.mem_keys ha)
  obtain ⟨s₁, hmark, hsame₁, hflags₁, hget₁⟩ :=
    patchDomain_ok now txnID Header.flagDeleted (Txn.allowed_of_get hv)
  have hplain : s₁.txn.dbi.flags = KeyFlags.plain := hflags₁.trans (h.flags.trans hd.plain)
  have hpos : 1 ≤ (domainKey (newDomain i a) i).length := by
    rw [domainKey_length]
    omega
  obtain ⟨s₂, hadd, hsame₂, hflags₂, hget₂⟩ :=
    patchDomain_ok now txnID Header.noFlags (allowed_plain hplain hpos hfit)
  have hlen : (newDomain i a).length < 2 ^ 16 := by
    rw [domainKey_length, maxKeySize] at hfit
    omega
  have hget : ∀ k, s₂.txn.dbi.get k = if k = domainKey (newDomain i a) i then
      some (Header.putBasic (now s₁.patches) txnID Header.noFlags) else if k = domainKey a i then
      some (Header.putBasic (now s.patches) txnID Header.flagDeleted) else s.txn.dbi.get k := by
    intro k
    rw [hget₂, hget₁]
  obtain ⟨hscan, hdomain, hheader, hid⟩ := hsame₁.trans hsame₂
  refine ⟨_, bind_eq_ok.mpr ⟨_, hmark, bind_eq_ok.mpr ⟨_, hadd, rfl⟩⟩,
    ⟨hscan, hdomain, hheader, hid⟩, h.insert hd hlost ha hlen (hflags₂.trans hflags₁) hget, ?_⟩
  intro k hk
  obtain ⟨w, hw⟩ := Dbi.mem_keys_iff.mp hk
  replace hw : s₂.txn.dbi.get k = some w := hw
  rw [hget] at hw
  split at hw
  · exact Or.inl ‹_›
  · split at hw
    · rename_i hka
      rw [hka]
      exact Or.inr (h.mem_keys ha)
    · exact Or.inr (Dbi.mem_keys_iff.mpr ⟨w, hw⟩)

end Fixing

end LightningStream.Commands
