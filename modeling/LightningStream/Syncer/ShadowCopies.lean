import LightningStream.Syncer.Convergence
import LightningStream.Syncer.ShadowLoop

/-!
# Copying to the shadow and back

`mainToShadow` decides the entry of every key from what the main DBI and the
shadow have for it, and a second copy finds nothing to do
(`mainToShadow_every_key`).

`shadowToMain` does not look at flags: it takes an empty value for a deletion. So
it depends on everything that is ever written to a shadow to leave no value behind
a Deleted flag, which headers from malformed snapshots do not promise by
themselves. They are stripped when they are merged (`Reached.native`). What is left
is the order of keys: a main DBI kept in reverse order may be walked wrongly
(`InPlace` says when it is not), and the integer key 0 is refused
(`tombstones_stay_out`).
-/

namespace LightningStream.Syncer

open Lmdb Snapshot Strategy Header ShadowLoop Convergence

variable {name : Bytes} {cutoff ts : Timestamp} {txnID : TxnID}

/-! ## A copy that finds nothing to do -/

/-- A main DBI in the walk's order, listed by a cursor. -/
theorem sorted_of_inOrder {d : Dbi} (hord : InOrder d.flags)
    (hzero : ∀ k ∈ d.keys, Less d.flags.integerKey [] k) :
    ([] :: d.keys).Pairwise (Less d.flags.integerKey) :=
  List.pairwise_cons.mpr ⟨hzero, keys_less hord⟩

/-- **Where the shadow agrees with the main DBI everywhere, a copy changes nothing.** -/
theorem mainToShadow_of_agrees (p : ShadowPair) (hvalid : HeadersValid p.shadow)
    (hagrees : ∀ k, Agrees ⟨p.main, p.shadow⟩ k)
    (hsorted : ([] :: p.main.keys).Pairwise (Less p.main.flags.integerKey)) (htxn : txnID ≠ 0)
    (b : Bool) :
    ∃ t, mainToShadow name cutoff ts txnID p.main ⟨p.shadow, b⟩ = .ok t ∧ t.dbi = p.shadow := by
  obtain ⟨t, hrun, hflags, hget⟩ := mainToShadow_spec p hvalid htxn hsorted b
  refine ⟨t, hrun, Dbi.ext_get hflags fun k => (hget k).trans ?_⟩
  exact shadowedValue_of_agrees (d := ⟨p.main, p.shadow⟩) hvalid (hagrees k)

/-! ## The copy to the shadow, for every key -/

section Plain

variable {main shadow : Dbi}

theorem inOrder_plain {d : Dbi} (h : d.flags = KeyFlags.plain) : InOrder d.flags :=
  inOrder_of_forward (by rw [h]; rfl)

theorem nil_less_plain {d : Dbi} (h : d.flags = KeyFlags.plain) :
    ∀ k ∈ d.keys, Less d.flags.integerKey [] k := by
  intro k hk
  obtain ⟨v, hv⟩ := Dbi.mem_keys_iff.mp hk
  rw [h]
  exact nil_less (Txn.ne_nil_of_get hv)

/-- Two DBIs without flags. -/
def plainPair (main shadow : Dbi) (hm : main.flags = KeyFlags.plain)
    (hs : shadow.flags = KeyFlags.plain) : ShadowPair where
  main := main
  shadow := shadow
  flags := by rw [hm, hs]; rfl
  sizes := by
    rw [hs]
    refine ⟨fun k hk => ?_, nofun⟩
    rcases List.mem_append.mp hk with hk | hk
    · exact main.keys_allowed.1 k hk
    · exact shadow.keys_allowed.1 k hk

/-- The shadow has nothing from `ts` or later. -/
def Before (ts : Timestamp) (shadow : Dbi) : Prop :=
  ∀ k old h app, shadow.get k = some old → parse old = .ok (h, app) → h.timestamp < ts

/-- After a copy that is newer than everything, the shadow agrees. -/
theorem Outcome.agrees {sh : Dbi} (hbefore : Before ts shadow) {k : Bytes}
    (h : Outcome ts (main.get k) (shadow.get k) (sh.get k)) : Agrees ⟨main, sh⟩ k := by
  unfold Agrees
  cases hm : main.get k with
  | some v =>
      cases hs : shadow.get k with
      | none =>
          rw [hm, hs] at h
          obtain ⟨raw, hd, hraw, hp, -⟩ := h
          exact ⟨raw, hd, hraw, hp⟩
      | some old =>
          rw [hm, hs] at h
          rcases h with ⟨⟨hd, app, hp, hret⟩, hraw⟩ | ⟨-, raw, hd, hraw, hp, -⟩
          · have hlt := hbefore k old hd app hs hp
            rcases hret with rfl | hgt | ⟨heq, -⟩
            · exact ⟨old, hd, hraw, hp⟩
            · exact absurd hlt hgt.not_gt
            · exact absurd hlt (by rw [heq]; exact lt_irrefl _)
          · exact ⟨raw, hd, hraw, hp⟩
  | none =>
      intro raw hd app hraw hp
      cases hs : shadow.get k with
      | none =>
          rw [hm, hs, hraw] at h
          cases h
      | some old =>
          rw [hm, hs, hraw] at h
          rcases h with ⟨htomb, heq⟩ | ⟨-, raw', hd', heq, hp', -, hfl⟩
          · obtain rfl := Option.some.inj heq
            exact (tombstone_iff hp).mp htomb
          · obtain rfl := Option.some.inj heq
            rw [hp] at hp'
            cases hp'
            rw [hfl]
            exact isDeleted_flagDeleted

/-- **What `mainToShadow` does to every key**, and that doing it again changes
nothing if the first time was after everything the shadow had. -/
theorem mainToShadow_every_key (hm : main.flags = KeyFlags.plain)
    (hs : shadow.flags = KeyFlags.plain) (hvalid : HeadersValid shadow) (htxn : txnID ≠ 0)
    (b : Bool) :
    ∃ t, mainToShadow name cutoff ts txnID main ⟨shadow, b⟩ = .ok t ∧
      (∀ k, Outcome ts (main.get k) (shadow.get k) (t.dbi.get k)) ∧
      (Before ts shadow → ∀ name' cutoff' ts' txnID' b', txnID' ≠ 0 →
        ∃ t', mainToShadow name' cutoff' ts' txnID' main ⟨t.dbi, b'⟩ = .ok t' ∧
          t'.dbi = t.dbi) := by
  obtain ⟨t, hrun, hflags, hget⟩ := @mainToShadow_spec name cutoff ts txnID
    (plainPair main shadow hm hs) hvalid htxn
    (sorted_of_inOrder (inOrder_plain hm) (nil_less_plain hm)) b
  have hout : ∀ k, Outcome ts (main.get k) (shadow.get k) (t.dbi.get k) := by
    intro k
    rw [hget k]
    exact shadowedValue_outcome hvalid k
  refine ⟨t, hrun, hout, fun hbefore name' cutoff' ts' txnID' b' htxn' => ?_⟩
  have hvalid' : HeadersValid t.dbi := fun k raw hraw => (hout k).valid (hvalid k) hraw
  exact mainToShadow_of_agrees (plainPair main t.dbi hm (hflags.trans hs)) hvalid'
    (fun k => (hout k).agrees hbefore)
    (sorted_of_inOrder (inOrder_plain hm) (nil_less_plain hm)) htxn' b'

/-- A key that was deleted at time 3 is set again. -/
def sampleMain : Dbi := (Dbi.empty KeyFlags.plain).set [1] [7] Dbi.allowed_one

def sampleShadow : Dbi :=
  (Dbi.empty KeyFlags.plain).set [1] (putBasic 3 1 flagDeleted ++ []) Dbi.allowed_one

theorem sampleShadow_get (k : Bytes) :
    sampleShadow.get k = if k = [1] then some (putBasic 3 1 flagDeleted ++ []) else none :=
  Dbi.get_set (by decide)

theorem mainToShadow_every_key_sample :
    ∃ t, mainToShadow [] 0 5 1 sampleMain (Txn.start sampleShadow) = .ok t ∧
      Stamped 5 noFlags [7] (t.dbi.get [1]) ∧
      ∃ t', mainToShadow [] 0 9 2 sampleMain (Txn.start t.dbi) = .ok t' ∧ t'.dbi = t.dbi := by
  have hparse := parse_putBasic 3 1 flagDeleted []
  have hvalid : HeadersValid sampleShadow := by
    intro k v hk
    rw [sampleShadow_get] at hk
    split_ifs at hk
    exact ⟨_, Option.some.inj hk ▸ hparse⟩
  have hbefore : Before 5 sampleShadow := by
    intro k old h app hk hp
    rw [sampleShadow_get] at hk
    split_ifs at hk
    rw [← Option.some.inj hk, hparse] at hp
    cases hp
    decide
  obtain ⟨t, hrun, hout, hagain⟩ := @mainToShadow_every_key [] 0 5 1 sampleMain sampleShadow rfl
    rfl hvalid (by decide) false
  refine ⟨t, hrun, ?_, hagain hbefore [] 0 9 2 false (by decide)⟩
  have hone : Outcome 5 (some [7]) (some (putBasic 3 1 flagDeleted ++ [])) (t.dbi.get [1]) :=
    hout [1]
  rcases hone with ⟨hret, -⟩ | ⟨-, hstamped⟩
  · exact absurd ((retained_iff hparse).mp hret) (by decide)
  · exact hstamped

end Plain

/-! ## What is ever stored in a shadow -/

/-- The shadows of a main DBI with flags `f`: created empty, then changed by copies of
whatever the main DBI held and by merges of whatever snapshots contained. -/
inductive Reached (f : KeyFlags) : Dbi → Prop
  | create : Reached f (Dbi.empty (shadowFlags f))
  | copy {name : Bytes} {cutoff ts : Timestamp} {txnID : TxnID} {main d : Dbi} {b : Bool}
      {t : Txn} :
      Reached f d → main.flags = f → mainToShadow name cutoff ts txnID main ⟨d, b⟩ = .ok t →
      Reached f t.dbi
  | load {η : Type} {padding : Bool} {cutoff : Timestamp} {fv cv : UInt32} {txnID : TxnID}
      {msg : Reading η} {d : Dbi} {b : Bool} {t : Txn} :
      Reached f d → applyMessage padding cutoff fv cv txnID msg ⟨d, b⟩ = .ok t → Reached f t.dbi

/-- Whatever flags and value `addHeader` is given, no value is left behind a Deleted
flag. -/
theorem native_addHeader (it : NativeIterator) (v : Bytes) (ts : Timestamp) (flags : Flags) :
    NativeValue (it.addHeader v ts flags) := by
  obtain ⟨h, hp, -, -, hfl⟩ := parse_addHeader it v ts flags
  refine ⟨h, _, hp, fun hdel => ?_⟩
  rw [hfl] at hdel
  unfold NativeIterator.writtenVal
  exact if_pos hdel

theorem respects_native {η : Type} (it : NativeIterator) (msg : Reading η) :
    Respects (it.iterator msg) NativeValue := by
  constructor
  · rintro kv old r v hold hm hv
    have hm : it.merge kv (old.getD []) = .ok r := mapError_eq_ok.mp hm
    have hr := (present_eq_some.mp hv).1
    cases old with
    | none =>
        unfold NativeIterator.merge at hm
        rw [Option.getD_none, if_pos rfl, hr] at hm
        split at hm
        · cases hm
        · cases hm
          exact native_addHeader it _ _ _
    | some old =>
        obtain ⟨h, app, hp, hdel⟩ := hold old rfl
        rw [Option.getD_some, merge_of_parse it hp, hr] at hm
        obtain rfl := Option.some.inj (Except.ok.inj hm)
        split
        · exact ⟨h, app, hp, hdel⟩
        · exact native_addHeader it _ _ _
  · rintro cur old v ⟨h, app, hp, hdel⟩ hc
    have hc : it.clean old = .ok (some v) := mapError_eq_ok.mp hc
    rw [clean_of_parse it hp] at hc
    obtain rfl := Option.some.inj (Except.ok.inj hc)
    split
    · exact ⟨h, app, hp, hdel⟩
    · exact native_addHeader it _ _ _

/-- **Every value of a shadow has a header, and Deleted ones have nothing else.** -/
theorem Reached.native {f : KeyFlags} {d : Dbi} (h : Reached f d) :
    d.flags = shadowFlags f ∧ ∀ k v, d.get k = some v → NativeValue v := by
  induction h with
  | create => exact ⟨rfl, nofun⟩
  | copy _ _ hrun ih =>
      rw [mainToShadow_eq (mainToShadow_txnID hrun)] at hrun
      obtain ⟨hflags, hvals⟩ := iterUpdate_stored (respects_native _ _) ih.2
        (mapError_eq_ok.mp hrun)
      exact ⟨hflags.trans ih.1, hvals⟩
  | load _ hrun ih =>
      obtain ⟨hflags, hvals⟩ := update_stored (respects_native _ _) ih.2 (applyMessage_ok hrun)
      exact ⟨hflags.trans ih.1, hvals⟩

theorem headersValid_of_native {d : Dbi} (h : ∀ k v, d.get k = some v → NativeValue v) :
    HeadersValid d := by
  intro k v hk
  obtain ⟨hd, app, hp, -⟩ := h k v hk
  exact ⟨_, hp⟩

/-- A copy leaves nothing behind a Deleted flag either, if there was nothing. -/
theorem Outcome.native {m s a : Option Bytes} (h : Outcome ts m s a)
    (hs : ∀ old, s = some old → NativeValue old) {raw : Bytes} (ha : a = some raw) :
    NativeValue raw := by
  have hstamped : ∀ {flags v}, (isDeleted flags = true → v = []) → Stamped ts flags v a →
      NativeValue raw := by
    rintro flags v hv ⟨raw', hd, hraw, hp, -, rfl⟩
    obtain rfl : raw = raw' := Option.some.inj (ha.symm.trans hraw)
    exact ⟨hd, v, hp, hv⟩
  have hkept : ∀ {old}, s = some old → a = some old → NativeValue raw := by
    intro old hold hsame
    exact hs raw (hold.trans (hsame.symm.trans ha))
  rcases m with - | v <;> rcases s with - | old
  · rw [show a = none from h] at ha
    cases ha
  · exact h.elim (fun h => hkept rfl h.2) (fun h => hstamped (fun _ => rfl) h.2)
  · exact hstamped nil_of_noFlags h
  · exact h.elim (fun h => hkept rfl h.2) (fun h => hstamped nil_of_noFlags h.2)

/-! ## What the copy back gives the application -/

/-- The application sees the live entries of the shadow that have a value, and no
tombstones. -/
structure Restored (shadow main : Dbi) : Prop where
  gone : ∀ k, (∀ raw, shadow.get k = some raw → Tombstone raw) → main.get k = none
  live : ∀ k raw h app, shadow.get k = some raw → parse raw = .ok (h, app) →
    isDeleted h.flags = false → app ≠ [] → main.get k = some app

def NoLiveEmpty (shadow : Dbi) : Prop :=
  ∀ k raw h app, shadow.get k = some raw → parse raw = .ok (h, app) →
    isDeleted h.flags = false → app ≠ []

/-- `shadowToMain` restores the main DBI, and a copy to the shadow after it finds
nothing to do, unless a live entry had no value. -/
def Faithful (p : ShadowPair) : Prop :=
  ∀ name b, ∃ t, shadowToMain name p.shadow ⟨p.main, b⟩ = .ok t ∧ Restored p.shadow t.dbi ∧
    (NoLiveEmpty p.shadow → ∀ name' cutoff ts txnID b', txnID ≠ 0 →
      ∃ t', mainToShadow name' cutoff ts txnID t.dbi ⟨p.shadow, b'⟩ = .ok t' ∧
        t'.dbi = p.shadow)

section Restored

variable {shadow main : Dbi}

theorem plainValue_of_parse {k raw app : Bytes} {h : Header} (hraw : shadow.get k = some raw)
    (hp : parse raw = .ok (h, app)) : plainValue shadow k = present (some app) := by
  rw [plainValue, hraw, Option.bind_some, appOf_of_parse hp]

theorem restored_of_plainValue (hvals : ∀ k v, shadow.get k = some v → NativeValue v)
    (hget : ∀ k, main.get k = plainValue shadow k) : Restored shadow main := by
  constructor
  · intro k htomb
    rw [hget k]
    cases hs : shadow.get k with
    | none => rw [plainValue, hs, Option.bind_none]
    | some raw =>
        obtain ⟨h, app, hp, hdel⟩ := hvals k raw hs
        rw [plainValue_of_parse hs hp, hdel ((tombstone_iff hp).mp (htomb raw hs)), present_nil]
  · intro k raw h app hs hp _ happ
    rw [hget k, plainValue_of_parse hs hp]
    exact present_eq_some.mpr ⟨rfl, happ⟩

/-- The shadow agrees with what was copied out of it. -/
theorem agrees_of_plainValue (hvals : ∀ k v, shadow.get k = some v → NativeValue v)
    (hget : ∀ k, main.get k = plainValue shadow k) (hlive : NoLiveEmpty shadow) (k : Bytes) :
    Agrees ⟨main, shadow⟩ k := by
  unfold Agrees
  simp only
  rw [hget k]
  cases hv : plainValue shadow k with
  | some v =>
      obtain ⟨raw, hs, hpres⟩ := Option.bind_eq_some_iff.mp hv
      obtain ⟨h, app, hp, -⟩ := hvals k raw hs
      rw [appOf_of_parse hp] at hpres
      exact ⟨raw, h, hs, by rw [hp, Option.some.inj (present_eq_some.mp hpres).1]⟩
  | none =>
      intro raw h app hs hp
      by_contra hdel
      have happ := hlive k raw h app hs hp (by simpa using hdel)
      rw [plainValue_of_parse hs hp, present_eq_some.mpr ⟨rfl, happ⟩] at hv
      cases hv

end Restored

/-! ## The order of the main DBI -/

/-- The live keys of the shadow can be copied to the main DBI, and it then lists them in the
order that a copy to the shadow asks for. -/
structure InPlace (p : ShadowPair) : Prop where
  takes : ∀ k, plainValue p.shadow k ≠ none → p.Takes k
  listed : NoLiveEmpty p.shadow → ∀ j k, plainValue p.shadow j ≠ none →
    plainValue p.shadow k ≠ none → Less p.main.flags.integerKey j k → p.main.before j k

theorem inPlace_of_inOrder {p : ShadowPair} (hord : InOrder p.main.flags) : InPlace p where
  takes := fun _ hk => takes_of_inOrder hord hk
  listed := fun _ _ _ hj hk hless =>
    (less_iff_rank hord p.allowed (List.mem_append_right _ (ShadowPair.live_mem hj))
      (List.mem_append_right _ (ShadowPair.live_mem hk))).mp hless

section InPlace

variable {p : ShadowPair} {t : Txn}

/-- A main DBI that holds the live entries of the shadow. -/
theorem keys_of_plainValue (hget : ∀ k, t.dbi.get k = plainValue p.shadow k) {k : Bytes} :
    k ∈ t.dbi.keys ↔ plainValue p.shadow k ≠ none := by
  rw [← hget k, ne_eq, Dbi.get_eq_none_iff, not_not]

/-- It is listed in the walk's order. -/
theorem InPlace.sorted (h : InPlace p) (hlive : NoLiveEmpty p.shadow)
    (hzero : ∀ k ∈ p.shadow.keys, Less p.main.flags.integerKey [] k)
    (hflags : t.dbi.flags = p.main.flags) (hget : ∀ k, t.dbi.get k = plainValue p.shadow k) :
    ([] :: t.dbi.keys).Pairwise (Less t.dbi.flags.integerKey) := by
  have hmem : ∀ {k}, k ∈ t.dbi.keys → k ∈ p.shadow.keys := fun hk =>
    ShadowPair.live_mem ((keys_of_plainValue hget).mp hk)
  rw [hflags]
  refine List.pairwise_cons.mpr ⟨fun k hk => hzero k (hmem hk), ?_⟩
  refine t.dbi.keys_sorted.imp_of_mem fun {j k} hj hk hbefore => ?_
  rw [Dbi.before, hflags] at hbefore
  cases hcmp : cmpFunc p.main.flags.integerKey j k with
  | lt => exact hcmp
  | eq =>
      obtain rfl := eq_of_cmpFunc_eq p.allowed (List.mem_append_right _ (hmem hj))
        (List.mem_append_right _ (hmem hk)) hcmp
      exact absurd hbefore (lt_irrefl _)
  | gt =>
      have hback := h.listed hlive k j ((keys_of_plainValue hget).mp hk)
        ((keys_of_plainValue hget).mp hj) (less_of_gt hcmp)
      exact absurd (hbefore.trans hback) (lt_irrefl _)

theorem faithful_of_inPlace (h : InPlace p)
    (hvals : ∀ k v, p.shadow.get k = some v → NativeValue v)
    (hzero : ∀ k ∈ p.shadow.keys, Less p.main.flags.integerKey [] k) : Faithful p := by
  intro name b
  have hvalid := headersValid_of_native hvals
  obtain ⟨t, hrun, hflags, hget⟩ := @shadowToMain_of_takes name p hvalid hzero h.takes b
  refine ⟨t, hrun, restored_of_plainValue hvals hget, ?_⟩
  intro hlive name' cutoff ts txnID b' htxn
  have hsizes : p.shadow.flags.Allowed (t.dbi.keys ++ p.shadow.keys) := by
    apply p.shadow.keys_allowed.subset
    intro k hk
    exact (List.mem_append.mp hk).elim
      (fun hk => ShadowPair.live_mem ((keys_of_plainValue hget).mp hk)) id
  exact mainToShadow_of_agrees ⟨t.dbi, p.shadow, by rw [p.flags, hflags], hsizes⟩ hvalid
    (agrees_of_plainValue hvals hget hlive) (h.sorted hlive hzero hflags hget) htxn b'

/-- What is restored includes every live entry with a value. -/
theorem Restored.kept {shadow main : Dbi} (h : Restored shadow main)
    (hvals : ∀ k v, shadow.get k = some v → NativeValue v) {k : Bytes}
    (hk : plainValue shadow k ≠ none) : main.get k ≠ none := by
  cases hs : shadow.get k with
  | none =>
      rw [plainValue, hs] at hk
      exact absurd rfl hk
  | some raw =>
      obtain ⟨hd, app, hp, hdel⟩ := hvals k raw hs
      have happ : app ≠ [] := by
        rintro rfl
        rw [plainValue_of_parse hs hp] at hk
        exact hk present_nil
      have hlive : isDeleted hd.flags = false := by
        by_contra hne
        exact happ (hdel (by simpa using hne))
      rw [h.live k raw hd app hs hp hlive happ]
      exact Option.some_ne_none app

theorem inPlace_of_faithful (hvals : ∀ k v, p.shadow.get k = some v → NativeValue v)
    (h : Faithful p) : InPlace p := by
  obtain ⟨t, hrun, hrestored, hagain⟩ := h [] false
  obtain ⟨hvalid, hzero⟩ := shadowToMain_sorted hrun
  have htakes := takes_of_shadowToMain hrun fun k hk => hrestored.kept hvals hk
  obtain ⟨t₂, hrun₂, hflags, hget⟩ := shadowToMain_of_takes hvalid
    (List.pairwise_cons.mp hzero).1 htakes false
  obtain rfl : t = t₂ := Except.ok.inj (hrun.symm.trans hrun₂)
  refine ⟨htakes, fun hlive j k hj hk hless => ?_⟩
  -- the copy to the shadow that follows has accepted the order of the main DBI
  obtain ⟨t', hcopy, -⟩ := hagain hlive [] 0 0 1 false (by decide)
  have hsorted := (List.pairwise_cons.mp (mainToShadow_sorted (by decide) hcopy)).2
  rw [show (⟨p.shadow, false⟩ : Txn).dbi.flags.integerKey = _ from p.integerKey] at hsorted
  have hbefore := before_of_less hsorted ((keys_of_plainValue hget).mpr hj)
    ((keys_of_plainValue hget).mpr hk) hless
  rwa [Dbi.before, hflags] at hbefore

/-- **Exactly when both copies do what they are for.** -/
theorem faithful_iff (hvals : ∀ k v, p.shadow.get k = some v → NativeValue v) :
    Faithful p ↔ (∀ k ∈ p.shadow.keys, Less p.main.flags.integerKey [] k) ∧ InPlace p := by
  constructor
  · intro h
    obtain ⟨t, hrun, -⟩ := h [] false
    exact ⟨(List.pairwise_cons.mp (shadowToMain_sorted hrun).2).1, inPlace_of_faithful hvals h⟩
  · rintro ⟨hzero, h⟩
    exact faithful_of_inPlace h hvals hzero

end InPlace

/-! ## A main DBI in another order -/

/-- Two live entries, in a snapshot and in a shadow. -/
def twoEntries : Reading Empty := Reading.ofList [⟨[97, 50], [7], 4, 0⟩, ⟨[98, 49], [8], 4, 0⟩]

def twoShadow : Dbi :=
  ((Dbi.empty KeyFlags.plain).set [97, 50] (putBasic 4 1 noFlags ++ [7]) (by decide)).set
    [98, 49] (putBasic 4 1 noFlags ++ [8]) (by decide)

/-- A main DBI with `MDB_REVERSEKEY` that holds the same keys, the second one first. -/
def reversed : KeyFlags := ⟨true, false⟩

def reversedMain : Dbi :=
  ((Dbi.empty reversed).set [97, 50] [7] (by decide)).set [98, 49] [8] (by decide)

def reversedPair : ShadowPair := ⟨reversedMain, twoShadow, rfl, by decide⟩

theorem reached_twoShadow {f : KeyFlags} (hf : f.integerKey = false) : Reached f twoShadow := by
  have hload : applyMessage false 0 3 2 1 twoEntries (Txn.start (Dbi.empty KeyFlags.plain)) =
      .ok ⟨twoShadow, true⟩ := by
    decide +kernel
  have hnew : Reached f (Dbi.empty KeyFlags.plain) := by
    rw [show KeyFlags.plain = shadowFlags f from KeyFlags.ext rfl hf.symm]
    exact Reached.create
  exact Reached.load hnew hload

/-- The second key is the one that comes first, so the walk would add the first one ahead
of the cursor. -/
theorem reversed_not_inPlace : ¬ InPlace reversedPair := by
  intro h
  have hplace := (h.takes [97, 50] (by decide +kernel)).behind ([98, 49], [8]) (by decide +kernel)
    (by decide +kernel)
  exact absurd hplace (by decide +kernel)

/-- **Tombstones never leak into the main DBI.** Whatever was merged into a shadow, its
Deleted entries are empty. The copies are then faithful exactly if the shadow does not
have the integer key 0, which is refused, and its live keys are in place. They always
are in a main DBI whose order the walk knows, and in no other. -/
theorem tombstones_stay_out (f : KeyFlags) :
    (∀ d, Reached f d → ∀ k raw, d.get k = some raw → NativeValue raw) ∧
    (∀ p : ShadowPair, p.main.flags = f → Reached f p.shadow →
      (Faithful p ↔ (∀ k ∈ p.shadow.keys, Less f.integerKey [] k) ∧ InPlace p)) ∧
    (InOrder f ↔ ∀ p : ShadowPair, p.main.flags = f → Reached f p.shadow → InPlace p) := by
  refine ⟨fun d hd => hd.native.2, ?_, ?_, ?_⟩
  · rintro p rfl hreached
    exact faithful_iff hreached.native.2
  · rintro hord p rfl -
    exact inPlace_of_inOrder hord
  · intro hall hrev
    by_contra hint
    have hf : f = reversed := KeyFlags.ext hrev (show f.integerKey = false by simpa using hint)
    exact reversed_not_inPlace (hall reversedPair hf.symm (reached_twoShadow (by rw [hf]; rfl)))

/-- The same entries, copied into an empty main DBI without flags. -/
theorem tombstones_stay_out_plain :
    Faithful (plainPair (Dbi.empty KeyFlags.plain) twoShadow rfl rfl) :=
  have hall := tombstones_stay_out KeyFlags.plain
  (hall.2.1 _ rfl (reached_twoShadow rfl)).mpr
    ⟨nil_less_plain rfl, hall.2.2.mp nofun _ rfl (reached_twoShadow rfl)⟩

/-- An entry for the integer key 0 is merged, and can then not be copied back. -/
theorem zero_key_not_restored :
    ∃ shadow, Reached ⟨false, true⟩ shadow ∧
      shadow.get [0, 0, 0, 0] = some (putBasic 4 1 noFlags ++ [7]) ∧
      shadowToMain [] shadow (Txn.start (Dbi.empty ⟨false, true⟩)) =
        .error (.strategy (.notSorted [0, 0, 0, 0])) := by
  set shadow := (Dbi.empty ⟨false, true⟩).set [0, 0, 0, 0] (putBasic 4 1 noFlags ++ [7])
    (by decide) with hshadow
  have hload : applyMessage false 0 3 2 1 (Reading.ofList (η := Empty) [⟨[0, 0, 0, 0], [7], 4, 0⟩])
      (Txn.start (Dbi.empty ⟨false, true⟩)) = .ok ⟨shadow, true⟩ := by
    rw [hshadow]
    decide +kernel
  refine ⟨shadow, Reached.load (f := ⟨false, true⟩) .create hload, ?_, ?_⟩
  · rw [hshadow]
    decide +kernel
  · rw [hshadow]
    decide +kernel

end LightningStream.Syncer
