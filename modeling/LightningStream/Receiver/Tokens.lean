import LightningStream.Base.Bytes
import LightningStream.Climit
import Mathlib.Data.List.AList

/-!
# The tokens of the downloaders

Two limits bound the memory that snapshots take: one on the blobs that are
downloaded and not yet decompressed, one on the snapshots that are decompressed
and not yet loaded. A call of `LoadOnce` gives its download token back when it
is done with the blob, and once more when it returns. Its other token leaves
the call with the snapshot, in the `OnClose` of an `Update`. The update waits in
the map for the syncer, or is replaced by a newer one of the same instance; who
takes it out of the map has to close it.

Any number of calls run concurrently, with each other and with the syncer. A
step is what happens under one lock or on one channel.
-/

namespace LightningStream.Tokens

open ConcurrencyLimit

variable {υ : Type}

/-! ## Updates -/

/-- An `Update` without its name and size. The closure in `OnClose` is told by the
token that it releases. -/
structure Update (υ : Type) where
  snapshot : Option υ
  onClose : Option ℕ
deriving DecidableEq

namespace Update

/-- `Close`: the update and the limit after it. The closure does nothing if the
snapshot is gone. -/
def close (u : Update υ) (cl : ConcurrencyLimit) : Update υ × ConcurrencyLimit :=
  (⟨none, none⟩,
    match u.onClose, u.snapshot with
    | some t, some _ => cl.release t
    | _, _ => cl)

/-- The token that closing the update releases. -/
def tokens (u : Update υ) : Multiset ℕ :=
  match u.onClose, u.snapshot with
  | some t, some _ => {t}
  | _, _ => 0

def snapshots (u : Update υ) : ℕ := if u.snapshot.isSome then 1 else 0

/-- A snapshot does not come without its token. -/
def Backed (u : Update υ) : Prop := u.snapshots = Multiset.card u.tokens

end Update

/-! ## LoadOnce -/

/-- Where a call of `LoadOnce` is. -/
inductive Call (υ : Type)
  /-- In `Load` of the storage. -/
  | fetching (inst : Bytes) (downloadToken : ℕ)
  /-- In `Acquire` for the decompressed snapshot. -/
  | fetched (inst : Bytes) (downloadToken : ℕ)
  /-- In `LoadData`. -/
  | decoding (inst : Bytes) (downloadToken token : ℕ)
  | decoded (inst : Bytes) (downloadToken token : ℕ) (msg : υ)
  /-- About to lock the map. -/
  | publishing (inst : Bytes) (downloadToken token : ℕ) (msg : υ)
  /-- The map is unlocked again. -/
  | replacing (downloadToken : ℕ) (overwrittenSnap : Option (Update υ))
  /-- About to return `nil`, with the deferred call to come. -/
  | returning (downloadToken : ℕ)
  /-- About to return an error, with the deferred call to come. -/
  | failing (downloadToken : ℕ)

/-- What the calls and the syncer share. -/
structure Shared (υ : Type) where
  downloadSnapshotLimit : ConcurrencyLimit
  decompressedSnapshotLimit : ConcurrencyLimit
  snapshotsByInstance : AList fun _ : Bytes => Update υ

/-- A step of a call. It ends with no call left. -/
inductive Call.Step : Shared υ → Call υ → Shared υ → Option (Call υ) → Prop
  | loadFailed {x inst dl} : Call.Step x (.fetching inst dl) x (some (.failing dl))
  | loaded {x inst dl} : Call.Step x (.fetching inst dl) x (some (.fetched inst dl))
  | acquire {x inst dl cl t} : x.decompressedSnapshotLimit.acquire = some (cl, t) →
      Call.Step x (.fetched inst dl) { x with decompressedSnapshotLimit := cl }
        (some (.decoding inst dl t))
  /-- `LoadData` fails: the token is released and the snapshot marked. -/
  | corrupt {x inst dl t} : Call.Step x (.decoding inst dl t)
      { x with decompressedSnapshotLimit := x.decompressedSnapshotLimit.release t }
      (some (.failing dl))
  | decoded {x inst dl t} (msg) :
      Call.Step x (.decoding inst dl t) x (some (.decoded inst dl t msg))
  | releaseDownload {x inst dl t msg} : Call.Step x (.decoded inst dl t msg)
      { x with downloadSnapshotLimit := x.downloadSnapshotLimit.release dl }
      (some (.publishing inst dl t msg))
  | publish {x inst dl t msg} : Call.Step x (.publishing inst dl t msg)
      { x with snapshotsByInstance := x.snapshotsByInstance.insert inst ⟨some msg, some t⟩ }
      (some (.replacing dl (x.snapshotsByInstance.lookup inst)))
  | closeOverwritten {x dl u} : Call.Step x (.replacing dl (some u))
      { x with decompressedSnapshotLimit := (u.close x.decompressedSnapshotLimit).2 }
      (some (.returning dl))
  | noOverwritten {x dl} : Call.Step x (.replacing dl none) x (some (.returning dl))
  | returned {x dl} : Call.Step x (.returning dl)
      { x with downloadSnapshotLimit := x.downloadSnapshotLimit.release dl } none
  | failed {x dl} : Call.Step x (.failing dl)
      { x with downloadSnapshotLimit := x.downloadSnapshotLimit.release dl } none

/-! ## The system -/

structure State (υ : Type) extends Shared υ where
  calls : List (Call υ)
  /-- The updates that `Next` has returned to the syncer. -/
  loading : List (Update υ)

def start (υ : Type) (memoryDownloadedSnapshots memoryDecompressedSnapshots : ℤ) : State υ :=
  ⟨⟨.new memoryDownloadedSnapshots, .new memoryDecompressedSnapshots, ∅⟩, [], []⟩

inductive Step : State υ → State υ → Prop
  /-- A call of `LoadOnce` gets its download token. -/
  | start {s cl dl} (inst) : s.downloadSnapshotLimit.acquire = some (cl, dl) →
      Step s { s with downloadSnapshotLimit := cl, calls := .fetching inst dl :: s.calls }
  | call {s before c after x c'} : s.calls = before ++ c :: after →
      Call.Step s.toShared c x c' →
      Step s ⟨x, before ++ c'.toList ++ after, s.loading⟩
  /-- `Next` takes an update out of the map. -/
  | next {s inst u} : inst ≠ [] → s.snapshotsByInstance.lookup inst = some u →
      Step s { s with
        snapshotsByInstance := s.snapshotsByInstance.erase inst
        loading := u :: s.loading }
  /-- `Next` comes across an instance without a name and leaves it in the map. What it
  returns is ignored, unless there is an update of another source. These have no
  token here. -/
  | nextOther {s} : s.snapshotsByInstance = ∅ ∨ [] ∈ s.snapshotsByInstance → Step s s
  /-- `Close`, also of an update that has been closed before. -/
  | close {s before u after} : s.loading = before ++ u :: after →
      Step s { s with
        decompressedSnapshotLimit := (u.close s.decompressedSnapshotLimit).2
        loading := before ++ (u.close s.decompressedSnapshotLimit).1 :: after }

def Reachable : State υ → State υ → Prop := Relation.ReflTransGen Step

/-! ## Owners -/

namespace Call

/-- The download token that the call has not given back. -/
def downloads : Call υ → Multiset ℕ
  | .fetching _ dl | .fetched _ dl | .decoding _ dl _ | .decoded _ dl _ _ | .failing dl => {dl}
  | .publishing _ _ _ _ | .replacing _ _ | .returning _ => 0

/-- The download token that the call has given back. -/
def spent : Call υ → Option ℕ
  | .publishing _ dl _ _ | .replacing dl _ | .returning dl => some dl
  | _ => none

/-- The token for the snapshot that the call works on. -/
def inProgress : Call υ → Multiset ℕ
  | .decoding _ _ t | .decoded _ _ t _ | .publishing _ _ t _ => {t}
  | _ => 0

/-- The update that the call is about to close. -/
def overwritten : Call υ → Option (Update υ)
  | .replacing _ u => u
  | _ => none

def replaced (c : Call υ) : Multiset ℕ := (c.overwritten.map Update.tokens).getD 0

/-- The snapshots that the call keeps in memory, complete or not. -/
def snapshots (c : Call υ) : ℕ :=
  Multiset.card c.inProgress + (c.overwritten.map Update.snapshots).getD 0

end Call

def waitingIn (m : AList fun _ : Bytes => Update υ) : Multiset ℕ :=
  (m.entries.map fun e => e.2.tokens).sum

namespace State

variable (s : State υ)

def downloads : Multiset ℕ := (s.calls.map Call.downloads).sum
def inProgress : Multiset ℕ := (s.calls.map Call.inProgress).sum
def replaced : Multiset ℕ := (s.calls.map Call.replaced).sum
def waiting : Multiset ℕ := waitingIn s.snapshotsByInstance
def loaded : Multiset ℕ := (s.loading.map Update.tokens).sum

/-- The tokens for decompressed snapshots, by their owners. -/
def owned : Multiset ℕ := s.inProgress + s.waiting + s.replaced + s.loaded

/-- The decompressed snapshots in memory. -/
def snapshots : ℕ :=
  (s.calls.map Call.snapshots).sum +
    (s.snapshotsByInstance.entries.map fun e => e.2.snapshots).sum +
    (s.loading.map Update.snapshots).sum

end State

/-! ## Updates in the map -/

theorem waitingIn_erase {m : AList fun _ : Bytes => Update υ} (inst : Bytes) :
    waitingIn m = ((m.lookup inst).map Update.tokens).getD 0 + waitingIn (m.erase inst) := by
  unfold waitingIn
  show _ = _ + ((m.entries.kerase inst).map fun e => e.2.tokens).sum
  by_cases hmem : inst ∈ m.entries.keys
  · obtain ⟨u, before, after, -, hentries, hkerase⟩ := List.exists_of_kerase hmem
    have hlookup : m.lookup inst = some u := by
      rw [← Option.mem_def, AList.mem_lookup_iff, hentries]
      simp
    rw [hlookup, hkerase, hentries]
    simp only [List.map_append, List.map_cons, List.sum_append, List.sum_cons, Option.map_some,
      Option.getD_some]
    abel
  · have hlookup : m.lookup inst = none := AList.lookup_eq_none.mpr hmem
    rw [hlookup, List.kerase_of_notMem_keys hmem]
    simp

theorem waitingIn_insert {m : AList fun _ : Bytes => Update υ} (inst : Bytes) (u : Update υ) :
    waitingIn (m.insert inst u) = u.tokens + waitingIn (m.erase inst) := by
  show (((⟨inst, u⟩ : Sigma fun _ : Bytes => Update υ) :: m.entries.kerase inst).map fun e =>
    e.2.tokens).sum = _
  rw [List.map_cons, List.sum_cons]
  rfl

theorem mem_entries_insert {m : AList fun _ : Bytes => Update υ} {inst : Bytes} {u : Update υ}
    {e : Sigma fun _ : Bytes => Update υ} (h : e ∈ (m.insert inst u).entries) :
    e = ⟨inst, u⟩ ∨ e ∈ m.entries := by
  rcases List.mem_cons.mp h with h | h
  · exact Or.inl h
  · exact Or.inr (List.kerase_sublist inst m.entries |>.subset h)

/-! ## What a step does to the accounts -/

section Steps

variable {limit : ℕ} {x x' : Shared υ} {c : Call υ} {c' : Option (Call υ)} {D M : Multiset ℕ}

/-- Closing an update gives its token back. -/
theorem Update.close_accounts {u : Update υ} {cl : ConcurrencyLimit}
    (h : Accounts limit cl (u.tokens + M)) : Accounts limit (u.close cl).2 M := by
  obtain ⟨snapshot, onClose⟩ := u
  cases onClose with
  | none =>
      rw [show Update.tokens (⟨snapshot, none⟩ : Update υ) = 0 from rfl, zero_add] at h
      exact h
  | some t =>
      cases snapshot with
      | none =>
          rw [show Update.tokens (⟨none, some t⟩ : Update υ) = 0 from rfl, zero_add] at h
          exact h
      | some msg =>
          rw [show Update.tokens ⟨some msg, some t⟩ = {t} from rfl, Multiset.singleton_add] at h
          exact h.release

theorem Call.Step.download (h : Call.Step x c x' c')
    (hacc : Accounts limit x.downloadSnapshotLimit (c.downloads + D))
    (hspent : ∀ dl ∈ c.spent, x.downloadSnapshotLimit.IsSpent dl) :
    Accounts limit x'.downloadSnapshotLimit ((c'.map Call.downloads).getD 0 + D) := by
  cases h with
  | loadFailed => exact hacc
  | loaded => exact hacc
  | acquire _ => exact hacc
  | corrupt => exact hacc
  | decoded msg => exact hacc
  | releaseDownload =>
      have hacc' : Accounts limit x.downloadSnapshotLimit (_ ::ₘ D) := hacc
      rw [← zero_add D] at hacc'
      exact hacc'.release
  | publish => exact hacc
  | closeOverwritten => exact hacc
  | noOverwritten => exact hacc
  | returned =>
      -- the second release finds the token released
      rw [release_of_not_isOut (hspent _ rfl).not_isOut]
      exact hacc
  | failed =>
      have hacc' : Accounts limit x.downloadSnapshotLimit (_ ::ₘ D) := hacc
      rw [← zero_add D] at hacc'
      exact hacc'.release

theorem Call.Step.decompressed (h : Call.Step x c x' c')
    (hacc : Accounts limit x.decompressedSnapshotLimit
      (c.inProgress + c.replaced + (waitingIn x.snapshotsByInstance + M))) :
    Accounts limit x'.decompressedSnapshotLimit
      ((c'.map Call.inProgress).getD 0 + (c'.map Call.replaced).getD 0 +
        (waitingIn x'.snapshotsByInstance + M)) := by
  cases h with
  | loadFailed => exact hacc
  | loaded => exact hacc
  | @acquire _ _ _ t hacq =>
      have hacc' := hacc.acquire hacq
      rw [← Multiset.singleton_add, ← add_assoc] at hacc'
      exact hacc'
  | @corrupt _ _ t =>
      rw [show Call.inProgress (.decoding _ _ t : Call υ) + Call.replaced _ = {t} from rfl,
        Multiset.singleton_add] at hacc
      rw [← zero_add (waitingIn _ + M)] at hacc
      exact hacc.release
  | decoded msg => exact hacc
  | releaseDownload => exact hacc
  | @publish inst _ t msg =>
      rw [show Call.inProgress (.publishing inst _ t msg) + Call.replaced _ = {t} from rfl,
        waitingIn_erase inst] at hacc
      show Accounts limit x.decompressedSnapshotLimit
        (0 + ((x.snapshotsByInstance.lookup inst).map Update.tokens).getD 0 +
          (waitingIn (x.snapshotsByInstance.insert inst ⟨some msg, some t⟩) + M))
      rw [waitingIn_insert, show Update.tokens ⟨some msg, some t⟩ = {t} from rfl]
      convert hacc using 1
      abel
  | @closeOverwritten _ u =>
      have hacc' : Accounts limit x.decompressedSnapshotLimit
          (u.tokens + (waitingIn x.snapshotsByInstance + M)) := by
        rwa [show Call.inProgress (.replacing _ (some u)) + Call.replaced _ = u.tokens from
          zero_add _] at hacc
      rw [← zero_add (waitingIn x.snapshotsByInstance + M)] at hacc'
      exact Update.close_accounts hacc'
  | noOverwritten => exact hacc
  | returned => exact hacc
  | failed => exact hacc

/-- A call remembers as given back what it has given back. -/
theorem Call.Step.spent (h : Call.Step x c x' c')
    (hacc : Accounts limit x.downloadSnapshotLimit (c.downloads + D))
    (hspent : ∀ dl ∈ c.spent, x.downloadSnapshotLimit.IsSpent dl) :
    (∀ t, x.downloadSnapshotLimit.IsSpent t → x'.downloadSnapshotLimit.IsSpent t) ∧
      ∀ d ∈ c', ∀ dl ∈ d.spent, x'.downloadSnapshotLimit.IsSpent dl := by
  cases h with
  | loadFailed => exact ⟨fun _ ht => ht, by simp [Call.spent]⟩
  | loaded => exact ⟨fun _ ht => ht, by simp [Call.spent]⟩
  | acquire _ => exact ⟨fun _ ht => ht, by simp [Call.spent]⟩
  | corrupt => exact ⟨fun _ ht => ht, by simp [Call.spent]⟩
  | decoded msg => exact ⟨fun _ ht => ht, by simp [Call.spent]⟩
  | @releaseDownload _ dl t msg =>
      refine ⟨fun _ ht => isSpent_release ht, ?_⟩
      rintro d hd dl' hdl
      obtain rfl := Option.some.inj hd
      obtain rfl := Option.some.inj hdl
      have hout : x.downloadSnapshotLimit.IsOut dl :=
        (hacc.mem_iff dl).mp (by simp [Call.downloads])
      exact hout.isSpent_release
  | publish => exact ⟨fun _ ht => ht, by simpa [Call.spent] using hspent⟩
  | closeOverwritten => exact ⟨fun _ ht => ht, by simpa [Call.spent] using hspent⟩
  | noOverwritten => exact ⟨fun _ ht => ht, by simpa [Call.spent] using hspent⟩
  | returned => exact ⟨fun _ ht => isSpent_release ht, by simp⟩
  | failed => exact ⟨fun _ ht => isSpent_release ht, by simp⟩

/-- The updates that go into the map and come out of it have their tokens. -/
theorem Call.Step.backed (h : Call.Step x c x' c')
    (hmap : ∀ e ∈ x.snapshotsByInstance.entries, e.2.Backed)
    (hc : ∀ u ∈ c.overwritten, u.Backed) :
    (∀ e ∈ x'.snapshotsByInstance.entries, e.2.Backed) ∧
      ∀ d ∈ c', ∀ u ∈ d.overwritten, u.Backed := by
  cases h with
  | loadFailed => exact ⟨hmap, by simp [Call.overwritten]⟩
  | loaded => exact ⟨hmap, by simp [Call.overwritten]⟩
  | acquire _ => exact ⟨hmap, by simp [Call.overwritten]⟩
  | corrupt => exact ⟨hmap, by simp [Call.overwritten]⟩
  | decoded msg => exact ⟨hmap, by simp [Call.overwritten]⟩
  | releaseDownload => exact ⟨hmap, by simp [Call.overwritten]⟩
  | publish =>
      constructor
      · intro e he
        rcases mem_entries_insert he with rfl | he
        · rfl
        · exact hmap e he
      · rintro d hd u hu
        obtain rfl := Option.some.inj hd
        exact hmap _ (AList.mem_lookup_iff.mp hu)
  | closeOverwritten => exact ⟨hmap, by simp [Call.overwritten]⟩
  | noOverwritten => exact ⟨hmap, by simp [Call.overwritten]⟩
  | returned => exact ⟨hmap, by simp⟩
  | failed => exact ⟨hmap, by simp⟩

end Steps

/-! ## Runs -/

theorem sum_calls (f : Call υ → Multiset ℕ) (before after : List (Call υ)) (c : Call υ) :
    ((before ++ c :: after).map f).sum = f c + ((before ++ after).map f).sum := by
  simp only [List.map_append, List.map_cons, List.sum_append, List.sum_cons]
  abel

theorem sum_calls_option (f : Call υ → Multiset ℕ) (before after : List (Call υ))
    (c : Option (Call υ)) :
    ((before ++ c.toList ++ after).map f).sum =
      (c.map f).getD 0 + ((before ++ after).map f).sum := by
  cases c with
  | none => simp
  | some c =>
      rw [Option.toList_some, List.append_assoc, List.singleton_append, sum_calls]
      rfl

structure Sound (nDownloads nDecompressed : ℕ) (s : State υ) : Prop where
  download : Accounts nDownloads s.downloadSnapshotLimit s.downloads
  decompressed : Accounts nDecompressed s.decompressedSnapshotLimit s.owned
  spent : ∀ c ∈ s.calls, ∀ dl ∈ c.spent, s.downloadSnapshotLimit.IsSpent dl
  overwritten : ∀ c ∈ s.calls, ∀ u ∈ c.overwritten, u.Backed
  waiting : ∀ e ∈ s.snapshotsByInstance.entries, e.2.Backed
  loading : ∀ u ∈ s.loading, u.Backed

variable {nDownloads nDecompressed : ℕ} {s s' : State υ}

theorem sound_start (memoryDownloadedSnapshots memoryDecompressedSnapshots : ℤ) :
    Sound (limitOf memoryDownloadedSnapshots) (limitOf memoryDecompressedSnapshots)
      (start υ memoryDownloadedSnapshots memoryDecompressedSnapshots) where
  download := accounts_new memoryDownloadedSnapshots
  decompressed := accounts_new memoryDecompressedSnapshots
  spent := by simp [start]
  overwritten := by simp [start]
  waiting := by simp [start]
  loading := by simp [start]

/-- A step of one of the calls leaves the others alone. -/
theorem Sound.call {before after : List (Call υ)} {c : Call υ} {x : Shared υ}
    {c' : Option (Call υ)} (hs : Sound nDownloads nDecompressed s)
    (hcalls : s.calls = before ++ c :: after) (hstep : Call.Step s.toShared c x c') :
    Sound nDownloads nDecompressed ⟨x, before ++ c'.toList ++ after, s.loading⟩ := by
  have hc : c ∈ s.calls := by rw [hcalls]; simp
  have hdownload : Accounts nDownloads s.downloadSnapshotLimit
      (c.downloads + ((before ++ after).map Call.downloads).sum) := by
    rw [← sum_calls, ← hcalls]
    exact hs.download
  have hdecompressed : Accounts nDecompressed s.decompressedSnapshotLimit
      (c.inProgress + c.replaced + (waitingIn s.snapshotsByInstance +
        (((before ++ after).map Call.inProgress).sum + ((before ++ after).map Call.replaced).sum +
          s.loaded))) := by
    convert hs.decompressed using 1
    rw [State.owned, State.inProgress, State.replaced, hcalls, sum_calls, sum_calls, State.waiting]
    abel
  obtain ⟨hkept, hspent⟩ := hstep.spent hdownload (hs.spent c hc)
  obtain ⟨hwaiting, hoverwritten⟩ := hstep.backed hs.waiting (hs.overwritten c hc)
  have hmem : ∀ d ∈ before ++ c'.toList ++ after, d ∈ c' ∨ d ∈ s.calls := by
    intro d hd
    rw [hcalls]
    simp only [List.mem_append, List.mem_cons, Option.mem_toList] at hd ⊢
    tauto
  refine ⟨?_, ?_, ?_, ?_, hwaiting, hs.loading⟩
  · have h := hstep.download hdownload (hs.spent c hc)
    rwa [← sum_calls_option] at h
  · convert hstep.decompressed hdecompressed using 1
    rw [State.owned, State.inProgress, State.replaced, sum_calls_option, sum_calls_option]
    show _ + waitingIn x.snapshotsByInstance + _ + s.loaded = _
    abel
  · intro d hd dl hdl
    rcases hmem d hd with hd | hd
    · exact hspent d hd dl hdl
    · exact hkept dl (hs.spent d hd dl hdl)
  · intro d hd
    rcases hmem d hd with hd | hd
    · exact hoverwritten d hd
    · exact hs.overwritten d hd

theorem Step.sound (h : Step s s') (hs : Sound nDownloads nDecompressed s) :
    Sound nDownloads nDecompressed s' := by
  cases h with
  | @start cl dl inst hacq =>
      refine ⟨hs.download.acquire hacq, ?_, ?_, ?_, hs.waiting, hs.loading⟩
      · have h := hs.decompressed
        simpa [State.owned, State.inProgress, State.replaced, State.waiting, State.loaded,
          Call.inProgress, Call.replaced, Call.overwritten] using h
      · intro c hc t ht
        rcases List.mem_cons.mp hc with rfl | hc
        · cases ht
        · exact isSpent_acquire hacq (hs.spent c hc t ht)
      · intro c hc u hu
        rcases List.mem_cons.mp hc with rfl | hc
        · cases hu
        · exact hs.overwritten c hc u hu
  | call hcalls hstep => exact hs.call hcalls hstep
  | @next inst u hne hlookup =>
      have hmoved : s.waiting = u.tokens + waitingIn (s.snapshotsByInstance.erase inst) := by
        rw [State.waiting, waitingIn_erase inst, hlookup]
        rfl
      refine ⟨hs.download, ?_, hs.spent, hs.overwritten, ?_, ?_⟩
      · convert hs.decompressed using 1
        rw [State.owned, State.owned, hmoved, State.loaded, State.loaded, List.map_cons,
          List.sum_cons]
        show s.inProgress + waitingIn (s.snapshotsByInstance.erase inst) + s.replaced + _ = _
        abel
      · intro e he
        exact hs.waiting e ((List.kerase_sublist inst s.snapshotsByInstance.entries).subset he)
      · intro v hv
        rcases List.mem_cons.mp hv with rfl | hv
        · exact hs.waiting _ (AList.mem_lookup_iff.mp hlookup)
        · exact hs.loading v hv
  | nextOther _ => exact hs
  | @close before u after hloading =>
      refine ⟨hs.download, ?_, hs.spent, hs.overwritten, hs.waiting, ?_⟩
      · refine Update.close_accounts (u := u) ?_
        convert hs.decompressed using 1
        rw [State.owned, State.owned, State.loaded, State.loaded, hloading]
        simp only [List.map_append, List.map_cons, List.sum_append, List.sum_cons]
        show u.tokens + (s.inProgress + s.waiting + s.replaced + (_ + (0 + _))) = _
        abel
      · intro v hv
        rcases List.mem_append.mp hv with hv | hv
        · exact hs.loading v (by rw [hloading]; exact List.mem_append_left _ hv)
        · rcases List.mem_cons.mp hv with rfl | hv
          · rfl
          · refine hs.loading v ?_
            rw [hloading]
            exact List.mem_append_right _ (List.mem_cons_of_mem _ hv)

theorem Reachable.sound (h : Reachable s s') (hs : Sound nDownloads nDecompressed s) :
    Sound nDownloads nDecompressed s' := by
  induction h with
  | refl => exact hs
  | tail _ hstep ih => exact hstep.sound ih

theorem sum_eq_card {α : Type} {f : α → ℕ} {g : α → Multiset ℕ} {l : List α}
    (h : ∀ a ∈ l, f a = Multiset.card (g a)) :
    (l.map f).sum = Multiset.card (l.map g).sum := by
  induction l with
  | nil => rfl
  | cons a l ih =>
      obtain ⟨ha, hl⟩ := List.forall_mem_cons.mp h
      rw [List.map_cons, List.sum_cons, List.map_cons, List.sum_cons, Multiset.card_add, ha, ih hl]

/-- Every decompressed snapshot has its token. -/
theorem Sound.snapshots_eq (hs : Sound nDownloads nDecompressed s) :
    s.snapshots = Multiset.card s.owned := by
  have hcalls : (s.calls.map Call.snapshots).sum =
      Multiset.card s.inProgress + Multiset.card s.replaced := by
    rw [← Multiset.card_add, State.inProgress, State.replaced, ← List.sum_map_add]
    refine sum_eq_card fun c hc => ?_
    have hbacked := hs.overwritten c hc
    rw [Call.snapshots, Call.replaced, Multiset.card_add]
    cases ho : c.overwritten with
    | none => rfl
    | some u =>
        have hu : u.snapshots = Multiset.card u.tokens := hbacked u ho
        simp [hu]
  have hwaiting : (s.snapshotsByInstance.entries.map fun e => e.2.snapshots).sum =
      Multiset.card s.waiting := sum_eq_card hs.waiting
  have hloading : (s.loading.map Update.snapshots).sum = Multiset.card s.loaded :=
    sum_eq_card hs.loading
  rw [State.snapshots, hcalls, hwaiting, hloading]
  simp only [State.owned, Multiset.card_add]
  omega

/-- **Tokens are conserved.** Whatever the calls of `LoadOnce` and the syncer have
done, the free tokens and those of the calls in progress, of the updates in the
map, of replaced updates and of those that the syncer has got add up to the
limit. A token has one owner or has been put back once. There are no more
decompressed snapshots than the limit allows. The same goes for the tokens of
the downloads. -/
theorem tokens_conserved (memoryDownloadedSnapshots memoryDecompressedSnapshots : ℤ)
    {s : State υ}
    (h : Reachable (start υ memoryDownloadedSnapshots memoryDecompressedSnapshots) s) :
    (1 ≤ limitOf memoryDecompressedSnapshots ∧
      s.decompressedSnapshotLimit.free + Multiset.card s.inProgress + Multiset.card s.waiting +
        Multiset.card s.replaced + Multiset.card s.loaded =
          limitOf memoryDecompressedSnapshots ∧
      (∀ t token, s.decompressedSnapshotLimit.tokens[t]? = some token →
        (s.owned.count t = 1 ∧ token.returned = 0) ∨
          (s.owned.count t = 0 ∧ token.returned = 1)) ∧
      s.snapshots ≤ limitOf memoryDecompressedSnapshots) ∧
    1 ≤ limitOf memoryDownloadedSnapshots ∧
      s.downloadSnapshotLimit.free + Multiset.card s.downloads =
        limitOf memoryDownloadedSnapshots ∧
      ∀ t token, s.downloadSnapshotLimit.tokens[t]? = some token →
        (s.downloads.count t = 1 ∧ token.returned = 0) ∨
          (s.downloads.count t = 0 ∧ token.returned = 1) := by
  have hs := h.sound (sound_start memoryDownloadedSnapshots memoryDecompressedSnapshots)
  have hconserved := hs.decompressed.conserved
  refine ⟨⟨one_le_limitOf _, ?_, fun t token => hs.decompressed.returned_once, ?_⟩,
    one_le_limitOf _, hs.download.conserved, fun t token => hs.download.returned_once⟩
  · rw [← hconserved]
    simp only [State.owned, Multiset.card_add]
    omega
  · rw [hs.snapshots_eq, ← hconserved]
    exact Nat.le_add_left _ _

theorem step_only_call {c : Call υ} {x : Shared υ} {c' : Option (Call υ)} (hcalls : s.calls = [c])
    (hstep : Call.Step s.toShared c x c') : Step s ⟨x, c'.toList, s.loading⟩ := by
  have h := @Step.call υ s [] c [] x c' hcalls hstep
  rwa [List.nil_append, List.append_nil] at h

/-- A snapshot is downloaded, taken by the syncer and closed twice. -/
theorem tokens_conserved_twice : ∃ s : State Unit, Reachable (start Unit 1 1) s ∧
    s.calls = [] ∧ s.loading = [⟨none, none⟩] ∧
    s.decompressedSnapshotLimit.tokens = [⟨true, 1⟩] ∧
    s.decompressedSnapshotLimit.free + Multiset.card s.inProgress + Multiset.card s.waiting +
      Multiset.card s.replaced + Multiset.card s.loaded = 1 := by
  have h₁ := (Relation.ReflTransGen.refl (a := start Unit 1 1)).tail (Step.start [97] rfl)
  have h₂ := h₁.tail (step_only_call rfl .loaded)
  have h₃ := h₂.tail (step_only_call rfl (.acquire rfl))
  have h₄ := h₃.tail (step_only_call rfl (.decoded ()))
  have h₅ := h₄.tail (step_only_call rfl .releaseDownload)
  have h₆ := h₅.tail (step_only_call rfl .publish)
  have h₇ := h₆.tail (step_only_call rfl .noOverwritten)
  have h₈ := h₇.tail (step_only_call rfl .returned)
  have h₉ := h₈.tail (@Step.next Unit _ [97] ⟨some (), some 0⟩ (by decide) rfl)
  have h₁₀ := h₉.tail (@Step.close Unit _ [] _ [] rfl)
  have h₁₁ := h₁₀.tail (@Step.close Unit _ [] _ [] rfl)
  obtain ⟨⟨-, hconserved, -⟩, -⟩ := tokens_conserved 1 1 h₁₁
  exact ⟨_, h₁₁, rfl, rfl, rfl, hconserved⟩

end LightningStream.Tokens
