import LightningStream.Base.Runs
import Mathlib.Tactic

/-!
# Topics

A `Topic` passes the values that are published on to the channels of its
subscribers. `Publish` holds the mutex of the topic until it has sent the value to
every one of them, and a send waits until the subscriber receives or has room in
its channel. `Close` of a subscription locks the subscription, and then the topic
in order to remove the channel.

Any number of goroutines publish, receive and close. What happens under a mutex
that nobody waits in is one step. The mutex of the topic is held over several
steps by a `Publish` only, and the one of a subscription by a `Close` only, so
each is represented by the call that holds it.

The delivery is right in every run (`Sound`). But a `Close` that comes while a
`Publish` has still to serve its subscription waits for the mutex of the topic,
and nobody receives the value: neither of them ever goes on (`Deadlocked.forever`).
-/

namespace LightningStream.Topics

variable {τ : Type}

/-! ## Subscriptions -/

/-- Where a call of `Close` is that has locked its subscription. -/
inductive ClosePc
  /-- In `unsubscribeID`, before it has the mutex of the topic. -/
  | unsubscribing
  | finishing
deriving DecidableEq

/-- A `Subscription` and its channel. The last four fields are not in the source. -/
structure Subscription (τ : Type) where
  cap : ℕ
  buf : List τ
  closed : Bool
  /-- The call of `Close` that holds the mutex. -/
  mu : Option ClosePc
  /-- `topic` and `ch` have been set to `nil`. -/
  detached : Bool
  /-- The last value, if `Subscribe` has sent it. -/
  seed : List τ
  /-- The number of values published before `Subscribe`. -/
  start : ℕ
  /-- The number of values published before the channel was removed. -/
  stop : Option ℕ
  received : List τ

namespace Subscription

def new (sendLast : Bool) (last : Option τ) (start : ℕ) : Subscription τ :=
  let seed := if sendLast then last.toList else []
  ⟨if sendLast then 1 else 0, seed, false, none, false, seed, start, none, []⟩

variable (sub : Subscription τ)

/-- A value is sent into the channel's buffer. -/
def push (v : τ) : Subscription τ := { sub with buf := sub.buf ++ [v] }

/-- A value is passed to a receiver that waits. -/
def pass (v : τ) : Subscription τ := { sub with received := sub.received ++ [v] }

/-- A value is received from the channel's buffer. -/
def pop (v : τ) (rest : List τ) : Subscription τ :=
  { sub with buf := rest, received := sub.received ++ [v] }

def close (published : ℕ) : Subscription τ := { sub with closed := true, stop := some published }

/-- The values published between `Subscribe` and `Close`. -/
def window (published : List τ) : List τ :=
  (published.take (sub.stop.getD published.length)).drop sub.start

end Subscription

/-! ## Calls -/

/-- A `Publish` that holds the mutex of the topic. -/
structure Publish (τ : Type) where
  v : τ
  /-- The subscriber that it sends to. -/
  cur : Option ℕ
  /-- The subscribers that its loop has not come to. -/
  todo : List ℕ

/-- The subscribers that have still to get the value. -/
def Publish.pending (p : Publish τ) : List ℕ := p.cur.toList ++ p.todo

inductive Kind
  | next
  /-- A loop over the values of the channel. -/
  | channel
  | handle
  | close
deriving DecidableEq

inductive Pc
  /-- In `Channel`. -/
  | channel
  /-- In the `select` of `Next`, with the channel or with `nil`. -/
  | receiving (ch : Bool)
  /-- In the callback of `Handle`, or in the body of a loop. -/
  | callback
  /-- In `Close`, before it has the mutex of the subscription. -/
  | locking
deriving DecidableEq

/-- A goroutine that works on the subscription with this ID. -/
structure Consumer where
  id : ℕ
  kind : Kind
  pc : Pc
deriving DecidableEq

namespace Consumer

variable (k : Consumer)

/-- After it has got a value. -/
def gotValue : Option Consumer :=
  match k.kind with
  | .channel | .handle => some { k with pc := .callback }
  | .next | .close => none

/-- After the callback. A loop has its channel already. -/
def handled : Consumer :=
  match k.kind with
  | .channel => { k with pc := .receiving true }
  | .next | .handle | .close => { k with pc := .channel }

/-- After an error of `Next`. `Handle` returns it, with `Close` deferred. -/
def gotError : Option Consumer :=
  match k.kind with
  | .handle => some { k with pc := .locking }
  | .next | .channel | .close => none

end Consumer

/-! ## The system -/

structure State (τ : Type) where
  last : Option τ
  /-- A `uint` in the source; it is taken not to wrap. -/
  lastID : ℕ
  /-- The keys of the map. -/
  subscribers : List ℕ
  subs : ℕ → Subscription τ
  /-- The values of the calls of `Publish` that wait for the mutex. -/
  waiting : List τ
  /-- The call of `Publish` that holds the mutex. -/
  mu : Option (Publish τ)
  consumers : List Consumer
  /-- All values so far, in the order in which `Publish` got the mutex. -/
  published : List τ
  /-- A value was sent on a closed channel, or one was closed again. -/
  panicked : Bool

namespace State

/-- `New` and `NewWithInitial`. -/
def new (initial : Option τ) : State τ :=
  ⟨initial, 0, [], fun _ => .new false none 0, [], none, [], initial.toList, false⟩

variable (s : State τ)

def IsSub (id : ℕ) : Prop := 1 ≤ id ∧ id ≤ s.lastID

/-- The value that a subscriber has still to get from the `Publish` in progress. -/
def pending (id : ℕ) : List τ :=
  match s.mu with
  | none => []
  | some p => if id ∈ p.pending then [p.v] else []

/-- `Subscribe`, and `Handle` as far as that. -/
def subscribe (sendLast : Bool) (consumers : List Consumer) : State τ :=
  { s with
    lastID := s.lastID + 1
    subscribers := (s.lastID + 1) :: s.subscribers
    subs := Function.update s.subs (s.lastID + 1) (.new sendLast s.last s.published.length)
    consumers := consumers }

/-- `unsubscribeID` and the return to `Close`. -/
def unsubscribeID (id : ℕ) : State τ :=
  let sub := { s.subs id with mu := some .finishing }
  if id ∈ s.subscribers then
    { s with
      subscribers := s.subscribers.erase id
      subs := Function.update s.subs id (sub.close s.published.length)
      panicked := s.panicked || sub.closed }
  else { s with subs := Function.update s.subs id sub }

end State

inductive Event
  /-- A `Publish` gets the mutex. -/
  | publish
  /-- A `Close` locks its subscription, which is open. -/
  | close (id : ℕ)
  | other

inductive Step : State τ → Event → State τ → Prop
  | publish {s} (v) : Step s .other { s with waiting := v :: s.waiting }
  | lock {s before v after} : s.waiting = before ++ v :: after → s.mu = none →
      Step s .publish { s with
        last := some v
        waiting := before ++ after
        mu := some ⟨v, none, s.subscribers⟩
        published := s.published ++ [v] }
  /-- The map gives its keys in any order. -/
  | range {s v before id after} : s.mu = some ⟨v, none, before ++ id :: after⟩ →
      Step s .other { s with mu := some ⟨v, some id, before ++ after⟩ }
  | send {s v id todo} : s.mu = some ⟨v, some id, todo⟩ → (s.subs id).closed = false →
      (s.subs id).buf.length < (s.subs id).cap →
      Step s .other { s with
        mu := some ⟨v, none, todo⟩
        subs := Function.update s.subs id ((s.subs id).push v) }
  /-- The value goes to a receiver that waits. -/
  | pass {s v id todo before k after} : s.mu = some ⟨v, some id, todo⟩ →
      (s.subs id).closed = false → (s.subs id).buf = [] →
      s.consumers = before ++ k :: after → k.id = id → k.pc = .receiving true →
      Step s .other { s with
        mu := some ⟨v, none, todo⟩
        subs := Function.update s.subs id ((s.subs id).pass v)
        consumers := before ++ k.gotValue.toList ++ after }
  | sendClosed {s v id todo} : s.mu = some ⟨v, some id, todo⟩ → (s.subs id).closed = true →
      Step s .other { s with mu := none, panicked := true }
  | published {s v} : s.mu = some ⟨v, none, []⟩ → Step s .other { s with mu := none }
  | subscribe {s} (sendLast) : s.mu = none → Step s .other (s.subscribe sendLast s.consumers)
  | handle {s} : s.mu = none →
      Step s .other (s.subscribe false (⟨s.lastID + 1, .handle, .channel⟩ :: s.consumers))
  | next {s id} (kind) : s.IsSub id → kind = .next ∨ kind = .channel →
      Step s .other { s with consumers := ⟨id, kind, .channel⟩ :: s.consumers }
  | close {s id} : s.IsSub id →
      Step s .other { s with consumers := ⟨id, .close, .locking⟩ :: s.consumers }
  | channel {s before k after} : s.consumers = before ++ k :: after → k.pc = .channel →
      (s.subs k.id).mu = none →
      Step s .other { s with
        consumers := before ++ { k with pc := .receiving !(s.subs k.id).detached } :: after }
  | receive {s before k after v rest} : s.consumers = before ++ k :: after →
      k.pc = .receiving true → (s.subs k.id).buf = v :: rest →
      Step s .other { s with
        subs := Function.update s.subs k.id ((s.subs k.id).pop v rest)
        consumers := before ++ k.gotValue.toList ++ after }
  | receiveClosed {s before k after} : s.consumers = before ++ k :: after →
      k.pc = .receiving true → (s.subs k.id).buf = [] → (s.subs k.id).closed = true →
      Step s .other { s with consumers := before ++ k.gotError.toList ++ after }
  /-- The context is done. -/
  | cancelled {s before k after ch} : s.consumers = before ++ k :: after →
      k.pc = .receiving ch →
      Step s .other { s with consumers := before ++ k.gotError.toList ++ after }
  | handled {s before k after} : s.consumers = before ++ k :: after → k.pc = .callback →
      Step s .other { s with consumers := before ++ k.handled :: after }
  | handleError {s before k after} : s.consumers = before ++ k :: after → k.pc = .callback →
      Step s .other { s with consumers := before ++ { k with pc := .locking } :: after }
  | alreadyClosed {s before k after} : s.consumers = before ++ k :: after → k.pc = .locking →
      (s.subs k.id).mu = none → (s.subs k.id).detached = true →
      Step s .other { s with consumers := before ++ after }
  | lockSubscription {s before k after} : s.consumers = before ++ k :: after →
      k.pc = .locking → (s.subs k.id).mu = none → (s.subs k.id).detached = false →
      Step s (.close k.id) { s with
        subs := Function.update s.subs k.id { s.subs k.id with mu := some .unsubscribing }
        consumers := before ++ after }
  | unsubscribe {s id} : (s.subs id).mu = some .unsubscribing → s.mu = none →
      Step s .other (s.unsubscribeID id)
  | finish {s id} : (s.subs id).mu = some .finishing →
      Step s .other { s with
        subs := Function.update s.subs id { s.subs id with mu := none, detached := true } }

/-- The runs in which anything may happen at any time. -/
def Runs : State τ → State τ → Prop := RunsUnder Step fun _ _ => True

/-! ## What a subscription has got -/

namespace Subscription

/-- What the channel holds and what was received from it is what was published, but
for the value that is still to be sent. -/
structure Sound (published pending : List τ) (registered : Prop) (sub : Subscription τ) :
    Prop where
  registered_iff : registered ↔ sub.stop = none
  closed_eq : sub.closed = sub.stop.isSome
  start_le : sub.start ≤ published.length
  stop_le : ∀ n, sub.stop = some n → n ≤ published.length
  buf_le : sub.buf.length ≤ sub.cap
  seed_eq : sub.seed = if sub.cap = 0 then [] else (published.take sub.start).getLast?.toList
  delivered : sub.received ++ sub.buf ++ pending = sub.seed ++ sub.window published

variable {sub : Subscription τ} {published pending : List τ} {registered : Prop} {v : τ}

theorem window_of_open (h : sub.stop = none) : sub.window published = published.drop sub.start := by
  rw [window, h, Option.getD_none, List.take_length]

theorem sound_new (published : List τ) (sendLast : Bool) :
    (new sendLast published.getLast? published.length).Sound published [] True where
  registered_iff := iff_of_true trivial rfl
  closed_eq := rfl
  start_le := le_rfl
  stop_le := nofun
  buf_le := by
    cases sendLast with
    | false => exact le_rfl
    | true => cases published.getLast? <;> simp [new]
  seed_eq := by cases sendLast <;> simp [new]
  delivered := by
    rw [window_of_open rfl]
    simp [new]

/-- A value is published, and has still to be sent. -/
theorem Sound.publish (h : sub.Sound published [] registered) [Decidable registered] (v : τ) :
    sub.Sound (published ++ [v]) (if registered then [v] else []) registered where
  registered_iff := h.registered_iff
  closed_eq := h.closed_eq
  start_le := h.start_le.trans (by simp)
  stop_le n hn := (h.stop_le n hn).trans (by simp)
  buf_le := h.buf_le
  seed_eq := by rw [List.take_append_of_le_length h.start_le, h.seed_eq]
  delivered := by
    have hd := h.delivered
    rw [List.append_nil] at hd
    cases hstop : sub.stop with
    | none =>
        rw [if_pos (h.registered_iff.mpr hstop), hd, window_of_open hstop, window_of_open hstop,
          List.drop_append_of_le_length h.start_le, List.append_assoc]
    | some n =>
        have hreg : ¬ registered := fun hr => by
          rw [h.registered_iff.mp hr] at hstop
          cases hstop
        rw [if_neg hreg, List.append_nil, hd, window, window, hstop, Option.getD_some,
          Option.getD_some, List.take_append_of_le_length (h.stop_le n hstop)]

theorem Sound.push (h : sub.Sound published [v] registered) (hroom : sub.buf.length < sub.cap) :
    (sub.push v).Sound published [] registered where
  registered_iff := h.registered_iff
  closed_eq := h.closed_eq
  start_le := h.start_le
  stop_le := h.stop_le
  buf_le := by simpa [Subscription.push] using hroom
  seed_eq := h.seed_eq
  delivered := by
    rw [List.append_nil, Subscription.push, ← List.append_assoc]
    exact h.delivered

theorem Sound.pass (h : sub.Sound published [v] registered) (hbuf : sub.buf = []) :
    (sub.pass v).Sound published [] registered where
  registered_iff := h.registered_iff
  closed_eq := h.closed_eq
  start_le := h.start_le
  stop_le := h.stop_le
  buf_le := h.buf_le
  seed_eq := h.seed_eq
  delivered := by
    have hd := h.delivered
    rw [hbuf, List.append_nil] at hd
    show sub.received ++ [v] ++ sub.buf ++ [] = _
    rw [hbuf, List.append_nil, List.append_nil]
    exact hd

theorem Sound.pop {rest : List τ} (h : sub.Sound published pending registered)
    (hbuf : sub.buf = v :: rest) : (sub.pop v rest).Sound published pending registered where
  registered_iff := h.registered_iff
  closed_eq := h.closed_eq
  start_le := h.start_le
  stop_le := h.stop_le
  buf_le := by
    have hle := h.buf_le
    rw [hbuf, List.length_cons] at hle
    exact (Nat.le_succ _).trans hle
  seed_eq := h.seed_eq
  delivered := by
    have hd := h.delivered
    rw [hbuf] at hd
    show sub.received ++ [v] ++ rest ++ pending = _
    rw [List.append_assoc _ [v]]
    exact hd

theorem Sound.close (h : sub.Sound published [] True) :
    (sub.close published.length).Sound published [] False where
  registered_iff := iff_of_false id nofun
  closed_eq := rfl
  start_le := h.start_le
  stop_le n hn := (Option.some.inj hn).ge
  buf_le := h.buf_le
  seed_eq := h.seed_eq
  delivered := by
    have hd := h.delivered
    rw [window_of_open (h.registered_iff.mp trivial)] at hd
    rw [window, Subscription.close, Option.getD_some, List.take_length]
    exact hd

/-- The mutex has nothing to do with the delivery. -/
theorem Sound.locked (h : sub.Sound published pending registered) (mu : Option ClosePc)
    (detached : Bool) :
    ({ sub with mu := mu, detached := detached } : Subscription τ).Sound published pending
      registered :=
  ⟨h.registered_iff, h.closed_eq, h.start_le, h.stop_le, h.buf_le, h.seed_eq, h.delivered⟩

end Subscription

/-! ## What holds in every run -/

structure Sound (s : State τ) : Prop where
  panicked : s.panicked = false
  last_eq : s.last = s.published.getLast?
  nodup : s.subscribers.Nodup
  isSub : ∀ id ∈ s.subscribers, s.IsSub id
  sub : ∀ id, s.IsSub id →
    (s.subs id).Sound s.published (s.pending id) (id ∈ s.subscribers)
  /-- `Publish` serves every subscriber at most once, and no other one. -/
  mu : ∀ p, s.mu = some p → p.pending.Nodup ∧ p.pending ⊆ s.subscribers

theorem sound_new (initial : Option τ) : Sound (State.new initial) where
  panicked := rfl
  last_eq := by cases initial <;> rfl
  nodup := List.nodup_nil
  isSub := nofun
  sub id hid := absurd (hid.1.trans hid.2) (Nat.not_succ_le_zero 0)
  mu := nofun

namespace Sound

variable {s : State τ} {id : ℕ} {v : τ} {todo : List ℕ}

theorem registered (h : Sound s) (hid : id ∈ s.subscribers) : (s.subs id).closed = false := by
  have hsub := h.sub id (h.isSub id hid)
  rw [hsub.closed_eq, hsub.registered_iff.mp hid]
  rfl

theorem pending_eq_nil (h : s.mu = none) (id : ℕ) : s.pending id = [] := by
  rw [State.pending, h]

/-- A step of a consumer on its own subscription. -/
theorem update (h : Sound s) (consumers : List Consumer) {sub : Subscription τ}
    (hsub : ∀ {registered}, (s.subs id).Sound s.published (s.pending id) registered →
      sub.Sound s.published (s.pending id) registered) :
    Sound { s with subs := Function.update s.subs id sub, consumers := consumers } := by
  refine ⟨h.panicked, h.last_eq, h.nodup, h.isSub, ?_, h.mu⟩
  intro id' hid'
  by_cases heq : id' = id
  · subst heq
    show ((Function.update s.subs id' sub) id').Sound _ _ _
    rw [Function.update_self]
    exact hsub (h.sub id' hid')
  · show ((Function.update s.subs id sub) id').Sound _ _ _
    rw [Function.update_of_ne heq]
    exact h.sub id' hid'

theorem consumers (h : Sound s) (consumers : List Consumer) :
    Sound { s with consumers := consumers } :=
  ⟨h.panicked, h.last_eq, h.nodup, h.isSub, h.sub, h.mu⟩

theorem lock (h : Sound s) (hmu : s.mu = none) (v : τ) (waiting : List τ) :
    Sound { s with
      last := some v
      waiting := waiting
      mu := some ⟨v, none, s.subscribers⟩
      published := s.published ++ [v] } := by
  refine ⟨h.panicked, List.getLast?_concat.symm, h.nodup, h.isSub, ?_, ?_⟩
  · intro id hid
    have hsub := h.sub id hid
    rw [pending_eq_nil hmu] at hsub
    exact hsub.publish v
  · rintro p ⟨⟩
    exact ⟨h.nodup, List.Subset.refl _⟩

/-- The loop comes to another subscriber. -/
theorem range {before after : List ℕ} (h : Sound s)
    (hmu : s.mu = some ⟨v, none, before ++ id :: after⟩) :
    Sound { s with mu := some ⟨v, some id, before ++ after⟩ } := by
  obtain ⟨hnodup, hsubset⟩ := h.mu _ hmu
  have hperm : (⟨v, some id, before ++ after⟩ : Publish τ).pending.Perm
      (⟨v, none, before ++ id :: after⟩ : Publish τ).pending :=
    show (id :: (before ++ after)).Perm (before ++ id :: after) from List.perm_middle.symm
  refine ⟨h.panicked, h.last_eq, h.nodup, h.isSub, ?_, ?_⟩
  · intro id' hid'
    have hsub := h.sub id' hid'
    rw [State.pending, hmu] at hsub
    simpa only [State.pending, hperm.mem_iff] using hsub
  · rintro p ⟨⟩
    exact ⟨hperm.nodup_iff.mpr hnodup, fun x hx => hsubset (hperm.mem_iff.mp hx)⟩

/-- The subscriber that `Publish` sends to gets the value. -/
theorem serve (h : Sound s) (hmu : s.mu = some ⟨v, some id, todo⟩) (consumers : List Consumer)
    {sub : Subscription τ}
    (hsub : ∀ {registered}, (s.subs id).Sound s.published [v] registered →
      sub.Sound s.published [] registered) :
    Sound { s with
      mu := some ⟨v, none, todo⟩
      subs := Function.update s.subs id sub
      consumers := consumers } := by
  obtain ⟨hnodup, hsubset⟩ := h.mu _ hmu
  obtain ⟨hid, hnodup⟩ : id ∉ todo ∧ todo.Nodup := List.nodup_cons.mp hnodup
  have hpending : ∀ id', s.pending id' = if id' ∈ id :: todo then [v] else [] := by
    intro id'
    rw [State.pending, hmu]
    rfl
  refine ⟨h.panicked, h.last_eq, h.nodup, h.isSub, ?_, ?_⟩
  · intro id' hid'
    have hold := h.sub id' hid'
    rw [hpending] at hold
    show ((Function.update s.subs id sub) id').Sound _ (if id' ∈ todo then [v] else []) _
    by_cases heq : id' = id
    · subst heq
      rw [if_pos List.mem_cons_self] at hold
      rw [Function.update_self, if_neg hid]
      exact hsub hold
    · rw [Function.update_of_ne heq]
      simpa only [List.mem_cons, heq, false_or] using hold
  · rintro p ⟨⟩
    exact ⟨hnodup, fun x hx => hsubset (List.mem_cons_of_mem _ hx)⟩

theorem published (h : Sound s) (hmu : s.mu = some ⟨v, none, []⟩) :
    Sound { s with mu := none } := by
  refine ⟨h.panicked, h.last_eq, h.nodup, h.isSub, ?_, nofun⟩
  intro id hid
  have hsub := h.sub id hid
  rw [State.pending, hmu] at hsub
  exact hsub

theorem subscribe (h : Sound s) (hmu : s.mu = none) (sendLast : Bool) (consumers : List Consumer) :
    Sound (s.subscribe sendLast consumers) := by
  have hfresh : s.lastID + 1 ∉ s.subscribers := fun hmem =>
    Nat.not_succ_le_self _ (h.isSub _ hmem).2
  refine ⟨h.panicked, h.last_eq, List.nodup_cons.mpr ⟨hfresh, h.nodup⟩, ?_, ?_, ?_⟩
  · intro id hid
    rcases List.mem_cons.mp hid with rfl | hid
    · exact ⟨Nat.le_add_left _ _, le_rfl⟩
    · exact ⟨(h.isSub id hid).1, (h.isSub id hid).2.trans (Nat.le_succ _)⟩
  · rintro id ⟨hpos, hle⟩
    show ((Function.update s.subs (s.lastID + 1) _) id).Sound s.published (s.pending id) _
    rw [pending_eq_nil hmu]
    by_cases heq : id = s.lastID + 1
    · subst heq
      rw [Function.update_self, h.last_eq]
      have hnew := Subscription.sound_new s.published sendLast
      rwa [← eq_true (List.mem_cons_self (a := s.lastID + 1) (l := s.subscribers))] at hnew
    · have hsub := h.sub id ⟨hpos, Nat.le_of_lt_succ (lt_of_le_of_ne hle heq)⟩
      rw [pending_eq_nil hmu] at hsub
      rw [Function.update_of_ne heq]
      simpa only [State.subscribe, List.mem_cons, heq, false_or] using hsub
  · intro p hp
    rw [State.subscribe, hmu] at hp
    cases hp

theorem unsubscribeID (h : Sound s) (hmu : s.mu = none) (id : ℕ) : Sound (s.unsubscribeID id) := by
  unfold State.unsubscribeID
  split
  · rename_i hid
    have hclosed := h.registered hid
    refine ⟨?_, h.last_eq, h.nodup.erase id, fun x hx => h.isSub x (List.mem_of_mem_erase hx),
      ?_, ?_⟩
    · simp [h.panicked, hclosed]
    · intro id' hid'
      have hsub := h.sub id' hid'
      rw [pending_eq_nil hmu] at hsub
      show ((Function.update s.subs id _) id').Sound s.published (s.pending id') _
      rw [pending_eq_nil hmu]
      by_cases heq : id' = id
      · subst heq
        rw [Function.update_self, eq_false h.nodup.not_mem_erase]
        rw [eq_true hid] at hsub
        exact (hsub.locked (some .finishing) _).close
      · rw [Function.update_of_ne heq]
        simpa only [List.mem_erase_of_ne heq] using hsub
    · intro p hp
      rw [hmu] at hp
      cases hp
  · exact h.update s.consumers fun hsub => hsub.locked _ _

end Sound

theorem Step.sound {s s' : State τ} {e : Event} (h : Step s e s') (hs : Sound s) : Sound s' := by
  cases h with
  | publish v => exact ⟨hs.panicked, hs.last_eq, hs.nodup, hs.isSub, hs.sub, hs.mu⟩
  | lock _ hmu => exact hs.lock hmu _ _
  | range hmu => exact hs.range hmu
  | send hmu _ hroom => exact hs.serve hmu s.consumers fun hsub => hsub.push hroom
  | pass hmu _ hbuf => exact hs.serve hmu _ fun hsub => hsub.pass hbuf
  | sendClosed hmu hclosed =>
      have hid := (hs.mu _ hmu).2 List.mem_cons_self
      rw [hs.registered hid] at hclosed
      cases hclosed
  | published hmu => exact hs.published hmu
  | subscribe sendLast hmu => exact hs.subscribe hmu sendLast _
  | handle hmu => exact hs.subscribe hmu false _
  | next => exact hs.consumers _
  | close => exact hs.consumers _
  | channel => exact hs.consumers _
  | receive _ _ hbuf => exact hs.update _ fun hsub => hsub.pop hbuf
  | receiveClosed => exact hs.consumers _
  | cancelled => exact hs.consumers _
  | handled => exact hs.consumers _
  | handleError => exact hs.consumers _
  | alreadyClosed => exact hs.consumers _
  | lockSubscription => exact hs.update _ fun hsub => hsub.locked _ _
  | unsubscribe _ hmu => exact hs.unsubscribeID hmu _
  | finish => exact hs.update s.consumers fun hsub => hsub.locked _ _

theorem sound_of_runs {initial : Option τ} {s : State τ} (h : Runs (.new initial) s) : Sound s :=
  h.invariant (fun hstep _ hs => hstep.sound hs) (sound_new initial)

/-! ## Publish and Close -/

/-- A `Close` does not begin while a `Publish` has still to serve its
subscription, and no `Publish` gets the mutex that a `Close` waits for. -/
def Orderly (s : State τ) : Event → Prop
  | .publish => ∀ id ∈ s.subscribers, (s.subs id).mu ≠ some .unsubscribing
  | .close id => s.pending id = []
  | .other => True

/-- No `Close` that waits for the topic has still to be served by a `Publish`. -/
def Apart (s : State τ) : Prop := ∀ id, (s.subs id).mu = some .unsubscribing → s.pending id = []

theorem pending_eq_nil_iff {s : State τ} {id : ℕ} :
    s.pending id = [] ↔ ∀ p, s.mu = some p → id ∉ p.pending := by
  unfold State.pending
  cases hmu : s.mu with
  | none => simp
  | some p => simp

namespace Apart

variable {s : State τ} {id : ℕ} {v : τ} {todo : List ℕ}

/-- A step of a consumer on its own subscription. -/
theorem update (h : Apart s) (consumers : List Consumer) {sub : Subscription τ}
    (hsub : sub.mu = some .unsubscribing → s.pending id = []) :
    Apart { s with subs := Function.update s.subs id sub, consumers := consumers } := by
  intro id' hid'
  replace hid' : ((Function.update s.subs id sub) id').mu = some .unsubscribing := hid'
  by_cases heq : id' = id
  · subst heq
    rw [Function.update_self] at hid'
    exact hsub hid'
  · rw [Function.update_of_ne heq] at hid'
    exact h id' hid'

theorem serve (h : Apart s) (hmu : s.mu = some ⟨v, some id, todo⟩) (consumers : List Consumer)
    {sub : Subscription τ} (hsub : sub.mu = (s.subs id).mu) :
    Apart { s with
      mu := some ⟨v, none, todo⟩
      subs := Function.update s.subs id sub
      consumers := consumers } := by
  intro id' hid'
  have hold := h.update consumers (fun hid => h id (hsub ▸ hid)) id' hid'
  rw [pending_eq_nil_iff] at hold ⊢
  rintro p ⟨⟩ hmem
  exact hold _ hmu (List.mem_cons_of_mem _ hmem)

end Apart

theorem Step.apart {s s' : State τ} {e : Event} (h : Step s e s') (he : Orderly s e)
    (hs : Apart s) : Apart s' := by
  cases h with
  | publish v => exact hs
  | lock _ hmu =>
      intro id hid
      rw [pending_eq_nil_iff]
      rintro p ⟨⟩ hmem
      exact he id hmem hid
  | range hmu =>
      intro id hid
      have hold := pending_eq_nil_iff.mp (hs id hid) _ hmu
      rw [pending_eq_nil_iff]
      rintro p ⟨⟩ hmem
      exact hold (List.perm_middle.mem_iff.mpr hmem)
  | send hmu => exact hs.serve hmu s.consumers rfl
  | pass hmu => exact hs.serve hmu _ rfl
  | sendClosed => exact fun _ _ => rfl
  | published => exact fun _ _ => rfl
  | subscribe _ hmu => exact fun id _ => Sound.pending_eq_nil hmu id
  | handle hmu => exact fun id _ => Sound.pending_eq_nil hmu id
  | next => exact hs
  | close => exact hs
  | channel => exact hs
  | receive => exact hs.update _ (hs _)
  | receiveClosed => exact hs
  | cancelled => exact hs
  | handled => exact hs
  | handleError => exact hs
  | alreadyClosed => exact hs
  | lockSubscription => exact hs.update _ fun _ => he
  | @unsubscribe id _ hmu =>
      intro id' _
      have hmu' : (s.unsubscribeID id).mu = none := by
        unfold State.unsubscribeID
        split <;> exact hmu
      exact Sound.pending_eq_nil hmu' id'
  | finish => exact hs.update s.consumers nofun

theorem apart_of_run {initial : Option τ} {s : State τ}
    (h : RunsUnder Step Orderly (.new initial) s) : Apart s :=
  h.invariant Step.apart nofun

/-! ## Deadlock -/

/-- The consumer receives from the channel, now or after its callback, without
another call of `Channel`. -/
def Consumer.HasChannel (k : Consumer) : Prop :=
  k.pc = .receiving true ∨ k.kind = .channel ∧ k.pc = .callback

namespace Consumer

variable {k k' : Consumer}

theorem not_hasChannel_channel (id : ℕ) (kind : Kind) : ¬ HasChannel ⟨id, kind, .channel⟩ := by
  rintro (h | ⟨-, h⟩) <;> cases h

theorem not_hasChannel_locking (id : ℕ) (kind : Kind) : ¬ HasChannel ⟨id, kind, .locking⟩ := by
  rintro (h | ⟨-, h⟩) <;> cases h

theorem id_of_gotValue (h : k' ∈ k.gotValue.toList) : k'.id = k.id := by
  unfold gotValue at h
  cases hkind : k.kind <;>
    simp only [hkind, Option.toList, List.mem_singleton, List.not_mem_nil] at h
  all_goals rw [h]

theorem not_hasChannel_of_gotError (h : k' ∈ k.gotError.toList) : ¬ k'.HasChannel := by
  unfold gotError at h
  cases hkind : k.kind <;>
    simp only [hkind, Option.toList, List.mem_singleton, List.not_mem_nil] at h
  rw [h]
  exact not_hasChannel_locking _ _

theorem handled_id : k.handled.id = k.id := by
  unfold handled
  cases k.kind <;> rfl

theorem not_hasChannel_handled (hk : k.pc = .callback) (h : ¬ k.HasChannel) :
    ¬ k.handled.HasChannel := by
  have hkind : k.kind ≠ .channel := fun hkind => h (Or.inr ⟨hkind, hk⟩)
  unfold handled
  cases hk' : k.kind with
  | channel => exact absurd hk' hkind
  | next => exact not_hasChannel_channel _ _
  | handle => exact not_hasChannel_channel _ _
  | close => exact not_hasChannel_channel _ _

end Consumer

/-- A `Publish` sends to a subscriber that has no room, and that nobody receives
for. The subscription is locked by a `Close` that waits for the topic. -/
structure Deadlocked (s : State τ) (id : ℕ) : Prop where
  sending : ∃ v todo, s.mu = some ⟨v, some id, todo⟩
  closed : (s.subs id).closed = false
  full : (s.subs id).cap ≤ (s.subs id).buf.length
  deaf : ∀ k ∈ s.consumers, k.id = id → ¬ k.HasChannel
  closing : (s.subs id).mu = some .unsubscribing

namespace Deadlocked

variable {s : State τ} {id id' : ℕ} {before after : List Consumer} {k : Consumer}

theorem not_room (h : Deadlocked s id) : ¬ (s.subs id).buf.length < (s.subs id).cap :=
  Nat.not_lt.mpr h.full

theorem mu_ne_none (h : Deadlocked s id) : s.mu ≠ none := by
  obtain ⟨v, todo, hmu⟩ := h.sending
  rw [hmu]
  exact nofun

theorem cur_eq {p : Publish τ} (h : Deadlocked s id) (hp : s.mu = some p) : p.cur = some id := by
  obtain ⟨v, todo, hmu⟩ := h.sending
  rw [hmu] at hp
  cases hp
  rfl

/-- Other consumers take the place of one. -/
theorem replace (h : Deadlocked s id) (hks : s.consumers = before ++ k :: after)
    (ks : List Consumer) (hnew : ∀ k' ∈ ks, k'.id = id → ¬ k'.HasChannel) :
    Deadlocked { s with consumers := before ++ ks ++ after } id := by
  refine ⟨h.sending, h.closed, h.full, ?_, h.closing⟩
  have hdeaf := h.deaf
  rw [hks, List.forall_mem_append, List.forall_mem_cons] at hdeaf
  rw [List.forall_mem_append, List.forall_mem_append]
  exact ⟨⟨hdeaf.1, hnew⟩, hdeaf.2.2⟩

theorem replace_one (h : Deadlocked s id) (hks : s.consumers = before ++ k :: after)
    {k' : Consumer} (hnew : k'.id = id → ¬ k'.HasChannel) :
    Deadlocked { s with consumers := before ++ k' :: after } id := by
  rw [List.append_cons]
  exact h.replace hks [k'] (List.forall_mem_singleton.mpr hnew)

theorem add (h : Deadlocked s id) (hk : ¬ k.HasChannel) :
    Deadlocked { s with consumers := k :: s.consumers } id :=
  ⟨h.sending, h.closed, h.full, List.forall_mem_cons.mpr ⟨fun _ => hk, h.deaf⟩, h.closing⟩

/-- Other subscriptions may change. -/
theorem update (h : Deadlocked s id) (hne : id' ≠ id) (sub : Subscription τ) :
    Deadlocked { s with subs := Function.update s.subs id' sub } id := by
  have hsame : (Function.update s.subs id' sub) id = s.subs id := Function.update_of_ne hne.symm _ _
  refine ⟨h.sending, ?_, ?_, h.deaf, ?_⟩
  · exact (congrArg Subscription.closed hsame).trans h.closed
  · show (Function.update s.subs id' sub id).cap ≤ (Function.update s.subs id' sub id).buf.length
    rw [hsame]
    exact h.full
  · exact (congrArg Subscription.mu hsame).trans h.closing

end Deadlocked

theorem Step.deadlocked {s s' : State τ} {e : Event} {id : ℕ} (h : Step s e s')
    (hd : Deadlocked s id) : Deadlocked s' id := by
  obtain ⟨v, todo, hsending⟩ := hd.sending
  -- The mutex of the topic is not free, and neither is that of the subscription.
  have hlocked : ∀ {k : Consumer}, (s.subs k.id).mu = none → k.id ≠ id := by
    rintro k hk rfl
    rw [hd.closing] at hk
    cases hk
  have hdeaf : ∀ {before k after}, s.consumers = before ++ k :: after → k.HasChannel →
      k.id ≠ id := by
    intro before k after hks hk hid
    refine hd.deaf k ?_ hid hk
    rw [hks]
    exact List.mem_append_right _ List.mem_cons_self
  cases h with
  | publish v => exact ⟨hd.sending, hd.closed, hd.full, hd.deaf, hd.closing⟩
  | lock _ hmu => exact absurd hmu hd.mu_ne_none
  | range hmu => exact absurd (hd.cur_eq hmu) nofun
  | send hmu _ hroom =>
      obtain rfl := Option.some.inj (hd.cur_eq hmu)
      exact absurd hroom hd.not_room
  | pass hmu _ _ hks hid hk =>
      obtain rfl := Option.some.inj (hd.cur_eq hmu)
      exact absurd hid (hdeaf hks (Or.inl hk))
  | sendClosed hmu hclosed =>
      obtain rfl := Option.some.inj (hd.cur_eq hmu)
      rw [hd.closed] at hclosed
      cases hclosed
  | published hmu => exact absurd (hd.cur_eq hmu) nofun
  | subscribe _ hmu => exact absurd hmu hd.mu_ne_none
  | handle hmu => exact absurd hmu hd.mu_ne_none
  | next => exact hd.add (Consumer.not_hasChannel_channel _ _)
  | close => exact hd.add (Consumer.not_hasChannel_locking _ _)
  | channel hks _ hmu => exact hd.replace_one hks fun hid => absurd hid (hlocked hmu)
  | receive hks hk _ =>
      have hne := hdeaf hks (Or.inl hk)
      refine (hd.replace hks _ ?_).update hne _
      intro k' hk' hid
      exact absurd ((Consumer.id_of_gotValue hk').symm.trans hid) hne
  | receiveClosed hks =>
      exact hd.replace hks _ fun k' hk' _ => Consumer.not_hasChannel_of_gotError hk'
  | cancelled hks =>
      exact hd.replace hks _ fun k' hk' _ => Consumer.not_hasChannel_of_gotError hk'
  | handled hks hk =>
      refine hd.replace_one hks fun hid => Consumer.not_hasChannel_handled hk fun hchannel => ?_
      exact hdeaf hks hchannel (Consumer.handled_id.symm.trans hid)
  | handleError hks => exact hd.replace_one hks fun _ => Consumer.not_hasChannel_locking _ _
  | alreadyClosed hks => simpa using hd.replace hks [] nofun
  | lockSubscription hks _ hmu =>
      have hd' := hd.replace hks [] nofun
      rw [List.append_nil] at hd'
      exact hd'.update (hlocked hmu) _
  | unsubscribe _ hmu => exact absurd hmu hd.mu_ne_none
  | @finish id' hmu =>
      refine hd.update ?_ _
      rintro rfl
      rw [hd.closing] at hmu
      cases hmu

/-- From a deadlock there is no way out. -/
theorem Deadlocked.forever {s s' : State τ} {id : ℕ} (hd : Deadlocked s id) (h : Runs s s') :
    Deadlocked s' id :=
  RunsUnder.invariant (I := fun s => Deadlocked s id) (fun hstep _ hd => hstep.deadlocked hd) h hd

/-! ## Publishing and unsubscribing -/

/-- **Delivery and order of `Publish` and `Close`.** In every run no value is sent on a
closed channel, and a subscriber gets the values published between its `Subscribe`
and its `Close`, in order and once each: they are what was received, then what is
in the buffer, then what the `Publish` in progress has still to send. In a run
in which calls of `Close` and `Publish` keep out of each other's way, no
`Publish` sends to a subscriber that is blocked in `Close`. -/
theorem publish_close_orderly (initial : Option τ) (s : State τ) :
    (Runs (.new initial) s →
      s.panicked = false ∧
      (∀ v id todo, s.mu = some ⟨v, some id, todo⟩ → (s.subs id).closed = false) ∧
      ∀ id, s.IsSub id →
        (s.subs id).received ++ (s.subs id).buf ++ s.pending id =
          (s.subs id).seed ++ (s.subs id).window s.published ∧
        (s.subs id).buf.length ≤ (s.subs id).cap ∧
        (s.subs id).seed = if (s.subs id).cap = 0 then []
          else (s.published.take (s.subs id).start).getLast?.toList) ∧
    (RunsUnder Step Orderly (.new initial) s →
      ∀ v id todo, s.mu = some ⟨v, some id, todo⟩ → (s.subs id).mu ≠ some .unsubscribing) := by
  constructor
  · intro h
    have hs := sound_of_runs h
    refine ⟨hs.panicked, ?_, ?_⟩
    · intro v id todo hmu
      exact hs.registered ((hs.mu _ hmu).2 List.mem_cons_self)
    · intro id hid
      have hsub := hs.sub id hid
      exact ⟨hsub.delivered, hsub.buf_le, hsub.seed_eq⟩
  · intro h v id todo hmu hclosing
    exact pending_eq_nil_iff.mp (apart_of_run h id hclosing) _ hmu List.mem_cons_self

/-- `Handle` has received a value, and its callback is running. -/
def handlingState : State ℕ :=
  ⟨some 7, 1, [1], fun id => if id = 1 then ⟨0, [], false, none, false, [], 0, none, [7]⟩
    else .new false none 0, [], none, [⟨1, .handle, .callback⟩], [7], false⟩

theorem runs_handling : RunsUnder Step Orderly (.new none) handlingState := by
  have h₁ := (RunsUnder.refl (State.new (none : Option ℕ))).snoc (P := Orderly)
    (Step.handle rfl) trivial
  have h₂ := h₁.snoc (@Step.channel ℕ _ [] _ [] rfl rfl rfl) trivial
  have h₃ := h₂.snoc (Step.publish 7) trivial
  have h₄ := h₃.snoc (@Step.lock ℕ _ [] _ [] rfl rfl) (by rintro id (_ | ⟨_, ⟨⟩⟩) ⟨⟩)
  have h₅ := h₄.snoc (@Step.range ℕ _ _ [] _ [] rfl) trivial
  have h₆ := h₅.snoc (@Step.pass ℕ _ _ _ _ [] _ [] rfl rfl rfl rfl rfl rfl) trivial
  have h₇ := h₆.snoc (Step.published rfl) trivial
  convert h₇ using 1
  unfold handlingState
  congr 1
  funext id
  by_cases hid : id = 1
  · subst hid
    rfl
  · simp [hid, Function.update, State.new, State.subscribe]

/-- The callback fails while nothing is published: `Handle` closes its subscription. -/
theorem publish_close_orderly_handle : ∃ s : State ℕ, RunsUnder Step Orderly (.new none) s ∧
    s.subscribers = [] ∧ (s.subs 1).received ++ (s.subs 1).buf ++ s.pending 1 = [7] ∧
    ∀ v id todo, s.mu = some ⟨v, some id, todo⟩ → (s.subs id).mu ≠ some .unsubscribing := by
  have h₁ := runs_handling.snoc (@Step.handleError ℕ _ [] _ [] rfl rfl) trivial
  have h₂ := h₁.snoc (@Step.lockSubscription ℕ _ [] _ [] rfl rfl rfl rfl) rfl
  have h₃ := h₂.snoc (@Step.unsubscribe ℕ _ 1 rfl rfl) trivial
  have h₄ := h₃.snoc (@Step.finish ℕ _ 1 rfl) trivial
  obtain ⟨hsound, happart⟩ := publish_close_orderly none _
  obtain ⟨-, -, hdelivered⟩ := hsound (h₄.mono fun _ _ _ => trivial)
  exact ⟨_, h₄, rfl, (hdelivered 1 ⟨le_rfl, le_rfl⟩).1, happart h₄⟩

/-- The callback fails while a second value is being sent to it: `Publish` waits for
`Handle`, which waits in `Close` for `Publish`. -/
theorem handle_error_deadlocks : ∃ s : State ℕ, Runs (.new none) s ∧
    ∀ s', Runs s s' → Deadlocked s' 1 := by
  have h₀ : Runs (.new none) handlingState := runs_handling.mono fun _ _ _ => trivial
  have h₁ := RunsUnder.snoc h₀ (Step.publish 8) trivial
  have h₂ := h₁.snoc (@Step.lock ℕ _ [] _ [] rfl rfl) trivial
  have h₃ := h₂.snoc (@Step.range ℕ _ _ [] _ [] rfl) trivial
  have h₄ := h₃.snoc (@Step.handleError ℕ _ [] _ [] rfl rfl) trivial
  have h₅ := h₄.snoc (@Step.lockSubscription ℕ _ [] _ [] rfl rfl rfl rfl) trivial
  exact ⟨_, h₅, fun s' => Deadlocked.forever ⟨⟨8, [], rfl⟩, rfl, le_rfl, nofun, rfl⟩⟩

end LightningStream.Topics
