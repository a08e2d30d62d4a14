import Mathlib.Data.List.AList
import Mathlib.Logic.Function.Basic
import Mathlib.Tactic.Simps.Basic
import Cadence.Lts.Basic
import Cadence.Bus.Impl.Filter

/-!
This module contains the bus: the registry of subscriptions behind its lock, and any number of clones
that offer messages while subscriptions come and go and receivers drain their queues.
-/

open Lts Function

namespace Bus

inductive TrySendError where
  | full
  | disconnected
  deriving DecidableEq, Repr

/--
A channel of `crossbeam_channel::bounded(capacity)` with `1 ≤ capacity`.
-/
structure Channel (capacity : Nat) where
  queue : List Message
  connected : Bool
  bounded : queue.length ≤ capacity

namespace Channel

variable {capacity : Nat}

def new : Channel capacity := ⟨[], true, Nat.zero_le _⟩

def trySend (chan : Channel capacity) (msg : Message)
    : Channel capacity × Except TrySendError Unit :=
  if chan.connected then
    if h : chan.queue.length < capacity then
      ({ chan with queue := chan.queue ++ [msg], bounded := List.length_append ▸ h }, .ok ())
    else
      (chan, .error .full)
  else
    (chan, .error .disconnected)

def pop (chan : Channel capacity) : Channel capacity :=
  { chan with queue := chan.queue.tail, bounded := by have := chan.bounded; simp; omega }

/--
Dropping the receiver discards what is queued.
-/
def disconnect (_ : Channel capacity) : Channel capacity :=
  ⟨[], false, Nat.zero_le _⟩

/--
What a `try_send` finds: the length of the queue, or no receiver.
-/
def found (chan : Channel capacity) : Option Nat :=
  if chan.connected then some chan.queue.length else none

end Channel

abbrev SubId := UInt64

structure Sub where
  filter : Filter
  -- which call of `subscribe` has created the channel
  tx : Nat
  deriving DecidableEq

/--
`HashMap<SubId, Sub>`.
-/
abbrev Registry := AList fun _ : SubId => Sub

def Registry.values (subs : Registry) : List Sub :=
  subs.entries.map Sigma.snd

structure OfferResult where
  sent : Nat
  dropped : Nat
  deriving DecidableEq, Repr

/--
A subscription as its subscriber sees it, with the messages received from it and those discarded
when its receiver was dropped.
-/
structure Subscription (capacity : Nat) where
  pattern : String
  chan : Channel capacity
  received : List Message
  discarded : List Message

@[simps]
def Subscription.new (capacity : Nat) (pattern : String) : Subscription capacity where
  pattern := pattern
  chan := .new
  received := []
  discarded := []

def stamp (msg : Message) (now : UInt64) : Message :=
  { msg with timestampNs := now }

/--
The record of an offer that has taken the lock: its caller, argument and clock reading, the
subscriptions registered at that moment, and what its calls of `try_send` have found.
-/
structure Offer (τ : Type) where
  caller : τ
  arg : Message
  now : UInt64
  registered : List Nat
  tries : List (Nat × Option Nat)
  deriving DecidableEq

def Offer.msg {τ : Type} (o : Offer τ) : Message :=
  stamp o.arg o.now

def Offer.note {τ : Type} (o : Offer τ) (i : Nat) (found : Option Nat) : Offer τ :=
  { o with tries := o.tries ++ [(i, found)] }

inductive OfferPc where
  | idle
  | lock (arg : Message) (now : UInt64)
  -- `pending` are the values of the registry still to be visited
  | sending (msg : Message) (pending : List Sub) (sent dropped : Nat)
  deriving DecidableEq

/--
`offers` are the finished offers in the order in which they took the lock, `current` is the one that
holds it.
-/
structure State (capacity : Nat) (τ : Type) where
  nextId : SubId
  subs : Registry
  created : Nat
  subscriptions : Nat → Subscription capacity
  lock : Option τ
  pc : τ → OfferPc
  dropCount : UInt64
  offers : List (Offer τ)
  current : Option (Offer τ)

/--
`lock t values` fixes the order in which `HashMap::values` enumerates the registry.
-/
inductive Act (τ : Type) where
  | subscribe (pattern : String)
  | unsubscribe (id : SubId)
  | offer (t : τ) (arg : Message) (now : UInt64)
  | lock (t : τ) (values : List Sub)
  | trySend (t : τ)
  | unlock (t : τ)
  | recv (i : Nat)
  | dropReceiver (i : Nat)

inductive Output (τ : Type) where
  | subscribed (id : SubId) (i : Nat)
  | offer (t : τ) (arg : Message) (now : UInt64)
  | offered (t : τ) (result : OfferResult)
  deriving DecidableEq

namespace State

variable {capacity : Nat} {τ : Type} [DecidableEq τ]

def init (capacity : Nat) (τ : Type) : State capacity τ where
  nextId := 0
  subs := ∅
  created := 0
  subscriptions := fun _ => .new capacity ""
  lock := none
  pc := fun _ => .idle
  dropCount := 0
  offers := []
  current := none

@[simps]
def setPc (s : State capacity τ) (t : τ) (pc : OfferPc) : State capacity τ :=
  { s with pc := update s.pc t pc }

@[simps]
def setSubscription (s : State capacity τ) (i : Nat) (subscription : Subscription capacity)
    : State capacity τ :=
  { s with subscriptions := update s.subscriptions i subscription }

@[simps]
def noteTry (s : State capacity τ) (i : Nat) : State capacity τ :=
  { s with current := s.current.map fun o => o.note i (s.subscriptions i).chan.found }

/--
The `match` on the result of `try_send` in the loop of `offer`. Adding to `drop_count` belongs to the
step of the `try_send` that finds the queue full.
-/
def visit (s : State capacity τ) (t : τ) (msg : Message) (sub : Sub) (pending : List Sub)
    (sent dropped : Nat) : State capacity τ :=
  let subscription := s.subscriptions sub.tx
  let (chan, result) := subscription.chan.trySend msg
  let s := (s.noteTry sub.tx).setSubscription sub.tx { subscription with chan := chan }
  match result with
  | .ok () => s.setPc t (.sending msg pending (sent + 1) dropped)
  | .error .full =>
    { s with dropCount := s.dropCount + 1 }.setPc t (.sending msg pending sent (dropped + 1))
  | .error .disconnected => s.setPc t (.sending msg pending sent dropped)

def step (s : State capacity τ) : Act τ → Option (State capacity τ × List (Output τ))
  | .subscribe pattern =>
    if s.lock.isNone then
      let id := s.nextId
      let i := s.created
      let s := { s with
        nextId := s.nextId + 1
        subs := s.subs.insert id ⟨Filter.parse pattern, i⟩
        created := s.created + 1 }
      some (s.setSubscription i (.new capacity pattern), [.subscribed id i])
    else
      none
  | .unsubscribe id =>
    if s.lock.isNone then
      some ({ s with subs := s.subs.erase id }, [])
    else
      none
  | .offer t arg now =>
    match s.pc t with
    | .idle => some (s.setPc t (.lock arg now), [.offer t arg now])
    | _ => none
  | .lock t values =>
    match s.pc t with
    | .lock arg now =>
      if s.lock.isNone ∧ values.Perm s.subs.values then
        let s := { s with lock := some t, current := some ⟨t, arg, now, values.map Sub.tx, []⟩ }
        some (s.setPc t (.sending (stamp arg now) values 0 0), [])
      else
        none
    | _ => none
  | .trySend t =>
    match s.pc t with
    | .sending msg (sub :: pending) sent dropped =>
      if sub.filter.matchesTopic msg.topicStr then
        some (s.visit t msg sub pending sent dropped, [])
      else
        some (s.setPc t (.sending msg pending sent dropped), [])
    | _ => none
  | .unlock t =>
    match s.pc t with
    | .sending _ [] sent dropped =>
      let s := { s with lock := none, current := none, offers := s.offers ++ s.current.toList }
      some (s.setPc t .idle, [.offered t ⟨sent, dropped⟩])
    | _ => none
  | .recv i =>
    let subscription := s.subscriptions i
    match subscription.chan.queue with
    | msg :: _ =>
      if i < s.created ∧ subscription.chan.connected then
        some (s.setSubscription i
          { subscription with
            chan := subscription.chan.pop, received := subscription.received ++ [msg] }, [])
      else
        none
    | [] => none
  | .dropReceiver i =>
    let subscription := s.subscriptions i
    if i < s.created ∧ subscription.chan.connected then
      some (s.setSubscription i
        { subscription with
          chan := subscription.chan.disconnect, discarded := subscription.chan.queue }, [])
    else
      none

end State

def bus (capacity : Nat) (τ : Type) [DecidableEq τ]
    : System (State capacity τ) (Act τ) (Output τ) where
  init := .init capacity τ
  step := State.step

inductive Step {capacity : Nat} {τ : Type} [DecidableEq τ] (s : State capacity τ)
    : Act τ → State capacity τ → List (Output τ) → Prop where
  | subscribe {pattern} (hlock : s.lock = none)
    : Step s (.subscribe pattern)
        ({ s with
            nextId := s.nextId + 1
            subs := s.subs.insert s.nextId ⟨Filter.parse pattern, s.created⟩
            created := s.created + 1 }.setSubscription s.created (.new capacity pattern))
        [.subscribed s.nextId s.created]
  | unsubscribe {id} (hlock : s.lock = none)
    : Step s (.unsubscribe id) { s with subs := s.subs.erase id } []
  | offer {t arg now} (hpc : s.pc t = .idle)
    : Step s (.offer t arg now) (s.setPc t (.lock arg now)) [.offer t arg now]
  | lock {t values arg now} (hpc : s.pc t = .lock arg now) (hlock : s.lock = none)
      (hvalues : values.Perm s.subs.values)
    : Step s (.lock t values)
        ({ s with
            lock := some t
            current := some ⟨t, arg, now, values.map Sub.tx, []⟩ }.setPc t
          (.sending (stamp arg now) values 0 0)) []
  | visit {t msg sub pending sent dropped}
      (hpc : s.pc t = .sending msg (sub :: pending) sent dropped)
      (hmatch : sub.filter.matchesTopic msg.topicStr = true)
    : Step s (.trySend t) (s.visit t msg sub pending sent dropped) []
  | skip {t msg sub pending sent dropped}
      (hpc : s.pc t = .sending msg (sub :: pending) sent dropped)
      (hmatch : sub.filter.matchesTopic msg.topicStr = false)
    : Step s (.trySend t) (s.setPc t (.sending msg pending sent dropped)) []
  | unlock {t msg sent dropped} (hpc : s.pc t = .sending msg [] sent dropped)
    : Step s (.unlock t)
        ({ s with
            lock := none
            current := none
            offers := s.offers ++ s.current.toList }.setPc t .idle)
        [.offered t ⟨sent, dropped⟩]
  | recv {i msg rest} (hqueue : (s.subscriptions i).chan.queue = msg :: rest)
      (hcreated : i < s.created) (hconnected : (s.subscriptions i).chan.connected = true)
    : Step s (.recv i)
        (s.setSubscription i
          { s.subscriptions i with
            chan := (s.subscriptions i).chan.pop
            received := (s.subscriptions i).received ++ [msg] }) []
  | dropReceiver {i} (hcreated : i < s.created)
      (hconnected : (s.subscriptions i).chan.connected = true)
    : Step s (.dropReceiver i)
        (s.setSubscription i
          { s.subscriptions i with
            chan := (s.subscriptions i).chan.disconnect
            discarded := (s.subscriptions i).chan.queue }) []

theorem Step.of_step {capacity : Nat} {τ : Type} [DecidableEq τ] {s s' : State capacity τ}
    {a : Act τ} {es : List (Output τ)} (h : s.step a = some (s', es)) : Step s a s' es := by
  cases a <;> simp only [State.step] at h <;> split at h <;> (try split at h) <;>
    simp only [Option.some.injEq, Prod.mk.injEq, reduceCtorEq] at h <;> rcases h with ⟨rfl, rfl⟩
  . exact .subscribe (Option.isNone_iff_eq_none.mp ‹_›)
  . exact .unsubscribe (Option.isNone_iff_eq_none.mp ‹_›)
  . exact .offer ‹_›
  . next h => exact .lock ‹_› (Option.isNone_iff_eq_none.mp h.1) h.2
  . exact .visit ‹_› ‹_›
  . exact .skip ‹_› (Bool.eq_false_iff.mpr ‹_›)
  . exact .unlock ‹_›
  . next h => exact .recv ‹_› h.1 h.2
  . next h => exact .dropReceiver h.1 h.2

end Bus
