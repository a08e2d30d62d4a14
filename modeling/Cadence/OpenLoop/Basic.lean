import Cadence.Lts.Basic
import Mathlib.Data.List.Basic

/-!
This module contains open-loop measurements: a generator that starts its sends on a schedule, a link
that carries the items, and a receiver that reads the clock for every item that arrives. What the
receiver's histogram makes of a sample is left open: it is the calls that record one.
-/

open Lts

namespace OpenLoop

inductive Role where
  | sender
  | receiver
  | other
  deriving DecidableEq, Repr

variable {σ ι ε α τ : Type}

/--
A system that carries items of type `α`: whose steps its steps are, whether its sender has items
left, and what its events say.
-/
structure Link (σ ι ε α : Type) where
  system : System σ ι ε
  role : ι → Role
  more : σ → Bool
  sent : ε → Bool
  received? : ε → Option α

/--
`due i` is the time at which the `i`-th send is meant to start, and `key` reads it off an item. A
sample is recorded together with `interval`.
-/
structure Plan (α τ : Type) where
  start : τ
  due : Nat → τ
  key : α → τ
  sample : τ → τ → τ
  interval : τ
  warmup : Nat

/--
Where the generator is: in front of its first reading of the clock, in the loop that waits for the
next send to be due, or in that send.
-/
inductive Pace where
  | starting
  | pacing
  | sending
  deriving DecidableEq, Repr

/--
`i` is the counter of the generator. `held` is the item that the receiver has received and not
measured yet, `received` is its counter, and `hist` are the arguments of the calls that it has made
to record a sample.
-/
structure State (σ α τ : Type) where
  base : σ
  clock : τ
  pace : Pace
  i : Nat
  held : Option α
  received : Nat
  hist : List (τ × τ)

/--
`read` is a reading of the generator and `measure` one of the receiver.
-/
inductive Act (ι τ : Type) where
  | tick (now : τ)
  | read
  | measure
  | base (a : ι)

namespace State

variable (link : Link σ ι ε α) (plan : Plan α τ)

def init (now : τ) : State σ α τ where
  base := link.system.init
  clock := now
  pace := .starting
  i := 0
  held := none
  received := 0
  hist := []

def enabled (s : State σ α τ) : Role → Bool
  | .sender => s.pace = .sending
  | .receiver => s.held.isNone
  | .other => s.pace ≠ .starting

def advance (s : State σ α τ) (base : σ) (es : List ε) : State σ α τ :=
  { s with
    base := base
    pace := if es.any link.sent then .pacing else s.pace
    i := s.i + es.countP link.sent
    held := (es.findSome? link.received?).or s.held }

def record (s : State σ α τ) (item : α) : State σ α τ :=
  { s with
    held := none
    received := s.received + 1
    hist :=
      if plan.warmup ≤ s.received then
        s.hist ++ [(plan.sample s.clock (plan.key item), plan.interval)]
      else
        s.hist }

variable [LE τ] [LT τ] [DecidableLE τ] [DecidableLT τ] [DecidableEq τ]

def step (s : State σ α τ) : Act ι τ → Option (State σ α τ × List ε)
  | .tick now => if s.clock ≤ now then some ({ s with clock := now }, []) else none
  | .read =>
    match s.pace with
    | .starting => if s.clock = plan.start then some ({ s with pace := .pacing }, []) else none
    | .pacing =>
      if link.more s.base then
        if s.clock < plan.due s.i then
          some (s, [])
        else
          some ({ s with pace := .sending }, [])
      else
        none
    | .sending => none
  | .measure =>
    match s.held with
    | some item => some (s.record plan item, [])
    | none => none
  | .base a =>
    if s.enabled (link.role a) then
      match link.system.step s.base a with
      | some (base, es) => some (s.advance link base es, es)
      | none => none
    else
      none

end State

variable [LE τ] [LT τ] [DecidableLE τ] [DecidableLT τ] [DecidableEq τ]

/--
The measurement of `link`, whose clock shows `now` in the beginning.
-/
def measurement (link : Link σ ι ε α) (plan : Plan α τ) (now : τ)
    : System (State σ α τ) (Act ι τ) ε where
  init := .init link now
  step := State.step link plan

/--
What an onlooker with the same clock writes down: the times at which the sends have begun, by the
first step of the sender in each, and the items that the receiver has measured with the times of
that.
-/
structure Onlooker (α τ : Type) where
  departures : List τ
  arrivals : List (α × τ)

def Onlooker.watch (link : Link σ ι ε α) (o : Onlooker α τ) (s : State σ α τ)
    : Act ι τ → Onlooker α τ
  | .base a =>
    if link.role a = .sender ∧ o.departures.length ≤ s.i then
      { o with departures := o.departures ++ [s.clock] }
    else
      o
  | .measure => { o with arrivals := o.arrivals ++ (s.held.map fun item => (item, s.clock)).toList }
  | .tick _ | .read => o

def onlooker (link : Link σ ι ε α) (plan : Plan α τ) (now : τ) (acts : List (Act ι τ))
    : Onlooker α τ :=
  (measurement link plan now).observe (Onlooker.watch link) ⟨[], []⟩ (.init link now) acts

inductive Step [LE τ] [LT τ] (link : Link σ ι ε α) (plan : Plan α τ) (s : State σ α τ)
    : Act ι τ → State σ α τ → List ε → Prop where
  | tick {now} (hclock : s.clock ≤ now) : Step link plan s (.tick now) { s with clock := now } []
  | start (hpace : s.pace = .starting) (hclock : s.clock = plan.start)
    : Step link plan s .read { s with pace := .pacing } []
  | early (hpace : s.pace = .pacing) (hclock : s.clock < plan.due s.i) : Step link plan s .read s []
  | depart (hpace : s.pace = .pacing) (hmore : link.more s.base = true)
      (hclock : plan.due s.i ≤ s.clock)
    : Step link plan s .read { s with pace := .sending } []
  | measure {item} (hheld : s.held = some item)
    : Step link plan s .measure (s.record plan item) []
  | base {a base es} (henabled : s.enabled (link.role a) = true)
      (hstep : link.system.step s.base a = some (base, es))
    : Step link plan s (.base a) (s.advance link base es) es

theorem Step.of_step [Std.IsLinearPreorder τ] [Std.LawfulOrderLT τ] {link : Link σ ι ε α}
    {plan : Plan α τ} {s s' : State σ α τ} {a : Act ι τ} {es : List ε}
    (h : s.step link plan a = some (s', es)) : Step link plan s a s' es := by
  cases a with
  | tick now =>
    simp only [State.step, Option.ite_none_right_eq_some, Option.some.injEq, Prod.mk.injEq] at h
    rcases h with ⟨hclock, rfl, rfl⟩
    exact .tick hclock
  | read =>
    simp only [State.step] at h
    split at h
    . next hpace =>
      simp only [Option.ite_none_right_eq_some, Option.some.injEq, Prod.mk.injEq] at h
      rcases h with ⟨hclock, rfl, rfl⟩
      exact .start hpace hclock
    . next hpace =>
      split at h
      . next hmore =>
        split at h
        . next hclock =>
          simp only [Option.some.injEq, Prod.mk.injEq] at h
          rcases h with ⟨rfl, rfl⟩
          exact .early hpace hclock
        . next hclock =>
          simp only [Option.some.injEq, Prod.mk.injEq] at h
          rcases h with ⟨rfl, rfl⟩
          exact .depart hpace hmore (Std.not_lt.mp hclock)
      . contradiction
    . contradiction
  | measure =>
    simp only [State.step] at h
    split at h
    . next item hheld =>
      simp only [Option.some.injEq, Prod.mk.injEq] at h
      rcases h with ⟨rfl, rfl⟩
      exact .measure hheld
    . contradiction
  | base a =>
    simp only [State.step] at h
    split at h
    . next henabled =>
      split at h
      . next base es' hstep =>
        simp only [Option.some.injEq, Prod.mk.injEq] at h
        rcases h with ⟨rfl, rfl⟩
        exact .base henabled hstep
      . contradiction
    . contradiction

end OpenLoop
