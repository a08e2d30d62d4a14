import Mathlib.Logic.Function.Basic
import Cadence.Lts.Basic

/-!
This module contains linearizability: a sequential object, the atomic object that its clients may
observe when every call takes effect at one instant between its invocation and its return, and
histories that are traces of that atomic object.
-/

universe u

namespace Lts

structure Object (θ ο ρ : Type u) where
  init : θ
  apply : θ → ο → θ × ρ

inductive Event (τ ο ρ : Type u) where
  | call (t : τ) (op : ο)
  | ret (t : τ) (res : ρ)
  deriving DecidableEq, Repr

/--
Where a thread of the atomic object is: outside a call, inside one that has not taken effect yet,
or inside one that has taken effect with a result.
-/
inductive Status (ο ρ : Type u) where
  | idle
  | called (op : ο)
  | done (res : ρ)

inductive Atomic.Act (τ ο : Type u) where
  | call (t : τ) (op : ο)
  | takeEffect (t : τ)
  | ret (t : τ)

namespace Object

variable {θ ο ρ τ : Type u} [DecidableEq τ]

/--
The atomic object: between `call` and `ret` of a thread there is exactly one `takeEffect`, which
applies the operation to the sequential object and fixes the result that `ret` returns.
-/
def atomic (O : Object θ ο ρ) : System (θ × (τ → Status ο ρ)) (Atomic.Act τ ο) (Event τ ο ρ) where
  init := (O.init, fun _ => .idle)
  step := fun (q, st) act =>
    match act with
    | .call t op =>
      match st t with
      | .idle => some ((q, Function.update st t (.called op)), [.call t op])
      | _ => none
    | .takeEffect t =>
      match st t with
      | .called op => some (((O.apply q op).1, Function.update st t (.done (O.apply q op).2)), [])
      | _ => none
    | .ret t =>
      match st t with
      | .done res => some ((q, Function.update st t .idle), [.ret t res])
      | _ => none

def Linearizable (O : Object θ ο ρ) (history : List (Event τ ο ρ)) : Prop :=
  ∃ acts s, O.atomic.Reaches acts s history

variable (O : Object θ ο ρ) (q : θ) (st : τ → Status ο ρ) (t : τ)

theorem run_call {op : ο} (h : st t = .idle)
    : O.atomic.run (q, st) [.call t op]
        =
      some ((q, Function.update st t (.called op)), [.call t op]) := by
  simp [System.run, atomic, h]

theorem run_takeEffect_ret {op : ο} (h : st t = .called op)
    : O.atomic.run (q, st) [.takeEffect t, .ret t]
        =
      some (((O.apply q op).1, Function.update st t .idle), [.ret t (O.apply q op).2]) := by
  simp [System.run, atomic, h]

theorem run_takeEffect {op : ο} (h : st t = .called op)
    : O.atomic.run (q, st) [.takeEffect t]
        =
      some (((O.apply q op).1, Function.update st t (.done (O.apply q op).2)), []) := by
  simp [System.run, atomic, h]

theorem run_ret {res : ρ} (h : st t = .done res)
    : O.atomic.run (q, st) [.ret t] = some ((q, Function.update st t .idle), [.ret t res]) := by
  simp [System.run, atomic, h]

/--
A call that takes effect at once.
-/
theorem run_all (op : ο) (h : st t = .idle)
    : O.atomic.run (q, st) [.call t op, .takeEffect t, .ret t]
        =
      some (((O.apply q op).1, st), [.call t op, .ret t (O.apply q op).2]) := by
  have hidle : Function.update st t .idle = st := by
    rw [← h]
    apply Function.update_eq_self
  simp [System.run, atomic, h, hidle]

end Object

theorem Simulation.linearizable {θ ο ρ τ σ ι : Type u} [DecidableEq τ] {O : Object θ ο ρ}
    {A : System σ ι (Event τ ο ρ)} {R : σ → θ × (τ → Status ο ρ) → Prop}
    (sim : Simulation A O.atomic R) {s : σ} {es : List (Event τ ο ρ)} {is : List ι}
    (h : A.Reaches is s es) : O.Linearizable es := by
  rcases sim.trace h with ⟨acts, t, hreach, _⟩
  exact ⟨acts, t, hreach⟩

end Lts
