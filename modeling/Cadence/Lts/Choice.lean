import Cadence.Lts.Linearizable

/-!
This module contains linearizability for objects that leave something open: when a call takes effect,
the environment makes a choice that fixes the result, as far as the object permits it.
-/

universe u

namespace Lts

/--
`apply q op choice = none` means that `choice` is not permitted in `q`.
-/
structure OpenObject (θ ο γ ρ : Type u) where
  init : θ
  apply : θ → ο → γ → Option (θ × ρ)

inductive OpenObject.Act (τ ο γ : Type u) where
  | call (t : τ) (op : ο)
  | takeEffect (t : τ) (choice : γ)
  | ret (t : τ)

namespace OpenObject

variable {θ ο γ ρ τ : Type u} [DecidableEq τ]

def atomic (O : OpenObject θ ο γ ρ)
    : System (θ × (τ → Status ο ρ)) (OpenObject.Act τ ο γ) (Event τ ο ρ) where
  init := (O.init, fun _ => .idle)
  step := fun (q, st) act =>
    match act with
    | .call t op =>
      match st t with
      | .idle => some ((q, Function.update st t (.called op)), [.call t op])
      | _ => none
    | .takeEffect t choice =>
      match st t with
      | .called op =>
        (O.apply q op choice).map fun (q, res) => ((q, Function.update st t (.done res)), [])
      | _ => none
    | .ret t =>
      match st t with
      | .done res => some ((q, Function.update st t .idle), [.ret t res])
      | _ => none

def Linearizable (O : OpenObject θ ο γ ρ) (history : List (Event τ ο ρ)) : Prop :=
  ∃ acts s, O.atomic.Reaches acts s history

variable (O : OpenObject θ ο γ ρ) (q : θ) (st : τ → Status ο ρ) (t : τ)

theorem run_call {op : ο} (h : st t = .idle)
    : O.atomic.run (q, st) [.call t op]
        =
      some ((q, Function.update st t (.called op)), [.call t op]) := by
  simp [System.run, atomic, h]

theorem run_takeEffect_ret {op : ο} {choice : γ} {q' : θ} {res : ρ} (h : st t = .called op)
    (happly : O.apply q op choice = some (q', res))
    : O.atomic.run (q, st) [.takeEffect t choice, .ret t]
        =
      some ((q', Function.update st t .idle), [.ret t res]) := by
  simp [System.run, atomic, h, happly]

end OpenObject

theorem Simulation.openLinearizable {θ ο γ ρ τ σ ι : Type u} [DecidableEq τ]
    {O : OpenObject θ ο γ ρ} {A : System σ ι (Event τ ο ρ)} {R : σ → θ × (τ → Status ο ρ) → Prop}
    (sim : Simulation A O.atomic R) {s : σ} {es : List (Event τ ο ρ)} {is : List ι}
    (h : A.Reaches is s es) : O.Linearizable es := by
  rcases sim.trace h with ⟨acts, t, hreach, _⟩
  exact ⟨acts, t, hreach⟩

end Lts
