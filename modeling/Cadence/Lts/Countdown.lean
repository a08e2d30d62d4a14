import Mathlib.Data.List.Basic
import Cadence.Lts.Basic

/-!
This module contains operations that need boundedly many steps of their own, whatever the rest of the
system does in between.
-/

universe u v x

namespace Lts

variable {σ : Type u} {ι : Type v} {ε : Type x}

/--
`active s n` says that the operation is in progress and needs at most `n` of its `own` steps before
the one that is its last. That one emits a `done` event and leads to a state that is `finished`.
-/
structure Countdown (S : System σ ι ε) (own : ι → Bool) (active : σ → Nat → Prop)
    (finished : σ → Prop) (done : ε → Prop) : Prop where
  enabled : ∀ s n, active s n → ∃ i, own i = true ∧ (S.step s i).isSome
  other : ∀ s n i s' es, active s n → own i = false → S.step s i = some (s', es) → active s' n
  own : ∀ s n i s' es, active s n → own i = true → S.step s i = some (s', es) →
    (∃ m < n, active s' m) ∨ finished s' ∧ ∃ e ∈ es, done e

namespace Countdown

variable {S : System σ ι ε} {own : ι → Bool} {active : σ → Nat → Prop} {finished : σ → Prop}
variable {done : ε → Prop}

/--
As long as the operation is not done, its own steps use up what it needs, however many steps of the
rest are among them.
-/
theorem run (count : Countdown S own active finished done) {s s' : σ} {n : Nat} {is : List ι}
    {es : List ε} (hactive : active s n) (hrun : S.run s is = some (s', es))
    : (∃ e ∈ es, done e) ∨ ∃ m, active s' m ∧ is.countP own + m ≤ n := by
  induction is generalizing s n es with
  | nil =>
    simp only [System.run_nil, Option.some.injEq, Prod.mk.injEq] at hrun
    rcases hrun with ⟨rfl, rfl⟩
    exact .inr ⟨n, hactive, by simp⟩
  | cons i is ih =>
    rw [System.run_cons_eq_some] at hrun
    rcases hrun with ⟨t, es1, es2, hstep, hrest, rfl⟩
    have hlater {k : Nat} (hk : active t k)
        : (∃ e ∈ es1 ++ es2, done e) ∨ ∃ m, active s' m ∧ is.countP own + m ≤ k := by
      rcases ih hk hrest with ⟨e, he, hdone⟩ | hm
      . exact .inl ⟨e, List.mem_append_right _ he, hdone⟩
      . exact .inr hm
    cases hown : own i with
    | false =>
      rw [List.countP_cons_of_neg (by simp [hown])]
      exact hlater (count.other s n i t es1 hactive hown hstep)
    | true =>
      rw [List.countP_cons_of_pos hown]
      rcases count.own s n i t es1 hactive hown hstep with ⟨k, hlt, hk⟩ | ⟨-, e, he, hdone⟩
      . rcases hlater hk with hdone | ⟨m, hm, hle⟩
        . exact .inl hdone
        . exact .inr ⟨m, hm, by omega⟩
      . exact .inl ⟨e, List.mem_append_left _ he, hdone⟩

/--
Run alone, the operation finishes.
-/
theorem finish (count : Countdown S own active finished done) {s : σ} {n : Nat}
    (hactive : active s n)
    : ∃ is s' es,
        S.run s is = some (s', es) ∧ is.length ≤ n + 1 ∧ (∀ i ∈ is, own i = true) ∧ finished s'
          ∧ ∃ e ∈ es, done e := by
  induction n using Nat.strongRecOn generalizing s with
  | ind n ih =>
    rcases count.enabled s n hactive with ⟨i, hown, hsome⟩
    rcases Option.isSome_iff_exists.mp hsome with ⟨⟨t, es⟩, hstep⟩
    rcases count.own s n i t es hactive hown hstep with ⟨m, hlt, hm⟩ | ⟨hfinished, hdone⟩
    . rcases ih m hlt hm with ⟨is, s', es', hrun, hlength, his, hfinished, e, he, hdone⟩
      refine ⟨i :: is, s', es ++ es', ?_, ?_, ?_, hfinished, e, ?_, hdone⟩
      . rw [System.run_cons_eq_some]
        exact ⟨t, es, es', hstep, hrun, rfl⟩
      . rw [List.length_cons]
        omega
      . rw [List.forall_mem_cons]
        exact ⟨hown, his⟩
      . apply List.mem_append_right _ he
    . refine ⟨[i], t, es, S.run_one hstep, ?_, ?_, hfinished, hdone⟩
      . rw [List.length_singleton]
        omega
      . rw [List.forall_mem_singleton]
        exact hown

end Countdown
end Lts
