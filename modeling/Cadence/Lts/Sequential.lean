import Mathlib.Data.List.Basic
import Cadence.Lts.Linearizable

/-!
This module contains that calls which do not overlap have no choice: in a linearizable history of
such calls every result is the one that the sequential object gives.
-/

universe u

namespace Lts

open Function

variable {θ ο ρ τ : Type u}

/--
Every call returns before the next one starts.
-/
def sequential (calls : List (τ × ο × ρ)) : List (Event τ ο ρ) :=
  calls.flatMap fun c => [.call c.1 c.2.1, .ret c.1 c.2.2]

namespace Object

def results (O : Object θ ο ρ) : θ → List ο → List ρ
  | _, [] => []
  | q, op :: ops => (O.apply q op).2 :: O.results (O.apply q op).1 ops

variable [DecidableEq τ] {O : Object θ ο ρ} {q : θ} {t t' : τ} {s : θ × (τ → Status ο ρ)}
variable {acts : List (Atomic.Act τ ο)} {es : List (Event τ ο ρ)}

theorem atomic_step {st : τ → Status ο ρ} {act : Atomic.Act τ ο}
    (h : O.atomic.step (q, st) act = some (s, es))
    : (∃ t op, st t = .idle ∧ s = (q, update st t (.called op)) ∧ es = [.call t op])
        ∨
      (∃ t op, st t = .called op ∧ s = ((O.apply q op).1, update st t (.done (O.apply q op).2))
        ∧ es = [])
        ∨
      ∃ t res, st t = .done res ∧ s = (q, update st t .idle) ∧ es = [.ret t res] := by
  cases act with
  | call t op =>
    simp only [atomic] at h
    split at h
    . next hst =>
      simp only [Option.some.injEq, Prod.mk.injEq] at h
      exact .inl ⟨t, op, hst, h.1.symm, h.2.symm⟩
    . contradiction
  | takeEffect t =>
    simp only [atomic] at h
    split at h
    . next op hst =>
      simp only [Option.some.injEq, Prod.mk.injEq] at h
      exact .inr (.inl ⟨t, op, hst, h.1.symm, h.2.symm⟩)
    . contradiction
  | ret t =>
    simp only [atomic] at h
    split at h
    . next res hst =>
      simp only [Option.some.injEq, Prod.mk.injEq] at h
      exact .inr (.inr ⟨t, res, hst, h.1.symm, h.2.symm⟩)
    . contradiction

theorem eq_of_update_idle {x y : Status ο ρ} {st : τ → Status ο ρ} (hidle : ∀ t, st t = .idle)
    (h : update st t x t' = y) (hy : y ≠ .idle) : t' = t ∧ x = y := by
  by_cases ht : t' = t
  . subst ht
    rw [update_self] at h
    exact ⟨rfl, h⟩
  . rw [update_of_ne ht] at h
    exact absurd (h.symm.trans (hidle t')) hy

theorem run_of_idle {op : ο}
    (h : O.atomic.run (q, fun _ => .idle) acts = some (s, .call t op :: es))
    : ∃ acts',
        O.atomic.run (q, update (fun _ => .idle) t (.called op)) acts' = some (s, es) := by
  rcases acts with _ | ⟨act, acts⟩
  . simp at h
  . rw [System.run_cons_eq_some] at h
    rcases h with ⟨u, es₁, es₂, hstep, hrest, hes⟩
    rcases atomic_step hstep with
      ⟨t', op', -, rfl, rfl⟩ | ⟨t', op', hst, -, -⟩ | ⟨t', res, hst, -, -⟩
    . rw [List.singleton_append, List.cons.injEq, Event.call.injEq] at hes
      rcases hes with ⟨⟨rfl, rfl⟩, rfl⟩
      exact ⟨acts, hrest⟩
    . contradiction
    . contradiction

/--
The next event is a return, so the only call in progress takes effect.
-/
theorem run_of_called {op : ο} {res : ρ}
    (h : O.atomic.run (q, update (fun _ => .idle) t (.called op)) acts
      = some (s, .ret t' res :: es))
    : ∃ acts',
        O.atomic.run ((O.apply q op).1, update (fun _ => .idle) t (.done (O.apply q op).2)) acts'
          = some (s, .ret t' res :: es) := by
  rcases acts with _ | ⟨act, acts⟩
  . simp at h
  . rw [System.run_cons_eq_some] at h
    rcases h with ⟨u, es₁, es₂, hstep, hrest, hes⟩
    rcases atomic_step hstep with
      ⟨t'', op', -, -, rfl⟩ | ⟨t'', op', hst, rfl, rfl⟩ | ⟨t'', res', hst, -, -⟩
    . simp at hes
    . rcases eq_of_update_idle (fun _ => rfl) hst (by simp) with ⟨rfl, hop⟩
      cases hop
      rw [update_idem] at hrest
      rw [hes]
      exact ⟨acts, hrest⟩
    . have := (eq_of_update_idle (fun _ => rfl) hst (by simp)).2
      contradiction

theorem run_of_done {res res' : ρ}
    (h : O.atomic.run (q, update (fun _ => .idle) t (.done res)) acts
      = some (s, .ret t' res' :: es))
    : res' = res ∧ ∃ acts', O.atomic.run (q, fun _ => .idle) acts' = some (s, es) := by
  rcases acts with _ | ⟨act, acts⟩
  . simp at h
  . rw [System.run_cons_eq_some] at h
    rcases h with ⟨u, es₁, es₂, hstep, hrest, hes⟩
    rcases atomic_step hstep with
      ⟨t'', op', -, -, rfl⟩ | ⟨t'', op', hst, -, -⟩ | ⟨t'', res'', hst, rfl, rfl⟩
    . simp at hes
    . have := (eq_of_update_idle (fun _ => rfl) hst (by simp)).2
      contradiction
    . rcases eq_of_update_idle (fun _ => rfl) hst (by simp) with ⟨rfl, hres⟩
      cases hres
      have hidle : update (fun _ => .idle) t'' .idle = fun _ : τ => (.idle : Status ο ρ) := by
        apply update_eq_self
      rw [update_idem, hidle] at hrest
      rw [List.singleton_append, List.cons.injEq, Event.ret.injEq] at hes
      rcases hes with ⟨⟨-, rfl⟩, rfl⟩
      exact ⟨rfl, acts, hrest⟩

theorem results_of_run {calls : List (τ × ο × ρ)}
    (h : O.atomic.run (q, fun _ => .idle) acts = some (s, sequential calls))
    : calls.map (·.2.2) = O.results q (calls.map (·.2.1)) := by
  induction calls generalizing q acts with
  | nil => rfl
  | cons c calls ih =>
    have hcons : sequential (c :: calls)
        = .call c.1 c.2.1 :: .ret c.1 c.2.2 :: sequential calls := rfl
    rw [hcons] at h
    rcases run_of_idle h with ⟨acts₁, h₁⟩
    rcases run_of_called h₁ with ⟨acts₂, h₂⟩
    rcases run_of_done h₂ with ⟨hres, acts₃, h₃⟩
    rw [List.map_cons, List.map_cons, ih h₃, hres]
    rfl

theorem Linearizable.results {calls : List (τ × ο × ρ)} (h : O.Linearizable (sequential calls))
    : calls.map (·.2.2) = O.results O.init (calls.map (·.2.1)) := by
  rcases h with ⟨acts, s, hreach⟩
  exact results_of_run hreach

end Object
end Lts
