import Mathlib.Logic.Function.Basic

/-!
This module contains systems with a partial step function, their runs, and the two induction
rules the rest of the development uses: one for invariants and one for simulations.
-/

universe u v w x

namespace Lts

/--
A transition system whose steps emit lists of observable events. `step s i = none` means that
`i` is not enabled in `s`.
-/
structure System (σ : Type u) (ι : Type v) (ε : Type x) where
  init : σ
  step : σ → ι → Option (σ × List ε)

namespace System

variable {σ : Type u} {ι : Type v} {ε : Type x} (S : System σ ι ε)

def run (s : σ) : List ι → Option (σ × List ε)
  | [] => some (s, [])
  | i :: is =>
    match S.step s i with
    | none => none
    | some (s', es) =>
      match run s' is with
      | none => none
      | some (s'', es') => some (s'', es ++ es')

def Reaches (is : List ι) (s : σ) (es : List ε) : Prop :=
  S.run S.init is = some (s, es)

@[simp]
theorem run_nil (s : σ) : S.run s [] = some (s, []) := rfl

theorem run_cons_eq_some {s s'' : σ} {i : ι} {is : List ι} {es'' : List ε}
    : S.run s (i :: is) = some (s'', es'')
        ↔
      ∃ s' es es', S.step s i = some (s', es) ∧ S.run s' is = some (s'', es') ∧ es'' = es ++ es' := by
  constructor
  . intro h
    simp only [run] at h
    split at h
    . contradiction
    . next s' es hstep =>
      split at h
      . contradiction
      . next t es' hrun =>
        simp only [Option.some.injEq, Prod.mk.injEq] at h
        exact ⟨s', es, es', hstep, by rw [hrun, h.1], h.2.symm⟩
  . rintro ⟨s', es, es', hstep, hrun, rfl⟩
    simp [run, hstep, hrun]

theorem run_one {s s' : σ} {i : ι} {es : List ε} (h : S.step s i = some (s', es))
    : S.run s [i] = some (s', es) := by
  rw [run_cons_eq_some]
  exact ⟨s', es, [], h, rfl, (List.append_nil es).symm⟩

theorem run_append {s s' s'' : σ} {is js : List ι} {es es' : List ε}
    (h : S.run s is = some (s', es)) (h' : S.run s' js = some (s'', es'))
    : S.run s (is ++ js) = some (s'', es ++ es') := by
  induction is generalizing s es with
  | nil =>
    simp only [run_nil, Option.some.injEq, Prod.mk.injEq] at h
    rcases h with ⟨rfl, rfl⟩
    simpa using h'
  | cons i is ih =>
    rw [run_cons_eq_some] at h
    rcases h with ⟨t, es1, es2, hstep, hrun, rfl⟩
    rw [List.cons_append, run_cons_eq_some]
    exact ⟨t, es1, es2 ++ es', hstep, ih hrun, by simp⟩

theorem run_append_eq_some {s s'' : σ} {is js : List ι} {es'' : List ε}
    (h : S.run s (is ++ js) = some (s'', es''))
    : ∃ s' es es', S.run s is = some (s', es) ∧ S.run s' js = some (s'', es') ∧ es'' = es ++ es' := by
  induction is generalizing s es'' with
  | nil => exact ⟨s, [], es'', rfl, h, rfl⟩
  | cons i is ih =>
    rw [List.cons_append, run_cons_eq_some] at h
    rcases h with ⟨t, es1, es2, hstep, hrun, rfl⟩
    rcases ih hrun with ⟨s', es, es', his, hjs, rfl⟩
    refine ⟨s', es1 ++ es, es', ?_, hjs, by simp⟩
    rw [run_cons_eq_some]
    exact ⟨t, es1, es, hstep, his, rfl⟩

/--
Where a step emits at most one event, a run can be cut between any two of its events.
-/
theorem run_split (hone : ∀ s i s' es, S.step s i = some (s', es) → es.length ≤ 1) {s s' : σ}
    {is : List ι} {es es' : List ε} (h : S.run s is = some (s', es ++ es'))
    : ∃ js ks m, is = js ++ ks ∧ S.run s js = some (m, es) ∧ S.run m ks = some (s', es') := by
  induction is generalizing s es with
  | nil =>
    simp only [run_nil, Option.some.injEq, Prod.mk.injEq, List.nil_eq, List.append_eq_nil_iff] at h
    rcases h with ⟨rfl, rfl, rfl⟩
    exact ⟨[], [], s, rfl, rfl, rfl⟩
  | cons i is ih =>
    cases es with
    | nil => exact ⟨[], i :: is, s, rfl, rfl, h⟩
    | cons e es =>
      rw [run_cons_eq_some] at h
      rcases h with ⟨t, first, rest, hstep, hrun, heq⟩
      -- the first event is the one of the first step, if that has one
      have hsplit : ∃ es₀, e :: es = first ++ es₀ ∧ rest = es₀ ++ es' := by
        have hlength := hone s i t first hstep
        cases first with
        | nil => exact ⟨e :: es, rfl, heq.symm⟩
        | cons e' first =>
          have hfirst : first = [] :=
            List.length_eq_zero_iff.mp (Nat.le_zero.mp (Nat.le_of_lt_succ hlength))
          subst hfirst
          rw [List.cons_append, List.singleton_append, List.cons.injEq] at heq
          exact ⟨es, by rw [heq.1]; rfl, heq.2.symm⟩
      rcases hsplit with ⟨es₀, hes, rfl⟩
      rcases ih hrun with ⟨js, ks, m, rfl, hjs, hks⟩
      refine ⟨i :: js, ks, m, rfl, ?_, hks⟩
      rw [hes, run_cons_eq_some]
      exact ⟨t, first, es₀, hstep, hjs, rfl⟩

theorem reaches_get (is : List ι) (h : (S.run S.init is).isSome)
    : S.Reaches is ((S.run S.init is).get h).1 ((S.run S.init is).get h).2 :=
  (Option.some_get h).symm

def Meets (C : σ → ι → Prop) (s : σ) : List ι → Prop
  | [] => True
  | i :: is =>
    C s i
      ∧
    match S.step s i with
    | none => True
    | some (s', _) => Meets C s' is

/--
What an observer notes down along a run that sees, unlike the events, the state before every step and
the input that causes it.
-/
def trace {δ : Type w} (note : σ → ι → List δ) (s : σ) : List ι → List δ
  | [] => []
  | i :: is =>
    match S.step s i with
    | none => []
    | some (s', _) => note s i ++ trace note s' is

/--
What such an observer knows after a run who keeps more than a list, starting from `obs`.
-/
def observe {ω : Type w} (watch : ω → σ → ι → ω) (obs : ω) (s : σ) : List ι → ω
  | [] => obs
  | i :: is =>
    match S.step s i with
    | none => obs
    | some (s', _) => observe watch (watch obs s i) s' is

instance Meets.decidable (C : σ → ι → Prop) [∀ s i, Decidable (C s i)] (s : σ)
    : ∀ is, Decidable (S.Meets C s is)
  | [] => isTrue trivial
  | i :: is =>
    match h : S.step s i with
    | none => decidable_of_iff (C s i) (by simp [Meets, h])
    | some (s', _) =>
      have := Meets.decidable C s' is
      decidable_of_iff (C s i ∧ S.Meets C s' is) (by simp [Meets, h])

variable {S}

theorem run_inv_of_meets {C : σ → ι → Prop} {I : σ → List ε → Prop}
    (hstep : ∀ s past i s' es, I s past → C s i → S.step s i = some (s', es) → I s' (past ++ es))
    {s s' : σ} {past es : List ε} {is : List ι} (hmeets : S.Meets C s is) (hI : I s past)
    (hrun : S.run s is = some (s', es)) : I s' (past ++ es) := by
  induction is generalizing s past es with
  | nil =>
    simp only [run_nil, Option.some.injEq, Prod.mk.injEq] at hrun
    rcases hrun with ⟨rfl, rfl⟩
    simpa using hI
  | cons i is ih =>
    rw [run_cons_eq_some] at hrun
    rcases hrun with ⟨t, es1, es2, hfirst, hrest, rfl⟩
    simp only [Meets, hfirst] at hmeets
    have := ih hmeets.2 (hstep s past i t es1 hI hmeets.1 hfirst) hrest
    simpa using this

theorem meets_true (s : σ) (is : List ι) : S.Meets (fun _ _ => True) s is := by
  induction is generalizing s with
  | nil => trivial
  | cons i is ih =>
    refine ⟨trivial, ?_⟩
    split
    . trivial
    . next s' _ _ => exact ih s'

theorem meets_of_forall {C : σ → ι → Prop} {is : List ι} (h : ∀ s, ∀ i ∈ is, C s i) (s : σ)
    : S.Meets C s is := by
  induction is generalizing s with
  | nil => trivial
  | cons i is ih =>
    refine ⟨h s i List.mem_cons_self, ?_⟩
    split
    . trivial
    . next s' _ _ => exact ih (fun s j hj => h s j (List.mem_cons_of_mem _ hj)) s'

theorem run_inv {I : σ → List ε → Prop}
    (hstep : ∀ s past i s' es, I s past → S.step s i = some (s', es) → I s' (past ++ es))
    {s s' : σ} {past es : List ε} {is : List ι} (hI : I s past)
    (hrun : S.run s is = some (s', es)) : I s' (past ++ es) := by
  refine run_inv_of_meets ?_ (meets_true s is) hI hrun
  intro s past i s' es hI _ h
  exact hstep s past i s' es hI h

theorem reaches_inv (I : σ → List ε → Prop)
    (hstep : ∀ s past i s' es, I s past → S.step s i = some (s', es) → I s' (past ++ es))
    (hinit : I S.init []) {s : σ} {es : List ε} {is : List ι} (h : S.Reaches is s es) : I s es := by
  have := run_inv hstep hinit h
  simpa using this

theorem reaches_inv_of_meets {C : σ → ι → Prop} (I : σ → List ε → Prop)
    (hstep : ∀ s past i s' es, I s past → C s i → S.step s i = some (s', es) → I s' (past ++ es))
    (hinit : I S.init []) {s : σ} {es : List ε} {is : List ι} (hmeets : S.Meets C S.init is)
    (h : S.Reaches is s es) : I s es := by
  have := run_inv_of_meets hstep hmeets hinit h
  simpa using this

theorem run_inv_from {C : σ → ι → Prop} (I : σ → List ε → Prop)
    (hstep : ∀ s past i s' es, I s past → C s i → S.step s i = some (s', es) → I s' (past ++ es))
    {s s' : σ} {es : List ε} {is : List ι} (hmeets : S.Meets C s is) (hI : I s [])
    (hrun : S.run s is = some (s', es)) : I s' es := by
  have := run_inv_of_meets hstep hmeets hI hrun
  simpa using this

theorem run_inv_trace {δ : Type w} {note : σ → ι → List δ} {I : σ → List δ → List ε → Prop}
    (hstep : ∀ s ds past i s' es, I s ds past → S.step s i = some (s', es) →
      I s' (ds ++ note s i) (past ++ es))
    {s s' : σ} {ds : List δ} {past es : List ε} {is : List ι} (hI : I s ds past)
    (hrun : S.run s is = some (s', es)) : I s' (ds ++ S.trace note s is) (past ++ es) := by
  induction is generalizing s ds past es with
  | nil =>
    simp only [run_nil, Option.some.injEq, Prod.mk.injEq] at hrun
    rcases hrun with ⟨rfl, rfl⟩
    simpa [trace] using hI
  | cons i is ih =>
    rw [run_cons_eq_some] at hrun
    rcases hrun with ⟨t, es1, es2, hfirst, hrest, rfl⟩
    have := ih (hstep s ds past i t es1 hI hfirst) hrest
    simpa [trace, hfirst] using this

theorem reaches_inv_trace {δ : Type w} (note : σ → ι → List δ) (I : σ → List δ → List ε → Prop)
    (hstep : ∀ s ds past i s' es, I s ds past → S.step s i = some (s', es) →
      I s' (ds ++ note s i) (past ++ es))
    (hinit : I S.init [] []) {s : σ} {es : List ε} {is : List ι} (h : S.Reaches is s es)
    : I s (S.trace note S.init is) es := by
  have := run_inv_trace hstep hinit h
  simpa using this

theorem run_inv_observe {ω : Type w} {watch : ω → σ → ι → ω} {I : σ → ω → List ε → Prop}
    (hstep : ∀ s obs past i s' es, I s obs past → S.step s i = some (s', es) →
      I s' (watch obs s i) (past ++ es))
    {s s' : σ} {obs : ω} {past es : List ε} {is : List ι} (hI : I s obs past)
    (hrun : S.run s is = some (s', es)) : I s' (S.observe watch obs s is) (past ++ es) := by
  induction is generalizing s obs past es with
  | nil =>
    simp only [run_nil, Option.some.injEq, Prod.mk.injEq] at hrun
    rcases hrun with ⟨rfl, rfl⟩
    simpa [observe] using hI
  | cons i is ih =>
    rw [run_cons_eq_some] at hrun
    rcases hrun with ⟨t, es1, es2, hfirst, hrest, rfl⟩
    have := ih (hstep s obs past i t es1 hI hfirst) hrest
    simpa [observe, hfirst] using this

theorem reaches_inv_observe {ω : Type w} (watch : ω → σ → ι → ω) (obs : ω)
    (I : σ → ω → List ε → Prop)
    (hstep : ∀ s obs past i s' es, I s obs past → S.step s i = some (s', es) →
      I s' (watch obs s i) (past ++ es))
    (hinit : I S.init obs []) {s : σ} {es : List ε} {is : List ι} (h : S.Reaches is s es)
    : I s (S.observe watch obs S.init is) es := by
  have := run_inv_observe hstep hinit h
  simpa using this

theorem run_inv_inputs {I : List ι → σ → List ε → Prop}
    (hstep : ∀ js s past i s' es, I js s past → S.step s i = some (s', es) →
      I (js ++ [i]) s' (past ++ es))
    {s s' : σ} {js : List ι} {past es : List ε} {is : List ι} (hI : I js s past)
    (hrun : S.run s is = some (s', es)) : I (js ++ is) s' (past ++ es) := by
  induction is generalizing s js past es with
  | nil =>
    simp only [run_nil, Option.some.injEq, Prod.mk.injEq] at hrun
    rcases hrun with ⟨rfl, rfl⟩
    simpa using hI
  | cons i is ih =>
    rw [run_cons_eq_some] at hrun
    rcases hrun with ⟨t, es1, es2, hfirst, hrest, rfl⟩
    have := ih (hstep js s past i t es1 hI hfirst) hrest
    simpa using this

/--
An invariant that may speak of the inputs so far.
-/
theorem reaches_inv_inputs (I : List ι → σ → List ε → Prop)
    (hstep : ∀ js s past i s' es, I js s past → S.step s i = some (s', es) →
      I (js ++ [i]) s' (past ++ es))
    (hinit : I [] S.init []) {s : σ} {es : List ε} {is : List ι} (h : S.Reaches is s es)
    : I is s es := by
  have := run_inv_inputs hstep hinit h
  simpa using this

/--
A run cut at one of its steps.
-/
theorem reaches_split {is js : List ι} {i : ι} {s s' : σ} {es es' : List ε}
    (h : S.Reaches (is ++ i :: js) s' es') (hpast : S.Reaches is s es)
    : ∃ t es₁ es₂,
        S.step s i = some (t, es₁) ∧ S.run t js = some (s', es₂) ∧ es' = es ++ es₁ ++ es₂ := by
  rcases S.run_append_eq_some h with ⟨s₁, past, rest, hbefore, hrest, rfl⟩
  rw [Reaches, hbefore, Option.some.injEq, Prod.mk.injEq] at hpast
  rcases hpast with ⟨rfl, rfl⟩
  rw [run_cons_eq_some] at hrest
  rcases hrest with ⟨t, es₁, es₂, hstep, hrun, rfl⟩
  exact ⟨t, es₁, es₂, hstep, hrun, (List.append_assoc _ _ _).symm⟩

theorem trace_append {δ : Type w} (note : σ → ι → List δ) {s s' : σ} {es : List ε} {is js : List ι}
    (h : S.run s is = some (s', es))
    : S.trace note s (is ++ js) = S.trace note s is ++ S.trace note s' js := by
  induction is generalizing s es with
  | nil =>
    simp only [run_nil, Option.some.injEq, Prod.mk.injEq] at h
    rcases h with ⟨rfl, rfl⟩
    rfl
  | cons i is ih =>
    rw [run_cons_eq_some] at h
    rcases h with ⟨t, es1, es2, hfirst, hrest, rfl⟩
    simp only [List.cons_append, trace, hfirst]
    rw [ih hrest, List.append_assoc]

end System

/--
A forward simulation: every step of `A` is matched by a run of `B` that emits the same events.
-/
structure Simulation {σ : Type u} {ι : Type v} {σ' : Type u} {ι' : Type v} {ε : Type x}
    (A : System σ ι ε) (B : System σ' ι' ε) (R : σ → σ' → Prop) : Prop where
  init : R A.init B.init
  step : ∀ s t i s' es, R s t → A.step s i = some (s', es)
    → ∃ js t', B.run t js = some (t', es) ∧ R s' t'

namespace Simulation

variable {σ : Type u} {ι : Type v} {σ' : Type u} {ι' : Type v} {ε : Type x}
variable {A : System σ ι ε} {B : System σ' ι' ε} {R : σ → σ' → Prop}

theorem run_of_related (sim : Simulation A B R) {s s' : σ} {t : σ'} {es : List ε} {is : List ι}
    (hR : R s t) (hrun : A.run s is = some (s', es))
    : ∃ js t', B.run t js = some (t', es) ∧ R s' t' := by
  induction is generalizing s t es with
  | nil =>
    simp only [System.run_nil, Option.some.injEq, Prod.mk.injEq] at hrun
    rcases hrun with ⟨rfl, rfl⟩
    exact ⟨[], t, rfl, hR⟩
  | cons i is ih =>
    rw [System.run_cons_eq_some] at hrun
    rcases hrun with ⟨u, es1, es2, hstep, hrest, rfl⟩
    rcases sim.step s t i u es1 hR hstep with ⟨js, t', hjs, hR'⟩
    rcases ih hR' hrest with ⟨ks, t'', hks, hR''⟩
    exact ⟨js ++ ks, t'', B.run_append hjs hks, hR''⟩

theorem trace (sim : Simulation A B R) {s : σ} {es : List ε} {is : List ι}
    (h : A.Reaches is s es) : ∃ js t, B.Reaches js t es ∧ R s t :=
  sim.run_of_related sim.init h

end Simulation

theorem update_eq_cases {τ : Type u} {π : Type v} [DecidableEq τ] {pool : τ → π} {t t' : τ}
    {pc pc' : π} (h : Function.update pool t pc t' = pc')
    : t' = t ∧ pc = pc' ∨ t' ≠ t ∧ pool t' = pc' := by
  by_cases ht : t' = t
  . subst ht
    rw [Function.update_self] at h
    exact .inl ⟨rfl, h⟩
  . rw [Function.update_of_ne ht] at h
    exact .inr ⟨ht, h⟩

def AtMostOne {τ : Type u} {π : Type v} (P : π → Prop) (pool : τ → π) : Prop :=
  ∀ t t', P (pool t) → P (pool t') → t = t'

namespace AtMostOne

variable {τ : Type u} {π : Type v} [DecidableEq τ] {P : π → Prop} {pool : τ → π} {t : τ} {pc : π}

theorem of_none (h : ∀ t', ¬ P (pool t')) : AtMostOne P (Function.update pool t pc) := by
  intro t' t'' h' h''
  by_cases ht' : t' = t
  . by_cases ht'' : t'' = t
    . rw [ht', ht'']
    . rw [Function.update_of_ne ht''] at h''
      exact absurd h'' (h t'')
  . rw [Function.update_of_ne ht'] at h'
    exact absurd h' (h t')

theorem update (h : AtMostOne P pool) (hpc : ¬ P pc) : AtMostOne P (Function.update pool t pc) := by
  intro t' t'' h' h''
  by_cases ht' : t' = t
  . rw [ht', Function.update_self] at h'
    exact absurd h' hpc
  . by_cases ht'' : t'' = t
    . rw [ht'', Function.update_self] at h''
      exact absurd h'' hpc
    . rw [Function.update_of_ne ht'] at h'
      rw [Function.update_of_ne ht''] at h''
      exact h t' t'' h' h''

omit [DecidableEq τ] in
theorem not_of_ne (h : AtMostOne P pool) (ht : P (pool t)) : ∀ t', t' ≠ t → ¬ P (pool t') := by
  intro t' hne ht'
  exact hne (h t' t ht' ht)

end AtMostOne
end Lts
