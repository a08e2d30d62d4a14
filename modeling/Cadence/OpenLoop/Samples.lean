import Cadence.OpenLoop.Basic

/-!
This module contains what a measurement records, for every link whose items arrive in the order of
their sends: no sample is taken before its item has departed, and no item departs before it is due.
-/

open Lts

namespace OpenLoop

variable {σ ι ε α τ : Type}

/--
`I` is an invariant of the link, and `begun` counts the sends that have begun. Items may get lost.
-/
structure Link.Lawful (link : Link σ ι ε α) (due : Nat → τ) (key : α → τ) (begun : σ → Nat)
    (I : σ → List ε → Prop) : Prop where
  init : I link.system.init []
  step : ∀ {s past a s' es}, I s past → link.system.step s a = some (s', es) → I s' (past ++ es)
  one : ∀ {s a s' es}, link.system.step s a = some (s', es) → es.length ≤ 1
  sent : ∀ {s a s' es}, link.system.step s a = some (s', es) → link.role a ≠ .sender →
    es.countP link.sent = 0 ∧ begun s' = begun s
  received : ∀ {s a s' es}, link.system.step s a = some (s', es) → link.role a ≠ .receiver →
    es.filterMap link.received? = []
  begun_init : begun link.system.init = 0
  begun_le : ∀ {s es}, I s es → begun s ≤ es.countP link.sent + 1
  begun_of_sent : ∀ {s past a s' es}, I s past → link.system.step s a = some (s', es) →
    es.any link.sent = true → begun s' ≤ (past ++ es).countP link.sent
  order : ∀ {s es}, I s es →
    ((es.filterMap link.received?).map key).Sublist ((List.range (begun s)).map due)

variable [LE τ] {link : Link σ ι ε α} {plan : Plan α τ} {begun : σ → Nat}
variable {I : σ → List ε → Prop} {now : τ} {s s' : State σ α τ} {o : Onlooker α τ} {past es : List ε}

theorem toList_findSome? {f : ε → Option α} {es : List ε} (h : es.length ≤ 1)
    : (es.findSome? f).toList = es.filterMap f := by
  cases es with
  | nil => rfl
  | cons e es =>
    have hes : es = [] := List.length_eq_zero_iff.mp (Nat.le_zero.mp (Nat.le_of_succ_le_succ h))
    subst hes
    cases he : f e with
    | none => simp [he]
    | some item => simp [he]

theorem countP_eq_one {p : ε → Bool} {es : List ε} (h : es.length ≤ 1) (hany : es.any p = true)
    : es.countP p = 1 := by
  apply Nat.le_antisymm (Nat.le_trans List.countP_le_length h)
  rw [Nat.one_le_iff_ne_zero, ← Nat.pos_iff_ne_zero, List.countP_pos_iff]
  exact List.any_eq_true.mp hany

/--
The generator never sends early, and an item is measured after its send has begun.
-/
structure Inv (link : Link σ ι ε α) (plan : Plan α τ) (begun : σ → Nat) (I : σ → List ε → Prop)
    (s : State σ α τ) (o : Onlooker α τ) (es : List ε) : Prop where
  base : I s.base es
  sends : s.i = es.countP link.sent
  ready : s.pace = .sending → plan.due s.i ≤ s.clock
  departed : o.departures.length = s.i ∨ s.pace = .sending ∧ o.departures.length = s.i + 1
  begun : begun s.base ≤ o.departures.length
  due : ∀ k t, o.departures[k]? = some t → plan.due k ≤ t
  departures : ∀ t ∈ o.departures, t ≤ s.clock
  arrived : o.arrivals.map Prod.fst ++ s.held.toList = es.filterMap link.received?
  received : s.received = o.arrivals.length
  hist : s.hist = (o.arrivals.drop plan.warmup).map fun (item, now) =>
    (plan.sample now (plan.key item), plan.interval)
  late : ∀ (item : α) (now : τ), (item, now) ∈ o.arrivals →
    ∃ k t, o.departures[k]? = some t ∧ plan.key item = plan.due k ∧ t ≤ now
  kth : ∀ (k : Nat) (item : α) (now : τ), o.arrivals[k]? = some (item, now) →
    ∃ t, o.departures[k]? = some t ∧ t ≤ now

namespace Inv

theorem init (law : link.Lawful plan.due plan.key begun I) (now : τ)
    : Inv link plan begun I (State.init link now) ⟨[], []⟩ [] where
  base := law.init
  sends := rfl
  ready := fun h => by contradiction
  departed := .inl rfl
  begun := by rw [State.init, law.begun_init]; exact Nat.le_refl _
  due := fun k t h => by contradiction
  departures := fun t h => absurd h List.not_mem_nil
  arrived := rfl
  received := rfl
  hist := by simp [State.init]
  late := fun item now h => absurd h List.not_mem_nil
  kth := fun k item now h => by contradiction

theorem departure_of_lt (inv : Inv link plan begun I s o past) {k : Nat} (h : k < begun s.base)
    : ∃ t, o.departures[k]? = some t ∧ t ≤ s.clock := by
  have hk : k < o.departures.length := Nat.lt_of_lt_of_le h inv.begun
  refine ⟨o.departures[k], List.getElem?_eq_getElem hk, ?_⟩
  apply inv.departures
  exact List.getElem_mem hk

theorem length_hist (inv : Inv link plan begun I s o past)
    : s.hist.length = s.received - plan.warmup := by
  rw [inv.hist, List.length_map, List.length_drop, inv.received]

theorem sample (inv : Inv link plan begun I s o past) {k : Nat} {sample : τ × τ}
    (h : s.hist[k]? = some sample)
    : ∃ item now, o.arrivals[plan.warmup + k]? = some (item, now)
        ∧
      sample = (plan.sample now (plan.key item), plan.interval) := by
  rw [inv.hist, List.getElem?_map, List.getElem?_drop, Option.map_eq_some_iff] at h
  rcases h with ⟨⟨item, now⟩, harrival, rfl⟩
  exact ⟨item, now, harrival, rfl⟩

/--
The sender makes a step, and the onlooker notes the first one of every send.
-/
theorem depart (inv : Inv link plan begun I s o past) {a : ι} (hsending : s.pace = .sending)
    (hrole : link.role a = .sender) [Std.IsLinearPreorder τ]
    : Inv link plan begun I s (o.watch link s (.base a)) past
        ∧
      (o.watch link s (.base a)).departures.length = s.i + 1 := by
  have hdeparted := inv.departed
  unfold Onlooker.watch
  dsimp only
  split
  . next hfirst =>
    have hlength : o.departures.length = s.i := by omega
    have hkeep : ∀ {k : Nat} {t : τ}, o.departures[k]? = some t →
        (o.departures ++ [s.clock])[k]? = some t := by
      intro k t hk
      rw [List.getElem?_append_left (List.getElem?_eq_some_iff.mp hk).1]
      exact hk
    refine ⟨?_, by simp [hlength]⟩
    exact {
      inv with
      departed := .inr ⟨hsending, by simp [hlength]⟩
      begun := by
        rw [List.length_append]
        exact Nat.le_add_right_of_le inv.begun
      due := by
        intro k t hk
        rw [List.getElem?_append] at hk
        split at hk
        . exact inv.due k t hk
        . rw [List.getElem?_singleton, Option.ite_none_right_eq_some] at hk
          rcases hk with ⟨hzero, ht⟩
          cases ht
          rw [show k = s.i by omega]
          exact inv.ready hsending
      departures := by
        intro t ht
        rcases List.mem_append.mp ht with h | h
        . exact inv.departures t h
        . exact Std.le_of_eq (List.mem_singleton.mp h)
      late := by
        intro item now h
        rcases inv.late item now h with ⟨k, t, hk, hkey, hle⟩
        exact ⟨k, t, hkeep hk, hkey, hle⟩
      kth := by
        intro k item now h
        rcases inv.kth k item now h with ⟨t, hk, hle⟩
        exact ⟨t, hkeep hk, hle⟩
    }
  . next hfirst =>
    rw [not_and, Nat.not_le] at hfirst
    have hlength := hfirst hrole
    exact ⟨inv, by omega⟩

omit [LE τ] in
theorem watch_of_ne {a : ι} (hrole : link.role a ≠ .sender) : o.watch link s (.base a) = o := by
  unfold Onlooker.watch
  exact if_neg fun h => hrole h.1

/--
A step of the link, when the onlooker has noted the send that it belongs to.
-/
theorem advance (law : link.Lawful plan.due plan.key begun I) (inv : Inv link plan begun I s o past)
    {a : ι} {base : σ} (henabled : s.enabled (link.role a) = true)
    (hstep : link.system.step s.base a = some (base, es))
    (hnoted : link.role a = .sender → o.departures.length = s.i + 1)
    : Inv link plan begun I (s.advance link base es) o (past ++ es) := by
  have hone := law.one hstep
  have hbase := law.step inv.base hstep
  have hsent : es.any link.sent = true →
      s.pace = .sending ∧ es.countP link.sent = 1 ∧ o.departures.length = s.i + 1 := by
    intro hany
    have hcount := countP_eq_one hone hany
    have hrole : link.role a = .sender := by
      by_contra hrole
      rw [(law.sent hstep hrole).1] at hcount
      contradiction
    rw [hrole] at henabled
    exact ⟨of_decide_eq_true henabled, hcount, hnoted hrole⟩
  have hcount : ¬ es.any link.sent = true → es.countP link.sent = 0 := by
    intro hany
    rw [List.countP_eq_zero]
    intro e he hsent
    exact hany (List.any_eq_true.mpr ⟨e, he, hsent⟩)
  exact {
    inv with
    base := hbase
    sends := by
      rw [List.countP_append, ← inv.sends]
      rfl
    ready := by
      by_cases hany : es.any link.sent = true
      . have hpacing : (s.advance link base es).pace = .pacing := if_pos hany
        rw [hpacing]
        intro h
        contradiction
      . have hkeep : (s.advance link base es).pace = s.pace := if_neg hany
        have hi : (s.advance link base es).i = s.i := by
          change s.i + es.countP link.sent = s.i
          rw [hcount hany]
          rfl
        rw [hkeep, hi]
        exact inv.ready
    departed := by
      change o.departures.length = s.i + es.countP link.sent
        ∨ (s.advance link base es).pace = .sending
          ∧ o.departures.length = s.i + es.countP link.sent + 1
      by_cases hany : es.any link.sent = true
      . rcases hsent hany with ⟨-, hcount, hlength⟩
        rw [hcount]
        exact .inl hlength
      . have hkeep : (s.advance link base es).pace = s.pace := if_neg hany
        rw [hkeep, hcount hany]
        exact inv.departed
    begun := by
      change begun base ≤ o.departures.length
      by_cases hrole : link.role a = .sender
      . rw [hnoted hrole, inv.sends]
        by_cases hany : es.any link.sent = true
        . have hbegun := law.begun_of_sent inv.base hstep hany
          rwa [List.countP_append, (hsent hany).2.1] at hbegun
        . have hbegun := law.begun_le hbase
          rwa [List.countP_append, hcount hany] at hbegun
      . rw [(law.sent hstep hrole).2]
        exact inv.begun
    arrived := by
      have harrived := inv.arrived
      rw [List.filterMap_append, ← harrived]
      simp only [State.advance]
      by_cases hrole : link.role a = .receiver
      . rw [hrole] at henabled
        have hheld : s.held = none := Option.isNone_iff_eq_none.mp henabled
        rw [hheld, Option.or_none, toList_findSome? hone]
        simp
      . rw [← toList_findSome? hone]
        have hnone : es.findSome? link.received? = none := by
          have := law.received hstep hrole
          rw [← toList_findSome? hone, Option.toList_eq_nil_iff] at this
          exact this
        simp [hnone]
  }

theorem measure (law : link.Lawful plan.due plan.key begun I) (inv : Inv link plan begun I s o past)
    {item : α} (hheld : s.held = some item)
    : Inv link plan begun I (s.record plan item) (o.watch link s .measure) past := by
  have harrived := inv.arrived
  rw [hheld, Option.toList_some] at harrived
  have horder := law.order inv.base
  have hown : ∃ k t, o.departures[k]? = some t ∧ plan.key item = plan.due k ∧ t ≤ s.clock := by
    have hmem : plan.key item ∈ (List.range (begun s.base)).map plan.due := by
      apply horder.subset
      rw [← harrived]
      simp
    rw [List.mem_map] at hmem
    rcases hmem with ⟨k, hk, hkey⟩
    rcases inv.departure_of_lt (List.mem_range.mp hk) with ⟨t, ht, hle⟩
    exact ⟨k, t, ht, hkey.symm, hle⟩
  have hkth : ∃ t, o.departures[o.arrivals.length]? = some t ∧ t ≤ s.clock := by
    apply inv.departure_of_lt
    have hlength := horder.length_le
    rw [← harrived] at hlength
    apply Nat.lt_of_succ_le
    simpa using hlength
  have hwatch : o.watch link s .measure = { o with arrivals := o.arrivals ++ [(item, s.clock)] } := by
    unfold Onlooker.watch
    rw [hheld]
    rfl
  rw [hwatch]
  exact {
    inv with
    arrived := by
      rw [← harrived]
      simp [State.record]
    received := by
      simp [State.record, inv.received]
    hist := by
      have hhist := inv.hist
      simp only [State.record]
      split
      . next hwarm =>
        rw [inv.received] at hwarm
        rw [List.drop_append_of_le_length hwarm, List.map_append, ← hhist]
        rfl
      . next hwarm =>
        rw [inv.received] at hwarm
        rw [hhist, List.drop_eq_nil_of_le (by omega), List.drop_eq_nil_of_le (by simp; omega)]
    late := by
      intro item' now h
      rcases List.mem_append.mp h with h | h
      . exact inv.late item' now h
      . rw [List.mem_singleton, Prod.mk.injEq] at h
        rcases h with ⟨rfl, rfl⟩
        exact hown
    kth := by
      intro k item' now h
      rw [List.getElem?_append] at h
      split at h
      . exact inv.kth k item' now h
      . rw [List.getElem?_singleton, Option.ite_none_right_eq_some] at h
        rcases h with ⟨hzero, hitem⟩
        cases hitem
        rw [show k = o.arrivals.length by omega]
        exact hkth
  }

variable [Std.IsLinearPreorder τ]

theorem tick (inv : Inv link plan begun I s o past) {now : τ} (hclock : s.clock ≤ now)
    : Inv link plan begun I { s with clock := now } o past where
  __ := inv
  ready := fun h => Std.le_trans (inv.ready h) hclock
  departures := fun t h => Std.le_trans (inv.departures t h) hclock

variable [LT τ] [DecidableLE τ] [DecidableLT τ] [DecidableEq τ] [Std.LawfulOrderLT τ]

theorem step (law : link.Lawful plan.due plan.key begun I) (inv : Inv link plan begun I s o past)
    {a : Act ι τ} (hstep : s.step link plan a = some (s', es))
    : Inv link plan begun I s' (o.watch link s a) (past ++ es) := by
  have hdeparted := inv.departed
  cases Step.of_step hstep with
  | tick hclock =>
    rw [List.append_nil]
    exact inv.tick hclock
  | start hpace hclock =>
    rw [List.append_nil]
    rw [hpace] at hdeparted
    exact {
      inv with
      ready := fun h => by contradiction
      departed := .inl (hdeparted.resolve_right (by simp))
    }
  | early hpace hclock =>
    rw [List.append_nil]
    exact inv
  | depart hpace hmore hclock =>
    rw [List.append_nil]
    rw [hpace] at hdeparted
    exact {
      inv with
      ready := fun _ => hclock
      departed := .inl (hdeparted.resolve_right (by simp))
    }
  | measure hheld =>
    rw [List.append_nil]
    exact inv.measure law hheld
  | @base a base es henabled hbase =>
    by_cases hrole : link.role a = .sender
    . have hsending : s.pace = .sending := by
        rw [hrole] at henabled
        exact of_decide_eq_true henabled
      rcases inv.depart hsending hrole with ⟨inv', hlength⟩
      exact inv'.advance law henabled hbase fun _ => hlength
    . rw [watch_of_ne hrole]
      exact inv.advance law henabled hbase fun h => absurd h hrole

end Inv

variable [LT τ] [DecidableLE τ] [DecidableLT τ] [DecidableEq τ]
variable [Std.IsLinearPreorder τ] [Std.LawfulOrderLT τ]

theorem measurement_inv (law : link.Lawful plan.due plan.key begun I)
    {acts : List (Act ι τ)} {s : State σ α τ} {es : List ε}
    (hreach : (measurement link plan now).Reaches acts s es)
    : Inv link plan begun I s (onlooker link plan now acts) es := by
  apply System.reaches_inv_observe (Onlooker.watch link) ⟨[], []⟩ (Inv link plan begun I) _
    (Inv.init law now) hreach
  intro s o past a s' es inv hstep
  exact inv.step law hstep

/--
A receiver that has ended has measured what it has received.
-/
theorem held_of_ended {ended : σ → Bool}
    (hone : ∀ {s a s' es}, link.system.step s a = some (s', es) → es.length ≤ 1)
    (hreceived : ∀ {s a s' es}, link.system.step s a = some (s', es) →
      es.filterMap link.received? ≠ [] → ended s' = false)
    (hother : ∀ {s a s' es}, link.system.step s a = some (s', es) → link.role a ≠ .receiver →
      ended s' = ended s)
    {acts : List (Act ι τ)} {s : State σ α τ} {es : List ε}
    (hreach : (measurement link plan now).Reaches acts s es) (hended : ended s.base = true)
    : s.held = none := by
  refine System.reaches_inv (fun (s : State σ α τ) _ => ended s.base = true → s.held = none) ?_
    (fun _ => rfl) hreach hended
  intro s past a s' es ih hstep
  cases Step.of_step hstep with
  | tick hclock => exact ih
  | start hpace hclock => exact ih
  | early hpace hclock => exact ih
  | depart hpace hmore hclock => exact ih
  | measure hheld => exact fun _ => rfl
  | @base a base es henabled hbase =>
    intro (hended : ended base = true)
    have hnone : es.findSome? link.received? = none := by
      rw [← Option.toList_eq_nil_iff, toList_findSome? (hone hbase)]
      by_contra hne
      rw [hreceived hbase hne] at hended
      contradiction
    have hheld : s.held = none := by
      by_cases hrole : link.role a = .receiver
      . rw [hrole] at henabled
        exact Option.isNone_iff_eq_none.mp henabled
      . rw [hother hbase hrole] at hended
        exact ih hended
    change (es.findSome? link.received?).or s.held = none
    rw [hnone, hheld]
    rfl

/--
A condition on the steps of the link alone.
-/
def OnBase (C : σ → ι → Prop) (s : State σ α τ) : Act ι τ → Prop
  | .base b => C s.base b
  | _ => True

instance (C : σ → ι → Prop) [∀ s b, Decidable (C s b)] (s : State σ α τ)
    : DecidablePred (OnBase C s : Act ι τ → Prop)
  | .base b => inferInstanceAs (Decidable (C s.base b))
  | .tick _ | .read | .measure => isTrue trivial

/--
The measurement only watches: its base makes a run of the link, under the same condition.
-/
theorem run_base {C : σ → ι → Prop} {acts : List (Act ι τ)}
    (hrun : (System.run (measurement link plan now) s acts) = some (s', es))
    (hmeets : (measurement link plan now).Meets (OnBase C) s acts)
    : ∃ acts', link.system.run s.base acts' = some (s'.base, es)
        ∧
      link.system.Meets C s.base acts' := by
  induction acts generalizing s es with
  | nil =>
    simp only [System.run_nil, Option.some.injEq, Prod.mk.injEq] at hrun
    rcases hrun with ⟨rfl, rfl⟩
    exact ⟨[], rfl, trivial⟩
  | cons a acts ih =>
    rw [System.run_cons_eq_some] at hrun
    rcases hrun with ⟨m, es1, es2, hfirst, hrest, rfl⟩
    simp only [System.Meets, hfirst] at hmeets
    rcases ih hrest hmeets.2 with ⟨acts', hrun', hmeets'⟩
    cases Step.of_step hfirst with
    | tick | start | early | depart | measure => exact ⟨acts', hrun', hmeets'⟩
    | @base b base es1 henabled hstep =>
      refine ⟨b :: acts', ?_, hmeets.1, ?_⟩
      . rw [System.run_cons_eq_some]
        exact ⟨base, es1, es2, hstep, hrun', rfl⟩
      . rw [hstep]
        exact hmeets'

end OpenLoop
