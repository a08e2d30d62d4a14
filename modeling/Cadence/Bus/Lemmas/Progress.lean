import Cadence.Bus.Lemmas.Isolation
import Cadence.Lts.Countdown

/-!
This module contains why the bus never blocks: an offer that holds the lock needs a bounded number of
steps of its own, whatever the receivers do, and everybody else waits for that one at most.
-/

open Lts Function

namespace Bus

/--
The steps of the thread `t` while it holds the lock for an offer.
-/
def Act.holds {τ : Type} [DecidableEq τ] (t : τ) : Act τ → Bool
  | .trySend t' => t' = t
  | .unlock t' => t' = t
  | _ => false

/--
The steps of the thread `t` in an offer that has read the clock.
-/
def Act.offers {τ : Type} [DecidableEq τ] (t : τ) : Act τ → Bool
  | .lock t' _ => t' = t
  | a => a.holds t

theorem Act.offers_of_holds {τ : Type} [DecidableEq τ] {t : τ} {a : Act τ} (h : a.holds t = true)
    : a.offers t = true := by
  cases a with
  | lock t' values => contradiction
  | _ => exact h

def Output.ends {τ : Type} (t : τ) (e : Output τ) : Prop :=
  ∃ result, e = .offered t result

variable {capacity : Nat} {τ : Type}

namespace State

/--
The thread holds the lock and has `n` subscriptions still to visit.
-/
def Visits (t : τ) (s : State capacity τ) (n : Nat) : Prop :=
  ∃ msg pending sent dropped, s.pc t = .sending msg pending sent dropped ∧ pending.length = n

def Finished (t : τ) (s : State capacity τ) : Prop :=
  s.pc t = .idle ∧ s.lock = none

theorem Visits.congr {t : τ} {s s' : State capacity τ} {n : Nat} (h : s.Visits t n)
    (hpc : s'.pc t = s.pc t) : s'.Visits t n := by
  unfold Visits
  rw [hpc]
  exact h

end State

variable [DecidableEq τ] {s s' : State capacity τ} {es es' : List (Output τ)}

namespace State

theorem Visits.enabled {t : τ} {n : Nat} (h : s.Visits t n)
    : ∃ a : Act τ, a.holds t = true ∧ (s.step a).isSome := by
  rcases h with ⟨msg, pending, sent, dropped, hpc, -⟩
  cases pending with
  | nil =>
    refine ⟨.unlock t, decide_eq_true rfl, ?_⟩
    simp [step, hpc]
  | cons sub pending =>
    refine ⟨.trySend t, decide_eq_true rfl, ?_⟩
    simp only [step, hpc]
    split
    . rfl
    . rfl

theorem Visits.of_setPc {t : τ} {n : Nat} {msg : Message} {pending : List Sub} {sent dropped : Nat}
    (hlength : pending.length = n)
    : (s.setPc t (.sending msg pending sent dropped)).Visits t n := by
  refine ⟨msg, pending, sent, dropped, ?_, hlength⟩
  rw [setPc_pc, update_self]

theorem Visits.of_visit {t : τ} {n : Nat} {msg : Message} {sub : Sub} {pending : List Sub}
    {sent dropped : Nat} (hlength : pending.length = n)
    : (s.visit t msg sub pending sent dropped).Visits t n := by
  rcases s.visit_pc t msg sub pending sent dropped with ⟨sent', dropped', hpc⟩
  refine ⟨msg, pending, sent', dropped', ?_, hlength⟩
  rw [hpc, update_self]

end State

/--
Only the thread itself takes it on in an offer.
-/
theorem Step.pc_of_not_offers {a : Act τ} {t : τ} (h : Step s a s' es) (hpc : s.pc t ≠ .idle)
    (ha : a.offers t = false) : s'.pc t = s.pc t := by
  have hne {t' : τ} {pc : OfferPc} (ht : t' ≠ t) : update s.pc t' pc t = s.pc t :=
    update_of_ne ht.symm pc s.pc
  cases h with
  | subscribe hlock => rfl
  | unsubscribe hlock => rfl
  | offer hidle => exact hne fun ht => hpc (ht ▸ hidle)
  | lock hpc' hlock hvalues => exact hne (of_decide_eq_false ha)
  | @visit t' msg sub pending sent dropped hpc' hmatch =>
    rcases s.visit_pc t' msg sub pending sent dropped with ⟨sent', dropped', hvisit⟩
    rw [hvisit]
    exact hne (of_decide_eq_false ha)
  | skip hpc' hmatch => exact hne (of_decide_eq_false ha)
  | unlock hpc' => exact hne (of_decide_eq_false ha)
  | recv hqueue hcreated hconnected => rfl
  | dropReceiver hcreated hconnected => rfl

theorem Step.visits_of_holds {a : Act τ} {t : τ} {n : Nat} (h : Step s a s' es)
    (hvisits : s.Visits t n) (ha : a.holds t = true)
    : (∃ m < n, s'.Visits t m) ∨ s'.Finished t ∧ ∃ e ∈ es, e.ends t := by
  rcases hvisits with ⟨msg', pending', sent', dropped', hpc', rfl⟩
  cases h with
  | subscribe hlock => contradiction
  | unsubscribe hlock => contradiction
  | offer hidle => contradiction
  | lock hpc hlock hvalues => contradiction
  | @visit t' msg sub pending sent dropped hpc hmatch =>
    have ht : t' = t := of_decide_eq_true ha
    subst ht
    rw [hpc, OfferPc.sending.injEq] at hpc'
    refine .inl ⟨pending.length, ?_, .of_visit rfl⟩
    rw [← hpc'.2.1, List.length_cons]
    omega
  | @skip t' msg sub pending sent dropped hpc hmatch =>
    have ht : t' = t := of_decide_eq_true ha
    subst ht
    rw [hpc, OfferPc.sending.injEq] at hpc'
    refine .inl ⟨pending.length, ?_, .of_setPc rfl⟩
    rw [← hpc'.2.1, List.length_cons]
    omega
  | @unlock t' msg sent dropped hpc =>
    have ht : t' = t := of_decide_eq_true ha
    subst ht
    refine .inr ⟨⟨?_, rfl⟩, .offered t' ⟨sent, dropped⟩, List.mem_singleton_self _, _, rfl⟩
    rw [State.setPc_pc, update_self]
  | recv hqueue hcreated hconnected => contradiction
  | dropReceiver hcreated hconnected => contradiction

theorem countdown (t : τ)
    : Countdown (bus capacity τ) (Act.holds t) (State.Visits t) (State.Finished t)
        (Output.ends t) where
  enabled := fun s n h => h.enabled
  other := by
    intro s n a s' es h ha hstep
    rcases h with ⟨msg, pending, sent, dropped, hpc, hlength⟩
    have hstep := Step.of_step hstep
    refine State.Visits.congr ⟨msg, pending, sent, dropped, hpc, hlength⟩ ?_
    apply hstep.pc_of_not_offers
    . rw [hpc]
      simp
    . cases a with
      | lock t' values =>
        -- the thread would have to wait for the lock
        cases hstep with
        | lock hpc' hlock hvalues =>
          apply decide_eq_false
          rintro rfl
          rw [hpc] at hpc'
          contradiction
      | _ => exact ha
  own := fun s n a s' es h ha hstep => (Step.of_step hstep).visits_of_holds h ha

/--
Whoever has the lock is visiting subscriptions.
-/
def Held (s : State capacity τ) : Prop :=
  ∀ t, s.lock = some t → ∃ n, s.Visits t n

theorem Held.step {a : Act τ} (held : Held s) (inv : Inv s es) (hstep : s.step a = some (s', es'))
    : Held s' := by
  intro t hlock
  cases Step.of_step hstep with
  | subscribe hfree => exact held t hlock
  | unsubscribe hfree => exact held t hlock
  | @offer t' arg now hidle =>
    rcases held t hlock with ⟨n, msg, pending, sent, dropped, hpc, hlength⟩
    refine ⟨n, .congr ⟨msg, pending, sent, dropped, hpc, hlength⟩ ?_⟩
    apply update_of_ne
    rintro rfl
    rw [hidle] at hpc
    contradiction
  | @lock t' values arg now hpc hfree hvalues =>
    have ht : t' = t := Option.some.inj hlock
    subst ht
    exact ⟨values.length, .of_setPc rfl⟩
  | @visit t' msg sub pending sent dropped hpc hmatch =>
    rw [State.visit_lock, (inv.sending t' _ _ _ _ hpc).1] at hlock
    have ht : t' = t := Option.some.inj hlock
    subst ht
    exact ⟨pending.length, .of_visit rfl⟩
  | @skip t' msg sub pending sent dropped hpc hmatch =>
    rw [State.setPc_lock, (inv.sending t' _ _ _ _ hpc).1] at hlock
    have ht : t' = t := Option.some.inj hlock
    subst ht
    exact ⟨pending.length, .of_setPc rfl⟩
  | unlock hpc => contradiction
  | recv hqueue hcreated hconnected => exact held t hlock
  | dropReceiver hcreated hconnected => exact held t hlock

theorem bus_held {acts : List (Act τ)} (hreach : (bus capacity τ).Reaches acts s es)
    : Inv s es ∧ Pending s ∧ Held s := by
  refine System.reaches_inv (fun s es => Inv s es ∧ Pending s ∧ Held s) ?_
    ⟨Inv.init, fun t msg pending sent dropped h => by contradiction, fun t h => by contradiction⟩ hreach
  rintro s past a s' es ⟨inv, pending, held⟩ hstep
  exact ⟨inv.step hstep, pending.step inv hstep, held.step inv hstep⟩

/--
An offer never has more subscriptions to visit than are registered.
-/
theorem Inv.visits_le (inv : Inv s es) (pending : Pending s) {t : τ} {n : Nat} (h : s.Visits t n)
    : n ≤ s.subs.values.length := by
  rcases h with ⟨msg, rest, sent, dropped, hpc, rfl⟩
  rcases inv.sending t msg rest sent dropped hpc with ⟨-, o, -, -, progress⟩
  apply List.Subperm.length_le
  apply List.subperm_of_subset
  . exact List.Nodup.of_map _ progress.nodup
  . exact pending t msg rest sent dropped hpc

theorem run_of_holds {t : τ} {acts : List (Act τ)} (hacts : ∀ a ∈ acts, a.holds t = true)
    (hrun : (bus capacity τ).run s acts = some (s', es))
    : s'.subs = s.subs ∧ ∀ t', t' ≠ t → s'.pc t' = s.pc t' := by
  refine System.run_inv_from (C := fun _ a => a.holds t = true)
    (fun s' _ => s'.subs = s.subs ∧ ∀ t', t' ≠ t → s'.pc t' = s.pc t') ?_
    (System.meets_of_forall (fun _ => hacts) s) ⟨rfl, fun _ _ => rfl⟩ hrun
  rintro u past a u' es' ⟨hsubs, hpc⟩ ha hstep
  cases Step.of_step hstep with
  | subscribe hlock => contradiction
  | unsubscribe hlock => contradiction
  | offer hidle => contradiction
  | lock hpc' hlock hvalues => contradiction
  | @visit t' msg sub pending sent dropped hpc' hmatch =>
    have ht : t' = t := of_decide_eq_true ha
    subst ht
    rcases u.visit_pc t' msg sub pending sent dropped with ⟨sent', dropped', hvisit⟩
    rw [State.visit_subs, hvisit]
    exact ⟨hsubs, fun t'' ht'' => (update_of_ne ht'' _ _).trans (hpc t'' ht'')⟩
  | @skip t' msg sub pending sent dropped hpc' hmatch =>
    have ht : t' = t := of_decide_eq_true ha
    subst ht
    exact ⟨hsubs, fun t'' ht'' => (update_of_ne ht'' _ _).trans (hpc t'' ht'')⟩
  | @unlock t' msg sent dropped hpc' =>
    have ht : t' = t := of_decide_eq_true ha
    subst ht
    exact ⟨hsubs, fun t'' ht'' => (update_of_ne ht'' _ _).trans (hpc t'' ht'')⟩
  | recv hqueue hcreated hconnected => contradiction
  | dropReceiver hcreated hconnected => contradiction

/--
An offer that holds the lock is wait-free: whatever the other threads and the receivers do, it can
always take its next step, and after at most as many `try_send`s as there are subscriptions it only
has to give the lock back.
-/
theorem bus_offer_waitFree {acts acts' : List (Act τ)} (hreach : (bus capacity τ).Reaches acts s es)
    {t : τ} (hlock : s.lock = some t) (hrun : (bus capacity τ).run s acts' = some (s', es'))
    : (∃ result, .offered t result ∈ es')
        ∨
      acts'.countP (Act.holds t) ≤ s.subs.values.length
        ∧
      s'.lock = some t ∧ ∃ a : Act τ, a.holds t = true ∧ (s'.step a).isSome := by
  rcases bus_held hreach with ⟨inv, pending, held⟩
  rcases held t hlock with ⟨n, hvisits⟩
  have hle := inv.visits_le pending hvisits
  have hreach' := System.run_append (S := bus capacity τ) hreach hrun
  rcases (countdown t).run hvisits hrun with ⟨e, he, result, rfl⟩ | ⟨m, hm, hcount⟩
  . exact .inl ⟨result, he⟩
  . refine .inr ⟨by omega, ?_, hm.enabled⟩
    rcases hm with ⟨msg, rest, sent, dropped, hpc, -⟩
    exact ((bus_held hreach').1.sending t msg rest sent dropped hpc).1

/--
The receiver of the only subscription goes away, and another thread starts an offer, while the first
one holds the lock.
-/
def interrupted : List (Act Bool) :=
  [.subscribe "a", .offer false (.new "a" [1]) 5, .lock false [⟨.exact "a", 0⟩]]

theorem bus_offer_waitFree_interrupted
    : ∃ s es s' es',
        (bus 1 Bool).Reaches interrupted s es
          ∧
        (bus 1 Bool).run s [.offer true (.new "a" [2]) 6, .dropReceiver 0, .trySend false]
            = some (s', es')
          ∧
        ((∃ result, .offered false result ∈ es')
            ∨
          [Act.offer true (.new "a" [2]) 6, .dropReceiver 0, .trySend false].countP (Act.holds false)
              ≤ s.subs.values.length
            ∧
          s'.lock = some false ∧ ∃ a : Act Bool, a.holds false = true ∧ (s'.step a).isSome) := by
  have hreach := (bus 1 Bool).reaches_get interrupted (by decide +kernel)
  have hsome : ((bus 1 Bool).run
      (((bus 1 Bool).run (bus 1 Bool).init interrupted).get (by decide +kernel)).1
      [.offer true (.new "a" [2]) 6, .dropReceiver 0, .trySend false]).isSome := by decide +kernel
  have hrun := (Option.some_get hsome).symm
  exact ⟨_, _, _, _, hreach, hrun, bus_offer_waitFree hreach (by decide +kernel) hrun⟩

theorem State.run_lock {t : τ} {arg : Message} {now : UInt64} (hpc : s.pc t = .lock arg now)
    (hfree : s.lock = none)
    : ∃ s',
        (bus capacity τ).run s [.lock t s.subs.values] = some (s', []) ∧ s'.subs = s.subs
          ∧ s'.Visits t s.subs.values.length := by
  refine ⟨{ s with
      lock := some t
      current := some ⟨t, arg, now, s.subs.values.map Sub.tx, []⟩ }.setPc t
    (.sending (stamp arg now) s.subs.values 0 0), ?_, rfl, .of_setPc rfl⟩
  apply System.run_one
  simp [bus, step, hpc, hfree]

/--
A thread that finds the lock free finishes its offer alone.
-/
theorem Inv.finish_of_free (inv : Inv s es) {t : τ} (hpc : s.pc t ≠ .idle) (hfree : s.lock = none)
    : ∃ acts s' es',
        (bus capacity τ).run s acts = some (s', es') ∧ acts.length ≤ s.subs.values.length + 2
          ∧ (∀ a ∈ acts, a.offers t = true) ∧ s'.Finished t ∧ ∃ e ∈ es', e.ends t := by
  cases h : s.pc t with
  | idle => exact absurd h hpc
  | lock arg now =>
    rcases s.run_lock h hfree with ⟨u, hlock, hsubs, hvisits⟩
    rcases (countdown t).finish hvisits with ⟨acts, s', es', hrun, hlength, hacts, hfinished, hend⟩
    refine ⟨.lock t s.subs.values :: acts, s', es', ?_, ?_, ?_, hfinished, hend⟩
    . exact System.run_append _ hlock hrun
    . rw [List.length_cons]
      omega
    . rw [List.forall_mem_cons]
      exact ⟨decide_eq_true rfl, fun a ha => Act.offers_of_holds (hacts a ha)⟩
  | sending msg pending sent dropped => exact absurd h (inv.not_sending hfree)

/--
The bus has no deadlock and depends on no receiver: from every reachable state an offer that has been
started can be finished by steps of its own thread and of the one that has the lock, at most two for
each subscription and three more, and leaves the lock free.
-/
theorem bus_progress {acts : List (Act τ)} (hreach : (bus capacity τ).Reaches acts s es) {t : τ}
    (hpc : s.pc t ≠ .idle)
    : ∃ acts' s' es',
        (bus capacity τ).run s acts' = some (s', es')
          ∧ acts'.length ≤ 2 * s.subs.values.length + 3
          ∧ (∀ a ∈ acts', a.offers t = true ∨ ∃ t', s.lock = some t' ∧ a.holds t' = true)
          ∧ s'.pc t = .idle ∧ s'.lock = none ∧ ∃ result, .offered t result ∈ es' := by
  rcases bus_held hreach with ⟨inv, pending, held⟩
  cases hlock : s.lock with
  | none =>
    rcases inv.finish_of_free hpc hlock with
      ⟨acts', s', es', hrun, hlength, hacts, ⟨hidle, hfree⟩, e, he, result, rfl⟩
    exact ⟨acts', s', es', hrun, by omega, fun a ha => .inl (hacts a ha), hidle, hfree, result, he⟩
  | some t' =>
    rcases held t' hlock with ⟨n, hvisits⟩
    have hle := inv.visits_le pending hvisits
    rcases (countdown t').finish hvisits with
      ⟨acts₁, u, es₁, hrun₁, hlength₁, hacts₁, ⟨hidle₁, hfree₁⟩, e₁, he₁, hend₁⟩
    have hholds : ∀ a ∈ acts₁, a.offers t = true ∨ ∃ t'', some t' = some t'' ∧ a.holds t'' = true :=
      fun a ha => .inr ⟨t', rfl, hacts₁ a ha⟩
    by_cases ht : t = t'
    . subst ht
      rcases hend₁ with ⟨result, rfl⟩
      exact ⟨acts₁, u, es₁, hrun₁, by omega, hholds, hidle₁, hfree₁, result, he₁⟩
    . rcases run_of_holds hacts₁ hrun₁ with ⟨hsubs, hpcs⟩
      have inv' := (bus_held (System.run_append (S := bus capacity τ) hreach hrun₁)).1
      rw [← hpcs t ht] at hpc
      rcases inv'.finish_of_free hpc hfree₁ with
        ⟨acts₂, s', es₂, hrun₂, hlength₂, hacts₂, ⟨hidle, hfree⟩, e, he, result, rfl⟩
      rw [hsubs] at hlength₂
      refine ⟨acts₁ ++ acts₂, s', es₁ ++ es₂, ?_, ?_, ?_, hidle, hfree, result, ?_⟩
      . exact System.run_append _ hrun₁ hrun₂
      . rw [List.length_append]
        omega
      . intro a ha
        rcases List.mem_append.mp ha with ha | ha
        . exact hholds a ha
        . exact .inl (hacts₂ a ha)
      . exact List.mem_append_right _ he

theorem bus_progress_interrupted
    : ∃ s es,
        (bus 1 Bool).Reaches (interrupted ++ [.offer true (.new "a" [2]) 6]) s es
          ∧
        ∃ acts' s' es',
          (bus 1 Bool).run s acts' = some (s', es')
            ∧ acts'.length ≤ 2 * s.subs.values.length + 3
            ∧ (∀ a ∈ acts', a.offers true = true ∨ ∃ t', s.lock = some t' ∧ a.holds t' = true)
            ∧ s'.pc true = .idle ∧ s'.lock = none ∧ ∃ result, .offered true result ∈ es' := by
  have hreach := (bus 1 Bool).reaches_get (interrupted ++ [.offer true (.new "a" [2]) 6])
    (by decide +kernel)
  exact ⟨_, _, hreach, bus_progress hreach (by decide +kernel)⟩

end Bus
