import Cadence.Bus.Lemmas.Delivery

/-!
This module contains the stream of a subscription, that is everything that has ever been put into its
queue: only a `try_send` that finds room adds to it.
-/

open Lts Function

namespace Bus

variable {capacity : Nat} {τ : Type}

namespace State

def stream (s : State capacity τ) (i : Nat) : List Message :=
  (s.subscriptions i).received ++ (s.subscriptions i).chan.queue ++ (s.subscriptions i).discarded

def put (s : State capacity τ) (t : τ) : Option (Nat × Message) :=
  match s.pc t with
  | .sending msg (sub :: _) _ _ =>
    if sub.filter.matchesTopic msg.topicStr
        && (s.subscriptions sub.tx).chan.found.any (· < capacity) then
      some (sub.tx, msg)
    else
      none
  | _ => none

def puts (s : State capacity τ) : Act τ → Option (Nat × Message)
  | .trySend t => s.put t
  | _ => none

def appended (s : State capacity τ) (a : Act τ) (i : Nat) : List Message :=
  ((s.puts a).filter (·.1 = i)).toList.map Prod.snd

theorem put_visit {s : State capacity τ} {t : τ} {msg : Message} {sub : Sub} {pending : List Sub}
    {sent dropped : Nat} (hpc : s.pc t = .sending msg (sub :: pending) sent dropped)
    (hmatch : sub.filter.matchesTopic msg.topicStr = true)
    : s.put t
        =
      if (s.subscriptions sub.tx).chan.found.any (· < capacity) then some (sub.tx, msg) else none := by
  unfold put
  simp [hpc, hmatch]

theorem put_skip {s : State capacity τ} {t : τ} {msg : Message} {sub : Sub} {pending : List Sub}
    {sent dropped : Nat} (hpc : s.pc t = .sending msg (sub :: pending) sent dropped)
    (hmatch : sub.filter.matchesTopic msg.topicStr = false) : s.put t = none := by
  unfold put
  simp [hpc, hmatch]

theorem puts_trySend (s : State capacity τ) (t : τ) : s.puts (.trySend t) = s.put t := rfl

theorem appended_of_none {s : State capacity τ} {a : Act τ} (h : s.puts a = none) (i : Nat)
    : s.appended a i = [] := by
  unfold appended
  rw [h]
  rfl

theorem stream_setSubscription {s : State capacity τ} {i : Nat}
    {subscription : Subscription capacity}
    (h : subscription.received ++ subscription.chan.queue ++ subscription.discarded = s.stream i)
    (j : Nat) : (s.setSubscription i subscription).stream j = s.stream j := by
  unfold stream at h ⊢
  by_cases hj : j = i
  . subst hj
    simpa using h
  . simp [hj]

end State

variable [DecidableEq τ]

theorem Inv.stream_of_created_le {s : State capacity τ} {es : List (Output τ)} (inv : Inv s es)
    {i : Nat} (h : s.created ≤ i) : s.stream i = [] := by
  refine (inv.stream i).trans (delivered_of_notMem ?_)
  intro o ho hmem
  have := inv.registered o ho i hmem
  omega

theorem State.stream_visit {s : State capacity τ} {es : List (Output τ)} (inv : Inv s es) {t : τ}
    {msg : Message} {sub : Sub} {pending : List Sub} {sent dropped : Nat}
    (hpc : s.pc t = .sending msg (sub :: pending) sent dropped)
    (hmatch : sub.filter.matchesTopic msg.topicStr = true) (i : Nat)
    : (s.visit t msg sub pending sent dropped).stream i
        =
      s.stream i ++ s.appended (.trySend t) i := by
  unfold stream appended
  rw [visit_subscriptions, puts_trySend, put_visit hpc hmatch]
  by_cases hi : i = sub.tx
  . subst hi
    rw [update_self, Channel.trySend_queue]
    cases hfound : (s.subscriptions sub.tx).chan.found.any (· < capacity) with
    | false => simp
    | true =>
      -- the queue is the end of the stream while the receiver is alive
      have hconnected := (s.subscriptions sub.tx).chan.connected_of_found hfound
      simp [inv.connected sub.tx hconnected, Option.filter]
  . rw [update_of_ne hi]
    split
    . simp [Option.filter, Ne.symm hi]
    . simp

theorem Step.created {s s' : State capacity τ} {a : Act τ} {es : List (Output τ)}
    (h : Step s a s' es)
    : s'.created = s.created ∨ s'.created = s.created + 1 ∧ s.puts a = none := by
  cases h with
  | subscribe => exact .inr ⟨rfl, rfl⟩
  | visit =>
    rw [State.visit_created]
    exact .inl rfl
  | _ => exact .inl rfl

theorem Step.created_le {s s' : State capacity τ} {a : Act τ} {es : List (Output τ)}
    (h : Step s a s' es) : s.created ≤ s'.created := by
  rcases h.created with hcreated | ⟨hcreated, -⟩
  . exact hcreated.ge
  . rw [hcreated]
    exact Nat.le_succ _

theorem State.stream_step {s s' : State capacity τ} {es es' : List (Output τ)} {a : Act τ}
    (inv : Inv s es) (hstep : s.step a = some (s', es')) (i : Nat)
    : s'.stream i = s.stream i ++ s.appended a i := by
  cases Step.of_step hstep with
  | subscribe hlock =>
    rw [appended_of_none rfl, List.append_nil]
    apply stream_setSubscription
    exact (inv.stream_of_created_le (Nat.le_refl _)).symm
  | unsubscribe hlock =>
    rw [appended_of_none rfl, List.append_nil]
    rfl
  | offer hpc =>
    rw [appended_of_none rfl, List.append_nil]
    rfl
  | lock hpc hlock hvalues =>
    rw [appended_of_none rfl, List.append_nil]
    rfl
  | visit hpc hmatch => exact stream_visit inv hpc hmatch i
  | skip hpc hmatch =>
    rw [appended_of_none ((puts_trySend _ _).trans (put_skip hpc hmatch)), List.append_nil]
    rfl
  | unlock hpc =>
    rw [appended_of_none rfl, List.append_nil]
    rfl
  | recv hqueue hcreated hconnected =>
    rw [appended_of_none rfl, List.append_nil]
    apply stream_setSubscription
    unfold stream
    simp [Channel.pop, hqueue]
  | dropReceiver hcreated hconnected =>
    rw [appended_of_none rfl, List.append_nil]
    apply stream_setSubscription
    unfold stream
    simp [Channel.disconnect, inv.connected _ hconnected]

end Bus
