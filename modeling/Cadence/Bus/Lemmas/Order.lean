import Cadence.Bus.Lemmas.Stream

/-!
This module contains the order of messages: all subscriptions agree on it, and no subscription sees
the messages of one producer in another order than that of its calls.
-/

open Lts Function

namespace Bus

section Sublist

variable {α : Type} {a b : α} {l : List α}

theorem pair_sublist_or (ha : a ∈ l) (hb : b ∈ l) (hne : a ≠ b)
    : [a, b].Sublist l ∨ [b, a].Sublist l := by
  induction l with
  | nil => contradiction
  | cons c l ih =>
    rcases List.mem_cons.mp ha with rfl | ha'
    . have hb' := (List.mem_cons.mp hb).resolve_left hne.symm
      exact .inl ((List.singleton_sublist.mpr hb').cons_cons a)
    . rcases List.mem_cons.mp hb with rfl | hb'
      . exact .inr ((List.singleton_sublist.mpr ha').cons_cons b)
      . rcases ih ha' hb' with h | h
        . exact .inl (h.cons c)
        . exact .inr (h.cons c)

theorem not_pair_sublist_swap (hnodup : l.Nodup) (h : [a, b].Sublist l) : ¬ [b, a].Sublist l := by
  intro h'
  induction l with
  | nil => simp at h
  | cons c l ih =>
    have hc := List.nodup_cons.mp hnodup
    rcases List.cons_sublist_cons'.mp h with hl | ⟨rfl, hb⟩
    . rcases List.cons_sublist_cons'.mp h' with hl' | ⟨rfl, -⟩
      . exact ih hc.2 hl hl'
      . exact hc.1 (hl.mem (by simp))
    . rcases List.cons_sublist_cons'.mp h' with hl' | ⟨rfl, ha⟩
      . exact hc.1 (hl'.mem (by simp))
      . exact hc.1 (List.singleton_sublist.mp ha)

theorem pair_sublist_of_common {common l' : List α} (hnodup : common.Nodup)
    (hl : l.Sublist common) (hl' : l'.Sublist common) (h : [a, b].Sublist l) (ha : a ∈ l')
    (hb : b ∈ l') : [a, b].Sublist l' := by
  have hne : a ≠ b := by
    have := (h.trans hl).nodup hnodup
    simpa using this
  rcases pair_sublist_or ha hb hne with hab | hba
  . exact hab
  . exact absurd (hba.trans hl') (not_pair_sublist_swap hnodup (h.trans hl))

end Sublist

variable {capacity : Nat} {τ : Type} [DecidableEq τ]

/--
The offers of `log`, each as its caller and the number of earlier offers of that caller.
-/
def numbers (earlier : List (Offer τ)) : List (Offer τ) → List (τ × Nat)
  | [] => []
  | o :: log =>
    (o.caller, (earlier.filter (·.caller = o.caller)).length) :: numbers (earlier ++ [o]) log

theorem numbers_append (earlier log log' : List (Offer τ))
    : numbers earlier (log ++ log') = numbers earlier log ++ numbers (earlier ++ log) log' := by
  induction log generalizing earlier with
  | nil => simp [numbers]
  | cons o log ih => simp [numbers, ih]

theorem lt_of_mem_numbers {earlier log : List (Offer τ)} {call : τ × Nat}
    (h : call ∈ numbers earlier log)
    : (earlier.filter (·.caller = call.1)).length ≤ call.2 := by
  induction log generalizing earlier with
  | nil => contradiction
  | cons o log ih =>
    rcases List.mem_cons.mp h with rfl | h
    . exact Nat.le_refl _
    . have := ih h
      rw [List.filter_append, List.length_append] at this
      omega

theorem numbers_pairwise (earlier log : List (Offer τ))
    : (numbers earlier log).Pairwise fun call call' => call.1 = call'.1 → call.2 < call'.2 := by
  induction log generalizing earlier with
  | nil => exact .nil
  | cons o log ih =>
    refine .cons ?_ (ih _)
    intro call hcall heq
    have := lt_of_mem_numbers hcall
    rw [List.filter_append, ← heq] at this
    simp at this
    omega

theorem numbers_nodup (earlier log : List (Offer τ)) : (numbers earlier log).Nodup := by
  apply (numbers_pairwise earlier log).imp
  rintro call call' h rfl
  exact Nat.lt_irrefl _ (h rfl)

namespace State

def call (s : State capacity τ) (t : τ) : τ × Nat :=
  (t, (s.offers.filter (·.caller = t)).length)

/--
What an observer of the queues notes down: the queue that a message is put into, and the call of
`offer` that does so.
-/
def delivery (s : State capacity τ) : Act τ → List (Nat × (τ × Nat))
  | .trySend t => (s.put t).toList.map fun p => (p.1, s.call t)
  | _ => []

end State

def deliveries (capacity : Nat) (acts : List (Act τ)) : List (Nat × (τ × Nat)) :=
  (bus capacity τ).trace State.delivery (.init capacity τ) acts

def deliveredTo (i : Nat) (ds : List (Nat × (τ × Nat))) : List (τ × Nat) :=
  (ds.filter (·.1 = i)).map Prod.snd

def message (es : List (Output τ)) (call : τ × Nat) : Option Message :=
  (offeredBy call.1 es)[call.2]?.map fun offered => stamp offered.1 offered.2

omit [DecidableEq τ] in
theorem deliveredTo_append (i : Nat) (ds ds' : List (Nat × (τ × Nat)))
    : deliveredTo i (ds ++ ds') = deliveredTo i ds ++ deliveredTo i ds' := by
  unfold deliveredTo
  rw [List.filter_append, List.map_append]

theorem message_append {es : List (Output τ)} {call : τ × Nat} {msg : Message}
    (h : message es call = some msg) (es' : List (Output τ))
    : message (es ++ es') call = some msg := by
  unfold message at h ⊢
  rw [Option.map_eq_some_iff] at h ⊢
  rcases h with ⟨offered, hget, hmsg⟩
  refine ⟨offered, ?_, hmsg⟩
  rw [offeredBy_append]
  exact List.getElem?_append_left (List.getElem?_eq_some_iff.mp hget).1 |>.trans hget

/--
The deliveries to every subscription follow the order in which the offers take the lock, and a
subscription that the current offer still has to visit has none of it.
-/
structure Ordered (s : State capacity τ) (ds : List (Nat × (τ × Nat))) (es : List (Output τ))
    : Prop where
  stream : ∀ i, (deliveredTo i ds).map (message es) = (s.stream i).map some
  sublist : ∀ i, (deliveredTo i ds).Sublist (numbers [] s.log)
  pending : ∀ t msg pending sent dropped, s.pc t = .sending msg pending sent dropped →
    ∀ sub ∈ pending, (deliveredTo sub.tx ds).Sublist (numbers [] s.offers)

theorem Ordered.init : Ordered (State.init capacity τ) [] [] where
  stream := fun _ => rfl
  sublist := fun _ => .slnil
  pending := fun _ _ _ _ _ h => by contradiction

/--
The message of the current offer is the one its caller has passed last.
-/
theorem Inv.message_call {s : State capacity τ} {es : List (Output τ)} (inv : Inv s es) {t : τ}
    {msg : Message} {pending : List Sub} {sent dropped : Nat}
    (hpc : s.pc t = .sending msg pending sent dropped) : message es (s.call t) = some msg := by
  rcases inv.progress hpc with ⟨o, -, hlog, hcaller, prog⟩
  have hcalls := inv.calls t
  rw [hlog, hpc, List.filter_append, List.filter_cons, if_pos (by simp [hcaller]),
    List.filter_nil, List.map_append] at hcalls
  unfold message State.call
  rw [hcalls, prog.msg_eq]
  simp [OfferPc.waiting, Offer.msg]

theorem State.delivery_trySend (s : State capacity τ) (t : τ)
    : s.delivery (.trySend t) = (s.put t).toList.map fun p => (p.1, s.call t) := rfl

theorem State.deliveredTo_delivery (s : State capacity τ) (a : Act τ) (i : Nat)
    : (∃ t, a = .trySend t ∧ deliveredTo i (s.delivery a) = (s.appended a i).map fun _ => s.call t)
        ∨
      s.delivery a = [] ∧ s.puts a = none := by
  cases a with
  | trySend t =>
    refine .inl ⟨t, rfl, ?_⟩
    unfold appended deliveredTo
    rw [puts_trySend, delivery_trySend]
    cases s.put t with
    | none => rfl
    | some p => by_cases h : p.1 = i <;> simp [Option.filter, h]
  | _ => exact .inr ⟨rfl, rfl⟩

namespace Ordered

variable {s s' : State capacity τ} {ds : List (Nat × (τ × Nat))} {es es' : List (Output τ)}

theorem stream_step {a : Act τ} (ordered : Ordered s ds es) (inv : Inv s es)
    (hstep : s.step a = some (s', es')) (i : Nat)
    : (deliveredTo i (ds ++ s.delivery a)).map (message (es ++ es')) = (s'.stream i).map some := by
  have hold : (deliveredTo i ds).map (message (es ++ es')) = (s.stream i).map some := by
    rw [← ordered.stream i]
    apply List.map_congr_left
    intro call hcall
    have hmem : message es call ∈ (s.stream i).map some := by
      rw [← ordered.stream i]
      exact List.mem_map_of_mem hcall
    rcases List.mem_map.mp hmem with ⟨msg, -, hmsg⟩
    rw [← hmsg]
    apply message_append hmsg.symm
  rw [State.stream_step inv hstep i, deliveredTo_append, List.map_append, List.map_append, hold]
  congr 1
  rcases s.deliveredTo_delivery a i with ⟨t, rfl, hdelivery⟩ | ⟨hdelivery, hputs⟩
  . rw [hdelivery, List.map_map]
    apply List.map_congr_left
    intro msg hmsg
    -- what is appended is the message of the offer that holds the lock
    unfold State.appended at hmsg
    rw [State.puts_trySend] at hmsg
    unfold State.put at hmsg
    split at hmsg
    . next msg' sub pending sent dropped hpc =>
      have hcall := message_append (inv.message_call hpc) es'
      split at hmsg
      . rcases List.mem_map.mp hmsg with ⟨p, hp, rfl⟩
        rw [Option.mem_toList, Option.filter_eq_some_iff, Option.some.injEq] at hp
        rw [← hp.1]
        exact hcall
      . contradiction
    . contradiction
  . rw [hdelivery, State.appended_of_none hputs]
    rfl

theorem of_unchanged {a : Act τ} (ordered : Ordered s ds es) (inv : Inv s es)
    (hstep : s.step a = some (s', es')) (hdelivery : s.delivery a = [])
    (hlog : numbers [] s'.log = numbers [] s.log)
    (hpending : ∀ t msg pending sent dropped, s'.pc t = .sending msg pending sent dropped →
      ∀ sub ∈ pending, (deliveredTo sub.tx ds).Sublist (numbers [] s'.offers))
    : Ordered s' (ds ++ s.delivery a) (es ++ es') where
  stream := ordered.stream_step inv hstep
  sublist := by
    intro i
    rw [hdelivery, List.append_nil, hlog]
    exact ordered.sublist i
  pending := by
    rw [hdelivery, List.append_nil]
    exact hpending

theorem visit {t : τ} {msg : Message} {sub : Sub} {pending : List Sub} {sent dropped : Nat}
    (ordered : Ordered s ds es) (inv : Inv s es)
    (hpc : s.pc t = .sending msg (sub :: pending) sent dropped)
    (hstep : s.step (.trySend t) = some (s', es')) (hoffers : s'.offers = s.offers)
    (hlog : numbers [] s'.log = numbers [] s.log)
    (hpc' : ∃ sent' dropped', s'.pc = update s.pc t (.sending msg pending sent' dropped'))
    : Ordered s' (ds ++ s.delivery (.trySend t)) (es ++ es') := by
  rcases inv.progress hpc with ⟨o, -, hlog₀, hcaller, prog⟩
  have hnumbers : numbers [] s.log = numbers [] s.offers ++ [s.call t] := by
    rw [hlog₀, numbers_append]
    simp [numbers, hcaller, State.call]
  have hput : ∀ p, s.put t = some p → p.1 = sub.tx := by
    intro p hp
    unfold State.put at hp
    rw [hpc] at hp
    dsimp only at hp
    split at hp
    . rw [Option.some.injEq] at hp
      rw [← hp]
    . contradiction
  have hdelivered : ∀ i, i ≠ sub.tx →
      deliveredTo i (ds ++ s.delivery (.trySend t)) = deliveredTo i ds := by
    intro i hi
    rw [deliveredTo_append, State.delivery_trySend]
    cases hp : s.put t with
    | none => simp [deliveredTo]
    | some p => simp [deliveredTo, hput p hp, Ne.symm hi]
  exact {
    stream := ordered.stream_step inv hstep
    sublist := by
      intro i
      rw [hlog]
      by_cases hi : i = sub.tx
      . -- the subscription had none of the current offer, which is the last one of the log
        subst hi
        rw [hnumbers, deliveredTo_append]
        apply (ordered.pending t _ _ _ _ hpc sub List.mem_cons_self).append
        rw [State.delivery_trySend]
        cases hp : s.put t with
        | none => simp [deliveredTo]
        | some p => simp [deliveredTo, hput p hp]
      . rw [hdelivered i hi]
        exact ordered.sublist i
    pending := by
      intro t' msg' pending' sent' dropped' hsending other hother
      rcases hpc' with ⟨sent'', dropped'', hpc'⟩
      rw [hpc'] at hsending
      rw [hoffers]
      rcases update_eq_cases hsending with ⟨rfl, heq⟩ | ⟨ht, hsending⟩
      . rw [OfferPc.sending.injEq] at heq
        rcases heq with ⟨-, rfl, -, -⟩
        have hne : other.tx ≠ sub.tx := by
          intro heq
          apply (List.nodup_cons.mp prog.nodup).1
          rw [← heq]
          exact List.mem_map_of_mem hother
        rw [hdelivered _ hne]
        apply ordered.pending t' _ _ _ _ hpc other (List.mem_cons_of_mem _ hother)
      . exact absurd (inv.eq_of_sending hpc hsending) ht
  }

theorem step {a : Act τ} (ordered : Ordered s ds es) (inv : Inv s es)
    (hstep : s.step a = some (s', es')) : Ordered s' (ds ++ s.delivery a) (es ++ es') := by
  cases Step.of_step hstep with
  | subscribe hlock => exact ordered.of_unchanged inv hstep rfl rfl ordered.pending
  | unsubscribe hlock => exact ordered.of_unchanged inv hstep rfl rfl ordered.pending
  | @offer t arg now hpc =>
    apply ordered.of_unchanged inv hstep rfl rfl
    intro t' msg pending sent dropped hpc'
    rcases update_eq_cases hpc' with ⟨rfl, heq⟩ | ⟨ht, hpc'⟩
    . contradiction
    . exact ordered.pending t' msg pending sent dropped hpc'
  | @lock t values arg now hpc hlock hvalues =>
    have hlog := inv.log_of_free hlock
    have hdelivery : ds ++ s.delivery (.lock t values) = ds := List.append_nil ds
    have hsublist := ordered.sublist
    rw [hlog] at hsublist
    exact {
      stream := ordered.stream_step inv hstep
      sublist := by
        intro i
        unfold State.log
        rw [hdelivery, State.setPc_offers, numbers_append]
        exact (hsublist i).trans (List.sublist_append_left _ _)
      pending := by
        rw [hdelivery]
        exact fun _ _ _ _ _ _ sub _ => hsublist sub.tx
    }
  | @visit t msg sub pending sent dropped hpc hmatch =>
    apply ordered.visit inv hpc hstep (State.visit_offers _ _ _ _ _ _ _)
    . rcases inv.progress hpc with ⟨o, ho, hlog, -, -⟩
      unfold State.log at hlog ⊢
      rw [State.visit_offers, State.visit_current, hlog, ho, numbers_append, numbers_append]
      rfl
    . apply State.visit_pc
  | skip hpc hmatch => exact ordered.visit inv hpc hstep rfl rfl ⟨_, _, rfl⟩
  | @unlock t msg sent dropped hpc =>
    apply ordered.of_unchanged inv hstep rfl
    . rw [show State.log _ = s.log from List.append_nil _]
    . intro t' msg' pending' sent' dropped' hpc'
      rcases update_eq_cases hpc' with ⟨rfl, heq⟩ | ⟨ht, hpc'⟩
      . contradiction
      . exact absurd (inv.eq_of_sending hpc hpc') ht
  | recv hqueue hcreated hconnected =>
    exact ordered.of_unchanged inv hstep rfl rfl ordered.pending
  | dropReceiver hcreated hconnected =>
    exact ordered.of_unchanged inv hstep rfl rfl ordered.pending

end Ordered

theorem bus_ordered {acts : List (Act τ)} {s : State capacity τ} {es : List (Output τ)}
    (hreach : (bus capacity τ).Reaches acts s es) : Ordered s (deliveries capacity acts) es := by
  have h := System.reaches_inv_trace State.delivery (fun s ds es => Inv s es ∧ Ordered s ds es)
    (fun s ds past a s' es h hstep => ⟨h.1.step hstep, h.2.step h.1 hstep⟩) ⟨Inv.init, Ordered.init⟩
    hreach
  exact h.2

/--
The order of the messages that the subscriptions get, told by the calls of `offer` that they come
from: the calls behind a subscription's messages, received first and then queued, are taken from one
sequence on which all subscriptions agree and which keeps the order of every producer.
-/
structure AgreedOrder (s : State capacity τ) (ds : List (Nat × (τ × Nat))) (es : List (Output τ))
    : Prop where
  stream : ∀ i, (deliveredTo i ds).map (message es)
    = ((s.subscriptions i).received ++ (s.subscriptions i).chan.queue
        ++ (s.subscriptions i).discarded).map some
  agree : ∀ i j call call', [call, call'].Sublist (deliveredTo i ds) → call ∈ deliveredTo j ds →
    call' ∈ deliveredTo j ds → [call, call'].Sublist (deliveredTo j ds)
  producer : ∀ i t k k', [(t, k), (t, k')].Sublist (deliveredTo i ds) → k < k'

theorem bus_agrees_on_order {acts : List (Act τ)} {s : State capacity τ} {es : List (Output τ)}
    (hreach : (bus capacity τ).Reaches acts s es) : AgreedOrder s (deliveries capacity acts) es := by
  have ordered := bus_ordered hreach
  exact {
    stream := ordered.stream
    agree := fun i j call call' h hcall hcall' =>
      pair_sublist_of_common (numbers_nodup [] s.log) (ordered.sublist i) (ordered.sublist j) h hcall
        hcall'
    producer := by
      intro i t k k' h
      have := (numbers_pairwise [] s.log).sublist (h.trans (ordered.sublist i))
      simpa using this
  }

/--
Two producers, the second of which has called `offer` first, and two subscriptions that are visited
in a different order by each offer.
-/
def twoProducers : List (Act Bool) :=
  [.subscribe "a", .subscribe "*", .offer false (.new "a" [1]) 5, .offer true (.new "a" [2]) 6,
    .lock true [⟨.exact "a", 0⟩, ⟨.prefixed "", 1⟩], .trySend true, .trySend true, .unlock true,
    .recv 1, .lock false [⟨.prefixed "", 1⟩, ⟨.exact "a", 0⟩], .trySend false, .trySend false,
    .unlock false, .recv 0, .recv 0]

theorem bus_agrees_on_order_two
    : ∃ s es,
        (bus 2 Bool).Reaches twoProducers s es
          ∧
        deliveredTo 0 (deliveries 2 twoProducers) = [(true, 0), (false, 0)]
          ∧
        AgreedOrder s (deliveries 2 twoProducers) es := by
  have hreach := (bus 2 Bool).reaches_get twoProducers (by decide +kernel)
  exact ⟨_, _, hreach, by decide +kernel, bus_agrees_on_order hreach⟩

end Bus
