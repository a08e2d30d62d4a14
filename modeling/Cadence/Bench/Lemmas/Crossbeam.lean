import Cadence.Bench.Impl.Crossbeam
import Cadence.Bus.Lemmas.Accounting

/-!
This module contains the accounts of a benchmark run over the bus: every offered message is received,
still queued or counted as dropped, and none is dropped if the queue has room for all of them.
-/

open Lts Function

namespace Bench
namespace Crossbeam

variable {capacity : Nat} {messages : List Message}

def Output.bus? : Output → Option (Bus.Output Unit)
  | .bus e => some e
  | .received _ => none

def Output.received? : Output → Option Message
  | .bus _ => none
  | .received msg => some msg

theorem filterMap_bus? (es : List (Bus.Output Unit))
    : (es.map Output.bus).filterMap Output.bus? = es
        ∧
      (es.map Output.bus).filterMap Output.received? = [] := by
  induction es with
  | nil => exact ⟨rfl, rfl⟩
  | cons e es ih => exact ⟨congrArg (e :: ·) ih.1, ih.2⟩

/--
The messages that the queue has refused, as the results of the finished offers have it.
-/
def dropped (es : List Output) : Nat :=
  ((Bus.results (es.filterMap Output.bus?)).map (·.2.dropped)).sum

def queue (s : State capacity) : List Message :=
  (s.bus.subscriptions 0).chan.queue

/--
A bus with the one subscription, whose receiver lives, in a run of at most `bound` offers.
-/
structure Single (bound : Nat) (bus : Bus.State capacity Unit) : Prop where
  registry : bus.subs.values = [⟨Bus.Filter.parse "bench", 0⟩]
  created : bus.created = 1
  pattern : bus.pattern 0 = "bench"
  connected : (bus.subscriptions 0).chan.connected = true
  waiting : ∀ arg now, bus.pc () = .lock arg now → bus.lock = none
  registered : ∀ o ∈ bus.log, o.registered = [0]
  found : ∀ o ∈ bus.log, ∀ attempt ∈ o.tries, ∃ n < bound, attempt.2 = some n

namespace Single

variable {bound : Nat} {bus bus' : Bus.State capacity Unit} {es es' : List (Bus.Output Unit)}

theorem subscribed (capacity bound : Nat) : Single bound (subscribed capacity) where
  registry := rfl
  created := rfl
  pattern := rfl
  connected := rfl
  waiting := fun arg now h => by contradiction
  registered := fun o h => absurd h List.not_mem_nil
  found := fun o h => absurd h List.not_mem_nil

theorem offer (single : Single bound bus) (tally : Bus.Tally bus es)
    (hpc : bus.pc () = .idle) (msg : Message) (now : UInt64)
    : Single bound (bus.setPc () (.lock msg now)) where
  __ := single
  waiting := by
    intro arg now' h
    cases hlock : bus.lock with
    | none => exact hlock
    | some t => exact absurd hpc (tally.holder t hlock)

theorem lock (single : Single bound bus) (inv : Bus.Inv bus es) {arg : Message} {now : UInt64}
    (hlock : bus.lock = none)
    : Single bound
        ({ bus with
            lock := some ()
            current := some ⟨(), arg, now, bus.subs.values.map Bus.Sub.tx, []⟩ }.setPc ()
          (.sending (Bus.stamp arg now) bus.subs.values 0 0)) := by
  have hlog := inv.log_of_free hlock
  have hnew : ∀ o ∈ bus.offers ++ [⟨(), arg, now, bus.subs.values.map Bus.Sub.tx, []⟩],
      o ∈ bus.log ∨ o.registered = [0] ∧ o.tries = [] := by
    intro o ho
    rcases List.mem_append.mp ho with ho | ho
    . rw [hlog]
      exact .inl ho
    . rw [List.mem_singleton] at ho
      subst ho
      rw [single.registry]
      exact .inr ⟨rfl, rfl⟩
  exact {
    single with
    waiting := by
      intro arg' now' h
      rw [Bus.State.setPc_pc, update_self] at h
      contradiction
    registered := by
      intro o ho
      rcases hnew o ho with h | h
      . exact single.registered o h
      . exact h.1
    found := by
      intro o ho attempt hattempt
      rcases hnew o ho with h | h
      . exact single.found o h attempt hattempt
      . rw [h.2] at hattempt
        exact absurd hattempt List.not_mem_nil
  }

/--
The offer in progress has put nothing into the queue yet, so the queue is shorter than the number of
offers.
-/
theorem length_queue_lt (inv : Bus.Inv bus es) {o : Bus.Offer Unit} (ho : bus.current = some o)
    (huntried : o.triesOn 0 = []) : (bus.subscriptions 0).chan.queue.length < bus.log.length := by
  have hstream := congrArg List.length (inv.stream 0)
  have hlog : bus.log = bus.offers ++ [o] := by
    unfold Bus.State.log
    rw [ho]
    rfl
  have hcurrent : Bus.delivered capacity (bus.pattern 0) 0 [o] = [] := by
    rw [Bus.delivered_singleton, Bus.Offer.foundRoom_of_untried huntried, Bool.and_false]
    rfl
  rw [hlog, Bus.delivered_append, hcurrent, List.append_nil] at hstream
  have hle : (Bus.delivered capacity (bus.pattern 0) 0 bus.offers).length ≤ bus.offers.length := by
    unfold Bus.delivered
    rw [List.length_map]
    apply List.length_filter_le
  rw [hlog]
  simp only [List.length_append, List.length_singleton] at hstream ⊢
  omega

theorem trySend (single : Single bound bus) (inv : Bus.Inv bus es) (hbound : bus.log.length ≤ bound)
    (hstep : bus.step (.trySend ()) = some (bus', es')) : Single bound bus' := by
  cases Bus.Step.of_step hstep with
  | @visit _ msg sub pending sent dropped hpc hmatch =>
    rcases inv.sending () msg (sub :: pending) sent dropped hpc with ⟨hlock, o, ho, -, prog⟩
    have huntried := prog.untried sub List.mem_cons_self
    have hlog : bus.log = bus.offers ++ [o] := by
      unfold Bus.State.log
      rw [ho]
      rfl
    have hregistered := single.registered o (by simp [hlog])
    have htx : sub.tx = 0 := by
      have := huntried.1
      rwa [hregistered, List.mem_singleton] at this
    rw [htx] at huntried
    have hfound : (bus.subscriptions sub.tx).chan.found
        = some (bus.subscriptions 0).chan.queue.length := by
      rw [htx, Bus.Channel.found, if_pos single.connected]
    have hlength := length_queue_lt inv ho huntried.2.2
    have hnew : ∀ o' ∈ (bus.visit () msg sub pending sent dropped).log,
        o' ∈ bus.log
          ∨ o' = o.note 0 (some (bus.subscriptions 0).chan.queue.length) := by
      intro o' ho'
      rw [Bus.State.visit_log _ _ _ _ _ _ _ ho, hfound, htx] at ho'
      rcases List.mem_append.mp ho' with h | h
      . exact .inl (by simp [hlog, h])
      . exact .inr (List.mem_singleton.mp h)
    exact {
      registry := by
        rw [Bus.State.visit_subs]
        exact single.registry
      created := by
        rw [Bus.State.visit_created]
        exact single.created
      pattern := by
        rw [Bus.State.visit_pattern]
        exact single.pattern
      connected := by
        rw [Bus.State.visit_subscriptions, htx, update_self]
        exact (Bus.Channel.trySend_connected _ msg).trans single.connected
      waiting := by
        intro arg now h
        rcases bus.visit_pc () msg sub pending sent dropped with ⟨sent', dropped', hvisit⟩
        rw [hvisit, update_self] at h
        contradiction
      registered := by
        intro o' ho'
        rcases hnew o' ho' with h | rfl
        . exact single.registered o' h
        . exact hregistered
      found := by
        intro o' ho' attempt hattempt
        rcases hnew o' ho' with h | rfl
        . exact single.found o' h attempt hattempt
        . rcases List.mem_append.mp hattempt with h | h
          . exact single.found o (by simp [hlog]) attempt h
          . rw [List.mem_singleton] at h
            subst h
            exact ⟨_, Nat.lt_of_lt_of_le hlength hbound, rfl⟩
    }
  | skip hpc hmatch =>
    exact {
      single with
      waiting := by
        intro arg now h
        rw [Bus.State.setPc_pc, update_self] at h
        contradiction
    }

theorem unlock (single : Single bound bus) (hstep : bus.step (.unlock ()) = some (bus', es'))
    : Single bound bus' := by
  cases Bus.Step.of_step hstep with
  | unlock hpc =>
    have hlog : (bus.offers ++ bus.current.toList) ++ [] = bus.log := List.append_nil _
    exact {
      single with
      waiting := fun arg now h => rfl
      registered := by
        intro o ho
        apply single.registered o
        rwa [← hlog]
      found := by
        intro o ho
        apply single.found o
        rwa [← hlog]
    }

theorem recv (single : Single bound bus) (hstep : bus.step (.recv 0) = some (bus', es'))
    : Single bound bus' := by
  cases Bus.Step.of_step hstep with
  | recv hqueue hcreated hconnected =>
    exact {
      single with
      pattern := by
        rw [Bus.State.pattern_setSubscription]
        . exact single.pattern
        . rfl
      connected := by
        rw [Bus.State.setSubscription_subscriptions, update_self]
        exact single.connected
    }

end Single

/--
The events of the bus, with the one of the `subscribe` in front of the run.
-/
def busEvents (es : List Output) : List (Bus.Output Unit) :=
  .subscribed 0 0 :: es.filterMap Output.bus?

theorem busEvents_append (es es' : List Output)
    : busEvents (es ++ es') = busEvents es ++ es'.filterMap Output.bus? := by
  unfold busEvents
  rw [List.filterMap_append, List.cons_append]

theorem offeredBy_bus (e : Bus.Output Unit) (es : List Output)
    : Bus.offeredBy () (busEvents (es ++ [.bus e]))
        =
      Bus.offeredBy () (busEvents es) ++ Bus.offeredBy () [e] := by
  rw [busEvents_append, Bus.offeredBy_append]
  rfl

structure Inv (messages : List Message) (s : State capacity) (es : List Output) : Prop where
  runs : ∃ acts, (Bus.bus capacity Unit).Reaches acts s.bus (busEvents es)
  single : Single messages.length s.bus
  offered : (Bus.offeredBy () (busEvents es)).map Prod.fst ++ s.messages = messages
  received : es.filterMap Output.received? = (s.bus.subscriptions 0).received
  count : s.count = (s.bus.subscriptions 0).received.length
  joined : s.main ≠ .joinPublisher → s.messages = [] ∧ s.bus.pc () = .idle
  done : s.done = true → s.main ≠ .joinPublisher
  ended : s.pc = .ended → s.done = true

namespace Inv

variable {s s' : State capacity} {es es' : List Output}

theorem init (capacity : Nat) (messages : List Message)
    : Inv messages (.init capacity messages) [] where
  runs := by
    refine ⟨[.subscribe "bench"], ?_⟩
    apply System.run_one
    rfl
  single := .subscribed capacity _
  offered := rfl
  received := rfl
  count := rfl
  joined := fun h => absurd rfl h
  done := fun h => by contradiction
  ended := fun h => by contradiction

theorem bus_inv (inv : Inv messages s es) : Bus.Inv s.bus (busEvents es) := by
  rcases inv.runs with ⟨acts, hreach⟩
  exact Bus.bus_inv hreach

theorem tally (inv : Inv messages s es) : Bus.Tally s.bus (busEvents es) := by
  rcases inv.runs with ⟨acts, hreach⟩
  exact Bus.bus_tally hreach

theorem runs_step (inv : Inv messages s es) {a : Bus.Act Unit} {bus : Bus.State capacity Unit}
    {bes : List (Bus.Output Unit)} (hstep : s.bus.step a = some (bus, bes))
    (hes : es'.filterMap Output.bus? = bes)
    : ∃ acts, (Bus.bus capacity Unit).Reaches acts bus (busEvents (es ++ es')) := by
  rcases inv.runs with ⟨acts, hreach⟩
  refine ⟨acts ++ [a], ?_⟩
  rw [busEvents_append, hes]
  apply System.run_append _ hreach
  apply System.run_one
  exact hstep

/--
The offers that have begun are the first of `messages`.
-/
theorem log_append (inv : Inv messages s es)
    : s.bus.log.map Bus.Offer.arg ++ (s.bus.pc ()).waiting.map Prod.fst ++ s.messages = messages := by
  have hcalls := congrArg (List.map Prod.fst) (inv.bus_inv.calls ())
  have hall : s.bus.log.filter (fun o => o.caller = ()) = s.bus.log := by
    rw [List.filter_eq_self]
    intro o ho
    rfl
  rw [hall, List.map_append, List.map_map] at hcalls
  have hoffered := inv.offered
  rw [hcalls] at hoffered
  exact hoffered

theorem length_log_le (inv : Inv messages s es) : s.bus.log.length ≤ messages.length := by
  have hlength := congrArg List.length inv.log_append
  simp only [List.length_append, List.length_map] at hlength
  omega

theorem publish_frame {bus bus' : Bus.State capacity Unit} {a : Bus.Act Unit}
    {bes : List (Bus.Output Unit)}
    (ha : a = .lock () bus.subs.values ∨ a = .trySend () ∨ a = .unlock ())
    (hstep : bus.step a = some (bus', bes))
    : bus.pc () ≠ .idle
        ∧
      (bus'.subscriptions 0).received = (bus.subscriptions 0).received
        ∧
      Bus.offeredBy () bes = [] := by
  rcases ha with rfl | rfl | rfl
  . cases Bus.Step.of_step hstep with
    | lock hpc hlock hvalues => exact ⟨by simp [hpc], rfl, rfl⟩
  . cases Bus.Step.of_step hstep with
    | @visit _ msg sub pending sent dropped hpc hmatch =>
      refine ⟨by simp [hpc], ?_, rfl⟩
      rw [Bus.State.visit_subscriptions]
      by_cases htx : 0 = sub.tx
      . rw [← htx, update_self]
      . rw [update_of_ne htx]
    | skip hpc hmatch => exact ⟨by simp [hpc], rfl, rfl⟩
  . cases Bus.Step.of_step hstep with
    | unlock hpc => exact ⟨by simp [hpc], rfl, rfl⟩

theorem offer (inv : Inv messages s es) {msg : Message} {rest : List Message}
    (hpc : s.bus.pc () = .idle) (hmessages : s.messages = msg :: rest) (now : UInt64)
    : Inv messages { s with bus := s.bus.setPc () (.lock msg now), messages := rest }
        (es ++ [.bus (.offer () msg now)]) where
  runs := by
    have hstep : s.bus.step (.offer () msg now)
        = some (s.bus.setPc () (.lock msg now), [.offer () msg now]) := by
      simp [Bus.State.step, hpc]
    exact inv.runs_step hstep rfl
  single := inv.single.offer inv.tally hpc msg now
  offered := by
    have hoffered := inv.offered
    rw [hmessages] at hoffered
    rw [offeredBy_bus, List.map_append, List.append_assoc]
    exact hoffered
  received := by
    rw [List.filterMap_append, inv.received]
    exact List.append_nil _
  count := inv.count
  joined := by
    intro hmain
    rw [(inv.joined hmain).1] at hmessages
    contradiction
  done := inv.done
  ended := inv.ended

theorem publish (inv : Inv messages s es) {a : Bus.Act Unit} {bus : Bus.State capacity Unit}
    {bes : List (Bus.Output Unit)}
    (ha : a = .lock () s.bus.subs.values ∨ a = .trySend () ∨ a = .unlock ())
    (hstep : s.bus.step a = some (bus, bes))
    : Inv messages { s with bus := bus } (es ++ bes.map .bus) := by
  have hframe := publish_frame ha hstep
  have hbes := filterMap_bus? bes
  exact {
    runs := inv.runs_step hstep hbes.1
    single := by
      rcases ha with rfl | rfl | rfl
      . cases Bus.Step.of_step hstep with
        | lock hpc hlock hvalues => exact inv.single.lock inv.bus_inv hlock
      . exact inv.single.trySend inv.bus_inv inv.length_log_le hstep
      . exact inv.single.unlock hstep
    offered := by
      rw [busEvents_append, hbes.1, Bus.offeredBy_append, hframe.2.2, List.append_nil]
      exact inv.offered
    received := by
      rw [List.filterMap_append, hbes.2, List.append_nil, inv.received]
      exact hframe.2.1.symm
    count := by
      rw [hframe.2.1]
      exact inv.count
    joined := fun hmain => absurd (inv.joined hmain).2 hframe.1
    done := inv.done
    ended := inv.ended
  }

theorem recv (inv : Inv messages s es) {msg : Message} {rest : List Message}
    {bus : Bus.State capacity Unit} (hpc : s.pc = .polling)
    (hqueue : (s.bus.subscriptions 0).chan.queue = msg :: rest)
    (hstep : s.bus.step (.recv 0) = some (bus, []))
    : Inv messages { s with bus := bus, count := s.count + 1 } (es ++ [.received msg]) := by
  have hruns : ∃ acts, (Bus.bus capacity Unit).Reaches acts bus
      (busEvents (es ++ [.received msg])) := inv.runs_step hstep rfl
  have hsingle := inv.single.recv hstep
  have hevents : busEvents (es ++ [.received msg]) = busEvents es := by
    rw [busEvents_append]
    exact List.append_nil _
  cases Bus.Step.of_step hstep with
  | @recv _ msg' rest' hqueue' hcreated hconnected =>
    rw [hqueue, List.cons.injEq] at hqueue'
    rw [← hqueue'.1]
    rw [← hqueue'.1] at hruns hsingle
    exact {
      runs := hruns
      single := hsingle
      offered := by
        rw [hevents]
        exact inv.offered
      received := by
        rw [List.filterMap_append, inv.received, Bus.State.setSubscription_subscriptions, update_self]
        rfl
      count := by
        rw [Bus.State.setSubscription_subscriptions, update_self, List.length_append, inv.count]
        rfl
      joined := inv.joined
      done := inv.done
      ended := fun hended => by
        rw [hpc] at hended
        contradiction
    }

theorem step (inv : Inv messages s es) {a : Act} (hstep : s.step a = some (s', es'))
    : Inv messages s' (es ++ es') := by
  cases Step.of_step hstep with
  | offer hpc hmessages => exact inv.offer hpc hmessages _
  | publish ha hbus => exact inv.publish ha hbus
  | recv hpc hqueue hbus => exact inv.recv hpc hqueue hbus
  | empty hpc hqueue =>
    rw [List.append_nil]
    exact { inv with ended := fun h => by contradiction }
  | done hpc hdone =>
    rw [List.append_nil]
    exact { inv with ended := fun _ => hdone }
  | notDone hpc hdone =>
    rw [List.append_nil]
    exact { inv with ended := fun h => by contradiction }
  | joinPublisher hmain hmessages hpc =>
    rw [List.append_nil]
    exact { inv with joined := fun _ => ⟨hmessages, hpc⟩, done := fun _ h => by contradiction }
  | storeDone hmain =>
    rw [List.append_nil]
    exact {
      inv with
      joined := fun _ => inv.joined (by simp [hmain])
      done := fun _ h => by contradiction
      ended := fun _ => rfl
    }
  | joinSubscriber hmain hended =>
    rw [List.append_nil]
    exact {
      inv with
      joined := fun _ => inv.joined (by simp [hmain])
      done := fun _ h => by contradiction
    }

end Inv

theorem crossbeam_inv {acts : List Act} {s : State capacity} {es : List Output}
    (hreach : (crossbeam capacity messages).Reaches acts s es) : Inv messages s es := by
  apply System.reaches_inv (Inv messages) _ (Inv.init capacity messages) hreach
  intro s past a s' es inv hstep
  exact inv.step hstep

/--
An offer that found the one subscription, and a receiver each time, has either put the message into
the queue or counted it.
-/
theorem sent_add_dropped {o : Bus.Offer Unit} {bound : Nat} {patterns : Nat → String}
    (settled : ∀ i, o.Settled (patterns i) i) (hpattern : patterns 0 = "bench")
    (hregistered : o.registered = [0])
    (hfound : ∀ attempt ∈ o.tries, ∃ n < bound, attempt.2 = some n)
    (htopic : o.arg.topicStr = "bench")
    : (o.result capacity).sent + (o.result capacity).dropped = 1 := by
  have hclasses := @Bus.Offer.Settled.classes capacity Unit o patterns settled
  have hgone : o.gone = [] := by
    unfold Bus.Offer.gone
    rw [List.map_eq_nil_iff, List.filter_eq_nil_iff]
    intro attempt hattempt
    rcases hfound attempt hattempt with ⟨n, -, hn⟩
    simp [hn]
  rw [hgone, List.append_nil] at hclasses
  have hperm : (o.enqueued capacity ++ o.full capacity).Perm [0] := by
    rw [List.perm_ext_iff_of_nodup hclasses.1 (List.nodup_singleton 0)]
    intro i
    rw [hclasses.2, hregistered, List.mem_singleton, and_iff_left_iff_imp]
    intro hi
    rw [hi, hpattern]
    change (Bus.Filter.parse "bench").matchesTopic o.arg.topicStr = true
    rw [htopic]
    decide
  have hlength := hperm.length_eq
  rw [List.length_append] at hlength
  exact hlength

def contents (m : Message) : Vector UInt8 32 × Vector UInt8 24 :=
  (m.topic, m.payload)

/--
The accounts of a run between two offers.
-/
structure Accounts (messages : List Message) (s : State capacity) (es : List Output) : Prop where
  conserved : s.count + (queue s).length + dropped es + s.messages.length = messages.length
  dropCount : s.bus.dropCount.toNat = dropped es % 2 ^ 64
  order : ((es.filterMap Output.received? ++ queue s).map contents).Sublist (messages.map contents)
  -- whatever the interleaving, a queue with room for all messages refuses none
  roomy : messages.length ≤ capacity → dropped es = 0

namespace Inv

variable {s s' : State capacity} {es es' : List Output}

theorem results_eq (inv : Inv messages s es) (hpc : s.bus.pc () = .idle)
    : s.bus.log = s.bus.offers
        ∧
      Bus.results (es.filterMap Output.bus?)
        = s.bus.offers.map fun o => (o.caller, o.result capacity) := by
  have hlock : s.bus.lock = none := by
    cases hlock : s.bus.lock with
    | none => rfl
    | some t => exact absurd hpc (inv.tally.holder t hlock)
  exact ⟨inv.bus_inv.log_of_free hlock, inv.tally.results⟩

theorem order (inv : Inv messages s es)
    : ((es.filterMap Output.received? ++ queue s).map contents).Sublist
        ((s.bus.log.map Bus.Offer.arg).map contents) := by
  have hstream := inv.bus_inv.stream 0
  rw [inv.bus_inv.connected 0 inv.single.connected, List.append_nil] at hstream
  have heq : (s.bus.log.map Bus.Offer.arg).map contents
      = (s.bus.log.map Bus.Offer.msg).map contents := by
    rw [List.map_map, List.map_map]
    rfl
  rw [inv.received, queue, hstream, heq]
  apply List.Sublist.map
  apply List.Sublist.map
  apply List.filter_sublist

theorem sum_dropped (inv : Inv messages s es) (hroom : messages.length ≤ capacity)
    : (s.bus.log.map fun o => (o.result capacity).dropped).sum = 0 := by
  apply List.sum_eq_zero
  intro n hn
  rcases List.mem_map.mp hn with ⟨o, ho, rfl⟩
  change (o.full capacity).length = 0
  rw [List.length_eq_zero_iff]
  unfold Bus.Offer.full
  rw [List.map_eq_nil_iff, List.filter_eq_nil_iff]
  intro attempt hattempt
  rcases inv.single.found o ho attempt hattempt with ⟨n, hlt, hn⟩
  simp only [hn, Option.any_some, decide_eq_true_eq]
  omega

theorem accounts (inv : Inv messages s es) (htopic : ∀ m ∈ messages, m.topicStr = "bench")
    (hpc : s.bus.pc () = .idle) : Accounts messages s es := by
  have hresults := inv.results_eq hpc
  have hlog := inv.log_append
  rw [hresults.1, hpc] at hlog
  simp only [Bus.OfferPc.waiting, List.map_nil, List.append_nil] at hlog
  have hdropped : dropped es = (s.bus.offers.map fun o => (o.result capacity).dropped).sum := by
    unfold dropped
    rw [hresults.2, List.map_map]
    rfl
  have hfound : ∀ o ∈ s.bus.offers,
      ∀ attempt ∈ o.tries, ∃ n < messages.length, attempt.2 = some n := by
    rw [← hresults.1]
    exact inv.single.found
  have hregistered : ∀ o ∈ s.bus.offers, o.registered = [0] := by
    rw [← hresults.1]
    exact inv.single.registered
  exact {
    conserved := by
      have hone : ∀ o ∈ s.bus.offers,
          (o.result capacity).sent + (o.result capacity).dropped = 1 := by
        intro o ho
        apply sent_add_dropped (inv.bus_inv.settled o ho) inv.single.pattern (hregistered o ho)
          (hfound o ho)
        apply htopic
        rw [← hlog]
        exact List.mem_append_left _ (List.mem_map_of_mem ho)
      have hsum : (s.bus.offers.map fun o => (o.result capacity).sent).sum
          + (s.bus.offers.map fun o => (o.result capacity).dropped).sum = s.bus.offers.length := by
        rw [← List.sum_map_add, List.map_congr_left hone, List.map_const', List.sum_replicate]
        simp
      have htotal := inv.tally.total
      rw [hresults.1] at htotal
      have hstream : s.bus.total = s.count + (queue s).length := by
        unfold Bus.State.total Bus.State.stream
        rw [inv.single.created, Finset.sum_range_one,
          inv.bus_inv.connected 0 inv.single.connected, List.append_nil, List.length_append,
          inv.count]
        rfl
      have hlength := congrArg List.length hlog
      rw [List.length_append, List.length_map] at hlength
      omega
    dropCount := by
      rw [hdropped, inv.tally.dropCount, hresults.1]
    order := by
      apply inv.order.trans
      rw [← hlog, hresults.1, List.map_append]
      apply List.sublist_append_left
    roomy := by
      intro hroom
      rw [hdropped, ← hresults.1]
      exact inv.sum_dropped hroom
  }

end Inv

theorem crossbeam_accounts (htopic : ∀ m ∈ messages, m.topicStr = "bench") {acts : List Act}
    {s : State capacity} {es : List Output}
    (hreach : (crossbeam capacity messages).Reaches acts s es) (hpc : s.bus.pc () = .idle)
    : Accounts messages s es :=
  (crossbeam_inv hreach).accounts htopic hpc

/--
The second of two messages finds the queue full.
-/
theorem crossbeam_accounts_two
    : ∃ s es,
        (crossbeam 1 [.new "bench" [1], .new "bench" [2]]).Reaches
            [.publisher 5, .publisher 5, .publisher 5, .publisher 5, .publisher 6, .publisher 6,
              .publisher 6, .publisher 6] s es
          ∧
        dropped es = 1
          ∧
        Accounts [.new "bench" [1], .new "bench" [2]] s es := by
  have hreach := (crossbeam 1 [.new "bench" [1], .new "bench" [2]]).reaches_get
    [.publisher 5, .publisher 5, .publisher 5, .publisher 5, .publisher 6, .publisher 6,
      .publisher 6, .publisher 6]
    (by decide +kernel)
  exact ⟨_, _, hreach, by decide +kernel, crossbeam_accounts (by decide +kernel) hreach rfl⟩

theorem Inv.dropCount_of_room {s : State capacity} {es : List Output} (inv : Inv messages s es)
    (hroom : messages.length ≤ capacity) : s.bus.dropCount = 0 := by
  apply UInt64.toNat_inj.mp
  rw [inv.tally.dropCount, inv.sum_dropped hroom]
  rfl

/--
A queue with room for all messages refuses none, in no state of any run.
-/
theorem crossbeam_dropCount (hroom : messages.length ≤ capacity) {acts : List Act}
    {s : State capacity} {es : List Output}
    (hreach : (crossbeam capacity messages).Reaches acts s es) : s.bus.dropCount = 0 :=
  (crossbeam_inv hreach).dropCount_of_room hroom

theorem crossbeam_dropCount_two
    : ∃ s es,
        (crossbeam 2 [.new "bench" [1], .new "bench" [2]]).Reaches
            [.publisher 5, .publisher 5, .publisher 5, .publisher 5, .publisher 6, .publisher 6,
              .publisher 6] s es
          ∧
        s.bus.dropCount = 0 := by
  have hreach := (crossbeam 2 [.new "bench" [1], .new "bench" [2]]).reaches_get
    [.publisher 5, .publisher 5, .publisher 5, .publisher 5, .publisher 6, .publisher 6,
      .publisher 6]
    (by decide +kernel)
  exact ⟨_, _, hreach, crossbeam_dropCount (by decide) hreach⟩

/--
The subscriber reads `done` as set only while the queue that it found empty still is.
-/
def Closed (s : State capacity) : Act → Prop
  | .subscriber => s.pc = .checking → s.done = true → queue s = []
  | _ => True

instance (s : State capacity) : DecidablePred (Closed s)
  | .subscriber => inferInstanceAs (Decidable (s.pc = .checking → s.done = true → queue s = []))
  | .publisher _ | .main => isTrue trivial

theorem Inv.ended_step {s s' : State capacity} {es es' : List Output} {a : Act}
    (inv : Inv messages s es) (hended : s.pc = .ended → queue s = []) (hclosed : Closed s a)
    (hstep : s.step a = some (s', es')) : s'.pc = .ended → queue s' = [] := by
  have hjoined : s.pc = .ended → s.messages = [] ∧ s.bus.pc () = .idle :=
    fun h => inv.joined (inv.done (inv.ended h))
  cases Step.of_step hstep with
  | offer hpc hmessages =>
    intro h
    rw [(hjoined h).1] at hmessages
    contradiction
  | publish ha hbus =>
    intro h
    exact absurd (hjoined h).2 (Inv.publish_frame ha hbus).1
  | recv hpc hqueue hbus =>
    intro h
    rw [hpc] at h
    contradiction
  | empty hpc hqueue => exact fun h => by contradiction
  | done hpc hdone => exact fun _ => hclosed hpc hdone
  | notDone hpc hdone => exact fun h => by contradiction
  | joinPublisher hmain hmessages hpc => exact hended
  | storeDone hmain => exact hended
  | joinSubscriber hmain hpc => exact hended

/--
A subscriber that has ended has received all messages but the dropped ones, in order.
-/
theorem crossbeam_complete_of_closed (htopic : ∀ m ∈ messages, m.topicStr = "bench")
    {acts : List Act} {s : State capacity} {es : List Output}
    (hclosed : (crossbeam capacity messages).Meets Closed (.init capacity messages) acts)
    (hreach : (crossbeam capacity messages).Reaches acts s es) (hended : s.pc = .ended)
    : queue s = [] ∧ s.count + dropped es = messages.length := by
  have h := System.reaches_inv_of_meets
    (fun s es => Inv messages s es ∧ (s.pc = .ended → queue s = []))
    (fun s past a s' es h hC hstep => ⟨h.1.step hstep, h.1.ended_step h.2 hC hstep⟩)
    ⟨Inv.init capacity messages, fun h => by contradiction⟩ hclosed hreach
  have hjoined := h.1.joined (h.1.done (h.1.ended hended))
  have hconserved := (h.1.accounts htopic hjoined.2).conserved
  have hqueue := h.2 hended
  rw [hqueue, hjoined.1, List.length_nil] at hconserved
  exact ⟨hqueue, by omega⟩

theorem crossbeam_complete_of_closed_one
    : ∃ s es,
        (crossbeam 1 [.new "bench" [1]]).Reaches
            [.publisher 5, .publisher 5, .publisher 5, .subscriber, .publisher 5, .main, .main,
              .subscriber, .subscriber] s es
          ∧
        queue s = []
          ∧
        s.count + dropped es = 1 := by
  have hreach := (crossbeam 1 [.new "bench" [1]]).reaches_get
    [.publisher 5, .publisher 5, .publisher 5, .subscriber, .publisher 5, .main, .main,
      .subscriber, .subscriber]
    (by decide +kernel)
  exact ⟨_, _, hreach,
    crossbeam_complete_of_closed (by decide +kernel) (by decide +kernel) hreach (by decide +kernel)⟩

end Crossbeam
end Bench
