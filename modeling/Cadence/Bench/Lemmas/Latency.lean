import Cadence.Bench.Impl.Latency
import Cadence.Bench.Lemmas.Crossbeam
import Cadence.Bench.Lemmas.Shutdown
import Cadence.Bus.Lemmas.Timestamps
import Cadence.Message.Lemmas.Topic
import Cadence.OpenLoop.Samples

/-!
This module contains what the latency runs record: every call of `record_correct` gets the time from
the moment its message was due to a reading of the clock after its arrival, so that it covers the
time in which a late publisher kept the message waiting and the time in the queue.
-/

open Lts Function OpenLoop Spsc

namespace Bench

variable {start interval : UInt64} {warmup msgs : Nat} {now : UInt64}

theorem intendedOf_latMessage (t : UInt64) : intendedOf (latMessage t) = t := by
  have hlt : t.toNat < 256 ^ 8 := t.toNat_lt
  unfold intendedOf latMessage
  rw [Vector.toList_mk, List.take_append_of_le_length (by simp), List.take_of_length_le (by simp),
    Bytes.ofLe_toLe hlt, UInt64.ofNat_toNat]

theorem latMessages_eq (start interval : UInt64) (msgs : Nat)
    : latMessages start interval msgs
        =
      (List.range msgs).map fun i => latMessage (intended start interval i) := rfl

theorem length_latMessages (start interval : UInt64) (msgs : Nat)
    : (latMessages start interval msgs).length = msgs := by
  simp [latMessages]

theorem getElem?_latMessages {k : Nat} (h : k < msgs)
    : (latMessages start interval msgs)[k]? = some (latMessage (intended start interval k)) := by
  rw [latMessages_eq, List.getElem?_map, List.getElem?_range h]
  rfl

theorem map_intendedOf_take {n : Nat} (h : n ≤ msgs)
    : ((latMessages start interval msgs).take n).map intendedOf
        =
      (List.range n).map (intended start interval) := by
  rw [latMessages_eq, ← List.map_take, List.map_map, List.take_range, Nat.min_eq_left h]
  apply List.map_congr_left
  intro i hi
  exact intendedOf_latMessage _

/--
No latency is cut off at zero, because no message arrives before it is due.
-/
theorem toNat_lat {now intended : UInt64} (h : intended ≤ now)
    : (lat now intended).toNat = max (now.toNat - intended.toNat) 1 := by
  have hsub : TailBench.saturatingSub now intended = now - intended := if_pos h
  have htoNat := UInt64.toNat_sub_of_le _ _ h
  unfold lat
  rw [hsub, Nat.max_def, ← htoNat]
  change (if now - intended ≤ 1 then (1 : UInt64) else now - intended).toNat = _
  simp only [UInt64.le_iff_toNat_le, apply_ite UInt64.toNat]
  rfl

section Ring

variable {w : Nat} {L : Layout w} {strategy : WaitStrategy} {messages : List Message}
variable {s s' : Bench.State L Message} {es es' : List (Spsc.Output Message)}

def init? : MaybeUninit Message → Option Message
  | .init msg => some msg
  | .uninit => none

/--
What a run has sent and received, whether or not it ends too early.
-/
structure Carried (messages : List Message) (s : Bench.State L Message)
    (es : List (Spsc.Output Message)) : Prop where
  sending : Sending messages s.ring s.sender
  sent : es.filterMap Spsc.Output.sent? = s.ring.accepted
  received : es.filterMap Spsc.Output.received? = s.ring.received

theorem Carried.init (L : Layout w) (strategy : WaitStrategy) (messages : List Message)
    : Carried messages (.init L strategy messages) [] where
  sending := .init L _ messages
  sent := rfl
  received := rfl

theorem Poller.Step.sent {ring ring' : Spsc.State L Unit Unit Message} {done : Bool}
    {poller poller' : Poller} (h : Poller.Step ring done poller ring' poller' es)
    : es.filterMap Spsc.Output.sent? = [] := by
  cases h <;> rfl

theorem Carried.step {a : Thread} (carried : Carried messages s es)
    (hstep : s.step a = some (s', es')) : Carried messages s' (es ++ es') := by
  cases Step.of_step hstep with
  | producer h =>
    exact {
      sending := carried.sending.step h
      sent := by
        rw [List.filterMap_append, carried.sent, carried.sending.accepted h]
      received := by
        rw [List.filterMap_append, carried.received, h.received.1, h.received.2, List.append_nil]
    }
  | consumer h =>
    exact {
      sending := carried.sending.recv h.ring_eq_or h.send h.accepted
      sent := by
        rw [List.filterMap_append, carried.sent, h.sent, List.append_nil, h.accepted]
      received := by
        rw [List.filterMap_append, carried.received, h.received]
    }
  | joinProducer | storeDone | joinConsumer =>
    rw [List.append_nil]
    exact { carried with }

theorem step_length_le {a : Thread} (hstep : s.step a = some (s', es)) : es.length ≤ 1 := by
  cases Step.of_step hstep with
  | producer h => cases h <;> simp
  | consumer h => cases h <;> simp
  | joinProducer | storeDone | joinConsumer => simp

theorem countP_sent (es : List (Spsc.Output Message))
    : es.countP (spscLink L strategy messages).sent = (es.filterMap Spsc.Output.sent?).length := by
  rw [List.length_filterMap_eq_countP]
  apply List.countP_congr
  intro e he
  cases e <;> simp [spscLink, Spsc.Output.sent?]

theorem filterMap_received? (es : List (Spsc.Output Message))
    : es.filterMap (spscLink L strategy messages).received?
        =
      (es.filterMap Spsc.Output.received?).filterMap init? := by
  rw [List.filterMap_filterMap]
  congr 1
  funext e
  cases e with
  | received value => cases value <;> rfl
  | _ => rfl

theorem filterMap_init? (msgs : List Message)
    : (msgs.map MaybeUninit.init).filterMap init? = msgs := by
  induction msgs with
  | nil => rfl
  | cons msg msgs ih => exact congrArg (msg :: ·) ih

theorem Carried.length_accepted_le (carried : Carried messages s es)
    : s.ring.accepted.length ≤ messages.length := by
  have hlength := carried.sending.length_eq
  omega

/--
The link hands over a beginning of what has been sent.
-/
theorem Carried.take (carried : Carried messages s es)
    : es.filterMap (spscLink L strategy messages).received?
        =
      messages.take s.ring.received.length := by
  have hprefix : s.ring.accepted = messages.take s.ring.accepted.length := by
    rw [← carried.sending.sent, List.take_left]
  calc
    es.filterMap (spscLink L strategy messages).received?
    _ = s.ring.received.filterMap init? := by
      rw [filterMap_received?, carried.received]
    _ = ((s.ring.accepted.take s.ring.received.length).map .init).filterMap init? :=
      congrArg (List.filterMap init?) carried.sending.inv.fifo
    _ = s.ring.accepted.take s.ring.received.length := filterMap_init? _
    _ = (messages.take s.ring.accepted.length).take s.ring.received.length :=
      congrArg (List.take s.ring.received.length) hprefix
    _ = messages.take s.ring.received.length := by
      rw [List.take_take, Nat.min_eq_left carried.sending.inv.holds.le]

theorem spscLink_lawful (L : Layout w) (strategy : WaitStrategy)
    : (spscLink L strategy (latMessages start interval msgs)).Lawful (intended start interval)
        intendedOf (fun s => s.ring.accepted.length)
        (Carried (latMessages start interval msgs)) where
  init := .init L strategy _
  step := fun carried hstep => carried.step hstep
  one := step_length_le
  sent := by
    intro s a s' es hstep hrole
    rw [countP_sent]
    cases Step.of_step hstep with
    | producer h => exact absurd rfl hrole
    | consumer h => exact ⟨by rw [h.sent]; rfl, by rw [h.accepted]⟩
    | joinProducer | storeDone | joinConsumer => exact ⟨rfl, rfl⟩
  received := by
    intro s a s' es hstep hrole
    rw [filterMap_received?]
    cases Step.of_step hstep with
    | producer h => rw [h.received.2]; rfl
    | consumer h => exact absurd rfl hrole
    | joinProducer | storeDone | joinConsumer => rfl
  begun_init := rfl
  begun_le := by
    intro s es carried
    rw [countP_sent, carried.sent]
    omega
  begun_of_sent := by
    intro s past a s' es carried hstep hsent
    rw [countP_sent, (carried.step hstep).sent]
  order := by
    intro s es carried
    have hle := carried.sending.inv.holds.le
    have hlength := carried.length_accepted_le
    rw [length_latMessages] at hlength
    rw [carried.take, map_intendedOf_take (Nat.le_trans hle hlength)]
    apply List.Sublist.map
    apply List.range_sublist.mpr hle

end Ring

namespace Crossbeam

variable {capacity : Nat} {messages : List Message}
variable {s s' : State capacity} {es es' : List Output}

theorem countP_sent (es : List Output)
    : es.countP (crossbeamLink capacity messages).sent
        =
      (Bus.results (es.filterMap Output.bus?)).length := by
  unfold Bus.results
  rw [List.filterMap_filterMap, List.length_filterMap_eq_countP]
  apply List.countP_congr
  intro e he
  cases e with
  | bus e => cases e <;> simp [crossbeamLink, Output.bus?, Bus.Output.result?]
  | received msg => simp [crossbeamLink, Output.bus?]

theorem filterMap_received? (es : List Output)
    : es.filterMap (crossbeamLink capacity messages).received? = es.filterMap Output.received? := by
  congr 1
  funext e
  cases e <;> rfl

namespace Inv

theorem length_begun (inv : Inv messages s es)
    : s.bus.log.length + (s.bus.pc ()).waiting.length = messages.length - s.messages.length := by
  have hlength := congrArg List.length inv.log_append
  simp only [List.length_append, List.length_map] at hlength
  omega

theorem countP_sent (inv : Inv messages s es)
    : es.countP (crossbeamLink capacity messages).sent = s.bus.offers.length := by
  rw [Crossbeam.countP_sent]
  have hresults := congrArg List.length inv.tally.results
  rw [List.length_map] at hresults
  exact hresults

theorem begun_of_idle (inv : Inv messages s es) (hpc : s.bus.pc () = .idle)
    : messages.length - s.messages.length = s.bus.offers.length := by
  rw [← inv.length_begun, (inv.results_eq hpc).1, hpc]
  rfl

theorem begun_le (inv : Inv messages s es)
    : messages.length - s.messages.length ≤ s.bus.offers.length + 1 := by
  have hbegun := inv.length_begun
  cases hpc : s.bus.pc () with
  | idle => exact Nat.le_succ_of_le (Nat.le_of_eq (inv.begun_of_idle hpc))
  | lock arg now' =>
    rw [inv.bus_inv.log_of_free (inv.single.waiting arg now' hpc), hpc] at hbegun
    exact Nat.le_of_eq hbegun.symm
  | sending msg pending sent dropped =>
    rw [hpc] at hbegun
    have hcurrent := Option.length_toList_le (o := s.bus.current)
    unfold Bus.State.log at hbegun
    rw [List.length_append] at hbegun
    simp only [Bus.OfferPc.waiting, List.length_nil] at hbegun
    omega

/--
Dropped messages leave a gap, but those that arrive keep their order.
-/
theorem order_begun (inv : Inv messages s es)
    : ((es.filterMap Output.received?).map contents).Sublist
        ((messages.take (messages.length - s.messages.length)).map contents) := by
  have hbegun : s.bus.log.map Bus.Offer.arg ++ (s.bus.pc ()).waiting.map Prod.fst
      = messages.take (messages.length - s.messages.length) := by
    have hlog := inv.log_append
    have hlength := inv.length_begun
    rw [← hlength]
    conv => rhs; rw [← hlog]
    rw [List.take_left']
    simp
  have horder := inv.order
  rw [List.map_append] at horder
  apply ((List.sublist_append_left _ _).trans horder).trans
  rw [← hbegun, List.map_append]
  apply List.sublist_append_left

end Inv

theorem step_length_le {a : Act} (hstep : s.step a = some (s', es)) : es.length ≤ 1 := by
  cases Step.of_step hstep with
  | publish ha hbus =>
    rw [List.length_map]
    exact (Bus.Step.of_step hbus).length_outputs
  | _ => simp

theorem idle_of_sent {a : Act} (hstep : s.step a = some (s', es))
    (hsent : es.any (crossbeamLink capacity messages).sent = true) : s'.bus.pc () = .idle := by
  cases Step.of_step hstep with
  | @publish now a bus bes ha hbus =>
    rcases ha with rfl | rfl | rfl
    . cases Bus.Step.of_step hbus
      contradiction
    . cases Bus.Step.of_step hbus <;> contradiction
    . cases Bus.Step.of_step hbus
      simp
  | _ => contradiction

theorem ended_of_received {a : Act} (hstep : s.step a = some (s', es))
    (hreceived : es.filterMap (crossbeamLink capacity messages).received? ≠ [])
    : decide (s'.pc = .ended) = false := by
  cases Step.of_step hstep with
  | publish =>
    rw [filterMap_received?, (filterMap_bus? _).2] at hreceived
    contradiction
  | recv hpc => simp [hpc]
  | _ => contradiction

theorem ended_of_role {a : Act} (hstep : s.step a = some (s', es))
    (hrole : (crossbeamLink capacity messages).role a ≠ .receiver)
    : decide (s'.pc = .ended) = decide (s.pc = .ended) := by
  cases Step.of_step hstep with
  | recv | empty | done | notDone => exact absurd rfl hrole
  | _ => rfl

end Crossbeam

theorem crossbeamLink_lawful (capacity : Nat)
    : (crossbeamLink capacity (latMessages start interval msgs)).Lawful (intended start interval)
        intendedOf
        (fun s => (latMessages start interval msgs).length - s.messages.length)
        (Crossbeam.Inv (latMessages start interval msgs)) where
  init := .init capacity _
  step := fun inv hstep => inv.step hstep
  one := Crossbeam.step_length_le
  sent := by
    intro s a s' es hstep hrole
    cases Crossbeam.Step.of_step hstep with
    | offer | publish => exact absurd rfl hrole
    | _ => exact ⟨rfl, rfl⟩
  received := by
    intro s a s' es hstep hrole
    rw [Crossbeam.filterMap_received?]
    cases Crossbeam.Step.of_step hstep with
    | publish => exact (Crossbeam.filterMap_bus? _).2
    | recv => exact absurd rfl hrole
    | _ => rfl
  begun_init := Nat.sub_self _
  begun_le := by
    intro s es inv
    rw [inv.countP_sent]
    exact inv.begun_le
  begun_of_sent := by
    intro s past a s' es inv hstep hsent
    have inv' := inv.step hstep
    rw [inv'.countP_sent, inv'.begun_of_idle (Crossbeam.idle_of_sent hstep hsent)]
  order := by
    intro s es inv
    have horder := inv.order_begun.map fun c : Vector UInt8 32 × Vector UInt8 24 =>
      UInt64.ofNat (Bytes.ofLe (c.2.toList.take 8))
    rw [List.map_map, List.map_map] at horder
    have hle : (latMessages start interval msgs).length - s.messages.length ≤ msgs := by
      rw [length_latMessages]
      omega
    rw [Crossbeam.filterMap_received?, ← map_intendedOf_take hle]
    exact horder

/--
What an onlooker of an SPSC run sees.
-/
def spscOnlooker {w : Nat} (L : Layout w) (strategy : WaitStrategy) (start interval : UInt64)
    (warmup msgs : Nat) (now : UInt64) (acts : List (OpenLoop.Act Thread UInt64))
    : Onlooker Message UInt64 :=
  onlooker (spscLink L strategy (latMessages start interval (msgs + warmup)))
    (latencyPlan start interval warmup) now acts

def crossbeamOnlooker (capacity : Nat) (start interval : UInt64) (warmup msgs : Nat) (now : UInt64)
    (acts : List (OpenLoop.Act Crossbeam.Act UInt64)) : Onlooker Message UInt64 :=
  onlooker (crossbeamLink capacity (latMessages start interval (msgs + warmup)))
    (latencyPlan start interval warmup) now acts

/--
The arrivals of an SPSC run are the messages in order, each behind its own departure.
-/
theorem spscRun_arrival {w : Nat} {L : Layout w} {strategy : WaitStrategy}
    {s : OpenLoop.State (Bench.State L Message) Message UInt64} {o : Onlooker Message UInt64}
    {es : List (Spsc.Output Message)} {k : Nat} {msg : Message} {arrival : UInt64}
    (inv : OpenLoop.Inv (spscLink L strategy (latMessages start interval msgs))
      (latencyPlan start interval warmup) (fun s => s.ring.accepted.length)
      (Carried (latMessages start interval msgs)) s o es)
    (harrival : o.arrivals[k]? = some (msg, arrival))
    : msg = latMessage (intended start interval k)
        ∧
      ∃ departure, o.departures[k]? = some departure
        ∧ intended start interval k ≤ departure ∧ departure ≤ arrival := by
  constructor
  . have harrived := inv.arrived
    rw [inv.base.take] at harrived
    have hmsg : (o.arrivals.map Prod.fst ++ s.held.toList)[k]? = some msg := by
      have hk : (o.arrivals.map Prod.fst)[k]? = some msg := by
        rw [List.getElem?_map, harrival]
        rfl
      rw [List.getElem?_append_left (List.getElem?_eq_some_iff.mp hk).1, hk]
    rw [harrived, List.getElem?_take, Option.ite_none_right_eq_some] at hmsg
    have hlt : k < msgs := by
      have := (List.getElem?_eq_some_iff.mp hmsg.2).1
      rwa [length_latMessages] at this
    rw [getElem?_latMessages hlt, Option.some.injEq] at hmsg
    exact hmsg.2.symm
  . rcases inv.kth k msg arrival harrival with ⟨departure, hdeparture, hle⟩
    exact ⟨departure, hdeparture, inv.due k departure hdeparture, hle⟩

/--
The calls of `record_correct` that an SPSC run has made, beside what an onlooker has seen: the
`k`-th one belongs to the `k`-th message after the warm-up, and its value is the time from the
moment that message was due, which is before its send began, to a reading after it was received.
-/
structure SpscSamples (start interval : UInt64) (warmup : Nat) (o : Onlooker Message UInt64)
    (received : Nat) (hist : List (UInt64 × UInt64)) : Prop where
  counted : received = o.arrivals.length
  length : hist.length = received - warmup
  sample : ∀ k call, hist[k]? = some call →
    ∃ departure arrival, o.departures[warmup + k]? = some departure
      ∧ o.arrivals[warmup + k]?
        = some (latMessage (intended start interval (warmup + k)), arrival)
      ∧ intended start interval (warmup + k) ≤ departure
      ∧ departure ≤ arrival
      ∧ call.1.toNat = max (arrival.toNat - (intended start interval (warmup + k)).toNat) 1
      ∧ call.2 = interval

theorem spscRun_samples {w : Nat} {L : Layout w} {strategy : WaitStrategy}
    {acts : List (OpenLoop.Act Thread UInt64)}
    {s : OpenLoop.State (Bench.State L Message) Message UInt64} {es : List (Spsc.Output Message)}
    (hreach : (spscRun L strategy start interval warmup msgs now).Reaches acts s es)
    : SpscSamples start interval warmup
        (spscOnlooker L strategy start interval warmup msgs now acts) s.received s.hist := by
  have inv := measurement_inv (spscLink_lawful L strategy) hreach
  exact {
    counted := inv.received
    length := inv.length_hist
    sample := by
      intro k call hcall
      rcases inv.sample hcall with ⟨msg, arrival, harrival, rfl⟩
      rcases spscRun_arrival inv harrival with ⟨hmsg, departure, hdeparture, hdue, hle⟩
      dsimp only [latencyPlan] at harrival hdeparture hmsg hdue ⊢
      subst hmsg
      refine ⟨departure, arrival, hdeparture, harrival, hdue, hle, ?_, rfl⟩
      rw [intendedOf_latMessage, toNat_lat (UInt64.le_trans hdue hle)]
  }

def sendAndPoll : List (OpenLoop.Act Thread UInt64) :=
  [.read, .base .producer, .base .producer, .base .producer, .base .producer, .base .consumer,
    .base .consumer, .base .consumer, .base .consumer]

/--
Three messages, the first of which is warm-up, are due at 3, 13 and 23. The second leaves late at
25, and the third is measured late at 60.
-/
def lateRun : List (OpenLoop.Act Thread UInt64) :=
  List.flatten [[.read], sendAndPoll, [.tick 9, .measure, .tick 25], sendAndPoll,
    [.tick 31, .measure], sendAndPoll, [.tick 60, .measure]]

theorem spscRun_samples_late
    : ∃ s es,
        (spscRun twoSlots .yield 3 10 1 2 3).Reaches lateRun s es
          ∧
        s.hist = [(18, 10), (37, 10)]
          ∧
        SpscSamples 3 10 1 (spscOnlooker twoSlots .yield 3 10 1 2 3 lateRun) s.received s.hist := by
  have hreach := (spscRun twoSlots .yield 3 10 1 2 3).reaches_get lateRun (by decide +kernel)
  exact ⟨_, _, hreach, by decide +kernel, spscRun_samples hreach⟩

theorem ended_of_received {w : Nat} {L : Layout w} {strategy : WaitStrategy} {messages : List Message}
    {s s' : Bench.State L Message} {a : Thread} {es : List (Spsc.Output Message)}
    (hstep : s.step a = some (s', es))
    (hreceived : es.filterMap (spscLink L strategy messages).received? ≠ [])
    : decide (s'.poller.pc = .ended) = false := by
  cases Step.of_step hstep with
  | producer h =>
    rw [filterMap_received?, h.received.2] at hreceived
    contradiction
  | consumer h =>
    cases h with
    | storeTail hpoll hpc => simp [hpoll]
    | _ => contradiction
  | joinProducer | storeDone | joinConsumer => contradiction

theorem ended_of_role {w : Nat} {L : Layout w} {strategy : WaitStrategy} {messages : List Message}
    {s s' : Bench.State L Message} {a : Thread} {es : List (Spsc.Output Message)}
    (hstep : s.step a = some (s', es)) (hrole : (spscLink L strategy messages).role a ≠ .receiver)
    : decide (s'.poller.pc = .ended) = decide (s.poller.pc = .ended) := by
  cases Step.of_step hstep with
  | consumer h => exact absurd rfl hrole
  | producer | joinProducer | storeDone | joinConsumer => rfl

theorem spscRun_complete {w : Nat} {L : Layout w} {strategy : WaitStrategy}
    {acts : List (OpenLoop.Act Thread UInt64)}
    {s : OpenLoop.State (Bench.State L Message) Message UInt64} {es : List (Spsc.Output Message)}
    (hclosed : (spscRun L strategy start interval warmup msgs now).Meets (OnBase Closed)
      (spscRun L strategy start interval warmup msgs now).init acts)
    (hreach : (spscRun L strategy start interval warmup msgs now).Reaches acts s es)
    (hended : s.base.poller.pc = .ended) : s.received = msgs + warmup ∧ s.hist.length = msgs := by
  have inv := measurement_inv (spscLink_lawful L strategy) hreach
  have hheld : s.held = none :=
    held_of_ended step_length_le ended_of_received ended_of_role hreach (decide_eq_true hended)
  rcases run_base hreach hclosed with ⟨acts', hbase, hmeets⟩
  have hshutdown := shutdown_inv hmeets hbase
  have harrived := congrArg List.length inv.arrived
  rw [hheld, inv.base.take, hshutdown.length_received hended, List.take_length] at harrived
  simp only [Option.toList_none, List.append_nil, List.length_map, length_latMessages] at harrived
  rw [inv.length_hist, inv.received, harrived]
  exact ⟨rfl, by simp [latencyPlan]⟩

/--
The consumer finds the ring empty behind a message of warm-up and the measured one, and then `done`
set.
-/
def drainedRun : List (OpenLoop.Act Thread UInt64) :=
  List.flatten [[.read], sendAndPoll, [.measure, .tick 13], sendAndPoll, [.measure, .base .main,
    .base .main, .base .consumer, .base .consumer, .base .consumer]]

theorem spscRun_complete_one
    : ∃ s es,
        (spscRun twoSlots .yield 3 10 1 1 3).Reaches drainedRun s es
          ∧
        s.received = 2 ∧ s.hist.length = 1 := by
  have hreach := (spscRun twoSlots .yield 3 10 1 1 3).reaches_get drainedRun (by decide +kernel)
  exact ⟨_, _, hreach, spscRun_complete (by decide +kernel) hreach (by decide +kernel)⟩

/--
The calls of `record_correct` of a run over the bus, where messages may have been dropped between the
ones that the calls belong to.
-/
structure CrossbeamSamples (start interval : UInt64) (warmup : Nat) (o : Onlooker Message UInt64)
    (received : Nat) (hist : List (UInt64 × UInt64)) : Prop where
  counted : received = o.arrivals.length
  length : hist.length = received - warmup
  sample : ∀ k call, hist[k]? = some call →
    ∃ i msg departure arrival, o.departures[i]? = some departure
      ∧ o.arrivals[warmup + k]? = some (msg, arrival)
      ∧ intendedOf msg = intended start interval i
      ∧ intended start interval i ≤ departure
      ∧ departure ≤ arrival
      ∧ call.1.toNat = max (arrival.toNat - (intended start interval i).toNat) 1
      ∧ call.2 = interval

theorem crossbeamRun_samples {capacity : Nat} {acts : List (OpenLoop.Act Crossbeam.Act UInt64)}
    {s : OpenLoop.State (Crossbeam.State capacity) Message UInt64} {es : List Crossbeam.Output}
    (hreach : (crossbeamRun capacity start interval warmup msgs now).Reaches acts s es)
    : CrossbeamSamples start interval warmup
        (crossbeamOnlooker capacity start interval warmup msgs now acts) s.received s.hist := by
  have inv := measurement_inv (crossbeamLink_lawful capacity) hreach
  exact {
    counted := inv.received
    length := inv.length_hist
    sample := by
      intro k call hcall
      rcases inv.sample hcall with ⟨msg, arrival, harrival, rfl⟩
      rcases inv.late msg arrival (List.mem_of_getElem? harrival) with
        ⟨i, departure, hdeparture, hkey, hle⟩
      have hdue := inv.due i departure hdeparture
      dsimp only [latencyPlan] at harrival hkey hdue ⊢
      refine ⟨i, msg, departure, arrival, hdeparture, harrival, hkey, hdue, hle, ?_, rfl⟩
      rw [hkey, toNat_lat (UInt64.le_trans hdue hle)]
  }

def offerOne : List (OpenLoop.Act Crossbeam.Act UInt64) :=
  [.read, .base (.publisher 0), .base (.publisher 0), .base (.publisher 0), .base (.publisher 0)]

/--
Four messages for a queue of one, the first of them warm-up. The third is dropped, and the second
and the last one, which are due at 13 and 33, are measured at 24 and 40.
-/
def gapRun : List (OpenLoop.Act Crossbeam.Act UInt64) :=
  List.flatten [[.read], offerOne, [.base .subscriber, .measure, .tick 13], offerOne, [.tick 23],
    offerOne, [.base .subscriber, .tick 24, .measure, .tick 33], offerOne,
    [.base .subscriber, .tick 40, .measure]]

theorem crossbeamRun_samples_gap
    : ∃ s es,
        (crossbeamRun 1 3 10 1 3 3).Reaches gapRun s es
          ∧
        s.hist = [(11, 10), (7, 10)]
          ∧
        s.base.bus.dropCount = 1
          ∧
        CrossbeamSamples 3 10 1 (crossbeamOnlooker 1 3 10 1 3 3 gapRun) s.received s.hist := by
  have hreach := (crossbeamRun 1 3 10 1 3 3).reaches_get gapRun (by decide +kernel)
  exact ⟨_, _, hreach, by decide +kernel, by decide +kernel, crossbeamRun_samples hreach⟩

/--
The queue of `crossbeam_latency` has room for all its messages.
-/
theorem crossbeamLatencyRun_dropCount {start now : UInt64}
    {acts : List (OpenLoop.Act Crossbeam.Act UInt64)}
    {s : OpenLoop.State (Crossbeam.State layout.capacity) Message UInt64} {es : List Crossbeam.Output}
    (hreach : (Main.crossbeamLatencyRun start now).Reaches acts s es) : s.base.bus.dropCount = 0 := by
  have inv := measurement_inv (crossbeamLink_lawful layout.capacity) hreach
  apply inv.base.dropCount_of_room
  rw [length_latMessages]
  decide

theorem topicStr_latMessage (t : UInt64) : (latMessage t).topicStr = "bench" :=
  Message.topicStr_new_of_le [] (by decide) (by decide)

theorem crossbeamRun_complete {capacity : Nat} (hroom : msgs + warmup ≤ capacity)
    {acts : List (OpenLoop.Act Crossbeam.Act UInt64)}
    {s : OpenLoop.State (Crossbeam.State capacity) Message UInt64} {es : List Crossbeam.Output}
    (hclosed : (crossbeamRun capacity start interval warmup msgs now).Meets (OnBase Crossbeam.Closed)
      (crossbeamRun capacity start interval warmup msgs now).init acts)
    (hreach : (crossbeamRun capacity start interval warmup msgs now).Reaches acts s es)
    (hended : s.base.pc = .ended)
    : s.received = msgs + warmup ∧ s.hist.length = msgs ∧ s.base.bus.dropCount = 0 := by
  have inv := measurement_inv (crossbeamLink_lawful capacity) hreach
  have hheld : s.held = none :=
    held_of_ended Crossbeam.step_length_le Crossbeam.ended_of_received Crossbeam.ended_of_role hreach
      (decide_eq_true hended)
  rcases run_base hreach hclosed with ⟨acts', hbase, hmeets⟩
  have htopic : ∀ m ∈ latMessages start interval (msgs + warmup), m.topicStr = "bench" := by
    intro m hm
    rcases List.mem_map.mp hm with ⟨i, hi, rfl⟩
    exact topicStr_latMessage _
  have hall : (latMessages start interval (msgs + warmup)).length ≤ capacity := by
    rw [length_latMessages]
    exact hroom
  have hcomplete := (Crossbeam.crossbeam_complete_of_closed htopic hmeets hbase hended).2
  have hidle := (inv.base.joined (inv.base.done (inv.base.ended hended))).2
  rw [(inv.base.accounts htopic hidle).roomy hall, inv.base.count, length_latMessages] at hcomplete
  have harrived := congrArg List.length inv.arrived
  rw [hheld, Crossbeam.filterMap_received?, inv.base.received] at harrived
  simp only [Option.toList_none, List.append_nil, List.length_map] at harrived
  have hreceived : s.received = msgs + warmup := by
    rw [inv.received, harrived]
    omega
  refine ⟨hreceived, ?_, inv.base.dropCount_of_room hall⟩
  rw [inv.length_hist, hreceived]
  exact Nat.add_sub_cancel msgs warmup

def emptiedRun : List (OpenLoop.Act Crossbeam.Act UInt64) :=
  List.flatten [[.read], offerOne, [.tick 13], offerOne,
    [.base .subscriber, .measure, .base .subscriber, .measure, .base .main, .base .main,
      .base .subscriber, .base .subscriber]]

theorem crossbeamRun_complete_one
    : ∃ s es,
        (crossbeamRun 2 3 10 1 1 3).Reaches emptiedRun s es
          ∧
        s.received = 2 ∧ s.hist.length = 1 ∧ s.base.bus.dropCount = 0 := by
  have hreach := (crossbeamRun 2 3 10 1 1 3).reaches_get emptiedRun (by decide +kernel)
  exact ⟨_, _, hreach,
    crossbeamRun_complete (by decide) (by decide +kernel) hreach (by decide +kernel)⟩

end Bench
