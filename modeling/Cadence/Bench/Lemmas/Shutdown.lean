import Cadence.Bench.Impl.Shutdown
import Cadence.Spsc.Lemmas.Blocking

/-!
This module contains when a benchmark run loses messages at its end, and that it loses none if no
send completes between the consumer's last `try_recv` and its reading of `done`.
-/

open Lts Function Spsc

namespace Bench

variable {w : Nat} {L : Layout w} {α : Type}
variable {ring ring' : Spsc.State L Unit Unit α} {done : Bool} {poller poller' : Poller}
variable {values : List α}

/--
The consumer reads `done` as set only if nothing has been accepted since it found the ring empty.
-/
def Closed (s : State L α) : Thread → Prop
  | .consumer => s.poller.pc = .checking → s.done = true →
    s.poller.checked = s.ring.accepted.length
  | _ => True

instance (s : State L α) : DecidablePred (Closed s)
  | .consumer => inferInstanceAs (Decidable (s.poller.pc = .checking → s.done = true →
    s.poller.checked = s.ring.accepted.length))
  | .producer | .main => isTrue trivial

def PollOk (ring : Spsc.State L Unit Unit α) (checked : Nat) : PollPc → Prop
  | .polling => True
  -- in the other places the consumer is in no call
  | .checking => ring.recv () = .idle ∧ ring.received.length = checked
  | .waiting => ring.recv () = .idle
  | .ended => ring.received.length = ring.accepted.length

structure Inv (values : List α) (s : State L α) (es : List (Output α)) : Prop where
  sending : Sending values s.ring s.sender
  poll : PollOk s.ring s.poller.checked s.poller.pc
  joined : s.main ≠ .joinProducer → s.sender.values = []
  done : s.done = true → s.main ≠ .joinProducer
  ended : s.poller.pc = .ended → s.done = true
  count : s.poller.count = s.ring.received.length
  received : es.filterMap Output.received? = s.ring.received

theorem Inv.init (L : Layout w) (strategy : WaitStrategy) (values : List α)
    : Inv values (.init L strategy values) [] where
  sending := .init L _ values
  poll := trivial
  joined := fun h => absurd rfl h
  done := fun h => by contradiction
  ended := fun h => by contradiction
  count := rfl
  received := rfl

theorem Poller.Step.ring_eq_or {es : List (Output α)}
    (h : Poller.Step ring done poller ring' poller' es)
    : ring' = ring ∨ ∃ a es', ring.step a = some (ring', es') := by
  cases h with
  | tryRecv hpoll hpc =>
    refine .inr ⟨.tryRecv (), ?_⟩
    simp [Spsc.State.step, hpc]
  | empty hpoll hpc hempty =>
    refine .inr ⟨.loadHead (), ?_⟩
    simp [Spsc.State.step, hpc, hempty]
  | nonempty hpoll hpc hne =>
    refine .inr ⟨.loadHead (), ?_⟩
    simp [Spsc.State.step, hpc, hne]
  | read hpoll hpc =>
    refine .inr ⟨.read (), ?_⟩
    simp [Spsc.State.step, hpc]
  | storeTail hpoll hpc =>
    refine .inr ⟨.storeTail (), ?_⟩
    simp [Spsc.State.step, hpc]
  | done => exact .inl rfl
  | notDone => exact .inl rfl
  | wait => exact .inl rfl

theorem Poller.Step.send {es : List (Output α)}
    (h : Poller.Step ring done poller ring' poller' es) : ring'.send = ring.send := by
  cases h <;> rfl

theorem Poller.Step.accepted {es : List (Output α)}
    (h : Poller.Step ring done poller ring' poller' es) : ring'.accepted = ring.accepted := by
  cases h <;> rfl

theorem Poller.Step.received {es : List (Output α)}
    (h : Poller.Step ring done poller ring' poller' es)
    : ring'.received = ring.received ++ es.filterMap Output.received? := by
  cases h with
  | storeTail => rfl
  | _ => exact (List.append_nil _).symm

theorem Poller.Step.count {es : List (Output α)}
    (h : Poller.Step ring done poller ring' poller' es)
    (hcount : poller.count = ring.received.length) : poller'.count = ring'.received.length := by
  cases h with
  | storeTail => simp [hcount]
  | _ => exact hcount

theorem PollOk.consumer {sender : Sender α} {es : List (Output α)}
    (poll : PollOk ring poller.checked poller.pc) (sending : Sending values ring sender)
    (h : Poller.Step ring done poller ring' poller' es)
    (hclosed : poller.pc = .checking → done = true → poller.checked = ring.accepted.length)
    : PollOk ring' poller'.checked poller'.pc := by
  cases h with
  | tryRecv hpoll hpc =>
    rw [hpoll]
    trivial
  | @empty tail hpoll hpc hempty =>
    refine ⟨by simp, ?_⟩
    rw [sending.tail_eq hpc] at hempty
    exact sending.inv.holds.isEmpty_iff.mp hempty
  | nonempty hpoll hpc hne =>
    rw [hpoll]
    trivial
  | read hpoll hpc =>
    rw [hpoll]
    trivial
  | storeTail hpoll hpc =>
    rw [hpoll]
    trivial
  | done hpoll hdone =>
    rw [hpoll] at poll
    -- nothing has been accepted since the ring was found empty
    exact poll.2.trans (hclosed hpoll hdone)
  | notDone hpoll hdone =>
    rw [hpoll] at poll
    exact poll.1
  | wait hpoll => trivial

theorem PollOk.producer {sender sender' : Sender α} {es : List (Output α)} {checked : Nat}
    {pc : PollPc} (poll : PollOk ring checked pc)
    (h : Sender.Step ring sender ring' sender' es) (hended : pc = .ended → sender.values = [])
    : PollOk ring' checked pc := by
  cases pc with
  | polling => trivial
  | checking =>
    unfold PollOk
    rw [h.recv, h.received.1]
    exact poll
  | waiting =>
    unfold PollOk
    rw [h.recv]
    exact poll
  | ended =>
    -- the producer has ended as well, so it makes no access any more
    rw [(h.of_nil (hended rfl)).1]
    exact poll

namespace Inv

variable {s s' : State L α} {past es : List (Output α)}

theorem values_of_ended (inv : Inv values s past) (h : s.poller.pc = .ended)
    : s.sender.values = [] :=
  inv.joined (inv.done (inv.ended h))

theorem step {t : Thread} (inv : Inv values s past) (hclosed : Closed s t)
    (hstep : s.step t = some (s', es)) : Inv values s' (past ++ es) := by
  cases Step.of_step hstep with
  | producer h =>
    exact {
      sending := inv.sending.step h
      poll := inv.poll.producer h inv.values_of_ended
      joined := fun hmain => (h.of_nil (inv.joined hmain)).2
      done := inv.done
      ended := inv.ended
      count := by
        rw [h.received.1]
        exact inv.count
      received := by
        rw [List.filterMap_append, inv.received, h.received.1, h.received.2, List.append_nil]
    }
  | consumer h =>
    exact {
      sending := inv.sending.recv h.ring_eq_or h.send h.accepted
      poll := inv.poll.consumer inv.sending h hclosed
      joined := inv.joined
      done := inv.done
      ended := by
        intro hended
        cases h with
        | done hpoll hdone => exact hdone
        | tryRecv => exact inv.ended hended
        | nonempty => exact inv.ended hended
        | read => exact inv.ended hended
        | storeTail => exact inv.ended hended
        | empty => contradiction
        | notDone => contradiction
        | wait => contradiction
      count := h.count inv.count
      received := by
        rw [List.filterMap_append, inv.received, h.received]
    }
  | joinProducer hmain hvalues =>
    exact {
      inv with
      joined := fun _ => hvalues
      done := fun _ h => by contradiction
      received := by
        rw [List.append_nil]
        exact inv.received
    }
  | storeDone hmain =>
    exact {
      inv with
      joined := fun _ => inv.joined (by simp [hmain])
      done := fun _ h => by contradiction
      ended := fun _ => rfl
      received := by
        rw [List.append_nil]
        exact inv.received
    }
  | joinConsumer hmain hended =>
    exact {
      inv with
      joined := fun _ => inv.joined (by simp [hmain])
      done := fun _ h => by contradiction
      received := by
        rw [List.append_nil]
        exact inv.received
    }

end Inv

theorem shutdown_inv {strategy : WaitStrategy} {acts : List Thread} {s : State L α}
    {es : List (Output α)}
    (hclosed : (shutdown L strategy values).Meets Closed (.init L strategy values) acts)
    (hreach : (shutdown L strategy values).Reaches acts s es) : Inv values s es := by
  apply System.reaches_inv_of_meets (Inv values) _ (Inv.init L strategy values) hclosed hreach
  intro s past t s' es inv hC hstep
  apply inv.step hC hstep

/--
A consumer that has ended has received everything, in order, and left nothing in the ring.
-/
def Lossless (values : List α) (s : State L α) (es : List (Output α)) : Prop :=
  s.poller.pc = .ended →
    es.filterMap Output.received? = values.map .init ∧ s.ring.unread = []

theorem Inv.length_received {s : State L α} {es : List (Output α)} (inv : Inv values s es)
    (hended : s.poller.pc = .ended) : s.ring.received.length = values.length := by
  have hpoll := inv.poll
  rw [hended] at hpoll
  have hlength := inv.sending.length_eq
  rw [inv.values_of_ended hended, List.length_nil, Nat.add_zero] at hlength
  exact hpoll.trans hlength

theorem shutdown_lossless_of_closed {strategy : WaitStrategy} {acts : List Thread} {s : State L α}
    {es : List (Output α)}
    (hclosed : (shutdown L strategy values).Meets Closed (.init L strategy values) acts)
    (hreach : (shutdown L strategy values).Reaches acts s es) : Lossless values s es := by
  intro hended
  have inv := shutdown_inv hclosed hreach
  rw [inv.received]
  apply inv.sending.complete (inv.values_of_ended hended) (inv.length_received hended)

theorem shutdown_lossless_of_closed_one
    : ∃ s es,
        (shutdown twoSlots .yield [7]).Reaches
            [.consumer, .consumer, .producer, .producer, .producer, .producer, .consumer, .consumer,
              .consumer, .consumer, .consumer, .consumer, .main, .main, .consumer, .consumer,
              .consumer, .main] s es
          ∧
        s.main = .finished
          ∧
        Lossless [7] s es := by
  have hreach := (shutdown twoSlots .yield [7]).reaches_get
    [.consumer, .consumer, .producer, .producer, .producer, .producer, .consumer, .consumer,
      .consumer, .consumer, .consumer, .consumer, .main, .main, .consumer, .consumer, .consumer,
      .main] (by decide)
  exact ⟨_, _, hreach, by decide, shutdown_lossless_of_closed (by decide) hreach⟩

/--
The only message is sent after the consumer has found the ring empty, and `done` is set before the
consumer reads it: the consumer ends without the message.
-/
theorem shutdown_not_lossless
    : ¬ ∀ (w : Nat) (L : Layout w) (α : Type) (strategy : WaitStrategy) (values : List α)
        (acts : List Thread) (s : State L α) (es : List (Output α)),
        (shutdown L strategy values).Reaches acts s es → Lossless values s es := by
  intro h
  have hreach := (shutdown twoSlots .yield [7]).reaches_get
    [.consumer, .consumer, .producer, .producer, .producer, .producer, .main, .main, .consumer]
    (by decide)
  have hlossless := h _ _ _ _ _ _ _ _ hreach (by decide)
  revert hlossless
  decide

namespace Main

/--
The number that a throughput run counts, and the number of latencies that a latency run records.
-/
theorem spscThroughput_count {acts : List Thread} {s : State layout Message}
    {es : List (Output Message)}
    (hclosed : spscThroughput.Meets Closed spscThroughput.init acts)
    (hreach : spscThroughput.Reaches acts s es) (hended : s.poller.pc = .ended)
    : s.poller.count = thrMsgs := by
  have inv := shutdown_inv hclosed hreach
  rw [inv.count, inv.length_received hended, List.length_replicate]

theorem spscLatency_samples {start : UInt64} {acts : List Thread} {s : State layout Message}
    {es : List (Output Message)}
    (hclosed : (spscLatency start).Meets Closed (spscLatency start).init acts)
    (hreach : (spscLatency start).Reaches acts s es) (hended : s.poller.pc = .ended)
    : (s.ring.received.drop latWarmup).length = latMsgs := by
  have inv := shutdown_inv hclosed hreach
  rw [List.length_drop, inv.length_received hended]
  simp [latMessages]

end Main

theorem Tail.spscTrial_samples {rateHz start : UInt64} {wait : WaitStrategy} {acts : List Thread}
    {s : State layout Message} {es : List (Output Message)}
    (hclosed : (spscTrial rateHz wait start).Meets Closed (spscTrial rateHz wait start).init acts)
    (hreach : (spscTrial rateHz wait start).Reaches acts s es) (hended : s.poller.pc = .ended)
    : (s.ring.received.drop latWarmup).length = latMsgs := by
  have inv := shutdown_inv hclosed hreach
  rw [List.length_drop, inv.length_received hended]
  simp [latMessages]

end Bench
