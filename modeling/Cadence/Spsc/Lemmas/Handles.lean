import Cadence.Spsc.Impl.Handles
import Cadence.Spsc.Lemmas.Linearizable

/-!
This module contains the account of every value given to a ring: it comes back in an `Err`, is
returned by one `try_recv`, or is dropped by `Inner::drop`.
-/

open Lts

namespace Spsc

variable {w : Nat} {L : Layout w} {α : Type}

def Act.value? : Act Unit Unit α → Option α
  | .trySend _ value => some value
  | _ => none

/--
The values given to `try_send`.
-/
def offered (acts : List (HandlesAct α)) : List α :=
  (ringActs acts).filterMap Act.value?

/--
The invariant of a ring with its two handles.
-/
structure HandlesInv (h : Handles L α) : Prop where
  inv : Inv h.ring
  solo : Solo h.ring
  producer : h.producer = false → h.ring.send () = .idle
  consumer : h.consumer = false → h.ring.recv () = .idle
  dropped : h.dropped = if h.producer || h.consumer then none else some h.ring.inner.drop

theorem HandlesInv.init : HandlesInv (Handles.init L α) where
  inv := .init
  solo := .init
  producer := by simp [Handles.init]
  consumer := by simp [Handles.init]
  dropped := by simp [Handles.init]

theorem recv_of_isSend {s s' : State L Unit Unit α} {a : Act Unit Unit α}
    {es : List (Event (Unit ⊕ Unit) (Op α) (Res α))} (hstep : s.step a = some (s', es))
    (h : a.isSend = true) : s'.recv = s.recv := by
  cases Step.of_step hstep <;> first | rfl | contradiction

theorem send_of_not_isSend {s s' : State L Unit Unit α} {a : Act Unit Unit α}
    {es : List (Event (Unit ⊕ Unit) (Op α) (Res α))} (hstep : s.step a = some (s', es))
    (h : a.isSend = false) : s'.send = s.send := by
  cases Step.of_step hstep <;> first | rfl | contradiction

theorem HandlesInv.release {h : Handles L α} {producer consumer : Bool} (hi : HandlesInv h)
    (halive : h.producer || h.consumer) (hproducer : producer = false → h.ring.send () = .idle)
    (hconsumer : consumer = false → h.ring.recv () = .idle)
    : HandlesInv { h with producer := producer, consumer := consumer }.release := by
  have hdropped := hi.dropped
  rw [if_pos halive] at hdropped
  rw [Handles.release]
  split
  . next hstill =>
    -- the other handle keeps `Inner` alive
    exact {
      hi with
      producer := hproducer
      consumer := hconsumer
      dropped := by simp only [hstill, hdropped, if_true]
    }
  . next hlast =>
    -- the last handle runs `Inner::drop`
    exact {
      hi with
      producer := hproducer
      consumer := hconsumer
      dropped := by simp only [hlast, if_false, Bool.false_eq_true]
    }

theorem HandlesInv.step {h h' : Handles L α} {a : HandlesAct α}
    {es : List (Event (Unit ⊕ Unit) (Op α) (Res α))} (hi : HandlesInv h)
    (hstep : h.step a = some (h', es)) : HandlesInv h' := by
  cases HandlesStep.of_step hstep with
  | producer halive hsend hring =>
    exact {
      inv := hi.inv.step (hi.solo.exclusive hring) hring
      solo := hi.solo.step hring
      producer := by simp [Handles.setRing, halive]
      consumer := by
        intro hdead
        simpa [Handles.setRing, recv_of_isSend hring hsend] using hi.consumer hdead
      dropped := by simp [Handles.setRing, hi.dropped, halive]
    }
  | consumer halive hrecv hring =>
    exact {
      inv := hi.inv.step (hi.solo.exclusive hring) hring
      solo := hi.solo.step hring
      producer := by
        intro hdead
        simpa [Handles.setRing, send_of_not_isSend hring hrecv] using hi.producer hdead
      consumer := by simp [Handles.setRing, halive]
      dropped := by simp [Handles.setRing, hi.dropped, halive]
    }
  | dropProducer halive hidle => exact hi.release (by simp [halive]) (fun _ => hidle) hi.consumer
  | dropConsumer halive hidle => exact hi.release (by simp [halive]) hi.producer (fun _ => hidle)

theorem handles_inv {acts : List (HandlesAct α)} {h : Handles L α}
    {es : List (Event (Unit ⊕ Unit) (Op α) (Res α))} (hreach : (handles L α).Reaches acts h es)
    : HandlesInv h := by
  refine System.reaches_inv (fun h _ => HandlesInv h) ?_ .init hreach
  intro h past a h' es hi hstep
  exact hi.step hstep

/--
Dropping the ring with its last handle changes neither the ring nor who has handles.
-/
theorem release_frame (h : Handles L α)
    : h.release.ring = h.ring ∧ h.release.producer = h.producer ∧ h.release.consumer = h.consumer := by
  unfold Handles.release
  split
  . exact ⟨rfl, rfl, rfl⟩
  . exact ⟨rfl, rfl, rfl⟩

theorem handles_ring {acts : List (HandlesAct α)} {h : Handles L α}
    {es : List (Event (Unit ⊕ Unit) (Op α) (Res α))} (hreach : (handles L α).Reaches acts h es)
    : (threads L Unit Unit α).Reaches (ringActs acts) h.ring es := by
  refine System.reaches_inv_inputs
    (fun acts (h : Handles L α) es => (threads L Unit Unit α).Reaches (ringActs acts) h.ring es) ?_
    ?_ hreach
  . intro acts h past a h' es hring hstep
    unfold ringActs at hring ⊢
    rw [List.filterMap_append]
    cases HandlesStep.of_step hstep with
    | producer halive hsend hstep' => exact System.run_append _ hring (System.run_one _ hstep')
    | consumer halive hrecv hstep' => exact System.run_append _ hring (System.run_one _ hstep')
    | dropProducer halive hidle =>
      rw [(release_frame _).1]
      exact System.run_append _ hring (System.run_nil _ _)
    | dropConsumer halive hidle =>
      rw [(release_frame _).1]
      exact System.run_append _ hring (System.run_nil _ _)
  . exact System.run_nil _ _

/--
A handle that has been dropped is gone.
-/
theorem gone_of_dropped {acts : List (HandlesAct α)} {h : Handles L α}
    {es : List (Event (Unit ⊕ Unit) (Op α) (Res α))} (hreach : (handles L α).Reaches acts h es)
    : (.dropProducer ∈ acts → h.producer = false) ∧ (.dropConsumer ∈ acts → h.consumer = false) := by
  refine System.reaches_inv_inputs (fun acts (h : Handles L α) _ =>
    (.dropProducer ∈ acts → h.producer = false) ∧ (.dropConsumer ∈ acts → h.consumer = false))
    ?_ ⟨nofun, nofun⟩ hreach
  rintro acts h past a h' es ⟨hproducer, hconsumer⟩ hstep
  simp only [List.mem_append, List.mem_singleton]
  cases HandlesStep.of_step hstep with
  | producer halive hsend hstep' =>
    exact ⟨by simpa [Handles.setRing] using hproducer, by simpa [Handles.setRing] using hconsumer⟩
  | consumer halive hrecv hstep' =>
    exact ⟨by simpa [Handles.setRing] using hproducer, by simpa [Handles.setRing] using hconsumer⟩
  | dropProducer halive hidle =>
    rw [(release_frame _).2.1, (release_frame _).2.2]
    exact ⟨fun _ => rfl, by simpa using hconsumer⟩
  | dropConsumer halive hidle =>
    rw [(release_frame _).2.1, (release_frame _).2.2]
    exact ⟨by simpa using hproducer, fun _ => rfl⟩

def SendPc.pending : SendPc w α → List α
  | .idle => []
  | .loadTail value _ | .write value _ | .storeHead value _ => [value]

/--
The only producer sends one value after the other.
-/
theorem sends_in_turn {acts : List (Act Unit Unit α)} {s : State L Unit Unit α}
    {es : List (Event (Unit ⊕ Unit) (Op α) (Res α))}
    (hreach : (threads L Unit Unit α).Reaches acts s es)
    : acts.filterMap Act.value?
        =
      (completed es).filterMap (·.2.1.value?) ++ (s.send ()).pending := by
  have h := System.reaches_inv_inputs
    (fun acts (s : State L Unit Unit α) es => Accounts acts s es
      ∧ acts.filterMap Act.value?
        = (completed es).filterMap (·.2.1.value?) ++ (s.send ()).pending) ?_ ⟨.init, rfl⟩ hreach
  . exact h.2
  rintro acts s past a s' es ⟨acc, hsends⟩ hstep
  refine ⟨acc.step hstep, ?_⟩
  rw [List.filterMap_append, hsends]
  have hsend : (record past).pending (.inl ()) = (s.send ()).op := congrFun acc.pending _
  have hrecv : (record past).pending (.inr ()) = (s.recv ()).op := congrFun acc.pending _
  cases Step.of_step hstep with
  | @trySend t value hpc => simp [hpc, SendPc.pending, Act.value?]
  | @full t value head hpc hfull =>
    rw [hpc] at hsend
    simp [completed_ret _ _ _ hsend, hpc, SendPc.pending, Act.value?, Op.value?]
  | @room t value head hpc hroom => simp [hpc, SendPc.pending, Act.value?]
  | @write t value head hpc => simp [hpc, SendPc.pending, Act.value?]
  | @storeHead t value head hpc =>
    rw [hpc] at hsend
    simp [completed_ret _ _ _ hsend, hpc, SendPc.pending, Act.value?, Op.value?]
  | @tryRecv c hpc => simp [Act.value?]
  | @empty c tail hpc hempty =>
    rw [hpc] at hrecv
    simp [completed_ret _ _ _ hrecv, Act.value?, Op.value?]
  | @nonempty c tail hpc hne => simp [Act.value?]
  | @read c tail hpc => simp [Act.value?]
  | @storeTail c tail value hpc =>
    rw [hpc] at hrecv
    simp [completed_ret _ _ _ hrecv, Act.value?, Op.value?]

/--
What is left when `acts` have dropped both handles: `Inner::drop` has dropped exactly the accepted
values that no `try_recv` returned, in FIFO order and in at most `capacity` rounds, and every value
given to `try_send` was handed back, returned or dropped once.
-/
structure Disposed (acts : List (HandlesAct α)) (h : Handles L α)
    (es : List (Event (Unit ⊕ Unit) (Op α) (Res α))) (dropped : List (MaybeUninit α)) : Prop where
  handlesGone : h.producer = false ∧ h.consumer = false
  calls : calls es = (ringActs acts).filterMap Act.call?
  answers : ∀ call ∈ completed es, Answers call.2.1 call.2.2
  unreceived : dropped = ((accepted es).drop (returned es).length).map .init
  fifo : returned es ++ dropped = (accepted es).map .init
  once : ((handedBack es).map MaybeUninit.init ++ returned es ++ dropped).Perm
    ((offered acts).map .init)
  rounds : dropped.length = (h.ring.inner.head - h.ring.inner.tail).toNat
  bounded : dropped.length ≤ L.capacity

theorem handles_disposed {acts : List (HandlesAct α)} {h : Handles L α}
    {es : List (Event (Unit ⊕ Unit) (Op α) (Res α))} (hreach : (handles L α).Reaches acts h es)
    (hproducer : .dropProducer ∈ acts) (hconsumer : .dropConsumer ∈ acts)
    : ∃ dropped, h.dropped = some dropped ∧ Disposed acts h es dropped := by
  have hi := handles_inv hreach
  have acc := threads_accounts (handles_ring hreach)
  have hgone : h.producer = false ∧ h.consumer = false :=
    ⟨(gone_of_dropped hreach).1 hproducer, (gone_of_dropped hreach).2 hconsumer⟩
  have hfifo : returned es ++ h.ring.inner.drop = (accepted es).map .init := by
    rw [acc.returned, acc.accepted]
    apply hi.inv.received_append_unread
  refine ⟨h.ring.inner.drop, by simp [hi.dropped, hgone], ?_⟩
  exact {
    handlesGone := hgone
    calls := acc.calls
    answers := acc.answers
    unreceived := by rw [acc.returned, acc.accepted, hi.inv.holds.drop_eq]
    fifo := hfifo
    once := by
      have hpending : (h.ring.send ()).pending = [] := by
        rw [hi.producer hgone.1]
        rfl
      have hsends := sends_in_turn (handles_ring hreach)
      rw [hpending, List.append_nil] at hsends
      rw [List.append_assoc, hfifo, ← List.map_append, offered, hsends]
      exact (handedBack_append_accepted acc.answers).map _
    rounds := by rw [Inner.drop, Inner.length_dropFrom]
    bounded := by
      have := hi.inv.holds.bound
      rw [hi.inv.holds.drop_eq, List.length_map, List.length_drop]
      omega
  }

/--
A ring of two slots: the third of three sends is rejected, the first value is received, and the
producer is dropped before the consumer.
-/
def twoSlotsRun : List (HandlesAct Nat) :=
  [.producer (.trySend () 1), .producer (.loadTail ()), .producer (.write ()),
    .producer (.storeHead ()), .producer (.trySend () 2), .producer (.loadTail ()),
    .producer (.write ()), .producer (.storeHead ()), .producer (.trySend () 3),
    .producer (.loadTail ()), .dropProducer, .consumer (.tryRecv ()), .consumer (.loadHead ()),
    .consumer (.read ()), .consumer (.storeTail ()), .dropConsumer]

theorem handles_disposed_twoSlots
    : ∃ h es dropped,
        (handles twoSlots Nat).Reaches twoSlotsRun h es
          ∧
        offered twoSlotsRun = [1, 2, 3]
          ∧
        handedBack es = [3]
          ∧
        returned es = [.init 1]
          ∧
        h.dropped = some dropped
          ∧
        dropped = [.init 2]
          ∧
        Disposed twoSlotsRun h es dropped := by
  have hreach := (handles twoSlots Nat).reaches_get twoSlotsRun (by decide)
  rcases handles_disposed hreach (by decide) (by decide) with ⟨dropped, hdropped, disposed⟩
  have hvalue : some dropped = some [.init 2] := hdropped.symm.trans (by decide +kernel)
  exact ⟨_, _, dropped, hreach, rfl, by decide, by decide, hdropped, Option.some.inj hvalue, disposed⟩

end Spsc
