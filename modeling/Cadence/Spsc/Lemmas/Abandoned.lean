import Cadence.Spsc.Lemmas.Handles

/-!
This module contains what the owner of one handle sees when the other handle has been dropped. The
ring does not notice: a producer fills it and is then refused for ever, a consumer empties it and
then finds nothing for ever.
-/

open Lts

namespace Spsc

section Results

variable {τ α : Type}

def Event.sent? : Event τ (Op α) (Res α) → Option Bool
  | .ret _ (.sent result) => some result.isOk
  | _ => none

def Event.received? : Event τ (Op α) (Res α) → Option (Option (MaybeUninit α))
  | .ret _ (.received result) => some result
  | _ => none

/--
Which of the calls of `try_send` that have returned were accepted.
-/
def sendResults (es : List (Event τ (Op α) (Res α))) : List Bool :=
  es.filterMap Event.sent?

def recvResults (es : List (Event τ (Op α) (Res α))) : List (Option (MaybeUninit α)) :=
  es.filterMap Event.received?

variable {es es' : List (Event τ (Op α) (Res α))}

theorem sendResults_append : sendResults (es ++ es') = sendResults es ++ sendResults es' :=
  List.filterMap_append

theorem recvResults_append : recvResults (es ++ es') = recvResults es ++ recvResults es' :=
  List.filterMap_append

end Results

variable {w : Nat} {L : Layout w} {α : Type}
variable {s s' : State L Unit Unit α} {a : Act Unit Unit α}
variable {es es' past : List (Event (Unit ⊕ Unit) (Op α) (Res α))}

/--
A step of the producer: a call is accepted, or it finds the ring full, or none returns.
-/
inductive SendStep (s s' : State L Unit Unit α) : List Bool → Prop where
  | none (haccepted : s'.accepted = s.accepted) : SendStep s s' []
  | accepted (hlength : s'.accepted.length = s.accepted.length + 1) : SendStep s s' [true]
  | full (haccepted : s'.accepted = s.accepted)
      (hfull : s.accepted.length = s.received.length + L.capacity) : SendStep s s' [false]

theorem sendStep_of_isSend (inv : Inv s) (solo : Solo s) (hsend : a.isSend = true)
    (hstep : s.step a = some (s', es))
    : s'.received = s.received ∧ SendStep s s' (sendResults es) := by
  cases Step.of_step hstep with
  | trySend hpc => exact ⟨rfl, .none rfl⟩
  | @full t value head hpc hfull =>
    have hhead := inv.send ()
    rw [hpc] at hhead
    rw [hhead.1, solo.send (by simp [hpc]), ← inv.holds.head, inv.holds.isFull_iff] at hfull
    exact ⟨rfl, .full rfl hfull⟩
  | room hpc hroom => exact ⟨rfl, .none rfl⟩
  | write hpc => exact ⟨rfl, .none rfl⟩
  | storeHead hpc => exact ⟨rfl, .accepted (by simp)⟩
  | tryRecv hpc => contradiction
  | empty hpc hempty => contradiction
  | nonempty hpc hne => contradiction
  | read hpc => contradiction
  | storeTail hpc => contradiction

/--
A step of the consumer: a call returns a value, or it finds the ring empty, or none returns.
-/
inductive RecvStep (s s' : State L Unit Unit α) : List (Option (MaybeUninit α)) → Prop where
  | none (hreceived : s'.received = s.received) : RecvStep s s' []
  | received {value : MaybeUninit α} (hreceived : s'.received = s.received ++ [value])
    : RecvStep s s' [some value]
  | empty (hreceived : s'.received = s.received)
      (hempty : s.received.length = s.accepted.length) : RecvStep s s' [Option.none]

theorem recvStep_of_not_isSend (inv : Inv s) (solo : Solo s) (hsend : a.isSend = false)
    (hstep : s.step a = some (s', es))
    : s'.accepted = s.accepted ∧ RecvStep s s' (recvResults es) := by
  cases Step.of_step hstep with
  | tryRecv hpc => exact ⟨rfl, .none rfl⟩
  | @empty c tail hpc hempty =>
    have htail := inv.recv ()
    rw [hpc] at htail
    rw [htail.1, solo.recv (by simp [hpc]), ← inv.holds.tail, inv.holds.isEmpty_iff] at hempty
    exact ⟨rfl, .empty rfl hempty⟩
  | nonempty hpc hne => exact ⟨rfl, .none rfl⟩
  | read hpc => exact ⟨rfl, .none rfl⟩
  | storeTail hpc => exact ⟨rfl, .received rfl⟩
  | trySend hpc => contradiction
  | full hpc hfull => contradiction
  | room hpc hroom => contradiction
  | write hpc => contradiction
  | storeHead hpc => contradiction

theorem Inv.length_unread (inv : Inv s)
    : s.received.length + s.unread.length = s.accepted.length := by
  have hlength := congrArg List.length inv.received_append_unread
  rw [List.length_append, List.length_map] at hlength
  exact hlength

/--
The producer alone, from `s` to `s'`.
-/
structure Fills (s s' : State L Unit Unit α) (results : List Bool) (sent refused : Nat) : Prop where
  results : results = List.replicate sent true ++ List.replicate refused false
  received : s'.received = s.received
  accepted : s'.accepted.length = s.accepted.length + sent
  full : 0 < refused → s'.accepted.length = s'.received.length + L.capacity

theorem Fills.step {s₀ : State L Unit Unit α} {results results' : List Bool} {sent refused : Nat}
    (fills : Fills s₀ s results sent refused) (inv' : Inv s') (hreceived : s'.received = s.received)
    (hstep : SendStep s s' results')
    : ∃ sent' refused', Fills s₀ s' (results ++ results') sent' refused' := by
  have hresults := fills.results
  cases hstep with
  | none haccepted =>
    refine ⟨sent, refused, ?_, hreceived.trans fills.received, ?_, ?_⟩
    . rw [List.append_nil, hresults]
    . rw [haccepted, fills.accepted]
    . rw [haccepted, hreceived]
      exact fills.full
  | accepted hlength =>
    -- there was room, so no call has been refused yet
    have hrefused : refused = 0 := by
      have hbound := inv'.holds.bound
      have hfull := fills.full
      rw [hreceived] at hbound
      omega
    subst hrefused
    refine ⟨sent + 1, 0, ?_, hreceived.trans fills.received, ?_, fun h => by contradiction⟩
    . rw [hresults, List.replicate_succ']
      simp
    . rw [hlength, fills.accepted]
      omega
  | full haccepted hfull =>
    refine ⟨sent, refused + 1, ?_, hreceived.trans fills.received, ?_, ?_⟩
    . rw [hresults, List.replicate_succ', List.append_assoc]
    . rw [haccepted, fills.accepted]
    . intro _
      rw [haccepted, hreceived]
      exact hfull

/--
The consumer alone, from `s` to `s'`.
-/
structure Drains (s s' : State L Unit Unit α) (results : List (Option (MaybeUninit α)))
    (got : List (MaybeUninit α)) (missed : Nat) : Prop where
  results : results = got.map some ++ List.replicate missed none
  accepted : s'.accepted = s.accepted
  received : s'.received = s.received ++ got
  empty : 0 < missed → s'.received.length = s'.accepted.length

theorem Drains.step {s₀ : State L Unit Unit α} {results results' : List (Option (MaybeUninit α))}
    {got : List (MaybeUninit α)} {missed : Nat} (drains : Drains s₀ s results got missed)
    (inv' : Inv s') (haccepted : s'.accepted = s.accepted) (hstep : RecvStep s s' results')
    : ∃ got' missed', Drains s₀ s' (results ++ results') got' missed' := by
  have hresults := drains.results
  cases hstep with
  | none hreceived =>
    refine ⟨got, missed, ?_, haccepted.trans drains.accepted, ?_, ?_⟩
    . rw [List.append_nil, hresults]
    . rw [hreceived, drains.received]
    . rw [hreceived, haccepted]
      exact drains.empty
  | @received value hreceived =>
    -- there was a value, so no call has missed one yet
    have hmissed : missed = 0 := by
      have hle := inv'.holds.le
      have hempty := drains.empty
      rw [hreceived, haccepted, List.length_append, List.length_singleton] at hle
      omega
    subst hmissed
    refine ⟨got ++ [value], 0, ?_, haccepted.trans drains.accepted, ?_, fun h => by contradiction⟩
    . rw [hresults]
      simp
    . rw [hreceived, drains.received, List.append_assoc]
  | empty hreceived hempty =>
    refine ⟨got, missed + 1, ?_, haccepted.trans drains.accepted, ?_, ?_⟩
    . rw [hresults, List.replicate_succ', List.append_assoc]
    . rw [hreceived, drains.received]
    . intro _
      rw [hreceived, haccepted]
      exact hempty

variable {h h' : Handles L α} {acts acts' : List (HandlesAct α)}

/--
Without a consumer the ring is left to the producer.
-/
theorem step_of_consumer_dropped {a : HandlesAct α} (hi : HandlesInv h) (hdead : h.consumer = false)
    (hstep : h.step a = some (h', es))
    : h'.consumer = false ∧ h'.ring.received = h.ring.received
        ∧ SendStep h.ring h'.ring (sendResults es) := by
  cases HandlesStep.of_step hstep with
  | producer halive hsend hring => exact ⟨hdead, sendStep_of_isSend hi.inv hi.solo hsend hring⟩
  | consumer halive hrecv hring => simp [hdead] at halive
  | dropProducer halive hidle =>
    rw [(release_frame _).1, (release_frame _).2.2]
    exact ⟨hdead, rfl, .none rfl⟩
  | dropConsumer halive hidle => simp [hdead] at halive

theorem step_of_producer_dropped {a : HandlesAct α} (hi : HandlesInv h) (hdead : h.producer = false)
    (hstep : h.step a = some (h', es))
    : h'.producer = false ∧ h'.ring.accepted = h.ring.accepted
        ∧ RecvStep h.ring h'.ring (recvResults es) := by
  cases HandlesStep.of_step hstep with
  | producer halive hsend hring => simp [hdead] at halive
  | consumer halive hrecv hring =>
    exact ⟨hdead, recvStep_of_not_isSend hi.inv hi.solo hrecv hring⟩
  | dropProducer halive hidle => simp [hdead] at halive
  | dropConsumer halive hidle =>
    rw [(release_frame _).1, (release_frame _).2.1]
    exact ⟨hdead, rfl, .none rfl⟩

/--
A producer whose consumer has been dropped is not told so: as many more of its `try_send`s as there
are free slots are accepted, all later ones are refused.
-/
theorem handles_fill (hreach : (handles L α).Reaches acts h es) (hdead : h.consumer = false)
    (hrun : (handles L α).run h acts' = some (h', es'))
    : ∃ sent refused,
        sendResults es' = List.replicate sent true ++ List.replicate refused false
          ∧ h.ring.unread.length + sent ≤ L.capacity
          ∧ (0 < refused → h.ring.unread.length + sent = L.capacity) := by
  have hi := handles_inv hreach
  have hfills := System.run_inv_from (C := fun _ _ => True)
    (fun h' es' => HandlesInv h' ∧ h'.consumer = false
      ∧ ∃ sent refused, Fills h.ring h'.ring (sendResults es') sent refused) ?_
    (System.meets_true h acts') ?_ hrun
  . rcases hfills with ⟨hi', -, sent, refused, fills⟩
    have hunread := hi.inv.length_unread
    have hbound := hi'.inv.holds.bound
    have haccepted := fills.accepted
    have hfull := fills.full
    rw [fills.received] at hbound hfull
    exact ⟨sent, refused, fills.results, by omega, by omega⟩
  . rintro u past a u' es'' ⟨hi, hdead, sent, refused, fills⟩ - hstep
    have hi' := hi.step hstep
    rcases step_of_consumer_dropped hi hdead hstep with ⟨hdead', hreceived, hsend⟩
    refine ⟨hi', hdead', ?_⟩
    rw [sendResults_append]
    exact fills.step hi'.inv hreceived hsend
  . exact ⟨hi, hdead, 0, 0, rfl, rfl, rfl, fun h => by contradiction⟩

def sendCall (value : Nat) : List (HandlesAct Nat) :=
  [.producer (.trySend () value), .producer (.loadTail ()), .producer (.write ()),
    .producer (.storeHead ())]

theorem handles_fill_twoSlots
    : ∃ h es h' es',
        (handles twoSlots Nat).Reaches (sendCall 1 ++ [.dropConsumer]) h es
          ∧
        (handles twoSlots Nat).run h
            (sendCall 2 ++ [.producer (.trySend () 3), .producer (.loadTail ())]) = some (h', es')
          ∧
        sendResults es' = [true, false]
          ∧
        ∃ sent refused,
          sendResults es' = List.replicate sent true ++ List.replicate refused false
            ∧ h.ring.unread.length + sent ≤ twoSlots.capacity
            ∧ (0 < refused → h.ring.unread.length + sent = twoSlots.capacity) := by
  have hreach := (handles twoSlots Nat).reaches_get (sendCall 1 ++ [.dropConsumer])
    (by decide +kernel)
  have hsome : ((handles twoSlots Nat).run
      (((handles twoSlots Nat).run (handles twoSlots Nat).init (sendCall 1 ++ [.dropConsumer])).get
        (by decide +kernel)).1
      (sendCall 2 ++ [.producer (.trySend () 3), .producer (.loadTail ())])).isSome := by
    decide +kernel
  have hrun := (Option.some_get hsome).symm
  exact ⟨_, _, _, _, hreach, hrun, by decide +kernel, handles_fill hreach (by decide +kernel) hrun⟩

/--
A consumer whose producer has been dropped is not told so either: its `try_recv`s return the values
that are left, in order, and from then on nothing.
-/
theorem handles_drain (hreach : (handles L α).Reaches acts h es) (hdead : h.producer = false)
    (hrun : (handles L α).run h acts' = some (h', es'))
    : ∃ got missed,
        recvResults es' = got.map some ++ List.replicate missed none
          ∧ got <+: h.ring.unread
          ∧ (0 < missed → got = h.ring.unread) := by
  have hi := handles_inv hreach
  have hdrains := System.run_inv_from (C := fun _ _ => True)
    (fun h' es' => HandlesInv h' ∧ h'.producer = false
      ∧ ∃ got missed, Drains h.ring h'.ring (recvResults es') got missed) ?_
    (System.meets_true h acts') ?_ hrun
  . rcases hdrains with ⟨hi', -, got, missed, drains⟩
    have hunread : got ++ h'.ring.unread = h.ring.unread := by
      have hvalues := hi'.inv.received_append_unread
      rw [drains.accepted, ← hi.inv.received_append_unread, drains.received,
        List.append_assoc] at hvalues
      exact List.append_cancel_left hvalues
    refine ⟨got, missed, drains.results, ⟨_, hunread⟩, ?_⟩
    intro hmissed
    have hlength := hi'.inv.length_unread
    have hempty := drains.empty hmissed
    have hnil : h'.ring.unread = [] := List.length_eq_zero_iff.mp (by omega)
    rw [← hunread, hnil, List.append_nil]
  . rintro u past a u' es'' ⟨hi, hdead, got, missed, drains⟩ - hstep
    have hi' := hi.step hstep
    rcases step_of_producer_dropped hi hdead hstep with ⟨hdead', haccepted, hrecv⟩
    refine ⟨hi', hdead', ?_⟩
    rw [recvResults_append]
    exact drains.step hi'.inv haccepted hrecv
  . exact ⟨hi, hdead, [], 0, rfl, rfl, (List.append_nil _).symm, fun h => by contradiction⟩

def recvCall : List (HandlesAct Nat) :=
  [.consumer (.tryRecv ()), .consumer (.loadHead ()), .consumer (.read ()), .consumer (.storeTail ())]

theorem handles_drain_twoSlots
    : ∃ h es h' es',
        (handles twoSlots Nat).Reaches (sendCall 1 ++ [.dropProducer]) h es
          ∧
        (handles twoSlots Nat).run h (recvCall ++ [.consumer (.tryRecv ()), .consumer (.loadHead ())])
            = some (h', es')
          ∧
        recvResults es' = [some (.init 1), none]
          ∧
        ∃ got missed,
          recvResults es' = got.map some ++ List.replicate missed none
            ∧ got <+: h.ring.unread
            ∧ (0 < missed → got = h.ring.unread) := by
  have hreach := (handles twoSlots Nat).reaches_get (sendCall 1 ++ [.dropProducer])
    (by decide +kernel)
  have hsome : ((handles twoSlots Nat).run
      (((handles twoSlots Nat).run (handles twoSlots Nat).init (sendCall 1 ++ [.dropProducer])).get
        (by decide +kernel)).1
      (recvCall ++ [.consumer (.tryRecv ()), .consumer (.loadHead ())])).isSome := by
    decide +kernel
  have hrun := (Option.some_get hsome).symm
  exact ⟨_, _, _, _, hreach, hrun, by decide +kernel, handles_drain hreach (by decide +kernel) hrun⟩

end Spsc
