import Cadence.Spsc.Impl.Blocking
import Cadence.Spsc.Lemmas.Linearizable

/-!
This module contains what the blocking calls guarantee: every value is enqueued once and in order,
the two threads never wait for each other, and a finished transfer is complete.
-/

open Lts Function

namespace Spsc

variable {w : Nat} {L : Layout w} {α : Type}
variable {ring ring' : Spsc.State L Unit Unit α} {sender sender' : Sender α}
variable {receiver receiver' : Receiver} {es : List (Output α)} {values : List α}

def SendPc.value? : SendPc w α → Option α
  | .idle => none
  | .loadTail value _ | .write value _ | .storeHead value _ => some value

theorem Sender.Step.ring_eq_or (h : Sender.Step ring sender ring' sender' es)
    : ring' = ring ∨ ∃ a es', ring.step a = some (ring', es') := by
  cases h with
  | wait => exact .inl rfl
  | @trySend value rest hwaits hvalues hpc =>
    refine .inr ⟨.trySend () value, ?_⟩
    simp [State.step, hpc]
  | full hwaits hvalues hpc hfull =>
    refine .inr ⟨.loadTail (), ?_⟩
    simp [State.step, hpc, hfull]
  | room hwaits hvalues hpc hroom =>
    refine .inr ⟨.loadTail (), ?_⟩
    simp [State.step, hpc, hroom]
  | write hwaits hvalues hpc =>
    refine .inr ⟨.write (), ?_⟩
    simp [State.step, hpc]
  | storeHead hwaits hvalues hpc =>
    refine .inr ⟨.storeHead (), ?_⟩
    simp [State.step, hpc]

def Output.sent? : Output α → Option α
  | .sent value => some value
  | _ => none

def Output.received? : Output α → Option (MaybeUninit α)
  | .received value => some value
  | _ => none

theorem Sender.Step.received (h : Sender.Step ring sender ring' sender' es)
    : ring'.received = ring.received ∧ es.filterMap Output.received? = [] := by
  cases h <;> exact ⟨rfl, rfl⟩

theorem Sender.Step.recv (h : Sender.Step ring sender ring' sender' es)
    : ring'.recv = ring.recv := by
  cases h <;> rfl

theorem Sender.Step.of_nil (h : Sender.Step ring sender ring' sender' es)
    (hvalues : sender.values = []) : ring' = ring ∧ sender'.values = [] := by
  cases h with
  | wait => exact ⟨rfl, hvalues⟩
  | _ hwaits hcons =>
    rw [hvalues] at hcons
    contradiction

theorem Receiver.Step.ring_eq_or (h : Receiver.Step ring receiver ring' receiver' es)
    : ring' = ring ∨ ∃ a es', ring.step a = some (ring', es') := by
  cases h with
  | wait => exact .inl rfl
  | tryRecv hwaits hmissing hpc =>
    refine .inr ⟨.tryRecv (), ?_⟩
    simp [State.step, hpc]
  | empty hwaits hmissing hpc hempty =>
    refine .inr ⟨.loadHead (), ?_⟩
    simp [State.step, hpc, hempty]
  | nonempty hwaits hmissing hpc hne =>
    refine .inr ⟨.loadHead (), ?_⟩
    simp [State.step, hpc, hne]
  | read hwaits hmissing hpc =>
    refine .inr ⟨.read (), ?_⟩
    simp [State.step, hpc]
  | storeTail hwaits hmissing hpc =>
    refine .inr ⟨.storeTail (), ?_⟩
    simp [State.step, hpc]

theorem Receiver.Step.send (h : Receiver.Step ring receiver ring' receiver' es)
    : ring'.send = ring.send := by
  cases h <;> rfl

theorem Receiver.Step.accepted (h : Receiver.Step ring receiver ring' receiver' es)
    : ring'.accepted = ring.accepted ∧ es.filterMap Output.sent? = [] := by
  cases h <;> exact ⟨rfl, rfl⟩

theorem Receiver.Step.received (h : Receiver.Step ring receiver ring' receiver' es)
    : ring'.received = ring.received ++ es.filterMap Output.received? := by
  cases h with
  | storeTail => rfl
  | _ => exact (List.append_nil _).symm

theorem Receiver.Step.missing (h : Receiver.Step ring receiver ring' receiver' es)
    : ring'.received.length + receiver'.missing = ring.received.length + receiver.missing := by
  cases h with
  | storeTail hwaits hmissing hpc =>
    rw [hmissing]
    simp
    omega
  | _ => rfl

/--
The invariant of a sender: what the ring has accepted and what is left to send are `values`, and the
attempt in progress carries the first value that is left.
-/
structure Sending (values : List α) (ring : State L Unit Unit α) (sender : Sender α) : Prop where
  inv : Inv ring
  solo : Solo ring
  carried : ∀ value ∈ (ring.send ()).value?, ∃ rest, sender.values = value :: rest
  sent : ring.accepted ++ sender.values = values

namespace Sending

theorem init (L : Layout w) (strategy : WaitStrategy) (values : List α)
    : Sending values (.init L Unit Unit α) ⟨strategy, values, false⟩ where
  inv := .init
  solo := .init
  carried := fun _ h => absurd h (Option.not_mem_none _)
  sent := rfl

theorem ring_step {a : Act Unit Unit α} {es' : List (Event (Unit ⊕ Unit) (Op α) (Res α))}
    (sending : Sending values ring sender) (hstep : ring.step a = some (ring', es'))
    : Inv ring' ∧ Solo ring' :=
  ⟨sending.inv.step (sending.solo.exclusive hstep) hstep, sending.solo.step hstep⟩

theorem step (sending : Sending values ring sender) (h : Sender.Step ring sender ring' sender' es)
    : Sending values ring' sender' := by
  have hring : Inv ring' ∧ Solo ring' := by
    rcases h.ring_eq_or with rfl | ⟨a, es', hstep⟩
    . exact ⟨sending.inv, sending.solo⟩
    . exact sending.ring_step hstep
  cases h with
  | wait => exact { sending with }
  | trySend hwaits hvalues hpc =>
    exact {
      inv := hring.1
      solo := hring.2
      carried := by
        intro value hvalue
        simp only [State.setSend_send, update_self, SendPc.value?, Option.mem_some_iff] at hvalue
        subst hvalue
        exact ⟨_, hvalues⟩
      sent := sending.sent
    }
  | @full value rest value' head hwaits hvalues hpc hfull =>
    -- `try_send` hands back the value it was called with
    rcases sending.carried value' (by rw [hpc]; rfl) with ⟨rest', hcarried⟩
    rw [hvalues, List.cons.injEq] at hcarried
    exact {
      inv := hring.1
      solo := hring.2
      carried := fun value h => absurd h (Option.not_mem_none _)
      sent := by
        rw [← sending.sent, hvalues, ← hcarried.1]
        rfl
    }
  | @room value rest value' head hwaits hvalues hpc hroom =>
    exact {
      inv := hring.1
      solo := hring.2
      carried := by
        intro value hvalue
        apply sending.carried value
        rw [hpc]
        exact hvalue
      sent := sending.sent
    }
  | @write value rest value' head hwaits hvalues hpc =>
    exact {
      inv := hring.1
      solo := hring.2
      carried := by
        intro value hvalue
        apply sending.carried value
        rw [hpc]
        exact hvalue
      sent := sending.sent
    }
  | @storeHead value rest value' head hwaits hvalues hpc =>
    rcases sending.carried value' (by rw [hpc]; rfl) with ⟨rest', hcarried⟩
    rw [hvalues, List.cons.injEq] at hcarried
    exact {
      inv := hring.1
      solo := hring.2
      carried := fun value h => absurd h (Option.not_mem_none _)
      sent := by
        rw [← sending.sent, hvalues, ← hcarried.1]
        simp
    }

theorem accepted (sending : Sending values ring sender)
    (h : Sender.Step ring sender ring' sender' es)
    : ring'.accepted = ring.accepted ++ es.filterMap Output.sent? := by
  cases h with
  | @storeHead value rest value' head hwaits hvalues hpc =>
    rcases sending.carried value' (by rw [hpc]; rfl) with ⟨rest', hcarried⟩
    rw [hvalues, List.cons.injEq] at hcarried
    rw [hcarried.1]
    rfl
  | _ => exact (List.append_nil _).symm

theorem recv (sending : Sending values ring sender)
    (hring : ring' = ring ∨ ∃ a es', ring.step a = some (ring', es'))
    (hsend : ring'.send = ring.send) (haccepted : ring'.accepted = ring.accepted)
    : Sending values ring' sender := by
  rcases hring with rfl | ⟨a, es', hstep⟩
  . exact sending
  . exact {
      inv := (sending.ring_step hstep).1
      solo := (sending.ring_step hstep).2
      carried := by
        rw [hsend]
        exact sending.carried
      sent := by
        rw [haccepted]
        exact sending.sent
    }

theorem length_eq (sending : Sending values ring sender)
    : ring.accepted.length + sender.values.length = values.length := by
  rw [← sending.sent, List.length_append]

theorem not_isFull (sending : Sending values ring sender)
    (hroom : ring.accepted.length < ring.received.length + L.capacity)
    : ¬ L.isFull ring.inner.head ring.inner.tail := by
  rw [sending.inv.holds.isFull_iff]
  omega

/--
Nobody else stores `head`, so the word that the producer loaded earlier is still the one in memory.
-/
theorem head_eq {value : α} {head : BitVec w} (sending : Sending values ring sender)
    (hpc : ring.send () = .loadTail value head) : head = ring.inner.head := by
  have hsend := sending.inv.send ()
  rw [hpc] at hsend
  rw [sending.inv.holds.head, hsend.1, sending.solo.send (by simp [hpc])]

theorem tail_eq {tail : BitVec w} (sending : Sending values ring sender)
    (hpc : ring.recv () = .loadHead tail) : tail = ring.inner.tail := by
  have hrecv := sending.inv.recv ()
  rw [hpc] at hrecv
  rw [sending.inv.holds.tail, hrecv.1, sending.solo.recv (by simp [hpc])]

theorem complete (sending : Sending values ring sender) (hvalues : sender.values = [])
    (hreceived : ring.received.length = values.length)
    : ring.received = values.map .init ∧ ring.unread = [] := by
  have haccepted : ring.accepted = values := by
    have := sending.sent
    rwa [hvalues, List.append_nil] at this
  have hall := sending.inv.received_append_unread
  rw [haccepted] at hall
  have hunread : ring.unread = [] := by
    have := congrArg List.length hall
    rw [List.length_append, List.length_map] at this
    apply List.eq_nil_of_length_eq_zero
    omega
  rw [hunread, List.append_nil] at hall
  exact ⟨hall, hunread⟩

end Sending

namespace Blocking

variable {s s' : State L α} {strategy : Side → WaitStrategy}

structure Inv (values : List α) (s : State L α) (es : List (Output α)) : Prop where
  sending : Sending values s.ring s.sender
  missing : s.ring.received.length + s.receiver.missing = values.length
  sent : es.filterMap Output.sent? = s.ring.accepted
  received : es.filterMap Output.received? = s.ring.received

theorem Inv.init (L : Layout w) (strategy : Side → WaitStrategy) (values : List α)
    : Inv values (.init L strategy values) [] where
  sending := .init L _ values
  missing := Nat.zero_add _
  sent := rfl
  received := rfl

inductive Step (s : State L α) : Side → State L α → List (Output α) → Prop where
  | producer {ring' sender' es'} (h : Sender.Step s.ring s.sender ring' sender' es')
    : Step s .producer { s with ring := ring', sender := sender' } es'
  | consumer {ring' receiver' es'} (h : Receiver.Step s.ring s.receiver ring' receiver' es')
    : Step s .consumer { s with ring := ring', receiver := receiver' } es'

theorem step_eq_some_iff {side : Side} : s.step side = some (s', es) ↔ Step s side s' es := by
  constructor
  . intro h
    cases side with
    | producer =>
      simp only [State.step] at h
      split at h
      . next hstep =>
        simp only [Option.some.injEq, Prod.mk.injEq] at h
        rcases h with ⟨rfl, rfl⟩
        exact .producer (Sender.step_eq_some_iff.mp hstep)
      . contradiction
    | consumer =>
      simp only [State.step] at h
      split at h
      . next hstep =>
        simp only [Option.some.injEq, Prod.mk.injEq] at h
        rcases h with ⟨rfl, rfl⟩
        exact .consumer (Receiver.step_eq_some_iff.mp hstep)
      . contradiction
  . intro h
    cases h with
    | producer h => simp [State.step, Sender.step_eq_some_iff.mpr h]
    | consumer h => simp [State.step, Receiver.step_eq_some_iff.mpr h]

theorem Inv.step {past : List (Output α)} {side : Side} (inv : Inv values s past)
    (hstep : s.step side = some (s', es)) : Inv values s' (past ++ es) := by
  cases step_eq_some_iff.mp hstep with
  | producer h =>
    exact {
      sending := inv.sending.step h
      missing := by
        rw [h.received.1]
        exact inv.missing
      sent := by
        rw [List.filterMap_append, inv.sent, inv.sending.accepted h]
      received := by
        rw [List.filterMap_append, inv.received, h.received.1, h.received.2, List.append_nil]
    }
  | consumer h =>
    exact {
      sending := inv.sending.recv h.ring_eq_or h.send h.accepted.1
      missing := by
        rw [h.missing]
        exact inv.missing
      sent := by
        rw [List.filterMap_append, inv.sent, h.accepted.1, h.accepted.2, List.append_nil]
      received := by
        rw [List.filterMap_append, inv.received, h.received]
    }

theorem blocking_inv {acts : List Side}
    (hreach : (blocking L strategy values).Reaches acts s es) : Inv values s es := by
  apply System.reaches_inv (Inv values) _ (Inv.init L strategy values) hreach
  intro s past side s' es inv hstep
  apply inv.step hstep

/--
Run alone from `s`, the thread returns from its current call, and no attempt fails on the way: the
attempt it is in succeeds, or the next one if it is in none.
-/
def Completes (strategy : Side → WaitStrategy) (values : List α) (s : State L α) : Side → Prop
  | .producer => ∃ n s' value,
    (blocking L strategy values).run s (List.replicate n .producer) = some (s', [.sent value])
      ∧ s.sender.values = value :: s'.sender.values
  | .consumer => ∃ n s' value,
    (blocking L strategy values).run s (List.replicate n .consumer) = some (s', [.received value])
      ∧ s.receiver.missing = s'.receiver.missing + 1

theorem run_one {side : Side} (h : Step s side s' es)
    : (blocking L strategy values).run s (List.replicate 1 side) = some (s', es) := by
  rw [List.replicate_one]
  apply System.run_one _ (step_eq_some_iff.mpr h)

theorem Completes.send (h : Sender.Step s.ring s.sender ring' sender' [])
    (hvalues : sender'.values = s.sender.values)
    (hcompletes : Completes strategy values { s with ring := ring', sender := sender' } .producer)
    : Completes strategy values s .producer := by
  rcases hcompletes with ⟨n, s', value, hrun, hvalue⟩
  refine ⟨n + 1, s', value, ?_, ?_⟩
  . rw [List.replicate_succ, System.run_cons_eq_some]
    exact ⟨_, _, _, step_eq_some_iff.mpr (.producer h), hrun, rfl⟩
  . rw [← hvalues]
    exact hvalue

theorem Completes.recv (h : Receiver.Step s.ring s.receiver ring' receiver' [])
    (hmissing : receiver'.missing = s.receiver.missing)
    (hcompletes : Completes strategy values { s with ring := ring', receiver := receiver' } .consumer)
    : Completes strategy values s .consumer := by
  rcases hcompletes with ⟨n, s', value, hrun, hvalue⟩
  refine ⟨n + 1, s', value, ?_, ?_⟩
  . rw [List.replicate_succ, System.run_cons_eq_some]
    exact ⟨_, _, _, step_eq_some_iff.mpr (.consumer h), hrun, rfl⟩
  . rw [← hmissing]
    exact hvalue

section Producer

variable {value value' : α} {rest : List α} {head : BitVec w}

theorem completes_of_storeHead (hwaits : s.sender.waits = false)
    (hvalues : s.sender.values = value :: rest) (hpc : s.ring.send () = .storeHead value' head)
    : Completes strategy values s .producer := by
  exact ⟨1, _, value, run_one (.producer (.storeHead hwaits hvalues hpc)), hvalues⟩

theorem completes_of_write (hwaits : s.sender.waits = false)
    (hvalues : s.sender.values = value :: rest) (hpc : s.ring.send () = .write value' head)
    : Completes strategy values s .producer := by
  apply Completes.send (.write hwaits hvalues hpc) rfl
  apply completes_of_storeHead
  . exact hwaits
  . exact hvalues
  . rfl

theorem completes_of_loadTail (hwaits : s.sender.waits = false)
    (hvalues : s.sender.values = value :: rest) (hpc : s.ring.send () = .loadTail value' head)
    (hroom : ¬ L.isFull head s.ring.inner.tail) : Completes strategy values s .producer := by
  apply Completes.send (.room hwaits hvalues hpc hroom) rfl
  apply completes_of_write
  . exact hwaits
  . exact hvalues
  . rfl

theorem completes_of_idle (hwaits : s.sender.waits = false)
    (hvalues : s.sender.values = value :: rest) (hpc : s.ring.send () = .idle)
    (hroom : ¬ L.isFull s.ring.inner.head s.ring.inner.tail)
    : Completes strategy values s .producer := by
  apply Completes.send (.trySend hwaits hvalues hpc) rfl
  apply completes_of_loadTail
  . exact hwaits
  . exact hvalues
  . rfl
  . exact hroom

/--
A producer that has something left to send completes as soon as the ring has room, wherever it is.
-/
theorem Inv.producer_completes (inv : Inv values s es) (hvalues : s.sender.values = value :: rest)
    (hroom : s.ring.accepted.length < s.ring.received.length + L.capacity)
    : Completes strategy values s .producer := by
  have hfull := inv.sending.not_isFull hroom
  have hhead := @inv.sending.head_eq
  have hready : ∀ s' : State L α, s'.ring = s.ring → s'.sender.values = s.sender.values →
      s'.sender.waits = false → Completes strategy values s' .producer := by
    intro s' hring hsame hwaits
    have hvalues' := hsame.trans hvalues
    rw [← hring] at hfull hhead
    cases hpc : s'.ring.send () with
    | idle => exact completes_of_idle hwaits hvalues' hpc hfull
    | loadTail value' head =>
      apply completes_of_loadTail hwaits hvalues' hpc
      rw [hhead _ _ hpc]
      exact hfull
    | write value' head => exact completes_of_write hwaits hvalues' hpc
    | storeHead value' head => exact completes_of_storeHead hwaits hvalues' hpc
  cases hwaits : s.sender.waits with
  | false => exact hready s rfl rfl hwaits
  | true =>
    apply Completes.send (.wait hwaits) rfl
    exact hready _ rfl rfl rfl

end Producer

section Consumer

variable {missing : Nat} {value : MaybeUninit α} {tail : BitVec w}

theorem completes_of_storeTail (hwaits : s.receiver.waits = false)
    (hmissing : s.receiver.missing = missing + 1) (hpc : s.ring.recv () = .storeTail tail value)
    : Completes strategy values s .consumer := by
  exact ⟨1, _, value, run_one (.consumer (.storeTail hwaits hmissing hpc)), hmissing⟩

theorem completes_of_read (hwaits : s.receiver.waits = false)
    (hmissing : s.receiver.missing = missing + 1) (hpc : s.ring.recv () = .read tail)
    : Completes strategy values s .consumer := by
  apply Completes.recv (.read hwaits hmissing hpc) rfl
  apply completes_of_storeTail
  . exact hwaits
  . exact hmissing
  . rfl

theorem completes_of_loadHead (hwaits : s.receiver.waits = false)
    (hmissing : s.receiver.missing = missing + 1) (hpc : s.ring.recv () = .loadHead tail)
    (hne : tail ≠ s.ring.inner.head) : Completes strategy values s .consumer := by
  apply Completes.recv (.nonempty hwaits hmissing hpc hne) rfl
  apply completes_of_read
  . exact hwaits
  . exact hmissing
  . rfl

theorem completes_of_resting (hwaits : s.receiver.waits = false)
    (hmissing : s.receiver.missing = missing + 1) (hpc : s.ring.recv () = .idle)
    (hne : s.ring.inner.tail ≠ s.ring.inner.head) : Completes strategy values s .consumer := by
  apply Completes.recv (.tryRecv hwaits hmissing hpc) rfl
  apply completes_of_loadHead
  . exact hwaits
  . exact hmissing
  . rfl
  . exact hne

theorem Inv.consumer_completes (inv : Inv values s es) (hmissing : s.receiver.missing = missing + 1)
    (hlt : s.ring.received.length < s.ring.accepted.length)
    : Completes strategy values s .consumer := by
  have hne : s.ring.inner.tail ≠ s.ring.inner.head := by
    rw [Ne, inv.sending.inv.holds.isEmpty_iff]
    omega
  have htail := @inv.sending.tail_eq
  have hready : ∀ s' : State L α, s'.ring = s.ring → s'.receiver.missing = s.receiver.missing →
      s'.receiver.waits = false → Completes strategy values s' .consumer := by
    intro s' hring hsame hwaits
    have hmissing' := hsame.trans hmissing
    rw [← hring] at hne htail
    cases hpc : s'.ring.recv () with
    | idle => exact completes_of_resting hwaits hmissing' hpc hne
    | loadHead tail =>
      apply completes_of_loadHead hwaits hmissing' hpc
      rw [htail _ hpc]
      exact hne
    | read tail => exact completes_of_read hwaits hmissing' hpc
    | storeTail tail value => exact completes_of_storeTail hwaits hmissing' hpc
  cases hwaits : s.receiver.waits with
  | false => exact hready s rfl rfl hwaits
  | true =>
    apply Completes.recv (.wait hwaits) rfl
    exact hready _ rfl rfl rfl

end Consumer

/--
The two threads cannot wait for each other: a producer with something left to send finds room, or
the ring is full and the consumer finds a value.
-/
theorem Inv.progress (inv : Inv values s es) (h : s.sender.values ≠ [] ∨ s.receiver.missing ≠ 0)
    : Completes strategy values s .producer ∨ Completes strategy values s .consumer := by
  have hlength := inv.sending.length_eq
  have hmissing := inv.missing
  have hpos := L.capacity_pos
  by_cases hsend : s.sender.values ≠ []
      ∧ s.ring.accepted.length < s.ring.received.length + L.capacity
  . rcases List.exists_cons_of_ne_nil hsend.1 with ⟨value, rest, hvalues⟩
    exact .inl (inv.producer_completes hvalues hsend.2)
  . -- the ring is full, or all has been sent and something of it is missing
    have hlt : s.ring.received.length < s.ring.accepted.length := by
      by_cases hvalues : s.sender.values = []
      . have := h.resolve_left (not_not_intro hvalues)
        rw [hvalues, List.length_nil] at hlength
        omega
      . have := not_and.mp hsend hvalues
        omega
    rcases Nat.exists_eq_succ_of_ne_zero (n := s.receiver.missing) (by omega) with ⟨missing, hsucc⟩
    exact .inr (inv.consumer_completes hsucc hlt)

end Blocking

/--
A transfer of `values`, in a state reached with the outputs `es`: the values of the sends that have
returned are in the ring once and in order, those of the others are not; some thread can complete
its call while there is one; and at the end everything has been received.
-/
structure Transfer (strategy : Side → WaitStrategy) (values : List α) (s : Blocking.State L α)
    (es : List (Output α)) : Prop where
  sent : s.ring.accepted ++ s.sender.values = values
  returned : es.filterMap Output.sent? = s.ring.accepted
  progress : s.sender.values ≠ [] ∨ s.receiver.missing ≠ 0 →
    Blocking.Completes strategy values s .producer ∨ Blocking.Completes strategy values s .consumer
  complete : s.sender.values = [] → s.receiver.missing = 0 →
    es.filterMap Output.received? = values.map .init ∧ s.ring.unread = []

theorem blocking_transfers {s : Blocking.State L α} {strategy : Side → WaitStrategy}
    {acts : List Side} (hreach : (blocking L strategy values).Reaches acts s es)
    : Transfer strategy values s es := by
  have inv := Blocking.blocking_inv hreach
  exact {
    sent := inv.sending.sent
    returned := inv.sent
    progress := inv.progress
    complete := by
      intro hvalues hmissing
      have hreceived := inv.missing
      rw [hmissing, Nat.add_zero] at hreceived
      rw [inv.received]
      apply inv.sending.complete hvalues hreceived
  }

theorem blocking_transfers_three
    : ∃ s es,
        (blocking twoSlots (fun _ => .yield) [10, 20, 30]).Reaches
            (List.replicate 10 .producer ++ List.replicate 4 Side.consumer
              ++ (List.replicate 5 Side.producer ++ List.replicate 8 Side.consumer)) s es
          ∧
        (.waits .producer .yield ∈ es ∧ s.sender.values = [] ∧ s.receiver.missing = 0)
          ∧
        Transfer (fun _ => .yield) [10, 20, 30] s es := by
  have hreach := (blocking twoSlots (fun _ => .yield) [10, 20, 30]).reaches_get
    (List.replicate 10 .producer ++ List.replicate 4 .consumer ++ List.replicate 5 .producer
      ++ List.replicate 8 .consumer) (by decide)
  exact ⟨_, _, hreach, by decide, blocking_transfers hreach⟩

end Spsc
