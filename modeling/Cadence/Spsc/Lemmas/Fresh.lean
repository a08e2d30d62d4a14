import Cadence.Spsc.Lemmas.Stale

/-!
This module contains that the ring whose accesses take effect at once is the ring under delayed
visibility in which every load observes the newest store.
-/

open Lts Function

namespace Spsc

variable {w : Nat} {L : Layout w} {α : Type}

/--
A load of the other side's cursor observes the newest store.
-/
def Fresh (s : Delayed L α) : DelayedAct α → Prop
  | .loadTail i => i + 1 = s.tails.length
  | .loadHead i => i + 1 = s.heads.length
  | _ => True

instance (s : Delayed L α) : DecidablePred (Fresh s)
  | .loadTail i => inferInstanceAs (Decidable (i + 1 = s.tails.length))
  | .loadHead i => inferInstanceAs (Decidable (i + 1 = s.heads.length))
  | .trySend _ | .write | .storeHead | .tryRecv | .read | .storeTail => isTrue trivial

def freshCalls (L : Layout w) (α : Type)
    : System (Delayed L α) (DelayedAct α) (Event (Unit ⊕ Unit) (Op α) (Res α)) where
  init := .init L α
  step := fun s a => if Fresh s a then (delayedCalls L α).step s a else none

structure Agrees (s : State L Unit Unit α) (t : Delayed L α) : Prop where
  inv : Inv s
  solo : Solo s
  delayed : DelayedInv t
  accepted : t.accepted = s.accepted
  received : t.received = s.received
  send : t.send = s.send ()
  recv : t.recv = s.recv ()

namespace Agrees

variable {s s' : State L Unit Unit α} {t t' : Delayed L α}
variable {es : List (Event (Unit ⊕ Unit) (Op α) (Res α))}

theorem init : Agrees (State.init L Unit Unit α) (Delayed.init L α) where
  inv := .init
  solo := .init
  delayed := .init
  accepted := rfl
  received := rfl
  send := rfl
  recv := rfl

theorem getLast?_heads (agrees : Agrees s t)
    : t.heads.getLast? = some ⟨s.inner.head, s.accepted.length⟩ := by
  rw [agrees.delayed.heads, getLast?_counting, agrees.accepted, agrees.inv.holds.head]

theorem getLast?_tails (agrees : Agrees s t)
    : t.tails.getLast? = some ⟨s.inner.tail, s.received.length⟩ := by
  rw [agrees.delayed.tails, getLast?_counting, agrees.received, agrees.inv.holds.tail]

theorem readSlot {tail : BitVec w} (agrees : Agrees s t) (hpc : s.recv () = .read tail)
    : (t.readSlot tail).2 = s.inner.read tail := by
  have hdelayed := agrees.delayed.recv
  rw [agrees.recv, hpc] at hdelayed
  rcases hdelayed with ⟨-, rfl, hlt⟩
  rcases agrees.delayed.readSlot hlt with ⟨hacc, hread⟩
  have hvalue : t.accepted[t.received.length]? = s.accepted[s.received.length]? := by
    rw [agrees.accepted, agrees.received]
  have hlt' : s.received.length < s.accepted.length := by
    rw [← agrees.accepted, ← agrees.received]
    apply hacc
  rw [List.getElem?_eq_getElem hacc, List.getElem?_eq_getElem hlt', Option.some.injEq] at hvalue
  rw [hread, hvalue, agrees.received, agrees.inv.holds.read hlt']

theorem of_steps {a : Act Unit Unit α} {b : DelayedAct α} {us : List Unit} (agrees : Agrees s t)
    (hstep : s.step a = some (s', es)) (hdelayed : t.step b = some (t', us))
    (haccepted : t'.accepted = s'.accepted) (hreceived : t'.received = s'.received)
    (hsend : t'.send = s'.send ()) (hrecv : t'.recv = s'.recv ()) : Agrees s' t' where
  inv := agrees.inv.step (agrees.solo.exclusive hstep) hstep
  solo := agrees.solo.step hstep
  delayed := agrees.delayed.step hdelayed
  accepted := haccepted
  received := hreceived
  send := hsend
  recv := hrecv

theorem run_fresh {b : DelayedAct α} {us : List Unit} (hstep : t.step b = some (t', us))
    (hfresh : Fresh t b) (hevents : t.events b = es)
    : (freshCalls L α).run t [b] = some (t', es) := by
  apply System.run_one
  unfold freshCalls delayedCalls
  dsimp only
  rw [if_pos hfresh, hstep, hevents]
  rfl

theorem newest_tail (agrees : Agrees s t)
    : t.tails[s.received.length]? = some ⟨s.inner.tail, s.received.length⟩
        ∧ Fresh t (.loadTail s.received.length) ∧ t.seenTail ≤ s.received.length := by
  have hseen := agrees.delayed.seenTail
  unfold Fresh
  rw [agrees.delayed.tails, agrees.received, getElem?_counting (Nat.le_refl _),
    agrees.inv.holds.tail]
  rw [agrees.received] at hseen
  refine ⟨rfl, ?_, hseen⟩
  simp [counting]

theorem newest_head (agrees : Agrees s t)
    : t.heads[s.accepted.length]? = some ⟨s.inner.head, s.accepted.length⟩
        ∧ Fresh t (.loadHead s.accepted.length) ∧ t.seenHead ≤ s.accepted.length := by
  have hseen := agrees.delayed.seenHead.2
  unfold Fresh
  rw [agrees.delayed.heads, agrees.accepted, getElem?_counting (Nat.le_refl _),
    agrees.inv.holds.head]
  rw [agrees.accepted] at hseen
  refine ⟨rfl, ?_, hseen⟩
  simp [counting]

end Agrees

theorem ring_refines_fresh : Simulation (threads L Unit Unit α) (freshCalls L α) Agrees where
  init := .init
  step := by
    intro s t a s' es agrees hstep
    change s.step a = some (s', es) at hstep
    have hsend := agrees.send
    have hrecv := agrees.recv
    cases Step.of_step hstep with
    | @trySend u value hpc =>
      rw [hpc] at hsend
      have hdelayed : t.step (.trySend value)
          = some (t.setSend (.loadTail value s.inner.head), []) := by
        simp only [Delayed.step, hsend, agrees.getLast?_heads]
      refine ⟨_, _, Agrees.run_fresh hdelayed trivial rfl, ?_⟩
      apply agrees.of_steps hstep hdelayed agrees.accepted agrees.received rfl hrecv
    | @full u value head hpc hfull =>
      rw [hpc] at hsend
      rcases agrees.newest_tail with ⟨hmsg, hfresh, hseen⟩
      have hdelayed : t.step (.loadTail s.received.length)
          = some ({ t with seenTail := s.received.length }.setSend .idle, []) := by
        simp only [Delayed.step, hsend, hmsg, if_pos hseen, if_pos hfull]
      refine ⟨_, _, Agrees.run_fresh hdelayed hfresh ?_, ?_⟩
      . simp [Delayed.events, hsend, hmsg, hfull]
      . apply agrees.of_steps hstep hdelayed agrees.accepted agrees.received rfl hrecv
    | @room u value head hpc hroom =>
      rw [hpc] at hsend
      rcases agrees.newest_tail with ⟨hmsg, hfresh, hseen⟩
      have hdelayed : t.step (.loadTail s.received.length)
          = some ({ t with seenTail := s.received.length }.setSend (.write value head), []) := by
        simp only [Delayed.step, hsend, hmsg, if_pos hseen, if_neg hroom]
      refine ⟨_, _, Agrees.run_fresh hdelayed hfresh ?_, ?_⟩
      . simp [Delayed.events, hsend, hmsg, hroom]
      . apply agrees.of_steps hstep hdelayed agrees.accepted agrees.received rfl hrecv
    | @write u value head hpc =>
      rw [hpc] at hsend
      have hdelayed : t.step .write
          = some ({ t with writes := t.writes ++ [(L.slot head, value)] }.setSend
              (.storeHead value head), []) := by
        simp only [Delayed.step, hsend]
      refine ⟨_, _, Agrees.run_fresh hdelayed trivial rfl, ?_⟩
      apply agrees.of_steps hstep hdelayed agrees.accepted agrees.received rfl hrecv
    | @storeHead u value head hpc =>
      rw [hpc] at hsend
      have hdelayed : t.step .storeHead
          = some ({ t with
              heads := t.heads ++ [StoreMsg.mk (head + 1#w) t.writes.length]
              accepted := t.accepted ++ [value] }.setSend .idle, []) := by
        simp only [Delayed.step, hsend]
      refine ⟨_, _, Agrees.run_fresh hdelayed trivial rfl, ?_⟩
      apply agrees.of_steps hstep hdelayed _ agrees.received rfl hrecv
      exact congrArg (· ++ [value]) agrees.accepted
    | @tryRecv c hpc =>
      rw [hpc] at hrecv
      have hdelayed : t.step .tryRecv = some (t.setRecv (.loadHead s.inner.tail), []) := by
        simp only [Delayed.step, hrecv, agrees.getLast?_tails]
      refine ⟨_, _, Agrees.run_fresh hdelayed trivial rfl, ?_⟩
      apply agrees.of_steps hstep hdelayed agrees.accepted agrees.received hsend rfl
    | @empty c tail hpc hempty =>
      rw [hpc] at hrecv
      rcases agrees.newest_head with ⟨hmsg, hfresh, hseen⟩
      have hdelayed : t.step (.loadHead s.accepted.length)
          = some ({ t with seenHead := s.accepted.length }.setRecv .idle, []) := by
        simp only [Delayed.step, hrecv, hmsg, if_pos hseen, if_pos hempty]
      refine ⟨_, _, Agrees.run_fresh hdelayed hfresh ?_, ?_⟩
      . simp [Delayed.events, hrecv, hmsg, hempty]
      . apply agrees.of_steps hstep hdelayed agrees.accepted agrees.received hsend rfl
    | @nonempty c tail hpc hne =>
      rw [hpc] at hrecv
      rcases agrees.newest_head with ⟨hmsg, hfresh, hseen⟩
      have hdelayed : t.step (.loadHead s.accepted.length)
          = some ({ t with seenHead := s.accepted.length }.setRecv (.read tail), []) := by
        simp only [Delayed.step, hrecv, hmsg, if_pos hseen, if_neg hne]
      refine ⟨_, _, Agrees.run_fresh hdelayed hfresh ?_, ?_⟩
      . simp [Delayed.events, hrecv, hmsg, hne]
      . apply agrees.of_steps hstep hdelayed agrees.accepted agrees.received hsend rfl
    | @read c tail hpc =>
      have hslot := agrees.readSlot hpc
      rw [hpc] at hrecv
      have hdelayed : t.step .read
          = some ({ t with reads := t.reads ++ [(L.slot tail, (t.readSlot tail).1)] }.setRecv
              (.storeTail tail (s.inner.read tail)), []) := by
        simp only [Delayed.step, hrecv, hslot]
      refine ⟨_, _, Agrees.run_fresh hdelayed trivial rfl, ?_⟩
      apply agrees.of_steps hstep hdelayed agrees.accepted agrees.received hsend rfl
    | @storeTail c tail value hpc =>
      rw [hpc] at hrecv
      have hdelayed : t.step .storeTail
          = some ({ t with
              tails := t.tails ++ [StoreMsg.mk (tail + 1#w) t.reads.length]
              received := t.received ++ [value] }.setRecv .idle, []) := by
        simp only [Delayed.step, hrecv]
      refine ⟨_, _, Agrees.run_fresh hdelayed trivial ?_, ?_⟩
      . simp [Delayed.events, hrecv]
      . apply agrees.of_steps hstep hdelayed agrees.accepted _ hsend rfl
        exact congrArg (· ++ [value]) agrees.received

theorem freshCalls_step {t t' : Delayed L α} {b : DelayedAct α}
    {es : List (Event (Unit ⊕ Unit) (Op α) (Res α))}
    (h : (freshCalls L α).step t b = some (t', es))
    : Fresh t b ∧ (∃ us, t.step b = some (t', us)) ∧ es = t.events b := by
  unfold freshCalls at h
  dsimp only at h
  split at h
  . next hfresh =>
    refine ⟨hfresh, ?_, (delayedCalls_step h).2⟩
    unfold delayedCalls at h
    simp only [Option.map_eq_some_iff, Prod.mk.injEq] at h
    rcases h with ⟨⟨t'', us⟩, hstep, rfl, -⟩
    exact ⟨us, hstep⟩
  . contradiction

namespace Agrees

variable {s : State L Unit Unit α} {t : Delayed L α} {i : Nat} {msg : StoreMsg w}

theorem tail_of_fresh (agrees : Agrees s t) (hfresh : Fresh t (.loadTail i))
    (hmsg : t.tails[i]? = some msg) : msg.value = s.inner.tail := by
  have hlast := agrees.getLast?_tails
  unfold Fresh at hfresh
  rw [List.getLast?_eq_getElem?, ← hfresh, Nat.add_sub_cancel, hmsg, Option.some.injEq] at hlast
  rw [hlast]

theorem head_of_fresh (agrees : Agrees s t) (hfresh : Fresh t (.loadHead i))
    (hmsg : t.heads[i]? = some msg) : msg.value = s.inner.head := by
  have hlast := agrees.getLast?_heads
  unfold Fresh at hfresh
  rw [List.getLast?_eq_getElem?, ← hfresh, Nat.add_sub_cancel, hmsg, Option.some.injEq] at hlast
  rw [hlast]

end Agrees

theorem fresh_refines_ring
    : Simulation (freshCalls L α) (threads L Unit Unit α) fun t s => Agrees s t where
  init := .init
  step := by
    intro t s b t' es agrees hfreshStep
    rcases freshCalls_step hfreshStep with ⟨hfresh, ⟨us, hdelayed⟩, rfl⟩
    have hsend := agrees.send
    have hrecv := agrees.recv
    cases DelayedStep.of_step hdelayed with
    | @trySend value msg hpc hmsg =>
      rw [agrees.getLast?_heads, Option.some.injEq] at hmsg
      subst hmsg
      rw [hpc] at hsend
      have hstep : s.step (.trySend () value)
          = some ({ s with headAt := update s.headAt () s.accepted.length }.setSend ()
              (.loadTail value s.inner.head), t.events (.trySend value)) := by
        simp only [State.step, ← hsend]
        rfl
      refine ⟨[.trySend () value], _, System.run_one _ hstep, ?_⟩
      apply agrees.of_steps hstep hdelayed agrees.accepted agrees.received rfl hrecv
    | @full value head i msg hpc hmsg hseen hfull =>
      rw [hpc] at hsend
      have hevents : t.events (.loadTail i) = [.ret (.inl ()) (.sent (.error value))] := by
        simp [Delayed.events, hpc, hmsg, hfull]
      rw [agrees.tail_of_fresh hfresh hmsg] at hfull
      have hstep : s.step (.loadTail ()) = some (s.setSend () .idle, t.events (.loadTail i)) := by
        simp only [State.step, ← hsend, if_pos hfull, hevents]
      refine ⟨[.loadTail ()], _, System.run_one _ hstep, ?_⟩
      apply agrees.of_steps hstep hdelayed agrees.accepted agrees.received rfl hrecv
    | @room value head i msg hpc hmsg hseen hroom =>
      rw [hpc] at hsend
      have hevents : t.events (.loadTail i) = [] := by
        simp [Delayed.events, hpc, hmsg, hroom]
      rw [agrees.tail_of_fresh hfresh hmsg] at hroom
      have hstep : s.step (.loadTail ())
          = some (s.setSend () (.write value head), t.events (.loadTail i)) := by
        simp only [State.step, ← hsend, if_neg hroom, hevents]
      refine ⟨[.loadTail ()], _, System.run_one _ hstep, ?_⟩
      apply agrees.of_steps hstep hdelayed agrees.accepted agrees.received rfl hrecv
    | @write value head hpc =>
      rw [hpc] at hsend
      have hstep : s.step (.write ())
          = some ({ s with inner := s.inner.write head value }.setSend () (.storeHead value head),
              t.events .write) := by
        simp only [State.step, ← hsend]
        rfl
      refine ⟨[.write ()], _, System.run_one _ hstep, ?_⟩
      apply agrees.of_steps hstep hdelayed agrees.accepted agrees.received rfl hrecv
    | @storeHead value head hpc =>
      rw [hpc] at hsend
      have hstep : s.step (.storeHead ())
          = some ({ s with
              inner := s.inner.storeHead (head + 1#w)
              accepted := s.accepted ++ [value] }.setSend () .idle, t.events .storeHead) := by
        simp only [State.step, ← hsend]
        rfl
      refine ⟨[.storeHead ()], _, System.run_one _ hstep, ?_⟩
      apply agrees.of_steps hstep hdelayed _ agrees.received rfl hrecv
      exact congrArg (· ++ [value]) agrees.accepted
    | @tryRecv msg hpc hmsg =>
      rw [agrees.getLast?_tails, Option.some.injEq] at hmsg
      subst hmsg
      rw [hpc] at hrecv
      have hstep : s.step (.tryRecv ())
          = some ({ s with tailAt := update s.tailAt () s.received.length }.setRecv ()
              (.loadHead s.inner.tail), t.events .tryRecv) := by
        simp only [State.step, ← hrecv]
        rfl
      refine ⟨[.tryRecv ()], _, System.run_one _ hstep, ?_⟩
      apply agrees.of_steps hstep hdelayed agrees.accepted agrees.received hsend rfl
    | @empty tail i msg hpc hmsg hseen hempty =>
      rw [hpc] at hrecv
      have hevents : t.events (.loadHead i) = [.ret (.inr ()) (.received none)] := by
        simp [Delayed.events, hpc, hmsg, hempty]
      rw [agrees.head_of_fresh hfresh hmsg] at hempty
      have hstep : s.step (.loadHead ()) = some (s.setRecv () .idle, t.events (.loadHead i)) := by
        simp only [State.step, ← hrecv, if_pos hempty, hevents]
      refine ⟨[.loadHead ()], _, System.run_one _ hstep, ?_⟩
      apply agrees.of_steps hstep hdelayed agrees.accepted agrees.received hsend rfl
    | @nonempty tail i msg hpc hmsg hseen hne =>
      rw [hpc] at hrecv
      have hevents : t.events (.loadHead i) = [] := by
        simp [Delayed.events, hpc, hmsg, hne]
      rw [agrees.head_of_fresh hfresh hmsg] at hne
      have hstep : s.step (.loadHead ())
          = some (s.setRecv () (.read tail), t.events (.loadHead i)) := by
        simp only [State.step, ← hrecv, if_neg hne, hevents]
      refine ⟨[.loadHead ()], _, System.run_one _ hstep, ?_⟩
      apply agrees.of_steps hstep hdelayed agrees.accepted agrees.received hsend rfl
    | @read tail hpc =>
      rw [hpc] at hrecv
      have hslot := agrees.readSlot hrecv.symm
      have hstep : s.step (.read ())
          = some (s.setRecv () (.storeTail tail (s.inner.read tail)), t.events .read) := by
        simp only [State.step, ← hrecv]
        rfl
      refine ⟨[.read ()], _, System.run_one _ hstep, ?_⟩
      apply agrees.of_steps hstep hdelayed agrees.accepted agrees.received hsend
      exact congrArg (RecvPc.storeTail tail) hslot
    | @storeTail tail value hpc =>
      rw [hpc] at hrecv
      have hevents : t.events .storeTail = [.ret (.inr ()) (.received (some value))] := by
        simp [Delayed.events, hpc]
      have hstep : s.step (.storeTail ())
          = some ({ s with
              inner := s.inner.storeTail (tail + 1#w)
              received := s.received ++ [value] }.setRecv () .idle, t.events .storeTail) := by
        simp only [State.step, ← hrecv, hevents]
      refine ⟨[.storeTail ()], _, System.run_one _ hstep, ?_⟩
      apply agrees.of_steps hstep hdelayed agrees.accepted _ hsend rfl
      exact congrArg (· ++ [value]) agrees.received

/--
The two models of the ring have the same histories if no load is stale.
-/
theorem fresh_histories (es : List (Event (Unit ⊕ Unit) (Op α) (Res α)))
    : (∃ acts s, (threads L Unit Unit α).Reaches acts s es)
        ↔
      ∃ acts t, (freshCalls L α).Reaches acts t es := by
  constructor
  . rintro ⟨acts, s, hreach⟩
    rcases ring_refines_fresh.trace hreach with ⟨acts', t, hreach', -⟩
    exact ⟨acts', t, hreach'⟩
  . rintro ⟨acts, t, hreach⟩
    rcases fresh_refines_ring.trace hreach with ⟨acts', s, hreach', -⟩
    exact ⟨acts', s, hreach'⟩

end Spsc
