import Cadence.Lts.History
import Cadence.Spsc.Impl.Threads

/-!
This module contains what the calls of the threads on a ring have been given and what they have
returned.
-/

open Lts Function

namespace Spsc

variable {w : Nat} {L : Layout w} {τ κ α : Type}

def SendPc.op : SendPc w α → Option (Op α)
  | .idle => none
  | .loadTail value _ | .write value _ | .storeHead value _ => some (.send value)

def RecvPc.op : RecvPc w α → Option (Op α)
  | .idle => none
  | .loadHead _ | .read _ | .storeTail .. => some .recv

def Act.call? : Act τ κ α → Option ((τ ⊕ κ) × Op α)
  | .trySend t value => some (.inl t, .send value)
  | .tryRecv c => some (.inr c, .recv)
  | _ => none

def Op.value? : Op α → Option α
  | .send value => some value
  | .recv => none

/--
What `try_send` and `try_recv` may return: an `Err` has the value that was to be sent.
-/
inductive Answers : Op α → Res α → Prop where
  | accepted (value : α) : Answers (.send value) (.sent (.ok ()))
  | handedBack (value : α) : Answers (.send value) (.sent (.error value))
  | returned (value : MaybeUninit α) : Answers .recv (.received (some value))
  | empty : Answers .recv (.received none)

section Calls

variable {ι : Type} [DecidableEq ι]

def accepted? : ι × Op α × Res α → Option α
  | (_, .send value, .sent (.ok ())) => some value
  | _ => none

def handedBack? : ι × Op α × Res α → Option α
  | (_, .send _, .sent (.error value)) => some value
  | _ => none

def returned? : ι × Op α × Res α → Option (MaybeUninit α)
  | (_, .recv, .received (some value)) => some value
  | _ => none

variable (es : List (Event ι (Op α) (Res α)))

/--
The values whose `try_send` has returned `Ok`, in the order of the returns.
-/
def accepted : List α :=
  (completed es).filterMap accepted?

/--
The values that calls of `try_send` have returned in `Err`.
-/
def handedBack : List α :=
  (completed es).filterMap handedBack?

/--
What calls of `try_recv` have returned in `Some`.
-/
def returned : List (MaybeUninit α) :=
  (completed es).filterMap returned?

omit [DecidableEq ι] in
/--
A value that was to be sent has been accepted or handed back.
-/
theorem handedBack_append_accepted {log : List (ι × Op α × Res α)}
    (hanswers : ∀ call ∈ log, Answers call.2.1 call.2.2)
    : (log.filterMap handedBack? ++ log.filterMap accepted?).Perm (log.filterMap (·.2.1.value?)) := by
  induction log with
  | nil => exact .refl _
  | cons call log ih =>
    have hcall := hanswers call List.mem_cons_self
    specialize ih fun other hother => hanswers other (List.mem_cons_of_mem _ hother)
    rcases call with ⟨t, op, res⟩
    cases hcall with
    | accepted value => exact List.perm_middle.trans (ih.cons value)
    | handedBack value => exact ih.cons value
    | returned value => exact ih
    | empty => exact ih

end Calls

/--
The calls in which the threads of a ring are.
-/
def State.pending (s : State L τ κ α) : τ ⊕ κ → Option (Op α)
  | .inl t => (s.send t).op
  | .inr c => (s.recv c).op

variable [DecidableEq τ] [DecidableEq κ]

theorem State.pending_setSend (s : State L τ κ α) (t : τ) (pc : SendPc w α)
    : (s.setSend t pc).pending = update s.pending (.inl t) pc.op := by
  ext1 side
  cases side with
  | inl t' =>
    by_cases ht : t' = t
    . subst ht
      simp [pending]
    . simp [pending, ht]
  | inr c => rfl

theorem State.pending_setRecv (s : State L τ κ α) (c : κ) (pc : RecvPc w α)
    : (s.setRecv c pc).pending = update s.pending (.inr c) pc.op := by
  ext1 side
  cases side with
  | inl t => rfl
  | inr c' =>
    by_cases hc : c' = c
    . subst hc
      simp [pending]
    . simp [pending, hc]

/--
The history of a ring agrees with the calls made and with the lists that its state keeps.
-/
structure Accounts (acts : List (Act τ κ α)) (s : State L τ κ α)
    (es : List (Event (τ ⊕ κ) (Op α) (Res α))) : Prop where
  calls : calls es = acts.filterMap Act.call?
  pending : (record es).pending = s.pending
  answers : ∀ call ∈ completed es, Answers call.2.1 call.2.2
  accepted : accepted es = s.accepted
  returned : returned es = s.received

namespace Accounts

variable {acts : List (Act τ κ α)} {a : Act τ κ α} {s s' : State L τ κ α}
variable {es : List (Event (τ ⊕ κ) (Op α) (Res α))}

theorem init : Accounts [] (State.init L τ κ α) [] where
  calls := rfl
  pending := by
    ext1 side
    cases side <;> rfl
  answers := fun call h => by contradiction
  accepted := rfl
  returned := rfl

theorem silent (acc : Accounts acts s es) (hcall : a.call? = none) (hpending : s'.pending = s.pending)
    (haccepted : s'.accepted = s.accepted) (hreceived : s'.received = s.received)
    : Accounts (acts ++ [a]) s' (es ++ []) where
  calls := by
    rw [List.append_nil, acc.calls, List.filterMap_append]
    simp [hcall]
  pending := by
    rw [List.append_nil, hpending]
    exact acc.pending
  answers := by
    rw [List.append_nil]
    exact acc.answers
  accepted := by
    rw [List.append_nil, haccepted]
    exact acc.accepted
  returned := by
    rw [List.append_nil, hreceived]
    exact acc.returned

theorem call (acc : Accounts acts s es) {side : τ ⊕ κ} {op : Op α} (hcall : a.call? = some (side, op))
    (hpending : s'.pending = update s.pending side (some op))
    (haccepted : s'.accepted = s.accepted) (hreceived : s'.received = s.received)
    : Accounts (acts ++ [a]) s' (es ++ [.call side op]) where
  calls := by
    rw [calls_append, acc.calls, List.filterMap_append, List.filterMap_cons, hcall]
    rfl
  pending := by
    rw [record_call, hpending, ← acc.pending]
  answers := by
    rw [completed_call]
    exact acc.answers
  accepted := by
    unfold Spsc.accepted
    rw [completed_call, haccepted]
    exact acc.accepted
  returned := by
    unfold Spsc.returned
    rw [completed_call, hreceived]
    exact acc.returned

theorem ret (acc : Accounts acts s es) {side : τ ⊕ κ} {op : Op α} {res : Res α}
    (hcall : a.call? = none) (hop : s.pending side = some op) (hanswers : Answers op res)
    (hpending : s'.pending = update s.pending side none)
    (haccepted : s'.accepted = s.accepted ++ [(side, op, res)].filterMap accepted?)
    (hreceived : s'.received = s.received ++ [(side, op, res)].filterMap returned?)
    : Accounts (acts ++ [a]) s' (es ++ [.ret side res]) := by
  have hside : (record es).pending side = some op := by
    rw [acc.pending, hop]
  have hcompleted := completed_ret es side res hside
  exact {
    calls := by
      rw [calls_append, acc.calls, List.filterMap_append, List.filterMap_cons, hcall]
      rfl
    pending := by
      rw [record_ret es side res hside, hpending, ← acc.pending]
    answers := by
      rw [hcompleted]
      intro call hmem
      rcases List.mem_append.mp hmem with hmem | hmem
      . exact acc.answers call hmem
      . rw [List.mem_singleton] at hmem
        subst hmem
        exact hanswers
    accepted := by
      unfold Spsc.accepted
      rw [hcompleted, List.filterMap_append, haccepted, ← acc.accepted]
      rfl
    returned := by
      unfold Spsc.returned
      rw [hcompleted, List.filterMap_append, hreceived, ← acc.returned]
      rfl
  }

theorem step {es' : List (Event (τ ⊕ κ) (Op α) (Res α))} (acc : Accounts acts s es)
    (hstep : s.step a = some (s', es')) : Accounts (acts ++ [a]) s' (es ++ es') := by
  cases Step.of_step hstep with
  | trySend hpc => exact acc.call rfl (State.pending_setSend _ _ _) rfl rfl
  | @full t value head hpc hfull =>
    refine acc.ret rfl ?_ (.handedBack value) (State.pending_setSend _ _ _) ?_ ?_
    . rw [State.pending, hpc]
      rfl
    . exact (List.append_nil _).symm
    . exact (List.append_nil _).symm
  | @room t value head hpc hroom =>
    refine acc.silent rfl ?_ rfl rfl
    rw [State.pending_setSend, update_eq_self_iff, State.pending, hpc]
    rfl
  | @write t value head hpc =>
    refine acc.silent rfl ?_ rfl rfl
    refine (State.pending_setSend _ _ _).trans (update_eq_self_iff.mpr ?_)
    rw [State.pending, hpc]
    rfl
  | @storeHead t value head hpc =>
    refine acc.ret rfl ?_ (.accepted value) (State.pending_setSend _ _ _) rfl ?_
    . rw [State.pending, hpc]
      rfl
    . exact (List.append_nil _).symm
  | tryRecv hpc => exact acc.call rfl (State.pending_setRecv _ _ _) rfl rfl
  | @empty c tail hpc hempty =>
    refine acc.ret rfl ?_ .empty (State.pending_setRecv _ _ _) ?_ ?_
    . rw [State.pending, hpc]
      rfl
    . exact (List.append_nil _).symm
    . exact (List.append_nil _).symm
  | @nonempty c tail hpc hne =>
    refine acc.silent rfl ?_ rfl rfl
    rw [State.pending_setRecv, update_eq_self_iff, State.pending, hpc]
    rfl
  | @read c tail hpc =>
    refine acc.silent rfl ?_ rfl rfl
    rw [State.pending_setRecv, update_eq_self_iff, State.pending, hpc]
    rfl
  | @storeTail c tail value hpc =>
    refine acc.ret rfl ?_ (.returned value) (State.pending_setRecv _ _ _) ?_ rfl
    . rw [State.pending, hpc]
      rfl
    . exact (List.append_nil _).symm

end Accounts

theorem threads_accounts {acts : List (Act τ κ α)} {s : State L τ κ α}
    {es : List (Event (τ ⊕ κ) (Op α) (Res α))} (hreach : (threads L τ κ α).Reaches acts s es)
    : Accounts acts s es :=
  System.reaches_inv_inputs Accounts (fun _ _ _ _ _ _ acc hstep => acc.step hstep) .init hreach

end Spsc
