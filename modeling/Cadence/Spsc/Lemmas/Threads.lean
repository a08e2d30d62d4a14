import Cadence.Spsc.Lemmas.Calls
import Cadence.Spsc.Lemmas.Ring

/-!
This module contains the discipline under which threads may share the two handles of a ring, the
invariant that it maintains, and what can go wrong without it.
-/

open Lts Function

namespace Spsc

variable {w : Nat} {L : Layout w} {τ κ α : Type}

def SendPc.IsStoring : SendPc w α → Prop
  | .storeHead .. => True
  | _ => False

def RecvPc.IsStoring : RecvPc w α → Prop
  | .storeTail .. => True
  | _ => False

instance : DecidablePred (@SendPc.IsStoring w α)
  | .storeHead .. => isTrue trivial
  | .idle | .loadTail .. | .write .. => isFalse id

instance : DecidablePred (@RecvPc.IsStoring w α)
  | .storeTail .. => isTrue trivial
  | .idle | .loadHead .. | .read .. => isFalse id

/--
The accesses that have to be exclusive: a thread writes a slot only if nobody has advanced `head`
since it loaded it and nobody is about to, and reads a slot only if the same holds of `tail`.
-/
def Exclusive (s : State L τ κ α) : Act τ κ α → Prop
  | .write t => s.headAt t = s.accepted.length ∧ ∀ t', ¬ (s.send t').IsStoring
  | .read c => s.tailAt c = s.received.length ∧ ∀ c', ¬ (s.recv c').IsStoring
  | _ => True

instance [Fintype τ] [Fintype κ] (s : State L τ κ α) : DecidablePred (Exclusive s)
  | .write t =>
    inferInstanceAs (Decidable (s.headAt t = s.accepted.length ∧ ∀ t', ¬ (s.send t').IsStoring))
  | .read c =>
    inferInstanceAs (Decidable (s.tailAt c = s.received.length ∧ ∀ c', ¬ (s.recv c').IsStoring))
  | .trySend .. | .loadTail .. | .storeHead .. | .tryRecv .. | .loadHead .. | .storeTail .. =>
    isTrue trivial

def SendOk (inner : Inner L α) (n r headAt : Nat) : SendPc w α → Prop
  | .idle => True
  | .loadTail _ head => head = BitVec.ofNat w headAt ∧ headAt ≤ n
  | .write _ head =>
    head = BitVec.ofNat w headAt ∧ headAt ≤ n ∧ (headAt = n → n < r + L.capacity)
  | .storeHead value head =>
    head = BitVec.ofNat w n ∧ n < r + L.capacity ∧ inner.read head = .init value

def RecvOk (accepted : List α) (r tailAt : Nat) : RecvPc w α → Prop
  | .idle => True
  | .loadHead tail => tail = BitVec.ofNat w tailAt ∧ tailAt ≤ r
  | .read tail => tail = BitVec.ofNat w tailAt ∧ tailAt ≤ r ∧ (tailAt = r → r < accepted.length)
  | .storeTail tail value =>
    tail = BitVec.ofNat w r ∧ ∃ h : r < accepted.length, value = .init accepted[r]

structure Inv (s : State L τ κ α) : Prop where
  holds : s.inner.Holds s.accepted s.received.length
  fifo : s.received = (s.accepted.take s.received.length).map .init
  send : ∀ t, SendOk s.inner s.accepted.length s.received.length (s.headAt t) (s.send t)
  recv : ∀ c, RecvOk s.accepted s.received.length (s.tailAt c) (s.recv c)
  oneSend : AtMostOne SendPc.IsStoring s.send
  oneRecv : AtMostOne RecvPc.IsStoring s.recv

section SendOk

variable {inner : Inner L α} {n r headAt : Nat} {pc : SendPc w α}

theorem SendOk.storeTail {tail : BitVec w} (h : SendOk inner n r headAt pc)
    : SendOk (inner.storeTail tail) n (r + 1) headAt pc := by
  cases pc with
  | idle => trivial
  | loadTail => exact h
  | write =>
    refine ⟨h.1, h.2.1, ?_⟩
    intro heq
    have := h.2.2 heq
    omega
  | storeHead =>
    refine ⟨h.1, ?_, h.2.2⟩
    have := h.2.1
    omega

theorem SendOk.of_not_isStoring {inner' : Inner L α} (h : SendOk inner n r headAt pc)
    (hpc : ¬ pc.IsStoring) : SendOk inner' n r headAt pc := by
  cases pc with
  | idle => trivial
  | loadTail => exact h
  | write => exact h
  | storeHead => exact absurd trivial hpc

theorem SendOk.storeHead {inner' : Inner L α} (h : SendOk inner n r headAt pc)
    (hpc : ¬ pc.IsStoring) : SendOk inner' (n + 1) r headAt pc := by
  cases pc with
  | idle => trivial
  | loadTail => exact ⟨h.1, Nat.le_succ_of_le h.2⟩
  | write =>
    have := h.2.1
    refine ⟨h.1, by omega, ?_⟩
    omega
  | storeHead => exact absurd trivial hpc

end SendOk

section RecvOk

variable {accepted : List α} {r tailAt : Nat} {pc : RecvPc w α}

theorem RecvOk.storeHead (h : RecvOk accepted r tailAt pc) (value : α)
    : RecvOk (accepted ++ [value]) r tailAt pc := by
  cases pc with
  | idle => trivial
  | loadHead => exact h
  | read =>
    refine ⟨h.1, h.2.1, ?_⟩
    intro heq
    have := h.2.2 heq
    simp
    omega
  | storeTail =>
    rcases h with ⟨htail, hlt, hvalue⟩
    refine ⟨htail, by simp; omega, ?_⟩
    rw [hvalue, List.getElem_append_left hlt]

theorem RecvOk.storeTail (h : RecvOk accepted r tailAt pc) (hpc : ¬ pc.IsStoring)
    : RecvOk accepted (r + 1) tailAt pc := by
  cases pc with
  | idle => trivial
  | loadHead => exact ⟨h.1, Nat.le_succ_of_le h.2⟩
  | read =>
    have := h.2.1
    refine ⟨h.1, by omega, ?_⟩
    omega
  | storeTail => exact absurd trivial hpc

end RecvOk

theorem Inv.init : Inv (State.init L τ κ α) where
  holds := Inner.new_holds
  fifo := rfl
  send := fun _ => trivial
  recv := fun _ => trivial
  oneSend := fun _ _ h => h.elim
  oneRecv := fun _ _ h => h.elim

namespace Inv

variable {s : State L τ κ α}

section Producer

variable [DecidableEq τ]

theorem trySend (inv : Inv s) (t : τ) (value : α)
    : Inv
        ({ s with headAt := update s.headAt t s.accepted.length }.setSend t
          (.loadTail value s.inner.head)) := by
  exact {
    inv with
    send := by
      intro t'
      by_cases ht : t' = t
      . subst ht
        simpa [State.setSend, SendOk] using inv.holds.head
      . simpa [State.setSend, ht] using inv.send t'
    oneSend := inv.oneSend.update id
  }

theorem room (inv : Inv s) {t : τ} {value : α} {head : BitVec w}
    (hpc : s.send t = .loadTail value head) (hroom : ¬ L.isFull head s.inner.tail)
    : Inv (s.setSend t (.write value head)) := by
  have hsend := inv.send t
  rw [hpc] at hsend
  exact {
    inv with
    send := by
      refine forall_update_iff _ _ |>.mpr ⟨⟨hsend.1, hsend.2, ?_⟩, fun t' _ => inv.send t'⟩
      intro heq
      -- if nobody has advanced `head` since then, the test compared the current cursors
      simp only [State.setSend_headAt, State.setSend_accepted] at heq
      rw [hsend.1, heq, ← inv.holds.head, inv.holds.isFull_iff] at hroom
      have := inv.holds.bound
      simp only [State.setSend_accepted, State.setSend_received]
      omega
    oneSend := inv.oneSend.update id
  }

theorem write (inv : Inv s) {t : τ} {value : α} {head : BitVec w}
    (hpc : s.send t = .write value head) (hexcl : Exclusive s (.write t))
    : Inv
        ({ s with inner := s.inner.write head value }.setSend t (.storeHead value head)) := by
  have hsend := inv.send t
  rw [hpc] at hsend
  rcases hsend with ⟨hhead, _, hroom⟩
  -- by `Exclusive` the loaded `head` is the current one, and the room found then is still there
  rw [hexcl.1] at hhead
  specialize hroom hexcl.1
  exact {
    inv with
    holds := by
      rw [hhead]
      apply inv.holds.write value hroom
    send := by
      refine forall_update_iff _ _ |>.mpr ⟨⟨hhead, hroom, Inner.read_write_self _ _ _⟩, ?_⟩
      intro t' _
      exact (inv.send t').of_not_isStoring (hexcl.2 t')
    oneSend := .of_none hexcl.2
  }

theorem storeHead (inv : Inv s) {t : τ} {value : α} {head : BitVec w}
    (hpc : s.send t = .storeHead value head)
    : Inv
        ({ s with
            inner := s.inner.storeHead (head + 1#w)
            accepted := s.accepted ++ [value] }.setSend t .idle) := by
  have hsend := inv.send t
  rw [hpc] at hsend
  rcases hsend with ⟨rfl, hroom, hslot⟩
  have hothers := inv.oneSend.not_of_ne (t := t) (by rw [hpc]; trivial)
  exact {
    holds := inv.holds.storeHead hroom hslot
    fifo := by
      simp only [State.setSend_accepted, State.setSend_received]
      rw [List.take_append_of_le_length inv.holds.le]
      exact inv.fifo
    send := by
      refine forall_update_iff _ _ |>.mpr ⟨trivial, ?_⟩
      intro t' ht
      simpa using (inv.send t').storeHead (hothers t' ht)
    recv := fun c => (inv.recv c).storeHead value
    oneSend := inv.oneSend.update id
    oneRecv := inv.oneRecv
  }

end Producer

section Consumer

variable [DecidableEq κ]

theorem tryRecv (inv : Inv s) (c : κ)
    : Inv
        ({ s with tailAt := update s.tailAt c s.received.length }.setRecv c
          (.loadHead s.inner.tail)) := by
  exact {
    inv with
    recv := by
      intro c'
      by_cases hc : c' = c
      . subst hc
        simpa [State.setRecv, RecvOk] using inv.holds.tail
      . simpa [State.setRecv, hc] using inv.recv c'
    oneRecv := inv.oneRecv.update id
  }

theorem nonempty (inv : Inv s) {c : κ} {tail : BitVec w} (hpc : s.recv c = .loadHead tail)
    (hne : tail ≠ s.inner.head) : Inv (s.setRecv c (.read tail)) := by
  have hrecv := inv.recv c
  rw [hpc] at hrecv
  exact {
    inv with
    recv := by
      refine forall_update_iff _ _ |>.mpr ⟨⟨hrecv.1, hrecv.2, ?_⟩, fun c' _ => inv.recv c'⟩
      intro heq
      simp only [State.setRecv_tailAt, State.setRecv_received] at heq
      rw [hrecv.1, heq, ← inv.holds.tail, Ne, inv.holds.isEmpty_iff] at hne
      have := inv.holds.le
      simp only [State.setRecv_accepted, State.setRecv_received]
      omega
    oneRecv := inv.oneRecv.update id
  }

theorem read (inv : Inv s) {c : κ} {tail : BitVec w} (hpc : s.recv c = .read tail)
    (hexcl : Exclusive s (.read c))
    : Inv (s.setRecv c (.storeTail tail (s.inner.read tail))) := by
  have hrecv := inv.recv c
  rw [hpc] at hrecv
  rcases hrecv with ⟨htail, _, hlt⟩
  -- as for a write, the loaded `tail` is the current one
  rw [hexcl.1] at htail
  specialize hlt hexcl.1
  exact {
    inv with
    recv := by
      refine forall_update_iff _ _ |>.mpr ⟨⟨htail, hlt, ?_⟩, fun c' _ => inv.recv c'⟩
      rw [htail]
      apply inv.holds.read hlt
    oneRecv := .of_none hexcl.2
  }

theorem storeTail (inv : Inv s) {c : κ} {tail : BitVec w} {value : MaybeUninit α}
    (hpc : s.recv c = .storeTail tail value)
    : Inv
        ({ s with
            inner := s.inner.storeTail (tail + 1#w)
            received := s.received ++ [value] }.setRecv c .idle) := by
  have hrecv := inv.recv c
  rw [hpc] at hrecv
  rcases hrecv with ⟨rfl, hlt, rfl⟩
  have hothers := inv.oneRecv.not_of_ne (t := c) (by rw [hpc]; trivial)
  exact {
    holds := by simpa using inv.holds.storeTail hlt
    fifo := by
      simp only [State.setRecv_received, State.setRecv_accepted, List.length_append,
        List.length_singleton]
      apply append_eq_take_succ inv.fifo
      rw [List.getElem?_eq_getElem hlt]
      rfl
    send := by
      intro t
      simpa using (inv.send t).storeTail
    recv := by
      refine forall_update_iff _ _ |>.mpr ⟨trivial, ?_⟩
      intro c' hc
      simpa using (inv.recv c').storeTail (hothers c' hc)
    oneSend := inv.oneSend
    oneRecv := inv.oneRecv.update id
  }

end Consumer

variable [DecidableEq τ] [DecidableEq κ]

theorem step {s' : State L τ κ α} {a : Act τ κ α} {es : List (Event (τ ⊕ κ) (Op α) (Res α))}
    (inv : Inv s) (hexcl : Exclusive s a) (hstep : s.step a = some (s', es)) : Inv s' := by
  cases Step.of_step hstep with
  | trySend hpc => exact inv.trySend _ _
  | @full t value head hpc hfull =>
    exact {
      inv with
      send := forall_update_iff _ _ |>.mpr ⟨trivial, fun t' _ => inv.send t'⟩
      oneSend := inv.oneSend.update id
    }
  | room hpc hroom => exact inv.room hpc hroom
  | write hpc => exact inv.write hpc hexcl
  | storeHead hpc => exact inv.storeHead hpc
  | tryRecv hpc => exact inv.tryRecv _
  | @empty c tail hpc hempty =>
    exact {
      inv with
      recv := forall_update_iff _ _ |>.mpr ⟨trivial, fun c' _ => inv.recv c'⟩
      oneRecv := inv.oneRecv.update id
    }
  | nonempty hpc hne => exact inv.nonempty hpc hne
  | read hpc => exact inv.read hpc hexcl
  | storeTail hpc => exact inv.storeTail hpc

end Inv

variable [DecidableEq τ] [DecidableEq κ]

theorem inv_of_exclusive {acts : List (Act τ κ α)} {s : State L τ κ α}
    {es : List (Event (τ ⊕ κ) (Op α) (Res α))}
    (hexcl : (threads L τ κ α).Meets Exclusive (.init L τ κ α) acts)
    (hreach : (threads L τ κ α).Reaches acts s es) : Inv s := by
  apply System.reaches_inv_of_meets (fun s _ => Inv s) _ Inv.init hexcl hreach
  intro s _ a s' es inv hC hstep
  apply inv.step hC hstep

/--
Every value whose send returned `Ok`, in a run of `acts`, has been returned by exactly one `try_recv`
or is still between the cursors, and nothing else is.
-/
structure Conserved (acts : List (Act τ κ α)) (s : State L τ κ α)
    (es : List (Event (τ ⊕ κ) (Op α) (Res α))) : Prop where
  calls : calls es = acts.filterMap Act.call?
  values : (returned es ++ s.unread).Perm ((accepted es).map .init)

omit [DecidableEq τ] [DecidableEq κ] in
theorem Inv.received_append_unread {s : State L τ κ α} (inv : Inv s)
    : s.received ++ s.unread = s.accepted.map .init := by
  rw [State.unread, inv.holds.drop_eq, inv.fifo, List.length_map, List.length_take,
    Nat.min_eq_left inv.holds.le, ← List.map_append, List.take_append_drop]

/--
In a run in which slot writes and slot reads are exclusive, shared handles lose and duplicate
nothing.
-/
theorem threads_conserved_of_exclusive {acts : List (Act τ κ α)} {s : State L τ κ α}
    {es : List (Event (τ ⊕ κ) (Op α) (Res α))}
    (hexcl : (threads L τ κ α).Meets Exclusive (.init L τ κ α) acts)
    (hreach : (threads L τ κ α).Reaches acts s es) : Conserved acts s es := by
  have acc := threads_accounts hreach
  exact {
    calls := acc.calls
    values := by
      rw [acc.returned, acc.accepted, (inv_of_exclusive hexcl hreach).received_append_unread]
  }

/--
Two threads send in turn, and the first value is received.
-/
def sendsInTurn : List (Act Bool Unit Nat) :=
  [.trySend true 10, .loadTail true, .write true, .storeHead true, .trySend false 20, .loadTail false,
    .write false, .storeHead false, .tryRecv (), .loadHead (), .read (), .storeTail ()]

theorem threads_conserved_of_exclusive_two_sends
    : ∃ s es,
        (threads twoSlots Bool Unit Nat).Reaches sendsInTurn s es
          ∧
        accepted es = [10, 20]
          ∧
        returned es = [.init 10]
          ∧
        Conserved sendsInTurn s es := by
  have hreach := (threads twoSlots Bool Unit Nat).reaches_get sendsInTurn (by decide)
  exact ⟨_, _, hreach, by decide, by decide, threads_conserved_of_exclusive (by decide) hreach⟩

/--
Two threads whose calls of `try_send` overlap both see `Ok`, but only one value is in the ring.
-/
theorem threads_not_conserved
    : ¬ ∀ (w : Nat) (L : Layout w) (τ κ α : Type) [DecidableEq τ] [DecidableEq κ]
        (acts : List (Act τ κ α)) (s : State L τ κ α) (es : List (Event (τ ⊕ κ) (Op α) (Res α))),
        (threads L τ κ α).Reaches acts s es → Conserved acts s es := by
  intro h
  have hreach := (threads twoSlots Bool Unit Nat).reaches_get
    [.trySend true 10, .trySend false 20, .loadTail true, .loadTail false, .write true,
      .write false, .storeHead true, .storeHead false] (by decide)
  have hlength := (h _ _ _ _ _ _ _ _ hreach).values.length_eq
  rw [List.length_append, State.unread, Inner.drop, Inner.length_dropFrom] at hlength
  revert hlength
  decide

end Spsc
