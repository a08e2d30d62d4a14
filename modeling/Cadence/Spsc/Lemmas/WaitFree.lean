import Cadence.Lts.Countdown
import Cadence.Spsc.Lemmas.Stale

/-!
This module contains why `try_send` and `try_recv` do not block: a call needs at most three more
accesses, whatever the other side does and however late its stores become visible.
-/

open Lts Function

namespace Spsc

variable {w : Nat} {L : Layout w} {α : Type}

/--
The side whose thread makes an access.
-/
def DelayedAct.side : DelayedAct α → Unit ⊕ Unit
  | .trySend _ | .loadTail _ | .write | .storeHead => .inl ()
  | .tryRecv | .loadHead _ | .read | .storeTail => .inr ()

def DelayedAct.ownedBy (t : Unit ⊕ Unit) (a : DelayedAct α) : Bool :=
  a.side = t

/--
How many accesses a call has still to make before its last one.
-/
def SendPc.remaining : SendPc w α → Option Nat
  | .idle => none
  | .loadTail _ _ => some 2
  | .write _ _ => some 1
  | .storeHead _ _ => some 0

def RecvPc.remaining : RecvPc w α → Option Nat
  | .idle => none
  | .loadHead _ => some 2
  | .read _ => some 1
  | .storeTail _ _ => some 0

namespace Delayed

def remaining (s : Delayed L α) : Unit ⊕ Unit → Option Nat
  | .inl () => s.send.remaining
  | .inr () => s.recv.remaining

theorem exists_remaining {s : Delayed L α} {t : Unit ⊕ Unit} (h : delayedStatus s t ≠ .idle)
    : ∃ n ≤ 2, s.remaining t = some n := by
  rcases t with ⟨⟩ | ⟨⟩
  . cases hpc : s.send with
    | idle => simp [delayedStatus, sendStatus, hpc] at h
    | loadTail value head => exact ⟨2, by omega, by simp [remaining, SendPc.remaining, hpc]⟩
    | write value head => exact ⟨1, by omega, by simp [remaining, SendPc.remaining, hpc]⟩
    | storeHead value head => exact ⟨0, by omega, by simp [remaining, SendPc.remaining, hpc]⟩
  . cases hpc : s.recv with
    | idle => simp [delayedStatus, recvStatus, hpc] at h
    | loadHead tail => exact ⟨2, by omega, by simp [remaining, RecvPc.remaining, hpc]⟩
    | read tail => exact ⟨1, by omega, by simp [remaining, RecvPc.remaining, hpc]⟩
    | storeTail tail value => exact ⟨0, by omega, by simp [remaining, RecvPc.remaining, hpc]⟩

end Delayed

/--
A call never waits: its next access is always possible. A load of the other side's cursor can observe
at least the store that it has observed before.
-/
theorem DelayedInv.enabled {s : Delayed L α} (inv : DelayedInv s) {t : Unit ⊕ Unit} {n : Nat}
    (h : s.remaining t = some n)
    : ∃ a : DelayedAct α, a.ownedBy t = true ∧ (s.step a).isSome := by
  rcases t with ⟨⟩ | ⟨⟩
  . cases hpc : s.send with
    | idle => simp [Delayed.remaining, SendPc.remaining, hpc] at h
    | loadTail value head =>
      refine ⟨.loadTail s.seenTail, decide_eq_true rfl, ?_⟩
      have hmsg : s.tails[s.seenTail]? = some ⟨BitVec.ofNat w s.seenTail, s.seenTail⟩ := by
        rw [inv.tails]
        apply getElem?_counting inv.seenTail
      simp only [Delayed.step, hpc, hmsg, Nat.le_refl, if_true]
      split <;> rfl
    | write value head => exact ⟨.write, decide_eq_true rfl, by simp [Delayed.step, hpc]⟩
    | storeHead value head => exact ⟨.storeHead, decide_eq_true rfl, by simp [Delayed.step, hpc]⟩
  . cases hpc : s.recv with
    | idle => simp [Delayed.remaining, RecvPc.remaining, hpc] at h
    | loadHead tail =>
      refine ⟨.loadHead s.seenHead, decide_eq_true rfl, ?_⟩
      have hmsg : s.heads[s.seenHead]? = some ⟨BitVec.ofNat w s.seenHead, s.seenHead⟩ := by
        rw [inv.heads]
        apply getElem?_counting inv.seenHead.2
      simp only [Delayed.step, hpc, hmsg, Nat.le_refl, if_true]
      split <;> rfl
    | read tail => exact ⟨.read, decide_eq_true rfl, by simp [Delayed.step, hpc]⟩
    | storeTail tail value => exact ⟨.storeTail, decide_eq_true rfl, by simp [Delayed.step, hpc]⟩

/--
An access of one side leaves the call of the other where it is.
-/
theorem DelayedStep.remaining_of_not_owned {s s' : Delayed L α} {a : DelayedAct α}
    (h : DelayedStep s a s') {t : Unit ⊕ Unit} (ha : a.ownedBy t = false)
    : s'.remaining t = s.remaining t := by
  cases h <;> rcases t with ⟨⟩ | ⟨⟩ <;> first | rfl | contradiction

def Returns (t : Unit ⊕ Unit) (e : Event (Unit ⊕ Unit) (Op α) (Res α)) : Prop :=
  ∃ res, e = .ret t res

theorem DelayedStep.remaining_of_owned {s s' : Delayed L α} {a : DelayedAct α}
    (h : DelayedStep s a s') {t : Unit ⊕ Unit} {n : Nat} (hn : s.remaining t = some n)
    (ha : a.ownedBy t = true)
    : (∃ m < n, s'.remaining t = some m)
        ∨
      s'.remaining t = none ∧ ∃ e ∈ s.events a, Returns t e := by
  have ht : a.side = t := of_decide_eq_true ha
  subst ht
  cases h with
  | trySend hpc hmsg => simp [DelayedAct.side, Delayed.remaining, SendPc.remaining, hpc] at hn
  | @full value head i msg hpc hmsg hseen hfull =>
    refine .inr ⟨rfl, .ret (.inl ()) (.sent (.error value)), ?_, _, rfl⟩
    simp [Delayed.events, hpc, hmsg, hfull]
  | room hpc hmsg hseen hroom =>
    refine .inl ⟨1, ?_, rfl⟩
    simp only [DelayedAct.side, Delayed.remaining, SendPc.remaining, hpc, Option.some.injEq] at hn
    omega
  | write hpc =>
    refine .inl ⟨0, ?_, rfl⟩
    simp only [DelayedAct.side, Delayed.remaining, SendPc.remaining, hpc, Option.some.injEq] at hn
    omega
  | storeHead hpc =>
    exact .inr ⟨rfl, .ret (.inl ()) (.sent (.ok ())), List.mem_singleton_self _, _, rfl⟩
  | tryRecv hpc hmsg => simp [DelayedAct.side, Delayed.remaining, RecvPc.remaining, hpc] at hn
  | @empty tail i msg hpc hmsg hseen hempty =>
    refine .inr ⟨rfl, .ret (.inr ()) (.received none), ?_, _, rfl⟩
    simp [Delayed.events, hpc, hmsg, hempty]
  | nonempty hpc hmsg hseen hne =>
    refine .inl ⟨1, ?_, rfl⟩
    simp only [DelayedAct.side, Delayed.remaining, RecvPc.remaining, hpc, Option.some.injEq] at hn
    omega
  | read hpc =>
    refine .inl ⟨0, ?_, rfl⟩
    simp only [DelayedAct.side, Delayed.remaining, RecvPc.remaining, hpc, Option.some.injEq] at hn
    omega
  | @storeTail tail value hpc =>
    refine .inr ⟨rfl, .ret (.inr ()) (.received (some value)), ?_, _, rfl⟩
    simp [Delayed.events, hpc]

theorem DelayedInv.of_calls {s s' : Delayed L α} {a : DelayedAct α}
    {es : List (Event (Unit ⊕ Unit) (Op α) (Res α))} (inv : DelayedInv s)
    (h : (delayedCalls L α).step s a = some (s', es)) : DelayedInv s' := by
  unfold delayedCalls at h
  simp only [Option.map_eq_some_iff, Prod.mk.injEq] at h
  rcases h with ⟨⟨t, us⟩, hstep, rfl, -⟩
  exact inv.step hstep

theorem calls_isSome {s : Delayed L α} {a : DelayedAct α} (h : (s.step a).isSome)
    : ((delayedCalls L α).step s a).isSome := by
  unfold delayedCalls
  rw [Option.isSome_map]
  exact h

theorem delayed_countdown (t : Unit ⊕ Unit)
    : Countdown (delayedCalls L α) (DelayedAct.ownedBy t)
        (fun s n => DelayedInv s ∧ s.remaining t = some n) (fun s => s.remaining t = none)
        (Returns t) where
  enabled := by
    rintro s n ⟨inv, hn⟩
    rcases inv.enabled hn with ⟨a, ha, hsome⟩
    exact ⟨a, ha, calls_isSome hsome⟩
  other := by
    rintro s n a s' es ⟨inv, hn⟩ ha hstep
    refine ⟨inv.of_calls hstep, ?_⟩
    rw [(delayedCalls_step hstep).1.remaining_of_not_owned ha]
    exact hn
  own := by
    rintro s n a s' es ⟨inv, hn⟩ ha hstep
    have inv' := inv.of_calls hstep
    rcases delayedCalls_step hstep with ⟨haccess, rfl⟩
    rcases haccess.remaining_of_owned hn ha with ⟨m, hlt, hm⟩ | hdone
    . exact .inl ⟨m, hlt, inv', hm⟩
    . exact .inr hdone

theorem calls_inv {acts : List (DelayedAct α)} {s : Delayed L α}
    {es : List (Event (Unit ⊕ Unit) (Op α) (Res α))}
    (hreach : (delayedCalls L α).Reaches acts s es) : DelayedInv s := by
  refine System.reaches_inv (fun s _ => DelayedInv s) ?_ DelayedInv.init hreach
  intro s _ a s' es inv hstep
  apply inv.of_calls hstep

/--
Neither side is ever held up by the other. A call of `try_send` or `try_recv` in progress has
returned, or its thread has made at most two accesses since and can make the next one.
-/
theorem delayed_waitFree {acts acts' : List (DelayedAct α)} {s s' : Delayed L α}
    {es es' : List (Event (Unit ⊕ Unit) (Op α) (Res α))}
    (hreach : (delayedCalls L α).Reaches acts s es) {t : Unit ⊕ Unit}
    (hpending : delayedStatus s t ≠ .idle) (hrun : (delayedCalls L α).run s acts' = some (s', es'))
    : (∃ res, .ret t res ∈ es')
        ∨
      acts'.countP (DelayedAct.ownedBy t) ≤ 2
        ∧
      ∃ a : DelayedAct α, a.ownedBy t = true ∧ ((delayedCalls L α).step s' a).isSome := by
  rcases Delayed.exists_remaining hpending with ⟨n, hle, hn⟩
  rcases (delayed_countdown t).run ⟨calls_inv hreach, hn⟩ hrun
    with ⟨e, he, res, rfl⟩ | ⟨m, ⟨inv, hm⟩, hcount⟩
  . exact .inl ⟨res, he⟩
  . rcases inv.enabled hm with ⟨a, ha, hsome⟩
    exact .inr ⟨by omega, a, ha, calls_isSome hsome⟩

/--
The consumer takes a value while the third send, which does not see that yet, is in progress.
-/
def thirdSend : List (DelayedAct Nat) :=
  [.trySend 1, .loadTail 0, .write, .storeHead, .trySend 2, .loadTail 0, .write, .storeHead,
    .trySend 3]

def meanwhile : List (DelayedAct Nat) :=
  [.tryRecv, .loadHead 1, .read, .storeTail, .loadTail 1]

theorem delayed_waitFree_meanwhile
    : ∃ s es s' es',
        (delayedCalls twoSlots Nat).Reaches thirdSend s es
          ∧
        (delayedCalls twoSlots Nat).run s meanwhile = some (s', es')
          ∧
        ((∃ res, .ret (.inl ()) res ∈ es')
            ∨
          meanwhile.countP (DelayedAct.ownedBy (.inl ())) ≤ 2
            ∧
          ∃ a : DelayedAct Nat,
            a.ownedBy (.inl ()) = true ∧ ((delayedCalls twoSlots Nat).step s' a).isSome) := by
  have hreach := (delayedCalls twoSlots Nat).reaches_get thirdSend (by decide +kernel)
  have hsome : ((delayedCalls twoSlots Nat).run
      (((delayedCalls twoSlots Nat).run (delayedCalls twoSlots Nat).init thirdSend).get
        (by decide +kernel)).1 meanwhile).isSome := by decide +kernel
  have hrun := (Option.some_get hsome).symm
  have hpending : sendStatus (((delayedCalls twoSlots Nat).run (delayedCalls twoSlots Nat).init
      thirdSend).get (by decide +kernel)).1.send = .called (.send 3) := by rfl
  refine ⟨_, _, _, _, hreach, hrun, delayed_waitFree hreach ?_ hrun⟩
  intro hidle
  have := hpending.symm.trans hidle
  contradiction

end Spsc
