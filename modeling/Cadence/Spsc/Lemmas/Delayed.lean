import Cadence.Spsc.Impl.Delayed
import Cadence.Spsc.Lemmas.Ring

/-!
This module contains slot ownership under delayed visibility: although each side acts on an old copy
of the cursor of the other side, no two accesses to a slot race and nothing is lost or repeated.
-/

open Lts

namespace Spsc

variable {w : Nat} {L : Layout w} {α : Type}

theorem lastWrite_append_singleton {c : Nat} (slot i : Fin c) (writes : List (Fin c × α)) (value : α)
    : lastWrite slot (writes ++ [(i, value)])
        =
      if i = slot then some (writes.length, value) else lastWrite slot writes := by
  simp [lastWrite, List.zipIdx_append]

def slotWrites (L : Layout w) (values : List α) : List (Fin L.capacity × α) :=
  values.mapIdx fun i value => (L.slot (BitVec.ofNat w i), value)

theorem slotWrites_append_singleton (values : List α) (value : α)
    : slotWrites L (values ++ [value])
        =
      slotWrites L values ++ [(L.slot (BitVec.ofNat w values.length), value)] := by
  simp [slotWrites, List.mapIdx_append]

@[simp]
theorem length_slotWrites (values : List α) : (slotWrites L values).length = values.length := by
  simp [slotWrites]

theorem map_snd_slotWrites (values : List α) : (slotWrites L values).map Prod.snd = values := by
  apply List.ext_getElem <;> simp [slotWrites]

theorem getElem?_slotWrites (values : List α) (i : Nat)
    : (slotWrites L values)[i]?
        =
      values[i]?.map fun value => (L.slot (BitVec.ofNat w i), value) := by
  simp [slotWrites]

theorem take_slotWrites (values : List α) (n : Nat)
    : (slotWrites L values).take n = slotWrites L (values.take n) := by
  apply List.ext_getElem?
  intro i
  by_cases h : i < n <;> simp [getElem?_slotWrites, h]

theorem lastWrite_slotWrites {values : List α} {r : Nat} (hlt : r < values.length)
    (hbound : values.length ≤ r + L.capacity)
    : lastWrite (L.slot (BitVec.ofNat w r)) (slotWrites L values) = some (r, values[r]) := by
  -- induction on the writes: those after write `r` go to other slots, as they are less than a round
  induction values using List.reverseRecOn with
  | nil => simp at hlt
  | append_singleton values value ih =>
    rw [slotWrites_append_singleton, lastWrite_append_singleton, length_slotWrites]
    rw [List.length_append, List.length_singleton] at hbound hlt
    by_cases hlast : r = values.length
    . subst hlast
      simp
    . have hr : r < values.length := by omega
      rw [if_neg (L.slot_ne_slot hr (by omega)).symm, ih hr (by omega)]
      rw [List.getElem_append_left hr]

def counting (w n : Nat) : List (StoreMsg w) :=
  (List.range (n + 1)).map fun i => ⟨BitVec.ofNat w i, i⟩

theorem counting_succ (n : Nat)
    : counting w (n + 1) = counting w n ++ [⟨BitVec.ofNat w (n + 1), n + 1⟩] := by
  simp [counting, List.range_succ]

theorem getLast?_counting (n : Nat) : (counting w n).getLast? = some ⟨BitVec.ofNat w n, n⟩ := by
  simp [counting, List.range_succ]

theorem getElem?_counting {n i : Nat} (h : i ≤ n)
    : (counting w n)[i]? = some ⟨BitVec.ofNat w i, i⟩ := by
  rw [counting, List.getElem?_map, List.getElem?_range (by omega)]
  rfl

theorem getElem?_counting_eq_some {n i : Nat} {msg : StoreMsg w} (h : (counting w n)[i]? = some msg)
    : i ≤ n ∧ msg = ⟨BitVec.ofNat w i, i⟩ := by
  rcases List.getElem?_eq_some_iff.mp h with ⟨hi, rfl⟩
  have hlt : i < n + 1 := by simpa [counting] using hi
  exact ⟨by omega, by simp [counting]⟩

def SendPc.written : SendPc w α → List α
  | .storeHead value _ => [value]
  | _ => []

/--
What the producer knows when it has had `n` sends accepted and has observed `seenTail` tail stores.
-/
def DelayedSendOk (L : Layout w) (n seenTail : Nat) : SendPc w α → Prop
  | .idle => True
  | .loadTail _ head => head = BitVec.ofNat w n
  | .write _ head | .storeHead _ head => head = BitVec.ofNat w n ∧ n < seenTail + L.capacity

/--
What the consumer knows when it has received `r` values and has observed `seenHead` head stores, and
how many slots it has read.
-/
def DelayedRecvOk (accepted : List α) (r seenHead reads : Nat) : RecvPc w α → Prop
  | .idle => reads = r
  | .loadHead tail => reads = r ∧ tail = BitVec.ofNat w r
  | .read tail => reads = r ∧ tail = BitVec.ofNat w r ∧ r < seenHead
  | .storeTail tail value =>
    reads = r + 1 ∧ tail = BitVec.ofNat w r ∧ r < seenHead ∧ accepted[r]?.map .init = some value

theorem DelayedRecvOk.storeHead {accepted : List α} {r seenHead reads : Nat} {pc : RecvPc w α}
    (h : DelayedRecvOk accepted r seenHead reads pc) (hseen : seenHead ≤ accepted.length) (value : α)
    : DelayedRecvOk (accepted ++ [value]) r seenHead reads pc := by
  cases pc with
  | idle => exact h
  | loadHead => exact h
  | read => exact h
  | storeTail =>
    rcases h with ⟨hreads, htail, hlt, hvalue⟩
    refine ⟨hreads, htail, hlt, ?_⟩
    rw [List.getElem?_append_left (by omega), hvalue]

structure DelayedInv (s : Delayed L α) : Prop where
  heads : s.heads = counting w s.accepted.length
  tails : s.tails = counting w s.received.length
  writes : s.writes = slotWrites L (s.accepted ++ s.send.written)
  reads : s.reads
    = (List.range s.reads.length).map fun i => (L.slot (BitVec.ofNat w i), some i)
  fifo : s.received = (s.accepted.take s.received.length).map .init
  seenTail : s.seenTail ≤ s.received.length
  seenHead : s.received.length ≤ s.seenHead ∧ s.seenHead ≤ s.accepted.length
  bound : s.accepted.length ≤ s.seenTail + L.capacity
  send : DelayedSendOk L s.accepted.length s.seenTail s.send
  recv : DelayedRecvOk s.accepted s.received.length s.seenHead s.reads.length s.recv

theorem DelayedInv.init : DelayedInv (Delayed.init L α) where
  heads := rfl
  tails := rfl
  writes := rfl
  reads := rfl
  fifo := rfl
  seenTail := Nat.le_refl _
  seenHead := ⟨Nat.le_refl _, Nat.le_refl _⟩
  bound := Nat.zero_le _
  send := trivial
  recv := rfl

theorem DelayedInv.visibleWrites {s : Delayed L α} (inv : DelayedInv s)
    : s.visibleWrites = slotWrites L (s.accepted.take s.seenHead) := by
  have hseen := inv.seenHead.2
  rw [Delayed.visibleWrites, inv.heads, getElem?_counting hseen]
  simp only [inv.writes, take_slotWrites, List.take_append_of_le_length hseen]

theorem DelayedInv.lastWrite_visibleWrites {s : Delayed L α} (inv : DelayedInv s)
    (hlt : s.received.length < s.seenHead) (hacc : s.received.length < s.accepted.length)
    : lastWrite (L.slot (BitVec.ofNat w s.received.length)) s.visibleWrites
        =
      some (s.received.length, s.accepted[s.received.length]) := by
  have := inv.seenHead.2
  have := inv.bound
  have := inv.seenTail
  rw [inv.visibleWrites, lastWrite_slotWrites (by simp; omega) (by simp; omega)]
  simp

theorem DelayedInv.readSlot {s : Delayed L α} (inv : DelayedInv s)
    (hlt : s.received.length < s.seenHead)
    : ∃ h : s.received.length < s.accepted.length,
        s.readSlot (BitVec.ofNat w s.received.length)
          =
        (some s.received.length, .init s.accepted[s.received.length]) := by
  have := inv.seenHead.2
  refine ⟨by omega, ?_⟩
  simp [Delayed.readSlot, inv.lastWrite_visibleWrites hlt (by omega)]

theorem DelayedInv.lastWrite_writes {s : Delayed L α} (inv : DelayedInv s)
    (hacc : s.received.length < s.accepted.length)
    : lastWrite (L.slot (BitVec.ofNat w s.received.length)) s.writes
        =
      some (s.received.length, s.accepted[s.received.length]) := by
  have hbound := inv.bound
  have htail := inv.seenTail
  have hsend := inv.send
  -- a send that has written its slot but not stored `head` also found room
  have hroom : s.accepted.length + s.send.written.length ≤ s.seenTail + L.capacity := by
    cases hpc : s.send with
    | storeHead value head =>
      rw [hpc] at hsend
      exact hsend.2
    | _ => exact hbound
  rw [inv.writes, lastWrite_slotWrites (by simp; omega) (by simp; omega)]
  rw [List.getElem_append_left hacc]

namespace DelayedInv

variable {s : Delayed L α}

theorem trySend (inv : DelayedInv s) {value : α} {msg : StoreMsg w} (hpc : s.send = .idle)
    (hmsg : s.heads.getLast? = some msg) : DelayedInv (s.setSend (.loadTail value msg.value)) := by
  have hwrites := inv.writes
  rw [inv.heads, getLast?_counting, Option.some.injEq] at hmsg
  rw [hpc] at hwrites
  exact { inv with writes := hwrites, send := by simp [DelayedSendOk, ← hmsg] }

theorem full (inv : DelayedInv s) {value : α} {head : BitVec w} {i : Nat} {msg : StoreMsg w}
    (hpc : s.send = .loadTail value head) (hmsg : s.tails[i]? = some msg) (hseen : s.seenTail ≤ i)
    : DelayedInv ({ s with seenTail := i }.setSend .idle) := by
  have hwrites := inv.writes
  rw [inv.tails] at hmsg
  have := getElem?_counting_eq_some hmsg
  rw [hpc] at hwrites
  have := inv.bound
  exact {
    inv with
    writes := hwrites
    seenTail := by simp; omega
    bound := by simp; omega
    send := trivial
  }

theorem room (inv : DelayedInv s) {value : α} {head : BitVec w} {i : Nat} {msg : StoreMsg w}
    (hpc : s.send = .loadTail value head) (hmsg : s.tails[i]? = some msg) (hseen : s.seenTail ≤ i)
    (hroom : ¬ L.isFull head msg.value)
    : DelayedInv ({ s with seenTail := i }.setSend (.write value head)) := by
  have hsend := inv.send
  have hwrites := inv.writes
  rw [inv.tails] at hmsg
  rcases getElem?_counting_eq_some hmsg with ⟨hi, rfl⟩
  rw [hpc] at hwrites hsend
  have hbound := inv.bound
  have hseenHead := inv.seenHead
  rw [DelayedSendOk] at hsend
  -- an old tail store only makes the ring look fuller than it is
  rw [hsend, L.isFull_ofNat (by omega) (by omega)] at hroom
  exact {
    inv with
    writes := hwrites
    seenTail := by simp; omega
    bound := by simp; omega
    send := ⟨hsend, by simp; omega⟩
  }

theorem write (inv : DelayedInv s) {value : α} {head : BitVec w} (hpc : s.send = .write value head)
    : DelayedInv
        ({ s with writes := s.writes ++ [(L.slot head, value)] }.setSend
          (.storeHead value head)) := by
  have hsend := inv.send
  have hwrites := inv.writes
  rw [hpc] at hwrites hsend
  exact {
    inv with
    writes := by
      simp only [SendPc.written, List.append_nil] at hwrites
      simp [SendPc.written, slotWrites_append_singleton, hwrites, hsend.1]
    send := hsend
  }

theorem storeHead (inv : DelayedInv s) {value : α} {head : BitVec w}
    (hpc : s.send = .storeHead value head)
    : DelayedInv
        ({ s with
            heads := s.heads ++ [StoreMsg.mk (head + 1#w) s.writes.length]
            accepted := s.accepted ++ [value] }.setSend .idle) := by
  have hsend := inv.send
  have hrecv := inv.recv
  have hwrites := inv.writes
  rw [hpc] at hwrites hsend
  have hbound := inv.bound
  have hseenHead := inv.seenHead
  have hlength : s.writes.length = s.accepted.length + 1 := by
    simp [hwrites, SendPc.written]
  exact {
    inv with
    heads := by
      simp only [Delayed.setSend_heads, Delayed.setSend_accepted, List.length_append,
        List.length_singleton, counting_succ, inv.heads, hlength, hsend.1]
      rw [Cursor.ofNat_succ s.accepted.length]
    writes := by simp [hwrites, SendPc.written]
    fifo := by
      simp only [Delayed.setSend_received, Delayed.setSend_accepted]
      rw [List.take_append_of_le_length (by omega)]
      exact inv.fifo
    seenHead := by simp; omega
    bound := by
      have := hsend.2
      simp
      omega
    send := trivial
    recv := hrecv.storeHead inv.seenHead.2 value
  }

theorem tryRecv (inv : DelayedInv s) {msg : StoreMsg w} (hpc : s.recv = .idle)
    (hmsg : s.tails.getLast? = some msg) : DelayedInv (s.setRecv (.loadHead msg.value)) := by
  have hrecv := inv.recv
  rw [inv.tails, getLast?_counting, Option.some.injEq] at hmsg
  rw [hpc] at hrecv
  exact { inv with recv := ⟨hrecv, by simp [← hmsg]⟩ }

theorem empty (inv : DelayedInv s) {tail : BitVec w} {i : Nat} {msg : StoreMsg w}
    (hpc : s.recv = .loadHead tail) (hmsg : s.heads[i]? = some msg) (hseen : s.seenHead ≤ i)
    : DelayedInv ({ s with seenHead := i }.setRecv .idle) := by
  have hrecv := inv.recv
  rw [inv.heads] at hmsg
  have := getElem?_counting_eq_some hmsg
  rw [hpc] at hrecv
  have := inv.seenHead
  exact {
    inv with
    seenHead := by simp; omega
    recv := hrecv.1
  }

theorem nonempty (inv : DelayedInv s) {tail : BitVec w} {i : Nat} {msg : StoreMsg w}
    (hpc : s.recv = .loadHead tail) (hmsg : s.heads[i]? = some msg) (hseen : s.seenHead ≤ i)
    (hne : tail ≠ msg.value) : DelayedInv ({ s with seenHead := i }.setRecv (.read tail)) := by
  have hrecv := inv.recv
  rw [inv.heads] at hmsg
  rcases getElem?_counting_eq_some hmsg with ⟨hi, rfl⟩
  rw [hpc] at hrecv
  have hbound := inv.bound
  have hseenHead := inv.seenHead
  have hseenTail := inv.seenTail
  rw [hrecv.2, Ne, L.ofNat_eq_ofNat_iff (by omega) (by omega)] at hne
  exact {
    inv with
    seenHead := by simp; omega
    recv := ⟨hrecv.1, hrecv.2, by simp; omega⟩
  }

theorem read (inv : DelayedInv s) {tail : BitVec w} (hpc : s.recv = .read tail)
    : DelayedInv
        ({ s with reads := s.reads ++ [(L.slot tail, (s.readSlot tail).1)] }.setRecv
          (.storeTail tail (s.readSlot tail).2)) := by
  have hrecv := inv.recv
  rw [hpc] at hrecv
  rcases hrecv with ⟨hreads, rfl, hlt⟩
  rcases inv.readSlot hlt with ⟨hacc, hread⟩
  exact {
    inv with
    reads := by
      have := inv.reads
      simp [List.range_succ, hread, hreads] at this ⊢
      exact this
    recv := by
      simp [DelayedRecvOk, hreads, hlt, hread, hacc]
  }

theorem storeTail (inv : DelayedInv s) {tail : BitVec w} {value : MaybeUninit α}
    (hpc : s.recv = .storeTail tail value)
    : DelayedInv
        ({ s with
            tails := s.tails ++ [StoreMsg.mk (tail + 1#w) s.reads.length]
            received := s.received ++ [value] }.setRecv .idle) := by
  have hrecv := inv.recv
  rw [hpc] at hrecv
  rcases hrecv with ⟨hreads, rfl, hlt, hvalue⟩
  have hseenHead := inv.seenHead
  have hseenTail := inv.seenTail
  exact {
    inv with
    tails := by
      simp only [Delayed.setRecv_tails, Delayed.setRecv_received, List.length_append,
        List.length_singleton, counting_succ, inv.tails, hreads]
      rw [Cursor.ofNat_succ s.received.length]
    fifo := by
      simp only [Delayed.setRecv_received, Delayed.setRecv_accepted, List.length_append,
        List.length_singleton]
      apply append_eq_take_succ inv.fifo hvalue
    seenTail := by simp; omega
    seenHead := by simp; omega
    recv := by simpa [DelayedRecvOk] using hreads
  }

theorem step {s' : Delayed L α} {a : DelayedAct α} {es : List Unit} (inv : DelayedInv s)
    (hstep : s.step a = some (s', es)) : DelayedInv s' := by
  cases DelayedStep.of_step hstep with
  | trySend hpc hmsg => exact inv.trySend hpc hmsg
  | full hpc hmsg hseen hfull => exact inv.full hpc hmsg hseen
  | room hpc hmsg hseen hroom => exact inv.room hpc hmsg hseen hroom
  | write hpc => exact inv.write hpc
  | storeHead hpc => exact inv.storeHead hpc
  | tryRecv hpc hmsg => exact inv.tryRecv hpc hmsg
  | empty hpc hmsg hseen hempty => exact inv.empty hpc hmsg hseen
  | nonempty hpc hmsg hseen hne => exact inv.nonempty hpc hmsg hseen hne
  | read hpc => exact inv.read hpc
  | storeTail hpc => exact inv.storeTail hpc

end DelayedInv

theorem delayed_inv {acts : List (DelayedAct α)} {s : Delayed L α} {es : List Unit}
    (hreach : (delayed L α).Reaches acts s es) : DelayedInv s := by
  apply System.reaches_inv (fun s _ => DelayedInv s) _ DelayedInv.init hreach
  intro s _ a s' es inv hstep
  apply inv.step hstep

theorem DelayedInv.getElem?_reads {s : Delayed L α} (inv : DelayedInv s) {r : Nat}
    {read : Fin L.capacity × Option Nat} (h : s.reads[r]? = some read)
    : r < s.reads.length ∧ read = (L.slot (BitVec.ofNat w r), some r) := by
  rcases List.getElem?_eq_some_iff.mp h with ⟨hlt, rfl⟩
  refine ⟨hlt, ?_⟩
  rw [List.getElem_of_eq inv.reads hlt]
  simp

theorem DelayedInv.reads_le {s : Delayed L α} (inv : DelayedInv s)
    : s.received.length ≤ s.reads.length ∧ s.reads.length ≤ s.seenHead := by
  have hrecv := inv.recv
  have := inv.seenHead
  cases hpc : s.recv <;> rw [hpc] at hrecv <;> simp only [DelayedRecvOk] at hrecv <;> omega

theorem DelayedInv.map_snd_reads {s : Delayed L α} (inv : DelayedInv s)
    : s.reads.map Prod.snd = (List.range s.reads.length).map some := by
  have := congrArg (List.map Prod.snd) inv.reads
  rw [List.map_map] at this
  exact this

theorem DelayedInv.mem_reads_iff {s : Delayed L α} (inv : DelayedInv s) (j : Nat)
    : some j ∈ s.reads.map Prod.snd ↔ j < s.reads.length := by
  simp [inv.map_snd_reads]

theorem DelayedInv.getElem?_writes {s : Delayed L α} (inv : DelayedInv s) {j : Nat}
    {i : Fin L.capacity} {value : α} (h : s.writes[j]? = some (i, value))
    : j < s.writes.length ∧ i = L.slot (BitVec.ofNat w j) := by
  rcases List.getElem?_eq_some_iff.mp h with ⟨hlt, hget⟩
  refine ⟨hlt, ?_⟩
  rw [inv.writes, getElem?_slotWrites] at h
  simp only [Option.map_eq_some_iff, Prod.mk.injEq] at h
  rcases h with ⟨_, _, rfl, _⟩
  rfl

def Delayed.visibleReads (s : Delayed L α) : Nat :=
  match s.tails[s.seenTail]? with
  | some msg => msg.accesses
  | none => 0

/--
Who owns the slots in a state: `producer` and `producerSees` are about the slot that the producer is
about to write, `consumer` about the slot that the consumer is about to read.
-/
structure SlotOwnership (s : Delayed L α) : Prop where
  producer : ∀ value head, s.send = .write value head →
    (∀ j i value', s.writes[j]? = some (i, value') → some j ∉ s.reads.map Prod.snd →
      i ≠ L.slot head)
      ∧
    ∀ tail, s.recv = .read tail → L.slot tail ≠ L.slot head
  producerSees : ∀ value head, s.send = .write value head →
    ∀ r n, s.reads[r]? = some (L.slot head, n) → r < s.visibleReads
  consumer : ∀ tail, s.recv = .read tail →
    ∃ j value,
      lastWrite (L.slot tail) s.writes = some (j, value)
        ∧
      lastWrite (L.slot tail) s.visibleWrites = some (j, value)
        ∧
      s.accepted[j]? = some value
        ∧
      some j ∉ s.reads.map Prod.snd
  initialised : none ∉ s.reads.map Prod.snd
  readOnce : (s.reads.map Prod.snd).Nodup
  unread : s.accepted.length ≤ s.received.length + L.capacity
  fifo : s.received <+: s.accepted.map .init
  accepted : s.accepted = (s.writes.map Prod.snd).take s.accepted.length

theorem DelayedInv.slotOwnership {s : Delayed L α} (inv : DelayedInv s) : SlotOwnership s := by
  have hseen := inv.seenHead
  have hreads := inv.reads_le
  have hbound := inv.bound
  have htail := inv.seenTail
  exact {
    producer := by
      intro value head hpc
      have hsend := inv.send
      have hwrites := congrArg List.length inv.writes
      rw [hpc] at hsend hwrites
      simp only [length_slotWrites, SendPc.written, List.append_nil] at hwrites
      rcases hsend with ⟨rfl, hroom⟩
      refine ⟨?_, ?_⟩
      . intro j i value' hj hunread
        rw [inv.mem_reads_iff] at hunread
        rcases inv.getElem?_writes hj with ⟨hlt, rfl⟩
        apply L.slot_ne_slot (by omega) (by omega)
      . intro tail hrecv
        have hr := inv.recv
        rw [hrecv] at hr
        rcases hr with ⟨_, rfl, _⟩
        apply L.slot_ne_slot (by omega) (by omega)
    producerSees := by
      intro value head hpc r n hr
      have hsend := inv.send
      rw [hpc] at hsend
      rcases hsend with ⟨rfl, hroom⟩
      rcases inv.getElem?_reads hr with ⟨hlt, heq⟩
      have hvisible : s.visibleReads = s.seenTail := by
        rw [Delayed.visibleReads, inv.tails, getElem?_counting htail]
      rw [hvisible]
      by_contra hlate
      simp only [Prod.mk.injEq] at heq
      apply L.slot_ne_slot (by omega) (by omega) heq.1.symm
    consumer := by
      intro tail hpc
      have hrecv := inv.recv
      rw [hpc] at hrecv
      rcases hrecv with ⟨hread, rfl, hlt⟩
      refine ⟨s.received.length, s.accepted[s.received.length], ?_, ?_, ?_, ?_⟩
      . apply inv.lastWrite_writes (by omega)
      . apply inv.lastWrite_visibleWrites hlt (by omega)
      . simp
      . rw [inv.mem_reads_iff]
        omega
    initialised := by simp [inv.map_snd_reads]
    readOnce := by
      rw [inv.map_snd_reads]
      apply List.nodup_range.map (Option.some_injective _)
    unread := by omega
    fifo := by
      rw [inv.fifo]
      exact (List.take_prefix _ _).map _
    accepted := by
      rw [inv.writes]
      simp [map_snd_slotWrites]
  }

theorem delayed_slotOwnership {acts : List (DelayedAct α)} {s : Delayed L α} {es : List Unit}
    (hreach : (delayed L α).Reaches acts s es) : SlotOwnership s :=
  (delayed_inv hreach).slotOwnership

/--
The consumer misses the second head store, and the third send reuses the slot it has read.
-/
def lateRun : List (DelayedAct Nat) :=
  [.trySend 1, .loadTail 0, .write, .storeHead, .trySend 2, .loadTail 0, .write, .storeHead,
    .tryRecv, .loadHead 1, .read, .storeTail, .trySend 3, .loadTail 1]

theorem delayed_slotOwnership_lateRun
    : ∃ s es,
        (delayed twoSlots Nat).Reaches lateRun s es
          ∧
        s.send = .write 3 2
          ∧
        SlotOwnership s := by
  have hreach := (delayed twoSlots Nat).reaches_get lateRun (by decide)
  exact ⟨_, _, hreach, by decide, delayed_slotOwnership hreach⟩

end Spsc
