import Cadence.Bus.Impl.OneSub
import Cadence.Bus.Lemmas.Accounting
import Cadence.Lts.Sequential
import Cadence.Spsc.Lemmas.Linearizable

/-!
This module contains that the two backends are the same queue: the bus with one subscription refines
the sequential queue that the ring refines, for any number of producers and consumers.
-/

open Lts Function Spsc

namespace Bus

variable {capacity : Nat} {pattern : String} {τ κ : Type}

/--
Where the offer of a thread is in the eyes of the subscriber.
-/
def OfferPc.status (pattern : String) : OfferPc → Status (Op Message) (Res Message)
  | .idle => .idle
  | .lock arg now => if wanted pattern arg then .called (.send (stamp arg now)) else .idle
  | .sending msg (_ :: _) _ _ => if wanted pattern msg then .called (.send msg) else .idle
  | .sending msg [] sent dropped =>
    if wanted pattern msg then
      .done (.sent (OfferResult.toResult ⟨sent, dropped⟩ msg))
    else
      .idle

def status (pattern : String) (pc : τ → OfferPc) : τ ⊕ κ → Status (Op Message) (Res Message)
  | .inl t => (pc t).status pattern
  | .inr _ => .idle

/--
An offer has still to visit the subscription, or has nothing more to visit.
-/
def OfferPc.VisitsOne (pattern : String) : OfferPc → Prop
  | .sending _ pending sent dropped =>
    pending = [⟨.parse pattern, 0⟩] ∧ sent = 0 ∧ dropped = 0 ∨ pending = []
  | _ => True

variable [DecidableEq τ] [DecidableEq κ] {s s' : State capacity τ}

omit [DecidableEq κ] in
theorem State.step_of_map {act : Act τ} {es es' : List (Event (τ ⊕ κ) (Op Message) (Res Message))}
    (h : ((s.step act).map fun (s', _) => (s', es)) = some (s', es'))
    : es' = es ∧ ∃ us, s.step act = some (s', us) := by
  simp only [Option.map_eq_some_iff, Prod.mk.injEq, Prod.exists] at h
  rcases h with ⟨u, us, hbus, rfl, rfl⟩
  exact ⟨rfl, us, hbus⟩

omit [DecidableEq κ] in
theorem State.step_of_queueStep {a : QueueAct τ κ}
    {es : List (Event (τ ⊕ κ) (Op Message) (Res Message))}
    (h : s.queueStep pattern a = some (s', es)) : s' = s ∨ ∃ act us, s.step act = some (s', us) := by
  cases a with
  | offer t arg now => exact .inr ⟨_, (step_of_map h).2⟩
  | lock t => exact .inr ⟨_, (step_of_map h).2⟩
  | trySend t => exact .inr ⟨_, (step_of_map h).2⟩
  | unlock t =>
    simp only [queueStep] at h
    split at h
    . exact .inr ⟨_, (step_of_map h).2⟩
    . contradiction
  | tryRecv c =>
    simp only [queueStep] at h
    split at h
    . exact .inr ⟨_, (step_of_map h).2⟩
    . simp only [Option.some.injEq, Prod.mk.injEq] at h
      exact .inl h.1.symm

omit [DecidableEq κ] in
/--
Every state of the queue is one that the bus can reach.
-/
theorem bus_reaches_of_oneSub {acts : List (QueueAct τ κ)}
    {es : List (Event (τ ⊕ κ) (Op Message) (Res Message))}
    (hreach : (oneSub capacity pattern τ κ).Reaches acts s es)
    : ∃ acts' es', (bus capacity τ).Reaches acts' s es' := by
  refine (oneSub capacity pattern τ κ).reaches_inv
    (fun s _ => ∃ acts' es', (bus capacity τ).Reaches acts' s es') ?_ ?_ hreach
  . rintro s past a s' es ⟨acts', es', hbus⟩ hstep
    rcases State.step_of_queueStep hstep with rfl | ⟨act, es₁, hact⟩
    . exact ⟨acts', es', hbus⟩
    . exact ⟨_, _, (bus capacity τ).run_append hbus ((bus capacity τ).run_one hact)⟩
  . exact ⟨[.subscribe pattern], [.subscribed 0 0], rfl⟩

theorem status_update (pc : τ → OfferPc) (t : τ) (x : OfferPc)
    : status (κ := κ) pattern (update pc t x)
        =
      update (status pattern pc) (.inl t) (x.status pattern) := by
  funext u
  rcases u with t' | c
  . by_cases ht : t' = t
    . subst ht
      simp [status]
    . simp [status, ht]
  . simp [status]

/--
A state of the bus and the queue that it stands for.
-/
structure Mirrors (pattern : String) (s : State capacity τ)
    (q : Contents capacity Message × (τ ⊕ κ → Status (Op Message) (Res Message))) : Prop where
  subs : s.subs.values = [⟨.parse pattern, 0⟩]
  created : 0 < s.created
  connected : (s.subscriptions 0).chan.connected = true
  visits : ∀ t, (s.pc t).VisitsOne pattern
  contents : q.1.values = (s.subscriptions 0).chan.queue
  status : q.2 = status pattern s.pc

variable {q q' : Contents capacity Message × (τ ⊕ κ → Status (Op Message) (Res Message))}

theorem visits_update {pc : τ → OfferPc} (h : ∀ t, (pc t).VisitsOne pattern) {t : τ} {x : OfferPc}
    (hx : x.VisitsOne pattern) : ∀ t', (update pc t x t').VisitsOne pattern := by
  intro t'
  by_cases ht : t' = t
  . subst ht
    rw [update_self]
    exact hx
  . rw [update_of_ne ht]
    exact h t'

theorem Mirrors.status_of_eq (h : Mirrors pattern s q) {t : τ} {x : OfferPc}
    (hx : x.status pattern = (s.pc t).status pattern)
    : q.2 = update q.2 (.inl t) (x.status pattern) := by
  rw [hx, h.status]
  symm
  apply update_eq_self

/--
A step after which only a thread's place in its offer is another one.
-/
theorem Mirrors.of_setPc {st : τ ⊕ κ → Status (Op Message) (Res Message)}
    (h : Mirrors pattern s q) {t : τ} {x : OfferPc}
    (hsubs : s'.subs = s.subs) (hcreated : s'.created = s.created)
    (hsubscriptions : s'.subscriptions = s.subscriptions) (hpc : s'.pc = update s.pc t x)
    (hx : x.VisitsOne pattern) (hst : st = update q.2 (.inl t) (x.status pattern))
    : Mirrors pattern s' (q.1, st) where
  subs := by
    rw [hsubs]
    exact h.subs
  created := by
    rw [hcreated]
    exact h.created
  connected := by
    rw [hsubscriptions]
    exact h.connected
  visits := by
    rw [hpc]
    exact visits_update h.visits hx
  contents := by
    rw [hsubscriptions]
    exact h.contents
  status := by
    rw [hpc, status_update, hst, h.status]

omit [DecidableEq τ] [DecidableEq κ] in
theorem Mirrors.setSubscription (h : Mirrors pattern s q) {subscription : Subscription capacity}
    (hconnected : subscription.chan.connected = true)
    (hcontents : q'.1.values = subscription.chan.queue) (hst : q'.2 = q.2)
    : Mirrors pattern (s.setSubscription 0 subscription) q' where
  subs := h.subs
  created := h.created
  connected := by simpa using hconnected
  visits := h.visits
  contents := by simpa using hcontents
  status := hst.trans h.status

theorem boundedQueue_send (q : Contents capacity Message) (msg : Message) {chan : Channel capacity}
    (hq : q.values = chan.queue) (hconnected : chan.connected = true)
    : (((boundedQueue capacity Message).apply q (.send msg)).1.values = (chan.trySend msg).1.queue)
        ∧
      ((boundedQueue capacity Message).apply q (.send msg)).2
        =
      .sent (OfferResult.toResult
        ⟨if chan.found.any (· < capacity) then 1 else 0,
          if chan.found.any (capacity ≤ ·) then 1 else 0⟩
        msg) := by
  rw [Channel.trySend_queue]
  by_cases hroom : chan.queue.length < capacity
  . simp [boundedQueue, Contents.enqueue, Channel.found, OfferResult.toResult, hq, hconnected,
      hroom, Nat.not_le_of_lt hroom]
  . simp [boundedQueue, Channel.found, OfferResult.toResult, hq, hconnected, hroom,
      Nat.le_of_not_lt hroom]

/--
The only `try_send` of an offer is where it takes effect.
-/
theorem Mirrors.visit (h : Mirrors pattern s q) (t : τ) {msg : Message}
    (hwanted : wanted pattern msg = true)
    : Mirrors pattern (s.visit t msg ⟨.parse pattern, 0⟩ [] 0 0)
        (((boundedQueue capacity Message).apply q.1 (.send msg)).1,
          update q.2 (.inl t)
            (.done ((boundedQueue capacity Message).apply q.1 (.send msg)).2)) := by
  have hsend := boundedQueue_send q.1 msg h.contents h.connected
  have hset : Mirrors pattern
      (s.setSubscription 0
        { s.subscriptions 0 with chan := ((s.subscriptions 0).chan.trySend msg).1 })
      (((boundedQueue capacity Message).apply q.1 (.send msg)).1, q.2) :=
    h.setSubscription ((Channel.trySend_connected _ msg).trans h.connected) hsend.1 rfl
  have hpc := s.visit_pc_eq t msg ⟨.parse pattern, 0⟩ [] 0 0
  refine hset.of_setPc ?_ ?_ ?_ hpc (Or.inr rfl) ?_
  . rw [State.visit_subs]
    rfl
  . rw [State.visit_created]
    rfl
  . rw [State.visit_subscriptions]
    rfl
  . simp [OfferPc.status, hwanted, hsend.2]

theorem oneSub_refines_queue
    : Simulation (oneSub capacity pattern τ κ) (boundedQueue capacity Message).atomic
        (Mirrors pattern) where
  init := {
    subs := rfl
    created := Nat.zero_lt_one
    connected := rfl
    visits := fun _ => trivial
    contents := rfl
    status := by
      funext u
      rcases u with t | c
      . rfl
      . rfl
  }
  step := by
    rintro s ⟨q, st⟩ a s' es mirrors hstep
    have hstatus : st = status pattern s.pc := mirrors.status
    cases a with
    | offer t arg now =>
      rcases State.step_of_map hstep with ⟨rfl, us, hbus⟩
      cases Step.of_step hbus with
      | offer hpc =>
        split
        . next hwanted =>
          refine ⟨_, _, Object.run_call _ q st (.inl t) ?_, ?_⟩
          . rw [hstatus]
            simp [status, OfferPc.status, hpc]
          . refine mirrors.of_setPc rfl rfl rfl rfl trivial ?_
            simp [OfferPc.status, hwanted]
        . next hwanted =>
          have hidle : (OfferPc.lock arg now).status pattern = (s.pc t).status pattern := by
            simp [OfferPc.status, hwanted, hpc]
          exact ⟨[], (q, st), rfl,
            mirrors.of_setPc rfl rfl rfl rfl trivial (mirrors.status_of_eq hidle)⟩
    | lock t =>
      rcases State.step_of_map hstep with ⟨rfl, us, hbus⟩
      cases Step.of_step hbus with
      | @lock _ _ arg now hpc hlock hvalues =>
        have hcalled : (OfferPc.sending (stamp arg now) s.subs.values 0 0).status pattern
            = (s.pc t).status pattern := by
          rw [hpc, mirrors.subs]
          rfl
        exact ⟨[], (q, st), rfl,
          mirrors.of_setPc rfl rfl rfl rfl (Or.inl ⟨mirrors.subs, rfl, rfl⟩)
            (mirrors.status_of_eq hcalled)⟩
    | trySend t =>
      rcases State.step_of_map hstep with ⟨rfl, us, hbus⟩
      have hvisits := mirrors.visits t
      cases Step.of_step hbus with
      | @visit _ msg sub pending sent dropped hpc hmatch =>
        rw [hpc] at hvisits
        rcases hvisits with ⟨hone, rfl, rfl⟩ | hnone
        . rw [List.cons.injEq] at hone
          rcases hone with ⟨rfl, rfl⟩
          refine ⟨_, _, Object.run_takeEffect _ q st (.inl t) ?_, mirrors.visit t hmatch⟩
          rw [hstatus]
          simp [status, OfferPc.status, hpc, hmatch, wanted]
        . contradiction
      | @skip _ msg sub pending sent dropped hpc hmatch =>
        rw [hpc] at hvisits
        rcases hvisits with ⟨hone, rfl, rfl⟩ | hnone
        . rw [List.cons.injEq] at hone
          rcases hone with ⟨rfl, rfl⟩
          have hidle : (OfferPc.sending msg [] 0 0).status pattern = (s.pc t).status pattern := by
            simp [OfferPc.status, hpc, hmatch, wanted]
          exact ⟨[], (q, st), rfl,
            mirrors.of_setPc rfl rfl rfl rfl (Or.inr rfl) (mirrors.status_of_eq hidle)⟩
        . contradiction
    | unlock t =>
      simp only [oneSub, State.queueStep] at hstep
      split at hstep
      . next msg pending sent dropped hsending =>
        rcases State.step_of_map hstep with ⟨rfl, us, hbus⟩
        cases Step.of_step hbus with
        | @unlock _ msg' sent' dropped' hpc =>
          rw [hpc] at hsending
          cases hsending
          split
          . next hwanted =>
            refine ⟨_, _, Object.run_ret _ q st (.inl t) ?_, ?_⟩
            . rw [hstatus]
              simp [status, OfferPc.status, hpc, hwanted]
            . exact mirrors.of_setPc rfl rfl rfl rfl trivial rfl
          . next hwanted =>
            have hidle : OfferPc.idle.status pattern = (s.pc t).status pattern := by
              simp [OfferPc.status, hpc, hwanted]
            exact ⟨[], (q, st), rfl,
              mirrors.of_setPc rfl rfl rfl rfl trivial (mirrors.status_of_eq hidle)⟩
      . contradiction
    | tryRecv c =>
      have hidle : st (.inr c) = .idle := by
        rw [hstatus]
        rfl
      have hcontents : q.values = (s.subscriptions 0).chan.queue := mirrors.contents
      have hrun := Object.run_all (boundedQueue capacity Message) q st (.inr c) .recv hidle
      simp only [oneSub, State.queueStep] at hstep
      split at hstep
      . next msg rest hqueue =>
        rcases State.step_of_map hstep with ⟨rfl, us, hbus⟩
        cases Step.of_step hbus with
        | recv _ hcreated hconnected =>
          have hres : ((boundedQueue capacity Message).apply q .recv).2
              = .received (some (.init msg)) := by
            simp [boundedQueue, hcontents, hqueue]
          rw [hres] at hrun
          have hdequeue : q.dequeue.values = (s.subscriptions 0).chan.pop.queue := by
            simp [Contents.dequeue, Channel.pop, hcontents]
          exact ⟨_, (q.dequeue, st), hrun, mirrors.setSubscription hconnected hdequeue rfl⟩
      . next hqueue =>
        simp only [Option.some.injEq, Prod.mk.injEq] at hstep
        rcases hstep with ⟨rfl, rfl⟩
        have hres : ((boundedQueue capacity Message).apply q .recv).2 = .received none := by
          simp [boundedQueue, hcontents, hqueue]
        rw [hres] at hrun
        refine ⟨_, (q.dequeue, st), hrun, { mirrors with contents := ?_ }⟩
        simp [Contents.dequeue, hcontents, hqueue]

theorem oneSub_linearizable {acts : List (QueueAct τ κ)}
    {es : List (Event (τ ⊕ κ) (Op Message) (Res Message))}
    (hreach : (oneSub capacity pattern τ κ).Reaches acts s es)
    : (boundedQueue capacity Message).Linearizable es :=
  oneSub_refines_queue.linearizable hreach

/--
Two offers overlap, and the one that was called last takes the lock first.
-/
theorem oneSub_linearizable_overlapping
    : ∃ s es,
        (oneSub 1 "a*" Bool Unit).Reaches
            [.offer true (.new "ab" [1]) 5, .offer false (.new "ab" [2]) 6, .lock false,
              .trySend false, .tryRecv (), .unlock false, .lock true, .trySend true, .unlock true,
              .tryRecv ()] s es
          ∧
        (s.subscriptions 0).received = [stamp (.new "ab" [2]) 6, stamp (.new "ab" [1]) 5]
          ∧
        (boundedQueue 1 Message).Linearizable es := by
  have hreach := (oneSub 1 "a*" Bool Unit).reaches_get
    [.offer true (.new "ab" [1]) 5, .offer false (.new "ab" [2]) 6, .lock false, .trySend false,
      .tryRecv (), .unlock false, .lock true, .trySend true, .unlock true, .tryRecv ()]
    (by decide +kernel)
  exact ⟨_, _, hreach, by decide +kernel, oneSub_linearizable hreach⟩

/--
The same calls, one after the other, give the same results on the ring and on a bus with one
subscription, those of the queue. The bus stamps what is offered, so the ring is sent the stamped
messages.
-/
theorem backends_agree {w : Nat} {L : Layout w} {acts : List (Spsc.Act Unit Unit Message)}
    {acts' : List (QueueAct τ κ)} {r : Spsc.State L Unit Unit Message} {b : State L.capacity τ}
    {calls : List ((Unit ⊕ Unit) × Op Message × Res Message)}
    {calls' : List ((τ ⊕ κ) × Op Message × Res Message)}
    (hring : (threads L Unit Unit Message).Reaches acts r (sequential calls))
    (hbus : (oneSub L.capacity pattern τ κ).Reaches acts' b (sequential calls'))
    (hops : calls.map (·.2.1) = calls'.map (·.2.1))
    : calls.map (·.2.2) = calls'.map (·.2.2)
        ∧
      calls.map (·.2.2)
        =
      (boundedQueue L.capacity Message).results (boundedQueue L.capacity Message).init
        (calls.map (·.2.1)) := by
  have hcalls := (ring_refines_queue.linearizable hring).results
  have hcalls' := (oneSub_refines_queue.linearizable hbus).results
  rw [← hops] at hcalls'
  exact ⟨hcalls.trans hcalls'.symm, hcalls⟩

deriving instance DecidableEq for Spsc.Res

def fourCalls (t t' : τ) (c : κ) : List ((τ ⊕ κ) × Op Message × Res Message) :=
  [ (.inl t, .send (stamp (.new "ab" [1]) 5), .sent (.ok ())),
    (.inl t', .send (stamp (.new "ab" [2]) 6), .sent (.ok ())),
    (.inl t, .send (stamp (.new "ab" [3]) 7), .sent (.error (stamp (.new "ab" [3]) 7))),
    (.inr c, .recv, .received (some (.init (stamp (.new "ab" [1]) 5)))) ]

/--
The bus is also offered a message that its subscriber does not want.
-/
theorem backends_agree_four_calls
    : ∃ acts r acts' b,
        (threads twoSlots Unit Unit Message).Reaches acts r (sequential (fourCalls () () ()))
          ∧
        (oneSub 2 "a*" Bool Unit).Reaches acts' b (sequential (fourCalls true false ()))
          ∧
        (fourCalls () () ()).map (·.2.2) = (fourCalls true false ()).map (·.2.2)
          ∧
        (fourCalls () () ()).map (·.2.2)
          =
        (boundedQueue 2 Message).results .empty ((fourCalls () () ()).map (·.2.1)) := by
  have hring : ((threads twoSlots Unit Unit Message).run (.init twoSlots Unit Unit Message)
      [.trySend () (stamp (.new "ab" [1]) 5), .loadTail (), .write (), .storeHead (),
        .trySend () (stamp (.new "ab" [2]) 6), .loadTail (), .write (), .storeHead (),
        .trySend () (stamp (.new "ab" [3]) 7), .loadTail (),
        .tryRecv (), .loadHead (), .read (), .storeTail ()]).map Prod.snd
        =
      some (sequential (fourCalls () () ())) := by decide +kernel
  have hbus : ((oneSub 2 "a*" Bool Unit).run (.subscribedTo 2 "a*" Bool)
      [.offer true (.new "ab" [1]) 5, .lock true, .trySend true, .unlock true,
        .offer false (.new "ab" [2]) 6, .lock false, .trySend false, .unlock false,
        .offer false (.new "b" [9]) 6, .lock false, .trySend false, .unlock false,
        .offer true (.new "ab" [3]) 7, .lock true, .trySend true, .unlock true,
        .tryRecv ()]).map Prod.snd
        =
      some (sequential (fourCalls true false ())) := by decide +kernel
  rw [Option.map_eq_some_iff] at hring hbus
  rcases hring with ⟨⟨r, es⟩, hring, rfl⟩
  rcases hbus with ⟨⟨b, es'⟩, hbus, rfl⟩
  exact ⟨_, r, _, b, hring, hbus, backends_agree hring hbus rfl⟩

end Bus
