import Mathlib.Data.List.Perm.Basic
import Cadence.Bus.Lemmas.Accounting

/-!
This module contains the loop of `offer` as a fold over the values of the registry, and from it that
the order in which `HashMap::values` enumerates them makes no difference.
-/

open Lts Function

namespace Bus

variable {capacity : Nat} {τ : Type}

structure Loop (capacity : Nat) where
  subscriptions : Nat → Subscription capacity
  dropCount : UInt64
  sent : Nat
  dropped : Nat

namespace Loop

def trySend (loop : Loop capacity) (i : Nat) (msg : Message) : Loop capacity :=
  let subscription := loop.subscriptions i
  let full := if subscription.chan.found.any (capacity ≤ ·) then 1 else 0
  { subscriptions := update loop.subscriptions i
      { subscription with chan := (subscription.chan.trySend msg).1 }
    dropCount := loop.dropCount + UInt64.ofNat full
    sent := loop.sent + if subscription.chan.found.any (· < capacity) then 1 else 0
    dropped := loop.dropped + full }

theorem trySend_subscriptions (loop : Loop capacity) (i : Nat) (msg : Message)
    : (loop.trySend i msg).subscriptions
        =
      update loop.subscriptions i
        { loop.subscriptions i with chan := ((loop.subscriptions i).chan.trySend msg).1 } := rfl

def visit (msg : Message) (loop : Loop capacity) (sub : Sub) : Loop capacity :=
  if sub.filter.matchesTopic msg.topicStr then loop.trySend sub.tx msg else loop

theorem trySend_comm (loop : Loop capacity) (i j : Nat) (msg : Message)
    : (loop.trySend i msg).trySend j msg = (loop.trySend j msg).trySend i msg := by
  by_cases hij : i = j
  . rw [hij]
  . have hji := Ne.symm hij
    unfold trySend
    simp only [update_of_ne hij, update_of_ne hji, Loop.mk.injEq]
    refine ⟨?_, ?_, ?_, ?_⟩
    . apply update_comm hij
    . ac_rfl
    . ac_rfl
    . ac_rfl

theorem visit_comm (msg : Message) (loop : Loop capacity) (sub sub' : Sub)
    : (loop.visit msg sub).visit msg sub' = (loop.visit msg sub').visit msg sub := by
  unfold visit
  split
  . split
    . apply trySend_comm
    . rfl
  . rfl

theorem foldl_visit_of_perm {msg : Message} {values values' : List Sub} (h : values.Perm values')
    (loop : Loop capacity) : values.foldl (visit msg) loop = values'.foldl (visit msg) loop := by
  apply h.foldl_eq'
  intro sub _ sub' _ loop
  apply visit_comm

theorem visit_subscriptions_of_ne (msg : Message) (loop : Loop capacity) {sub : Sub} {i : Nat}
    (h : i ≠ sub.tx) : (loop.visit msg sub).subscriptions i = loop.subscriptions i := by
  unfold visit
  split
  . apply update_of_ne h
  . rfl

theorem foldl_visit_of_notMem (msg : Message) (loop : Loop capacity) {values : List Sub} {i : Nat}
    (h : i ∉ values.map Sub.tx)
    : (values.foldl (visit msg) loop).subscriptions i = loop.subscriptions i := by
  induction values generalizing loop with
  | nil => rfl
  | cons sub values ih =>
    rw [List.map_cons, List.mem_cons, not_or] at h
    rw [List.foldl_cons, ih _ h.2, visit_subscriptions_of_ne msg loop h.1]

theorem foldl_visit_of_mem (msg : Message) (loop : Loop capacity) {values : List Sub} {sub : Sub}
    (hnodup : (values.map Sub.tx).Nodup) (hsub : sub ∈ values)
    : (values.foldl (visit msg) loop).subscriptions sub.tx
        =
      (loop.visit msg sub).subscriptions sub.tx := by
  -- what comes first in the enumeration may as well be the subscription in question
  rcases List.append_of_mem hsub with ⟨before, after, rfl⟩
  have hperm : (before ++ sub :: after).Perm (sub :: (before ++ after)) := List.perm_middle
  have hrest := ((hperm.map Sub.tx).nodup_iff).mp hnodup
  rw [List.map_cons, List.nodup_cons] at hrest
  rw [foldl_visit_of_perm hperm, List.foldl_cons, foldl_visit_of_notMem msg _ hrest.1]

end Loop

section Run

variable [DecidableEq τ] {s₀ s : State capacity τ} {t : τ} {msg : Message} {sub : Sub}
variable {pending : List Sub} {loop : Loop capacity}

/--
A state that `t` can reach from `s₀` in its loop, with `pending` still to be visited.
-/
structure AtLoop (s₀ : State capacity τ) (t : τ) (msg : Message) (pending : List Sub)
    (loop : Loop capacity) (s : State capacity τ) : Prop where
  pc : s.pc = update s₀.pc t (.sending msg pending loop.sent loop.dropped)
  subscriptions : s.subscriptions = loop.subscriptions
  dropCount : s.dropCount = loop.dropCount
  subs : s.subs = s₀.subs
  nextId : s.nextId = s₀.nextId
  created : s.created = s₀.created

namespace AtLoop

theorem visit (h : AtLoop s₀ t msg (sub :: pending) loop s)
    : AtLoop s₀ t msg pending (loop.trySend sub.tx msg)
        (s.visit t msg sub pending loop.sent loop.dropped) where
  pc := by
    rw [State.visit_pc_eq, h.pc, h.subscriptions, update_idem]
    rfl
  subscriptions := by
    rw [State.visit_subscriptions, h.subscriptions]
    rfl
  dropCount := by
    rw [State.visit_dropCount, h.dropCount, h.subscriptions]
    unfold Loop.trySend
    dsimp only
    split <;> rfl
  subs := by rw [State.visit_subs, h.subs]
  nextId := by rw [State.visit_nextId, h.nextId]
  created := by rw [State.visit_created, h.created]

theorem step (h : AtLoop s₀ t msg (sub :: pending) loop s)
    : ∃ s', s.step (.trySend t) = some (s', []) ∧ AtLoop s₀ t msg pending (loop.visit msg sub) s' := by
  have hpc : s.pc t = .sending msg (sub :: pending) loop.sent loop.dropped := by
    rw [h.pc, update_self]
  unfold Loop.visit
  simp only [State.step, hpc]
  split
  . exact ⟨_, rfl, h.visit⟩
  . refine ⟨_, rfl, ?_⟩
    exact {
      h with
      pc := by
        unfold State.setPc
        dsimp only
        rw [h.pc, update_idem]
    }

theorem run (h : AtLoop s₀ t msg pending loop s)
    : ∃ s', (bus capacity τ).run s (List.replicate pending.length (.trySend t)) = some (s', [])
        ∧ AtLoop s₀ t msg [] (pending.foldl (Loop.visit msg) loop) s' := by
  induction pending generalizing s loop with
  | nil => exact ⟨s, rfl, h⟩
  | cons sub pending ih =>
    rcases h.step with ⟨s', hstep, h'⟩
    rcases ih h' with ⟨s'', hrun, h''⟩
    refine ⟨s'', ?_, h''⟩
    rw [List.length_cons, List.replicate_succ, System.run_cons_eq_some]
    exact ⟨s', [], [], hstep, hrun, rfl⟩

end AtLoop

/--
A whole `offer` with no other step in between.
-/
def offerActs (t : τ) (arg : Message) (now : UInt64) (values : List Sub) : List (Act τ) :=
  [.offer t arg now, .lock t values] ++ List.replicate values.length (.trySend t) ++ [.unlock t]

def State.startLoop (s : State capacity τ) : Loop capacity :=
  ⟨s.subscriptions, s.dropCount, 0, 0⟩

/--
What `offer` leaves behind when its loop ends with `loop`.
-/
structure AfterLoop (s : State capacity τ) (loop : Loop capacity) (s' : State capacity τ)
    : Prop where
  lock : s'.lock = none
  pc : s'.pc = s.pc
  subscriptions : s'.subscriptions = loop.subscriptions
  dropCount : s'.dropCount = loop.dropCount
  subs : s'.subs = s.subs
  nextId : s'.nextId = s.nextId
  created : s'.created = s.created

theorem run_offerActs {arg : Message} {now : UInt64} {values : List Sub} (hlock : s.lock = none)
    (hidle : s.pc t = .idle) (hvalues : values.Perm s.subs.values)
    (hloop : values.foldl (Loop.visit (stamp arg now)) s.startLoop = loop)
    : ∃ s', (bus capacity τ).run s (offerActs t arg now values)
          = some (s', [.offer t arg now, .offered t ⟨loop.sent, loop.dropped⟩])
        ∧ AfterLoop s loop s' := by
  let s₁ := s.setPc t (.lock arg now)
  let s₂ := { s₁ with
    lock := some t
    current := some ⟨t, arg, now, values.map Sub.tx, []⟩ }.setPc t
      (.sending (stamp arg now) values 0 0)
  have hoffer : s.step (.offer t arg now) = some (s₁, [.offer t arg now]) := by
    simp only [State.step, hidle]
    rfl
  have hlocked : s₁.step (.lock t values) = some (s₂, []) := by
    have hpc : s₁.pc t = .lock arg now := by simp [s₁]
    have hfree : s₁.lock.isNone ∧ values.Perm s₁.subs.values :=
      ⟨Option.isNone_iff_eq_none.mpr hlock, hvalues⟩
    simp only [State.step, hpc]
    rw [if_pos hfree]
  have hstart : AtLoop s t (stamp arg now) values s.startLoop s₂ := by
    refine ⟨?_, rfl, rfl, rfl, rfl, rfl⟩
    apply update_idem
  rcases hstart.run with ⟨s₃, hrun, hend⟩
  rw [hloop] at hend
  have hpc : s₃.pc t = .sending (stamp arg now) [] loop.sent loop.dropped := by
    rw [hend.pc, update_self]
  let s₄ := { s₃ with
    lock := none
    current := none
    offers := s₃.offers ++ s₃.current.toList }.setPc t .idle
  have hunlock : s₃.step (.unlock t) = some (s₄, [.offered t ⟨loop.sent, loop.dropped⟩]) := by
    simp only [State.step, hpc]
    rfl
  refine ⟨s₄, ?_, rfl, ?_, hend.subscriptions, hend.dropCount, hend.subs, hend.nextId, hend.created⟩
  . have hfirst : (bus capacity τ).run s [.offer t arg now, .lock t values]
        = some (s₂, [.offer t arg now]) := by
      rw [System.run_cons_eq_some]
      exact ⟨s₁, _, _, hoffer, System.run_one _ hlocked, rfl⟩
    exact System.run_append _ (System.run_append _ hfirst hrun) (System.run_one _ hunlock)
  . change update s₃.pc t .idle = s.pc
    rw [hend.pc, update_idem, ← hidle, update_eq_self]

end Run

/--
No two entries of the registry share a channel, as `subscribe` creates one for each.
-/
def State.OwnQueues (s : State capacity τ) : Prop :=
  (s.subs.values.map Sub.tx).Nodup

theorem ownQueues_of_reaches [DecidableEq τ] {acts : List (Act τ)} {s : State capacity τ}
    {es : List (Output τ)} (hreach : (bus capacity τ).Reaches acts s es) : s.OwnQueues :=
  (bus_inv hreach).nodup

def State.takes (s : State capacity τ) (msg : Message) (i : Nat) : Prop :=
  (∃ sub ∈ s.subs.values, sub.tx = i ∧ sub.filter.matchesTopic msg.topicStr = true)
    ∧
  (s.subscriptions i).chan.connected = true ∧ (s.subscriptions i).chan.queue.length < capacity

/--
What a try_send may change of a subscription is its queue.
-/
structure SameButQueue (a b : Subscription capacity) : Prop where
  pattern : b.pattern = a.pattern
  received : b.received = a.received
  discarded : b.discarded = a.discarded
  connected : b.chan.connected = a.chan.connected

theorem SameButQueue.refl (a : Subscription capacity) : SameButQueue a a :=
  ⟨rfl, rfl, rfl, rfl⟩

theorem SameButQueue.trans {a b c : Subscription capacity} (h : SameButQueue a b)
    (h' : SameButQueue b c) : SameButQueue a c where
  pattern := h'.pattern.trans h.pattern
  received := h'.received.trans h.received
  discarded := h'.discarded.trans h.discarded
  connected := h'.connected.trans h.connected

theorem Loop.visit_sameButQueue (msg : Message) (loop : Loop capacity) (sub : Sub) (i : Nat)
    : SameButQueue (loop.subscriptions i) ((loop.visit msg sub).subscriptions i) := by
  by_cases hi : i = sub.tx
  . subst hi
    unfold visit
    split
    . rw [trySend_subscriptions, update_self]
      exact ⟨rfl, rfl, rfl, Channel.trySend_connected _ _⟩
    . apply SameButQueue.refl
  . rw [visit_subscriptions_of_ne msg loop hi]
    apply SameButQueue.refl

theorem Loop.foldl_visit_sameButQueue (msg : Message) (loop : Loop capacity) (values : List Sub)
    (i : Nat)
    : SameButQueue (loop.subscriptions i) ((values.foldl (visit msg) loop).subscriptions i) := by
  induction values generalizing loop with
  | nil => apply SameButQueue.refl
  | cons sub values ih =>
    rw [List.foldl_cons]
    apply (loop.visit_sameButQueue msg sub i).trans
    apply ih

/--
All that an offer of `msg` changes, beyond what it adds to the drop counter.
-/
structure Touches (s : State capacity τ) (msg : Message) (s' : State capacity τ) : Prop where
  subs : s'.subs = s.subs
  nextId : s'.nextId = s.nextId
  others : ∀ i, SameButQueue (s.subscriptions i) (s'.subscriptions i)
  queue : s.OwnQueues → ∀ i, s.takes msg i →
    (s'.subscriptions i).chan.queue = (s.subscriptions i).chan.queue ++ [msg]
  untouched : ∀ i, ¬ s.takes msg i → s'.subscriptions i = s.subscriptions i

theorem Channel.trySend_of_not_room {chan : Channel capacity} {msg : Message}
    (h : ¬ (chan.connected = true ∧ chan.queue.length < capacity)) : (chan.trySend msg).1 = chan := by
  unfold trySend
  split
  . next hconnected =>
    rw [dif_neg fun hroom => h ⟨hconnected, hroom⟩]
  . rfl

theorem Channel.trySend_of_room {chan : Channel capacity} {msg : Message}
    (hconnected : chan.connected = true) (hroom : chan.queue.length < capacity)
    : (chan.trySend msg).1.queue = chan.queue ++ [msg] := by
  rw [trySend_queue, if_pos]
  unfold found
  rw [if_pos hconnected]
  simpa using hroom

theorem Loop.foldl_visit_of_not_room (msg : Message) (loop : Loop capacity) {values : List Sub}
    {i : Nat}
    (h : ∀ sub ∈ values, sub.tx = i → sub.filter.matchesTopic msg.topicStr = true →
      ¬ ((loop.subscriptions i).chan.connected = true
        ∧ (loop.subscriptions i).chan.queue.length < capacity))
    : (values.foldl (visit msg) loop).subscriptions i = loop.subscriptions i := by
  induction values generalizing loop with
  | nil => rfl
  | cons sub values ih =>
    have hvisit : (loop.visit msg sub).subscriptions i = loop.subscriptions i := by
      by_cases hi : i = sub.tx
      . subst hi
        unfold visit
        split
        . next hmatch =>
          rw [trySend_subscriptions, update_self,
            Channel.trySend_of_not_room (h sub List.mem_cons_self rfl hmatch)]
        . rfl
      . apply visit_subscriptions_of_ne msg loop hi
    rw [List.foldl_cons, ih, hvisit]
    intro sub' hsub'
    rw [hvisit]
    apply h sub' (List.mem_cons_of_mem _ hsub')

theorem AfterLoop.touches {s s' : State capacity τ} {msg : Message} {values : List Sub}
    (hvalues : values.Perm s.subs.values)
    (h : AfterLoop s (values.foldl (Loop.visit msg) s.startLoop) s') : Touches s msg s' where
  subs := h.subs
  nextId := h.nextId
  others := by
    intro i
    rw [h.subscriptions]
    exact Loop.foldl_visit_sameButQueue msg s.startLoop values i
  queue := by
    rintro hown i ⟨⟨sub, hsub, rfl, hmatch⟩, hconnected, hroom⟩
    have hnodup := ((hvalues.map Sub.tx).nodup_iff).mpr hown
    rw [h.subscriptions, Loop.foldl_visit_of_mem msg _ hnodup (hvalues.mem_iff.mpr hsub)]
    unfold Loop.visit
    rw [if_pos hmatch, Loop.trySend_subscriptions, update_self]
    exact Channel.trySend_of_room hconnected hroom
  untouched := by
    intro i htakes
    rw [h.subscriptions]
    apply Loop.foldl_visit_of_not_room
    rintro sub hsub rfl hmatch hroom
    apply htakes
    exact ⟨⟨sub, hvalues.mem_iff.mp hsub, rfl, hmatch⟩, hroom⟩

theorem offer_orderless [DecidableEq τ] {s : State capacity τ} {t : τ} {values values' : List Sub}
    (msg : Message) (now : UInt64) (hlock : s.lock = none) (hidle : s.pc t = .idle)
    (hvalues : values.Perm s.subs.values) (hvalues' : values'.Perm s.subs.values)
    : ∃ s₁ s₂ result,
        (bus capacity τ).run s (offerActs t msg now values)
            = some (s₁, [.offer t msg now, .offered t result])
          ∧
        (bus capacity τ).run s (offerActs t msg now values')
            = some (s₂, [.offer t msg now, .offered t result])
          ∧
        s₁.dropCount = s₂.dropCount ∧ s₁.subscriptions = s₂.subscriptions
          ∧
        Touches s (stamp msg now) s₁ ∧ Touches s (stamp msg now) s₂ := by
  rcases run_offerActs (t := t) hlock hidle hvalues rfl with ⟨s₁, hrun₁, hafter₁⟩
  rcases run_offerActs (t := t) hlock hidle hvalues' rfl with ⟨s₂, hrun₂, hafter₂⟩
  have hfold : values.foldl (Loop.visit (stamp msg now)) s.startLoop
      = values'.foldl (Loop.visit (stamp msg now)) s.startLoop :=
    Loop.foldl_visit_of_perm (hvalues.trans hvalues'.symm) s.startLoop
  rw [← hfold] at hrun₂
  refine ⟨s₁, s₂, _, hrun₁, hrun₂, ?_, ?_, hafter₁.touches hvalues, hafter₂.touches hvalues'⟩
  . rw [hafter₁.dropCount, hafter₂.dropCount, hfold]
  . rw [hafter₁.subscriptions, hafter₂.subscriptions, hfold]

theorem offer_orderless_two
    : ∃ s es,
        (bus 1 Unit).Reaches [.subscribe "a", .subscribe "a*"] s es
          ∧
        ∃ s₁ s₂ result,
          (bus 1 Unit).run s
                (offerActs () (.new "a" [1]) 5 [⟨.exact "a", 0⟩, ⟨.prefixed "a", 1⟩])
              = some (s₁, [.offer () (.new "a" [1]) 5, .offered () result])
            ∧
          (bus 1 Unit).run s
                (offerActs () (.new "a" [1]) 5 [⟨.prefixed "a", 1⟩, ⟨.exact "a", 0⟩])
              = some (s₂, [.offer () (.new "a" [1]) 5, .offered () result])
            ∧
          s₁.dropCount = s₂.dropCount ∧ s₁.subscriptions = s₂.subscriptions
            ∧
          Touches s (stamp (.new "a" [1]) 5) s₁ ∧ Touches s (stamp (.new "a" [1]) 5) s₂ := by
  have hreach := (bus 1 Unit).reaches_get [.subscribe "a", .subscribe "a*"] (by decide +kernel)
  exact ⟨_, _, hreach, offer_orderless (.new "a" [1]) 5 rfl rfl (by decide +kernel)
    (by decide +kernel)⟩

end Bus
