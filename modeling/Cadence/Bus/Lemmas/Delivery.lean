import Cadence.Bus.Impl.Bus

/-!
This module contains delivery: what a subscription has received and what is in its queue are exactly
the offers that found it registered, matched its pattern and found room.
-/

open Lts Function

namespace Bus

variable {capacity : Nat} {τ : Type}

namespace Offer

def triesOn (o : Offer τ) (i : Nat) : List (Option Nat) :=
  (o.tries.filter (·.1 = i)).map Prod.snd

/--
Subscription `i` was registered when the offer took the lock, and its pattern matches.
-/
def addressed (o : Offer τ) (pattern : String) (i : Nat) : Bool :=
  decide (i ∈ o.registered) && (Filter.parse pattern).matchesTopic o.msg.topicStr

def foundRoom (o : Offer τ) (capacity i : Nat) : Bool :=
  (o.triesOn i).any fun found => found.any (· < capacity)

/--
The offer has called `try_send` on channel `i` as often as it should: once if it is addressed.
-/
def Settled (o : Offer τ) (pattern : String) (i : Nat) : Prop :=
  (o.triesOn i).length = if o.addressed pattern i then 1 else 0

theorem triesOn_note (o : Offer τ) (i j : Nat) (found : Option Nat)
    : (o.note i found).triesOn j = if i = j then o.triesOn j ++ [found] else o.triesOn j := by
  unfold triesOn note
  rw [List.filter_append, List.map_append]
  split
  . next h => simp [h]
  . next h => simp [h]

theorem addressed_note (o : Offer τ) (i j : Nat) (found : Option Nat) (pattern : String)
    : (o.note i found).addressed pattern j = o.addressed pattern j := rfl

theorem foundRoom_of_untried {o : Offer τ} {i : Nat} (h : o.triesOn i = [])
    : o.foundRoom capacity i = false := by
  unfold foundRoom
  rw [h]
  rfl

theorem foundRoom_note_of_ne {o : Offer τ} {i j : Nat} (h : i ≠ j) (found : Option Nat)
    : (o.note i found).foundRoom capacity j = o.foundRoom capacity j := by
  unfold foundRoom
  rw [triesOn_note, if_neg h]

theorem foundRoom_note_self {o : Offer τ} {i : Nat} (h : o.triesOn i = []) (found : Option Nat)
    : (o.note i found).foundRoom capacity i = found.any (· < capacity) := by
  unfold foundRoom
  rw [triesOn_note, if_pos rfl, h]
  simp

theorem Settled.note_of_ne {o : Offer τ} {i j : Nat} {pattern : String} (h : i ≠ j)
    (settled : o.Settled pattern j) (found : Option Nat) : (o.note i found).Settled pattern j := by
  unfold Settled
  rw [triesOn_note, if_neg h, addressed_note]
  exact settled

theorem settled_note_self {o : Offer τ} {i : Nat} {pattern : String} (h : o.triesOn i = [])
    (haddressed : o.addressed pattern i = true) (found : Option Nat)
    : (o.note i found).Settled pattern i := by
  unfold Settled
  rw [triesOn_note, if_pos rfl, addressed_note, haddressed, h]
  rfl

end Offer

/--
The messages of the offers in `log` that are addressed to subscription `i` and found room in its
queue.
-/
def delivered (capacity : Nat) (pattern : String) (i : Nat) (log : List (Offer τ)) : List Message :=
  (log.filter fun o => o.addressed pattern i && o.foundRoom capacity i).map Offer.msg

theorem delivered_append (pattern : String) (i : Nat) (log log' : List (Offer τ))
    : delivered capacity pattern i (log ++ log')
        =
      delivered capacity pattern i log ++ delivered capacity pattern i log' := by
  unfold delivered
  rw [List.filter_append, List.map_append]

theorem delivered_of_notMem {pattern : String} {i : Nat} {log : List (Offer τ)}
    (h : ∀ o ∈ log, i ∉ o.registered) : delivered capacity pattern i log = [] := by
  unfold delivered
  rw [List.filter_eq_nil_iff.mpr]
  . rfl
  . intro o ho
    simp [Offer.addressed, h o ho]

theorem delivered_singleton (pattern : String) (i : Nat) (o : Offer τ)
    : delivered capacity pattern i [o]
        =
      if o.addressed pattern i && o.foundRoom capacity i then [o.msg] else [] := by
  unfold delivered
  rw [List.filter_cons, List.filter_nil]
  split <;> rfl

theorem delivered_note_of_ne {pattern : String} {o : Offer τ} {i j : Nat} (h : i ≠ j)
    (found : Option Nat)
    : delivered capacity pattern j [o.note i found] = delivered capacity pattern j [o] := by
  rw [delivered_singleton, delivered_singleton, Offer.addressed_note, Offer.foundRoom_note_of_ne h]
  rfl

namespace State

def log (s : State capacity τ) : List (Offer τ) :=
  s.offers ++ s.current.toList

def pattern (s : State capacity τ) (i : Nat) : String :=
  (s.subscriptions i).pattern

theorem pattern_setSubscription {s : State capacity τ} {i : Nat}
    {subscription : Subscription capacity} (h : subscription.pattern = s.pattern i)
    : (s.setSubscription i subscription).pattern = s.pattern := by
  funext j
  unfold pattern at h ⊢
  by_cases hj : j = i
  . subst hj
    simp [h]
  . simp [hj]

section Visit

variable [DecidableEq τ]
variable (s : State capacity τ) (t : τ) (msg : Message) (sub : Sub) (pending : List Sub)
variable (sent dropped : Nat)

@[simp]
theorem visit_subs : (s.visit t msg sub pending sent dropped).subs = s.subs := by
  unfold visit
  dsimp only
  split <;> rfl

@[simp]
theorem visit_nextId : (s.visit t msg sub pending sent dropped).nextId = s.nextId := by
  unfold visit
  dsimp only
  split <;> rfl

@[simp]
theorem visit_created : (s.visit t msg sub pending sent dropped).created = s.created := by
  unfold visit
  dsimp only
  split <;> rfl

@[simp]
theorem visit_lock : (s.visit t msg sub pending sent dropped).lock = s.lock := by
  unfold visit
  dsimp only
  split <;> rfl

@[simp]
theorem visit_offers : (s.visit t msg sub pending sent dropped).offers = s.offers := by
  unfold visit
  dsimp only
  split <;> rfl

@[simp]
theorem visit_current
    : (s.visit t msg sub pending sent dropped).current
        =
      s.current.map fun o => o.note sub.tx (s.subscriptions sub.tx).chan.found := by
  unfold visit
  dsimp only
  split <;> rfl

theorem visit_log {o : Offer τ} (ho : s.current = some o)
    : (s.visit t msg sub pending sent dropped).log
        = s.offers ++ [o.note sub.tx (s.subscriptions sub.tx).chan.found] := by
  unfold log
  rw [visit_offers, visit_current, ho]
  rfl

theorem visit_subscriptions
    : (s.visit t msg sub pending sent dropped).subscriptions
        =
      update s.subscriptions sub.tx
        { s.subscriptions sub.tx with chan := ((s.subscriptions sub.tx).chan.trySend msg).1 } := by
  unfold visit
  dsimp only
  split <;> rfl

theorem visit_pc
    : ∃ sent' dropped',
        (s.visit t msg sub pending sent dropped).pc
          =
        update s.pc t (.sending msg pending sent' dropped') := by
  unfold visit
  dsimp only
  split
  . exact ⟨_, _, rfl⟩
  . exact ⟨_, _, rfl⟩
  . exact ⟨_, _, rfl⟩

theorem visit_pattern : (s.visit t msg sub pending sent dropped).pattern = s.pattern := by
  funext j
  unfold pattern
  rw [visit_subscriptions]
  by_cases hj : j = sub.tx
  . subst hj
    simp
  . simp [hj]

end Visit
end State

theorem Channel.trySend_queue (chan : Channel capacity) (msg : Message)
    : (chan.trySend msg).1.queue
        =
      if chan.found.any (· < capacity) then chan.queue ++ [msg] else chan.queue := by
  unfold trySend found
  split
  . split
    . next h => simp [h]
    . next h => simp [h]
  . rfl

theorem Channel.connected_of_found (chan : Channel capacity)
    (h : chan.found.any (· < capacity) = true) : chan.connected = true := by
  unfold found at h
  split at h
  . assumption
  . contradiction

theorem Channel.trySend_connected (chan : Channel capacity) (msg : Message)
    : (chan.trySend msg).1.connected = chan.connected := by
  unfold trySend
  split
  . split <;> rfl
  . rfl

/--
How far the offer that holds the lock has come: it has settled with every subscription that is no
longer pending, and has not tried a pending one.
-/
structure Progress (patterns : Nat → String) (o : Offer τ) (msg : Message) (pending : List Sub)
    : Prop where
  msg_eq : msg = o.msg
  nodup : (pending.map Sub.tx).Nodup
  untried : ∀ sub ∈ pending,
    sub.tx ∈ o.registered ∧ sub.filter = Filter.parse (patterns sub.tx) ∧ o.triesOn sub.tx = []
  settled : ∀ i, i ∉ pending.map Sub.tx → o.Settled (patterns i) i

namespace Progress

variable {patterns : Nat → String} {o : Offer τ} {msg : Message} {sub : Sub} {pending : List Sub}

theorem start {t : τ} {arg : Message} {now : UInt64} {values : List Sub}
    (hnodup : (values.map Sub.tx).Nodup)
    (hfilter : ∀ sub ∈ values, sub.filter = Filter.parse (patterns sub.tx))
    : Progress patterns ⟨t, arg, now, values.map Sub.tx, []⟩ (stamp arg now) values where
  msg_eq := rfl
  nodup := hnodup
  untried := fun sub hsub => ⟨List.mem_map_of_mem hsub, hfilter sub hsub, rfl⟩
  settled := by
    intro i hi
    simp [Offer.Settled, Offer.addressed, Offer.triesOn, hi]

theorem addressed_head (prog : Progress patterns o msg (sub :: pending))
    : o.addressed (patterns sub.tx) sub.tx = sub.filter.matchesTopic msg.topicStr := by
  have hsub := prog.untried sub List.mem_cons_self
  simp [Offer.addressed, hsub.1, hsub.2.1, prog.msg_eq]

theorem skip (prog : Progress patterns o msg (sub :: pending))
    (hmatch : sub.filter.matchesTopic msg.topicStr = false) : Progress patterns o msg pending where
  msg_eq := prog.msg_eq
  nodup := (List.nodup_cons.mp prog.nodup).2
  untried := fun other hother => prog.untried other (List.mem_cons_of_mem _ hother)
  settled := by
    intro i hi
    by_cases heq : i = sub.tx
    . subst heq
      unfold Offer.Settled
      rw [prog.addressed_head, hmatch, (prog.untried sub List.mem_cons_self).2.2]
      rfl
    . apply prog.settled
      simp [hi, heq]

theorem visit (prog : Progress patterns o msg (sub :: pending))
    (hmatch : sub.filter.matchesTopic msg.topicStr = true) (found : Option Nat)
    : Progress patterns (o.note sub.tx found) msg pending where
  msg_eq := prog.msg_eq
  nodup := (List.nodup_cons.mp prog.nodup).2
  untried := by
    intro other hother
    have hne : sub.tx ≠ other.tx := by
      intro heq
      exact (List.nodup_cons.mp prog.nodup).1 (heq ▸ List.mem_map_of_mem hother)
    rw [Offer.triesOn_note, if_neg hne]
    apply prog.untried other (List.mem_cons_of_mem _ hother)
  settled := by
    intro i hi
    by_cases heq : sub.tx = i
    . subst heq
      apply Offer.settled_note_self (prog.untried sub List.mem_cons_self).2.2
      rw [prog.addressed_head, hmatch]
    . apply Offer.Settled.note_of_ne heq
      apply prog.settled
      simp [hi, Ne.symm heq]

end Progress

def OfferPc.waiting : OfferPc → List (Message × UInt64)
  | .lock arg now => [(arg, now)]
  | _ => []

def offeredBy [DecidableEq τ] (t : τ) (es : List (Output τ)) : List (Message × UInt64) :=
  es.filterMap fun
    | .offer u arg now => if u = t then some (arg, now) else none
    | _ => none

variable [DecidableEq τ]

structure Inv (s : State capacity τ) (es : List (Output τ)) : Prop where
  nodup : (s.subs.values.map Sub.tx).Nodup
  registry : ∀ sub ∈ s.subs.values, sub.tx < s.created ∧ sub.filter = Filter.parse (s.pattern sub.tx)
  free : s.lock = none → s.current = none
  sending : ∀ t msg pending sent dropped, s.pc t = .sending msg pending sent dropped →
    s.lock = some t ∧ ∃ o, s.current = some o ∧ o.caller = t ∧ Progress s.pattern o msg pending
  registered : ∀ o ∈ s.log, ∀ i ∈ o.registered, i < s.created
  settled : ∀ o ∈ s.offers, ∀ i, o.Settled (s.pattern i) i
  connected : ∀ i, (s.subscriptions i).chan.connected = true → (s.subscriptions i).discarded = []
  stream : ∀ i,
    (s.subscriptions i).received ++ (s.subscriptions i).chan.queue ++ (s.subscriptions i).discarded
      = delivered capacity (s.pattern i) i s.log
  calls : ∀ t, offeredBy t es
    = (s.log.filter (·.caller = t)).map (fun o => (o.arg, o.now)) ++ (s.pc t).waiting

theorem Inv.init : Inv (State.init capacity τ) [] where
  nodup := List.nodup_nil
  registry := fun _ h => absurd h List.not_mem_nil
  free := fun _ => rfl
  sending := fun _ _ _ _ _ h => by contradiction
  registered := fun _ h => absurd h List.not_mem_nil
  settled := fun _ h => absurd h List.not_mem_nil
  connected := fun _ _ => rfl
  stream := fun _ => rfl
  calls := fun _ => rfl

omit [DecidableEq τ] in
theorem Offer.Settled.of_notMem {o : Offer τ} {pattern : String} {i : Nat}
    (settled : o.Settled pattern i) (h : i ∉ o.registered) (pattern' : String)
    : o.Settled pattern' i := by
  unfold Offer.Settled at settled ⊢
  rw [settled]
  simp [Offer.addressed, h]

theorem offeredBy_append (t : τ) (es es' : List (Output τ))
    : offeredBy t (es ++ es') = offeredBy t es ++ offeredBy t es' := by
  unfold offeredBy
  rw [List.filterMap_append]

theorem Registry.values_erase (subs : Registry) (id : SubId)
    : (Registry.values (subs.erase id)).Sublist subs.values := by
  unfold Registry.values
  exact (List.kerase_sublist id subs.entries).map Sigma.snd

theorem Registry.values_insert (subs : Registry) (id : SubId) (sub : Sub)
    : Registry.values (subs.insert id sub) = sub :: Registry.values (subs.erase id) := rfl

namespace Inv

variable {s : State capacity τ} {es : List (Output τ)}

theorem registry_of_sublist {values : List Sub} (inv : Inv s es) (h : values.Sublist s.subs.values)
    : (values.map Sub.tx).Nodup
        ∧
      ∀ sub ∈ values, sub.tx < s.created ∧ sub.filter = Filter.parse (s.pattern sub.tx) :=
  ⟨inv.nodup.sublist (h.map _), fun sub hsub => inv.registry sub (h.mem hsub)⟩

theorem setSubscription (inv : Inv s es) {i : Nat} {subscription : Subscription capacity}
    (hpattern : subscription.pattern = s.pattern i)
    (hconnected : subscription.chan.connected = true → subscription.discarded = [])
    (hstream : subscription.received ++ subscription.chan.queue ++ subscription.discarded
      = (s.subscriptions i).received ++ (s.subscriptions i).chan.queue
        ++ (s.subscriptions i).discarded)
    : Inv (s.setSubscription i subscription) es := by
  have hpatterns := s.pattern_setSubscription hpattern
  exact {
    nodup := inv.nodup
    registry := by
      rw [hpatterns]
      exact inv.registry
    free := inv.free
    sending := by
      rw [hpatterns]
      exact inv.sending
    registered := inv.registered
    settled := by
      rw [hpatterns]
      exact inv.settled
    connected := by
      intro j
      by_cases hj : j = i
      . subst hj
        simpa using hconnected
      . simpa [hj] using inv.connected j
    stream := by
      intro j
      rw [hpatterns]
      by_cases hj : j = i
      . subst hj
        rw [State.setSubscription_subscriptions, update_self, hstream]
        exact inv.stream j
      . rw [State.setSubscription_subscriptions, update_of_ne hj]
        exact inv.stream j
    calls := inv.calls
  }

theorem recv (inv : Inv s es) {i : Nat} {msg : Message} {rest : List Message}
    (hqueue : (s.subscriptions i).chan.queue = msg :: rest)
    : Inv
        (s.setSubscription i
          { s.subscriptions i with
            chan := (s.subscriptions i).chan.pop
            received := (s.subscriptions i).received ++ [msg] }) es := by
  apply inv.setSubscription
  . rfl
  . exact inv.connected i
  . simp [Channel.pop, hqueue]

theorem dropReceiver (inv : Inv s es) {i : Nat}
    (hconnected : (s.subscriptions i).chan.connected = true)
    : Inv
        (s.setSubscription i
          { s.subscriptions i with
            chan := (s.subscriptions i).chan.disconnect
            discarded := (s.subscriptions i).chan.queue }) es := by
  apply inv.setSubscription
  . rfl
  . intro h
    contradiction
  . simp [Channel.disconnect, inv.connected i hconnected]

theorem unsubscribe (inv : Inv s es) (id : SubId)
    : Inv { s with subs := s.subs.erase id } es := by
  have hvalues := inv.registry_of_sublist (s.subs.values_erase id)
  exact { inv with nodup := hvalues.1, registry := hvalues.2 }

theorem not_sending (inv : Inv s es) (hlock : s.lock = none) {t : τ} {msg : Message}
    {pending : List Sub} {sent dropped : Nat} : s.pc t ≠ .sending msg pending sent dropped := by
  intro hpc
  have := (inv.sending t msg pending sent dropped hpc).1
  rw [hlock] at this
  contradiction

theorem log_of_free (inv : Inv s es) (hlock : s.lock = none) : s.log = s.offers := by
  unfold State.log
  rw [inv.free hlock]
  apply List.append_nil

theorem subscribe (inv : Inv s es) (hlock : s.lock = none) (pattern : String)
    : Inv
        ({ s with
            nextId := s.nextId + 1
            subs := s.subs.insert s.nextId ⟨Filter.parse pattern, s.created⟩
            created := s.created + 1 }.setSubscription s.created (.new capacity pattern))
        (es ++ [.subscribed s.nextId s.created]) := by
  have hold := inv.registry_of_sublist (s.subs.values_erase s.nextId)
  have hcreated : ∀ i < s.created, update s.subscriptions s.created (.new capacity pattern) i
      = s.subscriptions i := by
    intro i hi
    rw [update_of_ne (by omega)]
  exact {
    nodup := by
      rw [State.setSubscription_subs, Registry.values_insert, List.map_cons, List.nodup_cons]
      refine ⟨?_, hold.1⟩
      intro hmem
      rcases List.mem_map.mp hmem with ⟨sub, hsub, heq⟩
      exact absurd heq (Nat.ne_of_lt (hold.2 sub hsub).1)
    registry := by
      rw [State.setSubscription_subs, Registry.values_insert]
      intro sub hsub
      rcases List.mem_cons.mp hsub with rfl | hsub
      . simp [State.pattern]
      . have := hold.2 sub hsub
        unfold State.pattern at this ⊢
        rw [State.setSubscription_subscriptions, hcreated _ this.1]
        exact ⟨Nat.lt_succ_of_lt this.1, this.2⟩
    free := inv.free
    sending := fun t msg pending sent dropped hpc => absurd hpc (inv.not_sending hlock)
    registered := fun o ho i hi => Nat.lt_succ_of_lt (inv.registered o ho i hi)
    settled := by
      intro o ho i
      by_cases hi : i = s.created
      . -- no finished offer has seen the new subscription
        have hnew : i ∉ o.registered := by
          intro hmem
          have := inv.registered o (List.mem_append_left _ ho) i hmem
          omega
        exact (inv.settled o ho i).of_notMem hnew _
      . have := inv.settled o ho i
        unfold State.pattern at this ⊢
        rwa [State.setSubscription_subscriptions, update_of_ne hi]
    connected := by
      intro i
      by_cases hi : i = s.created
      . subst hi
        simp
      . simpa [hi] using inv.connected i
    stream := by
      intro i
      have hstream := inv.stream i
      unfold State.pattern at hstream ⊢
      rw [State.setSubscription_subscriptions]
      by_cases hi : i = s.created
      . subst hi
        rw [update_self, delivered_of_notMem]
        . rfl
        . intro o ho hmem
          have := inv.registered o ho s.created hmem
          omega
      . rw [update_of_ne hi]
        exact hstream
    calls := by
      intro t
      rw [offeredBy_append]
      exact (List.append_nil _).trans (inv.calls t)
  }

theorem offer (inv : Inv s es) {t : τ} (arg : Message) (now : UInt64) (hpc : s.pc t = .idle)
    : Inv (s.setPc t (.lock arg now)) (es ++ [.offer t arg now]) where
  nodup := inv.nodup
  registry := inv.registry
  free := inv.free
  sending := by
    intro t' msg pending sent dropped hpc'
    rcases update_eq_cases hpc' with ⟨rfl, heq⟩ | ⟨ht, hpc'⟩
    . contradiction
    . exact inv.sending t' msg pending sent dropped hpc'
  registered := inv.registered
  settled := inv.settled
  connected := inv.connected
  stream := inv.stream
  calls := by
    intro t'
    have hcalls := inv.calls t'
    rw [offeredBy_append, hcalls, State.setPc_pc]
    by_cases ht : t' = t
    . subst ht
      rw [hpc, update_self]
      simp [OfferPc.waiting, offeredBy, State.log]
    . rw [update_of_ne ht]
      simp [offeredBy, Ne.symm ht, State.log]

theorem lock (inv : Inv s es) {t : τ} {arg : Message} {now : UInt64} {values : List Sub}
    (hpc : s.pc t = .lock arg now) (hlock : s.lock = none) (hvalues : values.Perm s.subs.values)
    : Inv
        ({ s with
            lock := some t
            current := some ⟨t, arg, now, values.map Sub.tx, []⟩ }.setPc t
          (.sending (stamp arg now) values 0 0)) es := by
  have hlog := inv.log_of_free hlock
  have hregistry : ∀ sub ∈ values, sub.tx < s.created ∧ sub.filter = Filter.parse (s.pattern sub.tx) :=
    fun sub hsub => inv.registry sub (hvalues.mem_iff.mp hsub)
  exact {
    nodup := inv.nodup
    registry := inv.registry
    free := by simp
    sending := by
      intro t' msg pending sent dropped hpc'
      rcases update_eq_cases hpc' with ⟨rfl, heq⟩ | ⟨ht, hpc'⟩
      . rw [OfferPc.sending.injEq] at heq
        rcases heq with ⟨rfl, rfl, -, -⟩
        refine ⟨rfl, _, rfl, rfl, ?_⟩
        apply Progress.start
        . exact (hvalues.map Sub.tx).nodup_iff.mpr inv.nodup
        . exact fun sub hsub => (hregistry sub hsub).2
      . -- the lock was free, so nobody else is in the loop of `offer`
        exact absurd hpc' (inv.not_sending hlock)
    registered := by
      intro o ho i hi
      rcases List.mem_append.mp ho with ho | ho
      . exact inv.registered o (hlog ▸ ho) i hi
      . simp only [State.setPc_current, Option.toList_some, List.mem_singleton] at ho
        subst ho
        rcases List.mem_map.mp hi with ⟨sub, hsub, rfl⟩
        exact (hregistry sub hsub).1
    settled := inv.settled
    connected := inv.connected
    stream := by
      intro i
      have hstream := inv.stream i
      rw [hlog] at hstream
      refine hstream.trans ?_
      unfold State.log
      rw [State.setPc_offers, State.setPc_current, Option.toList_some, delivered_append,
        delivered_singleton]
      simp [Offer.foundRoom, Offer.triesOn, State.pattern]
    calls := by
      intro t'
      have hcalls := inv.calls t'
      rw [hlog] at hcalls
      rw [hcalls]
      by_cases ht : t' = t
      . subst ht
        rw [hpc]
        simp [State.log, OfferPc.waiting]
      . simp [State.log, ht, Ne.symm ht]
  }

theorem progress (inv : Inv s es) {t : τ} {msg : Message} {pending : List Sub} {sent dropped : Nat}
    (hpc : s.pc t = .sending msg pending sent dropped)
    : ∃ o, s.current = some o ∧ s.log = s.offers ++ [o] ∧ o.caller = t
        ∧ Progress s.pattern o msg pending := by
  rcases (inv.sending t msg pending sent dropped hpc).2 with ⟨o, ho, hcaller, prog⟩
  refine ⟨o, ho, ?_, hcaller, prog⟩
  unfold State.log
  rw [ho]
  rfl

theorem eq_of_sending (inv : Inv s es) {t t' : τ} {msg msg' : Message} {pending pending' : List Sub}
    {sent dropped sent' dropped' : Nat} (hpc : s.pc t = .sending msg pending sent dropped)
    (hpc' : s.pc t' = .sending msg' pending' sent' dropped') : t' = t := by
  have h := (inv.sending t msg pending sent dropped hpc).1
  have h' := (inv.sending t' msg' pending' sent' dropped' hpc').1
  rw [h, Option.some.injEq] at h'
  exact h'.symm

theorem skip (inv : Inv s es) {t : τ} {msg : Message} {sub : Sub} {pending : List Sub}
    {sent dropped : Nat} (hpc : s.pc t = .sending msg (sub :: pending) sent dropped)
    (hmatch : sub.filter.matchesTopic msg.topicStr = false)
    : Inv (s.setPc t (.sending msg pending sent dropped)) es := by
  rcases inv.progress hpc with ⟨o, ho, -, hcaller, prog⟩
  exact {
    inv with
    sending := by
      intro t' msg' pending' sent' dropped' hpc'
      rcases update_eq_cases hpc' with ⟨rfl, heq⟩ | ⟨ht, hpc'⟩
      . rw [OfferPc.sending.injEq] at heq
        rcases heq with ⟨rfl, rfl, -, -⟩
        exact ⟨(inv.sending _ _ _ _ _ hpc).1, o, ho, hcaller, prog.skip hmatch⟩
      . exact absurd (inv.eq_of_sending hpc hpc') ht
    calls := by
      intro t'
      refine (inv.calls t').trans ?_
      by_cases ht : t' = t
      . subst ht
        rw [hpc, State.setPc_pc, update_self]
        rfl
      . rw [State.setPc_pc, update_of_ne ht]
        rfl
  }

theorem unlock (inv : Inv s es) {t : τ} {msg : Message} {sent dropped : Nat}
    (hpc : s.pc t = .sending msg [] sent dropped)
    : Inv
        ({ s with
            lock := none
            current := none
            offers := s.offers ++ s.current.toList }.setPc t .idle)
        (es ++ [.offered t ⟨sent, dropped⟩]) := by
  rcases inv.progress hpc with ⟨o, ho, -, -, prog⟩
  have hlog : ({ s with
      lock := none
      current := none
      offers := s.offers ++ s.current.toList }.setPc t .idle : State capacity τ).log = s.log :=
    List.append_nil _
  exact {
    nodup := inv.nodup
    registry := inv.registry
    free := fun _ => rfl
    sending := by
      intro t' msg' pending' sent' dropped' hpc'
      rcases update_eq_cases hpc' with ⟨rfl, heq⟩ | ⟨ht, hpc'⟩
      . contradiction
      . exact absurd (inv.eq_of_sending hpc hpc') ht
    registered := by
      rw [hlog]
      exact inv.registered
    settled := by
      intro o' ho' i
      rw [State.setPc_offers, ho, Option.toList_some, List.mem_append, List.mem_singleton] at ho'
      rcases ho' with ho' | rfl
      . exact inv.settled o' ho' i
      . apply prog.settled i List.not_mem_nil
    connected := inv.connected
    stream := by
      rw [hlog]
      exact inv.stream
    calls := by
      intro t'
      rw [offeredBy_append, hlog, inv.calls t']
      refine (List.append_nil _).trans ?_
      by_cases ht : t' = t
      . subst ht
        rw [hpc, State.setPc_pc, update_self]
        rfl
      . rw [State.setPc_pc, update_of_ne ht]
  }

theorem visit (inv : Inv s es) {t : τ} {msg : Message} {sub : Sub} {pending : List Sub}
    {sent dropped : Nat} (hpc : s.pc t = .sending msg (sub :: pending) sent dropped)
    (hmatch : sub.filter.matchesTopic msg.topicStr = true)
    : Inv (s.visit t msg sub pending sent dropped) es := by
  rcases inv.progress hpc with ⟨o, ho, hlog, hcaller, prog⟩
  have hlog' := s.visit_log t msg sub pending sent dropped ho
  rcases State.visit_pc s t msg sub pending sent dropped with ⟨sent', dropped', hpc'⟩
  exact {
    nodup := by simpa using inv.nodup
    registry := by
      rw [State.visit_subs, State.visit_created, State.visit_pattern]
      exact inv.registry
    free := by
      intro hlock
      rw [State.visit_lock] at hlock
      rw [State.visit_current, inv.free hlock]
      rfl
    sending := by
      intro t' msg' pending' sent'' dropped'' hsending
      rw [hpc'] at hsending
      rw [State.visit_lock, State.visit_current, State.visit_pattern, ho]
      rcases update_eq_cases hsending with ⟨rfl, heq⟩ | ⟨ht, hsending⟩
      . rw [OfferPc.sending.injEq] at heq
        rcases heq with ⟨rfl, rfl, -, -⟩
        exact ⟨(inv.sending _ _ _ _ _ hpc).1, _, rfl, hcaller, prog.visit hmatch _⟩
      . exact absurd (inv.eq_of_sending hpc hsending) ht
    registered := by
      rw [hlog', State.visit_created]
      intro o' ho' i hi
      rcases List.mem_append.mp ho' with ho' | ho'
      . exact inv.registered o' (List.mem_append_left _ ho') i hi
      . rw [List.mem_singleton] at ho'
        subst ho'
        exact inv.registered o (by simp [hlog]) i hi
    settled := by
      rw [State.visit_offers, State.visit_pattern]
      exact inv.settled
    connected := by
      intro i
      rw [State.visit_subscriptions]
      by_cases hi : i = sub.tx
      . subst hi
        rw [update_self, Channel.trySend_connected]
        exact inv.connected sub.tx
      . rw [update_of_ne hi]
        exact inv.connected i
    stream := by
      intro i
      have hstream := inv.stream i
      rw [hlog, delivered_append] at hstream
      rw [State.visit_subscriptions, State.visit_pattern, hlog', delivered_append]
      by_cases hi : i = sub.tx
      . subst hi
        -- the offer has not tried this queue before, so that this try decides about the message
        have huntried := (prog.untried sub List.mem_cons_self).2.2
        have hempty : delivered capacity (s.pattern sub.tx) sub.tx [o] = [] := by
          rw [delivered_singleton, Offer.foundRoom_of_untried huntried, Bool.and_false]
          rfl
        rw [hempty, List.append_nil] at hstream
        rw [update_self, delivered_singleton, Offer.addressed_note, prog.addressed_head, hmatch,
          Offer.foundRoom_note_self huntried, Channel.trySend_queue, ← hstream]
        cases hfound : (s.subscriptions sub.tx).chan.found.any (· < capacity) with
        | false => simp
        | true =>
          have hconnected := (s.subscriptions sub.tx).chan.connected_of_found hfound
          simp [inv.connected sub.tx hconnected, prog.msg_eq, Offer.note, Offer.msg]
      . rw [update_of_ne hi, hstream, delivered_note_of_ne (Ne.symm hi)]
    calls := by
      intro t'
      rw [inv.calls t', hlog, hlog', hpc']
      by_cases ht : t' = t
      . subst ht
        rw [hpc, update_self]
        simp [Offer.note, OfferPc.waiting, List.filter_append, List.filter_cons]
        split <;> rfl
      . rw [update_of_ne ht]
        simp [Offer.note, List.filter_append, List.filter_cons]
        split <;> rfl
  }

theorem step {s' : State capacity τ} {a : Act τ} {es' : List (Output τ)} (inv : Inv s es)
    (hstep : s.step a = some (s', es')) : Inv s' (es ++ es') := by
  cases Step.of_step hstep with
  | subscribe hlock => exact inv.subscribe hlock _
  | unsubscribe hlock => simpa using inv.unsubscribe _
  | offer hpc => exact inv.offer _ _ hpc
  | lock hpc hlock hvalues => simpa using inv.lock hpc hlock hvalues
  | visit hpc hmatch => simpa using inv.visit hpc hmatch
  | skip hpc hmatch => simpa using inv.skip hpc hmatch
  | unlock hpc => exact inv.unlock hpc
  | recv hqueue hcreated hconnected => simpa using inv.recv hqueue
  | dropReceiver hcreated hconnected => simpa using inv.dropReceiver hconnected

end Inv

theorem bus_inv {acts : List (Act τ)} {s : State capacity τ} {es : List (Output τ)}
    (hreach : (bus capacity τ).Reaches acts s es) : Inv s es := by
  apply System.reaches_inv Inv _ Inv.init hreach
  intro s past a s' es inv hstep
  apply inv.step hstep

end Bus
