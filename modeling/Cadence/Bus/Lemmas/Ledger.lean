import Cadence.Bus.Impl.Ledger
import Cadence.Bus.Lemmas.Stream

/-!
This module contains that the ledger agrees with the bus, and with it exact delivery: what has come
out of a subscription and what is in its queue are the offers of the ledger that found it registered,
matched its pattern and found room.
-/

open Lts Function

namespace Bus

variable {capacity : Nat} {τ : Type}

/--
Two records of one offer. The registry may have been enumerated in any order.
-/
structure Offer.Same (o o' : Offer τ) : Prop where
  caller : o.caller = o'.caller
  arg : o.arg = o'.arg
  now : o.now = o'.now
  registered : o.registered.Perm o'.registered
  tries : o.tries = o'.tries

namespace Offer.Same

variable {o o' : Offer τ}

theorem msg (same : o.Same o') : o.msg = o'.msg := by
  unfold Offer.msg
  rw [same.arg, same.now]

theorem triesOn (same : o.Same o') (i : Nat) : o.triesOn i = o'.triesOn i := by
  unfold Offer.triesOn
  rw [same.tries]

theorem addressed (same : o.Same o') (pattern : String) (i : Nat)
    : o.addressed pattern i = o'.addressed pattern i := by
  unfold Offer.addressed
  rw [same.msg, decide_eq_decide.mpr same.registered.mem_iff]

theorem foundRoom (same : o.Same o') (capacity i : Nat)
    : o.foundRoom capacity i = o'.foundRoom capacity i := by
  unfold Offer.foundRoom
  rw [same.triesOn]

theorem note (same : o.Same o') (i : Nat) (found : Option Nat)
    : (o.note i found).Same (o'.note i found) where
  caller := same.caller
  arg := same.arg
  now := same.now
  registered := same.registered
  tries := by
    unfold Offer.note
    rw [same.tries]

end Offer.Same

theorem delivered_of_same {log log' : List (Offer τ)} (h : List.Forall₂ Offer.Same log log')
    (pattern : String) (i : Nat)
    : delivered capacity pattern i log = delivered capacity pattern i log' := by
  induction h with
  | nil => rfl
  | @cons o o' log log' same _ ih =>
    rw [← List.singleton_append, ← List.singleton_append (l := log'), delivered_append,
      delivered_append, ih, delivered_singleton, delivered_singleton, same.addressed, same.foundRoom,
      same.msg]

theorem exists_of_forall₂ {α β : Type} {R : α → β → Prop} {l : List α} {l' : List β}
    (h : List.Forall₂ R l l') {b : β} (hb : b ∈ l') : ∃ a ∈ l, R a b := by
  induction h with
  | nil => contradiction
  | cons hr _ ih =>
    rcases List.mem_cons.mp hb with rfl | hb
    . exact ⟨_, List.mem_cons_self, hr⟩
    . rcases ih hb with ⟨a, ha, hab⟩
      exact ⟨a, List.mem_cons_of_mem _ ha, hab⟩

theorem kerase_eq_filter {l : List ((_ : SubId) × Sub)} (h : l.NodupKeys) (id : SubId)
    : l.kerase id = l.filter (·.1 ≠ id) := by
  induction l with
  | nil => rfl
  | cons entry l ih =>
    rw [List.nodupKeys_cons] at h
    by_cases hid : id = entry.1
    . -- no other entry has the key
      rw [List.kerase_cons_eq hid, List.filter_cons_of_neg (by simp [hid])]
      symm
      rw [List.filter_eq_self]
      intro other hother
      rw [decide_eq_true_iff]
      rintro rfl
      exact h.1 (hid ▸ List.mem_map_of_mem hother)
    . rw [List.kerase_cons_ne hid, List.filter_cons_of_pos (by simp [Ne.symm hid]), ih h.2]

/--
The ids of a registry with the channels that they stand for.
-/
def Registry.channels (subs : Registry) : List (SubId × Nat) :=
  subs.entries.map fun entry => (entry.1, entry.2.tx)

theorem Registry.map_snd_channels (subs : Registry)
    : subs.channels.map Prod.snd = subs.values.map Sub.tx := by
  unfold channels values
  rw [List.map_map, List.map_map]
  rfl

theorem Registry.channels_erase (subs : Registry) (id : SubId)
    : Registry.channels (subs.erase id) = subs.channels.filter (·.1 ≠ id) := by
  unfold channels
  rw [List.filter_map]
  exact congrArg _ (kerase_eq_filter subs.nodupKeys id)

theorem Registry.channels_insert (subs : Registry) (id : SubId) (sub : Sub)
    : Registry.channels (subs.insert id sub)
        =
      (id, sub.tx) :: subs.channels.filter (·.1 ≠ id) := by
  rw [← channels_erase]
  rfl

/--
The ledger has the subscriptions and the offers of the bus.
-/
structure Ledger.Matches (ledger : Ledger τ) (s : State capacity τ) : Prop where
  created : s.created = ledger.patterns.length
  pattern : ∀ i, s.pattern i = ledger.pattern i
  nextId : s.nextId = UInt64.ofNat s.created
  registered : s.subs.channels = ledger.registered
  called : ∀ t, ledger.called t = (s.pc t).waiting.head?
  finished : List.Forall₂ Offer.Same s.offers ledger.finished
  current : List.Forall₂ Offer.Same s.current.toList ledger.current.toList
  received : ∀ i, ledger.received i = (s.subscriptions i).received
  discarded : ∀ i, ledger.discarded i = (s.subscriptions i).discarded

namespace Ledger.Matches

variable {ledger : Ledger τ} {s : State capacity τ}

theorem init (capacity : Nat) (τ : Type) : (Ledger.empty τ).Matches (.init capacity τ) where
  created := rfl
  pattern := fun _ => rfl
  nextId := rfl
  registered := rfl
  called := fun _ => rfl
  finished := .nil
  current := .nil
  received := fun _ => rfl
  discarded := fun _ => rfl

theorem log (h : ledger.Matches s) : List.Forall₂ Offer.Same s.log ledger.log :=
  List.rel_append h.finished h.current

variable [DecidableEq τ] {s' : State capacity τ} {es : List (Output τ)}

theorem called_update (h : ledger.Matches s) (t : τ) (pc : OfferPc)
    {called : Option (Message × UInt64)} (hpc : called = pc.waiting.head?)
    : ∀ t', update ledger.called t called t' = (update s.pc t pc t').waiting.head? := by
  intro t'
  by_cases ht : t' = t
  . subst ht
    simpa using hpc
  . simpa [ht] using h.called t'

/--
A step in which the offer that holds the lock goes on to the next subscription.
-/
theorem advance (h : ledger.Matches s) {t : τ} {pc : OfferPc}
    (hwaiting : (s.pc t).waiting = pc.waiting) : ledger.Matches (s.setPc t pc) where
  created := h.created
  pattern := h.pattern
  nextId := h.nextId
  registered := h.registered
  called := by
    have hcalled := h.called_update t pc ((h.called t).trans (congrArg List.head? hwaiting))
    rwa [update_eq_self] at hcalled
  finished := h.finished
  current := h.current
  received := h.received
  discarded := h.discarded

theorem subscribe (h : ledger.Matches s) (inv : Inv s es) (pattern : String)
    : (ledger.watch s (.subscribe pattern)).Matches
        ({ s with
            nextId := s.nextId + 1
            subs := s.subs.insert s.nextId ⟨Filter.parse pattern, s.created⟩
            created := s.created + 1 }.setSubscription s.created (.new capacity pattern)) := by
  -- nothing has come out of a queue that did not exist
  have hnew := inv.stream_of_created_le (Nat.le_refl s.created)
  simp only [State.stream, List.append_eq_nil_iff] at hnew
  exact {
    created := by simp [watch, h.created]
    pattern := by
      intro i
      by_cases hi : i = s.created
      . subst hi
        simp [State.pattern, Ledger.pattern, watch, h.created]
      . have hpattern := h.pattern i
        have hlength : i ≠ ledger.patterns.length := fun heq => hi (heq.trans h.created.symm)
        simp only [State.pattern, Ledger.pattern, watch, State.setSubscription_subscriptions,
          update_of_ne hi] at hpattern ⊢
        rw [hpattern, List.getD_eq_getElem?_getD, List.getD_eq_getElem?_getD, List.getElem?_append]
        split
        . rfl
        . next hle =>
          rw [List.getElem?_eq_none (by omega), List.getElem?_eq_none (by simp; omega)]
    nextId := by
      rw [State.setSubscription_nextId, State.setSubscription_created, h.nextId, UInt64.ofNat_add]
      rfl
    registered := by
      rw [State.setSubscription_subs, Registry.channels_insert, h.registered, h.nextId, h.created]
      rfl
    called := h.called
    finished := h.finished
    current := h.current
    received := by
      intro i
      by_cases hi : i = s.created
      . subst hi
        simpa [watch, hnew] using h.received s.created
      . simpa [watch, hi] using h.received i
    discarded := by
      intro i
      by_cases hi : i = s.created
      . subst hi
        simpa [watch, hnew] using h.discarded s.created
      . simpa [watch, hi] using h.discarded i
  }

theorem unsubscribe (h : ledger.Matches s) (id : SubId)
    : (ledger.watch s (.unsubscribe id)).Matches { s with subs := s.subs.erase id } where
  __ := h
  registered := by
    rw [Registry.channels_erase, h.registered]
    rfl

theorem offer (h : ledger.Matches s) (t : τ) (arg : Message) (now : UInt64)
    : (ledger.watch s (.offer t arg now)).Matches (s.setPc t (.lock arg now)) where
  __ := h
  called := h.called_update t _ rfl

theorem lock (h : ledger.Matches s) (inv : Inv s es) {t : τ} {arg : Message} {now : UInt64}
    {values : List Sub} (hpc : s.pc t = .lock arg now) (hlock : s.lock = none)
    (hvalues : values.Perm s.subs.values)
    : (ledger.watch s (.lock t values)).Matches
        ({ s with
            lock := some t
            current := some ⟨t, arg, now, values.map Sub.tx, []⟩ }.setPc t
          (.sending (stamp arg now) values 0 0)) where
  __ := h
  called := h.called_update t _ rfl
  finished := by
    have hlog := h.log
    rwa [inv.log_of_free hlock] at hlog
  current := by
    have hcalled : ledger.called t = some (arg, now) := by
      rw [h.called t, hpc]
      rfl
    have hregistered : (values.map Sub.tx).Perm (ledger.registered.map Prod.snd) := by
      rw [← h.registered, Registry.map_snd_channels]
      exact hvalues.map _
    simp only [watch, hcalled, Option.map_some, Option.toList_some, State.setPc_current]
    exact .cons ⟨rfl, rfl, rfl, hregistered, rfl⟩ .nil

theorem visit (h : ledger.Matches s) {t : τ} {msg : Message} {sub : Sub} {pending : List Sub}
    {sent dropped : Nat} (hpc : s.pc t = .sending msg (sub :: pending) sent dropped)
    (hmatch : sub.filter.matchesTopic msg.topicStr = true)
    : (ledger.watch s (.trySend t)).Matches (s.visit t msg sub pending sent dropped) := by
  have hattempt : s.attempt t = some (sub.tx, (s.subscriptions sub.tx).chan.found) := by
    simp [State.attempt, hpc, hmatch]
  have hsubscription : ∀ {β : Type} (field : Subscription capacity → β),
      (∀ chan : Channel capacity,
        field { s.subscriptions sub.tx with chan := chan } = field (s.subscriptions sub.tx)) →
      ∀ i, field ((s.visit t msg sub pending sent dropped).subscriptions i)
        = field (s.subscriptions i) := by
    intro β field hfield i
    rw [State.visit_subscriptions]
    by_cases hi : i = sub.tx
    . subst hi
      rw [update_self, hfield]
    . rw [update_of_ne hi]
  rcases s.visit_pc t msg sub pending sent dropped with ⟨sent', dropped', hpc'⟩
  simp only [watch, hattempt]
  exact {
    created := by
      rw [State.visit_created]
      exact h.created
    pattern := by
      rw [State.visit_pattern]
      exact h.pattern
    nextId := by
      rw [State.visit_nextId, State.visit_created]
      exact h.nextId
    registered := by
      rw [State.visit_subs]
      exact h.registered
    called := by
      have hcalled := h.called_update t (.sending msg pending sent' dropped')
        ((h.called t).trans (by rw [hpc]; rfl))
      rwa [update_eq_self, ← hpc'] at hcalled
    finished := by
      rw [State.visit_offers]
      exact h.finished
    current := by
      rw [State.visit_current, Option.toList_map, Option.toList_map, List.forall₂_map_left_iff,
        List.forall₂_map_right_iff]
      exact h.current.imp fun o o' same => same.note _ _
    received := by
      intro i
      rw [hsubscription Subscription.received fun _ => rfl]
      exact h.received i
    discarded := by
      intro i
      rw [hsubscription Subscription.discarded fun _ => rfl]
      exact h.discarded i
  }

theorem recv (h : ledger.Matches s) {i : Nat} {msg : Message} {rest : List Message}
    (hqueue : (s.subscriptions i).chan.queue = msg :: rest)
    : (ledger.watch s (.recv i)).Matches
        (s.setSubscription i
          { s.subscriptions i with
            chan := (s.subscriptions i).chan.pop
            received := (s.subscriptions i).received ++ [msg] }) where
  __ := h
  pattern := by
    rw [State.pattern_setSubscription]
    . exact h.pattern
    . rfl
  received := by
    intro j
    by_cases hj : j = i
    . subst hj
      simp [watch, hqueue, h.received]
    . simp [watch, hj, h.received]
  discarded := by
    intro j
    by_cases hj : j = i
    . subst hj
      simp [watch, h.discarded]
    . simp [watch, hj, h.discarded]

theorem dropReceiver (h : ledger.Matches s) (inv : Inv s es) {i : Nat}
    (hconnected : (s.subscriptions i).chan.connected = true)
    : (ledger.watch s (.dropReceiver i)).Matches
        (s.setSubscription i
          { s.subscriptions i with
            chan := (s.subscriptions i).chan.disconnect
            discarded := (s.subscriptions i).chan.queue }) where
  __ := h
  pattern := by
    rw [State.pattern_setSubscription]
    . exact h.pattern
    . rfl
  received := by
    intro j
    by_cases hj : j = i
    . subst hj
      simp [watch, h.received]
    . simp [watch, hj, h.received]
  discarded := by
    intro j
    by_cases hj : j = i
    . subst hj
      -- the receiver is dropped once
      simp [watch, h.discarded, inv.connected j hconnected]
    . simp [watch, hj, h.discarded]

theorem step (h : ledger.Matches s) (inv : Inv s es) {a : Act τ} {es' : List (Output τ)}
    (hstep : s.step a = some (s', es')) : (ledger.watch s a).Matches s' := by
  cases Step.of_step hstep with
  | subscribe hlock => exact h.subscribe inv _
  | unsubscribe hlock => exact h.unsubscribe _
  | offer hpc => exact h.offer _ _ _
  | lock hpc hlock hvalues => exact h.lock inv hpc hlock hvalues
  | visit hpc hmatch => exact h.visit hpc hmatch
  | @skip t msg sub pending sent dropped hpc hmatch =>
    have hattempt : s.attempt t = none := by
      simp [State.attempt, hpc, hmatch]
    simp only [watch, hattempt]
    exact h.advance (by rw [hpc]; rfl)
  | @unlock t msg sent dropped hpc =>
    exact {
      h with
      called := by
        have hcalled := h.called_update t .idle ((h.called t).trans (by rw [hpc]; rfl))
        rwa [update_eq_self] at hcalled
      finished := h.log
      current := .nil
    }
  | recv hqueue hcreated hconnected => exact h.recv hqueue
  | dropReceiver hcreated hconnected => exact h.dropReceiver inv hconnected

end Ledger.Matches

theorem ledger_matches [DecidableEq τ] {acts : List (Act τ)} {s : State capacity τ}
    {es : List (Output τ)} (hreach : (bus capacity τ).Reaches acts s es)
    : (ledger capacity acts).Matches s := by
  have h := System.reaches_inv_observe Ledger.watch (.empty τ)
    (fun s ledger es => Inv s es ∧ ledger.Matches s)
    (fun s ledger past a s' es h hstep => ⟨h.1.step hstep, h.2.step h.1 hstep⟩)
    ⟨Inv.init, .init capacity τ⟩ hreach
  exact h.2

variable [DecidableEq τ] {acts : List (Act τ)} {s : State capacity τ} {es : List (Output τ)}

/--
The receiver of a queue is there until it is dropped.
-/
theorem connected_of_held {i : Nat} (hreach : (bus capacity τ).Reaches acts s es)
    (hheld : .dropReceiver i ∉ acts) : (s.subscriptions i).chan.connected = true := by
  refine System.reaches_inv_inputs (fun acts (s : State capacity τ) _ => .dropReceiver i ∉ acts →
    (s.subscriptions i).chan.connected = true) ?_ (fun _ => rfl) hreach hheld
  intro acts s past a s' es' ih hstep hmem
  rw [List.mem_append, not_or, List.mem_singleton] at hmem
  have hconnected := ih hmem.1
  cases Step.of_step hstep with
  | subscribe hlock =>
    by_cases hi : i = s.created
    . subst hi
      simp [Channel.new]
    . simpa [hi] using hconnected
  | @visit t msg sub pending sent dropped hpc hmatch =>
    rw [State.visit_subscriptions]
    by_cases hi : i = sub.tx
    . subst hi
      rw [update_self]
      exact (Channel.trySend_connected _ msg).trans hconnected
    . simpa [hi] using hconnected
  | @recv j msg rest hqueue hcreated hconnected' =>
    by_cases hi : i = j
    . subst hi
      simpa [Channel.pop] using hconnected
    . simpa [hi] using hconnected
  | @dropReceiver j hcreated hconnected' =>
    have hi : i ≠ j := fun heq => hmem.2 (heq ▸ rfl)
    simpa [hi] using hconnected
  | _ => exact hconnected

def Act.offer? (t : τ) : Act τ → Option (Message × UInt64)
  | .offer u arg now => if u = t then some (arg, now) else none
  | _ => none

theorem offeredBy_eq (t : τ) (hreach : (bus capacity τ).Reaches acts s es)
    : offeredBy t es = acts.filterMap (Act.offer? t) := by
  refine System.reaches_inv_inputs
    (fun acts (_ : State capacity τ) es => offeredBy t es = acts.filterMap (Act.offer? t)) ?_ rfl hreach
  intro acts s past a s' es' ih hstep
  rw [offeredBy_append, List.filterMap_append, ih]
  congr 1
  cases Step.of_step hstep <;> rfl

/--
What subscription `i` has received, followed by its queue, are the offers in the order in which they
took the lock that found `i` registered, match its pattern and found room in its queue. Every
finished offer has tried the queue once if it is addressed to `i`, and the ledger has the calls of
every thread in order, each once.
-/
structure ExactDelivery (acts : List (Act τ)) (s : State capacity τ) (i : Nat) : Prop where
  stream : (ledger capacity acts).received i ++ (s.subscriptions i).chan.queue
    = ((ledger capacity acts).log.filter fun o =>
          o.addressed ((ledger capacity acts).pattern i) i && o.foundRoom capacity i).map
        fun o => { o.arg with timestampNs := o.now }
  tried : ∀ o ∈ (ledger capacity acts).finished,
    (o.triesOn i).length = if o.addressed ((ledger capacity acts).pattern i) i then 1 else 0
  calls : ∀ t, acts.filterMap (Act.offer? t)
    = ((ledger capacity acts).log.filter (·.caller = t)).map (fun o => (o.arg, o.now))
      ++ ((ledger capacity acts).called t).toList

theorem Ledger.Matches.tried {ledger : Ledger τ} (h : ledger.Matches s) (inv : Inv s es)
    {o : Offer τ} (ho : o ∈ ledger.finished) (i : Nat) : o.Settled (ledger.pattern i) i := by
  rcases exists_of_forall₂ h.finished ho with ⟨o', ho', same⟩
  have hsettled := inv.settled o' ho' i
  unfold Offer.Settled at hsettled ⊢
  rw [← same.triesOn, ← same.addressed, ← h.pattern]
  exact hsettled

theorem Ledger.Matches.stream {ledger : Ledger τ} (h : ledger.Matches s) (inv : Inv s es) (i : Nat)
    : ledger.received i ++ (s.subscriptions i).chan.queue ++ ledger.discarded i
        =
      delivered capacity (ledger.pattern i) i ledger.log := by
  rw [h.received, h.discarded, ← h.pattern, ← delivered_of_same h.log]
  exact inv.stream i

theorem calls_of_same {log log' : List (Offer τ)} (h : List.Forall₂ Offer.Same log log') (t : τ)
    : (log.filter (·.caller = t)).map (fun o => (o.arg, o.now))
        =
      (log'.filter (·.caller = t)).map fun o => (o.arg, o.now) := by
  induction h with
  | nil => rfl
  | cons same _ ih =>
    simp only [List.filter_cons, same.caller]
    split
    . rw [List.map_cons, List.map_cons, ih, same.arg, same.now]
    . exact ih

theorem bus_delivers_exactly {i : Nat} (hreach : (bus capacity τ).Reaches acts s es)
    (hheld : .dropReceiver i ∉ acts) : ExactDelivery acts s i := by
  have inv := bus_inv hreach
  have hledger := ledger_matches hreach
  exact {
    stream := by
      have hstream := hledger.stream inv i
      rw [hledger.discarded, inv.connected i (connected_of_held hreach hheld),
        List.append_nil] at hstream
      exact hstream
    tried := fun o ho => hledger.tried inv ho i
    calls := by
      intro t
      rw [← offeredBy_eq t hreach, inv.calls t, calls_of_same hledger.log, hledger.called]
      cases s.pc t <;> rfl
  }

/--
The second of three offers finds the queue full, and the third comes after the first message has been
received.
-/
def secondDropped : List (Act Unit) :=
  [.subscribe "a*", .offer () (.new "ab" [1]) 5, .lock () [⟨.prefixed "a", 0⟩], .trySend (),
    .unlock (), .offer () (.new "ab" [2]) 6, .lock () [⟨.prefixed "a", 0⟩], .trySend (), .unlock (),
    .recv 0, .offer () (.new "ab" [3]) 7, .lock () [⟨.prefixed "a", 0⟩], .trySend (), .unlock ()]

theorem bus_delivers_exactly_three_offers
    : ∃ s es,
        (bus 1 Unit).Reaches secondDropped s es
          ∧
        (s.subscriptions 0).received = [stamp (.new "ab" [1]) 5]
          ∧
        (s.subscriptions 0).chan.queue = [stamp (.new "ab" [3]) 7]
          ∧
        ExactDelivery secondDropped s 0 := by
  have hreach := (bus 1 Unit).reaches_get secondDropped (by decide +kernel)
  exact ⟨_, _, hreach, by decide +kernel, by decide +kernel,
    bus_delivers_exactly hreach (by simp [secondDropped])⟩

end Bus
