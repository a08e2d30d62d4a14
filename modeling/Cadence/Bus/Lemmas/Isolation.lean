import Cadence.Bus.Impl.Script
import Cadence.Bus.Lemmas.Identity

/-!
This module contains the isolation of subscriptions: what a subscription receives and has in its
queue is determined by its own script.
-/

open Lts Function

namespace Bus

variable {capacity : Nat} {τ : Type}

namespace Registry

def contains (subs : Registry) (i : Nat) : Bool :=
  decide (i ∈ subs.values.map Sub.tx)

theorem contains_iff_lookup {subs : Registry} {i : Nat}
    : subs.contains i = true ↔ ∃ id sub, subs.lookup id = some sub ∧ sub.tx = i := by
  unfold contains
  rw [decide_eq_true_iff, List.mem_map]
  constructor
  . rintro ⟨sub, hsub, htx⟩
    rcases List.mem_map.mp hsub with ⟨⟨id, sub'⟩, hentry, rfl⟩
    exact ⟨id, sub', AList.mem_lookup_iff.mpr hentry, htx⟩
  . rintro ⟨id, sub, hlookup, htx⟩
    exact ⟨sub, mem_values_of_lookup hlookup, htx⟩

theorem contains_insert_self (subs : Registry) (id : SubId) (sub : Sub)
    : Registry.contains (subs.insert id sub) sub.tx = true := by
  rw [contains_iff_lookup]
  exact ⟨id, sub, AList.lookup_insert subs, rfl⟩

theorem contains_insert_of_ne {subs : Registry} {id : SubId} {sub : Sub} {i : Nat} (hi : sub.tx ≠ i)
    (hid : ∀ old, subs.lookup id = some old → old.tx ≠ i)
    : Registry.contains (subs.insert id sub) i = subs.contains i := by
  rw [Bool.eq_iff_iff, contains_iff_lookup, contains_iff_lookup]
  constructor
  . rintro ⟨id', sub', hlookup, htx⟩
    by_cases heq : id' = id
    . subst heq
      rw [AList.lookup_insert, Option.some.injEq] at hlookup
      exact absurd (hlookup ▸ htx) hi
    . rw [AList.lookup_insert_ne heq] at hlookup
      exact ⟨id', sub', hlookup, htx⟩
  . rintro ⟨id', sub', hlookup, htx⟩
    by_cases heq : id' = id
    . subst heq
      exact absurd htx (hid sub' hlookup)
    . exact ⟨id', sub', (AList.lookup_insert_ne heq).trans hlookup, htx⟩

theorem contains_erase_of_ne {subs : Registry} {id : SubId} {i : Nat}
    (hid : ∀ old, subs.lookup id = some old → old.tx ≠ i)
    : Registry.contains (subs.erase id) i = subs.contains i := by
  rw [Bool.eq_iff_iff, contains_iff_lookup, contains_iff_lookup]
  constructor
  . rintro ⟨id', sub', hlookup, htx⟩
    by_cases heq : id' = id
    . subst heq
      rw [AList.lookup_erase] at hlookup
      contradiction
    . rw [AList.lookup_erase_ne heq] at hlookup
      exact ⟨id', sub', hlookup, htx⟩
  . rintro ⟨id', sub', hlookup, htx⟩
    by_cases heq : id' = id
    . subst heq
      exact absurd htx (hid sub' hlookup)
    . exact ⟨id', sub', (AList.lookup_erase_ne heq).trans hlookup, htx⟩

theorem contains_erase_self {subs : Registry} {id : SubId} {sub : Sub}
    (hlookup : subs.lookup id = some sub)
    (hunique : ∀ id' sub', subs.lookup id' = some sub' → sub'.tx = sub.tx → id' = id)
    : Registry.contains (subs.erase id) sub.tx = false := by
  rw [Bool.eq_false_iff, Ne, contains_iff_lookup]
  rintro ⟨id', sub', hlookup', htx⟩
  by_cases heq : id' = id
  . subst heq
    rw [AList.lookup_erase] at hlookup'
    contradiction
  . rw [AList.lookup_erase_ne heq] at hlookup'
    exact heq (hunique id' sub' hlookup' htx)

end Registry

def State.client (s : State capacity τ) (i : Nat) : Option (Client capacity) :=
  if i < s.created then some ⟨s.subs.contains i, s.subscriptions i⟩ else none

theorem State.client_of_lt {s : State capacity τ} {i : Nat} (h : i < s.created)
    : s.client i = some ⟨s.subs.contains i, s.subscriptions i⟩ := by
  unfold client
  rw [if_pos h]

theorem State.client_setSubscription_self {s : State capacity τ} {i : Nat} (h : i < s.created)
    (subscription : Subscription capacity)
    : (s.setSubscription i subscription).client i = some ⟨s.subs.contains i, subscription⟩ := by
  have hlt : i < (s.setSubscription i subscription).created := h
  rw [client_of_lt hlt, setSubscription_subscriptions, update_self]
  rfl

theorem State.client_setSubscription_of_ne {s : State capacity τ} {i j : Nat} (h : i ≠ j)
    (subscription : Subscription capacity)
    : (s.setSubscription j subscription).client i = s.client i := by
  unfold client
  simp [h]

theorem State.client_congr {s s' : State capacity τ} {i : Nat} (hsubs : s'.subs = s.subs)
    (hcreated : s'.created = s.created) (hsubscription : s'.subscriptions i = s.subscriptions i)
    : s'.client i = s.client i := by
  unfold client
  rw [hsubs, hcreated, hsubscription]

variable [DecidableEq τ]

def Pending (s : State capacity τ) : Prop :=
  ∀ t msg pending sent dropped, s.pc t = .sending msg pending sent dropped →
    ∀ sub ∈ pending, sub ∈ s.subs.values

theorem Pending.step {s s' : State capacity τ} {a : Act τ} {es es' : List (Output τ)}
    (pending : Pending s) (inv : Inv s es) (hstep : s.step a = some (s', es')) : Pending s' := by
  cases Step.of_step hstep with
  | subscribe hlock => exact fun t msg rest sent dropped hpc => absurd hpc (inv.not_sending hlock)
  | unsubscribe hlock => exact fun t msg rest sent dropped hpc => absurd hpc (inv.not_sending hlock)
  | @offer t arg now hpc =>
    intro t' msg rest sent dropped hpc'
    rcases update_eq_cases hpc' with ⟨rfl, heq⟩ | ⟨ht, hpc'⟩
    . contradiction
    . exact pending t' msg rest sent dropped hpc'
  | @lock t values arg now hpc hlock hvalues =>
    intro t' msg rest sent dropped hpc' sub hsub
    rcases update_eq_cases hpc' with ⟨rfl, heq⟩ | ⟨ht, hpc'⟩
    . rw [OfferPc.sending.injEq] at heq
      rw [← heq.2.1] at hsub
      exact hvalues.mem_iff.mp hsub
    . exact absurd hpc' (inv.not_sending hlock)
  | @visit t msg sub rest sent dropped hpc hmatch =>
    intro t' msg' rest' sent' dropped' hpc' other hother
    rcases State.visit_pc s t msg sub rest sent dropped with ⟨sent'', dropped'', hvisit⟩
    rw [hvisit] at hpc'
    rw [State.visit_subs]
    rcases update_eq_cases hpc' with ⟨rfl, heq⟩ | ⟨ht, hpc'⟩
    . rw [OfferPc.sending.injEq] at heq
      rw [← heq.2.1] at hother
      exact pending t' msg _ sent dropped hpc other (List.mem_cons_of_mem _ hother)
    . exact pending t' msg' rest' sent' dropped' hpc' other hother
  | @skip t msg sub rest sent dropped hpc hmatch =>
    intro t' msg' rest' sent' dropped' hpc' other hother
    rcases update_eq_cases hpc' with ⟨rfl, heq⟩ | ⟨ht, hpc'⟩
    . rw [OfferPc.sending.injEq] at heq
      rw [← heq.2.1] at hother
      exact pending t' msg _ sent dropped hpc other (List.mem_cons_of_mem _ hother)
    . exact pending t' msg' rest' sent' dropped' hpc' other hother
  | @unlock t msg sent dropped hpc =>
    intro t' msg' rest' sent' dropped' hpc'
    rcases update_eq_cases hpc' with ⟨rfl, heq⟩ | ⟨ht, hpc'⟩
    . contradiction
    . exact pending t' msg' rest' sent' dropped' hpc'
  | recv hqueue hcreated hconnected => exact pending
  | dropReceiver hcreated hconnected => exact pending

omit [DecidableEq τ] in
theorem State.itemsOf_lock {s : State capacity τ} {i : Nat} {t : τ} {values : List Sub}
    {arg : Message} {now : UInt64} (hpc : s.pc t = .lock arg now)
    : s.itemsOf i (.lock t values)
        =
      if i ∈ values.map Sub.tx then [] else [.offer (stamp arg now)] := by
  unfold itemsOf
  simp only [hpc]

omit [DecidableEq τ] in
theorem State.itemsOf_trySend {s : State capacity τ} {i : Nat} {t : τ} {msg : Message} {sub : Sub}
    {rest : List Sub} {sent dropped : Nat} (hpc : s.pc t = .sending msg (sub :: rest) sent dropped)
    : s.itemsOf i (.trySend t) = if sub.tx = i then [.offer msg] else [] := by
  unfold itemsOf
  simp only [hpc]

section Client

variable {s s' : State capacity τ} {a : Act τ} {acts : List (Act τ)} {es es' : List (Output τ)}
variable {i : Nat}

omit [DecidableEq τ] in
/--
The entry of subscription `i` is under the id that it was given.
-/
theorem Issued.lookup_unique (issued : Issued s acts es) {id id' : SubId} {sub sub' : Sub}
    (hlookup : s.subs.lookup id = some sub) (hlookup' : s.subs.lookup id' = some sub')
    (htx : sub'.tx = sub.tx) : id' = id := by
  rw [issued.entries id sub hlookup, issued.entries id' sub' hlookup', htx]

theorem State.client_subscribe (inv : Inv s es) (issued : Issued s acts es)
    (hcount : s.created + 1 ≤ 2 ^ 64) (pattern : String) (i : Nat)
    : ({ s with
            nextId := s.nextId + 1
            subs := s.subs.insert s.nextId ⟨Filter.parse pattern, s.created⟩
            created := s.created + 1 }.setSubscription s.created (.new capacity pattern)).client i
        =
      (s.itemsOf i (.subscribe pattern)).foldl Client.step (s.client i) := by
  unfold itemsOf
  dsimp only
  by_cases hi : s.created = i
  . subst hi
    rw [if_pos rfl, client_setSubscription_self (Nat.lt_succ_self _)]
    have hcontains := Registry.contains_insert_self s.subs s.nextId ⟨Filter.parse pattern, s.created⟩
    dsimp only at hcontains ⊢
    rw [hcontains]
    rfl
  . rw [if_neg hi, client_setSubscription_of_ne (Ne.symm hi)]
    -- the new id is none of those in the registry, as the counter has not wrapped
    have hfresh : ∀ old, s.subs.lookup s.nextId = some old → old.tx ≠ i := by
      intro old hlookup
      have htx := (inv.registry old (Registry.mem_values_of_lookup hlookup)).1
      have heq := issued.entries _ old hlookup
      rw [issued.nextId] at heq
      have := UInt64.ofNat_inj (by omega) (by omega) heq
      omega
    have hcontains : Registry.contains (s.subs.insert s.nextId ⟨Filter.parse pattern, s.created⟩) i
        = s.subs.contains i :=
      Registry.contains_insert_of_ne hi hfresh
    unfold client
    dsimp only
    rw [hcontains, List.foldl_nil]
    by_cases hlt : i < s.created
    . rw [if_pos hlt, if_pos (by omega)]
    . rw [if_neg hlt, if_neg (by omega)]

theorem State.client_unsubscribe (issued : Issued s acts es) (inv : Inv s es) (id : SubId) (i : Nat)
    : ({ s with subs := s.subs.erase id } : State capacity τ).client i
        =
      (s.itemsOf i (.unsubscribe id)).foldl Client.step (s.client i) := by
  unfold itemsOf
  dsimp only
  cases hlookup : s.subs.lookup id with
  | none =>
    rw [Registry.erase_of_lookup hlookup]
    rfl
  | some sub =>
    by_cases htx : sub.tx = i
    . subst htx
      have hlt := (inv.registry sub (Registry.mem_values_of_lookup hlookup)).1
      unfold client
      dsimp only
      rw [if_pos hlt, if_pos hlt, Registry.contains_erase_self hlookup
        (fun id' sub' hlookup' htx => issued.lookup_unique hlookup hlookup' htx)]
      simp [Client.step]
    . have hne : ∀ old, s.subs.lookup id = some old → old.tx ≠ i := by
        intro old hold
        rw [hlookup, Option.some.injEq] at hold
        rw [← hold]
        exact htx
      unfold client
      dsimp only
      rw [Registry.contains_erase_of_ne hne]
      simp [htx]

theorem State.client_visit (inv : Inv s es) (pending : Pending s) {t : τ} {msg : Message} {sub : Sub}
    {rest : List Sub} {sent dropped : Nat}
    (hpc : s.pc t = .sending msg (sub :: rest) sent dropped)
    : sub.tx < s.created
        ∧
      (⟨s.subs.contains sub.tx, s.subscriptions sub.tx⟩ : Client capacity).accepts msg
        =
      sub.filter.matchesTopic msg.topicStr := by
  have hmem := pending t msg _ sent dropped hpc sub List.mem_cons_self
  have hregistry := inv.registry sub hmem
  have hcontains : s.subs.contains sub.tx = true := decide_eq_true (List.mem_map_of_mem hmem)
  refine ⟨hregistry.1, ?_⟩
  unfold Client.accepts
  rw [hcontains, hregistry.2]
  rfl

theorem State.client_step (inv : Inv s es) (issued : Issued s acts es) (pending : Pending s)
    (hstep : s.step a = some (s', es')) (hcount : s'.created ≤ 2 ^ 64) (i : Nat)
    : s'.client i = (s.itemsOf i a).foldl Client.step (s.client i) := by
  cases Step.of_step hstep with
  | @subscribe pattern hlock => exact client_subscribe inv issued hcount pattern i
  | @unsubscribe id hlock => exact client_unsubscribe issued inv id i
  | offer hpc => exact client_congr rfl rfl rfl
  | @lock t values arg now hpc hlock hvalues =>
    have hclient : ({ s with
        lock := some t
        current := some ⟨t, arg, now, values.map Sub.tx, []⟩ }.setPc t
          (.sending (stamp arg now) values 0 0) : State capacity τ).client i = s.client i :=
      client_congr rfl rfl rfl
    rw [hclient, itemsOf_lock hpc]
    split
    . rfl
    . next hmem =>
      -- an offer that does not visit `i` finds it unregistered
      have hcontains : s.subs.contains i = false := by
        rw [(hvalues.map Sub.tx).mem_iff] at hmem
        exact decide_eq_false hmem
      unfold client
      split
      . simp [Client.step, Client.offer, Client.accepts, hcontains]
      . rfl
  | @visit t msg sub rest sent dropped hpc hmatch =>
    have hvisit := client_visit inv pending hpc
    rw [itemsOf_trySend hpc]
    split
    . next htx =>
      subst htx
      rw [client_of_lt hvisit.1, client_of_lt (by rw [visit_created]; exact hvisit.1), visit_subs,
        visit_subscriptions, update_self]
      simp [Client.step, Client.offer, hvisit.2, hmatch]
    . next htx =>
      apply client_congr
      . rw [visit_subs]
      . rw [visit_created]
      . rw [visit_subscriptions, update_of_ne (Ne.symm htx)]
  | @skip t msg sub rest sent dropped hpc hmatch =>
    have hvisit := client_visit inv pending hpc
    have hclient : (s.setPc t (.sending msg rest sent dropped)).client i = s.client i :=
      client_congr rfl rfl rfl
    rw [hclient, itemsOf_trySend hpc]
    split
    . next htx =>
      subst htx
      rw [client_of_lt hvisit.1]
      simp [Client.step, Client.offer, hvisit.2, hmatch]
    . rfl
  | unlock hpc => exact client_congr rfl rfl rfl
  | @recv j msg rest hqueue hcreated hconnected =>
    unfold itemsOf
    dsimp only
    split
    . next hj =>
      subst hj
      rw [client_setSubscription_self hcreated, client_of_lt hcreated]
      simp [Client.step, Client.recv, hqueue, hconnected]
    . next hj =>
      rw [client_setSubscription_of_ne (Ne.symm hj)]
      rfl
  | @dropReceiver j hcreated hconnected =>
    unfold itemsOf
    dsimp only
    split
    . next hj =>
      subst hj
      rw [client_setSubscription_self hcreated, client_of_lt hcreated]
      rfl
    . next hj =>
      rw [client_setSubscription_of_ne (Ne.symm hj)]
      rfl

end Client

/--
A failed attempt to receive is no step of the bus.
-/
theorem polledBus_refines_bus : Simulation (polledBus capacity τ) (bus capacity τ) Eq where
  init := rfl
  step := by
    rintro s _ (a | i) s' es rfl hstep
    . exact ⟨[a], s', System.run_one _ hstep, rfl⟩
    . simp only [polledBus, State.move] at hstep
      split at hstep
      . next next hnext =>
        rw [Option.some.injEq] at hstep
        subst hstep
        exact ⟨[.recv i], s', System.run_one _ hnext, rfl⟩
      . rw [Option.some.injEq, Prod.mk.injEq] at hstep
        rcases hstep with ⟨rfl, rfl⟩
        exact ⟨[], s, rfl, rfl⟩

theorem State.client_recv_of_none {s : State capacity τ} {i : Nat} (h : s.step (.recv i) = none)
    : (s.client i).map Client.recv = s.client i := by
  unfold client
  split
  . next hcreated =>
    rw [Option.map_some, Option.some.injEq]
    unfold Client.recv
    dsimp only
    split
    . next msg rest hqueue =>
      split
      . next hconnected => simp [State.step, hqueue, hcreated, hconnected] at h
      . rfl
    . rfl
  . rfl

theorem polledBus_reaches {moves : List (Move τ)} {s : State capacity τ} {es : List (Output τ)}
    (hreach : (polledBus capacity τ).Reaches moves s es)
    : Inv s es ∧ ∃ acts, Issued s acts es := by
  rcases polledBus_refines_bus.trace hreach with ⟨acts, _, hbus, rfl⟩
  exact ⟨bus_inv hbus, acts, bus_issued hbus⟩

theorem polledBus_client {moves : List (Move τ)} {s : State capacity τ} {es : List (Output τ)}
    (hreach : (polledBus capacity τ).Reaches moves s es) (hcount : s.created ≤ 2 ^ 64) (i : Nat)
    : s.client i = Client.replay (script capacity i moves) := by
  have h := System.reaches_inv_trace (State.items i)
    (fun s items es => ((∃ acts, (bus capacity τ).Reaches acts s es) ∧ Pending s)
      ∧ (s.created ≤ 2 ^ 64 → s.client i = Client.replay items)) ?_ ?_ hreach
  . exact h.2 hcount
  . rintro s items past m s' es ⟨⟨⟨acts, hbus⟩, pending⟩, hclient⟩ hmove
    have inv := bus_inv hbus
    have issued := bus_issued hbus
    have hstep : ∀ a, s.step a = some (s', es) → s.items i m = s.itemsOf i a →
        ((∃ acts, (bus capacity τ).Reaches acts s' (past ++ es)) ∧ Pending s')
          ∧ (s'.created ≤ 2 ^ 64 → s'.client i = Client.replay (items ++ s.items i m)) := by
      intro a hstep hitems
      refine ⟨⟨⟨acts ++ [a], System.run_append _ hbus (System.run_one _ hstep)⟩,
        pending.step inv hstep⟩, ?_⟩
      intro hcount
      have hle : s.created ≤ s'.created := (Step.of_step hstep).created_le
      unfold Client.replay
      rw [List.foldl_append, ← Client.replay, ← hclient (by omega), hitems]
      exact State.client_step inv issued pending hstep hcount i
    cases m with
    | act a => exact hstep a hmove rfl
    | tryRecv j =>
      simp only [polledBus, State.move] at hmove
      split at hmove
      . next next hnext =>
        rw [Option.some.injEq] at hmove
        subst hmove
        exact hstep (.recv j) hnext rfl
      . next hnone =>
        rw [Option.some.injEq, Prod.mk.injEq] at hmove
        rcases hmove with ⟨rfl, rfl⟩
        rw [List.append_nil]
        refine ⟨⟨⟨acts, hbus⟩, pending⟩, ?_⟩
        intro hcount
        unfold Client.replay State.items
        rw [List.foldl_append, ← Client.replay, ← hclient hcount]
        dsimp only
        split
        . next hj =>
          subst hj
          exact (State.client_recv_of_none hnone).symm
        . rfl
  . exact ⟨⟨⟨[], rfl⟩, fun _ _ _ _ _ h => by contradiction⟩, fun _ => rfl⟩

/--
Subscriptions do not influence each other: in two runs in which subscriptions `i` and `j` have the
same script, and in which ids do not wrap, they receive the same messages and have the same queue.
-/
theorem bus_isolates {τ' : Type} [DecidableEq τ'] {moves : List (Move τ)} {moves' : List (Move τ')}
    {s : State capacity τ} {s' : State capacity τ'} {es : List (Output τ)} {es' : List (Output τ')}
    {i j : Nat} (hreach : (polledBus capacity τ).Reaches moves s es)
    (hreach' : (polledBus capacity τ').Reaches moves' s' es')
    (hcount : (returned es).length ≤ 2 ^ 64) (hcount' : (returned es').length ≤ 2 ^ 64)
    (hscript : script capacity i moves = script capacity j moves')
    : (s.subscriptions i).received = (s'.subscriptions j).received
        ∧
      (s.subscriptions i).chan.queue = (s'.subscriptions j).chan.queue := by
  rcases polledBus_reaches hreach with ⟨inv, acts, issued⟩
  rcases polledBus_reaches hreach' with ⟨inv', acts', issued'⟩
  rw [issued.length_returned] at hcount
  rw [issued'.length_returned] at hcount'
  have hclient : s.client i = s'.client j := by
    rw [polledBus_client hreach hcount, polledBus_client hreach' hcount', hscript]
  unfold State.client at hclient
  split at hclient
  . split at hclient
    . rw [Option.some.injEq, Client.mk.injEq] at hclient
      rw [hclient.2]
      exact ⟨rfl, rfl⟩
    . contradiction
  . next hi =>
    split at hclient
    . contradiction
    . next hj =>
      -- before it is made, a subscription has received nothing and has nothing queued
      have hstream := inv.stream_of_created_le (Nat.le_of_not_lt hi)
      have hstream' := inv'.stream_of_created_le (Nat.le_of_not_lt hj)
      unfold State.stream at hstream hstream'
      rw [List.append_eq_nil_iff, List.append_eq_nil_iff] at hstream hstream'
      rw [hstream.1.1, hstream.1.2, hstream'.1.1, hstream'.1.2]
      exact ⟨rfl, rfl⟩

/--
A stalled and dropped second subscription goes unnoticed, and so does a poll of the empty queue.
-/
theorem bus_isolates_two
    : ∃ s es s' es',
        (polledBus 1 Unit).Reaches
            [.act (.subscribe "a"), .act (.subscribe "a"), .tryRecv 0,
              .act (.offer () (.new "a" [1]) 5), .act (.lock () [⟨.exact "a", 1⟩, ⟨.exact "a", 0⟩]),
              .act (.trySend ()), .act (.trySend ()), .act (.unlock ()), .tryRecv 0,
              .act (.dropReceiver 1)] s es
          ∧
        (polledBus 1 Unit).Reaches
            [.act (.subscribe "a"), .tryRecv 0, .act (.offer () (.new "a" [1]) 5),
              .act (.lock () [⟨.exact "a", 0⟩]), .act (.trySend ()), .act (.unlock ()), .tryRecv 0]
            s' es'
          ∧
        (s.subscriptions 0).received = (s'.subscriptions 0).received
          ∧
        (s.subscriptions 0).chan.queue = (s'.subscriptions 0).chan.queue := by
  have hreach := (polledBus 1 Unit).reaches_get
    [.act (.subscribe "a"), .act (.subscribe "a"), .tryRecv 0,
      .act (.offer () (.new "a" [1]) 5), .act (.lock () [⟨.exact "a", 1⟩, ⟨.exact "a", 0⟩]),
      .act (.trySend ()), .act (.trySend ()), .act (.unlock ()), .tryRecv 0,
      .act (.dropReceiver 1)] (by decide +kernel)
  have hreach' := (polledBus 1 Unit).reaches_get
    [.act (.subscribe "a"), .tryRecv 0, .act (.offer () (.new "a" [1]) 5),
      .act (.lock () [⟨.exact "a", 0⟩]), .act (.trySend ()), .act (.unlock ()), .tryRecv 0]
    (by decide +kernel)
  exact ⟨_, _, _, _, hreach, hreach', bus_isolates hreach hreach' (by decide +kernel)
    (by decide +kernel) (by decide +kernel)⟩

theorem script_append {moves moves' : List (Move τ)} {s : State capacity τ} {es : List (Output τ)}
    {i : Nat} (hreach : (polledBus capacity τ).Reaches moves s es)
    : script capacity i (moves ++ moves')
        =
      script capacity i moves ++ (polledBus capacity τ).trace (State.items i) s moves' :=
  System.trace_append _ hreach

theorem run_subscribes {s : State capacity τ} {i : Nat} (hlock : s.lock = none) (hi : i < s.created)
    (pattern : String) (n : Nat)
    : ∃ s' es,
        (polledBus capacity τ).run s (List.replicate n (.act (.subscribe pattern))) = some (s', es)
          ∧
        (polledBus capacity τ).trace (State.items i) s
          (List.replicate n (.act (.subscribe pattern))) = []
          ∧
        s'.lock = none ∧ s'.created = s.created + n ∧ s'.pc = s.pc
          ∧
        s'.subscriptions i = s.subscriptions i := by
  induction n generalizing s with
  | zero => exact ⟨s, [], rfl, rfl, hlock, rfl, rfl, rfl⟩
  | succ n ih =>
    have hstep : ∃ next, (polledBus capacity τ).step s (.act (.subscribe pattern)) = some next
        ∧ next.1.lock = none ∧ next.1.created = s.created + 1 ∧ next.1.pc = s.pc
        ∧ next.1.subscriptions i = s.subscriptions i := by
      simp only [polledBus, State.move, State.step, hlock, Option.isNone_none, if_true]
      refine ⟨_, rfl, rfl, rfl, rfl, ?_⟩
      rw [State.setSubscription_subscriptions, update_of_ne (Nat.ne_of_lt hi)]
    rcases hstep with ⟨⟨t, es1⟩, hstep, hlock', hcreated, hpc, hsubscription⟩
    rcases ih hlock' (by omega) with ⟨s', es2, hrun, htrace, hlock'', hcreated', hpc', hsubscription'⟩
    refine ⟨s', es1 ++ es2, ?_, ?_, hlock'', by omega, hpc'.trans hpc,
      hsubscription'.trans hsubscription⟩
    . rw [List.replicate_succ, System.run_cons_eq_some]
      exact ⟨t, es1, es2, hstep, hrun, rfl⟩
    . rw [List.replicate_succ]
      simp only [System.trace, hstep]
      rw [htrace]
      simp [State.items, State.itemsOf, Nat.ne_of_gt hi]

/--
The counter of the ids wraps around after `2 ^ 64` subscriptions, and `HashMap::insert` then replaces
the entry of the first one.
-/
theorem exists_evicted
    : ∃ (moves : List (Move Unit)) (s : State 1 Unit) (es : List (Output Unit)),
        (polledBus 1 Unit).Reaches moves s es
          ∧
        script 1 0 moves = [.subscribe "a"]
          ∧
        s.lock = none ∧ s.pc () = .idle ∧ 0 < s.created ∧ s.subs.contains 0 = false
          ∧
        (s.subscriptions 0).chan.queue = [] := by
  obtain ⟨n, hn⟩ : ∃ n, 1 + n = 2 ^ 64 := ⟨2 ^ 64 - 1, by norm_num⟩
  have hfirst := (polledBus 1 Unit).reaches_get [.act (.subscribe "a")] (by decide +kernel)
  have hreach : ∃ s es, (polledBus 1 Unit).Reaches [.act (.subscribe "a")] s es ∧ s.lock = none
      ∧ s.created = 1 ∧ s.pc () = .idle ∧ (s.subscriptions 0).chan.queue = [] :=
    ⟨_, _, hfirst, rfl, rfl, rfl, rfl⟩
  rcases hreach with ⟨s1, es1, hreach1, hlock1, hcreated1, hpc1, hqueue1⟩
  rcases run_subscribes (i := 0) hlock1 (by omega) "b" n with
    ⟨s2, es2, hrun2, htrace2, hlock2, hcreated2, hpc2, hsubscription2⟩
  have hreach2 := System.run_append _ hreach1 hrun2
  rcases polledBus_reaches hreach2 with ⟨_, acts, issued⟩
  have hnext : s2.nextId = 0 := by
    rw [issued.nextId, hcreated2, hcreated1, hn]
    rfl
  -- one subscription more takes the id of the first
  have hstep : ∃ next, (polledBus 1 Unit).step s2 (.act (.subscribe "b")) = some next
      ∧ next.1.lock = none ∧ next.1.pc () = .idle ∧ next.1.created = s2.created + 1
      ∧ next.1.subs = s2.subs.insert 0 ⟨Filter.parse "b", s2.created⟩
      ∧ next.1.subscriptions 0 = s2.subscriptions 0 := by
    simp only [polledBus, State.move, State.step, hlock2, Option.isNone_none, if_true]
    refine ⟨_, rfl, rfl, ?_, rfl, ?_, ?_⟩
    . exact (congrFun hpc2 ()).trans hpc1
    . rw [State.setSubscription_subs, hnext]
    . rw [State.setSubscription_subscriptions, update_of_ne (by omega)]
  rcases hstep with ⟨⟨s3, es3⟩, hstep, hlock3, hpc3, hcreated3, hsubs3, hsubscription3⟩
  dsimp only at hlock3 hpc3 hcreated3 hsubs3 hsubscription3
  refine ⟨_, s3, _, System.run_append _ hreach2 (System.run_one _ hstep), ?_, hlock3, hpc3,
    by omega, ?_, ?_⟩
  . have hitems : s2.items 0 (.act (.subscribe "b")) = [] := by
      simp [State.items, State.itemsOf, hcreated2, hcreated1]
    have hscript : script 1 0 ([.act (.subscribe "a")] : List (Move Unit)) = [.subscribe "a"] := by
      decide +kernel
    rw [script_append hreach2, script_append hreach1, hscript, htrace2]
    simp only [System.trace, hstep, hitems]
    rfl
  . rw [Bool.eq_false_iff, Ne, Registry.contains_iff_lookup]
    rintro ⟨id, sub, hlookup, htx⟩
    rw [hsubs3] at hlookup
    by_cases hid : id = 0
    . subst hid
      rw [AList.lookup_insert, Option.some.injEq] at hlookup
      subst hlookup
      dsimp only at htx
      omega
    . rw [AList.lookup_insert_ne hid] at hlookup
      have := issued.entries id sub hlookup
      rw [htx] at this
      exact hid this
  . rw [hsubscription3, hsubscription2, hqueue1]

/--
Without a bound on the number of subscriptions, they do influence each other.
-/
theorem not_bus_isolates
    : ¬ ∀ (capacity : Nat) (moves moves' : List (Move Unit)) (s s' : State capacity Unit)
        (es es' : List (Output Unit)) (i j : Nat),
        1 ≤ capacity → (polledBus capacity Unit).Reaches moves s es →
        (polledBus capacity Unit).Reaches moves' s' es' →
        script capacity i moves = script capacity j moves' →
        (s.subscriptions i).received = (s'.subscriptions j).received
          ∧
        (s.subscriptions i).chan.queue = (s'.subscriptions j).chan.queue := by
  intro hisolates
  rcases exists_evicted with ⟨moves, s, es, hreach, hscript, hlock, hpc, hcreated, hcontains, hqueue⟩
  have hnotMem : 0 ∉ s.subs.values.map Sub.tx := of_decide_eq_false hcontains
  let s1 := s.setPc () (.lock (.new "a" [1]) 5)
  let s2 := { s1 with
    lock := some ()
    current := some ⟨(), .new "a" [1], 5, s.subs.values.map Sub.tx, []⟩ }.setPc ()
      (.sending (stamp (.new "a" [1]) 5) s.subs.values 0 0)
  have hoffer : (polledBus 1 Unit).step s (.act (.offer () (.new "a" [1]) 5))
      = some (s1, [.offer () (.new "a" [1]) 5]) := by
    simp only [polledBus, State.move, State.step, hpc]
    rfl
  have hpc1 : s1.pc () = .lock (.new "a" [1]) 5 := by simp [s1]
  have hlock1 : s1.lock = none := hlock
  have hlocked : (polledBus 1 Unit).step s1 (.act (.lock () s.subs.values)) = some (s2, []) := by
    simp only [polledBus, State.move, State.step, hpc1, hlock1]
    rw [if_pos ⟨rfl, List.Perm.refl _⟩]
  have hrun : (polledBus 1 Unit).run s
      [.act (.offer () (.new "a" [1]) 5), .act (.lock () s.subs.values)]
      = some (s2, [.offer () (.new "a" [1]) 5]) := by
    simp only [System.run, hoffer, hlocked]
    rfl
  have hitems : s1.items 0 (.act (.lock () s.subs.values)) = [.offer (stamp (.new "a" [1]) 5)] := by
    unfold State.items
    dsimp only
    rw [State.itemsOf_lock hpc1, if_neg hnotMem]
  have hscript' : script 1 0 (moves ++
      [.act (.offer () (.new "a" [1]) 5), .act (.lock () s.subs.values)])
      = [.subscribe "a", .offer (stamp (.new "a" [1]) 5)] := by
    rw [script_append hreach, hscript]
    simp only [System.trace, hoffer, hlocked, hitems]
    rfl
  -- the same script, with subscription 0 still registered
  have hother := (polledBus 1 Unit).reaches_get
    [.act (.subscribe "a"), .act (.offer () (.new "a" [1]) 5), .act (.lock () [⟨.exact "a", 0⟩]),
      .act (.trySend ())] (by decide +kernel)
  have heq := (hisolates 1 _ _ _ _ _ _ 0 0 (Nat.le_refl 1) (System.run_append _ hreach hrun) hother
    (hscript'.trans (by decide +kernel))).2
  have hqueue2 : (s2.subscriptions 0).chan.queue = [] := hqueue
  rw [hqueue2] at heq
  revert heq
  decide +kernel

end Bus
