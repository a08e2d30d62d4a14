import Cadence.Bus.Lemmas.Stream

/-!
This module contains the identity of subscriptions: ids are issued once while their counter does not
wrap, the registry maps an id to what the call that issued it created, and an unsubscribed queue gets
nothing any more.
-/

open Lts Function

namespace Bus

variable {capacity : Nat} {τ : Type}

/--
The calls of `subscribe` that have returned: their ids and the subscriptions they created.
-/
def returned (es : List (Output τ)) : List (SubId × Nat) :=
  es.filterMap fun
    | .subscribed id i => some (id, i)
    | _ => none

def Act.pattern? : Act τ → Option String
  | .subscribe pattern => some pattern
  | _ => none

theorem returned_append (es es' : List (Output τ))
    : returned (es ++ es') = returned es ++ returned es' := by
  unfold returned
  rw [List.filterMap_append]

theorem Registry.mem_values_of_lookup {subs : Registry} {id : SubId} {sub : Sub}
    (h : subs.lookup id = some sub) : sub ∈ subs.values := by
  unfold Registry.values
  exact List.mem_map_of_mem (AList.mem_lookup_iff.mp h)

theorem Registry.erase_of_lookup {subs : Registry} {id : SubId} (h : subs.lookup id = none)
    : subs.erase id = subs := by
  apply AList.ext
  apply List.kerase_of_notMem_keys
  rw [AList.lookup_eq_none, AList.mem_keys] at h
  exact h

theorem UInt64.ofNat_inj {i j : Nat} (hi : i < 2 ^ 64) (hj : j < 2 ^ 64)
    (h : UInt64.ofNat i = UInt64.ofNat j) : i = j := by
  have := congrArg UInt64.toNat h
  rwa [UInt64.toNat_ofNat_of_lt' hi, UInt64.toNat_ofNat_of_lt' hj] at this

variable [DecidableEq τ]

theorem Step.registry {s s' : State capacity τ} {a : Act τ} {es : List (Output τ)}
    (h : Step s a s' es)
    : (∃ pattern, a = .subscribe pattern ∧ s.lock = none
          ∧ s'.subs = s.subs.insert s.nextId ⟨Filter.parse pattern, s.created⟩
          ∧ s'.nextId = s.nextId + 1 ∧ s'.created = s.created + 1
          ∧ es = [.subscribed s.nextId s.created] ∧ s'.pattern = update s.pattern s.created pattern)
        ∨
      (∃ id, a = .unsubscribe id ∧ s.lock = none ∧ s'.subs = s.subs.erase id
          ∧ s'.nextId = s.nextId ∧ s'.created = s.created ∧ es = [] ∧ s'.pattern = s.pattern)
        ∨
      (a.pattern? = none ∧ s'.subs = s.subs ∧ s'.nextId = s.nextId ∧ s'.created = s.created
          ∧ returned es = [] ∧ s'.pattern = s.pattern) := by
  cases h with
  | @subscribe pattern hlock =>
    refine .inl ⟨pattern, rfl, hlock, rfl, rfl, rfl, rfl, ?_⟩
    funext j
    unfold State.pattern
    by_cases hj : j = s.created
    . subst hj
      simp
    . simp [hj]
  | @unsubscribe id hlock => exact .inr (.inl ⟨id, rfl, hlock, rfl, rfl, rfl, rfl, rfl⟩)
  | offer hpc => exact .inr (.inr ⟨rfl, rfl, rfl, rfl, rfl, rfl⟩)
  | lock hpc hlock hvalues => exact .inr (.inr ⟨rfl, rfl, rfl, rfl, rfl, rfl⟩)
  | @visit t msg sub pending sent dropped hpc hmatch =>
    refine .inr (.inr ⟨rfl, ?_, ?_, ?_, rfl, ?_⟩)
    . rw [State.visit_subs]
    . rw [State.visit_nextId]
    . rw [State.visit_created]
    . rw [State.visit_pattern]
  | skip hpc hmatch => exact .inr (.inr ⟨rfl, rfl, rfl, rfl, rfl, rfl⟩)
  | unlock hpc => exact .inr (.inr ⟨rfl, rfl, rfl, rfl, rfl, rfl⟩)
  | recv hqueue hcreated hconnected =>
    refine .inr (.inr ⟨rfl, rfl, rfl, rfl, rfl, ?_⟩)
    apply State.pattern_setSubscription
    rfl
  | dropReceiver hcreated hconnected =>
    refine .inr (.inr ⟨rfl, rfl, rfl, rfl, rfl, ?_⟩)
    apply State.pattern_setSubscription
    rfl

/--
The ids are the numbers of the subscriptions, as far as a word can tell them apart.
-/
structure Issued (s : State capacity τ) (acts : List (Act τ)) (es : List (Output τ)) : Prop where
  nextId : s.nextId = UInt64.ofNat s.created
  entries : ∀ id sub, s.subs.lookup id = some sub → id = UInt64.ofNat sub.tx
  calls : returned es = (List.range s.created).map fun i => (UInt64.ofNat i, i)
  patterns : acts.filterMap Act.pattern? = (List.range s.created).map s.pattern

omit [DecidableEq τ] in
theorem Issued.init : Issued (.init capacity τ : State capacity τ) [] [] where
  nextId := rfl
  entries := fun id sub h => by
    rw [State.init, AList.lookup_empty] at h
    contradiction
  calls := rfl
  patterns := rfl

theorem Issued.step {s s' : State capacity τ} {acts : List (Act τ)} {a : Act τ}
    {es es' : List (Output τ)} (issued : Issued s acts es) (hstep : s.step a = some (s', es'))
    : Issued s' (acts ++ [a]) (es ++ es') := by
  rcases (Step.of_step hstep).registry with
    ⟨pattern, rfl, -, hsubs, hnextId, hcreated, rfl, hpattern⟩
    | ⟨id, rfl, -, hsubs, hnextId, hcreated, rfl, hpattern⟩
    | ⟨ha, hsubs, hnextId, hcreated, hes, hpattern⟩
  . exact {
      nextId := by
        -- the counter may wrap here, which `UInt64.ofNat` follows
        rw [hnextId, hcreated, issued.nextId, UInt64.ofNat_add]
        rfl
      entries := by
        intro id sub hlookup
        rw [hsubs] at hlookup
        by_cases hid : id = s.nextId
        . subst hid
          rw [AList.lookup_insert, Option.some.injEq] at hlookup
          rw [← hlookup, issued.nextId]
        . rw [AList.lookup_insert_ne hid] at hlookup
          exact issued.entries id sub hlookup
      calls := by
        rw [returned_append, issued.calls, hcreated, List.range_succ, List.map_append,
          issued.nextId]
        rfl
      patterns := by
        rw [List.filterMap_append, issued.patterns, hcreated, List.range_succ, List.map_append,
          hpattern]
        congr 1
        . apply List.map_congr_left
          intro i hi
          rw [update_of_ne (List.mem_range.mp hi).ne]
        . simp [Act.pattern?]
    }
  . exact {
      nextId := by
        rw [hnextId, hcreated, issued.nextId]
      entries := by
        intro id' sub hlookup
        rw [hsubs] at hlookup
        by_cases hid : id' = id
        . subst hid
          rw [AList.lookup_erase] at hlookup
          contradiction
        . rw [AList.lookup_erase_ne hid] at hlookup
          exact issued.entries id' sub hlookup
      calls := by
        rw [List.append_nil, hcreated, issued.calls]
      patterns := by
        rw [List.filterMap_append, issued.patterns, hcreated, hpattern]
        exact List.append_nil _
    }
  . exact {
      nextId := by
        rw [hnextId, hcreated, issued.nextId]
      entries := by
        rw [hsubs]
        exact issued.entries
      calls := by
        rw [returned_append, hes, List.append_nil, hcreated, issued.calls]
      patterns := by
        rw [List.filterMap_append, issued.patterns, hcreated, hpattern, List.filterMap_cons, ha]
        exact List.append_nil _
    }

theorem bus_issued {acts : List (Act τ)} {s : State capacity τ} {es : List (Output τ)}
    (hreach : (bus capacity τ).Reaches acts s es) : Issued s acts es :=
  System.reaches_inv_inputs (fun acts s es => Issued s acts es)
    (fun _ _ _ _ _ _ issued hstep => issued.step hstep) Issued.init hreach

/--
Subscription `i` is out of the registry, and no offer is on its way to it.
-/
structure Detached (s : State capacity τ) (i : Nat) : Prop where
  created : i < s.created
  registry : i ∉ s.subs.values.map Sub.tx
  pending : ∀ t msg pending sent dropped, s.pc t = .sending msg pending sent dropped →
    i ∉ pending.map Sub.tx

namespace Detached

variable {s s' : State capacity τ} {a : Act τ} {es es' : List (Output τ)} {i : Nat}

omit [DecidableEq τ] in
theorem of_sublist (detached : Detached s i) {subs : Registry}
    (h : subs.values.Sublist s.subs.values) : i ∉ subs.values.map Sub.tx := by
  intro hmem
  exact detached.registry ((h.map Sub.tx).mem hmem)

theorem setPc (detached : Detached s i) {t : τ} {pc : OfferPc}
    (h : ∀ msg pending sent dropped, pc = .sending msg pending sent dropped →
      i ∉ pending.map Sub.tx)
    (t' : τ) (msg : Message) (pending : List Sub) (sent dropped : Nat)
    (hpc : update s.pc t pc t' = .sending msg pending sent dropped) : i ∉ pending.map Sub.tx := by
  rcases update_eq_cases hpc with ⟨-, heq⟩ | ⟨-, hpc⟩
  . exact h msg pending sent dropped heq
  . exact detached.pending t' msg pending sent dropped hpc

omit [DecidableEq τ] in
theorem pending_tail (detached : Detached s i) {t : τ} {msg : Message} {sub : Sub}
    {pending : List Sub} {sent dropped : Nat}
    (hpc : s.pc t = .sending msg (sub :: pending) sent dropped)
    (msg' : Message) (pending' : List Sub) (sent' dropped' sent'' dropped'' : Nat)
    (h : OfferPc.sending msg pending sent'' dropped'' = .sending msg' pending' sent' dropped')
    : i ∉ pending'.map Sub.tx := by
  cases h
  have := detached.pending t _ _ _ _ hpc
  simp only [List.map_cons, List.mem_cons, not_or] at this
  exact this.2

theorem step (detached : Detached s i) (hstep : s.step a = some (s', es')) : Detached s' i := by
  cases Step.of_step hstep with
  | @subscribe pattern hlock =>
    exact {
      created := Nat.lt_succ_of_lt detached.created
      registry := by
        rw [State.setSubscription_subs, Registry.values_insert, List.map_cons, List.mem_cons, not_or]
        exact ⟨detached.created.ne, detached.of_sublist (s.subs.values_erase s.nextId)⟩
      pending := detached.pending
    }
  | unsubscribe hlock =>
    exact { detached with registry := detached.of_sublist (s.subs.values_erase _) }
  | offer hpc =>
    exact { detached with pending := detached.setPc (fun _ _ _ _ h => by contradiction) }
  | lock hpc hlock hvalues =>
    exact {
      detached with
      pending := by
        apply detached.setPc
        intro msg pending sent dropped h
        cases h
        rw [(hvalues.map Sub.tx).mem_iff]
        exact detached.registry
    }
  | visit hpc hmatch =>
    exact {
      created := by
        rw [State.visit_created]
        exact detached.created
      registry := by
        rw [State.visit_subs]
        exact detached.registry
      pending := by
        rcases State.visit_pc s _ _ _ _ _ _ with ⟨sent', dropped', hpc'⟩
        rw [hpc']
        apply detached.setPc
        intro msg' pending' sent'' dropped''
        apply detached.pending_tail hpc
    }
  | skip hpc hmatch =>
    exact {
      detached with
      pending := by
        apply detached.setPc
        intro msg' pending' sent'' dropped''
        apply detached.pending_tail hpc
    }
  | unlock hpc =>
    exact { detached with pending := detached.setPc (fun _ _ _ _ h => by contradiction) }
  | recv hqueue hcreated hconnected => exact { detached with }
  | dropReceiver hcreated hconnected => exact { detached with }

omit [DecidableEq τ] in
theorem appended (detached : Detached s i) (a : Act τ) : s.appended a i = [] := by
  cases a with
  | trySend t =>
    unfold State.appended
    rw [State.puts_trySend]
    unfold State.put
    split
    . next msg sub pending sent dropped hpc =>
      have hne : sub.tx ≠ i := by
        intro heq
        apply detached.pending t _ _ _ _ hpc
        rw [← heq]
        exact List.mem_cons_self
      split
      . simp [Option.filter, hne]
      . rfl
    . rfl
  | _ => apply State.appended_of_none rfl

theorem run (detached : Detached s i) (inv : Inv s es) {acts : List (Act τ)}
    (hrun : (bus capacity τ).run s acts = some (s', es'))
    : Detached s' i ∧ s'.stream i = s.stream i := by
  have := System.run_inv (S := bus capacity τ)
    (I := fun s' es' => Inv s' es' ∧ Detached s' i ∧ s'.stream i = s.stream i)
    (fun t past a t' es' h hstep => by
      refine ⟨h.1.step hstep, h.2.1.step hstep, ?_⟩
      rw [State.stream_step h.1 hstep, h.2.1.appended, List.append_nil, h.2.2])
    ⟨inv, detached, rfl⟩ hrun
  exact this.2

end Detached

namespace Issued

variable {s : State capacity τ} {acts : List (Act τ)} {es : List (Output τ)}

omit [DecidableEq τ] in
theorem length_returned (issued : Issued s acts es) : (returned es).length = s.created := by
  rw [issued.calls, List.length_map, List.length_range]

end Issued

end Bus
