import Cadence.Bus.Lemmas.Accounting
import Cadence.Bus.Lemmas.Order

/-!
This module contains the order of timestamps: an offer reads the clock before it takes the lock, so
the messages of two offers that overlap may be queued against the order of their timestamps, and no
others.
-/

open Lts Function

namespace Bus

variable {capacity : Nat} {τ : Type} [DecidableEq τ]

def Output.reading? : Output τ → Option UInt64
  | .offer _ _ now => some now
  | _ => none

/--
The clock readings of all offers.
-/
def clock (es : List (Output τ)) : List UInt64 :=
  es.filterMap Output.reading?

/--
The call has read the clock.
-/
def Called (es : List (Output τ)) (call : τ × Nat) : Prop :=
  call.2 < (offeredBy call.1 es).length

def Returned (es : List (Output τ)) (call : τ × Nat) : Prop :=
  call.2 < ((results es).filter (·.1 = call.1)).length

/--
The first call has returned before the second reads the clock.
-/
def Precedes (es : List (Output τ)) (call call' : τ × Nat) : Prop :=
  ∃ before after, es = before ++ after ∧ Returned before call ∧ ¬ Called before call'

theorem Step.length_outputs {s s' : State capacity τ} {a : Act τ} {es : List (Output τ)}
    (h : Step s a s' es) : es.length ≤ 1 := by
  cases h <;> simp

theorem Step.offers_isPrefix {s s' : State capacity τ} {a : Act τ} {es : List (Output τ)}
    (h : Step s a s' es) : s.offers <+: s'.offers := by
  cases h with
  | visit =>
    rw [State.visit_offers]
  | unlock => apply List.prefix_append
  | _ => apply List.prefix_rfl

theorem run_offers_isPrefix {s s' : State capacity τ} {acts : List (Act τ)} {es : List (Output τ)}
    (h : (bus capacity τ).run s acts = some (s', es)) : s.offers <+: s'.offers := by
  induction acts generalizing s es with
  | nil =>
    cases h
    apply List.prefix_rfl
  | cons a acts ih =>
    rw [System.run_cons_eq_some] at h
    rcases h with ⟨t, es₁, es₂, hstep, hrun, -⟩
    exact (Step.of_step hstep).offers_isPrefix.trans (ih hrun)

omit [DecidableEq τ] in
theorem State.offers_prefix_log (s : State capacity τ) : s.offers <+: s.log := by
  apply List.prefix_append

theorem mem_numbers_iff {earlier log : List (Offer τ)} {t : τ} {k : Nat}
    : (t, k) ∈ numbers earlier log
        ↔
      (earlier.filter (·.caller = t)).length ≤ k
        ∧
      k < (earlier.filter (·.caller = t)).length + (log.filter (·.caller = t)).length := by
  induction log generalizing earlier with
  | nil => simp [numbers]
  | cons o log ih =>
    rw [numbers, List.mem_cons, ih, Prod.mk.injEq, List.filter_append, List.length_append]
    by_cases ht : o.caller = t
    . subst ht
      simp
      omega
    . simp [ht, Ne.symm ht]

section Run

variable {s : State capacity τ} {es : List (Output τ)}

theorem returned_iff (tally : Tally s es) (call : τ × Nat)
    : Returned es call ↔ call ∈ numbers [] s.offers := by
  unfold Returned
  rw [tally.results, List.filter_map, List.length_map, mem_numbers_iff]
  simp
  rfl

theorem called_of_mem_log (inv : Inv s es) {call : τ × Nat} (h : call ∈ numbers [] s.log)
    : Called es call := by
  unfold Called
  rw [inv.calls call.1, List.length_append, List.length_map]
  have := (mem_numbers_iff.mp h).2
  simp at this
  omega

theorem exists_cut {acts : List (Act τ)} {before after : List (Output τ)}
    (hreach : (bus capacity τ).Reaches acts s (before ++ after))
    : ∃ acts' m, (bus capacity τ).Reaches acts' m before ∧ m.offers <+: s.log := by
  have hone : ∀ (s : State capacity τ) a s' es, s.step a = some (s', es) → es.length ≤ 1 :=
    fun s a s' es hstep => (Step.of_step hstep).length_outputs
  rcases System.run_split _ hone hreach with ⟨acts', rest, m, -, hbefore, hafter⟩
  exact ⟨acts', m, hbefore, (run_offers_isPrefix hafter).trans s.offers_prefix_log⟩

theorem called_of_returned {acts : List (Act τ)} (hreach : (bus capacity τ).Reaches acts s es)
    {call : τ × Nat} (h : Returned es call) : Called es call := by
  rw [returned_iff (bus_tally hreach)] at h
  apply called_of_mem_log (bus_inv hreach)
  unfold State.log
  rw [numbers_append]
  apply List.mem_append_left _ h

/--
An offer that has returned has taken the lock, before any later one.
-/
theorem Precedes.not_sublist {acts : List (Act τ)} (hreach : (bus capacity τ).Reaches acts s es)
    {call call' : τ × Nat} (h : Precedes es call call')
    : ¬ [call', call].Sublist (numbers [] s.log) := by
  rcases h with ⟨before, after, rfl, hreturned, hcalled⟩
  rcases exists_cut hreach with ⟨acts', m, hbefore, rest, hlog⟩
  rw [returned_iff (bus_tally hbefore)] at hreturned
  have hnotMem : call' ∉ numbers [] m.offers := by
    rw [← returned_iff (bus_tally hbefore)]
    intro hreturned'
    exact hcalled (called_of_returned hbefore hreturned')
  intro hsublist
  have hmem : call' ∈ numbers [] s.log := hsublist.mem List.mem_cons_self
  apply not_pair_sublist_swap (numbers_nodup [] s.log) hsublist
  rw [← hlog, numbers_append] at hmem ⊢
  rcases List.mem_append.mp hmem with hmem | hmem
  . contradiction
  . exact (List.singleton_sublist.mpr hreturned).append (List.singleton_sublist.mpr hmem)

end Run

section Clock

variable {es : List (Output τ)} {msg msg' : Message}

omit [DecidableEq τ] in
theorem clock_append (es es' : List (Output τ)) : clock (es ++ es') = clock es ++ clock es' := by
  apply List.filterMap_append

theorem offeredBy_sublist_clock (t : τ) (es : List (Output τ))
    : ((offeredBy t es).map Prod.snd).Sublist (clock es) := by
  induction es with
  | nil => apply List.Sublist.refl
  | cons e es ih =>
    cases e with
    | offer u arg now =>
      unfold offeredBy clock at ih ⊢
      by_cases hu : u = t
      . simpa [hu, Output.reading?] using ih
      . simpa [hu, Output.reading?] using ih.cons now
    | _ => exact ih

theorem exists_of_message {call : τ × Nat} (h : message es call = some msg)
    : ∃ arg, (offeredBy call.1 es)[call.2]? = some (arg, msg.timestampNs) := by
  unfold message at h
  rw [Option.map_eq_some_iff] at h
  rcases h with ⟨⟨arg, now⟩, hget, rfl⟩
  exact ⟨arg, hget⟩

theorem timestamp_le_of_lt (hclock : (clock es).Pairwise (· ≤ ·)) {t : τ} {k k' : Nat} (hlt : k < k')
    (h : message es (t, k) = some msg) (h' : message es (t, k') = some msg')
    : msg.timestampNs ≤ msg'.timestampNs := by
  rcases exists_of_message h with ⟨arg, hget⟩
  rcases exists_of_message h' with ⟨arg', hget'⟩
  have hsorted := hclock.sublist (offeredBy_sublist_clock t es)
  rw [List.pairwise_map, List.pairwise_iff_getElem] at hsorted
  rw [List.getElem?_eq_some_iff] at hget hget'
  rcases hget with ⟨hk, hget⟩
  rcases hget' with ⟨hk', hget'⟩
  have hle := hsorted k k' hk hk' hlt
  dsimp only at hget hget'
  rwa [hget, hget'] at hle

theorem timestamp_le_of_precedes {acts : List (Act τ)} {s : State capacity τ}
    (hreach : (bus capacity τ).Reaches acts s es) (hclock : (clock es).Pairwise (· ≤ ·))
    {call call' : τ × Nat} (hprecedes : Precedes es call call') (h : message es call = some msg)
    (h' : message es call' = some msg') : msg.timestampNs ≤ msg'.timestampNs := by
  rcases hprecedes with ⟨before, after, rfl, hreturned, hcalled⟩
  rcases exists_cut hreach with ⟨acts', m, hbefore, -⟩
  have hcall := called_of_returned hbefore hreturned
  rcases exists_of_message h with ⟨arg, hget⟩
  rcases exists_of_message h' with ⟨arg', hget'⟩
  have hmem : ∀ (t : τ) (es : List (Output τ)) p, p ∈ offeredBy t es → p.2 ∈ clock es :=
    fun t es p hp => (offeredBy_sublist_clock t es).mem (List.mem_map_of_mem hp)
  unfold Called at hcall hcalled
  rw [offeredBy_append, List.getElem?_append_left hcall] at hget
  rw [offeredBy_append, List.getElem?_append_right (Nat.le_of_not_lt hcalled)] at hget'
  rw [clock_append, List.pairwise_append] at hclock
  exact hclock.2.2 _ (hmem _ _ _ (List.mem_of_getElem? hget)) _
    (hmem _ _ _ (List.mem_of_getElem? hget'))

end Clock

/--
The timestamps in the stream of subscription `i`, told by the calls of `offer` that its messages come
from: only two producers whose calls overlap can get ahead of each other.
-/
structure TimestampOrder (s : State capacity τ) (ds : List (Nat × (τ × Nat))) (es : List (Output τ))
    (i : Nat) : Prop where
  stream : (deliveredTo i ds).map (message es)
    = ((s.subscriptions i).received ++ (s.subscriptions i).chan.queue
        ++ (s.subscriptions i).discarded).map some
  inverted : ∀ call call' msg msg', [call, call'].Sublist (deliveredTo i ds) →
    message es call = some msg → message es call' = some msg' →
    msg'.timestampNs < msg.timestampNs →
    call.1 ≠ call'.1 ∧ ¬ Precedes es call call' ∧ ¬ Precedes es call' call

theorem bus_timestamps_follow_calls {acts : List (Act τ)} {s : State capacity τ}
    {es : List (Output τ)} (hreach : (bus capacity τ).Reaches acts s es)
    (hclock : (clock es).Pairwise (· ≤ ·)) (i : Nat)
    : TimestampOrder s (deliveries capacity acts) es i where
  stream := (bus_ordered hreach).stream i
  inverted := by
    intro call call' msg msg' hsublist hmsg hmsg' hlt
    have hlog := hsublist.trans ((bus_ordered hreach).sublist i)
    rw [← UInt64.not_le] at hlt
    refine ⟨?_, ?_, ?_⟩
    . intro hsame
      rcases call with ⟨t, k⟩
      rcases call' with ⟨t', k'⟩
      dsimp only at hsame
      subst hsame
      have hpairwise := (numbers_pairwise [] s.log).sublist hlog
      simp only [List.pairwise_pair, forall_const] at hpairwise
      exact hlt (timestamp_le_of_lt hclock hpairwise hmsg hmsg')
    . intro hprecedes
      exact hlt (timestamp_le_of_precedes hreach hclock hprecedes hmsg hmsg')
    . intro hprecedes
      exact hprecedes.not_sublist hreach hlog

theorem bus_timestamps_follow_calls_two
    : ∃ s es,
        (bus 2 Bool).Reaches twoProducers s es
          ∧
        TimestampOrder s (deliveries 2 twoProducers) es 0 := by
  have hreach := (bus 2 Bool).reaches_get twoProducers (by decide +kernel)
  exact ⟨_, _, hreach, bus_timestamps_follow_calls hreach (by decide +kernel) 0⟩

/--
The producer with the later clock reading takes the lock first.
-/
theorem bus_timestamps_not_sorted
    : ¬ ∀ (acts : List (Act Bool)) (s : State 2 Bool) (es : List (Output Bool)) (i : Nat),
        (bus 2 Bool).Reaches acts s es → (clock es).Pairwise (· ≤ ·) →
        ((s.subscriptions i).received ++ (s.subscriptions i).chan.queue).Pairwise
          fun msg msg' => msg.timestampNs ≤ msg'.timestampNs := by
  intro h
  have hreach := (bus 2 Bool).reaches_get twoProducers (by decide +kernel)
  have hsorted := h _ _ _ 0 hreach (by decide +kernel)
  revert hsorted
  decide +kernel

end Bus
