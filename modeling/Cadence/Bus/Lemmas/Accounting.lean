import Mathlib.Algebra.BigOperators.Group.Finset.Piecewise
import Cadence.Bus.Lemmas.Ledger

/-!
This module contains the accounts of the bus: the results of all offers, the shared drop counter and
the contents of all queues stay in balance.
-/

open Lts Function

namespace Bus

variable {capacity : Nat} {τ : Type}

namespace Offer

def enqueued (o : Offer τ) (capacity : Nat) : List Nat :=
  (o.tries.filter fun attempt => attempt.2.any (· < capacity)).map Prod.fst

def full (o : Offer τ) (capacity : Nat) : List Nat :=
  (o.tries.filter fun attempt => attempt.2.any (capacity ≤ ·)).map Prod.fst

def gone (o : Offer τ) : List Nat :=
  (o.tries.filter fun attempt => attempt.2.isNone).map Prod.fst

def result (o : Offer τ) (capacity : Nat) : OfferResult :=
  ⟨(o.enqueued capacity).length, (o.full capacity).length⟩

theorem length_enqueued_note (o : Offer τ) (i : Nat) (found : Option Nat)
    : ((o.note i found).enqueued capacity).length
        =
      (o.enqueued capacity).length + if found.any (· < capacity) then 1 else 0 := by
  unfold enqueued note
  rw [List.filter_append, List.map_append, List.length_append, List.filter_cons]
  split <;> rfl

theorem length_full_note (o : Offer τ) (i : Nat) (found : Option Nat)
    : ((o.note i found).full capacity).length
        =
      (o.full capacity).length + if found.any (capacity ≤ ·) then 1 else 0 := by
  unfold full note
  rw [List.filter_append, List.map_append, List.length_append, List.filter_cons]
  split <;> rfl

theorem classes_perm (o : Offer τ) (capacity : Nat)
    : (o.enqueued capacity ++ o.full capacity ++ o.gone).Perm (o.tries.map Prod.fst) := by
  unfold enqueued full gone
  induction o.tries with
  | nil => exact .nil
  | cons attempt tries ih =>
    rcases attempt with ⟨i, _ | length⟩
    . simp only [List.filter_cons, Option.any_none, Option.isNone_none, Bool.false_eq_true, if_false,
        if_true, List.map_cons]
      exact List.perm_middle.trans (ih.cons i)
    . by_cases hroom : length < capacity
      . simp only [List.filter_cons, Option.any_some, Option.isNone_some, hroom,
          Nat.not_le_of_lt hroom, Bool.false_eq_true, decide_true, decide_false, if_false, if_true,
          List.map_cons, List.cons_append]
        exact ih.cons i
      . simp only [List.filter_cons, Option.any_some, Option.isNone_some, hroom,
          Nat.le_of_not_lt hroom, Bool.false_eq_true, decide_true, decide_false, if_false, if_true,
          List.map_cons, List.append_assoc, List.cons_append]
        rw [List.append_assoc] at ih
        exact List.perm_middle.trans (ih.cons i)

theorem length_triesOn (o : Offer τ) (i : Nat)
    : (o.triesOn i).length = (o.tries.map Prod.fst).count i := by
  unfold triesOn
  rw [List.length_map, ← List.countP_eq_length_filter, List.count_eq_countP, List.countP_map]
  rfl

theorem Settled.classes {o : Offer τ} {patterns : Nat → String}
    (settled : ∀ i, o.Settled (patterns i) i)
    : (o.enqueued capacity ++ o.full capacity ++ o.gone).Nodup
        ∧
      ∀ i, i ∈ o.enqueued capacity ++ o.full capacity ++ o.gone
        ↔ i ∈ o.registered ∧ (Filter.parse (patterns i)).matchesTopic o.msg.topicStr = true := by
  have hperm := o.classes_perm capacity
  have hcount : ∀ i, (o.tries.map Prod.fst).count i = if o.addressed (patterns i) i then 1 else 0 := by
    intro i
    rw [← length_triesOn]
    exact settled i
  constructor
  . rw [hperm.nodup_iff, List.nodup_iff_count_le_one]
    intro i
    rw [hcount]
    split <;> omega
  . intro i
    rw [hperm.mem_iff, ← List.count_pos_iff, hcount]
    simp only [addressed, Bool.and_eq_true, decide_eq_true_eq]
    split
    . next h => simp [h]
    . next h => simp [h]

end Offer

def Output.result? : Output τ → Option (τ × OfferResult)
  | .offered t result => some (t, result)
  | _ => none

def results (es : List (Output τ)) : List (τ × OfferResult) :=
  es.filterMap Output.result?

namespace State

/--
The messages that have ever been put into a queue.
-/
def total (s : State capacity τ) : Nat :=
  ∑ i ∈ Finset.range s.created, (s.stream i).length

theorem length_appended (s : State capacity τ) (a : Act τ) (i : Nat)
    : (s.appended a i).length = if (s.puts a).any (·.1 = i) then 1 else 0 := by
  unfold appended
  cases s.puts a with
  | none => rfl
  | some p => by_cases h : p.1 = i <;> simp [Option.filter, h]

variable [DecidableEq τ]

theorem put_lt_created {s : State capacity τ} {es : List (Output τ)} (inv : Inv s es) {a : Act τ}
    {p : Nat × Message} (h : s.puts a = some p) : p.1 < s.created := by
  cases a with
  | trySend t =>
    rw [puts_trySend] at h
    unfold put at h
    split at h
    . next msg sub pending sent dropped hpc =>
      split at h
      . rw [Option.some.injEq] at h
        subst h
        rcases inv.progress hpc with ⟨o, -, hlog, -, prog⟩
        apply inv.registered o (by simp [hlog])
        exact (prog.untried sub List.mem_cons_self).1
      . contradiction
    . contradiction
  | _ => contradiction

theorem sum_appended {s : State capacity τ} {es : List (Output τ)} (inv : Inv s es) (a : Act τ)
    : ∑ i ∈ Finset.range s.created, (s.appended a i).length = (s.puts a).toList.length := by
  simp only [length_appended]
  cases hputs : s.puts a with
  | none => simp
  | some p =>
    have hlt := put_lt_created inv hputs
    simp [hlt]

theorem total_step {s s' : State capacity τ} {es es' : List (Output τ)} {a : Act τ}
    (inv : Inv s es) (hstep : s.step a = some (s', es'))
    : s'.total = s.total + (s.puts a).toList.length := by
  have hstream : ∀ i, (s'.stream i).length = (s.stream i).length + (s.appended a i).length := by
    intro i
    rw [stream_step inv hstep i, List.length_append]
  unfold total
  simp only [hstream]
  rcases (Step.of_step hstep).created with hcreated | ⟨hcreated, hputs⟩
  . rw [hcreated, Finset.sum_add_distrib, sum_appended inv]
  . -- a new subscription has an empty stream
    rw [hcreated, Finset.sum_range_succ, Finset.sum_add_distrib, sum_appended inv,
      inv.stream_of_created_le (Nat.le_refl _), appended_of_none hputs]
    rfl

end State

theorem State.visit_pc_eq [DecidableEq τ] (s : State capacity τ) (t : τ) (msg : Message) (sub : Sub)
    (pending : List Sub) (sent dropped : Nat)
    : (s.visit t msg sub pending sent dropped).pc
        =
      update s.pc t (.sending msg pending
        (sent + if (s.subscriptions sub.tx).chan.found.any (· < capacity) then 1 else 0)
        (dropped + if (s.subscriptions sub.tx).chan.found.any (capacity ≤ ·) then 1 else 0)) := by
  unfold visit Channel.trySend Channel.found
  by_cases hconnected : (s.subscriptions sub.tx).chan.connected
  . by_cases hroom : (s.subscriptions sub.tx).chan.queue.length < capacity
    . simp [hconnected, hroom, Nat.not_le_of_lt hroom]
      rfl
    . simp [hconnected, hroom, Nat.le_of_not_lt hroom]
      rfl
  . simp [hconnected]
    rfl

theorem State.visit_dropCount [DecidableEq τ] (s : State capacity τ) (t : τ) (msg : Message)
    (sub : Sub) (pending : List Sub) (sent dropped : Nat)
    : (s.visit t msg sub pending sent dropped).dropCount
        =
      s.dropCount + if (s.subscriptions sub.tx).chan.found.any (capacity ≤ ·) then 1 else 0 := by
  unfold visit Channel.trySend Channel.found
  by_cases hconnected : (s.subscriptions sub.tx).chan.connected
  . by_cases hroom : (s.subscriptions sub.tx).chan.queue.length < capacity
    . simp [hconnected, hroom, Nat.not_le_of_lt hroom]
    . simp [hconnected, hroom, Nat.le_of_not_lt hroom]
  . simp [hconnected]

/--
The counters of the offers, finished or not, against the shared counter and the streams.
-/
structure Tally [DecidableEq τ] (s : State capacity τ) (es : List (Output τ)) : Prop where
  holder : ∀ t, s.lock = some t → s.pc t ≠ .idle
  taken : s.current = none → s.lock = none
  counters : ∀ t msg pending sent dropped o, s.pc t = .sending msg pending sent dropped →
    s.current = some o → o.result capacity = ⟨sent, dropped⟩
  results : results es = s.offers.map fun o => (o.caller, o.result capacity)
  dropCount : s.dropCount.toNat = (s.log.map fun o => (o.result capacity).dropped).sum % 2 ^ 64
  total : (s.log.map fun o => (o.result capacity).sent).sum = s.total

variable [DecidableEq τ]

theorem Tally.init : Tally (State.init capacity τ) [] where
  holder := fun t h => by contradiction
  taken := fun _ => rfl
  counters := fun t msg pending sent dropped o h => by contradiction
  results := rfl
  dropCount := rfl
  total := rfl

omit [DecidableEq τ] in
theorem results_append (es es' : List (Output τ))
    : results (es ++ es') = results es ++ results es' := by
  unfold results
  rw [List.filterMap_append]

namespace Tally

variable {s s' : State capacity τ} {es es' : List (Output τ)}

theorem of_unchanged (tally : Tally s es) (hlock : s'.lock = s.lock) (hpc : s'.pc = s.pc)
    (hoffers : s'.offers = s.offers) (hcurrent : s'.current = s.current)
    (hdropCount : s'.dropCount = s.dropCount) (htotal : s'.total = s.total)
    (hes : Bus.results es' = []) : Tally s' (es ++ es') where
  holder := by
    rw [hlock, hpc]
    exact tally.holder
  taken := by
    rw [hcurrent, hlock]
    exact tally.taken
  counters := by
    rw [hpc, hcurrent]
    exact tally.counters
  results := by
    rw [results_append, hes, List.append_nil, hoffers]
    exact tally.results
  dropCount := by
    unfold State.log
    rw [hdropCount, hoffers, hcurrent]
    exact tally.dropCount
  total := by
    unfold State.log
    rw [htotal, hoffers, hcurrent]
    exact tally.total

theorem offer (tally : Tally s es) {t : τ} (arg : Message) (now : UInt64) (hpc : s.pc t = .idle)
    : Tally (s.setPc t (.lock arg now)) (es ++ [.offer t arg now]) where
  holder := by
    intro t' hlock
    by_cases ht : t' = t
    . subst ht
      exact absurd hpc (tally.holder t' hlock)
    . rw [State.setPc_pc, update_of_ne ht]
      exact tally.holder t' hlock
  taken := tally.taken
  counters := by
    intro t' msg pending sent dropped o hpc' ho
    rcases update_eq_cases hpc' with ⟨rfl, heq⟩ | ⟨ht, hpc'⟩
    . contradiction
    . exact tally.counters t' msg pending sent dropped o hpc' ho
  results := by
    rw [results_append]
    exact (List.append_nil _).trans tally.results
  dropCount := tally.dropCount
  total := tally.total

theorem lock (tally : Tally s es) (inv : Inv s es) {t : τ} {arg : Message} {now : UInt64}
    {values : List Sub} (hlock : s.lock = none)
    : Tally
        ({ s with
            lock := some t
            current := some ⟨t, arg, now, values.map Sub.tx, []⟩ }.setPc t
          (.sending (stamp arg now) values 0 0)) es := by
  have hlog := inv.log_of_free hlock
  have hdropCount := tally.dropCount
  have htotal := tally.total
  rw [hlog] at hdropCount htotal
  exact {
    holder := by
      intro t' ht'
      simp only [State.setPc_lock, Option.some.injEq] at ht'
      subst ht'
      simp
    taken := fun h => by contradiction
    counters := by
      intro t' msg pending sent dropped o hpc' ho
      rcases update_eq_cases hpc' with ⟨rfl, heq⟩ | ⟨ht, hpc'⟩
      . rw [OfferPc.sending.injEq] at heq
        simp only [State.setPc_current, Option.some.injEq] at ho
        rcases heq with ⟨-, -, rfl, rfl⟩
        subst ho
        rfl
      . exact absurd hpc' (inv.not_sending hlock)
    results := tally.results
    dropCount := by
      unfold State.log
      rw [State.setPc_dropCount, hdropCount, State.setPc_offers, State.setPc_current]
      simp [Offer.result, Offer.full]
    total := by
      unfold State.log
      rw [State.setPc_offers, State.setPc_current]
      refine Eq.trans ?_ htotal
      simp [Offer.result, Offer.enqueued]
  }

theorem skip (tally : Tally s es) (inv : Inv s es) {t : τ} {msg : Message} {sub : Sub}
    {pending : List Sub} {sent dropped : Nat}
    (hpc : s.pc t = .sending msg (sub :: pending) sent dropped)
    : Tally (s.setPc t (.sending msg pending sent dropped)) es where
  holder := by
    intro t' hlock
    by_cases ht : t' = t
    . subst ht
      simp
    . rw [State.setPc_pc, update_of_ne ht]
      exact tally.holder t' hlock
  taken := tally.taken
  counters := by
    intro t' msg' pending' sent' dropped' o hpc' ho
    rcases update_eq_cases hpc' with ⟨rfl, heq⟩ | ⟨ht, hpc'⟩
    . rw [OfferPc.sending.injEq] at heq
      rcases heq with ⟨rfl, rfl, rfl, rfl⟩
      exact tally.counters _ _ _ _ _ o hpc ho
    . exact absurd (inv.eq_of_sending hpc hpc') ht
  results := tally.results
  dropCount := tally.dropCount
  total := tally.total

theorem unlock (tally : Tally s es) (inv : Inv s es) {t : τ} {msg : Message} {sent dropped : Nat}
    (hpc : s.pc t = .sending msg [] sent dropped)
    : Tally
        ({ s with
            lock := none
            current := none
            offers := s.offers ++ s.current.toList }.setPc t .idle)
        (es ++ [.offered t ⟨sent, dropped⟩]) := by
  rcases inv.progress hpc with ⟨o, ho, -, hcaller, -⟩
  have hresult := tally.counters t msg [] sent dropped o hpc ho
  have hlog : ({ s with
      lock := none
      current := none
      offers := s.offers ++ s.current.toList }.setPc t .idle : State capacity τ).log = s.log :=
    List.append_nil _
  exact {
    holder := fun t' h => by contradiction
    taken := fun _ => rfl
    counters := fun t' msg' pending' sent' dropped' o' hpc' ho' => by contradiction
    results := by
      rw [results_append, tally.results, State.setPc_offers, ho, Option.toList_some,
        List.map_append, List.map_singleton, hcaller, hresult]
      rfl
    dropCount := by
      rw [hlog]
      exact tally.dropCount
    total := by
      rw [hlog]
      exact tally.total
  }

theorem visit (tally : Tally s es) (inv : Inv s es) {t : τ} {msg : Message} {sub : Sub}
    {pending : List Sub} {sent dropped : Nat}
    (hpc : s.pc t = .sending msg (sub :: pending) sent dropped)
    (hmatch : sub.filter.matchesTopic msg.topicStr = true)
    (htotal : (s.visit t msg sub pending sent dropped).total
      = s.total + (s.puts (.trySend t)).toList.length)
    : Tally (s.visit t msg sub pending sent dropped) es := by
  rcases inv.progress hpc with ⟨o, ho, hlog, -, -⟩
  have hresult := tally.counters t _ _ _ _ o hpc ho
  rw [Offer.result, OfferResult.mk.injEq] at hresult
  have hlog' := s.visit_log t msg sub pending sent dropped ho
  exact {
    holder := by
      intro t' hlock
      rw [State.visit_lock] at hlock
      rw [State.visit_pc_eq]
      by_cases ht : t' = t
      . subst ht
        simp
      . rw [update_of_ne ht]
        exact tally.holder t' hlock
    taken := by
      intro hnone
      rw [State.visit_current, ho] at hnone
      contradiction
    counters := by
      intro t' msg' pending' sent' dropped' o' hpc' ho'
      rw [State.visit_pc_eq] at hpc'
      rw [State.visit_current, ho, Option.map_some, Option.some.injEq] at ho'
      subst ho'
      rcases update_eq_cases hpc' with ⟨rfl, heq⟩ | ⟨ht, hpc'⟩
      . rw [OfferPc.sending.injEq] at heq
        rcases heq with ⟨-, -, rfl, rfl⟩
        rw [Offer.result, Offer.length_enqueued_note, Offer.length_full_note, hresult.1, hresult.2]
      . exact absurd (inv.eq_of_sending hpc hpc') ht
    results := by
      rw [State.visit_offers]
      exact tally.results
    dropCount := by
      have hdropCount := tally.dropCount
      rw [hlog, List.map_append, List.sum_append] at hdropCount
      -- the shared counter is a word, the sum of the local ones is not
      rw [hlog', State.visit_dropCount, UInt64.toNat_add, hdropCount, List.map_append,
        List.sum_append]
      simp only [List.map_singleton, List.sum_singleton, Offer.result, Offer.length_full_note]
      split
      . rw [UInt64.toNat_one]
        omega
      . rw [UInt64.toNat_zero]
        omega
    total := by
      have hsum := tally.total
      rw [hlog, List.map_append, List.sum_append] at hsum
      rw [htotal, ← hsum, hlog', List.map_append, List.sum_append, State.puts_trySend,
        State.put_visit hpc hmatch]
      simp only [List.map_singleton, List.sum_singleton, Offer.result, Offer.length_enqueued_note]
      split
      . simp
        omega
      . simp
  }

theorem step {a : Act τ} (tally : Tally s es) (inv : Inv s es)
    (hstep : s.step a = some (s', es')) : Tally s' (es ++ es') := by
  have htotal := State.total_step inv hstep
  cases Step.of_step hstep with
  | subscribe hlock => exact tally.of_unchanged rfl rfl rfl rfl rfl htotal rfl
  | unsubscribe hlock => exact tally.of_unchanged rfl rfl rfl rfl rfl htotal rfl
  | offer hpc => exact tally.offer _ _ hpc
  | lock hpc hlock hvalues => simpa using tally.lock inv hlock
  | visit hpc hmatch => simpa using tally.visit inv hpc hmatch htotal
  | skip hpc hmatch => simpa using tally.skip inv hpc
  | unlock hpc => exact tally.unlock inv hpc
  | recv hqueue hcreated hconnected => exact tally.of_unchanged rfl rfl rfl rfl rfl htotal rfl
  | dropReceiver hcreated hconnected => exact tally.of_unchanged rfl rfl rfl rfl rfl htotal rfl

end Tally

theorem bus_tally {acts : List (Act τ)} {s : State capacity τ} {es : List (Output τ)}
    (hreach : (bus capacity τ).Reaches acts s es) : Tally s es := by
  have h := System.reaches_inv (fun s es => Inv s es ∧ Tally s es)
    (fun s past a s' es h hstep => ⟨h.1.step hstep, h.2.step h.1 hstep⟩) ⟨Inv.init, Tally.init⟩ hreach
  exact h.2

omit [DecidableEq τ] in
theorem Offer.Same.result {o o' : Offer τ} (same : o.Same o')
    : (o.caller, o.result capacity) = (o'.caller, o'.result capacity) := by
  unfold Offer.result Offer.enqueued Offer.full
  rw [same.caller, same.tries]

omit [DecidableEq τ] in
theorem results_of_same {log log' : List (Offer τ)} (h : List.Forall₂ Offer.Same log log')
    : log.map (fun o => (o.caller, o.result capacity))
        =
      log'.map fun o => (o.caller, o.result capacity) := by
  induction h with
  | nil => rfl
  | cons same _ ih => rw [List.map_cons, List.map_cons, same.result, ih]

/--
The accounts of a bus after `acts`, by the ledger: every offer that has returned has sorted the
matching subscriptions that were registered when it took the lock into three classes and counted two
of them, and while no offer holds the lock the shared counter is the sum of all `dropped` and the
queues account for the sum of all `sent`.
-/
structure Accounting (acts : List (Act τ)) (s : State capacity τ) (es : List (Output τ)) : Prop where
  results : results es = (ledger capacity acts).finished.map fun o =>
    (o.caller, ⟨(o.enqueued capacity).length, (o.full capacity).length⟩)
  classes : ∀ o ∈ (ledger capacity acts).finished,
    (o.enqueued capacity ++ o.full capacity ++ o.gone).Nodup
      ∧ ∀ i, i ∈ o.enqueued capacity ++ o.full capacity ++ o.gone
        ↔ i ∈ o.registered
          ∧ (Filter.parse ((ledger capacity acts).pattern i)).matchesTopic o.msg.topicStr = true
  free : (ledger capacity acts).current = none → s.lock = none
  dropCount : (ledger capacity acts).current = none →
    s.dropCount.toNat = ((Bus.results es).map (·.2.dropped)).sum % 2 ^ 64
  sent : (ledger capacity acts).current = none → ((Bus.results es).map (·.2.sent)).sum
    = ∑ i ∈ Finset.range (ledger capacity acts).patterns.length,
        (((ledger capacity acts).received i).length + (s.subscriptions i).chan.queue.length
          + ((ledger capacity acts).discarded i).length)

theorem bus_accounts {acts : List (Act τ)} {s : State capacity τ} {es : List (Output τ)}
    (hreach : (bus capacity τ).Reaches acts s es) : Accounting acts s es := by
  have inv := bus_inv hreach
  have tally := bus_tally hreach
  have hledger := ledger_matches hreach
  have hcurrent : (ledger capacity acts).current = none → s.current = none := by
    intro hnone
    have h := hledger.current
    rw [hnone, Option.toList_none, List.forall₂_nil_right_iff] at h
    exact Option.toList_eq_nil_iff.mp h
  have hlog : (ledger capacity acts).current = none → s.log = s.offers := by
    intro hnone
    unfold State.log
    rw [hcurrent hnone]
    apply List.append_nil _
  exact {
    results := tally.results.trans (results_of_same hledger.finished)
    classes := fun o ho => Offer.Settled.classes fun i => hledger.tried inv ho i
    free := fun hnone => tally.taken (hcurrent hnone)
    dropCount := by
      intro hnone
      rw [tally.dropCount, tally.results, hlog hnone, List.map_map]
      rfl
    sent := by
      intro hnone
      have htotal := tally.total
      rw [hlog hnone] at htotal
      rw [tally.results, List.map_map]
      refine htotal.trans ?_
      unfold State.total State.stream
      rw [hledger.created]
      simp only [List.length_append, hledger.received, hledger.discarded]
  }

/--
Three offers to a queue of one message: the first is taken, the second finds the queue full, and the
third comes after the receiver has been dropped with the first still queued.
-/
def thirdGone : List (Act Unit) :=
  [.subscribe "a", .offer () (.new "a" [1]) 5, .lock () [⟨.exact "a", 0⟩], .trySend (),
    .unlock (), .offer () (.new "a" [2]) 6, .lock () [⟨.exact "a", 0⟩], .trySend (),
    .unlock (), .dropReceiver 0, .offer () (.new "a" [3]) 7, .lock () [⟨.exact "a", 0⟩],
    .trySend (), .unlock ()]

theorem bus_accounts_three_offers
    : ∃ s es,
        (bus 1 Unit).Reaches thirdGone s es
          ∧
        results es = [((), ⟨1, 0⟩), ((), ⟨0, 1⟩), ((), ⟨0, 0⟩)]
          ∧
        (ledger 1 thirdGone).current = none
          ∧
        s.dropCount = 1
          ∧
        Accounting thirdGone s es := by
  have hreach := (bus 1 Unit).reaches_get thirdGone (by decide +kernel)
  exact ⟨_, _, hreach, by decide +kernel, by decide +kernel, by decide +kernel, bus_accounts hreach⟩

end Bus
