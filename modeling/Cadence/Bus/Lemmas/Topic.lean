import Cadence.Bus.Lemmas.Filter
import Cadence.Bus.Lemmas.Ledger

/-!
This module contains when a publisher and a subscriber that use the same string meet.
-/

open Lts Function

namespace Bus

variable {capacity : Nat} {τ : Type} [DecidableEq τ]

/--
Subscription `i`, made with the pattern `t`, and the offers of `Message::new(t, payload)`. A
finished offer that found `i` registered has tried its queue exactly once if `fits` and not at all
otherwise, every try in a run of `acts` that found room has put its message into the queue, and if
`fits` the turn of `i` in an offer puts the message there whenever the receiver is alive and there
is room.
-/
structure Meeting (fits : Prop) [Decidable fits] (acts : List (Act τ)) (s : State capacity τ)
    (t : String) (payload : List UInt8) (i : Nat) : Prop where
  tried : ∀ o ∈ (ledger capacity acts).finished, i ∈ o.registered → o.arg = .new t payload →
    (o.triesOn i).length = if fits then 1 else 0
  stream : (ledger capacity acts).received i ++ (s.subscriptions i).chan.queue
      ++ (ledger capacity acts).discarded i
    = ((ledger capacity acts).log.filter fun o => o.addressed t i && o.foundRoom capacity i).map
        Offer.msg
  enqueued : ∀ u now sub pending sent dropped s' es,
    s.pc u = .sending (stamp (.new t payload) now) (sub :: pending) sent dropped → sub.tx = i →
    (s.subscriptions i).chan.connected = true → (s.subscriptions i).chan.queue.length < capacity →
    s.step (.trySend u) = some (s', es) →
    (s'.subscriptions i).chan.queue
      = (s.subscriptions i).chan.queue ++ if fits then [stamp (.new t payload) now] else []

theorem matchesTopic_stamp_new {t : String} (payload : List UInt8) (now : UInt64)
    (hnul : '\x00' ∉ t.toList)
    : (Filter.parse t).matchesTopic (stamp (.new t payload) now).topicStr = decide (FitsTopic t) := by
  rw [Bool.eq_iff_iff, decide_eq_true_iff]
  apply Filter.parse_matchesTopic_new payload hnul

/--
Publisher and subscriber meet exactly when their string fits the topic field, or is 33 bytes long and
loses no more than the `*` that makes it a pattern.
-/
theorem topic_meeting {acts : List (Act τ)} {s : State capacity τ} {es : List (Output τ)}
    {t : String} {i : Nat} (payload : List UInt8) (hreach : (bus capacity τ).Reaches acts s es)
    (hpattern : (ledger capacity acts).pattern i = t) (hnul : '\x00' ∉ t.toList)
    : Meeting (FitsTopic t) acts s t payload i := by
  have inv := bus_inv hreach
  have hledger := ledger_matches hreach
  exact {
    tried := by
      intro o ho hregistered harg
      rw [hledger.tried inv ho i]
      unfold Offer.addressed Offer.msg
      rw [harg, hpattern, matchesTopic_stamp_new payload o.now hnul]
      simp [hregistered]
    stream := by
      rw [hledger.stream inv i, hpattern]
      rfl
    enqueued := by
      intro u now sub pending sent dropped s' es hpc htx hconnected hroom hstep
      rcases inv.progress hpc with ⟨o, -, -, -, prog⟩
      have hfilter := (prog.untried sub List.mem_cons_self).2.1
      rw [htx, hledger.pattern, hpattern] at hfilter
      have hfits := matchesTopic_stamp_new payload now hnul
      cases Step.of_step hstep with
      | visit hpc' hmatch =>
        rw [hpc] at hpc'
        cases hpc'
        rw [hfilter, hfits, decide_eq_true_iff] at hmatch
        rw [if_pos hmatch, State.visit_subscriptions, htx, update_self, Channel.trySend_queue]
        simp [Channel.found, hconnected, hroom]
      | skip hpc' hmatch =>
        rw [hpc] at hpc'
        cases hpc'
        rw [hfilter, hfits, decide_eq_false_iff_not] at hmatch
        rw [if_neg hmatch, List.append_nil]
        rfl
  }

def longTopic : String := "a-topic-of-thirty-three-bytes-abc"

def longTopicRun (t : String) : List (Act Unit) :=
  [.subscribe t, .offer () (.new t []) 0, .lock () [⟨Filter.parse t, 0⟩], .trySend (), .unlock ()]

theorem topic_meeting_short
    : ∃ s es,
        (bus 1 Unit).Reaches (longTopicRun "prices.*") s es
          ∧
        FitsTopic "prices.*"
          ∧
        (s.subscriptions 0).chan.queue = [stamp (.new "prices.*" []) 0]
          ∧
        Meeting (FitsTopic "prices.*") (longTopicRun "prices.*") s "prices.*" [] 0 := by
  have hreach := (bus 1 Unit).reaches_get (longTopicRun "prices.*") (by decide +kernel)
  exact ⟨_, _, hreach, by decide +kernel, by decide +kernel,
    topic_meeting [] hreach (by decide +kernel) (by decide +kernel)⟩

/--
Strings that do not fit never meet themselves.
-/
theorem not_topic_meeting_longTopic
    : ¬ ∀ (capacity : Nat) (τ : Type) [DecidableEq τ] (acts : List (Act τ)) (s : State capacity τ)
        (es : List (Output τ)) (t : String) (payload : List UInt8) (i : Nat),
        (bus capacity τ).Reaches acts s es → (ledger capacity acts).patterns[i]? = some t →
        '\x00' ∉ t.toList → Meeting True acts s t payload i := by
  intro h
  have hreach := (bus 1 Unit).reaches_get (longTopicRun longTopic) (by decide +kernel)
  have hmeeting := h _ _ _ _ _ longTopic [] 0 hreach (by decide +kernel) (by decide +kernel)
  have htried := hmeeting.tried ⟨(), .new longTopic [], 0, [0], []⟩
  revert htried
  decide +kernel

end Bus
