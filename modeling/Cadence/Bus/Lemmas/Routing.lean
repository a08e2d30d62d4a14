import Cadence.Bus.Lemmas.Filter
import Cadence.Bus.Lemmas.Ledger

/-!
This module contains the pattern language: which topics a pattern accepts, and that offers are routed
accordingly.
-/

open Lts Function

namespace Bus

/--
The documented language: a pattern without a final `*` accepts itself, and `q*` accepts every topic
that starts with `q`.
-/
def Accepts (pattern topic : String) : Prop :=
  ((∀ q, pattern ≠ q ++ "*") ∧ pattern = topic) ∨ ∃ q r, pattern = q ++ "*" ∧ topic = q ++ r

theorem getLast?_toList_eq_star_iff {pattern : String}
    : pattern.toList.getLast? = some '*' ↔ ∃ q, pattern = q ++ "*" := by
  constructor
  . intro h
    refine ⟨String.ofList pattern.toList.dropLast, ?_⟩
    rw [← String.asBytes_inj, String.asBytes_append, asBytes_ofList_dropLast h]
    rfl
  . rintro ⟨q, rfl⟩
    rw [String.toList_append, List.getLast?_append]
    rfl

theorem Filter.parse_append_star (q : String) : Filter.parse (q ++ "*") = .prefixed q := by
  unfold parse
  rw [if_pos (getLast?_toList_eq_star_iff.mpr ⟨q, rfl⟩), String.toList_append]
  congr
  rw [← String.toList_inj, String.toList_ofList]
  apply List.dropLast_concat

theorem Filter.parse_matchesTopic_iff (pattern topic : String)
    : (Filter.parse pattern).matchesTopic topic = true ↔ Accepts pattern topic := by
  unfold Accepts
  by_cases hstar : ∃ q, pattern = q ++ "*"
  . rcases hstar with ⟨q, rfl⟩
    rw [parse_append_star, matchesTopic_prefixed, String.asBytes_prefix_iff]
    constructor
    . rintro ⟨r, rfl⟩
      exact .inr ⟨q, r, rfl, rfl⟩
    . rintro (⟨hlast, -⟩ | ⟨q', r, heq, htopic⟩)
      . exact absurd rfl (hlast q)
      . rw [String.append_left_inj] at heq
        rw [heq]
        exact ⟨r, htopic⟩
  . have hparse : Filter.parse pattern = .exact pattern := by
      unfold parse
      rw [if_neg (fun h => hstar (getLast?_toList_eq_star_iff.mp h))]
    rw [hparse, matchesTopic_exact]
    constructor
    . intro heq
      exact .inl ⟨fun q h => hstar ⟨q, h⟩, heq⟩
    . rintro (⟨-, heq⟩ | ⟨q, r, heq, -⟩)
      . exact heq
      . exact absurd ⟨q, heq⟩ hstar

variable {capacity : Nat} {τ : Type} [DecidableEq τ]

/--
How the messages `Message::new(topic, payload)` are routed to subscription `i`, made with `pattern`:
its entry in the registry matches them, whatever their time stamp, and finished offers of them have
tried its queue once, if the pattern accepts the topic, and not at all otherwise. The last two fields
say what that comes to: only a final `*` is special.
-/
structure Routing (acts : List (Act τ)) (s : State capacity τ) (pattern topic : String)
    (payload : List UInt8) (i : Nat) : Prop where
  registry : ∀ sub ∈ s.subs.values, sub.tx = i → ∀ now,
    (sub.filter.matchesTopic (stamp (.new topic payload) now).topicStr = true
      ↔ Accepts pattern topic)
  tried : ∀ o ∈ (ledger capacity acts).finished, i ∈ o.registered → o.arg = .new topic payload →
    (Accepts pattern topic → (o.triesOn i).length = 1)
      ∧ (¬ Accepts pattern topic → o.triesOn i = [])
  literal : (∀ q, pattern ≠ q ++ "*") → (Accepts pattern topic ↔ pattern = topic)
  starred : ∀ q, pattern = q ++ "*" → (Accepts pattern topic ↔ ∃ r, topic = q ++ r)

theorem bus_routes {acts : List (Act τ)} {s : State capacity τ} {es : List (Output τ)}
    {pattern topic : String} {i : Nat} (payload : List UInt8)
    (hreach : (bus capacity τ).Reaches acts s es)
    (hpattern : (ledger capacity acts).pattern i = pattern)
    (hnul : '\x00' ∉ topic.toList) (hlength : topic.asBytes.length ≤ 32)
    : Routing acts s pattern topic payload i := by
  have inv := bus_inv hreach
  have hledger := ledger_matches hreach
  have hmatches : ∀ now, (Filter.parse pattern).matchesTopic (stamp (.new topic payload) now).topicStr
      = true ↔ Accepts pattern topic := by
    intro now
    have htopic : (stamp (.new topic payload) now).topicStr = topic :=
      Message.topicStr_new_of_le payload hnul hlength
    rw [htopic]
    apply Filter.parse_matchesTopic_iff
  exact {
    registry := by
      intro sub hsub htx now
      rw [(inv.registry sub hsub).2, htx, hledger.pattern, hpattern]
      exact hmatches now
    tried := by
      intro o ho hregistered harg
      have hsettled := hledger.tried inv ho i
      unfold Offer.Settled Offer.addressed Offer.msg at hsettled
      rw [harg, hpattern, decide_eq_true hregistered, Bool.true_and] at hsettled
      constructor
      . intro haccepts
        rw [hsettled, if_pos ((hmatches o.now).mpr haccepts)]
      . intro haccepts
        rw [if_neg (fun h => haccepts ((hmatches o.now).mp h))] at hsettled
        exact List.eq_nil_of_length_eq_zero hsettled
    literal := by
      intro hlast
      constructor
      . rintro (⟨-, heq⟩ | ⟨q, r, heq, -⟩)
        . exact heq
        . exact absurd heq (hlast q)
      . intro heq
        exact .inl ⟨hlast, heq⟩
    starred := by
      intro q heq
      rw [← Filter.parse_matchesTopic_iff, heq, Filter.parse_append_star,
        Filter.matchesTopic_prefixed, String.asBytes_prefix_iff]
  }

def routingRun (pattern topic : String) (payload : List UInt8) : List (Act Unit) :=
  [.subscribe pattern, .offer () (.new topic payload) 9, .lock () [⟨Filter.parse pattern, 0⟩],
    .trySend (), .unlock ()]

theorem bus_routes_twoStars
    : ∃ s es,
        (bus 1 Unit).Reaches (routingRun "a**" "a*b" [7]) s es
          ∧
        (s.subscriptions 0).chan.queue = [stamp (.new "a*b" [7]) 9]
          ∧
        Routing (routingRun "a**" "a*b" [7]) s "a**" "a*b" [7] 0 := by
  have hreach := (bus 1 Unit).reaches_get (routingRun "a**" "a*b" [7]) (by decide +kernel)
  exact ⟨_, _, hreach, by decide +kernel,
    bus_routes [7] hreach (by decide +kernel) (by decide +kernel) (by decide +kernel)⟩

end Bus
