import Cadence.Bus.Impl.Filter
import Cadence.Message.Lemmas.Topic

/-!
This module contains when a pattern matches the topic of a message made from the same string.
-/

namespace Bus

/--
The strings that a publisher and a subscriber can share: they fit the topic field, or all that is cut
off is the `*` of a pattern.
-/
def FitsTopic (t : String) : Prop :=
  t.asBytes.length ≤ 32 ∨ (t.asBytes.length = 33 ∧ t.toList.getLast? = some '*')

instance (t : String) : Decidable (FitsTopic t) :=
  inferInstanceAs (Decidable (_ ∨ _))

theorem asBytes_ofList_dropLast {t : String} (h : t.toList.getLast? = some '*')
    : t.asBytes = (String.ofList t.toList.dropLast).asBytes ++ [42] := by
  have hsplit : t.toList = t.toList.dropLast ++ ['*'] := by
    rw [List.dropLast_append_getLast? _ h]
  rw [String.asBytes_ofList, String.asBytes_eq_flatMap]
  conv => lhs; rw [hsplit]
  rw [List.flatMap_append]
  rfl

namespace Filter

theorem matchesTopic_exact {t topic : String}
    : (Filter.exact t).matchesTopic topic = true ↔ t = topic := by
  simp [matchesTopic]

theorem matchesTopic_prefixed {p topic : String}
    : (Filter.prefixed p).matchesTopic topic = true ↔ p.asBytes <+: topic.asBytes := by
  simp [matchesTopic]

theorem parse_matchesTopic_self (t : String) : (parse t).matchesTopic t = true := by
  unfold parse
  split
  . next h =>
    rw [matchesTopic_prefixed]
    conv => rhs; rw [asBytes_ofList_dropLast h]
    apply List.prefix_append
  . rw [matchesTopic_exact]

theorem parse_matchesTopic_new {t : String} (payload : List UInt8) (h : '\x00' ∉ t.toList)
    : (parse t).matchesTopic (Message.new t payload).topicStr = true ↔ FitsTopic t := by
  by_cases hle : t.asBytes.length ≤ 32
  . rw [Message.topicStr_new_of_le payload h hle]
    apply iff_of_true (parse_matchesTopic_self t) (.inl hle)
  . have hshort := (Message.new t payload).length_topicStr_le
    unfold parse FitsTopic
    split
    . next hstar =>
      have hbytes := asBytes_ofList_dropLast hstar
      have hlength := congrArg List.length hbytes
      rw [List.length_append, List.length_singleton] at hlength
      rw [matchesTopic_prefixed]
      constructor
      . intro hprefix
        have := hprefix.length_le
        exact .inr ⟨by omega, hstar⟩
      . rintro (hcontra | ⟨h33, _⟩)
        . contradiction
        . have htake : t.asBytes.take 32 = (String.ofList t.toList.dropLast).asBytes := by
            rw [hbytes]
            apply List.take_left'
            omega
          rw [Message.topicStr_new payload h, htake, String.fromUTF8?_eq_some_iff.mpr rfl]
          apply List.prefix_rfl
    . next hstar =>
      rw [matchesTopic_exact]
      constructor
      . intro heq
        rw [← heq] at hshort
        contradiction
      . rintro (hcontra | ⟨_, hcontra⟩)
        . contradiction
        . contradiction

end Filter
end Bus
