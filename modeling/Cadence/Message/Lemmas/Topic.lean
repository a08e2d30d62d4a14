import Cadence.Message.Basic

/-!
This module contains what `topic_str` makes of the topic given to `Message::new`.
-/

namespace Message

theorem toList_copyTruncated (n : Nat) (bytes : List UInt8)
    : (copyTruncated n bytes).toList = bytes.take n ++ List.replicate (n - bytes.length) 0 := rfl

theorem take_findIdx?_copyTruncated {n : Nat} {bytes : List UInt8} (h : 0 ∉ bytes)
    : (copyTruncated n bytes).toList.take
          (((copyTruncated n bytes).toList.findIdx? (· == 0)).getD n)
        =
      bytes.take n := by
  -- the first 0 of the field, if there is one, is the first of the padding
  have hnone : (bytes.take n).findIdx? (· == 0) = none := by
    rw [List.findIdx?_eq_none_iff]
    intro byte hbyte
    have hne : byte ≠ 0 := fun heq => h (heq ▸ List.mem_of_mem_take hbyte)
    simpa using hne
  rw [toList_copyTruncated, List.findIdx?_append, hnone]
  by_cases hlt : bytes.length < n
  . have hrep : (List.replicate (n - bytes.length) (0 : UInt8)).findIdx? (· == 0) = some 0 := by
      obtain ⟨k, hk⟩ : ∃ k, n - bytes.length = k + 1 := ⟨n - bytes.length - 1, by omega⟩
      rw [hk, List.replicate_succ]
      rfl
    rw [hrep]
    simp
  . rw [show n - bytes.length = 0 by omega]
    simp [List.take_take]

/--
`topic_str` is the first 32 bytes of the topic, or empty if a character is cut in two.
-/
theorem topicStr_new {topic : String} (payload : List UInt8) (h : '\x00' ∉ topic.toList)
    : (new topic payload).topicStr
        =
      (String.fromUTF8? (topic.asBytes.take 32).toByteArray).getD "" := by
  unfold topicStr new
  simp only
  rw [take_findIdx?_copyTruncated (String.zero_notMem_asBytes h)]

theorem topicStr_new_of_le {topic : String} (payload : List UInt8) (h : '\x00' ∉ topic.toList)
    (hle : topic.asBytes.length ≤ 32) : (new topic payload).topicStr = topic := by
  rw [topicStr_new payload h, List.take_of_length_le hle, String.fromUTF8?_eq_some_iff.mpr rfl]
  rfl

theorem topicStr_new_of_cut {topic : String} (payload : List UInt8) (h : '\x00' ∉ topic.toList)
    (hlt : 32 < topic.asBytes.length) (hcut : ¬ topic.IsCharBoundary 32)
    : (new topic payload).topicStr = "" := by
  rw [topicStr_new payload h]
  rw [String.fromUTF8?_take_of_not_isCharBoundary (by omega) hcut]
  rfl

theorem topicStr_new_of_isCharBoundary {topic : String} (payload : List UInt8)
    (h : '\x00' ∉ topic.toList) (hboundary : topic.IsCharBoundary 32)
    : ∃ r, topic = (new topic payload).topicStr ++ r
        ∧ (new topic payload).topicStr.asBytes.length = 32 := by
  rcases String.fromUTF8?_take_of_isCharBoundary hboundary with ⟨s, r, htopic, hlength, hs⟩
  rw [topicStr_new payload h, hs]
  exact ⟨r, htopic, hlength⟩

/--
What a truncated topic should be: the longest prefix in whole characters that fits the field.
-/
structure KeepsTopic (topic kept : String) : Prop where
  longest : Prefix.Longest (fun cs => (String.ofList cs).asBytes.length ≤ 32) topic.toList kept.toList
  whole : topic.asBytes.length ≤ 32 → kept = topic
  nonempty : topic ≠ "" → kept ≠ ""

theorem length_asBytes_le_of_prefix {cs cs' : List Char} (h : cs <+: cs')
    : (String.ofList cs).asBytes.length ≤ (String.ofList cs').asBytes.length := by
  rcases h with ⟨rest, rfl⟩
  rw [String.ofList_append, String.asBytes_append, List.length_append]
  omega

theorem keepsTopic_self {topic : String} (hle : topic.asBytes.length ≤ 32)
    : KeepsTopic topic topic where
  longest := by
    apply Prefix.Longest.self
    rw [String.ofList_toList]
    apply hle
  whole := fun _ => rfl
  nonempty := id

theorem keepsTopic_append {kept rest : String} (hlength : kept.asBytes.length = 32)
    : KeepsTopic (kept ++ rest) kept where
  longest := by
    apply Prefix.Longest.of_next
    . rw [String.toList_append]
      apply List.prefix_append
    . rw [String.ofList_toList]
      omega
    . intro cs cs' hcs hle
      have := length_asBytes_le_of_prefix hcs
      omega
    . -- the next character needs room of its own
      intro c cs _
      have := String.length_utf8EncodeChar_pos c
      rw [String.ofList_append, String.ofList_toList, String.asBytes_append, String.asBytes_ofList,
        List.length_append, List.flatMap_singleton]
      omega
  whole := by
    intro hle
    rw [String.asBytes_append, List.length_append] at hle
    have hrest : rest.asBytes = "".asBytes := List.length_eq_zero_iff.mp (by omega)
    rw [String.asBytes_inj.mp hrest, String.append_empty]
  nonempty := by
    rintro - rfl
    contradiction

theorem not_keepsTopic_empty {topic : String} (h : topic ≠ "") : ¬ KeepsTopic topic "" := by
  intro hkeeps
  apply hkeeps.nonempty h rfl

/--
Truncation keeps as much of a topic as fits, exactly if it does not cut a character in two.
-/
theorem topicStr_keeps_iff {topic : String} (payload : List UInt8) (h : '\x00' ∉ topic.toList)
    : KeepsTopic topic (new topic payload).topicStr
        ↔
      topic.asBytes.length ≤ 32 ∨ topic.IsCharBoundary 32 := by
  constructor
  . intro hkeeps
    by_contra hcut
    rw [not_or] at hcut
    rw [topicStr_new_of_cut payload h (by omega) hcut.2] at hkeeps
    apply not_keepsTopic_empty _ hkeeps
    rintro rfl
    apply hcut.1
    decide
  . rintro (hle | hboundary)
    . rw [topicStr_new_of_le payload h hle]
      apply keepsTopic_self hle
    . rcases topicStr_new_of_isCharBoundary payload h hboundary with ⟨r, htopic, hlength⟩
      generalize (new topic payload).topicStr = kept at htopic hlength
      subst htopic
      apply keepsTopic_append hlength

theorem topicStr_keeps_iff_ascii
    : KeepsTopic "a-topic-of-more-than-thirty-two-bytes"
        (new "a-topic-of-more-than-thirty-two-bytes" []).topicStr := by
  apply (topicStr_keeps_iff [] (by decide)).mpr
  right
  exact ⟨"a-topic-of-more-than-thirty-two-", "bytes", rfl, rfl⟩

/--
Bytes 31 and 32 are one character, and with it the whole topic is lost.
-/
theorem topicStr_not_keeps
    : ¬ ∀ (topic : String) (payload : List UInt8), '\x00' ∉ topic.toList →
        KeepsTopic topic (new topic payload).topicStr := by
  intro h
  have hkeeps := h "a-topic-of-thirty-one-bytes-andé" [] (by decide)
  apply hkeeps.nonempty
  . decide
  . decide +kernel

theorem length_topicStr_le (m : Message) : m.topicStr.asBytes.length ≤ 32 := by
  unfold topicStr
  simp only
  have hle := (String.asBytes_getD_fromUTF8? (m.topic.toList.take
    ((m.topic.toList.findIdx? (· == 0)).getD 32))).length_le
  rw [List.length_take, Vector.length_toList] at hle
  omega

end Message
