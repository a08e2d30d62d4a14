import Cadence.Message.Lemmas.Bytes
import Cadence.Message.Lemmas.Topic

/-!
This module contains what the views of a message keep of it: which payloads a reader gets back, and
that a message rebuilt from its views has the same views.
-/

namespace Message

theorem payloadBytes_eq_trim (m : Message) : m.payloadBytes = Prefix.trim 0 m.payload.toList := by
  unfold payloadBytes
  simp only
  rw [Prefix.take_rposition]

theorem payloadBytes_new (topic : String) (payload : List UInt8)
    : (new topic payload).payloadBytes = Prefix.trim 0 (payload.take 24) := by
  have hpad : (new topic payload).payload.toList
      = payload.take 24 ++ List.replicate (24 - payload.length) 0 := toList_copyTruncated 24 payload
  rw [payloadBytes_eq_trim, hpad, Prefix.trim_append_replicate]

theorem length_payloadBytes_le (m : Message) : m.payloadBytes.length ≤ 24 := by
  have hle := (Prefix.trim_isPrefix (z := 0) m.payload.toList).length_le
  rwa [← payloadBytes_eq_trim, Vector.length_toList] at hle

theorem payloadBytes_new_payloadBytes (topic : String) (m : Message)
    : (new topic m.payloadBytes).payloadBytes = m.payloadBytes := by
  rw [payloadBytes_new, List.take_of_length_le m.length_payloadBytes_le, payloadBytes_eq_trim,
    Prefix.trim_trim]

/--
The payload that a reader of the log gets back from what a publisher has sent.
-/
def readBack (topic : String) (payload : List UInt8) : List UInt8 :=
  (fromBytes (new topic payload).toBytes).payloadBytes

theorem readBack_eq_trim (topic : String) (payload : List UInt8)
    : readBack topic payload = Prefix.trim 0 (payload.take 24) := by
  unfold readBack
  rw [fromBytes_toBytes, payloadBytes_new]

theorem readBack_eq_self_iff (topic : String) (payload : List UInt8)
    : readBack topic payload = payload ↔ payload.length ≤ 24 ∧ payload.getLast? ≠ some 0 := by
  rw [readBack_eq_trim]
  constructor
  . intro h
    have hle := (Prefix.trim_isPrefix (z := 0) (payload.take 24)).length_le
    rw [h, List.length_take] at hle
    have hlength : payload.length ≤ 24 := by omega
    rw [List.take_of_length_le hlength] at h
    exact ⟨hlength, Prefix.trim_eq_self_iff.mp h⟩
  . rintro ⟨hlength, hlast⟩
    rw [List.take_of_length_le hlength]
    apply Prefix.trim_eq_self_iff.mpr hlast

theorem readBack_exact (topic topic' : String) (payload payload' : List UInt8)
    : Prefix.Longest (·.getLast? ≠ some 0) (payload.take (min 24 payload.length))
          (readBack topic payload)
        ∧
      (readBack topic payload = payload
          ↔
        payload.length ≤ 24 ∧ (payload = [] ∨ ∃ byte, byte ≠ 0 ∧ payload.getLast? = some byte))
        ∧
      (readBack topic payload = readBack topic' payload'
          ↔
        ∃ n, payload.take 24 = payload'.take 24 ++ List.replicate n 0
          ∨ payload'.take 24 = payload.take 24 ++ List.replicate n 0) := by
  refine ⟨?_, ?_, ?_⟩
  . rw [readBack_eq_trim, ← List.take_eq_take_min]
    apply Prefix.longest_trim
  . rw [readBack_eq_self_iff]
    cases payload using List.reverseRecOn with
    | nil => simp
    | append_singleton payload byte => simp
  . rw [readBack_eq_trim, readBack_eq_trim]
    apply Prefix.trim_eq_trim_iff

theorem zero_notMem_topicStr (m : Message) : '\x00' ∉ m.topicStr.toList := by
  intro hmem
  have hbytes := String.asBytes_getD_fromUTF8?
    (m.topic.toList.take ((m.topic.toList.findIdx? (· == 0)).getD 32))
  have hzero := hbytes.subset (String.zero_mem_asBytes hmem)
  -- the view ends before the first 0 of the field
  cases hfind : m.topic.toList.findIdx? (· == 0) with
  | none =>
    rw [List.findIdx?_eq_none_iff] at hfind
    have := hfind 0 (List.mem_of_mem_take hzero)
    contradiction
  | some last =>
    rw [hfind, Option.getD_some, List.mem_take_iff_getElem] at hzero
    rcases hzero with ⟨i, hi, heq⟩
    rw [List.findIdx?_eq_some_iff_getElem] at hfind
    rcases hfind with ⟨_, _, hbefore⟩
    apply hbefore i (by omega)
    simpa using heq

def rebuild (m : Message) : Message :=
  new m.topicStr m.payloadBytes

theorem topicStr_rebuild (m : Message) : m.rebuild.topicStr = m.topicStr := by
  apply topicStr_new_of_le
  . apply zero_notMem_topicStr
  . apply length_topicStr_le

theorem payloadBytes_rebuild (m : Message) : m.rebuild.payloadBytes = m.payloadBytes := by
  apply payloadBytes_new_payloadBytes

theorem rebuild_rebuild (m : Message) : m.rebuild.rebuild = m.rebuild := by
  calc m.rebuild.rebuild
    _ = new m.rebuild.topicStr m.rebuild.payloadBytes := rfl
    _ = new m.topicStr m.payloadBytes := by rw [topicStr_rebuild, payloadBytes_rebuild]

/--
What a relay that republishes a message by its views passes on, whenever the bus stamps it.
-/
structure RebuildStable (m : Message) : Prop where
  topic : ∀ now, { m.rebuild with timestampNs := now }.topicStr = m.topicStr
  payload : ∀ now, { m.rebuild with timestampNs := now }.payloadBytes = m.payloadBytes
  again : m.rebuild.rebuild.toBytes = m.rebuild.toBytes
  decoded : (fromBytes m.rebuild.toBytes).rebuild.toBytes = m.rebuild.toBytes

theorem rebuild_stable (m : Message) : RebuildStable m where
  topic := fun _ => m.topicStr_rebuild
  payload := fun _ => m.payloadBytes_rebuild
  again := by rw [rebuild_rebuild]
  decoded := by rw [fromBytes_toBytes, rebuild_rebuild]

end Message
