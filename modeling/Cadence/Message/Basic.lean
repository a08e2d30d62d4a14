import Cadence.Bytes.LittleEndian
import Cadence.Bytes.Utf8
import Cadence.Prefix.Trim

/-!
This module contains the 64-byte message: its construction from a topic and a payload, its views and
its record format. A `&str` is a `String` and a `[u8; N]` a `Vector` of bytes.
-/

structure Message where
  timestampNs : UInt64
  topic : Vector UInt8 32
  payload : Vector UInt8 24
  deriving DecidableEq

namespace Message

/--
`[0; n]` with the first `bytes.len().min(n)` bytes copied from `bytes`.
-/
def copyTruncated (n : Nat) (bytes : List UInt8) : Vector UInt8 n :=
  ⟨(bytes.take n ++ List.replicate (n - bytes.length) 0).toArray, by simp; omega⟩

def new (topic : String) (payload : List UInt8) : Message where
  timestampNs := 0
  topic := copyTruncated 32 topic.asBytes
  payload := copyTruncated 24 payload

def topicStr (m : Message) : String :=
  let last := (m.topic.toList.findIdx? (· == 0)).getD 32
  (String.fromUTF8? (m.topic.toList.take last).toByteArray).getD ""

def payloadBytes (m : Message) : List UInt8 :=
  let last := ((Prefix.rposition (· ≠ 0) m.payload.toList).map (· + 1)).getD 0
  m.payload.toList.take last

def toBytes (m : Message) : Vector UInt8 64 :=
  ⟨(Bytes.toLe 8 m.timestampNs.toNat ++ m.topic.toList ++ m.payload.toList).toArray, by simp⟩

def fromBytes (bytes : Vector UInt8 64) : Message where
  timestampNs := UInt64.ofNat (Bytes.ofLe (bytes.toList.take 8))
  topic := ⟨((bytes.toList.drop 8).take 32).toArray, by simp⟩
  payload := ⟨(bytes.toList.drop 40).toArray, by simp⟩

def encode (msgs : List Message) : List UInt8 :=
  msgs.flatMap fun m => m.toBytes.toList

end Message
