import Cadence.Message.Basic

/-!
This module contains the topic-matching rule of a subscription.
-/

namespace Bus

inductive Filter where
  | exact (topic : String)
  | prefixed (topic : String)
  deriving DecidableEq

namespace Filter

def parse (pattern : String) : Filter :=
  if pattern.toList.getLast? = some '*' then
    .prefixed (String.ofList pattern.toList.dropLast)
  else
    .exact pattern

def matchesTopic (filter : Filter) (topic : String) : Bool :=
  match filter with
  | .exact t => t == topic
  | .prefixed p => p.asBytes.isPrefixOf topic.asBytes

end Filter
end Bus
