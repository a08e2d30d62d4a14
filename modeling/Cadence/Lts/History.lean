import Cadence.Lts.Linearizable

/-!
This module contains how a history is read: which calls it consists of, which of them have returned
with which result, and in which call every thread is.
-/

open Function

universe u

namespace Lts

/--
What a reader knows of a history.
-/
structure Record (τ ο ρ : Type u) where
  pending : τ → Option ο
  completed : List (τ × ο × ρ)

variable {τ ο ρ : Type u}

def Event.call? : Event τ ο ρ → Option (τ × ο)
  | .call t op => some (t, op)
  | .ret .. => none

/--
The calls of a history, in the order of their invocations.
-/
def calls (es : List (Event τ ο ρ)) : List (τ × ο) :=
  es.filterMap Event.call?

variable [DecidableEq τ]

def Record.note (record : Record τ ο ρ) : Event τ ο ρ → Record τ ο ρ
  | .call t op => { record with pending := update record.pending t (some op) }
  | .ret t res =>
    { record with
      pending := update record.pending t none
      completed := record.completed ++ ((record.pending t).map fun op => (t, op, res)).toList }

def record (es : List (Event τ ο ρ)) : Record τ ο ρ :=
  es.foldl Record.note ⟨fun _ => none, []⟩

/--
The calls of a history that have returned, in the order of their returns.
-/
def completed (es : List (Event τ ο ρ)) : List (τ × ο × ρ) :=
  (record es).completed

variable (es : List (Event τ ο ρ)) (t : τ)

omit [DecidableEq τ] in
@[simp]
theorem calls_append (es' : List (Event τ ο ρ)) : calls (es ++ es') = calls es ++ calls es' :=
  List.filterMap_append

theorem record_call (op : ο)
    : record (es ++ [.call t op])
        =
      { record es with pending := update (record es).pending t (some op) } := by
  unfold record
  rw [List.foldl_append]
  rfl

@[simp]
theorem completed_call (op : ο) : completed (es ++ [.call t op]) = completed es := by
  unfold completed
  rw [record_call]

theorem record_ret (res : ρ) {op : ο} (h : (record es).pending t = some op)
    : record (es ++ [.ret t res])
        =
      ⟨update (record es).pending t none, (record es).completed ++ [(t, op, res)]⟩ := by
  unfold record at h ⊢
  rw [List.foldl_append, List.foldl_cons, Record.note, h]
  rfl

theorem completed_ret (res : ρ) {op : ο} (h : (record es).pending t = some op)
    : completed (es ++ [.ret t res]) = completed es ++ [(t, op, res)] := by
  unfold completed
  rw [record_ret es t res h]

end Lts
