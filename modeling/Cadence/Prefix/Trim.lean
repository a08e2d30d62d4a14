import Mathlib.Data.List.DropRight
import Mathlib.Data.List.Infix

/-!
This module contains the longest prefix of a list that has a given property, and the one that is left
when the padding at the end of a list is trimmed.
-/

namespace Prefix

variable {α : Type}

structure Longest (P : List α → Prop) (l m : List α) : Prop where
  isPrefix : m <+: l
  holds : P m
  longest : ∀ m', m' <+: l → P m' → m' <+: m

namespace Longest

variable {P : List α → Prop} {l m m' : List α}

theorem unique (h : Longest P l m) (h' : Longest P l m') : m = m' := by
  apply List.IsPrefix.eq_of_length
  . apply h'.longest m h.isPrefix h.holds
  . apply Nat.le_antisymm
    . apply (h'.longest m h.isPrefix h.holds).length_le
    . apply (h.longest m' h'.isPrefix h'.holds).length_le

theorem self (h : P l) : Longest P l l where
  isPrefix := List.prefix_rfl
  holds := h
  longest := fun _ h _ => h

/--
Of a property that prefixes inherit, it is enough to look one element further.
-/
theorem of_next (hinit : m <+: l) (hP : P m) (hdown : ∀ a b, a <+: b → P b → P a)
    (hnext : ∀ a rest, l = m ++ a :: rest → ¬ P (m ++ [a])) : Longest P l m where
  isPrefix := hinit
  holds := hP
  longest := by
    intro m' hm' hP'
    rcases List.prefix_or_prefix_of_prefix hm' hinit with h | ⟨rest, rfl⟩
    . exact h
    . cases rest with
      | nil => simp
      | cons a rest =>
        rcases hm' with ⟨rest', rfl⟩
        exfalso
        apply hnext a (rest ++ rest')
        . simp
        . apply hdown _ _ _ hP'
          simp

end Longest

section Trim

variable [DecidableEq α] {z : α} {l l' : List α}

def trim (z : α) (l : List α) : List α :=
  l.rdropWhile (· = z)

theorem trim_concat_self (l : List α) : trim z (l ++ [z]) = trim z l := by
  apply List.rdropWhile_concat_pos
  simp

theorem trim_concat_of_ne (l : List α) {a : α} (h : a ≠ z) : trim z (l ++ [a]) = l ++ [a] := by
  apply List.rdropWhile_concat_neg
  simpa using h

theorem trim_append_replicate (l : List α) (n : Nat)
    : trim z (l ++ List.replicate n z) = trim z l := by
  induction n with
  | zero => simp
  | succ n ih =>
    rw [List.replicate_succ', ← List.append_assoc, trim_concat_self]
    apply ih

theorem trim_isPrefix (l : List α) : trim z l <+: l := by
  apply List.rdropWhile_prefix

theorem exists_eq_trim_append (l : List α) : ∃ n, l = trim z l ++ List.replicate n z := by
  induction l using List.reverseRecOn with
  | nil => exact ⟨0, rfl⟩
  | append_singleton l a ih =>
    by_cases ha : a = z
    . subst ha
      rcases ih with ⟨n, hn⟩
      refine ⟨n + 1, ?_⟩
      rw [trim_concat_self, List.replicate_succ', ← List.append_assoc, ← hn]
    . refine ⟨0, ?_⟩
      rw [trim_concat_of_ne l ha]
      simp

theorem getLast?_trim_ne (l : List α) : (trim z l).getLast? ≠ some z := by
  induction l using List.reverseRecOn with
  | nil => simp [trim]
  | append_singleton l a ih =>
    by_cases ha : a = z
    . subst ha
      rw [trim_concat_self]
      apply ih
    . rw [trim_concat_of_ne l ha]
      simpa using ha

theorem trim_eq_trim_iff
    : trim z l = trim z l'
        ↔
      ∃ n, l = l' ++ List.replicate n z ∨ l' = l ++ List.replicate n z := by
  constructor
  . intro h
    rcases exists_eq_trim_append (z := z) l with ⟨n, hn⟩
    rcases exists_eq_trim_append (z := z) l' with ⟨n', hn'⟩
    -- the shorter padding is a part of the longer one
    rcases Nat.le_total n n' with hle | hle
    . refine ⟨n' - n, .inr ?_⟩
      rw [hn, hn', h, List.append_assoc, List.replicate_append_replicate, Nat.add_sub_of_le hle]
    . refine ⟨n - n', .inl ?_⟩
      rw [hn, hn', ← h, List.append_assoc, List.replicate_append_replicate, Nat.add_sub_of_le hle]
  . rintro ⟨n, rfl | rfl⟩
    . apply trim_append_replicate
    . rw [trim_append_replicate]

theorem longest_trim (l : List α) : Longest (·.getLast? ≠ some z) l (trim z l) where
  isPrefix := trim_isPrefix l
  holds := getLast?_trim_ne l
  longest := by
    induction l using List.reverseRecOn with
    | nil => exact fun m hm _ => hm
    | append_singleton l a ih =>
      intro m hm hlast
      by_cases ha : a = z
      . subst ha
        rw [trim_concat_self]
        rcases List.prefix_concat_iff.mp hm with rfl | hm
        . simp at hlast
        . apply ih m hm hlast
      . rw [trim_concat_of_ne l ha]
        apply hm

theorem trim_eq_self_iff : trim z l = l ↔ l.getLast? ≠ some z := by
  constructor
  . intro h
    rw [← h]
    apply getLast?_trim_ne
  . intro h
    apply (longest_trim l).unique (Longest.self h)

theorem trim_trim (l : List α) : trim z (trim z l) = trim z l := by
  rw [trim_eq_self_iff]
  apply getLast?_trim_ne

end Trim

section Rposition

def rposition (p : α → Bool) : List α → Option Nat
  | [] => none
  | a :: l =>
    match rposition p l with
    | some i => some (i + 1)
    | none => if p a then some 0 else none

theorem rposition_concat (p : α → Bool) (l : List α) (a : α)
    : rposition p (l ++ [a]) = if p a then some l.length else rposition p l := by
  induction l with
  | nil => rfl
  | cons b l ih =>
    rw [List.cons_append]
    unfold rposition
    rw [ih]
    by_cases ha : p a
    . simp [ha]
    . simp [ha]

theorem rposition_lt {p : α → Bool} {l : List α} {i : Nat} (h : rposition p l = some i)
    : i < l.length := by
  induction l using List.reverseRecOn with
  | nil => contradiction
  | append_singleton l a ih =>
    rw [rposition_concat] at h
    rw [List.length_append, List.length_singleton]
    split at h
    . rw [Option.some.injEq] at h
      omega
    . have := ih h
      omega

theorem take_rposition [DecidableEq α] (z : α) (l : List α)
    : l.take (((rposition (· ≠ z) l).map (· + 1)).getD 0) = trim z l := by
  induction l using List.reverseRecOn with
  | nil => rfl
  | append_singleton l a ih =>
    rw [rposition_concat]
    by_cases ha : a = z
    . subst ha
      rw [if_neg (by simp), trim_concat_self, ← ih]
      apply List.take_append_of_le_length
      cases h : rposition (· ≠ a) l with
      | none => simp
      | some i =>
        have := rposition_lt h
        simp
        omega
    . rw [if_pos (by simpa using ha), trim_concat_of_ne l ha]
      apply List.take_of_length_le
      simp

end Rposition
end Prefix
