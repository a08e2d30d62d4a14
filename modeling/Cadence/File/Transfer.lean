import Mathlib.Data.List.Induction
import Cadence.File.Basic

/-!
This module contains writes that may be short: a log is laid out as consecutive writes, and the file
is the log exactly when nothing that is missing shows.
-/

namespace File

/--
A write of `data` that transfers at most `count` bytes.
-/
structure Transfer where
  data : List UInt8
  count : Nat
  deriving DecidableEq, Repr

namespace Transfer

def done (t : Transfer) : List UInt8 :=
  t.data.take t.count

/--
Transfers at consecutive offsets, each behind the full data of the one before.
-/
def layOut : Nat → List Transfer → List (Nat × List UInt8)
  | _, [] => []
  | offset, t :: ts => (offset, t.done) :: layOut (offset + t.data.length) ts

def payload (ts : List Transfer) : List UInt8 :=
  ts.flatMap Transfer.data

@[simp]
theorem payload_nil : payload [] = [] := rfl

theorem payload_cons (t : Transfer) (ts : List Transfer)
    : payload (t :: ts) = t.data ++ payload ts := by
  unfold payload
  rw [List.flatMap_cons]

theorem payload_append (ts ts' : List Transfer)
    : payload (ts ++ ts') = payload ts ++ payload ts' := by
  unfold payload
  rw [List.flatMap_append]

theorem length_done_le (t : Transfer) : t.done.length ≤ t.data.length := by
  unfold done
  rw [List.length_take]
  omega

theorem layOut_append (offset : Nat) (ts ts' : List Transfer)
    : layOut offset (ts ++ ts')
        =
      layOut offset ts ++ layOut (offset + (payload ts).length) ts' := by
  induction ts generalizing offset with
  | nil => rfl
  | cons t ts ih =>
    rw [List.cons_append, layOut, layOut, ih, payload_cons, List.length_append, Nat.add_assoc,
      List.cons_append]

theorem le_of_mem_layOut {offset : Nat} {ts : List Transfer} {write : Nat × List UInt8}
    (h : write ∈ layOut offset ts) : offset ≤ write.1 := by
  fun_induction layOut offset ts with
  | case1 => contradiction
  | case2 offset t ts ih =>
    rcases List.mem_cons.mp h with rfl | h
    . apply Nat.le_refl
    . have := ih h
      omega

theorem layOut_disjoint (offset : Nat) (ts : List Transfer)
    : (layOut offset ts).Pairwise fun w w' =>
        w.1 + w.2.length ≤ w'.1 ∨ w'.1 + w'.2.length ≤ w.1 := by
  fun_induction layOut offset ts with
  | case1 => apply List.Pairwise.nil
  | case2 offset t ts ih =>
    apply List.Pairwise.cons _ ih
    intro write hwrite
    have := le_of_mem_layOut hwrite
    have := t.length_done_le
    left
    simp only
    omega

theorem pwriteAll_layOut_of_full (file : File) (offset : Nat) {ts : List Transfer}
    (h : ∀ t ∈ ts, t.data.length ≤ t.count)
    : pwriteAll file (layOut offset ts) = pwrite file offset (payload ts) := by
  induction ts generalizing file offset with
  | nil => simp [layOut, pwriteAll]
  | cons t ts ih =>
    have hdone : t.done = t.data := List.take_of_length_le (h t List.mem_cons_self)
    have htail := ih (pwrite file offset t.data) (offset + t.data.length)
      (fun t' ht' => h t' (List.mem_cons_of_mem _ ht'))
    rw [pwrite_pwrite, ← payload_cons] at htail
    rw [layOut, hdone]
    exact htail

theorem length_pwriteAll_layOut_le (file : File) (offset : Nat) (ts : List Transfer)
    : (pwriteAll file (layOut offset ts)).length
        ≤
      max file.length (offset + (payload ts).length) := by
  induction ts generalizing file offset with
  | nil =>
    unfold layOut pwriteAll
    apply Nat.le_max_left
  | cons t ts ih =>
    have hdone := t.length_done_le
    have htail := ih (pwrite file offset t.done) (offset + t.data.length)
    have hhead : (pwrite file offset t.done).length ≤ max file.length (offset + t.data.length) := by
      by_cases hnil : t.done = []
      . rw [hnil, pwrite_nil]
        apply Nat.le_max_left
      . rw [length_pwrite _ _ hnil]
        omega
    rw [payload_cons, List.length_append]
    unfold layOut
    change (pwriteAll (pwrite file offset t.done) _).length ≤ _
    omega

theorem pwriteAll_layOut_append_left (log file : File) (offset : Nat) (ts : List Transfer)
    : pwriteAll (log ++ file) (layOut (log.length + offset) ts)
        =
      log ++ pwriteAll file (layOut offset ts) := by
  induction ts generalizing file offset with
  | nil => rfl
  | cons t ts ih =>
    have htail := ih (pwrite file offset t.done) (offset + t.data.length)
    rw [← pwrite_append_left, ← Nat.add_assoc] at htail
    exact htail

/--
Nothing is missing at the end of the log, and all that is missing before reads as zeros anyway.
-/
def Complete (ts : List Transfer) : Prop :=
  (∀ t ∈ ts, ∀ byte ∈ t.data.drop t.count, byte = 0)
    ∧
  ∀ t ∈ ts.getLast?, t.data.length ≤ t.count

instance (ts : List Transfer) : Decidable (Complete ts) :=
  inferInstanceAs (Decidable (_ ∧ _))

def shown (ts : List Transfer) : List UInt8 :=
  ts.flatMap fun t => t.done ++ List.replicate (t.data.length - t.count) 0

theorem shown_append (ts ts' : List Transfer) : shown (ts ++ ts') = shown ts ++ shown ts' := by
  unfold shown
  rw [List.flatMap_append]

theorem shown_cons (t : Transfer) (ts : List Transfer)
    : shown (t :: ts) = t.done ++ List.replicate (t.data.length - t.count) 0 ++ shown ts := by
  unfold shown
  rw [List.flatMap_cons]

theorem length_done_append (t : Transfer)
    : (t.done ++ List.replicate (t.data.length - t.count) (0 : UInt8)).length = t.data.length := by
  unfold done
  rw [List.length_append, List.length_take, List.length_replicate]
  omega

theorem length_shown (ts : List Transfer) : (shown ts).length = (payload ts).length := by
  induction ts with
  | nil => rfl
  | cons t ts ih =>
    rw [shown_cons, payload_cons, List.length_append, length_done_append, ih, List.length_append]

theorem shown_eq_payload_iff (ts : List Transfer)
    : shown ts = payload ts ↔ ∀ t ∈ ts, ∀ byte ∈ t.data.drop t.count, byte = 0 := by
  induction ts with
  | nil => simp [shown, payload]
  | cons t ts ih =>
    have hhead : t.done ++ List.replicate (t.data.length - t.count) 0 = t.data
        ↔ ∀ byte ∈ t.data.drop t.count, byte = 0 := by
      conv => lhs; rhs; rw [← List.take_append_drop t.count t.data]
      unfold done
      rw [List.append_cancel_left_eq, eq_comm, List.eq_replicate_iff, List.length_drop]
      simp
    rw [shown_cons, payload_cons, List.forall_mem_cons, ← ih, ← hhead]
    constructor
    . intro h
      apply List.append_inj h t.length_done_append
    . rintro ⟨h, h'⟩
      rw [h, h']

theorem pwriteAll_layOut_append_singleton (ts : List Transfer) (t : Transfer)
    : pwriteAll [] (layOut 0 (ts ++ [t]))
        =
      pwrite (pwriteAll [] (layOut 0 ts)) (payload ts).length t.done := by
  rw [layOut_append, pwriteAll_append, Nat.zero_add]
  rfl

theorem getD_pwriteAll_layOut (ts : List Transfer) (p : Nat)
    : (pwriteAll [] (layOut 0 ts)).getD p 0 = (shown ts).getD p 0 := by
  induction ts using List.reverseRecOn generalizing p with
  | nil => rfl
  | append_singleton ts t ih =>
    have hlength := length_shown ts
    have hdone := t.length_done_append
    rw [List.length_append, List.length_replicate] at hdone
    have hlast : shown [t] = t.done ++ List.replicate (t.data.length - t.count) 0 := by
      rw [shown_cons]
      apply List.append_nil _
    rw [pwriteAll_layOut_append_singleton, getD_pwrite, shown_append, ih, hlast]
    simp only [List.getD_eq_getElem?_getD, List.getElem?_append, List.getElem?_replicate]
    rw [hlength]
    by_cases hbefore : p < (payload ts).length
    . rw [if_neg (by omega), if_pos hbefore]
    . rw [if_neg hbefore]
      by_cases hafter : p < (payload ts).length + t.done.length
      . rw [if_pos (by omega), if_pos (by omega)]
      . rw [if_neg (by omega), if_neg (by omega), List.getElem?_eq_none (by omega)]
        split <;> rfl

theorem length_pwriteAll_layOut_iff {ts : List Transfer} (h : ∀ t ∈ ts, t.data ≠ [])
    : (pwriteAll [] (layOut 0 ts)).length = (payload ts).length
        ↔
      ∀ t ∈ ts.getLast?, t.data.length ≤ t.count := by
  cases ts using List.reverseRecOn with
  | nil => simp [layOut, pwriteAll]
  | append_singleton ts t =>
    have hdata : 0 < t.data.length := List.length_pos_iff.mpr (h t (by simp))
    have hle := length_pwriteAll_layOut_le [] 0 ts
    have hdone : t.done.length = min t.count t.data.length := List.length_take
    rw [List.length_nil] at hle
    rw [pwriteAll_layOut_append_singleton, payload_append, List.length_append,
      List.getLast?_concat]
    simp only [payload_cons, payload_nil, List.append_nil, Option.mem_some_iff, forall_eq']
    by_cases hzero : t.done = []
    . rw [hzero, pwrite_nil]
      rw [hzero, List.length_nil] at hdone
      omega
    . rw [length_pwrite _ _ hzero]
      omega

theorem pwriteAll_layOut_eq_payload_iff {ts : List Transfer} (h : ∀ t ∈ ts, t.data ≠ [])
    : pwriteAll [] (layOut 0 ts) = payload ts ↔ Complete ts := by
  unfold Complete
  rw [← shown_eq_payload_iff, ← length_pwriteAll_layOut_iff h]
  constructor
  . intro heq
    refine ⟨?_, congrArg List.length heq⟩
    apply ext_getD (length_shown ts)
    intro p
    rw [← getD_pwriteAll_layOut, heq]
  . rintro ⟨hshown, hlength⟩
    apply ext_getD hlength
    intro p
    rw [getD_pwriteAll_layOut, hshown]

end Transfer
end File
