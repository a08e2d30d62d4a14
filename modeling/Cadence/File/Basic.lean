import Mathlib.Data.List.Basic
import Mathlib.Data.List.GetD
import Mathlib.Data.List.Perm.Basic

/-!
This module contains files as lists of bytes, positioned writes, and when the order of positioned
writes does not matter.
-/

abbrev File := List UInt8

namespace File

/--
`pwrite`: a gap between the end of the file and `offset` reads as zeros, and writing nothing has no
effect.
-/
def pwrite (file : File) (offset : Nat) (data : List UInt8) : File :=
  if data = [] then
    file
  else
    file.take offset ++ List.replicate (offset - file.length) 0 ++ data
      ++ file.drop (offset + data.length)

theorem ext_getD {file file' : File} (hlength : file.length = file'.length)
    (hget : ∀ p, file.getD p 0 = file'.getD p 0) : file = file' := by
  apply List.ext_getElem hlength
  intro p hp hp'
  have := hget p
  rwa [List.getD_eq_getElem _ _ hp, List.getD_eq_getElem _ _ hp'] at this

@[simp]
theorem pwrite_nil (file : File) (offset : Nat) : pwrite file offset [] = file := by
  unfold pwrite
  rw [if_pos rfl]

theorem length_pwrite (file : File) (offset : Nat) {data : List UInt8} (h : data ≠ [])
    : (pwrite file offset data).length = max file.length (offset + data.length) := by
  unfold pwrite
  rw [if_neg h]
  simp
  omega

theorem getD_pwrite (file : File) (offset : Nat) (data : List UInt8) (p : Nat)
    : (pwrite file offset data).getD p 0
        =
      if offset ≤ p ∧ p < offset + data.length then data.getD (p - offset) 0 else file.getD p 0 := by
  unfold pwrite
  split
  . next h =>
    subst h
    rw [if_neg]
    simp
  . simp only [List.getD_eq_getElem?_getD, List.getElem?_append, List.length_append,
      List.length_take, List.length_replicate, List.getElem?_take, List.getElem?_replicate,
      List.getElem?_drop]
    by_cases hbefore : p < offset
    . by_cases hold : p < file.length
      . rw [if_pos (by omega), if_pos (by omega), if_pos (by omega), if_pos hbefore,
          if_neg (by omega)]
      . rw [if_pos (by omega), if_pos (by omega), if_neg (by omega), if_pos (by omega),
          if_neg (by omega), List.getElem?_eq_none (by omega)]
        rfl
    . by_cases hafter : p < offset + data.length
      . rw [if_pos (by omega), if_neg (by omega), if_pos (by omega)]
        congr 3
        omega
      . rw [if_neg (by omega), if_neg (by omega)]
        congr 3
        omega

theorem pwrite_pwrite (file : File) (offset : Nat) (data data' : List UInt8)
    : pwrite (pwrite file offset data) (offset + data.length) data'
        =
      pwrite file offset (data ++ data') := by
  by_cases hdata : data = []
  . subst hdata
    simp
  . by_cases hdata' : data' = []
    . subst hdata'
      simp
    . apply ext_getD
      . rw [length_pwrite _ _ hdata', length_pwrite _ _ hdata, length_pwrite _ _ (by simp [hdata])]
        rw [List.length_append]
        omega
      . intro p
        simp only [getD_pwrite]
        simp only [List.getD_eq_getElem?_getD, List.getElem?_append, List.length_append]
        by_cases hfirst : offset ≤ p ∧ p < offset + data.length
        . rw [if_neg (by omega), if_pos hfirst, if_pos (by omega), if_pos (by omega)]
        . rw [if_neg hfirst]
          by_cases hsecond : offset + data.length ≤ p ∧ p < offset + data.length + data'.length
          . rw [if_pos hsecond, if_pos (by omega), if_neg (by omega), Nat.sub_add_eq]
          . rw [if_neg hsecond, if_neg (by omega)]

theorem pwrite_append_left (log file : File) (offset : Nat) (data : List UInt8)
    : pwrite (log ++ file) (log.length + offset) data = log ++ pwrite file offset data := by
  unfold pwrite
  split
  . rfl
  . have hgap : log.length + offset - (log ++ file).length = offset - file.length := by
      rw [List.length_append]
      omega
    rw [hgap, List.take_length_add_append, Nat.add_assoc, List.drop_length_add_append]
    simp only [List.append_assoc]

theorem pwrite_zero (file : File) (data : List UInt8)
    : pwrite file 0 data = data ++ file.drop data.length := by
  unfold pwrite
  split
  . next hnil =>
    rw [hnil]
    rfl
  . simp

theorem take_pwrite_zero {file : File} {data : List UInt8} {n : Nat} (h : data.length = n)
    : (pwrite file 0 data).take n = data := by
  unfold pwrite
  split
  . next hnil =>
    rw [hnil] at h ⊢
    rw [← h]
    rfl
  . simp [h]

theorem pwrite_comm (file : File) {offset offset' : Nat} {data data' : List UInt8}
    (h : offset + data.length ≤ offset' ∨ offset' + data'.length ≤ offset)
    : pwrite (pwrite file offset data) offset' data'
        =
      pwrite (pwrite file offset' data') offset data := by
  by_cases hdata : data = []
  . subst hdata
    simp
  . by_cases hdata' : data' = []
    . subst hdata'
      simp
    . apply ext_getD
      . simp only [length_pwrite _ _ hdata, length_pwrite _ _ hdata']
        omega
      . intro p
        simp only [getD_pwrite]
        by_cases hfirst : offset ≤ p ∧ p < offset + data.length
        . have hsecond : ¬ (offset' ≤ p ∧ p < offset' + data'.length) := by omega
          simp only [hfirst, hsecond, and_self, if_true, if_false]
        . simp only [hfirst, if_false]

def pwriteAll (file : File) (writes : List (Nat × List UInt8)) : File :=
  writes.foldl (fun file write => pwrite file write.1 write.2) file

theorem pwriteAll_append (file : File) (writes writes' : List (Nat × List UInt8))
    : pwriteAll file (writes ++ writes') = pwriteAll (pwriteAll file writes) writes' := by
  unfold pwriteAll
  rw [List.foldl_append]

theorem length_pwriteAll {file : File} {writes : List (Nat × List UInt8)}
    (h : ∀ write ∈ writes, write.1 + write.2.length ≤ file.length)
    : (pwriteAll file writes).length = file.length := by
  induction writes generalizing file with
  | nil => rfl
  | cons write writes ih =>
    have hfirst : (pwrite file write.1 write.2).length = file.length := by
      have hle := h write List.mem_cons_self
      by_cases hnil : write.2 = []
      . rw [hnil, pwrite_nil]
      . rw [length_pwrite _ _ hnil]
        omega
    have hrest : ∀ write' ∈ writes,
        write'.1 + write'.2.length ≤ (pwrite file write.1 write.2).length := by
      intro write' hwrite'
      rw [hfirst]
      exact h write' (List.mem_cons_of_mem _ hwrite')
    exact (ih hrest).trans hfirst

theorem pwriteAll_perm (file : File) {writes writes' : List (Nat × List UInt8)}
    (hdisjoint : writes.Pairwise fun w w' =>
      w.1 + w.2.length ≤ w'.1 ∨ w'.1 + w'.2.length ≤ w.1)
    (hperm : writes.Perm writes') : pwriteAll file writes = pwriteAll file writes' := by
  unfold pwriteAll
  apply hperm.foldl_eq'
  have hcomm : ∀ w ∈ writes, ∀ w' ∈ writes, ∀ file : File,
      pwrite (pwrite file w.1 w.2) w'.1 w'.2 = pwrite (pwrite file w'.1 w'.2) w.1 w.2 := by
    apply List.Pairwise.forall_of_forall_of_flip
    . intro w _ file
      rfl
    . apply hdisjoint.imp
      intro w w' h file
      apply pwrite_comm file h
    . apply hdisjoint.imp
      intro w w' h file
      exact (pwrite_comm file h).symm
  intro w hw w' hw' file
  exact hcomm w hw w' hw' file

end File
