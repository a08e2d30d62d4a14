import Cadence.Bench.Impl.Knobs

/-!
This module contains which texts of an environment variable stand for which numbers.
-/

namespace Bench

/--
The texts that stand for a number: its decimal digits, with leading zeros or a plus sign or without.
-/
def Numeral (s : List Char) (n : Nat) : Prop :=
  ∃ digits : List Char,
    digits ≠ [] ∧ (∀ c ∈ digits, c.isDigit) ∧ (s = digits ∨ s = '+' :: digits)
      ∧ Nat.ofDigitChars 10 digits 0 = n

theorem le_ofDigitChars (cs : List Char) (init : Nat) : init ≤ Nat.ofDigitChars 10 cs init := by
  induction cs generalizing init with
  | nil => rw [Nat.ofDigitChars_nil]
  | cons c cs ih =>
    rw [Nat.ofDigitChars_cons]
    have := ih (10 * init + (c.toNat - '0'.toNat))
    omega

theorem checked_of_lt {n : Nat} (h : n < 2 ^ 64) : checked n = some n := by
  unfold checked
  rw [if_pos h]

theorem checked_of_not_lt {n : Nat} (h : ¬ n < 2 ^ 64) : checked n = none := by
  unfold checked
  rw [if_neg h]

theorem parseDigits_cons_of_isDigit {c : Char} (hc : c.isDigit) (cs : List Char) (result : Nat)
    : parseDigits (c :: cs) result
        =
      if 10 * result + (c.toNat - '0'.toNat) < 2 ^ 64 then
        parseDigits cs (10 * result + (c.toNat - '0'.toNat))
      else
        none := by
  have hdigit : toDigit c = some (c.toNat - '0'.toNat) := by
    unfold toDigit
    rw [if_pos hc]
  rw [parseDigits, hdigit, Option.bind_eq_bind, Option.bind_some]
  split
  next hsum =>
    rw [checked_of_lt (by omega), Option.bind_some, checked_of_lt hsum]
    rfl
  next hsum =>
    by_cases hresult : 10 * result < 2 ^ 64
    . rw [checked_of_lt hresult, Option.bind_some, checked_of_not_lt hsum]
      rfl
    . rw [checked_of_not_lt hresult]
      rfl

/--
The checks refuse a numeral as soon as a beginning of it does not fit, which is when all of it does
not.
-/
theorem parseDigits_eq_some_iff {cs : List Char} {result m : Nat} (hresult : result < 2 ^ 64)
    : parseDigits cs result = some m
        ↔
      (∀ c ∈ cs, c.isDigit) ∧ Nat.ofDigitChars 10 cs result = m ∧ m < 2 ^ 64 := by
  induction cs generalizing result with
  | nil =>
    unfold parseDigits
    rw [Nat.ofDigitChars_nil, Option.some.injEq]
    constructor
    . intro h
      refine ⟨by simp, h, h ▸ hresult⟩
    . intro h
      apply h.2.1
  | cons c cs ih =>
    by_cases hc : c.isDigit
    . rw [parseDigits_cons_of_isDigit hc, Nat.ofDigitChars_cons]
      split
      next hsum =>
        rw [ih hsum, List.forall_mem_cons, and_assoc, and_iff_right hc]
      next hsum =>
        have hle := le_ofDigitChars cs (10 * result + (c.toNat - '0'.toNat))
        constructor
        . intro h
          contradiction
        . rintro ⟨_, hm, hlt⟩
          omega
    . have hnone : parseDigits (c :: cs) result = none := by
        unfold parseDigits toDigit
        rw [if_neg hc]
        rfl
      rw [hnone]
      constructor
      . intro h
        contradiction
      . intro h
        have := h.1 c List.mem_cons_self
        contradiction

theorem parseDigits_map_eq_some_iff {cs : List Char} {n : UInt64}
    : (parseDigits cs 0).map UInt64.ofNat = some n
        ↔
      (∀ c ∈ cs, c.isDigit) ∧ Nat.ofDigitChars 10 cs 0 = n.toNat := by
  rw [Option.map_eq_some_iff]
  constructor
  . rintro ⟨m, hm, hn⟩
    rw [parseDigits_eq_some_iff (by simp)] at hm
    rcases hm with ⟨hdigits, hm, hlt⟩
    refine ⟨hdigits, ?_⟩
    rw [hm, ← hn, UInt64.toNat_ofNat_of_lt' hlt]
  . rintro ⟨hdigits, hn⟩
    refine ⟨n.toNat, ?_, UInt64.ofNat_toNat⟩
    rw [parseDigits_eq_some_iff (by simp)]
    exact ⟨hdigits, hn, n.toNat_lt⟩

/--
The variable is read as `n` exactly if it is a numeral of `n`. There is no numeral above 64 bits.
-/
theorem parse_eq_some_iff {s : List Char} {n : UInt64} : parse s = some n ↔ Numeral s n.toNat := by
  have hplus : ¬ ('+' : Char).isDigit := by decide
  unfold Numeral
  fun_cases parse s with
  | case1 =>
    constructor
    . intro h
      contradiction
    . rintro ⟨digits, hne, _, hs | hs, _⟩
      . exact absurd hs.symm hne
      . contradiction
  | case2 =>
    constructor
    . intro h
      contradiction
    . rintro ⟨digits, hne, hdigits, hs | hs, _⟩
      . subst hs
        exact absurd (hdigits '+' (by simp)) hplus
      . rw [List.cons.injEq] at hs
        exact absurd hs.2.symm hne
  | case3 cs hcs =>
    rw [parseDigits_map_eq_some_iff]
    constructor
    . rintro ⟨hdigits, hn⟩
      refine ⟨cs, ?_, hdigits, .inr rfl, hn⟩
      intro hnil
      exact hcs hnil
    . rintro ⟨digits, hne, hdigits, hs | hs, hn⟩
      . subst hs
        exact absurd (hdigits '+' (by simp)) hplus
      . rw [List.cons.injEq] at hs
        rw [hs.2]
        exact ⟨hdigits, hn⟩
  | case4 _ hnil hsign hcs =>
    rw [parseDigits_map_eq_some_iff]
    constructor
    . rintro ⟨hdigits, hn⟩
      exact ⟨s, hnil, hdigits, .inl rfl, hn⟩
    . rintro ⟨digits, hne, hdigits, hs | hs, hn⟩
      . rw [hs]
        exact ⟨hdigits, hn⟩
      . exact absurd hs (hcs digits)

theorem isWhiteSpace_of_isDigit {c : Char} (h : c.isDigit) : ¬ isWhiteSpace c := by
  have hrange : 48 ≤ c.toNat ∧ c.toNat ≤ 57 := by
    unfold Char.isDigit at h
    rw [Bool.and_eq_true, decide_eq_true_eq, decide_eq_true_eq] at h
    exact h
  unfold isWhiteSpace
  simp
  omega

theorem Numeral.not_isWhiteSpace {s : List Char} {n : Nat} (h : Numeral s n)
    : ∀ c ∈ s, ¬ isWhiteSpace c := by
  rcases h with ⟨digits, _, hdigits, hs, _⟩
  intro c hc
  rcases hs with hs | hs
  . rw [hs] at hc
    apply isWhiteSpace_of_isDigit (hdigits c hc)
  . rw [hs, List.mem_cons] at hc
    rcases hc with hc | hc
    . rw [hc]
      decide
    . apply isWhiteSpace_of_isDigit (hdigits c hc)

theorem dropWhile_padded {p : Char → Bool} {before s : List Char} (hbefore : ∀ c ∈ before, p c)
    (hs : ∀ c ∈ s, ¬ p c) : (before ++ s).dropWhile p = s := by
  rw [List.dropWhile_append_of_pos hbefore, List.dropWhile_eq_self_iff]
  intro h
  apply hs
  apply List.getElem_mem

theorem trim_padded {before s after : List Char} (hne : s ≠ []) (hs : ∀ c ∈ s, ¬ isWhiteSpace c)
    (hbefore : ∀ c ∈ before, isWhiteSpace c) (hafter : ∀ c ∈ after, isWhiteSpace c)
    : trim (before ++ s ++ after) = s := by
  have hstart : (before ++ s ++ after).dropWhile isWhiteSpace = s ++ after := by
    rw [List.append_assoc, List.dropWhile_append_of_pos hbefore, List.dropWhile_eq_self_iff]
    intro h
    rw [List.getElem_append_left (List.length_pos_iff.mpr hne)]
    apply hs
    apply List.getElem_mem
  unfold trim List.rdropWhile
  rw [hstart, List.reverse_append, dropWhile_padded, List.reverse_reverse]
  . intro c hc
    apply hafter c (List.mem_reverse.mp hc)
  . intro c hc
    apply hs c (List.mem_reverse.mp hc)

theorem exists_padded_trim (s : List Char)
    : ∃ before after,
        s = before ++ trim s ++ after ∧ (∀ c ∈ before, isWhiteSpace c)
          ∧ ∀ c ∈ after, isWhiteSpace c := by
  refine ⟨s.takeWhile isWhiteSpace, (s.dropWhile isWhiteSpace).rtakeWhile isWhiteSpace, ?_, ?_, ?_⟩
  . unfold trim
    rw [List.append_assoc, List.rdropWhile_append_rtakeWhile, List.takeWhile_append_dropWhile]
  . intro c hc
    apply List.mem_takeWhile_imp hc
  . intro c hc
    apply List.mem_rtakeWhile_imp hc

/--
The items that stand for a number: a numeral between white space.
-/
def Item (s : List Char) (n : Nat) : Prop :=
  ∃ before numeral after,
    s = before ++ numeral ++ after ∧ (∀ c ∈ before, isWhiteSpace c) ∧ (∀ c ∈ after, isWhiteSpace c)
      ∧ Numeral numeral n

theorem parse_trim_eq_some_iff {s : List Char} {n : UInt64}
    : parse (trim s) = some n ↔ Item s n.toNat := by
  rw [parse_eq_some_iff]
  constructor
  . intro h
    rcases exists_padded_trim s with ⟨before, after, hs, hbefore, hafter⟩
    exact ⟨before, trim s, after, hs, hbefore, hafter, h⟩
  . rintro ⟨before, numeral, after, hs, hbefore, hafter, h⟩
    have hne : numeral ≠ [] := by
      rcases h with ⟨digits, hne, _, hnumeral | hnumeral, _⟩
      . rw [hnumeral]
        exact hne
      . simp [hnumeral]
    rw [hs, trim_padded hne h.not_isWhiteSpace hbefore hafter]
    exact h

namespace TailBench

/--
The numbers that the items stand for, in their order. The other items are passed over.
-/
inductive Rates : List (List Char) → List UInt64 → Prop where
  | nil : Rates [] []
  | item {s : List Char} {n : UInt64} {items : List (List Char)} {rates : List UInt64}
      (h : Item s n.toNat) (rest : Rates items rates) : Rates (s :: items) (n :: rates)
  | other {s : List Char} {items : List (List Char)} {rates : List UInt64}
      (h : ∀ n : UInt64, ¬ Item s n.toNat) (rest : Rates items rates) : Rates (s :: items) rates

theorem rates_iff_filterMap {items : List (List Char)} {rates : List UInt64}
    : Rates items rates ↔ items.filterMap (fun t => parse (trim t)) = rates := by
  induction items generalizing rates with
  | nil =>
    rw [List.filterMap_nil]
    constructor
    . rintro ⟨⟩
      rfl
    . rintro rfl
      exact .nil
  | cons s items ih =>
    rcases hs : parse (trim s) with _ | n
    . have hother : ∀ n : UInt64, ¬ Item s n.toNat := by
        intro n hn
        rw [← parse_trim_eq_some_iff, hs] at hn
        contradiction
      rw [List.filterMap_cons_none (f := fun t => parse (trim t)) hs, ← ih]
      constructor
      . intro h
        cases h with
        | item h rest => exact absurd h (hother _)
        | other h rest => exact rest
      . intro h
        exact .other hother h
    . rw [List.filterMap_cons_some (f := fun t => parse (trim t)) hs]
      rw [parse_trim_eq_some_iff] at hs
      constructor
      . intro h
        cases h with
        | item h rest =>
          rw [← parse_trim_eq_some_iff] at h hs
          rw [ih.mp rest, Option.some.inj (hs.symm.trans h)]
        | other h rest => exact absurd hs (h n)
      . rintro rfl
        exact .item hs (ih.mpr rfl)

theorem rates_some (s : String)
    : rates (some s)
        =
      let parsed := (s.toList.splitOn ',').filterMap fun t => parse (trim t)
      if parsed = [] then defaultRates else parsed := by
  unfold rates
  rw [Option.map_some]
  by_cases h : ((s.toList.splitOn ',').filterMap fun t => parse (trim t)) = []
  . simp [h, Option.filter]
  . simp [h, Option.filter]

/--
`CADENCE_RATES` is a list of numbers between commas: the program runs those that it can read, in
their order, and the defaults if there is none.
-/
theorem rates_eq_iff {items : List (List Char)} {rs : List UInt64} (hne : items ≠ [])
    (hcomma : ∀ item ∈ items, ',' ∉ item)
    : rates (some (String.ofList ([','].intercalate items))) = rs
        ↔
      Rates items rs ∧ rs ≠ [] ∨ Rates items [] ∧ rs = defaultRates := by
  rw [rates_some, String.toList_ofList, List.splitOn_intercalate ',' hcomma hne, rates_iff_filterMap,
    rates_iff_filterMap]
  dsimp only
  split
  next h =>
    rw [h]
    constructor
    . intro hrs
      exact .inr ⟨rfl, hrs.symm⟩
    . rintro (⟨hrs, hnil⟩ | ⟨_, hrs⟩)
      . exact absurd hrs.symm hnil
      . exact hrs.symm
  next h =>
    constructor
    . rintro rfl
      exact .inl ⟨rfl, h⟩
    . rintro (⟨hrs, _⟩ | ⟨hnil, _⟩)
      . exact hrs
      . exact absurd hnil h

theorem rates_mixed
    : rates (some (String.ofList ([','].intercalate [[' ', '1', '0'], ['x'], ['+', '7', ' ']])))
        =
      [10, 7] := by
  rw [rates_eq_iff (by decide) (by decide)]
  refine .inl ⟨?_, by decide⟩
  rw [rates_iff_filterMap]
  decide +kernel

end TailBench
end Bench
