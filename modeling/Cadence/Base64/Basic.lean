import Mathlib.Data.List.Induction
import Mathlib.Tactic.IntervalCases
import Cadence.Bytes.LittleEndian

/-!
This module contains the base64 encoding of RFC 4648 with padding, and its strict decoder, which
accepts nothing but encodings.
-/

namespace Base64

def alphabet : Vector Char 64 :=
  ⟨"ABCDEFGHIJKLMNOPQRSTUVWXYZabcdefghijklmnopqrstuvwxyz0123456789+/".toList.toArray, rfl⟩

def symbol (n : Fin 64) : Char :=
  alphabet.get n

def sextet? (c : Char) : Option (Fin 64) :=
  (List.finRange 64).find? fun n => symbol n = c

theorem sextet?_symbol (n : Fin 64) : sextet? (symbol n) = some n := by
  revert n
  decide +kernel

theorem symbol_of_sextet? {c : Char} {n : Fin 64} (h : sextet? c = some n) : symbol n = c := by
  simpa using List.find?_some h

theorem symbol_ne_pad (n : Fin 64) : symbol n ≠ '=' := by
  revert n
  decide +kernel

theorem symbol_mem (n : Fin 64) : symbol n ∈ alphabet := by
  unfold symbol
  apply Vector.getElem_mem

/--
The last `k` digits of `n` to the base 64, most significant first.
-/
def symbols : Nat → Nat → List Char
  | 0, _ => []
  | k + 1, n => symbols k (n / 64) ++ [symbol (Fin.ofNat 64 n)]

def value? (cs : List Char) : Option Nat :=
  cs.foldlM (fun n c => (sextet? c).map fun digit => 64 * n + digit.val) 0

theorem value?_concat (cs : List Char) (c : Char)
    : value? (cs ++ [c])
        =
      (value? cs).bind fun n => (sextet? c).map fun digit => 64 * n + digit.val := by
  unfold value?
  rw [List.foldlM_append]
  simp only [List.foldlM_cons, List.foldlM_nil, bind_pure]
  rfl

theorem length_symbols (k n : Nat) : (symbols k n).length = k := by
  induction k generalizing n with
  | zero => rfl
  | succ k ih => rw [symbols, List.length_append, ih, List.length_singleton]

theorem value?_symbols {k n : Nat} (h : n < 64 ^ k) : value? (symbols k n) = some n := by
  induction k generalizing n with
  | zero =>
    rw [pow_zero, Nat.lt_one_iff] at h
    rw [h]
    rfl
  | succ k ih =>
    rw [pow_succ] at h
    rw [symbols, value?_concat, ih (by omega), sextet?_symbol]
    simp [Fin.ofNat]
    omega

theorem symbols_of_value? {cs : List Char} {n : Nat} (h : value? cs = some n)
    : symbols cs.length n = cs ∧ n < 64 ^ cs.length := by
  induction cs using List.reverseRecOn generalizing n with
  | nil =>
    cases h
    simp [symbols]
  | append_singleton cs c ih =>
    rw [value?_concat, Option.bind_eq_some_iff] at h
    rcases h with ⟨m, hm, hn⟩
    rw [Option.map_eq_some_iff] at hn
    rcases hn with ⟨digit, hdigit, rfl⟩
    have hlt := digit.isLt
    rcases ih hm with ⟨hcs, hbound⟩
    have hlast : Fin.ofNat 64 (64 * m + digit) = digit := by
      apply Fin.ext
      simp [Fin.ofNat]
    rw [List.length_append, List.length_singleton, symbols, hlast, symbol_of_sextet? hdigit,
      show (64 * m + digit) / 64 = m by omega, hcs, pow_succ]
    refine ⟨rfl, ?_⟩
    omega

def ofBe (bytes : List UInt8) : Nat :=
  Bytes.ofLe bytes.reverse

def toBe (width n : Nat) : List UInt8 :=
  (Bytes.toLe width n).reverse

theorem toBe_ofBe (bytes : List UInt8) : toBe bytes.length (ofBe bytes) = bytes := by
  unfold toBe ofBe
  have := Bytes.toLe_ofLe bytes.reverse
  rw [List.length_reverse] at this
  rw [this, List.reverse_reverse]

theorem ofBe_toBe {width n : Nat} (h : n < 256 ^ width) : ofBe (toBe width n) = n := by
  unfold toBe ofBe
  rw [List.reverse_reverse, Bytes.ofLe_toLe h]

theorem ofBe_lt (bytes : List UInt8) : ofBe bytes < 256 ^ bytes.length := by
  have := Bytes.ofLe_lt bytes.reverse
  rwa [List.length_reverse] at this

theorem length_toBe (width n : Nat) : (toBe width n).length = width := by
  unfold toBe
  rw [List.length_reverse, Bytes.length_toLe]

/--
A group of at most three bytes: `pad` bytes are missing from the last one, and two zero bits for each
of them fill its last symbol.
-/
def encodeGroup (pad : Nat) (bytes : List UInt8) : List Char :=
  symbols (4 - pad) (ofBe bytes * 4 ^ pad) ++ List.replicate pad '='

def encode : List UInt8 → List Char
  | [] => []
  | [a] => encodeGroup 2 [a]
  | [a, b] => encodeGroup 1 [a, b]
  | a :: b :: c :: rest => encodeGroup 0 [a, b, c] ++ encode rest

def decodeGroup (pad : Nat) (cs : List Char) : Option (List UInt8) :=
  (value? cs).bind fun n =>
    if n % 4 ^ pad = 0 then some (toBe (3 - pad) (n / 4 ^ pad)) else none

def decode : List Char → Option (List UInt8)
  | [] => some []
  | a :: b :: c :: d :: rest =>
    if d = '=' ∧ rest = [] then
      if c = '=' then decodeGroup 2 [a, b] else decodeGroup 1 [a, b, c]
    else
      (decodeGroup 0 [a, b, c, d]).bind fun bytes => (decode rest).map (bytes ++ ·)
  | _ => none

theorem group_bound {pad : Nat} (hpad : pad ≤ 2) : 256 ^ (3 - pad) * 4 ^ pad = 64 ^ (4 - pad) := by
  interval_cases pad <;> rfl

theorem decodeGroup_symbols {pad : Nat} {bytes : List UInt8} (h : bytes.length + pad = 3)
    (hpad : pad ≤ 2)
    : decodeGroup pad (symbols (4 - pad) (ofBe bytes * 4 ^ pad)) = some bytes := by
  have hlt := ofBe_lt bytes
  have hbound : ofBe bytes * 4 ^ pad < 64 ^ (4 - pad) := by
    rw [show bytes.length = 3 - pad by omega] at hlt
    rw [← group_bound hpad]
    apply Nat.mul_lt_mul_of_pos_right hlt (by positivity)
  unfold decodeGroup
  rw [value?_symbols hbound, Option.bind_some, if_pos (Nat.mul_mod_left _ _),
    Nat.mul_div_cancel _ (by positivity), show 3 - pad = bytes.length by omega, toBe_ofBe]

theorem symbols_of_decodeGroup {pad : Nat} {cs : List Char} {bytes : List UInt8}
    (hlength : cs.length + pad = 4) (hpad : pad ≤ 2) (h : decodeGroup pad cs = some bytes)
    : bytes.length = 3 - pad ∧ symbols (4 - pad) (ofBe bytes * 4 ^ pad) = cs := by
  unfold decodeGroup at h
  rw [Option.bind_eq_some_iff] at h
  rcases h with ⟨n, hn, h⟩
  split at h
  . next hzero =>
    rw [Option.some.injEq] at h
    subst h
    rcases symbols_of_value? hn with ⟨hcs, hlt⟩
    rw [show cs.length = 4 - pad by omega] at hcs hlt
    have hbound : n / 4 ^ pad < 256 ^ (3 - pad) := by
      rw [← group_bound hpad] at hlt
      apply Nat.div_lt_of_lt_mul
      rwa [Nat.mul_comm]
    refine ⟨length_toBe _ _, ?_⟩
    rw [ofBe_toBe hbound, Nat.div_mul_cancel (Nat.dvd_of_mod_eq_zero hzero), hcs]
  . contradiction

theorem symbols_three (n : Nat)
    : symbols 3 n
        =
      [symbol (Fin.ofNat 64 (n / 64 / 64)), symbol (Fin.ofNat 64 (n / 64)),
        symbol (Fin.ofNat 64 n)] := rfl

theorem symbols_four (n : Nat)
    : symbols 4 n
        =
      [symbol (Fin.ofNat 64 (n / 64 / 64 / 64)), symbol (Fin.ofNat 64 (n / 64 / 64)),
        symbol (Fin.ofNat 64 (n / 64)), symbol (Fin.ofNat 64 n)] := rfl

theorem decode_encodeGroup_one (a b : UInt8) : decode (encodeGroup 1 [a, b]) = some [a, b] := by
  have hgroup : decodeGroup 1 (symbols 3 (ofBe [a, b] * 4 ^ 1)) = some [a, b] :=
    decodeGroup_symbols rfl (by omega)
  unfold encodeGroup
  rw [show 4 - 1 = 3 by rfl]
  rw [symbols_three] at hgroup ⊢
  simpa [decode, symbol_ne_pad] using hgroup

theorem decode_encodeGroup_append (a b c : UInt8) (cs : List Char)
    : decode (encodeGroup 0 [a, b, c] ++ cs) = (decode cs).map ([a, b, c] ++ ·) := by
  have hgroup : decodeGroup 0 (symbols 4 (ofBe [a, b, c] * 4 ^ 0)) = some [a, b, c] :=
    decodeGroup_symbols rfl (by omega)
  unfold encodeGroup
  rw [Nat.sub_zero]
  rw [symbols_four] at hgroup ⊢
  simp only [List.replicate_zero, List.append_nil, List.cons_append, List.nil_append]
  rw [decode, if_neg (fun h => symbol_ne_pad _ h.1), hgroup, Option.bind_some]
  rfl

theorem decode_encode (bytes : List UInt8) : decode (encode bytes) = some bytes := by
  fun_induction encode bytes with
  | case1 => rfl
  | case2 a =>
    have hgroup : decodeGroup 2 (symbols 2 (ofBe [a] * 4 ^ 2)) = some [a] :=
      decodeGroup_symbols rfl (Nat.le_refl 2)
    apply hgroup
  | case3 a b => apply decode_encodeGroup_one
  | case4 a b c rest ih =>
    rw [decode_encodeGroup_append, ih]
    rfl

theorem encode_injective {bytes bytes' : List UInt8} (h : encode bytes = encode bytes')
    : bytes = bytes' := by
  rw [← Option.some.injEq, ← decode_encode bytes, h, decode_encode]

theorem encode_of_decode {cs : List Char} {bytes : List UInt8} (h : decode cs = some bytes)
    : encode bytes = cs := by
  fun_induction decode cs generalizing bytes with
  | case1 =>
    cases h
    rfl
  | case2 a b d rest hpad =>
    rcases symbols_of_decodeGroup rfl (Nat.le_refl 2) h with ⟨hlength, hsymbols⟩
    rcases List.length_eq_one_iff.mp hlength with ⟨x, rfl⟩
    rw [encode, encodeGroup, hsymbols, hpad.1, hpad.2]
    rfl
  | case3 a b c d rest hpad hc =>
    rcases symbols_of_decodeGroup rfl (by omega) h with ⟨hlength, hsymbols⟩
    rcases List.length_eq_two.mp hlength with ⟨x, y, rfl⟩
    rw [encode, encodeGroup, hsymbols, hpad.1, hpad.2]
    rfl
  | case4 a b c d rest hpad ih =>
    rw [Option.bind_eq_some_iff] at h
    rcases h with ⟨group, hgroup, h⟩
    rw [Option.map_eq_some_iff] at h
    rcases h with ⟨more, hmore, rfl⟩
    rcases symbols_of_decodeGroup rfl (by omega) hgroup with ⟨hlength, hsymbols⟩
    rcases List.length_eq_three.mp hlength with ⟨x, y, z, rfl⟩
    rw [List.cons_append, List.cons_append, List.cons_append, List.nil_append, encode, encodeGroup,
      hsymbols, ih hmore]
    rfl
  | case5 => contradiction

def padding (length : Nat) : Nat :=
  match length % 3 with
  | 0 => 0
  | 2 => 1
  | _ => 2

theorem padding_le (length : Nat) : padding length ≤ 2 := by
  unfold padding
  split <;> omega

theorem padding_add_three (length : Nat) : padding (length + 3) = padding length := by
  unfold padding
  rw [Nat.add_mod_right]

theorem mem_alphabet_of_mem_symbols {k n : Nat} {c : Char} (h : c ∈ symbols k n) : c ∈ alphabet := by
  induction k generalizing n with
  | zero => contradiction
  | succ k ih =>
    rw [symbols, List.mem_append, List.mem_singleton] at h
    rcases h with h | rfl
    . apply ih h
    . apply symbol_mem

/--
`cs` is `body` and then `pad` pad characters, and the bits of its last symbol that these leave unused
are zero.
-/
structure Padded (pad : Nat) (body cs : List Char) : Prop where
  append : cs = body ++ List.replicate pad '='
  alphabet : ∀ c ∈ body, c ∈ Base64.alphabet
  unused : ∀ c n, body.getLast? = some c → sextet? c = some n → n.val % 4 ^ pad = 0

theorem padded_encodeGroup {pad : Nat} (hpad : pad ≤ 2) (bytes : List UInt8)
    : Padded pad (symbols (4 - pad) (ofBe bytes * 4 ^ pad)) (encodeGroup pad bytes) where
  append := rfl
  alphabet := fun c hc => mem_alphabet_of_mem_symbols hc
  unused := by
    intro c n hc hn
    rw [show 4 - pad = (3 - pad) + 1 by omega, symbols, List.getLast?_concat, Option.some.injEq] at hc
    rw [← hc, sextet?_symbol, Option.some.injEq] at hn
    have hdvd : 4 ^ pad ∣ 64 := by
      interval_cases pad <;> decide
    rw [← hn, Fin.val_ofNat, Nat.mod_mod_of_dvd _ hdvd]
    apply Nat.mul_mod_left

theorem Padded.group_append {pad : Nat} {body cs : List Char} (h : Padded pad body cs)
    (hbody : body = [] → pad = 0) (bytes : List UInt8)
    : Padded pad (symbols 4 (ofBe bytes * 4 ^ 0) ++ body) (encodeGroup 0 bytes ++ cs) where
  append := by
    rw [h.append, ← List.append_assoc]
    rfl
  alphabet := by
    intro c hc
    rcases List.mem_append.mp hc with hc | hc
    . apply mem_alphabet_of_mem_symbols hc
    . apply h.alphabet c hc
  unused := by
    intro c n hc hn
    cases hlast : body.getLast? with
    | none =>
      rw [List.getLast?_eq_none_iff] at hlast
      rw [hbody hlast, pow_zero]
      apply Nat.mod_one
    | some c' =>
      rw [List.getLast?_append, hlast, Option.some_or] at hc
      apply h.unused c n (hlast.trans hc) hn

theorem encode_padded (bytes : List UInt8)
    : ∃ body, Padded (padding bytes.length) body (encode bytes)
        ∧ body.length + padding bytes.length = 4 * ((bytes.length + 2) / 3) := by
  fun_induction encode bytes with
  | case1 =>
    refine ⟨[], ?_, rfl⟩
    exact { append := rfl, alphabet := by simp, unused := by simp }
  | case2 a =>
    refine ⟨_, padded_encodeGroup (Nat.le_refl 2) [a], ?_⟩
    rw [length_symbols]
    simp [padding]
  | case3 a b =>
    refine ⟨_, padded_encodeGroup (Nat.one_le_ofNat) [a, b], ?_⟩
    rw [length_symbols]
    simp [padding]
  | case4 a b c rest ih =>
    rcases ih with ⟨body, hpadded, hlength⟩
    have hpadding := padding_le rest.length
    rw [show (a :: b :: c :: rest).length = rest.length + 3 by rfl, padding_add_three]
    refine ⟨_, hpadded.group_append ?_ [a, b, c], ?_⟩
    . -- no symbols at all means that nothing is left to encode
      rintro rfl
      rw [List.length_nil] at hlength
      omega
    . rw [List.length_append, length_symbols]
      omega

/--
What RFC 4648 says about the encoding of `bytes`.
-/
structure Standard (bytes : List UInt8) (cs : List Char) : Prop where
  length : cs.length = 4 * ((bytes.length + 2) / 3)
  padded : ∃ body, Padded (padding bytes.length) body cs
  decodes : decode cs = some bytes
  unique : ∀ cs', decode cs' = some bytes → cs' = cs

theorem encode_standard (bytes : List UInt8) : Standard bytes (encode bytes) where
  length := by
    rcases encode_padded bytes with ⟨body, hpadded, hlength⟩
    rw [hpadded.append, List.length_append, List.length_replicate, hlength]
  padded := by
    rcases encode_padded bytes with ⟨body, hpadded, -⟩
    exact ⟨body, hpadded⟩
  decodes := decode_encode bytes
  unique := fun _ h => (encode_of_decode h).symm

end Base64
