-- Numerals of natural numbers in a base: the digits as a loop of divisions
-- gives them, the numeral with the highest digit first, and its value.
import Mathlib.Data.Nat.Digits.Lemmas

namespace binary_lab.numerals

/-- The digits of `n`, the lowest first. Zero has one digit. -/
def digitsOf (b n : Nat) : List Nat := if n = 0 then [0] else Nat.digits b n

section

variable {b : Nat}

/-- One turn of a loop that divides until nothing is left. -/
theorem digitsOf_step (hb : 1 < b) (n : Nat) :
    digitsOf b n = n % b :: if n / b = 0 then [] else digitsOf b (n / b) := by
  unfold digitsOf
  by_cases hn : n = 0
  · simp [hn]
  · rw [if_neg hn, Nat.digits_eq_cons_digits_div hb hn]
    by_cases hdiv : n / b = 0
    · rw [if_pos hdiv, hdiv, Nat.digits_zero]
    · rw [if_neg hdiv, if_neg hdiv]

theorem digitsOf_ne_nil (hb : 1 < b) (n : Nat) : digitsOf b n ≠ [] := by
  rw [digitsOf_step hb]
  exact List.cons_ne_nil _ _

theorem digitsOf_lt (hb : 1 < b) {n d : Nat} (hd : d ∈ digitsOf b n) : d < b := by
  unfold digitsOf at hd
  split_ifs at hd
  · rw [List.mem_singleton.mp hd]
    exact Nat.lt_of_succ_lt hb
  · exact Nat.digits_lt_base hb hd

theorem ofDigits_digitsOf (b n : Nat) : Nat.ofDigits b (digitsOf b n) = n := by
  unfold digitsOf
  split_ifs with hn
  · simp [hn]
  · exact Nat.ofDigits_digits b n

/-- A number below `b ^ k` has at most `k` digits. -/
theorem digitsOf_length_le (hb : 1 < b) {n k : Nat} (hk : 0 < k) (hn : n < b ^ k) :
    (digitsOf b n).length ≤ k := by
  unfold digitsOf
  split_ifs with h0
  · exact hk
  · exact (Nat.digits_length_le_iff hb n).mpr hn

end

/-! ## Numerals -/

section

variable {α : Type} {b : Nat}

/-- The numeral of `n` with the highest digit first, where `char` writes a digit. -/
def numeral (char : Nat → α) (b n : Nat) : List α := (digitsOf b n).reverse.map char

/-- The value of a string of digits, where `digit` reads a digit. -/
def valueOf (digit : α → Nat) (b : Nat) (cs : List α) : Nat :=
  cs.foldl (fun v c => v * b + digit c) 0

theorem foldl_digits (b : Nat) (ds : List Nat) :
    ds.reverse.foldl (fun v d => v * b + d) 0 = Nat.ofDigits b ds := by
  induction ds with
  | nil => rfl
  | cons d ds ih =>
    rw [List.reverse_cons, List.foldl_append, ih, Nat.ofDigits_cons, List.foldl_cons,
      List.foldl_nil]
    ring

/-- Reading a numeral gives the number back. -/
theorem valueOf_numeral {char : Nat → α} {digit : α → Nat} (hb : 1 < b)
    (hread : ∀ d < b, digit (char d) = d) (n : Nat) : valueOf digit b (numeral char b n) = n := by
  have hdigits : (numeral char b n).map digit = (digitsOf b n).reverse := by
    rw [numeral, List.map_map]
    refine (List.map_congr_left ?_).trans (List.map_id _)
    intro d hd
    exact hread d (digitsOf_lt hb (List.mem_reverse.mp hd))
  rw [valueOf, ← List.foldl_map, hdigits, foldl_digits, ofDigits_digitsOf]

/-- The numeral of a number other than zero does not start with the digit zero. -/
theorem numeral_head {char : Nat → α} (hb : 1 < b) (hchar : ∀ d < b, char d = char 0 → d = 0)
    {n : Nat} (hn : n ≠ 0) : (numeral char b n).head? ≠ some (char 0) := by
  have hne : Nat.digits b n ≠ [] := Nat.digits_ne_nil_iff_ne_zero.mpr hn
  have hlast := Nat.getLast_digit_ne_zero b hn
  rw [numeral, digitsOf, if_neg hn, List.head?_map, List.head?_reverse,
    List.getLast?_eq_getLast_of_ne_nil hne, Option.map_some]
  intro hzero
  exact hlast (hchar _ (Nat.digits_lt_base hb (List.getLast_mem hne)) (Option.some.inj hzero))

end

end binary_lab.numerals
