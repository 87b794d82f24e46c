-- What the conversions of numbers append: the text of `%x`, `%p` and `%P`,
-- of `%d` and of `%u`, against the text that is meant.
import BinaryLab.Modifiers

set_option linter.style.nameCheck false

open binary_lab.words binary_lab.texts binary_lab.numerals

namespace elf_loader.lib

/-! ## Widths -/

theorem va_int_lt (va : VaList) : va_int va < 2 ^ 31 := BitVec.toInt_lt

theorem Width.value_lt (w : Width) (va : VaList) : w.value va < 2 ^ 31 := by
  cases w with
  | none => exact (by decide : (0 : Int) < 2 ^ 31)
  | digits n pos fits => exact Int.ofNat_lt.mpr fits
  | star => exact va_int_lt va

/-! ## Hexadecimal numbers -/

def hexDigit (c : Byte) : Nat := if c.toNat ≥ 97 then c.toNat - 87 else c.toNat - 48

theorem hexDigit_hexChar : ∀ d < 16, hexDigit (hexChar d) = d := by decide

theorem hexChar_zero : ∀ d < 16, hexChar d = hexChar 0 → d = 0 := by decide

/-- A hexadecimal number as it is meant to be put. -/
def hexText (sharp zero : Bool) (width value : Nat) : List Byte :=
  hexPrefix sharp ++ (numeral hexChar 16 value).leftpad width (if zero then ch '0' else ch ' ')

theorem low_digit (n : BitVec 64) : (n &&& 0xf).toNat = n.toNat % 16 := by
  rw [BitVec.toNat_and]
  exact Nat.and_two_pow_sub_one_eq_mod n.toNat 4

/-- The loop puts the digits of the value of the lowest `k + 1` digits, if there
is nothing above them or the highest of them is not zero. -/
theorem hexPut_eq {size i k : Nat} {n : BitVec 64} (hk : size * 2 = i + (k + 1))
    (hn : n.toNat < 16 ^ (k + 1) ∨ 16 ^ k ≤ n.toNat % 16 ^ (k + 1)) :
    hexPut size i n = (digitsOf 16 (n.toNat % 16 ^ (k + 1))).map hexChar := by
  induction k generalizing i n with
  | zero =>
    rw [hexPut, if_neg (by omega), low_digit, digitsOf_step (by decide)]
    simp
  | succ k ih =>
    have hshift : (n >>> 4).toNat = n.toNat / 16 := by
      rw [BitVec.toNat_ushiftRight, Nat.shiftRight_eq_div_pow]
    have hlow : n.toNat % 16 ^ (k + 1 + 1) % 16 = n.toNat % 16 :=
      Nat.mod_mod_of_dvd _ (Dvd.intro_left _ (Nat.pow_succ 16 (k + 1)).symm)
    have hhigh : n.toNat % 16 ^ (k + 1 + 1) / 16 = n.toNat / 16 % 16 ^ (k + 1) := by
      rw [Nat.pow_succ]
      exact Nat.mod_mul_left_div_self _ _ _
    have hrest : (n >>> 4).toNat < 16 ^ (k + 1) ∨ 16 ^ k ≤ (n >>> 4).toNat % 16 ^ (k + 1) := by
      rw [hshift, ← hhigh]
      rcases hn with hn | hn
      · exact Or.inl (Nat.div_lt_of_lt_mul (by rwa [Nat.pow_succ, Nat.mul_comm] at hn))
      · exact Or.inr ((Nat.le_div_iff_mul_le (by decide)).mpr (by rwa [Nat.pow_succ] at hn))
    rw [hexPut, digitsOf_step (by decide), low_digit, hlow, hhigh, ← hshift, List.map_cons]
    congr 1
    by_cases hmore : n >>> 4 = 0
    · rw [if_neg (fun h => h.2 hmore), hmore]
      simp
    · have hne : (n >>> 4).toNat % 16 ^ (k + 1) ≠ 0 := by
        rcases hrest with hlt | hge
        · rw [Nat.mod_eq_of_lt hlt]
          exact fun h => hmore (BitVec.eq_of_toNat_eq h)
        · exact fun h => Nat.lt_irrefl _ (Nat.lt_of_lt_of_le (Nat.pow_pos (by decide)) (h ▸ hge))
      rw [if_pos ⟨by omega, hmore⟩, if_neg hne]
      exact ih (by omega) hrest

/-- The field of a hexadecimal number with `k + 1` digits. -/
theorem field_x_reverse {size k : Nat} {fzero : Bool} {number padding : Int} (hk : size * 2 = k + 1)
    (hn : (BitVec.ofInt 64 number).toNat < 16 ^ (k + 1) ∨
      16 ^ k ≤ (BitVec.ofInt 64 number).toNat % 16 ^ (k + 1))
    (hlow : 0 ≤ padding) (hhigh : padding < 2 ^ 31) (hsize : k < 16) :
    (field_x size fzero number padding).reverse =
      (numeral hexChar 16 ((BitVec.ofInt 64 number).toNat % 16 ^ (k + 1))).leftpad padding.toNat
        (if fzero then ch '0' else ch ' ') := by
  have hput := hexPut_eq (i := 0) (by rw [hk, Nat.zero_add]) hn
  have hlength := digitsOf_length_le (b := 16) (k := k + 1) (by decide) (by omega)
    (Nat.mod_lt (BitVec.ofInt 64 number).toNat (Nat.pow_pos (by decide)))
  rw [field_x, hput, paddingFor_eq _ hlow hhigh (by rw [List.length_map]; omega),
    List.reverse_append, List.reverse_replicate, List.leftpad, numeral, List.map_reverse,
    List.length_reverse]

/-- An `int` that is not a small number has its high bits set. -/
theorem va_int_bits (va : VaList) :
    (BitVec.ofInt 64 (va_int va)).toNat % 16 ^ 8 = (va 0).toNat % 2 ^ 32 ∧
      ((BitVec.ofInt 64 (va_int va)).toNat < 16 ^ 8 ∨
        16 ^ 7 ≤ (BitVec.ofInt 64 (va_int va)).toNat % 16 ^ 8) := by
  have hlow : ((va 0).setWidth 32).toNat = (va 0).toNat % 2 ^ 32 := BitVec.toNat_setWidth 32 (va 0)
  have hint := BitVec.toInt_eq_toNat_cond ((va 0).setWidth 32)
  rw [hlow] at hint
  rw [BitVec.toNat_ofInt, va_int, hint]
  split_ifs <;> omega

theorem va_long_bits (va : VaList) : BitVec.ofInt 64 (va_long va) = va 0 := BitVec.ofInt_toInt

section

variable {size : Nat} {fzero : Bool} {padding : Int} {va : VaList}

theorem field_x_int (hlow : 0 ≤ padding) (hhigh : padding < 2 ^ 31) :
    (field_x 4 fzero (va_int va) padding).reverse =
      (numeral hexChar 16 ((va 0).toNat % 2 ^ 32)).leftpad padding.toNat
        (if fzero then ch '0' else ch ' ') := by
  obtain ⟨hvalue, hbits⟩ := va_int_bits va
  rw [← hvalue]
  exact field_x_reverse rfl hbits hlow hhigh (by decide)

theorem field_x_long (hlow : 0 ≤ padding) (hhigh : padding < 2 ^ 31) :
    (field_x 8 fzero (va_long va) padding).reverse =
      (numeral hexChar 16 (va 0).toNat).leftpad padding.toNat
        (if fzero then ch '0' else ch ' ') := by
  have hbits : (va 0).toNat < 16 ^ 16 := (va 0).isLt
  rw [← va_long_bits va] at hbits
  rw [field_x_reverse (k := 15) rfl (Or.inl hbits) hlow hhigh (by decide), Nat.mod_eq_of_lt hbits,
    va_long_bits]

end

/-! ## Conversions in a format -/

/-- What a conversion puts: its pieces, with the settings of its modifiers. -/
theorem conversion_writes (strs : Addr → CString) (buffer_size : Nat) {st : State} (m : Modifiers)
    {c : Byte} (hmode : st.mode = .text) (hc : behindPercent true c = false) :
    ∃ s : Spec, s.Shows m.flags (m.width.value st.va) ∧
      Writes buffer_size st.out ((m.format c).foldl (step strs buffer_size) st).out
        (piecesOf strs s c (m.width.args st.va)) := by
  obtain ⟨s, hshows, hrun⟩ := conversion_run strs buffer_size st m hmode hc
  refine ⟨s, hshows, ?_⟩
  rw [hrun]
  exact convert_writes buffer_size strs s c _ st.out

/-- The text that `%x`, `%p` and `%P` are meant to append. `%P` has its own settings. -/
def hexOf (m : Modifiers) (c : Byte) (va : VaList) : List Byte :=
  let value := (m.width.args va 0).toNat
  let zero := decide (.zero ∈ m.flags)
  let width := (m.width.value va).toNat
  if c = ch 'p' then hexText true zero width value
  else if c = ch 'P' then hexText true true 16 value
  else
    hexText (decide (.sharp ∈ m.flags)) zero width
      (if .long ∈ m.flags then value else value % 2 ^ 32)

/-- The pieces of a hexadecimal conversion are that text. -/
theorem hex_pieces (strs : Addr → CString) {s : Spec} {m : Modifiers} {c : Byte} {va : VaList}
    (hc : c ∈ [ch 'x', ch 'p', ch 'P']) (hs : s.Shows m.flags (m.width.value va))
    (hwidth : 0 ≤ m.width.value va) :
    (piecesOf strs s c (m.width.args va)).flatMap Piece.text = hexOf m c va := by
  have hhigh := m.width.value_lt va
  unfold piecesOf hexOf
  by_cases hp : c = ch 'p'
  · rw [if_pos hp, if_pos hp, hs.zero, hs.padding]
    simp [Piece.text, hexText, field_x_long hwidth hhigh]
  · rw [if_neg hp, if_neg hp]
    by_cases hP : c = ch 'P'
    · rw [if_pos hP, if_pos hP]
      have hfield := @field_x_long true 16 (m.width.args va) (by decide) (by decide)
      simpa [Piece.text, hexText] using hfield
    · have hx : c = ch 'x' := by simpa [hp, hP] using hc
      rw [if_neg hP, if_neg hP, if_neg (by rw [hx]; decide), if_pos hx, hs.number, hs.size, hs.zero,
        hs.sharp, hs.padding]
      split_ifs with hlong
      · simp [Piece.text, hexText, field_x_long hwidth hhigh]
      · simp [Piece.text, hexText, field_x_int hwidth hhigh]

/-- A hexadecimal conversion appends its text, if there is room for it. The
digits are the shortest that have the value. -/
theorem hexadecimal_conversions_are_exact (strs : Addr → CString) (buffer_size : Nat) (st : State)
    (m : Modifiers) (c : Byte) (hc : c ∈ [ch 'x', ch 'p', ch 'P'])
    (hvalid : st.out.Valid buffer_size) (hmode : st.mode = .text)
    (hwidth : 0 ≤ m.width.value st.va)
    (hroom : (hexOf m c st.va).length ≤ buffer_size - 1 - st.out.current_size) :
    ((m.format c).foldl (step strs buffer_size) st).out.text = st.out.text ++ hexOf m c st.va ∧
      ∀ value : Nat, valueOf hexDigit 16 (numeral hexChar 16 value) = value ∧
        (value ≠ 0 → (numeral hexChar 16 value).head? ≠ some (ch '0')) ∧
        (value = 0 → numeral hexChar 16 value = [ch '0']) := by
  have hconversion : behindPercent true c = false := by
    simp only [List.mem_cons, List.not_mem_nil, or_false] at hc
    rcases hc with rfl | rfl | rfl <;> decide
  obtain ⟨s, hs, hwrites⟩ := conversion_writes strs buffer_size m hmode hconversion
  have hpieces := hex_pieces strs hc hs hwidth
  have hfull : fullSize (piecesOf strs s c (m.width.args st.va)) ≤
      buffer_size - 1 - st.out.current_size := by
    rw [fullSize_eq, hpieces]
    exact hroom
  refine ⟨?_, ?_⟩
  · rw [(hwrites hvalid).text, render_of_room hfull, hpieces]
  · intro value
    refine ⟨valueOf_numeral (by decide) hexDigit_hexChar value, ?_, ?_⟩
    · exact fun hvalue => numeral_head (by decide) hexChar_zero hvalue
    · rintro rfl
      rfl

/-- The modifiers of `%#08lx`. -/
def wideHex : Modifiers where
  before := [.sharp, .zero]
  width := .digits 8 (by decide) (by decide)
  after := [.long]
  apart := by simp

/-- An empty buffer, with `value` as the next argument. -/
def emptyBuffer (value : BitVec 64) : State where
  out := Out.start fun _ => 0
  va := fun _ => value
  mode := .text

theorem hexadecimal_conversion_of_48879 :
    ((wideHex.format (ch 'x')).foldl (step (fun _ => CString.lit []) 16)
      (emptyBuffer 0xbeef)).out.text = (CString.lit "0x0000beef".toList).bytes := by
  have hexact := hexadecimal_conversions_are_exact (fun _ => CString.lit []) 16
    (emptyBuffer 0xbeef) wideHex (ch 'x') (by decide) (Out.start_valid _ (by decide)) rfl
    (by decide) (by decide +kernel)
  rw [hexact.1]
  decide +kernel

/-- The modifiers of `%20P`. -/
def wideP : Modifiers where
  before := []
  width := .digits 20 (by decide) (by decide)
  after := []
  apart := by simp

/-- `%20P` has the width 16, and it is filled up with zeros. -/
theorem the_width_of_P_is_not_that_of_the_format :
    ((wideP.format (ch 'P')).foldl (step (fun _ => CString.lit []) 64) (emptyBuffer 1)).out.text =
        (CString.lit "0x0000000000000001".toList).bytes ∧
      (∀ sharp zero : Bool, hexText sharp zero 20 1 ≠
        (CString.lit "0x0000000000000001".toList).bytes) := by
  decide +kernel

/-! ## Decimal numbers -/

/-- A decimal number as it is meant to be put. -/
def decText (value : Int) : List Byte :=
  (if value < 0 then [ch '-'] else []) ++ numeral decChar 10 value.natAbs

def readSigned : List Byte → Int
  | [] => 0
  | c :: cs => if c = ch '-' then -(valueOf decDigit 10 cs : Int) else valueOf decDigit 10 (c :: cs)

/-- The value of a decimal number with spaces in front of it. -/
def readDecimal (cs : List Byte) : Int := readSigned (cs.dropWhile (· == ch ' '))

/-- The argument of `%d` and `%u`. -/
def decArg (m : Modifiers) (c : Byte) (va : VaList) : Int :=
  let va := m.width.args va
  if c = ch 'd' then if .long ∈ m.flags then va_long va else va_int va
  else if .long ∈ m.flags then (va 0).toNat else ((va 0).toNat % 2 ^ 32 : Nat)

/-- The text that `%d` and `%u` are meant to append. -/
def decOf (m : Modifiers) (c : Byte) (va : VaList) : List Byte :=
  (decText (decArg m c va)).leftpad (m.width.value va).toNat (ch ' ')

section

variable {value : Int}

theorem decChar_ne_minus : ∀ d < 10, decChar d ≠ ch '-' := by decide

theorem decChar_ne_space : ∀ d < 10, decChar d ≠ ch ' ' := by decide

/-- A decimal numeral starts with a digit. -/
theorem decNumeral_cons (n : Nat) : ∃ d cs, d < 10 ∧ numeral decChar 10 n = decChar d :: cs := by
  cases hcs : numeral decChar 10 n with
  | nil =>
    rw [numeral, List.map_eq_nil_iff, List.reverse_eq_nil_iff] at hcs
    exact absurd hcs (digitsOf_ne_nil (by decide) n)
  | cons c cs =>
    have hmem : c ∈ numeral decChar 10 n := by
      rw [hcs]
      exact List.mem_cons_self
    obtain ⟨d, hd, rfl⟩ := List.mem_map.mp hmem
    exact ⟨d, cs, digitsOf_lt (by decide) (List.mem_reverse.mp hd), rfl⟩

theorem readSigned_decText (value : Int) : readSigned (decText value) = value := by
  have hread := valueOf_numeral (b := 10) (by decide) decDigit_decChar value.natAbs
  rw [decText]
  split_ifs with hneg
  · rw [List.singleton_append, readSigned, if_pos rfl, hread]
    omega
  · obtain ⟨d, cs, hd, hcs⟩ := decNumeral_cons value.natAbs
    rw [List.nil_append, hcs, readSigned, if_neg (decChar_ne_minus d hd), ← hcs, hread]
    omega

theorem decText_head (value : Int) : ∃ c cs, c ≠ ch ' ' ∧ decText value = c :: cs := by
  obtain ⟨d, cs, hd, hcs⟩ := decNumeral_cons value.natAbs
  rw [decText, hcs]
  split_ifs
  · exact ⟨_, _, by decide, rfl⟩
  · exact ⟨_, _, decChar_ne_space d hd, rfl⟩

/-- Reading a padded number gives the value back. -/
theorem readDecimal_leftpad (value : Int) (width : Nat) :
    readDecimal ((decText value).leftpad width (ch ' ')) = value := by
  obtain ⟨c, cs, hc, hcs⟩ := decText_head value
  have hdrop : ((decText value).leftpad width (ch ' ')).dropWhile (· == ch ' ') =
      decText value := by
    rw [List.leftpad, List.dropWhile_append_of_pos (by simp), hcs]
    simp [hc]
  rw [readDecimal, hdrop, readSigned_decText]

end

/-! ## What the loops put -/

/-- The digits of a number that is not negative. -/
theorem digitsPut_natCast (n : Nat) : digitsPut n = (digitsOf 10 n).map decChar := by
  induction n using Nat.strong_induction_on with
  | _ n ih =>
    have hmod : (n : Int).tmod 10 = (n % 10 : Nat) := (Int.ofNat_tmod n 10).symm
    have hdiv : (n : Int).tdiv 10 = (n / 10 : Nat) := (Int.ofNat_tdiv n 10).symm
    rw [digitsPut, digitsOf_step (by decide), hmod, hdiv, List.map_cons]
    congr 1
    by_cases hzero : n / 10 = 0
    · rw [hzero]
      simp
    · rw [if_pos (by exact_mod_cast hzero), if_neg hzero]
      exact ih (n / 10) (by omega)

/-- The lowest digit comes first. -/
theorem digitsPut_head (number : Int) :
    (digitsPut number).head? = some (asChar (48 + number.tmod 10)) := by
  rw [digitsPut]
  rfl

theorem numeral_getLast (n : Nat) :
    (numeral decChar 10 n).getLast? = some (decChar (n % 10)) := by
  rw [numeral, List.getLast?_map, List.getLast?_reverse, digitsOf_step (by decide)]
  rfl

theorem decText_ne_nil (value : Int) : decText value ≠ [] := by
  obtain ⟨c, cs, _, hcs⟩ := decText_head value
  rw [hcs]
  exact List.cons_ne_nil c cs

theorem leftpad_decText_getLast (value : Int) (width : Nat) :
    ((decText value).leftpad width (ch ' ')).getLast? = some (decChar (value.natAbs % 10)) := by
  have hlast := numeral_getLast value.natAbs
  rw [List.leftpad, List.getLast?_append_of_ne_nil _ (decText_ne_nil value), decText,
    List.getLast?_append, hlast]
  rfl

/-- A field that starts with another character than the last of the text does
not show the text. -/
theorem field_ne_of_head {f text : List Byte} {room : Nat} (htext : text ≠ [])
    (hroom : text.length ≤ room) (hhead : f.head? ≠ text.getLast?) :
    (f.take room).reverse ≠ text := by
  rintro rfl
  have hpos : room ≠ 0 := by
    rintro rfl
    simp at htext
  rw [List.getLast?_reverse, List.head?_take, if_neg hpos] at hhead
  exact hhead rfl

/-- A field that goes on behind the text shows it if the rest finds no room. -/
theorem field_eq_iff {text rest : List Byte} {room : Nat} (hroom : text.length ≤ room) :
    ((text.reverse ++ rest).take room).reverse = text ↔ rest = [] ∨ room = text.length := by
  rw [List.take_append, List.take_of_length_le (by rwa [List.length_reverse]), List.reverse_append,
    List.reverse_reverse, List.append_left_eq_self, List.reverse_eq_nil_iff, List.take_eq_nil_iff,
    List.length_reverse, or_comm, Nat.sub_eq_zero_iff_le]
  exact or_congr_right ⟨fun h => Nat.le_antisymm h hroom, Nat.le_of_eq⟩

/-- A number that is not negative is put as it is meant to be. -/
theorem field_u_natCast {n : Nat} (hn : n < 2 ^ 64) {padding : Int} (hlow : 0 ≤ padding)
    (hhigh : padding < 2 ^ 31) :
    (field_u n padding).reverse = (decText n).leftpad padding.toNat (ch ' ') := by
  have hlength : (digitsOf 10 n).length ≤ 20 :=
    digitsOf_length_le (by decide) (by decide) (Nat.lt_trans hn (by decide))
  have hplain : decText n = numeral decChar 10 n := by
    rw [decText, if_neg (by omega)]
    rfl
  rw [hplain, field_u, digitsPut_natCast,
    paddingFor_eq _ hlow hhigh (by rw [List.length_map]; omega), List.reverse_append,
    List.reverse_replicate, List.leftpad, numeral, List.map_reverse, List.length_reverse]

theorem field_d_natCast (n : Nat) (padding : Int) : field_d n padding = field_u n padding := by
  have hneg : ¬(n : Int) < 0 := by omega
  simp only [field_d, field_u, if_neg hneg, List.nil_append]

/-- A negative number is put with one space more in front of it than it is meant to be. -/
theorem field_d_neg {n : Nat} (hpos : 0 < n) (hn : n < 2 ^ 63) {padding : Int} (hlow : 0 ≤ padding)
    (hhigh : padding < 2 ^ 31) :
    field_d (-n) padding = ((decText (-n)).leftpad padding.toNat (ch ' ')).reverse ++
      List.replicate (if padding ≤ (numeral decChar 10 n).length then 0 else 1) (ch ' ') := by
  have hneg : -(n : Int) < 0 := by omega
  have hlength : (digitsOf 10 n).length ≤ 20 :=
    digitsOf_length_le (by decide) (by decide) (Nat.lt_trans hn (by decide))
  have hnumber : asLongLong (-(n : Int) * -1) = n := by
    rw [Int.neg_mul_neg, Int.mul_one]
    exact BitVec.toInt_ofInt_eq_self (by decide) (by omega) (by omega)
  have hnumeral : (numeral decChar 10 n).length = (digitsOf 10 n).length := by simp [numeral]
  have hreverse : (numeral decChar 10 n).reverse = (digitsOf 10 n).map decChar := by
    rw [numeral, List.map_reverse, List.reverse_reverse]
  have htext : decText (-n) = ch '-' :: numeral decChar 10 n := by
    rw [decText, if_pos hneg, Int.natAbs_neg, Int.natAbs_natCast]
    rfl
  simp only [field_d, if_pos hneg, hnumber, digitsPut_natCast]
  rw [paddingFor_eq _ hlow hhigh (by rw [List.length_map]; omega), htext, List.leftpad,
    List.reverse_append, List.reverse_replicate, List.reverse_cons, hreverse, List.append_assoc,
    List.append_assoc, List.append_cancel_left_eq, List.append_cancel_left_eq,
    ← List.replicate_add, List.length_map, List.length_cons, hnumeral]
  congr 1
  split_ifs <;> omega

/-- The negative number without a positive counterpart is put without any digit that is meant. -/
theorem field_d_head_min (padding : Int) :
    (field_d (-2 ^ 63) padding).head? = some (asChar (48 - 8)) := by
  have hnumber : asLongLong (-2 ^ 63 * -1) = -2 ^ 63 := by decide
  have hneg : (-2 ^ 63 : Int) < 0 := by decide
  simp only [field_d, if_pos hneg, hnumber]
  rw [List.head?_append_of_ne_nil, digitsPut_head]
  · decide
  · rw [digitsPut]
    exact List.cons_ne_nil _ _

section

variable {padding : Int} {room : Nat}

/-- Which numbers the field of `%d` shows as they are meant to be put. -/
theorem field_d_iff {v : Int} (hmin : -2 ^ 63 ≤ v) (hmax : v < 2 ^ 63) (hlow : 0 ≤ padding)
    (hhigh : padding < 2 ^ 31)
    (hroom : ((decText v).leftpad padding.toNat (ch ' ')).length ≤ room) :
    ((field_d v padding).take room).reverse = (decText v).leftpad padding.toNat (ch ' ') ↔
      0 ≤ v ∨ v ≠ -2 ^ 63 ∧ (padding ≤ (numeral decChar 10 v.natAbs).length ∨
        room = ((decText v).leftpad padding.toNat (ch ' ')).length) := by
  rcases lt_or_ge v 0 with hneg | hnonneg
  · by_cases hv : v = -2 ^ 63
    · subst hv
      refine iff_of_false ?_ (by omega)
      refine field_ne_of_head (by simp [List.leftpad, decText_ne_nil]) hroom ?_
      rw [field_d_head_min, leftpad_decText_getLast]
      decide
    · obtain ⟨n, rfl⟩ : ∃ n : Nat, v = -n := ⟨v.natAbs, by omega⟩
      rw [field_d_neg (by omega) (by omega) hlow hhigh, field_eq_iff hroom, Int.natAbs_neg,
        Int.natAbs_natCast, List.replicate_eq_nil_iff]
      have hrest : (if padding ≤ (numeral decChar 10 n).length then 0 else 1) = 0 ↔
          padding ≤ (numeral decChar 10 n).length := by
        split_ifs with hle
        · exact iff_of_true rfl hle
        · exact iff_of_false not_false hle
      rw [hrest, or_iff_right (Int.not_le.mpr hneg), and_iff_right hv]
  · obtain ⟨n, rfl⟩ := Int.eq_ofNat_of_zero_le hnonneg
    rw [← field_u_natCast (by omega) hlow hhigh] at hroom ⊢
    rw [List.length_reverse] at hroom
    rw [field_d_natCast, List.take_of_length_le hroom]
    exact iff_of_true rfl (Or.inl hnonneg)

/-- The field of `%u` shows the numbers that are not negative as signed ones. -/
theorem field_u_iff {w : Nat} (hw : w = 32 ∨ w = 64) (x : BitVec w) (hlow : 0 ≤ padding)
    (hhigh : padding < 2 ^ 31)
    (hroom : ((decText x.toNat).leftpad padding.toNat (ch ' ')).length ≤ room) :
    ((field_u x.toInt padding).take room).reverse =
        (decText x.toNat).leftpad padding.toNat (ch ' ') ↔ x.toNat < 2 ^ (w - 1) := by
  have hbase : 2 * 2 ^ (w - 1) = 2 ^ w ∧ 2 ^ w % 10 = 6 ∧ 2 ^ w ≤ 2 ^ 64 := by
    rcases hw with rfl | rfl <;> decide
  obtain ⟨hhalf, hlast, hmax⟩ := hbase
  have hx := x.isLt
  rw [BitVec.toInt_eq_toNat_cond]
  split_ifs with hsmall
  · rw [← field_u_natCast (by omega) hlow hhigh] at hroom ⊢
    rw [List.length_reverse] at hroom
    rw [List.take_of_length_le hroom]
    exact iff_of_true rfl (by omega)
  · refine iff_of_false ?_ (by omega)
    refine field_ne_of_head (by simp [List.leftpad, decText_ne_nil]) hroom ?_
    have hnumber : (x.toNat : Int) - (2 ^ w : Nat) = -((2 ^ w - x.toNat : Nat) : Int) := by omega
    have hmod : ((2 ^ w - x.toNat : Nat) : Int).tmod 10 = ((2 ^ w - x.toNat) % 10 : Nat) :=
      (Int.ofNat_tmod _ 10).symm
    have hdigit : ∀ r : Nat, r < 10 → ∀ e < 10, asChar (48 + -(r : Int)) = decChar e →
        r = 0 ∧ e = 0 := by
      decide
    rw [leftpad_decText_getLast, field_u, List.head?_append_of_ne_nil, digitsPut_head, hnumber,
      Int.neg_tmod, hmod]
    · intro heq
      have hzero := hdigit _ (Nat.mod_lt _ (by decide)) _ (Nat.mod_lt _ (by decide))
        (Option.some.inj heq)
      omega
    · rw [digitsPut]
      exact List.cons_ne_nil _ _

end

/-- When `%d` and `%u` append what they are meant to, with `room` for more
characters: a negative number is not padded, or the buffer drops the space that
is too much, and a number of `%u` is not negative as a signed one. -/
def ExactDecimal (m : Modifiers) (c : Byte) (va : VaList) (room : Nat) : Prop :=
  let value := decArg m c va
  if c = ch 'd' then
    0 ≤ value ∨ value ≠ -2 ^ 63 ∧ (m.width.value va ≤ (numeral decChar 10 value.natAbs).length ∨
      room = (decOf m c va).length)
  else value < if .long ∈ m.flags then 2 ^ 63 else 2 ^ 31

theorem va_long_bounds (va : VaList) : -2 ^ 63 ≤ va_long va ∧ va_long va < 2 ^ 63 :=
  ⟨BitVec.le_toInt _, BitVec.toInt_lt⟩

theorem va_int_ge (va : VaList) : -2 ^ 31 ≤ va_int va := BitVec.le_toInt _

/-- The field of a decimal conversion shows the text that is meant. -/
theorem dec_field_iff {strs : Addr → CString} {s : Spec} {m : Modifiers} {c : Byte} {va : VaList}
    {room : Nat} (hc : c ∈ [ch 'd', ch 'u']) (hs : s.Shows m.flags (m.width.value va))
    (hwidth : 0 ≤ m.width.value va) (hroom : (decOf m c va).length ≤ room) :
    render room (piecesOf strs s c (m.width.args va)) = decOf m c va ↔
      ExactDecimal m c va room := by
  have hhigh := m.width.value_lt va
  by_cases hd : c = ch 'd'
  · subst hd
    have hpieces : piecesOf strs s (ch 'd') (m.width.args va) =
        [.field (field_d (decArg m (ch 'd') va) (m.width.value va))] := by
      rw [piecesOf, if_neg (by decide), if_neg (by decide), if_pos rfl, hs.number, hs.padding]
      rfl
    have hbounds : -2 ^ 63 ≤ decArg m (ch 'd') va ∧ decArg m (ch 'd') va < 2 ^ 63 := by
      simp only [decArg]
      have hlong := va_long_bounds (m.width.args va)
      have hmin := va_int_ge (m.width.args va)
      have hmax := va_int_lt (m.width.args va)
      split_ifs <;> omega
    rw [hpieces, render, render, List.append_nil]
    exact field_d_iff hbounds.1 hbounds.2 hwidth hhigh hroom
  · have hu : c = ch 'u' := by simpa [hd] using hc
    subst hu
    have hud : ch 'u' ≠ ch 'd' := by decide
    have hpieces : piecesOf strs s (ch 'u') (m.width.args va) =
        [.field (field_u (if .long ∈ m.flags then va_long (m.width.args va)
          else va_int (m.width.args va)) (m.width.value va))] := by
      rw [piecesOf, if_neg (by decide), if_neg (by decide), if_neg (by decide),
        if_neg (by decide), if_pos rfl, hs.number, hs.padding]
    rw [hpieces, render, render, List.append_nil]
    by_cases hlong : .long ∈ m.flags
    · have harg : decArg m (ch 'u') va = (m.width.args va 0).toNat := by
        simp only [decArg, if_neg hud, if_pos hlong]
      rw [decOf, harg] at hroom ⊢
      simp only [ExactDecimal, harg, if_neg hud, if_pos hlong]
      exact_mod_cast field_u_iff (Or.inr rfl) (m.width.args va 0) hwidth hhigh hroom
    · have harg : decArg m (ch 'u') va = ((m.width.args va 0).setWidth 32).toNat := by
        simp only [decArg, if_neg hud, if_neg hlong, BitVec.toNat_setWidth]
      rw [decOf, harg] at hroom ⊢
      simp only [ExactDecimal, harg, if_neg hud, if_neg hlong]
      exact_mod_cast field_u_iff (Or.inl rfl) ((m.width.args va 0).setWidth 32) hwidth hhigh hroom

/-- A decimal conversion appends the text that is meant exactly under the
condition, and that text reads back as the value. -/
theorem decimal_conversions_are_exact_iff (strs : Addr → CString) (buffer_size : Nat) (st : State)
    (m : Modifiers) (c : Byte) (hc : c ∈ [ch 'd', ch 'u']) (hvalid : st.out.Valid buffer_size)
    (hmode : st.mode = .text) (hwidth : 0 ≤ m.width.value st.va)
    (hroom : (decOf m c st.va).length ≤ buffer_size - 1 - st.out.current_size) :
    (((m.format c).foldl (step strs buffer_size) st).out.text = st.out.text ++ decOf m c st.va ∧
        readDecimal (decOf m c st.va) = decArg m c st.va) ↔
      ExactDecimal m c st.va (buffer_size - 1 - st.out.current_size) := by
  have hconversion : behindPercent true c = false := by
    simp only [List.mem_cons, List.not_mem_nil, or_false] at hc
    rcases hc with rfl | rfl <;> decide
  obtain ⟨s, hs, hwrites⟩ := conversion_writes strs buffer_size m hmode hconversion
  have hread : readDecimal (decOf m c st.va) = decArg m c st.va := readDecimal_leftpad _ _
  rw [(hwrites hvalid).text, List.append_cancel_left_eq, and_iff_left hread]
  exact dec_field_iff hc hs hwidth hroom

/-- The modifiers of `%5d`. -/
def fiveWide : Modifiers where
  before := []
  width := .digits 5 (by decide) (by decide)
  after := []
  apart := by simp

theorem decimal_conversion_of_12 :
    ((fiveWide.format (ch 'd')).foldl (step (fun _ => CString.lit []) 16)
      (emptyBuffer 12)).out.text = (CString.lit "   12".toList).bytes := by
  have hexact := decimal_conversions_are_exact_iff (fun _ => CString.lit []) 16
    (emptyBuffer 12) fiveWide (ch 'd') (by decide) (Out.start_valid _ (by decide)) rfl
    (by decide) (by decide +kernel)
  rw [(hexact.mpr (Or.inl (by decide))).1]
  decide +kernel

/-- `%5d` puts six characters for -12, and `%u` puts no digit for 2^32 - 1. -/
theorem decimal_conversions_of_negative_values :
    ((fiveWide.format (ch 'd')).foldl (step (fun _ => CString.lit []) 16)
        (emptyBuffer (-12))).out.text = (CString.lit "   -12".toList).bytes ∧
      decOf fiveWide (ch 'd') (emptyBuffer (-12)).va = (CString.lit "  -12".toList).bytes ∧
      ((ch '%' :: [ch 'u']).foldl (step (fun _ => CString.lit []) 16)
        (emptyBuffer 0xffffffff)).out.text = (CString.lit "/".toList).bytes := by
  decide +kernel

end elf_loader.lib
