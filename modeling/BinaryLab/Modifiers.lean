-- What stands between `%` and the character of a conversion: flags, and a
-- width at most once, in any order. The parser of `dvsprintf` reads them as
-- they are meant.
import BinaryLab.Numerals
import BinaryLab.PrintfSafety

set_option linter.style.nameCheck false

open binary_lab.words binary_lab.texts binary_lab.numerals

namespace elf_loader.lib

/-! ## Decimal digits -/

def decChar (d : Nat) : Byte := asChar (48 + d)

def decDigit (c : Byte) : Nat := c.toNat - 48

theorem decDigit_decChar : ∀ d < 10, decDigit (decChar d) = d := by decide

theorem decChar_toNat : ∀ d < 10, (decChar d).toNat = 48 + d := by decide

theorem isdigit_decChar : ∀ d < 10, isdigit (decChar d) = true := by decide

theorem decChar_zero : ∀ d < 10, decChar d = decChar 0 → d = 0 := by decide

/-! ## The modifiers -/

inductive Flag
  | sharp
  | zero
  | long
deriving DecidableEq

def Flag.char : Flag → Byte
  | sharp => ch '#'
  | zero => ch '0'
  | long => ch 'l'

/-- A width is a number, or it is an argument. -/
inductive Width
  | none
  | digits (n : Nat) (pos : 0 < n) (fits : n < 2 ^ 31)
  | star

def Width.chars : Width → List Byte
  | none => []
  | digits n _ _ => numeral decChar 10 n
  | star => [ch '*']

/-- The width, where `va` are the arguments from the conversion on. -/
def Width.value (va : VaList) : Width → Int
  | none => 0
  | digits n _ _ => n
  | star => va_int va

/-- The arguments behind the width. -/
def Width.args (va : VaList) : Width → VaList
  | none => va
  | digits _ _ _ => va
  | star => va.next

/-- The flags in front of the width and behind it. A flag `0` right behind a
number would be a digit of it. -/
structure Modifiers where
  before : List Flag
  width : Width
  after : List Flag
  apart : ∀ n pos fits, width = .digits n pos fits → after.head? ≠ some .zero

def Modifiers.flags (m : Modifiers) : List Flag := m.before ++ m.after

def Modifiers.chars (m : Modifiers) : List Byte :=
  m.before.map Flag.char ++ m.width.chars ++ m.after.map Flag.char

/-- A whole conversion, as it stands in a format. -/
def Modifiers.format (m : Modifiers) (c : Byte) : List Byte := ch '%' :: (m.chars ++ [c])

/-! ## The settings -/

/-- The settings after one more flag. -/
def Spec.add (s : Spec) : Flag → Spec
  | .sharp => { s with fsharp := true }
  | .zero => { s with fzero := true }
  | .long => if s.fl then { s with fll := true, size := 8 } else { s with fl := true, size := 8 }

/-- The settings are those of the flags and the width. -/
structure Spec.Shows (s : Spec) (fs : List Flag) (padding : Int) : Prop where
  sharp : s.fsharp = decide (.sharp ∈ fs)
  zero : s.fzero = decide (.zero ∈ fs)
  long : (s.fll || s.fl) = decide (.long ∈ fs)
  size : s.size = if .long ∈ fs then 8 else 4
  padding : s.padding = padding

theorem Spec.start_shows : Spec.start.Shows [] 0 := ⟨rfl, rfl, rfl, rfl, rfl⟩

section

variable {s : Spec} {fs : List Flag} {padding : Int}

theorem Spec.Shows.add (h : s.Shows fs padding) (f : Flag) :
    (s.add f).Shows (fs ++ [f]) padding := by
  obtain ⟨hsharp, hzero, hlong, hsize, hpadding⟩ := h
  cases f with
  | sharp => exact ⟨by simp [Spec.add], by simpa [Spec.add] using hzero,
      by simpa [Spec.add] using hlong, by simpa [Spec.add] using hsize, hpadding⟩
  | zero => exact ⟨by simpa [Spec.add] using hsharp, by simp [Spec.add],
      by simpa [Spec.add] using hlong, by simpa [Spec.add] using hsize, hpadding⟩
  | long =>
    rw [Spec.add]
    split_ifs
    · exact ⟨by simpa using hsharp, by simpa using hzero, by simp, by simp, hpadding⟩
    · exact ⟨by simpa using hsharp, by simpa using hzero, by simp, by simp, hpadding⟩

theorem Spec.Shows.addAll (h : s.Shows fs padding) (gs : List Flag) :
    (gs.foldl Spec.add s).Shows (fs ++ gs) padding := by
  induction gs generalizing s fs with
  | nil => simpa using h
  | cons g gs ih =>
    have hall := ih (h.add g)
    rw [List.append_assoc] at hall
    exact hall

theorem Spec.Shows.width (h : s.Shows fs padding) (w : Int) :
    { s with padding := w }.Shows fs w :=
  ⟨h.sharp, h.zero, h.long, h.size, rfl⟩

/-- The argument of a number. -/
theorem Spec.Shows.number (h : s.Shows fs padding) (va : VaList) :
    number s va = if .long ∈ fs then va_long va else va_int va := by
  have hlong := h.long
  unfold lib.number
  by_cases hmem : .long ∈ fs
  · rw [if_pos hmem]
    rw [decide_eq_true hmem] at hlong
    split_ifs with hfll hfl
    · rfl
    · rfl
    · simp [hfll, hfl] at hlong
  · rw [if_neg hmem]
    rw [decide_eq_false hmem, Bool.or_eq_false_iff] at hlong
    rw [if_neg (by simp [hlong.1]), if_neg (by simp [hlong.2])]

end

/-! ## The parser -/

section

variable (strs : Addr → CString) (buffer_size : Nat) (out : Out) (va : VaList)

theorem step_flag (s : Spec) (f : Flag) :
    step strs buffer_size { out, va, mode := .spec false s } f.char =
      { out, va, mode := .spec false (s.add f) } := by
  cases f with
  | sharp => rfl
  | zero => rfl
  | long =>
    have hlong : modifier false s va (ch 'l') =
        if s.fl then some (.spec false { s with fll := true, size := 8 }, va)
        else some (.spec false { s with fl := true, size := 8 }, va) := rfl
    by_cases hfl : s.fl = true
    · simp [step, Flag.char, Spec.add, hlong, hfl]
    · simp [step, Flag.char, Spec.add, hlong, hfl]

theorem flags_run (s : Spec) (fs : List Flag) :
    (fs.map Flag.char).foldl (step strs buffer_size) { out, va, mode := .spec false s } =
      { out, va, mode := .spec false (fs.foldl Spec.add s) } := by
  induction fs generalizing s with
  | nil => rfl
  | cons f fs ih => rw [List.map_cons, List.foldl_cons, step_flag, ih, List.foldl_cons]

/-- Only for `0` it matters whether the parser is in the loop over the digits. -/
theorem step_digits (s : Spec) {c : Byte} (hc : c ≠ ch '0') :
    step strs buffer_size { out, va, mode := .spec true s } c =
      step strs buffer_size { out, va, mode := .spec false s } c := by
  have hmodifier : modifier true s va c = modifier false s va c := by simp [modifier, hc]
  simp only [step, hmodifier]

theorem step_digit (s : Spec) {p d : Nat} (hd : d < 10) (hp : s.padding = p)
    (hfits : p * 10 + d < 2 ^ 31) :
    step strs buffer_size { out, va, mode := .spec true s } (decChar d) =
      { out, va, mode := .spec true { s with padding := (p * 10 + d : Nat) } } := by
  have hvalue : asInt (s.padding * 10 + (decChar d).toNat - 48) = (p * 10 + d : Nat) := by
    rw [decChar_toNat d hd, hp, ← asInt_of_lt hfits]
    congr 1
    push_cast
    ring
  simp [step, modifier, isdigit_decChar d hd, hvalue]

theorem foldl_digits_ge (ds : List Nat) (p : Nat) : p ≤ ds.foldl (fun v d => v * 10 + d) p := by
  induction ds generalizing p with
  | nil => exact Nat.le_refl p
  | cons d ds ih => exact Nat.le_trans (by omega) (ih (p * 10 + d))

/-- The loop over the digits of a width. -/
theorem digits_run (s : Spec) {ds : List Nat} (hds : ∀ d ∈ ds, d < 10) {p : Nat}
    (hp : s.padding = p) (hfits : ds.foldl (fun v d => v * 10 + d) p < 2 ^ 31) :
    (ds.map decChar).foldl (step strs buffer_size) { out, va, mode := .spec true s } =
      { out, va,
        mode := .spec true
          { s with padding := (ds.foldl (fun v d => v * 10 + d) p : Nat) } } := by
  induction ds generalizing s p with
  | nil =>
    rw [List.foldl_nil, ← hp]
    rfl
  | cons d ds ih =>
    have hmore := foldl_digits_ge ds (p * 10 + d)
    rw [List.map_cons, List.foldl_cons, List.foldl_cons,
      step_digit strs buffer_size out va s (hds d List.mem_cons_self) hp
        (Nat.lt_of_le_of_lt hmore hfits)]
    exact ih _ (fun e he => hds e (List.mem_cons_of_mem _ he)) rfl hfits

/-- Over the width. -/
theorem width_run (s : Spec) (w : Width) (hs : s.padding = 0) :
    ∃ digits, w.chars.foldl (step strs buffer_size) { out, va, mode := .spec false s } =
        { out, va := w.args va, mode := .spec digits { s with padding := w.value va } } ∧
      (digits = true → ∃ n pos fits, w = .digits n pos fits) := by
  cases w with
  | none =>
    refine ⟨false, ?_, fun h => by cases h⟩
    rw [Width.chars, Width.value, ← hs]
    rfl
  | star => exact ⟨false, rfl, fun h => by cases h⟩
  | digits n pos fits =>
    refine ⟨true, ?_, fun _ => ⟨n, pos, fits, rfl⟩⟩
    have hhead := numeral_head (b := 10) (by decide) decChar_zero (Nat.pos_iff_ne_zero.mp pos)
    have hne : numeral decChar 10 n ≠ [] := by
      rw [numeral, ne_eq, List.map_eq_nil_iff, List.reverse_eq_nil_iff]
      exact digitsOf_ne_nil (by decide) n
    have hvalue : (digitsOf 10 n).reverse.foldl (fun v d => v * 10 + d) 0 = n := by
      rw [foldl_digits, ofDigits_digitsOf]
    have hlt : ∀ d ∈ (digitsOf 10 n).reverse, d < 10 :=
      fun d hd => digitsOf_lt (by decide) (List.mem_reverse.mp hd)
    have hrun := digits_run strs buffer_size out va s hlt (p := 0) hs (by rw [hvalue]; exact fits)
    rw [hvalue] at hrun
    rw [Width.chars, Width.args, Width.value, ← hrun, ← numeral]
    -- the first digit of the width is not a zero
    cases hcs : numeral decChar 10 n with
    | nil => exact absurd hcs hne
    | cons c cs =>
      rw [hcs] at hhead
      have hc : c ≠ ch '0' := fun h => hhead (by rw [h]; rfl)
      rw [List.foldl_cons, List.foldl_cons, step_digits strs buffer_size out va s hc]

/-- A character that is no modifier is a conversion. -/
theorem step_convert (digits : Bool) (s : Spec) {c : Byte} (hc : behindPercent true c = false) :
    step strs buffer_size { out, va, mode := .spec digits s } c =
      { out := (convert strs buffer_size s c va out).1, va := argsAfter c va, mode := .text } := by
  have hsome := modifier_isSome digits s va c
  rw [hc, Option.isSome_eq_false_iff, Option.isNone_iff_eq_none] at hsome
  simp only [step, hsome, convert_args]

/-- A whole conversion. -/
theorem conversion_run (st : State) (m : Modifiers) {c : Byte} (hmode : st.mode = .text)
    (hc : behindPercent true c = false) :
    ∃ s : Spec, s.Shows m.flags (m.width.value st.va) ∧
      (m.format c).foldl (step strs buffer_size) st =
        { out := (convert strs buffer_size s c (m.width.args st.va) st.out).1,
          va := argsAfter c (m.width.args st.va), mode := .text } := by
  have hpercent : step strs buffer_size st (ch '%') =
      { out := st.out, va := st.va, mode := .spec false Spec.start } := by
    simp [step, hmode]
  obtain ⟨out, va, mode⟩ := st
  have hbefore := Spec.start_shows.addAll m.before
  obtain ⟨digits, hwidth, hdigits⟩ := width_run strs buffer_size out va
    (m.before.foldl Spec.add Spec.start) m.width hbefore.padding
  have hshows := (hbefore.width (m.width.value va)).addAll m.after
  refine ⟨_, hshows, ?_⟩
  have hnzero : c ≠ ch '0' := by
    rintro rfl
    exact absurd hc (by decide)
  rw [Modifiers.format, Modifiers.chars, List.foldl_cons, hpercent, List.foldl_append,
    List.foldl_append, List.foldl_append, flags_run, hwidth, ← List.foldl_append]
  -- behind a number, what comes next is not a zero
  have hloop : (m.after.map Flag.char ++ [c]).foldl (step strs buffer_size)
        { out, va := m.width.args va,
          mode := .spec digits
            { m.before.foldl Spec.add Spec.start with padding := m.width.value va } } =
      (m.after.map Flag.char ++ [c]).foldl (step strs buffer_size)
        { out, va := m.width.args va,
          mode := .spec false
            { m.before.foldl Spec.add Spec.start with padding := m.width.value va } } := by
    cases digits with
    | false => rfl
    | true =>
      obtain ⟨n, pos, fits, hw⟩ := hdigits rfl
      have hapart := m.apart n pos fits hw
      cases hafter : m.after with
      | nil => exact step_digits strs buffer_size out _ _ hnzero
      | cons f fs =>
        rw [hafter] at hapart
        have hf : f.char ≠ ch '0' := by
          cases f with
          | zero => exact absurd rfl hapart
          | sharp => decide
          | long => decide
        rw [List.map_cons, List.cons_append, List.foldl_cons, List.foldl_cons,
          step_digits strs buffer_size out _ _ hf]
  rw [hloop, List.foldl_append, flags_run]
  exact step_convert strs buffer_size out _ false _ hc

end

end elf_loader.lib
