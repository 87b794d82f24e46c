-- What `dvsprintf` touches: it stores in its buffer only, and it reads its
-- format to the NUL, unless the format ends in the middle of a conversion.
import BinaryLab.Rendering

set_option linter.style.nameCheck false

open binary_lab.words binary_lab.texts

namespace elf_loader.lib

/-! ## The end of the format -/

/-- The character `c` takes the parser into a conversion, or leaves it there:
`%` does in the text, and behind `%` a digit or one of `*`, `#` and `l`. -/
def behindPercent (inside : Bool) (c : Byte) : Bool :=
  if inside then isdigit c || c == ch '*' || c == ch '#' || c == ch 'l' else c == ch '%'

/-- The format ends in the middle of a conversion. -/
def Unfinished (format : CString) : Prop := format.bytes.foldl behindPercent false = true

instance (format : CString) : Decidable (Unfinished format) :=
  inferInstanceAs (Decidable (_ = true))

section

variable (strs : Addr → CString) (buffer_size : Nat)

theorem isdigit_zero : isdigit (ch '0') = true := by decide

theorem modifier_isSome (digits : Bool) (s : Spec) (va : VaList) (c : Byte) :
    (modifier digits s va c).isSome = behindPercent true c := by
  rw [modifier, behindPercent, if_pos rfl]
  by_cases hzero : c = ch '0'
  · rw [hzero, isdigit_zero]
    split_ifs <;> simp_all
  · split_ifs <;> simp_all

theorem modifier_mode {digits : Bool} {s : Spec} {va va' : VaList} {c : Byte} {mode : Mode}
    (h : modifier digits s va c = some (mode, va')) : mode.isText = false := by
  unfold modifier at h
  split_ifs at h <;> cases h <;> rfl

/-- Where the parser is after one character. -/
theorem step_isText (st : State) (c : Byte) :
    (step strs buffer_size st c).mode.isText = !behindPercent (!st.mode.isText) c := by
  unfold step
  cases hmode : st.mode with
  | text =>
    by_cases hc : c = ch '%'
    · simp [hc, Mode.isText, behindPercent]
    · simp [hc, Mode.isText, behindPercent]
  | spec digits s =>
    have hsome := modifier_isSome digits s st.va c
    simp only [Mode.isText, Bool.not_false]
    cases hnext : modifier digits s st.va c with
    | some next =>
      rw [hnext] at hsome
      rw [← hsome]
      exact modifier_mode hnext
    | none =>
      rw [hnext] at hsome
      rw [← hsome]
      rfl

/-- Over characters other than the NUL, the parser goes on. -/
theorem fmt_loop_append (st : State) {fmt : List Byte} (hfmt : 0 ∉ fmt) (rest : List Byte) :
    fmt_loop strs buffer_size st (fmt ++ rest) =
      fmt_loop strs buffer_size (fmt.foldl (step strs buffer_size) st) rest := by
  induction fmt generalizing st with
  | nil => rfl
  | cons c fmt ih =>
    rw [List.mem_cons, not_or] at hfmt
    rw [List.cons_append, fmt_loop, if_neg (fun h => hfmt.1 h.2.symm), ih _ hfmt.2]
    rfl

/-- Where the parser is after some characters. -/
theorem foldl_isText (st : State) (fmt : List Byte) :
    (fmt.foldl (step strs buffer_size) st).mode.isText =
      !fmt.foldl behindPercent (!st.mode.isText) := by
  induction fmt generalizing st with
  | nil => simp
  | cons c fmt ih => rw [List.foldl_cons, ih, step_isText, Bool.not_not, List.foldl_cons]

/-- The bytes behind a NUL that ends the loop are fewer than there were. -/
theorem fmt_loop_rest {st : State} {fmt rest : List Byte}
    (h : (fmt_loop strs buffer_size st fmt).2 = some rest) : rest.length < fmt.length := by
  induction fmt generalizing st with
  | nil => cases h
  | cons c fmt ih =>
    rw [fmt_loop] at h
    split_ifs at h
    · cases h
      exact Nat.lt_succ_self _
    · exact Nat.lt_succ_of_lt (ih h)

/-- The NUL of the format ends the loop exactly if the parser is in the text there. -/
theorem fmt_loop_stops (st : State) {fmt : List Byte} (hfmt : 0 ∉ fmt) (rest : List Byte) :
    (fmt_loop strs buffer_size st (fmt ++ 0 :: rest)).2 = some rest ↔
      fmt.foldl behindPercent (!st.mode.isText) = false := by
  have hmode := foldl_isText strs buffer_size st fmt
  rw [fmt_loop_append strs buffer_size st hfmt, fmt_loop]
  generalize fmt.foldl (step strs buffer_size) st = st' at hmode ⊢
  by_cases htext : st'.mode.isText = true
  · rw [if_pos ⟨htext, rfl⟩]
    rw [htext] at hmode
    simpa using hmode.symm
  · rw [if_neg (fun h => htext h.1)]
    rw [Bool.not_eq_true] at htext
    rw [htext] at hmode
    have hinside : fmt.foldl behindPercent (!st.mode.isText) = true := by simpa using hmode.symm
    rw [hinside]
    refine iff_of_false ?_ (by decide)
    intro hrest
    exact Nat.lt_irrefl _ (fmt_loop_rest strs buffer_size hrest)

end

/-- The loop ends at the NUL of the format, with nothing read behind it,
exactly if the format does not end in the middle of a conversion. -/
theorem dvsprintf_stops_at_the_nul_iff_no_conversion_is_cut (strs : Addr → CString)
    (bytes : Int → Byte) (buffer_size : Nat) (format : CString) (va : VaList)
    (rest : List Byte) :
    (fmt_loop strs buffer_size { out := Out.start bytes, va, mode := .text }
      (format.bytes ++ 0 :: rest)).2 = some rest ↔ ¬Unfinished format := by
  rw [fmt_loop_stops strs buffer_size _ format.no_nul, Unfinished, Bool.not_eq_true]
  rfl

example : Unfinished (CString.lit "100%".toList) ∧ Unfinished (CString.lit "%08l".toList) ∧
    ¬Unfinished (CString.lit "%d%%".toList) := by
  decide

/-- A percent sign at the end of the format takes the loop over the NUL, into
what lies behind it. -/
theorem dvsprintf_steps_over_the_nul_behind_a_percent_sign :
    let format := CString.lit "%".toList
    let loop := fmt_loop (fun _ => CString.lit []) 16
      { out := Out.start fun _ => 0, va := fun _ => 0, mode := .text }
      (format.bytes ++ 0 :: [ch 'A', 0, ch 'B'])
    loop.2 = some [ch 'B'] ∧ loop.1.out.text = [0, ch 'A'] := by
  decide +kernel

/-! ## The stores -/

section

variable {strs : Addr → CString} {bytes : Int → Byte} {buffer_size : Nat} {format : List Byte}
  {va : VaList}

/-- The number of characters in front of the NUL. -/
theorem dvsprintf.size (hsize : 1 ≤ buffer_size) :
    (dvsprintf strs bytes buffer_size format va).1.current_size =
      min (buffer_size - 1) (fullSize (formatPieces strs format va)) := by
  rw [← Out.text_length, dvsprintf.text hsize, render_length]

/-- A format that ends at a NUL gives a value. -/
theorem dvsprintf.value_of_stop {rest : List Byte}
    (h : (fmt_loop strs buffer_size { out := Out.start bytes, va, mode := .text } format).2 =
      some rest) :
    ∃ value, (dvsprintf strs bytes buffer_size format va).2 = some value := by
  unfold dvsprintf
  generalize fmt_loop strs buffer_size { out := Out.start bytes, va, mode := .text } format = r
    at h
  obtain ⟨st, rest'⟩ := r
  cases h
  exact ⟨_, rfl⟩

theorem asInt_of_lt {n : Nat} (h : n < 2 ^ 31) : asInt n = n := by
  rw [asInt, BitVec.toInt_ofInt]
  exact Int.bmod_eq_of_le (by omega) (by omega)

end

/-- All stores are in the buffer, with the cursor in it, too, and the NUL is
at the cursor. The value that is returned is its place, if an `int` can hold it. -/
theorem dvsprintf_stays_in_its_buffer (strs : Addr → CString) (bytes : Int → Byte)
    (buffer_size : Nat) (format : List Byte) (va : VaList) (hsize : 1 ≤ buffer_size) :
    let run := dvsprintf strs bytes buffer_size format va
    run.1.Valid buffer_size ∧
      (∀ i : Int, i < 0 ∨ buffer_size ≤ i → run.1.bytes i = bytes i) ∧
      ∀ value, run.2 = some value →
        run.1.bytes run.1.current_size = 0 ∧
          (min (buffer_size - 1) (fullSize (formatPieces strs format va)) < 2 ^ 31 →
            value = run.1.current_size ∧ run.1.bytes value = 0 ∧ value ≤ buffer_size - 1) := by
  intro run
  obtain ⟨hwritten, hvalue⟩ := @dvsprintf.spec strs bytes buffer_size format va hsize
  have hroom : run.1.current_size + 1 ≤ buffer_size := hwritten.valid.size
  refine ⟨hwritten.valid, hwritten.outside, ?_⟩
  intro value hrun
  obtain ⟨hasInt, hnul⟩ := hvalue value hrun
  refine ⟨hnul, ?_⟩
  intro hfits
  have hplace : value = run.1.current_size := by
    rw [hasInt]
    apply asInt_of_lt
    rw [dvsprintf.size hsize]
    exact hfits
  refine ⟨hplace, ?_, ?_⟩
  · rw [hplace]
    exact hnul
  · rw [hplace]
    omega

/-- Five digits in a buffer of four bytes. -/
theorem dvsprintf_of_a_long_number_stays_in_its_buffer :
    let run := dvsprintf (fun _ => CString.lit []) (fun _ => 1) 4
      ((CString.lit "%d".toList).bytes ++ [0]) (fun _ => 12345)
    run.1.Valid 4 ∧ run.2 = some 3 ∧ run.1.bytes 3 = 0 := by
  intro run
  obtain ⟨hvalid, _, hvalue⟩ := dvsprintf_stays_in_its_buffer (fun _ => CString.lit [])
    (fun _ => 1) 4 ((CString.lit "%d".toList).bytes ++ [0]) (fun _ => 12345) (by decide)
  have hrun : run.2 = some 3 := by decide +kernel
  have hplace := (hvalue 3 hrun).2 (Nat.lt_of_le_of_lt (Nat.min_le_left _ _) (by decide))
  exact ⟨hvalid, hrun, hplace.2.1⟩

/-- The format is `%*dA`, the width is 0x7fffffff and the number is 0. -/
def wideFormat : List Byte := (CString.lit "%*dA".toList).bytes ++ [0]

def wideArgs : VaList := fun n => if n = 0 then 0x7fffffff else 0

/-- The number 0 has one digit, and the rest of its field is padding. -/
theorem field_d_zero_length (padding : Int) :
    (field_d 0 padding).length = 1 + (asInt (padding - 1)).toNat := by
  rw [field_d, digitsPut]
  simp [paddingFor, countDown, Nat.add_comm]

theorem wideFormat_size (strs : Addr → CString) :
    fullSize (formatPieces strs wideFormat wideArgs) = 2 ^ 31 := by
  have hpieces : formatPieces strs wideFormat wideArgs =
      [.field (field_d 0 0x7fffffff), .plain [ch 'A']] := rfl
  have hfield : (field_d 0 0x7fffffff).length = 0x7fffffff := by
    rw [field_d_zero_length]
    decide
  rw [hpieces, fullSize_cons, fullSize_cons, fullSize_nil, Piece.size, Piece.size, hfield]
  rfl

/-- With 2^31 characters in the buffer, the value is negative, and it is not
the place of the NUL. -/
theorem dvsprintf_returns_a_negative_value_for_too_long_a_text :
    let run := dvsprintf (fun _ => CString.lit []) (fun _ => 1) (2 ^ 31 + 1) wideFormat wideArgs
    run.2 = some (-2147483648) ∧ run.1.bytes (-2147483648) = 1 := by
  have hsize : 1 ≤ 2 ^ 31 + 1 := by decide
  intro run
  obtain ⟨hwritten, hvalue⟩ := @dvsprintf.spec (fun _ => CString.lit []) (fun _ => 1)
    (2 ^ 31 + 1) wideFormat wideArgs hsize
  have hcount : run.1.current_size = 2 ^ 31 := by
    rw [dvsprintf.size hsize, wideFormat_size]
    rfl
  have hstop : (fmt_loop (fun _ => CString.lit []) (2 ^ 31 + 1)
      { out := Out.start fun _ => 1, va := wideArgs, mode := .text } wideFormat).2 = some [] := by
    rw [wideFormat, fmt_loop_stops _ _ _ (CString.no_nul _)]
    decide
  obtain ⟨value, hrun⟩ := dvsprintf.value_of_stop hstop
  constructor
  · rw [hrun, (hvalue value hrun).1, hcount]
    decide
  · exact hwritten.outside _ (Or.inl (by decide))

end elf_loader.lib
