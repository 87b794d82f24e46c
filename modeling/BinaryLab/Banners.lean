-- The banners of the debug output (`_print_mark`, `mprint_start_fmt` and
-- `mprint_end` of rtld/lib.c). A banner is put together in a buffer of 82
-- bytes, and the room in it is for the indentation and the title together.
import BinaryLab.PrintfSafety
import BinaryLab.Runs

set_option linter.style.nameCheck false

open binary_lab.runs binary_lab.words binary_lab.texts

namespace elf_loader.lib

abbrev MARK_SIZE : Nat := 80
abbrev DEBUG_INDENT : Int := 2

/-- `sizeof(mark)`. -/
abbrev sizeofMark : Nat := MARK_SIZE + 2

/-! ## The buffer -/

/-- The memory around `mark`, and the places of the stores so far, counted from `mark` on. -/
structure Mark where
  bytes : Int → Byte
  stores : List Int

def Mark.store (m : Mark) (i : Int) (c : Byte) : Mark where
  bytes := Function.update m.bytes i c
  stores := m.stores ++ [i]

/-- Stores of one character after the other, from place `p` on. -/
def put_all (p : Int) : List Byte → Mark → Mark
  | [], m => m
  | c :: cs, m => put_all (p + 1) cs (m.store p c)

/-- `memset(mark, c, n)`. -/
def memset (c : Byte) (n : Nat) (m : Mark) : Mark := put_all 0 (List.replicate n c) m

/-- The two last bytes: the end of the line, and the NUL. -/
def end_mark (m : Mark) : Mark :=
  (m.store (sizeofMark - 2) (ch '\n')).store (sizeofMark - 1) 0

/-- `_print_mark`: the buffer as `dputs` gets it, and `debug_indent` after it. -/
def _print_mark (stack : Int → Byte) (str : List Byte) (debug_indent : Int) :
    Except Stop (Mark × Int) := do
  let indent := asInt (debug_indent * DEBUG_INDENT)
  -- the comparison is one of `size_t`
  assert (decide (BitVec.ofInt 64 indent < BitVec.ofNat 64 (sizeofMark - 3)))
    "indent < sizeof(mark)-3"
  let mark := memset (ch '=') sizeofMark { bytes := stack, stores := [] }
  let mark := memset (ch ' ') indent.toNat mark
  let mark := put_all (indent + 2) str mark
  let mark := mark.store (indent + str.length + 2) (ch ' ')
  let mark := mark.store (indent + 1) (ch ' ')
  .ok (end_mark mark, asInt (debug_indent + 1))

/-- The characters in front of the first NUL of a buffer of `n` bytes. -/
def chars (bytes : Int → Byte) (n : Nat) : List Byte :=
  ((List.range n).map fun i : Nat => bytes i).takeWhile (· ≠ 0)

/-- `mprint_start_fmt`. If the format does not end at a NUL, it is read on
behind its bytes. -/
def mprint_start_fmt (strs : Addr → CString) (stack buffer : Int → Byte) (format : List Byte)
    (va : VaList) (debug_indent : Int) : Except Stop (Mark × Int) :=
  match dvsprintf strs buffer MARK_SIZE format va with
  | (_, none) => .error .endless
  | (out, some _) => _print_mark stack (chars out.bytes MARK_SIZE) debug_indent

/-- `mprint_end`. -/
def mprint_end (stack : Int → Byte) (debug_indent : Int) : Mark × Int :=
  let debug_indent := asInt (debug_indent - 1)
  let debug_indent := if debug_indent < 0 then 0 else debug_indent
  let indent := asInt (debug_indent * DEBUG_INDENT)
  let mark := memset (ch ' ') sizeofMark { bytes := stack, stores := [] }
  let mark := put_all indent [ch '-', ch '-', ch '\n', 0] mark
  (end_mark mark, debug_indent)

/-! ## The stores -/

/-- All stores are in the buffer. -/
def Mark.Inside (m : Mark) : Prop := ∀ i ∈ m.stores, 0 ≤ i ∧ i < sizeofMark

instance (m : Mark) : Decidable m.Inside := inferInstanceAs (Decidable (∀ i ∈ _, _))

/-- The text in the buffer ends in it. -/
def Mark.Terminated (m : Mark) : Prop := ∃ n : Nat, n < sizeofMark ∧ m.bytes n = 0

section

variable {m : Mark}

theorem Mark.store_inside {i : Int} {c : Byte} :
    (m.store i c).Inside ↔ m.Inside ∧ 0 ≤ i ∧ i < sizeofMark := by
  simp only [Mark.Inside, Mark.store]
  exact List.forall_mem_append.trans (and_congr_right' List.forall_mem_singleton)

theorem put_all_inside {p : Int} {cs : List Byte} :
    (put_all p cs m).Inside ↔ m.Inside ∧ (cs ≠ [] → 0 ≤ p ∧ p + cs.length ≤ sizeofMark) := by
  induction cs generalizing p m with
  | nil => simp [put_all]
  | cons c cs ih =>
    rw [put_all, ih, Mark.store_inside, and_assoc]
    apply and_congr_right'
    cases cs with
    | nil =>
      simp only [ne_eq, not_true_eq_false, reduceCtorEq, not_false_eq_true, List.length_cons,
        List.length_nil, Int.natCast_add, Int.natCast_one, forall_const]
      omega
    | cons c' cs =>
      simp only [ne_eq, reduceCtorEq, not_false_eq_true, List.length_cons, Int.natCast_add,
        Int.natCast_one, forall_const]
      omega

theorem end_mark_inside : (end_mark m).Inside ↔ m.Inside := by
  rw [end_mark, Mark.store_inside, Mark.store_inside]
  simp

theorem end_mark_terminated : (end_mark m).Terminated :=
  ⟨sizeofMark - 1, by decide, by simp [end_mark, Mark.store]⟩

/-- Filling the whole buffer is no store outside of it. -/
theorem memset_inside {c : Byte} {n : Nat} (h : n ≤ sizeofMark) :
    (memset c n m).Inside ↔ m.Inside := by
  rw [memset, put_all_inside, List.length_replicate]
  refine and_iff_left ?_
  intro _
  omega

end

/-! ## The indentation -/

theorem asInt_bounds (x : Int) : -2 ^ 31 ≤ asInt x ∧ asInt x < 2 ^ 31 :=
  ⟨BitVec.le_toInt _, BitVec.toInt_lt⟩

/-- An indentation below zero does not pass the check either. -/
theorem indent_check {indent : Int} (hlow : -2 ^ 31 ≤ indent) (hhigh : indent < 2 ^ 31) :
    BitVec.ofInt 64 indent < BitVec.ofNat 64 (sizeofMark - 3) ↔ 0 ≤ indent ∧ indent < 79 := by
  rw [BitVec.lt_def, BitVec.toNat_ofInt,
    show (BitVec.ofNat 64 (sizeofMark - 3)).toNat = 79 from rfl]
  omega

/-- What `_print_mark` does to its buffer. -/
theorem _print_mark.spec {stack : Int → Byte} {str : List Byte} {debug_indent d : Int}
    {mark : Mark} (h : _print_mark stack str debug_indent = .ok (mark, d)) :
    0 ≤ asInt (debug_indent * DEBUG_INDENT) ∧ asInt (debug_indent * DEBUG_INDENT) < 79 ∧
      d = asInt (debug_indent + 1) ∧
      (mark.Inside ↔ asInt (debug_indent * DEBUG_INDENT) + str.length + 2 < sizeofMark) ∧
      mark.Terminated := by
  obtain ⟨hlow, hhigh⟩ := asInt_bounds (debug_indent * DEBUG_INDENT)
  simp only [_print_mark, bind_eq_ok, assert_eq_ok, decide_eq_true_eq,
    indent_check hlow hhigh] at h
  generalize asInt (debug_indent * DEBUG_INDENT) = indent at h
  obtain ⟨_, ⟨hpos, hlt⟩, hok⟩ := h
  cases hok
  refine ⟨hpos, hlt, rfl, ?_, end_mark_terminated⟩
  rw [end_mark_inside, Mark.store_inside, Mark.store_inside, put_all_inside,
    memset_inside (show indent.toNat ≤ 82 by omega), memset_inside (Nat.le_refl _)]
  -- of the last two places the one behind the title is the higher one
  constructor
  · rintro ⟨⟨_, _, hlast⟩, _⟩
    exact hlast
  · intro hlast
    refine ⟨⟨⟨fun _ hi => absurd hi List.not_mem_nil, fun _ => ?_⟩, ?_⟩, ?_⟩
    · omega
    · omega
    · omega

/-! ## The title -/

/-- The title of a banner: what the format gives, as far as there is room for it, up to the
first NUL. -/
def titleOf (strs : Addr → CString) (format : List Byte) (va : VaList) : List Byte :=
  (render (MARK_SIZE - 1) (formatPieces strs format va)).takeWhile (· ≠ 0)

theorem takeWhile_append_stop {α : Type} {p : α → Bool} {x : α} (hx : p x = false)
    (l r : List α) : (l ++ x :: r).takeWhile p = l.takeWhile p := by
  induction l with
  | nil => simp [hx]
  | cons y l ih =>
    rw [List.cons_append, List.takeWhile_cons, List.takeWhile_cons, ih]

/-- `_print_mark` gets the title. -/
theorem chars_dvsprintf {strs : Addr → CString} {buffer : Int → Byte} {format : List Byte}
    {va : VaList} {value : Int}
    (h : (dvsprintf strs buffer MARK_SIZE format va).2 = some value) :
    chars (dvsprintf strs buffer MARK_SIZE format va).1.bytes MARK_SIZE =
      titleOf strs format va := by
  obtain ⟨hwritten, hvalue⟩ := @dvsprintf.spec strs buffer MARK_SIZE format va (by decide)
  have htext := @dvsprintf.text strs buffer MARK_SIZE format va (by decide)
  obtain ⟨_, hnul⟩ := hvalue value h
  have hroom := hwritten.valid.size
  generalize (dvsprintf strs buffer MARK_SIZE format va).1 = out at *
  obtain ⟨rest, hrest⟩ := Nat.exists_eq_add_of_le hroom
  have hrange : (List.range MARK_SIZE).map (fun i : Nat => out.bytes i) =
      out.text ++ 0 :: (List.range rest).map fun i : Nat =>
        out.bytes ((out.current_size + 1 + i : Nat) : Int) := by
    rw [hrest, List.range_add, List.range_succ, List.map_append, List.map_append, List.map_map,
      List.append_assoc, List.map_singleton, hnul]
    rfl
  rw [chars, hrange, takeWhile_append_stop (by simp), htext, titleOf]

/-- The banner that is printed is that of the title. -/
theorem mprint_start_fmt.spec {strs : Addr → CString} {stack buffer : Int → Byte}
    {format : List Byte} {va : VaList} {debug_indent : Int} {r : Mark × Int}
    (h : mprint_start_fmt strs stack buffer format va debug_indent = .ok r) :
    _print_mark stack (titleOf strs format va) debug_indent = .ok r := by
  have hchars := @chars_dvsprintf strs buffer format va
  unfold mprint_start_fmt at h
  generalize dvsprintf strs buffer MARK_SIZE format va = run at h hchars
  obtain ⟨out, _ | value⟩ := run
  · cases h
  · rw [← hchars rfl]
    exact h

/-- A title is cut where the room for it ends. -/
theorem titleOf_length (strs : Addr → CString) (format : List Byte) (va : VaList) :
    (titleOf strs format va).length ≤ MARK_SIZE - 1 :=
  calc (titleOf strs format va).length
      ≤ (render (MARK_SIZE - 1) (formatPieces strs format va)).length :=
        (List.takeWhile_prefix _).length_le
    _ ≤ MARK_SIZE - 1 := by
        rw [render_length]
        exact Nat.min_le_left _ _

/-- A banner stays inside its buffer exactly if there is room for the indentation, the title
and the two characters in front of it. -/
theorem a_banner_stays_in_its_buffer_iff_there_is_room (strs : Addr → CString)
    (stack buffer : Int → Byte) (format : List Byte) (va : VaList) (debug_indent d : Int)
    (mark : Mark)
    (h : mprint_start_fmt strs stack buffer format va debug_indent = .ok (mark, d)) :
    (titleOf strs format va).length ≤ MARK_SIZE - 1 ∧
      (mark.Inside ∧ mark.Terminated ↔
        asInt (debug_indent * DEBUG_INDENT) + (titleOf strs format va).length + 2 <
          sizeofMark) := by
  obtain ⟨_, _, _, hinside, hterminated⟩ := _print_mark.spec (mprint_start_fmt.spec h)
  exact ⟨titleOf_length strs format va, (and_iff_left hterminated).trans hinside⟩

/-- The format of `parse_dynamic`. -/
def dynamicInfo : List Byte := (CString.lit "DYNAMIC INFO (%s)".toList).bytes ++ [0]

/-- Every pointer points at a path of `n` characters. -/
def pathOf (n : Nat) : Addr → CString := fun _ => CString.lit (List.replicate n 'a')

/-- At depth 1, a path of 62 characters leaves no room, and there are no stores outside. -/
theorem a_banner_with_a_path_fits :
    ∃ mark d, mprint_start_fmt (pathOf 62) (fun _ => 0) (fun _ => 0) dynamicInfo (fun _ => 1) 1 =
        .ok (mark, d) ∧ mark.Inside ∧ mark.Terminated := by
  have hrun : (mprint_start_fmt (pathOf 62) (fun _ => 0) (fun _ => 0) dynamicInfo (fun _ => 1)
      1).isOk = true := by
    decide +kernel
  cases hbanner : mprint_start_fmt (pathOf 62) (fun _ => 0) (fun _ => 0) dynamicInfo
      (fun _ => 1) 1 with
  | error e =>
    rw [hbanner] at hrun
    cases hrun
  | ok r =>
    obtain ⟨mark, d⟩ := r
    obtain ⟨_, hroom⟩ := a_banner_stays_in_its_buffer_iff_there_is_room _ _ _ _ _ _ _ _ hbanner
    exact ⟨mark, d, rfl, hroom.mpr (by decide +kernel)⟩

/-- At depth 1, with a path of 63 characters, the blank behind the title is stored behind the
buffer. -/
theorem a_banner_with_a_long_path_does_not_fit :
    ∃ mark d, mprint_start_fmt (pathOf 63) (fun _ => 0) (fun _ => 0) dynamicInfo (fun _ => 1) 1 =
        .ok (mark, d) ∧ ¬ mark.Inside := by
  have hrun : (mprint_start_fmt (pathOf 63) (fun _ => 0) (fun _ => 0) dynamicInfo (fun _ => 1)
      1).toOption.map (fun r => decide r.1.Inside) = some false := by
    decide +kernel
  cases hbanner : mprint_start_fmt (pathOf 63) (fun _ => 0) (fun _ => 0) dynamicInfo
      (fun _ => 1) 1 with
  | error e =>
    rw [hbanner] at hrun
    cases hrun
  | ok r =>
    rw [hbanner] at hrun
    exact ⟨r.1, r.2, rfl, of_decide_eq_false (Option.some.inj hrun)⟩

/-! ## Nested banners -/

/-- The values of `debug_indent` that a run of the loader meets. -/
inductive Nested : Int → Prop
  | start : Nested 0
  | inner {strs : Addr → CString} {stack buffer : Int → Byte} {format : List Byte} {va : VaList}
      {debug_indent d : Int} {mark : Mark} (h : Nested debug_indent)
      (hstart : mprint_start_fmt strs stack buffer format va debug_indent = .ok (mark, d)) :
      Nested d
  | outer {stack : Int → Byte} {debug_indent : Int} (h : Nested debug_indent) :
      Nested (mprint_end stack debug_indent).2

theorem asInt_of_small {x : Int} (hlow : -100 ≤ x) (hhigh : x ≤ 100) : asInt x = x := by
  rw [asInt, BitVec.toInt_ofInt]
  exact Int.bmod_eq_of_le (by omega) (by omega)

/-- Two blanks for each banner around. -/
theorem indent_of_depth {debug_indent : Int} (hlow : 0 ≤ debug_indent)
    (hhigh : debug_indent ≤ 40) : asInt (debug_indent * DEBUG_INDENT) = 2 * debug_indent := by
  rw [DEBUG_INDENT, asInt_of_small (by omega) (by omega)]
  omega

/-- `debug_indent` after an end mark. -/
theorem mprint_end_depth (stack : Int → Byte) {debug_indent : Int} (hlow : 0 ≤ debug_indent)
    (hhigh : debug_indent ≤ 40) :
    0 ≤ (mprint_end stack debug_indent).2 ∧ (mprint_end stack debug_indent).2 ≤ 39 := by
  have hless := asInt_of_small (x := debug_indent - 1) (by omega) (by omega)
  simp only [mprint_end, hless]
  split_ifs
  · decide
  · omega

/-- The check keeps the depth small, and with it the end mark always has room. -/
theorem Nested.depth {debug_indent : Int} (h : Nested debug_indent) :
    0 ≤ debug_indent ∧ debug_indent ≤ 40 := by
  induction h with
  | start => decide
  | inner _ hstart ih =>
    obtain ⟨_, hcheck, rfl, _⟩ := _print_mark.spec (mprint_start_fmt.spec hstart)
    rw [indent_of_depth ih.1 ih.2] at hcheck
    rw [asInt_of_small (by omega) (by omega)]
    omega
  | @outer stack _ _ ih =>
    obtain ⟨hlow, hhigh⟩ := mprint_end_depth stack ih.1 ih.2
    exact ⟨hlow, by omega⟩

theorem an_end_mark_stays_in_its_buffer (stack : Int → Byte) (debug_indent : Int)
    (h : Nested debug_indent) :
    (mprint_end stack debug_indent).1.Inside ∧ (mprint_end stack debug_indent).1.Terminated := by
  obtain ⟨hlow, hhigh⟩ := h.depth
  obtain ⟨hzero, hlt⟩ := mprint_end_depth stack hlow hhigh
  have hindent := indent_of_depth hzero (by omega)
  refine ⟨?_, end_mark_terminated⟩
  simp only [mprint_end] at hzero hlt hindent ⊢
  rw [end_mark_inside, put_all_inside, memset_inside (Nat.le_refl _), hindent]
  refine ⟨fun _ hi => absurd hi List.not_mem_nil, fun _ => ?_⟩
  simp only [List.length_cons, List.length_nil, sizeofMark, MARK_SIZE]
  omega

end elf_loader.lib
