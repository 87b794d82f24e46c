-- What `dvsprintf` leaves in its buffer: the pieces of the text, rendered
-- with the room that there is. Every store on the way is in the buffer.
import BinaryLab.Printf
import Mathlib.Algebra.Ring.Int.Defs

set_option linter.style.nameCheck false

open binary_lab.words binary_lab.texts

namespace elf_loader.lib

/-! ## The output in order -/

/-- The characters up to the cursor. -/
def Out.text (o : Out) : List Byte := (List.range o.current_size).map fun i : Nat => o.bytes i

/-- The store is in the buffer, and the cursor after it is, too. -/
structure Store.InBuffer (buffer_size : Nat) (s : Store) : Prop where
  lower : 0 ≤ s.index
  upper : s.index < buffer_size
  pos : s.current_pos = s.current_size
  size : s.current_size + 1 ≤ buffer_size

/-- The cursor is in the buffer, and so were all stores. -/
structure Out.Valid (buffer_size : Nat) (o : Out) : Prop where
  pos : o.current_pos = o.current_size
  size : o.current_size + 1 ≤ buffer_size
  stores : ∀ s ∈ o.stores, s.InBuffer buffer_size

/-- From `o` to `o'`, the pieces have been put behind the text with the room
that was left, and the memory around the buffer is as it was. -/
structure Written (buffer_size : Nat) (o o' : Out) (ps : List (Piece Byte)) : Prop where
  valid : o'.Valid buffer_size
  text : o'.text = o.text ++ render (buffer_size - 1 - o.current_size) ps
  outside : ∀ i : Int, i < 0 ∨ buffer_size ≤ i → o'.bytes i = o.bytes i

def Writes (buffer_size : Nat) (o o' : Out) (ps : List (Piece Byte)) : Prop :=
  o.Valid buffer_size → Written buffer_size o o' ps

section

variable {buffer_size : Nat} {o o' o'' : Out} {ps qs : List (Piece Byte)} {c : Byte}
  {cs : List Byte}

theorem Out.text_length (o : Out) : o.text.length = o.current_size := by simp [Out.text]

theorem Writes.refl (buffer_size : Nat) (o : Out) : Writes buffer_size o o [] := by
  intro hv
  exact ⟨hv, by simp [render], fun _ _ => rfl⟩

theorem Writes.size (h : Writes buffer_size o o' ps) (hv : o.Valid buffer_size) :
    o'.current_size = o.current_size + min (buffer_size - 1 - o.current_size) (fullSize ps) := by
  rw [← o'.text_length, (h hv).text, List.length_append, o.text_length, render_length]

theorem Writes.trans (h : Writes buffer_size o o' ps) (h' : Writes buffer_size o' o'' qs) :
    Writes buffer_size o o'' (ps ++ qs) := by
  intro hv
  obtain ⟨hv', htext', hout'⟩ := h hv
  obtain ⟨hv'', htext'', hout''⟩ := h' hv'
  have hroom : buffer_size - 1 - o'.current_size =
      buffer_size - 1 - o.current_size - fullSize ps := by
    rw [h.size hv]
    omega
  refine ⟨hv'', by rw [htext'', htext', render_append, hroom, List.append_assoc], ?_⟩
  intro i hi
  exact (hout'' i hi).trans (hout' i hi)

/-- Only what is rendered of the pieces matters. -/
theorem Writes.congr (h : Writes buffer_size o o' ps) (heq : ∀ k, render k ps = render k qs) :
    Writes buffer_size o o' qs := by
  intro hv
  obtain ⟨hv', htext, hout⟩ := h hv
  exact ⟨hv', by rw [htext, heq], hout⟩

/-! ## Plain text -/

theorem Out.Valid.store {i : Int} (hv : o.Valid buffer_size) (hlower : 0 ≤ i)
    (hupper : i < buffer_size) : (o.store i c).Valid buffer_size := by
  refine ⟨hv.pos, hv.size, ?_⟩
  intro s hs
  rcases List.mem_append.mp hs with hs | hs
  · exact hv.stores s hs
  · rw [List.mem_singleton.mp hs]
    exact ⟨hlower, hupper, hv.pos, hv.size⟩

theorem PUT_writes (buffer_size : Nat) (c : Byte) (o : Out) :
    Writes buffer_size o (PUT buffer_size c o) [.plain [c]] := by
  intro hv
  unfold PUT
  by_cases hfull : o.current_size + 1 ≥ buffer_size
  · have hroom : buffer_size - 1 - o.current_size = 0 := by omega
    rw [if_pos hfull]
    exact ⟨hv, by simp [hroom, render], fun _ _ => rfl⟩
  · have hroom : buffer_size - 1 - o.current_size ≠ 0 := by omega
    rw [if_neg hfull]
    have hmoved : Out.Valid buffer_size
        { o with current_pos := o.current_pos + 1, current_size := o.current_size + 1 } :=
      ⟨by have := hv.pos; simp only; omega, by simp only; omega, hv.stores⟩
    have hold : (List.range o.current_size).map
        (fun i : Nat => Function.update o.bytes (o.current_size : Int) c i) = o.text := by
      apply List.map_congr_left
      intro i hi
      have hi := List.mem_range.mp hi
      exact Function.update_of_ne (by omega) _ _
    have htake : [c].take (buffer_size - 1 - o.current_size) = [c] :=
      List.take_of_length_le (Nat.one_le_iff_ne_zero.mpr hroom)
    refine ⟨hmoved.store (by omega) (by omega), ?_, ?_⟩
    · simp only [Out.text, Out.store, List.range_succ, List.map_append, List.map_singleton, hold,
        Function.update_self]
      simp [render, htake]
    · intro i hi
      exact Function.update_of_ne (by omega) _ _

/-- The characters put one after the other. -/
def puts (buffer_size : Nat) (cs : List Byte) (o : Out) : Out :=
  cs.foldl (fun o c => PUT buffer_size c o) o

theorem puts_append (cs ds : List Byte) (o : Out) :
    puts buffer_size (cs ++ ds) o = puts buffer_size ds (puts buffer_size cs o) :=
  List.foldl_append

theorem puts_writes (buffer_size : Nat) (cs : List Byte) (o : Out) :
    Writes buffer_size o (puts buffer_size cs o) [.plain cs] := by
  induction cs generalizing o with
  | nil => exact (Writes.refl buffer_size o).congr fun k => by simp [render]
  | cons c cs ih =>
    refine ((PUT_writes buffer_size c o).trans (ih (PUT buffer_size c o))).congr ?_
    intro k
    have hsplit := render_plain k [[c], cs]
    have hwhole := render_plain k [c :: cs]
    simp only [List.map_cons, List.map_nil, List.flatten_cons, List.flatten_nil] at hsplit hwhole
    simpa using hsplit.trans (by simpa using hwhole.symm)

/-! ## Fields -/

theorem reverse_frame (s t : Int) (o : Out) :
    (reverse s t o).current_pos = o.current_pos ∧
      (reverse s t o).current_size = o.current_size ∧
      (reverse s t o).bytes = swapEnds o.bytes s t := by
  induction s, t, o using reverse.induct with
  | case1 s t o hlt tmp o1 o2 ih =>
    rw [reverse, if_pos hlt, swapEnds, if_pos hlt]
    refine ⟨ih.1, ih.2.1, ih.2.2⟩
  | case2 s t o hge =>
    rw [reverse, if_neg hge, swapEnds, if_neg hge]
    exact ⟨rfl, rfl, rfl⟩

theorem reverse_valid {s t : Int} (hv : o.Valid buffer_size) (hs : 0 ≤ s) (ht : t < buffer_size) :
    (reverse s t o).Valid buffer_size := by
  induction s, t, o using reverse.induct with
  | case1 s t o hlt tmp o1 o2 ih =>
    rw [reverse, if_pos hlt]
    have hv1 : o1.Valid buffer_size := hv.store (by omega) ht
    exact ih (hv1.store hs (by omega)) (by omega) (by omega)
  | case2 s t o hge =>
    rw [reverse, if_neg hge]
    exact hv

/-- Characters that are put and then reversed are a field. -/
theorem reverse_writes (buffer_size : Nat) (cs : List Byte) (o : Out) :
    Writes buffer_size o
      (reverse o.current_pos ((puts buffer_size cs o).current_pos - 1) (puts buffer_size cs o))
      [.field cs] := by
  intro hv
  have hputs := puts_writes buffer_size cs o
  obtain ⟨hv', htext, hout⟩ := hputs hv
  have hsize := hputs.size hv
  generalize puts buffer_size cs o = o' at hv' htext hout hsize
  obtain ⟨_, hcount, hbytes⟩ := reverse_frame o.current_pos (o'.current_pos - 1) o'
  have hupper := hv'.size
  have hpos := hv.pos
  have hpos' := hv'.pos
  have hstart : (List.range o.current_size).map (fun i : Nat => o'.bytes i) = o.text := by
    have htake := congrArg (List.take o.current_size) htext
    rw [List.take_left' o.text_length, Out.text, ← List.map_take, List.take_range,
      Nat.min_eq_left (by omega)] at htake
    exact htake
  refine ⟨reverse_valid hv' (by omega) (by omega), ?_, ?_⟩
  · rw [Out.text, hcount, hbytes, hpos, hpos', map_swapEnds o'.bytes (by omega), hstart]
    rw [Out.text] at htext
    rw [htext, List.drop_left' o.text_length]
    simp [render]
  · intro i hi
    rw [hbytes, swapEnds_apply, if_neg (by omega)]
    exact hout i hi

end

/-! ## The pieces of a conversion -/

/-- The width that is left after `n` characters. -/
def countDown (padding : Int) : Nat → Int
  | 0 => padding
  | n + 1 => countDown (asInt (padding - 1)) n

/-- The padding behind the characters `cs`. -/
def paddingFor (c : Byte) (padding : Int) (cs : List Byte) : List Byte :=
  List.replicate (countDown padding cs.length).toNat c

theorem countDown_eq {padding : Int} {n : Nat} (hlow : -2 ^ 31 ≤ padding - n)
    (hhigh : padding < 2 ^ 31) : countDown padding n = padding - n := by
  induction n generalizing padding with
  | zero => simp [countDown]
  | succ n ih =>
    have hone : asInt (padding - 1) = padding - 1 :=
      BitVec.toInt_ofInt_eq_self (by decide) (by omega) (by omega)
    rw [countDown, hone, ih (by omega) (by omega)]
    omega

/-- With a width that is not negative, padding fills up to it. -/
theorem paddingFor_eq (c : Byte) {padding : Int} {cs : List Byte} (hlow : 0 ≤ padding)
    (hhigh : padding < 2 ^ 31) (hcs : cs.length < 2 ^ 31) :
    paddingFor c padding cs = List.replicate (padding.toNat - cs.length) c := by
  rw [paddingFor, countDown_eq (by omega) hhigh]
  congr 1
  omega

/-- The digits of a number in the order in which `put_digits` puts them. -/
def digitsPut (number : Int) : List Byte :=
  asChar (48 + number.tmod 10) ::
    if number.tdiv 10 ≠ 0 then digitsPut (number.tdiv 10) else []
termination_by number.natAbs
decreasing_by
  have hdiv : (number.tdiv 10).natAbs = number.natAbs / 10 := Int.natAbs_tdiv number 10
  omega

/-- The digits of a number in the order in which `put_hex` puts them. -/
def hexPut (size i : Nat) (n : BitVec 64) : List Byte :=
  hexChar (n &&& 0xf).toNat ::
    if i + 1 < size * 2 ∧ n >>> 4 ≠ 0 then hexPut size (i + 1) (n >>> 4) else []
termination_by size * 2 - i

def field_u (number padding : Int) : List Byte :=
  digitsPut number ++ paddingFor (ch ' ') padding (digitsPut number)

def field_d (number padding : Int) : List Byte :=
  let digits := digitsPut (if number < 0 then asLongLong (number * -1) else number)
  digits ++ ((if number < 0 then [ch '-'] else []) ++ paddingFor (ch ' ') padding digits)

def field_x (size : Nat) (fzero : Bool) (number padding : Int) : List Byte :=
  let digits := hexPut size 0 (BitVec.ofInt 64 number)
  digits ++ paddingFor (if fzero then ch '0' else ch ' ') padding digits

/-- What `#` puts in front of a hexadecimal number. -/
def hexPrefix (fsharp : Bool) : List Byte := if fsharp then [ch '0', ch 'x'] else []

/-- The pieces that the conversion `c` puts. -/
def piecesOf (strs : Addr → CString) (s : Spec) (c : Byte) (va : VaList) : List (Piece Byte) :=
  if c = ch 'p' then
    [.plain (hexPrefix true), .field (field_x 8 s.fzero (va_long va) s.padding)]
  else if c = ch 'P' then [.plain (hexPrefix true), .field (field_x 8 true (va_long va) 16)]
  else if c = ch 'd' then [.field (field_d (number s va) s.padding)]
  else if c = ch 'x' then
    [.plain (hexPrefix s.fsharp), .field (field_x s.size s.fzero (number s va) s.padding)]
  else if c = ch 'u' then [.field (field_u (number s va) s.padding)]
  else if c = ch 'c' then [.plain [asChar (va_int va)]]
  else if c = ch 's' then
    let str := (va_str strs va).bytes
    [.plain (str ++ paddingFor (ch ' ') s.padding str)]
  else [.plain [c]]

/-- The conversions that take an argument. -/
def argConversions : List Byte := [ch 'p', ch 'P', ch 'd', ch 'x', ch 'u', ch 'c', ch 's']

/-- The arguments behind those that the conversion `c` takes. -/
def argsAfter (c : Byte) (va : VaList) : VaList := if c ∈ argConversions then va.next else va

section

variable (buffer_size : Nat)

theorem put_padding_eq (c : Byte) (padding : Int) (o : Out) :
    put_padding buffer_size c padding o =
      puts buffer_size (List.replicate padding.toNat c) o := by
  rw [put_padding]
  generalize padding.toNat = n
  induction n generalizing o with
  | zero => rfl
  | succ n ih => exact ih (PUT buffer_size c o)

theorem put_digits_eq (number padding : Int) (o : Out) :
    put_digits buffer_size number padding o = (puts buffer_size (digitsPut number) o,
      countDown padding (digitsPut number).length) := by
  induction number, padding, o using put_digits.induct with
  | buffer_size => exact buffer_size
  | case1 number padding o o1 number' padding' hne ih =>
    rw [put_digits, digitsPut, if_pos hne, if_pos hne, ih]
    rfl
  | case2 number padding o number' hzero =>
    rw [put_digits, digitsPut, if_neg hzero, if_neg hzero]
    rfl

theorem put_hex_eq (size i : Nat) (n : BitVec 64) (padding : Int) (o : Out) :
    put_hex buffer_size size i n padding o = (puts buffer_size (hexPut size i n) o,
      countDown padding (hexPut size i n).length) := by
  induction i, n, padding, o using put_hex.induct with
  | buffer_size => exact buffer_size
  | size => exact size
  | case1 i n padding o o1 n' padding' hmore ih =>
    rw [put_hex, hexPut, if_pos hmore, if_pos hmore, ih]
    rfl
  | case2 i n padding o n' hdone =>
    rw [put_hex, hexPut, if_neg hdone, if_neg hdone]
    rfl

theorem put_str_eq (str : List Byte) (padding : Int) (o : Out) :
    put_str buffer_size str padding o = (puts buffer_size str o, countDown padding str.length) := by
  induction str generalizing padding o with
  | nil => rfl
  | cons c str ih => exact ih _ _

theorem print_u_writes (number padding : Int) (o : Out) :
    Writes buffer_size o (print_u buffer_size number padding o)
      [.field (field_u number padding)] := by
  have hfield : print_u buffer_size number padding o = reverse o.current_pos
      ((puts buffer_size (field_u number padding) o).current_pos - 1)
      (puts buffer_size (field_u number padding) o) := by
    simp only [print_u, put_digits_eq, put_padding_eq, field_u, paddingFor, puts_append]
  rw [hfield]
  exact reverse_writes buffer_size _ o

theorem print_d_writes (number padding : Int) (o : Out) :
    Writes buffer_size o (print_d buffer_size number padding o)
      [.field (field_d number padding)] := by
  have hfield : print_d buffer_size number padding o = reverse o.current_pos
      ((puts buffer_size (field_d number padding) o).current_pos - 1)
      (puts buffer_size (field_d number padding) o) := by
    simp only [print_d, put_digits_eq, put_padding_eq, field_d, paddingFor, puts_append]
    split_ifs <;> rfl
  rw [hfield]
  exact reverse_writes buffer_size _ o

theorem print_x_writes (size : Nat) (fsharp fzero : Bool) (number padding : Int) (o : Out) :
    Writes buffer_size o (print_x buffer_size size fsharp fzero number padding o)
      [.plain (hexPrefix fsharp), .field (field_x size fzero number padding)] := by
  have hfield : print_x buffer_size size fsharp fzero number padding o =
      reverse (puts buffer_size (hexPrefix fsharp) o).current_pos
        ((puts buffer_size (field_x size fzero number padding)
          (puts buffer_size (hexPrefix fsharp) o)).current_pos - 1)
        (puts buffer_size (field_x size fzero number padding)
          (puts buffer_size (hexPrefix fsharp) o)) := by
    have hprefix : (if fsharp then PUT buffer_size (ch 'x') (PUT buffer_size (ch '0') o) else o) =
        puts buffer_size (hexPrefix fsharp) o := by
      cases fsharp <;> rfl
    simp only [print_x, hprefix, put_hex_eq, put_padding_eq, field_x, paddingFor, puts_append]
  rw [hfield]
  exact (puts_writes buffer_size (hexPrefix fsharp) o).trans (reverse_writes buffer_size _ _)

theorem print_s_writes (str : CString) (padding : Int) (o : Out) :
    Writes buffer_size o (print_s buffer_size str padding o)
      [.plain (str.bytes ++ paddingFor (ch ' ') padding str.bytes)] := by
  have hplain : print_s buffer_size str padding o =
      puts buffer_size (str.bytes ++ paddingFor (ch ' ') padding str.bytes) o := by
    simp only [print_s, put_str_eq, put_padding_eq, paddingFor, puts_append]
  rw [hplain]
  exact puts_writes buffer_size _ o

theorem convert_writes (strs : Addr → CString) (s : Spec) (c : Byte) (va : VaList) (o : Out) :
    Writes buffer_size o (convert strs buffer_size s c va o).1 (piecesOf strs s c va) := by
  unfold convert piecesOf
  split_ifs
  · exact print_x_writes buffer_size _ _ _ _ _ o
  · exact print_x_writes buffer_size _ _ _ _ _ o
  · exact print_d_writes buffer_size _ _ o
  · exact print_x_writes buffer_size _ _ _ _ _ o
  · exact print_u_writes buffer_size _ _ o
  · exact PUT_writes buffer_size _ o
  · exact print_s_writes buffer_size _ _ o
  · exact PUT_writes buffer_size _ o

theorem convert_args (strs : Addr → CString) (s : Spec) (c : Byte) (va : VaList) (o : Out) :
    (convert strs buffer_size s c va o).2 = argsAfter c va := by
  unfold convert argsAfter argConversions
  split_ifs <;> simp_all

end

/-! ## The pieces of a format -/

/-- The pieces that the character `c` of the format puts, and where the parser is after it. -/
def stepPieces (strs : Addr → CString) (va : VaList) (mode : Mode) (c : Byte) :
    List (Piece Byte) × VaList × Mode :=
  match mode with
  | .text => if c ≠ ch '%' then ([.plain [c]], va, .text) else ([], va, .spec false Spec.start)
  | .spec digits s =>
    match modifier digits s va c with
    | some (mode, va) => ([], va, mode)
    | none => (piecesOf strs s c va, argsAfter c va, .text)

/-- The pieces of a format, up to the NUL that ends it. -/
def fmtPieces (strs : Addr → CString) : VaList → Mode → List Byte → List (Piece Byte)
  | _, _, [] => []
  | va, mode, c :: fmt =>
    if mode.isText ∧ c = 0 then []
    else
      let (ps, va, mode) := stepPieces strs va mode c
      ps ++ fmtPieces strs va mode fmt

section

variable (strs : Addr → CString) (buffer_size : Nat)

/-- One character of the format. -/
theorem step_spec (st : State) (c : Byte) :
    Writes buffer_size st.out (step strs buffer_size st c).out
        (stepPieces strs st.va st.mode c).1 ∧
      ((step strs buffer_size st c).va, (step strs buffer_size st c).mode) =
        (stepPieces strs st.va st.mode c).2 := by
  unfold step stepPieces
  cases st.mode with
  | text =>
    simp only
    split_ifs
    · exact ⟨PUT_writes buffer_size c st.out, rfl⟩
    · exact ⟨.refl buffer_size st.out, rfl⟩
  | spec digits s =>
    simp only
    cases modifier digits s st.va c with
    | some next => exact ⟨.refl buffer_size st.out, rfl⟩
    | none =>
      refine ⟨convert_writes buffer_size strs s c st.va st.out, ?_⟩
      simp only [convert_args]

/-- The whole format. -/
theorem fmt_loop_writes (st : State) (fmt : List Byte) :
    Writes buffer_size st.out (fmt_loop strs buffer_size st fmt).1.out
      (fmtPieces strs st.va st.mode fmt) := by
  induction fmt generalizing st with
  | nil => exact .refl buffer_size st.out
  | cons c fmt ih =>
    rw [fmt_loop, fmtPieces]
    split_ifs with hend
    · exact .refl buffer_size st.out
    · obtain ⟨hwrites, hnext⟩ := step_spec strs buffer_size st c
      rw [Prod.ext_iff] at hnext
      simp only at hnext ⊢
      rw [← hnext.1, ← hnext.2]
      exact hwrites.trans (ih _)

end

/-! ## `dvsprintf` -/

/-- The pieces of a format and its arguments. -/
def formatPieces (strs : Addr → CString) (format : List Byte) (va : VaList) : List (Piece Byte) :=
  fmtPieces strs va .text format

section

variable {strs : Addr → CString} {bytes : Int → Byte} {buffer_size : Nat} {format : List Byte}
  {va : VaList}

theorem Out.start_valid (bytes : Int → Byte) (hsize : 1 ≤ buffer_size) :
    (Out.start bytes).Valid buffer_size := by
  refine ⟨rfl, hsize, ?_⟩
  intro s hs
  cases hs

/-- The buffer shows the text as far as there is room for it, and the NUL comes behind it. -/
theorem dvsprintf.spec (hsize : 1 ≤ buffer_size) :
    Written buffer_size (Out.start bytes) (dvsprintf strs bytes buffer_size format va).1
        (formatPieces strs format va) ∧
      ∀ value, (dvsprintf strs bytes buffer_size format va).2 = some value →
        value = asInt (dvsprintf strs bytes buffer_size format va).1.current_size ∧
          (dvsprintf strs bytes buffer_size format va).1.bytes
            (dvsprintf strs bytes buffer_size format va).1.current_size = 0 := by
  have hloop := fmt_loop_writes strs buffer_size { out := Out.start bytes, va, mode := .text }
    format
  unfold dvsprintf
  generalize fmt_loop strs buffer_size { out := Out.start bytes, va, mode := .text } format = r
    at hloop
  obtain ⟨st, rest⟩ := r
  have hwritten : Written buffer_size (Out.start bytes) st.out (formatPieces strs format va) :=
    hloop (Out.start_valid bytes hsize)
  cases rest with
  | none =>
    refine ⟨hwritten, ?_⟩
    intro value hvalue
    cases hvalue
  | some rest =>
    have hpos := hwritten.valid.pos
    have hroom := hwritten.valid.size
    refine ⟨⟨hwritten.valid.store (by omega) (by omega), ?_, ?_⟩, ?_⟩
    · rw [← hwritten.text]
      apply List.map_congr_left
      intro i hi
      have hi : i < st.out.current_size := List.mem_range.mp hi
      exact Function.update_of_ne (by omega) _ _
    · intro i hi
      rw [← hwritten.outside i hi]
      exact Function.update_of_ne (by omega) _ _
    · intro value hvalue
      cases hvalue
      refine ⟨rfl, ?_⟩
      simp only [Out.store, hpos, Function.update_self]

/-- The characters in front of the NUL. -/
theorem dvsprintf.text (hsize : 1 ≤ buffer_size) :
    (dvsprintf strs bytes buffer_size format va).1.text =
      render (buffer_size - 1) (formatPieces strs format va) :=
  dvsprintf.spec hsize |>.1.text

end

end elf_loader.lib
