-- The formatter (`dvsprintf` and `reverse` of rtld/lib.c). It puts the text
-- into a buffer of bounded size and drops what does not fit. A number is put
-- from its lowest digit on, with its padding behind it, and then the
-- characters from the first digit to the end are reversed in place.
import BinaryLab.BoundedText
import BinaryLab.LinkMap

set_option linter.style.nameCheck false

open binary_lab.words binary_lab.texts

namespace elf_loader.lib

/-! ## Machine integers -/

/-- A value as an `int`. -/
def asInt (x : Int) : Int := (BitVec.ofInt 32 x).toInt

/-- A value as a `long long`. -/
def asLongLong (x : Int) : Int := (BitVec.ofInt 64 x).toInt

/-- A value as a `char`. -/
def asChar (x : Int) : Byte := BitVec.ofInt 8 x

/-- A character constant. -/
def ch (c : Char) : Byte := BitVec.ofNat 8 c.toNat

/-- `isdigit(c)`. -/
def isdigit (c : Byte) : Bool := 48 ≤ c.toNat && c.toNat ≤ 57

/-! ## The arguments -/

/-- The arguments that are still to come. Each one has a slot of eight bytes,
and an `int` has the low half of it. -/
abbrev VaList := Nat → BitVec 64

def VaList.next (va : VaList) : VaList := fun n => va (n + 1)

/-- `va_arg(arg, int)`. -/
def va_int (va : VaList) : Int := ((va 0).setWidth 32).toInt

/-- `va_arg(arg, long)`, and `va_arg(arg, long long)`. -/
def va_long (va : VaList) : Int := (va 0).toInt

/-- The string for `%s`, where `strs` gives the string that a pointer points at. -/
def va_str (strs : Addr → CString) (va : VaList) : CString :=
  if va 0 = 0 then CString.lit "(NULL)".toList else strs (va 0)

/-! ## The output -/

/-- A store: its place, and the cursor after it. -/
structure Store where
  index : Int
  current_pos : Int
  current_size : Nat

/-- The memory around the buffer, the cursor, and the stores so far. Places
are counted from `buffer` on. -/
structure Out where
  bytes : Int → Byte
  current_pos : Int
  current_size : Nat
  stores : List Store

def Out.store (o : Out) (i : Int) (c : Byte) : Out :=
  { o with
    bytes := Function.update o.bytes i c
    stores := o.stores ++ [⟨i, o.current_pos, o.current_size⟩] }

/-- `PUT(val)`. -/
def PUT (buffer_size : Nat) (c : Byte) (o : Out) : Out :=
  if o.current_size + 1 ≥ buffer_size then o
  else
    let i := o.current_size
    { o with current_pos := o.current_pos + 1, current_size := i + 1 }.store i c

/-- `reverse`. -/
def reverse (s t : Int) (o : Out) : Out :=
  if s < t then
    let tmp := o.bytes t
    let o := o.store t (o.bytes s)
    let o := o.store s tmp
    reverse (s + 1) (t - 1) o
  else o
termination_by (t - s).toNat

/-! ## The conversions -/

/-- `while (padding-- > 0) PUT(c)`. -/
def put_padding (buffer_size : Nat) (c : Byte) (padding : Int) (o : Out) : Out :=
  Nat.iterate (PUT buffer_size c) padding.toNat o

/-- The loop of `print_u` and `print_d` over the digits. -/
def put_digits (buffer_size : Nat) (number padding : Int) (o : Out) : Out × Int :=
  let o := PUT buffer_size (asChar (48 + number.tmod 10)) o
  let number' := number.tdiv 10
  let padding := asInt (padding - 1)
  if number' ≠ 0 then put_digits buffer_size number' padding o else (o, padding)
termination_by number.natAbs
decreasing_by
  have hdiv : (number.tdiv 10).natAbs = number.natAbs / 10 := Int.natAbs_tdiv number 10
  omega

def print_u (buffer_size : Nat) (number padding : Int) (o : Out) : Out :=
  let rem := o.current_pos
  let (o, padding) := put_digits buffer_size number padding o
  let o := put_padding buffer_size (ch ' ') padding o
  reverse rem (o.current_pos - 1) o

def print_d (buffer_size : Nat) (number padding : Int) (o : Out) : Out :=
  let rem := o.current_pos
  let minus := number < 0
  let number := if minus then asLongLong (number * -1) else number
  let (o, padding) := put_digits buffer_size number padding o
  let o := if minus then PUT buffer_size (ch '-') o else o
  let o := put_padding buffer_size (ch ' ') padding o
  reverse rem (o.current_pos - 1) o

/-- A hexadecimal digit. -/
def hexChar (dig : Nat) : Byte :=
  if dig > 9 then asChar (97 + dig - 10) else asChar (48 + dig)

/-- The loop of `print_x` over the digits. -/
def put_hex (buffer_size size i : Nat) (n : BitVec 64) (padding : Int) (o : Out) : Out × Int :=
  let o := PUT buffer_size (hexChar (n &&& 0xf).toNat) o
  let n := n >>> 4
  let padding := asInt (padding - 1)
  if i + 1 < size * 2 ∧ n ≠ 0 then put_hex buffer_size size (i + 1) n padding o else (o, padding)
termination_by size * 2 - i

def print_x (buffer_size size : Nat) (fsharp fzero : Bool) (number padding : Int) (o : Out) : Out :=
  let n := BitVec.ofInt 64 number
  let o := if fsharp then PUT buffer_size (ch 'x') (PUT buffer_size (ch '0') o) else o
  let rem := o.current_pos
  let (o, padding) := put_hex buffer_size size 0 n padding o
  let o := put_padding buffer_size (if fzero then ch '0' else ch ' ') padding o
  reverse rem (o.current_pos - 1) o

/-- The loop of `%s` over the string. -/
def put_str (buffer_size : Nat) : List Byte → Int → Out → Out × Int
  | [], padding, o => (o, padding)
  | c :: str, padding, o => put_str buffer_size str (asInt (padding - 1)) (PUT buffer_size c o)

def print_s (buffer_size : Nat) (str : CString) (padding : Int) (o : Out) : Out :=
  let (o, padding) := put_str buffer_size str.bytes padding o
  put_padding buffer_size (ch ' ') padding o

/-! ## The format -/

/-- What comes between `%` and the conversion. -/
structure Spec where
  fl : Bool
  fll : Bool
  fsharp : Bool
  fzero : Bool
  size : Nat
  padding : Int

/-- The settings right behind `%`. -/
def Spec.start : Spec where
  fl := false
  fll := false
  fsharp := false
  fzero := false
  size := 4
  padding := 0

/-- Where the parser is: in the text, or behind `%`. There, `digits` says that
it is in the loop over the digits of a width, and else it is at the label `cont`. -/
inductive Mode
  | text
  | spec (digits : Bool) (s : Spec)

/-- The character `c` behind `%`, if the parser goes back to `cont` after it,
or stays in the loop over the digits. -/
def modifier (digits : Bool) (s : Spec) (va : VaList) (c : Byte) : Option (Mode × VaList) :=
  if (digits ∨ c ≠ ch '0') ∧ isdigit c then
    some (.spec true { s with padding := asInt (s.padding * 10 + c.toNat - 48) }, va)
  else if c = ch '*' then some (.spec false { s with padding := va_int va }, va.next)
  else if c = ch '#' then some (.spec false { s with fsharp := true }, va)
  else if c = ch '0' then some (.spec false { s with fzero := true }, va)
  else if c = ch 'l' then
    if s.fl then some (.spec false { s with fll := true, size := 8 }, va)
    else some (.spec false { s with fl := true, size := 8 }, va)
  else none

/-- The argument of `%x`, `%d` and `%u`. -/
def number (s : Spec) (va : VaList) : Int :=
  if s.fll then va_long va else if s.fl then va_long va else va_int va

/-- The conversion `c`. The NUL of a format that ends too early is one, too. -/
def convert (strs : Addr → CString) (buffer_size : Nat) (s : Spec) (c : Byte) (va : VaList)
    (o : Out) : Out × VaList :=
  if c = ch 'p' then
    (print_x buffer_size 8 true s.fzero (va_long va) s.padding o, va.next)
  else if c = ch 'P' then (print_x buffer_size 8 true true (va_long va) 16 o, va.next)
  else if c = ch 'd' then (print_d buffer_size (number s va) s.padding o, va.next)
  else if c = ch 'x' then
    (print_x buffer_size s.size s.fsharp s.fzero (number s va) s.padding o, va.next)
  else if c = ch 'u' then (print_u buffer_size (number s va) s.padding o, va.next)
  else if c = ch 'c' then (PUT buffer_size (asChar (va_int va)) o, va.next)
  else if c = ch 's' then (print_s buffer_size (va_str strs va) s.padding o, va.next)
  else (PUT buffer_size c o, va)

structure State where
  out : Out
  va : VaList
  mode : Mode

/-- The parser goes over the character `c`. -/
def step (strs : Addr → CString) (buffer_size : Nat) (st : State) (c : Byte) : State :=
  match st.mode with
  | .text =>
    if c ≠ ch '%' then { st with out := PUT buffer_size c st.out }
    else { st with mode := .spec false Spec.start }
  | .spec digits s =>
    match modifier digits s st.va c with
    | some (mode, va) => { st with mode, va }
    | none =>
      let (out, va) := convert strs buffer_size s c st.va st.out
      { out, va, mode := .text }

def Mode.isText : Mode → Bool
  | .text => true
  | .spec _ _ => false

/-- The loop over the format, which is what can be read in memory from its
start on: the state at the end, and the bytes behind the NUL that has ended
it. If no NUL has, the loop reads on behind these bytes. -/
def fmt_loop (strs : Addr → CString) (buffer_size : Nat) :
    State → List Byte → State × Option (List Byte)
  | st, [] => (st, none)
  | st, c :: fmt =>
    if st.mode.isText ∧ c = 0 then (st, some fmt)
    else fmt_loop strs buffer_size (step strs buffer_size st c) fmt

/-- The cursor is at the start of the buffer. -/
def Out.start (bytes : Int → Byte) : Out where
  bytes
  current_pos := 0
  current_size := 0
  stores := []

/-- `dvsprintf`, and `dsnprintf`: the output, and the value that is returned. -/
def dvsprintf (strs : Addr → CString) (bytes : Int → Byte) (buffer_size : Nat)
    (format : List Byte) (va : VaList) : Out × Option Int :=
  let (st, rest) :=
    fmt_loop strs buffer_size { out := Out.start bytes, va, mode := .text } format
  match rest with
  | none => (st.out, none)
  | some _ => (st.out.store st.out.current_pos 0, some (asInt st.out.current_size))

end elf_loader.lib
