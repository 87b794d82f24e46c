-- `R_X86_64_COPY`: the initial value of a variable goes from the library to
-- the program. The code copies one word of eight bytes, whatever the size of
-- the variable is.
import BinaryLab.Reloc

open binary_lab.runs binary_lab.words

namespace elf_loader.reloc

open lookup

/-! ## A variable of `n` bytes -/

/-- `mem'` is `mem` with the `n` bytes at `src` copied to `dest`, and no other change. -/
structure CopiedVariable (dest src : Addr) (n : Nat) (mem mem' : Bytes) : Prop where
  whole : ∀ i < n, mem' (dest + BitVec.ofNat 64 i) = mem (src + BitVec.ofNat 64 i)
  rest : ∀ a, n ≤ (a - dest).toNat → mem' a = mem a

/-- The bytes between `n` and 8 are the same at both places. -/
def AgreesUpToWord (dest src : Addr) (n : Nat) (mem : Bytes) : Prop :=
  ∀ i, min n 8 ≤ i → i < max n 8 →
    mem (dest + BitVec.ofNat 64 i) = mem (src + BitVec.ofNat 64 i)

theorem agreesUpToWord_eight (dest src : Addr) (mem : Bytes) :
    AgreesUpToWord dest src 8 mem := by
  intro i hmin hmax
  omega

/-- The copy of a word, byte by byte. -/
theorem copied_word_at (mem : Bytes) (dest src : Addr) {i : Nat} (hi : i < 8) :
    write64 mem dest (read64 mem src) (dest + BitVec.ofNat 64 i) =
      mem (src + BitVec.ofNat 64 i) := by
  rw [write64_at mem dest _ hi, byteOf_read64 mem src hi]

theorem copied_word_outside (mem : Bytes) (dest src : Addr) {a : Addr}
    (ha : 8 ≤ (a - dest).toNat) : write64 mem dest (read64 mem src) a = mem a :=
  if_neg (Nat.not_lt.mpr ha)

/-- The copy of a word copies a variable exactly when it does not matter that
it has another size. -/
theorem copied_word_iff {dest src : Addr} {n : Nat} (hn : n < 2 ^ 64) (mem : Bytes) :
    CopiedVariable dest src n mem (write64 mem dest (read64 mem src)) ↔
      AgreesUpToWord dest src n mem := by
  have hoff : ∀ a : Addr, dest + BitVec.ofNat 64 (a - dest).toNat = a := by
    intro a
    rw [BitVec.ofNat_toNat, BitVec.setWidth_eq, BitVec.add_comm, BitVec.sub_add_cancel]
  constructor
  · intro h i hmin hmax
    have hlt : i < 2 ^ 64 := by omega
    have hsub := add_ofNat_sub_toNat dest hlt
    rcases Nat.lt_or_ge i 8 with hi | hi
    · -- A small variable: the byte behind it is overwritten.
      rw [← copied_word_at mem dest src hi, h.rest _ (by omega)]
    · -- A large variable: the byte is left out.
      rw [← h.whole i (by omega), copied_word_outside mem dest src (by omega)]
  · intro h
    refine ⟨?_, ?_⟩
    · intro i hi
      rcases Nat.lt_or_ge i 8 with hi8 | hi8
      · exact copied_word_at mem dest src hi8
      · have hsub := add_ofNat_sub_toNat dest (i := i) (by omega)
        rw [copied_word_outside mem dest src (by omega)]
        exact h i (by omega) (by omega)
    · intro a ha
      rcases Nat.lt_or_ge (a - dest).toNat 8 with ha8 | ha8
      · have hword := copied_word_at mem dest src ha8
        have hagree := h (a - dest).toNat (by omega) (by omega)
        rw [hoff] at hword hagree
        rw [hword, hagree]
      · exact copied_word_outside mem dest src ha8

/-! ## The entry in its table -/

/-- The loop up to an entry, and then the entry. -/
theorem reloc_loop_succ {w : Rtld} {p : Ptr} {l : LinkMap} {table : List Rela} {k : Nat}
    {rela : Rela} {mem mem1 mem2 : Bytes} (hrela : table[k]? = some rela)
    (h1 : reloc_loop w p l k table mem = .ok mem1)
    (h2 : reloc_loop w p l (k + 1) table mem = .ok mem2) :
    reloc_entry w p l mem1 rela = .ok mem2 := by
  induction k generalizing table mem with
  | zero =>
    cases table with
    | nil => cases hrela
    | cons r table =>
      cases hrela
      cases h1
      rw [reloc_loop, bind_eq_ok] at h2
      obtain ⟨mem', hentry, hrest⟩ := h2
      cases hrest
      exact hentry
  | succ k ih =>
    cases table with
    | nil => cases hrela
    | cons r table =>
      rw [reloc_loop, bind_eq_ok] at h1 h2
      obtain ⟨mem', hentry, h1⟩ := h1
      obtain ⟨mem'', hentry', h2⟩ := h2
      rw [hentry] at hentry'
      cases hentry'
      exact ih hrela h1 h2

theorem reloc_rela_loop {w : Rtld} {p : Ptr} {l : LinkMap} {table : List Rela} {count : Nat}
    {mem mem' : Bytes} (h : reloc_rela w p l table count mem = .ok mem') :
    reloc_loop w p l count table mem = .ok mem' := by
  obtain ⟨_, _, hrun⟩ := reloc_rela_eq_ok.mp h
  exact reloc_loop_eq_ok.mpr hrun

/-- What a `COPY` entry of any table does to the variable, of the size that
its definition has. The condition holds for every variable of eight bytes. -/
theorem a_copy_entry_copies_the_variable_iff_its_size_does_not_matter (w : Rtld) (p : Ptr)
    (l m : LinkMap) (table : List Rela) (k : Nat) (rela : Rela) (name : CString) (v : SymVal)
    (mem mem1 mem2 : Bytes)
    (hrela : table[k]? = some rela) (htype : R_TYPE rela.r_info = R_X86_64_COPY)
    (hname : entryName l rela = some name)
    (hv : lookup_symbol w (some p) name = .ok (some v)) (hm : w.maps[v.m]? = some m)
    (hbefore : reloc_rela w p l table k mem = .ok mem1)
    (hafter : reloc_rela w p l table (k + 1) mem = .ok mem2) :
    CopiedVariable (l.l_addr + rela.r_offset) (m.l_addr + v.s.st_value) v.s.st_size.toNat
        mem1 mem2 ↔
      AgreesUpToWord (l.l_addr + rela.r_offset) (m.l_addr + v.s.st_value) v.s.st_size.toNat
        mem1 := by
  have hentry := reloc_loop_succ hrela (reloc_rela_loop hbefore) (reloc_rela_loop hafter)
  obtain ⟨u, hu, rfl⟩ := reloc_entry_eq_ok.mp hentry
  have hres : Resolves w (some p) name (m.l_addr + v.s.st_value) := ⟨v, m, hv, hm, rfl⟩
  cases hu with
  | relative _ h => exact absurd (h.symm.trans htype) (by decide)
  | symbol _ h =>
    rcases h with h | h
    · exact absurd (h.symm.trans htype) (by decide)
    · exact absurd (h.symm.trans htype) (by decide)
  | jumpSlot _ h => exact absurd (h.symm.trans htype) (by decide)
  | copy hname' _ hres' =>
    rw [hname] at hname'
    cases hname'
    rw [hres'.unique hres]
    exact copied_word_iff v.s.st_size.isLt mem1

/-! ## A variable of four bytes -/

/-- An object with the symbol `x` of the given size, at the address `addr`. -/
def sizedObject (addr : Addr) (size : BitVec 64) : LinkMap :=
  { xObject with
    l_addr := addr
    image := { xObject.image with
      symtab := [
        { st_name := 0, st_info := 0, st_shndx := 0, st_value := 0, st_size := 0 },
        { st_name := 1, st_info := 0x11, st_shndx := 4, st_value := 0x40, st_size := size }] } }

def copyProgram (size : BitVec 64) : LinkMap :=
  { sizedObject 0x1000 size with l_next := some 1 }

def copyLibrary (size : BitVec 64) : LinkMap :=
  { sizedObject 0x3000 size with l_prev := some 0 }

/-- A program with a copy of the variable `x` of a library. -/
def copyWorld (size : BitVec 64) : Rtld :=
  { xWorld with maps := [copyProgram size, copyLibrary size] }

def copyOfX : Rela where
  r_offset := 0x40
  r_info := 0x100000005
  r_addend := 0

/-- The library has 7 in `x`, and 5 four bytes behind it. The program has 9
four bytes behind its own `x`. -/
def copyMem : Bytes := fun a =>
  if a = 0x3040 then 7 else if a = 0x3044 then 5 else if a = 0x1044 then 9 else 0

def copiedMem : Bytes := write64 copyMem 0x1040 (read64 copyMem 0x3040)

/-- The definition of `x` in the library. -/
def xOfLibrary (size : BitVec 64) : SymVal where
  s := { st_name := 1, st_info := 0x11, st_shndx := 4, st_value := 0x40, st_size := size }
  m := 1

theorem a_variable_of_eight_bytes_is_copied :
    reloc_rela (copyWorld 8) 0 (copyProgram 8) [copyOfX] 1 copyMem = .ok copiedMem ∧
    (CopiedVariable 0x1040 0x3040 8 copyMem copiedMem ↔
      AgreesUpToWord 0x1040 0x3040 8 copyMem) ∧
    AgreesUpToWord 0x1040 0x3040 8 copyMem :=
  ⟨rfl,
    a_copy_entry_copies_the_variable_iff_its_size_does_not_matter (copyWorld 8) 0 (copyProgram 8)
      (copyLibrary 8) [copyOfX] 0 copyOfX (CString.lit ['x']) (xOfLibrary 8) copyMem copyMem
      copiedMem rfl rfl rfl rfl rfl rfl rfl,
    agreesUpToWord_eight _ _ _⟩

/-- A variable of four bytes takes the four bytes behind it along: the program
loses its 9. -/
theorem the_copy_of_a_variable_of_four_bytes_overwrites_its_neighbour :
    reloc_rela (copyWorld 4) 0 (copyProgram 4) [copyOfX] 1 copyMem = .ok copiedMem ∧
    lookup_symbol (copyWorld 4) (some 0) (CString.lit ['x']) = .ok (some (xOfLibrary 4)) ∧
    copyMem 0x1044 = 9 ∧ copiedMem 0x1044 = 5 ∧
    ¬ CopiedVariable 0x1040 0x3040 4 copyMem copiedMem := by
  have hnew : copiedMem 0x1044 = 5 := by decide
  refine ⟨rfl, rfl, rfl, hnew, ?_⟩
  intro h
  have hold := h.rest 0x1044 (by decide)
  rw [hnew] at hold
  exact absurd hold (by decide)

end elf_loader.reloc
