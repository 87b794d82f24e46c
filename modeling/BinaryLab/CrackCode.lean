-- What a cracked program does (elf-clack/crack_code.S): it writes the message,
-- once, and comes to the entry of the original program, with the segments and
-- the stack that the original program would find there, and with all of the
-- registers but %rcx and %rsi.
import BinaryLab.KeptProgram
import BinaryLab.NewSegment
import BinaryLab.Stub

set_option linter.style.nameCheck false

open binary_lab binary_lab.words binary_lab.pages

namespace elf_clack

/-! ## The code -/

/-- `crack_code`, with `__NR_write` and `__NR_exit`. -/
def crack_code_S : List x86.Instr :=
  [.movImm 1 .rax, .pop .rdx, .push .rsi, .mov .rdi .rsi, .movImm 1 .rdi, .syscall,
    .pop .rsi, .pop .rdi, .pop .rdx, .pop .rax, .jmp .rsi,
    .movlImm 60 .rax, .movImm 0 .rdi, .syscall]

theorem phdrOff_eq {m : Bytes} (h : (EHDR m).e_phentsize = 56) (i : Nat) :
    phdrOff m i = (EHDR m).e_phoff + BitVec.ofNat 64 (56 * i) := by
  rw [phdrOff, entryAt_eq, h]
  rfl

section

variable {m out : Bytes} {new : Elf64_Phdr}

theorem ProgramKept.byte_phdr (h : ProgramKept m out new) (hm : (EHDR m).e_phentsize = 56)
    (hout : (EHDR out).e_phentsize = 56) {i : Nat} (hi : i < (EHDR m).e_phnum.toNat) {k : Nat}
    (hk : k < 56) (hkeep : ¬ (IsPhdrEntry m i ∧ 8 ≤ k)) :
    out (phdrOff out i + BitVec.ofNat 64 k) = m (phdrOff m i + BitVec.ofNat 64 k) := by
  have hkept := h.phdrs i hi k hk hkeep
  rwa [BitVec.ofNat_add, ← BitVec.add_assoc, ← BitVec.add_assoc, ← phdrOff_eq hout,
    ← phdrOff_eq hm] at hkept

/-- Only the `PT_PHDR` entry is not the old one. -/
theorem ProgramKept.entry (h : ProgramKept m out new) (hm : (EHDR m).e_phentsize = 56)
    (hout : (EHDR out).e_phentsize = 56) {i : Nat} (hi : i < (EHDR m).e_phnum.toNat)
    (hno : ¬ IsPhdrEntry m i) : phdrAt out (phdrOff out i) = phdrAt m (phdrOff m i) :=
  phdrAt_moved fun _ hk => h.byte_phdr hm hout hi hk fun hin => hno hin.1

/-- The type is in the half of the first word that every entry keeps. -/
theorem ProgramKept.type (h : ProgramKept m out new) (hm : (EHDR m).e_phentsize = 56)
    (hout : (EHDR out).e_phentsize = 56) {i : Nat} (hi : i < (EHDR m).e_phnum.toNat) :
    (phdrAt out (phdrOff out i)).p_type = (phdrAt m (phdrOff m i)).p_type :=
  read32_moved fun k hk =>
    h.byte_phdr hm hout hi (by omega) fun hin => absurd hin.2 (by omega)

/-- The table of the output loads the segments of the input and the new one. -/
theorem ProgramKept.loads_eq (h : ProgramKept m out new) (hm : (EHDR m).e_phentsize = 56)
    (hout : (EHDR out).e_phentsize = 56) (hnew : new.p_type = PT_LOAD) :
    loads out = loads m ++ [new] := by
  have hlast : phdrAt out (phdrOff out (EHDR m).e_phnum.toNat) = new := by
    rw [phdrOff_eq hout]
    exact h.newphdr
  have hsame : ∀ i ∈ List.range (EHDR m).e_phnum.toNat,
      ((fun phdr : Elf64_Phdr => decide (phdr.p_type = PT_LOAD)) ∘
        fun i => phdrAt out (phdrOff out i)) i =
      ((fun phdr : Elf64_Phdr => decide (phdr.p_type = PT_LOAD)) ∘
        fun i => phdrAt m (phdrOff m i)) i := by
    intro i hi
    rw [Function.comp_apply, Function.comp_apply, h.type hm hout (List.mem_range.mp hi)]
  rw [loads, h.phnum, List.range_succ, List.map_append, List.map_singleton, hlast,
    List.filter_append, loads]
  congr 1
  · rw [List.filter_map, List.filter_map, List.filter_congr hsame]
    apply List.map_congr_left
    intro i hi
    obtain ⟨hrange, hload⟩ := List.mem_filter.mp hi
    have hload : (phdrAt m (phdrOff m i)).p_type = PT_LOAD := of_decide_eq_true hload
    refine h.entry hm hout (List.mem_range.mp hrange) fun hphdr => ?_
    exact absurd (hload.symm.trans hphdr.1) (by decide)
  · rw [List.filter_singleton, hnew]
    rfl

end

/-- The byte is neither in the header nor in the table of the program headers. -/
def Ordinary (file : Bytes) (x : Addr) : Prop :=
  sizeofEhdr ≤ x.toNat ∧
    ¬ Within x (EHDR file).e_phoff.toNat (56 * (EHDR file).e_phnum.toNat)

/-- The memory has the segments of the file. What a segment has of the header and of the table
of the program headers, which elf-clack edits, may be anything. -/
structure Loaded (file mem : Bytes) : Prop where
  bytes : ∀ phdr ∈ loads file, ∀ k < phdr.p_filesz.toNat,
    Ordinary file (phdr.p_offset + BitVec.ofNat 64 k) →
    mem (phdr.p_vaddr + BitVec.ofNat 64 k) = file (phdr.p_offset + BitVec.ofNat 64 k)
  zeros : ∀ phdr ∈ loads file, ∀ k < phdr.p_memsz.toNat, phdr.p_filesz.toNat ≤ k →
    mem (phdr.p_vaddr + BitVec.ofNat 64 k) = 0

/-- The byte is one of the 40 below the stack. -/
def BelowStack (c : x86.Cpu) (x : Addr) : Prop := Within x (c.rsp.toNat - 40) 40

/-- Between `c` and `c'` the message was written from the addresses `strings`, the last one first.
The rest is as it was, but for two registers and the memory below the stack, for which a new
program has no promise. -/
structure Wrote (strings : List Addr) (c c' : x86.Cpu) : Prop where
  rsp : c'.rsp = c.rsp
  regs : ∀ r, r ≠ .rcx → r ≠ .rsi → c'.regs r = c.regs r
  mem : ∀ x, ¬ BelowStack c x → c'.mem x = c.mem x
  writes : c'.writes = strings.map (fun string => ⟨1, string, 12⟩) ++ c.writes
  message : ∀ string ∈ strings, ∀ k < 12, c'.mem (string + BitVec.ofNat 64 k) = MESSAGE.getD k 0 ∧
    ¬ BelowStack c (string + BitVec.ofNat 64 k)

section

variable {crack_code : Nat → Byte} {w w5 : World} {out : Bytes} {c : x86.Cpu}

theorem Cracked.loads_eq (h : Cracked crack_code w w5 out) (hin : InsideFile w.elf w.size)
    (hkept : ProgramKept w.elf out (grow_segment w5).newphdr) :
    loads out = loads w.elf ++ [(grow_segment w5).newphdr] := by
  apply hkept.loads_eq hin.phentsize
  · rw [h.EHDR_eq, h.edited.EHDR_eq]
    exact hin.phentsize
  · simp only [grow_segment, h.edited.newphdr, make_segment]

theorem Cracked.phoff (h : Cracked crack_code w w5 out) :
    (EHDR out).e_phoff.toNat = (newOffset w.elf).toNat + 1024 + shdrsLen w.elf := by
  rw [h.EHDR_eq]
  exact h.layout.phoff

end

end elf_clack
