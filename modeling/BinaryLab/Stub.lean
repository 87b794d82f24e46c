-- The code that `do_crack` of elf-clack puts in front of `crack_code`, as the
-- processor reads it in the cracked file: four words are pushed, and the
-- addresses of the message and of the original entry are loaded from
-- immediate values of 32 bits.
import BinaryLab.CrackedFile
import BinaryLab.X86
import Mathlib.Tactic.IntervalCases

set_option linter.style.nameCheck false

open binary_lab binary_lab.runs binary_lab.words binary_lab.pages

namespace elf_clack

/-! ## The prologue -/

/-- The bytes in front of `crack_code`. -/
def prologue (string entry : BitVec 64) : List Byte :=
  [0x50, 0x52, 0x57, 0x6a, 12, 0x48, 0xc7, 0xc7] ++ number 4 (string.setWidth 32).toNat ++
    [0x48, 0xc7, 0xc6] ++ number 4 (entry.setWidth 32).toNat

/-- The instructions that `do_crack` writes there. -/
def prologueCode (string entry : BitVec 64) : List x86.Instr :=
  [.push .rax, .push .rdx, .push .rdi, .pushImm 12, .movImm (string.setWidth 32) .rdi,
    .movImm (entry.setWidth 32) .rsi]

theorem assemble_prologueCode (string entry : BitVec 64) :
    x86.assemble (prologueCode string entry) = prologue string entry := rfl

/-- What the processor has done when it comes to `crack_code`. -/
theorem view_prologueCode (sys : List x86.Write → BitVec 64) (string entry a : BitVec 64)
    (regs : x86.Reg → BitVec 64) (writes : List x86.Write) :
    ∃ v, x86.viewAll sys (prologueCode string entry) ⟨a, regs, [], writes⟩ = some v ∧
      v.rip = a + 19 ∧ v.stack = [12, regs .rdi, regs .rdx, regs .rax] ∧
      v.regs .rdi = (string.setWidth 32).signExtend 64 ∧
      v.regs .rsi = (entry.setWidth 32).signExtend 64 := by
  refine ⟨_, rfl, ?_, rfl, rfl, rfl⟩
  show a + 1 + 1 + 1 + 2 + 7 + 7 = a + 19
  simp only [BitVec.add_assoc]
  rfl

theorem straight_prologueCode (string entry : BitVec 64) :
    x86.Straight (prologueCode string entry) := by
  simp [x86.Straight, prologueCode]

/-- The first byte of an ELF file is no instruction that is known here. -/
theorem run_magic {sys : List x86.Write → BitVec 64} {c : x86.Cpu} {n : Nat}
    (hop : c.mem c.rip = 0x7f) : c.run sys (n + 1) = none := by
  have hdecode : ∀ bs, x86.decode (0x7f :: bs) = none := by
    intro bs
    rcases bs with _ | ⟨b, _ | ⟨modrm, bs⟩⟩ <;> rfl
  have hstep : c.step sys = none := by
    rw [x86.Cpu.step, List.range_succ_eq_map, List.map_cons, BitVec.add_zero, hop, hdecode]
    rfl
  rw [x86.Cpu.run, hstep]
  rfl

theorem add_ofNat_add (a : Addr) (j k : Nat) :
    a + BitVec.ofNat 64 j + BitVec.ofNat 64 k = a + BitVec.ofNat 64 (j + k) := by
  rw [BitVec.add_assoc, ← BitVec.ofNat_add]

/-! ## The buffer -/

/-- All of the buffer after `do_crack`. Between `crack_code` and the message it is as it was. -/
theorem do_crack_byte (crack_code : Nat → Byte) {w : World} (hsize : w.newphdr.p_filesz = 1024)
    {k : Nat} (hk : k < 2 ^ 64) :
    (do_crack crack_code w).newsegment (BitVec.ofNat 64 k) =
      if k < 19 then (prologue (w.newphdr.p_vaddr + 1011) (EHDR w.elf).e_entry).getD k 0
      else if k < 119 then crack_code (k - 19)
      else if 1011 ≤ k ∧ k < 1024 then MESSAGE.getD (k - 1011) 0
      else w.newsegment (BitVec.ofNat 64 k) := by
  have hlen : MESSAGE.length = 13 := by decide
  have hstring : w.newphdr.p_filesz - BitVec.ofNat 64 13 = BitVec.ofNat 64 1011 := by
    rw [hsize]
    decide
  simp only [do_crack, poke, write32, hlen, hstring, BitVec.ofNat_eq_ofNat, List.length_cons,
    List.length_nil]
  simp (disch := omega) only [overlay_ofNat]
  by_cases h19 : k < 19
  · rw [if_pos h19]
    interval_cases k <;> rfl
  · rw [if_neg h19]
    split_ifs <;> first | omega | rfl

/-! ## The cracked program -/

/-- The memory of a program that is loaded at its link addresses, as far as the segment goes. -/
def image (out : Bytes) (phdr : Elf64_Phdr) : Bytes := fun a =>
  out (phdr.p_offset + (a - phdr.p_vaddr))

/-- The processor is at the first instruction of the program in `out` and the new segment is in
memory. The 32 bytes below the stack are apart from it. -/
structure AtEntry (out : Bytes) (new : Elf64_Phdr) (c : x86.Cpu) : Prop where
  rip : c.rip = (EHDR out).e_entry
  mem : ∀ k < 1024, c.mem (new.p_vaddr + BitVec.ofNat 64 k) =
    image out new (new.p_vaddr + BitVec.ofNat 64 k)
  room : 32 ≤ c.rsp.toNat
  apart : ∀ k < 1024, ¬ Within (new.p_vaddr + BitVec.ofNat 64 k) (c.rsp.toNat - 32) 32

/-- The message is in the new segment, and the program starts with code that loads its address
and that of the original entry. -/
structure StubRight (m out : Bytes) (new : Elf64_Phdr) : Prop where
  mapped : new.p_type = PT_LOAD ∧ 1024 ≤ new.p_filesz.toNat ∧
    new.p_filesz.toNat ≤ new.p_memsz.toNat
  message : ∀ k < MESSAGE.length,
    image out new (new.p_vaddr + 1011 + BitVec.ofNat 64 k) = MESSAGE.getD k 0
  entry : (EHDR out).e_entry = new.p_vaddr
  run : ∀ sys c, AtEntry out new c → ∃ c', c.run sys 6 = some c' ∧
    c'.rip = (EHDR out).e_entry + 19 ∧ c'.rsp + 32 = c.rsp ∧
    HoldsWords c'.mem c'.rsp [12, c.regs .rdi, c.regs .rdx, c.regs .rax] ∧
    c'.regs .rdi = new.p_vaddr + 1011 ∧ c'.regs .rsi = (EHDR m).e_entry

/-- The 32 low bits give back the address. -/
def InImm32 (x : BitVec 64) : Prop := x.toNat < 2 ^ 31 ∨ 2 ^ 64 - 2 ^ 31 ≤ x.toNat

instance (x : BitVec 64) : Decidable (InImm32 x) := inferInstanceAs (Decidable (_ ∨ _))

theorem signExtend_low_iff (x : BitVec 64) :
    (x.setWidth 32).signExtend 64 = x ↔ InImm32 x := by
  have hx := x.isLt
  have hlow : (x.setWidth 32).toNat = x.toNat % 2 ^ 32 := BitVec.toNat_setWidth ..
  rw [← BitVec.toNat_inj, InImm32]
  by_cases hpos : x.toNat % 2 ^ 32 < 2 ^ 31
  · rw [toNat_signExtend_int (by rwa [hlow]), hlow]
    omega
  · rw [toNat_signExtend_neg (n := 2 ^ 32 - x.toNat % 2 ^ 32) (by rw [hlow]; omega) (by omega)
      (by omega)]
    omega

section

variable {crack_code : Nat → Byte} {out : Bytes} {w w5 : World}

theorem Cracked.newsegment_eq (h : Cracked crack_code w w5 out) :
    w5.newsegment = (cracked crack_code w).newsegment := by
  rw [h.edited.frame]
  rfl

/-- The edits leave the first byte. -/
theorem Cracked.elf_first (h : Cracked crack_code w w5 out) : w5.elf 0 = w.elf 0 := by
  apply h.edited.same 0 (by decide) (by decide)
  intro i _ _ hin
  exact absurd hin.1 (by simp)

theorem Cracked.new_vaddr (h : Cracked crack_code w w5 out) :
    (grow_segment w5).newphdr.p_vaddr = newAddr w.elf + newOffset w.elf := by
  simp only [grow_segment, h.edited.newphdr, make_segment]

theorem Cracked.entry_eq (h : Cracked crack_code w w5 out) :
    (EHDR out).e_entry = (grow_segment w5).newphdr.p_vaddr := by
  rw [h.EHDR_eq, h.edited.EHDR_eq, h.new_vaddr]

/-- What `do_crack` has put into the buffer. -/
theorem cracked_byte (crack_code : Nat → Byte) (w : World) {k : Nat} (hk : k < 2 ^ 64) :
    (cracked crack_code w).newsegment (BitVec.ofNat 64 k) =
      if k < 19 then
        (prologue (newAddr w.elf + newOffset w.elf + 1011) (EHDR w.elf).e_entry).getD k 0
      else if k < 119 then crack_code (k - 19)
      else if 1011 ≤ k ∧ k < 1024 then MESSAGE.getD (k - 1011) 0
      else w.newsegment (BitVec.ofNat 64 k) := by
  have hentry : (EHDR (make_segment (newAddr w.elf) (newOffset w.elf) 1024 w).elf).e_entry =
      (EHDR w.elf).e_entry := by
    rw [make_segment, EHDR_set_phnum]
  rw [cracked, do_crack_byte crack_code rfl hk, hentry]
  rfl

theorem Cracked.image_byte (h : Cracked crack_code w w5 out) {k : Nat} (hk : k < 1024)
    (hlow : sizeofEhdr ≤ (newOffset w.elf).toNat + k) :
    image out (grow_segment w5).newphdr
        ((grow_segment w5).newphdr.p_vaddr + BitVec.ofNat 64 k) =
      (cracked crack_code w).newsegment (BitVec.ofNat 64 k) := by
  have hsub : ∀ a b : Addr, a + b - a = b := by bv_omega
  rw [image, hsub, h.edited.offset, h.byte_segment hk hlow, h.newsegment_eq]

/-- The prologue is at the start of the new segment. -/
theorem Cracked.prologue_at (h : Cracked crack_code w w5 out)
    (hbehind : 64 ≤ (newOffset w.elf).toNat) :
    x86.CodeAt (image out (grow_segment w5).newphdr) (grow_segment w5).newphdr.p_vaddr
      (x86.assemble
        (prologueCode (newAddr w.elf + newOffset w.elf + 1011) (EHDR w.elf).e_entry)) := by
  rw [assemble_prologueCode]
  intro k hk
  have hlt : k < 19 := hk
  rw [h.image_byte (by omega) (show 64 ≤ _ by omega), cracked_byte crack_code w (by omega),
    if_pos hlt]
  exact congrArg (fun b : Option Byte => b.getD 0) (List.getElem?_eq_getElem hk)

/-- The message with its NUL is at the end of it. -/
theorem Cracked.message_at (h : Cracked crack_code w w5 out)
    (hbehind : 64 ≤ (newOffset w.elf).toNat) {k : Nat} (hk : k < 13) :
    image out (grow_segment w5).newphdr
      ((grow_segment w5).newphdr.p_vaddr + BitVec.ofNat 64 (1011 + k)) = MESSAGE.getD k 0 := by
  rw [h.image_byte (by omega) (show 64 ≤ _ by omega), cracked_byte crack_code w (by omega),
    if_neg (by omega), if_neg (by omega), if_pos (by omega), Nat.add_sub_cancel_left]

/-- The new segment starts on a boundary of 512 bytes. -/
theorem newOffset_ge {m : Bytes} (h : newOffset m ≠ 0) : 0x200 ≤ (newOffset m).toNat := by
  have hmod : (newOffset m).toNat % 0x200 = 0 := nextBoundary_mod _ (by decide) (by decide)
  have hpos : (newOffset m).toNat ≠ 0 := fun h0 => h (BitVec.eq_of_toNat_eq h0)
  omega

/-- There is room for a stack in the other half of the address space. -/
theorem exists_stack (a : Addr) :
    ∃ rsp : Addr, 32 ≤ rsp.toNat ∧
      ∀ k < 1024, ¬ Within (a + BitVec.ofNat 64 k) (rsp.toNat - 32) 32 := by
  have ha := a.isLt
  by_cases hlow : a.toNat < 2 ^ 63
  · have hrsp : (0xffffffffffff0000 : Addr).toNat = 0xffffffffffff0000 := rfl
    refine ⟨0xffffffffffff0000, by omega, fun k hk hin => ?_⟩
    have hge := hin.1
    rw [toNat_add_ofNat (by omega), hrsp] at hge
    omega
  · have hrsp : (0x4000000000000000 : Addr).toNat = 0x4000000000000000 := rfl
    refine ⟨0x4000000000000000, by omega, fun k hk hin => ?_⟩
    have hge := hin.1
    have hlt := hin.2
    rw [hrsp] at hge hlt
    rw [BitVec.toNat_add, BitVec.toNat_ofNat] at hge hlt
    omega

theorem exists_atEntry (out : Bytes) (new : Elf64_Phdr) : ∃ c, AtEntry out new c := by
  obtain ⟨rsp, hroom, hapart⟩ := exists_stack new.p_vaddr
  exact ⟨⟨_, rsp, fun _ => 0, image out new, []⟩, rfl, fun _ _ => rfl, hroom, hapart⟩

/-- The processor comes to `crack_code`. -/
theorem Cracked.run_prologue (h : Cracked crack_code w w5 out) (hzero : newOffset w.elf ≠ 0)
    (sys : List x86.Write → BitVec 64) {c : x86.Cpu}
    (hc : AtEntry out (grow_segment w5).newphdr c) :
    ∃ c', c.run sys 6 = some c' ∧ c'.rip = (EHDR out).e_entry + 19 ∧ c'.rsp + 32 = c.rsp ∧
      HoldsWords c'.mem c'.rsp [12, c.regs .rdi, c.regs .rdx, c.regs .rax] ∧
      c'.regs .rdi = ((newAddr w.elf + newOffset w.elf + 1011).setWidth 32).signExtend 64 ∧
      c'.regs .rsi = ((EHDR w.elf).e_entry.setWidth 32).signExtend 64 := by
  have hbehind : 0x200 ≤ (newOffset w.elf).toNat := newOffset_ge hzero
  have hshow : x86.Shows c.mem c.rsp 32 ⟨c.rip, c.regs, [], c.writes⟩ c := {
    rip := rfl
    regs := rfl
    writes := rfl
    rsp := Nat.add_zero _
    fits := Nat.zero_le _
    room_le := hc.room
    stack := trivial
    mem := fun _ _ => rfl }
  have hrip : c.rip = (grow_segment w5).newphdr.p_vaddr := by
    rw [hc.rip, h.entry_eq]
  have hcode : x86.CodeAt c.mem c.rip (x86.assemble
      (prologueCode (newAddr w.elf + newOffset w.elf + 1011) (EHDR w.elf).e_entry)) := by
    intro k hk
    have hlt : k < 19 := hk
    rw [hrip, hc.mem k (by omega)]
    exact h.prologue_at (by omega) k hk
  obtain ⟨v, hview, hvrip, hstack, hrdi, hrsi⟩ := view_prologueCode sys
    (newAddr w.elf + newOffset w.elf + 1011) (EHDR w.elf).e_entry c.rip c.regs c.writes
  obtain ⟨c', hrun, hshow'⟩ := x86.run_straight hshow hcode (straight_prologueCode _ _)
    (fun k hk => by
      have hlt : k < 19 := hk
      rw [hrip]
      exact hc.apart k (by omega))
    (by decide : (32 : Nat) ≤ 32) hview
  have hrsp := hshow'.rsp
  have hwords := hshow'.stack
  rw [hstack] at hrsp hwords
  refine ⟨c', hrun, ?_, ?_, hwords, ?_, ?_⟩
  · rw [hshow'.rip, hvrip, hc.rip]
  · apply BitVec.eq_of_toNat_eq
    have hlt := c.rsp.isLt
    have hsum : c'.rsp.toNat + 32 = c.rsp.toNat := hrsp
    rw [BitVec.toNat_add, show (32 : BitVec 64).toNat = 32 from rfl, hsum, Nat.mod_eq_of_lt hlt]
  · rw [hshow'.regs, hrdi]
  · rw [hshow'.regs, hrsi]

theorem Cracked.stubRight_iff (h : Cracked crack_code w w5 out) (hmagic : w.elf 0 = 0x7f) :
    StubRight w.elf out (grow_segment w5).newphdr ↔
      newOffset w.elf ≠ 0 ∧ InImm32 (newAddr w.elf + newOffset w.elf + 1011) ∧
        InImm32 (EHDR w.elf).e_entry := by
  obtain ⟨c, hc⟩ := exists_atEntry out (grow_segment w5).newphdr
  by_cases hzero : newOffset w.elf = 0
  · refine iff_of_false ?_ (fun hall => hall.1 hzero)
    intro hright
    obtain ⟨c', hrun, _⟩ := hright.run (fun _ => 0) c hc
    have hfirst : c.mem c.rip = 0x7f := by
      have hmem := hc.mem 0 (by decide)
      rw [BitVec.add_zero] at hmem
      rw [hc.rip, h.entry_eq, hmem, image, BitVec.sub_self, h.edited.offset, hzero,
        h.output_tables, BitVec.add_zero, h.layout.run_header (by decide)]
      exact h.elf_first.trans hmagic
    rw [run_magic hfirst] at hrun
    cases hrun
  · rw [← signExtend_low_iff, ← signExtend_low_iff]
    constructor
    · intro hright
      obtain ⟨c1, hrun1, _, _, _, hrdi1, hrsi1⟩ := h.run_prologue hzero (fun _ => 0) hc
      obtain ⟨c2, hrun2, _, _, _, hrdi2, hrsi2⟩ := hright.run (fun _ => 0) c hc
      obtain rfl : c1 = c2 := Option.some.inj (hrun1.symm.trans hrun2)
      rw [h.new_vaddr] at hrdi2
      exact ⟨hzero, hrdi1.symm.trans hrdi2, hrsi1.symm.trans hrsi2⟩
    · rintro ⟨_, hstring, hstart⟩
      have hbehind := newOffset_ge hzero
      exact {
        mapped := by
          have hfilesz := h.layout.filesz
          refine ⟨?_, by omega, Nat.le_refl _⟩
          simp only [grow_segment, h.edited.newphdr, make_segment]
        message := by
          intro k hk
          have hk13 : k < 13 := hk
          rw [show (1011 : BitVec 64) = BitVec.ofNat 64 1011 from rfl, add_ofNat_add]
          exact h.message_at (by omega) hk13
        entry := h.entry_eq
        run := by
          intro sys c hc
          obtain ⟨c', hrun, hrip, hrsp, hstack, hrdi, hrsi⟩ := h.run_prologue hzero sys hc
          rw [h.new_vaddr]
          exact ⟨c', hrun, hrip, hrsp, hstack, hrdi.trans hstring, hrsi.trans hstart⟩ }

end

theorem IsElf.first {file : List Byte} (h : IsElf file) (heap : Heap) :
    (startup heap file).elf 0 = 0x7f := by
  cases file with
  | nil => cases h
  | cons b file => exact List.head_eq_of_cons_eq h

/-- The prologue of a cracked program loads the address of the message and that of the original
entry exactly if both can be given by 32 bits with a sign, and the new segment is not at the
start of the file. -/
theorem the_stub_targets_the_right_addresses_iff_they_fit (heap : Heap) (crack_code : Nat → Byte)
    (file : List Byte) (out : Bytes) (w2 : World) (helf : IsElf file)
    (hin : ElfInput (startup heap file).elf file.length)
    (hphnum : (EHDR (startup heap file).elf).e_phnum ≠ 0)
    (hcrack : crack heap crack_code file = .ok (out, w2)) :
    StubRight (startup heap file).elf out (lastPhdr out) ↔
      newOffset (startup heap file).elf ≠ 0 ∧
        InImm32 (newAddr (startup heap file).elf + newOffset (startup heap file).elf + 1011) ∧
        InImm32 (EHDR (startup heap file).elf).e_entry := by
  obtain ⟨w, w5, _, hw, _, _, hrun⟩ := crack.spec hin hcrack
  have hfirst := helf.first heap
  rw [← hw] at hfirst hphnum ⊢
  rw [hrun.lastPhdr_eq (hrun.input.phentsize hphnum), hrun.stubRight_iff hfirst]

theorem the_stub_of_a_small_file_targets_the_right_addresses :
    ∃ out w2, crack zeroHeap nops smallFile = .ok (out, w2) ∧
      StubRight (startup zeroHeap smallFile).elf out (lastPhdr out) := by
  obtain ⟨out, w2, hcrack⟩ := crack_of_isOk zeroHeap nops smallFile (by decide +kernel)
  refine ⟨out, w2, hcrack, ?_⟩
  refine (the_stub_targets_the_right_addresses_iff_they_fit zeroHeap nops smallFile out w2
    (by decide) smallFile_input (by decide +kernel) hcrack).mpr ?_
  decide +kernel

/-- The small file, linked at the fourth gigabyte. -/
def highFile : List Byte :=
  patch (patch smallFile 24 (number 8 0x100000130)) 136 (number 8 0x100000000)

theorem highFile_input : ElfInput (startup zeroHeap highFile).elf highFile.length :=
  .of_entsizes (by decide +kernel) (by decide +kernel) (by decide +kernel) (by decide +kernel)

theorem the_stub_of_a_high_program_targets_wrong_addresses :
    ∃ out w2, IsElf highFile ∧ crack zeroHeap nops highFile = .ok (out, w2) ∧
      ¬ StubRight (startup zeroHeap highFile).elf out (lastPhdr out) := by
  have hmagic : IsElf highFile := by decide
  obtain ⟨out, w2, hcrack⟩ := crack_of_isOk zeroHeap nops highFile (by decide +kernel)
  obtain ⟨w, w5, _, hw, _, _, hrun⟩ := crack.spec highFile_input hcrack
  refine ⟨out, w2, hmagic, hcrack, ?_⟩
  have hfirst := hmagic.first zeroHeap
  rw [← hw] at hfirst ⊢
  rw [hrun.lastPhdr_eq (by rw [hw]; decide +kernel), hrun.stubRight_iff hfirst, hw]
  decide +kernel

end elf_clack
