-- Whether the output of elf-clack has room for all copies. `create_exe`
-- computes its length from the place of the new segment and the sizes of the
-- tables. The first copy is that of the whole input, whose size `create_exe`
-- gets and does not use.
import BinaryLab.CrackCopies

set_option linter.style.nameCheck false

open binary_lab.runs binary_lab.words binary_lab.pages

namespace elf_clack

/-- The length of the output, if nothing wraps. -/
def exeLen (m : Bytes) : Nat :=
  (newOffset m).toNat + 1024 + shdrsLen m + (phdrsLen m + (EHDR m).e_phentsize.toNat) +
    (EHDR m).e_shentsize.toNat

/-! ## Sizes -/

theorem toNat_setWidth_half (x : BitVec 16) : (x.setWidth 64).toNat = x.toNat := by
  have := x.isLt
  rw [BitVec.toNat_setWidth, Nat.mod_eq_of_lt (by omega)]

theorem eq_ofNat {x : BitVec 64} {n : Nat} (h : x.toNat = n) : x = BitVec.ofNat 64 n := by
  rw [← h, BitVec.ofNat_toNat, BitVec.setWidth_eq]

section

variable {w w5 : World} {crack_code : Nat → Byte}

/-- The header after the edits. -/
theorem Edited.EHDR_eq
    (h : Edited (prepared crack_code (newAddr w.elf) (newOffset w.elf) 1024 w) w w5) :
    EHDR w5.elf = { EHDR w.elf with
      e_entry := newAddr w.elf + newOffset w.elf
      e_phnum := (EHDR w.elf).e_phnum + 1
      e_shoff := newOffset w.elf + 1024
      e_phoff := newOffset w.elf + 1024 + (shdr_size w.elf).signExtend 64 } :=
  h.header.trans (prepared_EHDR _ _ _ _ _)

theorem Edited.newphdr
    (h : Edited (prepared crack_code (newAddr w.elf) (newOffset w.elf) 1024 w) w w5) :
    w5.newphdr = (make_segment (newAddr w.elf) (newOffset w.elf) 1024 w).newphdr := by
  rw [h.frame]
  rfl

theorem Edited.offset
    (h : Edited (prepared crack_code (newAddr w.elf) (newOffset w.elf) 1024 w) w w5) :
    (grow_segment w5).newphdr.p_offset = newOffset w.elf := by
  simp only [grow_segment, h.newphdr, make_segment]

theorem Edited.size
    (h : Edited (prepared crack_code (newAddr w.elf) (newOffset w.elf) 1024 w) w w5) :
    w5.size = w.size := by
  rw [h.frame]
  rfl

section

variable (hsizes : shdrsLen w.elf + phdrsLen w.elf + (EHDR w.elf).e_phentsize.toNat < 2 ^ 31)

include hsizes

/-- The size of the section headers, at every point of the run. -/
theorem toNat_shdrs {m : Bytes}
    (hent : (EHDR m).e_shentsize = (EHDR w.elf).e_shentsize)
    (hnum : (EHDR m).e_shnum = (EHDR w.elf).e_shnum) :
    ((shdr_size m).signExtend 64).toNat = shdrsLen w.elf := by
  have hsize : (shdr_size m).toNat = shdrsLen w.elf := by
    rw [shdr_size, toNat_intMul, hent, hnum, shdrsLen]
  rw [toNat_signExtend_int (by omega), hsize]

/-- The size of the program headers, once there is the new one. -/
theorem toNat_phdrs (hphnum : (EHDR w.elf).e_phnum.toNat + 1 < 2 ^ 16) {m : Bytes}
    (hent : (EHDR m).e_phentsize = (EHDR w.elf).e_phentsize)
    (hnum : (EHDR m).e_phnum = (EHDR w.elf).e_phnum + 1) :
    (phdr_size m).toNat = phdrsLen w.elf + (EHDR w.elf).e_phentsize.toNat ∧
      ((old_phdr_size m).signExtend 64).toNat = phdrsLen w.elf := by
  have hcount : (EHDR m).e_phnum.toNat = (EHDR w.elf).e_phnum.toNat + 1 := by
    rw [hnum, BitVec.toNat_add, show (1 : BitVec 16).toNat = 1 from rfl,
      Nat.mod_eq_of_lt hphnum]
  have hold : (old_phdr_size m).toNat = phdrsLen w.elf := by
    rw [toNat_old_size hcount, hent, phdrsLen]
  constructor
  · rw [phdr_size, toNat_intMul, hent, hcount, Nat.mul_add, Nat.mul_one, phdrsLen]
  · rw [toNat_signExtend_int (by omega), hold]

/-- The sum that `create_exe` computes. -/
theorem exe_length_eq (hphnum : (EHDR w.elf).e_phnum.toNat + 1 < 2 ^ 16) :
    exe_length (cracked crack_code w) = BitVec.ofNat 64 (exeLen w.elf) := by
  have hE := cracked_EHDR crack_code (w := w)
  have hsh := toNat_shdrs hsizes (m := (cracked crack_code w).elf) (by rw [hE]) (by rw [hE])
  obtain ⟨hph, _⟩ := toNat_phdrs hsizes hphnum (m := (cracked crack_code w).elf) (by rw [hE])
    (by rw [hE])
  have hph' : ((phdr_size (cracked crack_code w).elf).signExtend 64).toNat =
      phdrsLen w.elf + (EHDR w.elf).e_phentsize.toNat := by
    rw [toNat_signExtend_int (by omega), hph]
  have hent : ((EHDR (cracked crack_code w).elf).e_shentsize.setWidth 64).toNat =
      (EHDR w.elf).e_shentsize.toNat := by
    rw [toNat_setWidth_half, hE]
  have hoff : (cracked crack_code w).newphdr.p_offset.toNat = (newOffset w.elf).toNat := rfl
  have hsz : (cracked crack_code w).newphdr.p_filesz.toNat = 1024 := rfl
  rw [exe_length, eq_ofNat hoff, eq_ofNat hsz, eq_ofNat hsh, eq_ofNat hph', eq_ofNat hent]
  simp only [← BitVec.ofNat_add]
  rfl

/-- The new segment with both tables. -/
theorem Edited.toNat_filesz
    (h : Edited (prepared crack_code (newAddr w.elf) (newOffset w.elf) 1024 w) w w5)
    (hphnum : (EHDR w.elf).e_phnum.toNat + 1 < 2 ^ 16) :
    (grow_segment w5).newphdr.p_filesz.toNat =
      1024 + shdrsLen w.elf + (phdrsLen w.elf + (EHDR w.elf).e_phentsize.toNat) := by
  have hE := h.EHDR_eq
  obtain ⟨hph, _⟩ := toNat_phdrs hsizes hphnum (m := w5.elf) (by rw [hE]) (by rw [hE])
  have hsh : (shdr_size w5.elf).toNat = shdrsLen w.elf := by
    rw [shdr_size, toNat_intMul, hE, shdrsLen]
  have hsum : (phdr_size w5.elf + shdr_size w5.elf).toNat =
      phdrsLen w.elf + (EHDR w.elf).e_phentsize.toNat + shdrsLen w.elf := by
    rw [BitVec.toNat_add, hph, hsh, Nat.mod_eq_of_lt (by omega)]
  have hold : w5.newphdr.p_filesz = 1024 := congrArg Elf64_Phdr.p_filesz h.newphdr
  have hgrown : (grow_segment w5).newphdr.p_filesz =
      w5.newphdr.p_filesz + (phdr_size w5.elf + shdr_size w5.elf).signExtend 64 := rfl
  rw [hgrown, hold, BitVec.toNat_add, toNat_signExtend_int (by omega), hsum,
    show (1024 : BitVec 64).toNat = 1024 from rfl, Nat.mod_eq_of_lt (by omega)]
  omega

/-- If nothing wraps, the copies have their places one behind the other. -/
theorem Edited.layout
    (h : Edited (prepared crack_code (newAddr w.elf) (newOffset w.elf) 1024 w) w w5)
    (hphnum : (EHDR w.elf).e_phnum.toNat + 1 < 2 ^ 16)
    (hwrap : exeLen w.elf < 2 ^ 64) :
    Layout (grow_segment w5) (newOffset w.elf).toNat (shdrsLen w.elf) (phdrsLen w.elf)
      (EHDR w.elf).e_phentsize.toNat := by
  have hE := h.EHDR_eq
  unfold exeLen at hwrap
  have hshdrs := toNat_shdrs hsizes (m := w.elf) rfl rfl
  have hshoff : (newOffset w.elf + 1024).toNat = (newOffset w.elf).toNat + 1024 := by
    rw [BitVec.toNat_add, show (1024 : BitVec 64).toNat = 1024 from rfl,
      Nat.mod_eq_of_lt (by omega)]
  exact {
    offset := congrArg BitVec.toNat h.offset
    filesz := h.toNat_filesz hsizes hphnum
    shoff := (congrArg (fun e => e.e_shoff.toNat) hE).trans hshoff
    phoff := by
      refine (congrArg (fun e => e.e_phoff.toNat) hE).trans ?_
      rw [BitVec.toNat_add, hshoff, hshdrs, Nat.mod_eq_of_lt (by omega)]
    shdrs := toNat_shdrs hsizes (m := w5.elf) (by rw [hE]) (by rw [hE])
    phdrs := (toNat_phdrs hsizes hphnum (m := w5.elf) (by rw [hE]) (by rw [hE])).2
    entry := (toNat_setWidth_half _).trans (congrArg (fun e => e.e_phentsize.toNat) hE)
    no_wrap := by omega }

end

/-- An `int` below zero, as a size. -/
theorem toNat_signExtend_neg {x : BitVec 32} {n : Nat} (hx : x.toNat = 2 ^ 32 - n)
    (hpos : 0 < n) (hn : n ≤ 2 ^ 31) : (x.signExtend 64).toNat = 2 ^ 64 - n := by
  have hmsb : x.msb = true := by
    rw [BitVec.msb_eq_true_iff_two_mul_ge]
    omega
  rw [BitVec.toNat_signExtend, hmsb, BitVec.toNat_setWidth]
  simp only [if_true]
  omega

/-- A count of 65535 program headers wraps, and the size of the old ones is below zero. -/
theorem Edited.not_inside_of_wrap
    (h : Edited (prepared crack_code (newAddr w.elf) (newOffset w.elf) 1024 w) w w5)
    (hin : Workable w) (hphnum : ¬ (EHDR w.elf).e_phnum.toNat + 1 < 2 ^ 16)
    (pa sa : Option Addr) :
    ¬ ∀ c ∈ copies pa sa (grow_segment w5),
      c.Inside (exe_length (cracked crack_code w)).toNat := by
  have hE := h.EHDR_eq
  have hnum := (EHDR w.elf).e_phnum.isLt
  have hzero : (EHDR w.elf).e_phnum + 1 = 0 := by
    apply BitVec.eq_of_toNat_eq
    rw [BitVec.toNat_add, show (1 : BitVec 16).toNat = 1 from rfl,
      show (0 : BitVec 16).toNat = 0 from rfl]
    omega
  have hent : 56 ≤ (EHDR w.elf).e_phentsize.toNat := by
    apply hin.phentsize
    intro h0
    rw [h0] at hphnum
    exact hphnum (by decide)
  have hentlt := (EHDR w.elf).e_phentsize.isLt
  have hshlt := (EHDR w.elf).e_shentsize.isLt
  have hold : old_phdr_size w5.elf = -(EHDR w.elf).e_phentsize.setWidth 32 := by
    rw [old_phdr_size, hE]
    simp only [hzero]
    rw [show BitVec.setWidth 32 (0 : BitVec 16) - 1 = -1 from rfl, BitVec.mul_neg]
    exact congrArg Neg.neg (BitVec.mul_one _)
  have hneg : (old_phdr_size w5.elf).toNat = 2 ^ 32 - (EHDR w.elf).e_phentsize.toNat := by
    rw [hold, BitVec.toNat_neg, BitVec.toNat_setWidth]
    omega
  have hsize := toNat_signExtend_neg hneg (by omega) (by omega)
  have hphdrs : phdr_size (cracked crack_code w).elf = 0 := by
    rw [phdr_size, cracked_EHDR]
    simp only [hzero]
    exact BitVec.mul_zero
  have hlength : exe_length (cracked crack_code w) =
      (EHDR w5.elf).e_phoff + (EHDR w.elf).e_shentsize.setWidth 64 := by
    have hshdrs : shdr_size (cracked crack_code w).elf = shdr_size w.elf := by
      rw [shdr_size, cracked_EHDR, shdr_size]
    rw [exe_length, hphdrs, hshdrs, hE, cracked_EHDR]
    exact congrArg (· + _) (BitVec.add_zero _)
  intro hall
  have hcopy := hall ⟨(EHDR w5.elf).e_phoff, .elf pa, (old_phdr_size w5.elf).signExtend 64⟩
    (by simp [copies, table_copies, grow_segment])
  have hle : (exe_length (cracked crack_code w)).toNat ≤
      (EHDR w5.elf).e_phoff.toNat + (EHDR w.elf).e_shentsize.toNat := by
    rw [hlength, BitVec.toNat_add, toNat_setWidth_half]
    exact Nat.mod_le _ _
  rcases hcopy with hnone | hfits
  · have := congrArg BitVec.toNat hnone
    rw [hsize, show (0 : BitVec 64).toNat = 0 from rfl] at this
    omega
  · have hfits : (EHDR w5.elf).e_phoff.toNat + ((old_phdr_size w5.elf).signExtend 64).toNat ≤ _ :=
      hfits
    omega

/-- All copies are within the output exactly if nothing wraps and the input is not longer than
the output. -/
theorem Edited.inside_iff
    (h : Edited (prepared crack_code (newAddr w.elf) (newOffset w.elf) 1024 w) w w5)
    (hin : Workable w) (pa sa : Option Addr) :
    (∀ c ∈ copies pa sa (grow_segment w5), c.Inside (exe_length (cracked crack_code w)).toNat) ↔
      (EHDR w.elf).e_phnum.toNat + 1 < 2 ^ 16 ∧ exeLen w.elf < 2 ^ 64 ∧
        w.size ≤ exeLen w.elf := by
  by_cases hphnum : (EHDR w.elf).e_phnum.toNat + 1 < 2 ^ 16
  · rw [exe_length_eq hin.sizes hphnum, BitVec.toNat_ofNat, copies, List.forall_mem_cons]
    by_cases hwrap : exeLen w.elf < 2 ^ 64
    · have hlayout := h.layout hin.sizes hphnum hwrap
      have hroom : (newOffset w.elf).toNat + 1024 + shdrsLen w.elf + phdrsLen w.elf +
          (EHDR w.elf).e_phentsize.toNat ≤ exeLen w.elf := by
        unfold exeLen
        omega
      have hsize := hin.size
      have hfirst : (BitVec.ofNat 64 (grow_segment w5).size).toNat = w.size := by
        rw [show (grow_segment w5).size = w5.size from rfl, h.size, BitVec.toNat_ofNat,
          Nat.mod_eq_of_lt (by omega)]
      rw [Nat.mod_eq_of_lt hwrap]
      constructor
      · rintro ⟨hcopy, _⟩
        refine ⟨hphnum, hwrap, ?_⟩
        rcases hcopy with hzero | hfits
        · have hnone := congrArg BitVec.toNat hzero
          rw [hfirst, show (0 : BitVec 64).toNat = 0 from rfl] at hnone
          omega
        · rw [hfirst, show (0 : Addr).toNat = 0 from rfl] at hfits
          omega
      · rintro ⟨_, _, hfits⟩
        refine ⟨.inr ?_, hlayout.inside hroom⟩
        rw [hfirst, show (0 : Addr).toNat = 0 from rfl]
        omega
    · refine iff_of_false ?_ (fun hall => hwrap hall.2.1)
      rintro ⟨_, hall⟩
      have hsegment := hall _ List.mem_cons_self
      have hfilesz := h.toNat_filesz hin.sizes hphnum
      have hoffset := h.offset
      have hlt := (newOffset w.elf).isLt
      have hsh := (EHDR w.elf).e_shentsize.isLt
      have hsizes := hin.sizes
      -- the end of the new segment is in front of 2^64, and the length behind it
      have hmod : exeLen w.elf % 2 ^ 64 + 2 ^ 64 ≤ exeLen w.elf := by omega
      rcases hsegment with hzero | hfits
      · have hnone := congrArg BitVec.toNat hzero
        rw [hfilesz, show (0 : BitVec 64).toNat = 0 from rfl] at hnone
        omega
      · have hfits : (newOffset w.elf).toNat + (grow_segment w5).newphdr.p_filesz.toNat ≤
            exeLen w.elf % 2 ^ 64 := hoffset ▸ hfits
        rw [hfilesz] at hfits
        have hlen : exeLen w.elf = (newOffset w.elf).toNat + (1024 + shdrsLen w.elf +
            (phdrsLen w.elf + (EHDR w.elf).e_phentsize.toNat)) +
            (EHDR w.elf).e_shentsize.toNat := by
          unfold exeLen
          omega
        omega
  · exact iff_of_false (h.not_inside_of_wrap hin hphnum pa sa) fun hall => hphnum hall.1

end

/-- Every copy of `dump_elf` lies within the output exactly if the input is not longer than the
output and neither the length of the output nor the count of the program headers wraps. -/
theorem every_copy_fits_iff_the_input_is_not_longer (heap : Heap) (crack_code : Nat → Byte)
    (file : List Byte) (w : World) (hanalyze : analyze (startup heap file) = .ok w)
    (hin : ElfInput w.elf w.size) :
    ∃ size w1 w5, add_new_segment 1024 w = .ok (size, w1) ∧
      edited (do_crack crack_code w1) = .ok w5 ∧
      (∀ length start, dump_elf length (do_crack crack_code w1) start =
        (copies (PHDR (do_crack crack_code w1).elf 0) (SHDR (do_crack crack_code w1).elf 0)
            (grow_segment w5)).foldlM
          (fun start c => my_memcpy length (grow_segment w5) c.dst c.src c.size start) start >>=
            fun start => .ok (start, grow_segment w5)) ∧
      ((∀ c ∈ copies (PHDR (do_crack crack_code w1).elf 0) (SHDR (do_crack crack_code w1).elf 0)
            (grow_segment w5), c.Inside (exe_length (do_crack crack_code w1)).toNat) ↔
        (EHDR w.elf).e_phnum.toNat + 1 < 2 ^ 16 ∧ exeLen w.elf < 2 ^ 64 ∧
          file.length ≤ exeLen w.elf) := by
  obtain ⟨hframe, hlisted⟩ := analyze.spec hanalyze
  have hwork := hin.workable hlisted
  obtain ⟨size, hadd⟩ := add_new_segment_eq hlisted 1024
  obtain ⟨w5, hok, hedited⟩ := edited.spec hwork.behind hlisted crack_code
    (newAddr w.elf) (newOffset w.elf) 1024
  have hsize : w.size = file.length := by
    rw [hframe]
    rfl
  refine ⟨size, _, w5, hadd, hok, ?_, ?_⟩
  · intro length start
    rw [dump_elf_copies, hok]
    rfl
  · rw [← hsize]
    exact hedited.inside_iff hwork _ _

theorem every_copy_of_a_small_file_fits :
    ∃ w size w1 w5, analyze (startup zeroHeap smallFile) = .ok w ∧
      add_new_segment 1024 w = .ok (size, w1) ∧ edited (do_crack nops w1) = .ok w5 ∧
      ∀ c ∈ copies (PHDR (do_crack nops w1).elf 0) (SHDR (do_crack nops w1).elf 0)
        (grow_segment w5), c.Inside (exe_length (do_crack nops w1)).toNat := by
  obtain ⟨w, hw, hin, helf, _⟩ := analyzed_input (by decide +kernel) smallFile_input
  obtain ⟨size, w1, w5, hadd, hedited, _, hiff⟩ :=
    every_copy_fits_iff_the_input_is_not_longer zeroHeap nops smallFile w hw hin
  refine ⟨w, size, w1, w5, hw, hadd, hedited, hiff.mpr ?_⟩
  rw [helf]
  decide +kernel

/-- The small file with more data behind its last section. -/
def longFile : List Byte := smallFile ++ List.replicate 2000 0

theorem longFile_input : ElfInput (startup zeroHeap longFile).elf longFile.length :=
  .of_entsizes (by decide +kernel) (by decide +kernel) (by decide +kernel) (by decide +kernel)

/-- The tables of the file are inside of it, and the copy of it is longer than the output. -/
theorem the_copy_of_a_long_file_does_not_fit :
    ∃ w size w1 w5, IsElf longFile ∧ analyze (startup zeroHeap longFile) = .ok w ∧
      ElfInput w.elf w.size ∧
      (EHDR w.elf).e_phoff.toNat + phdrsLen w.elf ≤ longFile.length ∧
      (EHDR w.elf).e_shoff.toNat + shdrsLen w.elf ≤ longFile.length ∧
      add_new_segment 1024 w = .ok (size, w1) ∧ edited (do_crack nops w1) = .ok w5 ∧
      ¬ ∀ c ∈ copies (PHDR (do_crack nops w1).elf 0) (SHDR (do_crack nops w1).elf 0)
        (grow_segment w5), c.Inside (exe_length (do_crack nops w1)).toNat := by
  obtain ⟨w, hw, hin, helf, hsize⟩ := analyzed_input (by decide +kernel) longFile_input
  obtain ⟨_, hlisted⟩ := analyze.spec hw
  have hwork := hin.workable hlisted
  obtain ⟨size, hadd⟩ := add_new_segment_eq hlisted 1024
  obtain ⟨w5, hok, hedited⟩ := edited.spec hwork.behind hlisted nops
    (newAddr w.elf) (newOffset w.elf) 1024
  refine ⟨w, size, _, w5, by decide, hw, hin, ?_, ?_, hadd, hok, ?_⟩
  · rw [helf]
    decide +kernel
  · rw [helf]
    decide +kernel
  · intro hall
    have hfits := ((hedited.inside_iff hwork _ _).mp hall).2.2
    rw [hsize, helf] at hfits
    revert hfits
    decide +kernel

end elf_clack
