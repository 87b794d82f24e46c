-- The cracked file as a whole, if `main` of elf-clack comes to its end: where
-- the header, the new segment and the tables are in it, and whether the
-- `PT_PHDR` entry gives the place at which the new segment maps the table.
import BinaryLab.OutputLength

set_option linter.style.nameCheck false

open binary_lab.runs binary_lab.words binary_lab.pages

namespace elf_clack

/-! ## A whole run -/

/-- A run over the world `w` that `analyze` leaves, with the edited world `w5`, to its end. -/
structure Cracked (crack_code : Nat → Byte) (w w5 : World) (out : Bytes) : Prop where
  input : Workable w
  listed : Listed w
  edited : Edited (prepared crack_code (newAddr w.elf) (newOffset w.elf) 1024 w) w w5
  copies : ∀ c ∈ copies (PHDR w.elf 0) (SHDR w.elf 0) (grow_segment w5),
    c.Inside (exe_length (cracked crack_code w)).toNat ∧
      (grow_segment w5).readable c.size.toNat c.src = .ok ()
  output : out = (elf_clack.copies (PHDR w.elf 0) (SHDR w.elf 0) (grow_segment w5)).foldl
    (Copy.run (grow_segment w5)) fun _ => 0

/-- The tables are at their places while the new segment is filled. -/
theorem cracked_tables (crack_code : Nat → Byte) (w : World) :
    PHDR (cracked crack_code w).elf 0 = PHDR w.elf 0 ∧
      SHDR (cracked crack_code w).elf 0 = SHDR w.elf 0 := by
  have hE := cracked_EHDR crack_code (w := w)
  constructor
  · rw [PHDR, PHDR, phdrOff, phdrOff, hE]
  · rw [SHDR, SHDR, shdrOff, shdrOff, hE]

theorem Workable.PHDR_eq {w : World} (h : Workable w) (hnum : (EHDR w.elf).e_phnum ≠ 0) :
    PHDR w.elf 0 = some (EHDR w.elf).e_phoff := by
  have hbehind : 58 ≤ (EHDR w.elf).e_phoff.toNat := h.behind.phoff hnum
  rw [PHDR, if_neg, phdrOff, entryAt_eq, Nat.mul_zero, BitVec.add_zero]
  intro h0
  rw [h0] at hbehind
  exact absurd hbehind (by decide)

section

variable {heap : Heap} {crack_code : Nat → Byte} {file : List Byte} {out : Bytes} {w w2 w5 : World}

theorem create_exe_eq_ok (hin : Workable w) (hlisted : Listed w) :
    create_exe (cracked crack_code w) = .ok (out, w2) ↔
      ∃ w5, w2 = grow_segment w5 ∧ edited (cracked crack_code w) = .ok w5 ∧
        Cracked crack_code w w5 out := by
  obtain ⟨w5, hok, hedited⟩ := edited.spec hin.behind hlisted crack_code
    (newAddr w.elf) (newOffset w.elf) 1024
  obtain ⟨hphdr, hshdr⟩ := cracked_tables crack_code w
  have hok : edited (cracked crack_code w) = .ok w5 := hok
  rw [create_exe, dump_elf_copies, hphdr, hshdr, hok]
  simp only [bind, Except.bind]
  constructor
  · intro hrun
    obtain ⟨out', hcopies, hend⟩ := bind_eq_ok.mp hrun
    cases hend
    obtain ⟨hall, hout⟩ := foldlM_memcpy.mp hcopies
    exact ⟨w5, rfl, rfl, hin, hlisted, hedited, hall, hout⟩
  · rintro ⟨_, rfl, hw5, h⟩
    cases hw5
    exact bind_eq_ok.mpr ⟨out, foldlM_memcpy.mpr ⟨h.copies, h.output⟩, rfl⟩

theorem analyze_startup (hanalyze : analyze (startup heap file) = .ok w) :
    w.elf = (startup heap file).elf ∧ w.size = file.length ∧ w.newphdr_rest = heap.newphdr_rest ∧
      w.newsegment = heap.newsegment := by
  obtain ⟨hframe, _⟩ := analyze.spec hanalyze
  rw [hframe]
  exact ⟨rfl, rfl, rfl, rfl⟩

theorem crack_eq_ok (hin : ElfInput (startup heap file).elf file.length)
    (hanalyze : analyze (startup heap file) = .ok w) :
    crack heap crack_code file = .ok (out, w2) ↔
      ∃ w5, w2 = grow_segment w5 ∧ edited (cracked crack_code w) = .ok w5 ∧
        Cracked crack_code w w5 out := by
  obtain ⟨_, hlisted⟩ := analyze.spec hanalyze
  obtain ⟨helf, hsize, _⟩ := analyze_startup hanalyze
  obtain ⟨size, hadd⟩ := add_new_segment_eq hlisted 1024
  rw [← helf, ← hsize] at hin
  rw [← create_exe_eq_ok (hin.workable hlisted) hlisted, crack, hanalyze]
  simp only [bind, Except.bind, hadd]
  rfl

/-- `main` comes to its end with the output of such a run. -/
theorem crack.spec (hin : ElfInput (startup heap file).elf file.length)
    (hcrack : crack heap crack_code file = .ok (out, w2)) :
    ∃ w w5, analyze (startup heap file) = .ok w ∧ w.elf = (startup heap file).elf ∧
      w.size = file.length ∧ w2 = grow_segment w5 ∧ Cracked crack_code w w5 out := by
  have hrun := hcrack
  rw [crack, bind_eq_ok] at hrun
  obtain ⟨w, hanalyze, _⟩ := hrun
  obtain ⟨w5, hw2, _, hcracked⟩ := (crack_eq_ok hin hanalyze).mp hcrack
  obtain ⟨helf, hsize, _⟩ := analyze_startup hanalyze
  exact ⟨w, w5, hanalyze, helf, hsize, hw2, hcracked⟩

namespace Cracked

theorem fits (h : Cracked crack_code w w5 out) :
    (EHDR w.elf).e_phnum.toNat + 1 < 2 ^ 16 ∧ exeLen w.elf < 2 ^ 64 ∧ w.size ≤ exeLen w.elf :=
  (h.edited.inside_iff h.input _ _).mp fun c hc => (h.copies c hc).1

theorem layout (h : Cracked crack_code w w5 out) :
    Layout (grow_segment w5) (newOffset w.elf).toNat (shdrsLen w.elf) (phdrsLen w.elf)
      (EHDR w.elf).e_phentsize.toNat :=
  h.edited.layout h.input.sizes h.fits.1 h.fits.2.1

/-- The copies behind the first one go over a copy of the edited input. -/
theorem output_tables (h : Cracked crack_code w w5 out) :
    out = (table_copies (PHDR w.elf 0) (SHDR w.elf 0) (grow_segment w5)).foldl
      (Copy.run (grow_segment w5))
      (Copy.run (grow_segment w5) (fun _ => 0) ⟨0, .elf (some 0), BitVec.ofNat 64 w.size⟩) := by
  have hsize : (grow_segment w5).size = w.size := h.edited.size
  rw [h.output, elf_clack.copies, List.foldl_cons, hsize]

theorem byte_header (h : Cracked crack_code w w5 out) {x : Addr} (hx : x.toNat < sizeofEhdr) :
    out x = w5.elf x := by
  rw [h.output_tables]
  exact h.layout.run_header hx

/-- The header of the output is the edited one. -/
theorem EHDR_eq (h : Cracked crack_code w w5 out) : EHDR out = EHDR w5.elf :=
  EHDR_same fun _ => h.byte_header

theorem phnum (h : Cracked crack_code w w5 out) :
    (EHDR out).e_phnum.toNat = (EHDR w.elf).e_phnum.toNat + 1 := by
  rw [h.EHDR_eq, h.edited.EHDR_eq, BitVec.toNat_add, show (1 : BitVec 16).toNat = 1 from rfl,
    Nat.mod_eq_of_lt h.fits.1]

/-- Outside the new segment there is what the first copy has brought. -/
theorem first_byte (h : Cracked crack_code w w5 out) {x : Addr}
    (hlow : sizeofEhdr ≤ x.toNat)
    (hout : x.toNat < (newOffset w.elf).toNat ∨ (newOffset w.elf).toNat + 1024 + shdrsLen w.elf +
      phdrsLen w.elf + (EHDR w.elf).e_phentsize.toNat ≤ x.toNat) :
    out x = if x.toNat < w.size then w5.elf x else 0 := by
  have hsize := h.input.size
  have hcount : (BitVec.ofNat 64 w.size).toNat = w.size := by
    rw [BitVec.toNat_ofNat, Nat.mod_eq_of_lt (by omega)]
  rw [h.output_tables, h.layout.run_old hlow hout]
  simp only [Copy.run, overlay, hcount, BitVec.ofNat_eq_ofNat, BitVec.sub_zero, World.sourceByte,
    BitVec.zero_add, BitVec.ofNat_toNat, BitVec.setWidth_eq]
  rfl

theorem byte_segment (h : Cracked crack_code w w5 out) {k : Nat} (hk : k < 1024)
    (hlow : sizeofEhdr ≤ (newOffset w.elf).toNat + k) :
    out (newOffset w.elf + BitVec.ofNat 64 k) = w5.newsegment (BitVec.ofNat 64 k) := by
  have hplace : newOffset w.elf + BitVec.ofNat 64 k =
      BitVec.ofNat 64 ((newOffset w.elf).toNat + k) := by
    rw [BitVec.ofNat_add, ← eq_ofNat rfl]
  rw [hplace, h.output_tables]
  exact h.layout.run_segment hk hlow

theorem byte_shdrs (h : Cracked crack_code w w5 out) {k : Nat} (hk : k < shdrsLen w.elf) :
    out ((EHDR out).e_shoff + BitVec.ofNat 64 k) =
      (grow_segment w5).sourceByte (.elf (SHDR w.elf 0)) k := by
  rw [h.EHDR_eq, h.output_tables]
  exact h.layout.run_shdrs hk

theorem byte_phdrs (h : Cracked crack_code w w5 out) {k : Nat} (hk : k < phdrsLen w.elf) :
    out ((EHDR out).e_phoff + BitVec.ofNat 64 k) =
      (grow_segment w5).sourceByte (.elf (PHDR w.elf 0)) k := by
  rw [h.EHDR_eq, h.output_tables]
  exact h.layout.run_phdrs hk

theorem byte_newphdr (h : Cracked crack_code w w5 out) {k : Nat}
    (hk : k < (EHDR w.elf).e_phentsize.toNat) :
    out ((EHDR out).e_phoff + BitVec.ofNat 64 (phdrsLen w.elf + k)) =
      (grow_segment w5).sourceByte .newphdr k := by
  have hphdrs : (old_phdr_size (grow_segment w5).elf).signExtend 64 =
      BitVec.ofNat 64 (phdrsLen w.elf) := eq_ofNat h.layout.phdrs
  rw [h.EHDR_eq, h.output_tables, BitVec.ofNat_add, ← BitVec.add_assoc, ← hphdrs]
  exact h.layout.run_newphdr hk

/-- The entries of the program header table are moved as the edits have left them. -/
theorem old_entry (h : Cracked crack_code w w5 out) {i : Nat}
    (hi : i < (EHDR w.elf).e_phnum.toNat) :
    phdrAt out (phdrOff out i) = phdrAt w5.elf (phdrOff w.elf i) := by
  have hent : 56 ≤ (EHDR w.elf).e_phentsize.toNat := h.input.phentsize (phnum_ne_zero hi)
  have hphdr := h.input.PHDR_eq (phnum_ne_zero hi)
  have hentsize : (EHDR out).e_phentsize = (EHDR w.elf).e_phentsize := by
    rw [h.EHDR_eq, h.edited.EHDR_eq]
  have hentry : (EHDR w.elf).e_phentsize.toNat * i + (EHDR w.elf).e_phentsize.toNat ≤
      phdrsLen w.elf := Nat.mul_le_mul_left _ hi
  apply phdrAt_moved
  intro k hk
  have hk56 : k < 56 := hk
  have hmoved := h.byte_phdrs
    (show (EHDR w.elf).e_phentsize.toNat * i + k < phdrsLen w.elf by omega)
  rw [hphdr, World.sourceByte, BitVec.ofNat_add, ← BitVec.add_assoc, ← BitVec.add_assoc] at hmoved
  rw [phdrOff, phdrOff, entryAt_eq, entryAt_eq, hentsize]
  exact hmoved

/-- The last entry is that of the new segment. -/
theorem new_entry (h : Cracked crack_code w w5 out)
    (hent : sizeofPhdr ≤ (EHDR w.elf).e_phentsize.toNat) :
    phdrAt out (phdrOff out (EHDR w.elf).e_phnum.toNat) = (grow_segment w5).newphdr := by
  have hentsize : (EHDR out).e_phentsize = (EHDR w.elf).e_phentsize := by
    rw [h.EHDR_eq, h.edited.EHDR_eq]
  apply phdrAt_of_bytes
  intro k hk
  have hmoved := h.byte_newphdr (Nat.lt_of_lt_of_le hk hent)
  rw [World.sourceByte, if_pos hk, BitVec.ofNat_add, ← BitVec.add_assoc] at hmoved
  rw [phdrOff, entryAt_eq, hentsize]
  exact hmoved

end Cracked

end

/-! ## The `PT_PHDR` entry of the output -/

/-- The entry `phdr` gives the place of the program headers of `out`, in the file and in memory,
if `new` maps them. -/
structure PhdrMapped (out : Bytes) (phdr new : Elf64_Phdr) : Prop where
  offset : phdr.p_offset = (EHDR out).e_phoff
  address : phdr.p_vaddr - new.p_vaddr = (EHDR out).e_phoff - new.p_offset
  start : new.p_vaddr.toNat ≤ phdr.p_vaddr.toNat
  finish : phdr.p_vaddr.toNat + phdr.p_memsz.toNat ≤ new.p_vaddr.toNat + new.p_memsz.toNat

/-- The last entry of the program header table. -/
def lastPhdr (m : Bytes) : Elf64_Phdr := phdrAt m (phdrOff m ((EHDR m).e_phnum.toNat - 1))

theorem distance_eq_iff (a b c d : BitVec 64) : a + d - (a + b) = c - b ↔ d = c := by
  bv_omega

/-- The next boundary is one, also behind a wrap. -/
theorem nextBoundary_mod (x : BitVec 64) {align : BitVec 64} (h0 : 0 < align.toNat)
    (hdvd : align.toNat ∣ 2 ^ 64) : (nextBoundary x align).toNat % align.toNat = 0 := by
  have hmod := Nat.mod_lt x.toNat h0
  have hdiv := Nat.div_add_mod x.toNat align.toNat
  have hsum : x.toNat + (align.toNat - x.toNat % align.toNat) =
      align.toNat * (x.toNat / align.toNat + 1) := by
    rw [Nat.mul_add]
    omega
  unfold nextBoundary
  rw [BitVec.toNat_add, BitVec.toNat_sub_of_le (by rw [BitVec.le_def, BitVec.toNat_umod]; omega),
    BitVec.toNat_umod, hsum, Nat.mod_mod_of_dvd _ hdvd, Nat.mul_mod_right]

theorem newAddr_mod (m : Bytes) : (newAddr m).toNat % 0x200000 = 0 :=
  nextBoundary_mod _ (by decide) (by decide)

section

variable {crack_code : Nat → Byte} {out : Bytes} {w w5 : World} {i : Nat}

theorem Cracked.lastPhdr_eq (h : Cracked crack_code w w5 out)
    (hent : sizeofPhdr ≤ (EHDR w.elf).e_phentsize.toNat) :
    lastPhdr out = (grow_segment w5).newphdr := by
  rw [lastPhdr, h.phnum, Nat.add_sub_cancel, h.new_entry hent]

/-- The remainder is taken of the offset of the table, not of its distance from the segment. -/
theorem Cracked.phdr_entry (h : Cracked crack_code w w5 out)
    (hi : i < (EHDR w.elf).e_phnum.toNat) (hentry : IsPhdrEntry w.elf i) :
    (phdrAt out (phdrOff out i)).p_offset = (EHDR out).e_phoff ∧
      (phdrAt out (phdrOff out i)).p_vaddr = newAddr w.elf + (EHDR out).e_phoff % 0x200000 ∧
      (phdrAt out (phdrOff out i)).p_memsz.toNat =
        phdrsLen w.elf + (EHDR w.elf).e_phentsize.toNat := by
  obtain ⟨hlow, hend⟩ := h.input.behind i hi
  have hsizes := h.input.sizes
  have hE := h.edited.header
  have hsize := (toNat_phdrs h.input.sizes h.fits.1 (m := w5.elf) (by rw [h.edited.EHDR_eq])
    (by rw [h.edited.EHDR_eq])).1
  have hmemsz : phdr_size (prepared crack_code (newAddr w.elf) (newOffset w.elf) 1024 w).elf =
      phdr_size w5.elf := by
    rw [phdr_size, phdr_size, hE]
  have hnew : (prepared crack_code (newAddr w.elf) (newOffset w.elf) 1024 w).newphdr =
      (make_segment (newAddr w.elf) (newOffset w.elf) 1024 w).newphdr := rfl
  rw [h.old_entry hi, h.edited.phdr i hi hentry, phdrAt_move_phdr _ hlow hend, h.EHDR_eq, hE]
  refine ⟨?_, ?_, ?_⟩
  · dsimp only
  · dsimp only
    rw [hnew]
    dsimp only [make_segment]
    rw [BitVec.add_sub_cancel]
  · rw [hmemsz, toNat_signExtend_int (by omega), hsize]

theorem Cracked.phdrMapped_iff (h : Cracked crack_code w w5 out)
    (hi : i < (EHDR w.elf).e_phnum.toNat) (hentry : IsPhdrEntry w.elf i) :
    PhdrMapped out (phdrAt out (phdrOff out i)) (lastPhdr out) ↔
      (newOffset w.elf).toNat + 1024 + shdrsLen w.elf < 0x200000 := by
  obtain ⟨hoffset, hvaddr, hmemsz⟩ := h.phdr_entry hi hentry
  have hnew : (grow_segment w5).newphdr.p_vaddr = newAddr w.elf + newOffset w.elf := by
    simp only [grow_segment, h.edited.newphdr, make_segment]
  have hphoff : (EHDR out).e_phoff.toNat = (newOffset w.elf).toNat + 1024 + shdrsLen w.elf := by
    rw [h.EHDR_eq]
    exact h.layout.phoff
  have hmod : ((EHDR out).e_phoff % 0x200000).toNat = (EHDR out).e_phoff.toNat % 0x200000 :=
    BitVec.toNat_umod
  rw [h.lastPhdr_eq (h.input.phentsize (phnum_ne_zero hi)), ← hphoff]
  constructor
  · intro hmapped
    have haddress := hmapped.address
    rw [hvaddr, hnew, h.edited.offset] at haddress
    have hlt := Nat.mod_lt (EHDR out).e_phoff.toNat (show 0 < 0x200000 by decide)
    rwa [← hmod, (distance_eq_iff _ _ _ _).mp haddress] at hlt
  · intro hlt
    have hsame : (EHDR out).e_phoff % 0x200000 = (EHDR out).e_phoff := by
      apply BitVec.eq_of_toNat_eq
      rw [hmod, Nat.mod_eq_of_lt hlt]
    have haddr := newAddr_mod w.elf
    have haddrlt := (newAddr w.elf).isLt
    have hstart : (newAddr w.elf + newOffset w.elf).toNat =
        (newAddr w.elf).toNat + (newOffset w.elf).toNat := by
      rw [BitVec.toNat_add, Nat.mod_eq_of_lt (by omega)]
    have hplace : (newAddr w.elf + (EHDR out).e_phoff).toNat =
        (newAddr w.elf).toNat + (EHDR out).e_phoff.toNat := by
      rw [BitVec.toNat_add, Nat.mod_eq_of_lt (by omega)]
    rw [hsame] at hvaddr
    exact {
      offset := hoffset
      address := by
        rw [hvaddr, hnew, h.edited.offset]
        exact (distance_eq_iff _ _ _ _).mpr rfl
      start := by
        rw [hvaddr, hnew, hstart, hplace]
        omega
      finish := by
        have hfilesz := h.layout.filesz
        have hgrown : (grow_segment w5).newphdr.p_memsz = (grow_segment w5).newphdr.p_filesz := rfl
        rw [hvaddr, hnew, hstart, hplace, hmemsz, hgrown, hfilesz]
        omega }

end

/-- The moved program headers are mapped where the `PT_PHDR` entry says exactly if they are in
the first two megabytes of the output. -/
theorem the_moved_phdr_is_mapped_iff_it_is_below_two_megabytes (heap : Heap)
    (crack_code : Nat → Byte) (file : List Byte) (out : Bytes) (w2 : World)
    (hin : ElfInput (startup heap file).elf file.length)
    (hcrack : crack heap crack_code file = .ok (out, w2)) (i : Nat)
    (hi : i < (EHDR (startup heap file).elf).e_phnum.toNat)
    (hentry : IsPhdrEntry (startup heap file).elf i) :
    lastPhdr out = w2.newphdr ∧
      (PhdrMapped out (phdrAt out (phdrOff out i)) (lastPhdr out) ↔
        (newOffset (startup heap file).elf).toNat + 1024 + shdrsLen (startup heap file).elf <
          0x200000) := by
  obtain ⟨w, w5, _, helf, _, rfl, hrun⟩ := crack.spec hin hcrack
  rw [← helf] at hi hentry ⊢
  exact ⟨hrun.lastPhdr_eq (hrun.input.phentsize (phnum_ne_zero hi)), hrun.phdrMapped_iff hi hentry⟩

theorem crack_of_isOk (heap : Heap) (crack_code : Nat → Byte) (file : List Byte)
    (h : (crack heap crack_code file).isOk = true) :
    ∃ out w2, crack heap crack_code file = .ok (out, w2) := by
  cases hrun : crack heap crack_code file with
  | error e =>
    rw [hrun] at h
    cases h
  | ok r => exact ⟨r.1, r.2, rfl⟩

theorem the_moved_phdr_of_a_small_file_is_mapped :
    ∃ out w2, crack zeroHeap nops smallFile = .ok (out, w2) ∧
      PhdrMapped out (phdrAt out (phdrOff out 0)) (lastPhdr out) := by
  obtain ⟨out, w2, hcrack⟩ := crack_of_isOk zeroHeap nops smallFile (by decide +kernel)
  refine ⟨out, w2, hcrack, ?_⟩
  refine (the_moved_phdr_is_mapped_iff_it_is_below_two_megabytes zeroHeap nops smallFile out w2
    smallFile_input hcrack 0 (by decide +kernel) ⟨by decide +kernel, ?_⟩).2.mpr (by decide +kernel)
  exact fun j hj => absurd hj (Nat.not_lt_zero j)

/-- The small file with two megabytes of `.bss` in place of its last section. -/
def bssFile : List Byte := patch (patch smallFile 244 (number 4 8)) 272 (number 8 0x200000)

theorem bssFile_input : ElfInput (startup zeroHeap bssFile).elf bssFile.length :=
  .of_entsizes (by decide +kernel) (by decide +kernel) (by decide +kernel) (by decide +kernel)

/-- The entry is off by two megabytes. -/
theorem the_moved_phdr_of_a_file_with_bss_is_not_mapped :
    ∃ out w2, IsElf bssFile ∧ crack zeroHeap nops bssFile = .ok (out, w2) ∧
      IsPhdrEntry (startup zeroHeap bssFile).elf 0 ∧
      ¬ PhdrMapped out (phdrAt out (phdrOff out 0)) (lastPhdr out) := by
  obtain ⟨out, w2, hcrack⟩ := crack_of_isOk zeroHeap nops bssFile (by decide +kernel)
  obtain ⟨w, w5, _, helf, _, rfl, hrun⟩ := crack.spec bssFile_input hcrack
  have hentry : IsPhdrEntry (startup zeroHeap bssFile).elf 0 :=
    ⟨by decide +kernel, fun j hj => absurd hj (Nat.not_lt_zero j)⟩
  refine ⟨out, _, by decide, hcrack, hentry, ?_⟩
  rw [hrun.phdrMapped_iff (by rw [helf]; decide +kernel) (by rw [helf]; exact hentry), helf]
  decide +kernel

end elf_clack
