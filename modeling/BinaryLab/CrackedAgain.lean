-- A cracked file is a file that can be cracked: its tables, segments and
-- sections are inside of it, and the tables share no byte. So a program that was
-- cracked a number of times writes the message as often, and comes to the entry
-- of the program that there was at first.
import BinaryLab.CrackCode

set_option linter.style.nameCheck false

open binary_lab binary_lab.runs binary_lab.words binary_lab.pages

namespace elf_clack

/-! ## The file -/

/-- What is behind the last slash, or all of the name. -/
def base_name (filename : List Char) : List Char :=
  (filename.reverse.takeWhile fun c => c ≠ '/').reverse

/-- The name of the output, in the current directory. `name` has 100 bytes. -/
def exe_name (filename : List Char) : List Char :=
  (base_name filename ++ ".crack".toList).take 99

/-- The output would be written over the input only if nothing fits behind its name. -/
theorem exe_name_eq_iff (filename : List Char) :
    exe_name filename = base_name filename ↔ (base_name filename).length = 99 := by
  constructor
  · intro h
    have hlen := congrArg List.length h
    rw [exe_name, List.length_take, List.length_append, show ".crack".toList.length = 6 from rfl]
      at hlen
    omega
  · exact fun h => List.take_left' h

/-- `main`, with the name and the bytes of the file that it leaves. The output is another file
than the input. -/
def crack_file (heap : Heap) (crack_code : Nat → Byte) (filename : List Char)
    (file : List Byte) : Except Fault (List Char × List Byte) := do
  let w ← analyze (startup heap file)
  let (_, w) ← add_new_segment 1024 w
  let (out, _) ← create_exe (do_crack crack_code w)
  .ok (exe_name filename,
    (List.range (exe_length (do_crack crack_code w)).toNat).map fun k => out (BitVec.ofNat 64 k))

/-- Copies inside of the output leave the zeros behind it. -/
theorem copies_behind {w : World} {n : Nat} (cs : List Copy) (start : Bytes)
    (hcs : ∀ c ∈ cs, c.Inside n) {x : Addr} (hx : n ≤ x.toNat) :
    cs.foldl (Copy.run w) start x = start x := by
  induction cs generalizing start with
  | nil => rfl
  | cons c cs ih =>
    rw [List.foldl_cons, ih _ fun c hc => hcs c (List.mem_cons_of_mem _ hc), Copy.run]
    rcases hcs c List.mem_cons_self with hzero | hin
    · rw [hzero]
      exact if_neg (Nat.not_lt_zero _)
    · have hlt := x.isLt
      exact overlay_outside (by omega) fun hwithin => absurd hwithin.2 (by omega)

section

variable {crack_code : Nat → Byte} {w w5 : World} {out : Bytes}

theorem Cracked.exe_length_toNat (h : Cracked crack_code w w5 out) :
    (exe_length (cracked crack_code w)).toNat = exeLen w.elf := by
  rw [exe_length_eq h.input.sizes h.fits.1, BitVec.toNat_ofNat,
    Nat.mod_eq_of_lt h.fits.2.1]

/-- The output is the mapping of the file. -/
theorem Cracked.startup_elf (h : Cracked crack_code w w5 out) (heap : Heap) :
    (startup heap ((List.range (exeLen w.elf)).map fun k => out (BitVec.ofNat 64 k))).elf =
      out := by
  funext x
  show ((List.range (exeLen w.elf)).map fun k => out (BitVec.ofNat 64 k))[x.toNat]?.getD 0 = _
  by_cases hx : x.toNat < exeLen w.elf
  · rw [List.getElem?_map, List.getElem?_range hx, Option.map_some, Option.getD_some,
      BitVec.ofNat_toNat, BitVec.setWidth_eq]
  · have hbehind := not_lt.mp hx
    rw [List.getElem?_eq_none (by rwa [List.length_map, List.length_range]), Option.getD_none,
      h.output, copies_behind _ _ (fun c hc => (h.copies c hc).1) (by rwa [h.exe_length_toNat])]

/-! ## A file again -/

theorem ProgramKept.section_entry {m : Bytes} {new : Elf64_Phdr} (h : ProgramKept m out new)
    (hm : (EHDR m).e_shentsize = 64) (hout : (EHDR out).e_shentsize = 64) {i : Nat}
    (hi : i < (EHDR m).e_shnum.toNat) : shdrAt out (shdrOff out i) = shdrAt m (shdrOff m i) := by
  have hplace : ∀ f, (EHDR f).e_shentsize = 64 →
      shdrOff f i = (EHDR f).e_shoff + BitVec.ofNat 64 (64 * i) := by
    intro f hf
    rw [shdrOff, entryAt_eq, hf]
    rfl
  have hbyte : ∀ off k, off + k < 64 →
      out (shdrOff out i + BitVec.ofNat 64 off + BitVec.ofNat 64 k) =
        m (shdrOff m i + BitVec.ofNat 64 off + BitVec.ofNat 64 k) := by
    intro off k hlt
    have hkept := h.shdrs (64 * i + (off + k)) (by omega)
    rwa [BitVec.ofNat_add, BitVec.ofNat_add, ← BitVec.add_assoc, ← BitVec.add_assoc,
      ← BitVec.add_assoc, ← BitVec.add_assoc, ← hplace out hout, ← hplace m hm] at hkept
  have htype : read32 out (shdrOff out i + 4) = read32 m (shdrOff m i + 4) :=
    read32_moved fun k hk => hbyte 4 k (by omega)
  have hoffset : read64 out (shdrOff out i + 24) = read64 m (shdrOff m i + 24) :=
    read64_moved fun k hk => hbyte 24 k (by omega)
  have hsize : read64 out (shdrOff out i + 32) = read64 m (shdrOff m i + 32) :=
    read64_moved fun k hk => hbyte 32 k (by omega)
  rw [shdrAt, shdrAt, htype, hoffset, hsize]

end

section

variable {crack_code : Nat → Byte} {w w5 : World} {out : Bytes}
  (h : Cracked crack_code w w5 out) (hin : InsideFile w.elf w.size)

include h in
theorem Cracked.shoff : (EHDR out).e_shoff.toNat = (newOffset w.elf).toNat + 1024 := by
  rw [h.EHDR_eq]
  exact h.layout.shoff

include h hin

/-- The places of the tables in the output. -/
theorem Cracked.tables :
    (EHDR out).e_shnum = (EHDR w.elf).e_shnum ∧ (EHDR out).e_shentsize = 64 ∧
      (EHDR out).e_phentsize = 56 ∧
      (EHDR out).e_shoff.toNat + 64 * (EHDR w.elf).e_shnum.toNat = (EHDR out).e_phoff.toNat ∧
      (EHDR out).e_phoff.toNat + 56 * ((EHDR w.elf).e_phnum.toNat + 1) + 64 = exeLen w.elf := by
  have hphoff := h.phoff
  have hlen := hin.exeLen_eq
  rw [hin.shdrsLen_eq] at hphoff
  refine ⟨?_, ?_, ?_, ?_, ?_⟩
  · rw [h.EHDR_eq, h.edited.EHDR_eq]
  · rw [h.EHDR_eq, h.edited.EHDR_eq]
    exact hin.shentsize
  · rw [h.EHDR_eq, h.edited.EHDR_eq]
    exact hin.phentsize
  · rw [h.shoff, hphoff]
  · omega

omit hin in
/-- The `PT_PHDR` entry has all of its table in the file. -/
theorem Cracked.phdr_filesz {i : Nat} (hi : i < (EHDR w.elf).e_phnum.toNat)
    (hentry : IsPhdrEntry w.elf i) :
    (phdrAt out (phdrOff out i)).p_filesz = (phdrAt out (phdrOff out i)).p_memsz := by
  obtain ⟨hlow, hend⟩ := h.input.behind i hi
  rw [h.old_entry hi, h.edited.phdr i hi hentry, phdrAt_move_phdr _ hlow hend]

theorem Cracked.apart : TablesApart out := by
  obtain ⟨hshnum, _, _, hbehind, _⟩ := h.tables hin
  have hshoff := h.shoff
  have hphoff := h.phoff
  refine ⟨fun _ => ?_, fun _ => ?_, fun _ _ => .inr ?_⟩
  · show 64 ≤ _
    omega
  · show 64 ≤ _
    omega
  · rw [hshnum]
    exact le_of_eq hbehind

theorem Cracked.inside (hkept : ProgramKept w.elf out (grow_segment w5).newphdr) :
    InsideFile out (exeLen w.elf) := by
  obtain ⟨hshnum, hshentsize, hphentsize, hbehind, hlen⟩ := h.tables hin
  have hphoff := h.phoff
  have hfits := h.fits.2.2
  exact {
    header := by
      show 64 ≤ _
      omega
    phoff := by
      intro h0
      rw [h0] at hphoff
      exact absurd hphoff (by simp only [BitVec.ofNat_eq_ofNat, BitVec.toNat_ofNat]; omega)
    phentsize := hphentsize
    shentsize := hshentsize
    phdrs := by
      rw [h.phnum]
      omega
    shdrs := by
      intro _
      rw [hshnum]
      omega
    segments := by
      intro i hi
      rw [h.phnum] at hi
      rcases Nat.lt_succ_iff_lt_or_eq.mp hi with hlt | rfl
      · by_cases hentry : IsPhdrEntry w.elf i
        · obtain ⟨hoffset, _, hmemsz⟩ := h.phdr_entry hlt hentry
          rw [hoffset, h.phdr_filesz hlt hentry, hmemsz, hin.phdrsLen_eq, hin.phentsize]
          show _ + (_ + 56) ≤ _
          omega
        · rw [hkept.entry hin.phentsize hphentsize hlt hentry]
          exact le_trans (hin.segments i hlt) hfits
      · rw [h.new_entry (by rw [hin.phentsize]; decide), h.layout.offset, h.layout.filesz, exeLen]
        omega
    sections := by
      intro i hi hbits
      rw [hshnum] at hi
      rw [hkept.section_entry hin.shentsize hshentsize hi] at hbits ⊢
      exact le_trans (hin.sections i hi hbits) hfits }

end

/-! ## Runs -/

theorem crack_file.spec {heap : Heap} {crack_code : Nat → Byte} {filename name : List Char}
    {file last : List Byte} (hin : ElfInput (startup heap file).elf file.length)
    (hcrack : crack_file heap crack_code filename file = .ok (name, last)) :
    name = exe_name filename ∧ ∃ w w5, w.elf = (startup heap file).elf ∧ w.size = file.length ∧
      Cracked crack_code w w5 (startup heap last).elf ∧ last.length = exeLen w.elf := by
  rw [crack_file, bind_eq_ok] at hcrack
  obtain ⟨w, hanalyze, hcrack⟩ := hcrack
  obtain ⟨_, hlisted⟩ := analyze.spec hanalyze
  obtain ⟨helf, hsize, _⟩ := analyze_startup hanalyze
  obtain ⟨size, hadd⟩ := add_new_segment_eq hlisted 1024
  rw [← helf, ← hsize] at hin
  obtain ⟨⟨_, w1⟩, hmade, hcrack⟩ := bind_eq_ok.mp hcrack
  obtain ⟨_, rfl⟩ := Prod.mk.inj (Except.ok.inj (hadd.symm.trans hmade))
  obtain ⟨⟨out, w2⟩, hexe, hend⟩ := bind_eq_ok.mp hcrack
  obtain ⟨w5, _, _, hrun⟩ := (create_exe_eq_ok (hin.workable hlisted) hlisted).mp hexe
  have hlast : last = (List.range (exeLen w.elf)).map fun k => out (BitVec.ofNat 64 k) := by
    rw [← hrun.exe_length_toNat]
    exact (congrArg Prod.snd (Except.ok.inj hend)).symm
  refine ⟨(congrArg Prod.fst (Except.ok.inj hend)).symm, w, w5, helf, hsize, ?_, ?_⟩
  · rw [hlast, hrun.startup_elf]
    exact hrun
  · rw [hlast, List.length_map, List.length_range]

theorem InsideFile.elfInput {m : Bytes} {size : Nat} (h : InsideFile m size)
    (hapart : TablesApart m) (hsize : size < 2 ^ 63) : ElfInput m size where
  size := hsize
  behind := hapart.phdrs
  phentsize := fun _ => by
    rw [h.phentsize]
    decide
  sizes := by
    have hphnum := (EHDR m).e_phnum.isLt
    have hshnum := (EHDR m).e_shnum.isLt
    rw [shdrsLen, phdrsLen, h.phentsize, h.shentsize, show (56 : BitVec 16).toNat = 56 from rfl,
      show (64 : BitVec 16).toNat = 64 from rfl]
    omega

theorem NoWrap.newOffset_behind {m : Bytes} (h : NoWrap m) : 0x200 ≤ (newOffset m).toNat := by
  have hphnum := (EHDR m).e_phnum.isLt
  have hshnum := (EHDR m).e_shnum.isLt
  exact (elf_clack.newOffset_behind h.ends (by rw [tailLen]; omega) (by rw [tailLen]; omega)).1

/-- The last file comes out of the first one by a number of runs of elf-clack. Each run reads the
file that the one before has written, under any name that is not that of its own output, and each
file that is read is as `P` says. -/
inductive Cracks (crack_code : Nat → Byte) (P : Bytes → Prop) (file : List Byte) :
    Nat → List Byte → Prop
  | none : Cracks crack_code P file 0 file
  | again {n : Nat} {last next : List Byte} {filename name : List Char} (heap : Heap)
      (hcracks : Cracks crack_code P file n last) (hsize : last.length < 2 ^ 63)
      (hfile : P (startup heap last).elf)
      (hcrack : crack_file heap crack_code filename last = .ok (name, next))
      (hname : name ≠ base_name filename) : Cracks crack_code P file (n + 1) next

theorem Wrote.refl (c : x86.Cpu) : Wrote [] c c where
  rsp := rfl
  regs := fun _ _ _ => rfl
  mem := fun _ _ => rfl
  writes := rfl
  message := fun _ h => absurd h List.not_mem_nil

theorem Wrote.trans {ss ts : List Addr} {c c1 c' : x86.Cpu} (h : Wrote ss c c1)
    (h' : Wrote ts c1 c') : Wrote (ts ++ ss) c c' := by
  have hbelow : ∀ x, BelowStack c1 x ↔ BelowStack c x := by
    intro x
    rw [BelowStack, BelowStack, h.rsp]
  have hmem : ∀ x, ¬ BelowStack c x → c'.mem x = c1.mem x := fun x hx =>
    h'.mem x (mt (hbelow x).mp hx)
  exact {
    rsp := h'.rsp.trans h.rsp
    regs := fun r hrcx hrsi => (h'.regs r hrcx hrsi).trans (h.regs r hrcx hrsi)
    mem := fun x hx => (hmem x hx).trans (h.mem x hx)
    writes := by rw [h'.writes, h.writes, List.map_append, List.append_assoc]
    message := by
      intro string hstring k hk
      rcases List.mem_append.mp hstring with ht | hs
      · obtain ⟨hbyte, hout⟩ := h'.message string ht k hk
        exact ⟨hbyte, mt (hbelow _).mpr hout⟩
      · obtain ⟨hbyte, hout⟩ := h.message string hs k hk
        exact ⟨(hmem _ hout).trans hbyte, hout⟩ }

section

variable {crack_code : Nat → Byte} {P : Bytes → Prop} {file last next : List Byte}
  {filename name : List Char} {n : Nat} {heap : Heap}

/-- One more run. -/
theorem crack_file.again (hcrack : crack_file heap crack_code filename last = .ok (name, next))
    (hin : InsideFile (startup heap last).elf last.length)
    (hapart : TablesApart (startup heap last).elf) (hsize : last.length < 2 ^ 63)
    (hwrap : NoWrap (startup heap last).elf) :
    ∃ w w5, w.elf = (startup heap last).elf ∧ InsideFile w.elf w.size ∧
      Cracked crack_code w w5 (startup heap next).elf ∧
      ProgramKept w.elf (startup heap next).elf (grow_segment w5).newphdr ∧
      InsideFile (startup heap next).elf next.length ∧ TablesApart (startup heap next).elf := by
  obtain ⟨_, w, w5, helf, hlen, hrun, hnext⟩ :=
    crack_file.spec (hin.elfInput hapart hsize) hcrack
  rw [← helf] at hin hapart hwrap
  rw [← hlen] at hin
  have huntouched := hapart.untouched hin (by rw [hlen]; omega)
  have hkept := hrun.keeps hin huntouched hwrap
  rw [hnext]
  exact ⟨w, w5, helf, hin, hrun, hkept, hrun.inside hin hkept, hrun.apart hin⟩

theorem Cracks.good (h : Cracks crack_code P file n last) (hP : ∀ m, P m → NoWrap m)
    (hin : InsideFile (startup heap file).elf file.length)
    (hapart : TablesApart (startup heap file).elf) :
    InsideFile (startup heap last).elf last.length ∧ TablesApart (startup heap last).elf := by
  induction h with
  | none => exact ⟨hin, hapart⟩
  | again heap' _ hsize hfile hcrack _ ih =>
    obtain ⟨_, _, _, _, _, _, hnext⟩ :=
      crack_file.again hcrack ih.1 ih.2 hsize (hP _ hfile)
    exact hnext

/-- A cracked file is a file that can be cracked, and its program has one segment more for each
run, behind the others, as long as no offset wraps. -/
theorem cracked_files_are_files (hin : InsideFile (startup heap file).elf file.length)
    (hapart : TablesApart (startup heap file).elf)
    (hcracks : Cracks crack_code NoWrap file n last) :
    InsideFile (startup heap last).elf last.length ∧ TablesApart (startup heap last).elf ∧
      ∃ news, news.length = n ∧
        loads (startup heap last).elf = loads (startup heap file).elf ++ news := by
  obtain ⟨hin', hapart'⟩ := hcracks.good (fun _ h => h) hin hapart
  refine ⟨hin', hapart', ?_⟩
  clear hin' hapart'
  induction hcracks with
  | none => exact ⟨[], rfl, (List.append_nil _).symm⟩
  | again heap' hcracks hsize hwrap hcrack _ ih =>
    obtain ⟨news, hlen, hloads⟩ := ih
    obtain ⟨hlast, hlastapart⟩ := hcracks.good (fun _ h => h) hin hapart
    obtain ⟨w, w5, helf, hinside, hrun, hkept, _⟩ :=
      crack_file.again hcrack hlast hlastapart hsize hwrap
    refine ⟨news ++ [(grow_segment w5).newphdr], ?_, ?_⟩
    · rw [List.length_append, hlen]
      rfl
    · rw [← List.append_assoc, ← hloads]
      exact (hrun.loads_eq hinside hkept).trans (by rw [helf]; rfl)

end

/-! ## A small program -/

/-- The code of the assembler. -/
def assembled : Nat → Byte := fun k => (x86.assemble crack_code_S).getD k 0

/-- The memory with the segments of a file. -/
def load (file : Bytes) : Bytes := fun a =>
  match (loads file).find? fun phdr => (a - phdr.p_vaddr).toNat < phdr.p_memsz.toNat with
  | some phdr =>
    if (a - phdr.p_vaddr).toNat < phdr.p_filesz.toNat then
      file (phdr.p_offset + (a - phdr.p_vaddr))
    else 0
  | none => 0

theorem crack_file_of_isOk {heap : Heap} {crack_code : Nat → Byte} {filename : List Char}
    {file : List Byte} (h : (crack_file heap crack_code filename file).isOk = true) :
    ∃ name last, crack_file heap crack_code filename file = .ok (name, last) := by
  cases hcrack : crack_file heap crack_code filename file with
  | ok last => exact ⟨last.1, last.2, rfl⟩
  | error e =>
    rw [hcrack] at h
    cases h

def smallName : List Char := "small".toList

theorem exists_cracks {P : Bytes → Prop} (hP : P (startup zeroHeap smallFile).elf) :
    ∃ last, Cracks assembled P smallFile 1 last := by
  obtain ⟨name, last, hcrack⟩ := crack_file_of_isOk
    (show (crack_file zeroHeap assembled smallName smallFile).isOk = true by decide +kernel)
  obtain ⟨rfl, _⟩ := crack_file.spec smallFile_input hcrack
  have hname : exe_name smallName ≠ base_name smallName :=
    mt (exe_name_eq_iff _).mp (by decide)
  exact ⟨last, .again zeroHeap .none (by decide +kernel) hP hcrack hname⟩

theorem a_cracked_small_file_is_a_file :
    ∃ last, Cracks assembled NoWrap smallFile 1 last ∧
      InsideFile (startup zeroHeap last).elf last.length := by
  obtain ⟨last, hcracks⟩ := exists_cracks smallFile_no_wrap
  exact ⟨last, hcracks, (cracked_files_are_files smallFile_inside smallFile_apart hcracks).1⟩

end elf_clack
