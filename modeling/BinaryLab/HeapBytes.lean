-- What of a cracked file comes from the heap of the cracker. `do_crack` fills
-- the buffer of the new segment in part, and `dump_elf` copies more than the
-- buffer has. Some of these bytes are written over by the tables, and the
-- others stay in the output.
import BinaryLab.Owners
import BinaryLab.Stub

set_option linter.style.nameCheck false

open binary_lab.runs binary_lab.words binary_lab.pages

namespace elf_clack

/-! ## Every byte of the output -/

section

variable {crack_code : Nat → Byte} {w w5 : World} {out : Bytes} {t : Nat}

/-- The byte at offset `t` of the output. -/
def outByte (crack_code : Nat → Byte) (w w5 : World) (t : Nat) : Byte :=
  let new := (newOffset w.elf).toNat
  let shdrs := new + 1024
  let phdrs := shdrs + shdrsLen w.elf
  let newphdr := phdrs + phdrsLen w.elf
  if t < sizeofEhdr then w5.elf (BitVec.ofNat 64 t)
  else if t < new ∨ newphdr + (EHDR w.elf).e_phentsize.toNat ≤ t then
    if t < w.size then w5.elf (BitVec.ofNat 64 t) else 0
  else if t < shdrs then (cracked crack_code w).newsegment (BitVec.ofNat 64 (t - new))
  else if t < phdrs then (grow_segment w5).sourceByte (.elf (SHDR w.elf 0)) (t - shdrs)
  else if t < newphdr then (grow_segment w5).sourceByte (.elf (PHDR w.elf 0)) (t - phdrs)
  else (grow_segment w5).sourceByte .newphdr (t - newphdr)

theorem Cracked.byte_eq (h : Cracked crack_code w w5 out) (x : Addr) :
    out x = outByte crack_code w w5 x.toNat := by
  have hx := x.isLt
  have hplace : x = BitVec.ofNat 64 x.toNat := eq_ofNat rfl
  have hsize := h.input.size
  have hshoff : (EHDR out).e_shoff = BitVec.ofNat 64 ((newOffset w.elf).toNat + 1024) := by
    rw [h.EHDR_eq]
    exact eq_ofNat h.layout.shoff
  have hphoff : (EHDR out).e_phoff =
      BitVec.ofNat 64 ((newOffset w.elf).toNat + 1024 + shdrsLen w.elf) := by
    rw [h.EHDR_eq]
    exact eq_ofNat h.layout.phoff
  have hat : ∀ {a k : Nat}, x.toNat = a + k → BitVec.ofNat 64 a + BitVec.ofNat 64 k = x := by
    intro a k heq
    rw [← BitVec.ofNat_add, ← heq, ← hplace]
  simp only [outByte]
  split_ifs with h1 h2 h3 h4 h5 h6
  · rw [← hplace, h.byte_header h1]
  · rw [← hplace, h.first_byte (Nat.not_lt.mp h1) h2, if_pos h3]
  · rw [h.first_byte (Nat.not_lt.mp h1) h2, if_neg h3]
  · have hnew : newOffset w.elf + BitVec.ofNat 64 (x.toNat - (newOffset w.elf).toNat) = x := by
      have := hat (a := (newOffset w.elf).toNat) (k := x.toNat - (newOffset w.elf).toNat) (by omega)
      rwa [← eq_ofNat (x := newOffset w.elf) rfl] at this
    have hbyte := h.byte_segment (k := x.toNat - (newOffset w.elf).toNat) (by omega) (by omega)
    rwa [hnew, h.newsegment_eq] at hbyte
  · have hbyte := h.byte_shdrs (k := x.toNat - ((newOffset w.elf).toNat + 1024)) (by omega)
    rwa [hshoff, hat (by omega)] at hbyte
  · have hbyte := h.byte_phdrs
      (k := x.toNat - ((newOffset w.elf).toNat + 1024 + shdrsLen w.elf)) (by omega)
    rwa [hphoff, hat (by omega)] at hbyte
  · have hbyte := h.byte_newphdr
      (k := x.toNat - ((newOffset w.elf).toNat + 1024 + shdrsLen w.elf + phdrsLen w.elf)) (by omega)
    rwa [hphoff, hat (by omega)] at hbyte

end

/-! ## Two heaps -/

section

variable {crack_code : Nat → Byte} {w w' w5 w5' : World} {out out' : Bytes}

/-- The edits do not look at the heap. -/
theorem Edited.same_elf {new_addr new_offset n : BitVec 64}
    (h : Edited (prepared crack_code new_addr new_offset n w) w w5)
    (h' : Edited (prepared crack_code new_addr new_offset n w') w' w5') (helf : w'.elf = w.elf) :
    w5'.elf = w5.elf := by
  have hprepared : (prepared crack_code new_addr new_offset n w').elf =
      (prepared crack_code new_addr new_offset n w).elf := by
    simp only [prepared, move_tables, do_crack, make_segment, helf]
  by_cases hentry : ∃ i < (EHDR w.elf).e_phnum.toNat, IsPhdrEntry w.elf i
  · obtain ⟨i, hi, hphdr⟩ := hentry
    have hw5 := h.phdr i hi hphdr
    rw [← helf] at hi hphdr
    have hw5' := h'.phdr i hi hphdr
    rw [hw5, hw5', helf]
    simp only [move_phdr, World.store, hprepared]
    rfl
  · have hnone : ∀ i < (EHDR w.elf).e_phnum.toNat, ¬ IsPhdrEntry w.elf i :=
      fun i hi hphdr => hentry ⟨i, hi, hphdr⟩
    rw [h.plain hnone, h'.plain (by rw [helf]; exact hnone), hprepared]

theorem Cracked.same_elf (h : Cracked crack_code w w5 out) (h' : Cracked crack_code w' w5' out')
    (helf : w'.elf = w.elf) : w5'.elf = w5.elf := by
  have hedited := h'.edited
  rw [helf] at hedited
  exact h.edited.same_elf hedited helf

theorem Edited.same_newphdr {new_addr new_offset n : BitVec 64}
    (h : Edited (prepared crack_code new_addr new_offset n w) w w5)
    (h' : Edited (prepared crack_code new_addr new_offset n w') w' w5')
    (h5 : w5'.elf = w5.elf) : (grow_segment w5').newphdr = (grow_segment w5).newphdr := by
  have hnew : w5'.newphdr = w5.newphdr := by
    rw [h.frame, h'.frame]
    rfl
  simp only [grow_segment, hnew, h5]

theorem readable_of_size {v v' : World} (hsize : v'.size = v.size) (n : Nat) (src : Source) :
    v'.readable n src = v.readable n src := by
  cases src with
  | elf a =>
    cases a with
    | none => rfl
    | some a =>
      have hholds : v'.Holds a n ↔ v.Holds a n := by
        unfold World.Holds
        rw [hsize]
      exact if_congr (or_congr_right hholds) rfl rfl
  | newsegment => rfl
  | newphdr => rfl

/-- A run with another heap comes to its end, too. -/
theorem Cracked.other_heap (h : Cracked crack_code w w5 out) (hlisted : Listed w')
    (helf : w'.elf = w.elf) (hsize : w'.size = w.size) :
    ∃ w5' out', elf_clack.edited (cracked crack_code w') = .ok w5' ∧
      Cracked crack_code w' w5' out' := by
  have hin : Workable w' := {
    size := hsize ▸ h.input.size
    behind := by
      unfold EntriesBehind
      rw [helf]
      exact h.input.behind
    phentsize := helf ▸ h.input.phentsize
    sizes := helf ▸ h.input.sizes }
  obtain ⟨w5', hok, hedited⟩ := edited.spec hin.behind hlisted crack_code
    (newAddr w'.elf) (newOffset w'.elf) 1024
  refine ⟨w5', _, hok, hin, hlisted, hedited, ?_, rfl⟩
  have hgrown : (grow_segment w5').size = (grow_segment w5).size := by
    have hsame : w5'.size = w5.size := by rw [hedited.size, h.edited.size, hsize]
    exact hsame
  rw [helf] at hedited
  have helf5 := h.edited.same_elf hedited helf
  have hnew := h.edited.same_newphdr hedited helf5
  have h5 : (grow_segment w5').elf = (grow_segment w5).elf := helf5
  have hlength : exe_length (cracked crack_code w') = exe_length (cracked crack_code w) := by
    have hphnum := h.fits.1
    rw [exe_length_eq h.input.sizes hphnum, ← helf]
    rw [← helf] at hphnum
    exact exe_length_eq hin.sizes hphnum
  have hcopies : elf_clack.copies (PHDR w'.elf 0) (SHDR w'.elf 0) (grow_segment w5') =
      elf_clack.copies (PHDR w.elf 0) (SHDR w.elf 0) (grow_segment w5) := by
    simp only [elf_clack.copies, table_copies, hnew, h5, hgrown, helf]
  intro c hc
  rw [hcopies] at hc
  rw [hlength, readable_of_size hgrown]
  exact h.copies c hc

/-- The bytes of the output that nobody writes but `malloc`: between `crack_code` and the message,
and behind the new program header if the entries of the table are longer. -/
def HeapByte (m : Bytes) (t : Nat) : Prop :=
  let new := (newOffset m).toNat
  let newphdr := new + 1024 + shdrsLen m + phdrsLen m
  (new + 119 ≤ t ∧ t < new + 1011) ∨
    (newphdr + sizeofPhdr ≤ t ∧ t < newphdr + (EHDR m).e_phentsize.toNat)

/-- The other bytes are the same for every heap. -/
theorem Cracked.byte_same (h : Cracked crack_code w w5 out) (h' : Cracked crack_code w' w5' out')
    (helf : w'.elf = w.elf) (hsize : w'.size = w.size) {x : Addr}
    (hx : ¬ HeapByte w.elf x.toNat) : out' x = out x := by
  have h5 := h.same_elf h' helf
  have hnew : (grow_segment w5').newphdr = (grow_segment w5).newphdr := by
    have hedited := h'.edited
    rw [helf] at hedited
    exact h.edited.same_newphdr hedited h5
  have hsource : ∀ a k, (grow_segment w5').sourceByte (.elf a) k =
      (grow_segment w5).sourceByte (.elf a) k := by
    intro a k
    cases a with
    | none => rfl
    | some a =>
      simp only [World.sourceByte]
      exact congrFun h5 _
  rw [h.byte_eq, h'.byte_eq]
  simp only [HeapByte, not_or] at hx
  simp only [outByte, helf, hsize, h5, hsource]
  split_ifs with h1 h2 h3 h4 h5 h6
  · rfl
  · rfl
  · rfl
  · rw [cracked_byte crack_code w' (by omega), cracked_byte crack_code w (by omega), helf]
    split_ifs with h19 h119 hmessage
    · rfl
    · rfl
    · rfl
    · omega
  · rfl
  · rfl
  · simp only [World.sourceByte, hnew]
    split_ifs with hbyte
    · rfl
    · omega

/-- What is there instead. -/
theorem Cracked.byte_heap (h : Cracked crack_code w w5 out) {x : Addr}
    (hx : HeapByte w.elf x.toNat) :
    out x = if x.toNat < (newOffset w.elf).toNat + 1024 then
        w.newsegment (BitVec.ofNat 64 (x.toNat - (newOffset w.elf).toNat))
      else w.newphdr_rest (x.toNat - ((newOffset w.elf).toNat + 1024 + shdrsLen w.elf +
        phdrsLen w.elf) - sizeofPhdr) := by
  have hlt := x.isLt
  have hrest : (grow_segment w5).newphdr_rest = w.newphdr_rest := by
    rw [h.edited.frame]
    rfl
  have hehdr : sizeofEhdr = 64 := rfl
  rw [h.byte_eq]
  simp only [outByte]
  simp only [HeapByte] at hx
  split_ifs with h1 h2 h3 h4 h5 h6
  any_goals omega
  · rw [cracked_byte crack_code w (by omega), if_neg (by omega), if_neg (by omega),
      if_neg (by omega)]
  · rw [World.sourceByte, if_neg (by omega), hrest]

end

/-! ## The law -/

/-- `do_crack` writes byte `k` of the buffer: what was there before does not count. -/
def Written (crack_code : Nat → Byte) (w : World) (k : Nat) : Prop :=
  ∀ seg : Bytes, (do_crack crack_code { w with newsegment := seg }).newsegment (BitVec.ofNat 64 k) =
    (do_crack crack_code w).newsegment (BitVec.ofNat 64 k)

/-- The heap with other bytes. -/
def Heap.flip (heap : Heap) : Heap where
  newphdr := heap.newphdr
  newphdr_rest := fun k => heap.newphdr_rest k + 1
  newsegment := fun a => heap.newsegment a + 1

theorem byte_add_one_ne (b : Byte) : b + 1 ≠ b := by
  bv_omega

theorem written_iff {crack_code : Nat → Byte} {w : World} (hsize : w.newphdr.p_filesz = 1024)
    {k : Nat} (hk : k < 2 ^ 64) :
    Written crack_code w k ↔ k < 119 ∨ (1011 ≤ k ∧ k < 1024) := by
  unfold Written
  constructor
  · intro hsame
    by_contra hnot
    have hbyte := hsame fun a => w.newsegment a + 1
    rw [do_crack_byte crack_code (by exact hsize) hk, do_crack_byte crack_code hsize hk,
      if_neg (by omega), if_neg (by omega), if_neg (by omega), if_neg (by omega),
      if_neg (by omega), if_neg (by omega)] at hbyte
    exact byte_add_one_ne _ hbyte
  · intro hin seg
    rw [do_crack_byte crack_code (by exact hsize) hk, do_crack_byte crack_code hsize hk]
    split_ifs
    · rfl
    · rfl
    · rfl
    · omega

section

variable {heap heap' : Heap} {crack_code : Nat → Byte} {file : List Byte} {out : Bytes} {w2 : World}

/-- The tables are there with any heap, so `analyze` ends well with any heap. -/
theorem analyze_other_heap {w : World} (h : analyze (startup heap file) = .ok w) (heap' : Heap) :
    ∃ w', analyze (startup heap' file) = .ok w' := by
  obtain ⟨hheld, _⟩ := analyze_iff.mp h
  have hheld' : TablesHeld (startup heap' file) := ⟨hheld.phdrs, hheld.shdrs, hheld.names⟩
  exact ⟨_, analyze_iff.mpr ⟨hheld', rfl⟩⟩

/-- A byte of the output is the same for all heaps exactly if it is none of the heap. -/
theorem byte_is_fixed_iff (hin : ElfInput (startup heap file).elf file.length)
    (hcrack : crack heap crack_code file = .ok (out, w2)) (x : Addr) :
    (∀ heap' out' w2', crack heap' crack_code file = .ok (out', w2') → out' x = out x) ↔
      ¬ HeapByte (startup heap file).elf x.toNat := by
  obtain ⟨w, w5, hanalyze, helf, hsize, _, hrun⟩ := crack.spec hin hcrack
  constructor
  · intro hfixed hbyte
    obtain ⟨w', hanalyze'⟩ := analyze_other_heap hanalyze heap.flip
    obtain ⟨helf', hsize', hrest', hseg'⟩ := analyze_startup hanalyze'
    obtain ⟨_, _, hrest, hseg⟩ := analyze_startup hanalyze
    have hsame : w'.elf = w.elf := helf'.trans helf.symm
    obtain ⟨w5', out', hedited', hrun'⟩ := hrun.other_heap (analyze.spec hanalyze').2 hsame
      (hsize'.trans hsize.symm)
    have hin' : ElfInput (startup heap.flip file).elf file.length := hin
    have hout := hfixed heap.flip out' _
      ((crack_eq_ok hin' hanalyze').mpr ⟨w5', rfl, hedited', hrun'⟩)
    rw [← helf] at hbyte
    rw [hrun.byte_heap hbyte, hrun'.byte_heap (by rw [hsame]; exact hbyte), hsame, hrest, hseg,
      hrest', hseg'] at hout
    split_ifs at hout
    · exact byte_add_one_ne _ hout
    · exact byte_add_one_ne _ hout
  · intro hbyte heap' out' w2' hcrack'
    have hin' : ElfInput (startup heap' file).elf file.length := hin
    obtain ⟨w', w5', _, helf', hsize', _, hrun'⟩ := crack.spec hin' hcrack'
    apply hrun.byte_same hrun' (helf'.trans helf.symm) (hsize'.trans hsize.symm)
    rw [helf]
    exact hbyte

end

/-- Whenever there is a cracked file, bytes of it come from the heap: not all that is copied out
of the buffer is inside of it and written before, and the output is another one with another
heap. It is the same for all heaps in the bytes that are none of the heap. -/
theorem the_cracked_file_always_depends_on_the_heap (heap : Heap) (crack_code : Nat → Byte)
    (file : List Byte) (out : Bytes) (w2 : World)
    (hin : ElfInput (startup heap file).elf file.length)
    (hcrack : crack heap crack_code file = .ok (out, w2)) :
    ∃ size w1, (analyze (startup heap file) >>= add_new_segment 1024) = .ok (size, w1) ∧
      (¬ ∀ k < w2.newphdr.p_filesz.toNat, k < 1024 ∧ Written crack_code w1 k) ∧
      (¬ ∀ heap' out' w2', crack heap' crack_code file = .ok (out', w2') →
        ∀ x, x.toNat < exeLen (startup heap file).elf → out' x = out x) ∧
      ∀ x, (∀ heap' out' w2', crack heap' crack_code file = .ok (out', w2') → out' x = out x) ↔
        ¬ HeapByte (startup heap file).elf x.toNat := by
  have hfixed := byte_is_fixed_iff hin hcrack
  obtain ⟨w, w5, hanalyze, helf, _, rfl, hrun⟩ := crack.spec hin hcrack
  obtain ⟨size, hadd⟩ := add_new_segment_eq (analyze.spec hanalyze).2 1024
  have hfilesz := hrun.layout.filesz
  have hroom := hrun.fits.2.1
  refine ⟨size, _, by rw [hanalyze]; exact hadd, ?_, ?_, hfixed⟩
  · intro hall
    have hwritten := (hall 119 (by omega)).2
    rw [written_iff rfl (by decide)] at hwritten
    omega
  · intro hall
    have hplace : (BitVec.ofNat 64 ((newOffset w.elf).toNat + 119)).toNat =
        (newOffset w.elf).toNat + 119 := by
      unfold exeLen at hroom
      rw [BitVec.toNat_ofNat, Nat.mod_eq_of_lt (by omega)]
    rw [← helf] at hall hfixed
    refine (hfixed (BitVec.ofNat 64 ((newOffset w.elf).toNat + 119))).mp ?_ ?_
    · intro heap' out' w2' hcrack'
      refine hall heap' out' w2' hcrack' _ ?_
      rw [hplace]
      unfold exeLen
      omega
    · rw [hplace]
      exact .inl ⟨Nat.le_refl _, by omega⟩

theorem the_cracked_small_file_depends_on_the_heap :
    ∃ out w2, crack zeroHeap nops smallFile = .ok (out, w2) ∧
      ¬ ∀ heap' out' w2', crack heap' nops smallFile = .ok (out', w2') →
        ∀ x, x.toNat < exeLen (startup zeroHeap smallFile).elf → out' x = out x := by
  obtain ⟨out, w2, hcrack⟩ := crack_of_isOk zeroHeap nops smallFile (by decide +kernel)
  obtain ⟨_, _, _, _, hdepends, _⟩ := the_cracked_file_always_depends_on_the_heap zeroHeap nops
    smallFile out w2 smallFile_input hcrack
  exact ⟨out, w2, hcrack, hdepends⟩

/-- The new segment of the small file is at 512, and byte 631 is the first one of the heap. -/
theorem two_heaps_give_two_cracked_files :
    ∃ out w2 out' w2', IsElf smallFile ∧ crack zeroHeap nops smallFile = .ok (out, w2) ∧
      crack zeroHeap.flip nops smallFile = .ok (out', w2') ∧
      (631 : Addr).toNat < exeLen (startup zeroHeap smallFile).elf ∧ out 631 ≠ out' 631 := by
  obtain ⟨out, w2, hcrack⟩ := crack_of_isOk zeroHeap nops smallFile (by decide +kernel)
  obtain ⟨out', w2', hcrack'⟩ := crack_of_isOk zeroHeap.flip nops smallFile (by decide +kernel)
  have hbyte : (crack zeroHeap nops smallFile).map (fun r => r.1 631) = .ok 0 := by decide +kernel
  have hbyte' : (crack zeroHeap.flip nops smallFile).map (fun r => r.1 631) = .ok 1 := by
    decide +kernel
  rw [hcrack] at hbyte
  rw [hcrack'] at hbyte'
  have hzero : out 631 = 0 := Except.ok.inj hbyte
  have hone : out' 631 = 1 := Except.ok.inj hbyte'
  refine ⟨out, w2, out', w2', by decide, hcrack, hcrack', by decide +kernel, ?_⟩
  rw [hzero, hone]
  decide

end elf_clack
