-- The place of the new segment of elf-clack. `add_new_segment` takes the next
-- boundary behind all ends, in the file and in memory, and `dump_elf` makes
-- the segment larger once its place is fixed.
import BinaryLab.CrackCopies

set_option linter.style.nameCheck false

open binary_lab.runs binary_lab.words binary_lab.pages

namespace elf_clack

/-! ## Ends and pages -/

/-- No end of a segment or a section wraps. -/
structure EndsInRange (m : Bytes) : Prop where
  file : EndsBelow m 0
  memory : ∀ i < (EHDR m).e_phnum.toNat,
    (phdrAt m (phdrOff m i)).p_vaddr.toNat + (phdrAt m (phdrOff m i)).p_memsz.toNat < 2 ^ 64

/-- The last one of a list of ends. -/
def lastEnd (ends : List (BitVec 64)) : Nat := (ends.foldl raise 0).toNat

/-- The end of the new segment of `n` bytes as a number: it is behind the next boundary behind
all addresses, as far as its place in the file is from 0. -/
def newEnd (m : Bytes) (n : Nat) : Nat :=
  floorNat 0x200000 (lastEnd (memoryEnds m)) + 0x200000 +
    (floorNat 0x200 (lastEnd (fileEnds m)) + 0x200) + n

/-- The address is in a page of the segment. -/
def InPages (phdr : Elf64_Phdr) (x : Nat) : Prop :=
  floorNat 4096 phdr.p_vaddr.toNat ≤ x ∧
    x < ceilNat 4096 (phdr.p_vaddr.toNat + phdr.p_memsz.toNat)

/-- The entries of the table for the segments that are loaded. -/
def loads (m : Bytes) : List Elf64_Phdr :=
  ((List.range (EHDR m).e_phnum.toNat).map fun i => phdrAt m (phdrOff m i)).filter
    fun phdr => phdr.p_type = PT_LOAD

/-- The segment `new` does not collide with what is there. -/
structure NoCollision (m : Bytes) (new : Elf64_Phdr) : Prop where
  segments : ∀ i < (EHDR m).e_phnum.toNat,
    (phdrAt m (phdrOff m i)).p_offset.toNat + (phdrAt m (phdrOff m i)).p_filesz.toNat ≤
      new.p_offset.toNat
  sections : ∀ i < (EHDR m).e_shnum.toNat,
    (shdrAt m (shdrOff m i)).sh_offset.toNat + (shdrAt m (shdrOff m i)).sh_size.toNat ≤
      new.p_offset.toNat
  no_wrap : new.p_vaddr.toNat + new.p_memsz.toNat < 2 ^ 64
  pages : ∀ i < (EHDR m).e_phnum.toNat, ∀ x y, InPages (phdrAt m (phdrOff m i)) x →
    InPages new y → x < y
  congruent : new.p_vaddr.toNat % new.p_align.toNat = new.p_offset.toNat % new.p_align.toNat
  ascending : (loads m).Pairwise (fun a b => a.p_vaddr ≤ b.p_vaddr) →
    (loads m ++ [new]).Pairwise fun a b => a.p_vaddr ≤ b.p_vaddr
  strict : (loads m).Pairwise (fun a b => a.p_vaddr < b.p_vaddr) →
    (loads m ++ [new]).Pairwise fun a b => a.p_vaddr < b.p_vaddr

/-! ## The place -/

theorem toNat_nextBoundary_floor {x align : BitVec 64} (h0 : 0 < align.toNat)
    (h : floorNat align.toNat x.toNat + align.toNat < 2 ^ 64) :
    (nextBoundary x align).toNat = floorNat align.toNat x.toNat + align.toNat := by
  have hmod := Nat.mod_lt x.toNat h0
  have hle := Nat.mod_le x.toNat align.toNat
  unfold floorNat at *
  rw [toNat_nextBoundary h0 (by omega)]
  omega

section

variable {m : Bytes} {n : Nat}

/-- Without a wrap the new place is the one that `newEnd` takes. -/
theorem toNat_new_place (h : newEnd m n < 2 ^ 64) :
    (newOffset m).toNat = floorNat 0x200 (lastEnd (fileEnds m)) + 0x200 ∧
      (newAddr m).toNat = floorNat 0x200000 (lastEnd (memoryEnds m)) + 0x200000 ∧
      (newAddr m + newOffset m).toNat = (newAddr m).toNat + (newOffset m).toNat := by
  unfold newEnd at h
  have hoffset : (newOffset m).toNat = floorNat 0x200 (lastEnd (fileEnds m)) + 0x200 :=
    toNat_nextBoundary_floor (by decide) (show _ + 0x200 < 2 ^ 64 by
      unfold lastEnd at h
      rw [show (0x200 : BitVec 64).toNat = 0x200 from rfl]
      omega)
  have haddr : (newAddr m).toNat = floorNat 0x200000 (lastEnd (memoryEnds m)) + 0x200000 :=
    toNat_nextBoundary_floor (by decide) (show _ + 0x200000 < 2 ^ 64 by
      unfold lastEnd at h
      rw [show (0x200000 : BitVec 64).toNat = 0x200000 from rfl]
      omega)
  refine ⟨hoffset, haddr, ?_⟩
  rw [BitVec.toNat_add, Nat.mod_eq_of_lt (by omega)]

theorem le_lastEnd {ends : List (BitVec 64)} {e : BitVec 64} (he : e ∈ ends) :
    e.toNat ≤ lastEnd ends :=
  BitVec.le_def.mp ((le_foldl_raise ends 0).2 e he)

theorem EndsInRange.le_memory (h : EndsInRange m) {i : Nat} (hi : i < (EHDR m).e_phnum.toNat) :
    (phdrAt m (phdrOff m i)).p_vaddr.toNat + (phdrAt m (phdrOff m i)).p_memsz.toNat ≤
      lastEnd (memoryEnds m) := by
  have hmem : (phdrAt m (phdrOff m i)).p_vaddr + (phdrAt m (phdrOff m i)).p_memsz ∈ memoryEnds m :=
    List.mem_map_of_mem (List.mem_range.mpr hi)
  have hle := le_lastEnd hmem
  rwa [BitVec.toNat_add, Nat.mod_eq_of_lt (h.memory i hi)] at hle

/-- The boundary behind the last address is one of pages, too, and no address is behind it. -/
theorem EndsInRange.below (h : EndsInRange m) (hend : newEnd m n < 2 ^ 64) {i : Nat}
    (hi : i < (EHDR m).e_phnum.toNat) :
    (newAddr m).toNat % 4096 = 0 ∧
      (phdrAt m (phdrOff m i)).p_vaddr.toNat + (phdrAt m (phdrOff m i)).p_memsz.toNat <
        (newAddr m).toNat := by
  obtain ⟨_, haddr, _⟩ := toNat_new_place hend
  have hle := h.le_memory hi
  have hlt := lt_floorNat_add (n := lastEnd (memoryEnds m)) (show 0 < 0x200000 by decide)
  have hmod : floorNat 0x200000 (lastEnd (memoryEnds m)) % 0x200000 = 0 := floorNat_mod
  rw [haddr]
  constructor
  · omega
  · omega

variable {new : Elf64_Phdr}

/-- A segment at the new place collides with nothing. -/
theorem EndsInRange.noCollision (h : EndsInRange m) (hoffset : new.p_offset = newOffset m)
    (hvaddr : new.p_vaddr = newAddr m + newOffset m) (halign : new.p_align = 0x200000)
    (hend : newEnd m new.p_memsz.toNat < 2 ^ 64) : NoCollision m new := by
  obtain ⟨hnewoff, hnewaddr, hsum⟩ := toNat_new_place hend
  have hfile : ∀ e ∈ fileEnds m, e.toNat ≤ new.p_offset.toNat := by
    intro e he
    have hle := le_lastEnd he
    have hlt := lt_floorNat_add (n := lastEnd (fileEnds m)) (show 0 < 0x200 by decide)
    rw [hoffset, hnewoff]
    omega
  obtain ⟨hsegments, hsections⟩ := h.file.le_of_forall hfile
  have habove : ∀ phdr ∈ loads m, phdr.p_vaddr < new.p_vaddr := by
    intro phdr hphdr
    obtain ⟨hmem, _⟩ := List.mem_filter.mp hphdr
    obtain ⟨i, hi, rfl⟩ := List.mem_map.mp hmem
    obtain ⟨_, hlt⟩ := h.below hend (List.mem_range.mp hi)
    rw [BitVec.lt_def, hvaddr, hsum]
    omega
  exact {
    segments := hsegments
    sections := hsections
    no_wrap := by
      unfold newEnd at hend
      rw [hvaddr, hsum, hnewoff, hnewaddr]
      omega
    pages := by
      rintro i hi x y ⟨_, hx⟩ ⟨hy, _⟩
      obtain ⟨hmod, hlt⟩ := h.below hend hi
      have hceil := ceilNat_le (show 0 < 4096 by decide) hmod (Nat.le_of_lt hlt)
      rw [hvaddr, hsum, floorNat_add hmod] at hy
      omega
    congruent := by
      have hmod : floorNat 0x200000 (lastEnd (memoryEnds m)) % 0x200000 = 0 := floorNat_mod
      rw [halign, hvaddr, hsum, hnewaddr, hoffset,
        show (0x200000 : BitVec 64).toNat = 0x200000 from rfl]
      omega
    ascending := by
      intro hloads
      refine List.pairwise_append.mpr ⟨hloads, List.pairwise_singleton _ _, ?_⟩
      intro phdr hphdr last hlast
      rw [List.mem_singleton.mp hlast]
      exact BitVec.le_of_lt (habove phdr hphdr)
    strict := by
      intro hloads
      refine List.pairwise_append.mpr ⟨hloads, List.pairwise_singleton _ _, ?_⟩
      intro phdr hphdr last hlast
      rw [List.mem_singleton.mp hlast]
      exact habove phdr hphdr }

end

/-- The new segment, with the size that `dump_elf` gives it, never collides with what is there,
as long as no end wraps. -/
theorem the_new_segment_never_collides (heap : Heap) (crack_code : Nat → Byte) (file : List Byte)
    (w : World) (hanalyze : analyze (startup heap file) = .ok w) (hends : EndsInRange w.elf) :
    ∃ size w1 w5, add_new_segment 1024 w = .ok (size, w1) ∧
      edited (do_crack crack_code w1) = .ok w5 ∧
      (∀ length start out w2, dump_elf length (do_crack crack_code w1) start = .ok (out, w2) →
        w2.newphdr = (grow_segment w5).newphdr) ∧
      (newEnd w.elf (grow_segment w5).newphdr.p_memsz.toNat < 2 ^ 64 →
        NoCollision w.elf (grow_segment w5).newphdr) := by
  obtain ⟨_, hlisted⟩ := analyze.spec hanalyze
  obtain ⟨size, hadd⟩ := add_new_segment_eq hlisted 1024
  obtain ⟨w5, hok, hnew⟩ := edited_newphdr hlisted crack_code (newAddr w.elf) (newOffset w.elf) 1024
  refine ⟨size, _, w5, hadd, hok, ?_, ?_⟩
  · intro length start out w2 hdump
    rw [dump_elf_eq, hok] at hdump
    simp only [bind_eq_ok] at hdump
    obtain ⟨_, hw5, _, _, _, _, hend⟩ := hdump
    cases hw5
    cases hend
    rfl
  · apply hends.noCollision
    · simp only [grow_segment, hnew, make_segment]
    · simp only [grow_segment, hnew, make_segment]
    · simp only [grow_segment, hnew, make_segment]

theorem smallFile_ends : EndsInRange (startup zeroHeap smallFile).elf where
  file := ⟨by decide +kernel, by decide +kernel⟩
  memory := by decide +kernel

/-- The new segment of the small file has 1320 bytes in the end. -/
theorem the_new_segment_of_a_small_file_does_not_collide :
    ∃ w size w1 w5, analyze (startup zeroHeap smallFile) = .ok w ∧
      add_new_segment 1024 w = .ok (size, w1) ∧ edited (do_crack nops w1) = .ok w5 ∧
      (grow_segment w5).newphdr.p_memsz.toNat = 1320 ∧
      NoCollision w.elf (grow_segment w5).newphdr := by
  obtain ⟨w, hw, helf, _⟩ := analyze_of_isOk zeroHeap smallFile (by decide +kernel)
  obtain ⟨size, w1, w5, hadd, hedited, _, hfree⟩ := the_new_segment_never_collides zeroHeap nops
    smallFile w hw (by rw [helf]; exact smallFile_ends)
  have hrun : ((analyze (startup zeroHeap smallFile) >>= add_new_segment 1024) >>= fun r =>
      edited (do_crack nops r.2)).map (fun w5 => (grow_segment w5).newphdr.p_memsz.toNat) =
        .ok 1320 := by
    decide +kernel
  rw [hw] at hrun
  simp only [bind, Except.bind, hadd, hedited, Except.map, Except.ok.injEq] at hrun
  refine ⟨w, size, w1, w5, hw, hadd, hedited, hrun, hfree ?_⟩
  rw [hrun, helf]
  decide +kernel

end elf_clack
