-- What `dump_elf` of elf-clack does before and while it copies. The fields
-- of the header and the `PT_PHDR` entry are edited in the mapping of the
-- input, and then six copies are made, one after the other.
import BinaryLab.Crack

set_option linter.style.nameCheck false

open binary_lab.runs binary_lab.words binary_lab.pages

namespace elf_clack

/-! ## Program headers in memory -/

def PhdrField.get (phdr : Elf64_Phdr) : PhdrField → BitVec 64
  | p_offset => phdr.p_offset
  | p_vaddr => phdr.p_vaddr
  | p_paddr => phdr.p_paddr
  | p_filesz => phdr.p_filesz
  | p_memsz => phdr.p_memsz
  | p_align => phdr.p_align

theorem Elf64_Phdr.byte_field (phdr : Elf64_Phdr) (field : PhdrField) {i : Nat} (hi : i < 8) :
    phdr.byte (field.offset + i) = byteOf (field.get phdr).toNat i := by
  cases field <;> grind [PhdrField.offset, PhdrField.get, Elf64_Phdr.byte]

section

variable {m m' : Bytes} {a : Addr}

/-- A program header that was copied out is read back. -/
theorem phdrAt_of_bytes {phdr : Elf64_Phdr}
    (h : ∀ k < sizeofPhdr, m (a + BitVec.ofNat 64 k) = phdr.byte k) : phdrAt m a = phdr := by
  have hplace : ∀ off i, off + i < 56 →
      m (a + BitVec.ofNat 64 off + BitVec.ofNat 64 i) = phdr.byte (off + i) := by
    intro off i hlt
    rw [BitVec.add_assoc, ← BitVec.ofNat_add, h (off + i) hlt]
  have hfield : ∀ field : PhdrField,
      read64 m (a + BitVec.ofNat 64 field.offset) = field.get phdr := by
    intro field
    have hlast : field.offset ≤ 48 := by cases field <;> decide
    apply read64_of_holds
    intro i hi
    rw [hplace _ i (by omega), phdr.byte_field field hi]
  have htype : HoldsBytes m a 4 phdr.p_type.toNat := by
    intro i hi
    rw [h i (show i < 56 by omega), Elf64_Phdr.byte, if_pos hi]
  have hflags : HoldsBytes m (a + BitVec.ofNat 64 4) 4 phdr.p_flags.toNat := by
    intro i hi
    rw [hplace 4 i (by omega), Elf64_Phdr.byte, if_neg (by omega), if_pos (by omega),
      Nat.add_sub_cancel_left]
  exact Elf64_Phdr.ext (read32_of_holds htype) (read32_of_holds hflags) (hfield .p_offset)
    (hfield .p_vaddr) (hfield .p_paddr) (hfield .p_filesz) (hfield .p_memsz) (hfield .p_align)

/-- A program header is read from its 56 bytes, wherever they are. -/
theorem phdrAt_moved {b : Addr}
    (h : ∀ k < sizeofPhdr, m' (b + BitVec.ofNat 64 k) = m (a + BitVec.ofNat 64 k)) :
    phdrAt m' b = phdrAt m a := by
  have hplace : ∀ off i, off + i < 56 →
      m' (b + BitVec.ofNat 64 off + BitVec.ofNat 64 i) =
        m (a + BitVec.ofNat 64 off + BitVec.ofNat 64 i) := by
    intro off i hlt
    rw [BitVec.add_assoc, BitVec.add_assoc, ← BitVec.ofNat_add]
    exact h (off + i) hlt
  have hfield : ∀ field : PhdrField, read64 m' (b + BitVec.ofNat 64 field.offset) =
      read64 m (a + BitVec.ofNat 64 field.offset) := by
    intro field
    have hlast : field.offset ≤ 48 := by cases field <;> decide
    exact read64_moved fun i hi => hplace _ i (by omega)
  exact Elf64_Phdr.ext (read32_moved fun i hi => h i (show i < 56 by omega))
    (read32_moved fun i hi => hplace 4 i (by omega)) (hfield .p_offset) (hfield .p_vaddr)
    (hfield .p_paddr) (hfield .p_filesz) (hfield .p_memsz) (hfield .p_align)

theorem phdrAt_same (h : SameOn m m' a.toNat sizeofPhdr)
    (hn : a.toNat + sizeofPhdr ≤ 2 ^ 64) : phdrAt m' a = phdrAt m a :=
  phdrAt_moved fun _ hk => h _ (within_add_ofNat hk hn)

end

/-! ## The edits of the input -/

/-- The memory before the first copy, with the new segment of `n` bytes at `new_offset`. -/
def prepared (crack_code : Nat → Byte) (new_addr new_offset n : BitVec 64) (w : World) : World :=
  move_tables (do_crack crack_code (make_segment new_addr new_offset n w))

section

variable (crack_code : Nat → Byte) (new_addr new_offset n : BitVec 64) (w : World)

theorem prepared_EHDR : EHDR (prepared crack_code new_addr new_offset n w).elf =
    { EHDR w.elf with
      e_entry := new_addr + new_offset
      e_phnum := (EHDR w.elf).e_phnum + 1
      e_shoff := new_offset + n
      e_phoff := new_offset + n + (shdr_size w.elf).signExtend 64 } := by
  simp only [prepared, move_tables, do_crack, make_segment, shdr_size, EHDR_set_phoff,
    EHDR_set_shoff, EHDR_set_entry, EHDR_set_phnum]

theorem prepared_elf {x : Addr} (h1 : ¬ Within x 24 24) (h2 : ¬ Within x 56 2) :
    (prepared crack_code new_addr new_offset n w).elf x = w.elf x := by
  have hentry : ¬ Within x (24 : Addr).toNat 8 :=
    fun h => h1 ⟨h.1, Nat.lt_of_lt_of_le h.2 (by decide)⟩
  have hphoff : ¬ Within x (32 : Addr).toNat 8 :=
    fun h => h1 ⟨Nat.le_trans (by decide) h.1, Nat.lt_of_lt_of_le h.2 (by decide)⟩
  have hshoff : ¬ Within x (40 : Addr).toNat 8 :=
    fun h => h1 ⟨Nat.le_trans (by decide) h.1, Nat.lt_of_lt_of_le h.2 (by decide)⟩
  simp only [prepared, move_tables, do_crack, make_segment]
  rw [write64_outside _ (by decide) hphoff, write64_outside _ (by decide) hshoff,
    write64_outside _ (by decide) hentry, write16, overlay_outside (by decide) h2]

/-- The pointers to the entries are valid still, and the one to the new header is. -/
theorem prepared_valid (hlisted : Listed w) :
    ∀ s ∈ (prepared crack_code new_addr new_offset n w).segments,
      (prepared crack_code new_addr new_offset n w).Valid s.phdr := by
  intro s hs
  rcases List.mem_append.mp hs with hs | hs
  · have hvalid := hlisted.valid s hs
    cases hp : s.phdr with
    | mapped a =>
      rw [hp] at hvalid
      exact hvalid
    | fresh => trivial
  · rw [List.mem_singleton] at hs
    rw [hs]
    trivial

end

/-- A store through a pointer to an entry of the table changes this entry only. -/
theorem store_mapped_elf (w : World) {a x : Addr} (field : PhdrField) (v : BitVec 64)
    (hn : a.toNat + sizeofPhdr ≤ 2 ^ 64) (hx : ¬ Within x (a.toNat + 8) 48) :
    (w.store (.mapped a) field v).elf x = w.elf x := by
  have hn56 : a.toNat + 56 ≤ 2 ^ 64 := hn
  have hoff : 8 ≤ field.offset ∧ field.offset ≤ 48 := by cases field <;> decide
  have hplace : (a + BitVec.ofNat 64 field.offset).toNat = a.toNat + field.offset :=
    toNat_add_ofNat (by omega)
  apply write64_outside
  · omega
  · unfold Within at *
    omega

/-- The new place in the `PT_PHDR` entry changes this entry only, and less its type. -/
theorem move_phdr_mapped (w : World) {a : Addr} (hn : a.toNat + sizeofPhdr ≤ 2 ^ 64) :
    move_phdr (.mapped a) w = { w with elf := (move_phdr (.mapped a) w).elf } ∧
      ∀ x, ¬ Within x (a.toNat + 8) 48 → (move_phdr (.mapped a) w).elf x = w.elf x := by
  refine ⟨rfl, ?_⟩
  intro x hx
  simp only [move_phdr, store_mapped_elf _ _ _ hn hx]

/-- A store through a pointer to an entry of the table sets the field of this entry. -/
theorem phdrAt_store (w : World) {a : Addr} (field : PhdrField) (v : BitVec 64)
    (hn : a.toNat + sizeofPhdr ≤ 2 ^ 64) :
    phdrAt (w.store (.mapped a) field v).elf a = field.set (phdrAt w.elf a) v := by
  have hn56 : a.toNat + 56 ≤ 2 ^ 64 := hn
  have hoff : 8 ≤ field.offset ∧ field.offset ≤ 48 := by cases field <;> decide
  have hfar : ∀ at_ len, at_ + len ≤ field.offset ∨ field.offset + 8 ≤ at_ → at_ + len ≤ 56 →
      SameOn w.elf (w.store (.mapped a) field v).elf (a + BitVec.ofNat 64 at_).toNat len := by
    intro at_ len hapart hend x hx
    cases len with
    | zero => exact absurd hx (fun h => Nat.lt_irrefl _ (Nat.lt_of_le_of_lt h.1 h.2))
    | succ len =>
      rw [toNat_add_ofNat (by omega)] at hx
      apply write64_outside
      · rw [toNat_add_ofNat (by omega)]
        omega
      · rw [toNat_add_ofNat (by omega)]
        unfold Within at *
        omega
  have hget : ∀ g : PhdrField,
      read64 (w.store (.mapped a) field v).elf (a + BitVec.ofNat 64 g.offset) =
        if g = field then v else read64 w.elf (a + BitVec.ofNat 64 g.offset) := by
    intro g
    split_ifs with hg
    · rw [hg]
      exact read64_write64_self _ _ _
    · have hapart : g.offset + 8 ≤ field.offset ∨ field.offset + 8 ≤ g.offset := by
        revert hg
        cases g <;> cases field <;> decide
      have hg56 : g.offset + 8 ≤ 56 := by cases g <;> decide
      apply read64_same (hfar _ 8 hapart hg56)
      rw [toNat_add_ofNat (by omega)]
      omega
  have htype : read32 (w.store (.mapped a) field v).elf a = read32 w.elf a := by
    have hsame := hfar 0 4 (.inl (by omega)) (by decide)
    rw [BitVec.add_zero] at hsame
    exact read32_same hsame (by omega)
  have hflags : read32 (w.store (.mapped a) field v).elf (a + BitVec.ofNat 64 4) =
      read32 w.elf (a + BitVec.ofNat 64 4) := by
    apply read32_same (hfar 4 4 (.inl (by omega)) (by decide))
    rw [toNat_add_ofNat (by omega)]
    omega
  cases field <;>
    exact Elf64_Phdr.ext htype hflags (hget .p_offset) (hget .p_vaddr) (hget .p_paddr)
      (hget .p_filesz) (hget .p_memsz) (hget .p_align)

/-- Behind `e_phnum` no field of the header is edited. -/
def editedEnd : Nat := 58

/-- Such a store leaves the header, which ends in front of the fields of the table. -/
theorem EHDR_store (w : World) {a : Addr} (field : PhdrField) (v : BitVec 64)
    (hlow : editedEnd ≤ a.toNat) (hn : a.toNat + sizeofPhdr ≤ 2 ^ 64) :
    EHDR (w.store (.mapped a) field v).elf = EHDR w.elf := by
  have hlow58 : 58 ≤ a.toNat := hlow
  apply EHDR_same
  intro x hx
  have hx64 : x.toNat < 64 := hx
  apply store_mapped_elf w field v hn
  unfold Within
  omega

/-- The `PT_PHDR` entry with its new place. -/
theorem phdrAt_move_phdr (w : World) {a : Addr} (hlow : editedEnd ≤ a.toNat)
    (hn : a.toNat + sizeofPhdr ≤ 2 ^ 64) :
    phdrAt (move_phdr (.mapped a) w).elf a = { phdrAt w.elf a with
      p_offset := (EHDR w.elf).e_phoff
      p_vaddr := w.newphdr.p_vaddr - w.newphdr.p_offset +
        (EHDR w.elf).e_phoff % w.newphdr.p_align
      p_paddr := w.newphdr.p_vaddr - w.newphdr.p_offset +
        (EHDR w.elf).e_phoff % w.newphdr.p_align
      p_filesz := (phdr_size w.elf).signExtend 64
      p_memsz := (phdr_size w.elf).signExtend 64
      p_align := 0x8 } := by
  simp only [move_phdr, phdrAt_store _ _ _ hn, PhdrField.set, phdr_size,
    EHDR_store _ _ _ hlow hn]

/-! ## The `PT_PHDR` entry -/

theorem phnum_ne_zero {m : Bytes} {i : Nat} (hi : i < (EHDR m).e_phnum.toNat) :
    (EHDR m).e_phnum ≠ 0 := by
  intro h0
  rw [h0] at hi
  exact absurd hi (Nat.not_lt_zero i)

/-- Entry `i` is the `PT_PHDR` entry, the first one if there are more. -/
def IsPhdrEntry (m : Bytes) (i : Nat) : Prop :=
  (phdrAt m (phdrOff m i)).p_type = PT_PHDR ∧
    ∀ j < i, (phdrAt m (phdrOff m j)).p_type ≠ PT_PHDR

/-- The program headers lie behind the fields of the header that are edited. -/
def EntriesBehind (w : World) : Prop := ∀ i < (EHDR w.elf).e_phnum.toNat,
  editedEnd ≤ (phdrOff w.elf i).toNat ∧ (phdrOff w.elf i).toNat + sizeofPhdr ≤ 2 ^ 64

theorem EntriesBehind.phoff {w : World} (h : EntriesBehind w)
    (hnum : (EHDR w.elf).e_phnum ≠ 0) : editedEnd ≤ (EHDR w.elf).e_phoff.toNat := by
  have hpos : 0 < (EHDR w.elf).e_phnum.toNat := by
    rw [Nat.pos_iff_ne_zero]
    exact fun h0 => hnum (BitVec.eq_of_toNat_eq h0)
  obtain ⟨hlow, _⟩ := h 0 hpos
  rw [phdrOff, entryAt_eq, Nat.mul_zero, BitVec.add_zero] at hlow
  exact hlow

section

variable {w : World} (hbehind : EntriesBehind w) (crack_code : Nat → Byte)
  (new_addr new_offset n : BitVec 64)

include hbehind

/-- The program headers are behind the fields that were edited so far. -/
theorem prepared_phdrAt {i : Nat} (hi : i < (EHDR w.elf).e_phnum.toNat) :
    phdrAt (prepared crack_code new_addr new_offset n w).elf (phdrOff w.elf i) =
      phdrAt w.elf (phdrOff w.elf i) := by
  obtain ⟨hlow, hend⟩ := hbehind i hi
  have hlow58 : 58 ≤ (phdrOff w.elf i).toNat := hlow
  apply phdrAt_same _ hend
  intro x hx
  unfold Within at hx
  apply prepared_elf
  · unfold Within
    omega
  · unfold Within
    omega

theorem prepared_target (hlisted : Listed w) {i : Nat} (hi : i < w.segments.length) :
    (prepared crack_code new_addr new_offset n w).target w.segments[i].phdr =
      phdrAt w.elf (phdrOff w.elf i) := by
  obtain ⟨hlt, hmapped⟩ := hlisted.get hi
  rw [hmapped]
  exact prepared_phdrAt hbehind crack_code new_addr new_offset n hlt

/-- The segment that `dump_elf` finds is that of the `PT_PHDR` entry. The new
segment is none. -/
theorem find_phdr (hlisted : Listed w) :
    (find_segment_by_type (prepared crack_code new_addr new_offset n w) PT_PHDR = .ok none ∧
        ∀ i < (EHDR w.elf).e_phnum.toNat, ¬ IsPhdrEntry w.elf i) ∨
      ∃ seg i, find_segment_by_type (prepared crack_code new_addr new_offset n w) PT_PHDR =
          .ok (some seg) ∧
        i < (EHDR w.elf).e_phnum.toNat ∧ IsPhdrEntry w.elf i ∧
        seg.phdr = .mapped (phdrOff w.elf i) := by
  have hlist : (prepared crack_code new_addr new_offset n w).segments = w.segments ++
      [{ index := (EHDR w.elf).e_phnum.toNat, phdr := .fresh, segment_sections := [] }] := rfl
  have hfresh : (prepared crack_code new_addr new_offset n w).target .fresh =
      (make_segment new_addr new_offset n w).newphdr := rfl
  unfold find_segment_by_type
  rw [find_segment_eq _ (prepared_valid crack_code new_addr new_offset n w hlisted), hlist,
    List.find?_append]
  cases hfind : w.segments.find? fun s =>
      decide (((prepared crack_code new_addr new_offset n w).target s.phdr).p_type = PT_PHDR) with
  | none =>
    left
    refine ⟨by simp [hfresh, make_segment], ?_⟩
    intro i hi hentry
    have hlen : i < w.segments.length := by rwa [hlisted.length]
    have hnot := List.find?_eq_none.mp hfind _ (List.getElem_mem hlen)
    rw [prepared_target hbehind _ _ _ _ hlisted hlen] at hnot
    exact hnot (decide_eq_true hentry.1)
  | some seg =>
    right
    rw [List.find?_eq_some_iff_getElem] at hfind
    obtain ⟨htype, i, hi, rfl, hbefore⟩ := hfind
    obtain ⟨hlt, hmapped⟩ := hlisted.get hi
    rw [prepared_target hbehind _ _ _ _ hlisted hi, decide_eq_true_eq] at htype
    refine ⟨w.segments[i], i, rfl, hlt, ⟨htype, ?_⟩, hmapped⟩
    intro j hj
    have hnot := hbefore j hj
    rw [prepared_target hbehind _ _ _ _ hlisted (by omega)] at hnot
    simpa using hnot

end

/-- There is one `PT_PHDR` entry that is the first one. -/
theorem IsPhdrEntry.unique {m : Bytes} {i j : Nat} (hi : IsPhdrEntry m i) (hj : IsPhdrEntry m j) :
    i = j := by
  rcases Nat.lt_trichotomy i j with h | h | h
  · exact absurd hi.1 (hj.2 i h)
  · exact h
  · exact absurd hj.1 (hi.2 j h)

/-! ## `dump_elf` up to the copies -/

/-- The edits of `dump_elf`. -/
def edited (w : World) : Except Fault World := do
  let w := move_tables w
  let seg ← find_segment_by_type w PT_PHDR
  .ok (match seg with
    | none => w
    | some seg => move_phdr seg.phdr w)

/-- `dump_elf`: the edits, and then the copies. -/
theorem dump_elf_eq (length : Nat) (w : World) (start : Bytes) :
    dump_elf length w start = edited w >>= fun w5 =>
      my_memcpy length w5 0 (.elf (some 0)) (BitVec.ofNat 64 w5.size) start >>= fun start =>
        dump_tables length (PHDR w.elf 0) (SHDR w.elf 0) (grow_segment w5) start >>= fun start =>
          .ok (start, grow_segment w5) := by
  unfold dump_elf edited
  simp only [bind, Except.bind]
  cases find_segment_by_type (move_tables w) PT_PHDR <;> rfl

/-- What the edits come to: the header has its new fields, and of the rest only the `PT_PHDR`
entry has changed. -/
structure Edited (p : World) (w w5 : World) : Prop where
  frame : w5 = { p with elf := w5.elf }
  header : EHDR w5.elf = EHDR p.elf
  plain : (∀ i < (EHDR w.elf).e_phnum.toNat, ¬ IsPhdrEntry w.elf i) → w5 = p
  phdr : ∀ i < (EHDR w.elf).e_phnum.toNat, IsPhdrEntry w.elf i →
    w5 = move_phdr (.mapped (phdrOff w.elf i)) p
  same : ∀ x, ¬ Within x 24 24 → ¬ Within x 56 2 →
    (∀ i < (EHDR w.elf).e_phnum.toNat, IsPhdrEntry w.elf i →
      ¬ Within x ((phdrOff w.elf i).toNat + 8) 48) → w5.elf x = w.elf x

theorem edited_prepared (crack_code : Nat → Byte) (new_addr new_offset n : BitVec 64)
    (w : World) :
    edited (do_crack crack_code (make_segment new_addr new_offset n w)) =
      find_segment_by_type (prepared crack_code new_addr new_offset n w) PT_PHDR >>= fun seg =>
        .ok (match seg with
          | none => prepared crack_code new_addr new_offset n w
          | some seg => move_phdr seg.phdr (prepared crack_code new_addr new_offset n w)) := rfl

theorem edited.spec {w : World} (hbehind : EntriesBehind w) (hlisted : Listed w)
    (crack_code : Nat → Byte) (new_addr new_offset n : BitVec 64) :
    ∃ w5, edited (do_crack crack_code (make_segment new_addr new_offset n w)) = .ok w5 ∧
      Edited (prepared crack_code new_addr new_offset n w) w w5 := by
  rw [edited_prepared]
  rcases find_phdr hbehind crack_code new_addr new_offset n hlisted with
    ⟨hnone, hno⟩ | ⟨seg, i, hfind, hi, hentry, hphdr⟩
  · refine ⟨_, by rw [hnone]; rfl, rfl, rfl, fun _ => rfl, ?_, ?_⟩
    · exact fun i hi hentry => absurd hentry (hno i hi)
    · exact fun x h1 h2 _ => prepared_elf _ _ _ _ _ h1 h2
  · obtain ⟨hlow, hend⟩ := hbehind i hi
    obtain ⟨hframe, hmoved⟩ :=
      move_phdr_mapped (prepared crack_code new_addr new_offset n w) hend
    refine ⟨_, by rw [hfind, ← hphdr]; rfl, hframe, ?_, fun hno => absurd hentry (hno i hi), ?_, ?_⟩
    · apply EHDR_same
      intro x hx
      apply hmoved
      have hlow58 : 58 ≤ (phdrOff w.elf i).toNat := hlow
      have hx64 : x.toNat < 64 := hx
      unfold Within
      omega
    · intro j hj hentry'
      rw [hentry.unique hentry']
    · intro x h1 h2 h3
      rw [hmoved x (h3 i hi hentry), prepared_elf _ _ _ _ _ h1 h2]

/-- Whatever the tables lie over, the edits go through and leave the new header. -/
theorem edited_newphdr {w : World} (hlisted : Listed w) (crack_code : Nat → Byte)
    (new_addr new_offset n : BitVec 64) :
    ∃ w5, edited (do_crack crack_code (make_segment new_addr new_offset n w)) = .ok w5 ∧
      w5.newphdr = (make_segment new_addr new_offset n w).newphdr := by
  rw [edited_prepared, find_segment_by_type,
    find_segment_eq _ (prepared_valid crack_code new_addr new_offset n w hlisted)]
  cases hfind : (prepared crack_code new_addr new_offset n w).segments.find? fun s =>
      decide (((prepared crack_code new_addr new_offset n w).target s.phdr).p_type = PT_PHDR) with
  | none => exact ⟨_, rfl, rfl⟩
  | some seg =>
    refine ⟨_, rfl, ?_⟩
    have htype := List.find?_some hfind
    cases hphdr : seg.phdr with
    | mapped a =>
      simp only [hphdr]
      rfl
    | fresh =>
      -- the new segment is no `PT_PHDR` entry
      rw [hphdr] at htype
      have hload : PT_LOAD = PT_PHDR := of_decide_eq_true htype
      exact absurd hload (by decide)

end elf_clack
