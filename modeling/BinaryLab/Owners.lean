-- Which segment `analyze` of elf-clack takes a section for: the first one, in
-- the order of the table, that has the start of the section in its part of
-- the file. The lists of `analyze` are given by these owners.
import BinaryLab.Analyze

set_option linter.style.nameCheck false

open binary_lab.runs binary_lab.words binary_lab.pages

namespace elf_clack

/-! ## Owners -/

/-- The segment has the offset, with the end as the code computes it. -/
def Contains (phdr : Elf64_Phdr) (offset : BitVec 64) : Prop :=
  phdr.p_offset ≤ offset ∧ offset < phdr.p_offset + phdr.p_filesz

instance (phdr : Elf64_Phdr) (offset : BitVec 64) : Decidable (Contains phdr offset) :=
  inferInstanceAs (Decidable (_ ∧ _))

/-- Without a wrap, the end is that of the numbers. -/
theorem contains_iff {phdr : Elf64_Phdr} (h : phdr.p_offset.toNat + phdr.p_filesz.toNat < 2 ^ 64)
    (offset : BitVec 64) :
    Contains phdr offset ↔ phdr.p_offset.toNat ≤ offset.toNat ∧
      offset.toNat < phdr.p_offset.toNat + phdr.p_filesz.toNat := by
  rw [Contains, BitVec.le_def, BitVec.lt_def, BitVec.toNat_add, Nat.mod_eq_of_lt h]

/-- The segment of section `j`, by its index. -/
def owner (m : Bytes) (j : Nat) : Option Nat :=
  if (shdrAt m (shdrOff m j)).sh_offset = 0 then none
  else (List.range (EHDR m).e_phnum.toNat).find? fun i =>
    Contains (phdrAt m (phdrOff m i)) (shdrAt m (shdrOff m j)).sh_offset

section

variable {m : Bytes} {i j : Nat}

theorem owner_eq_some : owner m j = some i ↔
    (shdrAt m (shdrOff m j)).sh_offset ≠ 0 ∧ i < (EHDR m).e_phnum.toNat ∧
      Contains (phdrAt m (phdrOff m i)) (shdrAt m (shdrOff m j)).sh_offset ∧
      ∀ k < i, ¬ Contains (phdrAt m (phdrOff m k)) (shdrAt m (shdrOff m j)).sh_offset := by
  unfold owner
  split_ifs with h0
  · exact iff_of_false (fun h => by cases h) fun h => h.1 h0
  · rw [List.find?_range_eq_some, decide_eq_true_eq, List.mem_range]
    constructor
    · rintro ⟨hin, hi, hfirst⟩
      exact ⟨h0, hi, hin, fun k hk => by simpa using hfirst k hk⟩
    · rintro ⟨_, hi, hin, hfirst⟩
      exact ⟨hin, hi, fun k hk => by simpa using hfirst k hk⟩

theorem owner_eq_none : owner m j = none ↔
    (shdrAt m (shdrOff m j)).sh_offset = 0 ∨ ∀ i < (EHDR m).e_phnum.toNat,
      ¬ Contains (phdrAt m (phdrOff m i)) (shdrAt m (shdrOff m j)).sh_offset := by
  unfold owner
  split_ifs with h0
  · exact iff_of_true rfl (.inl h0)
  · rw [List.find?_eq_none, or_iff_right h0]
    simp only [List.mem_range, decide_eq_true_eq]

end

/-! ## The lists -/

/-- The entries of the tables that `analyze` reads are in the pages of the input. -/
structure TablesHeld (w : World) : Prop where
  phdrs : ∀ i < (EHDR w.elf).e_phnum.toNat,
    (EHDR w.elf).e_phoff ≠ 0 ∧ w.Holds (phdrOff w.elf i) sizeofPhdr
  shdrs : ∀ j < (EHDR w.elf).e_shnum.toNat,
    (EHDR w.elf).e_shoff ≠ 0 ∧ w.Holds (shdrOff w.elf j) sizeofShdr
  names : (EHDR w.elf).e_shstrndx ≠ SHN_UNDEF → (EHDR w.elf).e_shoff ≠ 0 ∧
    w.Holds (shdrOff w.elf (EHDR w.elf).e_shstrndx.toNat) sizeofShdr

/-- The segment for entry `i` of the table. -/
def segmentOf (m : Bytes) (i : Nat) : Segment where
  index := i
  phdr := .mapped (phdrOff m i)
  segment_sections := (List.range (EHDR m).e_shnum.toNat).filter fun j => owner m j = some i

/-- The section for entry `j` of the table. -/
def sectionOf (m : Bytes) (j : Nat) : Section where
  index := j
  shdr := shdrOff m j
  segment := owner m j

/-- The world that `analyze` leaves. -/
def analyzed (w : World) : World :=
  { w with
    segments := (List.range (EHDR w.elf).e_phnum.toNat).map (segmentOf w.elf)
    sections := (List.range (EHDR w.elf).e_shnum.toNat).map (sectionOf w.elf) }

section

variable {w : World}

/-- A segment for entry `i` of the table, without its sections. -/
def earlySegment (m : Bytes) (i : Nat) : Segment :=
  { index := i, phdr := .mapped (phdrOff m i), segment_sections := [] }

/-- The world after `init_segments_early`. -/
def early (w : World) : World :=
  { w with segments := (List.range (EHDR w.elf).e_phnum.toNat).map (earlySegment w.elf) }

theorem init_segment_iff {i : Nat} {segment : Segment} :
    init_segment w i = .ok segment ↔
      ((EHDR w.elf).e_phoff ≠ 0 ∧ w.Holds (phdrOff w.elf i) sizeofPhdr) ∧
        segment = earlySegment w.elf i := by
  unfold init_segment PHDR
  split_ifs with h0
  · exact iff_of_false (fun h => by cases h) fun h => h.1.1 h0
  · simp only [bind_eq_ok, World.phdr_mapped]
    constructor
    · rintro ⟨_, ⟨hholds, _⟩, hok⟩
      cases hok
      exact ⟨⟨h0, hholds⟩, rfl⟩
    · rintro ⟨⟨_, hholds⟩, rfl⟩
      exact ⟨_, ⟨hholds, rfl⟩, rfl⟩

theorem init_segments_early_iff {w1 : World} :
    init_segments_early w = .ok w1 ↔
      (∀ i < (EHDR w.elf).e_phnum.toNat,
        (EHDR w.elf).e_phoff ≠ 0 ∧ w.Holds (phdrOff w.elf i) sizeofPhdr) ∧
      w1 = early w := by
  unfold init_segments_early
  rw [bind_eq_ok]
  simp only [mapM_eq_ok_map fun _ _ => init_segment_iff, List.mem_range]
  constructor
  · rintro ⟨_, ⟨hheld, rfl⟩, hok⟩
    cases hok
    exact ⟨hheld, rfl⟩
  · rintro ⟨hheld, rfl⟩
    exact ⟨_, ⟨hheld, rfl⟩, rfl⟩

theorem section_names_iff :
    section_names w = .ok () ↔ ((EHDR w.elf).e_shstrndx ≠ SHN_UNDEF → (EHDR w.elf).e_shoff ≠ 0 ∧
      w.Holds (shdrOff w.elf (EHDR w.elf).e_shstrndx.toNat) sizeofShdr) := by
  unfold section_names SHDR
  split_ifs with hundef h0
  · exact iff_of_true rfl fun h => absurd hundef h
  · exact iff_of_false (fun h => by cases h) fun h => (h hundef).1 h0
  · simp only [bind_eq_ok, World.shdr_eq_ok]
    constructor
    · rintro ⟨_, ⟨hholds, _⟩, _⟩ _
      exact ⟨h0, hholds⟩
    · intro h
      exact ⟨_, ⟨(h hundef).2, rfl⟩, trivial⟩

section

variable (hheld : ∀ i < (EHDR w.elf).e_phnum.toNat,
  (EHDR w.elf).e_phoff ≠ 0 ∧ w.Holds (phdrOff w.elf i) sizeofPhdr)

include hheld

/-- The first segment with the offset, once the segments are there. -/
theorem find_segment_by_offset_eq (offset : BitVec 64) :
    find_segment_by_offset (early w) offset =
      .ok (((List.range (EHDR w.elf).e_phnum.toNat).find? fun i =>
        Contains (phdrAt w.elf (phdrOff w.elf i)) offset).map (earlySegment w.elf)) := by
  have hvalid : ∀ s ∈ (early w).segments, (early w).Valid s.phdr := by
    intro s hs
    obtain ⟨i, hi, rfl⟩ := List.mem_map.mp hs
    exact (hheld i (List.mem_range.mp hi)).2
  have htarget : ∀ i, (early w).target (earlySegment w.elf i).phdr =
      phdrAt w.elf (phdrOff w.elf i) := fun _ => rfl
  rw [find_segment_by_offset, find_segment_eq _ hvalid, early, List.find?_map]
  simp only [Function.comp_def, ← early.eq_def, htarget]
  refine congrArg (fun p => Except.ok (Option.map _ (List.find? p _))) (funext fun i => ?_)
  exact decide_eq_decide.mpr Iff.rfl

theorem init_section_eq {j : Nat} (h0 : (EHDR w.elf).e_shoff ≠ 0)
    (hholds : w.Holds (shdrOff w.elf j) sizeofShdr) :
    init_section (early w) j = .ok (sectionOf w.elf j) := by
  have helf : (early w).elf = w.elf := rfl
  have hread : (early w).shdr (shdrOff w.elf j) = .ok (shdrAt w.elf (shdrOff w.elf j)) :=
    World.shdr_eq_ok.mpr ⟨hholds, rfl⟩
  unfold init_section SHDR
  rw [helf, if_neg h0]
  simp only [hread, bind, Except.bind]
  unfold sectionOf owner
  split_ifs with hzero
  · rfl
  · rw [find_segment_by_offset_eq hheld]
    simp only [Option.map_map]
    exact congrArg (fun s => Except.ok (Section.mk j _ s)) Option.map_id_apply

theorem init_section_iff {j : Nat} {sec : Section} :
    init_section (early w) j = .ok sec ↔
      ((EHDR w.elf).e_shoff ≠ 0 ∧ w.Holds (shdrOff w.elf j) sizeofShdr) ∧
        sec = sectionOf w.elf j := by
  constructor
  · intro h
    obtain ⟨_, hholds⟩ := init_section_ok h
    have h0 : (EHDR w.elf).e_shoff ≠ 0 := by
      intro h0
      unfold init_section SHDR at h
      rw [show (early w).elf = w.elf from rfl, if_pos h0] at h
      cases h
    rw [init_section_eq hheld h0 hholds] at h
    cases h
    exact ⟨⟨h0, hholds⟩, rfl⟩
  · rintro ⟨⟨h0, hholds⟩, rfl⟩
    exact init_section_eq hheld h0 hholds

theorem init_sections_iff {w2 : World} :
    init_sections (early w) = .ok w2 ↔
      (((EHDR w.elf).e_shstrndx ≠ SHN_UNDEF → (EHDR w.elf).e_shoff ≠ 0 ∧
          w.Holds (shdrOff w.elf (EHDR w.elf).e_shstrndx.toNat) sizeofShdr) ∧
        ∀ j < (EHDR w.elf).e_shnum.toNat,
          (EHDR w.elf).e_shoff ≠ 0 ∧ w.Holds (shdrOff w.elf j) sizeofShdr) ∧
      w2 = { early w with
        sections := (List.range (EHDR w.elf).e_shnum.toNat).map (sectionOf w.elf) } := by
  have helf : (early w).elf = w.elf := rfl
  have hholds : ∀ a n, (early w).Holds a n ↔ w.Holds a n := fun _ _ => Iff.rfl
  have hnames := section_names_iff (w := early w)
  simp only [helf, hholds] at hnames
  unfold init_sections
  simp only [bind_eq_ok, helf, mapM_eq_ok_map fun _ _ => init_section_iff hheld, List.mem_range]
  constructor
  · rintro ⟨_, hundef, _, ⟨hshdrs, rfl⟩, hok⟩
    cases hok
    exact ⟨⟨hnames.mp hundef, hshdrs⟩, rfl⟩
  · rintro ⟨⟨hundef, hshdrs⟩, rfl⟩
    exact ⟨(), hnames.mpr hundef, _, ⟨hshdrs, rfl⟩, rfl⟩

end

/-- The sections come to the lists of their owners, in order. -/
theorem foldl_add_section (m : Bytes) (n : Nat) (js : List Nat) (lists : Nat → List Nat) :
    (js.map (sectionOf m)).foldl add_section ((List.range n).map fun i =>
        { earlySegment m i with segment_sections := lists i }) =
      (List.range n).map fun i =>
        { earlySegment m i with
          segment_sections := lists i ++ js.filter fun j => owner m j = some i } := by
  induction js generalizing lists with
  | nil => simp
  | cons j js ih =>
    have hadd : add_section ((List.range n).map fun i =>
        { earlySegment m i with segment_sections := lists i }) (sectionOf m j) =
        (List.range n).map fun i =>
          { earlySegment m i with
            segment_sections := lists i ++ if owner m j = some i then [j] else [] } := by
      unfold add_section sectionOf
      cases howner : owner m j with
      | none => simp
      | some k =>
        apply List.ext_getElem?
        intro i
        simp only [List.getElem?_modify, List.getElem?_map, Option.some.injEq]
        by_cases hn : i < n
        · rw [List.getElem?_range hn]
          by_cases hi : k = i
          · simp [hi]
          · simp [hi]
        · simp [hn]
    rw [List.map_cons, List.foldl_cons, hadd, ih]
    apply List.map_congr_left
    intro i _
    rw [List.filter_cons, List.append_assoc]
    split_ifs <;> simp_all

/-- `analyze` ends well if the tables are there, with the lists that the owners give. -/
theorem analyze_iff {w' : World} : analyze w = .ok w' ↔ TablesHeld w ∧ w' = analyzed w := by
  have hend : init_segments { early w with
      sections := (List.range (EHDR w.elf).e_shnum.toNat).map (sectionOf w.elf) } = analyzed w := by
    have hfold : ((List.range (EHDR w.elf).e_shnum.toNat).map (sectionOf w.elf)).foldl add_section
        (early w).segments = (List.range (EHDR w.elf).e_phnum.toNat).map (segmentOf w.elf) :=
      foldl_add_section w.elf (EHDR w.elf).e_phnum.toNat
        (List.range (EHDR w.elf).e_shnum.toNat) fun _ => []
    simp only [init_segments, hfold]
    rfl
  unfold analyze
  simp only [bind_eq_ok, init_segments_early_iff]
  constructor
  · rintro ⟨_, ⟨hphdrs, rfl⟩, _, hsections, hok⟩
    obtain ⟨⟨hnames, hshdrs⟩, rfl⟩ := (init_sections_iff hphdrs).mp hsections
    rw [hend] at hok
    cases hok
    exact ⟨⟨hphdrs, hshdrs, hnames⟩, rfl⟩
  · rintro ⟨h, rfl⟩
    exact ⟨_, ⟨h.phdrs, rfl⟩, _, (init_sections_iff h.phdrs).mpr ⟨⟨h.names, h.shdrs⟩, rfl⟩,
      congrArg Except.ok hend⟩

end

end elf_clack
