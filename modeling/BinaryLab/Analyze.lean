-- The input of elf-clack (analyze.h and analyze.c): a file in a private
-- mapping, the header tables in it, and the lists of segments and sections
-- that `analyze` makes of them. A pointer into the mapping is its offset from
-- `elf_start`.
import BinaryLab.Runs
import BinaryLab.Copies
import BinaryLab.Pages

set_option linter.style.nameCheck false

open binary_lab.runs binary_lab.words binary_lab.pages

namespace elf_clack

/-! ## The headers -/

abbrev SHN_UNDEF : BitVec 16 := 0
abbrev SHT_NOBITS : BitVec 32 := 8
abbrev PT_LOAD : BitVec 32 := 1
abbrev PT_PHDR : BitVec 32 := 6
abbrev PF_X : BitVec 32 := 1
abbrev PF_R : BitVec 32 := 4

abbrev sizeofEhdr : Nat := 64
abbrev sizeofPhdr : Nat := 56
abbrev sizeofShdr : Nat := 64

@[ext]
structure Elf64_Ehdr where
  e_entry : BitVec 64
  e_phoff : BitVec 64
  e_shoff : BitVec 64
  e_phentsize : BitVec 16
  e_phnum : BitVec 16
  e_shentsize : BitVec 16
  e_shnum : BitVec 16
  e_shstrndx : BitVec 16
deriving DecidableEq, Repr

@[ext]
structure Elf64_Phdr where
  p_type : BitVec 32
  p_flags : BitVec 32
  p_offset : BitVec 64
  p_vaddr : BitVec 64
  p_paddr : BitVec 64
  p_filesz : BitVec 64
  p_memsz : BitVec 64
  p_align : BitVec 64
deriving DecidableEq, Repr

structure Elf64_Shdr where
  sh_type : BitVec 32
  sh_offset : BitVec 64
  sh_size : BitVec 64
deriving DecidableEq, Repr

def EHDR (m : Bytes) : Elf64_Ehdr where
  e_entry := read64 m 24
  e_phoff := read64 m 32
  e_shoff := read64 m 40
  e_phentsize := read16 m 54
  e_phnum := read16 m 56
  e_shentsize := read16 m 58
  e_shnum := read16 m 60
  e_shstrndx := read16 m 62

def phdrAt (m : Bytes) (a : Addr) : Elf64_Phdr where
  p_type := read32 m a
  p_flags := read32 m (a + 4)
  p_offset := read64 m (a + 8)
  p_vaddr := read64 m (a + 16)
  p_paddr := read64 m (a + 24)
  p_filesz := read64 m (a + 32)
  p_memsz := read64 m (a + 40)
  p_align := read64 m (a + 48)

def shdrAt (m : Bytes) (a : Addr) : Elf64_Shdr where
  sh_type := read32 m (a + 4)
  sh_offset := read64 m (a + 24)
  sh_size := read64 m (a + 32)

/-- Where entry `n` of a table of entries of `entsize` bytes is. -/
def entryAt (off : BitVec 64) (entsize : BitVec 16) (n : Nat) : Addr :=
  off + entsize.setWidth 64 * BitVec.ofNat 64 n

def shdrOff (m : Bytes) (n : Nat) : Addr := entryAt (EHDR m).e_shoff (EHDR m).e_shentsize n

def phdrOff (m : Bytes) (n : Nat) : Addr := entryAt (EHDR m).e_phoff (EHDR m).e_phentsize n

/-- NULL if there is no table. -/
def SHDR (m : Bytes) (n : Nat) : Option Addr :=
  if (EHDR m).e_shoff = 0 then none else some (shdrOff m n)

def PHDR (m : Bytes) (n : Nat) : Option Addr :=
  if (EHDR m).e_phoff = 0 then none else some (phdrOff m n)

/-! ## The lists -/

/-- How a run ends before it is done. -/
inductive Fault
  | nullPointer
  /-- A read behind the last page of the input. -/
  | outsideInput
  /-- A copy that is not within the output. -/
  | outsideOutput
deriving DecidableEq, Repr

/-- Where the program header of a segment is. -/
inductive PhdrPtr
  | mapped (a : Addr)
  /-- The block that `add_new_segment` allocates. -/
  | fresh
deriving DecidableEq, Repr

/-- `Segment`. The members of `segment_sections` are given by their index. -/
structure Segment where
  index : Nat
  phdr : PhdrPtr
  segment_sections : List Nat
deriving DecidableEq, Repr

/-- `Section`. The segment is given by its index. -/
structure Section where
  index : Nat
  shdr : Addr
  segment : Option Nat
deriving DecidableEq, Repr

/-- The memory of the program. -/
structure World where
  /-- The mapping of the input, which is edited in place. -/
  elf : Bytes
  /-- `elf_end - elf_start`. -/
  size : Nat
  segments : List Segment
  sections : List Section
  /-- The header of the new segment, and what is behind it in the heap. -/
  newphdr : Elf64_Phdr
  newphdr_rest : Nat → Byte
  /-- The bytes from the buffer of the new segment on. -/
  newsegment : Bytes

/-- What `malloc` gives: blocks with anything in them. -/
structure Heap where
  newphdr : Elf64_Phdr
  newphdr_rest : Nat → Byte
  newsegment : Bytes

/-- The mapping of a file: the last page is filled up with zeros. -/
def startup (heap : Heap) (file : List Byte) : World where
  elf := fun a => file.getD a.toNat 0
  size := file.length
  segments := []
  sections := []
  newphdr := heap.newphdr
  newphdr_rest := heap.newphdr_rest
  newsegment := heap.newsegment

/-- The `n` bytes at `a` are in the pages of the input. -/
def World.Holds (w : World) (a : Addr) (n : Nat) : Prop := a.toNat + n ≤ ceilNat 4096 w.size

instance (w : World) (a : Addr) (n : Nat) : Decidable (w.Holds a n) :=
  inferInstanceAs (Decidable (_ ≤ _))

/-- A program header through a pointer. -/
def World.phdr (w : World) : PhdrPtr → Except Fault Elf64_Phdr
  | .mapped a => if w.Holds a sizeofPhdr then .ok (phdrAt w.elf a) else .error .outsideInput
  | .fresh => .ok w.newphdr

def World.shdr (w : World) (a : Addr) : Except Fault Elf64_Shdr :=
  if w.Holds a sizeofShdr then .ok (shdrAt w.elf a) else .error .outsideInput

/-- The first segment whose program header is as wanted. -/
def find_segment (w : World) (p : Elf64_Phdr → Bool) : List Segment → Except Fault (Option Segment)
  | [] => .ok none
  | segment :: segments => do
    let phdr ← w.phdr segment.phdr
    if p phdr then .ok (some segment) else find_segment w p segments

def find_segment_by_type (w : World) (p_type : BitVec 32) : Except Fault (Option Segment) :=
  find_segment w (fun phdr => phdr.p_type = p_type) w.segments

def find_segment_by_offset (w : World) (offset : BitVec 64) : Except Fault (Option Segment) :=
  find_segment w (fun phdr => phdr.p_offset ≤ offset ∧ offset < phdr.p_offset + phdr.p_filesz)
    w.segments

/-- One turn of the loop of `init_segments_early`. -/
def init_segment (w : World) (i : Nat) : Except Fault Segment :=
  match PHDR w.elf i with
  | none => .error .nullPointer
  | some a => do
    let _ ← w.phdr (.mapped a)
    .ok { index := i, phdr := .mapped a, segment_sections := [] }

def init_segments_early (w : World) : Except Fault World := do
  let segments ← (List.range (EHDR w.elf).e_phnum.toNat).mapM (init_segment w)
  .ok { w with segments }

/-- The look for the section with the names. -/
def section_names (w : World) : Except Fault Unit :=
  if (EHDR w.elf).e_shstrndx = SHN_UNDEF then .ok ()
  else match SHDR w.elf (EHDR w.elf).e_shstrndx.toNat with
    | none => .error .nullPointer
    | some a => do
      let _ ← w.shdr a
      .ok ()

/-- One turn of the loop of `init_sections`. -/
def init_section (w : World) (i : Nat) : Except Fault Section :=
  match SHDR w.elf i with
  | none => .error .nullPointer
  | some a => do
    let shdr ← w.shdr a
    if shdr.sh_offset = 0 then .ok { index := i, shdr := a, segment := none }
    else
      let segment ← find_segment_by_offset w shdr.sh_offset
      .ok { index := i, shdr := a, segment := segment.map Segment.index }

def init_sections (w : World) : Except Fault World := do
  section_names w
  let sections ← (List.range (EHDR w.elf).e_shnum.toNat).mapM (init_section w)
  .ok { w with sections }

/-- `list_add_tail(&section->segment_sections, &section->segment->segment_sections)`. -/
def add_section (segments : List Segment) (sec : Section) : List Segment :=
  match sec.segment with
  | none => segments
  | some i => segments.modify i fun segment =>
      { segment with segment_sections := segment.segment_sections ++ [sec.index] }

def init_segments (w : World) : World :=
  { w with segments := w.sections.foldl add_section w.segments }

def analyze (w : World) : Except Fault World := do
  let w ← init_segments_early w
  let w ← init_sections w
  .ok (init_segments w)

/-! ## What the lists hold -/

theorem entryAt_eq (off : BitVec 64) (entsize : BitVec 16) (i : Nat) :
    entryAt off entsize i = off + BitVec.ofNat 64 (entsize.toNat * i) := by
  have hent := entsize.isLt
  have hprod : (entsize.setWidth 64 * BitVec.ofNat 64 i) =
      BitVec.ofNat 64 (entsize.toNat * i) := by
    apply BitVec.eq_of_toNat_eq
    rw [BitVec.toNat_mul, BitVec.toNat_setWidth, BitVec.toNat_ofNat, BitVec.toNat_ofNat,
      Nat.mod_eq_of_lt (by omega : entsize.toNat < 2 ^ 64), Nat.mul_mod_mod]
  rw [entryAt, hprod]

theorem toNat_entryAt {off : BitVec 64} {entsize : BitVec 16} {i : Nat}
    (h : off.toNat + entsize.toNat * i < 2 ^ 64) :
    (entryAt off entsize i).toNat = off.toNat + entsize.toNat * i := by
  rw [entryAt_eq, toNat_add_ofNat h]

theorem World.phdr_mapped {w : World} {a : Addr} {phdr : Elf64_Phdr} :
    w.phdr (.mapped a) = .ok phdr ↔ w.Holds a sizeofPhdr ∧ phdr = phdrAt w.elf a := by
  simp only [World.phdr]
  split_ifs with h
  · simp [h, eq_comm]
  · simp [h]

theorem World.shdr_eq_ok {w : World} {a : Addr} {shdr : Elf64_Shdr} :
    w.shdr a = .ok shdr ↔ w.Holds a sizeofShdr ∧ shdr = shdrAt w.elf a := by
  unfold World.shdr
  split_ifs with h
  · simp [h, eq_comm]
  · simp [h]

/-- What a pointer to a program header points to. -/
def World.target (w : World) : PhdrPtr → Elf64_Phdr
  | .mapped a => phdrAt w.elf a
  | .fresh => w.newphdr

/-- The pointer can be followed. -/
def World.Valid (w : World) : PhdrPtr → Prop
  | .mapped a => w.Holds a sizeofPhdr
  | .fresh => True

theorem World.phdr_valid {w : World} {p : PhdrPtr} (h : w.Valid p) :
    w.phdr p = .ok (w.target p) := by
  cases p with
  | mapped a => exact World.phdr_mapped.mpr ⟨h, rfl⟩
  | fresh => rfl

theorem find_segment_eq {w : World} (p : Elf64_Phdr → Bool) {segments : List Segment}
    (h : ∀ s ∈ segments, w.Valid s.phdr) :
    find_segment w p segments = .ok (segments.find? fun s => p (w.target s.phdr)) := by
  induction segments with
  | nil => rfl
  | cons s segments ih =>
    rw [List.forall_mem_cons] at h
    rw [find_segment, World.phdr_valid h.1, ih h.2, List.find?_cons]
    cases hp : p (w.target s.phdr) <;> simp [bind, Except.bind, hp]

/-- A segment for an entry of the table. -/
theorem init_segment_ok {w : World} {i : Nat} {segment : Segment}
    (h : init_segment w i = .ok segment) :
    segment.phdr = .mapped (phdrOff w.elf i) ∧ w.Holds (phdrOff w.elf i) sizeofPhdr := by
  unfold init_segment PHDR at h
  split_ifs at h
  simp only [bind_eq_ok, World.phdr_mapped] at h
  obtain ⟨_, ⟨hholds, _⟩, hok⟩ := h
  cases hok
  exact ⟨rfl, hholds⟩

theorem init_section_ok {w : World} {i : Nat} {sec : Section}
    (h : init_section w i = .ok sec) :
    sec.shdr = shdrOff w.elf i ∧ w.Holds (shdrOff w.elf i) sizeofShdr := by
  unfold init_section SHDR at h
  split_ifs at h
  simp only [bind_eq_ok, World.shdr_eq_ok] at h
  obtain ⟨_, ⟨hholds, rfl⟩, h⟩ := h
  split_ifs at h
  · cases h
    exact ⟨rfl, hholds⟩
  · rw [bind_eq_ok] at h
    obtain ⟨_, _, hok⟩ := h
    cases hok
    exact ⟨rfl, hholds⟩

theorem add_section_phdr (segments : List Segment) (sec : Section) :
    (add_section segments sec).map Segment.phdr = segments.map Segment.phdr := by
  unfold add_section
  cases sec.segment with
  | none => rfl
  | some i =>
    apply List.ext_getElem?
    intro k
    simp only [List.getElem?_map, List.getElem?_modify]
    by_cases hk : i = k <;> simp [hk, Function.comp_def]

theorem foldl_add_section_phdr (sections : List Section) (segments : List Segment) :
    (sections.foldl add_section segments).map Segment.phdr = segments.map Segment.phdr := by
  induction sections generalizing segments with
  | nil => rfl
  | cons sec sections ih => rw [List.foldl_cons, ih, add_section_phdr]

/-- There is a segment for each program header and a section for each section
header, in order. -/
structure Listed (w : World) : Prop where
  phdrs : w.segments.map Segment.phdr =
    (List.range (EHDR w.elf).e_phnum.toNat).map fun i => .mapped (phdrOff w.elf i)
  phdr_held : ∀ i ∈ List.range (EHDR w.elf).e_phnum.toNat, w.Holds (phdrOff w.elf i) sizeofPhdr
  shdrs : w.sections.map Section.shdr =
    (List.range (EHDR w.elf).e_shnum.toNat).map (shdrOff w.elf)
  shdr_held : ∀ i ∈ List.range (EHDR w.elf).e_shnum.toNat, w.Holds (shdrOff w.elf i) sizeofShdr

theorem analyze.spec {w w' : World} (h : analyze w = .ok w') :
    w' = { w with segments := w'.segments, sections := w'.sections } ∧ Listed w' := by
  simp only [analyze, init_segments_early, init_sections, bind_eq_ok] at h
  obtain ⟨w1, ⟨segments, hsegments, hw1⟩, w2, ⟨_, _, sections, hsections, hw2⟩, hw'⟩ := h
  cases hw1
  cases hw2
  cases hw'
  obtain ⟨hphdrs, hphdr⟩ := map_of_mapM hsegments fun i y => init_segment_ok
  obtain ⟨hshdrs, hshdr⟩ := map_of_mapM hsections fun i y => init_section_ok
  exact ⟨rfl, (foldl_add_section_phdr _ _).trans hphdrs, hphdr, hshdrs, hshdr⟩

theorem Listed.valid {w : World} (h : Listed w) : ∀ s ∈ w.segments, w.Valid s.phdr := by
  intro s hs
  have hmem : s.phdr ∈ w.segments.map Segment.phdr := List.mem_map_of_mem hs
  rw [h.phdrs, List.mem_map] at hmem
  obtain ⟨i, hi, hphdr⟩ := hmem
  rw [← hphdr]
  exact h.phdr_held i hi

theorem Listed.length {w : World} (h : Listed w) :
    w.segments.length = (EHDR w.elf).e_phnum.toNat := by
  have hlen := congrArg List.length h.phdrs
  rwa [List.length_map, List.length_map, List.length_range] at hlen

theorem Listed.get {w : World} (h : Listed w) {i : Nat} (hi : i < w.segments.length) :
    i < (EHDR w.elf).e_phnum.toNat ∧ w.segments[i].phdr = .mapped (phdrOff w.elf i) := by
  have hlen := h.length
  have helem := congrArg (fun l => l[i]?) h.phdrs
  simp only [List.getElem?_map, List.getElem?_eq_getElem hi, List.getElem?_range (hlen ▸ hi),
    Option.map_some, Option.some.injEq] at helem
  exact ⟨hlen ▸ hi, helem⟩

theorem Listed.held {w : World} (h : Listed w) : ∀ s ∈ w.sections, w.Holds s.shdr sizeofShdr := by
  intro s hs
  have hmem : s.shdr ∈ w.sections.map Section.shdr := List.mem_map_of_mem hs
  rw [h.shdrs, List.mem_map] at hmem
  obtain ⟨i, hi, hshdr⟩ := hmem
  rw [← hshdr]
  exact h.shdr_held i hi

/-! ## A small file -/

/-- A heap of zeros. -/
def zeroHeap : Heap where
  newphdr := {
    p_type := 0
    p_flags := 0
    p_offset := 0
    p_vaddr := 0
    p_paddr := 0
    p_filesz := 0
    p_memsz := 0
    p_align := 0 }
  newphdr_rest := fun _ => 0
  newsegment := fun _ => 0

/-- The `n` bytes of a number. -/
def number (n x : Nat) : List Byte := (List.range n).map (byteOf x)

/-- The file starts with the magic number. -/
def IsElf (file : List Byte) : Prop := file.take 4 = [0x7f, 0x45, 0x4c, 0x46]

instance (file : List Byte) : Decidable (IsElf file) := inferInstanceAs (Decidable (_ = _))

/-- A program at 4 MiB with a `PT_PHDR` and a `PT_LOAD` entry, and a section of four bytes at its
end. -/
def smallFile : List Byte :=
  [0x7f, 0x45, 0x4c, 0x46, 2, 1, 1] ++ List.replicate 9 0 ++ number 2 2 ++ number 2 62 ++
    number 4 1 ++ number 8 0x400130 ++ number 8 64 ++ number 8 176 ++ number 4 0 ++ number 2 64 ++
    number 2 56 ++ number 2 2 ++ number 2 64 ++ number 2 2 ++ number 2 0 ++
  number 4 6 ++ number 4 4 ++ number 8 64 ++ number 8 0x400040 ++ number 8 0x400040 ++
    number 8 112 ++ number 8 112 ++ number 8 8 ++
  number 4 1 ++ number 4 5 ++ number 8 0 ++ number 8 0x400000 ++ number 8 0x400000 ++
    number 8 308 ++ number 8 308 ++ number 8 0x1000 ++
  List.replicate 64 0 ++
  number 4 0 ++ number 4 1 ++ number 8 6 ++ number 8 0x400130 ++ number 8 304 ++ number 8 4 ++
    List.replicate 24 0 ++
  number 4 0xc3909090

/-- The file with other bytes from `off` on. -/
def patch (file : List Byte) (off : Nat) (bs : List Byte) : List Byte :=
  file.take off ++ bs ++ file.drop (off + bs.length)

end elf_clack
