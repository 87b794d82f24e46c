-- The cracker of elf-clack (crack.c): `add_new_segment` finds a place behind
-- everything, `do_crack` fills the new segment, and `dump_elf` writes the
-- output with six copies. The input is edited in place on the way, and the
-- copies read the edited bytes.
import BinaryLab.Analyze

set_option linter.style.nameCheck false

open binary_lab.runs binary_lab.words binary_lab.pages

namespace elf_clack

/-! ## The new segment -/

/-- `if (x < end) x = end;`. -/
def raise (x e : BitVec 64) : BitVec 64 := if x < e then e else x

/-- The first loop of `add_new_segment`. -/
def segment_ends (w : World) :
    List Segment → BitVec 64 → BitVec 64 → Except Fault (BitVec 64 × BitVec 64)
  | [], new_addr, new_offset => .ok (new_addr, new_offset)
  | seg :: segs, new_addr, new_offset => do
    let phdr ← w.phdr seg.phdr
    segment_ends w segs (raise new_addr (phdr.p_vaddr + phdr.p_memsz))
      (raise new_offset (phdr.p_offset + phdr.p_filesz))

/-- The second loop. It takes the sections without data in the file, too. -/
def section_ends (w : World) : List Section → BitVec 64 → Except Fault (BitVec 64)
  | [], new_offset => .ok new_offset
  | sec :: secs, new_offset => do
    let shdr ← w.shdr sec.shdr
    section_ends w secs (raise new_offset (shdr.sh_offset + shdr.sh_size))

/-- The next boundary, also from a boundary on. -/
def nextBoundary (x align : BitVec 64) : BitVec 64 := x + (align - x % align)

/-- `add_new_segment` from the first `emalloc` on. -/
def make_segment (new_addr new_offset segment_size : BitVec 64) (w : World) : World :=
  { w with
    elf := write16 w.elf 56 ((EHDR w.elf).e_phnum + 1)
    segments := w.segments ++
      [{ index := (EHDR w.elf).e_phnum.toNat, phdr := .fresh, segment_sections := [] }]
    newphdr := {
      p_type := PT_LOAD
      p_flags := PF_R ||| PF_X
      p_offset := new_offset
      p_vaddr := new_addr + new_offset
      p_paddr := new_addr + new_offset
      p_filesz := segment_size
      p_memsz := segment_size
      p_align := 0x200000 } }

/-- `add_new_segment`. The size with the gap before the segment comes back in place of the
size that was asked for. -/
def add_new_segment (segment_size : BitVec 64) (w : World) :
    Except Fault (BitVec 64 × World) := do
  let (new_addr, new_offset) ← segment_ends w w.segments 0 0
  let new_offset ← section_ends w w.sections new_offset
  let size := 0x200 - new_offset % 0x200 + segment_size
  .ok (size, make_segment (nextBoundary new_addr 0x200000) (nextBoundary new_offset 0x200)
    segment_size w)

/-! ## The code -/

/-- `MESSAGE`, with its NUL. -/
def MESSAGE : List Byte :=
  ("hello, ELF!\n".toList.map fun c => BitVec.ofNat 8 c.toNat) ++ [0]

/-- Stores of one byte after the other. -/
def poke (m : Bytes) (a : Addr) (bs : List Byte) : Bytes :=
  overlay m a bs.length fun k => bs.getD k 0

/-- `do_crack`. The 100 bytes of `crack_code` are from the text of the cracker itself. -/
def do_crack (crack_code : Nat → Byte) (w : World) : World :=
  let phdr := w.newphdr
  let string := phdr.p_filesz - BitVec.ofNat 64 MESSAGE.length
  let seg := w.newsegment
  let seg := poke seg 0 [0x50, 0x52, 0x57]
  -- pushq length
  let seg := poke seg 3 [0x6a, BitVec.ofNat 8 (MESSAGE.length - 1)]
  -- mov "string", %rdi
  let seg := poke seg 5 [0x48, 0xc7, 0xc7]
  let seg := write32 seg 8 ((phdr.p_vaddr + string).setWidth 32)
  -- mov _start, %rsi
  let seg := poke seg 12 [0x48, 0xc7, 0xc6]
  let seg := write32 seg 15 ((EHDR w.elf).e_entry.setWidth 32)
  let seg := overlay seg 19 100 crack_code
  let seg := poke seg string MESSAGE
  { w with
    elf := write64 w.elf 24 phdr.p_vaddr
    newsegment := seg }

/-! ## The output -/

/-- A product of two fields of 16 bits, which is an `int`. -/
def intMul (x y : BitVec 16) : BitVec 32 := x.setWidth 32 * y.setWidth 32

def shdr_size (m : Bytes) : BitVec 32 := intMul (EHDR m).e_shentsize (EHDR m).e_shnum

def phdr_size (m : Bytes) : BitVec 32 := intMul (EHDR m).e_phentsize (EHDR m).e_phnum

/-- The size of the program headers less the new one. -/
def old_phdr_size (m : Bytes) : BitVec 32 :=
  (EHDR m).e_phentsize.setWidth 32 * ((EHDR m).e_phnum.setWidth 32 - 1)

/-- A field of 64 bits of a program header. -/
inductive PhdrField
  | p_offset
  | p_vaddr
  | p_paddr
  | p_filesz
  | p_memsz
  | p_align
deriving DecidableEq, Repr

def PhdrField.offset : PhdrField → Nat
  | p_offset => 8
  | p_vaddr => 16
  | p_paddr => 24
  | p_filesz => 32
  | p_memsz => 40
  | p_align => 48

def PhdrField.set (phdr : Elf64_Phdr) (v : BitVec 64) : PhdrField → Elf64_Phdr
  | p_offset => { phdr with p_offset := v }
  | p_vaddr => { phdr with p_vaddr := v }
  | p_paddr => { phdr with p_paddr := v }
  | p_filesz => { phdr with p_filesz := v }
  | p_memsz => { phdr with p_memsz := v }
  | p_align => { phdr with p_align := v }

/-- A store to a field of a program header through a pointer. -/
def World.store (w : World) (p : PhdrPtr) (field : PhdrField) (v : BitVec 64) : World :=
  match p with
  | .mapped a => { w with elf := write64 w.elf (a + BitVec.ofNat 64 field.offset) v }
  | .fresh => { w with newphdr := field.set w.newphdr v }

/-- The new place of the tables, in the header. -/
def move_tables (w : World) : World :=
  let w := { w with elf := write64 w.elf 40 (w.newphdr.p_offset + w.newphdr.p_filesz) }
  { w with elf := write64 w.elf 32 ((EHDR w.elf).e_shoff + (shdr_size w.elf).signExtend 64) }

/-- The new place of the program headers, in the `PT_PHDR` entry. -/
def move_phdr (phdr : PhdrPtr) (w : World) : World :=
  let p_vaddr := w.newphdr.p_vaddr - w.newphdr.p_offset +
    (EHDR w.elf).e_phoff % w.newphdr.p_align
  let w := (w.store phdr .p_vaddr p_vaddr).store phdr .p_paddr p_vaddr
  let p_memsz := (phdr_size w.elf).signExtend 64
  let w := (w.store phdr .p_memsz p_memsz).store phdr .p_filesz p_memsz
  let w := w.store phdr .p_offset (EHDR w.elf).e_phoff
  w.store phdr .p_align 0x8

/-- To map PHDR and SHDR. The sum of the sizes is an `int`. -/
def grow_segment (w : World) : World :=
  let p_filesz := w.newphdr.p_filesz + (phdr_size w.elf + shdr_size w.elf).signExtend 64
  { w with newphdr := { w.newphdr with p_filesz, p_memsz := p_filesz } }

/-- Byte `k` of a program header in memory. -/
def Elf64_Phdr.byte (phdr : Elf64_Phdr) (k : Nat) : Byte :=
  if k < 4 then byteOf phdr.p_type.toNat k
  else if k < 8 then byteOf phdr.p_flags.toNat (k - 4)
  else if k < 16 then byteOf phdr.p_offset.toNat (k - 8)
  else if k < 24 then byteOf phdr.p_vaddr.toNat (k - 16)
  else if k < 32 then byteOf phdr.p_paddr.toNat (k - 24)
  else if k < 40 then byteOf phdr.p_filesz.toNat (k - 32)
  else if k < 48 then byteOf phdr.p_memsz.toNat (k - 40)
  else byteOf phdr.p_align.toNat (k - 48)

/-- Where `my_memcpy` reads from. -/
inductive Source
  /-- The mapping of the input, or NULL. -/
  | elf (a : Option Addr)
  | newsegment
  | newphdr

/-- Byte `k` from the source on. -/
def World.sourceByte (w : World) : Source → Nat → Byte
  | .elf none, _ => 0
  | .elf (some a), k => w.elf (a + BitVec.ofNat 64 k)
  | .newsegment, k => w.newsegment (BitVec.ofNat 64 k)
  | .newphdr, k => if k < sizeofPhdr then w.newphdr.byte k else w.newphdr_rest (k - sizeofPhdr)

/-- The source can be read. Behind a block the heap goes on. -/
def World.readable (w : World) (n : Nat) : Source → Except Fault Unit
  | .elf none => if n = 0 then .ok () else .error .nullPointer
  | .elf (some a) => if n = 0 ∨ w.Holds a n then .ok () else .error .outsideInput
  | .newsegment | .newphdr => .ok ()

/-- `my_memcpy` to the offset `dst` of an output of `length` bytes. -/
def my_memcpy (length : Nat) (w : World) (dst : Addr) (src : Source) (size : BitVec 64)
    (start : Bytes) : Except Fault Bytes := do
  w.readable size.toNat src
  if size = 0 ∨ dst.toNat + size.toNat ≤ length then
    .ok (overlay start dst size.toNat (w.sourceByte src))
  else .error .outsideOutput

/-- The copies of `dump_elf` behind the first one. -/
def dump_tables (length : Nat) (phdr_addr shdr_addr : Option Addr) (w : World) (start : Bytes) :
    Except Fault Bytes := do
  -- write new segment
  let start ← my_memcpy length w w.newphdr.p_offset .newsegment w.newphdr.p_filesz start
  -- write new EHDR
  let start ← my_memcpy length w 0 (.elf (some 0)) (BitVec.ofNat 64 sizeofEhdr) start
  -- write SHDR
  let start ← my_memcpy length w (EHDR w.elf).e_shoff (.elf shdr_addr)
    ((shdr_size w.elf).signExtend 64) start
  -- write PHDR (exclude newseg PHDR)
  let start ← my_memcpy length w (EHDR w.elf).e_phoff (.elf phdr_addr)
    ((old_phdr_size w.elf).signExtend 64) start
  -- write newseg PHDR
  my_memcpy length w ((EHDR w.elf).e_phoff + (old_phdr_size w.elf).signExtend 64) .newphdr
    ((EHDR w.elf).e_phentsize.setWidth 64) start

def dump_elf (length : Nat) (w : World) (start : Bytes) : Except Fault (Bytes × World) := do
  let phdr_addr := PHDR w.elf 0
  let shdr_addr := SHDR w.elf 0
  let w := move_tables w
  let seg ← find_segment_by_type w PT_PHDR
  let w := match seg with
    | none => w
    | some seg => move_phdr seg.phdr w
  -- write segments (exclude newseg)
  let start ← my_memcpy length w 0 (.elf (some 0)) (BitVec.ofNat 64 w.size) start
  let w := grow_segment w
  let start ← dump_tables length phdr_addr shdr_addr w start
  .ok (start, w)

/-- The length of the output, as `create_exe` computes it. -/
def exe_length (w : World) : BitVec 64 :=
  w.newphdr.p_offset + w.newphdr.p_filesz + (shdr_size w.elf).signExtend 64 +
    (phdr_size w.elf).signExtend 64 + (EHDR w.elf).e_shentsize.setWidth 64

/-- `create_exe`, with a file of zeros at first. -/
def create_exe (w : World) : Except Fault (Bytes × World) :=
  dump_elf (exe_length w).toNat w fun _ => 0

/-- `main`: the output for a file. -/
def crack (heap : Heap) (crack_code : Nat → Byte) (file : List Byte) :
    Except Fault (Bytes × World) := do
  let w ← analyze (startup heap file)
  let (_, w) ← add_new_segment 1024 w
  create_exe (do_crack crack_code w)

/-! ## Behind everything -/

theorem le_raise_left (x e : BitVec 64) : x ≤ raise x e := by
  unfold raise
  split_ifs with h
  · exact BitVec.le_of_lt h
  · exact BitVec.le_refl x

theorem le_raise_right (x e : BitVec 64) : e ≤ raise x e := by
  unfold raise
  split_ifs with h
  · exact BitVec.le_refl e
  · exact BitVec.not_lt.mp h

/-- A run of raises ends at or above where it starts and every value it meets. -/
theorem le_foldl_raise (es : List (BitVec 64)) (x : BitVec 64) :
    x ≤ es.foldl raise x ∧ ∀ e ∈ es, e ≤ es.foldl raise x := by
  induction es generalizing x with
  | nil => simp
  | cons e es ih =>
    obtain ⟨hstart, hrest⟩ := ih (raise x e)
    refine ⟨BitVec.le_trans (le_raise_left x e) hstart, List.forall_mem_cons.mpr ⟨?_, hrest⟩⟩
    exact BitVec.le_trans (le_raise_right x e) hstart

theorem foldl_raise_mem (es : List (BitVec 64)) (x : BitVec 64) :
    es.foldl raise x = x ∨ es.foldl raise x ∈ es := by
  induction es generalizing x with
  | nil => exact .inl rfl
  | cons e es ih =>
    rw [List.foldl_cons, List.mem_cons]
    rcases ih (raise x e) with h | h
    · rw [h]
      unfold raise
      split_ifs
      · exact .inr (.inl rfl)
      · exact .inl rfl
    · exact .inr (.inr h)

theorem segment_ends_eq {w : World} {segs : List Segment} (h : ∀ s ∈ segs, w.Valid s.phdr)
    (a o : BitVec 64) :
    segment_ends w segs a o =
      .ok ((segs.map fun s => (w.target s.phdr).p_vaddr + (w.target s.phdr).p_memsz).foldl raise a,
        (segs.map fun s => (w.target s.phdr).p_offset + (w.target s.phdr).p_filesz).foldl
          raise o) := by
  induction segs generalizing a o with
  | nil => rfl
  | cons s segs ih =>
    rw [List.forall_mem_cons] at h
    rw [segment_ends, World.phdr_valid h.1]
    simp only [bind, Except.bind, ih h.2, List.map_cons, List.foldl_cons]

theorem section_ends_eq {w : World} {secs : List Section}
    (h : ∀ s ∈ secs, w.Holds s.shdr sizeofShdr) (o : BitVec 64) :
    section_ends w secs o =
      .ok ((secs.map fun s => (shdrAt w.elf s.shdr).sh_offset +
        (shdrAt w.elf s.shdr).sh_size).foldl raise o) := by
  induction secs generalizing o with
  | nil => rfl
  | cons s secs ih =>
    rw [List.forall_mem_cons] at h
    rw [section_ends, World.shdr_eq_ok.mpr ⟨h.1, rfl⟩]
    simp only [bind, Except.bind, ih h.2, List.map_cons, List.foldl_cons]

/-- The ends in the file of the segments and the sections. -/
def fileEnds (m : Bytes) : List (BitVec 64) :=
  ((List.range (EHDR m).e_phnum.toNat).map fun i =>
    (phdrAt m (phdrOff m i)).p_offset + (phdrAt m (phdrOff m i)).p_filesz) ++
  (List.range (EHDR m).e_shnum.toNat).map fun i =>
    (shdrAt m (shdrOff m i)).sh_offset + (shdrAt m (shdrOff m i)).sh_size

/-- The ends in memory of the segments. -/
def memoryEnds (m : Bytes) : List (BitVec 64) :=
  (List.range (EHDR m).e_phnum.toNat).map fun i =>
    (phdrAt m (phdrOff m i)).p_vaddr + (phdrAt m (phdrOff m i)).p_memsz

/-- The place of the new segment in the file. -/
def newOffset (m : Bytes) : BitVec 64 := nextBoundary ((fileEnds m).foldl raise 0) 0x200

/-- Its place in memory, less the one in the file. -/
def newAddr (m : Bytes) : BitVec 64 := nextBoundary ((memoryEnds m).foldl raise 0) 0x200000

theorem Listed.map_target {w : World} (h : Listed w) (f : Elf64_Phdr → BitVec 64) :
    (w.segments.map fun s => f (w.target s.phdr)) =
      (List.range (EHDR w.elf).e_phnum.toNat).map fun i => f (phdrAt w.elf (phdrOff w.elf i)) := by
  have := congrArg (List.map fun p => f (w.target p)) h.phdrs
  simpa only [List.map_map, Function.comp_def, World.target] using this

theorem Listed.map_shdr {w : World} (h : Listed w) (f : Elf64_Shdr → BitVec 64) :
    (w.sections.map fun s => f (shdrAt w.elf s.shdr)) =
      (List.range (EHDR w.elf).e_shnum.toNat).map fun i => f (shdrAt w.elf (shdrOff w.elf i)) := by
  have := congrArg (List.map fun a => f (shdrAt w.elf a)) h.shdrs
  simpa only [List.map_map, Function.comp_def] using this

/-- The new segment starts at the next boundary behind all ends. -/
theorem add_new_segment_eq {w : World} (h : Listed w) (segment_size : BitVec 64) :
    ∃ size, add_new_segment segment_size w =
      .ok (size, make_segment (newAddr w.elf) (newOffset w.elf) segment_size w) := by
  have hmemory := h.map_target fun phdr => phdr.p_vaddr + phdr.p_memsz
  have hfile := h.map_target fun phdr => phdr.p_offset + phdr.p_filesz
  have hsections := h.map_shdr fun shdr => shdr.sh_offset + shdr.sh_size
  unfold add_new_segment
  rw [segment_ends_eq h.valid, hmemory, hfile]
  simp only [bind, Except.bind, section_ends_eq h.held, hsections, ← List.foldl_append]
  exact ⟨_, rfl⟩

theorem toNat_nextBoundary {x align : BitVec 64} (h0 : 0 < align.toNat)
    (h : x.toNat + (align.toNat - x.toNat % align.toNat) < 2 ^ 64) :
    (nextBoundary x align).toNat = x.toNat + (align.toNat - x.toNat % align.toNat) := by
  have hmod := Nat.mod_lt x.toNat h0
  unfold nextBoundary
  rw [BitVec.toNat_add, BitVec.toNat_sub_of_le (by rw [BitVec.le_def, BitVec.toNat_umod]; omega),
    BitVec.toNat_umod, Nat.mod_eq_of_lt h]

section

variable {m : Bytes} {room : Nat}

/-- No end wraps, nor does it with `room` bytes behind it. -/
structure EndsBelow (m : Bytes) (room : Nat) : Prop where
  segments : ∀ i < (EHDR m).e_phnum.toNat,
    (phdrAt m (phdrOff m i)).p_offset.toNat + (phdrAt m (phdrOff m i)).p_filesz.toNat + room <
      2 ^ 64
  sections : ∀ i < (EHDR m).e_shnum.toNat,
    (shdrAt m (shdrOff m i)).sh_offset.toNat + (shdrAt m (shdrOff m i)).sh_size.toNat + room <
      2 ^ 64

theorem EndsBelow.lt (h : EndsBelow m room) : ∀ e ∈ fileEnds m, e.toNat + room < 2 ^ 64 := by
  intro e he
  rw [fileEnds, List.mem_append, List.mem_map, List.mem_map] at he
  rcases he with ⟨i, hi, rfl⟩ | ⟨i, hi, rfl⟩
  · have := h.segments i (List.mem_range.mp hi)
    rw [BitVec.toNat_add, Nat.mod_eq_of_lt (by omega)]
    exact this
  · have := h.sections i (List.mem_range.mp hi)
    rw [BitVec.toNat_add, Nat.mod_eq_of_lt (by omega)]
    exact this

/-- The ends as numbers, if they all have a bound. -/
theorem EndsBelow.le_of_forall (h : EndsBelow m room) {bound : Nat}
    (hends : ∀ e ∈ fileEnds m, e.toNat ≤ bound) :
    (∀ i < (EHDR m).e_phnum.toNat,
      (phdrAt m (phdrOff m i)).p_offset.toNat + (phdrAt m (phdrOff m i)).p_filesz.toNat ≤ bound) ∧
    ∀ i < (EHDR m).e_shnum.toNat,
      (shdrAt m (shdrOff m i)).sh_offset.toNat + (shdrAt m (shdrOff m i)).sh_size.toNat ≤
        bound := by
  constructor
  · intro i hi
    have hlt := h.segments i hi
    have hle := hends _ (List.mem_append_left _ (List.mem_map_of_mem (List.mem_range.mpr hi)))
    rwa [BitVec.toNat_add, Nat.mod_eq_of_lt (by omega)] at hle
  · intro i hi
    have hlt := h.sections i hi
    have hle := hends _ (List.mem_append_right _ (List.mem_map_of_mem (List.mem_range.mpr hi)))
    rwa [BitVec.toNat_add, Nat.mod_eq_of_lt (by omega)] at hle

/-- The new segment lies behind every end, and there is as much room behind it
as there was behind the last end, less a step to the next boundary. -/
theorem newOffset_behind (h : EndsBelow m room) (hroom : 0x200 ≤ room) (hlt : room < 2 ^ 64) :
    0x200 ≤ (newOffset m).toNat ∧ (newOffset m).toNat + room < 2 ^ 64 + 0x200 ∧
      ∀ e ∈ fileEnds m, e.toNat ≤ (newOffset m).toNat := by
  obtain ⟨_, hends⟩ := le_foldl_raise (fileEnds m) 0
  have hlast : ((fileEnds m).foldl raise 0).toNat + room < 2 ^ 64 := by
    rcases foldl_raise_mem (fileEnds m) 0 with h0 | hmem
    · rw [h0]
      simpa using hlt
    · exact h.lt _ hmem
  have hmod := Nat.mod_lt ((fileEnds m).foldl raise 0).toNat (show 0 < 0x200 by decide)
  have hle := Nat.mod_le ((fileEnds m).foldl raise 0).toNat 0x200
  have hnew : (newOffset m).toNat = ((fileEnds m).foldl raise 0).toNat +
      (0x200 - ((fileEnds m).foldl raise 0).toNat % 0x200) :=
    toNat_nextBoundary (by decide) (by rw [show (0x200 : BitVec 64).toNat = 0x200 from rfl]; omega)
  refine ⟨by omega, by omega, ?_⟩
  intro e he
  have := BitVec.le_def.mp (hends e he)
  omega

end

/-! ## The edits of the header -/

section

variable {m m' : Bytes} {lo n : Nat}

/-- The fields of the header outside the bytes that were edited. -/
theorem EHDR_edited (h : ∀ x, ¬ Within x lo n → m' x = m x) :
    (lo + n ≤ 24 ∨ 32 ≤ lo → (EHDR m').e_entry = (EHDR m).e_entry) ∧
    (lo + n ≤ 32 ∨ 40 ≤ lo → (EHDR m').e_phoff = (EHDR m).e_phoff) ∧
    (lo + n ≤ 40 ∨ 48 ≤ lo → (EHDR m').e_shoff = (EHDR m).e_shoff) ∧
    (lo + n ≤ 54 ∨ 56 ≤ lo → (EHDR m').e_phentsize = (EHDR m).e_phentsize) ∧
    (lo + n ≤ 56 ∨ 58 ≤ lo → (EHDR m').e_phnum = (EHDR m).e_phnum) ∧
    (lo + n ≤ 58 ∨ 60 ≤ lo → (EHDR m').e_shentsize = (EHDR m).e_shentsize) ∧
    (lo + n ≤ 60 ∨ 62 ≤ lo → (EHDR m').e_shnum = (EHDR m).e_shnum) ∧
    (lo + n ≤ 62 ∨ 64 ≤ lo → (EHDR m').e_shstrndx = (EHDR m).e_shstrndx) := by
  have hfar : ∀ at_ len, lo + n ≤ at_ ∨ at_ + len ≤ lo → SameOn m m' at_ len := by
    intro at_ len hapart x hx
    apply h
    unfold Within at *
    omega
  simp only [EHDR]
  refine ⟨?_, ?_, ?_, ?_, ?_, ?_, ?_, ?_⟩
  · exact fun hapart => read64_same (hfar 24 8 hapart) (by decide)
  · exact fun hapart => read64_same (hfar 32 8 hapart) (by decide)
  · exact fun hapart => read64_same (hfar 40 8 hapart) (by decide)
  · exact fun hapart => read16_same (hfar 54 2 hapart) (by decide)
  · exact fun hapart => read16_same (hfar 56 2 hapart) (by decide)
  · exact fun hapart => read16_same (hfar 58 2 hapart) (by decide)
  · exact fun hapart => read16_same (hfar 60 2 hapart) (by decide)
  · exact fun hapart => read16_same (hfar 62 2 hapart) (by decide)

/-- A header is read from its 64 bytes. -/
theorem EHDR_same (h : ∀ x : Addr, x.toNat < sizeofEhdr → m' x = m x) : EHDR m' = EHDR m := by
  have hfar : ∀ x, ¬ Within x 64 (2 ^ 64) → m' x = m x := by
    intro x hx
    unfold Within at hx
    exact h x (show x.toNat < 64 by omega)
  obtain ⟨h1, h2, h3, h4, h5, h6, h7, h8⟩ := EHDR_edited hfar
  exact Elf64_Ehdr.ext (h1 (by decide)) (h2 (by decide)) (h3 (by decide)) (h4 (by decide))
    (h5 (by decide)) (h6 (by decide)) (h7 (by decide)) (h8 (by decide))

theorem EHDR_set_phnum (m : Bytes) (v : BitVec 16) :
    EHDR (write16 m 56 v) = { EHDR m with e_phnum := v } := by
  have hfar : ∀ x, ¬ Within x 56 2 → write16 m 56 v x = m x :=
    fun x hx => overlay_outside (by decide) hx
  obtain ⟨h1, h2, h3, h4, _, h6, h7, h8⟩ := EHDR_edited hfar
  exact Elf64_Ehdr.ext (h1 (by decide)) (h2 (by decide)) (h3 (by decide)) (h4 (by decide))
    (read16_write16_self v (by decide)) (h6 (by decide)) (h7 (by decide)) (h8 (by decide))

theorem EHDR_set_entry (m : Bytes) (v : BitVec 64) :
    EHDR (write64 m 24 v) = { EHDR m with e_entry := v } := by
  have hfar : ∀ x, ¬ Within x 24 8 → write64 m 24 v x = m x :=
    fun x hx => write64_outside v (by decide) hx
  obtain ⟨_, h2, h3, h4, h5, h6, h7, h8⟩ := EHDR_edited hfar
  exact Elf64_Ehdr.ext (read64_write64_self m 24 v) (h2 (by decide)) (h3 (by decide))
    (h4 (by decide)) (h5 (by decide)) (h6 (by decide)) (h7 (by decide)) (h8 (by decide))

theorem EHDR_set_phoff (m : Bytes) (v : BitVec 64) :
    EHDR (write64 m 32 v) = { EHDR m with e_phoff := v } := by
  have hfar : ∀ x, ¬ Within x 32 8 → write64 m 32 v x = m x :=
    fun x hx => write64_outside v (by decide) hx
  obtain ⟨h1, _, h3, h4, h5, h6, h7, h8⟩ := EHDR_edited hfar
  exact Elf64_Ehdr.ext (h1 (by decide)) (read64_write64_self m 32 v) (h3 (by decide))
    (h4 (by decide)) (h5 (by decide)) (h6 (by decide)) (h7 (by decide)) (h8 (by decide))

theorem EHDR_set_shoff (m : Bytes) (v : BitVec 64) :
    EHDR (write64 m 40 v) = { EHDR m with e_shoff := v } := by
  have hfar : ∀ x, ¬ Within x 40 8 → write64 m 40 v x = m x :=
    fun x hx => write64_outside v (by decide) hx
  obtain ⟨h1, h2, _, h4, h5, h6, h7, h8⟩ := EHDR_edited hfar
  exact Elf64_Ehdr.ext (h1 (by decide)) (h2 (by decide)) (read64_write64_self m 40 v)
    (h4 (by decide)) (h5 (by decide)) (h6 (by decide)) (h7 (by decide)) (h8 (by decide))

end

end elf_clack
