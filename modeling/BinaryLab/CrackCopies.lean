-- The six copies of `dump_elf` of elf-clack as a list, and what the output has
-- at each place after the last one.
import BinaryLab.CrackEdits

set_option linter.style.nameCheck false

open binary_lab.runs binary_lab.words binary_lab.pages

namespace elf_clack

/-! ## The list -/

/-- What `my_memcpy` is asked for. -/
structure Copy where
  dst : Addr
  src : Source
  size : BitVec 64

/-- The copies behind the first one. -/
def table_copies (phdr_addr shdr_addr : Option Addr) (w : World) : List Copy :=
  [⟨w.newphdr.p_offset, .newsegment, w.newphdr.p_filesz⟩,
    ⟨0, .elf (some 0), BitVec.ofNat 64 sizeofEhdr⟩,
    ⟨(EHDR w.elf).e_shoff, .elf shdr_addr, (shdr_size w.elf).signExtend 64⟩,
    ⟨(EHDR w.elf).e_phoff, .elf phdr_addr, (old_phdr_size w.elf).signExtend 64⟩,
    ⟨(EHDR w.elf).e_phoff + (old_phdr_size w.elf).signExtend 64, .newphdr,
      (EHDR w.elf).e_phentsize.setWidth 64⟩]

/-- All copies, as the memory is after `grow_segment`. -/
def copies (phdr_addr shdr_addr : Option Addr) (w : World) : List Copy :=
  ⟨0, .elf (some 0), BitVec.ofNat 64 w.size⟩ :: table_copies phdr_addr shdr_addr w

/-- The copy lies within an output of `length` bytes. -/
def Copy.Inside (length : Nat) (c : Copy) : Prop :=
  c.size = 0 ∨ c.dst.toNat + c.size.toNat ≤ length

/-- The output after the copy. -/
def Copy.run (w : World) (start : Bytes) (c : Copy) : Bytes :=
  overlay start c.dst c.size.toNat (w.sourceByte c.src)

/-- `dump_elf` makes these copies. -/
theorem dump_elf_copies (length : Nat) (w : World) (start : Bytes) :
    dump_elf length w start = edited w >>= fun w5 =>
      (copies (PHDR w.elf 0) (SHDR w.elf 0) (grow_segment w5)).foldlM
          (fun start c => my_memcpy length (grow_segment w5) c.dst c.src c.size start) start >>=
        fun start => .ok (start, grow_segment w5) := by
  have htables : ∀ w5 start, dump_tables length (PHDR w.elf 0) (SHDR w.elf 0) w5 start =
      (table_copies (PHDR w.elf 0) (SHDR w.elf 0) w5).foldlM
        (fun start c => my_memcpy length w5 c.dst c.src c.size start) start := by
    intro w5 start
    simp only [dump_tables, table_copies, List.foldlM_cons, List.foldlM_nil, bind_pure]
  have hfirst : ∀ w5 : World,
      my_memcpy length w5 0 (.elf (some 0)) (BitVec.ofNat 64 w5.size) start =
        my_memcpy length (grow_segment w5) 0 (.elf (some 0))
          (BitVec.ofNat 64 (grow_segment w5).size) start := fun _ => rfl
  rw [dump_elf_eq]
  refine congrArg (edited w >>= ·) (funext fun w5 => ?_)
  rw [hfirst w5, copies, List.foldlM_cons, bind_assoc]
  simp only [htables]

theorem my_memcpy_eq_ok {length : Nat} {w : World} {c : Copy} {start out : Bytes} :
    my_memcpy length w c.dst c.src c.size start = .ok out ↔
      (c.Inside length ∧ w.readable c.size.toNat c.src = .ok ()) ∧ out = c.run w start := by
  unfold my_memcpy
  rw [bind_eq_ok]
  constructor
  · rintro ⟨_, hread, hcopy⟩
    split_ifs at hcopy with hfit
    cases hcopy
    exact ⟨⟨hfit, hread⟩, rfl⟩
  · rintro ⟨⟨hfit, hread⟩, rfl⟩
    exact ⟨(), hread, if_pos hfit⟩

/-- A run of copies goes through if each one does, whatever the others have written. -/
theorem foldlM_memcpy {length : Nat} {w : World} {cs : List Copy} {start out : Bytes} :
    cs.foldlM (fun start c => my_memcpy length w c.dst c.src c.size start) start = .ok out ↔
      (∀ c ∈ cs, c.Inside length ∧ w.readable c.size.toNat c.src = .ok ()) ∧
        out = cs.foldl (Copy.run w) start := by
  induction cs generalizing start with
  | nil => simp [pure, Except.pure, eq_comm]
  | cons c cs ih =>
    rw [List.foldlM_cons, bind_eq_ok, List.forall_mem_cons, List.foldl_cons]
    constructor
    · rintro ⟨_, hc, hcs⟩
      obtain ⟨hok, rfl⟩ := my_memcpy_eq_ok.mp hc
      obtain ⟨hrest, hout⟩ := ih.mp hcs
      exact ⟨⟨hok, hrest⟩, hout⟩
    · rintro ⟨⟨hok, hrest⟩, hout⟩
      exact ⟨_, my_memcpy_eq_ok.mpr ⟨hok, rfl⟩, ih.mpr ⟨hrest, hout⟩⟩

/-! ## Sizes -/

/-- An `int` that is not negative. -/
theorem toNat_signExtend_int {x : BitVec 32} (h : x.toNat < 2 ^ 31) :
    (x.signExtend 64).toNat = x.toNat := by
  have hmsb : x.msb = false := by
    rw [BitVec.msb_eq_false_iff_two_mul_lt]
    omega
  rw [BitVec.signExtend_eq_setWidth_of_msb_false hmsb, BitVec.toNat_setWidth,
    Nat.mod_eq_of_lt (by omega)]

theorem toNat_intMul (x y : BitVec 16) : (intMul x y).toNat = x.toNat * y.toNat := by
  have hlt : x.toNat * y.toNat < 2 ^ 16 * 2 ^ 16 := Nat.mul_lt_mul'' x.isLt y.isLt
  have hx := x.isLt
  have hy := y.isLt
  rw [intMul, BitVec.toNat_mul, BitVec.toNat_setWidth, BitVec.toNat_setWidth,
    Nat.mod_eq_of_lt (by omega : x.toNat < 2 ^ 32), Nat.mod_eq_of_lt (by omega : y.toNat < 2 ^ 32),
    Nat.mod_eq_of_lt (by omega)]

/-- The size of the program headers less the last one. -/
theorem toNat_old_size {m : Bytes} {n : Nat} (hn : (EHDR m).e_phnum.toNat = n + 1) :
    (old_phdr_size m).toNat = (EHDR m).e_phentsize.toNat * n := by
  have hlt := (EHDR m).e_phnum.isLt
  have hsize := toNat_intMul (EHDR m).e_phentsize (BitVec.ofNat 16 n)
  have hnum : (EHDR m).e_phnum.setWidth 32 - 1 = (BitVec.ofNat 16 n).setWidth 32 := by
    apply BitVec.eq_of_toNat_eq
    simp only [BitVec.toNat_sub, BitVec.toNat_setWidth, BitVec.ofNat_eq_ofNat,
      BitVec.toNat_ofNat, hn]
    omega
  rw [intMul, ← hnum, BitVec.toNat_ofNat, Nat.mod_eq_of_lt (by omega : n < 2 ^ 16)] at hsize
  exact hsize

/-- The bytes of the section headers. -/
def shdrsLen (m : Bytes) : Nat := (EHDR m).e_shentsize.toNat * (EHDR m).e_shnum.toNat

/-- The bytes of the program headers. -/
def phdrsLen (m : Bytes) : Nat := (EHDR m).e_phentsize.toNat * (EHDR m).e_phnum.toNat

/-! ## The places -/

/-- The places of the copies behind the first one: the new segment is at `N`, and in its end
come `sh` bytes of section headers, `ph` bytes of program headers and the new program header
of `ent` bytes. -/
structure Layout (w : World) (N sh ph ent : Nat) : Prop where
  offset : w.newphdr.p_offset.toNat = N
  filesz : w.newphdr.p_filesz.toNat = 1024 + sh + (ph + ent)
  shoff : (EHDR w.elf).e_shoff.toNat = N + 1024
  phoff : (EHDR w.elf).e_phoff.toNat = N + 1024 + sh
  shdrs : ((shdr_size w.elf).signExtend 64).toNat = sh
  phdrs : ((old_phdr_size w.elf).signExtend 64).toNat = ph
  entry : ((EHDR w.elf).e_phentsize.setWidth 64).toNat = ent
  no_wrap : N + 1024 + sh + ph + ent < 2 ^ 64

namespace Layout

variable {w : World} {N sh ph ent : Nat} {pa sa : Option Addr} {start : Bytes} {x : Addr}

theorem end_eq (h : Layout w N sh ph ent) :
    ((EHDR w.elf).e_phoff + (old_phdr_size w.elf).signExtend 64).toNat = N + 1024 + sh + ph := by
  have := h.no_wrap
  rw [BitVec.toNat_add, h.phoff, h.phdrs, Nat.mod_eq_of_lt (by omega)]

/-- The output after the copies behind the first one. -/
theorem run_tables :
    (table_copies pa sa w).foldl (Copy.run w) start =
      overlay (overlay (overlay (overlay (overlay start
        w.newphdr.p_offset w.newphdr.p_filesz.toNat (w.sourceByte .newsegment))
        0 sizeofEhdr (w.sourceByte (.elf (some 0))))
        (EHDR w.elf).e_shoff ((shdr_size w.elf).signExtend 64).toNat (w.sourceByte (.elf sa)))
        (EHDR w.elf).e_phoff ((old_phdr_size w.elf).signExtend 64).toNat
          (w.sourceByte (.elf pa)))
        ((EHDR w.elf).e_phoff + (old_phdr_size w.elf).signExtend 64)
          ((EHDR w.elf).e_phentsize.setWidth 64).toNat (w.sourceByte .newphdr) := rfl

/-- The header comes from the edited input. -/
theorem run_header (h : Layout w N sh ph ent) (hx : x.toNat < sizeofEhdr) :
    (table_copies pa sa w).foldl (Copy.run w) start x = w.elf x := by
  have hwrap := h.no_wrap
  have hx64 : x.toNat < 64 := hx
  have hin : Within x (0 : Addr).toNat sizeofEhdr := ⟨Nat.zero_le _, by simpa using hx⟩
  rw [run_tables, overlay_apart h.end_eq h.entry (by omega) (by omega),
    overlay_apart h.phoff h.phdrs (by omega) (by omega),
    overlay_apart h.shoff h.shdrs (by omega) (by omega), overlay_within hin]
  simp [World.sourceByte]

/-- Elsewhere, outside the new segment, there is what was there before. -/
theorem run_old (h : Layout w N sh ph ent) (hx : sizeofEhdr ≤ x.toNat)
    (hout : x.toNat < N ∨ N + 1024 + sh + ph + ent ≤ x.toNat) :
    (table_copies pa sa w).foldl (Copy.run w) start x = start x := by
  have hwrap := h.no_wrap
  rw [run_tables, overlay_apart h.end_eq h.entry (by omega) (by omega),
    overlay_apart h.phoff h.phdrs (by omega) (by omega),
    overlay_apart h.shoff h.shdrs (by omega) (by omega),
    overlay_apart (show (0 : Addr).toNat = 0 from rfl) (show sizeofEhdr = 64 from rfl) (by decide)
      (.inr (by rw [Nat.zero_add]; exact hx)),
    overlay_apart h.offset h.filesz (by omega) (by omega)]

/-- The first 1024 bytes of the new segment come from its buffer, behind the header. -/
theorem run_segment (h : Layout w N sh ph ent) {k : Nat} (hk : k < 1024)
    (hx : sizeofEhdr ≤ N + k) :
    (table_copies pa sa w).foldl (Copy.run w) start (BitVec.ofNat 64 (N + k)) =
      w.newsegment (BitVec.ofNat 64 k) := by
  have hwrap := h.no_wrap
  have hplace : (BitVec.ofNat 64 (N + k)).toNat = N + k := by
    rw [BitVec.toNat_ofNat, Nat.mod_eq_of_lt (by omega)]
  have hin : Within (BitVec.ofNat 64 (N + k)) w.newphdr.p_offset.toNat
      w.newphdr.p_filesz.toNat := by
    unfold Within
    rw [hplace, h.offset, h.filesz]
    omega
  rw [run_tables, overlay_apart h.end_eq h.entry (by omega) (by omega),
    overlay_apart h.phoff h.phdrs (by omega) (by omega),
    overlay_apart h.shoff h.shdrs (by omega) (by omega),
    overlay_apart (show (0 : Addr).toNat = 0 from rfl) (show sizeofEhdr = 64 from rfl) (by decide)
      (.inr (by rw [Nat.zero_add, hplace]; exact hx)),
    overlay_within hin, hplace, h.offset, Nat.add_sub_cancel_left]
  rfl

theorem run_shdrs (h : Layout w N sh ph ent) {k : Nat} (hk : k < sh) :
    (table_copies pa sa w).foldl (Copy.run w) start ((EHDR w.elf).e_shoff + BitVec.ofNat 64 k) =
      w.sourceByte (.elf sa) k := by
  have hwrap := h.no_wrap
  have hshoff := h.shoff
  have hplace : ((EHDR w.elf).e_shoff + BitVec.ofNat 64 k).toNat = N + 1024 + k := by
    rw [toNat_add_ofNat (by omega), hshoff]
  rw [run_tables, overlay_apart h.end_eq h.entry (by omega) (by omega),
    overlay_apart h.phoff h.phdrs (by omega) (by omega),
    overlay_at (by rw [h.shdrs]; exact hk) (by rw [h.shoff, h.shdrs]; omega)]

theorem run_phdrs (h : Layout w N sh ph ent) {k : Nat} (hk : k < ph) :
    (table_copies pa sa w).foldl (Copy.run w) start ((EHDR w.elf).e_phoff + BitVec.ofNat 64 k) =
      w.sourceByte (.elf pa) k := by
  have hwrap := h.no_wrap
  have hphoff := h.phoff
  have hplace : ((EHDR w.elf).e_phoff + BitVec.ofNat 64 k).toNat = N + 1024 + sh + k := by
    rw [toNat_add_ofNat (by omega), hphoff]
  rw [run_tables, overlay_apart h.end_eq h.entry (by omega) (by omega),
    overlay_at (by rw [h.phdrs]; exact hk) (by rw [h.phoff, h.phdrs]; omega)]

theorem run_newphdr (h : Layout w N sh ph ent) {k : Nat} (hk : k < ent) :
    (table_copies pa sa w).foldl (Copy.run w) start
        ((EHDR w.elf).e_phoff + (old_phdr_size w.elf).signExtend 64 + BitVec.ofNat 64 k) =
      w.sourceByte .newphdr k := by
  have hwrap := h.no_wrap
  rw [run_tables, overlay_at (by rw [h.entry]; exact hk) (by rw [h.end_eq, h.entry]; omega)]

/-- The output has room for the copies behind the first one. -/
theorem inside (h : Layout w N sh ph ent) {length : Nat}
    (hlen : N + 1024 + sh + ph + ent ≤ length) :
    ∀ c ∈ table_copies pa sa w, c.Inside length := by
  simp only [table_copies, List.forall_mem_cons, Copy.Inside]
  refine ⟨.inr ?_, .inr ?_, .inr ?_, .inr ?_, .inr ?_, fun _ hc => absurd hc List.not_mem_nil⟩
  · rw [h.offset, h.filesz]
    omega
  · rw [show (0 : Addr).toNat = 0 from rfl, show (BitVec.ofNat 64 sizeofEhdr).toNat = 64 from rfl]
    omega
  · rw [h.shoff, h.shdrs]
    omega
  · rw [h.phoff, h.phdrs]
    omega
  · rw [h.end_eq, h.entry]
    omega

end Layout

/-! ## The memory before `create_exe` -/

/-- The memory before `create_exe`. -/
def cracked (crack_code : Nat → Byte) (w : World) : World :=
  do_crack crack_code (make_segment (newAddr w.elf) (newOffset w.elf) 1024 w)

theorem cracked_EHDR (crack_code : Nat → Byte) {w : World} : EHDR (cracked crack_code w).elf =
    { EHDR w.elf with
      e_entry := newAddr w.elf + newOffset w.elf
      e_phnum := (EHDR w.elf).e_phnum + 1 } := by
  simp only [cracked, do_crack, make_segment, EHDR_set_entry, EHDR_set_phnum]

/-- What the cracker takes of a file for granted: it has a size that a file can have, its
program headers lie behind its header and are whole ones, and the sizes of its tables are an
`int`. -/
structure ElfInput (m : Bytes) (size : Nat) : Prop where
  size : size < 2 ^ 63
  behind : (EHDR m).e_phnum ≠ 0 → sizeofEhdr ≤ (EHDR m).e_phoff.toNat
  phentsize : (EHDR m).e_phnum ≠ 0 → sizeofPhdr ≤ (EHDR m).e_phentsize.toNat
  sizes : shdrsLen m + phdrsLen m + (EHDR m).e_phentsize.toNat < 2 ^ 31

/-- What the cracker works with once `analyze` is done. -/
structure Workable (w : World) : Prop where
  size : w.size < 2 ^ 64
  behind : EntriesBehind w
  phentsize : (EHDR w.elf).e_phnum ≠ 0 → sizeofPhdr ≤ (EHDR w.elf).e_phentsize.toNat
  sizes : shdrsLen w.elf + phdrsLen w.elf + (EHDR w.elf).e_phentsize.toNat < 2 ^ 31

section

variable {w : World}

/-- The sizes of the entries are those of every 64-bit ELF file. -/
theorem ElfInput.of_entsizes {m : Bytes} {size : Nat} (hsize : size < 2 ^ 63)
    (hbehind : sizeofEhdr ≤ (EHDR m).e_phoff.toNat) (hphdr : (EHDR m).e_phentsize = 56)
    (hshdr : (EHDR m).e_shentsize = 64) : ElfInput m size where
  size := hsize
  behind := fun _ => hbehind
  phentsize := fun _ => by
    rw [hphdr]
    decide
  sizes := by
    have hphnum := (EHDR m).e_phnum.isLt
    have hshnum := (EHDR m).e_shnum.isLt
    rw [shdrsLen, phdrsLen, hphdr, hshdr, show (56 : BitVec 16).toNat = 56 from rfl,
      show (64 : BitVec 16).toNat = 64 from rfl]
    omega

theorem ElfInput.entriesBehind (h : ElfInput w.elf w.size) (hlisted : Listed w) :
    EntriesBehind w := by
  intro i hi
  have hoff := (EHDR w.elf).e_phoff.isLt
  have hent := (EHDR w.elf).e_phentsize.isLt
  have hnum := (EHDR w.elf).e_phnum.isLt
  have hbehind : 64 ≤ (EHDR w.elf).e_phoff.toNat := h.behind (phnum_ne_zero hi)
  have hfirst : w.Holds (phdrOff w.elf 0) sizeofPhdr :=
    hlisted.phdr_held 0 (List.mem_range.mpr (by omega))
  have hlt : (EHDR w.elf).e_phentsize.toNat * i < 2 ^ 16 * 2 ^ 16 :=
    Nat.mul_lt_mul'' hent (by omega)
  have hceil : ceilNat 4096 w.size < w.size + 4096 := ceilNat_lt (by decide)
  have hsize := h.size
  unfold World.Holds at hfirst
  rw [phdrOff, toNat_entryAt (by omega), Nat.mul_zero] at hfirst
  rw [phdrOff, toNat_entryAt (by omega)]
  exact ⟨show 58 ≤ _ by omega, show _ + 56 ≤ _ by omega⟩

theorem ElfInput.workable (h : ElfInput w.elf w.size) (hlisted : Listed w) : Workable w where
  size := Nat.lt_trans h.size (by decide)
  behind := h.entriesBehind hlisted
  phentsize := h.phentsize
  sizes := h.sizes

end

/-! ## A run over the small file -/

/-- Code that does nothing. -/
def nops : Nat → Byte := fun _ => 0x90

/-- `analyze` ends well, and leaves the input as it is. -/
theorem analyze_of_isOk (heap : Heap) (file : List Byte)
    (h : (analyze (startup heap file)).isOk = true) :
    ∃ w, analyze (startup heap file) = .ok w ∧ w.elf = (startup heap file).elf ∧
      w.size = file.length := by
  cases hw : analyze (startup heap file) with
  | error e =>
    rw [hw] at h
    cases h
  | ok w =>
    have hframe := (analyze.spec hw).1
    exact ⟨w, rfl, by rw [hframe], by rw [hframe]; rfl⟩

theorem smallFile_input : ElfInput (startup zeroHeap smallFile).elf smallFile.length :=
  .of_entsizes (by decide +kernel) (by decide +kernel) (by decide +kernel) (by decide +kernel)

/-- The world after `analyze`, for a file with all that the cracker takes for granted. -/
theorem analyzed_input {heap : Heap} {file : List Byte}
    (h : (analyze (startup heap file)).isOk = true)
    (hin : ElfInput (startup heap file).elf file.length) :
    ∃ w, analyze (startup heap file) = .ok w ∧ ElfInput w.elf w.size ∧
      w.elf = (startup heap file).elf ∧ w.size = file.length := by
  obtain ⟨w, hw, helf, hsize⟩ := analyze_of_isOk heap file h
  exact ⟨w, hw, by rw [helf, hsize]; exact hin, helf, hsize⟩

end elf_clack
