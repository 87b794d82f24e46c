-- The memory image of an object (`parse_phdr`, `map_object_loadcmd` and the
-- mapping block of `map_object_fd` in rtld/load.c). Each `PT_LOAD` entry
-- becomes a load command, and each command maps its file pages and zeros
-- what lies behind the file data.
import BinaryLab.LinkMap

set_option linter.style.nameCheck false

open binary_lab.runs binary_lab.words binary_lab.pages

namespace elf_loader.load

/-! ## The kernel -/

/-- An error number of the kernel. A failed call gives the negative of it. -/
abbrev Errno := { n : Nat // 1 ≤ n ∧ n ≤ 4095 }

/-- The answer to a mapping call: done, at `base` if the kernel may choose, or failed. -/
inductive Answer
  | done (base : Addr)
  | failed (errno : Errno)

/-- The answers of the kernel to the mapping calls, the first one at 0. -/
abbrev Kernel := Nat → Answer

/-- Every call is done. -/
def Kernel.Succeeds (kern : Kernel) : Prop := ∀ n, ∃ base, kern n = .done base

/-- A kernel that does every call, and has `0x1000` free. -/
def steadyKernel : Kernel := fun _ => .done 0x1000

abbrev MAP_FAILED : Addr := BitVec.allOnes 64

/-- What a mapping call that is done leaves: the file from an offset on, or zero pages. -/
def mapped (ps start : Addr) (length : BitVec 64) (prot : Prot)
    (src : Option (List Byte × BitVec 64)) (space : Space) : Space :=
  match src with
  | some (file, off) => space.mapFile ps.toNat start length.toNat prot file off.toNat
  | none => space.mapZero ps.toNat start length.toNat prot

/-- `mmap`. A `start` that is not NULL comes with `MAP_FIXED`. -/
def mmap (kern : Kernel) (ps : Addr) (start : Option Addr) (length : BitVec 64) (prot : Prot)
    (src : Option (List Byte × BitVec 64)) (s : Proc) : Addr × Proc :=
  match kern s.calls with
  | .failed errno => (-(BitVec.ofNat 64 errno.1), { s with calls := s.calls + 1 })
  | .done base =>
    let addr := start.getD base
    (addr, { space := mapped ps addr length prot src s.space, calls := s.calls + 1 })

/-- `__mprotect`. -/
def __mprotect (kern : Kernel) (ps : Addr) (addr : Addr) (len : BitVec 64) (prot : Prot)
    (s : Proc) : Int × Proc :=
  match kern s.calls with
  | .failed errno => (-(errno.1 : Int), { s with calls := s.calls + 1 })
  | .done _ =>
    (0, { space := s.space.protect ps.toNat addr len.toNat prot, calls := s.calls + 1 })

/-- `memset`. -/
def memset (a : Addr) (c : Byte) (n : Nat) (s : Proc) : Except Stop Proc :=
  match s.space.fill a n c with
  | some space => .ok { s with space }
  | none => .error (.fault .badStore)

/-! ## The program headers -/

/-- `Elf64_Ehdr`, as far as the loader reads it. -/
structure Ehdr where
  e_type : BitVec 16
  e_entry : Addr
  e_phoff : BitVec 64
  e_phnum : BitVec 16
deriving DecidableEq

/-- `Elf64_Phdr`, less `p_paddr`. -/
structure Phdr where
  p_type : BitVec 32
  p_flags : BitVec 32
  p_offset : BitVec 64
  p_vaddr : Addr
  p_filesz : BitVec 64
  p_memsz : BitVec 64
  p_align : BitVec 64
deriving DecidableEq

abbrev ET_EXEC : BitVec 16 := 2
abbrev ET_DYN : BitVec 16 := 3
abbrev PT_LOAD : BitVec 32 := 1
abbrev PT_DYNAMIC : BitVec 32 := 2
abbrev PT_PHDR : BitVec 32 := 6
abbrev PF_X : BitVec 32 := 1
abbrev PF_W : BitVec 32 := 2
abbrev PF_R : BitVec 32 := 4
abbrev PROT_NONE : Prot := ⟨false, false, false⟩
abbrev sizeofPhdr : Nat := 56
abbrev sizeofDyn : Nat := 16

/-- `struct loadcmd`. -/
structure Loadcmd where
  mapstart : Addr
  mapend : Addr
  dataend : Addr
  allocend : Addr
  mapoff : BitVec 64
  prot : Prot

/-- The protection that the flags of a segment ask for. -/
def protOf (p_flags : BitVec 32) : Prot where
  read := p_flags &&& PF_R != 0
  write := p_flags &&& PF_W != 0
  exec := p_flags &&& PF_X != 0

/-- The load command of a `PT_LOAD` entry. -/
def loadcmdOf (ps : Addr) (ph : Phdr) : Loadcmd where
  mapstart := alignDown ps ph.p_vaddr
  mapend := alignUp ps (ph.p_vaddr + ph.p_filesz)
  dataend := ph.p_vaddr + ph.p_filesz
  allocend := ph.p_vaddr + ph.p_memsz
  mapoff := alignDown ps ph.p_offset
  prot := protOf ph.p_flags

/-- The state of the loop of `parse_phdr`. -/
structure PhdrState where
  l : LinkMap
  loadcmds : List Loadcmd
  has_holes : Bool

/-- The body of the loop of `parse_phdr`. `PT_TLS` prints a line, and the
flags of `PT_GNU_STACK` go to a variable that nobody reads. -/
def parse_phdr_entry (ps : Addr) (st : PhdrState) (ph : Phdr) : Except Stop PhdrState :=
  if ph.p_type = PT_LOAD then do
    assert (ph.p_align &&& (ps - 1) == 0) "(ph->p_align & (GLRO(dl_pagesize) - 1)) == 0"
    assert ((ph.p_vaddr - ph.p_offset) &&& (ph.p_align - 1) == 0)
      "((ph->p_vaddr - ph->p_offset) & (ph->p_align - 1)) == 0"
    let c := loadcmdOf ps ph
    .ok { st with
      loadcmds := st.loadcmds ++ [c]
      has_holes := match st.loadcmds.getLast? with
        | some before => st.has_holes || before.mapend != c.mapstart
        | none => st.has_holes }
  else if ph.p_type = PT_DYNAMIC then
    .ok { st with l := { st.l with
      l_ld := ph.p_vaddr
      l_ldnum := BitVec.ofNat 16 (ph.p_memsz.toNat / sizeofDyn) } }
  else if ph.p_type = PT_PHDR then
    .ok { st with l := { st.l with l_phdr := ph.p_vaddr } }
  else .ok st

def parse_phdr_loop (ps : Addr) (st : PhdrState) : List Phdr → Except Stop PhdrState
  | [] => .ok st
  | ph :: phs => do parse_phdr_loop ps (← parse_phdr_entry ps st ph) phs

def parse_phdr (ps : Addr) (l : LinkMap) (phdr : List Phdr) : Except Stop PhdrState :=
  parse_phdr_loop ps { l, loadcmds := [], has_holes := false } phdr

/-! ## The mapping of a load command -/

/-- Zeros from `zero` up to `zeropage`, in the last page of the file data. A
page that must not be written to is made writable for the time. -/
def clear_tail (kern : Kernel) (ps : Addr) (prot : Prot) (zero zeropage : Addr) (s : Proc) :
    Except Stop Proc :=
  if prot.write then memset zero 0 (zeropage - zero).toNat s
  else
    let (r, s) := __mprotect kern ps (alignDown ps zero) ps { prot with write := true } s
    if r < 0 then .error (.exit .mprotectFailed)
    else do
      let s ← memset zero 0 (zeropage - zero).toNat s
      let (r, s) := __mprotect kern ps (alignDown ps zero) ps prot s
      if r < 0 then .error (.exit .mprotectFailed) else .ok s

def zero_tail (kern : Kernel) (ps : Addr) (prot : Prot) (zero zeropage : Addr) (s : Proc) :
    Except Stop Proc :=
  if zero < zeropage then clear_tail kern ps prot zero zeropage s else .ok s

/-- The zero pages from `zeropage` up to `zeroend`. -/
def zero_pages (kern : Kernel) (ps : Addr) (prot : Prot) (zeropage zeroend : Addr) (s : Proc) :
    Except Stop Proc :=
  if zeropage < zeroend then
    let (mapat, s) := mmap kern ps (some zeropage) (zeroend - zeropage) prot none s
    if mapat = MAP_FAILED then .error (.exit .mmapZeroFillFailed) else .ok s
  else .ok s

/-- What lies behind the file data, from `zero` up to `zeroend`. -/
def zero_fill (kern : Kernel) (ps : Addr) (prot : Prot) (zero zeroend : Addr) (s : Proc) :
    Except Stop Proc := do
  let zeropage := alignUp ps zero
  let zeropage := if zeroend < zeropage then zeroend else zeropage
  let s ← zero_tail kern ps prot zero zeropage s
  zero_pages kern ps prot zeropage zeroend s

/-- The end of the text, and the program headers if this segment holds them. -/
def note_segment (header : Ehdr) (c : Loadcmd) (l : LinkMap) : LinkMap :=
  let l := if c.prot.exec then { l with l_text_end := l.l_addr + c.mapend } else l
  let phdrEnd := header.e_phoff + BitVec.ofNat 64 (header.e_phnum.toNat * sizeofPhdr)
  if l.l_phdr = 0 ∧ c.mapoff ≤ header.e_phoff ∧ phdrEnd ≤ c.mapend - c.mapstart + c.mapoff then
    { l with l_phdr := c.mapstart + header.e_phoff - c.mapoff }
  else l

/-- The part of the loop body from the label `postmap` on. -/
def postmap_body (kern : Kernel) (ps : Addr) (header : Ehdr) (c : Loadcmd) (l : LinkMap)
    (s : Proc) : Except Stop (LinkMap × Proc) :=
  let l := note_segment header c l
  if c.dataend < c.allocend then do
    let s ← zero_fill kern ps c.prot (l.l_addr + c.dataend) (l.l_addr + c.allocend) s
    .ok (l, s)
  else .ok (l, s)

/-- The part of the loop body before the label `postmap`. -/
def map_pages (kern : Kernel) (ps : Addr) (file : List Byte) (c : Loadcmd) (l : LinkMap)
    (s : Proc) : Except Stop Proc :=
  if c.mapstart < c.mapend then
    let (r, s) := mmap kern ps (some (l.l_addr + c.mapstart)) (c.mapend - c.mapstart) c.prot
      (some (file, c.mapoff)) s
    if r = MAP_FAILED then .error (.exit .mmapFailed) else .ok s
  else .ok s

/-- The loop over the load commands. -/
def loadcmd_loop (kern : Kernel) (ps : Addr) (file : List Byte) (header : Ehdr) (l : LinkMap)
    (s : Proc) : List Loadcmd → Except Stop (LinkMap × Proc)
  | [] => .ok (l, s)
  | c :: cs => do
    let s ← map_pages kern ps file c l s
    let (l, s) ← postmap_body kern ps header c l s
    loadcmd_loop kern ps file header l s cs

/-- `map_object_loadcmd`. With `postmap` the first command starts at the label. -/
def map_object_loadcmd (kern : Kernel) (ps : Addr) (file : List Byte) (header : Ehdr)
    (loadcmds : List Loadcmd) (maplength : BitVec 64) (has_holes postmap : Bool) (l : LinkMap)
    (s : Proc) : Except Stop (LinkMap × Proc) :=
  match loadcmds with
  | [] => .error (.fault .outOfTable)
  | c :: cs =>
    if postmap then do
      let (l, s) ← postmap_body kern ps header c l s
      loadcmd_loop kern ps file header l s cs
    else
      let l_map_start := c.mapstart + l.l_addr
      let l := { l with
        l_map_start
        l_map_end := l_map_start + maplength
        l_contiguous := !has_holes }
      loadcmd_loop kern ps file header l s (c :: cs)

/-- The block of `map_object_fd` that maps the object. An `ET_DYN` object is
mapped in one piece first, wherever the kernel likes. -/
def map_segments (kern : Kernel) (ps : Addr) (file : List Byte) (header : Ehdr)
    (phdr : List Phdr) (l : LinkMap) (s : Proc) : Except Stop (LinkMap × Proc) := do
  let st ← parse_phdr ps l phdr
  match st.loadcmds.head?, st.loadcmds.getLast? with
  | some c, some last =>
    let maplength := last.allocend - c.mapstart
    if header.e_type = ET_DYN then
      let (l_map_start, s) := mmap kern ps none maplength c.prot (some (file, 0)) s
      let l := { st.l with
        l_map_start
        l_map_end := l_map_start + maplength
        l_addr := l_map_start - c.mapstart
        l_contiguous := true }
      let s := if st.has_holes then
          (__mprotect kern ps (l.l_addr + c.mapend) (last.mapstart - c.mapend) PROT_NONE s).2
        else s
      map_object_loadcmd kern ps file header st.loadcmds maplength st.has_holes true l s
    else
      map_object_loadcmd kern ps file header st.loadcmds maplength st.has_holes false st.l s
  | _, _ => .error (.fault .outOfTable)

/-! ## What the mapping of an object leaves alone -/

/-- Only the fields of `l` about its place in memory have changed. -/
def Mapped (l l' : LinkMap) : Prop :=
  l' = { l with
    l_addr := l'.l_addr
    l_ld := l'.l_ld
    l_ldnum := l'.l_ldnum
    l_phdr := l'.l_phdr
    l_map_start := l'.l_map_start
    l_map_end := l'.l_map_end
    l_text_end := l'.l_text_end
    l_contiguous := l'.l_contiguous }

theorem Mapped.trans {l l1 l2 : LinkMap} (h1 : Mapped l l1) (h2 : Mapped l1 l2) :
    Mapped l l2 := by
  unfold Mapped at *
  rw [h1] at h2
  exact h2

theorem note_segment_mapped (header : Ehdr) (c : Loadcmd) (l : LinkMap) :
    Mapped l (note_segment header c l) ∧ (note_segment header c l).l_addr = l.l_addr := by
  unfold note_segment
  by_cases hx : c.prot.exec = true
  · simp only [hx, if_true]
    split <;> exact ⟨rfl, rfl⟩
  · simp only [hx, if_false, Bool.false_eq_true]
    split <;> exact ⟨rfl, rfl⟩

theorem postmap_body_mapped {kern : Kernel} {ps : Addr} {header : Ehdr} {c : Loadcmd}
    {l l' : LinkMap} {s s' : Proc} (h : postmap_body kern ps header c l s = .ok (l', s')) :
    Mapped l l' ∧ l'.l_addr = l.l_addr := by
  have hnote := note_segment_mapped header c l
  unfold postmap_body at h
  simp only at h
  split_ifs at h
  · rw [bind_eq_ok] at h
    obtain ⟨s1, _, h⟩ := h
    cases h
    exact hnote
  · cases h
    exact hnote

theorem loadcmd_loop_mapped {kern : Kernel} {ps : Addr} {file : List Byte} {header : Ehdr}
    {cs : List Loadcmd} {l l' : LinkMap} {s s' : Proc}
    (h : loadcmd_loop kern ps file header l s cs = .ok (l', s')) :
    Mapped l l' ∧ l'.l_addr = l.l_addr := by
  induction cs generalizing l s with
  | nil =>
    cases h
    exact ⟨rfl, rfl⟩
  | cons c cs ih =>
    simp only [loadcmd_loop, bind_eq_ok] at h
    obtain ⟨s1, _, ⟨l2, s2⟩, h2, h3⟩ := h
    obtain ⟨hm2, ha2⟩ := postmap_body_mapped h2
    obtain ⟨hm3, ha3⟩ := ih h3
    exact ⟨hm2.trans hm3, ha3.trans ha2⟩

theorem map_object_loadcmd_mapped {kern : Kernel} {ps : Addr} {file : List Byte}
    {header : Ehdr} {cs : List Loadcmd} {maplength : BitVec 64} {has_holes postmap : Bool}
    {l l' : LinkMap} {s s' : Proc}
    (h : map_object_loadcmd kern ps file header cs maplength has_holes postmap l s =
      .ok (l', s')) :
    Mapped l l' ∧ l'.l_addr = l.l_addr := by
  unfold map_object_loadcmd at h
  cases cs with
  | nil => cases h
  | cons c cs =>
    simp only at h
    split_ifs at h
    · rw [bind_eq_ok] at h
      obtain ⟨⟨l1, s1⟩, h1, h2⟩ := h
      obtain ⟨hm1, ha1⟩ := postmap_body_mapped h1
      obtain ⟨hm2, ha2⟩ := loadcmd_loop_mapped h2
      exact ⟨hm1.trans hm2, ha2.trans ha1⟩
    · obtain ⟨hm, ha⟩ := loadcmd_loop_mapped h
      have hplace : Mapped l { l with
          l_map_start := c.mapstart + l.l_addr
          l_map_end := c.mapstart + l.l_addr + maplength
          l_contiguous := !has_holes } := rfl
      exact ⟨hplace.trans hm, ha⟩

theorem parse_phdr_loop_mapped {ps : Addr} {phdr : List Phdr} {st st' : PhdrState}
    (h : parse_phdr_loop ps st phdr = .ok st') :
    Mapped st.l st'.l ∧ st'.l.l_addr = st.l.l_addr := by
  induction phdr generalizing st with
  | nil =>
    cases h
    exact ⟨rfl, rfl⟩
  | cons ph phs ih =>
    rw [parse_phdr_loop, bind_eq_ok] at h
    obtain ⟨st1, h1, h2⟩ := h
    obtain ⟨hm2, ha2⟩ := ih h2
    have hstep : Mapped st.l st1.l ∧ st1.l.l_addr = st.l.l_addr := by
      unfold parse_phdr_entry at h1
      split_ifs at h1
      · simp only [bind_eq_ok] at h1
        obtain ⟨_, _, _, _, h1⟩ := h1
        cases h1
        exact ⟨rfl, rfl⟩
      all_goals
        cases h1
        exact ⟨rfl, rfl⟩
    exact ⟨hstep.1.trans hm2, ha2.trans hstep.2⟩

/-- The mapping of an object sets the fields about its place only. -/
theorem map_segments_mapped {kern : Kernel} {ps : Addr} {file : List Byte} {header : Ehdr}
    {phdr : List Phdr} {l l' : LinkMap} {s s' : Proc}
    (h : map_segments kern ps file header phdr l s = .ok (l', s')) : Mapped l l' := by
  simp only [map_segments, bind_eq_ok] at h
  obtain ⟨st, hst, h⟩ := h
  have hm := (parse_phdr_loop_mapped hst).1
  split at h
  · by_cases hdyn : header.e_type = ET_DYN
    · rw [if_pos hdyn] at h
      have hm2 := (map_object_loadcmd_mapped h).1
      refine hm.trans (Mapped.trans ?_ hm2)
      rfl
    · rw [if_neg hdyn] at h
      exact hm.trans (map_object_loadcmd_mapped h).1
  · cases h

/-! ## The specs of the kernel calls -/

section

variable {kern : Kernel} {ps : Addr}

theorem mmap_fixed (hk : kern.Succeeds) (start : Addr) (length : BitVec 64) (prot : Prot)
    (src : Option (List Byte × BitVec 64)) (s : Proc) :
    mmap kern ps (some start) length prot src s =
      (start, { space := mapped ps start length prot src s.space, calls := s.calls + 1 }) := by
  obtain ⟨base, hbase⟩ := hk s.calls
  simp [mmap, hbase]

theorem mmap_chosen {s : Proc} {base : Addr} (hbase : kern s.calls = .done base)
    (length : BitVec 64) (prot : Prot) (src : Option (List Byte × BitVec 64)) :
    mmap kern ps none length prot src s =
      (base, { space := mapped ps base length prot src s.space, calls := s.calls + 1 }) := by
  simp [mmap, hbase]

theorem mprotect_done (hk : kern.Succeeds) (addr : Addr) (len : BitVec 64) (prot : Prot)
    (s : Proc) :
    __mprotect kern ps addr len prot s =
      (0, { space := s.space.protect ps.toNat addr len.toNat prot, calls := s.calls + 1 }) := by
  obtain ⟨base, hbase⟩ := hk s.calls
  simp [__mprotect, hbase]

/-! ## Zeros behind the file data

The addresses are offsets from the page `P` that the segment starts in: `d`
is the end of the file data, and `e` the end of the segment. -/

/-- The offset `n` from `P`, which does not wrap. -/
theorem add_ofNat_lt {P : Addr} {m n : Nat} (hm : P.toNat + m < 2 ^ 64)
    (hn : P.toNat + n < 2 ^ 64) : P + BitVec.ofNat 64 m < P + BitVec.ofNat 64 n ↔ m < n := by
  rw [BitVec.lt_def, toNat_add_ofNat hm, toNat_add_ofNat hn]
  omega

theorem toNat_add_ofNat_sub {P : Addr} {m n : Nat} (hmn : m ≤ n) (hn : P.toNat + n < 2 ^ 64) :
    (P + BitVec.ofNat 64 n - (P + BitVec.ofNat 64 m)).toNat = n - m := by
  rw [BitVec.toNat_sub_of_le (by rw [BitVec.le_def, toNat_add_ofNat, toNat_add_ofNat] <;> omega),
    toNat_add_ofNat hn, toNat_add_ofNat (by omega)]
  omega

/-- The `n` bytes from the offset `m` on. -/
theorem offset_from_lt {P : Addr} {m n : Nat} (h : P.toNat + m + n < 2 ^ 64) (a : Addr) :
    (a - (P + BitVec.ofNat 64 m)).toNat < n ↔ m ≤ (a - P).toNat ∧ (a - P).toNat < m + n := by
  have hof : (BitVec.ofNat 64 m).toNat = m := by
    rw [BitVec.toNat_ofNat]
    omega
  rw [offset_lt_iff (by omega), hof]

theorem alignDown_add (hps : PageSize ps) {P : Addr} {n : Nat} (hP : P.toNat % ps.toNat = 0)
    (h : P.toNat + n < 2 ^ 64) :
    alignDown ps (P + BitVec.ofNat 64 n) = P + BitVec.ofNat 64 (floorNat ps.toNat n) := by
  have hle := floorNat_le ps.toNat n
  apply BitVec.eq_of_toNat_eq
  rw [toNat_alignDown hps, toNat_add_ofNat h, floorNat_add hP, toNat_add_ofNat (by omega)]

theorem alignUp_add (hps : PageSize ps) {P : Addr} {n : Nat} (hP : P.toNat % ps.toNat = 0)
    (h : P.toNat + ceilNat ps.toNat n < 2 ^ 64) :
    alignUp ps (P + BitVec.ofNat 64 n) = P + BitVec.ofNat 64 (ceilNat ps.toNat n) := by
  have hpos := hps.pos
  have hle := le_ceilNat (n := n) hpos
  -- The sum before the mask stays below the boundary after the next one, and
  -- that boundary is at 2^64 at most.
  have hroom : P.toNat + n + ps.toNat - 1 < 2 ^ 64 := by
    obtain ⟨k, hk, hps2⟩ := hps.toNat_eq
    have hdvd : (2 ^ 64) % ps.toNat = 0 := by
      rw [hps2]
      exact Nat.mod_eq_zero_of_dvd (Nat.pow_dvd_pow 2 (by omega))
    have hfloor : ceilNat ps.toNat (P.toNat + n) + ps.toNat ≤ 2 ^ 64 := by
      have hc : ceilNat ps.toNat (P.toNat + n) < 2 ^ 64 := by
        rw [ceilNat_add hpos hP]
        exact h
      have hnext := ceilNat_le (n := ceilNat ps.toNat (P.toNat + n) + 1) hpos hdvd (by omega)
      have hadd : ceilNat ps.toNat (ceilNat ps.toNat (P.toNat + n) + 1) =
          ceilNat ps.toNat (P.toNat + n) + ceilNat ps.toNat 1 := ceilNat_add hpos (ceilNat_mod _ _)
      have hone : ceilNat ps.toNat 1 = ps.toNat := by
        rw [ceilNat, show 1 + ps.toNat - 1 = ps.toNat by omega]
        exact floorNat_of_mod (Nat.mod_self _)
      omega
    have := le_ceilNat (n := P.toNat + n) hpos
    omega
  apply BitVec.eq_of_toNat_eq
  rw [toNat_alignUp hps _ (by rw [toNat_add_ofNat (by omega)]; exact hroom),
    toNat_add_ofNat (by omega), ceilNat_add hpos hP, toNat_add_ofNat h]

/-- The tail of the last page is zeroed, and its protection is as before. -/
theorem clear_tail.spec (hk : kern.Succeeds) (hps : PageSize ps) {P : Addr} (prot : Prot)
    {d n : Nat} (hP : P.toNat % ps.toNat = 0) (hd : d % ps.toNat ≠ 0)
    (hn : d + n ≤ ceilNat ps.toNat d) (hwrap : P.toNat + ceilNat ps.toNat d < 2 ^ 64) (s : Proc)
    (hprot : ∀ a, (a - P).toNat < ceilNat ps.toNat d → s.space.prot a = some prot)
    (hback : ∀ a, d ≤ (a - P).toNat → (a - P).toNat < d + n → s.space.backed a = true) :
    ∃ calls, clear_tail kern ps prot (P + BitVec.ofNat 64 d) (P + BitVec.ofNat 64 (d + n)) s =
      .ok { space := s.space.filled (P + BitVec.ofNat 64 d) n 0, calls } := by
  have hceil := ceilNat_eq_floorNat_add hps.pos hd
  have hfloor := floorNat_le ps.toNat d
  have hlen : (P + BitVec.ofNat 64 (d + n) - (P + BitVec.ofNat 64 d)).toNat = n := by
    rw [toNat_add_ofNat_sub (by omega) (by omega)]
    omega
  have hdown := alignDown_add hps (P := P) (n := d) hP (by omega)
  -- The page of `zero`, and the bytes to clear in it.
  have hin : ∀ a, (a - (P + BitVec.ofNat 64 (floorNat ps.toNat d))).toNat <
      ceilNat ps.toNat ps.toNat ↔
      floorNat ps.toNat d ≤ (a - P).toNat ∧ (a - P).toNat < ceilNat ps.toNat d := by
    intro a
    rw [ceilNat_of_mod hps.pos (Nat.mod_self _), offset_from_lt (by omega), hceil]
  have hclear : ∀ a, (a - (P + BitVec.ofNat 64 d)).toNat < n →
      d ≤ (a - P).toNat ∧ (a - P).toNat < d + n := by
    intro a ha
    rwa [offset_from_lt (by omega)] at ha
  unfold clear_tail
  by_cases hw : prot.write = true
  · rw [if_pos hw, hlen, memset, Space.fill_eq _ _ _ _ (by omega)]
    · exact ⟨_, rfl⟩
    · intro a ha
      obtain ⟨h1, h2⟩ := hclear a ha
      simp [Space.writable, hprot a (by omega), hback a h1 h2, hw]
  · rw [if_neg hw, mprotect_done hk, hlen, hdown]
    simp only [Int.lt_irrefl, if_false, memset]
    rw [Space.fill_eq _ _ _ _ (by omega)]
    · simp only [bind, Except.bind, mprotect_done hk, Int.lt_irrefl, if_false]
      refine ⟨s.calls + 1 + 1, congrArg Except.ok ?_⟩
      congr 1
      simp only [Space.filled, Space.protect, Space.mk.injEq, true_and, and_true]
      funext a
      by_cases ha : floorNat ps.toNat d ≤ (a - P).toNat ∧ (a - P).toNat < ceilNat ps.toNat d
      · rw [if_pos ((hin a).mpr ha), hprot a ha.2, if_pos ((hin a).mpr ha)]
        rfl
      · rw [if_neg (mt (hin a).mp ha), if_neg (mt (hin a).mp ha)]
    · intro a ha
      obtain ⟨h1, h2⟩ := hclear a ha
      have hpage := (hin a).mpr ⟨by omega, by omega⟩
      simp only [Space.writable, Space.protect, if_pos hpage, hprot a (by omega), hback a h1 h2]
      rfl

/-- The bytes from the end of the file data up to `z`, in the same page, are
zeroed, and nothing else has changed. -/
theorem zero_tail.spec (hk : kern.Succeeds) (hps : PageSize ps) {P : Addr} {prot : Prot}
    {d z : Nat} (hP : P.toNat % ps.toNat = 0) (hdz : d ≤ z) (hz : z ≤ ceilNat ps.toNat d)
    (hwrap : P.toNat + ceilNat ps.toNat d < 2 ^ 64) (s : Proc)
    (hprot : ∀ a, (a - P).toNat < ceilNat ps.toNat d → s.space.prot a = some prot)
    (hback : ∀ a, d ≤ (a - P).toNat → (a - P).toNat < z → s.space.backed a = true) :
    ∃ s', zero_tail kern ps prot (P + BitVec.ofNat 64 d) (P + BitVec.ofNat 64 z) s = .ok s' ∧
      (∀ a, s'.space.byte a =
        if d ≤ (a - P).toNat ∧ (a - P).toNat < z then 0 else s.space.byte a) ∧
      s'.space.prot = s.space.prot ∧ s'.space.backed = s.space.backed := by
  unfold zero_tail
  by_cases hlt : d < z
  · have hd : d % ps.toNat ≠ 0 := by
      intro h0
      rw [ceilNat_of_mod hps.pos h0] at hz
      omega
    have hsum : d + (z - d) = z := by omega
    obtain ⟨calls, htail⟩ := clear_tail.spec (n := z - d) hk hps prot hP hd (by omega) hwrap s
      hprot fun a h1 h2 => hback a h1 (by omega)
    rw [hsum] at htail
    rw [if_pos ((add_ofNat_lt (by omega) (by omega)).mpr hlt), htail]
    refine ⟨_, rfl, ?_, rfl, rfl⟩
    intro a
    simp only [Space.filled, offset_from_lt (P := P) (m := d) (n := z - d) (by omega) a, hsum]
  · have heq : z = d := by omega
    rw [heq, if_neg (BitVec.lt_irrefl _)]
    refine ⟨s, rfl, ?_, rfl, rfl⟩
    intro a
    rw [if_neg (by omega)]

/-- Zero pages from the page boundary `z` up to the end of the segment, and
nothing else has changed. -/
theorem zero_pages.spec (hk : kern.Succeeds) (hps : PageSize ps) {P : Addr} (prot : Prot)
    {z e : Nat} (hz : z % ps.toNat = 0) (hze : z < e)
    (hwrap : P.toNat + ceilNat ps.toNat e < 2 ^ 64) (s : Proc) :
    ∃ s', zero_pages kern ps prot (P + BitVec.ofNat 64 z) (P + BitVec.ofNat 64 e) s = .ok s' ∧
      ∀ a, (z ≤ (a - P).toNat ∧ (a - P).toNat < ceilNat ps.toNat e →
          s'.space.byte a = 0 ∧ s'.space.prot a = some prot ∧ s'.space.backed a = true) ∧
        (¬ (z ≤ (a - P).toNat ∧ (a - P).toNat < ceilNat ps.toNat e) →
          s'.space.byte a = s.space.byte a ∧ s'.space.prot a = s.space.prot a ∧
            s'.space.backed a = s.space.backed a) := by
  have hec := le_ceilNat (n := e) hps.pos
  have hne : P + BitVec.ofNat 64 z ≠ MAP_FAILED := by
    intro h
    have := congrArg BitVec.toNat h
    rw [toNat_add_ofNat (by omega), BitVec.toNat_allOnes] at this
    omega
  have hpages : z + ceilNat ps.toNat (e - z) = ceilNat ps.toNat e := by
    rw [← ceilNat_add hps.pos hz, show z + (e - z) = e by omega]
  have hin : ∀ a, (a - (P + BitVec.ofNat 64 z)).toNat < ceilNat ps.toNat (e - z) ↔
      z ≤ (a - P).toNat ∧ (a - P).toNat < ceilNat ps.toNat e := by
    intro a
    rw [offset_from_lt (by omega), hpages]
  unfold zero_pages
  rw [if_pos ((add_ofNat_lt (by omega) (by omega)).mpr hze), mmap_fixed hk]
  simp only [if_neg hne]
  refine ⟨_, rfl, ?_⟩
  intro a
  simp only [mapped, Space.mapZero, toNat_add_ofNat_sub (P := P) (Nat.le_of_lt hze) (by omega),
    hin a]
  constructor
  · intro h
    rw [if_pos h, if_pos h, if_pos h]
    exact ⟨rfl, rfl, rfl⟩
  · intro h
    rw [if_neg h, if_neg h, if_neg h]
    exact ⟨rfl, rfl, rfl⟩

/-- The pages up to the end of the segment have its protection, the bytes
behind the file data are zero, and nothing else has changed. -/
theorem zero_fill.spec (hk : kern.Succeeds) (hps : PageSize ps) {P : Addr} {prot : Prot}
    {d e : Nat} (hP : P.toNat % ps.toNat = 0) (hde : d < e)
    (hwrap : P.toNat + ceilNat ps.toNat e < 2 ^ 64) (s : Proc)
    (hprot : ∀ a, (a - P).toNat < ceilNat ps.toNat d → s.space.prot a = some prot)
    (hback : ∀ a, d ≤ (a - P).toNat → (a - P).toNat < ceilNat ps.toNat d → (a - P).toNat < e →
      s.space.backed a = true) :
    ∃ s', zero_fill kern ps prot (P + BitVec.ofNat 64 d) (P + BitVec.ofNat 64 e) s = .ok s' ∧
      ∀ a, ((a - P).toNat < ceilNat ps.toNat e → s'.space.prot a = some prot) ∧
        (ceilNat ps.toNat e ≤ (a - P).toNat → s'.space.byte a = s.space.byte a ∧
          s'.space.prot a = s.space.prot a ∧ s'.space.backed a = s.space.backed a) ∧
        ((a - P).toNat < d → s'.space.byte a = s.space.byte a ∧
          s'.space.backed a = s.space.backed a) ∧
        (d ≤ (a - P).toNat → (a - P).toNat < e → s'.space.byte a = 0 ∧
          s'.space.backed a = true) := by
  have hpos := hps.pos
  have hdc := le_ceilNat (n := d) hpos
  have hec := le_ceilNat (n := e) hpos
  have hmono : ceilNat ps.toNat d ≤ ceilNat ps.toNat e := ceilNat_mono hpos (by omega)
  obtain ⟨z, hz⟩ : ∃ z, z = min e (ceilNat ps.toNat d) := ⟨_, rfl⟩
  have hzeropage : (if P + BitVec.ofNat 64 e < P + BitVec.ofNat 64 (ceilNat ps.toNat d) then
      P + BitVec.ofNat 64 e else P + BitVec.ofNat 64 (ceilNat ps.toNat d)) =
      P + BitVec.ofNat 64 z := by
    simp only [add_ofNat_lt (P := P) (m := e) (n := ceilNat ps.toNat d) (by omega) (by omega)]
    split_ifs with h
    · rw [hz, Nat.min_eq_left (by omega)]
    · rw [hz, Nat.min_eq_right (by omega)]
  obtain ⟨s1, htail, hbyte1, hprot1, hback1⟩ :=
    zero_tail.spec hk hps hP (by omega) (by omega : z ≤ _) (by omega) s hprot
      fun a h1 h2 => hback a h1 (by omega) (by omega)
  unfold zero_fill
  rw [alignUp_add hps hP (by omega)]
  simp only [hzeropage, htail, bind, Except.bind]
  by_cases hmore : z < e
  · have hzc : z = ceilNat ps.toNat d := by omega
    obtain ⟨s2, hpages, hspec⟩ := zero_pages.spec hk hps prot (hzc ▸ ceilNat_mod _ _) hmore hwrap s1
    refine ⟨s2, hpages, ?_⟩
    intro a
    obtain ⟨hin, hout⟩ := hspec a
    rw [hbyte1, hprot1, hback1] at hout
    refine ⟨fun h => ?_, fun h => ?_, fun h => ?_, fun h1 h2 => ?_⟩
    · by_cases hc : z ≤ (a - P).toNat
      · exact (hin ⟨hc, h⟩).2.1
      · rw [(hout (by omega)).2.1]
        exact hprot a (by omega)
    · rw [if_neg (by omega)] at hout
      exact hout (by omega)
    · obtain ⟨hb, _, hk⟩ := hout (by omega)
      exact ⟨by rw [hb, if_neg (by omega)], hk⟩
    · by_cases hc : z ≤ (a - P).toNat
      · obtain ⟨hb, _, hk⟩ := hin ⟨hc, by omega⟩
        exact ⟨hb, hk⟩
      · obtain ⟨hb, _, hk⟩ := hout (by omega)
        exact ⟨by rw [hb, if_pos (by omega)], by rw [hk, hback a h1 (by omega) h2]⟩
  · have hend : ceilNat ps.toNat e = ceilNat ps.toNat d :=
      Nat.le_antisymm (ceilNat_le hpos (ceilNat_mod _ _) (by omega)) hmono
    have hze : z = e := by omega
    rw [zero_pages, hze, if_neg (BitVec.lt_irrefl _)]
    refine ⟨s1, rfl, ?_⟩
    intro a
    rw [hbyte1, hprot1, hback1]
    refine ⟨fun h => hprot a (by omega), fun h => ⟨?_, rfl, rfl⟩, fun h => ⟨?_, rfl⟩,
      fun h1 h2 => ⟨?_, hback a h1 (by omega) h2⟩⟩
    · rw [if_neg (by omega)]
    · rw [if_neg (by omega)]
    · rw [if_pos (by omega)]

/-! ## Zeros that were stored -/

theorem memset_backed {a : Addr} {v : Byte} {n : Nat} {s s' : Proc} (hn : n ≤ 2 ^ 64)
    (h : memset a v n s = .ok s') (x : Addr) (hx : (x - a).toNat < n) :
    s.space.backed x = true := by
  unfold memset at h
  split at h
  · rename_i space hfill
    exact Space.fill_backed hn hfill x hx
  · cases h

/-- The bytes that were cleared have something behind them. -/
theorem clear_tail_backed (hk : kern.Succeeds) {prot : Prot} {zero zeropage : Addr} {s s' : Proc}
    (h : clear_tail kern ps prot zero zeropage s = .ok s') (x : Addr)
    (hx : (x - zero).toNat < (zeropage - zero).toNat) : s.space.backed x = true := by
  have hlen : (zeropage - zero).toNat ≤ 2 ^ 64 := Nat.le_of_lt (BitVec.isLt _)
  unfold clear_tail at h
  split_ifs at h with hw
  · exact memset_backed hlen h x hx
  · rw [mprotect_done hk] at h
    simp only [Int.lt_irrefl, if_false, bind_eq_ok] at h
    obtain ⟨s1, hset, _⟩ := h
    exact memset_backed hlen hset x hx

theorem zero_tail_backed (hk : kern.Succeeds) {P : Addr} {prot : Prot} {d z : Nat}
    (hz : P.toNat + z < 2 ^ 64) {s s' : Proc}
    (h : zero_tail kern ps prot (P + BitVec.ofNat 64 d) (P + BitVec.ofNat 64 z) s = .ok s')
    (x : Addr) (h1 : d ≤ (x - P).toNat) (h2 : (x - P).toNat < z) : s.space.backed x = true := by
  have hlt : P + BitVec.ofNat 64 d < P + BitVec.ofNat 64 z :=
    (add_ofNat_lt (by omega) hz).mpr (by omega)
  rw [zero_tail, if_pos hlt] at h
  refine clear_tail_backed hk h x ?_
  rw [toNat_add_ofNat_sub (by omega) hz, offset_from_lt (by omega)]
  omega

theorem zero_fill_backed (hk : kern.Succeeds) (hps : PageSize ps) {P : Addr} {prot : Prot}
    {d e : Nat} (hP : P.toNat % ps.toNat = 0) (hwrap : P.toNat + ceilNat ps.toNat e < 2 ^ 64)
    (hde : d < e) {s s' : Proc}
    (h : zero_fill kern ps prot (P + BitVec.ofNat 64 d) (P + BitVec.ofNat 64 e) s = .ok s')
    (x : Addr) (h1 : d ≤ (x - P).toNat) (h2 : (x - P).toNat < ceilNat ps.toNat d)
    (h3 : (x - P).toNat < e) : s.space.backed x = true := by
  have hdc : ceilNat ps.toNat d ≤ ceilNat ps.toNat e := ceilNat_mono hps.pos (by omega)
  have hec := le_ceilNat (n := e) hps.pos
  unfold zero_fill at h
  rw [alignUp_add hps hP (by omega)] at h
  simp only [bind_eq_ok] at h
  obtain ⟨s1, htail, _⟩ := h
  split_ifs at htail
  · exact zero_tail_backed hk (by omega) htail x h1 h3
  · exact zero_tail_backed hk (by omega) htail x h1 h2

/-! ## One segment -/

/-- The two assertions of `parse_phdr` on a `PT_LOAD` entry. -/
def PassesAsserts (ps : Addr) (ph : Phdr) : Prop :=
  ph.p_align &&& (ps - 1) = 0 ∧ (ph.p_vaddr - ph.p_offset) &&& (ph.p_align - 1) = 0

instance (ps : Addr) (ph : Phdr) : Decidable (PassesAsserts ps ph) :=
  inferInstanceAs (Decidable (_ ∧ _))

/-- The first page of a segment, as a link-time address. -/
def segStart (ps : Addr) (ph : Phdr) : Nat := floorNat ps.toNat ph.p_vaddr.toNat

/-- The end of the last page of a segment, file data and zeros included. -/
def segEnd (ps : Addr) (ph : Phdr) : Nat :=
  ceilNat ps.toNat (ph.p_vaddr.toNat + max ph.p_filesz.toNat ph.p_memsz.toNat)

/-- The segment passes the assertions, and its pages do not wrap. -/
structure SegmentFits (ps : Addr) (ph : Phdr) : Prop where
  asserts : PassesAsserts ps ph
  no_wrap : segEnd ps ph < 2 ^ 64

/-- The file has the page that is mapped for a segment without data that starts
inside a page. -/
def TailInFile (ps : Addr) (file : List Byte) (ph : Phdr) : Prop :=
  ph.p_filesz = 0 → ph.p_memsz ≠ 0 → ph.p_vaddr.toNat % ps.toNat ≠ 0 →
    floorNat ps.toNat ph.p_offset.toNat < file.length

/-- The file has the data of the segment, and the page of its zeros. -/
structure InFile (ps : Addr) (file : List Byte) (ph : Phdr) : Prop where
  data : ∀ k < ph.p_filesz.toNat, ph.p_offset.toNat + k < file.length
  tail : TailInFile ps file ph

/-- An alignment that is a multiple of the page size has ones below it in
every bit of a page offset, power of two or not. So the address and the file
offset of a segment lie at the same place of their pages. -/
theorem same_page_offset (hps : PageSize ps) {ph : Phdr} (h : PassesAsserts ps ph) :
    ph.p_vaddr.toNat % ps.toNat = ph.p_offset.toNat % ps.toNat := by
  obtain ⟨k, hk, hps2⟩ := hps.toNat_eq
  have hdvd : 2 ^ k ∣ 2 ^ 64 := Nat.pow_dvd_pow 2 (by omega)
  have hpos := Nat.two_pow_pos k
  have halign : ph.p_align.toNat % 2 ^ k = 0 := by
    rw [← hps2, ← toNat_and_mask hps, h.1]
    rfl
  have hones : (ph.p_align - 1).toNat % 2 ^ k = 2 ^ k - 1 := by
    have hsub : (ph.p_align - 1).toNat = (ph.p_align.toNat + (2 ^ 64 - 1)) % 2 ^ 64 := by
      simp only [BitVec.toNat_sub, BitVec.ofNat_eq_ofNat, BitVec.toNat_ofNat]
      omega
    obtain ⟨q, hq⟩ := hdvd
    have hq0 : 0 < q := by
      rcases Nat.eq_zero_or_pos q with h0 | h0
      · rw [h0] at hq
        simp at hq
      · exact h0
    have hsplit : 2 ^ 64 - 1 = 2 ^ k * (q - 1) + (2 ^ k - 1) := by
      have : 2 ^ k * q = 2 ^ k * (q - 1) + 2 ^ k := by
        rw [← Nat.mul_succ, Nat.succ_eq_add_one, Nat.sub_add_cancel hq0]
      omega
    rw [hsub, Nat.mod_mod_of_dvd _ (Nat.pow_dvd_pow 2 (by omega)), hsplit, Nat.add_mod, halign,
      Nat.zero_add, Nat.mod_mod, Nat.mul_add_mod, Nat.mod_eq_of_lt (by omega)]
  have hdiff : (ph.p_vaddr - ph.p_offset).toNat % 2 ^ k = 0 := by
    have hand := congrArg (fun x : BitVec 64 => x.toNat % 2 ^ k) h.2
    simp only [BitVec.toNat_and] at hand
    rw [Nat.and_mod_two_pow, hones, Nat.and_two_pow_sub_one_eq_mod, Nat.mod_mod] at hand
    exact hand
  have hback : ph.p_vaddr.toNat =
      (ph.p_offset.toNat + (ph.p_vaddr - ph.p_offset).toNat) % 2 ^ 64 := by
    rw [← BitVec.toNat_add]
    congr 1
    bv_omega
  rw [hps2, hback, Nat.mod_mod_of_dvd _ hdvd, Nat.add_mod, hdiff, Nat.add_zero, Nat.mod_mod]

/-- The part behind the label `postmap`, in offsets from the first page `P`:
the protection reaches to the end of the segment, the file data stays, and
what is behind it is zero. -/
theorem postmap_body.spec (hk : kern.Succeeds) (hps : PageSize ps) (header : Ehdr) {P : Addr}
    {d e : Nat} (c : Loadcmd) (l : LinkMap) (s : Proc) (hP : P.toNat % ps.toNat = 0)
    (hwrap : P.toNat + ceilNat ps.toNat (max d e) < 2 ^ 64)
    (hdata : l.l_addr + c.dataend = P + BitVec.ofNat 64 d)
    (halloc : l.l_addr + c.allocend = P + BitVec.ofNat 64 e)
    (hcmp : c.dataend < c.allocend ↔ d < e)
    (hprot : ∀ a, (a - P).toNat < ceilNat ps.toNat d → s.space.prot a = some c.prot)
    (hback : ∀ a, d ≤ (a - P).toNat → (a - P).toNat < ceilNat ps.toNat d → (a - P).toNat < e →
      s.space.backed a = true) :
    ∃ l' s', postmap_body kern ps header c l s = .ok (l', s') ∧
      l'.l_addr = l.l_addr ∧
      ∀ a, ((a - P).toNat < ceilNat ps.toNat (max d e) → s'.space.prot a = some c.prot) ∧
        (ceilNat ps.toNat (max d e) ≤ (a - P).toNat → s'.space.byte a = s.space.byte a ∧
          s'.space.prot a = s.space.prot a ∧ s'.space.backed a = s.space.backed a) ∧
        ((a - P).toNat < d → s'.space.byte a = s.space.byte a ∧
          s'.space.backed a = s.space.backed a) ∧
        (d ≤ (a - P).toNat → (a - P).toNat < e → s'.space.byte a = 0 ∧
          s'.space.backed a = true) := by
  have haddr := (note_segment_mapped header c l).2
  unfold postmap_body
  generalize note_segment header c l = l2 at haddr
  by_cases hde : d < e
  · simp only [if_pos (hcmp.mpr hde), haddr, hdata, halloc]
    rw [Nat.max_eq_right (by omega)] at hwrap
    obtain ⟨s', hs', hspec⟩ := zero_fill.spec hk hps hP hde hwrap s hprot hback
    rw [hs', Nat.max_eq_right (by omega)]
    exact ⟨l2, s', rfl, haddr, hspec⟩
  · simp only [if_neg (mt hcmp.mp hde)]
    rw [Nat.max_eq_left (by omega)]
    refine ⟨l2, s, rfl, haddr, ?_⟩
    intro a
    exact ⟨hprot a, fun _ => ⟨rfl, rfl, rfl⟩, fun _ => ⟨rfl, rfl⟩,
      fun h1 h2 => absurd h2 (by omega)⟩

end

end elf_loader.load
