-- The main function of the loader (rtld/rtld.c). The map of the object that
-- the kernel has started is made from its program headers. If that object is
-- the loader itself, it maps the program that it finds in its arguments. Then
-- the dependencies are loaded, everything is relocated, and the address to
-- jump to is computed.
import BinaryLab.DepsClosure
import BinaryLab.MemoryImage
import BinaryLab.RelocRun

set_option linter.style.nameCheck false

open binary_lab.runs binary_lab.words binary_lab.pages

namespace elf_loader.rtld

open load reloc

/-! ## The program -/

/-- `struct program_info`, as far as `loader_main` reads it. `image` are the
tables of the object with these program headers. -/
structure ProgramInfo where
  /-- `argv[1]`, or NULL. -/
  argv1 : Option CString
  entry : Addr
  phdr : Addr
  phnum : BitVec 16
  image : Image

/-- The addresses of symbols of the loader itself. -/
structure Symbols where
  _start : Addr
  _begin : Addr
  runtime_resolve : Addr

abbrev PT_TLS : BitVec 32 := 7
abbrev PT_GNU_STACK : BitVec 32 := 0x6474e551
abbrev PT_GNU_RELRO : BitVec 32 := 0x6474e552

/-- The name `name` as `%s` prints it. -/
def printed (name : Option CString) : CString := name.getD (CString.lit "(NULL)".toList)

/-! ## The program headers -/

/-- The state of the loop over the program headers. -/
structure Scan where
  l : LinkMap
  _dl_stack_flags : BitVec 32

/-- A `PT_LOAD` entry: the place of the program in memory. -/
def scan_load (ps : Addr) (l : LinkMap) (ph : Phdr) : LinkMap :=
  let mapstart := l.l_addr + alignDown ps ph.p_vaddr
  let l := if l.l_map_start > mapstart then { l with l_map_start := mapstart } else l
  let allocend := l.l_addr + ph.p_vaddr + ph.p_memsz
  let l := if l.l_map_end < allocend then { l with l_map_end := allocend } else l
  if ph.p_flags &&& PF_X ≠ 0 ∧ allocend > l.l_text_end then { l with l_text_end := allocend }
  else l

/-- The body of the loop, for the entry `ph` at the address `addr`. -/
def scan_entry (ps : Addr) (st : Scan) (addr : Addr) (ph : Phdr) : Except Stop Scan :=
  if ph.p_type = PT_PHDR then .ok { st with l := { st.l with l_addr := addr - ph.p_vaddr } }
  else if ph.p_type = PT_DYNAMIC then
    .ok { st with l := { st.l with l_ld := st.l.l_addr + ph.p_vaddr } }
  else if ph.p_type = PT_LOAD then .ok { st with l := scan_load ps st.l ph }
  else if ph.p_type = PT_TLS then .error (.exit .tlsNotImplemented)
  else if ph.p_type = PT_GNU_STACK then .ok { st with _dl_stack_flags := ph.p_flags }
  else if ph.p_type = PT_GNU_RELRO then
    .ok { st with l := { st.l with l_relro_addr := ph.p_vaddr, l_relro_size := ph.p_memsz } }
  else .ok st

/-- The loop over the program headers, from the address `addr` on. -/
def scan_loop (ps : Addr) (st : Scan) (addr : Addr) : List Phdr → Except Stop Scan
  | [] => .ok st
  | ph :: phs => do
    let st ← scan_entry ps st addr ph
    scan_loop ps st (addr + BitVec.ofNat 64 sizeofPhdr) phs

/-! ## `loader_main` -/

/-- `rtld_map`, from `create_link_map` to the loop over the program headers. -/
def rtld_map (host : Host) (sym : Symbols) (pi : ProgramInfo) (w : Rtld) : LinkMap :=
  let l := init_link_map (host.heap w.maps.length) pi.image
  let l := if pi.entry = sym._start then { l with l_addr := sym._begin } else l
  { l with l_phdr := pi.phdr, l_phnum := pi.phnum, l_entry := pi.entry }

/-- `loader_main` up to `GL(namespace) = rtld_map`. -/
def scan_program (host : Host) (sym : Symbols) (pi : ProgramInfo) (w : Rtld) :
    Except Stop (Ptr × Rtld) := do
  let scan ← scan_loop w._dl_pagesize
    { l := rtld_map host sym pi w, _dl_stack_flags := w._dl_stack_flags } pi.phdr
    (phdrsAt w.mem pi.phdr pi.phnum.toNat)
  .ok (w.maps.length, { w with
    _dl_stack_flags := scan._dl_stack_flags
    _namespace := some w.maps.length
    maps := w.maps ++ [scan.l] })

/-- The loader is run directly: it maps the program. -/
def map_main (host : Host) (pi : ProgramInfo) (rtld : Ptr) (w : Rtld) :
    Except Stop (Ptr × Rtld) := do
  let l ← w.deref rtld
  let w := w.put rtld { l with l_name := some (CString.lit "RTLD".toList) }
  let (main, w) ← map_object host (printed pi.argv1) w
  let l ← w.deref rtld
  let w := w.put rtld { l with l_next := some main }
  let m ← w.deref main
  let w := w.put main { m with l_prev := some rtld }
  let w ← parse_map host w main
  .ok (main, w)

/-- The kernel has started the program. -/
def name_main (rtld : Ptr) (w : Rtld) : Except Stop (Ptr × Rtld) := do
  let l ← w.deref rtld
  .ok (rtld, w.put rtld { l with l_name := some (CString.lit "main-program".toList) })

/-- The object that the rest of the run is about, `main_map` or `rtld_map`. -/
def choose_root (host : Host) (sym : Symbols) (pi : ProgramInfo) (rtld : Ptr) (w : Rtld) :
    Except Stop (Ptr × Rtld) :=
  if pi.entry = sym._start then map_main host pi rtld w else name_main rtld w

/-- `loader_main`: the address to jump to. -/
def loader_main (host : Host) (sym : Symbols) (fuel : Nat) (pi : ProgramInfo) (w : Rtld) :
    Except Stop (Addr × Rtld) := do
  let (rtld, w) ← scan_program host sym pi w
  let (root, w) ← choose_root host sym pi rtld w
  let w ← parse_map host w rtld
  let w ← map_object_deps host fuel w root
  let w ← reloc_all sym.runtime_resolve w
  let l ← w.deref root
  .ok (l.l_addr + l.l_entry, w)

/-! ## What the scan leaves alone -/

/-- Only the fields of `l` about its place in memory have changed. -/
def Scanned (l l' : LinkMap) : Prop :=
  l' = { l with
    l_addr := l'.l_addr
    l_ld := l'.l_ld
    l_map_start := l'.l_map_start
    l_map_end := l'.l_map_end
    l_text_end := l'.l_text_end
    l_relro_addr := l'.l_relro_addr
    l_relro_size := l'.l_relro_size }

theorem Scanned.trans {l l1 l2 : LinkMap} (h1 : Scanned l l1) (h2 : Scanned l1 l2) :
    Scanned l l2 := by
  unfold Scanned at *
  rw [h1] at h2
  exact h2

theorem scan_load_scanned (ps : Addr) (l : LinkMap) (ph : Phdr) :
    Scanned l (scan_load ps l ph) ∧ (scan_load ps l ph).l_addr = l.l_addr := by
  unfold scan_load
  simp only
  split_ifs
  all_goals exact ⟨rfl, rfl⟩

/-- Only `PT_PHDR` sets the load address. -/
theorem scan_entry_scanned {ps addr : Addr} {ph : Phdr} {st st' : Scan}
    (h : scan_entry ps st addr ph = .ok st') :
    Scanned st.l st'.l ∧
      st'.l.l_addr = if ph.p_type = PT_PHDR then addr - ph.p_vaddr else st.l.l_addr := by
  unfold scan_entry at h
  by_cases hphdr : ph.p_type = PT_PHDR
  · rw [if_pos hphdr] at h ⊢
    cases h
    exact ⟨rfl, rfl⟩
  · rw [if_neg hphdr] at h ⊢
    split_ifs at h
    · cases h
      exact ⟨rfl, rfl⟩
    · cases h
      exact scan_load_scanned ps st.l ph
    all_goals
      cases h
      exact ⟨rfl, rfl⟩

theorem scan_loop_scanned {ps addr : Addr} {phs : List Phdr} {st st' : Scan}
    (h : scan_loop ps st addr phs = .ok st') :
    Scanned st.l st'.l ∧ ((∀ ph ∈ phs, ph.p_type ≠ PT_PHDR) → st'.l.l_addr = st.l.l_addr) := by
  induction phs generalizing st addr with
  | nil =>
    cases h
    exact ⟨rfl, fun _ => rfl⟩
  | cons ph phs ih =>
    rw [scan_loop, bind_eq_ok] at h
    obtain ⟨st1, h1, h2⟩ := h
    obtain ⟨hs1, ha1⟩ := scan_entry_scanned h1
    obtain ⟨hs2, ha2⟩ := ih h2
    refine ⟨hs1.trans hs2, ?_⟩
    intro hno
    rw [ha2 fun q hq => hno q (List.mem_cons_of_mem _ hq), ha1,
      if_neg (hno ph List.mem_cons_self)]

/-! ## What the rest of the run leaves alone -/

/-- Every object is still there, with its load address and its entry point. -/
def SamePlace (w w' : Rtld) : Prop :=
  ∀ (p : Ptr) (l : LinkMap), w.maps[p]? = some l →
    ∃ l', w'.maps[p]? = some l' ∧ l'.l_addr = l.l_addr ∧ l'.l_entry = l.l_entry

theorem SamePlace.trans {w w1 w2 : Rtld} (h1 : SamePlace w w1) (h2 : SamePlace w1 w2) :
    SamePlace w w2 := by
  intro p l hl
  obtain ⟨l1, hl1, haddr1, hentry1⟩ := h1 p l hl
  obtain ⟨l2, hl2, haddr2, hentry2⟩ := h2 p l1 hl1
  exact ⟨l2, hl2, haddr2.trans haddr1, hentry2.trans hentry1⟩

theorem samePlace_put {w : Rtld} {p : Ptr} {l : LinkMap} (l' : LinkMap)
    (hl : w.maps[p]? = some l) (haddr : l'.l_addr = l.l_addr) (hentry : l'.l_entry = l.l_entry) :
    SamePlace w (w.put p l') := by
  intro q m hm
  rw [get_put hl]
  by_cases hq : q = p
  · subst hq
    rw [hl] at hm
    cases hm
    exact ⟨l', if_pos rfl, haddr, hentry⟩
  · exact ⟨m, by rw [if_neg hq, hm], rfl, rfl⟩

theorem samePlace_of_keeps {w w' : Rtld} (h : Keeps w w') : SamePlace w w' := by
  intro p l hl
  obtain ⟨l', hl', _⟩ := h p l hl
  exact ⟨l', hl', h.field hl hl' LinkMap.l_addr fun _ => rfl,
    h.field hl hl' LinkMap.l_entry fun _ => rfl⟩

theorem samePlace_of_sameObjects {w w' : Rtld} (h : SameObjects w w') : SamePlace w w' := by
  intro p l hl
  obtain ⟨l', hl', he⟩ := h.get hl
  exact ⟨l', hl', unmarked_field he LinkMap.l_addr fun _ => rfl,
    unmarked_field he LinkMap.l_entry fun _ => rfl⟩

theorem parse_map_samePlace {host : Host} {w w' : Rtld} {p : Ptr}
    (h : parse_map host w p = .ok w') : SamePlace w w' := by
  simp only [parse_map, bind_eq_ok, Rtld.deref_eq_ok] at h
  obtain ⟨l, hl, ⟨l', rpath⟩, hparse, h⟩ := h
  cases h
  have hframe := (parse_dynamic.spec hparse).frame
  exact samePlace_put l' hl (by rw [hframe]) (by rw [hframe])

theorem map_object_deps_samePlace {host : Host} {fuel : Nat} {w w' : Rtld} {root : Ptr}
    (h : map_object_deps host fuel w root = .ok w') : SamePlace w w' := by
  simp only [map_object_deps, bind_eq_ok] at h
  obtain ⟨w1, hparse, ⟨runlist, st⟩, hloop, w2, hset, ⟨⟩, _, h⟩ := h
  cases h
  have hkeeps := (deps_loop_keeps hloop).trans (set_searchlist_keeps hset)
  exact (parse_map_samePlace hparse).trans (samePlace_of_keeps hkeeps)

theorem reloc_back_same {runtime_resolve : Addr} {fuel : Nat} {o : Option Ptr} {w w' : Rtld}
    (h : reloc_back runtime_resolve fuel o w = .ok w') : SameObjects w w' := by
  induction fuel generalizing o w with
  | zero =>
    cases o with
    | none =>
      cases h
      exact .refl _
    | some p => cases h
  | succ fuel ih =>
    cases o with
    | none =>
      cases h
      exact .refl _
    | some p =>
      simp only [reloc_back, bind_eq_ok] at h
      obtain ⟨w1, h1, l, _, h2⟩ := h
      exact (relocate_object_same h1).trans (ih h2)

theorem reloc_all_samePlace {runtime_resolve : Addr} {w w' : Rtld}
    (h : reloc_all runtime_resolve w = .ok w') : SamePlace w w' := by
  unfold reloc_all at h
  split at h
  · cases h
  · rw [bind_eq_ok] at h
    obtain ⟨last, _, h⟩ := h
    exact samePlace_of_sameObjects (reloc_back_same h)

/-! ## The load address of a file -/

/-- The header of a file. -/
def fileHeader (file : File) : Ehdr := ehdrOf (filled file.bytes fun _ => 0)

/-- The buffer has the header of every file that goes up to `e_phnum`. -/
theorem ehdrOf_filled {bytes : List Byte} (before : Bytes) (hlen : 58 ≤ bytes.length) :
    ehdrOf (filled (bytes.take FILEBUF_SIZE) before) = ehdrOf (filled bytes fun _ => 0) := by
  have hsame : ∀ (a : Addr) (n : Nat), a.toNat + n ≤ 58 →
      (List.range n).map (fun i => filled (bytes.take 832) before (a + BitVec.ofNat 64 i)) =
        (List.range n).map (fun i => filled bytes (fun _ => 0) (a + BitVec.ofNat 64 i)) := by
    intro a n ha
    apply List.map_congr_left
    intro i hi
    have hi := List.mem_range.mp hi
    have hlt : (a + BitVec.ofNat 64 i).toNat < 58 := by
      rw [BitVec.toNat_add, BitVec.toNat_ofNat]
      omega
    simp only [filled]
    rw [List.getD_eq_getElem?_getD, List.getD_eq_getElem?_getD, List.getElem?_take_of_lt (by omega),
      List.getElem?_eq_getElem (by omega)]
    rfl
  simp only [ehdrOf, read16, read64]
  rw [hsame 16 2 (by decide), hsame 24 8 (by decide), hsame 32 8 (by decide),
    hsame 56 2 (by decide)]

/-- The bias `b` of an object: 0 if it has to be where its headers say, else
the kernel chooses the place of its first page. -/
def BiasOf (kern : Kernel) (ps : Addr) (header : Ehdr) (phdr : List Phdr) (calls : Nat)
    (b : Addr) : Prop :=
  if header.e_type = ET_DYN then
    ∃ ph, (loadSegments phdr).head? = some ph ∧ kern calls = .done (b + alignDown ps ph.p_vaddr)
  else b = 0

theorem map_segments_addr {kern : Kernel} {ps : Addr} {file : List Byte} {header : Ehdr}
    {phdr : List Phdr} {l l' : LinkMap} {s s' : Proc} {b : Addr}
    (h : map_segments kern ps file header phdr l s = .ok (l', s')) (hl : l.l_addr = 0)
    (hb : BiasOf kern ps header phdr s.calls b) : l'.l_addr = b := by
  simp only [map_segments, bind_eq_ok] at h
  obtain ⟨st, hst, h⟩ := h
  have haddr := (parse_phdr_loop_mapped hst).2
  have hcmds := parse_phdr_loop_loadcmds hst
  unfold BiasOf at hb
  split at h
  · rename_i c last hhead hlast
    by_cases hdyn : header.e_type = ET_DYN
    · rw [if_pos hdyn] at h hb
      obtain ⟨ph, hph, hkern⟩ := hb
      have hc : c = loadcmdOf ps ph := by
        rw [hcmds, List.nil_append, List.head?_map, hph, Option.map_some, Option.some.injEq]
          at hhead
        exact hhead.symm
      rw [mmap_chosen hkern] at h
      rw [(map_object_loadcmd_mapped h).2, hc]
      exact BitVec.add_sub_cancel _ _
    · rw [if_neg hdyn] at h hb
      rw [(map_object_loadcmd_mapped h).2, haddr, hb]
      exact hl
  · cases h

/-! ## The two ways to start -/

/-- The kernel has loaded the program, with the entry point `e` in its file,
at bias `b`, and has started the loader for it. The auxiliary vector has the
addresses in memory of the entry point and of the program headers. The first
of them, and no other one, is `PT_PHDR`. -/
structure StartedByKernel (sym : Symbols) (pi : ProgramInfo) (w : Rtld) (b e : Addr) : Prop where
  not_loader : pi.entry ≠ sym._start
  at_entry : pi.entry = b + e
  at_phdr : ∃ ph phs, phdrsAt w.mem pi.phdr pi.phnum.toNat = ph :: phs ∧
    ph.p_type = PT_PHDR ∧ pi.phdr = b + ph.p_vaddr ∧ ∀ q ∈ phs, q.p_type ≠ PT_PHDR

/-- The loader is run directly, and the program in its arguments, with the
entry point `e` in its file, goes to bias `b`. -/
structure RunDirectly (host : Host) (sym : Symbols) (pi : ProgramInfo) (w : Rtld) (b e : Addr) :
    Prop where
  loader : pi.entry = sym._start
  /-- The search paths at the start are the loader's own strings, and no copies. -/
  constant : ∀ w' : Rtld, w'._rpath = w._rpath → host.rpaths w' = w._rpath
  program : ∃ path file phdr,
    open_path host.fs (printed pi.argv1) w._rpath = some (path, file) ∧
    64 ≤ file.bytes.length ∧ (fileHeader file).e_entry = e ∧
    fetch_phdr (host.alloca (w.maps.length + 1)) file
      (filled (file.bytes.take FILEBUF_SIZE) (host.stack (w.maps.length + 1)))
      (file.bytes.take FILEBUF_SIZE).length (fileHeader file) = .ok phdr ∧
    BiasOf host.kern w._dl_pagesize (fileHeader file) phdr w.proc.calls b

section

variable {host : Host} {sym : Symbols} {pi : ProgramInfo} {w w' : Rtld}

theorem scan_program_ok {p : Ptr} (h : scan_program host sym pi w = .ok (p, w')) :
    p = w.maps.length ∧ ∃ scan, Scanned (rtld_map host sym pi w) scan.l ∧
      scan_loop w._dl_pagesize
        { l := rtld_map host sym pi w, _dl_stack_flags := w._dl_stack_flags } pi.phdr
        (phdrsAt w.mem pi.phdr pi.phnum.toNat) = .ok scan ∧
      w' = { w with
        _dl_stack_flags := scan._dl_stack_flags
        _namespace := some w.maps.length
        maps := w.maps ++ [scan.l] } := by
  simp only [scan_program, bind_eq_ok] at h
  obtain ⟨scan, hscan, h⟩ := h
  cases h
  exact ⟨rfl, scan, (scan_loop_scanned hscan).1, hscan, rfl⟩

/-- The first map is in no list yet. -/
theorem Scanned.unlinked {l : LinkMap} (h : Scanned (rtld_map host sym pi w) l) :
    l.l_next = none ∧ l.l_prev = none ∧ l.l_reserved = 0 := by
  rw [h, rtld_map]
  split <;> exact ⟨rfl, rfl, rfl⟩

/-- What is returned is the place of the root after it is mapped. -/
theorem loader_main_ok {fuel : Nat} {entry : Addr}
    (h : loader_main host sym fuel pi w = .ok (entry, w')) :
    ∃ rtld root w1 w2, scan_program host sym pi w = .ok (rtld, w1) ∧
      choose_root host sym pi rtld w1 = .ok (root, w2) ∧
      ∀ l, w2.maps[root]? = some l → entry = l.l_addr + l.l_entry := by
  simp only [loader_main, bind_eq_ok, Rtld.deref_eq_ok] at h
  obtain ⟨⟨rtld, w1⟩, hscan, ⟨root, w2⟩, hroot, w3, hparse, w4, hdeps, w5, hreloc, l', hl', h⟩ := h
  cases h
  refine ⟨rtld, root, w1, w2, hscan, hroot, ?_⟩
  intro l hl
  have hsame := ((parse_map_samePlace hparse).trans (map_object_deps_samePlace hdeps)).trans
    (reloc_all_samePlace hreloc)
  obtain ⟨l1, hl1, haddr, hentry⟩ := hsame root l hl
  rw [hl'] at hl1
  cases hl1
  rw [haddr, hentry]

/-- The map of a program that the kernel has started has the bias in its
load address, and once more in its entry point. -/
theorem StartedByKernel.place {b e : Addr} {rtld root : Ptr} {w1 w2 : Rtld}
    (h : StartedByKernel sym pi w b e) (hscan : scan_program host sym pi w = .ok (rtld, w1))
    (hroot : choose_root host sym pi rtld w1 = .ok (root, w2)) :
    ∃ l, w2.maps[root]? = some l ∧ l.l_addr = b ∧ l.l_entry = b + e := by
  obtain ⟨ph, phs, htable, htype, hphdr, honly⟩ := h.at_phdr
  obtain ⟨rfl, scan, hscanned, hloop, rfl⟩ := scan_program_ok hscan
  rw [htable, scan_loop, bind_eq_ok] at hloop
  obtain ⟨st, hentry, hloop⟩ := hloop
  have haddr : scan.l.l_addr = b := by
    rw [(scan_loop_scanned hloop).2 honly, (scan_entry_scanned hentry).2, if_pos htype, hphdr]
    exact BitVec.add_sub_cancel _ _
  have hl_entry : scan.l.l_entry = b + e := by
    rw [hscanned, ← h.at_entry, rtld_map]
  rw [choose_root, if_neg h.not_loader] at hroot
  simp only [name_main, bind_eq_ok, Rtld.deref_eq_ok] at hroot
  obtain ⟨l, hl, hroot⟩ := hroot
  cases hroot
  rw [List.getElem?_concat_length] at hl
  cases hl
  refine ⟨{ scan.l with l_name := some (CString.lit "main-program".toList) }, ?_, haddr, hl_entry⟩
  rw [get_put (List.getElem?_concat_length), if_pos rfl]

/-- A loaded file keeps its entry point as it is, and has its bias as load address. -/
theorem map_object_fd_place {file : File} {realname : CString} {p : Ptr} {phdr : List Phdr}
    {b : Addr} (h : map_object_fd host file realname w = .ok (p, w'))
    (hlen : 64 ≤ file.bytes.length)
    (hfetch : fetch_phdr (host.alloca w.maps.length) file
      (filled (file.bytes.take FILEBUF_SIZE) (host.stack w.maps.length))
      (file.bytes.take FILEBUF_SIZE).length (fileHeader file) = .ok phdr)
    (hb : BiasOf host.kern w._dl_pagesize (fileHeader file) phdr w.proc.calls b) :
    ∃ l, w'.maps[p]? = some l ∧ l.l_addr = b ∧ l.l_entry = (fileHeader file).e_entry := by
  have hheader := ehdrOf_filled (host.stack w.maps.length) (Nat.le_trans (by decide) hlen)
  rw [← fileHeader] at hheader
  unfold map_object_fd __read at h
  cases hread : file.readable with
  | false =>
    rw [hread] at h
    cases h
  | true =>
    simp only [hread, if_true, List.drop_zero, hheader] at h
    split_ifs at h
    simp only [bind_eq_ok] at h
    obtain ⟨phdr', hphdr, ⟨l, rpath, proc⟩, hload, hok⟩ := h
    rw [hfetch] at hphdr
    cases hphdr
    cases hok
    obtain ⟨_, _, _, _, _, _, hentry, _⟩ := load_object_ok hload
    refine ⟨l, List.getElem?_concat_length, ?_, hentry⟩
    simp only [load_object, bind_eq_ok] at hload
    obtain ⟨⟨l1, proc1⟩, hmap, ⟨l2, rpath2⟩, hparse, hok⟩ := hload
    cases hok
    have hframe := (parse_dynamic.spec hparse).frame
    rw [hframe]
    have haddr := map_segments_addr hmap rfl hb
    exact haddr

/-- The loader has a name that no search gives, so the program is mapped. -/
theorem map_object_alone {rtld : Ptr} {l : LinkMap} {soname path : CString} {file : File}
    (hns : w._namespace = some rtld) (hl : w.maps[rtld]? = some l)
    (hname : l.l_name = some (CString.lit "RTLD".toList)) (hnext : l.l_next = none)
    (hopen : open_path host.fs soname (host.rpaths w) = some (path, file)) :
    map_object host soname w = map_object_fd host file path w := by
  have hlinked : Linked w.maps w._namespace [rtld] := ⟨hns, l, hl, hnext⟩
  have hrtld : nameOf w rtld = some (CString.lit "RTLD".toList) :=
    nameOf_eq_some.mpr ⟨l, hl, hname⟩
  have hne : CString.lit "RTLD".toList ≠ path := by
    obtain ⟨_, dir, _, rfl⟩ := open_path_ok hopen
    exact (namebuf_ne (by decide) (by decide) dir soname).symm
  have hread : readName host w rtld = some (CString.lit "RTLD".toList) := by
    rw [readName, hrtld, Option.map_some, host.keeps w _ _ (by decide)]
  have hfind := find_loaded.spec host path hlinked (by simp [hrtld]) hlinked.length_le
  have hnone : [rtld].find? (fun p => readName host w p = some path) = none := by
    simpa [hread] using hne
  simp only [map_object, hopen, hfind, hnone, bind, Except.bind]

/-- A run of `map_main`, where the loader is alone in the namespace. -/
theorem map_main_ok {rtld main : Ptr} {l : LinkMap} (hns : w._namespace = some rtld)
    (hl : w.maps[rtld]? = some l) (hnext : l.l_next = none)
    (h : map_main host pi rtld w = .ok (main, w')) :
    ∃ path file w1 l1 m,
      open_path host.fs (printed pi.argv1) (host.rpaths (w.put rtld { l with
        l_name := some (CString.lit "RTLD".toList) })) = some (path, file) ∧
      map_object_fd host file path
        (w.put rtld { l with l_name := some (CString.lit "RTLD".toList) }) = .ok (main, w1) ∧
      w1.maps[rtld]? = some l1 ∧
      (w1.put rtld { l1 with l_next := some main }).maps[main]? = some m ∧
      parse_map host ((w1.put rtld { l1 with l_next := some main }).put main
        { m with l_prev := some rtld }) main = .ok w' := by
  simp only [map_main, bind_eq_ok, Rtld.deref_eq_ok] at h
  obtain ⟨l0, hl0, ⟨main, w1⟩, hmap, l1, hl1, m, hm, w2, hparse, h⟩ := h
  cases h
  rw [hl] at hl0
  cases hl0
  have hnamed : (w.put rtld { l with
      l_name := some (CString.lit "RTLD".toList) }).maps[rtld]? = _ := get_put hl
  rw [if_pos rfl] at hnamed
  obtain ⟨path, file, hopen⟩ := map_object_found hmap
  rw [map_object_alone (w := w.put rtld _) hns hnamed rfl hnext hopen] at hmap
  exact ⟨path, file, w1, l1, m, hopen, hmap, hl1, hm, hparse⟩

theorem RunDirectly.place {b e : Addr} {rtld root : Ptr} {w1 w2 : Rtld}
    (h : RunDirectly host sym pi w b e) (hscan : scan_program host sym pi w = .ok (rtld, w1))
    (hroot : choose_root host sym pi rtld w1 = .ok (root, w2)) :
    ∃ l, w2.maps[root]? = some l ∧ l.l_addr = b ∧ l.l_entry = e := by
  obtain ⟨path, file, phdr, hopen, hlen, hentry, hfetch, hbias⟩ := h.program
  obtain ⟨rfl, scan, hscanned, _, rfl⟩ := scan_program_ok hscan
  rw [choose_root, if_pos h.loader] at hroot
  obtain ⟨path', file', w3, l3, m, hopen', hmap, hl3, hm, hparse⟩ :=
    map_main_ok rfl List.getElem?_concat_length hscanned.unlinked.1 hroot
  rw [h.constant _ (by rfl), hopen] at hopen'
  cases hopen'
  obtain ⟨l4, hl4, haddr, hl_entry⟩ := map_object_fd_place hmap hlen
    (by simpa [Rtld.put] using hfetch) hbias
  have hnext := samePlace_put { l3 with l_next := some root } hl3 rfl rfl
  have hprev := samePlace_put { m with l_prev := some w.maps.length } hm rfl rfl
  obtain ⟨l5, hl5, haddr5, hentry5⟩ :=
    ((hnext.trans hprev).trans (parse_map_samePlace hparse)) root l4 hl4
  exact ⟨l5, hl5, haddr5.trans haddr, hentry5.trans (hl_entry.trans hentry)⟩

/-! ## The namespace that the dependencies start from -/

theorem parse_map_startsAt {start : Start} {p : Ptr} (h : parse_map host w p = .ok w')
    (hs : StartsAt w start) : StartsAt w' start := by
  simp only [parse_map, bind_eq_ok, Rtld.deref_eq_ok] at h
  obtain ⟨l, hl, ⟨l', rpath⟩, hparse, h⟩ := h
  cases h
  have hframe := (parse_dynamic.spec hparse).frame
  obtain ⟨m, hm, hname, himage, hres⟩ := hs.root
  refine ⟨hs.pagesize, ?_, ?_, ?_⟩
  · exact dLinked_put l' hs.linked hl (by rw [hframe]) (by rw [hframe])
  · simp only [get_put hl]
    by_cases hp : start.root = p
    · rw [← hp, hm] at hl
      cases hl
      refine ⟨l', if_pos hp, ?_, ?_, ?_⟩
      all_goals
        rw [hframe]
        assumption
    · exact ⟨m, by rw [if_neg hp, hm], hname, himage, hres⟩
  · rcases hs.kind with hkind | ⟨rtld, hns, hrtld, hpath⟩
    · exact Or.inl hkind
    · exact Or.inr ⟨rtld, hns, by rw [nameOf_parsed hl hparse, hrtld], hpath⟩

/-- A program that the kernel has started is alone in the namespace. -/
theorem name_main_startsAt {rtld root : Ptr} {l : LinkMap} (hns : w._namespace = some rtld)
    (hl : w.maps[rtld]? = some l) (hnext : l.l_next = none) (hprev : l.l_prev = none)
    (hres : l.l_reserved = 0) (h : name_main rtld w = .ok (root, w')) :
    ∃ start, start.root = root ∧ StartsAt w' start := by
  simp only [name_main, bind_eq_ok, Rtld.deref_eq_ok] at h
  obtain ⟨l0, hl0, h⟩ := h
  cases h
  rw [hl] at hl0
  cases hl0
  have hget : (w.put rtld { l with
      l_name := some (CString.lit "main-program".toList) }).maps[rtld]? = _ := get_put hl
  rw [if_pos rfl] at hget
  refine ⟨{
    root := rtld
    name := CString.lit "main-program".toList
    image := l.image
    ns := [rtld]
    pagesize := w._dl_pagesize }, rfl, rfl, ?_, ?_, Or.inl ⟨rfl, rfl⟩⟩
  · exact ⟨hns, _, hget, hprev, hnext⟩
  · exact ⟨_, hget, rfl, rfl, hres⟩

/-- A program that the loader has mapped comes right after the loader. -/
theorem map_main_startsAt {rtld root : Ptr} {l : LinkMap} (hns : w._namespace = some rtld)
    (hl : w.maps[rtld]? = some l) (hnext : l.l_next = none) (hprev : l.l_prev = none)
    (h : map_main host pi rtld w = .ok (root, w')) :
    ∃ start, start.root = root ∧ StartsAt w' start := by
  obtain ⟨path, file, w1, l1, m, hopen, hmap, hl1, hm, hparse⟩ := map_main_ok hns hl hnext h
  obtain ⟨hroot, m1, hfresh, hw1, _⟩ := map_object_fd_ok hmap
  have hlt := (List.getElem?_eq_some_iff.mp hl).1
  have hlen : root = w.maps.length := by simpa [Rtld.put] using hroot
  have hne : rtld ≠ root := by
    rw [hlen]
    exact Nat.ne_of_lt hlt
  have hmaps : w1.maps = (w.put rtld { l with
      l_name := some (CString.lit "RTLD".toList) }).maps ++ [m1] := by rw [hw1]
  have hl1' : l1.l_name = some (CString.lit "RTLD".toList) ∧ l1.l_prev = none := by
    rw [hmaps, List.getElem?_append_left (by simpa [Rtld.put] using hlt), get_put hl, if_pos rfl]
      at hl1
    cases hl1
    exact ⟨rfl, hprev⟩
  have hm' : m = m1 := by
    rw [get_put hl1, if_neg hne.symm, hmaps, hroot, List.getElem?_concat_length] at hm
    exact (Option.some.inj hm).symm
  subst hm'
  have hget : ∀ q, ((w1.put rtld { l1 with l_next := some root }).put root
      { m with l_prev := some rtld }).maps[q]? = _ := fun q => get_put hm
  have hget_root := (hget root).trans (if_pos rfl)
  have hget_rtld := hget rtld
  rw [if_neg hne, get_put hl1, if_pos rfl] at hget_rtld
  have hpagesize : w1._dl_pagesize = w._dl_pagesize := by
    rw [hw1]
    rfl
  have hnamespace : w1._namespace = some rtld := by
    rw [hw1]
    exact hns
  obtain ⟨_, dir, _, hdir⟩ := open_path_ok hopen
  refine ⟨{
    root := root
    name := path
    image := file.image
    ns := [rtld, root]
    pagesize := w._dl_pagesize }, rfl, parse_map_startsAt hparse ⟨hpagesize, ?_, ?_, ?_⟩⟩
  · exact ⟨hnamespace, _, hget_rtld, hl1'.2, rfl, _, hget_root, rfl, hfresh.next⟩
  · exact ⟨_, hget_root, hfresh.name, hfresh.image, hfresh.reserved⟩
  · exact Or.inr ⟨rtld, rfl, nameOf_eq_some.mpr ⟨_, hget_rtld, hl1'.1⟩, dir, _, hdir⟩

/-- Both ways lead to a namespace from which `map_object_deps` can start. -/
theorem choose_root_starts {rtld root : Ptr} {w1 w2 : Rtld}
    (hscan : scan_program host sym pi w = .ok (rtld, w1))
    (hroot : choose_root host sym pi rtld w1 = .ok (root, w2)) :
    ∃ start, start.root = root ∧ StartsAt w2 start := by
  obtain ⟨rfl, scan, hscanned, _, rfl⟩ := scan_program_ok hscan
  obtain ⟨hnext, hprev, hres⟩ := hscanned.unlinked
  unfold choose_root at hroot
  split_ifs at hroot
  · exact map_main_startsAt rfl List.getElem?_concat_length hnext hprev hroot
  · exact name_main_startsAt rfl List.getElem?_concat_length hnext hprev hres hroot

/-- So does `parse_dynamic` on the first object. -/
theorem choose_root_startsAt {rtld root : Ptr} {w1 w2 w3 : Rtld}
    (hscan : scan_program host sym pi w = .ok (rtld, w1))
    (hroot : choose_root host sym pi rtld w1 = .ok (root, w2))
    (hparse : parse_map host w2 rtld = .ok w3) :
    ∃ start, start.root = root ∧ StartsAt w3 start := by
  obtain ⟨start, rfl, hstart⟩ := choose_root_starts hscan hroot
  exact ⟨start, rfl, parse_map_startsAt hparse hstart⟩

end

/-- `loader_main` returns the entry point of a program that it has mapped
itself. For a program that the kernel has started it adds the bias to the
entry point in memory, so that the address is right at bias 0 only. -/
theorem the_entry_point_is_right_iff_run_directly_or_unbiased (host : Host) (sym : Symbols)
    (fuel : Nat) (pi : ProgramInfo) (w w' : Rtld) (b e entry : Addr)
    (hstart : StartedByKernel sym pi w b e ∨ RunDirectly host sym pi w b e)
    (hmain : loader_main host sym fuel pi w = .ok (entry, w')) :
    entry = b + e ↔ pi.entry = sym._start ∨ b = 0 := by
  obtain ⟨rtld, root, w1, w2, hscan, hroot, hentry⟩ := loader_main_ok hmain
  rcases hstart with h | h
  · obtain ⟨l, hl, haddr, hl_entry⟩ := h.place hscan hroot
    rw [hentry l hl, haddr, hl_entry]
    have htwice : b + (b + e) = b + e ↔ b = 0 := BitVec.add_left_eq_self
    rw [htwice]
    constructor
    · exact Or.inr
    · intro hor
      exact hor.resolve_left h.not_loader
  · obtain ⟨l, hl, haddr, hl_entry⟩ := h.place hscan hroot
    rw [hentry l hl, haddr, hl_entry]
    exact ⟨fun _ => Or.inl h.loader, fun _ => rfl⟩

/-- The tables of an object that needs nothing and has nothing to relocate. -/
def plainImage : Image :=
  { emptyImage with
    dynamic := [⟨DT_STRTAB, 0x90⟩, ⟨DT_SYMTAB, 0xa0⟩]
    strtab := [0] }

def loaderSymbols : Symbols where
  _start := 0x7000
  _begin := 0x6000
  runtime_resolve := 0x7100

def programPhdr : Phdr where
  p_type := PT_PHDR
  p_flags := PF_R
  p_offset := 64
  p_vaddr := 64
  p_filesz := 112
  p_memsz := 112
  p_align := 8

/-- A program at the address 0x5000, with its program headers in memory. -/
def programWorld : Rtld where
  _dl_pagesize := 0x1000
  _dl_stack_flags := 0
  _namespace := none
  _rpath := [libDir]
  maps := []
  proc :=
    { space :=
      { byte := fun a => (phdrBytes programPhdr ++ phdrBytes libraryDynamic).getD
          (a - 0x5040).toNat 0
        prot := fun _ => none
        backed := fun _ => false }
      calls := 0 }

/-- What the kernel tells of it. -/
def programInfo : ProgramInfo where
  argv1 := none
  entry := 0x50b0
  phdr := 0x5040
  phnum := 2
  image := plainImage

/-- A file `a`, and a kernel that puts it at 0x1000. -/
def programHost : Host :=
  { abHost with fs := [(namebuf libDir (CString.lit ['a']), libraryFile plainImage)] }

/-- The loader is run with `a` as its argument. -/
def directInfo : ProgramInfo :=
  { programInfo with
    argv1 := some (CString.lit ['a'])
    entry := 0x7000 }

theorem program_started_by_kernel :
    StartedByKernel loaderSymbols programInfo programWorld 0x5000 0xb0 where
  not_loader := by decide
  at_entry := by decide
  at_phdr := by
    refine ⟨programPhdr, [libraryDynamic], ?_, rfl, rfl, by decide⟩
    decide +kernel

theorem program_run_directly :
    RunDirectly programHost loaderSymbols directInfo programWorld 0x1000 0xb0 where
  loader := rfl
  constant := by
    intro w' hw'
    rw [Host.Exact.rpaths (fun _ _ _ => rfl), hw']
  program := by
    have hheader : fileHeader (libraryFile plainImage) = libraryHeader := libraryBytes_header
    refine ⟨namebuf libDir (CString.lit ['a']), libraryFile plainImage,
      [libraryText, libraryDynamic], rfl, ?_, ?_, ?_, ?_⟩
    · exact libraryBytes_length ▸ (by decide)
    · rw [hheader]
      rfl
    · rw [hheader, show (libraryFile plainImage).bytes.take FILEBUF_SIZE = libraryBytes from
        libraryBytes_take]
      exact libraryFile_fetch _ plainImage
    · rw [hheader, BiasOf, if_pos (by decide)]
      exact ⟨libraryText, rfl, rfl⟩

/-- The address that a run returns. -/
theorem exists_ok_of_toOption {α β : Type} {x : Except Stop (α × β)} {a : α}
    (h : x.toOption.map Prod.fst = some a) : ∃ b, x = .ok (a, b) := by
  cases x with
  | error e => cases h
  | ok r =>
    cases h
    exact ⟨r.2, rfl⟩

theorem the_entry_points_of_a_program_in_both_modes :
    (∃ entry w',
      loader_main programHost loaderSymbols 1 programInfo programWorld = .ok (entry, w') ∧
      (entry = 0x5000 + 0xb0 ↔ programInfo.entry = loaderSymbols._start ∨ (0x5000 : Addr) = 0)) ∧
    ∃ entry w',
      loader_main programHost loaderSymbols 1 directInfo programWorld = .ok (entry, w') ∧
      (entry = 0x1000 + 0xb0 ↔ directInfo.entry = loaderSymbols._start ∨ (0x1000 : Addr) = 0) := by
  have hkernel : (loader_main programHost loaderSymbols 1 programInfo programWorld).toOption.map
    Prod.fst = some 0xa0b0 := by decide +kernel
  have hdirect : (loader_main programHost loaderSymbols 1 directInfo programWorld).toOption.map
    Prod.fst = some 0x10b0 := by decide +kernel
  obtain ⟨w1, h1⟩ := exists_ok_of_toOption hkernel
  obtain ⟨w2, h2⟩ := exists_ok_of_toOption hdirect
  exact ⟨⟨_, w1, h1, the_entry_point_is_right_iff_run_directly_or_unbiased _ _ _ _ _ _ _ _ _
      (.inl program_started_by_kernel) h1⟩,
    _, w2, h2, the_entry_point_is_right_iff_run_directly_or_unbiased _ _ _ _ _ _ _ _ _
      (.inr program_run_directly) h2⟩

/-- The entry point 0xb0 of a program at 0x5000 is at 0x50b0, and the loader
jumps to 0xa0b0. -/
theorem a_biased_program_is_entered_at_twice_the_bias :
    ∃ w', StartedByKernel loaderSymbols programInfo programWorld 0x5000 0xb0 ∧
      loader_main programHost loaderSymbols 1 programInfo programWorld = .ok (0xa0b0, w') ∧
      (0xa0b0 : Addr) ≠ 0x5000 + 0xb0 := by
  obtain ⟨w', h⟩ := exists_ok_of_toOption
    (x := loader_main programHost loaderSymbols 1 programInfo programWorld) (a := 0xa0b0)
    (by decide +kernel)
  exact ⟨w', program_started_by_kernel, h, by decide⟩

end elf_loader.rtld
