-- The loading of dependencies (rtld/load.c from `open_path` to
-- `map_object_deps`). A name is looked for along the search paths, a file
-- that is loaded already is taken as it is, and any other one is mapped. The
-- run list grows at its end while the loop goes over it.
import BinaryLab.Dynamic
import BinaryLab.Segments

set_option linter.style.nameCheck false

open binary_lab.runs binary_lab.words

namespace elf_loader.load

/-! ## The files -/

/-- A file that can be opened. A read of it fails if it is a directory. The
tables are those that its dynamic section points at once it is mapped. -/
structure File where
  readable : Bool
  bytes : List Byte
  image : Image

/-- The paths that can be opened. -/
abbrev FileSystem := List (CString × File)

/-- A string that the loader has copied with `__strdup`: the name of a map, or
the search path in a slot. -/
inductive Copy
  | l_name (p : Ptr)
  | rpath (i : Nat)

/-- What the loader finds outside of itself, and the copies that it has made. -/
structure Host where
  kern : Kernel
  fs : FileSystem
  /-- Where `emalloc` puts the map `p`. -/
  heap : Ptr → Addr
  /-- The bytes of the stack from `fb.buf` on, when the map `p` is filled in. -/
  stack : Ptr → Bytes
  /-- The bytes that `ealloca` finds in the room for the program headers. -/
  alloca : Ptr → Bytes
  /-- What a copy of a string reads as in the state. A copy may have lost its
  NUL to a later block. -/
  reads : Rtld → Copy → CString → CString
  /-- A copy with its NUL in its block is kept. -/
  keeps : ∀ w copy s, Held s → reads w copy s = s

/-- The search paths with the table `rpath` in the state `w`, slot by slot. -/
def Host.slots (host : Host) (w : Rtld) : Reads :=
  fun rpath i s => host.reads { w with _rpath := rpath } (.rpath i) s

/-- The search paths as they are read. -/
def Host.rpaths (host : Host) (w : Rtld) : List CString := read_rpath (host.slots w) w._rpath

/-- `namebuf` after `dsnprintf(namebuf, sizeof(namebuf), "%s/%s", rpath, soname)`.
What does not fit is dropped. -/
def namebuf (rpath soname : CString) : CString where
  bytes := (rpath.bytes ++ 0x2f :: soname.bytes).take 1023
  no_nul := by
    intro h
    have h := List.mem_of_mem_take h
    rw [List.mem_append, List.mem_cons] at h
    rcases h with h | h | h
    · exact rpath.no_nul h
    · exact absurd h (by decide)
    · exact soname.no_nul h

/-- `open_path`: the real name and the file behind the descriptor. -/
def open_path (fs : FileSystem) (soname : CString) : List CString → Option (CString × File)
  | [] => none
  | rpath :: rpaths =>
    match fs.lookup (namebuf rpath soname) with
    | some file => some (namebuf rpath soname, file)
    | none => open_path fs soname rpaths

/-- `__read` at a position of the file. -/
def __read (file : File) (pos count : Nat) : Option (List Byte) :=
  if file.readable then some ((file.bytes.drop pos).take count) else none

/-- `__lseek(fd, offset, SEEK_SET)`: the new position. The kernel refuses a
negative one, and the loader does not look at that. -/
def __lseek (pos : Nat) (offset : BitVec 64) : Nat :=
  if offset.toNat < 2 ^ 63 then offset.toNat else pos

/-- The bytes from the start of a buffer on after a read into it. -/
def filled (got : List Byte) (before : Bytes) : Bytes := fun a => got.getD a.toNat (before a)

/-! ## One object -/

abbrev FILEBUF_SIZE : Nat := 832

def ehdrOf (buf : Bytes) : Ehdr where
  e_type := read16 buf 16
  e_entry := read64 buf 24
  e_phoff := read64 buf 32
  e_phnum := read16 buf 56

def phdrAt (buf : Bytes) (a : Addr) : Phdr where
  p_type := read32 buf a
  p_flags := read32 buf (a + 4)
  p_offset := read64 buf (a + 8)
  p_vaddr := read64 buf (a + 16)
  p_filesz := read64 buf (a + 32)
  p_memsz := read64 buf (a + 40)
  p_align := read64 buf (a + 48)

/-- The table of `n` entries at `a`. -/
def phdrsAt (buf : Bytes) (a : Addr) (n : Nat) : List Phdr :=
  (List.range n).map fun i => phdrAt buf (a + BitVec.ofNat 64 (i * sizeofPhdr))

/-- The program headers: from the buffer if they end in what was read, else
with a read of their own. -/
def fetch_phdr (alloca : Bytes) (file : File) (fb : Bytes) (len : Nat) (header : Ehdr) :
    Except Stop (List Phdr) :=
  let maplength := header.e_phnum.toNat * sizeofPhdr
  if header.e_phoff + BitVec.ofNat 64 maplength ≤ BitVec.ofNat 64 len then
    .ok (phdrsAt fb header.e_phoff header.e_phnum.toNat)
  else
    match __read file (__lseek len header.e_phoff) maplength with
    | none => .error (.exit .readFailed)
    | some got => .ok (phdrsAt (filled got alloca) 0 header.e_phnum.toNat)

/-- A pointer into the object, moved by the load address unless it is NULL. -/
def moved (l_addr ptr : Addr) : Addr := if ptr = 0 then 0 else ptr + l_addr

/-- The object from its header on, with the map that `create_link_map` gave. -/
def load_object (host : Host) (file : File) (realname : CString) (header : Ehdr)
    (phdr : List Phdr) (l : LinkMap) (w : Rtld) : Except Stop (LinkMap × List CString × Proc) := do
  let l := { l with l_entry := header.e_entry, l_phnum := header.e_phnum }
  let (l, proc) ← map_segments host.kern w._dl_pagesize file.bytes header phdr l w.proc
  let l := { l with
    l_name := some realname
    l_ld := moved l.l_addr l.l_ld
    l_phdr := moved l.l_addr l.l_phdr }
  let (l, rpath) ← parse_dynamic (host.slots w) w._rpath l
  .ok (l, rpath, proc)

def map_object_fd (host : Host) (file : File) (realname : CString) (w : Rtld) :
    Except Stop (Ptr × Rtld) :=
  let p := w.maps.length
  match __read file 0 FILEBUF_SIZE with
  | none => .error (.exit .readError)
  | some got =>
    let fb := filled got (host.stack p)
    let header := ehdrOf fb
    if header.e_type ≠ ET_DYN ∧ header.e_type ≠ ET_EXEC then
      .error (.exit (.unsupportedElfType header.e_type.toNat))
    else do
      let phdr ← fetch_phdr (host.alloca p) file fb got.length header
      let l := init_link_map (host.heap p) file.image
      let (l, rpath, proc) ← load_object host file realname header phdr l w
      .ok (p, { w with maps := w.maps ++ [l], _rpath := rpath, proc })

/-- The search of `map_object` for an object that is loaded already. -/
def find_loaded (host : Host) (w : Rtld) (realname : CString) :
    Nat → Option Ptr → Except Stop (Option Ptr)
  | _, none => .ok none
  | 0, some _ => .error .endless
  | fuel + 1, some p => do
    let l ← w.deref p
    match l.l_name with
    | none => .error (.fault .nullPointer)
    | some name =>
      if __strcmp (host.reads w (.l_name p) name) realname = 0 then .ok (some p)
      else find_loaded host w realname fuel l.l_next

def map_object (host : Host) (soname : CString) (w : Rtld) : Except Stop (Ptr × Rtld) :=
  match open_path host.fs soname (host.rpaths w) with
  | none => .error (.exit (.libraryNotFound soname))
  | some (realname, file) => do
    match ← find_loaded host w realname w.maps.length w._namespace with
    | some p => .ok (p, w)
    | none => map_object_fd host file realname w

/-! ## The namespace -/

/-- The stores at the end of `append_to_namespace`, where `prev` is the last object. -/
def link_last (w : Rtld) (prev : Option Ptr) (p : Ptr) : Except Stop Rtld := do
  let l ← w.deref p
  let w := w.put p { l with l_prev := prev, l_next := none }
  match prev with
  | none => .ok { w with _namespace := some p }
  | some q =>
    let m ← w.deref q
    .ok (w.put q { m with l_next := some p })

/-- The loop of `append_to_namespace`. -/
def append_loop (w : Rtld) (p : Ptr) : Nat → Option Ptr → Option Ptr → Except Stop Rtld
  | _, prev, none => link_last w prev p
  | 0, _, some _ => .error .endless
  | fuel + 1, _, some q =>
    if q = p then .ok w
    else do
      let l ← w.deref q
      append_loop w p fuel (some q) l.l_next

def append_to_namespace (w : Rtld) (p : Ptr) : Except Stop Rtld :=
  append_loop w p w.maps.length none w._namespace

/-- The first loop of `print_namespace`: how many objects, and the last one. -/
def count_next (w : Rtld) : Nat → Option Ptr → Option Ptr → Except Stop (Nat × Option Ptr)
  | _, last, none => .ok (0, last)
  | 0, _, some _ => .error .endless
  | fuel + 1, _, some p => do
    let l ← w.deref p
    let (n, last) ← count_next w fuel (some p) l.l_next
    .ok (n + 1, last)

/-- The second loop of `print_namespace`, back along `l_prev`. -/
def count_prev (w : Rtld) : Nat → Option Ptr → Except Stop Nat
  | _, none => .ok 0
  | 0, some _ => .error .endless
  | fuel + 1, some p => do
    let l ← w.deref p
    let n ← count_prev w fuel l.l_prev
    .ok (n + 1)

/-- `print_namespace`, less what it prints. -/
def print_namespace (w : Rtld) : Except Stop Unit := do
  let (n, last) ← count_next w w.maps.length none w._namespace
  let back ← count_prev w w.maps.length last
  assert (n == back) "nr_objects == 0"

/-! ## All objects -/

/-- The state of the loop of `map_object_deps`: `todo` is what is still to
come of the run list. -/
structure Deps where
  w : Rtld
  todo : List Ptr
  nlist : Nat

/-- An object that the loop sees for the first time goes to the run list. -/
def chain_runlist (st : Deps) (p : Ptr) (l : LinkMap) : Deps :=
  if l.l_reserved = 0 then
    { w := st.w.put p { l with l_reserved := 1 }, todo := st.todo ++ [p], nlist := st.nlist + 1 }
  else st

/-- What the loop does with the object of an entry. -/
def take_object (st : Deps) (new : Ptr) : Except Stop Deps := do
  let l ← st.w.deref new
  let st := chain_runlist st new l
  let w ← append_to_namespace st.w new
  .ok { st with w }

/-- A `DT_NEEDED` entry. -/
def take_needed (host : Host) (soname : CString) (st : Deps) : Except Stop Deps := do
  let (new, w) ← map_object host soname st.w
  take_object { st with w } new

/-- The body of the loop over the dynamic section of `l`. -/
def needed_entry (host : Host) (l : LinkMap) (st : Deps) (dyn : Dyn) : Except Stop Deps := do
  let _ ← D_PTR .map_object_deps l DT_STRTAB
  if dyn.d_tag ≠ DT_NEEDED then .ok st
  else take_needed host (strAt l.image.strtab dyn.d_un.toNat) st

/-- The loop over the dynamic section of `l`. What it reads of `l` stays as
it is while objects are loaded. -/
def needed_loop (host : Host) (l : LinkMap) (st : Deps) : List Dyn → Except Stop Deps
  | [] => .ok st
  | dyn :: dyns => do needed_loop host l (← needed_entry host l st dyn) dyns

/-- The loop over the run list, and the run list at its end. -/
def deps_loop (host : Host) : Nat → List Ptr → Deps → Except Stop (List Ptr × Deps)
  | fuel, done, st =>
    match fuel, st.todo with
    | _, [] => .ok (done, st)
    | 0, _ :: _ => .error .endless
    | fuel + 1, p :: todo => do
      let l ← st.w.deref p
      let st ← needed_loop host l { st with todo } l.image.dynamic
      deps_loop host fuel (done ++ [p]) st

/-- The loop that fills `r_list` from index `i` on. -/
def fill_searchlist (root : Ptr) (i : Nat) (r_list : List (Option Ptr)) :
    List Ptr → Except Stop (List (Option Ptr))
  | [] => .ok r_list
  | p :: ps =>
    if p = root then fill_searchlist root i r_list ps
    else if i < r_list.length then fill_searchlist root (i + 1) (r_list.set i (some p)) ps
    else .error (.fault .badStore)

def set_searchlist (root : Ptr) (runlist : List Ptr) (nlist : Nat) (w : Rtld) :
    Except Stop Rtld :=
  if nlist > 0 then do
    let r_list ← fill_searchlist root 0 (List.replicate nlist none) runlist
    let l ← w.deref root
    .ok (w.put root { l with l_searchlist := { r_list, r_nlist := nlist } })
  else .ok w

/-- `parse_dynamic` on the map `p`. -/
def parse_map (host : Host) (w : Rtld) (p : Ptr) : Except Stop Rtld := do
  let l ← w.deref p
  let (l, rpath) ← parse_dynamic (host.slots w) w._rpath l
  .ok { w with maps := (w.put p l).maps, _rpath := rpath }

def map_object_deps (host : Host) (fuel : Nat) (w : Rtld) (root : Ptr) : Except Stop Rtld := do
  let w ← parse_map host w root
  let (runlist, st) ← deps_loop host fuel [] { w, todo := [root], nlist := 0 }
  let w ← set_searchlist root runlist st.nlist st.w
  print_namespace w
  .ok w

/-! ## The specs of one object -/

theorem open_path_ok {fs : FileSystem} {soname path : CString} {file : File}
    {rpaths : List CString} (h : open_path fs soname rpaths = some (path, file)) :
    fs.lookup path = some file ∧ ∃ rpath ∈ rpaths, path = namebuf rpath soname := by
  induction rpaths with
  | nil => cases h
  | cons rpath rpaths ih =>
    unfold open_path at h
    split at h
    · rename_i f hf
      cases h
      exact ⟨hf, rpath, List.mem_cons_self, rfl⟩
    · obtain ⟨hfile, r, hr, hpath⟩ := ih h
      exact ⟨hfile, r, List.mem_cons_of_mem _ hr, hpath⟩

/-- Search paths that are added at the end change nothing for a name that is found. -/
theorem open_path_grows {fs : FileSystem} {soname : CString} {found : CString × File}
    {rpaths rpaths' : List CString} (h : open_path fs soname rpaths = some found)
    (hgrows : rpaths <+: rpaths') : open_path fs soname rpaths' = some found := by
  obtain ⟨added, rfl⟩ := hgrows
  induction rpaths with
  | nil => cases h
  | cons rpath rpaths ih =>
    rw [List.cons_append]
    unfold open_path at h ⊢
    split at h
    · exact h
    · exact ih h

/-- A path has a slash in it, unless it was cut off. -/
theorem namebuf_ne {name : CString} (hslash : 0x2f ∉ name.bytes)
    (hlen : name.bytes.length < 1023) (rpath soname : CString) : namebuf rpath soname ≠ name := by
  rintro rfl
  simp only [namebuf, List.length_take, List.length_append, List.length_cons] at hslash hlen
  rw [List.take_of_length_le (by simp; omega)] at hslash
  simp at hslash

/-- The map of an object that has just been loaded from a file. -/
structure FreshObject (file : File) (realname : CString) (l : LinkMap) : Prop where
  name : l.l_name = some realname
  image : l.image = file.image
  next : l.l_next = none
  reserved : l.l_reserved = 0
  relocated : l.l_relocated = false
  strtab : (l.l_info DT_STRTAB).isSome

theorem load_object_ok {host : Host} {file : File} {realname : CString} {header : Ehdr}
    {phdr : List Phdr} {l l' : LinkMap} {w : Rtld} {rpath : List CString} {proc : Proc}
    (h : load_object host file realname header phdr l w = .ok (l', rpath, proc)) :
    w._rpath <+: rpath ∧ l'.l_name = some realname ∧ l'.image = l.image ∧
      l'.l_next = l.l_next ∧ l'.l_reserved = l.l_reserved ∧ l'.l_relocated = l.l_relocated ∧
      l'.l_entry = header.e_entry ∧ (l'.l_info DT_STRTAB).isSome := by
  simp only [load_object, bind_eq_ok] at h
  obtain ⟨⟨l1, proc1⟩, h1, ⟨l2, rpath2⟩, h2, h3⟩ := h
  cases h3
  have hm := map_segments_mapped h1
  have hp := parse_dynamic.spec h2
  rw [Mapped] at hm
  refine ⟨hp.grows, ?_, ?_, ?_, ?_, ?_, ?_, hp.strtab⟩
  all_goals
    rw [hp.frame]
    try rw [hm]

/-- A file that is loaded is the last of all maps, and the search paths may have grown. -/
theorem map_object_fd_ok {host : Host} {file : File} {realname : CString} {w w' : Rtld}
    {p : Ptr} (h : map_object_fd host file realname w = .ok (p, w')) :
    p = w.maps.length ∧ ∃ l, FreshObject file realname l ∧
      w' = { w with maps := w.maps ++ [l], _rpath := w'._rpath, proc := w'.proc } ∧
      w._rpath <+: w'._rpath := by
  unfold map_object_fd at h
  split at h
  · cases h
  · simp only at h
    split_ifs at h
    simp only [bind_eq_ok] at h
    obtain ⟨phdr, _, ⟨l, rpath, proc⟩, hload, hok⟩ := h
    cases hok
    obtain ⟨hgrows, hname, himage, hnext, hres, hrel, _, hstr⟩ := load_object_ok hload
    exact ⟨rfl, l, ⟨hname, himage, hnext, hres, hrel, hstr⟩, rfl, hgrows⟩

/-- A map behind all others leaves the old ones where they are. -/
theorem get_concat {w w' : Rtld} {l m : LinkMap} {q : Ptr} (hmaps : w'.maps = w.maps ++ [l])
    (hm : w.maps[q]? = some m) : w'.maps[q]? = some m := by
  rw [hmaps, List.getElem?_append_left (List.getElem?_eq_some_iff.mp hm).1, hm]

/-- The name of the object at `p`. -/
def nameOf (w : Rtld) (p : Ptr) : Option CString := (w.maps[p]?).bind LinkMap.l_name

theorem nameOf_eq_some {w : Rtld} {p : Ptr} {name : CString} :
    nameOf w p = some name ↔ ∃ l, w.maps[p]? = some l ∧ l.l_name = some name := by
  simp [nameOf, Option.bind_eq_some_iff]

/-- The name of the object at `p` as it is read. -/
def readName (host : Host) (w : Rtld) (p : Ptr) : Option CString :=
  (nameOf w p).map (host.reads w (.l_name p))

/-- A name with its NUL in its block is read as it is. -/
theorem readName_held (host : Host) {w : Rtld} {p : Ptr}
    (h : ∀ name, nameOf w p = some name → Held name) : readName host w p = nameOf w p := by
  unfold readName
  cases hname : nameOf w p with
  | none => rfl
  | some name => rw [Option.map_some, host.keeps w _ name (h name hname)]

/-- Search paths with their NULs in their blocks are read as they are. -/
theorem rpaths_held (host : Host) {w : Rtld} (h : ∀ s ∈ w._rpath, Held s) :
    host.rpaths w = w._rpath := by
  have hkeeps : KeepsHeld (host.slots w) := fun _ _ _ hs => host.keeps _ _ _ hs
  exact hkeeps.exact h

/-- Every copy is read as it is. -/
def Host.Exact (host : Host) : Prop := ∀ w copy s, host.reads w copy s = s

theorem Host.Exact.slots {host : Host} (h : host.Exact) (w : Rtld) : host.slots w = asCopied := by
  funext rpath i s
  exact h _ _ s

theorem Host.Exact.rpaths {host : Host} (h : host.Exact) (w : Rtld) :
    host.rpaths w = w._rpath := by
  rw [Host.rpaths, h.slots]
  exact asCopied_exact w._rpath

/-- The search finds the first object with the name, and ends. -/
theorem find_loaded.spec (host : Host) {w : Rtld} (realname : CString) {fuel : Nat}
    {o : Option Ptr} {ps : List Ptr} (hl : Linked w.maps o ps)
    (hnames : ∀ p ∈ ps, (nameOf w p).isSome) (hfuel : ps.length ≤ fuel) :
    find_loaded host w realname fuel o =
      .ok (ps.find? fun p => readName host w p = some realname) := by
  induction ps generalizing o fuel with
  | nil =>
    rw [Linked] at hl
    subst hl
    cases fuel <;> rfl
  | cons p ps ih =>
    obtain ⟨rfl, l, hl, hrest⟩ := hl
    cases fuel with
    | zero => simp at hfuel
    | succ fuel =>
      have hname := hnames p List.mem_cons_self
      obtain ⟨name, hname⟩ := Option.isSome_iff_exists.mp hname
      obtain ⟨l', hl', hn⟩ := nameOf_eq_some.mp hname
      rw [hl] at hl'
      cases hl'
      have hrec := ih hrest (fun q hq => hnames q (List.mem_cons_of_mem _ hq))
        (Nat.le_of_succ_le_succ hfuel)
      simp only [find_loaded, Rtld.deref, hl, bind, Except.bind, hn, __strcmp.spec,
        List.find?_cons, readName, hname, Option.map_some, Option.some.injEq]
      by_cases heq : host.reads w (.l_name p) name = realname
      · simp [heq]
      · simp only [heq, if_false, decide_false]
        exact hrec

/-! ## The specs of the namespace -/

/-- The map without its place in the namespace and in the run list. -/
def unlinked (l : LinkMap) : LinkMap :=
  { l with
    l_next := none
    l_prev := none
    l_reserved := 0
    l_searchlist := { r_list := [], r_nlist := 0 } }

/-- Every object is still there, and only its places may have changed. -/
def Keeps (w w' : Rtld) : Prop :=
  ∀ (p : Ptr) (l : LinkMap), w.maps[p]? = some l →
    ∃ l', w'.maps[p]? = some l' ∧ unlinked l' = unlinked l

/-- Every object is still there, and `f` gives of it what it gave. -/
def KeepsBy {α : Type} (f : LinkMap → α) (w w' : Rtld) : Prop :=
  ∀ (p : Ptr) (l : LinkMap), w.maps[p]? = some l → ∃ l', w'.maps[p]? = some l' ∧ f l' = f l

theorem KeepsBy.refl {α : Type} (f : LinkMap → α) (w : Rtld) : KeepsBy f w w :=
  fun _ l hl => ⟨l, hl, rfl⟩

theorem KeepsBy.trans {α : Type} {f : LinkMap → α} {w w1 w2 : Rtld} (h1 : KeepsBy f w w1)
    (h2 : KeepsBy f w1 w2) : KeepsBy f w w2 := by
  intro p l hl
  obtain ⟨l1, hl1, he1⟩ := h1 p l hl
  obtain ⟨l2, hl2, he2⟩ := h2 p l1 hl1
  exact ⟨l2, hl2, he2.trans he1⟩

theorem Keeps.refl (w : Rtld) : Keeps w w := KeepsBy.refl unlinked w

theorem Keeps.trans {w w1 w2 : Rtld} (h1 : Keeps w w1) (h2 : Keeps w1 w2) : Keeps w w2 :=
  KeepsBy.trans h1 h2

/-- A field other than the places is kept. -/
theorem Keeps.field {α : Type} {w w' : Rtld} (h : Keeps w w') {p : Ptr} {l l' : LinkMap}
    (hl : w.maps[p]? = some l) (hl' : w'.maps[p]? = some l') (f : LinkMap → α)
    (hf : ∀ l, f (unlinked l) = f l) : f l' = f l := by
  obtain ⟨l1, hl1, he⟩ := h p l hl
  rw [hl'] at hl1
  cases hl1
  rw [← hf l', he, hf]

theorem Keeps.nameOf {w w' : Rtld} (h : Keeps w w') {p : Ptr} {name : CString}
    (hn : nameOf w p = some name) : nameOf w' p = some name := by
  obtain ⟨l, hl, hname⟩ := nameOf_eq_some.mp hn
  obtain ⟨l', hl', _⟩ := h p l hl
  have hsame : l'.l_name = l.l_name := h.field hl hl' LinkMap.l_name fun _ => rfl
  exact nameOf_eq_some.mpr ⟨l', hl', hsame.trans hname⟩

theorem get_put {w : Rtld} {p q : Ptr} {l m : LinkMap} (hm : w.maps[p]? = some m) :
    (w.put p l).maps[q]? = if q = p then some l else w.maps[q]? := by
  have hp := (List.getElem?_eq_some_iff.mp hm).1
  rw [Rtld.put, List.getElem?_set]
  by_cases h : q = p
  · subst h
    rw [if_pos rfl, if_pos rfl, if_pos hp]
  · rw [if_neg (Ne.symm h), if_neg h]

theorem keepsBy_put {α : Type} {f : LinkMap → α} {w : Rtld} {p : Ptr} {l : LinkMap} (l' : LinkMap)
    (hl : w.maps[p]? = some l) (he : f l' = f l) : KeepsBy f w (w.put p l') := by
  intro q m hm
  rw [get_put hl]
  by_cases h : q = p
  · subst h
    rw [hl] at hm
    cases hm
    exact ⟨l', if_pos rfl, he⟩
  · exact ⟨m, by rw [if_neg h, hm], rfl⟩

theorem keeps_put {w : Rtld} {p : Ptr} {l : LinkMap} (l' : LinkMap) (hl : w.maps[p]? = some l)
    (he : unlinked l' = unlinked l) : Keeps w (w.put p l') := keepsBy_put l' hl he

/-- A list stays linked if its objects keep their links. -/
theorem dLinked_congr {maps maps' : List LinkMap} {ns : List Ptr} {prev o : Option Ptr}
    (h : DLinked maps prev o ns)
    (hkeep : ∀ p ∈ ns, ∀ l, maps[p]? = some l → ∃ l', maps'[p]? = some l' ∧
      l'.l_next = l.l_next ∧ l'.l_prev = l.l_prev) : DLinked maps' prev o ns := by
  induction ns generalizing prev o with
  | nil => exact h
  | cons p ns ih =>
    obtain ⟨ho, l, hl, hprev, hrest⟩ := h
    obtain ⟨l', hl', hnext', hprev'⟩ := hkeep p List.mem_cons_self l hl
    refine ⟨ho, l', hl', hprev'.trans hprev, ?_⟩
    rw [hnext']
    exact ih hrest fun q hq => hkeep q (List.mem_cons_of_mem _ hq)

theorem dLinked_put {w : Rtld} {ns : List Ptr} {prev o : Option Ptr} {p : Ptr} {l : LinkMap}
    (l' : LinkMap) (h : DLinked w.maps prev o ns) (hl : w.maps[p]? = some l)
    (hnext : l'.l_next = l.l_next) (hprev : l'.l_prev = l.l_prev) :
    DLinked (w.put p l').maps prev o ns := by
  refine dLinked_congr h ?_
  intro q _ m hm
  rw [get_put hl]
  by_cases hq : q = p
  · subst hq
    rw [hl] at hm
    cases hm
    exact ⟨l', if_pos rfl, hnext, hprev⟩
  · exact ⟨m, by rw [if_neg hq, hm], rfl, rfl⟩

/-- Only links have changed. -/
structure Relinked (w w' : Rtld) : Prop where
  frame : w' = { w with maps := w'.maps, _namespace := w'._namespace }
  keeps : ∀ (p : Ptr) (l : LinkMap), w.maps[p]? = some l → ∃ l', w'.maps[p]? = some l' ∧
    unlinked l' = unlinked l ∧ l'.l_reserved = l.l_reserved

theorem Relinked.refl (w : Rtld) : Relinked w w := ⟨rfl, fun _ l hl => ⟨l, hl, rfl, rfl⟩⟩

theorem Relinked.toKeeps {w w' : Rtld} (h : Relinked w w') : Keeps w w' := by
  intro p l hl
  obtain ⟨l', hl', he, _⟩ := h.keeps p l hl
  exact ⟨l', hl', he⟩

/-- A new object at the end of the list. -/
theorem dLinked_concat {maps maps' : List LinkMap} {ns : List Ptr} {prev o : Option Ptr} {p q : Ptr}
    {l m : LinkMap} (h : DLinked maps prev o ns) (hnodup : ns.Nodup) (hp : p ∉ ns)
    (hlast : ns.getLast? = some q) (hm : maps[q]? = some m)
    (hpl : maps'[p]? = some { l with l_prev := some q, l_next := none })
    (hqm : maps'[q]? = some { m with l_next := some p })
    (hrest : ∀ a, a ≠ p → a ≠ q → maps'[a]? = maps[a]?) : DLinked maps' prev o (ns ++ [p]) := by
  induction ns generalizing prev o with
  | nil => cases hlast
  | cons a ns ih =>
    obtain ⟨ho, la, hla, hprev, hnext⟩ := h
    rw [List.nodup_cons] at hnodup
    cases ns with
    | nil =>
      rw [List.getLast?_singleton] at hlast
      cases hlast
      rw [hla] at hm
      cases hm
      exact ⟨ho, _, hqm, hprev, rfl, _, hpl, rfl, rfl⟩
    | cons b ns =>
      rw [List.getLast?_cons_cons] at hlast
      have haq : a ≠ q := by
        rintro rfl
        exact hnodup.1 (List.mem_of_getLast? hlast)
      have hap : a ≠ p := by
        rintro rfl
        exact hp List.mem_cons_self
      refine ⟨ho, la, (hrest a hap haq).trans hla, hprev, ?_⟩
      exact ih hnext hnodup.2 (fun h => hp (List.mem_cons_of_mem _ h)) hlast

theorem append_loop_mem {w : Rtld} {p : Ptr} {ns : List Ptr} {prev o : Option Ptr} {fuel : Nat}
    (h : Linked w.maps o ns) (hp : p ∈ ns) (hfuel : ns.length ≤ fuel) :
    append_loop w p fuel prev o = .ok w := by
  induction ns generalizing prev o fuel with
  | nil => cases hp
  | cons q ns ih =>
    obtain ⟨rfl, l, hl, hrest⟩ := h
    cases fuel with
    | zero => simp at hfuel
    | succ fuel =>
      unfold append_loop
      by_cases hqp : q = p
      · rw [if_pos hqp]
      · rw [if_neg hqp]
        simp only [Rtld.deref, hl, bind, Except.bind]
        exact ih hrest (List.mem_of_ne_of_mem (Ne.symm hqp) hp) (Nat.le_of_succ_le_succ hfuel)

theorem append_loop_not_mem {w : Rtld} {p : Ptr} {ns : List Ptr} {prev o : Option Ptr} {fuel : Nat}
    (h : Linked w.maps o ns) (hp : p ∉ ns) (hfuel : ns.length ≤ fuel) :
    append_loop w p fuel prev o = link_last w (ns.getLast?.or prev) p := by
  induction ns generalizing prev o fuel with
  | nil =>
    rw [Linked] at h
    subst h
    cases fuel <;> rfl
  | cons q ns ih =>
    obtain ⟨rfl, l, hl, hrest⟩ := h
    cases fuel with
    | zero => simp at hfuel
    | succ fuel =>
      rw [List.mem_cons, not_or] at hp
      unfold append_loop
      rw [if_neg (Ne.symm hp.1)]
      simp only [Rtld.deref, hl, bind, Except.bind]
      rw [ih hrest hp.2 (Nat.le_of_succ_le_succ hfuel)]
      congr 1
      cases ns with
      | nil => rfl
      | cons b ns =>
        obtain ⟨last, hlast⟩ : ∃ last, (b :: ns).getLast? = some last :=
          ⟨_, List.getLast?_eq_some_getLast (List.cons_ne_nil b ns)⟩
        rw [List.getLast?_cons_cons, hlast]
        rfl

/-- An object that is in the namespace stays where it is, and any other one
goes to the end. -/
theorem append_to_namespace.spec {w : Rtld} {p : Ptr} {l : LinkMap} {ns : List Ptr}
    (hns : DLinked w.maps none w._namespace ns) (hne : ns ≠ []) (hl : w.maps[p]? = some l) :
    ∃ w', append_to_namespace w p = .ok w' ∧ Relinked w w' ∧
      DLinked w'.maps none w'._namespace (if p ∈ ns then ns else ns ++ [p]) := by
  have hlen := hns.linked.length_le
  unfold append_to_namespace
  by_cases hp : p ∈ ns
  · rw [append_loop_mem hns.linked hp hlen, if_pos hp]
    exact ⟨w, rfl, Relinked.refl w, hns⟩
  · obtain ⟨q, hq⟩ : ∃ q, ns.getLast? = some q := ⟨_, List.getLast?_eq_some_getLast hne⟩
    have hqns := List.mem_of_getLast? hq
    obtain ⟨m, hm⟩ := hns.linked.mem_maps hqns
    have hqp : q ≠ p := fun h => hp (h ▸ hqns)
    have hget := get_put (q := q) (l := { l with l_prev := some q, l_next := none }) hl
    rw [if_neg hqp, hm] at hget
    rw [append_loop_not_mem hns.linked hp hlen, hq, if_neg hp]
    simp only [Option.some_or, link_last, Rtld.deref, hl, hget, bind, Except.bind]
    refine ⟨_, rfl, ⟨rfl, ?_⟩, ?_⟩
    · intro a la hla
      rw [get_put hget, get_put hl]
      by_cases haq : a = q
      · subst haq
        rw [hm] at hla
        cases hla
        exact ⟨_, if_pos rfl, rfl, rfl⟩
      · rw [if_neg haq]
        by_cases hap : a = p
        · subst hap
          rw [hl] at hla
          cases hla
          exact ⟨_, if_pos rfl, rfl, rfl⟩
        · exact ⟨la, by rw [if_neg hap, hla], rfl, rfl⟩
    · refine dLinked_concat hns hns.linked.nodup hp hq hm (l := l) ?_ ?_ ?_
      · rw [get_put hget, if_neg (Ne.symm hqp), get_put hl, if_pos rfl]
      · rw [get_put hget, if_pos rfl]
      · intro a hap haq
        rw [get_put hget, if_neg haq, get_put hl, if_neg hap]

/-- The object goes to the end of the namespace and to the end of the run
list, each unless it is in it already. -/
theorem take_object.spec (st : Deps) {p : Ptr} {l : LinkMap} {ns : List Ptr}
    (hns : DLinked st.w.maps none st.w._namespace ns) (hne : ns ≠ [])
    (hl : st.w.maps[p]? = some l) :
    ∃ w', take_object st p = .ok {
        w := w'
        todo := st.todo ++ if l.l_reserved = 0 then [p] else []
        nlist := st.nlist + if l.l_reserved = 0 then 1 else 0 } ∧
      w' = { st.w with maps := w'.maps, _namespace := w'._namespace } ∧ Keeps st.w w' ∧
      DLinked w'.maps none w'._namespace (if p ∈ ns then ns else ns ++ [p]) ∧
      ∀ (q : Ptr) (m m' : LinkMap), st.w.maps[q]? = some m → w'.maps[q]? = some m' →
        (m'.l_reserved = 0 ↔ m.l_reserved = 0 ∧ q ≠ p) := by
  simp only [take_object, Rtld.deref, hl, bind, Except.bind, chain_runlist]
  by_cases hres : l.l_reserved = 0
  · have hput := keeps_put { l with l_reserved := 1 } hl rfl
    have hlinked := dLinked_put { l with l_reserved := 1 } hns hl rfl rfl
    obtain ⟨w', happ, hrel, hlinked'⟩ := append_to_namespace.spec hlinked hne
      (by rw [get_put hl, if_pos rfl])
    refine ⟨w', by simp only [if_pos hres, happ], ?_, hput.trans hrel.toKeeps, hlinked', ?_⟩
    · rw [hrel.frame]
      rfl
    · intro q m m' hm hm'
      by_cases hq : q = p
      · obtain ⟨m1, hm1, _, hr1⟩ := hrel.keeps q _ (by rw [get_put hl, if_pos hq])
        rw [hm'] at hm1
        cases hm1
        simp [hr1, hq]
      · obtain ⟨m1, hm1, _, hr1⟩ := hrel.keeps q m (by rw [get_put hl, if_neg hq, hm])
        rw [hm'] at hm1
        cases hm1
        simp [hr1, hq]
  · obtain ⟨w', happ, hrel, hlinked⟩ := append_to_namespace.spec hns hne hl
    refine ⟨w', by simp only [if_neg hres, happ, List.append_nil, Nat.add_zero],
      hrel.frame, hrel.toKeeps, hlinked, ?_⟩
    intro q m m' hm hm'
    obtain ⟨m1, hm1, _, hr1⟩ := hrel.keeps q m hm
    rw [hm'] at hm1
    cases hm1
    rw [hr1]
    refine ⟨fun hq => ⟨hq, ?_⟩, fun hq => hq.1⟩
    rintro rfl
    rw [hl] at hm
    cases hm
    exact hres hq

theorem count_next.spec {w : Rtld} {ns : List Ptr} {last o : Option Ptr} {fuel : Nat}
    (h : Linked w.maps o ns) (hfuel : ns.length ≤ fuel) :
    count_next w fuel last o = .ok (ns.length, ns.getLast?.or last) := by
  induction ns generalizing last o fuel with
  | nil =>
    rw [Linked] at h
    subst h
    cases fuel <;> rfl
  | cons p ns ih =>
    obtain ⟨rfl, l, hl, hrest⟩ := h
    cases fuel with
    | zero => simp at hfuel
    | succ fuel =>
      simp only [count_next, Rtld.deref, hl, bind, Except.bind,
        ih hrest (Nat.le_of_succ_le_succ hfuel), List.length_cons]
      cases ns with
      | nil => rfl
      | cons q ns => simp [List.getLast?_cons]

theorem count_prev.spec {w : Rtld} {ps : List Ptr} {o : Option Ptr} {fuel : Nat}
    (h : PrevLinked w.maps o ps) (hfuel : ps.length ≤ fuel) :
    count_prev w fuel o = .ok ps.length := by
  induction ps generalizing o fuel with
  | nil =>
    rw [PrevLinked] at h
    subst h
    cases fuel <;> rfl
  | cons p ps ih =>
    obtain ⟨rfl, l, hl, hrest⟩ := h
    cases fuel with
    | zero => simp at hfuel
    | succ fuel =>
      simp only [count_prev, Rtld.deref, hl, bind, Except.bind,
        ih hrest (Nat.le_of_succ_le_succ hfuel), List.length_cons]

/-- The check at the end holds of every doubly linked list. -/
theorem print_namespace.spec {w : Rtld} {ns : List Ptr}
    (h : DLinked w.maps none w._namespace ns) : print_namespace w = .ok () := by
  have hlen := h.linked.length_le
  have hnil : PrevLinked w.maps none [] := rfl
  have hback := h.prevLinked hnil
  rw [List.append_nil] at hback
  have hcount : count_prev w w.maps.length (ns.getLast?.or none) = .ok ns.reverse.length :=
    count_prev.spec hback (by simpa using hlen)
  simp only [print_namespace, count_next.spec h.linked hlen, bind, Except.bind, hcount,
    List.length_reverse, assert_eq_ok, beq_self_eq_true]

/-! ## The spec of the search list -/

/-- The slots are enough for the objects other than the root. -/
theorem fill_searchlist_ok (root : Ptr) (i : Nat) (r_list : List (Option Ptr))
    (runlist : List Ptr) (h : i + (runlist.filter (· ≠ root)).length ≤ r_list.length) :
    ∃ r_list', fill_searchlist root i r_list runlist = .ok r_list' := by
  induction runlist generalizing i r_list with
  | nil => exact ⟨r_list, rfl⟩
  | cons p ps ih =>
    unfold fill_searchlist
    by_cases hp : p = root
    · rw [if_pos hp]
      apply ih
      simpa [hp] using h
    · rw [List.filter_cons_of_pos (by simpa using hp), List.length_cons] at h
      rw [if_neg hp, if_pos (by omega)]
      apply ih
      rw [List.length_set]
      omega

theorem set_searchlist.spec {root : Ptr} {runlist : List Ptr} {nlist : Nat} {w : Rtld}
    {l : LinkMap} {ns : List Ptr} (hl : w.maps[root]? = some l)
    (hlen : (runlist.filter (· ≠ root)).length ≤ nlist)
    (hns : DLinked w.maps none w._namespace ns) :
    ∃ w', set_searchlist root runlist nlist w = .ok w' ∧ Keeps w w' ∧ w'._rpath = w._rpath ∧
      DLinked w'.maps none w'._namespace ns := by
  unfold set_searchlist
  split_ifs with hpos
  · obtain ⟨r_list, hfill⟩ := fill_searchlist_ok root 0 (List.replicate nlist none) runlist
      (by simpa using hlen)
    simp only [hfill, Rtld.deref, hl, bind, Except.bind]
    exact ⟨_, rfl, keeps_put _ hl rfl, rfl, dLinked_put _ hns hl rfl rfl⟩
  · exact ⟨w, rfl, Keeps.refl w, rfl, hns⟩

/-! ## What the loading leaves alone -/

theorem map_object_found {host : Host} {soname : CString} {w w' : Rtld} {p : Ptr}
    (h : map_object host soname w = .ok (p, w')) :
    ∃ path file, open_path host.fs soname (host.rpaths w) = some (path, file) := by
  cases hopen : open_path host.fs soname (host.rpaths w) with
  | none =>
    rw [map_object, hopen] at h
    cases h
  | some found => exact ⟨found.1, found.2, rfl⟩

/-- The places in the namespace and in the run list do not matter to `f`. -/
def IgnoresPlaces {α : Type} (f : LinkMap → α) : Prop :=
  ∀ (l : LinkMap) (next prev : Option Ptr) (reserved : BitVec 2),
    f { l with l_next := next, l_prev := prev, l_reserved := reserved } = f l

section

variable {α : Type} {f : LinkMap → α}

theorem map_object_keepsBy {host : Host} {soname : CString} {w w' : Rtld} {p : Ptr}
    (h : map_object host soname w = .ok (p, w')) : KeepsBy f w w' := by
  obtain ⟨path, file, hopen⟩ := map_object_found h
  simp only [map_object, hopen, bind_eq_ok] at h
  obtain ⟨found, _, h⟩ := h
  cases found with
  | some q =>
    cases h
    exact .refl f w
  | none =>
    obtain ⟨_, l, _, hw', _⟩ := map_object_fd_ok h
    have hmaps : w'.maps = w.maps ++ [l] := by rw [hw']
    intro q m hm
    exact ⟨m, get_concat hmaps hm, rfl⟩

theorem link_last_keepsBy (hf : IgnoresPlaces f) {w w' : Rtld} {prev : Option Ptr} {p : Ptr}
    (h : link_last w prev p = .ok w') : KeepsBy f w w' := by
  simp only [link_last, bind_eq_ok, Rtld.deref_eq_ok] at h
  obtain ⟨l, hl, h⟩ := h
  have hput := keepsBy_put { l with l_prev := prev, l_next := none } hl
    (hf l none prev l.l_reserved)
  cases prev with
  | none =>
    cases h
    exact hput
  | some q =>
    simp only [bind_eq_ok, Rtld.deref_eq_ok] at h
    obtain ⟨m, hm, h⟩ := h
    cases h
    exact hput.trans (keepsBy_put { m with l_next := some p } hm
      (hf m (some p) m.l_prev m.l_reserved))

theorem append_loop_keepsBy (hf : IgnoresPlaces f) {w w' : Rtld} {p : Ptr} {fuel : Nat}
    {prev o : Option Ptr} (h : append_loop w p fuel prev o = .ok w') : KeepsBy f w w' := by
  induction fuel generalizing prev o with
  | zero =>
    cases o with
    | none => exact link_last_keepsBy hf h
    | some q => cases h
  | succ fuel ih =>
    cases o with
    | none => exact link_last_keepsBy hf h
    | some q =>
      unfold append_loop at h
      split_ifs at h
      · cases h
        exact .refl f w
      · rw [bind_eq_ok] at h
        obtain ⟨l, _, h⟩ := h
        exact ih h

theorem take_object_keepsBy (hf : IgnoresPlaces f) {st st' : Deps} {p : Ptr}
    (h : take_object st p = .ok st') : KeepsBy f st.w st'.w := by
  simp only [take_object, bind_eq_ok, Rtld.deref_eq_ok] at h
  obtain ⟨l, hl, w', happ, h⟩ := h
  cases h
  refine .trans ?_ (append_loop_keepsBy hf happ)
  unfold chain_runlist
  split_ifs
  · exact keepsBy_put { l with l_reserved := 1 } hl (hf l l.l_next l.l_prev 1)
  · exact .refl f _

theorem needed_loop_keepsBy (hf : IgnoresPlaces f) {host : Host} {l : LinkMap} {dyns : List Dyn}
    {st st' : Deps} (h : needed_loop host l st dyns = .ok st') : KeepsBy f st.w st'.w := by
  induction dyns generalizing st with
  | nil =>
    cases h
    exact .refl f _
  | cons dyn dyns ih =>
    rw [needed_loop, bind_eq_ok] at h
    obtain ⟨st1, h1, h2⟩ := h
    refine .trans ?_ (ih h2)
    rw [needed_entry, bind_eq_ok] at h1
    obtain ⟨_, _, h1⟩ := h1
    split_ifs at h1
    · cases h1
      exact .refl f _
    · rw [take_needed, bind_eq_ok] at h1
      obtain ⟨⟨p, w1⟩, hmap, h1⟩ := h1
      exact (map_object_keepsBy hmap).trans (take_object_keepsBy hf h1)

theorem deps_loop_keepsBy (hf : IgnoresPlaces f) {host : Host} {fuel : Nat}
    {done runlist : List Ptr} {st st' : Deps}
    (h : deps_loop host fuel done st = .ok (runlist, st')) : KeepsBy f st.w st'.w := by
  induction fuel generalizing done st with
  | zero =>
    unfold deps_loop at h
    cases htodo : st.todo with
    | nil =>
      rw [htodo] at h
      cases h
      exact .refl f _
    | cons p todo =>
      rw [htodo] at h
      cases h
  | succ fuel ih =>
    unfold deps_loop at h
    cases htodo : st.todo with
    | nil =>
      rw [htodo] at h
      cases h
      exact .refl f _
    | cons p todo =>
      rw [htodo] at h
      simp only [bind_eq_ok] at h
      obtain ⟨l, _, st1, h1, h2⟩ := h
      exact (needed_loop_keepsBy hf h1).trans (ih h2)

end

theorem deps_loop_keeps {host : Host} {fuel : Nat} {done runlist : List Ptr} {st st' : Deps}
    (h : deps_loop host fuel done st = .ok (runlist, st')) : Keeps st.w st'.w :=
  deps_loop_keepsBy (fun _ _ _ _ => rfl) h

theorem link_last_rpath {w w' : Rtld} {prev : Option Ptr} {p : Ptr}
    (h : link_last w prev p = .ok w') : w'._rpath = w._rpath := by
  simp only [link_last, bind_eq_ok] at h
  obtain ⟨l, _, h⟩ := h
  cases prev with
  | none =>
    cases h
    rfl
  | some q =>
    simp only [bind_eq_ok] at h
    obtain ⟨m, _, h⟩ := h
    cases h
    rfl

theorem append_loop_rpath {w w' : Rtld} {p : Ptr} {fuel : Nat} {prev o : Option Ptr}
    (h : append_loop w p fuel prev o = .ok w') : w'._rpath = w._rpath := by
  induction fuel generalizing prev o with
  | zero =>
    cases o with
    | none => exact link_last_rpath h
    | some q => cases h
  | succ fuel ih =>
    cases o with
    | none => exact link_last_rpath h
    | some q =>
      unfold append_loop at h
      split_ifs at h
      · cases h
        rfl
      · rw [bind_eq_ok] at h
        obtain ⟨l, _, h⟩ := h
        exact ih h

theorem take_object_rpath {st st' : Deps} {p : Ptr} (h : take_object st p = .ok st') :
    st'.w._rpath = st.w._rpath := by
  simp only [take_object, bind_eq_ok] at h
  obtain ⟨l, _, w', happ, h⟩ := h
  cases h
  have hsame : w'._rpath = (chain_runlist st p l).w._rpath := append_loop_rpath happ
  rw [chain_runlist] at hsame
  split_ifs at hsame <;> exact hsame

theorem set_searchlist_keeps {root : Ptr} {runlist : List Ptr} {nlist : Nat} {w w' : Rtld}
    (h : set_searchlist root runlist nlist w = .ok w') : Keeps w w' := by
  unfold set_searchlist at h
  split_ifs at h
  · simp only [bind_eq_ok, Rtld.deref_eq_ok] at h
    obtain ⟨r_list, _, l, hl, h⟩ := h
    cases h
    exact keeps_put _ hl rfl
  · cases h
    exact Keeps.refl w

/-! ## A shared object -/

/-- The bytes of a number, the lowest first. -/
def leBytes (n x : Nat) : List Byte := (List.range n).map (byteOf x)

/-- A header as it stands in a file. -/
def ehdrBytes (header : Ehdr) : List Byte :=
  List.replicate 16 0 ++ leBytes 2 header.e_type.toNat ++ List.replicate 6 0 ++
    leBytes 8 header.e_entry.toNat ++ leBytes 8 header.e_phoff.toNat ++ List.replicate 16 0 ++
    leBytes 2 header.e_phnum.toNat ++ List.replicate 6 0

def phdrBytes (ph : Phdr) : List Byte :=
  leBytes 4 ph.p_type.toNat ++ leBytes 4 ph.p_flags.toNat ++ leBytes 8 ph.p_offset.toNat ++
    leBytes 8 ph.p_vaddr.toNat ++ List.replicate 8 0 ++ leBytes 8 ph.p_filesz.toNat ++
    leBytes 8 ph.p_memsz.toNat ++ leBytes 8 ph.p_align.toNat

def libraryHeader : Ehdr where
  e_type := ET_DYN
  e_entry := 0xb0
  e_phoff := 64
  e_phnum := 2

def libraryText : Phdr where
  p_type := PT_LOAD
  p_flags := PF_R ||| PF_X
  p_offset := 0
  p_vaddr := 0
  p_filesz := 176
  p_memsz := 176
  p_align := 0x1000

def libraryDynamic : Phdr where
  p_type := PT_DYNAMIC
  p_flags := PF_R
  p_offset := 0x80
  p_vaddr := 0x80
  p_filesz := 32
  p_memsz := 32
  p_align := 8

def libraryBytes : List Byte :=
  ehdrBytes libraryHeader ++ phdrBytes libraryText ++ phdrBytes libraryDynamic

/-- A shared object of one segment, with other tables for each image. -/
def libraryFile (image : Image) : File where
  readable := true
  bytes := libraryBytes
  image

theorem libraryBytes_length : libraryBytes.length = 176 := by decide +kernel

theorem libraryBytes_header : ehdrOf (filled libraryBytes fun _ => 0) = libraryHeader := by
  decide +kernel

theorem libraryBytes_phdr :
    phdrsAt (filled libraryBytes fun _ => 0) 64 2 = [libraryText, libraryDynamic] := by
  decide +kernel

theorem libraryBytes_take : libraryBytes.take FILEBUF_SIZE = libraryBytes :=
  List.take_of_length_le (by rw [libraryBytes_length]; decide)

/-- The program headers are in the buffer. -/
theorem libraryFile_fetch (alloca : Bytes) (image : Image) :
    fetch_phdr alloca (libraryFile image) (filled libraryBytes fun _ => 0) libraryBytes.length
      libraryHeader = .ok [libraryText, libraryDynamic] := by
  unfold fetch_phdr
  rw [libraryBytes_length]
  simp only
  rw [if_pos (by decide)]
  exact congrArg Except.ok libraryBytes_phdr

/-- A shared object loads if its dynamic section can be parsed. -/
theorem libraryFile_loads {host : Host} {image : Image} (path : CString) {w : Rtld}
    (hkern : host.kern = steadyKernel) (hstack : host.stack = fun _ _ => 0)
    (hps : w._dl_pagesize = 0x1000)
    (hparse : ∀ l, l.image = image → l.l_info = (fun _ => none) → l.l_ld ≠ 0 →
      ∃ l', parse_dynamic (host.slots w) w._rpath l = .ok (l', w._rpath)) :
    ∃ p w', map_object_fd host (libraryFile image) path w = .ok (p, w') ∧
      w'._rpath = w._rpath := by
  have hmap : ∃ l s, map_segments steadyKernel 0x1000 libraryBytes libraryHeader
      [libraryText, libraryDynamic]
      { init_link_map (host.heap w.maps.length) image with
        l_entry := libraryHeader.e_entry
        l_phnum := libraryHeader.e_phnum } w.proc = .ok (l, s) ∧
      l.l_ld = 0x80 ∧ l.l_addr = 0x1000 := ⟨_, _, rfl, rfl, rfl⟩
  obtain ⟨l, s, hmap, hld, haddr⟩ := hmap
  have hm : Mapped _ l := map_segments_mapped hmap
  obtain ⟨l', hl'⟩ := hparse { l with
      l_name := some path
      l_ld := moved l.l_addr l.l_ld
      l_phdr := moved l.l_addr l.l_phdr }
    (by rw [hm]; rfl) (by rw [hm]; rfl) (by simp only [hld, haddr]; decide)
  have hread : __read (libraryFile image) 0 FILEBUF_SIZE = some libraryBytes := by
    simp only [__read, libraryFile, if_true, List.drop_zero, libraryBytes_take]
  refine ⟨w.maps.length, { w with maps := w.maps ++ [l'], proc := s }, ?_, rfl⟩
  unfold map_object_fd load_object
  rw [hread, hkern, hstack, hps]
  simp only [libraryBytes_header, libraryFile_fetch, bind, Except.bind]
  rw [if_neg (by decide)]
  simp only [libraryFile, hmap, hl']

end elf_loader.load
