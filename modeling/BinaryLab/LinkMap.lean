-- The data of the loader (include/link.h, include/ldsodefs.h): the tables of
-- an ELF object, the `link_map` of a loaded object, the globals, and the ways
-- in which a run of the loader stops. A pointer to a `link_map` is its place
-- in the list of all maps made so far.
import BinaryLab.Runs
import BinaryLab.Pages
import Mathlib.Data.List.Perm.Subperm

set_option linter.style.nameCheck false

open binary_lab.runs binary_lab.words binary_lab.pages

namespace elf_loader

/-! ## C strings -/

/-- A C string: the bytes before its NUL. -/
structure CString where
  bytes : List Byte
  no_nul : 0 ∉ bytes
deriving DecidableEq

theorem CString.ext {s t : CString} (h : s.bytes = t.bytes) : s = t := by
  cases s
  cases t
  simp_all

/-- The string that starts `off` bytes into a string table. -/
def strAt (tab : List Byte) (off : Nat) : CString where
  bytes := (tab.drop off).takeWhile (· ≠ 0)
  no_nul := by
    intro h
    have := List.all_takeWhile (p := (· ≠ 0)) (l := tab.drop off)
    simpa using List.all_eq_true.mp this 0 h

/-- A string literal of the source. -/
def CString.lit (cs : List Char) : CString where
  bytes := (cs.map fun c => BitVec.ofNat 8 c.toNat).filter (· ≠ 0)
  no_nul := by simp

/-- The loop of `__strcmp`, with the NUL at the end of both lists. -/
def strcmp_loop : List Byte → List Byte → Int
  | [], [] => 0
  | [], b :: _ => 0 - (b.toNat : Int)
  | a :: _, [] => (a.toNat : Int) - 0
  | a :: s1, b :: s2 =>
    let r := (a.toNat : Int) - b.toNat
    if r = 0 ∧ a ≠ 0 then strcmp_loop s1 s2 else r

def __strcmp (s1 s2 : CString) : Int := strcmp_loop s1.bytes s2.bytes

theorem strcmp_loop_eq_zero {s1 s2 : List Byte} (h1 : 0 ∉ s1) (h2 : 0 ∉ s2) :
    strcmp_loop s1 s2 = 0 ↔ s1 = s2 := by
  induction s1 generalizing s2 with
  | nil =>
    cases s2 with
    | nil => simp [strcmp_loop]
    | cons b s2 =>
      have hb : b ≠ 0 := fun h => h2 (by simp [h])
      simpa [strcmp_loop, BitVec.toNat_eq] using hb
  | cons a s1 ih =>
    have ha : a ≠ 0 := fun h => h1 (by simp [h])
    cases s2 with
    | nil => simpa [strcmp_loop, BitVec.toNat_eq] using ha
    | cons b s2 =>
      simp only [List.mem_cons, not_or] at h1 h2
      by_cases hab : a = b
      · subst hab
        simp [strcmp_loop, show a ≠ 0#8 from ha, ih h1.2 h2.2]
      · have hr : (a.toNat : Int) - b.toNat ≠ 0 := by
          intro h
          exact hab (BitVec.eq_of_toNat_eq (by omega))
        simp [strcmp_loop, hr, hab]

/-- `__strcmp` gives 0 exactly for equal strings. -/
@[simp] theorem __strcmp.spec (s1 s2 : CString) : __strcmp s1 s2 = 0 ↔ s1 = s2 := by
  rw [__strcmp, strcmp_loop_eq_zero s1.no_nul s2.no_nul]
  exact ⟨CString.ext, fun h => h ▸ rfl⟩

/-! ## The tables of an object -/

/-- `Elf64_Dyn`. -/
structure Dyn where
  d_tag : Int
  d_un : BitVec 64
deriving DecidableEq, Repr

/-- `Elf64_Sym`, less `st_other`. -/
structure Sym where
  st_name : BitVec 32
  st_info : BitVec 8
  st_shndx : BitVec 16
  st_value : Addr
  st_size : BitVec 64
deriving DecidableEq, Repr

/-- `Elf64_Rela`. -/
structure Rela where
  r_offset : Addr
  r_info : BitVec 64
  r_addend : BitVec 64
deriving DecidableEq, Repr

/-- The tables that the dynamic section of an object points at. They lie in
its read-only segments, so no relocation changes them. `dynamic` holds the
entries before `DT_NULL`, and `hash` the words from `DT_HASH` on. -/
structure Image where
  dynamic : List Dyn
  strtab : List Byte
  symtab : List Sym
  hash : List (BitVec 32)
  rela : List Rela
  jmprel : List Rela

abbrev DT_NEEDED : Nat := 1
abbrev DT_PLTRELSZ : Nat := 2
abbrev DT_PLTGOT : Nat := 3
abbrev DT_HASH : Nat := 4
abbrev DT_STRTAB : Nat := 5
abbrev DT_SYMTAB : Nat := 6
abbrev DT_RELA : Nat := 7
abbrev DT_RELASZ : Nat := 8
abbrev DT_RELAENT : Nat := 9
abbrev DT_SYMENT : Nat := 11
abbrev DT_RPATH : Nat := 15
abbrev DT_PLTREL : Nat := 20
abbrev DT_JMPREL : Nat := 23
abbrev DT_NUM : Nat := 34
abbrev DT_AUXILIARY : Nat := 0x7ffffffd
abbrev DT_FILTER : Nat := 0x7fffffff

/-- `sizeof(Elf64_Rela)` and `sizeof(Elf64_Sym)`. -/
abbrev sizeofRela : Nat := 24
abbrev sizeofSym : Nat := 24

/-! ## How a run stops -/

/-- The functions that read `l_info`. -/
inductive Fn
  | parse_dynamic
  | check_dynamic_assert
  | lookup_symbol
  | map_object_deps
  | reloc_rela
  | relocate_object
  | got_fixup
deriving DecidableEq, Repr

/-- A signal, or an access outside the object that it is meant for. -/
inductive Fault
  /-- `D_PTR` or `D_VAL` of a tag that the object does not have. -/
  | nullInfo (fn : Fn) (tag : Nat)
  | nullPointer
  /-- A read past the end of a table. -/
  | outOfTable
  /-- A store to `l_info[tag]` with a negative tag. -/
  | infoIndex (tag : Int)
  /-- A store past the end of `GL(rpath)`. -/
  | rpathIndex
  | divideByZero
  /-- A load from a page that cannot be read. -/
  | badLoad
  /-- A store that the page does not allow. -/
  | badStore
deriving DecidableEq, Repr

/-- An exit that the loader chooses: `dprintf_die`, `dputs_die` or `assert`. -/
inductive Exit
  | assertion (cond : String)
  | auxiliaryNotSupported
  | filterNotSupported
  | libraryNotFound (soname : CString)
  | mallocFailed
  | symbolNotFound (name : CString)
  | unknownRelocType (type : Nat)
  | pltrelNotRela
  | unsupportedElfType (type : Nat)
  | readError
  | readFailed
  | mmapFailed
  | mmapZeroFillFailed
  | mprotectFailed
  | tlsNotImplemented
deriving DecidableEq

inductive Stop
  | exit (e : Exit)
  | fault (f : Fault)
  /-- A loop that never ends, or that did not end with the fuel given. -/
  | endless
deriving DecidableEq

/-- `assert(cond)`. -/
def assert (cond : Bool) (text : String) : Except Stop Unit :=
  if cond then .ok () else .error (.exit (.assertion text))

@[simp] theorem assert_eq_ok {cond : Bool} {text : String} {u : Unit} :
    assert cond text = .ok u ↔ cond = true := by
  cases cond <;> simp [assert]

/-- An assertion that a pointer is not NULL. -/
theorem assert_not_null {a : Addr} (h : a ≠ 0) {text : String} : assert (a != 0) text = .ok () :=
  assert_eq_ok.mpr (bne_iff_ne.mpr h)

/-- The computation stops in the ways `P` only. -/
def StopsIn {α : Type} (P : Stop → Prop) (x : Except Stop α) : Prop := ∀ e, x = .error e → P e

section

variable {α β : Type} {P : Stop → Prop}

theorem StopsIn.ok (a : α) : StopsIn P (.ok a : Except Stop α) := by
  intro e h
  cases h

theorem StopsIn.error {e : Stop} (he : P e) : StopsIn P (.error e : Except Stop α) := by
  intro e' h
  cases h
  exact he

theorem StopsIn.bind {x : Except Stop α} {f : α → Except Stop β} (hx : StopsIn P x)
    (hf : ∀ a, StopsIn P (f a)) : StopsIn P (x >>= f) := by
  intro e h
  rcases bind_eq_error.mp h with h | ⟨a, _, h⟩
  · exact hx e h
  · exact hf a e h

theorem StopsIn.ite {c : Prop} [Decidable c] {x y : Except Stop α} (hx : StopsIn P x)
    (hy : StopsIn P y) : StopsIn P (if c then x else y) := by
  split_ifs
  · exact hx
  · exact hy

end

/-- What comes after a computation that may have stopped. -/
def afterwards {α β : Type} (x : Except Stop α) (f : α → List β) : List β :=
  match x with
  | .ok a => f a
  | .error _ => []

/-! ## The link map -/

/-- A `struct link_map *` that is not NULL. -/
abbrev Ptr := Nat

/-- `struct r_scope_elem`. A slot that no one has written is `none`. -/
structure Scope where
  r_list : List (Option Ptr)
  r_nlist : Nat

/-- `struct link_map`, with the tables that it points at in `image` and the
address of the struct itself in `self`. `l_buckets` and `l_chain` are places
in the words of the hash table. -/
structure LinkMap where
  l_addr : Addr
  l_name : Option CString
  l_ld : Addr
  l_next : Option Ptr
  l_prev : Option Ptr
  l_phdr : Addr
  l_entry : Addr
  l_phnum : BitVec 16
  l_ldnum : BitVec 16
  l_map_start : Addr
  l_map_end : Addr
  l_text_end : Addr
  l_info : Nat → Option Dyn
  l_searchlist : Scope
  l_relocated : Bool
  l_contiguous : Bool
  l_reserved : BitVec 2
  l_relro_addr : Addr
  l_relro_size : BitVec 64
  l_nbuckets : BitVec 32
  l_buckets : Option Nat
  l_chain : Option Nat
  image : Image
  self : Addr

def init_link_map (self : Addr) (image : Image) : LinkMap where
  l_addr := 0
  l_name := none
  l_ld := 0
  l_next := none
  l_prev := none
  l_phdr := 0
  l_entry := 0
  l_phnum := 0
  l_ldnum := 0
  l_map_start := BitVec.allOnes 64
  l_map_end := 0
  l_text_end := 0
  l_info := fun _ => none
  l_searchlist := { r_list := [], r_nlist := 0 }
  l_relocated := false
  l_contiguous := false
  l_reserved := 0
  l_relro_addr := 0
  l_relro_size := 0
  l_nbuckets := 0
  l_buckets := none
  l_chain := none
  image
  self

/-- `D_PTR(map, i)`. -/
def D_PTR (fn : Fn) (map : LinkMap) (i : Nat) : Except Stop Addr :=
  match map.l_info i with
  | some d => .ok (d.d_un + map.l_addr)
  | none => .error (.fault (.nullInfo fn i))

/-- `D_VAL(map, i)`. -/
def D_VAL (fn : Fn) (map : LinkMap) (i : Nat) : Except Stop (BitVec 64) :=
  match map.l_info i with
  | some d => .ok d.d_un
  | none => .error (.fault (.nullInfo fn i))

/-- `D_VALID(map, i)`. -/
def D_VALID (map : LinkMap) (i : Nat) : Bool := (map.l_info i).isSome

theorem D_PTR_eq_ok {fn : Fn} {map : LinkMap} {i : Nat} {a : Addr} :
    D_PTR fn map i = .ok a ↔ ∃ d, map.l_info i = some d ∧ a = d.d_un + map.l_addr := by
  unfold D_PTR
  cases map.l_info i <;> simp [eq_comm]

theorem D_VAL_eq_ok {fn : Fn} {map : LinkMap} {i : Nat} {a : BitVec 64} :
    D_VAL fn map i = .ok a ↔ ∃ d, map.l_info i = some d ∧ a = d.d_un := by
  unfold D_VAL
  cases map.l_info i <;> simp [eq_comm]

/-! ## The globals -/

/-- The address space of the process, and the number of kernel calls on it so far. -/
structure Proc where
  space : Space
  calls : Nat

/-- The state of the loader: `_rtld_global`, `_rtld_global_ro`, every
`link_map` made so far, and the process. -/
structure Rtld where
  _dl_pagesize : Addr
  _dl_stack_flags : BitVec 32
  _namespace : Option Ptr
  _rpath : List CString
  maps : List LinkMap
  proc : Proc

/-- The bytes in memory. -/
abbrev Rtld.mem (w : Rtld) : Bytes := w.proc.space.byte

/-- `*p` for a pointer to a `link_map`. -/
def Rtld.deref (w : Rtld) (p : Ptr) : Except Stop LinkMap :=
  match w.maps[p]? with
  | some l => .ok l
  | none => .error (.fault .nullPointer)

@[simp] theorem Rtld.deref_eq_ok {w : Rtld} {p : Ptr} {l : LinkMap} :
    w.deref p = .ok l ↔ w.maps[p]? = some l := by
  unfold Rtld.deref
  cases w.maps[p]? <;> simp

/-- `*p = l`. -/
def Rtld.put (w : Rtld) (p : Ptr) (l : LinkMap) : Rtld := { w with maps := w.maps.set p l }

/-- A process with nothing mapped. -/
def emptyProc : Proc where
  space := { byte := fun _ => 0, prot := fun _ => none, backed := fun _ => false }
  calls := 0

/-- An object with no tables. -/
def emptyImage : Image where
  dynamic := []
  strtab := []
  symtab := []
  hash := []
  rela := []
  jmprel := []

/-! ## Linked lists of maps -/

/-- The objects from `o` along `l_next` to NULL are `ps`. -/
def Linked (maps : List LinkMap) : Option Ptr → List Ptr → Prop
  | o, [] => o = none
  | o, p :: ps => o = some p ∧ ∃ l, maps[p]? = some l ∧ Linked maps l.l_next ps

/-- As `Linked`, and the `l_prev` of each object is the object before it. -/
def DLinked (maps : List LinkMap) : Option Ptr → Option Ptr → List Ptr → Prop
  | _, o, [] => o = none
  | prev, o, p :: ps => o = some p ∧
      ∃ l, maps[p]? = some l ∧ l.l_prev = prev ∧ DLinked maps (some p) l.l_next ps

/-- The objects from `o` along `l_prev` to NULL are `ps`. -/
def PrevLinked (maps : List LinkMap) : Option Ptr → List Ptr → Prop
  | o, [] => o = none
  | o, p :: ps => o = some p ∧ ∃ l, maps[p]? = some l ∧ PrevLinked maps l.l_prev ps

theorem DLinked.linked {maps : List LinkMap} {ps : List Ptr} {prev o : Option Ptr}
    (h : DLinked maps prev o ps) : Linked maps o ps := by
  induction ps generalizing prev o with
  | nil => exact h
  | cons p ps ih =>
    obtain ⟨ho, l, hl, _, hrest⟩ := h
    exact ⟨ho, l, hl, ih hrest⟩

/-- A doubly linked list read backwards. -/
theorem DLinked.prevLinked {maps : List LinkMap} {ps acc : List Ptr} {prev o : Option Ptr}
    (h : DLinked maps prev o ps) (hacc : PrevLinked maps prev acc) :
    PrevLinked maps (ps.getLast?.or prev) (ps.reverse ++ acc) := by
  induction ps generalizing prev o acc with
  | nil => exact hacc
  | cons p ps ih =>
    obtain ⟨_, l, hl, rfl, hrest⟩ := h
    have hacc' : PrevLinked maps (some p) (p :: acc) := ⟨rfl, l, hl, hacc⟩
    have hstep := ih hrest hacc'
    have hlast : (p :: ps).getLast?.or l.l_prev = ps.getLast?.or (some p) := by
      cases ps with
      | nil => rfl
      | cons q qs => simp [List.getLast?_cons]
    rw [hlast, List.reverse_cons, List.append_assoc]
    exact hstep

theorem Linked.mem_maps {maps : List LinkMap} {ps : List Ptr} {o : Option Ptr}
    (h : Linked maps o ps) {p : Ptr} (hp : p ∈ ps) : ∃ l, maps[p]? = some l := by
  induction ps generalizing o with
  | nil => cases hp
  | cons q ps ih =>
    obtain ⟨_, l, hl, hrest⟩ := h
    rcases List.mem_cons.mp hp with rfl | hp
    · exact ⟨l, hl⟩
    · exact ih hrest hp

/-- A pointer starts one list at most. -/
theorem Linked.unique {maps : List LinkMap} {ps qs : List Ptr} {o : Option Ptr}
    (h : Linked maps o ps) (h' : Linked maps o qs) : ps = qs := by
  induction ps generalizing o qs with
  | nil =>
    cases qs with
    | nil => rfl
    | cons q qs =>
      rw [Linked] at h
      rw [h] at h'
      cases h'.1
  | cons p ps ih =>
    obtain ⟨ho, l, hl, hrest⟩ := h
    cases qs with
    | nil =>
      rw [Linked, ho] at h'
      cases h'
    | cons q qs =>
      obtain ⟨ho', l', hl', hrest'⟩ := h'
      rw [ho] at ho'
      cases ho'
      rw [hl] at hl'
      cases hl'
      rw [ih hrest hrest']

/-- A list that ends in NULL holds no object twice. -/
theorem Linked.nodup {maps : List LinkMap} {ps : List Ptr} {o : Option Ptr}
    (h : Linked maps o ps) : ps.Nodup := by
  induction ps generalizing o with
  | nil => exact List.nodup_nil
  | cons p ps ih =>
    obtain ⟨ho, l, hl, hrest⟩ := h
    refine List.nodup_cons.mpr ⟨?_, ih hrest⟩
    intro hp
    -- The list after a second `p` would be the list after the first one.
    obtain ⟨pre, post, rfl⟩ := List.append_of_mem hp
    have hsuffix : ∀ (pre : List Ptr) (o : Option Ptr),
        Linked maps o (pre ++ p :: post) → Linked maps (some p) (p :: post) := by
      intro pre
      induction pre with
      | nil =>
        intro o ho
        exact ⟨rfl, ho.2⟩
      | cons q pre ihp =>
        rintro o ⟨_, l', _, hrest'⟩
        exact ihp _ hrest'
    have hlong : Linked maps (some p) (p :: (pre ++ p :: post)) := ⟨rfl, l, hl, hrest⟩
    have heq := congrArg List.length ((hsuffix pre _ hrest).unique hlong)
    simp at heq
    omega

/-- Distinct places in a list are no more than the list is long. -/
theorem Linked.length_le {maps : List LinkMap} {ps : List Ptr} {o : Option Ptr}
    (h : Linked maps o ps) : ps.length ≤ maps.length := by
  have hsub : ps ⊆ List.range maps.length := by
    intro p hp
    obtain ⟨l, hl⟩ := h.mem_maps hp
    exact List.mem_range.mpr (List.getElem?_eq_some_iff.mp hl).1
  simpa using (h.nodup.subperm hsub).length_le

end elf_loader
