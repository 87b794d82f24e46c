-- The dynamic section of an object (`parse_dynamic` and
-- `check_dynamic_assert` of rtld/load.c): the index of the entries by tag,
-- the search paths, the hash table, and the checks at the end.
import BinaryLab.LinkMap
import Mathlib.Logic.Function.Basic

open binary_lab.runs binary_lab.words

namespace elf_loader.load

abbrev MAX_PATH : Nat := 10

/-! ## The checks -/

def check_needed (l : LinkMap) : Except Stop Unit :=
  if D_VALID l DT_NEEDED then assert (D_VALID l DT_SYMTAB) "l->l_info[DT_SYMTAB] != NULL"
  else .ok ()

/-- `if (D_PTR(l, DT_RELAENT)) assert(...)`, with no `D_VALID` before it. -/
def check_relaent (l : LinkMap) : Except Stop Unit := do
  let relaent ← D_PTR .check_dynamic_assert l DT_RELAENT
  if relaent = 0 then .ok ()
  else
    let size ← D_VAL .check_dynamic_assert l DT_RELAENT
    assert (size.toNat == sizeofRela) "D_VAL(l, DT_RELAENT) == sizeof(ElfW(Rela))"

def check_rela (l : LinkMap) : Except Stop Unit :=
  if D_VALID l DT_RELA then do
    check_relaent l
    assert (D_VALID l DT_RELASZ) "D_VALID(l, DT_RELASZ)"
    assert (D_VALID l DT_SYMTAB) "D_VALID(l, DT_SYMTAB)"
    assert (D_VALID l DT_STRTAB) "D_VALID(l, DT_STRTAB)"
  else .ok ()

def check_pltgot (l : LinkMap) : Except Stop Unit :=
  if D_VALID l DT_PLTGOT then do
    -- `DT_PLTREL` is asked for twice, and `DT_JMPREL` not at all.
    assert (D_VALID l DT_PLTREL) "D_VALID(l, DT_PLTREL)"
    assert (D_VALID l DT_PLTRELSZ) "D_VALID(l, DT_PLTRELSZ)"
    assert (D_VALID l DT_PLTREL) "D_VALID(l, DT_PLTREL)"
    let pltrel ← D_VAL .check_dynamic_assert l DT_PLTREL
    assert (pltrel.toNat == DT_RELA) "D_VAL(l, DT_PLTREL) == DT_RELA"
  else .ok ()

def check_syment (l : LinkMap) : Except Stop Unit :=
  if D_VALID l DT_SYMENT then do
    let syment ← D_VAL .check_dynamic_assert l DT_SYMENT
    assert (syment.toNat == sizeofSym) "D_VAL(l, DT_SYMENT) == sizeof(ElfW(Sym))"
  else .ok ()

def check_hash (l : LinkMap) : Except Stop Unit :=
  if D_VALID l DT_HASH then do
    assert l.l_buckets.isSome "l->l_buckets != NULL"
    assert l.l_chain.isSome "l->l_chain != NULL"
  else .ok ()

def check_dynamic_assert (l : LinkMap) : Except Stop Unit := do
  check_needed l
  check_rela l
  check_pltgot l
  check_syment l
  check_hash l

/-! ## The parser -/

/-- The body of the loop that indexes the entries. -/
def index_entry (map : LinkMap) (dyn : Dyn) : Except Stop LinkMap := do
  let map ←
    if dyn.d_tag < DT_NUM then
      if dyn.d_tag < 0 then .error (.fault (.infoIndex dyn.d_tag))
      else .ok { map with l_info := Function.update map.l_info dyn.d_tag.toNat (some dyn) }
    else .ok map
  if dyn.d_tag = DT_AUXILIARY then .error (.exit .auxiliaryNotSupported)
  else if dyn.d_tag = DT_FILTER then .error (.exit .filterNotSupported)
  else .ok map

def index_dynamic (map : LinkMap) : List Dyn → Except Stop LinkMap
  | [] => .ok map
  | dyn :: dyns => do index_dynamic (← index_entry map dyn) dyns

/-- The NUL of a copy by `__strdup` is in the block of the copy: a block has
whole words of 8 bytes, and 16 bytes at least. -/
def Held (s : CString) : Prop := s.bytes.length < 16 ∨ s.bytes.length % 8 ≠ 0

instance (s : CString) : Decidable (Held s) := inferInstanceAs (Decidable (_ ∨ _))

/-- The string with the low byte of the size of a block of 24 bytes in the
place of its NUL. -/
def overwritten (s : CString) : CString where
  bytes := s.bytes ++ [24]
  no_nul := by
    intro h
    rcases List.mem_append.mp h with h | h
    · exact s.no_nul h
    · exact absurd (List.mem_singleton.mp h) (by decide)

/-- What the string in a slot of a table of search paths reads as. The strings
are copies by `__strdup`, and the NUL of a copy may be lost. -/
abbrev Reads := List CString → Nat → CString → CString

/-- The search paths as they are read. -/
def read_rpath (reads : Reads) (rpath : List CString) : List CString :=
  rpath.mapIdx (reads rpath)

/-- One search path more, at the end and only if it is new. The path goes to
slot `rpath.length` and the NULL behind it to the next one. For an empty path
`malloc` gives NULL, and `emalloc` exits. -/
def add_rpath (reads : Reads) (rpath : List CString) (newpath : CString) :
    Except Stop (List CString) :=
  if (read_rpath reads rpath).any fun r => __strcmp r newpath == 0 then .ok rpath
  else if newpath.bytes = [] then .error (.exit .mallocFailed)
  else if rpath.length + 1 < MAX_PATH + 1 then .ok (rpath ++ [newpath])
  else .error (.fault .rpathIndex)

/-- The body of the loop over the `DT_RPATH` entries. -/
def add_rpath_entry (reads : Reads) (strtab : Addr) (tab : List Byte) (rpath : List CString)
    (dyn : Dyn) : Except Stop (List CString) :=
  if dyn.d_tag ≠ DT_RPATH then .ok rpath
  else do
    assert (strtab != 0) "strtab != NULL"
    add_rpath reads rpath (strAt tab dyn.d_un.toNat)

def add_rpaths (reads : Reads) (strtab : Addr) (tab : List Byte) (rpath : List CString) :
    List Dyn → Except Stop (List CString)
  | [] => .ok rpath
  | dyn :: dyns => do
    add_rpaths reads strtab tab (← add_rpath_entry reads strtab tab rpath dyn) dyns

/-- The set-up of the hash table: the number of buckets, the number of chain
entries, the buckets, the chain. -/
def setup_hash (map : LinkMap) : Except Stop LinkMap :=
  if (map.l_info DT_HASH).isSome then do
    let _ ← D_PTR .parse_dynamic map DT_HASH
    match map.image.hash with
    | nbuckets :: _nchain :: _ =>
      .ok { map with
        l_nbuckets := nbuckets
        l_buckets := some 2
        l_chain := some (2 + nbuckets.toNat) }
    | _ => .error (.fault .outOfTable)
  else .ok map

/-- `parse_dynamic`, on the search paths so far. -/
def parse_dynamic (reads : Reads) (rpath : List CString) (map : LinkMap) :
    Except Stop (LinkMap × List CString) := do
  assert (map.l_ld != 0) "map->l_ld != NULL"
  let map ← index_dynamic map map.image.dynamic
  let strtab ← D_PTR .parse_dynamic map DT_STRTAB
  let rpath ← add_rpaths reads strtab map.image.strtab rpath map.image.dynamic
  let map ← setup_hash map
  check_dynamic_assert map
  .ok (map, rpath)

/-! ## The specs -/

/-- The last entry with tag `i`. -/
def lastEntry (dyns : List Dyn) (i : Nat) : Option Dyn :=
  dyns.reverse.find? fun d => d.d_tag = i

/-- `l_info` after the entries are indexed. -/
def indexed (info : Nat → Option Dyn) (dyns : List Dyn) (i : Nat) : Option Dyn :=
  if i < DT_NUM then (lastEntry dyns i).or (info i) else info i

theorem index_entry_ok {map map' : LinkMap} {dyn : Dyn} (h : index_entry map dyn = .ok map') :
    map' = { map with l_info := indexed map.l_info [dyn] } := by
  have hinfo : ∀ i, indexed map.l_info [dyn] i =
      if i < DT_NUM ∧ dyn.d_tag = i then some dyn else map.l_info i := by
    intro i
    unfold indexed lastEntry
    by_cases h1 : i < DT_NUM <;> by_cases h2 : dyn.d_tag = i <;> simp [h1, h2]
  unfold index_entry at h
  by_cases hlt : dyn.d_tag < DT_NUM
  · by_cases hneg : dyn.d_tag < 0
    · simp only [hlt, hneg, if_true, bind, Except.bind] at h
      cases h
    · simp only [hlt, hneg, if_true, if_false, bind, Except.bind] at h
      have heq : indexed map.l_info [dyn] =
          Function.update map.l_info dyn.d_tag.toNat (some dyn) := by
        funext i
        rw [hinfo, Function.update_apply]
        by_cases hi : i = dyn.d_tag.toNat
        · rw [if_pos ⟨by omega, by omega⟩, if_pos hi]
        · rw [if_neg (by omega), if_neg hi]
      split_ifs at h
      cases h
      rw [heq]
  · simp only [hlt, if_false, bind, Except.bind] at h
    have heq : indexed map.l_info [dyn] = map.l_info := by
      funext i
      rw [hinfo, if_neg (by omega)]
    split_ifs at h
    cases h
    rw [heq]

theorem indexed_cons (info : Nat → Option Dyn) (dyn : Dyn) (dyns : List Dyn) :
    indexed info (dyn :: dyns) = indexed (indexed info [dyn]) dyns := by
  funext i
  unfold indexed lastEntry
  by_cases hi : i < DT_NUM
  · simp only [hi, if_true, List.reverse_cons, List.reverse_nil, List.nil_append,
      List.find?_append, Option.or_assoc]
  · simp [hi]

theorem index_dynamic_ok {map map' : LinkMap} {dyns : List Dyn}
    (h : index_dynamic map dyns = .ok map') :
    map' = { map with l_info := indexed map.l_info dyns } := by
  induction dyns generalizing map with
  | nil =>
    cases h
    have : indexed map'.l_info [] = map'.l_info := by
      funext i
      simp [indexed, lastEntry]
    rw [this]
  | cons dyn dyns ih =>
    rw [index_dynamic, bind_eq_ok] at h
    obtain ⟨map1, h1, h2⟩ := h
    rw [ih h2, index_entry_ok h1, indexed_cons map.l_info dyn dyns]

/-- The loop that indexes the entries takes this one. -/
def Indexable (dyn : Dyn) : Prop :=
  0 ≤ dyn.d_tag ∧ dyn.d_tag ≠ DT_AUXILIARY ∧ dyn.d_tag ≠ DT_FILTER

instance (dyn : Dyn) : Decidable (Indexable dyn) := inferInstanceAs (Decidable (_ ∧ _))

theorem index_dynamic_eq {dyns : List Dyn} (map : LinkMap) (h : ∀ dyn ∈ dyns, Indexable dyn) :
    index_dynamic map dyns = .ok { map with l_info := indexed map.l_info dyns } := by
  suffices hok : ∃ map', index_dynamic map dyns = .ok map' by
    obtain ⟨map', hmap⟩ := hok
    rw [hmap, index_dynamic_ok hmap]
  induction dyns generalizing map with
  | nil => exact ⟨map, rfl⟩
  | cons dyn dyns ih =>
    obtain ⟨hpos, haux, hfilter⟩ := h dyn List.mem_cons_self
    obtain ⟨map1, h1⟩ : ∃ map1, index_entry map dyn = .ok map1 := by
      unfold index_entry
      by_cases hlt : dyn.d_tag < DT_NUM
      · simp only [if_pos hlt, if_neg (Int.not_lt.mpr hpos), bind, Except.bind, if_neg haux,
          if_neg hfilter]
        exact ⟨_, rfl⟩
      · simp only [if_neg hlt, bind, Except.bind, if_neg haux, if_neg hfilter]
        exact ⟨_, rfl⟩
    simp only [index_dynamic, h1, bind, Except.bind]
    exact ih map1 fun d hd => h d (List.mem_cons_of_mem _ hd)

/-- Every string of the table reads as it is. -/
def Exact (reads : Reads) (rpath : List CString) : Prop := read_rpath reads rpath = rpath

/-- Every string reads as it was copied. -/
def asCopied : Reads := fun _ _ s => s

theorem asCopied_exact (rpath : List CString) : Exact asCopied rpath :=
  List.mapIdx_eq_iff.mpr fun i => by rw [show asCopied rpath i = id from rfl, Option.map_id, id]

/-- What is read is what was copied, if the NUL of the copy is in its block. -/
def KeepsHeld (reads : Reads) : Prop := ∀ rpath i s, Held s → reads rpath i s = s

theorem KeepsHeld.exact {reads : Reads} (h : KeepsHeld reads) {rpath : List CString}
    (hheld : ∀ s ∈ rpath, Held s) : Exact reads rpath := by
  unfold Exact read_rpath
  apply List.ext_getElem
  · rw [List.length_mapIdx]
  · intro i h1 h2
    rw [List.getElem_mapIdx]
    exact h _ _ _ (hheld _ (List.getElem_mem h2))

section

variable {reads : Reads} {strtab : Addr} {tab : List Byte} {rpath rpath' : List CString}

/-- Without `DT_RPATH` the search paths stay as they are. -/
theorem add_rpaths_none {dyns : List Dyn} (h : ∀ dyn ∈ dyns, dyn.d_tag ≠ DT_RPATH) :
    add_rpaths reads strtab tab rpath dyns = .ok rpath := by
  induction dyns with
  | nil => rfl
  | cons dyn dyns ih =>
    simp only [add_rpaths, add_rpath_entry, if_pos (h dyn List.mem_cons_self), bind, Except.bind]
    exact ih fun d hd => h d (List.mem_cons_of_mem _ hd)

/-- What `add_rpath` can do with a path. -/
theorem add_rpath_ok {newpath : CString} (h : add_rpath reads rpath newpath = .ok rpath') :
    (newpath ∈ read_rpath reads rpath ∧ rpath' = rpath) ∨
      (newpath ∉ read_rpath reads rpath ∧ rpath' = rpath ++ [newpath]) := by
  have hany : ((read_rpath reads rpath).any fun r => __strcmp r newpath == 0) = true ↔
      newpath ∈ read_rpath reads rpath := by simp
  unfold add_rpath at h
  by_cases hmem : newpath ∈ read_rpath reads rpath
  · rw [if_pos (hany.mpr hmem)] at h
    cases h
    exact .inl ⟨hmem, rfl⟩
  · rw [if_neg (mt hany.mp hmem)] at h
    split_ifs at h
    cases h
    exact .inr ⟨hmem, rfl⟩

theorem add_rpath_grows {newpath : CString} (h : add_rpath reads rpath newpath = .ok rpath') :
    rpath <+: rpath' := by
  rcases add_rpath_ok h with ⟨_, rfl⟩ | ⟨_, rfl⟩
  · exact List.prefix_rfl
  · exact List.prefix_append _ _

/-- The search paths only grow at the end. -/
theorem add_rpaths_ok {dyns : List Dyn} (h : add_rpaths reads strtab tab rpath dyns = .ok rpath') :
    rpath <+: rpath' := by
  induction dyns generalizing rpath with
  | nil =>
    cases h
    exact List.prefix_rfl
  | cons dyn dyns ih =>
    rw [add_rpaths, bind_eq_ok] at h
    obtain ⟨rpath1, h1, h2⟩ := h
    refine List.IsPrefix.trans ?_ (ih h2)
    unfold add_rpath_entry at h1
    split_ifs at h1 with htag
    · cases h1
      exact List.prefix_rfl
    · rw [bind_eq_ok] at h1
      obtain ⟨_, _, h1⟩ := h1
      exact add_rpath_grows h1

end

/-- The hash table of the object is ready for a lookup. -/
def HashReady (l : LinkMap) : Prop :=
  ∃ nbuckets nchain words, l.image.hash = nbuckets :: nchain :: words ∧
    l.l_nbuckets = nbuckets ∧ l.l_buckets = some 2 ∧ l.l_chain = some (2 + nbuckets.toNat)

theorem setup_hash_ok {map map' : LinkMap} (h : setup_hash map = .ok map') :
    (map' = { map with
        l_nbuckets := map'.l_nbuckets, l_buckets := map'.l_buckets, l_chain := map'.l_chain }) ∧
      ((map.l_info DT_HASH).isSome → HashReady map') := by
  unfold setup_hash at h
  split_ifs at h with hh
  · rw [bind_eq_ok] at h
    obtain ⟨_, _, h⟩ := h
    split at h
    · rename_i nbuckets nchain words heq
      cases h
      exact ⟨rfl, fun _ => ⟨nbuckets, nchain, words, heq, rfl, rfl, rfl⟩⟩
    · cases h
  · cases h
    exact ⟨rfl, fun hs => absurd hs hh⟩

/-- What a parse leaves: the tags, the hash table and the search paths are
set, and every other field of the map keeps its value. -/
structure Parsed (rpath : List CString) (map map' : LinkMap) (rpath' : List CString) : Prop where
  frame : map' = { map with
    l_info := indexed map.l_info map.image.dynamic
    l_nbuckets := map'.l_nbuckets
    l_buckets := map'.l_buckets
    l_chain := map'.l_chain }
  grows : rpath <+: rpath'
  strtab : (map'.l_info DT_STRTAB).isSome
  hash : (map'.l_info DT_HASH).isSome → HashReady map'
  checked : check_dynamic_assert map' = .ok ()

theorem parse_dynamic.spec {reads : Reads} {rpath rpath' : List CString} {map map' : LinkMap}
    (h : parse_dynamic reads rpath map = .ok (map', rpath')) : Parsed rpath map map' rpath' := by
  unfold parse_dynamic at h
  simp only [bind_eq_ok] at h
  obtain ⟨_, _, map1, h1, strtab, h2, rpath1, h3, map2, h4, ⟨⟩, h5, h6⟩ := h
  simp only [Except.ok.injEq, Prod.mk.injEq] at h6
  obtain ⟨rfl, rfl⟩ := h6
  obtain ⟨hframe, hready⟩ := setup_hash_ok h4
  rw [index_dynamic_ok h1] at hframe hready h2 h3
  obtain ⟨d, hd, _⟩ := D_PTR_eq_ok.mp h2
  have hinfo : map2.l_info = indexed map.l_info map.image.dynamic := by rw [hframe]
  refine ⟨hframe, add_rpaths_ok h3, ?_, ?_, h5⟩
  · rw [hinfo]
    simp only at hd
    rw [hd]
    rfl
  · intro hs
    apply hready
    rw [hinfo] at hs
    exact hs

/-! ## How the parser stops -/

/-- The stops of the parser, less a store outside the search paths. -/
structure ParserStops (P : Stop → Prop) : Prop where
  assertion : ∀ text, P (.exit (.assertion text))
  malloc : P (.exit .mallocFailed)
  auxiliary : P (.exit .auxiliaryNotSupported)
  filter : P (.exit .filterNotSupported)
  info : ∀ fn i, P (.fault (.nullInfo fn i))
  index : ∀ tag, P (.fault (.infoIndex tag))
  table : P (.fault .outOfTable)

/-- The stops of the checks, and of the set-up of the hash table. -/
structure ChecksStop (P : Stop → Prop) : Prop where
  assertion : ∀ text, P (.exit (.assertion text))
  info : ∀ fn i, P (.fault (.nullInfo fn i))
  table : P (.fault .outOfTable)

theorem ParserStops.checks {P : Stop → Prop} (h : ParserStops P) : ChecksStop P :=
  ⟨h.assertion, h.info, h.table⟩

section

variable {P : Stop → Prop} (hP : ChecksStop P)

include hP

theorem assert_stops (cond : Bool) (text : String) : StopsIn P (assert cond text) :=
  .ite (.ok ()) (.error (hP.assertion text))

theorem D_PTR_stops (fn : Fn) (l : LinkMap) (i : Nat) : StopsIn P (D_PTR fn l i) := by
  unfold D_PTR
  cases l.l_info i with
  | none => exact .error (hP.info fn i)
  | some d => exact .ok _

theorem D_VAL_stops (fn : Fn) (l : LinkMap) (i : Nat) : StopsIn P (D_VAL fn l i) := by
  unfold D_VAL
  cases l.l_info i with
  | none => exact .error (hP.info fn i)
  | some d => exact .ok _

theorem check_dynamic_assert_stops (l : LinkMap) : StopsIn P (check_dynamic_assert l) := by
  have hassert := assert_stops hP
  have hrelaent : StopsIn P (check_relaent l) :=
    .bind (D_PTR_stops hP _ _ _) fun _ => .ite (.ok _)
      (.bind (D_VAL_stops hP _ _ _) fun _ => hassert _ _)
  refine .bind (.ite (hassert _ _) (.ok _)) fun _ => .bind (.ite ?_ (.ok _)) fun _ =>
    .bind (.ite ?_ (.ok _)) fun _ => .bind (.ite ?_ (.ok _)) fun _ => .ite ?_ (.ok _)
  · exact hrelaent.bind fun _ => (hassert _ _).bind fun _ => (hassert _ _).bind fun _ => hassert _ _
  · exact (hassert _ _).bind fun _ => (hassert _ _).bind fun _ => (hassert _ _).bind fun _ =>
      (D_VAL_stops hP _ _ _).bind fun _ => hassert _ _
  · exact (D_VAL_stops hP _ _ _).bind fun _ => hassert _ _
  · exact (hassert _ _).bind fun _ => hassert _ _

theorem setup_hash_stops (map : LinkMap) : StopsIn P (setup_hash map) := by
  refine .ite (.bind (D_PTR_stops hP _ _ _) fun _ => ?_) (.ok _)
  split
  · exact .ok _
  · exact .error hP.table

end

section

variable {P : Stop → Prop} (hP : ParserStops P)

include hP

theorem index_entry_stops (map : LinkMap) (dyn : Dyn) : StopsIn P (index_entry map dyn) := by
  have hrest : ∀ map : LinkMap, StopsIn P
      (if dyn.d_tag = DT_AUXILIARY then .error (.exit .auxiliaryNotSupported)
      else if dyn.d_tag = DT_FILTER then .error (.exit .filterNotSupported) else .ok map) :=
    fun map => .ite (.error hP.auxiliary) (.ite (.error hP.filter) (.ok map))
  unfold index_entry
  exact .ite (.ite (.bind (.error (hP.index _)) hrest) (.bind (.ok _) hrest)) (.bind (.ok _) hrest)

theorem index_dynamic_stops (map : LinkMap) (dyns : List Dyn) :
    StopsIn P (index_dynamic map dyns) := by
  induction dyns generalizing map with
  | nil => exact .ok map
  | cons dyn dyns ih => exact (index_entry_stops hP map dyn).bind ih

theorem add_rpaths_stops (hrpath : P (.fault .rpathIndex)) (reads : Reads) (strtab : Addr)
    (tab : List Byte) (rpath : List CString) (dyns : List Dyn) :
    StopsIn P (add_rpaths reads strtab tab rpath dyns) := by
  induction dyns generalizing rpath with
  | nil => exact .ok rpath
  | cons dyn dyns ih =>
    refine .bind (.ite (.ok _) (.bind (assert_stops hP.checks _ _) fun _ => ?_)) ih
    exact .ite (.ok _) (.ite (.error hP.malloc) (.ite (.ok _) (.error hrpath)))

theorem parse_dynamic_stops (hrpath : P (.fault .rpathIndex)) (reads : Reads)
    (rpath : List CString) (map : LinkMap) : StopsIn P (parse_dynamic reads rpath map) :=
  (assert_stops hP.checks _ _).bind fun _ => (index_dynamic_stops hP _ _).bind fun _ =>
    (D_PTR_stops hP.checks _ _ _).bind fun _ => (add_rpaths_stops hP hrpath _ _ _ _ _).bind fun _ =>
      (setup_hash_stops hP.checks _).bind fun _ =>
        (check_dynamic_assert_stops hP.checks _).bind fun _ => .ok _

end

end elf_loader.load
