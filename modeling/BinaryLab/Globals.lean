-- One address per global variable. After `reloc_all` the `GLOB_DAT` slots of
-- a name hold one address in all objects. A copy relocation of the executable
-- makes its own slot that address, and fills it from the object that defines
-- the variable, which has been relocated before.
import BinaryLab.RelocRun

open binary_lab.runs binary_lab.words

namespace elf_loader.reloc

open lookup

/-- The entry relocates the object at `p` by the type and the name. -/
def HasEntry (w : Rtld) (p : Ptr) (type : Nat) (name : CString) (l : LinkMap) (rela : Rela) :
    Prop :=
  w.maps[p]? = some l ∧ rela ∈ entries l ∧ R_TYPE rela.r_info = type ∧
    entryName l rela = some name

/-- A namespace before `reloc_all`, with hash tables as the linker makes them. -/
structure ReadyNamespace (w : Rtld) (ps : List Ptr) : Prop extends Unrelocated w ps where
  searchable : ∀ p ∈ ps, ∀ l, w.maps[p]? = some l → Searchable l

/-- A `GLOB_DAT` slot that held 0 holds the address of the definition that
the lookup finds. -/
theorem ReadyNamespace.glob_dat {runtime_resolve : Addr} {w w' : Rtld} {ps : List Ptr}
    (h : ReadyNamespace w ps) (hrun : reloc_all runtime_resolve w = .ok w') {p : Ptr} (hp : p ∈ ps)
    {name : CString} {l : LinkMap} {rela : Rela}
    (hentry : HasEntry w p R_X86_64_GLOB_DAT name l rela)
    (hzero : read64 w.mem (target l rela) = 0) :
    ∃ addr, Resolves w none name addr ∧ read64 w'.mem (target l rela) = addr := by
  obtain ⟨hl, hrela, htype, hname⟩ := hentry
  obtain ⟨u, mem, hu, hold, hnew⟩ := h.read64_entry hrun hp hl hrela
  cases hu with
  | relative _ ht => rw [htype] at ht; cases ht
  | jumpSlot _ ht => rw [htype] at ht; cases ht
  | copy _ ht => rw [htype] at ht; cases ht
  | @symbol name' addr hname' _ hres =>
    rw [hname] at hname'
    cases hname'
    refine ⟨addr, hres, ?_⟩
    rw [hnew]
    simp only
    rw [hold, hzero]
    exact BitVec.zero_add addr

/-- The lookup finds the definition of the first object, if it has one. -/
theorem resolves_first {w : Rtld} {exe : Ptr} {rest : List Ptr}
    (hlink : Linked w.maps w._namespace (exe :: rest))
    (hs : ∀ p ∈ exe :: rest, ∀ l, w.maps[p]? = some l → Searchable l) {l : LinkMap}
    (hl : w.maps[exe]? = some l) {name : CString} (hdef : ∃ sym, Defines l name sym)
    {addr : Addr} (h : Resolves w none name addr) :
    ∃ sym, Defines l name sym ∧ addr = l.l_addr + sym.st_value := by
  obtain ⟨v, m, hv, hm, rfl⟩ := h
  obtain ⟨r, hr, hsome, _⟩ := lookup_symbol.spec w none name (exe :: rest) hlink hs
  rw [hv] at hr
  cases hr
  obtain ⟨pre, post, hsplit, _, ⟨l', hl', hdef'⟩, hpre⟩ := hsome v rfl
  cases pre with
  | nil =>
    rw [List.nil_append, List.cons.injEq] at hsplit
    rw [← hsplit.1, hl] at hl' hm
    cases hl'
    cases hm
    exact ⟨v.s, hdef', rfl⟩
  | cons q pre =>
    rw [List.cons_append, List.cons.injEq] at hsplit
    obtain ⟨sym, hsym⟩ := hdef
    refine absurd ⟨l, sym, hl, hsym⟩ (hpre exe ?_ (by simp))
    simp [hsplit.1]

/-- The dynamic symbol of the executable for the name is defined at the target
of the copy relocation. -/
def DefinedAtCopy (l : LinkMap) (name : CString) (copy : Rela) : Prop :=
  (∃ sym, Defines l name sym) ∧ ∀ sym, Defines l name sym → sym.st_value = copy.r_offset

/-- No object stores a relocated word to the variable of another object. -/
def OwnVariable (w : Rtld) (ps : List Ptr) (name : CString) : Prop :=
  ∀ q ∈ ps, ∀ r ∈ ps, q ≠ r → ∀ m sym, w.maps[r]? = some m → Defines m name sym →
    ∀ d ∈ destsOf w q, Apart d (m.l_addr + sym.st_value)

/-- A run over objects leaves a word that none of them stores to. -/
theorem read64_run {runtime_resolve : Addr} {w : Rtld} {qs : List Ptr}
    {uss : List (List Update)} (h : List.Forall₂ (ObjectUpdates runtime_resolve w) qs uss)
    (mem : Bytes) {a : Addr} (ha : ∀ q ∈ qs, ∀ d ∈ destsOf w q, Apart d a) :
    read64 (applyAll mem uss.flatten) a = read64 mem a := by
  apply read64_applyAll_apart
  intro u hu
  have hmem : u.dest ∈ qs.flatMap (destsOf w) := by
    rw [← flatten_map_dest h]
    exact List.mem_map_of_mem hu
  obtain ⟨q, hq, hd⟩ := List.mem_flatMap.mp hmem
  exact ha q hq u.dest hd

/-- The relocation of the executable, the last one of the run, fills the copy
slot with the word that the variable of another object has then. -/
theorem read64_copy {runtime_resolve : Addr} {w we w' : Rtld} {exe : Ptr} {name : CString}
    {l : LinkMap} {copy : Rela} {addr : Addr} (hsame : SameObjects w we)
    (hget : we.maps[exe]? = w.maps[exe]?) (hfresh : Fresh w exe) (hapart : AllApart w [exe])
    (hentry : HasEntry w exe R_X86_64_COPY name l copy) (hres : Resolves w (some exe) name addr)
    (hown : ∀ d ∈ destsOf w exe, Apart d addr)
    (hrun : relocate_list runtime_resolve [exe] we = .ok w') :
    read64 w'.mem (target l copy) = read64 we.mem addr := by
  obtain ⟨hl, hrela, htype, hname⟩ := hentry
  obtain ⟨_, _, uss, huss, hmem⟩ := relocate_list_ok hsame (by simp)
    (by simpa using hfresh) (by simpa using hget) hrun
  obtain ⟨u, hu, hupdate⟩ := (mem_flatten huss List.mem_cons_self hl).2.1 copy hrela
  obtain ⟨pre, post, hsplit, _, hnew⟩ := read64_applyAll_pairwise uss.flatten we.mem
    (flatten_apart hapart (List.Perm.refl _) huss) hu
  have hpre : read64 (applyAll we.mem pre) addr = read64 we.mem addr := by
    apply read64_applyAll_apart
    intro v hv
    apply hown
    have hdest : v.dest ∈ [exe].flatMap (destsOf w) := by
      rw [← flatten_map_dest huss, hsplit]
      exact List.mem_map_of_mem (List.mem_append_left _ hv)
    simpa using hdest
  rw [hmem, ← hupdate.dest, hnew, ← hpre]
  cases hupdate with
  | relative _ ht => rw [htype] at ht; cases ht
  | jumpSlot _ ht => rw [htype] at ht; cases ht
  | symbol _ ht =>
    rw [htype] at ht
    rcases ht with ht | ht <;> cases ht
  | copy hname' _ hres' =>
    rw [hname] at hname'
    cases hname'
    simp only
    rw [hres'.unique hres]

/-- A copy relocation of the executable finds a definition in a later object. -/
theorem ReadyNamespace.copied {runtime_resolve : Addr} {w w' : Rtld} {exe : Ptr}
    {rest : List Ptr} (h : ReadyNamespace w (exe :: rest))
    (hrun : reloc_all runtime_resolve w = .ok w') {name : CString} {l : LinkMap} {copy : Rela}
    (hentry : HasEntry w exe R_X86_64_COPY name l copy) :
    ∃ v m pre post, rest = pre ++ v.m :: post ∧ exe ≠ v.m ∧
      lookup_symbol w (some exe) name = .ok (some v) ∧
      FirstDef w (exe :: rest) (some exe) name v ∧ w.maps[v.m]? = some m ∧
      Defines m name v.s := by
  obtain ⟨addr, hres⟩ : ∃ addr, Resolves w (some exe) name addr := by
    obtain ⟨u, _, hu, _, _⟩ := h.read64_entry hrun List.mem_cons_self hentry.1 hentry.2.1
    obtain ⟨_, _, htype, hname⟩ := hentry
    cases hu with
    | relative _ ht => rw [htype] at ht; cases ht
    | jumpSlot _ ht => rw [htype] at ht; cases ht
    | symbol _ ht =>
      rw [htype] at ht
      rcases ht with ht | ht <;> cases ht
    | copy hname' _ hres =>
      rw [hname] at hname'
      cases hname'
      exact ⟨_, hres⟩
  obtain ⟨v, m, hv, hm, rfl⟩ := hres
  obtain ⟨r, hr, hsome, _⟩ := lookup_symbol.spec w (some exe) name _ h.linked.linked h.searchable
  rw [hv] at hr
  cases hr
  have hfirst := hsome v rfl
  obtain ⟨pre, post, hsplit, hne, ⟨m', hm', hdef⟩, _⟩ := hfirst
  rw [hm] at hm'
  cases hm'
  -- The executable is the first object, and not the one that is found.
  cases pre with
  | nil =>
    rw [List.nil_append, List.cons.injEq] at hsplit
    exact absurd (congrArg some hsplit.1.symm) hne
  | cons q pre =>
    rw [List.cons_append, List.cons.injEq] at hsplit
    exact ⟨v, m, pre, post, hsplit.2, fun he => hne (congrArg some he.symm), hv, hsome v rfl, hm,
      hdef⟩

/-- The copy slot gets the word that the first other definition has once its
own object is relocated. -/
theorem ReadyNamespace.copy {runtime_resolve : Addr} {w w' : Rtld} {exe : Ptr} {rest : List Ptr}
    (h : ReadyNamespace w (exe :: rest)) (hrun : reloc_all runtime_resolve w = .ok w')
    {name : CString} {l : LinkMap} {copy : Rela}
    (hentry : HasEntry w exe R_X86_64_COPY name l copy)
    (hown : OwnVariable w (exe :: rest) name) :
    ∃ v m pre post wm, rest = pre ++ v.m :: post ∧
      FirstDef w (exe :: rest) (some exe) name v ∧ w.maps[v.m]? = some m ∧
      relocate_list runtime_resolve (v.m :: post).reverse w = .ok wm ∧
      read64 w'.mem (target l copy) = read64 wm.mem (m.l_addr + v.s.st_value) := by
  obtain ⟨v, m, pre, post, hrest, hvne, hv, hfirst, hm, hdef⟩ := h.copied hrun hentry
  have hnodup := h.linked.linked.nodup
  have hfresh := h.fresh
  have hapart := h.apart
  have hexe : v.m ∈ exe :: rest := by simp [hrest]
  rw [reloc_all_eq (by simp) h.linked, List.reverse_cons, hrest, List.reverse_append,
    relocate_list_append, bind_eq_ok] at hrun
  obtain ⟨we, hwe, hlast⟩ := hrun
  rw [relocate_list_append, bind_eq_ok] at hwe
  obtain ⟨wm, hwm, hwe⟩ := hwe
  refine ⟨v, m, pre, post, wm, hrest, hfirst, hm, hwm, ?_⟩
  rw [hrest, List.nodup_cons, List.mem_append, not_or, List.nodup_append] at hnodup
  obtain ⟨⟨hexe1, hexe2⟩, hnd1, hnd2, hnd12⟩ := hnodup
  obtain ⟨hsame1, hout1, uss1, huss1, hmem1⟩ := relocate_list_ok (.refl w)
    ((List.reverse_perm _).nodup_iff.mpr hnd2)
    (fun q hq => hfresh q (by simp [hrest, List.mem_reverse.mp hq])) (fun _ _ => rfl) hwm
  obtain ⟨hsame2, hout2, uss2, huss2, hmem2⟩ := relocate_list_ok hsame1
    ((List.reverse_perm _).nodup_iff.mpr hnd1)
    (fun q hq => hfresh q (by simp [hrest, List.mem_reverse.mp hq])) (by
      intro q hq
      apply hout1
      intro hq'
      exact hnd12 q (List.mem_reverse.mp hq) q (List.mem_reverse.mp hq') rfl) hwe
  -- The objects between the two leave the variable alone.
  have hmid : read64 we.mem (m.l_addr + v.s.st_value) =
      read64 wm.mem (m.l_addr + v.s.st_value) := by
    rw [hmem2]
    apply read64_run huss2
    intro q hq d hd
    rw [List.mem_reverse] at hq
    have hqm : q ≠ v.m := hnd12 q hq v.m List.mem_cons_self
    exact hown q (by simp [hrest, hq]) v.m hexe hqm m v.s hm hdef d hd
  rw [← hmid]
  refine read64_copy hsame2 ?_ (hfresh exe List.mem_cons_self) ?_ hentry ⟨v, m, hv, hm, rfl⟩
    (hown exe List.mem_cons_self v.m hexe hvne m v.s hm hdef) hlast
  · rw [hout2 exe (by rwa [List.mem_reverse]), hout1 exe (by rwa [List.mem_reverse])]
  · unfold AllApart at hapart ⊢
    rw [List.flatMap_cons, List.pairwise_append] at hapart
    simpa using hapart.1

/-! ## The law -/

/-- All objects agree on the address of a variable. If the executable, the
first object, has a copy relocation for it, the address is its copy slot, and
the slot holds the word of the first other definition, taken after the object
of that definition is relocated. -/
theorem all_objects_agree_on_the_address_of_a_variable (runtime_resolve : Addr) (w w' : Rtld)
    (exe : Ptr) (rest : List Ptr) (h : ReadyNamespace w (exe :: rest))
    (hzero : ∀ p ∈ exe :: rest, ∀ name l rela, HasEntry w p R_X86_64_GLOB_DAT name l rela →
      read64 w.mem (target l rela) = 0)
    (hrun : reloc_all runtime_resolve w = .ok w') (name : CString) :
    (∀ p ∈ exe :: rest, ∀ q ∈ exe :: rest, ∀ l rela l' rela',
      HasEntry w p R_X86_64_GLOB_DAT name l rela → HasEntry w q R_X86_64_GLOB_DAT name l' rela' →
      read64 w'.mem (target l rela) = read64 w'.mem (target l' rela')) ∧
    ∀ l copy, HasEntry w exe R_X86_64_COPY name l copy → DefinedAtCopy l name copy →
      OwnVariable w (exe :: rest) name →
      (∀ p ∈ exe :: rest, ∀ l' rela, HasEntry w p R_X86_64_GLOB_DAT name l' rela →
        read64 w'.mem (target l' rela) = target l copy) ∧
      ∃ v m pre post wm, rest = pre ++ v.m :: post ∧
        FirstDef w (exe :: rest) (some exe) name v ∧ w.maps[v.m]? = some m ∧
        relocate_list runtime_resolve (v.m :: post).reverse w = .ok wm ∧
        read64 w'.mem (target l copy) = read64 wm.mem (m.l_addr + v.s.st_value) := by
  refine ⟨?_, ?_⟩
  · intro p hp q hq l rela l' rela' he he'
    obtain ⟨a, ha, hread⟩ := h.glob_dat hrun hp he (hzero p hp name l rela he)
    obtain ⟨b, hb, hread'⟩ := h.glob_dat hrun hq he' (hzero q hq name l' rela' he')
    rw [hread, hread', ha.unique hb]
  · intro l copy he hdef hown
    refine ⟨?_, h.copy hrun he hown⟩
    intro p hp l' rela he'
    obtain ⟨a, ha, hread⟩ := h.glob_dat hrun hp he' (hzero p hp name l' rela he')
    obtain ⟨sym, hsym, rfl⟩ :=
      resolves_first h.linked.linked h.searchable he.1 hdef.1 ha
    rw [hread, hdef.2 sym hsym]
    rfl

/-- The tags of an object with the relocation entries `relasz / 24`. -/
def relaInfo (relasz : BitVec 64) (i : Nat) : Option Dyn :=
  if i = DT_SYMTAB ∨ i = DT_STRTAB ∨ i = DT_RELA then some { d_tag := i, d_un := 0x100 }
  else if i = DT_RELASZ then some { d_tag := i, d_un := relasz }
  else none

/-- An object with the one symbol `g`. -/
def gObject (self l_addr value relasz : BitVec 64) (rela : List Rela) : LinkMap :=
  { init_link_map self { emptyImage with
      strtab := [0, 103, 0]
      symtab := [
        { st_name := 0, st_info := 0, st_shndx := 0, st_value := 0, st_size := 0 },
        { st_name := 1, st_info := 0x11, st_shndx := 20, st_value := value, st_size := 8 }]
      hash := [1, 2, 1, 0, 0]
      rela } with
    l_addr
    l_info := relaInfo relasz
    l_nbuckets := 1
    l_buckets := some 2
    l_chain := some 3 }

/-- The copy relocation of the executable. -/
def gCopy : Rela where
  r_offset := 0x3000
  r_info := 0x100000005
  r_addend := 0

/-- The library refers to `g` by a `GLOB_DAT` slot, and the initial value of
`g` is itself relocated. -/
def gLibraryRela : List Rela := [
  { r_offset := 0x300, r_info := 0x100000006, r_addend := 0 },
  { r_offset := 0x200, r_info := 8, r_addend := 0x42 }]

def gExecutable : LinkMap :=
  { gObject 0x5000 0 0x3000 24 [gCopy] with l_next := some 1 }

def gLibrary : LinkMap :=
  { gObject 0x6000 0x10000 0x200 48 gLibraryRela with l_prev := some 0 }

def gWorld : Rtld where
  _dl_pagesize := 4096
  _dl_stack_flags := 0
  _namespace := some 0
  _rpath := []
  maps := [gExecutable, gLibrary]
  proc := emptyProc

theorem gWorld_objects {p : Ptr} (hp : p ∈ [0, 1]) {l : LinkMap} (hl : gWorld.maps[p]? = some l) :
    (p = 0 ∧ l = gExecutable) ∨ (p = 1 ∧ l = gLibrary) := by
  simp only [List.mem_cons, List.not_mem_nil, or_false] at hp
  rcases hp with rfl | rfl
  · cases hl
    exact Or.inl ⟨rfl, rfl⟩
  · cases hl
    exact Or.inr ⟨rfl, rfl⟩

theorem gWorld_ready : ReadyNamespace gWorld [0, 1] where
  linked := ⟨rfl, gExecutable, rfl, rfl, rfl, gLibrary, rfl, rfl, rfl⟩
  fresh := by
    intro p hp
    simp only [List.mem_cons, List.not_mem_nil, or_false] at hp
    rcases hp with rfl | rfl
    · exact ⟨gExecutable, rfl, rfl⟩
    · exact ⟨gLibrary, rfl, rfl⟩
  searchable := by
    intro p hp l hl
    rcases gWorld_objects hp hl with ⟨_, rfl⟩ | ⟨_, rfl⟩
    · exact searchable_one_symbol ⟨_, rfl, by decide⟩ ⟨_, rfl, by decide⟩ rfl rfl rfl rfl rfl
    · exact searchable_one_symbol ⟨_, rfl, by decide⟩ ⟨_, rfl, by decide⟩ rfl rfl rfl rfl rfl
  apart := by
    have : [0, 1].flatMap (destsOf gWorld) = [0x3000, 0x10300, 0x10200] := rfl
    rw [AllApart, this]
    decide

theorem gExecutable_defines_g : DefinedAtCopy gExecutable (CString.lit ['g']) gCopy := by
  refine ⟨⟨_, 1, by decide, rfl, by decide⟩, ?_⟩
  rintro sym ⟨i, hi, hsym, _⟩
  have hlt := (List.getElem?_eq_some_iff.mp hsym).1
  have hlen : gExecutable.image.symtab.length = 2 := rfl
  have hi1 : i = 1 := by omega
  subst hi1
  cases hsym
  rfl

theorem gWorld_own : OwnVariable gWorld [0, 1] (CString.lit ['g']) := by
  rintro q hq r hr hne m sym hm ⟨i, hi, hsym, _⟩ d hd
  have hi1 : i = 1 := by
    have hlt := (List.getElem?_eq_some_iff.mp hsym).1
    have hlen : m.image.symtab.length = 2 := by
      rcases gWorld_objects hr hm with ⟨_, rfl⟩ | ⟨_, rfl⟩ <;> rfl
    omega
  subst hi1
  have hvar : (r = 0 ∧ m.l_addr + sym.st_value = 0x3000) ∨
      (r = 1 ∧ m.l_addr + sym.st_value = 0x10200) := by
    rcases gWorld_objects hr hm with ⟨rfl, rfl⟩ | ⟨rfl, rfl⟩
    · cases hsym
      exact Or.inl ⟨rfl, by decide⟩
    · cases hsym
      exact Or.inr ⟨rfl, by decide⟩
  have h0 : destsOf gWorld 0 = [0x3000] := rfl
  have h1 : destsOf gWorld 1 = [0x10300, 0x10200] := rfl
  simp only [List.mem_cons, List.not_mem_nil, or_false] at hq
  rcases hvar with ⟨rfl, hvar⟩ | ⟨rfl, hvar⟩
  · rw [hq.resolve_left hne, h1] at hd
    simp only [List.mem_cons, List.not_mem_nil, or_false] at hd
    rw [hvar]
    rcases hd with rfl | rfl <;> decide
  · rw [hq.resolve_right hne, h0, List.mem_singleton] at hd
    rw [hvar, hd]
    decide

/-- The two objects of `gWorld` agree on the copy slot of the executable. -/
theorem all_objects_agree_on_the_address_of_g :
    ∃ w', reloc_all 0x7000 gWorld = .ok w' ∧
      (∀ p ∈ [0, 1], ∀ l rela, HasEntry gWorld p R_X86_64_GLOB_DAT (CString.lit ['g']) l rela →
        read64 w'.mem (target l rela) = target gExecutable gCopy) ∧
      ∃ v m pre post wm, [1] = pre ++ v.m :: post ∧
        FirstDef gWorld [0, 1] (some 0) (CString.lit ['g']) v ∧ gWorld.maps[v.m]? = some m ∧
        relocate_list 0x7000 (v.m :: post).reverse gWorld = .ok wm ∧
        read64 w'.mem (target gExecutable gCopy) = read64 wm.mem (m.l_addr + v.s.st_value) := by
  obtain ⟨w', hw'⟩ : ∃ w', reloc_all 0x7000 gWorld = .ok w' := by
    have hok : (reloc_all 0x7000 gWorld).isOk = true := by decide +kernel
    cases hrun : reloc_all 0x7000 gWorld with
    | ok w' => exact ⟨w', rfl⟩
    | error e =>
      rw [hrun] at hok
      cases hok
  have hcopy : HasEntry gWorld 0 R_X86_64_COPY (CString.lit ['g']) gExecutable gCopy :=
    ⟨rfl, by decide, rfl, rfl⟩
  have hlaw := all_objects_agree_on_the_address_of_a_variable 0x7000 gWorld w' 0 [1] gWorld_ready
    (fun _ _ _ _ _ _ => read64_zero _) hw' (CString.lit ['g'])
  exact ⟨w', hw', hlaw.2 gExecutable gCopy hcopy gExecutable_defines_g gWorld_own⟩

end elf_loader.reloc
