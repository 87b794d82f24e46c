-- Relocation (rtld/reloc.c). Each entry of a table is one store of a word,
-- which the type of the entry, the load address, the lookup and the old word
-- decide. `reloc_all` goes over the namespace from its last object to the
-- first one.
import BinaryLab.Lookup

open binary_lab.runs binary_lab.words

namespace elf_loader.reloc

open lookup

abbrev R_X86_64_64 : Nat := 1
abbrev R_X86_64_COPY : Nat := 5
abbrev R_X86_64_GLOB_DAT : Nat := 6
abbrev R_X86_64_JUMP_SLOT : Nat := 7
abbrev R_X86_64_RELATIVE : Nat := 8

/-- `ELF64_R_SYM(info)`. -/
def R_SYM (info : BitVec 64) : Nat := (info >>> 32).toNat

/-- `ELF64_R_TYPE(info)`. -/
def R_TYPE (info : BitVec 64) : Nat := (info &&& 0xffffffff).toNat

/-! ## One entry -/

/-- The nested function `find_symbol` of `reloc_rela`, and the address that
each of its callers makes of the result. -/
def find_symbol (w : Rtld) (skip : Option Ptr) (name : CString) : Except Stop Addr := do
  match ← lookup_symbol w skip name with
  | some symval =>
    let m ← w.deref symval.m
    .ok (m.l_addr + symval.s.st_value)
  | none => .error (.exit (.symbolNotFound name))

/-- The word at the target of an entry. -/
def target (l : LinkMap) (rela : Rela) : Addr := l.l_addr + rela.r_offset

/-- The body of the loop of `reloc_rela`, for the object `l` at `p`. The
targets lie in pages that can be written to. -/
def reloc_entry (w : Rtld) (p : Ptr) (l : LinkMap) (mem : Bytes) (rela : Rela) :
    Except Stop Bytes := do
  let reloc := target l rela
  let sym ← symAt l (R_SYM rela.r_info)
  let name := strAt l.image.strtab sym.st_name.toNat
  if R_TYPE rela.r_info = R_X86_64_RELATIVE then
    .ok (write64 mem reloc (read64 mem reloc + (l.l_addr + rela.r_addend)))
  else if R_TYPE rela.r_info = R_X86_64_64 then
    -- The addend of the entry is not in the sum.
    let addr ← find_symbol w none name
    .ok (write64 mem reloc (read64 mem reloc + addr))
  else if R_TYPE rela.r_info = R_X86_64_JUMP_SLOT then
    .ok (write64 mem reloc (read64 mem reloc + l.l_addr))
  else if R_TYPE rela.r_info = R_X86_64_GLOB_DAT then
    let addr ← find_symbol w none name
    .ok (write64 mem reloc (read64 mem reloc + addr))
  else if R_TYPE rela.r_info = R_X86_64_COPY then
    let addr ← find_symbol w (some p) name
    .ok (write64 mem reloc (read64 mem addr))
  else .error (.exit (.unknownRelocType (R_TYPE rela.r_info)))

/-- The loop of `reloc_rela`. -/
def reloc_loop (w : Rtld) (p : Ptr) (l : LinkMap) : Nat → List Rela → Bytes → Except Stop Bytes
  | 0, _, mem => .ok mem
  | _ + 1, [], _ => .error (.fault .outOfTable)
  | count + 1, rela :: table, mem => do
    let mem ← reloc_entry w p l mem rela
    reloc_loop w p l count table mem

/-- `if (l->l_info[DT_PLTGOT] != NULL) got = D_PTR(l, DT_PLTGOT)`. -/
def got_of (l : LinkMap) : Except Stop Addr :=
  if D_VALID l DT_PLTGOT then D_PTR .reloc_rela l DT_PLTGOT else .ok 0

def reloc_rela (w : Rtld) (p : Ptr) (l : LinkMap) (table : List Rela) (count : Nat)
    (mem : Bytes) : Except Stop Bytes := do
  let _ ← D_PTR .reloc_rela l DT_SYMTAB
  let _ ← D_PTR .reloc_rela l DT_STRTAB
  let _ ← got_of l
  reloc_loop w p l count table mem

/-! ## An object, and all objects -/

/-- The part of `relocate_object` for `DT_RELA`. -/
def relocate_rela (w : Rtld) (p : Ptr) (l : LinkMap) (mem : Bytes) : Except Stop Bytes :=
  if D_VALID l DT_RELA then do
    let _ ← D_PTR .relocate_object l DT_RELA
    let relasz ← D_VAL .relocate_object l DT_RELASZ
    reloc_rela w p l l.image.rela (relasz.toNat / sizeofRela) mem
  else .ok mem

/-- The part of `relocate_object` for `DT_PLTGOT`, with the address of
`runtime_resolve` in the loader. -/
def relocate_plt (runtime_resolve : Addr) (w : Rtld) (p : Ptr) (l : LinkMap) (mem : Bytes) :
    Except Stop Bytes :=
  if D_VALID l DT_PLTGOT then do
    let got ← D_PTR .relocate_object l DT_PLTGOT
    let _ ← D_PTR .relocate_object l DT_JMPREL
    let pltrel ← D_VAL .relocate_object l DT_PLTREL
    let pltrelsz ← D_VAL .relocate_object l DT_PLTRELSZ
    if pltrel.toNat ≠ DT_RELA then .error (.exit .pltrelNotRela)
    else
      let mem ← reloc_rela w p l l.image.jmprel (pltrelsz.toNat / sizeofRela) mem
      .ok (write64 (write64 mem (got + 8) l.self) (got + 16) runtime_resolve)
  else .ok mem

/-- The state with other bytes in memory. -/
def setMem (w : Rtld) (mem : Bytes) : Rtld :=
  { w with proc := { w.proc with space := { w.proc.space with byte := mem } } }

def relocate_object (runtime_resolve : Addr) (w : Rtld) (p : Ptr) : Except Stop Rtld := do
  let l ← w.deref p
  if l.l_relocated then .ok w
  else
    let mem ← relocate_rela w p l w.mem
    let mem ← relocate_plt runtime_resolve w p l mem
    .ok ((setMem w mem).put p { l with l_relocated := true })

/-- The first loop of `reloc_all`. A walk longer than the list of all maps
never ends. -/
def last_object (w : Rtld) : Nat → Ptr → Except Stop Ptr
  | 0, _ => .error .endless
  | fuel + 1, p => do
    let l ← w.deref p
    match l.l_next with
    | none => .ok p
    | some q => last_object w fuel q

/-- The second loop of `reloc_all`. -/
def reloc_back (runtime_resolve : Addr) : Nat → Option Ptr → Rtld → Except Stop Rtld
  | _, none, w => .ok w
  | 0, some _, _ => .error .endless
  | fuel + 1, some p, w => do
    let w ← relocate_object runtime_resolve w p
    let l ← w.deref p
    reloc_back runtime_resolve fuel l.l_prev w

def reloc_all (runtime_resolve : Addr) (w : Rtld) : Except Stop Rtld :=
  match w._namespace with
  | none => .error (.exit (.assertion "l != NULL"))
  | some first => do
    let last ← last_object w w.maps.length first
    reloc_back runtime_resolve w.maps.length (some last) w

/-! ## Lazy binding -/

/-- `jmprel[i]`. -/
def relaAt (table : List Rela) (i : Nat) : Except Stop Rela :=
  match table[i]? with
  | some rela => .ok rela
  | none => .error (.fault .outOfTable)

/-- `got_fixup`, for the object at `p`: the address to jump to, and the state
with it in the slot. -/
def got_fixup (w : Rtld) (p : Ptr) (reloc_offset : BitVec 32) : Except Stop (Addr × Rtld) := do
  let l ← w.deref p
  let _ ← D_PTR .got_fixup l DT_JMPREL
  let pltrelsz ← D_VAL .got_fixup l DT_PLTRELSZ
  let rela ← relaAt l.image.jmprel reloc_offset.toNat
  let got_ent := target l rela
  let _ ← D_PTR .got_fixup l DT_PLTGOT
  assert (pltrelsz.toNat / sizeofRela > reloc_offset.toNat)
    "pltrelsz/sizeof(ElfW(Rela)) > reloc_offset"
  let _ ← D_PTR .got_fixup l DT_SYMTAB
  let _ ← D_PTR .got_fixup l DT_STRTAB
  let sym ← symAt l (R_SYM rela.r_info)
  let name := strAt l.image.strtab sym.st_name.toNat
  let jmp ← find_symbol w none name
  .ok (jmp, setMem w (write64 w.mem got_ent jmp))

/-! ## An entry is one update -/

/-- The name of the symbol of an entry. -/
def entryName (l : LinkMap) (rela : Rela) : Option CString :=
  (l.image.symtab[R_SYM rela.r_info]?).map fun sym => strAt l.image.strtab sym.st_name.toNat

/-- The lookup finds a definition, and `addr` is its address. -/
def Resolves (w : Rtld) (skip : Option Ptr) (name : CString) (addr : Addr) : Prop :=
  ∃ v m, lookup_symbol w skip name = .ok (some v) ∧ w.maps[v.m]? = some m ∧
    addr = m.l_addr + v.s.st_value

theorem find_symbol_eq_ok {w : Rtld} {skip : Option Ptr} {name : CString} {addr : Addr} :
    find_symbol w skip name = .ok addr ↔ Resolves w skip name addr := by
  unfold find_symbol Resolves
  rw [bind_eq_ok]
  constructor
  · rintro ⟨r, hr, h⟩
    cases r with
    | none => cases h
    | some v =>
      simp only [bind_eq_ok, Rtld.deref_eq_ok, Except.ok.injEq] at h
      obtain ⟨m, hm, rfl⟩ := h
      exact ⟨v, m, hr, hm, rfl⟩
  · rintro ⟨v, m, hv, hm, rfl⟩
    refine ⟨some v, hv, ?_⟩
    simp only [bind_eq_ok, Rtld.deref_eq_ok]
    exact ⟨m, hm, rfl⟩

theorem Resolves.unique {w : Rtld} {skip : Option Ptr} {name : CString} {a b : Addr}
    (ha : Resolves w skip name a) (hb : Resolves w skip name b) : a = b := by
  rw [← find_symbol_eq_ok] at ha hb
  rw [ha] at hb
  cases hb
  rfl

/-- The update that an entry stands for. -/
inductive EntryUpdate (w : Rtld) (p : Ptr) (l : LinkMap) (rela : Rela) : Update → Prop
  | relative {name : CString} (hname : entryName l rela = some name)
      (htype : R_TYPE rela.r_info = R_X86_64_RELATIVE) :
      EntryUpdate w p l rela ⟨target l rela,
        fun m => read64 m (target l rela) + (l.l_addr + rela.r_addend)⟩
  | symbol {name : CString} {addr : Addr} (hname : entryName l rela = some name)
      (htype : R_TYPE rela.r_info = R_X86_64_64 ∨ R_TYPE rela.r_info = R_X86_64_GLOB_DAT)
      (hres : Resolves w none name addr) :
      EntryUpdate w p l rela ⟨target l rela, fun m => read64 m (target l rela) + addr⟩
  | jumpSlot {name : CString} (hname : entryName l rela = some name)
      (htype : R_TYPE rela.r_info = R_X86_64_JUMP_SLOT) :
      EntryUpdate w p l rela ⟨target l rela, fun m => read64 m (target l rela) + l.l_addr⟩
  | copy {name : CString} {addr : Addr} (hname : entryName l rela = some name)
      (htype : R_TYPE rela.r_info = R_X86_64_COPY) (hres : Resolves w (some p) name addr) :
      EntryUpdate w p l rela ⟨target l rela, fun m => read64 m addr⟩

theorem EntryUpdate.dest {w : Rtld} {p : Ptr} {l : LinkMap} {rela : Rela} {u : Update}
    (h : EntryUpdate w p l rela u) : u.dest = target l rela := by
  cases h <;> rfl

theorem EntryUpdate.map_dest {w : Rtld} {p : Ptr} {l : LinkMap} {table : List Rela}
    {es : List Update} (h : List.Forall₂ (EntryUpdate w p l) table es) :
    es.map Update.dest = table.map (target l) := by
  induction h with
  | nil => rfl
  | cons hu _ ih => rw [List.map_cons, List.map_cons, hu.dest, ih]

/-- An entry that goes through is one update. -/
theorem reloc_entry_eq_ok {w : Rtld} {p : Ptr} {l : LinkMap} {mem mem' : Bytes} {rela : Rela} :
    reloc_entry w p l mem rela = .ok mem' ↔
      ∃ u, EntryUpdate w p l rela u ∧ mem' = u.apply mem := by
  constructor
  · intro h
    simp only [reloc_entry, bind_eq_ok, symAt_eq_ok] at h
    obtain ⟨sym, hsym, h⟩ := h
    have hname : entryName l rela = some (strAt l.image.strtab sym.st_name.toNat) := by
      simp [entryName, hsym]
    split_ifs at h with h8 h1 h7 h6 h5
    · cases h
      exact ⟨_, .relative hname h8, rfl⟩
    · simp only [bind_eq_ok, find_symbol_eq_ok] at h
      obtain ⟨addr, haddr, h⟩ := h
      cases h
      exact ⟨_, .symbol hname (Or.inl h1) haddr, rfl⟩
    · cases h
      exact ⟨_, .jumpSlot hname h7, rfl⟩
    · simp only [bind_eq_ok, find_symbol_eq_ok] at h
      obtain ⟨addr, haddr, h⟩ := h
      cases h
      exact ⟨_, .symbol hname (Or.inr h6) haddr, rfl⟩
    · simp only [bind_eq_ok, find_symbol_eq_ok] at h
      obtain ⟨addr, haddr, h⟩ := h
      cases h
      exact ⟨_, .copy hname h5 haddr, rfl⟩
  · rintro ⟨u, hu, rfl⟩
    obtain ⟨name, hname⟩ : ∃ name, entryName l rela = some name := by
      cases hu <;> exact ⟨_, by assumption⟩
    unfold entryName at hname
    rw [Option.map_eq_some_iff] at hname
    obtain ⟨sym, hsym, hstr⟩ := hname
    have hname : entryName l rela = some name := by simp [entryName, hsym, hstr]
    unfold reloc_entry
    rw [symAt_eq_ok.mpr hsym]
    simp only [bind, Except.bind, hstr]
    cases hu with
    | relative _ htype => simp [htype, Update.apply]
    | jumpSlot _ htype => simp [htype, Update.apply]
    | symbol hn htype hres =>
      rw [hname] at hn
      cases hn
      rw [find_symbol_eq_ok.mpr hres]
      rcases htype with htype | htype <;> simp [htype, Update.apply]
    | copy hn htype hres =>
      rw [hname] at hn
      cases hn
      rw [find_symbol_eq_ok.mpr hres]
      simp [htype, Update.apply]

/-- A table that goes through is a run of updates, one for each entry. -/
theorem reloc_loop_eq_ok {w : Rtld} {p : Ptr} {l : LinkMap} {count : Nat} {table : List Rela}
    {mem mem' : Bytes} :
    reloc_loop w p l count table mem = .ok mem' ↔ count ≤ table.length ∧
      ∃ us, List.Forall₂ (EntryUpdate w p l) (table.take count) us ∧ mem' = applyAll mem us := by
  induction count generalizing table mem with
  | zero =>
    simp only [reloc_loop, Except.ok.injEq, List.take_zero, List.forall₂_nil_left_iff,
      exists_eq_left, applyAll_nil]
    exact ⟨fun h => ⟨Nat.zero_le _, h.symm⟩, fun h => h.2.symm⟩
  | succ count ih =>
    cases table with
    | nil => simp [reloc_loop]
    | cons rela table =>
      simp only [reloc_loop, bind_eq_ok, reloc_entry_eq_ok, ih, List.length_cons,
        Nat.add_le_add_iff_right, List.take_succ_cons, List.forall₂_cons_left_iff]
      constructor
      · rintro ⟨mem1, ⟨u, hu, rfl⟩, hlen, us, hus, rfl⟩
        exact ⟨hlen, u :: us, ⟨u, us, hu, hus, rfl⟩, rfl⟩
      · rintro ⟨hlen, _, ⟨u, us, hu, hus, rfl⟩, rfl⟩
        exact ⟨u.apply mem, ⟨u, hu, rfl⟩, hlen, us, hus, rfl⟩

theorem got_of_ok (l : LinkMap) : ∃ got, got_of l = .ok got := by
  unfold got_of D_VALID D_PTR
  cases l.l_info DT_PLTGOT with
  | none => exact ⟨0, rfl⟩
  | some d => exact ⟨_, rfl⟩

theorem reloc_rela_eq_ok {w : Rtld} {p : Ptr} {l : LinkMap} {count : Nat} {table : List Rela}
    {mem mem' : Bytes} :
    reloc_rela w p l table count mem = .ok mem' ↔
      (l.l_info DT_SYMTAB).isSome ∧ (l.l_info DT_STRTAB).isSome ∧ count ≤ table.length ∧
      ∃ us, List.Forall₂ (EntryUpdate w p l) (table.take count) us ∧ mem' = applyAll mem us := by
  obtain ⟨got, hgot⟩ := got_of_ok l
  unfold reloc_rela D_PTR
  rw [hgot]
  cases l.l_info DT_SYMTAB with
  | none => simp [bind, Except.bind]
  | some d =>
    cases l.l_info DT_STRTAB with
    | none => simp [bind, Except.bind]
    | some d' => simp [bind, Except.bind, reloc_loop_eq_ok]

theorem exists_updates {w : Rtld} {p : Ptr} {l : LinkMap} {table : List Rela}
    (h : ∀ rela ∈ table, ∃ u, EntryUpdate w p l rela u) :
    ∃ us, List.Forall₂ (EntryUpdate w p l) table us := by
  induction table with
  | nil => exact ⟨[], .nil⟩
  | cons rela rest ih =>
    obtain ⟨u, hu⟩ := h rela List.mem_cons_self
    obtain ⟨us, hus⟩ := ih fun r hr => h r (List.mem_cons_of_mem _ hr)
    exact ⟨u :: us, .cons hu hus⟩

/-- The targets of the table share no byte. -/
def TargetsApart (l : LinkMap) (table : List Rela) : Prop :=
  table.Pairwise fun a b => Apart (target l a) (target l b)

theorem updates_apart {w : Rtld} {p : Ptr} {l : LinkMap} {table : List Rela} {us : List Update}
    (hus : List.Forall₂ (EntryUpdate w p l) table us) (h : TargetsApart l table) :
    us.Pairwise fun u v => Apart u.dest v.dest := by
  have hmap : (us.map Update.dest).Pairwise Apart := by
    rw [EntryUpdate.map_dest hus, List.pairwise_map]
    exact h
  rwa [List.pairwise_map] at hmap

theorem exists_update_of_mem {w : Rtld} {p : Ptr} {l : LinkMap} {table : List Rela}
    {us : List Update} (hus : List.Forall₂ (EntryUpdate w p l) table us) {rela : Rela}
    (hrela : rela ∈ table) : ∃ u ∈ us, EntryUpdate w p l rela u := by
  induction hus with
  | nil => cases hrela
  | cons hu _ ih =>
    rcases List.mem_cons.mp hrela with rfl | hrela
    · exact ⟨_, List.mem_cons_self, hu⟩
    · obtain ⟨v, hv, hv'⟩ := ih hrela
      exact ⟨v, List.mem_cons_of_mem _ hv, hv'⟩

/-- What a table with targets apart leaves at the target of an entry: the word
of its update, made from the old word at the target. -/
theorem read64_target {w : Rtld} {p : Ptr} {l : LinkMap} {table : List Rela} {us : List Update}
    (hus : List.Forall₂ (EntryUpdate w p l) table us) (h : TargetsApart l table) (mem : Bytes)
    {rela : Rela} (hrela : rela ∈ table) :
    ∃ u pre, EntryUpdate w p l rela u ∧
      read64 (applyAll mem pre) (target l rela) = read64 mem (target l rela) ∧
      read64 (applyAll mem us) (target l rela) = u.value (applyAll mem pre) := by
  obtain ⟨u, hmem, hu⟩ := exists_update_of_mem hus hrela
  obtain ⟨pre, post, _, hold, hnew⟩ := read64_applyAll_pairwise us mem (updates_apart hus h) hmem
  rw [hu.dest] at hold hnew
  exact ⟨u, pre, hu, hold, hnew⟩

/-! ## The values of the psABI -/

/-- The word at the target is the one that the x86-64 psABI asks for. -/
def FollowsPsabi (w : Rtld) (l : LinkMap) (mem : Bytes) (rela : Rela) : Prop :=
  (R_TYPE rela.r_info = R_X86_64_RELATIVE →
    read64 mem (target l rela) = l.l_addr + rela.r_addend) ∧
  ∀ name addr, entryName l rela = some name → Resolves w none name addr →
    (R_TYPE rela.r_info = R_X86_64_64 → read64 mem (target l rela) = addr + rela.r_addend) ∧
    (R_TYPE rela.r_info = R_X86_64_GLOB_DAT → read64 mem (target l rela) = addr)

/-- The old word makes the sum of `reloc_rela` come out right: it is zero, or
the addend where the sum leaves the addend out. -/
def OldWordFits (l : LinkMap) (mem : Bytes) (rela : Rela) : Prop :=
  (R_TYPE rela.r_info = R_X86_64_RELATIVE → read64 mem (target l rela) = 0) ∧
  (R_TYPE rela.r_info = R_X86_64_64 → read64 mem (target l rela) = rela.r_addend) ∧
  (R_TYPE rela.r_info = R_X86_64_GLOB_DAT → read64 mem (target l rela) = 0)

theorem add_eq_add_comm {x y z : BitVec 64} : x + y = y + z ↔ x = z := by
  rw [BitVec.add_comm y z, BitVec.add_left_inj]

/-- One entry: its word is right exactly when the old word fits. -/
theorem followsPsabi_iff {w : Rtld} {p : Ptr} {l : LinkMap} {rela : Rela} {u : Update}
    {mem mem1 mem' : Bytes} (hu : EntryUpdate w p l rela u)
    (hold : read64 mem1 (target l rela) = read64 mem (target l rela))
    (hnew : read64 mem' (target l rela) = u.value mem1) :
    FollowsPsabi w l mem' rela ↔ OldWordFits l mem rela := by
  unfold FollowsPsabi OldWordFits
  rw [hnew]
  cases hu with
  | relative hname htype => simp [htype, hold]
  | jumpSlot hname htype => simp [htype]
  | copy hname htype hres => simp [htype]
  | @symbol name addr hname htype hres =>
    have hall : ∀ P : CString → Addr → Prop,
        (∀ name' addr', entryName l rela = some name' → Resolves w none name' addr' →
          P name' addr') ↔ P name addr := by
      intro P
      constructor
      · intro h
        exact h name addr hname hres
      · intro h name' addr' hname' hres'
        rw [hname] at hname'
        cases hname'
        rw [hres'.unique hres]
        exact h
    rw [hall]
    rcases htype with htype | htype
    · simp [htype, hold, add_eq_add_comm]
    · simp [htype, hold]

/-- The relocated words of a table follow the psABI exactly when every old
word fits: the code adds to it, and leaves the addend of `R_X86_64_64` out. -/
theorem relocated_words_follow_the_psabi_iff_the_old_words_fit (w : Rtld) (p : Ptr) (l : LinkMap)
    (table : List Rela) (count : Nat) (mem : Bytes)
    (hsymtab : (l.l_info DT_SYMTAB).isSome) (hstrtab : (l.l_info DT_STRTAB).isSome)
    (hcount : count ≤ table.length)
    (happly : ∀ rela ∈ table.take count, ∃ u, EntryUpdate w p l rela u)
    (hapart : TargetsApart l (table.take count)) :
    ∃ mem', reloc_rela w p l table count mem = .ok mem' ∧
      ((∀ rela ∈ table.take count, FollowsPsabi w l mem' rela) ↔
        ∀ rela ∈ table.take count, OldWordFits l mem rela) := by
  obtain ⟨us, hus⟩ := exists_updates happly
  refine ⟨applyAll mem us, ?_, ?_⟩
  · exact reloc_rela_eq_ok.mpr ⟨hsymtab, hstrtab, hcount, us, hus, rfl⟩
  · apply forall₂_congr
    intro rela hrela
    obtain ⟨u, pre, hu, hold, hnew⟩ := read64_target hus hapart mem hrela
    exact followsPsabi_iff hu hold hnew

/-- An `R_X86_64_64` entry of `xObject`, for the word `x + 4`. -/
def xPlusFour : Rela where
  r_offset := 0x100
  r_info := 0x100000001
  r_addend := 4

theorem x_resolves : Resolves xWorld none (CString.lit ['x']) 0x1040 :=
  ⟨⟨_, 0⟩, xObject, rfl, rfl, rfl⟩

theorem xPlusFour_applies :
    EntryUpdate xWorld 0 xObject xPlusFour ⟨target xObject xPlusFour,
      fun m => read64 m (target xObject xPlusFour) + 0x1040⟩ :=
  .symbol rfl (Or.inl rfl) x_resolves

theorem x_plus_four_follows_the_psabi_iff_the_old_word_fits :
    (∃ u, EntryUpdate xWorld 0 xObject xPlusFour u) ∧
    ∃ mem', reloc_rela xWorld 0 xObject [xPlusFour] 1 (fun _ => 0) = .ok mem' ∧
      ((∀ rela ∈ [xPlusFour].take 1, FollowsPsabi xWorld xObject mem' rela) ↔
        ∀ rela ∈ [xPlusFour].take 1, OldWordFits xObject (fun _ => 0) rela) := by
  refine ⟨⟨_, xPlusFour_applies⟩, ?_⟩
  apply relocated_words_follow_the_psabi_iff_the_old_words_fit
  · rfl
  · rfl
  · decide
  · intro rela hrela
    rw [List.take_succ_cons, List.take_zero, List.mem_singleton] at hrela
    exact ⟨_, hrela ▸ xPlusFour_applies⟩
  · exact List.pairwise_singleton _ _

/-- With a zero at the target, as some linkers leave it, the word for `x + 4`
is `x`. -/
theorem x_plus_four_is_relocated_to_x :
    ∃ mem', reloc_rela xWorld 0 xObject [xPlusFour] 1 (fun _ => 0) = .ok mem' ∧
      TargetsApart xObject [xPlusFour] ∧
      Resolves xWorld none (CString.lit ['x']) 0x1040 ∧
      read64 mem' (target xObject xPlusFour) = 0x1040 ∧
      ¬ FollowsPsabi xWorld xObject mem' xPlusFour := by
  refine ⟨applyAll (fun _ => 0) [⟨target xObject xPlusFour, fun m =>
    read64 m (target xObject xPlusFour) + 0x1040⟩], ?_, List.pairwise_singleton _ _, x_resolves,
    ?_, ?_⟩
  · exact reloc_rela_eq_ok.mpr ⟨rfl, rfl, by decide, _, .cons xPlusFour_applies .nil, rfl⟩
  · decide
  · intro h
    have hword := (h.2 _ _ rfl x_resolves).1 rfl
    revert hword
    decide

end elf_loader.reloc
