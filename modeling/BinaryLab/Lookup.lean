-- Symbol lookup (rtld/lookup.c). `lookup_symbol` walks the hash chain of the
-- name in each object of the namespace. On well-formed hash tables it finds
-- what a plain scan of every symbol table finds.
import BinaryLab.LinkMap
import Mathlib.Tactic.IntervalCases

open binary_lab.words

namespace elf_loader.lookup

/-! ## The hash of a name -/

/-- One turn of the loop of `elf_hash`, in 64-bit arithmetic. -/
def elf_hash_step (hash : BitVec 64) (c : Byte) : BitVec 64 :=
  let hash := (hash <<< 4) + c.setWidth 64
  let hi := hash &&& 0xf0000000#64
  let hash := hash ^^^ hi
  hash ^^^ (hi >>> 24)

def elf_hash (name : CString) : BitVec 32 :=
  (name.bytes.foldl elf_hash_step 0).setWidth 32

/-- One turn of the algorithm of the ELF ABI, in 32-bit arithmetic. -/
def abiHashStep (h : BitVec 32) (c : Byte) : BitVec 32 :=
  let h := (h <<< 4) + c.setWidth 32
  let g := h &&& 0xf0000000#32
  let h := if g ≠ 0 then h ^^^ (g >>> 24) else h
  h &&& ~~~g

/-- The hash that the linker sorts the symbols by. -/
def abiHash (name : CString) : BitVec 32 := name.bytes.foldl abiHashStep 0

/-- The condition of the ABI saves work only: without a high bit the exclusive or does
nothing. -/
theorem abiHashStep_eq (h : BitVec 32) (c : Byte) {x : BitVec 32}
    (hx : (h <<< 4) + c.setWidth 32 = x) :
    abiHashStep h c =
      (x ^^^ ((x &&& 0xf0000000#32) >>> 24)) &&& ~~~(x &&& 0xf0000000#32) := by
  unfold abiHashStep
  simp only [hx]
  split
  · rfl
  · rename_i hz
    rw [not_not.mp hz]
    simp

/-- The low 32 bits of a turn depend on the low 32 bits before it only, and
the two exclusive ors clear the bits that the ABI masks. -/
theorem elf_hash_step.spec (hash : BitVec 64) (c : Byte) :
    (elf_hash_step hash c).setWidth 32 = abiHashStep (hash.setWidth 32) c := by
  have hsum : ((hash <<< 4) + c.setWidth 64).setWidth 32 =
      ((hash.setWidth 32) <<< 4) + c.setWidth 32 := by
    apply BitVec.eq_of_toNat_eq
    simp only [BitVec.toNat_setWidth, BitVec.toNat_add, BitVec.toNat_shiftLeft,
      Nat.shiftLeft_eq]
    have := c.isLt
    omega
  rw [abiHashStep_eq _ _ hsum.symm]
  unfold elf_hash_step
  generalize (hash <<< 4) + c.setWidth 64 = x
  apply BitVec.eq_of_getLsbD_eq
  intro i hi
  simp only [BitVec.getLsbD_setWidth, BitVec.getLsbD_xor, BitVec.getLsbD_and,
    BitVec.getLsbD_ushiftRight, BitVec.getLsbD_not, hi, decide_true, Bool.true_and]
  interval_cases i <;> simp

theorem elf_hash_eq_abiHash (name : CString) : elf_hash name = abiHash name := by
  have hloop : ∀ (bs : List Byte) (h : BitVec 64),
      (bs.foldl elf_hash_step h).setWidth 32 = bs.foldl abiHashStep (h.setWidth 32) := by
    intro bs
    induction bs with
    | nil => intro h; rfl
    | cons c bs ih =>
      intro h
      rw [List.foldl_cons, ih, elf_hash_step.spec, List.foldl_cons]
  rw [elf_hash, hloop]
  rfl

/-- A turn of the ABI leaves no bit from bit 28 on: the shifted bits go to bits 4 to 7, and
what was above bit 27 is masked. -/
theorem abiHashStep_lt (h : BitVec 32) (c : Byte) : abiHashStep h c < 0x10000000#32 := by
  rw [abiHashStep_eq h c rfl]
  generalize (h <<< 4) + c.setWidth 32 = x
  have hhigh : (x ^^^ ((x &&& 0xf0000000#32) >>> 24)) &&& ~~~(x &&& 0xf0000000#32) =
      ((x ^^^ ((x &&& 0xf0000000#32) >>> 24)) &&& ~~~(x &&& 0xf0000000#32)) &&&
        0x0fffffff#32 := by
    apply BitVec.eq_of_getLsbD_eq
    intro i hi
    simp only [BitVec.getLsbD_xor, BitVec.getLsbD_and, BitVec.getLsbD_ushiftRight,
      BitVec.getLsbD_not, hi, decide_true, Bool.true_and]
    interval_cases i <;> simp
  rw [hhigh, BitVec.lt_def, BitVec.toNat_and]
  exact Nat.lt_succ_of_le Nat.and_le_right

/-- The hash is that of the ELF ABI for every name, and it has 28 bits. -/
theorem elf_hash_is_that_of_the_abi (name : CString) :
    elf_hash name = abiHash name ∧ (elf_hash name).toNat < 2 ^ 28 := by
  have hbound : ∀ (bs : List Byte) (h : BitVec 32), h < 0x10000000#32 →
      bs.foldl abiHashStep h < 0x10000000#32 := by
    intro bs
    induction bs with
    | nil => exact fun h hlt => hlt
    | cons c bs ih => exact fun h _ => ih _ (abiHashStep_lt h c)
  refine ⟨elf_hash_eq_abiHash name, ?_⟩
  rw [elf_hash_eq_abiHash]
  exact BitVec.lt_def.mp (hbound name.bytes 0 (by decide))

/-! ## The lookup -/

abbrev STN_UNDEF : BitVec 32 := 0
abbrev SHN_UNDEF : BitVec 16 := 0
abbrev STT_NOTYPE : BitVec 8 := 0
abbrev STT_OBJECT : BitVec 8 := 1
abbrev STT_FUNC : BitVec 8 := 2
abbrev STT_COMMON : BitVec 8 := 5

/-- `ELF64_ST_TYPE(info)`. -/
def ST_TYPE (info : BitVec 8) : BitVec 8 := info &&& 0xf

/-- `struct sym_val`: the symbol found and the object that it is in. -/
structure SymVal where
  s : Sym
  m : Ptr
deriving DecidableEq

/-- `check_match`, with `type_class` equal to 1. -/
def check_match (strtab : List Byte) (name : CString) (sym : Sym) : Option Sym :=
  if sym.st_value = 0 ∨ sym.st_shndx = SHN_UNDEF then none
  else if ¬ (ST_TYPE sym.st_info = STT_NOTYPE ∨ ST_TYPE sym.st_info = STT_OBJECT ∨
      ST_TYPE sym.st_info = STT_FUNC ∨ ST_TYPE sym.st_info = STT_COMMON) then none
  else if __strcmp (strAt strtab sym.st_name.toNat) name ≠ 0 then none
  else some sym

/-- A read of an array of the hash table, `arr` being `l_buckets` or `l_chain`. -/
def hashWord (l : LinkMap) (arr : Option Nat) (i : Nat) : Except Stop (BitVec 32) :=
  match arr with
  | none => .error (.fault .nullPointer)
  | some start =>
    match l.image.hash[start + i]? with
    | some x => .ok x
    | none => .error (.fault .outOfTable)

/-- `symtab[i]`. -/
def symAt (l : LinkMap) (i : Nat) : Except Stop Sym :=
  match l.image.symtab[i]? with
  | some sym => .ok sym
  | none => .error (.fault .outOfTable)

/-- The loop along a hash chain. A walk longer than the hash table has come
back to an index, and never ends. -/
def lookup_chain (l : LinkMap) (name : CString) : Nat → BitVec 32 → Except Stop (Option Sym)
  | fuel, symidx =>
    if symidx = STN_UNDEF then .ok none
    else match fuel with
      | 0 => .error .endless
      | fuel + 1 => do
        let sym ← symAt l symidx.toNat
        match check_match l.image.strtab name sym with
        | some sym => .ok (some sym)
        | none =>
          let next ← hashWord l l.l_chain symidx.toNat
          lookup_chain l name fuel next

/-- The body of the loop over the objects, for the object `l` at `p`. -/
def lookup_object (skip : Option Ptr) (name : CString) (hash : BitVec 32) (p : Ptr)
    (l : LinkMap) : Except Stop (Option Sym) := do
  let symtab ← D_PTR .lookup_symbol l DT_SYMTAB
  let strtab ← D_PTR .lookup_symbol l DT_STRTAB
  if some p = skip then .ok none
  else if symtab = 0 ∨ strtab = 0 then .ok none
  else if l.l_nbuckets = 0 then .error (.fault .divideByZero)
  else
    let symidx ← hashWord l l.l_buckets (hash % l.l_nbuckets).toNat
    lookup_chain l name l.image.hash.length symidx

/-- The loop along `l_next`. A walk longer than the list of all maps has come
back to an object, and never ends. -/
def lookup_objects (w : Rtld) (skip : Option Ptr) (name : CString) (hash : BitVec 32) :
    Nat → Option Ptr → Except Stop (Option SymVal)
  | _, none => .ok none
  | 0, some _ => .error .endless
  | fuel + 1, some p => do
    let l ← w.deref p
    match ← lookup_object skip name hash p l with
    | some sym => .ok (some { s := sym, m := p })
    | none => lookup_objects w skip name hash fuel l.l_next

/-- `lookup_symbol`: the result for a return of 0, `none` for a return of 1. -/
def lookup_symbol (w : Rtld) (skip : Option Ptr) (name : CString) :
    Except Stop (Option SymVal) :=
  lookup_objects w skip name (elf_hash name) w.maps.length w._namespace

/-! ## The plain scan -/

/-- The symbol is a definition of the name. -/
def Matches (strtab : List Byte) (name : CString) (sym : Sym) : Prop :=
  sym.st_value ≠ 0 ∧ sym.st_shndx ≠ SHN_UNDEF ∧
    (ST_TYPE sym.st_info = STT_NOTYPE ∨ ST_TYPE sym.st_info = STT_OBJECT ∨
      ST_TYPE sym.st_info = STT_FUNC ∨ ST_TYPE sym.st_info = STT_COMMON) ∧
    strAt strtab sym.st_name.toNat = name

instance (strtab : List Byte) (name : CString) (sym : Sym) :
    Decidable (Matches strtab name sym) := inferInstanceAs (Decidable (_ ∧ _))

/-- The symbol is in the table and matches. Index 0 is `STN_UNDEF`, which
stands for no symbol. -/
def Defines (l : LinkMap) (name : CString) (sym : Sym) : Prop :=
  ∃ i, 1 ≤ i ∧ l.image.symtab[i]? = some sym ∧ Matches l.image.strtab name sym

/-- The object at `p` holds a definition of the name. -/
def Holds (w : Rtld) (p : Ptr) (name : CString) : Prop :=
  ∃ l sym, w.maps[p]? = some l ∧ Defines l name sym

/-- What a scan of the objects `ps` in order finds: a definition in the first
object, `skip` left out, that holds one. -/
def FirstDef (w : Rtld) (ps : List Ptr) (skip : Option Ptr) (name : CString)
    (v : SymVal) : Prop :=
  ∃ pre post, ps = pre ++ v.m :: post ∧ some v.m ≠ skip ∧
    (∃ l, w.maps[v.m]? = some l ∧ Defines l name v.s) ∧
    ∀ q ∈ pre, some q ≠ skip → ¬ Holds w q name

/-! ## Well-formed hash tables -/

/-- The indices of the chain from `symidx` on are `is`, and `STN_UNDEF` ends it. -/
def ChainIs (l : LinkMap) : BitVec 32 → List Nat → Prop
  | symidx, [] => symidx = STN_UNDEF
  | symidx, i :: is => symidx ≠ STN_UNDEF ∧ symidx.toNat = i ∧ i < l.image.symtab.length ∧
      ∃ next, hashWord l l.l_chain i = .ok next ∧ ChainIs l next is

/-- The object has a symbol table, a string table and a hash table as the
linker makes it: the chain of each bucket ends, and each symbol is on the
chain of its bucket. -/
structure Searchable (l : LinkMap) : Prop where
  symtab : ∃ d, l.l_info DT_SYMTAB = some d ∧ d.d_un + l.l_addr ≠ 0
  strtab : ∃ d, l.l_info DT_STRTAB = some d ∧ d.d_un + l.l_addr ≠ 0
  nbuckets : l.l_nbuckets ≠ 0
  chains : ∀ b < l.l_nbuckets.toNat, ∃ first is, hashWord l l.l_buckets b = .ok first ∧
    ChainIs l first is ∧
    ∀ i, 1 ≤ i → ∀ sym, l.image.symtab[i]? = some sym →
      (abiHash (strAt l.image.strtab sym.st_name.toNat) % l.l_nbuckets).toNat = b → i ∈ is

/-! ## The specs -/

theorem check_match.spec (strtab : List Byte) (name : CString) (sym : Sym) :
    check_match strtab name sym = if Matches strtab name sym then some sym else none := by
  unfold check_match
  simp only [ne_eq, __strcmp.spec]
  by_cases hdef : sym.st_value = 0 ∨ sym.st_shndx = SHN_UNDEF
  · rw [if_pos hdef, if_neg]
    rintro ⟨hv, hs, _⟩
    rcases hdef with h | h
    · exact hv h
    · exact hs h
  · obtain ⟨hv, hs⟩ := not_or.mp hdef
    rw [if_neg hdef]
    by_cases htype : ST_TYPE sym.st_info = STT_NOTYPE ∨ ST_TYPE sym.st_info = STT_OBJECT ∨
        ST_TYPE sym.st_info = STT_FUNC ∨ ST_TYPE sym.st_info = STT_COMMON
    · rw [if_neg (not_not.mpr htype)]
      by_cases hname : strAt strtab sym.st_name.toNat = name
      · rw [if_neg (not_not.mpr hname), if_pos ⟨hv, hs, htype, hname⟩]
      · rw [if_pos hname, if_neg fun hm => hname hm.2.2.2]
    · rw [if_pos htype, if_neg fun hm => htype hm.2.2.1]

theorem hashWord_eq_ok {l : LinkMap} {arr : Option Nat} {i : Nat} {x : BitVec 32} :
    hashWord l arr i = .ok x ↔ ∃ start, arr = some start ∧ l.image.hash[start + i]? = some x := by
  unfold hashWord
  cases arr with
  | none => simp
  | some start => cases h : l.image.hash[start + i]? <;> simp [h]

@[simp] theorem symAt_eq_ok {l : LinkMap} {i : Nat} {sym : Sym} :
    symAt l i = .ok sym ↔ l.image.symtab[i]? = some sym := by
  unfold symAt
  cases l.image.symtab[i]? <;> simp

/-- A chain that ends holds no index twice, since an index decides the rest. -/
theorem ChainIs.nodup {l : LinkMap} {symidx : BitVec 32} {is : List Nat}
    (h : ChainIs l symidx is) : is.Nodup := by
  have hlen : ∀ (is js : List Nat) (a b : BitVec 32), ChainIs l a is → ChainIs l b js → a = b →
      is.length = js.length := by
    intro is
    induction is with
    | nil =>
      rintro (_ | ⟨j, js⟩) a b ha hb rfl
      · rfl
      · exact absurd ha hb.1
    | cons i is ih =>
      rintro (_ | ⟨j, js⟩) a b ha hb rfl
      · exact absurd hb ha.1
      · obtain ⟨_, hi, _, n, hn, hrest⟩ := ha
        obtain ⟨_, hj, _, n', hn', hrest'⟩ := hb
        subst hi hj
        rw [hn] at hn'
        cases hn'
        simp [ih js n n hrest hrest' rfl]
  induction is generalizing symidx with
  | nil => exact List.nodup_nil
  | cons i is ih =>
    obtain ⟨hne, hi, hlt, n, hn, hrest⟩ := h
    refine List.nodup_cons.mpr ⟨?_, ih hrest⟩
    intro hmem
    have htail : ∀ (js : List Nat) (a : BitVec 32), ChainIs l a js → i ∈ js →
        ∃ ks, ChainIs l symidx ks ∧ ks.length ≤ js.length := by
      intro js
      induction js with
      | nil => intro a _ hi; cases hi
      | cons j js ihj =>
        intro a ha hij
        rcases List.mem_cons.mp hij with rfl | hij
        · have : a = symidx := BitVec.eq_of_toNat_eq (by rw [ha.2.1, hi])
          exact ⟨i :: js, this ▸ ha, Nat.le_refl _⟩
        · obtain ⟨_, _, _, n', _, hrest'⟩ := ha
          obtain ⟨ks, hks, hle⟩ := ihj n' hrest' hij
          exact ⟨ks, hks, by simp; omega⟩
    obtain ⟨ks, hks, hle⟩ := htail is n hrest hmem
    have := hlen ks (i :: is) symidx symidx hks ⟨hne, hi, hlt, n, hn, hrest⟩ rfl
    simp at this
    omega

theorem ChainIs.length_le {l : LinkMap} {symidx : BitVec 32} {is : List Nat}
    (h : ChainIs l symidx is) : is.length ≤ l.image.hash.length := by
  have hmem : ∀ (is : List Nat) (a : BitVec 32), ChainIs l a is →
      ∀ i ∈ is, i < l.image.hash.length := by
    intro is
    induction is with
    | nil => intro a _ i hi; cases hi
    | cons j js ih =>
      rintro a ⟨_, _, _, n, hn, hrest⟩ i hi
      rcases List.mem_cons.mp hi with rfl | hi
      · obtain ⟨start, _, hw⟩ := hashWord_eq_ok.mp hn
        have := (List.getElem?_eq_some_iff.mp hw).1
        omega
      · exact ih n hrest i hi
  have hsub : is ⊆ List.range l.image.hash.length := by
    intro i hi
    exact List.mem_range.mpr (hmem is symidx h i hi)
  simpa using (h.nodup.subperm hsub).length_le

theorem ChainIs.one_le {l : LinkMap} {symidx : BitVec 32} {is : List Nat}
    (h : ChainIs l symidx is) {i : Nat} (hi : i ∈ is) : 1 ≤ i := by
  induction is generalizing symidx with
  | nil => cases hi
  | cons j js ih =>
    obtain ⟨hne, hj, _, n, _, hrest⟩ := h
    rcases List.mem_cons.mp hi with rfl | hi
    · rw [← hj]
      exact toNat_pos hne
    · exact ih hrest hi

/-- The walk along a chain that ends gives a match on the chain, if there is one. -/
theorem lookup_chain.spec (l : LinkMap) (name : CString) (fuel : Nat) (symidx : BitVec 32)
    (is : List Nat) (h : ChainIs l symidx is) (hfuel : is.length ≤ fuel) :
    ∃ r, lookup_chain l name fuel symidx = .ok r ∧
      (∀ sym, r = some sym → ∃ i ∈ is, l.image.symtab[i]? = some sym ∧
        Matches l.image.strtab name sym) ∧
      (r = none → ∀ i ∈ is, ∀ sym, l.image.symtab[i]? = some sym →
        ¬ Matches l.image.strtab name sym) := by
  induction is generalizing fuel symidx with
  | nil =>
    rw [ChainIs] at h
    unfold lookup_chain
    rw [if_pos h]
    exact ⟨none, rfl, by simp, by simp⟩
  | cons i is ih =>
    obtain ⟨hne, hi, hlt, next, hnext, hrest⟩ := h
    obtain ⟨fuel, rfl⟩ : ∃ f, fuel = f + 1 := ⟨fuel - 1, by simp at hfuel; omega⟩
    have hsym : l.image.symtab[i]? = some l.image.symtab[i] := List.getElem?_eq_getElem hlt
    unfold lookup_chain
    rw [if_neg hne, hi, symAt_eq_ok.mpr hsym]
    simp only [bind, Except.bind, check_match.spec, hnext]
    by_cases hm : Matches l.image.strtab name l.image.symtab[i]
    · rw [if_pos hm]
      refine ⟨_, rfl, ?_, by simp⟩
      intro sym hs
      cases hs
      exact ⟨i, List.mem_cons_self, hsym, hm⟩
    · rw [if_neg hm]
      obtain ⟨r, hr, hsome, hnone⟩ := ih fuel next hrest (by simp at hfuel; omega)
      refine ⟨r, hr, ?_, ?_⟩
      · intro sym hs
        obtain ⟨j, hj, hjs⟩ := hsome sym hs
        exact ⟨j, List.mem_cons_of_mem _ hj, hjs⟩
      · intro hr0 j hj sym hs
        rcases List.mem_cons.mp hj with rfl | hj
        · rw [hsym] at hs
          cases hs
          exact hm
        · exact hnone hr0 j hj sym hs

/-- A searchable object gives a definition of the name, if it holds one. -/
theorem lookup_object.spec (skip : Option Ptr) (name : CString) (p : Ptr) (l : LinkMap)
    (h : Searchable l) :
    ∃ r, lookup_object skip name (elf_hash name) p l = .ok r ∧
      (∀ sym, r = some sym → some p ≠ skip ∧ Defines l name sym) ∧
      (r = none → some p ≠ skip → ∀ sym, ¬ Defines l name sym) := by
  obtain ⟨d1, hd1, hne1⟩ := h.symtab
  obtain ⟨d2, hd2, hne2⟩ := h.strtab
  unfold lookup_object
  rw [D_PTR_eq_ok.mpr ⟨d1, hd1, rfl⟩, D_PTR_eq_ok.mpr ⟨d2, hd2, rfl⟩]
  simp only [bind, Except.bind]
  by_cases hskip : some p = skip
  · rw [if_pos hskip]
    exact ⟨none, rfl, by simp, fun _ hne => absurd hskip hne⟩
  · rw [if_neg hskip, if_neg (not_or.mpr ⟨hne1, hne2⟩), if_neg h.nbuckets]
    have hb : (elf_hash name % l.l_nbuckets).toNat < l.l_nbuckets.toNat := by
      rw [BitVec.toNat_umod]
      exact Nat.mod_lt _ (toNat_pos h.nbuckets)
    obtain ⟨first, is, hfirst, hchain, hall⟩ := h.chains _ hb
    obtain ⟨r, hr, hsome, hnone⟩ := lookup_chain.spec l name _ first is hchain hchain.length_le
    rw [hfirst]
    refine ⟨r, hr, ?_, ?_⟩
    · intro sym hs
      obtain ⟨i, hi, hsym, hm⟩ := hsome sym hs
      exact ⟨hskip, i, hchain.one_le hi, hsym, hm⟩
    · rintro hr0 _ sym ⟨i, hi, hsym, hm⟩
      refine hnone hr0 i (hall i hi sym hsym ?_) sym hsym hm
      rw [hm.2.2.2, elf_hash_eq_abiHash]

/-- The lookup gives the first definition in namespace order, or nothing when
no object holds one. -/
theorem lookup_objects.spec (w : Rtld) (skip : Option Ptr) (name : CString) (fuel : Nat)
    (o : Option Ptr) (ps : List Ptr) (hps : Linked w.maps o ps) (hfuel : ps.length ≤ fuel)
    (hs : ∀ p ∈ ps, ∀ l, w.maps[p]? = some l → Searchable l) :
    ∃ r, lookup_objects w skip name (elf_hash name) fuel o = .ok r ∧
      (∀ v, r = some v → FirstDef w ps skip name v) ∧
      (r = none → ∀ p ∈ ps, some p ≠ skip → ¬ Holds w p name) := by
  induction ps generalizing fuel o with
  | nil =>
    rw [Linked] at hps
    subst hps
    unfold lookup_objects
    exact ⟨none, rfl, by simp, by simp⟩
  | cons p ps ih =>
    obtain ⟨rfl, l, hl, hrest⟩ := hps
    obtain ⟨fuel, rfl⟩ : ∃ f, fuel = f + 1 := ⟨fuel - 1, by simp at hfuel; omega⟩
    obtain ⟨r, hr, hsome, hnone⟩ :=
      lookup_object.spec skip name p l (hs p List.mem_cons_self l hl)
    unfold lookup_objects
    rw [Rtld.deref_eq_ok.mpr hl]
    simp only [bind, Except.bind, hr]
    cases r with
    | some sym =>
      obtain ⟨hne, hdef⟩ := hsome sym rfl
      refine ⟨_, rfl, ?_, by simp⟩
      intro v hv
      cases hv
      exact ⟨[], ps, rfl, hne, ⟨l, hl, hdef⟩, by simp⟩
    | none =>
      have hp : some p ≠ skip → ¬ Holds w p name := by
        rintro hne ⟨l', sym, hl', hdef⟩
        rw [hl] at hl'
        cases hl'
        exact hnone rfl hne sym hdef
      obtain ⟨r, hr', hsome', hnone'⟩ := ih fuel l.l_next hrest (by simp at hfuel; omega)
        (fun q hq => hs q (List.mem_cons_of_mem _ hq))
      refine ⟨r, hr', ?_, ?_⟩
      · intro v hv
        obtain ⟨pre, post, rfl, hne, hdef, hpre⟩ := hsome' v hv
        refine ⟨p :: pre, post, rfl, hne, hdef, ?_⟩
        intro q hq
        rcases List.mem_cons.mp hq with rfl | hq
        · exact hp
        · exact hpre q hq
      · intro hr0 q hq
        rcases List.mem_cons.mp hq with rfl | hq
        · exact hp
        · exact hnone' hr0 q hq

theorem lookup_symbol.spec (w : Rtld) (skip : Option Ptr) (name : CString) (ps : List Ptr)
    (hps : Linked w.maps w._namespace ps)
    (hs : ∀ p ∈ ps, ∀ l, w.maps[p]? = some l → Searchable l) :
    ∃ r, lookup_symbol w skip name = .ok r ∧
      (∀ v, r = some v → FirstDef w ps skip name v) ∧
      (r = none → ∀ p ∈ ps, some p ≠ skip → ¬ Holds w p name) :=
  lookup_objects.spec w skip name w.maps.length w._namespace ps hps hps.length_le hs

/-! ## The law -/

/-- Hash lookup agrees with a plain scan, for every namespace with well-formed
hash tables, every object to skip and every name: it always ends, it gives a
symbol exactly when some object other than `skip` holds a definition, and then
it is a definition of the first such object. -/
theorem lookup_agrees_with_a_plain_scan (w : Rtld) (skip : Option Ptr) (name : CString)
    (ps : List Ptr) (hps : Linked w.maps w._namespace ps)
    (hs : ∀ p ∈ ps, ∀ l, w.maps[p]? = some l → Searchable l) :
    ∃ r, lookup_symbol w skip name = .ok r ∧
      (r.isSome = true ↔ ∃ p ∈ ps, some p ≠ skip ∧ Holds w p name) ∧
      ∀ v, r = some v → FirstDef w ps skip name v := by
  obtain ⟨r, hr, hsome, hnone⟩ := lookup_symbol.spec w skip name ps hps hs
  refine ⟨r, hr, ?_, hsome⟩
  cases r with
  | none =>
    simp only [Option.isSome_none, Bool.false_eq_true, false_iff]
    rintro ⟨p, hp, hne, hh⟩
    exact hnone rfl p hp hne hh
  | some v =>
    simp only [Option.isSome_some, true_iff]
    obtain ⟨pre, post, rfl, hne, ⟨l, hl, hdef⟩, _⟩ := hsome v rfl
    exact ⟨v.m, by simp, hne, l, v.s, hl, hdef⟩

/-- An object with the one symbol `x`. -/
def xObject : LinkMap :=
  { init_link_map 0x5000 { emptyImage with
      strtab := [0, 120, 0]
      symtab := [
        { st_name := 0, st_info := 0, st_shndx := 0, st_value := 0, st_size := 0 },
        { st_name := 1, st_info := 0x11, st_shndx := 4, st_value := 0x40, st_size := 8 }]
      hash := [1, 2, 1, 0, 0] } with
    l_addr := 0x1000
    l_info := fun i => if i = DT_SYMTAB ∨ i = DT_STRTAB then some { d_tag := i, d_un := 0x200 }
      else none
    l_nbuckets := 1
    l_buckets := some 2
    l_chain := some 3 }

def xWorld : Rtld where
  _dl_pagesize := 4096
  _dl_stack_flags := 0
  _namespace := some 0
  _rpath := []
  maps := [xObject]
  proc := emptyProc

/-- The smallest hash table: one bucket, and one symbol in it. -/
theorem searchable_one_symbol {l : LinkMap}
    (hsymtab : ∃ d, l.l_info DT_SYMTAB = some d ∧ d.d_un + l.l_addr ≠ 0)
    (hstrtab : ∃ d, l.l_info DT_STRTAB = some d ∧ d.d_un + l.l_addr ≠ 0)
    (hhash : l.image.hash = [1, 2, 1, 0, 0]) (hlen : l.image.symtab.length = 2)
    (hn : l.l_nbuckets = 1) (hb : l.l_buckets = some 2) (hc : l.l_chain = some 3) :
    Searchable l where
  symtab := hsymtab
  strtab := hstrtab
  nbuckets := by rw [hn]; decide
  chains := by
    intro b hlt
    have hb0 : b = 0 := by
      have : l.l_nbuckets.toNat = 1 := by rw [hn]; rfl
      omega
    subst hb0
    refine ⟨1, [1], ?_, ⟨by decide, by decide, by omega, 0, ?_, rfl⟩, ?_⟩
    · rw [hashWord_eq_ok]
      exact ⟨2, hb, by rw [hhash]; rfl⟩
    · rw [hashWord_eq_ok]
      exact ⟨3, hc, by rw [hhash]; rfl⟩
    · intro i hi sym hsym _
      have := (List.getElem?_eq_some_iff.mp hsym).1
      have hi1 : i = 1 := by omega
      simp [hi1]

theorem lookup_of_x_agrees_with_a_plain_scan :
    ∃ r, lookup_symbol xWorld none (CString.lit ['x']) = .ok r ∧
      (r.isSome = true ↔ ∃ p ∈ [0], some p ≠ none ∧ Holds xWorld p (CString.lit ['x'])) ∧
      ∀ v, r = some v → FirstDef xWorld [0] none (CString.lit ['x']) v := by
  apply lookup_agrees_with_a_plain_scan
  · exact ⟨rfl, xObject, rfl, rfl⟩
  · intro p hp l hl
    rw [List.mem_singleton] at hp
    subst hp
    cases hl
    exact searchable_one_symbol ⟨_, rfl, by decide⟩ ⟨_, rfl, by decide⟩ rfl rfl rfl rfl rfl

end elf_loader.lookup
