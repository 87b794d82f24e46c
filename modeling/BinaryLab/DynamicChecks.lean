-- Are the checks at the end of `parse_dynamic` enough? Each function that
-- reads `l_info` is followed to the tags that it reads without a look at
-- `D_VALID`. The checks ask for all of them but two: DT_JMPREL, in whose
-- place DT_PLTREL is asked for twice, and DT_SYMTAB of an object that has
-- DT_PLTGOT and no DT_RELA.
import BinaryLab.Deps
import BinaryLab.Reloc

set_option linter.style.nameCheck false

open binary_lab.runs binary_lab.words binary_lab.pages

namespace elf_loader.load

open lookup reloc

/-! ## Where a missing tag is met -/

/-- A run that reads the entry of a missing tag does so in a function of `S`. -/
def MissesOnlyIn {α : Type} (S : Fn → Prop) (x : Except Stop α) : Prop :=
  ∀ fn tag, x = .error (.fault (.nullInfo fn tag)) → S fn

section

variable {α β : Type} {S : Fn → Prop}

theorem MissesOnlyIn.ok (a : α) : MissesOnlyIn S (.ok a : Except Stop α) := by
  intro fn tag h
  cases h

theorem MissesOnlyIn.exit (e : Exit) : MissesOnlyIn S (.error (.exit e) : Except Stop α) := by
  intro fn tag h
  cases h

theorem MissesOnlyIn.endless : MissesOnlyIn S (.error .endless : Except Stop α) := by
  intro fn tag h
  cases h

/-- A fault of another kind. -/
theorem MissesOnlyIn.fault {f : Fault} (hf : ∀ fn tag, f ≠ .nullInfo fn tag) :
    MissesOnlyIn S (.error (.fault f) : Except Stop α) := by
  intro fn tag h
  cases h
  exact absurd rfl (hf fn tag)

theorem MissesOnlyIn.bind {x : Except Stop α} {f : α → Except Stop β} (hx : MissesOnlyIn S x)
    (hf : ∀ a, x = .ok a → MissesOnlyIn S (f a)) : MissesOnlyIn S (x >>= f) := by
  cases x with
  | error e =>
    intro fn tag h
    apply hx fn tag
    simpa [Bind.bind, Except.bind] using h
  | ok a => exact hf a rfl

theorem MissesOnlyIn.ite {c : Prop} [Decidable c] {x y : Except Stop α}
    (hx : c → MissesOnlyIn S x) (hy : ¬ c → MissesOnlyIn S y) :
    MissesOnlyIn S (if c then x else y) := by
  by_cases hc : c
  · rw [if_pos hc]
    exact hx hc
  · rw [if_neg hc]
    exact hy hc

theorem assert_misses (cond : Bool) (text : String) : MissesOnlyIn S (assert cond text) :=
  MissesOnlyIn.ite (fun _ => .ok _) fun _ => .exit _

theorem deref_misses (w : Rtld) (p : Ptr) : MissesOnlyIn S (w.deref p) := by
  unfold Rtld.deref
  cases w.maps[p]? with
  | none => exact .fault (by simp)
  | some l => exact .ok l

theorem D_PTR_misses (fn : Fn) (l : LinkMap) (i : Nat) (h : D_VALID l i = false → S fn) :
    MissesOnlyIn S (D_PTR fn l i) := by
  unfold D_PTR
  cases hi : l.l_info i with
  | none =>
    intro fn' tag heq
    cases heq
    exact h (by rw [D_VALID, hi]; rfl)
  | some d => exact .ok _

theorem D_VAL_misses (fn : Fn) (l : LinkMap) (i : Nat) (h : D_VALID l i = false → S fn) :
    MissesOnlyIn S (D_VAL fn l i) := by
  unfold D_VAL
  cases hi : l.l_info i with
  | none =>
    intro fn' tag heq
    cases heq
    exact h (by rw [D_VALID, hi]; rfl)
  | some d => exact .ok _

/-! ## The relocation of an object -/

theorem symAt_misses (l : LinkMap) (i : Nat) : MissesOnlyIn S (symAt l i) := by
  unfold symAt
  cases l.image.symtab[i]? with
  | none => exact .fault (by simp)
  | some sym => exact .ok sym

theorem hashWord_misses (l : LinkMap) (arr : Option Nat) (i : Nat) :
    MissesOnlyIn S (hashWord l arr i) := by
  unfold hashWord
  cases arr with
  | none => exact .fault (by simp)
  | some start =>
    simp only
    cases l.image.hash[start + i]? with
    | none => exact .fault (by simp)
    | some x => exact .ok x

theorem lookup_chain_misses (l : LinkMap) (name : CString) (fuel : Nat) (symidx : BitVec 32) :
    MissesOnlyIn S (lookup_chain l name fuel symidx) := by
  induction fuel generalizing symidx with
  | zero =>
    unfold lookup_chain
    exact .ite (fun _ => .ok _) fun _ => .endless
  | succ fuel ih =>
    unfold lookup_chain
    refine .ite (fun _ => .ok _) fun _ => (symAt_misses l _).bind fun sym _ => ?_
    split
    · exact .ok _
    · exact (hashWord_misses l _ _).bind fun next _ => ih next

theorem lookup_object_misses (hS : S .lookup_symbol) (skip : Option Ptr) (name : CString)
    (hash : BitVec 32) (p : Ptr) (l : LinkMap) :
    MissesOnlyIn S (lookup_object skip name hash p l) := by
  unfold lookup_object
  refine (D_PTR_misses _ l _ fun _ => hS).bind fun symtab _ => ?_
  refine (D_PTR_misses _ l _ fun _ => hS).bind fun strtab _ => ?_
  refine .ite (fun _ => .ok _) fun _ => .ite (fun _ => .ok _) fun _ => ?_
  refine .ite (fun _ => .fault (by simp)) fun _ => ?_
  exact (hashWord_misses l _ _).bind fun symidx _ => lookup_chain_misses l name _ symidx

theorem lookup_symbol_misses (hS : S .lookup_symbol) (w : Rtld) (skip : Option Ptr)
    (name : CString) : MissesOnlyIn S (lookup_symbol w skip name) := by
  unfold lookup_symbol
  generalize w.maps.length = fuel, w._namespace = o
  induction fuel generalizing o with
  | zero =>
    cases o with
    | none => exact .ok _
    | some p => exact .endless
  | succ fuel ih =>
    cases o with
    | none => exact .ok _
    | some p =>
      refine (deref_misses w p).bind fun l _ => ?_
      refine (lookup_object_misses hS skip name _ p l).bind fun found _ => ?_
      cases found with
      | none => exact ih l.l_next
      | some sym => exact .ok _

theorem find_symbol_misses (hS : S .lookup_symbol) (w : Rtld) (skip : Option Ptr)
    (name : CString) : MissesOnlyIn S (find_symbol w skip name) := by
  unfold find_symbol
  refine (lookup_symbol_misses hS w skip name).bind fun found _ => ?_
  cases found with
  | none => exact .exit _
  | some v => exact (deref_misses w v.m).bind fun m _ => .ok _

theorem reloc_loop_misses (hS : S .lookup_symbol) (w : Rtld) (p : Ptr) (l : LinkMap)
    (count : Nat) (table : List Rela) (mem : Bytes) :
    MissesOnlyIn S (reloc_loop w p l count table mem) := by
  induction count generalizing table mem with
  | zero => exact .ok mem
  | succ count ih =>
    cases table with
    | nil => exact .fault (by simp)
    | cons rela table =>
      refine .bind ?_ fun mem' _ => ih table mem'
      unfold reloc_entry
      refine (symAt_misses l _).bind fun sym _ => ?_
      refine .ite (fun _ => .ok _) fun _ => .ite (fun _ => ?_) fun _ => .ite (fun _ => .ok _)
        fun _ => .ite (fun _ => ?_) fun _ => .ite (fun _ => ?_) fun _ => .exit _
      all_goals exact (find_symbol_misses hS w _ _).bind fun addr _ => .ok _

/-- `reloc_rela` reads two tags, and a third one if it is there. -/
theorem reloc_rela_misses (hS : S .lookup_symbol) (w : Rtld) (p : Ptr) {l : LinkMap}
    (hsymtab : D_VALID l DT_SYMTAB) (hstrtab : D_VALID l DT_STRTAB) (table : List Rela)
    (count : Nat) (mem : Bytes) : MissesOnlyIn S (reloc_rela w p l table count mem) := by
  unfold reloc_rela got_of
  refine (D_PTR_misses _ l _ (by simp [hsymtab])).bind fun _ _ => ?_
  refine (D_PTR_misses _ l _ (by simp [hstrtab])).bind fun _ _ => ?_
  refine .bind (.ite (fun hgot => D_PTR_misses _ l _ (by simp [hgot])) fun _ => .ok _) ?_
  exact fun _ _ => reloc_loop_misses hS w p l count table mem

/-! ## The loading of an object -/

theorem memset_misses (a : Addr) (c : Byte) (n : Nat) (s : Proc) :
    MissesOnlyIn S (memset a c n s) := by
  unfold memset
  cases s.space.fill a n c with
  | none => exact .fault (by simp)
  | some space => exact .ok _

theorem zero_fill_misses (kern : Kernel) (ps : Addr) (prot : Prot) (zero zeroend : Addr)
    (s : Proc) : MissesOnlyIn S (zero_fill kern ps prot zero zeroend s) := by
  unfold zero_fill
  refine .bind ?_ fun s' _ => ?_
  · unfold zero_tail clear_tail
    refine .ite (fun _ => .ite (fun _ => memset_misses _ _ _ _) fun _ => ?_) fun _ => .ok _
    refine .ite (fun _ => .exit _) fun _ => ?_
    exact (memset_misses _ _ _ _).bind fun s'' _ => .ite (fun _ => .exit _) fun _ => .ok _
  · unfold zero_pages
    exact .ite (fun _ => .ite (fun _ => .exit _) fun _ => .ok _) fun _ => .ok _

theorem postmap_body_misses (kern : Kernel) (ps : Addr) (header : Ehdr) (c : Loadcmd)
    (l : LinkMap) (s : Proc) : MissesOnlyIn S (postmap_body kern ps header c l s) := by
  unfold postmap_body
  exact .ite (fun _ => (zero_fill_misses _ _ _ _ _ _).bind fun s' _ => .ok _) fun _ => .ok _

theorem loadcmd_loop_misses (kern : Kernel) (ps : Addr) (file : List Byte) (header : Ehdr)
    (l : LinkMap) (s : Proc) (cs : List Loadcmd) :
    MissesOnlyIn S (loadcmd_loop kern ps file header l s cs) := by
  induction cs generalizing l s with
  | nil => exact .ok _
  | cons c cs ih =>
    unfold loadcmd_loop
    refine .bind ?_ fun s' _ => ?_
    · unfold map_pages
      exact .ite (fun _ => .ite (fun _ => .exit _) fun _ => .ok _) fun _ => .ok _
    · exact (postmap_body_misses _ _ _ _ _ _).bind fun r _ => ih r.1 r.2

theorem map_object_loadcmd_misses (kern : Kernel) (ps : Addr) (file : List Byte) (header : Ehdr)
    (cs : List Loadcmd) (maplength : BitVec 64) (has_holes postmap : Bool) (l : LinkMap)
    (s : Proc) :
    MissesOnlyIn S (map_object_loadcmd kern ps file header cs maplength has_holes postmap l s) := by
  unfold map_object_loadcmd
  cases cs with
  | nil => exact .fault (by simp)
  | cons c cs =>
    refine .ite (fun _ => ?_) fun _ => loadcmd_loop_misses _ _ _ _ _ _ _
    exact (postmap_body_misses _ _ _ _ _ _).bind fun r _ => loadcmd_loop_misses _ _ _ _ _ _ _

theorem parse_phdr_loop_misses (ps : Addr) (st : PhdrState) (phdr : List Phdr) :
    MissesOnlyIn S (parse_phdr_loop ps st phdr) := by
  induction phdr generalizing st with
  | nil => exact .ok _
  | cons ph phs ih =>
    refine .bind ?_ fun st' _ => ih st'
    unfold parse_phdr_entry
    refine .ite (fun _ => ?_) fun _ => .ite (fun _ => .ok _) fun _ => .ite (fun _ => .ok _)
      fun _ => .ok _
    exact (assert_misses _ _).bind fun _ _ => (assert_misses _ _).bind fun _ _ => .ok _

theorem map_segments_misses (kern : Kernel) (ps : Addr) (file : List Byte) (header : Ehdr)
    (phdr : List Phdr) (l : LinkMap) (s : Proc) :
    MissesOnlyIn S (map_segments kern ps file header phdr l s) := by
  unfold map_segments
  refine .bind (parse_phdr_loop_misses _ _ _) fun st _ => ?_
  split
  · exact .ite (fun _ => map_object_loadcmd_misses _ _ _ _ _ _ _ _ _ _)
      fun _ => map_object_loadcmd_misses _ _ _ _ _ _ _ _ _ _
  · exact .fault (by simp)

theorem index_dynamic_misses (map : LinkMap) (dyns : List Dyn) :
    MissesOnlyIn S (index_dynamic map dyns) := by
  induction dyns generalizing map with
  | nil => exact .ok _
  | cons dyn dyns ih =>
    refine .bind ?_ fun map' _ => ih map'
    have hrest : ∀ map' : LinkMap, MissesOnlyIn S
        (if dyn.d_tag = DT_AUXILIARY then .error (.exit .auxiliaryNotSupported)
          else if dyn.d_tag = DT_FILTER then .error (.exit .filterNotSupported)
          else .ok map' : Except Stop LinkMap) :=
      fun map' => .ite (fun _ => .exit _) fun _ => .ite (fun _ => .exit _) fun _ => .ok _
    unfold index_entry
    refine .ite (fun _ => .ite (fun _ => ?_) fun _ => ?_) fun _ => ?_
    · exact .bind (.fault (by simp)) fun map' _ => hrest map'
    · exact .bind (.ok _) fun map' _ => hrest map'
    · exact .bind (.ok _) fun map' _ => hrest map'

theorem add_rpaths_misses (reads : Reads) (strtab : Addr) (tab : List Byte)
    (rpath : List CString) (dyns : List Dyn) :
    MissesOnlyIn S (add_rpaths reads strtab tab rpath dyns) := by
  induction dyns generalizing rpath with
  | nil => exact .ok _
  | cons dyn dyns ih =>
    refine .bind ?_ fun rpath' _ => ih rpath'
    unfold add_rpath_entry add_rpath
    refine .ite (fun _ => .ok _) fun _ => (assert_misses _ _).bind fun _ _ => ?_
    exact .ite (fun _ => .ok _) fun _ => .ite (fun _ => .exit _) fun _ =>
      .ite (fun _ => .ok _) fun _ => .fault (by simp)

theorem check_dynamic_assert_misses (hcheck : S .check_dynamic_assert) (l : LinkMap) :
    MissesOnlyIn S (check_dynamic_assert l) := by
  unfold check_dynamic_assert check_needed check_rela check_relaent check_pltgot check_syment
    check_hash
  refine .bind (.ite (fun _ => assert_misses _ _) fun _ => .ok _) fun _ _ => ?_
  refine .bind (.ite (fun _ => ?_) fun _ => .ok _) fun _ _ => ?_
  · refine .bind ?_ fun _ _ => (assert_misses _ _).bind fun _ _ =>
      (assert_misses _ _).bind fun _ _ => assert_misses _ _
    refine (D_PTR_misses _ l _ fun _ => hcheck).bind fun relaent _ => ?_
    refine .ite (fun _ => .ok _) fun _ => ?_
    exact (D_VAL_misses _ l _ fun _ => hcheck).bind fun size _ => assert_misses _ _
  refine .bind (.ite (fun _ => ?_) fun _ => .ok _) fun _ _ => ?_
  · refine (assert_misses _ _).bind fun _ _ => (assert_misses _ _).bind fun _ _ =>
      (assert_misses _ _).bind fun _ _ => ?_
    exact (D_VAL_misses _ l _ fun _ => hcheck).bind fun pltrel _ => assert_misses _ _
  refine .bind (.ite (fun _ => ?_) fun _ => .ok _) fun _ _ => ?_
  · exact (D_VAL_misses _ l _ fun _ => hcheck).bind fun syment _ => assert_misses _ _
  exact .ite (fun _ => (assert_misses _ _).bind fun _ _ => assert_misses _ _) fun _ => .ok _

theorem parse_dynamic_misses (hparse : S .parse_dynamic) (hcheck : S .check_dynamic_assert)
    (reads : Reads) (rpath : List CString) (map : LinkMap) :
    MissesOnlyIn S (parse_dynamic reads rpath map) := by
  unfold parse_dynamic
  refine (assert_misses _ _).bind fun _ _ => (index_dynamic_misses _ _).bind fun map' _ => ?_
  refine (D_PTR_misses _ map' _ fun _ => hparse).bind fun strtab _ => ?_
  refine (add_rpaths_misses _ _ _ _ _).bind fun rpath' _ => .bind ?_ fun map'' _ => ?_
  · unfold setup_hash
    refine .ite (fun _ => ?_) fun _ => .ok _
    refine (D_PTR_misses _ map' _ fun _ => hparse).bind fun hash _ => ?_
    split
    · exact .ok _
    · exact .fault (by simp)
  · exact (check_dynamic_assert_misses hcheck map'').bind fun _ _ => .ok _

theorem map_object_misses (hparse : S .parse_dynamic) (hcheck : S .check_dynamic_assert)
    (host : Host) (soname : CString) (w : Rtld) :
    MissesOnlyIn S (map_object host soname w) := by
  unfold map_object
  split
  · exact .exit _
  · refine .bind ?_ fun found _ => ?_
    · generalize w.maps.length = fuel, w._namespace = o
      induction fuel generalizing o with
      | zero =>
        cases o with
        | none => exact .ok _
        | some p => exact .endless
      | succ fuel ih =>
        cases o with
        | none => exact .ok _
        | some p =>
          refine (deref_misses w p).bind fun l _ => ?_
          split
          · exact .fault (by simp)
          · exact .ite (fun _ => .ok _) fun _ => ih l.l_next
    · split
      · exact .ok _
      · unfold map_object_fd
        split
        · exact .exit _
        · refine .ite (fun _ => .exit _) fun _ => .bind ?_ fun phdr _ => .bind ?_ fun r _ => .ok _
          · unfold fetch_phdr
            refine .ite (fun _ => .ok _) fun _ => ?_
            split
            · exact .exit _
            · exact .ok _
          · unfold load_object
            refine .bind (map_segments_misses _ _ _ _ _ _ _) fun r _ => ?_
            exact (parse_dynamic_misses hparse hcheck _ _ _).bind fun r' _ => .ok _

theorem link_last_misses (w : Rtld) (prev : Option Ptr) (p : Ptr) :
    MissesOnlyIn S (link_last w prev p) := by
  unfold link_last
  refine (deref_misses w p).bind fun l _ => ?_
  cases prev with
  | none => exact .ok _
  | some q => exact (deref_misses _ q).bind fun m _ => .ok _

theorem append_loop_misses (w : Rtld) (p : Ptr) (fuel : Nat) (prev o : Option Ptr) :
    MissesOnlyIn S (append_loop w p fuel prev o) := by
  induction fuel generalizing prev o with
  | zero =>
    cases o with
    | none => exact link_last_misses w prev p
    | some q => exact .endless
  | succ fuel ih =>
    cases o with
    | none => exact link_last_misses w prev p
    | some q =>
      exact .ite (fun _ => .ok w) fun _ => (deref_misses w q).bind fun l _ => ih (some q) l.l_next

/-- The walk over the dynamic section reads one tag of the object itself. -/
theorem needed_loop_misses (hparse : S .parse_dynamic) (hcheck : S .check_dynamic_assert)
    (host : Host) {l : LinkMap} (hstrtab : D_VALID l DT_STRTAB) (st : Deps) (dyns : List Dyn) :
    MissesOnlyIn S (needed_loop host l st dyns) := by
  induction dyns generalizing st with
  | nil => exact .ok _
  | cons dyn dyns ih =>
    refine .bind ?_ fun st' _ => ih st'
    refine (D_PTR_misses _ l _ (by simp [hstrtab])).bind fun _ _ => ?_
    refine .ite (fun _ => .ok _) fun _ => ?_
    refine (map_object_misses hparse hcheck host _ st.w).bind fun r _ => ?_
    refine (deref_misses _ _).bind fun m _ => ?_
    exact (append_loop_misses _ _ _ _ _).bind fun w' _ => .ok _

end

/-! ## What the checks promise -/

/-- The tags that an object has if the checks pass. -/
structure Checked (l : LinkMap) : Prop where
  rela : D_VALID l DT_RELA → D_VALID l DT_RELASZ ∧ D_VALID l DT_SYMTAB
  pltgot : D_VALID l DT_PLTGOT → D_VALID l DT_PLTRELSZ ∧
    ∃ d, l.l_info DT_PLTREL = some d ∧ d.d_un.toNat = DT_RELA

theorem check_dynamic_assert.spec {l : LinkMap} (h : check_dynamic_assert l = .ok ()) :
    Checked l := by
  simp only [check_dynamic_assert, bind_eq_ok] at h
  obtain ⟨_, _, _, hrela, _, hplt, _⟩ := h
  constructor
  · intro hv
    rw [check_rela, if_pos hv] at hrela
    simp only [bind_eq_ok, assert_eq_ok] at hrela
    obtain ⟨_, _, _, hsz, _, hsym, _⟩ := hrela
    exact ⟨hsz, hsym⟩
  · intro hv
    rw [check_pltgot, if_pos hv] at hplt
    simp only [bind_eq_ok, assert_eq_ok, D_VAL_eq_ok] at hplt
    obtain ⟨_, _, _, hsz, _, _, pltrel, ⟨d, hd, rfl⟩, hrela⟩ := hplt
    exact ⟨hsz, d, hd, by simpa using hrela⟩

/-- The map of the object at a later time. The loader has kept what
`parse_dynamic` has found, and the tables. -/
def Later (l l' : LinkMap) : Prop := l'.l_info = l.l_info ∧ l'.image = l.image

/-- No use of the object after `parse_dynamic` reads the entry of a missing
tag: neither the walk over its `DT_NEEDED` entries, nor its relocation, nor
the fix-up of its GOT, which only an object with a GOT is given to. What a
lookup reads of the other objects is not in question. -/
structure SafeUse (l : LinkMap) : Prop where
  walk : ∀ l', Later l l' → ∀ host st tag,
    needed_loop host l' st l'.image.dynamic ≠ .error (.fault (.nullInfo .map_object_deps tag))
  relocate : ∀ l', Later l l' → ∀ runtime_resolve (w : Rtld) (p : Ptr), w.maps[p]? = some l' →
    ∀ fn tag, fn ≠ .lookup_symbol →
      relocate_object runtime_resolve w p ≠ .error (.fault (.nullInfo fn tag))
  fixup : D_VALID l DT_PLTGOT → ∀ l', Later l l' → ∀ (w : Rtld) (p : Ptr) (n : BitVec 32),
    w.maps[p]? = some l' → ∀ fn tag, fn ≠ .lookup_symbol →
      got_fixup w p n ≠ .error (.fault (.nullInfo fn tag))

/-- The object has an entry with the tag, in its dynamic section or from before. -/
def HasTag (map : LinkMap) (tag : Nat) : Prop :=
  (indexed map.l_info map.image.dynamic tag).isSome = true

/-- The two tags that the checks forget. -/
def PltComplete (map : LinkMap) : Prop :=
  HasTag map DT_PLTGOT → HasTag map DT_JMPREL ∧ HasTag map DT_SYMTAB

theorem hasTag_iff {rpath rpath' : List CString} {map l : LinkMap}
    (h : Parsed rpath map l rpath') (tag : Nat) : HasTag map tag ↔ D_VALID l tag := by
  unfold HasTag D_VALID
  rw [h.frame]

theorem relocate_object_misses {l : LinkMap} (hstrtab : D_VALID l DT_STRTAB) (hc : Checked l)
    (hplt : D_VALID l DT_PLTGOT → D_VALID l DT_JMPREL ∧ D_VALID l DT_SYMTAB)
    (runtime_resolve : Addr) {w : Rtld} {p : Ptr} (hl : w.maps[p]? = some l) :
    MissesOnlyIn (· = .lookup_symbol) (relocate_object runtime_resolve w p) := by
  unfold relocate_object
  refine (deref_misses w p).bind fun l' hl' => ?_
  rw [Rtld.deref_eq_ok, hl, Option.some.injEq] at hl'
  subst hl'
  refine .ite (fun _ => .ok _) fun _ => .bind ?_ fun mem _ => .bind ?_ fun mem' _ => .ok _
  · refine .ite (fun hrela => ?_) fun _ => .ok _
    obtain ⟨hsz, hsym⟩ := hc.rela hrela
    refine (D_PTR_misses _ l _ (by simp [hrela])).bind fun _ _ => ?_
    refine (D_VAL_misses _ l _ (by simp [hsz])).bind fun relasz _ => ?_
    exact reloc_rela_misses (S := (· = .lookup_symbol)) rfl w p hsym hstrtab _ _ _
  · refine .ite (fun hgot => ?_) fun _ => .ok _
    obtain ⟨hjmprel, hsym⟩ := hplt hgot
    obtain ⟨hsz, d, hd, _⟩ := hc.pltgot hgot
    refine (D_PTR_misses _ l _ (by simp [hgot])).bind fun got _ => ?_
    refine (D_PTR_misses _ l _ (by simp [hjmprel])).bind fun _ _ => ?_
    refine (D_VAL_misses _ l _ (by simp [D_VALID, hd])).bind fun pltrel _ => ?_
    refine (D_VAL_misses _ l _ (by simp [hsz])).bind fun pltrelsz _ => ?_
    refine .ite (fun _ => .exit _) fun _ => ?_
    exact (reloc_rela_misses (S := (· = .lookup_symbol)) rfl w p hsym hstrtab _ _ _).bind
      fun mem' _ => .ok _

theorem got_fixup_misses {l : LinkMap} (hstrtab : D_VALID l DT_STRTAB) (hc : Checked l)
    (hgot : D_VALID l DT_PLTGOT) (hjmprel : D_VALID l DT_JMPREL) (hsym : D_VALID l DT_SYMTAB)
    {w : Rtld} {p : Ptr} (hl : w.maps[p]? = some l) (n : BitVec 32) :
    MissesOnlyIn (· = .lookup_symbol) (got_fixup w p n) := by
  unfold got_fixup
  refine (deref_misses w p).bind fun l' hl' => ?_
  rw [Rtld.deref_eq_ok, hl, Option.some.injEq] at hl'
  subst hl'
  refine (D_PTR_misses _ l _ (by simp [hjmprel])).bind fun _ _ => ?_
  refine (D_VAL_misses _ l _ (by simp [(hc.pltgot hgot).1])).bind fun pltrelsz _ => ?_
  refine .bind ?_ fun rela _ => ?_
  · unfold relaAt
    cases l.image.jmprel[n.toNat]? with
    | none => exact .fault (by simp)
    | some rela => exact .ok rela
  refine (D_PTR_misses _ l _ (by simp [hgot])).bind fun _ _ => ?_
  refine (assert_misses _ _).bind fun _ _ => ?_
  refine (D_PTR_misses _ l _ (by simp [hsym])).bind fun _ _ => ?_
  refine (D_PTR_misses _ l _ (by simp [hstrtab])).bind fun _ _ => ?_
  refine (symAt_misses l _).bind fun sym _ => ?_
  exact (find_symbol_misses (S := (· = .lookup_symbol)) rfl w none _).bind fun jmp _ => .ok _

/-- A state with one object. -/
def oneObject (l : LinkMap) : Rtld where
  _dl_pagesize := 0x1000
  _dl_stack_flags := 0
  _namespace := some 0
  _rpath := []
  maps := [l]
  proc := emptyProc

/-- Without `DT_JMPREL` the fix-up stops at once. -/
theorem got_fixup_without_jmprel {l : LinkMap} (h : l.l_info DT_JMPREL = none) (n : BitVec 32) :
    got_fixup (oneObject l) 0 n = .error (.fault (.nullInfo .got_fixup DT_JMPREL)) := by
  simp [got_fixup, oneObject, Rtld.deref, D_PTR, h, bind, Except.bind]

/-- Without `DT_SYMTAB` the relocation stops at the PLT. -/
theorem relocate_object_without_symtab {l : LinkMap} (hc : Checked l) (hgot : D_VALID l DT_PLTGOT)
    (hjmprel : D_VALID l DT_JMPREL) (hsym : l.l_info DT_SYMTAB = none)
    (hfresh : l.l_relocated = false) (runtime_resolve : Addr) :
    relocate_object runtime_resolve (oneObject l) 0 =
      .error (.fault (.nullInfo .reloc_rela DT_SYMTAB)) := by
  have hrela : D_VALID l DT_RELA = false := by
    rw [Bool.eq_false_iff]
    intro hv
    have := (hc.rela hv).2
    rw [D_VALID, hsym] at this
    cases this
  obtain ⟨hsz, pltrel, hpltrel, hseven⟩ := hc.pltgot hgot
  obtain ⟨got, hgot'⟩ := Option.isSome_iff_exists.mp hgot
  obtain ⟨jmprel, hjmprel'⟩ := Option.isSome_iff_exists.mp hjmprel
  obtain ⟨sz, hsz'⟩ := Option.isSome_iff_exists.mp hsz
  simp [relocate_object, oneObject, Rtld.deref, hfresh, relocate_rela, hrela, relocate_plt, hgot,
    D_PTR, D_VAL, hgot', hjmprel', hsz', hpltrel, hseven, reloc_rela, hsym, bind, Except.bind]

/-- For every dynamic section that `parse_dynamic` accepts, no later use of
the object reads the entry of a missing tag if and only if an object with
`DT_PLTGOT` has `DT_JMPREL` and `DT_SYMTAB`. -/
theorem the_checks_are_enough_iff_the_plt_is_complete (reads : Reads)
    (rpath rpath' : List CString) (map l : LinkMap)
    (hparse : parse_dynamic reads rpath map = .ok (l, rpath')) :
    SafeUse l ↔ PltComplete map := by
  have hp := parse_dynamic.spec hparse
  have hc := check_dynamic_assert.spec hp.checked
  simp only [PltComplete, hasTag_iff hp]
  constructor
  · intro hsafe hgot
    have hjmprel : D_VALID l DT_JMPREL := by
      by_contra hno
      rw [D_VALID, Option.not_isSome_iff_eq_none] at hno
      exact hsafe.fixup hgot l ⟨rfl, rfl⟩ (oneObject l) 0 0 rfl .got_fixup DT_JMPREL (by decide)
        (got_fixup_without_jmprel hno 0)
    refine ⟨hjmprel, ?_⟩
    by_contra hno
    rw [D_VALID, Option.not_isSome_iff_eq_none] at hno
    -- The same object before its relocation.
    have hstop := relocate_object_without_symtab (l := { l with l_relocated := false })
      ⟨hc.rela, hc.pltgot⟩ hgot hjmprel hno rfl 0
    exact hsafe.relocate { l with l_relocated := false } ⟨rfl, rfl⟩ 0 _ 0 rfl .reloc_rela
      DT_SYMTAB (by decide) hstop
  · intro hplt
    have hlater : ∀ l', Later l l' → Checked l' ∧ ∀ tag, D_VALID l' tag = D_VALID l tag := by
      rintro l' ⟨hinfo, _⟩
      refine ⟨⟨?_, ?_⟩, fun tag => by rw [D_VALID, D_VALID, hinfo]⟩
      · simpa only [D_VALID, hinfo] using hc.rela
      · simpa only [D_VALID, hinfo] using hc.pltgot
    refine ⟨?_, ?_, ?_⟩
    · intro l' hl' host st tag hstop
      have hstrtab : D_VALID l' DT_STRTAB := ((hlater l' hl').2 _).trans hp.strtab
      have := needed_loop_misses (S := (· ≠ .map_object_deps)) (by decide) (by decide) host
        hstrtab st l'.image.dynamic _ _ hstop
      exact this rfl
    · intro l' hl' runtime_resolve w p hget fn tag hfn hstop
      obtain ⟨hc', htag⟩ := hlater l' hl'
      refine hfn (relocate_object_misses ((htag _).trans hp.strtab) hc' ?_ runtime_resolve hget
        fn tag hstop)
      simpa only [htag] using hplt
    · intro hgot l' hl' w p n hget fn tag hfn hstop
      obtain ⟨hc', htag⟩ := hlater l' hl'
      obtain ⟨hjmprel, hsym⟩ := hplt hgot
      exact hfn (got_fixup_misses ((htag _).trans hp.strtab) hc' ((htag _).trans hgot)
        ((htag _).trans hjmprel) ((htag _).trans hsym) hget n fn tag hstop)

/-- A dynamic section with a GOT and `DT_PLTREL`, but without `DT_JMPREL`. -/
def gotWithoutJmprel : LinkMap :=
  { init_link_map 0x4000 { emptyImage with
      dynamic := [⟨DT_STRTAB, 0x100⟩, ⟨DT_SYMTAB, 0x200⟩, ⟨DT_PLTGOT, 0x300⟩,
        ⟨DT_PLTREL, 7⟩, ⟨DT_PLTRELSZ, 24⟩] } with
    l_ld := 0x80 }

theorem the_checks_of_a_got_without_jmprel :
    ∃ l rpath, parse_dynamic asCopied [] gotWithoutJmprel = .ok (l, rpath) ∧
      (SafeUse l ↔ PltComplete gotWithoutJmprel) := by
  have hok : (parse_dynamic asCopied [] gotWithoutJmprel).isOk = true := by decide
  cases hparse : parse_dynamic asCopied [] gotWithoutJmprel with
  | error e =>
    rw [hparse] at hok
    cases hok
  | ok r =>
    obtain ⟨l, rpath⟩ := r
    exact ⟨l, rpath, rfl,
      the_checks_are_enough_iff_the_plt_is_complete asCopied [] rpath gotWithoutJmprel l hparse⟩

/-- The dynamic section passes the checks, and the relocation of the object
reads `l_info[DT_JMPREL]`, which is NULL. -/
theorem a_got_without_jmprel_passes_the_checks :
    ∃ l rpath, parse_dynamic asCopied [] gotWithoutJmprel = .ok (l, rpath) ∧
      relocate_object 0 (oneObject l) 0 =
        .error (.fault (.nullInfo .relocate_object DT_JMPREL)) ∧
      ¬ SafeUse l := by
  have hok : (parse_dynamic asCopied [] gotWithoutJmprel).isOk = true := by decide
  cases hparse : parse_dynamic asCopied [] gotWithoutJmprel with
  | error e =>
    rw [hparse] at hok
    cases hok
  | ok r =>
    obtain ⟨l, rpath⟩ := r
    have hframe := (parse_dynamic.spec hparse).frame
    have hstop : relocate_object 0 (oneObject l) 0 =
        .error (.fault (.nullInfo .relocate_object DT_JMPREL)) := by
      rw [hframe]
      rfl
    refine ⟨l, rpath, rfl, hstop, ?_⟩
    intro hsafe
    exact hsafe.relocate l ⟨rfl, rfl⟩ 0 _ 0 rfl .relocate_object DT_JMPREL (by decide) hstop

end elf_loader.load
