-- `reloc_all` as a run of word updates. A relocated object keeps all of its
-- map but the mark that it is relocated, so every lookup of the run finds what
-- it finds at the start, and the objects can be taken one by one.
import BinaryLab.Reloc

open binary_lab.runs binary_lab.words

namespace elf_loader.reloc

open lookup

/-! ## Maps up to the mark -/

/-- The map without the mark that it is relocated. -/
def unmarked (l : LinkMap) : LinkMap := { l with l_relocated := false }

/-- A field other than the mark is the same in maps that are the same up to it. -/
theorem unmarked_field {α : Type} {l l' : LinkMap} (h : unmarked l' = unmarked l)
    (f : LinkMap → α) (hf : ∀ l, f (unmarked l) = f l) : f l' = f l := by
  rw [← hf l', h, hf]

/-- The objects are the same up to their marks. -/
def SameObjects (w w' : Rtld) : Prop :=
  w'._namespace = w._namespace ∧ w'.maps.map unmarked = w.maps.map unmarked

theorem SameObjects.refl (w : Rtld) : SameObjects w w := ⟨rfl, rfl⟩

theorem SameObjects.trans {w w1 w2 : Rtld} (h1 : SameObjects w w1) (h2 : SameObjects w1 w2) :
    SameObjects w w2 := ⟨h2.1.trans h1.1, h2.2.trans h1.2⟩

theorem SameObjects.symm {w w' : Rtld} (h : SameObjects w w') : SameObjects w' w :=
  ⟨h.1.symm, h.2.symm⟩

theorem SameObjects.length {w w' : Rtld} (h : SameObjects w w') :
    w'.maps.length = w.maps.length := by
  have := congrArg List.length h.2
  simpa using this

theorem SameObjects.get {w w' : Rtld} (h : SameObjects w w') {p : Ptr} {l : LinkMap}
    (hl : w.maps[p]? = some l) : ∃ l', w'.maps[p]? = some l' ∧ unmarked l' = unmarked l := by
  have hp := congrArg (·[p]?) h.2
  simp only [List.getElem?_map, hl, Option.map_some, Option.map_eq_some_iff] at hp
  exact hp

theorem lookup_chain_unmarked (l : LinkMap) (name : CString) (fuel : Nat) (symidx : BitVec 32) :
    lookup_chain (unmarked l) name fuel symidx = lookup_chain l name fuel symidx := by
  induction fuel generalizing symidx with
  | zero => rfl
  | succ fuel ih =>
    unfold lookup_chain
    simp only [ih]
    rfl

theorem lookup_object_unmarked (skip : Option Ptr) (name : CString) (hash : BitVec 32) (p : Ptr)
    (l : LinkMap) :
    lookup_object skip name hash p (unmarked l) = lookup_object skip name hash p l := by
  unfold lookup_object
  simp only [lookup_chain_unmarked]
  rfl

theorem lookup_objects_same {w w' : Rtld} (h : SameObjects w w') (skip : Option Ptr)
    (name : CString) (hash : BitVec 32) (fuel : Nat) (o : Option Ptr) :
    lookup_objects w' skip name hash fuel o = lookup_objects w skip name hash fuel o := by
  induction fuel generalizing o with
  | zero => cases o <;> rfl
  | succ fuel ih =>
    cases o with
    | none => rfl
    | some p =>
      simp only [lookup_objects, Rtld.deref]
      cases hl : w.maps[p]? with
      | none =>
        have hp := congrArg (·[p]?) h.2
        simp only [List.getElem?_map, hl, Option.map_none, Option.map_eq_none_iff] at hp
        rw [hp]
        rfl
      | some l =>
        obtain ⟨l', hl', heq⟩ := h.get hl
        have hobj : lookup_object skip name hash p l' = lookup_object skip name hash p l := by
          rw [← lookup_object_unmarked _ _ _ _ l', heq, lookup_object_unmarked]
        have hnext : l'.l_next = l.l_next := unmarked_field heq LinkMap.l_next fun _ => rfl
        rw [hl']
        simp only [bind, Except.bind, hobj, hnext, ih]

theorem lookup_symbol_same {w w' : Rtld} (h : SameObjects w w') (skip : Option Ptr)
    (name : CString) : lookup_symbol w' skip name = lookup_symbol w skip name := by
  unfold lookup_symbol
  rw [h.length, h.1, lookup_objects_same h]

theorem Resolves.same {w w' : Rtld} (h : SameObjects w w') {skip : Option Ptr} {name : CString}
    {addr : Addr} (hr : Resolves w skip name addr) : Resolves w' skip name addr := by
  obtain ⟨v, m, hv, hm, rfl⟩ := hr
  obtain ⟨m', hm', heq⟩ := h.get hm
  have haddr : m'.l_addr = m.l_addr := unmarked_field heq LinkMap.l_addr fun _ => rfl
  exact ⟨v, m', by rw [lookup_symbol_same h, hv], hm', by rw [haddr]⟩

theorem EntryUpdate.same {w w' : Rtld} (h : SameObjects w w') {p : Ptr} {l : LinkMap}
    {rela : Rela} {u : Update} (hu : EntryUpdate w p l rela u) : EntryUpdate w' p l rela u := by
  cases hu with
  | relative hname htype => exact .relative hname htype
  | jumpSlot hname htype => exact .jumpSlot hname htype
  | symbol hname htype hres => exact .symbol hname htype (hres.same h)
  | copy hname htype hres => exact .copy hname htype (hres.same h)

/-! ## The updates of an object -/

/-- The number of entries that a size tag stands for. -/
def entryCount (l : LinkMap) (tag : Nat) : Nat :=
  ((l.l_info tag).map fun d => d.d_un.toNat / sizeofRela).getD 0

/-- The entries of `DT_RELA` that `relocate_object` goes over. -/
def relaEntries (l : LinkMap) : List Rela :=
  if D_VALID l DT_RELA then l.image.rela.take (entryCount l DT_RELASZ) else []

/-- The entries of `DT_JMPREL` that `relocate_object` goes over. -/
def pltEntries (l : LinkMap) : List Rela :=
  if D_VALID l DT_PLTGOT then l.image.jmprel.take (entryCount l DT_PLTRELSZ) else []

def entries (l : LinkMap) : List Rela := relaEntries l ++ pltEntries l

/-- The address of the GOT. -/
def gotAddr (l : LinkMap) : Addr := ((l.l_info DT_PLTGOT).map fun d => d.d_un + l.l_addr).getD 0

/-- The stores to `got[1]` and `got[2]`. -/
def gotUpdates (runtime_resolve : Addr) (l : LinkMap) : List Update :=
  if D_VALID l DT_PLTGOT then
    [⟨gotAddr l + 8, fun _ => l.self⟩, ⟨gotAddr l + 16, fun _ => runtime_resolve⟩]
  else []

/-- The words that `relocate_object` stores to. -/
def dests (l : LinkMap) : List Addr :=
  (entries l).map (target l) ++
    if D_VALID l DT_PLTGOT then [gotAddr l + 8, gotAddr l + 16] else []

/-- An object with a GOT has every tag that its relocation reads. -/
def PltReady (l : LinkMap) : Prop :=
  D_VALID l DT_PLTGOT → (l.l_info DT_JMPREL).isSome ∧ (l.l_info DT_PLTRELSZ).isSome ∧
    (l.l_info DT_SYMTAB).isSome ∧ (l.l_info DT_STRTAB).isSome

/-- The updates of an object. -/
def ObjectUpdates (runtime_resolve : Addr) (w : Rtld) (p : Ptr) (us : List Update) : Prop :=
  ∃ l es, w.maps[p]? = some l ∧ PltReady l ∧
    List.Forall₂ (EntryUpdate w p l) (entries l) es ∧ us = es ++ gotUpdates runtime_resolve l

theorem relocate_rela_ok {w : Rtld} {p : Ptr} {l : LinkMap} {mem mem' : Bytes}
    (h : relocate_rela w p l mem = .ok mem') :
    ∃ es, List.Forall₂ (EntryUpdate w p l) (relaEntries l) es ∧ mem' = applyAll mem es := by
  unfold relocate_rela at h
  unfold relaEntries
  split_ifs at h ⊢ with hv
  · simp only [bind_eq_ok, D_VAL_eq_ok, reloc_rela_eq_ok] at h
    obtain ⟨_, _, size, ⟨d, hd, rfl⟩, _, _, _, es, hes, rfl⟩ := h
    have hcount : entryCount l DT_RELASZ = d.d_un.toNat / sizeofRela := by
      simp [entryCount, hd]
    rw [hcount]
    exact ⟨es, hes, rfl⟩
  · cases h
    exact ⟨[], .nil, rfl⟩

theorem relocate_plt_ok {runtime_resolve : Addr} {w : Rtld} {p : Ptr} {l : LinkMap}
    {mem mem' : Bytes} (h : relocate_plt runtime_resolve w p l mem = .ok mem') :
    PltReady l ∧ ∃ es, List.Forall₂ (EntryUpdate w p l) (pltEntries l) es ∧
      mem' = applyAll mem (es ++ gotUpdates runtime_resolve l) := by
  unfold relocate_plt at h
  unfold PltReady pltEntries gotUpdates
  split_ifs at h ⊢ with hv
  · simp only [bind_eq_ok, D_PTR_eq_ok, D_VAL_eq_ok] at h
    obtain ⟨got, ⟨dg, hdg, rfl⟩, _, ⟨dj, hdj, _⟩, pltrel, _, size, ⟨d, hd, rfl⟩, h⟩ := h
    have hcount : entryCount l DT_PLTRELSZ = d.d_un.toNat / sizeofRela := by
      simp [entryCount, hd]
    have hgot : gotAddr l = dg.d_un + l.l_addr := by simp [gotAddr, hdg]
    split_ifs at h
    simp only [bind_eq_ok, reloc_rela_eq_ok] at h
    obtain ⟨mem1, ⟨hsymtab, hstrtab, _, es, hes, rfl⟩, h⟩ := h
    cases h
    rw [hcount]
    refine ⟨fun _ => ⟨by simp [hdj], by simp [hd], hsymtab, hstrtab⟩, es, hes, ?_⟩
    rw [applyAll_append, hgot]
    rfl
  · cases h
    exact ⟨fun hv' => absurd hv' hv, [], .nil, rfl⟩

/-- The state after the relocation of an object that was not relocated. -/
theorem relocate_object_ok {runtime_resolve : Addr} {w w' : Rtld} {p : Ptr} {l : LinkMap}
    (hl : w.maps[p]? = some l) (hfresh : l.l_relocated = false)
    (h : relocate_object runtime_resolve w p = .ok w') :
    ∃ us, ObjectUpdates runtime_resolve w p us ∧
      w' = (setMem w (applyAll w.mem us)).put p { l with l_relocated := true } := by
  simp only [relocate_object, bind_eq_ok, Rtld.deref_eq_ok] at h
  obtain ⟨l', hl', h⟩ := h
  rw [hl] at hl'
  cases hl'
  rw [hfresh] at h
  simp only [Bool.false_eq_true, if_false, bind_eq_ok] at h
  obtain ⟨mem1, h1, mem2, h2, h⟩ := h
  cases h
  obtain ⟨es1, hes1, rfl⟩ := relocate_rela_ok h1
  obtain ⟨hready, es2, hes2, rfl⟩ := relocate_plt_ok h2
  refine ⟨(es1 ++ es2) ++ gotUpdates runtime_resolve l, ⟨l, es1 ++ es2, hl, hready, ?_, rfl⟩, ?_⟩
  · exact List.rel_append hes1 hes2
  · rw [List.append_assoc, applyAll_append _ es1]

/-! ## The run over the objects -/

/-- The relocation of objects one after the other. -/
def relocate_list (runtime_resolve : Addr) : List Ptr → Rtld → Except Stop Rtld
  | [], w => .ok w
  | p :: ps, w => do
    let w ← relocate_object runtime_resolve w p
    relocate_list runtime_resolve ps w

theorem relocate_list_append (runtime_resolve : Addr) (ps qs : List Ptr) (w : Rtld) :
    relocate_list runtime_resolve (ps ++ qs) w =
      (do relocate_list runtime_resolve qs (← relocate_list runtime_resolve ps w)) := by
  induction ps generalizing w with
  | nil => rfl
  | cons p ps ih =>
    simp only [List.cons_append, relocate_list]
    cases relocate_object runtime_resolve w p with
    | error e => rfl
    | ok w1 => exact ih w1

theorem sameObjects_mark {w : Rtld} {p : Ptr} {l : LinkMap} (hl : w.maps[p]? = some l)
    (mem : Bytes) : SameObjects w ((setMem w mem).put p { l with l_relocated := true }) := by
  refine ⟨rfl, ?_⟩
  have hget : (w.maps.map unmarked)[p]? = some (unmarked l) := by simp [hl]
  obtain ⟨hlt, heq⟩ := List.getElem?_eq_some_iff.mp hget
  simp only [Rtld.put, setMem, List.map_set]
  rw [show unmarked { l with l_relocated := true } = unmarked l from rfl, ← heq,
    List.set_getElem_self]

theorem relocate_object_same {runtime_resolve : Addr} {w w' : Rtld} {p : Ptr}
    (h : relocate_object runtime_resolve w p = .ok w') : SameObjects w w' := by
  have h' := h
  simp only [relocate_object, bind_eq_ok, Rtld.deref_eq_ok] at h
  obtain ⟨l, hl, h⟩ := h
  cases hr : l.l_relocated with
  | true =>
    rw [hr] at h
    cases h
    exact .refl w
  | false =>
    obtain ⟨us, _, rfl⟩ := relocate_object_ok hl hr h'
    exact sameObjects_mark hl _

/-- The object is not relocated yet. -/
def Fresh (w : Rtld) (p : Ptr) : Prop := ∃ l, w.maps[p]? = some l ∧ l.l_relocated = false

theorem ObjectUpdates.same {runtime_resolve : Addr} {w w' : Rtld} (h : SameObjects w' w)
    {p : Ptr} {us : List Update} (hget : w'.maps[p]? = w.maps[p]?)
    (hu : ObjectUpdates runtime_resolve w p us) : ObjectUpdates runtime_resolve w' p us := by
  obtain ⟨l, es, hl, hready, hes, rfl⟩ := hu
  refine ⟨l, es, by rw [hget, hl], hready, ?_, rfl⟩
  exact hes.imp fun _ _ hu => hu.same h.symm

/-- A run over fresh objects is the run of their updates, as the state `w`
before the whole run has them. -/
theorem relocate_list_ok {runtime_resolve : Addr} {w w1 w2 : Rtld} {qs : List Ptr}
    (hsame : SameObjects w w1) (hnodup : qs.Nodup) (hfresh : ∀ q ∈ qs, Fresh w q)
    (hget : ∀ q ∈ qs, w1.maps[q]? = w.maps[q]?)
    (h : relocate_list runtime_resolve qs w1 = .ok w2) :
    SameObjects w w2 ∧ (∀ r, r ∉ qs → w2.maps[r]? = w1.maps[r]?) ∧
      ∃ uss, List.Forall₂ (ObjectUpdates runtime_resolve w) qs uss ∧
        w2.mem = applyAll w1.mem uss.flatten := by
  induction qs generalizing w1 with
  | nil =>
    cases h
    exact ⟨hsame, fun _ _ => rfl, [], .nil, rfl⟩
  | cons q qs ih =>
    rw [relocate_list, bind_eq_ok] at h
    obtain ⟨w3, h3, h⟩ := h
    rw [List.nodup_cons] at hnodup
    obtain ⟨l, hl, hmark⟩ := hfresh q List.mem_cons_self
    have hl1 : w1.maps[q]? = some l := by rw [hget q List.mem_cons_self, hl]
    have hsame3 := hsame.trans (relocate_object_same h3)
    obtain ⟨us, hus, rfl⟩ := relocate_object_ok hl1 hmark h3
    have hkeep : ∀ r, r ≠ q →
        ((setMem w1 (applyAll w1.mem us)).put q { l with l_relocated := true }).maps[r]? =
          w1.maps[r]? := by
      intro r hr
      exact List.getElem?_set_ne hr.symm
    obtain ⟨hsame2, hout, uss, huss, hmem⟩ := ih hsame3 hnodup.2
      (fun r hr => hfresh r (List.mem_cons_of_mem _ hr)) (by
        intro r hr
        rw [hkeep r (by rintro rfl; exact hnodup.1 hr), hget r (List.mem_cons_of_mem _ hr)]) h
    refine ⟨hsame2, ?_, us :: uss, .cons ?_ huss, ?_⟩
    · intro r hr
      rw [List.mem_cons, not_or] at hr
      rw [hout r hr.2, hkeep r hr.1]
    · exact hus.same hsame (by rw [hl1, hl])
    · rw [hmem, List.flatten_cons, applyAll_append]
      rfl

theorem prevLinked_same {w w' : Rtld} (h : SameObjects w w') {ps : List Ptr} {o : Option Ptr}
    (hp : PrevLinked w.maps o ps) : PrevLinked w'.maps o ps := by
  induction ps generalizing o with
  | nil => exact hp
  | cons p ps ih =>
    obtain ⟨ho, l, hl, hrest⟩ := hp
    obtain ⟨l', hl', heq⟩ := h.get hl
    have hprev : l'.l_prev = l.l_prev := unmarked_field heq LinkMap.l_prev fun _ => rfl
    exact ⟨ho, l', hl', by rw [hprev]; exact ih hrest⟩

theorem last_object_eq {w : Rtld} {p : Ptr} {ps : List Ptr} {fuel : Nat}
    (h : Linked w.maps (some p) ps) (hfuel : ps.length ≤ fuel) :
    ∃ last, last_object w fuel p = .ok last ∧ ps.getLast? = some last := by
  induction ps generalizing p fuel with
  | nil => cases h
  | cons q ps ih =>
    obtain ⟨hq, l, hl, hrest⟩ := h
    cases hq
    obtain ⟨fuel, rfl⟩ : ∃ f, fuel = f + 1 := ⟨fuel - 1, by simp at hfuel; omega⟩
    unfold last_object
    rw [Rtld.deref_eq_ok.mpr hl]
    simp only [bind, Except.bind]
    cases ps with
    | nil =>
      rw [Linked] at hrest
      rw [hrest]
      exact ⟨q, rfl, rfl⟩
    | cons r rs =>
      have hnext := hrest.1
      rw [hnext] at hrest ⊢
      obtain ⟨last, h1, h2⟩ := ih hrest (by simp at hfuel ⊢; omega)
      exact ⟨last, h1, by rw [List.getLast?_cons_cons, h2]⟩

theorem reloc_back_eq {runtime_resolve : Addr} {ps : List Ptr} {w : Rtld} {o : Option Ptr}
    {fuel : Nat} (h : PrevLinked w.maps o ps) (hfuel : ps.length ≤ fuel) :
    reloc_back runtime_resolve fuel o w = relocate_list runtime_resolve ps w := by
  induction ps generalizing w o fuel with
  | nil =>
    rw [PrevLinked] at h
    subst h
    cases fuel <;> rfl
  | cons p ps ih =>
    obtain ⟨rfl, l, hl, hrest⟩ := h
    obtain ⟨fuel, rfl⟩ : ∃ f, fuel = f + 1 := ⟨fuel - 1, by simp at hfuel; omega⟩
    rw [reloc_back, relocate_list]
    cases hobj : relocate_object runtime_resolve w p with
    | error e => rfl
    | ok w1 =>
      have hsame := relocate_object_same hobj
      obtain ⟨l', hl', heq⟩ := hsame.get hl
      have hprev : l'.l_prev = l.l_prev := unmarked_field heq LinkMap.l_prev fun _ => rfl
      simp only [bind, Except.bind, Rtld.deref_eq_ok.mpr hl', hprev]
      exact ih (prevLinked_same hsame hrest) (by simp at hfuel; omega)

/-- `reloc_all` relocates the namespace from its last object to the first one. -/
theorem reloc_all_eq {runtime_resolve : Addr} {w : Rtld} {ps : List Ptr} (hne : ps ≠ [])
    (h : DLinked w.maps none w._namespace ps) :
    reloc_all runtime_resolve w = relocate_list runtime_resolve ps.reverse w := by
  cases ps with
  | nil => exact absurd rfl hne
  | cons p ps =>
    have hlink := h.linked
    have hns : w._namespace = some p := h.1
    rw [hns] at hlink
    obtain ⟨last, hlast, hget⟩ := last_object_eq hlink hlink.length_le
    have hnil : PrevLinked w.maps none [] := rfl
    have hback := h.prevLinked hnil
    rw [hget, List.append_nil] at hback
    unfold reloc_all
    rw [hns]
    simp only [bind, Except.bind, hlast]
    exact reloc_back_eq hback (by rw [List.length_reverse]; exact hlink.length_le)

/-! ## Words of a run -/

/-- The words that the relocation of the object at `p` stores to. -/
def destsOf (w : Rtld) (p : Ptr) : List Addr := ((w.maps[p]?).map dests).getD []

/-- No two words of the whole run share a byte. -/
def AllApart (w : Rtld) (ps : List Ptr) : Prop := (ps.flatMap (destsOf w)).Pairwise Apart

theorem ObjectUpdates.map_dest {runtime_resolve : Addr} {w : Rtld} {p : Ptr} {us : List Update}
    (h : ObjectUpdates runtime_resolve w p us) : us.map Update.dest = destsOf w p := by
  obtain ⟨l, es, hl, _, hes, rfl⟩ := h
  have hdest : destsOf w p = dests l := by simp [destsOf, hl]
  rw [hdest, List.map_append, EntryUpdate.map_dest hes, dests, gotUpdates]
  split_ifs <;> rfl

theorem flatten_map_dest {runtime_resolve : Addr} {w : Rtld} {qs : List Ptr}
    {uss : List (List Update)} (h : List.Forall₂ (ObjectUpdates runtime_resolve w) qs uss) :
    uss.flatten.map Update.dest = qs.flatMap (destsOf w) := by
  induction h with
  | nil => rfl
  | cons hu _ ih =>
    rw [List.flatten_cons, List.map_append, hu.map_dest, ih, List.flatMap_cons]

/-- The updates of a run lie apart, in whatever order it takes the objects. -/
theorem flatten_apart {runtime_resolve : Addr} {w : Rtld} {ps qs : List Ptr}
    {uss : List (List Update)} (hapart : AllApart w ps) (hperm : qs.Perm ps)
    (h : List.Forall₂ (ObjectUpdates runtime_resolve w) qs uss) :
    uss.flatten.Pairwise fun u v => Apart u.dest v.dest := by
  have hsymm : ∀ {a b : Addr}, Apart a b → Apart b a := fun h => h.symm
  have hqs : (qs.flatMap (destsOf w)).Pairwise Apart :=
    ((hperm.flatMap_right (destsOf w)).pairwise_iff hsymm).mpr hapart
  rw [← flatten_map_dest h, List.pairwise_map] at hqs
  exact hqs

/-- The updates of an object of the run are in it. -/
theorem mem_flatten {runtime_resolve : Addr} {w : Rtld} {qs : List Ptr}
    {uss : List (List Update)} (h : List.Forall₂ (ObjectUpdates runtime_resolve w) qs uss)
    {p : Ptr} (hp : p ∈ qs) {l : LinkMap} (hl : w.maps[p]? = some l) :
    PltReady l ∧ (∀ rela ∈ entries l, ∃ u ∈ uss.flatten, EntryUpdate w p l rela u) ∧
      ∀ u ∈ gotUpdates runtime_resolve l, u ∈ uss.flatten := by
  induction h with
  | nil => cases hp
  | @cons q us qs uss hu _ ih =>
    rcases List.mem_cons.mp hp with rfl | hp
    · obtain ⟨l', es, hl', hready, hes, rfl⟩ := hu
      rw [hl] at hl'
      cases hl'
      refine ⟨hready, ?_, ?_⟩
      · intro rela hrela
        obtain ⟨u, hmem, hu⟩ := exists_update_of_mem hes hrela
        exact ⟨u, by simp [hmem], hu⟩
      · intro u hu
        simp [hu]
    · obtain ⟨hready, h1, h2⟩ := ih hp
      refine ⟨hready, ?_, ?_⟩
      · intro rela hrela
        obtain ⟨u, hmem, hu⟩ := h1 rela hrela
        exact ⟨u, List.mem_append_right _ hmem, hu⟩
      · intro u hu
        exact List.mem_append_right _ (h2 u hu)

/-- A namespace as the loader hands it to `reloc_all`: linked both ways, with
nothing relocated yet, and no word that two relocations store to. -/
structure Unrelocated (w : Rtld) (ps : List Ptr) : Prop where
  linked : DLinked w.maps none w._namespace ps
  fresh : ∀ p ∈ ps, Fresh w p
  apart : AllApart w ps

/-- `reloc_all` on such a namespace is the run of the updates of its objects,
the last object first. -/
theorem reloc_all_ok {runtime_resolve : Addr} {w w' : Rtld} {ps : List Ptr} (hne : ps ≠ [])
    (hun : Unrelocated w ps) (h : reloc_all runtime_resolve w = .ok w') :
    SameObjects w w' ∧ ∃ uss, List.Forall₂ (ObjectUpdates runtime_resolve w) ps.reverse uss ∧
      w'.mem = applyAll w.mem uss.flatten := by
  rw [reloc_all_eq hne hun.linked] at h
  have hnodup := hun.linked.linked.nodup
  obtain ⟨hsame, _, hrun⟩ := relocate_list_ok (.refl w)
    ((List.reverse_perm ps).nodup_iff.mpr hnodup)
    (fun q hq => hun.fresh q (List.mem_reverse.mp hq)) (fun _ _ => rfl) h
  exact ⟨hsame, hrun⟩

/-- The word that an entry leaves after the whole run. -/
theorem Unrelocated.read64_entry {runtime_resolve : Addr} {w w' : Rtld} {ps : List Ptr}
    (h : Unrelocated w ps) (hrun : reloc_all runtime_resolve w = .ok w') {p : Ptr} (hp : p ∈ ps)
    {l : LinkMap} (hl : w.maps[p]? = some l) {rela : Rela} (hrela : rela ∈ entries l) :
    ∃ u mem, EntryUpdate w p l rela u ∧
      read64 mem (target l rela) = read64 w.mem (target l rela) ∧
      read64 w'.mem (target l rela) = u.value mem := by
  obtain ⟨_, uss, huss, hmem⟩ := reloc_all_ok (List.ne_nil_of_mem hp) h hrun
  obtain ⟨_, hentries, _⟩ := mem_flatten huss (List.mem_reverse.mpr hp) hl
  obtain ⟨u, hu, hentry⟩ := hentries rela hrela
  obtain ⟨pre, post, _, hold, hnew⟩ := read64_applyAll_pairwise uss.flatten w.mem
    (flatten_apart h.apart (List.reverse_perm ps) huss) hu
  rw [hentry.dest] at hold hnew
  exact ⟨u, applyAll w.mem pre, hentry, hold, by rw [hmem, hnew]⟩

/-- `got[1]` and `got[2]` after the whole run. -/
theorem Unrelocated.read64_got {runtime_resolve : Addr} {w w' : Rtld} {ps : List Ptr}
    (h : Unrelocated w ps) (hrun : reloc_all runtime_resolve w = .ok w') {p : Ptr} (hp : p ∈ ps)
    {l : LinkMap} (hl : w.maps[p]? = some l) (hgot : D_VALID l DT_PLTGOT = true) :
    PltReady l ∧ read64 w'.mem (gotAddr l + 8) = l.self ∧
      read64 w'.mem (gotAddr l + 16) = runtime_resolve := by
  obtain ⟨_, uss, huss, hmem⟩ := reloc_all_ok (List.ne_nil_of_mem hp) h hrun
  obtain ⟨hready, _, hgots⟩ := mem_flatten huss (List.mem_reverse.mpr hp) hl
  have hapart := flatten_apart h.apart (List.reverse_perm ps) huss
  unfold gotUpdates at hgots
  rw [if_pos hgot] at hgots
  obtain ⟨_, _, _, _, h1⟩ := read64_applyAll_pairwise uss.flatten w.mem hapart
    (hgots _ List.mem_cons_self)
  obtain ⟨_, _, _, _, h2⟩ := read64_applyAll_pairwise uss.flatten w.mem hapart
    (hgots _ (List.mem_cons_of_mem _ List.mem_cons_self))
  rw [hmem]
  exact ⟨hready, h1, h2⟩

end elf_loader.reloc
