-- `reloc_all` after the loading: every object of the namespace is relocated,
-- once, from the last one to the first one. The relocations add to the words
-- that are there, so a second round must not do anything.
import BinaryLab.LoadingRuns

set_option linter.style.nameCheck false

open binary_lab.runs binary_lab.words

namespace elf_loader.rtld

open load reloc

/-! ## The tables of an object, without a look at its mark -/

/-- Both relocation tables of the object at `p`, and the mark. -/
def apply_tables (runtime_resolve : Addr) (w : Rtld) (p : Ptr) : Except Stop Rtld := do
  let l ← w.deref p
  let mem ← relocate_rela w p l w.mem
  let mem ← relocate_plt runtime_resolve w p l mem
  .ok ((setMem w mem).put p { l with l_relocated := true })

/-- The tables of the objects, in order. -/
def apply_all (runtime_resolve : Addr) : List Ptr → Rtld → Except Stop Rtld
  | [], w => .ok w
  | p :: ps, w => do
    let w ← apply_tables runtime_resolve w p
    apply_all runtime_resolve ps w

/-- The object at `p` is relocated. -/
def Marked (w : Rtld) (p : Ptr) : Prop := ∃ l, w.maps[p]? = some l ∧ l.l_relocated = true

section

variable {runtime_resolve : Addr} {w w' : Rtld} {p q : Ptr}

theorem relocate_object_fresh (h : Fresh w p) :
    relocate_object runtime_resolve w p = apply_tables runtime_resolve w p := by
  obtain ⟨l, hl, hmark⟩ := h
  simp only [relocate_object, apply_tables, Rtld.deref_eq_ok.mpr hl, bind, Except.bind, hmark,
    Bool.false_eq_true, if_false]

theorem relocate_object_marked (h : Marked w p) : relocate_object runtime_resolve w p = .ok w := by
  obtain ⟨l, hl, hmark⟩ := h
  simp only [relocate_object, Rtld.deref_eq_ok.mpr hl, bind, Except.bind, hmark, if_true]

/-- The tables of an object mark it, and touch no other map. -/
theorem apply_tables_ok (h : apply_tables runtime_resolve w p = .ok w') :
    Marked w' p ∧ ∀ q, q ≠ p → w'.maps[q]? = w.maps[q]? := by
  simp only [apply_tables, bind_eq_ok, Rtld.deref_eq_ok] at h
  obtain ⟨l, hl, _, _, mem, _, h⟩ := h
  cases h
  have hget : ∀ q, ((setMem w mem).put p { l with l_relocated := true }).maps[q]? =
      if q = p then some { l with l_relocated := true } else w.maps[q]? := by
    intro q
    exact get_put (w := setMem w mem) hl
  refine ⟨⟨_, by rw [hget, if_pos rfl], rfl⟩, ?_⟩
  intro q hq
  rw [hget, if_neg hq]

/-- A run over fresh objects, each once, looks at no mark. -/
theorem relocate_list_fresh {ps : List Ptr} (hnodup : ps.Nodup) (hfresh : ∀ p ∈ ps, Fresh w p) :
    relocate_list runtime_resolve ps w = apply_all runtime_resolve ps w := by
  induction ps generalizing w with
  | nil => rfl
  | cons p ps ih =>
    rw [relocate_list, apply_all, relocate_object_fresh (hfresh p List.mem_cons_self)]
    rw [List.nodup_cons] at hnodup
    cases happly : apply_tables runtime_resolve w p with
    | error e => rfl
    | ok w1 =>
      have hkeep := (apply_tables_ok happly).2
      simp only [bind, Except.bind]
      apply ih hnodup.2
      intro q hq
      obtain ⟨l, hl, hmark⟩ := hfresh q (List.mem_cons_of_mem _ hq)
      refine ⟨l, ?_, hmark⟩
      rw [hkeep q (by rintro rfl; exact hnodup.1 hq), hl]

/-- After the run every object of it is marked, and marks stay. -/
theorem apply_all_marked {ps : List Ptr} (h : apply_all runtime_resolve ps w = .ok w') :
    (∀ p ∈ ps, Marked w' p) ∧ ∀ p, Marked w p → Marked w' p := by
  induction ps generalizing w with
  | nil =>
    cases h
    exact ⟨by simp, fun _ hp => hp⟩
  | cons p ps ih =>
    rw [apply_all, bind_eq_ok] at h
    obtain ⟨w1, happly, hrest⟩ := h
    obtain ⟨hmarked, hkeep⟩ := apply_tables_ok happly
    obtain ⟨hall, hstay⟩ := ih hrest
    have hfirst : ∀ q, Marked w q → Marked w1 q := by
      rintro q ⟨l, hl, hq⟩
      by_cases hqp : q = p
      · rw [hqp]
        exact hmarked
      · exact ⟨l, by rw [hkeep q hqp, hl], hq⟩
    refine ⟨?_, fun q hq => hstay q (hfirst q hq)⟩
    intro q hq
    rcases List.mem_cons.mp hq with rfl | hq
    · exact hstay _ hmarked
    · exact hall q hq

theorem relocate_list_marked {ps : List Ptr} (h : ∀ p ∈ ps, Marked w p) :
    relocate_list runtime_resolve ps w = .ok w := by
  induction ps with
  | nil => rfl
  | cons p ps ih =>
    rw [relocate_list, relocate_object_marked (h p List.mem_cons_self)]
    exact ih fun q hq => h q (List.mem_cons_of_mem _ hq)

theorem relocate_list_same {ps : List Ptr} (h : relocate_list runtime_resolve ps w = .ok w') :
    SameObjects w w' := by
  induction ps generalizing w with
  | nil =>
    cases h
    exact .refl _
  | cons p ps ih =>
    rw [relocate_list, bind_eq_ok] at h
    obtain ⟨w1, h1, h2⟩ := h
    exact (relocate_object_same h1).trans (ih h2)

theorem dLinked_same {ns : List Ptr} (h : SameObjects w w')
    (hns : DLinked w.maps none w._namespace ns) : DLinked w'.maps none w'._namespace ns := by
  rw [h.1]
  refine dLinked_congr hns ?_
  intro p _ l hl
  obtain ⟨l', hl', heq⟩ := h.get hl
  exact ⟨l', hl', unmarked_field heq LinkMap.l_next fun _ => rfl,
    unmarked_field heq LinkMap.l_prev fun _ => rfl⟩

end

/-- `ns` is the namespace, each object in it once. `reloc_all` applies the
tables of each of them once, from the last to the first, and marks them all. A
second `reloc_all` leaves the whole state as it is. -/
structure RelocatedOnce (runtime_resolve : Addr) (w : Rtld) (ns : List Ptr) : Prop where
  linked : DLinked w.maps none w._namespace ns
  nodup : ns.Nodup
  once : reloc_all runtime_resolve w = apply_all runtime_resolve ns.reverse w
  marked : ∀ w', reloc_all runtime_resolve w = .ok w' → ∀ p ∈ ns, Marked w' p
  again : ∀ w', reloc_all runtime_resolve w = .ok w' → reloc_all runtime_resolve w' = .ok w'

theorem Chained.relocatedOnce {w : Rtld} {ns : List Ptr} (h : Chained w ns)
    (runtime_resolve : Addr) : RelocatedOnce runtime_resolve w ns := by
  have hnodup := h.linked.linked.nodup
  have heq : reloc_all runtime_resolve w = relocate_list runtime_resolve ns.reverse w :=
    reloc_all_eq h.nonempty h.linked
  have honce : reloc_all runtime_resolve w = apply_all runtime_resolve ns.reverse w := by
    rw [heq]
    apply relocate_list_fresh (List.nodup_reverse.mpr hnodup)
    intro p hp
    exact h.fresh p (List.mem_reverse.mp hp)
  have hmarked : ∀ w', reloc_all runtime_resolve w = .ok w' → ∀ p ∈ ns, Marked w' p := by
    intro w' hw' p hp
    rw [honce] at hw'
    exact (apply_all_marked hw').1 p (List.mem_reverse.mpr hp)
  refine ⟨h.linked, hnodup, honce, hmarked, ?_⟩
  intro w' hw'
  have hall := hmarked w' hw'
  rw [heq] at hw'
  rw [reloc_all_eq h.nonempty (dLinked_same (relocate_list_same hw') h.linked)]
  exact relocate_list_marked fun p hp => hall p (List.mem_reverse.mp hp)

/-- For every namespace that `loader_main` has built before it calls
`reloc_all`, in either start mode and for any graph of dependencies. -/
theorem each_object_is_relocated_exactly_once (host : Host) (sym : Symbols) (fuel : Nat)
    (pi : ProgramInfo) (w0 w1 w2 w3 w : Rtld) (rtld root : Ptr)
    (hscan : scan_program host sym pi w0 = .ok (rtld, w1))
    (hroot : choose_root host sym pi rtld w1 = .ok (root, w2))
    (hparse : parse_map host w2 rtld = .ok w3) (hdeps : map_object_deps host fuel w3 root = .ok w) :
    ∃ ns, RelocatedOnce sym.runtime_resolve w ns := by
  have hw := ((Reached.chosen hscan hroot).step (.parse hparse)).run (map_object_deps_run hdeps)
  obtain ⟨ns, hc, _⟩ := hw.chained
  exact ⟨ns, hc.relocatedOnce sym.runtime_resolve⟩

theorem a_program_and_its_library_are_relocated_once :
    ∃ scanned chosen w3 w ns,
      scan_program programHost loaderSymbols twiceInfo programWorld = .ok scanned ∧
      choose_root programHost loaderSymbols twiceInfo scanned.1 scanned.2 = .ok chosen ∧
      parse_map programHost chosen.2 scanned.1 = .ok w3 ∧
      map_object_deps programHost 2 w3 chosen.1 = .ok w ∧
      RelocatedOnce loaderSymbols.runtime_resolve w ns := by
  obtain ⟨r, hr⟩ := exists_ok (x := loadedProgram programHost twiceInfo 2) (by decide +kernel)
  simp only [loadedProgram, bind_eq_ok] at hr
  obtain ⟨scanned, hscan, chosen, hroot, w3, hparse, w, hdeps, _⟩ := hr
  obtain ⟨ns, hns⟩ := each_object_is_relocated_exactly_once programHost loaderSymbols 2 twiceInfo
    programWorld scanned.2 chosen.2 w3 w scanned.1 chosen.1 hscan hroot hparse hdeps
  exact ⟨scanned, chosen, w3, w, ns, hscan, hroot, hparse, hdeps, hns⟩

end elf_loader.rtld
