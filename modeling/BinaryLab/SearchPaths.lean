-- The search paths over a whole run of the loader. New paths go to the end, so
-- a name that was found once is found at the same place ever after, and its
-- object is loaded once.
import BinaryLab.LoadingRuns

set_option linter.style.nameCheck false

open binary_lab.runs binary_lab.words

namespace elf_loader.rtld

open load reloc

/-! ## Resolution is stable -/

section

variable {host : Host} {sym : Symbols} {pi : ProgramInfo} {w0 w w' : Rtld}

/-- A search in a list that has grown at its end finds what it found before. -/
theorem find_of_prefix {ns ns' : List Ptr} {f : Ptr → Bool} {p : Ptr} (h : ns <+: ns')
    (hfind : ns.find? f = some p) : ns'.find? f = some p := by
  obtain ⟨rest, rfl⟩ := h
  rw [List.find?_append, hfind, Option.some_or]

/-- An object that the namespace has for a path is still the one after any run. -/
theorem Grown.find {ns ns' : List Ptr} {path : CString} {p : Ptr} (h : Grown w w' ns ns')
    (hc : Chained w ns) (hfind : ns.find? (fun q => nameOf w q = some path) = some p) :
    ns'.find? (fun q => nameOf w' q = some path) = some p :=
  find_of_prefix h.grows (by rw [hc.find_same h.keeps, hfind])

/-- Search paths that keep their NULs lead to the same at any later time. -/
theorem open_path_later {soname : CString} {found : CString × File}
    (hgrows : w._rpath <+: w'._rpath) (hheld : ∀ s ∈ w'._rpath, Held s)
    (hopen : open_path host.fs soname (host.rpaths w) = some found) :
    open_path host.fs soname (host.rpaths w') = some found := by
  rw [rpaths_held host fun s hs => hheld s (hgrows.subset hs)] at hopen
  rw [rpaths_held host hheld]
  exact open_path_grows hopen hgrows

/-- Two entries with the same name, at any two times of a run. -/
theorem needed_twice {ns : List Ptr} {soname : CString} {st1 st1' : Deps} {p1 p2 : Ptr}
    {w1 w2 w2' : Rtld} (hc : Chained st1.w ns)
    (hfirst : map_object host soname st1.w = .ok (p1, w1))
    (htake : take_needed host soname st1 = .ok st1') (hrun : LoadRun host st1'.w w2)
    (hheld : HeldState w2) (hsecond : map_object host soname w2 = .ok (p2, w2')) : p1 = p2 := by
  obtain ⟨p, w1', path, file, ns1, hmap, hopen, hgrown, hfind⟩ := take_needed_grown hc htake
  rw [hfirst] at hmap
  cases hmap
  obtain ⟨ns2, hlater⟩ := hrun.grown hgrown.chained
  obtain ⟨path', file', hopen', hcases⟩ := map_object_cases hlater.chained hsecond
  have hgrows := hgrown.trans hlater
  rw [open_path_later hgrows.rpath hheld.rpath hopen] at hopen'
  cases hopen'
  have hstill := hlater.find hgrown.chained (hfind (hheld.before hgrows))
  rw [hheld.find host ns2 path] at hcases
  rcases hcases with ⟨hfound, _⟩ | ⟨hnone, _⟩
  · rw [hstill] at hfound
    exact Option.some.inj hfound
  · rw [hstill] at hnone
    cases hnone

end

/-- A name that is resolved, at the start of a run or at any state that the
run reaches, is resolved to the same path and file at every later state of
which the search paths keep their NULs. Hence two `DT_NEEDED` entries with the
same name, in whatever objects and at whatever times, lead to the same object,
if the names and the search paths keep their NULs until the second one. -/
theorem library_resolution_is_stable (host : Host) (sym : Symbols) (pi : ProgramInfo)
    (w0 w : Rtld) (soname : CString) (hw : Reached host sym pi w0 w) :
    (∀ found, HeldState w → open_path host.fs soname (host.rpaths w0) = some found →
      open_path host.fs soname (host.rpaths w) = some found) ∧
    (∀ found w', open_path host.fs soname (host.rpaths w) = some found → LoadRun host w w' →
      HeldState w' → open_path host.fs soname (host.rpaths w') = some found) ∧
    ∀ (st st' : Deps) (p p' : Ptr) (w1 w2 w2' : Rtld), st.w = w →
      map_object host soname w = .ok (p, w1) → take_needed host soname st = .ok st' →
      LoadRun host st'.w w2 → HeldState w2 → map_object host soname w2 = .ok (p', w2') →
      p = p' := by
  obtain ⟨ns, hc, hgrows⟩ := hw.chained
  refine ⟨?_, ?_, ?_⟩
  · intro found hheld hopen
    exact open_path_later hgrows hheld.rpath hopen
  · intro found w' hopen hrun hheld
    obtain ⟨_, hgrown⟩ := hrun.grown hc
    exact open_path_later hgrown.rpath hheld.rpath hopen
  · rintro st st' p p' w1 w2 w2' rfl hfirst htake hrun hheld hsecond
    exact needed_twice hc hfirst htake hrun hheld hsecond

/-- The loader up to the second entry of a program that needs a library twice. -/
def twiceRun (host : Host) (pi : ProgramInfo) (soname : CString) :
    Except Stop ((Ptr × Rtld) × (Ptr × Rtld) × Rtld × (Ptr × Rtld) × Deps × (Ptr × Rtld)) := do
  let scanned ← scan_program host loaderSymbols pi programWorld
  let chosen ← choose_root host loaderSymbols pi scanned.1 scanned.2
  let w ← parse_map host chosen.2 chosen.1
  let first ← map_object host soname w
  let st ← take_needed host soname { w, todo := [], nlist := 0 }
  let second ← map_object host soname st.w
  .ok (scanned, chosen, w, first, st, second)

theorem a_library_that_is_needed_twice_is_found_again :
    ∃ w st p p' w1 w2, Reached programHost loaderSymbols twiceInfo programWorld w ∧
      map_object programHost (CString.lit ['a']) w = .ok (p, w1) ∧
      take_needed programHost (CString.lit ['a']) { w, todo := [], nlist := 0 } = .ok st ∧
      map_object programHost (CString.lit ['a']) st.w = .ok (p', w2) ∧ p = p' := by
  have hheld : (twiceRun programHost twiceInfo (CString.lit ['a'])).toOption.all
      fun r => decide (HeldState r.2.2.2.2.1.w) := by decide +kernel
  obtain ⟨r, hr⟩ := exists_ok (x := twiceRun programHost twiceInfo (CString.lit ['a']))
    (by decide +kernel)
  rw [hr] at hheld
  simp only [twiceRun, bind_eq_ok] at hr
  obtain ⟨scanned, hscan, chosen, hroot, w, hparse, ⟨p, w1⟩, hfirst, st, htake, ⟨p', w2⟩,
    hsecond, hr⟩ := hr
  cases hr
  have hw : Reached programHost loaderSymbols twiceInfo programWorld w :=
    (Reached.chosen hscan hroot).step (.parse hparse)
  exact ⟨w, st, p, p', w1, w2, hw, hfirst, htake, hsecond,
    (library_resolution_is_stable programHost loaderSymbols twiceInfo programWorld w
      (CString.lit ['a']) hw).2.2 _ st p p' w1 st.w w2 rfl hfirst htake .refl
      (of_decide_eq_true hheld) hsecond⟩

/-- The library that is needed twice has a path of sixteen characters. -/
def longProgramHost : Host :=
  { programHost with fs := longHost.fs, reads := longHost.reads, keeps := longHost.keeps }

def longInfo : ProgramInfo := { programInfo with image := longImage }

/-- The copy of its path has lost the NUL when the second entry is looked up,
so that entry leads to another object. -/
theorem a_library_with_a_path_of_sixteen_characters_is_not_found_again :
    ∃ w st p p' w1 w2, Reached longProgramHost loaderSymbols longInfo programWorld w ∧
      map_object longProgramHost longName w = .ok (p, w1) ∧
      take_needed longProgramHost longName { w, todo := [], nlist := 0 } = .ok st ∧
      map_object longProgramHost longName st.w = .ok (p', w2) ∧ p ≠ p' := by
  have hplaces : (twiceRun longProgramHost longInfo longName).toOption.map
      (fun r => (r.2.2.2.1.1, r.2.2.2.2.2.1)) = some (1, 2) := by decide +kernel
  obtain ⟨r, hr⟩ := exists_ok (x := twiceRun longProgramHost longInfo longName)
    (by decide +kernel)
  rw [hr] at hplaces
  simp only [twiceRun, bind_eq_ok] at hr
  obtain ⟨scanned, hscan, chosen, hroot, w, hparse, ⟨p, w1⟩, hfirst, st, htake, ⟨p', w2⟩,
    hsecond, hr⟩ := hr
  cases hr
  have hw : Reached longProgramHost loaderSymbols longInfo programWorld w :=
    (Reached.chosen hscan hroot).step (.parse hparse)
  refine ⟨w, st, p, p', w1, w2, hw, hfirst, htake, hsecond, ?_⟩
  simp only [Except.toOption, Option.map_some, Option.some.injEq, Prod.mk.injEq] at hplaces
  rw [hplaces.1, hplaces.2]
  decide

end elf_loader.rtld
