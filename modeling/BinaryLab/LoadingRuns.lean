-- The loading of objects as a transition system. A step is one call that
-- `loader_main` makes while it builds the namespace: a `DT_NEEDED` entry, a
-- `parse_dynamic` or the search list at the end. What one step keeps is kept
-- by every run, whatever the objects need and in whatever order they come.
import BinaryLab.Startup

set_option linter.style.nameCheck false

open binary_lab.runs binary_lab.words

namespace elf_loader.rtld

open load reloc

/-! ## Steps and runs -/

/-- One step of the loading. -/
inductive LoadStep (host : Host) : Rtld → Rtld → Prop
  | need {soname : CString} {st st' : Deps} (h : take_needed host soname st = .ok st') :
      LoadStep host st.w st'.w
  | parse {p : Ptr} {w w' : Rtld} (h : parse_map host w p = .ok w') : LoadStep host w w'
  | searchlist {root : Ptr} {runlist : List Ptr} {nlist : Nat} {w w' : Rtld}
      (h : set_searchlist root runlist nlist w = .ok w') : LoadStep host w w'

/-- Any number of steps. -/
abbrev LoadRun (host : Host) : Rtld → Rtld → Prop := Relation.ReflTransGen (LoadStep host)

/-- The states of a run of the loader, from the state `w0` at its start,
after it has set up the namespace. -/
inductive Reached (host : Host) (sym : Symbols) (pi : ProgramInfo) (w0 : Rtld) : Rtld → Prop
  | chosen {rtld root : Ptr} {w1 w2 : Rtld} (hscan : scan_program host sym pi w0 = .ok (rtld, w1))
      (hroot : choose_root host sym pi rtld w1 = .ok (root, w2)) : Reached host sym pi w0 w2
  | step {w w' : Rtld} (hw : Reached host sym pi w0 w) (h : LoadStep host w w') :
      Reached host sym pi w0 w'

section

variable {host : Host} {sym : Symbols} {pi : ProgramInfo} {w0 w w' : Rtld}

theorem Reached.run (hw : Reached host sym pi w0 w) (h : LoadRun host w w') :
    Reached host sym pi w0 w' := by
  induction h with
  | refl => exact hw
  | tail _ hstep ih => exact ih.step hstep

/-! ## The loops are runs -/

theorem needed_loop_run {l : LinkMap} {dyns : List Dyn} {st st' : Deps}
    (h : needed_loop host l st dyns = .ok st') : LoadRun host st.w st'.w := by
  induction dyns generalizing st with
  | nil =>
    cases h
    exact .refl
  | cons dyn dyns ih =>
    rw [needed_loop, bind_eq_ok] at h
    obtain ⟨st1, h1, h2⟩ := h
    rw [needed_entry, bind_eq_ok] at h1
    obtain ⟨_, _, h1⟩ := h1
    split_ifs at h1
    · cases h1
      exact ih h2
    · exact .head (.need h1) (ih h2)

theorem deps_loop_run {fuel : Nat} {done runlist : List Ptr} {st st' : Deps}
    (h : deps_loop host fuel done st = .ok (runlist, st')) : LoadRun host st.w st'.w := by
  induction fuel generalizing done st with
  | zero =>
    unfold deps_loop at h
    cases htodo : st.todo with
    | nil =>
      rw [htodo] at h
      cases h
      exact .refl
    | cons p todo =>
      rw [htodo] at h
      cases h
  | succ fuel ih =>
    unfold deps_loop at h
    cases htodo : st.todo with
    | nil =>
      rw [htodo] at h
      cases h
      exact .refl
    | cons p todo =>
      rw [htodo] at h
      simp only [bind_eq_ok] at h
      obtain ⟨l, _, st1, h1, h2⟩ := h
      exact (needed_loop_run h1).trans (ih h2)

theorem map_object_deps_run {fuel : Nat} {root : Ptr}
    (h : map_object_deps host fuel w root = .ok w') : LoadRun host w w' := by
  simp only [map_object_deps, bind_eq_ok] at h
  obtain ⟨w1, hparse, ⟨runlist, st⟩, hloop, w2, hset, ⟨⟩, _, h⟩ := h
  cases h
  exact .head (.parse hparse) ((deps_loop_run hloop).tail (.searchlist hset))

/-! ## What a step keeps -/

/-- The namespace is the doubly linked list `ns`. Every object in it has a
name, and none is relocated yet. -/
structure Chained (w : Rtld) (ns : List Ptr) : Prop where
  linked : DLinked w.maps none w._namespace ns
  nonempty : ns ≠ []
  named : ∀ p ∈ ns, (nameOf w p).isSome
  fresh : ∀ p ∈ ns, Fresh w p

/-- Every object keeps its name, if it has one, and stays fresh, if it is. -/
structure KeepsObjects (w w' : Rtld) : Prop where
  names : ∀ (p : Ptr) (name : CString), nameOf w p = some name → nameOf w' p = some name
  fresh : ∀ p : Ptr, Fresh w p → Fresh w' p

/-- What a step of the loading does: the namespace and the search paths grow
at the end, and the objects are kept. -/
structure Grown (w w' : Rtld) (ns ns' : List Ptr) : Prop where
  chained : Chained w' ns'
  grows : ns <+: ns'
  keeps : KeepsObjects w w'
  rpath : w._rpath <+: w'._rpath

theorem KeepsObjects.trans {w1 w2 : Rtld} (h1 : KeepsObjects w w1) (h2 : KeepsObjects w1 w2) :
    KeepsObjects w w2 :=
  ⟨fun p name hn => h2.names p name (h1.names p name hn), fun p hf => h2.fresh p (h1.fresh p hf)⟩

theorem keepsObjects_of_keeps (h : Keeps w w') : KeepsObjects w w' := by
  refine ⟨fun _ _ hn => h.nameOf hn, ?_⟩
  rintro p ⟨l, hl, hmark⟩
  obtain ⟨l', hl', _⟩ := h p l hl
  exact ⟨l', hl', (h.field hl hl' LinkMap.l_relocated fun _ => rfl).trans hmark⟩

/-- The same namespace in another state. -/
theorem Chained.kept {ns : List Ptr} (h : Chained w ns) (hkeeps : KeepsObjects w w')
    (hlinked : DLinked w'.maps none w'._namespace ns) : Chained w' ns := by
  refine ⟨hlinked, h.nonempty, ?_, fun p hp => hkeeps.fresh p (h.fresh p hp)⟩
  intro p hp
  obtain ⟨name, hname⟩ := Option.isSome_iff_exists.mp (h.named p hp)
  rw [hkeeps.names p name hname]
  rfl

theorem Grown.trans {w1 w2 : Rtld} {ns ns1 ns2 : List Ptr} (h1 : Grown w w1 ns ns1)
    (h2 : Grown w1 w2 ns1 ns2) : Grown w w2 ns ns2 where
  chained := h2.chained
  grows := h1.grows.trans h2.grows
  keeps := h1.keeps.trans h2.keeps
  rpath := h1.rpath.trans h2.rpath

/-- Names are kept, so a search in the namespace finds the same. -/
theorem Chained.find_same {ns : List Ptr} (h : Chained w ns) (hkeeps : KeepsObjects w w')
    (path : CString) :
    ns.find? (fun p => nameOf w' p = some path) = ns.find? fun p => nameOf w p = some path := by
  have hsame : ∀ p ∈ ns, nameOf w' p = nameOf w p := by
    intro p hp
    obtain ⟨name, hname⟩ := Option.isSome_iff_exists.mp (h.named p hp)
    rw [hname, hkeeps.names p name hname]
  clear h
  induction ns with
  | nil => rfl
  | cons p ns ih =>
    rw [List.find?_cons, List.find?_cons, hsame p List.mem_cons_self,
      ih fun q hq => hsame q (List.mem_cons_of_mem _ hq)]

/-- An object that was loaded before is found by its name, or else a new one
is made, at the end of all maps. -/
theorem map_object_cases {ns : List Ptr} {soname : CString} {p : Ptr} (hc : Chained w ns)
    (h : map_object host soname w = .ok (p, w')) :
    ∃ path file, open_path host.fs soname (host.rpaths w) = some (path, file) ∧
      ((ns.find? (fun q => readName host w q = some path) = some p ∧ w' = w) ∨
        (ns.find? (fun q => readName host w q = some path) = none ∧ p = w.maps.length ∧
          ∃ l, FreshObject file path l ∧
            w' = { w with maps := w.maps ++ [l], _rpath := w'._rpath, proc := w'.proc } ∧
            w._rpath <+: w'._rpath)) := by
  obtain ⟨path, file, hopen⟩ := map_object_found h
  refine ⟨path, file, hopen, ?_⟩
  have hfind := find_loaded.spec host path hc.linked.linked hc.named hc.linked.linked.length_le
  simp only [map_object, hopen, hfind] at h
  cases hfound : ns.find? (fun q => readName host w q = some path) with
  | some q =>
    rw [hfound] at h
    cases h
    exact Or.inl ⟨rfl, rfl⟩
  | none =>
    rw [hfound] at h
    obtain ⟨hp, l, hfresh, hw', hgrows⟩ := map_object_fd_ok h
    exact Or.inr ⟨rfl, hp, l, hfresh, hw', hgrows⟩

/-- A new map behind all others changes nothing for the namespace. -/
theorem Chained.concat_map {ns : List Ptr} {l : LinkMap} (h : Chained w ns)
    (hmaps : w'.maps = w.maps ++ [l]) (hns : w'._namespace = w._namespace)
    (hrpath : w._rpath <+: w'._rpath) : Grown w w' ns ns := by
  have hkeeps : KeepsObjects w w' :=
    keepsObjects_of_keeps fun p m hm => ⟨m, get_concat hmaps hm, rfl⟩
  refine ⟨h.kept hkeeps ?_, List.prefix_rfl, hkeeps, hrpath⟩
  rw [hns]
  exact dLinked_congr h.linked fun p _ m hm => ⟨m, get_concat hmaps hm, rfl, rfl⟩

/-- An object goes to the end of the namespace, unless it is in it. -/
theorem take_object_grown {ns : List Ptr} (st : Deps) {st' : Deps} {p : Ptr}
    (hc : Chained st.w ns) (hname : (nameOf st.w p).isSome) (hfresh : Fresh st.w p)
    (h : take_object st p = .ok st') :
    Grown st.w st'.w ns (if p ∈ ns then ns else ns ++ [p]) := by
  have hpresent := hfresh
  obtain ⟨l, hl, _⟩ := hpresent
  obtain ⟨w', htake, hw', hkeeps, hlinked, _⟩ := take_object.spec st hc.linked hc.nonempty hl
  rw [htake] at h
  cases h
  have hkeeps := keepsObjects_of_keeps hkeeps
  have hrpath : w'._rpath = st.w._rpath := by rw [hw']
  -- Both the old objects and the new one have a name and are fresh.
  have hall : ∀ q ∈ (if p ∈ ns then ns else ns ++ [p]), (nameOf st.w q).isSome ∧ Fresh st.w q := by
    intro q hq
    split_ifs at hq
    · exact ⟨hc.named q hq, hc.fresh q hq⟩
    · rcases List.mem_append.mp hq with hq | hq
      · exact ⟨hc.named q hq, hc.fresh q hq⟩
      · rw [List.mem_singleton.mp hq]
        exact ⟨hname, hfresh⟩
  refine ⟨⟨hlinked, ?_, ?_, ?_⟩, ?_, hkeeps, hrpath ▸ List.prefix_rfl⟩
  · split_ifs
    · exact hc.nonempty
    · simp
  · intro q hq
    obtain ⟨name, hn⟩ := Option.isSome_iff_exists.mp (hall q hq).1
    rw [hkeeps.names q name hn]
    rfl
  · intro q hq
    exact hkeeps.fresh q (hall q hq).2
  · split_ifs
    · exact List.prefix_rfl
    · exact List.prefix_append _ _

/-- The names of the objects and the search paths keep their NULs. -/
structure HeldState (w : Rtld) : Prop where
  names : ∀ p name, nameOf w p = some name → Held name
  rpath : ∀ s ∈ w._rpath, Held s

instance (w : Rtld) : Decidable (HeldState w) :=
  decidable_of_iff ((∀ l ∈ w.maps, ∀ name ∈ l.l_name, Held name) ∧ ∀ s ∈ w._rpath, Held s) <| by
    constructor
    · rintro ⟨hnames, hrpath⟩
      refine ⟨fun p name hname => ?_, hrpath⟩
      obtain ⟨l, hl, hlname⟩ := nameOf_eq_some.mp hname
      exact hnames l (List.mem_of_getElem? hl) name hlname
    · intro h
      refine ⟨fun l hl name hname => ?_, h.rpath⟩
      obtain ⟨p, hp⟩ := List.getElem?_of_mem hl
      exact h.names p name (nameOf_eq_some.mpr ⟨l, hp, hname⟩)

/-- What holds of a state holds of the states before it. -/
theorem HeldState.before {ns ns' : List Ptr} (h : HeldState w') (hgrown : Grown w w' ns ns') :
    HeldState w where
  names p name hname := h.names p name (hgrown.keeps.names p name hname)
  rpath s hs := h.rpath s (hgrown.rpath.subset hs)

/-- Then a search by the names as they are read is one by the names. -/
theorem HeldState.find (h : HeldState w) (host : Host) (ns : List Ptr) (path : CString) :
    ns.find? (fun q => readName host w q = some path) =
      ns.find? fun q => nameOf w q = some path :=
  List.find?_congr fun q _ => by rw [readName_held host (h.names q)]

/-- A `DT_NEEDED` entry: afterwards the object is in the namespace. If all
copies keep their NULs, then it is the one that a search for its path finds. -/
theorem take_needed_grown {ns : List Ptr} {soname : CString} {st st' : Deps}
    (hc : Chained st.w ns) (h : take_needed host soname st = .ok st') :
    ∃ p w1 path file ns', map_object host soname st.w = .ok (p, w1) ∧
      open_path host.fs soname (host.rpaths st.w) = some (path, file) ∧
      Grown st.w st'.w ns ns' ∧
      (HeldState st.w → ns'.find? (fun q => nameOf st'.w q = some path) = some p) := by
  rw [take_needed, bind_eq_ok] at h
  obtain ⟨⟨p, w1⟩, hmap, htake⟩ := h
  obtain ⟨path, file, hopen, hcases⟩ := map_object_cases hc hmap
  refine ⟨p, w1, path, file, ?_⟩
  rcases hcases with ⟨hfind, rfl⟩ | ⟨hnone, hp, l, hfresh, hw1, hrpath⟩
  · have hmem := List.mem_of_find?_eq_some hfind
    have hgrown := take_object_grown { st with w := st.w } hc (hc.named p hmem) (hc.fresh p hmem)
      htake
    rw [if_pos hmem] at hgrown
    refine ⟨ns, hmap, hopen, hgrown, ?_⟩
    intro hheld
    rw [hc.find_same hgrown.keeps, ← hheld.find host, hfind]
  · have hmaps : w1.maps = st.w.maps ++ [l] := by rw [hw1]
    have hns : w1._namespace = st.w._namespace := by rw [hw1]
    have hfirst := hc.concat_map hmaps hns hrpath
    have hl : w1.maps[p]? = some l := by rw [hmaps, hp, List.getElem?_concat_length]
    have hname : nameOf w1 p = some path := nameOf_eq_some.mpr ⟨l, hl, hfresh.name⟩
    have hmem : p ∉ ns := by
      intro hmem
      obtain ⟨m, hm⟩ := hc.linked.linked.mem_maps hmem
      rw [hp] at hm
      exact absurd (List.getElem?_eq_some_iff.mp hm).1 (Nat.lt_irrefl _)
    have hgrown := take_object_grown { st with w := w1 } hfirst.chained
      (by rw [hname]; rfl) ⟨l, hl, hfresh.relocated⟩ htake
    rw [if_neg hmem] at hgrown
    refine ⟨ns ++ [p], hmap, hopen, hfirst.trans hgrown, ?_⟩
    intro hheld
    rw [hheld.find host] at hnone
    have hold := hc.find_same (hfirst.trans hgrown).keeps path
    rw [List.find?_append, hold, hnone, Option.none_or, List.find?_cons_of_pos]
    rw [hgrown.keeps.names p path hname]
    exact decide_eq_true rfl

theorem fresh_put {p q : Ptr} {l : LinkMap} (l' : LinkMap) (hl : w.maps[p]? = some l)
    (hmark : l'.l_relocated = l.l_relocated) (h : Fresh w q) : Fresh (w.put p l') q := by
  obtain ⟨m, hm, hfresh⟩ := h
  by_cases hq : q = p
  · subst hq
    rw [hl] at hm
    cases hm
    exact ⟨l', by rw [get_put hl, if_pos rfl], hmark.trans hfresh⟩
  · exact ⟨m, by rw [get_put hl, if_neg hq, hm], hfresh⟩

theorem parse_map_keepsObjects {p : Ptr} (h : parse_map host w p = .ok w') : KeepsObjects w w' := by
  simp only [parse_map, bind_eq_ok, Rtld.deref_eq_ok] at h
  obtain ⟨l, hl, ⟨l', rpath⟩, hparse, h⟩ := h
  cases h
  have hframe := (parse_dynamic.spec hparse).frame
  exact ⟨fun q name hn => by rw [nameOf_parsed hl hparse, hn],
    fun q hq => fresh_put l' hl (by rw [hframe]) hq⟩

theorem parse_map_grows {p : Ptr} (h : parse_map host w p = .ok w') :
    w._rpath <+: w'._rpath ∧ w'._namespace = w._namespace := by
  simp only [parse_map, bind_eq_ok] at h
  obtain ⟨l, _, ⟨l', rpath⟩, hparse, h⟩ := h
  cases h
  exact ⟨(parse_dynamic.spec hparse).grows, rfl⟩

theorem parse_map_grown {ns : List Ptr} {p : Ptr} (hc : Chained w ns)
    (h : parse_map host w p = .ok w') : Grown w w' ns ns := by
  have hkeeps := parse_map_keepsObjects h
  have hgrows := (parse_map_grows h).1
  simp only [parse_map, bind_eq_ok, Rtld.deref_eq_ok] at h
  obtain ⟨l, hl, ⟨l', rpath⟩, hparse, h⟩ := h
  cases h
  have hframe := (parse_dynamic.spec hparse).frame
  refine ⟨hc.kept hkeeps ?_, List.prefix_rfl, hkeeps, hgrows⟩
  exact dLinked_put l' hc.linked hl (by rw [hframe]) (by rw [hframe])

theorem set_searchlist_grown {ns : List Ptr} {root : Ptr} {runlist : List Ptr} {nlist : Nat}
    (hc : Chained w ns) (h : set_searchlist root runlist nlist w = .ok w') :
    Grown w w' ns ns := by
  have hkeeps := keepsObjects_of_keeps (set_searchlist_keeps h)
  unfold set_searchlist at h
  split_ifs at h
  · simp only [bind_eq_ok, Rtld.deref_eq_ok] at h
    obtain ⟨r_list, _, l, hl, h⟩ := h
    cases h
    exact ⟨hc.kept hkeeps (dLinked_put _ hc.linked hl rfl rfl), List.prefix_rfl, hkeeps,
      List.prefix_rfl⟩
  · cases h
    exact ⟨hc, List.prefix_rfl, hkeeps, List.prefix_rfl⟩

theorem LoadStep.grown {ns : List Ptr} (h : LoadStep host w w') (hc : Chained w ns) :
    ∃ ns', Grown w w' ns ns' := by
  cases h with
  | need h =>
    obtain ⟨_, _, _, _, ns', _, _, hgrown, _⟩ := take_needed_grown hc h
    exact ⟨ns', hgrown⟩
  | parse h => exact ⟨ns, parse_map_grown hc h⟩
  | searchlist h => exact ⟨ns, set_searchlist_grown hc h⟩

theorem LoadRun.grown {ns : List Ptr} (h : LoadRun host w w') (hc : Chained w ns) :
    ∃ ns', Grown w w' ns ns' := by
  induction h with
  | refl => exact ⟨ns, hc, List.prefix_rfl, ⟨fun _ _ hn => hn, fun _ hf => hf⟩, List.prefix_rfl⟩
  | tail _ hstep ih =>
    obtain ⟨ns1, h1⟩ := ih
    obtain ⟨ns2, h2⟩ := hstep.grown h1.chained
    exact ⟨ns2, h1.trans h2⟩

/-! ## The states that are reached -/

/-- The set-up of the namespace: its first object and the root are fresh, and
the search paths have grown at the end. -/
theorem choose_root_fresh {rtld root : Ptr} {w1 w2 : Rtld}
    (hscan : scan_program host sym pi w0 = .ok (rtld, w1))
    (hroot : choose_root host sym pi rtld w1 = .ok (root, w2)) :
    w2._namespace = some rtld ∧ Fresh w2 rtld ∧ Fresh w2 root ∧ w0._rpath <+: w2._rpath := by
  obtain ⟨rfl, scan, hscanned, _, hw1⟩ := scan_program_ok hscan
  have hmark : scan.l.l_relocated = false := by
    rw [hscanned, rtld_map]
    split <;> rfl
  have hl : w1.maps[w0.maps.length]? = some scan.l := by
    rw [hw1]
    exact List.getElem?_concat_length
  have hns1 : w1._namespace = some w0.maps.length := by rw [hw1]
  have hrpath1 : w1._rpath = w0._rpath := by rw [hw1]
  rw [← hrpath1]
  unfold choose_root at hroot
  split_ifs at hroot
  · obtain ⟨path, file, w3, l3, m, _, hmap, hl3, hm, hparse⟩ :=
      map_main_ok hns1 hl hscanned.unlinked.1 hroot
    obtain ⟨hmain, m1, hfresh, hw3, hgrows⟩ := map_object_fd_ok hmap
    have hmaps := congrArg Rtld.maps hw3
    have hns := congrArg Rtld._namespace hw3
    obtain ⟨hparse_grows, hparse_ns⟩ := parse_map_grows hparse
    have hkeeps := parse_map_keepsObjects hparse
    have hnamed := fresh_put { scan.l with l_name := some (CString.lit "RTLD".toList) } hl rfl
      ⟨scan.l, hl, hmark⟩
    have hfirst : Fresh w3 w0.maps.length := by
      obtain ⟨m, hm, hmark⟩ := hnamed
      exact ⟨m, get_concat hmaps hm, hmark⟩
    have hsecond : Fresh w3 root := by
      refine ⟨m1, ?_, hfresh.relocated⟩
      rw [hmaps, hmain]
      exact List.getElem?_concat_length
    have hstep : ∀ q, Fresh w3 q → Fresh w2 q := by
      intro q hq
      apply hkeeps.fresh
      exact fresh_put { m with l_prev := some w0.maps.length } hm rfl
        (fresh_put { l3 with l_next := some root } hl3 rfl hq)
    refine ⟨?_, hstep _ hfirst, hstep _ hsecond, hgrows.trans hparse_grows⟩
    rw [hparse_ns]
    exact hns.trans hns1
  · simp only [name_main, bind_eq_ok, Rtld.deref_eq_ok] at hroot
    obtain ⟨l, hl', h⟩ := hroot
    cases h
    rw [hl] at hl'
    cases hl'
    have hnamed := fresh_put { scan.l with l_name := some (CString.lit "main-program".toList) }
      hl rfl ⟨scan.l, hl, hmark⟩
    exact ⟨hns1, hnamed, hnamed, List.prefix_rfl⟩

theorem Reached.chained (h : Reached host sym pi w0 w) :
    ∃ ns, Chained w ns ∧ w0._rpath <+: w._rpath := by
  induction h with
  | @chosen rtld root w1 w2 hscan hroot =>
    obtain ⟨hns, hrtld, hfresh, hgrows⟩ := choose_root_fresh hscan hroot
    obtain ⟨start, rfl, hstart⟩ := choose_root_starts hscan hroot
    obtain ⟨l, hl, hname, _⟩ := hstart.root
    have hroot : (nameOf w2 start.root).isSome := by
      rw [nameOf_eq_some.mpr ⟨l, hl, hname⟩]
      rfl
    refine ⟨start.ns, ?_, hgrows⟩
    rcases hstart.kind with ⟨hkind, _⟩ | ⟨rtld', hkind, hname', _⟩
    · have hlinked := hstart.linked
      rw [hkind] at hlinked ⊢
      exact ⟨hlinked, by simp, by simpa using hroot, by simpa using hfresh⟩
    · have hlinked := hstart.linked
      rw [hkind] at hlinked ⊢
      have hfirst : rtld' = rtld := Option.some.inj (hlinked.1.symm.trans hns)
      refine ⟨hlinked, by simp, ?_, ?_⟩
      · simp [hname', hroot]
      · simp [hfirst, hrtld, hfresh]
  | step _ hstep ih =>
    obtain ⟨ns, hc, hgrows⟩ := ih
    obtain ⟨ns', hgrown⟩ := hstep.grown hc
    exact ⟨ns', hgrown.chained, hgrows.trans hgrown.rpath⟩

/-- The state before the relocation is one of the states that are reached. -/
theorem loader_main_reached {fuel : Nat} {entry : Addr}
    (h : loader_main host sym fuel pi w0 = .ok (entry, w')) :
    ∃ w, Reached host sym pi w0 w ∧ reloc_all sym.runtime_resolve w = .ok w' := by
  simp only [loader_main, bind_eq_ok] at h
  obtain ⟨⟨rtld, w1⟩, hscan, ⟨root, w2⟩, hroot, w3, hparse, w4, hdeps, w5, hreloc, l, _, h⟩ := h
  cases h
  exact ⟨w4, ((Reached.chosen hscan hroot).step (.parse hparse)).run (map_object_deps_run hdeps),
    hreloc⟩

end

/-! ## A program with one library -/

/-- A program that needs `a` twice, and is started by the kernel. -/
def twiceInfo : ProgramInfo := { programInfo with image := abImage 1 1 }

theorem exists_ok {α : Type} {x : Except Stop α} (h : x.toOption.isSome = true) :
    ∃ r, x = .ok r := by
  cases x with
  | error e => cases h
  | ok r => exact ⟨r, rfl⟩

/-- `loader_main` up to `reloc_all`. -/
def loadedProgram (host : Host) (pi : ProgramInfo) (fuel : Nat) :
    Except Stop ((Ptr × Rtld) × (Ptr × Rtld) × Rtld × Rtld) := do
  let scanned ← scan_program host loaderSymbols pi programWorld
  let chosen ← choose_root host loaderSymbols pi scanned.1 scanned.2
  let w3 ← parse_map host chosen.2 scanned.1
  let w ← map_object_deps host fuel w3 chosen.1
  .ok (scanned, chosen, w3, w)

end elf_loader.rtld
