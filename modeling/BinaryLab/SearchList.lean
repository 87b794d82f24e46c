-- The search list that `map_object_deps` leaves in the root. Its size is
-- counted by the loop over the run list, and its slots are filled by a second
-- loop that passes over the root. The two agree as long as no `DT_NEEDED`
-- entry leads back to the root. Objects are known by copies of their paths, so
-- all of it is for runs whose copies keep their NULs.
import BinaryLab.ExactRuns

set_option linter.style.nameCheck false

open binary_lab.runs binary_lab.words binary_lab.breadth_first

namespace elf_loader.load

/-! ## The slots -/

/-- The first slots are written in the order of the run list, the root left
out, and the others stay as they are. -/
theorem fill_searchlist.spec (root : Ptr) (written : List Ptr) (rest : Nat) (runlist : List Ptr) :
    fill_searchlist root written.length
        (written.map some ++ List.replicate ((runlist.filter (· ≠ root)).length + rest) none)
        runlist =
      .ok ((written ++ runlist.filter (· ≠ root)).map some ++ List.replicate rest none) := by
  induction runlist generalizing written with
  | nil => simp [fill_searchlist]
  | cons p ps ih =>
    unfold fill_searchlist
    by_cases hp : p = root
    · simpa [hp] using ih written
    · have hfilter : (p :: ps).filter (· ≠ root) = p :: ps.filter (· ≠ root) := by simp [hp]
      have hslots : (written.map some ++
          List.replicate ((p :: ps.filter (· ≠ root)).length + rest) none).set written.length
            (some p) = (written ++ [p]).map some ++
          List.replicate ((ps.filter (· ≠ root)).length + rest) (none : Option Ptr) := by
        rw [List.length_cons, Nat.add_right_comm, List.replicate_succ]
        simp
      have hlt : written.length < (written.map some ++
          List.replicate ((p :: ps.filter (· ≠ root)).length + rest)
            (none : Option Ptr)).length := by
        simp
      have hrest := ih (written ++ [p])
      rw [List.length_append, List.length_singleton] at hrest
      rw [hfilter, if_neg hp, if_pos hlt, hslots, hrest]
      simp

/-- The search list of the root when the loops agree on `new`, and the count is over by `excess`. -/
def slotsOf (new : List Ptr) (excess : Nat) : Scope where
  r_list := new.map some ++ List.replicate excess none
  r_nlist := new.length + excess

/-- If nothing is counted then the root keeps the search list that it has. -/
theorem set_searchlist_slots {root : Ptr} {runlist new : List Ptr} {excess : Nat} {w w' : Rtld}
    {l : LinkMap} (hl : w.maps[root]? = some l) (hempty : l.l_searchlist = slotsOf [] 0)
    (hnew : runlist.filter (· ≠ root) = new)
    (h : set_searchlist root runlist (new.length + excess) w = .ok w') :
    ∃ l', w'.maps[root]? = some l' ∧ l'.l_searchlist = slotsOf new excess := by
  have hfill := fill_searchlist.spec root [] excess runlist
  simp only [List.length_nil, List.map_nil, List.nil_append, hnew] at hfill
  simp only [set_searchlist, hfill, Rtld.deref, hl, bind, Except.bind] at h
  split_ifs at h with hpos
  · cases h
    exact ⟨_, by rw [get_put hl, if_pos rfl], rfl⟩
  · cases h
    have hnone : new = [] ∧ excess = 0 := by
      rw [← List.length_eq_zero_iff]
      omega
    exact ⟨l, hl, by rw [hempty, hnone.1, hnone.2]⟩

/-! ## What the entries lead to -/

section

variable {host : Host}

theorem map_object_rpath {soname : CString} {w w' : Rtld} {p : Ptr}
    (h : map_object host soname w = .ok (p, w')) : w._rpath <+: w'._rpath := by
  obtain ⟨path, file, hopen⟩ := map_object_found h
  simp only [map_object, hopen, bind_eq_ok] at h
  obtain ⟨found, _, h⟩ := h
  cases found with
  | some q =>
    cases h
    exact List.prefix_rfl
  | none =>
    obtain ⟨_, _, _, _, hgrows⟩ := map_object_fd_ok h
    exact hgrows

theorem take_needed_found (hexact : host.Exact) {soname : CString} {st st' : Deps}
    (h : take_needed host soname st = .ok st') :
    (∃ path file, open_path host.fs soname st.w._rpath = some (path, file)) ∧
      st.w._rpath <+: st'.w._rpath := by
  rw [take_needed, bind_eq_ok] at h
  obtain ⟨⟨p, w1⟩, hmap, htake⟩ := h
  have hfound := map_object_found hmap
  rw [hexact.rpaths] at hfound
  refine ⟨hfound, ?_⟩
  rw [take_object_rpath htake]
  exact map_object_rpath hmap

/-- What the entries of one object have led to when all of them are taken. -/
structure Led (host : Host) (needs : List Need) (rpath : List CString) (sonames : List CString) :
    Prop where
  resolve : Resolve host.fs rpath sonames
  leads : ∀ path, (∃ need ∈ needs, need.LeadsTo host.fs path) ↔ path ∈ paths host.fs rpath sonames

theorem needed_loop_led (hexact : host.Exact) {l : LinkMap} {dyns : List Dyn} {st st' : Deps}
    (h : needed_loop host l st dyns = .ok st') :
    st.w._rpath <+: st'.w._rpath ∧ Led host (needed_loop_needs host l st dyns) st'.w._rpath
      (neededIn l.image.strtab dyns) := by
  induction dyns generalizing st with
  | nil =>
    cases h
    refine ⟨List.prefix_rfl, ?_, ?_⟩
    · intro soname hs
      cases hs
    · simp [needed_loop_needs, neededIn, paths]
  | cons dyn dyns ih =>
    rw [needed_loop, bind_eq_ok] at h
    obtain ⟨st1, h1, h2⟩ := h
    obtain ⟨hgrows, hled⟩ := ih h2
    simp only [needed_loop_needs, h1, afterwards, needed_entry_needs]
    rw [needed_entry, bind_eq_ok] at h1
    obtain ⟨_, _, h1⟩ := h1
    by_cases htag : dyn.d_tag = (DT_NEEDED : Int)
    · rw [if_neg (by simp [htag])] at h1 ⊢
      obtain ⟨⟨c, file, hopen⟩, hgrows1⟩ := take_needed_found hexact h1
      have hlast := open_path_grows hopen (hgrows1.trans hgrows)
      have hneeded : neededIn l.image.strtab (dyn :: dyns) =
          strAt l.image.strtab dyn.d_un.toNat :: neededIn l.image.strtab dyns := by
        simp only [neededIn, List.filterMap_cons, if_pos htag]
      refine ⟨hgrows1.trans hgrows, ?_, ?_⟩
      · intro soname hs
        rw [hneeded, List.mem_cons] at hs
        rcases hs with rfl | hs
        · simp [hlast]
        · exact hled.resolve soname hs
      · intro path
        have hpaths : paths host.fs st'.w._rpath (neededIn l.image.strtab (dyn :: dyns)) =
            c :: paths host.fs st'.w._rpath (neededIn l.image.strtab dyns) := by
          rw [hneeded]
          simp [paths, hlast]
        rw [hpaths, List.mem_cons, ← hled.leads]
        simp [Need.LeadsTo, hopen, eq_comm]
    · rw [if_pos (by simpa using htag)] at h1 ⊢
      cases h1
      have hneeded : neededIn l.image.strtab (dyn :: dyns) = neededIn l.image.strtab dyns := by
        simp only [neededIn, List.filterMap_cons, if_neg htag]
      rw [hneeded]
      exact ⟨hgrows, hled⟩

/-- The entries of a run lead to what the objects of the run list need. -/
theorem deps_loop_led (hexact : host.Exact) {fuel : Nat} {done runlist : List Ptr} {st st' : Deps}
    (h : deps_loop host fuel done st = .ok (runlist, st')) :
    st.w._rpath <+: st'.w._rpath ∧ ∃ visited, runlist = done ++ visited ∧
      ∀ path, (∃ need ∈ deps_loop_needs host fuel st, need.LeadsTo host.fs path) ↔
        ∃ p ∈ visited, ∃ l, st'.w.maps[p]? = some l ∧
          path ∈ paths host.fs st'.w._rpath (needed l.image) := by
  induction fuel generalizing done st with
  | zero =>
    unfold deps_loop at h
    cases htodo : st.todo with
    | nil =>
      rw [htodo] at h
      cases h
      exact ⟨List.prefix_rfl, [], by simp, by simp [deps_loop_needs]⟩
    | cons p todo =>
      rw [htodo] at h
      cases h
  | succ fuel ih =>
    unfold deps_loop at h
    cases htodo : st.todo with
    | nil =>
      rw [htodo] at h
      cases h
      exact ⟨List.prefix_rfl, [], by simp, by simp [deps_loop_needs, htodo]⟩
    | cons p todo =>
      rw [htodo] at h
      simp only [bind_eq_ok] at h
      obtain ⟨l, hl, st1, h1, h2⟩ := h
      obtain ⟨hgrows1, hled⟩ := needed_loop_led hexact h1
      obtain ⟨hgrows, visited, hrun, hvisited⟩ := ih h2
      obtain ⟨_, hpaths⟩ := hled.resolve.grows hgrows
      -- The tables of the object are the same at the end.
      have himage1 : KeepsBy LinkMap.image ({ st with todo } : Deps).w st1.w :=
        needed_loop_keepsBy (fun _ _ _ _ => rfl) h1
      have himage : KeepsBy LinkMap.image st.w st'.w :=
        himage1.trans (deps_loop_keepsBy (fun _ _ _ _ => rfl) h2)
      obtain ⟨l', hl', hsame⟩ := himage p l (Rtld.deref_eq_ok.mp hl)
      refine ⟨hgrows1.trans hgrows, p :: visited, by simp [hrun], ?_⟩
      intro path
      have hfirst : (∃ m, st'.w.maps[p]? = some m ∧
          path ∈ paths host.fs st'.w._rpath (needed m.image)) ↔
          path ∈ paths host.fs st1.w._rpath (neededIn l.image.strtab l.image.dynamic) := by
        simp [hl', hsame, needed, hpaths]
      simp only [deps_loop_needs, htodo, hl, afterwards, h1, List.mem_append, List.mem_cons,
        or_and_right, exists_or, exists_eq_left, hfirst, hvisited, hled.leads]

/-! ## The search list of the root -/

/-- What the visited objects need, object by object. -/
theorem Inv.mem_metBy {start : Start} {Safe : List CString → Prop} {done rest new : List Ptr}
    {visits seen : List CString} {st : Deps}
    (h : Inv host start Safe done rest new visits seen st) (rpath : List CString) (path : CString) :
    path ∈ metBy host start visits rpath ↔ ∃ p ∈ done, ∃ l, st.w.maps[p]? = some l ∧
      path ∈ paths host.fs rpath (needed l.image) := by
  have hvisits : ∀ x, x ∈ visits ↔ ∃ p ∈ done, nameOf st.w p = some x := by
    intro x
    rw [← List.mem_map, h.visited]
    simp
  have hobject : ∀ p ∈ done, ∃ x l, nameOf st.w p = some x ∧ st.w.maps[p]? = some l ∧
      l.image = imageOf host.fs start x := by
    intro p hp
    obtain ⟨x, hobj⟩ := h.objects p (h.mem_run (List.mem_append_left _ hp))
    obtain ⟨l, hl, _, himage, _⟩ := id hobj
    exact ⟨x, l, hobj.nameOf, hl, himage⟩
  simp only [metBy, List.mem_flatMap, hvisits, graph]
  constructor
  · rintro ⟨x, ⟨p, hp, hx⟩, hpath⟩
    obtain ⟨y, l, hy, hl, himage⟩ := hobject p hp
    rw [hx, Option.some.injEq] at hy
    exact ⟨p, hp, l, hl, by rw [himage, ← hy]; exact hpath⟩
  · rintro ⟨p, hp, l, hl, hpath⟩
    obtain ⟨y, m, hy, hm, himage⟩ := hobject p hp
    rw [hl, Option.some.injEq] at hm
    exact ⟨y, ⟨p, hp, hy⟩, by rw [← himage, ← hm]; exact hpath⟩

/-- After a run the search list has the objects that the root needs, and one
more slot if an entry has led to the root. -/
theorem map_object_deps_searchlist (hexact : host.Exact) {start : Start} {fuel : Nat} {w w' : Rtld}
    (hstart : StartsAt w start)
    (hempty : ∀ l, w.maps[start.root]? = some l → l.l_searchlist = slotsOf [] 0)
    (h : map_object_deps host fuel w start.root = .ok w') :
    ∃ new order excess l, Closure host start w' new order ∧ w'.maps[start.root]? = some l ∧
      l.l_searchlist = slotsOf new excess ∧
      (excess = 0 ↔ ∀ need ∈ map_object_deps_needs host fuel w start.root,
        ¬ need.LeadsTo host.fs start.name) := by
  simp only [map_object_deps, bind_eq_ok] at h
  obtain ⟨w1, hparse, ⟨runlist, st⟩, hrun, w2, hset, ⟨⟩, _, h⟩ := h
  cases h
  simp only [map_object_deps_needs, hparse, afterwards]
  simp only [parse_map, bind_eq_ok, Rtld.deref_eq_ok] at hparse
  obtain ⟨l, hl, ⟨l', rpath⟩, hdyn, hw1⟩ := hparse
  cases hw1
  have hinv := @StartsAt.inv start (fun _ => True) host w l l' _ rpath hstart hl hdyn trivial
  have hloop := (hinv.deps_loop (mayStop_anyhow start hexact) fuel
    (fun x hx => absurd hx List.not_mem_nil) (by simp [metBy]) (Or.inl trivial)).of_ok hrun
  obtain ⟨rest, new, visits, htodo, hresolved, hback, hfinal⟩ := hloop
  simp only at htodo hresolved hback hfinal
  obtain ⟨w3, order, hset', _, hclosure⟩ :=
    hstart.closure hl hdyn trivial hrun htodo hresolved hfinal
  rw [hset] at hset'
  cases hset'
  have hdone : runlist = start.root :: rest := by
    rw [← hfinal.run, htodo, List.append_nil]
  have hnew : runlist.filter (· ≠ start.root) = new := by
    rw [hdone, List.filter_cons_of_neg (by simp), hfinal.fresh]
  -- The root has its first search list to the end of the loop.
  have hscope : KeepsBy LinkMap.l_searchlist w st.w :=
    (keepsBy_put l' hl (by rw [(parse_dynamic.spec hdyn).frame])).trans
      (deps_loop_keepsBy (fun _ _ _ _ => rfl) hrun)
  obtain ⟨m, hm, hsame⟩ := hscope start.root l hl
  rw [hfinal.nlist, hfinal.length_rest] at hset
  obtain ⟨m', hm', hslots⟩ :=
    set_searchlist_slots hm (hsame.trans (hempty l hl)) hnew hset
  refine ⟨new, order, _, m', hclosure, hm', hslots, ?_⟩
  obtain ⟨_, visited, hvisited, hled⟩ := deps_loop_led hexact hrun
  rw [List.nil_append] at hvisited
  subst hvisited
  rw [List.count_eq_zero, hback, hfinal.mem_metBy, ← hled]
  simp

end

theorem map_object_fd_searchlist {host : Host} {file : File} {realname : CString} {w w' : Rtld}
    {p : Ptr} (h : map_object_fd host file realname w = .ok (p, w')) :
    ∃ l, w'.maps[p]? = some l ∧ l.l_searchlist = slotsOf [] 0 := by
  unfold map_object_fd at h
  split at h
  · cases h
  · simp only at h
    split_ifs at h
    simp only [bind_eq_ok] at h
    obtain ⟨phdr, _, ⟨l, rpath, proc⟩, hload, hok⟩ := h
    cases hok
    refine ⟨l, List.getElem?_concat_length, ?_⟩
    simp only [load_object, bind_eq_ok] at hload
    obtain ⟨⟨l1, proc1⟩, h1, ⟨l2, rpath2⟩, h2, h3⟩ := hload
    cases h3
    have hmapped := map_segments_mapped h1
    rw [Mapped] at hmapped
    rw [(parse_dynamic.spec h2).frame, hmapped]
    rfl

theorem parse_map_searchlist {host : Host} {w w' : Rtld} {p : Ptr}
    (h : parse_map host w p = .ok w') : KeepsBy LinkMap.l_searchlist w w' := by
  simp only [parse_map, bind_eq_ok, Rtld.deref_eq_ok] at h
  obtain ⟨l, hl, ⟨l', rpath⟩, hparse, h⟩ := h
  cases h
  exact keepsBy_put l' hl (by rw [(parse_dynamic.spec hparse).frame])

/-- The search list of the root is the list `new`: it counts its objects,
every slot up to the count is written, and the slots are the objects in order. -/
structure Lists (w : Rtld) (root : Ptr) (new : List Ptr) : Prop where
  count : ∃ l, w.maps[root]? = some l ∧ l.l_searchlist.r_nlist = new.length
  written : ∃ l, w.maps[root]? = some l ∧
    ∀ i < l.l_searchlist.r_nlist, ∃ p, l.l_searchlist.r_list[i]? = some (some p)
  slots : ∃ l, w.maps[root]? = some l ∧ l.l_searchlist.r_list = new.map some

theorem lists_iff {w : Rtld} {root : Ptr} {new : List Ptr} {excess : Nat} {l : LinkMap}
    (hl : w.maps[root]? = some l) (hslots : l.l_searchlist = slotsOf new excess) :
    Lists w root new ↔ excess = 0 := by
  constructor
  · intro h
    obtain ⟨m, hm, hcount⟩ := h.count
    rw [hl, Option.some.injEq] at hm
    simpa [← hm, hslots, slotsOf] using hcount
  · rintro rfl
    have hlist : l.l_searchlist.r_list = new.map some := by simp [hslots, slotsOf]
    have hcount : l.l_searchlist.r_nlist = new.length := by simp [hslots, slotsOf]
    refine ⟨⟨l, hl, hcount⟩, ⟨l, hl, ?_⟩, ⟨l, hl, hlist⟩⟩
    intro i hi
    rw [hcount] at hi
    exact ⟨new[i], by simp [hlist, hi]⟩

end elf_loader.load

namespace elf_loader.rtld

open load reloc

/-- The root has no search list before its dependencies are loaded. -/
theorem choose_root_searchlist {host : Host} {sym : Symbols} {pi : ProgramInfo}
    {w0 w1 w2 : Rtld} {rtld root : Ptr} (hscan : scan_program host sym pi w0 = .ok (rtld, w1))
    (hroot : choose_root host sym pi rtld w1 = .ok (root, w2)) :
    ∃ l, w2.maps[root]? = some l ∧ l.l_searchlist = slotsOf [] 0 := by
  obtain ⟨rfl, scan, hscanned, _, hw1⟩ := scan_program_ok hscan
  have hl : w1.maps[w0.maps.length]? = some scan.l := by simp [hw1]
  have hns : w1._namespace = some w0.maps.length := by simp [hw1]
  unfold choose_root at hroot
  split_ifs at hroot
  · obtain ⟨path, file, w3, l3, m, _, hmap, hl3, hm, hparse⟩ :=
      map_main_ok hns hl hscanned.unlinked.1 hroot
    obtain ⟨l, hroot, hempty⟩ := map_object_fd_searchlist hmap
    have hnext : KeepsBy LinkMap.l_searchlist w3
        (w3.put w0.maps.length { l3 with l_next := some root }) := keepsBy_put _ hl3 rfl
    have hprev : KeepsBy LinkMap.l_searchlist
        (w3.put w0.maps.length { l3 with l_next := some root })
        ((w3.put w0.maps.length { l3 with l_next := some root }).put root
          { m with l_prev := some w0.maps.length }) := keepsBy_put _ hm rfl
    obtain ⟨l', hl', hsame⟩ :=
      ((hnext.trans hprev).trans (parse_map_searchlist hparse)) root l hroot
    exact ⟨l', hl', hsame.trans hempty⟩
  · simp only [name_main, bind_eq_ok, Rtld.deref_eq_ok] at hroot
    obtain ⟨l, hl', h⟩ := hroot
    cases h
    rw [hl, Option.some.injEq] at hl'
    refine ⟨_, by rw [get_put hl, if_pos rfl], ?_⟩
    rw [← hl', hscanned, rtld_map]
    split_ifs
    rfl

/-- What is loaded on exact copies is loaded on copies that are read as they are. -/
theorem closure_of_exact {host : Host} {start : Start} {w : Rtld} {new : List Ptr}
    {order : List CString} (h : Closure host.exact start w new order) :
    Closure host start w new order where
  linked := h.linked
  names := h.names
  breadth_first := h.breadth_first
  all := h.all
  once := h.once
  resolved := h.resolved
  objects := h.objects
  distinct := h.distinct

/-- A run that loads the dependencies of the root leaves them in its search
list, and one more slot if a `DT_NEEDED` entry has led to the root. -/
theorem loaded_searchlist {host : Host} {sym : Symbols} {fuel : Nat} {pi : ProgramInfo}
    {w0 w1 w2 w3 w' : Rtld} {rtld root : Ptr}
    (hscan : scan_program host sym pi w0 = .ok (rtld, w1))
    (hroot : choose_root host sym pi rtld w1 = .ok (root, w2))
    (hparse : parse_map host w2 rtld = .ok w3) (hdeps : map_object_deps host fuel w3 root = .ok w')
    (hkept : KeptRun host fuel w3 root) :
    ∃ start new order excess l, start.root = root ∧ StartsAt w3 start ∧
      Closure host start w' new order ∧ w'.maps[root]? = some l ∧
      l.l_searchlist = slotsOf new excess ∧
      (excess = 0 ↔ ∀ need ∈ map_object_deps_needs host fuel w3 root,
        ¬ need.LeadsTo host.fs start.name) := by
  obtain ⟨start, rfl, hstart⟩ := choose_root_startsAt hscan hroot hparse
  obtain ⟨l, hl, hempty⟩ := choose_root_searchlist hscan hroot
  have hfirst : ∀ m, w3.maps[start.root]? = some m → m.l_searchlist = slotsOf [] 0 := by
    intro m hm
    obtain ⟨l', hl', hsame⟩ := parse_map_searchlist hparse start.root l hl
    rw [hm, Option.some.injEq] at hl'
    rw [hl', hsame, hempty]
  obtain ⟨hsame, hneeds⟩ := hkept.exact
  rw [hsame] at hdeps
  obtain ⟨new, order, excess, m, hclosure, hm, hslots, hover⟩ :=
    map_object_deps_searchlist host.exact_exact hstart hfirst hdeps
  rw [hneeds]
  exact ⟨start, new, order, excess, m, rfl, hstart, closure_of_exact hclosure, hm, hslots, hover⟩

/-- After a run of `map_object_deps` whose copies keep their NULs, the
namespace has the objects that the root needs, and the search list of the root
is the list of them just if no `DT_NEEDED` entry of the run has led back to
the root. -/
theorem the_search_list_is_exact_iff_nothing_needs_the_root (host : Host) (sym : Symbols)
    (fuel : Nat) (pi : ProgramInfo) (w0 w1 w2 w3 w' : Rtld) (rtld root : Ptr)
    (hscan : scan_program host sym pi w0 = .ok (rtld, w1))
    (hroot : choose_root host sym pi rtld w1 = .ok (root, w2))
    (hparse : parse_map host w2 rtld = .ok w3) (hdeps : map_object_deps host fuel w3 root = .ok w')
    (hkept : KeptRun host fuel w3 root) :
    ∃ start new order, start.root = root ∧ StartsAt w3 start ∧ Closure host start w' new order ∧
      (Lists w' root new ↔ ∀ need ∈ map_object_deps_needs host fuel w3 root,
        ¬ need.LeadsTo host.fs start.name) := by
  obtain ⟨start, new, order, excess, l, hstart, hat, hclosure, hl, hslots, hover⟩ :=
    loaded_searchlist hscan hroot hparse hdeps hkept
  exact ⟨start, new, order, hstart, hat, hclosure, (lists_iff hl hslots).trans hover⟩

/-- An entry of the run leads to the name of the root. -/
def rootNeeded (host : Host) (fuel : Nat) (w : Rtld) (root : Ptr) : Bool :=
  (map_object_deps_needs host fuel w root).any fun need =>
    (open_path host.fs need.soname need.rpath).map Prod.fst = nameOf w root

theorem rootNeeded_eq_true {host : Host} {fuel : Nat} {w : Rtld} {root : Ptr} {name : CString}
    (hname : nameOf w root = some name) :
    rootNeeded host fuel w root = true ↔
      ∃ need ∈ map_object_deps_needs host fuel w root, need.LeadsTo host.fs name := by
  simp only [rootNeeded, List.any_eq_true, hname, decide_eq_true_eq, Option.map_eq_some_iff,
    Need.LeadsTo]
  refine exists_congr fun need => and_congr_right fun _ => ?_
  constructor
  · rintro ⟨⟨path, file⟩, hopen, rfl⟩
    exact ⟨file, hopen⟩
  · rintro ⟨file, hopen⟩
    exact ⟨(name, file), hopen, rfl⟩

/-- A program `a` that needs `b` twice, which needs nothing. -/
def pairHost : Host :=
  { abHost with
    fs := [(namebuf libDir (CString.lit ['a']), libraryFile (abImage 3 3)),
      (namebuf libDir (CString.lit ['b']),
        libraryFile { emptyImage with dynamic := [⟨DT_STRTAB, 0x90⟩, ⟨DT_SYMTAB, 0xa0⟩] })] }

/-- The loader is run with `a` as its argument. -/
theorem the_search_list_of_a_program_that_needs_a_library_twice :
    ∃ scanned chosen w3 w start new order,
      scan_program pairHost loaderSymbols directInfo programWorld = .ok scanned ∧
      choose_root pairHost loaderSymbols directInfo scanned.1 scanned.2 = .ok chosen ∧
      parse_map pairHost chosen.2 scanned.1 = .ok w3 ∧
      map_object_deps pairHost 3 w3 chosen.1 = .ok w ∧
      StartsAt w3 start ∧ Closure pairHost start w new order ∧ Lists w chosen.1 new := by
  have hrun : ((loadedProgram pairHost directInfo 3).toOption.map fun r =>
      (rootNeeded pairHost 3 r.2.2.1 r.2.1.1,
        decide (KeptRun pairHost 3 r.2.2.1 r.2.1.1))) = some (false, true) := by decide +kernel
  obtain ⟨r, hr⟩ := exists_ok (x := loadedProgram pairHost directInfo 3) (by decide +kernel)
  rw [hr] at hrun
  simp only [Except.toOption, Option.map_some, Option.some.injEq, Prod.mk.injEq] at hrun
  simp only [loadedProgram, bind_eq_ok] at hr
  obtain ⟨scanned, hscan, chosen, hroot, w3, hparse, w, hdeps, hr⟩ := hr
  cases hr
  obtain ⟨start, new, order, hstart, hat, hclosure, hlists⟩ :=
    the_search_list_is_exact_iff_nothing_needs_the_root pairHost loaderSymbols 3 directInfo
      programWorld scanned.2 chosen.2 w3 w scanned.1 chosen.1 hscan hroot hparse hdeps
      (of_decide_eq_true hrun.2)
  refine ⟨scanned, chosen, w3, w, start, new, order, hscan, hroot, hparse, hdeps, hat, hclosure,
    hlists.mpr fun need hneed hleads => ?_⟩
  obtain ⟨m, hm, hname, _⟩ := hat.root
  rw [hstart] at hm
  have hneeded := (rootNeeded_eq_true (nameOf_eq_some.mpr ⟨m, hm, hname⟩)).mpr
    ⟨need, hneed, hleads⟩
  rw [hrun.1] at hneeded
  cases hneeded

/-- A program `a` that needs `b`, which needs `a`. -/
def cycleHost : Host :=
  { abHost with
    fs := [(namebuf libDir (CString.lit ['a']), libraryFile (abImage 3 3)),
      (namebuf libDir (CString.lit ['b']), libraryFile (abImage 1 1))] }

/-- The loader is run with `a` as its argument. The library leads back to it,
and the search list has one slot too many. -/
theorem a_cycle_through_the_root_leaves_a_slot_unwritten :
    ∃ scanned chosen w3 w start new order,
      scan_program cycleHost loaderSymbols directInfo programWorld = .ok scanned ∧
      choose_root cycleHost loaderSymbols directInfo scanned.1 scanned.2 = .ok chosen ∧
      parse_map cycleHost chosen.2 scanned.1 = .ok w3 ∧
      map_object_deps cycleHost 3 w3 chosen.1 = .ok w ∧
      StartsAt w3 start ∧ Closure cycleHost start w new order ∧ ¬ Lists w chosen.1 new := by
  have hrun : ((loadedProgram cycleHost directInfo 3).toOption.map fun r =>
      (rootNeeded cycleHost 3 r.2.2.1 r.2.1.1,
        decide (KeptRun cycleHost 3 r.2.2.1 r.2.1.1))) = some (true, true) := by decide +kernel
  obtain ⟨r, hr⟩ := exists_ok (x := loadedProgram cycleHost directInfo 3) (by decide +kernel)
  rw [hr] at hrun
  simp only [Except.toOption, Option.map_some, Option.some.injEq, Prod.mk.injEq] at hrun
  simp only [loadedProgram, bind_eq_ok] at hr
  obtain ⟨scanned, hscan, chosen, hroot, w3, hparse, w, hdeps, hr⟩ := hr
  cases hr
  obtain ⟨start, new, order, excess, l, hstart, hat, hclosure, hl, hslots, hover⟩ :=
    loaded_searchlist hscan hroot hparse hdeps (of_decide_eq_true hrun.2)
  refine ⟨scanned, chosen, w3, w, start, new, order, hscan, hroot, hparse, hdeps, hat, hclosure, ?_⟩
  rw [lists_iff hl hslots, hover]
  intro hno
  obtain ⟨m, hm, hname, _⟩ := hat.root
  rw [hstart] at hm
  obtain ⟨need, hneed, hleads⟩ :=
    (rootNeeded_eq_true (nameOf_eq_some.mpr ⟨m, hm, hname⟩)).mp hrun.1
  exact hno need hneed hleads

end elf_loader.rtld
