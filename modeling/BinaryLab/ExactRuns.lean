-- Runs of `map_object_deps` whose copies keep their NULs. The strings that such
-- a run compares are read as they were copied, so it is the run of a loader
-- with an exact `__strdup`.
import BinaryLab.LoadingRuns
import BinaryLab.RpathTable

set_option linter.style.nameCheck false

open binary_lab.runs binary_lab.words

namespace elf_loader.load

/-! ## The entries of a run -/

/-- A `DT_NEEDED` entry that the loop comes to: the name, and the search paths
at that time. -/
structure Need where
  soname : CString
  rpath : List CString

/-- The name is found, and this is the path. -/
def Need.LeadsTo (fs : FileSystem) (need : Need) (path : CString) : Prop :=
  ∃ file, open_path fs need.soname need.rpath = some (path, file)

def needed_entry_needs (l : LinkMap) (st : Deps) (dyn : Dyn) : List Need :=
  if dyn.d_tag ≠ DT_NEEDED then [] else [⟨strAt l.image.strtab dyn.d_un.toNat, st.w._rpath⟩]

def needed_loop_needs (host : Host) (l : LinkMap) (st : Deps) : List Dyn → List Need
  | [] => []
  | dyn :: dyns => needed_entry_needs l st dyn ++
      afterwards (needed_entry host l st dyn) fun st => needed_loop_needs host l st dyns

def deps_loop_needs (host : Host) : Nat → Deps → List Need
  | 0, _ => []
  | fuel + 1, st =>
    match st.todo with
    | [] => []
    | p :: todo =>
      afterwards (st.w.deref p) fun l =>
        needed_loop_needs host l { st with todo } l.image.dynamic ++
          afterwards (needed_loop host l { st with todo } l.image.dynamic) fun st =>
            deps_loop_needs host fuel st

/-- All `DT_NEEDED` entries that `map_object_deps` comes to, in order. -/
def map_object_deps_needs (host : Host) (fuel : Nat) (w : Rtld) (root : Ptr) : List Need :=
  afterwards (parse_map host w root) fun w =>
    deps_loop_needs host fuel { w, todo := [root], nlist := 0 }

/-! ## Entries whose copies keep their NULs -/

/-- The search paths, the path that is found, and the `DT_RPATH` strings of
its file are copied with their NULs. -/
structure Need.Kept (fs : FileSystem) (need : Need) : Prop where
  rpath : ∀ s ∈ need.rpath, Held s
  found : ∀ path file, open_path fs need.soname need.rpath = some (path, file) →
    Held path ∧ ∀ s ∈ rpathsIn file.image.strtab file.image.dynamic, Held s

instance (fs : FileSystem) (need : Need) : Decidable (need.Kept fs) :=
  decidable_of_iff ((∀ s ∈ need.rpath, Held s) ∧
    ∀ found ∈ open_path fs need.soname need.rpath, Held found.1 ∧
      ∀ s ∈ rpathsIn found.2.image.strtab found.2.image.dynamic, Held s)
    ⟨fun h => ⟨h.1, fun path file hopen => h.2 (path, file) hopen⟩,
      fun h => ⟨h.rpath, fun found hopen => h.found found.1 found.2 hopen⟩⟩

/-- The same for everything that a run of `map_object_deps` copies or finds in
the state that it starts from. -/
structure KeptRun (host : Host) (fuel : Nat) (w : Rtld) (root : Ptr) : Prop where
  state : rtld.HeldState w
  tables : ∀ l, w.maps[root]? = some l →
    ∀ s ∈ rpathsIn l.image.strtab l.image.dynamic, Held s
  needs : ∀ need ∈ map_object_deps_needs host fuel w root, need.Kept host.fs

instance (host : Host) (fuel : Nat) (w : Rtld) (root : Ptr) :
    Decidable (KeptRun host fuel w root) :=
  decidable_of_iff (rtld.HeldState w ∧
    (∀ l ∈ w.maps[root]?, ∀ s ∈ rpathsIn l.image.strtab l.image.dynamic, Held s) ∧
    ∀ need ∈ map_object_deps_needs host fuel w root, need.Kept host.fs)
    ⟨fun h => ⟨h.1, h.2.1, h.2.2⟩, fun h => ⟨h.state, h.tables, h.needs⟩⟩

/-- The host with a `__strdup` that makes exact copies. -/
def Host.exact (host : Host) : Host :=
  { host with
    reads := fun _ _ s => s
    keeps := fun _ _ _ _ => rfl }

theorem Host.exact_exact (host : Host) : host.exact.Exact := fun _ _ _ => rfl

section

variable {reads : Reads} {strtab : Addr} {tab : List Byte} {rpath : List CString} {dyns : List Dyn}

/-! ## The parser -/

theorem add_rpaths_held (hkeeps : KeepsHeld reads) (h : HeldPaths rpath tab dyns) :
    add_rpaths reads strtab tab rpath dyns = add_rpaths asCopied strtab tab rpath dyns := by
  induction dyns generalizing rpath with
  | nil => rfl
  | cons dyn dyns ih =>
    have hsame : add_rpath_entry reads strtab tab rpath dyn =
        add_rpath_entry asCopied strtab tab rpath dyn := by
      simp only [add_rpath_entry, add_rpath,
        show read_rpath reads rpath = rpath from hkeeps.exact h.table,
        show read_rpath asCopied rpath = rpath from asCopied_exact rpath]
    rw [add_rpaths, add_rpaths, hsame]
    cases hentry : add_rpath_entry asCopied strtab tab rpath dyn with
    | error e => rfl
    | ok rpath1 =>
      refine ih ⟨?_, h.tail.new⟩
      intro s hs
      have hone : add_rpaths asCopied strtab tab rpath [dyn] = .ok rpath1 := by
        rw [add_rpaths, hentry]
        rfl
      rcases add_rpaths_mem hone s hs with hs | hs
      · exact h.table s hs
      · refine h.new s ?_
        rw [rpathsIn_cons] at hs ⊢
        split_ifs at hs ⊢ with htag
        · have heq : s = strAt tab dyn.d_un.toNat := by simpa [rpathsIn] using hs
          rw [heq]
          exact List.mem_cons_self
        · simp [rpathsIn] at hs

theorem parse_dynamic_held (hkeeps : KeepsHeld reads) {map : LinkMap}
    (h : HeldPaths rpath map.image.strtab map.image.dynamic) :
    parse_dynamic reads rpath map = parse_dynamic asCopied rpath map := by
  unfold parse_dynamic
  cases assert (map.l_ld != 0) "map->l_ld != NULL" with
  | error e => rfl
  | ok u =>
    simp only [bind, Except.bind]
    cases hindex : index_dynamic map map.image.dynamic with
    | error e => rfl
    | ok map1 =>
      have himage : map1.image = map.image := by rw [index_dynamic_ok hindex]
      simp only [himage, add_rpaths_held hkeeps h]

end

section

variable {host : Host} {w w' : Rtld}

theorem Host.keepsHeld (host : Host) (w : Rtld) : KeepsHeld (host.slots w) :=
  fun _ _ _ hs => host.keeps _ _ _ hs

/-! ## One entry -/

theorem load_object_held {file : File} {realname : CString} {header : Ehdr} {phdr : List Phdr}
    {l : LinkMap} (h : HeldPaths w._rpath l.image.strtab l.image.dynamic) :
    load_object host file realname header phdr l w =
      load_object host.exact file realname header phdr l w := by
  unfold load_object
  simp only [host.exact_exact.slots]
  cases hmap : map_segments host.kern w._dl_pagesize file.bytes header phdr
      { l with l_entry := header.e_entry, l_phnum := header.e_phnum } w.proc with
  | error e =>
    rw [show host.exact.kern = host.kern from rfl, hmap]
    rfl
  | ok r =>
    have himage : r.1.image = l.image := by
      have hmapped := map_segments_mapped hmap
      rw [Mapped] at hmapped
      rw [hmapped]
    rw [show host.exact.kern = host.kern from rfl, hmap]
    simp only [bind, Except.bind]
    rw [parse_dynamic_held (host.keepsHeld w) (by simpa only [himage] using h)]

theorem map_object_fd_held {file : File} {realname : CString}
    (h : HeldPaths w._rpath file.image.strtab file.image.dynamic) :
    map_object_fd host file realname w = map_object_fd host.exact file realname w := by
  unfold map_object_fd
  cases __read file 0 FILEBUF_SIZE with
  | none => rfl
  | some got =>
    simp only
    congr 1
    apply bind_congr
    intro phdr
    rw [load_object_held h]
    rfl

theorem find_loaded_held (h : rtld.HeldState w) (realname : CString) (fuel : Nat)
    (o : Option Ptr) :
    find_loaded host w realname fuel o = find_loaded host.exact w realname fuel o := by
  induction fuel generalizing o with
  | zero => cases o <;> rfl
  | succ fuel ih =>
    cases o with
    | none => rfl
    | some p =>
      simp only [find_loaded]
      cases hl : w.deref p with
      | error e => rfl
      | ok l =>
        simp only [bind, Except.bind]
        cases hname : l.l_name with
        | none => rfl
        | some name =>
          have hheld := h.names p name (nameOf_eq_some.mpr ⟨l, Rtld.deref_eq_ok.mp hl, hname⟩)
          simp only [host.keeps w _ name hheld, host.exact_exact w _ name, ih]

theorem map_object_held (h : rtld.HeldState w) {soname : CString}
    (hkept : Need.Kept host.fs ⟨soname, w._rpath⟩) :
    map_object host soname w = map_object host.exact soname w := by
  unfold map_object
  rw [rpaths_held host h.rpath, host.exact_exact.rpaths, show host.exact.fs = host.fs from rfl]
  cases hopen : open_path host.fs soname w._rpath with
  | none => rfl
  | some found =>
    obtain ⟨path, file⟩ := found
    simp only
    rw [find_loaded_held h]
    apply bind_congr
    rintro (_ | p)
    · exact map_object_fd_held ⟨h.rpath, (hkept.found path file hopen).2⟩
    · rfl

theorem map_object_fd_rpath {file : File} {realname : CString} {p : Ptr}
    (h : map_object_fd host file realname w = .ok (p, w')) :
    ∀ s ∈ w'._rpath, s ∈ w._rpath ∨ s ∈ rpathsIn file.image.strtab file.image.dynamic := by
  unfold map_object_fd at h
  split at h
  · cases h
  · simp only at h
    split_ifs at h
    simp only [bind_eq_ok] at h
    obtain ⟨phdr, _, ⟨l, rpath, proc⟩, hload, hok⟩ := h
    cases hok
    simp only [load_object, bind_eq_ok] at hload
    obtain ⟨⟨l1, proc1⟩, hmap, ⟨l2, rpath2⟩, hparse, hok⟩ := hload
    cases hok
    have hmapped := map_segments_mapped hmap
    rw [Mapped] at hmapped
    simp only [parse_dynamic, bind_eq_ok] at hparse
    obtain ⟨_, _, map1, hindex, strtab, _, rpath1, hadd, map2, _, ⟨⟩, _, hparse⟩ := hparse
    cases hparse
    rw [index_dynamic_ok hindex, hmapped] at hadd
    exact add_rpaths_mem hadd

/-- An entry whose copies keep their NULs leaves a state of which all do. -/
theorem map_object_heldState (h : rtld.HeldState w) {soname : CString} {p : Ptr}
    (hkept : Need.Kept host.fs ⟨soname, w._rpath⟩) (hmap : map_object host soname w = .ok (p, w')) :
    rtld.HeldState w' := by
  obtain ⟨path, file, hopen⟩ := map_object_found hmap
  rw [map_object, hopen, bind_eq_ok] at hmap
  rw [rpaths_held host h.rpath] at hopen
  obtain ⟨hpath, hnew⟩ := hkept.found path file hopen
  obtain ⟨found, _, hmap⟩ := hmap
  cases found with
  | some q =>
    cases hmap
    exact h
  | none =>
    obtain ⟨_, l, hfresh, hw', _⟩ := map_object_fd_ok hmap
    have hmaps : w'.maps = w.maps ++ [l] := by rw [hw']
    refine ⟨?_, fun s hs => (map_object_fd_rpath hmap s hs).elim (h.rpath s) (hnew s)⟩
    intro q name hname
    obtain ⟨m, hm, hmname⟩ := nameOf_eq_some.mp hname
    rw [hmaps, List.getElem?_append] at hm
    split_ifs at hm with hlt
    · exact h.names q name (nameOf_eq_some.mpr ⟨m, hm, hmname⟩)
    · have hml : m = l := by simpa using (List.mem_of_getElem? hm)
      rw [hml, hfresh.name] at hmname
      cases hmname
      exact hpath

/-! ## The place of an object -/

theorem names_put {p : Ptr} {l : LinkMap} (l' : LinkMap) (hl : w.maps[p]? = some l)
    (hname : l'.l_name = l.l_name) :
    (w.put p l').maps.map LinkMap.l_name = w.maps.map LinkMap.l_name := by
  rw [Rtld.put, List.map_set, hname]
  refine List.ext_getElem? fun q => ?_
  rw [List.getElem?_set]
  split_ifs with hq hlt
  · rw [← hq, List.getElem?_map, hl, Option.map_some]
  · rw [List.getElem?_eq_none (by omega)]
  · rfl

theorem link_last_names {prev : Option Ptr} {p : Ptr} (h : link_last w prev p = .ok w') :
    w'.maps.map LinkMap.l_name = w.maps.map LinkMap.l_name := by
  simp only [link_last, bind_eq_ok, Rtld.deref_eq_ok] at h
  obtain ⟨l, hl, h⟩ := h
  have hput := names_put { l with l_prev := prev, l_next := none } hl rfl
  cases prev with
  | none =>
    cases h
    exact hput
  | some q =>
    simp only [bind_eq_ok, Rtld.deref_eq_ok] at h
    obtain ⟨m, hm, h⟩ := h
    cases h
    exact (names_put { m with l_next := some p } hm rfl).trans hput

theorem append_loop_names {p : Ptr} {fuel : Nat} {prev o : Option Ptr}
    (h : append_loop w p fuel prev o = .ok w') :
    w'.maps.map LinkMap.l_name = w.maps.map LinkMap.l_name := by
  induction fuel generalizing prev o with
  | zero =>
    cases o with
    | none => exact link_last_names h
    | some q => cases h
  | succ fuel ih =>
    cases o with
    | none => exact link_last_names h
    | some q =>
      unfold append_loop at h
      split_ifs at h
      · cases h
        rfl
      · rw [bind_eq_ok] at h
        obtain ⟨l, _, h⟩ := h
        exact ih h

theorem take_object_names {st st' : Deps} {p : Ptr} (h : take_object st p = .ok st') :
    st'.w.maps.map LinkMap.l_name = st.w.maps.map LinkMap.l_name := by
  simp only [take_object, bind_eq_ok, Rtld.deref_eq_ok] at h
  obtain ⟨l, hl, w', happ, h⟩ := h
  cases h
  refine (append_loop_names happ).trans ?_
  unfold chain_runlist
  split_ifs
  · exact names_put { l with l_reserved := 1 } hl rfl
  · rfl

/-- The same names and search paths in another state. -/
theorem heldState_of_same (h : rtld.HeldState w)
    (hnames : w'.maps.map LinkMap.l_name = w.maps.map LinkMap.l_name)
    (hrpath : w'._rpath = w._rpath) : rtld.HeldState w' := by
  refine ⟨?_, hrpath ▸ h.rpath⟩
  intro p name hname
  have hsame : (w'.maps[p]?).map LinkMap.l_name = (w.maps[p]?).map LinkMap.l_name := by
    rw [← List.getElem?_map, ← List.getElem?_map, hnames]
  obtain ⟨l', hl', hn'⟩ := nameOf_eq_some.mp hname
  rw [hl', Option.map_some, hn'] at hsame
  obtain ⟨l, hl, hn⟩ := Option.map_eq_some_iff.mp hsame.symm
  exact h.names p name (nameOf_eq_some.mpr ⟨l, hl, hn⟩)

/-! ## The loops -/

theorem error_bind {α β : Type} (e : Stop) (f : α → Except Stop β) :
    (Except.error e >>= f) = .error e := rfl

theorem ok_bind {α β : Type} (a : α) (f : α → Except Stop β) : (Except.ok a >>= f) = f a := rfl

/-- What the run does with an entry is what a run on exact copies does. -/
theorem needed_entry_held {l : LinkMap} {st : Deps} {dyn : Dyn} (h : rtld.HeldState st.w)
    (hkept : ∀ need ∈ needed_entry_needs l st dyn, need.Kept host.fs) :
    needed_entry host l st dyn = needed_entry host.exact l st dyn ∧
      ∀ st', needed_entry host l st dyn = .ok st' → rtld.HeldState st'.w := by
  unfold needed_entry
  by_cases htag : dyn.d_tag ≠ DT_NEEDED
  · refine ⟨by rw [if_pos htag, if_pos htag], ?_⟩
    intro st' hst
    rw [if_pos htag] at hst
    obtain ⟨_, _, hst⟩ := bind_eq_ok.mp hst
    cases hst
    exact h
  · have hneed : Need.Kept host.fs ⟨strAt l.image.strtab dyn.d_un.toNat, st.w._rpath⟩ := by
      apply hkept
      rw [needed_entry_needs, if_neg htag]
      exact List.mem_singleton_self _
    rw [if_neg htag, if_neg htag, take_needed, take_needed, ← map_object_held h hneed]
    refine ⟨rfl, ?_⟩
    intro st' hst
    obtain ⟨_, _, hst⟩ := bind_eq_ok.mp hst
    obtain ⟨⟨p, w1⟩, hmap, htake⟩ := bind_eq_ok.mp hst
    exact heldState_of_same (map_object_heldState h hneed hmap) (take_object_names htake)
      (take_object_rpath htake)

theorem needed_loop_held {l : LinkMap} {dyns : List Dyn} (st : Deps) (h : rtld.HeldState st.w)
    (hkept : ∀ need ∈ needed_loop_needs host l st dyns, need.Kept host.fs) :
    needed_loop host l st dyns = needed_loop host.exact l st dyns ∧
      needed_loop_needs host l st dyns = needed_loop_needs host.exact l st dyns ∧
      ∀ st', needed_loop host l st dyns = .ok st' → rtld.HeldState st'.w := by
  induction dyns generalizing st with
  | nil =>
    refine ⟨rfl, rfl, ?_⟩
    intro st' hst
    cases hst
    exact h
  | cons dyn dyns ih =>
    rw [needed_loop_needs] at hkept
    obtain ⟨hentry, hnext⟩ :=
      needed_entry_held h fun need hn => hkept need (List.mem_append_left _ hn)
    rw [needed_loop, needed_loop, needed_loop_needs, needed_loop_needs, ← hentry]
    generalize needed_entry host l st dyn = entry at hkept hnext
    cases entry with
    | error e =>
      rw [error_bind, error_bind, afterwards, afterwards]
      exact ⟨rfl, rfl, fun st' hst => by cases hst⟩
    | ok st1 =>
      obtain ⟨hloop, hneeds, hlast⟩ :=
        ih st1 (hnext st1 rfl) fun need hn => hkept need (List.mem_append_right _ hn)
      rw [ok_bind, ok_bind, afterwards, afterwards, hloop, hneeds]
      exact ⟨rfl, rfl, hloop ▸ hlast⟩

theorem deps_loop_held {fuel : Nat} (done : List Ptr) {st : Deps} (h : rtld.HeldState st.w)
    (hkept : ∀ need ∈ deps_loop_needs host fuel st, need.Kept host.fs) :
    deps_loop host fuel done st = deps_loop host.exact fuel done st ∧
      deps_loop_needs host fuel st = deps_loop_needs host.exact fuel st := by
  induction fuel generalizing done st with
  | zero =>
    refine ⟨?_, rfl⟩
    unfold deps_loop
    cases st.todo <;> rfl
  | succ fuel ih =>
    unfold deps_loop_needs at hkept ⊢
    unfold deps_loop
    cases htodo : st.todo with
    | nil => exact ⟨rfl, rfl⟩
    | cons p todo =>
      simp only [htodo] at hkept ⊢
      generalize st.w.deref p = entry at hkept
      cases entry with
      | error e => exact ⟨by rw [error_bind, error_bind], by rw [afterwards, afterwards]⟩
      | ok l =>
        rw [afterwards] at hkept
        obtain ⟨hloop, hneeds, hnext⟩ := needed_loop_held { st with todo } h
          fun need hn => hkept need (List.mem_append_left _ hn)
        rw [ok_bind, ok_bind, afterwards, afterwards, ← hloop, ← hneeds]
        generalize needed_loop host l { st with todo } l.image.dynamic = loop at hkept hnext
        cases loop with
        | error e =>
          exact ⟨by rw [error_bind, error_bind], by rw [afterwards, afterwards]⟩
        | ok st1 =>
          rw [afterwards] at hkept
          obtain ⟨hdeps, hrest⟩ := ih (done ++ [p]) (hnext st1 rfl)
            fun need hn => hkept need (List.mem_append_right _ hn)
          rw [ok_bind, ok_bind, afterwards, afterwards, hdeps, hrest]
          exact ⟨rfl, rfl⟩

/-- The parse of an object whose strings are held leaves a held state. -/
theorem parse_map_heldState {p : Ptr} (h : rtld.HeldState w)
    (htables : ∀ l, w.maps[p]? = some l →
      ∀ s ∈ rpathsIn l.image.strtab l.image.dynamic, Held s)
    (hparse : parse_map host w p = .ok w') : rtld.HeldState w' := by
  simp only [parse_map, bind_eq_ok, Rtld.deref_eq_ok] at hparse
  obtain ⟨l, hl, ⟨l', rpath⟩, hdyn, hw'⟩ := hparse
  cases hw'
  refine ⟨fun q name hname => ?_, fun s hs => ?_⟩
  · rw [nameOf_parsed hl hdyn] at hname
    exact h.names q name hname
  · simp only [parse_dynamic, bind_eq_ok] at hdyn
    obtain ⟨_, _, map1, hindex, strtab, _, rpath1, hadd, map2, _, ⟨⟩, _, hdyn⟩ := hdyn
    cases hdyn
    rw [index_dynamic_ok hindex] at hadd
    exact (add_rpaths_mem hadd s hs).elim (h.rpath s) (htables l hl s)

/-- The run of `map_object_deps` is the one on exact copies, and comes to the
same entries. -/
theorem KeptRun.exact {fuel : Nat} {root : Ptr} (h : KeptRun host fuel w root) :
    map_object_deps host fuel w root = map_object_deps host.exact fuel w root ∧
      map_object_deps_needs host fuel w root = map_object_deps_needs host.exact fuel w root := by
  have hneeds := h.needs
  have hparse : parse_map host w root = parse_map host.exact w root := by
    unfold parse_map
    cases hl : w.deref root with
    | error e => rfl
    | ok l =>
      have hheld := h.tables l (Rtld.deref_eq_ok.mp hl)
      simp only [bind, Except.bind, host.exact_exact.slots,
        parse_dynamic_held (host.keepsHeld w) ⟨h.state.rpath, hheld⟩]
  unfold map_object_deps_needs at hneeds ⊢
  unfold map_object_deps
  rw [← hparse]
  cases hw1 : parse_map host w root with
  | error e => exact ⟨by rw [error_bind, error_bind], by rw [afterwards, afterwards]⟩
  | ok w1 =>
    rw [hw1, afterwards] at hneeds
    obtain ⟨hloop, hsame⟩ := deps_loop_held []
      (parse_map_heldState h.state h.tables hw1) hneeds
    rw [ok_bind, ok_bind, afterwards, afterwards, hloop, hsame]
    exact ⟨rfl, rfl⟩

end

end elf_loader.load
