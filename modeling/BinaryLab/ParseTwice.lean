-- A second `parse_dynamic` of an object. The loader parses the root two or
-- three times in a run, and other objects add search paths in between. All of
-- it is for search paths that read as they were copied.
import BinaryLab.LoadingRuns
import BinaryLab.RpathTable

set_option linter.style.nameCheck false

open binary_lab.runs binary_lab.words

namespace elf_loader.load

/-! ## Maps that the parser leaves as they are -/

section

variable {rpath rpath' : List CString} {map map' : LinkMap}

/-- The index of the entries, the search paths and the hash table of the map
are what the parser would make them. -/
structure Fixed (rpath : List CString) (map : LinkMap) : Prop where
  ld : map.l_ld ≠ 0
  indexable : ∀ dyn ∈ map.image.dynamic, Indexable dyn
  info : indexed map.l_info map.image.dynamic = map.l_info
  paths : ∃ strtab, D_PTR .parse_dynamic map DT_STRTAB = .ok strtab ∧
    add_rpaths asCopied strtab map.image.strtab rpath map.image.dynamic = .ok rpath
  hash : (map.l_info DT_HASH).isSome → HashReady map
  checked : check_dynamic_assert map = .ok ()

theorem setup_hash_ready (h : (map.l_info DT_HASH).isSome → HashReady map) :
    setup_hash map = .ok map := by
  unfold setup_hash
  by_cases hhash : (map.l_info DT_HASH).isSome
  · obtain ⟨nbuckets, nchain, words, hwords, rfl, hb, hc⟩ := h hhash
    obtain ⟨d, hd⟩ := Option.isSome_iff_exists.mp hhash
    rw [if_pos hhash, D_PTR_eq_ok.mpr ⟨d, hd, rfl⟩, hwords]
    simp only [bind, Except.bind]
    rw [← hb, ← hc]
  · rw [if_neg hhash]

theorem Fixed.parsed (h : Fixed rpath map) :
    parse_dynamic asCopied rpath map = .ok (map, rpath) := by
  have hindex : index_dynamic map map.image.dynamic = .ok map := by
    rw [index_dynamic_eq map h.indexable, h.info]
  obtain ⟨strtab, hstrtab, hpaths⟩ := h.paths
  simp only [parse_dynamic, assert_not_null h.ld, hindex, hstrtab, hpaths,
    setup_hash_ready h.hash, h.checked, bind, Except.bind]

/-- Indexing the entries again changes nothing. -/
theorem indexed_again (info : Nat → Option Dyn) (dyns : List Dyn) :
    indexed (indexed info dyns) dyns = indexed info dyns := by
  funext i
  unfold indexed
  split_ifs
  · cases lastEntry dyns i <;> rfl
  · rfl

/-- The paths of an object are found in every table that has them. -/
theorem add_rpaths_again {strtab : Addr} {tab : List Byte} {dyns : List Dyn}
    {rpath2 : List CString} (h : add_rpaths asCopied strtab tab rpath dyns = .ok rpath')
    (hmore : rpath' ⊆ rpath2) : add_rpaths asCopied strtab tab rpath2 dyns = .ok rpath2 := by
  induction dyns generalizing rpath with
  | nil => rfl
  | cons dyn dyns ih =>
    rw [add_rpaths, bind_eq_ok] at h
    obtain ⟨rpath1, hentry, hrest⟩ := h
    have hentry2 : add_rpath_entry asCopied strtab tab rpath2 dyn = .ok rpath2 := by
      unfold add_rpath_entry at hentry ⊢
      by_cases htag : dyn.d_tag ≠ DT_RPATH
      · rw [if_pos htag]
      · rw [if_neg htag, bind_eq_ok] at hentry
        obtain ⟨⟨⟩, hassert, hadd⟩ := hentry
        have hadded : strAt tab dyn.d_un.toNat ∈ rpath1 := by
          rcases add_rpath_ok hadd with ⟨hmem, rfl⟩ | ⟨_, rfl⟩
          · rwa [show read_rpath asCopied rpath1 = rpath1 from asCopied_exact rpath1] at hmem
          · simp
        have hmem : strAt tab dyn.d_un.toNat ∈ rpath2 :=
          hmore ((add_rpaths_ok hrest).subset hadded)
        rw [if_neg htag, hassert]
        rcases add_rpath_cases (asCopied_exact rpath2) (strAt tab dyn.d_un.toNat) with
          ⟨_, hknown⟩ | ⟨hnew, _⟩ | ⟨hnew, _⟩ | ⟨hnew, _⟩
        · exact hknown
        all_goals exact absurd hmem hnew
    rw [add_rpaths, hentry2]
    exact ih hrest

/-- A parsed map stays as it is when it is parsed again, also with more paths in the table. -/
theorem parse_dynamic_fixed {rpath2 : List CString}
    (h : parse_dynamic asCopied rpath map = .ok (map', rpath')) (hmore : rpath' ⊆ rpath2) :
    Fixed rpath2 map' := by
  have hparsed := parse_dynamic.spec h
  simp only [parse_dynamic, bind_eq_ok] at h
  obtain ⟨⟨⟩, hld, map1, hindex, strtab, hstrtab, rpath1, hpaths, map2, hhash, ⟨⟩, hcheck, h⟩ := h
  cases h
  have hframe := hparsed.frame
  have himage : map'.image = map.image := by rw [hframe]
  have hinfo : map'.l_info = indexed map.l_info map.image.dynamic := by rw [hframe]
  have haddr : map'.l_addr = map.l_addr := by rw [hframe]
  refine ⟨?_, ?_, ?_, ⟨strtab, ?_, ?_⟩, hparsed.hash, hcheck⟩
  · rw [hframe]
    exact bne_iff_ne.mp (assert_eq_ok.mp hld)
  · rw [himage]
    exact index_dynamic_indexable hindex
  · rw [himage, hinfo]
    exact indexed_again map.l_info map.image.dynamic
  · rw [index_dynamic_ok hindex] at hstrtab
    obtain ⟨d, hd, hval⟩ := D_PTR_eq_ok.mp hstrtab
    rw [D_PTR_eq_ok, hinfo, haddr]
    exact ⟨d, hd, hval⟩
  · rw [index_dynamic_ok hindex] at hpaths
    rw [himage]
    exact add_rpaths_again hpaths hmore

end

/-! ## Calls on the maps of a process -/

/-- `parse_dynamic` on the maps `ps`, one after the other. -/
def parse_maps (host : Host) (w : Rtld) : List Ptr → Except Stop Rtld
  | [] => .ok w
  | p :: ps => do parse_maps host (← parse_map host w p) ps

section

variable {host : Host} {w w' : Rtld} {p q : Ptr}

/-- A call of the parser on `p` would change nothing. -/
def Settled (w : Rtld) (p : Ptr) : Prop := ∃ l, w.maps[p]? = some l ∧ Fixed w._rpath l

theorem Settled.parsed (hexact : host.Exact) (h : Settled w p) : parse_map host w p = .ok w := by
  obtain ⟨l, hl, hfixed⟩ := h
  have hput : w.put p l = w := by
    have hset : w.maps.set p l = w.maps := by
      obtain ⟨hlt, rfl⟩ := List.getElem?_eq_some_iff.mp hl
      exact List.set_getElem_self hlt
    rw [Rtld.put, hset]
  simp only [parse_map, Rtld.deref, hl, hexact.slots, hfixed.parsed, bind, Except.bind,
    hput]

theorem parse_map_settled (hexact : host.Exact) (h : parse_map host w p = .ok w') :
    Settled w' p := by
  simp only [parse_map, hexact.slots, bind_eq_ok, Rtld.deref_eq_ok] at h
  obtain ⟨l, hl, ⟨l', rpath⟩, hparse, h⟩ := h
  cases h
  refine ⟨l', ?_, parse_dynamic_fixed hparse (List.Subset.refl _)⟩
  exact (get_put hl).trans (if_pos rfl)

/-- More search paths change nothing for a map that is parsed. -/
theorem Fixed.grows {rpath rpath' : List CString} {map : LinkMap} (h : Fixed rpath map)
    (hmore : rpath ⊆ rpath') : Fixed rpath' map := parse_dynamic_fixed h.parsed hmore

/-- A call on some map leaves a settled one settled. -/
theorem Settled.parse_map (hexact : host.Exact) (h : Settled w p)
    (hparse : parse_map host w q = .ok w') : Settled w' p := by
  by_cases hq : q = p
  · subst hq
    exact parse_map_settled hexact hparse
  · obtain ⟨l, hl, hfixed⟩ := h
    simp only [load.parse_map, bind_eq_ok, Rtld.deref_eq_ok] at hparse
    obtain ⟨m, hm, ⟨m', rpath⟩, hparse, hw⟩ := hparse
    cases hw
    refine ⟨l, ?_, hfixed.grows (parse_dynamic.spec hparse).grows.subset⟩
    exact ((get_put hm).trans (if_neg (Ne.symm hq))).trans hl

theorem Settled.parse_maps (hexact : host.Exact) {ps : List Ptr} (h : Settled w p)
    (hparse : parse_maps host w ps = .ok w') : Settled w' p := by
  induction ps generalizing w with
  | nil =>
    cases hparse
    exact h
  | cons q ps ih =>
    rw [load.parse_maps, bind_eq_ok] at hparse
    obtain ⟨w1, h1, h2⟩ := hparse
    exact ih (h.parse_map hexact h1) h2

/-- The links of the namespace mean nothing to the parser. -/
theorem Settled.put_links {p q : Ptr} {l : LinkMap} (next prev : Option Ptr) (h : Settled w p)
    (hl : w.maps[q]? = some l) : Settled (w.put q { l with l_next := next, l_prev := prev }) p := by
  obtain ⟨m, hm, hfixed⟩ := h
  by_cases hq : p = q
  · subst hq
    rw [hl] at hm
    cases hm
    refine ⟨_, (get_put hl).trans (if_pos rfl), ?_⟩
    exact ⟨hfixed.ld, hfixed.indexable, hfixed.info, hfixed.paths, hfixed.hash, hfixed.checked⟩
  · exact ⟨m, ((get_put hl).trans (if_neg hq)).trans hm, hfixed⟩

/-- An object that has been loaded is parsed. -/
theorem map_object_fd_settled (hexact : host.Exact) {file : File} {realname : CString} {p : Ptr}
    (h : map_object_fd host file realname w = .ok (p, w')) : Settled w' p := by
  unfold map_object_fd at h
  split at h
  · cases h
  · simp only at h
    split_ifs at h
    simp only [bind_eq_ok] at h
    obtain ⟨phdr, _, ⟨l, rpath, proc⟩, hload, hok⟩ := h
    cases hok
    simp only [load_object, hexact.slots, bind_eq_ok] at hload
    obtain ⟨_, _, ⟨l2, rpath2⟩, hparse, hok⟩ := hload
    cases hok
    exact ⟨_, List.getElem?_concat_length, parse_dynamic_fixed hparse (List.Subset.refl _)⟩

/-- `map_object_deps` without its call of `parse_dynamic`. -/
def map_object_deps_parsed (host : Host) (fuel : Nat) (w : Rtld) (root : Ptr) :
    Except Stop Rtld := do
  let (runlist, st) ← deps_loop host fuel [] { w, todo := [root], nlist := 0 }
  let w ← set_searchlist root runlist st.nlist st.w
  print_namespace w
  .ok w

theorem Settled.deps (hexact : host.Exact) {root : Ptr} (h : Settled w root) (fuel : Nat) :
    map_object_deps host fuel w root = map_object_deps_parsed host fuel w root := by
  rw [map_object_deps, h.parsed hexact]
  rfl

end

end elf_loader.load

namespace elf_loader.rtld

open load reloc

/-! ## The calls in a run of the loader -/

/-- `map_main` without its call of `parse_dynamic`. -/
def map_main_parsed (host : Host) (pi : ProgramInfo) (rtld : Ptr) (w : Rtld) :
    Except Stop (Ptr × Rtld) := do
  let l ← w.deref rtld
  let w := w.put rtld { l with l_name := some (CString.lit "RTLD".toList) }
  let (main, w) ← map_object host (printed pi.argv1) w
  let l ← w.deref rtld
  let w := w.put rtld { l with l_next := some main }
  let m ← w.deref main
  .ok (main, w.put main { m with l_prev := some rtld })

/-- `loader_main` with one call of `parse_dynamic` for each object: that of
`map_object_fd`, and the one on `rtld_map`. -/
def loader_main_once (host : Host) (sym : Symbols) (fuel : Nat) (pi : ProgramInfo) (w : Rtld) :
    Except Stop (Addr × Rtld) := do
  let (rtld, w) ← scan_program host sym pi w
  let (root, w) ←
    if pi.entry = sym._start then map_main_parsed host pi rtld w else name_main rtld w
  let w ← parse_map host w rtld
  let w ← map_object_deps_parsed host fuel w root
  let w ← reloc_all sym.runtime_resolve w
  let l ← w.deref root
  .ok (l.l_addr + l.l_entry, w)

section

variable {host : Host} {sym : Symbols} {pi : ProgramInfo} {w w' : Rtld}

/-- The program that the loader maps is parsed when it is linked. -/
theorem map_main_parsed_settled (hexact : host.Exact) {rtld main : Ptr} {l : LinkMap}
    (hns : w._namespace = some rtld) (hl : w.maps[rtld]? = some l) (hnext : l.l_next = none)
    (h : map_main_parsed host pi rtld w = .ok (main, w')) : Settled w' main := by
  simp only [map_main_parsed, bind_eq_ok, Rtld.deref_eq_ok] at h
  obtain ⟨l0, hl0, ⟨main, w1⟩, hmap, l1, hl1, m, hm, h⟩ := h
  cases h
  rw [hl] at hl0
  cases hl0
  have hnamed := (get_put (l := { l with l_name := some (CString.lit "RTLD".toList) }) hl).trans
    (if_pos rfl)
  obtain ⟨path, file, hopen⟩ := map_object_found hmap
  rw [map_object_alone (w := w.put rtld _) hns hnamed rfl hnext hopen] at hmap
  exact ((map_object_fd_settled hexact hmap).put_links _ _ hl1).put_links _ _ hm

/-- The second call on the program that the loader maps can be left out. -/
theorem map_main_eq (hexact : host.Exact) {rtld : Ptr} {l : LinkMap}
    (hns : w._namespace = some rtld) (hl : w.maps[rtld]? = some l) (hnext : l.l_next = none) :
    map_main host pi rtld w = map_main_parsed host pi rtld w := by
  have hsplit : map_main host pi rtld w = map_main_parsed host pi rtld w >>= fun r =>
      load.parse_map host r.2 r.1 >>= fun w => .ok (r.1, w) := by
    simp only [map_main, map_main_parsed, bind_assoc]
    rfl
  rw [hsplit]
  cases hmain : map_main_parsed host pi rtld w with
  | error e => rfl
  | ok r =>
    have hsettled := map_main_parsed_settled hexact hns hl hnext hmain
    simp only [bind, Except.bind, hsettled.parsed hexact]

theorem loader_main_eq_once (hexact : host.Exact) (sym : Symbols) (fuel : Nat)
    (pi : ProgramInfo) (w : Rtld) :
    loader_main host sym fuel pi w = loader_main_once host sym fuel pi w := by
  unfold loader_main loader_main_once
  cases hscan : scan_program host sym pi w with
  | error e => rfl
  | ok r =>
    obtain ⟨rtld, w1⟩ := r
    obtain ⟨rfl, scan, hscanned, _, rfl⟩ := scan_program_ok hscan
    have hl : (w.maps ++ [scan.l])[w.maps.length]? = some scan.l := List.getElem?_concat_length
    simp only [bind, Except.bind, choose_root]
    -- In both modes the root is parsed when its dependencies are loaded.
    by_cases hstart : pi.entry = sym._start
    · rw [if_pos hstart, if_pos hstart, map_main_eq hexact rfl hl hscanned.unlinked.1]
      cases hmain : map_main_parsed host pi w.maps.length _ with
      | error e => rfl
      | ok r =>
        have hsettled := map_main_parsed_settled hexact rfl hl hscanned.unlinked.1 hmain
        simp only
        cases hparse : load.parse_map host r.2 w.maps.length with
        | error e => rfl
        | ok w3 => simp only [(hsettled.parse_map hexact hparse).deps hexact]
    · rw [if_neg hstart, if_neg hstart]
      cases hname : name_main w.maps.length _ with
      | error e => rfl
      | ok r =>
        have hroot : r.1 = w.maps.length := by
          simp only [name_main, bind_eq_ok] at hname
          obtain ⟨_, _, hname⟩ := hname
          cases hname
          rfl
        simp only
        cases hparse : load.parse_map host r.2 w.maps.length with
        | error e => rfl
        | ok w3 => simp only [hroot, (parse_map_settled hexact hparse).deps hexact]

end

/-- `parse_dynamic` is idempotent, with `__strdup` as an exact copy: once it has
returned for an object, a later call on that object changes nothing, whatever
calls come in between. So the run of the loader is the one with a single call
for each object. -/
theorem parsing_an_object_again_changes_nothing (host : Host) (hexact : host.Exact) :
    (∀ (w w1 w2 : Rtld) (p : Ptr) (ps : List Ptr), parse_map host w p = .ok w1 →
      parse_maps host w1 ps = .ok w2 → parse_map host w2 p = .ok w2) ∧
    ∀ (sym : Symbols) (fuel : Nat) (pi : ProgramInfo) (w : Rtld),
      loader_main host sym fuel pi w = loader_main_once host sym fuel pi w := by
  refine ⟨?_, loader_main_eq_once hexact⟩
  intro w w1 w2 p ps hparse hcalls
  exact ((parse_map_settled hexact hparse).parse_maps hexact hcalls).parsed hexact

/-- Two objects with a search path each. -/
def twoObjects : Rtld :=
  let image (path : Byte) : Image :=
    { emptyImage with
      dynamic := [⟨DT_STRTAB, 0x90⟩, ⟨DT_RPATH, 1⟩]
      strtab := [0, path, 0] }
  { startWorld with maps :=
    [{ init_link_map 0x100 (image 0x61) with l_ld := 0x80 },
      { init_link_map 0x200 (image 0x62) with l_ld := 0x80 }] }

theorem an_object_is_parsed_again_after_another_one :
    ∃ w1 w2, parse_map programHost twoObjects 0 = .ok w1 ∧
      parse_maps programHost w1 [1, 0] = .ok w2 ∧ w2._rpath.length = 5 ∧
      parse_map programHost w2 0 = .ok w2 := by
  obtain ⟨⟨w1, w2⟩, h⟩ := exists_ok (x := do
    let w1 ← parse_map programHost twoObjects 0
    let w2 ← parse_maps programHost w1 [1, 0]
    assert (w2._rpath.length == 5) "five paths"
    .ok (w1, w2)) (by decide +kernel)
  simp only [bind_eq_ok] at h
  obtain ⟨w1, h1, w2, h2, ⟨⟩, hlen, h⟩ := h
  cases h
  exact ⟨w1, w2, h1, h2, beq_iff_eq.mp (assert_eq_ok.mp hlen),
    (parsing_an_object_again_changes_nothing programHost fun _ _ _ => rfl).1 twoObjects w1 w2 0
      [1, 0] h1 h2⟩

end elf_loader.rtld
