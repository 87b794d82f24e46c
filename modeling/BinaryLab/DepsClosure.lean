-- What `map_object_deps` computes: the closure of the root under DT_NEEDED,
-- each object once and in breadth-first order. An object is known by its
-- path. The search paths only grow at the end, so a name that has led to a
-- path leads to it to the end of the run.
import BinaryLab.BreadthFirst
import BinaryLab.Deps
import Mathlib.Data.List.Find
import Mathlib.Data.List.Nodup
import Mathlib.Data.Option.Basic

open binary_lab.words binary_lab.breadth_first

namespace elf_loader.load

/-! ## The graph of the files -/

/-- The names in the `DT_NEEDED` entries. -/
def neededIn (strtab : List Byte) (dyns : List Dyn) : List CString :=
  dyns.filterMap fun d =>
    if d.d_tag = (DT_NEEDED : Int) then some (strAt strtab d.d_un.toNat) else none

def needed (image : Image) : List CString := neededIn image.strtab image.dynamic

/-- Every name leads to a path. -/
def Resolve (fs : FileSystem) (rpaths sonames : List CString) : Prop :=
  ∀ soname ∈ sonames, (open_path fs soname rpaths).isSome

/-- The paths that the names lead to. -/
def paths (fs : FileSystem) (rpaths sonames : List CString) : List CString :=
  sonames.filterMap fun soname => (open_path fs soname rpaths).map Prod.fst

/-- How a run of `map_object_deps` starts: the object to start from with its
name and its tables, and the namespace. -/
structure Start where
  root : Ptr
  name : CString
  image : Image
  ns : List Ptr
  pagesize : Addr

/-- The tables of the object with a name. -/
def imageOf (fs : FileSystem) (start : Start) (name : CString) : Image :=
  if name = start.name then start.image
  else ((fs.lookup name).map File.image).getD emptyImage

/-- The objects that the object with a name needs. -/
def graph (fs : FileSystem) (start : Start) (rpaths : List CString) (name : CString) :
    List CString :=
  paths fs rpaths (needed (imageOf fs start name))

section

variable {fs : FileSystem} {start : Start} {rpaths rpaths' : List CString}

theorem Resolve.grows {sonames : List CString} (h : Resolve fs rpaths sonames)
    (hgrows : rpaths <+: rpaths') :
    Resolve fs rpaths' sonames ∧ paths fs rpaths' sonames = paths fs rpaths sonames := by
  have hsame : ∀ soname ∈ sonames, open_path fs soname rpaths' = open_path fs soname rpaths := by
    intro soname hs
    obtain ⟨found, hfound⟩ := Option.isSome_iff_exists.mp (h soname hs)
    rw [hfound, open_path_grows hfound hgrows]
  constructor
  · intro soname hs
    rw [hsame soname hs]
    exact h soname hs
  · unfold paths
    apply List.filterMap_congr
    intro soname hs
    rw [hsame soname hs]

theorem mem_paths {sonames : List CString} {path : CString} :
    path ∈ paths fs rpaths sonames ↔
      ∃ soname ∈ sonames, ∃ file, open_path fs soname rpaths = some (path, file) := by
  simp [paths, List.mem_filterMap]

theorem reaches_grows {a b : CString} (h : Reaches (graph fs start rpaths) a b)
    (hgrows : rpaths <+: rpaths') : Reaches (graph fs start rpaths') a b := by
  refine Relation.ReflTransGen.mono ?_ a b h
  intro x y hy
  obtain ⟨soname, hs, file, hfile⟩ := mem_paths.mp hy
  exact mem_paths.mpr ⟨soname, hs, file, open_path_grows hfile hgrows⟩

end

/-! ## The invariant -/

/-- A run that ends well, with `P`, or with a name that leads nowhere. -/
def OrNotFound {α : Type} (x : Except Stop α) (P : α → Prop) : Prop :=
  (∃ a, x = .ok a ∧ P a) ∨ ∃ soname, x = .error (.exit (.libraryNotFound soname))

/-- A run that ends well, with `P`, or with a stop that is allowed. -/
def OrStops {α : Type} (Allowed : Stop → Prop) (x : Except Stop α) (P : α → Prop) : Prop :=
  (∃ a, x = .ok a ∧ P a) ∨ ∃ e, x = .error e ∧ Allowed e

theorem OrStops.bind {α β : Type} {Allowed : Stop → Prop} {x : Except Stop α}
    {f : α → Except Stop β} {P : α → Prop} {Q : β → Prop} (hx : OrStops Allowed x P)
    (hf : ∀ a, P a → OrStops Allowed (f a) Q) : OrStops Allowed (x >>= f) Q := by
  rcases hx with ⟨a, rfl, ha⟩ | ⟨e, rfl, he⟩
  · exact hf a ha
  · exact Or.inr ⟨e, rfl, he⟩

/-- No file has the name. -/
def NotFound (e : Stop) : Prop := ∃ soname, e = .exit (.libraryNotFound soname)

theorem OrStops.notFound {α : Type} {x : Except Stop α} {P : α → Prop}
    (h : OrStops NotFound x P) : OrNotFound x P := by
  rcases h with h | ⟨_, rfl, soname, rfl⟩
  · exact Or.inl h
  · exact Or.inr ⟨soname, rfl⟩

/-- If every stop is allowed, then all that is said is what holds when the run ends well. -/
theorem OrStops.of_ok {α : Type} {x : Except Stop α} {P : α → Prop} {a : α}
    (h : OrStops (fun _ => True) x P) (hx : x = .ok a) : P a := by
  subst hx
  rcases h with ⟨b, hb, hP⟩ | ⟨e, he, _⟩
  · cases hb
    exact hP
  · cases he

/-- The object at `p`, with its name, its tables and its string table. -/
def IsObject (fs : FileSystem) (start : Start) (w : Rtld) (p : Ptr) (name : CString) : Prop :=
  ∃ l, w.maps[p]? = some l ∧ l.l_name = some name ∧ l.image = imageOf fs start name ∧
    (l.l_info DT_STRTAB).isSome

theorem IsObject.nameOf {fs : FileSystem} {start : Start} {w : Rtld} {p : Ptr} {name : CString}
    (h : IsObject fs start w p name) : nameOf w p = some name := by
  obtain ⟨l, hl, hname, _⟩ := h
  exact nameOf_eq_some.mpr ⟨l, hl, hname⟩

theorem IsObject.keeps {fs : FileSystem} {start : Start} {w w' : Rtld} {p : Ptr} {name : CString}
    (h : IsObject fs start w p name) (hk : Keeps w w') : IsObject fs start w' p name := by
  obtain ⟨l, hl, hname, himage, hstr⟩ := h
  obtain ⟨l', hl', _⟩ := hk p l hl
  have hname' : l'.l_name = l.l_name := hk.field hl hl' LinkMap.l_name fun _ => rfl
  have himage' : l'.image = l.image := hk.field hl hl' LinkMap.image fun _ => rfl
  have hinfo' : l'.l_info = l.l_info := hk.field hl hl' LinkMap.l_info fun _ => rfl
  exact ⟨l', hl', hname'.trans hname, himage'.trans himage, by rw [hinfo']; exact hstr⟩

/-- The state of the loop of `map_object_deps`. The run list is the root and
then `rest`, of which `done` is behind. The objects loaded so far are `new`,
`visits` are the names of the objects in `done`, and `seen` are the paths that
the `DT_NEEDED` entries so far have led to. -/
structure Inv (host : Host) (start : Start) (Safe : List CString → Prop) (done rest new : List Ptr)
    (visits seen : List CString) (st : Deps) : Prop where
  pagesize : st.w._dl_pagesize = start.pagesize
  safe : Safe st.w._rpath
  root : start.root ∈ start.ns
  linked : DLinked st.w.maps none st.w._namespace (start.ns ++ new)
  /-- The loader itself has a name that is kept and that no search gives. -/
  outside : ∀ p ∈ start.ns, p ≠ start.root → ∃ name, nameOf st.w p = some name ∧ Held name ∧
    name ≠ start.name ∧ ∀ dir soname, namebuf dir soname ≠ name
  objects : ∀ p ∈ start.root :: new, ∃ name, IsObject host.fs start st.w p name
  /-- The three marks of an object that was seen agree. -/
  reserved : ∀ p ∈ start.root :: new, ∀ l, st.w.maps[p]? = some l →
    (l.l_reserved = 0 ↔ p ∉ rest)
  names : (start.root :: new).map (nameOf st.w) = (start.name :: seen).eraseDups.map some
  run : done ++ st.todo = start.root :: rest
  fresh : rest.filter (· ≠ start.root) = new
  once : rest.count start.root ≤ 1
  nlist : st.nlist = rest.length
  visited : done.map (nameOf st.w) = visits.map some
  files : ∀ c ∈ seen, (∃ file, host.fs.lookup c = some file) ∧ ∃ dir soname, c = namebuf dir soname
  reached : ∀ c ∈ seen, Reaches (graph host.fs start st.w._rpath) start.name c

section

variable {host : Host} {start : Start} {Safe : List CString → Prop} {done rest new : List Ptr}
  {visits seen : List CString} {st : Deps}

/-- What a `DT_NEEDED` entry has to establish. The rest follows from the frame. -/
theorem Inv.step (h : Inv host start Safe done rest new visits seen st) {w' : Rtld}
    {todo' rest' new' : List Ptr} {nlist' : Nat} {soname c : CString} {file : File}
    (hopen : open_path host.fs soname st.w._rpath = some (c, file))
    (hreach : Reaches (graph host.fs start st.w._rpath) start.name c)
    (hpagesize : w'._dl_pagesize = st.w._dl_pagesize) (hsafe : Safe w'._rpath)
    (hgrows : st.w._rpath <+: w'._rpath) (hkeeps : Keeps st.w w')
    (hlinked : DLinked w'.maps none w'._namespace (start.ns ++ new'))
    (hobjects : ∀ p ∈ start.root :: new', ∃ name, IsObject host.fs start w' p name)
    (hreserved : ∀ p ∈ start.root :: new', ∀ l, w'.maps[p]? = some l →
      (l.l_reserved = 0 ↔ p ∉ rest'))
    (hnames : (start.root :: new').map (nameOf w') =
      (start.name :: (seen ++ [c])).eraseDups.map some)
    (hrun : done ++ todo' = start.root :: rest')
    (hfresh : rest'.filter (· ≠ start.root) = new') (honce : rest'.count start.root ≤ 1)
    (hnlist : nlist' = rest'.length) :
    Inv host start Safe done rest' new' visits (seen ++ [c])
      { w := w', todo := todo', nlist := nlist' } where
  pagesize := hpagesize.trans h.pagesize
  safe := hsafe
  root := h.root
  linked := hlinked
  outside := by
    intro p hp hne
    obtain ⟨name, hname, hrest⟩ := h.outside p hp hne
    exact ⟨name, hkeeps.nameOf hname, hrest⟩
  objects := hobjects
  reserved := hreserved
  names := hnames
  run := hrun
  fresh := hfresh
  once := honce
  nlist := hnlist
  visited := by
    rw [← h.visited]
    apply List.map_congr_left
    intro p hp
    have hsome : nameOf st.w p ∈ visits.map some := by
      rw [← h.visited]
      exact List.mem_map_of_mem hp
    obtain ⟨name, _, hname⟩ := List.mem_map.mp hsome
    rw [← hname]
    exact hkeeps.nameOf hname.symm
  files := by
    intro d hd
    rcases List.mem_append.mp hd with hd | hd
    · exact h.files d hd
    · rw [List.mem_singleton.mp hd]
      obtain ⟨hfile, dir, _, hdir⟩ := open_path_ok hopen
      exact ⟨⟨file, hfile⟩, dir, soname, hdir⟩
  reached := by
    intro d hd
    rcases List.mem_append.mp hd with hd | hd
    · exact reaches_grows (h.reached d hd) hgrows
    · rw [List.mem_singleton.mp hd]
      exact reaches_grows hreach hgrows

theorem Inv.known (h : Inv host start Safe done rest new visits seen st) {c : CString} :
    (∃ p ∈ start.root :: new, nameOf st.w p = some c) ↔ c ∈ start.name :: seen := by
  rw [← List.mem_map, h.names, List.mem_map]
  simp only [List.mem_eraseDups, Option.some.injEq, exists_eq_right]

theorem Inv.isSome (h : Inv host start Safe done rest new visits seen st) {p : Ptr}
    (hp : p ∈ start.ns ++ new) : (nameOf st.w p).isSome := by
  by_cases hr : p ∈ start.root :: new
  · obtain ⟨name, hobj⟩ := h.objects p hr
    rw [hobj.nameOf]
    rfl
  · rw [List.mem_cons, not_or] at hr
    obtain ⟨name, hname, _⟩ := h.outside p ((List.mem_append.mp hp).resolve_right hr.2) hr.1
    rw [hname]
    rfl

/-- A path in the namespace is the path of the root or of a loaded object. -/
theorem Inv.mem_of_path (h : Inv host start Safe done rest new visits seen st) {p : Ptr}
    (hp : p ∈ start.ns ++ new) {dir soname : CString}
    (hname : nameOf st.w p = some (namebuf dir soname)) : p ∈ start.root :: new := by
  by_contra hr
  rw [List.mem_cons, not_or] at hr
  obtain ⟨name, hname', _, _, hno⟩ :=
    h.outside p ((List.mem_append.mp hp).resolve_right hr.2) hr.1
  rw [hname, Option.some.injEq] at hname'
  exact hno dir soname hname'

theorem Inv.subset (h : Inv host start Safe done rest new visits seen st) {p : Ptr}
    (hp : p ∈ start.root :: new) : p ∈ start.ns ++ new := by
  rcases List.mem_cons.mp hp with rfl | hp
  · exact List.mem_append_left _ h.root
  · exact List.mem_append_right _ hp

theorem Inv.names_kept (h : Inv host start Safe done rest new visits seen st) {w' : Rtld}
    (hk : Keeps st.w w') :
    (start.root :: new).map (nameOf w') = (start.root :: new).map (nameOf st.w) := by
  apply List.map_congr_left
  intro p hp
  obtain ⟨name, hobj⟩ := h.objects p hp
  rw [hobj.nameOf, hk.nameOf hobj.nameOf]

theorem Inv.root_name (h : Inv host start Safe done rest new visits seen st) :
    nameOf st.w start.root = some start.name := by
  have hhead := congrArg List.head? h.names
  simpa [List.eraseDups_cons] using hhead

/-- The names of the objects are distinct. -/
theorem Inv.nodup (h : Inv host start Safe done rest new visits seen st) :
    ((start.root :: new).map (nameOf st.w)).Nodup := by
  rw [h.names]
  exact (nodup_eraseDups _).map (Option.some_injective _)

/-- The root is the one object with its name. -/
theorem Inv.root_iff (h : Inv host start Safe done rest new visits seen st) {p : Ptr}
    {c : CString} (hp : p ∈ start.root :: new) (hname : nameOf st.w p = some c) :
    p = start.root ↔ c = start.name := by
  constructor
  · rintro rfl
    rw [h.root_name] at hname
    exact (Option.some.inj hname).symm
  · rintro rfl
    exact List.inj_on_of_nodup_map h.nodup hp List.mem_cons_self (hname.trans h.root_name.symm)

/-- The entry names an object that is there. It goes to the run list only if
it is the root, and that for the first time. -/
theorem Inv.take_known (h : Inv host start Safe done rest new visits seen st) {p : Ptr}
    {soname c : CString} {file : File}
    (hopen : open_path host.fs soname st.w._rpath = some (c, file))
    (hreach : Reaches (graph host.fs start st.w._rpath) start.name c)
    (hp : p ∈ start.root :: new) (hname : nameOf st.w p = some c) :
    ∃ st' rest', take_object st p = .ok st' ∧ st'.w._rpath = st.w._rpath ∧
      (start.root ∈ rest' ↔ start.root ∈ rest ∨ c = start.name) ∧
      Inv host start Safe done rest' new visits (seen ++ [c]) st' := by
  obtain ⟨l, hl, _⟩ := nameOf_eq_some.mp hname
  have hne : start.ns ++ new ≠ [] := List.ne_nil_of_mem (h.subset hp)
  have hseen : (start.name :: (seen ++ [c])).eraseDups = (start.name :: seen).eraseDups := by
    rw [← List.cons_append, eraseDups_concat, if_pos (h.known.mp ⟨p, hp, hname⟩)]
  have hnot := h.reserved p hp l hl
  -- Only the root can be in the namespace and not yet in `rest`.
  have hroot : l.l_reserved = 0 → p = start.root := by
    intro hres
    rcases List.mem_cons.mp hp with hp | hp
    · exact hp
    · rw [← h.fresh, List.mem_filter] at hp
      exact absurd hp.1 (hnot.mp hres)
  obtain ⟨w', htake, hframe, hkeeps, hlinked, hreserved⟩ := take_object.spec st h.linked hne hl
  rw [if_pos (h.subset hp)] at hlinked
  have hrpath : w'._rpath = st.w._rpath := by rw [hframe]
  refine ⟨_, rest ++ if l.l_reserved = 0 then [p] else [], htake, hrpath, ?_, ?_⟩
  · rw [← h.root_iff hp hname]
    by_cases hres : l.l_reserved = 0
    · simp [hres, hroot hres]
    · have hmem : p ∈ rest := not_not.mp fun hp' => hres (hnot.mpr hp')
      simp only [if_neg hres, List.append_nil]
      exact ⟨Or.inl, fun hor => hor.elim id fun heq => heq ▸ hmem⟩
  refine h.step hopen hreach (by rw [hframe]) (by rw [hrpath]; exact h.safe) (by simp [hrpath])
    hkeeps hlinked ?_ ?_ ?_ ?_ ?_ ?_ ?_
  · intro q hq
    obtain ⟨name, hobj⟩ := h.objects q hq
    exact ⟨name, hobj.keeps hkeeps⟩
  · intro q hq m' hm'
    obtain ⟨m, hm, _⟩ := h.objects q hq |>.choose_spec
    rw [hreserved q m m' hm hm', h.reserved q hq m hm]
    by_cases hres : l.l_reserved = 0
    · simp [hres]
    · have hmem : p ∈ rest := not_not.mp fun hp' => hres (hnot.mpr hp')
      simp only [if_neg hres, List.append_nil]
      exact ⟨fun hq => hq.1, fun hq => ⟨hq, fun heq => hq (heq ▸ hmem)⟩⟩
  · rw [h.names_kept hkeeps, hseen]
    exact h.names
  · rw [← List.append_assoc, h.run]
    rfl
  · rw [List.filter_append, h.fresh]
    split_ifs with hres
    · simp [hroot hres]
    · simp
  · rw [List.count_append]
    split_ifs with hres
    · rw [← hroot hres, List.count_eq_zero.mpr (hnot.mp hres)]
      simp
    · simpa using h.once
  · rw [h.nlist, List.length_append]
    split_ifs <;> rfl

/-- The entry names a file that is not loaded yet. -/
theorem Inv.take_new (h : Inv host start Safe done rest new visits seen st) {p : Ptr}
    {w1 : Rtld} {soname c : CString} {file : File}
    (hopen : open_path host.fs soname st.w._rpath = some (c, file))
    (hreach : Reaches (graph host.fs start st.w._rpath) start.name c)
    (hfd : map_object_fd host file c st.w = .ok (p, w1)) (hsafe : Safe w1._rpath)
    (hc : c ∉ start.name :: seen) :
    ∃ st', take_object { st with w := w1 } p = .ok st' ∧ st.w._rpath <+: st'.w._rpath ∧
      (start.root ∈ rest ++ [p] ↔ start.root ∈ rest ∨ c = start.name) ∧
      Inv host start Safe done (rest ++ [p]) (new ++ [p]) visits (seen ++ [c]) st' := by
  obtain ⟨hp, l, hfresh, hw1, hgrows⟩ := map_object_fd_ok hfd
  have hmaps : w1.maps = st.w.maps ++ [l] := by rw [hw1]
  have hl : w1.maps[p]? = some l := by
    rw [hmaps, hp, List.getElem?_concat_length]
  have hlt : ∀ q ∈ start.ns ++ new, q ≠ p := by
    intro q hq
    obtain ⟨m, hm⟩ := h.linked.linked.mem_maps hq
    rw [hp]
    exact Nat.ne_of_lt (List.getElem?_eq_some_iff.mp hm).1
  have hpnot : p ∉ start.ns ++ new := fun hmem => hlt p hmem rfl
  have hproot : p ≠ start.root := fun heq =>
    hlt start.root (List.mem_append_left _ h.root) heq.symm
  have hk1 : Keeps st.w w1 := fun q m hm => ⟨m, get_concat hmaps hm, rfl⟩
  have hlinked1 : DLinked w1.maps none w1._namespace (start.ns ++ new) := by
    have hns : w1._namespace = st.w._namespace := by rw [hw1]
    rw [hns]
    exact dLinked_congr h.linked fun q _ m hm => ⟨m, get_concat hmaps hm, rfl, rfl⟩
  obtain ⟨w', htake, hframe, hk2, hlinked, hreserved⟩ :=
    take_object.spec { st with w := w1 } hlinked1
      (List.ne_nil_of_mem (h.subset List.mem_cons_self)) hl
  rw [if_neg hpnot, List.append_assoc] at hlinked
  simp only [if_pos hfresh.reserved] at htake
  have hkeeps := hk1.trans hk2
  have hrpath : w'._rpath = w1._rpath := by rw [hframe]
  have hobj : IsObject host.fs start w' p c := by
    obtain ⟨hfile, _⟩ := open_path_ok hopen
    have hne : c ≠ start.name := fun heq => hc (heq ▸ List.mem_cons_self)
    refine IsObject.keeps ⟨l, hl, hfresh.name, ?_, hfresh.strtab⟩ hk2
    rw [imageOf, if_neg hne, hfile, hfresh.image]
    rfl
  refine ⟨_, htake, by rw [hrpath]; exact hgrows, ?_, ?_⟩
  · have hne : c ≠ start.name := fun heq => hc (heq ▸ List.mem_cons_self)
    simp [hproot.symm, hne]
  refine h.step hopen hreach ?_ (by rw [hrpath]; exact hsafe) (by rw [hrpath]; exact hgrows)
    hkeeps hlinked ?_ ?_ ?_ ?_ ?_ ?_ ?_
  · rw [hframe, hw1]
  · intro q hq
    rw [← List.cons_append, List.mem_append, List.mem_singleton] at hq
    rcases hq with hq | rfl
    · obtain ⟨name, hq⟩ := h.objects q hq
      exact ⟨name, hq.keeps hkeeps⟩
    · exact ⟨c, hobj⟩
  · intro q hq m' hm'
    rw [← List.cons_append, List.mem_append, List.mem_singleton] at hq
    rcases hq with hq | rfl
    · obtain ⟨m, hm, _⟩ := h.objects q hq |>.choose_spec
      rw [hreserved q m m' (get_concat hmaps hm) hm', h.reserved q hq m hm]
      simp
    · rw [hreserved q l m' hl hm']
      simp
  · rw [← List.cons_append, List.map_append, h.names_kept hkeeps, h.names, ← List.cons_append,
      eraseDups_concat, if_neg hc, List.map_append, List.map_singleton, hobj.nameOf,
      List.map_singleton]
  · rw [← List.append_assoc, h.run]
    rfl
  · rw [List.filter_append, h.fresh, List.filter_cons_of_pos (by simpa using hproot)]
    rfl
  · rw [List.count_append, List.count_singleton, if_neg (by simpa using hproot)]
    exact h.once
  · rw [h.nlist]
    simp

/-- Every needed file loads, in every state that has one of the search paths. -/
def EveryFileLoads (host : Host) (start : Start) (Safe : List CString → Prop) : Prop :=
  ∀ rpaths path file, Safe rpaths → Reaches (graph host.fs start rpaths) start.name path →
    path ≠ start.name → host.fs.lookup path = some file →
    ∀ w : Rtld, w._dl_pagesize = start.pagesize → Safe w._rpath →
      ∃ p w', map_object_fd host file path w = .ok (p, w') ∧ Safe w'._rpath

/-- The strings that a run copies keep their NULs: the search paths, and the
paths of the objects that the root needs, its own included. -/
structure HeldCopies (host : Host) (start : Start) (Safe : List CString → Prop) : Prop where
  rpaths : ∀ rpaths, Safe rpaths → ∀ s ∈ rpaths, Held s
  paths : ∀ rpaths path, Safe rpaths → Reaches (graph host.fs start rpaths) start.name path →
    Held path

/-- The strings that a run compares are read as they were copied. -/
structure ReadsExactly (host : Host) (start : Start) (Safe : List CString → Prop) : Prop where
  rpaths : ∀ w : Rtld, Safe w._rpath → host.rpaths w = w._rpath
  names : ∀ rpaths path, Safe rpaths → Reaches (graph host.fs start rpaths) start.name path →
    ∀ w copy, host.reads w copy path = path

/-- It is enough that the root and all files have paths that are kept. -/
theorem HeldCopies.of_files (hname : Held start.name)
    (hrpaths : ∀ rpaths, Safe rpaths → ∀ s ∈ rpaths, Held s)
    (hfiles : ∀ found ∈ host.fs, Held found.1) : HeldCopies host start Safe where
  rpaths := hrpaths
  paths rpaths path _ hreach := by
    rcases Relation.ReflTransGen.cases_tail hreach with rfl | ⟨x, _, hpath⟩
    · exact hname
    · obtain ⟨soname, _, file, hopen⟩ := mem_paths.mp hpath
      obtain ⟨before, after, hfs, _⟩ := List.lookup_eq_some_iff.mp (open_path_ok hopen).1
      exact hfiles (path, file) (by rw [hfs]; simp)

theorem HeldCopies.readsExactly (h : HeldCopies host start Safe) :
    ReadsExactly host start Safe where
  rpaths w hw := rpaths_held host (h.rpaths w._rpath hw)
  names rpaths path hsafe hreach w copy := host.keeps w copy path (h.paths rpaths path hsafe hreach)

/-- The stops that are allowed: a name that leads nowhere, and those of a
needed file that does not load. -/
structure MayStop (host : Host) (start : Start) (Safe : List CString → Prop)
    (Allowed : Stop → Prop) : Prop where
  exactly : ReadsExactly host start Safe
  missing : ∀ soname, Allowed (.exit (.libraryNotFound soname))
  files : ∀ rpaths path file, Safe rpaths → Reaches (graph host.fs start rpaths) start.name path →
    path ≠ start.name → host.fs.lookup path = some file →
    ∀ w : Rtld, w._dl_pagesize = start.pagesize → Safe w._rpath →
      OrStops Allowed (map_object_fd host file path w) fun r => Safe r.2._rpath

theorem EveryFileLoads.mayStop (h : EveryFileLoads host start Safe)
    (hheld : HeldCopies host start Safe) : MayStop host start Safe NotFound where
  exactly := hheld.readsExactly
  missing soname := ⟨soname, rfl⟩
  files rpaths path file hsafe hreach hne hfile w hw hrpath := by
    obtain ⟨p, w', hfd, hsafe'⟩ := h rpaths path file hsafe hreach hne hfile w hw hrpath
    exact Or.inl ⟨(p, w'), hfd, hsafe'⟩

theorem mayStop_anyhow (start : Start) (hexact : host.Exact) :
    MayStop host start (fun _ => True) (fun _ => True) where
  exactly := ⟨fun w _ => hexact.rpaths w, fun _ path _ _ w copy => hexact w copy path⟩
  missing _ := trivial
  files rpaths path file _ _ _ _ w _ _ := by
    cases hfd : map_object_fd host file path w with
    | ok r => exact Or.inl ⟨r, rfl, trivial⟩
    | error e => exact Or.inr ⟨e, rfl, trivial⟩

/-- The names in the namespace are read as they are. -/
theorem Inv.readName {Allowed : Stop → Prop} (hstop : MayStop host start Safe Allowed)
    (h : Inv host start Safe done rest new visits seen st) {p : Ptr} (hp : p ∈ start.ns ++ new) :
    readName host st.w p = nameOf st.w p := by
  unfold load.readName
  by_cases hr : p ∈ start.root :: new
  · obtain ⟨name, hobj⟩ := h.objects p hr
    have hreach : Reaches (graph host.fs start st.w._rpath) start.name name := by
      rcases List.mem_cons.mp (h.known.mp ⟨p, hr, hobj.nameOf⟩) with rfl | hseen
      · exact Relation.ReflTransGen.refl
      · exact h.reached name hseen
    rw [hobj.nameOf, Option.map_some, hstop.exactly.names _ name h.safe hreach]
  · rw [List.mem_cons, not_or] at hr
    obtain ⟨name, hname, hheld, _⟩ :=
      h.outside p ((List.mem_append.mp hp).resolve_right hr.2) hr.1
    rw [hname, Option.map_some, host.keeps st.w _ name hheld]

theorem Inv.find_loaded {Allowed : Stop → Prop} (hstop : MayStop host start Safe Allowed)
    (h : Inv host start Safe done rest new visits seen st) (c : CString) :
    find_loaded host st.w c st.w.maps.length st.w._namespace =
      .ok ((start.ns ++ new).find? fun p => nameOf st.w p = some c) := by
  rw [find_loaded.spec host c h.linked.linked (fun p hp => h.isSome hp) h.linked.linked.length_le]
  exact congrArg Except.ok (List.find?_congr fun p hp => by rw [h.readName hstop hp])

/-- A `DT_NEEDED` entry of an object that can be reached. The root is on the
run list again once an entry has led to it. -/
theorem Inv.take_needed {Allowed : Stop → Prop} (hstop : MayStop host start Safe Allowed)
    (h : Inv host start Safe done rest new visits seen st) {x soname : CString}
    (hx : Reaches (graph host.fs start st.w._rpath) start.name x)
    (hs : soname ∈ needed (imageOf host.fs start x)) :
    OrStops Allowed (load.take_needed host soname st) fun st' => ∃ rest' new' c file,
      open_path host.fs soname st.w._rpath = some (c, file) ∧
      st.w._rpath <+: st'.w._rpath ∧
      (start.root ∈ rest' ↔ start.root ∈ rest ∨ c = start.name) ∧
      Inv host start Safe done rest' new' visits (seen ++ [c]) st' := by
  unfold load.take_needed map_object
  rw [hstop.exactly.rpaths st.w h.safe]
  cases hopen : open_path host.fs soname st.w._rpath with
  | none => exact Or.inr ⟨_, rfl, hstop.missing soname⟩
  | some found =>
    obtain ⟨c, file⟩ := found
    obtain ⟨hfile, dir, _, hdir⟩ := open_path_ok hopen
    have hreach : Reaches (graph host.fs start st.w._rpath) start.name c :=
      hx.tail (mem_paths.mpr ⟨soname, hs, file, hopen⟩)
    have hfind := h.find_loaded hstop c
    by_cases hc : c ∈ start.name :: seen
    · obtain ⟨p0, hp0, hname0⟩ := h.known.mpr hc
      obtain ⟨p, hp⟩ : ∃ p, (start.ns ++ new).find? (fun p => nameOf st.w p = some c) = some p := by
        rw [← Option.isSome_iff_exists, List.find?_isSome]
        exact ⟨p0, h.subset hp0, by simpa using hname0⟩
      have hname : nameOf st.w p = some c := by simpa using List.find?_some hp
      have hmem := h.mem_of_path (List.mem_of_find?_eq_some hp) (hdir ▸ hname)
      obtain ⟨st', rest', hst', hrpath, hback, hinv⟩ := h.take_known hopen hreach hmem hname
      refine Or.inl ⟨st', ?_, rest', new, c, file, rfl, by simp [hrpath], hback, hinv⟩
      simp only [hfind, hp, bind, Except.bind, hst']
    · have hnone : (start.ns ++ new).find? (fun p => nameOf st.w p = some c) = none := by
        rw [List.find?_eq_none]
        intro p hp hname
        have hname : nameOf st.w p = some c := by simpa using hname
        exact hc (h.known.mp ⟨p, h.mem_of_path hp (hdir ▸ hname), hname⟩)
      have hne : c ≠ start.name := fun heq => hc (heq ▸ List.mem_cons_self)
      simp only [hfind, hnone, bind, Except.bind]
      rcases hstop.files _ c file h.safe hreach hne hfile st.w h.pagesize h.safe with
        ⟨⟨p, w1⟩, hfd, hsafe⟩ | ⟨e, hfd, he⟩
      · obtain ⟨st', hst', hgrows, hback, hinv⟩ := h.take_new hopen hreach hfd hsafe hc
        refine Or.inl ⟨st', ?_, rest ++ [p], new ++ [p], c, file, rfl, hgrows, hback, hinv⟩
        simp only [hfd, hst']
      · rw [hfd]
        exact Or.inr ⟨e, rfl, he⟩

/-- The dynamic section of an object that can be reached. -/
theorem Inv.needed_loop {Allowed : Stop → Prop} (hstop : MayStop host start Safe Allowed)
    (h : Inv host start Safe done rest new visits seen st) {x : CString} {l : LinkMap}
    (hstr : (l.l_info DT_STRTAB).isSome)
    (hx : Reaches (graph host.fs start st.w._rpath) start.name x) {dyns : List Dyn}
    (hsub : neededIn l.image.strtab dyns ⊆ needed (imageOf host.fs start x)) :
    OrStops Allowed (load.needed_loop host l st dyns) fun st' => ∃ rest' new',
      st.w._rpath <+: st'.w._rpath ∧
      Resolve host.fs st'.w._rpath (neededIn l.image.strtab dyns) ∧
      (start.root ∈ rest' ↔ start.root ∈ rest ∨
        start.name ∈ paths host.fs st'.w._rpath (neededIn l.image.strtab dyns)) ∧
      Inv host start Safe done rest' new' visits
        (seen ++ paths host.fs st'.w._rpath (neededIn l.image.strtab dyns)) st' := by
  obtain ⟨d, hd⟩ := Option.isSome_iff_exists.mp hstr
  have hptr : D_PTR .map_object_deps l DT_STRTAB = .ok (d.d_un + l.l_addr) := by
    rw [D_PTR, hd]
  induction dyns generalizing st seen rest new with
  | nil =>
    refine Or.inl ⟨st, rfl, rest, new, List.prefix_rfl, ?_, ?_, ?_⟩
    · intro soname hs
      cases hs
    · simp [neededIn, paths]
    · rw [neededIn, List.filterMap_nil, paths, List.filterMap_nil, List.append_nil]
      exact h
  | cons dyn dyns ih =>
    rw [load.needed_loop, needed_entry, hptr]
    by_cases htag : dyn.d_tag = (DT_NEEDED : Int)
    · have hneeded : neededIn l.image.strtab (dyn :: dyns) =
          strAt l.image.strtab dyn.d_un.toNat :: neededIn l.image.strtab dyns := by
        simp only [neededIn, List.filterMap_cons, if_pos htag]
      rw [hneeded, List.cons_subset] at hsub
      rw [hneeded]
      simp only [bind, Except.bind, ne_eq, htag, not_true_eq_false, if_false]
      refine OrStops.bind (h.take_needed hstop hx hsub.1) ?_
      rintro st1 ⟨rest1, new1, c, file, hopen, hgrows1, hback1, h1⟩
      rcases ih h1 (reaches_grows hx hgrows1) hsub.2 with ⟨st2, hst2, hrun⟩ | hstopped
      · obtain ⟨rest2, new2, hgrows2, hres2, hback2, h2⟩ := hrun
        have hgrows := hgrows1.trans hgrows2
        have hopen2 := open_path_grows hopen hgrows
        have hpaths : paths host.fs st2.w._rpath
            (strAt l.image.strtab dyn.d_un.toNat :: neededIn l.image.strtab dyns) =
            c :: paths host.fs st2.w._rpath (neededIn l.image.strtab dyns) := by
          simp [paths, hopen2]
        refine Or.inl ⟨st2, hst2, rest2, new2, hgrows, ?_, ?_, ?_⟩
        · intro soname hs
          rcases List.mem_cons.mp hs with rfl | hs
          · rw [hopen2]
            rfl
          · exact hres2 soname hs
        · rw [hpaths, hback2, hback1, List.mem_cons, or_assoc, @eq_comm _ c]
        · rw [List.append_assoc] at h2
          rw [hpaths]
          exact h2
      · exact Or.inr hstopped
    · have hneeded : neededIn l.image.strtab (dyn :: dyns) = neededIn l.image.strtab dyns := by
        simp only [neededIn, List.filterMap_cons, if_neg htag]
      rw [hneeded] at hsub ⊢
      simp only [bind, Except.bind, ne_eq, htag, not_false_eq_true, if_true]
      exact ih h hx hsub

/-! ## The run -/

theorem mem_keys {fs : FileSystem} {c : CString} {file : File} (h : fs.lookup c = some file) :
    c ∈ fs.map Prod.fst := by
  obtain ⟨before, after, rfl, _⟩ := List.lookup_eq_some_iff.mp h
  simp

/-- The objects of the run list are the new ones, and the root if it is there again. -/
theorem Inv.length_rest (h : Inv host start Safe done rest new visits seen st) :
    rest.length = new.length + rest.count start.root := by
  rw [← h.fresh, List.count_eq_length_filter, Nat.add_comm]
  simpa [beq_eq_decide] using List.length_eq_length_filter_add (l := rest) (· == start.root)

theorem Inv.mem_run (h : Inv host start Safe done rest new visits seen st) {p : Ptr}
    (hp : p ∈ done ++ st.todo) : p ∈ start.root :: new := by
  rw [h.run, List.mem_cons] at hp
  by_cases hr : p = start.root
  · exact hr ▸ List.mem_cons_self
  · rw [← h.fresh]
    exact List.mem_cons_of_mem _ (List.mem_filter.mpr ⟨hp.resolve_left hr, by simpa using hr⟩)

/-- The run list is no longer than the files are many, and the root twice. -/
theorem Inv.length_le (h : Inv host start Safe done rest new visits seen st) :
    done.length + st.todo.length ≤ host.fs.length + 2 := by
  have hcons : (start.name :: seen).eraseDups =
      start.name :: (seen.filter fun c => !c == start.name).eraseDups := List.eraseDups_cons
  have hnew : new.length = (seen.filter fun c => !c == start.name).eraseDups.length := by
    have := congrArg List.length h.names
    simpa [hcons] using this
  have hfiles : (seen.filter fun c => !c == start.name).eraseDups ⊆ host.fs.map Prod.fst := by
    intro c hc
    rw [List.mem_eraseDups, List.mem_filter] at hc
    obtain ⟨⟨file, hfile⟩, _⟩ := h.files c hc.1
    exact mem_keys hfile
  have hle := ((nodup_eraseDups _).subperm hfiles).length_le
  rw [List.length_map] at hle
  have hrest := h.length_rest
  have hrun := congrArg List.length h.run
  rw [List.length_append, List.length_cons] at hrun
  have := h.once
  omega

/-- The next object of the run list. -/
theorem Inv.pop (h : Inv host start Safe done rest new visits seen st) {p : Ptr}
    {todo : List Ptr} (htodo : st.todo = p :: todo) :
    ∃ x, IsObject host.fs start st.w p x ∧
      Reaches (graph host.fs start st.w._rpath) start.name x ∧
      Inv host start Safe (done ++ [p]) rest new (visits ++ [x]) seen { st with todo } := by
  have hp : p ∈ start.root :: new := h.mem_run (by simp [htodo])
  obtain ⟨x, hobj⟩ := h.objects p hp
  refine ⟨x, hobj, ?_, ?_⟩
  · rcases List.mem_cons.mp (h.known.mp ⟨p, hp, hobj.nameOf⟩) with rfl | hx
    · exact Relation.ReflTransGen.refl
    · exact h.reached x hx
  · refine { h with run := ?_, visited := ?_ }
    · rw [← h.run, htodo, List.append_assoc]
      rfl
    · rw [List.map_append, List.map_append, h.visited, List.map_singleton, List.map_singleton,
        hobj.nameOf]

/-- The paths that the entries of the visited objects lead to. -/
def metBy (host : Host) (start : Start) (visits rpaths : List CString) : List CString :=
  visits.flatMap (graph host.fs start rpaths)

/-- The names in the visited objects lead to paths. -/
def AllResolve (host : Host) (start : Start) (visits rpaths : List CString) : Prop :=
  ∀ x ∈ visits, Resolve host.fs rpaths (needed (imageOf host.fs start x))

theorem AllResolve.grows {rpaths rpaths' : List CString} (h : AllResolve host start visits rpaths)
    (hgrows : rpaths <+: rpaths') :
    AllResolve host start visits rpaths' ∧
      metBy host start visits rpaths' = metBy host start visits rpaths := by
  refine ⟨fun x hx => ((h x hx).grows hgrows).1, ?_⟩
  apply List.flatMap_congr
  intro x hx
  exact ((h x hx).grows hgrows).2

/-- The loop over the run list ends, with every object on it visited. If it
ends with less fuel than is enough for every run, then the same holds. -/
theorem Inv.deps_loop {Allowed : Stop → Prop} (hstop : MayStop host start Safe Allowed) (fuel : Nat)
    (h : Inv host start Safe done rest new visits (metBy host start visits st.w._rpath) st)
    (hresolved : AllResolve host start visits st.w._rpath)
    (hback : start.root ∈ rest ↔ start.name ∈ metBy host start visits st.w._rpath)
    (hfuel : Allowed .endless ∨ host.fs.length + 2 ≤ fuel + done.length) :
    OrStops Allowed (load.deps_loop host fuel done st) fun r => ∃ rest' new' visits',
      r.2.todo = [] ∧ AllResolve host start visits' r.2.w._rpath ∧
      (start.root ∈ rest' ↔ start.name ∈ metBy host start visits' r.2.w._rpath) ∧
      Inv host start Safe r.1 rest' new' visits' (metBy host start visits' r.2.w._rpath) r.2 := by
  induction fuel generalizing done rest new visits st with
  | zero =>
    unfold load.deps_loop
    cases htodo : st.todo with
    | nil => exact Or.inl ⟨_, rfl, rest, new, visits, htodo, hresolved, hback, h⟩
    | cons p todo =>
      rcases hfuel with hendless | hfuel
      · exact Or.inr ⟨_, rfl, hendless⟩
      · have hlen := h.length_le
        rw [htodo, List.length_cons] at hlen
        omega
  | succ fuel ih =>
    unfold load.deps_loop
    cases htodo : st.todo with
    | nil => exact Or.inl ⟨_, rfl, rest, new, visits, htodo, hresolved, hback, h⟩
    | cons p todo =>
      obtain ⟨x, ⟨l, hl, _, himage, hstr⟩, hx, hpop⟩ := h.pop htodo
      have hneeded : neededIn l.image.strtab l.image.dynamic =
          needed (imageOf host.fs start x) := by rw [← himage, needed]
      simp only [Rtld.deref, hl, bind, Except.bind]
      have hsub : neededIn l.image.strtab l.image.dynamic ⊆ needed (imageOf host.fs start x) := by
        rw [hneeded]
        exact List.Subset.refl _
      refine OrStops.bind (hpop.needed_loop hstop hstr hx hsub) ?_
      rintro st1 ⟨rest1, new1, hgrows, hres1, hback1, h1⟩
      obtain ⟨hall, hmet⟩ := hresolved.grows hgrows
      rw [hneeded] at hres1 hback1 h1
      have hmet1 : metBy host start (visits ++ [x]) st1.w._rpath =
          metBy host start visits st.w._rpath ++
            paths host.fs st1.w._rpath (needed (imageOf host.fs start x)) := by
        rw [← hmet, metBy, List.flatMap_append]
        simp [metBy, graph]
      rw [← hmet1] at h1
      have hback' : start.root ∈ rest1 ↔
          start.name ∈ metBy host start (visits ++ [x]) st1.w._rpath := by
        rw [hback1, hback, hmet1, List.mem_append]
      have hall1 : AllResolve host start (visits ++ [x]) st1.w._rpath := by
        intro y hy
        rcases List.mem_append.mp hy with hy | hy
        · exact hall y hy
        · rw [List.mem_singleton.mp hy]
          exact hres1
      apply ih h1 hall1 hback'
      rw [List.length_append, List.length_singleton, ← Nat.add_assoc, Nat.add_right_comm]
      exact hfuel

/-! ## The closure -/

/-- The namespaces that `loader_main` starts from: the main program alone, or
the loader itself and then the program that it has mapped. -/
structure StartsAt (w : Rtld) (start : Start) : Prop where
  pagesize : w._dl_pagesize = start.pagesize
  linked : DLinked w.maps none w._namespace start.ns
  root : ∃ l, w.maps[start.root]? = some l ∧ l.l_name = some start.name ∧
    l.image = start.image ∧ l.l_reserved = 0
  kind : (start.ns = [start.root] ∧ start.name = CString.lit "main-program".toList) ∨
    ∃ rtld, start.ns = [rtld, start.root] ∧ nameOf w rtld = some (CString.lit "RTLD".toList) ∧
      ∃ dir soname, start.name = namebuf dir soname

/-- The namespace is what it was and then `new`, which are the objects that
the root needs, directly or not, each once and in breadth-first order. -/
structure Closure (host : Host) (start : Start) (w' : Rtld) (new : List Ptr)
    (order : List CString) : Prop where
  linked : DLinked w'.maps none w'._namespace (start.ns ++ new)
  names : (start.root :: new).map (nameOf w') = order.map some
  breadth_first : BreadthFirst (graph host.fs start w'._rpath) start.name order
  all : ∀ path, path ∈ order ↔ Reaches (graph host.fs start w'._rpath) start.name path
  once : order.Nodup
  resolved : AllResolve host start order w'._rpath
  objects : ∀ p ∈ new, ∃ l path file, w'.maps[p]? = some l ∧ l.l_name = some path ∧
    host.fs.lookup path = some file ∧ l.image = file.image
  distinct : ((start.ns ++ new).map (nameOf w')).Nodup

/-- At the start nothing is seen. -/
theorem StartsAt.inv (host : Host) {w : Rtld} {l l' : LinkMap} {reads : Reads}
    {rpath : List CString} (h : StartsAt w start) (hl : w.maps[start.root]? = some l)
    (hparse : parse_dynamic reads w._rpath l = .ok (l', rpath))
    (hsafe : Safe rpath) :
    Inv host start Safe [] [] [] [] [] {
      w := { w with maps := (w.put start.root l').maps, _rpath := rpath }
      todo := [start.root]
      nlist := 0 } := by
  have hparsed := parse_dynamic.spec hparse
  obtain ⟨l0, hl0, hname, himage, hres⟩ := h.root
  rw [hl] at hl0
  cases hl0
  have hframe := hparsed.frame
  have hget : (w.put start.root l').maps[start.root]? = some l' := by rw [get_put hl, if_pos rfl]
  have hobj : IsObject host.fs start
      { w with maps := (w.put start.root l').maps, _rpath := rpath } start.root start.name := by
    refine ⟨l', hget, by rw [hframe]; exact hname, ?_, hparsed.strtab⟩
    rw [imageOf, if_pos rfl, hframe]
    exact himage
  have hroot : start.root ∈ start.ns := by
    rcases h.kind with ⟨hns, _⟩ | ⟨rtld, hns, _⟩
    · rw [hns]
      simp
    · rw [hns]
      simp
  refine {
    pagesize := h.pagesize
    safe := hsafe
    root := hroot
    linked := ?_
    outside := ?_
    objects := ?_
    reserved := ?_
    names := ?_
    run := rfl
    fresh := rfl
    once := Nat.zero_le 1
    nlist := rfl
    visited := rfl
    files := fun c hc => absurd hc List.not_mem_nil
    reached := fun c hc => absurd hc List.not_mem_nil }
  · rw [List.append_nil]
    exact dLinked_put _ h.linked hl (by rw [hframe]) (by rw [hframe])
  · intro p hp hne
    rcases h.kind with ⟨hns, _⟩ | ⟨rtld, hns, hrtld, dir, soname, hname⟩
    · rw [hns, List.mem_singleton] at hp
      exact absurd hp hne
    · have hp : p = rtld := by
        rw [hns, List.mem_cons, List.mem_singleton] at hp
        exact hp.resolve_right hne
      subst hp
      have hno : ∀ dir soname, namebuf dir soname ≠ CString.lit "RTLD".toList :=
        namebuf_ne (by decide) (by decide)
      refine ⟨CString.lit "RTLD".toList, ?_, by decide, ?_, hno⟩
      · obtain ⟨m, hm, hmname⟩ := nameOf_eq_some.mp hrtld
        refine nameOf_eq_some.mpr ⟨m, ?_, hmname⟩
        simp only [get_put hl, if_neg hne]
        exact hm
      · rw [hname]
        exact (hno dir soname).symm
  · intro p hp
    rw [List.mem_singleton] at hp
    exact ⟨start.name, hp ▸ hobj⟩
  · intro p hp m hm
    rw [List.mem_singleton] at hp
    subst hp
    simp only [hget] at hm
    cases hm
    rw [hframe]
    simpa using hres
  · rw [List.map_singleton, hobj.nameOf]
    rfl

theorem Inv.distinct (h : Inv host start Safe done rest new visits seen st)
    (hns : (start.ns.map (nameOf st.w)).Nodup) :
    ((start.ns ++ new).map (nameOf st.w)).Nodup := by
  have hnodup := h.nodup
  rw [List.map_cons, List.nodup_cons] at hnodup
  rw [List.map_append, List.nodup_append]
  refine ⟨hns, hnodup.2, ?_⟩
  intro a ha b hb hab
  subst hab
  obtain ⟨p, hp, hpa⟩ := List.mem_map.mp ha
  by_cases hroot : p = start.root
  · subst hroot
    exact hnodup.1 (hpa ▸ hb)
  · obtain ⟨name, hname, _, hne, hno⟩ := h.outside p hp hroot
    obtain ⟨q, hq, hqa⟩ := List.mem_map.mp hb
    rw [← hpa, hname] at hqa
    rcases List.mem_cons.mp (h.known.mp ⟨q, List.mem_cons_of_mem _ hq, hqa⟩) with heq | hseen
    · exact hne heq
    · obtain ⟨_, dir, soname, hpath⟩ := h.files name hseen
      exact hno dir soname hpath.symm

/-- A visited object is the root just if it has the name of the root. -/
theorem Inv.visits_filter (h : Inv host start Safe done rest new visits seen st)
    {vs : List CString} (hvs : rest.map (nameOf st.w) = vs.map some) :
    new.map (nameOf st.w) = (vs.filter (· ≠ start.name)).map some := by
  have hname := h.root_name
  have hfilter : rest.filter (· ≠ start.root) =
      rest.filter (fun p => decide (nameOf st.w p ≠ some start.name)) := by
    apply List.filter_congr
    intro p hp
    by_cases hr : p = start.root
    · simp [hr, hname]
    · have hpnew : p ∈ new := by
        rw [← h.fresh, List.mem_filter]
        exact ⟨hp, by simpa using hr⟩
      have hne : nameOf st.w p ≠ some start.name := by
        intro heq
        have hnodup := h.nodup
        rw [List.map_cons, List.nodup_cons, hname, ← heq] at hnodup
        exact hnodup.1 (List.mem_map_of_mem hpnew)
      simp [hr, hne]
  calc new.map (nameOf st.w)
      = (rest.filter fun p => decide (nameOf st.w p ≠ some start.name)).map (nameOf st.w) := by
        rw [← hfilter, h.fresh]
    _ = (rest.map (nameOf st.w)).filter (fun o => decide (o ≠ some start.name)) := by
        rw [List.filter_map]
        rfl
    _ = (vs.filter (· ≠ start.name)).map some := by
        rw [hvs, List.filter_map]
        simp [Function.comp_def]

/-- When every object of the run list is visited, the closure is there. -/
theorem Inv.closure
    (h : Inv host start Safe done rest new visits (metBy host start visits st.w._rpath) st)
    (htodo : st.todo = []) (hresolved : AllResolve host start visits st.w._rpath)
    (hns : (start.ns.map (nameOf st.w)).Nodup) :
    ∃ order, Closure host start st.w new order := by
  have hdone : done = start.root :: rest := by
    rw [← h.run, htodo, List.append_nil]
  have hname := h.root_name
  obtain ⟨vs, rfl, hvs⟩ : ∃ vs, visits = start.name :: vs ∧
      rest.map (nameOf st.w) = vs.map some := by
    have hvisited := h.visited
    rw [hdone, List.map_cons, hname] at hvisited
    cases visits with
    | nil => cases hvisited
    | cons v vs =>
      rw [List.map_cons, List.cons.injEq, Option.some.injEq] at hvisited
      exact ⟨vs, by rw [hvisited.1], hvisited.2⟩
  have hall : (start.name :: metBy host start (start.name :: vs) st.w._rpath).eraseDups =
      start.name :: vs.filter (· ≠ start.name) := by
    apply List.map_injective_iff.mpr (Option.some_injective _)
    rw [← h.names, List.map_cons, List.map_cons, hname, h.visits_filter hvs]
  have hbf : BreadthFirst (graph host.fs start st.w._rpath) start.name
      (start.name :: metBy host start (start.name :: vs) st.w._rpath).eraseDups := by
    refine BreadthFirst.of_visits rfl hall ?_
    intro x hx
    rw [List.mem_eraseDups] at hx
    rcases List.mem_cons.mp hx with rfl | hx
    · exact Relation.ReflTransGen.refl
    · exact h.reached x hx
  refine ⟨_, h.linked, h.names, hbf, fun _ => hbf.mem_iff, hbf.nodup, ?_, ?_, h.distinct hns⟩
  · intro x hx
    rw [hall] at hx
    apply hresolved
    rcases List.mem_cons.mp hx with rfl | hx
    · exact List.mem_cons_self
    · exact List.mem_cons_of_mem _ (List.mem_filter.mp hx).1
  · intro p hp
    obtain ⟨path, l, hl, hpath, himage, _⟩ := h.objects p (List.mem_cons_of_mem _ hp)
    have hpname := nameOf_eq_some.mpr ⟨l, hl, hpath⟩
    have hne : path ≠ start.name := by
      rintro rfl
      have hnodup := h.nodup
      rw [List.map_cons, List.nodup_cons, hname, ← hpname] at hnodup
      exact hnodup.1 (List.mem_map_of_mem hp)
    have hseen := h.known.mp ⟨p, List.mem_cons_of_mem _ hp, hpname⟩
    obtain ⟨⟨file, hfile⟩, _⟩ := h.files path ((List.mem_cons.mp hseen).resolve_left hne)
    rw [imageOf, if_neg hne, hfile] at himage
    exact ⟨l, path, file, hl, hpath, hfile, himage⟩

theorem Closure.keeps {w w' : Rtld} {order : List CString} (h : Closure host start w new order)
    (hroot : start.root ∈ start.ns) (hnames : ∀ p ∈ start.ns ++ new, (nameOf w p).isSome)
    (hk : Keeps w w') (hrpath : w'._rpath = w._rpath)
    (hlinked : DLinked w'.maps none w'._namespace (start.ns ++ new)) :
    Closure host start w' new order := by
  have hname : ∀ p ∈ start.ns ++ new, nameOf w' p = nameOf w p := by
    intro p hp
    obtain ⟨name, hname⟩ := Option.isSome_iff_exists.mp (hnames p hp)
    rw [hname, hk.nameOf hname]
  have hsub : ∀ p ∈ start.root :: new, p ∈ start.ns ++ new := by
    intro p hp
    rcases List.mem_cons.mp hp with rfl | hp
    · exact List.mem_append_left _ hroot
    · exact List.mem_append_right _ hp
  refine ⟨hlinked, ?_, by rw [hrpath]; exact h.breadth_first, by rw [hrpath]; exact h.all, h.once,
    by rw [hrpath]; exact h.resolved, ?_, ?_⟩
  · rw [← h.names]
    exact List.map_congr_left fun p hp => hname p (hsub p hp)
  · intro p hp
    obtain ⟨l, path, file, hl, hpath, hfile, himage⟩ := h.objects p hp
    obtain ⟨l', hl', _⟩ := hk p l hl
    have hpath' : l'.l_name = l.l_name := hk.field hl hl' LinkMap.l_name fun _ => rfl
    have himage' : l'.image = l.image := hk.field hl hl' LinkMap.image fun _ => rfl
    exact ⟨l', path, file, hl', hpath'.trans hpath, hfile, himage'.trans himage⟩
  · rw [List.map_congr_left hname]
    exact h.distinct

/-- The parse of the root keeps the names. -/
theorem nameOf_parsed {w : Rtld} {root : Ptr} {l l' : LinkMap} {reads : Reads}
    {rpath : List CString} (hl : w.maps[root]? = some l)
    (hparse : parse_dynamic reads w._rpath l = .ok (l', rpath)) (p : Ptr) :
    nameOf { w with maps := (w.put root l').maps, _rpath := rpath } p = nameOf w p := by
  unfold nameOf
  simp only [get_put hl]
  split_ifs with hp
  · rw [hp, hl, Option.bind_some, Option.bind_some, (parse_dynamic.spec hparse).frame]
  · rfl

/-- The names at the start are distinct. -/
theorem StartsAt.nodup {w : Rtld} (h : StartsAt w start) : (start.ns.map (nameOf w)).Nodup := by
  obtain ⟨l, hl, hname, _⟩ := h.root
  have hname := nameOf_eq_some.mpr ⟨l, hl, hname⟩
  rcases h.kind with ⟨hns, _⟩ | ⟨rtld, hns, hrtld, dir, soname, hpath⟩
  · rw [hns]
    simp
  · have hno : namebuf dir soname ≠ CString.lit "RTLD".toList :=
      namebuf_ne (by decide) (by decide) dir soname
    rw [hns, List.map_cons, List.map_singleton, hrtld, hname, hpath]
    simpa using hno.symm

/-- What comes after the loop ends well, and finds the closure. -/
theorem StartsAt.closure {w : Rtld} {l l' : LinkMap} {reads : Reads} {rpath : List CString}
    {fuel : Nat} {runlist : List Ptr} (hstart : StartsAt w start)
    (hl : w.maps[start.root]? = some l)
    (hparse : parse_dynamic reads w._rpath l = .ok (l', rpath)) (hsafe : Safe rpath)
    (hrun : load.deps_loop host fuel [] {
      w := { w with maps := (w.put start.root l').maps, _rpath := rpath }
      todo := [start.root]
      nlist := 0 } = .ok (runlist, st))
    (htodo : st.todo = []) (hresolved : AllResolve host start visits st.w._rpath)
    (h : Inv host start Safe runlist rest new visits (metBy host start visits st.w._rpath) st) :
    ∃ w' order, set_searchlist start.root runlist st.nlist st.w = .ok w' ∧
      print_namespace w' = .ok () ∧ Closure host start w' new order := by
  have hinv := hstart.inv host hl hparse hsafe
  have hkeeps := deps_loop_keeps hrun
  have hns : (start.ns.map (nameOf st.w)).Nodup := by
    have hsame : ∀ p ∈ start.ns, nameOf st.w p = nameOf w p := by
      intro p hp
      obtain ⟨name, hname⟩ := Option.isSome_iff_exists.mp
        (hinv.isSome (List.mem_append_left _ hp))
      rw [hkeeps.nameOf hname, ← hname]
      exact nameOf_parsed hl hparse p
    rw [List.map_congr_left hsame]
    exact hstart.nodup
  obtain ⟨order, hclosure⟩ := h.closure htodo hresolved hns
  obtain ⟨m, hm⟩ := h.linked.linked.mem_maps (List.mem_append_left new h.root)
  have hcount : (runlist.filter (· ≠ start.root)).length ≤ st.nlist := by
    have hdone := h.run
    rw [htodo, List.append_nil] at hdone
    rw [hdone, h.nlist, List.filter_cons_of_neg (by simp)]
    exact List.length_filter_le _ _
  obtain ⟨w', hset, hk, hrpath, hlinked⟩ := set_searchlist.spec hm hcount h.linked
  exact ⟨w', order, hset, print_namespace.spec hlinked,
    hclosure.keeps h.root (fun p hp => h.isSome hp) hk hrpath hlinked⟩

end

/-- `map_object_deps` ends for every file system and every graph of
dependencies over it. If every name is found, the files that it finds load,
and the strings that it copies keep their NULs, then the namespace is the one
it started from, followed by the objects that the root needs, directly or not,
each once and in breadth-first order. -/
theorem dependencies_are_loaded_once_in_breadth_first_order (host : Host) (start : Start)
    (Safe : List CString → Prop) (fuel : Nat) (w : Rtld) (l l' : LinkMap) (rpath : List CString)
    (hstart : StartsAt w start) (hl : w.maps[start.root]? = some l)
    (hparse : parse_dynamic (host.slots w) w._rpath l = .ok (l', rpath)) (hsafe : Safe rpath)
    (hload : EveryFileLoads host start Safe) (hheld : HeldCopies host start Safe)
    (hresolve : ∀ soname, map_object_deps host fuel w start.root ≠
      .error (.exit (.libraryNotFound soname)))
    (hfuel : host.fs.length + 2 ≤ fuel) :
    ∃ w' new order, map_object_deps host fuel w start.root = .ok w' ∧
      Closure host start w' new order := by
  have hinv := hstart.inv host hl hparse hsafe
  have hloop := (hinv.deps_loop (hload.mayStop hheld) fuel (fun x hx => absurd hx List.not_mem_nil)
    (by simp [metBy]) (Or.inr (by simpa using hfuel))).notFound
  simp only [map_object_deps, parse_map, Rtld.deref, hl, hparse, bind, Except.bind] at hresolve ⊢
  rcases hloop with ⟨⟨runlist, st⟩, hrun, rest, new, visits, htodo, hresolved, _, h⟩ |
    ⟨soname, hstop⟩
  · obtain ⟨w', order, hset, hprint, hclosure⟩ :=
      hstart.closure hl hparse hsafe hrun htodo hresolved h
    refine ⟨w', new, order, ?_, hclosure⟩
    simp only [hrun, hset, hprint]
  · rw [hstop] at hresolve
    exact absurd rfl (hresolve soname)

/-- The tables of an object that needs two names out of `a` and `b`. -/
def abImage (first second : BitVec 64) : Image :=
  { emptyImage with
    dynamic := [⟨DT_STRTAB, 0x90⟩, ⟨DT_SYMTAB, 0xa0⟩, ⟨DT_NEEDED, first⟩, ⟨DT_NEEDED, second⟩]
    strtab := [0, 0x61, 0, 0x62, 0] }

theorem abImage_parses {first second : BitVec 64} (reads : Reads) (rpath : List CString)
    {l : LinkMap} (himage : l.image = abImage first second) (hinfo : l.l_info = fun _ => none)
    (hld : l.l_ld ≠ 0) : ∃ l', parse_dynamic reads rpath l = .ok (l', rpath) := by
  have htags : ∀ dyn ∈ l.image.dynamic, Indexable dyn ∧ dyn.d_tag ≠ DT_RPATH := by
    rw [himage]
    intro dyn hdyn
    simp only [abImage, List.mem_cons, List.not_mem_nil, or_false] at hdyn
    rcases hdyn with rfl | rfl | rfl | rfl
    all_goals simp [Indexable]
  have hl : (l.l_ld != 0) = true := by simpa using hld
  have hindexed := index_dynamic_eq l fun dyn hdyn => (htags dyn hdyn).1
  rw [hinfo, himage] at hindexed
  refine ⟨{ l with l_info := indexed (fun _ => none) (abImage first second).dynamic }, ?_⟩
  simp only [parse_dynamic, assert, hl, if_true, bind, Except.bind, himage, hindexed]
  simp only [D_PTR, show indexed (fun _ => none) (abImage first second).dynamic DT_STRTAB =
    some ⟨DT_STRTAB, 0x90⟩ from rfl]
  rw [add_rpaths_none fun dyn hdyn => (htags dyn (himage ▸ hdyn)).2]
  rfl

def libDir : CString := CString.lit "/lib".toList

/-- The program needs both, `a` needs `b` and itself, and `b` needs `a`, twice. -/
def abHost : Host where
  kern := steadyKernel
  fs := [(namebuf libDir (CString.lit ['a']), libraryFile (abImage 3 1)),
    (namebuf libDir (CString.lit ['b']), libraryFile (abImage 1 1))]
  heap := fun p => BitVec.ofNat 64 (0x5000 + 0x1000 * p)
  stack := fun _ _ => 0
  alloca := fun _ _ => 0
  reads := fun _ _ s => s
  keeps := fun _ _ _ _ => rfl

def abRoot : LinkMap :=
  { init_link_map 0x4000 (abImage 1 3) with
    l_name := some (CString.lit "main-program".toList)
    l_ld := 0x80 }

def abWorld : Rtld where
  _dl_pagesize := 0x1000
  _dl_stack_flags := 0
  _namespace := some 0
  _rpath := [libDir]
  maps := [abRoot]
  proc := emptyProc

def abStart : Start where
  root := 0
  name := CString.lit "main-program".toList
  image := abImage 1 3
  ns := [0]
  pagesize := 0x1000

theorem dependencies_of_a_program_with_a_cycle :
    ∃ w' new order, map_object_deps abHost 4 abWorld 0 = .ok w' ∧
      Closure abHost abStart w' new order := by
  obtain ⟨l', hparse⟩ :=
    abImage_parses (l := abRoot) (abHost.slots abWorld) [libDir] rfl rfl (by decide)
  have hok : (map_object_deps abHost 4 abWorld 0).isOk = true := by decide +kernel
  refine dependencies_are_loaded_once_in_breadth_first_order abHost abStart (· = [libDir]) 4
    abWorld abRoot l' [libDir] ?_ rfl hparse rfl ?_ ?_ ?_ (by decide)
  · exact ⟨rfl, ⟨rfl, abRoot, rfl, rfl, rfl⟩, ⟨abRoot, rfl, rfl, rfl, rfl⟩, Or.inl ⟨rfl, rfl⟩⟩
  · intro rpaths path file _ _ _ hfile w hps hrpath
    have hfile : ∃ first second, file = libraryFile (abImage first second) := by
      obtain ⟨before, after, hfs, _⟩ := List.lookup_eq_some_iff.mp hfile
      have hmem : (path, file) ∈ abHost.fs := by rw [hfs]; simp
      simp only [abHost, List.mem_cons, Prod.mk.injEq, List.not_mem_nil, or_false] at hmem
      rcases hmem with ⟨_, rfl⟩ | ⟨_, rfl⟩
      · exact ⟨3, 1, rfl⟩
      · exact ⟨1, 1, rfl⟩
    obtain ⟨first, second, rfl⟩ := hfile
    obtain ⟨p, w', hfd, hsame⟩ := libraryFile_loads path (show abHost.kern = _ from rfl) rfl hps
      fun l himage hinfo hld => abImage_parses (abHost.slots w) w._rpath himage hinfo hld
    exact ⟨p, w', hfd, hsame.trans hrpath⟩
  · exact .of_files (by decide) (by rintro _ rfl; decide) (by decide)
  · intro soname hstop
    rw [show abStart.root = 0 from rfl] at hstop
    rw [hstop] at hok
    cases hok

/-! ## A path of sixteen characters -/

def longName : CString := CString.lit "libabcde.so".toList

/-- The program needs the library twice, and the library nothing. -/
def longImage : Image :=
  { abImage 1 1 with strtab := 0 :: longName.bytes ++ [0] }

/-- The path of the library has sixteen characters, so the next block of its
size takes the NUL of the copy. -/
def longHost : Host :=
  { abHost with
    fs := [(namebuf libDir longName,
      libraryFile { emptyImage with dynamic := [⟨DT_STRTAB, 0x90⟩, ⟨DT_SYMTAB, 0xa0⟩] })]
    reads := fun _ _ s => if Held s then s else overwritten s
    keeps := fun _ _ _ hs => if_pos hs }

def longRoot : LinkMap := { abRoot with image := longImage }

def longWorld : Rtld := { abWorld with maps := [longRoot] }

def longStart : Start := { abStart with image := longImage }

/-- Every name of the run is found, and every file loads, but the library is
in the namespace twice. -/
theorem a_library_with_a_path_of_sixteen_characters_is_loaded_twice :
    StartsAt longWorld longStart ∧
      ∃ w', map_object_deps longHost 4 longWorld 0 = .ok w' ∧
        DLinked w'.maps none w'._namespace [0, 1, 2] ∧
        nameOf w' 1 = some (namebuf libDir longName) ∧
        nameOf w' 2 = some (namebuf libDir longName) ∧
        ¬ ∃ new order, Closure longHost longStart w' new order := by
  have hrun : (map_object_deps longHost 4 longWorld 0).toOption.map (fun w =>
      (w._namespace, w.maps.map fun l => (l.l_name, l.l_next, l.l_prev))) = some (some 0,
        [(some longStart.name, some 1, none),
          (some (namebuf libDir longName), some 2, some 0),
          (some (namebuf libDir longName), none, some 1)]) := by decide +kernel
  refine ⟨⟨rfl, ⟨rfl, longRoot, rfl, rfl, rfl⟩, ⟨longRoot, rfl, rfl, rfl, rfl⟩,
    Or.inl ⟨rfl, rfl⟩⟩, ?_⟩
  cases hdeps : map_object_deps longHost 4 longWorld 0 with
  | error e =>
    rw [hdeps] at hrun
    cases hrun
  | ok w' =>
    rw [hdeps] at hrun
    simp only [Except.toOption, Option.map_some, Option.some.injEq, Prod.mk.injEq] at hrun
    obtain ⟨hns, hmaps⟩ := hrun
    obtain ⟨l0, l1, l2, hl⟩ := List.length_eq_three.mp (by simpa using congrArg List.length hmaps)
    simp only [hl, List.map_cons, List.map_nil, List.cons.injEq, Prod.mk.injEq, and_true] at hmaps
    obtain ⟨⟨_, hnext0, hprev0⟩, ⟨hname1, hnext1, hprev1⟩, hname2, hnext2, hprev2⟩ := hmaps
    have hlinked : DLinked w'.maps none w'._namespace [0, 1, 2] := by
      rw [hl]
      exact ⟨hns, l0, rfl, hprev0, hnext0, l1, rfl, hprev1, hnext1, l2, rfl, hprev2, hnext2⟩
    have hfirst : nameOf w' 1 = some (namebuf libDir longName) :=
      nameOf_eq_some.mpr ⟨l1, by rw [hl]; rfl, hname1⟩
    have hsecond : nameOf w' 2 = some (namebuf libDir longName) :=
      nameOf_eq_some.mpr ⟨l2, by rw [hl]; rfl, hname2⟩
    refine ⟨w', rfl, hlinked, hfirst, hsecond, ?_⟩
    rintro ⟨new, order, h⟩
    have hdistinct := h.distinct
    rw [h.linked.linked.unique hlinked.linked] at hdistinct
    simp [hfirst, hsecond] at hdistinct

end elf_loader.load
