-- The table of search paths, `GL(rpath)`, slot by slot. It has MAX_PATH + 1
-- slots, three of them are taken at the start, and `parse_dynamic` adds the
-- DT_RPATH entries of every object without a look at the room that is left.
import BinaryLab.Startup
import Mathlib.Data.List.Dedup

set_option linter.style.nameCheck false

open binary_lab.runs binary_lab.words

namespace elf_loader.load

/-! ## The table as an array -/

/-- The slots of `GL(rpath)`. NULL is `none`. -/
abbrev Slots := List (Option CString)

/-- `*rpath = v`, where `rpath` points to slot `i`. -/
def store_slot (slots : Slots) (i : Nat) (v : Option CString) : Except Stop Slots :=
  if i < slots.length then .ok (slots.set i v) else .error (.fault .rpathIndex)

/-- The strings in front of the first NULL. -/
def pathsIn (slots : Slots) : List CString := (slots.takeWhile Option.isSome).filterMap id

/-- The loop that looks for the path, where `rpath` points to slot `i` and the
list is what comes from there on. At NULL the path is copied and stored, and
NULL behind it. -/
def add_slot (reads : Reads) (newpath : CString) (slots : Slots) : Nat → Slots → Except Stop Slots
  | _, [] => .error (.fault .outOfTable)
  | i, none :: _ =>
    if newpath.bytes = [] then .error (.exit .mallocFailed)
    else do
      let slots ← store_slot slots i (some newpath)
      store_slot slots (i + 1) none
  | i, some r :: rest =>
    if __strcmp (reads (pathsIn slots) i r) newpath = 0 then .ok slots
    else add_slot reads newpath slots (i + 1) rest

/-- The loop over the `DT_RPATH` entries. -/
def add_slots (reads : Reads) (strtab : Addr) (tab : List Byte) (slots : Slots) :
    List Dyn → Except Stop Slots
  | [] => .ok slots
  | dyn :: dyns =>
    if dyn.d_tag ≠ DT_RPATH then add_slots reads strtab tab slots dyns
    else do
      assert (strtab != 0) "strtab != NULL"
      let slots ← add_slot reads (strAt tab dyn.d_un.toNat) slots 0 slots
      add_slots reads strtab tab slots dyns

/-- `parse_dynamic` with the table as an array. -/
def parse_slots (reads : Reads) (slots : Slots) (map : LinkMap) :
    Except Stop (LinkMap × Slots) := do
  assert (map.l_ld != 0) "map->l_ld != NULL"
  let map ← index_dynamic map map.image.dynamic
  let strtab ← D_PTR .parse_dynamic map DT_STRTAB
  let slots ← add_slots reads strtab map.image.strtab slots map.image.dynamic
  let map ← setup_hash map
  check_dynamic_assert map
  .ok (map, slots)

/-- The array has the paths in its first slots, and then NULL. -/
def HoldsPaths (slots : Slots) (rpath : List CString) : Prop :=
  slots.length = MAX_PATH + 1 ∧ ∃ rest, slots = rpath.map some ++ none :: rest

/-- `x` does on the array what `y` does on the list of paths. -/
def Refines (x : Except Stop Slots) (y : Except Stop (List CString)) : Prop :=
  match y with
  | .ok rpath => ∃ slots, x = .ok slots ∧ HoldsPaths slots rpath
  | .error e => x = .error e

theorem HoldsPaths.pathsIn {slots : Slots} {rpath : List CString} (h : HoldsPaths slots rpath) :
    pathsIn slots = rpath := by
  obtain ⟨_, rest, rfl⟩ := h
  unfold load.pathsIn
  rw [List.takeWhile_append_of_pos (by simp)]
  simp

/-- The walk over paths that are there: it stops at the path, or at the NULL. -/
theorem add_slot_walk (reads : Reads) (newpath : CString) (slots : Slots) (i : Nat)
    (paths : List CString) (rest : Slots) :
    add_slot reads newpath slots i (paths.map some ++ none :: rest) =
      if newpath ∈ paths.mapIdx (fun j => reads (pathsIn slots) (i + j)) then .ok slots
      else if newpath.bytes = [] then .error (.exit .mallocFailed)
      else store_slot slots (i + paths.length) (some newpath) >>= fun slots =>
        store_slot slots (i + paths.length + 1) none := by
  induction paths generalizing i with
  | nil => rfl
  | cons r paths ih =>
    rw [List.map_cons, List.cons_append, add_slot, List.mapIdx_cons]
    by_cases hr : reads (pathsIn slots) i r = newpath
    · rw [if_pos ((__strcmp.spec _ newpath).mpr hr), if_pos (by simp [hr])]
    · have hshift : (fun j => reads (pathsIn slots) (i + (j + 1))) =
          fun j => reads (pathsIn slots) (i + 1 + j) := by
        funext j
        rw [Nat.add_assoc, Nat.add_comm 1]
      have hmem : newpath ∈ reads (pathsIn slots) i r ::
          paths.mapIdx (fun j => reads (pathsIn slots) (i + (j + 1))) ↔
          newpath ∈ paths.mapIdx fun j => reads (pathsIn slots) (i + 1 + j) := by
        rw [List.mem_cons, or_iff_right (Ne.symm hr), hshift]
      rw [if_neg (mt (__strcmp.spec _ newpath).mp hr), ih]
      simp only [hmem, List.length_cons, Nat.add_zero, Nat.add_assoc, Nat.add_comm 1]

/-- The two stores are inside the array as long as there is room for both. -/
theorem add_slot_refines (reads : Reads) {slots : Slots} {rpath : List CString}
    (h : HoldsPaths slots rpath) (newpath : CString) :
    Refines (add_slot reads newpath slots 0 slots) (add_rpath reads rpath newpath) := by
  have hpaths := h.pathsIn
  obtain ⟨hlen, rest, hslots⟩ := h
  have hwalk := add_slot_walk reads newpath slots 0 rpath rest
  have hread : (rpath.mapIdx fun j => reads (pathsIn slots) (0 + j)) = read_rpath reads rpath := by
    simp only [Nat.zero_add, hpaths]
    rfl
  rw [← hslots, hread, Nat.zero_add] at hwalk
  have hmem : ((read_rpath reads rpath).any fun r => __strcmp r newpath == 0) = true ↔
      newpath ∈ read_rpath reads rpath := by
    simp
  rw [hwalk, add_rpath]
  by_cases hin : newpath ∈ read_rpath reads rpath
  · rw [if_pos hin, if_pos (hmem.mpr hin)]
    exact ⟨slots, rfl, hlen, rest, hslots⟩
  · rw [if_neg hin, if_neg (mt hmem.mp hin)]
    by_cases hempty : newpath.bytes = []
    · rw [if_pos hempty, if_pos hempty]
      rfl
    rw [if_neg hempty, if_neg hempty]
    have hrest : rpath.length + 1 + rest.length = MAX_PATH + 1 := by
      rw [hslots] at hlen
      simpa [Nat.add_comm, Nat.add_left_comm, Nat.add_assoc] using hlen
    have hfirst : store_slot slots rpath.length (some newpath) =
        .ok (slots.set rpath.length (some newpath)) := if_pos (by omega)
    rw [hfirst]
    simp only [bind, Except.bind, store_slot, List.length_set, hlen]
    by_cases hroom : rpath.length + 1 < MAX_PATH + 1
    · rw [if_pos hroom, if_pos hroom]
      cases rest with
      | nil => simp at hrest; omega
      | cons x rest =>
        refine ⟨_, rfl, by simpa using hlen, rest, ?_⟩
        rw [hslots]
        simp
    · rw [if_neg hroom, if_neg hroom]
      rfl

theorem add_slots_refines (reads : Reads) {slots : Slots} {rpath : List CString}
    (h : HoldsPaths slots rpath) (strtab : Addr) (tab : List Byte) (dyns : List Dyn) :
    Refines (add_slots reads strtab tab slots dyns) (add_rpaths reads strtab tab rpath dyns) := by
  induction dyns generalizing slots rpath with
  | nil => exact ⟨slots, rfl, h⟩
  | cons dyn dyns ih =>
    rw [add_slots, add_rpaths, add_rpath_entry]
    by_cases htag : dyn.d_tag ≠ DT_RPATH
    · rw [if_pos htag, if_pos htag]
      exact ih h
    · rw [if_neg htag, if_neg htag]
      cases assert (strtab != 0) "strtab != NULL" with
      | error e => rfl
      | ok u =>
        have hadd := add_slot_refines reads h (strAt tab dyn.d_un.toNat)
        simp only [bind, Except.bind]
        cases hres : add_rpath reads rpath (strAt tab dyn.d_un.toNat) with
        | error e =>
          rw [hres] at hadd
          rw [show add_slot _ _ _ _ _ = .error e from hadd]
          rfl
        | ok rpath1 =>
          rw [hres] at hadd
          obtain ⟨slots1, hslots, hholds⟩ := hadd
          rw [hslots]
          exact ih hholds

/-- The parser does the same with the array and with the list of paths. -/
theorem parse_slots_refines (reads : Reads) {slots : Slots} {rpath : List CString}
    (h : HoldsPaths slots rpath) (map : LinkMap) :
    match parse_dynamic reads rpath map with
    | .ok (map', rpath') =>
      ∃ slots', parse_slots reads slots map = .ok (map', slots') ∧ HoldsPaths slots' rpath'
    | .error e => parse_slots reads slots map = .error e := by
  unfold parse_dynamic parse_slots
  cases assert (map.l_ld != 0) "map->l_ld != NULL" with
  | error e => rfl
  | ok u =>
    simp only [bind, Except.bind]
    cases index_dynamic map map.image.dynamic with
    | error e => rfl
    | ok map1 =>
      simp only
      cases D_PTR .parse_dynamic map1 DT_STRTAB with
      | error e => rfl
      | ok strtab =>
        simp only
        have hadd := add_slots_refines reads h strtab map1.image.strtab map1.image.dynamic
        cases hres : add_rpaths reads strtab map1.image.strtab rpath map1.image.dynamic with
        | error e =>
          rw [hres] at hadd
          rw [show add_slots _ _ _ _ _ = .error e from hadd]
        | ok rpath1 =>
          rw [hres] at hadd
          obtain ⟨slots1, hslots, hholds⟩ := hadd
          rw [hslots]
          simp only
          cases setup_hash map1 with
          | error e => rfl
          | ok map2 =>
            simp only
            cases check_dynamic_assert map2 with
            | error e => rfl
            | ok u => exact ⟨slots1, rfl, hholds⟩

/-! ## Room for the paths of an object -/

/-- The search paths that the object brings along. -/
def rpathsIn (tab : List Byte) (dyns : List Dyn) : List CString :=
  dyns.filterMap fun d =>
    if d.d_tag = (DT_RPATH : Int) then some (strAt tab d.d_un.toNat) else none

/-- Those that the parser comes to: up to the first empty one, for which
`malloc` gives NULL. -/
def pathsTried (rpath : List CString) (tab : List Byte) (dyns : List Dyn) : List CString :=
  (rpathsIn tab dyns).takeWhile fun s => s.bytes ≠ [] ∨ s ∈ rpath

/-- The paths in the table and those of the object are MAX_PATH at most,
each counted once. -/
def HasRoom (rpath : List CString) (image : Image) : Prop :=
  (rpath ++ pathsTried rpath image.strtab image.dynamic).dedup.length ≤ MAX_PATH

/-- The parser gets to the `DT_RPATH` entries of the map. -/
def ReadsRpaths (map : LinkMap) : Prop :=
  map.l_ld ≠ 0 ∧ (∀ dyn ∈ map.image.dynamic, Indexable dyn) ∧
    ∃ d, indexed map.l_info map.image.dynamic DT_STRTAB = some d ∧ d.d_un + map.l_addr ≠ 0

section

variable {reads : Reads} {strtab : Addr} {tab : List Byte} {rpath rpath' : List CString}
  {dyns : List Dyn} {dyn : Dyn} {e : Stop}

theorem nodup_append_new {newpath : CString} (hnodup : rpath.Nodup) (hmem : newpath ∉ rpath) :
    (rpath ++ [newpath]).Nodup := by
  rw [← List.concat_eq_append]
  exact hnodup.concat hmem

/-- What `add_rpath` can do with a path, when the table is read as it is. -/
theorem add_rpath_cases (hexact : Exact reads rpath) (newpath : CString) :
    (newpath ∈ rpath ∧ add_rpath reads rpath newpath = .ok rpath) ∨
    (newpath ∉ rpath ∧ newpath.bytes = [] ∧
      add_rpath reads rpath newpath = .error (.exit .mallocFailed)) ∨
    (newpath ∉ rpath ∧ newpath.bytes ≠ [] ∧ rpath.length < MAX_PATH ∧
      add_rpath reads rpath newpath = .ok (rpath ++ [newpath])) ∨
    (newpath ∉ rpath ∧ newpath.bytes ≠ [] ∧ MAX_PATH ≤ rpath.length ∧
      add_rpath reads rpath newpath = .error (.fault .rpathIndex)) := by
  have hany : (rpath.any fun r => __strcmp r newpath == 0) = true ↔ newpath ∈ rpath := by simp
  unfold add_rpath
  rw [show read_rpath reads rpath = rpath from hexact]
  by_cases hmem : newpath ∈ rpath
  · exact .inl ⟨hmem, if_pos (hany.mpr hmem)⟩
  · rw [if_neg (mt hany.mp hmem)]
    by_cases hempty : newpath.bytes = []
    · exact .inr (.inl ⟨hmem, hempty, if_pos hempty⟩)
    · rw [if_neg hempty]
      by_cases hroom : rpath.length + 1 < MAX_PATH + 1
      · exact .inr (.inr (.inl ⟨hmem, hempty, Nat.lt_of_succ_lt_succ hroom, if_pos hroom⟩))
      · exact .inr (.inr (.inr ⟨hmem, hempty, by omega, if_neg hroom⟩))

theorem rpathsIn_cons (dyn : Dyn) (dyns : List Dyn) :
    rpathsIn tab (dyn :: dyns) =
      if dyn.d_tag = DT_RPATH then strAt tab dyn.d_un.toNat :: rpathsIn tab dyns
      else rpathsIn tab dyns := by
  rw [rpathsIn, List.filterMap_cons]
  split_ifs <;> rfl

theorem pathsTried_other (rpath : List CString) (dyns : List Dyn) (htag : dyn.d_tag ≠ DT_RPATH) :
    pathsTried rpath tab (dyn :: dyns) = pathsTried rpath tab dyns := by
  rw [pathsTried, rpathsIn_cons, if_neg htag, ← pathsTried]

theorem pathsTried_cons (dyns : List Dyn) (htag : dyn.d_tag = DT_RPATH)
    (h : (strAt tab dyn.d_un.toNat).bytes ≠ [] ∨ strAt tab dyn.d_un.toNat ∈ rpath) :
    pathsTried rpath tab (dyn :: dyns) =
      strAt tab dyn.d_un.toNat :: pathsTried rpath tab dyns := by
  rw [pathsTried, rpathsIn_cons, if_pos htag, List.takeWhile_cons_of_pos (by simpa using h),
    ← pathsTried]

theorem pathsTried_empty (dyns : List Dyn) (htag : dyn.d_tag = DT_RPATH)
    (hempty : (strAt tab dyn.d_un.toNat).bytes = []) (hmem : strAt tab dyn.d_un.toNat ∉ rpath) :
    pathsTried rpath tab (dyn :: dyns) = [] := by
  rw [pathsTried, rpathsIn_cons, if_pos htag,
    List.takeWhile_cons_of_neg (by simpa using ⟨hempty, hmem⟩)]

/-- A path that is not empty changes nothing for the others. -/
theorem pathsTried_added {newpath : CString} (rpath : List CString) (dyns : List Dyn)
    (hempty : newpath.bytes ≠ []) :
    pathsTried (rpath ++ [newpath]) tab dyns = pathsTried rpath tab dyns := by
  have hsame : (fun s : CString => decide (s.bytes ≠ [] ∨ s ∈ rpath ++ [newpath])) =
      fun s => decide (s.bytes ≠ [] ∨ s ∈ rpath) := by
    funext s
    by_cases hs : s.bytes = []
    · have hne : s ≠ newpath := by
        rintro rfl
        exact hempty hs
      simp [hs, hne]
    · simp [hs]
  rw [pathsTried, pathsTried, hsame]

/-- The number of different strings depends only on which strings they are. -/
theorem dedup_length_congr {xs ys : List CString} (h : ∀ s, s ∈ xs ↔ s ∈ ys) :
    xs.dedup.length = ys.dedup.length := by
  apply List.Perm.length_eq
  rw [List.perm_ext_iff_of_nodup xs.nodup_dedup ys.nodup_dedup]
  intro s
  rw [List.mem_dedup, List.mem_dedup, h]

/-- Different strings of a list are no more than its different strings. -/
theorem length_le_dedup {xs : List CString} (ys : List CString) (hnodup : xs.Nodup)
    (h : ∀ s ∈ xs, s ∈ ys) : xs.length ≤ ys.dedup.length :=
  (hnodup.subperm fun s hs => List.mem_dedup.mpr (h s hs)).length_le

/-- The strings of the table and of the object are copied with their NULs. -/
structure HeldPaths (rpath : List CString) (tab : List Byte) (dyns : List Dyn) : Prop where
  table : ∀ s ∈ rpath, Held s
  new : ∀ s ∈ rpathsIn tab dyns, Held s

theorem HeldPaths.tail (h : HeldPaths rpath tab (dyn :: dyns)) : HeldPaths rpath tab dyns := by
  refine ⟨h.table, fun s hs => h.new s ?_⟩
  rw [rpathsIn_cons]
  split_ifs
  · exact List.mem_cons_of_mem _ hs
  · exact hs

theorem HeldPaths.added (h : HeldPaths rpath tab (dyn :: dyns)) (htag : dyn.d_tag = DT_RPATH) :
    HeldPaths (rpath ++ [strAt tab dyn.d_un.toNat]) tab dyns := by
  refine ⟨?_, h.tail.new⟩
  intro s hs
  rcases List.mem_append.mp hs with hs | hs
  · exact h.table s hs
  · rw [List.mem_singleton.mp hs]
    exact h.new _ (by rw [rpathsIn_cons, if_pos htag]; exact List.mem_cons_self)

/-- The paths in the table were there before, or are paths of the object. -/
theorem add_rpaths_mem (h : add_rpaths reads strtab tab rpath dyns = .ok rpath') :
    ∀ s ∈ rpath', s ∈ rpath ∨ s ∈ rpathsIn tab dyns := by
  induction dyns generalizing rpath with
  | nil =>
    cases h
    exact fun s hs => .inl hs
  | cons dyn dyns ih =>
    rw [add_rpaths, bind_eq_ok] at h
    obtain ⟨rpath1, h1, h2⟩ := h
    intro s hs
    unfold add_rpath_entry at h1
    rw [rpathsIn_cons]
    split_ifs at h1 with htag
    · cases h1
      rw [if_neg htag]
      exact ih h2 s hs
    · rw [bind_eq_ok] at h1
      obtain ⟨_, _, h1⟩ := h1
      rw [if_pos (not_not.mp htag), List.mem_cons]
      rcases ih h2 s hs with hs | hs
      · rcases add_rpath_ok h1 with ⟨_, rfl⟩ | ⟨_, rfl⟩
        · exact .inl hs
        · rcases List.mem_append.mp hs with hs | hs
          · exact .inl hs
          · exact .inr (.inl (List.mem_singleton.mp hs))
      · exact .inr (.inr hs)

/-- The loop overflows the table exactly if the paths are too many. -/
theorem add_rpaths_overflows_iff (hkeeps : KeepsHeld reads) (hheld : HeldPaths rpath tab dyns)
    (hstrtab : strtab ≠ 0) (hnodup : rpath.Nodup) (hlen : rpath.length ≤ MAX_PATH) :
    add_rpaths reads strtab tab rpath dyns = .error (.fault .rpathIndex) ↔
      ¬ (rpath ++ pathsTried rpath tab dyns).dedup.length ≤ MAX_PATH := by
  induction dyns generalizing rpath with
  | nil => simpa [add_rpaths, pathsTried, rpathsIn, hnodup.dedup] using hlen
  | cons dyn dyns ih =>
    rw [add_rpaths, add_rpath_entry]
    by_cases htag : dyn.d_tag = DT_RPATH
    · rw [if_neg (not_not.mpr htag), assert_not_null hstrtab]
      simp only [bind, Except.bind]
      have hadded := hheld.added htag
      rcases add_rpath_cases (hkeeps.exact hheld.table) (strAt tab dyn.d_un.toNat) with
        ⟨hmem, hadd⟩ | ⟨hmem, hempty, hadd⟩ | ⟨hmem, hempty, hroom, hadd⟩ |
        ⟨hmem, hempty, hfull, hadd⟩
      · have hsame : ∀ s, s ∈ rpath ++ strAt tab dyn.d_un.toNat :: pathsTried rpath tab dyns ↔
            s ∈ rpath ++ pathsTried rpath tab dyns := by
          intro s
          by_cases hs : s = strAt tab dyn.d_un.toNat <;> simp [hs, hmem]
        rw [hadd, pathsTried_cons dyns htag (.inr hmem), dedup_length_congr hsame]
        exact ih hheld.tail hnodup hlen
      · rw [hadd, pathsTried_empty dyns htag hempty hmem, List.append_nil, hnodup.dedup]
        simpa using hlen
      · have hsplit : rpath ++ strAt tab dyn.d_un.toNat :: pathsTried rpath tab dyns =
            rpath ++ [strAt tab dyn.d_un.toNat] ++
              pathsTried (rpath ++ [strAt tab dyn.d_un.toNat]) tab dyns := by
          rw [pathsTried_added rpath dyns hempty]
          simp
        rw [hadd, pathsTried_cons dyns htag (.inl hempty), hsplit]
        exact ih hadded (nodup_append_new hnodup hmem) (by simpa using Nat.succ_le_of_lt hroom)
      · -- The paths so far and the new one are all different, and too many.
        have hmany := length_le_dedup
          (rpath ++ strAt tab dyn.d_un.toNat :: pathsTried rpath tab dyns)
          (nodup_append_new hnodup hmem) (by simp +contextual [or_imp])
        rw [List.length_append, List.length_singleton] at hmany
        rw [hadd, pathsTried_cons dyns htag (.inl hempty)]
        exact iff_of_true rfl (by omega)
    · rw [if_pos htag, pathsTried_other rpath dyns htag]
      exact ih hheld.tail hnodup hlen

/-- Paths that are new and fit leave a table in order. -/
theorem add_rpaths_nodup (hkeeps : KeepsHeld reads) (hheld : HeldPaths rpath tab dyns)
    (hnodup : rpath.Nodup) (hlen : rpath.length ≤ MAX_PATH)
    (h : add_rpaths reads strtab tab rpath dyns = .ok rpath') :
    rpath'.Nodup ∧ rpath'.length ≤ MAX_PATH := by
  induction dyns generalizing rpath with
  | nil =>
    cases h
    exact ⟨hnodup, hlen⟩
  | cons dyn dyns ih =>
    rw [add_rpaths, bind_eq_ok] at h
    obtain ⟨rpath1, h1, h2⟩ := h
    unfold add_rpath_entry at h1
    split_ifs at h1 with htag
    · cases h1
      exact ih hheld.tail hnodup hlen h2
    · rw [bind_eq_ok] at h1
      obtain ⟨_, _, h1⟩ := h1
      have hadded := hheld.added (not_not.mp htag)
      rcases add_rpath_cases (hkeeps.exact hheld.table) (strAt tab dyn.d_un.toNat) with
        ⟨_, hadd⟩ | ⟨_, _, hadd⟩ | ⟨hmem, _, hroom, hadd⟩ | ⟨_, _, _, hadd⟩
      · rw [hadd] at h1
        cases h1
        exact ih hheld.tail hnodup hlen h2
      · rw [hadd] at h1
        cases h1
      · rw [hadd] at h1
        cases h1
        exact ih hadded (nodup_append_new hnodup hmem) (by simpa using Nat.succ_le_of_lt hroom) h2
      · rw [hadd] at h1
        cases h1

/-- A NULL string table stops the loop before any store. -/
theorem add_rpaths_null_strtab (h : add_rpaths reads 0 tab rpath dyns = .error e) :
    e = .exit (.assertion "strtab != NULL") := by
  induction dyns generalizing rpath with
  | nil => cases h
  | cons dyn dyns ih =>
    rw [add_rpaths, add_rpath_entry] at h
    split_ifs at h with htag
    · exact ih h
    · cases h
      rfl

end

/-! ## A run of the parser that overflows -/

/-- The computation makes no store outside the table. -/
def NoOverflow {α : Type} (x : Except Stop α) : Prop := x ≠ .error (.fault .rpathIndex)

theorem NoOverflow.ok {α : Type} (a : α) : NoOverflow (.ok a : Except Stop α) := by
  intro h
  cases h

theorem parser_noOverflow : ParserStops (· ≠ .fault .rpathIndex) := by
  constructor <;> simp

/-- The loop that indexes the entries returns only if it can take them all. -/
theorem index_dynamic_indexable {map map' : LinkMap} {dyns : List Dyn}
    (h : index_dynamic map dyns = .ok map') : ∀ dyn ∈ dyns, Indexable dyn := by
  induction dyns generalizing map with
  | nil => simp
  | cons dyn dyns ih =>
    rw [index_dynamic, bind_eq_ok] at h
    obtain ⟨map1, h1, h2⟩ := h
    intro d hd
    rcases List.mem_cons.mp hd with rfl | hd
    · unfold index_entry at h1
      by_cases hneg : d.d_tag < 0
      · have hlt : d.d_tag < DT_NUM := Int.lt_trans hneg (by decide)
        simp only [hlt, hneg, if_true, bind, Except.bind] at h1
        cases h1
      · refine ⟨Int.not_lt.mp hneg, ?_⟩
        by_cases hlt : d.d_tag < DT_NUM
        · simp only [hlt, hneg, if_true, if_false, bind, Except.bind] at h1
          split_ifs at h1 with haux hfilter
          exact ⟨haux, hfilter⟩
        · simp only [hlt, if_false, bind, Except.bind] at h1
          split_ifs at h1 with haux hfilter
          exact ⟨haux, hfilter⟩
    · exact ih h2 d hd

/-- The parser stores outside the table exactly when it gets to the `DT_RPATH`
entries and there is no room for them. -/
theorem parse_dynamic_overflows_iff {reads : Reads} {rpath : List CString} {map : LinkMap}
    (hkeeps : KeepsHeld reads) (hheld : HeldPaths rpath map.image.strtab map.image.dynamic)
    (hnodup : rpath.Nodup) (hlen : rpath.length ≤ MAX_PATH) :
    parse_dynamic reads rpath map = .error (.fault .rpathIndex) ↔
      ReadsRpaths map ∧ ¬ HasRoom rpath map.image := by
  constructor
  · intro h
    rw [parse_dynamic] at h
    rcases bind_eq_error.mp h with h | ⟨_, hld, h⟩
    · exact absurd rfl (assert_stops parser_noOverflow.checks _ _ _ h)
    rcases bind_eq_error.mp h with h | ⟨map1, hindex, h⟩
    · exact absurd rfl (index_dynamic_stops parser_noOverflow _ _ _ h)
    rcases bind_eq_error.mp h with h | ⟨strtab, hstrtab, h⟩
    · exact absurd rfl (D_PTR_stops parser_noOverflow.checks _ _ _ _ h)
    have hmap1 := index_dynamic_ok hindex
    rcases bind_eq_error.mp h with h | ⟨rpath1, _, h⟩
    · rw [hmap1] at h hstrtab
      obtain ⟨d, hd, hval⟩ := D_PTR_eq_ok.mp hstrtab
      have hne : strtab ≠ 0 := by
        rintro rfl
        cases add_rpaths_null_strtab h
      refine ⟨⟨bne_iff_ne.mp (assert_eq_ok.mp hld), index_dynamic_indexable hindex, d, hd, ?_⟩, ?_⟩
      · rw [← hval]
        exact hne
      · exact (add_rpaths_overflows_iff hkeeps hheld hne hnodup hlen).mp h
    · rcases bind_eq_error.mp h with h | ⟨map2, _, h⟩
      · exact absurd rfl (setup_hash_stops parser_noOverflow.checks _ _ h)
      rcases bind_eq_error.mp h with h | ⟨_, _, h⟩
      · exact absurd rfl (check_dynamic_assert_stops parser_noOverflow.checks _ _ h)
      · cases h
  · rintro ⟨⟨hld, hindexable, d, hd, hne⟩, hroom⟩
    have hover := (add_rpaths_overflows_iff hkeeps hheld hne hnodup hlen).mpr hroom
    simp only [parse_dynamic, assert_not_null hld, index_dynamic_eq map hindexable, bind,
      Except.bind]
    rw [D_PTR_eq_ok.mpr ⟨d, hd, rfl⟩]
    simp only
    rw [hover]

end elf_loader.load

namespace elf_loader.rtld

open load reloc

/-! ## The calls of a run -/

/-- A call of `parse_dynamic`: the search paths at that time, what they read
as, and the map. -/
structure Call where
  reads : Reads
  keeps : KeepsHeld reads
  rpath : List CString
  map : LinkMap

/-- A call in the state `w`. -/
def callOf (host : Host) (w : Rtld) (map : LinkMap) : Call where
  reads := host.slots w
  keeps := fun _ _ _ hs => host.keeps _ _ _ hs
  rpath := w._rpath
  map := map

def parse_map_calls (host : Host) (w : Rtld) (p : Ptr) : List Call :=
  afterwards (w.deref p) fun l => [callOf host w l]

def load_object_calls (host : Host) (file : File) (realname : CString) (header : Ehdr)
    (phdr : List Phdr) (l : LinkMap) (w : Rtld) : List Call :=
  let l := { l with l_entry := header.e_entry, l_phnum := header.e_phnum }
  afterwards (map_segments host.kern w._dl_pagesize file.bytes header phdr l w.proc) fun (l, _) =>
    [callOf host w { l with
      l_name := some realname
      l_ld := moved l.l_addr l.l_ld
      l_phdr := moved l.l_addr l.l_phdr }]

def map_object_fd_calls (host : Host) (file : File) (realname : CString) (w : Rtld) : List Call :=
  let p := w.maps.length
  match __read file 0 FILEBUF_SIZE with
  | none => []
  | some got =>
    let fb := filled got (host.stack p)
    let header := ehdrOf fb
    if header.e_type ≠ ET_DYN ∧ header.e_type ≠ ET_EXEC then []
    else afterwards (fetch_phdr (host.alloca p) file fb got.length header) fun phdr =>
      load_object_calls host file realname header phdr (init_link_map (host.heap p) file.image) w

def map_object_calls (host : Host) (soname : CString) (w : Rtld) : List Call :=
  match open_path host.fs soname (host.rpaths w) with
  | none => []
  | some (realname, file) =>
    afterwards (find_loaded host w realname w.maps.length w._namespace) fun found =>
      match found with
      | some _ => []
      | none => map_object_fd_calls host file realname w

def needed_entry_calls (host : Host) (l : LinkMap) (st : Deps) (dyn : Dyn) : List Call :=
  afterwards (D_PTR .map_object_deps l DT_STRTAB) fun _ =>
    if dyn.d_tag ≠ DT_NEEDED then []
    else map_object_calls host (strAt l.image.strtab dyn.d_un.toNat) st.w

def needed_loop_calls (host : Host) (l : LinkMap) (st : Deps) : List Dyn → List Call
  | [] => []
  | dyn :: dyns => needed_entry_calls host l st dyn ++
      afterwards (needed_entry host l st dyn) fun st => needed_loop_calls host l st dyns

def deps_loop_calls (host : Host) : Nat → Deps → List Call
  | 0, _ => []
  | fuel + 1, st =>
    match st.todo with
    | [] => []
    | p :: todo =>
      afterwards (st.w.deref p) fun l =>
        needed_loop_calls host l { st with todo } l.image.dynamic ++
          afterwards (needed_loop host l { st with todo } l.image.dynamic) fun st =>
            deps_loop_calls host fuel st

def map_object_deps_calls (host : Host) (fuel : Nat) (w : Rtld) (root : Ptr) : List Call :=
  parse_map_calls host w root ++ afterwards (parse_map host w root) fun w =>
    deps_loop_calls host fuel { w, todo := [root], nlist := 0 }

def map_main_calls (host : Host) (pi : ProgramInfo) (rtld : Ptr) (w : Rtld) : List Call :=
  afterwards (w.deref rtld) fun l =>
    let w := w.put rtld { l with l_name := some (CString.lit "RTLD".toList) }
    map_object_calls host (printed pi.argv1) w ++
      afterwards (map_object host (printed pi.argv1) w) fun (main, w) =>
        afterwards (w.deref rtld) fun l =>
          let w := w.put rtld { l with l_next := some main }
          afterwards (w.deref main) fun m =>
            parse_map_calls host (w.put main { m with l_prev := some rtld }) main

def choose_root_calls (host : Host) (sym : Symbols) (pi : ProgramInfo) (rtld : Ptr) (w : Rtld) :
    List Call :=
  if pi.entry = sym._start then map_main_calls host pi rtld w else []

/-- All calls of `parse_dynamic` in a run of `loader_main`, in order. -/
def loader_main_calls (host : Host) (sym : Symbols) (fuel : Nat) (pi : ProgramInfo) (w : Rtld) :
    List Call :=
  afterwards (scan_program host sym pi w) fun (rtld, w) =>
    choose_root_calls host sym pi rtld w ++
      afterwards (choose_root host sym pi rtld w) fun (root, w) =>
        parse_map_calls host w rtld ++ afterwards (parse_map host w rtld) fun w =>
          map_object_deps_calls host fuel w root

/-! ## The calls are a chain -/

/-- Every call finds the search paths that the calls before it have left. All
calls return, and leave the search paths `last`. -/
inductive Returns : List CString → List Call → List CString → Prop
  | nil (rpath : List CString) : Returns rpath [] rpath
  | cons {rpath rpath1 last : List CString} {map' : LinkMap} {calls : List Call} (call : Call)
      (hrpath : call.rpath = rpath)
      (h : parse_dynamic call.reads rpath call.map = .ok (map', rpath1))
      (hrest : Returns rpath1 calls last) : Returns rpath (call :: calls) last

/-- As `Returns`, but the last call may not return. -/
inductive Chain : List CString → List Call → Prop
  | returns {rpath last : List CString} {calls : List Call} (h : Returns rpath calls last) :
      Chain rpath calls
  | stops {rpath last : List CString} {calls : List Call} (call : Call)
      (hrpath : call.rpath = last) (h : Returns rpath calls last) : Chain rpath (calls ++ [call])

/-- `calls` are the calls of the computation `x` from the search paths `rpath`
on, where `paths` are the search paths in its result. -/
structure Logged {α : Type} (rpath : List CString) (calls : List Call) (x : Except Stop α)
    (paths : α → List CString) : Prop where
  chain : Chain rpath calls
  returns : ∀ a, x = .ok a → Returns rpath calls (paths a)

section

variable {α β : Type} {rpath last : List CString} {calls : List Call}

theorem Returns.append {calls' : List Call} {last' : List CString} (h : Returns rpath calls last)
    (h' : Returns last calls' last') : Returns rpath (calls ++ calls') last' := by
  induction h with
  | nil => exact h'
  | cons call hrpath hparse _ ih => exact .cons call hrpath hparse (ih h')

theorem Returns.append_chain {calls' : List Call} (h : Returns rpath calls last)
    (h' : Chain last calls') : Chain rpath (calls ++ calls') := by
  cases h' with
  | returns h' => exact .returns (h.append h')
  | stops call hrpath h' =>
    rw [← List.append_assoc]
    exact .stops call hrpath (h.append h')

theorem Logged.bind {x : Except Stop α} {f : α → Except Stop β} {paths : α → List CString}
    {calls' : α → List Call} {paths' : β → List CString} (h : Logged rpath calls x paths)
    (h' : ∀ a, x = .ok a → Logged (paths a) (calls' a) (f a) paths') :
    Logged rpath (calls ++ afterwards x calls') (x >>= f) paths' := by
  cases hx : x with
  | error e =>
    rw [afterwards, List.append_nil]
    refine ⟨h.chain, ?_⟩
    intro b hb
    cases hb
  | ok a =>
    have hfirst := h.returns a hx
    have hrest := h' a hx
    refine ⟨hfirst.append_chain hrest.chain, ?_⟩
    intro b hb
    exact hfirst.append (hrest.returns b hb)

/-- A computation that makes no calls, and what comes after it. -/
theorem Logged.after {x : Except Stop α} {f : α → Except Stop β} {calls' : α → List Call}
    {paths' : β → List CString} (h' : ∀ a, x = .ok a → Logged rpath (calls' a) (f a) paths') :
    Logged rpath (afterwards x calls') (x >>= f) paths' :=
  @Logged.bind α β rpath [] x f (fun _ => rpath) calls' paths'
    ⟨.returns (.nil rpath), fun _ _ => .nil rpath⟩ h'

/-- A computation that makes no calls and keeps the search paths. -/
theorem Logged.none {x : Except Stop α} {paths : α → List CString}
    (h : ∀ a, x = .ok a → paths a = rpath) : Logged rpath [] x paths := by
  refine ⟨.returns (.nil rpath), ?_⟩
  intro a ha
  rw [h a ha]
  exact .nil rpath

/-- One call. -/
theorem Logged.call (host : Host) (w : Rtld) (map : LinkMap) :
    Logged w._rpath [callOf host w map] (parse_dynamic (host.slots w) w._rpath map) Prod.snd := by
  have hstops : Chain w._rpath ([] ++ [callOf host w map]) :=
    .stops (callOf host w map) rfl (.nil w._rpath)
  refine ⟨hstops, ?_⟩
  intro r hr
  exact .cons (callOf host w map) rfl hr (.nil _)

/-- What comes after the calls, and keeps the search paths. -/
theorem Logged.quiet {x : Except Stop α} {f : α → Except Stop β} {paths : α → List CString}
    {paths' : β → List CString} (h : Logged rpath calls x paths)
    (hf : ∀ a b, x = .ok a → f a = .ok b → paths' b = paths a) :
    Logged rpath calls (x >>= f) paths' := by
  refine ⟨h.chain, ?_⟩
  intro b hb
  obtain ⟨a, ha, hb⟩ := bind_eq_ok.mp hb
  rw [hf a b ha hb]
  exact h.returns a ha

end

section

variable {host : Host} {w w' : Rtld}

theorem parse_map_logged (host : Host) (w : Rtld) (p : Ptr) :
    Logged w._rpath (parse_map_calls host w p) (parse_map host w p) Rtld._rpath := by
  refine .after fun l _ => (Logged.call host w l).quiet ?_
  rintro ⟨l', rpath⟩ b _ h
  cases h
  rfl

theorem load_object_logged (file : File) (realname : CString) (header : Ehdr) (phdr : List Phdr)
    (l : LinkMap) (w : Rtld) :
    Logged w._rpath (load_object_calls host file realname header phdr l w)
      (load_object host file realname header phdr l w) fun r => r.2.1 := by
  refine .after ?_
  rintro ⟨l1, proc⟩ _
  refine (Logged.call host w _).quiet ?_
  rintro ⟨l2, rpath⟩ b _ h
  cases h
  rfl

theorem map_object_fd_logged (file : File) (realname : CString) (w : Rtld) :
    Logged w._rpath (map_object_fd_calls host file realname w)
      (map_object_fd host file realname w) fun r => r.2._rpath := by
  unfold map_object_fd_calls map_object_fd
  cases __read file 0 FILEBUF_SIZE with
  | none => exact .none fun a h => by cases h
  | some got =>
    simp only
    split_ifs
    · exact .none fun a h => by cases h
    · refine .after fun phdr _ => (load_object_logged file realname _ phdr _ w).quiet ?_
      rintro ⟨l, rpath, proc⟩ b _ h
      cases h
      rfl

theorem map_object_logged (soname : CString) (w : Rtld) :
    Logged w._rpath (map_object_calls host soname w) (map_object host soname w)
      fun r => r.2._rpath := by
  unfold map_object_calls map_object
  cases open_path host.fs soname (host.rpaths w) with
  | none => exact .none fun a h => by cases h
  | some found =>
    refine .after fun r _ => ?_
    cases r with
    | some p =>
      refine .none fun a h => ?_
      cases h
      rfl
    | none => exact map_object_fd_logged found.2 found.1 w

theorem needed_entry_logged (l : LinkMap) (st : Deps) (dyn : Dyn) :
    Logged st.w._rpath (needed_entry_calls host l st dyn) (needed_entry host l st dyn)
      fun st => st.w._rpath := by
  refine .after fun _ _ => ?_
  split_ifs
  · refine .none fun a h => ?_
    cases h
    rfl
  · refine (map_object_logged _ st.w).quiet ?_
    rintro ⟨p, w1⟩ st' _ h
    exact take_object_rpath h

theorem needed_loop_logged (l : LinkMap) (st : Deps) (dyns : List Dyn) :
    Logged st.w._rpath (needed_loop_calls host l st dyns) (needed_loop host l st dyns)
      fun st => st.w._rpath := by
  induction dyns generalizing st with
  | nil =>
    refine .none fun a h => ?_
    cases h
    rfl
  | cons dyn dyns ih => exact (needed_entry_logged l st dyn).bind fun st' _ => ih st'

theorem deps_loop_logged (fuel : Nat) (done : List Ptr) (st : Deps) :
    Logged st.w._rpath (deps_loop_calls host fuel st) (deps_loop host fuel done st)
      fun r => r.2.w._rpath := by
  induction fuel generalizing done st with
  | zero =>
    refine .none fun a h => ?_
    unfold deps_loop at h
    split at h
    · cases h
      rfl
    · cases h
    · contradiction
  | succ fuel ih =>
    unfold deps_loop_calls deps_loop
    cases st.todo with
    | nil =>
      refine .none fun a h => ?_
      cases h
      rfl
    | cons p todo =>
      exact .after fun l _ => (needed_loop_logged l { st with todo } _).bind fun st' _ =>
        ih (done ++ [p]) st'

theorem map_object_deps_logged (fuel : Nat) (w : Rtld) (root : Ptr) :
    Chain w._rpath (map_object_deps_calls host fuel w root) :=
  ((parse_map_logged host w root).bind fun w1 _ =>
    deps_loop_logged fuel [] { w := w1, todo := [root], nlist := 0 }).chain

theorem map_main_logged (pi : ProgramInfo) (rtld : Ptr) (w : Rtld) :
    Logged w._rpath (map_main_calls host pi rtld w) (map_main host pi rtld w)
      fun r => r.2._rpath := by
  refine .after fun l _ => (map_object_logged _ (w.put rtld _)).bind ?_
  rintro ⟨main, w1⟩ _
  refine .after fun l1 _ => .after fun m _ => ?_
  have hparse := parse_map_logged host ((w1.put rtld { l1 with l_next := some main }).put main
    { m with l_prev := some rtld }) main
  refine hparse.quiet ?_
  intro w2 b _ h
  cases h
  rfl

theorem choose_root_logged (host : Host) (sym : Symbols) (pi : ProgramInfo) (rtld : Ptr)
    (w : Rtld) :
    Logged w._rpath (choose_root_calls host sym pi rtld w) (choose_root host sym pi rtld w)
      fun r => r.2._rpath := by
  unfold choose_root_calls choose_root
  split_ifs
  · exact map_main_logged pi rtld w
  · refine .none fun a h => ?_
    simp only [name_main, bind_eq_ok] at h
    obtain ⟨l, _, h⟩ := h
    cases h
    rfl

theorem loader_main_chain (host : Host) (sym : Symbols) (fuel : Nat) (pi : ProgramInfo)
    (w : Rtld) :
    Chain w._rpath (loader_main_calls host sym fuel pi w) := by
  unfold loader_main_calls
  cases hscan : scan_program host sym pi w with
  | error e => exact .returns (.nil _)
  | ok r =>
    obtain ⟨rtld, w1⟩ := r
    have hrpath : w1._rpath = w._rpath := by
      obtain ⟨_, scan, _, _, rfl⟩ := scan_program_ok hscan
      rfl
    have hlogged := choose_root_logged host sym pi rtld w1
    rw [hrpath] at hlogged
    simp only [afterwards]
    cases hroot : choose_root host sym pi rtld w1 with
    | error e =>
      rw [List.append_nil]
      exact hlogged.chain
    | ok r =>
      obtain ⟨root, w2⟩ := r
      refine (hlogged.returns _ hroot).append_chain ?_
      have hparsed := parse_map_logged host w2 rtld
      simp only
      cases hparse : parse_map host w2 rtld with
      | error e =>
        rw [List.append_nil]
        exact hparsed.chain
      | ok w3 =>
        exact (hparsed.returns w3 hparse).append_chain (map_object_deps_logged fuel w3 root)

end

/-! ## The table over a run -/

/-- The table after the calls, each made on the array. -/
def run_slots (slots : Slots) : List Call → Except Stop Slots
  | [] => .ok slots
  | call :: calls => do
    let (_, slots) ← parse_slots call.reads slots call.map
    run_slots slots calls

/-- MAX_PATH paths at most, all different, and NULL behind them in the array. -/
structure TableOk (slots : Slots) : Prop where
  size : slots.length = MAX_PATH + 1
  terminated : ∃ (paths : List CString) (rest : Slots), slots = paths.map some ++ none :: rest ∧
    paths.length ≤ MAX_PATH ∧ paths.Nodup

/-- The search paths that `loader_start` begins with. -/
def builtin_rpath : List CString :=
  [CString.lit "/lib".toList, CString.lit "/usr/lib".toList, CString.lit ".".toList]

def builtin_slots : Slots := builtin_rpath.map some ++ none :: List.replicate 7 none

/-- At every time of the run the table is in order, and no store of a call
has been outside it. -/
structure TableSafe (calls : List Call) : Prop where
  ok : ∀ pre post slots, calls = pre ++ post → run_slots builtin_slots pre = .ok slots →
    TableOk slots
  inside : ∀ pre post, calls = pre ++ post → NoOverflow (run_slots builtin_slots pre)

/-- Each call that gets to the `DT_RPATH` entries of its map has room for them. -/
def AlwaysRoom (calls : List Call) : Prop :=
  ∀ call ∈ calls, ReadsRpaths call.map → HasRoom call.rpath call.map.image

/-- The `DT_RPATH` strings of the maps are copied with their NULs. -/
def HeldCalls (calls : List Call) : Prop :=
  ∀ call ∈ calls, ∀ s ∈ rpathsIn call.map.image.strtab call.map.image.dynamic, Held s

section

variable {rpath last : List CString} {slots : Slots} {calls pre post : List Call} {call : Call}

theorem run_slots_append (slots : Slots) (pre post : List Call) :
    run_slots slots (pre ++ post) = run_slots slots pre >>= fun slots => run_slots slots post := by
  induction pre generalizing slots with
  | nil => rfl
  | cons call pre ih =>
    rw [List.cons_append, run_slots, run_slots]
    cases parse_slots call.reads slots call.map with
    | error e => rfl
    | ok r => exact ih r.2

/-- The paths are all different, MAX_PATH at most, and copied with their NULs. -/
structure PathsOk (rpath : List CString) : Prop where
  nodup : rpath.Nodup
  length : rpath.length ≤ MAX_PATH
  held : ∀ s ∈ rpath, Held s

section

variable {reads : Reads} {map map' : LinkMap} (hkeeps : KeepsHeld reads) (hok : PathsOk rpath)
  (hnew : ∀ s ∈ rpathsIn map.image.strtab map.image.dynamic, Held s)

include hkeeps hok hnew

theorem PathsOk.parsed (h : parse_dynamic reads rpath map = .ok (map', last)) : PathsOk last := by
  simp only [parse_dynamic, bind_eq_ok] at h
  obtain ⟨_, _, map1, hindex, strtab, _, rpath1, hadd, map2, _, ⟨⟩, _, h⟩ := h
  cases h
  rw [index_dynamic_ok hindex] at hadd
  obtain ⟨hnodup, hlen⟩ := add_rpaths_nodup hkeeps ⟨hok.held, hnew⟩ hok.nodup hok.length hadd
  refine ⟨hnodup, hlen, fun s hs => ?_⟩
  exact (add_rpaths_mem hadd s hs).elim (hok.held s) (hnew s)

/-- A call on the array overflows it exactly if there is no room for the entries. -/
theorem parse_slots_overflows_iff (hslots : HoldsPaths slots rpath) :
    parse_slots reads slots map = .error (.fault .rpathIndex) ↔
      ReadsRpaths map ∧ ¬ HasRoom rpath map.image := by
  rw [← parse_dynamic_overflows_iff hkeeps ⟨hok.held, hnew⟩ hok.nodup hok.length]
  have hrefines := parse_slots_refines reads hslots map
  cases hparse : parse_dynamic reads rpath map with
  | error e =>
    rw [hparse] at hrefines
    rw [show parse_slots reads slots map = .error e from hrefines]
    simp
  | ok r =>
    rw [hparse] at hrefines
    obtain ⟨slots', hparse', _⟩ := hrefines
    simp [hparse']

/-- A call that returns leaves the array in order. -/
theorem parse_slots_tableOk {slots' : Slots} (hslots : HoldsPaths slots rpath)
    (h : parse_slots reads slots map = .ok (map', slots')) : TableOk slots' := by
  have hrefines := parse_slots_refines reads hslots map
  cases hparse : parse_dynamic reads rpath map with
  | error e =>
    rw [hparse] at hrefines
    rw [show parse_slots reads slots map = .error e from hrefines] at h
    cases h
  | ok r =>
    rw [hparse] at hrefines
    obtain ⟨_, hparse', hsize, rest, hheld⟩ := hrefines
    rw [hparse'] at h
    cases h
    have hok' := hok.parsed hkeeps hnew hparse
    exact ⟨hsize, r.2, rest, hheld, hok'.length, hok'.nodup⟩

end

/-- Calls that return leave an array with the paths that they leave in the list. -/
theorem Returns.leaves (h : Returns rpath calls last) (hslots : HoldsPaths slots rpath)
    (hok : PathsOk rpath) (hheld : HeldCalls calls) :
    ∃ slots', run_slots slots calls = .ok slots' ∧ HoldsPaths slots' last ∧ PathsOk last := by
  induction h generalizing slots with
  | nil => exact ⟨slots, rfl, hslots, hok⟩
  | @cons rpath rpath1 last map' calls call _ hparse _ ih =>
    have hok1 := hok.parsed call.keeps (hheld call List.mem_cons_self) hparse
    have hrefines := parse_slots_refines call.reads hslots call.map
    rw [hparse] at hrefines
    obtain ⟨slots1, hparse', hslots1⟩ := hrefines
    rw [run_slots, hparse']
    exact ih hslots1 hok1 fun c hc => hheld c (List.mem_cons_of_mem _ hc)

theorem Returns.split (h : Returns rpath (pre ++ call :: post) last) :
    Returns rpath pre call.rpath := by
  induction pre generalizing rpath with
  | nil =>
    cases h with
    | cons _ hrpath =>
      rw [hrpath]
      exact .nil _
  | cons c pre ih =>
    cases h with
    | cons _ hrpath hparse hrest => exact .cons c hrpath hparse (ih hrest)

/-- The calls before a call have returned, and have left what it finds. -/
theorem Chain.split (h : Chain rpath (pre ++ call :: post)) : Returns rpath pre call.rpath := by
  generalize hcalls : pre ++ call :: post = calls at h
  cases h with
  | returns h =>
    rw [← hcalls] at h
    exact h.split
  | @stops last before c hrpath h =>
    rcases List.eq_nil_or_concat post with rfl | ⟨post', d, rfl⟩
    · obtain ⟨rfl, hcall⟩ := List.append_inj' hcalls rfl
      cases hcall
      rw [hrpath]
      exact h
    · rw [List.concat_eq_append, ← List.cons_append, ← List.append_assoc] at hcalls
      obtain ⟨rfl, _⟩ := List.append_inj' hcalls rfl
      exact h.split

end

theorem builtin_slots_hold : HoldsPaths builtin_slots builtin_rpath := ⟨by decide, _, rfl⟩

theorem builtin_rpath_ok : PathsOk builtin_rpath := ⟨by decide, by decide, by decide⟩

section

variable {calls pre post : List Call} {call : Call} {slots : Slots}

/-- The table as a call of the run finds it. -/
theorem Chain.found (h : Chain builtin_rpath (pre ++ call :: post))
    (hheld : HeldCalls (pre ++ call :: post)) :
    ∃ slots, run_slots builtin_slots pre = .ok slots ∧ HoldsPaths slots call.rpath ∧
      PathsOk call.rpath :=
  h.split.leaves builtin_slots_hold builtin_rpath_ok
    fun c hc => hheld c (List.mem_append_left _ hc)

theorem run_slots_concat (h : run_slots builtin_slots pre = .ok slots) (call : Call) :
    run_slots builtin_slots (pre ++ [call]) =
      (parse_slots call.reads slots call.map).map Prod.snd := by
  rw [run_slots_append, h]
  simp only [bind, Except.bind, run_slots]
  cases parse_slots call.reads slots call.map <;> rfl

/-- While there is always room the table is in order. -/
theorem Chain.safe (h : Chain builtin_rpath (pre ++ post)) (hheld : HeldCalls (pre ++ post))
    (hroom : AlwaysRoom (pre ++ post)) :
    NoOverflow (run_slots builtin_slots pre) ∧
      ∀ slots, run_slots builtin_slots pre = .ok slots → TableOk slots := by
  rcases List.eq_nil_or_concat pre with rfl | ⟨before, call, rfl⟩
  · refine ⟨.ok _, ?_⟩
    intro slots hrun
    cases hrun
    exact ⟨by decide, builtin_rpath, _, rfl, by decide, by decide⟩
  · rw [List.concat_eq_append, List.append_assoc, List.singleton_append] at h hheld hroom
    rw [List.concat_eq_append]
    obtain ⟨slots, hrun, hslots, hok⟩ := h.found hheld
    have hnew := hheld call (by simp)
    rw [run_slots_concat hrun]
    cases hparse : parse_slots call.reads slots call.map with
    | error e =>
      refine ⟨?_, by simp [Except.map]⟩
      intro he
      cases he
      obtain ⟨hreads, hno⟩ :=
        (parse_slots_overflows_iff call.keeps hok hnew hslots).mp hparse
      exact hno (hroom call (by simp) hreads)
    | ok r =>
      refine ⟨.ok _, ?_⟩
      intro slots' hslots'
      cases hslots'
      exact parse_slots_tableOk call.keeps hok hnew hslots hparse

end

/-- In a run of the loader of which all `DT_RPATH` strings are copied with
their NULs, the table of search paths stays in order, and every store is
inside it, if and only if each object has room for its `DT_RPATH` entries when
it is parsed. -/
theorem the_search_path_table_is_safe_iff_there_is_always_room (host : Host) (sym : Symbols)
    (fuel : Nat) (pi : ProgramInfo) (w : Rtld) (hw : w._rpath = builtin_rpath)
    (hheld : HeldCalls (loader_main_calls host sym fuel pi w)) :
    TableSafe (loader_main_calls host sym fuel pi w) ↔
      AlwaysRoom (loader_main_calls host sym fuel pi w) := by
  have hchain := loader_main_chain host sym fuel pi w
  rw [hw] at hchain
  generalize loader_main_calls host sym fuel pi w = calls at hchain hheld
  constructor
  · intro hsafe call hmem hreads
    obtain ⟨pre, post, hcalls⟩ := List.append_of_mem hmem
    rw [hcalls] at hchain hheld
    obtain ⟨slots, hrun, hslots, hok⟩ := hchain.found hheld
    by_contra hroom
    have hover := (parse_slots_overflows_iff call.keeps hok (hheld call (by simp)) hslots).mpr
      ⟨hreads, hroom⟩
    -- The run up to this call has stored outside the table.
    refine hsafe.inside (pre ++ [call]) post (by rw [hcalls]; simp) ?_
    rw [run_slots_concat hrun, hover]
    rfl
  · intro hroom
    constructor
    · intro pre post slots hcalls hrun
      rw [hcalls] at hchain hroom hheld
      exact (hchain.safe hheld hroom).2 slots hrun
    · intro pre post hcalls
      rw [hcalls] at hchain hroom hheld
      exact (hchain.safe hheld hroom).1

/-- The loader starts with its own paths in the table. -/
def startWorld : Rtld := { programWorld with _rpath := builtin_rpath }

/-- The tables of an object with the search paths `a`, `b`, `a` again, and `/lib`. -/
def fewPathsImage : Image :=
  { emptyImage with
    dynamic := [⟨DT_STRTAB, 0x90⟩, ⟨DT_SYMTAB, 0xa0⟩, ⟨DT_RPATH, 1⟩, ⟨DT_RPATH, 3⟩, ⟨DT_RPATH, 1⟩,
      ⟨DT_RPATH, 5⟩]
    strtab := [0, 0x61, 0, 0x62, 0, 0x2f, 0x6c, 0x69, 0x62, 0] }

def fewPathsInfo : ProgramInfo := { programInfo with image := fewPathsImage }

theorem new_and_repeated_search_paths_leave_the_table_in_order :
    TableSafe (loader_main_calls programHost loaderSymbols 1 fewPathsInfo startWorld) ∧
      (loader_main_calls programHost loaderSymbols 1 fewPathsInfo startWorld).map (·.rpath.length) =
        [3, 5] := by
  have hheld : ∀ call ∈ loader_main_calls programHost loaderSymbols 1 fewPathsInfo startWorld,
      ∀ s ∈ rpathsIn call.map.image.strtab call.map.image.dynamic, Held s := by decide +kernel
  have hroom : ∀ call ∈ loader_main_calls programHost loaderSymbols 1 fewPathsInfo startWorld,
      (call.rpath ++ pathsTried call.rpath call.map.image.strtab
        call.map.image.dynamic).dedup.length ≤ MAX_PATH := by decide +kernel
  refine ⟨(the_search_path_table_is_safe_iff_there_is_always_room programHost loaderSymbols 1
    fewPathsInfo startWorld rfl hheld).mpr ?_, by decide +kernel⟩
  intro call hmem _
  exact hroom call hmem

/-- The tables of an object with the eight search paths `a` to `h`. -/
def eightPathsImage : Image :=
  { emptyImage with
    dynamic := [⟨DT_STRTAB, 0x90⟩, ⟨DT_SYMTAB, 0xa0⟩, ⟨DT_RPATH, 1⟩, ⟨DT_RPATH, 3⟩, ⟨DT_RPATH, 5⟩,
      ⟨DT_RPATH, 7⟩, ⟨DT_RPATH, 9⟩, ⟨DT_RPATH, 11⟩, ⟨DT_RPATH, 13⟩, ⟨DT_RPATH, 15⟩]
    strtab := [0, 0x61, 0, 0x62, 0, 0x63, 0, 0x64, 0, 0x65, 0, 0x66, 0, 0x67, 0, 0x68, 0] }

def eightPathsInfo : ProgramInfo := { programInfo with image := eightPathsImage }

/-- How a computation on the table has stopped. -/
def stopOf : Except Stop Slots → Option Stop
  | .ok _ => none
  | .error e => some e

/-- The eighth path is stored in the last slot, and the NULL behind it is not
in the table any more. -/
theorem eight_new_search_paths_overflow_the_table :
    startWorld._rpath = builtin_rpath ∧
      ¬ TableSafe (loader_main_calls programHost loaderSymbols 1 eightPathsInfo startWorld) := by
  refine ⟨rfl, ?_⟩
  intro hsafe
  have hover : stopOf (run_slots builtin_slots
      (loader_main_calls programHost loaderSymbols 1 eightPathsInfo startWorld)) =
        some (.fault .rpathIndex) := by decide +kernel
  have hinside := hsafe.inside _ [] (List.append_nil _).symm
  cases hrun : run_slots builtin_slots
      (loader_main_calls programHost loaderSymbols 1 eightPathsInfo startWorld) with
  | ok slots =>
    rw [hrun] at hover
    cases hover
  | error e =>
    rw [hrun] at hover hinside
    cases hover
    exact hinside rfl

end elf_loader.rtld
