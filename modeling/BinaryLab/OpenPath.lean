-- The search for a library, with the buffer in which `open_path` puts the
-- paths together: a path of more than 1023 bytes is cut off, and another file
-- is opened, or none.
import BinaryLab.Deps
import BinaryLab.PrintfSafety

set_option linter.style.nameCheck false

open binary_lab.words binary_lab.texts elf_loader.lib

namespace elf_loader.load

/-! ## The search with its buffer -/

/-- The string at the start of a buffer. -/
def stringIn (buffer : Int → Byte) (size : Nat) : CString :=
  strAt ((List.range size).map fun i : Nat => buffer i) 0

/-- The format of a path. -/
def pathFormat : List Byte := (CString.lit "%s/%s".toList).bytes ++ [0]

/-- The arguments of the format. -/
def pathArgs (rpath soname : Addr) : VaList := fun n => if n = 0 then rpath else soname

/-- `open_path` over the slots of `GL(rpath)`, with what its buffer holds from
the path before. -/
def open_path_in (strs : Addr → CString) (fs : FileSystem) (soname : Addr) :
    (Int → Byte) → List Addr → Option (CString × File)
  | _, [] => none
  | namebuf, rpath :: slots =>
    if rpath = 0 then none
    else
      let namebuf := (dvsprintf strs namebuf 1024 pathFormat (pathArgs rpath soname)).1.bytes
      match fs.lookup (stringIn namebuf 1024) with
      | some file => some (stringIn namebuf 1024, file)
      | none => open_path_in strs fs soname namebuf slots

/-- The string that `%s` puts for a pointer. -/
def stringOf (strs : Addr → CString) (p : Addr) : CString := va_str strs fun _ => p

/-- The search paths in front of the NULL. -/
def rpathsOf (strs : Addr → CString) (slots : List Addr) : List CString :=
  (slots.takeWhile (· ≠ 0)).map strs

/-! ## The buffer -/

section

variable {strs : Addr → CString}

/-- Without a width, only a string that fills the buffer can have padding. -/
theorem take_padded (front cs rest : List Byte) :
    (front ++ (cs ++ paddingFor (ch ' ') 0 cs ++ rest)).take 1023 =
      (front ++ (cs ++ rest)).take 1023 := by
  rcases Nat.lt_or_ge cs.length 1023 with hlt | hge
  · have hnone : paddingFor (ch ' ') 0 cs = [] := by
      rw [paddingFor_eq _ (by decide) (by decide) (by omega)]
      simp
    rw [hnone, List.append_nil]
  · have hfull : 1023 ≤ (front ++ cs).length := by
      rw [List.length_append]
      omega
    rw [List.append_assoc, ← List.append_assoc front cs, ← List.append_assoc front cs,
      List.take_append_of_le_length hfull, List.take_append_of_le_length hfull]

/-- The text of a path, with room for 1023 characters. -/
theorem render_path (strs : Addr → CString) (rpath soname : Addr) :
    render 1023 (formatPieces strs pathFormat (pathArgs rpath soname)) =
      (namebuf (stringOf strs rpath) (stringOf strs soname)).bytes := by
  let first := (stringOf strs rpath).bytes
  let second := (stringOf strs soname).bytes
  have hpieces : formatPieces strs pathFormat (pathArgs rpath soname) =
      [first ++ paddingFor (ch ' ') 0 first, [ch '/'],
        second ++ paddingFor (ch ' ') 0 second].map .plain := rfl
  have hfirst := take_padded [] first ([ch '/'] ++ (second ++ paddingFor (ch ' ') 0 second))
  have hsecond := take_padded (first ++ [ch '/']) second []
  simp only [List.nil_append, List.append_nil, List.append_assoc] at hfirst hsecond
  rw [hpieces, render_plain]
  simp only [List.flatten_cons, List.flatten_nil, List.append_nil, List.append_assoc]
  rw [hfirst, hsecond]
  rfl

/-- The C string in the buffer is the text, if there is no NUL in it. -/
theorem stringIn_dvsprintf {bytes : Int → Byte} {size : Nat} {format : List Byte} {va : VaList}
    (hsize : 1 ≤ size) {value : Int} (hvalue : (dvsprintf strs bytes size format va).2 = some value)
    (hnone : 0 ∉ render (size - 1) (formatPieces strs format va)) :
    (stringIn (dvsprintf strs bytes size format va).1.bytes size).bytes =
      render (size - 1) (formatPieces strs format va) := by
  obtain ⟨hwritten, hend⟩ := @dvsprintf.spec strs bytes size format va hsize
  have hnul := (hend value hvalue).2
  have hroom := hwritten.valid.size
  have htext := @dvsprintf.text strs bytes size format va hsize
  rw [← htext] at hnone ⊢
  generalize (dvsprintf strs bytes size format va).1 = o at hnul hroom hnone ⊢
  have hlength : o.current_size < ((List.range size).map fun i : Nat => o.bytes i).length := by
    rw [List.length_map, List.length_range]
    exact hroom
  have htake : ((List.range size).map fun i : Nat => o.bytes i).take o.current_size = o.text := by
    rw [← List.map_take, List.take_range, Nat.min_eq_left (Nat.le_of_succ_le hroom), Out.text]
  have hdrop := List.drop_eq_getElem_cons hlength
  rw [List.getElem_map, List.getElem_range, hnul] at hdrop
  simp only [stringIn, strAt, List.drop_zero]
  rw [← List.take_append_drop o.current_size (List.map _ _), htake, hdrop,
    List.takeWhile_append_of_pos]
  · simp
  · intro c hc
    have hne : c ≠ 0 := fun h => hnone (h ▸ hc)
    simpa using hne

/-- What `dsnprintf` leaves in the buffer of a path. -/
theorem stringIn_path (bytes : Int → Byte) (rpath soname : Addr) :
    stringIn (dvsprintf strs bytes 1024 pathFormat (pathArgs rpath soname)).1.bytes 1024 =
      namebuf (stringOf strs rpath) (stringOf strs soname) := by
  have hstop : (fmt_loop strs 1024
      { out := Out.start bytes, va := pathArgs rpath soname, mode := .text } pathFormat).2 =
        some [] := by
    rw [pathFormat, fmt_loop_stops _ _ _ (CString.no_nul _)]
    rfl
  obtain ⟨value, hvalue⟩ := dvsprintf.value_of_stop hstop
  have hrender := render_path strs rpath soname
  apply CString.ext
  rw [stringIn_dvsprintf (by decide) hvalue, hrender]
  rw [hrender]
  exact (namebuf _ _).no_nul

/-- The search with the buffer is the search with paths of at most 1023 bytes. -/
theorem open_path_in_eq (strs : Addr → CString) (fs : FileSystem) (soname : Addr)
    (buffer : Int → Byte) (slots : List Addr) :
    open_path_in strs fs soname buffer slots =
      open_path fs (stringOf strs soname) (rpathsOf strs slots) := by
  induction slots generalizing buffer with
  | nil => rfl
  | cons rpath slots ih =>
    unfold open_path_in
    by_cases hnull : rpath = 0
    · simp [rpathsOf, hnull, open_path]
    · have hstring : stringOf strs rpath = strs rpath := if_neg hnull
      have hrpaths : rpathsOf strs (rpath :: slots) = strs rpath :: rpathsOf strs slots := by
        rw [rpathsOf, List.takeWhile_cons_of_pos (by simpa using hnull)]
        rfl
      rw [if_neg hnull, hrpaths, open_path]
      cases hfile : fs.lookup (namebuf (strs rpath) (stringOf strs soname)) with
      | none => simp [stringIn_path, hstring, hfile, ih]
      | some file => simp [stringIn_path, hstring, hfile]

end

/-! ## The first path that can be opened -/

/-- The whole path of a name. -/
def exactPath (rpath soname : CString) : CString where
  bytes := rpath.bytes ++ 0x2f :: soname.bytes
  no_nul := by
    rw [List.mem_append, List.mem_cons, not_or, not_or]
    exact ⟨rpath.no_nul, by decide, soname.no_nul⟩

/-- A path as far as the buffer has room for it. -/
def cutPath (path : CString) : CString where
  bytes := path.bytes.take 1023
  no_nul := fun h => path.no_nul (List.mem_of_mem_take h)

/-- A path with its file, if it can be opened. -/
def opened (fs : FileSystem) (path : CString) : Option (CString × File) :=
  (fs.lookup path).map (path, ·)

/-- The first of the paths that can be opened. -/
def firstOpened (fs : FileSystem) (paths : List CString) : Option (CString × File) :=
  paths.findSome? (opened fs)

/-- When the first path that can be opened is not missed. Of the first one that
can be opened as it is or cut off, nothing is cut off; or it can be opened cut
off only, and that is the first path behind it that can be opened. -/
def FirstFits (fs : FileSystem) : List CString → Prop
  | [] => True
  | path :: paths =>
    if (fs.lookup path).isNone ∧ (fs.lookup (cutPath path)).isNone then FirstFits fs paths
    else path.bytes.length ≤ 1023 ∨
      (fs.lookup path).isNone ∧
        paths.find? (fun p => (fs.lookup p).isSome) = some (cutPath path)

section

variable {fs : FileSystem} {path path' : CString} {file : File} {paths : List CString}

theorem opened_eq_some :
    opened fs path = some (path', file) ↔ path' = path ∧ fs.lookup path = some file := by
  rw [opened, Option.map_eq_some_iff]
  constructor
  · rintro ⟨f, hf, heq⟩
    cases heq
    exact ⟨rfl, hf⟩
  · rintro ⟨rfl, hfile⟩
    exact ⟨file, hfile, rfl⟩

theorem firstOpened_eq (fs : FileSystem) (paths : List CString) :
    firstOpened fs paths = (paths.find? fun p => (fs.lookup p).isSome).bind (opened fs) := by
  unfold firstOpened
  induction paths with
  | nil => rfl
  | cons p ps ih =>
    rw [List.findSome?_cons, List.find?_cons]
    cases hp : fs.lookup p with
    | none => simpa [opened, hp] using ih
    | some f => simp [opened, hp]

theorem cutPath_of_le (h : path.bytes.length ≤ 1023) : cutPath path = path :=
  CString.ext (List.take_of_length_le h)

theorem cutPath_length (path : CString) : (cutPath path).bytes.length ≤ 1023 :=
  List.length_take_le 1023 _

/-- What the search opens is a path of at most 1023 bytes. -/
theorem firstOpened_cut_length (h : firstOpened fs (paths.map cutPath) = some (path, file)) :
    path.bytes.length ≤ 1023 := by
  obtain ⟨p, hp, hopened⟩ := List.exists_of_findSome?_eq_some h
  obtain ⟨q, _, rfl⟩ := List.mem_map.mp hp
  rw [(opened_eq_some.mp hopened).1]
  exact cutPath_length q

/-- The search with cut paths finds the first path exactly under the condition. -/
theorem firstOpened_cut_iff (fs : FileSystem) (paths : List CString) :
    firstOpened fs (paths.map cutPath) = firstOpened fs paths ↔ FirstFits fs paths := by
  induction paths with
  | nil => exact iff_of_true rfl trivial
  | cons p ps ih =>
    have hlength := cutPath_length p
    rw [FirstFits, List.map_cons]
    cases hp : fs.lookup p with
    | none =>
      have hwhole : firstOpened fs (p :: ps) = firstOpened fs ps := by
        simp [firstOpened, opened, hp]
      cases hcut : fs.lookup (cutPath p) with
      | none =>
        -- neither is there, and the search goes on
        have hcuts : firstOpened fs (cutPath p :: ps.map cutPath) =
            firstOpened fs (ps.map cutPath) := by
          simp [firstOpened, opened, hcut]
        rw [hwhole, hcuts, ih, if_pos ⟨rfl, rfl⟩]
      | some g =>
        -- only what the cut path names is there
        have hcuts : firstOpened fs (cutPath p :: ps.map cutPath) = some (cutPath p, g) := by
          simp [firstOpened, opened, hcut]
        have hlong : ¬p.bytes.length ≤ 1023 := by
          intro hle
          rw [cutPath_of_le hle, hp] at hcut
          cases hcut
        rw [hwhole, hcuts, if_neg (by simp), or_iff_right hlong, firstOpened_eq]
        constructor
        · intro heq
          obtain ⟨q, hq, hopened⟩ := Option.bind_eq_some_iff.mp heq.symm
          rw [hq, (opened_eq_some.mp hopened).1]
          exact ⟨rfl, rfl⟩
        · rintro ⟨_, hfind⟩
          rw [hfind, Option.bind_some]
          exact (opened_eq_some.mpr ⟨rfl, hcut⟩).symm
    | some f =>
      -- the path itself is there
      have hwhole : firstOpened fs (p :: ps) = some (p, f) := by
        simp [firstOpened, opened, hp]
      rw [hwhole, if_neg (by simp)]
      by_cases hle : p.bytes.length ≤ 1023
      · refine iff_of_true ?_ (Or.inl hle)
        rw [cutPath_of_le hle]
        simp [firstOpened, opened, hp]
      · refine iff_of_false ?_ (by simp [hle])
        rw [← List.map_cons]
        intro hcuts
        exact hle (firstOpened_cut_length hcuts)

theorem open_path_eq (fs : FileSystem) (soname : CString) (rpaths : List CString) :
    open_path fs soname rpaths =
      firstOpened fs ((rpaths.map fun rpath => exactPath rpath soname).map cutPath) := by
  induction rpaths with
  | nil => rfl
  | cons rpath rpaths ih =>
    have hbuf : namebuf rpath soname = cutPath (exactPath rpath soname) := rfl
    rw [open_path, hbuf, ih]
    cases hfile : fs.lookup (cutPath (exactPath rpath soname)) with
    | none => simp [firstOpened, opened, hfile]
    | some file => simp [firstOpened, opened, hfile]

end

/-- `open_path` opens the first of the exact paths that can be opened, and no
other file, exactly if no path that counts is too long for its buffer. -/
theorem open_path_opens_the_first_match_iff_it_fits (strs : Addr → CString) (fs : FileSystem)
    (soname : Addr) (buffer : Int → Byte) (slots : List Addr) :
    let paths := (rpathsOf strs slots).map fun rpath => exactPath rpath (stringOf strs soname)
    open_path_in strs fs soname buffer slots = firstOpened fs paths ↔ FirstFits fs paths := by
  intro paths
  rw [open_path_in_eq, open_path_eq]
  exact firstOpened_cut_iff fs paths

/-- A search path of 1022 bytes. -/
def longRpath : CString where
  bytes := List.replicate 1022 (ch 'd')
  no_nul := fun h => absurd (List.eq_of_mem_replicate h) (by decide)

/-- The pointer 1 points at the long search path, and 2 at the name `x`. -/
def longStrs : Addr → CString := fun p => if p = 1 then longRpath else CString.lit ['x']

/-- The path of the library with one character more than the buffer has room
for, and what is left of it. -/
def longPath : CString := exactPath longRpath (CString.lit ['x'])

def fileOf (b : Byte) : File where
  readable := true
  bytes := [b]
  image := emptyImage

/-- The library is there, but what is opened is its directory. -/
theorem open_path_opens_another_file_for_a_long_path :
    let fs : FileSystem := [(cutPath longPath, fileOf 1), (longPath, fileOf 2)]
    open_path_in longStrs fs 2 (fun _ => 0) [1, 0] = some (cutPath longPath, fileOf 1) ∧
      firstOpened fs [longPath] = some (longPath, fileOf 2) := by
  intro fs
  have hlength : longPath.bytes.length = 1024 := by
    rw [longPath, exactPath, List.length_append, longRpath, List.length_replicate]
    rfl
  have hne : longPath ≠ cutPath longPath := by
    intro h
    have hcut := cutPath_length longPath
    rw [← h, hlength] at hcut
    omega
  have hpaths : (rpathsOf longStrs [1, 0]).map
      (fun rpath => exactPath rpath (stringOf longStrs 2)) = [longPath] := rfl
  have hcut : fs.lookup (cutPath longPath) = some (fileOf 1) := List.lookup_cons_self
  have hwhole : fs.lookup longPath = some (fileOf 2) := by
    rw [List.lookup_cons, beq_false_of_ne hne]
    exact List.lookup_cons_self
  rw [open_path_in_eq, open_path_eq, hpaths]
  constructor
  · simp [firstOpened, opened, hcut]
  · simp [firstOpened, opened, hwhole]

end elf_loader.load
