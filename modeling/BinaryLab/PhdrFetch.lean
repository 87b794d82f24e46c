-- Where `map_object_fd` has the program headers from: the bytes that it has
-- read already, or a read of their own. Neither of them looks at how many
-- bytes of the table there are.
import BinaryLab.Copies
import BinaryLab.Startup

set_option linter.style.nameCheck false

open binary_lab.runs binary_lab.words

namespace elf_loader.load

open rtld

/-! ## The records of a file -/

/-- The program header whose bytes are at `off` in the file. -/
def recordAt (bytes : List Byte) (off : Nat) : Phdr :=
  phdrAt (filled ((bytes.drop off).take sizeofPhdr) fun _ => 0) 0

/-- The `n` records of the file from `off` on, if the file contains them all. -/
def recordsAt (bytes : List Byte) (off n : Nat) : Option (List Phdr) :=
  if n = 0 ∨ off + n * sizeofPhdr ≤ bytes.length then
    some ((List.range n).map fun i => recordAt bytes (off + i * sizeofPhdr))
  else none

/-- The records that the header of the file announces, if the file contains
the header up to `e_phnum` and all of the records. -/
def recordsOf (file : File) : Option (List Phdr) :=
  if 58 ≤ file.bytes.length then
    recordsAt file.bytes (fileHeader file).e_phoff.toNat (fileHeader file).e_phnum.toNat
  else none

/-! ## What the loader fetches -/

/-- The header that the loader works with, in the first bytes of the file. -/
def headerFound (host : Host) (file : File) (p : Ptr) : Ehdr :=
  ehdrOf (filled (file.bytes.take FILEBUF_SIZE) (host.stack p))

/-- `map_object_fd` up to the call of `parse_phdr`, for the map `p`. -/
def fetch_headers (host : Host) (file : File) (p : Ptr) : Except Stop (Ehdr × List Phdr) :=
  match __read file 0 FILEBUF_SIZE with
  | none => .error (.exit .readError)
  | some got =>
    let fb := filled got (host.stack p)
    let header := ehdrOf fb
    if header.e_type ≠ ET_DYN ∧ header.e_type ≠ ET_EXEC then
      .error (.exit (.unsupportedElfType header.e_type.toNat))
    else do
      let phdr ← fetch_phdr (host.alloca p) file fb got.length header
      .ok (header, phdr)

/-- `map_object_fd` fetches the headers, and goes on with what it has. -/
theorem map_object_fd_eq (host : Host) (file : File) (realname : CString) (w : Rtld) :
    map_object_fd host file realname w = (do
      let (header, phdr) ← fetch_headers host file w.maps.length
      let l := init_link_map (host.heap w.maps.length) file.image
      let (l, rpath, proc) ← load_object host file realname header phdr l w
      .ok (w.maps.length, { w with maps := w.maps ++ [l], _rpath := rpath, proc })) := by
  unfold map_object_fd fetch_headers
  cases __read file 0 FILEBUF_SIZE with
  | none => rfl
  | some got =>
    simp only
    split_ifs
    · rfl
    · rw [bind_assoc]
      rfl

/-- The program headers are the records of the file, and without them the
loader dies. -/
structure FetchesRecords (host : Host) (file : File) (p : Ptr) : Prop where
  exact : ∀ header phdr records, fetch_headers host file p = .ok (header, phdr) →
    recordsOf file = some records → phdr = records
  dies : recordsOf file = none → ∃ e, fetch_headers host file p = .error (.exit e)

/-! ## The bytes of a record -/

section

variable {buf buf' before : Bytes} {got bytes : List Byte} {a : Addr} {n off : Nat}

theorem read64_shift (buf : Bytes) (a b : Addr) :
    read64 (fun x => buf (a + x)) b = read64 buf (a + b) := by
  simp only [read64, BitVec.add_assoc]

theorem read32_shift (buf : Bytes) (a b : Addr) :
    read32 (fun x => buf (a + x)) b = read32 buf (a + b) := by
  simp only [read32, BitVec.add_assoc]

theorem phdrAt_shift (buf : Bytes) (a : Addr) : phdrAt buf a = phdrAt (fun x => buf (a + x)) 0 := by
  have hzero : a + 0 = a := BitVec.add_zero a
  simp only [phdrAt, read64_shift, read32_shift, hzero]
  rfl

/-- A program header is made of 56 bytes. -/
theorem phdrAt_zero_congr
    (h : ∀ k < sizeofPhdr, buf' (BitVec.ofNat 64 k) = buf (BitVec.ofNat 64 k)) :
    phdrAt buf' 0 = phdrAt buf 0 := by
  have hsame : ∀ (b : Addr) (n : Nat), b.toNat + n ≤ sizeofPhdr → SameOn buf buf' b.toNat n := by
    intro b n hn x hx
    have hk := h x.toNat (by unfold Within at hx; omega)
    rwa [BitVec.ofNat_toNat, BitVec.setWidth_eq] at hk
  have h64 : ∀ b : Addr, b.toNat + 8 ≤ sizeofPhdr → read64 buf' b = read64 buf b :=
    fun b hb => read64_same (hsame b 8 hb) (by unfold sizeofPhdr at hb; omega)
  have h32 : ∀ b : Addr, b.toNat + 4 ≤ sizeofPhdr → read32 buf' b = read32 buf b :=
    fun b hb => read32_same (hsame b 4 hb) (by unfold sizeofPhdr at hb; omega)
  have hzero : ∀ b : Addr, 0 + b = b := BitVec.zero_add
  simp only [phdrAt, hzero]
  rw [h32 0 (by decide), h32 4 (by decide), h64 8 (by decide), h64 16 (by decide),
    h64 32 (by decide), h64 40 (by decide), h64 48 (by decide)]

/-- An entry that lies in the bytes read is a record of them. -/
theorem phdrAt_filled (before : Bytes) (ha : a.toNat + sizeofPhdr ≤ got.length)
    (hlen : got.length < 2 ^ 64) : phdrAt (filled got before) a = recordAt got a.toNat := by
  rw [phdrAt_shift, recordAt]
  apply phdrAt_zero_congr
  intro k hk
  have hplace : (a + BitVec.ofNat 64 k).toNat = a.toNat + k := toNat_add_ofNat (by omega)
  have hsmall : (BitVec.ofNat 64 k).toNat = k := by
    rw [BitVec.toNat_ofNat]
    exact Nat.mod_eq_of_lt (by omega)
  have hinside : a.toNat + k < got.length := by omega
  have hleft : got[a.toNat + k]? = some got[a.toNat + k] := List.getElem?_eq_getElem hinside
  have hright : ((got.drop a.toNat).take sizeofPhdr)[k]? = some got[a.toNat + k] := by
    rw [List.getElem?_take_of_lt hk, List.getElem?_drop, hleft]
  simp only [filled, hplace, hsmall]
  rw [List.getD_eq_getElem?_getD, List.getD_eq_getElem?_getD, hleft, hright]
  rfl

theorem recordAt_take (h : off + sizeofPhdr ≤ n) :
    recordAt (bytes.take n) off = recordAt bytes off := by
  rw [recordAt, List.drop_take, List.take_take, Nat.min_eq_left (by omega), ← recordAt]

theorem recordAt_drop (bytes : List Byte) (n off : Nat) :
    recordAt (bytes.drop n) off = recordAt bytes (n + off) := by
  rw [recordAt, List.drop_drop, ← recordAt]

/-- An entry ends in its table. -/
theorem record_in_table {i : Nat} (hi : i < n) :
    i * sizeofPhdr + sizeofPhdr ≤ n * sizeofPhdr := by
  unfold sizeofPhdr
  omega

/-- A table that lies in the bytes read gives the records of them. -/
theorem phdrsAt_filled (before : Bytes) (ha : n = 0 ∨ a.toNat + n * sizeofPhdr ≤ got.length)
    (hlen : got.length < 2 ^ 64) : phdrsAt (filled got before) a n =
      (List.range n).map fun i => recordAt got (a.toNat + i * sizeofPhdr) := by
  rw [phdrsAt]
  apply List.map_congr_left
  intro i hi
  have hi := List.mem_range.mp hi
  have hin : a.toNat + i * sizeofPhdr + sizeofPhdr ≤ got.length := by
    have := record_in_table hi
    omega
  have hplace : (a + BitVec.ofNat 64 (i * sizeofPhdr)).toNat = a.toNat + i * sizeofPhdr :=
    toNat_add_ofNat (by omega)
  rw [phdrAt_filled before (by rw [hplace]; exact hin) hlen, hplace]

end

/-! ## The two ways -/

section

variable {file : File} {header : Ehdr} {records phdr : List Phdr}

/-- If the file contains the table, both ways give the records of the file. -/
theorem fetch_phdr_records {alloca before : Bytes} (hread : file.readable = true)
    (hsize : file.bytes.length < 2 ^ 63)
    (hrecords : recordsAt file.bytes header.e_phoff.toNat header.e_phnum.toNat = some records) :
    fetch_phdr alloca file (filled (file.bytes.take FILEBUF_SIZE) before)
      (file.bytes.take FILEBUF_SIZE).length header = .ok records := by
  rw [recordsAt] at hrecords
  split_ifs at hrecords with hin
  cases hrecords
  have hn := header.e_phnum.isLt
  unfold fetch_phdr
  simp only [__read, hread, if_true]
  rcases Nat.eq_zero_or_pos header.e_phnum.toNat with hzero | hpos
  · simp [hzero, phdrsAt]
  · replace hin := hin.resolve_left (Nat.ne_of_gt hpos)
    have hend : (header.e_phoff + BitVec.ofNat 64 (header.e_phnum.toNat * sizeofPhdr)).toNat =
        header.e_phoff.toNat + header.e_phnum.toNat * sizeofPhdr := toNat_add_ofNat (by omega)
    have hlen : (BitVec.ofNat 64 (file.bytes.take FILEBUF_SIZE).length).toNat =
        (file.bytes.take FILEBUF_SIZE).length := by
      rw [BitVec.toNat_ofNat]
      exact Nat.mod_eq_of_lt (by rw [List.length_take]; omega)
    have htaken : (file.bytes.take FILEBUF_SIZE).length ≤ FILEBUF_SIZE := List.length_take_le _ _
    split_ifs with hbuf
    · rw [BitVec.le_def, hend, hlen] at hbuf
      rw [phdrsAt_filled before (.inr hbuf) (by omega)]
      refine congrArg Except.ok (List.map_congr_left ?_)
      intro i hi
      have := record_in_table (List.mem_range.mp hi)
      exact recordAt_take (by omega)
    · have hseek : __lseek (file.bytes.take FILEBUF_SIZE).length header.e_phoff =
          header.e_phoff.toNat := if_pos (by omega)
      rw [hseek, phdrsAt_filled alloca (.inr ?_) ?_]
      · refine congrArg Except.ok (List.map_congr_left ?_)
        intro i hi
        have := record_in_table (List.mem_range.mp hi)
        have hstart : (0 : Addr).toNat + i * sizeofPhdr = i * sizeofPhdr := Nat.zero_add _
        rw [hstart, recordAt_take this, recordAt_drop]
      · rw [List.length_take, List.length_drop]
        simp
        omega
      · rw [List.length_take]
        omega

/-- Nothing stops a fetch from a file that can be read. -/
theorem fetch_phdr_ok (alloca fb : Bytes) (len : Nat) (header : Ehdr)
    (hread : file.readable = true) :
    ∃ phdr, fetch_phdr alloca file fb len header = .ok phdr := by
  unfold fetch_phdr
  simp only [__read, hread, if_true]
  split_ifs
  · exact ⟨_, rfl⟩
  · exact ⟨_, rfl⟩

end

/-! ## When the entries are those of the file -/

/-- The loader takes objects of this type. -/
def Supported (e_type : BitVec 16) : Prop := e_type = ET_DYN ∨ e_type = ET_EXEC

instance (e_type : BitVec 16) : Decidable (Supported e_type) := inferInstanceAs (Decidable (_ ∨ _))

section

variable {host : Host} {file : File} {p : Ptr}

theorem fetch_headers_unreadable (host : Host) (p : Ptr) (h : file.readable = false) :
    fetch_headers host file p = .error (.exit .readError) := by
  unfold fetch_headers __read
  rw [h]
  rfl

theorem fetch_headers_unsupported (hread : file.readable = true)
    (h : ¬ Supported (headerFound host file p).e_type) :
    fetch_headers host file p =
      .error (.exit (.unsupportedElfType (headerFound host file p).e_type.toNat)) := by
  unfold fetch_headers __read
  simp only [hread, if_true, List.drop_zero]
  exact if_pos (not_or.mp h)

theorem fetch_headers_supported (hread : file.readable = true)
    (h : Supported (headerFound host file p).e_type) :
    fetch_headers host file p = (do
      let phdr ← fetch_phdr (host.alloca p) file
        (filled (file.bytes.take FILEBUF_SIZE) (host.stack p))
        (file.bytes.take FILEBUF_SIZE).length (headerFound host file p)
      .ok (headerFound host file p, phdr)) := by
  have htype : ¬ ((headerFound host file p).e_type ≠ ET_DYN ∧
      (headerFound host file p).e_type ≠ ET_EXEC) := by
    rw [← not_or]
    exact not_not.mpr h
  unfold fetch_headers __read
  simp only [hread, if_true, List.drop_zero]
  exact if_neg htype

/-- The records are there only if the header is, and then the loader works with it. -/
theorem headerFound_of_records (host : Host) (p : Ptr) {records : List Phdr}
    (h : recordsOf file = some records) :
    headerFound host file p = fileHeader file ∧
      recordsAt file.bytes (fileHeader file).e_phoff.toNat (fileHeader file).e_phnum.toNat =
        some records := by
  rw [recordsOf] at h
  split_ifs at h with hlen
  exact ⟨ehdrOf_filled (host.stack p) hlen, h⟩

end

/-- The entries that go to `parse_phdr` are the records of the file, and the
loader dies without them, if and only if it dies before it fetches them or the
file contains the header and all of the table. A file is shorter than 2^63 bytes. -/
theorem the_program_headers_are_records_iff_the_file_contains_them (host : Host) (file : File)
    (p : Ptr) (hsize : file.bytes.length < 2 ^ 63) :
    FetchesRecords host file p ↔
      file.readable = false ∨ ¬ Supported (headerFound host file p).e_type ∨
        (recordsOf file).isSome := by
  cases hread : file.readable with
  | false =>
    have hdies := fetch_headers_unreadable host p hread
    refine iff_of_true ⟨?_, fun _ => ⟨_, hdies⟩⟩ (.inl rfl)
    intro header phdr records hok
    rw [hdies] at hok
    cases hok
  | true =>
    rw [or_iff_right (by simp)]
    by_cases htype : Supported (headerFound host file p).e_type
    · rw [or_iff_right (not_not.mpr htype)]
      have hfetch := fetch_headers_supported hread htype
      cases hrecords : recordsOf file with
      | none =>
        refine iff_of_false ?_ (by simp)
        intro h
        obtain ⟨e, hdies⟩ := h.dies hrecords
        obtain ⟨phdr, hok⟩ := fetch_phdr_ok (host.alloca p)
          (filled (file.bytes.take FILEBUF_SIZE) (host.stack p))
          (file.bytes.take FILEBUF_SIZE).length (headerFound host file p) hread
        rw [hfetch, hok] at hdies
        cases hdies
      | some records =>
        refine iff_of_true ⟨?_, by simp [hrecords]⟩ (by simp)
        intro header phdr records' hok hsame
        obtain ⟨hheader, hat⟩ := headerFound_of_records host p hrecords
        rw [hfetch, hheader, fetch_phdr_records hread hsize hat] at hok
        cases hok
        rw [hrecords] at hsame
        exact Option.some.inj hsame
    · have hdies := fetch_headers_unsupported hread htype
      refine iff_of_true ⟨?_, fun _ => ⟨_, hdies⟩⟩ (.inl htype)
      intro header phdr records hok
      rw [hdies] at hok
      cases hok

theorem the_program_headers_of_a_library_are_its_records :
    FetchesRecords abHost (libraryFile plainImage) 0 := by
  have hheader : fileHeader (libraryFile plainImage) = libraryHeader := libraryBytes_header
  have hlen : (libraryFile plainImage).bytes.length = 176 := libraryBytes_length
  refine (the_program_headers_are_records_iff_the_file_contains_them abHost
    (libraryFile plainImage) 0 (by rw [hlen]; decide)).mpr (.inr (.inr ?_))
  rw [recordsOf, hheader, hlen, if_pos (by decide), recordsAt, hlen]
  rfl

/-- The first 120 bytes of the library: the end of its second program header is missing. -/
def cutFile : File where
  readable := true
  bytes := libraryBytes.take 120
  image := plainImage

/-- The read of the table is short, and what it has not filled is taken for a
program header. -/
theorem a_missing_program_header_is_made_up :
    cutFile.bytes.length < 2 ^ 63 ∧ ¬ FetchesRecords abHost cutFile 0 := by
  have hlen : cutFile.bytes.length = 120 := by decide +kernel
  refine ⟨by rw [hlen]; decide, ?_⟩
  intro h
  have hmissing : recordsOf cutFile = none := by decide +kernel
  have hfetched : (fetch_headers abHost cutFile 0).toOption.isSome = true := by decide +kernel
  obtain ⟨e, hdies⟩ := h.dies hmissing
  rw [hdies] at hfetched
  cases hfetched

end elf_loader.load
