-- What a cracked file keeps of the original one. The six copies of `dump_elf`
-- overlap, so the order counts, and they read an input that was edited before:
-- the tables must not lie over a byte that is edited.
import BinaryLab.CrackedFile

set_option linter.style.nameCheck false

open binary_lab.runs binary_lab.words binary_lab.pages

namespace elf_clack

/-! ## The input -/

/-- The tables have entries of the usual sizes, and the tables, the segments
and the sections with data in the file are inside of it. -/
structure InsideFile (m : Bytes) (size : Nat) : Prop where
  header : sizeofEhdr ≤ size
  phoff : (EHDR m).e_phoff ≠ 0
  phentsize : (EHDR m).e_phentsize = 56
  shentsize : (EHDR m).e_shentsize = 64
  phdrs : (EHDR m).e_phoff.toNat + 56 * (EHDR m).e_phnum.toNat ≤ size
  shdrs : (EHDR m).e_shnum ≠ 0 → (EHDR m).e_shoff.toNat + 64 * (EHDR m).e_shnum.toNat ≤ size
  segments : ∀ i < (EHDR m).e_phnum.toNat,
    (phdrAt m (phdrOff m i)).p_offset.toNat + (phdrAt m (phdrOff m i)).p_filesz.toNat ≤ size
  sections : ∀ i < (EHDR m).e_shnum.toNat, (shdrAt m (shdrOff m i)).sh_type ≠ SHT_NOBITS →
    (shdrAt m (shdrOff m i)).sh_offset.toNat + (shdrAt m (shdrOff m i)).sh_size.toNat ≤ size

/-- What the output has behind the last end at most. -/
def tailLen (m : Bytes) : Nat :=
  0x200 + 1024 + 64 * (EHDR m).e_shnum.toNat + 56 * ((EHDR m).e_phnum.toNat + 1) + 64

/-- Neither `e_phnum` nor an offset in the output wraps. -/
structure NoWrap (m : Bytes) : Prop where
  phnum : (EHDR m).e_phnum.toNat + 1 < 2 ^ 16
  ends : EndsBelow m (tailLen m)

/-- The byte is in a field of the header that is edited: `e_entry`, `e_phoff` and
`e_shoff`, or `e_phnum`. -/
def InEditedField (x : Addr) : Prop := Within x 24 24 ∨ Within x 56 2

instance (x : Addr) : Decidable (InEditedField x) := inferInstanceAs (Decidable (_ ∨ _))

/-- The bytes of the input that stay as they are. Of the `PT_PHDR` entry only the
type and the flags do. -/
def Untouched (m : Bytes) (x : Addr) : Prop :=
  ¬ InEditedField x ∧ ∀ i < (EHDR m).e_phnum.toNat, IsPhdrEntry m i →
    ¬ Within x ((EHDR m).e_phoff.toNat + 56 * i + 8) 48

/-- No byte of the tables is edited, those of the `PT_PHDR` entry apart. -/
structure TablesUntouched (m : Bytes) : Prop where
  phdrs : ∀ k < 56 * (EHDR m).e_phnum.toNat,
    ¬ InEditedField ((EHDR m).e_phoff + BitVec.ofNat 64 k)
  shdrs : ∀ k < 64 * (EHDR m).e_shnum.toNat,
    Untouched m ((EHDR m).e_shoff + BitVec.ofNat 64 k)

/-- The tables lie behind the header and share no byte. -/
structure TablesApart (m : Bytes) : Prop where
  phdrs : (EHDR m).e_phnum ≠ 0 → sizeofEhdr ≤ (EHDR m).e_phoff.toNat
  shdrs : (EHDR m).e_shnum ≠ 0 → sizeofEhdr ≤ (EHDR m).e_shoff.toNat
  apart : (EHDR m).e_phnum ≠ 0 → (EHDR m).e_shnum ≠ 0 →
    (EHDR m).e_phoff.toNat + 56 * (EHDR m).e_phnum.toNat ≤ (EHDR m).e_shoff.toNat ∨
      (EHDR m).e_shoff.toNat + 64 * (EHDR m).e_shnum.toNat ≤ (EHDR m).e_phoff.toNat

/-- Behind the header no field is edited, and apart from the program headers none of them is. -/
theorem TablesApart.untouched {m : Bytes} {size : Nat} (h : TablesApart m)
    (hin : InsideFile m size) (hlt : size < 2 ^ 64) : TablesUntouched m := by
  have hfield : ∀ x : Addr, 64 ≤ x.toNat → ¬ InEditedField x := by
    intro x hx
    unfold InEditedField Within
    omega
  constructor
  · intro k hk
    have hne : (EHDR m).e_phnum ≠ 0 := by
      intro h0
      rw [h0] at hk
      exact absurd hk (Nat.not_lt_zero k)
    have hbehind : 64 ≤ (EHDR m).e_phoff.toNat := h.phdrs hne
    have hend := hin.phdrs
    apply hfield
    rw [toNat_add_ofNat (by omega)]
    omega
  · intro k hk
    have hne : (EHDR m).e_shnum ≠ 0 := by
      intro h0
      rw [h0] at hk
      exact absurd hk (Nat.not_lt_zero k)
    have hbehind : 64 ≤ (EHDR m).e_shoff.toNat := h.shdrs hne
    have hend := hin.shdrs hne
    have hx : ((EHDR m).e_shoff + BitVec.ofNat 64 k).toNat = (EHDR m).e_shoff.toNat + k :=
      toNat_add_ofNat (by omega)
    refine ⟨hfield _ (by omega), fun i hi _ hin => ?_⟩
    have hapart := h.apart (phnum_ne_zero hi) hne
    rw [Within, hx] at hin
    omega

/-- What `out` keeps of the input `m`, with the entry `new` for the new segment. -/
structure ProgramKept (m out : Bytes) (new : Elf64_Phdr) : Prop where
  /-- The header, less `e_entry`, `e_phoff`, `e_shoff` and `e_phnum`. -/
  header : ∀ x : Addr, x.toNat < sizeofEhdr → ¬ InEditedField x → out x = m x
  shdrs : ∀ k < 64 * (EHDR m).e_shnum.toNat,
    out ((EHDR out).e_shoff + BitVec.ofNat 64 k) = m ((EHDR m).e_shoff + BitVec.ofNat 64 k)
  phnum : (EHDR out).e_phnum.toNat = (EHDR m).e_phnum.toNat + 1
  /-- The fields of 64 bits of the `PT_PHDR` entry are rewritten. -/
  phdrs : ∀ i < (EHDR m).e_phnum.toNat, ∀ k < 56, ¬ (IsPhdrEntry m i ∧ 8 ≤ k) →
    out ((EHDR out).e_phoff + BitVec.ofNat 64 (56 * i + k)) =
      m ((EHDR m).e_phoff + BitVec.ofNat 64 (56 * i + k))
  newphdr : phdrAt out ((EHDR out).e_phoff + BitVec.ofNat 64 (56 * (EHDR m).e_phnum.toNat)) = new
  segments : ∀ i < (EHDR m).e_phnum.toNat, ∀ x,
    Within x (phdrAt m (phdrOff m i)).p_offset.toNat (phdrAt m (phdrOff m i)).p_filesz.toNat →
    sizeofEhdr ≤ x.toNat → ¬ Within x (EHDR m).e_phoff.toNat (56 * (EHDR m).e_phnum.toNat) →
    out x = m x
  sections : ∀ i < (EHDR m).e_shnum.toNat, (shdrAt m (shdrOff m i)).sh_type ≠ SHT_NOBITS → ∀ x,
    Within x (shdrAt m (shdrOff m i)).sh_offset.toNat (shdrAt m (shdrOff m i)).sh_size.toNat →
    sizeofEhdr ≤ x.toNat → ¬ Within x (EHDR m).e_phoff.toNat (56 * (EHDR m).e_phnum.toNat) →
    out x = m x

/-! ## The run -/

section

variable {w : World}

theorem InsideFile.shdrsLen_eq (h : InsideFile w.elf w.size) :
    shdrsLen w.elf = 64 * (EHDR w.elf).e_shnum.toNat := by
  rw [shdrsLen, h.shentsize]
  rfl

theorem InsideFile.phdrsLen_eq (h : InsideFile w.elf w.size) :
    phdrsLen w.elf = 56 * (EHDR w.elf).e_phnum.toNat := by
  rw [phdrsLen, h.phentsize]
  rfl

theorem InsideFile.sizes (h : InsideFile w.elf w.size) :
    shdrsLen w.elf + phdrsLen w.elf + (EHDR w.elf).e_phentsize.toNat < 2 ^ 31 := by
  have hsh := (EHDR w.elf).e_shnum.isLt
  have hph := (EHDR w.elf).e_phnum.isLt
  rw [h.shdrsLen_eq, h.phdrsLen_eq, h.phentsize, show (56 : BitVec 16).toNat = 56 from rfl]
  omega

theorem InsideFile.exeLen_eq (h : InsideFile w.elf w.size) :
    exeLen w.elf = (newOffset w.elf).toNat + 1024 + 64 * (EHDR w.elf).e_shnum.toNat +
      56 * ((EHDR w.elf).e_phnum.toNat + 1) + 64 := by
  rw [exeLen, h.shdrsLen_eq, h.phdrsLen_eq, h.phentsize, h.shentsize]
  rfl

/-- The new segment has room for the tables behind it. -/
theorem NoWrap.behind (h : NoWrap w.elf) :
    (newOffset w.elf).toNat + 1024 + 64 * (EHDR w.elf).e_shnum.toNat +
        56 * ((EHDR w.elf).e_phnum.toNat + 1) + 64 < 2 ^ 64 ∧
      ∀ e ∈ fileEnds w.elf, e.toNat ≤ (newOffset w.elf).toNat := by
  have hsh := (EHDR w.elf).e_shnum.isLt
  have hph := (EHDR w.elf).e_phnum.isLt
  have htail : tailLen w.elf = 0x200 + 1024 + 64 * (EHDR w.elf).e_shnum.toNat +
    56 * ((EHDR w.elf).e_phnum.toNat + 1) + 64 := rfl
  obtain ⟨_, hroom, hends⟩ := newOffset_behind h.ends (by omega) (by omega)
  exact ⟨by omega, hends⟩

theorem toNat_exe_length (crack_code : Nat → Byte) (hin : InsideFile w.elf w.size)
    (hwrap : NoWrap w.elf) : (exe_length (cracked crack_code w)).toNat = exeLen w.elf := by
  have hroom := hwrap.behind.1
  rw [← hin.exeLen_eq] at hroom
  rw [exe_length_eq hin.sizes hwrap.phnum, BitVec.toNat_ofNat, Nat.mod_eq_of_lt hroom]

/-- A part of the file can be copied. -/
theorem readable_of_inside {w' : World} (hsize : w'.size = w.size) {a : Addr} {n : Nat}
    (h : a.toNat + n ≤ w.size) : w'.readable n (.elf (some a)) = .ok () := by
  have hheld : w'.Holds a n := by
    unfold World.Holds
    rw [hsize]
    exact Nat.le_trans h (le_ceilNat (by decide))
  simp only [World.readable, if_pos (Or.inr hheld)]

/-- A table of whole entries that lies over no edited field is behind them. -/
theorem editedEnd_le {off : Addr} {n len : Nat} (hn : n ≠ 0) (hlen : 56 ≤ len)
    (h : ∀ k < len * n, ¬ InEditedField (off + BitVec.ofNat 64 k)) : editedEnd ≤ off.toNat := by
  by_contra hlt
  have hlt58 : off.toNat < 58 := Nat.not_le.mp hlt
  have hroom : len ≤ len * n := Nat.le_mul_of_pos_right len (Nat.pos_of_ne_zero hn)
  have hplace : ∀ k < 64, (off + BitVec.ofNat 64 k).toNat = off.toNat + k :=
    fun k hk => toNat_add_ofNat (by omega)
  by_cases hlow : off.toNat < 24
  · refine h (24 - off.toNat) (by omega) (.inl ?_)
    rw [Within, hplace _ (by omega)]
    omega
  by_cases hfields : off.toNat < 48
  · refine h 0 (by omega) (.inl ?_)
    rw [Within, hplace _ (by omega)]
    omega
  · refine h (57 - off.toNat) (by omega) (.inr ?_)
    rw [Within, hplace _ (by omega)]
    omega

theorem shnum_ne_zero {m : Bytes} (hnum : (EHDR m).e_shnum ≠ 0) : (EHDR m).e_shnum.toNat ≠ 0 :=
  fun h0 => hnum (BitVec.eq_of_toNat_eq h0)

theorem TablesUntouched.phoff {m : Bytes} (h : TablesUntouched m) {i : Nat}
    (hi : i < (EHDR m).e_phnum.toNat) : editedEnd ≤ (EHDR m).e_phoff.toNat :=
  editedEnd_le (Nat.ne_of_gt (Nat.zero_lt_of_lt hi)) le_rfl h.phdrs

theorem TablesUntouched.shoff {m : Bytes} (h : TablesUntouched m) (hnum : (EHDR m).e_shnum ≠ 0) :
    editedEnd ≤ (EHDR m).e_shoff.toNat :=
  editedEnd_le (shnum_ne_zero hnum) (by decide) fun k hk => (h.shdrs k hk).1

variable (hin : InsideFile w.elf w.size) (hlt : w.size < 2 ^ 64)
  (huntouched : TablesUntouched w.elf)

include huntouched in
theorem TablesUntouched.SHDR_eq (hnum : (EHDR w.elf).e_shnum ≠ 0) :
    SHDR w.elf 0 = some (EHDR w.elf).e_shoff := by
  have hbehind : 58 ≤ (EHDR w.elf).e_shoff.toNat := huntouched.shoff hnum
  rw [SHDR, if_neg, shdrOff, entryAt_eq, Nat.mul_zero, BitVec.add_zero]
  intro h0
  rw [h0] at hbehind
  exact absurd hbehind (by decide)

include hin hlt

theorem toNat_phdrOff {i : Nat} (hi : i < (EHDR w.elf).e_phnum.toNat) :
    (phdrOff w.elf i).toNat = (EHDR w.elf).e_phoff.toNat + 56 * i := by
  have hphdrs := hin.phdrs
  have hent : (EHDR w.elf).e_phentsize.toNat = 56 := by rw [hin.phentsize]; rfl
  rw [phdrOff, toNat_entryAt (by rw [hent]; omega), hent]

include huntouched

theorem workable : Workable w where
  size := hlt
  behind := by
    intro i hi
    have hphdrs := hin.phdrs
    have hoff := toNat_phdrOff hin hlt hi
    have hbehind := huntouched.phoff hi
    rw [hoff, sizeofPhdr]
    exact ⟨by omega, by omega⟩
  phentsize := by
    intro _
    rw [hin.phentsize]
    decide
  sizes := hin.sizes

/-- The cracker comes to its end if the output is not shorter than the input. -/
theorem cracked_to_its_end {crack_code : Nat → Byte} (hlisted : Listed w) (hwrap : NoWrap w.elf)
    (hfits : w.size ≤ (exe_length (cracked crack_code w)).toNat) :
    ∃ w5 out, create_exe (cracked crack_code w) = .ok (out, grow_segment w5) ∧
      Cracked crack_code w w5 out := by
  have hwork := workable hin hlt huntouched
  obtain ⟨w5, hok, hedited⟩ := edited.spec hwork.behind hlisted crack_code (newAddr w.elf)
    (newOffset w.elf) 1024
  have hsize : (grow_segment w5).size = w.size := hedited.size
  have hroom := hwrap.behind.1
  rw [← hin.exeLen_eq] at hroom
  rw [toNat_exe_length crack_code hin hwrap] at hfits
  have hinside := (hedited.inside_iff hwork (PHDR w.elf 0) (SHDR w.elf 0)).mpr
    ⟨hwrap.phnum, hroom, hfits⟩
  have hlayout := hedited.layout hin.sizes hwrap.phnum hroom
  have hzero : (0 : Addr).toNat = 0 := rfl
  have hread : ∀ c ∈ copies (PHDR w.elf 0) (SHDR w.elf 0) (grow_segment w5),
      (grow_segment w5).readable c.size.toNat c.src = .ok () := by
    simp only [copies, table_copies, List.forall_mem_cons]
    refine ⟨?_, rfl, ?_, ?_, ?_, rfl, fun _ hc => absurd hc List.not_mem_nil⟩
    · apply readable_of_inside hsize
      rw [hzero, hsize, BitVec.toNat_ofNat, Nat.mod_eq_of_lt hlt, Nat.zero_add]
    · apply readable_of_inside hsize
      rw [hzero, Nat.zero_add]
      exact hin.header
    · rw [hlayout.shdrs, hin.shdrsLen_eq]
      by_cases hnum : (EHDR w.elf).e_shnum = 0
      · rw [hnum]
        cases SHDR w.elf 0 <;> rfl
      · rw [huntouched.SHDR_eq hnum]
        exact readable_of_inside hsize (hin.shdrs hnum)
    · rw [hlayout.phdrs, hin.phdrsLen_eq]
      by_cases hnum : (EHDR w.elf).e_phnum = 0
      · rw [hnum]
        cases PHDR w.elf 0 <;> rfl
      · rw [hwork.PHDR_eq hnum]
        exact readable_of_inside hsize hin.phdrs
  have hrun : Cracked crack_code w w5 _ :=
    ⟨hwork, hlisted, hedited, fun c hc => ⟨hinside c hc, hread c hc⟩, rfl⟩
  exact ⟨w5, _, (create_exe_eq_ok hwork hlisted).mpr ⟨w5, rfl, hok, hrun⟩, hrun⟩

end

/-! ## What stays untouched -/

section

variable {w : World} {x : Addr}

/-- Outside the header and the program headers all is untouched. -/
theorem untouched_outside (hx : sizeofEhdr ≤ x.toNat)
    (hout : ¬ Within x (EHDR w.elf).e_phoff.toNat (56 * (EHDR w.elf).e_phnum.toNat)) :
    Untouched w.elf x := by
  have hge : 64 ≤ x.toNat := hx
  refine ⟨?_, ?_⟩
  · unfold InEditedField Within
    omega
  · intro i hi _ hin
    unfold Within at *
    omega

variable (huntouched : TablesUntouched w.elf)

include huntouched

/-- The fields of the `PT_PHDR` entry that are rewritten lie behind the header. -/
theorem untouched_header (hx : x.toNat < sizeofEhdr) (hfield : ¬ InEditedField x) :
    Untouched w.elf x := by
  refine ⟨hfield, ?_⟩
  intro i hi _ hin
  have hlt : x.toNat < 64 := hx
  have hle : 58 ≤ (EHDR w.elf).e_phoff.toNat := huntouched.phoff hi
  unfold Within at hin
  omega

theorem untouched_phdrs {i k : Nat} (hi : i < (EHDR w.elf).e_phnum.toNat) (hk : k < 56)
    (hkeep : ¬ (IsPhdrEntry w.elf i ∧ 8 ≤ k))
    (hend : (EHDR w.elf).e_phoff.toNat + 56 * (EHDR w.elf).e_phnum.toNat < 2 ^ 64) :
    Untouched w.elf ((EHDR w.elf).e_phoff + BitVec.ofNat 64 (56 * i + k)) := by
  refine ⟨huntouched.phdrs (56 * i + k) (by omega), ?_⟩
  intro j _ hentry hin
  rw [Within, toNat_add_ofNat (by omega)] at hin
  have hij : i = j := by omega
  subst hij
  exact hkeep ⟨hentry, by omega⟩

end

/-! ## The law -/

section

variable {w w5 : World} {crack_code : Nat → Byte} {out : Bytes}
  (h : Cracked crack_code w w5 out) (hin : InsideFile w.elf w.size)
  (huntouched : TablesUntouched w.elf)

include h

include hin in
theorem Cracked.same_of_untouched {x : Addr} (hx : Untouched w.elf x) : w5.elf x = w.elf x := by
  obtain ⟨h1, h2⟩ := not_or.mp hx.1
  apply h.edited.same x h1 h2
  intro i hi hentry
  rw [toNat_phdrOff hin h.input.size hi]
  exact hx.2 i hi hentry

include hin in
theorem Cracked.kept_old {x : Addr} (hlow : sizeofEhdr ≤ x.toNat)
    (hout : ¬ Within x (EHDR w.elf).e_phoff.toNat (56 * (EHDR w.elf).e_phnum.toNat))
    (hx : x.toNat < (newOffset w.elf).toNat) (hsize : x.toNat < w.size) : out x = w.elf x := by
  rw [h.first_byte hlow (.inl hx), if_pos hsize,
    h.same_of_untouched hin (untouched_outside hlow hout)]

include hin huntouched

theorem Cracked.kept_shdrs {k : Nat} (hk : k < 64 * (EHDR w.elf).e_shnum.toNat) :
    out ((EHDR out).e_shoff + BitVec.ofNat 64 k) =
      w.elf ((EHDR w.elf).e_shoff + BitVec.ofNat 64 k) := by
  have hne : (EHDR w.elf).e_shnum ≠ 0 := by
    intro h0
    rw [h0] at hk
    exact absurd hk (Nat.not_lt_zero k)
  have hend := hin.shdrs hne
  have hlt := h.input.size
  calc out ((EHDR out).e_shoff + BitVec.ofNat 64 k)
      = (grow_segment w5).sourceByte (.elf (SHDR w.elf 0)) k :=
        h.byte_shdrs (by rwa [hin.shdrsLen_eq])
    _ = w5.elf ((EHDR w.elf).e_shoff + BitVec.ofNat 64 k) := by
        rw [huntouched.SHDR_eq hne]
        rfl
    _ = w.elf ((EHDR w.elf).e_shoff + BitVec.ofNat 64 k) :=
        h.same_of_untouched hin (huntouched.shdrs k hk)

theorem Cracked.kept_phdrs {i k : Nat} (hi : i < (EHDR w.elf).e_phnum.toNat) (hk : k < 56)
    (hkeep : ¬ (IsPhdrEntry w.elf i ∧ 8 ≤ k)) :
    out ((EHDR out).e_phoff + BitVec.ofNat 64 (56 * i + k)) =
      w.elf ((EHDR w.elf).e_phoff + BitVec.ofNat 64 (56 * i + k)) := by
  have hend := hin.phdrs
  have hlt := h.input.size
  calc out ((EHDR out).e_phoff + BitVec.ofNat 64 (56 * i + k))
      = (grow_segment w5).sourceByte (.elf (PHDR w.elf 0)) (56 * i + k) :=
        h.byte_phdrs (by rw [hin.phdrsLen_eq]; omega)
    _ = w5.elf ((EHDR w.elf).e_phoff + BitVec.ofNat 64 (56 * i + k)) := by
        rw [h.input.PHDR_eq (phnum_ne_zero hi)]
        rfl
    _ = w.elf ((EHDR w.elf).e_phoff + BitVec.ofNat 64 (56 * i + k)) :=
        h.same_of_untouched hin (untouched_phdrs huntouched hi hk hkeep (by omega))

/-- The output keeps the program. -/
theorem Cracked.keeps (hwrap : NoWrap w.elf) :
    ProgramKept w.elf out (grow_segment w5).newphdr := by
  obtain ⟨hsegments, hsections⟩ := hwrap.ends.le_of_forall hwrap.behind.2
  exact {
    header := by
      intro x hx hfield
      rw [h.byte_header hx, h.same_of_untouched hin (untouched_header huntouched hx hfield)]
    shdrs := fun k => h.kept_shdrs hin huntouched
    phnum := h.phnum
    phdrs := fun i hi k hk => h.kept_phdrs hin huntouched hi hk
    newphdr := by
      have hentsize : (EHDR out).e_phentsize.toNat = 56 := by
        rw [h.EHDR_eq, h.edited.EHDR_eq, hin.phentsize]
        rfl
      have hnew := h.new_entry (by rw [hin.phentsize]; decide)
      rwa [phdrOff, entryAt_eq, hentsize] at hnew
    segments := by
      intro i hi x hx hlow hout
      have hend := hin.segments i hi
      have hbefore := hsegments i hi
      unfold Within at hx
      exact h.kept_old hin hlow hout (by omega) (by omega)
    sections := by
      intro i hi hbits x hx hlow hout
      have hend := hin.sections i hi hbits
      have hbefore := hsections i hi
      unfold Within at hx
      exact h.kept_old hin hlow hout (by omega) (by omega) }

end

/-- A cracked file keeps the program of the input, if the tables of the input
lie over no byte that is edited. -/
theorem cracking_keeps_the_program (heap : Heap) (crack_code : Nat → Byte) (file : List Byte)
    (w : World) (hanalyze : analyze (startup heap file) = .ok w)
    (hin : InsideFile w.elf w.size) (hwrap : NoWrap w.elf) (huntouched : TablesUntouched w.elf) :
    ∃ size w1, add_new_segment 1024 w = .ok (size, w1) ∧
      (w.size ≤ (exe_length (do_crack crack_code w1)).toNat →
        ∃ out w2, create_exe (do_crack crack_code w1) = .ok (out, w2) ∧
          w2.newphdr = { w1.newphdr with
            p_filesz := w2.newphdr.p_filesz
            p_memsz := w2.newphdr.p_filesz } ∧
          ProgramKept w.elf out w2.newphdr) := by
  obtain ⟨_, hlisted⟩ := analyze.spec hanalyze
  obtain ⟨size, hadd⟩ := add_new_segment_eq hlisted 1024
  refine ⟨size, _, hadd, ?_⟩
  intro hfits
  have hlt : w.size < 2 ^ 64 := Nat.lt_of_le_of_lt hfits (BitVec.isLt _)
  obtain ⟨w5, out, hexe, hrun⟩ := cracked_to_its_end hin hlt huntouched hlisted hwrap hfits
  refine ⟨out, grow_segment w5, hexe, ?_, hrun.keeps hin huntouched hwrap⟩
  simp only [grow_segment, hrun.edited.newphdr]

theorem smallFile_inside : InsideFile (startup zeroHeap smallFile).elf smallFile.length where
  header := by decide +kernel
  phoff := by decide +kernel
  phentsize := by decide +kernel
  shentsize := by decide +kernel
  phdrs := by decide +kernel
  shdrs := by decide +kernel
  segments := by decide +kernel
  sections := by decide +kernel

theorem smallFile_no_wrap : NoWrap (startup zeroHeap smallFile).elf where
  phnum := by decide +kernel
  ends := ⟨by decide +kernel, by decide +kernel⟩

theorem smallFile_apart : TablesApart (startup zeroHeap smallFile).elf where
  phdrs := by decide +kernel
  shdrs := by decide +kernel
  apart := by decide +kernel

theorem cracking_keeps_a_small_program :
    ∃ w size w1 out w2, analyze (startup zeroHeap smallFile) = .ok w ∧
      add_new_segment 1024 w = .ok (size, w1) ∧ w.size ≤ (exe_length (do_crack nops w1)).toNat ∧
      create_exe (do_crack nops w1) = .ok (out, w2) ∧ ProgramKept w.elf out w2.newphdr := by
  obtain ⟨w, hw, helf, hsize⟩ := analyze_of_isOk zeroHeap smallFile (by decide +kernel)
  have hin : InsideFile w.elf w.size := by
    rw [helf, hsize]
    exact smallFile_inside
  have hwrap : NoWrap w.elf := by
    rw [helf]
    exact smallFile_no_wrap
  have huntouched : TablesUntouched w.elf := by
    rw [helf] at hin ⊢
    exact smallFile_apart.untouched hin (by rw [hsize]; decide +kernel)
  obtain ⟨size, w1, hadd, hkept⟩ :=
    cracking_keeps_the_program zeroHeap nops smallFile w hw hin hwrap huntouched
  have hfits : w.size ≤ (exe_length (do_crack nops w1)).toNat := by
    obtain ⟨_, hmade⟩ := add_new_segment_eq (analyze.spec hw).2 1024
    rw [hadd] at hmade
    cases hmade
    have hlength := toNat_exe_length nops hin hwrap
    rw [cracked] at hlength
    rw [hlength, hsize, helf]
    decide +kernel
  obtain ⟨out, w2, hexe, _, hprogram⟩ := hkept hfits
  exact ⟨w, size, w1, out, w2, hw, hadd, hfits, hexe, hprogram⟩

/-- The program header lies over the end of the header, from `e_phnum` on. -/
def overlapFile : List Byte :=
  [0x7f, 0x45, 0x4c, 0x46, 2, 1, 1] ++ List.replicate 25 0 ++ number 8 56 ++
    List.replicate 14 0 ++ number 2 56 ++ number 2 1 ++ number 2 64 ++ List.replicate 52 0

theorem overlapFile_inside : InsideFile (startup zeroHeap overlapFile).elf overlapFile.length where
  header := by decide +kernel
  phoff := by decide +kernel
  phentsize := by decide +kernel
  shentsize := by decide +kernel
  phdrs := by decide +kernel
  shdrs := by decide +kernel
  segments := by decide +kernel
  sections := by decide +kernel

theorem overlapFile_no_wrap : NoWrap (startup zeroHeap overlapFile).elf where
  phnum := by decide +kernel
  ends := ⟨by decide +kernel, by decide +kernel⟩

/-- With the count of the program headers the type of the entry is counted up, too. -/
theorem a_program_header_over_the_header_is_not_kept :
    ∃ w size w1 out w2, IsElf overlapFile ∧ analyze (startup zeroHeap overlapFile) = .ok w ∧
      InsideFile w.elf w.size ∧ NoWrap w.elf ∧ add_new_segment 1024 w = .ok (size, w1) ∧
      w.size ≤ (exe_length (do_crack nops w1)).toNat ∧
      create_exe (do_crack nops w1) = .ok (out, w2) ∧ ¬ ProgramKept w.elf out w2.newphdr := by
  obtain ⟨w, hw, helf, hsize⟩ := analyze_of_isOk zeroHeap overlapFile (by decide +kernel)
  have hin : InsideFile w.elf w.size := by
    rw [helf, hsize]
    exact overlapFile_inside
  have hwrap : NoWrap w.elf := by
    rw [helf]
    exact overlapFile_no_wrap
  have hlength := toNat_exe_length nops hin hwrap
  obtain ⟨size, hadd⟩ := add_new_segment_eq (analyze.spec hw).2 1024
  have hrun : (crack zeroHeap nops overlapFile).map (fun r => r.1 (EHDR r.1).e_phoff) = .ok 2 := by
    decide +kernel
  have hexe : crack zeroHeap nops overlapFile = create_exe (cracked nops w) := by
    unfold crack
    rw [hw]
    simp only [bind, Except.bind, hadd]
    rfl
  rw [hexe] at hrun
  cases hout : create_exe (cracked nops w) with
  | error e =>
    rw [hout] at hrun
    cases hrun
  | ok r =>
    rw [hout] at hrun
    have hbyte : r.1 (EHDR r.1).e_phoff = 2 := by
      simpa [Except.map] using hrun
    refine ⟨w, size, _, r.1, r.2, by decide, hw, hin, hwrap, hadd, ?_, hout, ?_⟩
    · rw [cracked] at hlength
      rw [hlength, hsize, helf]
      decide +kernel
    · intro hkept
      have hfirst := hkept.phdrs 0 (by rw [helf]; decide +kernel) 0 (by decide) (by simp)
      rw [Nat.mul_zero, BitVec.add_zero, BitVec.add_zero, hbyte, helf] at hfirst
      revert hfirst
      decide +kernel

end elf_clack
