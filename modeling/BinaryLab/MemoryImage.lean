-- The memory image after the load commands of an object: every segment holds
-- its file data and its zeros, with its own protection, and a command leaves
-- the pages of the other segments alone. Addresses are offsets from the load
-- address of the object.
import BinaryLab.Segments

open binary_lab.runs binary_lab.words binary_lab.pages

namespace elf_loader.load

/-! ## The pages of a segment -/

/-- The link-time address lies in a page of the segment. -/
def InPages (ps : Addr) (ph : Phdr) (x : Nat) : Prop := segStart ps ph ≤ x ∧ x < segEnd ps ph

instance (ps : Addr) (ph : Phdr) (x : Nat) : Decidable (InPages ps ph x) :=
  inferInstanceAs (Decidable (_ ∧ _))

/-- The segments share no page. -/
def PagesDisjoint (ps : Addr) (ph1 ph2 : Phdr) : Prop :=
  ∀ x, ¬ (InPages ps ph1 x ∧ InPages ps ph2 x)

/-- The address space holds the data and the zeros of the segment. -/
def HasContents (file : List Byte) (base : Addr) (ph : Phdr) (sp : Space) : Prop :=
  (∀ k < ph.p_filesz.toNat, ∃ b, file[ph.p_offset.toNat + k]? = some b ∧
    sp.get (base + ph.p_vaddr + BitVec.ofNat 64 k) = some b) ∧
  ∀ k, ph.p_filesz.toNat ≤ k → k < ph.p_memsz.toNat →
    sp.get (base + ph.p_vaddr + BitVec.ofNat 64 k) = some 0

/-- Every page of the segment has the protection of its flags. -/
def HasProt (ps base : Addr) (ph : Phdr) (sp : Space) : Prop :=
  ∀ a, InPages ps ph (a - base).toNat → sp.prot a = some (protOf ph.p_flags)

/-- The address spaces agree at `a`. -/
structure SameAt (sp sp' : Space) (a : Addr) : Prop where
  byte : sp'.byte a = sp.byte a
  prot : sp'.prot a = sp.prot a
  backed : sp'.backed a = sp.backed a

theorem SameAt.get {sp sp' : Space} {a : Addr} (h : SameAt sp sp' a) : sp'.get a = sp.get a := by
  rw [Space.get, Space.get, h.byte, h.prot, h.backed]

theorem SameAt.trans {sp sp1 sp2 : Space} {a : Addr} (h : SameAt sp sp1 a)
    (h' : SameAt sp1 sp2 a) : SameAt sp sp2 a :=
  ⟨h'.byte.trans h.byte, h'.prot.trans h.prot, h'.backed.trans h.backed⟩

section

variable {kern : Kernel} {ps : Addr} {file : List Byte} {ph : Phdr}

theorem segStart_mod : segStart ps ph % ps.toNat = 0 := floorNat_mod

theorem segStart_le (ps : Addr) (ph : Phdr) : segStart ps ph ≤ ph.p_vaddr.toNat := floorNat_le _ _

theorem le_segEnd (hps : PageSize ps) (ph : Phdr) :
    ph.p_vaddr.toNat + max ph.p_filesz.toNat ph.p_memsz.toNat ≤ segEnd ps ph :=
  le_ceilNat hps.pos

/-- The end of a segment, from its first page on. -/
theorem segEnd_eq (hps : PageSize ps) (ph : Phdr) :
    segEnd ps ph = segStart ps ph + ceilNat ps.toNat
      (max (ph.p_vaddr.toNat - segStart ps ph + ph.p_filesz.toNat)
        (ph.p_vaddr.toNat - segStart ps ph + ph.p_memsz.toNat)) := by
  have hle := segStart_le ps ph
  rw [← ceilNat_add hps.pos segStart_mod, segEnd]
  congr 1
  omega

/-- An address of the segment, given by its place in the segment. -/
theorem offset_of_place (base : Addr) (ph : Phdr) {k : Nat} (h : ph.p_vaddr.toNat + k < 2 ^ 64) :
    (base + ph.p_vaddr + BitVec.ofNat 64 k - base).toNat = ph.p_vaddr.toNat + k := by
  have : base + ph.p_vaddr + BitVec.ofNat 64 k - base = ph.p_vaddr + BitVec.ofNat 64 k := by
    bv_omega
  rw [this, toNat_add_ofNat h]

/-- The contents of a segment lie in its pages. -/
theorem HasContents.same {base : Addr} {sp sp' : Space} (hps : PageSize ps)
    (hfit : SegmentFits ps ph) (h : HasContents file base ph sp)
    (hsame : ∀ a, InPages ps ph (a - base).toNat → SameAt sp sp' a) :
    HasContents file base ph sp' := by
  have hlo := segStart_le ps ph
  have hhi := le_segEnd hps ph
  have hwrap := hfit.no_wrap
  have hin : ∀ k < max ph.p_filesz.toNat ph.p_memsz.toNat,
      InPages ps ph (base + ph.p_vaddr + BitVec.ofNat 64 k - base).toNat := by
    intro k hk
    rw [offset_of_place base ph (by omega)]
    exact ⟨by omega, by omega⟩
  refine ⟨?_, ?_⟩
  · intro k hk
    rw [(hsame _ (hin k (by omega))).get]
    exact h.1 k hk
  · intro k hk1 hk2
    rw [(hsame _ (hin k (by omega))).get]
    exact h.2 k hk1 hk2

theorem HasProt.same {base : Addr} {sp sp' : Space} (h : HasProt ps base ph sp)
    (hsame : ∀ a, InPages ps ph (a - base).toNat → SameAt sp sp' a) :
    HasProt ps base ph sp' := by
  intro a ha
  rw [(hsame a ha).prot]
  exact h a ha

/-- The file has each byte of the data that it is said to have. -/
theorem HasContents.data {base : Addr} {sp : Space} (h : HasContents file base ph sp) :
    ∀ k < ph.p_filesz.toNat, ph.p_offset.toNat + k < file.length := by
  intro k hk
  obtain ⟨b, hb, _⟩ := h.1 k hk
  exact (List.getElem?_eq_some_iff.mp hb).1

/-! ## The load command of a segment -/

theorem toNat_mapstart (hps : PageSize ps) (ph : Phdr) :
    (loadcmdOf ps ph).mapstart.toNat = segStart ps ph := toNat_alignDown hps _

theorem toNat_dataend (hps : PageSize ps) (hwrap : segEnd ps ph < 2 ^ 64) :
    (loadcmdOf ps ph).dataend.toNat = ph.p_vaddr.toNat + ph.p_filesz.toNat := by
  have := le_segEnd hps ph
  simp only [loadcmdOf, BitVec.toNat_add]
  omega

theorem toNat_allocend (hps : PageSize ps) (hwrap : segEnd ps ph < 2 ^ 64) :
    (loadcmdOf ps ph).allocend.toNat = ph.p_vaddr.toNat + ph.p_memsz.toNat := by
  have := le_segEnd hps ph
  simp only [loadcmdOf, BitVec.toNat_add]
  omega

theorem toNat_mapend (hps : PageSize ps) (hwrap : segEnd ps ph < 2 ^ 64) :
    (loadcmdOf ps ph).mapend.toNat =
      ceilNat ps.toNat (ph.p_vaddr.toNat + ph.p_filesz.toNat) := by
  have hle : ceilNat ps.toNat (ph.p_vaddr.toNat + ph.p_filesz.toNat) ≤ segEnd ps ph :=
    ceilNat_mono hps.pos (by omega)
  have hdata := toNat_dataend hps hwrap
  have hzero := alignUp_add hps (P := 0#64) (n := ph.p_vaddr.toNat + ph.p_filesz.toNat)
    (by simp) (by simp only [BitVec.toNat_zero]; omega)
  have harg : 0#64 + BitVec.ofNat 64 (ph.p_vaddr.toNat + ph.p_filesz.toNat) =
      ph.p_vaddr + ph.p_filesz := by
    rw [BitVec.zero_add, BitVec.ofNat_add, BitVec.ofNat_toNat, BitVec.ofNat_toNat,
      BitVec.setWidth_eq, BitVec.setWidth_eq]
  rw [harg, BitVec.zero_add] at hzero
  simp only [loadcmdOf, hzero, BitVec.toNat_ofNat]
  omega

/-- The file offset of the first page is as far below the data as the page is. -/
theorem toNat_mapoff (hps : PageSize ps) (hpass : PassesAsserts ps ph) :
    (loadcmdOf ps ph).mapoff.toNat + (ph.p_vaddr.toNat - segStart ps ph) =
      ph.p_offset.toNat := by
  have hoff := same_page_offset hps hpass
  have h1 := Nat.mod_le ph.p_vaddr.toNat ps.toNat
  have h2 := Nat.mod_le ph.p_offset.toNat ps.toNat
  simp only [loadcmdOf, toNat_alignDown hps, segStart, floorNat]
  omega

/-- Offsets from the first page of a segment. -/
theorem page_offset (hps : PageSize ps) (base a : Addr) {n : Nat} (ph : Phdr)
    (h : segStart ps ph + n ≤ 2 ^ 64) :
    (a - (base + (loadcmdOf ps ph).mapstart)).toNat < n ↔
      segStart ps ph ≤ (a - base).toNat ∧ (a - base).toNat < segStart ps ph + n := by
  rw [offset_lt_iff (by rw [toNat_mapstart hps]; exact h), toNat_mapstart hps]

/-- A sum of page boundaries is a page boundary, also when it wraps. -/
theorem add_mod_page (hps : PageSize ps) {x y : Addr} (hx : x.toNat % ps.toNat = 0)
    (hy : y.toNat % ps.toNat = 0) : (x + y).toNat % ps.toNat = 0 := by
  obtain ⟨k, hk, hps2⟩ := hps.toNat_eq
  have hdvd : ps.toNat ∣ 2 ^ 64 := by
    rw [hps2]
    exact Nat.pow_dvd_pow 2 (by omega)
  rw [BitVec.toNat_add, Nat.mod_mod_of_dvd _ hdvd, Nat.add_mod, hx, hy, Nat.add_zero, Nat.zero_mod]

/-- The first page of a segment at run time. -/
def firstPage (ps base : Addr) (ph : Phdr) : Addr := base + (loadcmdOf ps ph).mapstart

/-- The end of the file data, from the first page on. -/
def dataLen (ps : Addr) (ph : Phdr) : Nat :=
  ph.p_vaddr.toNat - segStart ps ph + ph.p_filesz.toNat

theorem dataPages_le_segEnd (hps : PageSize ps) (ph : Phdr) :
    segStart ps ph + ceilNat ps.toNat (dataLen ps ph) ≤ segEnd ps ph := by
  rw [segEnd_eq hps]
  have hle : dataLen ps ph ≤ max (dataLen ps ph)
    (ph.p_vaddr.toNat - segStart ps ph + ph.p_memsz.toNat) := by omega
  exact Nat.add_le_add_left (ceilNat_mono hps.pos hle) _

/-- The end of the file pages, from the first page on. -/
theorem toNat_mapend_pages (hps : PageSize ps) (hwrap : segEnd ps ph < 2 ^ 64) :
    (loadcmdOf ps ph).mapend.toNat = segStart ps ph + ceilNat ps.toNat (dataLen ps ph) := by
  have hlo := segStart_le ps ph
  rw [toNat_mapend hps hwrap, ← ceilNat_add hps.pos segStart_mod, dataLen]
  congr 1
  omega

/-- The end of the segment, from the first page on. -/
def memLen (ps : Addr) (ph : Phdr) : Nat :=
  ph.p_vaddr.toNat - segStart ps ph + ph.p_memsz.toNat

/-- The end of the file data at run time. -/
theorem add_dataend (hps : PageSize ps) (hwrap : segEnd ps ph < 2 ^ 64) (base : Addr) :
    base + (loadcmdOf ps ph).dataend =
      firstPage ps base ph + BitVec.ofNat 64 (dataLen ps ph) := by
  have hlo := segStart_le ps ph
  have hhi := le_segEnd hps ph
  have hstart := toNat_mapstart hps ph
  have hsum : (loadcmdOf ps ph).dataend =
      (loadcmdOf ps ph).mapstart + BitVec.ofNat 64 (dataLen ps ph) := by
    apply BitVec.eq_of_toNat_eq
    rw [toNat_add_ofNat (by unfold dataLen; omega), toNat_dataend hps hwrap, hstart, dataLen]
    omega
  rw [hsum, firstPage, BitVec.add_assoc]

/-- The end of the segment at run time. -/
theorem add_allocend (hps : PageSize ps) (hwrap : segEnd ps ph < 2 ^ 64) (base : Addr) :
    base + (loadcmdOf ps ph).allocend =
      firstPage ps base ph + BitVec.ofNat 64 (memLen ps ph) := by
  have hlo := segStart_le ps ph
  have hhi := le_segEnd hps ph
  have hstart := toNat_mapstart hps ph
  have hsum : (loadcmdOf ps ph).allocend =
      (loadcmdOf ps ph).mapstart + BitVec.ofNat 64 (memLen ps ph) := by
    apply BitVec.eq_of_toNat_eq
    rw [toNat_add_ofNat (by unfold memLen; omega), toNat_allocend hps hwrap, hstart, memLen]
    omega
  rw [hsum, firstPage, BitVec.add_assoc]

theorem dataend_lt_allocend (hps : PageSize ps) (hwrap : segEnd ps ph < 2 ^ 64) :
    (loadcmdOf ps ph).dataend < (loadcmdOf ps ph).allocend ↔ dataLen ps ph < memLen ps ph := by
  have hlo := segStart_le ps ph
  rw [BitVec.lt_def, toNat_dataend hps hwrap, toNat_allocend hps hwrap, dataLen, memLen]
  omega

/-- The pages of the segment do not wrap at run time. -/
def RunsUnwrapped (ps base : Addr) (ph : Phdr) : Prop :=
  (firstPage ps base ph).toNat + (segEnd ps ph - segStart ps ph) < 2 ^ 64

/-- The part behind the label `postmap`, for a segment whose file pages are mapped. -/
theorem postmap_body_segment (hk : kern.Succeeds) (hps : PageSize ps) (header : Ehdr)
    (hwrap : segEnd ps ph < 2 ^ 64) (l : LinkMap) (s : Proc)
    (haddr : l.l_addr.toNat % ps.toNat = 0) (hrun : RunsUnwrapped ps l.l_addr ph)
    (hprot : ∀ a, (a - firstPage ps l.l_addr ph).toNat < ceilNat ps.toNat (dataLen ps ph) →
      s.space.prot a = some (protOf ph.p_flags))
    (hback : ∀ a, dataLen ps ph ≤ (a - firstPage ps l.l_addr ph).toNat →
      (a - firstPage ps l.l_addr ph).toNat < ceilNat ps.toNat (dataLen ps ph) →
      (a - firstPage ps l.l_addr ph).toNat < memLen ps ph → s.space.backed a = true) :
    ∃ l' s', postmap_body kern ps header (loadcmdOf ps ph) l s = .ok (l', s') ∧
      l'.l_addr = l.l_addr ∧ HasProt ps l.l_addr ph s'.space ∧
      (∀ a, ¬ InPages ps ph (a - l.l_addr).toNat → SameAt s.space s'.space a) ∧
      (∀ a, (a - firstPage ps l.l_addr ph).toNat < dataLen ps ph →
        SameAt s.space s'.space a) ∧
      ∀ k, ph.p_filesz.toNat ≤ k → k < ph.p_memsz.toNat →
        s'.space.get (l.l_addr + ph.p_vaddr + BitVec.ofNat 64 k) = some 0 := by
  have hlo := segStart_le ps ph
  have hhi := le_segEnd hps ph
  have hstart := toNat_mapstart hps ph
  have hend : segEnd ps ph =
      segStart ps ph + ceilNat ps.toNat (max (dataLen ps ph) (memLen ps ph)) := segEnd_eq hps ph
  have hdc := le_ceilNat (n := dataLen ps ph) hps.pos
  have hmax := le_ceilNat (n := max (dataLen ps ph) (memLen ps ph)) hps.pos
  have hP : (firstPage ps l.l_addr ph).toNat % ps.toNat = 0 :=
    add_mod_page hps haddr (by rw [hstart]; exact segStart_mod)
  obtain ⟨l', s', hbody, hl', hspec⟩ := postmap_body.spec hk hps header (loadcmdOf ps ph) l s hP
    (by unfold RunsUnwrapped at hrun; omega) (add_dataend hps hwrap l.l_addr)
    (add_allocend hps hwrap l.l_addr) (dataend_lt_allocend hps hwrap) hprot hback
  refine ⟨l', s', hbody, hl', ?_, ?_, ?_, ?_⟩
  · intro a ha
    apply (hspec a).1
    rw [firstPage, page_offset hps _ _ _ (by omega)]
    unfold InPages at ha
    omega
  · intro a ha
    have hfar := (hspec a).2.1
    rw [← Nat.not_lt, firstPage, page_offset hps _ _ _ (by omega)] at hfar
    obtain ⟨hb, hp, hk⟩ := hfar (by unfold InPages at ha; omega)
    exact ⟨hb, hp, hk⟩
  · intro a ha
    obtain ⟨hb, hk⟩ := (hspec a).2.2.1 ha
    exact ⟨hb, ((hspec a).1 (by omega)).trans (hprot a (by omega)).symm, hk⟩
  · intro k hk1 hk2
    have hx := offset_of_place l.l_addr ph (k := k) (by omega)
    have hy : (l.l_addr + ph.p_vaddr + BitVec.ofNat 64 k - firstPage ps l.l_addr ph).toNat =
        ph.p_vaddr.toNat + k - segStart ps ph := by
      rw [firstPage, offset_sub (by rw [hx, hstart]; omega), hx, hstart]
    have hlo' : dataLen ps ph ≤ ph.p_vaddr.toNat + k - segStart ps ph := by
      unfold dataLen
      omega
    have hhi' : ph.p_vaddr.toNat + k - segStart ps ph < memLen ps ph := by
      unfold memLen
      omega
    rw [← hy] at hlo' hhi'
    obtain ⟨hb, hk⟩ := (hspec _).2.2.2 hlo' hhi'
    exact Space.get_eq_some.mpr ⟨Option.isSome_of_eq_some ((hspec _).1 (by omega)), hk, hb⟩

/-- The part behind the label, if it goes through, has found something behind the
zeros in the last page of the data. -/
theorem postmap_body_backed (hk : kern.Succeeds) (hps : PageSize ps) {header : Ehdr}
    (hwrap : segEnd ps ph < 2 ^ 64) {l : LinkMap} {s : Proc} {r : LinkMap × Proc}
    (haddr : l.l_addr.toNat % ps.toNat = 0) (hrun : RunsUnwrapped ps l.l_addr ph)
    (h : postmap_body kern ps header (loadcmdOf ps ph) l s = .ok r) :
    ∀ a, dataLen ps ph ≤ (a - firstPage ps l.l_addr ph).toNat →
      (a - firstPage ps l.l_addr ph).toNat < ceilNat ps.toNat (dataLen ps ph) →
      (a - firstPage ps l.l_addr ph).toNat < memLen ps ph → s.space.backed a = true := by
  intro a h1 h2 h3
  have hend : segEnd ps ph =
      segStart ps ph + ceilNat ps.toNat (max (dataLen ps ph) (memLen ps ph)) := segEnd_eq hps ph
  have hlt : dataLen ps ph < memLen ps ph := by omega
  have hP : (firstPage ps l.l_addr ph).toNat % ps.toNat = 0 :=
    add_mod_page hps haddr (by rw [toNat_mapstart hps]; exact segStart_mod)
  have hnote := (note_segment_mapped header (loadcmdOf ps ph) l).2
  rw [Nat.max_eq_right (by omega)] at hend
  unfold RunsUnwrapped at hrun
  unfold postmap_body at h
  simp only [if_pos ((dataend_lt_allocend hps hwrap).mpr hlt), bind_eq_ok, hnote,
    add_dataend hps hwrap, add_allocend hps hwrap] at h
  obtain ⟨s1, hfill, _⟩ := h
  exact zero_fill_backed hk hps hP (by omega) hlt hfill a h1 h2 h3

/-- The part before the label `postmap` maps the file pages of the segment. -/
theorem map_pages.spec (hk : kern.Succeeds) (hps : PageSize ps) (hwrap : segEnd ps ph < 2 ^ 64)
    (file : List Byte) (l : LinkMap) (s : Proc) (hrun : RunsUnwrapped ps l.l_addr ph) :
    ∃ s', map_pages kern ps file (loadcmdOf ps ph) l s = .ok s' ∧
      ∀ a, ((a - firstPage ps l.l_addr ph).toNat < ceilNat ps.toNat (dataLen ps ph) →
          s'.space.byte a = file.getD ((loadcmdOf ps ph).mapoff.toNat +
            (a - firstPage ps l.l_addr ph).toNat) 0 ∧
          s'.space.prot a = some (protOf ph.p_flags) ∧
          s'.space.backed a = decide ((loadcmdOf ps ph).mapoff.toNat +
            floorNat ps.toNat (a - firstPage ps l.l_addr ph).toNat < file.length)) ∧
        (ceilNat ps.toNat (dataLen ps ph) ≤ (a - firstPage ps l.l_addr ph).toNat →
          SameAt s.space s'.space a) := by
  have hlo := segStart_le ps ph
  have hstart := toNat_mapstart hps ph
  have hmapend := toNat_mapend_pages hps hwrap
  have hle := dataPages_le_segEnd hps ph
  unfold map_pages
  by_cases hlen : 0 < ceilNat ps.toNat (dataLen ps ph)
  · have hlt : (loadcmdOf ps ph).mapstart < (loadcmdOf ps ph).mapend := by
      rw [BitVec.lt_def, hstart, hmapend]
      omega
    have hne : l.l_addr + (loadcmdOf ps ph).mapstart ≠ MAP_FAILED := by
      intro h
      have := congrArg BitVec.toNat h
      rw [BitVec.toNat_allOnes] at this
      unfold RunsUnwrapped firstPage at hrun
      omega
    have hsub : ((loadcmdOf ps ph).mapend - (loadcmdOf ps ph).mapstart).toNat =
        ceilNat ps.toNat (dataLen ps ph) := by
      rw [BitVec.toNat_sub_of_le (BitVec.le_of_lt hlt), hstart, hmapend]
      omega
    rw [if_pos hlt, mmap_fixed hk]
    simp only [if_neg hne]
    refine ⟨_, rfl, ?_⟩
    intro a
    simp only [mapped, Space.mapFile, hsub, ceilNat_of_mod hps.pos (ceilNat_mod _ _), firstPage]
    refine ⟨fun h => ?_, fun h => ?_⟩
    · simp only [if_pos h]
      exact ⟨trivial, rfl, rfl⟩
    · have : ¬ (a - (l.l_addr + (loadcmdOf ps ph).mapstart)).toNat <
          ceilNat ps.toNat (dataLen ps ph) := by omega
      exact ⟨if_neg this, if_neg this, if_neg this⟩
  · have hlt : ¬ (loadcmdOf ps ph).mapstart < (loadcmdOf ps ph).mapend := by
      rw [BitVec.lt_def, hstart, hmapend]
      omega
    rw [if_neg hlt]
    refine ⟨s, rfl, ?_⟩
    intro a
    exact ⟨fun h => absurd h (by omega), fun _ => ⟨rfl, rfl, rfl⟩⟩

/-! ## The run over the segments -/

/-- Everything that a load command leaves of its segment. -/
def Loaded (ps : Addr) (file : List Byte) (base : Addr) (ph : Phdr) (sp : Space) : Prop :=
  HasContents file base ph sp ∧ HasProt ps base ph sp

/-- A place in the segment, from its first page on. -/
theorem place_in_segment (hps : PageSize ps) (hwrap : segEnd ps ph < 2 ^ 64) (base : Addr) {k : Nat}
    (hk : k < max ph.p_filesz.toNat ph.p_memsz.toNat) :
    (base + ph.p_vaddr + BitVec.ofNat 64 k - firstPage ps base ph).toNat =
      ph.p_vaddr.toNat - segStart ps ph + k := by
  have hlo := segStart_le ps ph
  have hhi := le_segEnd hps ph
  have hstart := toNat_mapstart hps ph
  have hx := offset_of_place base ph (k := k) (by omega)
  rw [firstPage, offset_sub (by rw [hx, hstart]; omega), hx, hstart]
  omega

/-- The last page of the data starts before its end, so it is in the file. -/
theorem InFile.tail_page (hps : PageSize ps) (hfit : SegmentFits ps ph) (hin : InFile ps file ph)
    {y : Nat} (h1 : y < ceilNat ps.toNat (dataLen ps ph)) (h2 : dataLen ps ph ≤ y)
    (h3 : y < memLen ps ph) :
    (loadcmdOf ps ph).mapoff.toNat + floorNat ps.toNat y < file.length := by
  have hmapoff := toNat_mapoff hps hfit.asserts
  have hpage := floorNat_lt_of_lt_ceilNat hps.pos h1
  unfold dataLen at hpage h2
  unfold memLen at h3
  by_cases hz : ph.p_filesz = 0
  · have hz' : ph.p_filesz.toNat = 0 := by rw [hz]; rfl
    have hoff : ph.p_vaddr.toNat - segStart ps ph = ph.p_vaddr.toNat % ps.toNat := by
      have := Nat.mod_le ph.p_vaddr.toNat ps.toNat
      unfold segStart floorNat
      omega
    have hlt := Nat.mod_lt ph.p_vaddr.toNat hps.pos
    have hzero : floorNat ps.toNat y = 0 :=
      Nat.eq_zero_of_dvd_of_lt (Nat.dvd_of_mod_eq_zero floorNat_mod)
        (show floorNat ps.toNat y < ps.toNat by omega)
    have htail := hin.tail hz (fun h0 => by rw [h0] at h3; simp at h3; omega) (by omega)
    rw [show (loadcmdOf ps ph).mapoff = alignDown ps ph.p_offset from rfl, toNat_alignDown hps,
      hzero]
    exact htail
  · have hpos : 0 < ph.p_filesz.toNat := toNat_pos hz
    have hdata := hin.data (ph.p_filesz.toNat - 1) (by omega)
    omega

/-- The pages that the data is mapped from hold it. -/
theorem InFile.get_data (hps : PageSize ps) (hfit : SegmentFits ps ph) (hin : InFile ps file ph)
    {base : Addr} {sp : Space} (h : ∀ a, (a - firstPage ps base ph).toNat < dataLen ps ph →
      sp.byte a = file.getD ((loadcmdOf ps ph).mapoff.toNat +
        (a - firstPage ps base ph).toNat) 0 ∧
      (sp.prot a).isSome = true ∧
      sp.backed a = decide ((loadcmdOf ps ph).mapoff.toNat +
        floorNat ps.toNat (a - firstPage ps base ph).toNat < file.length)) :
    ∀ k < ph.p_filesz.toNat, ∃ b, file[ph.p_offset.toNat + k]? = some b ∧
      sp.get (base + ph.p_vaddr + BitVec.ofNat 64 k) = some b := by
  intro k hk
  have hmapoff := toNat_mapoff hps hfit.asserts
  have hlt := hin.data k hk
  have hy := place_in_segment hps hfit.no_wrap base (k := k) (by omega)
  have hfloor := floorNat_le ps.toNat (ph.p_vaddr.toNat - segStart ps ph + k)
  obtain ⟨hb, hp, hbk⟩ := h (base + ph.p_vaddr + BitVec.ofNat 64 k) (by
    rw [hy, dataLen]
    omega)
  rw [hy] at hb hbk
  refine ⟨_, List.getElem?_eq_getElem hlt, Space.get_eq_some.mpr ⟨hp, ?_, ?_⟩⟩
  · rw [hbk, decide_eq_true_eq]
    omega
  · rw [hb, show (loadcmdOf ps ph).mapoff.toNat + (ph.p_vaddr.toNat - segStart ps ph + k) =
      ph.p_offset.toNat + k by omega, List.getD_eq_getElem?_getD, List.getElem?_eq_getElem hlt]
    rfl

/-- One load command makes its segment and touches no other page. -/
theorem loadcmd_segment (hk : kern.Succeeds) (hps : PageSize ps) (header : Ehdr)
    (hfit : SegmentFits ps ph) (hin : InFile ps file ph) (l : LinkMap) (s : Proc)
    (haddr : l.l_addr.toNat % ps.toNat = 0) (hrun : RunsUnwrapped ps l.l_addr ph) :
    ∃ s1 l' s', map_pages kern ps file (loadcmdOf ps ph) l s = .ok s1 ∧
      postmap_body kern ps header (loadcmdOf ps ph) l s1 = .ok (l', s') ∧
      l'.l_addr = l.l_addr ∧ Loaded ps file l.l_addr ph s'.space ∧
      ∀ a, ¬ InPages ps ph (a - l.l_addr).toNat → SameAt s.space s'.space a := by
  have hdc := le_ceilNat (n := dataLen ps ph) hps.pos
  have hpages := dataPages_le_segEnd hps ph
  have hwrap := hfit.no_wrap
  obtain ⟨s1, hs1, hmap⟩ := map_pages.spec hk hps hwrap file l s hrun
  obtain ⟨l', s', hbody, hl', hprot, hsame, hdata, hzero⟩ :=
    postmap_body_segment hk hps header hwrap l s1 haddr hrun
      (fun a ha => ((hmap a).1 ha).2.1) (by
        intro a h1 h2 h3
        rw [((hmap a).1 h2).2.2, decide_eq_true_eq]
        exact hin.tail_page hps hfit h2 h1 h3)
  refine ⟨s1, l', s', hs1, hbody, hl', ⟨⟨hin.get_data hps hfit fun a ha => ?_, hzero⟩, hprot⟩, ?_⟩
  · obtain ⟨hb, hp, hbk⟩ := (hmap a).1 (by omega)
    have hsame' := hdata a ha
    exact ⟨hsame'.byte.trans hb, Option.isSome_of_eq_some (hsame'.prot.trans hp),
      hsame'.backed.trans hbk⟩
  · intro a ha
    have hfar := (hmap a).2
    rw [← Nat.not_lt, firstPage, page_offset hps _ _ _ (by omega)] at hfar
    exact (hfar (by unfold InPages at ha; omega)).trans (hsame a ha)

/-- A load command that goes through has found the page of its zeros in the file. -/
theorem loadcmd_tail (hk : kern.Succeeds) (hps : PageSize ps) {header : Ehdr}
    (hfit : SegmentFits ps ph) {l : LinkMap} {s s1 : Proc} {r : LinkMap × Proc}
    (haddr : l.l_addr.toNat % ps.toNat = 0) (hrun : RunsUnwrapped ps l.l_addr ph)
    (hmap : map_pages kern ps file (loadcmdOf ps ph) l s = .ok s1)
    (hbody : postmap_body kern ps header (loadcmdOf ps ph) l s1 = .ok r) :
    TailInFile ps file ph := by
  intro hz hmem hinside
  have hz' : ph.p_filesz.toNat = 0 := by rw [hz]; rfl
  have hpos := toNat_pos hmem
  have hwrap := hfit.no_wrap
  have hlo := segStart_le ps ph
  have hoff : ph.p_vaddr.toNat - segStart ps ph = ph.p_vaddr.toNat % ps.toNat := by
    have := Nat.mod_le ph.p_vaddr.toNat ps.toNat
    unfold segStart floorNat
    omega
  have hlt := Nat.mod_lt ph.p_vaddr.toNat hps.pos
  have hceil : dataLen ps ph < ceilNat ps.toNat (dataLen ps ph) := by
    have hle := le_ceilNat (n := dataLen ps ph) hps.pos
    refine lt_of_le_of_ne hle fun heq => ?_
    have hmod := ceilNat_mod ps.toNat (dataLen ps ph)
    rw [← heq, dataLen, hoff, hz', Nat.add_zero, Nat.mod_mod] at hmod
    exact hinside hmod
  obtain ⟨s2, hs2, hspec⟩ := map_pages.spec hk hps hwrap file l s hrun
  obtain rfl := Except.ok.inj (hmap.symm.trans hs2)
  have hplace := place_in_segment hps hwrap l.l_addr (k := 0) (by omega)
  have hback := postmap_body_backed hk hps hwrap haddr hrun hbody
    (l.l_addr + ph.p_vaddr + BitVec.ofNat 64 0)
    (by rw [hplace, dataLen]; omega) (by rw [hplace]; unfold dataLen at hceil ⊢; omega)
    (by rw [hplace, memLen]; omega)
  rw [((hspec _).1 (by rw [hplace]; unfold dataLen at hceil ⊢; omega)).2.2, decide_eq_true_eq,
    hplace, Nat.add_zero, hoff] at hback
  have hzero : floorNat ps.toNat (ph.p_vaddr.toNat % ps.toNat) = 0 := by
    rw [floorNat, Nat.mod_mod, Nat.sub_self]
  rw [hzero, show (loadcmdOf ps ph).mapoff = alignDown ps ph.p_offset from rfl,
    toNat_alignDown hps] at hback
  exact hback

/-- The loop over the load commands makes every segment. -/
theorem loadcmd_loop_segments (hk : kern.Succeeds) (hps : PageSize ps) (header : Ehdr)
    (phs : List Phdr) (l : LinkMap) (s : Proc)
    (hfit : ∀ ph ∈ phs, SegmentFits ps ph) (hin : ∀ ph ∈ phs, InFile ps file ph)
    (hdisj : phs.Pairwise (PagesDisjoint ps)) (haddr : l.l_addr.toNat % ps.toNat = 0)
    (hrun : ∀ ph ∈ phs, RunsUnwrapped ps l.l_addr ph) :
    ∃ l' s', loadcmd_loop kern ps file header l s (phs.map (loadcmdOf ps)) = .ok (l', s') ∧
      l'.l_addr = l.l_addr ∧ (∀ ph ∈ phs, Loaded ps file l.l_addr ph s'.space) ∧
      ∀ a, (∀ ph ∈ phs, ¬ InPages ps ph (a - l.l_addr).toNat) → SameAt s.space s'.space a := by
  induction phs generalizing l s with
  | nil => exact ⟨l, s, rfl, rfl, by simp, fun _ _ => ⟨rfl, rfl, rfl⟩⟩
  | cons ph phs ih =>
    rw [List.pairwise_cons] at hdisj
    obtain ⟨s1, l2, s2, hs1, hbody, hl2, hloaded, hframe⟩ := loadcmd_segment hk hps header
      (hfit ph List.mem_cons_self) (hin ph List.mem_cons_self) l s haddr
      (hrun ph List.mem_cons_self)
    obtain ⟨l', s', hrest, hl', hall, hframe'⟩ := ih l2 s2
      (fun q hq => hfit q (List.mem_cons_of_mem _ hq))
      (fun q hq => hin q (List.mem_cons_of_mem _ hq)) hdisj.2 (by rw [hl2]; exact haddr)
      (by rw [hl2]; exact fun q hq => hrun q (List.mem_cons_of_mem _ hq))
    rw [hl2] at hall hframe'
    refine ⟨l', s', ?_, by rw [hl', hl2], ?_, ?_⟩
    · rw [List.map_cons, loadcmd_loop, hs1]
      simp only [bind, Except.bind, hbody]
      exact hrest
    · intro q hq
      rcases List.mem_cons.mp hq with rfl | hq
      · -- The later commands keep to their own pages.
        have hsame : ∀ a, InPages ps q (a - l.l_addr).toNat → SameAt s2.space s'.space a := by
          intro a ha
          apply hframe' a
          intro r hr hin
          exact hdisj.1 r hr _ ⟨ha, hin⟩
        exact ⟨hloaded.1.same hps (hfit q List.mem_cons_self) hsame, hloaded.2.same hsame⟩
      · exact hall q hq
    · intro a ha
      exact (hframe a (ha ph List.mem_cons_self)).trans
        (hframe' a fun q hq => ha q (List.mem_cons_of_mem _ hq))

/-- The loop, if it goes through, has found the page of the zeros of each segment. -/
theorem loadcmd_loop_tails (hk : kern.Succeeds) (hps : PageSize ps) {header : Ehdr}
    {phs : List Phdr} {l : LinkMap} {s : Proc} {r : LinkMap × Proc}
    (hfit : ∀ ph ∈ phs, SegmentFits ps ph) (haddr : l.l_addr.toNat % ps.toNat = 0)
    (hrun : ∀ ph ∈ phs, RunsUnwrapped ps l.l_addr ph)
    (h : loadcmd_loop kern ps file header l s (phs.map (loadcmdOf ps)) = .ok r) :
    ∀ ph ∈ phs, TailInFile ps file ph := by
  induction phs generalizing l s with
  | nil => exact fun ph hph => absurd hph List.not_mem_nil
  | cons ph phs ih =>
    rw [List.forall_mem_cons] at hfit hrun
    simp only [List.map_cons, loadcmd_loop, bind_eq_ok] at h
    obtain ⟨s1, hmap, ⟨l2, s2⟩, hbody, hrest⟩ := h
    have hl2 := (postmap_body_mapped hbody).2
    refine List.forall_mem_cons.mpr ⟨loadcmd_tail hk hps hfit.1 haddr hrun.1 hmap hbody, ?_⟩
    exact ih hfit.2 (by rw [hl2]; exact haddr) (by rw [hl2]; exact hrun.2) hrest

/-- The loop makes every segment just if the file has what they take from it. -/
theorem loadcmd_loop_iff (hk : kern.Succeeds) (hps : PageSize ps) (header : Ehdr)
    (phs : List Phdr) (l : LinkMap) (s : Proc) (hfit : ∀ ph ∈ phs, SegmentFits ps ph)
    (hdisj : phs.Pairwise (PagesDisjoint ps)) (haddr : l.l_addr.toNat % ps.toNat = 0)
    (hrun : ∀ ph ∈ phs, RunsUnwrapped ps l.l_addr ph) (P : Phdr → Space → Prop)
    (hP : ∀ ph sp, Loaded ps file l.l_addr ph sp → P ph sp)
    (hcontents : ∀ ph sp, P ph sp → HasContents file l.l_addr ph sp) :
    (∃ l' s', loadcmd_loop kern ps file header l s (phs.map (loadcmdOf ps)) = .ok (l', s') ∧
      ∀ ph ∈ phs, P ph s'.space) ↔ ∀ ph ∈ phs, InFile ps file ph := by
  constructor
  · rintro ⟨l', s', hloop, hall⟩ ph hph
    exact ⟨(hcontents ph _ (hall ph hph)).data,
      loadcmd_loop_tails hk hps hfit haddr hrun hloop ph hph⟩
  · intro hin
    obtain ⟨l', s', hloop, _, hall, _⟩ :=
      loadcmd_loop_segments hk hps header phs l s hfit hin hdisj haddr hrun
    exact ⟨l', s', hloop, fun ph hph => hP ph _ (hall ph hph)⟩

/-! ## The load commands of a file -/

/-- The `PT_LOAD` entries. -/
def loadSegments (phdr : List Phdr) : List Phdr := phdr.filter (·.p_type = PT_LOAD)

theorem parse_phdr_loop_loadcmds {ps : Addr} {phdr : List Phdr} {st st' : PhdrState}
    (h : parse_phdr_loop ps st phdr = .ok st') :
    st'.loadcmds = st.loadcmds ++ (loadSegments phdr).map (loadcmdOf ps) := by
  induction phdr generalizing st with
  | nil =>
    cases h
    simp [loadSegments]
  | cons ph phs ih =>
    rw [parse_phdr_loop, bind_eq_ok] at h
    obtain ⟨st1, h1, h2⟩ := h
    rw [ih h2]
    unfold parse_phdr_entry at h1
    by_cases hload : ph.p_type = PT_LOAD
    · rw [if_pos hload] at h1
      simp only [bind_eq_ok] at h1
      obtain ⟨_, _, _, _, h1⟩ := h1
      cases h1
      simp [loadSegments, hload]
    · rw [if_neg hload] at h1
      have hcmds : st1.loadcmds = st.loadcmds := by
        split_ifs at h1
        all_goals
          cases h1
          rfl
      rw [hcmds, loadSegments, loadSegments, List.filter_cons_of_neg (by simpa using hload)]

theorem parse_phdr_loop_segments (ps : Addr) {phdr : List Phdr} (st : PhdrState)
    (hpass : ∀ ph ∈ loadSegments phdr, PassesAsserts ps ph) :
    ∃ st', parse_phdr_loop ps st phdr = .ok st' ∧
      st'.loadcmds = st.loadcmds ++ (loadSegments phdr).map (loadcmdOf ps) := by
  have hok : ∃ st', parse_phdr_loop ps st phdr = .ok st' := by
    induction phdr generalizing st with
    | nil => exact ⟨st, rfl⟩
    | cons ph phs ih =>
      rw [parse_phdr_loop, parse_phdr_entry]
      by_cases hload : ph.p_type = PT_LOAD
      · have hcons : loadSegments (ph :: phs) = ph :: loadSegments phs := by
          simp [loadSegments, hload]
        rw [hcons] at hpass
        obtain ⟨halign, hoff⟩ := hpass ph List.mem_cons_self
        rw [if_pos hload]
        simp only [bind, Except.bind, assert, halign, hoff, beq_self_eq_true, if_true]
        exact ih _ fun q hq => hpass q (List.mem_cons_of_mem _ hq)
      · rw [loadSegments, List.filter_cons_of_neg (by simpa using hload), ← loadSegments] at hpass
        rw [if_neg hload]
        split_ifs
        all_goals exact ih _ hpass
  obtain ⟨st', h⟩ := hok
  exact ⟨st', h, parse_phdr_loop_loadcmds h⟩

end

/-! ## Fixed-address executables -/

/-- The image of a fixed-address executable, whatever the segments are, how
many there are and what was mapped before: each one holds the bytes of the file
and zeros behind them, and its pages have the protection of its flags, if and
only if the file has what the segments take from it. The page of a segment
without data may lie behind the end of the file. -/
theorem the_image_is_right_iff_the_file_has_its_pages (kern : Kernel) (ps : Addr)
    (file : List Byte) (header : Ehdr) (phdr : List Phdr) (l : LinkMap) (s : Proc)
    (hkern : kern.Succeeds) (hps : PageSize ps) (hexec : header.e_type = ET_EXEC)
    (haddr : l.l_addr = 0) (hfit : ∀ ph ∈ loadSegments phdr, SegmentFits ps ph)
    (hdisj : (loadSegments phdr).Pairwise (PagesDisjoint ps)) :
    (∃ l' s', map_segments kern ps file header phdr l s = .ok (l', s') ∧
      ∀ ph ∈ loadSegments phdr, Loaded ps file 0 ph s'.space) ↔
    loadSegments phdr ≠ [] ∧ ∀ ph ∈ loadSegments phdr, InFile ps file ph := by
  obtain ⟨st, hst, hcmds⟩ := parse_phdr_loop_segments ps
    { l, loadcmds := [], has_holes := false } fun ph hph => (hfit ph hph).asserts
  have hzero : st.l.l_addr = 0 := by rw [(parse_phdr_loop_mapped hst).2, haddr]
  rw [List.nil_append] at hcmds
  unfold map_segments parse_phdr
  rw [hst]
  cases hphs : loadSegments phdr with
  | nil =>
    rw [hphs] at hcmds
    simp only [bind, Except.bind, hcmds, List.map_nil, List.head?_nil]
    exact iff_of_false (fun ⟨_, _, h, _⟩ => by cases h) fun h => h.1 rfl
  | cons ph0 phs =>
    have hhead : st.loadcmds.head? = some (loadcmdOf ps ph0) := by rw [hcmds, hphs]; rfl
    obtain ⟨last, hlast⟩ : ∃ last, st.loadcmds.getLast? = some last := by
      rw [hcmds, hphs, List.map_cons]
      exact ⟨_, List.getLast?_eq_some_getLast (by simp)⟩
    simp only [bind, Except.bind, hhead, hlast, hexec, show ¬ (ET_EXEC = ET_DYN) by decide,
      if_false]
    unfold map_object_loadcmd
    rw [hcmds, hphs, List.map_cons]
    simp only [Bool.false_eq_true, if_false]
    rw [← List.map_cons]
    rw [hphs] at hfit hdisj
    refine (loadcmd_loop_iff hkern hps header (ph0 :: phs) _ s hfit hdisj (by simp [hzero]) ?_ _
      (fun ph sp h => ?_) (fun ph sp h => ?_)).trans
        (and_iff_right (List.cons_ne_nil ph0 phs)).symm
    · intro ph hph
      have := (hfit ph hph).no_wrap
      have hstart := toNat_mapstart hps ph
      unfold RunsUnwrapped firstPage
      simp only [hzero, BitVec.ofNat_eq_ofNat, BitVec.zero_add, hstart]
      omega
    · rwa [show _ = (0 : Addr) from hzero] at h
    · rw [show _ = (0 : Addr) from hzero]
      exact h.1

/-- A file of forty bytes, 1 to 40. -/
def countedFile : List Byte := (List.range 40).map fun i => BitVec.ofNat 8 (i + 1)

def fixedHeader : Ehdr where
  e_type := ET_EXEC
  e_entry := 0x400
  e_phoff := 0
  e_phnum := 2

def fixedText : Phdr where
  p_type := PT_LOAD
  p_flags := PF_R ||| PF_X
  p_offset := 0
  p_vaddr := 0x400
  p_filesz := 20
  p_memsz := 20
  p_align := 16

/-- The data of the executable, with zeros to the end of its page and more. -/
def fixedData : Phdr where
  p_type := PT_LOAD
  p_flags := PF_R ||| PF_W
  p_offset := 21
  p_vaddr := 0x425
  p_filesz := 6
  p_memsz := 30
  p_align := 16

theorem the_image_of_a_text_and_a_data_segment :
    ∃ l' s', map_segments steadyKernel 16 countedFile fixedHeader [fixedText, fixedData]
        (init_link_map 0 emptyImage) emptyProc = .ok (l', s') ∧
      ∀ ph ∈ loadSegments [fixedText, fixedData], Loaded 16 countedFile 0 ph s'.space := by
  have hsegs : loadSegments [fixedText, fixedData] = [fixedText, fixedData] := by decide
  refine (the_image_is_right_iff_the_file_has_its_pages steadyKernel 16 countedFile fixedHeader
    [fixedText, fixedData] (init_link_map 0 emptyImage) emptyProc (fun _ => ⟨_, rfl⟩)
    ⟨4, by decide, rfl⟩ rfl rfl ?_ ?_).mpr ⟨?_, ?_⟩
  all_goals rw [hsegs]
  · simp only [List.forall_mem_cons, List.not_mem_nil, false_implies, implies_true, and_true]
    exact ⟨⟨by decide, by decide⟩, by decide, by decide⟩
  · have hdisj : PagesDisjoint 16 fixedText fixedData := by
      rintro x ⟨h1, h2⟩
      have hend : segEnd 16 fixedText = 0x420 := by decide
      have hstart : segStart 16 fixedData = 0x420 := by decide
      unfold InPages at h1 h2
      omega
    exact List.pairwise_pair.mpr hdisj
  · exact List.cons_ne_nil _ _
  · simp only [List.forall_mem_cons, List.not_mem_nil, false_implies, implies_true, and_true]
    exact ⟨⟨by decide, fun h => absurd h (by decide)⟩, by decide, fun h => absurd h (by decide)⟩

/-- Eight zeros that start inside a page, with a file offset behind the end of
the file. -/
def strayZeros : Phdr where
  p_type := PT_LOAD
  p_flags := PF_R ||| PF_W
  p_offset := 0x1ff8
  p_vaddr := 0x400ff8
  p_filesz := 0
  p_memsz := 8
  p_align := 0x1000

def strayHeader : Ehdr where
  e_type := ET_EXEC
  e_entry := 0x400ff8
  e_phoff := 64
  e_phnum := 1

/-- A number of `n` bytes. -/
def field (n x : Nat) : List Byte := (List.range n).map (byteOf x)

/-- The file of 120 bytes with this header and this segment. -/
def strayFile : List Byte :=
  [0x7f, 0x45, 0x4c, 0x46, 2, 1, 1] ++ List.replicate 9 0 ++ field 2 2 ++ field 2 62 ++ field 4 1 ++
    field 8 0x400ff8 ++ field 8 64 ++ field 8 0 ++ field 4 0 ++ field 2 64 ++ field 2 56 ++
    field 2 1 ++ field 6 0 ++
    (field 4 1 ++ field 4 6 ++ field 8 0x1ff8 ++ field 8 0x400ff8 ++ field 8 0x400ff8 ++
      field 8 0 ++ field 8 8 ++ field 8 0x1000)

/-- The page at offset 0x1000 is mapped for the zeros, which is behind the end
of the file, so the `memset` ends the process. -/
theorem zeros_behind_the_end_of_the_file_are_not_made :
    SegmentFits 0x1000 strayZeros ∧ strayZeros.p_filesz = 0 ∧ strayFile.length = 120 ∧
      map_segments steadyKernel 0x1000 strayFile strayHeader [strayZeros]
        (init_link_map 0 emptyImage) emptyProc = .error (.fault .badStore) := by
  refine ⟨⟨by decide, by decide⟩, rfl, by decide, ?_⟩
  have hstop : ((map_segments steadyKernel 0x1000 strayFile strayHeader [strayZeros]
      (init_link_map 0 emptyImage) emptyProc).map fun _ => ()) = .error (.fault .badStore) := by
    decide +kernel
  cases hrun : map_segments steadyKernel 0x1000 strayFile strayHeader [strayZeros]
      (init_link_map 0 emptyImage) emptyProc with
  | ok r =>
    rw [hrun] at hstop
    cases hstop
  | error e =>
    rw [hrun] at hstop
    exact congrArg Except.error (Except.error.inj hstop)

end elf_loader.load
