-- The mapping of a shared object (`map_object_fd` of rtld/load.c, the
-- `ET_DYN` path): one `mmap` over the whole span, then the load commands from
-- the label `postmap` of the first one on. The one `mmap` takes the file from
-- offset 0 on, and the ordinary loop from the offset of the segment.
import BinaryLab.MemoryImage

open binary_lab.runs binary_lab.words binary_lab.pages

namespace elf_loader.load

/-! ## Segments in ascending order -/

/-- Every page of `ph1` lies below every page of `ph2`. -/
def Below (ps : Addr) (ph1 ph2 : Phdr) : Prop := segEnd ps ph1 ≤ segStart ps ph2

instance (ps : Addr) (ph1 ph2 : Phdr) : Decidable (Below ps ph1 ph2) :=
  inferInstanceAs (Decidable (_ ≤ _))

section

variable {kern : Kernel} {ps : Addr} {file : List Byte}

theorem segStart_le_segEnd (hps : PageSize ps) (ph : Phdr) : segStart ps ph ≤ segEnd ps ph := by
  have h1 := segStart_le ps ph
  have h2 := le_segEnd hps ph
  omega

theorem Below.disjoint {ph1 ph2 : Phdr} (h : Below ps ph1 ph2) : PagesDisjoint ps ph1 ph2 := by
  rintro x ⟨h1, h2⟩
  unfold Below at h
  unfold InPages at h1 h2
  omega

/-- A hole needs two segments. -/
theorem parse_phdr_loop_holes {phdr : List Phdr} {st st' : PhdrState}
    (h : parse_phdr_loop ps st phdr = .ok st')
    (hst : st.has_holes = true → 2 ≤ st.loadcmds.length) :
    st'.has_holes = true → 2 ≤ st'.loadcmds.length := by
  induction phdr generalizing st with
  | nil =>
    cases h
    exact hst
  | cons ph phs ih =>
    rw [parse_phdr_loop, bind_eq_ok] at h
    obtain ⟨st1, h1, h2⟩ := h
    apply ih h2
    unfold parse_phdr_entry at h1
    split_ifs at h1
    · simp only [bind_eq_ok] at h1
      obtain ⟨_, _, _, _, h1⟩ := h1
      cases h1
      cases hlast : st.loadcmds.getLast? with
      | none =>
        intro hh
        have := hst hh
        simp only [List.length_append, List.length_singleton]
        omega
      | some before =>
        have hne : st.loadcmds ≠ [] := by
          rintro h0
          simp [h0] at hlast
        have := List.length_pos_iff.mpr hne
        intro _
        simp only [List.length_append, List.length_singleton]
        omega
    all_goals
      cases h1
      exact hst

/-! ## The first segment -/

/-- The length of the one mapping, from the first page of `ph0` on. -/
def spanLen (ps : Addr) (ph0 last : Phdr) : Nat :=
  last.p_vaddr.toNat + last.p_memsz.toNat - segStart ps ph0

/-- What the one mapping at `base` leaves `k` bytes into the first segment: the
file from offset 0 on, as far as the mapping and the pages of the file reach. -/
def firstGet (ps : Addr) (file : List Byte) (base : Addr) (sp : Space) (ph0 last : Phdr)
    (k : Nat) : Option Byte :=
  let y := ph0.p_offset.toNat % ps.toNat + k
  if y < ceilNat ps.toNat (spanLen ps ph0 last) then
    if floorNat ps.toNat y < file.length then some (file.getD y 0) else none
  else sp.get (base + BitVec.ofNat 64 y)

/-- The file has the data of the first segment in its first page, too. -/
def FirstSegmentMatches (ps : Addr) (file : List Byte) (base : Addr) (sp : Space)
    (ph0 last : Phdr) : Prop :=
  ∀ k < ph0.p_filesz.toNat, ∃ b, file[ph0.p_offset.toNat + k]? = some b ∧
    firstGet ps file base sp ph0 last k = some b

theorem FirstSegmentMatches.data {ps : Addr} {file : List Byte} {base : Addr} {sp : Space}
    {ph0 last : Phdr} (h : FirstSegmentMatches ps file base sp ph0 last) :
    ∀ k < ph0.p_filesz.toNat, ph0.p_offset.toNat + k < file.length := by
  intro k hk
  obtain ⟨b, hb, _⟩ := h k hk
  exact (List.getElem?_eq_some_iff.mp hb).1

/-- The address space after the one mapping, holes included. -/
def spanMapped (ps : Addr) (file : List Byte) (base : Addr) (ph0 last : Phdr) (has_holes : Bool)
    (sp : Space) : Space :=
  let whole := sp.mapFile ps.toNat base
    ((loadcmdOf ps last).allocend - (loadcmdOf ps ph0).mapstart).toNat (protOf ph0.p_flags) file 0
  if has_holes then
    whole.protect ps.toNat (base - (loadcmdOf ps ph0).mapstart + (loadcmdOf ps ph0).mapend)
      ((loadcmdOf ps last).mapstart - (loadcmdOf ps ph0).mapend).toNat PROT_NONE
  else whole

theorem sub_mod_page (hps : PageSize ps) {x y : Addr} (hx : x.toNat % ps.toNat = 0)
    (hy : y.toNat % ps.toNat = 0) : (x - y).toNat % ps.toNat = 0 := by
  have hneg : (-y).toNat % ps.toNat = 0 := by
    obtain ⟨k, hk, hps2⟩ := hps.toNat_eq
    have hdvd : ps.toNat ∣ 2 ^ 64 := by
      rw [hps2]
      exact Nat.pow_dvd_pow 2 (by omega)
    rw [BitVec.toNat_neg, Nat.mod_mod_of_dvd _ hdvd]
    exact Nat.mod_eq_zero_of_dvd (Nat.dvd_sub hdvd (Nat.dvd_of_mod_eq_zero hy))
  rw [BitVec.sub_eq_add_neg]
  exact add_mod_page hps hx hneg

theorem firstPage_of_base (base : Addr) (ph0 : Phdr) :
    firstPage ps (base - (loadcmdOf ps ph0).mapstart) ph0 = base := BitVec.sub_add_cancel _ _

section

variable {ph0 last : Phdr}

theorem segStart_le_last (hps : PageSize ps) (hord : last = ph0 ∨ Below ps ph0 last) :
    segStart ps ph0 ≤ last.p_vaddr.toNat := by
  have h1 := segStart_le ps last
  rcases hord with rfl | hord
  · exact h1
  · have h2 := segStart_le_segEnd hps ph0
    unfold Below at hord
    omega

theorem toNat_span (hps : PageSize ps) (hlast : segEnd ps last < 2 ^ 64)
    (hord : last = ph0 ∨ Below ps ph0 last) :
    ((loadcmdOf ps last).allocend - (loadcmdOf ps ph0).mapstart).toNat =
      spanLen ps ph0 last := by
  have h0 := segStart_le_last hps hord
  have halloc := toNat_allocend hps hlast
  have hstart := toNat_mapstart hps ph0
  rw [BitVec.toNat_sub_of_le (by rw [BitVec.le_def, halloc, hstart]; omega), halloc, hstart,
    spanLen]

/-- The one mapping covers the file pages of the first segment, unless it is
the only one and has more data than memory. -/
theorem span_covers (hps : PageSize ps) (hord : last = ph0 ∨ Below ps ph0 last)
    (hmem : last = ph0 → ph0.p_filesz.toNat ≤ ph0.p_memsz.toNat) :
    ceilNat ps.toNat (dataLen ps ph0) ≤ ceilNat ps.toNat (spanLen ps ph0 last) := by
  have h0 := segStart_le ps ph0
  by_cases heq : last = ph0
  · have := hmem heq
    subst heq
    apply ceilNat_mono hps.pos
    unfold dataLen spanLen
    omega
  · have hbelow := hord.resolve_left heq
    have h1 := segStart_le ps last
    have hpages := dataPages_le_segEnd hps ph0
    have hle : ceilNat ps.toNat (dataLen ps ph0) ≤ spanLen ps ph0 last := by
      unfold Below at hbelow
      unfold spanLen
      omega
    exact Nat.le_trans hle (le_ceilNat hps.pos)

theorem spanMapped_byte (base : Addr) (has_holes : Bool) (sp : Space) (a : Addr)
    (hlen : ((loadcmdOf ps last).allocend - (loadcmdOf ps ph0).mapstart).toNat =
      spanLen ps ph0 last) :
    (spanMapped ps file base ph0 last has_holes sp).byte a =
      if (a - base).toNat < ceilNat ps.toNat (spanLen ps ph0 last) then
        file.getD (a - base).toNat 0
      else sp.byte a := by
  unfold spanMapped
  rw [hlen]
  cases has_holes <;> simp [Space.mapFile, Space.protect]

/-- Behind the one mapping, with no holes, everything is as before. -/
theorem spanMapped_behind (base : Addr) (sp : Space) (a : Addr)
    (hlen : ((loadcmdOf ps last).allocend - (loadcmdOf ps ph0).mapstart).toNat =
      spanLen ps ph0 last)
    (ha : ¬ (a - base).toNat < ceilNat ps.toNat (spanLen ps ph0 last)) :
    SameAt sp (spanMapped ps file base ph0 last false sp) a := by
  unfold spanMapped
  rw [hlen]
  exact ⟨if_neg ha, if_neg ha, if_neg ha⟩

theorem spanMapped_backed (base : Addr) (has_holes : Bool) (sp : Space) (a : Addr)
    (hlen : ((loadcmdOf ps last).allocend - (loadcmdOf ps ph0).mapstart).toNat =
      spanLen ps ph0 last)
    (ha : (a - base).toNat < ceilNat ps.toNat (spanLen ps ph0 last)) :
    (spanMapped ps file base ph0 last has_holes sp).backed a =
      decide (floorNat ps.toNat (a - base).toNat < file.length) := by
  unfold spanMapped
  rw [hlen]
  cases has_holes <;> simp only [Bool.false_eq_true, if_false, if_true, Space.mapFile,
    Space.protect, if_pos ha, Nat.zero_add]

/-- The `__mprotect` of the holes reaches from the end of the file pages of the
first segment to the first page of the last one. -/
theorem in_hole_iff (hps : PageSize ps) (h0 : segEnd ps ph0 < 2 ^ 64) (hbelow : Below ps ph0 last)
    (base a : Addr) :
    (a - (base - (loadcmdOf ps ph0).mapstart + (loadcmdOf ps ph0).mapend)).toNat <
        ceilNat ps.toNat ((loadcmdOf ps last).mapstart - (loadcmdOf ps ph0).mapend).toNat ↔
      ceilNat ps.toNat (dataLen ps ph0) ≤ (a - base).toNat ∧
        (a - base).toNat < segStart ps last - segStart ps ph0 := by
  have hpages := dataPages_le_segEnd hps ph0
  have hmapend := toNat_mapend_pages hps h0
  have hstart := toNat_mapstart hps ph0
  have hlastStart := toNat_mapstart hps last
  have hlt := last.p_vaddr.isLt
  have hle := segStart_le ps last
  unfold Below at hbelow
  have hhole : base - (loadcmdOf ps ph0).mapstart + (loadcmdOf ps ph0).mapend =
      base + BitVec.ofNat 64 (ceilNat ps.toNat (dataLen ps ph0)) := by
    have : (loadcmdOf ps ph0).mapend = (loadcmdOf ps ph0).mapstart +
        BitVec.ofNat 64 (ceilNat ps.toNat (dataLen ps ph0)) := by
      apply BitVec.eq_of_toNat_eq
      rw [toNat_add_ofNat (by omega), hmapend, hstart]
    rw [this, ← BitVec.add_assoc, BitVec.sub_add_cancel]
  have hof : (BitVec.ofNat 64 (ceilNat ps.toNat (dataLen ps ph0))).toNat =
      ceilNat ps.toNat (dataLen ps ph0) := by
    rw [BitVec.toNat_ofNat]
    omega
  have hholeLen : ((loadcmdOf ps last).mapstart - (loadcmdOf ps ph0).mapend).toNat =
      segStart ps last - (segStart ps ph0 + ceilNat ps.toNat (dataLen ps ph0)) := by
    rw [BitVec.toNat_sub_of_le (by rw [BitVec.le_def, hmapend, hlastStart]; omega),
      hmapend, hlastStart]
  have hmod : (segStart ps last -
      (segStart ps ph0 + ceilNat ps.toNat (dataLen ps ph0))) % ps.toNat = 0 := by
    apply Nat.mod_eq_zero_of_dvd
    apply Nat.dvd_sub (Nat.dvd_of_mod_eq_zero segStart_mod)
    exact Nat.dvd_add (Nat.dvd_of_mod_eq_zero segStart_mod)
      (Nat.dvd_of_mod_eq_zero (ceilNat_mod _ _))
  rw [hhole, hholeLen, ceilNat_of_mod hps.pos hmod, offset_lt_iff (by rw [hof]; omega), hof]
  omega

/-- The hole starts behind the file pages of the first segment, so they keep
their protection. -/
theorem spanMapped_prot (hps : PageSize ps) (h0 : segEnd ps ph0 < 2 ^ 64) (base : Addr)
    {has_holes : Bool} (hholes : has_holes = true → Below ps ph0 last) (sp : Space) (a : Addr)
    (hlen : ((loadcmdOf ps last).allocend - (loadcmdOf ps ph0).mapstart).toNat =
      spanLen ps ph0 last)
    (hdata : (a - base).toNat < ceilNat ps.toNat (dataLen ps ph0))
    (ha : (a - base).toNat < ceilNat ps.toNat (spanLen ps ph0 last)) :
    (spanMapped ps file base ph0 last has_holes sp).prot a = some (protOf ph0.p_flags) := by
  unfold spanMapped
  rw [hlen]
  cases has_holes with
  | false => simp only [Bool.false_eq_true, if_false, Space.mapFile, if_pos ha]
  | true =>
    have hout := mt (in_hole_iff hps h0 (hholes rfl) base a).mp (by omega)
    simp only [if_true, Space.protect, Space.mapFile, if_neg hout, if_pos ha]

/-- The file has as many bytes as there are from its first page to the end of the
data of the first segment, and it has its header. -/
theorem first_page_in_file (hps : PageSize ps) (hfit0 : SegmentFits ps ph0) (hne : file ≠ [])
    (hdata : ∀ k < ph0.p_filesz.toNat, ph0.p_offset.toNat + k < file.length) {y : Nat}
    (hy : floorNat ps.toNat y < dataLen ps ph0) : floorNat ps.toNat y < file.length := by
  have hoff := toNat_mapoff hps hfit0.asserts
  have hpos := List.length_pos_iff.mpr hne
  have hstart := segStart_le ps ph0
  unfold dataLen at hy
  by_cases hz : ph0.p_filesz.toNat = 0
  · have hlt := Nat.mod_lt ph0.p_vaddr.toNat hps.pos
    have hin : ph0.p_vaddr.toNat - segStart ps ph0 = ph0.p_vaddr.toNat % ps.toNat := by
      have := Nat.mod_le ph0.p_vaddr.toNat ps.toNat
      unfold segStart floorNat
      omega
    have hzero : floorNat ps.toNat y = 0 :=
      Nat.eq_zero_of_dvd_of_lt (Nat.dvd_of_mod_eq_zero floorNat_mod)
        (show floorNat ps.toNat y < ps.toNat by omega)
    rw [hzero]
    exact hpos
  · have hlast := hdata (ph0.p_filesz.toNat - 1) (by omega)
    omega

/-- The first segment from the label `postmap` on: its data stays as the one
mapping left it, and what is behind it is zero. -/
theorem first_postmap (hk : kern.Succeeds) (hps : PageSize ps) (hne : file ≠ [])
    (hfit0 : SegmentFits ps ph0) (hlast : SegmentFits ps last)
    (hdata0 : ∀ k < ph0.p_filesz.toNat, ph0.p_offset.toNat + k < file.length)
    (hord : last = ph0 ∨ Below ps ph0 last) (header : Ehdr) {base : Addr} {has_holes : Bool}
    (hholes : has_holes = true → Below ps ph0 last) (hbase : base.toNat % ps.toNat = 0)
    (hroom : base.toNat + (segEnd ps ph0 - segStart ps ph0) < 2 ^ 64) (l : LinkMap) (s : Proc)
    (sp : Space) (haddr : l.l_addr = base - (loadcmdOf ps ph0).mapstart)
    (hsp : s.space = spanMapped ps file base ph0 last has_holes sp) :
    ∃ l' s', postmap_body kern ps header (loadcmdOf ps ph0) l s = .ok (l', s') ∧
      l'.l_addr = l.l_addr ∧
      (∀ a, (a - base).toNat < dataLen ps ph0 → SameAt s.space s'.space a) ∧
      ∀ k, ph0.p_filesz.toNat ≤ k → k < ph0.p_memsz.toNat →
        s'.space.get (l.l_addr + ph0.p_vaddr + BitVec.ofNat 64 k) = some 0 := by
  have hlen := toNat_span hps hlast.no_wrap hord
  have hfirst : firstPage ps l.l_addr ph0 = base := by rw [haddr, firstPage_of_base]
  by_cases hmem : last = ph0 → ph0.p_filesz.toNat ≤ ph0.p_memsz.toNat
  · have hcover := span_covers hps hord hmem
    have haligned : l.l_addr.toNat % ps.toNat = 0 := by
      rw [haddr]
      exact sub_mod_page hps hbase (by rw [toNat_mapstart hps]; exact segStart_mod)
    have hrun : RunsUnwrapped ps l.l_addr ph0 := by
      unfold RunsUnwrapped
      rw [hfirst]
      exact hroom
    have hprot : ∀ a, (a - firstPage ps l.l_addr ph0).toNat <
        ceilNat ps.toNat (dataLen ps ph0) → s.space.prot a = some (protOf ph0.p_flags) := by
      intro a ha
      rw [hfirst] at ha
      rw [hsp, spanMapped_prot hps hfit0.no_wrap base hholes sp a hlen ha (by omega)]
    have hback : ∀ a, dataLen ps ph0 ≤ (a - firstPage ps l.l_addr ph0).toNat →
        (a - firstPage ps l.l_addr ph0).toNat < ceilNat ps.toNat (dataLen ps ph0) →
        (a - firstPage ps l.l_addr ph0).toNat < memLen ps ph0 → s.space.backed a = true := by
      intro a _ ha _
      rw [hfirst] at ha
      rw [hsp, spanMapped_backed base has_holes sp a hlen (by omega), decide_eq_true_eq]
      exact first_page_in_file hps hfit0 hne hdata0 (floorNat_lt_of_lt_ceilNat hps.pos ha)
    obtain ⟨l', s', hbody, hl', _, _, hdata, hzero⟩ :=
      postmap_body_segment hk hps header hfit0.no_wrap l s haligned hrun hprot hback
    rw [hfirst] at hdata
    exact ⟨l', s', hbody, hl', hdata, hzero⟩
  · -- More data than memory: there are no zeros to make.
    rw [Classical.not_imp] at hmem
    have hcmp : ¬ (loadcmdOf ps ph0).dataend < (loadcmdOf ps ph0).allocend := by
      rw [BitVec.lt_def, toNat_dataend hps hfit0.no_wrap, toNat_allocend hps hfit0.no_wrap]
      omega
    unfold postmap_body
    simp only [if_neg hcmp]
    exact ⟨_, s, rfl, (note_segment_mapped header _ l).2, fun _ _ => ⟨rfl, rfl, rfl⟩,
      fun k h1 h2 => absurd h2 (by omega)⟩

end

end

/-! ## The whole object -/

/-- The segments are in ascending order, and the kernel picks a page boundary
with room for them. -/
structure SharedLayout (ps : Addr) (phdr : List Phdr) (base : Addr) (ph0 last : Phdr) : Prop where
  page : PageSize ps
  aligned : base.toNat % ps.toNat = 0
  head : (loadSegments phdr).head? = some ph0
  last : (loadSegments phdr).getLast? = some last
  no_wrap : ∀ ph ∈ loadSegments phdr, segEnd ps ph < 2 ^ 64
  ascending : (loadSegments phdr).Pairwise (Below ps)
  room : ∀ ph ∈ loadSegments phdr, base.toNat + (segEnd ps ph - segStart ps ph0) < 2 ^ 64

namespace SharedLayout

variable {kern : Kernel} {ps : Addr} {file : List Byte} {header : Ehdr} {phdr : List Phdr}
  {s : Proc} {base : Addr} {ph0 last : Phdr}

theorem cons (h : SharedLayout ps phdr base ph0 last) :
    ∃ phs, loadSegments phdr = ph0 :: phs ∧ ∀ ph ∈ phs, Below ps ph0 ph := by
  have hhead := h.head
  have hord := h.ascending
  cases hseg : loadSegments phdr with
  | nil => simp [hseg] at hhead
  | cons p phs =>
    rw [hseg] at hhead hord
    cases hhead
    exact ⟨phs, rfl, (List.pairwise_cons.mp hord).1⟩

theorem mem_head (h : SharedLayout ps phdr base ph0 last) : ph0 ∈ loadSegments phdr :=
  List.mem_of_head? h.head

theorem mem_last (h : SharedLayout ps phdr base ph0 last) : last ∈ loadSegments phdr :=
  List.mem_of_getLast? h.last

theorem last_or (h : SharedLayout ps phdr base ph0 last) : last = ph0 ∨ Below ps ph0 last := by
  obtain ⟨phs, hphs, hbelow⟩ := h.cons
  have hmem := h.mem_last
  rw [hphs] at hmem
  exact (List.mem_cons.mp hmem).imp id (hbelow last)

theorem addr_mod (h : SharedLayout ps phdr base ph0 last) :
    (base - (loadcmdOf ps ph0).mapstart).toNat % ps.toNat = 0 :=
  sub_mod_page h.page h.aligned (by rw [toNat_mapstart h.page]; exact segStart_mod)

/-- The pages of each segment lie above the base and do not wrap. -/
theorem runs (h : SharedLayout ps phdr base ph0 last) :
    ∀ ph ∈ loadSegments phdr, RunsUnwrapped ps (base - (loadcmdOf ps ph0).mapstart) ph := by
  obtain ⟨phs, hphs, hbelow⟩ := h.cons
  intro ph hph
  have hroom := h.room ph hph
  have h0 := toNat_mapstart h.page ph0
  have h1 := toNat_mapstart h.page ph
  have hle := segStart_le_segEnd h.page ph
  have hstart : segStart ps ph0 ≤ segStart ps ph := by
    rw [hphs] at hph
    rcases List.mem_cons.mp hph with rfl | hph
    · exact Nat.le_refl _
    · have := hbelow ph hph
      have := segStart_le_segEnd h.page ph0
      unfold Below at *
      omega
  have hpage : firstPage ps (base - (loadcmdOf ps ph0).mapstart) ph =
      base + BitVec.ofNat 64 (segStart ps ph - segStart ps ph0) := by
    apply BitVec.eq_of_toNat_eq
    rw [toNat_add_ofNat (by omega)]
    simp only [firstPage, BitVec.toNat_add, BitVec.toNat_sub, h0, h1]
    omega
  unfold RunsUnwrapped
  rw [hpage, toNat_add_ofNat (by omega)]
  omega

/-- The one mapping, with the holes taken out, and then the first segment
from `postmap` on and every later segment as usual. -/
theorem map_segments_eq (h : SharedLayout ps phdr base ph0 last) (hk : kern.Succeeds)
    (hbase : kern s.calls = .done base) (hdyn : header.e_type = ET_DYN) {l : LinkMap}
    {st : PhdrState} (hparse : parse_phdr ps l phdr = .ok st) {phs : List Phdr}
    (hphs : loadSegments phdr = ph0 :: phs) :
    ∃ (l1 : LinkMap) (s1 : Proc), (st.has_holes = true → Below ps ph0 last) ∧
      l1.l_addr = base - (loadcmdOf ps ph0).mapstart ∧
      l1.l_map_start = base ∧
      l1.l_map_end = base + ((loadcmdOf ps last).allocend - (loadcmdOf ps ph0).mapstart) ∧
      l1.l_contiguous = true ∧
      s1.space = spanMapped ps file base ph0 last st.has_holes s.space ∧
      map_segments kern ps file header phdr l s =
        postmap_body kern ps header (loadcmdOf ps ph0) l1 s1 >>= fun r =>
          loadcmd_loop kern ps file header r.1 r.2 (phs.map (loadcmdOf ps)) := by
  have hcmds : st.loadcmds = (loadSegments phdr).map (loadcmdOf ps) :=
    parse_phdr_loop_loadcmds hparse
  have hholes : st.has_holes = true → Below ps ph0 last := by
    intro hh
    have h2 := parse_phdr_loop_holes hparse (by simp) hh
    have hlast := h.last
    have hord := h.ascending
    rw [hphs, List.pairwise_cons] at hord
    rw [hcmds, hphs] at h2
    cases phs with
    | nil => simp at h2
    | cons q qs =>
      rw [hphs, List.getLast?_cons_cons] at hlast
      exact hord.1 last (List.mem_of_getLast? hlast)
  have hcmd0 : st.loadcmds.head? = some (loadcmdOf ps ph0) := by rw [hcmds, hphs]; rfl
  have hcmdLast : st.loadcmds.getLast? = some (loadcmdOf ps last) := by
    rw [hcmds, List.getLast?_map, h.last]
    rfl
  unfold map_segments
  rw [hparse]
  simp only [bind, Except.bind, hcmd0, hcmdLast, hdyn, if_true, mmap_chosen hbase,
    mprotect_done hk]
  unfold map_object_loadcmd
  rw [hcmds, hphs]
  simp only [List.map_cons, if_true]
  refine ⟨_, _, hholes, ?_, ?_, ?_, ?_, ?_, rfl⟩
  · rfl
  · rfl
  · rfl
  · rfl
  · cases st.has_holes <;> rfl

end SharedLayout

/-- The setting of the `ET_DYN` path: the file has its header, the segments are
as for a fixed-address executable, in ascending order, and the kernel picks a
page boundary with room for them. -/
structure SharedSetup (kern : Kernel) (ps : Addr) (file : List Byte) (header : Ehdr)
    (phdr : List Phdr) (s : Proc) (base : Addr) (ph0 last : Phdr) : Prop where
  kernel : kern.Succeeds
  chosen : kern s.calls = .done base
  page : PageSize ps
  aligned : base.toNat % ps.toNat = 0
  dyn : header.e_type = ET_DYN
  nonempty : file ≠ []
  head : (loadSegments phdr).head? = some ph0
  last : (loadSegments phdr).getLast? = some last
  fits : ∀ ph ∈ loadSegments phdr, SegmentFits ps ph
  ascending : (loadSegments phdr).Pairwise (Below ps)
  room : ∀ ph ∈ loadSegments phdr, base.toNat + (segEnd ps ph - segStart ps ph0) < 2 ^ 64

namespace SharedSetup

variable {kern : Kernel} {ps : Addr} {file : List Byte} {header : Ehdr} {phdr : List Phdr}
  {s : Proc} {base : Addr} {ph0 last : Phdr}

theorem layout (h : SharedSetup kern ps file header phdr s base ph0 last) :
    SharedLayout ps phdr base ph0 last where
  page := h.page
  aligned := h.aligned
  head := h.head
  last := h.last
  no_wrap := fun ph hph => (h.fits ph hph).no_wrap
  ascending := h.ascending
  room := h.room

theorem disjoint (h : SharedSetup kern ps file header phdr s base ph0 last) :
    (loadSegments phdr).Pairwise (PagesDisjoint ps) := h.ascending.imp Below.disjoint

/-- The bytes that the one mapping leaves at the place of the first segment. -/
theorem firstGet_eq (h : SharedSetup kern ps file header phdr s base ph0 last) {has_holes : Bool}
    (hholes : has_holes = true → Below ps ph0 last) {k : Nat} (hk : k < ph0.p_filesz.toNat) :
    (base - (loadcmdOf ps ph0).mapstart + ph0.p_vaddr + BitVec.ofNat 64 k - base).toNat <
        dataLen ps ph0 ∧
      (spanMapped ps file base ph0 last has_holes s.space).get
        (base - (loadcmdOf ps ph0).mapstart + ph0.p_vaddr + BitVec.ofNat 64 k) =
        firstGet ps file base s.space ph0 last k := by
  have hfit := h.fits ph0 h.layout.mem_head
  have hlen := toNat_span h.page (h.fits last h.layout.mem_last).no_wrap h.layout.last_or
  have hlo := segStart_le ps ph0
  have hhi := le_segEnd h.page ph0
  have hwrap := hfit.no_wrap
  have hstart := toNat_mapstart h.page ph0
  have hmod : ph0.p_offset.toNat % ps.toNat = ph0.p_vaddr.toNat - segStart ps ph0 := by
    have := Nat.mod_le ph0.p_vaddr.toNat ps.toNat
    rw [← same_page_offset h.page hfit.asserts, segStart, floorNat]
    omega
  have hplace : base - (loadcmdOf ps ph0).mapstart + ph0.p_vaddr + BitVec.ofNat 64 k =
      base + BitVec.ofNat 64 (ph0.p_offset.toNat % ps.toNat + k) := by
    rw [hmod]
    apply BitVec.eq_of_toNat_eq
    simp only [BitVec.toNat_add, BitVec.toNat_sub, BitVec.toNat_ofNat, hstart]
    omega
  have hback : (base + BitVec.ofNat 64 (ph0.p_offset.toNat % ps.toNat + k) - base).toNat =
      ph0.p_offset.toNat % ps.toNat + k := by
    have : base + BitVec.ofNat 64 (ph0.p_offset.toNat % ps.toNat + k) - base =
        BitVec.ofNat 64 (ph0.p_offset.toNat % ps.toNat + k) := by bv_omega
    rw [this, BitVec.toNat_ofNat]
    omega
  have hdata : ph0.p_offset.toNat % ps.toNat + k < dataLen ps ph0 := by
    unfold dataLen
    omega
  have hpages := le_ceilNat (n := dataLen ps ph0) h.page.pos
  rw [hplace, hback]
  refine ⟨hdata, ?_⟩
  unfold firstGet
  by_cases hin : ph0.p_offset.toNat % ps.toNat + k < ceilNat ps.toNat (spanLen ps ph0 last)
  · have hprot : (spanMapped ps file base ph0 last has_holes s.space).prot
        (base + BitVec.ofNat 64 (ph0.p_offset.toNat % ps.toNat + k)) = _ :=
      spanMapped_prot h.page hwrap base hholes s.space _ hlen (by omega) (by omega)
    have hbacked : (spanMapped ps file base ph0 last has_holes s.space).backed
        (base + BitVec.ofNat 64 (ph0.p_offset.toNat % ps.toNat + k)) = _ :=
      spanMapped_backed base has_holes s.space _ hlen (by omega)
    rw [hback] at hbacked
    rw [if_pos hin, Space.get, hprot, hbacked, spanMapped_byte base has_holes s.space _ hlen,
      hback, if_pos hin]
    simp only [Option.isSome_some, Bool.true_and, decide_eq_true_eq]
  · -- The mapping ends in the data, so the segment is the only one.
    have honly : has_holes = false := by
      by_contra hh
      have hbelow := hholes (by simpa using hh)
      have hne : last ≠ ph0 := by
        rintro rfl
        unfold Below at hbelow
        have := segStart_le ps last
        omega
      have hcover := span_covers h.page (.inr hbelow) fun heq => absurd heq hne
      omega
    rw [if_neg hin, honly]
    exact (spanMapped_behind base s.space _ hlen (by rw [hback]; exact hin)).get

/-- What the `ET_DYN` path leaves: the bytes of the one mapping in the first
segment, with zeros behind them, and the right bytes in every later one. -/
theorem map_segments_shared (h : SharedSetup kern ps file header phdr s base ph0 last)
    (l : LinkMap) (hdata0 : ∀ k < ph0.p_filesz.toNat, ph0.p_offset.toNat + k < file.length)
    (hin : ∀ ph ∈ (loadSegments phdr).tail, InFile ps file ph) :
    ∃ l' s', map_segments kern ps file header phdr l s = .ok (l', s') ∧
      l'.l_addr = base - (loadcmdOf ps ph0).mapstart ∧
      (∀ ph ∈ (loadSegments phdr).tail, HasContents file l'.l_addr ph s'.space) ∧
      (∀ k < ph0.p_filesz.toNat, s'.space.get (l'.l_addr + ph0.p_vaddr + BitVec.ofNat 64 k) =
        firstGet ps file base s.space ph0 last k) ∧
      ∀ k, ph0.p_filesz.toNat ≤ k → k < ph0.p_memsz.toNat →
        s'.space.get (l'.l_addr + ph0.p_vaddr + BitVec.ofNat 64 k) = some 0 := by
  obtain ⟨phs, hphs, hbelow⟩ := h.layout.cons
  obtain ⟨st, hst, _⟩ := parse_phdr_loop_segments ps
    { l, loadcmds := [], has_holes := false } fun ph hph => (h.fits ph hph).asserts
  obtain ⟨l1, s1, hholes, hl1, _, _, _, hs1, hstep⟩ :=
    h.layout.map_segments_eq h.kernel h.chosen h.dyn hst hphs
  obtain ⟨l2, s2, hbody, hl2, hdata, hzero⟩ := first_postmap h.kernel h.page h.nonempty
    (h.fits ph0 h.layout.mem_head) (h.fits last h.layout.mem_last) hdata0 h.layout.last_or header
    hholes h.aligned (h.room ph0 h.layout.mem_head) l1 s1 s.space hl1 hs1
  have hdisj := h.disjoint
  rw [hphs, List.pairwise_cons] at hdisj
  rw [hphs, List.tail_cons] at hin ⊢
  rw [hl1] at hl2 hzero
  obtain ⟨l', s', hloop, hl', hall, hframe⟩ := loadcmd_loop_segments h.kernel h.page header phs
    l2 s2 (fun ph hph => h.fits ph (by simp [hphs, hph])) hin hdisj.2
    (by rw [hl2]; exact h.layout.addr_mod)
    (by rw [hl2]; exact fun ph hph => h.layout.runs ph (by simp [hphs, hph]))
  rw [hl2] at hl' hall hframe
  -- The later segments keep to their own pages.
  have hkeep : ∀ k < max ph0.p_filesz.toNat ph0.p_memsz.toNat,
      s'.space.get (base - (loadcmdOf ps ph0).mapstart + ph0.p_vaddr + BitVec.ofNat 64 k) =
        s2.space.get (base - (loadcmdOf ps ph0).mapstart + ph0.p_vaddr + BitVec.ofNat 64 k) := by
    intro k hk
    have hlo := segStart_le ps ph0
    have hhi := le_segEnd h.page ph0
    have hwrap := (h.fits ph0 h.layout.mem_head).no_wrap
    refine (hframe _ fun ph hph hin => hdisj.1 ph hph _ ⟨?_, hin⟩).get
    rw [offset_of_place _ _ (by omega)]
    exact ⟨by omega, by omega⟩
  refine ⟨l', s', ?_, hl', ?_, ?_, ?_⟩
  · rw [hstep, hbody]
    exact hloop
  · intro ph hph
    rw [hl']
    exact (hall ph hph).1
  · intro k hk
    obtain ⟨hplace, hget⟩ := h.firstGet_eq hholes hk
    rw [hl', hkeep k (by omega), (hdata _ hplace).get, hs1, hget]
  · intro k hk1 hk2
    rw [hl', hkeep k (by omega), hzero k hk1 hk2]

/-- The `ET_DYN` path, if it goes through, has found the page of the zeros of
each segment but the first. -/
theorem tails (h : SharedSetup kern ps file header phdr s base ph0 last) {l : LinkMap}
    {r : LinkMap × Proc} (hmap : map_segments kern ps file header phdr l s = .ok r) :
    ∀ ph ∈ (loadSegments phdr).tail, TailInFile ps file ph := by
  obtain ⟨phs, hphs, _⟩ := h.layout.cons
  obtain ⟨st, hst, _⟩ := parse_phdr_loop_segments ps
    { l, loadcmds := [], has_holes := false } fun ph hph => (h.fits ph hph).asserts
  obtain ⟨l1, s1, _, hl1, _, _, _, _, hstep⟩ :=
    h.layout.map_segments_eq h.kernel h.chosen h.dyn hst hphs
  rw [hstep, bind_eq_ok] at hmap
  obtain ⟨⟨l2, s2⟩, hbody, hloop⟩ := hmap
  have hl2 := (postmap_body_mapped hbody).2.trans hl1
  have hmem : ∀ ph ∈ phs, ph ∈ loadSegments phdr := fun ph hph =>
    hphs ▸ List.mem_cons_of_mem _ hph
  rw [hphs]
  refine loadcmd_loop_tails h.kernel h.page (fun ph hph => h.fits ph (hmem ph hph)) ?_ ?_ hloop
  · rw [hl2]
    exact h.layout.addr_mod
  · rw [hl2]
    exact fun ph hph => h.layout.runs ph (hmem ph hph)

/-- All contents are right just if the bytes of the one mapping are those of the
first segment, and the file has what the others take from it. -/
theorem contents_iff (h : SharedSetup kern ps file header phdr s base ph0 last) (l : LinkMap) :
    (∃ l' s', map_segments kern ps file header phdr l s = .ok (l', s') ∧
      l'.l_addr = base - alignDown ps ph0.p_vaddr ∧
      ∀ ph ∈ loadSegments phdr, HasContents file l'.l_addr ph s'.space) ↔
    FirstSegmentMatches ps file base s.space ph0 last ∧
      ∀ ph ∈ (loadSegments phdr).tail, InFile ps file ph := by
  obtain ⟨phs, hphs, _⟩ := h.layout.cons
  have hmem : ∀ ph ∈ (loadSegments phdr).tail, ph ∈ loadSegments phdr :=
    fun ph hph => List.mem_of_mem_tail hph
  constructor
  · rintro ⟨l', s', hmap, _, hall⟩
    have hin : ∀ ph ∈ (loadSegments phdr).tail, InFile ps file ph := fun ph hph =>
      ⟨(hall ph (hmem ph hph)).data, h.tails hmap ph hph⟩
    have h0 := hall ph0 h.layout.mem_head
    obtain ⟨l2, s2, hmap2, _, _, hfirst, _⟩ := h.map_segments_shared l h0.data hin
    obtain ⟨rfl, rfl⟩ := Prod.mk.inj (Except.ok.inj (hmap.symm.trans hmap2))
    refine ⟨fun k hk => ?_, hin⟩
    rw [← hfirst k hk]
    exact h0.1 k hk
  · rintro ⟨hmatch, hin⟩
    obtain ⟨l', s', hmap, hl', hother, hfirst, hzero⟩ :=
      h.map_segments_shared l hmatch.data hin
    refine ⟨l', s', hmap, hl', fun ph hph => ?_⟩
    rw [hphs] at hph hother
    rcases List.mem_cons.mp hph with rfl | hph
    · refine ⟨fun k hk => ?_, hzero⟩
      rw [hfirst k hk]
      exact hmatch k hk
    · exact hother ph hph

end SharedSetup

/-! ## The law -/

/-- The one mapping is right exactly when the file has the data of the first
segment in its first page, too, and what the other segments take from it: the
mapping starts at offset 0 of the file and not at the offset of the segment. The
ordinary loop at the same base is right exactly when the file has what the
segments take from it, the first one included. -/
theorem the_one_mapping_is_right_iff_the_first_segment_matches (kern : Kernel) (ps : Addr)
    (file : List Byte) (header : Ehdr) (phdr : List Phdr) (l : LinkMap) (s : Proc) (base : Addr)
    (ph0 last : Phdr) (h : SharedSetup kern ps file header phdr s base ph0 last) :
    ((∃ l' s', map_segments kern ps file header phdr l s = .ok (l', s') ∧
      l'.l_addr = base - alignDown ps ph0.p_vaddr ∧
      ∀ ph ∈ loadSegments phdr, HasContents file l'.l_addr ph s'.space) ↔
    FirstSegmentMatches ps file base s.space ph0 last ∧
      ∀ ph ∈ (loadSegments phdr).tail, InFile ps file ph) ∧
    ((∃ l' s', loadcmd_loop kern ps file header
        { l with l_addr := base - alignDown ps ph0.p_vaddr } s
        ((loadSegments phdr).map (loadcmdOf ps)) = .ok (l', s') ∧
      ∀ ph ∈ loadSegments phdr,
        HasContents file (base - alignDown ps ph0.p_vaddr) ph s'.space) ↔
    ∀ ph ∈ loadSegments phdr, InFile ps file ph) :=
  ⟨h.contents_iff l, loadcmd_loop_iff h.kernel h.page header (loadSegments phdr)
    { l with l_addr := base - alignDown ps ph0.p_vaddr } s h.fits h.disjoint h.layout.addr_mod
    h.layout.runs (fun ph sp => HasContents file (base - alignDown ps ph0.p_vaddr) ph sp)
    (fun _ _ hloaded => hloaded.1) fun _ _ hcontents => hcontents⟩

/-- A shared object of one segment, which starts in the second page of the file. -/
def secondPageText : Phdr where
  p_type := PT_LOAD
  p_flags := PF_R ||| PF_X
  p_offset := 16
  p_vaddr := 16
  p_filesz := 4
  p_memsz := 4
  p_align := 16

def sharedHeader : Ehdr where
  e_type := ET_DYN
  e_entry := 16
  e_phoff := 0
  e_phnum := 1

theorem secondPageText_setup : SharedSetup steadyKernel 16 countedFile sharedHeader
    [secondPageText] emptyProc 0x1000 secondPageText secondPageText where
  kernel := fun _ => ⟨_, rfl⟩
  chosen := rfl
  page := ⟨4, by decide, rfl⟩
  aligned := by decide
  dyn := rfl
  nonempty := by decide
  head := by decide
  last := by decide
  fits := by
    intro ph hph
    have : loadSegments [secondPageText] = [secondPageText] := by decide
    rw [this, List.mem_singleton] at hph
    subst hph
    exact ⟨by decide, by decide⟩
  ascending := by
    have : loadSegments [secondPageText] = [secondPageText] := by decide
    rw [this]
    exact List.pairwise_singleton _ _
  room := by
    intro ph hph
    have : loadSegments [secondPageText] = [secondPageText] := by decide
    rw [this, List.mem_singleton] at hph
    subst hph
    decide

theorem the_one_mapping_of_a_second_page_text :
    SharedSetup steadyKernel 16 countedFile sharedHeader [secondPageText] emptyProc 0x1000
        secondPageText secondPageText ∧
      ¬ ∃ l' s', map_segments steadyKernel 16 countedFile sharedHeader [secondPageText]
          (init_link_map 0 emptyImage) emptyProc = .ok (l', s') ∧
        l'.l_addr = 0x1000 - alignDown 16 secondPageText.p_vaddr ∧
        ∀ ph ∈ loadSegments [secondPageText], HasContents countedFile l'.l_addr ph s'.space := by
  refine ⟨secondPageText_setup, ?_⟩
  rw [(the_one_mapping_is_right_iff_the_first_segment_matches _ _ _ _ _ (init_link_map 0 emptyImage)
    _ _ _ _ secondPageText_setup).1]
  rintro ⟨hmatch, _⟩
  obtain ⟨b, hfile, hget⟩ := hmatch 0 (by decide)
  have h17 : countedFile[secondPageText.p_offset.toNat + 0]? = some 17 := by decide
  have h1 : firstGet 16 countedFile 0x1000 emptyProc.space secondPageText secondPageText 0 =
    some 1 := by decide
  rw [h17] at hfile
  rw [h1, ← hfile] at hget
  exact absurd hget (by decide)

/-- The first segment gets the first page of the file in place of its own. -/
theorem a_second_page_text_is_mapped_from_the_first_page :
    SharedSetup steadyKernel 16 countedFile sharedHeader [secondPageText] emptyProc 0x1000
        secondPageText secondPageText ∧
      ∃ l' s', map_segments steadyKernel 16 countedFile sharedHeader [secondPageText]
          (init_link_map 0 emptyImage) emptyProc = .ok (l', s') ∧
        countedFile[secondPageText.p_offset.toNat]? = some 17 ∧
        s'.space.get (l'.l_addr + secondPageText.p_vaddr) = some 1 ∧
        ¬ ∀ ph ∈ loadSegments [secondPageText],
          HasContents countedFile l'.l_addr ph s'.space := by
  refine ⟨secondPageText_setup, ?_⟩
  have htail : (loadSegments [secondPageText]).tail = [] := by decide
  obtain ⟨l', s', hmap, _, _, hfirst, _⟩ :=
    secondPageText_setup.map_segments_shared (init_link_map 0 emptyImage) (by decide)
      (by rw [htail]; exact fun ph hph => absurd hph List.not_mem_nil)
  have hbyte : s'.space.get (l'.l_addr + secondPageText.p_vaddr) = some 1 := by
    have := hfirst 0 (by decide)
    rw [BitVec.ofNat_eq_ofNat, BitVec.add_zero] at this
    rw [this]
    decide
  refine ⟨l', s', hmap, by decide, hbyte, ?_⟩
  intro hall
  obtain ⟨b, h17, h1⟩ := (hall secondPageText (by decide)).1 0 (by decide)
  rw [BitVec.add_zero, hbyte] at h1
  rw [← h1] at h17
  revert h17
  decide

end elf_loader.load
