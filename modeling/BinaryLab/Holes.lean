-- The pages of a mapped shared object: each belongs to one segment and has its
-- protection, or it is a hole and has none. The loader takes all access away
-- between the file pages of the first segment and the last one, and maps the
-- segments in between over that.
import BinaryLab.SharedMapping
import BinaryLab.MappingFailures
import Mathlib.Data.List.Chain

set_option linter.style.nameCheck false

open binary_lab.runs binary_lab.words binary_lab.pages

namespace elf_loader.load

/-! ## A run that returns -/

section

variable {kern : Kernel} {ps : Addr}

/-- A segment from `postmap` on, when it returns: its pages have its
protection, and no other page has changed. -/
theorem postmap_body_returned {ph : Phdr} (hk : kern.Succeeds) (hps : PageSize ps) {header : Ehdr}
    (hwrap : segEnd ps ph < 2 ^ 64) {l l' : LinkMap} {s s' : Proc}
    (haddr : l.l_addr.toNat % ps.toNat = 0) (hrun : RunsUnwrapped ps l.l_addr ph)
    (hprot : ∀ a, (a - firstPage ps l.l_addr ph).toNat < ceilNat ps.toNat (dataLen ps ph) →
      s.space.prot a = some (protOf ph.p_flags))
    (h : postmap_body kern ps header (loadcmdOf ps ph) l s = .ok (l', s')) :
    HasProt ps l.l_addr ph s'.space ∧
      ∀ a, ¬ InPages ps ph (a - l.l_addr).toNat → s'.space.prot a = s.space.prot a := by
  have hback := postmap_body_backed hk hps hwrap haddr hrun h
  obtain ⟨l1, s1, hbody, _, hpages, hsame, _⟩ :=
    postmap_body_segment hk hps header hwrap l s haddr hrun hprot hback
  rw [h] at hbody
  cases hbody
  exact ⟨hpages, fun a ha => (hsame a ha).prot⟩

/-- The same for a whole load command. -/
theorem loadcmd_returned {ph : Phdr} {file : List Byte} (hk : kern.Succeeds) (hps : PageSize ps)
    {header : Ehdr} (hwrap : segEnd ps ph < 2 ^ 64) {l l' : LinkMap} {s s1 s' : Proc}
    (haddr : l.l_addr.toNat % ps.toNat = 0) (hrun : RunsUnwrapped ps l.l_addr ph)
    (hmap : map_pages kern ps file (loadcmdOf ps ph) l s = .ok s1)
    (hbody : postmap_body kern ps header (loadcmdOf ps ph) l s1 = .ok (l', s')) :
    HasProt ps l.l_addr ph s'.space ∧
      ∀ a, ¬ InPages ps ph (a - l.l_addr).toNat → s'.space.prot a = s.space.prot a := by
  have hpages := dataPages_le_segEnd hps ph
  obtain ⟨s2, hs2, hspec⟩ := map_pages.spec hk hps hwrap file l s hrun
  rw [hmap] at hs2
  cases hs2
  obtain ⟨hprot, hsame⟩ :=
    postmap_body_returned hk hps hwrap haddr hrun (fun a ha => ((hspec a).1 ha).2.1) hbody
  refine ⟨hprot, ?_⟩
  intro a ha
  have hfar := (hspec a).2
  rw [← Nat.not_lt, firstPage, page_offset hps _ _ _ (by omega)] at hfar
  rw [hsame a ha, (hfar (by unfold InPages at ha; omega)).prot]

theorem HasProt.kept {base : Addr} {ph : Phdr} {sp sp' : Space} (h : HasProt ps base ph sp)
    (hsame : ∀ a, InPages ps ph (a - base).toNat → sp'.prot a = sp.prot a) :
    HasProt ps base ph sp' := by
  intro a ha
  rw [hsame a ha]
  exact h a ha

/-- The loop, when it returns: every segment has its protection, and no other
page has changed. -/
theorem loadcmd_loop_returned {file : List Byte} (hk : kern.Succeeds) (hps : PageSize ps)
    {header : Ehdr} {phs : List Phdr} {l l' : LinkMap} {s s' : Proc}
    (hwrap : ∀ ph ∈ phs, segEnd ps ph < 2 ^ 64) (hdisj : phs.Pairwise (PagesDisjoint ps))
    (haddr : l.l_addr.toNat % ps.toNat = 0) (hrun : ∀ ph ∈ phs, RunsUnwrapped ps l.l_addr ph)
    (h : loadcmd_loop kern ps file header l s (phs.map (loadcmdOf ps)) = .ok (l', s')) :
    (∀ ph ∈ phs, HasProt ps l.l_addr ph s'.space) ∧
      ∀ a, (∀ ph ∈ phs, ¬ InPages ps ph (a - l.l_addr).toNat) →
        s'.space.prot a = s.space.prot a := by
  induction phs generalizing l s with
  | nil =>
    cases h
    exact ⟨by simp, fun _ _ => rfl⟩
  | cons ph phs ih =>
    rw [List.pairwise_cons] at hdisj
    rw [List.forall_mem_cons] at hwrap hrun
    simp only [List.map_cons, loadcmd_loop, bind_eq_ok] at h
    obtain ⟨s1, hmap, ⟨l2, s2⟩, hbody, hloop⟩ := h
    have hl2 := (postmap_body_mapped hbody).2
    obtain ⟨hprot, hsame⟩ := loadcmd_returned hk hps hwrap.1 haddr hrun.1 hmap hbody
    obtain ⟨hrest, hkeep⟩ := ih hwrap.2 hdisj.2 (by rw [hl2]; exact haddr)
      (by rw [hl2]; exact hrun.2) hloop
    rw [hl2] at hrest hkeep
    refine ⟨List.forall_mem_cons.mpr ⟨?_, hrest⟩, ?_⟩
    · -- The later segments share no page with this one.
      exact hprot.kept fun a ha => hkeep a fun q hq hin => hdisj.1 q hq _ ⟨ha, hin⟩
    · intro a ha
      rw [List.forall_mem_cons] at ha
      rw [hkeep a ha.2, hsame a ha.1]

/-! ## The span of the object -/

/-- The map says of its span what it said before. -/
def SameSpan (l l' : LinkMap) : Prop :=
  l'.l_map_start = l.l_map_start ∧ l'.l_map_end = l.l_map_end ∧ l'.l_contiguous = l.l_contiguous

theorem SameSpan.trans {l l1 l2 : LinkMap} (h1 : SameSpan l l1) (h2 : SameSpan l1 l2) :
    SameSpan l l2 :=
  ⟨h2.1.trans h1.1, h2.2.1.trans h1.2.1, h2.2.2.trans h1.2.2⟩

theorem note_segment_span (header : Ehdr) (c : Loadcmd) (l : LinkMap) :
    SameSpan l (note_segment header c l) := by
  unfold note_segment
  cases hexec : c.prot.exec
  · simp only [Bool.false_eq_true, if_false]
    split_ifs <;> exact ⟨rfl, rfl, rfl⟩
  · simp only [if_true]
    split_ifs <;> exact ⟨rfl, rfl, rfl⟩

theorem postmap_body_span {header : Ehdr} {c : Loadcmd} {l l' : LinkMap} {s s' : Proc}
    (h : postmap_body kern ps header c l s = .ok (l', s')) : SameSpan l l' := by
  have hnote := note_segment_span header c l
  unfold postmap_body at h
  split_ifs at h
  · simp only [bind_eq_ok] at h
    obtain ⟨s1, _, h⟩ := h
    cases h
    exact hnote
  · cases h
    exact hnote

theorem loadcmd_loop_span {file : List Byte} {header : Ehdr} {cs : List Loadcmd}
    {l l' : LinkMap} {s s' : Proc} (h : loadcmd_loop kern ps file header l s cs = .ok (l', s')) :
    SameSpan l l' := by
  induction cs generalizing l s with
  | nil =>
    cases h
    exact ⟨rfl, rfl, rfl⟩
  | cons c cs ih =>
    simp only [loadcmd_loop, bind_eq_ok] at h
    obtain ⟨s1, _, ⟨l2, s2⟩, hbody, hloop⟩ := h
    exact (postmap_body_span hbody).trans (ih hloop)

/-! ## Where the holes are -/

/-- The file pages of each command reach to the next command. -/
def Seamless (cs : List Loadcmd) : Prop := cs.IsChain fun c next => c.mapend = next.mapstart

/-- If `has_holes` is not set then there are none. -/
theorem parse_phdr_loop_seamless {phdr : List Phdr} {st st' : PhdrState}
    (h : parse_phdr_loop ps st phdr = .ok st')
    (hst : st.has_holes = false → Seamless st.loadcmds) :
    st'.has_holes = false → Seamless st'.loadcmds := by
  induction phdr generalizing st with
  | nil =>
    cases h
    exact hst
  | cons ph phs ih =>
    rw [parse_phdr_loop, bind_eq_ok] at h
    obtain ⟨st1, h1, h2⟩ := h
    apply ih h2
    unfold parse_phdr_entry at h1
    split_ifs at h1
    · simp only [bind_eq_ok] at h1
      obtain ⟨_, _, _, _, h1⟩ := h1
      cases h1
      cases hlast : st.loadcmds.getLast? with
      | none =>
        rw [List.getLast?_eq_none_iff] at hlast
        intro _
        simp [hlast, Seamless]
      | some before =>
        intro hholes
        simp only [Bool.or_eq_false_iff, bne_eq_false_iff_eq] at hholes
        refine List.isChain_append.mpr ⟨hst hholes.1, List.isChain_singleton _, ?_⟩
        simp only [hlast, Option.mem_def, List.head?_cons, Option.some.injEq]
        rintro _ rfl _ rfl
        exact hholes.2
    all_goals
      cases h1
      exact hst

/-- Without a seam every page from the first segment to the last one belongs
to a segment. -/
theorem inPages_of_seamless (hps : PageSize ps) {ph : Phdr} {phs : List Phdr} {last : Phdr}
    (hlast : (ph :: phs).getLast? = some last) (hwrap : ∀ q ∈ ph :: phs, segEnd ps q < 2 ^ 64)
    (hord : (ph :: phs).Pairwise (Below ps))
    (hseam : Seamless ((ph :: phs).map (loadcmdOf ps))) {y : Nat} (hlo : segStart ps ph ≤ y)
    (hhi : y < segEnd ps last) : ∃ q ∈ ph :: phs, InPages ps q y := by
  induction phs generalizing ph with
  | nil =>
    rw [List.getLast?_singleton, Option.some.injEq] at hlast
    exact ⟨ph, List.mem_cons_self, hlo, hlast ▸ hhi⟩
  | cons next phs ih =>
    by_cases hy : y < segEnd ps ph
    · exact ⟨ph, List.mem_cons_self, hlo, hy⟩
    · rw [List.forall_mem_cons] at hwrap
      rw [List.pairwise_cons] at hord
      rw [List.map_cons, List.map_cons, Seamless, List.isChain_cons_cons] at hseam
      have hmapend := congrArg BitVec.toNat hseam.1
      rw [toNat_mapend_pages hps hwrap.1, toNat_mapstart hps] at hmapend
      have hle := dataPages_le_segEnd hps ph
      obtain ⟨q, hq, hin⟩ := ih hlast hwrap.2 hord.2 hseam.2 (by omega)
      exact ⟨q, List.mem_cons_of_mem _ hq, hin⟩

/-- Segments that share no page: a page of one of them is a page of no other. -/
theorem filter_inPages {phs : List Phdr} {ph : Phdr} {y : Nat}
    (hdisj : phs.Pairwise (PagesDisjoint ps)) (hph : ph ∈ phs) (hin : InPages ps ph y) :
    phs.filter (InPages ps · y) = [ph] := by
  induction phs with
  | nil => simp at hph
  | cons q qs ih =>
    rw [List.pairwise_cons] at hdisj
    rcases List.mem_cons.mp hph with rfl | hmem
    · have hrest : qs.filter (InPages ps · y) = [] := by
        simp only [List.filter_eq_nil_iff, decide_eq_true_eq]
        exact fun r hr hin' => hdisj.1 r hr y ⟨hin, hin'⟩
      rw [List.filter_cons_of_pos (by simpa using hin), hrest]
    · have hnot : ¬ InPages ps q y := fun hq => hdisj.1 ph hmem y ⟨hq, hin⟩
      rw [List.filter_cons_of_neg (by simpa using hnot)]
      exact ih hdisj.2 hmem

end

/-! ## The pages of the object -/

/-- The page of `a` belongs to exactly one segment and has its protection, or
it belongs to none and is inaccessible. -/
def PageInOrder (ps base : Addr) (phdr : List Phdr) (sp : Space) (a : Addr) : Prop :=
  (∃ ph, (loadSegments phdr).filter (InPages ps · (a - base).toNat) = [ph] ∧
      sp.prot a = some (protOf ph.p_flags)) ∨
    ((loadSegments phdr).filter (InPages ps · (a - base).toNat) = [] ∧
      sp.prot a = some PROT_NONE)

/-- Segments that share no page: it is enough to look for one that has the page. -/
theorem pageInOrder_of {ps base a : Addr} {phdr : List Phdr} {sp : Space}
    (hdisj : (loadSegments phdr).Pairwise (PagesDisjoint ps))
    (hsome : ∀ ph ∈ loadSegments phdr, InPages ps ph (a - base).toNat →
      sp.prot a = some (protOf ph.p_flags))
    (hnone : (∀ ph ∈ loadSegments phdr, ¬ InPages ps ph (a - base).toNat) →
      sp.prot a = some PROT_NONE) : PageInOrder ps base phdr sp a := by
  by_cases h : ∃ ph ∈ loadSegments phdr, InPages ps ph (a - base).toNat
  · obtain ⟨ph, hph, hin⟩ := h
    exact .inl ⟨ph, filter_inPages hdisj hph hin, hsome ph hph hin⟩
  · simp only [not_exists, not_and] at h
    refine .inr ⟨?_, hnone h⟩
    simpa only [List.filter_eq_nil_iff, decide_eq_true_eq] using h

/-- The page of `a` meets the span of the object. -/
def MeetsSpan (ps : Addr) (l : LinkMap) (a : Addr) : Prop :=
  ∃ x, l.l_map_start ≤ x ∧ x < l.l_map_end ∧ alignDown ps x = alignDown ps a

namespace SharedLayout

variable {kern : Kernel} {ps : Addr} {file : List Byte} {header : Ehdr} {phdr : List Phdr}
  {base : Addr} {ph0 last : Phdr} {s s' : Proc} {l l' : LinkMap}

theorem span_le (h : SharedLayout ps phdr base ph0 last) :
    segStart ps ph0 + ceilNat ps.toNat (spanLen ps ph0 last) ≤ segEnd ps last := by
  have hstart := segStart_le_last h.page h.last_or
  rw [← ceilNat_add h.page.pos segStart_mod]
  apply ceilNat_mono h.page.pos
  unfold spanLen
  omega

/-- The link-time address of a byte of the span. -/
theorem offset_in_span (h : SharedLayout ps phdr base ph0 last) {a : Addr}
    (ha : (a - base).toNat < ceilNat ps.toNat (spanLen ps ph0 last)) :
    (a - (base - (loadcmdOf ps ph0).mapstart)).toNat = segStart ps ph0 + (a - base).toNat := by
  have hspan := h.span_le
  have hwrap := h.no_wrap last h.mem_last
  have hstart := toNat_mapstart h.page ph0
  have hsub : a - (base - (loadcmdOf ps ph0).mapstart) =
      (loadcmdOf ps ph0).mapstart + (a - base) := by bv_omega
  rw [hsub, BitVec.toNat_add, hstart, Nat.mod_eq_of_lt (by omega)]

/-- A page that meets the span is one of the pages that were mapped at once. -/
theorem page_in_span (h : SharedLayout ps phdr base ph0 last) (hstart : l.l_map_start = base)
    (hend : l.l_map_end = base + ((loadcmdOf ps last).allocend - (loadcmdOf ps ph0).mapstart))
    {a : Addr} (ha : MeetsSpan ps l a) :
    (a - base).toNat < ceilNat ps.toNat (spanLen ps ph0 last) := by
  obtain ⟨x, hlo, hhi, hpage⟩ := ha
  have hspan := h.span_le
  have hroom := h.room last h.mem_last
  have hlen := toNat_span h.page (h.no_wrap last h.mem_last) h.last_or
  have hle := le_ceilNat (n := spanLen ps ph0 last) h.page.pos
  have hendNat : l.l_map_end.toNat = base.toNat + spanLen ps ph0 last := by
    rw [hend, BitVec.toNat_add, hlen, Nat.mod_eq_of_lt (by omega)]
  rw [hstart, BitVec.le_def] at hlo
  rw [BitVec.lt_def, hendNat] at hhi
  have hfloor := congrArg BitVec.toNat hpage
  rw [toNat_alignDown h.page, toNat_alignDown h.page] at hfloor
  -- Both bytes lie in the page that starts at the same distance from the base.
  have hx : floorNat ps.toNat x.toNat =
      base.toNat + floorNat ps.toNat (x.toNat - base.toNat) := by
    rw [← floorNat_add h.aligned, Nat.add_sub_cancel' hlo]
  have hafter := lt_floorNat_add (n := a.toNat) h.page.pos
  have hbefore := floorNat_le ps.toNat a.toNat
  have hnext : floorNat ps.toNat (x.toNat - base.toNat) + ps.toNat ≤
      ceilNat ps.toNat (spanLen ps ph0 last) := by
    rw [← ceilNat_succ]
    exact ceilNat_mono h.page.pos (by omega)
  rw [BitVec.toNat_sub_of_le (by rw [BitVec.le_def]; omega)]
  omega

/-- The first segment from `postmap` on, when it returns: its pages in the span
have its protection, and no other page has changed. -/
theorem first_returned (h : SharedLayout ps phdr base ph0 last) (hk : kern.Succeeds)
    {has_holes : Bool} (hholes : has_holes = true → Below ps ph0 last)
    {sp : Space} (haddr : l.l_addr = base - (loadcmdOf ps ph0).mapstart)
    (hsp : s.space = spanMapped ps file base ph0 last has_holes sp)
    (hbody : postmap_body kern ps header (loadcmdOf ps ph0) l s = .ok (l', s')) :
    (∀ a, (a - base).toNat < ceilNat ps.toNat (spanLen ps ph0 last) →
      InPages ps ph0 (a - l.l_addr).toNat → s'.space.prot a = some (protOf ph0.p_flags)) ∧
    ∀ a, ¬ InPages ps ph0 (a - l.l_addr).toNat → s'.space.prot a = s.space.prot a := by
  have hwrap := h.no_wrap ph0 h.mem_head
  have hlen := toNat_span h.page (h.no_wrap last h.mem_last) h.last_or
  have hmapped : ∀ a, (a - base).toNat < ceilNat ps.toNat (dataLen ps ph0) →
      (a - base).toNat < ceilNat ps.toNat (spanLen ps ph0 last) →
      s.space.prot a = some (protOf ph0.p_flags) := by
    intro a hdata hspan
    rw [hsp, spanMapped_prot h.page hwrap base hholes sp a hlen hdata hspan]
  by_cases hmem : last = ph0 → ph0.p_filesz.toNat ≤ ph0.p_memsz.toNat
  · have hcover := span_covers h.page h.last_or hmem
    have haligned : l.l_addr.toNat % ps.toNat = 0 := by
      rw [haddr]
      exact h.addr_mod
    have hrun : RunsUnwrapped ps l.l_addr ph0 := by
      rw [haddr]
      exact h.runs ph0 h.mem_head
    obtain ⟨hprot, hsame⟩ := postmap_body_returned hk h.page hwrap haligned hrun
      (by rw [haddr, firstPage_of_base]; exact fun a ha => hmapped a ha (by omega)) hbody
    exact ⟨fun a _ ha => hprot a ha, hsame⟩
  · -- More data than memory: there are no zeros to make, and the span ends in the data.
    rw [Classical.not_imp] at hmem
    obtain ⟨rfl, hmem⟩ := hmem
    have hcmp : ¬ (loadcmdOf ps last).dataend < (loadcmdOf ps last).allocend := by
      rw [BitVec.lt_def, toNat_dataend h.page hwrap, toNat_allocend h.page hwrap]
      omega
    have hshort : ceilNat ps.toNat (spanLen ps last last) ≤ ceilNat ps.toNat (dataLen ps last) := by
      apply ceilNat_mono h.page.pos
      unfold spanLen dataLen
      omega
    unfold postmap_body at hbody
    simp only [if_neg hcmp] at hbody
    cases hbody
    exact ⟨fun a ha _ => hmapped a (by omega) ha, fun _ _ => rfl⟩

/-- A page of the span that belongs to no segment is inaccessible from the
start: there is a hole then, and the page is in it. -/
theorem hole_inaccessible (h : SharedLayout ps phdr base ph0 last) {st : PhdrState}
    (hparse : parse_phdr ps l phdr = .ok st) {sp : Space} {a : Addr}
    (ha : (a - base).toNat < ceilNat ps.toNat (spanLen ps ph0 last))
    (hnone : ∀ ph ∈ loadSegments phdr,
      ¬ InPages ps ph (a - (base - (loadcmdOf ps ph0).mapstart)).toNat) :
    (spanMapped ps file base ph0 last st.has_holes sp).prot a = some PROT_NONE := by
  obtain ⟨phs, hphs, _⟩ := h.cons
  have hspan := h.span_le
  rw [h.offset_in_span ha] at hnone
  cases hholes : st.has_holes with
  | false =>
    have hseam : Seamless ((loadSegments phdr).map (loadcmdOf ps)) := by
      have := parse_phdr_loop_seamless hparse (fun _ => List.isChain_nil) hholes
      rw [parse_phdr_loop_loadcmds hparse] at this
      exact this
    have hlast := h.last
    have hwrap := h.no_wrap
    have hord := h.ascending
    rw [hphs] at hseam hlast hwrap hord
    obtain ⟨q, hq, hin⟩ := inPages_of_seamless h.page hlast hwrap hord hseam
      (y := segStart ps ph0 + (a - base).toNat) (by omega) (by omega)
    exact absurd hin (hnone q (by rw [hphs]; exact hq))
  | true =>
    have h0 := hnone ph0 h.mem_head
    have hl := hnone last h.mem_last
    have hpages := dataPages_le_segEnd h.page ph0
    unfold InPages at h0 hl
    have hbelow : Below ps ph0 last := by
      rcases h.last_or with rfl | hbelow
      · omega
      · exact hbelow
    have hlen := toNat_span h.page (h.no_wrap last h.mem_last) h.last_or
    have hin := (in_hole_iff h.page (h.no_wrap ph0 h.mem_head) hbelow base a).mpr (by omega)
    unfold spanMapped
    rw [hlen]
    simp only [if_true, Space.protect, Space.mapFile, if_pos hin, if_pos ha, Option.map_some]

/-- What the `ET_DYN` path leaves when it returns. -/
theorem map_segments_returned (h : SharedLayout ps phdr base ph0 last) (hk : kern.Succeeds)
    (hbase : kern s.calls = .done base) (hdyn : header.e_type = ET_DYN)
    (hmap : map_segments kern ps file header phdr l s = .ok (l', s')) :
    l'.l_addr = base - (loadcmdOf ps ph0).mapstart ∧ l'.l_map_start = base ∧
      l'.l_map_end = base + ((loadcmdOf ps last).allocend - (loadcmdOf ps ph0).mapstart) ∧
      l'.l_contiguous = true ∧
      ∀ a, (a - base).toNat < ceilNat ps.toNat (spanLen ps ph0 last) →
        PageInOrder ps l'.l_addr phdr s'.space a := by
  obtain ⟨phs, hphs, hbelow⟩ := h.cons
  have hdisj := h.ascending.imp Below.disjoint
  have hparse : ∃ st, parse_phdr ps l phdr = .ok st := by
    unfold map_segments at hmap
    rw [bind_eq_ok] at hmap
    exact hmap.imp fun _ => And.left
  obtain ⟨st, hst⟩ := hparse
  obtain ⟨l1, s1, hholes, hl1, hstart, hend, hcont, hs1, hstep⟩ :=
    h.map_segments_eq hk hbase hdyn hst hphs
  rw [hstep, bind_eq_ok] at hmap
  obtain ⟨⟨l2, s2⟩, hbody, hloop⟩ := hmap
  obtain ⟨hstart', hend', hcont'⟩ := (postmap_body_span hbody).trans (loadcmd_loop_span hloop)
  have hl2 : l2.l_addr = base - (loadcmdOf ps ph0).mapstart := by
    rw [(postmap_body_mapped hbody).2, hl1]
  have hl' : l'.l_addr = base - (loadcmdOf ps ph0).mapstart := by
    rw [(loadcmd_loop_mapped hloop).2, hl2]
  obtain ⟨hfirst, hsame⟩ := h.first_returned hk hholes hl1 hs1 hbody
  have hdisj' := hdisj
  rw [hphs, List.pairwise_cons] at hdisj'
  obtain ⟨hrest, hkeep⟩ := loadcmd_loop_returned hk h.page
    (fun ph hph => h.no_wrap ph (by simp [hphs, hph])) hdisj'.2
    (by rw [hl2]; exact h.addr_mod)
    (by rw [hl2]; exact fun ph hph => h.runs ph (by simp [hphs, hph])) hloop
  rw [hl1] at hfirst hsame
  rw [hl2] at hrest hkeep
  refine ⟨hl', hstart'.trans hstart, hend'.trans hend, hcont'.trans hcont, ?_⟩
  intro a ha
  rw [hl']
  apply pageInOrder_of hdisj
  · intro ph hph hin
    rw [hphs] at hph
    rcases List.mem_cons.mp hph with rfl | hph
    · rw [hkeep a fun q hq hin' => hdisj'.1 q hq _ ⟨hin, hin'⟩, hfirst a ha hin]
    · exact hrest ph hph a hin
  · intro hnone
    have hall := hnone
    rw [hphs, List.forall_mem_cons] at hall
    rw [hkeep a hall.2, hsame a hall.1, hs1, h.hole_inaccessible hst ha hnone]

end SharedLayout

/-! ## The law -/

/-- Every page that meets the span of a shared object belongs to exactly one
segment and has its protection, or it is a hole and inaccessible. So the span
is contiguous, as the map says. -/
theorem every_page_of_a_shared_object_is_in_order (host : Host) (file : File)
    (realname : CString) (w w' : Rtld) (p : Ptr) (got : List Byte) (phdr : List Phdr)
    (base : Addr) (ph0 last : Phdr) (hread : __read file 0 FILEBUF_SIZE = some got)
    (hdyn : (ehdrOf (filled got (host.stack w.maps.length))).e_type = ET_DYN)
    (hphdr : fetch_phdr (host.alloca w.maps.length) file (filled got (host.stack w.maps.length))
      got.length (ehdrOf (filled got (host.stack w.maps.length))) = .ok phdr)
    (hkernel : host.kern.Succeeds) (hbase : host.kern w.proc.calls = .done base)
    (hlayout : SharedLayout w._dl_pagesize phdr base ph0 last)
    (h : map_object_fd host file realname w = .ok (p, w')) :
    ∃ l, w'.maps[p]? = some l ∧ l.l_contiguous = true ∧
      ∀ a, MeetsSpan w._dl_pagesize l a →
        PageInOrder w._dl_pagesize l.l_addr phdr w'.proc.space a := by
  unfold map_object_fd at h
  rw [hread] at h
  simp only [hdyn, hphdr] at h
  rw [if_neg (by simp), bind_eq_ok] at h
  obtain ⟨_, hphdr', h⟩ := h
  cases hphdr'
  rw [bind_eq_ok] at h
  obtain ⟨⟨l, rpath, proc⟩, hload, hok⟩ := h
  cases hok
  simp only [load_object, bind_eq_ok] at hload
  obtain ⟨⟨l1, proc1⟩, hmap, ⟨l2, rpath2⟩, hparse, hok⟩ := hload
  cases hok
  obtain ⟨haddr, hstart, hend, hcont, hpages⟩ :=
    hlayout.map_segments_returned hkernel hbase hdyn hmap
  have hframe := (parse_dynamic.spec hparse).frame
  refine ⟨l2, List.getElem?_concat_length, ?_, ?_⟩
  · rw [hframe]
    exact hcont
  · rw [hframe]
    intro a ha
    exact hpages a (hlayout.page_in_span hstart hend ha)

/-- Its zeros are two pages behind the text. -/
def farZeros : Phdr := { bssZeros with p_vaddr := 0x3000 }

def holedFile : File where
  readable := true
  bytes := ehdrBytes bssHeader ++ phdrBytes bssText ++ phdrBytes farZeros ++
    phdrBytes bssDynamic ++ leBytes 8 DT_STRTAB ++ leBytes 8 280 ++ leBytes 8 DT_SYMTAB ++
    leBytes 8 288 ++ List.replicate 48 0
  image := bssImage

def steadyHost : Host := { fullHost with kern := steadyKernel }

theorem holedFile_layout : SharedLayout 0x1000 [bssText, farZeros, bssDynamic] 0x1000 bssText
    farZeros where
  page := ⟨12, by decide, rfl⟩
  aligned := by decide
  head := by decide
  last := by decide
  no_wrap := by decide
  ascending := by decide
  room := by decide

theorem holedFile_loads :
    ∃ p w', map_object_fd steadyHost holedFile (CString.lit ['a']) emptyWorld = .ok (p, w') := by
  have hok : (map_object_fd steadyHost holedFile (CString.lit ['a']) emptyWorld).isOk = true := by
    decide +kernel
  cases hmap : map_object_fd steadyHost holedFile (CString.lit ['a']) emptyWorld with
  | error e =>
    rw [hmap] at hok
    cases hok
  | ok r => exact ⟨r.1, r.2, rfl⟩

theorem holedFile_read : __read holedFile 0 FILEBUF_SIZE = some holedFile.bytes := by
  decide +kernel

theorem holedFile_header : ehdrOf (filled holedFile.bytes fun _ => 0) = bssHeader := by
  decide +kernel

theorem holedFile_fetch : fetch_phdr (fun _ => 0) holedFile (filled holedFile.bytes fun _ => 0)
    holedFile.bytes.length bssHeader = .ok [bssText, farZeros, bssDynamic] := by
  decide +kernel

theorem every_page_of_a_holed_object_is_in_order :
    ∃ p w', map_object_fd steadyHost holedFile (CString.lit ['a']) emptyWorld = .ok (p, w') ∧
      ∃ l, w'.maps[p]? = some l ∧ l.l_contiguous = true ∧
        ∀ a, MeetsSpan 0x1000 l a →
          PageInOrder 0x1000 l.l_addr [bssText, farZeros, bssDynamic] w'.proc.space a := by
  obtain ⟨p, w', hmap⟩ := holedFile_loads
  refine ⟨p, w', hmap, ?_⟩
  exact every_page_of_a_shared_object_is_in_order steadyHost holedFile (CString.lit ['a'])
    emptyWorld w' p holedFile.bytes [bssText, farZeros, bssDynamic] 0x1000 bssText farZeros
    holedFile_read (congrArg Ehdr.e_type holedFile_header)
    ((congrArg _ holedFile_header).trans holedFile_fetch) (fun _ => ⟨_, rfl⟩) rfl
    holedFile_layout hmap

end elf_loader.load
