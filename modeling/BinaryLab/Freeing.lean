-- `free` gives whole pages back to the system once enough of them are free
-- around a block. What `malloc` and `free` do then from the start of a program
-- on, and with the failures of `mmap` that `malloc` does not see.
import BinaryLab.MallocBlocks

set_option linter.style.nameCheck false
set_option linter.dupNamespace false

open binary_lab.runs binary_lab.words binary_lab.pages binary_lab.spans

namespace elf_loader.malloc

/-! ## Blocks that are given back -/

section

variable {init other : Set Nat} {s s' : Sys} {ss ss' live : List (Span Nat)} {b u w : Span Nat}
  {h h' : Heap} {ps : Addr}

/-- A part of the block `u` went back to the heap, and `w` is left. -/
structure Kept (h : Heap) (ss live : List (Span Nat)) (u w : Span Nat) (h' : Heap)
    (ss' : List (Span Nat)) : Prop where
  held : Held h' ss' (w :: live)
  total : cover ss' ∪ w.cover = cover ss ∪ u.cover
  kept : SameBut (cover ss') h.mem h'.mem

/-- The front `a` of the block is given back. -/
theorem Held.give_front (hh : Held h ss (u :: live)) {a : Span Nat} (ha : a.start = u.start)
    (haw : a.stop = w.start) (hw : w.stop = u.stop) (hmid : w.start % 8 = 0)
    (hroom : 24 ≤ len a) :
    ∃ fa h', __heap_free h (BitVec.ofNat 64 u.start) (BitVec.ofNat 64 (w.start - u.start)) =
      .ok (fa, h') ∧ Kept h ss live u w h' (put a ss) := by
  have hu := hh.area u List.mem_cons_self
  have h1 := a.nonempty
  have h2 := w.nonempty
  have hcover : u.cover = a.cover ∪ w.cover := by
    have hjoin := cover_join haw
    rw [← hjoin]
    exact congrArg Span.cover (Span.ext ha.symm hw.symm)
  have hareaa : Area a :=
    ⟨ha ▸ hu.start, haw ▸ hmid, ha ▸ hu.nonnull, by have := hu.user; omega⟩
  have hareaw : Area w := ⟨hmid, hw ▸ hu.stop, by omega, hw ▸ hu.user⟩
  obtain ⟨fa, h', hfree, hfreed, hheld⟩ := (hh.split haw hareaa hareaw hcover).dealloc hroom
  have hlen : w.start - u.start = len a := by rw [len, haw, ha]
  refine ⟨fa, h', ?_, hheld, ?_, hfreed.kept⟩
  · rw [hlen, ← ha]
    exact hfree
  · rw [cover_put, hcover, Set.union_right_comm, Set.union_comm]

/-- The end `a` of the block is given back. -/
theorem Held.give_end (hh : Held h ss (u :: live)) {a : Span Nat} (hw : w.start = u.start)
    (haw : w.stop = a.start) (ha : a.stop = u.stop) (hmid : a.start % 8 = 0)
    (hroom : 24 ≤ len a) :
    ∃ fa h', __heap_free h (BitVec.ofNat 64 a.start) (BitVec.ofNat 64 (u.stop - a.start)) =
      .ok (fa, h') ∧ Kept h ss live u w h' (put a ss) := by
  have hu := hh.area u List.mem_cons_self
  have h1 := a.nonempty
  have h2 := w.nonempty
  have hcover : u.cover = w.cover ∪ a.cover := by
    have hjoin := cover_join haw
    rw [← hjoin]
    exact congrArg Span.cover (Span.ext hw.symm ha.symm)
  have hareaw : Area w :=
    ⟨hw ▸ hu.start, haw ▸ hmid, hw ▸ hu.nonnull, by have := hu.user; omega⟩
  have hareaa : Area a := ⟨hmid, ha ▸ hu.stop, by omega, ha ▸ hu.user⟩
  have hsplit := (hh.split haw hareaw hareaa hcover).perm (List.Perm.swap _ _ _)
  obtain ⟨fa, h', hfree, hfreed, hheld⟩ := hsplit.dealloc hroom
  have hlen : u.stop - a.start = len a := by rw [len, ha]
  refine ⟨fa, h', ?_, hheld, ?_, hfreed.kept⟩
  · rw [hlen]
    exact hfree
  · rw [cover_put, hcover, Set.union_right_comm, Set.union_comm, Set.union_comm a.cover]

theorem Kept.refl (hh : Held h ss (u :: live)) : Kept h ss live u u h ss :=
  ⟨hh, rfl, SameBut.refl _ _⟩

theorem ofNat_sub_ofNat {a b : Nat} (hle : b ≤ a) :
    BitVec.ofNat 64 a - BitVec.ofNat 64 b = BitVec.ofNat 64 (a - b) := by
  calc BitVec.ofNat 64 a - BitVec.ofNat 64 b
    _ = BitVec.ofNat 64 (a - b) + BitVec.ofNat 64 b - BitVec.ofNat 64 b := by
      rw [← BitVec.ofNat_add, Nat.sub_add_cancel hle]
    _ = BitVec.ofNat 64 (a - b) := BitVec.add_sub_cancel _ _

theorem toNat_round_up (hp : Pages ps) (hu : Area u) :
    (MALLOC_ROUND_UP (BitVec.ofNat 64 u.start) ps).toNat = ceilNat ps.toNat u.start := by
  have := hu.user
  have := u.nonempty
  have := hp.high
  rw [malloc_round_up, toNat_alignUp hp.pageSize _ (by rw [toNat_start hu]; omega), toNat_start hu]

theorem toNat_min_free_area_size : HEAP_MIN_FREE_AREA_SIZE.toNat = 56 := by decide

/-- Behind the front that is kept there are whole pages. -/
theorem keep_start.spec (hp : Pages ps) (hh : Held h ss (u :: live))
    (hlen : 8 * ps.toNat ≤ len u) :
    ∃ w h' ss', keep_start ps (BitVec.ofNat 64 u.start) h = .ok (BitVec.ofNat 64 w.start, h') ∧
      w.start % ps.toNat = 0 ∧ u.start ≤ w.start ∧ w.start < u.start + 2 * ps.toNat ∧
      w.stop = u.stop ∧ (u.start % ps.toNat = 0 → w.start = u.start) ∧
      Kept h ss live u w h' ss' := by
  have hu := hh.area u List.mem_cons_self
  have huser := hu.user
  have hlow := hp.low
  have hround := toNat_round_up hp hu
  have hge := le_ceilNat (n := u.start) hp.pageSize.pos
  have hlt := ceilNat_lt (n := u.start) hp.pageSize.pos
  have hmod := ceilNat_mod ps.toNat u.start
  have hstart := toNat_start hu
  unfold len at hlen
  by_cases heq : ceilNat ps.toNat u.start = u.start
  · refine ⟨u, h, ss, ?_, heq ▸ hmod, le_rfl, by omega, rfl, fun _ => rfl, Kept.refl hh⟩
    have hval : MALLOC_ROUND_UP (BitVec.ofNat 64 u.start) ps = BitVec.ofNat 64 u.start :=
      BitVec.eq_of_toNat_eq (by rw [hround, hstart, heq])
    rw [keep_start, hval]
    exact if_neg (BitVec.lt_irrefl _)
  · have hhigh : BitVec.ofNat 64 u.start < MALLOC_ROUND_UP (BitVec.ofNat 64 u.start) ps := by
      rw [BitVec.lt_def, hround, hstart]
      omega
    have hsub : (MALLOC_ROUND_UP (BitVec.ofNat 64 u.start) ps - BitVec.ofNat 64 u.start).toNat =
        ceilNat ps.toNat u.start - u.start := by
      rw [BitVec.toNat_sub_of_le (BitVec.le_of_lt hhigh), hround, hstart]
    -- the page boundary that is taken
    obtain ⟨p, hpval, hpmod, hpge, hplt⟩ : ∃ p, (if MALLOC_ROUND_UP (BitVec.ofNat 64 u.start) ps -
        BitVec.ofNat 64 u.start < HEAP_MIN_FREE_AREA_SIZE then
          MALLOC_ROUND_UP (BitVec.ofNat 64 u.start) ps + ps
        else MALLOC_ROUND_UP (BitVec.ofNat 64 u.start) ps) = BitVec.ofNat 64 p ∧
        p % ps.toNat = 0 ∧ u.start + 24 ≤ p ∧ p < u.start + 2 * ps.toNat := by
      split_ifs with hsmall
      · refine ⟨ceilNat ps.toNat u.start + ps.toNat, ?_, ?_, by omega, by omega⟩
        · rw [BitVec.ofNat_add, ← hround, BitVec.ofNat_toNat, BitVec.setWidth_eq,
            BitVec.ofNat_toNat, BitVec.setWidth_eq]
        · rw [Nat.add_mod_right, hmod]
      · rw [BitVec.lt_def, hsub, toNat_min_free_area_size] at hsmall
        refine ⟨ceilNat ps.toNat u.start, ?_, hmod, by omega, by omega⟩
        rw [← hround, BitVec.ofNat_toNat, BitVec.setWidth_eq]
    obtain ⟨fa, h', hfree, hkept⟩ := hh.give_front (a := ⟨u.start, p, by omega⟩)
      (w := ⟨p, u.stop, by omega⟩) rfl rfl rfl (hp.mod_eight hpmod) (by simp only [len]; omega)
    refine ⟨⟨p, u.stop, by omega⟩, h', _, ?_, hpmod, by simp only; omega, hplt, rfl,
      fun hexact => absurd (ceilNat_of_mod hp.pageSize.pos hexact) heq, hkept⟩
    have hdiff : BitVec.ofNat 64 p - BitVec.ofNat 64 u.start = BitVec.ofNat 64 (p - u.start) :=
      ofNat_sub_ofNat (by omega)
    rw [keep_start, if_pos hhigh]
    simp only [hpval, hdiff, hfree]
    rfl

theorem toNat_round_down (hp : Pages ps) (hu : Area u) :
    (MALLOC_ROUND_DOWN (BitVec.ofNat 64 u.stop) ps).toNat = floorNat ps.toNat u.stop := by
  have hdown := toNat_alignDown hp.pageSize (BitVec.ofNat 64 u.stop)
  rwa [toNat_stop hu] at hdown

/-- In front of the end that is kept there are whole pages. -/
theorem keep_end.spec (hp : Pages ps) (hh : Held h ss (u :: live))
    (hlen : 4 * ps.toNat ≤ len u) :
    ∃ w h' ss', keep_end ps (BitVec.ofNat 64 u.stop) h = .ok (BitVec.ofNat 64 w.stop, h') ∧
      w.stop % ps.toNat = 0 ∧ w.stop ≤ u.stop ∧ u.stop < w.stop + 2 * ps.toNat ∧
      w.start = u.start ∧ (u.stop % ps.toNat = 0 → w.stop = u.stop) ∧
      Kept h ss live u w h' ss' := by
  have hu := hh.area u List.mem_cons_self
  have huser := hu.user
  have hlow := hp.low
  have hround := toNat_round_down hp hu
  have hle := floorNat_le ps.toNat u.stop
  have hlt := lt_floorNat_add (n := u.stop) hp.pageSize.pos
  have hmod : floorNat ps.toNat u.stop % ps.toNat = 0 := floorNat_mod
  have hstop := toNat_stop hu
  unfold len at hlen
  by_cases heq : floorNat ps.toNat u.stop = u.stop
  · refine ⟨u, h, ss, ?_, heq ▸ hmod, le_rfl, by omega, rfl, fun _ => rfl, Kept.refl hh⟩
    have hval : MALLOC_ROUND_DOWN (BitVec.ofNat 64 u.stop) ps = BitVec.ofNat 64 u.stop :=
      BitVec.eq_of_toNat_eq (by rw [hround, hstop, heq])
    rw [keep_end, hval]
    exact if_neg (BitVec.lt_irrefl _)
  · have hhigh : MALLOC_ROUND_DOWN (BitVec.ofNat 64 u.stop) ps < BitVec.ofNat 64 u.stop := by
      rw [BitVec.lt_def, hround, hstop]
      omega
    have hsub : (BitVec.ofNat 64 u.stop - MALLOC_ROUND_DOWN (BitVec.ofNat 64 u.stop) ps).toNat =
        u.stop - floorNat ps.toNat u.stop := by
      rw [BitVec.toNat_sub_of_le (BitVec.le_of_lt hhigh), hround, hstop]
    -- the page boundary that is taken
    obtain ⟨p, hpval, hpmod, hple, hplt⟩ : ∃ p, (if BitVec.ofNat 64 u.stop -
        MALLOC_ROUND_DOWN (BitVec.ofNat 64 u.stop) ps < HEAP_MIN_FREE_AREA_SIZE then
          MALLOC_ROUND_DOWN (BitVec.ofNat 64 u.stop) ps - ps
        else MALLOC_ROUND_DOWN (BitVec.ofNat 64 u.stop) ps) = BitVec.ofNat 64 p ∧
        p % ps.toNat = 0 ∧ p + 24 ≤ u.stop ∧ u.stop < p + 2 * ps.toNat := by
      split_ifs with hsmall
      · refine ⟨floorNat ps.toNat u.stop - ps.toNat, ?_, ?_, by omega, by omega⟩
        · rw [← ofNat_sub_ofNat (by omega), ← hround, BitVec.ofNat_toNat, BitVec.setWidth_eq,
            BitVec.ofNat_toNat, BitVec.setWidth_eq]
        · rw [← Nat.mod_eq_sub_mod (by omega), hmod]
      · rw [BitVec.lt_def, hsub, toNat_min_free_area_size] at hsmall
        refine ⟨floorNat ps.toNat u.stop, ?_, hmod, by omega, by omega⟩
        rw [← hround, BitVec.ofNat_toNat, BitVec.setWidth_eq]
    obtain ⟨fa, h', hfree, hkept⟩ := hh.give_end (a := ⟨p, u.stop, by omega⟩)
      (w := ⟨u.start, p, by omega⟩) rfl rfl rfl (hp.mod_eight hpmod) (by simp only [len]; omega)
    refine ⟨⟨u.start, p, by omega⟩, h', _, ?_, hpmod, by simp only; omega, hplt, rfl,
      fun hexact => absurd (floorNat_of_mod hexact) heq, hkept⟩
    have hdiff : BitVec.ofNat 64 u.stop - BitVec.ofNat 64 p = BitVec.ofNat 64 (u.stop - p) :=
      ofNat_sub_ofNat (by omega)
    rw [keep_end, if_pos hhigh]
    simp only [hpval, hdiff, hfree]
    rfl

/-- What the system gets back of the area `u`. -/
structure Unmapped (ps : Addr) (u w : Span Nat) : Prop where
  start : w.start % ps.toNat = 0
  stop : w.stop % ps.toNat = 0
  front : u.start ≤ w.start ∧ w.start < u.start + 2 * ps.toNat
  back : w.stop ≤ u.stop ∧ u.stop < w.stop + 2 * ps.toNat
  whole_start : u.start % ps.toNat = 0 → w.start = u.start
  whole_stop : u.stop % ps.toNat = 0 → w.stop = u.stop

theorem unmap.spec (hp : Pages ps) (hh : Held s.heap ss live) (hu : u ∈ ss)
    (hlen : 8 * ps.toNat ≤ len u) :
    ∃ w s' ss', unmap ps (header u) s = .ok s' ∧ Unmapped ps u w ∧
      s'.calls = .munmap (BitVec.ofNat 64 w.start) (BitVec.ofNat 64 (len w)) :: s.calls ∧
      s'.errno = s.errno ∧ Held s'.heap ss' (w :: live) ∧ cover ss' ∪ w.cover = cover ss ∧
      SameBut (cover ss) s.heap.mem s'.heap.mem := by
  obtain ⟨ps', qs, rfl⟩ := List.append_of_mem hu
  have hau := hh.isHeap.good.area u hu
  have hru := hh.isHeap.good.room u hu
  obtain ⟨_, ⟨hsize, _, _⟩, _⟩ := hh.isHeap.split
  obtain ⟨hdel, hsame⟩ := hh.delete
  have hcover : cover (ps' ++ u :: qs) = cover (ps' ++ qs) ∪ u.cover := by
    rw [cover_append, cover_cons, cover_append, Set.union_left_comm, Set.union_comm u.cover]
  obtain ⟨w1, h1, ss1, hstart, hmod1, hge1, hlt1, hstop1, hwhole1, hkept1⟩ :=
    keep_start.spec hp hdel hlen
  have hlen1 : 4 * ps.toNat ≤ len w1 := by
    unfold len at hlen ⊢
    omega
  obtain ⟨w, h2, ss2, hend, hmod2, hle2, hlt2, hstart2, hwhole2, hkept2⟩ :=
    keep_end.spec hp hkept1.held hlen1
  have htotal : cover ss2 ∪ w.cover = cover (ps' ++ u :: qs) := by
    rw [hkept2.total, hkept1.total, hcover]
  have hw := hkept2.held.area w List.mem_cons_self
  have hlt := w.nonempty
  have hval1 : BitVec.ofNat 64 w1.start < BitVec.ofNat 64 w.stop := by
    rw [← hstart2]
    exact (ofNat_lt_iff hw.start_lt hw.stop_lt).mpr hlt
  have hdiff : BitVec.ofNat 64 w.stop - BitVec.ofNat 64 w1.start = BitVec.ofNat 64 (len w) := by
    rw [← hstart2]
    exact ofNat_sub_ofNat (le_of_lt hlt)
  refine ⟨w, munmap (BitVec.ofNat 64 w.start) (BitVec.ofNat 64 (len w)) { s with heap := h2 }, ss2,
    ?_, ⟨hstart2 ▸ hmod1, hmod2, hstart2 ▸ ⟨hge1, hlt1⟩, hstop1 ▸ ⟨hle2, hlt2⟩,
      hstart2 ▸ hwhole1, hstop1 ▸ hwhole2⟩, rfl, rfl, hkept2.held, htotal, ?_⟩
  · rw [hstop1] at hend
    rw [unmap, heap_free_area_start hau hru hsize, heap_free_area_end hau hru]
    show (keep_start ps (BitVec.ofNat 64 u.start) (__heap_delete s.heap (header u))).bind _ = _
    rw [hstart]
    show (keep_end ps (BitVec.ofNat 64 u.stop) h1).bind _ = _
    rw [hend]
    show (if BitVec.ofNat 64 w1.start < BitVec.ofNat 64 w.stop then _ else _) = _
    rw [if_pos hval1, hdiff, hstart2]
  · have hsub1 : cover ss1 ⊆ cover (ps' ++ u :: qs) := by
      rw [hcover, ← hkept1.total]
      exact Set.subset_union_left
    have hsub2 : cover ss2 ⊆ cover (ps' ++ u :: qs) := htotal ▸ Set.subset_union_left
    exact hsame.trans ((hkept1.kept.mono hsub1).trans (hkept2.kept.mono hsub2))

/-- What `free` does. -/
structure Returned (init other : Set Nat) (s : Sys) (ss live : List (Span Nat)) (b : Span Nat)
    (s' : Sys) (ss' : List (Span Nat)) : Prop where
  fine : Fine init other s' ss' live
  kept : SameBut (cover ss ∪ b.cover) s.heap.mem s'.heap.mem
  errno : s'.errno = s.errno

theorem toNat_unmap_threshold (hp : Pages ps) :
    (MALLOC_UNMAP_THRESHOLD ps).toNat = 8 * ps.toNat := by
  have hhigh := hp.high
  have h8 : (8 : BitVec 64).toNat = 8 := rfl
  rw [MALLOC_UNMAP_THRESHOLD, BitVec.toNat_mul, h8]
  omega

/-- Without the pages that are unmapped the rest is what the allocator has. -/
theorem owned_munmap (hw : Area w) (howned : owned init s.calls = cover ss' ∪ w.cover ∪ cover live)
    (hheld : Held h ss' (w :: live)) :
    owned init (.munmap (BitVec.ofNat 64 w.start) (BitVec.ofNat 64 (len w)) :: s.calls) =
      cover ss' ∪ cover live := by
  obtain ⟨_, _, hdis⟩ := held_cons.mp hheld
  have hrange : Set.Ico (BitVec.ofNat 64 w.start).toNat
      ((BitVec.ofNat 64 w.start).toNat + (BitVec.ofNat 64 (len w)).toNat) = w.cover := by
    rw [toNat_start hw, toNat_len hw, start_add_len]
    rfl
  rw [owned, hrange, howned, Set.union_right_comm, Set.union_sdiff_right]
  exact hdis.symm.sdiff_eq_left

theorem free.spec (hp : Pages ps) (hf : Fine init other s ss (b :: live)) :
    ∃ u ∈ put b ss, u.start ≤ b.start ∧ b.stop ≤ u.stop ∧
      ((len u < 8 * ps.toNat ∧ ∃ s', free ps (user b) s = .ok s' ∧ s'.calls = s.calls ∧
        Returned init other s ss live b s' (put b ss)) ∨
      (8 * ps.toNat ≤ len u ∧ ∃ w s' ss', free ps (user b) s = .ok s' ∧ Unmapped ps u w ∧
        s'.calls = .munmap (BitVec.ofNat 64 w.start) (BitVec.ofNat 64 (len w)) :: s.calls ∧
        cover ss' = cover (put b ss) \ w.cover ∧ Returned init other s ss live b s' ss')) := by
  have hb := hf.held.area b List.mem_cons_self
  have hroom := hf.room b List.mem_cons_self
  have hrooms : ∀ c ∈ live, 24 ≤ len c := fun c hc => hf.room c (List.mem_cons_of_mem _ hc)
  have hsizes : Sizes s.heap.mem live := fun c hc => hf.sizes c (List.mem_cons_of_mem _ hc)
  obtain ⟨fa, h', hfree, hfreed, hheld⟩ := hf.held.dealloc hroom
  obtain ⟨u, hu, rfl, hlow, hhigh⟩ := hfreed.area
  have hcover : cover (put b ss) = cover ss ∪ b.cover := by rw [cover_put, Set.union_comm]
  have howned : owned init s.calls = cover (put b ss) ∪ cover live := by
    rw [hf.owned, hcover, cover_cons, Set.union_assoc]
  have hapart := hf.apart
  rw [cover_cons, ← Set.union_assoc, ← hcover] at hapart
  obtain ⟨ps', qs, hsplit⟩ := List.append_of_mem hu
  have hsize : h'.get (header u) .size = BitVec.ofNat 64 (len u) := by
    have hheap := hheld.isHeap
    rw [hsplit] at hheap
    exact hheap.split.2.1.1
  have hau := hheld.isHeap.good.area u hu
  have htest : h'.get (header u) .size < MALLOC_UNMAP_THRESHOLD ps ↔ len u < 8 * ps.toNat := by
    rw [hsize, BitVec.lt_def, toNat_len hau, toNat_unmap_threshold hp]
  have hgo : free ps (user b) s =
      if h'.get (header u) .size < MALLOC_UNMAP_THRESHOLD ps then .ok { s with heap := h' }
      else unmap ps (header u) { s with heap := h' } := by
    rw [free, free_to_heap, if_neg (user_ne_zero hb), malloc_base,
      hf.malloc_size List.mem_cons_self, hfree]
    rfl
  refine ⟨u, hu, hlow, hhigh, ?_⟩
  by_cases hlt : len u < 8 * ps.toNat
  · refine .inl ⟨hlt, _, hgo.trans (if_pos (htest.mpr hlt)), rfl, ?_, hcover ▸ hfreed.kept, rfl⟩
    refine ⟨hheld, hrooms, ?_, howned, hapart⟩
    exact hsizes.keep hfreed.kept hheld.free hheld.area hrooms
  · obtain ⟨w, s', ss', hunmap, hpages, hcalls, herrno, hheld', htotal, hsame⟩ :=
      unmap.spec (s := { s with heap := h' }) hp hheld hu (not_lt.mp hlt)
    have hkept : SameBut (cover ss ∪ b.cover) s.heap.mem s'.heap.mem := by
      rw [← hcover]
      exact hfreed.kept.trans hsame
    obtain ⟨hheld'', hw, hdis⟩ := held_cons.mp hheld'
    obtain ⟨hfreew, _⟩ := Set.disjoint_union_right.mp hdis
    have hless : cover ss' = cover (put b ss) \ w.cover := by
      rw [← htotal, Set.union_sdiff_right, hfreew.symm.sdiff_eq_left]
    refine .inr ⟨not_lt.mp hlt, w, s', ss', hgo.trans ((if_neg (mt htest.mp hlt)).trans hunmap),
      hpages, hcalls, hless, ⟨hheld'', hrooms, ?_, ?_, ?_⟩, hkept, herrno⟩
    · refine hsizes.keep hkept ?_ hheld''.area hrooms
      rw [← hcover]
      exact hheld.free
    · rw [hcalls]
      refine owned_munmap hw ?_ hheld'
      rw [howned, htotal]
    · refine Set.disjoint_of_subset_left ?_ hapart
      exact Set.union_subset_union_left _ (hless ▸ Set.sdiff_subset)

theorem free.returned (hp : Pages ps) (hf : Fine init other s ss (b :: live)) :
    ∃ s' ss', free ps (user b) s = .ok s' ∧ Returned init other s ss live b s' ss' := by
  obtain ⟨u, _, _, _, ⟨_, s', hfree, _, hret⟩ | ⟨_, w, s', ss', hfree, _, _, _, hret⟩⟩ :=
    free.spec hp hf
  · exact ⟨s', _, hfree, hret⟩
  · exact ⟨s', ss', hfree, hret⟩

end

/-! ## The start -/

/-- The data of the program at its start: `initial_fa` is one free area. -/
structure Initial (initial_fa : Addr) (init other : Set Nat) (s : Sys) : Prop where
  aligned : initial_fa.toNat % 8 = 0
  nonnull : 0 < initial_fa.toNat
  user : initial_fa.toNat + 256 ≤ 2 ^ 63
  size : s.heap.get (initial_fa + 232) .size = 256
  next : s.heap.get (initial_fa + 232) .next = 0
  prev : s.heap.get (initial_fa + 232) .prev = 0
  calls : s.calls = []
  own : init = Set.Ico initial_fa.toNat (initial_fa.toNat + 256)
  rest : Disjoint init other

section

variable {initial_fa ps : Addr} {init other : Set Nat} {s : Sys} {calls : List Call}

theorem malloc_init.fine (hi : Initial initial_fa init other s) :
    Fine init other (malloc_init initial_fa s)
      [⟨initial_fa.toNat, initial_fa.toNat + 256, Nat.lt_add_of_pos_right (by decide)⟩] [] := by
  have huser := hi.user
  have hheap : (malloc_init initial_fa s).heap.heap = initial_fa + 232 := by
    show initial_fa + 256 - sizeofFreeArea = initial_fa + 232
    bv_omega
  have hheader : BitVec.ofNat 64 (initial_fa.toNat + 256 - 24) = initial_fa + 232 := by
    have hsum : initial_fa.toNat + 256 - 24 = initial_fa.toNat + 232 := by omega
    rw [hsum, BitVec.ofNat_add, BitVec.ofNat_toNat, BitVec.setWidth_eq]
    rfl
  have hcover : cover [⟨initial_fa.toNat, initial_fa.toNat + 256,
      Nat.lt_add_of_pos_right (by decide)⟩] = init := by
    rw [cover_cons, cover_nil, Set.union_empty, hi.own]
    rfl
  have hlinked : Linked (malloc_init initial_fa s).heap 0 [⟨initial_fa.toNat,
      initial_fa.toNat + 256, Nat.lt_add_of_pos_right (by decide)⟩] 0 := by
    refine ⟨⟨?_, ?_, ?_⟩, trivial⟩
    · rw [header, len, hheader, Nat.add_sub_cancel_left]
      exact hi.size
    · rw [header, hheader]
      exact hi.next
    · rw [header, hheader]
      exact hi.prev
  refine ⟨⟨⟨⟨List.pairwise_singleton _ _, ?_, ?_⟩, hheap.trans hheader.symm, hlinked⟩, ?_,
    List.Pairwise.nil, ?_⟩, ?_, ?_, ?_, ?_⟩
  · intro b hb
    obtain rfl := List.mem_singleton.mp hb
    refine ⟨hi.aligned, ?_, hi.nonnull, hi.user⟩
    have := hi.aligned
    simp only
    omega
  · intro b hb
    obtain rfl := List.mem_singleton.mp hb
    simp only [len]
    omega
  · exact fun b hb => absurd hb List.not_mem_nil
  · rw [cover_nil]
    exact Set.disjoint_empty _
  · exact fun b hb => absurd hb List.not_mem_nil
  · exact fun b hb => absurd hb List.not_mem_nil
  · rw [cover_nil, Set.union_empty, hcover]
    show owned init s.calls = init
    rw [hi.calls, owned]
  · rw [cover_nil, Set.union_empty, hcover]
    exact hi.rest

/-- The end of all that was mapped. -/
def top : List Call → Nat
  | [] => 0x100000
  | .mmap length block :: calls =>
    if is_error block then top calls else max (top calls) (block.toNat + length.toNat)
  | .munmap _ _ :: calls => top calls

/-- A kernel that maps behind all that was mapped. -/
def bumpKernel (ps : Addr) : Kernel := fun calls length =>
  let base := ceilNat ps.toNat (top calls)
  if 0 < length.toNat ∧ base + length.toNat ≤ 2 ^ 63 then BitVec.ofNat 64 base else 0 - 1

theorem le_top (calls : List Call) : 0x100000 ≤ top calls := by
  induction calls with
  | nil => exact le_rfl
  | cons c calls ih =>
    cases c with
    | munmap start length => exact ih
    | mmap length block =>
      rw [top]
      split_ifs
      · exact ih
      · exact le_trans ih (Nat.le_max_left _ _)

theorem owned_below_top (hinit : init ⊆ Set.Iio 0x100000) :
    owned init calls ⊆ Set.Iio (top calls) := by
  induction calls with
  | nil => exact hinit
  | cons c calls ih =>
    cases c with
    | munmap start length => exact Set.sdiff_subset.trans ih
    | mmap length block =>
      rw [top, owned]
      split_ifs
      · exact ih
      · refine Set.union_subset (fun x hx => ?_) (fun x hx => ?_)
        · exact lt_of_lt_of_le (ih hx) (Nat.le_max_left _ _)
        · exact lt_of_lt_of_le hx.2 (Nat.le_max_right _ _)

theorem honest_bump (hps : PageSize ps) (hinit : init ⊆ Set.Iio 0x100000)
    (hother : other ⊆ Set.Iio 0x100000) : (bumpKernel ps).Honest ps init other := by
  intro calls length
  have hge := le_ceilNat (n := top calls) hps.pos
  have hlow := le_top calls
  have hbase : ceilNat ps.toNat (top calls) + length.toNat ≤ 2 ^ 63 →
      (BitVec.ofNat 64 (ceilNat ps.toNat (top calls))).toNat = ceilNat ps.toNat (top calls) := by
    intro hle
    rw [BitVec.toNat_ofNat, Nat.mod_eq_of_lt (by omega)]
  rw [bumpKernel]
  split_ifs with hfits
  · right
    have hval := hbase hfits.2
    refine ⟨hfits.1, ?_, by omega, by omega, ?_⟩
    · rw [hval]
      exact ceilNat_mod _ _
    rw [hval, Set.disjoint_left]
    rintro x ⟨hx, _⟩ (hin | hin)
    · have hbelow : x < top calls := owned_below_top hinit hin
      omega
    · have hbelow : x < 0x100000 := hother hin
      omega
  · exact .inl (by decide)

theorem bump_error {n : BitVec 64} (herr : is_error (bumpKernel ps calls n)) :
    bumpKernel ps calls n = 0 - 1 := by
  rw [bumpKernel] at herr ⊢
  split_ifs at herr ⊢ with hfits
  · have hval : (0 - 4095 : BitVec 64).toNat = 2 ^ 64 - 4095 := by decide
    rw [is_error, BitVec.le_def, hval, BitVec.toNat_ofNat, Nat.mod_eq_of_lt (by omega)] at herr
    omega
  · rfl

/-- A program that starts with `initial_fa` at 4096. -/
def firstState : Sys := { heap := { oneArea with heap := 0 }, errno := 0, calls := [] }

theorem initial_firstState : Initial 4096 (Set.Ico 4096 4352) (Set.Iio 4096) firstState := by
  have hzero : ∀ f : Field, f ≠ .size → firstState.heap.get (4096 + 232) f = 0 := by
    intro f hf
    refine (read64_write64_apart _ ?_).trans (read64_zero _)
    cases f with
    | size => exact absurd rfl hf
    | next => decide
    | prev => decide
  exact {
    aligned := by decide
    nonnull := by decide
    user := by decide
    size := read64_write64_self _ _ _
    next := hzero .next (by decide)
    prev := hzero .prev (by decide)
    calls := rfl
    own := rfl
    rest := Set.disjoint_left.mpr fun _ hx hin => absurd hx.1 (not_le.mpr hin) }

theorem pages_4096 : Pages 4096 := ⟨⟨12, by decide, rfl⟩, by decide, by decide⟩

theorem honest_bump_4096 :
    (bumpKernel 4096).Honest 4096 (Set.Ico 4096 4352) (Set.Iio 4096) :=
  honest_bump pages_4096.pageSize
    (fun x hx => show x < 0x100000 from lt_trans (b := 4352) hx.2 (by decide))
    (fun x hx => show x < 0x100000 from lt_trans (b := 4096) hx (by decide))

end

/-! ## Results of `malloc` and `free` -/

section

variable {init other : Set Nat} {s : Sys} {ss live : List (Span Nat)} {b : Span Nat}
  {kern : Kernel} {ps : Addr}

/-- Where `mmap` does not refuse with an error that `malloc` does not see, `malloc` gives NULL if
and only if 0 bytes or too many are asked for, or no free area is big enough and there is no
more memory. After more memory has come it never fails. -/
theorem malloc_null_iff (hk : kern.Honest ps init other) (hp : Pages ps)
    (hf : Fine init other s ss live) (size : BitVec 64) (hseen : ¬ Missed kern ps s size) :
    ∃ p s', malloc kern ps size s = .ok (p, s') ∧
      (p = 0 ↔ size = 0 ∨ 2 ^ 64 - 16 < size.toNat ∨
        (∀ t ∈ ss, len t < fitted (size.toNat + 8)) ∧
          kern s.calls (block_size ps (size + MALLOC_HEADER_SIZE)) = 0 - 1) ∧
      (p = 0 → s'.errno = ENOMEM ∧ s'.heap = s.heap ∧ Fine init other s' ss live) ∧
      (p ≠ 0 → p.toNat % 8 = 0 ∧ ∃ b ss', p = user b ∧
        Got init other s live size.toNat b s' ss') := by
  have hlimit : size_limit < size ↔ 2 ^ 64 - 16 < size.toNat := by
    have hval : size_limit.toNat = 2 ^ 64 - 16 := by decide
    rw [BitVec.lt_def, hval]
  rw [← hlimit]
  rcases malloc.spec size hk hp hf hseen with
    ⟨hno, s', hmalloc, herrno, hheap, hfine⟩ | ⟨hyes, b, s', ss', hmalloc, hgot⟩
  · exact ⟨0, s', hmalloc, iff_of_true rfl hno, fun _ => ⟨herrno, hheap, hfine⟩,
      fun hne => absurd rfl hne⟩
  · have hb := hgot.fine.held.area b List.mem_cons_self
    refine ⟨user b, s', hmalloc, iff_of_false (user_ne_zero hb) hyes,
      fun h0 => absurd h0 (user_ne_zero hb), fun _ => ⟨?_, b, ss', rfl, hgot⟩⟩
    have huser := hb.user
    have hne := b.nonempty
    have hstart := hb.start
    rw [user, BitVec.toNat_ofNat]
    omega

theorem malloc_null_iff_first : ∃ p s',
    malloc (bumpKernel 4096) 4096 100 (malloc_init 4096 firstState) = .ok (p, s') ∧ p ≠ 0 := by
  obtain ⟨p, s', hmalloc, hnull, _⟩ := malloc_null_iff honest_bump_4096 pages_4096
    (malloc_init.fine initial_firstState) 100
    (not_missed (malloc_init.fine initial_firstState) List.mem_cons_self (by decide))
  refine ⟨p, s', hmalloc, fun h0 => ?_⟩
  rcases hnull.mp h0 with h | h | ⟨h, _⟩
  · exact absurd h (by decide)
  · exact absurd h (by decide)
  · exact absurd (h _ List.mem_cons_self) (by decide)

/-- `free` gives whole pages back to the system, and only free ones. It does so if and only if
the area around the block has 8 pages, and more than 4 pages go back then. -/
theorem free_unmaps_pages (hp : Pages ps) (hf : Fine init other s ss (b :: live)) :
    ∃ s' ss', free ps (user b) s = .ok s' ∧ Returned init other s ss live b s' ss' ∧
      ((∀ u ∈ put b ss, b.cover ⊆ u.cover → len u < 8 * ps.toNat) ∧ s'.calls = s.calls ∧
          ss' = put b ss ∨
        ∃ u ∈ put b ss, b.cover ⊆ u.cover ∧ 8 * ps.toNat ≤ len u ∧ ∃ w : Span Nat,
          s'.calls = .munmap (BitVec.ofNat 64 w.start) (BitVec.ofNat 64 (len w)) :: s.calls ∧
          w.start % ps.toNat = 0 ∧ w.stop % ps.toNat = 0 ∧ 4 * ps.toNat < len w ∧
          w.cover ⊆ u.cover ∧ cover ss' = (cover ss ∪ b.cover) \ w.cover) := by
  obtain ⟨u, hu, hlow, hhigh, hcases⟩ := free.spec hp hf
  have hsub : b.cover ⊆ u.cover := fun x hx =>
    ⟨le_trans hlow hx.1, lt_of_lt_of_le hx.2 hhigh⟩
  rcases hcases with ⟨hlt, s', hfree, hcalls, hret⟩ |
    ⟨hge, w, s', ss', hfree, hw, hcalls, hless, hret⟩
  · refine ⟨s', _, hfree, hret, .inl ⟨fun v hv hin => ?_, hcalls, rfl⟩⟩
    -- only one area is around the block
    have hmem := start_mem_cover b
    have hsame := hret.fine.held.isHeap.good.gapped.eq_of_mem hv hu (hin hmem) (hsub hmem)
    exact hsame ▸ hlt
  · refine ⟨s', ss', hfree, hret, .inr ⟨u, hu, hsub, hge, w, hcalls, hw.start, hw.stop, ?_, ?_, ?_⟩⟩
    · obtain ⟨_, h1⟩ := hw.front
      obtain ⟨_, h2⟩ := hw.back
      unfold len at hge ⊢
      omega
    · exact fun x hx => ⟨le_trans hw.front.1 hx.1, lt_of_lt_of_le hx.2 hw.back.1⟩
    · rw [hless, cover_put, Set.union_comm]

/-- A block of 9 pages that is all the allocator has. -/
def ninePages : Span Nat := ⟨0x200000, 0x209000, by decide⟩

def ninePagesState : Sys :=
  { heap := { mem := write64 (fun _ => 0) 0x200000 0x9000, heap := 0 }, errno := 0
    calls := [.mmap 0x9000 0x200000] }

theorem ninePages_fine : Fine ∅ ∅ ninePagesState [] [ninePages] := by
  have hcover : cover [ninePages] = Set.Ico 0x200000 0x209000 := by
    rw [cover_cons, cover_nil, Set.union_empty]
    rfl
  refine ⟨⟨isHeap_empty _, ?_, List.pairwise_singleton _ _, ?_⟩, ?_, ?_, ?_, Set.disjoint_empty _⟩
  · intro b hb
    obtain rfl := List.mem_singleton.mp hb
    exact ⟨by decide, by decide, by decide, by decide⟩
  · rw [cover_nil]
    exact Set.empty_disjoint _
  · intro b hb
    obtain rfl := List.mem_singleton.mp hb
    decide
  · intro b hb
    obtain rfl := List.mem_singleton.mp hb
    exact read64_write64_self _ _ _
  · rw [cover_nil, Set.empty_union, hcover]
    show owned ∅ [.mmap 0x9000 0x200000] = _
    rw [owned, if_neg (by decide), owned, Set.empty_union]
    rfl

theorem free_unmaps_pages_nine : ∃ s' ss', free 4096 (user ninePages) ninePagesState = .ok s' ∧
    Returned ∅ ∅ ninePagesState [] [] ninePages s' ss' ∧ s'.calls ≠ ninePagesState.calls := by
  obtain ⟨s', ss', hfree, hret, hcases⟩ := free_unmaps_pages pages_4096 ninePages_fine
  refine ⟨s', ss', hfree, hret, ?_⟩
  rcases hcases with ⟨hsmall, _⟩ | ⟨u, _, _, _, w, hcalls, _⟩
  · exact absurd (hsmall ninePages List.mem_cons_self subset_rfl) (by decide)
  · rw [hcalls]
    exact List.cons_ne_self _ _

/-- The last memory of the allocator is not kept: a block of whole pages, 8 or more, that is
freed when nothing else is free leaves an empty heap. -/
theorem free_empties_heap (hp : Pages ps) (hf : Fine init other s [] (b :: live))
    (hstart : b.start % ps.toNat = 0) (hstop : b.stop % ps.toNat = 0)
    (hlen : 8 * ps.toNat ≤ len b) :
    ∃ s', free ps (user b) s = .ok s' ∧ s'.heap.heap = 0 ∧
      s'.calls = .munmap (BitVec.ofNat 64 b.start) (BitVec.ofNat 64 (len b)) :: s.calls := by
  obtain ⟨u, hu, _, _, hcases⟩ := free.spec hp hf
  obtain rfl : u = b := List.mem_singleton.mp hu
  rcases hcases with ⟨hlt, _⟩ | ⟨_, w, s', ss', hfree, hw, hcalls, hless, hret⟩
  · exact absurd hlt (not_lt.mpr hlen)
  obtain rfl : w = u := Span.ext (hw.whole_start hstart) (hw.whole_stop hstop)
  have hempty : cover ss' = ∅ := by
    rw [hless, put, cover_cons, cover_nil, Set.union_empty, Set.sdiff_self]
  have hnil : ss' = [] :=
    hret.fine.held.isHeap.good.gapped.ext List.Pairwise.nil (hempty.trans cover_nil.symm)
  subst hnil
  exact ⟨s', hfree, hret.fine.held.isHeap.heap, hcalls⟩

theorem free_empties_heap_nine : ∃ s', free 4096 (user ninePages) ninePagesState = .ok s' ∧
    s'.heap.heap = 0 ∧ s'.calls = [.munmap 0x200000 0x9000, .mmap 0x9000 0x200000] :=
  free_empties_heap pages_4096 ninePages_fine (by decide) (by decide) (by decide)

end

/-! ## Failures of `mmap` -/

section

variable {h : Heap} {s : Sys} {kern : Kernel} {ps mem fa : Addr} {size bs n : BitVec 64}
  {init other : Set Nat} {ss live : List (Span Nat)}

/-- The heap after a first area was put into an empty one. -/
theorem heap_free_empty (mem : Addr) (bs : BitVec 64) (hheap : h.heap = 0)
    (hfa : mem + bs - sizeofFreeArea = fa) :
    ∃ h', __heap_free h mem bs = .ok (fa, h') ∧ h'.heap = fa ∧ h'.get fa .size = bs := by
  have hfound : find_place h mem (2 ^ 64) 0 h.heap = .ok (0, 0) := by
    rw [hheap]
    exact if_pos rfl
  refine ⟨__heap_link_free_area (h.set fa .size bs) fa 0 0, ?_, rfl, ?_⟩
  · rw [__heap_free, hfound]
    show Except.ok (put_area h mem bs 0 0) = _
    rw [put_area_add fun hin => hin.1 rfl, __heap_add_free_area, hfa]
  · show (((h.set fa .size bs).set fa .next 0).set fa .prev 0).get fa .size = bs
    rw [get_set_field (by decide), get_set_field (by decide), get_set_self]

theorem heap_alloc_first (hheap : h.heap = fa) (hne : fa ≠ 0) (hsize : h.get fa .size = bs)
    (hfits : fit_size n ≤ bs) :
    ∃ n' h', __heap_alloc h n = .ok (fa + sizeofFreeArea - bs, n', h') := by
  have hfound : find_fit h (fit_size n) (2 ^ 64) h.heap = .ok fa := by
    rw [hheap]
    exact (if_neg hne).trans (if_pos (hsize ▸ hfits))
  refine ⟨(__heap_free_area_alloc h fa (fit_size n)).1,
    (__heap_free_area_alloc h fa (fit_size n)).2, ?_⟩
  rw [__heap_alloc, hfound]
  show (if fa = 0 then _ else _) = _
  rw [if_neg hne, ← hsize]
  rfl

theorem toNat_error (herr : is_error mem) : 2 ^ 64 - 4095 ≤ mem.toNat := by
  have hval : (0 - 4095 : BitVec 64).toNat = 2 ^ 64 - 4095 := by decide
  exact hval ▸ herr

/-- A refusal leaves the memory. -/
theorem mmap_refused (herr : is_error (kern s.calls n)) :
    mmap kern n s =
      (kern s.calls n, { s with calls := .mmap n (kern s.calls n) :: s.calls }) := by
  rw [mmap, if_pos herr]

/-- A page at the address of an error ends in the first page or behind the process. -/
theorem header_of_error (hp : Pages ps) (herr : is_error mem) :
    ¬ is_mapped ps (mem + ps - sizeofFreeArea) := by
  rintro ⟨hlow, huser⟩
  have hmem := toNat_error herr
  have h64 := hp.low
  have hhigh := hp.high
  have h24 : sizeofFreeArea.toNat = 24 := rfl
  rw [BitVec.le_def] at hlow
  rw [is_user] at huser
  rw [BitVec.toNat_sub, BitVec.toNat_add, h24] at hlow huser
  omega

theorem extend_heap_missed (herr : is_error (kern s.calls (block_size ps n)))
    (hne : kern s.calls (block_size ps n) ≠ 0 - 1)
    (hlost : ¬ is_mapped ps (kern s.calls (block_size ps n) + block_size ps n - sizeofFreeArea)) :
    extend_heap kern ps n s = .error (.fault .badStore) := by
  rw [extend_heap, mmap_refused herr]
  exact (if_neg hne).trans (if_neg hlost)

/-- An empty heap takes the error for new memory, and gives it out. -/
theorem extend_heap_of_error (hheap : s.heap.heap = 0)
    (herr : is_error (kern s.calls (block_size ps n)))
    (hne : kern s.calls (block_size ps n) ≠ 0 - 1)
    (hmapped : is_mapped ps (kern s.calls (block_size ps n) + block_size ps n - sizeofFreeArea))
    (hp : Pages ps) (hfits : fit_size n ≤ block_size ps n) :
    ∃ m s', extend_heap kern ps n s = .ok (kern s.calls (block_size ps n), m, s') := by
  obtain ⟨h1, hfree, hheap1, hsize1⟩ :=
    heap_free_empty (kern s.calls (block_size ps n)) (block_size ps n) hheap rfl
  have hfa : kern s.calls (block_size ps n) + block_size ps n - sizeofFreeArea ≠ 0 := by
    intro h0
    have hlow : ps.toNat ≤ (0 : Addr).toNat := h0 ▸ hmapped.1
    exact absurd hlow (not_le.mpr hp.pageSize.pos)
  obtain ⟨m, h2, halloc⟩ := heap_alloc_first hheap1 hfa hsize1 hfits
  rw [BitVec.sub_add_cancel, BitVec.add_sub_cancel] at halloc
  refine ⟨m, { s with
    heap := h2
    calls := .mmap (block_size ps n) (kern s.calls (block_size ps n)) :: s.calls }, ?_⟩
  rw [extend_heap, mmap_refused herr]
  refine (if_neg hne).trans ((if_pos hmapped).trans ?_)
  show (__heap_free s.heap (kern s.calls (block_size ps n)) _).bind _ = _
  rw [hfree]
  show (__heap_alloc h1 n).bind _ = _
  rw [halloc]
  rfl

theorem setup_of_error (herr : is_error mem) :
    MALLOC_SETUP mem size s = .error (.fault .badStore) := by
  refine if_neg fun huser => ?_
  have hmem := toNat_error herr
  rw [is_user] at huser
  omega

/-- `malloc` tests for -1, but `mmap` returns the error number below zero. So an error other
than 1 is taken for the address of new memory, and the program ends with a store to it. -/
theorem malloc_failure_missed (hp : Pages ps) (hf : Fine init other s ss live)
    (hmissed : Missed kern ps s size) (hcase : size.toNat + 8 < ps.toNat ∨ ss = []) :
    malloc kern ps size s = .error (.fault .badStore) := by
  obtain ⟨⟨h0, hlimit, hnone⟩, herr, hne⟩ := hmissed
  have hlim := le_size_limit hlimit
  have hsum := toNat_with_header hlim
  -- what is left is that the step after the first try stores to a bad address
  suffices hfrom : malloc_from_heap kern ps size s = .error (.fault .badStore) by
    rw [malloc, if_neg h0, if_neg (BitVec.not_lt.mpr hlimit), hfrom]
    rfl
  by_cases hmapped : is_mapped ps (answer kern ps s size +
      block_size ps (size + MALLOC_HEADER_SIZE) - sizeofFreeArea)
  · have hempty : ss = [] := by
      refine hcase.resolve_left fun hlt => ?_
      have hpage : block_size ps (size + MALLOC_HEADER_SIZE) = ps :=
        if_pos (by rw [BitVec.lt_def, hsum]; exact hlt)
      rw [hpage] at hmapped
      exact header_of_error hp herr hmapped
    have hpos : 0 < (block_size ps (size + MALLOC_HEADER_SIZE)).toNat := by
      by_contra hzero
      have hval : block_size ps (size + MALLOC_HEADER_SIZE) = 0 :=
        BitVec.eq_of_toNat_eq (Nat.eq_zero_of_not_pos hzero)
      have hmem := toNat_error herr
      have huser := hmapped.2
      have h24 : sizeofFreeArea.toNat = 24 := rfl
      have hnull : (0 : Addr).toNat = 0 := rfl
      rw [hval, is_user, BitVec.toNat_sub, BitVec.toNat_add, h24, hnull] at huser
      omega
    obtain ⟨hlong, hmod⟩ := block_size.spec hp hpos
    have hlow := hp.low
    have hpage := Nat.le_of_dvd hpos (Nat.dvd_of_mod_eq_zero hmod)
    have hfits : fit_size (size + MALLOC_HEADER_SIZE) ≤
        block_size ps (size + MALLOC_HEADER_SIZE) := by
      rw [BitVec.le_def, toNat_fit_size (by omega)]
      exact fitted_le hlong (hp.mod_eight hmod) (by omega)
    have hheap : s.heap.heap = 0 := by
      have hlinked := hf.held.isHeap.heap
      rw [hempty] at hlinked
      exact hlinked
    obtain ⟨m, s', hext⟩ := extend_heap_of_error hheap herr hne hmapped hp hfits
    rw [malloc_from_heap_eq hnone hext]
    refine (if_pos fun hzero => ?_).trans (setup_of_error herr)
    have hmem := toNat_error herr
    have hval : (answer kern ps s size).toNat = 0 := congrArg BitVec.toNat hzero
    omega
  · rw [malloc_from_heap, hnone]
    show (extend_heap kern ps (size + MALLOC_HEADER_SIZE) s).bind _ = _
    rw [extend_heap_missed herr hne hmapped]
    rfl

/-- The first block of 1000 bytes, with `ENOMEM` from `mmap`. -/
theorem malloc_failure_missed_enomem :
    malloc (fun _ _ => 0 - 12) 4096 1000 (malloc_init 4096 firstState) =
      .error (.fault .badStore) := by
  refine malloc_failure_missed pages_4096 (malloc_init.fine initial_firstState) ?_
    (.inl (by decide))
  refine ⟨⟨by decide, by decide, ?_⟩, ?_, ?_⟩
  · rcases (malloc_init.fine initial_firstState).held.alloc (1000 + MALLOC_HEADER_SIZE)
      (by decide) with ⟨_, hnone⟩ | ⟨_, _, _, _, ⟨t, ht, hbig⟩, _⟩
    · exact hnone
    · obtain rfl := List.mem_singleton.mp ht
      exact absurd hbig (by decide)
  · show is_error (0 - 12)
    decide
  · show (0 - 12 : Addr) ≠ 0 - 1
    decide

end

end elf_loader.malloc
