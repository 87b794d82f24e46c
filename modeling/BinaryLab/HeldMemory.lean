-- Memory that is split into free areas and blocks in use. A heap operation
-- moves whole spans from one side to the other, and it stores into the free
-- side only.
import BinaryLab.HeapAlloc

set_option linter.style.nameCheck false

open binary_lab.runs binary_lab.words binary_lab.pages binary_lab.spans

namespace elf_loader.malloc

/-! ## Memory that stays the same -/

section

variable {h h' : Heap} {A B : Set Nat} {m m' : Bytes} {s : Span Nat} {ss : List (Span Nat)}
  {a : Addr} {n : BitVec 64}

theorem read64_sameBut (hsame : SameBut A m m') (ha : a.toNat + 8 ≤ 2 ^ 64)
    (hA : Disjoint A (Set.Ico a.toNat (a.toNat + 8))) : read64 m' a = read64 m a :=
  read64_same (fun x hx => hsame x fun hin => Set.disjoint_left.mp hA hin hx) ha

/-- A store into an area keeps to it. -/
theorem sameBut_write64 {v : BitVec 64} (ha : a.toNat + 8 ≤ 2 ^ 64)
    (hA : Set.Ico a.toNat (a.toNat + 8) ⊆ A) : SameBut A m (write64 m a v) := fun _ hx =>
  write64_outside v ha fun hin => hx (hA hin)

theorem sameBut_zeros (hn : a.toNat + n.toNat ≤ 2 ^ 64) :
    SameBut (Set.Ico a.toNat (a.toNat + n.toNat)) m (fun x => if x - a < n then 0 else m x) := by
  intro x hx
  refine if_neg fun hlt => hx ?_
  rw [BitVec.lt_def, BitVec.toNat_sub] at hlt
  constructor <;> omega

/-- The links of a heap are kept with its areas. -/
theorem IsHeap.keep (hh : IsHeap h ss) (hheap : h'.heap = h.heap) (hsame : SameBut A h.mem h'.mem)
    (hA : Disjoint A (cover ss)) : IsHeap h' ss := by
  refine ⟨hh.good, hheap.trans hh.heap, hh.linked.keep fun t ht f => ?_⟩
  have hat := hh.good.area t ht
  have hrt := hh.good.room t ht
  have hheader := toNat_header hat
  have huser := hat.user
  have hf := f.offset_le
  have hfield : (header t + f.offset).toNat = (header t).toNat + f.offset.toNat := by
    rw [BitVec.toNat_add, Nat.mod_eq_of_lt (by omega)]
  unfold len at hrt
  apply read64_sameBut hsame
  · omega
  · refine Set.disjoint_of_subset_right ?_ hA
    rintro x ⟨h1, h2⟩
    exact ⟨t, ht, by omega, by omega⟩

end

/-! ## The two sides -/

/-- The memory is split into the free areas `ss` and the blocks `live`. -/
structure Held (h : Heap) (ss live : List (Span Nat)) : Prop where
  isHeap : IsHeap h ss
  area : ∀ b ∈ live, Area b
  apart : live.Pairwise fun a b => Disjoint a.cover b.cover
  free : Disjoint (cover ss) (cover live)

section

variable {h h' : Heap} {ss live live' : List (Span Nat)} {b c d : Span Nat} {A : Set Nat}
  {size : BitVec 64}

theorem Held.perm (hh : Held h ss live) (hp : live.Perm live') : Held h ss live' where
  isHeap := hh.isHeap
  area := fun b hb => hh.area b (hp.mem_iff.mpr hb)
  apart := (hp.pairwise_iff fun hab => hab.symm).mp hh.apart
  free := cover_perm hp ▸ hh.free

theorem Held.drop (hh : Held h ss (b :: live)) : Held h ss live where
  isHeap := hh.isHeap
  area := fun c hc => hh.area c (List.mem_cons_of_mem _ hc)
  apart := (List.pairwise_cons.mp hh.apart).2
  free := Set.disjoint_of_subset_right (by rw [cover_cons]; exact Set.subset_union_right) hh.free

theorem disjoint_cover_right : Disjoint A (cover live) ↔ ∀ b ∈ live, Disjoint A b.cover := by
  constructor
  · exact fun hA b hb => Set.disjoint_of_subset_right (cover_subset hb) hA
  · intro hA
    rw [Set.disjoint_left]
    rintro x hx ⟨b, hb, hxb⟩
    exact Set.disjoint_left.mp (hA b hb) hx hxb

theorem held_cons : Held h ss (b :: live) ↔
    Held h ss live ∧ Area b ∧ Disjoint b.cover (cover ss ∪ cover live) := by
  constructor
  · intro hh
    refine ⟨hh.drop, hh.area b List.mem_cons_self, Set.disjoint_union_right.mpr ⟨?_, ?_⟩⟩
    · exact (disjoint_cover_right.mp hh.free b List.mem_cons_self).symm
    · exact disjoint_cover_right.mpr (List.pairwise_cons.mp hh.apart).1
  · rintro ⟨hh, hb, hdis⟩
    obtain ⟨hfree, hlive⟩ := Set.disjoint_union_right.mp hdis
    refine ⟨hh.isHeap, ?_, List.pairwise_cons.mpr ⟨disjoint_cover_right.mp hlive, hh.apart⟩, ?_⟩
    · intro c hc
      rcases List.mem_cons.mp hc with rfl | hc
      · exact hb
      · exact hh.area c hc
    · rw [cover_cons]
      exact Set.disjoint_union_right.mpr ⟨hfree.symm, hh.free⟩

/-- The free areas share nothing with the block, nor with the others. -/
theorem Held.block_free (hh : Held h ss (b :: live)) : Free b ss :=
  (Set.disjoint_union_right.mp (held_cons.mp hh).2.2).1

/-- Stores outside of the free areas do not count. -/
theorem Held.keep (hh : Held h ss live) (hheap : h'.heap = h.heap)
    (hsame : SameBut A h.mem h'.mem) (hA : Disjoint A (cover ss)) : Held h' ss live :=
  ⟨hh.isHeap.keep hheap hsame hA, hh.area, hh.apart, hh.free⟩

/-- A block is two blocks, one behind the other. -/
theorem Held.split (hh : Held h ss (b :: live)) (hcd : c.stop = d.start) (hc : Area c)
    (hd : Area d) (hb : b.cover = c.cover ∪ d.cover) : Held h ss (c :: d :: live) := by
  obtain ⟨hrest, _, hdis⟩ := held_cons.mp hh
  rw [hb] at hdis
  obtain ⟨hc', hd'⟩ := Set.disjoint_union_left.mp hdis
  have hsep : Disjoint c.cover d.cover := disjoint_of_stop_le (le_of_eq hcd)
  refine held_cons.mpr ⟨held_cons.mpr ⟨hrest, hd, hd'⟩, hc, ?_⟩
  rw [cover_cons, Set.union_left_comm]
  exact Set.disjoint_union_right.mpr ⟨hsep, hc'⟩

/-- Two blocks, one behind the other, are one block. -/
theorem Held.join (hh : Held h ss (c :: d :: live)) (hb : Area b)
    (hcover : b.cover = c.cover ∪ d.cover) : Held h ss (b :: live) := by
  obtain ⟨hrest, _, hc⟩ := held_cons.mp hh
  obtain ⟨hrest', _, hd⟩ := held_cons.mp hrest
  refine held_cons.mpr ⟨hrest', hb, ?_⟩
  rw [cover_cons, Set.union_left_comm] at hc
  rw [hcover]
  exact Set.disjoint_union_left.mpr ⟨(Set.disjoint_union_right.mp hc).2, hd⟩

/-! ## The operations -/

theorem Front.held {t : Span Nat} {ps qs : List (Span Nat)} {n : Nat} (hb : Front n t b)
    (hn : n % 8 = 0) (hh : Held h (ps ++ t :: qs) live)
    (hheap : IsHeap h' (ps ++ (t.behind b.stop ++ qs))) :
    Held h' (ps ++ (t.behind b.stop ++ qs)) (b :: live) ∧
      cover (ps ++ t :: qs) = b.cover ∪ cover (ps ++ (t.behind b.stop ++ qs)) := by
  have hcover := hb.cover_eq hh.isHeap.good
  have hmem : t ∈ ps ++ t :: qs := List.mem_append_right _ List.mem_cons_self
  have hsub : b.cover ⊆ cover (ps ++ t :: qs) := fun x hx =>
    cover_subset hmem ⟨hb.start ▸ hx.1, lt_of_lt_of_le hx.2 hb.stop_le⟩
  have hless : cover (ps ++ (t.behind b.stop ++ qs)) ⊆ cover (ps ++ t :: qs) :=
    hcover ▸ Set.sdiff_subset
  have hrest : Held h' (ps ++ (t.behind b.stop ++ qs)) live :=
    ⟨hheap, hh.area, hh.apart, Set.disjoint_of_subset_left hless hh.free⟩
  refine ⟨held_cons.mpr ⟨hrest, hb.area (hh.isHeap.good.area t hmem) hn, ?_⟩, ?_⟩
  · refine Set.disjoint_union_right.mpr ⟨?_, Set.disjoint_of_subset_left hsub hh.free⟩
    rw [hcover]
    exact Set.disjoint_sdiff_right
  · rw [hcover, Set.union_sdiff_cancel hsub]

/-- A block that was allocated. -/
structure Allocated (h : Heap) (ss live : List (Span Nat)) (b : Span Nat) (h' : Heap)
    (ss' : List (Span Nat)) : Prop where
  held : Held h' ss' (b :: live)
  total : cover ss = b.cover ∪ cover ss'
  kept : SameBut (cover ss) h.mem h'.mem

theorem Held.alloc (size : BitVec 64) (hh : Held h ss live) (hsize : size.toNat ≤ 2 ^ 64 - 8) :
    ((∀ t ∈ ss, len t < fitted size.toNat) ∧ __heap_alloc h size = .ok (0, size, h)) ∨
      ∃ b h' ss', __heap_alloc h size =
          .ok (BitVec.ofNat 64 b.start, BitVec.ofNat 64 (len b), h') ∧
        (∃ t ∈ ss, fitted size.toNat ≤ len t) ∧ fitted size.toNat ≤ len b ∧
        Allocated h ss live b h' ss' := by
  rcases __heap_alloc.spec size hh.isHeap hsize with
    hnone | ⟨ps, t, qs, b, h', rfl, _, hb, halloc, hheap, hsame⟩
  · exact .inl hnone
  · obtain ⟨hheld, hcover⟩ := hb.held fitted_mod hh hheap
    have hmem : t ∈ ps ++ t :: qs := List.mem_append_right _ List.mem_cons_self
    exact .inr ⟨b, h', _, halloc, ⟨t, hmem, hb.fits⟩, hb.le_len, hheld, hcover, hsame⟩

/-- More memory behind the block `c`. -/
theorem Held.alloc_at (size : BitVec 64) (hh : Held h ss (c :: live))
    (hsize : size.toNat ≤ 2 ^ 64 - 8) (hpos : 0 < size.toNat) :
    __heap_alloc_at h (BitVec.ofNat 64 c.stop) size = .ok (0, h) ∨
      ∃ d h' ss', __heap_alloc_at h (BitVec.ofNat 64 c.stop) size =
          .ok (BitVec.ofNat 64 (len d), h') ∧ d.start = c.stop ∧ size.toNat ≤ len d ∧
        Allocated h ss (c :: live) d h' ss' := by
  rcases __heap_alloc_at.spec (BitVec.ofNat 64 c.stop) size hh.isHeap hsize hpos with
    ⟨t, qs, d, h', rfl, hstart, hd, halloc, hheap, hsame⟩ | ⟨_, hnone⟩
  · obtain ⟨hheld, hcover⟩ := hd.held (ceilNat_mod 8 _)
      (show Held h ([] ++ t :: qs) (c :: live) from hh) hheap
    have hle : size.toNat ≤ len d := le_trans (le_ceilNat (by decide)) hd.le_len
    have hstop := toNat_stop (hh.area c List.mem_cons_self)
    exact .inr ⟨d, h', _, halloc, hd.start.trans (hstart.trans hstop), hle, hheld, hcover, hsame⟩
  · exact .inl hnone

theorem Held.dealloc (hh : Held h ss (b :: live)) (hroom : 24 ≤ len b) :
    ∃ fa h', __heap_free h (BitVec.ofNat 64 b.start) (BitVec.ofNat 64 (len b)) = .ok (fa, h') ∧
      Freed h (put b ss) b fa h' ∧ Held h' (put b ss) live := by
  obtain ⟨hrest, hb, hdis⟩ := held_cons.mp hh
  obtain ⟨fa, h', hfree, hfreed⟩ := __heap_free.spec hh.isHeap hb hroom hh.block_free
  refine ⟨fa, h', hfree, hfreed, hfreed.isHeap, hrest.area, hrest.apart, ?_⟩
  rw [cover_put]
  exact Set.disjoint_union_left.mpr ⟨(Set.disjoint_union_right.mp hdis).2, hrest.free⟩

/-- An area that leaves the heap is a block. -/
theorem Held.delete {t : Span Nat} {ps qs : List (Span Nat)} (hh : Held h (ps ++ t :: qs) live) :
    Held (__heap_delete h (header t)) (ps ++ qs) (t :: live) ∧
      SameBut (cover (ps ++ t :: qs)) h.mem (__heap_delete h (header t)).mem := by
  have hmem : t ∈ ps ++ t :: qs := List.mem_append_right _ List.mem_cons_self
  have hcover : cover (ps ++ t :: qs) = t.cover ∪ cover (ps ++ qs) := by
    rw [cover_append, cover_cons, cover_append, Set.union_left_comm]
  have hsep : Disjoint t.cover (cover (ps ++ qs)) := by
    obtain ⟨_, hgq, hpq⟩ := gapped_append.mp hh.isHeap.good.gapped
    refine disjoint_cover_right.mpr fun u hu => ?_
    rcases List.mem_append.mp hu with hu | hu
    · exact (disjoint_of_stop_le (le_of_lt (hpq u hu t List.mem_cons_self))).symm
    · exact disjoint_of_stop_le (le_of_lt ((List.pairwise_cons.mp hgq).1 u hu))
  have hfree := hh.free
  rw [hcover] at hfree
  obtain ⟨ht, hrest⟩ := Set.disjoint_union_left.mp hfree
  refine ⟨held_cons.mpr ⟨⟨isHeap_delete hh.isHeap, hh.area, hh.apart, hrest⟩,
    hh.isHeap.good.area t hmem, Set.disjoint_union_right.mpr ⟨hsep, ht⟩⟩, sameBut_delete hh.isHeap⟩

end

end elf_loader.malloc
