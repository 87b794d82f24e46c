-- `malloc` and `free` over memory that is split into free areas and blocks in
-- use. What the allocator has from the system is always one of the two.
import BinaryLab.HeldMemory
import BinaryLab.Malloc

set_option linter.style.nameCheck false
set_option linter.dupNamespace false

open binary_lab.runs binary_lab.words binary_lab.pages binary_lab.spans

namespace elf_loader.malloc

/-! ## The memory from the system -/

/-- The addresses that the allocator has, if it starts with `init`. -/
def owned (init : Set Nat) : List Call → Set Nat
  | [] => init
  | .mmap length block :: calls =>
    if is_error block then owned init calls
    else owned init calls ∪ Set.Ico block.toNat (block.toNat + length.toNat)
  | .munmap start length :: calls =>
    owned init calls \ Set.Ico start.toNat (start.toNat + length.toNat)

/-- A page size that the allocator can work with. -/
structure Pages (ps : Addr) : Prop where
  pageSize : PageSize ps
  low : 64 ≤ ps.toNat
  high : ps.toNat ≤ 2 ^ 40

/-- The block is new pages of user memory. -/
structure NewPages (ps : Addr) (used : Set Nat) (length : BitVec 64) (block : Addr) : Prop where
  nonempty : 0 < length.toNat
  page : block.toNat % ps.toNat = 0
  nonnull : 0 < block.toNat
  user : block.toNat + length.toNat ≤ 2 ^ 63
  unused : Disjoint (Set.Ico block.toNat (block.toNat + length.toNat)) used

/-- Each answer is an error, whichever it is, or new pages that are neither the
allocator's nor in other use. -/
def Kernel.Honest (kern : Kernel) (ps : Addr) (init other : Set Nat) : Prop :=
  ∀ calls length, is_error (kern calls length) ∨
    NewPages ps (owned init calls ∪ other) length (kern calls length)

/-! ## Blocks in use -/

/-- The address that the user of a block has. -/
def user (b : Span Nat) : Addr := BitVec.ofNat 64 (b.start + 8)

/-- Each block starts with its size. -/
def Sizes (m : Bytes) (live : List (Span Nat)) : Prop :=
  ∀ b ∈ live, read64 m (BitVec.ofNat 64 b.start) = BitVec.ofNat 64 (len b)

/-- The allocator with the free areas `ss` and the blocks `live`. -/
structure Fine (init other : Set Nat) (s : Sys) (ss live : List (Span Nat)) : Prop where
  held : Held s.heap ss live
  room : ∀ b ∈ live, 24 ≤ len b
  sizes : Sizes s.heap.mem live
  owned : owned init s.calls = cover ss ∪ cover live
  apart : Disjoint (cover ss ∪ cover live) other

section

variable {init other A : Set Nat} {s s' : Sys} {ss ss' live live' : List (Span Nat)} {b : Span Nat}
  {m m' : Bytes} {v : BitVec 64} {kern : Kernel} {ps : Addr} {size : BitVec 64}

theorem malloc_base (b : Span Nat) :
    MALLOC_BASE (user b) = BitVec.ofNat 64 b.start := by
  rw [MALLOC_BASE, user, BitVec.ofNat_add]
  exact BitVec.add_sub_cancel _ _

theorem Fine.malloc_size (hf : Fine init other s ss live) (hb : b ∈ live) :
    MALLOC_SIZE s (user b) = BitVec.ofNat 64 (len b) := by
  rw [MALLOC_SIZE, malloc_base, hf.sizes b hb]

theorem Fine.perm (hf : Fine init other s ss live) (hp : live.Perm live') :
    Fine init other s ss live' where
  held := hf.held.perm hp
  room := fun b hb => hf.room b (hp.mem_iff.mpr hb)
  sizes := fun b hb => hf.sizes b (hp.mem_iff.mpr hb)
  owned := cover_perm hp ▸ hf.owned
  apart := cover_perm hp ▸ hf.apart

/-- The 8 bytes of the size are in the block. -/
theorem head_subset (hroom : 24 ≤ len b) : Set.Ico b.start (b.start + 8) ⊆ b.cover := by
  rintro x ⟨h1, h2⟩
  unfold len at hroom
  exact ⟨h1, by omega⟩

theorem size_subset (hb : Area b) (hroom : 24 ≤ len b) :
    Set.Ico (BitVec.ofNat 64 b.start).toNat ((BitVec.ofNat 64 b.start).toNat + 8) ⊆ b.cover := by
  rw [toNat_start hb]
  exact head_subset hroom

theorem size_bound (hb : Area b) : (BitVec.ofNat 64 b.start).toNat + 8 ≤ 2 ^ 64 := by
  have := hb.user
  have := b.nonempty
  rw [toNat_start hb]
  omega

theorem Sizes.keep (hs : Sizes m live) (hsame : SameBut A m m') (hA : Disjoint A (cover live))
    (harea : ∀ b ∈ live, Area b) (hroom : ∀ b ∈ live, 24 ≤ len b) : Sizes m' live := by
  intro b hb
  rw [read64_sameBut hsame (size_bound (harea b hb)), hs b hb]
  refine Set.disjoint_of_subset_right ?_ hA
  exact (size_subset (harea b hb) (hroom b hb)).trans (cover_subset hb)

/-- The size of a new block is stored. -/
theorem setup (hheld : Held s.heap ss (b :: live)) (hroom : ∀ c ∈ b :: live, 24 ≤ len c)
    (hsizes : Sizes s.heap.mem live) (howned : owned init s.calls = cover ss ∪ cover (b :: live))
    (hapart : Disjoint (cover ss ∪ cover (b :: live)) other) :
    Fine init other (MALLOC_SET_SIZE (BitVec.ofNat 64 b.start) (BitVec.ofNat 64 (len b)) s) ss
        (b :: live) ∧
      SameBut (Set.Ico b.start (b.start + 8)) s.heap.mem
        (MALLOC_SET_SIZE (BitVec.ofNat 64 b.start) (BitVec.ofNat 64 (len b)) s).heap.mem := by
  obtain ⟨hrest, hb, hdis⟩ := held_cons.mp hheld
  obtain ⟨hfree, hlive⟩ := Set.disjoint_union_right.mp hdis
  have hroomb := hroom b List.mem_cons_self
  have hstore : SameBut (Set.Ico b.start (b.start + 8)) s.heap.mem
      (MALLOC_SET_SIZE (BitVec.ofNat 64 b.start) (BitVec.ofNat 64 (len b)) s).heap.mem :=
    sameBut_write64 (size_bound hb) (by rw [toNat_start hb])
  have hsame : SameBut b.cover s.heap.mem
      (MALLOC_SET_SIZE (BitVec.ofNat 64 b.start) (BitVec.ofNat 64 (len b)) s).heap.mem :=
    hstore.mono (head_subset hroomb)
  refine ⟨⟨hheld.keep rfl hsame hfree, hroom, ?_, howned, hapart⟩, hstore⟩
  intro c hc
  rcases List.mem_cons.mp hc with rfl | hc
  · exact read64_write64_self _ _ _
  · exact hsizes.keep hsame hlive hrest.area (fun d hd => hroom d (List.mem_cons_of_mem _ hd)) c hc

/-! ## More memory -/

/-- What `mmap` does, if it does not refuse with another error than -1. -/
theorem mmap.spec (hk : kern.Honest ps init other) (length : BitVec 64)
    (hseen : is_error (kern s.calls length) → kern s.calls length = 0 - 1) :
    (∃ s', mmap kern length s = (0 - 1, s') ∧ kern s.calls length = 0 - 1 ∧ s'.heap = s.heap ∧
      s'.errno = s.errno ∧ owned init s'.calls = owned init s.calls) ∨
    ∃ w s', mmap kern length s = (BitVec.ofNat 64 w.start, s') ∧ w.start % ps.toNat = 0 ∧
      0 < w.start ∧ w.stop ≤ 2 ^ 63 ∧ len w = length.toNat ∧ s'.heap.heap = s.heap.heap ∧
      SameBut w.cover s.heap.mem s'.heap.mem ∧
      Disjoint w.cover (owned init s.calls ∪ other) ∧ kern s.calls length ≠ 0 - 1 ∧
      owned init s'.calls = owned init s.calls ∪ w.cover := by
  rcases hk s.calls length with herr | hnew
  · have hfail := hseen herr
    refine .inl ⟨(mmap kern length s).2, ?_, hfail, ?_, rfl, ?_⟩
    · exact Prod.ext hfail rfl
    · rw [mmap, hfail]
      rfl
    · rw [mmap, hfail, owned, if_pos (by decide)]
  · have hpos := hnew.nonempty
    have huser := hnew.user
    have hne : ¬ is_error (kern s.calls length) := by
      intro herr
      have hle : (0 - 4095 : BitVec 64).toNat ≤ (kern s.calls length).toNat := herr
      have hval : (0 - 4095 : BitVec 64).toNat = 2 ^ 64 - 4095 := by decide
      omega
    have hne1 : kern s.calls length ≠ 0 - 1 := by
      intro heq
      rw [heq] at hne
      exact hne (by decide)
    refine .inr ⟨⟨(kern s.calls length).toNat, (kern s.calls length).toNat + length.toNat,
      by omega⟩, (mmap kern length s).2, ?_, hnew.page, hnew.nonnull, huser, ?_, rfl, ?_,
      hnew.unused, hne1, ?_⟩
    · exact Prod.ext (by rw [BitVec.ofNat_toNat, BitVec.setWidth_eq]; rfl) rfl
    · exact Nat.add_sub_cancel_left _ _
    · have hmem : (mmap kern length s).2.heap.mem =
          zeros s.heap.mem (kern s.calls length) length := if_neg hne
      rw [hmem]
      exact sameBut_zeros (by omega)
    · exact if_neg hne

theorem malloc_round_up (sz p2 : BitVec 64) : MALLOC_ROUND_UP sz p2 = alignUp p2 sz := by
  have hsum : sz + (p2 - 1) = sz + p2 - 1 := by bv_omega
  rw [MALLOC_ROUND_UP, MALLOC_ROUND_DOWN, alignUp, hsum]

/-- The new memory is whole pages, and enough for the block. -/
theorem block_size.spec (hp : Pages ps) (hpos : 0 < (block_size ps size).toNat) :
    size.toNat ≤ (block_size ps size).toNat ∧ (block_size ps size).toNat % ps.toNat = 0 := by
  unfold block_size at hpos ⊢
  split_ifs at hpos ⊢ with hlt
  · exact ⟨le_of_lt hlt, Nat.mod_self _⟩
  · rw [malloc_round_up] at hpos ⊢
    by_cases hfit : size.toNat + ps.toNat - 1 < 2 ^ 64
    · rw [toNat_alignUp hp.pageSize size hfit]
      exact ⟨le_ceilNat hp.pageSize.pos, ceilNat_mod _ _⟩
    · -- the sum wraps around to less than a page
      have hdown := toNat_alignDown hp.pageSize (size + ps - 1)
      have hlow := hp.low
      have hhigh := hp.high
      have hsum : (size + ps - 1).toNat < ps.toNat := by
        have := size.isLt
        rw [BitVec.toNat_sub, BitVec.toNat_add]
        have h1 : (1 : BitVec 64).toNat = 1 := rfl
        omega
      have hzero : (alignUp ps size).toNat = 0 := by
        refine hdown.trans ?_
        rw [floorNat, Nat.mod_eq_of_lt hsum, Nat.sub_self]
      omega

end

/-! ## Blocks that are taken -/

/-- The block `b` was taken from the memory of the allocator, which may have grown. -/
structure Taken (init other : Set Nat) (s : Sys) (live : List (Span Nat)) (b : Span Nat)
    (s' : Sys) (ss' : List (Span Nat)) : Prop where
  held : Held s'.heap ss' (b :: live)
  owned : owned init s'.calls = cover ss' ∪ cover (b :: live)
  apart : Disjoint (cover ss' ∪ cover (b :: live)) other
  kept : SameBut (cover ss' ∪ b.cover) s.heap.mem s'.heap.mem

section

variable {init other : Set Nat} {s s' : Sys} {ss ss' live : List (Span Nat)} {b : Span Nat}
  {kern : Kernel} {ps : Addr} {size : BitVec 64} {n : Nat}

theorem fitted_le {m : Nat} (hn : n ≤ m) (hm : m % 8 = 0) (h24 : 24 ≤ m) : fitted n ≤ m :=
  Nat.max_le.mpr ⟨h24, ceilNat_le (by decide) hm hn⟩

theorem Pages.mod_eight (hp : Pages ps) (hn : n % ps.toNat = 0) : n % 8 = 0 := by
  obtain ⟨k, _, hk⟩ := hp.pageSize.toNat_eq
  have h64 : (2 : Nat) ^ 6 ≤ 2 ^ k := hk ▸ hp.low
  have hle : 3 ≤ k := le_trans (by decide) ((Nat.pow_le_pow_iff_right (by decide)).mp h64)
  have h8 : 8 ∣ ps.toNat := hk ▸ Nat.pow_dvd_pow 2 hle
  exact Nat.mod_eq_zero_of_dvd (Nat.dvd_trans h8 (Nat.dvd_of_mod_eq_zero hn))

/-- Whole pages are an area. -/
theorem Pages.area (hp : Pages ps) {w : Span Nat} (hstart : w.start % ps.toNat = 0)
    (hstop : len w % ps.toNat = 0) (hnonnull : 0 < w.start) (huser : w.stop ≤ 2 ^ 63) :
    Area w ∧ 24 ≤ len w := by
  have hlow := hp.low
  have hlen : 0 < len w := Nat.sub_pos_of_lt w.nonempty
  have h1 := hp.mod_eight hstart
  have h2 := hp.mod_eight hstop
  have h3 := Nat.le_of_dvd hlen (Nat.dvd_of_mod_eq_zero hstop)
  have hend := start_add_len w
  exact ⟨⟨h1, by omega, hnonnull, huser⟩, by omega⟩

theorem extend_heap.spec (size : BitVec 64) (hk : kern.Honest ps init other) (hp : Pages ps)
    (hh : Held s.heap ss live) (howned : owned init s.calls = cover ss ∪ cover live)
    (hapart : Disjoint (cover ss ∪ cover live) other) (hsize : size.toNat ≤ 2 ^ 64 - 8)
    (hseen : is_error (kern s.calls (block_size ps size)) →
      kern s.calls (block_size ps size) = 0 - 1) :
    (∃ s', extend_heap kern ps size s = .ok (0, size, s') ∧
      kern s.calls (block_size ps size) = 0 - 1 ∧ s'.heap = s.heap ∧
      owned init s'.calls = owned init s.calls) ∨
    ∃ b s' ss', extend_heap kern ps size s =
        .ok (BitVec.ofNat 64 b.start, BitVec.ofNat 64 (len b), s') ∧
      kern s.calls (block_size ps size) ≠ 0 - 1 ∧ fitted size.toNat ≤ len b ∧
      Taken init other s live b s' ss' := by
  rcases mmap.spec (s := s) hk (block_size ps size) hseen with
    ⟨s1, hmap, hfail, hheap, _, hcalls⟩ |
    ⟨w, s1, hmap, hpage, hnonnull, huser, hlen, hheap, hsame, hnew, hne, hcalls⟩
  · refine .inl ⟨s1, ?_, hfail, hheap, hcalls⟩
    rw [extend_heap, hmap]
    exact if_pos rfl
  · have hpos : 0 < (block_size ps size).toNat := by
      rw [← hlen, len]
      exact Nat.sub_pos_of_lt w.nonempty
    obtain ⟨hle, hmod⟩ := block_size.spec hp hpos
    rw [← hlen] at hle hmod
    obtain ⟨hw, hroom⟩ := hp.area hpage hmod hnonnull huser
    rw [howned] at hnew hcalls
    obtain ⟨hnew, hnewother⟩ := Set.disjoint_union_right.mp hnew
    have hkept : Held s1.heap ss live :=
      hh.keep hheap hsame (Set.disjoint_union_right.mp hnew).1
    obtain ⟨fa, h2, hfree, hfreed, hheld⟩ :=
      (held_cons.mpr ⟨hkept, hw, hnew⟩).dealloc hroom
    have hlenw : BitVec.ofNat 64 (len w) = block_size ps size := by
      rw [hlen, BitVec.ofNat_toNat, BitVec.setWidth_eq]
    rw [hlenw] at hfree
    have hblock : BitVec.ofNat 64 w.start ≠ 0 - 1 := by
      intro heq
      have hval := congrArg BitVec.toNat heq
      have h1 : (0 - 1 : BitVec 64).toNat = 2 ^ 64 - 1 := by decide
      have := w.nonempty
      rw [toNat_start hw, h1] at hval
      omega
    have hstored : is_mapped ps
        (BitVec.ofNat 64 w.start + block_size ps size - sizeofFreeArea) := by
      have hge := Nat.le_of_dvd hnonnull (Nat.dvd_of_mod_eq_zero hpage)
      have hlow := hp.low
      have hend := start_add_len w
      have hval : (BitVec.ofNat 64 w.start + block_size ps size - sizeofFreeArea).toNat =
          w.stop - 24 := by
        rw [← hlenw, start_add, header_eq hroom, toNat_header hw]
      exact ⟨by rw [BitVec.le_def, hval]; omega, by rw [is_user, hval]; omega⟩
    rcases hheld.alloc size hsize with ⟨hsmall, _⟩ | ⟨b, h3, ss', halloc, _, hfits, hgot⟩
    · -- the area around the new memory is big enough
      obtain ⟨u, hu, _, hlow, hhigh⟩ := hfreed.area
      have hlenu : len w ≤ len u :=
        (Nat.sub_le_sub_right hhigh _).trans (Nat.sub_le_sub_left hlow _)
      have h8 : len w % 8 = 0 := by
        have := hw.start
        have := hw.stop
        unfold len
        omega
      exact absurd (hsmall u hu) (not_lt.mpr (le_trans (fitted_le hle h8 hroom) hlenu))
    · have hboth : b.cover ∪ cover ss' = w.cover ∪ cover ss := by
        rw [← hgot.total, cover_put]
      have hall : cover ss' ∪ cover (b :: live) = cover ss ∪ cover live ∪ w.cover := by
        rw [cover_cons, Set.union_left_comm, ← Set.union_assoc, hboth, Set.union_comm w.cover,
          Set.union_right_comm]
      refine .inr ⟨b, { s1 with heap := h3 }, ss', ?_, hne, hfits, hgot.held, ?_, ?_, ?_⟩
      · rw [extend_heap, hmap]
        show (if BitVec.ofNat 64 w.start = 0 - 1 then _ else _) = _
        rw [if_neg hblock, if_pos hstored]
        show (__heap_free s1.heap (BitVec.ofNat 64 w.start) (block_size ps size)).bind _ = _
        rw [hfree]
        show (__heap_alloc h2 size).bind _ = _
        rw [halloc]
        rfl
      · exact hcalls.trans hall.symm
      · rw [hall]
        exact Set.disjoint_union_left.mpr ⟨hapart, hnewother⟩
      · have hA : cover ss' ∪ b.cover = w.cover ∪ cover ss := by rw [Set.union_comm, hboth]
        have hstep := hfreed.kept.trans hgot.kept
        rw [cover_put] at hstep
        rw [hA]
        exact (hsame.mono Set.subset_union_left).trans hstep

theorem Taken.disjoint (ht : Taken init other s live b s' ss') :
    Disjoint (cover ss' ∪ b.cover) (cover live) := by
  obtain ⟨hrest, _, hdis⟩ := held_cons.mp ht.held
  exact Set.disjoint_union_left.mpr ⟨hrest.free, (Set.disjoint_union_right.mp hdis).2⟩

/-- A block of `n` bytes for the user. -/
structure Got (init other : Set Nat) (s : Sys) (live : List (Span Nat)) (n : Nat) (b : Span Nat)
    (s' : Sys) (ss' : List (Span Nat)) : Prop where
  fine : Fine init other s' ss' (b :: live)
  long : n + 8 ≤ len b
  kept : SameBut (cover ss' ∪ b.cover) s.heap.mem s'.heap.mem

/-- With its size a block that was taken is one for the user. -/
theorem Taken.got (ht : Taken init other s live b s' ss') (hsizes : Sizes s.heap.mem live)
    (hroom : ∀ c ∈ live, 24 ≤ len c) (h24 : 24 ≤ len b) (hlong : n + 8 ≤ len b) :
    ∃ s'', MALLOC_SETUP (BitVec.ofNat 64 b.start) (BitVec.ofNat 64 (len b)) s' =
        .ok (user b, s'') ∧ Got init other s live n b s'' ss' := by
  have hrooms : ∀ c ∈ b :: live, 24 ≤ len c := by
    intro c hc
    rcases List.mem_cons.mp hc with rfl | hc
    · exact h24
    · exact hroom c hc
  have hkept := hsizes.keep ht.kept ht.disjoint ht.held.drop.area hroom
  obtain ⟨hfine, hsame⟩ := setup ht.held hrooms hkept ht.owned ht.apart
  have hb := ht.held.area b List.mem_cons_self
  have hmapped : is_user (BitVec.ofNat 64 b.start) := by
    have hend := start_add_len b
    have huser := hb.user
    rw [is_user, toNat_start hb]
    omega
  refine ⟨_, (if_pos hmapped).trans ?_, hfine, hlong, ?_⟩
  · rw [user, BitVec.ofNat_add]
    rfl
  · exact ht.kept.trans (hsame.mono ((head_subset h24).trans Set.subset_union_right))

theorem user_ne_zero (hb : Area b) : user b ≠ 0 := by
  intro h0
  have hval := congrArg BitVec.toNat h0
  have := hb.user
  have := b.nonempty
  rw [user, BitVec.toNat_ofNat, Nat.mod_eq_of_lt (by omega)] at hval
  exact absurd hval (by simp)

/-- What `mmap` answers if it is asked for memory for a block of `size` bytes. -/
def answer (kern : Kernel) (ps : Addr) (s : Sys) (size : BitVec 64) : Addr :=
  kern s.calls (block_size ps (size + MALLOC_HEADER_SIZE))

/-- There is no memory for a block of `size` bytes. -/
def Refused (kern : Kernel) (ps : Addr) (s : Sys) (ss : List (Span Nat)) (size : BitVec 64) :
    Prop :=
  (∀ t ∈ ss, len t < fitted (size.toNat + 8)) ∧ answer kern ps s size = 0 - 1

/-- `malloc` has to ask for memory, and `mmap` refuses with another error than the one that
`malloc` looks for. -/
def Missed (kern : Kernel) (ps : Addr) (s : Sys) (size : BitVec 64) : Prop :=
  (size ≠ 0 ∧ size ≤ size_limit ∧ __heap_alloc s.heap (size + MALLOC_HEADER_SIZE) =
      .ok (0, size + MALLOC_HEADER_SIZE, s.heap)) ∧
    is_error (answer kern ps s size) ∧ answer kern ps s size ≠ 0 - 1

theorem toNat_with_header (hsize : size.toNat ≤ 2 ^ 64 - 16) :
    (size + MALLOC_HEADER_SIZE).toNat = size.toNat + 8 := by
  have h8 : MALLOC_HEADER_SIZE.toNat = 8 := rfl
  rw [BitVec.toNat_add, h8]
  omega

theorem le_size_limit (hsize : size ≤ size_limit) : size.toNat ≤ 2 ^ 64 - 16 := by
  have hval : size_limit.toNat = 2 ^ 64 - 16 := by decide
  exact hval ▸ hsize

/-- With a free area that is big enough nothing is asked for. -/
theorem not_missed {t : Span Nat} (hf : Fine init other s ss live) (ht : t ∈ ss)
    (hbig : fitted (size.toNat + 8) ≤ len t) : ¬ Missed kern ps s size := by
  rintro ⟨⟨_, hlimit, hnone⟩, _⟩
  have hsum := toNat_with_header (le_size_limit hlimit)
  have hle := le_size_limit hlimit
  rcases hf.held.alloc (size + MALLOC_HEADER_SIZE) (by omega) with
    ⟨hsmall, _⟩ | ⟨b, h', ss', halloc, _, _, hgot⟩
  · rw [hsum] at hsmall
    exact absurd (hsmall t ht) (not_lt.mpr hbig)
  · have hzero := (Prod.mk.inj (Except.ok.inj (halloc.symm.trans hnone))).1
    have hb := hgot.held.area b List.mem_cons_self
    have hval := congrArg BitVec.toNat hzero
    rw [toNat_start hb] at hval
    exact absurd hval (Nat.ne_of_gt hb.nonnull)

theorem start_ne_zero (hb : Area b) : BitVec.ofNat 64 b.start ≠ 0 := by
  intro h0
  have hval := congrArg BitVec.toNat h0
  rw [toNat_start hb] at hval
  exact absurd hval (Nat.ne_of_gt hb.nonnull)

theorem malloc_from_heap_eq {mem : Addr} {n m : BitVec 64} {s1 : Sys}
    (hnone : __heap_alloc s.heap (size + MALLOC_HEADER_SIZE) = .ok (0, n, s.heap))
    (hext : extend_heap kern ps n s = .ok (mem, m, s1)) :
    malloc_from_heap kern ps size s =
      if mem ≠ 0 then MALLOC_SETUP mem m s1 else .ok (0, s1) := by
  rw [malloc_from_heap, hnone]
  show (extend_heap kern ps n s).bind _ = _
  rw [hext]
  rfl

theorem malloc_from_heap.spec (hk : kern.Honest ps init other) (hp : Pages ps)
    (hf : Fine init other s ss live) (hsize : size.toNat ≤ 2 ^ 64 - 16)
    (hseen : __heap_alloc s.heap (size + MALLOC_HEADER_SIZE) =
        .ok (0, size + MALLOC_HEADER_SIZE, s.heap) →
      is_error (answer kern ps s size) → answer kern ps s size = 0 - 1) :
    (Refused kern ps s ss size ∧ ∃ s', malloc_from_heap kern ps size s = .ok (0, s') ∧
      s'.heap = s.heap ∧ Fine init other s' ss live) ∨
    (¬ Refused kern ps s ss size ∧ ∃ b s' ss', malloc_from_heap kern ps size s = .ok (user b, s') ∧
      Got init other s live size.toNat b s' ss') := by
  have hsum := toNat_with_header hsize
  have hlong : ∀ n, fitted (size.toNat + 8) ≤ n → 24 ≤ n ∧ size.toNat + 8 ≤ n := fun n hn =>
    ⟨le_trans (Nat.le_max_left 24 _) hn, le_trans le_fitted hn⟩
  rcases hf.held.alloc (size + MALLOC_HEADER_SIZE) (by omega) with
    ⟨hsmall, hnone⟩ | ⟨b, h', ss', halloc, ⟨t, ht, hbig⟩, hfits, hgot⟩
  · rw [hsum] at hsmall
    rcases extend_heap.spec (size + MALLOC_HEADER_SIZE) hk hp hf.held hf.owned hf.apart
      (by omega) (hseen hnone) with
      ⟨s1, hext, hfail, hheap, hcalls⟩ | ⟨b, s1, ss', hext, hne, hfits, htaken⟩
    · refine .inl ⟨⟨hsmall, hfail⟩, s1, ?_, hheap, ?_⟩
      · exact malloc_from_heap_eq hnone hext
      · exact ⟨hheap ▸ hf.held, hf.room, hheap ▸ hf.sizes, hcalls.trans hf.owned, hf.apart⟩
    · rw [hsum] at hfits
      obtain ⟨h24, hn⟩ := hlong _ hfits
      obtain ⟨s2, hsetup, hresult⟩ := htaken.got hf.sizes hf.room h24 hn
      refine .inr ⟨fun hno => hne hno.2, b, s2, ss', ?_, hresult⟩
      have hzero := start_ne_zero (htaken.held.area b List.mem_cons_self)
      rw [malloc_from_heap_eq hnone hext, if_pos hzero, hsetup]
  · rw [hsum] at hfits hbig
    obtain ⟨h24, hn⟩ := hlong _ hfits
    have hall : cover ss' ∪ cover (b :: live) = cover ss ∪ cover live := by
      rw [hgot.total, cover_cons, Set.union_left_comm, Set.union_assoc]
    have htaken : Taken init other s live b { s with heap := h' } ss' := {
      held := hgot.held
      owned := hf.owned.trans hall.symm
      apart := hall ▸ hf.apart
      kept := by
        rw [Set.union_comm, ← hgot.total]
        exact hgot.kept }
    obtain ⟨s2, hsetup, hresult⟩ := htaken.got hf.sizes hf.room h24 hn
    refine .inr ⟨fun hno => absurd (hno.1 t ht) (not_lt.mpr hbig), b, s2, ss', ?_, hresult⟩
    · rw [malloc_from_heap, halloc]
      have hne := start_ne_zero (hgot.held.area b List.mem_cons_self)
      show (if BitVec.ofNat 64 b.start = 0 then _ else _) = _
      rw [if_neg hne]
      show (if BitVec.ofNat 64 b.start ≠ 0 then _ else _) = _
      rw [if_pos hne, hsetup]

/-- `malloc` gives no block of `size` bytes. -/
def NoBlock (kern : Kernel) (ps : Addr) (s : Sys) (ss : List (Span Nat)) (size : BitVec 64) :
    Prop := size = 0 ∨ size_limit < size ∨ Refused kern ps s ss size

theorem malloc.spec (size : BitVec 64) (hk : kern.Honest ps init other) (hp : Pages ps)
    (hf : Fine init other s ss live) (hseen : ¬ Missed kern ps s size) :
    (NoBlock kern ps s ss size ∧ ∃ s', malloc kern ps size s = .ok (0, s') ∧ s'.errno = ENOMEM ∧
      s'.heap = s.heap ∧ Fine init other s' ss live) ∨
    (¬ NoBlock kern ps s ss size ∧ ∃ b s' ss', malloc kern ps size s = .ok (user b, s') ∧
      Got init other s live size.toNat b s' ss') := by
  have hsame : Fine init other (set_errno ENOMEM s) ss live :=
    ⟨hf.held, hf.room, hf.sizes, hf.owned, hf.apart⟩
  by_cases h0 : size = 0
  · exact .inl ⟨.inl h0, _, if_pos h0, rfl, rfl, hsame⟩
  by_cases hbig : size_limit < size
  · exact .inl ⟨.inr (.inl hbig), _, (if_neg h0).trans (if_pos hbig), rfl, rfl, hsame⟩
  have hlimit := le_size_limit (BitVec.not_lt.mp hbig)
  have hgo : ∀ mem s1, malloc_from_heap kern ps size s = .ok (mem, s1) →
      malloc kern ps size s = if mem = 0 then .ok (0, set_errno ENOMEM s1) else .ok (mem, s1) := by
    intro mem s1 hfrom
    rw [malloc, if_neg h0, if_neg hbig, hfrom]
    rfl
  have hone : __heap_alloc s.heap (size + MALLOC_HEADER_SIZE) =
        .ok (0, size + MALLOC_HEADER_SIZE, s.heap) →
      is_error (answer kern ps s size) → answer kern ps s size = 0 - 1 := fun hnone herr =>
    Classical.byContradiction fun hne =>
      hseen ⟨⟨h0, BitVec.not_lt.mp hbig, hnone⟩, herr, hne⟩
  rcases malloc_from_heap.spec hk hp hf hlimit hone with
    ⟨hno, s1, hfrom, hheap, hfine⟩ | ⟨hyes, b, s1, ss', hfrom, hgot⟩
  · refine .inl ⟨.inr (.inr hno), set_errno ENOMEM s1, ?_, rfl, hheap, ?_⟩
    · exact hgo _ _ hfrom
    · exact ⟨hfine.held, hfine.room, hfine.sizes, hfine.owned, hfine.apart⟩
  · refine .inr ⟨fun hno => ?_, b, s1, ss', ?_, hgot⟩
    · rcases hno with h | h | h
      · exact h0 h
      · exact hbig h
      · exact hyes h
    · rw [hgo _ _ hfrom]
      exact if_neg (user_ne_zero (hgot.fine.held.area b List.mem_cons_self))

end

end elf_loader.malloc
