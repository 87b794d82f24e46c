-- `calloc`, `realloc` and `memalign`. A block that moves keeps its bytes, and
-- one that is cut gives the rest back to the heap.
import BinaryLab.Freeing

set_option linter.style.nameCheck false
set_option linter.dupNamespace false

open binary_lab.runs binary_lab.words binary_lab.pages binary_lab.spans

namespace elf_loader.malloc

/-! ## `memset` and `memcpy` -/

section

variable {p s1 s2 x : Addr} {c : Byte} {n : Nat} {m : Bytes}

/-- One more byte in front. -/
theorem sub_lt_succ (hn : n + 1 < 2 ^ 64) :
    (x - p).toNat < n + 1 ↔ x = p ∨ (x - (p + 1)).toNat < n := by
  bv_omega

theorem memset_apply (hn : n < 2 ^ 64) :
    memset p c n m x = if (x - p).toNat < n then c else m x := by
  induction n generalizing p m with
  | zero => rfl
  | succ n ih =>
    have hstep := sub_lt_succ (x := x) (p := p) hn
    rw [memset, ih (by omega)]
    by_cases hrest : (x - (p + 1)).toNat < n
    · rw [if_pos hrest, if_pos (hstep.mpr (.inr hrest))]
    · rw [if_neg hrest, Function.update_apply]
      exact if_congr (hstep.trans (or_iff_left hrest)).symm rfl rfl

theorem memcpy_apply (hn : n < 2 ^ 64)
    (hapart : ∀ y : Addr, (y - s1).toNat < n → ¬ (y - s2).toNat < n) :
    memcpy s1 s2 n m x = if (x - s1).toNat < n then m (s2 + (x - s1)) else m x := by
  induction n generalizing s1 s2 m with
  | zero => rfl
  | succ n ih =>
    have hstep := sub_lt_succ (x := x) (p := s1) hn
    have hrests : ∀ y : Addr, (y - (s1 + 1)).toNat < n → ¬ (y - (s2 + 1)).toNat < n :=
      fun y h1 h2 => hapart y ((sub_lt_succ hn).mpr (.inr h1)) ((sub_lt_succ hn).mpr (.inr h2))
    rw [memcpy, ih (by omega) hrests]
    by_cases hrest : (x - (s1 + 1)).toNat < n
    · rw [if_pos hrest, if_pos (hstep.mpr (.inr hrest))]
      have hsame : s2 + 1 + (x - (s1 + 1)) = s2 + (x - s1) := by bv_omega
      -- the byte that is read was not stored to
      have hne : s2 + (x - s1) ≠ s1 := by
        intro heq
        apply hapart s1
        · rw [BitVec.sub_self]
          exact Nat.succ_pos n
        · rw [← heq, BitVec.add_comm, BitVec.add_sub_cancel]
          exact hstep.mpr (.inr hrest)
      rw [hsame, Function.update_of_ne hne]
    · rw [if_neg hrest]
      by_cases hx : x = s1
      · rw [if_pos (hstep.mpr (.inl hx)), hx, Function.update_self, BitVec.sub_self,
          BitVec.add_zero]
      · rw [Function.update_of_ne hx, if_neg fun hin => (hstep.mp hin).elim hx hrest]

theorem sub_lt_iff (hp : p.toNat + n ≤ 2 ^ 64) :
    (x - p).toNat < n ↔ x.toNat ∈ Set.Ico p.toNat (p.toNat + n) := by
  have hx := x.isLt
  have hp' := p.isLt
  rw [BitVec.toNat_sub]
  constructor
  · intro hlt
    constructor <;> omega
  · rintro ⟨h1, h2⟩
    omega

theorem sameBut_memset (hp : p.toNat + n ≤ 2 ^ 64) (hn : n < 2 ^ 64) :
    SameBut (Set.Ico p.toNat (p.toNat + n)) m (memset p c n m) := by
  intro x hx
  rw [memset_apply hn, if_neg (mt (sub_lt_iff hp).mp hx)]

theorem sameBut_memcpy (hp : s1.toNat + n ≤ 2 ^ 64) (hn : n < 2 ^ 64)
    (hapart : ∀ y : Addr, (y - s1).toNat < n → ¬ (y - s2).toNat < n) :
    SameBut (Set.Ico s1.toNat (s1.toNat + n)) m (memcpy s1 s2 n m) := by
  intro x hx
  rw [memcpy_apply hn hapart, if_neg (mt (sub_lt_iff hp).mp hx)]

end

/-! ## The bytes of a block -/

/-- The addresses that the user may store to. -/
def bytesOf (b : Span Nat) : Set Nat := Set.Ico (b.start + 8) b.stop

section

variable {init other A : Set Nat} {s s' : Sys} {ss ss' live : List (Span Nat)} {b c : Span Nat}
  {kern : Kernel} {ps : Addr} {size : BitVec 64} {f : Bytes → Bytes}

theorem toNat_user (hb : Area b) : (user b).toNat = b.start + 8 := by
  have := hb.user
  have := b.nonempty
  rw [user, BitVec.toNat_ofNat, Nat.mod_eq_of_lt (by omega)]

theorem bytesOf_subset (b : Span Nat) : bytesOf b ⊆ b.cover := fun _ hx =>
  ⟨le_trans (Nat.le_add_right _ 8) hx.1, hx.2⟩

/-- The user may store to the bytes of a block. -/
theorem Fine.map_mem (hf : Fine init other s ss (b :: live))
    (hsame : SameBut (bytesOf b) s.heap.mem (f s.heap.mem)) :
    Fine init other (s.map_mem f) ss (b :: live) := by
  obtain ⟨hrest, hb, hdis⟩ := held_cons.mp hf.held
  obtain ⟨hfree, hlive⟩ := Set.disjoint_union_right.mp hdis
  have hroom : ∀ d ∈ live, 24 ≤ len d := fun d hd => hf.room d (List.mem_cons_of_mem _ hd)
  have hsizes : Sizes s.heap.mem live := fun d hd => hf.sizes d (List.mem_cons_of_mem _ hd)
  refine ⟨hf.held.keep rfl hsame (Set.disjoint_of_subset_left (bytesOf_subset b) hfree), hf.room,
    ?_, hf.owned, hf.apart⟩
  intro d hd
  rcases List.mem_cons.mp hd with rfl | hd
  · rw [← hf.sizes d List.mem_cons_self]
    refine read64_sameBut hsame (size_bound hb) ?_
    rw [toNat_start hb, Set.disjoint_left]
    exact fun x hx hin => absurd hx.1 (not_le.mpr hin.2)
  · exact hsizes.keep hsame (Set.disjoint_of_subset_left (bytesOf_subset b) hlive) hrest.area hroom
      d hd

theorem bytes_within (hb : Area b) {n : Nat} (hn : n + 8 ≤ len b) :
    (user b).toNat + n ≤ 2 ^ 64 ∧ n < 2 ^ 64 ∧
      Set.Ico (user b).toNat ((user b).toNat + n) ⊆ bytesOf b := by
  have huser := hb.user
  have hend := start_add_len b
  rw [toNat_user hb]
  refine ⟨by omega, by omega, ?_⟩
  rintro x ⟨h1, h2⟩
  exact ⟨h1, by omega⟩

/-! ## `calloc` -/

/-- The check of `calloc` finds each product that does not fit. -/
theorem overflow_iff (nmemb lsize : BitVec 64) :
    (nmemb ≠ 0 ∧ lsize ≠ lsize * nmemb / nmemb) ↔ 2 ^ 64 ≤ lsize.toNat * nmemb.toNat := by
  have hl := lsize.isLt
  by_cases h0 : nmemb = 0
  · subst h0
    refine iff_of_false (fun h => h.1 rfl) ?_
    have hzero : (0 : BitVec 64).toNat = 0 := rfl
    rw [hzero, Nat.mul_zero]
    omega
  have hpos : 0 < nmemb.toNat := Nat.pos_of_ne_zero fun h => h0 (BitVec.eq_of_toNat_eq h)
  have hdiv : lsize = lsize * nmemb / nmemb ↔
      lsize.toNat = lsize.toNat * nmemb.toNat % 2 ^ 64 / nmemb.toNat := by
    rw [← BitVec.toNat_inj, BitVec.toNat_udiv, BitVec.toNat_mul]
  rw [and_iff_right h0, ← not_lt, ne_eq, not_iff_not, hdiv]
  constructor
  · intro heq
    by_contra hge
    have hlt : lsize.toNat * nmemb.toNat % 2 ^ 64 < lsize.toNat * nmemb.toNat :=
      lt_of_lt_of_le (Nat.mod_lt _ (by decide)) (not_lt.mp hge)
    exact absurd heq (ne_of_gt ((Nat.div_lt_iff_lt_mul hpos).mpr hlt))
  · intro hlt
    rw [Nat.mod_eq_of_lt hlt, Nat.mul_div_cancel _ hpos]

/-- `calloc` gives a block of zeros, or none. -/
theorem calloc.spec (hk : kern.Honest ps init other) (hp : Pages ps)
    (hf : Fine init other s ss live) (nmemb lsize : BitVec 64)
    (hseen : lsize.toNat * nmemb.toNat < 2 ^ 64 → ¬ Missed kern ps s (lsize * nmemb)) :
    ((2 ^ 64 ≤ lsize.toNat * nmemb.toNat ∨ NoBlock kern ps s ss (lsize * nmemb)) ∧
      ∃ s', calloc kern ps nmemb lsize s = .ok (0, s') ∧ s'.errno = ENOMEM ∧ s'.heap = s.heap ∧
        Fine init other s' ss live) ∨
    (lsize.toNat * nmemb.toNat < 2 ^ 64 ∧ ¬ NoBlock kern ps s ss (lsize * nmemb) ∧
      ∃ b s' ss', calloc kern ps nmemb lsize s = .ok (user b, s') ∧
        Got init other s live (lsize.toNat * nmemb.toNat) b s' ss' ∧
        ∀ i < lsize.toNat * nmemb.toNat, s'.heap.mem (user b + BitVec.ofNat 64 i) = 0) := by
  have hover := overflow_iff nmemb lsize
  by_cases hbig : 2 ^ 64 ≤ lsize.toNat * nmemb.toNat
  · refine .inl ⟨.inl hbig, set_errno ENOMEM s, if_pos (hover.mpr hbig), rfl, rfl, ?_⟩
    exact ⟨hf.held, hf.room, hf.sizes, hf.owned, hf.apart⟩
  have hsize : (lsize * nmemb).toNat = lsize.toNat * nmemb.toNat := by
    rw [BitVec.toNat_mul, Nat.mod_eq_of_lt (not_le.mp hbig)]
  have hgo : ∀ result s1, malloc kern ps (lsize * nmemb) s = .ok (result, s1) →
      calloc kern ps nmemb lsize s =
        if result ≠ 0 then .ok (result, s1.map_mem (memset result 0 (lsize * nmemb).toNat))
        else .ok (result, s1) := by
    intro result s1 hmalloc
    refine (if_neg (mt hover.mp hbig)).trans ?_
    rw [hmalloc]
    rfl
  rcases malloc.spec (lsize * nmemb) hk hp hf (hseen (not_le.mp hbig)) with
    ⟨hno, s1, hmalloc, herrno, hheap, hfine⟩ | ⟨hyes, b, s1, ss', hmalloc, hgot⟩
  · exact .inl ⟨.inr hno, s1, hgo _ _ hmalloc, herrno, hheap, hfine⟩
  · have hb := hgot.fine.held.area b List.mem_cons_self
    obtain ⟨hbound, hn, hsub⟩ := bytes_within hb hgot.long
    have hsame : SameBut (bytesOf b) s1.heap.mem
        (memset (user b) 0 (lsize * nmemb).toNat s1.heap.mem) :=
      (sameBut_memset hbound hn).mono hsub
    refine .inr ⟨not_le.mp hbig, hyes, b, _, ss', ?_, ⟨hgot.fine.map_mem hsame, ?_, ?_⟩, ?_⟩
    · rw [hgo _ _ hmalloc]
      exact if_pos (user_ne_zero hb)
    · rw [← hsize]
      exact hgot.long
    · exact hgot.kept.trans (hsame.mono ((bytesOf_subset b).trans Set.subset_union_right))
    · intro i hi
      show memset (user b) 0 (lsize * nmemb).toNat s1.heap.mem _ = 0
      rw [memset_apply hn, if_pos]
      rw [BitVec.add_comm, BitVec.add_sub_cancel, BitVec.toNat_ofNat, hsize]
      exact lt_of_le_of_lt (Nat.mod_le _ _) hi

end

/-! ## `realloc` -/

/-- The other blocks and what is not the allocator's stay the same. -/
def Spares (live : List (Span Nat)) (other : Set Nat) (m m' : Bytes) : Prop :=
  ∀ x : Addr, x.toNat ∈ cover live ∪ other → m' x = m x

/-- The block `b` has become the block `c` of `n` bytes. -/
structure Resized (init other : Set Nat) (s : Sys) (live : List (Span Nat)) (b : Span Nat)
    (n : Nat) (c : Span Nat) (s' : Sys) (ss' : List (Span Nat)) : Prop where
  fine : Fine init other s' ss' (c :: live)
  long : n + 8 ≤ len c
  bytes : ∀ i, i + 8 < len b → i + 8 < len c →
    s'.heap.mem (user c + BitVec.ofNat 64 i) = s.heap.mem (user b + BitVec.ofNat 64 i)
  spares : Spares live other s.heap.mem s'.heap.mem

section

variable {init other A : Set Nat} {s s' : Sys} {ss ss' live : List (Span Nat)} {b c d : Span Nat}
  {kern : Kernel} {ps : Addr} {size need : BitVec 64} {m m' m'' : Bytes} {n : Nat}

theorem SameBut.spares (hsame : SameBut A m m') (hlive : Disjoint A (cover live))
    (hother : Disjoint A other) : Spares live other m m' := fun x hx =>
  hsame x fun hin => hx.elim (Set.disjoint_left.mp hlive hin) (Set.disjoint_left.mp hother hin)

theorem Spares.trans (h : Spares live other m m') (h' : Spares live other m' m'') :
    Spares live other m m'' := fun x hx => (h' x hx).trans (h x hx)

/-- What is free, and the block, are apart from the rest. -/
theorem Fine.side (hf : Fine init other s ss (b :: live)) :
    Disjoint (cover ss ∪ b.cover) (cover live) ∧ Disjoint (cover ss ∪ b.cover) other := by
  obtain ⟨hrest, _, hdis⟩ := held_cons.mp hf.held
  have hapart := hf.apart
  rw [cover_cons, ← Set.union_assoc] at hapart
  exact ⟨Set.disjoint_union_left.mpr ⟨hrest.free, (Set.disjoint_union_right.mp hdis).2⟩,
    (Set.disjoint_union_left.mp hapart).1⟩

theorem Got.spares (hg : Got init other s live n b s' ss') :
    Spares live other s.heap.mem s'.heap.mem :=
  hg.kept.spares hg.fine.side.1 hg.fine.side.2

/-- The address of a byte of the user. -/
theorem toNat_byte (hb : Area b) {i : Nat} (hi : i + 8 < len b) :
    (user b + BitVec.ofNat 64 i).toNat = b.start + 8 + i ∧ b.start + 8 + i < b.stop := by
  have huser := hb.user
  have hend := start_add_len b
  rw [BitVec.toNat_add, toNat_user hb, BitVec.toNat_ofNat]
  constructor <;> omega

theorem byte_mem (hb : Area b) {i : Nat} (hi : i + 8 < len b) :
    (user b + BitVec.ofNat 64 i).toNat ∈ bytesOf b := by
  obtain ⟨hval, hlt⟩ := toNat_byte hb hi
  rw [hval]
  exact ⟨Nat.le_add_right _ _, hlt⟩

/-- Stores to the size and to what is not the block leave the bytes. -/
theorem byte_kept (hsame : SameBut A m m') (hA : Disjoint A (bytesOf b)) (hb : Area b) {i : Nat}
    (hi : i + 8 < len b) :
    m' (user b + BitVec.ofNat 64 i) = m (user b + BitVec.ofNat 64 i) :=
  hsame _ fun hin => Set.disjoint_left.mp hA hin (byte_mem hb hi)

theorem head_apart (b : Span Nat) : Disjoint (Set.Ico b.start (b.start + 8)) (bytesOf b) :=
  Set.disjoint_left.mpr fun _ hx hin => absurd hx.2 (not_lt.mpr hin.1)

/-- The block with its new size at the old place. -/
theorem resized_in_place (hf : Fine init other s ss (b :: live)) {h' : Heap}
    (hheld : Held h' ss' (c :: live)) (hstart : c.start = b.start) (hroom : 24 ≤ len c)
    (hlong : n + 8 ≤ len c) (htotal : cover ss' ∪ c.cover = cover ss ∪ b.cover)
    (hkept : SameBut A s.heap.mem h'.mem) (hA : A ⊆ cover ss ∪ b.cover)
    (hbytes : ∀ i, i + 8 < len b → i + 8 < len c →
      (user b + BitVec.ofNat 64 i).toNat ∉ A) :
    user c = user b ∧ Resized init other s live b n c
      (MALLOC_SET_SIZE (BitVec.ofNat 64 b.start) (BitVec.ofNat 64 (len c))
        { s with heap := h' }) ss' := by
  obtain ⟨hlive, hother⟩ := hf.side
  have hb := hf.held.area b List.mem_cons_self
  have hc := hheld.area c List.mem_cons_self
  have hrooms : ∀ e ∈ live, 24 ≤ len e := fun e he => hf.room e (List.mem_cons_of_mem _ he)
  have hsizes : Sizes s.heap.mem live := fun e he => hf.sizes e (List.mem_cons_of_mem _ he)
  have hall : cover ss' ∪ cover (c :: live) = cover ss ∪ cover (b :: live) := by
    rw [cover_cons, cover_cons, ← Set.union_assoc, ← Set.union_assoc, htotal]
  have hkeptlive : Sizes h'.mem live :=
    hsizes.keep hkept (Set.disjoint_of_subset_left hA hlive) hheld.drop.area hrooms
  obtain ⟨hfine, hhead⟩ := setup (s := { s with heap := h' }) hheld
    (List.forall_mem_cons.mpr ⟨hroom, hrooms⟩) hkeptlive (hf.owned.trans hall.symm)
    (hall ▸ hf.apart)
  have huser : user c = user b := by rw [user, user, hstart]
  rw [hstart] at hfine hhead
  have hheadA : Set.Ico b.start (b.start + 8) ⊆ cover ss ∪ b.cover :=
    (head_subset (hf.room b List.mem_cons_self)).trans Set.subset_union_right
  refine ⟨huser, hfine, hlong, ?_, ?_⟩
  · intro i hi hi'
    rw [huser, byte_kept hhead (head_apart b) hb hi]
    exact hkept _ (hbytes i hi hi')
  · exact (hkept.spares (Set.disjoint_of_subset_left hA hlive)
      (Set.disjoint_of_subset_left hA hother)).trans
      (hhead.spares (Set.disjoint_of_subset_left hheadA hlive)
        (Set.disjoint_of_subset_left hheadA hother))

theorem Spares.of_cons (h : Spares (c :: live) other m m') : Spares live other m m' := by
  intro x hx
  rw [Spares, cover_cons, Set.union_assoc] at h
  exact h x (Set.mem_union_right _ hx)

/-- The bytes of the block `b` are copied to the new block `c`, and then it is freed. -/
theorem move.spec (hp : Pages ps) {k : Nat} (hgot : Got init other s (b :: live) k c s' ss')
    (hlen : len b ≤ k + 8) (hlong : n + 8 ≤ len c) :
    ∃ s'' ss'', free ps (user b) (s'.map_mem (memcpy (user c) (user b) (len b - 8))) = .ok s'' ∧
      Resized init other s live b n c s'' ss'' := by
  have hfine := hgot.fine
  have hc := hfine.held.area c List.mem_cons_self
  have hb := hfine.held.area b (List.mem_cons_of_mem _ List.mem_cons_self)
  have hroomb := hfine.room b (List.mem_cons_of_mem _ List.mem_cons_self)
  have hk : len b - 8 + 8 ≤ len c := by
    have := hgot.long
    omega
  obtain ⟨hcbound, hn, hcsub⟩ := bytes_within hc hk
  obtain ⟨hbbound, _, hbsub⟩ := bytes_within hb (n := len b - 8) (by omega)
  obtain ⟨hsidec, _⟩ := hfine.side
  have hbc : Disjoint c.cover b.cover :=
    disjoint_cover_right.mp (Set.disjoint_union_left.mp hsidec).2 b List.mem_cons_self
  have hapart : ∀ y : Addr, (y - user c).toNat < len b - 8 → ¬ (y - user b).toNat < len b - 8 :=
    fun y h1 h2 => Set.disjoint_left.mp hbc
      (bytesOf_subset c (hcsub ((sub_lt_iff hcbound).mp h1)))
      (bytesOf_subset b (hbsub ((sub_lt_iff hbbound).mp h2)))
  have hcopy : SameBut (bytesOf c) s'.heap.mem
      (memcpy (user c) (user b) (len b - 8) s'.heap.mem) :=
    (sameBut_memcpy hcbound hn hapart).mono hcsub
  have hfine2 := (hfine.map_mem hcopy).perm (List.Perm.swap _ _ _)
  obtain ⟨hside, hsideother⟩ := hfine2.side
  obtain ⟨s'', ss'', hfree, hret⟩ := free.returned hp hfine2
  refine ⟨s'', ss'', hfree, hret.fine, hlong, ?_, ?_⟩
  · intro i hi hi'
    have hcside : Disjoint (cover ss' ∪ b.cover) (bytesOf c) :=
      Set.disjoint_of_subset_right (bytesOf_subset c)
        (disjoint_cover_right.mp hside c List.mem_cons_self)
    have hbside : Disjoint (cover ss' ∪ c.cover) (bytesOf b) :=
      Set.disjoint_of_subset_right (bytesOf_subset b)
        (disjoint_cover_right.mp hsidec b List.mem_cons_self)
    have hi8 : i < len b - 8 := by omega
    have hsub : user c + BitVec.ofNat 64 i - user c = BitVec.ofNat 64 i := by
      rw [BitVec.add_comm, BitVec.add_sub_cancel]
    have hin : (user c + BitVec.ofNat 64 i - user c).toNat < len b - 8 := by
      rw [hsub, BitVec.toNat_ofNat]
      exact lt_of_le_of_lt (Nat.mod_le _ _) hi8
    calc s''.heap.mem (user c + BitVec.ofNat 64 i)
      _ = memcpy (user c) (user b) (len b - 8) s'.heap.mem (user c + BitVec.ofNat 64 i) :=
        byte_kept hret.kept hcside hc hi'
      _ = s'.heap.mem (user b + BitVec.ofNat 64 i) := by
        rw [memcpy_apply hn hapart, if_pos hin, hsub]
      _ = s.heap.mem (user b + BitVec.ofNat 64 i) := byte_kept hgot.kept hbside hb hi
  · have hcsides := Set.disjoint_of_subset_left
      ((bytesOf_subset c).trans (Set.subset_union_right (s := cover ss'))) hfine.side.1
    have hcother := Set.disjoint_of_subset_left
      ((bytesOf_subset c).trans (Set.subset_union_right (s := cover ss'))) hfine.side.2
    exact (hgot.spares.of_cons.trans (hcopy.spares hcsides hcother).of_cons).trans
      (hret.kept.spares hside hsideother).of_cons

/-- `realloc` finds no room for `size` bytes at the place of the block. -/
def Moves (s : Sys) (mem : Addr) (size : BitVec 64) : Prop :=
  let new_size := fit_size (size + MALLOC_HEADER_SIZE)
  size ≤ size_limit ∧ MALLOC_SIZE s mem < new_size ∧
    __heap_alloc_at s.heap (MALLOC_BASE mem + MALLOC_SIZE s mem) (new_size - MALLOC_SIZE s mem) =
      .ok (0, s.heap)

/-- The bytes that `realloc` asks `malloc` for then. -/
def moved_size (size : BitVec 64) : BitVec 64 :=
  fit_size (size + MALLOC_HEADER_SIZE) - MALLOC_HEADER_SIZE

/-- The block grows into the free area behind it. -/
theorem grow_in_place {mem : Addr} {size new_size extra : BitVec 64} {h : Heap}
    (halloc : __heap_alloc_at s.heap (MALLOC_BASE mem + size) (new_size - size) = .ok (extra, h))
    (hextra : extra ≠ 0) :
    grow kern ps mem size new_size s =
      .ok (mem, MALLOC_SET_SIZE (MALLOC_BASE mem) (size + extra) { s with heap := h }) := by
  rw [grow, halloc]
  exact if_pos hextra

/-- There is no room behind the block. -/
theorem grow_elsewhere {mem new_mem : Addr} {size new_size : BitVec 64} {s1 : Sys}
    (halloc : __heap_alloc_at s.heap (MALLOC_BASE mem + size) (new_size - size) = .ok (0, s.heap))
    (hmalloc : malloc kern ps (new_size - MALLOC_HEADER_SIZE) s = .ok (new_mem, s1)) :
    grow kern ps mem size new_size s =
      if new_mem ≠ 0 then
        (free ps mem (s1.map_mem (memcpy new_mem mem (size - MALLOC_HEADER_SIZE).toNat))).map
          fun s2 => (new_mem, s2)
      else .ok (new_mem, s1) := by
  rw [grow, halloc]
  show (malloc kern ps (new_size - MALLOC_HEADER_SIZE) s).bind _ = _
  rw [hmalloc]
  rfl

theorem grow.spec (hk : kern.Honest ps init other) (hp : Pages ps)
    (hf : Fine init other s ss (b :: live)) (hneed : need.toNat = fitted (n + 8))
    (hsmall : need.toNat ≤ 2 ^ 64 - 8) (hlt : len b < need.toNat)
    (hseen : __heap_alloc_at s.heap (MALLOC_BASE (user b) + BitVec.ofNat 64 (len b))
        (need - BitVec.ofNat 64 (len b)) = .ok (0, s.heap) →
      ¬ Missed kern ps s (need - MALLOC_HEADER_SIZE)) :
    (∃ s', grow kern ps (user b) (BitVec.ofNat 64 (len b)) need s = .ok (0, s') ∧
      s'.heap = s.heap ∧ Fine init other s' ss (b :: live)) ∨
    ∃ c s' ss', grow kern ps (user b) (BitVec.ofNat 64 (len b)) need s = .ok (user c, s') ∧
      Resized init other s live b n c s' ss' := by
  have hb := hf.held.area b List.mem_cons_self
  have hroomb := hf.room b List.mem_cons_self
  have hlenb := toNat_len hb
  have hlong : n + 8 ≤ need.toNat := hneed ▸ le_fitted
  have hextra : (need - BitVec.ofNat 64 (len b)).toNat = need.toNat - len b := by
    rw [BitVec.toNat_sub_of_le (by rw [BitVec.le_def, hlenb]; exact le_of_lt hlt), hlenb]
  have hplace : MALLOC_BASE (user b) + BitVec.ofNat 64 (len b) = BitVec.ofNat 64 b.stop := by
    rw [malloc_base, start_add]
  rcases hf.held.alloc_at (need - BitVec.ofNat 64 (len b)) (by omega) (by omega) with
    hnone | ⟨d, h', ss', halloc, hstart, hled, hgot⟩
  · have hask : (need - MALLOC_HEADER_SIZE).toNat = need.toNat - 8 := by
      have h8 : MALLOC_HEADER_SIZE.toNat = 8 := rfl
      rw [BitVec.toNat_sub_of_le (by rw [BitVec.le_def, h8]; omega), h8]
    have hcount : (BitVec.ofNat 64 (len b) - MALLOC_HEADER_SIZE).toNat = len b - 8 := by
      have h8 : MALLOC_HEADER_SIZE.toNat = 8 := rfl
      rw [BitVec.toNat_sub_of_le (by rw [BitVec.le_def, h8, hlenb]; omega), h8, hlenb]
    rw [← hplace] at hnone
    rcases malloc.spec (need - MALLOC_HEADER_SIZE) hk hp hf (hseen hnone) with
      ⟨_, s1, hmalloc, _, hheap, hfine⟩ | ⟨_, c, s1, ss1, hmalloc, hgot⟩
    · exact .inl ⟨s1, grow_elsewhere hnone hmalloc, hheap, hfine⟩
    · have hlen := hgot.long
      obtain ⟨s2, ss2, hfree, hresized⟩ := move.spec (n := n) hp hgot (by omega) (by omega)
      refine .inr ⟨c, s2, ss2, ?_, hresized⟩
      rw [grow_elsewhere hnone hmalloc, hcount,
        if_pos (user_ne_zero (hgot.fine.held.area c List.mem_cons_self)), hfree]
      rfl
  · right
    have hd := hgot.held.area d List.mem_cons_self
    have hne : BitVec.ofNat 64 (len d) ≠ 0 := by
      intro h0
      have hval := congrArg BitVec.toNat h0
      rw [toNat_len hd, show (0 : BitVec 64).toNat = 0 from rfl] at hval
      omega
    have hcover := cover_join hstart.symm
    have hareac : Area (b.join d (lt_trans b.nonempty (hstart ▸ d.nonempty))) :=
      ⟨hb.start, hd.stop, hb.nonnull, hd.user⟩
    have hheld := (hgot.held.perm (List.Perm.swap _ _ _)).join hareac hcover
    have hlenc : len (b.join d (lt_trans b.nonempty (hstart ▸ d.nonempty))) = len b + len d := by
      have h1 := start_add_len b
      have h2 := start_add_len d
      simp only [len, Span.join] at h1 h2 ⊢
      omega
    obtain ⟨huser, hresized⟩ := resized_in_place (n := n) hf hheld rfl (by omega) (by omega) (by
      rw [hcover, hgot.total, Set.union_left_comm, Set.union_comm b.cover,
        Set.union_comm d.cover])
      hgot.kept Set.subset_union_left (by
        intro i hi _ hin
        have hfree := hf.held.block_free
        exact Set.disjoint_left.mp hfree (bytesOf_subset b (byte_mem hb hi)) hin)
    refine ⟨_, _, ss', ?_, hresized⟩
    rw [← hplace] at halloc
    rw [grow_in_place halloc hne, malloc_base, huser, len_add hstart.symm]

theorem shrink.spec (hf : Fine init other s ss (b :: live)) (hneed : need.toNat = fitted (n + 8))
    (hle : need.toNat + 40 ≤ len b) :
    ∃ c s' ss', shrink (user b) (BitVec.ofNat 64 (len b)) need s = .ok (user c, s') ∧
      Resized init other s live b n c s' ss' := by
  have hb := hf.held.area b List.mem_cons_self
  have hstart := hb.start
  have hlong : n + 8 ≤ need.toNat := hneed ▸ le_fitted
  have h24 : 24 ≤ need.toNat := hneed ▸ Nat.le_max_left 24 _
  have h8 : need.toNat % 8 = 0 := hneed ▸ fitted_mod
  have hend := start_add_len b
  have hcut : b.start + need.toNat < b.stop := by omega
  have hfront : b.start < b.start + need.toNat := by omega
  have hroom : 24 ≤ len (Span.mk (b.start + need.toNat) b.stop hcut) := by
    simp only [len]
    omega
  obtain ⟨fa, h', hfree, hkept⟩ := hf.held.give_end
    (w := ⟨b.start, b.start + need.toNat, hfront⟩) (a := ⟨b.start + need.toNat, b.stop, hcut⟩)
    rfl rfl rfl (by simp only; omega) hroom
  have hlenc : len (Span.mk b.start (b.start + need.toNat) hfront) = need.toNat :=
    Nat.add_sub_cancel_left _ _
  have hc := hkept.held.area _ List.mem_cons_self
  obtain ⟨huser, hresized⟩ := resized_in_place (n := n) hf hkept.held rfl (by omega) (by omega)
    hkept.total hkept.kept (hkept.total ▸ Set.subset_union_left) (by
      intro i _ hi hin
      have hdis := hkept.held.block_free
      exact Set.disjoint_left.mp hdis (bytesOf_subset _ (byte_mem hc hi)) hin)
  refine ⟨_, _, _, ?_, hresized⟩
  have hplace : MALLOC_BASE (user b) + need = BitVec.ofNat 64 (b.start + need.toNat) := by
    rw [malloc_base, BitVec.ofNat_add, BitVec.ofNat_toNat, BitVec.setWidth_eq]
  have hsize : BitVec.ofNat 64 (len b) - need =
      BitVec.ofNat 64 (b.stop - (b.start + need.toNat)) := by
    have hsub : b.stop - (b.start + need.toNat) = len b - need.toNat := by omega
    rw [hsub, ← ofNat_sub_ofNat (by omega), BitVec.ofNat_toNat, BitVec.setWidth_eq]
  rw [shrink, hplace, hsize, hfree, huser, hlenc, malloc_base, BitVec.ofNat_toNat,
    BitVec.setWidth_eq]
  rfl

/-- `realloc` with 0 bytes is `free`. -/
theorem realloc.zero (kern : Kernel) (hp : Pages ps) (hf : Fine init other s ss (b :: live)) :
    ∃ s' ss', realloc kern ps (user b) 0 s = .ok (0, s') ∧ s'.errno = ENOMEM ∧
      Fine init other s' ss' live ∧ Spares live other s.heap.mem s'.heap.mem := by
  obtain ⟨s1, ss1, hfree, hret⟩ := free.returned hp hf
  obtain ⟨hlive, hother⟩ := hf.side
  have hspares := hret.kept.spares hlive hother
  refine ⟨set_errno ENOMEM s1, ss1, ?_, rfl, ?_, hspares⟩
  · rw [realloc, if_pos rfl, hfree]
    rfl
  · exact ⟨hret.fine.held, hret.fine.room, hret.fine.sizes, hret.fine.owned, hret.fine.apart⟩

/-- `realloc` gives the block with its bytes, at its place or at another one, or it gives
none and leaves the block. -/
theorem realloc.spec (hk : kern.Honest ps init other) (hp : Pages ps)
    (hf : Fine init other s ss (b :: live)) (hn : size ≠ 0)
    (hseen : Moves s (user b) size → ¬ Missed kern ps s (moved_size size)) :
    (∃ s', realloc kern ps (user b) size s = .ok (0, s') ∧ s'.heap = s.heap ∧
      Fine init other s' ss (b :: live)) ∨
    ∃ c s' ss', realloc kern ps (user b) size s = .ok (user c, s') ∧
      Resized init other s live b size.toNat c s' ss' := by
  have hb := hf.held.area b List.mem_cons_self
  have hroomb := hf.room b List.mem_cons_self
  by_cases hbig : size_limit < size
  · refine .inl ⟨s, ?_, rfl, hf⟩
    rw [realloc, if_neg hn, if_neg (user_ne_zero hb), if_pos hbig]
  have hlimit := le_size_limit (BitVec.not_lt.mp hbig)
  have hsum := toNat_with_header hlimit
  have hneed : (fit_size (size + MALLOC_HEADER_SIZE)).toNat = fitted (size.toNat + 8) := by
    rw [toNat_fit_size (by omega), hsum]
  have hceil : ceilNat 8 (size.toNat + 8) ≤ 2 ^ 64 - 8 :=
    ceilNat_le (by decide) (by decide) (by omega)
  have hsmall : (fit_size (size + MALLOC_HEADER_SIZE)).toNat ≤ 2 ^ 64 - 8 := by
    rw [hneed]
    exact Nat.max_le.mpr ⟨by decide, hceil⟩
  have hlenb := toNat_len hb
  have hmin : MALLOC_REALLOC_MIN_FREE_SIZE.toNat = 40 := by decide
  have huserb := hb.user
  have hendb := start_add_len b
  have hgo : realloc kern ps (user b) size s =
      if BitVec.ofNat 64 (len b) < fit_size (size + MALLOC_HEADER_SIZE) then
        grow kern ps (user b) (BitVec.ofNat 64 (len b)) (fit_size (size + MALLOC_HEADER_SIZE)) s
      else if fit_size (size + MALLOC_HEADER_SIZE) + MALLOC_REALLOC_MIN_FREE_SIZE ≤
          BitVec.ofNat 64 (len b) then
        shrink (user b) (BitVec.ofNat 64 (len b)) (fit_size (size + MALLOC_HEADER_SIZE)) s
      else .ok (user b, s) := by
    rw [realloc, if_neg hn, if_neg (user_ne_zero hb), if_neg hbig,
      hf.malloc_size List.mem_cons_self]
  rw [hgo]
  by_cases hlt : len b < (fit_size (size + MALLOC_HEADER_SIZE)).toNat
  · rw [if_pos (by rw [BitVec.lt_def, hlenb]; exact hlt)]
    refine grow.spec hk hp hf hneed hsmall hlt fun hnone =>
      hseen ⟨BitVec.not_lt.mp hbig, ?_, ?_⟩
    · rw [hf.malloc_size List.mem_cons_self, BitVec.lt_def, hlenb]
      exact hlt
    · rw [hf.malloc_size List.mem_cons_self]
      exact hnone
  · rw [if_neg (by rw [BitVec.lt_def, hlenb]; exact hlt)]
    have hadd : (fit_size (size + MALLOC_HEADER_SIZE) + MALLOC_REALLOC_MIN_FREE_SIZE).toNat =
        (fit_size (size + MALLOC_HEADER_SIZE)).toNat + 40 := by
      rw [BitVec.toNat_add, hmin]
      omega
    by_cases hcut : (fit_size (size + MALLOC_HEADER_SIZE)).toNat + 40 ≤ len b
    · rw [if_pos (by rw [BitVec.le_def, hadd, hlenb]; exact hcut)]
      exact .inr (shrink.spec hf hneed hcut)
    · rw [if_neg (by rw [BitVec.le_def, hadd, hlenb]; exact hcut)]
      have hlong : size.toNat + 8 ≤ len b :=
        le_trans (hneed ▸ le_fitted) (not_lt.mp hlt)
      exact .inr ⟨b, s, ss, rfl, hf, hlong, fun _ _ _ => rfl, fun _ _ => rfl⟩

end

/-! ## `memalign` -/

section

variable {init other : Set Nat} {s s' : Sys} {ss ss' live : List (Span Nat)} {b c w : Span Nat}
  {kern : Kernel} {ps : Addr} {alignment size : BitVec 64} {h h' : Heap} {n : Nat}

/-- A bigger power of two is a multiple of 8. -/
theorem mod_eight (ha : PageSize alignment) (h8 : 8 ≤ alignment.toNat)
    (hn : n % alignment.toNat = 0) : n % 8 = 0 := by
  obtain ⟨k, _, hk⟩ := ha.toNat_eq
  have hpow : (2 : Nat) ^ 3 ≤ 2 ^ k := hk ▸ h8
  have hle : 3 ≤ k := (Nat.pow_le_pow_iff_right (by decide)).mp hpow
  have hdvd : 8 ∣ alignment.toNat := hk ▸ Nat.pow_dvd_pow 2 hle
  exact Nat.mod_eq_zero_of_dvd (Nat.dvd_trans hdvd (Nat.dvd_of_mod_eq_zero hn))

/-- A smaller power of two divides 8. -/
theorem mod_small (ha : PageSize alignment) (h8 : alignment.toNat < 8) (hn : n % 8 = 0) :
    n % alignment.toNat = 0 := by
  obtain ⟨k, _, hk⟩ := ha.toNat_eq
  have hpow : (2 : Nat) ^ k < 2 ^ 3 := hk ▸ h8
  have hle : k ≤ 3 := le_of_lt ((Nat.pow_lt_pow_iff_right (by decide)).mp hpow)
  have hdvd : alignment.toNat ∣ 8 := hk ▸ Nat.pow_dvd_pow 2 hle
  exact Nat.mod_eq_zero_of_dvd (Nat.dvd_trans hdvd (Nat.dvd_of_mod_eq_zero hn))

theorem round_up_ofNat (ha : PageSize alignment) (hn : n + alignment.toNat ≤ 2 ^ 64) :
    MALLOC_ROUND_UP (BitVec.ofNat 64 n) alignment =
      BitVec.ofNat 64 (ceilNat alignment.toNat n) := by
  have hpos := ha.pos
  have hval : (BitVec.ofNat 64 n).toNat = n := by
    rw [BitVec.toNat_ofNat, Nat.mod_eq_of_lt (by omega)]
  have hround := toNat_alignUp ha (BitVec.ofNat 64 n) (by omega)
  rw [hval] at hround
  rw [malloc_round_up, ← hround, BitVec.ofNat_toNat, BitVec.setWidth_eq]

/-- The user address behind the front that is cut off is aligned. -/
theorem cut_start.spec (ha : PageSize alignment) (h8 : 8 ≤ alignment.toNat)
    (hhigh : alignment.toNat < 2 ^ 63) (hh : Held h ss (b :: live))
    (hlen : n + 2 * alignment.toNat + 8 ≤ len b) :
    ∃ w h' ss', cut_start alignment (BitVec.ofNat 64 b.start) (user b) h =
        .ok (user w, BitVec.ofNat 64 w.start, h') ∧
      (w.start + 8) % alignment.toNat = 0 ∧ w.start + 8 + n ≤ b.stop ∧ w.stop = b.stop ∧
      Kept h ss live b w h' ss' := by
  have hb := hh.area b List.mem_cons_self
  have huser := hb.user
  have hmod8 := hb.start
  have hend := start_add_len b
  have hge := le_ceilNat (n := b.start + 8) ha.pos
  have hlt := ceilNat_lt (n := b.start + 8) ha.pos
  have hmod := ceilNat_mod alignment.toNat (b.start + 8)
  have hround : MALLOC_ROUND_UP (user b) alignment = _ :=
    round_up_ofNat ha (n := b.start + 8) (by omega)
  by_cases heq : ceilNat alignment.toNat (b.start + 8) = b.start + 8
  · refine ⟨b, h, ss, ?_, heq ▸ hmod, by omega, rfl, Kept.refl hh⟩
    rw [cut_start, hround, heq]
    exact if_neg fun hne => hne rfl
  · have hne : BitVec.ofNat 64 (ceilNat alignment.toNat (b.start + 8)) ≠ user b := by
      rw [user, ne_eq, ofNat_eq_iff (by omega) (by omega)]
      exact heq
    have hceil8 := mod_eight ha h8 hmod
    -- the address that is taken
    obtain ⟨p, hpval, hpmod, hpge, hple⟩ : ∃ p,
        (if BitVec.ofNat 64 (ceilNat alignment.toNat (b.start + 8)) - user b < HEAP_MIN_SIZE then
          MALLOC_ROUND_UP (user b + HEAP_MIN_SIZE) alignment
        else BitVec.ofNat 64 (ceilNat alignment.toNat (b.start + 8))) = BitVec.ofNat 64 p ∧
        p % alignment.toNat = 0 ∧ b.start + 32 ≤ p ∧ p + n ≤ b.stop := by
      have hsub : BitVec.ofNat 64 (ceilNat alignment.toNat (b.start + 8)) - user b =
          BitVec.ofNat 64 (ceilNat alignment.toNat (b.start + 8) - (b.start + 8)) :=
        ofNat_sub_ofNat hge
      have hmin : HEAP_MIN_SIZE = BitVec.ofNat 64 24 := by decide
      split_ifs with hsmall
      · have hge' := le_ceilNat (n := b.start + 8 + 24) ha.pos
        have hlt' := ceilNat_lt (n := b.start + 8 + 24) ha.pos
        have hmod' := ceilNat_mod alignment.toNat (b.start + 8 + 24)
        have hceil8' := mod_eight ha h8 hmod'
        have ha8 := mod_eight ha h8 (Nat.mod_self _)
        refine ⟨_, ?_, hmod', by omega, by omega⟩
        rw [hmin, user, ← BitVec.ofNat_add]
        exact round_up_ofNat ha (by omega)
      · rw [hsub, hmin, ofNat_lt_iff (by omega) (by omega)] at hsmall
        exact ⟨_, rfl, hmod, by omega, by omega⟩
    have hp8 := mod_eight ha h8 hpmod
    obtain ⟨fa, h', hfree, hkept⟩ := hh.give_front
      (a := ⟨b.start, p - 8, by omega⟩) (w := ⟨p - 8, b.stop, by omega⟩) rfl rfl rfl
      (by simp only; omega) (by simp only [len]; omega)
    have hstart : p - 8 + 8 = p := by omega
    refine ⟨⟨p - 8, b.stop, by omega⟩, h', _, ?_, (by simp only [hstart, hpmod]),
      (by simp only; omega), rfl, hkept⟩
    have hdiff : BitVec.ofNat 64 p - user b = BitVec.ofNat 64 (p - 8 - b.start) := by
      rw [user, ofNat_sub_ofNat (by omega)]
      congr 1
      omega
    have hbase : BitVec.ofNat 64 b.start + BitVec.ofNat 64 (p - 8 - b.start) =
        BitVec.ofNat 64 (p - 8) := by
      rw [← BitVec.ofNat_add]
      congr 1
      omega
    rw [cut_start, hround, if_pos hne]
    simp only [hpval, hdiff, hfree, hbase]
    show Except.ok (BitVec.ofNat 64 p, BitVec.ofNat 64 (p - 8), h') = _
    rw [user, hstart]

theorem cut_end.spec (hh : Held h ss (w :: live)) (hmid : n % 8 = 0) (hlow : w.start < n)
    (hle : n ≤ w.stop) :
    ∃ c h' ss', cut_end (BitVec.ofNat 64 n) (BitVec.ofNat 64 w.stop) h =
        .ok (BitVec.ofNat 64 c.stop, h') ∧ c.start = w.start ∧ n ≤ c.stop ∧
      Kept h ss live w c h' ss' := by
  have hw := hh.area w List.mem_cons_self
  have huser := hw.user
  have hmin : BitVec.ofNat 64 n + MALLOC_REALLOC_MIN_FREE_SIZE = BitVec.ofNat 64 (n + 40) := by
    rw [BitVec.ofNat_add]
    exact congrArg (BitVec.ofNat 64 n + ·) (by decide)
  have htest : BitVec.ofNat 64 n + MALLOC_REALLOC_MIN_FREE_SIZE < BitVec.ofNat 64 w.stop ↔
      n + 40 < w.stop := by
    rw [hmin]
    exact ofNat_lt_iff (by omega) (by omega)
  by_cases hlt : n + 40 < w.stop
  · obtain ⟨fa, h', hfree, hkept⟩ := hh.give_end (a := ⟨n, w.stop, by omega⟩)
      (w := ⟨w.start, n, hlow⟩) rfl rfl rfl hmid (by simp only [len]; omega)
    refine ⟨⟨w.start, n, hlow⟩, h', _, ?_, rfl, le_rfl, hkept⟩
    rw [cut_end, if_pos (htest.mpr hlt), ofNat_sub_ofNat hle, hfree]
    rfl
  · exact ⟨w, h, ss, if_neg (mt htest.mp hlt), rfl, hle, Kept.refl hh⟩

/-- `memalign` gives an aligned block, or none. -/
theorem memalign.spec (hk : kern.Honest ps init other) (hp : Pages ps)
    (hf : Fine init other s ss live) (ha : PageSize alignment) (hsize : 8 < size.toNat)
    (hfits : size.toNat + 2 * alignment.toNat + 8 ≤ 2 ^ 64)
    (hseen : ¬ Missed kern ps s (HEAP_ADJUST_SIZE size + 2 * alignment)) :
    (∃ s', memalign kern ps alignment size s = .ok (0, s') ∧ s'.errno = ENOMEM ∧
      s'.heap = s.heap ∧ Fine init other s' ss live) ∨
    ∃ c s' ss', memalign kern ps alignment size s = .ok (user c, s') ∧
      (user c).toNat % alignment.toNat = 0 ∧ Got init other s live size.toNat c s' ss' := by
  have hpos := ha.pos
  have hround : (HEAP_ADJUST_SIZE size).toNat = _ := toNat_adjust (by omega)
  have hge := le_ceilNat (n := size.toNat) (show 0 < 8 by decide)
  have hlt := ceilNat_lt (n := size.toNat) (show 0 < 8 by decide)
  have hmod := ceilNat_mod 8 size.toNat
  have h16 : 16 ≤ ceilNat 8 size.toNat := by omega
  have hask : (HEAP_ADJUST_SIZE size + 2 * alignment).toNat =
      ceilNat 8 size.toNat + 2 * alignment.toNat := by
    have h2 : (2 : BitVec 64).toNat = 2 := rfl
    rw [BitVec.toNat_add, BitVec.toNat_mul, h2, hround]
    omega
  rcases malloc.spec (HEAP_ADJUST_SIZE size + 2 * alignment) hk hp hf hseen with
    ⟨_, s1, hmalloc, herrno, hheap, hfine⟩ | ⟨_, b, s1, ss1, hmalloc, hgot⟩
  · refine .inl ⟨s1, ?_, herrno, hheap, hfine⟩
    rw [memalign, hmalloc]
    rfl
  right
  have hlong := hgot.long
  rw [hask] at hlong
  have hb := hgot.fine.held.area b List.mem_cons_self
  have huser := user_ne_zero hb
  have hend := start_add_len b
  have hstart8 := hb.start
  by_cases hsmall : alignment.toNat < 8
  · refine ⟨b, s1, ss1, ?_, ?_, hgot.fine, by omega, hgot.kept⟩
    · rw [memalign, hmalloc]
      show (if user b = 0 then _ else _) = _
      rw [if_neg huser]
      exact if_pos hsmall
    · rw [toNat_user hb]
      exact mod_small ha hsmall (by omega)
  obtain ⟨w, h2, ss2, hcut, halign, hroom, hstop, hkept⟩ :=
    cut_start.spec (n := ceilNat 8 size.toNat) ha (by omega) (by omega) hgot.fine.held (by omega)
  have hw := hkept.held.area w List.mem_cons_self
  have hw8 := hw.start
  obtain ⟨c, h3, ss3, hcut', hstart, hle, hkept'⟩ := cut_end.spec (n := w.start + 8 +
    ceilNat 8 size.toNat) hkept.held (by omega) (by omega) (by omega)
  have htotal : cover ss3 ∪ c.cover = cover ss1 ∪ b.cover := hkept'.total.trans hkept.total
  have hall : cover ss3 ∪ cover (c :: live) = cover ss1 ∪ cover (b :: live) := by
    rw [cover_cons, cover_cons, ← Set.union_assoc, ← Set.union_assoc, htotal]
  have hsub2 : cover ss2 ⊆ cover ss1 ∪ b.cover := hkept.total ▸ Set.subset_union_left
  have hsub3 : cover ss3 ⊆ cover ss1 ∪ b.cover := htotal ▸ Set.subset_union_left
  have htaken : Taken init other s live c { s1 with heap := h3 } ss3 := {
    held := hkept'.held
    owned := hgot.fine.owned.trans hall.symm
    apart := hall ▸ hgot.fine.apart
    kept := by
      rw [htotal]
      exact hgot.kept.trans ((hkept.kept.mono hsub2).trans (hkept'.kept.mono hsub3)) }
  have hendc := start_add_len c
  obtain ⟨s4, hsetup, hresult⟩ := htaken.got (n := size.toNat) hf.sizes hf.room (by omega)
    (by omega)
  refine ⟨c, s4, ss3, ?_, ?_, hresult⟩
  · have htot : BitVec.ofNat 64 b.start + MALLOC_SIZE s1 (user b) = BitVec.ofNat 64 w.stop := by
      rw [hgot.fine.malloc_size List.mem_cons_self, start_add, hstop]
    have haddr : user w + HEAP_ADJUST_SIZE size =
        BitVec.ofNat 64 (w.start + 8 + ceilNat 8 size.toNat) := by
      rw [user, BitVec.ofNat_add (w.start + 8), ← hround, BitVec.ofNat_toNat, BitVec.setWidth_eq]
    have hlenc : BitVec.ofNat 64 c.stop - BitVec.ofNat 64 w.start = BitVec.ofNat 64 (len c) := by
      rw [← hstart]
      exact ofNat_sub_ofNat (le_of_lt c.nonempty)
    rw [memalign, hmalloc]
    show (if user b = 0 then _ else _) = _
    rw [if_neg huser]
    show (if alignment < MALLOC_ALIGNMENT then _ else _) = _
    rw [if_neg (show ¬ alignment < MALLOC_ALIGNMENT from hsmall)]
    simp only [malloc_base, htot, hcut]
    show (cut_end (user w + HEAP_ADJUST_SIZE size) (BitVec.ofNat 64 w.stop) h2).bind _ = _
    rw [haddr, hcut']
    show MALLOC_SETUP (BitVec.ofNat 64 w.start)
      (BitVec.ofNat 64 c.stop - BitVec.ofNat 64 w.start) _ = _
    rw [hlenc, ← hstart, hsetup]
  · rw [toNat_user (hkept'.held.area c List.mem_cons_self), hstart]
    exact halign

end

/-! ## Results -/

section

variable {init other : Set Nat} {s : Sys} {ss live : List (Span Nat)} {b : Span Nat}
  {kern : Kernel} {ps : Addr}

/-- The product of `calloc` never wraps around: a product that does not fit gives NULL and
asks for nothing, and a block has all its bytes, and they are zeros. -/
theorem calloc_no_wrap (hk : kern.Honest ps init other) (hp : Pages ps)
    (hf : Fine init other s ss live) (nmemb lsize : BitVec 64)
    (hseen : lsize.toNat * nmemb.toNat < 2 ^ 64 → ¬ Missed kern ps s (lsize * nmemb)) :
    ∃ p s', calloc kern ps nmemb lsize s = .ok (p, s') ∧
      (2 ^ 64 ≤ lsize.toNat * nmemb.toNat → p = 0 ∧ s' = set_errno ENOMEM s) ∧
      (p = 0 → s'.errno = ENOMEM ∧ s'.heap = s.heap ∧ Fine init other s' ss live) ∧
      (p ≠ 0 → ∃ b ss', p = user b ∧
        Got init other s live (lsize.toNat * nmemb.toNat) b s' ss' ∧
        ∀ i < lsize.toNat * nmemb.toNat, s'.heap.mem (p + BitVec.ofNat 64 i) = 0) := by
  rcases calloc.spec hk hp hf nmemb lsize hseen with
    ⟨_, s', hcalloc, herrno, hheap, hfine⟩ | ⟨hlt, _, b, s', ss', hcalloc, hgot, hzero⟩
  · refine ⟨0, s', hcalloc, fun hbig => ⟨rfl, ?_⟩, fun _ => ⟨herrno, hheap, hfine⟩,
      fun hne => absurd rfl hne⟩
    have hnone : calloc kern ps nmemb lsize s = .ok (0, set_errno ENOMEM s) :=
      if_pos ((overflow_iff nmemb lsize).mpr hbig)
    exact (Prod.mk.inj (Except.ok.inj (hcalloc.symm.trans hnone))).2
  · have hne := user_ne_zero (hgot.fine.held.area b List.mem_cons_self)
    exact ⟨user b, s', hcalloc, fun hbig => absurd hlt (not_lt.mpr hbig),
      fun h0 => absurd h0 hne, fun _ => ⟨b, ss', rfl, hgot, hzero⟩⟩

theorem calloc_no_wrap_first : ∃ s', calloc (bumpKernel 4096) 4096 0x100000001 0x100000000
    (malloc_init 4096 firstState) = .ok (0, s') ∧ s'.errno = ENOMEM := by
  obtain ⟨p, s', hcalloc, hbig, _⟩ := calloc_no_wrap honest_bump_4096 pages_4096
    (malloc_init.fine initial_firstState) 0x100000001 0x100000000
    (fun hlt => absurd hlt (by decide))
  obtain ⟨rfl, rfl⟩ := hbig (by decide)
  exact ⟨_, hcalloc, rfl⟩

/-- `realloc` keeps the bytes of the block, up to the smaller of the two sizes, and what is in
the other blocks. Without memory it leaves the block as it is. -/
theorem realloc_keeps (size : BitVec 64) (hk : kern.Honest ps init other) (hp : Pages ps)
    (hf : Fine init other s ss (b :: live)) (hsize : size ≠ 0)
    (hseen : Moves s (user b) size → ¬ Missed kern ps s (moved_size size)) :
    ∃ p s', realloc kern ps (user b) size s = .ok (p, s') ∧
      (p = 0 → s'.heap = s.heap ∧ Fine init other s' ss (b :: live)) ∧
      (p ≠ 0 → ∃ c ss', p = user c ∧ Fine init other s' ss' (c :: live) ∧
        size.toNat + 8 ≤ len c ∧
        (∀ i < min (len b) (len c) - 8,
          s'.heap.mem (p + BitVec.ofNat 64 i) = s.heap.mem (user b + BitVec.ofNat 64 i)) ∧
        ∀ x : Addr, x.toNat ∈ cover live ∪ other → s'.heap.mem x = s.heap.mem x) := by
  rcases realloc.spec hk hp hf hsize hseen with
    ⟨s', hrealloc, hheap, hfine⟩ | ⟨c, s', ss', hrealloc, hr⟩
  · exact ⟨0, s', hrealloc, fun _ => ⟨hheap, hfine⟩, fun hne => absurd rfl hne⟩
  · have hne := user_ne_zero (hr.fine.held.area c List.mem_cons_self)
    refine ⟨user c, s', hrealloc, fun h0 => absurd h0 hne, fun _ =>
      ⟨c, ss', rfl, hr.fine, hr.long, fun i hi => ?_, hr.spares⟩⟩
    exact hr.bytes i (by omega) (by omega)

/-- A block of 9 pages that starts with a 7 shrinks to 100 bytes, and still starts with it. -/
theorem realloc_keeps_nine : ∃ s',
    realloc (bumpKernel 4096) 4096 (user ninePages) 100
        (ninePagesState.map_mem fun m => Function.update m 0x200008 7) =
      .ok (user ninePages, s') ∧ s'.heap.mem 0x200008 = 7 := by
  have hfine : Fine ∅ ∅ (ninePagesState.map_mem fun m => Function.update m 0x200008 7) []
      [ninePages] :=
    ninePages_fine.map_mem fun y hy => Function.update_of_ne
      (fun heq => hy (by rw [heq]; exact ⟨by decide, by decide⟩)) _ _
  have hsize := hfine.malloc_size List.mem_cons_self
  obtain ⟨p, s', hrealloc, _, hyes⟩ := realloc_keeps 100 (honest_bump pages_4096.pageSize
    (Set.empty_subset _) (Set.empty_subset _)) pages_4096 hfine (by decide)
    (fun hmoves => absurd (hsize ▸ hmoves.2.1) (by decide))
  have hshrink : realloc (bumpKernel 4096) 4096 (user ninePages) 100
      (ninePagesState.map_mem fun m => Function.update m 0x200008 7) =
      shrink (user ninePages) (BitVec.ofNat 64 (len ninePages)) 112
        (ninePagesState.map_mem fun m => Function.update m 0x200008 7) := by
    rw [realloc, if_neg (by decide), if_neg (by decide), if_neg (by decide), hsize]
    exact (if_neg (by decide)).trans (if_pos (by decide))
  obtain ⟨_, _, hend⟩ := bind_eq_ok.mp (hshrink.symm.trans hrealloc)
  obtain ⟨rfl, _⟩ := Prod.mk.inj (Except.ok.inj hend)
  obtain ⟨c, _, _, _, hlong, hbytes, _⟩ := hyes (by decide)
  have hlen : 0 < min (len ninePages) (len c) - 8 := by
    have h108 : (100 : BitVec 64).toNat + 8 = 108 := rfl
    have hnine : len ninePages = 0x9000 := rfl
    omega
  exact ⟨s', hrealloc, hbytes 0 hlen⟩

/-- A block of `memalign` is aligned and long enough, and the rest of what it asked `malloc`
for is free again. -/
theorem memalign_aligned (alignment size : BitVec 64) (hk : kern.Honest ps init other)
    (hp : Pages ps) (hf : Fine init other s ss live) (ha : PageSize alignment)
    (hsize : 8 < size.toNat) (hfits : size.toNat + 2 * alignment.toNat + 8 ≤ 2 ^ 64)
    (hseen : ¬ Missed kern ps s (HEAP_ADJUST_SIZE size + 2 * alignment)) :
    ∃ p s', memalign kern ps alignment size s = .ok (p, s') ∧
      (p = 0 → s'.errno = ENOMEM ∧ s'.heap = s.heap ∧ Fine init other s' ss live) ∧
      (p ≠ 0 → p.toNat % alignment.toNat = 0 ∧ ∃ b ss', p = user b ∧
        Got init other s live size.toNat b s' ss') := by
  rcases memalign.spec hk hp hf ha hsize hfits hseen with
    ⟨s', hmem, herrno, hheap, hfine⟩ | ⟨c, s', ss', hmem, halign, hgot⟩
  · exact ⟨0, s', hmem, fun _ => ⟨herrno, hheap, hfine⟩, fun hne => absurd rfl hne⟩
  · have hne := user_ne_zero (hgot.fine.held.area c List.mem_cons_self)
    exact ⟨user c, s', hmem, fun h0 => absurd h0 hne, fun _ => ⟨halign, c, ss', rfl, hgot⟩⟩

theorem memalign_aligned_first : ∃ p s', memalign (bumpKernel 4096) 4096 64 40
    (malloc_init 4096 firstState) = .ok (p, s') ∧ (p ≠ 0 → p.toNat % 64 = 0) := by
  obtain ⟨p, s', hmem, _, hyes⟩ := memalign_aligned 64 40 honest_bump_4096 pages_4096
    (malloc_init.fine initial_firstState) ⟨6, by decide, rfl⟩
    (by decide) (by decide)
    (not_missed (malloc_init.fine initial_firstState) List.mem_cons_self (by decide))
  exact ⟨p, s', hmem, fun hne => (hyes hne).1⟩

end

end elf_loader.malloc
