-- `__strdup` of rtld/lib.c over the allocator of the loader. A copy that has
-- its NUL in its block is read as it was made for as long as the block is in
-- use. A copy of 16, 24, 32, .. characters has its NUL behind its block, where
-- the next block has its size.
import BinaryLab.LoadingRuns
import BinaryLab.MallocRuns

set_option linter.style.nameCheck false
set_option linter.dupNamespace false

open binary_lab.runs binary_lab.words binary_lab.pages binary_lab.spans

namespace elf_loader.malloc

open lib (IsStr copied)

/-- `__strdup`. When `malloc` gives NULL, `_emalloc` exits. -/
def __strdup (kern : Kernel) (ps src : Addr) (s : Sys) : Except Stop (Addr × Sys) := do
  let size ← lib.__strlen s.heap.mem src
  let (newp, s) ← malloc kern ps (BitVec.ofNat 64 size) s
  if newp = 0 then .error (.exit .mallocFailed)
  else do
    let (mem, _) ← lib.__strcpy s.heap.mem newp src
    .ok (newp, s.map_mem fun _ => mem)

/-- The copy of a string, with its NUL. -/
def copyOf (p : Addr) (str : CString) : Buffer :=
  ⟨p, str.bytes.length + 1, fun i => (str.bytes ++ [0])[i]?⟩

/-- A step of a program that copies strings, too. Each string that it copies is in memory
that `malloc` does not have, and its length is one for which the copy keeps its NUL. -/
inductive CopyStep (kern : Kernel) (ps : Addr) (other : Set Nat) :
    Sys × List Buffer → Sys × List Buffer → Prop
  | step {x y : Sys × List Buffer} (h : Step kern ps x y) : CopyStep kern ps other x y
  | copy {s s' : Sys} {bufs : List Buffer} {src p : Addr} {str : CString}
      (hstr : IsStr s.heap.mem src str.bytes)
      (hother : ∀ i ≤ str.bytes.length, (src + BitVec.ofNat 64 i).toNat ∈ other)
      (hheld : load.Held str) (h : __strdup kern ps src s = .ok (p, s')) :
      CopyStep kern ps other (s, bufs) (s', copyOf p str :: bufs)

/-- Any number of such steps, as long as `malloc` sees each refusal of `mmap`. -/
abbrev CopyRun (kern : Kernel) (ps : Addr) (other : Set Nat) :=
  Relation.ReflTransGen fun x y => CopyStep kern ps other x y ∧ Seen y.1

section

variable {init other : Set Nat} {s s' : Sys} {kern : Kernel} {ps p src initial_fa : Addr}
  {str : CString} {m m' m0 : Bytes} {ss : List (Span Nat)} {b : Span Nat} {bufs : List Buffer}
  {pairs : List (Buffer × Span Nat)}

/-! ## Strings in memory -/

/-- A string in memory, byte by byte, is the string with a NUL. -/
theorem isStr_iff (hno : 0 ∉ str.bytes) :
    IsStr m p str.bytes ↔
      ∀ i ≤ str.bytes.length, ∀ v, (str.bytes ++ [0])[i]? = some v →
        m (p + BitVec.ofNat 64 i) = v := by
  generalize str.bytes = bs at hno
  induction bs generalizing p with
  | nil =>
    constructor
    · intro h i hi v hv
      obtain rfl : i = 0 := Nat.le_zero.mp hi
      rw [← Option.some.inj hv, BitVec.add_zero]
      exact h
    · intro h
      have h0 := h 0 le_rfl 0 rfl
      rwa [BitVec.add_zero] at h0
  | cons b bs ih =>
    obtain ⟨hb, hrest⟩ := not_or.mp (fun h => hno (List.mem_cons.mpr h))
    constructor
    · intro h i hi v hv
      cases i with
      | zero =>
        rw [← Option.some.inj hv, BitVec.add_zero]
        exact h.1
      | succ i =>
        rw [← lib.add_ofNat_succ]
        exact (ih hrest).mp h.2.2 i (Nat.le_of_succ_le_succ hi) v hv
    · intro h
      refine ⟨?_, fun h0 => hb h0.symm, (ih hrest).mpr fun i hi v hv => ?_⟩
      · have h0 := h 0 (Nat.zero_le _) b rfl
        rwa [BitVec.add_zero] at h0
      · rw [lib.add_ofNat_succ]
        exact h (i + 1) (Nat.succ_le_succ hi) v hv

/-- A block has whole words, and room for a header of a free area. -/
theorem nul_fits (hheld : load.Held str) (hb : Area b) (h24 : 24 ≤ len b)
    (hlong : str.bytes.length + 8 ≤ len b) : str.bytes.length + 1 + 8 ≤ len b := by
  have hstart := hb.start
  have hstop := hb.stop
  have hend := start_add_len b
  rcases hheld with h | h
  · omega
  · omega

/-! ## One copy -/

/-- There is no copy of an empty string. -/
theorem __strdup.empty (kern : Kernel) (ps : Addr) (h : s.heap.mem src = 0) :
    __strdup kern ps src s = .error (.exit .mallocFailed) := by
  have hempty : IsStr s.heap.mem src [] := h
  have hlen : lib.__strlen s.heap.mem src = .ok 0 := lib.__strlen.spec hempty
  rw [__strdup, hlen]
  rfl

/-- What a call that gives a copy has done. -/
theorem __strdup.inversion (hstr : IsStr s.heap.mem src str.bytes)
    (h : __strdup kern ps src s = .ok (p, s')) :
    ∃ s1 mem, malloc kern ps (BitVec.ofNat 64 str.bytes.length) s = .ok (p, s1) ∧ p ≠ 0 ∧
      (∃ stored, lib.__strcpy s1.heap.mem p src = .ok (mem, stored)) ∧
      s' = s1.map_mem fun _ => mem := by
  obtain ⟨size, hsize, h⟩ := bind_eq_ok.mp h
  rw [lib.__strlen.spec hstr] at hsize
  obtain rfl := Except.ok.inj hsize
  obtain ⟨⟨newp, s1⟩, hmalloc, h⟩ := bind_eq_ok.mp h
  dsimp only at h
  split_ifs at h with hne
  obtain ⟨⟨mem, stored⟩, hcpy, h⟩ := bind_eq_ok.mp h
  obtain ⟨rfl, rfl⟩ := Prod.mk.inj (Except.ok.inj h)
  exact ⟨s1, mem, hmalloc, hne, ⟨stored, hcpy⟩, rfl⟩

/-- The copy is a new buffer that has the string with its NUL. -/
theorem Serves.copy (hk : kern.Honest ps init other) (hp : Pages ps)
    (hs : Serves init other m0 s bufs ss pairs) (hstr : IsStr s.heap.mem src str.bytes)
    (hother : ∀ i ≤ str.bytes.length, (src + BitVec.ofNat 64 i).toNat ∈ other)
    (hheld : load.Held str) (h : __strdup kern ps src s = .ok (p, s')) (hseen : Seen s') :
    ∃ ss' pairs', Serves init other m0 s' (copyOf p str :: bufs) ss' pairs' := by
  obtain ⟨s1, mem, hmalloc, hne, ⟨stored, hcpy⟩, rfl⟩ := __strdup.inversion hstr h
  have hlt := hstr.length_lt
  rcases malloc.spec _ hk hp hs.fine (not_missed_of_seen hmalloc hseen) with
    ⟨_, t, h0, _⟩ | ⟨_, b, t, ss', hb, hgot⟩
  · exact absurd (Prod.mk.inj (Except.ok.inj (hmalloc.symm.trans h0))).1 hne
  obtain ⟨rfl, rfl⟩ := Prod.mk.inj (Except.ok.inj (hmalloc.symm.trans hb))
  rw [BitVec.toNat_ofNat, Nat.mod_eq_of_lt hlt] at hgot
  have hfine := hgot.fine
  have harea := hfine.held.area b List.mem_cons_self
  have hroom := nul_fits hheld harea (hfine.room b List.mem_cons_self) hgot.long
  obtain ⟨hside, hout⟩ := hfine.side
  have hsub : bytesOf b ⊆ cover ss' ∪ b.cover :=
    (bytesOf_subset b).trans Set.subset_union_right
  have hbyte : ∀ i ≤ str.bytes.length, (user b + BitVec.ofNat 64 i).toNat ∈ bytesOf b :=
    fun i hi => byte_mem harea (by omega)
  -- the string is still there, and the copy goes to other bytes
  have hstr1 : IsStr s1.heap.mem src str.bytes :=
    hstr.congr fun i hi => hgot.spares _ (Set.mem_union_right _ (hother i hi))
  obtain ⟨mem', hmem', hcopy, hrest⟩ := lib.strcpy_loop.spec (user b) hstr1 (by
    intro i hi j hj heq
    refine Set.disjoint_left.mp hout (hsub (hbyte i (le_of_lt hi))) ?_
    rw [heq]
    exact hother j hj) hlt
  obtain ⟨rfl, _⟩ := Prod.mk.inj (Except.ok.inj (hcpy.symm.trans hmem'))
  have hsame : SameBut (bytesOf b) s1.heap.mem mem := by
    intro x hx
    refine hrest x fun hin => hx ?_
    obtain ⟨i, hi, rfl⟩ := List.mem_map.mp hin
    exact hbyte i (Nat.lt_succ_iff.mp (List.mem_range.mp hi))
  have hspares : Spares (pairs.map Prod.snd) other s1.heap.mem mem :=
    hsame.spares (Set.disjoint_of_subset_left hsub hside)
      (Set.disjoint_of_subset_left hsub hout)
  have hall := hgot.spares.trans hspares
  refine ⟨ss', (copyOf (user b) str, b) :: pairs, hfine.map_mem hsame, ?_, ?_,
    hs.spares.trans hall.nil⟩
  · rw [List.map_cons, hs.bufs]
  · refine List.forall_mem_cons.mpr ⟨⟨rfl, hroom, fun i hi => ?_⟩, ?_⟩
    · exact (isStr_iff str.no_nul).mp hcopy i (Nat.lt_succ_iff.mp hi)
    · exact InBlock.keep_all hs.inBlock hall hfine.held.drop.area

/-! ## Runs -/

theorem CopyRun.serves {x : Sys × List Buffer} (hk : kern.Honest ps init other) (hp : Pages ps)
    (hi : Initial initial_fa init other s)
    (hrun : CopyRun kern ps other (malloc_init initial_fa s, []) x) :
    ∃ ss pairs, Serves init other s.heap.mem x.1 x.2 ss pairs := by
  induction hrun with
  | refl =>
    exact ⟨_, [], malloc_init.fine hi, rfl, fun pr hpr => absurd hpr List.not_mem_nil,
      fun _ _ => rfl⟩
  | tail _ hstep ih =>
    obtain ⟨ss, pairs, hs⟩ := ih
    obtain ⟨hstep, hseen⟩ := hstep
    cases hstep with
    | step h => exact hs.step hk hp h hseen
    | copy hstr hother hheld h => exact hs.copy hk hp hstr hother hheld h hseen

/-- In every run a copy that the program still has is read as the string that was copied,
whatever else was allocated, resized, freed, stored to and copied. -/
theorem copies_are_kept (hk : kern.Honest ps init other) (hp : Pages ps)
    (hi : Initial initial_fa init other s)
    (hrun : CopyRun kern ps other (malloc_init initial_fa s, []) (s', bufs))
    (hcopy : copyOf p str ∈ bufs) : IsStr s'.heap.mem p str.bytes := by
  obtain ⟨ss, pairs, hs⟩ := CopyRun.serves hk hp hi hrun
  have hbufs : bufs = pairs.map Prod.fst := hs.bufs
  rw [hbufs] at hcopy
  obtain ⟨⟨buf, b⟩, hpr, heq⟩ := List.mem_map.mp hcopy
  obtain rfl : buf = copyOf p str := heq
  have hin : InBlock s'.heap.mem (copyOf p str) b := hs.inBlock _ hpr
  exact (isStr_iff str.no_nul).mpr fun i hi => hin.data i (Nat.lt_succ_of_le hi)

end

/-! ## A copy that loses its NUL -/

open load (namebuf libDir longName overwritten)
open rtld (exists_ok)

/-- The state at the start of a program that has the path of the library at 16. -/
def longState : Sys :=
  firstState.map_mem fun m a =>
    if 16 ≤ a ∧ a < 32 then (namebuf libDir longName).bytes.getD (a - 16).toNat 0 else m a

/-- The path is copied twice, as it is when two `DT_NEEDED` entries lead to it. -/
def twoCopies : Except Stop ((Addr × Sys) × Addr × Sys) := do
  let first ← __strdup (bumpKernel 4096) 4096 16 (malloc_init 4096 longState)
  let second ← __strdup (bumpKernel 4096) 4096 16 first.2
  .ok (first, second)

/-- The second copy has the size of its block where the first one had its NUL. -/
theorem the_second_copy_takes_the_nul :
    ∃ p q s1 s2, __strdup (bumpKernel 4096) 4096 16 (malloc_init 4096 longState) = .ok (p, s1) ∧
      __strdup (bumpKernel 4096) 4096 16 s1 = .ok (q, s2) ∧
      IsStr s1.heap.mem p (namebuf libDir longName).bytes ∧
      IsStr s2.heap.mem p (overwritten (namebuf libDir longName)).bytes ∧
      IsStr s2.heap.mem q (namebuf libDir longName).bytes := by
  have hstrings : twoCopies.toOption.all fun r => decide (
      IsStr r.1.2.heap.mem r.1.1 (namebuf libDir longName).bytes ∧
      IsStr r.2.2.heap.mem r.1.1 (overwritten (namebuf libDir longName)).bytes ∧
      IsStr r.2.2.heap.mem r.2.1 (namebuf libDir longName).bytes) := by decide +kernel
  obtain ⟨r, hr⟩ := exists_ok (x := twoCopies) (by decide +kernel)
  rw [hr] at hstrings
  simp only [twoCopies, bind_eq_ok] at hr
  obtain ⟨⟨p, s1⟩, hfirst, ⟨q, s2⟩, hsecond, hr⟩ := hr
  cases hr
  exact ⟨p, q, s1, s2, hfirst, hsecond, of_decide_eq_true hstrings⟩

end elf_loader.malloc
