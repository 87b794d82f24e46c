-- Copies of strings (`__strlen`, `__strcpy`, `__strdup` and `_emalloc` of
-- rtld/lib.c) over an allocator of which only the contract is known.
-- `__strdup` asks for as many bytes as the string has before its NUL, and
-- stores the NUL behind them.
import BinaryLab.LinkMap

set_option linter.style.nameCheck false

open binary_lab.words

namespace elf_loader.lib

/-! ## Strings in memory -/

/-- The bytes from `p` on are `bs`, and a NUL ends them. -/
def IsStr (mem : Bytes) : Addr → List Byte → Prop
  | p, [] => mem p = 0
  | p, b :: bs => mem p = b ∧ b ≠ 0 ∧ IsStr mem (p + 1) bs

instance IsStr.decidable (mem : Bytes) : (p : Addr) → (bs : List Byte) →
    Decidable (IsStr mem p bs)
  | p, [] => inferInstanceAs (Decidable (mem p = 0))
  | p, b :: bs =>
    have := IsStr.decidable mem (p + 1) bs
    inferInstanceAs (Decidable (mem p = b ∧ b ≠ 0 ∧ IsStr mem (p + 1) bs))

/-- The loop of `__strlen`: the address of the NUL. -/
def strlen_loop (mem : Bytes) : Nat → Addr → Except Stop Addr
  | 0, _ => .error .endless
  | fuel + 1, p => if mem p = 0 then .ok p else strlen_loop mem fuel (p + 1)

/-- `__strlen`. A walk over the whole address space never ends. -/
def __strlen (mem : Bytes) (s : Addr) : Except Stop Nat := do
  let p ← strlen_loop mem (2 ^ 64) s
  .ok (p - s).toNat

/-- The loop of `__strcpy`: the memory after it, and the addresses that it
has stored to. -/
def strcpy_loop : Nat → Bytes → Addr → Addr → Except Stop (Bytes × List Addr)
  | 0, _, _, _ => .error .endless
  | fuel + 1, mem, dst, src =>
    let c := mem src
    let mem := Function.update mem dst c
    if c ≠ 0 then do
      let (mem, stored) ← strcpy_loop fuel mem (dst + 1) (src + 1)
      .ok (mem, dst :: stored)
    else .ok (mem, [dst])

def __strcpy (mem : Bytes) (dest src : Addr) : Except Stop (Bytes × List Addr) :=
  strcpy_loop (2 ^ 64) mem dest src

/-! ## The allocator -/

/-- The address is one of the `n` bytes from `p` on. -/
def Within (p : Addr) (n : Nat) (a : Addr) : Prop := (a - p).toNat < n

instance (p : Addr) (n : Nat) (a : Addr) : Decidable (Within p n a) :=
  inferInstanceAs (Decidable (_ < _))

/-- A block in use: the bytes asked for, and the bytes that it has. -/
structure Block where
  addr : Addr
  size : Nat
  len : Nat

/-- The memory, and the blocks in use. Objects that do not come from `malloc`
(arrays on the stack, tables of a mapped file) count as blocks in use, too. -/
structure Heap where
  mem : Bytes
  live : List Block

/-- What is known of a `malloc` that does not give NULL: the block is new, at
least as long as requested and apart from every block in use, and the
bookkeeping keeps out of the blocks in use. -/
structure Malloc (h : Heap) (size : Nat) (p : Addr) (h' : Heap) : Prop where
  nonnull : p ≠ 0
  block : ∃ len, size ≤ len ∧ p.toNat + len ≤ 2 ^ 64 ∧ h'.live = ⟨p, size, len⟩ :: h.live ∧
    ∀ b ∈ h.live, ∀ a, Within b.addr b.len a → ¬ Within p len a
  keeps : ∀ b ∈ h.live, ∀ a, Within b.addr b.len a → h'.mem a = h.mem a

/-- `_emalloc`. When `malloc` gives NULL the process exits. -/
def _emalloc (h : Heap) (size : Nat) (p : Addr) (h' : Heap) : Prop := Malloc h size p h'

/-- `__strdup`: the copy at `p`, the state after it, and the addresses that
it has stored to. -/
def __strdup (h : Heap) (s : Addr) (h' : Heap) (p : Addr) (stored : List Addr) : Prop :=
  ∃ size h1 mem, __strlen h.mem s = .ok size ∧ _emalloc h size p h1 ∧
    __strcpy h1.mem p s = .ok (mem, stored) ∧ h' = { h1 with mem }

/-- The string lies in a block in use, its NUL included. -/
structure Source (h : Heap) (src : Addr) (s : CString) : Prop where
  str : IsStr h.mem src s.bytes
  held : ∃ b ∈ h.live, ∀ i ≤ s.bytes.length, Within b.addr b.len (src + BitVec.ofNat 64 i)

/-- A function that copies strings: the state before it, the string, the state
after it, the copy, and the addresses that it has stored to. -/
abbrev Copier := Heap → Addr → Heap → Addr → List Addr → Prop

/-- What comes after a state with the blocks `base`: allocations, copies of
strings in use, and stores of their users to bytes that they have asked for. -/
inductive Later (dup : Copier) (base : List Block) : Heap → Heap → Prop
  | refl (h : Heap) : Later dup base h h
  | emalloc {h h1 h' : Heap} {size : Nat} {p : Addr} (hm : _emalloc h size p h1)
      (hrest : Later dup base h1 h') : Later dup base h h'
  | strdup {h h1 h' : Heap} {src p : Addr} {s : CString} {stored : List Addr}
      (hsrc : Source h src s) (hd : dup h src h1 p stored) (hrest : Later dup base h1 h') :
      Later dup base h h'
  | store {h h' : Heap} {later : List Block} (hlive : h.live = later ++ base) {b : Block}
      (hb : b ∈ later) {a : Addr} (ha : Within b.addr b.size a) (v : Byte)
      (hrest : Later dup base { h with mem := Function.update h.mem a v } h') :
      Later dup base h h'

/-! ## The specs -/

theorem add_ofNat_succ (p : Addr) (i : Nat) :
    p + 1 + BitVec.ofNat 64 i = p + BitVec.ofNat 64 (i + 1) := by
  rw [BitVec.ofNat_add, BitVec.add_assoc, BitVec.add_comm 1]
  rfl

theorem IsStr.nul {mem : Bytes} {p : Addr} {bs : List Byte} (h : IsStr mem p bs) :
    mem (p + BitVec.ofNat 64 bs.length) = 0 := by
  induction bs generalizing p with
  | nil =>
    rw [List.length_nil, BitVec.add_zero]
    exact h
  | cons b bs ih =>
    rw [List.length_cons, ← add_ofNat_succ]
    exact ih h.2.2

theorem IsStr.ne_nul {mem : Bytes} {p : Addr} {bs : List Byte} (h : IsStr mem p bs) {i : Nat}
    (hi : i < bs.length) : mem (p + BitVec.ofNat 64 i) ≠ 0 := by
  induction bs generalizing p i with
  | nil => cases hi
  | cons b bs ih =>
    cases i with
    | zero =>
      rw [BitVec.add_zero, h.1]
      exact h.2.1
    | succ i =>
      rw [← add_ofNat_succ]
      exact ih h.2.2 (by simpa using hi)

theorem IsStr.congr {mem mem' : Bytes} {p : Addr} {bs : List Byte} (h : IsStr mem p bs)
    (hsame : ∀ i ≤ bs.length, mem' (p + BitVec.ofNat 64 i) = mem (p + BitVec.ofNat 64 i)) :
    IsStr mem' p bs := by
  induction bs generalizing p with
  | nil =>
    have h0 := hsame 0 (Nat.le_refl _)
    rw [BitVec.add_zero] at h0
    rw [IsStr, h0]
    exact h
  | cons b bs ih =>
    have h0 := hsame 0 (Nat.zero_le _)
    rw [BitVec.add_zero] at h0
    refine ⟨by rw [h0, h.1], h.2.1, ih h.2.2 ?_⟩
    intro i hi
    rw [add_ofNat_succ]
    exact hsame (i + 1) (by simpa using hi)

/-- A string is shorter than the address space, or its NUL would be one of
its bytes. -/
theorem IsStr.length_lt {mem : Bytes} {p : Addr} {bs : List Byte} (h : IsStr mem p bs) :
    bs.length < 2 ^ 64 := by
  by_contra hge
  have hwrap : BitVec.ofNat 64 (bs.length - 2 ^ 64) = BitVec.ofNat 64 bs.length := by
    apply BitVec.eq_of_toNat_eq
    simp only [BitVec.toNat_ofNat]
    omega
  refine h.ne_nul (i := bs.length - 2 ^ 64) (by omega) ?_
  rw [hwrap]
  exact h.nul

theorem strlen_loop.spec {mem : Bytes} {p : Addr} {bs : List Byte} (h : IsStr mem p bs)
    {fuel : Nat} (hfuel : bs.length < fuel) :
    strlen_loop mem fuel p = .ok (p + BitVec.ofNat 64 bs.length) := by
  induction bs generalizing p fuel with
  | nil =>
    obtain ⟨fuel, rfl⟩ : ∃ f, fuel = f + 1 := ⟨fuel - 1, by omega⟩
    have h0 : mem p = 0 := h
    rw [strlen_loop, if_pos h0, List.length_nil, BitVec.add_zero]
  | cons b bs ih =>
    obtain ⟨fuel, rfl⟩ : ∃ f, fuel = f + 1 := ⟨fuel - 1, by omega⟩
    have hb : mem p ≠ 0 := by
      rw [h.1]
      exact h.2.1
    rw [strlen_loop, if_neg hb, ih h.2.2 (by simpa using hfuel), add_ofNat_succ,
      List.length_cons]

theorem __strlen.spec {mem : Bytes} {p : Addr} {bs : List Byte} (h : IsStr mem p bs) :
    __strlen mem p = .ok bs.length := by
  have hlt := h.length_lt
  unfold __strlen
  rw [strlen_loop.spec h hlt]
  simp only [bind, Except.bind, Except.ok.injEq]
  have hsub : p + BitVec.ofNat 64 bs.length - p = BitVec.ofNat 64 bs.length := by bv_omega
  rw [hsub, BitVec.toNat_ofNat]
  omega

/-- The addresses that a copy of `n` bytes and a NUL to `dst` stores to. -/
def copied (dst : Addr) (n : Nat) : List Addr :=
  (List.range (n + 1)).map fun i => dst + BitVec.ofNat 64 i

theorem copied_succ (dst : Addr) (n : Nat) : copied dst (n + 1) = dst :: copied (dst + 1) n := by
  unfold copied
  rw [List.range_succ_eq_map, List.map_cons, List.map_map, BitVec.add_zero]
  congr 1
  apply List.map_congr_left
  intro i _
  exact (add_ofNat_succ dst i).symm

theorem not_mem_copied (dst : Addr) {n : Nat} (hn : n + 1 < 2 ^ 64) :
    dst ∉ copied (dst + 1) n := by
  intro h
  obtain ⟨i, hi, he⟩ := List.mem_map.mp h
  rw [List.mem_range] at hi
  rw [add_ofNat_succ] at he
  have : (BitVec.ofNat 64 (i + 1)).toNat = 0 := by
    rw [show BitVec.ofNat 64 (i + 1) = 0#64 by bv_omega]
    rfl
  rw [BitVec.toNat_ofNat] at this
  omega

/-- A copy to bytes that the source does not have goes through, and stores to
one byte more than the string has before its NUL. -/
theorem strcpy_loop.spec {mem : Bytes} (dst : Addr) {src : Addr} {bs : List Byte}
    (h : IsStr mem src bs)
    (hsep : ∀ i < bs.length, ∀ j ≤ bs.length,
      dst + BitVec.ofNat 64 i ≠ src + BitVec.ofNat 64 j)
    {fuel : Nat} (hfuel : bs.length < fuel) :
    ∃ mem', strcpy_loop fuel mem dst src = .ok (mem', copied dst bs.length) ∧
      IsStr mem' dst bs ∧ ∀ a, a ∉ copied dst bs.length → mem' a = mem a := by
  induction bs generalizing mem dst src fuel with
  | nil =>
    obtain ⟨fuel, rfl⟩ : ∃ f, fuel = f + 1 := ⟨fuel - 1, by omega⟩
    have h0 : mem src = 0 := h
    have hone : copied dst 0 = [dst] := by simp [copied]
    refine ⟨Function.update mem dst 0, ?_, Function.update_self _ _ _, ?_⟩
    · rw [strcpy_loop]
      simp only [h0, ne_eq, not_true_eq_false, if_false]
      rw [List.length_nil, hone]
    · intro a ha
      rw [List.length_nil, hone, List.mem_singleton] at ha
      exact Function.update_of_ne ha _ _
  | cons b bs ih =>
    obtain ⟨fuel, rfl⟩ : ∃ f, fuel = f + 1 := ⟨fuel - 1, by omega⟩
    have hlt := h.length_lt
    rw [List.length_cons] at hlt
    have hb : mem src ≠ 0 := by
      rw [h.1]
      exact h.2.1
    -- The first store leaves the rest of the source alone.
    have hrest : IsStr (Function.update mem dst (mem src)) (src + 1) bs := by
      apply h.2.2.congr
      intro j hj
      rw [Function.update_of_ne]
      intro he
      apply hsep 0 (by simp) (j + 1) (by simpa using hj)
      rw [BitVec.add_zero, ← add_ofNat_succ, he]
    obtain ⟨mem', hmem', hstr, hout⟩ := ih (dst + 1) hrest (by
      intro i hi j hj
      rw [add_ofNat_succ, add_ofNat_succ]
      exact hsep (i + 1) (by simpa using hi) (j + 1) (by simpa using hj)) (by simpa using hfuel)
    refine ⟨mem', ?_, ⟨?_, h.2.1, hstr⟩, ?_⟩
    · rw [strcpy_loop]
      simp only [if_pos hb, hmem', bind, Except.bind]
      rw [List.length_cons, copied_succ]
    · rw [hout dst (not_mem_copied dst hlt), Function.update_self, h.1]
    · intro a ha
      rw [List.length_cons, copied_succ, List.mem_cons, not_or] at ha
      rw [hout a ha.2, Function.update_of_ne ha.1]

theorem within_add (p : Addr) {i n : Nat} (hi : i < n) (hlt : i < 2 ^ 64) :
    Within p n (p + BitVec.ofNat 64 i) := by
  have hsub : p + BitVec.ofNat 64 i - p = BitVec.ofNat 64 i := by bv_omega
  rw [Within, hsub, BitVec.toNat_ofNat]
  omega

/-- The copy goes through in whatever block `malloc` gives. -/
theorem __strcpy.spec {h h1 : Heap} {src p : Addr} {s : CString} {size : Nat}
    (hsrc : Source h src s) (hm : _emalloc h size p h1) (hsize : s.bytes.length ≤ size) :
    ∃ mem, __strcpy h1.mem p src = .ok (mem, copied p s.bytes.length) ∧ IsStr mem p s.bytes ∧
      ∀ a, a ∉ copied p s.bytes.length → mem a = h1.mem a := by
  obtain ⟨b, hb, hheld⟩ := hsrc.held
  obtain ⟨_, ⟨len, hlen, _, _, hdisj⟩, hkeeps⟩ := hm
  have hlt := hsrc.str.length_lt
  have hstr : IsStr h1.mem src s.bytes := hsrc.str.congr fun i hi => hkeeps b hb _ (hheld i hi)
  exact strcpy_loop.spec p hstr (by
    intro i hi j hj he
    apply hdisj b hb _ (hheld j hj)
    rw [← he]
    exact within_add p (by omega) (by omega)) hlt

/-- What `__strdup` of a string in use does, whatever block `malloc` gives: the
copy is the string, and the stores go to the bytes asked for and to the one
behind them. -/
theorem __strdup.spec {h h' : Heap} {src p : Addr} {s : CString} {stored : List Addr}
    (hsrc : Source h src s) (hd : __strdup h src h' p stored) :
    stored = copied p s.bytes.length ∧ IsStr h'.mem p s.bytes := by
  obtain ⟨size, h1, mem, hsize, hm, hcpy, rfl⟩ := hd
  rw [__strlen.spec hsrc.str] at hsize
  cases hsize
  obtain ⟨mem', hmem', hcopy, _⟩ := __strcpy.spec hsrc hm (Nat.le_refl _)
  rw [hmem'] at hcpy
  cases hcpy
  exact ⟨rfl, hcopy⟩

/-! ## The laws -/

/-- The string is still there after whatever comes later. -/
def Survives (dup : Copier) (h : Heap) (p : Addr) (s : CString) : Prop :=
  ∀ h', Later dup h.live h h' → IsStr h'.mem p s.bytes

/-- The stores go to bytes that were asked for with the new block. -/
def Inside (h h' : Heap) (p : Addr) (stored : List Addr) : Prop :=
  ∃ b, h'.live = b :: h.live ∧ b.addr = p ∧ ∀ a ∈ stored, Within p b.size a

/-- The contract of a copy of `s`. -/
structure Contract (dup : Copier) (h h' : Heap) (p : Addr) (s : CString) (stored : List Addr) :
    Prop where
  survives : Survives dup h' p s
  inside : Inside h h' p stored

/-- The `n` bytes from `p` on are in no block in use. -/
def Free (h : Heap) (p : Addr) (n : Nat) : Prop :=
  p ≠ 0 ∧ p.toNat + n ≤ 2 ^ 64 ∧ ∀ b ∈ h.live, ∀ a, Within b.addr b.len a → ¬ Within p n a

/-- The NUL goes to the byte behind the block that was asked for. -/
theorem the_nul_is_outside_the_block {h h' : Heap} {src p : Addr} {s : CString}
    {stored : List Addr} (hsrc : Source h src s) (hd : __strdup h src h' p stored) :
    ¬ Inside h h' p stored := by
  have hlt := hsrc.str.length_lt
  rintro ⟨b, hlive, _, hin⟩
  have hstored := (__strdup.spec hsrc hd).1
  obtain ⟨size, h1, mem, hsize, ⟨_, ⟨len, _, _, hnew, _⟩, _⟩, _, rfl⟩ := hd
  obtain rfl := Except.ok.inj ((__strlen.spec hsrc.str).symm.trans hsize)
  obtain ⟨rfl, _⟩ := List.cons.inj (hnew.symm.trans hlive)
  have hnul : p + BitVec.ofNat 64 s.bytes.length ∈ stored := by
    rw [hstored]
    exact List.mem_map_of_mem (List.mem_range.mpr (by omega))
  have hwithin : Within p s.bytes.length (p + BitVec.ofNat 64 s.bytes.length) := hin _ hnul
  have hsub : p + BitVec.ofNat 64 s.bytes.length - p = BitVec.ofNat 64 s.bytes.length := by
    bv_omega
  rw [Within, hsub, BitVec.toNat_ofNat, Nat.mod_eq_of_lt hlt] at hwithin
  exact Nat.lt_irrefl _ hwithin

/-- When the block is as long as requested and no longer, the next block may
start at the NUL. A store of its user makes the string longer. -/
theorem the_next_block_takes_the_nul {h : Heap} {src p : Addr} {s : CString}
    (hsrc : Source h src s) (hfree : Free h p (s.bytes.length + 1)) :
    ∃ h' stored, __strdup h src h' p stored ∧ ¬ Survives __strdup h' p s := by
  have hlt := hsrc.str.length_lt
  obtain ⟨hnonnull, hroom, hapart⟩ := hfree
  have hwider : ∀ a, Within p s.bytes.length a → Within p (s.bytes.length + 1) a := by
    intro a ha
    unfold Within at *
    omega
  have hbehind : ∀ a, Within (p + BitVec.ofNat 64 s.bytes.length) 1 a →
      a = p + BitVec.ofNat 64 s.bytes.length := by
    intro a ha
    unfold Within at ha
    bv_omega
  have hm : _emalloc h s.bytes.length p
      { mem := h.mem, live := ⟨p, s.bytes.length, s.bytes.length⟩ :: h.live } :=
    ⟨hnonnull, ⟨s.bytes.length, Nat.le_refl _, by omega, rfl, fun b hb a ha hin =>
      hapart b hb a ha (hwider a hin)⟩, fun _ _ _ _ => rfl⟩
  obtain ⟨mem, hcpy, _⟩ := __strcpy.spec hsrc hm (Nat.le_refl _)
  refine ⟨_, _, ⟨_, _, mem, __strlen.spec hsrc.str, hm, hcpy, rfl⟩, ?_⟩
  intro hsurvives
  have hnext : _emalloc
      { mem, live := ⟨p, s.bytes.length, s.bytes.length⟩ :: h.live } 1
      (p + BitVec.ofNat 64 s.bytes.length)
      { mem, live := ⟨p + BitVec.ofNat 64 s.bytes.length, 1, 1⟩ ::
        ⟨p, s.bytes.length, s.bytes.length⟩ :: h.live } := by
    refine ⟨?_, ⟨1, Nat.le_refl _, ?_, rfl, ?_⟩, fun _ _ _ _ => rfl⟩
    · intro h0
      have hpos := toNat_pos hnonnull
      have := congrArg BitVec.toNat h0
      simp only [BitVec.toNat_add, BitVec.toNat_ofNat, BitVec.ofNat_eq_ofNat] at this
      omega
    · simp only [BitVec.toNat_add, BitVec.toNat_ofNat]
      omega
    · intro b hb a ha hin
      rw [hbehind a hin] at ha
      rcases List.mem_cons.mp hb with rfl | hb
      · have hsub : p + BitVec.ofNat 64 s.bytes.length - p =
            BitVec.ofNat 64 s.bytes.length := by bv_omega
        rw [Within, hsub, BitVec.toNat_ofNat, Nat.mod_eq_of_lt hlt] at ha
        exact Nat.lt_irrefl _ ha
      · exact hapart b hb _ ha (within_add p (by omega) hlt)
  have hself : Within (p + BitVec.ofNat 64 s.bytes.length) 1
      (p + BitVec.ofNat 64 s.bytes.length) := by
    simp [Within]
  have hlive : ∀ c : Block, ∀ base : List Block, c :: base = [c] ++ base := fun _ _ => rfl
  have hlong := hsurvives _ (.emalloc hnext
    (.store (hlive _ _) List.mem_cons_self hself 1 (.refl _)))
  have hnul := hlong.nul
  simp only [Function.update_self] at hnul
  exact absurd hnul (by decide)

/-- `__strdup` meets its contract for no string: whatever block it gets, it
stores its NUL outside of what it asked for. And with an allocator that gives
blocks as long as requested and no longer, later allocations change the string. -/
theorem strdup_never_meets_its_contract (s : CString) (h : Heap) (src : Addr)
    (hsrc : Source h src s) :
    (∀ h' p stored, __strdup h src h' p stored → ¬ Contract __strdup h h' p s stored) ∧
    ∀ p, Free h p (s.bytes.length + 1) →
      ∃ h' stored, __strdup h src h' p stored ∧ ¬ Survives __strdup h' p s := by
  refine ⟨?_, fun p hfree => the_next_block_takes_the_nul hsrc hfree⟩
  intro h' p stored hd hcontract
  exact the_nul_is_outside_the_block hsrc hd hcontract.inside

/-- A heap with the string `a` in an array of two bytes. -/
def aHeap : Heap where
  mem := Function.update (fun _ => 0) 0x100 97
  live := [⟨0x100, 2, 2⟩]

theorem aHeap_source : Source aHeap 0x100 (CString.lit ['a']) where
  str := ⟨by decide, by decide, show aHeap.mem 0x101 = 0 by decide⟩
  held := by
    refine ⟨⟨0x100, 2, 2⟩, List.mem_cons_self, ?_⟩
    intro i hi
    exact within_add _ (Nat.lt_succ_of_le hi) (Nat.lt_of_le_of_lt hi (by decide))

theorem aHeap_free : Free aHeap 0x200 2 := by
  refine ⟨by decide, by decide, ?_⟩
  intro b hb a ha hin
  have hb' : b = ⟨0x100, 2, 2⟩ := by simpa [aHeap] using hb
  subst hb'
  simp only [Within] at ha hin
  bv_omega

theorem strdup_of_a_never_meets_its_contract :
    Source aHeap 0x100 (CString.lit ['a']) ∧
    (∀ h' p stored, __strdup aHeap 0x100 h' p stored →
      ¬ Contract __strdup aHeap h' p (CString.lit ['a']) stored) ∧
    ∀ p, Free aHeap p 2 →
      ∃ h' stored, __strdup aHeap 0x100 h' p stored ∧
        ¬ Survives __strdup h' p (CString.lit ['a']) :=
  ⟨aHeap_source, strdup_never_meets_its_contract (CString.lit ['a']) aHeap 0x100 aHeap_source⟩

/-- The copy of `a` at `0x200` has its NUL outside of its block of one byte, and
a later user of that byte changes the string. -/
theorem strdup_of_a_loses_its_nul :
    ∃ h' stored, __strdup aHeap 0x100 h' 0x200 stored ∧ ¬ Inside aHeap h' 0x200 stored ∧
      ¬ Survives __strdup h' 0x200 (CString.lit ['a']) := by
  obtain ⟨h', stored, hd, hlost⟩ := the_next_block_takes_the_nul aHeap_source aHeap_free
  exact ⟨h', stored, hd, the_nul_is_outside_the_block aHeap_source hd, hlost⟩

/-! ## One byte more -/

/-- `__strdup` if it asked for one byte more. It meets the contract, so the
byte is all that the contract asks of it. -/
def strdup_with_nul (h : Heap) (s : Addr) (h' : Heap) (p : Addr) (stored : List Addr) : Prop :=
  ∃ size h1 mem, __strlen h.mem s = .ok size ∧ _emalloc h (size + 1) p h1 ∧
    __strcpy h1.mem p s = .ok (mem, stored) ∧ h' = { h1 with mem }

/-- The copy is a new block that has the string with its NUL. -/
theorem strdup_with_nul.spec {h h' : Heap} {src p : Addr} {s : CString} {stored : List Addr}
    (hsrc : Source h src s) (hd : strdup_with_nul h src h' p stored) :
    Malloc h (s.bytes.length + 1) p h' ∧ IsStr h'.mem p s.bytes ∧
      ∀ a ∈ stored, Within p (s.bytes.length + 1) a := by
  have hlt := hsrc.str.length_lt
  obtain ⟨size, h1, mem, hsize, hm, hcpy, rfl⟩ := hd
  obtain rfl := Except.ok.inj ((__strlen.spec hsrc.str).symm.trans hsize)
  obtain ⟨mem', hmem', hcopy, hout⟩ := __strcpy.spec hsrc hm (Nat.le_succ _)
  obtain ⟨rfl, rfl⟩ := Prod.mk.inj (Except.ok.inj (hmem'.symm.trans hcpy))
  have hin : ∀ a ∈ copied p s.bytes.length, Within p (s.bytes.length + 1) a := by
    intro a ha
    obtain ⟨i, hi, rfl⟩ := List.mem_map.mp ha
    rw [List.mem_range] at hi
    exact within_add p hi (by omega)
  obtain ⟨hnonnull, ⟨len, hlen, hroom, hlive, hapart⟩, hkeeps⟩ := hm
  refine ⟨⟨hnonnull, ⟨len, hlen, hroom, hlive, hapart⟩, fun b hb a ha => ?_⟩, hcopy, hin⟩
  have hsame := hout a fun hcopied => hapart b hb a ha (lt_of_lt_of_le (hin a hcopied) hlen)
  exact hsame.trans (hkeeps b hb a ha)

/-- The blocks since `base` are apart from those of `base`. -/
def Apart (base : List Block) (h : Heap) : Prop :=
  ∃ later, h.live = later ++ base ∧ ∀ c ∈ later, c.size ≤ c.len ∧
    ∀ b ∈ base, ∀ a, Within b.addr b.len a → ¬ Within c.addr c.len a

theorem Apart.malloc {base : List Block} {h h' : Heap} {size : Nat} {p : Addr}
    (hapart : Apart base h) (hm : Malloc h size p h') : Apart base h' := by
  obtain ⟨later, hlive, hlater⟩ := hapart
  obtain ⟨_, ⟨len, hlen, _, hnew, hdisj⟩, _⟩ := hm
  refine ⟨⟨p, size, len⟩ :: later, by rw [hnew, hlive, List.cons_append], ?_⟩
  refine List.forall_mem_cons.mpr ⟨⟨hlen, fun b hb => hdisj b ?_⟩, hlater⟩
  rw [hlive]
  exact List.mem_append_right _ hb

/-- What comes after leaves the bytes of the blocks from before. -/
theorem Later.keeps {base : List Block} {h h' : Heap} (hlater : Later strdup_with_nul base h h')
    (hapart : Apart base h) {b : Block} (hb : b ∈ base) {a : Addr} (ha : Within b.addr b.len a) :
    h'.mem a = h.mem a := by
  induction hlater with
  | refl => rfl
  | emalloc hm _ ih =>
    obtain ⟨later, hlive, _⟩ := hapart
    rw [ih (Apart.malloc ⟨later, hlive, ‹_›⟩ hm)]
    exact hm.keeps b (hlive ▸ List.mem_append_right _ hb) a ha
  | strdup hsrc hd _ ih =>
    obtain ⟨later, hlive, _⟩ := hapart
    have hm := (strdup_with_nul.spec hsrc hd).1
    rw [ih (Apart.malloc ⟨later, hlive, ‹_›⟩ hm)]
    exact hm.keeps b (hlive ▸ List.mem_append_right _ hb) a ha
  | store hlive hc hin v _ ih =>
    obtain ⟨later, hlive', hall⟩ := hapart
    obtain rfl := List.append_cancel_right (hlive.symm.trans hlive')
    rw [ih ⟨_, hlive, hall⟩]
    refine Function.update_of_ne (fun heq => ?_) _ _
    obtain ⟨hsize, hdisj⟩ := hall _ hc
    exact hdisj b hb a ha (lt_of_lt_of_le (heq ▸ hin) hsize)

/-- With one byte more the contract is met by every copy of every string. -/
theorem strdup_with_nul.contract {h h' : Heap} {src p : Addr} {s : CString} {stored : List Addr}
    (hsrc : Source h src s) (hd : strdup_with_nul h src h' p stored) :
    Contract strdup_with_nul h h' p s stored := by
  have hlt := hsrc.str.length_lt
  obtain ⟨⟨_, ⟨len, hlen, hroom, hlive, _⟩, _⟩, hcopy, hin⟩ := strdup_with_nul.spec hsrc hd
  refine ⟨fun h'' hlater => hcopy.congr fun i hi => ?_, ⟨_, hlive, rfl, hin⟩⟩
  have hbase : Apart h'.live h' := ⟨[], rfl, fun c hc => absurd hc List.not_mem_nil⟩
  have hnew : ⟨p, s.bytes.length + 1, len⟩ ∈ h'.live := hlive ▸ List.mem_cons_self
  exact hlater.keeps hbase hnew (within_add p (Nat.lt_of_lt_of_le (Nat.lt_succ_of_le hi) hlen)
    (by omega))

end elf_loader.lib
