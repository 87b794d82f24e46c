-- Bytes and 64-bit words in a flat address space. A word is eight bytes,
-- the lowest first, and addresses wrap at 2^64 as pointers do. A run of
-- word updates at addresses that lie apart writes each word once.
import Mathlib.Algebra.Ring.Nat
import Mathlib.Data.List.Basic

namespace binary_lab.words

abbrev Byte := BitVec 8

abbrev Addr := BitVec 64

/-- The bytes of an address space. -/
abbrev Bytes := Addr → Byte

theorem toNat_pos {n : Nat} {x : BitVec n} (h : x ≠ 0) : 0 < x.toNat := by
  apply Nat.pos_of_ne_zero
  intro h0
  exact h (BitVec.eq_of_toNat_eq (by simpa using h0))

theorem toNat_add_ofNat {a : Addr} {n : Nat} (h : a.toNat + n < 2 ^ 64) :
    (a + BitVec.ofNat 64 n).toNat = a.toNat + n := by
  simp only [BitVec.toNat_add, BitVec.toNat_ofNat]
  omega

/-! ## Little-endian numbers -/

/-- The number that the bytes stand for, the lowest byte first. -/
def leNat : List Byte → Nat
  | [] => 0
  | b :: bs => b.toNat + 256 * leNat bs

theorem leNat_append (bs cs : List Byte) :
    leNat (bs ++ cs) = leNat bs + 256 ^ bs.length * leNat cs := by
  induction bs with
  | nil => simp [leNat]
  | cons b bs ih =>
    rw [List.cons_append, leNat, leNat, ih, List.length_cons, Nat.pow_succ', Nat.mul_add,
      Nat.mul_assoc, Nat.add_assoc]

/-- Byte `i` of a number. -/
def byteOf (x : Nat) (i : Nat) : Byte := BitVec.ofNat 8 (x / 256 ^ i)

theorem leNat_byteOf (n x : Nat) :
    leNat ((List.range n).map (byteOf x)) = x % 256 ^ n := by
  induction n generalizing x with
  | zero => simp [leNat, Nat.mod_one]
  | succ n ih =>
    have hshift : (List.range n).map (byteOf x ∘ Nat.succ) =
        (List.range n).map (byteOf (x / 256)) := by
      apply List.map_congr_left
      intro i _
      simp only [byteOf, Function.comp, Nat.succ_eq_add_one]
      rw [Nat.pow_succ, Nat.mul_comm, Nat.div_div_eq_div_mul]
    have hlow : (byteOf x 0).toNat = x % 256 := by simp [byteOf]
    rw [List.range_succ_eq_map, List.map_cons, List.map_map, hshift, leNat, ih, hlow,
      Nat.pow_succ', Nat.mod_mul]

theorem leNat_lt (bs : List Byte) : leNat bs < 256 ^ bs.length := by
  induction bs with
  | nil => exact Nat.one_pos
  | cons b bs ih =>
    have := b.isLt
    rw [leNat, List.length_cons, Nat.pow_succ]
    omega

/-- The bytes of a number made of bytes. -/
theorem byteOf_leNat {bs : List Byte} {i : Nat} {b : Byte} (h : bs[i]? = some b) :
    byteOf (leNat bs) i = b := by
  induction bs generalizing i with
  | nil => cases h
  | cons c bs ih =>
    have := c.isLt
    cases i with
    | zero =>
      cases h
      apply BitVec.eq_of_toNat_eq
      simp only [byteOf, leNat, Nat.pow_zero, Nat.div_one, BitVec.toNat_ofNat]
      omega
    | succ i =>
      have hnext := ih h
      have hdiv : (c.toNat + 256 * leNat bs) / 256 = leNat bs := by omega
      rw [byteOf] at hnext ⊢
      rw [leNat, Nat.pow_succ', ← Nat.div_div_eq_div_mul, hdiv, hnext]

/-! ## Words -/

/-- The word at `a`. -/
def read64 (m : Bytes) (a : Addr) : BitVec 64 :=
  BitVec.ofNat 64 (leNat ((List.range 8).map fun i => m (a + BitVec.ofNat 64 i)))

/-- The half word at `a`. -/
def read32 (m : Bytes) (a : Addr) : BitVec 32 :=
  BitVec.ofNat 32 (leNat ((List.range 4).map fun i => m (a + BitVec.ofNat 64 i)))

/-- The two bytes at `a`. -/
def read16 (m : Bytes) (a : Addr) : BitVec 16 :=
  BitVec.ofNat 16 (leNat ((List.range 2).map fun i => m (a + BitVec.ofNat 64 i)))

/-- The low half of a word comes first. -/
theorem read32_eq (m : Bytes) (a : Addr) : read32 m a = (read64 m a).setWidth 32 := by
  have hsplit : (List.range 8).map (fun i => m (a + BitVec.ofNat 64 i)) =
      (List.range 4).map (fun i => m (a + BitVec.ofNat 64 i)) ++
        (List.range 4).map (fun i => m (a + BitVec.ofNat 64 (4 + i))) := rfl
  apply BitVec.eq_of_toNat_eq
  rw [read32, read64, hsplit, leNat_append, List.length_map, List.length_range]
  simp only [BitVec.toNat_setWidth, BitVec.toNat_ofNat]
  omega

/-- The words from `a` on. -/
def HoldsWords (m : Bytes) : Addr → List (BitVec 64) → Prop
  | _, [] => True
  | a, w :: ws => read64 m a = w ∧ HoldsWords m (a + 8) ws

instance HoldsWords.decidable (m : Bytes) :
    (a : Addr) → (ws : List (BitVec 64)) → Decidable (HoldsWords m a ws)
  | _, [] => inferInstanceAs (Decidable True)
  | a, _ :: ws =>
    have := HoldsWords.decidable m (a + 8) ws
    inferInstanceAs (Decidable (_ ∧ _))

theorem holdsWords_append {m : Bytes} {a : Addr} {ws vs : List (BitVec 64)} :
    HoldsWords m a (ws ++ vs) ↔
      HoldsWords m a ws ∧ HoldsWords m (a + 8 * BitVec.ofNat 64 ws.length) vs := by
  induction ws generalizing a with
  | nil => simp [HoldsWords]
  | cons w ws ih =>
    have hnext : a + 8 + 8 * BitVec.ofNat 64 ws.length =
        a + 8 * BitVec.ofNat 64 (ws.length + 1) := by
      apply BitVec.eq_of_toNat_eq
      simp
      omega
    rw [List.cons_append, HoldsWords, HoldsWords, ih, hnext, List.length_cons, and_assoc]

/-- The memory after a store of the word `v` at `a`. -/
def write64 (m : Bytes) (a : Addr) (v : BitVec 64) : Bytes := fun x =>
  if (x - a).toNat < 8 then byteOf v.toNat (x - a).toNat else m x

/-- The words at `a` and `b` share no byte. -/
def Apart (a b : Addr) : Prop := 8 ≤ (a - b).toNat ∧ 8 ≤ (b - a).toNat

instance (a b : Addr) : Decidable (Apart a b) := inferInstanceAs (Decidable (_ ∧ _))

theorem Apart.symm {a b : Addr} (h : Apart a b) : Apart b a := ⟨h.2, h.1⟩

theorem read64_congr {m m' : Bytes} {a : Addr}
    (h : ∀ i < 8, m (a + BitVec.ofNat 64 i) = m' (a + BitVec.ofNat 64 i)) :
    read64 m a = read64 m' a := by
  unfold read64
  congr 2
  apply List.map_congr_left
  intro i hi
  exact h i (List.mem_range.mp hi)

/-- Byte `i` of the word at `a`. -/
theorem byteOf_read64 (m : Bytes) (a : Addr) {i : Nat} (hi : i < 8) :
    byteOf (read64 m a).toNat i = m (a + BitVec.ofNat 64 i) := by
  have hget : ((List.range 8).map fun i => m (a + BitVec.ofNat 64 i))[i]? =
      some (m (a + BitVec.ofNat 64 i)) := by simp [hi]
  have hlt := leNat_lt ((List.range 8).map fun i => m (a + BitVec.ofNat 64 i))
  rw [List.length_map, List.length_range, show 256 ^ 8 = 2 ^ 64 from rfl] at hlt
  rw [read64, BitVec.toNat_ofNat, Nat.mod_eq_of_lt hlt, byteOf_leNat hget]

theorem add_ofNat_sub_toNat (a : Addr) {i : Nat} (hi : i < 2 ^ 64) :
    (a + BitVec.ofNat 64 i - a).toNat = i := by
  rw [BitVec.add_comm, BitVec.add_sub_cancel, BitVec.toNat_ofNat, Nat.mod_eq_of_lt hi]

theorem write64_at (m : Bytes) (a : Addr) (v : BitVec 64) {i : Nat} (hi : i < 8) :
    write64 m a v (a + BitVec.ofNat 64 i) = byteOf v.toNat i := by
  rw [write64, add_ofNat_sub_toNat a (by omega), if_pos hi]

theorem read64_zero (a : Addr) : read64 (fun _ => 0) a = 0 := by
  have hzero : leNat ((List.range 8).map fun _ => 0) = 0 := by decide
  rw [read64, hzero]
  rfl

theorem read64_write64_self (m : Bytes) (a : Addr) (v : BitVec 64) :
    read64 (write64 m a v) a = v := by
  have hbytes : (List.range 8).map (fun i => write64 m a v (a + BitVec.ofNat 64 i)) =
      (List.range 8).map (byteOf v.toNat) := by
    apply List.map_congr_left
    intro i hi
    exact write64_at m a v (List.mem_range.mp hi)
  unfold read64
  rw [hbytes, leNat_byteOf]
  apply BitVec.eq_of_toNat_eq
  have := v.isLt
  simp only [BitVec.toNat_ofNat]
  omega

theorem read64_write64_apart {m : Bytes} {a b : Addr} (v : BitVec 64) (h : Apart a b) :
    read64 (write64 m a v) b = read64 m b := by
  apply read64_congr
  intro i hi
  have hfar : ¬ (b + BitVec.ofNat 64 i - a).toNat < 8 := by
    obtain ⟨h1, h2⟩ := h
    simp only [BitVec.toNat_sub, BitVec.toNat_add, BitVec.toNat_ofNat] at *
    omega
  simp only [write64, hfar, if_false]

/-! ## Runs of word updates -/

/-- One store of a run: where it goes, and the word that it puts there,
which may depend on the memory before it. -/
structure Update where
  dest : Addr
  value : Bytes → BitVec 64

def Update.apply (m : Bytes) (u : Update) : Bytes := write64 m u.dest (u.value m)

/-- The memory after the updates, done in order. -/
def applyAll (m : Bytes) (us : List Update) : Bytes := us.foldl Update.apply m

@[simp] theorem applyAll_nil (m : Bytes) : applyAll m [] = m := rfl

@[simp] theorem applyAll_cons (m : Bytes) (u : Update) (us : List Update) :
    applyAll m (u :: us) = applyAll (u.apply m) us := rfl

theorem applyAll_append (m : Bytes) (us vs : List Update) :
    applyAll m (us ++ vs) = applyAll (applyAll m us) vs := by
  simp [applyAll, List.foldl_append]

/-- A word that lies apart from every destination keeps its value. -/
theorem read64_applyAll_apart (us : List Update) (m : Bytes) {b : Addr}
    (h : ∀ u ∈ us, Apart u.dest b) : read64 (applyAll m us) b = read64 m b := by
  induction us generalizing m with
  | nil => rfl
  | cons u us ih =>
    rw [applyAll_cons, ih _ (fun v hv => h v (List.mem_cons_of_mem _ hv)), Update.apply,
      read64_write64_apart _ (h u List.mem_cons_self)]

/-- The destination of an update that no later update touches holds the
value of the update. -/
theorem read64_applyAll_of_mem (pre post : List Update) (m : Bytes) (u : Update)
    (h : ∀ v ∈ post, Apart v.dest u.dest) :
    read64 (applyAll m (pre ++ u :: post)) u.dest = u.value (applyAll m pre) := by
  rw [applyAll_append, applyAll_cons, read64_applyAll_apart post _ h, Update.apply,
    read64_write64_self]

/-- In a run whose destinations lie apart, each update finds the old word at
its destination, and its own word stays there. -/
theorem read64_applyAll_pairwise (us : List Update) (m : Bytes)
    (h : us.Pairwise fun u v => Apart u.dest v.dest) {u : Update} (hu : u ∈ us) :
    ∃ pre post, us = pre ++ u :: post ∧
      read64 (applyAll m pre) u.dest = read64 m u.dest ∧
      read64 (applyAll m us) u.dest = u.value (applyAll m pre) := by
  obtain ⟨pre, post, rfl⟩ := List.append_of_mem hu
  rw [List.pairwise_append, List.pairwise_cons] at h
  obtain ⟨_, ⟨hpost, _⟩, hpre⟩ := h
  refine ⟨pre, post, rfl, ?_, ?_⟩
  · exact read64_applyAll_apart pre m fun v hv => hpre v hv u List.mem_cons_self
  · exact read64_applyAll_of_mem pre post m u fun v hv => (hpost v hv).symm

end binary_lab.words
