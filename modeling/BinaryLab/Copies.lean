-- Copies into a flat memory. A copy of `n` bytes changes the `n` addresses
-- from its destination on and no other, and a number is read as before if
-- none of its bytes has changed.
import BinaryLab.Words

namespace binary_lab.words

/-! ## Copies -/

/-- The memory after `n` bytes of `src` were copied to `a`. -/
def overlay (m : Bytes) (a : Addr) (n : Nat) (src : Nat → Byte) : Bytes := fun x =>
  if (x - a).toNat < n then src (x - a).toNat else m x

/-- The memory after a store of the half word `v` at `a`. -/
def write32 (m : Bytes) (a : Addr) (v : BitVec 32) : Bytes := overlay m a 4 (byteOf v.toNat)

/-- The memory after a store of two bytes at `a`. -/
def write16 (m : Bytes) (a : Addr) (v : BitVec 16) : Bytes := overlay m a 2 (byteOf v.toNat)

/-- The address is one of the `n` from `lo` on. -/
def Within (x : Addr) (lo n : Nat) : Prop := lo ≤ x.toNat ∧ x.toNat < lo + n

instance (x : Addr) (lo n : Nat) : Decidable (Within x lo n) := inferInstanceAs (Decidable (_ ∧ _))

section

variable {m m' : Bytes} {a x : Addr} {n k : Nat} {src : Nat → Byte}

theorem within_add_ofNat (hk : k < n) (hn : a.toNat + n ≤ 2 ^ 64) :
    Within (a + BitVec.ofNat 64 k) a.toNat n := by
  unfold Within
  rw [toNat_add_ofNat (by omega)]
  omega

theorem overlay_within (h : Within x a.toNat n) :
    overlay m a n src x = src (x.toNat - a.toNat) := by
  have hsub : (x - a).toNat = x.toNat - a.toNat := BitVec.toNat_sub_of_le (BitVec.le_def.mpr h.1)
  have hlt : (x - a).toNat < n := by
    rw [hsub]
    unfold Within at h
    omega
  rw [overlay, if_pos hlt, hsub]

theorem overlay_outside (hn : a.toNat + n ≤ 2 ^ 64) (h : ¬ Within x a.toNat n) :
    overlay m a n src x = m x := by
  have hge : ¬ (x - a).toNat < n := by
    unfold Within at h
    rw [BitVec.toNat_sub]
    omega
  rw [overlay, if_neg hge]

/-- A copy to the `len` bytes from `lo` on leaves the bytes before and behind them. -/
theorem overlay_apart {lo len : Nat} (ha : a.toNat = lo) (hlen : n = len)
    (hn : lo + len ≤ 2 ^ 64) (h : x.toNat < lo ∨ lo + len ≤ x.toNat) :
    overlay m a n src x = m x := by
  subst ha hlen
  apply overlay_outside hn
  unfold Within
  omega

theorem overlay_at (hk : k < n) (hn : a.toNat + n ≤ 2 ^ 64) :
    overlay m a n src (a + BitVec.ofNat 64 k) = src k := by
  rw [overlay, add_ofNat_sub_toNat a (by omega), if_pos hk]

/-- A copy to a place with a number, read at a place with a number. -/
theorem overlay_ofNat {lo : Nat} (hn : lo + n < 2 ^ 64) (hk : k < 2 ^ 64) :
    overlay m (BitVec.ofNat 64 lo) n src (BitVec.ofNat 64 k) =
      if lo ≤ k ∧ k < lo + n then src (k - lo) else m (BitVec.ofNat 64 k) := by
  have hlo : (BitVec.ofNat 64 lo).toNat = lo := by
    rw [BitVec.toNat_ofNat, Nat.mod_eq_of_lt (by omega)]
  have hplace : (BitVec.ofNat 64 k).toNat = k := by
    rw [BitVec.toNat_ofNat, Nat.mod_eq_of_lt hk]
  split_ifs with hin
  · rw [overlay_within (show Within _ _ n by rw [hlo]; unfold Within; rw [hplace]; exact hin), hlo,
      hplace]
  · rw [overlay_outside (by omega) (by rw [hlo]; unfold Within; rw [hplace]; exact hin)]

theorem write64_outside (v : BitVec 64) (hn : a.toNat + 8 ≤ 2 ^ 64) (h : ¬ Within x a.toNat 8) :
    write64 m a v x = m x := by
  have hcopy : write64 m a v = overlay m a 8 (byteOf v.toNat) := rfl
  rw [hcopy, overlay_outside hn h]

/-! ## Numbers -/

/-- The memories agree on the `n` bytes from `lo` on. -/
def SameOn (m m' : Bytes) (lo n : Nat) : Prop := ∀ x, Within x lo n → m' x = m x

theorem SameOn.map_range (h : SameOn m m' a.toNat n) (hn : a.toNat + n ≤ 2 ^ 64) :
    (List.range n).map (fun i => m' (a + BitVec.ofNat 64 i)) =
      (List.range n).map (fun i => m (a + BitVec.ofNat 64 i)) := by
  apply List.map_congr_left
  intro i hi
  exact h _ (within_add_ofNat (List.mem_range.mp hi) hn)

theorem read64_same (h : SameOn m m' a.toNat 8) (hn : a.toNat + 8 ≤ 2 ^ 64) :
    read64 m' a = read64 m a := by
  rw [read64, read64, h.map_range hn]

theorem read32_same (h : SameOn m m' a.toNat 4) (hn : a.toNat + 4 ≤ 2 ^ 64) :
    read32 m' a = read32 m a := by
  rw [read32, read32, h.map_range hn]

theorem read16_same (h : SameOn m m' a.toNat 2) (hn : a.toNat + 2 ≤ 2 ^ 64) :
    read16 m' a = read16 m a := by
  rw [read16, read16, h.map_range hn]

/-- A number that was copied is the same at its new place. -/
theorem read64_moved {b : Addr}
    (h : ∀ i < 8, m' (b + BitVec.ofNat 64 i) = m (a + BitVec.ofNat 64 i)) :
    read64 m' b = read64 m a := by
  rw [read64, read64, List.map_congr_left fun i hi => h i (List.mem_range.mp hi)]

theorem read32_moved {b : Addr}
    (h : ∀ i < 4, m' (b + BitVec.ofNat 64 i) = m (a + BitVec.ofNat 64 i)) :
    read32 m' b = read32 m a := by
  rw [read32, read32, List.map_congr_left fun i hi => h i (List.mem_range.mp hi)]

/-- The memory holds the low `n` bytes of the number at `a`. -/
def HoldsBytes (m : Bytes) (a : Addr) (n x : Nat) : Prop :=
  ∀ i < n, m (a + BitVec.ofNat 64 i) = byteOf x i

theorem HoldsBytes.leNat_eq {v : Nat} (h : HoldsBytes m a n v) :
    leNat ((List.range n).map fun i => m (a + BitVec.ofNat 64 i)) = v % 256 ^ n := by
  rw [← leNat_byteOf n v]
  congr 1
  apply List.map_congr_left
  intro i hi
  exact h i (List.mem_range.mp hi)

theorem read64_of_holds {v : BitVec 64} (h : HoldsBytes m a 8 v.toNat) : read64 m a = v := by
  have := v.isLt
  apply BitVec.eq_of_toNat_eq
  rw [read64, h.leNat_eq, BitVec.toNat_ofNat]
  omega

theorem read32_of_holds {v : BitVec 32} (h : HoldsBytes m a 4 v.toNat) : read32 m a = v := by
  have := v.isLt
  apply BitVec.eq_of_toNat_eq
  rw [read32, h.leNat_eq, BitVec.toNat_ofNat]
  omega

theorem read16_of_holds {v : BitVec 16} (h : HoldsBytes m a 2 v.toNat) : read16 m a = v := by
  have := v.isLt
  apply BitVec.eq_of_toNat_eq
  rw [read16, h.leNat_eq, BitVec.toNat_ofNat]
  omega

theorem read16_write16_self (v : BitVec 16) (hn : a.toNat + 2 ≤ 2 ^ 64) :
    read16 (write16 m a v) a = v :=
  read16_of_holds fun _ hi => overlay_at hi hn

end

end binary_lab.words
