-- An address space in pages, as the kernel keeps it for a process: each
-- address has a byte and a protection, a file or zeros can be mapped over
-- whole pages, and a store into a page that does not allow it fails.
import BinaryLab.Words

namespace binary_lab.pages

open words

/-! ## Rounding to pages -/

/-- `x & ~(ps - 1)`. -/
def alignDown (ps x : Addr) : Addr := x &&& ~~~(ps - 1)

/-- `(x + ps - 1) & ~(ps - 1)`. -/
def alignUp (ps x : Addr) : Addr := (x + ps - 1) &&& ~~~(ps - 1)

/-- A page size is a power of two. -/
def PageSize (ps : Addr) : Prop := ∃ k < 64, ps = BitVec.ofNat 64 (2 ^ k)

/-- The start of the page of `n`. -/
def floorNat (ps n : Nat) : Nat := n - n % ps

/-- The first page boundary at or above `n`. -/
def ceilNat (ps n : Nat) : Nat := floorNat ps (n + ps - 1)

theorem PageSize.toNat_eq {ps : Addr} (h : PageSize ps) : ∃ k < 64, ps.toNat = 2 ^ k := by
  obtain ⟨k, hk, rfl⟩ := h
  refine ⟨k, hk, ?_⟩
  rw [BitVec.toNat_ofNat, Nat.mod_eq_of_lt (Nat.pow_lt_pow_right (by decide) hk)]

theorem PageSize.pos {ps : Addr} (h : PageSize ps) : 0 < ps.toNat := by
  obtain ⟨k, _, hk⟩ := h.toNat_eq
  rw [hk]
  exact Nat.two_pow_pos k

/-- The low bits that a page size masks are the remainder by it. -/
theorem toNat_and_mask {ps : Addr} (h : PageSize ps) (x : Addr) :
    (x &&& (ps - 1)).toNat = x.toNat % ps.toNat := by
  obtain ⟨k, hk, hps⟩ := h.toNat_eq
  have hone : (ps - 1).toNat = 2 ^ k - 1 := by
    have := Nat.two_pow_pos k
    have := ps.isLt
    rw [BitVec.toNat_sub, hps]
    simp only [BitVec.ofNat_eq_ofNat, BitVec.toNat_ofNat]
    omega
  rw [BitVec.toNat_and, hone, hps, Nat.and_two_pow_sub_one_eq_mod]

theorem toNat_alignDown {ps : Addr} (h : PageSize ps) (x : Addr) :
    (alignDown ps x).toNat = floorNat ps.toNat x.toNat := by
  have hsplit : alignDown ps x + (x &&& (ps - 1)) = x := by
    rw [alignDown, BitVec.add_eq_or_of_and_eq_zero]
    · ext i hi
      simp only [BitVec.getElem_or, BitVec.getElem_and, BitVec.getElem_not]
      cases x[i] <;> cases (ps - 1)[i] <;> rfl
    · ext i hi
      simp only [BitVec.getElem_and, BitVec.getElem_not, BitVec.getElem_zero]
      cases x[i] <;> cases (ps - 1)[i] <;> rfl
  have hmask := toNat_and_mask h x
  have hle := Nat.mod_le x.toNat ps.toNat
  have hback : alignDown ps x = x - (x &&& (ps - 1)) := by
    rw [eq_comm, BitVec.sub_eq_iff_eq_add, hsplit]
  rw [hback, BitVec.toNat_sub_of_le (by rw [BitVec.le_def, hmask]; exact hle), hmask, floorNat]

theorem toNat_alignUp {ps : Addr} (h : PageSize ps) (x : Addr)
    (hx : x.toNat + ps.toNat - 1 < 2 ^ 64) :
    (alignUp ps x).toNat = ceilNat ps.toNat x.toNat := by
  have hpos := h.pos
  have hsum : (x + ps - 1).toNat = x.toNat + ps.toNat - 1 := by
    simp only [BitVec.toNat_sub, BitVec.toNat_add, BitVec.ofNat_eq_ofNat, BitVec.toNat_ofNat]
    omega
  have := toNat_alignDown h (x + ps - 1)
  rw [hsum] at this
  exact this

section

variable {ps n m : Nat}

theorem floorNat_le (ps n : Nat) : floorNat ps n ≤ n := Nat.sub_le _ _

theorem lt_floorNat_add (h : 0 < ps) : n < floorNat ps n + ps := by
  have := Nat.mod_lt n h
  have := Nat.mod_le n ps
  unfold floorNat
  omega

theorem floorNat_mod : floorNat ps n % ps = 0 := by
  unfold floorNat
  rw [← Nat.mul_div_self_eq_mod_sub_self]
  exact Nat.mul_mod_right _ _

theorem floorNat_of_mod (h : n % ps = 0) : floorNat ps n = n := by simp [floorNat, h]

theorem floorNat_add (hm : m % ps = 0) : floorNat ps (m + n) = m + floorNat ps n := by
  have hmod : (m + n) % ps = n % ps := by rw [Nat.add_mod, hm, Nat.zero_add, Nat.mod_mod]
  have := Nat.mod_le n ps
  unfold floorNat
  omega

theorem le_ceilNat (h : 0 < ps) : n ≤ ceilNat ps n := by
  have := lt_floorNat_add (n := n + ps - 1) h
  unfold ceilNat
  omega

theorem ceilNat_lt (h : 0 < ps) : ceilNat ps n < n + ps := by
  have := floorNat_le ps (n + ps - 1)
  unfold ceilNat
  omega

theorem ceilNat_mod (ps n : Nat) : ceilNat ps n % ps = 0 := floorNat_mod

/-- The next boundary is the least boundary not below `n`. -/
theorem ceilNat_le (h : 0 < ps) (hm : m % ps = 0) (hn : n ≤ m) : ceilNat ps n ≤ m := by
  obtain ⟨q, rfl⟩ := Nat.dvd_of_mod_eq_zero hm
  have hlt := ceilNat_lt (n := n) h
  obtain ⟨r, hr⟩ := Nat.dvd_of_mod_eq_zero (ceilNat_mod ps n)
  rw [hr] at hlt ⊢
  apply Nat.mul_le_mul_left
  have : ps * r < ps * (q + 1) := by rw [Nat.mul_add, Nat.mul_one]; omega
  exact Nat.le_of_lt_succ (Nat.lt_of_mul_lt_mul_left this)

theorem ceilNat_mono (h : 0 < ps) (hn : n ≤ m) : ceilNat ps n ≤ ceilNat ps m :=
  ceilNat_le h (ceilNat_mod _ _) (Nat.le_trans hn (le_ceilNat h))

theorem ceilNat_of_mod (h : 0 < ps) (hm : n % ps = 0) : ceilNat ps n = n :=
  Nat.le_antisymm (ceilNat_le h hm (Nat.le_refl _)) (le_ceilNat h)

theorem ceilNat_add (h : 0 < ps) (hm : m % ps = 0) :
    ceilNat ps (m + n) = m + ceilNat ps n := by
  have : m + n + ps - 1 = m + (n + ps - 1) := by omega
  rw [ceilNat, this, floorNat_add hm, ceilNat]

/-- The boundary behind the page of `n`. -/
theorem ceilNat_succ : ceilNat ps (n + 1) = floorNat ps n + ps := by
  have : n + 1 + ps - 1 = ps + n := by omega
  rw [ceilNat, this, floorNat_add (Nat.mod_self ps), Nat.add_comm]

theorem floorNat_lt_of_lt_ceilNat (h : 0 < ps) (hn : n < ceilNat ps m) :
    floorNat ps n < m := by
  by_contra hge
  have := ceilNat_le h floorNat_mod (show m ≤ floorNat ps n by omega)
  have := floorNat_le ps n
  omega

/-- Above a boundary by less than a page, the next boundary ends the page. -/
theorem ceilNat_eq_floorNat_add (h : 0 < ps) (hm : n % ps ≠ 0) :
    ceilNat ps n = floorNat ps n + ps := by
  have hlt := Nat.mod_lt n h
  have hle := Nat.mod_le n ps
  have hsplit : n + ps - 1 = floorNat ps n + ps + (n % ps - 1) := by
    unfold floorNat
    omega
  have hmod : (floorNat ps n + ps) % ps = 0 := by rw [Nat.add_mod_right, floorNat_mod]
  have hrest : floorNat ps (n % ps - 1) = 0 := by
    rw [floorNat, Nat.mod_eq_of_lt (show n % ps - 1 < ps by omega), Nat.sub_self]
  rw [ceilNat, hsplit, floorNat_add hmod, hrest, Nat.add_zero]

end

/-! ## Offsets from a base -/

/-- The offset of `a` from `base + s` is its offset from `base`, less `s`. -/
theorem offset_sub {a base s : Addr} (h : s.toNat ≤ (a - base).toNat) :
    (a - (base + s)).toNat = (a - base).toNat - s.toNat := by
  have hsub : a - (base + s) = (a - base) - s := by bv_omega
  rw [hsub, BitVec.toNat_sub_of_le h]

theorem offset_lt_iff {a base s : Addr} {n : Nat} (h : s.toNat + n ≤ 2 ^ 64) :
    (a - (base + s)).toNat < n ↔ s.toNat ≤ (a - base).toNat ∧ (a - base).toNat < s.toNat + n := by
  by_cases hs : s.toNat ≤ (a - base).toNat
  · rw [offset_sub hs]
    omega
  · simp only [BitVec.toNat_sub, BitVec.toNat_add] at *
    omega

/-! ## The address space -/

/-- What a page allows. -/
structure Prot where
  read : Bool
  write : Bool
  exec : Bool
deriving DecidableEq, Repr

/-- The address space of a process. An address with no protection is not
mapped, and a page of a file mapping that starts past the end of the file
has nothing behind it. -/
structure Space where
  byte : Bytes
  prot : Addr → Option Prot
  backed : Addr → Bool

/-- `mmap` of the pages of a file from offset `off` on. Bytes past the end
of the file read as zero. -/
def Space.mapFile (sp : Space) (ps : Nat) (start : Addr) (len : Nat) (prot : Prot)
    (file : List Byte) (off : Nat) : Space where
  byte a := if (a - start).toNat < ceilNat ps len then file.getD (off + (a - start).toNat) 0
    else sp.byte a
  prot a := if (a - start).toNat < ceilNat ps len then some prot else sp.prot a
  backed a := if (a - start).toNat < ceilNat ps len then
      decide (off + floorNat ps (a - start).toNat < file.length)
    else sp.backed a

/-- `mmap` of zero pages. -/
def Space.mapZero (sp : Space) (ps : Nat) (start : Addr) (len : Nat) (prot : Prot) : Space where
  byte a := if (a - start).toNat < ceilNat ps len then 0 else sp.byte a
  prot a := if (a - start).toNat < ceilNat ps len then some prot else sp.prot a
  backed a := if (a - start).toNat < ceilNat ps len then true else sp.backed a

/-- `mprotect` of the mapped pages of a range. -/
def Space.protect (sp : Space) (ps : Nat) (start : Addr) (len : Nat) (prot : Prot) : Space :=
  { sp with prot := fun a =>
      if (a - start).toNat < ceilNat ps len then (sp.prot a).map fun _ => prot else sp.prot a }

/-- The byte at the address, if a page is mapped there that has something behind it. -/
def Space.get (sp : Space) (a : Addr) : Option Byte :=
  if (sp.prot a).isSome && sp.backed a then some (sp.byte a) else none

theorem Space.get_eq_some {sp : Space} {a : Addr} {b : Byte} :
    sp.get a = some b ↔ (sp.prot a).isSome = true ∧ sp.backed a = true ∧ sp.byte a = b := by
  rw [get, Option.ite_none_right_eq_some, Option.some.injEq, Bool.and_eq_true, and_assoc]

/-- A load from the address goes through. -/
def Space.readable (sp : Space) (a : Addr) : Bool :=
  (sp.prot a).any (·.read) && sp.backed a

/-- A load of a word, or none when the process gets a signal. -/
def Space.load64 (sp : Space) (a : Addr) : Option (BitVec 64) :=
  if ∀ i < 8, sp.readable (a + BitVec.ofNat 64 i) then some (read64 sp.byte a) else none

/-- A load of a half word. -/
def Space.load32 (sp : Space) (a : Addr) : Option (BitVec 32) :=
  if ∀ i < 4, sp.readable (a + BitVec.ofNat 64 i) then some (read32 sp.byte a) else none

/-- The words from `a` on, in pages that can be read. -/
structure Space.HoldsWords (sp : Space) (a : Addr) (ws : List (BitVec 64)) : Prop where
  words : words.HoldsWords sp.byte a ws
  readable : ∀ i < 8 * ws.length, sp.readable (a + BitVec.ofNat 64 i) = true

instance (sp : Space) (a : Addr) (ws : List (BitVec 64)) : Decidable (sp.HoldsWords a ws) :=
  decidable_of_iff (words.HoldsWords sp.byte a ws ∧
      ∀ i < 8 * ws.length, sp.readable (a + BitVec.ofNat 64 i) = true)
    ⟨fun h => ⟨h.1, h.2⟩, fun h => ⟨h.words, h.readable⟩⟩

section

variable {sp : Space} {a : Addr} {ws vs : List (BitVec 64)} {w : BitVec 64}

theorem Space.holdsWords_append :
    sp.HoldsWords a (ws ++ vs) ↔
      sp.HoldsWords a ws ∧ sp.HoldsWords (a + 8 * BitVec.ofNat 64 ws.length) vs := by
  have hshift : ∀ i, a + 8 * BitVec.ofNat 64 ws.length + BitVec.ofNat 64 i =
      a + BitVec.ofNat 64 (8 * ws.length + i) := by
    intro i
    rw [BitVec.ofNat_add, BitVec.ofNat_mul, BitVec.add_assoc]
    rfl
  constructor
  · rintro ⟨hwords, hreadable⟩
    obtain ⟨hws, hvs⟩ := words.holdsWords_append.mp hwords
    rw [List.length_append, Nat.mul_add] at hreadable
    refine ⟨⟨hws, fun i hi => hreadable i (by omega)⟩, ⟨hvs, fun i hi => ?_⟩⟩
    rw [hshift]
    exact hreadable _ (by omega)
  · rintro ⟨hws, hvs⟩
    refine ⟨words.holdsWords_append.mpr ⟨hws.words, hvs.words⟩, fun i hi => ?_⟩
    rw [List.length_append, Nat.mul_add] at hi
    by_cases hlow : i < 8 * ws.length
    · exact hws.readable i hlow
    · have hhigh := hvs.readable (i - 8 * ws.length) (by omega)
      rwa [hshift, Nat.add_sub_cancel' (by omega)] at hhigh

theorem Space.holdsWords_nil : sp.HoldsWords a [] :=
  ⟨trivial, fun _ hi => absurd hi (Nat.not_lt_zero _)⟩

/-- The first word can be loaded. -/
theorem Space.holdsWords_cons :
    sp.HoldsWords a (w :: ws) ↔ sp.load64 a = some w ∧ sp.HoldsWords (a + 8) ws := by
  have hone : sp.HoldsWords a [w] ↔ sp.load64 a = some w := by
    rw [load64, Option.ite_none_right_eq_some, Option.some.injEq]
    exact ⟨fun h => ⟨h.readable, h.words.1⟩, fun h => ⟨⟨h.2, trivial⟩, h.1⟩⟩
  rw [← List.singleton_append, holdsWords_append, hone]
  rfl

theorem Space.load32_of_load64 (h : sp.load64 a = some w) :
    sp.load32 a = some (w.setWidth 32) := by
  rw [load64, Option.ite_none_right_eq_some, Option.some.injEq] at h
  rw [load32, if_pos fun i hi => h.1 i (by omega), read32_eq, h.2]

end

/-- A store to the address goes through. -/
def Space.writable (sp : Space) (a : Addr) : Bool :=
  (sp.prot a).any (·.write) && sp.backed a

/-- A store of one byte, or none when the process gets a signal. -/
def Space.store8 (sp : Space) (a : Addr) (v : Byte) : Option Space :=
  if sp.writable a then some { sp with byte := Function.update sp.byte a v } else none

/-- `n` stores of the byte `v` from `a` on. -/
def Space.fill (sp : Space) (a : Addr) : Nat → Byte → Option Space
  | 0, _ => some sp
  | n + 1, v => do (← sp.store8 a v).fill (a + 1) n v

/-- The address space with `v` at the `n` addresses from `a` on. -/
def Space.filled (sp : Space) (a : Addr) (n : Nat) (v : Byte) : Space :=
  { sp with byte := fun x => if (x - a).toNat < n then v else sp.byte x }

/-- A fill of addresses that all take a store goes through. -/
theorem Space.fill_eq (sp : Space) (a : Addr) (n : Nat) (v : Byte) (hn : n ≤ 2 ^ 64)
    (h : ∀ x, (x - a).toNat < n → sp.writable x = true) :
    sp.fill a n v = some (sp.filled a n v) := by
  induction n generalizing sp a with
  | zero => simp [fill, filled]
  | succ n ih =>
    have hnext : ∀ x, (x - (a + 1)).toNat < n → (x - a).toNat < n + 1 := by
      intro x hx
      rw [offset_lt_iff (by simp; omega)] at hx
      simp only [BitVec.ofNat_eq_ofNat, BitVec.toNat_ofNat] at hx
      omega
    have ha : sp.writable a = true := h a (by simp)
    rw [fill, store8, if_pos ha, Option.bind_eq_bind, Option.bind_some, ih]
    · simp only [filled, Option.some.injEq, mk.injEq, and_true]
      funext x
      by_cases hxa : x = a
      · subst hxa
        have hfar : ¬ (x - (x + 1)).toNat < n := by
          simp only [BitVec.toNat_sub, BitVec.toNat_add, BitVec.ofNat_eq_ofNat,
            BitVec.toNat_ofNat]
          omega
        simp only [hfar, if_false, Function.update_self, BitVec.sub_self, BitVec.toNat_zero,
          Nat.zero_lt_succ, if_true]
      · have hpos : 0 < (x - a).toNat := by
          by_contra h0
          exact hxa (by bv_omega)
        have hiff : (x - (a + 1)).toNat < n ↔ (x - a).toNat < n + 1 := by
          rw [offset_lt_iff (by simp; omega)]
          simp only [BitVec.ofNat_eq_ofNat, BitVec.toNat_ofNat]
          omega
        simp only [hiff, Function.update_of_ne hxa]
    · omega
    · intro x hx
      exact h x (hnext x hx)

/-- A fill that went through had something behind every byte. -/
theorem Space.fill_backed {sp sp' : Space} {a : Addr} {n : Nat} {v : Byte} (hn : n ≤ 2 ^ 64)
    (h : sp.fill a n v = some sp') (x : Addr) (hx : (x - a).toNat < n) : sp.backed x = true := by
  induction n generalizing sp a with
  | zero => omega
  | succ n ih =>
    simp only [fill, store8, Option.bind_eq_bind, Option.bind_eq_some_iff] at h
    obtain ⟨sp1, hstore, hrest⟩ := h
    split_ifs at hstore with hw
    cases hstore
    by_cases hxa : x = a
    · simp only [writable, Bool.and_eq_true] at hw
      rw [hxa]
      exact hw.2
    · have hpos : 0 < (x - a).toNat := by
        by_contra h0
        exact hxa (by bv_omega)
      have hnext : (x - (a + 1)).toNat < n := by
        rw [offset_lt_iff (by simp; omega)]
        simp only [BitVec.ofNat_eq_ofNat, BitVec.toNat_ofNat]
        omega
      have hbacked := ih (by omega) hrest hnext
      exact hbacked

end binary_lab.pages
