-- What `__heap_alloc` and `__heap_alloc_at` do to the spans. The first one takes
-- the front of the first area that is big enough, and the second one asks no
-- more than the first area. The check of the heap, and sequences of calls.
import BinaryLab.HeapFree

set_option linter.style.nameCheck false

open binary_lab.runs binary_lab.words binary_lab.pages binary_lab.spans

namespace elf_loader.malloc

/-! ## Taking from the front of an area -/

/-- The bytes that are taken from the area `t` for `n` bytes. -/
def taken (n : Nat) (t : Span Nat) : Nat := if len t < n + 56 then len t else n

/-- The block `b` is the front of the area `t`, for `n` bytes. -/
structure Front (n : Nat) (t b : Span Nat) : Prop where
  fits : n ≤ len t
  start : b.start = t.start
  stop : b.stop = t.start + taken n t

section

variable {h : Heap} {t b : Span Nat} {ss ps qs : List (Span Nat)} {p : Addr} {n : Nat}

theorem taken_le (hfits : n ≤ len t) : taken n t ≤ len t := by
  unfold taken
  split_ifs <;> omega

theorem le_taken (hfits : n ≤ len t) : n ≤ taken n t := by
  unfold taken
  split_ifs <;> omega

theorem exists_front (hn : 0 < n) (hfits : n ≤ len t) : ∃ b, Front n t b := by
  have hpos := le_taken hfits
  exact ⟨⟨t.start, t.start + taken n t, by omega⟩, hfits, rfl, rfl⟩

theorem Front.stop_le (hb : Front n t b) : b.stop ≤ t.stop := by
  have := taken_le hb.fits
  have := start_add_len t
  have := hb.stop
  omega

theorem Front.len_eq (hb : Front n t b) : len b = taken n t := by
  have h1 := hb.start
  have h2 := hb.stop
  unfold len
  omega

theorem Front.le_len (hb : Front n t b) : n ≤ len b := hb.len_eq ▸ le_taken hb.fits

/-- The rest is no area, or one with room for its header. -/
theorem Front.behind (hb : Front n t b) :
    t.behind b.stop = [] ∧ b.stop = t.stop ∧ len t < n + 56 ∨
      ∃ r, t.behind b.stop = [r] ∧ r.start = b.stop ∧ r.stop = t.stop ∧ 56 ≤ len r ∧
        len b = n ∧ ¬ len t < n + 56 := by
  have hstop := hb.stop
  have hlen := hb.len_eq
  have hend := start_add_len t
  unfold taken at hstop hlen
  by_cases hlt : len t < n + 56
  · rw [if_pos hlt] at hstop
    have heq : b.stop = t.stop := hstop.trans hend
    exact .inl ⟨dif_neg (heq ▸ lt_irrefl _), heq, hlt⟩
  · rw [if_neg hlt] at hstop hlen
    have hin : b.stop < t.stop := by omega
    refine .inr ⟨⟨b.stop, t.stop, hin⟩, dif_pos hin, rfl, rfl, ?_, hlen, hlt⟩
    show 56 ≤ t.stop - b.stop
    omega

theorem Front.area (hb : Front n t b) (ht : Area t) (hn : n % 8 = 0) : Area b := by
  have h1 := ht.start
  have h2 := ht.stop
  have h3 := start_add_len t
  have h4 := hb.stop
  refine ⟨hb.start ▸ ht.start, ?_, hb.start ▸ ht.nonnull, hb.stop_le.trans ht.user⟩
  rw [h4]
  unfold taken
  split_ifs <;> omega

/-- What is left of the heap is a good list of areas. -/
theorem Front.good (hb : Front n t b) (hn : n % 8 = 0) (hg : Good (ps ++ t :: qs)) :
    Good (ps ++ (t.behind b.stop ++ qs)) := by
  obtain ⟨_, hgq, _⟩ := good_append.mp hg
  have hat := hgq.area t List.mem_cons_self
  have hrest := hg.without
  rcases hb.behind with ⟨hnil, _⟩ | ⟨r, hr, hstart, hstop, hroom, _⟩
  · rw [hnil]
    exact hrest
  · have hgap := gapped_carve hg.gapped (hb.start ▸ le_of_lt b.nonempty : t.start ≤ b.stop)
    have har : Area r :=
      ⟨hstart ▸ (hb.area hat hn).stop, hstop ▸ hat.stop,
        hstart ▸ lt_of_le_of_lt (Nat.zero_le _) b.nonempty, hstop ▸ hat.user⟩
    rw [hr] at hgap ⊢
    refine ⟨hgap, fun u hu => ?_, fun u hu => ?_⟩
    · rcases List.mem_append.mp hu with hu | hu
      · exact hrest.area u (List.mem_append_left _ hu)
      · rcases List.mem_cons.mp hu with rfl | hu
        · exact har
        · exact hrest.area u (List.mem_append_right _ hu)
    · rcases List.mem_append.mp hu with hu | hu
      · exact hrest.room u (List.mem_append_left _ hu)
      · rcases List.mem_cons.mp hu with rfl | hu
        · omega
        · exact hrest.room u (List.mem_append_right _ hu)

/-- The bytes of the block leave the heap, and no others. -/
theorem Front.cover_eq (hb : Front n t b) (hg : Good (ps ++ t :: qs)) :
    cover (ps ++ (t.behind b.stop ++ qs)) = cover (ps ++ t :: qs) \ b.cover := by
  have hle : t.start ≤ b.stop := hb.start ▸ le_of_lt b.nonempty
  rw [cover_carve hg.gapped hle hb.stop_le, ← hb.start]
  rfl

/-- Put back, the block is the front of the area again. -/
theorem Front.put_eq (hb : Front n t b) (hg : Good (ps ++ t :: qs)) :
    put b (ps ++ (t.behind b.stop ++ qs)) = ps ++ t :: qs := by
  have hlt : t.start < b.stop := hb.start ▸ b.nonempty
  have heq : b = ⟨t.start, b.stop, hlt⟩ := Span.ext hb.start rfl
  exact (congrArg (binary_lab.spans.put · _) heq).trans (put_carve hg.gapped hlt hb.stop_le)

theorem __heap_free_area_alloc.spec (hh : IsHeap h (ps ++ t :: qs)) (hb : Front n t b)
    (hn : n % 8 = 0) : ∃ h', __heap_free_area_alloc h (header t) (BitVec.ofNat 64 n) =
      (BitVec.ofNat 64 (len b), h') ∧ IsHeap h' (ps ++ (t.behind b.stop ++ qs)) ∧
      SameBut (cover (ps ++ t :: qs)) h.mem h'.mem := by
  have hmem : t ∈ ps ++ t :: qs := List.mem_append_right _ List.mem_cons_self
  have hat := hh.good.area t hmem
  obtain ⟨hbefore, ⟨hsize, hnext, hprev⟩, hq⟩ := hh.split
  have hfits := hb.fits
  have hlen := toNat_len hat
  have hle : len t ≤ 2 ^ 63 := (Nat.sub_le _ _).trans hat.user
  have hsum : (BitVec.ofNat 64 n + HEAP_MIN_FREE_AREA_SIZE).toNat = n + 56 := by
    have h56 : HEAP_MIN_FREE_AREA_SIZE.toNat = 56 := by decide
    rw [BitVec.toNat_add, BitVec.toNat_ofNat, h56]
    omega
  have htest : h.get (header t) .size < BitVec.ofNat 64 n + HEAP_MIN_FREE_AREA_SIZE ↔
      len t < n + 56 := by
    rw [hsize, BitVec.lt_def, hsum, hlen]
  have hgood := hb.good hn hh.good
  rcases hb.behind with ⟨hnil, hstop, hlt⟩ | ⟨r, hr, hstart, hstop, _, hlenb, hlt⟩
  · refine ⟨__heap_delete h (header t), ?_, ?_, sameBut_delete hh⟩
    · have hb' : len b = len t := by
        unfold len
        rw [hb.start, hstop]
      rw [__heap_free_area_alloc, if_pos (htest.mpr hlt), hsize, hb']
    · rw [hnil]
      exact isHeap_delete hh
  · have hheader : header r = header t := by rw [header, header, hstop]
    have hlenr : BitVec.ofNat 64 (len t) - BitVec.ofNat 64 n = BitVec.ofNat 64 (len r) := by
      have hsplit : len t = len r + n := by
        have := start_add_len b
        have := start_add_len r
        have := start_add_len t
        have := hb.start
        omega
      rw [hsplit, BitVec.ofNat_add]
      exact BitVec.add_sub_cancel _ _
    rw [hr] at hgood ⊢
    have hparts : Parts h ps r qs := {
      good := hgood
      before := hheader ▸ hbefore
      next := hheader ▸ hnext
      prev := hheader ▸ hprev
      behind := hheader ▸ hq }
    refine ⟨_, ?_, hparts.set_size, hheader ▸ hh.good.sameBut_set hmem⟩
    rw [__heap_free_area_alloc, if_neg fun hin => hlt (htest.mp hin), hsize, hlenr, hlenb, hheader]

end

/-! ## Allocation -/

/-- The bytes that a block of `n` bytes takes at least. -/
def fitted (n : Nat) : Nat := max 24 (ceilNat 8 n)

section

variable {h : Heap} {s t : Span Nat} {ss ps qs : List (Span Nat)} {p : Addr} {size : BitVec 64}
  {n : Nat}

theorem pageSize_granularity : PageSize HEAP_GRANULARITY := ⟨3, by decide, rfl⟩

theorem toNat_adjust (hsize : size.toNat ≤ 2 ^ 64 - 8) :
    (HEAP_ADJUST_SIZE size).toNat = ceilNat 8 size.toNat := by
  have h8 : HEAP_GRANULARITY.toNat = 8 := rfl
  have hround := toNat_alignUp pageSize_granularity size (by omega)
  rwa [h8] at hround

theorem toNat_fit_size (hsize : size.toNat ≤ 2 ^ 64 - 8) :
    (fit_size size).toNat = fitted size.toNat := by
  have hround := toNat_adjust hsize
  have h24 : sizeofFreeArea.toNat = 24 := rfl
  have hmin : (HEAP_ADJUST_SIZE sizeofFreeArea).toNat = 24 := by decide
  simp only [fit_size, fitted]
  split_ifs with hlt
  · rw [BitVec.lt_def, hround, h24] at hlt
    omega
  · rw [BitVec.lt_def, hround, h24] at hlt
    omega

theorem fitted_mod : fitted n % 8 = 0 := by
  have := ceilNat_mod 8 n
  unfold fitted
  omega

theorem le_fitted : n ≤ fitted n := le_trans (le_ceilNat (by decide)) (Nat.le_max_right _ _)

/-- The first area with `n` bytes. -/
structure FirstFit (n : Nat) (ps : List (Span Nat)) (t : Span Nat) : Prop where
  small : ∀ u ∈ ps, len u < n
  fits : n ≤ len t

theorem find_fit.run (size : BitVec 64) (hg : Good qs) (hl : Linked h p qs 0) {fuel : Nat}
    (hfuel : qs.length < fuel) :
    ((∀ t ∈ qs, len t < size.toNat) ∧ find_fit h size fuel (first qs 0) = .ok 0) ∨
      ∃ ps t rs, qs = ps ++ t :: rs ∧ FirstFit size.toNat ps t ∧
        find_fit h size fuel (first qs 0) = .ok (header t) := by
  induction qs generalizing p fuel with
  | nil =>
    obtain _ | fuel := fuel
    · exact absurd hfuel (Nat.not_lt_zero _)
    exact .inl ⟨fun t ht => absurd ht List.not_mem_nil, if_pos rfl⟩
  | cons t ts ih =>
    obtain _ | fuel := fuel
    · exact absurd hfuel (Nat.not_lt_zero _)
    obtain ⟨⟨hsize, hnext, _⟩, hrest⟩ := hl
    have htest : size ≤ h.get (header t) .size ↔ size.toNat ≤ len t := by
      rw [hsize, BitVec.le_def, toNat_len (hg.area t List.mem_cons_self)]
    have hne : header t ≠ 0 := first_ne_zero (e := 0) hg
    by_cases hle : size.toNat ≤ len t
    · refine .inr ⟨[], t, ts, rfl, ⟨fun u hu => absurd hu List.not_mem_nil, hle⟩, ?_⟩
      exact (if_neg hne).trans (if_pos (htest.mpr hle))
    · have hgo : find_fit h size (fuel + 1) (header t) = find_fit h size fuel (first ts 0) :=
        (if_neg hne).trans ((if_neg (mt htest.mp hle)).trans
          (congrArg (find_fit h size fuel) hnext))
      rcases ih hg.tail hrest (Nat.lt_of_succ_lt_succ hfuel) with
        ⟨hsmall, hfound⟩ | ⟨ps, u, rs, rfl, hfit, hfound⟩
      · refine .inl ⟨fun u hu => ?_, hgo.trans hfound⟩
        rcases List.mem_cons.mp hu with rfl | hu
        · exact not_le.mp hle
        · exact hsmall u hu
      · refine .inr ⟨t :: ps, u, rs, rfl, ⟨fun v hv => ?_, hfit.fits⟩, hgo.trans hfound⟩
        rcases List.mem_cons.mp hv with rfl | hv
        · exact not_le.mp hle
        · exact hfit.small v hv

/-- A block is the front of the first area that is big enough, if there is one. -/
theorem __heap_alloc.spec (size : BitVec 64) (hh : IsHeap h ss) (hsize : size.toNat ≤ 2 ^ 64 - 8) :
    ((∀ t ∈ ss, len t < fitted size.toNat) ∧ __heap_alloc h size = .ok (0, size, h)) ∨
      ∃ ps t qs b h', ss = ps ++ t :: qs ∧ FirstFit (fitted size.toNat) ps t ∧
        Front (fitted size.toNat) t b ∧
        __heap_alloc h size = .ok (BitVec.ofNat 64 b.start, BitVec.ofNat 64 (len b), h') ∧
        IsHeap h' (ps ++ (t.behind b.stop ++ qs)) ∧ SameBut (cover ss) h.mem h'.mem := by
  have hfit := toNat_fit_size hsize
  rcases find_fit.run (fit_size size) hh.good hh.linked hh.good.fuel with
    ⟨hsmall, hfound⟩ | ⟨ps, t, qs, rfl, hfirst, hfound⟩
  · refine .inl ⟨hfit ▸ hsmall, ?_⟩
    rw [__heap_alloc, hh.heap, hfound]
    rfl
  · rw [hfit] at hfirst
    have hpos : 0 < fitted size.toNat := lt_of_lt_of_le (by decide) (Nat.le_max_left 24 _)
    obtain ⟨b, hb⟩ := exists_front hpos hfirst.fits
    have hmem : t ∈ ps ++ t :: qs := List.mem_append_right _ List.mem_cons_self
    have hat := hh.good.area t hmem
    have hrt := hh.good.room t hmem
    obtain ⟨h', halloc, hheap, hsame⟩ := __heap_free_area_alloc.spec hh hb fitted_mod
    obtain ⟨_, ⟨hsize', _, _⟩, _⟩ := hh.split
    refine .inr ⟨ps, t, qs, b, h', rfl, hfirst, hb, ?_, hheap, hsame⟩
    have hfit' : BitVec.ofNat 64 (fitted size.toNat) = fit_size size := by
      rw [← hfit, BitVec.ofNat_toNat, BitVec.setWidth_eq]
    rw [hfit'] at halloc
    rw [__heap_alloc, hh.heap, hfound]
    show (if header t = 0 then _ else _) = _
    rw [if_neg (header_ne_zero hat hrt)]
    show Except.ok (_, __heap_free_area_alloc h (header t) (fit_size size)) = _
    rw [halloc, heap_free_area_start hat hrt hsize', hb.start]

/-- The loop of `__heap_alloc_at` comes to an end without an area at areas that start
behind the address. -/
theorem alloc_at_loop.behind {mem : Addr} (hg : Good qs) (hl : Linked h p qs 0)
    (hlow : ∀ t ∈ qs, mem.toNat < t.start) {fuel : Nat} (hfuel : qs.length < fuel) :
    alloc_at_loop h mem size fuel (first qs 0) = .ok (0, h) := by
  induction qs generalizing p fuel with
  | nil =>
    obtain _ | fuel := fuel
    · exact absurd hfuel (Nat.not_lt_zero _)
    exact if_pos rfl
  | cons t ts ih =>
    obtain _ | fuel := fuel
    · exact absurd hfuel (Nat.not_lt_zero _)
    obtain ⟨⟨hsize, hnext, _⟩, hrest⟩ := hl
    have hat := hg.area t List.mem_cons_self
    have hstart : ¬ HEAP_FREE_AREA_START h (header t) ≤ mem := by
      rw [heap_free_area_start hat (hg.room t List.mem_cons_self) hsize, BitVec.le_def,
        toNat_start hat, not_le]
      exact hlow t List.mem_cons_self
    have hne : header t ≠ 0 := first_ne_zero (e := 0) hg
    calc alloc_at_loop h mem size (fuel + 1) (header t)
      _ = alloc_at_loop h mem size fuel (h.get (header t) .next) :=
        (if_neg hne).trans (if_neg hstart)
      _ = alloc_at_loop h mem size fuel (first ts 0) := by rw [hnext]
      _ = .ok (0, h) := ih hg.tail hrest (fun u hu => hlow u (List.mem_cons_of_mem _ hu))
        (Nat.lt_of_succ_lt_succ hfuel)

/-- Only the first area can be asked for. -/
theorem __heap_alloc_at.spec (mem : Addr) (size : BitVec 64) (hh : IsHeap h ss)
    (hsize : size.toNat ≤ 2 ^ 64 - 8) (hpos : 0 < size.toNat) :
    (∃ t qs b h', ss = t :: qs ∧ t.start = mem.toNat ∧ Front (ceilNat 8 size.toNat) t b ∧
      __heap_alloc_at h mem size = .ok (BitVec.ofNat 64 (len b), h') ∧
      IsHeap h' (t.behind b.stop ++ qs) ∧ SameBut (cover ss) h.mem h'.mem) ∨
    (∀ t qs, ss = t :: qs → t.start = mem.toNat → len t < size.toNat) ∧
      __heap_alloc_at h mem size = .ok (0, h) := by
  have hround := toNat_adjust hsize
  rw [__heap_alloc_at, hh.heap]
  cases ss with
  | nil => exact .inr ⟨nofun, if_pos rfl⟩
  | cons t qs =>
    have hat := hh.good.area t List.mem_cons_self
    have hrt := hh.good.room t List.mem_cons_self
    obtain ⟨⟨hsize', hnext, _⟩, hrest⟩ := hh.linked
    have hne : header t ≠ 0 := first_ne_zero (e := 0) hh.good
    have hstart := heap_free_area_start hat hrt hsize'
    have hmem : BitVec.ofNat 64 t.start = mem ↔ t.start = mem.toNat := by
      rw [← BitVec.toNat_inj, toNat_start hat]
    have hfits : HEAP_ADJUST_SIZE size ≤ h.get (header t) .size ↔ size.toNat ≤ len t := by
      rw [hsize', BitVec.le_def, hround, toNat_len hat]
      have hmod : len t % 8 = 0 := by
        have := hat.start
        have := hat.stop
        unfold len
        omega
      exact ⟨le_trans (le_ceilNat (by decide)), ceilNat_le (by decide) hmod⟩
    rcases lt_trichotomy mem.toNat t.start with hlt | heq | hgt
    · refine .inr ⟨?_, ?_⟩
      · rintro u us hu hstartu
        cases hu
        exact absurd hstartu (ne_of_gt hlt)
      · have hall : ∀ u ∈ t :: qs, mem.toNat < u.start := by
          intro u hu
          rcases List.mem_cons.mp hu with rfl | hu
          · exact hlt
          · exact lt_trans hlt (lt_trans t.nonempty ((List.pairwise_cons.mp hh.good.gapped).1 u hu))
        exact alloc_at_loop.behind hh.good hh.linked hall hh.good.fuel
    · have hle : HEAP_FREE_AREA_START h (header t) ≤ mem :=
        hstart.trans (hmem.mpr heq.symm) ▸ BitVec.le_refl _
      by_cases hlen : size.toNat ≤ len t
      · have hceil : ceilNat 8 size.toNat ≤ len t := by
          rw [← hround, ← toNat_len hat, ← hsize', ← BitVec.le_def]
          exact hfits.mpr hlen
        obtain ⟨b, hb⟩ := exists_front (lt_of_lt_of_le hpos (le_ceilNat (by decide))) hceil
        obtain ⟨h', halloc, hheap, hsame⟩ := __heap_free_area_alloc.spec
          (show IsHeap h ([] ++ t :: qs) from hh) hb (ceilNat_mod 8 _)
        rw [← hround, BitVec.ofNat_toNat, BitVec.setWidth_eq] at halloc
        refine .inl ⟨t, qs, b, h', rfl, heq.symm, hb, ?_, hheap, hsame⟩
        rw [← halloc]
        exact (if_neg hne).trans ((if_pos hle).trans
          (if_pos ⟨hstart.trans (hmem.mpr heq.symm), hfits.mpr hlen⟩))
      · refine .inr ⟨?_, ?_⟩
        · rintro u us hu _
          cases hu
          exact not_le.mp hlen
        · exact (if_neg hne).trans ((if_pos hle).trans
            (if_neg fun hin => hlen (hfits.mp hin.2)))
    · have hle : HEAP_FREE_AREA_START h (header t) ≤ mem := by
        rw [hstart, BitVec.le_def, toNat_start hat]
        exact le_of_lt hgt
      refine .inr ⟨?_, ?_⟩
      · rintro u us hu hstartu
        cases hu
        exact absurd hstartu (ne_of_lt hgt)
      · exact (if_neg hne).trans ((if_pos hle).trans
          (if_neg fun hin => absurd (hmem.mp (hstart.symm.trans hin.1)) (ne_of_lt hgt)))

end

/-! ## The check -/

section

variable {h : Heap} {ss : List (Span Nat)}

theorem and_granularity {x : BitVec 64} (hx : x.toNat % 8 = 0) :
    x &&& (HEAP_GRANULARITY - 1) = 0 := by
  apply BitVec.eq_of_toNat_eq
  rw [toNat_and_mask pageSize_granularity]
  exact hx

theorem check_loop.run {p : Addr} {qs : List (Span Nat)} (prev : Option (Span Nat))
    (hg : Good (prev.toList ++ qs)) (hp : p = last 0 prev.toList) (hl : Linked h p qs 0)
    {fuel : Nat} (hfuel : qs.length < fuel) : check_loop h fuel p (first qs 0) = true := by
  induction qs generalizing p prev fuel with
  | nil =>
    obtain _ | fuel := fuel
    · exact absurd hfuel (Nat.not_lt_zero _)
    exact if_pos rfl
  | cons t ts ih =>
    obtain _ | fuel := fuel
    · exact absurd hfuel (Nat.not_lt_zero _)
    obtain ⟨⟨hsize, hnext, hprev⟩, hrest⟩ := hl
    obtain ⟨hgp, hgq, hpq⟩ := good_append.mp hg
    have hat := hgq.area t List.mem_cons_self
    have hrt := hgq.room t List.mem_cons_self
    have hne : header t ≠ 0 := first_ne_zero (e := 0) hgq
    have hend := heap_free_area_end hat hrt
    have hstart := heap_free_area_start hat hrt hsize
    have haligned : ¬ (HEAP_FREE_AREA_END (header t) &&& (HEAP_GRANULARITY - 1) ≠ 0 ∨
        h.get (header t) .size &&& (HEAP_GRANULARITY - 1) ≠ 0) := by
      have := hat.start
      have := hat.stop
      rw [not_or, not_ne_iff, not_ne_iff, hend, hsize]
      refine ⟨and_granularity ?_, and_granularity ?_⟩
      · rw [toNat_stop hat]
        exact hat.stop
      · rw [toNat_len hat]
        unfold len
        omega
    have hgap : ¬ (p ≠ 0 ∧ HEAP_FREE_AREA_START h (header t) ≤ HEAP_FREE_AREA_END p) := by
      rintro ⟨hp0, hle⟩
      cases prev with
      | none => exact hp0 hp
      | some u =>
        have hau := hgp.area u List.mem_cons_self
        obtain rfl : p = header u := hp
        rw [hstart, heap_free_area_end hau (hgp.room u List.mem_cons_self),
          ofNat_le_iff hat.start_lt hau.stop_lt] at hle
        exact absurd (hpq u List.mem_cons_self t List.mem_cons_self) (not_lt.mpr hle)
    calc check_loop h (fuel + 1) p (header t)
      _ = check_loop h fuel (header t) (h.get (header t) .next) :=
        (if_neg hne).trans ((if_neg haligned).trans ((if_neg (not_not.mpr hprev)).trans
          (if_neg hgap)))
      _ = check_loop h fuel (header t) (first ts 0) := by rw [hnext]
      _ = true := ih (some t) hgq rfl hrest (Nat.lt_of_succ_lt_succ hfuel)

/-- The check finds nothing in a heap. -/
theorem __heap_check.spec (hh : IsHeap h ss) : __heap_check h = true := by
  have hrun := check_loop.run none hh.good rfl hh.linked hh.good.fuel
  have hfirst : ¬ (h.heap ≠ 0 ∧ h.get h.heap .prev ≠ 0) := by
    rintro ⟨hne, hprev⟩
    rw [hh.heap] at hne hprev
    cases ss with
    | nil => exact hne rfl
    | cons t ts => exact hprev hh.linked.1.2.2
  rw [__heap_check, if_neg hfirst, hh.heap]
  exact hrun

end

/-! ## Sequences of operations -/

/-- `__heap_free` for each of the blocks. -/
def free_all (h : Heap) : List (Span Nat) → Except Stop Heap
  | [] => .ok h
  | b :: bs => do
    let (_, h) ← __heap_free h (BitVec.ofNat 64 b.start) (BitVec.ofNat 64 (len b))
    free_all h bs

section

variable {h : Heap} {b : Span Nat} {ss bs : List (Span Nat)} {size : BitVec 64}

theorem free_all.run (hh : IsHeap h ss) (hbs : ∀ b ∈ bs, Area b ∧ 24 ≤ len b)
    (hfree : ∀ b ∈ bs, Free b ss) (hapart : bs.Pairwise fun a b => Disjoint a.cover b.cover) :
    ∃ h', free_all h bs = .ok h' ∧ IsHeap h' (putAll ss bs) ∧
      SameBut (cover (putAll ss bs)) h.mem h'.mem := by
  induction bs generalizing h ss with
  | nil => exact ⟨h, rfl, hh, SameBut.refl _ _⟩
  | cons b bs ih =>
    obtain ⟨hb, hroom⟩ := hbs b List.mem_cons_self
    obtain ⟨hfirst, hrest⟩ := List.pairwise_cons.mp hapart
    obtain ⟨fa, h1, hfree1, hfreed⟩ := __heap_free.spec hh hb hroom (hfree b List.mem_cons_self)
    obtain ⟨h2, hall, hheap, hsame⟩ := ih hfreed.isHeap
      (fun c hc => hbs c (List.mem_cons_of_mem _ hc))
      (fun c hc => free_put (hfree c (List.mem_cons_of_mem _ hc)) (hfirst c hc)) hrest
    refine ⟨h2, ?_, hheap, ?_⟩
    · rw [free_all, hfree1]
      exact hall
    · have hsub : cover (put b ss) ⊆ cover (putAll ss (b :: bs)) := by
        rw [cover_putAll, cover_put, cover_cons, Set.union_comm b.cover]
        exact Set.union_subset_union_right _ Set.subset_union_left
      exact (hfreed.kept.mono hsub).trans hsame

/-- Blocks that are freed in another order leave the same free areas. -/
theorem heap_free_any_order {bs' : List (Span Nat)} (hh : IsHeap h ss)
    (hbs : ∀ b ∈ bs, Area b ∧ 24 ≤ len b) (hfree : ∀ b ∈ bs, Free b ss)
    (hapart : bs.Pairwise fun a b => Disjoint a.cover b.cover) (hperm : bs.Perm bs') :
    ∃ h1 h2 ss', free_all h bs = .ok h1 ∧ free_all h bs' = .ok h2 ∧ IsHeap h1 ss' ∧
      IsHeap h2 ss' ∧ cover ss' = cover ss ∪ cover bs ∧ SameBut (cover ss') h.mem h1.mem ∧
      SameBut (cover ss') h.mem h2.mem := by
  obtain ⟨h1, hrun1, hheap1, hsame1⟩ := free_all.run hh hbs hfree hapart
  obtain ⟨h2, hrun2, hheap2, hsame2⟩ := free_all.run hh
    (fun b hb => hbs b (hperm.mem_iff.mpr hb)) (fun b hb => hfree b (hperm.mem_iff.mpr hb))
    ((hperm.pairwise_iff fun h => h.symm).mp hapart)
  have heq := putAll_perm hh.good.gapped hfree hapart hperm
  exact ⟨h1, h2, putAll ss bs, hrun1, hrun2, hheap1, heq ▸ hheap2, cover_putAll, hsame1,
    heq ▸ hsame2⟩

theorem isHeap_empty (m : Bytes) : IsHeap ⟨m, 0⟩ [] :=
  ⟨⟨List.Pairwise.nil, fun _ hs => absurd hs List.not_mem_nil,
    fun _ hs => absurd hs List.not_mem_nil⟩, rfl, trivial⟩

/-- A heap with one area of 256 bytes. -/
def oneArea : Heap := { mem := write64 (fun _ => 0) 4328 256, heap := 4328 }

theorem isHeap_oneArea : IsHeap oneArea [⟨4096, 4352, by decide⟩] := by
  have hzero : ∀ f : Field, f ≠ .size → oneArea.get 4328 f = 0 := by
    intro f hf
    refine (read64_write64_apart _ ?_).trans (read64_zero _)
    cases f with
    | size => exact absurd rfl hf
    | next => decide
    | prev => decide
  refine ⟨⟨List.pairwise_singleton _ _, ?_, ?_⟩, rfl, ⟨⟨?_, ?_, ?_⟩, trivial⟩⟩
  · intro s hs
    obtain rfl := List.mem_singleton.mp hs
    exact ⟨by decide, by decide, by decide, by decide⟩
  · intro s hs
    obtain rfl := List.mem_singleton.mp hs
    decide
  · exact read64_write64_self _ _ _
  · exact hzero .next (by decide)
  · exact hzero .prev (by decide)

/-- Two neighbours and a block behind a gap. -/
def threeBlocks : List (Span Nat) :=
  [⟨4096, 4128, by decide⟩, ⟨4128, 4160, by decide⟩, ⟨4200, 4224, by decide⟩]

theorem threeBlocks_areas : ∀ b ∈ threeBlocks, Area b ∧ 24 ≤ len b := by
  intro b hb
  rcases List.mem_cons.mp hb with rfl | hb
  · exact ⟨⟨by decide, by decide, by decide, by decide⟩, by decide⟩
  rcases List.mem_cons.mp hb with rfl | hb
  · exact ⟨⟨by decide, by decide, by decide, by decide⟩, by decide⟩
  obtain rfl := List.mem_singleton.mp hb
  exact ⟨⟨by decide, by decide, by decide, by decide⟩, by decide⟩

theorem threeBlocks_apart : threeBlocks.Pairwise fun a b => Disjoint a.cover b.cover := by
  refine List.Pairwise.imp (fun h => disjoint_of_stop_le h) ?_
  decide

theorem free_empty (b : Span Nat) : Free b [] := by
  unfold Free
  rw [cover_nil]
  exact Set.disjoint_empty _

theorem heap_free_any_order_three : ∃ h1 h2 ss', free_all ⟨fun _ => 0, 0⟩ threeBlocks = .ok h1 ∧
    free_all ⟨fun _ => 0, 0⟩ threeBlocks.reverse = .ok h2 ∧ IsHeap h1 ss' ∧ IsHeap h2 ss' ∧
    cover ss' = cover [] ∪ cover threeBlocks ∧ SameBut (cover ss') (fun _ => 0) h1.mem ∧
    SameBut (cover ss') (fun _ => 0) h2.mem :=
  heap_free_any_order (isHeap_empty _) threeBlocks_areas (fun b _ => free_empty b)
    threeBlocks_apart (List.reverse_perm _).symm

/-- A block that is freed at once leaves the free areas as they were. -/
theorem heap_free_undoes_alloc {mem : Addr} {n : BitVec 64} {h1 : Heap} (hh : IsHeap h ss)
    (hsize : size.toNat ≤ 2 ^ 64 - 8) (halloc : __heap_alloc h size = .ok (mem, n, h1))
    (hmem : mem ≠ 0) :
    ∃ fa h2, __heap_free h1 mem n = .ok (fa, h2) ∧ IsHeap h2 ss ∧
      SameBut (cover ss) h.mem h2.mem := by
  rcases __heap_alloc.spec size hh hsize with
    ⟨_, hnone⟩ | ⟨ps, t, qs, b, h', rfl, _, hb, hsome, hheap, hsame⟩
  · obtain ⟨hzero, _⟩ := Prod.mk.inj (Except.ok.inj (hnone.symm.trans halloc))
    exact absurd hzero.symm hmem
  · obtain ⟨rfl, hrest⟩ := Prod.mk.inj (Except.ok.inj (hsome.symm.trans halloc))
    obtain ⟨rfl, rfl⟩ := Prod.mk.inj hrest
    have hmemt : t ∈ ps ++ t :: qs := List.mem_append_right _ List.mem_cons_self
    have hfree : Free b (ps ++ (t.behind b.stop ++ qs)) := by
      unfold Free
      rw [hb.cover_eq hh.good]
      exact Set.disjoint_sdiff_right
    have hroom : 24 ≤ len b := le_trans (Nat.le_max_left 24 _) hb.le_len
    obtain ⟨fa, h2, hfree2, hfreed⟩ :=
      __heap_free.spec hheap (hb.area (hh.good.area t hmemt) fitted_mod) hroom hfree
    have hback := hb.put_eq hh.good
    exact ⟨fa, h2, hfree2, hback ▸ hfreed.isHeap, hsame.trans (hback ▸ hfreed.kept)⟩

theorem heap_free_undoes_alloc_oneArea : ∃ mem n h1 fa h2,
    __heap_alloc oneArea 100 = .ok (mem, n, h1) ∧ __heap_free h1 mem n = .ok (fa, h2) ∧
      IsHeap h2 [⟨4096, 4352, by decide⟩] := by
  rcases __heap_alloc.spec 100 isHeap_oneArea (by decide) with
    ⟨hsmall, _⟩ | ⟨_, t, _, b, h1, hsplit, _, hb, halloc, _, _⟩
  · exact absurd (hsmall _ List.mem_cons_self) (by decide)
  · have ht := isHeap_oneArea.good.area t (hsplit ▸ List.mem_append_right _ List.mem_cons_self)
    obtain ⟨fa, h2, hfree, hheap, _⟩ := heap_free_undoes_alloc isHeap_oneArea (by decide) halloc
      (by
        intro h0
        have hval := congrArg BitVec.toNat h0
        rw [toNat_start (hb.area ht (by decide))] at hval
        exact absurd (hb.start.symm.trans hval) (ne_of_gt ht.nonnull))
    exact ⟨_, _, h1, fa, h2, halloc, hfree, hheap⟩

/-- `__heap_alloc` takes the lowest place that is big enough, and no more than 55 bytes
too many. -/
theorem heap_alloc_lowest (size : BitVec 64) (hh : IsHeap h ss) (hsize : size.toNat ≤ 2 ^ 64 - 8) :
    ((∀ t ∈ ss, len t < fitted size.toNat) ∧ __heap_alloc h size = .ok (0, size, h)) ∨
      ∃ b h' ss', __heap_alloc h size =
          .ok (BitVec.ofNat 64 b.start, BitVec.ofNat 64 (len b), h') ∧
        fitted size.toNat ≤ len b ∧ len b < fitted size.toNat + 56 ∧ b.cover ⊆ cover ss ∧
        (∀ t ∈ ss, fitted size.toNat ≤ len t → b.start ≤ t.start) ∧ IsHeap h' ss' ∧
        cover ss' = cover ss \ b.cover ∧ SameBut (cover ss) h.mem h'.mem := by
  rcases __heap_alloc.spec size hh hsize with
    hnone | ⟨ps, t, qs, b, h', rfl, hfirst, hb, hsome, hheap, hsame⟩
  · exact .inl hnone
  have hmem : t ∈ ps ++ t :: qs := List.mem_append_right _ List.mem_cons_self
  have hshort : len b < fitted size.toNat + 56 := by
    rw [hb.len_eq, taken]
    split_ifs <;> omega
  have hsub : b.cover ⊆ cover (ps ++ t :: qs) := fun x hx =>
    cover_subset hmem ⟨hb.start ▸ hx.1, lt_of_lt_of_le hx.2 hb.stop_le⟩
  refine .inr ⟨b, h', _, hsome, hb.le_len, hshort, hsub, ?_, hheap, hb.cover_eq hh.good, hsame⟩
  intro u hu hfits
  rw [hb.start]
  rcases List.mem_append.mp hu with hu | hu
  · exact absurd (hfirst.small u hu) (not_lt.mpr hfits)
  rcases List.mem_cons.mp hu with rfl | hu
  · exact le_rfl
  · obtain ⟨_, hq, _⟩ := gapped_append.mp hh.good.gapped
    exact le_of_lt (lt_trans t.nonempty ((List.pairwise_cons.mp hq).1 u hu))

theorem heap_alloc_lowest_oneArea :
    ((∀ t ∈ [Span.mk 4096 4352 (by decide)], len t < fitted 100) ∧
      __heap_alloc oneArea 100 = .ok (0, 100, oneArea)) ∨
      ∃ b h' ss', __heap_alloc oneArea 100 =
          .ok (BitVec.ofNat 64 b.start, BitVec.ofNat 64 (len b), h') ∧
        fitted 100 ≤ len b ∧ len b < fitted 100 + 56 ∧
        b.cover ⊆ cover [Span.mk 4096 4352 (by decide)] ∧
        (∀ t ∈ [Span.mk 4096 4352 (by decide)], fitted 100 ≤ len t → b.start ≤ t.start) ∧
        IsHeap h' ss' ∧ cover ss' = cover [Span.mk 4096 4352 (by decide)] \ b.cover ∧
        SameBut (cover [Span.mk 4096 4352 (by decide)]) oneArea.mem h'.mem :=
  heap_alloc_lowest 100 isHeap_oneArea (by decide)

/-- Only the first free area can be extended into: `__heap_alloc_at` gives memory at `mem` if
and only if the first area starts there and is big enough. -/
theorem heap_alloc_at_first (mem : Addr) (size : BitVec 64) (hh : IsHeap h ss)
    (hsize : size.toNat ≤ 2 ^ 64 - 8) (hpos : 0 < size.toNat) :
    ∃ n h', __heap_alloc_at h mem size = .ok (n, h') ∧
      (n ≠ 0 ↔ ∃ t qs, ss = t :: qs ∧ t.start = mem.toNat ∧ size.toNat ≤ len t) ∧
      (n = 0 → h' = h) ∧ (n ≠ 0 → size.toNat ≤ n.toNat ∧ ∃ ss', IsHeap h' ss' ∧
        cover ss' = cover ss \ Set.Ico mem.toNat (mem.toNat + n.toNat)) := by
  rcases __heap_alloc_at.spec mem size hh hsize hpos with
    ⟨t, qs, b, h', rfl, hstart, hb, halloc, hheap, _⟩ | ⟨hno, hnone⟩
  · have hle : size.toNat ≤ ceilNat 8 size.toNat := le_ceilNat (by decide)
    have hb' := hb.area (hh.good.area t List.mem_cons_self) (ceilNat_mod 8 _)
    have hlen := toNat_len hb'
    have hlong := hb.le_len
    have hne : BitVec.ofNat 64 (len b) ≠ 0 := by
      intro h0
      rw [h0] at hlen
      have hzero : (0 : BitVec 64).toNat = 0 := rfl
      omega
    have hfits := hb.fits
    refine ⟨_, h', halloc, iff_of_true hne ⟨t, qs, rfl, hstart, by omega⟩, fun h0 => absurd h0 hne,
      fun _ => ⟨by omega, _, hheap, ?_⟩⟩
    rw [hlen, ← hstart, ← hb.start, start_add_len]
    exact hb.cover_eq (show Good ([] ++ t :: qs) from hh.good)
  · refine ⟨0, h, hnone, iff_of_false (fun hne => hne rfl) ?_, fun _ => rfl, fun hne =>
      absurd rfl hne⟩
    rintro ⟨t, qs, rfl, hstart, hle⟩
    exact absurd (hno t qs rfl hstart) (not_lt.mpr hle)

theorem heap_alloc_at_first_oneArea : ∃ n h', __heap_alloc_at oneArea 4096 64 = .ok (n, h') ∧
    n ≠ 0 := by
  obtain ⟨n, h', halloc, hiff, _⟩ := heap_alloc_at_first 4096 64
    isHeap_oneArea (by decide) (by decide)
  exact ⟨n, h', halloc, hiff.mpr ⟨_, [], rfl, rfl, by decide⟩⟩

/-- The loop of `__heap_free` never stops behind an area that ends where the block starts. So
the branch that joins the block with the area in front and the one behind is never taken. -/
theorem heap_free_never_joins_prev (hh : IsHeap h ss) (hb : Area b) :
    ∃ prev fa, find_place h (BitVec.ofNat 64 b.start) (2 ^ 64) 0 h.heap = .ok (prev, fa) ∧
      ¬ (prev ≠ 0 ∧ BitVec.ofNat 64 b.start = HEAP_FREE_AREA_END prev) := by
  obtain ⟨ps, qs, rfl, hplace, hfound⟩ := find_place.run hb hh.good hh.linked hh.good.fuel
  obtain ⟨hgp, _, _⟩ := good_append.mp hh.good
  rw [hh.heap]
  exact ⟨_, _, hfound, hplace.prev_apart hb hgp⟩

theorem heap_free_never_joins_prev_oneArea :
    ∃ prev fa, find_place oneArea (BitVec.ofNat 64 4352) (2 ^ 64) 0 oneArea.heap = .ok (prev, fa) ∧
      ¬ (prev ≠ 0 ∧ BitVec.ofNat 64 4352 = HEAP_FREE_AREA_END prev) :=
  heap_free_never_joins_prev (b := ⟨4352, 4400, by decide⟩) isHeap_oneArea
    ⟨by decide, by decide, by decide, by decide⟩

end

end elf_loader.malloc
