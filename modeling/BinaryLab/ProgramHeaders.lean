-- What the loop over the program headers in `loader_main` finds out about a
-- program that the kernel has started: its bias, its dynamic section and its
-- place in memory. The loop takes the bias from the address of the `PT_PHDR`
-- entry, where it should take the address of the table.
import BinaryLab.Startup

set_option linter.style.nameCheck false

open binary_lab.runs binary_lab.words binary_lab.pages

namespace elf_loader.rtld

open load reloc

/-! ## A running extremum -/

/-- `m` is the best, by the order `r`, of `start` and the values of `f` on `xs`. -/
structure Best {α : Type} (r : Addr → Addr → Prop) (f : α → Addr) (xs : List α)
    (start m : Addr) : Prop where
  le_start : r m start
  all : ∀ x ∈ xs, r m (f x)
  attained : m = start ∨ ∃ x ∈ xs, m = f x

section

variable {α : Type} {r : Addr → Addr → Prop} {f : α → Addr} {xs ys : List α}
  {start mid m : Addr}

theorem Best.nil (hrefl : r start start) : Best r f [] start start :=
  ⟨hrefl, by simp, Or.inl rfl⟩

theorem Best.append (htrans : ∀ a b c, r a b → r b c → r a c) (h1 : Best r f xs start mid)
    (h2 : Best r f ys mid m) : Best r f (xs ++ ys) start m := by
  refine ⟨htrans _ _ _ h2.le_start h1.le_start, ?_, ?_⟩
  · intro x hx
    rcases List.mem_append.mp hx with hx | hx
    · exact htrans _ _ _ h2.le_start (h1.all x hx)
    · exact h2.all x hx
  · rcases h2.attained with rfl | ⟨y, hy, rfl⟩
    · rcases h1.attained with rfl | ⟨x, hx, rfl⟩
      · exact Or.inl rfl
      · exact Or.inr ⟨x, List.mem_append_left _ hx, rfl⟩
    · exact Or.inr ⟨y, List.mem_append_right _ hy, rfl⟩

/-- The step of a running minimum. -/
theorem Best.min (x : α) (a : Addr) :
    Best (· ≤ ·) f [x] a (if a > f x then f x else a) := by
  split_ifs with h
  · exact ⟨BitVec.le_of_lt h, by simp, by simp⟩
  · exact ⟨BitVec.le_refl _, by simpa using h, Or.inl rfl⟩

/-- The step of a running maximum. -/
theorem Best.max (x : α) (a : Addr) :
    Best (· ≥ ·) f [x] a (if a < f x then f x else a) := by
  split_ifs with h
  · exact ⟨BitVec.le_of_lt h, by simp, by simp⟩
  · exact ⟨BitVec.le_refl _, by simpa using h, Or.inl rfl⟩

/-- The best of the list alone, when the start is no better than anything. -/
theorem Best.eq (hanti : ∀ a b, r a b → r b a → a = b) (h : Best r f xs start m)
    (hstart : ∀ a, r a start) {x : α} (hx : x ∈ xs) (hbest : ∀ y ∈ xs, r (f x) (f y)) :
    m = f x := by
  apply hanti _ _ (h.all x hx)
  rcases h.attained with rfl | ⟨y, hy, rfl⟩
  · exact hstart _
  · exact hbest y hy

end

/-! ## The place of a program in memory -/

/-- The `PT_LOAD` entries that are executable. -/
def executables (phdr : List Phdr) : List Phdr :=
  (loadSegments phdr).filter (·.p_flags &&& PF_X ≠ 0)

/-- The `PT_DYNAMIC` entry, the last one if there are more. -/
def dynamicOf (phdr : List Phdr) : Option Phdr :=
  (phdr.filter (·.p_type = PT_DYNAMIC)).getLast?

/-- `l` describes the program with the headers `phdr` at bias `b`. Ends are
compared as numbers, for they may be as large as 2^64. -/
structure Recovered (ps b : Addr) (phdr : List Phdr) (l : LinkMap) : Prop where
  addr : l.l_addr = b
  ld : ∀ ph, dynamicOf phdr = some ph → l.l_ld = b + ph.p_vaddr
  map_start : ∀ ph ∈ loadSegments phdr,
    (∀ q ∈ loadSegments phdr, alignDown ps ph.p_vaddr ≤ alignDown ps q.p_vaddr) →
    l.l_map_start = b + alignDown ps ph.p_vaddr
  map_end : ∀ ph ∈ loadSegments phdr,
    (∀ q ∈ loadSegments phdr,
      q.p_vaddr.toNat + q.p_memsz.toNat ≤ ph.p_vaddr.toNat + ph.p_memsz.toNat) →
    l.l_map_end = b + (ph.p_vaddr + ph.p_memsz)
  text_end : ∀ ph ∈ executables phdr,
    (∀ q ∈ executables phdr,
      q.p_vaddr.toNat + q.p_memsz.toNat ≤ ph.p_vaddr.toNat + ph.p_memsz.toNat) →
    l.l_text_end = b + (ph.p_vaddr + ph.p_memsz)

/-- At bias `b` every `PT_LOAD` entry lies inside the address space. The bias
may be negative, as a number. -/
def FitsAt (ps b : Addr) (phdr : List Phdr) : Prop :=
  ∃ bias : Int, b = BitVec.ofInt 64 bias ∧ ∀ ph ∈ loadSegments phdr,
    0 ≤ bias + (alignDown ps ph.p_vaddr).toNat ∧
    bias + ph.p_vaddr.toNat + ph.p_memsz.toNat < 2 ^ 64

/-- The program headers that the kernel tells of. -/
def programHeaders (pi : ProgramInfo) (w : Rtld) : List Phdr :=
  phdrsAt w.mem pi.phdr pi.phnum.toNat

/-- The kernel has loaded the program at bias `b` and has started the loader
for it. One of its program headers is `PT_PHDR`, and tells where the table is. -/
structure LoadedAt (sym : Symbols) (pi : ProgramInfo) (w : Rtld) (b : Addr) : Prop where
  not_loader : pi.entry ≠ sym._start
  at_phdr : ∃ before ph after, programHeaders pi w = before ++ ph :: after ∧
    ph.p_type = PT_PHDR ∧ (∀ q ∈ before ++ after, q.p_type ≠ PT_PHDR) ∧
    pi.phdr = b + ph.p_vaddr
  fits : FitsAt w._dl_pagesize b (programHeaders pi w)

/-! ## What the loop computes at a known load address -/

/-- `l'` is `l` after the entries `phdr`, all of them read at the load address `b`. -/
structure Extended (ps b : Addr) (phdr : List Phdr) (l l' : LinkMap) : Prop where
  addr : l'.l_addr = b
  ld : l'.l_ld = (dynamicOf phdr).elim l.l_ld (b + ·.p_vaddr)
  map_start : Best (· ≤ ·) (fun ph => b + alignDown ps ph.p_vaddr) (loadSegments phdr)
    l.l_map_start l'.l_map_start
  map_end : Best (· ≥ ·) (fun ph => b + ph.p_vaddr + ph.p_memsz) (loadSegments phdr)
    l.l_map_end l'.l_map_end
  text_end : Best (· ≥ ·) (fun ph => b + ph.p_vaddr + ph.p_memsz) (executables phdr)
    l.l_text_end l'.l_text_end

section

variable {ps b : Addr} {l l1 l2 : LinkMap}

theorem Extended.append {xs ys : List Phdr} (h1 : Extended ps b xs l l1)
    (h2 : Extended ps b ys l1 l2) : Extended ps b (xs ++ ys) l l2 := by
  have hle : ∀ a b c : Addr, a ≤ b → b ≤ c → a ≤ c := fun _ _ _ => BitVec.le_trans
  have hge : ∀ a b c : Addr, a ≥ b → b ≥ c → a ≥ c := fun _ _ _ h h' => BitVec.le_trans h' h
  refine ⟨h2.addr, ?_, ?_, ?_, ?_⟩
  · rw [h2.ld, h1.ld, dynamicOf, dynamicOf, dynamicOf, List.filter_append, List.getLast?_append]
    cases (ys.filter (·.p_type = PT_DYNAMIC)).getLast? <;> rfl
  · rw [loadSegments, List.filter_append]
    exact h1.map_start.append hle h2.map_start
  · rw [loadSegments, List.filter_append]
    exact h1.map_end.append hge h2.map_end
  · rw [executables, loadSegments, List.filter_append, List.filter_append]
    exact h1.text_end.append hge h2.text_end

/-- An entry that is no segment and no dynamic section says nothing about the place. -/
theorem Extended.other {ph : Phdr} (hdyn : ph.p_type ≠ PT_DYNAMIC) (hload : ph.p_type ≠ PT_LOAD)
    (haddr : l1.l_addr = b) (hld : l1.l_ld = l.l_ld) (hstart : l1.l_map_start = l.l_map_start)
    (hend : l1.l_map_end = l.l_map_end) (htext : l1.l_text_end = l.l_text_end) :
    Extended ps b [ph] l l1 := by
  have hloads : loadSegments [ph] = [] := List.filter_cons_of_neg (by simpa using hload)
  have hdyns : dynamicOf [ph] = none := by
    rw [dynamicOf, List.filter_cons_of_neg (by simpa using hdyn)]
    rfl
  refine ⟨haddr, ?_, ?_, ?_, ?_⟩
  · rw [hdyns, hld]
    rfl
  · rw [hloads, hstart]
    exact .nil (BitVec.le_refl _)
  · rw [hloads, hend]
    exact .nil (BitVec.le_refl _)
  · rw [executables, hloads, htext]
    exact .nil (BitVec.le_refl _)

theorem scan_load_extended {ph : Phdr} (hload : ph.p_type = PT_LOAD) :
    Extended ps l.l_addr [ph] l (scan_load ps l ph) := by
  have hloads : loadSegments [ph] = [ph] := List.filter_cons_of_pos (by simpa using hload)
  have hdyns : dynamicOf [ph] = none := by
    rw [dynamicOf, List.filter_cons_of_neg (by rw [hload]; decide)]
    rfl
  refine ⟨(scan_load_scanned ps l ph).2, ?_, ?_, ?_, ?_⟩
  · rw [hdyns, scan_load]
    split_ifs <;> rfl
  · rw [hloads]
    have hstart : (scan_load ps l ph).l_map_start =
        if l.l_map_start > l.l_addr + alignDown ps ph.p_vaddr
        then l.l_addr + alignDown ps ph.p_vaddr else l.l_map_start := by
      rw [scan_load]
      split_ifs <;> rfl
    rw [hstart]
    exact Best.min ph l.l_map_start
  · rw [hloads]
    have hend : (scan_load ps l ph).l_map_end =
        if l.l_map_end < l.l_addr + ph.p_vaddr + ph.p_memsz
        then l.l_addr + ph.p_vaddr + ph.p_memsz else l.l_map_end := by
      rw [scan_load]
      split_ifs <;> rfl
    rw [hend]
    exact Best.max ph l.l_map_end
  · rw [executables, hloads]
    by_cases hexec : ph.p_flags &&& PF_X ≠ 0
    · rw [List.filter_cons_of_pos (by simpa using hexec)]
      have htext : (scan_load ps l ph).l_text_end =
          if l.l_text_end < l.l_addr + ph.p_vaddr + ph.p_memsz
          then l.l_addr + ph.p_vaddr + ph.p_memsz else l.l_text_end := by
        simp only [scan_load, hexec, ne_eq, not_false_eq_true, true_and]
        split_ifs <;> rfl
      rw [htext]
      exact Best.max ph l.l_text_end
    · rw [List.filter_cons_of_neg (by simpa using hexec)]
      have htext : (scan_load ps l ph).l_text_end = l.l_text_end := by
        simp only [scan_load, hexec, false_and, if_false]
        split_ifs <;> rfl
      rw [htext]
      exact .nil (BitVec.le_refl _)

theorem scan_entry_extended {addr : Addr} {ph : Phdr} {st st' : Scan}
    (h : scan_entry ps st addr ph = .ok st') (hphdr : ph.p_type ≠ PT_PHDR) :
    Extended ps st.l.l_addr [ph] st.l st'.l := by
  rw [scan_entry, if_neg hphdr] at h
  by_cases hdyn : ph.p_type = PT_DYNAMIC
  · rw [if_pos hdyn] at h
    cases h
    have hloads : loadSegments [ph] = [] := List.filter_cons_of_neg (by rw [hdyn]; decide)
    have hdyns : dynamicOf [ph] = some ph := by
      rw [dynamicOf, List.filter_cons_of_pos (by simpa using hdyn)]
      rfl
    refine ⟨rfl, ?_, ?_, ?_, ?_⟩
    · rw [hdyns]
      rfl
    · rw [hloads]
      exact .nil (BitVec.le_refl _)
    · rw [hloads]
      exact .nil (BitVec.le_refl _)
    · rw [executables, hloads]
      exact .nil (BitVec.le_refl _)
  · rw [if_neg hdyn] at h
    by_cases hload : ph.p_type = PT_LOAD
    · rw [if_pos hload] at h
      cases h
      exact scan_load_extended hload
    · rw [if_neg hload] at h
      split_ifs at h
      all_goals
        cases h
        exact .other hdyn hload rfl rfl rfl rfl rfl

/-- Without `PT_PHDR` the load address stays, and every entry is read at it. -/
theorem scan_loop_extended {addr : Addr} {phs : List Phdr} {st st' : Scan}
    (h : scan_loop ps st addr phs = .ok st') (hphdr : ∀ ph ∈ phs, ph.p_type ≠ PT_PHDR) :
    Extended ps st.l.l_addr phs st.l st'.l := by
  induction phs generalizing st addr with
  | nil =>
    cases h
    exact ⟨rfl, rfl, .nil (BitVec.le_refl _), .nil (BitVec.le_refl _), .nil (BitVec.le_refl _)⟩
  | cons ph phs ih =>
    rw [scan_loop, bind_eq_ok] at h
    obtain ⟨st1, h1, h2⟩ := h
    have hentry := scan_entry_extended h1 (hphdr ph List.mem_cons_self)
    have hrest := ih h2 fun q hq => hphdr q (List.mem_cons_of_mem _ hq)
    rw [hentry.addr] at hrest
    exact hentry.append hrest

end

/-! ## From the load address to the place -/

/-- The number of an address at the bias. -/
theorem toNat_ofInt_add (bias : Int) (x : Addr) (h0 : 0 ≤ bias + x.toNat)
    (h1 : bias + x.toNat < 2 ^ 64) : ((BitVec.ofInt 64 bias + x).toNat : Int) = bias + x.toNat := by
  rw [BitVec.toNat_add, BitVec.toNat_ofInt]
  omega

theorem alignDown_le (ps x : Addr) : (alignDown ps x).toNat ≤ x.toNat := by
  rw [alignDown, BitVec.toNat_and]
  exact Nat.and_le_left

section

variable {ps b : Addr} {phdr : List Phdr} {l l' : LinkMap}

section

variable {bias : Int} {ph q : Phdr}
  (hfits : ∀ ph ∈ loadSegments phdr, 0 ≤ bias + (alignDown ps ph.p_vaddr).toNat ∧
    bias + ph.p_vaddr.toNat + ph.p_memsz.toNat < 2 ^ 64)
  (hph : ph ∈ loadSegments phdr) (hq : q ∈ loadSegments phdr)

include hfits hph hq

/-- What fits at the bias keeps its order there. -/
theorem ends_at_bias
    (hle : q.p_vaddr.toNat + q.p_memsz.toNat ≤ ph.p_vaddr.toNat + ph.p_memsz.toNat) :
    BitVec.ofInt 64 bias + q.p_vaddr + q.p_memsz ≤
      BitVec.ofInt 64 bias + ph.p_vaddr + ph.p_memsz := by
  have hends : ∀ ph ∈ loadSegments phdr,
      ((BitVec.ofInt 64 bias + ph.p_vaddr + ph.p_memsz).toNat : Int) =
        bias + (ph.p_vaddr.toNat + ph.p_memsz.toNat) := by
    intro ph hph
    obtain ⟨h0, h1⟩ := hfits ph hph
    have := alignDown_le ps ph.p_vaddr
    have hbase := toNat_ofInt_add bias ph.p_vaddr (by omega) (by omega)
    rw [BitVec.toNat_add]
    omega
  have hph := hends ph hph
  have hq := hends q hq
  rw [BitVec.le_def]
  omega

theorem starts_at_bias
    (hle : alignDown ps ph.p_vaddr ≤ alignDown ps q.p_vaddr) :
    BitVec.ofInt 64 bias + alignDown ps ph.p_vaddr ≤
      BitVec.ofInt 64 bias + alignDown ps q.p_vaddr := by
  have hstarts : ∀ ph ∈ loadSegments phdr,
      ((BitVec.ofInt 64 bias + alignDown ps ph.p_vaddr).toNat : Int) =
        bias + (alignDown ps ph.p_vaddr).toNat := by
    intro ph hph
    obtain ⟨h0, h1⟩ := hfits ph hph
    have := alignDown_le ps ph.p_vaddr
    exact toNat_ofInt_add _ _ h0 (by omega)
  have hph := hstarts ph hph
  have hq := hstarts q hq
  rw [BitVec.le_def] at hle ⊢
  omega

end

/-- The place of a map that had none before. -/
theorem Extended.recovered (h : Extended ps b phdr l l') (hfits : FitsAt ps b phdr)
    (hstart : l.l_map_start = ~~~0) (hend : l.l_map_end = 0) (htext : l.l_text_end = 0) :
    Recovered ps b phdr l' := by
  obtain ⟨bias, rfl, hfits⟩ := hfits
  have hge : ∀ a b : Addr, a ≥ b → b ≥ a → a = b := fun _ _ h1 h2 => BitVec.le_antisymm h2 h1
  have hzero : ∀ a : Addr, a ≥ 0 := fun a => Nat.zero_le _
  refine ⟨h.addr, ?_, ?_, ?_, ?_⟩
  · intro ph hph
    rw [h.ld, hph]
    rfl
  · intro ph hph hleast
    refine Best.eq (fun _ _ => BitVec.le_antisymm) h.map_start ?_ hph ?_
    · intro a
      rw [hstart, BitVec.le_def]
      exact Nat.le_pred_of_lt a.isLt
    · intro q hq
      exact starts_at_bias hfits hph hq (hleast q hq)
  · intro ph hph hgreatest
    rw [← BitVec.add_assoc]
    refine Best.eq hge h.map_end (hend ▸ hzero) hph ?_
    intro q hq
    exact ends_at_bias hfits hph hq (hgreatest q hq)
  · intro ph hph hgreatest
    rw [← BitVec.add_assoc]
    refine Best.eq hge h.text_end (htext ▸ hzero) hph ?_
    intro q hq
    exact ends_at_bias hfits (List.mem_of_mem_filter hph) (List.mem_of_mem_filter hq)
      (hgreatest q hq)

end

/-! ## The address of `PT_PHDR` -/

/-- The entry at index `i` is `i` entries behind the start of the table, and
its address is what the load address is computed from. -/
theorem scan_loop_addr {ps addr : Addr} {before after : List Phdr} {ph : Phdr} {st st' : Scan}
    (h : scan_loop ps st addr (before ++ ph :: after) = .ok st') (hphdr : ph.p_type = PT_PHDR)
    (hafter : ∀ q ∈ after, q.p_type ≠ PT_PHDR) :
    st'.l.l_addr = addr + BitVec.ofNat 64 (before.length * sizeofPhdr) - ph.p_vaddr := by
  induction before generalizing addr st with
  | nil =>
    rw [List.nil_append, scan_loop, bind_eq_ok] at h
    obtain ⟨st1, h1, h2⟩ := h
    rw [(scan_loop_scanned h2).2 hafter, (scan_entry_scanned h1).2, if_pos hphdr, List.length_nil,
      Nat.zero_mul]
    exact (BitVec.add_zero addr).symm ▸ rfl
  | cons q before ih =>
    rw [List.cons_append, scan_loop, bind_eq_ok] at h
    obtain ⟨st1, _, h2⟩ := h
    rw [ih h2, List.length_cons, Nat.add_mul, Nat.one_mul, Nat.add_comm _ sizeofPhdr,
      BitVec.ofNat_add, BitVec.add_assoc]

/-- A load address that is too large by a number of entries is right only if there are none. -/
theorem eq_nil_of_shift {b v : Addr} {before : List Phdr} (hlen : before.length < 2 ^ 16)
    (h : b + v + BitVec.ofNat 64 (before.length * sizeofPhdr) - v = b) : before = [] := by
  have hlt : before.length * sizeofPhdr < 2 ^ 64 := by
    unfold sizeofPhdr
    omega
  have hshift : BitVec.ofNat 64 (before.length * sizeofPhdr) = 0 := by
    rw [BitVec.add_assoc, BitVec.add_comm v, ← BitVec.add_assoc, BitVec.add_sub_cancel] at h
    exact BitVec.add_right_eq_self.mp h
  have hnat := congrArg BitVec.toNat hshift
  rw [BitVec.toNat_ofNat, Nat.mod_eq_of_lt hlt] at hnat
  exact List.length_eq_zero_iff.mp ((Nat.mul_eq_zero.mp hnat).resolve_right (by decide))

/-- From `PT_PHDR` on, at the address where the bias puts it, every entry is read at the bias. -/
theorem scan_loop_from_phdr {ps b : Addr} {ph : Phdr} {after : List Phdr} {st st' : Scan}
    (h : scan_loop ps st (b + ph.p_vaddr) (ph :: after) = .ok st') (htype : ph.p_type = PT_PHDR)
    (hafter : ∀ q ∈ after, q.p_type ≠ PT_PHDR) : Extended ps b (ph :: after) st.l st'.l := by
  have hdyn : ph.p_type ≠ PT_DYNAMIC := by rw [htype]; decide
  have hload : ph.p_type ≠ PT_LOAD := by rw [htype]; decide
  rw [scan_loop, bind_eq_ok] at h
  obtain ⟨st1, hentry, hrest⟩ := h
  rw [scan_entry, if_pos htype, BitVec.add_sub_cancel] at hentry
  cases hentry
  have hfirst : Extended ps b [ph] st.l { st.l with l_addr := b } :=
    .other hdyn hload rfl rfl rfl rfl rfl
  exact hfirst.append (scan_loop_extended hrest hafter)

/-- The map of the program is right if and only if `PT_PHDR` is the first
program header. The ELF format only says that it comes before every `PT_LOAD`. -/
theorem the_main_program_is_recovered_iff_its_phdr_is_first (host : Host) (sym : Symbols)
    (pi : ProgramInfo) (w w' : Rtld) (b : Addr) (rtld : Ptr) (hloaded : LoadedAt sym pi w b)
    (hscan : scan_program host sym pi w = .ok (rtld, w')) :
    (∃ l, w'.maps[rtld]? = some l ∧
      Recovered w._dl_pagesize b (programHeaders pi w) l) ↔
    (programHeaders pi w).head?.map Phdr.p_type = some PT_PHDR := by
  obtain ⟨before, ph, after, htable, htype, honly, hphdr⟩ := hloaded.at_phdr
  obtain ⟨rfl, scan, _, hloop, rfl⟩ := scan_program_ok hscan
  have hafter : ∀ q ∈ after, q.p_type ≠ PT_PHDR :=
    fun q hq => honly q (List.mem_append_right _ hq)
  rw [← programHeaders, htable, hphdr] at hloop
  constructor
  · rintro ⟨l, hl, hrec⟩
    rw [List.getElem?_concat_length] at hl
    cases hl
    have hlen : before.length < 2 ^ 16 := by
      have hlen := congrArg List.length htable
      have := pi.phnum.isLt
      simp only [programHeaders, phdrsAt, List.length_map, List.length_range, List.length_append]
        at hlen
      omega
    have haddr := scan_loop_addr hloop htype hafter
    rw [htable, eq_nil_of_shift hlen (haddr.symm.trans hrec.addr)]
    simp [htype]
  · intro hfirst
    have hnil : before = [] := by
      cases before with
      | nil => rfl
      | cons q before =>
        rw [htable] at hfirst
        exact absurd (Option.some.inj hfirst) (honly q (by simp))
    rw [hnil, List.nil_append] at htable hloop
    refine ⟨scan.l, List.getElem?_concat_length, ?_⟩
    have hfits := hloaded.fits
    rw [htable] at hfits ⊢
    apply (scan_loop_from_phdr hloop htype hafter).recovered hfits
    all_goals
      rw [rtld_map, if_neg hloaded.not_loader]
      rfl

/-- A program at the address 0x5000, with these program headers in memory. -/
def headersWorld (phdr : List Phdr) : Rtld :=
  { programWorld with
    proc :=
      { space :=
        { byte := fun a => (phdr.map phdrBytes).flatten.getD (a - 0x5040).toNat 0
          prot := fun _ => none
          backed := fun _ => false }
        calls := 0 } }

def headersInfo : ProgramInfo := { programInfo with phnum := 3 }

/-- The usual order. -/
def usualHeaders : List Phdr := [programPhdr, libraryText, libraryDynamic]

/-- `PT_PHDR` comes before the `PT_LOAD` entry, behind `PT_DYNAMIC`. -/
def laterHeaders : List Phdr := [libraryDynamic, programPhdr, libraryText]

theorem usualHeaders_read :
    programHeaders headersInfo (headersWorld usualHeaders) = usualHeaders := by decide +kernel

theorem laterHeaders_read :
    programHeaders headersInfo (headersWorld laterHeaders) = laterHeaders := by decide +kernel

theorem usualHeaders_loaded :
    LoadedAt loaderSymbols headersInfo (headersWorld usualHeaders) 0x5000 where
  not_loader := by decide
  at_phdr := ⟨[], programPhdr, [libraryText, libraryDynamic], usualHeaders_read, rfl, by decide,
    rfl⟩
  fits := by
    rw [usualHeaders_read]
    exact ⟨0x5000, rfl, by decide⟩

theorem laterHeaders_loaded :
    LoadedAt loaderSymbols headersInfo (headersWorld laterHeaders) 0x5000 where
  not_loader := by decide
  at_phdr := ⟨[libraryDynamic], programPhdr, [libraryText], laterHeaders_read, rfl, by decide, rfl⟩
  fits := by
    rw [laterHeaders_read]
    exact ⟨0x5000, rfl, by decide⟩

/-- The scan of a table without `PT_TLS` comes to its end. -/
theorem scan_loop_ends {ps addr : Addr} {phs : List Phdr} (st : Scan)
    (htls : ∀ ph ∈ phs, ph.p_type ≠ PT_TLS) : ∃ st', scan_loop ps st addr phs = .ok st' := by
  induction phs generalizing st addr with
  | nil => exact ⟨st, rfl⟩
  | cons ph phs ih =>
    have hentry : ∃ st1, scan_entry ps st addr ph = .ok st1 := by
      have htls := htls ph List.mem_cons_self
      unfold scan_entry
      split_ifs
      all_goals exact ⟨_, rfl⟩
    obtain ⟨st1, hentry⟩ := hentry
    obtain ⟨st2, hrest⟩ := ih st1 fun q hq => htls q (List.mem_cons_of_mem _ hq)
    exact ⟨st2, by rw [scan_loop, hentry]; exact hrest⟩

theorem scan_program_ends (host : Host) (sym : Symbols) (pi : ProgramInfo) (w : Rtld)
    (htls : ∀ ph ∈ programHeaders pi w, ph.p_type ≠ PT_TLS) :
    ∃ rtld w', scan_program host sym pi w = .ok (rtld, w') := by
  obtain ⟨scan, hscan⟩ := scan_loop_ends
    { l := rtld_map host sym pi w, _dl_stack_flags := w._dl_stack_flags } htls
  rw [programHeaders] at hscan
  exact ⟨_, _, by rw [scan_program, hscan]; rfl⟩

theorem a_program_with_the_usual_headers_is_recovered :
    ∃ rtld w', scan_program programHost loaderSymbols headersInfo (headersWorld usualHeaders) =
        .ok (rtld, w') ∧
      ((∃ l, w'.maps[rtld]? = some l ∧ Recovered 0x1000 0x5000
          (programHeaders headersInfo (headersWorld usualHeaders)) l) ↔
        (programHeaders headersInfo (headersWorld usualHeaders)).head?.map Phdr.p_type =
          some PT_PHDR) := by
  obtain ⟨rtld, w', hscan⟩ := scan_program_ends programHost loaderSymbols
    headersInfo (headersWorld usualHeaders) (by rw [usualHeaders_read]; decide)
  exact ⟨rtld, w', hscan, the_main_program_is_recovered_iff_its_phdr_is_first _ _ _ _ _ _ _
    usualHeaders_loaded hscan⟩

/-- A program at 0x5000 whose `PT_PHDR` is the second entry is taken to be at 0x5038. -/
theorem a_program_with_a_later_phdr_gets_a_wrong_address :
    LoadedAt loaderSymbols headersInfo (headersWorld laterHeaders) 0x5000 ∧
    (∃ before after,
      programHeaders headersInfo (headersWorld laterHeaders) = before ++ programPhdr :: after ∧
      ∀ q ∈ before, q.p_type ≠ PT_LOAD) ∧
    ∃ rtld w' l, scan_program programHost loaderSymbols headersInfo
        (headersWorld laterHeaders) = .ok (rtld, w') ∧
      w'.maps[rtld]? = some l ∧ l.l_addr = 0x5038 ∧
      ¬ Recovered 0x1000 0x5000 (programHeaders headersInfo (headersWorld laterHeaders)) l := by
  refine ⟨laterHeaders_loaded, ⟨[libraryDynamic], [libraryText], laterHeaders_read, by decide⟩, ?_⟩
  obtain ⟨rtld, w', hscan⟩ := scan_program_ends programHost loaderSymbols
    headersInfo (headersWorld laterHeaders) (by rw [laterHeaders_read]; decide)
  obtain ⟨rfl, scan, _, hloop, rfl⟩ := scan_program_ok hscan
  rw [← programHeaders, laterHeaders_read] at hloop
  have haddr : scan.l.l_addr = 0x5038 :=
    @scan_loop_addr _ _ [libraryDynamic] [libraryText] programPhdr _ _ hloop rfl (by decide)
  refine ⟨_, _, scan.l, hscan, List.getElem?_concat_length, haddr, ?_⟩
  intro hrec
  have hbias := hrec.addr
  rw [haddr] at hbias
  exact absurd hbias (by decide)

end elf_loader.rtld
