-- Programs over the allocator. Each buffer that a program has keeps what the
-- program stored in it, whatever else is allocated, resized and freed, and
-- the allocator loses no byte of what it has from the system.
import BinaryLab.Resizing
import BinaryLab.Strdup

set_option linter.style.nameCheck false
set_option linter.dupNamespace false

open binary_lab.runs binary_lab.words binary_lab.pages binary_lab.spans

namespace elf_loader.malloc

/-! ## Steps and runs -/

/-- What a program knows of a block: the address, the bytes that it asked for, and
what it stored in them. -/
structure Buffer where
  addr : Addr
  size : Nat
  data : Nat → Option Byte

/-- One more buffer, if there is one. -/
def gain (addr : Addr) (size : Nat) (data : Nat → Option Byte) (bufs : List Buffer) :
    List Buffer := if addr = 0 then bufs else ⟨addr, size, data⟩ :: bufs

/-- What is known of a buffer that has another size. -/
def Buffer.resized (buf : Buffer) (i : Nat) : Option Byte :=
  if i < buf.size then buf.data i else none

def Buffer.store (buf : Buffer) (i : Nat) (v : Byte) : Buffer :=
  { buf with data := Function.update buf.data i (some v) }

/-- One call of a program, or a store to one of its buffers. A buffer is freed or
resized by its address. -/
inductive Step (kern : Kernel) (ps : Addr) : Sys × List Buffer → Sys × List Buffer → Prop
  | malloc {s s' : Sys} {p : Addr} {bufs : List Buffer} {n : BitVec 64}
      (h : malloc kern ps n s = .ok (p, s')) :
      Step kern ps (s, bufs) (s', gain p n.toNat (fun _ => none) bufs)
  | calloc {s s' : Sys} {p : Addr} {bufs : List Buffer} {nmemb lsize : BitVec 64}
      (h : calloc kern ps nmemb lsize s = .ok (p, s')) :
      Step kern ps (s, bufs) (s', gain p (lsize.toNat * nmemb.toNat) (fun _ => some 0) bufs)
  | memalign {s s' : Sys} {p : Addr} {bufs : List Buffer} {alignment size : BitVec 64}
      (ha : PageSize alignment) (hsize : 8 < size.toNat)
      (hfits : size.toNat + 2 * alignment.toNat + 8 ≤ 2 ^ 64)
      (h : memalign kern ps alignment size s = .ok (p, s')) :
      Step kern ps (s, bufs) (s', gain p size.toNat (fun _ => none) bufs)
  | free {s s' : Sys} {bufs bufs' : List Buffer} {buf : Buffer}
      (h : free ps buf.addr s = .ok s') :
      Step kern ps (s, bufs ++ buf :: bufs') (s', bufs ++ bufs')
  | realloc_zero {s s' : Sys} {p : Addr} {bufs bufs' : List Buffer} {buf : Buffer}
      (h : realloc kern ps buf.addr 0 s = .ok (p, s')) :
      Step kern ps (s, bufs ++ buf :: bufs') (s', bufs ++ bufs')
  | realloc_failed {s s' : Sys} {bufs bufs' : List Buffer} {buf : Buffer} {n : BitVec 64}
      (hn : n ≠ 0) (h : realloc kern ps buf.addr n s = .ok (0, s')) :
      Step kern ps (s, bufs ++ buf :: bufs') (s', bufs ++ buf :: bufs')
  | realloc {s s' : Sys} {p : Addr} {bufs bufs' : List Buffer} {buf : Buffer} {n : BitVec 64}
      (hn : n ≠ 0) (hp : p ≠ 0) (h : realloc kern ps buf.addr n s = .ok (p, s')) :
      Step kern ps (s, bufs ++ buf :: bufs') (s', ⟨p, n.toNat, buf.resized⟩ :: (bufs ++ bufs'))
  | store {s : Sys} {bufs bufs' : List Buffer} {buf : Buffer} {i : Nat} (hi : i < buf.size)
      (v : Byte) :
      Step kern ps (s, bufs ++ buf :: bufs')
        (s.map_mem fun m => Function.update m (buf.addr + BitVec.ofNat 64 i) v,
          bufs ++ buf.store i v :: bufs')

/-- No `mmap` was refused with an error that `malloc` does not see. -/
def Seen (s : Sys) : Prop :=
  ∀ length block, .mmap length block ∈ s.calls → is_error block → block = 0 - 1

/-- Any number of steps, as long as `malloc` sees each refusal. -/
abbrev Run (kern : Kernel) (ps : Addr) :=
  Relation.ReflTransGen fun x y => Step kern ps x y ∧ Seen y.1

/-! ## What was asked for -/

section

variable {s s' : Sys} {kern : Kernel} {ps mem p : Addr} {n nmemb lsize alignment : BitVec 64}
  {m : BitVec 64} {fa : Addr}

theorem extend_heap_calls (h : extend_heap kern ps n s = .ok (mem, m, s')) :
    s'.calls = .mmap (block_size ps n) (kern s.calls (block_size ps n)) :: s.calls := by
  unfold extend_heap at h
  generalize hmap : mmap kern (block_size ps n) s = r at h
  obtain ⟨block, s1⟩ := r
  have hs1 : s1.calls = .mmap (block_size ps n) (kern s.calls (block_size ps n)) :: s.calls := by
    rw [← (Prod.mk.inj hmap).2]
  rw [← hs1]
  dsimp only at h
  split_ifs at h
  · rw [← (Prod.mk.inj (Prod.mk.inj (Except.ok.inj h)).2).2]
  · obtain ⟨_, _, h⟩ := bind_eq_ok.mp h
    obtain ⟨_, _, h⟩ := bind_eq_ok.mp h
    rw [← (Prod.mk.inj (Prod.mk.inj (Except.ok.inj h)).2).2]

theorem setup_calls (h : MALLOC_SETUP mem m s = .ok (p, s')) : s'.calls = s.calls := by
  rw [MALLOC_SETUP] at h
  split_ifs at h
  rw [← (Prod.mk.inj (Except.ok.inj h)).2]
  rfl

theorem set_up_calls (h : (if mem ≠ 0 then MALLOC_SETUP mem m s else .ok (0, s)) = .ok (p, s')) :
    s'.calls = s.calls := by
  split_ifs at h
  · exact setup_calls h
  · rw [← (Prod.mk.inj (Except.ok.inj h)).2]

/-- `mmap` is called if and only if the heap has no block. -/
theorem malloc_calls (h0 : n ≠ 0) (hlimit : n ≤ size_limit)
    (h : malloc kern ps n s = .ok (p, s')) :
    ∃ mem size heap, __heap_alloc s.heap (n + MALLOC_HEADER_SIZE) = .ok (mem, size, heap) ∧
      s'.calls = if mem = 0 then
        .mmap (block_size ps size) (kern s.calls (block_size ps size)) :: s.calls else s.calls := by
  rw [malloc, if_neg h0, if_neg (BitVec.not_lt.mpr hlimit)] at h
  obtain ⟨⟨user, s1⟩, hfrom, h⟩ := bind_eq_ok.mp h
  have hs1 : s'.calls = s1.calls := by
    dsimp only at h
    split_ifs at h
    · rw [← (Prod.mk.inj (Except.ok.inj h)).2]
      rfl
    · rw [← (Prod.mk.inj (Except.ok.inj h)).2]
  obtain ⟨⟨mem, size, heap⟩, halloc, hfrom⟩ := bind_eq_ok.mp hfrom
  refine ⟨mem, size, heap, halloc, hs1.trans ?_⟩
  dsimp only at hfrom
  split_ifs at hfrom ⊢
  · obtain ⟨⟨mem', size', s2⟩, hext, hfrom⟩ := bind_eq_ok.mp hfrom
    have hcalls := extend_heap_calls hext
    exact (set_up_calls hfrom).trans hcalls
  · obtain ⟨⟨mem', size', s2⟩, hsame, hfrom⟩ := bind_eq_ok.mp hfrom
    rw [set_up_calls hfrom, ← (Prod.mk.inj (Prod.mk.inj (Except.ok.inj hsame)).2).2]

/-- A call of `malloc` that comes to an end has seen each refusal. -/
theorem not_missed_of_seen (h : malloc kern ps n s = .ok (p, s')) (hseen : Seen s') :
    ¬ Missed kern ps s n := by
  rintro ⟨⟨h0, hlimit, hnone⟩, herr, hne⟩
  obtain ⟨mem, size, heap, halloc, hcalls⟩ := malloc_calls h0 hlimit h
  obtain ⟨rfl, hrest⟩ := Prod.mk.inj (Except.ok.inj (hnone.symm.trans halloc))
  obtain ⟨rfl, _⟩ := Prod.mk.inj hrest
  rw [if_pos rfl] at hcalls
  exact hne (hseen _ _ (hcalls ▸ List.mem_cons_self) herr)

theorem calloc_seen (h : calloc kern ps nmemb lsize s = .ok (p, s')) (hseen : Seen s')
    (hlt : lsize.toNat * nmemb.toNat < 2 ^ 64) : ¬ Missed kern ps s (lsize * nmemb) := by
  rw [calloc, if_neg (mt (overflow_iff nmemb lsize).mp (not_le.mpr hlt))] at h
  obtain ⟨⟨result, s1⟩, hmalloc, h⟩ := bind_eq_ok.mp h
  have hs1 : s'.calls = s1.calls := by
    dsimp only at h
    split_ifs at h
    · rw [← (Prod.mk.inj (Except.ok.inj h)).2]
      rfl
    · rw [← (Prod.mk.inj (Except.ok.inj h)).2]
  exact not_missed_of_seen hmalloc fun length block hmem => hseen length block (hs1 ▸ hmem)

theorem memalign_seen {size : BitVec 64} (h : memalign kern ps alignment size s = .ok (p, s'))
    (hseen : Seen s') : ¬ Missed kern ps s (HEAP_ADJUST_SIZE size + 2 * alignment) := by
  obtain ⟨⟨mem, s1⟩, hmalloc, h⟩ := bind_eq_ok.mp h
  have hs1 : s'.calls = s1.calls := by
    dsimp only at h
    split_ifs at h
    · rw [← (Prod.mk.inj (Except.ok.inj h)).2]
    · rw [← (Prod.mk.inj (Except.ok.inj h)).2]
    · obtain ⟨_, _, h⟩ := bind_eq_ok.mp h
      obtain ⟨_, _, h⟩ := bind_eq_ok.mp h
      exact (setup_calls h).trans rfl
  exact not_missed_of_seen hmalloc fun length block hmem => hseen length block (hs1 ▸ hmem)

/-- `free` forgets none of the calls. -/
theorem free_calls (h : free ps mem s = .ok s') : s.calls ⊆ s'.calls := by
  rw [free, free_to_heap] at h
  split_ifs at h
  · rw [Except.ok.inj h]
    exact List.Subset.refl _
  obtain ⟨_, _, h⟩ := bind_eq_ok.mp h
  dsimp only at h
  split_ifs at h
  · rw [← Except.ok.inj h]
    exact List.Subset.refl _
  obtain ⟨_, _, h⟩ := bind_eq_ok.mp h
  obtain ⟨_, _, h⟩ := bind_eq_ok.mp h
  dsimp only at h
  split_ifs at h
  · rw [← Except.ok.inj h]
    exact List.subset_cons_self _ _
  · rw [← Except.ok.inj h]
    exact List.Subset.refl _

theorem grow_calls {size new_size : BitVec 64}
    (hnone : __heap_alloc_at s.heap (MALLOC_BASE mem + size) (new_size - size) = .ok (0, s.heap))
    (h : grow kern ps mem size new_size s = .ok (p, s')) :
    ∃ new_mem s1, malloc kern ps (new_size - MALLOC_HEADER_SIZE) s = .ok (new_mem, s1) ∧
      s1.calls ⊆ s'.calls := by
  rw [grow] at h
  obtain ⟨⟨extra, heap⟩, hat, h⟩ := bind_eq_ok.mp h
  obtain ⟨rfl, rfl⟩ := Prod.mk.inj (Except.ok.inj (hat.symm.trans hnone))
  dsimp only at h
  rw [if_neg fun hne => hne rfl] at h
  obtain ⟨⟨new_mem, s1⟩, hmalloc, h⟩ := bind_eq_ok.mp h
  refine ⟨new_mem, s1, hmalloc, ?_⟩
  dsimp only at h
  split_ifs at h
  · obtain ⟨s2, hfree, h⟩ := bind_eq_ok.mp h
    have hsub := free_calls hfree
    rw [← (Prod.mk.inj (Except.ok.inj h)).2]
    exact hsub
  · rw [← (Prod.mk.inj (Except.ok.inj h)).2]
    exact List.Subset.refl _

theorem realloc_seen (h : realloc kern ps mem n s = .ok (p, s')) (hseen : Seen s') (hn : n ≠ 0)
    (hmem : mem ≠ 0) (hmoves : Moves s mem n) : ¬ Missed kern ps s (moved_size n) := by
  obtain ⟨hlimit, hgrow, hnone⟩ := hmoves
  have hgo : realloc kern ps mem n s =
      grow kern ps mem (MALLOC_SIZE s mem) (fit_size (n + MALLOC_HEADER_SIZE)) s := by
    rw [realloc, if_neg hn, if_neg hmem, if_neg (BitVec.not_lt.mpr hlimit)]
    exact if_pos hgrow
  obtain ⟨new_mem, s1, hmalloc, hsub⟩ := grow_calls hnone (hgo.symm.trans h)
  exact not_missed_of_seen hmalloc fun length block hin => hseen length block (hsub hin)

end

/-! ## The invariant -/

/-- The buffer is in the block, with what was stored in it. -/
structure InBlock (m : Bytes) (buf : Buffer) (b : Span Nat) : Prop where
  addr : buf.addr = user b
  fits : buf.size + 8 ≤ len b
  data : ∀ i < buf.size, ∀ v, buf.data i = some v → m (buf.addr + BitVec.ofNat 64 i) = v

/-- The blocks in use are those of the buffers. The other memory is still `m0`. -/
structure Serves (init other : Set Nat) (m0 : Bytes) (s : Sys) (bufs : List Buffer)
    (ss : List (Span Nat)) (pairs : List (Buffer × Span Nat)) : Prop where
  fine : Fine init other s ss (pairs.map Prod.snd)
  bufs : bufs = pairs.map Prod.fst
  inBlock : ∀ pr ∈ pairs, InBlock s.heap.mem pr.1 pr.2
  spares : Spares [] other m0 s.heap.mem

section

variable {init other : Set Nat} {m m' m0 : Bytes} {s s' : Sys} {bufs bufs' : List Buffer}
  {buf : Buffer} {b c : Span Nat} {ss ss' live : List (Span Nat)} {n : Nat}
  {pairs : List (Buffer × Span Nat)} {kern : Kernel} {ps : Addr} {data : Nat → Option Byte}

theorem Spares.nil (h : Spares live other m m') : Spares [] other m m' := by
  intro x hx
  rw [cover_nil, Set.empty_union] at hx
  exact h x (Set.mem_union_right _ hx)

/-- A block that is spared keeps its buffer. -/
theorem InBlock.keep (hin : InBlock m buf b) (h : Spares live other m m') (hb : b ∈ live)
    (harea : Area b) : InBlock m' buf b := by
  refine ⟨hin.addr, hin.fits, fun i hi v hv => ?_⟩
  have hfits := hin.fits
  rw [h, hin.data i hi v hv]
  rw [hin.addr]
  exact Set.mem_union_left _ (cover_subset hb (bytesOf_subset b (byte_mem harea (by omega))))

theorem InBlock.keep_all {P : List (Buffer × Span Nat)}
    (hin : ∀ pr ∈ P, InBlock m pr.1 pr.2) (h : Spares (P.map Prod.snd) other m m')
    (harea : ∀ b ∈ P.map Prod.snd, Area b) : ∀ pr ∈ P, InBlock m' pr.1 pr.2 := by
  intro pr hpr
  have hmem : pr.2 ∈ P.map Prod.snd := List.mem_map_of_mem hpr
  exact (hin pr hpr).keep h hmem (harea _ hmem)

/-- With a new block there is a new buffer. -/
theorem Serves.gain (hs : Serves init other m0 s bufs ss pairs)
    (hgot : Got init other s (pairs.map Prod.snd) n b s' ss')
    (hdata : ∀ i < n, ∀ v, data i = some v → s'.heap.mem (user b + BitVec.ofNat 64 i) = v) :
    Serves init other m0 s' (gain (user b) n data bufs) ss' ((⟨user b, n, data⟩, b) :: pairs) := by
  have hb := hgot.fine.held.area b List.mem_cons_self
  refine ⟨hgot.fine, ?_, ?_, ?_⟩
  · rw [malloc.gain, if_neg (user_ne_zero hb), hs.bufs, List.map_cons]
  · refine List.forall_mem_cons.mpr ⟨⟨rfl, hgot.long, hdata⟩, ?_⟩
    exact InBlock.keep_all hs.inBlock hgot.spares hgot.fine.held.drop.area
  · exact hs.spares.trans hgot.spares.nil

/-- A call that gives nothing leaves the memory. -/
theorem Serves.same (hs : Serves init other m0 s bufs ss pairs) (hheap : s'.heap = s.heap)
    (hfine : Fine init other s' ss (pairs.map Prod.snd)) :
    Serves init other m0 s' bufs ss pairs :=
  ⟨hfine, hs.bufs, hheap ▸ hs.inBlock, hheap ▸ hs.spares⟩

theorem pairs_perm (buf : Buffer) (b : Span Nat) (P Q : List (Buffer × Span Nat)) :
    ((P ++ (buf, b) :: Q).map Prod.snd).Perm (b :: (P ++ Q).map Prod.snd) := by
  have hmiddle : (P ++ (buf, b) :: Q).Perm ((buf, b) :: (P ++ Q)) := List.perm_middle
  exact hmiddle.map Prod.snd

/-- The pair of a buffer, taken out. -/
theorem Serves.take (hs : Serves init other m0 s (bufs ++ buf :: bufs') ss pairs) :
    ∃ P b Q, pairs = P ++ (buf, b) :: Q ∧ bufs = P.map Prod.fst ∧ bufs' = Q.map Prod.fst ∧
      InBlock s.heap.mem buf b ∧ Fine init other s ss (b :: (P ++ Q).map Prod.snd) ∧
      ∀ pr ∈ P ++ Q, InBlock s.heap.mem pr.1 pr.2 := by
  obtain ⟨P, R, rfl, hP, hR⟩ := List.map_eq_append_iff.mp hs.bufs.symm
  obtain ⟨⟨buf', b⟩, Q, rfl, hbuf, hQ⟩ := List.map_eq_cons_iff.mp hR
  obtain rfl : buf' = buf := hbuf
  refine ⟨P, b, Q, rfl, hP.symm, hQ.symm, ?_, hs.fine.perm (pairs_perm _ b P Q), fun pr hpr => ?_⟩
  · exact hs.inBlock _ (List.mem_append_right _ List.mem_cons_self)
  · refine hs.inBlock pr ?_
    rcases List.mem_append.mp hpr with hpr | hpr
    · exact List.mem_append_left _ hpr
    · exact List.mem_append_right _ (List.mem_cons_of_mem _ hpr)

/-- The pairs that are left serve the buffers that are left. -/
theorem serves_rest {P Q : List (Buffer × Span Nat)} (hspares0 : Spares [] other m0 m)
    (hin : ∀ pr ∈ P ++ Q, InBlock m pr.1 pr.2)
    (hspares : Spares ((P ++ Q).map Prod.snd) other m s'.heap.mem)
    (hfine : Fine init other s' ss' ((P ++ Q).map Prod.snd)) :
    Serves init other m0 s' (P.map Prod.fst ++ Q.map Prod.fst) ss' (P ++ Q) :=
  ⟨hfine, List.map_append.symm, InBlock.keep_all hin hspares hfine.held.area,
    hspares0.trans hspares.nil⟩

/-- The resized block has the resized buffer. -/
theorem Resized.inBlock (hr : Resized init other s live b n c s' ss')
    (hin : InBlock s.heap.mem buf b) :
    InBlock s'.heap.mem ⟨user c, n, buf.resized⟩ c := by
  have hfits := hin.fits
  have hlong := hr.long
  refine ⟨rfl, hr.long, fun i hi v hv => ?_⟩
  have hi' : i < n := hi
  have hv' : (if i < buf.size then buf.data i else none) = some v := hv
  split_ifs at hv' with hold
  show s'.heap.mem (user c + BitVec.ofNat 64 i) = v
  rw [hr.bytes i (by omega) (by omega), ← hin.addr]
  exact hin.data i hold v hv'

theorem Serves.resized (hs : Serves init other m0 s (bufs ++ buf :: bufs') ss pairs)
    {P Q : List (Buffer × Span Nat)} (hP : bufs = P.map Prod.fst) (hQ : bufs' = Q.map Prod.fst)
    (hin : InBlock s.heap.mem buf b) (hrest : ∀ pr ∈ P ++ Q, InBlock s.heap.mem pr.1 pr.2)
    (hr : Resized init other s ((P ++ Q).map Prod.snd) b n c s' ss') :
    Serves init other m0 s' (⟨user c, n, buf.resized⟩ :: (bufs ++ bufs')) ss'
      ((⟨user c, n, buf.resized⟩, c) :: (P ++ Q)) := by
  refine ⟨hr.fine, ?_, ?_, hs.spares.trans hr.spares.nil⟩
  · rw [hP, hQ, List.map_cons, List.map_append]
  · refine List.forall_mem_cons.mpr ⟨hr.inBlock hin, ?_⟩
    exact InBlock.keep_all hrest hr.spares hr.fine.held.drop.area

/-- A store to a byte of the buffer. -/
theorem InBlock.store (hin : InBlock m buf b) (hb : Area b) {i : Nat} (hi : i < buf.size)
    (v : Byte) :
    InBlock (Function.update m (buf.addr + BitVec.ofNat 64 i) v) (buf.store i v) b := by
  have hfits := hin.fits
  refine ⟨hin.addr, hin.fits, fun j hj w hw => ?_⟩
  show Function.update m (buf.addr + BitVec.ofNat 64 i) v (buf.addr + BitVec.ofNat 64 j) = w
  have hw' : Function.update buf.data i (some v) j = some w := hw
  have hj' : j < buf.size := hj
  by_cases hij : j = i
  · subst hij
    rw [Function.update_self] at hw' ⊢
    exact Option.some.inj hw'
  · rw [Function.update_of_ne hij] at hw'
    have hne : buf.addr + BitVec.ofNat 64 j ≠ buf.addr + BitVec.ofNat 64 i := by
      intro heq
      have hval := congrArg BitVec.toNat heq
      rw [hin.addr, (toNat_byte hb (by omega)).1, (toNat_byte hb (by omega)).1] at hval
      omega
    rw [Function.update_of_ne hne]
    exact hin.data j hj' w hw'

theorem sameBut_update {A : Set Nat} {x : Addr} (hx : x.toNat ∈ A) (v : Byte) :
    SameBut A m (Function.update m x v) := fun y hy =>
  Function.update_of_ne (fun heq => hy (by rw [heq]; exact hx)) _ _

/-- Each step serves the buffers. -/
theorem Serves.step (hk : kern.Honest ps init other) (hp : Pages ps)
    (hs : Serves init other m0 s bufs ss pairs) (hstep : Step kern ps (s, bufs) (s', bufs'))
    (hseen : Seen s') : ∃ ss' pairs', Serves init other m0 s' bufs' ss' pairs' := by
  cases hstep with
  | @malloc _ _ p _ n h =>
    rcases malloc.spec n hk hp hs.fine (not_missed_of_seen h hseen) with
      ⟨_, s1, h1, _, hheap, hfine⟩ | ⟨_, b, s1, ss1, h1, hgot⟩
    · obtain ⟨rfl, rfl⟩ := Prod.mk.inj (Except.ok.inj (h1.symm.trans h))
      exact ⟨ss, pairs, hs.same hheap hfine⟩
    · obtain ⟨rfl, rfl⟩ := Prod.mk.inj (Except.ok.inj (h1.symm.trans h))
      exact ⟨ss1, _, hs.gain hgot fun i _ v hv => by cases hv⟩
  | @calloc _ _ p _ nmemb lsize h =>
    rcases calloc.spec hk hp hs.fine nmemb lsize (calloc_seen h hseen) with
      ⟨_, s1, h1, _, hheap, hfine⟩ | ⟨_, _, b, s1, ss1, h1, hgot, hzero⟩
    · obtain ⟨rfl, rfl⟩ := Prod.mk.inj (Except.ok.inj (h1.symm.trans h))
      exact ⟨ss, pairs, hs.same hheap hfine⟩
    · obtain ⟨rfl, rfl⟩ := Prod.mk.inj (Except.ok.inj (h1.symm.trans h))
      refine ⟨ss1, _, hs.gain hgot fun i hi v hv => ?_⟩
      rw [hzero i hi, Option.some.inj hv]
  | @memalign _ _ p _ alignment size ha hsize hfits h =>
    rcases memalign.spec hk hp hs.fine ha hsize hfits (memalign_seen h hseen) with
      ⟨s1, h1, _, hheap, hfine⟩ | ⟨b, s1, ss1, h1, _, hgot⟩
    · obtain ⟨rfl, rfl⟩ := Prod.mk.inj (Except.ok.inj (h1.symm.trans h))
      exact ⟨ss, pairs, hs.same hheap hfine⟩
    · obtain ⟨rfl, rfl⟩ := Prod.mk.inj (Except.ok.inj (h1.symm.trans h))
      exact ⟨ss1, _, hs.gain hgot fun i _ v hv => by cases hv⟩
  | @free _ _ bufs1 bufs2 buf h =>
    obtain ⟨P, b, Q, _, rfl, rfl, hin, hfine, hrest⟩ := hs.take
    obtain ⟨s1, ss1, h1, hret⟩ := free.returned hp hfine
    rw [hin.addr, h1] at h
    obtain rfl := Except.ok.inj h
    have hspares := hret.kept.spares hfine.side.1 hfine.side.2
    exact ⟨ss1, P ++ Q, serves_rest hs.spares hrest hspares hret.fine⟩
  | @realloc_zero _ _ p bufs1 bufs2 buf h =>
    obtain ⟨P, b, Q, _, rfl, rfl, hin, hfine, hrest⟩ := hs.take
    obtain ⟨s1, ss1, h1, _, hfine1, hspares⟩ := realloc.zero kern hp hfine
    rw [hin.addr, h1] at h
    obtain ⟨_, rfl⟩ := Prod.mk.inj (Except.ok.inj h)
    exact ⟨ss1, P ++ Q, serves_rest hs.spares hrest hspares hfine1⟩
  | @realloc_failed _ _ bufs1 bufs2 buf n hn h =>
    obtain ⟨P, b, Q, hpairs, rfl, rfl, hin, hfine, hrest⟩ := hs.take
    rw [hin.addr] at h
    have hb := user_ne_zero (hfine.held.area b List.mem_cons_self)
    rcases realloc.spec hk hp hfine hn (realloc_seen h hseen hn hb) with
      ⟨s1, h1, hheap, hfine1⟩ | ⟨c, s1, ss1, h1, hr⟩
    · obtain ⟨_, rfl⟩ := Prod.mk.inj (Except.ok.inj (h1.symm.trans h))
      subst hpairs
      exact ⟨ss, _, hs.same hheap (hfine1.perm (pairs_perm _ b P Q).symm)⟩
    · obtain ⟨h0, _⟩ := Prod.mk.inj (Except.ok.inj (h1.symm.trans h))
      exact absurd h0 (user_ne_zero (hr.fine.held.area c List.mem_cons_self))
  | @realloc _ _ p bufs1 bufs2 buf n hn hp0 h =>
    obtain ⟨P, b, Q, _, hP, hQ, hin, hfine, hrest⟩ := hs.take
    rw [hin.addr] at h
    have hb := user_ne_zero (hfine.held.area b List.mem_cons_self)
    rcases realloc.spec hk hp hfine hn (realloc_seen h hseen hn hb) with
      ⟨s1, h1, hheap, hfine1⟩ | ⟨c, s1, ss1, h1, hr⟩
    · obtain ⟨h0, _⟩ := Prod.mk.inj (Except.ok.inj (h1.symm.trans h))
      exact absurd h0.symm hp0
    · obtain ⟨rfl, rfl⟩ := Prod.mk.inj (Except.ok.inj (h1.symm.trans h))
      exact ⟨ss1, _, hs.resized hP hQ hin hrest hr⟩
  | @store _ bufs1 bufs2 buf i hi v =>
    obtain ⟨P, b, Q, hpairs, rfl, rfl, hin, hfine, hrest⟩ := hs.take
    have hb := hfine.held.area b List.mem_cons_self
    have hfits := hin.fits
    have hbyte : (buf.addr + BitVec.ofNat 64 i).toNat ∈ bytesOf b := by
      rw [hin.addr]
      exact byte_mem hb (by omega)
    have hsame : SameBut (bytesOf b) s.heap.mem
        (Function.update s.heap.mem (buf.addr + BitVec.ofNat 64 i) v) := sameBut_update hbyte v
    have hfine1 := hfine.map_mem (f := fun m =>
      Function.update m (buf.addr + BitVec.ofNat 64 i) v) hsame
    obtain ⟨hside, hother⟩ := hfine.side
    have hsub : bytesOf b ⊆ cover ss ∪ b.cover :=
      (bytesOf_subset b).trans Set.subset_union_right
    have hspares : Spares ((P ++ Q).map Prod.snd) other s.heap.mem
        (Function.update s.heap.mem (buf.addr + BitVec.ofNat 64 i) v) :=
      hsame.spares (Set.disjoint_of_subset_left hsub hside)
        (Set.disjoint_of_subset_left hsub hother)
    have hkeep := InBlock.keep_all hrest hspares hfine.held.drop.area
    refine ⟨ss, P ++ (buf.store i v, b) :: Q, hfine1.perm (pairs_perm _ b P Q).symm, ?_, ?_,
      hs.spares.trans hspares.nil⟩
    · rw [List.map_append, List.map_cons]
    · intro pr hpr
      rcases List.mem_append.mp hpr with hpr | hpr
      · exact hkeep pr (List.mem_append_left _ hpr)
      rcases List.mem_cons.mp hpr with rfl | hpr
      · exact hin.store hb hi v
      · exact hkeep pr (List.mem_append_right _ hpr)

end

/-! ## Results -/

section

variable {init other : Set Nat} {s s' : Sys} {bufs : List Buffer} {kern : Kernel}
  {ps initial_fa : Addr} {ss : List (Span Nat)} {pairs : List (Buffer × Span Nat)} {m0 : Bytes}

theorem Run.serves {x : Sys × List Buffer} (hk : kern.Honest ps init other) (hp : Pages ps)
    (hi : Initial initial_fa init other s) (hrun : Run kern ps (malloc_init initial_fa s, []) x) :
    ∃ ss pairs, Serves init other s.heap.mem x.1 x.2 ss pairs := by
  induction hrun with
  | refl =>
    exact ⟨_, [], malloc_init.fine hi, rfl, fun pr hpr => absurd hpr List.not_mem_nil,
      fun _ _ => rfl⟩
  | tail _ hstep ih =>
    obtain ⟨ss, pairs, hs⟩ := ih
    exact hs.step hk hp hstep.1 hstep.2

/-- The buffers are apart. -/
theorem Serves.apart (hs : Serves init other m0 s bufs ss pairs) :
    bufs.Pairwise fun a b => ∀ i < a.size, ∀ j < b.size,
      a.addr + BitVec.ofNat 64 i ≠ b.addr + BitVec.ofNat 64 j := by
  rw [hs.bufs, List.pairwise_map]
  have hblocks := List.pairwise_map.mp hs.fine.held.apart
  refine (List.Pairwise.imp_of_mem ?_ hblocks)
  intro x y hx hy hdis i hi j hj heq
  have hinx := hs.inBlock x hx
  have hiny := hs.inBlock y hy
  have hax := hs.fine.held.area x.2 (List.mem_map_of_mem hx)
  have hay := hs.fine.held.area y.2 (List.mem_map_of_mem hy)
  have hfitx := hinx.fits
  have hfity := hiny.fits
  rw [hinx.addr, hiny.addr] at heq
  have hmem := byte_mem hay (i := j) (by omega)
  rw [← heq] at hmem
  exact Set.disjoint_left.mp hdis (bytesOf_subset x.2 (byte_mem hax (by omega)))
    (bytesOf_subset y.2 hmem)

/-- In every run each buffer keeps what was stored in it, until it is freed: the buffers are
aligned and apart, they lie in memory of the allocator, and the other memory stays as it was. -/
theorem buffers_kept (hk : kern.Honest ps init other) (hp : Pages ps)
    (hi : Initial initial_fa init other s)
    (hrun : Run kern ps (malloc_init initial_fa s, []) (s', bufs)) :
    (∀ buf ∈ bufs, buf.addr ≠ 0 ∧ buf.addr.toNat % 8 = 0 ∧ ∀ i < buf.size,
      (buf.addr + BitVec.ofNat 64 i).toNat ∈ owned init s'.calls ∧
      ∀ v, buf.data i = some v → s'.heap.mem (buf.addr + BitVec.ofNat 64 i) = v) ∧
    (bufs.Pairwise fun a b => ∀ i < a.size, ∀ j < b.size,
      a.addr + BitVec.ofNat 64 i ≠ b.addr + BitVec.ofNat 64 j) ∧
    ∀ x : Addr, x.toNat ∈ other → s'.heap.mem x = s.heap.mem x := by
  obtain ⟨ss, pairs, hs⟩ := Run.serves hk hp hi hrun
  refine ⟨fun buf hbuf => ?_, hs.apart, fun x hx => hs.spares x (Set.mem_union_right _ hx)⟩
  have hbufs : bufs = pairs.map Prod.fst := hs.bufs
  rw [hbufs] at hbuf
  obtain ⟨⟨buf', b⟩, hpr, heq⟩ := List.mem_map.mp hbuf
  obtain rfl : buf' = buf := heq
  have hin : InBlock s'.heap.mem buf' b := hs.inBlock _ hpr
  have hblock : b ∈ pairs.map Prod.snd := List.mem_map_of_mem hpr
  have hb := hs.fine.held.area b hblock
  have hfits := hin.fits
  refine ⟨hin.addr ▸ user_ne_zero hb, ?_, fun i hi => ⟨?_, hin.data i hi⟩⟩
  · have hstart := hb.start
    rw [hin.addr, toNat_user hb]
    omega
  · rw [hs.fine.owned, hin.addr]
    exact Set.mem_union_right _ (cover_subset hblock (bytesOf_subset b (byte_mem hb (by omega))))

/-- A program that has asked for 100 bytes. -/
theorem exists_run : ∃ s' buf,
    Run (bumpKernel 4096) 4096 (malloc_init 4096 firstState, []) (s', [buf]) := by
  have hfine := malloc_init.fine initial_firstState
  rcases malloc.spec 100 honest_bump_4096 pages_4096 hfine
    (not_missed hfine List.mem_cons_self (by decide)) with ⟨hno, _⟩ | ⟨_, b, s', ss', hmalloc, hgot⟩
  · rcases hno with h | h | h
    · exact absurd h (by decide)
    · exact absurd h (by decide)
    · exact absurd (h.1 _ List.mem_cons_self) (by decide)
  · have hne := user_ne_zero (hgot.fine.held.area b List.mem_cons_self)
    have hstep : Step (bumpKernel 4096) 4096 (malloc_init 4096 firstState, []) (s', _) :=
      .malloc hmalloc
    rw [gain, if_neg hne] at hstep
    have hseen : Seen s' := by
      obtain ⟨mem, size, heap, _, hcalls⟩ := malloc_calls (by decide) (by decide) hmalloc
      intro length block hmem herr
      rw [hcalls] at hmem
      split_ifs at hmem
      · obtain ⟨rfl, rfl⟩ := Call.mmap.inj (List.mem_singleton.mp hmem)
        exact bump_error herr
      · exact absurd hmem List.not_mem_nil
    exact ⟨s', _, .single ⟨hstep, hseen⟩⟩

theorem buffers_kept_first : ∃ s' buf,
    Run (bumpKernel 4096) 4096 (malloc_init 4096 firstState, []) (s', [buf]) ∧ buf.addr ≠ 0 ∧
      buf.addr.toNat % 8 = 0 := by
  obtain ⟨s', buf, hrun⟩ := exists_run
  obtain ⟨hbufs, _⟩ := buffers_kept honest_bump_4096 pages_4096 initial_firstState hrun
  obtain ⟨hne, hmod, _⟩ := hbufs buf List.mem_cons_self
  exact ⟨s', buf, hrun, hne, hmod⟩

/-- In every run each byte that the allocator has is in exactly one free area or block, there
is a block for each buffer and no other, and the check of the heap finds nothing. -/
theorem memory_split (hk : kern.Honest ps init other) (hp : Pages ps)
    (hi : Initial initial_fa init other s)
    (hrun : Run kern ps (malloc_init initial_fa s, []) (s', bufs)) :
    ∃ ss live, IsHeap s'.heap ss ∧
      List.Forall₂ (fun buf b => buf.addr = user b ∧ buf.size + 8 ≤ len b) bufs live ∧
      owned init s'.calls = cover ss ∪ cover live ∧ Disjoint (cover ss) (cover live) ∧
      (live.Pairwise fun a b => Disjoint a.cover b.cover) ∧ __heap_check s'.heap = true := by
  obtain ⟨ss, pairs, hs⟩ := Run.serves hk hp hi hrun
  have hbufs : bufs = pairs.map Prod.fst := hs.bufs
  refine ⟨ss, pairs.map Prod.snd, hs.fine.held.isHeap, ?_, hs.fine.owned, hs.fine.held.free,
    hs.fine.held.apart, __heap_check.spec hs.fine.held.isHeap⟩
  rw [hbufs, List.forall₂_map_left_iff, List.forall₂_map_right_iff, List.forall₂_same]
  exact fun pr hpr => ⟨(hs.inBlock pr hpr).addr, (hs.inBlock pr hpr).fits⟩

theorem memory_split_first : ∃ s' buf,
    Run (bumpKernel 4096) 4096 (malloc_init 4096 firstState, []) (s', [buf]) ∧
      __heap_check s'.heap = true := by
  obtain ⟨s', buf, hrun⟩ := exists_run
  obtain ⟨_, _, _, _, _, _, _, hcheck⟩ :=
    memory_split honest_bump_4096 pages_4096 initial_firstState hrun
  exact ⟨s', buf, hrun, hcheck⟩

/-- In every run each call comes to an end, unless it asks for memory and does not see the
refusal. -/
theorem calls_return (hk : kern.Honest ps init other) (hp : Pages ps)
    (hi : Initial initial_fa init other s)
    (hrun : Run kern ps (malloc_init initial_fa s, []) (s', bufs)) :
    (∀ n, ¬ Missed kern ps s' n → ∃ r, malloc kern ps n s' = .ok r) ∧
    (∀ nmemb lsize : BitVec 64,
      (lsize.toNat * nmemb.toNat < 2 ^ 64 → ¬ Missed kern ps s' (lsize * nmemb)) →
        ∃ r, calloc kern ps nmemb lsize s' = .ok r) ∧
    ∀ buf ∈ bufs, (∃ r, free ps buf.addr s' = .ok r) ∧
      ∀ n, (n ≠ 0 → Moves s' buf.addr n → ¬ Missed kern ps s' (moved_size n)) →
        ∃ r, realloc kern ps buf.addr n s' = .ok r := by
  obtain ⟨ss, pairs, hs⟩ := Run.serves hk hp hi hrun
  have hs : Serves init other s.heap.mem s' bufs ss pairs := hs
  refine ⟨fun n hseen => ?_, fun nmemb lsize hseen => ?_, fun buf hbuf => ?_⟩
  · rcases malloc.spec n hk hp hs.fine hseen with ⟨_, t, h, _⟩ | ⟨_, b, t, ss', h, _⟩
    · exact ⟨_, h⟩
    · exact ⟨_, h⟩
  · rcases calloc.spec hk hp hs.fine nmemb lsize hseen with
      ⟨_, t, h, _⟩ | ⟨_, _, b, t, ss', h, _⟩
    · exact ⟨_, h⟩
    · exact ⟨_, h⟩
  · obtain ⟨bufs1, bufs2, rfl⟩ := List.append_of_mem hbuf
    obtain ⟨P, b, Q, _, _, _, hin, hfine, _⟩ := Serves.take hs
    rw [hin.addr]
    obtain ⟨t, ss', hfree, _⟩ := free.returned hp hfine
    refine ⟨⟨t, hfree⟩, fun n hseen => ?_⟩
    by_cases hn : n = 0
    · obtain ⟨t, ss', h, _⟩ := realloc.zero kern hp hfine
      exact ⟨_, hn ▸ h⟩
    · rcases realloc.spec hk hp hfine hn (hseen hn) with ⟨t, h, _⟩ | ⟨c, t, ss', h, _⟩
      · exact ⟨_, h⟩
      · exact ⟨_, h⟩

theorem calls_return_first : ∃ s' buf r,
    Run (bumpKernel 4096) 4096 (malloc_init 4096 firstState, []) (s', [buf]) ∧
      free 4096 buf.addr s' = .ok r := by
  obtain ⟨s', buf, hrun⟩ := exists_run
  obtain ⟨_, _, hbufs⟩ := calls_return honest_bump_4096 pages_4096 initial_firstState hrun
  obtain ⟨⟨r, hfree⟩, _⟩ := hbufs buf List.mem_cons_self
  exact ⟨s', buf, r, hrun, hfree⟩

end

/-! ## The contract of `malloc` -/

section

variable {init other : Set Nat} {s s' : Sys} {bufs : List Buffer} {kern : Kernel}
  {ps initial_fa : Addr} {objects : List lib.Block} {b : Span Nat}

/-- The block of a buffer, without its size. -/
def toBlock (pr : Buffer × Span Nat) : lib.Block := ⟨pr.1.addr, pr.1.size, len pr.2 - 8⟩

theorem within_user (hb : Area b) (hroom : 24 ≤ len b) {a : Addr} :
    lib.Within (user b) (len b - 8) a ↔ a.toNat ∈ bytesOf b := by
  have huser := hb.user
  have hend := start_add_len b
  have hstop : b.start + 8 + (len b - 8) = b.stop := by omega
  have hbound : (user b).toNat + (len b - 8) ≤ 2 ^ 64 := by
    rw [toNat_user hb]
    omega
  have hiff := sub_lt_iff (x := a) hbound
  rw [toNat_user hb, hstop] at hiff
  exact hiff

/-- This `malloc` is one over which the copies of strings are right: in every run, with any
objects in the other memory, a block that it gives is new, long enough and apart from all that
is in use, and nothing in use changes. -/
theorem malloc_meets_contract (hk : kern.Honest ps init other) (hp : Pages ps)
    (hi : Initial initial_fa init other s)
    (hrun : Run kern ps (malloc_init initial_fa s, []) (s', bufs))
    (hobjects : ∀ o ∈ objects, ∀ a, lib.Within o.addr o.len a → a.toNat ∈ other) :
    ∃ h : lib.Heap, h.mem = s'.heap.mem ∧ (∃ blocks, h.live = blocks ++ objects ∧
        List.Forall₂ (fun buf o => o.addr = buf.addr ∧ o.size = buf.size ∧ o.size ≤ o.len) bufs
          blocks) ∧
      ∀ n p s'', malloc kern ps n s' = .ok (p, s'') → Seen s'' → p ≠ 0 →
        ∃ h' : lib.Heap, h'.mem = s''.heap.mem ∧ lib.Malloc h n.toNat p h' := by
  obtain ⟨ss, pairs, hs⟩ := Run.serves hk hp hi hrun
  have hbufs : bufs = pairs.map Prod.fst := hs.bufs
  refine ⟨⟨s'.heap.mem, pairs.map toBlock ++ objects⟩, rfl, ⟨pairs.map toBlock, rfl, ?_⟩, ?_⟩
  · rw [hbufs, List.forall₂_map_left_iff, List.forall₂_map_right_iff, List.forall₂_same]
    intro pr hpr
    have hfits := (hs.inBlock pr hpr).fits
    refine ⟨rfl, rfl, ?_⟩
    show pr.1.size ≤ len pr.2 - 8
    omega
  intro n p s'' hmalloc hseen hne
  rcases malloc.spec n hk hp hs.fine (not_missed_of_seen hmalloc hseen) with
    ⟨_, t, h0, _⟩ | ⟨_, b, t, ss', hb, hgot⟩
  · exact absurd (Prod.mk.inj (Except.ok.inj (hmalloc.symm.trans h0))).1 hne
  obtain ⟨rfl, rfl⟩ := Prod.mk.inj (Except.ok.inj (hmalloc.symm.trans hb))
  have hfine := hgot.fine
  have hab := hfine.held.area b List.mem_cons_self
  have hrb := hfine.room b List.mem_cons_self
  have hlong := hgot.long
  obtain ⟨hside, hother⟩ := hfine.side
  -- each byte in use is one of another block or of the other memory
  have huse : ∀ o ∈ pairs.map toBlock ++ objects, ∀ a, lib.Within o.addr o.len a →
      a.toNat ∈ cover (pairs.map Prod.snd) ∪ other := by
    intro o ho a ha
    rcases List.mem_append.mp ho with ho | ho
    · obtain ⟨pr, hpr, rfl⟩ := List.mem_map.mp ho
      have hmem : pr.2 ∈ pairs.map Prod.snd := List.mem_map_of_mem hpr
      have harea := hs.fine.held.area pr.2 hmem
      have ha' : lib.Within (user pr.2) (len pr.2 - 8) a := (hs.inBlock pr hpr).addr ▸ ha
      have hbyte := (within_user harea (hs.fine.room pr.2 hmem)).mp ha'
      exact Set.mem_union_left _ (cover_subset hmem (bytesOf_subset pr.2 hbyte))
    · exact Set.mem_union_right _ (hobjects o ho a ha)
  refine ⟨⟨s''.heap.mem, ⟨user b, n.toNat, len b - 8⟩ :: (pairs.map toBlock ++ objects)⟩, rfl,
    user_ne_zero hab, ⟨len b - 8, by omega, ?_, rfl, ?_⟩, ?_⟩
  · exact (bytes_within hab (by omega)).1
  · intro o ho a ha hin
    have hbyte := bytesOf_subset b ((within_user hab hrb).mp hin)
    rcases huse o ho a ha with h | h
    · exact Set.disjoint_left.mp hside (Set.mem_union_right _ hbyte) h
    · exact Set.disjoint_left.mp hother (Set.mem_union_right _ hbyte) h
  · exact fun o ho a ha => hgot.spares a (huse o ho a ha)

theorem malloc_meets_contract_first : ∃ s' buf, ∃ h : lib.Heap,
    Run (bumpKernel 4096) 4096 (malloc_init 4096 firstState, []) (s', [buf]) ∧
      h.mem = s'.heap.mem ∧ ∀ n p s'', malloc (bumpKernel 4096) 4096 n s' = .ok (p, s'') →
        Seen s'' → p ≠ 0 → ∃ h' : lib.Heap, h'.mem = s''.heap.mem ∧ lib.Malloc h n.toNat p h' := by
  obtain ⟨s', buf, hrun⟩ := exists_run
  have hobject : ∀ o ∈ [lib.Block.mk 16 4 4], ∀ a, lib.Within o.addr o.len a →
      a.toNat ∈ Set.Iio 4096 := by
    intro o ho a ha
    obtain rfl := List.mem_singleton.mp ho
    have hlt := (sub_lt_iff (x := a) (p := 16) (n := 4) (by decide)).mp ha
    exact lt_trans (b := 20) hlt.2 (by decide)
  obtain ⟨h, hmem, _, hcontract⟩ := malloc_meets_contract honest_bump_4096 pages_4096
    initial_firstState hrun hobject
  exact ⟨s', buf, h, hrun, hmem, hcontract⟩

end

end elf_loader.malloc
