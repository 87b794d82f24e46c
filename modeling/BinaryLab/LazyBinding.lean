-- Lazy binding (rtld/trampoline.S, and `got_fixup` of rtld/reloc.c). The first
-- call through a PLT entry goes to the resolver, which puts the address of the
-- function in the slot of the entry. Every call ends up where a call bound in
-- advance would, with the registers and the stack of the caller.
import BinaryLab.RelocRun

open binary_lab.words

namespace elf_loader.reloc

open lookup

/-! ## The trampoline -/

/-- The registers that the trampoline handles. `stack` holds the words from
`%rsp` on, which lie apart from the memory of the objects. -/
structure Cpu where
  rax : BitVec 64
  rcx : BitVec 64
  rdx : BitVec 64
  rsi : BitVec 64
  rdi : BitVec 64
  r8 : BitVec 64
  r9 : BitVec 64
  r11 : BitVec 64
  rip : BitVec 64
  stack : List (BitVec 64)

def Cpu.push (cpu : Cpu) (v : BitVec 64) : Cpu := { cpu with stack := v :: cpu.stack }

/-- The word `8 * i` bytes above `%rsp`. -/
def Cpu.word (cpu : Cpu) (i : Nat) : BitVec 64 := cpu.stack.getD i 0

/-- `call got_fixup`, on the `link_map` at the address `rdi`. -/
def call_got_fixup (w : Rtld) (rdi rsi : BitVec 64) : Except Stop (Addr × Rtld) :=
  match w.maps.findIdx? fun l => l.self = rdi with
  | some p => got_fixup w p (rsi.setWidth 32)
  | none => .error (.fault .nullPointer)

/-- `runtime_resolve`, one line for each instruction after the stores. The
call may leave anything in the registers, here what `scratch` has. -/
def runtime_resolve (scratch : Cpu) (w : Rtld) (cpu : Cpu) : Except Stop (Cpu × Rtld) := do
  let saved := [cpu.rax, cpu.rcx, cpu.rdx, cpu.rsi, cpu.rdi, cpu.r8, cpu.r9]
  let cpu := { cpu with stack := saved ++ cpu.stack }
  let cpu := { cpu with rsi := cpu.word 8 }
  let cpu := { cpu with r11 := cpu.rsi }
  let cpu := { cpu with rdi := cpu.word 7 }
  let (jmp, w) ← call_got_fixup w cpu.rdi cpu.rsi
  let cpu := { scratch with rax := jmp, stack := cpu.stack }
  let cpu := { cpu with r11 := cpu.rax }
  let cpu := { cpu with r9 := cpu.word 6 }
  let cpu := { cpu with r8 := cpu.word 5 }
  let cpu := { cpu with rdi := cpu.word 4 }
  let cpu := { cpu with rsi := cpu.word 3 }
  let cpu := { cpu with rdx := cpu.word 2 }
  let cpu := { cpu with rcx := cpu.word 1 }
  let cpu := { cpu with rax := cpu.word 0 }
  let cpu := { cpu with stack := cpu.stack.drop 9 }
  .ok ({ cpu with rip := cpu.r11 }, w)

/-! ## The PLT of the linker -/

/-- `plt_0`: push `got[1]`, jump to `got[2]`. -/
def plt_0 (resolver : Addr) (scratch : Cpu) (w : Rtld) (l : LinkMap) (cpu : Cpu) :
    Except Stop (Cpu × Rtld) :=
  let cpu := cpu.push (read64 w.mem (gotAddr l + 8))
  let rip := read64 w.mem (gotAddr l + 16)
  if rip = resolver then runtime_resolve scratch w cpu else .ok ({ cpu with rip }, w)

/-- A call through PLT entry `index` of an object, with the registers of the
caller. -/
structure Call where
  object : Ptr
  index : Nat
  cpu : Cpu
  scratch : Cpu

/-- The code at a PLT entry: jump to where the slot says, and behind that
`push $index` and a jump to `plt_0`. The push is at `stub`, in link-time
addresses. -/
def plt_call (stub : Ptr → Nat → Addr) (resolver : Addr) (w : Rtld) (c : Call) :
    Except Stop (Cpu × Rtld) := do
  let l ← w.deref c.object
  let rela ← relaAt l.image.jmprel c.index
  let rip := read64 w.mem (target l rela)
  if rip = l.l_addr + stub c.object c.index then
    plt_0 resolver c.scratch w l (c.cpu.push ((BitVec.ofNat 32 c.index).signExtend 64))
  else .ok ({ c.cpu with rip }, w)

/-- Calls one after the other, each with the registers that it arrives with. -/
def run_calls (stub : Ptr → Nat → Addr) (resolver : Addr) :
    List Call → Rtld → Except Stop (List Cpu × Rtld)
  | [], w => .ok ([], w)
  | c :: cs, w => do
    let (cpu, w) ← plt_call stub resolver w c
    let (cpus, w) ← run_calls stub resolver cs w
    .ok (cpu :: cpus, w)

/-! ## The specs -/

/-- The trampoline jumps to what `got_fixup` gives, and leaves the other
registers and the stack as they were before the two pushes of the PLT. -/
theorem runtime_resolve.spec {scratch : Cpu} {w w' : Rtld} {cpu : Cpu} {self n : BitVec 64}
    {jmp : Addr} (h : call_got_fixup w self n = .ok (jmp, w')) :
    runtime_resolve scratch w ((cpu.push n).push self) =
      .ok ({ cpu with rip := jmp, r11 := jmp }, w') := by
  have h' : call_got_fixup w self n = .ok (jmp, w') := h
  simp only [runtime_resolve, Cpu.push, Cpu.word, List.cons_append, List.nil_append,
    List.getD_cons_succ, List.getD_cons_zero, h', bind, Except.bind, List.drop_succ_cons,
    List.drop_zero]

theorem setWidth_pushed {n : Nat} :
    ((BitVec.ofNat 32 n).signExtend 64).setWidth 32 = BitVec.ofNat 32 n := by
  apply BitVec.eq_of_getLsbD_eq
  intro i hi
  rw [BitVec.getLsbD_setWidth, BitVec.getLsbD_signExtend]
  simp [hi, show i < 64 by omega]

theorem relaAt_eq_ok {table : List Rela} {i : Nat} {rela : Rela} :
    relaAt table i = .ok rela ↔ table[i]? = some rela := by
  unfold relaAt
  cases table[i]? <;> simp

theorem pltEntries_getElem {l : LinkMap} {n : Nat} {rela : Rela}
    (h : (pltEntries l)[n]? = some rela) :
    D_VALID l DT_PLTGOT = true ∧ l.image.jmprel[n]? = some rela ∧ n < entryCount l DT_PLTRELSZ := by
  unfold pltEntries at h
  split_ifs at h with hv
  · rw [List.getElem?_take] at h
    split_ifs at h with hn
    exact ⟨hv, h, hn⟩
  · simp at h

/-- The resolver puts the address of the definition in the slot. -/
theorem got_fixup.spec {w : Rtld} {p : Ptr} {l : LinkMap} {n : Nat} {rela : Rela}
    {name : CString} {addr : Addr} (hl : w.maps[p]? = some l) (hready : PltReady l)
    (hrela : (pltEntries l)[n]? = some rela) (hn : n < 2 ^ 32)
    (hname : entryName l rela = some name) (hres : Resolves w none name addr) :
    got_fixup w p (BitVec.ofNat 32 n) =
      .ok (addr, setMem w (write64 w.mem (target l rela) addr)) := by
  obtain ⟨hv, hjmprel, hcount⟩ := pltEntries_getElem hrela
  obtain ⟨h1, h2, h3, h4⟩ := hready hv
  obtain ⟨d1, hd1⟩ := Option.isSome_iff_exists.mp h1
  obtain ⟨d2, hd2⟩ := Option.isSome_iff_exists.mp h2
  obtain ⟨d3, hd3⟩ := Option.isSome_iff_exists.mp h3
  obtain ⟨d4, hd4⟩ := Option.isSome_iff_exists.mp h4
  obtain ⟨d5, hd5⟩ := Option.isSome_iff_exists.mp hv
  have hidx : (BitVec.ofNat 32 n).toNat = n := by
    rw [BitVec.toNat_ofNat]
    omega
  have hlt : n < d2.d_un.toNat / sizeofRela := by simpa [entryCount, hd2] using hcount
  unfold entryName at hname
  rw [Option.map_eq_some_iff] at hname
  obtain ⟨sym, hsym, rfl⟩ := hname
  unfold got_fixup
  rw [Rtld.deref_eq_ok.mpr hl]
  simp only [bind, Except.bind, D_PTR, D_VAL, hd1, hd2, hd3, hd4, hd5, hidx,
    relaAt_eq_ok.mpr hjmprel, assert, gt_iff_lt, hlt, decide_true, if_true, symAt_eq_ok.mpr hsym,
    find_symbol_eq_ok.mpr hres]

/-! ## Slots apart -/

theorem destsOf_eq {w : Rtld} {p : Ptr} {l : LinkMap} (hl : w.maps[p]? = some l) :
    destsOf w p = dests l := by simp [destsOf, hl]

theorem slot_mem_dests {l : LinkMap} {n : Nat} {rela : Rela}
    (h : (pltEntries l)[n]? = some rela) : target l rela ∈ dests l := by
  apply List.mem_append_left
  apply List.mem_map_of_mem
  exact List.mem_append_right _ (List.mem_of_getElem? h)

/-- Words of different objects lie apart. -/
theorem AllApart.objects {w : Rtld} {ps : List Ptr} (h : AllApart w ps) {p q : Ptr} (hp : p ∈ ps)
    (hq : q ∈ ps) (hne : p ≠ q) {a b : Addr} (ha : a ∈ destsOf w p) (hb : b ∈ destsOf w q) :
    Apart a b := by
  rw [AllApart, List.pairwise_flatMap] at h
  obtain ⟨i, hi, rfl⟩ := List.getElem_of_mem hp
  obtain ⟨j, hj, rfl⟩ := List.getElem_of_mem hq
  have hpair := List.pairwise_iff_getElem.mp h.2
  rcases Nat.lt_trichotomy i j with hlt | rfl | hlt
  · exact hpair i j hi hj hlt a ha b hb
  · exact absurd rfl hne
  · exact (hpair j i hj hi hlt b hb a ha).symm

/-- Different slots of one object lie apart, and apart from its GOT words. -/
theorem AllApart.slots {w : Rtld} {ps : List Ptr} (h : AllApart w ps) {p : Ptr} (hp : p ∈ ps)
    {l : LinkMap} (hl : w.maps[p]? = some l) {n : Nat} {rela : Rela}
    (hrela : (pltEntries l)[n]? = some rela) :
    (∀ k rela', (pltEntries l)[k]? = some rela' → k ≠ n →
      Apart (target l rela) (target l rela')) ∧
    Apart (target l rela) (gotAddr l + 8) ∧ Apart (target l rela) (gotAddr l + 16) := by
  rw [AllApart, List.pairwise_flatMap] at h
  have hpair := h.1 p hp
  rw [destsOf_eq hl, dests, List.pairwise_append, entries, List.map_append,
    List.pairwise_append, if_pos (pltEntries_getElem hrela).1] at hpair
  obtain ⟨⟨_, hplt, _⟩, _, hgot⟩ := hpair
  rw [List.pairwise_map] at hplt
  have hmem : target l rela ∈
      (relaEntries l).map (target l) ++ (pltEntries l).map (target l) :=
    List.mem_append_right _ (List.mem_map_of_mem (List.mem_of_getElem? hrela))
  refine ⟨?_, hgot _ hmem _ (by simp), hgot _ hmem _ (by simp)⟩
  intro k rela' hk hne
  obtain ⟨hn1, hn2⟩ := List.getElem?_eq_some_iff.mp hrela
  obtain ⟨hk1, hk2⟩ := List.getElem?_eq_some_iff.mp hk
  rw [List.pairwise_iff_getElem] at hplt
  rcases Nat.lt_or_gt_of_ne hne with hlt | hlt
  · have := hplt k n hk1 hn1 hlt
    rw [hn2, hk2] at this
    exact this.symm
  · have := hplt n k hn1 hk1 hlt
    rwa [hn2, hk2] at this

/-! ## The invariant of the calls -/

/-- What the calls rest on, once `reloc_all` is done. -/
structure LazyReady (w : Rtld) (ps : List Ptr) : Prop where
  apart : AllApart w ps
  selfs : (w.maps.map LinkMap.self).Nodup
  ready : ∀ p ∈ ps, ∀ l, w.maps[p]? = some l → PltReady l
  small : ∀ p ∈ ps, ∀ l, w.maps[p]? = some l → ∀ n rela, (pltEntries l)[n]? = some rela →
    n < 2 ^ 32

/-- The slot of PLT entry `n` of the object at `p`. -/
def IsSlot (w : Rtld) (ps : List Ptr) (p : Ptr) (n : Nat) (l : LinkMap) (rela : Rela) : Prop :=
  p ∈ ps ∧ w.maps[p]? = some l ∧ (pltEntries l)[n]? = some rela

/-- A call bound in advance would go to `addr`. -/
def BoundTo (w : Rtld) (l : LinkMap) (rela : Rela) (addr : Addr) : Prop :=
  ∃ name, entryName l rela = some name ∧ Resolves w none name addr

theorem BoundTo.unique {w : Rtld} {l : LinkMap} {rela : Rela} {a b : Addr}
    (ha : BoundTo w l rela a) (hb : BoundTo w l rela b) : a = b := by
  obtain ⟨name, hname, ha⟩ := ha
  obtain ⟨name', hname', hb⟩ := hb
  rw [hname] at hname'
  cases hname'
  exact ha.unique hb

/-- The state `w'` after the entries `called` have been called, in any order:
their slots hold their functions, every other slot its stub, and the first
words of each GOT are as `reloc_all` has left them. -/
structure Bound (stub : Ptr → Nat → Addr) (resolver : Addr) (w : Rtld) (ps : List Ptr)
    (called : List (Ptr × Nat)) (w' : Rtld) : Prop where
  maps : w'.maps = w.maps
  ns : w'._namespace = w._namespace
  bound : ∀ p n l rela, IsSlot w ps p n l rela → (p, n) ∈ called →
    ∃ addr, BoundTo w l rela addr ∧ read64 w'.mem (target l rela) = addr
  unbound : ∀ p n l rela, IsSlot w ps p n l rela → (p, n) ∉ called →
    read64 w'.mem (target l rela) = l.l_addr + stub p n
  got : ∀ p ∈ ps, ∀ l, w.maps[p]? = some l → D_VALID l DT_PLTGOT = true →
    read64 w'.mem (gotAddr l + 8) = l.self ∧ read64 w'.mem (gotAddr l + 16) = resolver

theorem findIdx_self {w : Rtld} (h : (w.maps.map LinkMap.self).Nodup) {p : Ptr} {l : LinkMap}
    (hl : w.maps[p]? = some l) : w.maps.findIdx? (fun m => m.self = l.self) = some p := by
  obtain ⟨hlt, heq⟩ := List.getElem?_eq_some_iff.mp hl
  rw [List.findIdx?_eq_some_iff_getElem]
  refine ⟨hlt, by simp [heq], ?_⟩
  intro j hj
  simp only [decide_eq_true_eq]
  intro hself
  rw [List.Nodup, List.pairwise_map, List.pairwise_iff_getElem] at h
  exact h j p (by omega) hlt hj (by rw [hself, heq])

theorem LazyReady.slot_apart {w : Rtld} {ps : List Ptr} (h : LazyReady w ps) {p q : Ptr}
    {n k : Nat} {l l' : LinkMap} {rela rela' : Rela} (hs : IsSlot w ps p n l rela)
    (hs' : IsSlot w ps q k l' rela') (hne : (q, k) ≠ (p, n)) :
    Apart (target l rela) (target l' rela') := by
  obtain ⟨hp, hl, hrela⟩ := hs
  obtain ⟨hq, hl', hrela'⟩ := hs'
  by_cases hpq : p = q
  · subst hpq
    rw [hl] at hl'
    cases hl'
    exact (h.apart.slots hp hl hrela).1 k rela' hrela' fun hk => hne (by rw [hk])
  · exact h.apart.objects hp hq hpq (by rw [destsOf_eq hl]; exact slot_mem_dests hrela)
      (by rw [destsOf_eq hl']; exact slot_mem_dests hrela')

theorem LazyReady.got_apart {w : Rtld} {ps : List Ptr} (h : LazyReady w ps) {p q : Ptr}
    {n : Nat} {l l' : LinkMap} {rela : Rela} (hs : IsSlot w ps p n l rela) (hq : q ∈ ps)
    (hl' : w.maps[q]? = some l') (hgot : D_VALID l' DT_PLTGOT = true) :
    Apart (target l rela) (gotAddr l' + 8) ∧ Apart (target l rela) (gotAddr l' + 16) := by
  obtain ⟨hp, hl, hrela⟩ := hs
  by_cases hpq : p = q
  · subst hpq
    rw [hl] at hl'
    cases hl'
    exact (h.apart.slots hp hl hrela).2
  · have hslot : target l rela ∈ destsOf w p := by
      rw [destsOf_eq hl]
      exact slot_mem_dests hrela
    have hwords : gotAddr l' + 8 ∈ destsOf w q ∧ gotAddr l' + 16 ∈ destsOf w q := by
      rw [destsOf_eq hl', dests, if_pos hgot]
      simp
    exact ⟨h.apart.objects hp hq hpq hslot hwords.1, h.apart.objects hp hq hpq hslot hwords.2⟩

/-- A store of the function to the slot of a call keeps the invariant. -/
theorem Bound.store {stub : Ptr → Nat → Addr} {resolver : Addr} {w w' : Rtld} {ps : List Ptr}
    {called : List (Ptr × Nat)} (h : LazyReady w ps) (hb : Bound stub resolver w ps called w')
    {p : Ptr} {n : Nat} {l : LinkMap} {rela : Rela} {addr : Addr} (hs : IsSlot w ps p n l rela)
    (haddr : BoundTo w l rela addr) :
    Bound stub resolver w ps ((p, n) :: called)
      (setMem w' (write64 w'.mem (target l rela) addr)) where
  maps := hb.maps
  ns := hb.ns
  bound := by
    intro q k l' rela' hs' hmem
    by_cases hne : (q, k) = (p, n)
    · cases hne
      obtain ⟨_, hl, hrela⟩ := hs
      obtain ⟨_, hl', hrela'⟩ := hs'
      rw [hl] at hl'
      cases hl'
      rw [hrela] at hrela'
      cases hrela'
      exact ⟨addr, haddr, read64_write64_self _ _ _⟩
    · obtain ⟨a, ha, hread⟩ := hb.bound q k l' rela' hs' ((List.mem_cons.mp hmem).resolve_left hne)
      refine ⟨a, ha, ?_⟩
      rw [← hread]
      exact read64_write64_apart _ (h.slot_apart hs hs' hne)
  unbound := by
    intro q k l' rela' hs' hmem
    rw [List.mem_cons, not_or] at hmem
    rw [← hb.unbound q k l' rela' hs' hmem.2]
    exact read64_write64_apart _ (h.slot_apart hs hs' hmem.1)
  got := by
    intro q hq l' hl' hgot
    obtain ⟨h1, h2⟩ := hb.got q hq l' hl' hgot
    obtain ⟨ha1, ha2⟩ := h.got_apart hs hq hl' hgot
    rw [← h1, ← h2]
    exact ⟨read64_write64_apart _ ha1, read64_write64_apart _ ha2⟩

/-- A call of an entry that has been called before changes nothing. -/
theorem Bound.again {stub : Ptr → Nat → Addr} {resolver : Addr} {w w' : Rtld} {ps : List Ptr}
    {called : List (Ptr × Nat)} (hb : Bound stub resolver w ps called w') {p : Ptr} {n : Nat}
    (hmem : (p, n) ∈ called) : Bound stub resolver w ps ((p, n) :: called) w' where
  maps := hb.maps
  ns := hb.ns
  bound := by
    intro q k l rela hs hq
    apply hb.bound q k l rela hs
    rcases List.mem_cons.mp hq with hq | hq
    · rw [hq]
      exact hmem
    · exact hq
  unbound := by
    intro q k l rela hs hq
    exact hb.unbound q k l rela hs fun hm => hq (List.mem_cons_of_mem _ hm)
  got := hb.got

/-- One call: it arrives at the function with the registers and the stack of
the caller, and keeps the invariant. -/
theorem plt_call.spec {stub : Ptr → Nat → Addr} {resolver : Addr} {w w' : Rtld} {ps : List Ptr}
    {called : List (Ptr × Nat)} (h : LazyReady w ps) (hb : Bound stub resolver w ps called w')
    (c : Call) {l : LinkMap} {rela : Rela} {addr : Addr}
    (hs : IsSlot w ps c.object c.index l rela) (haddr : BoundTo w l rela addr) :
    ∃ cpu w'', plt_call stub resolver w' c = .ok (cpu, w'') ∧
      cpu = { c.cpu with rip := addr, r11 := cpu.r11 } ∧
      Bound stub resolver w ps ((c.object, c.index) :: called) w'' := by
  have hsame : SameObjects w w' := ⟨hb.ns, by rw [hb.maps]⟩
  obtain ⟨hp, hl, hrela⟩ := hs
  obtain ⟨hv, hjmprel, _⟩ := pltEntries_getElem hrela
  have hl' : w'.maps[c.object]? = some l := by rw [hb.maps, hl]
  unfold plt_call
  rw [Rtld.deref_eq_ok.mpr hl']
  simp only [bind, Except.bind, relaAt_eq_ok.mpr hjmprel]
  by_cases hstub : read64 w'.mem (target l rela) = l.l_addr + stub c.object c.index
  · -- The slot leads to the stub, so the call goes through the resolver.
    obtain ⟨name, hname, hres⟩ := haddr
    obtain ⟨hgot1, hgot2⟩ := hb.got c.object hp l hl hv
    have hfix : call_got_fixup w' l.self ((BitVec.ofNat 32 c.index).signExtend 64) =
        .ok (addr, setMem w' (write64 w'.mem (target l rela) addr)) := by
      unfold call_got_fixup
      rw [findIdx_self (by rw [hb.maps]; exact h.selfs) hl']
      simp only [setWidth_pushed]
      exact got_fixup.spec hl' (h.ready _ hp l hl) hrela (h.small _ hp l hl _ _ hrela) hname
        (hres.same hsame)
    rw [if_pos hstub, plt_0]
    simp only [hgot1, hgot2, if_true, runtime_resolve.spec hfix]
    exact ⟨_, _, rfl, rfl, hb.store h ⟨hp, hl, hrela⟩ ⟨name, hname, hres⟩⟩
  · -- The slot has been bound, since a slot not called leads to its stub.
    have hmem : (c.object, c.index) ∈ called := by
      by_contra hnot
      exact hstub (hb.unbound _ _ l rela ⟨hp, hl, hrela⟩ hnot)
    obtain ⟨a, ha, hread⟩ := hb.bound _ _ l rela ⟨hp, hl, hrela⟩ hmem
    rw [if_neg hstub, hread, ha.unique haddr]
    exact ⟨_, w', rfl, rfl, hb.again hmem⟩

/-- The call is through an entry of an object of the namespace, and its symbol
is defined. -/
def Defined (w : Rtld) (ps : List Ptr) (c : Call) : Prop :=
  ∃ l rela addr, IsSlot w ps c.object c.index l rela ∧ BoundTo w l rela addr

/-- The call arrives where a call bound in advance would, with the registers
and the stack of the caller. -/
def Reaches (w : Rtld) (ps : List Ptr) (c : Call) (cpu : Cpu) : Prop :=
  ∃ l rela addr, IsSlot w ps c.object c.index l rela ∧ BoundTo w l rela addr ∧
    cpu = { c.cpu with rip := addr, r11 := cpu.r11 }

theorem run_calls.spec {stub : Ptr → Nat → Addr} {resolver : Addr} {w w' : Rtld} {ps : List Ptr}
    {called : List (Ptr × Nat)} (h : LazyReady w ps) (hb : Bound stub resolver w ps called w')
    (cs : List Call) (hcs : ∀ c ∈ cs, Defined w ps c) :
    ∃ cpus w'', run_calls stub resolver cs w' = .ok (cpus, w'') ∧
      List.Forall₂ (Reaches w ps) cs cpus ∧
      Bound stub resolver w ps ((cs.map fun c => (c.object, c.index)).reverse ++ called) w'' := by
  induction cs generalizing called w' with
  | nil => exact ⟨[], w', rfl, .nil, hb⟩
  | cons c cs ih =>
    obtain ⟨l, rela, addr, hs, haddr⟩ := hcs c List.mem_cons_self
    obtain ⟨cpu, w1, hcall, hcpu, hb1⟩ := plt_call.spec h hb c hs haddr
    obtain ⟨cpus, w2, hrun, hreach, hb2⟩ := ih hb1 fun d hd => hcs d (List.mem_cons_of_mem _ hd)
    refine ⟨cpu :: cpus, w2, ?_, .cons ⟨l, rela, addr, hs, haddr, hcpu⟩ hreach, ?_⟩
    · simp only [run_calls, bind, Except.bind, hcall, hrun]
    · rw [List.map_cons, List.reverse_cons, List.append_assoc]
      exact hb2

/-! ## The state that `reloc_all` leaves -/

/-- The conventions of the linker for the PLT: each entry of `DT_JMPREL` is a
jump slot, and its slot holds the link-time address of the push of its stub.
The push has 32 bits for the index. -/
structure PltConvention (stub : Ptr → Nat → Addr) (w : Rtld) (ps : List Ptr) : Prop where
  slots : ∀ p n l rela, IsSlot w ps p n l rela → R_TYPE rela.r_info = R_X86_64_JUMP_SLOT ∧
    read64 w.mem (target l rela) = stub p n
  small : ∀ p n l rela, IsSlot w ps p n l rela → n < 2 ^ 32

section

variable {stub : Ptr → Nat → Addr} {resolver : Addr} {w w' : Rtld} {ps : List Ptr}

theorem isSlot_before (hsame : SameObjects w w') {p : Ptr} {n : Nat} {l' : LinkMap} {rela : Rela}
    (hs : IsSlot w' ps p n l' rela) :
    ∃ l, IsSlot w ps p n l rela ∧ unmarked l' = unmarked l := by
  obtain ⟨hp, hl', hrela⟩ := hs
  obtain ⟨l, hl, heq⟩ := hsame.symm.get hl'
  have hplt : pltEntries l' = pltEntries l := unmarked_field heq.symm pltEntries fun _ => rfl
  exact ⟨l, ⟨hp, hl, by rw [← hplt]; exact hrela⟩, heq.symm⟩

theorem Defined.after (hsame : SameObjects w w') {c : Call} (h : Defined w ps c) :
    Defined w' ps c := by
  obtain ⟨l, rela, addr, hs, name, hname, hres⟩ := h
  obtain ⟨l', hs', heq⟩ := isSlot_before hsame.symm hs
  have hname' : entryName l' rela = entryName l rela :=
    unmarked_field heq.symm (entryName · rela) fun _ => rfl
  exact ⟨l', rela, addr, hs', name, by rw [hname', hname], hres.same hsame⟩

theorem allApart_after (hsame : SameObjects w w') (h : AllApart w ps) : AllApart w' ps := by
  have hdests : destsOf w' = destsOf w := by
    funext p
    unfold destsOf
    cases hl : w.maps[p]? with
    | none =>
      have hp := congrArg (·[p]?) hsame.2
      simp only [List.getElem?_map, hl, Option.map_none, Option.map_eq_none_iff] at hp
      rw [hp]
    | some l =>
      obtain ⟨l', hl', heq⟩ := hsame.get hl
      have : dests l' = dests l := unmarked_field heq dests fun _ => rfl
      simp [hl', this]
  unfold AllApart
  rw [hdests]
  exact h

theorem lazyReady_of_reloc_all (hun : Unrelocated w ps) (hplt : PltConvention stub w ps)
    (hself : (w.maps.map LinkMap.self).Nodup) (hrun : reloc_all resolver w = .ok w')
    (hsame : SameObjects w w') : LazyReady w' ps where
  apart := allApart_after hsame hun.apart
  selfs := by
    have hmap := congrArg (List.map LinkMap.self) hsame.2
    simp only [List.map_map] at hmap
    have hcomp : LinkMap.self ∘ unmarked = LinkMap.self := rfl
    rw [hcomp] at hmap
    rw [hmap]
    exact hself
  ready := by
    intro p hp l' hl' hv
    obtain ⟨l, hl, heq⟩ := hsame.symm.get hl'
    have hinfo : l'.l_info = l.l_info := unmarked_field heq.symm LinkMap.l_info fun _ => rfl
    have hv' : D_VALID l DT_PLTGOT = true := by
      unfold D_VALID
      rw [← hinfo]
      exact hv
    rw [hinfo]
    exact (hun.read64_got hrun hp hl hv').1 hv'
  small := by
    intro p hp l' hl' n rela hrela
    obtain ⟨l, hs, _⟩ := isSlot_before hsame ⟨hp, hl', hrela⟩
    exact hplt.small p n l rela hs

/-- After `reloc_all` no entry has been called. -/
theorem bound_of_reloc_all (hun : Unrelocated w ps) (hplt : PltConvention stub w ps)
    (hrun : reloc_all resolver w = .ok w') (hsame : SameObjects w w') :
    Bound stub resolver w' ps [] w' where
  maps := rfl
  ns := rfl
  bound := by
    intro p n l rela _ hmem
    cases hmem
  unbound := by
    intro p n l' rela hs' _
    obtain ⟨l, hs, heq⟩ := isSlot_before hsame hs'
    have haddr : l'.l_addr = l.l_addr := unmarked_field heq LinkMap.l_addr fun _ => rfl
    have htarget : target l' rela = target l rela := by rw [target, target, haddr]
    obtain ⟨htype, hold⟩ := hplt.slots p n l rela hs
    obtain ⟨u, mem, hu, hmem, hnew⟩ := hun.read64_entry hrun hs.1 hs.2.1
      (List.mem_append_right _ (List.mem_of_getElem? hs.2.2))
    rw [htarget, haddr, hnew]
    cases hu with
    | relative _ ht => rw [htype] at ht; cases ht
    | symbol _ ht =>
      rw [htype] at ht
      rcases ht with ht | ht <;> cases ht
    | copy _ ht => rw [htype] at ht; cases ht
    | jumpSlot =>
      simp only
      rw [hmem, hold]
      exact BitVec.add_comm _ _
  got := by
    intro p hp l' hl' hv
    obtain ⟨l, hl, heq⟩ := hsame.symm.get hl'
    have hgot : gotAddr l' = gotAddr l := unmarked_field heq.symm gotAddr fun _ => rfl
    have hself : l'.self = l.self := unmarked_field heq.symm LinkMap.self fun _ => rfl
    have hv' : D_VALID l DT_PLTGOT = true := by
      rw [← unmarked_field heq.symm (fun l => D_VALID l DT_PLTGOT) fun _ => rfl]
      exact hv
    rw [hgot, hself]
    exact (hun.read64_got hrun hp hl hv').2

end

/-! ## The law -/

/-- Lazy binding refines eager binding. On every namespace that `reloc_all`
has relocated and for every sequence of calls through PLT entries with defined
symbols, each call arrives at the definition that the lookup finds, with the
registers and the stack of the caller. The slots of the entries called hold
these addresses, every other slot still leads to its stub, and `got[1]` and
`got[2]` of every object are as they were. -/
theorem lazy_binding_refines_eager_binding (stub : Ptr → Nat → Addr) (resolver : Addr)
    (w w1 : Rtld) (ps : List Ptr) (hun : Unrelocated w ps) (hplt : PltConvention stub w ps)
    (hself : (w.maps.map LinkMap.self).Nodup) (hrun : reloc_all resolver w = .ok w1)
    (cs : List Call) (hcs : ∀ c ∈ cs, Defined w1 ps c) :
    ∃ cpus w2, run_calls stub resolver cs w1 = .ok (cpus, w2) ∧
      List.Forall₂ (Reaches w1 ps) cs cpus ∧
      (∀ p n l rela, IsSlot w1 ps p n l rela →
        ((∃ c ∈ cs, c.object = p ∧ c.index = n) →
          ∃ addr, BoundTo w1 l rela addr ∧ read64 w2.mem (target l rela) = addr) ∧
        ((¬ ∃ c ∈ cs, c.object = p ∧ c.index = n) →
          read64 w2.mem (target l rela) = l.l_addr + stub p n)) ∧
      ∀ p ∈ ps, ∀ l, w1.maps[p]? = some l → D_VALID l DT_PLTGOT = true →
        read64 w2.mem (gotAddr l + 8) = read64 w1.mem (gotAddr l + 8) ∧
        read64 w2.mem (gotAddr l + 16) = read64 w1.mem (gotAddr l + 16) := by
  have hne : ps ≠ [] := by
    rintro rfl
    have hns : w._namespace = none := hun.linked
    rw [reloc_all, hns] at hrun
    cases hrun
  have hsame := (reloc_all_ok hne hun hrun).1
  have hready := lazyReady_of_reloc_all hun hplt hself hrun hsame
  have hstart := bound_of_reloc_all hun hplt hrun hsame
  obtain ⟨cpus, w2, hcalls, hreach, hend⟩ := run_calls.spec hready hstart cs hcs
  have hcalled : ∀ p n, (p, n) ∈ (cs.map fun c => (c.object, c.index)).reverse ++ [] ↔
      ∃ c ∈ cs, c.object = p ∧ c.index = n := by
    intro p n
    simp
  refine ⟨cpus, w2, hcalls, hreach, ?_, ?_⟩
  · intro p n l rela hs
    rw [← hcalled]
    exact ⟨hend.bound p n l rela hs, hend.unbound p n l rela hs⟩
  · intro p hp l hl hv
    obtain ⟨h1, h2⟩ := hstart.got p hp l hl hv
    obtain ⟨h1', h2'⟩ := hend.got p hp l hl hv
    rw [h1, h2, h1', h2']
    exact ⟨rfl, rfl⟩

/-- An object that calls its own function `f` through its PLT. -/
def fObject : LinkMap :=
  { init_link_map 0x5000 { emptyImage with
      strtab := [0, 102, 0]
      symtab := [
        { st_name := 0, st_info := 0, st_shndx := 0, st_value := 0, st_size := 0 },
        { st_name := 1, st_info := 0x12, st_shndx := 9, st_value := 0x400, st_size := 16 }]
      hash := [1, 2, 1, 0, 0]
      jmprel := [{ r_offset := 0x2018, r_info := 0x100000007, r_addend := 0 }] } with
    l_addr := 0x10000
    l_info := fun i =>
      if i = DT_PLTRELSZ then some { d_tag := i, d_un := 24 }
      else if i = DT_PLTREL then some { d_tag := i, d_un := 7 }
      else if i = DT_PLTGOT then some { d_tag := i, d_un := 0x2000 }
      else if i = DT_SYMTAB ∨ i = DT_STRTAB ∨ i = DT_JMPREL then some { d_tag := i, d_un := 0x100 }
      else none
    l_nbuckets := 1
    l_buckets := some 2
    l_chain := some 3 }

/-- The slot of `f` holds the address of its stub, as in the file. -/
def fWorld : Rtld where
  _dl_pagesize := 4096
  _dl_stack_flags := 0
  _namespace := some 0
  _rpath := []
  maps := [fObject]
  proc := { emptyProc with space := { emptyProc.space with
    byte := write64 (fun _ => 0) 0x12018 0x116 } }

def fCall : Call where
  object := 0
  index := 0
  cpu := ⟨1, 2, 3, 4, 5, 6, 7, 8, 9, [10]⟩
  scratch := ⟨0, 0, 0, 0, 0, 0, 0, 0, 0, []⟩

theorem fWorld_slot {p : Ptr} {n : Nat} {l : LinkMap} {rela : Rela}
    (h : IsSlot fWorld [0] p n l rela) : p = 0 ∧ n = 0 ∧ l = fObject ∧
      rela = { r_offset := 0x2018, r_info := 0x100000007, r_addend := 0 } := by
  obtain ⟨hp, hl, hrela⟩ := h
  rw [List.mem_singleton] at hp
  subst hp
  cases hl
  cases n with
  | zero =>
    cases hrela
    exact ⟨rfl, rfl, rfl, rfl⟩
  | succ n =>
    have hlen := (List.getElem?_eq_some_iff.mp hrela).1
    have : (pltEntries fObject).length = 1 := rfl
    omega

theorem lazy_binding_of_f :
    ∃ w1 cpus w2, reloc_all 0x7000 fWorld = .ok w1 ∧
      run_calls (fun _ _ => 0x116) 0x7000 [fCall, fCall] w1 = .ok (cpus, w2) ∧
      List.Forall₂ (Reaches w1 [0]) [fCall, fCall] cpus := by
  obtain ⟨w1, hw1⟩ : ∃ w1, reloc_all 0x7000 fWorld = .ok w1 := by
    have hok : (reloc_all 0x7000 fWorld).isOk = true := by decide +kernel
    cases hrun : reloc_all 0x7000 fWorld with
    | ok w1 => exact ⟨w1, rfl⟩
    | error e =>
      rw [hrun] at hok
      cases hok
  have hun : Unrelocated fWorld [0] := by
    refine ⟨⟨rfl, fObject, rfl, rfl, rfl⟩, ?_, ?_⟩
    · intro p hp
      rw [List.mem_singleton] at hp
      subst hp
      exact ⟨fObject, rfl, rfl⟩
    · have : [0].flatMap (destsOf fWorld) = [0x12018, 0x12008, 0x12010] := rfl
      rw [AllApart, this]
      decide
  have hplt : PltConvention (fun _ _ => 0x116) fWorld [0] := by
    constructor
    · intro p n l rela hs
      obtain ⟨rfl, rfl, rfl, rfl⟩ := fWorld_slot hs
      exact ⟨by decide, read64_write64_self _ _ _⟩
    · intro p n l rela hs
      obtain ⟨rfl, rfl, rfl, rfl⟩ := fWorld_slot hs
      decide
  have hdef : Defined fWorld [0] fCall :=
    ⟨fObject, _, 0x10400, ⟨List.mem_cons_self, rfl, rfl⟩, CString.lit ['f'], rfl,
      ⟨_, 0⟩, fObject, rfl, rfl, rfl⟩
  have hsame := (reloc_all_ok (by simp) hun hw1).1
  obtain ⟨cpus, w2, hcalls, hreach, _⟩ := lazy_binding_refines_eager_binding
    (fun _ _ => 0x116) 0x7000 fWorld w1 [0] hun hplt (by decide) hw1 [fCall, fCall] (by
      intro c hc
      have : c = fCall := by simpa using hc
      rw [this]
      exact hdef.after hsame)
  exact ⟨w1, cpus, w2, hw1, hcalls, hreach⟩

end elf_loader.reloc
