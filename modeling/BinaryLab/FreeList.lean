-- The list of free areas as a list of spans. The operations of the heap refine
-- those on spans: a block that is freed is one more span, and a block that is
-- allocated is taken from the front of one.
import BinaryLab.HeapAreas
import BinaryLab.Copies
import BinaryLab.Runs
import BinaryLab.Spans

set_option linter.style.nameCheck false

open binary_lab.runs binary_lab.words binary_lab.pages binary_lab.spans

namespace elf_loader.malloc

/-! ## Fields -/

section

variable {h : Heap} {a b : Addr} {f g : Field} {v : BitVec 64} {x : Addr}

theorem Field.offset_le (f : Field) : f.offset.toNat ≤ 16 := by
  cases f <;> decide

theorem get_set_self : (h.set a f v).get a f = v := read64_write64_self _ _ _

theorem get_set_field (hfg : f ≠ g) : (h.set a f v).get a g = h.get a g := by
  apply read64_write64_apart
  have hdiff : ∀ c d : BitVec 64, a + c - (a + d) = c - d := by
    intro c d
    bv_omega
  unfold Apart
  rw [hdiff, hdiff]
  cases f <;> cases g <;> first | exact absurd rfl hfg | decide

/-- The two headers share no byte. -/
def HeadersApart (a b : Addr) : Prop :=
  a.toNat + 24 ≤ 2 ^ 64 ∧ b.toNat + 24 ≤ 2 ^ 64 ∧
    (a.toNat + 24 ≤ b.toNat ∨ b.toNat + 24 ≤ a.toNat)

theorem HeadersApart.symm (hab : HeadersApart a b) : HeadersApart b a :=
  ⟨hab.2.1, hab.1, hab.2.2.symm⟩

theorem get_set_apart (hab : HeadersApart a b) : (h.set a f v).get b g = h.get b g := by
  obtain ⟨ha, hb, hside⟩ := hab
  have hf := f.offset_le
  have hg := g.offset_le
  have hfield : ∀ (c : Addr) (o : Field), c.toNat + 24 ≤ 2 ^ 64 →
      (c + o.offset).toNat = c.toNat + o.offset.toNat := by
    intro c o hc
    have ho := o.offset_le
    rw [BitVec.toNat_add, Nat.mod_eq_of_lt (by omega)]
  have hfa := hfield a f ha
  have hgb := hfield b g hb
  apply read64_write64_apart
  unfold Apart
  rw [BitVec.toNat_sub, BitVec.toNat_sub, hfa, hgb]
  omega

theorem set_mem_outside (ha : a.toNat + 24 ≤ 2 ^ 64) (hx : ¬ Within x a.toNat 24) :
    (h.set a f v).mem x = h.mem x := by
  have hf := f.offset_le
  have hfa : (a + f.offset).toNat = a.toNat + f.offset.toNat := by
    rw [BitVec.toNat_add, Nat.mod_eq_of_lt (by omega)]
  apply write64_outside
  · omega
  · unfold Within at hx ⊢
    omega

end

/-! ## The list in memory -/

/-- A span of user addresses that can be a free area or a block. -/
structure Area (s : Span Nat) : Prop where
  start : s.start % 8 = 0
  stop : s.stop % 8 = 0
  nonnull : 0 < s.start
  user : s.stop ≤ 2 ^ 63

/-- The size of a span. -/
def len (s : Span Nat) : Nat := s.stop - s.start

/-- The header of the area. -/
def header (s : Span Nat) : Addr := BitVec.ofNat 64 (s.stop - 24)

/-- The header of the first area, or what comes behind the list. -/
def first : List (Span Nat) → Addr → Addr
  | [], e => e
  | s :: _, _ => header s

/-- The header of the last area, or what comes in front of the list. -/
def last : Addr → List (Span Nat) → Addr
  | p, [] => p
  | _, s :: ss => last (header s) ss

/-- The areas `ss` are linked, with `p` in front of them and `e` behind them. -/
def Linked (h : Heap) : Addr → List (Span Nat) → Addr → Prop
  | _, [], _ => True
  | p, s :: ss, e => (h.get (header s) .size = BitVec.ofNat 64 (len s) ∧
      h.get (header s) .next = first ss e ∧ h.get (header s) .prev = p) ∧ Linked h (header s) ss e

/-- The areas are in order with gaps between them, and each one has room for its header. -/
structure Good (ss : List (Span Nat)) : Prop where
  gapped : Gapped ss
  area : ∀ s ∈ ss, Area s
  room : ∀ s ∈ ss, 24 ≤ len s

/-- The heap has the free areas `ss`. -/
structure IsHeap (h : Heap) (ss : List (Span Nat)) : Prop where
  good : Good ss
  heap : h.heap = first ss 0
  linked : Linked h 0 ss 0

/-- The memory is the same but for the addresses `A`. -/
def SameBut (A : Set Nat) (m m' : Bytes) : Prop := ∀ x : Addr, x.toNat ∉ A → m' x = m x

theorem SameBut.refl (A : Set Nat) (m : Bytes) : SameBut A m m := fun _ _ => rfl

theorem SameBut.trans {A : Set Nat} {m m' m'' : Bytes} (h : SameBut A m m')
    (h' : SameBut A m' m'') : SameBut A m m'' := fun x hx => (h' x hx).trans (h x hx)

theorem SameBut.mono {A B : Set Nat} {m m' : Bytes} (h : SameBut A m m') (hAB : A ⊆ B) :
    SameBut B m m' := fun x hx => h x fun hin => hx (hAB hin)

section

variable {h h' : Heap} {s t : Span Nat} {ss ts ps qs : List (Span Nat)} {p e p' e' : Addr}

theorem toNat_header (ha : Area s) : (header s).toNat = s.stop - 24 := by
  have := ha.user
  rw [header, BitVec.toNat_ofNat, Nat.mod_eq_of_lt (by omega)]

theorem header_ne_zero (ha : Area s) (hroom : 24 ≤ len s) : header s ≠ 0 := by
  intro h0
  have hz := congrArg BitVec.toNat h0
  have := ha.nonnull
  rw [toNat_header ha, show (0 : Addr).toNat = 0 from rfl] at hz
  unfold len at hroom
  omega

theorem headersApart (ha : Area s) (hroom : 24 ≤ len s) (ha' : Area t) (hroom' : 24 ≤ len t)
    (hst : s.stop ≤ t.start ∨ t.stop ≤ s.start) : HeadersApart (header s) (header t) := by
  have h1 := toNat_header ha
  have h2 := toNat_header ha'
  have h3 := ha.user
  have h4 := ha'.user
  unfold len at hroom hroom'
  unfold HeadersApart
  omega

theorem Good.tail (hs : Good (s :: ss)) : Good ss :=
  ⟨hs.gapped.tail, fun t ht => hs.area t (List.mem_cons_of_mem _ ht),
    fun t ht => hs.room t (List.mem_cons_of_mem _ ht)⟩

theorem good_append : Good (ps ++ qs) ↔
    Good ps ∧ Good qs ∧ ∀ a ∈ ps, ∀ b ∈ qs, a.stop < b.start := by
  constructor
  · intro hg
    obtain ⟨h1, h2, h3⟩ := gapped_append.mp hg.gapped
    exact ⟨⟨h1, fun s hs => hg.area s (List.mem_append_left _ hs),
      fun s hs => hg.room s (List.mem_append_left _ hs)⟩,
      ⟨h2, fun s hs => hg.area s (List.mem_append_right _ hs),
      fun s hs => hg.room s (List.mem_append_right _ hs)⟩, h3⟩
  · rintro ⟨h1, h2, h3⟩
    refine ⟨gapped_append.mpr ⟨h1.gapped, h2.gapped, h3⟩, ?_, ?_⟩
    · intro s hs
      exact (List.mem_append.mp hs).elim (h1.area s) (h2.area s)
    · intro s hs
      exact (List.mem_append.mp hs).elim (h1.room s) (h2.room s)

theorem first_append : first (ps ++ qs) e = first ps (first qs e) := by
  cases ps <;> rfl

theorem last_mem (hne : ps ≠ []) : ∃ s ∈ ps, last p ps = header s := by
  induction ps generalizing p with
  | nil => exact absurd rfl hne
  | cons s ss ih =>
    cases ss with
    | nil => exact ⟨s, List.mem_cons_self, rfl⟩
    | cons t ts =>
      obtain ⟨u, hu, hlast⟩ := ih (p := header s) (List.cons_ne_nil _ _)
      exact ⟨u, List.mem_cons_of_mem _ hu, hlast⟩

theorem linked_append : Linked h p (ps ++ qs) e ↔
    Linked h p ps (first qs e) ∧ Linked h (last p ps) qs e := by
  induction ps generalizing p with
  | nil => exact ⟨fun hq => ⟨trivial, hq⟩, fun hq => hq.2⟩
  | cons s ss ih =>
    have hhead : first (ss ++ qs) e = first ss (first qs e) := first_append
    constructor
    · rintro ⟨hs, hrest⟩
      obtain ⟨hss, hqs⟩ := ih.mp hrest
      exact ⟨⟨⟨hs.1, hs.2.1.trans hhead, hs.2.2⟩, hss⟩, hqs⟩
    · rintro ⟨⟨hs, hss⟩, hqs⟩
      exact ⟨⟨hs.1, hs.2.1.trans hhead.symm, hs.2.2⟩, ih.mpr ⟨hss, hqs⟩⟩

/-- The links are kept if the headers are. -/
theorem Linked.keep (hl : Linked h p ss e)
    (hsame : ∀ s ∈ ss, ∀ f, h'.get (header s) f = h.get (header s) f) : Linked h' p ss e := by
  induction ss generalizing p with
  | nil => trivial
  | cons s ss ih =>
    obtain ⟨⟨hsize, hnext, hprev⟩, hrest⟩ := hl
    refine ⟨⟨?_, ?_, ?_⟩, ih hrest fun t ht => hsame t (List.mem_cons_of_mem _ ht)⟩
    · rw [hsame s List.mem_cons_self, hsize]
    · rw [hsame s List.mem_cons_self, hnext]
    · rw [hsame s List.mem_cons_self, hprev]

/-- A store to the header at `a` is none to a header of the list. -/
theorem Linked.set_apart {a : Addr} {f : Field} {v : BitVec 64} (hl : Linked h p ss e)
    (ha : ∀ s ∈ ss, HeadersApart a (header s)) : Linked (h.set a f v) p ss e :=
  hl.keep fun s hs _ => get_set_apart (ha s hs)

theorem Good.apart (hg : Good (s :: ss)) (ht : t ∈ ss) : HeadersApart (header s) (header t) :=
  headersApart (hg.area s List.mem_cons_self) (hg.room s List.mem_cons_self)
    (hg.area t (List.mem_cons_of_mem _ ht)) (hg.room t (List.mem_cons_of_mem _ ht))
    (.inl (le_of_lt ((List.pairwise_cons.mp hg.gapped).1 t ht)))

theorem first_ne_zero (hg : Good (s :: ss)) : first (s :: ss) e ≠ 0 :=
  header_ne_zero (hg.area s List.mem_cons_self) (hg.room s List.mem_cons_self)

theorem last_ne_zero (hg : Good ps) (hne : ps ≠ []) : last p ps ≠ 0 := by
  obtain ⟨s, hs, hlast⟩ := last_mem (p := p) hne
  rw [hlast]
  exact header_ne_zero (hg.area s hs) (hg.room s hs)

/-- With another area behind the list, the last one points to it. -/
theorem Linked.set_next (hl : Linked h p ps e) (hg : Good ps) (hne : ps ≠ []) :
    Linked (h.set (last p ps) .next e') p ps e' := by
  induction ps generalizing p with
  | nil => exact absurd rfl hne
  | cons s ss ih =>
    obtain ⟨⟨hsize, hnext, hprev⟩, hrest⟩ := hl
    cases ss with
    | nil =>
      refine ⟨⟨?_, get_set_self, ?_⟩, trivial⟩
      · exact (get_set_field (by decide)).trans hsize
      · exact (get_set_field (by decide)).trans hprev
    | cons t ts =>
      obtain ⟨u, hu, hlast⟩ := last_mem (p := header s) (List.cons_ne_nil t ts)
      have hapart : HeadersApart (last (header s) (t :: ts)) (header s) := by
        rw [hlast]
        exact (hg.apart hu).symm
      refine ⟨⟨?_, ?_, ?_⟩, ih hrest hg.tail (List.cons_ne_nil _ _)⟩
      · exact (get_set_apart hapart).trans hsize
      · exact (get_set_apart hapart).trans hnext
      · exact (get_set_apart hapart).trans hprev

/-- With another area in front of the list, the first one points back to it. -/
theorem Linked.set_prev (hl : Linked h p (s :: ss) e) (hg : Good (s :: ss)) :
    Linked (h.set (header s) .prev p') p' (s :: ss) e := by
  obtain ⟨⟨hsize, hnext, _⟩, hrest⟩ := hl
  refine ⟨⟨?_, ?_, get_set_self⟩, hrest.set_apart fun t ht => hg.apart ht⟩
  · rw [get_set_field (by decide), hsize]
  · rw [get_set_field (by decide), hnext]

/-! ## Both sides of a place in the list -/

/-- The heap starts with the areas `ps`, and goes on with `e`. -/
def Before (h : Heap) (ps : List (Span Nat)) (e : Addr) : Prop :=
  h.heap = first ps e ∧ Linked h 0 ps e

theorem IsHeap.split (hh : IsHeap h (ps ++ qs)) :
    Before h ps (first qs 0) ∧ Linked h (last 0 ps) qs 0 := by
  obtain ⟨hp, hq⟩ := linked_append.mp hh.linked
  exact ⟨⟨hh.heap.trans first_append, hp⟩, hq⟩

theorem isHeap_of_split (hg : Good (ps ++ qs)) (hp : Before h ps (first qs 0))
    (hq : Linked h (last 0 ps) qs 0) : IsHeap h (ps ++ qs) :=
  ⟨hg, hp.1.trans first_append.symm, linked_append.mpr ⟨hp.2, hq⟩⟩

theorem Before.set_after (hb : Before h ps e) (hg : Good ps) :
    Before (h.set_after (last 0 ps) e') ps e' := by
  unfold Heap.set_after
  cases ps with
  | nil =>
    rw [if_neg (fun hne => hne rfl)]
    exact ⟨rfl, trivial⟩
  | cons s ss =>
    rw [if_pos (last_ne_zero hg (List.cons_ne_nil _ _))]
    exact ⟨hb.1, hb.2.set_next hg (List.cons_ne_nil _ _)⟩

theorem Before.set_apart {a : Addr} {f : Field} {v : BitVec 64} (hb : Before h ps e)
    (ha : ∀ s ∈ ps, HeadersApart a (header s)) : Before (h.set a f v) ps e :=
  ⟨hb.1, hb.2.set_apart ha⟩

theorem get_set_after {b : Addr} {g : Field} (hps : ∀ s ∈ ps, HeadersApart (header s) b) :
    (h.set_after (last 0 ps) e).get b g = h.get b g := by
  unfold Heap.set_after
  split_ifs with h0
  · have hne : ps ≠ [] := by
      rintro rfl
      exact h0 rfl
    obtain ⟨s, hs, hlast⟩ := last_mem (p := 0) hne
    rw [hlast]
    exact get_set_apart (hps s hs)
  · rfl

theorem Linked.set_after (hl : Linked h p qs e) (hg : Good (ps ++ qs)) :
    Linked (h.set_after (last 0 ps) e') p qs e := by
  obtain ⟨hp, hq, hpq⟩ := good_append.mp hg
  refine hl.keep fun t ht f => get_set_after fun s hs => ?_
  exact headersApart (hp.area s hs) (hp.room s hs) (hq.area t ht) (hq.room t ht)
    (.inl (le_of_lt (hpq s hs t ht)))

theorem Linked.set_before (hl : Linked h p qs 0) (hg : Good qs) :
    Linked (h.set_before (first qs 0) p') p' qs 0 := by
  unfold Heap.set_before
  cases qs with
  | nil => trivial
  | cons s ss =>
    rw [if_pos (first_ne_zero hg)]
    exact hl.set_prev hg

theorem get_set_before {b : Addr} {g : Field} (hqs : ∀ s ∈ qs, HeadersApart (header s) b) :
    (h.set_before (first qs 0) p).get b g = h.get b g := by
  unfold Heap.set_before
  cases qs with
  | nil => rw [if_neg (fun hne => hne rfl)]
  | cons s ss =>
    split_ifs
    · exact get_set_apart (hqs s List.mem_cons_self)
    · rfl

theorem Before.set_before (hb : Before h ps e) (hg : Good (ps ++ qs)) :
    Before (h.set_before (first qs 0) p) ps e := by
  obtain ⟨hp, hq, hpq⟩ := good_append.mp hg
  refine ⟨?_, hb.2.keep fun t ht f => get_set_before fun s hs => ?_⟩
  · unfold Heap.set_before
    split_ifs
    · exact hb.1
    · exact hb.1
  · exact headersApart (hq.area s hs) (hq.room s hs) (hp.area t ht) (hp.room t ht)
      (.inr (le_of_lt (hpq t ht s hs)))

end

/-! ## Parts of a heap -/

/-- A heap with the areas `ps`, `t` and `qs`, of which `t` may have a wrong size. -/
structure Parts (h : Heap) (ps : List (Span Nat)) (t : Span Nat) (qs : List (Span Nat)) : Prop where
  good : Good (ps ++ t :: qs)
  before : Before h ps (header t)
  next : h.get (header t) .next = first qs 0
  prev : h.get (header t) .prev = last 0 ps
  behind : Linked h (header t) qs 0

section

variable {h h' : Heap} {s t : Span Nat} {ss ps qs : List (Span Nat)} {p e : Addr} {f : Field}
  {v : BitVec 64}

theorem Good.middle (hg : Good (ps ++ t :: qs)) :
    (∀ s ∈ ps, HeadersApart (header t) (header s)) ∧
      ∀ s ∈ qs, HeadersApart (header t) (header s) := by
  obtain ⟨hp, hq, hpq⟩ := good_append.mp hg
  refine ⟨fun s hs => ?_, fun s hs => hq.apart hs⟩
  exact headersApart (hq.area t List.mem_cons_self) (hq.room t List.mem_cons_self)
    (hp.area s hs) (hp.room s hs) (.inr (le_of_lt (hpq s hs t List.mem_cons_self)))

theorem Good.without (hg : Good (ps ++ t :: qs)) : Good (ps ++ qs) := by
  obtain ⟨hgp, hgq, hpq⟩ := good_append.mp hg
  exact good_append.mpr ⟨hgp, hgq.tail, fun a ha b hb => hpq a ha b (List.mem_cons_of_mem _ hb)⟩

theorem Parts.isHeap (hparts : Parts h ps t qs)
    (hsize : h.get (header t) .size = BitVec.ofNat 64 (len t)) : IsHeap h (ps ++ t :: qs) :=
  isHeap_of_split hparts.good hparts.before ⟨⟨hsize, hparts.next, hparts.prev⟩, hparts.behind⟩

theorem Parts.set_size (hparts : Parts h ps t qs) :
    IsHeap (h.set (header t) .size (BitVec.ofNat 64 (len t))) (ps ++ t :: qs) := by
  obtain ⟨hp, hq⟩ := hparts.good.middle
  have hafter : Parts (h.set (header t) .size (BitVec.ofNat 64 (len t))) ps t qs := {
    good := hparts.good
    before := hparts.before.set_apart hp
    next := (get_set_field (by decide)).trans hparts.next
    prev := (get_set_field (by decide)).trans hparts.prev
    behind := hparts.behind.set_apart hq }
  exact hafter.isHeap get_set_self

/-- An area is put between its neighbours. -/
theorem parts_link (hg : Good (ps ++ t :: qs)) (hb : Before h ps e) (hq : Linked h p qs 0) :
    Parts (__heap_link_free_area h (header t) (last 0 ps) (first qs 0)) ps t qs ∧
      (__heap_link_free_area h (header t) (last 0 ps) (first qs 0)).get (header t) .size =
        h.get (header t) .size := by
  obtain ⟨hps, hqs⟩ := hg.middle
  obtain ⟨hgp, hgq, _⟩ := good_append.mp hg
  have hgpq := hg.without
  have hbefore : Before (__heap_link_free_area h (header t) (last 0 ps) (first qs 0)) ps
      (header t) := (((hb.set_apart hps).set_apart hps).set_after hgp).set_before hgpq
  have hbehind : Linked (__heap_link_free_area h (header t) (last 0 ps) (first qs 0))
      (header t) qs 0 := (((hq.set_apart hqs).set_apart hqs).set_after hgpq).set_before hgq.tail
  have hfields : ∀ g, (__heap_link_free_area h (header t) (last 0 ps) (first qs 0)).get
      (header t) g = ((h.set (header t) .next (first qs 0)).set (header t) .prev
        (last 0 ps)).get (header t) g := by
    intro g
    unfold __heap_link_free_area
    rw [get_set_before fun s hs => (hqs s hs).symm, get_set_after fun s hs => (hps s hs).symm]
  refine ⟨⟨hg, hbefore, ?_, ?_, hbehind⟩, ?_⟩
  · rw [hfields, get_set_field (by decide), get_set_self]
  · rw [hfields, get_set_self]
  · rw [hfields, get_set_field (by decide), get_set_field (by decide)]

theorem parts_link_after (hg : Good (ps ++ t :: qs)) (hb : Before h ps e)
    (hnext : h.get (header t) .next = first qs 0) (hq : Linked h (header t) qs 0) :
    Parts (__heap_link_free_area_after h (header t) (last 0 ps)) ps t qs := by
  obtain ⟨hps, hqs⟩ := hg.middle
  obtain ⟨hgp, _, _⟩ := good_append.mp hg
  exact {
    good := hg
    before := (hb.set_after hgp).set_apart hps
    next := by
      rw [__heap_link_free_area_after, get_set_field (by decide),
        get_set_after fun s hs => (hps s hs).symm, hnext]
    prev := get_set_self
    behind := (hq.set_after hg.without).set_apart hqs }

theorem delete_eq (hh : IsHeap h (ps ++ t :: qs)) : __heap_delete h (header t) =
    (h.set_before (first qs 0) (last 0 ps)).set_after (last 0 ps) (first qs 0) := by
  obtain ⟨_, hqs⟩ := hh.good.middle
  obtain ⟨_, ⟨_, hnext, hprev⟩, _⟩ := hh.split
  have hkept : ∀ g, (h.set_before (first qs 0) (last 0 ps)).get (header t) g =
      h.get (header t) g := fun g => get_set_before fun s hs => (hqs s hs).symm
  simp only [__heap_delete, hnext, hprev, hkept]

/-- Without one of its areas. -/
theorem isHeap_delete (hh : IsHeap h (ps ++ t :: qs)) :
    IsHeap (__heap_delete h (header t)) (ps ++ qs) := by
  obtain ⟨hgp, hgq, _⟩ := good_append.mp hh.good
  have hgpq := hh.good.without
  obtain ⟨hb, _, hq⟩ := hh.split
  rw [delete_eq hh]
  exact isHeap_of_split hgpq ((hb.set_before hgpq).set_after hgp)
    ((hq.set_before hgq.tail).set_after hgpq)

/-! ## What the stores leave alone -/

theorem Good.sameBut_set (hg : Good ss) (ht : t ∈ ss) :
    SameBut (cover ss) h.mem (h.set (header t) f v).mem := by
  intro x hx
  have ha := hg.area t ht
  have hheader := toNat_header ha
  have hroom := hg.room t ht
  have huser := ha.user
  unfold len at hroom
  apply set_mem_outside
  · omega
  · rintro ⟨h1, h2⟩
    exact hx ⟨t, ht, by omega, by omega⟩

theorem Good.sameBut_set_after (hg : Good ss) (hsub : ps ⊆ ss) :
    SameBut (cover ss) h.mem (h.set_after (last 0 ps) e).mem := by
  unfold Heap.set_after
  split_ifs with h0
  · have hne : ps ≠ [] := by
      rintro rfl
      exact h0 rfl
    obtain ⟨s, hs, hlast⟩ := last_mem (p := 0) hne
    rw [hlast]
    exact hg.sameBut_set (hsub hs)
  · exact SameBut.refl _ _

theorem Good.sameBut_set_before (hg : Good ss) (hsub : qs ⊆ ss) :
    SameBut (cover ss) h.mem (h.set_before (first qs 0) p).mem := by
  unfold Heap.set_before
  cases qs with
  | nil =>
    rw [if_neg (fun hne => hne rfl)]
    exact SameBut.refl _ _
  | cons s ss =>
    split_ifs
    · exact hg.sameBut_set (hsub List.mem_cons_self)
    · exact SameBut.refl _ _

theorem sameBut_link (hg : Good (ps ++ t :: qs)) : SameBut (cover (ps ++ t :: qs)) h.mem
    (__heap_link_free_area h (header t) (last 0 ps) (first qs 0)).mem := by
  have ht : t ∈ ps ++ t :: qs := List.mem_append_right _ List.mem_cons_self
  have hps : ps ⊆ ps ++ t :: qs := List.subset_append_left _ _
  have hqs : qs ⊆ ps ++ t :: qs := fun s hs =>
    List.mem_append_right _ (List.mem_cons_of_mem _ hs)
  exact (((hg.sameBut_set ht).trans (hg.sameBut_set ht)).trans
    (hg.sameBut_set_after hps)).trans (hg.sameBut_set_before hqs)

theorem sameBut_link_after (hg : Good (ps ++ t :: qs)) : SameBut (cover (ps ++ t :: qs)) h.mem
    (__heap_link_free_area_after h (header t) (last 0 ps)).mem := by
  have ht : t ∈ ps ++ t :: qs := List.mem_append_right _ List.mem_cons_self
  exact (hg.sameBut_set_after (List.subset_append_left _ _)).trans (hg.sameBut_set ht)

theorem sameBut_delete (hh : IsHeap h (ps ++ t :: qs)) :
    SameBut (cover (ps ++ t :: qs)) h.mem (__heap_delete h (header t)).mem := by
  have hsub : qs ⊆ ps ++ t :: qs := fun s hs =>
    List.mem_append_right _ (List.mem_cons_of_mem _ hs)
  rw [delete_eq hh]
  exact (hh.good.sameBut_set_before hsub).trans
    (hh.good.sameBut_set_after (List.subset_append_left _ _))

end

end elf_loader.malloc
