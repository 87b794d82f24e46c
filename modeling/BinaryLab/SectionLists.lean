-- `analyze` of elf-clack with its lists as they are in memory (list.h). Each
-- list is a ring of nodes that are members of the structures, and a section
-- has two of them: one for the list of all sections and one for the list of
-- its segment. The three passes put the nodes into the rings.
import BinaryLab.Owners
import BinaryLab.Rings

set_option linter.style.nameCheck false

open binary_lab.runs binary_lab.words binary_lab.pages binary_lab.rings

namespace elf_clack.lists

/-! ## The nodes -/

/-- The heads, and the members of the structures. A structure is given by the number of its
`emalloc`. -/
inductive Node
  | segments
  | sections
  | segment_list (i : Nat)
  | segment_sections (i : Nat)
  | section_list (j : Nat)
  | section_sections (j : Nat)
deriving DecidableEq, Repr

def INIT_LIST_HEAD (l : Links Node) (list : Node) : Links Node := l.alone list

def __list_add (l : Links Node) (new prev next : Node) : Links Node := l.insert new prev next

def list_add_tail (l : Links Node) (new head : Node) : Links Node :=
  __list_add l new (l.prev head) head

/-- `Segment`, less its nodes. -/
structure SegmentData where
  index : Nat
  phdr : PhdrPtr
deriving DecidableEq, Repr

/-- The links of all nodes, and the structures in the order of their `emalloc`. -/
structure Memory where
  links : Links Node
  segs : List SegmentData
  secs : List Section

/-- `LIST_HEAD(sections)` and `LIST_HEAD(segments)`. The other links are anything. -/
def start (l : Links Node) : Memory where
  links := INIT_LIST_HEAD (INIT_LIST_HEAD l .sections) .segments
  segs := []
  secs := []

/-- How a run over the lists ends before it is done. -/
inductive Stop
  | fault (f : Fault)
  /-- The loop over a list does not come back to its head. -/
  | endless
  /-- The node is no member of a structure of the list. -/
  | wild
deriving DecidableEq, Repr

def check {α : Type} (x : Except Fault α) : Except Stop α := x.mapError .fault

/-! ## The passes -/

/-- One turn of the loop of `init_segments_early`. -/
def init_segment (w : World) (s : Memory) (i : Nat) : Except Stop Memory :=
  match PHDR w.elf i with
  | none => .error (.fault .nullPointer)
  | some a => do
    let _ ← check (w.phdr (.mapped a))
    let newp := s.segs.length
    let links := INIT_LIST_HEAD s.links (.segment_sections newp)
    let links := list_add_tail links (.segment_list newp) .segments
    .ok { s with links, segs := s.segs ++ [{ index := i, phdr := .mapped a }] }

def init_segments_early (w : World) (s : Memory) : Except Stop Memory :=
  (List.range (EHDR w.elf).e_phnum.toNat).foldlM (init_segment w) s

/-- The loop of `find_segment_by_offset`, from the node `pos` on. -/
def find_loop (w : World) (s : Memory) (offset : BitVec 64) :
    Nat → Node → Except Stop (Option Nat)
  | 0, _ => .error .endless
  | _ + 1, .segments => .ok none
  | fuel + 1, .segment_list i =>
    match s.segs[i]? with
    | none => .error .wild
    | some segment => do
      let phdr ← check (w.phdr segment.phdr)
      if phdr.p_offset ≤ offset ∧ offset < phdr.p_offset + phdr.p_filesz then .ok (some i)
      else find_loop w s offset fuel (s.links.next (.segment_list i))
  | _ + 1, _ => .error .wild

def find_segment_by_offset (w : World) (s : Memory) (offset : BitVec 64) :
    Except Stop (Option Nat) :=
  find_loop w s offset (s.segs.length + 1) (s.links.next .segments)

/-- One turn of the loop of `init_sections`. -/
def init_section (w : World) (s : Memory) (i : Nat) : Except Stop Memory :=
  match SHDR w.elf i with
  | none => .error (.fault .nullPointer)
  | some a => do
    let newp := s.secs.length
    let links := INIT_LIST_HEAD s.links (.section_sections newp)
    let shdr ← check (w.shdr a)
    let segment ← if shdr.sh_offset = 0 then .ok none
      else find_segment_by_offset w { s with links } shdr.sh_offset
    let links := list_add_tail links (.section_list newp) .sections
    .ok { s with links, secs := s.secs ++ [{ index := i, shdr := a, segment }] }

def init_sections (w : World) (s : Memory) : Except Stop Memory := do
  check (section_names w)
  (List.range (EHDR w.elf).e_shnum.toNat).foldlM (init_section w) s

/-- One turn of the loop of `init_segments`. -/
def add_section (l : Links Node) (j : Nat) : Option Nat → Links Node
  | none => l
  | some i => list_add_tail l (.section_sections j) (.segment_sections i)

/-- The loop of `init_segments`, from the node `pos` on. The lists that it changes are others
than the one that it goes along. -/
def init_segments_loop (secs : List Section) :
    Nat → Node → Links Node → Except Stop (Links Node)
  | 0, _, _ => .error .endless
  | _ + 1, .sections, l => .ok l
  | fuel + 1, .section_list j, l =>
    match secs[j]? with
    | none => .error .wild
    | some sec =>
      let l := add_section l j sec.segment
      init_segments_loop secs fuel (l.next (.section_list j)) l
  | _ + 1, _, _ => .error .wild

def init_segments (s : Memory) : Except Stop Memory := do
  let links ← init_segments_loop s.secs (s.secs.length + 1) (s.links.next .sections) s.links
  .ok { s with links }

def analyze (w : World) (s : Memory) : Except Stop Memory := do
  let s ← init_segments_early w s
  let s ← init_sections w s
  init_segments s

/-! ## The rings -/

/-- The rings with `n` segments and `m` sections, of which the first `k` are in the lists of
their owners. -/
def ringsOf (owner : Nat → Option Nat) (n m k : Nat) : Node → Option (List Node)
  | .segments => some ((List.range n).map .segment_list)
  | .sections => some ((List.range m).map .section_list)
  | .segment_sections i =>
    if i < n then
      some (((List.range k).filter fun j => owner j = some i).map .section_sections)
    else none
  | .section_sections j => if j < m ∧ (j < k → owner j = none) then some [] else none
  | .segment_list _ | .section_list _ => none

/-- The nodes that are in the list of another node. -/
def Inserted (n m k : Nat) : Node → Prop
  | .segment_list i => i < n
  | .section_list j => j < m
  | .section_sections j => j < k
  | _ => False

section

variable {owner : Nat → Option Nat} {n m k : Nat} {l : Links Node}

/-- A node of a list is its head or a node that was put there. -/
theorem mem_ringsOf {head a : Node} {xs : List Node} (hhead : ringsOf owner n m k head = some xs)
    (hmem : a ∈ head :: xs) : head = a ∨ Inserted n m k a := by
  rcases List.mem_cons.mp hmem with rfl | hin
  · exact .inl rfl
  · right
    cases head with
    | segments =>
      obtain rfl := Option.some.inj hhead
      obtain ⟨i, hi, rfl⟩ := List.mem_map.mp hin
      exact List.mem_range.mp hi
    | sections =>
      obtain rfl := Option.some.inj hhead
      obtain ⟨j, hj, rfl⟩ := List.mem_map.mp hin
      exact List.mem_range.mp hj
    | segment_sections i =>
      rw [ringsOf] at hhead
      split_ifs at hhead
      obtain rfl := Option.some.inj hhead
      obtain ⟨j, hj, rfl⟩ := List.mem_map.mp hin
      exact List.mem_range.mp (List.mem_filter.mp hj).1
    | section_sections j =>
      rw [ringsOf] at hhead
      split_ifs at hhead
      obtain rfl := Option.some.inj hhead
      exact absurd hin List.not_mem_nil
    | segment_list i => cases hhead
    | section_list j => cases hhead

theorem free_of_not_inserted {a : Node} (hnew : ¬ Inserted n m k a)
    (hown : ∀ xs, ringsOf owner n m k a = some xs → xs = []) : Free (ringsOf owner n m k) a := by
  intro head xs hhead hmem
  rcases mem_ringsOf hhead hmem with rfl | hin
  · exact ⟨rfl, hown xs hhead⟩
  · exact absurd hin hnew

theorem rings_start (l : Links Node) : Rings (start l).links (ringsOf owner 0 0 0) := by
  have hnone : Rings l fun _ => none := ⟨by simp, by simp⟩
  have hfree : ∀ rings : Node → Option (List Node), (∀ a xs, rings a = some xs → xs = []) →
      ∀ a, Free rings a := by
    intro rings hempty a head xs hhead ha
    obtain rfl := hempty head xs hhead
    exact ⟨(List.mem_singleton.mp ha).symm, rfl⟩
  have hsections := hnone.alone (hfree _ (by simp) .sections)
  have hsegments := hsections.alone (hfree _ (by
    intro a xs hxs
    rw [Function.update_apply] at hxs
    split_ifs at hxs
    exact (Option.some.inj hxs).symm) .segments)
  have hrings : ringsOf owner 0 0 0 = Function.update (Function.update
      (fun _ => none) Node.sections (some [])) .segments (some []) := by
    funext a
    cases a <;> simp [ringsOf, Function.update]
  rw [hrings]
  exact hsegments

/-- A new structure: one of its nodes is a ring of its own, the other one comes to a list. -/
theorem rings_create {a new head : Node} {xs : List Node} (h : Rings l (ringsOf owner n m k))
    (ha : ringsOf owner n m k a = none) (hnew : ringsOf owner n m k new = none)
    (hold : ¬ Inserted n m k a ∧ ¬ Inserted n m k new)
    (hhead : ringsOf owner n m k head = some xs) (hne : new ≠ a) :
    Rings (list_add_tail (INIT_LIST_HEAD l a) new head)
      (Function.update (Function.update (Function.update (ringsOf owner n m k) a (some []))
        new none) head (some (xs ++ [new]))) := by
  have hfree : ∀ b, ringsOf owner n m k b = none → ¬ Inserted n m k b →
      Free (ringsOf owner n m k) b := by
    intro b hnone hb
    apply free_of_not_inserted hb
    intro xs hxs
    rw [hnone] at hxs
    cases hxs
  have hother : ∀ b, ringsOf owner n m k b = none → b ≠ head := by
    rintro b hnone rfl
    rw [hnone] at hhead
    cases hhead
  apply (h.alone (hfree a ha hold.1)).addTail
  · rw [Function.update_of_ne (hother a ha).symm, hhead]
  · exact hother new hnew
  · exact (hfree new hnew hold.2).alone hne

/-- One more segment. -/
theorem rings_segment (h : Rings l (ringsOf owner n 0 0)) :
    Rings (list_add_tail (INIT_LIST_HEAD l (.segment_sections n)) (.segment_list n) .segments)
      (ringsOf owner (n + 1) 0 0) := by
  have hrings : ringsOf owner (n + 1) 0 0 = Function.update (Function.update
      (Function.update (ringsOf owner n 0 0) (.segment_sections n) (some []))
      (.segment_list n) none) .segments
      (some ((List.range n).map .segment_list ++ [.segment_list n])) := by
    funext a
    cases a with
    | segment_sections i =>
      simp only [ringsOf, Function.update_apply, reduceCtorEq, if_false,
        Node.segment_sections.injEq]
      split_ifs <;> first | rfl | omega
    | _ => simp [ringsOf, Function.update_apply, List.range_succ]
  rw [hrings]
  exact rings_create h (by simp [ringsOf]) rfl ⟨id, Nat.lt_irrefl n⟩ rfl (by simp)

/-- One more section. -/
theorem rings_section (h : Rings l (ringsOf owner n m 0)) :
    Rings (list_add_tail (INIT_LIST_HEAD l (.section_sections m)) (.section_list m) .sections)
      (ringsOf owner n (m + 1) 0) := by
  have hrings : ringsOf owner n (m + 1) 0 = Function.update (Function.update
      (Function.update (ringsOf owner n m 0) (.section_sections m) (some []))
      (.section_list m) none) .sections
      (some ((List.range m).map .section_list ++ [.section_list m])) := by
    funext a
    cases a with
    | section_sections j =>
      simp only [ringsOf, Function.update_apply, reduceCtorEq, if_false,
        Node.section_sections.injEq]
      split_ifs <;> first | rfl | omega
    | _ => simp [ringsOf, Function.update_apply, List.range_succ]
  rw [hrings]
  exact rings_create h (by simp [ringsOf]) rfl ⟨Nat.not_lt_zero m, Nat.lt_irrefl m⟩ rfl (by simp)

/-- One more section is in the list of its owner, if it has one. -/
theorem rings_owner (h : Rings l (ringsOf owner n m k)) (howner : ∀ i, owner k = some i → i < n) :
    Rings (add_section l k (owner k)) (ringsOf owner n m (k + 1)) := by
  cases hi : owner k with
  | none =>
    have hrings : ringsOf owner n m (k + 1) = ringsOf owner n m k := by
      funext a
      cases a with
      | segment_sections i => simp [ringsOf, List.range_succ, hi]
      | section_sections j =>
        have hsame : (j < k + 1 → owner j = none) ↔ (j < k → owner j = none) := by
          rw [Nat.lt_succ_iff_lt_or_eq]
          constructor
          · exact fun hall hj => hall (.inl hj)
          · rintro hall (hj | rfl)
            · exact hall hj
            · exact hi
        simp only [ringsOf, hsame]
      | _ => rfl
    rw [hrings]
    exact h
  | some i =>
    have hrings : ringsOf owner n m (k + 1) = Function.update (Function.update
        (ringsOf owner n m k) (.section_sections k) none) (.segment_sections i)
        (some (((List.range k).filter fun j => owner j = some i).map .section_sections ++
          [.section_sections k])) := by
      funext a
      cases a with
      | segment_sections i' =>
        simp only [ringsOf, Function.update_apply, reduceCtorEq, if_false,
          Node.segment_sections.injEq, List.range_succ, List.filter_append, List.map_append]
        by_cases heq : i' = i
        · simp [heq, hi, howner i hi]
        · simp [heq, hi, Ne.symm heq]
      | section_sections j =>
        simp only [ringsOf, Function.update_apply, reduceCtorEq, if_false,
          Node.section_sections.injEq]
        by_cases heq : j = k
        · simp [heq, hi]
        · have hlt : j < k + 1 ↔ j < k := by omega
          simp [heq, hlt]
      | _ => rfl
    rw [hrings]
    apply h.addTail
    · exact if_pos (howner i hi)
    · simp
    · apply free_of_not_inserted (show ¬ Inserted n m k (.section_sections k) from Nat.lt_irrefl k)
      intro xs hxs
      rw [ringsOf] at hxs
      split_ifs at hxs
      exact (Option.some.inj hxs).symm

end

/-! ## The runs -/

/-- `Segment` for entry `i` of the table. -/
def segmentData (m : Bytes) (i : Nat) : SegmentData where
  index := i
  phdr := .mapped (phdrOff m i)

/-- The memory with the first `n` segments and `m` sections, of which the first `k` are in the
lists of their owners. -/
structure Built (w : World) (n m k : Nat) (s : Memory) : Prop where
  rings : Rings s.links (ringsOf (owner w.elf) n m k)
  segs : s.segs = (List.range n).map (segmentData w.elf)
  secs : s.secs = (List.range m).map (sectionOf w.elf)

section

variable {w : World} {s : Memory} (hheld : TablesHeld w)

include hheld

theorem init_segment_step {i : Nat} (hi : i < (EHDR w.elf).e_phnum.toNat)
    (h : Built w i 0 0 s) : ∃ s', init_segment w s i = .ok s' ∧ Built w (i + 1) 0 0 s' := by
  obtain ⟨h0, hholds⟩ := hheld.phdrs i hi
  have hphdr : w.phdr (.mapped (phdrOff w.elf i)) = .ok (phdrAt w.elf (phdrOff w.elf i)) :=
    World.phdr_mapped.mpr ⟨hholds, rfl⟩
  have hlen : s.segs.length = i := by rw [h.segs, List.length_map, List.length_range]
  have hturn : init_segment w s i = .ok { s with
      links := list_add_tail (INIT_LIST_HEAD s.links (.segment_sections i)) (.segment_list i)
        .segments
      segs := s.segs ++ [segmentData w.elf i] } := by
    simp only [init_segment, PHDR, if_neg h0, hphdr, hlen]
    rfl
  refine ⟨_, hturn, rings_segment h.rings, ?_, h.secs⟩
  rw [h.segs, List.range_succ, List.map_append, List.map_singleton]

/-- The loop along the list of segments finds the first one with the offset. -/
theorem find_loop_eq {offset : BitVec 64} {is : List Nat} {a : Node} {fuel : Nat}
    (hsegs : s.segs = (List.range (EHDR w.elf).e_phnum.toNat).map (segmentData w.elf))
    (hchain : s.links.Chain a (is.map .segment_list) .segments)
    (his : ∀ i ∈ is, i < (EHDR w.elf).e_phnum.toNat) (hfuel : is.length < fuel) :
    find_loop w s offset fuel (s.links.next a) =
      .ok (is.find? fun i => Contains (phdrAt w.elf (phdrOff w.elf i)) offset) := by
  induction is generalizing a fuel with
  | nil =>
    cases fuel with
    | zero => exact absurd hfuel (Nat.not_lt_zero _)
    | succ fuel =>
      rw [hchain.1]
      rfl
  | cons i is ih =>
    cases fuel with
    | zero => exact absurd hfuel (Nat.not_lt_zero _)
    | succ fuel =>
      obtain ⟨⟨hnext, _⟩, hrest⟩ := hchain
      rw [List.forall_mem_cons] at his
      have hseg : s.segs[i]? = some (segmentData w.elf i) := by
        rw [hsegs, List.getElem?_map, List.getElem?_range his.1, Option.map_some]
      have hphdr : w.phdr (segmentData w.elf i).phdr = .ok (phdrAt w.elf (phdrOff w.elf i)) :=
        World.phdr_mapped.mpr ⟨(hheld.phdrs i his.1).2, rfl⟩
      have hturn := ih hrest his.2 (Nat.lt_of_succ_lt_succ hfuel)
      rw [hnext, find_loop, hseg, List.find?_cons]
      simp only [hphdr, check, Except.mapError, bind, Except.bind]
      by_cases hin : Contains (phdrAt w.elf (phdrOff w.elf i)) offset
      · rw [decide_eq_true hin]
        exact if_pos hin
      · rw [decide_eq_false hin, ← hturn]
        exact if_neg hin

theorem find_segment_by_offset_eq
    (hsegs : s.segs = (List.range (EHDR w.elf).e_phnum.toNat).map (segmentData w.elf))
    (hring : s.links.Ring .segments
      ((List.range (EHDR w.elf).e_phnum.toNat).map .segment_list)) (offset : BitVec 64) :
    find_segment_by_offset w s offset = .ok ((List.range (EHDR w.elf).e_phnum.toNat).find?
      fun i => Contains (phdrAt w.elf (phdrOff w.elf i)) offset) := by
  apply find_loop_eq hheld hsegs hring.chain
  · exact fun i hi => List.mem_range.mp hi
  · rw [hsegs, List.length_map]
    exact Nat.lt_succ_self _

theorem init_section_step {j : Nat} (hj : j < (EHDR w.elf).e_shnum.toNat)
    (h : Built w (EHDR w.elf).e_phnum.toNat j 0 s) :
    ∃ s', init_section w s j = .ok s' ∧ Built w (EHDR w.elf).e_phnum.toNat (j + 1) 0 s' := by
  obtain ⟨h0, hholds⟩ := hheld.shdrs j hj
  have hshdr : w.shdr (shdrOff w.elf j) = .ok (shdrAt w.elf (shdrOff w.elf j)) :=
    World.shdr_eq_ok.mpr ⟨hholds, rfl⟩
  have hlen : s.secs.length = j := by rw [h.secs, List.length_map, List.length_range]
  have hturn : init_section w s j = .ok { s with
      links := list_add_tail (INIT_LIST_HEAD s.links (.section_sections j)) (.section_list j)
        .sections
      secs := s.secs ++ [sectionOf w.elf j] } := by
    have hfree : Free (ringsOf (owner w.elf) (EHDR w.elf).e_phnum.toNat j 0)
        (.section_sections j) := by
      refine free_of_not_inserted ?_ (by simp [ringsOf])
      exact Nat.not_lt_zero j
    have hring : (s.links.alone (.section_sections j)).Ring .segments
        ((List.range (EHDR w.elf).e_phnum.toNat).map .segment_list) :=
      (h.rings.alone hfree).ring .segments _ (by simp [ringsOf])
    have hfind := find_segment_by_offset_eq hheld
      (s := { s with links := INIT_LIST_HEAD s.links (.section_sections j) }) h.segs hring
    simp only [init_section, SHDR, if_neg h0, hshdr, hlen, check, Except.mapError, bind,
      Except.bind, hfind, sectionOf, owner]
    split_ifs <;> rfl
  refine ⟨_, hturn, rings_section h.rings, h.segs, ?_⟩
  rw [h.secs, List.range_succ, List.map_append, List.map_singleton]

end

/-- The nodes of the list of sections are met one after the other. -/
theorem next_section {owner : Nat → Option Nat} {n m k : Nat} {l : Links Node}
    (h : Rings l (ringsOf owner n m k)) :
    l.next .sections = (if 0 < m then .section_list 0 else .sections) ∧
      ∀ j < m, l.next (.section_list j) =
        if j + 1 < m then .section_list (j + 1) else .sections := by
  have hnext := (h.ring .sections _ rfl).chain.map_next
  have hget : ∀ j < m + 1,
      (((Node.sections :: (List.range m).map .section_list).map l.next)[j]?) =
        some (if j < m then .section_list j else .sections) := by
    intro j hj
    rw [hnext]
    by_cases hlt : j < m
    · rw [List.getElem?_append_left (by simpa using hlt), List.getElem?_map,
        List.getElem?_range hlt, Option.map_some, if_pos hlt]
    · obtain rfl : j = m := by omega
      simp
  constructor
  · simpa using hget 0 (by omega)
  · intro j hj
    have hnode := hget (j + 1) (by omega)
    rw [List.map_cons, List.getElem?_cons_succ, List.getElem?_map, List.getElem?_map,
      List.getElem?_range hj] at hnode
    exact Option.some.inj hnode

/-- The loop of `init_segments` puts the sections that are left into the lists of their
owners. -/
theorem init_segments_loop_ok {w : World} {n m : Nat} {secs : List Section}
    (hsecs : secs = (List.range m).map (sectionOf w.elf))
    (howner : ∀ j i, owner w.elf j = some i → i < n) {d k fuel : Nat} {l : Links Node}
    (hk : k + d = m) (hfuel : d < fuel) (h : Rings l (ringsOf (owner w.elf) n m k)) :
    ∃ l', init_segments_loop secs fuel (if k < m then .section_list k else .sections) l = .ok l' ∧
      Rings l' (ringsOf (owner w.elf) n m m) := by
  induction d generalizing k fuel l with
  | zero =>
    cases fuel with
    | zero => exact absurd hfuel (Nat.lt_irrefl 0)
    | succ fuel =>
      obtain rfl : k = m := hk
      rw [if_neg (Nat.lt_irrefl k)]
      exact ⟨l, rfl, h⟩
  | succ d ih =>
    cases fuel with
    | zero => exact absurd hfuel (Nat.not_lt_zero _)
    | succ fuel =>
      have hlt : k < m := by omega
      have hsec : secs[k]? = some (sectionOf w.elf k) := by
        rw [hsecs, List.getElem?_map, List.getElem?_range hlt, Option.map_some]
      have hrings := rings_owner h (howner k)
      obtain ⟨l', hrun, hl'⟩ := ih (by omega) (Nat.lt_of_succ_lt_succ hfuel) hrings
      rw [← (next_section hrings).2 k hlt] at hrun
      refine ⟨l', ?_, hl'⟩
      rw [if_pos hlt, init_segments_loop, hsec]
      simp only [sectionOf, hrun]

theorem init_segments_ok {w : World} {n m : Nat} {s : Memory} (h : Built w n m 0 s)
    (howner : ∀ j i, owner w.elf j = some i → i < n) :
    ∃ s', init_segments s = .ok s' ∧ Built w n m m s' := by
  have hlen : s.secs.length = m := by rw [h.secs, List.length_map, List.length_range]
  obtain ⟨links, hrun, hrings⟩ := init_segments_loop_ok h.secs howner (Nat.zero_add m)
    (Nat.lt_succ_self m) h.rings
  rw [← (next_section h.rings).1] at hrun
  refine ⟨{ s with links }, ?_, hrings, h.segs, h.secs⟩
  rw [init_segments, hlen, hrun]
  rfl

/-- With the tables there, `analyze` builds all the lists. -/
theorem analyze_ok {w : World} (hheld : TablesHeld w) (l : Links Node) :
    ∃ s, analyze w (start l) = .ok s ∧
      Built w (EHDR w.elf).e_phnum.toNat (EHDR w.elf).e_shnum.toNat (EHDR w.elf).e_shnum.toNat
        s := by
  obtain ⟨s1, hearly, h1⟩ := foldlM_range_inv (fun n s => Built w n 0 0 s)
    ⟨rings_start l, rfl, rfl⟩ fun i hi s h => init_segment_step hheld hi h
  obtain ⟨s2, hsections, h2⟩ := foldlM_range_inv
    (fun m s => Built w (EHDR w.elf).e_phnum.toNat m 0 s) h1
    fun j hj s h => init_section_step hheld hj h
  obtain ⟨s3, hsegments, h3⟩ := init_segments_ok h2 fun j i hi => (owner_eq_some.mp hi).2.1
  refine ⟨s3, ?_, h3⟩
  have hnames := section_names_iff.mpr hheld.names
  have hearly : init_segments_early w (start l) = .ok s1 := hearly
  have hsections : init_sections w s1 = .ok s2 := by
    rw [init_sections, hnames]
    exact hsections
  rw [analyze, hearly]
  simp only [bind, Except.bind, hsections, hsegments]

/-! ## The lists -/

/-- The rings in memory hold the lists of the world. -/
structure Represents (s : Memory) (w : World) : Prop where
  segments : s.links.Ring .segments ((List.range w.segments.length).map .segment_list)
  segs : s.segs = w.segments.map fun segment => ⟨segment.index, segment.phdr⟩
  sections : s.links.Ring .sections ((List.range w.sections.length).map .section_list)
  secs : s.secs = w.sections
  segment_sections : ∀ i segment, w.segments[i]? = some segment →
    s.links.Ring (.segment_sections i) (segment.segment_sections.map .section_sections)

/-- The runs with the lists in memory do what `analyze` does with lists as values. -/
theorem analyze_refines {w w' : World} (h : elf_clack.analyze w = .ok w') (l : Links Node) :
    ∃ s, analyze w (start l) = .ok s ∧ Represents s w' := by
  obtain ⟨hheld, rfl⟩ := analyze_iff.mp h
  obtain ⟨s, hrun, hbuilt⟩ := analyze_ok hheld l
  refine ⟨s, hrun, ?_, ?_, ?_, hbuilt.secs, ?_⟩
  · rw [analyzed, List.length_map, List.length_range]
    exact hbuilt.rings.ring .segments _ rfl
  · rw [hbuilt.segs, analyzed, List.map_map]
    rfl
  · rw [analyzed, List.length_map, List.length_range]
    exact hbuilt.rings.ring .sections _ rfl
  · intro i segment hsegment
    rw [analyzed, List.getElem?_map, Option.map_eq_some_iff] at hsegment
    obtain ⟨i', hi', rfl⟩ := hsegment
    obtain ⟨hi, rfl⟩ := List.getElem?_eq_some_iff.mp hi'
    rw [List.length_range] at hi
    rw [List.getElem_range]
    exact hbuilt.rings.ring (.segment_sections i) _ (if_pos hi)

/-- The entries of the tables are inside the file. -/
structure TablesInside (m : Bytes) (size : Nat) : Prop where
  no_wrap : size < 2 ^ 64
  phdrs : ∀ i < (EHDR m).e_phnum.toNat, (EHDR m).e_phoff ≠ 0 ∧
    (EHDR m).e_phoff.toNat + (EHDR m).e_phentsize.toNat * i + sizeofPhdr ≤ size
  shdrs : ∀ j < (EHDR m).e_shnum.toNat, (EHDR m).e_shoff ≠ 0 ∧
    (EHDR m).e_shoff.toNat + (EHDR m).e_shentsize.toNat * j + sizeofShdr ≤ size
  names : (EHDR m).e_shstrndx ≠ SHN_UNDEF → (EHDR m).e_shoff ≠ 0 ∧
    (EHDR m).e_shoff.toNat + (EHDR m).e_shentsize.toNat * (EHDR m).e_shstrndx.toNat +
      sizeofShdr ≤ size

theorem TablesInside.held {w : World} (h : TablesInside w.elf w.size) : TablesHeld w := by
  have hsize := h.no_wrap
  have hentry : ∀ (off : BitVec 64) (entsize : BitVec 16) (i n : Nat), 0 < n →
      off.toNat + entsize.toNat * i + n ≤ w.size → w.Holds (entryAt off entsize i) n := by
    intro off entsize i n hn hend
    unfold World.Holds
    rw [toNat_entryAt (by omega)]
    exact Nat.le_trans hend (le_ceilNat (by decide))
  exact {
    phdrs := fun i hi => ⟨(h.phdrs i hi).1, hentry _ _ _ _ (by decide) (h.phdrs i hi).2⟩
    shdrs := fun j hj => ⟨(h.shdrs j hj).1, hentry _ _ _ _ (by decide) (h.shdrs j hj).2⟩
    names := fun hundef => ⟨(h.names hundef).1, hentry _ _ _ _ (by decide) (h.names hundef).2⟩ }

/-- The sections are divided among the segments: segment `i` has the sections `js i`. -/
structure Partition (m : Bytes) (s : Memory) (js : Nat → List Nat) : Prop where
  segments : s.links.Ring .segments ((List.range (EHDR m).e_phnum.toNat).map .segment_list)
  segs : s.segs = (List.range (EHDR m).e_phnum.toNat).map (segmentData m)
  sections : s.links.Ring .sections ((List.range (EHDR m).e_shnum.toNat).map .section_list)
  secs : s.secs.map (fun sec => (sec.index, sec.shdr)) =
    (List.range (EHDR m).e_shnum.toNat).map fun j => (j, shdrOff m j)
  segment_sections : ∀ i < (EHDR m).e_phnum.toNat,
    s.links.Ring (.segment_sections i) ((js i).map .section_sections)
  order : ∀ i < (EHDR m).e_phnum.toNat, (js i).Pairwise (· < ·)
  members : ∀ i < (EHDR m).e_phnum.toNat, ∀ j, j ∈ js i ↔ j < (EHDR m).e_shnum.toNat ∧
    (shdrAt m (shdrOff m j)).sh_offset ≠ 0 ∧
    Contains (phdrAt m (phdrOff m i)) (shdrAt m (shdrOff m j)).sh_offset ∧
    ∀ k < i, ¬ Contains (phdrAt m (phdrOff m k)) (shdrAt m (shdrOff m j)).sh_offset
  /-- The end of a segment is that of the numbers, if it does not wrap. -/
  ends : ∀ i < (EHDR m).e_phnum.toNat,
    (phdrAt m (phdrOff m i)).p_offset.toNat + (phdrAt m (phdrOff m i)).p_filesz.toNat < 2 ^ 64 →
    ∀ offset, Contains (phdrAt m (phdrOff m i)) offset ↔
      (phdrAt m (phdrOff m i)).p_offset.toNat ≤ offset.toNat ∧
        offset.toNat < (phdrAt m (phdrOff m i)).p_offset.toNat +
          (phdrAt m (phdrOff m i)).p_filesz.toNat
  once : ∀ i < (EHDR m).e_phnum.toNat, ∀ i' < (EHDR m).e_phnum.toNat, ∀ j, j ∈ js i → j ∈ js i' →
    i = i'
  left_out : ∀ j < (EHDR m).e_shnum.toNat, (∀ i < (EHDR m).e_phnum.toNat, j ∉ js i) →
    (shdrAt m (shdrOff m j)).sh_offset = 0 ∨ ∀ i < (EHDR m).e_phnum.toNat,
      ¬ Contains (phdrAt m (phdrOff m i)) (shdrAt m (shdrOff m j)).sh_offset

theorem Built.partition {w : World} {s : Memory}
    (h : Built w (EHDR w.elf).e_phnum.toNat (EHDR w.elf).e_shnum.toNat
      (EHDR w.elf).e_shnum.toNat s) :
    Partition w.elf s fun i =>
      (List.range (EHDR w.elf).e_shnum.toNat).filter fun j => owner w.elf j = some i where
  segments := h.rings.ring .segments _ rfl
  segs := h.segs
  sections := h.rings.ring .sections _ rfl
  secs := by
    rw [h.secs, List.map_map]
    rfl
  segment_sections := fun i hi => h.rings.ring (.segment_sections i) _ (if_pos hi)
  order := fun i _ => List.pairwise_lt_range.filter _
  members := by
    intro i hi j
    rw [List.mem_filter, List.mem_range, decide_eq_true_eq, owner_eq_some]
    exact and_congr_right' (and_congr_right' (and_iff_right hi))
  ends := fun i _ h offset => contains_iff h offset
  once := by
    intro i _ i' _ j hj hj'
    rw [List.mem_filter, decide_eq_true_eq] at hj hj'
    exact Option.some.inj (hj.2.symm.trans hj'.2)
  left_out := by
    intro j hj hnone
    rw [← owner_eq_none]
    cases howner : owner w.elf j with
    | none => rfl
    | some i =>
      refine absurd ?_ (hnone i (owner_eq_some.mp howner).2.1)
      rw [List.mem_filter, List.mem_range, decide_eq_true_eq]
      exact ⟨hj, howner⟩

/-- `analyze` divides the sections among the segments, for every file with its tables inside. -/
theorem analyze_divides_the_sections_among_the_segments (heap : Heap) (file : List Byte)
    (l : Links Node) (hin : TablesInside (startup heap file).elf file.length) :
    ∃ s js w', analyze (startup heap file) (start l) = .ok s ∧
      Partition (startup heap file).elf s js ∧
      elf_clack.analyze (startup heap file) = .ok w' ∧ Represents s w' := by
  have hheld : TablesHeld (startup heap file) := TablesInside.held hin
  obtain ⟨s, hrun, hbuilt⟩ := analyze_ok hheld l
  have hvalues : elf_clack.analyze (startup heap file) = .ok (analyzed (startup heap file)) :=
    analyze_iff.mpr ⟨hheld, rfl⟩
  obtain ⟨s', hrun', hrepr⟩ := analyze_refines hvalues l
  obtain rfl : s = s' := Except.ok.inj (hrun.symm.trans hrun')
  exact ⟨s, _, _, hrun, hbuilt.partition, hvalues, hrepr⟩

theorem smallFile_tables : TablesInside (startup zeroHeap smallFile).elf smallFile.length where
  no_wrap := by decide +kernel
  phdrs := by decide +kernel
  shdrs := by decide +kernel
  names := by decide +kernel

/-- The section of the small file is in the list of its `PT_LOAD` segment. -/
theorem analyze_divides_the_sections_of_a_small_file :
    ∃ s js, analyze (startup zeroHeap smallFile) (start ⟨id, id⟩) = .ok s ∧
      Partition (startup zeroHeap smallFile).elf s js ∧ 1 ∈ js 1 ∧ 1 ∉ js 0 := by
  obtain ⟨s, js, _, hrun, hpartition, _⟩ := analyze_divides_the_sections_among_the_segments zeroHeap
    smallFile ⟨id, id⟩ smallFile_tables
  refine ⟨s, js, hrun, hpartition, ?_, ?_⟩
  · rw [hpartition.members 1 (by decide +kernel)]
    decide +kernel
  · rw [hpartition.members 0 (by decide +kernel)]
    decide +kernel

end elf_clack.lists
