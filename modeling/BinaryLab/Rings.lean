-- Rings of linked nodes. A list in memory is a head and its nodes, linked to
-- a ring in both directions, and many rings share one memory. A node is put
-- at the end of a list with four stores, which touch this ring only.
import Mathlib.Data.List.Nodup
import Mathlib.Logic.Function.Basic

namespace binary_lab.rings

/-- The links of all nodes. -/
structure Links (α : Type) where
  next : α → α
  prev : α → α

variable {α : Type}

namespace Links

/-- The links go from `a` over `xs` to `b`, and back. -/
def Chain (l : Links α) : α → List α → α → Prop
  | a, [], b => l.next a = b ∧ l.prev b = a
  | a, x :: xs, b => (l.next a = x ∧ l.prev x = a) ∧ Chain l x xs b

/-- The list of `head` has the nodes `xs`. -/
structure Ring (l : Links α) (head : α) (xs : List α) : Prop where
  nodup : (head :: xs).Nodup
  chain : l.Chain head xs head

section

variable {l l' : Links α} {a b head : α} {xs ys : List α}

theorem chain_append : l.Chain a (xs ++ b :: ys) head ↔ l.Chain a xs b ∧ l.Chain b ys head := by
  induction xs generalizing a with
  | nil => exact Iff.rfl
  | cons x xs ih => rw [List.cons_append, Chain, Chain, ih, and_assoc (a := _ ∧ _)]

/-- A chain is kept if the links of its nodes are. -/
theorem Chain.keep (h : l.Chain a xs b) (hnext : ∀ x ∈ a :: xs, l'.next x = l.next x)
    (hprev : ∀ x ∈ b :: xs, l'.prev x = l.prev x) : l'.Chain a xs b := by
  induction xs generalizing a with
  | nil =>
    refine ⟨?_, ?_⟩
    · rw [hnext a List.mem_cons_self, h.1]
    · rw [hprev b List.mem_cons_self, h.2]
  | cons x xs ih =>
    obtain ⟨⟨hax, hxa⟩, hrest⟩ := h
    refine ⟨⟨?_, ?_⟩, ih hrest ?_ ?_⟩
    · rw [hnext a List.mem_cons_self, hax]
    · rw [hprev x (List.mem_cons_of_mem _ List.mem_cons_self), hxa]
    · exact fun y hy => hnext y (List.mem_cons_of_mem _ hy)
    · intro y hy
      apply hprev
      rcases List.mem_cons.mp hy with rfl | hy
      · exact List.mem_cons_self
      · exact List.mem_cons_of_mem _ (List.mem_cons_of_mem _ hy)

/-- The links of a chain, one after the other. -/
theorem Chain.map_next (h : l.Chain a xs b) : (a :: xs).map l.next = xs ++ [b] := by
  induction xs generalizing a with
  | nil => rw [List.map_cons, List.map_nil, h.1, List.nil_append]
  | cons x xs ih => rw [List.map_cons, h.1.1, ih h.2, List.cons_append]

theorem Ring.keep (h : l.Ring head xs)
    (hlinks : ∀ x ∈ head :: xs, l'.next x = l.next x ∧ l'.prev x = l.prev x) :
    l'.Ring head xs :=
  ⟨h.nodup, h.chain.keep (fun x hx => (hlinks x hx).1) fun x hx => (hlinks x hx).2⟩

/-- Before the head comes the last node, or the head itself. -/
theorem Ring.prev_mem (h : l.Ring head xs) : l.prev head ∈ head :: xs := by
  rcases List.eq_nil_or_concat' xs with rfl | ⟨ys, z, rfl⟩
  · rw [h.chain.2]
    exact List.mem_cons_self
  · rw [(chain_append.mp h.chain).2.2]
    exact List.mem_cons_of_mem _ (List.mem_append_right _ List.mem_cons_self)

end

/-! ## Stores -/

variable [DecidableEq α]

/-- The node `a` becomes a ring of its own. -/
def alone (l : Links α) (a : α) : Links α where
  next := Function.update l.next a a
  prev := Function.update l.prev a a

/-- The node `new` comes between two others, with one store after the other. -/
def insert (l : Links α) (new prev next : α) : Links α :=
  let l := { l with prev := Function.update l.prev next new }
  let l := { l with next := Function.update l.next new next }
  let l := { l with prev := Function.update l.prev new prev }
  { l with next := Function.update l.next prev new }

/-- The node `new` comes to the end of the list of `head`. -/
def addTail (l : Links α) (new head : α) : Links α := l.insert new (l.prev head) head

section

variable {l : Links α} {a head new : α} {xs : List α}

theorem Ring.alone (l : Links α) (a : α) : (l.alone a).Ring a [] :=
  ⟨List.nodup_singleton a, Function.update_self .., Function.update_self ..⟩

theorem alone_other {b : α} (h : b ≠ a) :
    (l.alone a).next b = l.next b ∧ (l.alone a).prev b = l.prev b :=
  ⟨Function.update_of_ne h .., Function.update_of_ne h ..⟩

/-- What the four stores leave as it is. -/
theorem addTail_other (hnew : a ≠ new) :
    (a ≠ l.prev head → (l.addTail new head).next a = l.next a) ∧
      (a ≠ head → (l.addTail new head).prev a = l.prev a) := by
  simp only [addTail, insert]
  constructor
  · intro hlast
    rw [Function.update_of_ne hlast, Function.update_of_ne hnew]
  · intro hhead
    rw [Function.update_of_ne hnew, Function.update_of_ne hhead]

/-- The new links. -/
theorem addTail_new (hlast : new ≠ l.prev head) (hhead : new ≠ head) :
    ((l.addTail new head).next new = head ∧ (l.addTail new head).prev head = new) ∧
      (l.addTail new head).next (l.prev head) = new ∧
      (l.addTail new head).prev new = l.prev head := by
  simp only [addTail, insert]
  refine ⟨⟨?_, ?_⟩, ?_, ?_⟩
  · rw [Function.update_of_ne hlast, Function.update_self]
  · rw [Function.update_of_ne hhead.symm, Function.update_self]
  · rw [Function.update_self]
  · rw [Function.update_self]

/-- The list has one node more. -/
theorem Ring.addTail (h : l.Ring head xs) (hnew : new ∉ head :: xs) :
    (l.addTail new head).Ring head (xs ++ [new]) := by
  have hlast : new ≠ l.prev head := fun heq => hnew (heq ▸ h.prev_mem)
  have hhead : new ≠ head := fun heq => hnew (heq ▸ List.mem_cons_self)
  obtain ⟨hend, hnext, hprev⟩ := addTail_new hlast hhead
  constructor
  · rw [← List.cons_append, List.nodup_append]
    refine ⟨h.nodup, List.nodup_singleton new, ?_⟩
    rintro x hx y hy rfl
    rw [List.mem_singleton] at hy
    exact hnew (hy ▸ hx)
  · rw [chain_append]
    refine ⟨?_, hend⟩
    rcases List.eq_nil_or_concat' xs with rfl | ⟨ys, z, rfl⟩
    · rw [h.chain.2] at hnext hprev
      exact ⟨hnext, hprev⟩
    · obtain ⟨hbefore, hz⟩ := chain_append.mp h.chain
      rw [hz.2] at hnext hprev
      refine chain_append.mpr ⟨hbefore.keep ?_ ?_, hnext, hprev⟩
      · intro x hx
        have hne : x ≠ z := by
          have hnodup : ((head :: ys) ++ [z]).Nodup := h.nodup
          exact (List.nodup_append.mp hnodup).2.2 x hx z List.mem_cons_self
        refine (addTail_other ?_).1 (hz.2 ▸ hne)
        rintro rfl
        exact hnew (List.mem_append_left [z] hx)
      · intro x hx
        have hmem : x ∈ ys ++ [z] := by
          rcases List.mem_cons.mp hx with rfl | hx
          · exact List.mem_append_right _ List.mem_cons_self
          · exact List.mem_append_left _ hx
        refine (addTail_other ?_).2 ?_
        · rintro rfl
          exact hnew (List.mem_cons_of_mem _ hmem)
        · rintro rfl
          exact (List.nodup_cons.mp h.nodup).1 hmem

end

end Links

/-! ## Many rings -/

section

/-- The memory has the given rings, each by its head, and no two of them share a node. -/
structure Rings (l : Links α) (rings : α → Option (List α)) : Prop where
  ring : ∀ head xs, rings head = some xs → l.Ring head xs
  apart : ∀ head xs head' xs', rings head = some xs → rings head' = some xs' → head ≠ head' →
    (head :: xs).Disjoint (head' :: xs')

/-- The node is in none of the rings, or it is one of its own. -/
def Free (rings : α → Option (List α)) (a : α) : Prop :=
  ∀ head xs, rings head = some xs → a ∈ head :: xs → head = a ∧ xs = []

variable {l : Links α} {rings : α → Option (List α)} {a head new : α} {xs : List α}

theorem Free.not_mem (ha : Free rings a) (hhead : rings head = some xs) (hne : head ≠ a) :
    a ∉ head :: xs :=
  fun hmem => hne (ha head xs hhead hmem).1

/-- What one step with the ring of `head` must keep: this ring is a new one, with nodes that no
other ring has, and the other rings are left alone. -/
theorem Rings.step {l' : Links α} {rings' : α → Option (List α)} (h : Rings l rings)
    (hring : l'.Ring head xs) (hhead : rings' head = some xs)
    (hothers : ∀ head' ys, head' ≠ head → rings' head' = some ys → rings head' = some ys ∧
      (head :: xs).Disjoint (head' :: ys) ∧
      ∀ x ∈ head' :: ys, l'.next x = l.next x ∧ l'.prev x = l.prev x) :
    Rings l' rings' := by
  constructor
  · intro head' ys hys
    by_cases heq : head' = head
    · subst heq
      rw [hhead, Option.some.injEq] at hys
      exact hys ▸ hring
    · obtain ⟨hold, _, hlinks⟩ := hothers head' ys heq hys
      exact (h.ring head' ys hold).keep hlinks
  · intro head1 ys head2 zs hys hzs hne
    by_cases h1 : head1 = head
    · subst h1
      rw [hhead, Option.some.injEq] at hys
      subst hys
      exact (hothers head2 zs hne.symm hzs).2.1
    · obtain ⟨hold1, hapart1, _⟩ := hothers head1 ys h1 hys
      by_cases h2 : head2 = head
      · subst h2
        rw [hhead, Option.some.injEq] at hzs
        subst hzs
        exact fun _ hx hy => hapart1 hy hx
      · exact h.apart head1 ys head2 zs hold1 (hothers head2 zs h2 hzs).1 hne

variable [DecidableEq α]

theorem Rings.alone (h : Rings l rings) (ha : Free rings a) :
    Rings (l.alone a) (Function.update rings a (some [])) := by
  refine h.step (Links.Ring.alone l a) (Function.update_self ..) ?_
  intro head' ys hne hys
  rw [Function.update_of_ne hne] at hys
  have hmem := ha.not_mem hys hne
  refine ⟨hys, ?_, ?_⟩
  · exact List.singleton_disjoint.mpr hmem
  · exact fun x hx => Links.alone_other fun heq => hmem (heq ▸ hx)

theorem Free.alone {b : α} (hb : Free rings b) (hne : b ≠ a) :
    Free (Function.update rings a (some [])) b := by
  intro head xs hhead hmem
  rw [Function.update_apply] at hhead
  split_ifs at hhead with heq
  · obtain rfl := Option.some.inj hhead
    exact absurd (heq ▸ List.mem_singleton.mp hmem) hne
  · exact hb head xs hhead hmem

theorem Rings.addTail (h : Rings l rings) (hhead : rings head = some xs) (hne : new ≠ head)
    (hnew : Free rings new) :
    Rings (l.addTail new head)
      (Function.update (Function.update rings new none) head (some (xs ++ [new]))) := by
  have hring := h.ring head xs hhead
  refine h.step (hring.addTail (hnew.not_mem hhead hne.symm)) (Function.update_self ..) ?_
  intro head' ys hne' hys
  rw [Function.update_of_ne hne'] at hys
  have hold : head' ≠ new ∧ rings head' = some ys := by
    by_cases heq : head' = new
    · rw [heq, Function.update_self] at hys
      cases hys
    · exact ⟨heq, by rwa [Function.update_of_ne heq] at hys⟩
  have hmem := hnew.not_mem hold.2 hold.1
  have hapart := h.apart head xs head' ys hhead hold.2 hne'.symm
  refine ⟨hold.2, ?_, ?_⟩
  · rw [← List.cons_append, List.disjoint_append_left]
    exact ⟨hapart, List.singleton_disjoint.mpr hmem⟩
  · intro x hx
    have hother : (x ≠ l.prev head → (l.addTail new head).next x = l.next x) ∧
        (x ≠ head → (l.addTail new head).prev x = l.prev x) :=
      Links.addTail_other fun heq => hmem (heq ▸ hx)
    exact ⟨hother.1 fun heq => hapart hring.prev_mem (heq ▸ hx),
      hother.2 fun heq => hapart List.mem_cons_self (heq ▸ hx)⟩

end

end binary_lab.rings
