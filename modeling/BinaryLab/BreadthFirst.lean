-- Breadth-first order in a graph that is given by the successors of each
-- node. The nodes come as they are first met: the start, the successors of
-- the first node, those of the second one, and so on to the end.
import Mathlib.Logic.Relation
import Mathlib.Data.List.Induction

namespace binary_lab.breadth_first

variable {α : Type} [DecidableEq α]

/-! ## First occurrences -/

/-- One element more counts if it is new. -/
theorem eraseDups_concat (xs : List α) (c : α) :
    (xs ++ [c]).eraseDups = if c ∈ xs then xs.eraseDups else xs.eraseDups ++ [c] := by
  rw [List.eraseDups_append, List.removeAll]
  by_cases hc : c ∈ xs
  · simp [hc]
  · simp [hc, List.eraseDups_cons]

theorem nodup_eraseDups (xs : List α) : xs.eraseDups.Nodup := by
  induction xs using List.reverseRecOn with
  | nil => exact List.nodup_nil
  | append_singleton xs c ih =>
    rw [eraseDups_concat]
    split_ifs with hc
    · exact ih
    · rw [List.nodup_append]
      refine ⟨ih, by simp, ?_⟩
      intro x hx y hy hxy
      rw [List.mem_singleton.mp hy] at hxy
      exact hc (List.mem_eraseDups.mp (hxy ▸ hx))

/-- A part that brings nothing new can go. -/
theorem eraseDups_skip {xs ys : List α} (zs : List α) (h : ys ⊆ xs) :
    (xs ++ (ys ++ zs)).eraseDups = (xs ++ zs).eraseDups := by
  have hys : ys.removeAll xs = [] := by
    rw [List.removeAll, List.filter_eq_nil_iff]
    intro y hy
    simpa using h hy
  rw [List.eraseDups_append, List.eraseDups_append, List.removeAll, List.filter_append,
    ← List.removeAll, ← List.removeAll, hys, List.nil_append]

/-! ## The order -/

/-- There is a path from `a` to `b`. -/
abbrev Reaches (next : α → List α) (a b : α) : Prop :=
  Relation.ReflTransGen (fun x y => y ∈ next x) a b

/-- The nodes that can be reached from `start`, in breadth-first order. -/
structure BreadthFirst (next : α → List α) (start : α) (order : List α) : Prop where
  first_met : order = (start :: order.flatMap next).eraseDups
  reached : ∀ x ∈ order, Reaches next start x

variable {next : α → List α} {start : α} {order : List α}

theorem BreadthFirst.nodup (h : BreadthFirst next start order) : order.Nodup := by
  rw [h.first_met]
  exact nodup_eraseDups _

theorem BreadthFirst.mem_iff (h : BreadthFirst next start order) {x : α} :
    x ∈ order ↔ Reaches next start x := by
  refine ⟨h.reached x, ?_⟩
  intro hx
  induction hx with
  | refl =>
    rw [h.first_met, List.mem_eraseDups]
    exact List.mem_cons_self
  | @tail y z _ hz ih =>
    rw [h.first_met, List.mem_eraseDups, List.mem_cons, List.mem_flatMap]
    exact Or.inr ⟨y, ih, hz⟩

/-- It does not matter if a node whose successors are known is visited again. -/
theorem eraseDups_visit_again (seen visits : List α) (h : next start ⊆ seen) :
    (seen ++ visits.flatMap next).eraseDups =
      (seen ++ (visits.filter (· ≠ start)).flatMap next).eraseDups := by
  induction visits generalizing seen with
  | nil => rfl
  | cons x visits ih =>
    by_cases hx : x = start
    · subst hx
      rw [List.flatMap_cons, eraseDups_skip _ h, ih seen h]
      simp
    · have hsub : next start ⊆ seen ++ next x := fun y hy => List.mem_append_left _ (h hy)
      rw [List.flatMap_cons, ← List.append_assoc, ih _ hsub,
        List.filter_cons_of_pos (by simpa using hx), List.flatMap_cons, List.append_assoc]

/-- A run that visits every node it has met ends with the breadth-first
order, even if it visits the start more than once. -/
theorem BreadthFirst.of_visits {rest : List α}
    (hmet : order = (start :: (start :: rest).flatMap next).eraseDups)
    (hall : order = start :: rest.filter (· ≠ start))
    (hreach : ∀ x ∈ order, Reaches next start x) : BreadthFirst next start order := by
  refine ⟨?_, hreach⟩
  have hagain := eraseDups_visit_again (start :: next start) rest
    (fun y hy => List.mem_cons_of_mem _ hy)
  calc order = (start :: (start :: rest).flatMap next).eraseDups := hmet
    _ = (start :: (start :: rest.filter (· ≠ start)).flatMap next).eraseDups := by
      simpa [List.flatMap_cons] using hagain
    _ = (start :: order.flatMap next).eraseDups := by rw [← hall]

end binary_lab.breadth_first
