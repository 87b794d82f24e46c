-- Text that is put into a buffer piece by piece, until the buffer is full. A
-- piece is plain, or it is a field: its characters come from the last one to
-- the first, and those that found room are turned round in place.
import Mathlib.Algebra.Order.Group.Nat
import Mathlib.Logic.Function.Basic
import Mathlib.Tactic.SplitIfs

namespace binary_lab.texts

/-! ## Pieces -/

/-- A piece of text, with its characters in the order in which they are put. -/
inductive Piece (α : Type)
  | plain (cs : List α)
  | field (cs : List α)

section

variable {α : Type}

def Piece.size : Piece α → Nat
  | plain cs => cs.length
  | field cs => cs.length

/-- The piece as it is meant to be read. -/
def Piece.text : Piece α → List α
  | plain cs => cs
  | field cs => cs.reverse

/-- The number of characters of the pieces. -/
def fullSize : List (Piece α) → Nat
  | [] => 0
  | p :: ps => p.size + fullSize ps

/-- What a buffer with room for `k` characters shows of the pieces. -/
def render : Nat → List (Piece α) → List α
  | _, [] => []
  | k, .plain cs :: ps => cs.take k ++ render (k - cs.length) ps
  | k, .field cs :: ps => (cs.take k).reverse ++ render (k - cs.length) ps

@[simp] theorem fullSize_nil : fullSize ([] : List (Piece α)) = 0 := rfl

@[simp] theorem fullSize_cons (p : Piece α) (ps : List (Piece α)) :
    fullSize (p :: ps) = p.size + fullSize ps := rfl

theorem render_length (k : Nat) (ps : List (Piece α)) :
    (render k ps).length = min k (fullSize ps) := by
  induction ps generalizing k with
  | nil => simp [render]
  | cons p ps ih =>
    cases p with
    | plain cs =>
      simp only [render, List.length_append, List.length_take, ih, fullSize_cons, Piece.size]
      omega
    | field cs =>
      simp only [render, List.length_append, List.length_reverse, List.length_take, ih,
        fullSize_cons, Piece.size]
      omega

theorem fullSize_eq (ps : List (Piece α)) : fullSize ps = (ps.flatMap Piece.text).length := by
  induction ps with
  | nil => rfl
  | cons p ps ih =>
    rw [fullSize_cons, List.flatMap_cons, List.length_append, ih]
    cases p with
    | plain cs => rfl
    | field cs => rw [Piece.size, Piece.text, List.length_reverse]

/-- The pieces behind others have the room that those leave. -/
theorem render_append (k : Nat) (ps qs : List (Piece α)) :
    render k (ps ++ qs) = render k ps ++ render (k - fullSize ps) qs := by
  induction ps generalizing k with
  | nil => rfl
  | cons p ps ih =>
    cases p with
    | plain cs =>
      simp only [List.cons_append, render, ih, List.append_assoc, fullSize_cons, Piece.size,
        Nat.sub_sub]
    | field cs =>
      simp only [List.cons_append, render, ih, List.append_assoc, fullSize_cons, Piece.size,
        Nat.sub_sub]

/-- With room for all of it, the text is shown in full. -/
theorem render_of_room {k : Nat} {ps : List (Piece α)} (h : fullSize ps ≤ k) :
    render k ps = ps.flatMap Piece.text := by
  induction ps generalizing k with
  | nil => rfl
  | cons p ps ih =>
    rw [fullSize_cons] at h
    cases p with
    | plain cs =>
      rw [Piece.size] at h
      rw [render, ih (by omega), List.take_of_length_le (by omega)]
      rfl
    | field cs =>
      rw [Piece.size] at h
      rw [render, ih (by omega), List.take_of_length_le (by omega)]
      rfl

/-- Plain pieces are cut off at the end. -/
theorem render_plain (k : Nat) (css : List (List α)) :
    render k (css.map .plain) = css.flatten.take k := by
  induction css generalizing k with
  | nil => simp [render]
  | cons cs css ih =>
    rw [List.map_cons, render, ih, List.flatten_cons, List.take_append]

/-! ## Smaller and larger buffers -/

/-- If the `k` characters end inside a field, its last characters, which are
there, are the first ones of it in a buffer with room for `K`, too. -/
def CutsWell : Nat → Nat → List (Piece α) → Prop
  | _, _, [] => True
  | k, K, .plain cs :: ps =>
    if cs.length ≤ k then CutsWell (k - cs.length) (K - cs.length) ps else True
  | k, K, .field cs :: ps =>
    if cs.length ≤ k then CutsWell (k - cs.length) (K - cs.length) ps
    else cs.take k <:+ cs.take K

instance CutsWell.decidable [DecidableEq α] :
    (k K : Nat) → (ps : List (Piece α)) → Decidable (CutsWell k K ps)
  | _, _, [] => inferInstanceAs (Decidable True)
  | k, K, .plain cs :: ps =>
    have := CutsWell.decidable (k - cs.length) (K - cs.length) ps
    inferInstanceAs (Decidable (if cs.length ≤ k then _ else True))
  | k, K, .field cs :: ps =>
    have := CutsWell.decidable (k - cs.length) (K - cs.length) ps
    inferInstanceAs (Decidable (if cs.length ≤ k then _ else cs.take k <:+ cs.take K))

theorem render_zero (ps : List (Piece α)) : render 0 ps = [] := by
  rw [← List.length_eq_zero_iff, render_length]
  exact Nat.zero_min _

/-- A smaller buffer shows the start of what a larger one shows exactly if the
text is not cut inside a field that does not repeat. -/
theorem render_eq_take_iff {k K : Nat} (hk : k ≤ K) (ps : List (Piece α)) :
    render k ps = (render K ps).take k ↔ CutsWell k K ps := by
  induction ps generalizing k K with
  | nil => simp [render, CutsWell]
  | cons p ps ih =>
    cases p with
    | plain cs =>
      rw [render, render, CutsWell]
      split_ifs with hfit
      · rw [List.take_of_length_le hfit, List.take_of_length_le (Nat.le_trans hfit hk),
          List.take_append, List.take_of_length_le hfit, List.append_cancel_left_eq]
        exact ih (Nat.sub_le_sub_right hk _)
      · have hfull : k - cs.length = 0 := by omega
        have hinside : k ≤ (cs.take K).length := by
          rw [List.length_take]
          omega
        rw [hfull, render_zero, List.append_nil, List.take_append_of_le_length hinside,
          List.take_take, Nat.min_eq_left hk]
        exact iff_of_true rfl trivial
    | field cs =>
      rw [render, render, CutsWell]
      split_ifs with hfit
      · rw [List.take_of_length_le hfit, List.take_of_length_le (Nat.le_trans hfit hk),
          List.take_append, List.take_of_length_le (by simpa using hfit), List.length_reverse,
          List.append_cancel_left_eq]
        exact ih (Nat.sub_le_sub_right hk _)
      · have hfull : k - cs.length = 0 := by omega
        have hinside : k ≤ (cs.take K).reverse.length := by
          rw [List.length_reverse, List.length_take]
          omega
        have hlength : (cs.take k).reverse.length = k := by
          rw [List.length_reverse, List.length_take]
          omega
        rw [hfull, render_zero, List.append_nil, List.take_append_of_le_length hinside,
          ← List.reverse_prefix, List.prefix_iff_eq_take, hlength]

end

/-! ## Reversal in place -/

section

variable {α : Type}

/-- The loop that swaps the ends of a region, from outside to inside. -/
def swapEnds (f : Int → α) (s t : Int) : Int → α :=
  if s < t then swapEnds (Function.update (Function.update f t (f s)) s (f t)) (s + 1) (t - 1)
  else f
termination_by (t - s).toNat

/-- The loop reverses the region, and leaves what is outside of it. -/
theorem swapEnds_apply (f : Int → α) (s t i : Int) :
    swapEnds f s t i = if s ≤ i ∧ i ≤ t then f (s + t - i) else f i := by
  induction f, s, t using swapEnds.induct with
  | case1 f s t hlt ih =>
    rw [swapEnds, if_pos hlt, ih]
    by_cases hinner : s + 1 ≤ i ∧ i ≤ t - 1
    · rw [if_pos hinner, if_pos (by omega), Function.update_of_ne (by omega),
        Function.update_of_ne (by omega)]
      congr 1
      omega
    · rw [if_neg hinner]
      by_cases hs : i = s
      · rw [hs, Function.update_self, if_pos (by omega)]
        congr 1
        omega
      · rw [Function.update_of_ne hs]
        by_cases ht : i = t
        · rw [ht, Function.update_self, if_pos (by omega)]
          congr 1
          omega
        · rw [Function.update_of_ne ht, if_neg (by omega)]
  | case2 f s t hge =>
    rw [swapEnds, if_neg hge]
    split_ifs with hin
    · congr 1
      omega
    · rfl

/-- The first `n` cells, when the loop has reversed those from `m` on. -/
theorem map_swapEnds (f : Int → α) {m n : Nat} (hmn : m ≤ n) :
    (List.range n).map (fun i : Nat => swapEnds f m (n - 1) i) =
      (List.range m).map (fun i : Nat => f i) ++
        (((List.range n).map (fun i : Nat => f i)).drop m).reverse := by
  apply List.ext_getElem
  · simp
    omega
  · intro i hi _
    have hi : i < n := by simpa using hi
    rw [List.getElem_append, List.getElem_map, List.getElem_range, swapEnds_apply]
    by_cases him : i < m
    · rw [if_neg (by omega), dif_pos (by simpa using him)]
      simp
    · rw [if_pos (by omega), dif_neg (by simpa using him)]
      simp only [List.getElem_reverse, List.getElem_drop, List.getElem_map, List.getElem_range,
        List.length_drop, List.length_map, List.length_range]
      congr 1
      omega

end

end binary_lab.texts
