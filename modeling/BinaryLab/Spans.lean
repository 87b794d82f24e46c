-- Sets of points that are made of spans. A span goes from its start up to its
-- end in a linear order. In order and with a gap behind each one, the spans of
-- a set are its only such list, so how they came together does not count.
import Mathlib.Order.Interval.Set.Basic
import Mathlib.Data.Set.Lattice
import Mathlib.Order.CompletePartialOrder

namespace binary_lab.spans

/-- The points from `start` on and below `stop`. -/
@[ext] structure Span (α : Type) [LT α] where
  start : α
  stop : α
  nonempty : start < stop

variable {α : Type} [LinearOrder α]

instance : DecidableEq (Span α) := fun a b =>
  decidable_of_iff (a.start = b.start ∧ a.stop = b.stop) Span.ext_iff.symm

def Span.cover (s : Span α) : Set α := Set.Ico s.start s.stop

/-- The points of a list of spans. -/
def cover (ss : List (Span α)) : Set α := {x | ∃ s ∈ ss, x ∈ s.cover}

/-- In order, with a gap behind each one. -/
def Gapped (ss : List (Span α)) : Prop := ss.Pairwise fun a b => a.stop < b.start

/-- From the start of `a` to the end of `b`. -/
def Span.join (a b : Span α) (h : a.start < b.stop) : Span α := ⟨a.start, b.stop, h⟩

section

variable {s t : Span α} {ss ts us : List (Span α)} {x : α}

theorem mem_span : x ∈ s.cover ↔ s.start ≤ x ∧ x < s.stop := Iff.rfl

theorem start_mem_cover (s : Span α) : s.start ∈ s.cover := ⟨le_rfl, s.nonempty⟩

theorem mem_cover : x ∈ cover ss ↔ ∃ s ∈ ss, x ∈ s.cover := Iff.rfl

theorem cover_nil : cover ([] : List (Span α)) = ∅ := by
  ext x
  simp [mem_cover]

theorem cover_cons : cover (s :: ss) = s.cover ∪ cover ss := by
  ext x
  simp [mem_cover]

theorem cover_append : cover (ss ++ ts) = cover ss ∪ cover ts := by
  ext x
  simp [mem_cover, or_and_right, exists_or]

theorem cover_perm (h : ss.Perm ts) : cover ss = cover ts := by
  ext x
  simp [mem_cover, h.mem_iff]

theorem cover_subset (hs : s ∈ ss) : s.cover ⊆ cover ss := fun _ hx => ⟨s, hs, hx⟩

/-! ## The only list of a set -/

theorem gapped_append : Gapped (ss ++ ts) ↔
    Gapped ss ∧ Gapped ts ∧ ∀ a ∈ ss, ∀ b ∈ ts, a.stop < b.start := List.pairwise_append

theorem Gapped.tail (h : Gapped (s :: ss)) : Gapped ss := (List.pairwise_cons.mp h).2

theorem Gapped.head (h : Gapped (s :: ss)) (hx : x ∈ cover ss) : s.stop < x := by
  obtain ⟨t, ht, hx⟩ := hx
  exact lt_of_lt_of_le ((List.pairwise_cons.mp h).1 t ht) hx.1

/-- The first start is the least point. -/
theorem Gapped.start_le (h : Gapped (s :: ss)) (hx : x ∈ cover (s :: ss)) : s.start ≤ x := by
  rw [cover_cons] at hx
  rcases hx with hx | hx
  · exact hx.1
  · exact le_of_lt (lt_trans s.nonempty (h.head hx))

/-- Behind the first span there is a gap. -/
theorem Gapped.stop_not_mem (h : Gapped (s :: ss)) : s.stop ∉ cover (s :: ss) := by
  rw [cover_cons]
  rintro (hx | hx)
  · exact lt_irrefl _ hx.2
  · exact lt_irrefl _ (h.head hx)

theorem Gapped.stop_le (h : Gapped (s :: ss)) (hstart : s.start = t.start)
    (hsub : t.cover ⊆ cover (s :: ss)) : t.stop ≤ s.stop := by
  by_contra hlt
  have hin : s.stop ∈ t.cover := ⟨hstart ▸ le_of_lt s.nonempty, not_le.mp hlt⟩
  exact h.stop_not_mem (hsub hin)

theorem Gapped.cover_tail (h : Gapped (s :: ss)) : cover ss = cover (s :: ss) \ s.cover := by
  rw [cover_cons, Set.union_sdiff_left]
  symm
  rw [sdiff_eq_left, Set.disjoint_left]
  exact fun x hx hs => lt_asymm (h.head hx) hs.2

/-- A point is in one of the spans only. -/
theorem Gapped.eq_of_mem (h : Gapped ss) (hs : s ∈ ss) (ht : t ∈ ss) (hx : x ∈ s.cover)
    (hx' : x ∈ t.cover) : s = t := by
  induction ss with
  | nil => exact absurd hs List.not_mem_nil
  | cons u us ih =>
    have hbehind : ∀ v ∈ us, x ∈ v.cover → x ∉ u.cover := fun v hv hxv hxu =>
      lt_asymm hxu.2 (h.head ⟨v, hv, hxv⟩)
    rcases List.mem_cons.mp hs with rfl | hs'
    · rcases List.mem_cons.mp ht with rfl | ht'
      · rfl
      · exact absurd hx (hbehind t ht' hx')
    · rcases List.mem_cons.mp ht with rfl | ht'
      · exact absurd hx' (hbehind s hs' hx)
      · exact ih h.tail hs' ht'

theorem Gapped.ext (hs : Gapped ss) (ht : Gapped ts) (h : cover ss = cover ts) : ss = ts := by
  induction ss generalizing ts with
  | nil =>
    cases ts with
    | nil => rfl
    | cons t ts =>
      have hmem : t.start ∈ cover (t :: ts) := cover_subset List.mem_cons_self (start_mem_cover t)
      rw [← h, cover_nil] at hmem
      exact absurd hmem (Set.notMem_empty _)
  | cons s ss ih =>
    cases ts with
    | nil =>
      have hmem : s.start ∈ cover (s :: ss) := cover_subset List.mem_cons_self (start_mem_cover s)
      rw [h, cover_nil] at hmem
      exact absurd hmem (Set.notMem_empty _)
    | cons t ts =>
      have hfirst : s.cover ⊆ cover (t :: ts) := h ▸ cover_subset List.mem_cons_self
      have hfirst' : t.cover ⊆ cover (s :: ss) := h ▸ cover_subset List.mem_cons_self
      have hstart : s.start = t.start := le_antisymm
        (hs.start_le (hfirst' (start_mem_cover t))) (ht.start_le (hfirst (start_mem_cover s)))
      have hstop : s.stop = t.stop := le_antisymm
        (ht.stop_le hstart.symm hfirst) (hs.stop_le hstart hfirst')
      obtain rfl : s = t := Span.ext hstart hstop
      rw [ih hs.tail ht.tail (by rw [hs.cover_tail, ht.cover_tail, h])]

end

/-! ## One more span -/

/-- The span `s` in front of a list, joined with the first one if that starts at its end. -/
def glue (s : Span α) : List (Span α) → List (Span α)
  | [] => [s]
  | t :: ts => if h : s.stop = t.start then
      s.join t (lt_trans s.nonempty (h ▸ t.nonempty)) :: ts
    else s :: t :: ts

/-- The list with one more span, which is joined with its neighbours if it touches them. -/
def put (s : Span α) : List (Span α) → List (Span α)
  | [] => [s]
  | t :: ts => if t.stop < s.start then t :: put s ts
    else if h : t.stop = s.start then
      glue (t.join s (lt_trans t.nonempty (h ▸ s.nonempty))) ts
    else glue s (t :: ts)

section

variable {s t : Span α} {ss ts : List (Span α)} {x : α}

/-- No point of the span is one of the list. -/
def Free (s : Span α) (ss : List (Span α)) : Prop := Disjoint s.cover (cover ss)

theorem Free.mem (h : Free s ss) (ht : t ∈ ss) : Disjoint s.cover t.cover :=
  Set.disjoint_of_subset_right (cover_subset ht) h

/-- Of two spans that share no point one comes first. -/
theorem before_or_behind (h : Disjoint s.cover t.cover) : s.stop ≤ t.start ∨ t.stop ≤ s.start := by
  by_contra hno
  rw [not_or, not_le, not_le] at hno
  rcases le_total s.start t.start with hle | hle
  · exact Set.disjoint_left.mp h ⟨hle, hno.1⟩ (start_mem_cover t)
  · exact Set.disjoint_left.mp h (start_mem_cover s) ⟨hle, hno.2⟩

theorem disjoint_of_stop_le (h : s.stop ≤ t.start) : Disjoint s.cover t.cover :=
  Set.disjoint_left.mpr fun _ hs ht => absurd (lt_of_lt_of_le hs.2 h) (not_lt.mpr ht.1)

theorem cover_join (h : s.stop = t.start) :
    (s.join t (lt_trans s.nonempty (h ▸ t.nonempty))).cover = s.cover ∪ t.cover := by
  ext x
  have hs := s.nonempty
  have ht := t.nonempty
  constructor
  · rintro ⟨h1, h2⟩
    rcases lt_or_ge x s.stop with hx | hx
    · exact .inl ⟨h1, hx⟩
    · exact .inr ⟨h ▸ hx, h2⟩
  · rintro (⟨h1, h2⟩ | ⟨h1, h2⟩)
    · exact ⟨h1, lt_trans (h ▸ h2) ht⟩
    · exact ⟨le_trans (le_of_lt hs) (h ▸ h1), h2⟩

theorem cover_glue : cover (glue s ss) = s.cover ∪ cover ss := by
  cases ss with
  | nil => rw [glue, cover_cons]
  | cons t ts =>
    rw [glue]
    split_ifs with h
    · rw [cover_cons, cover_join h, cover_cons, Set.union_assoc]
    · rw [cover_cons]

theorem gapped_glue (hs : Gapped ss) (hbefore : ∀ t ∈ ss, s.stop ≤ t.start) :
    Gapped (glue s ss) := by
  cases ss with
  | nil => exact List.pairwise_singleton _ _
  | cons t ts =>
    rw [glue]
    obtain ⟨hfirst, hrest⟩ := List.pairwise_cons.mp hs
    split_ifs with h
    · exact List.pairwise_cons.mpr ⟨hfirst, hrest⟩
    · have hgap : s.stop < t.start := lt_of_le_of_ne (hbefore t List.mem_cons_self) h
      refine List.pairwise_cons.mpr ⟨?_, hs⟩
      intro u hu
      rcases List.mem_cons.mp hu with rfl | hu
      · exact hgap
      · exact lt_trans hgap (lt_trans t.nonempty (hfirst u hu))

theorem cover_put : cover (put s ss) = s.cover ∪ cover ss := by
  induction ss with
  | nil => rw [put, cover_cons]
  | cons t ts ih =>
    rw [put]
    split_ifs with h1 h2
    · rw [cover_cons, ih, cover_cons, Set.union_left_comm]
    · rw [cover_glue, cover_join h2, cover_cons, Set.union_comm t.cover, Set.union_assoc]
    · rw [cover_glue]

/-- What ends in front of `s` stays in front of it. -/
theorem put_append {ps : List (Span α)} (h : ∀ t ∈ ps, t.stop < s.start) :
    put s (ps ++ ss) = ps ++ put s ss := by
  induction ps with
  | nil => rfl
  | cons t ts ih =>
    rw [List.cons_append, put, if_pos (h t List.mem_cons_self),
      ih fun u hu => h u (List.mem_cons_of_mem _ hu), List.cons_append]

theorem gapped_put (hs : Gapped ss) (hfree : Free s ss) : Gapped (put s ss) := by
  induction ss with
  | nil => exact List.pairwise_singleton _ _
  | cons t ts ih =>
    obtain ⟨hfirst, hrest⟩ := List.pairwise_cons.mp hs
    have hside := before_or_behind (hfree.mem List.mem_cons_self)
    rw [put]
    split_ifs with h1 h2
    · have hrestfree : Free s ts := Set.disjoint_of_subset_right
        (by rw [cover_cons]; exact Set.subset_union_right) hfree
      refine List.pairwise_cons.mpr ⟨?_, ih hrest hrestfree⟩
      intro u hu
      -- the start of a span of the new list is a point of `s` or of the old list
      have hmem := cover_subset hu (start_mem_cover u)
      rw [cover_put] at hmem
      rcases hmem with hmem | hmem
      · exact lt_of_lt_of_le h1 hmem.1
      · exact hs.head hmem
    · apply gapped_glue hrest
      intro u hu
      rcases before_or_behind (hfree.mem (List.mem_cons_of_mem _ hu)) with h | h
      · exact h
      · have hlt : s.start < s.start := calc
          s.start = t.stop := h2.symm
          _ < u.start := hfirst u hu
          _ < u.stop := u.nonempty
          _ ≤ s.start := h
        exact absurd hlt (lt_irrefl _)
    · have hbefore : s.stop ≤ t.start := by
        rcases hside with h | h
        · exact h
        · exact absurd (lt_of_le_of_ne h h2) h1
      apply gapped_glue hs
      intro u hu
      rcases List.mem_cons.mp hu with rfl | hu
      · exact hbefore
      · exact le_trans hbefore (le_of_lt (lt_trans t.nonempty (hfirst u hu)))

/-- A span of the new list is one of the old list, or it is around `s`. -/
theorem mem_glue {u : Span α} (hu : u ∈ glue s ss) : u ∈ ss ∨ (u.start = s.start ∧
    (u.stop = s.stop ∨ ∃ t ∈ ss, u.stop = t.stop) ∧ s.stop ≤ u.stop) := by
  cases ss with
  | nil =>
    obtain rfl := List.mem_singleton.mp hu
    exact .inr ⟨rfl, .inl rfl, le_rfl⟩
  | cons t ts =>
    rw [glue] at hu
    split_ifs at hu with h
    · rcases List.mem_cons.mp hu with rfl | hu
      · exact .inr ⟨rfl, .inr ⟨t, List.mem_cons_self, rfl⟩, h ▸ le_of_lt t.nonempty⟩
      · exact .inl (List.mem_cons_of_mem _ hu)
    · rcases List.mem_cons.mp hu with rfl | hu
      · exact .inr ⟨rfl, .inl rfl, le_rfl⟩
      · exact .inl hu

theorem mem_put {u : Span α} (hu : u ∈ put s ss) : u ∈ ss ∨
    ((u.start = s.start ∨ ∃ t ∈ ss, u.start = t.start) ∧
      (u.stop = s.stop ∨ ∃ t ∈ ss, u.stop = t.stop) ∧ u.start ≤ s.start ∧ s.stop ≤ u.stop) := by
  induction ss with
  | nil =>
    obtain rfl := List.mem_singleton.mp hu
    exact .inr ⟨.inl rfl, .inl rfl, le_rfl, le_rfl⟩
  | cons t ts ih =>
    rw [put] at hu
    split_ifs at hu with h1 h2
    · rcases List.mem_cons.mp hu with rfl | hu
      · exact .inl List.mem_cons_self
      · rcases ih hu with hmem | ⟨hstart, hstop, hrest⟩
        · exact .inl (List.mem_cons_of_mem _ hmem)
        · refine .inr ⟨hstart.imp_right ?_, hstop.imp_right ?_, hrest⟩
          · exact fun ⟨v, hv, heq⟩ => ⟨v, List.mem_cons_of_mem _ hv, heq⟩
          · exact fun ⟨v, hv, heq⟩ => ⟨v, List.mem_cons_of_mem _ hv, heq⟩
    · rcases mem_glue hu with hmem | ⟨hstart, hstop, hle⟩
      · exact .inl (List.mem_cons_of_mem _ hmem)
      · refine .inr ⟨.inr ⟨t, List.mem_cons_self, hstart⟩, hstop.imp_right ?_, ?_, hle⟩
        · exact fun ⟨v, hv, heq⟩ => ⟨v, List.mem_cons_of_mem _ hv, heq⟩
        · exact hstart ▸ h2 ▸ le_of_lt t.nonempty
    · rcases mem_glue hu with hmem | ⟨hstart, hstop, hle⟩
      · exact .inl hmem
      · exact .inr ⟨.inl hstart, hstop, le_of_eq hstart, hle⟩

/-- The list with more spans, one after the other. -/
def putAll (ss : List (Span α)) (us : List (Span α)) : List (Span α) :=
  us.foldl (fun ss s => put s ss) ss

theorem cover_putAll {us : List (Span α)} : cover (putAll ss us) = cover ss ∪ cover us := by
  induction us generalizing ss with
  | nil => rw [cover_nil, Set.union_empty, putAll, List.foldl_nil]
  | cons u us ih =>
    have hstep : putAll ss (u :: us) = putAll (put u ss) us := rfl
    rw [hstep, ih, cover_put, cover_cons, Set.union_comm u.cover, Set.union_assoc]

theorem free_put (hfree : Free t ss) (hst : Disjoint s.cover t.cover) : Free t (put s ss) := by
  unfold Free
  rw [cover_put]
  exact Set.disjoint_union_right.mpr ⟨hst.symm, hfree⟩

theorem gapped_putAll {us : List (Span α)} (hs : Gapped ss) (hfree : ∀ u ∈ us, Free u ss)
    (hapart : us.Pairwise fun a b => Disjoint a.cover b.cover) : Gapped (putAll ss us) := by
  induction us generalizing ss with
  | nil => exact hs
  | cons u us ih =>
    obtain ⟨hu, hus⟩ := List.pairwise_cons.mp hapart
    exact ih (gapped_put hs (hfree u List.mem_cons_self))
      (fun v hv => free_put (hfree v (List.mem_cons_of_mem _ hv)) (hu v hv)) hus

/-- The order of the spans does not count. -/
theorem putAll_perm {us vs : List (Span α)} (hs : Gapped ss) (hfree : ∀ u ∈ us, Free u ss)
    (hapart : us.Pairwise fun a b => Disjoint a.cover b.cover) (hperm : us.Perm vs) :
    putAll ss us = putAll ss vs := by
  have hapart' := (hperm.pairwise_iff fun h => h.symm).mp hapart
  have hfree' : ∀ v ∈ vs, Free v ss := fun v hv => hfree v (hperm.mem_iff.mpr hv)
  apply (gapped_putAll hs hfree hapart).ext (gapped_putAll hs hfree' hapart')
  rw [cover_putAll, cover_putAll, cover_perm hperm]

end

/-! ## Less from the front of a span -/

/-- What is left of the span behind `x`. -/
def Span.behind (s : Span α) (x : α) : List (Span α) :=
  if h : x < s.stop then [⟨x, s.stop, h⟩] else []

section

variable {s : Span α} {ps qs : List (Span α)} {x y : α}

theorem cover_behind (hx : s.start ≤ x) : cover (s.behind x) = s.cover \ Set.Iio x := by
  ext y
  unfold Span.behind
  split_ifs with h
  · simp only [mem_cover, List.mem_singleton, exists_eq_left, Set.mem_sdiff, Set.mem_Iio, not_lt,
      mem_span]
    exact ⟨fun hy => ⟨⟨le_trans hx hy.1, hy.2⟩, hy.1⟩, fun hy => ⟨hy.2, hy.1.2⟩⟩
  · rw [cover_nil]
    refine iff_of_false (Set.notMem_empty _) ?_
    rintro ⟨hy, hlow⟩
    exact h (lt_of_le_of_lt (not_lt.mp hlow) hy.2)

theorem gapped_carve (h : Gapped (ps ++ s :: qs)) (hx : s.start ≤ x) :
    Gapped (ps ++ (s.behind x ++ qs)) := by
  obtain ⟨hps, hsq, hbetween⟩ := gapped_append.mp h
  obtain ⟨hfirst, hqs⟩ := List.pairwise_cons.mp hsq
  have hstart : ∀ u ∈ s.behind x, s.start ≤ u.start ∧ u.stop = s.stop := by
    intro u hu
    unfold Span.behind at hu
    split_ifs at hu with hlt
    · obtain rfl := List.mem_singleton.mp hu
      exact ⟨hx, rfl⟩
    · cases hu
  refine gapped_append.mpr ⟨hps, gapped_append.mpr ⟨?_, hqs, ?_⟩, ?_⟩
  · unfold Span.behind
    split_ifs
    · exact List.pairwise_singleton _ _
    · exact List.Pairwise.nil
  · intro u hu v hv
    rw [(hstart u hu).2]
    exact hfirst v hv
  · intro u hu v hv
    rcases List.mem_append.mp hv with hv | hv
    · exact lt_of_lt_of_le (hbetween u hu s List.mem_cons_self) (hstart v hv).1
    · exact hbetween u hu v (List.mem_cons_of_mem _ hv)

theorem cover_carve (h : Gapped (ps ++ s :: qs)) (hx : s.start ≤ x) (hle : x ≤ s.stop) :
    cover (ps ++ (s.behind x ++ qs)) = cover (ps ++ s :: qs) \ Set.Ico s.start x := by
  obtain ⟨_, hsq, hbetween⟩ := gapped_append.mp h
  have hps : Disjoint (cover ps) (Set.Ico s.start x) := by
    rw [Set.disjoint_left]
    rintro y ⟨u, hu, hy⟩ hin
    exact absurd (lt_trans hy.2 (hbetween u hu s List.mem_cons_self)) (not_lt.mpr hin.1)
  have hqs : Disjoint (cover qs) (Set.Ico s.start x) := by
    rw [Set.disjoint_left]
    intro y hy hin
    exact absurd (lt_of_lt_of_le hin.2 hle) (not_lt.mpr (le_of_lt (hsq.head hy)))
  have hrest : s.cover \ Set.Iio x = s.cover \ Set.Ico s.start x := by
    ext y
    constructor
    · exact fun hy => ⟨hy.1, fun hin => hy.2 hin.2⟩
    · exact fun hy => ⟨hy.1, fun hlt => hy.2 ⟨hy.1.1, hlt⟩⟩
  rw [cover_append, cover_append, cover_append, cover_cons, cover_behind hx, hrest,
    Set.union_sdiff_distrib, Set.union_sdiff_distrib, hps.sdiff_eq_left, hqs.sdiff_eq_left]

/-- What was taken from the front can be put back. -/
theorem put_carve (h : Gapped (ps ++ s :: qs)) (hx : s.start < x) (hle : x ≤ s.stop) :
    put ⟨s.start, x, hx⟩ (ps ++ (s.behind x ++ qs)) = ps ++ s :: qs := by
  have hcover := cover_carve h (le_of_lt hx) hle
  have hfree : Free ⟨s.start, x, hx⟩ (ps ++ (s.behind x ++ qs)) := by
    unfold Free
    rw [hcover]
    exact Set.disjoint_sdiff_right
  apply (gapped_put (gapped_carve h (le_of_lt hx)) hfree).ext h
  have hsub : Set.Ico s.start x ⊆ cover (ps ++ s :: qs) := fun y hy =>
    cover_subset (List.mem_append_right _ List.mem_cons_self) ⟨hy.1, lt_of_lt_of_le hy.2 hle⟩
  rw [cover_put, hcover]
  exact Set.union_sdiff_cancel hsub

end

end binary_lab.spans
