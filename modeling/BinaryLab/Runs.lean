-- Computations that may fail: one after the other, and one for each element
-- of a list. Settings that are made one after the other, each with its key.
import Mathlib.Data.List.Forall2
import Mathlib.Data.List.Induction

namespace binary_lab.runs

/-- A computation that ends well is made of parts that end well. -/
theorem bind_eq_ok {ε α β : Type} {x : Except ε α} {f : α → Except ε β} {b : β} :
    (x >>= f) = .ok b ↔ ∃ a, x = .ok a ∧ f a = .ok b := by
  cases x with
  | error e => simp [bind, Except.bind]
  | ok a => simp [bind, Except.bind]

theorem bind_eq_error {ε α β : Type} {x : Except ε α} {f : α → Except ε β} {e : ε} :
    (x >>= f) = .error e ↔ x = .error e ∨ ∃ a, x = .ok a ∧ f a = .error e := by
  cases x with
  | error e => simp [bind, Except.bind]
  | ok a => simp [bind, Except.bind]

/-- A loop over a list ends well if every turn does, and gives the results in order. -/
theorem mapM_eq_ok {ε α β : Type} {f : α → Except ε β} {xs : List α} {ys : List β} :
    xs.mapM f = .ok ys ↔ List.Forall₂ (fun x y => f x = .ok y) xs ys := by
  induction xs generalizing ys with
  | nil =>
    rw [List.mapM_nil, List.forall₂_nil_left_iff]
    exact ⟨fun h => by cases h; rfl, fun h => by rw [h]; rfl⟩
  | cons x xs ih =>
    rw [List.mapM_cons, List.forall₂_cons_left_iff, bind_eq_ok]
    constructor
    · rintro ⟨y, hy, h⟩
      rw [bind_eq_ok] at h
      obtain ⟨zs, hzs, h⟩ := h
      cases h
      exact ⟨y, zs, hy, ih.mp hzs, rfl⟩
    · rintro ⟨y, zs, hy, hzs, rfl⟩
      rw [← ih] at hzs
      exact ⟨y, hy, by rw [hzs]; rfl⟩

/-- A run whose turns give known values, or none. -/
theorem mapM_eq_ok_map {ε α β : Type} {f : α → Except ε β} {g : α → β} {p : α → Prop}
    {xs : List α} {ys : List β} (hf : ∀ x y, f x = .ok y ↔ p x ∧ y = g x) :
    xs.mapM f = .ok ys ↔ (∀ x ∈ xs, p x) ∧ ys = xs.map g := by
  rw [mapM_eq_ok]
  induction xs generalizing ys with
  | nil => simp
  | cons x xs ih =>
    rw [List.forall₂_cons_left_iff, List.forall_mem_cons, List.map_cons]
    constructor
    · rintro ⟨y, ys, hy, hys, rfl⟩
      obtain ⟨hp, rfl⟩ := (hf x y).mp hy
      obtain ⟨hrest, rfl⟩ := ih.mp hys
      exact ⟨⟨hp, hrest⟩, rfl⟩
    · rintro ⟨⟨hp, hrest⟩, rfl⟩
      exact ⟨_, _, (hf x _).mpr ⟨hp, rfl⟩, ih.mpr ⟨hrest, rfl⟩, rfl⟩

/-- What every turn of a loop says of its element and its result. -/
theorem map_of_mapM {ε α β γ : Type} {f : α → Except ε β} {g : β → γ} {p : α → γ}
    {q : α → Prop} {xs : List α} {ys : List β} (h : xs.mapM f = .ok ys)
    (hf : ∀ x y, f x = .ok y → g y = p x ∧ q x) : ys.map g = xs.map p ∧ ∀ x ∈ xs, q x := by
  rw [mapM_eq_ok] at h
  induction h with
  | nil => simp
  | cons hxy _ ih =>
    obtain ⟨hg, hq⟩ := hf _ _ hxy
    exact ⟨by rw [List.map_cons, List.map_cons, hg, ih.1], List.forall_mem_cons.mpr ⟨hq, ih.2⟩⟩

/-- A counting loop that keeps an invariant goes to its end. -/
theorem foldlM_range_inv {ε σ : Type} {f : σ → Nat → Except ε σ} (inv : Nat → σ → Prop) {n : Nat}
    {s : σ} (h0 : inv 0 s)
    (hstep : ∀ i < n, ∀ s, inv i s → ∃ s', f s i = .ok s' ∧ inv (i + 1) s') :
    ∃ s', (List.range n).foldlM f s = .ok s' ∧ inv n s' := by
  induction n with
  | zero => exact ⟨s, rfl, h0⟩
  | succ n ih =>
    obtain ⟨s1, hrun, hinv⟩ := ih fun i hi => hstep i (by omega)
    obtain ⟨s2, hturn, hinv2⟩ := hstep n (by omega) s1 hinv
    refine ⟨s2, ?_, hinv2⟩
    rw [List.range_succ, List.foldlM_append, hrun]
    simp [bind, Except.bind, pure, Except.pure, hturn]

/-! ## Two runs -/

section

variable {ε ε' α β γ δ : Type} {err : ε' → ε} {R : α → β → Prop} {S : γ → δ → Prop}

/-- The runs end alike: both well, with results that belong together, or with one error. -/
def Alike (err : ε' → ε) (R : α → β → Prop) : Except ε α → Except ε' β → Prop
  | .ok a, .ok b => R a b
  | .error e, .error e' => e = err e'
  | _, _ => False

theorem Alike.bind {x : Except ε α} {y : Except ε' β} {f : α → Except ε γ} {g : β → Except ε' δ}
    (h : Alike err R x y) (hf : ∀ a b, R a b → Alike err S (f a) (g b)) :
    Alike err S (x >>= f) (y >>= g) := by
  cases x <;> cases y
  · exact h
  · exact h.elim
  · exact h.elim
  · exact hf _ _ h

theorem alike_mapError (y : Except ε' β) : Alike err Eq (y.mapError err) y := by
  cases y <;> rfl

theorem Alike.eq {x : Except ε β} {y : Except ε' β} (h : Alike err Eq x y) :
    x = y.mapError err := by
  cases x <;> cases y
  · exact congrArg Except.error h
  · exact h.elim
  · exact h.elim
  · exact congrArg Except.ok h

end

/-! ## Settings with keys -/

section

variable {σ κ α β : Type} {k : κ}

/-- A run goes to its end if every turn does. -/
theorem foldlM_total {ε : Type} {step : σ → α → Except ε σ} {es : List α}
    (h : ∀ s, ∀ e ∈ es, ∃ s', step s e = .ok s') (s : σ) : ∃ s', es.foldlM step s = .ok s' := by
  induction es generalizing s with
  | nil => exact ⟨s, rfl⟩
  | cons e es ih =>
    obtain ⟨s1, hstep⟩ := h s e List.mem_cons_self
    obtain ⟨s', hrun⟩ := ih (fun s e he => h s e (List.mem_cons_of_mem _ he)) s1
    exact ⟨s', by rw [List.foldlM_cons, hstep]; exact hrun⟩

/-- A run over one element more. -/
theorem foldlM_concat_eq_ok {ε : Type} {step : σ → α → Except ε σ} {es : List α} {e : α}
    {s s' : σ} :
    (es ++ [e]).foldlM step s = .ok s' ↔ ∃ s1, es.foldlM step s = .ok s1 ∧ step s1 e = .ok s' := by
  rw [List.foldlM_append, bind_eq_ok]
  simp only [List.foldlM_cons, List.foldlM_nil, bind_pure]

/-- A field that only one key sets has what was set for it last. -/
theorem foldlM_lookup_last {ε : Type} [BEq κ] [LawfulBEq κ] {step : σ → κ × α → Except ε σ}
    (field : σ → β) (k : κ) (set : α → β)
    (hset : ∀ s v s', step s (k, v) = .ok s' → field s' = set v)
    (hkeep : ∀ s e s', step s e = .ok s' → e.1 ≠ k → field s' = field s) {es : List (κ × α)}
    {s s' : σ} (h : es.foldlM step s = .ok s') :
    field s' = ((es.reverse.lookup k).map set).getD (field s) := by
  induction es using List.reverseRecOn generalizing s' with
  | nil =>
    cases h
    rfl
  | append_singleton es e ih =>
    obtain ⟨key, v⟩ := e
    obtain ⟨s1, hrun, hstep⟩ := foldlM_concat_eq_ok.mp h
    rw [List.reverse_append, List.reverse_singleton, List.singleton_append, List.lookup_cons]
    by_cases hkey : k = key
    · subst hkey
      simp [hset _ _ _ hstep]
    · rw [beq_false_of_ne hkey, hkeep _ _ _ hstep (Ne.symm hkey), ih hrun]

/-- With every key once, what is set for a key is a matter of membership. -/
theorem lookup_eq_some_iff_mem [BEq κ] [LawfulBEq κ] {es : List (κ × α)}
    (honce : (es.map Prod.fst).Nodup) {v : α} : es.lookup k = some v ↔ (k, v) ∈ es := by
  rw [List.lookup_eq_some_iff]
  constructor
  · rintro ⟨before, after, rfl, _⟩
    exact List.mem_append_right before List.mem_cons_self
  · intro hmem
    obtain ⟨before, after, rfl⟩ := List.append_of_mem hmem
    refine ⟨before, after, rfl, ?_⟩
    intro e he
    rw [List.map_append, List.nodup_append] at honce
    have hne := honce.2.2 e.1 (List.mem_map.mpr ⟨e, he, rfl⟩) k List.mem_cons_self
    simpa using hne.symm

/-- Then the order does not matter. -/
theorem lookup_perm [BEq κ] [LawfulBEq κ] {es es' : List (κ × α)} (honce : (es.map Prod.fst).Nodup)
    (hperm : es'.Perm es) (k : κ) : es'.lookup k = es.lookup k := by
  have honce' : (es'.map Prod.fst).Nodup := (hperm.map Prod.fst).nodup_iff.mpr honce
  ext v
  rw [lookup_eq_some_iff_mem honce', lookup_eq_some_iff_mem honce, hperm.mem_iff]

/-- A field that only one key sets has what was set for it, wherever that stands. -/
theorem foldlM_lookup {ε : Type} [BEq κ] [LawfulBEq κ] {step : σ → κ × α → Except ε σ}
    (field : σ → β) (k : κ) (set : α → β)
    (hset : ∀ s v s', step s (k, v) = .ok s' → field s' = set v)
    (hkeep : ∀ s e s', step s e = .ok s' → e.1 ≠ k → field s' = field s) {es : List (κ × α)}
    (honce : (es.map Prod.fst).Nodup) {s s' : σ} (h : es.foldlM step s = .ok s') :
    field s' = ((es.lookup k).map set).getD (field s) := by
  rw [foldlM_lookup_last field k set hset hkeep h, lookup_perm honce es.reverse_perm]

end

end binary_lab.runs
