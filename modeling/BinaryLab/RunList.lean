-- The run list of `map_object_deps` in memory: a ring of nodes on the stack,
-- which grows at its end while the loop goes along it. It is the list of the
-- model as long as each node has three words for itself. The stack is asked for
-- two (rtld/load.c, where `runlist` is the head and not the structure).
import BinaryLab.DepsClosure
import BinaryLab.Rings

set_option linter.style.nameCheck false

open binary_lab.runs binary_lab.rings

namespace elf_loader.load

/-! ## The stack -/

/-- A word of the stack. -/
inductive Cell
  | link (a : Int)
  | map (p : Ptr)
deriving DecidableEq, Repr

/-- The words of the stack by their number. A node `r` has its map at `r`, and the links to the
next and the previous node at `r + 1` and `r + 2`. -/
abbrev Cells := Int → Cell

inductive Trap
  | stop (s : Stop)
  /-- The word is not of the kind that is read. -/
  | wild
deriving DecidableEq

def check {α : Type} (x : Except Stop α) : Except Trap α := x.mapError .stop

def Cells.link (m : Cells) (a : Int) : Except Trap Int :=
  match m a with
  | .link b => .ok b
  | .map _ => .error .wild

def Cells.map (m : Cells) (a : Int) : Except Trap Ptr :=
  match m a with
  | .map p => .ok p
  | .link _ => .error .wild

/-- `LIST_HEAD` -/
def list_head (m : Cells) (head : Int) : Cells :=
  Function.update (Function.update m head (.link head)) (head + 1) (.link head)

def __list_add (m : Cells) (new prev next : Int) : Cells :=
  let m := Function.update m (next + 1) (.link new)
  let m := Function.update m new (.link next)
  let m := Function.update m (new + 1) (.link prev)
  Function.update m prev (.link new)

def list_add_tail (m : Cells) (new head : Int) : Except Trap Cells := do
  let prev ← m.link (head + 1)
  .ok (__list_add m new prev head)

/-! ## The loop -/

/-- The state of the loop. The objects of `st` are not in its list, but in the ring. -/
structure RingState where
  st : Deps
  cells : Cells
  /-- How often `ealloca` was called. -/
  count : Nat

section

variable (host : Host) (ealloca : Nat → Int) (head : Int)

/-- `chain_runlist`, with the next node of `ealloca`. -/
def chain_node (c : RingState) (p : Ptr) : Except Trap RingState := do
  let r := ealloca c.count
  let cells ← list_add_tail (Function.update c.cells r (.map p)) (r + 1) head
  .ok { c with cells, count := c.count + 1 }

/-- The body of the loop over the dynamic section. What goes to the run list goes to the ring. -/
def ring_entry (l : LinkMap) (c : RingState) (dyn : Dyn) : Except Trap RingState := do
  let st ← check (needed_entry host l { c.st with todo := [] } dyn)
  st.todo.foldlM (chain_node ealloca head) { c with st := { st with todo := [] } }

def ring_entries (l : LinkMap) (c : RingState) : List Dyn → Except Trap RingState
  | [] => .ok c
  | dyn :: dyns => do ring_entries l (← ring_entry host ealloca head l c dyn) dyns

/-- `list_for_each_entry` from the node at `pos` on. -/
def ring_loop : Nat → Int → RingState → Except Trap RingState
  | fuel, pos, c =>
    if pos = head then .ok c
    else match fuel with
      | 0 => .error (.stop .endless)
      | fuel + 1 => do
        let p ← c.cells.map (pos - 1)
        let l ← check (c.st.w.deref p)
        let c ← ring_entries host ealloca head l c l.image.dynamic
        let next ← c.cells.link pos
        ring_loop fuel next c

/-- The loop that fills `r_list` from index `i` on. -/
def ring_fill (cells : Cells) (root : Ptr) :
    Nat → Int → Nat → List (Option Ptr) → Except Trap (List (Option Ptr))
  | fuel, pos, i, r_list =>
    if pos = head then .ok r_list
    else match fuel with
      | 0 => .error (.stop .endless)
      | fuel + 1 => do
        let p ← cells.map (pos - 1)
        if p = root then do ring_fill cells root fuel (← cells.link pos) i r_list
        else if i < r_list.length then do
          ring_fill cells root fuel (← cells.link pos) (i + 1) (r_list.set i (some p))
        else .error (.stop (.fault .badStore))

def ring_searchlist (root : Ptr) (c : RingState) : Except Trap Rtld :=
  if c.st.nlist > 0 then do
    let first ← c.cells.link head
    let r_list ← ring_fill head c.cells root c.count first 0 (List.replicate c.st.nlist none)
    let l ← check (c.st.w.deref root)
    .ok (c.st.w.put root { l with l_searchlist := { r_list, r_nlist := c.st.nlist } })
  else .ok c.st.w

/-- `map_object_deps` with the run list in memory. -/
def map_object_deps_ring (cells : Cells) (fuel : Nat) (w : Rtld) (root : Ptr) :
    Except Trap Rtld := do
  let w ← check (parse_map host w root)
  let c ← chain_node ealloca head
    { st := { w, todo := [], nlist := 0 }, cells := list_head cells head, count := 0 } root
  let first ← c.cells.link head
  let c ← ring_loop host ealloca head fuel first c
  let w ← ring_searchlist head root c
  check (print_namespace w)
  .ok w

end

/-! ## The ring -/

/-- Where a word leads to, as a link. -/
def Cell.target : Cell → Int
  | link a => a
  | map _ => 0

def Cells.links (m : Cells) : Links Int where
  next a := (m a).target
  prev a := (m (a + 1)).target

/-- The links of the first `n` nodes. -/
def nodes (ealloca : Nat → Int) (n : Nat) : List Int := (List.range n).map fun k => ealloca k + 1

/-- A new node touches the links of none of the others. -/
structure LinkRoom (ealloca : Nat → Int) (head : Int) : Prop where
  head : ∀ k, head + 2 ≤ ealloca k ∨ ealloca k + 3 ≤ head
  later : ∀ j k, j < k → ealloca j + 3 ≤ ealloca k ∨ ealloca k + 2 ≤ ealloca j

/-- Each node has three words, and the head two, that nothing else has. -/
structure Room (ealloca : Nat → Int) (head : Int) : Prop where
  head : ∀ k, head + 2 ≤ ealloca k ∨ ealloca k + 3 ≤ head
  apart : ∀ j k, j ≠ k → ealloca j + 3 ≤ ealloca k ∨ ealloca k + 3 ≤ ealloca j

/-- The nodes are below each other, with the two words for each of them that are asked for. -/
structure Packed (ealloca : Nat → Int) (head : Int) : Prop where
  first : ealloca 0 + 3 ≤ head
  below : ∀ k, ealloca (k + 1) = ealloca k - 2

/-- The ring of the first `n` nodes. -/
structure Linked (ealloca : Nat → Int) (head : Int) (m : Cells) (n : Nat) : Prop where
  ring : m.links.Ring head (nodes ealloca n)
  typed : ∀ a ∈ head :: nodes ealloca n,
    m a = .link (m.links.next a) ∧ m (a + 1) = .link (m.links.prev a)

section

variable {ealloca : Nat → Int} {head : Int} {m : Cells} {n k : Nat} {a b : Int} {p : Ptr}
  {done todo : List Ptr}

theorem nodes_succ (n : Nat) : nodes ealloca (n + 1) = nodes ealloca n ++ [ealloca n + 1] := by
  rw [nodes, List.range_succ, List.map_append]
  rfl

theorem mem_nodes (h : a ∈ head :: nodes ealloca n) : a = head ∨ ∃ k < n, a = ealloca k + 1 := by
  rcases List.mem_cons.mp h with rfl | h
  · exact .inl rfl
  · obtain ⟨k, hk, rfl⟩ := List.mem_map.mp h
    exact .inr ⟨k, List.mem_range.mp hk, rfl⟩

theorem Room.links (h : Room ealloca head) : LinkRoom ealloca head where
  head := h.head
  later j k hjk := by
    have := h.apart j k (Nat.ne_of_lt hjk)
    omega

theorem Packed.eq (h : Packed ealloca head) (k : Nat) : ealloca k = ealloca 0 - 2 * k := by
  induction k with
  | zero => simp
  | succ k ih =>
    rw [h.below, ih]
    omega

theorem Packed.links (h : Packed ealloca head) : LinkRoom ealloca head where
  head k := by
    have hfirst := h.first
    have hk := h.eq k
    omega
  later j k hjk := by
    have hj := h.eq j
    have hk := h.eq k
    omega

/-- A node is apart from the words of a later one. -/
theorem LinkRoom.clear (h : LinkRoom ealloca head) (ha : a ∈ head :: nodes ealloca n) :
    a + 2 ≤ ealloca n ∨ ealloca n + 3 ≤ a := by
  rcases mem_nodes ha with rfl | ⟨k, hk, rfl⟩
  · exact h.head n
  · have := h.later k n hk
    omega

theorem LinkRoom.eq_or_apart (h : LinkRoom ealloca head) (ha : a ∈ head :: nodes ealloca n)
    (hb : b ∈ head :: nodes ealloca n) : a = b ∨ a + 2 ≤ b ∨ b + 2 ≤ a := by
  rcases mem_nodes ha with rfl | ⟨j, hj, rfl⟩ <;> rcases mem_nodes hb with rfl | ⟨k, hk, rfl⟩
  · exact .inl rfl
  · have := h.head k
    omega
  · have := h.head j
    omega
  · rcases Nat.lt_trichotomy j k with hlt | rfl | hlt
    · have := h.later j k hlt
      omega
    · exact .inl rfl
    · have := h.later k j hlt
      omega

/-- The map of a node is in none of the links. -/
theorem Room.map_clear (h : Room ealloca head) (ha : a ∈ head :: nodes ealloca n) (k : Nat) :
    ealloca k ≠ a ∧ ealloca k ≠ a + 1 := by
  rcases mem_nodes ha with rfl | ⟨j, _, rfl⟩
  · have := h.head k
    omega
  · by_cases heq : j = k
    · subst heq
      omega
    · have := h.apart j k heq
      omega

theorem Linked.link_eq (h : Linked ealloca head m n) (ha : a ∈ head :: nodes ealloca n) :
    m.link a = .ok (m.links.next a) ∧ m.link (a + 1) = .ok (m.links.prev a) := by
  obtain ⟨hnext, hprev⟩ := h.typed a ha
  exact ⟨by rw [Cells.link, hnext], by rw [Cells.link, hprev]⟩

/-- The words of the nodes after the stores. -/
theorem Linked.stores (hroom : LinkRoom ealloca head) (h : Linked ealloca head m n) (p : Ptr)
    (ha : a ∈ head :: nodes ealloca (n + 1)) :
    let r := ealloca n
    let m' := __list_add (Function.update m r (.map p)) (r + 1) (m.links.prev head) head
    m' a = .link ((m.links.addTail (r + 1) head).next a) ∧
      m' (a + 1) = .link ((m.links.addTail (r + 1) head).prev a) := by
  intro r m'
  have hplace : r = ealloca n := rfl
  have hhead : head ∈ head :: nodes ealloca n := List.mem_cons_self
  have hlast := h.ring.prev_mem
  have hr := hroom.clear hhead
  have hrlast := hroom.clear hlast
  rw [nodes_succ, ← List.cons_append, List.mem_append, List.mem_singleton] at ha
  simp only [m', __list_add, Links.addTail, Links.insert, Function.update_apply]
  rcases ha with ha | rfl
  · obtain ⟨hnext, hprev⟩ := h.typed a ha
    have hra := hroom.clear ha
    have hahead := hroom.eq_or_apart ha hhead
    have halast := hroom.eq_or_apart ha hlast
    constructor
    · split_ifs <;> first | rfl | omega
    · split_ifs <;> first | rfl | omega
  · constructor
    · split_ifs <;> first | rfl | omega
    · split_ifs <;> first | rfl | omega

/-- A node comes to the end of the ring, with the map that it was given. -/
theorem Linked.add (hroom : LinkRoom ealloca head) (h : Linked ealloca head m n) (p : Ptr) :
    let m' := __list_add (Function.update m (ealloca n) (.map p)) (ealloca n + 1)
      (m.links.prev head) head
    list_add_tail (Function.update m (ealloca n) (.map p)) (ealloca n + 1) head = .ok m' ∧
      Linked ealloca head m' (n + 1) ∧ m' (ealloca n) = .map p := by
  intro m'
  have hhead : head ∈ head :: nodes ealloca n := List.mem_cons_self
  have hclear := hroom.clear hhead
  have hlast := hroom.clear h.ring.prev_mem
  have hstores := fun a => h.stores hroom p (a := a)
  refine ⟨?_, ?_, ?_⟩
  · have hlink : Cells.link (Function.update m (ealloca n) (.map p)) (head + 1) =
        .ok (m.links.prev head) := by
      rw [Cells.link, Function.update_of_ne (by omega), (h.typed head hhead).2]
    rw [list_add_tail, hlink]
    rfl
  · have hnew : ealloca n + 1 ∉ head :: nodes ealloca n := by
      intro hmem
      have hself := hroom.clear hmem
      omega
    have hring := h.ring.addTail hnew
    rw [← nodes_succ] at hring
    constructor
    · refine hring.keep fun a ha => ?_
      obtain ⟨hnext, hprev⟩ := hstores a ha
      exact ⟨congrArg Cell.target hnext, congrArg Cell.target hprev⟩
    · intro a ha
      obtain ⟨hnext, hprev⟩ := hstores a ha
      refine ⟨hnext.trans (congrArg Cell.link ?_), hprev.trans (congrArg Cell.link ?_)⟩
      · exact (congrArg Cell.target hnext).symm
      · exact (congrArg Cell.target hprev).symm
  · simp only [m', __list_add]
    rw [Function.update_of_ne (by omega), Function.update_of_ne (by omega),
      Function.update_of_ne (by omega), Function.update_of_ne (by omega), Function.update_self]

/-- The empty ring. -/
theorem list_head.spec (ealloca : Nat → Int) (head : Int) (m : Cells) :
    Linked ealloca head (list_head m head) 0 := by
  have hne : head ≠ head + 1 := by omega
  have hnext : list_head m head head = .link head := by
    rw [list_head, Function.update_of_ne hne, Function.update_self]
  have hprev : list_head m head (head + 1) = .link head := by
    rw [list_head, Function.update_self]
  constructor
  · exact ⟨List.nodup_singleton head, congrArg Cell.target hnext, congrArg Cell.target hprev⟩
  · intro a ha
    cases List.mem_singleton.mp ha
    exact ⟨hnext.trans (congrArg Cell.link (congrArg Cell.target hnext).symm),
      hprev.trans (congrArg Cell.link (congrArg Cell.target hprev).symm)⟩

theorem nodes_getElem? (ealloca : Nat → Int) (hk : k < n) :
    (nodes ealloca n)[k]? = some (ealloca k + 1) := by
  rw [nodes, List.getElem?_map, List.getElem?_range hk, Option.map_some]

/-- The first node of the objects that are still to come, or the head. -/
def posOf (ealloca : Nat → Int) (head : Int) (done todo : List Ptr) : Int :=
  if todo = [] then head else ealloca done.length + 1

/-- What comes behind the nodes of `done`. -/
theorem nodes_behind (ealloca : Nat → Int) (head : Int) (done todo : List Ptr) :
    (nodes ealloca (done ++ todo).length ++ [head])[done.length]? =
      some (posOf ealloca head done todo) := by
  have hlen : (nodes ealloca (done ++ todo).length).length = (done ++ todo).length := by
    rw [nodes, List.length_map, List.length_range]
  rw [posOf]
  by_cases hnil : todo = []
  · subst hnil
    rw [List.append_nil] at hlen ⊢
    rw [if_pos rfl, List.getElem?_append_right (le_of_eq hlen), hlen, Nat.sub_self]
    rfl
  · have hlt : done.length < (done ++ todo).length := by
      have := List.length_pos_of_ne_nil hnil
      rw [List.length_append]
      omega
    rw [if_neg hnil, List.getElem?_append_left (by rwa [hlen]), nodes_getElem? ealloca hlt]

/-- The loop starts at the first node. -/
theorem Linked.first_eq (h : Linked ealloca head m todo.length) :
    m.link head = .ok (posOf ealloca head [] todo) := by
  have hnext := congrArg (fun xs => xs[0]?) h.ring.chain.map_next
  have hbehind := nodes_behind ealloca head [] todo
  rw [(h.link_eq List.mem_cons_self).1]
  simp only [List.map_cons, List.getElem?_cons_zero] at hnext
  rw [List.nil_append, List.length_nil] at hbehind
  exact congrArg Except.ok (Option.some.inj (hnext.trans hbehind))

/-- The loop goes on with the next node. -/
theorem Linked.next_eq (h : Linked ealloca head m (done ++ p :: todo).length) :
    m.link (ealloca done.length + 1) = .ok (posOf ealloca head (done ++ [p]) todo) := by
  have hlt : done.length < (done ++ p :: todo).length := by
    rw [List.length_append, List.length_cons]
    omega
  have hnode := nodes_getElem? ealloca hlt
  have hnext := congrArg (fun xs => xs[done.length + 1]?) h.ring.chain.map_next
  have hbehind := nodes_behind ealloca head (done ++ [p]) todo
  have hdone : (done ++ [p]).length = done.length + 1 := List.length_append
  rw [hdone, List.append_assoc, List.singleton_append] at hbehind
  simp only [List.map_cons, List.getElem?_cons_succ, List.getElem?_map, hnode,
    Option.map_some] at hnext
  rw [(h.link_eq (List.mem_cons_of_mem _ (List.mem_of_getElem? hnode))).1]
  exact congrArg Except.ok (Option.some.inj (hnext.trans hbehind))

end

/-! ## The maps of the nodes -/

/-- The ring of the nodes with the maps `ps`. -/
structure Stacked (ealloca : Nat → Int) (head : Int) (m : Cells) (ps : List Ptr) : Prop where
  linked : Linked ealloca head m ps.length
  maps : ∀ k (hk : k < ps.length), m (ealloca k) = .map ps[k]

/-- The ring of the nodes, of which only the last one has its map. -/
structure Stripped (ealloca : Nat → Int) (head : Int) (m : Cells) (ps : List Ptr) : Prop where
  linked : Linked ealloca head m ps.length
  lost : ∀ k, k + 1 < ps.length → ∃ a, m (ealloca k) = .link a
  last : ∀ qs p, ps = qs ++ [p] → m (ealloca qs.length) = .map p

/-- What a new node leaves of `Shape`. -/
def Grows (ealloca : Nat → Int) (head : Int) (Shape : Cells → List Ptr → Prop) : Prop :=
  ∀ m ps p, Shape m ps →
    ∃ m', list_add_tail (Function.update m (ealloca ps.length) (.map p)) (ealloca ps.length + 1)
      head = .ok m' ∧ Shape m' (ps ++ [p])

section

variable {ealloca : Nat → Int} {head : Int}

/-- With room for each node the maps stay. -/
theorem Room.grows (hroom : Room ealloca head) : Grows ealloca head (Stacked ealloca head) := by
  intro m ps p h
  obtain ⟨hadd, hlinked, hnew⟩ := h.linked.add hroom.links p
  have hlen : (ps ++ [p]).length = ps.length + 1 := List.length_append
  refine ⟨_, hadd, hlen ▸ hlinked, ?_⟩
  intro k hk
  rw [hlen] at hk
  rcases Nat.lt_succ_iff_lt_or_eq.mp hk with hlt | rfl
  · obtain ⟨hlastk, _⟩ := hroom.map_clear h.linked.ring.prev_mem k
    have hhead : head ∈ head :: nodes ealloca ps.length := List.mem_cons_self
    obtain ⟨_, hheadk⟩ := hroom.map_clear hhead k
    have hmem : ealloca ps.length + 1 ∈ head :: nodes ealloca (ps.length + 1) := by
      rw [nodes_succ]
      exact List.mem_cons_of_mem _ (List.mem_append_right _ List.mem_cons_self)
    obtain ⟨hnext, hprev⟩ := hroom.map_clear hmem k
    have hne := hroom.apart k ps.length (Nat.ne_of_lt hlt)
    rw [__list_add, Function.update_of_ne hlastk, Function.update_of_ne hprev,
      Function.update_of_ne hnext, Function.update_of_ne hheadk, Function.update_of_ne (by omega),
      h.maps k hlt, List.getElem_append_left hlt]
  · rw [hnew, List.getElem_concat_length rfl]

/-- The last node, or the head. -/
theorem Linked.last_eq {m : Cells} {n : Nat} (h : Linked ealloca head m (n + 1)) :
    m.links.prev head = ealloca n + 1 := by
  have hchain := h.ring.chain
  rw [nodes_succ] at hchain
  exact (Links.chain_append.mp hchain).2.2

/-- Otherwise the link back to a node is stored where its map was. -/
theorem Packed.grows (hpacked : Packed ealloca head) :
    Grows ealloca head (Stripped ealloca head) := by
  intro m ps p h
  obtain ⟨hadd, hlinked, hnew⟩ := h.linked.add hpacked.links p
  have hlen : (ps ++ [p]).length = ps.length + 1 := List.length_append
  refine ⟨_, hadd, hlen ▸ hlinked, ?_, ?_⟩
  · intro k hk
    rw [hlen, Nat.add_lt_add_iff_right] at hk
    obtain ⟨n, hn⟩ : ∃ n, ps.length = n + 1 := ⟨ps.length - 1, by omega⟩
    have hlast := (hn ▸ h.linked).last_eq
    have hfirst := hpacked.first
    have hplace := hpacked.eq ps.length
    have hk' := hpacked.eq k
    have hn' := hpacked.eq n
    simp only [__list_add, Function.update_apply, hlast]
    rcases Nat.lt_or_ge (k + 1) ps.length with hbefore | hbehind
    · obtain ⟨a, ha⟩ := h.lost k hbefore
      refine ⟨a, ?_⟩
      split_ifs <;> omega
    · refine ⟨ealloca n + 1, ?_⟩
      split_ifs <;> first | omega | rfl
  · intro qs q hq
    obtain ⟨rfl, hlast⟩ := List.append_inj' hq rfl
    cases hlast
    exact hnew

theorem Stacked.map_eq {m : Cells} {done todo : List Ptr} {p : Ptr}
    (h : Stacked ealloca head m (done ++ p :: todo)) : m.map (ealloca done.length) = .ok p := by
  have hlt : done.length < (done ++ p :: todo).length := by
    rw [List.length_append, List.length_cons]
    omega
  rw [Cells.map, h.maps done.length hlt, List.getElem_append_right (Nat.le_refl _)]
  simp only [Nat.sub_self, List.getElem_cons_zero]

/-- A map is read if it is the last one. -/
theorem Stripped.map_eq {m : Cells} {done todo : List Ptr} {p : Ptr}
    (h : Stripped ealloca head m (done ++ p :: todo)) :
    m.map (ealloca done.length) = if todo = [] then .ok p else .error .wild := by
  split_ifs with htodo
  · subst htodo
    rw [Cells.map, h.last done p rfl]
  · have hlt : done.length + 1 < (done ++ p :: todo).length := by
      have := List.length_pos_of_ne_nil htodo
      rw [List.length_append, List.length_cons]
      omega
    obtain ⟨a, ha⟩ := h.lost done.length hlt
    rw [Cells.map, ha]

end

/-! ## The loop over the ring -/

/-- The objects of the state are in the ring behind those that the loop is done with. -/
structure Holds (ealloca : Nat → Int) (Shape : Cells → List Ptr → Prop) (done : List Ptr)
    (c : RingState) (st : Deps) : Prop where
  same : c.st = { st with todo := [] }
  count : c.count = (done ++ st.todo).length
  nlist : c.count = st.nlist + 1
  shape : Shape c.cells (done ++ st.todo)

section

variable {host : Host} {ealloca : Nat → Int} {head : Int} {c : RingState} {st st' : Deps}
  {l : LinkMap} {dyn : Dyn} {dyns : List Dyn} {ps done todo runlist : List Ptr} {p : Ptr}
  {m : Cells} {Shape : Cells → List Ptr → Prop} {Lossy : Prop}

theorem needed_entry_todo (host : Host) (l : LinkMap) (st : Deps) (dyn : Dyn) :
    needed_entry host l st dyn = (needed_entry host l { st with todo := [] } dyn).map
      fun st' => { st' with todo := st.todo ++ st'.todo } := by
  unfold needed_entry
  cases D_PTR .map_object_deps l DT_STRTAB with
  | error e => rfl
  | ok strtab =>
    simp only [bind, Except.bind]
    split_ifs
    · simp only [Except.map, List.append_nil]
    · unfold take_needed
      cases map_object host (strAt l.image.strtab dyn.d_un.toNat) st.w with
      | error e => rfl
      | ok r =>
        simp only [bind, Except.bind, take_object]
        cases r.2.deref r.1 with
        | error e => rfl
        | ok new =>
          simp only [chain_runlist]
          split_ifs
          · cases append_to_namespace (r.2.put r.1 { new with l_reserved := 1 }) r.1 <;> rfl
          · cases append_to_namespace r.2 r.1 with
            | error e => rfl
            | ok w => simp only [Except.map, List.append_nil]

/-- Each object that an entry brings is counted. -/
theorem needed_entry_nlist (htodo : st.todo = []) (h : needed_entry host l st dyn = .ok st') :
    st'.nlist = st.nlist + st'.todo.length := by
  rw [needed_entry, bind_eq_ok] at h
  obtain ⟨_, _, h⟩ := h
  split_ifs at h
  · cases h
    rw [htodo]
    rfl
  · rw [take_needed, bind_eq_ok] at h
    obtain ⟨⟨new, w⟩, _, h⟩ := h
    simp only [take_object, bind_eq_ok] at h
    obtain ⟨l_new, _, w', _, h⟩ := h
    cases h
    rw [chain_runlist]
    split_ifs
    · rw [htodo]
      rfl
    · rw [htodo]
      rfl

theorem chain_nodes.spec (hgrows : Grows ealloca head Shape) (hcount : c.count = ps.length)
    (h : Shape c.cells ps) (qs : List Ptr) :
    ∃ cells, qs.foldlM (chain_node ealloca head) c =
        .ok { c with cells, count := (ps ++ qs).length } ∧ Shape cells (ps ++ qs) := by
  induction qs generalizing c ps with
  | nil =>
    refine ⟨c.cells, ?_, ?_⟩
    · rw [List.append_nil, ← hcount]
      rfl
    · rwa [List.append_nil]
  | cons p qs ih =>
    obtain ⟨cells, hadd, hshape⟩ := hgrows c.cells ps p h
    have hchain : chain_node ealloca head c p = .ok { c with cells, count := c.count + 1 } := by
      rw [chain_node, hcount, hadd]
      rfl
    have hnext : c.count + 1 = (ps ++ [p]).length := by
      rw [List.length_append, hcount]
      rfl
    obtain ⟨cells', hrest, hall⟩ := ih (c := { c with cells, count := c.count + 1 }) hnext hshape
    rw [List.append_assoc] at hrest hall
    refine ⟨cells', ?_, hall⟩
    rw [List.foldlM_cons, hchain]
    exact hrest

theorem ring_entry.alike (hgrows : Grows ealloca head Shape)
    (h : Holds ealloca Shape done c st) :
    Alike .stop (Holds ealloca Shape done) (ring_entry host ealloca head l c dyn)
      (needed_entry host l st dyn) := by
  rw [ring_entry, needed_entry_todo host l st dyn, h.same]
  cases hentry : needed_entry host l { st with todo := [] } dyn with
  | error e => rfl
  | ok st' =>
    have hnlist := needed_entry_nlist rfl hentry
    obtain ⟨cells, hchain, hshape⟩ :=
      chain_nodes.spec (c := { c with st := { st' with todo := [] } }) hgrows h.count h.shape
        st'.todo
    show Alike Trap.stop _ (st'.todo.foldlM (chain_node ealloca head) _) _
    rw [hchain]
    rw [List.append_assoc] at hshape
    have hcount := h.count
    have hbefore := h.nlist
    refine ⟨rfl, congrArg List.length (List.append_assoc _ _ _), ?_, hshape⟩
    show (done ++ st.todo ++ st'.todo).length = st'.nlist + 1
    rw [List.length_append, ← hcount, hnlist, hbefore]
    exact Nat.add_right_comm _ _ _

theorem ring_entries.alike (hgrows : Grows ealloca head Shape)
    (h : Holds ealloca Shape done c st) :
    Alike .stop (Holds ealloca Shape done) (ring_entries host ealloca head l c dyns)
      (needed_loop host l st dyns) := by
  induction dyns generalizing c st with
  | nil => exact h
  | cons dyn dyns ih => exact (ring_entry.alike hgrows h).bind fun _ _ => ih

/-- The node of an object that is still to come is not the head. -/
theorem LinkRoom.posOf_ne (hroom : LinkRoom ealloca head) :
    posOf ealloca head done (p :: todo) ≠ head := by
  have hclear := hroom.head done.length
  rw [posOf, if_neg (List.cons_ne_nil p todo)]
  omega

/-- Behind the node of `p` comes that of the next object. -/
theorem Linked.behind_posOf (h : Linked ealloca head m (done ++ p :: todo).length)
    (rest : List Ptr) :
    m.link (posOf ealloca head done (p :: rest)) =
      .ok (posOf ealloca head (done ++ [p]) todo) := by
  rw [posOf, if_neg (List.cons_ne_nil p rest), h.next_eq]

/-- What a list of nodes has to be for the loop to go along it. A map may be lost if another
node comes behind it. -/
structure Readable (ealloca : Nat → Int) (head : Int) (Shape : Cells → List Ptr → Prop)
    (Lossy : Prop) : Prop where
  room : LinkRoom ealloca head
  grows : Grows ealloca head Shape
  linked : ∀ m ps, Shape m ps → Linked ealloca head m ps.length
  read : ∀ m done p todo, Shape m (done ++ p :: todo) →
    m.map (ealloca done.length) = .ok p ∨
      Lossy ∧ todo ≠ [] ∧ m.map (ealloca done.length) = .error .wild

theorem Room.readable (hroom : Room ealloca head) :
    Readable ealloca head (Stacked ealloca head) False where
  room := hroom.links
  grows := hroom.grows
  linked _ _ h := h.linked
  read _ _ _ _ h := .inl h.map_eq

theorem Packed.readable (hpacked : Packed ealloca head) :
    Readable ealloca head (Stripped ealloca head) True where
  room := hpacked.links
  grows := hpacked.grows
  linked _ _ h := h.linked
  read m done p todo h := by
    by_cases htodo : todo = []
    · exact .inl (by rw [h.map_eq, if_pos htodo])
    · exact .inr ⟨trivial, htodo, by rw [h.map_eq, if_neg htodo]⟩

theorem needed_loop_todo (h : needed_loop host l st dyns = .ok st') : st.todo <+: st'.todo := by
  induction dyns generalizing st with
  | nil =>
    cases h
    exact List.prefix_rfl
  | cons dyn dyns ih =>
    rw [needed_loop, bind_eq_ok] at h
    obtain ⟨st1, hentry, h⟩ := h
    rw [needed_entry_todo] at hentry
    cases hrun : needed_entry host l { st with todo := [] } dyn with
    | error e =>
      rw [hrun] at hentry
      cases hentry
    | ok st2 =>
      rw [hrun] at hentry
      cases hentry
      exact (List.prefix_append _ _).trans (ih h)

/-- All objects of the run list are done with at the end, in order. -/
theorem deps_loop_in_order {fuel : Nat} (h : deps_loop host fuel done st = .ok (runlist, st')) :
    done ++ st.todo <+: runlist := by
  induction fuel generalizing done st with
  | zero =>
    obtain ⟨w, _ | ⟨p, todo⟩, nlist⟩ := st
    · cases h
      simp
    · cases h
  | succ fuel ih =>
    obtain ⟨w, _ | ⟨p, todo⟩, nlist⟩ := st
    · cases h
      simp
    · simp only [deps_loop, bind_eq_ok] at h
      obtain ⟨l, _, st1, hloop, h⟩ := h
      have hrest := ih h
      rw [List.append_assoc, List.singleton_append] at hrest
      have hmore : p :: todo <+: p :: st1.todo :=
        List.cons_prefix_cons.mpr ⟨rfl, needed_loop_todo hloop⟩
      exact ((List.prefix_append_right_inj done).mpr hmore).trans hrest

variable (host) in
/-- The loop along the ring and the loop over the list take the same turns, and the ring is
that of the list after each of them, unless a map is read that is lost. -/
theorem ring_loop.alike (hread : Readable ealloca head Shape Lossy) (fuel : Nat)
    (h : Holds ealloca Shape done c st) :
    Alike .stop (fun c r => Holds ealloca Shape r.1 c r.2 ∧ r.2.todo = [])
        (ring_loop host ealloca head fuel (posOf ealloca head done st.todo) c)
        (deps_loop host fuel done st) ∨
      Lossy ∧ ring_loop host ealloca head fuel (posOf ealloca head done st.todo) c =
          .error .wild ∧
        ∀ runlist st', deps_loop host fuel done st = .ok (runlist, st') → 1 < runlist.length := by
  induction fuel generalizing done c st with
  | zero =>
    obtain ⟨w, _ | ⟨p, todo⟩, nlist⟩ := st
    · left
      rw [ring_loop, posOf, if_pos rfl, if_pos rfl]
      exact ⟨h, rfl⟩
    · left
      rw [ring_loop, if_neg hread.room.posOf_ne]
      rfl
  | succ fuel ih =>
    obtain ⟨w, _ | ⟨p, todo⟩, nlist⟩ := st
    · left
      rw [ring_loop, posOf, if_pos rfl, if_pos rfl]
      exact ⟨h, rfl⟩
    · have hshape : Shape c.cells (done ++ p :: todo) := h.shape
      have hpos : posOf ealloca head done (p :: todo) - 1 = ealloca done.length := by
        rw [posOf, if_neg (List.cons_ne_nil p todo), Int.add_sub_cancel]
      rw [ring_loop, if_neg hread.room.posOf_ne, hpos]
      rcases hread.read c.cells done p todo hshape with hmap | ⟨hlossy, htodo, hmap⟩
      · have hbegun : Holds ealloca Shape (done ++ [p]) c { w, todo, nlist } := {
          same := h.same
          count := by rw [h.count, List.append_assoc]; rfl
          nlist := h.nlist
          shape := by rw [List.append_assoc]; exact hshape }
        have hturns (l : LinkMap) : Alike Trap.stop (Holds ealloca Shape (done ++ [p]))
            (ring_entries host ealloca head l c l.image.dynamic)
            (needed_loop host l { w, todo, nlist } l.image.dynamic) :=
          ring_entries.alike hread.grows hbegun
        have hw : c.st.w = w := congrArg Deps.w h.same
        rw [hmap]
        simp only [deps_loop, bind, Except.bind, hw]
        cases w.deref p with
        | error e => exact .inl rfl
        | ok l =>
          have hturn := hturns l
          simp only [check, Except.mapError]
          revert hturn
          cases needed_loop host l { w, todo, nlist } l.image.dynamic with
          | error e =>
            cases ring_entries host ealloca head l c l.image.dynamic with
            | error e' => exact fun hturn => .inl hturn
            | ok c1 => exact fun hturn => hturn.elim
          | ok st1 =>
            cases ring_entries host ealloca head l c l.image.dynamic with
            | error e => exact fun hturn => hturn.elim
            | ok c1 =>
              intro hturn
              have hbehind := hread.linked _ _ hturn.shape
              rw [List.append_assoc, List.singleton_append] at hbehind
              simp only [hbehind.behind_posOf todo]
              exact ih hturn
      · right
        refine ⟨hlossy, by rw [hmap]; rfl, ?_⟩
        intro runlist st' hrun
        have hlen := (deps_loop_in_order hrun).length_le
        have hmore := List.length_pos_of_ne_nil htodo
        simp only [List.length_append, List.length_cons] at hlen
        omega

/-! ## After the loop -/

theorem ring_fill.alike (hroom : Room ealloca head) (root : Ptr) (i : Nat)
    (r_list : List (Option Ptr)) {fuel : Nat} (hfuel : todo.length ≤ fuel)
    (h : Stacked ealloca head m (done ++ todo)) :
    Alike .stop Eq (ring_fill head m root fuel (posOf ealloca head done todo) i r_list)
      (fill_searchlist root i r_list todo) := by
  induction todo generalizing done fuel i r_list with
  | nil =>
    have hend : ring_fill head m root fuel head i r_list = .ok r_list := by
      unfold ring_fill
      rw [if_pos rfl]
    rw [posOf, if_pos rfl, hend]
    rfl
  | cons p todo ih =>
    obtain ⟨fuel, rfl⟩ : ∃ n, fuel = n + 1 := ⟨fuel - 1, by simp at hfuel; omega⟩
    have hrest : todo.length ≤ fuel := Nat.le_of_succ_le_succ hfuel
    have hstacked := h
    rw [← List.singleton_append, ← List.append_assoc] at hstacked
    have hpos : posOf ealloca head done (p :: todo) - 1 = ealloca done.length := by
      rw [posOf, if_neg (List.cons_ne_nil p todo), Int.add_sub_cancel]
    rw [ring_fill, if_neg hroom.links.posOf_ne, hpos, h.map_eq, fill_searchlist]
    simp only [h.linked.behind_posOf todo, bind, Except.bind]
    split_ifs
    · exact ih i r_list hrest hstacked
    · exact ih (i + 1) _ hrest hstacked
    · rfl

theorem ring_searchlist.alike (hroom : Room ealloca head) (root : Ptr)
    (h : Holds ealloca (Stacked ealloca head) done c st) (htodo : st.todo = []) :
    Alike .stop Eq (ring_searchlist head root c) (set_searchlist root done st.nlist st.w) := by
  have hstacked := h.shape
  have hcount := h.count
  rw [htodo, List.append_nil] at hstacked hcount
  rw [ring_searchlist, set_searchlist, h.same]
  split_ifs
  · rw [hstacked.linked.first_eq]
    refine (ring_fill.alike hroom root 0 _ (le_of_eq hcount.symm) hstacked).bind ?_
    rintro r_list _ rfl
    refine (alike_mapError (st.w.deref root)).bind ?_
    rintro l _ rfl
    rfl
  · rfl

/-- The start of the loop: a ring with one node. -/
theorem chain_root (hgrows : Grows ealloca head Shape) (cells : Cells) (w : Rtld) (root : Ptr)
    (h : Shape (list_head cells head) []) :
    ∃ m, chain_node ealloca head {
        st := { w, todo := [], nlist := 0 }, cells := list_head cells head, count := 0 } root =
          .ok { st := { w, todo := [], nlist := 0 }, cells := m, count := 1 } ∧
      Holds ealloca Shape [] { st := { w, todo := [], nlist := 0 }, cells := m, count := 1 }
        { w, todo := [root], nlist := 0 } := by
  obtain ⟨m, hchain, hshape⟩ := chain_nodes.spec (c := {
    st := { w, todo := [], nlist := 0 }, cells := list_head cells head, count := 0 })
    hgrows rfl h [root]
  simp only [List.foldlM_cons, List.foldlM_nil, bind_pure] at hchain
  exact ⟨m, hchain, rfl, rfl, rfl, hshape⟩

/-- With three words for each node, the run list in memory is the list. -/
theorem run_list_in_memory (hroom : Room ealloca head) (host : Host) (cells : Cells)
    (fuel : Nat) (w : Rtld) (root : Ptr) :
    map_object_deps_ring host ealloca head cells fuel w root =
      check (map_object_deps host fuel w root) := by
  refine Alike.eq ?_
  rw [map_object_deps_ring, map_object_deps]
  refine (alike_mapError (parse_map host w root)).bind ?_
  rintro w _ rfl
  obtain ⟨m, hchain, hstart⟩ := chain_root hroom.grows cells w root
    ⟨list_head.spec ealloca head cells, fun k hk => absurd hk (Nat.not_lt_zero k)⟩
  rw [hchain]
  show Alike Trap.stop Eq (m.link head >>= _) _
  rw [(hstart.shape.linked : Linked ealloca head m [root].length).first_eq]
  have hloop := (ring_loop.alike host hroom.readable fuel hstart).resolve_right
    fun hlossy => hlossy.1
  refine hloop.bind ?_
  rintro c ⟨runlist, st⟩ ⟨hholds, htodo⟩
  refine (ring_searchlist.alike hroom root hholds htodo).bind ?_
  rintro w _ rfl
  refine (alike_mapError (print_namespace w)).bind ?_
  rintro u _ rfl
  rfl

/-- Each block of the stack has four words. -/
theorem run_list_of_a_program_with_a_cycle : ∃ w,
    map_object_deps abHost 4 abWorld 0 = .ok w ∧
      map_object_deps_ring abHost (fun k => -4 * k - 8) 0 (fun _ => .link 0) 4 abWorld 0 =
        .ok w := by
  have hok : (map_object_deps abHost 4 abWorld 0).isOk = true := by decide +kernel
  have hroom : Room (fun k => -4 * k - 8) 0 := ⟨fun k => by omega, fun j k hne => by omega⟩
  cases hrun : map_object_deps abHost 4 abWorld 0 with
  | error e =>
    rw [hrun] at hok
    cases hok
  | ok w =>
    refine ⟨w, rfl, ?_⟩
    rw [run_list_in_memory hroom abHost (fun _ => .link 0) 4 abWorld 0, hrun]
    rfl

/-- The search list is not filled if the map of the root is lost. -/
theorem ring_searchlist.wild (hpacked : Packed ealloca head) (root : Ptr)
    (h : Holds ealloca (Stripped ealloca head) done c st) (htodo : st.todo = [])
    (hlen : 1 < done.length) : ring_searchlist head root c = .error .wild := by
  have hstripped := h.shape
  have hcount := h.count
  have hnlist := h.nlist
  rw [htodo, List.append_nil] at hstripped hcount
  obtain ⟨p, todo, rfl⟩ : ∃ p todo, done = p :: todo :=
    List.exists_cons_of_length_pos (Nat.zero_lt_of_lt hlen)
  have hne : todo ≠ [] := by
    rintro rfl
    exact Nat.lt_irrefl 1 hlen
  have hpos : 0 < c.st.nlist := by
    rw [h.same]
    show 0 < st.nlist
    omega
  obtain ⟨n, hn⟩ : ∃ n, c.count = n + 1 := ⟨st.nlist, hnlist⟩
  have hmap := @Stripped.map_eq ealloca head c.cells [] todo p hstripped
  have hroot : posOf ealloca head [] (p :: todo) - 1 = ealloca 0 := by
    rw [posOf, if_neg (List.cons_ne_nil p todo), List.length_nil, Int.add_sub_cancel]
  rw [List.length_nil, if_neg hne] at hmap
  have hfill : ring_fill head c.cells root (n + 1) (posOf ealloca head [] (p :: todo)) 0
      (List.replicate c.st.nlist none) = .error .wild := by
    rw [ring_fill, if_neg hpacked.links.posOf_ne, hroot, hmap]
    rfl
  rw [ring_searchlist, if_pos hpos, hstripped.linked.first_eq, hn]
  simp only [bind, Except.bind, hfill]

/-- Without another object there is nothing to fill. -/
theorem ring_searchlist.alone (head : Int) (root : Ptr) (h : Holds ealloca Shape done c st)
    (htodo : st.todo = []) (hlen : done.length = 1) :
    ring_searchlist head root c = .ok st.w ∧
      set_searchlist root done st.nlist st.w = .ok st.w := by
  have hcount := h.count
  have hnlist := h.nlist
  rw [htodo, List.append_nil, hlen] at hcount
  have hzero : st.nlist = 0 := by omega
  constructor
  · rw [ring_searchlist, h.same, hzero]
    rfl
  · rw [set_searchlist, hzero]
    rfl

/-- The run list at the end of the loop. -/
def run_list (host : Host) (fuel : Nat) (w : Rtld) (root : Ptr) : Except Stop (List Ptr) := do
  let w ← parse_map host w root
  let (runlist, _) ← deps_loop host fuel [] { w, todo := [root], nlist := 0 }
  .ok runlist

/-- With the two words that are asked for, only the root can be on the run list: with any
other object the loop, or the one that fills the search list, reads a link as a map. -/
theorem packed_run_list (hpacked : Packed ealloca head) (host : Host) (cells : Cells)
    {fuel : Nat} {w : Rtld} {root : Ptr} (h : run_list host fuel w root = .ok runlist) :
    map_object_deps_ring host ealloca head cells fuel w root =
      if runlist = [root] then check (map_object_deps host fuel w root) else .error .wild := by
  simp only [run_list, bind_eq_ok] at h
  obtain ⟨w1, hparse, ⟨order, st⟩, hdeps, h⟩ := h
  obtain rfl : order = runlist := Except.ok.inj h
  obtain ⟨m, hchain, hstart⟩ := chain_root hpacked.grows cells w1 root ⟨
    list_head.spec ealloca head cells, fun k hk => absurd hk (Nat.not_lt_zero _),
    fun qs p hqs => by simp at hqs⟩
  have hfirst : m.link head = .ok (posOf ealloca head [] [root]) := hstart.shape.linked.first_eq
  have hloop := ring_loop.alike host hpacked.readable fuel hstart
  rw [hdeps] at hloop
  dsimp only at hloop
  simp only [map_object_deps_ring, map_object_deps, hparse, hdeps, hchain, check, Except.mapError,
    bind, Except.bind, hfirst]
  rcases hloop with halike | ⟨_, hwild, hlen⟩
  · revert halike
    cases ring_loop host ealloca head fuel (posOf ealloca head [] [root]) _ with
    | error e => exact fun halike => halike.elim
    | ok c =>
      rintro ⟨hholds, htodo⟩
      by_cases horder : order = [root]
      · obtain ⟨hring, hlist⟩ := ring_searchlist.alone head root hholds htodo
          (congrArg List.length horder)
        simp only [if_pos horder, hring, hlist]
        cases print_namespace st.w <;> rfl
      · have hroot : [root] <+: order := deps_loop_in_order hdeps
        have hlen : 1 < order.length := by
          rcases Nat.lt_or_eq_of_le hroot.length_le with hlt | heq
          · exact hlt
          · exact absurd (hroot.eq_of_length heq).symm horder
        simp only [if_neg horder, ring_searchlist.wild hpacked root hholds htodo hlen]
  · have hne : order ≠ [root] := by
      rintro rfl
      exact Nat.lt_irrefl 1 (hlen _ _ rfl)
    simp only [if_neg hne, hwild]

theorem packed_run_list_of_a_program_with_a_cycle :
    run_list abHost 4 abWorld 0 = .ok [0, 1, 2] ∧
      map_object_deps_ring abHost (fun k => -2 * k - 3) 0 (fun _ => .link 0) 4 abWorld 0 =
        .error .wild := by
  have hpacked : Packed (fun k => -2 * k - 3) 0 := ⟨by omega, fun k => by omega⟩
  have hlist : run_list abHost 4 abWorld 0 = .ok [0, 1, 2] := by decide +kernel
  refine ⟨hlist, ?_⟩
  rw [packed_run_list hpacked abHost (fun _ => .link 0) hlist, if_neg (by decide)]

end

end elf_loader.load
