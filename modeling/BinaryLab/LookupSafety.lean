-- Is `lookup_symbol` safe on every namespace that the loader builds? The loop
-- reads DT_SYMTAB of every object, and divides by the number of buckets of
-- every object that it does not skip. `parse_dynamic` asks for neither of them.
import BinaryLab.Dynamic
import BinaryLab.Lookup

open binary_lab.runs binary_lab.words

namespace elf_loader.lookup

open load

/-! ## Objects that the loader admits -/

/-- The hash table of a map that `init_link_map` has made. -/
def NoHash (l : LinkMap) : Prop := l.l_nbuckets = 0 ∧ l.l_buckets = none ∧ l.l_chain = none

/-- `l'` differs from `l` in no field that a lookup reads. -/
def SameTables (l l' : LinkMap) : Prop :=
  l'.image = l.image ∧ l'.l_addr = l.l_addr ∧ l'.l_info = l.l_info ∧
    l'.l_nbuckets = l.l_nbuckets ∧ l'.l_buckets = l.l_buckets ∧ l'.l_chain = l.l_chain

/-- The object has returned from `parse_dynamic`, once or more times. Its
links, its name and its marks may have changed since then. -/
inductive Admitted : LinkMap → Prop
  | parsed {l l' : LinkMap} {reads : Reads} {rpath rpath' : List CString} (hl : NoHash l)
      (h : parse_dynamic reads rpath l = .ok (l', rpath')) : Admitted l'
  | again {l l' : LinkMap} {reads : Reads} {rpath rpath' : List CString} (hl : Admitted l)
      (h : parse_dynamic reads rpath l = .ok (l', rpath')) : Admitted l'
  | changed {l l' : LinkMap} (hl : Admitted l) (h : SameTables l l') : Admitted l'

/-- What the parser promises to a lookup. -/
structure Promised (l : LinkMap) : Prop where
  strtab : (l.l_info DT_STRTAB).isSome
  hash : (l.l_info DT_HASH).isSome → l.l_buckets.isSome ∧ l.l_chain.isSome
  no_hash : l.l_info DT_HASH = none → NoHash l

theorem setup_hash_none {l l' : LinkMap} (h : setup_hash l = .ok l')
    (hnone : l.l_info DT_HASH = none) : l' = l := by
  rw [setup_hash, hnone] at h
  cases h
  rfl

/-- Without DT_HASH the parser leaves the hash table of the map alone. -/
theorem parse_dynamic_no_hash {reads : Reads} {rpath rpath' : List CString} {l l' : LinkMap}
    (h : parse_dynamic reads rpath l = .ok (l', rpath')) (hnone : l'.l_info DT_HASH = none) :
    l.l_info DT_HASH = none ∧ (NoHash l → NoHash l') := by
  have hframe := (parse_dynamic.spec h).frame
  have hindexed : indexed l.l_info l.image.dynamic DT_HASH = none := by
    rw [hframe] at hnone
    exact hnone
  simp only [parse_dynamic, bind_eq_ok] at h
  obtain ⟨_, _, map1, h1, strtab, _, rpath1, _, map2, h4, ⟨⟩, _, h6⟩ := h
  cases h6
  rw [index_dynamic_ok h1] at h4
  rw [setup_hash_none h4 hindexed]
  refine ⟨?_, id⟩
  rw [indexed, if_pos (by decide), Option.or_eq_none_iff] at hindexed
  exact hindexed.2

theorem Promised.of_parsed {reads : Reads} {rpath rpath' : List CString} {l l' : LinkMap}
    (h : parse_dynamic reads rpath l = .ok (l', rpath'))
    (hl : l.l_info DT_HASH = none → NoHash l) : Promised l' := by
  have hparsed := parse_dynamic.spec h
  refine ⟨hparsed.strtab, ?_, ?_⟩
  · intro hhash
    obtain ⟨_, _, _, _, _, hbuckets, hchain⟩ := hparsed.hash hhash
    rw [hbuckets, hchain]
    exact ⟨rfl, rfl⟩
  · intro hnone
    obtain ⟨hbefore, hkeep⟩ := parse_dynamic_no_hash h hnone
    exact hkeep (hl hbefore)

theorem Admitted.promised {l : LinkMap} (h : Admitted l) : Promised l := by
  induction h with
  | parsed hl h => exact .of_parsed h fun _ => hl
  | again _ h ih => exact .of_parsed h ih.no_hash
  | changed _ h ih =>
    obtain ⟨_, _, hinfo, hn, hb, hc⟩ := h
    refine ⟨hinfo ▸ ih.strtab, ?_, ?_⟩
    · rw [hinfo, hb, hc]
      exact ih.hash
    · rw [hinfo, NoHash, hn, hb, hc]
      exact ih.no_hash

/-! ## One object -/

/-- `symtab == NULL || strtab == NULL`. -/
def NullTable (l : LinkMap) : Prop :=
  ∃ d, (l.l_info DT_SYMTAB = some d ∨ l.l_info DT_STRTAB = some d) ∧ d.d_un + l.l_addr = 0

/-- The object has a hash table with a bucket. -/
def HasBuckets (l : LinkMap) : Prop := (l.l_info DT_HASH).isSome ∧ l.l_nbuckets ≠ 0

instance (l : LinkMap) : Decidable (HasBuckets l) := inferInstanceAs (Decidable (_ ∧ _))

/-- The loop can handle the object at `p`. -/
def Ready (skip : Option Ptr) (p : Ptr) (l : LinkMap) : Prop :=
  (l.l_info DT_SYMTAB).isSome ∧ (some p = skip ∨ NullTable l ∨ HasBuckets l)

/-- The chain of the name in the hash table comes to its end without a match. -/
def ChainHasNo (l : LinkMap) (name : CString) : Prop :=
  ∃ first is, hashWord l l.l_buckets (elf_hash name % l.l_nbuckets).toNat = .ok first ∧
    ChainIs l first is ∧
    ∀ i ∈ is, ∀ sym, l.image.symtab[i]? = some sym → ¬ Matches l.image.strtab name sym

/-- The loop can handle the object at `p`, and goes on to the next one. -/
def PassedBy (skip : Option Ptr) (name : CString) (p : Ptr) (l : LinkMap) : Prop :=
  Ready skip p l ∧ (some p = skip ∨ NullTable l ∨ ChainHasNo l name)

/-- An access through NULL, or a division by zero. -/
def NullFault : Stop → Prop
  | .fault (.nullInfo _ _) => True
  | .fault .nullPointer => True
  | .fault .divideByZero => True
  | _ => False

theorem hashWord_no_null {l : LinkMap} {arr : Option Nat} {i : Nat} {e : Stop}
    (harr : arr.isSome) (h : hashWord l arr i = .error e) : ¬ NullFault e := by
  obtain ⟨start, rfl⟩ := Option.isSome_iff_exists.mp harr
  simp only [hashWord] at h
  split at h
  · cases h
  · cases h
    exact id

theorem symAt_no_null {l : LinkMap} {i : Nat} {e : Stop} (h : symAt l i = .error e) :
    ¬ NullFault e := by
  unfold symAt at h
  split at h
  · cases h
  · cases h
    exact id

theorem lookup_chain_no_null {l : LinkMap} {name : CString} {fuel : Nat} {symidx : BitVec 32}
    {e : Stop} (hchain : l.l_chain.isSome) (h : lookup_chain l name fuel symidx = .error e) :
    ¬ NullFault e := by
  induction fuel generalizing symidx with
  | zero =>
    rw [lookup_chain] at h
    split_ifs at h
    cases h
    exact id
  | succ fuel ih =>
    rw [lookup_chain] at h
    split_ifs at h
    rcases bind_eq_error.mp h with h | ⟨sym, _, h⟩
    · exact symAt_no_null h
    · split at h
      · cases h
      · rcases bind_eq_error.mp h with h | ⟨next, _, h⟩
        · exact hashWord_no_null hchain h
        · exact ih h

/-- A walk that finds nothing has seen a whole chain. -/
theorem lookup_chain_none {l : LinkMap} {name : CString} {fuel : Nat} {symidx : BitVec 32}
    (h : lookup_chain l name fuel symidx = .ok none) :
    ∃ is, ChainIs l symidx is ∧
      ∀ i ∈ is, ∀ sym, l.image.symtab[i]? = some sym → ¬ Matches l.image.strtab name sym := by
  induction fuel generalizing symidx with
  | zero =>
    rw [lookup_chain] at h
    split_ifs at h with hundef
    exact ⟨[], hundef, by simp⟩
  | succ fuel ih =>
    rw [lookup_chain] at h
    split_ifs at h with hundef
    · exact ⟨[], hundef, by simp⟩
    · simp only [bind_eq_ok, symAt_eq_ok, check_match.spec] at h
      obtain ⟨sym, hsym, h⟩ := h
      by_cases hm : Matches l.image.strtab name sym
      · rw [if_pos hm] at h
        cases h
      · rw [if_neg hm, bind_eq_ok] at h
        obtain ⟨next, hnext, h⟩ := h
        obtain ⟨is, hchain, hnone⟩ := ih h
        refine ⟨symidx.toNat :: is, ⟨hundef, rfl, ?_, next, hnext, hchain⟩, ?_⟩
        · exact (List.getElem?_eq_some_iff.mp hsym).1
        · intro i hi sym' hsym'
          rcases List.mem_cons.mp hi with rfl | hi
          · rw [hsym] at hsym'
            cases hsym'
            exact hm
          · exact hnone i hi sym' hsym'

section

variable {skip : Option Ptr} {name : CString} {p : Ptr} {l : LinkMap}

theorem nullTable_iff {d1 d2 : Dyn} (hd1 : l.l_info DT_SYMTAB = some d1)
    (hd2 : l.l_info DT_STRTAB = some d2) :
    NullTable l ↔ d1.d_un + l.l_addr = 0 ∨ d2.d_un + l.l_addr = 0 := by
  unfold NullTable
  rw [hd1, hd2]
  constructor
  · rintro ⟨d, h | h, hd⟩
    · cases h
      exact Or.inl hd
    · cases h
      exact Or.inr hd
  · rintro (h | h)
    · exact ⟨d1, Or.inl rfl, h⟩
    · exact ⟨d2, Or.inr rfl, h⟩

/-- A chain without a match that ends gives nothing. -/
theorem lookup_chain_of_unmatched {first : BitVec 32} (h : ChainHasNo l name)
    (hfirst : hashWord l l.l_buckets (elf_hash name % l.l_nbuckets).toNat = .ok first) :
    lookup_chain l name l.image.hash.length first = .ok none := by
  obtain ⟨first', is, hfirst', hchain, hnone⟩ := h
  rw [hfirst] at hfirst'
  cases hfirst'
  obtain ⟨r, hr, hsome, _⟩ := lookup_chain.spec l name _ first is hchain hchain.length_le
  cases r with
  | none => exact hr
  | some sym =>
    obtain ⟨i, hi, hsym, hm⟩ := hsome sym rfl
    exact absurd hm (hnone i hi sym hsym)

/-- The loop body on an object that it can handle. -/
theorem lookup_object_ready (name : CString) (hl : Promised l) (hready : Ready skip p l) :
    (PassedBy skip name p l ∧ lookup_object skip name (elf_hash name) p l = .ok none) ∨
    (¬ PassedBy skip name p l ∧ HasBuckets l ∧
      ((∃ sym, lookup_object skip name (elf_hash name) p l = .ok (some sym)) ∨
        ∃ e, lookup_object skip name (elf_hash name) p l = .error e ∧ ¬ NullFault e)) := by
  obtain ⟨d1, hd1⟩ := Option.isSome_iff_exists.mp hready.1
  obtain ⟨d2, hd2⟩ := Option.isSome_iff_exists.mp hl.strtab
  have hnull := nullTable_iff hd1 hd2
  unfold lookup_object
  rw [D_PTR_eq_ok.mpr ⟨d1, hd1, rfl⟩, D_PTR_eq_ok.mpr ⟨d2, hd2, rfl⟩]
  simp only [bind, Except.bind]
  by_cases hskip : some p = skip
  · rw [if_pos hskip]
    exact Or.inl ⟨⟨hready, Or.inl hskip⟩, rfl⟩
  · rw [if_neg hskip]
    by_cases hn : NullTable l
    · rw [if_pos (hnull.mp hn)]
      exact Or.inl ⟨⟨hready, Or.inr (Or.inl hn)⟩, rfl⟩
    · rw [if_neg (mt hnull.mpr hn)]
      have hbuckets : HasBuckets l := (hready.2.resolve_left hskip).resolve_left hn
      have hpassed : PassedBy skip name p l ↔ ChainHasNo l name := by
        simp only [PassedBy, hready, hskip, hn, true_and, false_or]
      obtain ⟨hb, hc⟩ := hl.hash hbuckets.1
      rw [if_neg hbuckets.2, hpassed]
      cases hfirst : hashWord l l.l_buckets (elf_hash name % l.l_nbuckets).toNat with
      | error e =>
        refine Or.inr ⟨?_, hbuckets, Or.inr ⟨e, rfl, hashWord_no_null hb hfirst⟩⟩
        rintro ⟨first, is, hfirst', _⟩
        rw [hfirst] at hfirst'
        cases hfirst'
      | ok first =>
        simp only
        cases hwalk : lookup_chain l name l.image.hash.length first with
        | error e =>
          refine Or.inr ⟨?_, hbuckets, Or.inr ⟨e, rfl, lookup_chain_no_null hc hwalk⟩⟩
          intro hno
          rw [lookup_chain_of_unmatched hno hfirst] at hwalk
          cases hwalk
        | ok r =>
          cases r with
          | none =>
            obtain ⟨is, hchain, hnone⟩ := lookup_chain_none hwalk
            exact Or.inl ⟨⟨first, is, hfirst, hchain, hnone⟩, rfl⟩
          | some sym =>
            refine Or.inr ⟨?_, hbuckets, Or.inl ⟨sym, rfl⟩⟩
            intro hno
            rw [lookup_chain_of_unmatched hno hfirst] at hwalk
            cases hwalk

/-- The loop body on any other object. -/
theorem lookup_object_not_ready (name : CString) (hl : Promised l) (hready : ¬ Ready skip p l) :
    ∃ e, lookup_object skip name (elf_hash name) p l = .error e ∧ NullFault e := by
  unfold lookup_object D_PTR
  cases hd1 : l.l_info DT_SYMTAB with
  | none => exact ⟨_, rfl, trivial⟩
  | some d1 =>
    obtain ⟨d2, hd2⟩ := Option.isSome_iff_exists.mp hl.strtab
    have hnull := nullTable_iff hd1 hd2
    rw [Ready, hd1] at hready
    obtain ⟨hskip, hready⟩ := not_or.mp fun h => hready ⟨rfl, h⟩
    obtain ⟨hn, hbuckets⟩ := not_or.mp hready
    have hzero : l.l_nbuckets = 0 := by
      by_contra hne
      cases hhash : l.l_info DT_HASH with
      | none => exact hne (hl.no_hash hhash).1
      | some d => exact hbuckets ⟨by rw [hhash]; rfl, hne⟩
    rw [hd2]
    simp only [bind, Except.bind]
    rw [if_neg hskip, if_neg (mt hnull.mpr hn), if_pos hzero]
    exact ⟨_, rfl, trivial⟩

end

/-! ## The whole search -/

/-- The loop over the objects, over a list of them. -/
def search (w : Rtld) (skip : Option Ptr) (name : CString) :
    List Ptr → Except Stop (Option SymVal)
  | [] => .ok none
  | p :: ps => do
    let l ← w.deref p
    match ← lookup_object skip name (elf_hash name) p l with
    | some sym => .ok (some { s := sym, m := p })
    | none => search w skip name ps

theorem lookup_symbol_eq_search {w : Rtld} {ns : List Ptr} (hns : Linked w.maps w._namespace ns)
    (skip : Option Ptr) (name : CString) : lookup_symbol w skip name = search w skip name ns := by
  suffices h : ∀ (ns : List Ptr) (o : Option Ptr) (fuel : Nat), Linked w.maps o ns →
      ns.length ≤ fuel →
      lookup_objects w skip name (elf_hash name) fuel o = search w skip name ns from
    h ns w._namespace w.maps.length hns hns.length_le
  intro ns
  induction ns with
  | nil =>
    rintro o fuel rfl _
    unfold lookup_objects
    rfl
  | cons p ns ih =>
    rintro o fuel ⟨rfl, l, hl, hrest⟩ hfuel
    obtain ⟨fuel, rfl⟩ : ∃ f, fuel = f + 1 := ⟨fuel - 1, by simp at hfuel; omega⟩
    rw [lookup_objects, search, Rtld.deref_eq_ok.mpr hl]
    simp only [bind, Except.bind]
    cases lookup_object skip name (elf_hash name) p l with
    | error e => rfl
    | ok r =>
      cases r with
      | some sym => rfl
      | none => exact ih l.l_next fuel hrest (by simpa using hfuel)

/-- The object at `p` has all that a search needs. -/
def complete (w : Rtld) (p : Ptr) : Bool :=
  match w.maps[p]? with
  | some l => (l.l_info DT_SYMTAB).isSome && (l.l_info DT_HASH).isSome && l.l_nbuckets != 0
  | none => false

/-- The search makes no access through NULL and no division by zero. Objects
that lack a table are skipped, and the search goes on. -/
structure SafeLookup (w : Rtld) (ns : List Ptr) (skip : Option Ptr) (name : CString) : Prop where
  no_fault : ∀ e, lookup_symbol w skip name = .error e → ¬ NullFault e
  goes_on : lookup_symbol w skip name = search w skip name (ns.filter (complete w))

/-- Every object that the search comes to is ready for it. -/
def ReadyWhereReached (w : Rtld) (ns : List Ptr) (skip : Option Ptr) (name : CString) : Prop :=
  ∀ pre p post, ns = pre ++ p :: post →
    (∀ q ∈ pre, ∃ l, w.maps[q]? = some l ∧ PassedBy skip name q l) →
    ∃ l, w.maps[p]? = some l ∧ Ready skip p l

section

variable {w : Rtld} {skip : Option Ptr} {name : CString} {p : Ptr} {ps : List Ptr} {l : LinkMap}

/-- The first object of a search decides it, or passes it on. -/
theorem search_cons (hl : w.maps[p]? = some l) :
    search w skip name (p :: ps) =
      match lookup_object skip name (elf_hash name) p l with
      | .error e => .error e
      | .ok (some sym) => .ok (some { s := sym, m := p })
      | .ok none => search w skip name ps := by
  rw [search, Rtld.deref_eq_ok.mpr hl]
  simp only [bind, Except.bind]
  cases lookup_object skip name (elf_hash name) p l with
  | error e => rfl
  | ok r => cases r <;> rfl

theorem complete_of_hasBuckets (hl : w.maps[p]? = some l) (hready : Ready skip p l)
    (h : HasBuckets l) : complete w p = true := by
  have hne : (l.l_nbuckets != 0) = true := bne_iff_ne.mpr h.2
  simp only [complete, hl, hready.1, h.1, hne, Bool.and_self]

theorem readyWhereReached_cons_passed (hl : w.maps[p]? = some l) (h : PassedBy skip name p l) :
    ReadyWhereReached w (p :: ps) skip name ↔ ReadyWhereReached w ps skip name := by
  constructor
  · rintro hall pre q post rfl hpre
    apply hall (p :: pre) q post rfl
    intro r hr
    rcases List.mem_cons.mp hr with rfl | hr
    · exact ⟨l, hl, h⟩
    · exact hpre r hr
  · intro hall pre q post heq hpre
    cases pre with
    | nil =>
      cases heq
      exact ⟨l, hl, h.1⟩
    | cons r pre =>
      cases heq
      exact hall pre q post rfl fun q hq => hpre q (List.mem_cons_of_mem _ hq)

/-- A search that ends at its first object reaches no other. -/
theorem readyWhereReached_cons_stopped (hl : w.maps[p]? = some l) (hready : Ready skip p l)
    (h : ¬ PassedBy skip name p l) : ReadyWhereReached w (p :: ps) skip name := by
  intro pre q post heq hpre
  cases pre with
  | nil =>
    cases heq
    exact ⟨l, hl, hready⟩
  | cons r pre =>
    cases heq
    obtain ⟨l', hl', hpassed⟩ := hpre p List.mem_cons_self
    rw [hl] at hl'
    cases hl'
    exact absurd hpassed h

theorem search_safe_iff (hps : ∀ p ∈ ps, ∃ l, w.maps[p]? = some l ∧ Promised l) :
    ((∀ e, search w skip name ps = .error e → ¬ NullFault e) ∧
      search w skip name ps = search w skip name (ps.filter (complete w))) ↔
    ReadyWhereReached w ps skip name := by
  induction ps with
  | nil =>
    constructor
    · rintro _ pre p post h
      simp at h
    · intro _
      refine ⟨?_, rfl⟩
      intro e h
      cases h
  | cons p ps ih =>
    obtain ⟨l, hl, hpromised⟩ := hps p List.mem_cons_self
    have ih := ih fun q hq => hps q (List.mem_cons_of_mem _ hq)
    by_cases hready : Ready skip p l
    · rcases lookup_object_ready name hpromised hready with
        ⟨hpassed, hres⟩ | ⟨hpassed, hbuckets, hres⟩
      · have hsearch : ∀ qs, search w skip name (p :: qs) = search w skip name qs := by
          intro qs
          rw [search_cons hl, hres]
        rw [readyWhereReached_cons_passed hl hpassed, ← ih, hsearch]
        cases hc : complete w p with
        | true => rw [List.filter_cons_of_pos hc, hsearch]
        | false => rw [List.filter_cons_of_neg (by simp [hc])]
      · have hreached : ReadyWhereReached w (p :: ps) skip name :=
          readyWhereReached_cons_stopped hl hready hpassed
        rw [List.filter_cons_of_pos (complete_of_hasBuckets hl hready hbuckets), search_cons hl,
          search_cons hl]
        rcases hres with ⟨sym, hres⟩ | ⟨e, hres, hno⟩
        · simp [hres, hreached]
        · simp [hres, hreached, hno]
    · obtain ⟨e, hres, hnull⟩ := lookup_object_not_ready name hpromised hready
      have hsearch : search w skip name (p :: ps) = .error e := by rw [search_cons hl, hres]
      constructor
      · rintro ⟨hno, _⟩
        exact absurd hnull (hno e hsearch)
      · intro hreached
        obtain ⟨l', hl', h⟩ := hreached [] p ps rfl (by simp)
        rw [hl] at hl'
        cases hl'
        exact absurd h hready

end

/-- A lookup is safe exactly when every object that it comes to has DT_SYMTAB
and, unless it is the one to skip or a table of it is at NULL, a hash table
with a bucket. -/
theorem a_lookup_is_safe_iff_the_objects_it_reaches_are_ready (w : Rtld) (ns : List Ptr)
    (skip : Option Ptr) (name : CString) (hns : Linked w.maps w._namespace ns)
    (hadmitted : ∀ p ∈ ns, ∀ l, w.maps[p]? = some l → Admitted l) :
    SafeLookup w ns skip name ↔ ReadyWhereReached w ns skip name := by
  have hps : ∀ p ∈ ns, ∃ l, w.maps[p]? = some l ∧ Promised l := by
    intro p hp
    obtain ⟨l, hl⟩ := hns.mem_maps hp
    exact ⟨l, hl, (hadmitted p hp l hl).promised⟩
  rw [← search_safe_iff hps, ← lookup_symbol_eq_search hns]
  exact ⟨fun h => ⟨h.1, h.2⟩, fun h => ⟨h.1, h.2⟩⟩

/-! ## An object with a hash table, and one without -/

/-- A map at the address 0x1000 with these entries in its dynamic section. -/
def unparsed (dynamic : List Dyn) : LinkMap :=
  { init_link_map 0x5000 { xObject.image with dynamic := dynamic } with
    l_addr := 0x1000
    l_ld := 0x1000 }

def withHash : List Dyn := [⟨DT_STRTAB, 0x200⟩, ⟨DT_SYMTAB, 0x210⟩, ⟨DT_HASH, 0x220⟩]

/-- As in an object that has a GNU hash table only. -/
def withoutHash : List Dyn := [⟨DT_STRTAB, 0x200⟩, ⟨DT_SYMTAB, 0x210⟩]

def hashObject : LinkMap :=
  { unparsed withHash with
    l_info := indexed (unparsed withHash).l_info withHash
    l_nbuckets := 1
    l_buckets := some 2
    l_chain := some 3 }

def gnuHashObject : LinkMap :=
  { unparsed withoutHash with l_info := indexed (unparsed withoutHash).l_info withoutHash }

def loneWorld (l : LinkMap) : Rtld := { xWorld with maps := [l] }

theorem hashObject_admitted : Admitted hashObject := by
  refine @Admitted.parsed (unparsed withHash) _ asCopied [] [] ⟨rfl, rfl, rfl⟩ ?_
  rw [parse_dynamic, index_dynamic_eq _ (by decide)]
  rfl

theorem gnuHashObject_admitted : Admitted gnuHashObject := by
  refine @Admitted.parsed (unparsed withoutHash) _ asCopied [] [] ⟨rfl, rfl, rfl⟩ ?_
  rw [parse_dynamic, index_dynamic_eq _ (by decide)]
  rfl

theorem loneWorld_linked {l : LinkMap} (h : l.l_next = none) :
    Linked (loneWorld l).maps (loneWorld l)._namespace [0] := ⟨rfl, l, rfl, h⟩

theorem a_lookup_in_an_object_with_a_hash_table_is_safe :
    (SafeLookup (loneWorld hashObject) [0] none (CString.lit ['x']) ↔
      ReadyWhereReached (loneWorld hashObject) [0] none (CString.lit ['x'])) ∧
    Ready none 0 hashObject := by
  refine ⟨?_, rfl, Or.inr (Or.inr ⟨rfl, by decide⟩)⟩
  apply a_lookup_is_safe_iff_the_objects_it_reaches_are_ready
  · exact loneWorld_linked rfl
  · intro p hp l hl
    rw [List.mem_singleton.mp hp] at hl
    cases hl
    exact hashObject_admitted

/-- An object without DT_HASH is not skipped: the lookup divides by zero. -/
theorem a_lookup_in_an_object_without_a_hash_table_divides_by_zero :
    Linked (loneWorld gnuHashObject).maps (loneWorld gnuHashObject)._namespace [0] ∧
    Admitted gnuHashObject ∧ (loneWorld gnuHashObject).maps = [gnuHashObject] ∧
    lookup_symbol (loneWorld gnuHashObject) none (CString.lit ['x']) =
      .error (.fault .divideByZero) ∧
    ¬ SafeLookup (loneWorld gnuHashObject) [0] none (CString.lit ['x']) := by
  have hfault : lookup_symbol (loneWorld gnuHashObject) none (CString.lit ['x']) =
      .error (.fault .divideByZero) := rfl
  refine ⟨loneWorld_linked rfl, gnuHashObject_admitted, rfl, hfault, ?_⟩
  intro h
  exact h.no_fault _ hfault trivial

end elf_loader.lookup
