-- What the kernel leaves on the stack of a new program (`parse_params` and
-- `parse_auxv` of rtld/rtld.c): the arguments, the environment and the
-- auxiliary vector, each up to its end mark. All of it is loaded from the
-- pages of the process, and so are the headers that `AT_SYSINFO_EHDR` names.
import BinaryLab.LinkMap

set_option linter.style.nameCheck false

open binary_lab.pages binary_lab.runs binary_lab.words

namespace elf_loader.rtld

abbrev AT_NULL : BitVec 64 := 0
abbrev AT_PHDR : BitVec 64 := 3
abbrev AT_PHNUM : BitVec 64 := 5
abbrev AT_PAGESZ : BitVec 64 := 6
abbrev AT_ENTRY : BitVec 64 := 9
abbrev AT_SYSINFO_EHDR : BitVec 64 := 33

/-- `struct program_info`, as the stack gives it. -/
structure BootInfo where
  argc : Int
  argv : Addr
  envp : Addr
  entry : Addr
  ehdr : Addr
  phdr : Addr
  phnum : BitVec 16
deriving DecidableEq

/-- What `parse_params` writes: `program_info`, and the two copies of the page size. -/
structure Boot where
  program_info : BootInfo
  _dl_pagesize : BitVec 64
  __pagesize : BitVec 64
deriving DecidableEq

/-! ## The functions -/

/-- The value of a load, or a signal. -/
def fetch {α : Type} : Option α → Except Stop α
  | some v => .ok v
  | none => .error (.fault .badLoad)

/-- The `switch` of `parse_auxv`. Every other entry is only printed. -/
def auxv_entry (sp : Space) (w : Boot) (entry : BitVec 64 × BitVec 64) : Except Stop Boot :=
  let (a_type, a_val) := entry
  let pi := w.program_info
  if a_type = AT_ENTRY then .ok { w with program_info := { pi with entry := a_val } }
  else if a_type = AT_SYSINFO_EHDR then
    let pi := { pi with ehdr := a_val }
    -- the headers that the kernel maps itself stand in until `AT_PHDR` comes
    if pi.phdr = 0 then do
      let e_phoff ← fetch (sp.load64 (pi.ehdr + 32))
      .ok { w with program_info := { pi with phdr := a_val + e_phoff } }
    else .ok { w with program_info := pi }
  else if a_type = AT_PHDR then .ok { w with program_info := { pi with phdr := a_val } }
  else if a_type = AT_PHNUM then
    .ok { w with program_info := { pi with phnum := a_val.setWidth 16 } }
  else if a_type = AT_PAGESZ then .ok { w with _dl_pagesize := a_val, __pagesize := a_val }
  else .ok w

/-- `parse_auxv`, from the address `auxv` on. -/
def parse_auxv (sp : Space) : Nat → Addr → Boot → Except Stop Boot
  | 0, _, _ => .error .endless
  | fuel + 1, auxv, w => do
    let a_type ← fetch (sp.load64 auxv)
    if a_type = AT_NULL then .ok w
    else do
      let a_val ← fetch (sp.load64 (auxv + 8))
      let w ← auxv_entry sp w (a_type, a_val)
      parse_auxv sp fuel (auxv + 16) w

/-- The loop over the environment: the address behind its NULL. -/
def skip_envp (sp : Space) : Nat → Addr → Except Stop Addr
  | 0, _ => .error .endless
  | fuel + 1, pauxv => do
    let p ← fetch (sp.load64 pauxv)
    if p = 0 then .ok (pauxv + 8) else skip_envp sp fuel (pauxv + 8)

/-- `parse_params`. -/
def parse_params (sp : Space) (fuel : Nat) (params : Addr) (w : Boot) : Except Stop Boot := do
  let argc ← fetch (sp.load32 params)
  let argc := argc.toInt
  let pargv := params + 8
  let penvp := pargv + 8 * BitVec.ofInt 64 argc + 8
  let pauxv ← skip_envp sp fuel penvp
  let w ← parse_auxv sp fuel pauxv w
  .ok { w with program_info := { w.program_info with argc, argv := pargv, envp := penvp } }

/-! ## The stack of a new program -/

/-- The words that the kernel puts on the stack. -/
def initialStack (args envs : List Addr) (auxv : List (BitVec 64 × BitVec 64)) (last : BitVec 64) :
    List (BitVec 64) :=
  BitVec.ofNat 64 args.length :: (args ++ 0 :: (envs ++ 0 ::
    (auxv.flatMap (fun entry => [entry.1, entry.2]) ++ [AT_NULL, last])))

section

variable {sp : Space}

/-- The environment ends at its NULL. -/
theorem skip_envp.spec {envs rest : List Addr} (henvs : ∀ p ∈ envs, p ≠ 0) {penvp : Addr}
    (h : sp.HoldsWords penvp (envs ++ 0 :: rest)) {fuel : Nat} (hfuel : envs.length < fuel) :
    ∃ pauxv, skip_envp sp fuel penvp = .ok pauxv ∧ sp.HoldsWords pauxv rest := by
  induction envs generalizing penvp fuel with
  | nil =>
    obtain ⟨fuel, rfl⟩ := Nat.exists_eq_add_one.mpr hfuel
    obtain ⟨hnull, hrest⟩ := Space.holdsWords_cons.mp h
    exact ⟨penvp + 8, by rw [skip_envp, hnull]; rfl, hrest⟩
  | cons p envs ih =>
    obtain ⟨fuel, rfl⟩ := Nat.exists_eq_add_one.mpr (Nat.zero_lt_of_lt hfuel)
    obtain ⟨hp, hrest⟩ := Space.holdsWords_cons.mp h
    obtain ⟨pauxv, hskip, hauxv⟩ := ih (fun q hq => henvs q (List.mem_cons_of_mem _ hq)) hrest
      (Nat.lt_of_succ_lt_succ hfuel)
    refine ⟨pauxv, ?_, hauxv⟩
    rw [skip_envp, hp]
    exact (if_neg (henvs p List.mem_cons_self)).trans hskip

/-- The auxiliary vector is taken entry by entry, up to `AT_NULL`. -/
theorem parse_auxv.spec {auxv : List (BitVec 64 × BitVec 64)} {last : BitVec 64}
    (htypes : ∀ entry ∈ auxv, entry.1 ≠ AT_NULL) {pauxv : Addr}
    (h : sp.HoldsWords pauxv
      (auxv.flatMap (fun entry => [entry.1, entry.2]) ++ [AT_NULL, last]))
    {fuel : Nat} (hfuel : auxv.length < fuel) (w : Boot) :
    parse_auxv sp fuel pauxv w = auxv.foldlM (auxv_entry sp) w := by
  induction auxv generalizing pauxv fuel w with
  | nil =>
    obtain ⟨fuel, rfl⟩ := Nat.exists_eq_add_one.mpr hfuel
    rw [parse_auxv, (Space.holdsWords_cons.mp h).1]
    rfl
  | cons entry auxv ih =>
    obtain ⟨fuel, rfl⟩ := Nat.exists_eq_add_one.mpr (Nat.zero_lt_of_lt hfuel)
    obtain ⟨htype, htail⟩ := Space.holdsWords_cons.mp h
    obtain ⟨hval, hrest⟩ := Space.holdsWords_cons.mp htail
    have hnext : pauxv + 8 + 8 = pauxv + 16 := BitVec.add_assoc pauxv 8 8
    rw [hnext] at hrest
    have hrun := ih (fun e he => htypes e (List.mem_cons_of_mem _ he)) hrest
      (Nat.lt_of_succ_lt_succ hfuel)
    rw [parse_auxv, htype, hval, List.foldlM_cons, ← funext hrun]
    exact if_neg (htypes entry List.mem_cons_self)

end

/-! ## The fields that the auxiliary vector sets -/

/-- From `w` to `w'`, an entry has set its own field only. -/
structure SetsOwn (a_type : BitVec 64) (w w' : Boot) : Prop where
  entry : a_type ≠ AT_ENTRY → w'.program_info.entry = w.program_info.entry
  ehdr : a_type ≠ AT_SYSINFO_EHDR → w'.program_info.ehdr = w.program_info.ehdr
  phnum : a_type ≠ AT_PHNUM → w'.program_info.phnum = w.program_info.phnum
  _dl_pagesize : a_type ≠ AT_PAGESZ → w'._dl_pagesize = w._dl_pagesize
  __pagesize : a_type ≠ AT_PAGESZ → w'.__pagesize = w.__pagesize

/-- What an entry does to the program headers: its own, those that the kernel
maps itself while there are none, or nothing. -/
inductive SetsPhdr (sp : Space) (e : BitVec 64 × BitVec 64) (w w' : Boot) : Prop
  | own (htype : e.1 = AT_PHDR) (hphdr : w'.program_info.phdr = e.2)
  | kernel (htype : e.1 = AT_SYSINFO_EHDR) (hnull : w.program_info.phdr = 0) (e_phoff : BitVec 64)
    (hload : sp.load64 (e.2 + 32) = some e_phoff) (hphdr : w'.program_info.phdr = e.2 + e_phoff)
  | kept (hown : e.1 ≠ AT_PHDR) (hset : e.1 = AT_SYSINFO_EHDR → w.program_info.phdr ≠ 0)
    (hphdr : w'.program_info.phdr = w.program_info.phdr)

section

variable {sp : Space} {auxv : List (BitVec 64 × BitVec 64)} {w w' : Boot}

theorem fetch_eq_ok {α : Type} {x : Option α} {v : α} : fetch x = .ok v ↔ x = some v := by
  cases x <;> simp [fetch]

/-- An entry that is taken sets its own field only, and the program headers as it may. -/
theorem auxv_entry.spec {e : BitVec 64 × BitVec 64} (h : auxv_entry sp w e = .ok w') :
    SetsOwn e.1 w w' ∧ SetsPhdr sp e w w' := by
  obtain ⟨a_type, a_val⟩ := e
  simp only [auxv_entry] at h
  split_ifs at h with hentry hehdr hnull hphdr hphnum hpagesz
  · cases h
    subst hentry
    have hehdrNe : AT_ENTRY ≠ AT_SYSINFO_EHDR := by decide
    exact ⟨⟨fun h => absurd rfl h, fun _ => rfl, fun _ => rfl, fun _ => rfl, fun _ => rfl⟩,
      .kept (show AT_ENTRY ≠ AT_PHDR by decide) (fun h => absurd h hehdrNe) rfl⟩
  · obtain ⟨e_phoff, hload, h⟩ := bind_eq_ok.mp h
    cases h
    exact ⟨⟨fun _ => rfl, fun h => absurd hehdr h, fun _ => rfl, fun _ => rfl, fun _ => rfl⟩,
      .kernel hehdr hnull e_phoff (fetch_eq_ok.mp hload) rfl⟩
  · cases h
    subst hehdr
    exact ⟨⟨fun _ => rfl, fun h => absurd rfl h, fun _ => rfl, fun _ => rfl, fun _ => rfl⟩,
      .kept (show AT_SYSINFO_EHDR ≠ AT_PHDR by decide) (fun _ => hnull) rfl⟩
  · cases h
    exact ⟨⟨fun _ => rfl, fun _ => rfl, fun _ => rfl, fun _ => rfl, fun _ => rfl⟩,
      .own hphdr rfl⟩
  · cases h
    exact ⟨⟨fun _ => rfl, fun _ => rfl, fun h => absurd hphnum h, fun _ => rfl, fun _ => rfl⟩,
      .kept hphdr (fun h => absurd h hehdr) rfl⟩
  · cases h
    exact ⟨⟨fun _ => rfl, fun _ => rfl, fun _ => rfl, fun h => absurd hpagesz h,
      fun h => absurd hpagesz h⟩, .kept hphdr (fun h => absurd h hehdr) rfl⟩
  · cases h
    exact ⟨⟨fun _ => rfl, fun _ => rfl, fun _ => rfl, fun _ => rfl, fun _ => rfl⟩,
      .kept hphdr (fun h => absurd h hehdr) rfl⟩

theorem auxv_entry_ehdr {v : BitVec 64} (h : auxv_entry sp w (AT_SYSINFO_EHDR, v) = .ok w') :
    w'.program_info.ehdr = v := by
  simp only [auxv_entry] at h
  split_ifs at h with hentry hnull
  · exact absurd hentry (by decide)
  · obtain ⟨e_phoff, _, h⟩ := bind_eq_ok.mp h
    cases h
    rfl
  · cases h
    rfl

/-- Only a header of the kernel that cannot be read stops the loop. -/
theorem auxv_entry_stops (sp : Space) (w : Boot) (e : BitVec 64 × BitVec 64) :
    (∃ w', auxv_entry sp w e = .ok w') ∧
        ¬ (e.1 = AT_SYSINFO_EHDR ∧ w.program_info.phdr = 0 ∧ sp.load64 (e.2 + 32) = none) ∨
      auxv_entry sp w e = .error (.fault .badLoad) ∧
        e.1 = AT_SYSINFO_EHDR ∧ w.program_info.phdr = 0 ∧ sp.load64 (e.2 + 32) = none := by
  obtain ⟨a_type, a_val⟩ := e
  simp only [auxv_entry]
  split_ifs with hentry hehdr hnull hphdr hphnum hpagesz
  · subst hentry
    exact .inl ⟨⟨_, rfl⟩, fun h => absurd h.1 (by decide)⟩
  · cases hload : sp.load64 (a_val + 32) with
    | some e_phoff => exact .inl ⟨⟨_, rfl⟩, fun h => nomatch h.2.2⟩
    | none => exact .inr ⟨rfl, hehdr, hnull, rfl⟩
  · exact .inl ⟨⟨_, rfl⟩, fun h => hnull h.2.1⟩
  all_goals exact .inl ⟨⟨_, rfl⟩, fun h => hehdr h.1⟩

theorem entry_of_last (h : auxv.foldlM (auxv_entry sp) w = .ok w') :
    w'.program_info.entry = (auxv.reverse.lookup AT_ENTRY).getD w.program_info.entry := by
  have hentry := foldlM_lookup_last (fun w => w.program_info.entry) AT_ENTRY id
    (fun _ _ _ h => by cases h; rfl) (fun _ _ _ h => (auxv_entry.spec h).1.entry) h
  rwa [Option.map_id_fun] at hentry

theorem phnum_of_last (h : auxv.foldlM (auxv_entry sp) w = .ok w') :
    w'.program_info.phnum =
      ((auxv.reverse.lookup AT_PHNUM).map (BitVec.setWidth 16)).getD w.program_info.phnum :=
  foldlM_lookup_last (fun w => w.program_info.phnum) AT_PHNUM (BitVec.setWidth 16)
    (fun _ _ _ h => by cases h; rfl) (fun _ _ _ h => (auxv_entry.spec h).1.phnum) h

/-- The program headers that the last `AT_PHDR` entry names stay, if their address is not 0 or
nothing could replace it. -/
theorem phdr_of_last {phdr : Addr} (hphdr : phdr ≠ 0 ∨ ∀ e ∈ auxv, e.1 ≠ AT_SYSINFO_EHDR)
    (hlast : auxv.reverse.lookup AT_PHDR = some phdr)
    (h : auxv.foldlM (auxv_entry sp) w = .ok w') : w'.program_info.phdr = phdr := by
  induction auxv using List.reverseRecOn generalizing w' with
  | nil => cases hlast
  | append_singleton auxv e ih =>
    obtain ⟨key, v⟩ := e
    obtain ⟨w1, hrun, hstep⟩ := foldlM_concat_eq_ok.mp h
    rw [List.reverse_append, List.reverse_singleton, List.singleton_append,
      List.lookup_cons] at hlast
    have hbefore := hphdr.imp_right fun hnone e he => hnone e (List.mem_append_left _ he)
    by_cases hkey : key = AT_PHDR
    · rw [hkey, beq_self_eq_true, Option.some.injEq] at hlast
      rcases (auxv_entry.spec hstep).2 with ⟨_, hset⟩ | ⟨hehdr, _, _, _, _⟩ | ⟨hown, _, _⟩
      · exact hset.trans hlast
      · exact absurd (hkey.symm.trans hehdr) (by decide)
      · exact absurd hkey hown
    · rw [beq_false_of_ne (Ne.symm hkey)] at hlast
      have hkept := ih hbefore hlast hrun
      rcases (auxv_entry.spec hstep).2 with ⟨hown, _⟩ | ⟨hehdr, hnull, _, _, _⟩ | ⟨_, _, hset⟩
      · exact absurd hown hkey
      · rcases hphdr with hne | hnone
        · exact absurd (hkept.symm.trans hnull) hne
        · exact absurd hehdr (hnone _ (List.mem_append_right _ List.mem_cons_self))
      · exact hset.trans hkept

end

/-! ## The whole stack -/

/-- The boot parameters of a stack, and what was there before of those that it has not. -/
def decoded (params : Addr) (args : List Addr) (auxv : List (BitVec 64 × BitVec 64)) (w : Boot) :
    Boot where
  program_info := {
    argc := args.length
    argv := params + 8
    envp := params + 8 + 8 * BitVec.ofNat 64 args.length + 8
    entry := (auxv.lookup AT_ENTRY).getD w.program_info.entry
    ehdr := (auxv.lookup AT_SYSINFO_EHDR).getD w.program_info.ehdr
    phdr := (auxv.lookup AT_PHDR).getD w.program_info.phdr
    phnum := ((auxv.lookup AT_PHNUM).map (BitVec.setWidth 16)).getD w.program_info.phnum }
  _dl_pagesize := (auxv.lookup AT_PAGESZ).getD w._dl_pagesize
  __pagesize := (auxv.lookup AT_PAGESZ).getD w.__pagesize

section

variable {sp : Space} {args envs : List Addr} {auxv : List (BitVec 64 × BitVec 64)} {w w' : Boot}

/-- The auxiliary vector sets each field from the entry of its type. -/
theorem foldlM_auxv (params : Addr) (args : List Addr) (honce : (auxv.map Prod.fst).Nodup)
    {phdr : Addr} (hphdr : phdr ≠ 0 ∨ ∀ e ∈ auxv, e.1 ≠ AT_SYSINFO_EHDR)
    (hmem : (AT_PHDR, phdr) ∈ auxv) (h : auxv.foldlM (auxv_entry sp) w = .ok w') :
    { w' with
      program_info := { w'.program_info with
        argc := args.length
        argv := params + 8
        envp := params + 8 + 8 * BitVec.ofNat 64 args.length + 8 } } =
      decoded params args auxv w := by
  have hlast := lookup_perm honce auxv.reverse_perm
  have hehdr := foldlM_lookup (fun w => w.program_info.ehdr) AT_SYSINFO_EHDR id
    (fun _ _ _ h => auxv_entry_ehdr h) (fun _ _ _ h => (auxv_entry.spec h).1.ehdr) honce h
  have hdl := foldlM_lookup Boot._dl_pagesize AT_PAGESZ id
    (fun _ _ _ h => by cases h; rfl) (fun _ _ _ h => (auxv_entry.spec h).1._dl_pagesize) honce h
  have hpagesize := foldlM_lookup Boot.__pagesize AT_PAGESZ id
    (fun _ _ _ h => by cases h; rfl) (fun _ _ _ h => (auxv_entry.spec h).1.__pagesize) honce h
  have hheaders := (lookup_eq_some_iff_mem honce).mpr hmem
  have hown := phdr_of_last hphdr ((hlast AT_PHDR).trans hheaders) h
  simp only [Option.map_id_fun, id] at hehdr hdl hpagesize
  simp only [decoded, entry_of_last h, phnum_of_last h, hlast, hehdr, hdl, hpagesize, hown,
    hheaders, Option.getD_some]

/-- The number of arguments is read as an `int`. -/
theorem argc_of_stack {params : Addr} (hargs : args.length < 2 ^ 31)
    (h : sp.load64 params = some (BitVec.ofNat 64 args.length)) :
    ∃ argc, sp.load32 params = some argc ∧ argc.toInt = args.length := by
  refine ⟨_, Space.load32_of_load64 h, ?_⟩
  rw [BitVec.toInt_eq_toNat_of_lt]
  · simp
    omega
  · simp
    omega

/-- The arguments and the environment are passed, and then comes the auxiliary vector. -/
theorem parse_params.spec {params : Addr} {last : BitVec 64} (hargs : args.length < 2 ^ 31)
    (henvs : ∀ p ∈ envs, p ≠ 0) (htypes : ∀ entry ∈ auxv, entry.1 ≠ AT_NULL)
    (hstack : sp.HoldsWords params (initialStack args envs auxv last)) {fuel : Nat}
    (hfuel : envs.length + auxv.length < fuel) (w : Boot) :
    parse_params sp fuel params w = (do
      let w' ← auxv.foldlM (auxv_entry sp) w
      .ok { w' with
        program_info := { w'.program_info with
          argc := args.length
          argv := params + 8
          envp := params + 8 + 8 * BitVec.ofNat 64 args.length + 8 } }) := by
  obtain ⟨hcount, hrest⟩ := Space.holdsWords_cons.mp hstack
  obtain ⟨_, hbehind⟩ := Space.holdsWords_append.mp hrest
  obtain ⟨_, henvp⟩ := Space.holdsWords_cons.mp hbehind
  have henough : envs.length < fuel ∧ auxv.length < fuel := by omega
  obtain ⟨pauxv, hskip, hauxv⟩ := skip_envp.spec henvs henvp henough.1
  obtain ⟨argc, hload, hargc⟩ := argc_of_stack hargs hcount
  have hparse := parse_auxv.spec htypes hauxv henough.2 w
  rw [parse_params, hload]
  show (skip_envp sp fuel (params + 8 + 8 * BitVec.ofInt 64 argc.toInt + 8) >>= _) = _
  rw [hargc, BitVec.ofInt_natCast, hskip]
  show (parse_auxv sp fuel pauxv w >>= _) = _
  rw [hparse]

end

/-- `parse_params` gets back what the kernel has put on the stack, in whatever order the entries
of the auxiliary vector come. The words of the stack lie in pages that can be read, and so does
the `e_phoff` of the ELF header that `AT_SYSINFO_EHDR` names. -/
theorem parse_params_decodes_the_initial_stack (sp : Space) (params : Addr)
    (args envs : List Addr) (auxv : List (BitVec 64 × BitVec 64)) (last : BitVec 64) (w : Boot)
    (hargs : args.length < 2 ^ 31) (henvs : ∀ p ∈ envs, p ≠ 0)
    (htypes : ∀ entry ∈ auxv, entry.1 ≠ AT_NULL) (honce : (auxv.map Prod.fst).Nodup)
    (hphdr : ∃ phdr, (AT_PHDR, phdr) ∈ auxv ∧ (phdr ≠ 0 ∨ ∀ e ∈ auxv, e.1 ≠ AT_SYSINFO_EHDR))
    (hehdr : ∀ e ∈ auxv, e.1 = AT_SYSINFO_EHDR → (sp.load64 (e.2 + 32)).isSome)
    (hphnum : ∀ phnum, (AT_PHNUM, phnum) ∈ auxv → phnum.toNat < 2 ^ 16)
    (hstack : sp.HoldsWords params (initialStack args envs auxv last)) :
    (∀ fuel > envs.length + auxv.length,
        parse_params sp fuel params w = .ok (decoded params args auxv w)) ∧
      sp.HoldsWords (decoded params args auxv w).program_info.argv (args ++ [0]) ∧
      sp.HoldsWords (decoded params args auxv w).program_info.envp (envs ++ [0]) ∧
      (∀ phnum, auxv.lookup AT_PHNUM = some phnum →
        (decoded params args auxv w).program_info.phnum.toNat = phnum.toNat) ∧
      ∀ auxv', auxv'.Perm auxv → decoded params args auxv' w = decoded params args auxv w := by
  obtain ⟨phdr, hmem, hkept⟩ := hphdr
  obtain ⟨_, hbehind⟩ := Space.holdsWords_cons.mp hstack
  obtain ⟨hargv, henvs'⟩ := Space.holdsWords_append.mp hbehind
  obtain ⟨hnull, henvp⟩ := Space.holdsWords_cons.mp henvs'
  obtain ⟨hpointers, hlast⟩ := Space.holdsWords_append.mp henvp
  have hends : ∀ {a : Addr} {ps : List Addr}, sp.HoldsWords a ps →
      sp.load64 (a + 8 * BitVec.ofNat 64 ps.length) = some 0 → sp.HoldsWords a (ps ++ [0]) :=
    fun hps hend => Space.holdsWords_append.mpr
      ⟨hps, Space.holdsWords_cons.mpr ⟨hend, Space.holdsWords_nil⟩⟩
  obtain ⟨w', hrun⟩ : ∃ w', auxv.foldlM (auxv_entry sp) w = .ok w' := by
    refine foldlM_total (fun w e he => ?_) w
    rcases auxv_entry_stops sp w e with ⟨hok, _⟩ | ⟨_, htype, _, hload⟩
    · exact hok
    · have hsome := hehdr e he htype
      rw [hload] at hsome
      cases hsome
  refine ⟨?_, hends hargv hnull, hends hpointers (Space.holdsWords_cons.mp hlast).1, ?_, ?_⟩
  · intro fuel hfuel
    rw [parse_params.spec hargs henvs htypes hstack hfuel w, hrun]
    exact congrArg Except.ok (foldlM_auxv params args honce hkept hmem hrun)
  · intro phnum hlookup
    have hlt := hphnum phnum ((lookup_eq_some_iff_mem honce).mp hlookup)
    simp only [decoded, hlookup, Option.map_some, Option.getD_some, BitVec.toNat_setWidth]
    exact Nat.mod_eq_of_lt hlt
  · intro auxv' hperm
    simp only [decoded, lookup_perm honce hperm]

/-- A memory with the words from `a` on, and zeros elsewhere. -/
def memoryOf (a : Addr) (words : List (BitVec 64)) : Bytes := fun x =>
  byteOf (words.getD ((x - a).toNat / 8) 0).toNat ((x - a).toNat % 8)

/-- The words from 0x1000 on, and the pages up to 0x8000 mapped. -/
def spaceOf (words : List (BitVec 64)) : Space where
  byte := memoryOf 0x1000 words
  prot a := if 0x1000 ≤ a ∧ a < 0x8000 then some ⟨true, true, false⟩ else none
  backed _ := true

/-- The parameters before the stack is read, with `_start` at 0x401000. -/
def bootStart : Boot where
  program_info := {
    argc := -1
    argv := 0
    envp := 0
    entry := 0x401000
    ehdr := 0
    phdr := 0
    phnum := -1 }
  _dl_pagesize := 0
  __pagesize := 0x4000

def usualAuxv : List (BitVec 64 × BitVec 64) :=
  [(AT_SYSINFO_EHDR, 0x7000), (AT_PAGESZ, 4096), (AT_PHDR, 0x400040), (AT_PHNUM, 9),
    (AT_ENTRY, 0x400500)]

/-- A process with one argument and two variables in its environment. -/
def usualSpace : Space := spaceOf (initialStack [0x2000] [0x3000, 0x3010] usualAuxv 0)

theorem the_usual_stack_is_decoded :
    parse_params usualSpace 8 0x1000 bootStart = .ok {
      program_info := {
        argc := 1
        argv := 0x1008
        envp := 0x1018
        entry := 0x400500
        ehdr := 0x7000
        phdr := 0x400040
        phnum := 9 }
      _dl_pagesize := 4096
      __pagesize := 4096 } := by
  have hstack : usualSpace.HoldsWords 0x1000
      (initialStack [0x2000] [0x3000, 0x3010] usualAuxv 0) := by
    decide +kernel
  have hloads : usualAuxv.all (fun e =>
      e.1 != AT_SYSINFO_EHDR || (usualSpace.load64 (e.2 + 32)).isSome) = true := by
    decide +kernel
  have hehdr : ∀ e ∈ usualAuxv, e.1 = AT_SYSINFO_EHDR →
      (usualSpace.load64 (e.2 + 32)).isSome := by
    intro e he htype
    rcases Bool.or_eq_true_iff.mp (List.all_eq_true.mp hloads e he) with hne | hsome
    · exact absurd htype (bne_iff_ne.mp hne)
    · exact hsome
  have hdecoded := parse_params_decodes_the_initial_stack usualSpace 0x1000 [0x2000]
    [0x3000, 0x3010] usualAuxv 0 bootStart (by decide) (by simp) (by simp [usualAuxv]) (by decide)
    ⟨0x400040, by decide, .inl (by decide)⟩ hehdr (by simp [usualAuxv]) hstack
  rw [hdecoded.1 8 (by decide)]
  decide

/-- An `AT_PHDR` entry with the address 0 loses against an `AT_SYSINFO_EHDR`
entry that comes behind it, but not against one in front of it. One in front
of any `AT_PHDR` entry is followed, wherever it points to. -/
theorem a_null_phdr_is_replaced_by_the_headers_of_the_kernel :
    let decode (auxv : List (BitVec 64 × BitVec 64)) : Except Stop Addr :=
      (parse_params (spaceOf (initialStack [] [] auxv 0)) 8 0x1000 bootStart).map
        fun w => w.program_info.phdr
    decode [(AT_PHDR, 0), (AT_SYSINFO_EHDR, 0x7000)] = .ok 0x7000 ∧
      decode [(AT_SYSINFO_EHDR, 0x7000), (AT_PHDR, 0)] = .ok 0 ∧
      decode [(AT_SYSINFO_EHDR, 0), (AT_PHDR, 0x400040)] = .error (.fault .badLoad) ∧
      decode [(AT_PHDR, 0x400040), (AT_SYSINFO_EHDR, 0)] = .ok 0x400040 := by
  decide +kernel

end elf_loader.rtld
