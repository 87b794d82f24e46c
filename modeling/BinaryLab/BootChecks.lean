-- What `loader_start` (rtld/rtld.c) checks before it calls `loader_main`. The
-- fields of `program_info` have a mark at first, and the checks look for the
-- marks. That of `phnum` does not survive the conversion to 16 bits.
import BinaryLab.BootParams
import BinaryLab.Startup

set_option linter.style.nameCheck false

open binary_lab.pages binary_lab.runs binary_lab.words

namespace elf_loader.rtld

open load

/-! ## `loader_start` -/

/-- `pi`, before the stack is read. -/
def initial_info (sym : Symbols) : BootInfo where
  argc := -1
  argv := 0
  envp := 0
  entry := sym._start
  ehdr := 0
  phdr := 0
  phnum := -1

/-- What is in memory behind the pointers of `program_info`. -/
structure Pointees where
  /-- `argv[1]`, or NULL. -/
  argv1 : Addr → Option CString
  /-- The tables of the object with these program headers. -/
  image : Addr → Image

/-- `program_info`, as `loader_main` gets it. -/
def Pointees.info (p : Pointees) (pi : BootInfo) : ProgramInfo where
  argv1 := p.argv1 pi.argv
  entry := pi.entry
  phdr := pi.phdr
  phnum := pi.phnum
  image := p.image pi.phdr

/-- The first slots of `GL(rpath)`. -/
def first_rpath : List CString :=
  [CString.lit "/lib".toList, CString.lit "/usr/lib".toList, CString.lit ".".toList]

/-- `loader_start` from `parse_params` up to the call of `loader_main`. -/
def read_params (sym : Symbols) (__pagesize : BitVec 64) (fuel : Nat) (params : Addr) (w : Rtld) :
    Except Stop Boot := do
  let boot := { program_info := initial_info sym, _dl_pagesize := w._dl_pagesize, __pagesize }
  let boot ← parse_params w.proc.space fuel params boot
  assert (boot.program_info.phdr != 0) "program_info->phdr != NULL"
  -- a comparison of two `int`
  assert (boot.program_info.phnum.setWidth 32 != (-1 : BitVec 32)) "program_info->phnum != -1"
  assert (boot.program_info.entry != 0) "program_info->entry != 0"
  .ok boot

/-- `loader_start`: the address to jump to. -/
def loader_start (host : Host) (sym : Symbols) (p : Pointees) (__pagesize : BitVec 64)
    (fuel : Nat) (params : Addr) (w : Rtld) : Except Stop (Addr × Rtld) := do
  let w := { w with _rpath := first_rpath }
  let boot ← read_params sym __pagesize fuel params w
  loader_main host sym fuel (p.info boot.program_info)
    { w with _dl_pagesize := boot._dl_pagesize }

/-! ## What the checks see -/

/-- A `phnum` of 16 bits is no `int` below zero. -/
theorem phnum_check_passes (phnum : BitVec 16) :
    (phnum.setWidth 32 != (-1 : BitVec 32)) = true := by
  have hlt := phnum.isLt
  rw [bne_iff_ne]
  intro h
  have hval := congrArg BitVec.toNat h
  rw [BitVec.toNat_setWidth, show (-1 : BitVec 32).toNat = 4294967295 from rfl] at hval
  omega

/-- The entries behind the last `AT_PHDR` entry, the last one first. -/
def behindPhdr (auxv : List (BitVec 64 × BitVec 64)) : List (BitVec 64 × BitVec 64) :=
  auxv.reverse.takeWhile fun e => e.1 ≠ AT_PHDR

/-- The vector names no program headers: the last `AT_PHDR` entry, if there is
one, is NULL, and what the kernel maps itself behind it has none. -/
structure NoHeaders (sp : Space) (auxv : List (BitVec 64 × BitVec 64)) : Prop where
  phdr : ∀ v, auxv.reverse.lookup AT_PHDR = some v → v = 0
  kernel : ∀ e ∈ behindPhdr auxv, e.1 = AT_SYSINFO_EHDR →
    (sp.load64 (e.2 + 32)).map (e.2 + ·) = some 0

/-- An entry of the kernel's own headers is followed, and they cannot be read. -/
def FollowsUnmapped (sp : Space) (auxv : List (BitVec 64 × BitVec 64)) : Prop :=
  ∃ before e after, auxv = before ++ e :: after ∧ e.1 = AT_SYSINFO_EHDR ∧
    NoHeaders sp before ∧ sp.load64 (e.2 + 32) = none

section

variable {sp : Space} {auxv : List (BitVec 64 × BitVec 64)}

/-- One entry more. -/
theorem noHeaders_append (e : BitVec 64 × BitVec 64) :
    NoHeaders sp (auxv ++ [e]) ↔
      if e.1 = AT_PHDR then e.2 = 0
      else NoHeaders sp auxv ∧
        (e.1 = AT_SYSINFO_EHDR → (sp.load64 (e.2 + 32)).map (e.2 + ·) = some 0) := by
  obtain ⟨key, v⟩ := e
  have hlookup : (auxv ++ [(key, v)]).reverse.lookup AT_PHDR =
      if key = AT_PHDR then some v else auxv.reverse.lookup AT_PHDR := by
    rw [List.reverse_append, List.reverse_singleton, List.singleton_append, List.lookup_cons]
    split_ifs with h
    · simp [h]
    · rw [beq_false_of_ne (Ne.symm h)]
  have hbehind : behindPhdr (auxv ++ [(key, v)]) =
      if key = AT_PHDR then [] else (key, v) :: behindPhdr auxv := by
    unfold behindPhdr
    rw [List.reverse_append, List.reverse_singleton, List.singleton_append, List.takeWhile_cons]
    by_cases h : key = AT_PHDR <;> simp [h]
  split_ifs with h
  · constructor
    · exact fun hno => hno.phdr v (by rw [hlookup, if_pos h])
    · intro hv
      refine ⟨?_, ?_⟩
      · intro x hx
        rw [hlookup, if_pos h, Option.some.injEq] at hx
        exact hx ▸ hv
      · rw [hbehind, if_pos h]
        exact fun x hx => absurd hx List.not_mem_nil
  · rw [if_neg h] at hlookup hbehind
    constructor
    · intro hno
      have hkernel := hno.kernel
      rw [hbehind, List.forall_mem_cons] at hkernel
      exact ⟨⟨fun x hx => hno.phdr x (by rw [hlookup, hx]), hkernel.2⟩, hkernel.1⟩
    · rintro ⟨hno, hlast⟩
      refine ⟨fun x hx => hno.phdr x (by rw [← hlookup, hx]), ?_⟩
      rw [hbehind, List.forall_mem_cons]
      exact ⟨hlast, hno.kernel⟩

theorem followsUnmapped_append (e : BitVec 64 × BitVec 64) :
    FollowsUnmapped sp (auxv ++ [e]) ↔
      FollowsUnmapped sp auxv ∨
        e.1 = AT_SYSINFO_EHDR ∧ NoHeaders sp auxv ∧ sp.load64 (e.2 + 32) = none := by
  constructor
  · rintro ⟨before, e', after, heq, h⟩
    rcases List.eq_nil_or_concat after with rfl | ⟨after, e'', rfl⟩
    · obtain ⟨rfl, hlast⟩ := List.append_inj' heq rfl
      cases hlast
      exact .inr h
    · rw [List.concat_eq_append, ← List.cons_append, ← List.append_assoc] at heq
      exact .inl ⟨before, e', after, (List.append_inj' heq rfl).1, h⟩
  · rintro (⟨before, e', after, rfl, h⟩ | h)
    · exact ⟨before, e', after ++ [e], by rw [List.append_assoc, List.cons_append], h⟩
    · exact ⟨auxv, e, [], rfl, h⟩

/-- The loop over the vector follows an entry that cannot be read, or it ends, and the check of
`phdr` looks for a vector that names no program headers. -/
theorem foldlM_auxv_ends {w : Boot} (hw : w.program_info.phdr = 0) :
    (∃ w', auxv.foldlM (auxv_entry sp) w = .ok w' ∧ ¬ FollowsUnmapped sp auxv ∧
        (w'.program_info.phdr = 0 ↔ NoHeaders sp auxv)) ∨
      auxv.foldlM (auxv_entry sp) w = .error (.fault .badLoad) ∧ FollowsUnmapped sp auxv := by
  induction auxv using List.reverseRecOn with
  | nil =>
    have hnone : NoHeaders sp [] :=
      { phdr := fun v hv => nomatch hv
        kernel := fun e he => absurd he List.not_mem_nil }
    refine .inl ⟨w, rfl, ?_, iff_of_true hw hnone⟩
    rintro ⟨before, e, after, heq, _⟩
    exact absurd heq.symm (List.append_ne_nil_of_right_ne_nil _ (List.cons_ne_nil _ _))
  | append_singleton auxv e ih =>
    rw [List.foldlM_append, followsUnmapped_append, noHeaders_append]
    rcases ih with ⟨w1, hrun, hreadable, hnull⟩ | ⟨hrun, hunmapped⟩
    · rw [hrun, ← hnull]
      show (∃ w', (auxv_entry sp w1 e >>= pure) = _ ∧ _) ∨ (auxv_entry sp w1 e >>= pure) = _ ∧ _
      rw [bind_pure]
      rcases auxv_entry_stops sp w1 e with ⟨⟨w', hstep⟩, hgoes⟩ | ⟨hstep, hstops⟩
      · refine .inl ⟨w', hstep, not_or.mpr ⟨hreadable, hgoes⟩, ?_⟩
        rcases (auxv_entry.spec hstep).2 with ⟨htype, hphdr⟩ |
            ⟨htype, hzero, e_phoff, hload, hphdr⟩ | ⟨hown, hset, hphdr⟩
        · rw [if_pos htype, hphdr]
        · rw [if_neg (by rw [htype]; decide), hphdr, hload]
          simp [hzero, htype]
        · rw [if_neg hown, hphdr]
          exact ⟨fun h => ⟨h, fun htype => absurd h (hset htype)⟩, And.left⟩
      · exact .inr ⟨hstep, .inr hstops⟩
    · rw [hrun]
      exact .inr ⟨rfl, .inl hunmapped⟩

end

/-! ## What is detected -/

/-- The vector has an entry of this type. -/
def Has (auxv : List (BitVec 64 × BitVec 64)) (a_type : BitVec 64) : Prop :=
  a_type ∈ auxv.map Prod.fst

instance (auxv : List (BitVec 64 × BitVec 64)) (a_type : BitVec 64) :
    Decidable (Has auxv a_type) :=
  inferInstanceAs (Decidable (_ ∈ _))

theorem has_of_lookup {auxv : List (BitVec 64 × BitVec 64)} {a_type a_val : BitVec 64}
    (h : auxv.reverse.lookup a_type = some a_val) : Has auxv a_type := by
  obtain ⟨before, after, heq, _⟩ := List.lookup_eq_some_iff.mp h
  refine List.mem_map.mpr ⟨(a_type, a_val), ?_, rfl⟩
  rw [← List.mem_reverse, heq]
  exact List.mem_append_right _ List.mem_cons_self

/-- These are the program headers that the vector announces: its last entries say where
they are and how many. -/
structure Announces (auxv : List (BitVec 64 × BitVec 64)) (phdr : Addr) (phnum : Nat) : Prop where
  phdr : auxv.reverse.lookup AT_PHDR = some phdr
  phnum : ∃ a_val, auxv.reverse.lookup AT_PHNUM = some a_val ∧ a_val.toNat = phnum

theorem has_of_announces {auxv : List (BitVec 64 × BitVec 64)} {phdr : Addr} {phnum : Nat}
    (h : Announces auxv phdr phnum) : Has auxv AT_PHDR ∧ Has auxv AT_PHNUM :=
  ⟨has_of_lookup h.phdr, has_of_lookup h.phnum.choose_spec.1⟩

/-- Missing program headers are detected, for the stack at `params`: `loader_main`
is reached only with both entries and scans the headers that they announce, and else a check
stops the process. -/
structure Detected (host : Host) (sym : Symbols) (p : Pointees) (__pagesize : BitVec 64)
    (fuel : Nat) (params : Addr) (auxv : List (BitVec 64 × BitVec 64)) (w : Rtld) : Prop where
  reaches : ∀ boot, read_params sym __pagesize fuel params { w with _rpath := first_rpath } =
    .ok boot → Announces auxv boot.program_info.phdr boot.program_info.phnum.toNat
  stops : ¬ (Has auxv AT_PHDR ∧ Has auxv AT_PHNUM) →
    ∃ text, loader_start host sym p __pagesize fuel params w = .error (.exit (.assertion text))

/-- One of the checks that can fail stops the process. -/
structure Stopped (sp : Space) (sym : Symbols) (auxv : List (BitVec 64 × BitVec 64)) : Prop where
  readable : ¬ FollowsUnmapped sp auxv
  check : NoHeaders sp auxv ∨ (auxv.reverse.lookup AT_ENTRY).getD sym._start = 0

section

variable (sym : Symbols) (__pagesize : BitVec 64) {params : Addr} {args envs : List Addr}
  {auxv : List (BitVec 64 × BitVec 64)} {w : Rtld} {last : BitVec 64} {fuel : Nat}

/-- The process gets a signal, or one of two checks stops it, or `loader_main` is reached. -/
theorem read_params.spec (hargs : args.length < 2 ^ 31) (henvs : ∀ p ∈ envs, p ≠ 0)
    (htypes : ∀ entry ∈ auxv, entry.1 ≠ AT_NULL)
    (hstack : w.proc.space.HoldsWords params (initialStack args envs auxv last))
    (hfuel : envs.length + auxv.length < fuel) :
    FollowsUnmapped w.proc.space auxv ∧
        read_params sym __pagesize fuel params w = .error (.fault .badLoad) ∨
      Stopped w.proc.space sym auxv ∧
        (∃ text, read_params sym __pagesize fuel params w = .error (.exit (.assertion text))) ∨
      ∃ boot, read_params sym __pagesize fuel params w = .ok boot ∧
        ¬ FollowsUnmapped w.proc.space auxv ∧ ¬ Stopped w.proc.space sym auxv ∧
        boot.program_info.phdr ≠ 0 ∧
        (∀ phdr ≠ 0, auxv.reverse.lookup AT_PHDR = some phdr → boot.program_info.phdr = phdr) ∧
        boot.program_info.phnum =
          ((auxv.reverse.lookup AT_PHNUM).map (BitVec.setWidth 16)).getD (-1) := by
  let boot0 : Boot :=
    { program_info := initial_info sym, _dl_pagesize := w._dl_pagesize, __pagesize }
  have hparse := parse_params.spec hargs henvs htypes hstack hfuel boot0
  rcases foldlM_auxv_ends (show boot0.program_info.phdr = 0 from rfl)
    with ⟨w', hrun, hreadable, hnull⟩ | ⟨hrun, hunmapped⟩
  · rw [hrun] at hparse
    have hentry : w'.program_info.entry = _ := entry_of_last hrun
    let boot : Boot := { w' with
      program_info := { w'.program_info with
        argc := args.length
        argv := params + 8
        envp := params + 8 + 8 * BitVec.ofNat 64 args.length + 8 } }
    have hchecks : read_params sym __pagesize fuel params w = (do
        assert (w'.program_info.phdr != 0) "program_info->phdr != NULL"
        assert (w'.program_info.phnum.setWidth 32 != (-1 : BitVec 32)) "program_info->phnum != -1"
        assert (w'.program_info.entry != 0) "program_info->entry != 0"
        .ok boot) := by
      rw [read_params, hparse]
      rfl
    rw [(assert_eq_ok (u := ())).mpr (phnum_check_passes w'.program_info.phnum)] at hchecks
    right
    by_cases hphdr : w'.program_info.phdr = 0
    · rw [hphdr] at hchecks
      exact .inl ⟨⟨hreadable, .inl (hnull.mp hphdr)⟩, _, hchecks⟩
    · rw [assert_not_null hphdr] at hchecks
      by_cases hzero : w'.program_info.entry = 0
      · rw [hzero] at hchecks
        exact .inl ⟨⟨hreadable, .inr (hentry.symm.trans hzero)⟩, _, hchecks⟩
      · rw [assert_not_null hzero] at hchecks
        refine .inr ⟨boot, hchecks, hreadable, ?_, hphdr, ?_, phnum_of_last hrun⟩
        · exact fun h => h.check.elim (mt hnull.mpr hphdr) fun h => hzero (hentry.trans h)
        · intro phdr hne hlast
          have hset : w'.program_info.phdr = phdr := phdr_of_last (.inl hne) hlast hrun
          exact hset
  · refine .inl ⟨hunmapped, ?_⟩
    rw [read_params, hparse, hrun]
    rfl

end

/-- The headers that are scanned are those of the vector if both entries are there, the address
is not NULL and the number has 16 bits. Else the process must be stopped before: by one of the
other checks, or, with both entries, by a signal. -/
theorem missing_program_headers_are_detected_iff (host : Host) (sym : Symbols) (p : Pointees)
    (__pagesize : BitVec 64) (fuel : Nat) (params : Addr) (w : Rtld) (args envs : List Addr)
    (auxv : List (BitVec 64 × BitVec 64)) (last : BitVec 64) (hargs : args.length < 2 ^ 31)
    (henvs : ∀ p ∈ envs, p ≠ 0) (htypes : ∀ entry ∈ auxv, entry.1 ≠ AT_NULL)
    (hstack : w.proc.space.HoldsWords params (initialStack args envs auxv last))
    (hfuel : envs.length + auxv.length < fuel) :
    Detected host sym p __pagesize fuel params auxv w ↔
      (∃ phdr phnum, Announces auxv phdr phnum ∧ phdr ≠ 0 ∧ phnum < 2 ^ 16) ∨
        Stopped w.proc.space sym auxv ∨
        FollowsUnmapped w.proc.space auxv ∧ Has auxv AT_PHDR ∧ Has auxv AT_PHNUM := by
  have hread := read_params.spec (w := { w with _rpath := first_rpath }) sym __pagesize hargs henvs
    htypes hstack hfuel
  have hstart : ∀ e, read_params sym __pagesize fuel params { w with _rpath := first_rpath } =
      .error e → loader_start host sym p __pagesize fuel params w = .error e := by
    intro e he
    simp only [loader_start, he]
    rfl
  rcases hread with ⟨hunmapped, hsignal⟩ | ⟨hstopped, text, hexit⟩ |
      ⟨boot, hok, hreadable, hpasses, hnonzero, hphdr, hphnum⟩
  · -- a signal: both entries have to be there
    constructor
    · intro h
      by_cases hhas : Has auxv AT_PHDR ∧ Has auxv AT_PHNUM
      · exact .inr (.inr ⟨hunmapped, hhas⟩)
      · obtain ⟨text, hexit⟩ := h.stops hhas
        rw [hstart _ hsignal] at hexit
        cases hexit
    · intro h
      have hhas : Has auxv AT_PHDR ∧ Has auxv AT_PHNUM := by
        rcases h with ⟨phdr, phnum, hannounces, _⟩ | hstopped | ⟨_, hhas⟩
        · exact has_of_announces hannounces
        · exact absurd hunmapped hstopped.readable
        · exact hhas
      exact {
        reaches := fun boot hok => by
          rw [hsignal] at hok
          cases hok
        stops := fun hmissing => absurd hhas hmissing }
  · -- a check that fails
    refine iff_of_true ?_ (.inr (.inl hstopped))
    exact {
      reaches := fun boot hok => by
        rw [hexit] at hok
        cases hok
      stops := fun _ => ⟨text, hstart _ hexit⟩ }
  · -- `loader_main`: the headers are those of the last entries
    constructor
    · intro h
      have hannounces := h.reaches boot hok
      exact .inl ⟨_, _, hannounces, hnonzero, boot.program_info.phnum.isLt⟩
    · rintro (⟨phdr, phnum, hannounces, hne, hlt⟩ | hstopped | ⟨hunmapped, _⟩)
      · exact {
          reaches := fun boot' hok' => by
            rw [hok] at hok'
            cases hok'
            obtain ⟨a_val, hlast, hval⟩ := hannounces.phnum
            rw [hlast] at hphnum
            refine ⟨hannounces.phdr.trans (congrArg some (hphdr phdr hne hannounces.phdr).symm),
              a_val, hlast, ?_⟩
            rw [hphnum, Option.map_some, Option.getD_some, BitVec.toNat_setWidth]
            exact (Nat.mod_eq_of_lt (by omega)).symm
          stops := fun hmissing => absurd (has_of_announces hannounces) hmissing }
      · exact absurd hstopped hpasses
      · exact absurd hunmapped hreadable

/-- A process with a stack at 0x1000, without arguments and environment. -/
def stackWorld (auxv : List (BitVec 64 × BitVec 64)) : Rtld :=
  { programWorld with
    proc := { programWorld.proc with space := spaceOf (initialStack [] [] auxv 0) } }

def noPointees : Pointees where
  argv1 := fun _ => none
  image := fun _ => plainImage

theorem the_usual_vector_has_what_it_takes :
    (stackWorld usualAuxv).proc.space.HoldsWords 0x1000 (initialStack [] [] usualAuxv 0) ∧
      Detected programHost loaderSymbols noPointees 0x4000 8 0x1000 usualAuxv
        (stackWorld usualAuxv) := by
  have hstack : (stackWorld usualAuxv).proc.space.HoldsWords 0x1000
      (initialStack [] [] usualAuxv 0) := by
    decide +kernel
  have hannounces : Announces usualAuxv 0x400040 9 := ⟨by decide, 9, by decide, by decide⟩
  have hiff := missing_program_headers_are_detected_iff programHost loaderSymbols noPointees 0x4000
    8 0x1000 (stackWorld usualAuxv) [] [] usualAuxv 0 (by decide) (by simp)
    (by simp [usualAuxv]) hstack (by decide)
  exact ⟨hstack, hiff.mpr (.inl ⟨_, _, hannounces, by decide, by decide⟩)⟩

/-- Without `AT_PHNUM` there are 65535 program headers, and without `AT_PHDR`
those that the kernel maps itself are taken. These are taken, too, for an
`AT_PHDR` entry with the address 0, and 65538 headers become two. -/
theorem missing_program_headers_are_not_always_detected :
    let NotDetected (auxv : List (BitVec 64 × BitVec 64)) : Prop :=
      ¬ Detected programHost loaderSymbols noPointees 0x4000 8 0x1000 auxv (stackWorld auxv)
    NotDetected [(AT_PHDR, 0x400040), (AT_ENTRY, 0x400500)] ∧
      NotDetected [(AT_SYSINFO_EHDR, 0x7000), (AT_PHNUM, 2)] ∧
      NotDetected [(AT_PHDR, 0), (AT_SYSINFO_EHDR, 0x7000), (AT_PHNUM, 2)] ∧
      NotDetected [(AT_PHDR, 0x400040), (AT_PHNUM, 0x10002)] := by
  have hreached : ∀ auxv : List (BitVec 64 × BitVec 64), ∀ pi : Addr × BitVec 16,
      (read_params loaderSymbols 0x4000 8 0x1000 { stackWorld auxv with _rpath := first_rpath }).map
        (fun boot => (boot.program_info.phdr, boot.program_info.phnum)) = .ok pi →
      ¬ Announces auxv pi.1 pi.2.toNat →
      ¬ Detected programHost loaderSymbols noPointees 0x4000 8 0x1000 auxv (stackWorld auxv) := by
    intro auxv pi hok hothers hdetected
    cases hboot : read_params loaderSymbols 0x4000 8 0x1000
        { stackWorld auxv with _rpath := first_rpath } with
    | error e =>
      rw [hboot] at hok
      cases hok
    | ok boot =>
      rw [hboot] at hok
      cases hok
      exact hothers (hdetected.reaches boot hboot)
  refine ⟨hreached _ (0x400040, 0xffff) (by decide +kernel) ?_,
    hreached _ (0x7000, 2) (by decide +kernel) ?_, hreached _ (0x7000, 2) (by decide +kernel) ?_,
    hreached _ (0x400040, 2) (by decide +kernel) ?_⟩
  · rintro ⟨_, a_val, hlast, _⟩
    exact absurd (has_of_lookup hlast) (by decide)
  · rintro ⟨hlast, _⟩
    exact absurd (has_of_lookup hlast) (by decide)
  · rintro ⟨hlast, _⟩
    exact absurd hlast (by decide)
  · rintro ⟨_, a_val, hlast, hval⟩
    cases hlast
    exact absurd hval (by decide)

end elf_loader.rtld
