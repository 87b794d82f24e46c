-- What becomes of a mapping call that fails. The kernel gives `-errno`, the
-- loader compares the result of `mmap` with MAP_FAILED, which is -1, and
-- there are two calls whose result it never looks at.
import BinaryLab.Deps

set_option linter.style.nameCheck false

open binary_lab.runs binary_lab.words binary_lab.pages

namespace elf_loader

/-- The exit is through `dprintf_die`. The others are `dputs_die`, `assert` and `emalloc`. -/
def Exit.ByDprintfDie : Exit → Prop
  | .libraryNotFound _ | .symbolNotFound _ | .unknownRelocType _ | .pltrelNotRela
  | .unsupportedElfType _ | .readError | .readFailed
  | .mmapFailed | .mmapZeroFillFailed | .mprotectFailed => True
  | .assertion _ | .auxiliaryNotSupported | .filterNotSupported | .tlsNotImplemented
  | .mallocFailed => False

def Stop.ByDprintfDie : Stop → Prop
  | .exit e => e.ByDprintfDie
  | .fault _ | .endless => False

end elf_loader

namespace elf_loader.load

/-! ## The calls of a run -/

/-- The place of a mapping call in the source. -/
inductive CallSite
  /-- The `mmap` of an `ET_DYN` object in one piece. -/
  | span
  /-- The `__mprotect` of what lies between the segments. -/
  | holes
  /-- The `mmap` of the file pages of a segment. -/
  | segment
  /-- The `__mprotect` before and after the `memset`. -/
  | tail
  /-- The `mmap` of zero pages. -/
  | zeros
deriving DecidableEq

/-- A call that was issued: where, for which address, and the answer. -/
structure Issued where
  site : CallSite
  addr : Addr
  answer : Answer

def Issued.Fails (c : Issued) : Prop := ∃ errno, c.answer = .failed errno

instance (c : Issued) : Decidable c.Fails :=
  match h : c.answer with
  | .failed errno => isTrue ⟨errno, h⟩
  | .done _ => isFalse fun ⟨_, herrno⟩ => by cases h.symm.trans herrno

/-- The loader looks at the result of the call and takes it for a failure. A
failed `mmap` has to be refused with errno 1 for that, and one that is done
would have to be done at MAP_FAILED itself. -/
def Issued.Seen (c : Issued) : Prop :=
  match c.site, c.answer with
  | .tail, .failed _ => True
  | .segment, .failed errno | .zeros, .failed errno => errno.1 = 1
  | .segment, .done _ | .zeros, .done _ => c.addr = MAP_FAILED
  | _, _ => False

def clear_tail_issued (kern : Kernel) (ps : Addr) (prot : Prot) (zero zeropage : Addr) (s : Proc) :
    List Issued :=
  if prot.write then []
  else
    let (r, s1) := __mprotect kern ps (alignDown ps zero) ps { prot with write := true } s
    ⟨.tail, alignDown ps zero, kern s.calls⟩ ::
      if r < 0 then []
      else afterwards (memset zero 0 (zeropage - zero).toNat s1) fun s2 =>
        [⟨.tail, alignDown ps zero, kern s2.calls⟩]

def zero_tail_issued (kern : Kernel) (ps : Addr) (prot : Prot) (zero zeropage : Addr) (s : Proc) :
    List Issued :=
  if zero < zeropage then clear_tail_issued kern ps prot zero zeropage s else []

def zero_pages_issued (kern : Kernel) (zeropage zeroend : Addr) (s : Proc) : List Issued :=
  if zeropage < zeroend then [⟨.zeros, zeropage, kern s.calls⟩] else []

def zero_fill_issued (kern : Kernel) (ps : Addr) (prot : Prot) (zero zeroend : Addr) (s : Proc) :
    List Issued :=
  let zeropage := alignUp ps zero
  let zeropage := if zeroend < zeropage then zeroend else zeropage
  zero_tail_issued kern ps prot zero zeropage s ++
    afterwards (zero_tail kern ps prot zero zeropage s) (zero_pages_issued kern zeropage zeroend)

def postmap_body_issued (kern : Kernel) (ps : Addr) (header : Ehdr) (c : Loadcmd) (l : LinkMap)
    (s : Proc) : List Issued :=
  let l := note_segment header c l
  if c.dataend < c.allocend then
    zero_fill_issued kern ps c.prot (l.l_addr + c.dataend) (l.l_addr + c.allocend) s
  else []

def map_pages_issued (kern : Kernel) (c : Loadcmd) (l : LinkMap) (s : Proc) : List Issued :=
  if c.mapstart < c.mapend then [⟨.segment, l.l_addr + c.mapstart, kern s.calls⟩] else []

def loadcmd_loop_issued (kern : Kernel) (ps : Addr) (file : List Byte) (header : Ehdr)
    (l : LinkMap) (s : Proc) : List Loadcmd → List Issued
  | [] => []
  | c :: cs => map_pages_issued kern c l s ++
      afterwards (map_pages kern ps file c l s) fun s =>
        postmap_body_issued kern ps header c l s ++
          afterwards (postmap_body kern ps header c l s) fun (l, s) =>
            loadcmd_loop_issued kern ps file header l s cs

def map_object_loadcmd_issued (kern : Kernel) (ps : Addr) (file : List Byte) (header : Ehdr)
    (loadcmds : List Loadcmd) (maplength : BitVec 64) (has_holes postmap : Bool) (l : LinkMap)
    (s : Proc) : List Issued :=
  match loadcmds with
  | [] => []
  | c :: cs =>
    if postmap then
      postmap_body_issued kern ps header c l s ++
        afterwards (postmap_body kern ps header c l s) fun (l, s) =>
          loadcmd_loop_issued kern ps file header l s cs
    else
      let l_map_start := c.mapstart + l.l_addr
      let l := { l with
        l_map_start
        l_map_end := l_map_start + maplength
        l_contiguous := !has_holes }
      loadcmd_loop_issued kern ps file header l s (c :: cs)

def map_segments_issued (kern : Kernel) (ps : Addr) (file : List Byte) (header : Ehdr)
    (phdr : List Phdr) (l : LinkMap) (s : Proc) : List Issued :=
  afterwards (parse_phdr ps l phdr) fun st =>
    match st.loadcmds.head?, st.loadcmds.getLast? with
    | some c, some last =>
      let maplength := last.allocend - c.mapstart
      if header.e_type = ET_DYN then
        let (l_map_start, s1) := mmap kern ps none maplength c.prot (some (file, 0)) s
        let l := { st.l with
          l_map_start
          l_map_end := l_map_start + maplength
          l_addr := l_map_start - c.mapstart
          l_contiguous := true }
        let s2 := if st.has_holes then
            (__mprotect kern ps (l.l_addr + c.mapend) (last.mapstart - c.mapend) PROT_NONE s1).2
          else s1
        ⟨.span, 0, kern s.calls⟩ ::
          ((if st.has_holes then [⟨.holes, l.l_addr + c.mapend, kern s1.calls⟩] else []) ++
            map_object_loadcmd_issued kern ps file header st.loadcmds maplength st.has_holes true
              l s2)
      else
        map_object_loadcmd_issued kern ps file header st.loadcmds maplength st.has_holes false
          st.l s
    | _, _ => []

/-- The mapping calls that `map_object_fd` issues for a file, in order. -/
def map_object_fd_issued (host : Host) (file : File) (w : Rtld) : List Issued :=
  let p := w.maps.length
  match __read file 0 FILEBUF_SIZE with
  | none => []
  | some got =>
    let fb := filled got (host.stack p)
    let header := ehdrOf fb
    if header.e_type ≠ ET_DYN ∧ header.e_type ≠ ET_EXEC then []
    else
      afterwards (fetch_phdr (host.alloca p) file fb got.length header) fun phdr =>
        let l := init_link_map (host.heap p) file.image
        let l := { l with l_entry := header.e_entry, l_phnum := header.e_phnum }
        map_segments_issued host.kern w._dl_pagesize file.bytes header phdr l w.proc

/-! ## The log of a computation -/

/-- `issued` are the calls of the computation `x`, from call `n` on. It ends
in `dprintf_die` just if the loader takes one of them for a failure. -/
structure Logs {α : Type} (kern : Kernel) (n : Nat) (x : Except Stop α) (calls : α → Nat)
    (issued : List Issued) : Prop where
  dies : (∃ e, x = .error e ∧ e.ByDprintfDie) ↔ ∃ c ∈ issued, c.Seen
  asked : issued.map Issued.answer = (List.range' n issued.length).map kern
  counted : ∀ a, x = .ok a → calls a = n + issued.length

section

variable {α β : Type} {kern : Kernel} {n : Nat} {calls : α → Nat} {calls' : β → Nat}
  {issued rest : List Issued} {c : Issued}

/-- A computation without calls. -/
theorem Logs.quiet {x : Except Stop α} (hx : StopsIn (fun e => ¬ e.ByDprintfDie) x)
    (hcalls : ∀ a, x = .ok a → calls a = n) : Logs kern n x calls [] where
  dies := by
    simp only [List.not_mem_nil, false_and, exists_false, iff_false]
    rintro ⟨e, he, hdies⟩
    exact hx e he hdies
  asked := rfl
  counted := hcalls

theorem Logs.bind {x : Except Stop α} {f : α → Except Stop β} {rest : α → List Issued}
    (hx : Logs kern n x calls issued)
    (hf : ∀ a, x = .ok a → Logs kern (calls a) (f a) calls' (rest a)) :
    Logs kern n (x >>= f) calls' (issued ++ afterwards x rest) := by
  cases x with
  | error e =>
    rw [afterwards, List.append_nil]
    refine ⟨?_, hx.asked, ?_⟩
    · rw [show (Except.error e >>= f) = .error e from rfl, ← hx.dies]
      simp
    · intro b hb
      cases hb
  | ok a =>
    have hrest := hf a rfl
    have hunseen : ¬ ∃ c ∈ issued, c.Seen := by
      rw [← hx.dies]
      simp
    have hn := hx.counted a rfl
    refine ⟨?_, ?_, ?_⟩
    · have hsplit : (∃ c ∈ issued ++ rest a, c.Seen) ↔ ∃ c ∈ rest a, c.Seen := by
        simp only [List.mem_append, or_and_right, exists_or, hunseen, false_or]
      rw [afterwards, hsplit, ← hrest.dies]
      rfl
    · rw [afterwards, List.map_append, hx.asked, hrest.asked, hn, List.length_append,
        ← List.map_append, List.range'_append_1]
    · intro b hb
      rw [afterwards, List.length_append, ← Nat.add_assoc, ← hn]
      exact hrest.counted b hb

/-- A call that the loader does not take for a failure, and what comes after it. -/
theorem Logs.unseen {x : Except Stop α} (hc : c.answer = kern n) (hseen : ¬ c.Seen)
    (hx : Logs kern (n + 1) x calls rest) : Logs kern n x calls (c :: rest) where
  dies := by simp [hx.dies, hseen]
  asked := by
    rw [List.map_cons, hx.asked, hc, List.length_cons, List.range'_succ]
    rfl
  counted := by
    intro a ha
    rw [hx.counted a ha, List.length_cons]
    omega

/-- A call, the check of its result and what comes after it. -/
theorem Logs.check {cond : Prop} [Decidable cond] {x : Except Stop α} {e : Stop}
    (hc : c.answer = kern n) (hcond : cond ↔ c.Seen) (he : e.ByDprintfDie)
    (hx : ¬ cond → Logs kern (n + 1) x calls rest) :
    Logs kern n (if cond then .error e else x) calls (c :: if cond then [] else rest) := by
  by_cases h : cond
  · rw [if_pos h, if_pos h]
    refine ⟨?_, by simp [hc], ?_⟩
    · simp [hcond.mp h, he]
    · intro a ha
      cases ha
  · rw [if_neg h, if_neg h]
    exact .unseen hc (mt hcond.mpr h) (hx h)

theorem Logs.done (a : α) (ha : calls a = n) : Logs kern n (.ok a) calls [] := by
  refine .quiet (.ok a) ?_
  rintro _ ⟨⟩
  exact ha

theorem Logs.fault (f : Fault) : Logs kern n (.error (.fault f)) calls [] :=
  .quiet (.error (by simp [Stop.ByDprintfDie])) fun a ha => by cases ha

theorem Logs.renumber {m : Nat} {x : Except Stop α} (hx : Logs kern m x calls issued)
    (hm : m = n) : Logs kern n x calls issued := hm ▸ hx

/-- What comes after the calls makes none. -/
theorem Logs.then_quiet {x : Except Stop α} {f : α → Except Stop β}
    (hx : Logs kern n x calls issued)
    (hf : ∀ a, x = .ok a → Logs kern (calls a) (f a) calls' []) :
    Logs kern n (x >>= f) calls' issued := by
  have hbind := hx.bind hf
  cases x with
  | error e => rwa [afterwards, List.append_nil] at hbind
  | ok a => rwa [afterwards, List.append_nil] at hbind

/-- A call and the check of its result, with nothing after it. -/
theorem Logs.last {cond : Prop} [Decidable cond] {a : α} {e : Stop} (hc : c.answer = kern n)
    (hcond : cond ↔ c.Seen) (he : e.ByDprintfDie) (ha : calls a = n + 1) :
    Logs kern n (if cond then .error e else .ok a) calls [c] := by
  have hcheck := Logs.check hc hcond he fun _ => Logs.done a ha
  rwa [ite_self] at hcheck

end

/-! ## The logs of the mapping -/

section

variable (kern : Kernel) (ps : Addr)

@[simp] theorem __mprotect_calls (addr : Addr) (len : BitVec 64) (prot : Prot) (s : Proc) :
    (__mprotect kern ps addr len prot s).2.calls = s.calls + 1 := by
  unfold __mprotect
  split <;> rfl

@[simp] theorem mmap_calls (start : Option Addr) (length : BitVec 64) (prot : Prot)
    (src : Option (List Byte × BitVec 64)) (s : Proc) :
    (mmap kern ps start length prot src s).2.calls = s.calls + 1 := by
  unfold mmap
  split <;> rfl

theorem memset_calls {a : Addr} {v : Byte} {n : Nat} {s s' : Proc} (h : memset a v n s = .ok s') :
    s'.calls = s.calls := by
  unfold memset at h
  split at h
  · cases h
    rfl
  · cases h

/-- The result of a failed `__mprotect` is negative, and no other one. -/
theorem __mprotect_seen (addr : Addr) (len : BitVec 64) (prot : Prot) (s : Proc) (a : Addr) :
    (__mprotect kern ps addr len prot s).1 < 0 ↔ Issued.Seen ⟨.tail, a, kern s.calls⟩ := by
  unfold __mprotect Issued.Seen
  cases kern s.calls with
  | done base => simp
  | failed errno =>
    have hpos := errno.2.1
    simp only [iff_true]
    omega

/-- The negative of an error number is MAP_FAILED for errno 1 only. -/
theorem neg_errno_eq_MAP_FAILED (errno : Errno) :
    -(BitVec.ofNat 64 errno.1) = MAP_FAILED ↔ errno.1 = 1 := by
  obtain ⟨n, hpos, hle⟩ := errno
  have hsmall : n % 2 ^ 64 = n := Nat.mod_eq_of_lt (by omega)
  rw [← BitVec.toNat_inj, BitVec.toNat_neg, BitVec.toNat_ofNat, hsmall, BitVec.toNat_allOnes]
  show (2 ^ 64 - n) % 2 ^ 64 = 2 ^ 64 - 1 ↔ n = 1
  omega

theorem mmap_segment_seen (addr : Addr) (length : BitVec 64) (prot : Prot)
    (src : Option (List Byte × BitVec 64)) (s : Proc) :
    (mmap kern ps (some addr) length prot src s).1 = MAP_FAILED ↔
      Issued.Seen ⟨.segment, addr, kern s.calls⟩ := by
  unfold mmap Issued.Seen
  cases kern s.calls with
  | done base => simp
  | failed errno => exact neg_errno_eq_MAP_FAILED errno

theorem seen_zeros_iff (addr : Addr) (answer : Answer) :
    Issued.Seen ⟨.zeros, addr, answer⟩ ↔ Issued.Seen ⟨.segment, addr, answer⟩ := by
  cases answer <;> rfl

theorem memset_logs (a : Addr) (v : Byte) (n : Nat) (s : Proc) :
    Logs kern s.calls (memset a v n s) Proc.calls [] := by
  refine .quiet ?_ fun s' h => memset_calls h
  unfold memset
  split
  · exact .ok _
  · exact .error (by simp [Stop.ByDprintfDie])

theorem clear_tail_logs (prot : Prot) (zero zeropage : Addr) (s : Proc) :
    Logs kern s.calls (clear_tail kern ps prot zero zeropage s) Proc.calls
      (clear_tail_issued kern ps prot zero zeropage s) := by
  unfold clear_tail clear_tail_issued
  split_ifs
  · exact memset_logs kern _ _ _ _
  · have hseen := __mprotect_seen kern ps (alignDown ps zero) ps
      { prot with write := true } s (alignDown ps zero)
    have hcalls := __mprotect_calls kern ps (alignDown ps zero) ps
      { prot with write := true } s
    cases hfirst : __mprotect kern ps (alignDown ps zero) ps { prot with write := true } s with
    | mk r s1 =>
      rw [hfirst] at hseen hcalls
      refine .check rfl hseen trivial fun _ => ?_
      rw [← hcalls]
      refine (memset_logs kern zero 0 (zeropage - zero).toNat s1).bind fun s2 _ => ?_
      exact .last rfl (__mprotect_seen _ _ _ _ _ _ _) trivial (__mprotect_calls _ _ _ _ _ _)

theorem zero_tail_logs (prot : Prot) (zero zeropage : Addr) (s : Proc) :
    Logs kern s.calls (zero_tail kern ps prot zero zeropage s) Proc.calls
      (zero_tail_issued kern ps prot zero zeropage s) := by
  unfold zero_tail zero_tail_issued
  split_ifs
  · exact clear_tail_logs kern ps prot zero zeropage s
  · exact .done s rfl

theorem zero_pages_logs (prot : Prot) (zeropage zeroend : Addr) (s : Proc) :
    Logs kern s.calls (zero_pages kern ps prot zeropage zeroend s) Proc.calls
      (zero_pages_issued kern zeropage zeroend s) := by
  unfold zero_pages zero_pages_issued
  split_ifs
  · refine .last rfl ?_ trivial (mmap_calls _ _ _ _ _ _ _)
    rw [seen_zeros_iff]
    exact mmap_segment_seen _ _ _ _ _ _ _
  · exact .done s rfl

theorem zero_fill_logs (prot : Prot) (zero zeroend : Addr) (s : Proc) :
    Logs kern s.calls (zero_fill kern ps prot zero zeroend s) Proc.calls
      (zero_fill_issued kern ps prot zero zeroend s) :=
  (zero_tail_logs kern ps prot zero _ s).bind fun s1 _ =>
    zero_pages_logs kern ps prot _ zeroend s1

theorem postmap_body_logs (header : Ehdr) (c : Loadcmd) (l : LinkMap) (s : Proc) :
    Logs kern s.calls (postmap_body kern ps header c l s) (fun r => r.2.calls)
      (postmap_body_issued kern ps header c l s) := by
  unfold postmap_body postmap_body_issued
  split_ifs
  · exact (zero_fill_logs kern ps c.prot _ _ s).then_quiet fun s1 _ => .done _ rfl
  · exact .done _ rfl

theorem map_pages_logs (file : List Byte) (c : Loadcmd) (l : LinkMap) (s : Proc) :
    Logs kern s.calls (map_pages kern ps file c l s) Proc.calls (map_pages_issued kern c l s) := by
  unfold map_pages map_pages_issued
  split_ifs
  · exact .last rfl (mmap_segment_seen _ _ _ _ _ _ _) trivial (mmap_calls _ _ _ _ _ _ _)
  · exact .done s rfl

theorem loadcmd_loop_logs (file : List Byte) (header : Ehdr) (l : LinkMap) (s : Proc)
    (cs : List Loadcmd) :
    Logs kern s.calls (loadcmd_loop kern ps file header l s cs) (fun r => r.2.calls)
      (loadcmd_loop_issued kern ps file header l s cs) := by
  induction cs generalizing l s with
  | nil => exact .done _ rfl
  | cons c cs ih =>
    refine (map_pages_logs kern ps file c l s).bind fun s1 _ => ?_
    exact (postmap_body_logs kern ps header c l s1).bind fun r _ => ih r.1 r.2

theorem map_object_loadcmd_logs (file : List Byte) (header : Ehdr) (loadcmds : List Loadcmd)
    (maplength : BitVec 64) (has_holes postmap : Bool) (l : LinkMap) (s : Proc) :
    Logs kern s.calls
      (map_object_loadcmd kern ps file header loadcmds maplength has_holes postmap l s)
      (fun r => r.2.calls)
      (map_object_loadcmd_issued kern ps file header loadcmds maplength has_holes postmap l s) := by
  cases loadcmds with
  | nil => exact .fault _
  | cons c cs =>
    unfold map_object_loadcmd map_object_loadcmd_issued
    split_ifs
    · exact (postmap_body_logs kern ps header c l s).bind fun r _ =>
        loadcmd_loop_logs kern ps file header r.1 r.2 cs
    · exact loadcmd_loop_logs kern ps file header _ s (c :: cs)

theorem parse_phdr_loop_stops {P : Stop → Prop} (hassert : ∀ text, P (.exit (.assertion text)))
    (st : PhdrState) (phs : List Phdr) : StopsIn P (parse_phdr_loop ps st phs) := by
  induction phs generalizing st with
  | nil => exact .ok st
  | cons ph phs ih =>
    refine StopsIn.bind ?_ ih
    refine .ite ?_ (.ite (.ok _) (.ite (.ok _) (.ok _)))
    refine .bind (.ite (.ok _) (.error (hassert _))) fun _ => ?_
    exact .bind (.ite (.ok _) (.error (hassert _))) fun _ => .ok _

theorem map_segments_logs (file : List Byte) (header : Ehdr) (phdr : List Phdr) (l : LinkMap)
    (s : Proc) :
    Logs kern s.calls (map_segments kern ps file header phdr l s) (fun r => r.2.calls)
      (map_segments_issued kern ps file header phdr l s) := by
  unfold map_segments map_segments_issued
  have hparse : Logs kern s.calls (parse_phdr ps l phdr) (fun _ => s.calls) [] :=
    .quiet (parse_phdr_loop_stops ps (fun _ => id) _ phdr) fun _ _ => rfl
  refine hparse.bind fun st _ => ?_
  cases st.loadcmds.head? with
  | none => exact .fault _
  | some c =>
    cases st.loadcmds.getLast? with
    | none => exact .fault _
    | some last =>
      simp only
      -- Neither the answer for the whole object nor the one for the holes is looked at.
      split_ifs
      · refine .unseen rfl id (.unseen (by simp) id ?_)
        exact (map_object_loadcmd_logs kern ps file header st.loadcmds _ st.has_holes true _
          _).renumber (by simp)
      · refine .unseen rfl id ?_
        exact (map_object_loadcmd_logs kern ps file header st.loadcmds _ st.has_holes true _
          _).renumber (by simp)
      · exact map_object_loadcmd_logs kern ps file header st.loadcmds _ st.has_holes false st.l s

end

/-- `parse_dynamic` has its own exits, and none is through `dprintf_die`. -/
theorem parser_does_not_die : ParserStops fun e => ¬ e.ByDprintfDie := by
  constructor <;> simp [Stop.ByDprintfDie, Exit.ByDprintfDie]

theorem load_object_logs (host : Host) (file : File) (realname : CString) (header : Ehdr)
    (phdr : List Phdr) (l : LinkMap) (w : Rtld) :
    Logs host.kern w.proc.calls (load_object host file realname header phdr l w)
      (fun r => r.2.2.calls)
      (map_segments_issued host.kern w._dl_pagesize file.bytes header phdr
        { l with l_entry := header.e_entry, l_phnum := header.e_phnum } w.proc) := by
  unfold load_object
  refine (map_segments_logs host.kern w._dl_pagesize file.bytes header phdr _ w.proc).then_quiet ?_
  rintro ⟨l1, proc⟩ _
  refine .quiet (.bind (parse_dynamic_stops parser_does_not_die id _ _ _) fun _ => .ok _) ?_
  intro r hr
  simp only [bind_eq_ok] at hr
  obtain ⟨⟨l2, rpath⟩, _, hr⟩ := hr
  cases hr
  rfl

/-- `map_object_fd` stops before the first call, or its calls are those of the log. -/
theorem map_object_fd_cases (host : Host) (file : File) (realname : CString) (w : Rtld) :
    (map_object_fd_issued host file w = [] ∧
      ∃ e, map_object_fd host file realname w = .error e) ∨
    Logs host.kern w.proc.calls (map_object_fd host file realname w) (fun r => r.2.proc.calls)
      (map_object_fd_issued host file w) := by
  unfold map_object_fd map_object_fd_issued
  cases __read file 0 FILEBUF_SIZE with
  | none => exact Or.inl ⟨rfl, _, rfl⟩
  | some got =>
    simp only
    split_ifs
    · exact Or.inl ⟨rfl, _, rfl⟩
    · cases fetch_phdr (host.alloca w.maps.length) file (filled got (host.stack w.maps.length))
        got.length (ehdrOf (filled got (host.stack w.maps.length))) with
      | error e => exact Or.inl ⟨rfl, e, rfl⟩
      | ok phdr => exact Or.inr ((load_object_logs host file realname _ phdr _ w).then_quiet
          fun r _ => .done _ rfl)

/-- The log has every call: the answers in it are those that the kernel gives,
one after the other, and when `map_object_fd` returns it has made no others. -/
theorem map_object_fd_log_is_complete (host : Host) (file : File) (realname : CString) (w : Rtld) :
    (map_object_fd_issued host file w).map Issued.answer =
        (List.range' w.proc.calls (map_object_fd_issued host file w).length).map host.kern ∧
      ∀ p w', map_object_fd host file realname w = .ok (p, w') →
        w'.proc.calls = w.proc.calls + (map_object_fd_issued host file w).length := by
  rcases map_object_fd_cases host file realname w with ⟨hnone, e, he⟩ | hlogs
  · simp [hnone, he]
  · exact ⟨hlogs.asked, fun p w' h => hlogs.counted _ h⟩

/-- A failed mapping call ends the loader through `dprintf_die` if and only if
one of the calls is checked, and its failure is one that the check can see. -/
theorem mapping_failures_are_fatal_iff_one_is_seen (host : Host) (file : File)
    (realname : CString) (w : Rtld) :
    ((∃ c ∈ map_object_fd_issued host file w, c.Fails) →
      ∃ e, map_object_fd host file realname w = .error e ∧ e.ByDprintfDie) ↔
    (∀ c ∈ map_object_fd_issued host file w, ¬ c.Fails) ∨
      ∃ c ∈ map_object_fd_issued host file w, c.Seen := by
  rcases map_object_fd_cases host file realname w with ⟨hnone, _⟩ | hlogs
  · simp [hnone]
  · rw [← hlogs.dies, imp_iff_not_or]
    simp only [not_exists, not_and]

/-- A shared object with a segment of zeros behind its text. -/
def bssHeader : Ehdr := { libraryHeader with e_phnum := 3 }

def bssText : Phdr := { libraryText with p_filesz := 312, p_memsz := 312 }

def bssZeros : Phdr where
  p_type := PT_LOAD
  p_flags := PF_R ||| PF_W
  p_offset := 0
  p_vaddr := 0x1000
  p_filesz := 0
  p_memsz := 0x1000
  p_align := 0x1000

def bssDynamic : Phdr :=
  { libraryDynamic with p_offset := 232, p_vaddr := 232, p_filesz := 48, p_memsz := 48 }

/-- Its dynamic section: a string table and a symbol table, and `DT_NULL`. -/
def bssImage : Image :=
  { emptyImage with
    dynamic := [⟨DT_STRTAB, 280⟩, ⟨DT_SYMTAB, 288⟩]
    strtab := [0] }

def bssFile : File where
  readable := true
  bytes := ehdrBytes bssHeader ++ phdrBytes bssText ++ phdrBytes bssZeros ++
    phdrBytes bssDynamic ++ leBytes 8 DT_STRTAB ++ leBytes 8 280 ++ leBytes 8 DT_SYMTAB ++
    leBytes 8 288 ++ List.replicate 48 0
  image := bssImage

/-- There is no memory for the zero pages (`ENOMEM`). -/
def fullHost : Host where
  kern := fun n => if n = 1 then .failed ⟨12, by decide⟩ else .done 0x1000
  fs := []
  heap := fun _ => 0x5000
  stack := fun _ _ => 0
  alloca := fun _ _ => 0
  reads := fun _ _ s => s
  keeps := fun _ _ _ _ => rfl

def emptyWorld : Rtld where
  _dl_pagesize := 0x1000
  _dl_stack_flags := 0
  _namespace := none
  _rpath := []
  maps := []
  proc := emptyProc

/-- The `mmap` of the zero pages fails with -12, which is not -1, and
`map_object_fd` returns a map. -/
theorem a_failed_zero_fill_is_ignored :
    (∃ c ∈ map_object_fd_issued fullHost bssFile emptyWorld, c.Fails) ∧
      ∃ p w', map_object_fd fullHost bssFile (CString.lit ['a']) emptyWorld = .ok (p, w') := by
  constructor
  · decide +kernel
  · have hok : (map_object_fd fullHost bssFile (CString.lit ['a']) emptyWorld).isOk = true := by
      decide +kernel
    cases hmap : map_object_fd fullHost bssFile (CString.lit ['a']) emptyWorld with
    | error e =>
      rw [hmap] at hok
      cases hok
    | ok r => exact ⟨r.1, r.2, rfl⟩

end elf_loader.load
