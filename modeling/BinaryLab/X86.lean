-- A few instructions of x86-64: the bytes of each one, how the processor reads
-- them back from memory, and what they do. Code that has no jump before its end
-- does what its instructions do one after the other with the stack as a list,
-- as long as the stack lies apart from the code.
import BinaryLab.Copies

namespace binary_lab.x86

open words

/-! ## Instructions -/

/-- The registers that need no prefix, less `%rsp`. -/
inductive Reg
  | rax
  | rcx
  | rdx
  | rbx
  | rbp
  | rsi
  | rdi
deriving DecidableEq, Repr

/-- The number of a register in an instruction. -/
def Reg.code : Reg → BitVec 3
  | rax => 0
  | rcx => 1
  | rdx => 2
  | rbx => 3
  | rbp => 5
  | rsi => 6
  | rdi => 7

def Reg.ofCode (n : BitVec 3) : Option Reg :=
  [rax, rcx, rdx, rbx, rbp, rsi, rdi].find? fun r => r.code = n

@[simp] theorem Reg.ofCode_code (r : Reg) : Reg.ofCode r.code = some r := by
  cases r <;> rfl

inductive Instr
  | push (r : Reg)
  | pop (r : Reg)
  | pushImm (v : Byte)
  /-- `mov src, dst` -/
  | mov (src dst : Reg)
  | movImm (v : BitVec 32) (r : Reg)
  /-- The move into the low half of a register clears the other half. -/
  | movlImm (v : BitVec 32) (r : Reg)
  | jmp (r : Reg)
  | syscall
deriving DecidableEq, Repr

/-- An immediate value. -/
def imm32 (v : BitVec 32) : List Byte := (List.range 4).map (byteOf v.toNat)

/-- A byte with the number of a register in its three low bits. -/
def withReg (op : BitVec 5) (r : Reg) : Byte := op ++ r.code

def Instr.encode : Instr → List Byte
  | push r => [withReg 0x0a r]
  | pop r => [withReg 0x0b r]
  | pushImm v => [0x6a, v]
  | mov src dst => [0x48, 0x89, withReg (0x3#2 ++ src.code) dst]
  | movImm v r => [0x48, 0xc7, withReg 0x18 r] ++ imm32 v
  | movlImm v r => [withReg 0x17 r] ++ imm32 v
  | jmp r => [0xff, withReg 0x1c r]
  | syscall => [0x0f, 0x05]

def assemble (is : List Instr) : List Byte := is.flatMap Instr.encode

/-! ## Decoding -/

/-- The register in the three low bits of a byte. -/
def regOf (b : Byte) : Option Reg := Reg.ofCode (b.extractLsb' 0 3)

/-- The value at the start of the bytes. -/
def imm32Of (bs : List Byte) : BitVec 32 := BitVec.ofNat 32 (leNat (bs.take 4))

/-- The instruction at the start of the bytes, with its length. -/
def decode : List Byte → Option (Instr × Nat)
  | op :: bs =>
    if op.extractLsb' 3 5 = 0x0a then (regOf op).map fun r => (.push r, 1)
    else if op.extractLsb' 3 5 = 0x0b then (regOf op).map fun r => (.pop r, 1)
    else if op.extractLsb' 3 5 = 0x17 then (regOf op).map fun r => (.movlImm (imm32Of bs) r, 5)
    else match bs with
      | b :: bs =>
        if op = 0x6a then some (.pushImm b, 2)
        else if op = 0x0f ∧ b = 0x05 then some (.syscall, 2)
        else if op = 0xff ∧ b.extractLsb' 3 5 = 0x1c then (regOf b).map fun r => (.jmp r, 2)
        else match bs with
          | modrm :: bs =>
            if op = 0x48 ∧ b = 0xc7 ∧ modrm.extractLsb' 3 5 = 0x18 then
              (regOf modrm).map fun r => (.movImm (imm32Of bs) r, 7)
            else if op = 0x48 ∧ b = 0x89 ∧ modrm.extractLsb' 6 2 = 0x3 then
              (Reg.ofCode (modrm.extractLsb' 3 3)).bind fun src =>
                (regOf modrm).map fun dst => (.mov src dst, 3)
            else none
          | [] => none
      | [] => none
  | [] => none

@[simp] theorem regOf_withReg (op : BitVec 5) (r : Reg) : regOf (withReg op r) = some r := by
  rw [regOf, withReg, BitVec.extractLsb'_append_eq_right, Reg.ofCode_code]

theorem imm32Of_append (v : BitVec 32) (bs : List Byte) : imm32Of (imm32 v ++ bs) = v := by
  have htake : (imm32 v ++ bs).take 4 = imm32 v := List.take_left' rfl
  apply BitVec.eq_of_toNat_eq
  rw [imm32Of, htake, imm32, leNat_byteOf, BitVec.toNat_ofNat]
  exact (Nat.mod_mod _ _).trans (Nat.mod_eq_of_lt v.isLt)

/-- An instruction is read back, whatever comes behind it. -/
theorem decode_encode (i : Instr) (bs : List Byte) :
    decode (i.encode ++ bs) = some (i, i.encode.length) := by
  cases i with
  | push r => cases r <;> rfl
  | pop r => cases r <;> rfl
  | pushImm v => rfl
  | mov src dst => cases src <;> cases dst <;> rfl
  | movImm v r =>
    have himm := imm32Of_append v bs
    cases r <;> exact congrArg (fun v => some (Instr.movImm v _, 7)) himm
  | movlImm v r =>
    have himm := imm32Of_append v bs
    cases r <;> exact congrArg (fun v => some (Instr.movlImm v _, 5)) himm
  | jmp r => cases r <;> rfl
  | syscall => rfl

/-! ## The processor -/

/-- A call of `write`. -/
structure Write where
  fd : BitVec 64
  buf : Addr
  count : BitVec 64
deriving DecidableEq, Repr

/-- The last call comes first. -/
structure Cpu where
  rip : Addr
  rsp : Addr
  regs : Reg → BitVec 64
  mem : Bytes
  writes : List Write

def Cpu.push (c : Cpu) (v : BitVec 64) : Cpu :=
  { c with rsp := c.rsp - 8, mem := write64 c.mem (c.rsp - 8) v }

/-- What a register is after a system call that is the last one of `ws`: the system, `sys`,
answers in `%rax`, and `%rcx` has the address behind the call. -/
def answered (sys : List Write → BitVec 64) (rip : Addr) (regs : Reg → BitVec 64)
    (ws : List Write) : Reg → BitVec 64 :=
  Function.update (Function.update regs .rcx rip) .rax (sys ws)

/-- `%rip` is behind the instruction. The only system call is `write`. -/
def Instr.exec (sys : List Write → BitVec 64) (c : Cpu) : Instr → Option Cpu
  | push r => some (c.push (c.regs r))
  | pop r =>
    some { c with rsp := c.rsp + 8, regs := Function.update c.regs r (read64 c.mem c.rsp) }
  | pushImm v => some (c.push (v.signExtend 64))
  | mov src dst => some { c with regs := Function.update c.regs dst (c.regs src) }
  | movImm v r => some { c with regs := Function.update c.regs r (v.signExtend 64) }
  | movlImm v r => some { c with regs := Function.update c.regs r (v.setWidth 64) }
  | jmp r => some { c with rip := c.regs r }
  | syscall =>
    if c.regs .rax = 1 then
      let writes := ⟨c.regs .rdi, c.regs .rsi, c.regs .rdx⟩ :: c.writes
      some { c with writes, regs := answered sys c.rip c.regs writes }
    else none

/-- An instruction has at most 15 bytes. -/
def Cpu.step (sys : List Write → BitVec 64) (c : Cpu) : Option Cpu :=
  (decode ((List.range 15).map fun k => c.mem (c.rip + BitVec.ofNat 64 k))).bind fun (i, n) =>
    i.exec sys { c with rip := c.rip + BitVec.ofNat 64 n }

def Cpu.run (sys : List Write → BitVec 64) : Nat → Cpu → Option Cpu
  | 0, c => some c
  | n + 1, c => (c.step sys).bind (Cpu.run sys n)

/-- The bytes from `a` on. -/
def CodeAt (m : Bytes) (a : Addr) (bs : List Byte) : Prop :=
  ∀ k (hk : k < bs.length), m (a + BitVec.ofNat 64 k) = bs[k]

theorem codeAt_append {m : Bytes} {a : Addr} {bs cs : List Byte} :
    CodeAt m a (bs ++ cs) ↔ CodeAt m a bs ∧ CodeAt m (a + BitVec.ofNat 64 bs.length) cs := by
  constructor
  · intro h
    refine ⟨fun k hk => ?_, fun k hk => ?_⟩
    · rw [h k (by rw [List.length_append]; omega), List.getElem_append_left hk]
    · have hbehind := h (bs.length + k) (by rw [List.length_append]; omega)
      rw [List.getElem_append_right (Nat.le_add_right _ _)] at hbehind
      rw [BitVec.add_assoc, ← BitVec.ofNat_add, hbehind]
      congr 1
      exact Nat.add_sub_cancel_left _ _
  · rintro ⟨hbs, hcs⟩ k hk
    rw [List.length_append] at hk
    by_cases hlt : k < bs.length
    · rw [hbs k hlt, List.getElem_append_left hlt]
    · have hbehind := hcs (k - bs.length) (by omega)
      rw [BitVec.add_assoc, ← BitVec.ofNat_add, Nat.add_sub_cancel' (not_lt.mp hlt)] at hbehind
      rw [hbehind, List.getElem_append_right (not_lt.mp hlt)]

theorem CodeAt.map_range {m : Bytes} {a : Addr} {bs : List Byte} (h : CodeAt m a bs) {n : Nat}
    (hn : bs.length ≤ n) :
    ∃ cs, ((List.range n).map fun k => m (a + BitVec.ofNat 64 k)) = bs ++ cs := by
  refine ⟨(List.range (n - bs.length)).map fun k => m (a + BitVec.ofNat 64 (bs.length + k)), ?_⟩
  have hrange : List.range n =
      List.range bs.length ++ (List.range (n - bs.length)).map (bs.length + ·) := by
    rw [← List.range_add, Nat.add_sub_cancel' hn]
  have hcode : ((List.range bs.length).map fun k => m (a + BitVec.ofNat 64 k)) = bs := by
    apply List.ext_getElem
    · rw [List.length_map, List.length_range]
    · intro k hk hk'
      rw [List.getElem_map, List.getElem_range, h k hk']
  rw [hrange, List.map_append, hcode, List.map_map]
  rfl

theorem Instr.encode_length (i : Instr) : i.encode.length ≤ 7 := by
  cases i <;> simp [encode, imm32]

theorem Cpu.step_eq {sys : List Write → BitVec 64} {c : Cpu} {i : Instr}
    (h : CodeAt c.mem c.rip i.encode) :
    c.step sys = i.exec sys { c with rip := c.rip + BitVec.ofNat 64 i.encode.length } := by
  obtain ⟨bs, hbytes⟩ := h.map_range (n := 15) (le_trans i.encode_length (by decide))
  rw [Cpu.step, hbytes, decode_encode]
  rfl

/-! ## The stack as a list -/

/-- What a program sees of the processor. The last word of the stack comes first. -/
structure View where
  rip : Addr
  regs : Reg → BitVec 64
  stack : List (BitVec 64)
  writes : List Write

def Instr.view (sys : List Write → BitVec 64) (v : View) : Instr → Option View
  | push r => some { v with stack := v.regs r :: v.stack }
  | pop r =>
    match v.stack with
    | w :: ws => some { v with stack := ws, regs := Function.update v.regs r w }
    | [] => none
  | pushImm w => some { v with stack := w.signExtend 64 :: v.stack }
  | mov src dst => some { v with regs := Function.update v.regs dst (v.regs src) }
  | movImm w r => some { v with regs := Function.update v.regs r (w.signExtend 64) }
  | movlImm w r => some { v with regs := Function.update v.regs r (w.setWidth 64) }
  | jmp r => some { v with rip := v.regs r }
  | syscall =>
    if v.regs .rax = 1 then
      let writes := ⟨v.regs .rdi, v.regs .rsi, v.regs .rdx⟩ :: v.writes
      some { v with writes, regs := answered sys v.rip v.regs writes }
    else none

/-- The instructions one after the other. -/
def viewAll (sys : List Write → BitVec 64) : List Instr → View → Option View
  | [], v => some v
  | i :: is, v =>
    (i.view sys { v with rip := v.rip + BitVec.ofNat 64 i.encode.length }).bind (viewAll sys is)

/-- The words that an instruction pushes. -/
def Instr.pushes : Instr → Nat
  | push _ => 1
  | pushImm _ => 1
  | _ => 0

/-- Only the last instruction is a jump. -/
def Straight : List Instr → Prop
  | [] => True
  | i :: is => (is = [] ∨ ∀ r, i ≠ .jmp r) ∧ Straight is

/-- The processor shows the view `v`. Its stack is below `base` and has at most `room` bytes, and
the other memory is as in `m`. -/
structure Shows (m : Bytes) (base : Addr) (room : Nat) (v : View) (c : Cpu) : Prop where
  rip : c.rip = v.rip
  regs : c.regs = v.regs
  writes : c.writes = v.writes
  rsp : c.rsp.toNat + 8 * v.stack.length = base.toNat
  fits : 8 * v.stack.length ≤ room
  room_le : room ≤ base.toNat
  stack : HoldsWords c.mem c.rsp v.stack
  mem : ∀ x, ¬ Within x (base.toNat - room) room → c.mem x = m x

section

variable {sys : List Write → BitVec 64} {m m' : Bytes} {a base : Addr} {room : Nat} {v v' : View}
  {c : Cpu} {ws : List (BitVec 64)}

theorem HoldsWords.same (h : HoldsWords m a ws) (hsame : SameOn m m' a.toNat (8 * ws.length))
    (hn : a.toNat + 8 * ws.length < 2 ^ 64) : HoldsWords m' a ws := by
  induction ws generalizing a with
  | nil => trivial
  | cons w ws ih =>
    rw [List.length_cons] at hsame hn
    have hnext : (a + 8).toNat = a.toNat + 8 := toNat_add_ofNat (n := 8) (by omega)
    constructor
    · rw [read64_same (fun x hx => hsame x ⟨hx.1, by have := hx.2; omega⟩) (by omega)]
      exact h.1
    · apply ih h.2
      · intro x hx
        rw [hnext] at hx
        exact hsame x ⟨by have := hx.1; omega, by have := hx.2; omega⟩
      · omega

/-- A word more on the stack. -/
theorem Shows.push (h : Shows m base room v c) (hroom : 8 * (v.stack.length + 1) ≤ room)
    (w : BitVec 64) : Shows m base room { v with stack := w :: v.stack } (c.push w) := by
  have hrsp := h.rsp
  have hle := h.room_le
  have hbase := base.isLt
  have hsub : (c.rsp - 8).toNat = c.rsp.toNat - 8 := by
    rw [BitVec.toNat_sub_of_le (by rw [BitVec.le_def]; show 8 ≤ _; omega)]
    rfl
  have hback : c.rsp - 8 + 8 = c.rsp := BitVec.sub_add_cancel _ _
  exact {
    rip := h.rip
    regs := h.regs
    writes := h.writes
    rsp := by
      show (c.rsp - 8).toNat + 8 * (v.stack.length + 1) = _
      omega
    fits := hroom
    room_le := hle
    stack := by
      refine ⟨read64_write64_self _ _ _, ?_⟩
      rw [show (c.push w).rsp + 8 = c.rsp from hback]
      refine HoldsWords.same h.stack (fun x hx => ?_) (by omega)
      refine write64_outside w (by omega) fun hin => ?_
      have h1 := hin.2
      have h2 := hx.1
      omega
    mem := by
      intro x hx
      refine (write64_outside w (by omega) fun hin => hx ?_).trans (h.mem x hx)
      exact ⟨by have := hin.1; omega, by have := hin.2; omega⟩ }

/-- A step of the processor shows what the program sees. -/
theorem Shows.exec (h : Shows m base room v c) {i : Instr} (hview : i.view sys v = some v')
    (hroom : 8 * (v.stack.length + i.pushes) ≤ room) :
    ∃ c', i.exec sys c = some c' ∧ Shows m base room v' c' := by
  cases i with
  | push r =>
    cases hview
    refine ⟨c.push (v.regs r), ?_, h.push hroom _⟩
    rw [← h.regs]
    rfl
  | pushImm w =>
    cases hview
    exact ⟨_, rfl, h.push hroom _⟩
  | pop r =>
    rcases v with ⟨rip, regs, _ | ⟨w, ws⟩, writes⟩
    · cases hview
    cases hview
    obtain ⟨hw, hws⟩ := h.stack
    have hrsp := h.rsp
    have hbase := base.isLt
    rw [List.length_cons] at hrsp
    have hnext : (c.rsp + 8).toNat = c.rsp.toNat + 8 := toNat_add_ofNat (n := 8) (by omega)
    refine ⟨_, rfl, { h with regs := ?_, rsp := ?_, fits := ?_, stack := hws }⟩
    · rw [hw, h.regs]
    · show (c.rsp + 8).toNat + 8 * ws.length = _
      omega
    · exact le_trans (Nat.mul_le_mul_left 8 (Nat.le_succ _)) h.fits
  | mov src dst =>
    cases hview
    exact ⟨_, rfl, { h with regs := by rw [h.regs] }⟩
  | movImm w r =>
    cases hview
    exact ⟨_, rfl, { h with regs := by rw [h.regs] }⟩
  | movlImm w r =>
    cases hview
    exact ⟨_, rfl, { h with regs := by rw [h.regs] }⟩
  | jmp r =>
    cases hview
    exact ⟨_, rfl, { h with rip := by rw [h.regs] }⟩
  | syscall =>
    simp only [Instr.view] at hview
    split_ifs at hview with hrax
    cases hview
    refine ⟨_, if_pos (by rw [h.regs, hrax]), { h with regs := ?_, writes := ?_ }⟩
    · rw [h.regs, h.rip, h.writes]
    · rw [h.regs, h.writes]

theorem Instr.view_stack {i : Instr} (h : i.view sys v = some v') :
    v'.stack.length ≤ v.stack.length + i.pushes := by
  cases i with
  | pop r =>
    rcases v with ⟨rip, regs, _ | ⟨w, ws⟩, writes⟩
    · cases h
    · cases h
      exact Nat.le_succ _
  | syscall =>
    simp only [Instr.view] at h
    split_ifs at h
    cases h
    exact Nat.le_refl _
  | _ =>
    cases h
    exact Nat.le_refl _

theorem Instr.view_rip {i : Instr} (h : i.view sys v = some v') (hjmp : ∀ r, i ≠ .jmp r) :
    v'.rip = v.rip := by
  cases i with
  | pop r =>
    rcases v with ⟨rip, regs, _ | ⟨w, ws⟩, writes⟩
    · cases h
    · cases h
      rfl
  | syscall =>
    simp only [Instr.view] at h
    split_ifs at h
    cases h
    rfl
  | jmp r => exact absurd rfl (hjmp r)
  | _ =>
    cases h
    rfl

/-- The bytes of `m` are code of the processor, if the stack is apart from them. -/
theorem Shows.codeAt (h : Shows m base room v c) {bs : List Byte} (hcode : CodeAt m v.rip bs)
    (hapart : ∀ k < bs.length,
      ¬ Within (v.rip + BitVec.ofNat 64 k) (base.toNat - room) room) : CodeAt c.mem c.rip bs := by
  intro k hk
  rw [h.rip, h.mem _ (hapart k hk), hcode k hk]

/-- Code without a jump before its end runs as its program sees it. -/
theorem run_straight {is : List Instr} (h : Shows m base room v c)
    (hcode : CodeAt m v.rip (assemble is)) (hstraight : Straight is)
    (hapart : ∀ k < (assemble is).length,
      ¬ Within (v.rip + BitVec.ofNat 64 k) (base.toNat - room) room)
    (hroom : 8 * (v.stack.length + (is.map Instr.pushes).sum) ≤ room)
    (hview : viewAll sys is v = some v') :
    ∃ c', c.run sys is.length = some c' ∧ Shows m base room v' c' := by
  induction is generalizing v c with
  | nil =>
    cases hview
    exact ⟨c, rfl, h⟩
  | cons i is ih =>
    have hlen : (assemble (i :: is)).length = i.encode.length + (assemble is).length := by
      rw [assemble, List.flatMap_cons, List.length_append]
      rfl
    obtain ⟨hfirst, hrest⟩ := codeAt_append.mp hcode
    rw [List.map_cons, List.sum_cons] at hroom
    obtain ⟨v1, hview1, hview⟩ := Option.bind_eq_some_iff.mp hview
    have hnext : Shows m base room { v with rip := v.rip + BitVec.ofNat 64 i.encode.length }
        { c with rip := c.rip + BitVec.ofNat 64 i.encode.length } :=
      { h with rip := by rw [h.rip] }
    have hfits : 8 * (v.stack.length + i.pushes) ≤ room := by omega
    obtain ⟨c1, hexec, hshow⟩ := hnext.exec hview1 hfits
    have hstep : c.step sys = some c1 := by
      rw [Cpu.step_eq (h.codeAt hfirst fun k hk => hapart k (by omega)), hexec]
    have hrun : ∀ n, c.run sys (n + 1) = c1.run sys n := by
      intro n
      rw [Cpu.run, hstep, Option.bind_some]
    rw [List.length_cons, hrun]
    obtain ⟨hlast, hstraight⟩ := hstraight
    rcases hlast with rfl | hjmp
    · cases hview
      exact ⟨c1, rfl, hshow⟩
    · have hrip := Instr.view_rip hview1 hjmp
      have hstack := Instr.view_stack hview1
      refine ih hshow ?_ hstraight ?_ ?_ hview
      · rw [hrip]
        exact hrest
      · intro k hk
        have hk' := hapart (i.encode.length + k) (by omega)
        rw [hrip]
        rwa [BitVec.ofNat_add, ← BitVec.add_assoc] at hk'
      · have hle : v1.stack.length ≤ v.stack.length + i.pushes := hstack
        omega

end

end binary_lab.x86
