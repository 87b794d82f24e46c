-- The heap under `malloc` (heap.h, heap_alloc.c, heap_free.c and
-- heap_alloc_at.c). The free areas are a list that is linked in both
-- directions, in the order of their addresses, and the header of an area lies
-- in its last bytes.
import BinaryLab.LinkMap
import BinaryLab.Pages

set_option linter.style.nameCheck false

open binary_lab.words binary_lab.pages

namespace elf_loader.malloc

/-! ## The areas -/

abbrev HEAP_GRANULARITY : BitVec 64 := 8

/-- `sizeof (struct heap_free_area)`. -/
abbrev sizeofFreeArea : BitVec 64 := 24

def HEAP_ADJUST_SIZE (sz : BitVec 64) : BitVec 64 := alignUp HEAP_GRANULARITY sz

def HEAP_MIN_SIZE : BitVec 64 := HEAP_ADJUST_SIZE sizeofFreeArea

def HEAP_MIN_FREE_AREA_SIZE : BitVec 64 := HEAP_ADJUST_SIZE (sizeofFreeArea + 32)

/-- The fields of `struct heap_free_area`. -/
inductive Field
  | size
  | next
  | prev
deriving DecidableEq

def Field.offset : Field → BitVec 64
  | .size => 0
  | .next => 8
  | .prev => 16

/-- A heap: the memory, and the pointer to the first free area. -/
structure Heap where
  mem : Bytes
  heap : Addr

/-- A field of the area at `fa`. -/
def Heap.get (h : Heap) (fa : Addr) (f : Field) : BitVec 64 := read64 h.mem (fa + f.offset)

def Heap.set (h : Heap) (fa : Addr) (f : Field) (v : BitVec 64) : Heap :=
  { h with mem := write64 h.mem (fa + f.offset) v }

def HEAP_FREE_AREA_END (fa : Addr) : Addr := fa + sizeofFreeArea

def HEAP_FREE_AREA_START (h : Heap) (fa : Addr) : Addr := fa + sizeofFreeArea - h.get fa .size

/-! ## The links -/

/-- `prev->next = fa`, or the heap starts with `fa`. -/
def Heap.set_after (h : Heap) (prev fa : Addr) : Heap :=
  if prev ≠ 0 then h.set prev .next fa else { h with heap := fa }

/-- `next->prev = fa`, if there is a next one. -/
def Heap.set_before (h : Heap) (next fa : Addr) : Heap :=
  if next ≠ 0 then h.set next .prev fa else h

def __heap_delete (h : Heap) (fa : Addr) : Heap :=
  let h := h.set_before (h.get fa .next) (h.get fa .prev)
  h.set_after (h.get fa .prev) (h.get fa .next)

def __heap_link_free_area (h : Heap) (fa prev next : Addr) : Heap :=
  let h := h.set fa .next next
  let h := h.set fa .prev prev
  let h := h.set_after prev fa
  h.set_before next fa

def __heap_link_free_area_after (h : Heap) (fa prev : Addr) : Heap :=
  let h := h.set_after prev fa
  h.set fa .prev prev

def __heap_add_free_area (h : Heap) (mem : Addr) (size : BitVec 64) (prev next : Addr) :
    Addr × Heap :=
  let fa := mem + size - sizeofFreeArea
  let h := h.set fa .size size
  (fa, __heap_link_free_area h fa prev next)

/-! ## Allocation -/

/-- `__heap_free_area_alloc`: the size that was allocated. -/
def __heap_free_area_alloc (h : Heap) (fa : Addr) (size : BitVec 64) : BitVec 64 × Heap :=
  let fa_size := h.get fa .size
  if fa_size < size + HEAP_MIN_FREE_AREA_SIZE then (fa_size, __heap_delete h fa)
  else (size, h.set fa .size (fa_size - size))

/-- The loop of `__heap_alloc`: the first area that is big enough, or NULL. -/
def find_fit (h : Heap) (size : BitVec 64) : Nat → Addr → Except Stop Addr
  | 0, _ => .error .endless
  | fuel + 1, fa =>
    if fa = 0 then .ok 0
    else if size ≤ h.get fa .size then .ok fa
    else find_fit h size fuel (h.get fa .next)

/-- The bytes that `__heap_alloc` looks for. -/
def fit_size (size : BitVec 64) : BitVec 64 :=
  let _size := HEAP_ADJUST_SIZE size
  if _size < sizeofFreeArea then HEAP_ADJUST_SIZE sizeofFreeArea else _size

/-- `__heap_alloc`: the block or NULL, and its size. -/
def __heap_alloc (h : Heap) (size : BitVec 64) : Except Stop (Addr × BitVec 64 × Heap) := do
  let fa ← find_fit h (fit_size size) (2 ^ 64) h.heap
  if fa = 0 then .ok (0, size, h)
  else
    let mem := HEAP_FREE_AREA_START h fa
    .ok (mem, __heap_free_area_alloc h fa (fit_size size))

/-- The loop of `__heap_alloc_at`. -/
def alloc_at_loop (h : Heap) (mem : Addr) (size : BitVec 64) :
    Nat → Addr → Except Stop (BitVec 64 × Heap)
  | 0, _ => .error .endless
  | fuel + 1, fa =>
    if fa = 0 then .ok (0, h)
    else
      let fa_mem := HEAP_FREE_AREA_START h fa
      if fa_mem ≤ mem then
        if fa_mem = mem ∧ size ≤ h.get fa .size then .ok (__heap_free_area_alloc h fa size)
        else .ok (0, h)
      else alloc_at_loop h mem size fuel (h.get fa .next)

/-- `__heap_alloc_at`: the size that was allocated, or 0. -/
def __heap_alloc_at (h : Heap) (mem : Addr) (size : BitVec 64) : Except Stop (BitVec 64 × Heap) :=
  alloc_at_loop h mem (HEAP_ADJUST_SIZE size) (2 ^ 64) h.heap

/-! ## Freeing -/

/-- The loop of `__heap_free`: the first area that does not end in front of
`mem`, or NULL, and the one in front of it. -/
def find_place (h : Heap) (mem : Addr) : Nat → Addr → Addr → Except Stop (Addr × Addr)
  | 0, _, _ => .error .endless
  | fuel + 1, prev_fa, fa =>
    if fa = 0 then .ok (prev_fa, 0)
    else if mem ≤ HEAP_FREE_AREA_END fa then .ok (prev_fa, fa)
    else find_place h mem fuel fa (h.get fa .next)

/-- `__heap_free` with the place that the loop has found. -/
def put_area (h : Heap) (mem : Addr) (size : BitVec 64) (prev_fa fa : Addr) : Addr × Heap :=
  let end_ := mem + size
  if fa ≠ 0 ∧ HEAP_FREE_AREA_START h fa ≤ end_ then
    let fa_size := h.get fa .size + size
    if HEAP_FREE_AREA_START h fa = end_ then
      if prev_fa ≠ 0 ∧ mem = HEAP_FREE_AREA_END prev_fa then
        let fa_size := fa_size + h.get prev_fa .size
        let h := __heap_link_free_area_after h fa (h.get prev_fa .prev)
        (fa, h.set fa .size fa_size)
      else (fa, h.set fa .size fa_size)
    else
      let next_fa := h.get fa .next
      if next_fa ≠ 0 ∧ end_ = HEAP_FREE_AREA_START h next_fa then
        let fa_size := fa_size + h.get next_fa .size
        let h := __heap_link_free_area_after h next_fa prev_fa
        (next_fa, h.set next_fa .size fa_size)
      else
        let fa := fa + size
        let h := __heap_link_free_area h fa prev_fa next_fa
        (fa, h.set fa .size fa_size)
  else __heap_add_free_area h mem size prev_fa fa

/-- `__heap_free`: the area that the block has become a part of. -/
def __heap_free (h : Heap) (mem : Addr) (size : BitVec 64) : Except Stop (Addr × Heap) := do
  let (prev_fa, fa) ← find_place h mem (2 ^ 64) 0 h.heap
  .ok (put_area h mem size prev_fa fa)

/-! ## The check -/

/-- The loop of `__heap_check`. -/
def check_loop (h : Heap) : Nat → Addr → Addr → Bool
  | 0, _, _ => false
  | fuel + 1, prev, fa =>
    if fa = 0 then true
    else if HEAP_FREE_AREA_END fa &&& (HEAP_GRANULARITY - 1) ≠ 0 ∨
        h.get fa .size &&& (HEAP_GRANULARITY - 1) ≠ 0 then false
    else if h.get fa .prev ≠ prev then false
    else if prev ≠ 0 ∧ HEAP_FREE_AREA_START h fa ≤ HEAP_FREE_AREA_END prev then false
    else check_loop h fuel fa (h.get fa .next)

/-- `__heap_check` does not stop the program. -/
def __heap_check (h : Heap) : Bool :=
  if h.heap ≠ 0 ∧ h.get h.heap .prev ≠ 0 then false else check_loop h (2 ^ 64) 0 h.heap

end elf_loader.malloc
