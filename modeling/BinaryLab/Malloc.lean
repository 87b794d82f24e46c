-- The allocator of the loader (malloc.c, free.c, realloc.c, calloc.c and
-- memalign.c, with malloc.h and the `memset` and `memcpy` of rtld/lib.c) over
-- its heap. A block has its size in the 8 bytes in front of the user address.
import BinaryLab.HeapAreas

set_option linter.style.nameCheck false
set_option linter.dupNamespace false

open binary_lab.words binary_lab.pages

namespace elf_loader.malloc

/-! ## The system -/

/-- The calls of the system that give memory and take it back. -/
inductive Call
  | mmap (length : BitVec 64) (block : Addr)
  | munmap (start : Addr) (length : BitVec 64)
deriving DecidableEq

/-- What `mmap` returns for a length, after the calls so far (the last one first). -/
abbrev Kernel := List Call → BitVec 64 → Addr

/-- The heap, `errno`, and the calls so far. -/
structure Sys where
  heap : Heap
  errno : Nat
  calls : List Call

def ENOMEM : Nat := 12

/-- The top 4095 addresses are the errors of a system call. -/
def is_error (x : Addr) : Prop := 0 - 4095 ≤ x

instance (x : Addr) : Decidable (is_error x) := inferInstanceAs (Decidable (_ ≤ _))

/-- The addresses of a process end at 2^63. A store behind them ends the process. -/
def is_user (a : Addr) : Prop := a.toNat + 8 ≤ 2 ^ 63

instance (a : Addr) : Decidable (is_user a) := inferInstanceAs (Decidable (_ ≤ _))

/-- The first page is never mapped either. -/
def is_mapped (ps a : Addr) : Prop := ps ≤ a ∧ is_user a

instance (ps a : Addr) : Decidable (is_mapped ps a) := inferInstanceAs (Decidable (_ ∧ _))

/-- The bytes from `p` on are zeros. -/
def zeros (m : Bytes) (p : Addr) (n : BitVec 64) : Bytes := fun a => if a - p < n then 0 else m a

/-- `mmap` of rtld/lib.c for an anonymous mapping. It returns what the system
call returns, so a failure is an error number below zero. -/
def mmap (kern : Kernel) (length : BitVec 64) (s : Sys) : Addr × Sys :=
  let block := kern s.calls length
  let mem := if is_error block then s.heap.mem else zeros s.heap.mem block length
  (block, { s with heap := { s.heap with mem }, calls := .mmap length block :: s.calls })

def munmap (start : Addr) (length : BitVec 64) (s : Sys) : Sys :=
  { s with calls := .munmap start length :: s.calls }

/-! ## Blocks -/

abbrev MALLOC_ALIGNMENT : BitVec 64 := 8

abbrev MALLOC_HEADER_SIZE : BitVec 64 := 8

def MALLOC_REALLOC_MIN_FREE_SIZE : BitVec 64 := HEAP_MIN_SIZE + 16

def MALLOC_UNMAP_THRESHOLD (ps : Addr) : BitVec 64 := 8 * ps

def MALLOC_ROUND_DOWN (sz power_of_2_size : BitVec 64) : BitVec 64 :=
  sz &&& ~~~(power_of_2_size - 1)

def MALLOC_ROUND_UP (sz power_of_2_size : BitVec 64) : BitVec 64 :=
  MALLOC_ROUND_DOWN (sz + (power_of_2_size - 1)) power_of_2_size

def MALLOC_BASE (addr : Addr) : Addr := addr - MALLOC_HEADER_SIZE

def MALLOC_SIZE (s : Sys) (addr : Addr) : BitVec 64 := read64 s.heap.mem (MALLOC_BASE addr)

def MALLOC_SET_SIZE (base : Addr) (size : BitVec 64) (s : Sys) : Sys :=
  { s with heap := { s.heap with mem := write64 s.heap.mem base size } }

def MALLOC_SETUP (base : Addr) (size : BitVec 64) (s : Sys) : Except Stop (Addr × Sys) :=
  if is_user base then .ok (base + MALLOC_HEADER_SIZE, MALLOC_SET_SIZE base size s)
  else .error (.fault .badStore)

def set_errno (errno : Nat) (s : Sys) : Sys := { s with errno }

/-- The biggest size that `malloc` tries. -/
def size_limit : BitVec 64 := 0 - 2 * MALLOC_HEADER_SIZE

/-! ## `malloc` -/

/-- The memory that the heap is extended by for a block of `size` bytes. -/
def block_size (ps : Addr) (size : BitVec 64) : BitVec 64 :=
  if size < ps then ps else MALLOC_ROUND_UP size ps

/-- More memory for a block of `size` bytes, which is then taken from the heap.
Of the errors of `mmap` only -1 is seen. Another one is put into the heap as if it
were an address: it lies behind all areas, so `__heap_free` stores a header at the
end of what should be the new memory. -/
def extend_heap (kern : Kernel) (ps : Addr) (size : BitVec 64) (s : Sys) :
    Except Stop (Addr × BitVec 64 × Sys) :=
  let (block, s) := mmap kern (block_size ps size) s
  if block = 0 - 1 then .ok (0, size, s)
  else if is_mapped ps (block + block_size ps size - sizeofFreeArea) then do
    let (_, heap) ← __heap_free s.heap block (block_size ps size)
    let (mem, size, heap) ← __heap_alloc heap size
    .ok (mem, size, { s with heap })
  else .error (.fault .badStore)

/-- `__malloc_from_heap`. -/
def malloc_from_heap (kern : Kernel) (ps : Addr) (size : BitVec 64) (s : Sys) :
    Except Stop (Addr × Sys) := do
  let (mem, size, heap) ← __heap_alloc s.heap (size + MALLOC_HEADER_SIZE)
  let s := { s with heap }
  let (mem, size, s) ← if mem = 0 then extend_heap kern ps size s else .ok (mem, size, s)
  if mem ≠ 0 then MALLOC_SETUP mem size s else .ok (0, s)

/-- The heap starts with the 256 bytes of `initial_fa`. -/
def malloc_init (initial_fa : Addr) (s : Sys) : Sys :=
  { s with heap := { s.heap with heap := initial_fa + 256 - sizeofFreeArea } }

def malloc (kern : Kernel) (ps : Addr) (size : BitVec 64) (s : Sys) :
    Except Stop (Addr × Sys) :=
  if size = 0 then .ok (0, set_errno ENOMEM s)
  else if size_limit < size then .ok (0, set_errno ENOMEM s)
  else do
    let (mem, s) ← malloc_from_heap kern ps size s
    if mem = 0 then .ok (0, set_errno ENOMEM s) else .ok (mem, s)

/-! ## `free` -/

/-- The start of the free area `start` goes back to the heap up to a page. -/
def keep_start (ps : Addr) (start : Addr) (h : Heap) : Except Stop (Addr × Heap) :=
  let unmap_start := MALLOC_ROUND_UP start ps
  if start < unmap_start then do
    let unmap_start :=
      if unmap_start - start < HEAP_MIN_FREE_AREA_SIZE then unmap_start + ps else unmap_start
    let (_, h) ← __heap_free h start (unmap_start - start)
    .ok (unmap_start, h)
  else .ok (unmap_start, h)

/-- The end of the free area goes back to the heap from a page on. -/
def keep_end (ps : Addr) (end_ : Addr) (h : Heap) : Except Stop (Addr × Heap) :=
  let unmap_end := MALLOC_ROUND_DOWN end_ ps
  if unmap_end < end_ then do
    let unmap_end :=
      if end_ - unmap_end < HEAP_MIN_FREE_AREA_SIZE then unmap_end - ps else unmap_end
    let (_, h) ← __heap_free h unmap_end (end_ - unmap_end)
    .ok (unmap_end, h)
  else .ok (unmap_end, h)

/-- The pages of the free area `fa` go back to the system. `__heap_is_empty`
asks for the pointer to the heap and not for the heap, so no memory is ever
kept in reserve. -/
def unmap (ps : Addr) (fa : Addr) (s : Sys) : Except Stop Sys := do
  let start := HEAP_FREE_AREA_START s.heap fa
  let end_ := HEAP_FREE_AREA_END fa
  let heap := __heap_delete s.heap fa
  let (unmap_start, heap) ← keep_start ps start heap
  let (unmap_end, heap) ← keep_end ps end_ heap
  let s := { s with heap }
  if unmap_start < unmap_end then .ok (munmap unmap_start (unmap_end - unmap_start) s) else .ok s

/-- `__free_to_heap`. -/
def free_to_heap (ps : Addr) (mem : Addr) (s : Sys) : Except Stop Sys :=
  if mem = 0 then .ok s
  else do
    let (fa, heap) ← __heap_free s.heap (MALLOC_BASE mem) (MALLOC_SIZE s mem)
    let s := { s with heap }
    if s.heap.get fa .size < MALLOC_UNMAP_THRESHOLD ps then .ok s else unmap ps fa s

def free (ps : Addr) (mem : Addr) (s : Sys) : Except Stop Sys := free_to_heap ps mem s

/-! ## The other functions -/

/-- `memset`, a byte at a time. -/
def memset (p : Addr) (c : Byte) : Nat → Bytes → Bytes
  | 0, m => m
  | n + 1, m => memset (p + 1) c n (Function.update m p c)

/-- `memcpy`, a byte at a time. -/
def memcpy (s1 s2 : Addr) : Nat → Bytes → Bytes
  | 0, m => m
  | n + 1, m => memcpy (s1 + 1) (s2 + 1) n (Function.update m s1 (m s2))

def Sys.map_mem (f : Bytes → Bytes) (s : Sys) : Sys :=
  { s with heap := { s.heap with mem := f s.heap.mem } }

def calloc (kern : Kernel) (ps : Addr) (nmemb lsize : BitVec 64) (s : Sys) :
    Except Stop (Addr × Sys) :=
  let size := lsize * nmemb
  if nmemb ≠ 0 ∧ lsize ≠ size / nmemb then .ok (0, set_errno ENOMEM s)
  else do
    let (result, s) ← malloc kern ps size s
    if result ≠ 0 then .ok (result, s.map_mem (memset result 0 size.toNat))
    else .ok (result, s)

/-- `realloc` for a block that has to grow. -/
def grow (kern : Kernel) (ps : Addr) (mem : Addr) (size new_size : BitVec 64) (s : Sys) :
    Except Stop (Addr × Sys) := do
  let base_mem := MALLOC_BASE mem
  let (extra, heap) ← __heap_alloc_at s.heap (base_mem + size) (new_size - size)
  let s := { s with heap }
  if extra ≠ 0 then .ok (mem, MALLOC_SET_SIZE base_mem (size + extra) s)
  else do
    let (new_mem, s) ← malloc kern ps (new_size - MALLOC_HEADER_SIZE) s
    if new_mem ≠ 0 then do
      let s ← free ps mem (s.map_mem (memcpy new_mem mem (size - MALLOC_HEADER_SIZE).toNat))
      .ok (new_mem, s)
    else .ok (new_mem, s)

/-- `realloc` for a block that can give back its end. -/
def shrink (mem : Addr) (size new_size : BitVec 64) (s : Sys) : Except Stop (Addr × Sys) := do
  let base_mem := MALLOC_BASE mem
  let (_, heap) ← __heap_free s.heap (base_mem + new_size) (size - new_size)
  .ok (mem, MALLOC_SET_SIZE base_mem new_size { s with heap })

def realloc (kern : Kernel) (ps : Addr) (mem : Addr) (new_size : BitVec 64) (s : Sys) :
    Except Stop (Addr × Sys) :=
  if new_size = 0 then do
    let s ← free ps mem s
    malloc kern ps new_size s
  else if mem = 0 then malloc kern ps new_size s
  else if size_limit < new_size then .ok (0, s)
  else
    let size := MALLOC_SIZE s mem
    let new_size := fit_size (new_size + MALLOC_HEADER_SIZE)
    if size < new_size then grow kern ps mem size new_size s
    else if new_size + MALLOC_REALLOC_MIN_FREE_SIZE ≤ size then shrink mem size new_size s
    else .ok (mem, s)

/-- The start of the block at `base` goes back to the heap up to the alignment. -/
def cut_start (alignment : BitVec 64) (base tot_addr : Addr) (h : Heap) :
    Except Stop (Addr × Addr × Heap) :=
  let addr := MALLOC_ROUND_UP tot_addr alignment
  if addr ≠ tot_addr then do
    let addr := if addr - tot_addr < HEAP_MIN_SIZE then
      MALLOC_ROUND_UP (tot_addr + HEAP_MIN_SIZE) alignment else addr
    let init_size := addr - tot_addr
    let (_, h) ← __heap_free h base init_size
    .ok (addr, base + init_size, h)
  else .ok (addr, base, h)

/-- The end of the block goes back to the heap, if it is not too small. -/
def cut_end (end_addr tot_end_addr : Addr) (h : Heap) : Except Stop (Addr × Heap) :=
  if end_addr + MALLOC_REALLOC_MIN_FREE_SIZE < tot_end_addr then do
    let (_, h) ← __heap_free h end_addr (tot_end_addr - end_addr)
    .ok (end_addr, h)
  else .ok (tot_end_addr, h)

def memalign (kern : Kernel) (ps : Addr) (alignment size : BitVec 64) (s : Sys) :
    Except Stop (Addr × Sys) := do
  let size := HEAP_ADJUST_SIZE size
  let (mem, s) ← malloc kern ps (size + 2 * alignment) s
  if mem = 0 then .ok (0, s)
  else if alignment < MALLOC_ALIGNMENT then .ok (mem, s)
  else do
    let base := MALLOC_BASE mem
    let tot_end_addr := base + MALLOC_SIZE s mem
    let (addr, base, heap) ← cut_start alignment base mem s.heap
    let (end_addr, heap) ← cut_end (addr + size) tot_end_addr heap
    MALLOC_SETUP base (end_addr - base) { s with heap }

end elf_loader.malloc
