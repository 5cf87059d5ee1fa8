import Mathlib.Logic.Function.Basic
import Tlpi.Lib.Exec
import Tlpi.Machine

namespace tlpi.heap

/-- `sizeof(freelist_node_t)`: two pointers and a `size_t`. -/
def sizeof_freelist_node : Nat := 24

def MIN_HEAP_ALLOC_SIZE : Nat := 4096

def MIN_HEAP_FREE_SIZE : Nat := 8192

/-- The number of addresses. A walk that reads memory without changing it and has not
    ended after as many steps is going round in circles. -/
def ADDRESSES : Nat := 2 ^ 64

/-- What `sbrk` returns when it fails, `(void *) -1`. -/
def SBRK_FAILED : Nat := 2 ^ 64 - 1

/-- Memory as the allocator sees it, the three fields of the header at each address, and
    beside it the static `FreeList`, the program break and `errno`. -/
structure State where
  prev : Nat → Nat
  next : Nat → Nat
  length : Nat → Nat
  FreeList : Nat
  brk : Nat
  errno : Errno

namespace State

def set_prev (s : State) (block value : Nat) : State :=
  { s with prev := Function.update s.prev block value }

def set_next (s : State) (block value : Nat) : State :=
  { s with next := Function.update s.next block value }

def set_length (s : State) (block value : Nat) : State :=
  { s with length := Function.update s.length block value }

end State

def user_addr (block : Nat) : Nat := size_add block sizeof_freelist_node

def malloc_addr (block : Nat) : Nat := size_sub block sizeof_freelist_node

def block_init (s : State) (block : Nat) : State :=
  let s := s.set_prev block 0
  let s := s.set_next block 0
  s.set_length block 0

/-- The new state and `*left`, `*right`. The node after the block keeps its `prev`. -/
def block_split (s : State) (block size : Nat) : Exec (State × Nat × Nat) := do
  c_assert (decide (size_add size sizeof_freelist_node ≤ s.length block))
  let right := size_add (size_add block sizeof_freelist_node) size
  let s := s.set_length right (size_sub (size_sub (s.length block) size) sizeof_freelist_node)
  let left := block
  let s := s.set_length left size
  let s := s.set_prev right left
  let s := s.set_next right (s.next block)
  let s := s.set_next left right
  return (s, left, right)

def block_merge (s : State) (left right : Nat) : State × Nat :=
  let s := s.set_length left (size_add (s.length left) (size_add (s.length right) sizeof_freelist_node))
  let s := s.set_next left (s.next right)
  let s := if s.next right ≠ 0 then s.set_prev (s.next right) left else s
  (block_init s right, left)

def freelist_remove (s : State) (block : Nat) : State :=
  let prev := s.prev block
  let next := s.next block
  if prev ≠ 0 ∧ next ≠ 0 then
    let s := s.set_next prev (s.next block)
    s.set_prev next (s.prev block)
  else if prev ≠ 0 then s.set_next prev 0
  else if next ≠ 0 then
    let s := { s with FreeList := next }
    s.set_prev s.FreeList 0
  else { s with FreeList := 0 }

/-- One iteration of `freelist_insert`, on `last` and `fn`. -/
def freelist_insert_body (s : State) (block : Nat) (pos : Nat × Nat) : Exec (Flow (Nat × Nat) State) :=
  let last := pos.1
  let fn := pos.2
  if fn ≠ 0 then
    if block = fn then .ok (.done s)
    else if block < fn then
      let s := s.set_next block fn
      let s := s.set_prev block (s.prev fn)
      let s := s.set_prev fn block
      .ok (.done (if last ≠ 0 then s.set_next last block else { s with FreeList := block }))
    else .ok (.cont (fn, s.next fn))
  else
    let s := s.set_next last block
    let s := s.set_prev block last
    .ok (.done (s.set_next block 0))

def freelist_insert (s : State) (block : Nat) : Exec State :=
  if s.FreeList = 0 then .ok { s with FreeList := block }
  else loop (freelist_insert_body s block) ADDRESSES (0, s.FreeList)

/-- One iteration of `freelist_get_free_block`, on `free_block`. -/
def freelist_get_free_block_body (s : State) (size free_block : Nat) : Exec (Flow Nat (State × Nat)) :=
  if free_block ≠ 0 then
    let free_block_len := s.length free_block
    if size_add size sizeof_freelist_node ≤ free_block_len then do
      let (s, left, _) ← block_split s free_block size
      let s := freelist_remove s left
      let s := block_init s left
      return .done (s.set_length left size, left)
    else if size ≤ free_block_len then
      let s := freelist_remove s free_block
      let s := block_init s free_block
      .ok (.done (s.set_length free_block free_block_len, free_block))
    else .ok (.cont (s.next free_block))
  else .ok (.done (s, 0))

def freelist_get_free_block (s : State) (start size : Nat) : Exec (State × Nat) :=
  loop (freelist_get_free_block_body s size) ADDRESSES start

/-- The addresses and lengths met by walking `FreeList` through `next`. -/
def freelist_walk (s : State) : Exec (List (Nat × Nat)) :=
  loop (fun pos : List (Nat × Nat) × Nat =>
    if pos.2 ≠ 0 then .ok (.cont (pos.1 ++ [(pos.2, s.length pos.2)], s.next pos.2))
    else .ok (.done pos.1)) ADDRESSES ([], s.FreeList)

/-- The number of nodes, counted on `ret` and `fp`. -/
def freelist_size (s : State) : Exec Nat :=
  loop (fun pos : Nat × Nat =>
    if pos.2 ≠ 0 then .ok (.cont (size_add pos.1 1, s.next pos.2))
    else .ok (.done pos.1)) ADDRESSES (0, s.FreeList)

/-- The node at an index, looked for on `i` and `fp`. -/
def freelist_item (s : State) (index : Nat) : Exec Nat :=
  loop (fun pos : Nat × Nat =>
    if pos.2 ≠ 0 then
      if pos.1 = index then .ok (.done pos.2) else .ok (.cont (size_add pos.1 1, s.next pos.2))
    else .ok (.done 0)) ADDRESSES (0, s.FreeList)

/-- One iteration of `is_freelist_sane`, on `last` and `fp`. -/
def is_freelist_sane_body (s : State) (pos : Nat × Nat) : Exec (Flow (Nat × Nat) Bool) :=
  if pos.2 ≠ 0 then
    if s.prev pos.2 ≠ pos.1 then .ok (.done false) else .ok (.cont (pos.2, s.next pos.2))
  else .ok (.done true)

def is_freelist_sane (s : State) : Exec Bool :=
  loop (is_freelist_sane_body s) ADDRESSES (0, s.FreeList)

/-- `sbrk(increment)`: the old break, or `(void *) -1` when the kernel refuses or the new
    break is not an address. -/
def sbrk (s : State) (granted : Bool) (increment : Nat) : State × Nat :=
  let brk := (s.brk : Int) + to_signed increment
  if granted = true ∧ 0 ≤ brk ∧ brk < 2 ^ 64 then ({ s with brk := brk.toNat }, s.brk)
  else ({ s with errno := .ENOMEM }, SBRK_FAILED)

def XMAX (a b : Nat) : Nat := if b < a then a else b

def xmalloc (s : State) (granted : Bool) (size : Nat) : Exec (State × Nat) := do
  let (s, new_block) ← freelist_get_free_block s s.FreeList size
  if new_block ≠ 0 then return (s, user_addr new_block)
  let alloc_size := XMAX (size_add size sizeof_freelist_node) MIN_HEAP_ALLOC_SIZE
  let (s, new_block) := sbrk s granted alloc_size
  if new_block = SBRK_FAILED then return ({ s with errno := .ENOMEM }, 0)
  let s := block_init s new_block
  let s := s.set_length new_block (size_sub (size_sub s.brk new_block) sizeof_freelist_node)
  let s ← freelist_insert s new_block
  let (s, new_block) ← freelist_get_free_block s new_block size
  c_assert (decide (new_block ≠ 0))
  return (s, user_addr new_block)

/-- The test of `xfree` for merging: one block ends where the other begins. -/
def adjacent (s : State) (left right : Nat) : Bool :=
  size_add (size_add left (s.length left)) sizeof_freelist_node = right

/-- The middle part of `xfree`, on a block that has just been inserted. -/
def merge_neighbours (s : State) (free_block : Nat) : State :=
  let prev := s.prev free_block
  let next := s.next free_block
  let (s, free_block) :=
    if prev ≠ 0 ∧ adjacent s prev free_block then block_merge s prev free_block else (s, free_block)
  if next ≠ 0 ∧ adjacent s free_block next then (block_merge s free_block next).1 else s

/-- The walk of `xfree` to the last node of the free list. -/
def freelist_last (s : State) : Exec Nat :=
  loop (fun pos : Nat × Nat =>
    if pos.2 ≠ 0 then .ok (.cont (pos.2, s.next pos.2))
    else .ok (.done pos.1)) ADDRESSES (0, s.FreeList)

/-- The condition of the shrink branch. -/
def shrinks (s : State) (last : Nat) : Bool := last ≠ 0 ∧ MIN_HEAP_FREE_SIZE ≤ s.length last

/-- `xfree` up to the decision whether to shrink the heap: the state and `last`. -/
def xfree_merged (s : State) (ptr : Nat) : Exec (State × Nat) := do
  let free_block := malloc_addr ptr
  let s ← freelist_insert s free_block
  let s := merge_neighbours s free_block
  let last ← freelist_last s
  return (s, last)

/-- `brk(last)` is taken to set the break, whatever lies above `last`. -/
def xfree (s : State) (ptr : Nat) : Exec State :=
  if ptr = 0 then .ok s
  else do
    let (s, last) ← xfree_merged s ptr
    if shrinks s last then return { freelist_remove s last with brk := last }
    return s

end tlpi.heap
