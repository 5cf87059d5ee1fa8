import Tlpi.Xmalloc.Malloc

namespace tlpi.heap

/-- The free list when a block of it has been handed out for a request. -/
def listAfter (l₁ : List Block) (b : Block) (l₂ : List Block) (size : Nat) : List Block :=
  if size + sizeof_freelist_node ≤ b.length then
    l₁ ++ ⟨b.addr + sizeof_freelist_node + size, b.length - size - sizeof_freelist_node⟩ :: l₂
  else l₁ ++ l₂

/-- What is left over of the memory by which the heap has grown for a request. -/
def remainder (brk size : Nat) : List Block :=
  let grown := max (size + sizeof_freelist_node) MIN_HEAP_ALLOC_SIZE
  let left := grown - sizeof_freelist_node - size
  if sizeof_freelist_node ≤ left then
    [⟨brk + sizeof_freelist_node + size, left - sizeof_freelist_node⟩]
  else []

/-- The request is met by the first block that is long enough. -/
structure FromList (s s' : State) (ptr size : Nat) (l₁ : List Block) (b : Block) (l₂ : List Block) :
    Prop where
  first : ∀ c ∈ l₁, c.length < size
  fits : size ≤ b.length
  ptr : ptr = b.addr + sizeof_freelist_node
  brk : s'.brk = s.brk
  length : s'.length b.addr = if size + sizeof_freelist_node ≤ b.length then size else b.length
  walk : freelist_walk s' = .ok (nodes (listAfter l₁ b l₂ size))

/-- The heap cannot grow, and the request is refused. -/
structure Refused (s s' : State) (granted : Bool) (ptr size : Nat) (free : List Block) : Prop where
  short : ∀ c ∈ free, c.length < size
  sbrk : (sbrk s granted (max (size + sizeof_freelist_node) MIN_HEAP_ALLOC_SIZE)).2 = SBRK_FAILED
  ptr : ptr = 0
  state : s' = { s with errno := .ENOMEM }

/-- The heap grows for the request. -/
structure FromGrowth (s s' : State) (granted : Bool) (ptr size : Nat) (free : List Block) : Prop where
  short : ∀ c ∈ free, c.length < size
  sbrk : (sbrk s granted (max (size + sizeof_freelist_node) MIN_HEAP_ALLOC_SIZE)).2 ≠ SBRK_FAILED
  ptr : ptr = s.brk + sizeof_freelist_node
  brk : s'.brk = s.brk + max (size + sizeof_freelist_node) MIN_HEAP_ALLOC_SIZE
  walk : freelist_walk s' = .ok (nodes (free ++ remainder s.brk size))

section FirstFit

variable {s : State} {free live l₁ l₂ : List Block} {b : Block} {size : Nat}

/-- The list that is left when a block has been handed out, wherever it stood. -/
theorem handOut_walk (h : Consistent s (l₁ ++ b :: l₂) live) :
    freelist_walk (handOut s b size) = .ok (nodes (listAfter l₁ b l₂ size)) := by
  unfold listAfter
  by_cases hbig : size + sizeof_freelist_node ≤ b.length
  · have hwalk := (h.handOut_split hbig).walk
    rw [relinked_walk] at hwalk
    rw [if_pos hbig]
    exact hwalk
  · rw [if_neg hbig, (h.handOut_whole (by omega)).walk]

theorem handOut_length (h : Consistent s (l₁ ++ b :: l₂) live) :
    (handOut s b size).length b.addr =
      if size + sizeof_freelist_node ≤ b.length then size else b.length := by
  by_cases hbig : size + sizeof_freelist_node ≤ b.length
  · have hlength := (h.handOut_split hbig).lengths (b.used size) (by simp)
    rw [relinked_length] at hlength
    rw [if_pos hbig]
    exact hlength
  · rw [if_neg hbig]
    exact (h.handOut_whole (by omega)).lengths b (by simp)

/-- `xmalloc` of a request for which the free list has a block. -/
theorem xmalloc_handOut (h : Consistent s (l₁ ++ b :: l₂) live) (granted : Bool)
    (hsize : size + sizeof_freelist_node < 2 ^ 64) (hsmall : ∀ c ∈ l₁, c.length < size)
    (hfit : size ≤ b.length) : xmalloc s granted size = .ok (handOut s b size, b.ptr) := by
  have hstart : Consistent s ([] ++ (l₁ ++ b :: l₂)) live := h
  have hget := freelist_get_free_block_fit hstart hsize hsmall hfit
  rw [← h.linked.head] at hget
  have hne := (h.fits b (by simp)).1.ne'
  simp [xmalloc, hget, hne, Block.ptr]

/-- A block of the heap is handed out at its address plus the header. -/
theorem Consistent.ptr_eq (h : Consistent s free live) (hb : b ∈ free ++ live) :
    b.ptr = b.addr + sizeof_freelist_node :=
  size_add_eq (h.ptr_fits hb)

/-- What first fit does with the block by which the heap has grown. -/
theorem carve_growth (s : State) (size : Nat) :
    ∃ t, t.addr = s.brk ∧ carve size [growth s size] = some (t, remainder s.brk size) := by
  have hlength : (growth s size).length =
      max (size + sizeof_freelist_node) MIN_HEAP_ALLOC_SIZE - sizeof_freelist_node := by
    rw [growth, XMAX_eq_max]
  have hle := le_max_left (size + sizeof_freelist_node) MIN_HEAP_ALLOC_SIZE
  by_cases hbig : size + sizeof_freelist_node ≤ (growth s size).length
  · refine ⟨(growth s size).used size, rfl, ?_⟩
    rw [carve, if_pos hbig, remainder, if_pos (by omega), Block.left, hlength]
    rfl
  · refine ⟨growth s size, rfl, ?_⟩
    rw [carve, if_neg hbig, if_pos (by omega), remainder, if_neg (by omega)]

/-- The three ways in which `xmalloc` can answer a request of less than half the address
    space. -/
theorem xmalloc_outcomes (hwf : WellFormed s free []) (granted : Bool)
    (hsize : size + sizeof_freelist_node < 2 ^ 63) :
    ∃ s' ptr, xmalloc s granted size = .ok (s', ptr) ∧
      ((∃ l₁ b l₂, free = l₁ ++ b :: l₂ ∧ FromList s s' ptr size l₁ b l₂) ∨
        Refused s s' granted ptr size free ∨ FromGrowth s s' granted ptr size free) := by
  have hsize' : size + sizeof_freelist_node < 2 ^ 64 := by omega
  obtain hshort | ⟨l₁, b, l₂, rfl, hsmall, hfit⟩ := exists_first_fit size free
  · have hnone := hwf.search_none fun c hc => tooShort_of_lt hsize' (hshort c hc)
    have halloc : max (size + sizeof_freelist_node) MIN_HEAP_ALLOC_SIZE < 2 ^ 63 :=
      max_lt hsize (by decide)
    obtain ⟨hroom, hsbrk⟩ | hsbrk := sbrk_cases s granted halloc
    · have hgrown := hsbrk
      rw [← XMAX_eq_max, ← growth_stop s size] at hgrown
      rw [← XMAX_eq_max, ← growth_stop s size] at hroom
      obtain ⟨s', t, m', hcarve, hrun, hwf', hbrk⟩ :=
        xmalloc_grown hwf granted hsize' hnone hroom hgrown
      obtain ⟨t', haddr, hcarve'⟩ := carve_growth s size
      rw [hcarve'] at hcarve
      obtain ⟨rfl, rfl⟩ := Prod.mk.inj (Option.some.inj hcarve)
      refine ⟨s', t'.ptr, hrun, Or.inr (Or.inr ⟨hshort, ?_, ?_, ?_, hwf'.walk⟩)⟩
      · have hlt := (growth s size).addr_lt_stop
        have hbrk : (growth s size).addr = s.brk := rfl
        rw [hsbrk]
        unfold SBRK_FAILED
        omega
      · rw [hwf'.toConsistent.ptr_eq (by simp), haddr]
      · rw [hbrk, growth_stop, XMAX_eq_max]
    · refine ⟨{ s with errno := .ENOMEM }, 0, ?_, Or.inr (Or.inl ⟨hshort, by rw [hsbrk], rfl, rfl⟩)⟩
      rw [← XMAX_eq_max, ← size_add_eq hsize'] at hsbrk
      have hrun := xmalloc_refused hnone hsbrk
      exact hrun
  · have hcons := hwf.toConsistent
    refine ⟨_, _, xmalloc_handOut hcons granted hsize' hsmall hfit, Or.inl ⟨l₁, b, l₂, rfl, ?_⟩⟩
    exact ⟨hsmall, hfit, hcons.ptr_eq (by simp), handOut_brk s b size, handOut_length hcons,
      handOut_walk hcons⟩

/-- First fit, with every byte accounted for: `xmalloc` hands out the first block that is long
    enough, or else grows the heap by exactly the memory for the request and appends what is
    left over, or else changes nothing. Its second search never fails. -/
theorem xmalloc_first_fit (h : SaneHeap s free live) (granted : Bool)
    (hsize : size + sizeof_freelist_node < 2 ^ 63) :
    freelist_walk s = .ok (nodes free) ∧
      ∃ s' ptr, xmalloc s granted size = .ok (s', ptr) ∧
        ((∃ l₁ b l₂, free = l₁ ++ b :: l₂ ∧ FromList s s' ptr size l₁ b l₂) ∨
          Refused s s' granted ptr size free ∨ FromGrowth s s' granted ptr size free) :=
  ⟨h.wellFormed.walk, xmalloc_outcomes h.wellFormed granted hsize⟩

end FirstFit

/-- Two free blocks that do not touch, with a live one between them. -/
def twoFree : State where
  prev := fun addr => if addr = 4320 then 4096 else 0
  next := fun addr => if addr = 4096 then 4320 else 0
  length := fun addr => if addr = 4096 then 100 else if addr = 4220 then 76 else 200
  FreeList := 4096
  brk := 4544
  errno := .other 0

theorem twoFree_sane : SaneHeap twoFree [⟨4096, 100⟩, ⟨4320, 200⟩] [⟨4220, 76⟩] where
  linked := ⟨by simp, by simp [State.succ, twoFree], by simp [twoFree]⟩
  lengths := by simp [twoFree]
  sorted := by simp
  apart := by simp [Block.Apart, Block.stop, sizeof_freelist_node]
  fits := by simp [Block.stop, sizeof_freelist_node]
  below := by simp [Block.stop, sizeof_freelist_node, twoFree]
  brk_pos := by simp [twoFree]
  brk_lt := by simp [twoFree]

/-- A request for which the first of two blocks is split. -/
theorem xmalloc_first_fit_twoFree :
    freelist_walk twoFree = .ok [(4096, 100), (4320, 200)] ∧
      ∃ s' ptr, xmalloc twoFree true 50 = .ok (s', ptr) ∧
        ((∃ l₁ b l₂, [(⟨4096, 100⟩ : Block), ⟨4320, 200⟩] = l₁ ++ b :: l₂ ∧
            FromList twoFree s' ptr 50 l₁ b l₂) ∨
          Refused twoFree s' true ptr 50 [⟨4096, 100⟩, ⟨4320, 200⟩] ∨
          FromGrowth twoFree s' true ptr 50 [⟨4096, 100⟩, ⟨4320, 200⟩]) :=
  xmalloc_first_fit twoFree_sane true (by decide)

end tlpi.heap
