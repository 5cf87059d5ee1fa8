import Tlpi.Xmalloc.Take

namespace tlpi.heap

section FreeBlock

variable {s : State} {k m m' live : List Block} {t : Block} {size : Nat}

/-- What first fit can have done: it split the first block that is long enough, or took
    it whole. -/
theorem carve_cases (h : carve size m = some (t, m')) :
    ∃ l₁ b l₂, m = l₁ ++ b :: l₂ ∧ (∀ c ∈ l₁, c.length < size) ∧ size ≤ b.length ∧
      (size + sizeof_freelist_node ≤ b.length ∧ t = b.used size ∧ m' = l₁ ++ b.left size :: l₂ ∨
        b.length < size + sizeof_freelist_node ∧ t = b ∧ m' = l₁ ++ l₂) := by
  obtain hall | ⟨l₁, b, l₂, rfl, hsmall, hfit⟩ := exists_first_fit size m
  · rw [carve_eq_none hall] at h
    cases h
  · rw [carve_append hsmall hfit] at h
    refine ⟨l₁, b, l₂, rfl, hsmall, hfit, ?_⟩
    by_cases hbig : size + sizeof_freelist_node ≤ b.length
    · rw [if_pos hbig, Option.some.injEq, Prod.mk.injEq] at h
      exact Or.inl ⟨hbig, h.1.symm, h.2.symm⟩
    · rw [if_neg hbig, Option.some.injEq, Prod.mk.injEq] at h
      exact Or.inr ⟨by omega, h.1.symm, h.2.symm⟩

theorem carve_size_le (h : carve size m = some (t, m')) : size ≤ t.length := by
  obtain ⟨l₁, b, l₂, rfl, hsmall, hfit, ⟨hbig, rfl, rfl⟩ | ⟨hsmallb, rfl, rfl⟩⟩ := carve_cases h
  · exact le_refl size
  · exact hfit

/-- First fit stays inside the blocks that it was given. -/
theorem carve_stop_le {bound : Nat} (h : carve size m = some (t, m')) (hm : ∀ c ∈ m, c.stop ≤ bound) :
    ∀ c ∈ t :: m', c.stop ≤ bound := by
  obtain ⟨l₁, b, l₂, rfl, hsmall, hfit, ⟨hbig, rfl, rfl⟩ | ⟨hsmallb, rfl, rfl⟩⟩ := carve_cases h
  · obtain ⟨_, hmid, hstop⟩ := b.split_extents hbig
    have hb := hm b (by simp)
    have hleft := (b.left size).addr_lt_stop
    intro c hc
    simp only [List.mem_cons, List.mem_append] at hc
    obtain rfl | hc | rfl | hc := hc
    · omega
    · exact hm c (by simp [hc])
    · omega
    · exact hm c (by simp [hc])
  · intro c hc
    apply hm c
    simp only [List.mem_cons, List.mem_append] at hc ⊢
    tauto

/-- A block is too short for a request, in the arithmetic of the search. -/
def TooShort (size : Nat) (c : Block) : Prop :=
  c.length < size_add size sizeof_freelist_node ∧ c.length < size

theorem tooShort_of_lt {c : Block} (hsize : size + sizeof_freelist_node < 2 ^ 64) (h : c.length < size) :
    TooShort size c := by
  unfold TooShort
  rw [size_add_eq hsize]
  omega

/-- The search goes on past a block that is too short. -/
theorem get_free_block_short (h : Consistent s (k ++ m) live) {done rest : List Block} {c : Block}
    (hm : m = done ++ c :: rest) (hshort : TooShort size c) :
    freelist_get_free_block_body s size c.addr = .ok (.cont ((rest.map Block.addr).headD 0)) := by
  subst hm
  have hlinked : s.Linked ((k ++ done).map Block.addr ++ c.addr :: rest.map Block.addr) := by
    simpa using h.linked
  have hne := hlinked.mem_ne_zero (b := c.addr) (by simp)
  have hlength := h.lengths c (by simp)
  rw [freelist_get_free_block_body, if_pos hne, hlength, if_neg (not_le.mpr hshort.1),
    if_neg (not_le.mpr hshort.2), hlinked.next_mid]

/-- Nothing in the rest of the list is long enough. -/
theorem freelist_get_free_block_none (h : Consistent s (k ++ m) live)
    (hshort : ∀ c ∈ m, TooShort size c) :
    freelist_get_free_block s ((m.map Block.addr).headD 0) size = .ok (s, 0) := by
  have hfuel := h.walk_fuel
  rw [freelist_get_free_block, ← List.append_nil m]
  refine loop_list (fun _ r => (r.map Block.addr).headD 0) m [] ?_ ?_ ?_
  · intro done c rest hm
    simpa using get_free_block_short h hm (hshort c (by simp [hm]))
  · simp [freelist_get_free_block_body]
  · simp only [List.length_map, List.length_append] at hfuel
    omega

/-- The search ends at the first block that is not too short. -/
theorem freelist_get_free_block_first {l₁ l₂ : List Block} {b : Block} {result : State × Nat}
    (h : Consistent s (k ++ (l₁ ++ b :: l₂)) live) (hshort : ∀ c ∈ l₁, TooShort size c)
    (hfirst : freelist_get_free_block_body s size b.addr = .ok (.done result)) :
    freelist_get_free_block s (((l₁ ++ b :: l₂).map Block.addr).headD 0) size = .ok result := by
  have hfuel := h.walk_fuel
  refine loop_list (fun _ r => (r.map Block.addr).headD 0) l₁ (b :: l₂) ?_ hfirst ?_
  · intro done c rest hl
    have hm : l₁ ++ b :: l₂ = done ++ c :: (rest ++ b :: l₂) := by simp [hl]
    simpa using get_free_block_short h hm (hshort c (by simp [hl]))
  · simp only [List.length_map, List.length_append] at hfuel
    omega

/-- The state in which the search leaves memory when it hands out a block for a request. -/
def handOut (s : State) (b : Block) (size : Nat) : State :=
  if size + sizeof_freelist_node ≤ b.length then
    (block_init (freelist_remove (splitState s b.addr size (b.left size).addr) b.addr)
      b.addr).set_length b.addr size
  else (block_init (freelist_remove s b.addr) b.addr).set_length b.addr (s.length b.addr)

theorem handOut_brk (s : State) (b : Block) (size : Nat) : (handOut s b size).brk = s.brk := by
  unfold handOut
  split <;> simp [block_init, freelist_remove_brk, splitState]

/-- The search hands out the first block that is long enough. -/
theorem freelist_get_free_block_fit {l₁ l₂ : List Block} {b : Block}
    (h : Consistent s (k ++ (l₁ ++ b :: l₂)) live) (hsize : size + sizeof_freelist_node < 2 ^ 64)
    (hsmall : ∀ c ∈ l₁, c.length < size) (hfit : size ≤ b.length) :
    freelist_get_free_block s (((l₁ ++ b :: l₂).map Block.addr).headD 0) size =
      .ok (handOut s b size, b.addr) := by
  have hmem : b ∈ k ++ (l₁ ++ b :: l₂) ++ live := by simp
  have hlength := h.lengths b hmem
  have hne := (h.fits b hmem).1.ne'
  apply freelist_get_free_block_first h fun c hc => tooShort_of_lt hsize (hsmall c hc)
  unfold handOut
  by_cases hbig : size + sizeof_freelist_node ≤ b.length
  · have hright : size_add (size_add b.addr sizeof_freelist_node) size = (b.left size).addr := by
      obtain ⟨_, hmid, hstop⟩ := b.split_extents hbig
      have hfits := (h.fits b hmem).2
      have hlt := (b.left size).addr_lt_stop
      have haddr : (b.left size).addr = b.addr + sizeof_freelist_node + size := rfl
      rw [size_add_eq (show b.addr + sizeof_freelist_node < 2 ^ 64 by omega), size_add_eq (by omega),
        haddr]
    have hfitb : size_add size sizeof_freelist_node ≤ s.length b.addr := by
      rw [size_add_eq hsize, hlength]
      exact hbig
    rw [freelist_get_free_block_body, if_pos hne, if_pos hfitb, block_split_eq s hfitb hright,
      if_pos hbig]
    rfl
  · rw [freelist_get_free_block_body, if_pos hne, size_add_eq hsize, hlength, if_neg hbig,
      if_pos hfit, if_neg hbig]

/-- A block that is split leaves its right part to the free list. -/
theorem Consistent.handOut_split {l₁ l₂ : List Block} {b : Block}
    (h : Consistent s (l₁ ++ b :: l₂) live) (hbig : size + sizeof_freelist_node ≤ b.length) :
    Consistent ((handOut s b size).relinked (b.left size).addr (l₂.map Block.addr))
      (l₁ ++ b.left size :: l₂) (b.used size :: live) := by
  rw [handOut, if_pos hbig]
  exact h.take_split hbig

/-- A block that is too short to be split is taken off the free list. -/
theorem Consistent.handOut_whole {l₁ l₂ : List Block} {b : Block}
    (h : Consistent s (l₁ ++ b :: l₂) live) (hsmall : b.length < size + sizeof_freelist_node) :
    Consistent (handOut s b size) (l₁ ++ l₂) (b :: live) := by
  rw [handOut, if_neg (by omega)]
  exact h.take_whole

/-- Handing out a block that is not split, or is the last one, keeps the state consistent. -/
theorem freelist_get_free_block_some (h : Consistent s (k ++ m) live)
    (hsize : size + sizeof_freelist_node < 2 ^ 64) (hsafe : splitSafe size m = true)
    (hcarve : carve size m = some (t, m')) :
    ∃ s', freelist_get_free_block s ((m.map Block.addr).headD 0) size = .ok (s', t.addr) ∧
      Consistent s' (k ++ m') (t :: live) ∧ s'.brk = s.brk := by
  obtain ⟨l₁, b, l₂, rfl, hsmall, hfit, hhow⟩ := carve_cases hcarve
  have hget := freelist_get_free_block_fit h hsize hsmall hfit
  have hcons : Consistent s ((k ++ l₁) ++ b :: l₂) live := by simpa using h
  obtain ⟨hbig, rfl, rfl⟩ | ⟨hsmallb, rfl, rfl⟩ := hhow
  · obtain rfl := (splitSafe_append hsmall hfit).mp hsafe hbig
    exact ⟨_, hget, by simpa [State.relinked] using hcons.handOut_split hbig, handOut_brk s b size⟩
  · exact ⟨_, hget, by simpa using hcons.handOut_whole hsmallb, handOut_brk s t size⟩

end FreeBlock

section Xmalloc

variable {s : State} {free live : List Block} {size : Nat}

/-- The block by which the heap grows for a request. -/
def growth (s : State) (size : Nat) : Block where
  addr := s.brk
  length := XMAX (size + sizeof_freelist_node) MIN_HEAP_ALLOC_SIZE - sizeof_freelist_node

theorem XMAX_eq_max (a b : Nat) : XMAX a b = max a b := by
  unfold XMAX
  split <;> omega

theorem growth_stop (s : State) (size : Nat) :
    (growth s size).stop = s.brk + XMAX (size + sizeof_freelist_node) MIN_HEAP_ALLOC_SIZE := by
  simp only [growth, Block.stop, XMAX_eq_max]
  omega

theorem size_le_growth (s : State) (size : Nat) : size ≤ (growth s size).length := by
  simp only [growth, XMAX_eq_max]
  omega

/-- The header of the new memory is written, and nothing else. -/
theorem Consistent.init_above (h : Consistent s free live) {b : Block} (brk : Nat)
    (hapart : ∀ c ∈ free ++ live, c.Apart b) :
    Consistent ((block_init { s with brk := brk } b.addr).set_length b.addr b.length) free live := by
  have hne (c : Block) (hc : c ∈ free ++ live) : c.addr ≠ b.addr := by
    have hcb := hapart c hc
    have := c.addr_lt_stop
    have := b.addr_lt_stop
    unfold Block.Apart at hcb
    omega
  exact h.congr rfl fun c hc => by simp [block_init, Function.update_of_ne (hne c hc)]

/-- The free list with the new memory at its end. -/
theorem Consistent.insert_above (h : Consistent s free live) {b : Block}
    (hlength : s.length b.addr = b.length) (hreset : s.prev b.addr = 0 ∧ s.next b.addr = 0)
    (hpos : 0 < b.addr) (hfits : b.stop < 2 ^ 64) (hbelow : ∀ c ∈ free ++ live, c.stop ≤ b.addr) :
    ∃ s', freelist_insert s b.addr = .ok s' ∧ Consistent s' (free ++ [b]) live ∧ s'.brk = s.brk := by
  have haddr (c : Block) (hc : c ∈ free ++ live) : c.addr < b.addr :=
    lt_of_lt_of_le c.addr_lt_stop (hbelow c hc)
  have hlinked : s.Linked (free.map Block.addr ++ []) := by simpa using h.linked
  obtain ⟨s', hinsert, hlinked', hkeep, hlength'⟩ := freelist_insert_spec hlinked hpos.ne'
    (fun x hx => by
      obtain ⟨c, hc, rfl⟩ := List.mem_map.mp hx
      exact haddr c (List.mem_append_left _ hc)) (by simp) (fun _ => hreset) h.walk_fuel
  obtain ⟨hfreeApart, hliveApart, hcross⟩ := List.pairwise_append.mp h.apart
  have hmem (c : Block) (hc : c ∈ free ++ [b] ++ live) : c = b ∨ c ∈ free ++ live := by
    simp only [List.mem_append, List.mem_singleton] at hc ⊢
    tauto
  refine ⟨s', hinsert, ⟨by simpa using hlinked', fun c hc => ?_, ?_, ?_, fun c hc => ?_,
    fun c hc => ?_⟩, hkeep.1⟩
  · rw [hlength']
    obtain rfl | hc := hmem c hc
    · exact hlength
    · exact h.lengths c hc
  · refine List.pairwise_append.mpr ⟨h.sorted, by simp, fun c hc d hd => ?_⟩
    obtain rfl := List.mem_singleton.mp hd
    exact haddr c (List.mem_append_left _ hc)
  · refine List.pairwise_append.mpr ⟨List.pairwise_append.mpr ⟨hfreeApart, by simp,
      fun c hc d hd => ?_⟩,
      hliveApart, fun c hc d hd => ?_⟩
    · obtain rfl := List.mem_singleton.mp hd
      exact Or.inl (hbelow c (List.mem_append_left _ hc))
    · obtain hc | hc := List.mem_append.mp hc
      · exact hcross c hc d hd
      · obtain rfl := List.mem_singleton.mp hc
        exact Or.inr (hbelow d (List.mem_append_right _ hd))
  · obtain rfl | hc := hmem c hc
    · exact ⟨hpos, hfits⟩
    · exact h.fits c hc
  · have hout := h.addr_not_mem hc
    have hcb := (haddr c (List.mem_append_right _ hc)).ne
    have hlinks := hkeep.2 c.addr (by
      simp only [List.mem_append, List.mem_singleton, not_or]
      exact ⟨hout, hcb⟩)
    rw [hlinks.1, hlinks.2]
    exact h.reset c hc

/-- `sbrk` for a request moves the break by a positive amount, or fails and changes only
    `errno`. -/
theorem sbrk_cases (s : State) (granted : Bool) {increment : Nat} (hincrement : increment < 2 ^ 63) :
    s.brk + increment < 2 ^ 64 ∧
      sbrk s granted increment = ({ s with brk := s.brk + increment }, s.brk) ∨
      sbrk s granted increment = ({ s with errno := .ENOMEM }, SBRK_FAILED) := by
  simp only [sbrk, to_signed_eq hincrement]
  by_cases hgranted : granted = true ∧ 0 ≤ (s.brk : Int) + increment ∧
    (s.brk : Int) + increment < 2 ^ 64
  · rw [if_pos hgranted]
    exact Or.inl ⟨by omega, rfl⟩
  · rw [if_neg hgranted]
    exact Or.inr rfl

/-- The free list that a successful growth of the heap leaves to search. -/
theorem WellFormed.grow (h : WellFormed s free live)
    (hfits : (growth s size).stop < 2 ^ 64) :
    ∃ s', freelist_insert ((block_init { s with brk := (growth s size).stop } s.brk).set_length s.brk
        (growth s size).length) s.brk = .ok s' ∧
      Consistent s' (free ++ [growth s size]) live ∧ s'.brk = (growth s size).stop := by
  have hinit := h.toConsistent.init_above (b := growth s size) (growth s size).stop
    (fun c hc => Or.inl (h.below c hc))
  obtain ⟨s', hinsert, hcons, hbrk⟩ :=
    hinit.insert_above (b := growth s size) (by simp) (by simp [block_init])
    h.brk_pos hfits h.below
  exact ⟨s', hinsert, hcons, hbrk⟩

/-- The blocks that a search leaves lie below the break if those it started from do. -/
theorem WellFormed.of_carve {s' : State} {k m m' : List Block} {t : Block}
    (hcarve : carve size m = some (t, m')) (hcons : Consistent s' (k ++ m') (t :: live))
    (hbelow : ∀ c ∈ k ++ m ++ live, c.stop ≤ s'.brk) (hpos : 0 < s'.brk) (hlt : s'.brk < 2 ^ 64) :
    WellFormed s' (k ++ m') (t :: live) := by
  refine ⟨hcons, fun c hc => ?_, hpos, hlt⟩
  have hcarved := carve_stop_le hcarve fun c hc => hbelow c (by simp [hc])
  simp only [List.mem_append, List.mem_cons] at hc
  obtain (hc | hc) | rfl | hc := hc
  · exact hbelow c (by simp [hc])
  · exact hcarved c (by simp [hc])
  · exact hcarved c (by simp)
  · exact hbelow c (by simp [hc])

@[simp] theorem block_init_brk (s : State) (b : Nat) : (block_init s b).brk = s.brk := rfl

/-- A request that the free list can meet. -/
theorem xmalloc_fit {t : Block} {m' : List Block} (h : WellFormed s free live) (granted : Bool)
    (hsize : size + sizeof_freelist_node < 2 ^ 64) (hsafe : splitSafe size free = true)
    (hcarve : carve size free = some (t, m')) :
    ∃ s', xmalloc s granted size = .ok (s', t.ptr) ∧ WellFormed s' m' (t :: live) := by
  have hstart : Consistent s ([] ++ free) live := h.toConsistent
  have hhead : s.FreeList = (free.map Block.addr).headD 0 := h.linked.head
  obtain ⟨s', hget, hcons, hbrk⟩ := freelist_get_free_block_some hstart hsize hsafe hcarve
  rw [← hhead] at hget
  have hne := (hcons.fits t (by simp)).1.ne'
  refine ⟨s', by simp [xmalloc, hget, hne, Block.ptr], ?_⟩
  refine WellFormed.of_carve hcarve hcons (by simpa [hbrk] using h.below) ?_ ?_
  · rw [hbrk]
    exact h.brk_pos
  · rw [hbrk]
    exact h.brk_lt

/-- A search that finds every block too short leaves the request to the heap's growth. -/
theorem WellFormed.search_none (h : WellFormed s free live) (hshort : ∀ c ∈ free, TooShort size c) :
    freelist_get_free_block s s.FreeList size = .ok (s, 0) := by
  have hstart : Consistent s ([] ++ free) live := h.toConsistent
  have hnone := freelist_get_free_block_none hstart hshort
  rwa [← h.linked.head] at hnone

/-- `xmalloc` when `sbrk` fails, or seems to. -/
theorem xmalloc_refused {granted : Bool} {s₀ : State}
    (hshort : freelist_get_free_block s s.FreeList size = .ok (s, 0))
    (hsbrk : sbrk s granted (XMAX (size_add size sizeof_freelist_node) MIN_HEAP_ALLOC_SIZE) =
      (s₀, SBRK_FAILED)) :
    xmalloc s granted size = .ok ({ s₀ with errno := .ENOMEM }, 0) := by
  simp [xmalloc, hshort, hsbrk]

/-- `xmalloc` when `sbrk` has moved the break: the new block is inserted and searched. -/
theorem xmalloc_moved {granted : Bool} {s₁ s₂ : State} {brk length block : Nat}
    (hshort : freelist_get_free_block s s.FreeList size = .ok (s, 0))
    (hsbrk : sbrk s granted (XMAX (size_add size sizeof_freelist_node) MIN_HEAP_ALLOC_SIZE) =
      ({ s with brk := brk }, s.brk))
    (hold : s.brk ≠ SBRK_FAILED) (hlength : size_sub (size_sub brk s.brk) sizeof_freelist_node = length)
    (hinsert : freelist_insert ((block_init { s with brk := brk } s.brk).set_length s.brk length) s.brk =
      .ok s₁)
    (hget : freelist_get_free_block s₁ s.brk size = .ok (s₂, block)) (hne : block ≠ 0) :
    xmalloc s granted size = .ok (s₂, user_addr block) := by
  simp [xmalloc, hshort, hsbrk, hold, hlength, hinsert, hget, hne]

/-- A request for which the heap grows. -/
theorem xmalloc_grown (h : WellFormed s free live) (granted : Bool)
    (hsize : size + sizeof_freelist_node < 2 ^ 64)
    (hshort : freelist_get_free_block s s.FreeList size = .ok (s, 0))
    (hfits : (growth s size).stop < 2 ^ 64)
    (hsbrk : sbrk s granted (XMAX (size + sizeof_freelist_node) MIN_HEAP_ALLOC_SIZE) =
      ({ s with brk := (growth s size).stop }, s.brk)) :
    ∃ s' t m', carve size [growth s size] = some (t, m') ∧
      xmalloc s granted size = .ok (s', t.ptr) ∧ WellFormed s' (free ++ m') (t :: live) ∧
      s'.brk = (growth s size).stop := by
  obtain ⟨s₁, hinsert, hcons, hbrk⟩ := h.grow hfits
  obtain ⟨t, m', hcarve⟩ : ∃ t m', carve size [growth s size] = some (t, m') := by
    rw [← List.nil_append [growth s size], carve_append (by simp) (size_le_growth s size)]
    exact ⟨_, _, rfl⟩
  have hsafe : splitSafe size [growth s size] = true := by
    simp [splitSafe, size_le_growth]
  obtain ⟨s', hget, hcons', hbrk'⟩ := freelist_get_free_block_some hcons hsize hsafe hcarve
  have hget : freelist_get_free_block s₁ s.brk size = .ok (s', t.addr) := hget
  have hmin : 4096 ≤ XMAX (size + sizeof_freelist_node) MIN_HEAP_ALLOC_SIZE := by
    rw [XMAX_eq_max]
    exact le_max_right _ _
  have hnode : sizeof_freelist_node ≤ 4096 := by decide
  have hstop := growth_stop s size
  have hold : s.brk ≠ SBRK_FAILED := by
    unfold SBRK_FAILED
    omega
  have hlength : size_sub (size_sub (growth s size).stop s.brk) sizeof_freelist_node =
    (growth s size).length := by
    rw [size_sub_eq (by omega) hfits, size_sub_eq (by omega) (by omega), hstop]
    simp only [growth]
    omega
  have hne := (hcons'.fits t (by simp)).1.ne'
  refine ⟨s', t, m', hcarve, ?_, ?_, hbrk'.trans hbrk⟩
  · rw [← size_add_eq hsize] at hsbrk
    exact xmalloc_moved hshort hsbrk hold hlength hinsert hget hne
  · refine WellFormed.of_carve hcarve hcons' (fun c hc => ?_) ?_ ?_
    · rw [hbrk', hbrk]
      simp only [List.mem_append, List.mem_singleton] at hc
      obtain (hc | rfl) | hc := hc
      · exact (h.below c (by simp [hc])).trans (by omega)
      · exact le_refl _
      · exact (h.below c (by simp [hc])).trans (by omega)
    · have := h.brk_pos
      omega
    · omega

/-- What `xmalloc` does with a request for which no free block is split in front of
    another one: it fails and keeps all blocks as they are, or it turns memory that is
    long enough into a live block. -/
theorem xmalloc_wellFormed (h : WellFormed s free live) (granted : Bool)
    (hsize : size + sizeof_freelist_node < 2 ^ 63) (hsafe : splitSafe size free = true) :
    ∃ s' ptr, xmalloc s granted size = .ok (s', ptr) ∧
      (ptr = 0 ∧ WellFormed s' free live ∨
        ∃ t free', ptr = t.ptr ∧ size ≤ t.length ∧ WellFormed s' free' (t :: live)) := by
  have hsize' : size + sizeof_freelist_node < 2 ^ 64 := by omega
  obtain hshort | ⟨l₁, b, l₂, hfree, hsmall, hfit⟩ := exists_first_fit size free
  · have hnone := h.search_none fun c hc => tooShort_of_lt hsize' (hshort c hc)
    have halloc : XMAX (size + sizeof_freelist_node) MIN_HEAP_ALLOC_SIZE < 2 ^ 63 := by
      rw [XMAX_eq_max]
      exact max_lt hsize (by decide)
    obtain ⟨hroom, hsbrk⟩ | hsbrk := sbrk_cases s granted halloc
    · rw [← growth_stop s size] at hroom hsbrk
      obtain ⟨s', t, m', hcarve, hrun, hwf, _⟩ := xmalloc_grown h granted hsize' hnone hroom hsbrk
      exact ⟨s', t.ptr, hrun, Or.inr ⟨t, free ++ m', rfl, carve_size_le hcarve, hwf⟩⟩
    · rw [← size_add_eq hsize'] at hsbrk
      refine ⟨_, 0, xmalloc_refused hnone hsbrk, Or.inl ⟨rfl, ?_⟩⟩
      exact ⟨h.toConsistent.congr rfl fun _ _ => ⟨rfl, rfl, rfl⟩, h.below, h.brk_pos, h.brk_lt⟩
  · obtain ⟨t, m', hcarve⟩ : ∃ t m', carve size free = some (t, m') := by
      rw [hfree, carve_append hsmall hfit]
      exact ⟨_, _, rfl⟩
    obtain ⟨s', hrun, hwf⟩ := xmalloc_fit h granted hsize' hsafe hcarve
    exact ⟨s', t.ptr, hrun, Or.inr ⟨t, m', rfl, carve_size_le hcarve, hwf⟩⟩

end Xmalloc

end tlpi.heap
