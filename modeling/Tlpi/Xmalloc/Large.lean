import Tlpi.Xmalloc.FirstFit

namespace tlpi.heap

/-- What is left when a block at the top of the heap has been given back: the heap without it,
    or without it and the free block right below it. -/
def GivenBack (s s' : State) (free : List Block) : Prop :=
  (∃ rest c, free = rest ++ [c] ∧ c.stop = s.brk ∧ s'.brk = c.addr ∧ freelist_walk s' = .ok (nodes rest)) ∨
    (∀ c ∈ free.getLast?, c.stop ≠ s.brk) ∧ s'.brk = s.brk ∧ freelist_walk s' = .ok (nodes free)

section Large

variable {s : State} {free live : List Block} {t : Block} {size : Nat}

/-- For a large request the heap grows by exactly the block that is handed out. -/
theorem carve_growth_large (s : State) (hlarge : MIN_HEAP_FREE_SIZE ≤ size) :
    growth s size = ⟨s.brk, size⟩ ∧ carve size [growth s size] = some (⟨s.brk, size⟩, []) := by
  have hgrowth : growth s size = ⟨s.brk, size⟩ := by
    simp only [growth, XMAX_eq_max, Block.mk.injEq, true_and]
    simp only [MIN_HEAP_FREE_SIZE] at hlarge
    simp only [MIN_HEAP_ALLOC_SIZE, sizeof_freelist_node]
    omega
  refine ⟨hgrowth, ?_⟩
  rw [hgrowth, carve, if_neg (by simp [sizeof_freelist_node]), if_pos (le_refl size)]

/-- A block above all free blocks is released at their end. -/
theorem release_above (h : Ordered (free ++ [t])) :
    release free t = (joinLeft free t).1 ++ [(joinLeft free t).2] ∧ top free t = (joinLeft free t).2 := by
  have hrelease : release free t = (joinLeft free t).1 ++ [(joinLeft free t).2] := by
    have happend := release_append (show Ordered (free ++ t :: []) from h)
    rwa [List.append_nil, joinRight] at happend
  refine ⟨hrelease, ?_⟩
  rw [top, hrelease]
  simp

theorem length_le_joinLeft (free : List Block) (t : Block) : t.length ≤ (joinLeft free t).2.length := by
  obtain rfl | ⟨k, a, rfl⟩ := List.eq_nil_or_concat' free
  · exact le_refl _
  · rw [joinLeft_concat]
    split
    · simp only [Block.join]
      omega
    · exact le_refl _

/-- Freeing a large block at the top of the heap gives it back, with the free block that it
    touches. -/
theorem xfree_top (h : Consistent s free [t]) (habove : ∀ c ∈ free, c.stop ≤ t.addr)
    (hlarge : MIN_HEAP_FREE_SIZE ≤ t.length) :
    ∃ s', xfree s t.ptr = .ok s' ∧ Consistent s' (joinLeft free t).1 [] ∧
      s'.brk = (joinLeft free t).2.addr := by
  have hordered : Ordered (free ++ [t]) := by
    refine List.pairwise_append.mpr ⟨h.ordered, by simp, fun c hc d hd => ?_⟩
    obtain rfl := List.mem_singleton.mp hd
    exact habove c hc
  obtain ⟨hrelease, htop⟩ := release_above hordered
  have hlong : MIN_HEAP_FREE_SIZE ≤ (top free t).length := by
    rw [htop]
    exact hlarge.trans (length_le_joinLeft free t)
  obtain ⟨s', hrun, hcons, hbrk⟩ := xfree_spec h
  rw [freeAfter, if_pos hlong, hrelease, List.dropLast_concat] at hcons
  rw [brkAfter, if_pos hlong, htop] at hbrk
  exact ⟨s', hrun, hcons, hbrk⟩

/-- A large block that the heap has grown for is given back by freeing it: the break is where it
    was, or at the free block that ended there, and no live block is cut off. -/
theorem xmalloc_xfree_gives_back (h : SaneHeap s free live) (granted : Bool)
    (hlarge : MIN_HEAP_FREE_SIZE ≤ size) (hsize : size + sizeof_freelist_node < 2 ^ 63)
    (hshort : ∀ c ∈ free, c.length < size)
    (hsbrk : (sbrk s granted (size + sizeof_freelist_node)).2 ≠ SBRK_FAILED) :
    ∃ s₁ ptr s₂, xmalloc s granted size = .ok (s₁, ptr) ∧ ptr = s.brk + sizeof_freelist_node ∧
      xfree s₁ ptr = .ok s₂ ∧ is_freelist_sane s₂ = .ok true ∧ GivenBack s s₂ free ∧
      ∀ c ∈ live, c.stop ≤ s₂.brk := by
  have hwf := h.wellFormed
  have hsize' : size + sizeof_freelist_node < 2 ^ 64 := by omega
  obtain ⟨hgrowth, hcarve⟩ := carve_growth_large s hlarge
  have hstop : (growth s size).stop = s.brk + (size + sizeof_freelist_node) := by
    rw [hgrowth]
    simp only [Block.stop]
    omega
  have hincrement : XMAX (size + sizeof_freelist_node) MIN_HEAP_ALLOC_SIZE =
      size + sizeof_freelist_node := by
    have hstop' := growth_stop s size
    omega
  have hnone := hwf.search_none fun c hc => tooShort_of_lt hsize' (hshort c hc)
  obtain ⟨hroom, hgranted⟩ | hrefused := sbrk_cases s granted hsize
  · rw [← hstop] at hroom hgranted
    rw [← hincrement] at hgranted
    obtain ⟨s₁, t, m', hcarve', hmalloc, hwf₁, _⟩ := xmalloc_grown hwf granted hsize' hnone hroom hgranted
    rw [hcarve] at hcarve'
    obtain ⟨rfl, rfl⟩ := Prod.mk.inj (Option.some.inj hcarve')
    rw [List.append_nil] at hwf₁
    have habove (c : Block) (hc : c ∈ free) : c.stop ≤ s.brk := h.below c (List.mem_append_left live hc)
    obtain ⟨s₂, hfree, hcons, hbrk⟩ := xfree_top hwf₁.toConsistent habove hlarge
    refine ⟨s₁, _, s₂, hmalloc, hwf₁.toConsistent.ptr_eq (by simp), hfree,
      is_freelist_sane_spec hcons.linked hcons.walk_fuel, ?_⟩
    have hwalk := hcons.walk
    obtain rfl | ⟨k, a, rfl⟩ := List.eq_nil_or_concat' free
    · rw [joinLeft_nil] at hbrk hwalk
      refine ⟨Or.inr ⟨by simp, hbrk, hwalk⟩, fun c hc => ?_⟩
      rw [hbrk]
      exact h.below c (by simp [hc])
    · rw [joinLeft_concat] at hbrk hwalk
      by_cases htouch : a.stop = s.brk
      · rw [if_pos htouch] at hbrk hwalk
        refine ⟨Or.inl ⟨k, a, rfl, htouch, hbrk, hwalk⟩, fun c hc => ?_⟩
        -- a live block does not overlap the absorbed one and cannot lie above it
        have hapart := (List.pairwise_append.mp h.apart).2.2 a (by simp) c hc
        have hbelow := h.below c (List.mem_append_right _ hc)
        have := c.addr_lt_stop
        rw [hbrk]
        obtain hapart | hapart := hapart
        · omega
        · exact hapart
      · rw [if_neg htouch] at hbrk hwalk
        refine ⟨Or.inr ⟨by simpa using htouch, hbrk, hwalk⟩, fun c hc => ?_⟩
        rw [hbrk]
        exact h.below c (List.mem_append_right _ hc)
  · exact absurd (by rw [hrefused]) hsbrk

end Large

/-- The upper of two free blocks ends at the break and is given back with the new one. -/
theorem xmalloc_xfree_gives_back_twoFree :
    ∃ s₁ ptr s₂, xmalloc twoFree true 10000 = .ok (s₁, ptr) ∧ ptr = 4568 ∧ xfree s₁ ptr = .ok s₂ ∧
      is_freelist_sane s₂ = .ok true ∧ GivenBack twoFree s₂ [⟨4096, 100⟩, ⟨4320, 200⟩] ∧
      ∀ c ∈ [(⟨4220, 76⟩ : Block)], c.stop ≤ s₂.brk :=
  xmalloc_xfree_gives_back twoFree_sane true (by decide) (by decide) (by decide) (by decide)

end tlpi.heap
