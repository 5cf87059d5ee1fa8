import Tlpi.Xmalloc.FirstFit

namespace tlpi.heap

/-- What a caller of `xmalloc` relies on: the memory that it gets does not wrap around and lies
    below the break, which has not been lowered. -/
structure SizeSafe (s s' : State) (ptr size : Nat) : Prop where
  fits : ptr ≠ 0 → ptr + size < 2 ^ 64 ∧ ptr + size ≤ s'.brk
  brk : s.brk ≤ s'.brk

/-- The requests whose size the arithmetic of `xmalloc` can deal with. From half the address
    space on, `sbrk` takes the increment for a negative one, so that the request has to be met
    from the free list or the break must not move. For the last sizes the header no longer
    counts, and the request has to fail. -/
def Manageable (s : State) (free : List Block) (granted : Bool) (size : Nat) : Prop :=
  size + sizeof_freelist_node < 2 ^ 63 ∨
    (size + sizeof_freelist_node < 2 ^ 64 ∧
      ((∃ c ∈ free, size ≤ c.length) ∨ granted = false ∨
        s.brk + (size + sizeof_freelist_node) < 2 ^ 64)) ∨
    2 ^ 64 ≤ size + sizeof_freelist_node ∧
      (∀ c ∈ free, c.length < size + sizeof_freelist_node - 2 ^ 64) ∧
      (granted = false ∨ 2 ^ 64 ≤ s.brk + MIN_HEAP_ALLOC_SIZE)

section Search

variable {s : State}

/-- The search is done at a block that is long enough, and does not move the break. -/
theorem get_free_block_taken (size : Nat) {b : Nat} (hne : b ≠ 0)
    (hfit : size_add size sizeof_freelist_node ≤ s.length b ∨ size ≤ s.length b) :
    ∃ s', freelist_get_free_block_body s size b = .ok (.done (s', b)) ∧ s'.brk = s.brk := by
  by_cases hsplit : size_add size sizeof_freelist_node ≤ s.length b
  · rw [freelist_get_free_block_body, if_pos hne, if_pos hsplit, block_split_eq s hsplit rfl]
    refine ⟨_, rfl, ?_⟩
    rw [(taken_fields _ b size).2.2.2.2, (splitState_fields s b size _).2.2.2.2]
  · rw [freelist_get_free_block_body, if_pos hne, if_neg hsplit, if_pos (hfit.resolve_left hsplit)]
    exact ⟨_, rfl, (taken_fields s b _).2.2.2.2⟩

/-- A search that starts at a block that is long enough. -/
theorem freelist_get_free_block_taken (size : Nat) {b : Nat} (hne : b ≠ 0)
    (hfit : size_add size sizeof_freelist_node ≤ s.length b ∨ size ≤ s.length b) :
    ∃ s', freelist_get_free_block s b size = .ok (s', b) ∧ s'.brk = s.brk := by
  obtain ⟨s', hbody, hbrk⟩ := get_free_block_taken size hne hfit
  have hfuel : ADDRESSES = (2 ^ 64 - 1) + 1 := by decide
  refine ⟨s', ?_, hbrk⟩
  rw [freelist_get_free_block, hfuel, loop_done hbody]

end Search

section Sizes

variable {s : State} {free : List Block} {size : Nat}

/-- A header that is written at the old break, with any length, gets on the free list. -/
theorem WellFormed.insert_at_break (h : WellFormed s free []) (brk length : Nat) :
    ∃ s', freelist_insert ((block_init { s with brk := brk } s.brk).set_length s.brk length) s.brk =
        .ok s' ∧ s'.brk = brk ∧ s'.length s.brk = length := by
  have hinit := h.toConsistent.init_above (b := ⟨s.brk, length⟩) brk fun c hc => Or.inl (h.below c hc)
  have hlinked := hinit.linked
  rw [← List.append_nil (free.map Block.addr)] at hlinked
  obtain ⟨s', hinsert, _, hkeep, hlength⟩ := freelist_insert_spec hlinked h.brk_pos.ne'
    (fun x hx => by
      obtain ⟨c, hc, rfl⟩ := List.mem_map.mp hx
      exact lt_of_lt_of_le c.addr_lt_stop (h.below c (List.mem_append_left _ hc)))
    (by simp) (fun _ => by simp [block_init]) hinit.walk_fuel
  exact ⟨s', hinsert, hkeep.1, by simp [hlength]⟩

/-- When the break has moved and the length that is computed from it is enough for the search,
    the memory at the old break is handed out. -/
theorem xmalloc_at_break (h : WellFormed s free []) {granted : Bool} {brk length : Nat}
    (hshort : freelist_get_free_block s s.FreeList size = .ok (s, 0))
    (hsbrk : sbrk s granted (XMAX (size_add size sizeof_freelist_node) MIN_HEAP_ALLOC_SIZE) =
      ({ s with brk := brk }, s.brk))
    (hold : s.brk ≠ SBRK_FAILED) (hlength : size_sub (size_sub brk s.brk) sizeof_freelist_node = length)
    (hfit : size_add size sizeof_freelist_node ≤ length ∨ size ≤ length) :
    ∃ s', xmalloc s granted size = .ok (s', user_addr s.brk) ∧ s'.brk = brk := by
  obtain ⟨s₁, hinsert, hbrk₁, hlength₁⟩ := h.insert_at_break brk length
  obtain ⟨s₂, hget, hbrk₂⟩ := freelist_get_free_block_taken size (s := s₁) h.brk_pos.ne' (by rwa [hlength₁])
  have hrun := xmalloc_moved hshort hsbrk hold hlength hinsert hget h.brk_pos.ne'
  exact ⟨s₂, hrun, hbrk₂.trans hbrk₁⟩

/-- A block from the free list that is long enough is safe. -/
theorem sizeSafe_of_block (h : WellFormed s free []) {s' : State} {b : Block} (hb : b ∈ free)
    (hfit : size ≤ b.length) (hbrk : s'.brk = s.brk) : SizeSafe s s' b.ptr size := by
  have hbelow := h.below b (List.mem_append_left _ hb)
  have hlt := h.brk_lt
  have hptr := h.toConsistent.ptr_eq (List.mem_append_left [] hb)
  unfold Block.stop at hbelow
  exact ⟨fun _ => ⟨by omega, by omega⟩, hbrk.ge⟩

/-- A failed request is safe. -/
theorem sizeSafe_failed {s' : State} (hbrk : s'.brk = s.brk) : SizeSafe s s' 0 size :=
  ⟨fun hne => absurd rfl hne, hbrk.ge⟩

/-- Requests of less than half the address space are safe. -/
theorem xmalloc_small (h : WellFormed s free []) (granted : Bool)
    (hsmall : size + sizeof_freelist_node < 2 ^ 63) :
    ∃ s' ptr, xmalloc s granted size = .ok (s', ptr) ∧ SizeSafe s s' ptr size := by
  obtain ⟨s', ptr, hrun, ⟨l₁, b, l₂, rfl, hlist⟩ | hrefused | hgrown⟩ := xmalloc_outcomes h granted hsmall
  · refine ⟨s', ptr, hrun, ?_⟩
    rw [hlist.ptr, ← h.toConsistent.ptr_eq (b := b) (by simp)]
    exact sizeSafe_of_block h (by simp) hlist.fits hlist.brk
  · refine ⟨s', ptr, hrun, ?_⟩
    rw [hrefused.ptr, hrefused.state]
    exact sizeSafe_failed rfl
  · have halloc : max (size + sizeof_freelist_node) MIN_HEAP_ALLOC_SIZE < 2 ^ 63 :=
      max_lt hsmall (by decide)
    obtain ⟨hroom, _⟩ | hfailed := sbrk_cases s granted halloc
    · have hle := le_max_left (size + sizeof_freelist_node) MIN_HEAP_ALLOC_SIZE
      have hptr := hgrown.ptr
      have hbrk := hgrown.brk
      exact ⟨s', ptr, hrun, fun _ => ⟨by omega, by omega⟩, by omega⟩
    · exact absurd (by rw [hfailed]) hgrown.sbrk

section Sbrk

variable {granted : Bool} {increment : Nat}

/-- `sbrk` fails when it would lower the break below zero. -/
theorem sbrk_negative_refused (hlow : 2 ^ 63 ≤ increment)
    (hstays : granted = false ∨ s.brk + increment < 2 ^ 64) :
    sbrk s granted increment = ({ s with errno := .ENOMEM }, SBRK_FAILED) := by
  rw [sbrk, to_signed, if_neg (not_lt.mpr hlow), if_neg]
  rintro ⟨hgranted, hpos, _⟩
  obtain hrefused | hbelow := hstays
  · rw [hgranted] at hrefused
    cases hrefused
  · omega

/-- `sbrk` lowers the break for an increment from half the address space on. -/
theorem sbrk_negative_granted (hlow : 2 ^ 63 ≤ increment) (hgranted : granted = true)
    (habove : 2 ^ 64 ≤ s.brk + increment) (hincrement : increment < 2 ^ 64) (hlt : s.brk < 2 ^ 64) :
    sbrk s granted increment = ({ s with brk := s.brk + increment - 2 ^ 64 }, s.brk) := by
  have hbrk : ((s.brk : Int) + ((increment : Int) - 2 ^ 64)).toNat = s.brk + increment - 2 ^ 64 := by
    omega
  rw [sbrk, to_signed, if_neg (not_lt.mpr hlow), if_pos ⟨hgranted, by omega, by omega⟩, hbrk]

/-- `sbrk` fails when the new break would not be an address. -/
theorem sbrk_positive_refused (hlow : increment < 2 ^ 63)
    (hstays : granted = false ∨ 2 ^ 64 ≤ s.brk + increment) :
    sbrk s granted increment = ({ s with errno := .ENOMEM }, SBRK_FAILED) := by
  rw [sbrk, to_signed_eq hlow, if_neg]
  rintro ⟨hgranted, _, hlt⟩
  obtain hrefused | habove := hstays
  · rw [hgranted] at hrefused
    cases hrefused
  · omega

/-- `sbrk` raises the break for an increment of less than half the address space. -/
theorem sbrk_positive_granted (hlow : increment < 2 ^ 63) (hgranted : granted = true)
    (hroom : s.brk + increment < 2 ^ 64) :
    sbrk s granted increment = ({ s with brk := s.brk + increment }, s.brk) := by
  rw [sbrk, to_signed_eq hlow, if_pos ⟨hgranted, by omega, by omega⟩]
  rfl

/-- The length that `xmalloc` computes from a break that has been lowered wraps around to the
    size of the request. -/
theorem lowered_length {brk : Nat} (hhigh : size + sizeof_freelist_node < 2 ^ 64)
    (habove : 2 ^ 64 ≤ brk + (size + sizeof_freelist_node)) :
    size_sub (size_sub (brk + (size + sizeof_freelist_node) - 2 ^ 64) brk) sizeof_freelist_node = size := by
  unfold size_sub sizeof_freelist_node
  unfold sizeof_freelist_node at hhigh habove
  omega

end Sbrk

/-- Requests for which the increment of `sbrk` is negative: safe if and only if the free list
    meets them or the break does not move. -/
theorem xmalloc_middle (h : WellFormed s free []) (granted : Bool)
    (hlow : 2 ^ 63 ≤ size + sizeof_freelist_node) (hhigh : size + sizeof_freelist_node < 2 ^ 64) :
    ∃ s' ptr, xmalloc s granted size = .ok (s', ptr) ∧
      (SizeSafe s s' ptr size ↔ (∃ c ∈ free, size ≤ c.length) ∨ granted = false ∨
        s.brk + (size + sizeof_freelist_node) < 2 ^ 64) := by
  obtain hshort | ⟨l₁, b, l₂, rfl, hsmall, hfit⟩ := exists_first_fit size free
  · have hnone := h.search_none fun c hc => tooShort_of_lt hhigh (hshort c hc)
    have hnofit : ¬∃ c ∈ free, size ≤ c.length := by
      rintro ⟨c, hc, hle⟩
      exact absurd (hshort c hc) (not_lt.mpr hle)
    have hlt := h.brk_lt
    have hincrement : XMAX (size_add size sizeof_freelist_node) MIN_HEAP_ALLOC_SIZE =
        size + sizeof_freelist_node := by
      rw [size_add_eq hhigh, XMAX_eq_max]
      exact max_eq_left (le_trans (by decide) hlow)
    by_cases hstays : granted = false ∨ s.brk + (size + sizeof_freelist_node) < 2 ^ 64
    · have hsbrk := sbrk_negative_refused hlow hstays
      rw [← hincrement] at hsbrk
      exact ⟨_, 0, xmalloc_refused hnone hsbrk, iff_of_true (sizeSafe_failed rfl) (Or.inr hstays)⟩
    · obtain ⟨hgranted, hmoves⟩ := not_or.mp hstays
      have hsbrk : sbrk s granted (XMAX (size_add size sizeof_freelist_node) MIN_HEAP_ALLOC_SIZE) =
          ({ s with brk := s.brk + (size + sizeof_freelist_node) - 2 ^ 64 }, s.brk) := by
        rw [hincrement]
        exact sbrk_negative_granted hlow (by simpa using hgranted) (not_lt.mp hmoves) hhigh hlt
      have hbad (s' : State) (ptr : Nat)
          (hbrk : s'.brk = s.brk + (size + sizeof_freelist_node) - 2 ^ 64) :
          ¬SizeSafe s s' ptr size := by
        intro hsafe
        have := hsafe.brk
        omega
      by_cases hold : s.brk = SBRK_FAILED
      · -- the old break is mistaken for a failure, after it has been lowered
        have hfailed : sbrk s granted (XMAX (size_add size sizeof_freelist_node) MIN_HEAP_ALLOC_SIZE) =
            ({ s with brk := s.brk + (size + sizeof_freelist_node) - 2 ^ 64 }, SBRK_FAILED) := by
          rw [hsbrk, ← hold]
        exact ⟨_, 0, xmalloc_refused hnone hfailed,
          iff_of_false (hbad _ 0 rfl) (not_or.mpr ⟨hnofit, hstays⟩)⟩
      · have hlength := lowered_length hhigh (not_lt.mp hmoves)
        obtain ⟨s', hrun, hbrk⟩ := xmalloc_at_break h hnone hsbrk hold hlength (Or.inr (le_refl size))
        exact ⟨s', _, hrun, iff_of_false (hbad s' _ hbrk) (not_or.mpr ⟨hnofit, hstays⟩)⟩
  · refine ⟨_, _, xmalloc_handOut h.toConsistent granted hhigh hsmall hfit, ?_⟩
    exact iff_of_true (sizeSafe_of_block h (by simp) hfit (handOut_brk s b size))
      (Or.inl ⟨b, by simp, hfit⟩)

/-- The last sizes: what the search and the heap's growth look for is less than a header. -/
theorem wrapped_size (hsize : size < 2 ^ 64) (hwrap : 2 ^ 64 ≤ size + sizeof_freelist_node) :
    size_add size sizeof_freelist_node = size + sizeof_freelist_node - 2 ^ 64 := by
  unfold size_add
  have hnode : sizeof_freelist_node = 24 := rfl
  omega

/-- No memory is long enough for the last sizes. -/
theorem not_sizeSafe_of_wrapped (s s' : State) {addr : Nat} (haddr : 0 < addr)
    (hfits : addr + sizeof_freelist_node < 2 ^ 64) (hwrap : 2 ^ 64 ≤ size + sizeof_freelist_node) :
    ¬SizeSafe s s' (user_addr addr) size := by
  intro hsafe
  rw [user_addr, size_add_eq hfits] at hsafe
  have := (hsafe.fits (by omega)).1
  omega

/-- For the last sizes any memory at all is handed out, so that the request is safe if and only
    if it fails. -/
theorem xmalloc_wrapped (h : WellFormed s free []) (granted : Bool) (hsize : size < 2 ^ 64)
    (hwrap : 2 ^ 64 ≤ size + sizeof_freelist_node) :
    ∃ s' ptr, xmalloc s granted size = .ok (s', ptr) ∧
      (SizeSafe s s' ptr size ↔ (∀ c ∈ free, c.length < size + sizeof_freelist_node - 2 ^ 64) ∧
        (granted = false ∨ 2 ^ 64 ≤ s.brk + MIN_HEAP_ALLOC_SIZE)) := by
  have hneed := wrapped_size hsize hwrap
  have hnode : sizeof_freelist_node = 24 := rfl
  have hmin : MIN_HEAP_ALLOC_SIZE = 4096 := rfl
  have hlong (c : Block) (hc : c ∈ free) : c.length < size := by
    have hfits := h.fits c (List.mem_append_left _ hc)
    unfold Block.stop at hfits
    omega
  obtain hshort | ⟨l₁, b, l₂, rfl, hsmall, hfit⟩ :=
    exists_first_fit (size + sizeof_freelist_node - 2 ^ 64) free
  · have hnone := h.search_none fun c hc => ⟨by rw [hneed]; exact hshort c hc, hlong c hc⟩
    have hincrement : XMAX (size_add size sizeof_freelist_node) MIN_HEAP_ALLOC_SIZE =
        MIN_HEAP_ALLOC_SIZE := by
      rw [hneed, XMAX_eq_max]
      exact max_eq_right (by omega)
    by_cases hstays : granted = false ∨ 2 ^ 64 ≤ s.brk + MIN_HEAP_ALLOC_SIZE
    · have hsbrk := sbrk_positive_refused (by decide) hstays
      rw [← hincrement] at hsbrk
      exact ⟨_, 0, xmalloc_refused hnone hsbrk, iff_of_true (sizeSafe_failed rfl) ⟨hshort, hstays⟩⟩
    · obtain ⟨hgranted, hroom⟩ := not_or.mp hstays
      have hsbrk : sbrk s granted (XMAX (size_add size sizeof_freelist_node) MIN_HEAP_ALLOC_SIZE) =
          ({ s with brk := s.brk + MIN_HEAP_ALLOC_SIZE }, s.brk) := by
        rw [hincrement]
        exact sbrk_positive_granted (by decide) (by simpa using hgranted) (not_le.mp hroom)
      have hlength : size_sub (size_sub (s.brk + MIN_HEAP_ALLOC_SIZE) s.brk) sizeof_freelist_node =
          MIN_HEAP_ALLOC_SIZE - sizeof_freelist_node := by
        have hgrown : size_sub (s.brk + MIN_HEAP_ALLOC_SIZE) s.brk = MIN_HEAP_ALLOC_SIZE := by
          rw [size_sub_eq (by omega) (by omega)]
          omega
        rw [hgrown, size_sub_eq (by omega) (by omega)]
      obtain ⟨s', hrun, _⟩ := xmalloc_at_break h hnone hsbrk (by unfold SBRK_FAILED; omega) hlength
        (Or.inl (by omega))
      have hbad := not_sizeSafe_of_wrapped s s' h.brk_pos (by omega) hwrap
      exact ⟨s', _, hrun, iff_of_false hbad fun hcond => hstays hcond.2⟩
  · have hmem : b ∈ l₁ ++ b :: l₂ ++ [] := by simp
    have hcons : Consistent s ([] ++ (l₁ ++ b :: l₂)) [] := h.toConsistent
    have hne := (h.fits b hmem).1.ne'
    obtain ⟨s', hbody, _⟩ := get_free_block_taken size hne
      (Or.inl (by rw [hneed, h.lengths b hmem]; exact hfit))
    have hget := freelist_get_free_block_first hcons
      (fun c hc => ⟨by rw [hneed]; exact hsmall c hc, hlong c (by simp [hc])⟩) hbody
    rw [← h.linked.head] at hget
    have hrun : xmalloc s granted size = .ok (s', user_addr b.addr) := by
      simp [xmalloc, hget, hne]
    have hbad := not_sizeSafe_of_wrapped s s' (h.fits b hmem).1
      (h.toConsistent.ptr_fits hmem) hwrap
    refine ⟨s', _, hrun, iff_of_false hbad fun hcond => ?_⟩
    exact absurd (hcond.1 b (by simp)) (not_lt.mpr hfit)

/-- Exactly when the size arithmetic of `xmalloc` is safe. -/
theorem xmalloc_sizeSafe_iff {live : List Block} (h : SaneHeap s free live) (granted : Bool)
    (hsize : size < 2 ^ 64) :
    ∃ s' ptr, xmalloc s granted size = .ok (s', ptr) ∧
      (SizeSafe s s' ptr size ↔ Manageable s free granted size) := by
  have hwf := h.wellFormed
  unfold Manageable
  obtain hsmall | hlow := Nat.lt_or_ge (size + sizeof_freelist_node) (2 ^ 63)
  · obtain ⟨s', ptr, hrun, hsafe⟩ := xmalloc_small hwf granted hsmall
    exact ⟨s', ptr, hrun, iff_of_true hsafe (Or.inl hsmall)⟩
  · obtain hhigh | hwrap := Nat.lt_or_ge (size + sizeof_freelist_node) (2 ^ 64)
    · obtain ⟨s', ptr, hrun, hiff⟩ := xmalloc_middle hwf granted hlow hhigh
      refine ⟨s', ptr, hrun, hiff.trans ⟨fun hcond => Or.inr (Or.inl ⟨hhigh, hcond⟩), ?_⟩⟩
      rintro (hsmall | ⟨_, hcond⟩ | ⟨hwrap, _⟩)
      · omega
      · exact hcond
      · omega
    · obtain ⟨s', ptr, hrun, hiff⟩ := xmalloc_wrapped hwf granted hsize hwrap
      refine ⟨s', ptr, hrun, hiff.trans ⟨fun hcond => Or.inr (Or.inr ⟨hwrap, hcond⟩), ?_⟩⟩
      rintro (hsmall | ⟨hhigh, _⟩ | ⟨_, hcond⟩)
      · omega
      · omega
      · exact hcond

end Sizes

/-- A request for half a kilobyte less than a page, which the heap grows for. -/
theorem xmalloc_sizeSafe_twoFree :
    ∃ s' ptr, xmalloc twoFree true 3584 = .ok (s', ptr) ∧
      (SizeSafe twoFree s' ptr 3584 ↔ Manageable twoFree [⟨4096, 100⟩, ⟨4320, 200⟩] true 3584) :=
  xmalloc_sizeSafe_iff twoFree_sane true (by decide)

/-- A request for all addresses but a header is met by a block of 100 bytes. -/
theorem xmalloc_twoFree_wraps :
    SaneHeap twoFree [⟨4096, 100⟩, ⟨4320, 200⟩] [⟨4220, 76⟩] ∧
      ∃ s', xmalloc twoFree true (2 ^ 64 - 24) = .ok (s', 4120) ∧
        ¬SizeSafe twoFree s' 4120 (2 ^ 64 - 24) := by
  refine ⟨twoFree_sane, ?_⟩
  obtain ⟨s', hget, _⟩ := freelist_get_free_block_taken (s := twoFree) (2 ^ 64 - 24)
    (b := 4096) (by decide) (Or.inl (by decide))
  have hget : freelist_get_free_block twoFree twoFree.FreeList (2 ^ 64 - 24) = .ok (s', 4096) := hget
  refine ⟨s', ?_, fun hsafe => ?_⟩
  · rw [xmalloc, hget]
    rfl
  · have := (hsafe.fits (by decide)).1
    omega

end tlpi.heap
