import Tlpi.Xmalloc.Coalesce

namespace tlpi.heap

section Relinked

variable {s : State} {l : List Nat} {a b right v : Nat}

/-- The merge of two nodes writes the back link of the node after them. -/
theorem block_merge_relinked (hne : a ≠ right) (hnext : s.next right = l.headD 0) (hl : 0 ∉ l) :
    block_merge (s.relinked v l) a right = block_merge s a right := by
  cases l with
  | nil => rfl
  | cons next l =>
    have hnext0 : next ≠ 0 := by
      rintro rfl
      simp at hl
    have hnext : s.next right = next := hnext
    simp [block_merge, State.relinked, State.set_prev, State.set_next, State.set_length, block_init,
      Function.update_of_ne (Ne.symm hne), hnext, hnext0]

/-- The insertion in front of a node neither reads nor writes the back link of the one after
    it. -/
theorem inserted_relinked (hright : right ≠ 0) (hl : right ∉ l) (hb : b ∉ l) (last : Nat) :
    inserted (s.relinked v l) b last right = (inserted s b last right).relinked v l := by
  cases l with
  | nil => rfl
  | cons next l =>
    have hnr : right ≠ next := by
      rintro rfl
      simp at hl
    have hnb : b ≠ next := by
      rintro rfl
      simp at hb
    unfold inserted
    by_cases hlast : last = 0 <;>
      simp [hright, hlast, State.relinked, State.set_prev, State.set_next, Function.update_of_ne hnr,
        Function.update_comm hnr, Function.update_comm hnb]

/-- Nor does it matter to the second merge of `xfree`, when the first one has nothing to do. -/
theorem merge_neighbours_relinked (hb : b ∉ l) (hright : s.next b = right) (hne : b ≠ right) (hright0 : right ≠ 0)
    (hleft : ¬ (s.prev b ≠ 0 ∧ adjacent s (s.prev b) b = true)) (hadjacent : adjacent s b right = true)
    (hnext : s.next right = l.headD 0) (hl : 0 ∉ l) :
    merge_neighbours (s.relinked v l) b = merge_neighbours s b := by
  have hsame (x y : Nat) : adjacent (s.relinked v l) x y = adjacent s x y := by simp [adjacent]
  simp only [merge_neighbours, hsame, relinked_prev_of_not_mem hb, relinked_next, hright,
    if_neg hleft, hadjacent, and_true, if_pos hright0, block_merge_relinked hne hnext hl]

end Relinked

section Insert

variable {s : State} {k m : List Nat} {block right : Nat}

/-- `freelist_insert` of a block in front of a node, by the forward links alone. -/
theorem freelist_insert_before {pred : Nat → Nat} (h : Ring s.succ pred 0 (k ++ right :: m))
    (hlow : ∀ x ∈ k, x < block) (hhigh : ∀ x ∈ right :: m, block < x) (hfuel : k.length < ADDRESSES) :
    freelist_insert s block = .ok (inserted s block (k.getLastD 0) right) := by
  have hring : Ring s.succ pred 0 ([] ++ (k ++ right :: m)) := h
  have hhead : s.FreeList = (k ++ right :: m).headD 0 := by
    simpa [State.succ] using hring.succ_last
  have hne : s.FreeList ≠ 0 := by
    rw [hhead]
    exact ne_of_mem_of_not_mem (headD_mem 0 (by simp)) h.not_mem
  rw [freelist_insert, if_neg hne, hhead]
  exact freelist_insert_loop h hlow hhigh hfuel

/-- What the insertion leaves in a list of which one back link is missing. -/
theorem freelist_insert_relinked (h : (s.relinked right m).Linked (k ++ right :: m))
    (hblock : block ≠ 0) (hlow : ∀ x ∈ k, x < block) (hhigh : ∀ x ∈ right :: m, block < x)
    (hfuel : k.length < ADDRESSES) :
    ∃ s', freelist_insert s block = .ok s' ∧
      freelist_insert (s.relinked right m) block = .ok (s'.relinked right m) ∧ s'.next block = right ∧
      s'.prev block = k.getLastD 0 ∧ s'.next right = m.headD 0 ∧ s'.length = s.length := by
  have hsame : (s.relinked right m).succ = s.succ := funext relinked_succ
  have hring : Ring s.succ (s.relinked right m).prev 0 (k ++ right :: m) := by
    rw [← hsame]
    exact h
  have hright : right ≠ 0 := h.mem_ne_zero (by simp)
  have hnodup := (List.nodup_append.mp (List.nodup_cons.mp h.nodup).2).2.1
  have hrm : right ∉ m := (List.nodup_cons.mp hnodup).1
  have hbm : block ∉ m := fun hmem => (hhigh _ (List.mem_cons_of_mem _ hmem)).ne rfl
  have hbr : block < right := hhigh right (by simp)
  have hlast : k.getLastD 0 < block := by
    obtain hzero | hmem := List.mem_cons.mp (getLastD_mem 0 k)
    · rw [hzero]
      omega
    · exact hlow _ hmem
  have hback : s.prev right = k.getLastD 0 := by
    rw [← relinked_prev_of_not_mem hrm]
    exact h.prev_mid
  have hforth : s.next right = m.headD 0 := by
    rw [← h.next_mid, relinked_next]
  have hinsert := freelist_insert_before h hlow hhigh hfuel
  rw [inserted_relinked hright hrm hbm] at hinsert
  refine ⟨_, freelist_insert_before hring hlow hhigh hfuel, hinsert, ?_, ?_, ?_, inserted_length _ _ _ _⟩
  · rw [inserted_next s hlast.ne' (Or.inr hright), if_pos rfl]
  · rw [inserted_prev s (fun _ => hback) hbr.ne', if_pos rfl]
  · rw [inserted_next s hlast.ne' (Or.inr hright), if_neg hbr.ne', if_neg, hforth]
    rintro ⟨_, heq⟩
    omega

end Insert

section Restore

variable {s : State} {free live l₁ l₂ m' : List Block} {b r t : Block} {size : Nat}

/-- Freeing a block that touches the node after it, but not the one before, does not depend on
    the back link of the node after next: the merge writes it again. -/
theorem xfree_relinked
    (h : Consistent (s.relinked r.addr (l₂.map Block.addr)) (l₁ ++ r :: l₂) (b :: live))
    (hright : b.stop = r.addr) (hleft : ∀ a ∈ l₁, a.stop < b.addr) :
    xfree s b.ptr = xfree (s.relinked r.addr (l₂.map Block.addr)) b.ptr := by
  have hordered := h.ordered
  simp only [Ordered, List.pairwise_append, List.pairwise_cons] at hordered
  have hbstop := b.addr_lt_stop
  have hlow (x : Nat) (hx : x ∈ l₁.map Block.addr) : x < b.addr := by
    obtain ⟨a, ha, rfl⟩ := List.mem_map.mp hx
    exact a.addr_lt_stop.trans (hleft a ha)
  have hhigh (x : Nat) (hx : x ∈ r.addr :: l₂.map Block.addr) : b.addr < x := by
    obtain rfl | hx := List.mem_cons.mp hx
    · omega
    · obtain ⟨c, hc, rfl⟩ := List.mem_map.mp hx
      have := hordered.2.1.1 c hc
      have := r.addr_lt_stop
      omega
  have hlinked : (s.relinked r.addr (l₂.map Block.addr)).Linked
      (l₁.map Block.addr ++ r.addr :: l₂.map Block.addr) := by simpa using h.linked
  have hfuel : (l₁.map Block.addr).length < ADDRESSES := by
    have := h.walk_fuel
    simp only [List.length_map, List.length_append] at this ⊢
    omega
  have hbmem : b ∈ l₁ ++ r :: l₂ ++ b :: live := by simp
  have hbl : b.addr ∉ l₂.map Block.addr := fun hmem => (hhigh _ (List.mem_cons_of_mem _ hmem)).ne rfl
  have hzero : 0 ∉ l₂.map Block.addr := fun hmem => hlinked.mem_ne_zero (by simp [hmem]) rfl
  obtain ⟨s', hinsert, hinsert', hnext, hprev, hforth, hlength⟩ :=
    freelist_insert_relinked hlinked (h.fits b hbmem).1.ne' hlow hhigh hfuel
  have hlength (c : Block) (hc : c ∈ l₁ ++ r :: l₂ ++ b :: live) : s'.length c.addr = c.length := by
    rw [hlength, ← relinked_length]
    exact h.lengths c hc
  have hapart : ¬ (s'.prev b.addr ≠ 0 ∧ adjacent s' (s'.prev b.addr) b.addr = true) := by
    rw [hprev]
    rintro ⟨hlast, hadjacent⟩
    obtain ⟨a, ha, heq⟩ :=
      List.mem_map.mp ((List.mem_cons.mp (getLastD_mem 0 (l₁.map Block.addr))).resolve_left hlast)
    have hmem : a ∈ l₁ ++ r :: l₂ ++ b :: live := by simp [ha]
    rw [← heq, adjacent_iff (hlength a hmem) (h.fits a hmem).2] at hadjacent
    exact (hleft a ha).ne hadjacent
  have htouch := (adjacent_iff (hlength b hbmem) (h.fits b hbmem).2 r.addr).mpr hright
  have hmerge := merge_neighbours_relinked (v := r.addr) hbl hnext (hhigh _ (by simp)).ne
    (hlinked.mem_ne_zero (by simp)) hapart htouch hforth hzero
  have haddr : malloc_addr b.ptr = b.addr := malloc_addr_user_addr (h.ptr_fits hbmem)
  have hptr : b.ptr ≠ 0 := user_addr_ne_zero (h.ptr_fits hbmem)
  have hmerged : xfree_merged s b.ptr = xfree_merged (s.relinked r.addr (l₂.map Block.addr)) b.ptr := by
    simp only [xfree_merged, haddr, hinsert, hinsert', exec_bind_ok, hmerge]
  rw [xfree, if_neg hptr, xfree, if_neg hptr, hmerged]

/-- The parts of a split block in their place, and what they take. -/
theorem Sparse.split (h : Sparse (l₁ ++ b :: l₂)) (hbig : size + sizeof_freelist_node ≤ b.length) :
    Sparse (l₁ ++ b.left size :: l₂) ∧ (∀ c ∈ l₁ ++ b.left size :: l₂, c.Apart (b.used size)) ∧
      extent (l₁ ++ b.left size :: l₂) ∪ Set.Ico (b.used size).addr (b.used size).stop =
        extent (l₁ ++ b :: l₂) := by
  obtain ⟨hused, hmid, hstop⟩ := b.split_extents hbig
  have hlt := (b.used size).addr_lt_stop
  have hlt' := (b.left size).addr_lt_stop
  simp only [Sparse, List.pairwise_append, List.pairwise_cons, List.mem_cons] at h ⊢
  obtain ⟨hlow, ⟨hhigh, hrest⟩, hcross⟩ := h
  refine ⟨⟨hlow, ⟨fun c hc => ?_, hrest⟩, fun c hc d hd => ?_⟩, fun c hc => ?_, ?_⟩
  · have := hhigh c hc
    omega
  · obtain rfl | hd := hd
    · have := hcross c hc b (Or.inl rfl)
      omega
    · exact hcross c hc d (Or.inr hd)
  · unfold Block.Apart
    obtain hc | hc := List.mem_append.mp hc
    · have := hcross c hc b (Or.inl rfl)
      omega
    · obtain rfl | hc := List.mem_cons.mp hc
      · omega
      · have := hhigh c hc
        omega
  · have hwhole : Set.Ico (b.used size).addr (b.used size).stop ∪
        Set.Ico (b.left size).addr (b.left size).stop = Set.Ico b.addr b.stop := by
      rw [← hmid, hstop, Set.Ico_union_Ico_eq_Ico hlt.le (by omega), hused]
    simp only [extent_append, extent_cons, ← hwhole]
    ext x
    simp only [Set.mem_union]
    tauto

/-- Releasing what first fit has taken gives the list back. -/
theorem release_carve (h : Sparse free) (hcarve : carve size free = some (t, m')) :
    release m' t = free := by
  obtain ⟨l₁, b, l₂, rfl, hsmall, hfit, ⟨hbig, rfl, rfl⟩ | ⟨hsmallb, rfl, rfl⟩⟩ := carve_cases hcarve
  · obtain ⟨hsparse, hapart, hextent⟩ := h.split hbig
    obtain ⟨_, hreleased, hkeeps⟩ := release_spec (hsparse.imp le_of_lt) hapart
    apply (hkeeps hsparse).eq_of_extent_eq h
    rw [hreleased, hextent]
  · have hsparse : Sparse (l₁ ++ l₂) := h.sublist ((List.sublist_cons_self t l₂).append_left l₁)
    have hapart (c : Block) (hc : c ∈ l₁ ++ l₂) : c.Apart t := by
      simp only [Sparse, List.pairwise_append, List.pairwise_cons, List.mem_cons] at h
      obtain hc | hc := List.mem_append.mp hc
      · exact Or.inl (h.2.2 c hc t (Or.inl rfl)).le
      · exact Or.inr (h.2.1.1 c hc).le
    obtain ⟨_, hreleased, hkeeps⟩ := release_spec (hsparse.imp le_of_lt) hapart
    apply (hkeeps hsparse).eq_of_extent_eq h
    rw [hreleased, extent_append, extent_append, extent_cons]
    ext x
    simp only [Set.mem_union]
    tauto

/-- What `xfree` makes of the state in which `xmalloc` has handed out a block. -/
theorem xfree_handOut (h : Consistent s (l₁ ++ b :: l₂) live) (hsparse : Sparse (l₁ ++ b :: l₂))
    (hsmall : ∀ c ∈ l₁, c.length < size) (hfit : size ≤ b.length) :
    ∃ t m' s', carve size (l₁ ++ b :: l₂) = some (t, m') ∧
      xfree (handOut s b size) b.ptr = .ok s' ∧ Consistent s' (freeAfter m' t) live ∧
      s'.brk = brkAfter s m' t := by
  have hcarve : carve size (l₁ ++ b :: l₂) = _ := carve_append hsmall hfit
  by_cases hbig : size + sizeof_freelist_node ≤ b.length
  · rw [if_pos hbig] at hcarve
    have hcons := h.handOut_split hbig
    have hleft (a : Block) (ha : a ∈ l₁) : a.stop < (b.used size).addr :=
      (List.pairwise_append.mp hsparse).2.2 a ha b (by simp)
    have hsame := xfree_relinked hcons (b.split_extents hbig).2.1 hleft
    obtain ⟨s', hrun, hcons', hbrk⟩ := xfree_spec hcons
    refine ⟨_, _, s', hcarve, hsame.trans hrun, hcons', ?_⟩
    rw [hbrk, brkAfter, brkAfter, relinked_brk, handOut_brk]
  · rw [if_neg hbig] at hcarve
    have hcons : Consistent (handOut s b size) (l₁ ++ l₂) (b :: live) := h.handOut_whole (by omega)
    obtain ⟨s', hrun, hcons', hbrk⟩ := xfree_spec hcons
    refine ⟨_, _, s', hcarve, hrun, hcons', ?_⟩
    rw [hbrk, brkAfter, brkAfter, handOut_brk]

/-- The first block that is long enough, once it was allocated from the free list and freed again,
    is back in its place, and every link, every length and the break are as they were. -/
theorem xmalloc_xfree_restores (h : SaneHeap s free live) (htouch : NoTouching free)
    (hlast : ∀ c ∈ free.getLast?, c.length < MIN_HEAP_FREE_SIZE) (granted : Bool)
    (hsize : size + sizeof_freelist_node < 2 ^ 63) (hfit : ∃ c ∈ free, size ≤ c.length) :
    ∃ s₁ ptr s₂, xmalloc s granted size = .ok (s₁, ptr) ∧ xfree s₁ ptr = .ok s₂ ∧
      (free.find? fun c => size ≤ c.length).map (fun c => c.addr + sizeof_freelist_node) = some ptr ∧
      s₂.FreeList = s.FreeList ∧ s₂.brk = s.brk ∧ freelist_walk s = .ok (nodes free) ∧
      freelist_walk s₂ = .ok (nodes free) ∧
      ∀ c ∈ free, s₂.prev c.addr = s.prev c.addr ∧ s₂.next c.addr = s.next c.addr ∧
        s₂.length c.addr = s.length c.addr := by
  have hcons := h.wellFormed.toConsistent
  have hsparse := htouch.sparse hcons.ordered
  obtain hall | ⟨l₁, b, l₂, rfl, hsmall, hb⟩ := exists_first_fit size free
  · obtain ⟨c, hc, hlong⟩ := hfit
    have := hall c hc
    omega
  obtain ⟨t, m', s₂, hcarve, hfree, hcons₂, hbrk⟩ := xfree_handOut hcons hsparse hsmall hb
  have hback := release_carve hsparse hcarve
  have hshort : ¬ MIN_HEAP_FREE_SIZE ≤ (top m' t).length := by
    have htop : top m' t ∈ (l₁ ++ b :: l₂).getLast? := by
      rw [← hback, release_eq_concat]
      simp
    have := hlast _ htop
    omega
  rw [freeAfter, if_neg hshort, hback] at hcons₂
  rw [brkAfter, if_neg hshort] at hbrk
  obtain ⟨hlist, hlinks⟩ := hcons.same_list hcons₂
  have hnone : (l₁.find? fun c => size ≤ c.length) = none := List.find?_eq_none.mpr fun c hc => by
    have := hsmall c hc
    simp only [decide_eq_true_eq]
    omega
  have hfirst : ((l₁ ++ b :: l₂).find? fun c => size ≤ c.length) = some b := by
    rw [List.find?_append, hnone, Option.none_or, List.find?_cons_of_pos (by simpa using hb)]
  refine ⟨_, _, s₂, xmalloc_handOut hcons granted (by omega) hsmall hb, hfree, ?_, hlist, hbrk, hcons.walk,
    hcons₂.walk, hlinks⟩
  rw [hfirst, Option.map_some, hcons.ptr_eq (by simp)]

end Restore

/-- The first of two free blocks is split, and made whole again. -/
theorem xmalloc_xfree_twoFree :
    ∃ s₁ s₂, xmalloc twoFree true 50 = .ok (s₁, 4120) ∧ xfree s₁ 4120 = .ok s₂ ∧
      s₂.FreeList = 4096 ∧ s₂.brk = 4544 ∧
      freelist_walk twoFree = .ok [(4096, 100), (4320, 200)] ∧
      freelist_walk s₂ = .ok [(4096, 100), (4320, 200)] ∧
      ∀ c ∈ [(⟨4096, 100⟩ : Block), ⟨4320, 200⟩], s₂.prev c.addr = twoFree.prev c.addr ∧
        s₂.next c.addr = twoFree.next c.addr ∧ s₂.length c.addr = twoFree.length c.addr := by
  obtain ⟨s₁, ptr, s₂, hmalloc, hfree, hptr, hback⟩ :=
    xmalloc_xfree_restores twoFree_sane (by simp [NoTouching, Block.stop, sizeof_freelist_node])
      (by simp [MIN_HEAP_FREE_SIZE]) true (by decide : 50 + sizeof_freelist_node < 2 ^ 63)
      ⟨⟨4096, 100⟩, by simp, by decide⟩
  obtain rfl : 4120 = ptr := Option.some.inj hptr
  exact ⟨s₁, s₂, hmalloc, hfree, hback⟩

end tlpi.heap
