import Tlpi.Xmalloc.WellFormed

namespace tlpi.heap

section Merge

variable {s : State} {l₁ l₂ : List Block} {a b : Block}

theorem Holds.addr_ne (h : Holds s (l₁ ++ b :: l₂)) {c : Block} (hc : c ∈ l₁ ++ l₂) :
    c.addr ≠ b.addr := by
  have hnodup := (List.nodup_cons.mp h.linked.nodup).2
  rw [List.map_append, List.map_cons, List.nodup_middle, List.nodup_cons, ← List.map_append] at hnodup
  intro heq
  exact hnodup.1 (heq ▸ List.mem_map_of_mem hc)

/-- The comparison that decides about merging is that of the extents: nothing wraps. -/
theorem adjacent_iff (hlength : s.length a.addr = a.length) (hfits : a.stop < 2 ^ 64) (addr : Nat) :
    adjacent s a.addr addr = true ↔ a.stop = addr := by
  have hstop : a.stop = a.addr + sizeof_freelist_node + a.length := rfl
  rw [adjacent, decide_eq_true_iff, hlength, size_add_eq (show a.addr + a.length < 2 ^ 64 by omega),
    size_add_eq (by omega), hstop]
  omega

/-- Merging two touching neighbours of the free list joins them. -/
theorem Holds.merge_touching (h : Holds s (l₁ ++ a :: b :: l₂)) (htouch : a.stop = b.addr)
    (hfits : b.stop < 2 ^ 64) :
    Holds (block_merge s a.addr b.addr).1 (l₁ ++ a.join b :: l₂) ∧
      Frame s (block_merge s a.addr b.addr).1 ((l₁ ++ a :: b :: l₂).map Block.addr) := by
  have hlinked : s.Linked (l₁.map Block.addr ++ a.addr :: b.addr :: l₂.map Block.addr) := by
    simpa using h.linked
  obtain ⟨hmerged, ⟨hbrk, hlinks⟩, hlength⟩ := block_merge_spec hlinked
  have hsplit : Holds s ((l₁ ++ [a]) ++ b :: l₂) := by simpa using h
  have hla := h.lengths a (by simp)
  have hlb := h.lengths b (by simp)
  have hab : a.addr ≠ b.addr := hsplit.addr_ne (by simp)
  have hsum : size_add a.length (size_add b.length sizeof_freelist_node) = (a.join b).length := by
    simp only [Block.stop] at htouch hfits
    rw [size_add_eq (show b.length + sizeof_freelist_node < 2 ^ 64 by omega), size_add_eq (by omega)]
    rfl
  refine ⟨⟨by simpa [Block.join] using hmerged, ?_⟩, ⟨hbrk, by simpa using hlinks, ?_⟩⟩
  · intro c hc
    rw [hlength]
    obtain hc | hc := List.mem_append.mp hc
    · have hcb : c.addr ≠ b.addr := hsplit.addr_ne (by simp [hc])
      have hca : c.addr ≠ a.addr := h.addr_ne (by simp [hc])
      rw [Function.update_of_ne hcb, Function.update_of_ne hca]
      exact h.lengths c (by simp [hc])
    · obtain rfl | hc := List.mem_cons.mp hc
      · rw [show (a.join b).addr = a.addr from rfl, Function.update_of_ne hab, Function.update_self,
          hla, hlb, hsum]
      · have hcb : c.addr ≠ b.addr := hsplit.addr_ne (by simp [hc])
        have hca : c.addr ≠ a.addr := h.addr_ne (by simp [hc])
        rw [Function.update_of_ne hcb, Function.update_of_ne hca]
        exact h.lengths c (by simp [hc])
  · intro x hx
    rw [hlength, Function.update_of_ne (by rintro rfl; simp at hx), Function.update_of_ne
      (by rintro rfl; simp at hx)]

/-- The first merge of `xfree` joins the inserted block with the one below. -/
theorem Holds.merge_left (h : Holds s (l₁ ++ b :: l₂)) (hfits : ∀ c ∈ l₁ ++ b :: l₂, c.stop < 2 ^ 64) :
    ∃ s', (if s.prev b.addr ≠ 0 ∧ adjacent s (s.prev b.addr) b.addr then block_merge s
      (s.prev b.addr) b.addr
        else (s, b.addr)) = (s', (joinLeft l₁ b).2.addr) ∧
      Holds s' ((joinLeft l₁ b).1 ++ (joinLeft l₁ b).2 :: l₂) ∧
        Frame s s' ((l₁ ++ b :: l₂).map Block.addr) := by
  have hlinked : s.Linked (l₁.map Block.addr ++ b.addr :: l₂.map Block.addr) := by simpa using h.linked
  have hprev := hlinked.prev_mid
  obtain rfl | ⟨k, a, rfl⟩ := List.eq_nil_or_concat' l₁
  · have hzero : s.prev b.addr = 0 := by simpa using hprev
    refine ⟨s, by simp [hzero, joinLeft_nil], h, Frame.refl s _⟩
  · have hprev : s.prev b.addr = a.addr := by simpa using hprev
    have hne : a.addr ≠ 0 := hlinked.mem_ne_zero (by simp)
    have hiff := adjacent_iff (h.lengths a (by simp)) (hfits a (by simp)) b.addr
    rw [hprev, joinLeft_concat]
    by_cases htouch : a.stop = b.addr
    · have hsplit : Holds s (k ++ a :: b :: l₂) := by simpa using h
      obtain ⟨hholds, hframe⟩ := hsplit.merge_touching htouch (hfits b (by simp))
      refine ⟨(block_merge s a.addr b.addr).1, ?_, ?_, ?_⟩
      · rw [if_pos ⟨hne, hiff.mpr htouch⟩, if_pos htouch]
        rfl
      · rw [if_pos htouch]
        exact hholds
      · exact hframe.mono (by simp)
    · refine ⟨s, ?_, ?_, Frame.refl s _⟩
      · rw [if_neg (fun hcond => htouch (hiff.mp hcond.2)), if_neg htouch]
      · rw [if_neg htouch]
        exact h

/-- The second merge joins the result with the block above. -/
theorem Holds.merge_right (h : Holds s (l₁ ++ b :: l₂)) (hfits : ∀ c ∈ b :: l₂, c.stop < 2 ^ 64) :
    Holds (if (l₂.map Block.addr).headD 0 ≠ 0 ∧ adjacent s b.addr ((l₂.map Block.addr).headD 0) then
        (block_merge s b.addr ((l₂.map Block.addr).headD 0)).1 else s) (l₁ ++ joinRight b l₂) ∧
      Frame s (if (l₂.map Block.addr).headD 0 ≠ 0 ∧ adjacent s b.addr ((l₂.map Block.addr).headD 0) then
        (block_merge s b.addr ((l₂.map Block.addr).headD 0)).1 else s)
        ((l₁ ++ b :: l₂).map Block.addr) := by
  cases l₂ with
  | nil => exact ⟨by simpa [joinRight] using h, by simpa using Frame.refl s _⟩
  | cons c l₂ =>
    have hne : c.addr ≠ 0 := h.linked.mem_ne_zero (by simp)
    have hiff := adjacent_iff (h.lengths b (by simp)) (hfits b (by simp)) c.addr
    simp only [List.map_cons, List.headD_cons, joinRight]
    by_cases htouch : b.stop = c.addr
    · rw [if_pos ⟨hne, hiff.mpr htouch⟩, if_pos htouch]
      exact h.merge_touching htouch (hfits c (by simp))
    · rw [if_neg (fun hcond => htouch (hiff.mp hcond.2)), if_neg htouch]
      exact ⟨h, Frame.refl s _⟩

end Merge

section Xfree

variable {s : State} {free rest live : List Block} {b : Block}

theorem malloc_addr_user_addr {addr : Nat} (h : addr + sizeof_freelist_node < 2 ^ 64) :
    malloc_addr (user_addr addr) = addr := by
  rw [user_addr, size_add_eq h, malloc_addr, size_sub_eq (by omega) h]
  omega

/-- Inserting a live block and merging it with its neighbours releases it. -/
theorem Holds.insert_merge {l₁ l₂ : List Block} (h : Holds s (l₁ ++ l₂))
    (hplace : Ordered (l₁ ++ b :: l₂)) (hlength : s.length b.addr = b.length)
    (hreset : s.prev b.addr = 0 ∧ s.next b.addr = 0) (hpos : 0 < b.addr)
    (hfits : ∀ c ∈ l₁ ++ b :: l₂, c.stop < 2 ^ 64)
    (hfuel : ((l₁ ++ l₂).map Block.addr).length < ADDRESSES) :
    ∃ s₁, freelist_insert s b.addr = .ok s₁ ∧
      Holds (merge_neighbours s₁ b.addr) (release (l₁ ++ l₂) b) ∧
      Frame s (merge_neighbours s₁ b.addr) ((l₁ ++ b :: l₂).map Block.addr) := by
  have hsplit := List.pairwise_append.mp hplace
  have hlow (x : Nat) (hx : x ∈ l₁.map Block.addr) : x < b.addr := by
    obtain ⟨a, ha, rfl⟩ := List.mem_map.mp hx
    have hab := hsplit.2.2 a ha b (by simp)
    have := a.addr_lt_stop
    omega
  have hhigh (x : Nat) (hx : x ∈ l₂.map Block.addr) : b.addr < x := by
    obtain ⟨c, hc, rfl⟩ := List.mem_map.mp hx
    have hbc := (List.pairwise_cons.mp hsplit.2.1).1 c hc
    have := b.addr_lt_stop
    omega
  have hlinked : s.Linked (l₁.map Block.addr ++ l₂.map Block.addr) := by simpa using h.linked
  obtain ⟨s₁, hinsert, hlinked₁, hkeep, hlength₁⟩ :=
    freelist_insert_spec hlinked hpos.ne' hlow hhigh (fun _ => hreset) (by simp at hfuel ⊢; omega)
  have hholds₁ : Holds s₁ (l₁ ++ b :: l₂) := by
    refine ⟨by simpa using hlinked₁, fun c hc => ?_⟩
    rw [hlength₁]
    obtain hc | hc := List.mem_append.mp hc
    · exact h.lengths c (by simp [hc])
    · obtain rfl | hc := List.mem_cons.mp hc
      · exact hlength
      · exact h.lengths c (by simp [hc])
  have hframe₁ : Frame s s₁ ((l₁ ++ b :: l₂).map Block.addr) :=
    ⟨hkeep.1, by simpa using hkeep.2, fun x _ => by rw [hlength₁]⟩
  obtain ⟨s₂, hleft, hholds₂, hframe₂⟩ := hholds₁.merge_left hfits
  have hfits₂ : ∀ c ∈ (joinLeft l₁ b).2 :: l₂, c.stop < 2 ^ 64 := by
    intro c hc
    obtain rfl | hc := List.mem_cons.mp hc
    · rw [joinLeft_stop hplace]
      exact hfits b (by simp)
    · exact hfits c (by simp [hc])
  obtain ⟨hholds₃, hframe₃⟩ := hholds₂.merge_right hfits₂
  have hnext := hlinked₁.next_mid
  have hmerge : merge_neighbours s₁ b.addr =
      if (l₂.map Block.addr).headD 0 ≠ 0 ∧ adjacent s₂ (joinLeft l₁ b).2.addr
        ((l₂.map Block.addr).headD 0) then
        (block_merge s₂ (joinLeft l₁ b).2.addr ((l₂.map Block.addr).headD 0)).1 else s₂ := by
    simp only [merge_neighbours, hleft, hnext]
  refine ⟨s₁, hinsert, ?_, ?_⟩
  · rw [hmerge, release_append hplace]
    exact hholds₃
  · rw [hmerge]
    refine hframe₁.trans (hframe₂.trans (hframe₃.mono fun x hx => ?_))
    obtain ⟨c, hc, rfl⟩ := List.mem_map.mp hx
    exact joinLeft_addr_mem hc

/-- Before it decides about the break, `xfree` has released the block: the new free list
    is the old one with the block put back and joined with what it touches. -/
theorem xfree_merged_spec (h : Consistent s free (b :: rest)) :
    ∃ s', xfree_merged s (user_addr b.addr) = .ok (s', ((release free b).map Block.addr).getLastD 0) ∧
      Consistent s' (release free b) rest ∧ s'.brk = s.brk := by
  have hordered := h.ordered
  have hapart := h.free_apart
  obtain ⟨l₁, l₂, rfl, hplace⟩ := hordered.exists_place hapart
  have hbfits := h.fits b (by simp)
  have hmem (c : Block) (hc : c ∈ l₁ ++ b :: l₂) : c ∈ l₁ ++ l₂ ++ b :: rest := by
    simp only [List.mem_append, List.mem_cons] at hc ⊢
    tauto
  obtain ⟨s₁, hinsert, hholds, hframe⟩ := h.holds.insert_merge hplace (h.lengths b (by simp))
    (h.reset b (by simp)) hbfits.1 (fun c hc => (h.fits c (hmem c hc)).2) h.walk_fuel
  obtain ⟨hreleased, _, _⟩ := release_spec hordered hapart
  obtain ⟨_, hliveApart, hcross⟩ := List.pairwise_append.mp h.apart
  have hout (c : Block) (hc : c ∈ rest) : c.addr ∉ (l₁ ++ b :: l₂).map Block.addr := by
    intro hin
    obtain ⟨d, hd, heq⟩ := List.mem_map.mp hin
    have hdc : d.Apart c := by
      simp only [List.mem_append, List.mem_cons] at hd
      obtain hd | rfl | hd := hd
      · exact hcross d (by simp [hd]) c (by simp [hc])
      · exact h.live_apart c hc
      · exact hcross d (by simp [hd]) c (by simp [hc])
    have := c.addr_lt_stop
    have := d.addr_lt_stop
    obtain hdc | hdc := hdc <;> omega
  have hfitsNew : ∀ c ∈ release (l₁ ++ l₂) b, 0 < c.addr ∧ c.stop < 2 ^ 64 := by
    intro c hc
    have hlo := le_release_addr 1 hordered hapart
      (fun a ha => (h.fits a (by simp at ha ⊢; tauto)).1) hbfits.1 c hc
    have hhi := release_stop_le (2 ^ 64 - 1) hordered hapart
      (fun a ha => Nat.le_sub_one_of_lt (h.fits a (by simp at ha ⊢; tauto)).2)
      (Nat.le_sub_one_of_lt hbfits.2) c hc
    exact ⟨hlo, by omega⟩
  have hnodup := hholds.linked.nodup
  have hfuel : ((release (l₁ ++ l₂) b).map Block.addr).length < ADDRESSES := by
    apply length_lt_addresses hnodup
    intro a ha
    obtain ⟨c, hc, rfl⟩ := List.mem_map.mp ha
    have := hfitsNew c hc
    have := c.addr_lt_stop
    omega
  refine ⟨merge_neighbours s₁ b.addr, ?_, ⟨hholds.linked, ?_, ?_, ?_, ?_, ?_⟩, hframe.brk⟩
  · have haddr : b.addr + sizeof_freelist_node < 2 ^ 64 := by
      have hstop : b.stop = b.addr + sizeof_freelist_node + b.length := rfl
      omega
    simp only [xfree_merged, malloc_addr_user_addr haddr, hinsert, exec_bind_ok,
      freelist_last_spec hholds.linked hfuel, exec_pure]
  · intro c hc
    obtain hc | hc := List.mem_append.mp hc
    · exact hholds.lengths c hc
    · rw [hframe.lengths _ (hout c hc)]
      exact h.lengths c (by simp [hc])
  · apply hreleased.imp
    intro a c hac
    exact lt_of_lt_of_le a.addr_lt_stop hac
  · refine List.pairwise_append.mpr ⟨hreleased.imp Or.inl, (List.pairwise_cons.mp hliveApart).2, ?_⟩
    intro c hc d hd
    exact release_apart hordered hapart (fun a ha => hcross a ha d (by simp [hd]))
      (h.live_apart d hd) c hc
  · intro c hc
    obtain hc | hc := List.mem_append.mp hc
    · exact hfitsNew c hc
    · exact h.fits c (by simp [hc])
  · intro c hc
    have hlinks := hframe.links _ (hout c hc)
    rw [hlinks.1, hlinks.2]
    exact h.reset c (by simp [hc])

/-- The free list that `xfree` leaves behind. -/
def freeAfter (free : List Block) (b : Block) : List Block :=
  if MIN_HEAP_FREE_SIZE ≤ (top free b).length then (release free b).dropLast else release free b

/-- The program break that `xfree` leaves behind. -/
def brkAfter (s : State) (free : List Block) (b : Block) : Nat :=
  if MIN_HEAP_FREE_SIZE ≤ (top free b).length then (top free b).addr else s.brk

theorem user_addr_ne_zero {addr : Nat} (h : addr + sizeof_freelist_node < 2 ^ 64) :
    user_addr addr ≠ 0 := by
  rw [user_addr, size_add_eq h]
  simp [sizeof_freelist_node]

theorem Consistent.ptr_fits (h : Consistent s free live) (hb : b ∈ free ++ live) :
    b.addr + sizeof_freelist_node < 2 ^ 64 := by
  have hfits := h.fits b hb
  have hstop : b.stop = b.addr + sizeof_freelist_node + b.length := rfl
  omega

/-- Dropping blocks at the high end of the free list, and changing the break, keeps the
    rest of a consistent state consistent. -/
theorem Consistent.drop_last {s' : State} {t : Block} (h : Consistent s (free ++ [t]) rest)
    (hlinked : s'.Linked (free.map Block.addr)) (hkeep : KeepsLinks s s' (free.map Block.addr))
    (hlength : s'.length = s.length) : Consistent s' free rest := by
  have hmem (c : Block) (hc : c ∈ free ++ rest) : c ∈ free ++ [t] ++ rest := by
    simp only [List.mem_append] at hc ⊢
    tauto
  have hsub : (free ++ rest).Sublist (free ++ [t] ++ rest) := by
    rw [List.append_assoc]
    exact (List.sublist_append_right [t] rest).append_left free
  refine ⟨hlinked, fun c hc => ?_, (List.pairwise_append.mp h.sorted).1, h.apart.sublist hsub,
    fun c hc => h.fits c (hmem c hc), fun c hc => ?_⟩
  · rw [hlength]
    exact h.lengths c (hmem c hc)
  · have hout : c.addr ∉ free.map Block.addr := by
      have hall := h.addr_not_mem hc
      rw [List.map_append, List.mem_append, not_or] at hall
      exact hall.1
    rw [(hkeep.2 _ hout).1, (hkeep.2 _ hout).2]
    exact h.reset c hc

/-- What `xfree` of a live block does: it releases the block, and takes the highest block
    of the result off the list, with the break put at its header, if it is long enough. -/
theorem xfree_spec (h : Consistent s free (b :: rest)) :
    ∃ s', xfree s (user_addr b.addr) = .ok s' ∧ Consistent s' (freeAfter free b) rest ∧
      s'.brk = brkAfter s free b := by
  have hptr := user_addr_ne_zero (h.ptr_fits (b := b) (by simp))
  obtain ⟨s₁, hmerged, hcons, hbrk⟩ := xfree_merged_spec h
  have hconcat := release_eq_concat free b
  have hlast : ((release free b).map Block.addr).getLastD 0 = (top free b).addr := by
    rw [hconcat]
    simp
  have htop : top free b ∈ release free b ++ rest := List.mem_append_left _ (top_mem free b)
  have hlength := hcons.lengths _ htop
  have hpos := (hcons.fits _ htop).1
  rw [hlast] at hmerged
  by_cases hbig : MIN_HEAP_FREE_SIZE ≤ (top free b).length
  · have hshrinks : shrinks s₁ (top free b).addr = true := by simp [shrinks, hpos.ne', hlength, hbig]
    refine ⟨{ freelist_remove s₁ (top free b).addr with brk := (top free b).addr }, ?_, ?_, ?_⟩
    · simp [xfree, hptr, hmerged, hshrinks]
    · rw [freeAfter, if_pos hbig]
      rw [hconcat] at hcons
      have hlinked : s₁.Linked ((release free b).dropLast.map Block.addr ++ (top free b).addr :: []) := by
        simpa using hcons.linked
      obtain ⟨hremoved, hkeep⟩ := freelist_remove_spec hlinked
      rw [List.append_nil] at hremoved hkeep
      have hdropped := hcons.drop_last hremoved hkeep (freelist_remove_length _ _)
      exact hdropped.congr rfl fun _ _ => ⟨rfl, rfl, rfl⟩
    · rw [brkAfter, if_pos hbig]
  · have hshrinks : shrinks s₁ (top free b).addr = false := by simp [shrinks, hlength, hbig]
    refine ⟨s₁, ?_, ?_, ?_⟩
    · simp [xfree, hptr, hmerged, hshrinks]
    · rw [freeAfter, if_neg hbig]
      exact hcons
    · rw [brkAfter, if_neg hbig, hbrk]

end Xfree

end tlpi.heap
