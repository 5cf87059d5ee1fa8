import Tlpi.Xmalloc.FirstFit
import Tlpi.Xmalloc.Order

namespace tlpi.heap

/-- What freeing a block leaves: the free list is sane and sorted, no two of its blocks touch,
    and its memory is the old free memory with the block, cut into `joined` and the highest
    piece `top`, which is given back to the kernel exactly when it is long enough. -/
structure Coalesced (s s' : State) (free : List Block) (b : Block) (final joined : List Block)
    (top : Block) : Prop where
  sane : is_freelist_sane s' = .ok true
  walk : freelist_walk s' = .ok (nodes final)
  sorted : final.Pairwise fun a c => a.addr < c.addr
  apart : NoTouching final
  pieces : Sparse (joined ++ [top])
  memory : extent (joined ++ [top]) = extent free ∪ Set.Ico b.addr b.stop
  final_extent : extent final = (extent free ∪ Set.Ico b.addr b.stop) \
    (if MIN_HEAP_FREE_SIZE ≤ top.length then Set.Ico top.addr top.stop else ∅)
  brk : s'.brk = if MIN_HEAP_FREE_SIZE ≤ top.length then top.addr else s.brk

section Coalesce

variable {s : State} {free live l : List Block} {b t : Block}

theorem Sparse.noTouching (h : Sparse free) : NoTouching free :=
  (List.Pairwise.isChain h).imp fun _ _ hlt => hlt.ne

/-- Without its last block, a list of blocks takes the memory that lies outside that block. -/
theorem Sparse.extent_dropLast (h : Sparse (l ++ [t])) :
    extent l = extent (l ++ [t]) \ Set.Ico t.addr t.stop := by
  obtain ⟨_, _, hlast⟩ := List.pairwise_append.mp h
  ext x
  rw [extent_append, extent_cons, extent_nil, Set.union_empty, Set.mem_sdiff, Set.mem_union]
  constructor
  · intro hx
    refine ⟨Or.inl hx, fun hxt => ?_⟩
    obtain ⟨c, hc, hxc⟩ := mem_extent.mp hx
    have hct := hlast c hc t (by simp)
    rw [Set.mem_Ico] at hxc hxt
    omega
  · rintro ⟨hx | hx, hout⟩
    · exact hx
    · exact absurd hx hout

/-- Freeing a live block joins it with the free blocks that it touches, whichever these are,
    and gives the highest block back if it is long enough. -/
theorem xfree_coalesces (h : SaneList s free live) (htouch : NoTouching free) (hb : b ∈ live)
    (hlinks : s.prev b.addr = 0 ∧ s.next b.addr = 0) :
    ∃ s' final joined top, xfree s b.ptr = .ok s' ∧ Coalesced s s' free b final joined top := by
  have hcons : Consistent s free [b] := by
    apply h.consistent (List.singleton_sublist.mpr hb)
    intro c hc
    obtain rfl := List.mem_singleton.mp hc
    exact hlinks
  obtain ⟨s', hrun, hcons', hbrk⟩ := xfree_spec hcons
  obtain ⟨_, hextent, hkeeps⟩ := release_spec hcons.ordered hcons.free_apart
  have hsparse := hkeeps (htouch.sparse hcons.ordered)
  rw [release_eq_concat] at hsparse hextent
  have hfinal : Sparse (freeAfter free b) := by
    unfold freeAfter
    split
    · exact (List.pairwise_append.mp hsparse).1
    · rw [release_eq_concat]
      exact hsparse
  refine ⟨s', freeAfter free b, (release free b).dropLast, top free b, hrun, ?_⟩
  refine ⟨is_freelist_sane_spec hcons'.linked hcons'.walk_fuel, hcons'.walk, hcons'.sorted,
    hfinal.noTouching, hsparse, hextent, ?_, hbrk⟩
  unfold freeAfter
  split
  · rw [← hextent]
    exact hsparse.extent_dropLast
  · rw [Set.sdiff_empty, ← hextent, ← release_eq_concat]

end Coalesce

/-- A block between two free ones is joined with both. -/
theorem xfree_coalesces_twoFree :
    ∃ s' final joined top, xfree twoFree (Block.ptr ⟨4220, 76⟩) = .ok s' ∧
      Coalesced twoFree s' [⟨4096, 100⟩, ⟨4320, 200⟩] ⟨4220, 76⟩ final joined top :=
  xfree_coalesces twoFree_sane.toSaneList (by simp [NoTouching, Block.stop, sizeof_freelist_node])
    (by simp) ⟨rfl, rfl⟩

end tlpi.heap
