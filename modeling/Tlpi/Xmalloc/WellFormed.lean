import Mathlib.Data.Finset.Card
import Mathlib.Data.Finset.Range
import Tlpi.Xmalloc.Blocks
import Tlpi.Xmalloc.Links

namespace tlpi.heap

/-- The free list is made of these blocks, in this order. -/
structure Holds (s : State) (free : List Block) : Prop where
  linked : s.Linked (free.map Block.addr)
  lengths : ∀ b ∈ free, s.length b.addr = b.length

/-- The break and all headers outside the given addresses are as before. -/
structure Frame (s s' : State) (l : List Nat) : Prop where
  brk : s'.brk = s.brk
  links : ∀ x, x ∉ l → s'.prev x = s.prev x ∧ s'.next x = s.next x
  lengths : ∀ x, x ∉ l → s'.length x = s.length x

theorem Frame.refl (s : State) (l : List Nat) : Frame s s l :=
  ⟨rfl, fun _ _ => ⟨rfl, rfl⟩, fun _ _ => rfl⟩

theorem Frame.mono {s s' : State} {l m : List Nat} (h : Frame s s' l) (hsub : ∀ x ∈ l, x ∈ m) :
    Frame s s' m :=
  ⟨h.brk, fun x hx => h.links x fun hl => hx (hsub x hl),
    fun x hx => h.lengths x fun hl => hx (hsub x hl)⟩

theorem Frame.trans {s s' s'' : State} {l : List Nat} (h : Frame s s' l) (h' : Frame s' s'' l) :
    Frame s s'' l := by
  refine ⟨h'.brk.trans h.brk, fun x hx => ⟨?_, ?_⟩,
    fun x hx => (h'.lengths x hx).trans (h.lengths x hx)⟩
  · exact (h'.links x hx).1.trans (h.links x hx).1
  · exact (h'.links x hx).2.trans (h.links x hx).2

/-- A state that goes with a list of free and a list of live blocks. The live headers have
    null links, as `xmalloc` leaves them. -/
structure Consistent (s : State) (free live : List Block) : Prop where
  linked : s.Linked (free.map Block.addr)
  lengths : ∀ b ∈ free ++ live, s.length b.addr = b.length
  sorted : free.Pairwise fun a b => a.addr < b.addr
  apart : (free ++ live).Pairwise Block.Apart
  fits : ∀ b ∈ free ++ live, 0 < b.addr ∧ b.stop < 2 ^ 64
  reset : ∀ b ∈ live, s.prev b.addr = 0 ∧ s.next b.addr = 0

/-- The allocator's invariant: the state goes with its blocks, and all of them lie below
    the program break. -/
structure WellFormed (s : State) (free live : List Block) : Prop extends Consistent s free live where
  below : ∀ b ∈ free ++ live, b.stop ≤ s.brk
  brk_pos : 0 < s.brk
  brk_lt : s.brk < 2 ^ 64

namespace Consistent

variable {s : State} {free live rest : List Block} {b : Block}

theorem ordered (h : Consistent s free live) : Ordered free := by
  have hpair := (List.pairwise_append.mp h.apart).1
  apply (h.sorted.and hpair).imp
  rintro a b ⟨hlt, hab | hba⟩
  · exact hab
  · have := b.addr_lt_stop
    omega

/-- Only the headers of the blocks and the head of the list matter. -/
theorem congr {s' : State} (h : Consistent s free live) (hlist : s'.FreeList = s.FreeList)
    (hheaders : ∀ c ∈ free ++ live,
      s'.prev c.addr = s.prev c.addr ∧ s'.next c.addr = s.next c.addr ∧
        s'.length c.addr = s.length c.addr) :
    Consistent s' free live := by
  refine ⟨?_, fun c hc => ?_, h.sorted, h.apart, h.fits, fun c hc => ?_⟩
  · apply Ring.congr h.linked
    · intro x hx
      unfold State.succ
      split
      · exact hlist
      · rename_i hx0
        obtain ⟨c, hc, rfl⟩ := List.mem_map.mp ((List.mem_cons.mp hx).resolve_left hx0)
        exact (hheaders c (List.mem_append_left _ hc)).2.1
    · intro y hy
      obtain ⟨c, hc, rfl⟩ := List.mem_map.mp hy
      exact (hheaders c (List.mem_append_left _ hc)).1
  · rw [(hheaders c hc).2.2]
    exact h.lengths c hc
  · obtain ⟨hprev, hnext, _⟩ := hheaders c (List.mem_append_right _ hc)
    rw [hprev, hnext]
    exact h.reset c hc

theorem holds (h : Consistent s free live) : Holds s free :=
  ⟨h.linked, fun b hb => h.lengths b (List.mem_append_left _ hb)⟩

theorem free_apart (h : Consistent s free (b :: rest)) : ∀ a ∈ free, a.Apart b := fun a ha =>
  (List.pairwise_append.mp h.apart).2.2 a ha b (by simp)

theorem live_apart (h : Consistent s free (b :: rest)) : ∀ c ∈ rest, b.Apart c :=
  (List.pairwise_cons.mp (List.pairwise_append.mp h.apart).2.1).1

/-- The header of a live block is not on the free list. -/
theorem addr_not_mem {c : Block} (h : Consistent s free live) (hc : c ∈ live) :
    c.addr ∉ free.map Block.addr := by
  intro hin
  obtain ⟨d, hd, heq⟩ := List.mem_map.mp hin
  have hdc := (List.pairwise_append.mp h.apart).2.2 d hd c hc
  have := c.addr_lt_stop
  have := d.addr_lt_stop
  obtain hdc | hdc := hdc <;> omega

/-- The order in which the live blocks are listed does not matter. -/
theorem perm (h : Consistent s free live) (hperm : live.Perm rest) : Consistent s free rest := by
  have hmem (c : Block) (hc : c ∈ free ++ rest) : c ∈ free ++ live := by
    simpa only [List.mem_append, hperm.mem_iff] using hc
  refine ⟨h.linked, fun c hc => h.lengths c (hmem c hc), h.sorted, ?_, fun c hc => h.fits c (hmem c hc),
    fun c hc => h.reset c (hperm.mem_iff.mpr hc)⟩
  exact (List.Perm.pairwise_iff Block.Apart.symm (hperm.append_left free)).mp h.apart

end Consistent

theorem WellFormed.perm {s : State} {free live rest : List Block} (h : WellFormed s free live)
    (hperm : live.Perm rest) : WellFormed s free rest := by
  refine ⟨h.toConsistent.perm hperm, fun c hc => h.below c ?_, h.brk_pos, h.brk_lt⟩
  simpa only [List.mem_append, hperm.mem_iff] using hc

/-- A list of distinct non-null addresses is shorter than the address space, so that a
    walk along it ends. -/
theorem length_lt_addresses {l : List Nat} (hnodup : (0 :: l).Nodup) (hlt : ∀ a ∈ l, a < 2 ^ 64) :
    l.length < ADDRESSES := by
  have hsub : (0 :: l).toFinset ⊆ Finset.range (2 ^ 64) := by
    intro a ha
    simp only [List.mem_toFinset, List.mem_cons, Finset.mem_range] at ha ⊢
    obtain rfl | ha := ha
    · decide
    · exact hlt a ha
  have hcard := Finset.card_le_card hsub
  rw [List.toFinset_card_of_nodup hnodup, Finset.card_range, List.length_cons] at hcard
  exact hcard

theorem Consistent.walk_fuel {s : State} {free live : List Block} (h : Consistent s free live) :
    (free.map Block.addr).length < ADDRESSES := by
  apply length_lt_addresses h.linked.nodup
  intro a ha
  obtain ⟨b, hb, rfl⟩ := List.mem_map.mp ha
  have hfits := h.fits b (List.mem_append_left _ hb)
  have := b.addr_lt_stop
  omega

/-- The addresses and lengths of a list of blocks. -/
def nodes (l : List Block) : List (Nat × Nat) := l.map fun b => (b.addr, b.length)

theorem nodes_fst (l : List Block) : (nodes l).map Prod.fst = l.map Block.addr := by
  simp [nodes]

theorem Consistent.walk {s : State} {free live : List Block} (h : Consistent s free live) :
    freelist_walk s = .ok (nodes free) := by
  rw [freelist_walk_spec h.linked h.walk_fuel, List.map_map]
  congr 1
  apply List.map_congr_left
  intro b hb
  simp [h.lengths b (List.mem_append_left _ hb)]

/-- Two states with the same free blocks have the same free list, link by link. -/
theorem Consistent.same_list {s s' : State} {free live live' : List Block}
    (h : Consistent s free live) (h' : Consistent s' free live') :
    s'.FreeList = s.FreeList ∧ ∀ b ∈ free, s'.prev b.addr = s.prev b.addr ∧
      s'.next b.addr = s.next b.addr ∧ s'.length b.addr = s.length b.addr := by
  obtain ⟨hsucc, hpred⟩ := Ring.links_eq h'.linked h.linked
  refine ⟨by simpa [State.succ] using hsucc 0 (by simp), fun b hb => ?_⟩
  have haddr : b.addr ∈ free.map Block.addr := List.mem_map_of_mem hb
  have hnext := hsucc b.addr (List.mem_cons_of_mem 0 haddr)
  simp only [State.succ, if_neg (h.linked.mem_ne_zero haddr)] at hnext
  refine ⟨hpred b.addr haddr, hnext, ?_⟩
  rw [h'.lengths b (List.mem_append_left _ hb), h.lengths b (List.mem_append_left _ hb)]

/-- The free list is sane and strictly sorted by address, and no two of the free and live
    blocks overlap. The links in the headers of the live blocks may be anything. -/
structure SaneList (s : State) (free live : List Block) : Prop where
  linked : s.Linked (free.map Block.addr)
  lengths : ∀ b ∈ free ++ live, s.length b.addr = b.length
  sorted : free.Pairwise fun a b => a.addr < b.addr
  apart : (free ++ live).Pairwise Block.Apart
  fits : ∀ b ∈ free ++ live, 0 < b.addr ∧ b.stop < 2 ^ 64

/-- Moreover all of the blocks lie below the program break. -/
structure SaneHeap (s : State) (free live : List Block) : Prop extends SaneList s free live where
  below : ∀ b ∈ free ++ live, b.stop ≤ s.brk
  brk_pos : 0 < s.brk
  brk_lt : s.brk < 2 ^ 64

section Sane

variable {s : State} {free live rest : List Block}

/-- The live blocks with null links can be singled out. -/
theorem SaneList.consistent (h : SaneList s free live) (hsub : rest.Sublist live)
    (hreset : ∀ b ∈ rest, s.prev b.addr = 0 ∧ s.next b.addr = 0) : Consistent s free rest := by
  have hall : (free ++ rest).Sublist (free ++ live) := hsub.append_left free
  exact ⟨h.linked, fun b hb => h.lengths b (hall.subset hb), h.sorted, h.apart.sublist hall,
    fun b hb => h.fits b (hall.subset hb), hreset⟩

theorem SaneHeap.wellFormed (h : SaneHeap s free live) : WellFormed s free [] := by
  have hcons : Consistent s free [] := h.toSaneList.consistent (List.nil_sublist live) (by simp)
  refine ⟨hcons, fun b hb => h.below b ?_, h.brk_pos, h.brk_lt⟩
  rw [List.append_nil] at hb
  exact List.mem_append_left live hb

end Sane

end tlpi.heap
