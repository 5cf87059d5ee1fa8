import Mathlib.Data.List.Perm.Subperm
import Tlpi.Xmalloc.Free

namespace tlpi.heap

/-- Calls of `xfree` on one pointer after the other. -/
def xfree_all : State → List Nat → Exec State
  | s, [] => .ok s
  | s, ptr :: rest => do
    let s ← xfree s ptr
    xfree_all s rest

/-- None of these calls takes the branch that shrinks the heap. A call that does not take
    it ends in the state that it decided in. -/
def noShrink : State → List Nat → Bool
  | _, [] => true
  | s, ptr :: rest =>
    if ptr = 0 then noShrink s rest
    else
      match xfree_merged s ptr with
      | .ok (s₁, last) => !shrinks s₁ last && noShrink s₁ rest
      | .error _ => true

/-- No two consecutive blocks are contiguous in memory. -/
def NoTouching (free : List Block) : Prop := free.IsChain fun a b => a.stop ≠ b.addr

section Order

variable {s : State} {free live rest bs : List Block} {b : Block}

theorem NoTouching.sparse (h : NoTouching free) (hordered : Ordered free) : Sparse free := by
  induction free with
  | nil => exact .nil
  | cons a free ih =>
    obtain ⟨hfirst, hrest⟩ := List.pairwise_cons.mp hordered
    refine List.pairwise_cons.mpr ⟨fun c hc => ?_, ih h.tail hrest⟩
    cases free with
    | nil => simp at hc
    | cons d free =>
      have had : a.stop < d.addr :=
        lt_of_le_of_ne (hfirst d (by simp)) (List.isChain_cons_cons.mp h).1
      obtain rfl | hc := List.mem_cons.mp hc
      · exact had
      · have hdc := (List.pairwise_cons.mp hrest).1 c hc
        have := d.addr_lt_stop
        omega

/-- Without the shrink branch, freeing a live block releases it and does nothing else. -/
theorem xfree_noShrink {ptrs : List Nat} (h : Consistent s free (b :: rest))
    (hno : noShrink s (b.ptr :: ptrs) = true) :
    ∃ s', xfree s b.ptr = .ok s' ∧ Consistent s' (release free b) rest ∧ noShrink s' ptrs = true := by
  obtain ⟨s', hmerged, hcons, _⟩ := xfree_merged_spec h
  generalize ((release free b).map Block.addr).getLastD 0 = last at hmerged
  have hptr : b.ptr ≠ 0 := user_addr_ne_zero (h.ptr_fits (b := b) (by simp))
  have hmerged : xfree_merged s b.ptr = .ok (s', last) := hmerged
  rw [noShrink, if_neg hptr, hmerged] at hno
  simp only [Bool.and_eq_true, Bool.not_eq_true'] at hno
  refine ⟨s', ?_, hcons, hno.2⟩
  simp [xfree, hptr, hmerged, hno.1]

/-- Freeing blocks one after the other, without shrinking, leaves a list of blocks of which
    no two touch, over the old free memory and the extents of the freed blocks. -/
theorem xfree_all_spec (h : Consistent s free (bs ++ rest)) (hsparse : Sparse free)
    (hno : noShrink s (bs.map Block.ptr) = true) :
    ∃ s' final, xfree_all s (bs.map Block.ptr) = .ok s' ∧ Consistent s' final rest ∧ Sparse final ∧
      extent final = extent free ∪ extent bs := by
  induction bs generalizing s free with
  | nil => exact ⟨s, free, rfl, h, hsparse, by simp [extent_nil]⟩
  | cons b bs ih =>
    obtain ⟨s₁, hrun, hcons, hafter⟩ := xfree_noShrink h hno
    obtain ⟨_, hextent, hkeeps⟩ := release_spec h.ordered h.free_apart
    obtain ⟨s', final, hrest, hfinal, hsparse', hextent'⟩ := ih hcons (hkeeps hsparse) hafter
    refine ⟨s', final, ?_, hfinal, hsparse', ?_⟩
    · rw [List.map_cons, xfree_all, hrun, exec_bind_ok, hrest]
    · rw [hextent', hextent, extent_cons, Set.union_assoc]

/-- Freeing a set of live blocks in any two orders gives the same free list, link by link,
    as long as neither run shrinks the heap. -/
theorem xfree_order_irrelevant (bs cs : List Block) (h : Consistent s free live)
    (htouch : NoTouching free) (hnodup : bs.Nodup) (hlive : ∀ b ∈ bs, b ∈ live) (horder : cs.Perm bs)
    (hno : noShrink s (bs.map Block.ptr) = true) (hno' : noShrink s (cs.map Block.ptr) = true) :
    ∃ s₁ s₂ nodes, xfree_all s (bs.map Block.ptr) = .ok s₁ ∧ xfree_all s (cs.map Block.ptr) = .ok s₂ ∧
      s₁.FreeList = s₂.FreeList ∧ freelist_walk s₁ = .ok nodes ∧ freelist_walk s₂ = .ok nodes ∧
      ∀ node ∈ nodes, s₁.prev node.1 = s₂.prev node.1 ∧ s₁.next node.1 = s₂.next node.1 := by
  obtain ⟨front, hfront, hsub⟩ := List.subperm_of_subset hnodup hlive
  obtain ⟨rest, hrest⟩ := hsub.exists_perm_append
  have hperm : live.Perm (bs ++ rest) := hrest.trans (hfront.append_right rest)
  have hsparse := htouch.sparse h.ordered
  obtain ⟨s₁, final₁, hrun₁, hcons₁, hsparse₁, hextent₁⟩ := xfree_all_spec (h.perm hperm) hsparse hno
  obtain ⟨s₂, final₂, hrun₂, hcons₂, hsparse₂, hextent₂⟩ :=
    xfree_all_spec (h.perm (hperm.trans (horder.symm.append_right rest))) hsparse hno'
  have hsame : extent cs = extent bs := by
    ext x
    simp only [mem_extent, horder.mem_iff]
  have hfinal : final₁ = final₂ :=
    hsparse₁.eq_of_extent_eq hsparse₂ (by rw [hextent₁, hextent₂, hsame])
  subst hfinal
  obtain ⟨hlist, hlinks⟩ := hcons₂.same_list hcons₁
  refine ⟨s₁, s₂, _, hrun₁, hrun₂, hlist, hcons₁.walk, hcons₂.walk, fun node hnode => ?_⟩
  obtain ⟨c, hc, rfl⟩ := List.mem_map.mp hnode
  exact ⟨(hlinks c hc).1, (hlinks c hc).2.1⟩

end Order

/-- Two live blocks, one directly above the other, and nothing free. -/
def twoSmall : State where
  prev := fun _ => 0
  next := fun _ => 0
  length := fun _ => 100
  FreeList := 0
  brk := 4344
  errno := .other 0

theorem twoSmall_consistent : Consistent twoSmall [] [⟨4096, 100⟩, ⟨4220, 100⟩] where
  linked := ⟨by simp, by simp [State.succ, twoSmall], by simp⟩
  lengths := by simp [twoSmall]
  sorted := .nil
  apart := by simp [Block.Apart, Block.stop, sizeof_freelist_node]
  fits := by simp [Block.stop, sizeof_freelist_node]
  reset := by simp [twoSmall]

/-- Freed from below or from above, they become one block. -/
theorem xfree_order_twoSmall :
    ∃ s₁ s₂ nodes, xfree_all twoSmall [4120, 4244] = .ok s₁ ∧ xfree_all twoSmall [4244, 4120] = .ok s₂ ∧
      s₁.FreeList = s₂.FreeList ∧ freelist_walk s₁ = .ok nodes ∧ freelist_walk s₂ = .ok nodes ∧
      ∀ node ∈ nodes, s₁.prev node.1 = s₂.prev node.1 ∧ s₁.next node.1 = s₂.next node.1 :=
  xfree_order_irrelevant [⟨4096, 100⟩, ⟨4220, 100⟩] [⟨4220, 100⟩, ⟨4096, 100⟩]
    twoSmall_consistent .nil (by decide) (by simp) (List.Perm.swap _ _ _) (by decide +kernel)
      (by decide +kernel)

end tlpi.heap
