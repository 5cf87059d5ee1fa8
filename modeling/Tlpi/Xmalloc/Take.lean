import Tlpi.Xmalloc.Free

namespace tlpi.heap

section Fields

variable (s : State)

/-- The fields of a state whose block has been unlinked, cleared and given a length. -/
theorem taken_fields (b length : Nat) :
    ((block_init (freelist_remove s b) b).set_length b length).next =
        Function.update (freelist_remove s b).next b 0 ∧
      ((block_init (freelist_remove s b) b).set_length b length).prev =
        Function.update (freelist_remove s b).prev b 0 ∧
      ((block_init (freelist_remove s b) b).set_length b length).length =
        Function.update s.length b length ∧
      ((block_init (freelist_remove s b) b).set_length b length).FreeList =
        (freelist_remove s b).FreeList ∧
      ((block_init (freelist_remove s b) b).set_length b length).brk = s.brk := by
  simp [block_init, freelist_remove_length, freelist_remove_brk]

/-- The state in which `block_split` leaves a block and its right part. -/
def splitState (block size right : Nat) : State :=
  let s := s.set_length right (size_sub (size_sub (s.length block) size) sizeof_freelist_node)
  let s := s.set_length block size
  let s := s.set_prev right block
  let s := s.set_next right (s.next block)
  s.set_next block right

theorem block_split_eq {b size right : Nat} (hfit : size_add size sizeof_freelist_node ≤ s.length b)
    (hright : size_add (size_add b sizeof_freelist_node) size = right) :
    block_split s b size = .ok (splitState s b size right, b, right) := by
  simp only [block_split, hfit, decide_true, c_assert_true, exec_bind_ok, hright, exec_pure]
  rfl

theorem splitState_fields (b size right : Nat) :
    (splitState s b size right).next =
        Function.update (Function.update s.next right (s.next b)) b right ∧
      (splitState s b size right).prev = Function.update s.prev right b ∧
      (splitState s b size right).length = Function.update (Function.update s.length right
        (size_sub (size_sub (s.length b) size) sizeof_freelist_node)) b size ∧
      (splitState s b size right).FreeList = s.FreeList ∧ (splitState s b size right).brk = s.brk := by
  simp [splitState]

end Fields

section Relinked

/-- The state in which the node after `right` points back to it, a link that `block_split`
    does not write. -/
def State.relinked (s : State) (right : Nat) : List Nat → State
  | [] => s
  | next :: _ => s.set_prev next right

variable {s : State} {right : Nat} {l : List Nat}

@[simp] theorem relinked_next : (s.relinked right l).next = s.next := by cases l <;> rfl
@[simp] theorem relinked_length : (s.relinked right l).length = s.length := by cases l <;> rfl
@[simp] theorem relinked_FreeList : (s.relinked right l).FreeList = s.FreeList := by cases l <;> rfl
@[simp] theorem relinked_brk : (s.relinked right l).brk = s.brk := by cases l <;> rfl

theorem relinked_walk : freelist_walk (s.relinked right l) = freelist_walk s := by cases l <;> rfl

theorem relinked_succ (x : Nat) : (s.relinked right l).succ x = s.succ x := by
  simp [State.succ]

theorem relinked_prev_of_ne {y : Nat} (hy : y ≠ l.headD 0) : (s.relinked right l).prev y = s.prev y := by
  cases l with
  | nil => rfl
  | cons next l => exact Function.update_of_ne hy _ _

theorem relinked_prev_of_not_mem {y : Nat} (hy : y ∉ l) : (s.relinked right l).prev y = s.prev y := by
  cases l with
  | nil => rfl
  | cons next l => exact Function.update_of_ne (by rintro rfl; simp at hy) _ _

theorem relinked_prev_head (hl : l ≠ []) : (s.relinked right l).prev (l.headD 0) = right := by
  cases l with
  | nil => exact absurd rfl hl
  | cons next l => exact Function.update_self _ _ _

end Relinked

section Take

variable {s : State} {l₁ l₂ : List Nat} {b : Nat}

/-- Taking a whole node off the list. -/
theorem take_whole (h : s.Linked (l₁ ++ b :: l₂)) :
    ((block_init (freelist_remove s b) b).set_length b (s.length b)).Linked (l₁ ++ l₂) ∧
      KeepsLinks s ((block_init (freelist_remove s b) b).set_length b (s.length b)) (l₁ ++ b :: l₂) := by
  obtain ⟨hnext, hprev, _, hlist, hbrk⟩ := taken_fields s b (s.length b)
  obtain ⟨hremoved, hkeep⟩ := freelist_remove_spec h
  have hnot : b ∉ l₁ ++ l₂ := by
    have hnodup := (List.nodup_cons.mp h.nodup).2
    rw [List.nodup_middle] at hnodup
    exact (List.nodup_cons.mp hnodup).1
  have hb : b ≠ 0 := h.mem_ne_zero (by simp)
  constructor
  · apply Ring.congr hremoved
    · intro x hx
      unfold State.succ
      rw [hnext, hlist]
      split
      · rfl
      · rename_i hx0
        rw [Function.update_of_ne]
        rintro rfl
        exact hnot ((List.mem_cons.mp hx).resolve_left hb)
    · intro y hy
      rw [hprev, Function.update_of_ne (by rintro rfl; exact hnot hy)]
  · refine ⟨hbrk, fun x hx => ?_⟩
    have hxb : x ≠ b := by rintro rfl; simp at hx
    have hx' : x ∉ l₁ ++ l₂ := by
      simp only [List.mem_append, List.mem_cons] at hx ⊢
      tauto
    rw [hprev, hnext, Function.update_of_ne hxb, Function.update_of_ne hxb]
    exact hkeep.2 x hx'

/-- Splitting a node and taking its left part leaves the right part in its place, but for the
    back link of the node that follows. -/
theorem take_split (h : s.Linked (l₁ ++ b :: l₂)) (size : Nat) {right : Nat}
    (hright : right ∉ 0 :: (l₁ ++ b :: l₂)) :
    (((block_init (freelist_remove (splitState s b size right) b) b).set_length b size).relinked
        right l₂).Linked (l₁ ++ right :: l₂) ∧
      KeepsLinks s ((block_init (freelist_remove (splitState s b size right) b) b).set_length b size)
        (l₁ ++ b :: right :: l₂) := by
  obtain ⟨hnextT, hprevT, _, hlistT, hbrkT⟩ := splitState_fields s b size right
  generalize splitState s b size right = t at *
  obtain ⟨hnext, hprev, _, hlist, hbrk⟩ := taken_fields t b size
  simp only [List.mem_cons, List.mem_append, not_or] at hright
  obtain ⟨hright0, hrightl₁, hrightb, hrightl₂⟩ := hright
  have hb : b ≠ 0 := h.mem_ne_zero (by simp)
  have hlast := h.prev_mid
  have hafter := h.next_mid
  have htprev : t.prev b = l₁.getLastD 0 := by
    rw [hprevT, Function.update_of_ne (Ne.symm hrightb), hlast]
  have htnext : t.next b = right := by rw [hnextT, Function.update_self]
  have hnodup := (List.nodup_cons.mp h.nodup).2
  rw [List.nodup_middle] at hnodup
  have hother (x : Nat) (hx : x ∈ 0 :: (l₁ ++ l₂)) : x ≠ b ∧ x ≠ right := by
    refine ⟨?_, ?_⟩
    · rintro rfl
      exact (List.nodup_cons.mp hnodup).1 ((List.mem_cons.mp hx).resolve_left hb)
    · rintro rfl
      simp only [List.mem_cons, List.mem_append] at hx
      tauto
  have hlastMem : l₁.getLastD 0 ∈ 0 :: (l₁ ++ l₂) := by
    rw [← List.cons_append]
    exact List.mem_append_left l₂ (getLastD_mem 0 l₁)
  obtain ⟨hlastb, hlastRight⟩ := hother _ hlastMem
  obtain ⟨hremoved, _⟩ := freelist_remove_spec h
  -- away from the block, the final state has the links of the unlinked one
  have hsucc (x : Nat) (hxb : x ≠ b) :
      ((block_init (freelist_remove t b) b).set_length b size).succ x =
        if x = l₁.getLastD 0 then right else t.succ x := by
    have hremove := freelist_remove_succ t b x
    rw [htprev, htnext] at hremove
    rw [← hremove]
    unfold State.succ
    rw [hnext, hlist, Function.update_of_ne hxb]
  have hpred (y : Nat) (hyb : y ≠ b) :
      ((block_init (freelist_remove t b) b).set_length b size).prev y =
        if y = right then l₁.getLastD 0 else s.prev y := by
    rw [hprev, Function.update_of_ne hyb, freelist_remove_prev, htnext, htprev, hprevT]
    by_cases hyr : y = right
    · simp [hyr, hright0]
    · simp [hyr]
  constructor
  · apply Ring.link hremoved
    · simp [hright0, hrightl₁, hrightl₂]
    · rw [relinked_succ, hsucc _ hlastb, if_pos rfl]
    · rw [relinked_succ, hsucc _ hrightb, if_neg (Ne.symm hlastRight)]
      unfold State.succ
      rw [if_neg hright0, hnextT, Function.update_of_ne hrightb, Function.update_self, hafter]
    · rw [relinked_prev_of_not_mem hrightl₂, hpred _ hrightb, if_pos rfl]
    · exact relinked_prev_head
    · intro x hx hxl
      obtain ⟨hxb, hxr⟩ := hother x hx
      rw [relinked_succ, hsucc x hxb, if_neg hxl, freelist_remove_succ, hlast, if_neg hxl]
      unfold State.succ
      rw [hlistT, hnextT, Function.update_of_ne hxb, Function.update_of_ne hxr]
    · intro y hy hyh
      obtain ⟨hyb, hyr⟩ := hother y (List.mem_cons_of_mem 0 hy)
      rw [relinked_prev_of_ne hyh, hpred y hyb, if_neg hyr, freelist_remove_prev, hafter,
        if_neg (fun hcond => hyh hcond.2)]
  · refine ⟨hbrk.trans hbrkT, fun x hx => ?_⟩
    simp only [List.mem_append, List.mem_cons, not_or] at hx
    obtain ⟨hxl₁, hxb, hxr, _⟩ := hx
    refine ⟨by rw [hpred x hxb, if_neg hxr], ?_⟩
    rw [hnext, Function.update_of_ne hxb, freelist_remove_next, htprev, if_neg, hnextT,
      Function.update_of_ne hxb, Function.update_of_ne hxr]
    rintro ⟨hne, rfl⟩
    exact hxl₁ ((List.mem_cons.mp (getLastD_mem 0 l₁)).resolve_left hne)

end Take

section Carve

variable {s : State} {l₁ l₂ live : List Block} {b : Block} {size : Nat}

/-- The left part of a block that is split for a request. -/
def Block.used (b : Block) (size : Nat) : Block := { b with length := size }

/-- The right part. -/
def Block.left (b : Block) (size : Nat) : Block where
  addr := b.addr + sizeof_freelist_node + size
  length := b.length - size - sizeof_freelist_node

/-- First fit: the block that a request gets, and the free list without it. -/
def carve (size : Nat) : List Block → Option (Block × List Block)
  | [] => none
  | b :: rest =>
    if size + sizeof_freelist_node ≤ b.length then some (b.used size, b.left size :: rest)
    else if size ≤ b.length then some (b, rest)
    else (carve size rest).map fun r => (r.1, b :: r.2)

/-- The block that first fit finds is not split, or it is the last one. -/
def splitSafe (size : Nat) : List Block → Bool
  | [] => true
  | b :: rest =>
    if size ≤ b.length then decide (b.length < size + sizeof_freelist_node) || rest.isEmpty
    else splitSafe size rest

theorem exists_first_fit (size : Nat) (l : List Block) :
    (∀ c ∈ l, c.length < size) ∨
      ∃ l₁ b l₂, l = l₁ ++ b :: l₂ ∧ (∀ c ∈ l₁, c.length < size) ∧ size ≤ b.length := by
  induction l with
  | nil => exact Or.inl (by simp)
  | cons a l ih =>
    by_cases ha : size ≤ a.length
    · exact Or.inr ⟨[], a, l, rfl, by simp, ha⟩
    · obtain hall | ⟨l₁, b, l₂, rfl, hsmall, hfit⟩ := ih
      · apply Or.inl
        intro c hc
        obtain rfl | hc := List.mem_cons.mp hc
        · omega
        · exact hall c hc
      · refine Or.inr ⟨a :: l₁, b, l₂, rfl, fun c hc => ?_, hfit⟩
        obtain rfl | hc := List.mem_cons.mp hc
        · omega
        · exact hsmall c hc

theorem carve_eq_none {l : List Block} (h : ∀ c ∈ l, c.length < size) : carve size l = none := by
  induction l with
  | nil => rfl
  | cons a l ih =>
    have ha := h a (by simp)
    rw [carve, if_neg (by omega), if_neg (by omega), ih fun c hc => h c (by simp [hc])]
    rfl

theorem carve_append (h : ∀ c ∈ l₁, c.length < size) (hfit : size ≤ b.length) :
    carve size (l₁ ++ b :: l₂) = some (if size + sizeof_freelist_node ≤ b.length
      then (b.used size, l₁ ++ b.left size :: l₂) else (b, l₁ ++ l₂)) := by
  induction l₁ with
  | nil =>
    rw [List.nil_append, carve, if_pos hfit]
    split <;> rfl
  | cons a l₁ ih =>
    have ha := h a (by simp)
    rw [List.cons_append, carve, if_neg (by omega), if_neg (by omega),
      ih fun c hc => h c (by simp [hc])]
    split <;> simp

theorem splitSafe_append (h : ∀ c ∈ l₁, c.length < size) (hfit : size ≤ b.length) :
    splitSafe size (l₁ ++ b :: l₂) = true ↔ (size + sizeof_freelist_node ≤ b.length → l₂ = []) := by
  induction l₁ with
  | nil =>
    rw [List.nil_append, splitSafe, if_pos hfit]
    simp only [Bool.or_eq_true, decide_eq_true_eq, List.isEmpty_iff]
    constructor
    · rintro (hsmall | hl) hbig
      · omega
      · exact hl
    · intro hl
      by_cases hbig : size + sizeof_freelist_node ≤ b.length
      · exact Or.inr (hl hbig)
      · exact Or.inl (by omega)
  | cons a l₁ ih =>
    have ha := h a (by simp)
    rw [List.cons_append, splitSafe, if_neg (by omega), ih fun c hc => h c (by simp [hc])]

/-- Handing out a whole block. -/
theorem Consistent.take_whole (h : Consistent s (l₁ ++ b :: l₂) live) :
    Consistent ((block_init (freelist_remove s b.addr) b.addr).set_length b.addr (s.length b.addr))
      (l₁ ++ l₂) (b :: live) := by
  have hlinked : s.Linked (l₁.map Block.addr ++ b.addr :: l₂.map Block.addr) := by simpa using h.linked
  obtain ⟨htaken, hkeep⟩ := heap.take_whole hlinked
  obtain ⟨hnext, hprev, hlength, _, _⟩ := taken_fields s b.addr (s.length b.addr)
  have hperm : (l₁ ++ b :: l₂ ++ live).Perm (l₁ ++ l₂ ++ b :: live) := by
    rw [List.append_assoc, List.append_assoc, List.cons_append]
    exact List.perm_middle.symm.append_left l₁
  have hmem (c : Block) (hc : c ∈ l₁ ++ l₂ ++ b :: live) : c ∈ l₁ ++ b :: l₂ ++ live :=
    hperm.mem_iff.mpr hc
  have hsub : (l₁ ++ l₂).Sublist (l₁ ++ b :: l₂) := (List.sublist_cons_self b l₂).append_left l₁
  refine ⟨by simpa using htaken, fun c hc => ?_, h.sorted.sublist hsub,
    (List.Perm.pairwise_iff Block.Apart.symm hperm).mp h.apart, fun c hc => h.fits c (hmem c hc),
    fun c hc => ?_⟩
  · rw [hlength, Function.update_eq_self]
    exact h.lengths c (hmem c hc)
  · obtain rfl | hc := List.mem_cons.mp hc
    · rw [hprev, hnext, Function.update_self, Function.update_self]
      exact ⟨rfl, rfl⟩
    · have hout := h.addr_not_mem hc
      rw [(hkeep.2 _ (by simpa using hout)).1, (hkeep.2 _ (by simpa using hout)).2]
      exact h.reset c hc

/-- The two parts of a split block lie one above the other inside it. -/
theorem Block.split_extents (hbig : size + sizeof_freelist_node ≤ b.length) :
    (b.used size).addr = b.addr ∧ (b.used size).stop = (b.left size).addr ∧
      (b.left size).stop = b.stop := by
  refine ⟨rfl, rfl, ?_⟩
  simp only [Block.left, Block.stop]
  omega

/-- What does not overlap a block does not overlap its parts. -/
theorem Block.Apart.split {c : Block} (hbig : size + sizeof_freelist_node ≤ b.length) (h : c.Apart b) :
    c.Apart (b.used size) ∧ c.Apart (b.left size) := by
  obtain ⟨hused, hmid, hleft⟩ := b.split_extents hbig
  have := (b.used size).addr_lt_stop
  have := (b.left size).addr_lt_stop
  unfold Block.Apart at *
  omega

/-- Splitting a free block and handing out its left part leaves all blocks apart. -/
theorem pairwise_apart_split (hbig : size + sizeof_freelist_node ≤ b.length)
    (h : (l₁ ++ b :: l₂ ++ live).Pairwise Block.Apart) :
    (l₁ ++ b.left size :: l₂ ++ b.used size :: live).Pairwise Block.Apart := by
  have hfront : (l₁ ++ b :: l₂ ++ live).Perm (b :: (l₁ ++ l₂ ++ live)) :=
    List.perm_middle.append_right live
  have hback : (b.left size :: b.used size :: (l₁ ++ l₂ ++ live)).Perm
      (l₁ ++ b.left size :: l₂ ++ b.used size :: live) :=
    (List.perm_middle.symm.cons _).trans (List.perm_middle.symm.append_right _)
  obtain ⟨hb, hothers⟩ :=
    List.pairwise_cons.mp ((List.Perm.pairwise_iff Block.Apart.symm hfront).mp h)
  obtain ⟨_, hmid, _⟩ := b.split_extents hbig
  apply (List.Perm.pairwise_iff Block.Apart.symm hback).mp
  refine List.pairwise_cons.mpr ⟨fun c hc => ?_, List.pairwise_cons.mpr ⟨fun c hc => ?_, hothers⟩⟩
  · obtain rfl | hc := List.mem_cons.mp hc
    · exact Or.inr hmid.le
    · exact ((hb c hc).symm.split hbig).2.symm
  · exact ((hb c hc).symm.split hbig).1.symm

/-- Handing out the left part of a block. -/
theorem Consistent.take_split (h : Consistent s (l₁ ++ b :: l₂) live)
    (hbig : size + sizeof_freelist_node ≤ b.length) :
    Consistent
      (((block_init (freelist_remove (splitState s b.addr size (b.left size).addr) b.addr)
        b.addr).set_length b.addr size).relinked (b.left size).addr (l₂.map Block.addr))
      (l₁ ++ b.left size :: l₂) (b.used size :: live) := by
  obtain ⟨hused, hmid, hleft⟩ := b.split_extents hbig
  have hbfits := h.fits b (by simp)
  have hblt := (b.used size).addr_lt_stop
  have hllt := (b.left size).addr_lt_stop
  have hapart := h.apart
  rw [List.append_assoc, List.cons_append] at hapart
  have hothers (c : Block) (hc : c ∈ l₁ ++ (l₂ ++ live)) : c.Apart b := by
    have hfront := (List.Perm.pairwise_iff Block.Apart.symm List.perm_middle).mp hapart
    exact ((List.pairwise_cons.mp hfront).1 c hc).symm
  have hout (c : Block) (hc : c ∈ l₁ ++ (l₂ ++ live)) :
      c.addr ≠ b.addr ∧ c.addr ≠ (b.left size).addr := by
    have := c.addr_lt_stop
    have hcb := hothers c hc
    unfold Block.Apart at hcb
    omega
  have hright : (b.left size).addr ∉ 0 :: (l₁.map Block.addr ++ b.addr :: l₂.map Block.addr) := by
    simp only [List.mem_cons, List.mem_append, List.mem_map, not_or, not_exists, not_and]
    exact ⟨by omega, fun c hc => (hout c (by simp [hc])).2, by omega,
      fun c hc => (hout c (by simp [hc])).2⟩
  have hlinked : s.Linked (l₁.map Block.addr ++ b.addr :: l₂.map Block.addr) := by simpa using h.linked
  obtain ⟨htaken, hkeep⟩ := heap.take_split hlinked size hright
  obtain ⟨_, _, hsplitLength, _, _⟩ := splitState_fields s b.addr size (b.left size).addr
  obtain ⟨hnext, hprev, hlength, _, _⟩ :=
    taken_fields (splitState s b.addr size (b.left size).addr) b.addr size
  have hlb : s.length b.addr = b.length := h.lengths b (by simp)
  have hblen : b.length < 2 ^ 64 := by
    have hstop : b.stop = b.addr + sizeof_freelist_node + b.length := rfl
    omega
  have hremainder : size_sub (size_sub (s.length b.addr) size) sizeof_freelist_node =
    (b.left size).length := by
    rw [hlb, size_sub_eq (by omega) hblen, size_sub_eq (by omega) (by omega)]
    rfl
  rw [hsplitLength, hremainder] at hlength
  have hmem (c : Block) (hc : c ∈ l₁ ++ b.left size :: l₂ ++ b.used size :: live) :
      c = b.left size ∨ c = b.used size ∨ c ∈ l₁ ++ (l₂ ++ live) := by
    simp only [List.mem_append, List.mem_cons] at hc ⊢
    obtain (hc | hc | hc) | hc | hc := hc <;> simp [hc]
  have hold (c : Block) (hc : c ∈ l₁ ++ (l₂ ++ live)) : c ∈ l₁ ++ b :: l₂ ++ live := by
    simp only [List.mem_append, List.mem_cons] at hc ⊢
    obtain hc | hc | hc := hc <;> simp [hc]
  refine ⟨by simpa using htaken, fun c hc => ?_, ?_, ?_, fun c hc => ?_, fun c hc => ?_⟩
  · rw [relinked_length, hlength]
    obtain rfl | rfl | hc := hmem c hc
    · rw [Function.update_of_ne (by omega), Function.update_of_ne (by omega), Function.update_self]
    · exact Function.update_self _ _ _
    · obtain ⟨hcb, hcl⟩ := hout c hc
      rw [Function.update_of_ne hcb, Function.update_of_ne hcb, Function.update_of_ne hcl]
      exact h.lengths c (hold c hc)
  · have hordered := h.ordered
    simp only [Ordered, List.pairwise_append, List.pairwise_cons, List.mem_cons] at hordered
    have hsorted := h.sorted
    simp only [List.pairwise_append, List.pairwise_cons, List.mem_cons] at hsorted ⊢
    refine ⟨hsorted.1, ⟨fun c hc => ?_, hsorted.2.1.2⟩, fun c hc d hd => ?_⟩
    · have := hordered.2.1.1 c hc
      omega
    · obtain rfl | hd := hd
      · have := hsorted.2.2 c hc b (Or.inl rfl)
        omega
      · exact hsorted.2.2 c hc d (Or.inr hd)
  · exact pairwise_apart_split hbig h.apart
  · obtain rfl | rfl | hc := hmem c hc
    · exact ⟨by omega, by omega⟩
    · exact ⟨by omega, by omega⟩
    · exact h.fits c (hold c hc)
  · have hcl : c.addr ∉ l₂.map Block.addr := by
      obtain rfl | hc := List.mem_cons.mp hc
      · have hnodup := (List.nodup_cons.mp hlinked.nodup).2
        exact (List.nodup_cons.mp (List.nodup_append.mp hnodup).2.1).1
      · have hmem := h.addr_not_mem hc
        simp only [List.map_append, List.map_cons, List.mem_append, List.mem_cons, not_or] at hmem
        exact hmem.2.2
    rw [relinked_prev_of_not_mem hcl, relinked_next]
    obtain rfl | hc := List.mem_cons.mp hc
    · rw [hused, hprev, hnext, Function.update_self, Function.update_self]
      exact ⟨rfl, rfl⟩
    · obtain ⟨hcb, hcr⟩ := hout c (by simp [hc])
      have hmem := h.addr_not_mem hc
      have hlinks := hkeep.2 c.addr (by
        simp only [List.map_append, List.map_cons, List.mem_append, List.mem_cons, not_or] at hmem ⊢
        exact ⟨hmem.1, hcb, hcr, hmem.2.2⟩)
      rw [hlinks.1, hlinks.2]
      exact h.reset c hc

end Carve

end tlpi.heap
