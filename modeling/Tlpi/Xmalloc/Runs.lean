import Tlpi.Lib.Run
import Tlpi.Xmalloc.Malloc
import Tlpi.Xmalloc.Shrink

namespace tlpi.heap

/-- A block in the hands of the user: the pointer that `xmalloc` has returned and the size
    that it was asked for. -/
structure Allocation where
  ptr : Nat
  size : Nat
deriving DecidableEq, Repr

/-- The allocator together with what its user holds. -/
structure Config where
  state : State
  live : List Allocation

/-- What can happen: a call, with the kernel's answer to `sbrk` if it comes to that, or a
    store of the user, which changes what the allocator would read as a header. A store of
    a few bytes is a sequence of these. -/
inductive Event where
  | xmalloc (size : Nat) (granted : Bool)
  | xfree (ptr : Nat)
  | store (addr prev next length : Nat)

def Allocation.block (s : State) (a : Allocation) : Block where
  addr := malloc_addr a.ptr
  length := s.length (malloc_addr a.ptr)

def Config.blocks (c : Config) : List Block := c.live.map (Allocation.block c.state)

/-- The blocks met by walking `FreeList` through `next`. -/
def State.freeBlocks (s : State) : List Block :=
  match freelist_walk s with
  | .ok nodes => nodes.map fun node => ⟨node.1, node.2⟩
  | .error _ => []

def exec (c : Config) : Event → Exec Config
  | .xmalloc size granted => do
    let (s, ptr) ← xmalloc c.state granted size
    return if ptr = 0 then ⟨s, c.live⟩ else ⟨s, ⟨ptr, size⟩ :: c.live⟩
  | .xfree ptr => do
    let s ← xfree c.state ptr
    return ⟨s, c.live.eraseP fun a => a.ptr = ptr⟩
  | .store addr prev next length =>
    .ok ⟨((c.state.set_prev addr prev).set_next addr next).set_length addr length, c.live⟩

/-- The user's side of the contract: no request that is larger than half the address space,
    only live pointers are freed, and only headers that reach into the user's part of a
    live block are changed. -/
def Allowed (c : Config) : Event → Prop
  | .xmalloc size _ => size + sizeof_freelist_node < 2 ^ 63
  | .xfree ptr => ∃ a ∈ c.live, a.ptr = ptr
  | .store addr _ _ _ => ∃ b ∈ c.blocks, b.addr < addr ∧ addr < b.stop

/-- The calls that stay clear of the two defects: no free block is split in front of another
    one, and the heap is not shrunk below a live block. -/
def Careful (c : Config) : Event → Prop
  | .xmalloc size _ => splitSafe size c.state.freeBlocks = true
  | .xfree ptr =>
    ShrinkSafe c.state.freeBlocks ((c.live.eraseP fun a => a.ptr = ptr).map (Allocation.block c.state))
      ⟨malloc_addr ptr, c.state.length (malloc_addr ptr)⟩
  | .store _ _ _ _ => True

instance (c : Config) (e : Event) : Decidable (Allowed c e) :=
  match e with
  | .xmalloc size _ => inferInstanceAs (Decidable (size + sizeof_freelist_node < 2 ^ 63))
  | .xfree ptr => inferInstanceAs (Decidable (∃ a ∈ c.live, a.ptr = ptr))
  | .store addr _ _ _ => inferInstanceAs (Decidable (∃ b ∈ c.blocks, b.addr < addr ∧ addr < b.stop))

instance (c : Config) (e : Event) : Decidable (Careful c e) :=
  match e with
  | .xmalloc size _ => inferInstanceAs (Decidable (splitSafe size c.state.freeBlocks = true))
  | .xfree _ => inferInstanceAs (Decidable (ShrinkSafe _ _ _))
  | .store _ _ _ _ => isTrue trivial

/-- The allocator before its first call. -/
structure Fresh (s : State) : Prop where
  empty : s.FreeList = 0
  brk_pos : 0 < s.brk
  brk_lt : s.brk < 2 ^ 64

/-- No two live blocks overlap, each is as long as was asked for, and no block of the free
    list overlaps a live one. -/
structure Config.Safe (c : Config) : Prop where
  apart : c.blocks.Pairwise Block.Apart
  sizes : ∀ a ∈ c.live, a.size ≤ (a.block c.state).length
  walk : ∃ nodes, freelist_walk c.state = .ok nodes ∧
    ∀ node ∈ nodes, ∀ b ∈ c.blocks, Block.Apart ⟨node.1, node.2⟩ b
  distinct : (c.live.map Allocation.ptr).Nodup

/-- The sanity check of the free list succeeds, its addresses increase, and the `prev` of
    every node is the node before it. -/
structure Config.Sane (c : Config) : Prop where
  sane : is_freelist_sane c.state = .ok true
  walk : ∃ nodes, freelist_walk c.state = .ok nodes ∧ (nodes.map Prod.fst).Pairwise (· < ·) ∧
    ∀ before node after, nodes.map Prod.fst = before ++ node :: after →
      c.state.prev node = before.getLastD 0

/-- What every call keeps: the free list and the live blocks make up a well-formed state,
    and the user's pointers and sizes go with the live blocks. -/
structure Config.Inv (c : Config) : Prop where
  wellFormed : WellFormed c.state c.state.freeBlocks c.blocks
  ptrs : ∀ a ∈ c.live, user_addr (malloc_addr a.ptr) = a.ptr
  sizes : ∀ a ∈ c.live, a.size ≤ (a.block c.state).length

section Runs

variable {s s' : State} {c : Config} {free blocks : List Block} {live : List Allocation}

theorem Consistent.freeBlocks_eq (h : Consistent s free blocks) : s.freeBlocks = free := by
  rw [State.freeBlocks, h.walk]
  simp only [nodes, List.map_map]
  exact List.map_id free

/-- The live blocks read in a new state are those of the old one, if the lengths are. -/
theorem live_blocks_eq (h : ∀ b ∈ live.map (Allocation.block s), s'.length b.addr = b.length) :
    live.map (Allocation.block s') = live.map (Allocation.block s) := by
  apply List.map_congr_left
  intro a ha
  have hlength := h _ (List.mem_map_of_mem ha)
  simp only [Allocation.block, Block.mk.injEq, true_and]
  exact hlength

/-- Some of the allocations of a configuration, in a state that is well-formed with their
    blocks. -/
theorem Config.Inv.sub {live' : List Allocation} (h : c.Inv) (hsub : ∀ a ∈ live', a ∈ c.live)
    (hwf : WellFormed s' free (live'.map (Allocation.block c.state))) : Config.Inv ⟨s', live'⟩ := by
  have hblocks : live'.map (Allocation.block s') = live'.map (Allocation.block c.state) :=
    live_blocks_eq fun b hb => hwf.lengths b (List.mem_append_right _ hb)
  refine ⟨?_, fun a ha => h.ptrs a (hsub a ha), fun a ha => ?_⟩
  · simp only [Config.blocks]
    rw [hwf.freeBlocks_eq, hblocks]
    exact hwf
  · have hlength := hwf.lengths _
      (List.mem_append_right free (List.mem_map_of_mem (f := Allocation.block c.state) ha))
    have hsize := h.sizes a (hsub a ha)
    simp only [Allocation.block] at hlength hsize ⊢
    omega

/-- A new allocation, in a state that is well-formed with its block. -/
theorem Config.Inv.cons {t : Block} {size : Nat} (h : c.Inv) (hsize : size ≤ t.length)
    (hwf : WellFormed s' free (t :: c.blocks)) : Config.Inv ⟨s', ⟨t.ptr, size⟩ :: c.live⟩ := by
  have haddr : malloc_addr t.ptr = t.addr := malloc_addr_user_addr (hwf.ptr_fits (by simp))
  have hlength : s'.length t.addr = t.length := hwf.lengths t (by simp)
  have hblocks : c.live.map (Allocation.block s') = c.blocks :=
    live_blocks_eq fun b hb => hwf.lengths b (List.mem_append_right _ (List.mem_cons_of_mem t hb))
  have hnew : Allocation.block s' ⟨t.ptr, size⟩ = t := by
    simp [Allocation.block, haddr, hlength]
  refine ⟨?_, fun a ha => ?_, fun a ha => ?_⟩
  · simp only [Config.blocks, List.map_cons]
    rw [hwf.freeBlocks_eq, hnew, hblocks]
    exact hwf
  · obtain rfl | ha := List.mem_cons.mp ha
    · rw [haddr]
      rfl
    · exact h.ptrs a ha
  · obtain rfl | ha := List.mem_cons.mp ha
    · rw [hnew]
      exact hsize
    · have hmem : a.block c.state ∈ free ++ t :: c.blocks :=
        List.mem_append_right _ (List.mem_cons_of_mem t (List.mem_map_of_mem ha))
      have hlength := hwf.lengths _ hmem
      have hsize := h.sizes a ha
      simp only [Allocation.block] at hlength hsize ⊢
      omega

theorem Fresh.inv (h : Fresh s) : Config.Inv ⟨s, []⟩ := by
  have hwf : WellFormed s [] [] := by
    refine ⟨⟨⟨by simp, ?_, by simp⟩, by simp, .nil, .nil, by simp, by simp⟩, by simp, h.brk_pos,
      h.brk_lt⟩
    simp [State.succ, h.empty]
  refine ⟨?_, by simp, by simp⟩
  rw [hwf.freeBlocks_eq]
  exact hwf

theorem exec_xmalloc_inv {size : Nat} (h : c.Inv) (granted : Bool)
    (hallowed : Allowed c (.xmalloc size granted)) (hcareful : Careful c (.xmalloc size granted)) :
    ∃ c', exec c (.xmalloc size granted) = .ok c' ∧ c'.Inv := by
  obtain ⟨s', ptr, hrun, ⟨rfl, hwf⟩ | ⟨t, free', rfl, hsize, hwf⟩⟩ :=
    xmalloc_wellFormed h.wellFormed granted hallowed hcareful
  · refine ⟨⟨s', c.live⟩, by simp [exec, hrun], ?_⟩
    exact h.sub (fun a ha => ha) hwf
  · have hne : t.ptr ≠ 0 := user_addr_ne_zero (hwf.ptr_fits (by simp))
    refine ⟨⟨s', ⟨t.ptr, size⟩ :: c.live⟩, by simp [exec, hrun, hne], ?_⟩
    exact h.cons hsize hwf

theorem exec_xfree_inv {ptr : Nat} (h : c.Inv) (hallowed : Allowed c (.xfree ptr))
    (hcareful : Careful c (.xfree ptr)) : ∃ c', exec c (.xfree ptr) = .ok c' ∧ c'.Inv := by
  obtain ⟨a₀, ha₀, hptr₀⟩ := hallowed
  obtain ⟨a, l₁, l₂, _, hptr, hlive, hrest⟩ :=
    List.exists_of_eraseP (p := fun a => decide (a.ptr = ptr)) ha₀ (by simpa using hptr₀)
  obtain rfl : a.ptr = ptr := by simpa using hptr
  have hmem : a ∈ c.live := by simp [hlive]
  have hperm : c.blocks.Perm (a.block c.state :: (l₁ ++ l₂).map (Allocation.block c.state)) := by
    rw [Config.blocks, hlive, ← List.map_cons]
    exact (List.perm_middle).map _
  simp only [Careful, hrest] at hcareful
  obtain ⟨s', hrun, hwf⟩ := xfree_wellFormed (h.wellFormed.perm hperm) hcareful
  have hrun : xfree c.state a.ptr = .ok s' := by
    rw [← h.ptrs a hmem]
    exact hrun
  refine ⟨⟨s', l₁ ++ l₂⟩, by simp [exec, hrun, hrest], ?_⟩
  refine h.sub (fun d hd => ?_) hwf
  rw [hlive]
  obtain hd | hd := List.mem_append.mp hd
  · simp [hd]
  · simp [hd]

/-- A store inside a live block does not touch the header of any block. -/
theorem Config.Inv.store_addr_ne {addr prev next length : Nat} {d : Block} (h : c.Inv)
    (hallowed : Allowed c (.store addr prev next length)) (hd : d ∈ c.state.freeBlocks ++ c.blocks) :
    d.addr ≠ addr := by
  obtain ⟨b, hb, hlow, hhigh⟩ := hallowed
  by_cases hdb : d = b
  · rw [hdb]
    exact hlow.ne
  · have hapart := h.wellFormed.apart.forall hd (List.mem_append_right _ hb) hdb
    have := d.addr_lt_stop
    obtain hapart | hapart := hapart <;> omega

/-- A store inside a live block changes no header that is in use. -/
theorem exec_store_inv {addr prev next length : Nat} (h : c.Inv)
    (hallowed : Allowed c (.store addr prev next length)) :
    ∃ c', exec c (.store addr prev next length) = .ok c' ∧ c'.Inv := by
  have hwf := h.wellFormed
  refine ⟨_, rfl, h.sub (fun a ha => ha) ⟨hwf.toConsistent.congr rfl fun d hd => ?_, hwf.below,
    hwf.brk_pos, hwf.brk_lt⟩⟩
  simp [Function.update_of_ne (h.store_addr_ne hallowed hd)]

theorem exec_inv (e : Event) (h : c.Inv) (hok : Allowed c e ∧ Careful c e) :
    ∃ c', exec c e = .ok c' ∧ c'.Inv := by
  cases e with
  | xmalloc size granted => exact exec_xmalloc_inv h granted hok.1 hok.2
  | xfree ptr => exact exec_xfree_inv h hok.1 hok.2
  | store addr prev next length => exact exec_store_inv h hok.1

theorem Config.Inv.safe (h : c.Inv) : c.Safe := by
  obtain ⟨_, hlive, hcross⟩ := List.pairwise_append.mp h.wellFormed.apart
  refine ⟨hlive, h.sizes, ⟨_, h.wellFormed.walk, fun node hnode b hb => ?_⟩, ?_⟩
  · obtain ⟨d, hd, rfl⟩ := List.mem_map.mp hnode
    exact hcross d hd b hb
  · rw [Config.blocks, List.pairwise_map] at hlive
    refine List.pairwise_map.mpr (hlive.imp fun {a a'} hapart heq => ?_)
    have hlt := (a.block c.state).addr_lt_stop
    have hlt' := (a'.block c.state).addr_lt_stop
    have hsame : (a.block c.state).addr = (a'.block c.state).addr := by rw [Allocation.block, heq]; rfl
    obtain hapart | hapart := hapart <;> omega

theorem Config.Inv.sane (h : c.Inv) : c.Sane := by
  have hwf := h.wellFormed
  refine ⟨is_freelist_sane_spec hwf.linked hwf.walk_fuel, _, hwf.walk, ?_,
    fun before node after hsplit => ?_⟩
  · rw [nodes_fst]
    exact List.pairwise_map.mpr hwf.sorted
  · have hlinked := hwf.linked
    rw [nodes_fst] at hsplit
    rw [hsplit] at hlinked
    exact hlinked.prev_mid

/-- In every run of allowed calls that stay clear of the two defects, no call fails to
    return, and the live blocks never overlap each other or the free list. -/
theorem careful_runs_safe (s : State) (events : List Event) (hfresh : Fresh s)
    (hallowed : Along exec Allowed ⟨s, []⟩ events) (hcareful : Along exec Careful ⟨s, []⟩ events) :
    Always exec Config.Safe ⟨s, []⟩ events :=
  Always.of_invariant (fun _ e => exec_inv e) (fun _ => Config.Inv.safe) hfresh.inv
    (hallowed.and hcareful)

/-- In every such run the free list stays sorted, with links that agree in both directions. -/
theorem careful_runs_sane (s : State) (events : List Event) (hfresh : Fresh s)
    (hallowed : Along exec Allowed ⟨s, []⟩ events) (hcareful : Along exec Careful ⟨s, []⟩ events) :
    Always exec Config.Sane ⟨s, []⟩ events :=
  Always.of_invariant (fun _ e => exec_inv e) (fun _ => Config.Inv.sane) hfresh.inv
    (hallowed.and hcareful)

end Runs

/-- An empty heap with the break at the address 4096. -/
def emptyHeap : State where
  prev := fun _ => 0
  next := fun _ => 0
  length := fun _ => 0
  FreeList := 0
  brk := 4096
  errno := .other 0

theorem emptyHeap_fresh : Fresh emptyHeap := ⟨rfl, by decide, by decide⟩

/-- Three blocks, a refused request, a store into the second block, and frees that join all
    of the heap and give it back. -/
def carefulRun : List Event :=
  [.xmalloc 100 true, .xmalloc 3000 true, .xmalloc 5000 false, .xmalloc 5000 true,
    .store 5000 1 2 3, .xfree 4120, .xfree 8216, .xfree 4244]

theorem carefulRun_safe : Always exec Config.Safe ⟨emptyHeap, []⟩ carefulRun :=
  careful_runs_safe emptyHeap carefulRun emptyHeap_fresh (by decide +kernel) (by decide +kernel)

theorem carefulRun_sane : Always exec Config.Sane ⟨emptyHeap, []⟩ carefulRun :=
  careful_runs_sane emptyHeap carefulRun emptyHeap_fresh (by decide +kernel) (by decide +kernel)

/-- The first of two free blocks is split, and the second one keeps the live part as its
    `prev`. -/
def splitRun : List Event :=
  [.xmalloc 4072 true, .xmalloc 4072 true, .xmalloc 4072 true, .xfree 4120, .xfree 12312,
    .xmalloc 100 true]

theorem splitRun_breaks_prev :
    Fresh emptyHeap ∧ Along exec Allowed ⟨emptyHeap, []⟩ splitRun ∧
      ¬ Always exec Config.Sane ⟨emptyHeap, []⟩ splitRun := by
  refine ⟨emptyHeap_fresh, by decide +kernel, fun halways => ?_⟩
  obtain ⟨c, hrun, hsane⟩ := halways.run_ok
  have hcheck :
      (run exec ⟨emptyHeap, []⟩ splitRun).toOption.map (fun c => (is_freelist_sane c.state).toOption) =
        some (some false) := by decide +kernel
  rw [hrun] at hcheck
  simp [Except.toOption, hsane.sane] at hcheck

/-- The second block is then handed out without leaving the free list, and handed out
    again. -/
theorem splitRun_hands_out_twice :
    Fresh emptyHeap ∧ Along exec Allowed ⟨emptyHeap, []⟩
      (splitRun ++ [.xmalloc 4072 true, .xmalloc 4072 true]) ∧
      ¬ Always exec Config.Safe ⟨emptyHeap, []⟩
        (splitRun ++ [.xmalloc 4072 true, .xmalloc 4072 true]) := by
  refine ⟨emptyHeap_fresh, by decide +kernel, fun halways => ?_⟩
  obtain ⟨c, hrun, hsafe⟩ := halways.run_ok
  have hblocks :
      (run exec ⟨emptyHeap, []⟩ (splitRun ++ [.xmalloc 4072 true, .xmalloc 4072 true])).toOption.map
        Config.blocks = some [⟨12288, 4072⟩, ⟨12288, 4072⟩, ⟨4096, 100⟩, ⟨8192, 4072⟩] := by
    decide +kernel
  rw [hrun] at hblocks
  have hapart := hsafe.apart
  simp only [Except.toOption, Option.map_some, Option.some.injEq] at hblocks
  rw [hblocks] at hapart
  exact absurd hapart (by decide)

end tlpi.heap
