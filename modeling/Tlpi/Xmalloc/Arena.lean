import Tlpi.Xmalloc.Roundtrip
import Tlpi.Xmalloc.Runs

namespace tlpi.heap

/-- What the allocator is for: the free blocks in the order of their addresses, the blocks
    that are in use with the sizes that were asked for, and the end of the heap. -/
structure Arena where
  free : List Block
  live : List (Block × Nat)
  brk : Nat
deriving DecidableEq

namespace Arena

/-- The memory by which the heap grows for a request. -/
def grown (size : Nat) : Nat := max (size + sizeof_freelist_node) MIN_HEAP_ALLOC_SIZE

/-- The heap grows if no free block is long enough and there is room above. -/
def grow (a : Arena) (granted : Bool) (size : Nat) : Arena :=
  if (∃ b ∈ a.free, size ≤ b.length) ∨ ¬ (granted = true ∧ a.brk + grown size < 2 ^ 64) then a
  else { a with free := a.free ++ [⟨a.brk, grown size - sizeof_freelist_node⟩], brk := a.brk + grown size }

/-- The first free block that is long enough goes to the user, without what is left over. -/
def malloc (a : Arena) (granted : Bool) (size : Nat) : Arena :=
  let a := a.grow granted size
  match carve size a.free with
  | some (block, free) => { a with free, live := (block, size) :: a.live }
  | none => a

/-- The block goes back and is joined with its neighbours, and the highest free block goes back
    to the kernel if it is long enough. -/
def release (a : Arena) (ptr : Nat) : Arena :=
  match a.live.find? fun lease => lease.1.ptr = ptr with
  | some (block, _) =>
    { free := freeAfter a.free block
      live := a.live.eraseP fun lease => lease.1.ptr = ptr
      brk := if MIN_HEAP_FREE_SIZE ≤ (top a.free block).length then (top a.free block).addr else a.brk }
  | none => a

def step (a : Arena) : Event → Arena
  | .xmalloc size granted => a.malloc granted size
  | .xfree ptr => a.release ptr
  | .store _ _ _ _ => a

end Arena

/-- What there is to see of a configuration. -/
def Config.arena (c : Config) : Arena where
  free := c.state.freeBlocks
  live := c.live.map fun a => (a.block c.state, a.size)
  brk := c.state.brk

section Refine

variable {s s' : State} {c : Config} {free : List Block} {live : List Allocation} {size : Nat}

theorem Config.arena_eq (hcons : Consistent s' free (live.map (Allocation.block s))) :
    Config.arena ⟨s', live⟩ = ⟨free, live.map fun a => (a.block s, a.size), s'.brk⟩ := by
  have hlive : live.map (fun a => (a.block s', a.size)) = live.map fun a => (a.block s, a.size) := by
    apply List.map_congr_left
    intro a ha
    have hmem : a.block s ∈ free ++ live.map (Allocation.block s) :=
      List.mem_append_right _ (List.mem_map_of_mem ha)
    have hlength := hcons.lengths _ hmem
    simp only [Allocation.block] at hlength
    simp [Allocation.block, hlength]
  rw [Config.arena, hcons.freeBlocks_eq, hlive]

/-- The same with a new allocation. -/
theorem Config.arena_cons {t : Block} (hwf : WellFormed s' free (t :: live.map (Allocation.block s))) :
    Config.arena ⟨s', ⟨t.ptr, size⟩ :: live⟩ =
      ⟨free, (t, size) :: live.map fun a => (a.block s, a.size), s'.brk⟩ := by
  have haddr : malloc_addr t.ptr = t.addr := malloc_addr_user_addr (hwf.ptr_fits (by simp))
  have hlength : s'.length t.addr = t.length := hwf.lengths t (by simp)
  have hnew : Allocation.block s' ⟨t.ptr, size⟩ = t := by
    simp [Allocation.block, haddr, hlength]
  have hlive : live.map (Allocation.block s') = live.map (Allocation.block s) :=
    live_blocks_eq fun b hb => hwf.lengths b (List.mem_append_right _ (List.mem_cons_of_mem t hb))
  have hcons : Consistent s' free ((⟨t.ptr, size⟩ :: live).map (Allocation.block s')) := by
    rw [List.map_cons, hnew, hlive]
    exact hwf.toConsistent
  have hpairs : live.map (fun a => (a.block s', a.size)) = live.map fun a => (a.block s, a.size) := by
    apply List.map_congr_left
    intro a ha
    rw [(List.map_inj_left.mp hlive) a ha]
  rw [Config.arena_eq hcons, List.map_cons, hnew, hpairs]

/-- When `sbrk` succeeds. -/
theorem sbrk_eq (s : State) (granted : Bool) {increment : Nat} (hincrement : increment < 2 ^ 63) :
    sbrk s granted increment =
      if granted = true ∧ s.brk + increment < 2 ^ 64 then ({ s with brk := s.brk + increment }, s.brk)
      else ({ s with errno := .ENOMEM }, SBRK_FAILED) := by
  simp only [sbrk, to_signed_eq hincrement]
  by_cases hgranted : granted = true ∧ s.brk + increment < 2 ^ 64
  · rw [if_pos hgranted, if_pos ⟨hgranted.1, by omega, by omega⟩]
    rfl
  · rw [if_neg hgranted, if_neg fun h => hgranted ⟨h.1, by omega⟩]

theorem grown_eq (s : State) (size : Nat) :
    growth s size = ⟨s.brk, Arena.grown size - sizeof_freelist_node⟩ ∧
      (growth s size).stop = s.brk + Arena.grown size := by
  rw [growth_stop, growth, XMAX_eq_max]
  exact ⟨rfl, rfl⟩

/-- First fit passes over the blocks that are too short. -/
theorem carve_append_short {l : List Block} (m : List Block) (h : ∀ d ∈ l, d.length < size) :
    carve size (l ++ m) = (carve size m).map fun r => (r.1, l ++ r.2) := by
  induction l with
  | nil => simp
  | cons a l ih =>
    have ha := h a (by simp)
    rw [List.cons_append, carve, if_neg (by omega), if_neg (by omega), ih fun d hd => h d (by simp [hd]),
      Option.map_map]
    rfl

/-- The blocks of the allocations, as the two views have them. -/
theorem Config.arena_live (c : Config) : c.arena.live.map Prod.fst = c.blocks := by
  simp [Config.arena, Config.blocks, Function.comp_def]

/-- A request that the free list can meet. -/
theorem exec_xmalloc_fit {l₁ l₂ : List Block} {b : Block} (h : c.Inv) (granted : Bool)
    (hsize : size + sizeof_freelist_node < 2 ^ 63) (hsafe : splitSafe size c.state.freeBlocks = true)
    (hfree : c.state.freeBlocks = l₁ ++ b :: l₂) (hsmall : ∀ d ∈ l₁, d.length < size) (hfit : size ≤ b.length) :
    ∃ c', exec c (.xmalloc size granted) = .ok c' ∧ c'.Inv ∧ c'.arena = c.arena.malloc granted size := by
  have hsize' : size + sizeof_freelist_node < 2 ^ 64 := by omega
  obtain ⟨t, m', hcarve⟩ : ∃ t m', carve size c.state.freeBlocks = some (t, m') := by
    rw [hfree, carve_append hsmall hfit]
    exact ⟨_, _, rfl⟩
  obtain ⟨s', hrun, hwf⟩ := xmalloc_fit h.wellFormed granted hsize' hsafe hcarve
  have hbrk : s'.brk = c.state.brk := by
    have hcons := h.wellFormed.toConsistent
    rw [hfree] at hcons
    rw [xmalloc_handOut hcons granted hsize' hsmall hfit] at hrun
    obtain ⟨rfl, -⟩ := Prod.mk.inj (Except.ok.inj hrun)
    exact handOut_brk c.state b size
  have hne : t.ptr ≠ 0 := user_addr_ne_zero (hwf.ptr_fits (by simp))
  refine ⟨⟨s', ⟨t.ptr, size⟩ :: c.live⟩, by simp [exec, hrun, hne], h.cons (carve_size_le hcarve) hwf, ?_⟩
  have hany : ∃ d ∈ c.arena.free, size ≤ d.length := ⟨b, by simp [Config.arena, hfree], hfit⟩
  have hgrow : c.arena.grow granted size = c.arena := if_pos (Or.inl hany)
  rw [Config.arena_cons hwf, Arena.malloc, hgrow, hbrk]
  simp [Config.arena, hcarve]

/-- A request for which the heap would have to grow. -/
theorem exec_xmalloc_grow (h : c.Inv) (granted : Bool) (hsize : size + sizeof_freelist_node < 2 ^ 63)
    (hshort : ∀ d ∈ c.state.freeBlocks, d.length < size) :
    ∃ c', exec c (.xmalloc size granted) = .ok c' ∧ c'.Inv ∧ c'.arena = c.arena.malloc granted size := by
  have hsize' : size + sizeof_freelist_node < 2 ^ 64 := by omega
  have hnone := h.wellFormed.search_none fun d hd => tooShort_of_lt hsize' (hshort d hd)
  have hshort' : ¬ ∃ d ∈ c.arena.free, size ≤ d.length := by
    rintro ⟨d, hd, hle⟩
    have hlt := hshort d hd
    omega
  have halloc : XMAX (size + sizeof_freelist_node) MIN_HEAP_ALLOC_SIZE < 2 ^ 63 := by
    rw [XMAX_eq_max]
    exact max_lt hsize (by decide)
  have hsbrk := sbrk_eq c.state granted halloc
  obtain ⟨hblock, hstop⟩ := grown_eq c.state size
  rw [← growth_stop, hstop] at hsbrk
  by_cases hroom : granted = true ∧ c.state.brk + Arena.grown size < 2 ^ 64
  · rw [if_pos hroom, ← hstop] at hsbrk
    obtain ⟨s', t, m', hcarve, hrun, hwf, hbrk⟩ :=
      xmalloc_grown h.wellFormed granted hsize' hnone (hstop ▸ hroom.2) hsbrk
    have hne : t.ptr ≠ 0 := user_addr_ne_zero (hwf.ptr_fits (by simp))
    refine ⟨⟨s', ⟨t.ptr, size⟩ :: c.live⟩, by simp [exec, hrun, hne], h.cons (carve_size_le hcarve) hwf, ?_⟩
    have hcarve' : carve size (c.state.freeBlocks ++ [growth c.state size]) =
        some (t, c.state.freeBlocks ++ m') := by
      rw [carve_append_short _ hshort, hcarve]
      rfl
    rw [hblock] at hcarve'
    have hgrow : c.arena.grow granted size = ⟨c.state.freeBlocks ++
        [⟨c.state.brk, Arena.grown size - sizeof_freelist_node⟩], c.arena.live, c.state.brk + Arena.grown size⟩ :=
      if_neg (not_or.mpr ⟨hshort', not_not.mpr hroom⟩)
    rw [Config.arena_cons hwf, Arena.malloc, hgrow, hbrk, hstop]
    simp [Config.arena, hcarve']
  · rw [if_neg hroom, ← size_add_eq hsize'] at hsbrk
    have hrun := xmalloc_refused hnone hsbrk
    have hcons : Consistent { c.state with errno := .ENOMEM } c.state.freeBlocks c.blocks :=
      h.wellFormed.toConsistent.congr rfl fun _ _ => ⟨rfl, rfl, rfl⟩
    have hwf : WellFormed { c.state with errno := .ENOMEM } c.state.freeBlocks c.blocks :=
      ⟨hcons, h.wellFormed.below, h.wellFormed.brk_pos, h.wellFormed.brk_lt⟩
    refine ⟨⟨_, c.live⟩, by simp [exec, hrun], h.sub (fun a ha => ha) hwf, ?_⟩
    have hgrow : c.arena.grow granted size = c.arena := if_pos (Or.inr hroom)
    rw [Config.arena_eq hcons, Arena.malloc, hgrow]
    simp [Config.arena, carve_eq_none hshort]

/-- The first element of an image with a property is found and erased at its place. -/
theorem find?_eraseP_map {A B : Type} (f : A → B) (p : B → Bool) (l₁ l₂ : List A) (a : A)
    (hfirst : ∀ d ∈ l₁, p (f d) = false) (ha : p (f a) = true) :
    ((l₁ ++ a :: l₂).map f).find? p = some (f a) ∧ ((l₁ ++ a :: l₂).map f).eraseP p = (l₁ ++ l₂).map f := by
  have hnot : ∀ b ∈ l₁.map f, ¬ p b = true := by
    intro b hb
    obtain ⟨d, hd, rfl⟩ := List.mem_map.mp hb
    simp [hfirst d hd]
  simp only [List.map_append, List.map_cons]
  rw [List.find?_append, List.find?_eq_none.mpr hnot, Option.none_or, List.find?_cons_of_pos ha,
    List.eraseP_append_right _ hnot, List.eraseP_cons_of_pos ha]
  exact ⟨rfl, rfl⟩

theorem Config.Inv.block_ptr {a : Allocation} (h : c.Inv) (ha : a ∈ c.live) : (a.block c.state).ptr = a.ptr := by
  rw [Block.ptr, Allocation.block]
  exact h.ptrs a ha

/-- The allocation of a pointer, at the same place in both views. -/
theorem Config.Inv.find_lease {ptr : Nat} (h : c.Inv) (hallowed : Allowed c (.xfree ptr)) :
    ∃ a l₁ l₂, a.ptr = ptr ∧ c.live = l₁ ++ a :: l₂ ∧ c.live.eraseP (fun a => decide (a.ptr = ptr)) = l₁ ++ l₂ ∧
      c.arena.live.find? (fun lease => decide (lease.1.ptr = ptr)) = some (a.block c.state, a.size) ∧
      c.arena.live.eraseP (fun lease => decide (lease.1.ptr = ptr)) =
        (l₁ ++ l₂).map fun a => (a.block c.state, a.size) := by
  obtain ⟨a₀, ha₀, hptr₀⟩ := hallowed
  obtain ⟨a, l₁, l₂, hother, hptr, hlive, hrest⟩ :=
    List.exists_of_eraseP (p := fun a => decide (a.ptr = ptr)) ha₀ (by simpa using hptr₀)
  obtain rfl : a.ptr = ptr := by simpa using hptr
  have hmem : a ∈ c.live := by simp [hlive]
  obtain ⟨hfind, herase⟩ := find?_eraseP_map (fun a => (a.block c.state, a.size))
    (fun lease => decide (lease.1.ptr = a.ptr)) l₁ l₂ a
    (fun d hd => by
      have hd' : d ∈ c.live := by simp [hlive, hd]
      simpa [h.block_ptr hd'] using hother d hd)
    (by simp [h.block_ptr hmem])
  rw [← hlive] at hfind herase
  exact ⟨a, l₁, l₂, rfl, hlive, hrest, hfind, herase⟩

theorem Config.blocks_perm {a : Allocation} {l₁ l₂ : List Allocation} (hlive : c.live = l₁ ++ a :: l₂) :
    c.blocks.Perm (a.block c.state :: (l₁ ++ l₂).map (Allocation.block c.state)) := by
  rw [Config.blocks, hlive, ← List.map_cons]
  exact (List.perm_middle).map _

/-- Freeing an allocation. -/
theorem exec_xfree_arena {ptr : Nat} (h : c.Inv) (hallowed : Allowed c (.xfree ptr))
    (hcareful : Careful c (.xfree ptr)) :
    ∃ c', exec c (.xfree ptr) = .ok c' ∧ c'.Inv ∧ c'.arena = c.arena.release ptr := by
  obtain ⟨c', hexec, hinv⟩ := exec_xfree_inv h hallowed hcareful
  refine ⟨c', hexec, hinv, ?_⟩
  obtain ⟨a, l₁, l₂, rfl, hlive, hrest, hfind, herase⟩ := h.find_lease hallowed
  obtain ⟨s', hrun, hcons, hbrk⟩ := xfree_spec (h.wellFormed.perm (Config.blocks_perm hlive)).toConsistent
  have hrun : xfree c.state a.ptr = .ok s' := by
    rw [← h.ptrs a (by simp [hlive])]
    exact hrun
  obtain rfl : c' = ⟨s', l₁ ++ l₂⟩ := by
    simpa [exec, hrun, hrest] using hexec.symm
  rw [Config.arena_eq hcons, hbrk, Arena.release, hfind, herase]
  simp only [Config.arena, brkAfter]
  congr 1

/-- Every careful call does to what there is to see what the arena does. -/
theorem exec_arena (e : Event) (h : c.Inv) (hok : Allowed c e ∧ Careful c e) :
    ∃ c', exec c e = .ok c' ∧ c'.Inv ∧ c'.arena = c.arena.step e := by
  cases e with
  | xmalloc size granted =>
    obtain hshort | ⟨l₁, b, l₂, hfree, hsmall, hfit⟩ := exists_first_fit size c.state.freeBlocks
    · exact exec_xmalloc_grow h granted hok.1 hshort
    · exact exec_xmalloc_fit h granted hok.1 hok.2 hfree hsmall hfit
  | xfree ptr => exact exec_xfree_arena h hok.1 hok.2
  | store addr prev next length =>
    obtain ⟨c', hexec, hinv⟩ := exec_store_inv h hok.1
    refine ⟨c', hexec, hinv, ?_⟩
    cases hexec
    have hcons : Consistent (((c.state.set_prev addr prev).set_next addr next).set_length addr length)
        c.state.freeBlocks c.blocks :=
      h.wellFormed.toConsistent.congr rfl fun d hd => by
        simp [Function.update_of_ne (h.store_addr_ne hok.1 hd)]
    rw [Config.arena_eq hcons]
    rfl

theorem freelist_size_spec {l : List Nat} (h : s.Linked l) (hfuel : l.length < ADDRESSES) :
    freelist_size s = .ok l.length := by
  rw [freelist_size, h.head, ← List.append_nil l]
  refine loop_list (fun k m => (k.length, m.headD 0)) l [] ?_ (by simp) hfuel
  rintro k c m rfl
  have hc : c ≠ 0 := h.mem_ne_zero (by simp)
  have hadd : size_add k.length 1 = k.length + 1 := by
    apply size_add_eq
    rw [List.length_append, List.length_cons] at hfuel
    unfold ADDRESSES at hfuel
    omega
  simp [hc, h.next_mid, hadd]

theorem freelist_item_spec {l : List Nat} (h : s.Linked l) (hfuel : l.length < ADDRESSES) (index : Nat) :
    freelist_item s index = .ok (l[index]?.getD 0) := by
  -- the walk stops at the index, or at the end of the list
  rw [freelist_item, h.head, ← List.take_append_drop index l]
  refine loop_list (fun k m => (k.length, m.headD 0)) (l.take index) (l.drop index) ?_ ?_
    (lt_of_le_of_lt (List.length_take_le' index l) hfuel)
  · intro k c m hsplit
    have hl : s.Linked (k ++ c :: (m ++ l.drop index)) := by
      rw [← List.cons_append, ← List.append_assoc, ← hsplit, List.take_append_drop]
      exact h
    have hc : c ≠ 0 := hl.mem_ne_zero (by simp)
    have hlen := congrArg List.length hsplit
    simp only [List.length_take, List.length_append, List.length_cons] at hlen
    have hadd : size_add k.length 1 = k.length + 1 := by
      apply size_add_eq
      unfold ADDRESSES at hfuel
      omega
    have hne : k.length ≠ index := by omega
    simp [hc, hl.next_mid, hadd, hne]
  · rw [List.take_append_drop]
    cases hdrop : l.drop index with
    | nil => simp [List.getElem?_eq_none (List.drop_eq_nil_iff.mp hdrop)]
    | cons c m =>
      have hlt : index < l.length := by
        by_contra hge
        rw [List.drop_eq_nil_iff.mpr (by omega)] at hdrop
        cases hdrop
      have hget : l[index]? = some c := by
        rw [List.drop_eq_getElem_cons hlt] at hdrop
        rw [List.getElem?_eq_getElem hlt, (List.cons.inj hdrop).1]
      have hc : c ≠ 0 := by
        apply h.mem_ne_zero
        rw [← List.take_append_drop index l, hdrop]
        simp
      simp [hc, hget, hlt.le]

/-- What the user and the inspection functions see of a configuration is what the arena says. -/
structure Config.Shows (c : Config) (a : Arena) : Prop where
  arena : c.arena = a
  leases : c.live.map (fun l => (l.ptr, l.size)) = a.live.map fun l => (l.1.ptr, l.2)
  size : freelist_size c.state = .ok a.free.length
  item : ∀ index, freelist_item c.state index = .ok ((a.free.map Block.addr)[index]?.getD 0)

theorem Config.Inv.shows (h : c.Inv) : c.Shows c.arena where
  arena := rfl
  leases := by
    simp only [Config.arena, List.map_map]
    apply List.map_congr_left
    intro a ha
    simp [h.block_ptr ha]
  size := by
    have hsize := freelist_size_spec h.wellFormed.linked h.wellFormed.walk_fuel
    rwa [List.length_map] at hsize
  item := freelist_item_spec h.wellFormed.linked h.wellFormed.walk_fuel

theorem Fresh.arena (h : Fresh s) : Config.arena ⟨s, []⟩ = ⟨[], [], s.brk⟩ := by
  have hfree : s.freeBlocks = [] := by
    simp [State.freeBlocks, freelist_walk, h.empty, ADDRESSES, loop]
  simp [Config.arena, hfree]

/-- The allocator refines the arena: after every run of allowed and careful calls the pointers
    that the user holds, the free list and the break are those of the run of the arena. -/
theorem careful_runs_refine (s : State) (events : List Event) (hfresh : Fresh s)
    (hallowed : Along exec Allowed ⟨s, []⟩ events) (hcareful : Along exec Careful ⟨s, []⟩ events) :
    ∃ c, run exec ⟨s, []⟩ events = .ok c ∧ c.Shows (events.foldl Arena.step ⟨[], [], s.brk⟩) := by
  have hrun : ∀ c : Config, c.Inv → Along exec (fun c e => Allowed c e ∧ Careful c e) c events →
      ∃ c', run exec c events = .ok c' ∧ c'.Inv ∧ c'.arena = events.foldl Arena.step c.arena := by
    clear hallowed hcareful
    induction events with
    | nil => exact fun c h _ => ⟨c, rfl, h, rfl⟩
    | cons e rest ih =>
      intro c h hok
      obtain ⟨hok, hrest⟩ := hok
      obtain ⟨c₁, hexec, hinv, harena⟩ := exec_arena e h hok
      rw [hexec] at hrest
      obtain ⟨c', hrun, hinv', harena'⟩ := ih c₁ hinv hrest
      refine ⟨c', ?_, hinv', ?_⟩
      · rw [run, hexec, exec_bind_ok, hrun]
      · rw [harena', List.foldl_cons, harena]
  obtain ⟨c, hok, hinv, harena⟩ := hrun _ hfresh.inv (hallowed.and hcareful)
  refine ⟨c, hok, ?_⟩
  rw [← hfresh.arena, ← harena]
  exact hinv.shows

theorem carefulRun_refines : ∃ c, run exec ⟨emptyHeap, []⟩ carefulRun = .ok c ∧
    c.Shows (carefulRun.foldl Arena.step ⟨[], [], 4096⟩) :=
  careful_runs_refine emptyHeap carefulRun emptyHeap_fresh (by decide +kernel) (by decide +kernel)

end Refine

end tlpi.heap
