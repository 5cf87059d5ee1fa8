import Tlpi.Xmalloc.Arena

namespace tlpi.heap

/-- The free and the live blocks cover the heap from its start, no two free blocks touch, and
    when nothing is in use there is no long block that could be given back. -/
structure Arena.Tiled (start : Nat) (a : Arena) : Prop where
  le : start ≤ a.brk
  sparse : Sparse a.free
  covers : extent (a.free ++ a.live.map Prod.fst) = Set.Ico start a.brk
  returned : a.live = [] → ∀ b ∈ a.free, b.length < MIN_HEAP_FREE_SIZE

section Tiled

variable {a : Arena} {l m m' : List Block} {b t : Block} {start stop size : Nat}

theorem mem_extent_of_mem (hb : b ∈ l) : b.addr ∈ extent l ∧ b.stop - 1 ∈ extent l := by
  have hlt := b.addr_lt_stop
  refine ⟨mem_extent.mpr ⟨b, hb, ?_⟩, mem_extent.mpr ⟨b, hb, ?_⟩⟩
  all_goals
    rw [Set.mem_Ico]
    omega

/-- A block of a covered range lies inside the range. -/
theorem bounds_of_extent (hextent : extent l = Set.Ico start stop) (hb : b ∈ l) :
    start ≤ b.addr ∧ b.stop ≤ stop := by
  obtain ⟨haddr, hstop⟩ := mem_extent_of_mem hb
  rw [hextent, Set.mem_Ico] at haddr hstop
  omega

/-- Blocks that do not touch cover a range only if there is just one. -/
theorem Sparse.eq_single (h : Sparse l) (hextent : extent l = Set.Ico start stop) (hne : l ≠ []) :
    ∃ length, l = [⟨start, length⟩] ∧ stop = start + sizeof_freelist_node + length := by
  obtain ⟨b, hb⟩ := List.exists_mem_of_ne_nil l hne
  have hbounds := bounds_of_extent hextent hb
  have hstop : b.stop = b.addr + sizeof_freelist_node + b.length := rfl
  refine ⟨stop - start - sizeof_freelist_node, ?_, by omega⟩
  apply h.eq_of_extent_eq (List.pairwise_singleton _ _)
  rw [hextent, extent_cons, extent_nil, Set.union_empty, Block.stop]
  congr 1
  simp only
  omega

/-- First fit neither loses nor makes memory. -/
theorem carve_extent (h : carve size m = some (t, m')) :
    Set.Ico t.addr t.stop ∪ extent m' = extent m := by
  obtain ⟨l₁, b, l₂, rfl, -, -, ⟨hbig, rfl, rfl⟩ | ⟨-, rfl, rfl⟩⟩ := carve_cases h
  · obtain ⟨hused, hmid, hstop⟩ := b.split_extents hbig
    have hlt := (b.used size).addr_lt_stop
    have hlt' := (b.left size).addr_lt_stop
    have hwhole : Set.Ico b.addr b.stop = Set.Ico (b.used size).addr (b.used size).stop ∪
        Set.Ico (b.left size).addr (b.left size).stop := by
      rw [← hmid, hstop, Set.Ico_union_Ico_eq_Ico hlt.le (by omega), hused]
    simp only [extent_append, extent_cons, hwhole]
    ext x
    simp only [Set.mem_union]
    tauto
  · simp only [extent_append, extent_cons]
    ext x
    simp only [Set.mem_union]
    tauto

theorem Sparse.carve (h : Sparse m) (hcarve : carve size m = some (t, m')) : Sparse m' := by
  obtain ⟨l₁, b, l₂, rfl, -, -, ⟨hbig, rfl, rfl⟩ | ⟨-, rfl, rfl⟩⟩ := carve_cases hcarve
  · exact (h.split hbig).1
  · exact h.sublist ((List.sublist_cons_self t l₂).append_left l₁)

/-- What is left of new memory does not touch the blocks below it. -/
theorem Sparse.carve_above (h : Sparse l) (hbelow : ∀ d ∈ l, d.stop ≤ b.addr)
    (hcarve : heap.carve size [b] = some (t, m')) : Sparse (l ++ m') := by
  have habove : ∀ d ∈ m', b.addr < d.addr := by
    obtain ⟨l₁, b', l₂, hb, -, -, ⟨-, -, rfl⟩ | ⟨-, -, rfl⟩⟩ := carve_cases hcarve
    all_goals
      obtain ⟨rfl, rfl, rfl⟩ : l₁ = [] ∧ b' = b ∧ l₂ = [] := by
        cases l₁ <;> simp_all
      intro d hd
    · obtain rfl := List.mem_singleton.mp hd
      simp [Block.left, sizeof_freelist_node]
      omega
    · cases hd
  refine List.pairwise_append.mpr ⟨h, ?_, fun d hd d' hd' => ?_⟩
  · have hsingle : Sparse [b] := List.pairwise_singleton _ b
    exact hsingle.carve hcarve
  · have hle := hbelow d hd
    have hlt := habove d' hd'
    omega

/-- `malloc` keeps the heap covered. -/
theorem Arena.Tiled.malloc (h : a.Tiled start) (granted : Bool) (size : Nat) :
    (a.malloc granted size).Tiled start := by
  by_cases hkeep : (∃ b ∈ a.free, size ≤ b.length) ∨ ¬ (granted = true ∧ a.brk + grown size < 2 ^ 64)
  · have hgrow : a.grow granted size = a := if_pos hkeep
    rw [Arena.malloc, hgrow]
    cases hcarve : carve size a.free with
    | none => exact h
    | some r =>
      obtain ⟨t, m'⟩ := r
      refine ⟨h.le, h.sparse.carve hcarve, ?_, fun hnil => absurd hnil (List.cons_ne_nil _ _)⟩
      rw [← h.covers, extent_append, extent_append, ← carve_extent hcarve, List.map_cons, extent_cons]
      ext x
      simp only [Set.mem_union]
      tauto
  · obtain ⟨hshort, hroom⟩ := not_or.mp hkeep
    have hshort : ∀ b ∈ a.free, b.length < size := fun b hb => not_le.mp fun hle => hshort ⟨b, hb, hle⟩
    have hle : size + sizeof_freelist_node ≤ grown size := le_max_left _ _
    have hgrow : a.grow granted size =
        ⟨a.free ++ [⟨a.brk, grown size - sizeof_freelist_node⟩], a.live, a.brk + grown size⟩ := if_neg hkeep
    have hfit : size ≤ (⟨a.brk, grown size - sizeof_freelist_node⟩ : Block).length := by
      simp only
      omega
    obtain ⟨t, m', hcarve⟩ : ∃ t m', carve size [⟨a.brk, grown size - sizeof_freelist_node⟩] = some (t, m') := by
      rw [← List.nil_append [_], carve_append (by simp) hfit]
      exact ⟨_, _, rfl⟩
    have hbelow : ∀ d ∈ a.free, d.stop ≤ a.brk := fun d hd =>
      (bounds_of_extent h.covers (List.mem_append_left _ hd)).2
    have hnew : Set.Ico t.addr t.stop ∪ extent m' = Set.Ico a.brk (a.brk + grown size) := by
      rw [carve_extent hcarve, extent_cons, extent_nil, Set.union_empty, Block.stop]
      congr 1
      simp only
      omega
    rw [Arena.malloc, hgrow, carve_append_short _ hshort, hcarve]
    refine ⟨h.le.trans (Nat.le_add_right _ _), h.sparse.carve_above hbelow hcarve, ?_,
      fun hnil => absurd hnil (List.cons_ne_nil _ _)⟩
    have hgrown : Set.Ico start (a.brk + grown size) =
        extent (a.free ++ a.live.map Prod.fst) ∪ (Set.Ico t.addr t.stop ∪ extent m') := by
      rw [h.covers, hnew, Set.Ico_union_Ico_eq_Ico h.le (Nat.le_add_right _ _)]
    change extent (a.free ++ m' ++ t :: a.live.map Prod.fst) = Set.Ico start (a.brk + grown size)
    rw [hgrown]
    simp only [extent_append, extent_cons]
    ext x
    simp only [Set.mem_union]
    tauto

/-- The memory of a heap that is given back from the highest free block on. -/
theorem extent_below (hextent : extent (l ++ [t] ++ m) = Set.Ico start stop) (hl : ∀ d ∈ l, d.stop ≤ t.addr)
    (hm : ∀ d ∈ m, d.stop ≤ t.addr) : extent (l ++ m) = Set.Ico start t.addr := by
  have hbounds : start ≤ t.addr ∧ t.stop ≤ stop := bounds_of_extent hextent (by simp)
  have hlt := t.addr_lt_stop
  ext x
  have hx : x ∈ extent (l ++ [t] ++ m) ↔ x ∈ Set.Ico start stop := by rw [hextent]
  simp only [extent_append, extent_cons, extent_nil, Set.union_empty, Set.mem_union, Set.mem_Ico] at hx ⊢
  have hlow : x ∈ extent l ∨ x ∈ extent m → x < t.addr := by
    intro hx
    have hmem : x ∈ extent (l ++ m) := by rwa [extent_append]
    obtain ⟨d, hd, hxd⟩ := mem_extent.mp hmem
    have hd' : d.stop ≤ t.addr := by
      obtain hd | hd := List.mem_append.mp hd
      · exact hl d hd
      · exact hm d hd
    exact lt_of_lt_of_le hxd.2 hd'
  constructor
  · intro h
    refine ⟨(hx.mp ?_).1, hlow h⟩
    tauto
  · rintro ⟨hstart, hlt'⟩
    obtain (h | h) | h := hx.mpr ⟨hstart, by omega⟩
    · exact Or.inl h
    · omega
    · exact Or.inr h

/-- `release` keeps the heap covered, if nothing that is in use lies above what is given back. -/
theorem Arena.Tiled.release (h : a.Tiled start) {ptr n : Nat}
    (hfind : a.live.find? (fun lease => decide (lease.1.ptr = ptr)) = some (b, n))
    (hapart : ∀ d ∈ a.free, d.Apart b)
    (hsafe : MIN_HEAP_FREE_SIZE ≤ (top a.free b).length →
      ∀ d ∈ (a.live.eraseP fun lease => decide (lease.1.ptr = ptr)).map Prod.fst, d.stop ≤ (top a.free b).addr) :
    (a.release ptr).Tiled start := by
  obtain ⟨hptr, l₁, l₂, hlive, hother⟩ := List.find?_eq_some_iff_append.mp hfind
  have herase : a.live.eraseP (fun lease => decide (lease.1.ptr = ptr)) = l₁ ++ l₂ := by
    rw [hlive, List.eraseP_append_right _ (fun d hd => by simpa using hother d hd),
      List.eraseP_cons_of_pos (by simpa using hptr)]
  obtain ⟨-, hextent, hkeeps⟩ := release_spec (h.sparse.imp le_of_lt) hapart
  have hsparse := hkeeps h.sparse
  have hcovers : extent (heap.release a.free b ++ (l₁ ++ l₂).map Prod.fst) = Set.Ico start a.brk := by
    rw [← h.covers, hlive]
    simp only [extent_append, hextent, List.map_append, List.map_cons, extent_cons]
    ext x
    simp only [Set.mem_union]
    tauto
  -- when nothing is left in use, the released block is the whole heap
  have hall : l₁ ++ l₂ = [] → ∀ d ∈ freeAfter a.free b, d.length < MIN_HEAP_FREE_SIZE := by
    intro hnil d hd
    rw [hnil, List.map_nil, List.append_nil] at hcovers
    obtain ⟨length, hsingle, -⟩ := hsparse.eq_single hcovers (release_ne_nil _ _)
    have htop : top a.free b = ⟨start, length⟩ := by
      rw [top, hsingle]
      rfl
    rw [freeAfter, htop, hsingle] at hd
    split at hd
    · cases hd
    · obtain rfl := List.mem_singleton.mp hd
      omega
  rw [Arena.release, hfind]
  simp only [herase] at hsafe ⊢
  by_cases hbig : MIN_HEAP_FREE_SIZE ≤ (top a.free b).length
  · have hconcat := release_eq_concat a.free b
    rw [hconcat] at hcovers hsparse
    have hlow : ∀ d ∈ (heap.release a.free b).dropLast, d.stop < (top a.free b).addr := fun d hd =>
      (List.pairwise_append.mp hsparse).2.2 d hd _ (by simp)
    refine ⟨?_, ?_, ?_, hall⟩
    · rw [if_pos hbig]
      exact (bounds_of_extent hcovers (by simp)).1
    · rw [freeAfter, if_pos hbig]
      exact (List.pairwise_append.mp hsparse).1
    · rw [freeAfter, if_pos hbig, if_pos hbig]
      exact extent_below hcovers (fun d hd => (hlow d hd).le) (hsafe hbig)
  · refine ⟨?_, ?_, ?_, hall⟩
    · rw [if_neg hbig]
      exact h.le
    · rw [freeAfter, if_neg hbig]
      exact hsparse
    · rw [freeAfter, if_neg hbig, if_neg hbig]
      exact hcovers

end Tiled

/-- All memory between the start of the heap and the break is accounted for: the blocks of the
    free list and the live blocks cover it without overlap. Free blocks are joined as far as
    possible, and when everything has been freed at most one short block is kept. -/
structure Config.Tiles (start : Nat) (c : Config) : Prop where
  apart : (c.state.freeBlocks ++ c.blocks).Pairwise Block.Apart
  covers : extent (c.state.freeBlocks ++ c.blocks) = Set.Ico start c.state.brk
  joined : ∀ a ∈ c.state.freeBlocks, ∀ b ∈ c.state.freeBlocks, a.stop ≠ b.addr
  returned : c.live = [] → c.state.freeBlocks = [] ∧ c.state.brk = start ∨
    ∃ length < MIN_HEAP_FREE_SIZE, c.state.freeBlocks = [⟨start, length⟩] ∧
      c.state.brk = start + sizeof_freelist_node + length

section Runs

variable {c c' : Config} {start : Nat} {e : Event}

theorem Arena.Tiled.tiles (h : c.arena.Tiled start) (hinv : c.Inv) : c.Tiles start := by
  have hcovers : extent (c.state.freeBlocks ++ c.blocks) = Set.Ico start c.state.brk := by
    rw [← Config.arena_live]
    exact h.covers
  refine ⟨hinv.wellFormed.apart, hcovers, fun a ha b hb htouch => ?_, fun hnone => ?_⟩
  · have hapart : c.state.freeBlocks.Pairwise fun a b => a.stop ≠ b.addr ∧ b.stop ≠ a.addr := by
      refine h.sparse.imp fun {a b} hlt => ?_
      have ha := a.addr_lt_stop
      have hb := b.addr_lt_stop
      omega
    have hself : ∀ a ∈ c.state.freeBlocks, a.stop ≠ a.addr ∧ a.stop ≠ a.addr := fun a _ =>
      ⟨a.addr_lt_stop.ne', a.addr_lt_stop.ne'⟩
    have : Std.Symm fun a b : Block => a.stop ≠ b.addr ∧ b.stop ≠ a.addr := ⟨fun _ _ h => ⟨h.2, h.1⟩⟩
    exact (List.Pairwise.forall_of_forall hself hapart ha hb).1 htouch
  · have hlive : c.arena.live = [] := by simp [Config.arena, hnone]
    have hshort := h.returned hlive
    rw [Config.blocks, hnone, List.map_nil, List.append_nil] at hcovers
    by_cases hnil : c.state.freeBlocks = []
    · refine Or.inl ⟨hnil, ?_⟩
      rw [hnil, extent_nil] at hcovers
      have hle : c.state.brk ≤ start := Set.Ico_eq_empty_iff.mp hcovers.symm |> not_lt.mp
      exact le_antisymm hle h.le
    · obtain ⟨length, hsingle, hbrk⟩ := h.sparse.eq_single hcovers hnil
      refine Or.inr ⟨length, ?_, hsingle, hbrk⟩
      exact hshort ⟨start, length⟩ (hsingle ▸ List.mem_singleton_self _)

/-- The careful calls keep the heap covered. -/
theorem exec_tiled (h : c.Inv ∧ c.arena.Tiled start) (hok : Allowed c e ∧ Careful c e) :
    ∃ c', exec c e = .ok c' ∧ c'.Inv ∧ c'.arena.Tiled start := by
  obtain ⟨hinv, htiled⟩ := h
  obtain ⟨c', hexec, hinv', harena⟩ := exec_arena e hinv hok
  refine ⟨c', hexec, hinv', ?_⟩
  rw [harena]
  cases e with
  | xmalloc size granted => exact htiled.malloc granted size
  | xfree ptr =>
    obtain ⟨hallowed, hcareful⟩ := hok
    obtain ⟨a, l₁, l₂, rfl, hlive, hrest, hfind, herase⟩ := hinv.find_lease hallowed
    have hwf := hinv.wellFormed.perm (Config.blocks_perm hlive)
    refine htiled.release hfind hwf.free_apart fun hbig d hd => ?_
    simp only [Careful, hrest] at hcareful
    have hbelow := (below_brkAfter_iff hwf).mpr hcareful
    rw [herase, List.map_map] at hd
    have hbig : MIN_HEAP_FREE_SIZE ≤ (top c.state.freeBlocks (a.block c.state)).length := hbig
    have hle := hbelow d hd
    rwa [brkAfter, if_pos hbig] at hle
  | store addr prev next length => exact htiled

/-- In every run of allowed and careful calls no byte of the heap is lost: what is not in use is
    free, and when everything has been freed the heap is empty or one short block. -/
theorem careful_runs_tile (s : State) (events : List Event) (hfresh : Fresh s)
    (hallowed : Along exec Allowed ⟨s, []⟩ events) (hcareful : Along exec Careful ⟨s, []⟩ events) :
    Always exec (Config.Tiles s.brk) ⟨s, []⟩ events := by
  have hstep : ∀ c e, c.Inv ∧ c.arena.Tiled s.brk → Allowed c e ∧ Careful c e →
      ∃ c', exec c e = .ok c' ∧ c'.Inv ∧ c'.arena.Tiled s.brk := fun c e => exec_tiled
  refine Always.of_invariant hstep (fun c h => h.2.tiles h.1) ⟨hfresh.inv, ?_⟩ (hallowed.and hcareful)
  rw [hfresh.arena]
  exact ⟨le_refl _, .nil, by simp [extent_nil], by simp⟩

theorem carefulRun_tiles : Always exec (Config.Tiles 4096) ⟨emptyHeap, []⟩ carefulRun :=
  careful_runs_tile emptyHeap carefulRun emptyHeap_fresh (by decide +kernel) (by decide +kernel)

end Runs

end tlpi.heap
