import Mathlib.Data.List.Basic
import Mathlib.Data.List.Pairwise
import Mathlib.Order.Interval.Set.LinearOrder
import Tlpi.Lib.Intervals
import Tlpi.Xmalloc.Model

namespace tlpi.heap

/-- A block of the heap: the address of its header and the length of its user part. -/
structure Block where
  addr : Nat
  length : Nat
deriving DecidableEq, Repr

namespace Block

/-- The end of the extent `[header, header + 24 + length)`. -/
def stop (b : Block) : Nat := b.addr + sizeof_freelist_node + b.length

/-- The extents do not overlap. -/
def Apart (a b : Block) : Prop := a.stop ≤ b.addr ∨ b.stop ≤ a.addr

instance (a b : Block) : Decidable (Apart a b) := inferInstanceAs (Decidable (_ ∨ _))

/-- The pointer that the user has for a block. -/
def ptr (b : Block) : Nat := user_addr b.addr

/-- Two blocks that touch, as one. -/
def join (a b : Block) : Block := { a with length := a.length + (b.length + sizeof_freelist_node) }

def interval (b : Block) : Nat × Nat := (b.addr, b.stop)

theorem addr_lt_stop (b : Block) : b.addr < b.stop := by
  simp only [stop, sizeof_freelist_node]
  omega

theorem join_stop {a b : Block} (h : a.stop = b.addr) : (a.join b).stop = b.stop := by
  simp only [stop, join, sizeof_freelist_node] at *
  omega

theorem Apart.symm {a b : Block} (h : Apart a b) : Apart b a := Or.symm h

instance : Std.Symm Apart := ⟨fun _ _ => Apart.symm⟩

theorem apart_iff_disjoint (a b : Block) :
    Apart a b ↔ ∀ x, ¬ (x ∈ Set.Ico a.addr a.stop ∧ x ∈ Set.Ico b.addr b.stop) := by
  have ha := a.addr_lt_stop
  have hb := b.addr_lt_stop
  constructor
  · rintro (h | h) x ⟨⟨_, _⟩, _, _⟩ <;> omega
  · intro h
    by_contra hnot
    obtain ⟨hab, hba⟩ := not_or.mp hnot
    exact h (max a.addr b.addr) ⟨⟨by omega, by omega⟩, by omega, by omega⟩

theorem interval_injective : Function.Injective interval := by
  intro a b h
  obtain ⟨haddr, hstop⟩ := Prod.mk.inj h
  cases a
  cases b
  simp only [stop] at haddr hstop
  simp only [mk.injEq]
  omega

end Block

/-- Blocks in increasing order that do not overlap. -/
def Ordered (l : List Block) : Prop := l.Pairwise fun a b => a.stop ≤ b.addr

/-- Blocks in increasing order of which no two touch. -/
def Sparse (l : List Block) : Prop := l.Pairwise fun a b => a.stop < b.addr

/-- The memory taken by a list of blocks, headers included. -/
def extent (l : List Block) : Set Nat := cover (l.map Block.interval)

theorem mem_extent {l : List Block} {x : Nat} : x ∈ extent l ↔ ∃ b ∈ l, x ∈ Set.Ico b.addr b.stop := by
  simp [extent, cover, Block.interval]

theorem extent_nil : extent [] = ∅ := by simp [extent, cover]

theorem extent_cons (b : Block) (l : List Block) : extent (b :: l) = Set.Ico b.addr b.stop ∪ extent l := by
  simp [extent, cover_cons, Block.interval]

theorem extent_append (l m : List Block) : extent (l ++ m) = extent l ∪ extent m := by
  ext x
  simp only [Set.mem_union, mem_extent, List.mem_append]
  grind

/-- Blocks of which no two touch are determined by the memory they take. -/
theorem Sparse.eq_of_extent_eq {l m : List Block} (h : Sparse l) (h' : Sparse m)
    (hextent : extent l = extent m) :
    l = m := by
  have hsep {k : List Block} (hk : Sparse k) : Separated (k.map Block.interval) := by
    refine ⟨fun i hi => ?_, List.pairwise_map.mpr hk⟩
    obtain ⟨b, _, rfl⟩ := List.mem_map.mp hi
    exact b.addr_lt_stop
  exact Block.interval_injective.list_map ((hsep h).eq_of_cover_eq (hsep h') hextent)

/-- A block in front of the blocks above it, joined with the first of them if they touch. -/
def joinRight (b : Block) : List Block → List Block
  | [] => [b]
  | c :: rest => if b.stop = c.addr then b.join c :: rest else b :: c :: rest

/-- The blocks below a block that it does not touch, and the block itself, joined with
    the one below if they touch. -/
def joinLeft (below : List Block) (b : Block) : List Block × Block :=
  match below.getLast? with
  | some a => if a.stop = b.addr then (below.dropLast, a.join b) else (below, b)
  | none => (below, b)

/-- What freeing a block is for: it goes back to its place in the list and is joined
    with the neighbours that it touches. -/
def release (free : List Block) (b : Block) : List Block :=
  let below := free.takeWhile fun a => a.addr < b.addr
  let above := free.dropWhile fun a => a.addr < b.addr
  (joinLeft below b).1 ++ joinRight (joinLeft below b).2 above

/-- The highest free block once a block has been released. -/
def top (free : List Block) (b : Block) : Block := (release free b).getLastD b

section Release

variable {free l₁ l₂ : List Block} {a b : Block}

theorem joinLeft_nil (b : Block) : joinLeft [] b = ([], b) := rfl

theorem joinLeft_concat (l : List Block) (a b : Block) :
    joinLeft (l ++ [a]) b = if a.stop = b.addr then (l, a.join b) else (l ++ [a], b) := by
  simp [joinLeft]

theorem extent_join (h : a.stop = b.addr) :
    Set.Ico (a.join b).addr (a.join b).stop = Set.Ico a.addr a.stop ∪ Set.Ico b.addr b.stop := by
  rw [Block.join_stop h, h, Set.Ico_union_Ico_eq_Ico (h ▸ a.addr_lt_stop.le) b.addr_lt_stop.le]
  rfl

/-- Joining downwards keeps the order and the memory, and leaves no touching pair. -/
theorem joinLeft_spec (h : Ordered (l₁ ++ b :: l₂)) :
    Ordered ((joinLeft l₁ b).1 ++ (joinLeft l₁ b).2 :: l₂) ∧
      extent ((joinLeft l₁ b).1 ++ [(joinLeft l₁ b).2]) = extent (l₁ ++ [b]) ∧
      (Sparse l₁ → Sparse ((joinLeft l₁ b).1 ++ [(joinLeft l₁ b).2])) := by
  obtain rfl | ⟨k, a, rfl⟩ := List.eq_nil_or_concat' l₁
  · exact ⟨h, rfl, fun _ => by simp [joinLeft_nil, Sparse]⟩
  · rw [joinLeft_concat]
    have hab : a.stop ≤ b.addr := by
      simp only [Ordered, List.pairwise_append] at h
      exact h.2.2 a (by simp) b (by simp)
    split
    · rename_i htouch
      refine ⟨?_, ?_, ?_⟩
      · simp only [Ordered, List.append_assoc, List.pairwise_append, List.pairwise_cons, List.mem_cons,
          List.cons_append, List.nil_append] at h ⊢
        refine ⟨h.1, ⟨fun c hc => ?_, h.2.1.2.2⟩, fun x hx c hc => ?_⟩
        · rw [Block.join_stop htouch]
          exact h.2.1.2.1 c hc
        · obtain rfl | hc := hc
          · exact h.2.2 x hx a (by simp)
          · exact h.2.2 x hx c (by simp [hc])
      · simp only [extent_append, extent_cons, extent_join htouch]
        simp [Set.union_assoc, extent_nil]
      · intro hsparse
        simp only [Sparse, List.pairwise_append, List.pairwise_cons] at hsparse ⊢
        refine ⟨hsparse.1, by simp, fun x hx c hc => ?_⟩
        obtain rfl : c = a.join b := by simpa using hc
        exact hsparse.2.2 x hx a (by simp)
    · rename_i hgap
      refine ⟨h, rfl, fun hsparse => ?_⟩
      simp only [Sparse, List.pairwise_append, List.pairwise_cons] at hsparse ⊢
      refine ⟨hsparse, by simp, fun x hx c hc => ?_⟩
      obtain rfl : c = b := by simpa using hc
      obtain hx | hx := List.mem_append.mp hx
      · have hxa := hsparse.2.2 x hx a (by simp)
        have := a.addr_lt_stop
        omega
      · obtain rfl : x = a := by simpa using hx
        omega

/-- Joining upwards keeps the order and the memory, and leaves no touching pair. -/
theorem joinRight_spec (h : Ordered (l₁ ++ b :: l₂)) :
    Ordered (l₁ ++ joinRight b l₂) ∧ extent (l₁ ++ joinRight b l₂) = extent (l₁ ++ b :: l₂) ∧
      (Sparse (l₁ ++ [b]) → Sparse l₂ → Sparse (l₁ ++ joinRight b l₂)) := by
  cases l₂ with
  | nil => exact ⟨h, rfl, fun hsparse _ => hsparse⟩
  | cons c l₂ =>
    have hbc : b.stop ≤ c.addr := by
      simp only [Ordered, List.pairwise_append, List.pairwise_cons] at h
      exact h.2.1.1 c (by simp)
    rw [joinRight]
    split
    · rename_i htouch
      refine ⟨?_, ?_, ?_⟩
      · simp only [Ordered, List.pairwise_append, List.pairwise_cons, List.mem_cons] at h ⊢
        refine ⟨h.1, ⟨fun d hd => ?_, h.2.1.2.2⟩, fun x hx d hd => ?_⟩
        · rw [Block.join_stop htouch]
          exact h.2.1.2.1 d hd
        · obtain rfl | hd := hd
          · exact h.2.2 x hx b (by simp)
          · exact h.2.2 x hx d (by simp [hd])
      · simp only [extent_append, extent_cons, extent_join htouch]
        simp [Set.union_assoc]
      · intro hleft hright
        simp only [Sparse, List.pairwise_append, List.pairwise_cons, List.mem_cons] at hleft hright ⊢
        refine ⟨hleft.1, ⟨fun d hd => ?_, hright.2⟩, fun x hx d hd => ?_⟩
        · rw [Block.join_stop htouch]
          exact hright.1 d hd
        · have hxb := hleft.2.2 x hx b (by simp)
          obtain rfl | hd := hd
          · exact hxb
          · have hcd := hright.1 d hd
            have := c.addr_lt_stop
            have := b.addr_lt_stop
            omega
    · rename_i hgap
      refine ⟨h, rfl, fun hleft hright => ?_⟩
      simp only [Sparse, List.pairwise_append, List.pairwise_cons, List.mem_cons] at hleft hright ⊢
      have hb := b.addr_lt_stop
      have hc := c.addr_lt_stop
      refine ⟨hleft.1, ⟨fun d hd => ?_, hright⟩, fun x hx d hd => ?_⟩
      · obtain rfl | hd := hd
        · omega
        · have := hright.1 d hd
          omega
      · have hxb := hleft.2.2 x hx b (by simp)
        obtain rfl | rfl | hd := hd
        · exact hxb
        · omega
        · have := hright.1 d hd
          omega

/-- A block that overlaps none of an ordered list has a place in it. -/
theorem Ordered.exists_place (h : Ordered free) (hb : ∀ a ∈ free, a.Apart b) :
    ∃ l₁ l₂, free = l₁ ++ l₂ ∧ Ordered (l₁ ++ b :: l₂) := by
  induction free with
  | nil => exact ⟨[], [], rfl, by simp [Ordered]⟩
  | cons a free ih =>
    obtain ⟨hfirst, hrest⟩ := List.pairwise_cons.mp h
    have ha := a.addr_lt_stop
    obtain hbelow | habove := hb a (by simp)
    · obtain ⟨l₁, l₂, rfl, hordered⟩ := ih hrest (fun c hc => hb c (by simp [hc]))
      refine ⟨a :: l₁, l₂, rfl, List.pairwise_cons.mpr ⟨fun c hc => ?_, hordered⟩⟩
      obtain hc | hc := List.mem_append.mp hc
      · exact hfirst c (by simp [hc])
      · obtain rfl | hc := List.mem_cons.mp hc
        · exact hbelow
        · exact hfirst c (by simp [hc])
    · refine ⟨[], a :: free, rfl, List.pairwise_cons.mpr ⟨fun c hc => ?_, h⟩⟩
      obtain rfl | hc := List.mem_cons.mp hc
      · exact habove
      · have := hfirst c hc
        omega

theorem release_append (h : Ordered (l₁ ++ b :: l₂)) :
    release (l₁ ++ l₂) b = (joinLeft l₁ b).1 ++ joinRight (joinLeft l₁ b).2 l₂ := by
  simp only [Ordered, List.pairwise_append, List.pairwise_cons] at h
  obtain ⟨_, ⟨habove, _⟩, hbelow⟩ := h
  have hlow (a : Block) (ha : a ∈ l₁) : decide (a.addr < b.addr) = true := by
    have hab := hbelow a ha b (by simp)
    have := a.addr_lt_stop
    simp only [decide_eq_true_eq]
    omega
  have hhead : l₂.takeWhile (fun a => decide (a.addr < b.addr)) = [] ∧
      l₂.dropWhile (fun a => decide (a.addr < b.addr)) = l₂ := by
    cases l₂ with
    | nil => exact ⟨rfl, rfl⟩
    | cons c l₂ =>
      have hbc := habove c (by simp)
      have := b.addr_lt_stop
      have hnot : ¬ c.addr < b.addr := by omega
      simp [hnot]
  rw [release, List.takeWhile_append_of_pos hlow, List.dropWhile_append_of_pos hlow, hhead.1, hhead.2,
    List.append_nil]

/-- Releasing a block keeps the list in order, adds exactly the block's extent, and
    leaves no touching pair if there was none. -/
theorem release_spec (h : Ordered free) (hb : ∀ a ∈ free, a.Apart b) :
    Ordered (release free b) ∧ extent (release free b) = extent free ∪ Set.Ico b.addr b.stop ∧
      (Sparse free → Sparse (release free b)) := by
  obtain ⟨l₁, l₂, rfl, hplace⟩ := h.exists_place hb
  rw [release_append hplace]
  obtain ⟨hleft, hleftExtent, hleftSparse⟩ := joinLeft_spec hplace
  obtain ⟨hright, hrightExtent, hrightSparse⟩ := joinRight_spec hleft
  refine ⟨hright, ?_, fun hsparse => ?_⟩
  · rw [hrightExtent, List.append_cons, extent_append, hleftExtent]
    simp only [extent_append, extent_cons, extent_nil, Set.union_empty]
    exact Set.union_right_comm _ _ _
  · obtain ⟨hlow, hhigh, _⟩ := List.pairwise_append.mp hsparse
    exact hrightSparse (hleftSparse hlow) hhigh

theorem joinLeft_stop (h : Ordered (l₁ ++ b :: l₂)) : (joinLeft l₁ b).2.stop = b.stop := by
  obtain rfl | ⟨k, a, rfl⟩ := List.eq_nil_or_concat' l₁
  · rfl
  · rw [joinLeft_concat]
    split
    · rename_i htouch
      exact Block.join_stop htouch
    · rfl

/-- Joining downwards introduces no new header. -/
theorem joinLeft_addr_mem {c : Block} (hc : c ∈ (joinLeft l₁ b).1 ++ (joinLeft l₁ b).2 :: l₂) :
    c.addr ∈ (l₁ ++ b :: l₂).map Block.addr := by
  obtain rfl | ⟨k, a, rfl⟩ := List.eq_nil_or_concat' l₁
  · exact List.mem_map_of_mem hc
  · rw [joinLeft_concat] at hc
    split at hc
    · simp only [List.mem_append, List.mem_cons] at hc
      simp only [List.map_append, List.map_cons, List.map_nil, List.mem_append, List.mem_cons]
      obtain hc | rfl | hc := hc
      · exact Or.inl (Or.inl (List.mem_map_of_mem hc))
      · exact Or.inl (Or.inr (Or.inl rfl))
      · exact Or.inr (Or.inr (List.mem_map_of_mem hc))
    · exact List.mem_map_of_mem hc

/-- The released list ends no higher than the highest block it was made of. -/
theorem release_stop_le (bound : Nat) (h : Ordered free) (hb : ∀ a ∈ free, a.Apart b)
    (hfree : ∀ a ∈ free, a.stop ≤ bound) (hbound : b.stop ≤ bound) :
    ∀ c ∈ release free b, c.stop ≤ bound := by
  intro c hc
  have hlast : c.stop - 1 ∈ extent (release free b) := by
    have := c.addr_lt_stop
    exact mem_extent.mpr ⟨c, hc, by omega, by omega⟩
  rw [(release_spec h hb).2.1] at hlast
  obtain hmem | ⟨_, hmem⟩ := hlast
  · obtain ⟨a, ha, _, hstop⟩ := mem_extent.mp hmem
    have := hfree a ha
    omega
  · omega

/-- Nor does it begin lower. -/
theorem le_release_addr (bound : Nat) (h : Ordered free) (hb : ∀ a ∈ free, a.Apart b)
    (hfree : ∀ a ∈ free, bound ≤ a.addr) (hbound : bound ≤ b.addr) :
    ∀ c ∈ release free b, bound ≤ c.addr := by
  intro c hc
  have hfirst : c.addr ∈ extent (release free b) :=
    mem_extent.mpr ⟨c, hc, le_refl _, c.addr_lt_stop⟩
  rw [(release_spec h hb).2.1] at hfirst
  obtain hmem | ⟨hmem, _⟩ := hfirst
  · obtain ⟨a, ha, hstart, _⟩ := mem_extent.mp hmem
    exact (hfree a ha).trans hstart
  · exact hbound.trans hmem

/-- A block that overlaps neither the list nor the released block does not overlap the
    result. -/
theorem release_apart {d : Block} (h : Ordered free) (hb : ∀ a ∈ free, a.Apart b)
    (hfree : ∀ a ∈ free, a.Apart d) (hbd : b.Apart d) : ∀ c ∈ release free b, c.Apart d := by
  intro c hc
  rw [Block.apart_iff_disjoint]
  rintro x ⟨hxc, hxd⟩
  have hx : x ∈ extent (release free b) := mem_extent.mpr ⟨c, hc, hxc⟩
  rw [(release_spec h hb).2.1] at hx
  obtain hx | hx := hx
  · obtain ⟨a, ha, hxa⟩ := mem_extent.mp hx
    exact (Block.apart_iff_disjoint a d).mp (hfree a ha) x ⟨hxa, hxd⟩
  · exact (Block.apart_iff_disjoint b d).mp hbd x ⟨hx, hxd⟩

theorem release_ne_nil (free : List Block) (b : Block) : release free b ≠ [] := by
  have hright (c : Block) (l : List Block) : joinRight c l ≠ [] := by
    cases l with
    | nil => simp [joinRight]
    | cons d l =>
      rw [joinRight]
      split <;> simp
  simp only [release, ne_eq, List.append_eq_nil_iff, not_and]
  exact fun _ => hright _ _

theorem release_eq_concat (free : List Block) (b : Block) :
    release free b = (release free b).dropLast ++ [top free b] := by
  obtain ⟨l, c, hl⟩ := (List.eq_nil_or_concat' (release free b)).resolve_left (release_ne_nil free b)
  simp [top, hl]

theorem top_mem (free : List Block) (b : Block) : top free b ∈ release free b := by
  rw [release_eq_concat]
  simp

end Release

end tlpi.heap
