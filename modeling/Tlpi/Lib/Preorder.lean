import Mathlib.Data.List.Flatten
import Mathlib.Data.List.Nodup
import Mathlib.Data.List.Perm.Subperm

namespace tlpi

section Preorder

variable {V : Type} (children : V → List V)

/-- The second node is below the first one, this many levels down. -/
inductive Descends (v : V) : V → Nat → Prop
  | refl : Descends v v 0
  | down {w u : V} {k : Nat} (h : Descends v w k) (hmem : u ∈ children w) : Descends v u (k + 1)

/-- The nodes above a depth, each in front of the nodes below it and the children in their
    order, with their levels. -/
def preorder : Nat → Nat → V → List (V × Nat)
  | 0, _, _ => []
  | depth + 1, level, v => (v, level) :: (children v).flatMap (preorder depth (level + 1))

/-- No node has two parents or stands twice among the children of one, and the root has no
    parent. Apart from the root there may be cycles. -/
structure Rooted (root : V) : Prop where
  single : ∀ v v' w, w ∈ children v → w ∈ children v' → v = v'
  top : ∀ v, root ∉ children v
  nodup : ∀ v, (children v).Nodup

variable {children} {root v w u : V} {k depth level : Nat}

theorem Descends.up (hmem : w ∈ children v) (h : Descends children w u k) : Descends children v u (k + 1) := by
  induction h with
  | refl => exact .down .refl hmem
  | down _ hchild ih => exact .down ih hchild

theorem Descends.trans {m : Nat} (h : Descends children v w k) (h' : Descends children w u m) :
    Descends children v u (k + m) := by
  induction h' with
  | refl => exact h
  | down _ hchild ih => exact .down ih hchild

/-- The first step of a way down. -/
theorem descends_succ_iff :
    Descends children v u (k + 1) ↔ ∃ w ∈ children v, Descends children w u k := by
  constructor
  · intro h
    induction k generalizing u with
    | zero =>
      cases h with
      | down h hmem =>
        cases h
        exact ⟨u, hmem, .refl⟩
    | succ k ih =>
      cases h with
      | down h hmem =>
        obtain ⟨w, hw, hdown⟩ := ih h
        exact ⟨w, hw, .down hdown hmem⟩
  · rintro ⟨w, hw, h⟩
    exact h.up hw

/-- Going up the same number of times from one node leads to one node. -/
theorem Rooted.same_start (hroot : Rooted children root) {w' : V} (h : Descends children w u k)
    (h' : Descends children w' u k) : w = w' := by
  induction k generalizing u with
  | zero =>
    cases h
    cases h'
    rfl
  | succ k ih =>
    cases h with
    | down h hmem =>
      cases h' with
      | down h' hmem' =>
        obtain rfl := hroot.single _ _ _ hmem hmem'
        exact ih h h'

theorem Rooted.level_unique (hroot : Rooted children root) {m : Nat} (h : Descends children root u k)
    (h' : Descends children root u m) : k = m := by
  induction h generalizing m with
  | refl =>
    cases h' with
    | refl => rfl
    | down _ hmem => exact absurd hmem (hroot.top _)
  | down _ hmem ih =>
    cases h' with
    | refl => exact absurd hmem (hroot.top _)
    | down h' hmem' =>
      obtain rfl := hroot.single _ _ _ hmem hmem'
      rw [ih h']

/-- A node is not further down than there are nodes. -/
theorem Rooted.level_lt (hroot : Rooted children root) {nodes : List V}
    (hnodes : ∀ w m, Descends children root w m → w ∈ nodes) (h : Descends children root v k) :
    k < nodes.length := by
  -- the nodes on the way down are different, because their levels are
  have hpath : ∃ path : List V, path.length = k + 1 ∧ path.Nodup ∧
      ∀ x ∈ path, ∃ m ≤ k, Descends children root x m := by
    induction h with
    | refl =>
      refine ⟨[root], rfl, List.nodup_singleton root, fun x hx => ?_⟩
      rw [List.mem_singleton] at hx
      exact ⟨0, Nat.le_refl 0, hx ▸ .refl⟩
    | @down w u k h hmem ih =>
      obtain ⟨path, hlength, hnodup, hlevel⟩ := ih
      refine ⟨u :: path, by rw [List.length_cons, hlength], List.nodup_cons.mpr ⟨fun hu => ?_, hnodup⟩, ?_⟩
      · obtain ⟨m, hm, hlow⟩ := hlevel u hu
        have heq := hroot.level_unique hlow (.down h hmem)
        omega
      · intro x hx
        obtain rfl | hx := List.mem_cons.mp hx
        · exact ⟨k + 1, Nat.le_refl _, .down h hmem⟩
        · obtain ⟨m, hm, hdown⟩ := hlevel x hx
          exact ⟨m, by omega, hdown⟩
  obtain ⟨path, hlength, hnodup, hlevel⟩ := hpath
  have hsubset : path ⊆ nodes := by
    intro x hx
    obtain ⟨m, _, hdown⟩ := hlevel x hx
    exact hnodes x m hdown
  have hle := (hnodup.subperm hsubset).length_le
  omega

/-- The order lists each node above the depth, with its level. -/
theorem mem_preorder_iff {m : Nat} :
    (u, m) ∈ preorder children depth level v ↔ ∃ k < depth, m = level + k ∧ Descends children v u k := by
  induction depth generalizing level v with
  | zero => simp [preorder]
  | succ depth ih =>
    simp only [preorder, List.mem_cons, Prod.mk.injEq, List.mem_flatMap, ih]
    constructor
    · rintro (⟨rfl, rfl⟩ | ⟨w, hw, k, hk, rfl, h⟩)
      · exact ⟨0, by omega, rfl, .refl⟩
      · exact ⟨k + 1, by omega, by omega, h.up hw⟩
    · rintro ⟨k, hk, rfl, h⟩
      cases k with
      | zero =>
        cases h
        exact Or.inl ⟨rfl, rfl⟩
      | succ k =>
        obtain ⟨w, hw, h⟩ := descends_succ_iff.mp h
        exact Or.inr ⟨w, hw, k, by omega, by omega, h⟩

/-- The order below a node is a part of the order. -/
theorem preorder_sublist (h : Descends children v w k) (hk : k ≤ depth) :
    (preorder children (depth - k) (level + k) w).Sublist (preorder children depth level v) := by
  induction h with
  | refl => exact List.Sublist.refl _
  | @down w u k _ hmem ih =>
    have hdepth : depth - k = (depth - (k + 1)) + 1 := by omega
    have hstep : (preorder children (depth - (k + 1)) (level + k + 1) u).Sublist
        (preorder children (depth - k) (level + k) w) := by
      rw [hdepth, preorder]
      apply List.Sublist.cons
      rw [List.flatMap_def]
      exact List.sublist_flatten_of_mem (List.mem_map_of_mem hmem)
    exact hstep.trans (ih (by omega))

/-- Each node is listed once. -/
theorem Rooted.nodup_preorder (hroot : Rooted children root) (h : Descends children root v level) :
    ((preorder children depth level v).map Prod.fst).Nodup := by
  induction depth generalizing level v with
  | zero => exact List.nodup_nil
  | succ depth ih =>
    have hbelow {w x : V} (hw : w ∈ children v)
        (hx : x ∈ (preorder children depth (level + 1) w).map Prod.fst) : ∃ k, Descends children w x k := by
      obtain ⟨⟨x, m⟩, hmem, rfl⟩ := List.mem_map.mp hx
      obtain ⟨k, _, _, hdown⟩ := mem_preorder_iff.mp hmem
      exact ⟨k, hdown⟩
    simp only [preorder, List.map_cons, List.map_flatMap, List.nodup_cons, List.mem_flatMap]
    refine ⟨?_, List.nodup_flatMap.mpr ⟨fun w hw => ih (.down h hw), ?_⟩⟩
    · rintro ⟨w, hw, hv⟩
      obtain ⟨k, hdown⟩ := hbelow hw hv
      have heq := hroot.level_unique h (h.trans (hdown.up hw))
      omega
    · apply (hroot.nodup v).pairwise_of_forall_ne
      intro w hw w' hw' hne x hx hx'
      obtain ⟨k, hdown⟩ := hbelow hw hx
      obtain ⟨k', hdown'⟩ := hbelow hw' hx'
      obtain rfl : k = k' := by
        have heq := hroot.level_unique (h.trans (hdown.up hw)) (h.trans (hdown'.up hw'))
        omega
      exact hne (hroot.same_start hdown hdown')

/-- Of two children, all that is below the first comes before the second. -/
theorem preorder_siblings {w' : V} {m : Nat} (hsiblings : [w, w'].Sublist (children v))
    (hmem : (u, m) ∈ preorder children depth (level + 1) w) :
    [(u, m), (w', level + 1)].Sublist (preorder children (depth + 1) level v) := by
  have hpair := hsiblings.flatMap (preorder children depth (level + 1))
  rw [preorder]
  apply List.Sublist.cons
  refine List.Sublist.trans ?_ hpair
  have hsecond : (w', level + 1) ∈ preorder children depth (level + 1) w' := by
    cases depth with
    | zero => simp [preorder] at hmem
    | succ depth => exact List.mem_cons_self
  simp only [List.flatMap_cons, List.flatMap_nil, List.append_nil]
  exact (List.singleton_sublist.mpr hmem).append (List.singleton_sublist.mpr hsecond)

/-- A node comes before all that is below it. -/
theorem preorder_parent {m : Nat} (hchild : w ∈ children v)
    (hmem : (u, m) ∈ preorder children depth (level + 1) w) :
    [(v, level), (u, m)].Sublist (preorder children (depth + 1) level v) := by
  rw [preorder]
  apply List.Sublist.cons_cons
  rw [List.singleton_sublist, List.mem_flatMap]
  exact ⟨w, hchild, hmem⟩

end Preorder

end tlpi
