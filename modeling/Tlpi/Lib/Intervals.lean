import Mathlib.Order.Interval.Set.Basic

namespace tlpi

variable {α : Type} [LinearOrder α]

/-- The points covered by a list of half-open intervals. -/
def cover (l : List (α × α)) : Set α := {x | ∃ i ∈ l, x ∈ Set.Ico i.1 i.2}

/-- Non-empty intervals in increasing order with a gap between any two of them. -/
structure Separated (l : List (α × α)) : Prop where
  nonempty : ∀ i ∈ l, i.1 < i.2
  gaps : l.Pairwise fun i j => i.2 < j.1

theorem cover_cons (i : α × α) (l : List (α × α)) : cover (i :: l) = Set.Ico i.1 i.2 ∪ cover l := by
  ext x
  simp [cover]

theorem Separated.tail {i : α × α} {l : List (α × α)} (h : Separated (i :: l)) : Separated l :=
  ⟨fun j hj => h.nonempty j (List.mem_cons_of_mem i hj), (List.pairwise_cons.mp h.gaps).2⟩

/-- Everything covered after the first interval lies strictly above its upper end. -/
theorem Separated.above {i : α × α} {l : List (α × α)} (h : Separated (i :: l)) {x : α}
    (hx : x ∈ cover l) :
    i.2 < x := by
  obtain ⟨j, hj, hlo, _⟩ := hx
  exact lt_of_lt_of_le ((List.pairwise_cons.mp h.gaps).1 j hj) hlo

theorem Separated.first_mem {i : α × α} {l : List (α × α)} (h : Separated (i :: l)) :
    i.1 ∈ cover (i :: l) := by
  rw [cover_cons]
  exact Or.inl ⟨le_refl _, h.nonempty i (by simp)⟩

theorem Separated.first_le {i : α × α} {l : List (α × α)} (h : Separated (i :: l)) {x : α}
    (hx : x ∈ cover (i :: l)) : i.1 ≤ x := by
  rw [cover_cons] at hx
  obtain ⟨hlo, _⟩ | hx := hx
  · exact hlo
  · exact ((h.nonempty i (by simp)).trans (h.above hx)).le

/-- The first interval ends at the first point above its start that is not covered. -/
theorem Separated.end_not_mem {i : α × α} {l : List (α × α)} (h : Separated (i :: l)) :
    i.2 ∉ cover (i :: l) := by
  rw [cover_cons]
  rintro (⟨_, hhi⟩ | hx)
  · exact lt_irrefl _ hhi
  · exact lt_irrefl _ (h.above hx)

theorem Separated.le_end {i j : α × α} {l m : List (α × α)} (h : Separated (j :: m))
    (hcover : cover (i :: l) = cover (j :: m)) (hfirst : i.1 = j.1) : i.2 ≤ j.2 := by
  by_contra hlt
  have hmem : j.2 ∈ cover (i :: l) := by
    rw [cover_cons]
    exact Or.inl ⟨hfirst ▸ (h.nonempty j (by simp)).le, not_le.mp hlt⟩
  exact h.end_not_mem (hcover ▸ hmem)

/-- Separated intervals are the canonical form of the set that they cover. -/
theorem Separated.eq_of_cover_eq {l m : List (α × α)} (h : Separated l) (h' : Separated m)
    (hcover : cover l = cover m) : l = m := by
  induction l generalizing m with
  | nil =>
    cases m with
    | nil => rfl
    | cons j m =>
      have hmem := h'.first_mem
      rw [← hcover] at hmem
      simp [cover] at hmem
  | cons i l ih =>
    cases m with
    | nil =>
      have hmem := h.first_mem
      rw [hcover] at hmem
      simp [cover] at hmem
    | cons j m =>
      have hfirst : i.1 = j.1 :=
        le_antisymm (h.first_le (hcover ▸ h'.first_mem)) (h'.first_le (hcover ▸ h.first_mem))
      have hlast : i.2 = j.2 :=
        le_antisymm (h'.le_end hcover hfirst) (h.le_end hcover.symm hfirst.symm)
      have heq : i = j := Prod.ext hfirst hlast
      subst heq
      have hrest : cover l = cover m := by
        ext x
        have hx := Set.ext_iff.mp hcover x
        rw [cover_cons, cover_cons] at hx
        constructor
        · intro hmem
          exact (hx.mp (Or.inr hmem)).resolve_left fun hin => absurd hin.2 (h.above hmem).le.not_gt
        · intro hmem
          exact (hx.mpr (Or.inr hmem)).resolve_left fun hin => absurd hin.2 (h'.above hmem).le.not_gt
      rw [ih h.tail h'.tail hrest]

end tlpi
