import Mathlib.Data.List.Chain
import Mathlib.Data.List.Nodup

namespace tlpi

section Segments

variable {α : Type} (R : α → α → Prop)

/-- A chain through the end of one list and the beginning of another. -/
theorem isChain_cons_append (z : α) (l₁ : List α) {t : List α} (d : α) (ht : t ≠ []) :
    List.IsChain R (z :: (l₁ ++ t)) ↔
      List.IsChain R (z :: l₁) ∧ R (l₁.getLastD z) (t.headD d) ∧ List.IsChain R t := by
  obtain ⟨y, t, rfl⟩ := List.exists_cons_of_ne_nil ht
  rw [← List.cons_append, List.isChain_append]
  have hlast : (z :: l₁).getLast? = some (l₁.getLastD z) := by
    rw [List.getLast?_cons, List.getLastD_eq_getLast?]
  simp only [hlast, List.head?_cons, Option.mem_some_iff, forall_eq', List.headD_cons]
  tauto

variable {R}

theorem headD_append_singleton (l : List α) (z : α) : (l ++ [z]).headD z = l.headD z := by
  cases l <;> rfl

theorem getLast_cons_eq_getLastD (z : α) (l : List α) :
    (z :: l).getLast (List.cons_ne_nil z l) = l.getLastD z := by
  have h := List.getLast?_eq_some_getLast (List.cons_ne_nil z l)
  rw [List.getLast?_cons, Option.some.injEq] at h
  rw [← h, List.getLastD_eq_getLast?]

theorem getLastD_mem (z : α) (l : List α) : l.getLastD z ∈ z :: l := by
  rw [← getLast_cons_eq_getLastD]
  exact List.getLast_mem _

theorem headD_mem {l : List α} (z : α) (hl : l ≠ []) : l.headD z ∈ l := by
  cases l with
  | nil => exact absurd rfl hl
  | cons x l => simp

theorem dropLast_getLastD_not_mem {z : α} {l : List α} (h : (z :: l).Nodup) :
    l.getLastD z ∉ (z :: l).dropLast := by
  rw [← List.dropLast_append_getLast (List.cons_ne_nil z l), getLast_cons_eq_getLastD] at h
  intro hmem
  exact (List.nodup_append.mp h).2.2 _ hmem _ (by simp) rfl

end Segments

/-- A doubly linked list through a sentinel: following `succ` from the sentinel visits
    the elements of `l` in order and comes back to it, and `pred` goes the other way.
    Nothing is said about `pred` of the sentinel. -/
structure Ring {α : Type} (succ pred : α → α) (z : α) (l : List α) : Prop where
  nodup : (z :: l).Nodup
  forward : List.IsChain (fun x y => succ x = y) (z :: (l ++ [z]))
  backward : List.IsChain (fun x y => pred y = x) (z :: l)

namespace Ring

variable {α : Type} {succ pred succ' pred' : α → α} {z b : α} {l l₁ l₂ : List α}

theorem forward_iff (l₁ l₂ : List α) :
    List.IsChain (fun x y => succ x = y) (z :: ((l₁ ++ l₂) ++ [z])) ↔
      List.IsChain (fun x y => succ x = y) (z :: l₁) ∧ succ (l₁.getLastD z) = l₂.headD z ∧
        List.IsChain (fun x y => succ x = y) (l₂ ++ [z]) := by
  rw [List.append_assoc, isChain_cons_append _ z l₁ z (by simp), headD_append_singleton]

theorem backward_iff (l₁ l₂ : List α) :
    List.IsChain (fun x y => pred y = x) (z :: (l₁ ++ l₂)) ↔
      List.IsChain (fun x y => pred y = x) (z :: l₁) ∧
        (l₂ ≠ [] → pred (l₂.headD z) = l₁.getLastD z) ∧ List.IsChain (fun x y => pred y = x) l₂ := by
  by_cases hl : l₂ = []
  · simp [hl]
  · rw [isChain_cons_append _ z l₁ z hl]
    simp [hl]

theorem forward_congr {t : List α} (h : List.IsChain (fun x y => succ x = y) t)
    (hsame : ∀ x ∈ t.dropLast, succ' x = succ x) : List.IsChain (fun x y => succ' x = y) t := by
  induction t with
  | nil => exact .nil
  | cons a t ih =>
    cases t with
    | nil => exact .singleton a
    | cons b t =>
      rw [List.isChain_cons_cons] at h ⊢
      exact ⟨(hsame a (by simp)).trans h.1, ih h.2 (fun x hx => hsame x (by simp [hx]))⟩

theorem backward_congr {t : List α} (h : List.IsChain (fun x y => pred y = x) t)
    (hsame : ∀ y ∈ t.tail, pred' y = pred y) : List.IsChain (fun x y => pred' y = x) t :=
  h.imp_of_mem_tail_imp fun _ y _ hy hpred => (hsame y hy).trans hpred

theorem succ_last (h : Ring succ pred z (l₁ ++ l₂)) : succ (l₁.getLastD z) = l₂.headD z :=
  ((forward_iff l₁ l₂).mp h.forward).2.1

theorem pred_head (h : Ring succ pred z (l₁ ++ l₂)) (hl : l₂ ≠ []) :
    pred (l₂.headD z) = l₁.getLastD z :=
  ((backward_iff l₁ l₂).mp h.backward).2.1 hl

theorem succ_mid (h : Ring succ pred z (l₁ ++ b :: l₂)) : succ b = l₂.headD z := by
  rw [List.append_cons] at h
  simpa using h.succ_last

theorem pred_mid (h : Ring succ pred z (l₁ ++ b :: l₂)) : pred b = l₁.getLastD z := by
  have hpred := h.pred_head (List.cons_ne_nil b l₂)
  simpa using hpred

theorem not_mem (h : Ring succ pred z l) : z ∉ l := (List.nodup_cons.mp h.nodup).1

/-- The two sides of a cut are kept when only the link over the cut is redirected. -/
theorem sides (hnodup : (z :: (l₁ ++ l₂)).Nodup)
    (hleft : List.IsChain (fun x y => succ x = y) (z :: l₁))
    (hright : List.IsChain (fun x y => succ x = y) (l₂ ++ [z]))
    (hleft' : List.IsChain (fun x y => pred y = x) (z :: l₁))
    (hright' : List.IsChain (fun x y => pred y = x) l₂)
    (hsame : ∀ x ∈ z :: (l₁ ++ l₂), x ≠ l₁.getLastD z → succ' x = succ x)
    (hsame' : ∀ y ∈ l₁ ++ l₂, y ≠ l₂.headD z → pred' y = pred y) :
    (List.IsChain (fun x y => succ' x = y) (z :: l₁) ∧
        List.IsChain (fun x y => succ' x = y) (l₂ ++ [z])) ∧
      List.IsChain (fun x y => pred' y = x) (z :: l₁) ∧ List.IsChain (fun x y => pred' y = x) l₂ := by
  rw [← List.cons_append, List.nodup_append] at hnodup
  obtain ⟨hnodup₁, hnodup₂, hdisjoint⟩ := hnodup
  refine ⟨⟨?_, ?_⟩, ?_, ?_⟩
  · apply forward_congr hleft
    intro x hx
    have hmem := List.dropLast_subset _ hx
    apply hsame x (by rw [← List.cons_append]; exact List.mem_append_left _ hmem)
    rintro rfl
    exact dropLast_getLastD_not_mem hnodup₁ hx
  · apply forward_congr hright
    intro x hx
    rw [List.dropLast_concat] at hx
    apply hsame x (by simp [hx])
    exact (hdisjoint _ (getLastD_mem z l₁) x hx).symm
  · apply backward_congr hleft'
    intro y hy
    have hy : y ∈ l₁ := hy
    by_cases hl : l₂ = []
    · subst hl
      exact hsame' y (by simpa using hy) (by rintro rfl; exact (List.nodup_cons.mp hnodup₁).1 hy)
    · exact hsame' y (by simp [hy]) (hdisjoint y (by simp [hy]) _ (headD_mem z hl))
  · apply backward_congr hright'
    intro y hy
    cases l₂ with
    | nil => simp at hy
    | cons c l₂ =>
      apply hsame' y (by simp at hy; simp [hy])
      rintro rfl
      exact (List.nodup_cons.mp hnodup₂).1 hy

/-- Putting a new element into the ring. -/
theorem link (h : Ring succ pred z (l₁ ++ l₂)) (hb : b ∉ z :: (l₁ ++ l₂))
    (hbefore : succ' (l₁.getLastD z) = b) (hafter : succ' b = l₂.headD z)
    (hbefore' : pred' b = l₁.getLastD z) (hafter' : l₂ ≠ [] → pred' (l₂.headD z) = b)
    (hsame : ∀ x ∈ z :: (l₁ ++ l₂), x ≠ l₁.getLastD z → succ' x = succ x)
    (hsame' : ∀ y ∈ l₁ ++ l₂, y ≠ l₂.headD z → pred' y = pred y) :
    Ring succ' pred' z (l₁ ++ b :: l₂) := by
  obtain ⟨hleft, _, hright⟩ := (forward_iff l₁ l₂).mp h.forward
  obtain ⟨hleft', _, hright'⟩ := (backward_iff l₁ l₂).mp h.backward
  obtain ⟨⟨hleft, hright⟩, hleft', hright'⟩ := sides h.nodup hleft hright hleft' hright' hsame hsame'
  have hperm : (b :: z :: (l₁ ++ l₂)).Perm (z :: (l₁ ++ b :: l₂)) :=
    (List.Perm.swap z b _).trans (List.perm_middle.symm.cons z)
  refine ⟨hperm.nodup_iff.mp (List.nodup_cons.mpr ⟨hb, h.nodup⟩), ?_, ?_⟩
  · refine (forward_iff l₁ (b :: l₂)).mpr ⟨hleft, hbefore, ?_⟩
    have hhead := headD_append_singleton l₂ z
    cases hl : l₂ ++ [z] with
    | nil => simp at hl
    | cons c t =>
      rw [hl] at hright hhead
      rw [List.cons_append, hl]
      exact List.isChain_cons_cons.mpr ⟨hafter.trans hhead.symm, hright⟩
  · refine (backward_iff l₁ (b :: l₂)).mpr ⟨hleft', fun _ => hbefore', ?_⟩
    cases l₂ with
    | nil => exact .singleton b
    | cons c l₂ => exact List.isChain_cons_cons.mpr ⟨hafter' (by simp), hright'⟩

/-- Taking an element out of the ring. -/
theorem unlink (h : Ring succ pred z (l₁ ++ b :: l₂))
    (hcut : succ' (l₁.getLastD z) = l₂.headD z) (hcut' : l₂ ≠ [] → pred' (l₂.headD z) = l₁.getLastD z)
    (hsame : ∀ x ∈ z :: (l₁ ++ l₂), x ≠ l₁.getLastD z → succ' x = succ x)
    (hsame' : ∀ y ∈ l₁ ++ l₂, y ≠ l₂.headD z → pred' y = pred y) :
    Ring succ' pred' z (l₁ ++ l₂) := by
  have hsub : (z :: (l₁ ++ l₂)).Sublist (z :: (l₁ ++ b :: l₂)) :=
    ((List.sublist_cons_self b l₂).append_left l₁).cons_cons z
  obtain ⟨hleft, _, hright⟩ := (forward_iff l₁ (b :: l₂)).mp h.forward
  obtain ⟨hleft', _, hright'⟩ := (backward_iff l₁ (b :: l₂)).mp h.backward
  have hnodup := h.nodup.sublist hsub
  obtain ⟨⟨hleft, hright⟩, hleft', hright'⟩ :=
    sides hnodup hleft hright.tail hleft' hright'.tail hsame hsame'
  exact ⟨hnodup, (forward_iff l₁ l₂).mpr ⟨hleft, hcut, hright⟩,
    (backward_iff l₁ l₂).mpr ⟨hleft', hcut', hright'⟩⟩

/-- The ring only depends on the successors of its members and the sentinel, and on the
    predecessors of its members. -/
theorem congr (h : Ring succ pred z l) (hsame : ∀ x ∈ z :: l, succ' x = succ x)
    (hsame' : ∀ y ∈ l, pred' y = pred y) : Ring succ' pred' z l := by
  refine ⟨h.nodup, forward_congr h.forward ?_, backward_congr h.backward hsame'⟩
  intro x hx
  rw [← List.cons_append, List.dropLast_concat] at hx
  exact hsame x hx

/-- Two rings through the same elements have the same links. -/
theorem links_eq (h : Ring succ pred z l) (h' : Ring succ' pred' z l) :
    (∀ x ∈ z :: l, succ x = succ' x) ∧ ∀ y ∈ l, pred y = pred' y := by
  refine ⟨fun x hx => ?_, fun y hy => ?_⟩
  · obtain rfl | hx := List.mem_cons.mp hx
    · have hfirst : Ring succ pred x ([] ++ l) := h
      have hfirst' : Ring succ' pred' x ([] ++ l) := h'
      exact hfirst.succ_last.trans hfirst'.succ_last.symm
    · obtain ⟨l₁, l₂, rfl⟩ := List.append_of_mem hx
      rw [h.succ_mid, h'.succ_mid]
  · obtain ⟨l₁, l₂, rfl⟩ := List.append_of_mem hy
    rw [h.pred_mid, h'.pred_mid]

end Ring

end tlpi
