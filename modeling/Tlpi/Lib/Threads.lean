import Mathlib.Algebra.BigOperators.Group.List.Basic
import Mathlib.Algebra.Order.BigOperators.Group.List
import Mathlib.Algebra.Order.Ring.Nat
import Mathlib.Data.List.Basic

namespace tlpi

section Threads

variable {T : Type} {threads : List T} {i k : Nat} {t t' u : T} {f : T → Nat}

/-- What a thread's step leaves as it is. -/
theorem map_set {V : Type} {g : T → V} (ht : threads[i]? = some t) (hg : g t' = g t) :
    (threads.set i t').map g = threads.map g := by
  obtain ⟨hlt, hget⟩ := List.getElem?_eq_some_iff.mp ht
  have hmap : i < (threads.map g).length := by rwa [List.length_map]
  have hval : (threads.map g)[i] = g t := by rw [List.getElem_map, hget]
  rw [List.map_set, hg, ← hval, List.set_getElem_self]

/-- The change of one thread's share in a total. -/
theorem sum_set (ht : threads[i]? = some t) (t' : T) (f : T → Nat) :
    ((threads.set i t').map f).sum + f t = (threads.map f).sum + f t' := by
  induction threads generalizing i with
  | nil => cases ht
  | cons first rest ih =>
    cases i with
    | zero =>
      cases ht
      rw [List.set_cons_zero, List.map_cons, List.map_cons, List.sum_cons, List.sum_cons]
      omega
    | succ i =>
      have hrest := ih ht
      rw [List.set_cons_succ, List.map_cons, List.map_cons, List.sum_cons, List.sum_cons]
      omega

theorem le_sum (ht : threads[i]? = some t) (f : T → Nat) : f t ≤ (threads.map f).sum := by
  have hmem : f t ∈ threads.map f := List.mem_map_of_mem (List.mem_of_getElem? ht)
  exact List.single_le_sum (fun _ _ => Nat.zero_le _) (f t) hmem

/-- Where each thread's share is within a bound, one thread's share and the totals leave room for what
    its own bound leaves. -/
theorem sum_add_le_sum {g : T → Nat} (hle : ∀ t ∈ threads, f t ≤ g t) (ht : threads[i]? = some t) :
    (threads.map f).sum + g t ≤ (threads.map g).sum + f t := by
  induction threads generalizing i with
  | nil => cases ht
  | cons first rest ih =>
    have hfirst := hle first List.mem_cons_self
    have hrest : ∀ t ∈ rest, f t ≤ g t := fun t h => hle t (List.mem_cons_of_mem _ h)
    rw [List.map_cons, List.map_cons, List.sum_cons, List.sum_cons]
    cases i with
    | zero =>
      cases ht
      have hsum : (rest.map f).sum ≤ (rest.map g).sum := List.sum_le_sum hrest
      omega
    | succ i =>
      have hsum := ih hrest ht
      omega

/-- Where at most one can be inside, the one that is inside is this one. -/
theorem eq_of_inside (hsum : (threads.map f).sum ≤ 1) (ht : threads[i]? = some t) (htf : 1 ≤ f t)
    (hu : threads[k]? = some u) (huf : 1 ≤ f u) : i = k := by
  induction threads generalizing i k with
  | nil => cases ht
  | cons first rest ih =>
    rw [List.map_cons, List.sum_cons] at hsum
    cases i with
    | zero =>
      cases k with
      | zero => rfl
      | succ k =>
        cases ht
        have hle : f u ≤ (rest.map f).sum := le_sum (List.getElem?_cons_succ ▸ hu) f
        omega
    | succ i =>
      cases k with
      | zero =>
        cases hu
        have hle : f t ≤ (rest.map f).sum := le_sum (List.getElem?_cons_succ ▸ ht) f
        omega
      | succ k => rw [ih (by omega) ht hu]

/-- What holds of all others, and of one thread after its step, holds of all. -/
theorem forall_set {P : T → Prop} (hothers : ∀ k u, i ≠ k → threads[k]? = some u → P u) (ht' : P t') :
    ∀ u ∈ threads.set i t', P u := by
  intro u hu
  obtain ⟨k, hk⟩ := List.getElem?_of_mem hu
  by_cases hik : i = k
  · subst hik
    have hlt : i < (threads.set i t').length := (List.getElem?_eq_some_iff.mp hk).1
    rw [List.length_set] at hlt
    rw [List.getElem?_set_self hlt] at hk
    rwa [← Option.some.inj hk]
  · rw [List.getElem?_set_ne hik] at hk
    exact hothers k u hik hk

theorem exists_set {P : T → Prop} (h : ∃ u ∈ threads, P u) (ht : threads[i]? = some t) (hkeep : P t → P t') :
    ∃ u ∈ threads.set i t', P u := by
  obtain ⟨u, hu, hPu⟩ := h
  obtain ⟨k, hk⟩ := List.getElem?_of_mem hu
  by_cases hik : i = k
  · subst hik
    have heq : t = u := Option.some.inj (ht.symm.trans hk)
    have hlt : i < threads.length := (List.getElem?_eq_some_iff.mp ht).1
    exact ⟨t', List.mem_of_getElem? (List.getElem?_set_self hlt), hkeep (heq ▸ hPu)⟩
  · exact ⟨u, List.mem_of_getElem? ((List.getElem?_set_ne hik).trans hk), hPu⟩

end Threads

end tlpi
