import Tlpi.Xmalloc.Free

namespace tlpi.heap

variable {s : State} {free live rest : List Block} {b : Block}

/-- Freeing the block leaves the break alone, because the highest free block is then too
    short to be given back, or none of the other live blocks lies above that block. -/
def ShrinkSafe (free rest : List Block) (b : Block) : Prop :=
  (top free b).length < MIN_HEAP_FREE_SIZE ∨ ∀ c ∈ rest, c.addr < (top free b).addr

instance (free rest : List Block) (b : Block) : Decidable (ShrinkSafe free rest b) :=
  inferInstanceAs (Decidable (_ ∨ _))

theorem top_apart (h : Consistent s free (b :: rest)) : ∀ c ∈ rest, (top free b).Apart c := by
  intro c hc
  obtain ⟨_, hlive, hcross⟩ := List.pairwise_append.mp h.apart
  exact release_apart h.ordered h.free_apart (fun a ha => hcross a ha c (by simp [hc]))
    (h.live_apart c hc) _ (top_mem free b)

/-- The other live blocks stay below the break exactly when it is safe to shrink. -/
theorem below_brkAfter_iff (h : WellFormed s free (b :: rest)) :
    (∀ c ∈ rest, c.stop ≤ brkAfter s free b) ↔ ShrinkSafe free rest b := by
  unfold brkAfter ShrinkSafe
  by_cases hbig : MIN_HEAP_FREE_SIZE ≤ (top free b).length
  · rw [if_pos hbig]
    constructor
    · intro hbelow
      exact Or.inr fun c hc => lt_of_lt_of_le c.addr_lt_stop (hbelow c hc)
    · rintro (hsmall | habove) c hc
      · omega
      · obtain hap | hap := top_apart h.toConsistent c hc
        · have := habove c hc
          have := (top free b).addr_lt_stop
          omega
        · exact hap
  · rw [if_neg hbig]
    constructor
    · intro _
      exact Or.inl (by omega)
    · intro _ c hc
      exact h.below c (by simp [hc])

/-- A free that is safe keeps the allocator's invariant. -/
theorem xfree_wellFormed (h : WellFormed s free (b :: rest)) (hsafe : ShrinkSafe free rest b) :
    ∃ s', xfree s (user_addr b.addr) = .ok s' ∧ WellFormed s' (freeAfter free b) rest := by
  obtain ⟨s', hrun, hcons, hbrk⟩ := xfree_spec h.toConsistent
  have hlive := (below_brkAfter_iff h).mpr hsafe
  have hreleased := release_stop_le s.brk h.ordered h.free_apart
    (fun a ha => h.below a (List.mem_append_left _ ha)) (h.below b (by simp))
  have htop : 0 < (top free b).addr := le_release_addr 1 h.ordered h.free_apart
    (fun a ha => (h.fits a (List.mem_append_left _ ha)).1) (h.fits b (by simp)).1 _ (top_mem free b)
  have hfree : ∀ c ∈ freeAfter free b, c.stop ≤ brkAfter s free b := by
    intro c hc
    unfold freeAfter at hc
    unfold brkAfter
    split
    · rename_i hbig
      rw [if_pos hbig] at hc
      have hordered := (release_spec h.ordered h.free_apart).1
      rw [release_eq_concat] at hordered
      exact (List.pairwise_append.mp hordered).2.2 c hc _ (by simp)
    · rename_i hbig
      rw [if_neg hbig] at hc
      exact hreleased c hc
  refine ⟨s', hrun, hcons, fun c hc => ?_, ?_, ?_⟩
  · rw [hbrk]
    obtain hc | hc := List.mem_append.mp hc
    · exact hfree c hc
    · exact hlive c hc
  · rw [hbrk, brkAfter]
    split
    · exact htop
    · exact h.brk_pos
  · have hbound := hreleased _ (top_mem free b)
    have := (top free b).addr_lt_stop
    have := h.brk_lt
    rw [hbrk, brkAfter]
    split <;> omega

end tlpi.heap
