import Tlpi.Lib.Ring
import Tlpi.Xmalloc.Model

namespace tlpi.heap

namespace State

variable (s : State) (block value : Nat)

@[simp] theorem set_prev_prev : (s.set_prev block value).prev = Function.update s.prev block value := rfl
@[simp] theorem set_prev_next : (s.set_prev block value).next = s.next := rfl
@[simp] theorem set_prev_length : (s.set_prev block value).length = s.length := rfl
@[simp] theorem set_prev_FreeList : (s.set_prev block value).FreeList = s.FreeList := rfl
@[simp] theorem set_prev_brk : (s.set_prev block value).brk = s.brk := rfl
@[simp] theorem set_next_prev : (s.set_next block value).prev = s.prev := rfl
@[simp] theorem set_next_next : (s.set_next block value).next = Function.update s.next block value := rfl
@[simp] theorem set_next_length : (s.set_next block value).length = s.length := rfl
@[simp] theorem set_next_FreeList : (s.set_next block value).FreeList = s.FreeList := rfl
@[simp] theorem set_next_brk : (s.set_next block value).brk = s.brk := rfl
@[simp] theorem set_length_prev : (s.set_length block value).prev = s.prev := rfl
@[simp] theorem set_length_next : (s.set_length block value).next = s.next := rfl
@[simp] theorem set_length_length :
    (s.set_length block value).length = Function.update s.length block value := rfl
@[simp] theorem set_length_FreeList : (s.set_length block value).FreeList = s.FreeList := rfl
@[simp] theorem set_length_brk : (s.set_length block value).brk = s.brk := rfl

/-- The next node, with `FreeList` as the successor of the null pointer. -/
def succ (x : Nat) : Nat := if x = 0 then s.FreeList else s.next x

/-- The free list consists of exactly these blocks, in this order, and both directions of
    every link agree. -/
def Linked (l : List Nat) : Prop := Ring s.succ s.prev 0 l

end State

/-- The break, and every link of a header outside the given ones, are as before. -/
def KeepsLinks (s s' : State) (l : List Nat) : Prop :=
  s'.brk = s.brk ∧ ∀ x, x ∉ l → s'.prev x = s.prev x ∧ s'.next x = s.next x

theorem freelist_remove_succ (s : State) (b x : Nat) :
    (freelist_remove s b).succ x = if x = s.prev b then s.next b else s.succ x := by
  unfold freelist_remove State.succ
  by_cases hp : s.prev b = 0 <;> by_cases hn : s.next b = 0 <;> by_cases hx : x = 0 <;>
    simp [hp, hn, hx, Function.update_apply] <;> grind

theorem freelist_remove_prev (s : State) (b y : Nat) :
    (freelist_remove s b).prev y = if s.next b ≠ 0 ∧ y = s.next b then s.prev b else s.prev y := by
  unfold freelist_remove
  by_cases hp : s.prev b = 0 <;> by_cases hn : s.next b = 0 <;> simp [hp, hn, Function.update_apply]

theorem freelist_remove_next (s : State) (b x : Nat) :
    (freelist_remove s b).next x = if s.prev b ≠ 0 ∧ x = s.prev b then s.next b else s.next x := by
  unfold freelist_remove
  by_cases hp : s.prev b = 0 <;> by_cases hn : s.next b = 0 <;> simp [hp, hn, Function.update_apply]

theorem freelist_remove_length (s : State) (b : Nat) : (freelist_remove s b).length = s.length := by
  unfold freelist_remove
  by_cases hp : s.prev b = 0 <;> by_cases hn : s.next b = 0 <;> simp [hp, hn]

theorem freelist_remove_brk (s : State) (b : Nat) : (freelist_remove s b).brk = s.brk := by
  unfold freelist_remove
  by_cases hp : s.prev b = 0 <;> by_cases hn : s.next b = 0 <;> simp [hp, hn]

section Linked

variable {s : State} {l l₁ l₂ : List Nat} {a b : Nat}

theorem State.Linked.mem_ne_zero (h : s.Linked l) (hb : b ∈ l) : b ≠ 0 := by
  rintro rfl
  exact Ring.not_mem h hb

theorem State.Linked.next_mid (h : s.Linked (l₁ ++ b :: l₂)) : s.next b = l₂.headD 0 := by
  have hb : b ≠ 0 := h.mem_ne_zero (by simp)
  have hsucc := Ring.succ_mid h
  rwa [State.succ, if_neg hb] at hsucc

theorem State.Linked.prev_mid (h : s.Linked (l₁ ++ b :: l₂)) : s.prev b = l₁.getLastD 0 :=
  Ring.pred_mid h

theorem State.Linked.head (h : s.Linked l) : s.FreeList = l.headD 0 := by
  have hring : Ring s.succ s.prev 0 ([] ++ l) := h
  simpa [State.succ] using hring.succ_last

theorem headD_eq_zero_iff (h : s.Linked (l₁ ++ l₂)) : l₂.headD 0 = 0 ↔ l₂ = [] := by
  constructor
  · intro hzero
    by_contra hl
    have hmem := headD_mem 0 hl
    exact h.mem_ne_zero (List.mem_append_right l₁ hmem) hzero
  · rintro rfl
    rfl

/-- `freelist_remove` takes a node out of the list and touches no other header. -/
theorem freelist_remove_spec (h : s.Linked (l₁ ++ b :: l₂)) :
    (freelist_remove s b).Linked (l₁ ++ l₂) ∧ KeepsLinks s (freelist_remove s b) (l₁ ++ l₂) := by
  have hprev := h.prev_mid
  have hnext := h.next_mid
  have hcut : s.Linked ((l₁ ++ [b]) ++ l₂) := by simpa using h
  have hhead := headD_eq_zero_iff hcut
  constructor
  · apply Ring.unlink h
    · rw [freelist_remove_succ, if_pos hprev.symm, hnext]
    · intro hl
      rw [freelist_remove_prev, hnext, if_pos ⟨by rwa [ne_eq, hhead], rfl⟩, hprev]
    · intro x _ hx
      rw [freelist_remove_succ, hprev, if_neg hx]
    · intro y _ hy
      rw [freelist_remove_prev, hnext, if_neg (by tauto)]
  · refine ⟨freelist_remove_brk s b, fun x hx => ⟨?_, ?_⟩⟩
    · rw [freelist_remove_prev, hnext, if_neg]
      rintro ⟨hne, rfl⟩
      exact hx (List.mem_append_right _ (headD_mem 0 (mt hhead.mpr hne)))
    · rw [freelist_remove_next, hprev, if_neg]
      rintro ⟨hne, rfl⟩
      have hmem := getLastD_mem 0 l₁
      simp only [List.mem_cons, hne, false_or] at hmem
      exact hx (List.mem_append_left _ hmem)

/-- The fields that `block_merge` leaves. -/
theorem block_merge_fields (s : State) {a b : Nat} (hab : b ≠ a) :
    (block_merge s a b).1.next = Function.update (Function.update s.next a (s.next b)) b 0 ∧
      (block_merge s a b).1.prev =
        Function.update (if s.next b ≠ 0 then Function.update s.prev (s.next b) a else s.prev) b 0 ∧
      (block_merge s a b).1.length = Function.update (Function.update s.length a
        (size_add (s.length a) (size_add (s.length b) sizeof_freelist_node))) b 0 ∧
      (block_merge s a b).1.FreeList = s.FreeList ∧ (block_merge s a b).1.brk = s.brk := by
  unfold block_merge block_init
  by_cases hn : s.next b = 0 <;> simp [hn, hab]

/-- `block_merge` of two consecutive nodes drops the right one from the list and adds its
    extent to the left one. -/
theorem block_merge_spec (h : s.Linked (l₁ ++ a :: b :: l₂)) :
    (block_merge s a b).1.Linked (l₁ ++ a :: l₂) ∧
      KeepsLinks s (block_merge s a b).1 (l₁ ++ a :: b :: l₂) ∧
      (block_merge s a b).1.length = Function.update (Function.update s.length a
        (size_add (s.length a) (size_add (s.length b) sizeof_freelist_node))) b 0 := by
  have hcut : s.Linked ((l₁ ++ [a]) ++ b :: l₂) := by simpa using h
  have hafter : s.Linked ((l₁ ++ [a, b]) ++ l₂) := by simpa using h
  have hnext := hcut.next_mid
  have hhead := headD_eq_zero_iff hafter
  obtain ⟨hleft, hright, hdisjoint⟩ := List.nodup_append.mp (List.nodup_cons.mp hafter.nodup).2
  have hmem (hl : l₂ ≠ []) : l₂.headD 0 ∈ l₂ := headD_mem 0 hl
  have ha : a ≠ 0 := h.mem_ne_zero (by simp)
  have hb : b ≠ 0 := h.mem_ne_zero (by simp)
  have hne : b ≠ a := by
    rintro rfl
    simp [List.nodup_append] at hleft
  have hbl (x : Nat) (hx : x ∈ l₁ ++ [a] ++ l₂) : x ≠ b := by
    rintro rfl
    have hnd := (List.nodup_cons.mp hcut.nodup).2
    rw [List.nodup_middle] at hnd
    exact (List.nodup_cons.mp hnd).1 hx
  obtain ⟨hnext', hprev', hlength', hlist', hbrk'⟩ := block_merge_fields s hne
  refine ⟨?_, ⟨hbrk', fun x hx => ⟨?_, ?_⟩⟩, hlength'⟩
  · have hring : Ring (block_merge s a b).1.succ (block_merge s a b).1.prev 0 ((l₁ ++ [a]) ++ l₂) := by
      apply Ring.unlink hcut
      · simp [State.succ, ha, hnext', hnext, Function.update_of_ne (Ne.symm hne)]
      · intro hl
        rw [hprev', Function.update_of_ne (hbl _ (List.mem_append_right _ (hmem hl))), hnext,
          if_pos (by rwa [ne_eq, hhead])]
        simp
      · intro x hx hxa
        simp only [List.getLastD_concat] at hxa
        unfold State.succ
        obtain rfl | hx := List.mem_cons.mp hx
        · simpa using hlist'
        · rw [hnext', Function.update_of_ne (hbl x hx), Function.update_of_ne hxa, hlist']
      · intro y hy hyh
        rw [hprev', Function.update_of_ne (hbl y hy), hnext]
        split
        · rw [Function.update_of_ne hyh]
        · rfl
    rwa [List.append_assoc] at hring
  · rw [hprev', Function.update_of_ne (by rintro rfl; simp at hx), hnext]
    split
    · rename_i hn
      rw [Function.update_of_ne]
      rintro rfl
      exact hx (by simpa using Or.inr (Or.inr (Or.inr (hmem (mt hhead.mpr hn)))))
    · rfl
  · rw [hnext', Function.update_of_ne (by rintro rfl; simp at hx),
      Function.update_of_ne (by rintro rfl; simp at hx)]

/-- The state in which `freelist_insert` leaves its loop, between two neighbours of which
    at least one is a node. -/
def inserted (s : State) (block last fn : Nat) : State :=
  if fn ≠ 0 then
    let s := s.set_next block fn
    let s := s.set_prev block (s.prev fn)
    let s := s.set_prev fn block
    if last ≠ 0 then s.set_next last block else { s with FreeList := block }
  else
    let s := s.set_next last block
    let s := s.set_prev block last
    s.set_next block 0

/-- The loop of `freelist_insert` stops before the first node above the block. It follows the
    forward links only. -/
theorem freelist_insert_loop {pred : Nat → Nat} (h : Ring s.succ pred 0 (l₁ ++ l₂))
    (hlow : ∀ x ∈ l₁, x < b) (hhigh : ∀ x ∈ l₂, b < x) (hfuel : l₁.length < ADDRESSES) :
    loop (freelist_insert_body s b) ADDRESSES (0, (l₁ ++ l₂).headD 0) =
      .ok (inserted s b (l₁.getLastD 0) (l₂.headD 0)) := by
  have hne (c : Nat) (hc : c ∈ l₁ ++ l₂) : c ≠ 0 := ne_of_mem_of_not_mem hc h.not_mem
  refine loop_list (fun k m => (k.getLastD 0, m.headD 0)) l₁ l₂ ?_ ?_ hfuel
  · rintro k c m rfl
    have hc : c ≠ 0 := hne c (by simp)
    have hcb : c < b := hlow c (by simp)
    have hmid : Ring s.succ pred 0 (k ++ c :: (m ++ l₂)) := by simpa using h
    have hnext := hmid.succ_mid
    rw [State.succ, if_neg hc] at hnext
    simp [freelist_insert_body, hc, hcb.ne', hcb.le, hnext]
  · cases l₂ with
    | nil => simp [freelist_insert_body, inserted]
    | cons c l₂ =>
      have hc : c ≠ 0 := hne c (by simp)
      have hbc : b < c := hhigh c (by simp)
      simp [freelist_insert_body, inserted, hc, hbc.ne, hbc]

theorem inserted_next (s : State) {b last fn : Nat} (hbl : b ≠ last) (hor : last ≠ 0 ∨ fn ≠ 0)
    (x : Nat) :
    (inserted s b last fn).next x = if x = b then fn else if last ≠ 0 ∧ x = last then b else s.next x := by
  unfold inserted
  by_cases hf : fn = 0 <;> by_cases hl : last = 0 <;> simp [hf, hl, Function.update_apply] <;> grind

theorem inserted_prev (s : State) {b last fn : Nat} (hprev : fn ≠ 0 → s.prev fn = last) (hfb : fn ≠ b)
    (y : Nat) :
    (inserted s b last fn).prev y = if y = b then last else if fn ≠ 0 ∧ y = fn then b else s.prev y := by
  unfold inserted
  by_cases hf : fn = 0
  · simp [hf, Function.update_apply]
  · have hlast := hprev hf
    by_cases hl : last = 0
    · simp [hf, hl, hlast, Function.update_apply]
      grind
    · simp [hf, hl, hlast, Function.update_apply]
      grind

theorem inserted_succ (s : State) {b last fn : Nat} (hb : b ≠ 0) (hbl : b ≠ last)
    (hor : last ≠ 0 ∨ fn ≠ 0) (x : Nat) :
    (inserted s b last fn).succ x = if x = last then b else if x = b then fn else s.succ x := by
  unfold inserted State.succ
  by_cases hf : fn = 0 <;> by_cases hl : last = 0 <;> by_cases hx : x = 0 <;>
    simp [hf, hl, hx, Function.update_apply] <;> grind

theorem inserted_length (s : State) (b last fn : Nat) : (inserted s b last fn).length = s.length := by
  unfold inserted
  split_ifs <;> rfl

theorem inserted_brk (s : State) (b last fn : Nat) : (inserted s b last fn).brk = s.brk := by
  unfold inserted
  split_ifs <;> rfl

/-- `freelist_insert` puts a new block between the nodes below and above it. Only on an
    empty list does it rely on the links that the block comes with. -/
theorem freelist_insert_spec (h : s.Linked (l₁ ++ l₂)) (hb : b ≠ 0) (hlow : ∀ x ∈ l₁, x < b)
    (hhigh : ∀ x ∈ l₂, b < x) (hreset : l₁ ++ l₂ = [] → s.prev b = 0 ∧ s.next b = 0)
    (hfuel : l₁.length < ADDRESSES) :
    ∃ s', freelist_insert s b = .ok s' ∧ s'.Linked (l₁ ++ b :: l₂) ∧
      KeepsLinks s s' (l₁ ++ b :: l₂) ∧ s'.length = s.length := by
  have hfirst := h.head
  by_cases hempty : l₁ ++ l₂ = []
  · obtain ⟨rfl, rfl⟩ := List.append_eq_nil_iff.mp hempty
    obtain ⟨hprev, hnext⟩ := hreset hempty
    refine ⟨{ s with FreeList := b }, ?_, ?_, ⟨rfl, fun _ _ => ⟨rfl, rfl⟩⟩, rfl⟩
    · rw [freelist_insert, if_pos (by simpa using hfirst)]
    · refine ⟨by simpa using hb.symm, ?_, ?_⟩
      · simp [State.succ, hb, hnext]
      · simp [hprev]
  · have hring : Ring s.succ s.prev 0 ([] ++ (l₁ ++ l₂)) := h
    have hne : s.FreeList ≠ 0 := by
      rw [hfirst, ne_eq, headD_eq_zero_iff hring]
      exact hempty
    have hlast : b ≠ l₁.getLastD 0 := by
      have hmem := getLastD_mem 0 l₁
      rintro heq
      rw [← heq] at hmem
      obtain hzero | hmem := List.mem_cons.mp hmem
      · exact hb hzero
      · exact (hlow b hmem).ne rfl
    have hhead := headD_eq_zero_iff h
    have hfn : l₂.headD 0 ≠ b := by
      by_cases hl : l₂ = []
      · subst hl
        exact hb.symm
      · exact (hhigh _ (headD_mem 0 hl)).ne'
    have hor : l₁.getLastD 0 ≠ 0 ∨ l₂.headD 0 ≠ 0 := by
      by_cases hl : l₂ = []
      · left
        subst hl
        have hl₁ : l₁ ≠ [] := by simpa using hempty
        obtain ⟨k, c, rfl⟩ := List.eq_nil_or_concat' l₁ |>.resolve_left hl₁
        have hc : c ≠ 0 := h.mem_ne_zero (by simp)
        simpa using hc
      · right
        rwa [ne_eq, hhead]
    have hpred (hf : l₂.headD 0 ≠ 0) : s.prev (l₂.headD 0) = l₁.getLastD 0 :=
      Ring.pred_head h (mt hhead.mpr hf)
    have hnot : b ∉ l₁ ++ l₂ := by
      intro hmem
      obtain hmem | hmem := List.mem_append.mp hmem
      · exact (hlow b hmem).ne rfl
      · exact (hhigh b hmem).ne rfl
    refine ⟨inserted s b (l₁.getLastD 0) (l₂.headD 0), ?_, ?_,
      ⟨inserted_brk _ _ _ _, fun x hx => ⟨?_, ?_⟩⟩,
      inserted_length _ _ _ _⟩
    · rw [freelist_insert, if_neg hne, hfirst]
      exact freelist_insert_loop h hlow hhigh hfuel
    · apply Ring.link h
      · simpa [hb] using hnot
      · rw [inserted_succ s hb hlast hor, if_pos rfl]
      · rw [inserted_succ s hb hlast hor, if_neg hlast, if_pos rfl]
      · rw [inserted_prev s hpred hfn, if_pos rfl]
      · intro hl
        rw [inserted_prev s hpred hfn, if_neg hfn, if_pos ⟨by rwa [ne_eq, hhead], rfl⟩]
      · intro x hx hxl
        rw [inserted_succ s hb hlast hor, if_neg hxl, if_neg]
        rintro rfl
        simp [hb] at hx
        exact hnot (by simpa using hx)
      · intro y hy hyh
        rw [inserted_prev s hpred hfn, if_neg (by rintro rfl; exact hnot hy), if_neg (by tauto)]
    · rw [inserted_prev s hpred hfn, if_neg (by rintro rfl; simp at hx), if_neg]
      rintro ⟨hne, rfl⟩
      exact hx (by simp [-List.headD_eq_head?_getD, headD_mem 0 (mt hhead.mpr hne)])
    · rw [inserted_next s hlast hor, if_neg (by rintro rfl; simp at hx), if_neg]
      rintro ⟨hne, rfl⟩
      have hmem := getLastD_mem 0 l₁
      exact hx (List.mem_append_left _ ((List.mem_cons.mp hmem).resolve_left hne))

/-- The walk of `xfree` ends at the last node. -/
theorem freelist_last_spec (h : s.Linked l) (hfuel : l.length < ADDRESSES) :
    freelist_last s = .ok (l.getLastD 0) := by
  rw [freelist_last, h.head, ← List.append_nil l]
  refine loop_list (fun k m => (k.getLastD 0, m.headD 0)) l [] ?_ (by simp) hfuel
  rintro k c m rfl
  have hc : c ≠ 0 := h.mem_ne_zero (by simp)
  simp [hc, h.next_mid]

/-- Walking the list meets its nodes and their lengths. -/
theorem freelist_walk_spec (h : s.Linked l) (hfuel : l.length < ADDRESSES) :
    freelist_walk s = .ok (l.map fun a => (a, s.length a)) := by
  rw [freelist_walk, h.head]
  nth_rewrite 1 [← List.append_nil l]
  refine loop_list (fun k m => (k.map fun a => (a, s.length a), m.headD 0)) l [] ?_ (by simp) hfuel
  rintro k c m rfl
  have hc : c ≠ 0 := h.mem_ne_zero (by simp)
  simp [hc, h.next_mid]

/-- On a list whose links agree in both directions the sanity check succeeds. -/
theorem is_freelist_sane_spec (h : s.Linked l) (hfuel : l.length < ADDRESSES) :
    is_freelist_sane s = .ok true := by
  rw [is_freelist_sane, h.head, ← List.append_nil l]
  refine loop_list (fun k m => (k.getLastD 0, m.headD 0)) l [] ?_
    (by simp [is_freelist_sane_body]) hfuel
  rintro k c m rfl
  have hc : c ≠ 0 := h.mem_ne_zero (by simp)
  simp [is_freelist_sane_body, hc, h.next_mid, h.prev_mid]

end Linked

end tlpi.heap
