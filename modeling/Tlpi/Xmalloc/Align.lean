import Mathlib.Data.Set.Insert
import Mathlib.Logic.Relation
import Tlpi.Xmalloc.Take

namespace tlpi.heap

/-- A machine word that is a multiple of 8. -/
def AlignedWord (a : Nat) : Prop := a < 2 ^ 64 ∧ 8 ∣ a

instance (a : Nat) : Decidable (AlignedWord a) := inferInstanceAs (Decidable (_ ∧ _))

/-- One header names another one in its `prev` or `next`. -/
def Names (s : State) (x y : Nat) : Prop := y ≠ 0 ∧ (s.prev x = y ∨ s.next x = y)

/-- The block headers: those that `FreeList` or a block in use leads to through `prev` and
    `next`. -/
def IsHeader (s : State) (used : List Nat) (x : Nat) : Prop :=
  ∃ start, (start = s.FreeList ∧ start ≠ 0 ∨ start ∈ used) ∧ Relation.ReflTransGen (Names s) start x

/-- The address of a header and its three fields. -/
structure AlignedFields (s : State) (x : Nat) : Prop where
  addr : AlignedWord x
  prev : AlignedWord (s.prev x)
  next : AlignedWord (s.next x)
  length : AlignedWord (s.length x)

/-- The break, `FreeList` and all block headers are aligned. -/
structure Aligned (s : State) (used : List Nat) : Prop where
  brk : AlignedWord s.brk
  list : AlignedWord s.FreeList
  headers : ∀ x, IsHeader s used x → AlignedFields s x

/-- A header is aligned, and so is every header that it leads to. -/
def AlignedHeader (s : State) (x : Nat) : Prop :=
  ∀ y, Relation.ReflTransGen (Names s) x y → AlignedFields s y

/-- A set of aligned headers that the links do not lead out of. -/
structure AlignedOn (s : State) (H : Set Nat) : Prop where
  brk : AlignedWord s.brk
  list : s.FreeList = 0 ∨ s.FreeList ∈ H
  addr : ∀ x ∈ H, AlignedWord x
  prev : ∀ x ∈ H, s.prev x = 0 ∨ s.prev x ∈ H
  next : ∀ x ∈ H, s.next x = 0 ∨ s.next x ∈ H
  length : ∀ x ∈ H, AlignedWord (s.length x)

section Words

variable {a b : Nat}

theorem alignedWord_zero : AlignedWord 0 := by decide

theorem AlignedWord.size_add (ha : AlignedWord a) (hb : AlignedWord b) : AlignedWord (size_add a b) := by
  unfold AlignedWord tlpi.size_add at *
  omega

theorem AlignedWord.size_sub (ha : AlignedWord a) (hb : AlignedWord b) : AlignedWord (size_sub a b) := by
  unfold AlignedWord tlpi.size_sub at *
  omega

theorem alignedWord_header : AlignedWord sizeof_freelist_node := by decide

theorem AlignedWord.xmax (ha : AlignedWord a) (hb : AlignedWord b) : AlignedWord (XMAX a b) := by
  unfold XMAX
  split_ifs
  · exact ha
  · exact hb

end Words

section Closed

variable {s : State} {H : Set Nat} {used : List Nat} {x value : Nat}

/-- Null, or the address of a header, is aligned. -/
theorem AlignedOn.link (h : AlignedOn s H) (hvalue : value = 0 ∨ value ∈ H) : AlignedWord value := by
  obtain rfl | hmem := hvalue
  · exact alignedWord_zero
  · exact h.addr value hmem

theorem AlignedOn.fields (h : AlignedOn s H) (hx : x ∈ H) : AlignedFields s x :=
  ⟨h.addr x hx, h.link (h.prev x hx), h.link (h.next x hx), h.length x hx⟩

/-- What a header leads to is in every set that the links do not lead out of. -/
theorem mem_of_leads {y : Nat} (hprev : ∀ x ∈ H, s.prev x = 0 ∨ s.prev x ∈ H)
    (hnext : ∀ x ∈ H, s.next x = 0 ∨ s.next x ∈ H) (hx : x ∈ H)
    (hleads : Relation.ReflTransGen (Names s) x y) : y ∈ H := by
  induction hleads with
  | refl => exact hx
  | tail _ hnames ih =>
    obtain ⟨hne, rfl | rfl⟩ := hnames
    · exact (hprev _ ih).resolve_left hne
    · exact (hnext _ ih).resolve_left hne

/-- In particular all block headers are, if the first ones are. -/
theorem IsHeader.mem (hlist : s.FreeList = 0 ∨ s.FreeList ∈ H) (hused : ∀ x ∈ used, x ∈ H)
    (hprev : ∀ x ∈ H, s.prev x = 0 ∨ s.prev x ∈ H) (hnext : ∀ x ∈ H, s.next x = 0 ∨ s.next x ∈ H)
    (hx : IsHeader s used x) : x ∈ H := by
  obtain ⟨start, ⟨rfl, hne⟩ | hstart, hleads⟩ := hx
  · exact mem_of_leads hprev hnext (hlist.resolve_left hne) hleads
  · exact mem_of_leads hprev hnext (hused start hstart) hleads

theorem AlignedOn.aligned (h : AlignedOn s H) (hused : ∀ x ∈ used, x ∈ H) : Aligned s used :=
  ⟨h.brk, h.link h.list, fun _ hx => h.fields (hx.mem h.list hused h.prev h.next)⟩

/-- The links lead from block headers to block headers. -/
theorem IsHeader.tail (hx : IsHeader s used x) (hlink : s.prev x = value ∨ s.next x = value) :
    value = 0 ∨ IsHeader s used value := by
  obtain ⟨start, hstart, hleads⟩ := hx
  by_cases hzero : value = 0
  · exact Or.inl hzero
  · exact Or.inr ⟨start, hstart, hleads.tail ⟨hzero, hlink⟩⟩

/-- The block headers are such a set. -/
theorem Aligned.alignedOn (h : Aligned s used) : AlignedOn s {x | IsHeader s used x} where
  brk := h.brk
  list := by
    by_cases hzero : s.FreeList = 0
    · exact Or.inl hzero
    · exact Or.inr ⟨s.FreeList, Or.inl ⟨rfl, hzero⟩, .refl⟩
  addr := fun x hx => (h.headers x hx).addr
  prev := fun x hx => hx.tail (Or.inl rfl)
  next := fun x hx => hx.tail (Or.inr rfl)
  length := fun x hx => (h.headers x hx).length

theorem isHeader_of_used (hx : x ∈ used) : IsHeader s used x := ⟨x, Or.inr hx, .refl⟩

/-- A header can be added to those in use if it is aligned with all that it leads to. -/
theorem Aligned.cons (h : Aligned s used) (hx : AlignedHeader s x) : Aligned s (x :: used) := by
  refine ⟨h.brk, h.list, fun y hy => ?_⟩
  obtain ⟨start, hstart | hstart, hleads⟩ := hy
  · exact h.headers y ⟨start, Or.inl hstart, hleads⟩
  · obtain rfl | hstart := List.mem_cons.mp hstart
    · exact hx y hleads
    · exact h.headers y ⟨start, Or.inr hstart, hleads⟩

theorem Aligned.sub {used' : List Nat} (h : Aligned s used) (hsub : ∀ x ∈ used', x ∈ used) :
    Aligned s used' :=
  h.alignedOn.aligned fun x hx => isHeader_of_used (hsub x hx)

end Closed

section Stores

variable {s : State} {H : Set Nat} {block value : Nat}

theorem AlignedOn.set_prev (h : AlignedOn s H) (block : Nat) (hvalue : value = 0 ∨ value ∈ H) :
    AlignedOn (s.set_prev block value) H := by
  refine ⟨h.brk, h.list, h.addr, fun x hx => ?_, h.next, h.length⟩
  rw [State.set_prev_prev, Function.update_apply]
  split_ifs
  · exact hvalue
  · exact h.prev x hx

theorem AlignedOn.set_next (h : AlignedOn s H) (block : Nat) (hvalue : value = 0 ∨ value ∈ H) :
    AlignedOn (s.set_next block value) H := by
  refine ⟨h.brk, h.list, h.addr, h.prev, fun x hx => ?_, h.length⟩
  rw [State.set_next_next, Function.update_apply]
  split_ifs
  · exact hvalue
  · exact h.next x hx

theorem AlignedOn.set_length (h : AlignedOn s H) (block : Nat) (hvalue : AlignedWord value) :
    AlignedOn (s.set_length block value) H := by
  refine ⟨h.brk, h.list, h.addr, h.prev, h.next, fun x hx => ?_⟩
  rw [State.set_length_length, Function.update_apply]
  split_ifs
  · exact hvalue
  · exact h.length x hx

theorem AlignedOn.set_FreeList (h : AlignedOn s H) (hvalue : value = 0 ∨ value ∈ H) :
    AlignedOn { s with FreeList := value } H :=
  ⟨h.brk, hvalue, h.addr, h.prev, h.next, h.length⟩

theorem AlignedOn.set_brk (h : AlignedOn s H) (hvalue : AlignedWord value) :
    AlignedOn { s with brk := value } H :=
  ⟨hvalue, h.list, h.addr, h.prev, h.next, h.length⟩

theorem AlignedOn.set_errno (h : AlignedOn s H) (errno : Errno) : AlignedOn { s with errno := errno } H :=
  ⟨h.brk, h.list, h.addr, h.prev, h.next, h.length⟩

/-- A header that has been written can be added to the set. -/
theorem AlignedOn.insert (h : AlignedOn s H) (hblock : AlignedWord block)
    (hprev : s.prev block = 0 ∨ s.prev block ∈ H) (hnext : s.next block = 0 ∨ s.next block ∈ H)
    (hlength : AlignedWord (s.length block)) : AlignedOn s (insert block H) := by
  refine ⟨h.brk, h.list.imp_right (Set.mem_insert_of_mem block), ?_, ?_, ?_, ?_⟩
  · rintro x (rfl | hx)
    · exact hblock
    · exact h.addr x hx
  · rintro x (rfl | hx)
    · exact hprev.imp_right (Set.mem_insert_of_mem x)
    · exact (h.prev x hx).imp_right (Set.mem_insert_of_mem block)
  · rintro x (rfl | hx)
    · exact hnext.imp_right (Set.mem_insert_of_mem x)
    · exact (h.next x hx).imp_right (Set.mem_insert_of_mem block)
  · rintro x (rfl | hx)
    · exact hlength
    · exact h.length x hx

end Stores

section Operations

variable {s s' : State} {H : Set Nat} {b size : Nat}

theorem AlignedOn.block_init (h : AlignedOn s H) (b : Nat) : AlignedOn (block_init s b) H := by
  have hprev := h.set_prev b (Or.inl rfl)
  have hnext := hprev.set_next b (Or.inl rfl)
  exact hnext.set_length b alignedWord_zero

/-- A block is marked off at an aligned address. -/
theorem AlignedOn.init_insert (h : AlignedOn s H) {length : Nat} (hb : AlignedWord b)
    (hlength : AlignedWord length) :
    AlignedOn ((heap.block_init s b).set_length b length) (Insert.insert b H) := by
  refine ((h.block_init b).set_length b hlength).insert hb ?_ ?_ ?_
  · exact Or.inl (by simp [heap.block_init])
  · exact Or.inl (by simp [heap.block_init])
  · rw [State.set_length_length, Function.update_self]
    exact hlength

/-- The right part of a split block is a new header. -/
theorem AlignedOn.split (h : AlignedOn s H) (hb : b ∈ H) (hsize : AlignedWord size) {right : Nat}
    (hright : AlignedWord right) : AlignedOn (splitState s b size right) (Insert.insert right H) := by
  have hleft := ((h.length b hb).size_sub hsize).size_sub alignedWord_header
  have hlengths := (h.set_length right hleft).set_length b hsize
  have hprev := hlengths.set_prev right (Or.inr hb)
  have hnext := hprev.set_next right (hprev.next b hb)
  have hinsert := hnext.insert hright ?_ ?_ ?_
  · exact hinsert.set_next b (Or.inr (Set.mem_insert right H))
  · exact Or.inr (by simpa using hb)
  · rw [State.set_next_next, Function.update_self]
    exact hprev.next b hb
  · simp only [State.set_next_length, State.set_prev_length, State.set_length_length]
    rw [Function.update_apply]
    split_ifs
    · exact hsize
    · rw [Function.update_self]
      exact hleft

theorem AlignedOn.freelist_remove (h : AlignedOn s H) (hb : b ∈ H) : AlignedOn (freelist_remove s b) H := by
  have hprev := h.prev b hb
  have hnext := h.next b hb
  unfold heap.freelist_remove
  dsimp only
  split_ifs
  · exact (h.set_next _ hnext).set_prev _ hprev
  · exact h.set_next _ (Or.inl rfl)
  · exact (h.set_FreeList hnext).set_prev _ (Or.inl rfl)
  · exact h.set_FreeList (Or.inl rfl)

theorem AlignedOn.block_merge (h : AlignedOn s H) {left right : Nat} (hleft : left ∈ H) (hright : right ∈ H) :
    AlignedOn (block_merge s left right).1 H := by
  have hsum := (h.length left hleft).size_add ((h.length right hright).size_add alignedWord_header)
  have hlength := h.set_length left hsum
  have hnext := hlength.set_next left (hlength.next right hright)
  unfold heap.block_merge
  dsimp only
  split_ifs
  · exact (hnext.set_prev _ (Or.inr hleft)).block_init right
  · exact hnext.block_init right

/-- A block is put before another one, as far as the two of them are concerned. -/
theorem AlignedOn.link_before (h : AlignedOn s H) {fn : Nat} (hb : b ∈ H) (hfn : fn ∈ H) :
    AlignedOn (((s.set_next b fn).set_prev b ((s.set_next b fn).prev fn)).set_prev fn b) H := by
  have hnext := h.set_next b (Or.inr hfn)
  have hprev := hnext.set_prev b (hnext.prev fn hfn)
  exact hprev.set_prev fn (Or.inr hb)

/-- One iteration of the search for the place of a block, between two headers. -/
theorem AlignedOn.insert_body (h : AlignedOn s H) (hb : b ∈ H) {pos : Nat × Nat} {flow : Flow (Nat × Nat) State}
    (hpos : (pos.1 = 0 ∨ pos.1 ∈ H) ∧ (pos.2 = 0 ∨ pos.2 ∈ H))
    (hrun : freelist_insert_body s b pos = .ok flow) :
    match flow with
    | .cont next => (next.1 = 0 ∨ next.1 ∈ H) ∧ (next.2 = 0 ∨ next.2 ∈ H)
    | .done s' => AlignedOn s' H := by
  obtain ⟨last, fn⟩ := pos
  obtain ⟨hlast, hfn⟩ := hpos
  unfold freelist_insert_body at hrun
  dsimp only at hrun hlast hfn
  split_ifs at hrun with hne heq hlt hfirst
  · cases hrun
    exact h
  · cases hrun
    exact (h.link_before hb (hfn.resolve_left hne)).set_next last (Or.inr hb)
  · cases hrun
    exact (h.link_before hb (hfn.resolve_left hne)).set_FreeList (Or.inr hb)
  · cases hrun
    exact ⟨hfn, h.next fn (hfn.resolve_left hne)⟩
  · cases hrun
    have hnext := h.set_next last (Or.inr hb)
    exact (hnext.set_prev b hlast).set_next b (Or.inl rfl)

theorem AlignedOn.freelist_insert (h : AlignedOn s H) (hb : b ∈ H) (hrun : freelist_insert s b = .ok s') :
    AlignedOn s' H := by
  unfold heap.freelist_insert at hrun
  split_ifs at hrun
  · cases hrun
    exact h.set_FreeList (Or.inr hb)
  · refine loop_ok_of_invariant (fun pos : Nat × Nat => (pos.1 = 0 ∨ pos.1 ∈ H) ∧ (pos.2 = 0 ∨ pos.2 ∈ H))
      (fun s' => AlignedOn s' H) ?_ ?_ ⟨Or.inl rfl, h.list⟩ hrun
    · exact fun pos next hpos hbody => h.insert_body hb hpos hbody
    · exact fun pos last hpos hbody => h.insert_body hb hpos hbody

/-- A block that is taken off the list, with a new length. -/
theorem AlignedOn.take (h : AlignedOn s H) (hb : b ∈ H) {length : Nat} (hlength : AlignedWord length) :
    AlignedOn ((heap.block_init (heap.freelist_remove s b) b).set_length b length) H :=
  ((h.freelist_remove hb).block_init b).set_length b hlength

/-- One iteration of the search for a free block. -/
theorem AlignedOn.get_free_block_body (h : AlignedOn s H) (hsize : AlignedWord size) (hb : b = 0 ∨ b ∈ H)
    {flow : Flow Nat (State × Nat)} (hrun : freelist_get_free_block_body s size b = .ok flow) :
    match flow with
    | .cont next => next = 0 ∨ next ∈ H
    | .done (s', block) => ∃ H', H ⊆ H' ∧ AlignedOn s' H' ∧ (block = 0 ∨ block ∈ H') := by
  unfold freelist_get_free_block_body at hrun
  dsimp only at hrun
  split_ifs at hrun with hne hsplit hfit
  · have hmem := hb.resolve_left hne
    have hright := ((h.addr b hmem).size_add alignedWord_header).size_add hsize
    rw [block_split_eq s hsplit rfl] at hrun
    cases hrun
    have hmem' := Set.mem_insert_of_mem (size_add (size_add b sizeof_freelist_node) size) hmem
    exact ⟨_, Set.subset_insert _ H, (h.split hmem hsize hright).take hmem' hsize, Or.inr hmem'⟩
  · have hmem := hb.resolve_left hne
    cases hrun
    exact ⟨H, subset_rfl, h.take hmem (h.length b hmem), Or.inr hmem⟩
  · cases hrun
    exact h.next b (hb.resolve_left hne)
  · cases hrun
    exact ⟨H, subset_rfl, h, Or.inl rfl⟩

theorem AlignedOn.freelist_get_free_block (h : AlignedOn s H) (hsize : AlignedWord size)
    (hb : b = 0 ∨ b ∈ H) {block : Nat} (hrun : freelist_get_free_block s b size = .ok (s', block)) :
    ∃ H', H ⊆ H' ∧ AlignedOn s' H' ∧ (block = 0 ∨ block ∈ H') := by
  refine loop_ok_of_invariant (fun b => b = 0 ∨ b ∈ H)
    (fun r : State × Nat => ∃ H', H ⊆ H' ∧ AlignedOn r.1 H' ∧ (r.2 = 0 ∨ r.2 ∈ H')) ?_ ?_ hb hrun
  · exact fun b next hb hbody => h.get_free_block_body hsize hb hbody
  · exact fun b last hb hbody => h.get_free_block_body hsize hb hbody

/-- `sbrk` moves the break by a multiple of 8, and returns where it was. -/
theorem AlignedOn.sbrk (h : AlignedOn s H) (granted : Bool) {increment : Nat}
    (hincrement : AlignedWord increment) :
    AlignedOn (sbrk s granted increment).1 H ∧
      ((sbrk s granted increment).2 ≠ SBRK_FAILED → AlignedWord (sbrk s granted increment).2) := by
  unfold heap.sbrk
  dsimp only
  split_ifs with hmoved
  · refine ⟨h.set_brk ?_, fun _ => h.brk⟩
    have hbrk := h.brk
    unfold AlignedWord to_signed at *
    split_ifs at hmoved ⊢ <;> omega
  · exact ⟨h.set_errno _, fun hne => absurd rfl hne⟩

theorem AlignedOn.merge_neighbours (h : AlignedOn s H) (hb : b ∈ H) : AlignedOn (merge_neighbours s b) H := by
  have hprev := h.prev b hb
  have hnext := h.next b hb
  -- the block that is left after the first merge, and its state
  obtain ⟨t, c, hfirst, ht, hc⟩ : ∃ t c,
      (if s.prev b ≠ 0 ∧ adjacent s (s.prev b) b then heap.block_merge s (s.prev b) b else (s, b)) = (t, c) ∧
        AlignedOn t H ∧ c ∈ H := by
    split_ifs with hmerge
    · have hmem := hprev.resolve_left hmerge.1
      exact ⟨_, s.prev b, rfl, h.block_merge hmem hb, hmem⟩
    · exact ⟨s, b, rfl, h, hb⟩
  unfold heap.merge_neighbours
  dsimp only
  rw [hfirst]
  dsimp only
  split_ifs with hmerge
  · exact ht.block_merge hc (hnext.resolve_left hmerge.1)
  · exact ht

theorem AlignedOn.freelist_last (h : AlignedOn s H) {last : Nat} (hrun : freelist_last s = .ok last) :
    last = 0 ∨ last ∈ H := by
  refine loop_ok_of_invariant (fun pos : Nat × Nat => (pos.1 = 0 ∨ pos.1 ∈ H) ∧ (pos.2 = 0 ∨ pos.2 ∈ H))
    (fun last => last = 0 ∨ last ∈ H) ?_ ?_ ⟨Or.inl rfl, h.list⟩ hrun
  · intro pos next hpos hbody
    split_ifs at hbody with hne
    · cases hbody
      exact ⟨hpos.2, h.next pos.2 (hpos.2.resolve_left hne)⟩
    · cases hbody
  · intro pos last hpos hbody
    split_ifs at hbody with hne
    · cases hbody
    · cases hbody
      exact hpos.1

/-- `xmalloc` hands out the address behind a header of the set, to which it may have added some. -/
theorem AlignedOn.xmalloc (h : AlignedOn s H) {granted : Bool} {ptr : Nat} (hsize : AlignedWord size)
    (hrun : xmalloc s granted size = .ok (s', ptr)) :
    ∃ H', H ⊆ H' ∧ AlignedOn s' H' ∧ (ptr = 0 ∨ ∃ block ∈ H', ptr = user_addr block) := by
  unfold heap.xmalloc at hrun
  obtain ⟨⟨s₁, b₁⟩, hfirst, hrun⟩ := exec_bind_eq_ok_iff.mp hrun
  obtain ⟨H₁, hsub₁, h₁, hb₁⟩ := h.freelist_get_free_block hsize h.list hfirst
  have halloc := (hsize.size_add alignedWord_header).xmax (b := MIN_HEAP_ALLOC_SIZE) (by decide)
  obtain ⟨h₂, hbreak⟩ := h₁.sbrk granted halloc
  dsimp only at hrun
  split_ifs at hrun with hfound hfailed
  · cases hrun
    exact ⟨H₁, hsub₁, h₁, Or.inr ⟨b₁, hb₁.resolve_left hfound, rfl⟩⟩
  · cases hrun
    exact ⟨H₁, hsub₁, h₂.set_errno _, Or.inl rfl⟩
  · have hnew := hbreak hfailed
    have hlength := (h₂.brk.size_sub hnew).size_sub alignedWord_header
    have h₃ := h₂.init_insert hnew hlength
    obtain ⟨s₄, hinsert, hrun⟩ := exec_bind_eq_ok_iff.mp hrun
    have h₄ := h₃.freelist_insert (Set.mem_insert _ H₁) hinsert
    obtain ⟨⟨s₅, b₅⟩, hsecond, hrun⟩ := exec_bind_eq_ok_iff.mp hrun
    obtain ⟨H₅, hsub₅, h₅, hb₅⟩ := h₄.freelist_get_free_block hsize (Or.inr (Set.mem_insert _ H₁)) hsecond
    obtain ⟨_, hassert, hrun⟩ := exec_bind_eq_ok_iff.mp hrun
    cases hrun
    have hne : b₅ ≠ 0 := by
      rintro rfl
      cases hassert
    refine ⟨H₅, fun x hx => hsub₅ (Set.mem_insert_of_mem _ (hsub₁ hx)), h₅, Or.inr ⟨b₅, ?_, rfl⟩⟩
    exact hb₅.resolve_left hne

theorem AlignedOn.xfree (h : AlignedOn s H) {ptr : Nat} (hptr : ptr ≠ 0 → malloc_addr ptr ∈ H)
    (hrun : xfree s ptr = .ok s') : AlignedOn s' H := by
  unfold heap.xfree xfree_merged at hrun
  split_ifs at hrun with hzero
  · cases hrun
    exact h
  · obtain ⟨⟨t, last⟩, hmerged, hrun⟩ := exec_bind_eq_ok_iff.mp hrun
    obtain ⟨s₁, hinsert, hmerged⟩ := exec_bind_eq_ok_iff.mp hmerged
    obtain ⟨last', hlast, hmerged⟩ := exec_bind_eq_ok_iff.mp hmerged
    cases hmerged
    have h₁ := (h.freelist_insert (hptr hzero) hinsert).merge_neighbours (hptr hzero)
    have hmem := h₁.freelist_last hlast
    dsimp only at hrun
    split_ifs at hrun with hshrink
    · cases hrun
      have hne : last ≠ 0 := by
        rintro rfl
        simp [shrinks] at hshrink
      have hlast := hmem.resolve_left hne
      exact (h₁.freelist_remove hlast).set_brk (h₁.addr last hlast)
    · cases hrun
      exact h₁

end Operations

section Calls

variable {s s' : State} {used : List Nat} {ptr size : Nat}

theorem malloc_addr_user_addr_of_aligned {block : Nat} (h : AlignedWord block) :
    malloc_addr (user_addr block) = block := by
  have hlt := h.1
  unfold malloc_addr user_addr size_add size_sub sizeof_freelist_node
  omega

/-- `xmalloc` keeps the heap aligned for every request of a multiple of 8, and what it returns
    is one. -/
theorem Aligned.xmalloc (h : Aligned s used) {granted : Bool} (hsize : AlignedWord size)
    (hrun : xmalloc s granted size = .ok (s', ptr)) :
    8 ∣ ptr ∧ Aligned s' (if ptr = 0 then used else malloc_addr ptr :: used) := by
  obtain ⟨H, hsub, h', hptr⟩ := h.alignedOn.xmalloc hsize hrun
  have hused (x : Nat) (hx : x ∈ used) : x ∈ H := hsub (isHeader_of_used hx)
  obtain rfl | ⟨block, hblock, rfl⟩ := hptr
  · exact ⟨alignedWord_zero.2, h'.aligned hused⟩
  · have haddr := h'.addr block hblock
    refine ⟨(haddr.size_add alignedWord_header).2, ?_⟩
    split_ifs
    · exact h'.aligned hused
    · rw [malloc_addr_user_addr_of_aligned haddr]
      refine h'.aligned fun x hx => ?_
      obtain rfl | hx := List.mem_cons.mp hx
      · exact hblock
      · exact hused x hx

/-- `xfree` keeps the heap aligned for every pointer with an aligned header. -/
theorem Aligned.xfree (h : Aligned s used) (hptr : ptr ≠ 0 → AlignedHeader s (malloc_addr ptr))
    (hrun : xfree s ptr = .ok s') : Aligned s' used := by
  by_cases hzero : ptr = 0
  · rw [heap.xfree, if_pos hzero] at hrun
    cases hrun
    exact h
  · have hall := (h.cons (hptr hzero)).alignedOn
    have h' := hall.xfree (fun _ => isHeader_of_used (List.mem_cons_self)) hrun
    exact h'.aligned fun x hx => isHeader_of_used (List.mem_cons_of_mem _ hx)

end Calls

end tlpi.heap
