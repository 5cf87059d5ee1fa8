import Tlpi.Xmalloc.Align
import Tlpi.Xmalloc.Runs

namespace tlpi.heap

/-- The headers of the blocks in the hands of the user. -/
def Config.used (c : Config) : List Nat := c.live.map fun a => malloc_addr a.ptr

def Config.Aligned (c : Config) : Prop := heap.Aligned c.state c.used

/-- Requests are multiples of 8, what is freed is a live pointer or one with an aligned header,
    and no block header is overwritten. -/
def AlignedCall (c : Config) : Event → Prop
  | .xmalloc size _ => AlignedWord size
  | .xfree ptr => ptr = 0 ∨ (∃ a ∈ c.live, a.ptr = ptr) ∨ AlignedHeader c.state (malloc_addr ptr)
  | .store addr _ _ _ => ¬ IsHeader c.state c.used addr

/-- A pointer that is returned is a multiple of 8. -/
def ReturnsAligned (c : Config) : Event → Prop
  | .xmalloc size granted => ∀ s' ptr, xmalloc c.state granted size = .ok (s', ptr) → 8 ∣ ptr
  | _ => True

section Runs

variable {c c' : Config}

/-- A store to what is no block header. -/
theorem Aligned.store {s : State} {used : List Nat} {addr : Nat} (h : Aligned s used)
    (hout : ¬ IsHeader s used addr) (prev next length : Nat) :
    Aligned (((s.set_prev addr prev).set_next addr next).set_length addr length) used := by
  have hon := h.alignedOn
  have hne (x : Nat) (hx : IsHeader s used x) : x ≠ addr := by
    rintro rfl
    exact hout hx
  refine AlignedOn.aligned (H := {x | IsHeader s used x}) ⟨hon.brk, hon.list, hon.addr, fun x hx => ?_,
    fun x hx => ?_, fun x hx => ?_⟩ fun x hx => isHeader_of_used hx
  · simpa [Function.update_of_ne (hne x hx)] using hon.prev x hx
  · simpa [Function.update_of_ne (hne x hx)] using hon.next x hx
  · simpa [Function.update_of_ne (hne x hx)] using hon.length x hx

theorem exec_aligned (e : Event) (h : c.Aligned) (hcall : AlignedCall c e) (hexec : exec c e = .ok c') :
    c'.Aligned := by
  cases e with
  | xmalloc size granted =>
    obtain ⟨⟨s', ptr⟩, hrun, hexec⟩ := exec_bind_eq_ok_iff.mp hexec
    obtain ⟨_, h'⟩ := Aligned.xmalloc h hcall hrun
    cases hexec
    split_ifs at h' ⊢
    · exact h'
    · exact h'
  | xfree ptr =>
    obtain ⟨s', hrun, hexec⟩ := exec_bind_eq_ok_iff.mp hexec
    cases hexec
    have h' : Aligned s' c.used := by
      refine Aligned.xfree h (fun hne => ?_) hrun
      obtain ⟨a, ha, rfl⟩ | hheader := hcall.resolve_left hne
      · exact fun y hleads => h.headers y ⟨_, Or.inr (List.mem_map_of_mem ha), hleads⟩
      · exact hheader
    refine h'.sub fun x hx => ?_
    obtain ⟨a, ha, rfl⟩ := List.mem_map.mp hx
    exact List.mem_map_of_mem (List.mem_of_mem_eraseP ha)
  | store addr prev next length =>
    cases hexec
    exact Aligned.store h hcall prev next length

/-- Before the first call there is no header, whatever is in memory. -/
theorem aligned_of_empty {s : State} (hempty : s.FreeList = 0) (hbrk : AlignedWord s.brk) :
    Config.Aligned ⟨s, []⟩ := by
  have hon : AlignedOn s ∅ := ⟨hbrk, Or.inl hempty, by simp, by simp, by simp, by simp⟩
  exact hon.aligned (by simp [Config.used])

theorem returnsAligned_of_aligned (e : Event) (h : c.Aligned) (hcall : AlignedCall c e) :
    ReturnsAligned c e := by
  cases e with
  | xmalloc size granted => exact fun s' ptr hrun => (Aligned.xmalloc h hcall hrun).1
  | xfree ptr => trivial
  | store addr prev next length => trivial

end Runs

/-- Of the requests only the size counts here. -/
def AlignedRequest : Event → Prop
  | .xmalloc size _ => 8 ∣ size
  | _ => True

instance (e : Event) : Decidable (AlignedRequest e) :=
  match e with
  | .xmalloc size _ => inferInstanceAs (Decidable (8 ∣ size))
  | .xfree _ => isTrue trivial
  | .store _ _ _ _ => isTrue trivial

section Careful

variable {c : Config} {s : State} {free live : List Block} {x : Nat}

/-- The links of the free blocks lead to free blocks, and those of the live blocks nowhere. -/
theorem Consistent.links (h : Consistent s free live) (hx : x ∈ (free ++ live).map Block.addr) :
    (s.prev x = 0 ∨ s.prev x ∈ (free ++ live).map Block.addr) ∧
      (s.next x = 0 ∨ s.next x ∈ (free ++ live).map Block.addr) := by
  rw [List.map_append] at hx ⊢
  obtain hx | hx := List.mem_append.mp hx
  · have hlinked := h.linked
    obtain ⟨l₁, l₂, hsplit⟩ := List.append_of_mem hx
    rw [hsplit] at hlinked
    rw [hlinked.prev_mid, hlinked.next_mid, hsplit]
    constructor
    · obtain hzero | hmem := List.mem_cons.mp (getLastD_mem 0 l₁)
      · exact Or.inl hzero
      · exact Or.inr (List.mem_append_left _ (List.mem_append_left _ hmem))
    · cases l₂ with
      | nil => exact Or.inl rfl
      | cons y l₂ => exact Or.inr (by simp)
  · obtain ⟨b, hb, rfl⟩ := List.mem_map.mp hx
    obtain ⟨hprev, hnext⟩ := h.reset b hb
    exact ⟨Or.inl hprev, Or.inl hnext⟩

theorem Config.used_eq (c : Config) : c.used = c.blocks.map Block.addr := by
  rw [Config.used, Config.blocks, List.map_map]
  refine List.map_congr_left fun a _ => ?_
  rw [Function.comp_apply, Allocation.block]

/-- The block headers are those of the free and the live blocks. -/
theorem Config.Inv.header_mem (h : c.Inv) (hx : IsHeader c.state c.used x) :
    x ∈ (c.state.freeBlocks ++ c.blocks).map Block.addr := by
  have hcons := h.wellFormed.toConsistent
  refine hx.mem (H := {x | x ∈ (c.state.freeBlocks ++ c.blocks).map Block.addr}) ?_ (fun y hy => ?_)
    (fun y hy => (hcons.links hy).1) (fun y hy => (hcons.links hy).2)
  · rw [hcons.linked.head]
    cases hfree : c.state.freeBlocks with
    | nil => exact Or.inl rfl
    | cons b rest => exact Or.inr (by simp)
  · rw [c.used_eq] at hy
    simp only [Set.mem_ofPred_eq, List.map_append]
    exact List.mem_append_right _ hy

/-- Where the blocks do not overlap, a user who keeps to the contract overwrites no header. -/
theorem Config.Inv.alignedCall (h : c.Inv) (e : Event) (hallowed : Allowed c e) (hrequest : AlignedRequest e) :
    AlignedCall c e := by
  cases e with
  | xmalloc size granted =>
    refine ⟨?_, hrequest⟩
    have : size + sizeof_freelist_node < 2 ^ 63 := hallowed
    omega
  | xfree ptr => exact Or.inr (Or.inl hallowed)
  | store addr prev next length =>
    intro hheader
    obtain ⟨d, hd, heq⟩ := List.mem_map.mp (h.header_mem hheader)
    exact h.store_addr_ne hallowed hd heq

theorem Config.Aligned.live_dvd (h : c.Aligned) (hptrs : ∀ a ∈ c.live, user_addr (malloc_addr a.ptr) = a.ptr) :
    ∀ a ∈ c.live, 8 ∣ a.ptr := by
  intro a ha
  have haddr := (h.headers _ (isHeader_of_used (List.mem_map_of_mem ha))).addr
  have hptr := (haddr.size_add alignedWord_header).2
  rw [← hptrs a ha]
  exact hptr

/-- In every run of allowed calls that stay clear of the two defects, with requests of multiples
    of 8, no call fails to return, the heap stays aligned, and all live pointers are multiples
    of 8. -/
theorem careful_runs_aligned (s : State) (events : List Event) (hfresh : Fresh s) (hbrk : 8 ∣ s.brk)
    (hallowed : Along exec Allowed ⟨s, []⟩ events) (hcareful : Along exec Careful ⟨s, []⟩ events)
    (hrequests : ∀ e ∈ events, AlignedRequest e) :
    Always exec (fun c => c.Aligned ∧ ∀ a ∈ c.live, 8 ∣ a.ptr) ⟨s, []⟩ events := by
  have hrequests : Along exec (fun _ e => AlignedRequest e) ⟨s, []⟩ events :=
    Along.of_forall _ fun e he _ => hrequests e he
  have hstep (c : Config) (e : Event) (h : c.Inv ∧ c.Aligned)
      (hok : (Allowed c e ∧ Careful c e) ∧ AlignedRequest e) : ∃ c', exec c e = .ok c' ∧ c'.Inv ∧ c'.Aligned := by
    obtain ⟨c', hexec, hinv⟩ := exec_inv e h.1 hok.1
    exact ⟨c', hexec, hinv, exec_aligned e h.2 (h.1.alignedCall e hok.1.1 hok.2) hexec⟩
  have hstart := aligned_of_empty hfresh.empty ⟨hfresh.brk_lt, hbrk⟩
  exact Always.of_invariant hstep (fun c h => ⟨h.2, h.2.live_dvd h.1.ptrs⟩) ⟨hfresh.inv, hstart⟩
    ((hallowed.and hcareful).and hrequests)

/-- The calls of such a run are aligned ones. -/
theorem careful_alignedCalls (s : State) (events : List Event) (hfresh : Fresh s)
    (hallowed : Along exec Allowed ⟨s, []⟩ events) (hcareful : Along exec Careful ⟨s, []⟩ events)
    (hrequests : ∀ e ∈ events, AlignedRequest e) : Along exec AlignedCall ⟨s, []⟩ events := by
  have hrequests : Along exec (fun _ e => AlignedRequest e) ⟨s, []⟩ events :=
    Along.of_forall _ fun e he _ => hrequests e he
  refine Along.of_invariant ?_ ?_ hfresh.inv ((hallowed.and hcareful).and hrequests)
  · exact fun c e h hok => h.alignedCall e hok.1.1 hok.2
  · intro c e c' h hok hexec
    obtain ⟨c'', hexec', hinv⟩ := exec_inv e h hok.1
    rw [hexec] at hexec'
    cases hexec'
    exact hinv

end Careful

/-- Alignment is kept by `xmalloc` for every size that is a multiple of 8 and by `xfree` for
    every pointer with an aligned header, so that in every run of such calls from an aligned
    break all pointers that are returned are multiples of 8. -/
theorem alignment_preserved :
    (∀ (s : State) (used : List Nat) (granted : Bool) (size : Nat) (s' : State) (ptr : Nat),
      Aligned s used → AlignedWord size → xmalloc s granted size = .ok (s', ptr) →
        8 ∣ ptr ∧ Aligned s' (if ptr = 0 then used else malloc_addr ptr :: used)) ∧
    (∀ (s : State) (used : List Nat) (ptr : Nat) (s' : State),
      Aligned s used → (ptr ≠ 0 → AlignedHeader s (malloc_addr ptr)) → xfree s ptr = .ok s' →
        Aligned s' used) ∧
    ∀ (s : State) (events : List Event), s.FreeList = 0 → AlignedWord s.brk →
      Along exec AlignedCall ⟨s, []⟩ events → Along exec ReturnsAligned ⟨s, []⟩ events := by
  refine ⟨?_, ?_, ?_⟩
  · exact fun s used granted size s' ptr h hsize hrun => h.xmalloc hsize hrun
  · exact fun s used ptr s' h hptr hrun => h.xfree hptr hrun
  · intro s events hempty hbrk hcalls
    refine Along.of_invariant ?_ ?_ (aligned_of_empty hempty hbrk) hcalls
    · exact fun c e h hcall => returnsAligned_of_aligned e h hcall
    · exact fun c e c' h hcall hexec => exec_aligned e h hcall hexec

/-- A run of requests that are multiples of 8, with a store and frees of live pointers. -/
def alignedRun : List Event :=
  [.xmalloc 96 true, .xmalloc 3000 true, .xmalloc 5000 false, .xmalloc 5000 true,
    .store 5000 1 2 3, .xfree 4120, .xfree 8216, .xfree 4240]

/-- A heap with one block, in use. -/
def oneBlock : State := { emptyHeap with length := fun x => if x = 4096 then 4072 else 0, brk := 8192 }

theorem oneBlock_alignedOn : AlignedOn oneBlock {4096} := by
  refine ⟨by decide, Or.inl rfl, ?_, fun x _ => Or.inl rfl, fun x _ => Or.inl rfl, ?_⟩
  · rintro x rfl
    decide
  · rintro x rfl
    decide

theorem alignedRun_returns :
    (∃ s', xmalloc emptyHeap true 96 = .ok (s', 4120) ∧ 8 ∣ 4120 ∧ Aligned s' [4096]) ∧
      (∃ s', xfree oneBlock 4120 = .ok s' ∧ Aligned s' []) ∧
      Along exec ReturnsAligned ⟨emptyHeap, []⟩ alignedRun := by
  obtain ⟨hmalloc, hfree, hruns⟩ := alignment_preserved
  refine ⟨?_, ?_, ?_⟩
  · have hcheck : (xmalloc emptyHeap true 96).toOption.map Prod.snd = some 4120 := by decide +kernel
    cases hrun : xmalloc emptyHeap true 96 with
    | error fault =>
      rw [hrun] at hcheck
      cases hcheck
    | ok result =>
      obtain ⟨s', ptr⟩ := result
      rw [hrun] at hcheck
      obtain rfl : ptr = 4120 := Option.some.inj hcheck
      exact ⟨s', rfl, hmalloc emptyHeap [] true 96 s' 4120 (aligned_of_empty rfl (by decide)) (by decide) hrun⟩
  · have hused : Aligned oneBlock [4096] := oneBlock_alignedOn.aligned (by simp)
    have hcheck : (xfree oneBlock 4120).toOption.isSome = true := by decide +kernel
    cases hrun : xfree oneBlock 4120 with
    | error fault =>
      rw [hrun] at hcheck
      cases hcheck
    | ok s' =>
      refine ⟨s', rfl, hfree oneBlock [] 4120 s' (hused.sub (by simp)) (fun _ y hleads => ?_) hrun⟩
      exact hused.headers y ⟨4096, Or.inr (by simp), hleads⟩
  · exact hruns emptyHeap alignedRun rfl (by decide) (careful_alignedCalls emptyHeap alignedRun emptyHeap_fresh
      (by decide +kernel) (by decide +kernel) (by decide))

end tlpi.heap
