import Tlpi.Proctree.Build

namespace tlpi.proctree

/-- The links of a table in both directions. The array of an entry lists exactly the processes
    that name it as their parent, in the order of their pids, and is as long as its capacity
    says; a process has a parent exactly when it is listed there. -/
structure LinksAgree (table : List Status) (procs : List Entry) : Prop where
  length : procs.length = table.length
  fields : ∀ (i : Nat) (a : Status), table[i]? = some a →
    ∃ p, procs[i]? = some p ∧ p.pid = a.pid ∧ p.ppid = a.ppid ∧ p.name = a.name
  room : ∀ p ∈ procs, p.nr_child ≤ p.max_child ∧ p.children.length = p.max_child
  children : ∀ p ∈ procs, ∃ list : List Nat, p.children.take p.nr_child = list.map some ∧ list.Nodup ∧
    (list.Pairwise fun i k => ∀ q r : Entry, procs[i]? = some q → procs[k]? = some r → q.pid < r.pid) ∧
    ∀ i : Nat, i ∈ list ↔ ∃ q, procs[i]? = some q ∧ q.pid ≠ 1 ∧ q.ppid = p.pid
  parent : ∀ (i : Nat) (q : Entry) (j : Nat), procs[i]? = some q →
    (q.parent = some j ↔ ∃ p, procs[j]? = some p ∧ some i ∈ p.children.take p.nr_child)
  orphan : ∀ q ∈ procs, q.pid = 1 ∨ q.ppid = 0 → q.parent = none

section Kids

variable {table : List Status} {procs : List Entry} {n i j : Nat}

theorem status_of_is_child (h : is_child table j i = true) :
    ∃ a b, table[i]? = some a ∧ table[j]? = some b ∧ a.pid ≠ 1 ∧ a.ppid = b.pid := by
  unfold is_child at h
  split at h
  · rename_i a b ha hb
    exact ⟨a, b, ha, hb, of_decide_eq_true h⟩
  · cases h

theorem mem_kids_iff : i ∈ kids table table.length j ↔ is_child table j i = true := by
  rw [kids, List.mem_filter, List.mem_range]
  constructor
  · intro h
    exact h.2
  · intro h
    obtain ⟨a, _, ha, _⟩ := status_of_is_child h
    exact ⟨(List.getElem?_eq_some_iff.mp ha).1, h⟩

/-- The children of a process stand in the order of the table. -/
theorem kids_sorted (table : List Status) (n j : Nat) : (kids table n j).Pairwise (· < ·) :=
  List.Pairwise.filter _ List.pairwise_lt_range

/-- The parent is the process that has this one among its children. -/
theorem parent_of_iff (hsorted : Sorted table) :
    parent_of table i = some j ↔ is_child table j i = true := by
  constructor
  · intro h
    cases hi : table[i]? with
    | none => simp [parent_of, hi] at h
    | some a =>
      simp only [parent_of, hi, Option.bind_eq_bind, Option.bind_some] at h
      split at h
      · cases h
      · rename_i hlooked
        obtain ⟨hlt, hpid, _⟩ := List.findIdx?_eq_some_iff_getElem.mp h
        rw [is_child_iff hi (List.getElem?_eq_getElem hlt)]
        exact ⟨(not_or.mp hlooked).1, (of_decide_eq_true hpid).symm⟩
  · intro h
    obtain ⟨a, b, ha, hb, hinit, hppid⟩ := status_of_is_child h
    have hpos := hsorted.positive b (List.mem_of_getElem? hb)
    exact parent_of_eq hsorted ha hb hinit (by omega) hppid.symm

/-- The cells in use of the array of a linked entry. -/
theorem Shows.cells_in_use {p : Entry} {a : Status} {parent : Option Nat} {list : List Nat}
    (h : Shows p a parent list) : p.children.take p.nr_child = list.map some := by
  obtain ⟨junk, hcells⟩ := h.cells
  rw [hcells, h.count, List.take_left' (List.length_map some)]

theorem Shows.count_le {p : Entry} {a : Status} {parent : Option Nat} {list : List Nat}
    (h : Shows p a parent list) : p.nr_child ≤ p.max_child := by
  obtain ⟨junk, hcells⟩ := h.cells
  have hsize := h.size
  rw [hcells, List.length_append, List.length_map] at hsize
  rw [h.count]
  omega

/-- Being a child, read off the finished table. -/
theorem is_child_iff_entry {p : Entry} (hlinked : Linked table table.length procs)
    (hj : procs[j]? = some p) :
    is_child table j i = true ↔ ∃ q, procs[i]? = some q ∧ q.pid ≠ 1 ∧ q.ppid = p.pid := by
  obtain ⟨b, hb, hshows⟩ := hlinked.status hj
  constructor
  · intro h
    obtain ⟨a, b', ha, hb', hinit, hppid⟩ := status_of_is_child h
    obtain rfl : b = b' := Option.some.inj (hb.symm.trans hb')
    obtain ⟨q, hq, hshows'⟩ := hlinked.entry i a ha
    refine ⟨q, hq, ?_, ?_⟩
    · rwa [hshows'.pid]
    · rw [hshows'.ppid, hppid, hshows.pid]
  · rintro ⟨q, hq, hinit, hppid⟩
    obtain ⟨a, ha, hshows'⟩ := hlinked.status hq
    rw [hshows'.pid] at hinit
    rw [hshows'.ppid, hshows.pid] at hppid
    exact (is_child_iff ha hb).mpr ⟨hinit, hppid⟩

/-- A table in which every process has been linked. -/
theorem Linked.agree (hlinked : Linked table table.length procs) (hsorted : Sorted table) :
    LinksAgree table procs where
  length := hlinked.length
  fields := by
    intro i a hi
    obtain ⟨p, hp, hshows⟩ := hlinked.entry i a hi
    exact ⟨p, hp, hshows.pid, hshows.ppid, hshows.name⟩
  room := by
    intro p hp
    obtain ⟨j, hj⟩ := List.getElem?_of_mem hp
    obtain ⟨a, _, hshows⟩ := hlinked.status hj
    exact ⟨hshows.count_le, hshows.size⟩
  children := by
    intro p hp
    obtain ⟨j, hj⟩ := List.getElem?_of_mem hp
    obtain ⟨a, _, hshows⟩ := hlinked.status hj
    refine ⟨kids table table.length j, hshows.cells_in_use,
      (kids_sorted table table.length j).imp Nat.ne_of_lt, ?_, fun i => ?_⟩
    · apply (kids_sorted table table.length j).imp
      intro i k hik q r hq hr
      exact getElem?_lt (hlinked.increasing hsorted) hq hr hik
    · rw [mem_kids_iff, is_child_iff_entry hlinked hj]
  parent := by
    intro i q j hi
    obtain ⟨a, ha, hshows⟩ := hlinked.status hi
    rw [hshows.parent, if_pos (List.getElem?_eq_some_iff.mp ha).1, parent_of_iff hsorted]
    constructor
    · intro hchild
      obtain ⟨_, b, _, hb, _⟩ := status_of_is_child hchild
      obtain ⟨p, hp, hshows'⟩ := hlinked.entry j b hb
      refine ⟨p, hp, ?_⟩
      rw [hshows'.cells_in_use]
      exact List.mem_map_of_mem (mem_kids_iff.mpr hchild)
    · rintro ⟨p, hp, hmem⟩
      obtain ⟨b, hb, hshows'⟩ := hlinked.status hp
      rw [hshows'.cells_in_use] at hmem
      obtain ⟨i', hi', heq⟩ := List.mem_map.mp hmem
      obtain rfl : i' = i := Option.some.inj heq
      exact mem_kids_iff.mp hi'
  orphan := by
    intro q hq horphan
    obtain ⟨i, hi⟩ := List.getElem?_of_mem hq
    obtain ⟨a, ha, hshows⟩ := hlinked.status hi
    rw [hshows.pid, hshows.ppid] at horphan
    rw [hshows.parent, if_pos (List.getElem?_eq_some_iff.mp ha).1]
    simp [parent_of, ha, horphan]

end Kids

/-- `proctree_build_tree` links every process with its parent in both directions, each store in
    an array below its capacity at that moment, and returns the entry of `init` if there is one. -/
theorem proctree_build_tree_links {table : List Status} {realloc : Nat → Bool} (hvalid : Valid table)
    (hrealloc : ∀ i, realloc i = true) :
    ∃ procs root, proctree_build_tree realloc (table.map new_entry) = .ok (procs, root) ∧
      LinksAgree table procs ∧ ∀ i, root = some i ↔ ∃ p, procs[i]? = some p ∧ p.pid = 1 := by
  obtain ⟨procs, hbuild, hlinked⟩ := proctree_build_tree_spec hvalid hrealloc
  refine ⟨procs, _, hbuild, hlinked.agree hvalid.sorted, fun i => ?_⟩
  constructor
  · intro hroot
    obtain ⟨hlt, hpid, _⟩ := List.findIdx?_eq_some_iff_getElem.mp hroot
    obtain ⟨p, hp, hshows⟩ := hlinked.entry i table[i] (List.getElem?_eq_getElem hlt)
    exact ⟨p, hp, hshows.pid.trans (of_decide_eq_true hpid)⟩
  · rintro ⟨p, hp, hpid⟩
    obtain ⟨a, ha, hshows⟩ := hlinked.status hp
    exact hvalid.sorted.findIdx_eq ha (hshows.pid.symm.trans hpid)

/-- A process that is its own parent, and one whose parent comes after it. -/
def mixedTable : List Status := [⟨1, 0, [105]⟩, ⟨2, 4, [97]⟩, ⟨3, 3, [98]⟩, ⟨4, 1, [99]⟩]

theorem mixedTable_links :
    ∃ procs root, proctree_build_tree (fun _ => true) (mixedTable.map new_entry) = .ok (procs, root) ∧
      LinksAgree mixedTable procs ∧ ∀ i, root = some i ↔ ∃ p, procs[i]? = some p ∧ p.pid = 1 :=
  proctree_build_tree_links ⟨by decide, by decide, by decide⟩ fun _ => rfl

end tlpi.proctree
