import Mathlib.Data.List.Basic
import Tlpi.Proctree.Model

namespace tlpi.proctree

theorem _proc_cmp_neg {x y : Int} : _proc_cmp x y < 0 ↔ x < y := by
  unfold _proc_cmp
  omega

theorem _proc_cmp_pos {x y : Int} : 0 < _proc_cmp x y ↔ y < x := by
  unfold _proc_cmp
  omega

/-- In a list that increases in a number, the entries at two indices do. -/
theorem getElem?_lt {A : Type} {number : A → Int} {l : List A} {i j : Nat} {a b : A}
    (h : l.Pairwise fun a b => number a < number b) (hi : l[i]? = some a) (hj : l[j]? = some b) (hij : i < j) :
    number a < number b := by
  obtain ⟨hil, rfl⟩ := List.getElem?_eq_some_iff.mp hi
  obtain ⟨hjl, rfl⟩ := List.getElem?_eq_some_iff.mp hj
  exact List.pairwise_iff_getElem.mp h i j hil hjl hij

section Search

variable {procs : List Entry} {key : Int}

/-- The pids increase along the table. -/
def Increasing (procs : List Entry) : Prop := procs.Pairwise fun p q => p.pid < q.pid

/-- The search in the part of the table that can still hold the key. -/
theorem bsearch_from (hinc : Increasing procs) {l u : Nat} (hu : u ≤ procs.length)
    (hlow : ∀ i p, procs[i]? = some p → i < l → p.pid < key)
    (hhigh : ∀ i p, procs[i]? = some p → u ≤ i → key < p.pid) {fuel : Nat} (hfuel : u - l < fuel) :
    (∃ i p, procs[i]? = some p ∧ p.pid = key ∧ loop (bsearch_body procs key) fuel (l, u) = .ok (some i)) ∨
      (∀ p ∈ procs, p.pid ≠ key) ∧ loop (bsearch_body procs key) fuel (l, u) = .ok none := by
  induction fuel generalizing l u with
  | zero => omega
  | succ fuel ih =>
    by_cases hlu : l < u
    · obtain ⟨p, hp⟩ : ∃ p, procs[(l + u) / 2]? = some p :=
        ⟨_, List.getElem?_eq_getElem (show (l + u) / 2 < procs.length by omega)⟩
      by_cases hless : key < p.pid
      · have hbody : bsearch_body procs key (l, u) = .ok (.cont (l, (l + u) / 2)) := by
          simp only [bsearch_body, if_pos hlu, hp, if_pos (_proc_cmp_neg.mpr hless)]
        rw [loop_cont hbody]
        refine ih (by omega) hlow (fun i q hi hle => ?_) (by omega)
        obtain rfl | hlt := Nat.eq_or_lt_of_le hle
        · rwa [← Option.some.inj (hp.symm.trans hi)]
        · exact Int.lt_trans hless (getElem?_lt hinc hp hi hlt)
      · by_cases hgreater : p.pid < key
        · have hbody : bsearch_body procs key (l, u) = .ok (.cont ((l + u) / 2 + 1, u)) := by
            simp only [bsearch_body, if_pos hlu, hp, if_neg (mt _proc_cmp_neg.mp hless),
              if_pos (_proc_cmp_pos.mpr hgreater)]
          rw [loop_cont hbody]
          refine ih hu (fun i q hi hlt => ?_) hhigh (by omega)
          obtain rfl | hlt := Nat.eq_or_lt_of_le (Nat.le_of_lt_succ hlt)
          · rwa [← Option.some.inj (hp.symm.trans hi)]
          · exact Int.lt_trans (getElem?_lt hinc hi hp hlt) hgreater
        · have hbody : bsearch_body procs key (l, u) = .ok (.done (some ((l + u) / 2))) := by
            simp only [bsearch_body, if_pos hlu, hp, if_neg (mt _proc_cmp_neg.mp hless),
              if_neg (mt _proc_cmp_pos.mp hgreater)]
          exact Or.inl ⟨_, p, hp, by omega, loop_done hbody⟩
    · have hbody : bsearch_body procs key (l, u) = .ok (.done none) := by
        simp only [bsearch_body, if_neg hlu]
      refine Or.inr ⟨fun p hp => ?_, loop_done hbody⟩
      obtain ⟨i, hi⟩ := List.getElem?_of_mem hp
      obtain hil | hli := Nat.lt_or_ge i l
      · exact Int.ne_of_lt (hlow i p hi hil)
      · exact Int.ne_of_gt (hhigh i p hi (by omega))

/-- `bsearch` finds the entry with the key if there is one. -/
theorem bsearch_spec (hinc : Increasing procs) (key : Int) :
    (∃ i p, procs[i]? = some p ∧ p.pid = key ∧ bsearch procs key = .ok (some i)) ∨
      (∀ p ∈ procs, p.pid ≠ key) ∧ bsearch procs key = .ok none := by
  refine bsearch_from hinc (Nat.le_refl _) (fun i p _ hlt => absurd hlt (Nat.not_lt_zero i)) (fun i p hi hle => ?_)
    (by omega)
  obtain ⟨hlt, _⟩ := List.getElem?_eq_some_iff.mp hi
  omega

end Search

/-- The pids are positive and increase along the table, as `main` sorts it. -/
structure Sorted (table : List Status) : Prop where
  increasing : table.Pairwise fun a b => a.pid < b.pid
  positive : ∀ a ∈ table, 0 < a.pid

/-- The parent of a process is there, if it is looked for. -/
def HasParent (table : List Status) (a : Status) : Prop :=
  a.pid ≠ 1 → a.ppid = 0 ∨ ∃ b ∈ table, b.pid = a.ppid

/-- What `proctree_build_tree` is given: the pids are positive and increase, and the parent of
    every process but `init` is 0 or there. -/
structure Valid (table : List Status) : Prop where
  increasing : table.Pairwise fun a b => a.pid < b.pid
  positive : ∀ a ∈ table, 0 < a.pid
  parents : ∀ a ∈ table, a.pid ≠ 1 → a.ppid = 0 ∨ ∃ b ∈ table, b.pid = a.ppid

/-- The second process is a child of the first. -/
def is_child (table : List Status) (j i : Nat) : Bool :=
  match table[i]?, table[j]? with
  | some a, some b => decide (a.pid ≠ 1 ∧ a.ppid = b.pid)
  | _, _ => false

/-- The children of a process among the first processes of the table. -/
def kids (table : List Status) (n j : Nat) : List Nat := (List.range n).filter (is_child table j)

/-- The parent of a process, if it is looked for. -/
def parent_of (table : List Status) (j : Nat) : Option Nat := do
  let a ← table[j]?
  if a.pid = 1 ∨ a.ppid = 0 then none else table.findIdx? fun b => b.pid = a.ppid

/-- An entry for a process, with these links. -/
structure Shows (p : Entry) (a : Status) (parent : Option Nat) (kids : List Nat) : Prop where
  pid : p.pid = a.pid
  ppid : p.ppid = a.ppid
  name : p.name = a.name
  parent : p.parent = parent
  count : p.nr_child = kids.length
  cells : ∃ junk, p.children = kids.map some ++ junk
  size : p.children.length = p.max_child
  room : 0 < p.max_child

/-- The first processes of the table have been linked. -/
structure Linked (table : List Status) (n : Nat) (procs : List Entry) : Prop where
  length : procs.length = table.length
  entry : ∀ j a, table[j]? = some a → ∃ p, procs[j]? = some p ∧
    Shows p a (if j < n then parent_of table j else none) (kids table n j)

section Links

variable {table : List Status} {procs : List Entry} {n i j : Nat} {a b : Status}

theorem is_child_iff (hi : table[i]? = some a) (hj : table[j]? = some b) :
    is_child table j i = true ↔ a.pid ≠ 1 ∧ a.ppid = b.pid := by
  simp only [is_child, hi, hj, decide_eq_true_eq]

theorem kids_succ (table : List Status) (n j : Nat) :
    kids table (n + 1) j = kids table n j ++ if is_child table j n then [n] else [] := by
  rw [kids, List.range_succ, List.filter_append, List.filter_singleton, Bool.cond_eq_ite, kids]

theorem Valid.sorted (h : Valid table) : Sorted table := ⟨h.increasing, h.positive⟩

theorem Sorted.lt (h : Sorted table) (hi : table[i]? = some a) (hj : table[j]? = some b) (hij : i < j) :
    a.pid < b.pid :=
  getElem?_lt h.increasing hi hj hij

theorem Sorted.index_unique (h : Sorted table) (hi : table[i]? = some a) (hj : table[j]? = some b)
    (hpid : a.pid = b.pid) : i = j := by
  obtain hlt | heq | hgt := Nat.lt_trichotomy i j
  · have hless := h.lt hi hj hlt
    omega
  · exact heq
  · have hless := h.lt hj hi hgt
    omega

/-- The table as `main` makes it. -/
theorem linked_new (table : List Status) : Linked table 0 (table.map new_entry) where
  length := List.length_map new_entry
  entry := by
    intro j a hj
    refine ⟨new_entry a, by rw [List.getElem?_map, hj]; rfl, ?_⟩
    exact ⟨rfl, rfl, rfl, rfl, rfl, ⟨List.replicate CHILD_MAX none, rfl⟩, rfl, Nat.zero_lt_succ 9⟩

theorem Linked.status (h : Linked table n procs) {p : Entry} (hj : procs[j]? = some p) :
    ∃ a, table[j]? = some a ∧ Shows p a (if j < n then parent_of table j else none) (kids table n j) := by
  obtain ⟨hlt, _⟩ := List.getElem?_eq_some_iff.mp hj
  rw [h.length] at hlt
  obtain ⟨q, hq, hshows⟩ := h.entry j table[j] (List.getElem?_eq_getElem hlt)
  obtain rfl : p = q := Option.some.inj (hj.symm.trans hq)
  exact ⟨table[j], List.getElem?_eq_getElem hlt, hshows⟩

theorem Linked.increasing (h : Linked table n procs) (hsorted : Sorted table) : Increasing procs := by
  rw [Increasing, List.pairwise_iff_getElem]
  intro i j hi hj hij
  obtain ⟨a, ha, hshows⟩ := h.status (List.getElem?_eq_getElem hi)
  obtain ⟨b, hb, hshows'⟩ := h.status (List.getElem?_eq_getElem hj)
  rw [hshows.pid, hshows'.pid]
  exact hsorted.lt ha hb hij

/-- An array with a free cell takes one more child. -/
theorem store_child_spec {p : Entry} {parent : Option Nat} {list : List Nat} (h : Shows p a parent list)
    (hroom : list.length < p.max_child) (child : Nat) :
    ∃ p', store_child p child = .ok p' ∧ Shows p' a parent (list ++ [child]) := by
  obtain ⟨junk, hcells⟩ := h.cells
  have hlength : list.length + junk.length = p.max_child := by
    have hsize := h.size
    rwa [hcells, List.length_append, List.length_map] at hsize
  cases junk with
  | nil =>
    rw [List.length_nil] at hlength
    omega
  | cons cell junk =>
    have hbound : p.nr_child < p.children.length := by
      rw [h.count, h.size]
      exact hroom
    refine ⟨_, by rw [store_child, if_pos hbound], ?_⟩
    refine ⟨h.pid, h.ppid, h.name, h.parent, ?_, ⟨junk, ?_⟩, ?_, h.room⟩
    · simp [h.count]
    · simp [h.count, hcells]
    · simp [h.size]

/-- The parent takes one more child, unless its array is full and cannot grow. -/
theorem add_child_spec {p : Entry} {parent : Option Nat} {list : List Nat} (h : Shows p a parent list)
    (realloc : Bool) (child : Nat) :
    (∃ p', add_child realloc p child = .ok (some p') ∧ Shows p' a parent (list ++ [child])) ∨
      realloc = false ∧ add_child realloc p child = .ok none := by
  by_cases hfull : p.nr_child = p.max_child
  · cases realloc with
    | false =>
      right
      simp [add_child, hfull]
    | true =>
      left
      have hcount := h.count
      have hroom := h.room
      have hexpanded : Shows (expand p) a parent list := by
        obtain ⟨junk, hcells⟩ := h.cells
        refine ⟨h.pid, h.ppid, h.name, h.parent, h.count, ?_, ?_, ?_⟩
        · exact ⟨junk ++ List.replicate (2 * p.max_child - p.children.length) none, by simp [expand, hcells]⟩
        · simp only [expand, List.length_append, List.length_replicate, h.size]
          omega
        · simp only [expand]
          omega
      have hless : list.length < (expand p).max_child := by
        simp only [expand]
        omega
      obtain ⟨p', hstore, hshows⟩ := store_child_spec hexpanded hless child
      refine ⟨p', ?_, hshows⟩
      simp only [add_child, if_pos hfull, if_true, hstore, exec_bind_ok, exec_pure]
  · left
    have hless : list.length < p.max_child := by
      obtain ⟨junk, hcells⟩ := h.cells
      have hcount := h.count
      have hsize := h.size
      rw [hcells, List.length_append, List.length_map] at hsize
      omega
    obtain ⟨p', hstore, hshows⟩ := store_child_spec h hless child
    refine ⟨p', ?_, hshows⟩
    simp only [add_child, if_neg hfull, hstore, exec_bind_ok, exec_pure]

/-- A process that is not looked up changes nothing for the others. -/
theorem Linked.skip (h : Linked table n procs) (hn : parent_of table n = none)
    (hchild : ∀ j, is_child table j n = false) : Linked table (n + 1) procs where
  length := h.length
  entry := by
    intro j a hj
    obtain ⟨p, hp, hshows⟩ := h.entry j a hj
    refine ⟨p, hp, ?_⟩
    rw [kids_succ, hchild j, if_neg Bool.false_ne_true, List.append_nil]
    by_cases hjn : j = n
    · subst hjn
      rw [if_neg (Nat.lt_irrefl j)] at hshows
      rwa [if_pos (Nat.lt_succ_self j), hn]
    · have hiff : j < n + 1 ↔ j < n := by omega
      simpa only [hiff] using hshows

theorem Sorted.findIdx_eq (hsorted : Sorted table) (hj : table[j]? = some b) {key : Int} (hpid : b.pid = key) :
    table.findIdx? (fun c => decide (c.pid = key)) = some j := by
  obtain ⟨hlt, rfl⟩ := List.getElem?_eq_some_iff.mp hj
  rw [List.findIdx?_eq_some_iff_getElem]
  refine ⟨hlt, by simpa using hpid, fun m hm => ?_⟩
  have hless := hsorted.lt (List.getElem?_eq_getElem (show m < table.length by omega)) hj hm
  simp only [decide_eq_true_eq]
  omega

theorem parent_of_eq (hsorted : Sorted table) (hi : table[i]? = some a) (hj : table[j]? = some b)
    (hinit : a.pid ≠ 1) (hkernel : a.ppid ≠ 0) (hpid : b.pid = a.ppid) : parent_of table i = some j := by
  simp only [parent_of, hi, Option.bind_eq_bind, Option.bind_some, hinit, hkernel, or_self, if_false]
  exact hsorted.findIdx_eq hj hpid

/-- A process gets its parent, and the parent its child unless there is no memory for it. -/
theorem Linked.link {proc : Entry} {k : Nat} (h : Linked table n procs) (hsorted : Sorted table)
    (hn : table[n]? = some a) (hk : table[k]? = some b) (hinit : a.pid ≠ 1) (hkernel : a.ppid ≠ 0)
    (hpid : b.pid = a.ppid) (hproc : procs[n]? = some proc) (realloc : Bool) :
    ∃ p, (procs.set n { proc with parent := some k })[k]? = some p ∧
      ((∃ p', add_child realloc p n = .ok (some p') ∧
          Linked table (n + 1) ((procs.set n { proc with parent := some k }).set k p')) ∨
        realloc = false ∧ add_child realloc p n = .ok none) := by
  have hparent : parent_of table n = some k := parent_of_eq hsorted hn hk hinit hkernel hpid
  have hbound : n < procs.length := (List.getElem?_eq_some_iff.mp hproc).1
  have hlinked (j : Nat) (c : Status) (hj : table[j]? = some c) :
      ∃ p, (procs.set n { proc with parent := some k })[j]? = some p ∧
        Shows p c (if j < n + 1 then parent_of table j else none) (kids table n j) := by
    obtain ⟨p, hp, hshows⟩ := h.entry j c hj
    rw [List.getElem?_set]
    by_cases hnj : n = j
    · subst hnj
      obtain rfl : proc = p := Option.some.inj (hproc.symm.trans hp)
      refine ⟨{ proc with parent := some k }, by simp [hbound], ?_⟩
      rw [if_pos (Nat.lt_succ_self n), hparent]
      exact ⟨hshows.pid, hshows.ppid, hshows.name, rfl, hshows.count, hshows.cells, hshows.size, hshows.room⟩
    · have hiff : j < n + 1 ↔ j < n := by omega
      rw [if_neg hnj]
      exact ⟨p, hp, by simpa only [hiff] using hshows⟩
  obtain ⟨p, hp, hshows⟩ := hlinked k b hk
  refine ⟨p, hp, (add_child_spec hshows realloc n).imp_left ?_⟩
  rintro ⟨p', hadd, hshows'⟩
  refine ⟨p', hadd, by simp [h.length], fun j c hj => ?_⟩
  obtain ⟨q, hq, hrest⟩ := hlinked j c hj
  rw [List.getElem?_set, kids_succ]
  by_cases hkj : k = j
  · subst hkj
    obtain rfl : b = c := Option.some.inj (hk.symm.trans hj)
    have hchild : is_child table k n = true := (is_child_iff hn hk).mpr ⟨hinit, hpid.symm⟩
    refine ⟨p', ?_, by rw [if_pos hchild]; exact hshows'⟩
    rw [if_pos rfl, if_pos (List.getElem?_eq_some_iff.mp hp).1]
  · have hchild : ¬ is_child table j n = true := by
      intro hchild
      have heq := ((is_child_iff hn hj).mp hchild).2
      exact hkj (hsorted.index_unique hk hj (by omega))
    rw [if_neg hkj, if_neg hchild, List.append_nil]
    exact ⟨q, hq, hrest⟩

/-- The entry of `init` among the first processes. -/
def root_of (table : List Status) (n : Nat) : Option Nat := (table.take n).findIdx? fun a => a.pid = 1

theorem root_of_succ (hsorted : Sorted table) (hn : table[n]? = some a) :
    root_of table (n + 1) = if a.pid = 1 then some n else root_of table n := by
  have hlt : n < table.length := (List.getElem?_eq_some_iff.mp hn).1
  rw [root_of, List.take_add_one, hn, Option.toList_some, List.findIdx?_append, List.findIdx?_singleton]
  by_cases hinit : a.pid = 1
  · have hnone : (table.take n).findIdx? (fun a => decide (a.pid = 1)) = none := by
      rw [List.findIdx?_eq_none_iff]
      intro c hc
      obtain ⟨m, hm⟩ := List.getElem?_of_mem hc
      rw [List.getElem?_take] at hm
      split at hm
      · have hless := hsorted.lt hm hn ‹_›
        simp only [decide_eq_false_iff_not]
        omega
      · cases hm
    rw [hnone, if_pos hinit]
    simp [hinit, Nat.min_eq_left (Nat.le_of_lt hlt)]
  · rw [if_neg hinit]
    simp [hinit, root_of]

/-- One iteration of `proctree_build_tree` links one more process, or returns no tree because
    `realloc` fails, or does not find the parent. -/
theorem build_body_spec (realloc : Nat → Bool) (hsorted : Sorted table) (h : Linked table n procs)
    (hn : table[n]? = some a) :
    (HasParent table a ∧ ∃ procs', build_body realloc table.length ⟨procs, root_of table n, n⟩ =
        .ok (.cont ⟨procs', root_of table (n + 1), n + 1⟩) ∧ Linked table (n + 1) procs') ∨
      (realloc n = false ∧ ∃ procs', build_body realloc table.length ⟨procs, root_of table n, n⟩ =
        .ok (.done (procs', none))) ∨
      ¬ HasParent table a ∧
        build_body realloc table.length ⟨procs, root_of table n, n⟩ = .error .assertion := by
  have hlt : n < table.length := (List.getElem?_eq_some_iff.mp hn).1
  obtain ⟨proc, hproc, hshows⟩ := h.entry n a hn
  rw [if_neg (Nat.lt_irrefl n)] at hshows
  rw [root_of_succ hsorted hn]
  by_cases hinit : a.pid = 1
  · have hsame : procs.set n { proc with parent := none } = procs := by
      obtain ⟨hbound, rfl⟩ := List.getElem?_eq_some_iff.mp hproc
      rw [← hshows.parent]
      exact List.set_getElem_self hbound
    refine Or.inl ⟨fun hne => absurd hinit hne, procs, ?_, h.skip ?_ fun j => ?_⟩
    · have hpid : proc.pid = 1 := hshows.pid.trans hinit
      simp only [build_body, if_pos hlt, hproc, if_pos hpid, hsame, if_pos hinit]
    · simp [parent_of, hn, hinit]
    · cases hj : table[j]? with
      | none => simp [is_child, hj]
      | some b => simp [is_child, hn, hj, hinit]
  · have hnot : ¬ proc.pid = 1 := by rwa [hshows.pid]
    rw [if_neg hinit]
    by_cases hkernel : a.ppid = 0
    · have hppid : proc.ppid = 0 := hshows.ppid.trans hkernel
      refine Or.inl ⟨fun _ => Or.inl hkernel, procs, ?_, h.skip ?_ fun j => ?_⟩
      · simp only [build_body, if_pos hlt, hproc, if_neg hnot, if_pos hppid]
      · simp [parent_of, hn, hkernel]
      · cases hj : table[j]? with
        | none => simp [is_child, hj]
        | some b =>
          have hpos := hsorted.positive b (List.mem_of_getElem? hj)
          simp only [is_child, hn, hj, decide_eq_false_iff_not, not_and]
          omega
    · have hppid : ¬ proc.ppid = 0 := by rwa [hshows.ppid]
      obtain ⟨k, p, hk, hkey, hsearch⟩ | ⟨hnone, hsearch⟩ := bsearch_spec (h.increasing hsorted) a.ppid
      · obtain ⟨c, hc, hshows'⟩ := h.status hk
        rw [hshows'.pid] at hkey
        rw [← hshows.ppid] at hsearch
        obtain ⟨q, hq, ⟨q', hadd, hlinked⟩ | ⟨hrefused, hadd⟩⟩ :=
          h.link hsorted hn hc hinit hkernel hkey hproc (realloc n)
        · refine Or.inl ⟨fun _ => Or.inr ⟨c, List.mem_of_getElem? hc, hkey⟩, _, ?_, hlinked⟩
          simp only [build_body, if_pos hlt, hproc, if_neg hnot, if_neg hppid, hsearch, exec_bind_ok, hq,
            hadd, exec_pure]
        · refine Or.inr (Or.inl ⟨hrefused, procs.set n { proc with parent := some k }, ?_⟩)
          simp only [build_body, if_pos hlt, hproc, if_neg hnot, if_neg hppid, hsearch, exec_bind_ok, hq,
            hadd, exec_pure]
      · refine Or.inr (Or.inr ⟨fun hparent => ?_, ?_⟩)
        · obtain ⟨b, hb, hpid⟩ := (hparent hinit).resolve_left hkernel
          obtain ⟨j, hj⟩ := List.getElem?_of_mem hb
          obtain ⟨q, hq, hshows'⟩ := h.entry j b hj
          exact hnone q (List.mem_of_getElem? hq) (hshows'.pid.trans hpid)
        · rw [← hshows.ppid] at hsearch
          simp only [build_body, if_pos hlt, hproc, if_neg hnot, if_neg hppid, hsearch, exec_bind_ok]

theorem build_loop (realloc : Nat → Bool) (hsorted : Sorted table) (h : Linked table n procs)
    (hn : n ≤ table.length) (hbefore : ∀ j a, table[j]? = some a → j < n → HasParent table a)
    {fuel : Nat} (hfuel : table.length - n < fuel) :
    (Valid table ∧ ∃ procs', loop (build_body realloc table.length) fuel ⟨procs, root_of table n, n⟩ =
        .ok (procs', root_of table table.length) ∧ Linked table table.length procs') ∨
      ((∃ i, realloc i = false) ∧ ∃ procs',
        loop (build_body realloc table.length) fuel ⟨procs, root_of table n, n⟩ = .ok (procs', none)) ∨
      ¬ Valid table ∧
        loop (build_body realloc table.length) fuel ⟨procs, root_of table n, n⟩ = .error .assertion := by
  induction fuel generalizing n procs with
  | zero => omega
  | succ fuel ih =>
    obtain hlt | rfl := Nat.lt_or_eq_of_le hn
    · have hnth := List.getElem?_eq_getElem hlt
      obtain ⟨hparent, procs₁, hbody, hlinked⟩ | ⟨hrefused, procs₁, hbody⟩ | ⟨hmissing, hbody⟩ :=
        build_body_spec realloc hsorted h hnth
      · rw [loop_cont hbody]
        refine ih hlinked hlt (fun j a hj hle => ?_) (by omega)
        obtain hless | rfl := Nat.lt_or_eq_of_le (Nat.le_of_lt_succ hle)
        · exact hbefore j a hj hless
        · rwa [← Option.some.inj (hnth.symm.trans hj)]
      · exact Or.inr (Or.inl ⟨⟨n, hrefused⟩, procs₁, loop_done hbody⟩)
      · refine Or.inr (Or.inr ⟨fun hvalid => ?_, loop_error hbody⟩)
        exact hmissing (hvalid.parents _ (List.mem_of_getElem? hnth))
    · refine Or.inl ⟨⟨hsorted.increasing, hsorted.positive, fun a ha => ?_⟩, procs, loop_done ?_, h⟩
      · obtain ⟨j, hj⟩ := List.getElem?_of_mem ha
        exact hbefore j a hj (List.getElem?_eq_some_iff.mp hj).1
      · simp only [build_body, if_neg (Nat.lt_irrefl _)]

/-- What `proctree_build_tree` makes of a sorted table: if all parents are there, it links every
    process to its parent and returns the entry of `init`; otherwise its assertion fails; and
    before that it returns no tree if `realloc` fails. -/
theorem proctree_build_tree_outcomes (realloc : Nat → Bool) (hsorted : Sorted table) :
    (Valid table ∧ ∃ procs, proctree_build_tree realloc (table.map new_entry) =
        .ok (procs, table.findIdx? fun a => a.pid = 1) ∧ Linked table table.length procs) ∨
      ((∃ i, realloc i = false) ∧ ∃ procs,
        proctree_build_tree realloc (table.map new_entry) = .ok (procs, none)) ∨
      ¬ Valid table ∧ proctree_build_tree realloc (table.map new_entry) = .error .assertion := by
  have hloop := build_loop realloc hsorted (linked_new table) (Nat.zero_le _)
    (fun j _ _ hj => absurd hj (Nat.not_lt_zero j)) (Nat.lt_succ_self _)
  have hroot : root_of table table.length = table.findIdx? fun a => a.pid = 1 := by
    rw [root_of, List.take_length]
  rw [proctree_build_tree, List.length_map, ← hroot]
  exact hloop

/-- `proctree_build_tree` links every process to its parent and returns the entry of `init`,
    or it returns no tree because `realloc` fails. -/
theorem proctree_build_tree_cases (realloc : Nat → Bool) (hvalid : Valid table) :
    (∃ procs, proctree_build_tree realloc (table.map new_entry) =
        .ok (procs, table.findIdx? fun a => a.pid = 1) ∧ Linked table table.length procs) ∨
      (∃ i, realloc i = false) ∧ ∃ procs,
        proctree_build_tree realloc (table.map new_entry) = .ok (procs, none) := by
  obtain ⟨_, hbuilt⟩ | hrefused | ⟨hnot, _⟩ := proctree_build_tree_outcomes realloc hvalid.sorted
  · exact Or.inl hbuilt
  · exact Or.inr hrefused
  · exact absurd hvalid hnot

theorem proctree_build_tree_spec {realloc : Nat → Bool} (hvalid : Valid table)
    (hrealloc : ∀ i, realloc i = true) :
    ∃ procs, proctree_build_tree realloc (table.map new_entry) =
        .ok (procs, table.findIdx? fun a => a.pid = 1) ∧ Linked table table.length procs := by
  apply (proctree_build_tree_cases realloc hvalid).resolve_right
  rintro ⟨⟨i, hrefused⟩, _⟩
  rw [hrealloc i] at hrefused
  cases hrefused

end Links

end tlpi.proctree
