import Tlpi.Lib.Preorder
import Tlpi.Proctree.Links

namespace tlpi.proctree

/-- The text of a line: the tabs, below the root the branch and the dash, and the name. -/
def line_text (level : Nat) (branch name : List UInt8) : List UInt8 :=
  List.replicate level 9 ++ ((if level = 0 then [] else branch ++ dash) ++ name)

/-- The branch in front of a process: one that turns off for the last child of its parent, and one
    that goes on for every other. -/
def branch_of (table : List Status) (a : Status) : List UInt8 :=
  if ∃ b ∈ table, b.ppid = a.ppid ∧ a.pid < b.pid then inner_branch else last_branch

/-- The bytes that a line needs in its buffer, with the terminator. -/
def line_size (level : Nat) (name : List UInt8) : Nat :=
  level + (if level = 0 then 0 else 12) + name.length + 1

section Compose

variable {line str text name branch : List UInt8} {level : Nat}

theorem strcat_eq_ok_iff :
    strcat line str = .ok text ↔ line.length + str.length < LINE_MAX ∧ text = line ++ str := by
  unfold strcat
  split
  · simp [*, eq_comm]
  · simp [*]

theorem tabs_eq_ok_iff :
    (List.replicate level tab).foldlM strcat line = .ok text ↔
      (level = 0 ∨ line.length + level < LINE_MAX) ∧ text = line ++ List.replicate level 9 := by
  induction level generalizing line with
  | zero => simp [eq_comm]
  | succ level ih =>
    rw [List.replicate_succ, List.foldlM_cons, exec_bind_eq_ok_iff]
    simp only [strcat_eq_ok_iff, ih]
    constructor
    · rintro ⟨next, ⟨hfirst, rfl⟩, hbound, rfl⟩
      simp only [tab, List.length_append, List.length_singleton] at hfirst hbound ⊢
      refine ⟨Or.inr (by omega), ?_⟩
      rw [List.replicate_succ, List.append_assoc, List.singleton_append]
    · rintro ⟨hbound, rfl⟩
      refine ⟨line ++ tab, ⟨?_, rfl⟩, ?_, ?_⟩
      · simp only [tab, List.length_singleton]
        omega
      · simp only [tab, List.length_append, List.length_singleton]
        omega
      · rw [List.replicate_succ, tab, List.append_assoc, List.singleton_append]

/-- A line can be put together if and only if all of it fits into the buffer. -/
theorem compose_eq_ok_iff (hbranch : level = 0 ∨ branch.length = 6) :
    compose level branch name = .ok text ↔
      line_size level name ≤ LINE_MAX ∧ text = line_text level branch name := by
  rw [compose, exec_bind_eq_ok_iff]
  simp only [tabs_eq_ok_iff]
  by_cases hlevel : level = 0
  · subst hlevel
    simp only [ne_eq, not_true_eq_false, if_false, if_true, strcat_eq_ok_iff, line_size, line_text, true_or,
      true_and, List.replicate_zero, List.append_nil, List.nil_append]
    constructor
    · rintro ⟨_, rfl, hname, rfl⟩
      rw [List.length_nil] at hname
      exact ⟨by omega, rfl⟩
    · rintro ⟨hsize, rfl⟩
      refine ⟨[], rfl, ?_, rfl⟩
      rw [List.length_nil]
      omega
  · have hsix := hbranch.resolve_left hlevel
    have hdash : dash.length = 6 := rfl
    simp only [hlevel, ne_eq, not_false_eq_true, if_true, exec_bind_eq_ok_iff, strcat_eq_ok_iff, line_size,
      line_text, if_false, false_or]
    constructor
    · rintro ⟨_, ⟨_, rfl⟩, _, ⟨_, rfl⟩, _, ⟨_, rfl⟩, hname, rfl⟩
      simp only [List.length_append, List.length_replicate, List.length_nil] at hname
      refine ⟨by omega, ?_⟩
      simp only [List.nil_append, List.append_assoc]
    · rintro ⟨hsize, rfl⟩
      refine ⟨_, ⟨?_, rfl⟩, _, ⟨?_, rfl⟩, _, ⟨?_, rfl⟩, ?_, ?_⟩
      all_goals simp only [List.length_append, List.length_replicate, List.length_nil, List.nil_append,
        List.append_assoc]
      all_goals omega

theorem line_text_length (hbranch : level = 0 ∨ branch.length = 6) :
    (line_text level branch name).length + 1 = line_size level name := by
  have hdash : dash.length = 6 := rfl
  simp only [line_text, line_size, List.length_append, List.length_replicate]
  split
  · rw [List.length_nil]
    omega
  · rename_i hlevel
    rw [List.length_append, hbranch.resolve_left hlevel, hdash]
    omega

end Compose

/-- Following the recorded ppids from the second process leads to the first one in this many
    steps. From `init` nothing is followed. -/
inductive Leads (table : List Status) (top : Nat) : Nat → Nat → Prop
  | here : Leads table top top 0
  | up {i j k : Nat} (h : Leads table top j k) (hchild : is_child table j i = true) : Leads table top i (k + 1)

/-- Following the recorded ppids leads to pid 1 in this many steps. -/
def Reaches (table : List Status) (i k : Nat) : Prop :=
  ∃ top a, table[top]? = some a ∧ a.pid = 1 ∧ Leads table top i k

section Tree

variable {table : List Status} {top i j k : Nat} {a : Status}

/-- The ppids lead up exactly where the children lead down. -/
theorem leads_iff_descends : Leads table top i k ↔ Descends (kids table table.length) top i k := by
  constructor
  · intro h
    induction h with
    | here => exact .refl
    | up _ hchild ih => exact .down ih (mem_kids_iff.mpr hchild)
  · intro h
    induction h with
    | refl => exact .here
    | down _ hmem ih => exact .up ih (mem_kids_iff.mp hmem)

theorem rooted_kids (hvalid : Valid table) (htop : table[top]? = some a) (hinit : a.pid = 1) :
    Rooted (kids table table.length) top where
  single := by
    intro v v' w hv hv'
    obtain ⟨c, b, hc, hb, _, hpid⟩ := status_of_is_child (mem_kids_iff.mp hv)
    obtain ⟨c', b', hc', hb', _, hpid'⟩ := status_of_is_child (mem_kids_iff.mp hv')
    obtain rfl : c = c' := Option.some.inj (hc.symm.trans hc')
    exact hvalid.sorted.index_unique hb hb' (by omega)
  top := by
    intro v hv
    obtain ⟨c, _, hc, _, hne, _⟩ := status_of_is_child (mem_kids_iff.mp hv)
    obtain rfl : a = c := Option.some.inj (htop.symm.trans hc)
    exact hne hinit
  nodup := fun v => List.Nodup.filter _ List.nodup_range

theorem Leads.status (h : Leads table top i k) (htop : table[top]? = some a) : ∃ b, table[i]? = some b := by
  cases h with
  | here => exact ⟨a, htop⟩
  | up _ hchild =>
    obtain ⟨b, _, hb, _⟩ := status_of_is_child hchild
    exact ⟨b, hb⟩

/-- No process is further down than there are processes. -/
theorem Leads.lt_length (hvalid : Valid table) (htop : table[top]? = some a) (hinit : a.pid = 1)
    (h : Leads table top i k) : k < table.length := by
  rw [← List.length_range (n := table.length)]
  apply (rooted_kids hvalid htop hinit).level_lt _ (leads_iff_descends.mp h)
  intro w m hdown
  obtain ⟨b, hb⟩ := (leads_iff_descends.mpr hdown).status htop
  exact List.mem_range.mpr (List.getElem?_eq_some_iff.mp hb).1

theorem reaches_iff (hvalid : Valid table) (htop : table[top]? = some a) (hinit : a.pid = 1) :
    Reaches table i k ↔ Leads table top i k := by
  constructor
  · rintro ⟨top', a', htop', hinit', h⟩
    obtain rfl : top = top' := hvalid.sorted.index_unique htop htop' (by omega)
    exact h
  · intro h
    exact ⟨top, a, htop, hinit, h⟩

/-- The children of a process, in the order of their pids. -/
theorem kids_sublist {c c' : Nat} (hc : is_child table j c = true) (hc' : is_child table j c' = true)
    (hlt : c < c') : [c, c'].Sublist (kids table table.length j) := by
  have hsorted := kids_sorted table table.length j
  obtain ⟨front, back, hsplit⟩ := List.append_of_mem (mem_kids_iff.mpr hc)
  have hmem := mem_kids_iff.mpr hc'
  rw [hsplit] at hsorted hmem ⊢
  have hback : c' ∈ back := by
    obtain hfront | hrest := List.mem_append.mp hmem
    · have hless := (List.pairwise_append.mp hsorted).2.2 c' hfront c List.mem_cons_self
      omega
    · obtain rfl | hback := List.mem_cons.mp hrest
      · omega
      · exact hback
  apply List.Sublist.trans _ (List.sublist_append_right front _)
  exact List.Sublist.cons_cons c (List.singleton_sublist.mpr hback)

theorem branch_of_length (table : List Status) (a : Status) : (branch_of table a).length = 6 := by
  unfold branch_of
  split <;> rfl

/-- The last child of a process is the one at the end of its array. -/
theorem branch_of_kid {c : Nat} (hsorted : Sorted table) (hc : (kids table table.length j)[i]? = some c)
    (ha : table[c]? = some a) :
    branch_of table a = if i = (kids table table.length j).length - 1 then last_branch else inner_branch := by
  obtain ⟨hi, hget⟩ := List.getElem?_eq_some_iff.mp hc
  have horder := List.pairwise_iff_getElem.mp (kids_sorted table table.length j)
  obtain ⟨a', p, ha', hp, _, hppid⟩ := status_of_is_child (mem_kids_iff.mp (List.mem_of_getElem? hc))
  obtain rfl : a = a' := Option.some.inj (ha.symm.trans ha')
  by_cases hlast : i = (kids table table.length j).length - 1
  · rw [if_pos hlast, branch_of, if_neg]
    rintro ⟨b, hb, hsame, hless⟩
    obtain ⟨c', hc'⟩ := List.getElem?_of_mem hb
    have hpos := hsorted.positive a (List.mem_of_getElem? ha)
    have hchild : is_child table j c' = true := (is_child_iff hc' hp).mpr ⟨by omega, hsame.trans hppid⟩
    obtain ⟨i', hi', hget'⟩ := List.getElem_of_mem (mem_kids_iff.mpr hchild)
    -- the array is in the order of the pids, and nothing stands behind its end
    have hle : c' ≤ c := by
      rcases Nat.lt_or_ge i' i with hlt | hge
      · have hless' := horder i' i hi' hi hlt
        omega
      · obtain rfl : i' = i := by omega
        omega
    rcases Nat.eq_or_lt_of_le hle with rfl | hlt
    · rw [Option.some.inj (ha.symm.trans hc')] at hless
      omega
    · have hgreater := hsorted.lt hc' ha hlt
      omega
  · rw [if_neg hlast, branch_of, if_pos]
    have hnext : i + 1 < (kids table table.length j).length := by omega
    obtain ⟨b, p', hb, hp', _, hppid'⟩ := status_of_is_child (mem_kids_iff.mp (List.getElem_mem hnext))
    obtain rfl : p = p' := Option.some.inj (hp.symm.trans hp')
    have hlt := horder i (i + 1) hi hnext (Nat.lt_succ_self i)
    rw [hget] at hlt
    exact ⟨b, List.mem_of_getElem? hb, hppid'.trans hppid.symm, hsorted.lt ha hb hlt⟩

end Tree

/-- The entry and the level of a line. -/
def Line.position (x : Line) : Nat × Nat := (x.proc, x.level)

section Print

variable {table : List Status} {procs : List Entry} {top fuel level v : Nat} {branch : List UInt8}
    {out : List Line}

/-- The array of a linked entry holds its children. -/
theorem Shows.child_at {p : Entry} {a : Status} {parent : Option Nat} {list : List Nat} {i : Nat}
    (h : Shows p a parent list) (hi : i < list.length) : child_at p i = .ok list[i] := by
  obtain ⟨junk, hcells⟩ := h.cells
  have hcell : p.children[i]? = some (some list[i]) := by
    rw [hcells, List.getElem?_append_left (by simpa using hi)]
    simp [hi]
  simp only [proctree.child_at, hcell]

/-- Every line that is printed has been put together for its entry, its level and its branch. -/
theorem print_lines (hsorted : Sorted table) (hlinked : Linked table table.length procs)
    (hbranch : level = 0 ∨ ∃ a, table[v]? = some a ∧ branch = branch_of table a)
    (hprint : _do_proctree_print procs fuel v level branch = .ok out) :
    ∀ x ∈ out, ∃ a, table[x.proc]? = some a ∧ x.pid = a.pid ∧ line_size x.level a.name ≤ LINE_MAX ∧
      x.text = line_text x.level (branch_of table a) a.name := by
  induction fuel generalizing v level branch out with
  | zero => cases hprint
  | succ fuel ih =>
    rw [_do_proctree_print] at hprint
    split at hprint
    · cases hprint
    · rename_i p hp
      obtain ⟨text, htext, hprint⟩ := exec_bind_eq_ok_iff.mp hprint
      obtain ⟨below, hbelow, hprint⟩ := exec_bind_eq_ok_iff.mp hprint
      cases hprint
      obtain ⟨a, ha, hshows⟩ := hlinked.status hp
      intro x hx
      obtain rfl | hx := List.mem_cons.mp hx
      · have hsix : level = 0 ∨ branch.length = 6 := by
          rcases hbranch with hzero | ⟨_, _, rfl⟩
          · exact .inl hzero
          · exact .inr (branch_of_length _ _)
        obtain ⟨hsize, rfl⟩ := (compose_eq_ok_iff hsix).mp htext
        rw [hshows.name] at hsize
        refine ⟨a, ha, hshows.pid, hsize, ?_⟩
        rcases hbranch with rfl | ⟨a', ha', rfl⟩
        · rw [hshows.name, line_text, line_text, if_pos rfl, if_pos rfl]
        · rw [hshows.name, Option.some.inj (ha.symm.trans ha')]
      · obtain ⟨lines, hlines, hx⟩ := List.mem_flatten.mp hx
        obtain ⟨i, hi, hchild⟩ := mem_of_mapM_ok hbelow hlines
        rw [List.mem_range, hshows.count] at hi
        rw [hshows.child_at hi, exec_bind_ok, hshows.count] at hchild
        obtain ⟨b, _, hb, _⟩ := status_of_is_child (mem_kids_iff.mp (List.getElem_mem hi))
        refine ih (.inr ⟨b, hb, ?_⟩) hchild x hx
        exact (branch_of_kid hsorted (List.getElem?_eq_getElem hi) hb).symm

/-- The lines of the children, one child after the other. -/
theorem positions_flatten {below : List (List Line)} {list : List Nat} {order : Nat → List (Nat × Nat)}
    (hlength : below.length = list.length)
    (hall : ∀ (i : Nat) (lines : List Line), below[i]? = some lines →
      ∃ c, list[i]? = some c ∧ lines.map Line.position = order c) :
    below.flatten.map Line.position = list.flatMap order := by
  have hmap : below.map (List.map Line.position) = list.map order := by
    apply List.ext_getElem?
    intro i
    rw [List.getElem?_map, List.getElem?_map]
    cases hi : below[i]? with
    | none =>
      rw [List.getElem?_eq_none_iff, hlength] at hi
      rw [List.getElem?_eq_none hi]
      rfl
    | some lines =>
      obtain ⟨c, hc, hlines⟩ := hall i lines hi
      rw [hc, Option.map_some, Option.map_some, hlines]
  rw [List.map_flatten, hmap, List.flatMap_def]

/-- The lines below a root are printed in preorder, if each of them fits into its buffer. -/
theorem print_preorder (hlinked : Linked table table.length procs)
    (hfits : ∀ w m a, Leads table top w m → table[w]? = some a → line_size m a.name ≤ LINE_MAX)
    (hdepth : ∀ w m, Leads table top w m → m < level + fuel ∧ w < table.length)
    (hv : Leads table top v level) (hbranch : level = 0 ∨ branch.length = 6) :
    ∃ out, _do_proctree_print procs fuel v level branch = .ok out ∧
      out.map Line.position = preorder (kids table table.length) fuel level v := by
  induction fuel generalizing v level branch with
  | zero =>
    have hlt := (hdepth v level hv).1
    omega
  | succ fuel ih =>
    have hlt := (hdepth v level hv).2
    obtain ⟨p, hp, hshows⟩ := hlinked.entry v table[v] (List.getElem?_eq_getElem hlt)
    have hsize := hfits v level table[v] hv (List.getElem?_eq_getElem hlt)
    rw [← hshows.name] at hsize
    have hcompose := (compose_eq_ok_iff hbranch).mpr ⟨hsize, rfl⟩
    have hchildren (i : Nat) (hi : i < p.nr_child) :
        ∃ lines, (do
          let child ← child_at p i
          _do_proctree_print procs fuel child (level + 1)
            (if i = p.nr_child - 1 then last_branch else inner_branch)) = .ok lines ∧
          ∃ c, (kids table table.length v)[i]? = some c ∧
            lines.map Line.position = preorder (kids table table.length) fuel (level + 1) c := by
      rw [hshows.count] at hi
      have hchild := mem_kids_iff.mp (List.getElem_mem hi)
      have hnext : level + 1 = 0 ∨
          (if i = p.nr_child - 1 then last_branch else inner_branch).length = 6 := by
        right
        split <;> rfl
      have hbelow (w m : Nat) (h : Leads table top w m) : m < level + 1 + fuel ∧ w < table.length := by
        have hbound := hdepth w m h
        omega
      obtain ⟨lines, hlines, hmap⟩ := ih hbelow (.up hv hchild) hnext
      refine ⟨lines, ?_, _, List.getElem?_eq_getElem hi, hmap⟩
      simp only [hshows.child_at hi, exec_bind_ok, hlines]
    obtain ⟨below, hbelow, hlength, hall⟩ := mapM_range_ok hchildren
    refine ⟨⟨v, level, line_text level branch p.name, p.pid⟩ :: below.flatten, ?_, ?_⟩
    · rw [_do_proctree_print]
      simp only [hp, hcompose, hbelow, exec_bind_ok, exec_pure]
    · rw [preorder, List.map_cons, positions_flatten (hlength.trans hshows.count) hall]
      rfl

/-- A print that returns has come to everything below its entry. -/
theorem printed_of_descends {w m : Nat} (hlinked : Linked table table.length procs)
    (hprint : _do_proctree_print procs fuel v level branch = .ok out)
    (h : Descends (kids table table.length) v w m) : ∃ x ∈ out, x.proc = w ∧ x.level = level + m := by
  induction fuel generalizing v level branch out m with
  | zero => cases hprint
  | succ fuel ih =>
    rw [_do_proctree_print] at hprint
    split at hprint
    · cases hprint
    · rename_i p hp
      obtain ⟨text, _, hprint⟩ := exec_bind_eq_ok_iff.mp hprint
      obtain ⟨below, hbelow, hprint⟩ := exec_bind_eq_ok_iff.mp hprint
      cases hprint
      cases m with
      | zero =>
        cases h
        exact ⟨_, List.mem_cons_self, rfl, rfl⟩
      | succ m =>
        obtain ⟨c, hc, hdown⟩ := descends_succ_iff.mp h
        obtain ⟨i, hi, rfl⟩ := List.getElem_of_mem hc
        obtain ⟨a, _, hshows⟩ := hlinked.status hp
        have hrange : (List.range p.nr_child)[i]? = some i := by
          rw [hshows.count]
          simp [hi]
        obtain ⟨lines, hlines, hchild⟩ := (getElem_of_mapM_ok hbelow).2 i i hrange
        rw [hshows.child_at hi, exec_bind_ok] at hchild
        obtain ⟨x, hx, hproc, hlevel⟩ := ih hchild hdown
        refine ⟨x, List.mem_cons_of_mem _ ?_, hproc, by omega⟩
        exact List.mem_flatten.mpr ⟨lines, List.mem_of_getElem? hlines, hx⟩

end Print

/-- What is printed is the tree under `init`: no entry twice, an entry if and only if its ppids
    lead to pid 1 and then at a level of as many steps, a child behind its parent, and
    everything under one child before the next child in the order of the pids. Each line shows the
    level, the branch and the name of its process. -/
structure PrintsTree (table : List Status) (out : List Line) : Prop where
  once : (out.map Line.proc).Nodup
  printed : ∀ i k, (∃ x ∈ out, x.proc = i ∧ x.level = k) ↔ Reaches table i k
  shown : ∀ x ∈ out, ∃ a, table[x.proc]? = some a ∧ x.pid = a.pid ∧
    x.text = line_text x.level (branch_of table a) a.name
  parent_first : ∀ i j k, Reaches table j k → is_child table j i = true →
    [j, i].Sublist (out.map Line.proc)
  siblings : ∀ j k c c' a a' d m, Reaches table j k → is_child table j c = true →
    is_child table j c' = true → table[c]? = some a → table[c']? = some a' → a.pid < a'.pid →
    Leads table c d m → [d, c'].Sublist (out.map Line.proc)

/-- The line of every process under `init` fits into its buffer. -/
def LinesFit (table : List Status) : Prop :=
  ∀ i k a, Reaches table i k → table[i]? = some a → line_size k a.name ≤ LINE_MAX

section Order

variable {table : List Status} {top fuel : Nat} {a : Status} {out : List Line}

variable (hvalid : Valid table) (htop : table[top]? = some a) (hinit : a.pid = 1)
    (hfuel : table.length ≤ fuel)
    (hout : out.map Line.position = preorder (kids table table.length) fuel 0 top)

include hvalid htop hinit hfuel hout

theorem printed_iff_reaches (i k : Nat) :
    (∃ x ∈ out, x.proc = i ∧ x.level = k) ↔ Reaches table i k := by
  have hmem : (∃ x ∈ out, x.proc = i ∧ x.level = k) ↔ (i, k) ∈ out.map Line.position := by
    simp [Line.position]
  rw [hmem, hout, mem_preorder_iff, reaches_iff hvalid htop hinit, leads_iff_descends]
  constructor
  · rintro ⟨k', _, rfl, h⟩
    rwa [Nat.zero_add]
  · intro h
    have hlt := (leads_iff_descends.mpr h).lt_length hvalid htop hinit
    exact ⟨k, by omega, (Nat.zero_add k).symm, h⟩

/-- Whatever stands below a process in the tree stands in the same order in the output. -/
theorem before_of_preorder {j k d d' m m' : Nat} (hj : Leads table top j k)
    (hpair : [(d, m), (d', m')].Sublist (preorder (kids table table.length) (fuel - (k + 1) + 1) k j)) :
    [d, d'].Sublist (out.map Line.proc) := by
  have hlt := hj.lt_length hvalid htop hinit
  have hdepth : fuel - k = fuel - (k + 1) + 1 := by omega
  have hwhole : (preorder (kids table table.length) (fuel - k) (0 + k) j).Sublist
      (preorder (kids table table.length) fuel 0 top) :=
    preorder_sublist (leads_iff_descends.mp hj) (by omega)
  rw [Nat.zero_add, hdepth, ← hout] at hwhole
  have hproc : out.map Line.proc = (out.map Line.position).map Prod.fst := by
    rw [List.map_map]
    rfl
  rw [hproc]
  exact (hpair.trans hwhole).map Prod.fst

theorem parent_before_child {i j k : Nat} (hj : Reaches table j k) (hchild : is_child table j i = true) :
    [j, i].Sublist (out.map Line.proc) := by
  rw [reaches_iff hvalid htop hinit] at hj
  have hlt := (hj.up hchild).lt_length hvalid htop hinit
  apply before_of_preorder hvalid htop hinit hfuel hout hj
  apply preorder_parent (mem_kids_iff.mpr hchild)
  exact mem_preorder_iff.mpr ⟨0, by omega, rfl, .refl⟩

theorem below_before_sibling {j k c c' d m : Nat} {b b' : Status} (hj : Reaches table j k)
    (hc : is_child table j c = true) (hc' : is_child table j c' = true) (hb : table[c]? = some b)
    (hb' : table[c']? = some b') (hless : b.pid < b'.pid) (hd : Leads table c d m) :
    [d, c'].Sublist (out.map Line.proc) := by
  rw [reaches_iff hvalid htop hinit] at hj
  have horder : c < c' := by
    obtain hlt | rfl | hgt := Nat.lt_trichotomy c c'
    · exact hlt
    · rw [Option.some.inj (hb.symm.trans hb')] at hless
      omega
    · have hgreater := hvalid.sorted.lt hb' hb hgt
      omega
  have hdown := leads_iff_descends.mp hd
  have hlead : Leads table top d (k + 1 + m) :=
    leads_iff_descends.mpr ((leads_iff_descends.mp (hj.up hc)).trans hdown)
  have hlt := hlead.lt_length hvalid htop hinit
  apply before_of_preorder hvalid htop hinit hfuel hout hj
  apply preorder_siblings (kids_sublist hc hc' horder)
  exact mem_preorder_iff.mpr ⟨m, by omega, rfl, hdown⟩

/-- Lines in preorder show the tree. -/
theorem prints_of_preorder
    (hshown : ∀ x ∈ out, ∃ a, table[x.proc]? = some a ∧ x.pid = a.pid ∧
      x.text = line_text x.level (branch_of table a) a.name) : PrintsTree table out where
  once := by
    have hnodup : ((preorder (kids table table.length) fuel 0 top).map Prod.fst).Nodup :=
      (rooted_kids hvalid htop hinit).nodup_preorder .refl
    rwa [← hout, List.map_map] at hnodup
  printed := printed_iff_reaches hvalid htop hinit hfuel hout
  shown := hshown
  parent_first := fun _ _ _ hj hchild => parent_before_child hvalid htop hinit hfuel hout hj hchild
  siblings := fun _ _ _ _ _ _ _ _ hj hc hc' hb hb' hless hd =>
    below_before_sibling hvalid htop hinit hfuel hout hj hc hc' hb hb' hless hd

end Order

section Whole

variable {table : List Status} {procs : List Entry} {fuel : Nat} {out : List Line}

variable {top : Nat} {a : Status}

/-- Where all lines fit, the tree is printed. -/
theorem print_of_linesFit (hvalid : Valid table) (hlinked : Linked table table.length procs)
    (htop : table[top]? = some a) (hinit : a.pid = 1) (hfuel : table.length ≤ fuel)
    (hfits : LinesFit table) : ∃ out, proctree_print procs fuel top = .ok out ∧ PrintsTree table out := by
  have hdepth (w m : Nat) (hlead : Leads table top w m) : m < 0 + fuel ∧ w < table.length := by
    have hlt := hlead.lt_length hvalid htop hinit
    obtain ⟨b, hb⟩ := hlead.status htop
    exact ⟨by omega, (List.getElem?_eq_some_iff.mp hb).1⟩
  obtain ⟨out, hprint, hout⟩ := print_preorder hlinked
    (fun w m b hlead => hfits w m b ((reaches_iff hvalid htop hinit).mpr hlead)) hdepth .here (Or.inl rfl)
  refine ⟨out, hprint, prints_of_preorder hvalid htop hinit hfuel hout ?_⟩
  intro x hx
  obtain ⟨b, hb, hxpid, _, htext⟩ := print_lines hvalid.sorted hlinked (.inl rfl) hprint x hx
  exact ⟨b, hb, hxpid, htext⟩

/-- If the print returns, each of the lines has fitted. -/
theorem linesFit_of_print (hvalid : Valid table) (hlinked : Linked table table.length procs)
    (htop : table[top]? = some a) (hinit : a.pid = 1) (hprint : proctree_print procs fuel top = .ok out) :
    LinesFit table := by
  intro i k b hreach hb
  have hdown := leads_iff_descends.mp ((reaches_iff hvalid htop hinit).mp hreach)
  obtain ⟨x, hx, rfl, hlevel⟩ := printed_of_descends hlinked hprint hdown
  obtain ⟨c, hc, _, hsize, _⟩ := print_lines hvalid.sorted hlinked (.inl rfl) hprint x hx
  obtain rfl : b = c := Option.some.inj (hb.symm.trans hc)
  rwa [hlevel, Nat.zero_add] at hsize

/-- The tree that `proctree_build_tree` returns is that of a table in which all parents are
    there. -/
theorem valid_of_build {realloc : Nat → Bool} {root : Nat} (hsorted : Sorted table)
    (hbuild : proctree_build_tree realloc (table.map new_entry) = .ok (procs, some root)) :
    Valid table ∧ Linked table table.length procs ∧ ∃ a, table[root]? = some a ∧ a.pid = 1 := by
  obtain ⟨hvalid, procs', hbuild', hlinked⟩ | ⟨_, procs', hbuild'⟩ | ⟨_, hbuild'⟩ :=
    proctree_build_tree_outcomes realloc hsorted
  · rw [hbuild, Except.ok.injEq, Prod.mk.injEq] at hbuild'
    obtain ⟨rfl, hroot⟩ := hbuild'
    obtain ⟨hlt, hpid, _⟩ := List.findIdx?_eq_some_iff_getElem.mp hroot.symm
    exact ⟨hvalid, hlinked, table[root], List.getElem?_eq_getElem hlt, of_decide_eq_true hpid⟩
  · rw [hbuild] at hbuild'
    cases hbuild'
  · rw [hbuild] at hbuild'
    cases hbuild'

/-- `proctree_print` prints exactly the tree under `init`, from what `proctree_build_tree`
    returns, if and only if the line of every process under `init` fits into its buffer. -/
theorem proctree_print_iff {realloc : Nat → Bool} (hvalid : Valid table) (hinit : ∃ a ∈ table, a.pid = 1)
    (hrealloc : ∀ i, realloc i = true) (hfuel : table.length ≤ fuel) :
    (∃ procs root out, proctree_build_tree realloc (table.map new_entry) = .ok (procs, some root) ∧
      proctree_print procs fuel root = .ok out ∧ PrintsTree table out) ↔ LinesFit table := by
  constructor
  · rintro ⟨procs, root, out, hbuild, hprint, _⟩
    obtain ⟨_, hlinked, a, htop, hpid⟩ := valid_of_build hvalid.sorted hbuild
    exact linesFit_of_print hvalid hlinked htop hpid hprint
  · intro hfits
    obtain ⟨procs, hbuild, hlinked⟩ := proctree_build_tree_spec hvalid hrealloc
    obtain ⟨a, ha, hpid⟩ := hinit
    obtain ⟨top, htop⟩ := List.getElem?_of_mem ha
    rw [hvalid.sorted.findIdx_eq htop hpid] at hbuild
    obtain ⟨out, hprint, htree⟩ := print_of_linesFit hvalid hlinked htop hpid hfuel hfits
    exact ⟨procs, top, out, hbuild, hprint, htree⟩

/-- Every call of `_do_proctree_print` on a tree that `proctree_build_tree` has returned puts
    its line together inside the buffer, if and only if the line of every process under `init`
    fits: the buffer does not grow with the depth of the tree. -/
theorem proctree_print_fits_iff {realloc : Nat → Bool} {root : Nat} (hsorted : Sorted table)
    (hbuild : proctree_build_tree realloc (table.map new_entry) = .ok (procs, some root))
    (hfuel : table.length ≤ fuel) :
    (∃ out, proctree_print procs fuel root = .ok out ∧ ∀ x ∈ out, x.text.length < LINE_MAX) ↔
      LinesFit table := by
  obtain ⟨hvalid, hlinked, a, htop, hpid⟩ := valid_of_build hsorted hbuild
  constructor
  · rintro ⟨out, hprint, _⟩
    exact linesFit_of_print hvalid hlinked htop hpid hprint
  · intro hfits
    obtain ⟨out, hprint, _⟩ := print_of_linesFit hvalid hlinked htop hpid hfuel hfits
    refine ⟨out, hprint, fun x hx => ?_⟩
    obtain ⟨b, _, _, hsize, htext⟩ := print_lines hvalid.sorted hlinked (.inl rfl) hprint x hx
    rwa [← line_text_length (.inr (branch_of_length table b)), ← htext] at hsize

end Whole

/-- `init`, with a child that has a child. -/
def threeLevels : List Status := [⟨1, 0, [105]⟩, ⟨2, 1, [97]⟩, ⟨3, 2, [98]⟩]

theorem threeLevels_valid : Valid threeLevels where
  increasing := by decide
  positive := by decide
  parents := by decide

/-- Three short names on three levels fit into their lines. -/
theorem threeLevels_fit : LinesFit threeLevels := by
  intro i k a hreach ha
  have hshort : a.name.length = 1 := by
    have hall : ∀ b ∈ threeLevels, b.name.length = 1 := by decide
    exact hall a (List.mem_of_getElem? ha)
  obtain ⟨top, b, htop, hinit, hlead⟩ := hreach
  have hlt : k < 3 := hlead.lt_length threeLevels_valid htop hinit
  unfold line_size LINE_MAX
  split <;> omega

theorem proctree_print_threeLevels :
    ∃ procs root out,
      proctree_build_tree (fun _ => true) (threeLevels.map new_entry) = .ok (procs, some root) ∧
      proctree_print procs 3 root = .ok out ∧ PrintsTree threeLevels out :=
  (proctree_print_iff threeLevels_valid (by decide) (fun _ => rfl) (Nat.le_refl 3)).mpr threeLevels_fit

theorem proctree_print_fits_threeLevels :
    ∃ procs root,
      proctree_build_tree (fun _ => true) (threeLevels.map new_entry) = .ok (procs, some root) ∧
      ∃ out, proctree_print procs 3 root = .ok out ∧ ∀ x ∈ out, x.text.length < LINE_MAX := by
  obtain ⟨procs, hbuild, _⟩ := proctree_build_tree_spec threeLevels_valid fun _ => rfl
  have hroot : (threeLevels.findIdx? fun a => a.pid = 1) = some 0 := by decide
  rw [hroot] at hbuild
  exact ⟨procs, 0, hbuild,
    (proctree_print_fits_iff threeLevels_valid.sorted hbuild (Nat.le_refl 3)).mpr threeLevels_fit⟩

/-- A chain of processes, each the child of the one before. -/
def chain (n : Nat) : List Status := (List.range n).map fun i : Nat => ⟨i + 1, i, [97]⟩

theorem chain_getElem {n i : Nat} (hi : i < n) : (chain n)[i]? = some ⟨i + 1, i, [97]⟩ := by
  simp [chain, hi]

theorem chain_valid (n : Nat) : Valid (chain n) where
  increasing := by
    rw [chain, List.pairwise_map]
    refine List.pairwise_lt_range.imp fun {i j} hij => ?_
    simp only
    omega
  positive := by
    intro a ha
    obtain ⟨i, _, rfl⟩ := List.mem_map.mp ha
    simp only
    omega
  parents := by
    intro a ha hne
    obtain ⟨i, hi, rfl⟩ := List.mem_map.mp ha
    simp only at hne
    refine Or.inr ⟨⟨(i - 1 : Nat) + 1, (i - 1 : Nat), [97]⟩, List.mem_map.mpr ⟨i - 1, ?_, rfl⟩, ?_⟩
    · rw [List.mem_range] at hi ⊢
      omega
    · simp only
      omega

theorem chain_reaches {n k : Nat} (hk : k < n) : Reaches (chain n) k k := by
  refine ⟨0, ⟨1, 0, [97]⟩, chain_getElem (by omega), rfl, ?_⟩
  induction k with
  | zero => exact .here
  | succ k ih =>
    apply Leads.up (ih (by omega))
    rw [is_child_iff (chain_getElem hk) (chain_getElem (show k < n by omega))]
    simp only
    omega

/-- In a chain of 2036 processes the last line needs one byte more than the buffer has. -/
theorem chain_not_fit : ¬ LinesFit (chain 2036) := by
  intro hfits
  have hlast : 2035 < 2036 := by omega
  have hsize := hfits 2035 2035 _ (chain_reaches hlast) (chain_getElem hlast)
  simp [line_size, LINE_MAX] at hsize

theorem chain_init : ∃ a ∈ chain 2036, a.pid = 1 :=
  ⟨⟨1, 0, [97]⟩, List.mem_of_getElem? (chain_getElem (show 0 < 2036 by omega)), rfl⟩

theorem proctree_print_chain :
    Valid (chain 2036) ∧ (∃ a ∈ chain 2036, a.pid = 1) ∧
      ∀ fuel, ¬ ∃ procs root out,
        proctree_build_tree (fun _ => true) ((chain 2036).map new_entry) = .ok (procs, some root) ∧
        proctree_print procs fuel root = .ok out ∧ PrintsTree (chain 2036) out := by
  refine ⟨chain_valid 2036, chain_init, fun fuel => ?_⟩
  rintro ⟨procs, root, out, hbuild, hprint, _⟩
  obtain ⟨hvalid, hlinked, a, htop, hpid⟩ := valid_of_build (chain_valid 2036).sorted hbuild
  exact chain_not_fit (linesFit_of_print hvalid hlinked htop hpid hprint)

/-- The names are of one byte, the tree is returned, and its print does not stay in the buffer. -/
theorem proctree_print_overflows_chain :
    (∀ a ∈ chain 2036, a.name.length ≤ 63) ∧
      ∃ procs root,
        proctree_build_tree (fun _ => true) ((chain 2036).map new_entry) = .ok (procs, some root) ∧
        ∀ fuel, ¬ ∃ out, proctree_print procs fuel root = .ok out ∧ ∀ x ∈ out, x.text.length < LINE_MAX := by
  refine ⟨fun a ha => ?_, ?_⟩
  · obtain ⟨i, _, rfl⟩ := List.mem_map.mp ha
    exact (by decide : ([97] : List UInt8).length ≤ 63)
  · obtain ⟨procs, hbuild, hlinked⟩ := proctree_build_tree_spec (chain_valid 2036) fun _ => rfl
    obtain ⟨a, ha, hpid⟩ := chain_init
    obtain ⟨top, htop⟩ := List.getElem?_of_mem ha
    rw [(chain_valid 2036).sorted.findIdx_eq htop hpid] at hbuild
    refine ⟨procs, top, hbuild, fun fuel => ?_⟩
    rintro ⟨out, hprint, _⟩
    exact chain_not_fit (linesFit_of_print (chain_valid 2036) hlinked htop hpid hprint)

end tlpi.proctree
