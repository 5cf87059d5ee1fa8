import Tlpi.Lib.Run
import Tlpi.Proctree.Build

namespace tlpi.proctree

/-- The running processes, and the scan of `/proc` that `main` makes: the last pid that the
    directory has given, the pids that it has given and `main` has not looked at yet, whether
    its end has been reached, and what `main` has recorded. -/
structure System where
  live : List Status
  position : Int
  listed : List Int
  closed : Bool
  table : List Status
deriving DecidableEq

/-- What can happen next. The directory is listed by the kernel, in the buffer of `readdir`,
    and a status file is read later. -/
inductive Event where
  | fork (parent child : Int) (name : List UInt8)
  | exit (pid : Int)
  | list
  | read

def is_live (live : List Status) (pid : Int) : Bool := live.any fun a => a.pid = pid

/-- The directory goes on with the least pid above the last one. -/
def next_pid (live : List Status) (position : Int) : Option Int :=
  ((live.map Status.pid).filter fun pid => position < pid).min?

/-- The children of a process that has gone become those of `init`. -/
def reparent (gone : Int) (a : Status) : Status := if a.ppid = gone then { a with ppid := 1 } else a

/-- The status file that `main` opens next, if its process is still there. -/
def System.next_status (s : System) : Option Status :=
  s.listed.head?.bind fun pid => s.live.find? fun a => a.pid = pid

/-- One event. An event that is not possible changes nothing. -/
def step (s : System) : Event → Exec System
  | .fork parent child name =>
    if is_live s.live parent ∧ ¬ is_live s.live child then
      .ok { s with live := s.live ++ [⟨child, parent, name⟩] }
    else .ok s
  | .exit pid =>
    if pid = 1 then .ok s
    else .ok { s with live := (s.live.filter fun a => a.pid ≠ pid).map (reparent pid) }
  | .list =>
    if s.closed then .ok s
    else
      match next_pid s.live s.position with
      | some pid => .ok { s with position := pid, listed := s.listed ++ [pid] }
      | none => .ok { s with closed := true }
  | .read => .ok { s with listed := s.listed.tail, table := s.table ++ s.next_status.toList }

/-- The scan begins. -/
def start (live : List Status) : System := ⟨live, 0, [], false, []⟩

/-- `readdir` has returned `NULL`. -/
def System.finished (s : System) : Bool := s.closed && s.listed.isEmpty

/-- `qsort` of the C library, with `_proc_cmp`. -/
def qsort (procs : List Entry) : List Entry :=
  procs.mergeSort fun p q => decide (_proc_cmp p.pid q.pid ≤ 0)

/-- Every process has a parent that runs, or none, and `init` runs. -/
structure Sound (live : List Status) : Prop where
  init : is_live live 1 = true
  parents : ∀ a ∈ live, a.ppid = 0 ∨ is_live live a.ppid = true

def System.recorded (s : System) : List Int := s.table.map Status.pid

/-- The scan has not gone past the pid. -/
def System.Coming (s : System) (pid : Int) : Prop := pid ∈ s.listed ∨ s.closed = false ∧ s.position < pid

instance (s : System) (pid : Int) : Decidable (s.Coming pid) := inferInstanceAs (Decidable (_ ∨ _ ∧ _))

/-- What the scan relies on: a process that a recorded one has for its parent does not exit
    before it is recorded too, and of a process that is read the parent has been recorded or
    is still to come. -/
def Careful (s : System) : Event → Prop
  | .exit pid =>
    pid ≠ 1 → (∃ a ∈ s.table, a.pid ≠ 1 ∧ a.ppid = pid) → pid ∈ s.recorded
  | .read =>
    ∀ a ∈ s.next_status, a.pid ≠ 1 → a.ppid ≠ 0 → a.ppid ∈ s.recorded ∨ s.Coming a.ppid
  | _ => True

instance Careful.decidable (s : System) : (e : Event) → Decidable (Careful s e)
  | .fork _ _ _ => isTrue trivial
  | .exit pid =>
    inferInstanceAs (Decidable (pid ≠ 1 → (∃ a ∈ s.table, a.pid ≠ 1 ∧ a.ppid = pid) → pid ∈ s.recorded))
  | .list => isTrue trivial
  | .read =>
    inferInstanceAs (Decidable (∀ a ∈ s.next_status, a.pid ≠ 1 → a.ppid ≠ 0 →
      a.ppid ∈ s.recorded ∨ s.Coming a.ppid))

/-- What holds in the middle of a scan. The parent of a recorded process has been recorded, or
    it runs and the scan is still to come to it. -/
structure Inv (s : System) : Prop where
  sound : Sound s.live
  order : (s.recorded ++ s.listed).Pairwise (· < ·)
  bounds : ∀ pid ∈ s.recorded ++ s.listed, 0 < pid ∧ pid ≤ s.position
  position : 0 ≤ s.position
  covered : ∀ a ∈ s.table, a.pid ≠ 1 →
    a.ppid = 0 ∨ a.ppid ∈ s.recorded ∨ is_live s.live a.ppid = true ∧ s.Coming a.ppid

section Live

variable {live : List Status} {pid position : Int} {a : Status}

theorem is_live_iff : is_live live pid = true ↔ ∃ a ∈ live, a.pid = pid := by simp [is_live]

theorem next_pid_some_iff :
    next_pid live position = some pid ↔
      is_live live pid = true ∧ position < pid ∧ ∀ q, is_live live q = true → position < q → pid ≤ q := by
  rw [next_pid, List.min?_eq_some_iff]
  simp only [List.mem_filter, List.mem_map, decide_eq_true_eq, is_live_iff]
  constructor
  · rintro ⟨⟨hlive, hless⟩, hleast⟩
    exact ⟨hlive, hless, fun q hq hlt => hleast q ⟨hq, hlt⟩⟩
  · rintro ⟨hlive, hless, hleast⟩
    exact ⟨⟨hlive, hless⟩, fun q hq => hleast q hq.1 hq.2⟩

theorem next_pid_none (h : next_pid live position = none) (hlive : is_live live pid = true) :
    ¬ position < pid := by
  intro hless
  rw [next_pid, List.min?_eq_none_iff, List.filter_eq_nil_iff] at h
  obtain ⟨a, ha, rfl⟩ := is_live_iff.mp hlive
  exact h a.pid (List.mem_map_of_mem ha) (decide_eq_true hless)

theorem reparent_pid (gone : Int) (a : Status) : (reparent gone a).pid = a.pid := by
  unfold reparent
  split <;> rfl

/-- All but the one that has exited still run. -/
theorem is_live_exit (hne : pid ≠ position) :
    is_live ((live.filter fun a => a.pid ≠ position).map (reparent position)) pid = is_live live pid := by
  rw [Bool.eq_iff_iff, is_live_iff, is_live_iff]
  constructor
  · rintro ⟨a, ha, rfl⟩
    obtain ⟨b, hb, rfl⟩ := List.mem_map.mp ha
    exact ⟨b, List.mem_of_mem_filter hb, (reparent_pid position b).symm⟩
  · rintro ⟨a, ha, rfl⟩
    refine ⟨reparent position a, List.mem_map_of_mem (List.mem_filter.mpr ⟨ha, ?_⟩), reparent_pid position a⟩
    simpa using hne

end Live

section Steps

variable {s : System} {pid : Int}

theorem is_live_fork {live : List Status} {child : Status} :
    is_live (live ++ [child]) pid = true ↔ is_live live pid = true ∨ child.pid = pid := by
  simp [is_live]

/-- The records are as before, and what the scan was to come to it still does. -/
theorem Inv.covered_mono {s' : System} (h : Inv s) (htable : s'.table = s.table)
    (hcoming : ∀ p, is_live s.live p = true → s.Coming p → is_live s'.live p = true ∧ s'.Coming p) :
    ∀ a ∈ s'.table, a.pid ≠ 1 →
      a.ppid = 0 ∨ a.ppid ∈ s'.recorded ∨ is_live s'.live a.ppid = true ∧ s'.Coming a.ppid := by
  intro a ha hne
  rw [htable] at ha
  rw [System.recorded, htable]
  obtain hzero | hknown | ⟨hlive, hahead⟩ := h.covered a ha hne
  · exact Or.inl hzero
  · exact Or.inr (Or.inl hknown)
  · exact Or.inr (Or.inr (hcoming a.ppid hlive hahead))

theorem Inv.fork {parent child : Int} (h : Inv s) (name : List UInt8) (hparent : is_live s.live parent = true) :
    Inv { s with live := s.live ++ [⟨child, parent, name⟩] } where
  sound := by
    refine ⟨is_live_fork.mpr (Or.inl h.sound.init), fun a ha => ?_⟩
    obtain ha | ha := List.mem_append.mp ha
    · exact (h.sound.parents a ha).imp_right fun hlive => is_live_fork.mpr (Or.inl hlive)
    · rw [List.mem_singleton.mp ha]
      exact Or.inr (is_live_fork.mpr (Or.inl hparent))
  order := h.order
  bounds := h.bounds
  position := h.position
  covered := by
    refine h.covered_mono rfl ?_
    intro p hlive hahead
    exact ⟨is_live_fork.mpr (Or.inl hlive), hahead⟩

theorem Inv.exit (h : Inv s) (hpid : pid ≠ 1) (hcareful : Careful s (.exit pid)) :
    Inv { s with live := (s.live.filter fun a => a.pid ≠ pid).map (reparent pid) } where
  sound := by
    have hinit := h.sound.init
    rw [← is_live_exit (Ne.symm hpid)] at hinit
    refine ⟨hinit, fun a ha => ?_⟩
    obtain ⟨b, hb, rfl⟩ := List.mem_map.mp ha
    by_cases hgone : b.ppid = pid
    · right
      rwa [reparent, if_pos hgone]
    · rw [reparent, if_neg hgone, is_live_exit hgone]
      exact h.sound.parents b (List.mem_of_mem_filter hb)
  order := h.order
  bounds := h.bounds
  position := h.position
  covered := by
    intro a ha hne
    by_cases hgone : a.ppid = pid
    · right
      left
      rw [hgone]
      exact hcareful hpid ⟨a, ha, hne, hgone⟩
    · rw [is_live_exit hgone]
      exact h.covered a ha hne

theorem Inv.list_some {next : Int} (h : Inv s) (hopen : s.closed = false)
    (hnext : next_pid s.live s.position = some next) :
    Inv { s with position := next, listed := s.listed ++ [next] } := by
  obtain ⟨hlive, hless, hleast⟩ := next_pid_some_iff.mp hnext
  have hposition := h.position
  refine ⟨h.sound, ?_, ?_, ?_, ?_⟩
  · show (s.recorded ++ (s.listed ++ [next])).Pairwise (· < ·)
    rw [← List.append_assoc, List.pairwise_append]
    refine ⟨h.order, List.pairwise_singleton _ _, fun p hp q hq => ?_⟩
    have hbound := (h.bounds p hp).2
    rw [List.mem_singleton.mp hq]
    omega
  · show ∀ p ∈ s.recorded ++ (s.listed ++ [next]), 0 < p ∧ p ≤ next
    intro p hp
    rw [← List.append_assoc] at hp
    obtain hp | hp := List.mem_append.mp hp
    · have hbound := h.bounds p hp
      omega
    · rw [List.mem_singleton.mp hp]
      omega
  · show 0 ≤ next
    omega
  · refine h.covered_mono rfl ?_
    intro p hp hcoming
    refine ⟨hp, ?_⟩
    obtain hlisted | ⟨_, hahead⟩ := hcoming
    · exact Or.inl (List.mem_append_left _ hlisted)
    · obtain heq | hgreater := Int.le_iff_eq_or_lt.mp (hleast p hp hahead)
      · exact Or.inl (List.mem_append_right _ (List.mem_singleton.mpr heq.symm))
      · exact Or.inr ⟨hopen, hgreater⟩

theorem Inv.list_none (h : Inv s) (hnext : next_pid s.live s.position = none) :
    Inv { s with closed := true } where
  sound := h.sound
  order := h.order
  bounds := h.bounds
  position := h.position
  covered := by
    refine h.covered_mono rfl ?_
    intro p hp hcoming
    obtain hlisted | ⟨_, hahead⟩ := hcoming
    · exact ⟨hp, Or.inl hlisted⟩
    · exact absurd hahead (next_pid_none hnext hp)

/-- A process that has gone is skipped. -/
theorem Inv.read_gone {rest : List Int} (h : Inv s) (hlisted : s.listed = pid :: rest)
    (hgone : s.live.find? (fun a => decide (a.pid = pid)) = none) : Inv { s with listed := rest } := by
  have hdead : ¬ is_live s.live pid = true := by
    intro hlive
    obtain ⟨a, ha, hpid⟩ := is_live_iff.mp hlive
    exact List.find?_eq_none.mp hgone a ha (decide_eq_true hpid)
  have hpart : (s.recorded ++ rest).Sublist (s.recorded ++ s.listed) := by
    rw [hlisted]
    exact (List.Sublist.refl s.recorded).append (List.sublist_cons_self pid rest)
  refine ⟨h.sound, h.order.sublist hpart, fun p hp => h.bounds p (hpart.subset hp), h.position, ?_⟩
  refine h.covered_mono rfl ?_
  intro p hp hcoming
  obtain hahead | hahead := hcoming
  · rw [hlisted] at hahead
    obtain rfl | hahead := List.mem_cons.mp hahead
    · exact absurd hp hdead
    · exact ⟨hp, Or.inl hahead⟩
  · exact ⟨hp, Or.inr hahead⟩

/-- A process that is still there is recorded. -/
theorem Inv.read_live {rest : List Int} {a : Status} (h : Inv s) (hlisted : s.listed = pid :: rest)
    (hfind : s.live.find? (fun a => decide (a.pid = pid)) = some a)
    (hparent : a.pid ≠ 1 → a.ppid ≠ 0 → a.ppid ∈ s.recorded ∨ s.Coming a.ppid) :
    Inv { s with listed := rest, table := s.table ++ [a] } := by
  obtain rfl : a.pid = pid := by simpa using List.find?_some hfind
  have hsame : (s.table ++ [a]).map Status.pid ++ rest = s.recorded ++ s.listed := by
    simp [System.recorded, hlisted]
  have hrecorded {q : Int} (hq : q ∈ s.recorded) : q ∈ (s.table ++ [a]).map Status.pid := by
    rw [List.map_append]
    exact List.mem_append_left _ hq
  -- what was to come is now recorded, or still to come
  have hcoming {q : Int} (hq : s.Coming q) : q ∈ (s.table ++ [a]).map Status.pid ∨
      System.Coming { s with listed := rest, table := s.table ++ [a] } q := by
    obtain hq | hq := hq
    · rw [hlisted] at hq
      obtain rfl | hq := List.mem_cons.mp hq
      · exact Or.inl (by simp)
      · exact Or.inr (Or.inl hq)
    · exact Or.inr (Or.inr hq)
  refine ⟨h.sound, ?_, ?_, h.position, fun b hb hne => ?_⟩
  · have horder := h.order
    rwa [← hsame] at horder
  · have hbounds := h.bounds
    rwa [← hsame] at hbounds
  · obtain hb | hb := List.mem_append.mp hb
    · obtain hzero | hknown | ⟨hlive, hahead⟩ := h.covered b hb hne
      · exact Or.inl hzero
      · exact Or.inr (Or.inl (hrecorded hknown))
      · exact Or.inr ((hcoming hahead).imp_right fun hlater => ⟨hlive, hlater⟩)
    · rw [List.mem_singleton.mp hb] at hne ⊢
      by_cases hzero : a.ppid = 0
      · exact Or.inl hzero
      · have hlive := (h.sound.parents a (List.mem_of_find?_eq_some hfind)).resolve_left hzero
        obtain hknown | hahead := hparent hne hzero
        · exact Or.inr (Or.inl (hrecorded hknown))
        · exact Or.inr ((hcoming hahead).imp_right fun hlater => ⟨hlive, hlater⟩)

theorem Inv.read (h : Inv s) (hcareful : Careful s .read) :
    Inv { s with listed := s.listed.tail, table := s.table ++ s.next_status.toList } := by
  cases hlisted : s.listed with
  | nil =>
    have hnone : s.next_status = none := by simp [System.next_status, hlisted]
    rw [hnone, Option.toList_none, List.append_nil, List.tail_nil, ← hlisted]
    exact h
  | cons pid rest =>
    have hnext : s.next_status = s.live.find? fun a => a.pid = pid := by
      simp [System.next_status, hlisted]
    rw [List.tail_cons]
    cases hfind : s.live.find? fun a => decide (a.pid = pid) with
    | none =>
      rw [hnext, hfind, Option.toList_none, List.append_nil]
      exact h.read_gone hlisted hfind
    | some a =>
      rw [hnext, hfind, Option.toList_some]
      exact h.read_live hlisted hfind (hcareful a (hnext.trans hfind))

theorem step_inv (h : Inv s) (e : Event) (hcareful : Careful s e) : ∃ s', step s e = .ok s' ∧ Inv s' := by
  cases e with
  | fork parent child name =>
    by_cases hfork : is_live s.live parent = true ∧ ¬ is_live s.live child = true
    · exact ⟨_, if_pos hfork, h.fork name hfork.1⟩
    · exact ⟨s, if_neg hfork, h⟩
  | exit pid =>
    by_cases hpid : pid = 1
    · exact ⟨s, if_pos hpid, h⟩
    · exact ⟨_, if_neg hpid, h.exit hpid hcareful⟩
  | list =>
    cases hclosed : s.closed with
    | true => exact ⟨s, by simp [step, hclosed], h⟩
    | false =>
      cases hnext : next_pid s.live s.position with
      | some next => exact ⟨_, by simp only [step, hclosed, hnext]; rfl, h.list_some hclosed hnext⟩
      | none => exact ⟨_, by simp only [step, hclosed, hnext]; rfl, h.list_none hnext⟩
  | read => exact ⟨_, rfl, h.read hcareful⟩

theorem start_inv {live : List Status} (hsound : Sound live) : Inv (start live) where
  sound := hsound
  order := List.Pairwise.nil
  bounds := by simp [start, System.recorded]
  position := Int.le_refl 0
  covered := by simp [start]

/-- When the scan has finished, the table can be linked. -/
theorem Inv.valid (h : Inv s) (hfinished : s.finished = true) : Valid s.table := by
  obtain ⟨hclosed, hlisted⟩ : s.closed = true ∧ s.listed = [] := by
    simpa [System.finished] using hfinished
  have horder := h.order
  have hbounds := h.bounds
  rw [hlisted, List.append_nil] at horder hbounds
  refine ⟨List.pairwise_map.mp horder, fun a ha => (hbounds a.pid (List.mem_map_of_mem ha)).1, ?_⟩
  intro a ha hne
  obtain hzero | hknown | ⟨_, hahead | ⟨hopen, _⟩⟩ := h.covered a ha hne
  · exact Or.inl hzero
  · exact Or.inr (List.mem_map.mp hknown)
  · rw [hlisted] at hahead
    cases hahead
  · rw [hclosed] at hopen
    cases hopen

end Steps

theorem qsort_eq {table : List Status} (h : Valid table) : qsort (table.map new_entry) = table.map new_entry := by
  apply List.mergeSort_of_pairwise
  rw [List.pairwise_map]
  apply h.increasing.imp
  intro a b hless
  exact decide_eq_true (Int.le_of_lt (_proc_cmp_neg.mpr hless))

/-- Processes fork and exit in the middle of the scan of `/proc`. As long as no process exits
    unrecorded while a recorded one has it for its parent, and no process is read whose parent
    the scan has passed unrecorded, the table holds the parent of every process that
    `proctree_build_tree` looks one up for, and no assertion fails there. -/
theorem scan_finds_parents {live : List Status} {events : List Event} (hsound : Sound live)
    (hcareful : Along step Careful (start live) events) :
    Always step (fun s => s.finished = true →
      (∀ a ∈ s.table, a.pid ≠ 1 → a.ppid ≠ 0 → ∃ b ∈ s.table, b.pid = a.ppid) ∧
      ∀ realloc, ∃ result, proctree_build_tree realloc (qsort (s.table.map new_entry)) = .ok result)
      (start live) events := by
  apply Always.of_invariant (fun s e h h' => step_inv h e h') _ (start_inv hsound) hcareful
  intro s h hfinished
  have hvalid := h.valid hfinished
  refine ⟨fun a ha hinit hkernel => (hvalid.parents a ha hinit).resolve_left hkernel, fun realloc => ?_⟩
  rw [qsort_eq hvalid]
  obtain ⟨procs, hbuild, _⟩ | ⟨_, procs, hbuild⟩ := proctree_build_tree_cases realloc hvalid
  · exact ⟨_, hbuild⟩
  · exact ⟨_, hbuild⟩

/-- `init`, a process, and its parent with the higher pid. -/
def higherParent : List Status := [⟨1, 0, [105]⟩, ⟨3, 7, [97]⟩, ⟨7, 1, [98]⟩]

theorem higherParent_sound : Sound higherParent where
  init := by decide
  parents := by decide

/-- The parent is recorded and exits after that. -/
theorem scan_finds_higher_parent :
    Always step (fun s => s.finished = true →
      (∀ a ∈ s.table, a.pid ≠ 1 → a.ppid ≠ 0 → ∃ b ∈ s.table, b.pid = a.ppid) ∧
      ∀ realloc, ∃ result, proctree_build_tree realloc (qsort (s.table.map new_entry)) = .ok result)
      (start higherParent) [.list, .read, .list, .read, .list, .read, .exit 7, .list] :=
  scan_finds_parents higherParent_sound (by decide)

/-- The parent exits when its child has been recorded and it has not. -/
theorem scan_misses_parent :
    Sound higherParent ∧
      ∃ s, run step (start higherParent) [.list, .read, .list, .read, .exit 7, .list] = .ok s ∧
        s.finished = true ∧
        proctree_build_tree (fun _ => true) (qsort (s.table.map new_entry)) = .error .assertion := by
  refine ⟨higherParent_sound, ⟨[⟨1, 0, [105]⟩, ⟨3, 1, [97]⟩], 3, [], true, [⟨1, 0, [105]⟩, ⟨3, 7, [97]⟩]⟩, rfl,
    rfl, ?_⟩
  have hsorted : qsort ([⟨1, 0, [105]⟩, ⟨3, 7, [97]⟩].map new_entry) =
      [⟨1, 0, [105]⟩, ⟨3, 7, [97]⟩].map new_entry :=
    List.mergeSort_of_pairwise (by decide)
  rw [hsorted]
  rfl

end tlpi.proctree
