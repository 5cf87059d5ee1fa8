import Tlpi.Proctree.Print
import Tlpi.Proctree.Scan
import Tlpi.Proctree.Status

namespace tlpi.proctree

open procfs (Describes DirEntry read_status status_text)

/-- Which allocations succeed: the table, its growth at a number of entries, the array of
    children of the entry with a number, and the growth of such an array. -/
structure Replies where
  malloc : Bool
  realloc : Nat → Bool
  children : Nat → Bool
  build : Nat → Bool

/-- The table of processes, and the number of entries that it has room for. -/
structure Proctab where
  entries : List Entry
  MaxProctabSize : Nat

/-- A piece of memory that belongs to the table: the name and the array of children of an entry,
    and the table itself. -/
inductive Chunk where
  | name (i : Nat)
  | children (i : Nat)
  | table
deriving DecidableEq

/-- How the program ends: with its output and what it has freed, or with a message. -/
inductive Ending where
  | exit (out : List Line) (freed : List Chunk)
  | errExit (text : String)
  | fatal (d_name : List UInt8)

/-- One more entry in the table, which is made larger if it is full. -/
def add_entry (replies : Replies) (t : Proctab) (a : Status) : Except Ending Proctab :=
  let nr_procs := t.entries.length
  if nr_procs = t.MaxProctabSize ∧ replies.realloc nr_procs = false then .error (.errExit "realloc() failed")
  else if replies.children nr_procs = false then .error (.errExit "malloc() failed")
  else .ok {
    entries := t.entries ++ [new_entry a]
    MaxProctabSize := if nr_procs = t.MaxProctabSize then 2 * t.MaxProctabSize else t.MaxProctabSize }

/-- The loop over the entries of `/proc`. -/
def scan (replies : Replies) : Proctab → List DirEntry → Exec (Except Ending Proctab)
  | t, [] => .ok (.ok t)
  | t, dir :: rest =>
    if is_digit (dir.d_name.headD 0) = false then scan replies t rest
    else
      match dir.status with
      -- the process has probably exited
      | none => scan replies t rest
      | some text => do
        match ← read_status text with
        | none => return .error (.fatal dir.d_name)
        | some a =>
          match add_entry replies t a with
          | .error ending => return .error ending
          | .ok t => scan replies t rest

/-- `proctree_delete`, on the entries from `procs` on. What is behind the entries was never
    written, and a pointer into the table cannot be freed. -/
def proctree_delete (entries : List Entry) (procs nr_procs : Nat) : Exec (List Chunk) := do
  let chunks ← (List.range nr_procs).mapM fun i =>
    if procs + i < entries.length then .ok [Chunk.name (procs + i), Chunk.children (procs + i)]
    else .error .uninitialized
  if procs = 0 then return chunks.flatten ++ [.table]
  else .error .outOfBounds

/-- `main`, on what `opendir` finds. The fuel bounds the depth of the printed tree. -/
def main (replies : Replies) (fuel : Nat) (proc : Option (List DirEntry)) : Exec Ending :=
  if replies.malloc = false then .ok (.errExit "malloc() failed")
  else
    match proc with
    | none => .ok (.errExit "could not open `/proc' directory")
    | some dirs => do
      match ← scan replies ⟨[], 1024⟩ dirs with
      | .error ending => return ending
      | .ok t =>
        let (procs, ptree) ← proctree_build_tree replies.build (qsort t.entries)
        match ptree with
        | none => return .errExit "proctree_build_tree() failed"
        | some ptree => do
          let out ← proctree_print procs fuel ptree
          let freed ← proctree_delete procs ptree t.entries.length
          return .exit out freed

/-- The entries of `/proc`: processes with their status files, processes that have gone since,
    and names that are no pids. -/
inductive Lists : List DirEntry → List Status → Prop
  | nil : Lists [] []
  | skip {dir : DirEntry} {rest : List DirEntry} {table : List Status}
    (hdir : is_digit (dir.d_name.headD 0) = false ∨ dir.status = none) (hrest : Lists rest table) :
    Lists (dir :: rest) table
  | process {dir : DirEntry} {rest : List DirEntry} {table : List Status} {fields : List procfs.Field} {a : Status}
    (hdigit : is_digit (dir.d_name.headD 0) = true) (hstatus : dir.status = some (status_text fields))
    (hfields : Describes fields a) (hrest : Lists rest table) : Lists (dir :: rest) (a :: table)

/-- No allocation fails. -/
structure Replies.Succeed (replies : Replies) : Prop where
  malloc : replies.malloc = true
  realloc : ∀ n, replies.realloc n = true
  children : ∀ n, replies.children n = true
  build : ∀ n, replies.build n = true

section Main

variable {replies : Replies} {dirs : List DirEntry} {table sorted : List Status}

/-- The table never has more entries than room. -/
theorem add_entry_spec {t : Proctab} (a : Status) (h : replies.Succeed)
    (hroom : t.entries.length ≤ t.MaxProctabSize) (hpos : 0 < t.MaxProctabSize) :
    ∃ t', add_entry replies t a = .ok t' ∧ t'.entries = t.entries ++ [new_entry a] ∧
      t'.entries.length ≤ t'.MaxProctabSize ∧ 0 < t'.MaxProctabSize := by
  have hrealloc : ¬ (t.entries.length = t.MaxProctabSize ∧ replies.realloc t.entries.length = false) := by
    simp [h.realloc]
  have hchildren : ¬ replies.children t.entries.length = false := by simp [h.children]
  refine ⟨⟨t.entries ++ [new_entry a],
    if t.entries.length = t.MaxProctabSize then 2 * t.MaxProctabSize else t.MaxProctabSize⟩, ?_, rfl, ?_, ?_⟩
  · simp only [add_entry, if_neg hrealloc, if_neg hchildren]
  · simp only [List.length_append, List.length_singleton]
    split <;> omega
  · simp only
    split <;> omega

theorem scan_skip {t : Proctab} {dir : DirEntry} (hdir : is_digit (dir.d_name.headD 0) = false ∨ dir.status = none) :
    scan replies t (dir :: dirs) = scan replies t dirs := by
  rw [scan]
  split
  · rfl
  · next hdigit => rw [hdir.resolve_left hdigit]

/-- The scan puts an entry for every process into the table, in the order of the directory, if
    their names are not blank. -/
theorem scan_spec {t : Proctab} (h : replies.Succeed) (hlists : Lists dirs table)
    (hnames : ∀ a ∈ table, a.name ≠ []) (hroom : t.entries.length ≤ t.MaxProctabSize) (hpos : 0 < t.MaxProctabSize)
    (more : List DirEntry) :
    ∃ t', scan replies t (dirs ++ more) = scan replies t' more ∧ t'.entries = t.entries ++ table.map new_entry := by
  induction hlists generalizing t with
  | nil => exact ⟨t, rfl, by simp⟩
  | skip hdir hrest ih =>
    obtain ⟨t', hscan, hentries⟩ := ih hnames hroom hpos
    exact ⟨t', (scan_skip hdir).trans hscan, hentries⟩
  | @process _ _ _ fields a hdigit hstatus hfields hrest ih =>
    obtain ⟨t₁, hadd, hentries₁, hroom₁, hpos₁⟩ := add_entry_spec a h hroom hpos
    obtain ⟨t', hscan, hentries⟩ := ih (fun b hb => hnames b (List.mem_cons_of_mem a hb)) hroom₁ hpos₁
    have hread := procfs.read_status_text _ _ hfields
    rw [if_neg (hnames a List.mem_cons_self)] at hread
    refine ⟨t', ?_, ?_⟩
    · rw [List.cons_append, scan, hdigit, if_neg Bool.noConfusion, hstatus]
      simp only [hread, exec_bind_ok, hadd]
      exact hscan
    · rw [hentries, hentries₁, List.map_cons, List.append_assoc, List.singleton_append]

/-- A process that goes between the opening and the reading of its status file ends the program. -/
theorem main_lost (replies : Replies) (fuel : Nat) {dir : DirEntry} (more : List DirEntry) (hreplies : replies.Succeed)
    (hlists : Lists dirs table) (hnames : ∀ a ∈ table, a.name ≠ []) (hdigit : is_digit (dir.d_name.headD 0) = true)
    (hstatus : dir.status = some []) :
    main replies fuel (some (dirs ++ dir :: more)) = .ok (.fatal dir.d_name) := by
  obtain ⟨t, hscan, -⟩ :=
    scan_spec (t := ⟨[], 1024⟩) hreplies hlists hnames (by simp) (by simp) (dir :: more)
  have hlost : scan replies t (dir :: more) = .ok (.error (.fatal dir.d_name)) := by
    rw [scan, hdigit, if_neg Bool.noConfusion, hstatus]
    rfl
  rw [main, if_neg (by simp [hreplies.malloc])]
  simp only [hscan, hlost, exec_bind_ok]
  rfl

end Main

end tlpi.proctree
