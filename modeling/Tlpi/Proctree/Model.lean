import Tlpi.Lib.Exec

namespace tlpi.proctree

def CHILD_MAX : Nat := 10

/-- The size of the buffer that a line is put together in. -/
def LINE_MAX : Nat := 2048

/-- What `main` takes from one `/proc/PID/status` file. -/
structure Status where
  pid : Int
  ppid : Int
  name : List UInt8
deriving DecidableEq

/-- `proctree_t`. A pointer to an entry is its index in the table, and the cells of the array
    of children that were never written hold nothing. -/
structure Entry where
  pid : Int
  ppid : Int
  name : List UInt8
  parent : Option Nat
  children : List (Option Nat)
  nr_child : Nat
  max_child : Nat
deriving DecidableEq

/-- The entry that `main` adds to the table. -/
def new_entry (status : Status) : Entry where
  pid := status.pid
  ppid := status.ppid
  name := status.name
  parent := none
  children := List.replicate CHILD_MAX none
  nr_child := 0
  max_child := CHILD_MAX

/-- `_proc_cmp`, on the only fields that it reads. The pids are not negative, so that the
    difference of two of them is again an `int`. -/
def _proc_cmp (x y : Int) : Int := x - y

/-- One iteration of `bsearch` on the part of the table from `l` up to `u`. -/
def bsearch_body (procs : List Entry) (key : Int) (state : Nat × Nat) :
    Exec (Flow (Nat × Nat) (Option Nat)) :=
  let (l, u) := state
  if l < u then
    let idx := (l + u) / 2
    match procs[idx]? with
    | none => .error .outOfBounds
    | some p =>
      if _proc_cmp key p.pid < 0 then .ok (.cont (l, idx))
      else if 0 < _proc_cmp key p.pid then .ok (.cont (idx + 1, u))
      else .ok (.done (some idx))
  else .ok (.done none)

/-- `bsearch` of the C library, for an entry with the given pid. -/
def bsearch (procs : List Entry) (key : Int) : Exec (Option Nat) :=
  loop (bsearch_body procs key) (procs.length + 1) (0, procs.length)

/-- `parent->children[parent->nr_child++] = child`. -/
def store_child (parent : Entry) (child : Nat) : Exec Entry :=
  if parent.nr_child < parent.children.length then
    .ok { parent with
      children := parent.children.set parent.nr_child (some child)
      nr_child := parent.nr_child + 1 }
  else .error .outOfBounds

/-- The children array with room for twice as many. -/
def expand (parent : Entry) : Entry :=
  let new_max_child := 2 * parent.max_child
  { parent with
    children := parent.children ++ List.replicate (new_max_child - parent.children.length) none
    max_child := new_max_child }

/-- The update of the parent's links. There is no result if `realloc` fails. -/
def add_child (realloc : Bool) (parent : Entry) (child : Nat) : Exec (Option Entry) := do
  if parent.nr_child = parent.max_child then
    if realloc then
      let parent ← store_child (expand parent) child
      return some parent
    else return none
  else
    let parent ← store_child parent child
    return some parent

/-- What the loop of `proctree_build_tree` works on. -/
structure Build where
  procs : List Entry
  root : Option Nat
  i : Nat

/-- One iteration of that loop, given what `realloc` does in each. -/
def build_body (realloc : Nat → Bool) (nr_procs : Nat) (s : Build) :
    Exec (Flow Build (List Entry × Option Nat)) :=
  if s.i < nr_procs then
    match s.procs[s.i]? with
    | none => .error .outOfBounds
    | some proc =>
      if proc.pid = 1 then
        .ok (.cont ⟨s.procs.set s.i { proc with parent := none }, some s.i, s.i + 1⟩)
      else if proc.ppid = 0 then .ok (.cont { s with i := s.i + 1 })
      else do
        match ← bsearch s.procs proc.ppid with
        | none => .error .assertion
        | some parent =>
          let procs := s.procs.set s.i { proc with parent := some parent }
          -- read after the first update: a process may be its own parent
          match procs[parent]? with
          | none => .error .outOfBounds
          | some p =>
            match ← add_child (realloc s.i) p s.i with
            | none => return .done (procs, none)
            | some p => return .cont ⟨procs.set parent p, s.root, s.i + 1⟩
  else .ok (.done (s.procs, s.root))

/-- `proctree_build_tree`: the table with its links, and the entry of `init`. -/
def proctree_build_tree (realloc : Nat → Bool) (procs : List Entry) : Exec (List Entry × Option Nat) :=
  loop (build_body realloc procs.length) (procs.length + 1) ⟨procs, none, 0⟩

/-- One line of output: the entry and the level that it is printed for, the text that was put
    together for it, and the pid behind that. -/
structure Line where
  proc : Nat
  level : Nat
  text : List UInt8
  pid : Int

/-- `strcat` in the line buffer, which also has to hold the terminator. -/
def strcat (line str : List UInt8) : Exec (List UInt8) :=
  if line.length + str.length < LINE_MAX then .ok (line ++ str) else .error .outOfBounds

/-- `"\t"`. -/
def tab : List UInt8 := [9]

/-- `"──"`. -/
def dash : List UInt8 := [226, 148, 128, 226, 148, 128]

/-- `"├─"`. -/
def inner_branch : List UInt8 := [226, 148, 156, 226, 148, 128]

/-- `"└─"`. -/
def last_branch : List UInt8 := [226, 148, 148, 226, 148, 128]

/-- The line for an entry, up to its name. -/
def compose (level : Nat) (branch name : List UInt8) : Exec (List UInt8) := do
  let line ← (List.replicate level tab).foldlM strcat []
  if level ≠ 0 then
    let line ← strcat line branch
    let line ← strcat line dash
    strcat line name
  else strcat line name

/-- `proc->children[i]`. -/
def child_at (proc : Entry) (i : Nat) : Exec Nat :=
  match proc.children[i]? with
  | none => .error .outOfBounds
  | some none => .error .uninitialized
  | some (some child) => .ok child

/-- `_do_proctree_print`. The fuel bounds the depth of the recursion. -/
def _do_proctree_print (procs : List Entry) : Nat → Nat → Nat → List UInt8 → Exec (List Line)
  | 0, _, _, _ => .error .diverges
  | fuel + 1, proc, level, branch =>
    match procs[proc]? with
    | none => .error .outOfBounds
    | some p => do
      let text ← compose level branch p.name
      let below ← (List.range p.nr_child).mapM fun i => do
        let child ← child_at p i
        _do_proctree_print procs fuel child (level + 1)
          (if i = p.nr_child - 1 then last_branch else inner_branch)
      return ⟨proc, level, text, p.pid⟩ :: below.flatten

/-- `proctree_print`. -/
def proctree_print (procs : List Entry) (fuel root : Nat) : Exec (List Line) :=
  _do_proctree_print procs fuel root 0 []

end tlpi.proctree
