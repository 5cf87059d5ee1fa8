import Mathlib.Logic.Function.Basic
import Tlpi.Lib.Exec
import Tlpi.Machine

namespace tlpi.setenv

/-- `sizeof(*EnvList)`. -/
def sizeof_pointer : Nat := 8

/-- The C library allocates no object that is larger than this. -/
def PTRDIFF_MAX : Nat := 2 ^ 63 - 1

/-- An element of the `EnvList` array. -/
inductive Cell where
  | uninit
  | null
  | ptr (p : Nat)
deriving DecidableEq, Repr

/-- The C string at each address, `environ` up to its null pointer, the static variables of
    `setenv.c`, and `errno`. -/
structure Env where
  string : Nat → List Char
  environ : List Nat
  EnvList : Option (List Cell)
  NextEnvVar : Nat
  EnvListCapacity : Nat
  errno : Errno

/-- The answers to the calls that `xsetenv` makes: `malloc` and `realloc` of `EnvList`,
    `malloc` and `realloc` of a string, and `putenv`. -/
structure Replies where
  list : Bool
  grow : Bool
  envvar : Option Nat
  resize : Option Nat
  putenv : Bool

namespace Env

def set_string (e : Env) (p : Nat) (str : List Char) : Env :=
  { e with string := Function.update e.string p str }

/-- A store into `EnvList`. -/
def set_cell (e : Env) (i : Nat) (cell : Cell) : Exec Env :=
  match e.EnvList with
  | none => .error .nullPointer
  | some cells =>
    if i < cells.length then .ok { e with EnvList := some (cells.set i cell) }
    else .error .outOfBounds

end Env

/-- `strchr(str, '=') + 1`. -/
def after_equals : List Char → Option (List Char)
  | [] => none
  | c :: rest => if c = '=' then some rest else after_equals rest

/-- The value of an environment entry, if it is one of this name. -/
def entry_value (name str : List Char) : Option (List Char) :=
  if (name ++ ['=']).isPrefixOf str then some (str.drop (name.length + 1)) else none

def getenv (e : Env) (name : List Char) : Option (List Char) :=
  e.environ.findSome? fun p => entry_value name (e.string p)

/-- `putenv` replaces the first entry of the same name or adds one. A string without an
    equals sign removes the variable of that name. -/
def putenv (e : Env) (granted : Bool) (p : Nat) : Env × Int :=
  let str := e.string p
  let name := str.takeWhile (· ≠ '=')
  if granted = false then ({ e with errno := .ENOMEM }, -1)
  else if '=' ∈ str then
    match e.environ.findIdx? fun q => (entry_value name (e.string q)).isSome with
    | some i => ({ e with environ := e.environ.set i p }, 0)
    | none => ({ e with environ := e.environ ++ [p] }, 0)
  else ({ e with environ := e.environ.filter fun q => (entry_value str (e.string q)).isNone }, 0)

/-- The number of cells that an allocation of `EnvList` gives. -/
def list_cells (granted : Bool) (capacity : Nat) : Option Nat :=
  let bytes := capacity * sizeof_pointer % 2 ^ 64
  if granted = true ∧ bytes ≤ PTRDIFF_MAX then some (bytes / sizeof_pointer) else none

/-- `!strlen(name) || strchr(name, '=')`. -/
def invalid_name (name : List Char) : Bool := name.isEmpty || name.contains '='

/-- One iteration of `xunsetenv`. -/
def blank (name : List Char) (e : Env) (p : Nat) : Env :=
  if name.isPrefixOf (e.string p) then e.set_string p [] else e

def xunsetenv (e : Env) (name : Option (List Char)) : Env × Int :=
  match name with
  | none => ({ e with errno := .EINVAL }, -1)
  | some name =>
    if invalid_name name then ({ e with errno := .EINVAL }, -1)
    else (e.environ.foldl (blank name) e, 0)

/-- The loop over the cells of `EnvList`: the index of the pointer, if it comes before the
    null pointer. -/
def find_pointer (p : Nat) : List Cell → Exec (Option Nat)
  | [] => .error .outOfBounds
  | .uninit :: _ => .error .uninitialized
  | .null :: _ => .ok none
  | .ptr q :: rest =>
    if q = p then .ok (some 0)
    else do
      let np ← find_pointer p rest
      return np.map (· + 1)

def walk_EnvList (e : Env) (p : Nat) : Exec (Option Nat) :=
  match e.EnvList with
  | none => .error .nullPointer
  | some cells => find_pointer p cells

/-- The body of the search of `xsetenv` at an entry that begins with the name. It returns
    from `xsetenv`, or it leaves the search with the variable unset. -/
def overwrite_entry (e : Env) (r : Replies) (name value : List Char) (ep p : Nat) :
    Exec (Flow Env (Env × Int)) :=
  let overwritten := (e.string p).take (name.length + 1) ++ value
  match after_equals (e.string p) with
  | none => .error .nullPointer
  | some existing_value =>
    if value.length < existing_value.length then .ok (.done (e.set_string p overwritten, 0))
    else do
      match ← walk_EnvList e p with
      | some np =>
        match r.resize with
        | none => return .done ({ e with environ := e.environ.take ep, errno := .ENOMEM }, -1)
        | some q =>
          let e := { e with environ := e.environ.set ep q }
          let e ← e.set_cell np (.ptr q)
          let e := e.set_string q overwritten
          return .done ((putenv e r.putenv q).1, 0)
      | none => return .cont (xunsetenv e (some name)).1

/-- The search of `xsetenv` for an entry to overwrite. -/
def xsetenv_existing (e : Env) (r : Replies) (name value : List Char) : Exec (Flow Env (Env × Int)) :=
  match e.environ.findIdx? fun p => name.isPrefixOf (e.string p) with
  | none => .ok (.cont e)
  | some ep => overwrite_entry e r name value ep (e.environ.getD ep 0)

/-- `EnvList` is created by the first call that gets so far. -/
def create_list (e : Env) (r : Replies) : Option Env :=
  match e.EnvList with
  | some _ => some e
  | none => (list_cells r.list e.EnvListCapacity).map fun n =>
    { e with EnvList := some (List.replicate n .uninit), NextEnvVar := 0 }

def resize_cells (n : Nat) (cells : List Cell) : List Cell :=
  cells.take n ++ List.replicate (n - cells.length) .uninit

/-- `EnvList` is doubled when only the cell of the null pointer is left. The new capacity
    stays when `realloc` fails. -/
def grow_list (e : Env) (r : Replies) : Env × Bool :=
  if e.NextEnvVar = size_sub e.EnvListCapacity 1 then
    let e := { e with EnvListCapacity := e.EnvListCapacity * 2 % 2 ^ 64 }
    match list_cells r.grow e.EnvListCapacity with
    | none => ({ e with EnvList := none }, false)
    | some n => ({ e with EnvList := e.EnvList.map (resize_cells n) }, true)
  else (e, true)

/-- The new string goes into `EnvList` before its characters are written. -/
def add_envvar (e : Env) (envvar : Nat) (name value : List Char) : Exec Env := do
  let e ← e.set_cell e.NextEnvVar (.ptr envvar)
  let e := { e with NextEnvVar := e.NextEnvVar + 1 }
  let e ← e.set_cell e.NextEnvVar .null
  return e.set_string envvar (name ++ '=' :: value)

/-- `xsetenv` from the creation of `EnvList` on. -/
def xsetenv_new (e : Env) (r : Replies) (name value : List Char) : Exec (Env × Int) :=
  match create_list e r with
  | none => .ok ({ e with errno := .ENOMEM }, -1)
  | some e =>
    match r.envvar with
    | none => .ok ({ e with errno := .ENOMEM }, -1)
    | some envvar =>
      match grow_list e r with
      | (e, false) => .ok ({ e with errno := .ENOMEM }, -1)
      | (e, true) => do
        let e ← add_envvar e envvar name value
        return putenv e r.putenv envvar

def xsetenv (e : Env) (r : Replies) (name : Option (List Char)) (value : List Char) (overwrite : Int) :
    Exec (Env × Int) :=
  match name with
  | none => .ok ({ e with errno := .EINVAL }, -1)
  | some name =>
    if invalid_name name then .ok ({ e with errno := .EINVAL }, -1)
    else
      match getenv e name with
      | none => xsetenv_new e r name value
      | some _ =>
        if overwrite = 0 then .ok (e, 0)
        else do
          match ← xsetenv_existing e r name value with
          | .done result => return result
          | .cont e => xsetenv_new e r name value

/-- A call of one of the two functions. -/
inductive Call where
  | xsetenv (name : Option (List Char)) (value : List Char) (overwrite : Int) (replies : Replies)
  | xunsetenv (name : Option (List Char))

def exec (e : Env) : Call → Exec (Env × Int)
  | .xsetenv name value overwrite r => xsetenv e r name value overwrite
  | .xunsetenv name => .ok (xunsetenv e name)

end tlpi.setenv
