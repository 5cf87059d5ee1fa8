import Tlpi.Lib.Exec
import Tlpi.Machine

namespace tlpi.getpwnam

/-- The fields of `struct passwd` that are read. -/
structure Passwd where
  pw_name : String
  pw_uid : Nat
deriving DecidableEq, Repr

/-- What the library calls leave in `errno`, from what they find there. A call that succeeds
    may change it as well. The calls of the loop are told apart by their number. -/
structure Library where
  setpwent : Errno → Errno
  getpwent : Nat → Errno → Errno
  strcmp : Nat → Errno → Errno
  endpwent : Errno → Errno

/-- The entries that `getpwent` finds, its position among them, and `errno`. -/
structure Process where
  db : List Passwd
  pos : Nat
  errno : Errno

section Calls

variable (lib : Library) (p : Process)

def setpwent : Process := { p with pos := 0, errno := lib.setpwent p.errno }

/-- The next entry, or `NULL` behind the last one. -/
def getpwent : Process × Option Passwd :=
  ({ p with pos := p.pos + 1, errno := lib.getpwent p.pos p.errno }, p.db[p.pos]?)

/-- The comparison of the entry that was read last. -/
def strcmp (a b : String) : Process × Int :=
  ({ p with errno := lib.strcmp (p.pos - 1) p.errno }, if a = b then 0 else if a < b then -1 else 1)

def endpwent : Process := { p with pos := 0, errno := lib.endpwent p.errno }

/-- One iteration of the loop over the entries. -/
def xgetpwnam_body (errno_save : Errno) (name : String) (p : Process) :
    Exec (Flow Process (Process × Option Passwd)) :=
  let (p, entry) := getpwent lib p
  match entry with
  | none => .ok (.done (p, none))
  | some entry =>
    let p := { p with errno := errno_save }
    let (p, order) := strcmp lib p entry.pw_name name
    if order = 0 then .ok (.done ({ p with errno := errno_save }, some entry)) else .ok (.cont p)

def xgetpwnam (name : String) : Exec (Process × Option Passwd) := do
  let errno_save := p.errno
  let p := setpwent lib p
  let (p, entry) ← loop (xgetpwnam_body lib errno_save name) (p.db.length + 1) p
  -- the last call, after errno has been restored
  return (endpwent lib p, entry)

end Calls

/-- How the program ends: with its output, or in one of the functions that print a text and exit.
    `usageErr` comes after a first line on the standard error. -/
inductive Ending where
  | success (stdout : String)
  | usageErr (stderr text : String)
  | errExit (text : String) (errno : Errno)
  | fatal (text : String)
deriving DecidableEq, Repr

/-- The `int` as which `%d` prints a `uid_t`. -/
def uid_as_int (uid : Nat) : Int := if uid < 2 ^ 31 then uid else (uid : Int) - 2 ^ 32

def usage_error (stderr progname : String) : Ending := .usageErr stderr (progname ++ " USERNAME\n")

/-- The line that `main` prints for an entry. -/
def uid_line (username : String) (entry : Passwd) : String :=
  "UID of user `" ++ username ++ "' is " ++ toString (uid_as_int entry.pw_uid) ++ "\n"

def no_entry (username : String) : String := "no passwd entry found for username " ++ username

/-- `main`, on `argv`. -/
def main (lib : Library) (p : Process) : List String → Exec Ending
  | [] => .error .nullPointer
  | [progname] => .ok (usage_error (progname ++ ": too few arguments\n") progname)
  | _ :: username :: _ => do
    let (p, entry) ← xgetpwnam lib { p with errno := .other 0 } username
    match entry with
    | none =>
      return if p.errno ≠ .other 0 then .errExit "xgetpwnam() failed" p.errno else .fatal (no_entry username)
    | some entry => return .success (uid_line username entry)

section Scan

variable (lib : Library) (p : Process) {name : String} {front back : List Passwd} {entry : Passwd}

/-- Before its call of `getpwent` with this number, the loop finds in `errno` what the call before
    has left there: `setpwent`, or the `strcmp` of another name. -/
def scanned : Nat → Process
  | 0 => setpwent lib p
  | n + 1 => { p with pos := n + 1, errno := lib.strcmp n p.errno }

@[simp] theorem scanned_db (n : Nat) : (scanned lib p n).db = p.db := by cases n <;> rfl

@[simp] theorem scanned_pos (n : Nat) : (scanned lib p n).pos = n := by cases n <;> rfl

theorem strcmp_zero_iff (a b : String) : (strcmp lib p a b).2 = 0 ↔ a = b := by
  unfold strcmp
  split_ifs with heq hlt
  · simp [heq]
  · simp [heq]
  · simp [heq]

/-- An entry with another name leads on to the next one. -/
theorem xgetpwnam_body_other (hdb : p.db = front ++ entry :: back) (hother : entry.pw_name ≠ name) :
    xgetpwnam_body lib p.errno name (scanned lib p front.length) =
      .ok (.cont (scanned lib p (front.length + 1))) := by
  have hread : p.db[front.length]? = some entry := by simp [hdb]
  simp only [xgetpwnam_body, getpwent, scanned_db, scanned_pos, hread]
  rw [if_neg (mt (strcmp_zero_iff lib _ _ _).mp hother)]
  simp [strcmp, scanned]

theorem xgetpwnam_body_match (hdb : p.db = front ++ entry :: back) (hmatch : entry.pw_name = name) :
    xgetpwnam_body lib p.errno name (scanned lib p front.length) =
      .ok (.done ({ p with pos := front.length + 1 }, some entry)) := by
  have hread : p.db[front.length]? = some entry := by simp [hdb]
  simp only [xgetpwnam_body, getpwent, scanned_db, scanned_pos, hread]
  rw [if_pos ((strcmp_zero_iff lib _ _ _).mpr hmatch)]
  simp [strcmp]

theorem xgetpwnam_body_end :
    xgetpwnam_body lib p.errno name (scanned lib p p.db.length) =
      .ok (.done ((getpwent lib (scanned lib p p.db.length)).1, none)) := by
  simp [xgetpwnam_body, getpwent]

/-- The loop goes past the entries with other names, to where it is done. -/
theorem xgetpwnam_scan (hdb : p.db = front ++ back) (hothers : ∀ e ∈ front, e.pw_name ≠ name)
    {result : Process × Option Passwd}
    (hend : xgetpwnam_body lib p.errno name (scanned lib p front.length) = .ok (.done result)) :
    xgetpwnam lib p name = .ok (endpwent lib result.1, result.2) := by
  have hloop : loop (xgetpwnam_body lib p.errno name) (p.db.length + 1) (scanned lib p 0) = .ok result := by
    refine loop_list (fun done _ => scanned lib p done.length) front back (fun done a rest hsplit => ?_) hend ?_
    · have hdb' : p.db = done ++ a :: (rest ++ back) := by simp [hdb, hsplit]
      rw [xgetpwnam_body_other lib p hdb' (hothers a (by simp [hsplit])), List.length_append,
        List.length_singleton]
    · rw [hdb, List.length_append]
      omega
  have hstart : setpwent lib p = scanned lib p 0 := rfl
  simp only [xgetpwnam, hstart, scanned_db, hloop, exec_bind_ok, exec_pure]

/-- The first entry with the name is returned, with what `endpwent` makes of the `errno` of the
    caller. -/
theorem xgetpwnam_found (hfind : p.db.find? (fun e => e.pw_name = name) = some entry) :
    xgetpwnam lib p name = .ok ({ p with pos := 0, errno := lib.endpwent p.errno }, some entry) := by
  obtain ⟨hmatch, front, back, hdb, hothers⟩ := List.find?_eq_some_iff_append.mp hfind
  rw [xgetpwnam_scan lib p hdb (fun e he => by simpa using hothers e he)
    (xgetpwnam_body_match lib p hdb (of_decide_eq_true hmatch))]
  rfl

/-- Without such an entry, `errno` is whatever the last call of `getpwent` and `endpwent` leave. -/
theorem xgetpwnam_missing (hothers : ∀ e ∈ p.db, e.pw_name ≠ name) :
    xgetpwnam lib p name =
      .ok (endpwent lib (getpwent lib (scanned lib p p.db.length)).1, none) :=
  xgetpwnam_scan lib p (List.append_nil p.db).symm hothers (xgetpwnam_body_end lib p)

/-- `main` prints the UID of the first entry with the name, whatever the calls do to `errno`. -/
theorem main_prints_uid (hfind : p.db.find? (fun e => e.pw_name = name) = some entry) (progname : String)
    (args : List String) : main lib p (progname :: name :: args) = .ok (.success (uid_line name entry)) := by
  rw [main, xgetpwnam_found lib { p with errno := .other 0 } hfind]
  rfl

/-- `main` reports an unknown name as such if and only if the calls after the last comparison
    leave `errno` at zero. -/
theorem main_fatal_iff (hothers : ∀ e ∈ p.db, e.pw_name ≠ name) (progname : String) (args : List String) :
    main lib p (progname :: name :: args) = .ok (.fatal (no_entry name)) ↔
      lib.endpwent (lib.getpwent p.db.length (scanned lib { p with errno := .other 0 } p.db.length).errno) =
        .other 0 := by
  rw [main, xgetpwnam_missing lib { p with errno := .other 0 } hothers, exec_bind_ok]
  simp only [endpwent, getpwent, scanned_pos]
  split_ifs with hzero
  · exact iff_of_false (by simp) hzero
  · exact iff_of_true rfl (not_not.mp hzero)

end Scan

/-- The call returns the first entry with the name, and `errno` is as it was on entry. -/
def KeepsErrno (lib : Library) (p : Process) (name : String) : Prop :=
  ∃ p' entry, xgetpwnam lib p name = .ok (p', some entry) ∧
    p.db.find? (fun e => e.pw_name = name) = some entry ∧ p'.errno = p.errno

/-- A successful `xgetpwnam` leaves `errno` alone if and only if `endpwent` does: nothing
    restores it after that call. -/
theorem keepsErrno_iff (lib : Library) (p : Process) (name : String)
    (hname : ∃ entry ∈ p.db, entry.pw_name = name) :
    KeepsErrno lib p name ↔ lib.endpwent p.errno = p.errno := by
  obtain ⟨e, hmem, hmatch⟩ := hname
  have hsome : (p.db.find? fun e => e.pw_name = name).isSome := by
    rw [List.find?_isSome]
    exact ⟨e, hmem, decide_eq_true hmatch⟩
  obtain ⟨entry, hfind⟩ := Option.isSome_iff_exists.mp hsome
  have hrun := xgetpwnam_found lib p hfind
  constructor
  · rintro ⟨p', entry', hrun', _, herrno⟩
    rw [hrun] at hrun'
    cases hrun'
    exact herrno
  · intro hkeep
    exact ⟨_, entry, hrun, hfind, hkeep⟩

/-- A library in which only `endpwent` leaves `errno` alone. -/
def quietEnd : Library where
  setpwent := fun _ => .EBADF
  getpwent := fun _ _ => .EINVAL
  strcmp := fun _ _ => .EINVAL
  endpwent := id

/-- A library in which only `endpwent` changes `errno`. -/
def noisyEnd : Library where
  setpwent := id
  getpwent := fun _ => id
  strcmp := fun _ => id
  endpwent := fun _ => .EINVAL

def twoUsers : Process := ⟨[⟨"root", 0⟩, ⟨"user", 1000⟩], 0, .other 0⟩

theorem keepsErrno_quietEnd : KeepsErrno quietEnd twoUsers "user" :=
  (keepsErrno_iff quietEnd twoUsers "user" ⟨⟨"user", 1000⟩, by decide, rfl⟩).mpr rfl

theorem keepsErrno_noisyEnd_fails :
    (∃ entry ∈ twoUsers.db, entry.pw_name = "user") ∧ ¬ KeepsErrno noisyEnd twoUsers "user" := by
  refine ⟨⟨⟨"user", 1000⟩, by decide, rfl⟩, ?_⟩
  rintro ⟨p', entry, hrun, hfind, herrno⟩
  rw [xgetpwnam_found noisyEnd twoUsers hfind] at hrun
  cases hrun
  cases herrno

end tlpi.getpwnam
