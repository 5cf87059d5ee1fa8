import Mathlib.Data.List.Basic
import Tlpi.Lib.Exec
import Tlpi.Machine

namespace tlpi.initgroups

def NGROUPS_MAX : Nat := 65536

/-- The fields of `struct group` that are read. -/
structure Group where
  gr_gid : Nat
  gr_mem : List String

/-- The credentials of the calling process. -/
structure Process where
  ruid : Nat
  euid : Nat
  suid : Nat
  groups : List Nat
  errno : Errno

/-- What the calls that may fail answer: `malloc`, and `setgroups` on a list of
    acceptable length. -/
structure Outcome where
  malloc : Bool
  setgroups : Bool

/-- Setting the effective uid to 0 takes a real, effective or saved uid of 0; an
    effective uid of 0 may become anything. -/
def seteuid (p : Process) (uid : Nat) : Process × Int :=
  if p.euid = 0 ∨ uid = p.ruid ∨ uid = p.euid ∨ uid = p.suid then ({ p with euid := uid }, 0)
  else ({ p with errno := .EPERM }, -1)

def setgroups (granted : Bool) (p : Process) (list : List Nat) : Process × Int :=
  if NGROUPS_MAX < list.length then ({ p with errno := .EINVAL }, -1)
  else if granted then ({ p with groups := list }, 0)
  else ({ p with errno := .EPERM }, -1)

/-- `groups[nr_groups++] = gid`, in an array of `NGROUPS_MAX + 1` cells of which the
    first `nr_groups` are in `groups`. -/
def store_group (groups : List Nat) (gid : Nat) : Exec (List Nat) :=
  if groups.length < NGROUPS_MAX + 1 then .ok (groups ++ [gid]) else .error .outOfBounds

/-- The inner loop, over the members of one group. -/
def collect_members (user : String) (gid : Nat) : List String → List Nat → Exec (List Nat)
  | [], groups => .ok groups
  | pmemb :: rest, groups =>
    if pmemb = user then do
      let groups ← store_group groups gid
      collect_members user gid rest groups
    else collect_members user gid rest groups

/-- The outer loop, over the entries that `getgrent` returns. -/
def collect_groups (user : String) : List Group → List Nat → Exec (List Nat)
  | [], groups => .ok groups
  | grpent :: rest, groups => do
    let groups ← collect_members user grpent.gr_gid grpent.gr_mem groups
    collect_groups user rest groups

def xinitgroups (out : Outcome) (db : List Group) (p : Process) (user : String) (group : Nat) :
    Exec (Process × Int) :=
  if !out.malloc then .ok ({ p with errno := .ENOMEM }, -1)
  else do
    let groups ← collect_groups user db []
    let groups ← store_group groups group
    let euid := p.euid
    let raised := if euid ≠ 0 then seteuid p 0 else (p, 0)
    if raised.2 < 0 then return (raised.1, -1)
    let set := setgroups out.setgroups raised.1 groups
    -- this exit skips the restoring seteuid()
    if set.2 < 0 then return (set.1, -1)
    return ((seteuid set.1 euid).1, 0)

/-- The gids that list the user, in database order, once per listing. -/
def listings (user : String) (db : List Group) : List Nat :=
  db.flatMap fun grpent => (grpent.gr_mem.filter (· = user)).map fun _ => grpent.gr_gid

/-- Storing a whole list of gids succeeds exactly when it fits behind what is there. -/
def stored (groups gids : List Nat) : Exec (List Nat) :=
  if gids = [] ∨ groups.length + gids.length ≤ NGROUPS_MAX + 1 then .ok (groups ++ gids)
  else .error .outOfBounds

theorem store_group_eq (groups : List Nat) (gid : Nat) : store_group groups gid = stored groups [gid] := by
  have hroom : ([gid] = [] ∨ groups.length + [gid].length ≤ NGROUPS_MAX + 1) ↔
      groups.length < NGROUPS_MAX + 1 := by
    rw [or_iff_right (List.cons_ne_nil gid []), List.length_singleton, Nat.add_one_le_iff]
  simp only [store_group, stored, hroom]

/-- Storing in two portions is storing the two portions together. -/
theorem stored_append (groups first second : List Nat) :
    (stored groups first >>= fun groups => stored groups second) = stored groups (first ++ second) := by
  by_cases hfirst : first = []
  · subst first
    simp [stored]
  by_cases hfit : groups.length + first.length ≤ NGROUPS_MAX + 1
  · rw [stored, if_pos (Or.inr hfit), exec_bind_ok]
    by_cases hsecond : second = []
    · subst second
      simp [stored, hfit]
    · simp [stored, hfirst, hsecond, Nat.add_assoc]
  · have hall : ¬ groups.length + (first.length + second.length) ≤ NGROUPS_MAX + 1 := by omega
    simp [stored, hfirst, hfit, hall]

theorem stored_nil (groups : List Nat) : stored groups [] = .ok groups := by simp [stored]

theorem collect_members_eq (user : String) (gid : Nat) (members : List String) (groups : List Nat) :
    collect_members user gid members groups =
      stored groups ((members.filter (· = user)).map fun _ => gid) := by
  induction members generalizing groups with
  | nil => simp [collect_members, stored_nil]
  | cons pmemb rest ih =>
    by_cases hmatch : pmemb = user
    · rw [collect_members, if_pos hmatch, store_group_eq]
      simp only [ih, List.filter_cons, hmatch, decide_true, if_true, List.map_cons]
      exact stored_append groups [gid] _
    · rw [collect_members, if_neg hmatch, ih]
      simp [hmatch]

/-- The two nested loops store the user's listings, or run past the array. -/
theorem collect_groups_eq (user : String) (db : List Group) (groups : List Nat) :
    collect_groups user db groups = stored groups (listings user db) := by
  induction db generalizing groups with
  | nil => simp [collect_groups, listings, stored_nil]
  | cons grpent rest ih =>
    simp only [collect_groups, collect_members_eq, ih]
    rw [stored_append]
    simp [listings]

/-- The stores of `xinitgroups` into its array, and the list that they leave there. -/
def collected (user : String) (db : List Group) (group : Nat) : Exec (List Nat) := do
  let groups ← collect_groups user db []
  store_group groups group

/-- The list that reaches `setgroups`: the user's listings and then the given group. -/
theorem collected_eq (user : String) (db : List Group) (group : Nat) :
    collected user db group =
      if (listings user db).length ≤ NGROUPS_MAX then .ok (listings user db ++ [group])
      else .error .outOfBounds := by
  simp only [collected, collect_groups_eq, store_group_eq]
  rw [stored_append]
  simp [stored]

/-- The privileged part, on the list that was collected. -/
def set_as_root (out : Outcome) (p : Process) (groups : List Nat) : Process × Int :=
  let raised := if p.euid ≠ 0 then seteuid p 0 else (p, 0)
  if raised.2 < 0 then (raised.1, -1)
  else
    let set := setgroups out.setgroups raised.1 groups
    if set.2 < 0 then (set.1, -1) else ((seteuid set.1 p.euid).1, 0)

/-- `xinitgroups` in its two parts. -/
theorem xinitgroups_parts {out : Outcome} (db : List Group) (p : Process) (user : String) (group : Nat)
    (hmalloc : out.malloc = true) :
    xinitgroups out db p user group = do
      let groups ← collected user db group
      return set_as_root out p groups := by
  simp only [xinitgroups, collected, hmalloc, Bool.not_true, Bool.false_eq_true, if_false, bind_assoc]
  refine bind_congr fun groups => bind_congr fun groups => ?_
  simp only [set_as_root]
  split_ifs <;> rfl

theorem xinitgroups_eq (out : Outcome) (db : List Group) (p : Process) (user : String) (group : Nat) :
    xinitgroups out db p user group =
      if out.malloc = false then .ok ({ p with errno := .ENOMEM }, -1)
      else if (listings user db).length ≤ NGROUPS_MAX then
        .ok (set_as_root out p (listings user db ++ [group]))
      else .error .outOfBounds := by
  cases hmalloc : out.malloc with
  | false => simp [xinitgroups, hmalloc]
  | true =>
    rw [if_neg (show ¬ true = false by decide), xinitgroups_parts db p user group hmalloc, collected_eq]
    split <;> rfl

theorem seteuid_zero_fails {p : Process} (h : p.euid ≠ 0) (hruid : p.ruid ≠ 0) (hsuid : p.suid ≠ 0) :
    seteuid p 0 = ({ p with errno := .EPERM }, -1) := by
  rw [seteuid, if_neg]
  simp [h, Ne.symm h, Ne.symm hruid, Ne.symm hsuid]

theorem seteuid_zero_succeeds {p : Process} (h : p.ruid = 0 ∨ p.suid = 0) :
    seteuid p 0 = ({ p with euid := 0 }, 0) := by
  rw [seteuid, if_pos]
  obtain h | h := h <;> simp [h]

theorem seteuid_from_root {p : Process} (uid : Nat) (h : p.euid = 0) :
    seteuid p uid = ({ p with euid := uid }, 0) := by
  rw [seteuid, if_pos (Or.inl h)]

theorem setgroups_euid (granted : Bool) (p : Process) (list : List Nat) :
    (setgroups granted p list).1.euid = p.euid := by
  unfold setgroups
  split_ifs <;> rfl

theorem setgroups_fails_iff (granted : Bool) (p : Process) (list : List Nat) :
    (setgroups granted p list).2 < 0 ↔ ¬ (granted = true ∧ list.length ≤ NGROUPS_MAX) := by
  unfold setgroups
  split_ifs <;> simp_all

/-- Once the effective uid is 0, it goes back only through the successful exit. -/
theorem set_as_root_raised {out : Outcome} {p : Process} {groups : List Nat} (h : p.euid ≠ 0)
    (hmay : p.ruid = 0 ∨ p.suid = 0) :
    (set_as_root out p groups).1.euid = p.euid ↔ out.setgroups = true ∧ groups.length ≤ NGROUPS_MAX := by
  have hroot := setgroups_euid out.setgroups { p with euid := 0 } groups
  have hfails := setgroups_fails_iff out.setgroups { p with euid := 0 } groups
  simp only [set_as_root, if_pos h, seteuid_zero_succeeds hmay]
  by_cases hset : out.setgroups = true ∧ groups.length ≤ NGROUPS_MAX
  · have hok := mt hfails.mp (not_not.mpr hset)
    rw [if_neg (by decide), if_neg hok, seteuid_from_root _ hroot]
    exact iff_of_true rfl hset
  · have hfail := hfails.mpr hset
    rw [if_neg (by decide), if_pos hfail, hroot]
    exact iff_of_false (Ne.symm h) hset

theorem set_as_root_unprivileged {out : Outcome} {p : Process} {groups : List Nat} (h : p.euid ≠ 0)
    (hruid : p.ruid ≠ 0) (hsuid : p.suid ≠ 0) : (set_as_root out p groups).1.euid = p.euid := by
  simp [set_as_root, h, seteuid_zero_fails h hruid hsuid]

theorem set_as_root_of_root {out : Outcome} {p : Process} {groups : List Nat} (h : p.euid = 0) :
    (set_as_root out p groups).1.euid = p.euid := by
  have hroot := (setgroups_euid out.setgroups p groups).trans h
  simp only [set_as_root, h, ne_eq, not_true_eq_false, if_false]
  split_ifs
  · exact h
  · exact hroot
  · rw [seteuid_from_root _ hroot]

/-- The call returns, and with the effective uid that it was entered with. -/
def RestoresEuid (out : Outcome) (db : List Group) (p : Process) (user : String) (group : Nat) : Prop :=
  ∃ result, xinitgroups out db p user group = .ok result ∧ result.1.euid = p.euid

/-- The effective uid is restored exactly when the array is not overrun and the call
    is not left through the failing `setgroups` with privileges just raised. -/
theorem restoresEuid_iff (out : Outcome) (db : List Group) (p : Process) (user : String) (group : Nat) :
    RestoresEuid out db p user group ↔
      out.malloc = false ∨
      ((listings user db).length ≤ NGROUPS_MAX ∧
        (p.euid = 0 ∨ (p.ruid ≠ 0 ∧ p.suid ≠ 0) ∨
          (out.setgroups = true ∧ (listings user db).length < NGROUPS_MAX))) := by
  rw [RestoresEuid, xinitgroups_eq]
  by_cases hmalloc : out.malloc = false
  · simp [hmalloc]
  by_cases hfit : (listings user db).length ≤ NGROUPS_MAX
  · rw [if_neg hmalloc, if_pos hfit]
    simp only [Bool.not_eq_false] at hmalloc
    simp only [hmalloc, Bool.true_eq_false, hfit, false_or, true_and, Except.ok.injEq, exists_eq_left']
    by_cases hroot : p.euid = 0
    · simp [set_as_root_of_root hroot, hroot]
    by_cases hmay : p.ruid = 0 ∨ p.suid = 0
    · have hnot : ¬ (p.ruid ≠ 0 ∧ p.suid ≠ 0) := by tauto
      rw [set_as_root_raised hroot hmay, List.length_append, List.length_singleton, Nat.add_one_le_iff]
      simp [hroot, hnot]
    · obtain ⟨hruid, hsuid⟩ := not_or.mp hmay
      simp [set_as_root_unprivileged hroot hruid hsuid, hruid, hsuid]
  · simp [hmalloc, hfit]

/-- A set-user-ID-root program that runs with its real uid, and a kernel that refuses
    `setgroups`: the call fails and leaves the process with effective uid 0. -/
theorem refused_setgroups_keeps_root :
    ¬ RestoresEuid { malloc := true, setgroups := false } []
      { ruid := 1000, euid := 1000, suid := 0, groups := [], errno := .other 0 } "user" 100 := by
  rw [RestoresEuid, xinitgroups_eq]
  simp [listings, set_as_root, seteuid, setgroups, NGROUPS_MAX]

/-- All stores are inside the array, and what is passed on to `setgroups` is the user's listings
    and then the given group. -/
def CollectsListings (out : Outcome) (db : List Group) (p : Process) (user : String) (group : Nat) : Prop :=
  ∃ groups, collected user db group = .ok groups ∧
    xinitgroups out db p user group = .ok (set_as_root out p groups) ∧
    groups = listings user db ++ [group]

/-- `xinitgroups` collects exactly the user's groups, once it has its array, if and only if the
    user is not listed more than `NGROUPS_MAX` times: no store looks at the size of the array. -/
theorem collectsListings_iff (out : Outcome) (db : List Group) (p : Process) (user : String) (group : Nat) :
    (out.malloc = true → CollectsListings out db p user group) ↔
      out.malloc = false ∨ (listings user db).length ≤ NGROUPS_MAX := by
  cases hmalloc : out.malloc with
  | false => simp
  | true =>
    simp only [CollectsListings, collected_eq, xinitgroups_parts db p user group hmalloc, forall_const,
      Bool.true_eq_false, false_or]
    constructor
    · rintro ⟨groups, hgroups, _⟩
      by_contra hlong
      rw [if_neg hlong] at hgroups
      cases hgroups
    · intro hfit
      rw [if_pos hfit]
      exact ⟨_, rfl, rfl, rfl⟩

theorem listings_repeated (user : String) (gid n : Nat) :
    (listings user [⟨gid, List.replicate n user⟩]).length = n := by
  simp [listings]

/-- One group that lists the user once more than there is room for. -/
theorem collectsListings_overrun :
    ¬ CollectsListings { malloc := true, setgroups := true } [⟨7, List.replicate 65537 "user"⟩]
      { ruid := 0, euid := 0, suid := 0, groups := [], errno := .other 0 } "user" 100 := by
  rintro ⟨groups, hgroups, _⟩
  rw [collected_eq, listings_repeated, if_neg (by decide)] at hgroups
  cases hgroups

end tlpi.initgroups
