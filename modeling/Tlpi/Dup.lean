import Mathlib.Data.List.Basic
import Mathlib.Data.Int.Basic
import Mathlib.Data.Nat.Find
import Mathlib.Logic.Function.Basic
import Tlpi.Machine

namespace tlpi.dup

/-- An open descriptor: the open file description it refers to and its
    close-on-exec flag. -/
structure Descriptor where
  file : Nat
  cloexec : Bool
deriving DecidableEq, Repr

/-- What the system calls of this exercise see of a process. Descriptors may be open
    at or above the limit, since the limit can be lowered afterwards. -/
structure Process where
  fds : Nat → Option Descriptor
  status_flags : Nat → Nat
  limit : Nat
  errno : Errno

/-- The entry of a descriptor given as a C `int`. -/
def Process.lookup (p : Process) (fd : Int) : Option Descriptor :=
  if fd < 0 then none else p.fds fd.toNat

def Process.fail (p : Process) (errno : Errno) : Process × Int := ({ p with errno }, -1)

def Process.install (p : Process) (fd : Nat) (entry : Option Descriptor) : Process :=
  { p with fds := Function.update p.fds fd entry }

/-- `fcntl(fd, F_GETFL)`. -/
def fcntl_getfl (p : Process) (fd : Int) : Process × Int :=
  match p.lookup fd with
  | none => p.fail .EBADF
  | some entry => (p, p.status_flags entry.file)

/-- `fcntl(fd, F_DUPFD, from)`: the lowest closed descriptor at or above `from` and
    below the limit. -/
def fcntl_dupfd (p : Process) (fd start : Int) : Process × Int :=
  match p.lookup fd with
  | none => p.fail .EBADF
  | some entry =>
    if start < 0 ∨ (p.limit : Int) ≤ start then p.fail .EINVAL
    else
      match (List.range p.limit).find? (fun k => decide (start.toNat ≤ k) && (p.fds k).isNone) with
      | none => p.fail .EMFILE
      | some k => (p.install k (some { entry with cloexec := false }), k)

def close (p : Process) (fd : Int) : Process × Int :=
  match p.lookup fd with
  | none => p.fail .EBADF
  | some _ => (p.install fd.toNat none, 0)

/-- The library's `dup2`, which `xdup2` is to imitate. An open descriptor is a duplicate of itself
    also when it is at or above the limit. -/
def dup2 (p : Process) (oldfd newfd : Int) : Process × Int :=
  match p.lookup oldfd with
  | none => p.fail .EBADF
  | some entry =>
    if oldfd = newfd then (p, newfd)
    else if newfd < 0 ∨ (p.limit : Int) ≤ newfd then p.fail .EBADF
    else (p.install newfd.toNat (some { entry with cloexec := false }), newfd)

set_option linter.dupNamespace false in
/-- The library's `dup`, which `xdup` is to imitate. -/
def dup (p : Process) (oldfd : Int) : Process × Int :=
  match p.lookup oldfd with
  | none => p.fail .EBADF
  | some entry =>
    match (List.range p.limit).find? (fun k => (p.fds k).isNone) with
    | none => p.fail .EMFILE
    | some k => (p.install k (some { entry with cloexec := false }), k)

def xdup (p : Process) (oldfd : Int) : Process × Int :=
  if oldfd < 0 then p.fail .EBADF
  else
    let r := fcntl_dupfd p oldfd oldfd
    if r.2 < 0 ∧ r.1.errno = .EMFILE then ({ r.1 with errno := .EBADF }, r.2) else r

def xdup2 (p : Process) (oldfd newfd : Int) : Process × Int :=
  if oldfd < 0 ∨ newfd < 0 then p.fail .EBADF
  else
    let flags := fcntl_getfl p oldfd
    if flags.2 < 0 then flags.1.fail .EBADF
    else if oldfd = newfd then (flags.1, newfd)
    else
      -- the result of close() is ignored, its errno is not reset
      let closed := (close flags.1 newfd).1
      let r := fcntl_dupfd closed oldfd newfd
      if r.2 < 0 ∧ r.1.errno = .EMFILE then ({ r.1 with errno := .EBADF }, r.2) else r

/-- Same return value, same `errno` on failure, same final descriptor table. -/
def MatchesDup2 (p : Process) (oldfd newfd : Int) : Prop :=
  (xdup2 p oldfd newfd).2 = (dup2 p oldfd newfd).2 ∧
  ((dup2 p oldfd newfd).2 = -1 → (xdup2 p oldfd newfd).1.errno = (dup2 p oldfd newfd).1.errno) ∧
  (xdup2 p oldfd newfd).1.fds = (dup2 p oldfd newfd).1.fds

theorem Process.lookup_of_nonneg (p : Process) {fd : Int} (h : 0 ≤ fd) : p.lookup fd = p.fds fd.toNat :=
  if_neg (by omega)

theorem Process.lookup_nonneg {p : Process} {fd : Int} {entry : Descriptor}
    (h : p.lookup fd = some entry) :
    0 ≤ fd := by
  unfold Process.lookup at h
  by_contra hneg
  simp [show fd < 0 by omega] at h

theorem close_fds (p : Process) {fd : Int} (h : 0 ≤ fd) :
    (close p fd).1.fds = Function.update p.fds fd.toNat none := by
  unfold close
  rw [p.lookup_of_nonneg h]
  cases hfd : p.fds fd.toNat with
  | none => simp [Process.fail, ← hfd]
  | some entry => rfl

theorem close_limit (p : Process) (fd : Int) : (close p fd).1.limit = p.limit := by
  unfold close
  split <;> rfl

/-- `F_DUPFD` takes the first closed descriptor from where it starts. -/
theorem fcntl_dupfd_lowest {p : Process} {fd start : Int} {entry : Descriptor} {k : Nat}
    (hopen : p.lookup fd = some entry) (hstart : 0 ≤ start) (hle : start ≤ k) (hlimit : k < p.limit)
    (hclosed : p.fds k = none) (hlowest : ∀ j < k, start ≤ j → p.fds j ≠ none) :
    fcntl_dupfd p fd start = (p.install k (some { entry with cloexec := false }), (k : Int)) := by
  have hfind : (List.range p.limit).find? (fun k => decide (start.toNat ≤ k) && (p.fds k).isNone) =
      some k := by
    rw [List.find?_range_eq_some]
    refine ⟨?_, by simpa using hlimit, fun j hj => ?_⟩
    · simp [hclosed]
      omega
    · by_cases hj' : start ≤ j
      · have hne := hlowest j hj hj'
        simp [Option.isSome_iff_ne_none.mpr hne]
      · simp [show ¬ start.toNat ≤ j by omega]
  have hrange : ¬ (start < 0 ∨ (p.limit : Int) ≤ start) := by omega
  simp only [fcntl_dupfd, hopen, if_neg hrange, hfind]

/-- A closed descriptor below the limit is the one `F_DUPFD` takes when asked for it. -/
theorem fcntl_dupfd_closed {p : Process} {fd start : Int} {entry : Descriptor}
    (hopen : p.lookup fd = some entry) (hstart : 0 ≤ start) (hlimit : start < p.limit)
    (hclosed : p.fds start.toNat = none) :
    fcntl_dupfd p fd start = (p.install start.toNat (some { entry with cloexec := false }), start) := by
  have hsame : ((start.toNat : Nat) : Int) = start := Int.toNat_of_nonneg hstart
  have hlowest := fcntl_dupfd_lowest (k := start.toNat) hopen hstart (by omega) (by omega) hclosed
    (fun j hj hle => by omega)
  rwa [hsame] at hlowest

/-- `F_DUPFD` never goes below where it starts. -/
theorem fcntl_dupfd_ge {p : Process} {fd start : Int} (h : 0 ≤ (fcntl_dupfd p fd start).2) :
    start ≤ (fcntl_dupfd p fd start).2 := by
  have hfail (errno : Errno) : ¬ 0 ≤ (p.fail errno).2 := by simp [Process.fail]
  unfold fcntl_dupfd at h ⊢
  cases hopen : p.lookup fd with
  | none =>
    rw [hopen] at h
    exact absurd h (hfail .EBADF)
  | some entry =>
    rw [hopen] at h
    simp only at h ⊢
    split at h
    · exact absurd h (hfail .EINVAL)
    · rename_i hrange
      rw [if_neg hrange]
      cases hfind : (List.range p.limit).find? (fun k => decide (start.toNat ≤ k) && (p.fds k).isNone) with
      | none =>
        rw [hfind] at h
        exact absurd h (hfail .EMFILE)
      | some k =>
        have hk := List.find?_some hfind
        simp only [Bool.and_eq_true, decide_eq_true_eq] at hk
        simp only
        omega

theorem fcntl_dupfd_high {p : Process} {fd start : Int} {entry : Descriptor}
    (hopen : p.lookup fd = some entry) (hlimit : (p.limit : Int) ≤ start) :
    fcntl_dupfd p fd start = p.fail .EINVAL := by
  simp [fcntl_dupfd, hopen, hlimit]

/-- `xdup2` past its two checks: close `newfd`, then duplicate onto it. -/
theorem xdup2_open {p : Process} {oldfd newfd : Int} {entry : Descriptor}
    (hopen : p.lookup oldfd = some entry) (hnew : 0 ≤ newfd) (hne : oldfd ≠ newfd) :
    xdup2 p oldfd newfd =
      (let r := fcntl_dupfd (close p newfd).1 oldfd newfd
       if r.2 < 0 ∧ r.1.errno = .EMFILE then ({ r.1 with errno := .EBADF }, r.2) else r) := by
  have hold := Process.lookup_nonneg hopen
  simp [xdup2, fcntl_getfl, hopen, show ¬ (oldfd < 0 ∨ newfd < 0) by omega, hne,
    show ¬ ((p.status_flags entry.file : Int) < 0) by omega]

theorem lookup_after_close {p : Process} {oldfd newfd : Int} {entry : Descriptor}
    (hopen : p.lookup oldfd = some entry) (hnew : 0 ≤ newfd) (hne : oldfd ≠ newfd) :
    (close p newfd).1.lookup oldfd = some entry := by
  have hold := Process.lookup_nonneg hopen
  rw [Process.lookup_of_nonneg _ hold] at hopen ⊢
  rw [close_fds p hnew, Function.update_of_ne (by omega), hopen]

/-- An open descriptor is duplicated onto itself alike, whatever the limit. -/
theorem xdup2_same {p : Process} {fd : Int} {entry : Descriptor} (hopen : p.lookup fd = some entry) :
    MatchesDup2 p fd fd := by
  have hfd := Process.lookup_nonneg hopen
  have hx : xdup2 p fd fd = (p, fd) := by
    simp [xdup2, fcntl_getfl, hopen, show ¬ fd < 0 by omega,
      show ¬ ((p.status_flags entry.file : Int) < 0) by omega]
  have hd : dup2 p fd fd = (p, fd) := by simp only [dup2, hopen, if_true]
  simp [MatchesDup2, hx, hd]

/-- Below the limit the close-then-duplicate sequence is `dup2` itself. -/
theorem xdup2_below_limit {p : Process} {oldfd newfd : Int} {entry : Descriptor}
    (hopen : p.lookup oldfd = some entry) (hnew : 0 ≤ newfd) (hlimit : newfd < p.limit) :
    MatchesDup2 p oldfd newfd := by
  by_cases hne : oldfd = newfd
  · subst newfd
    exact xdup2_same hopen
  · have hrange : ¬ (newfd < 0 ∨ (p.limit : Int) ≤ newfd) := by omega
    have hclosed : (close p newfd).1.fds newfd.toNat = none := by
      rw [close_fds p hnew, Function.update_self]
    have hdup := fcntl_dupfd_closed (lookup_after_close hopen hnew hne) hnew
      (by rw [close_limit]; exact hlimit) hclosed
    have hd : dup2 p oldfd newfd =
        (p.install newfd.toNat (some { entry with cloexec := false }), newfd) := by
      simp only [dup2, hopen, if_neg hne, if_neg hrange]
    rw [MatchesDup2, xdup2_open hopen hnew hne, hdup, hd]
    simp only [show ¬ (newfd < 0) by omega, false_and, if_false, true_and]
    refine ⟨by omega, ?_⟩
    simp [Process.install, close_fds p hnew]

/-- A closed source is refused alike, whatever the target. -/
theorem xdup2_closed_source {p : Process} {oldfd newfd : Int} (hclosed : p.lookup oldfd = none) :
    MatchesDup2 p oldfd newfd := by
  have hd : dup2 p oldfd newfd = p.fail .EBADF := by simp [dup2, hclosed]
  have hx : xdup2 p oldfd newfd = p.fail .EBADF := by
    unfold xdup2
    split
    · rfl
    · simp [fcntl_getfl, hclosed, Process.fail]
  simp [MatchesDup2, hx, hd]

/-- `xdup2` is `dup2` exactly when the target is below the descriptor limit, the source is not
    open, or both are the same. At or above the limit `F_DUPFD` reports `EINVAL`, which only
    `EMFILE` is mapped away from, and by then `newfd` has been closed. -/
theorem xdup2_matches_dup2_iff (p : Process) (oldfd newfd : Int) :
    MatchesDup2 p oldfd newfd ↔ newfd < p.limit ∨ p.lookup oldfd = none ∨ oldfd = newfd := by
  constructor
  · intro hmatch
    by_contra hnot
    obtain ⟨hlimit, hnot⟩ := not_or.mp hnot
    obtain ⟨hopen, hne⟩ := not_or.mp hnot
    obtain ⟨entry, hopen⟩ := Option.ne_none_iff_exists'.mp hopen
    have hhigh : (p.limit : Int) ≤ newfd := by omega
    have hnew : 0 ≤ newfd := by omega
    have hd : dup2 p oldfd newfd = p.fail .EBADF := by simp [dup2, hopen, hne, hhigh]
    have hdup : fcntl_dupfd (close p newfd).1 oldfd newfd = (close p newfd).1.fail .EINVAL :=
      fcntl_dupfd_high (lookup_after_close hopen hnew hne) (by rw [close_limit]; exact hhigh)
    have herrno := hmatch.2.1
    rw [hd, xdup2_open hopen hnew hne, hdup] at herrno
    simp [Process.fail] at herrno
  · intro hcond
    cases hopen : p.lookup oldfd with
    | none => exact xdup2_closed_source hopen
    | some entry =>
      rcases hcond with hlimit | hclosed | rfl
      · by_cases hnew : 0 ≤ newfd
        · exact xdup2_below_limit hopen hnew hlimit
        · have hne : oldfd ≠ newfd := by
            have hold := Process.lookup_nonneg hopen
            omega
          have hd : dup2 p oldfd newfd = p.fail .EBADF := by
            simp [dup2, hopen, hne, show newfd < 0 by omega]
          have hx : xdup2 p oldfd newfd = p.fail .EBADF := by
            simp [xdup2, show newfd < 0 by omega]
          simp [MatchesDup2, hx, hd]
      · rw [hopen] at hclosed
        cases hclosed
      · exact xdup2_same hopen

/-- `xdup` gives the lowest closed descriptor of the whole table, which then refers to the
    same open file description as the old one, and changes no other: it does what `dup` does. -/
structure MatchesDup (p : Process) (oldfd : Int) : Prop where
  lowest : ∃ k : Nat, (xdup p oldfd).2 = k ∧ p.fds k = none ∧ (∀ j < k, p.fds j ≠ none) ∧
    ((xdup p oldfd).1.fds k).map Descriptor.file = (p.lookup oldfd).map Descriptor.file ∧
    ∀ j ≠ k, (xdup p oldfd).1.fds j = p.fds j
  same : xdup p oldfd = dup p oldfd

/-- The lowest closed descriptor is the one that `dup` gives. -/
theorem dup_lowest {p : Process} {oldfd : Int} {entry : Descriptor} {k : Nat}
    (hopen : p.lookup oldfd = some entry) (hlimit : k < p.limit) (hclosed : p.fds k = none)
    (hlowest : ∀ j < k, p.fds j ≠ none) :
    dup p oldfd = (p.install k (some { entry with cloexec := false }), (k : Int)) := by
  have hfind : (List.range p.limit).find? (fun k => (p.fds k).isNone) = some k := by
    rw [List.find?_range_eq_some]
    refine ⟨by simp [hclosed], by simpa using hlimit, fun j hj => ?_⟩
    simp [Option.isSome_iff_ne_none.mpr (hlowest j hj)]
  simp only [dup, hopen, hfind]

/-- A table with a closed descriptor has a lowest one. -/
theorem exists_lowest_closed {p : Process} (hfree : ∃ k < p.limit, p.fds k = none) :
    ∃ k < p.limit, p.fds k = none ∧ ∀ j < k, p.fds j ≠ none := by
  obtain ⟨n, hn, hclosed⟩ := hfree
  have hsome : ∃ k, p.fds k = none := ⟨n, hclosed⟩
  classical
  refine ⟨Nat.find hsome, ?_, Nat.find_spec hsome, fun j hj => Nat.find_min hsome hj⟩
  exact Nat.lt_of_le_of_lt (Nat.find_min' hsome hclosed) hn

/-- `xdup` is `dup` exactly when no descriptor below the old one is closed: it starts its
    search there and not at 0. -/
theorem xdup_matches_dup_iff (p : Process) (oldfd : Int) (hopen : (p.lookup oldfd).isSome = true)
    (hfree : ∃ k < p.limit, p.fds k = none) :
    MatchesDup p oldfd ↔ ∀ k : Nat, (k : Int) < oldfd → p.fds k ≠ none := by
  obtain ⟨entry, hopen⟩ := Option.isSome_iff_exists.mp hopen
  obtain ⟨k, hlimit, hclosed, hlowest⟩ := exists_lowest_closed hfree
  have hold := Process.lookup_nonneg hopen
  have hneg : ¬ oldfd < 0 := by omega
  constructor
  · intro hmatch j hj
    have hret : (xdup p oldfd).2 = k := by
      rw [hmatch.same, dup_lowest hopen hlimit hclosed hlowest]
    have hsame : (xdup p oldfd).2 = (fcntl_dupfd p oldfd oldfd).2 := by
      simp only [xdup, if_neg hneg]
      split <;> rfl
    have hge : oldfd ≤ (fcntl_dupfd p oldfd oldfd).2 := fcntl_dupfd_ge (by omega)
    exact hlowest j (by omega)
  · intro hbelow
    have hle : oldfd ≤ k := by
      by_contra hnot
      exact hbelow k (by omega) hclosed
    have hdupfd := fcntl_dupfd_lowest hopen hold hle hlimit hclosed (fun j hj _ => hlowest j hj)
    have hxdup : xdup p oldfd = (p.install k (some { entry with cloexec := false }), (k : Int)) := by
      simp only [xdup, if_neg hneg, hdupfd]
      rw [if_neg (by omega)]
    refine ⟨⟨k, by rw [hxdup], hclosed, hlowest, ?_, fun j hj => ?_⟩, ?_⟩
    · rw [hxdup, hopen]
      simp [Process.install]
    · rw [hxdup]
      exact Function.update_of_ne hj _ _
    · rw [hxdup, dup_lowest hopen hlimit hclosed hlowest]

/-- A process with descriptor 0 open and room for one descriptor. -/
def oneDescriptor : Process where
  fds := fun fd => if fd = 0 then some { file := 0, cloexec := false } else none
  status_flags := fun _ => 0
  limit := 1
  errno := .other 0

/-- Duplicating onto the first descriptor past the limit: `EINVAL`, not `EBADF`. -/
theorem xdup2_past_limit_mismatch : ¬ MatchesDup2 oneDescriptor 0 1 := by
  intro hmatch
  exact absurd (hmatch.2.1 (by decide)) (by decide)

/-- A process with descriptor 0 closed and 1 open, and room for three. -/
def closedInput : Process where
  fds := fun fd => if fd = 1 then some { file := 7, cloexec := true } else none
  status_flags := fun _ => 0
  limit := 3
  errno := .other 0

/-- With everything below it open, the next descriptor is taken. -/
theorem xdup_oneDescriptor : MatchesDup { oneDescriptor with limit := 2 } 0 :=
  (xdup_matches_dup_iff { oneDescriptor with limit := 2 } 0 (by decide) ⟨1, by decide, rfl⟩).mpr
    (fun k hk => by omega)

/-- With standard input closed, duplicating descriptor 1 gives 2 and not 0. -/
theorem xdup_closedInput_mismatch :
    (closedInput.lookup 1).isSome = true ∧ (∃ k < closedInput.limit, closedInput.fds k = none) ∧
      ¬ MatchesDup closedInput 1 := by
  refine ⟨by decide, ⟨0, by decide, rfl⟩, fun hmatch => ?_⟩
  exact absurd (congrArg Prod.snd hmatch.same) (by decide)

end tlpi.dup
