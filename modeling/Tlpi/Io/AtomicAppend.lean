import Mathlib.Algebra.BigOperators.Group.Finset.Piecewise
import Mathlib.Algebra.Order.BigOperators.Group.Finset
import Mathlib.Data.Fintype.Basic
import Tlpi.Io.File
import Tlpi.Io.Writep
import Tlpi.Lib.Run

namespace tlpi.atomic_append

/-- The command line of one process: what `getLong` makes of COUNT, and the argument behind
    it if there is one. -/
structure Args where
  count : Nat
  mode : Option (List Char)

/-- Whether the file is opened with `O_APPEND`. -/
def append_mode (args : Args) : Bool :=
  match args.mode with
  | some ('x' :: _) => false
  | _ => true

/-- The byte that is written again and again, `'x'`. -/
def token : UInt8 := 120

/-- Where `main` is: before one of its two `open` calls, before the `lseek` or the `writep` of
    one iteration, or at its end. -/
inductive Pc where
  | create
  | reopen
  | lseek (i : Nat)
  | writep (i : Nat)
  | returned
  | failed
deriving DecidableEq

/-- One process, with the offset of its own open file description. -/
structure Process where
  pc : Pc
  offset : Nat

/-- What is at the path that all processes are given, and the processes. -/
structure System (ι : Type) where
  content : Option (List UInt8)
  procs : ι → Process

/-- The bytes in the file, none if there is no file. -/
def System.bytes {ι : Type} (s : System ι) : List UInt8 := s.content.getD []

/-- The head of the loop, with the given `i`. -/
def next_iteration (args : Args) (i : Nat) : Pc :=
  if i < args.count then
    if append_mode args then .writep i else .lseek i
  else .returned

/-- One call of a process, and the checks up to the next one. -/
def process_step (args : Args) (content : Option (List UInt8)) (p : Process) :
    Exec (Option (List UInt8) × Process) :=
  match p.pc with
  | .create =>
    match open_path { O_CREAT := true, O_EXCL := true, O_TRUNC := false, O_APPEND := append_mode args } content with
    | .ok file => .ok (some file.content, ⟨next_iteration args 0, file.offset⟩)
    | .error errno => .ok (content, { p with pc := if errno = .EEXIST then .reopen else .failed })
  | .reopen =>
    match open_path { O_CREAT := false, O_EXCL := false, O_TRUNC := false, O_APPEND := append_mode args } content with
    | .ok file => .ok (some file.content, ⟨next_iteration args 0, file.offset⟩)
    | .error _ => .ok (content, { p with pc := .failed })
  | .lseek i => .ok (content, ⟨.writep i, (content.getD []).length⟩)
  | .writep i => do
    -- a write of one byte is never short, so that one call and one check of the loop are enough
    let (file, written) ←
      mylib.writep (File.write_fd (append_mode args)) 2 ⟨content.getD [], p.offset⟩ [token] 1
    let pc := if written < 0 then Pc.failed else next_iteration args (i + 1)
    return (some file.content, ⟨pc, file.offset⟩)
  | .returned => .ok (content, p)
  | .failed => .ok (content, p)

/-- One of the processes takes its next step. -/
def step {ι : Type} [DecidableEq ι] (args : ι → Args) (s : System ι) (i : ι) : Exec (System ι) := do
  let (content, p) ← process_step (args i) s.content (s.procs i)
  return { content, procs := Function.update s.procs i p }

/-- All processes are about to open the file. -/
def start {ι : Type} (content : Option (List UInt8)) : System ι where
  content := content
  procs := fun _ => ⟨.create, 0⟩

/-- The number of bytes that a process has written. -/
def progress (args : Args) (p : Process) : Nat :=
  match p.pc with
  | .lseek i => i
  | .writep i => i
  | .returned => args.count
  | _ => 0

/-- The number of steps that a process still has to take at most. -/
def left (args : Args) (p : Process) : Nat :=
  match p.pc with
  | .create => 2 * args.count + 2
  | .reopen => 2 * args.count + 1
  | .lseek i => 2 * (args.count - i)
  | .writep i => 2 * (args.count - i) - 1
  | _ => 0

/-- Where a process can be when the file has got `k` bytes behind what was there before. The
    offset that a process in `'x'` mode has saved is not behind its own last byte. -/
def InPlace (args : Args) (before k : Nat) (content : Option (List UInt8)) (p : Process) : Prop :=
  match p.pc with
  | .create => True
  | .reopen => content.isSome = true
  | .lseek i => content.isSome = true ∧ i < args.count
  | .writep i =>
    content.isSome = true ∧ i < args.count ∧
      (append_mode args = true ∨ before + i ≤ p.offset ∧ p.offset ≤ before + k)
  | .returned => True
  | .failed => False

section Process

variable {args : Args} {before : List UInt8} {k : Nat} {content : Option (List UInt8)} {p : Process}

theorem InPlace.mono {before k' : Nat} {content' : Option (List UInt8)} (h : InPlace args before k content p)
    (hk : k ≤ k') (hcontent : content.isSome = true → content'.isSome = true) :
    InPlace args before k' content' p := by
  unfold InPlace at h ⊢
  cases hpc : p.pc with
  | create => trivial
  | reopen =>
    simp only [hpc] at h ⊢
    exact hcontent h
  | lseek i =>
    simp only [hpc] at h ⊢
    exact ⟨hcontent h.1, h.2⟩
  | writep i =>
    simp only [hpc] at h ⊢
    obtain ⟨hsome, hi, hoffset⟩ := h
    refine ⟨hcontent hsome, hi, hoffset.imp_right fun hoffset => ?_⟩
    omega
  | returned => trivial
  | failed => simp [hpc] at h

theorem progress_next_iteration {i offset : Nat} (hi : i ≤ args.count) :
    progress args ⟨next_iteration args i, offset⟩ = i := by
  unfold next_iteration progress
  split_ifs with hlt happend
  · rfl
  · rfl
  · exact le_antisymm (not_lt.mp hlt) hi

theorem inPlace_next_iteration {before i offset : Nat} (hsome : content.isSome = true) :
    InPlace args before k content ⟨next_iteration args i, offset⟩ := by
  unfold next_iteration InPlace
  split_ifs with hlt happend
  · exact ⟨hsome, hlt, Or.inl happend⟩
  · exact ⟨hsome, hlt⟩
  · trivial

theorem left_next_iteration {i offset : Nat} :
    left args ⟨next_iteration args i, offset⟩ ≤ 2 * (args.count - i) := by
  unfold next_iteration left
  split_ifs with hlt happend
  · exact Nat.sub_le _ _
  · exact le_rfl
  · exact Nat.zero_le _

/-- Writing the byte somewhere behind what was there before, or at the end. -/
theorem write_token {j : Nat} (before : List UInt8) (hj : j ≤ k) :
    File.write ⟨before ++ List.replicate k token, before.length + j⟩ [token] =
      (⟨before ++ List.replicate (max k (j + 1)) token, before.length + j + 1⟩, (1 : Int)) := by
  obtain ⟨rest, rfl⟩ := Nat.exists_eq_add_of_le hj
  have hsplit : before ++ List.replicate (j + rest) token =
      (before ++ List.replicate j token) ++ List.replicate rest token := by
    rw [List.replicate_add, List.append_assoc]
  have hwrite := File.write_over (before ++ List.replicate j token) (List.replicate rest token) [token]
  rw [← hsplit] at hwrite
  simp only [List.length_append, List.length_replicate, List.length_singleton] at hwrite
  have hjoin : before ++ List.replicate j token ++ [token] ++ (List.replicate rest token).drop 1 =
      before ++ List.replicate (max (j + rest) (j + 1)) token := by
    rw [List.drop_replicate, List.append_assoc, List.append_assoc, ← List.replicate_one,
      ← List.replicate_add, ← List.replicate_add]
    congr 2
    omega
  rw [hwrite, hjoin]
  rfl

/-- The `writep` call of one iteration. The byte goes behind the process's own last one, and
    in append mode to the end. -/
theorem writep_token {i offset : Nat} (append : Bool) (before : List UInt8) (hi : i ≤ k)
    (hoffset : append = true ∨ before.length + i ≤ offset ∧ offset ≤ before.length + k) :
    ∃ j offset', i ≤ j ∧ j ≤ k ∧ (append = true → j = k) ∧
      mylib.writep (File.write_fd append) 2 ⟨before ++ List.replicate k token, offset⟩ [token] 1 =
        .ok (⟨before ++ List.replicate (max k (j + 1)) token, offset'⟩, 1) := by
  have hcall {j : Nat} (hwrite : File.write_fd append ⟨before ++ List.replicate k token, offset⟩ [token] =
      (⟨before ++ List.replicate (max k (j + 1)) token, before.length + j + 1⟩, (1 : Int))) :
      mylib.writep (File.write_fd append) 2 ⟨before ++ List.replicate k token, offset⟩ [token] 1 =
        .ok (⟨before ++ List.replicate (max k (j + 1)) token, before.length + j + 1⟩, 1) :=
    mylib.writep_count 0 (by decide) (fun h => absurd h one_ne_zero) fun _ => hwrite
  cases append with
  | true =>
    refine ⟨k, before.length + k + 1, hi, le_rfl, fun _ => rfl, hcall ?_⟩
    have hend := write_token before (le_refl k)
    rw [File.write_fd, if_pos rfl, File.seek, List.length_append, List.length_replicate, hend]
  | false =>
    obtain ⟨hlow, hhigh⟩ := hoffset.resolve_left Bool.false_ne_true
    obtain ⟨j, rfl⟩ := Nat.exists_eq_add_of_le (show before.length ≤ offset by omega)
    have hj : j ≤ k := by omega
    refine ⟨j, before.length + j + 1, by omega, hj, fun h => absurd h Bool.false_ne_true, hcall ?_⟩
    rw [File.write_fd, if_neg Bool.false_ne_true, write_token before hj]

/-- What a step of one process does to the file that has got `k` bytes: it stays or grows by
    what the process has written, never more, and in append mode never less. -/
structure Moves (args : Args) (before : List UInt8) (k : Nat) (content : Option (List UInt8)) (p : Process)
    (k' : Nat) (content' : Option (List UInt8)) (p' : Process) : Prop where
  bytes : content'.getD [] = before ++ List.replicate k' token
  stays : content.isSome = true → content'.isSome = true
  place : InPlace args before.length k' content' p'
  grows : k ≤ k'
  bound : k' + progress args p ≤ k + progress args p'
  appended : append_mode args = true → k' + progress args p = k + progress args p'
  behind : progress args p' ≤ k'
  left : left args p' ≤ left args p - 1

/-- A process has opened the file. -/
theorem moves_opened {offset : Nat} (hbytes : content.getD [] = before ++ List.replicate k token)
    (hnone : progress args p = 0) (hleft : 2 * args.count < left args p) :
    Moves args before k content p k (some (content.getD [])) ⟨next_iteration args 0, offset⟩ where
  bytes := hbytes
  stays := fun _ => rfl
  place := inPlace_next_iteration rfl
  grows := le_rfl
  bound := by rw [hnone]; omega
  appended := fun _ => by rw [hnone, progress_next_iteration (Nat.zero_le _)]
  behind := by rw [progress_next_iteration (Nat.zero_le _)]; exact Nat.zero_le _
  left := left_next_iteration.trans (by omega)

/-- A process has seen that the file exists. -/
theorem moves_reopen (hbytes : content.getD [] = before ++ List.replicate k token)
    (hsome : content.isSome = true) (hpc : p.pc = .create) :
    Moves args before k content p k content { p with pc := .reopen } where
  bytes := hbytes
  stays := id
  place := hsome
  grows := le_rfl
  bound := by simp [progress, hpc]
  appended := fun _ => by simp [progress, hpc]
  behind := by simp [progress]
  left := by simp [left, hpc]

/-- A process in `'x'` mode has looked up the end of the file. -/
theorem moves_lseek {i : Nat} (hbytes : content.getD [] = before ++ List.replicate k token)
    (hpc : p.pc = .lseek i) (hplace : InPlace args before.length k content p) (hbehind : progress args p ≤ k) :
    Moves args before k content p k content ⟨.writep i, (content.getD []).length⟩ := by
  simp only [InPlace, hpc] at hplace
  obtain ⟨hsome, hi⟩ := hplace
  have hprogress : progress args p = i := by simp only [progress, hpc]
  have hlength : (content.getD []).length = before.length + k := by simp [hbytes]
  rw [hprogress] at hbehind
  refine ⟨hbytes, id, ⟨hsome, hi, Or.inr ?_⟩, le_rfl, ?_, fun _ => ?_, hbehind, ?_⟩
  · simp only [hlength]
    omega
  · rw [hprogress]
    exact le_rfl
  · rw [hprogress]
    rfl
  · simp only [left, hpc]
    omega

/-- A process has written one more byte. -/
theorem moves_writep {i : Nat} (hbytes : content.getD [] = before ++ List.replicate k token)
    (hpc : p.pc = .writep i) (hplace : InPlace args before.length k content p) (hbehind : progress args p ≤ k) :
    ∃ content' p' k', process_step args content p = .ok (content', p') ∧
      Moves args before k content p k' content' p' := by
  simp only [InPlace, hpc] at hplace
  obtain ⟨hsome, hi, hoffset⟩ := hplace
  have hprogress : progress args p = i := by simp only [progress, hpc]
  rw [hprogress] at hbehind
  obtain ⟨j, offset', hij, hj, happend, hrun⟩ := writep_token (append_mode args) before hbehind hoffset
  have hnext : progress args ⟨next_iteration args (i + 1), offset'⟩ = i + 1 := progress_next_iteration hi
  refine ⟨some (before ++ List.replicate (max k (j + 1)) token), ⟨next_iteration args (i + 1), offset'⟩,
    max k (j + 1), ?_, ?_⟩
  · simp only [process_step, hpc, hbytes, hrun, exec_bind_ok]
    rfl
  · refine ⟨rfl, fun _ => rfl, inPlace_next_iteration rfl, le_max_left _ _, ?_, fun h => ?_, ?_, ?_⟩
    · rw [hprogress, hnext]
      omega
    · rw [hprogress, hnext, happend h]
      omega
    · rw [hnext]
      omega
    · have hle : left args ⟨next_iteration args (i + 1), offset'⟩ ≤ 2 * (args.count - (i + 1)) :=
        left_next_iteration
      have hleft : left args p = 2 * (args.count - i) - 1 := by simp only [left, hpc]
      omega

theorem process_step_moves (hbytes : content.getD [] = before ++ List.replicate k token)
    (hplace : InPlace args before.length k content p) (hbehind : progress args p ≤ k) :
    ∃ content' p' k', process_step args content p = .ok (content', p') ∧
      Moves args before k content p k' content' p' := by
  cases hpc : p.pc with
  | create =>
    cases content with
    | none =>
      refine ⟨_, _, k, by simp only [process_step, hpc]; rfl, moves_opened hbytes ?_ ?_⟩
      · simp [progress, hpc]
      · simp [left, hpc]
    | some bytes =>
      exact ⟨some bytes, { p with pc := .reopen }, k, by simp only [process_step, hpc]; rfl,
        moves_reopen hbytes rfl hpc⟩
  | reopen =>
    cases content with
    | none => simp [InPlace, hpc] at hplace
    | some bytes =>
      refine ⟨_, _, k, by simp only [process_step, hpc]; rfl, moves_opened hbytes ?_ ?_⟩
      · simp [progress, hpc]
      · simp [left, hpc]
  | lseek i => exact ⟨_, _, k, by simp only [process_step, hpc], moves_lseek hbytes hpc hplace hbehind⟩
  | writep i => exact moves_writep hbytes hpc hplace hbehind
  | returned =>
    refine ⟨content, p, k, by simp only [process_step, hpc], ?_⟩
    refine ⟨hbytes, id, hplace, le_rfl, le_rfl, fun _ => rfl, hbehind, ?_⟩
    simp [left, hpc]
  | failed => simp [InPlace, hpc] at hplace

end Process

/-- What holds of all processes together when the file has got `k` bytes behind what was
    there before. -/
structure Inv {ι : Type} [Fintype ι] (args : ι → Args) (before : List UInt8) (k : Nat) (s : System ι) :
    Prop where
  bytes : s.bytes = before ++ List.replicate k token
  place : ∀ i, InPlace (args i) before.length k s.content (s.procs i)
  behind : ∀ i, progress (args i) (s.procs i) ≤ k
  total : k ≤ ∑ i, progress (args i) (s.procs i)
  appended : ∑ i with append_mode (args i), progress (args i) (s.procs i) ≤ k

section System

variable {ι : Type} [Fintype ι] {args : ι → Args} {before : List UInt8} {k : Nat} {s : System ι}

theorem start_inv (args : ι → Args) (content : Option (List UInt8)) :
    Inv args (content.getD []) 0 (start content) where
  bytes := (List.append_nil _).symm
  place := fun _ => trivial
  behind := fun _ => le_rfl
  total := Nat.zero_le _
  appended := by simp [start, progress]

variable [DecidableEq ι]

omit [Fintype ι] in
/-- When one process goes on, the sum of what all have written changes by what it writes. -/
theorem sum_progress_update (set : Finset ι) (procs : ι → Process) (args : ι → Args) {i : ι} (hi : i ∈ set)
    (p : Process) :
    ∑ j ∈ set, progress (args j) (Function.update procs i p j) + progress (args i) (procs i) =
      ∑ j ∈ set, progress (args j) (procs j) + progress (args i) p := by
  simp only [Function.apply_update (fun j => progress (args j))]
  rw [Finset.sum_update_of_mem hi,
    Finset.sum_eq_add_sum_sdiff_singleton_of_mem hi fun j => progress (args j) (procs j)]
  omega

/-- The step of one process leaves the others where they are. -/
theorem Moves.inv {i : ι} {k' : Nat} {content : Option (List UInt8)} {p : Process} (h : Inv args before k s)
    (hmoves : Moves (args i) before k s.content (s.procs i) k' content p) :
    Inv args before k' { content, procs := Function.update s.procs i p } where
  bytes := hmoves.bytes
  place := by
    intro j
    by_cases hj : j = i
    · subst hj
      simpa using hmoves.place
    · simp only [Function.update_of_ne hj]
      exact (h.place j).mono hmoves.grows hmoves.stays
  behind := by
    intro j
    by_cases hj : j = i
    · subst hj
      simpa using hmoves.behind
    · simp only [Function.update_of_ne hj]
      exact (h.behind j).trans hmoves.grows
  total := by
    have hsum := sum_progress_update Finset.univ s.procs args (Finset.mem_univ i) p
    have htotal := h.total
    have hbound := hmoves.bound
    dsimp only
    omega
  appended := by
    have happended := h.appended
    dsimp only
    by_cases hi : append_mode (args i) = true
    · have hmem : i ∈ Finset.univ.filter fun i => append_mode (args i) = true := by simpa using hi
      have hsum := sum_progress_update _ s.procs args hmem p
      have hexact := hmoves.appended hi
      omega
    · have hmem : i ∉ Finset.univ.filter fun i => append_mode (args i) = true := by simpa using hi
      simp only [Function.apply_update (fun j => progress (args j))]
      rw [Finset.sum_update_of_notMem hmem]
      exact happended.trans hmoves.grows

theorem step_inv (h : Inv args before k s) (i : ι) :
    ∃ s' k', step args s i = .ok s' ∧ Inv args before k' s' ∧
      ∀ j, left (args j) (s'.procs j) ≤ left (args j) (s.procs j) - [i].count j := by
  obtain ⟨content, p, k', hrun, hmoves⟩ := process_step_moves h.bytes (h.place i) (h.behind i)
  refine ⟨{ content, procs := Function.update s.procs i p }, k', ?_, hmoves.inv h, ?_⟩
  · rw [step, hrun]
    rfl
  · intro j
    by_cases hj : j = i
    · subst hj
      simp only [Function.update_self, List.count_singleton_self]
      exact hmoves.left
    · simp only [Function.update_of_ne hj]
      rw [List.count_singleton, if_neg (by simpa using Ne.symm hj)]
      exact le_rfl

/-- A whole schedule. -/
theorem run_inv (h : Inv args before k s) (schedule : List ι) :
    ∃ s' k', run (step args) s schedule = .ok s' ∧ Inv args before k' s' ∧
      ∀ j, left (args j) (s'.procs j) ≤ left (args j) (s.procs j) - schedule.count j := by
  induction schedule generalizing k s with
  | nil => exact ⟨s, k, rfl, h, fun j => Nat.le_refl _⟩
  | cons i schedule ih =>
    obtain ⟨s₁, k₁, hstep, hinv, hleft⟩ := step_inv h i
    obtain ⟨s', k', hrun, hinv', hleft'⟩ := ih hinv
    refine ⟨s', k', by rw [run, hstep, exec_bind_ok, hrun], hinv', fun j => ?_⟩
    have hfirst := hleft j
    have hrest := hleft' j
    rw [← List.singleton_append, List.count_append]
    omega

omit [DecidableEq ι] in
/-- A process that has no steps left has returned. -/
theorem Inv.returned {i : ι} (h : Inv args before k s) (hleft : left (args i) (s.procs i) = 0) :
    (s.procs i).pc = .returned := by
  have hplace := h.place i
  unfold InPlace at hplace
  cases hpc : (s.procs i).pc with
  | returned => rfl
  | create => simp [left, hpc] at hleft
  | reopen => simp [left, hpc] at hleft
  | lseek j =>
    simp only [hpc, left] at hplace hleft
    omega
  | writep j =>
    simp only [hpc, left] at hplace hleft
    omega
  | failed => simp [hpc] at hplace

/-- However the steps of the processes are interleaved, none of them fails, and each returns
    if it gets enough steps. When all have returned, what was in the file is still there and
    only the token follows it: not more often than all have written it, at least as often as
    any one of them, and at least as often as all in append mode together. -/
theorem run_appends (args : ι → Args) (content : Option (List UInt8)) (schedule : List ι) :
    ∃ s, run (step args) (start content) schedule = .ok s ∧
      ((∀ i, 2 * (args i).count + 2 ≤ schedule.count i) → ∀ i, (s.procs i).pc = .returned) ∧
      ((∀ i, (s.procs i).pc = .returned) →
        ∃ k, s.bytes = content.getD [] ++ List.replicate k token ∧
          k ≤ ∑ i, (args i).count ∧ (∀ i, (args i).count ≤ k) ∧
          ∑ i with append_mode (args i), (args i).count ≤ k ∧
          ((∀ i, append_mode (args i) = true) → k = ∑ i, (args i).count)) := by
  obtain ⟨s, k, hrun, hinv, hleft⟩ := run_inv (start_inv args content) schedule
  refine ⟨s, hrun, fun henough i => ?_, fun hreturned => ?_⟩
  · have hsteps := henough i
    have hle := hleft i
    have hstart : left (args i) ((start content : System ι).procs i) = 2 * (args i).count + 2 := rfl
    exact hinv.returned (by omega)
  · have hwritten (i : ι) : progress (args i) (s.procs i) = (args i).count := by
      simp only [progress, hreturned i]
    have htotal := hinv.total
    have happended := hinv.appended
    simp only [hwritten] at htotal happended
    refine ⟨k, hinv.bytes, htotal, fun i => ?_, happended, fun hall => ?_⟩
    · rw [← hwritten i]
      exact hinv.behind i
    · simp only [hall, Finset.filter_true] at happended
      exact le_antisymm htotal happended

end System

end tlpi.atomic_append
