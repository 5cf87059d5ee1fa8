import Tlpi.Io.Input
import Tlpi.Lib.Run

namespace tlpi.tee

/-- What `getopt(argc, argv, "a")` returns for one option: `'a'`, or `'?'` for any other. -/
inductive Opt where
  | a
  | unknown
deriving DecidableEq

/-- The loop over the options: whether the file is opened with `O_APPEND` in place of
    `O_TRUNC`. There is no answer if `usage_error` ends the program. -/
def append_mode : List Opt → Option Bool
  | [] => some false
  | .a :: opts => (append_mode opts).map fun _ => true
  | .unknown :: _ => none

/-- Where `main` is: before the `read`, before one of the two `writep` calls, or at its end. -/
inductive Pc where
  | read
  | write_stdout
  | write_file
  | exited (status : Int)
deriving DecidableEq

/-- The state of `main`. How many bytes the last `read` has stored in the buffer is kept
    beside what it has returned. -/
structure State where
  pc : Pc
  append : Bool
  input : Input
  buff : List UInt8
  stored : Nat
  nr_bytes : Int
  stdout : List UInt8
  file : File

/-- A `write` to standard output. -/
def write_out (stdout bytes : List UInt8) : List UInt8 × Int := (stdout ++ bytes, bytes.length)

/-- `main` up to its loop, given whether a file is named and what is there. The program ends
    without a loop on a wrong use, or if the file cannot be opened. -/
def start (opts : List Opt) (named : Bool) (input : Input) (prior : Option (List UInt8))
    (buff : List UInt8) : Option State := do
  let append ← append_mode opts
  if named then
    match open_path { O_CREAT := true, O_EXCL := false, O_TRUNC := !append, O_APPEND := append } prior with
    | .error _ => none
    | .ok file => some ⟨.read, append, input, buff, 0, 0, [], file⟩
  else none

/-- One call of the loop, and the checks up to the next one. -/
def step (fuel : Nat) (s : State) : Exec State :=
  match s.pc with
  | .read =>
    let r := s.input.read s.buff
    -- a read error is not the end of file: the loop goes on with -1 bytes
    let pc := if r.nr_bytes ≠ 0 then Pc.write_stdout else Pc.exited 0
    .ok ⟨pc, s.append, r.input, r.buff, r.stored, r.nr_bytes, s.stdout, s.file⟩
  | .write_stdout => do
    let (stdout, written) ← write_buff write_out fuel s.stdout s.buff s.nr_bytes
    return { s with pc := if written < 0 then .exited EXIT_FAILURE else .write_file, stdout }
  | .write_file => do
    let (file, written) ← write_buff (File.write_fd s.append) fuel s.file s.buff s.nr_bytes
    return { s with pc := if written < 0 then .exited EXIT_FAILURE else .read, file }
  | .exited _ => .ok s

/-- What `tee` owes at every moment: each count passed to `writep` is what the last `read` has
    stored; standard output has got the first chunks and the file, behind what it had before,
    the same ones or all but the last of them; and at the end both have got everything. -/
structure Duplicates (input : Input) (before : List UInt8) (s : State) : Prop where
  counts : s.pc = .write_stdout ∨ s.pc = .write_file → to_size s.nr_bytes = s.stored
  sinks : ∃ m k, k ≤ m ∧ m ≤ k + 1 ∧ s.stdout = (input.chunks.take m).flatten ∧
    s.file.content = before ++ (input.chunks.take k).flatten
  complete : s.pc = .exited 0 → s.stdout = input.content ∧ s.file.content = before ++ input.content

/-- The chunks that the two sinks have got. The file is written at its end. -/
structure Sinks (before : List UInt8) (s : State) (out file : List (List UInt8)) : Prop where
  stdout : s.stdout = out.flatten
  content : s.file.content = before ++ file.flatten
  at_end : s.append = true ∨ s.file.offset = s.file.content.length

/-- The last `read` has returned this chunk. -/
def State.Holds (s : State) (chunk : List UInt8) : Prop :=
  ∃ junk, s.buff = chunk ++ junk ∧ s.stored = chunk.length ∧ s.nr_bytes = chunk.length

/-- How far `tee` can have come while no `read` has failed. -/
inductive At (input : Input) (before : List UInt8) (s : State) : Prop
  | read (done rest : List (List UInt8)) (hpc : s.pc = .read) (hinput : s.input = ⟨rest, input.fails⟩)
      (hchunks : input.chunks = done ++ rest) (hsinks : Sinks before s done done)
  | write_stdout (done rest : List (List UInt8)) (chunk : List UInt8) (hpc : s.pc = .write_stdout)
      (hinput : s.input = ⟨rest, input.fails⟩) (hchunks : input.chunks = done ++ chunk :: rest)
      (hholds : s.Holds chunk) (hsinks : Sinks before s done done)
  | write_file (done rest : List (List UInt8)) (chunk : List UInt8) (hpc : s.pc = .write_file)
      (hinput : s.input = ⟨rest, input.fails⟩) (hchunks : input.chunks = done ++ chunk :: rest)
      (hholds : s.Holds chunk) (hsinks : Sinks before s (done ++ [chunk]) done)
  | exited (hpc : s.pc = .exited 0) (hend : input.fails = false)
      (hsinks : Sinks before s input.chunks input.chunks)

/-- The number of steps that are left at most. -/
def remaining (s : State) : Nat :=
  match s.pc with
  | .read => 3 * s.input.chunks.length + 1
  | .write_stdout => 3 * s.input.chunks.length + 3
  | .write_file => 3 * s.input.chunks.length + 2
  | .exited _ => 0

section Steps

variable {input : Input} {before : List UInt8} {s : State} {fuel : Nat}

theorem State.Holds.counts {chunk : List UInt8} (h : s.Holds chunk) (hchunk : chunk.length ≤ IO_BUFF_SIZE) :
    to_size s.nr_bytes = s.stored := by
  obtain ⟨_, _, hstored, hbytes⟩ := h
  rw [IO_BUFF_SIZE] at hchunk
  rw [hbytes, hstored]
  exact to_size_natCast (by omega)

/-- Both sinks have got the first chunks of the input. -/
theorem Sinks.taken {out file : List (List UInt8)} (h : Sinks before s out file)
    (hout : out <+: input.chunks) (hfile : file <+: input.chunks) (hle : file.length ≤ out.length)
    (hnext : out.length ≤ file.length + 1) :
    ∃ m k, k ≤ m ∧ m ≤ k + 1 ∧ s.stdout = (input.chunks.take m).flatten ∧
      s.file.content = before ++ (input.chunks.take k).flatten := by
  refine ⟨out.length, file.length, hle, hnext, ?_, ?_⟩
  · rw [h.stdout, ← List.prefix_iff_eq_take.mp hout]
  · rw [h.content, ← List.prefix_iff_eq_take.mp hfile]

theorem At.duplicates (hfits : input.Fits) (h : At input before s) : Duplicates input before s := by
  cases h with
  | read done rest hpc hinput hchunks hsinks =>
    have hdone : done <+: input.chunks := ⟨rest, hchunks.symm⟩
    exact ⟨by simp [hpc], hsinks.taken hdone hdone le_rfl (by omega), by simp [hpc]⟩
  | write_stdout done rest chunk hpc hinput hchunks hholds hsinks =>
    have hdone : done <+: input.chunks := ⟨chunk :: rest, hchunks.symm⟩
    have hchunk := hfits chunk (by simp [hchunks])
    exact ⟨fun _ => hholds.counts hchunk.2, hsinks.taken hdone hdone le_rfl (by omega), by simp [hpc]⟩
  | write_file done rest chunk hpc hinput hchunks hholds hsinks =>
    have hdone : done <+: input.chunks := ⟨chunk :: rest, hchunks.symm⟩
    have hnext : done ++ [chunk] <+: input.chunks := ⟨rest, by simp [hchunks]⟩
    have hchunk := hfits chunk (by simp [hchunks])
    exact ⟨fun _ => hholds.counts hchunk.2, hsinks.taken hnext hdone (by simp) (by simp), by simp [hpc]⟩
  | exited hpc hend hsinks =>
    exact ⟨by simp [hpc], hsinks.taken List.prefix_rfl List.prefix_rfl le_rfl (by omega),
      fun _ => ⟨hsinks.stdout, hsinks.content⟩⟩

theorem step_read_chunk {rest : List (List UInt8)} {chunk : List UInt8} {fails : Bool} (fuel : Nat)
    (hpc : s.pc = .read) (hinput : s.input = ⟨chunk :: rest, fails⟩) (hpos : 1 ≤ chunk.length) :
    step fuel s = .ok ⟨.write_stdout, s.append, ⟨rest, fails⟩, chunk ++ s.buff.drop chunk.length,
      chunk.length, chunk.length, s.stdout, s.file⟩ := by
  have hne : (chunk.length : Int) ≠ 0 := by omega
  simp only [step, hpc, hinput, Input.read, if_pos hne]

theorem step_read_end (fuel : Nat) (hpc : s.pc = .read) (hinput : s.input = ⟨[], false⟩) :
    step fuel s = .ok ⟨.exited 0, s.append, ⟨[], false⟩, s.buff, 0, 0, s.stdout, s.file⟩ := by
  simp [step, hpc, hinput, Input.read]

/-- After a `read` that fails, `writep` is called for -1 bytes. -/
theorem step_read_error (fuel : Nat) (hpc : s.pc = .read) (hinput : s.input = ⟨[], true⟩) :
    step fuel s = .ok ⟨.write_stdout, s.append, ⟨[], true⟩, s.buff, 0, -1, s.stdout, s.file⟩ := by
  simp [step, hpc, hinput, Input.read]

theorem step_write_stdout {chunk : List UInt8} (fuel : Nat) (hpc : s.pc = .write_stdout)
    (hholds : s.Holds chunk) (hchunk : 1 ≤ chunk.length ∧ chunk.length ≤ IO_BUFF_SIZE) :
    step (fuel + 2) s = .ok { s with pc := .write_file, stdout := s.stdout ++ chunk } := by
  obtain ⟨junk, hbuff, _, hbytes⟩ := hholds
  obtain ⟨hpos, hle⟩ := hchunk
  rw [IO_BUFF_SIZE] at hle
  have hwrite := write_buff_chunk fuel junk (by omega) hpos
    (show write_out s.stdout chunk = (s.stdout ++ chunk, (chunk.length : Int)) from rfl)
  simp only [step, hpc, hbuff, hbytes, hwrite, exec_bind_ok, exec_pure]
  rw [if_neg (by omega)]

theorem step_write_file {chunk : List UInt8} (fuel : Nat) (hpc : s.pc = .write_file)
    (hholds : s.Holds chunk) (hchunk : 1 ≤ chunk.length ∧ chunk.length ≤ IO_BUFF_SIZE)
    (hend : s.append = true ∨ s.file.offset = s.file.content.length) :
    step (fuel + 2) s = .ok { s with
      pc := .read, file := ⟨s.file.content ++ chunk, s.file.content.length + chunk.length⟩ } := by
  obtain ⟨junk, hbuff, _, hbytes⟩ := hholds
  obtain ⟨hpos, hle⟩ := hchunk
  rw [IO_BUFF_SIZE] at hle
  have hwrite := write_buff_chunk fuel junk (by omega) hpos (File.write_fd_at_end hend chunk)
  simp only [step, hpc, hbuff, hbytes, hwrite, exec_bind_ok, exec_pure]
  rw [if_neg (by omega)]

/-- One step from where `tee` can be: it comes closer to its end, or a `read` has failed and
    `writep` is about to be called for bytes that nobody has read. -/
theorem At.step (fuel : Nat) (hfits : input.Fits) (h : At input before s) :
    (∃ s', step (fuel + 2) s = .ok s' ∧ At input before s' ∧
        (s.pc = .exited 0 ∧ input.fails = false ∨ remaining s' < remaining s)) ∨
      input.fails = true ∧ ∃ s', step (fuel + 2) s = .ok s' ∧ ¬ Duplicates input before s' := by
  cases h with
  | read done rest hpc hinput hchunks hsinks =>
    cases rest with
    | cons chunk rest =>
      refine Or.inl ⟨_, step_read_chunk _ hpc hinput (hfits chunk (by simp [hchunks])).1, ?_, Or.inr ?_⟩
      · exact .write_stdout done rest chunk rfl rfl hchunks ⟨_, rfl, rfl, rfl⟩
          ⟨hsinks.stdout, hsinks.content, hsinks.at_end⟩
      · simp [remaining, hpc, hinput]
        omega
    | nil =>
      rw [List.append_nil] at hchunks
      cases hfails : input.fails with
      | false =>
        rw [hfails] at hinput
        refine Or.inl ⟨_, step_read_end _ hpc hinput, ?_, Or.inr ?_⟩
        · refine .exited rfl hfails ⟨?_, ?_, hsinks.at_end⟩
          · rw [hchunks, hsinks.stdout]
          · rw [hchunks, hsinks.content]
        · simp [remaining, hpc]
      | true =>
        rw [hfails] at hinput
        refine Or.inr ⟨rfl, _, step_read_error _ hpc hinput, fun hdup => ?_⟩
        have hcounts := hdup.counts (Or.inl rfl)
        simp [to_size] at hcounts
  | write_stdout done rest chunk hpc hinput hchunks hholds hsinks =>
    refine Or.inl ⟨_, step_write_stdout fuel hpc hholds (hfits chunk (by simp [hchunks])), ?_, Or.inr ?_⟩
    · refine .write_file done rest chunk rfl hinput hchunks hholds ⟨?_, hsinks.content, hsinks.at_end⟩
      simp [hsinks.stdout]
    · simp [remaining, hpc]
  | write_file done rest chunk hpc hinput hchunks hholds hsinks =>
    refine Or.inl ⟨_, step_write_file fuel hpc hholds (hfits chunk (by simp [hchunks])) hsinks.at_end, ?_,
      Or.inr ?_⟩
    · refine .read (done ++ [chunk]) rest rfl hinput (by simp [hchunks]) ⟨hsinks.stdout, ?_, Or.inr ?_⟩
      · simp [hsinks.content]
      · simp
    · simp [remaining, hpc]
  | exited hpc hend hsinks =>
    exact Or.inl ⟨s, by simp only [tee.step, hpc], .exited hpc hend hsinks, Or.inl ⟨hpc, hend⟩⟩

/-- In the end `tee` has left its loop at the end of file, or does what it must not do. -/
theorem At.reaches (fuel : Nat) (hfits : input.Fits) (h : At input before s) :
    ∃ moments s', run (fun s (_ : Unit) => tee.step (fuel + 2) s) s moments = .ok s' ∧
      (s'.pc = .exited 0 ∧ input.fails = false ∨
        input.fails = true ∧ ¬ Duplicates input before s') := by
  induction hn : remaining s using Nat.strong_induction_on generalizing s with
  | _ n ih =>
    obtain ⟨s₁, hstep, hat, hend | hless⟩ | ⟨hfails, s₁, hstep, hbad⟩ := h.step fuel hfits
    · exact ⟨[], s, rfl, Or.inl hend⟩
    · obtain ⟨moments, s', hrun, hend⟩ := ih (remaining s₁) (hn ▸ hless) hat rfl
      refine ⟨() :: moments, s', ?_, hend⟩
      rw [run, hstep, exec_bind_ok, hrun]
    · refine ⟨[()], s₁, ?_, Or.inr ⟨hfails, hbad⟩⟩
      rw [run, hstep, exec_bind_ok, run]

end Steps

theorem append_mode_eq {opts : List Opt} (h : Opt.unknown ∉ opts) :
    append_mode opts = some (decide (Opt.a ∈ opts)) := by
  induction opts with
  | nil => rfl
  | cons opt opts ih =>
    rw [List.mem_cons, not_or] at h
    cases opt with
    | a => simp [append_mode, ih h.2]
    | unknown => exact absurd rfl h.1

/-- What the file holds when the loop begins. -/
def before (opts : List Opt) (prior : Option (List UInt8)) : List UInt8 :=
  if Opt.a ∈ opts then prior.getD [] else []

theorem start_spec {opts : List Opt} (input : Input) (prior : Option (List UInt8)) (buff : List UInt8)
    (hopts : Opt.unknown ∉ opts) :
    ∃ s, start opts true input prior buff = some s ∧ At input (before opts prior) s := by
  have hopen : open_path ⟨true, false, !decide (Opt.a ∈ opts), decide (Opt.a ∈ opts)⟩ prior =
      .ok ⟨before opts prior, 0⟩ := by
    by_cases ha : Opt.a ∈ opts <;> cases prior <;> simp [open_path, before, ha]
  have hend : decide (Opt.a ∈ opts) = true ∨ 0 = (before opts prior).length := by
    by_cases ha : Opt.a ∈ opts
    · exact Or.inl (decide_eq_true ha)
    · exact Or.inr (by simp [before, ha])
  refine ⟨⟨.read, decide (Opt.a ∈ opts), input, buff, 0, 0, [], ⟨before opts prior, 0⟩⟩, ?_, ?_⟩
  · simp [start, append_mode_eq hopts, hopen]
  · exact .read [] input.chunks rfl rfl rfl ⟨rfl, (List.append_nil _).symm, hend⟩

/-- What is asked of `tee`: at every moment it owes nothing, and if its input ends by the end
    of file it comes to its own end. -/
def Delivers (fuel : Nat) (input : Input) (before : List UInt8) (s : State) : Prop :=
  (∀ moments, Always (fun s (_ : Unit) => step fuel s) (Duplicates input before) s moments) ∧
    (input.fails = false →
      ∃ moments s', run (fun s (_ : Unit) => step fuel s) s moments = .ok s' ∧ s'.pc = .exited 0)

section Deliver

variable {input : Input} {known : List UInt8} {s : State}

theorem At.delivers (fuel : Nat) (hfits : input.Fits) (hend : input.fails = false) (h : At input known s) :
    Delivers (fuel + 2) input known s := by
  have hno : ¬ input.fails = true := by simp [hend]
  refine ⟨fun moments => ?_, fun _ => ?_⟩
  · apply Always.of_invariant (P := fun _ _ => True) _ (fun s h => h.duplicates hfits) h
      (Along.of_forall s fun _ _ _ => trivial)
    intro s _ h _
    obtain ⟨s₁, hstep, hat, _⟩ | ⟨hfails, _⟩ := h.step fuel hfits
    · exact ⟨s₁, hstep, hat⟩
    · exact absurd hfails hno
  · obtain ⟨moments, s', hrun, ⟨hpc, _⟩ | ⟨hfails, _⟩⟩ := h.reaches fuel hfits
    · exact ⟨moments, s', hrun, hpc⟩
    · exact absurd hfails hno

theorem At.not_delivers (fuel : Nat) (hfits : input.Fits) (hfails : input.fails = true)
    (h : At input known s) : ¬ Delivers (fuel + 2) input known s := by
  rintro ⟨hall, _⟩
  obtain ⟨moments, s', hrun, ⟨_, hend⟩ | ⟨_, hbad⟩⟩ := h.reaches fuel hfits
  · rw [hend] at hfails
    cases hfails
  · exact hbad ((hall moments).of_run_ok hrun)

end Deliver

/-- `tee` sends what it has read, and nothing else, to both sinks, all along and up to the
    end, if and only if its input ends by the end of file and not by an error. -/
theorem start_delivers_iff {opts : List Opt} {input : Input} (prior : Option (List UInt8))
    (buff : List UInt8) (fuel : Nat) (hopts : Opt.unknown ∉ opts) (hfits : input.Fits) :
    (∃ s, start opts true input prior buff = some s ∧
      Delivers (fuel + 2) input (before opts prior) s) ↔ input.fails = false := by
  obtain ⟨s, hstart, hat⟩ := start_spec input prior buff hopts
  constructor
  · rintro ⟨s₁, hstart₁, hdelivers⟩
    obtain rfl : s = s₁ := Option.some.inj (hstart.symm.trans hstart₁)
    rw [← Bool.not_eq_true]
    intro hfails
    exact hat.not_delivers fuel hfits hfails hdelivers
  · intro hend
    exact ⟨s, hstart, hat.delivers fuel hfits hend⟩

/-- Two chunks appended to a file. -/
theorem start_delivers_chunks :
    ∃ s, start [.a] true ⟨[[1, 2], [3]], false⟩ (some [9]) (List.replicate IO_BUFF_SIZE 0) = some s ∧
      Delivers 2 ⟨[[1, 2], [3]], false⟩ (before [.a] (some [9])) s :=
  (start_delivers_iff (some [9]) (List.replicate IO_BUFF_SIZE 0) 0 (by decide) (by decide)).mpr rfl

/-- One chunk, and then the next `read` fails. -/
theorem start_after_error :
    Input.Fits ⟨[[1]], true⟩ ∧
      ¬ ∃ s, start [] true ⟨[[1]], true⟩ none (List.replicate IO_BUFF_SIZE 0) = some s ∧
        Delivers 2 ⟨[[1]], true⟩ (before [] none) s := by
  have hfits : Input.Fits ⟨[[1]], true⟩ := by decide
  obtain ⟨s, hstart, hat⟩ :=
    start_spec ⟨[[1]], true⟩ none (List.replicate IO_BUFF_SIZE 0) (show Opt.unknown ∉ [] from List.not_mem_nil)
  refine ⟨hfits, ?_⟩
  rintro ⟨s₁, hstart₁, hdelivers⟩
  obtain rfl : s = s₁ := Option.some.inj (hstart.symm.trans hstart₁)
  exact hat.not_delivers 0 hfits rfl hdelivers

end tlpi.tee
