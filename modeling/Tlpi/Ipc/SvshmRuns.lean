import Tlpi.Ipc.SvshmTurns

namespace tlpi.svshm

section Runs

variable {stdin : Input} {shmp : Segment} {short : Prop} {s s' : System} {actions : List Action}

/-- Some chunks are on their way. -/
def Running (stdin : Input) (short : Prop) (s : System) : Prop := ∃ put got, Inv stdin put got short s

theorem running_start (stdin : Input) (shmp : Segment) (short : Prop) : Running stdin short (start stdin shmp) := by
  refine ⟨[], [], .inr List.nil_prefix, rfl, ⟨rfl, ?_⟩, ⟨rfl, rfl, ?_⟩, .setup rfl rfl rfl (.inl rfl) .semget⟩
  all_goals exact ⟨rfl, rfl⟩

/-- Every action keeps the invariant. -/
theorem Running.step {a : Action} (hrunning : Running stdin short s) (hdelivers : Delivers stdin)
    (hshort : ∀ accepted, a = .shortWrite accepted → short) (h : step s a = some s') : Running stdin short s' := by
  obtain ⟨put, got, hinv⟩ := hrunning
  cases a with
  | writer =>
    obtain ⟨more, hinv⟩ := hinv.writer_step hdelivers h
    exact ⟨more, got, hinv⟩
  | reader =>
    obtain ⟨back, hinv⟩ := hinv.reader_step hdelivers h
    exact ⟨put, back, hinv⟩
  | writerInterrupted | readerInterrupted =>
    simp only [svshm.step, bsRetryOnEintr, if_true, Option.ite_none_right_eq_some, Option.some.injEq] at h
    exact ⟨put, got, h.2 ▸ hinv⟩
  | shortWrite accepted => exact ⟨put, got, hinv.short_write (hshort accepted rfl) h⟩

theorem running_follow (hdelivers : Delivers stdin) (hrun : follow svshm.step (start stdin shmp) actions = some s) :
    Running stdin (∃ accepted, .shortWrite accepted ∈ actions) s := by
  refine follow_invariant (fun a ha s s' hs h => ?_) (running_start stdin shmp _) hrun
  exact hs.step hdelivers (fun accepted heq => ⟨accepted, heq ▸ ha⟩) h

/-- What has been written is the beginning of what was read. -/
theorem Inv.stdout_le {put got : List (List UInt8)} (hinv : Inv stdin put got short s) :
    s.reader.stdout <+: stdin.content := by
  have hflatten : ∀ chunks, chunks <+: stdin.chunks → chunks.flatten <+: stdin.content := by
    rintro chunks ⟨rest, hrest⟩
    exact ⟨rest.flatten, by rw [Input.content, ← hrest, List.flatten_append]⟩
  have hput : put.flatten <+: stdin.content := by
    rcases hinv.writer.sent with h | ⟨h, -⟩
    · exact hflatten put h
    · rw [h, List.flatten_append, List.flatten_singleton, List.append_nil]
      exact hflatten _ (List.prefix_refl _)
  have hreader := hinv.reader
  have hgot : s.reader.pc ≠ .exited → got.flatten <+: stdin.content := fun h =>
    hflatten got (hinv.handed.resolve_left h)
  cases hpc : s.reader.pc <;> simp only [ReaderOk, hpc] at hreader
  case semget | shmget =>
    rw [hreader.2.1]
    exact List.nil_prefix
  case exited => exact hreader.2.2.1 ▸ List.prefix_refl _
  case releaseSem =>
    -- all of the chunk in the segment is written
    obtain ⟨chunk, hsent, hholds, -, -⟩ := hinv.turn.of_reading (by rw [hpc]; rfl)
    rw [hsent, List.flatten_append, List.flatten_singleton] at hput
    rwa [hreader.1, hholds.1, Int.toNat_natCast, hholds.2]
  case failed =>
    rcases hreader with ⟨-, hstdout⟩ | ⟨-, hstdout⟩
    · rw [hstdout]
      exact List.nil_prefix
    · exact hstdout.trans hput
  all_goals
    rw [hreader.1]
    exact hgot (by rw [hpc]; decide)

/-- The writer and the reader have their turns one after the other, however they are scheduled and
    interrupted and however the input comes in, and in the turn of the reader no step of the
    writer changes the segment. At any time the output is a beginning of the input, and when the
    reader exits it is the whole input and the counts are those of the input, as an `int` holds
    them. -/
theorem runs_transfer (stdin : Input) (shmp : Segment) (actions : List Action) (s : System)
    (hdelivers : Delivers stdin) (hrun : follow svshm.step (start stdin shmp) actions = some s) :
    s.reader.stdout <+: stdin.content ∧ ¬ (s.writer.pc.HasTurn = true ∧ s.reader.pc.HasTurn = true) ∧
      (s.reader.pc.HasTurn = true → ∀ s', writer_step s = some s' → s'.shmp = s.shmp) ∧
      (s.reader.pc = .exited → stdin.fails = false ∧ s.reader.stdout = stdin.content ∧
        s.reader.xfrs = as_int stdin.chunks.length ∧ s.reader.bytes = as_int stdin.content.length) := by
  obtain ⟨put, got, hinv⟩ := running_follow hdelivers hrun
  refine ⟨hinv.stdout_le, ?_, fun hreader s' => hinv.segment_kept hreader, ?_⟩
  · rintro ⟨hwriter, hreader⟩
    simp [(hinv.turn.of_hasTurn hwriter).2.2] at hreader
  · intro hexited
    have hreader := hinv.reader
    simp only [ReaderOk, hexited] at hreader
    obtain ⟨-, hfails, hstdout, hxfrs, hbytes⟩ := hreader
    exact ⟨hfails, hstdout, hxfrs, hbytes⟩

/-- A run over an input of one chunk, with a signal for each party while it waits. -/
def one_chunk : List Action :=
  List.replicate 4 Action.writer ++ [Action.reader, .reader, .readerInterrupted] ++ List.replicate 5 Action.writer ++
  [Action.reader, .reader, .writer, .reader, .writer, .writerInterrupted, .reader, .reader] ++
  List.replicate 6 Action.writer ++ List.replicate 4 Action.reader ++ List.replicate 3 Action.writer

theorem runs_transfer_one_chunk : ∃ s, follow svshm.step (start ⟨[[104, 105]], false⟩ ⟨0, []⟩) one_chunk = some s ∧
    s.reader.stdout = [104, 105] :=
  ⟨_, rfl, ((runs_transfer ⟨[[104, 105]], false⟩ ⟨0, []⟩ one_chunk _ (by decide) rfl).2.2.2 rfl).2.1⟩

/-- The reader has looked for an IPC object that was not there, in the middle of these actions. -/
def Premature (stdin : Input) (shmp : Segment) (actions : List Action) : Prop :=
  ∃ before after t, actions = before ++ .reader :: after ∧
    follow svshm.step (start stdin shmp) before = some t ∧ Missing t

/-- How a run can end. -/
inductive Outcome (stdin : Input) (premature short : Prop) (s : System) : Prop
  | complete (hwriter : s.writer.pc = .exited) (hreader : s.reader.pc = .exited) (hfails : stdin.fails = false)
    (hstdout : s.reader.stdout = stdin.content) (hxfrs : s.writer.xfrs = s.reader.xfrs)
    (hbytes : s.writer.bytes = s.reader.bytes) (hsems : s.sems = none) (hshm : s.shm = false)
  /-- The reader was started before the IPC objects were there. -/
  | early (hreader : s.reader.pc = .failed) (hstdout : s.reader.stdout = []) (hpremature : premature)
  /-- The input could not be read to its end, what was read has been written. -/
  | unread (hwriter : s.writer.pc = .failed) (hreader : s.reader.pc = .reserveSem) (hfails : stdin.fails = true)
    (hstdout : s.reader.stdout = stdin.content)
  /-- The output could not be written. -/
  | unwritten (hreader : s.reader.pc = .failed) (hshort : short)

/-- Nobody can go on. -/
def Quiet (s : System) : Prop := writer_step s = none ∧ reader_step s = none

theorem eq_zero_of_reserveSem {value : Nat} (h : reserveSem value = none) : value = 0 := by
  by_contra hne
  simp [reserveSem, Nat.pos_of_ne_zero hne] at h

theorem writer_blocked (h : writer_step s = none) :
    s.writer.pc = .exited ∨ s.writer.pc = .failed ∨
      s.writer.pc.Between = true ∧ ∃ sems, s.sems = some sems ∧ sems.WRITE_SEM = 0 := by
  cases hpc : s.writer.pc <;> simp only [writer_step, hpc, reduceCtorEq] at h
  case exited => exact .inl rfl
  case failed => exact .inr (.inl rfl)
  all_goals cases hsems : s.sems with
    | none => simp [hsems] at h
    | some sems => ?_
  case reserveSem | lastReserveSem =>
    simp only [hsems, Option.map_eq_none_iff] at h
    exact .inr (.inr ⟨rfl, sems, rfl, eq_zero_of_reserveSem h⟩)
  all_goals
    simp only [hsems, reduceCtorEq] at h
    try (split at h <;> cases h)

theorem reader_blocked (h : reader_step s = none) :
    s.reader.pc = .exited ∨ s.reader.pc = .failed ∨
      s.reader.pc = .reserveSem ∧ ∃ sems, s.sems = some sems ∧ sems.READ_SEM = 0 := by
  cases hpc : s.reader.pc <;> simp only [reader_step, hpc, reduceCtorEq] at h
  case exited => exact .inl rfl
  case failed => exact .inr (.inl rfl)
  all_goals cases hsems : s.sems with
    | none => simp [hsems] at h
    | some sems => ?_
  case reserveSem =>
    simp only [hsems, Option.map_eq_none_iff] at h
    exact .inr (.inr ⟨rfl, sems, rfl, eq_zero_of_reserveSem h⟩)
  all_goals
    simp only [hsems] at h
    split at h <;> cases h

/-- A reader that has failed has failed early or in a short write. -/
theorem Inv.outcome_of_failed {put got : List (List UInt8)} {premature : Prop} (hinv : Inv stdin put got short s)
    (hfailed : s.reader.pc = .failed → premature ∨ short) (hpc : s.reader.pc = .failed) :
    Outcome stdin premature short s := by
  have hreader := hinv.reader
  simp only [ReaderOk, hpc] at hreader
  rcases hreader with ⟨-, hstdout⟩ | ⟨hshort, -⟩
  · rcases hfailed hpc with hpremature | hshort
    · exact .early hpc hstdout hpremature
    · exact .unwritten hpc hshort
  · exact .unwritten hpc hshort

/-- A run that cannot go on has one of the outcomes. -/
theorem Inv.outcome {put got : List (List UInt8)} {premature : Prop} (hinv : Inv stdin put got short s)
    (hfailed : s.reader.pc = .failed → premature ∨ short) (hquiet : Quiet s) : Outcome stdin premature short s := by
  have hwriter := writer_blocked hquiet.1
  have hreader := reader_blocked hquiet.2
  have hlong : s.reader.pc = .exited → stdin.chunks.length < got.length := by
    intro hexited
    have hok := hinv.reader
    simp only [ReaderOk, hexited] at hok
    simp [hok.1]
  cases hinv.turn with
  | setup _ _ _ _ hmaking =>
    rcases hwriter with h | h | ⟨h, -⟩
    · rw [h] at hmaking
      cases hmaking
    · rw [h] at hmaking
      cases hmaking
    · simp [hmaking.outside] at h
  | writers _ hsems hbetween _ =>
    rcases hwriter with h | h | ⟨-, sems, hsems', hzero⟩
    · simp [h, WriterPc.Between] at hbetween
    · simp [h, WriterPc.Between] at hbetween
    · cases hsems.symm.trans hsems'
      cases hzero
  | writing _ _ hin _ =>
    rcases hwriter with h | h | ⟨h, -⟩
    · simp [h, WriterPc.HasTurn] at hin
    · simp [h, WriterPc.HasTurn] at hin
    · simp [WriterPc.between_outside h] at hin
  | readers chunk hput _ hsems _ _ =>
    rcases hreader with h | h | ⟨-, sems, hsems', hzero⟩
    · -- the reader does not exit before it has got the last chunk
      have hgot := hlong h
      rcases hinv.writer.sent with hsent | ⟨hsent, -⟩
      · have hlen := hsent.length_le
        simp only [hput, List.length_append, List.length_singleton] at hlen
        omega
      · have hlen := congrArg List.length (hput.symm.trans hsent)
        simp only [List.length_append, List.length_singleton] at hlen
        omega
    · exact hinv.outcome_of_failed hfailed h
    · cases hsems.symm.trans hsems'
      cases hzero
  | reading _ _ _ _ _ hin =>
    rcases hreader with h | h | ⟨h, -⟩ <;> simp [h, ReaderPc.HasTurn] at hin
  | closing _ hexited hremoving =>
    have hokw := hinv.writer
    have hokr := hinv.reader
    rcases hwriter with h | h | ⟨h, -⟩
    · rw [h] at hremoving
      simp only [WriterOk, h] at hokw
      simp only [ReaderOk, hexited] at hokr
      obtain ⟨-, hfails, hstdout, hxfrs, hbytes⟩ := hokr
      obtain ⟨hsems, hshm⟩ : s.sems = none ∧ s.shm = false := by
        generalize s.sems = sems at *
        generalize s.shm = shm at *
        cases hremoving
        exact ⟨rfl, rfl⟩
      exact .complete h hexited hfails hstdout (hokw.2.2.1.trans hxfrs.symm) (hokw.2.2.2.trans hbytes.symm) hsems hshm
    · rw [h] at hremoving
      cases hremoving
    · simp [hremoving.outside] at h
  | unread hput _ hwfailed _ =>
    have hokw := hinv.writer
    simp only [WriterOk, hwfailed] at hokw
    rcases hreader with h | h | ⟨h, -⟩
    · have hgot := hlong h
      rw [hokw.1, hput] at hgot
      exact absurd hgot (Nat.lt_irrefl _)
    · exact hinv.outcome_of_failed hfailed h
    · have hokr := hinv.reader
      simp only [ReaderOk, h] at hokr
      refine .unread hwfailed h hokw.2 ?_
      rw [hokr.1, ← hput, Input.content, hokw.1]
  | unwritten hshort _ _ hpc => exact .unwritten hpc hshort

/-- What is left of the writer's loop, when a chunk is on its way. -/
def credit (nr : Int) : Nat := if 0 < nr then 12 else 0

def writer_rank (pc : WriterPc) (cnt : Int) : Nat :=
  match pc with
  | .semget => 18
  | .initSemAvailable => 17
  | .initSemInUse => 16
  | .shmget => 15
  | .reserveSem => 14
  | .read => 13
  | .storeCnt nr => 12 + credit nr
  | .checkCnt => 11 + credit cnt
  | .releaseSem => 10 + credit cnt
  | .testEof => 4 + credit cnt
  | .addCnt => 3 + credit cnt
  | .lastReserveSem => 3
  | .removeSems => 2
  | .removeShm => 1
  | .exited => 0
  | .failed => 0

def reader_rank : ReaderPc → Nat
  | .testEof => 5
  | .addCnt => 4
  | .semget | .write | .shmdt => 3
  | .shmget | .releaseSem | .lastReleaseSem => 2
  | .reserveSem => 1
  | .exited | .failed => 0

/-- A bound on the number of steps that are left: a chunk takes seven of the writer and five of
    the reader. -/
def steps_left (s : System) : Nat :=
  12 * s.writer.stdin.chunks.length + writer_rank s.writer.pc s.shmp.cnt +
    5 * (s.sems.elim 0 Sems.READ_SEM) + reader_rank s.reader.pc

theorem steps_left_read (hpc : s.writer.pc = .read) (h : writer_step s = some s') :
    steps_left s' + 1 ≤ steps_left s := by
  simp only [writer_step, hpc, Option.some.injEq] at h
  subst h
  simp only [steps_left, hpc, writer_rank]
  cases hchunks : s.writer.stdin.chunks with
  | nil =>
    have hcredit : credit (if s.writer.stdin.fails = true then -1 else 0) = 0 := by
      cases s.writer.stdin.fails <;> rfl
    simp only [Input.read, hchunks, hcredit]
    omega
  | cons chunk rest =>
    have hcredit : credit chunk.length ≤ 12 := by
      unfold credit
      split <;> omega
    simp only [Input.read, hchunks, List.length_cons]
    omega

theorem steps_left_addCnt (hrunning : Running stdin short s) (hpc : s.writer.pc = .addCnt)
    (h : writer_step s = some s') : steps_left s' + 1 ≤ steps_left s := by
  obtain ⟨put, got, hinv⟩ := hrunning
  have hwriter := hinv.writer
  simp only [WriterOk, hpc] at hwriter
  have hcnt : 0 < s.shmp.cnt := by
    rcases hwriter.1 with ⟨_, chunk, -, -, hlen, -, -⟩ | ⟨-, -, hzero, -⟩
    · have hne := hwriter.2
      omega
    · exact absurd hzero hwriter.2
  simp only [writer_step, hpc, Option.some.injEq] at h
  subst h
  simp only [steps_left, hpc, writer_rank, credit, if_pos hcnt]
  omega

theorem steps_left_writer (hrunning : Running stdin short s) (h : writer_step s = some s') :
    steps_left s' + 1 ≤ steps_left s := by
  cases hpc : s.writer.pc
  case read => exact steps_left_read hpc h
  case addCnt => exact steps_left_addCnt hrunning hpc h
  all_goals simp only [writer_step, hpc, reduceCtorEq, Option.some.injEq] at h
  case semget =>
    subst h
    cases hsems : s.sems <;>
      simp only [steps_left, hpc, hsems, writer_rank, System.set_sems, System.writer_at, Option.elim,
        Option.getD] <;> omega
  case storeCnt | shmget | removeShm =>
    subst h
    simp only [steps_left, hpc, writer_rank, System.writer_at]
    omega
  case checkCnt | testEof =>
    subst h
    simp only [steps_left, hpc, System.writer_at]
    split <;> simp only [writer_rank] <;> omega
  all_goals cases hsems : s.sems with
    | none =>
      simp only [hsems, Option.some.injEq] at h
      subst h
      simp only [steps_left, hpc, writer_rank, System.writer_at]
      omega
    | some sems => ?_
  all_goals simp only [hsems] at h
  case releaseSem =>
    unfold releaseSem at h
    split_ifs at h <;> cases h <;>
      simp only [steps_left, hpc, hsems, writer_rank, System.set_sems, System.writer_at, Option.elim] <;> omega
  case reserveSem | lastReserveSem =>
    obtain ⟨value, -, rfl⟩ := Option.map_eq_some_iff.mp h
    simp only [steps_left, hpc, hsems, writer_rank, System.set_sems, System.writer_at, Option.elim]
    omega
  all_goals
    cases h
    simp only [steps_left, hpc, hsems, writer_rank, System.set_sems, System.writer_at, Option.elim]
    omega

theorem steps_left_reader (h : reader_step s = some s') : steps_left s' + 1 ≤ steps_left s := by
  cases hpc : s.reader.pc
  all_goals simp only [reader_step, hpc, reduceCtorEq, Option.some.injEq] at h
  case semget | shmget | testEof =>
    subst h
    simp only [steps_left, hpc, System.reader_at]
    split <;> simp only [reader_rank] <;> omega
  case addCnt | write | shmdt =>
    subst h
    simp only [steps_left, hpc, reader_rank, System.reader_at]
    omega
  all_goals cases hsems : s.sems with
    | none =>
      simp only [hsems, Option.some.injEq] at h
      subst h
      simp only [steps_left, hpc, reader_rank, System.reader_at]
      omega
    | some sems => ?_
  all_goals simp only [hsems] at h
  case reserveSem =>
    obtain ⟨value, hvalue, rfl⟩ := Option.map_eq_some_iff.mp h
    unfold reserveSem at hvalue
    split_ifs at hvalue with hpos
    cases hvalue
    simp only [steps_left, hpc, hsems, reader_rank, System.set_sems, System.reader_at, Option.elim]
    omega
  all_goals
    unfold releaseSem at h
    split_ifs at h <;> cases h <;>
      simp only [steps_left, hpc, hsems, reader_rank, System.set_sems, System.reader_at, Option.elim] <;> omega

/-- The signals are the only actions that bring nobody forward. -/
def Action.interrupts : Action → Nat
  | .writerInterrupted | .readerInterrupted => 1
  | _ => 0

theorem steps_left_step {a : Action} (hrunning : Running stdin short s) (h : svshm.step s a = some s') :
    steps_left s' + 1 ≤ steps_left s + a.interrupts := by
  cases a with
  | writer => exact steps_left_writer hrunning h
  | reader => exact steps_left_reader h
  | writerInterrupted | readerInterrupted =>
    simp only [svshm.step, bsRetryOnEintr, if_true, Option.ite_none_right_eq_some, Option.some.injEq] at h
    rw [h.2]
    rfl
  | shortWrite accepted =>
    simp only [svshm.step] at h
    split at h
    case isFalse => cases h
    case isTrue hpc =>
      cases h
      simp only [steps_left, hpc.1, reader_rank, Action.interrupts]
      omega

/-- In a run in which the reader has failed it has been too early, or a write was short. -/
theorem reader_failed (hdelivers : Delivers stdin) (hrun : follow svshm.step (start stdin shmp) actions = some s)
    (hpc : s.reader.pc = .failed) : Premature stdin shmp actions ∨ ∃ accepted, .shortWrite accepted ∈ actions := by
  have hstart : (start stdin shmp).reader.pc ≠ .failed := by simp [start]
  obtain ⟨before, a, after, t, t', hactions, hbefore, ht, ha, ht'⟩ :=
    follow_crosses (P := fun s => s.reader.pc = .failed) hstart hrun hpc
  obtain ⟨put, got, hinv⟩ := running_follow hdelivers hbefore
  rcases hinv.reader_fails ht ha ht' with ⟨rfl, hmissing⟩ | ⟨accepted, rfl⟩
  · exact .inl ⟨before, after, t, hactions, hbefore, hmissing⟩
  · exact .inr ⟨accepted, by simp [hactions]⟩

/-- Every run ends, and when nobody can go on any more the transfer is complete, or the reader
    was started too early, or the input or the output has failed. -/
theorem runs_end (stdin : Input) (shmp : Segment) (actions : List Action) (s : System)
    (hdelivers : Delivers stdin) (hrun : follow svshm.step (start stdin shmp) actions = some s) :
    actions.length ≤ 12 * stdin.chunks.length + 21 + (actions.map Action.interrupts).sum ∧
      (Quiet s → Outcome stdin (Premature stdin shmp actions) (∃ accepted, .shortWrite accepted ∈ actions) s) := by
  refine ⟨?_, ?_⟩
  · have hkeep : ∀ a ∈ actions, ∀ s s', Running stdin (∃ accepted, .shortWrite accepted ∈ actions) s →
        svshm.step s a = some s' → Running stdin (∃ accepted, .shortWrite accepted ∈ actions) s' :=
      fun a ha s s' hs h => hs.step hdelivers (fun accepted heq => ⟨accepted, heq ▸ ha⟩) h
    have hlen : actions.length + steps_left s ≤
        steps_left (start stdin shmp) + (actions.map Action.interrupts).sum :=
      follow_length_le hkeep (fun s a s' hs h => steps_left_step hs h) (running_start stdin shmp _) hrun
    have hstart : steps_left (start stdin shmp) = 12 * stdin.chunks.length + 21 := rfl
    omega
  · intro hquiet
    obtain ⟨put, got, hinv⟩ := running_follow hdelivers hrun
    exact hinv.outcome (reader_failed hdelivers hrun) hquiet

theorem runs_end_one_chunk : ∃ s, follow svshm.step (start ⟨[[104, 105]], false⟩ ⟨0, []⟩) one_chunk = some s ∧
    Outcome ⟨[[104, 105]], false⟩ (Premature ⟨[[104, 105]], false⟩ ⟨0, []⟩ one_chunk)
      (∃ accepted, .shortWrite accepted ∈ one_chunk) s :=
  ⟨_, rfl, (runs_end ⟨[[104, 105]], false⟩ ⟨0, []⟩ one_chunk _ (by decide) rfl).2 ⟨rfl, rfl⟩⟩

end Runs

end tlpi.svshm
