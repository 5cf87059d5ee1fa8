import Tlpi.Ipc.Svshm

namespace tlpi.svshm

/-- What an `int` that has counted to `n` holds. -/
def as_int (n : Nat) : Int := (n : Int).bmod (2 ^ 32)

theorem int_add_as_int (n m : Nat) : int_add (as_int n) m = as_int (n + m) := by
  unfold int_add as_int
  generalize 2 ^ 32 = modulus
  rw [Int.bmod_add_bmod, Int.natCast_add]

/-- The counters after these chunks. -/
def Counts (xfrs bytes : Int) (chunks : List (List UInt8)) : Prop :=
  xfrs = as_int chunks.length ∧ bytes = as_int chunks.flatten.length

theorem Counts.snoc {xfrs bytes : Int} {chunks : List (List UInt8)} {chunk : List UInt8}
    (h : Counts xfrs bytes chunks) :
    Counts (int_add xfrs 1) (int_add bytes chunk.length) (chunks ++ [chunk]) := by
  refine ⟨?_, ?_⟩
  · rw [h.1, ← Int.natCast_one, int_add_as_int, List.length_append, List.length_singleton]
  · rw [h.2, int_add_as_int, List.flatten_append, List.length_append, List.flatten_singleton]

/-- The segment holds a chunk. -/
def Segment.Holds (shmp : Segment) (chunk : List UInt8) : Prop :=
  shmp.cnt = chunk.length ∧ shmp.buf.take chunk.length = chunk

/-- The writer is between its `reserveSem` and its `releaseSem`. It reads `cnt` once more after that. -/
def WriterPc.HasTurn : WriterPc → Bool
  | .read | .storeCnt _ | .checkCnt | .releaseSem => true
  | _ => false

/-- The writer has given the segment away and not yet got it back. -/
def WriterPc.Between : WriterPc → Bool
  | .testEof | .addCnt | .reserveSem | .lastReserveSem => true
  | _ => false

/-- The reader has waited for its turn and not yet given the writer a turn. -/
def ReaderPc.HasTurn : ReaderPc → Bool
  | .testEof | .addCnt | .write | .releaseSem | .shmdt | .lastReleaseSem => true
  | _ => false

/-- How far the writer has come with the making of the semaphores. -/
inductive Making : WriterPc → Option Sems → Prop
  | semget : Making .semget none
  | initSemAvailable : Making .initSemAvailable (some ⟨0, 0⟩)
  | initSemInUse : Making .initSemInUse (some ⟨1, 0⟩)
  | shmget : Making .shmget (some ⟨1, 0⟩)

/-- How far it has come with the removal of the IPC objects. -/
inductive Removing : WriterPc → Option Sems → Bool → Prop
  | removeSems {shm : Bool} : Removing .removeSems (some ⟨0, 0⟩) shm
  | removeShm {shm : Bool} : Removing .removeShm none shm
  | exited : Removing .exited none false

theorem Making.outside {pc : WriterPc} {sems : Option Sems} (h : Making pc sems) :
    pc.Between = false ∧ pc.HasTurn = false := by
  cases h <;> exact ⟨rfl, rfl⟩

theorem Removing.outside {pc : WriterPc} {sems : Option Sems} {shm : Bool} (h : Removing pc sems shm) :
    pc.Between = false ∧ pc.HasTurn = false := by
  cases h <;> exact ⟨rfl, rfl⟩

theorem WriterPc.between_outside {pc : WriterPc} (h : pc.Between = true) : pc.HasTurn = false := by
  cases pc <;> first | rfl | cases h

section Invariant

variable (stdin : Input) (put got : List (List UInt8))

/-- What `read` has returned: the next chunk, the end of file, which is sent as an empty chunk,
    or an error. -/
inductive Fetched (rest : Input) (buf : List UInt8) (nr : Int) : Prop
  | chunk (chunk : List UInt8) (hnr : nr = chunk.length) (hbuf : buf.take chunk.length = chunk)
    (hinput : stdin.chunks = put ++ chunk :: rest.chunks)
  | eof (hnr : nr = 0) (hinput : stdin.chunks = put) (hfails : stdin.fails = false)
  | error (hnr : nr = -1) (hinput : stdin.chunks = put) (hfails : stdin.fails = true)

/-- The last chunk that the writer has put into the segment, the empty one at the end. -/
inductive Given (rest : Input) (xfrs bytes cnt : Int) : Prop
  | chunk (before : List (List UInt8)) (chunk : List UInt8) (hput : put = before ++ [chunk]) (hne : chunk ≠ [])
    (hcnt : cnt = chunk.length) (hcounts : Counts xfrs bytes before) (hinput : stdin.chunks = put ++ rest.chunks)
  | eof (hput : put = stdin.chunks ++ [[]]) (hfails : stdin.fails = false) (hcnt : cnt = 0)
    (hcounts : Counts xfrs bytes stdin.chunks)

/-- What holds at each place of the writer, when it has put these chunks into the segment. -/
def WriterOk (w : Writer) (shmp : Segment) : Prop :=
  match w.pc with
  | .semget | .initSemAvailable | .initSemInUse | .shmget | .reserveSem | .read =>
    stdin.chunks = put ++ w.stdin.chunks ∧ Counts w.xfrs w.bytes put
  | .storeCnt nr => Fetched stdin put w.stdin shmp.buf nr ∧ Counts w.xfrs w.bytes put
  | .checkCnt => Fetched stdin put w.stdin shmp.buf shmp.cnt ∧ Counts w.xfrs w.bytes put
  | .releaseSem => Fetched stdin put w.stdin shmp.buf shmp.cnt ∧ shmp.cnt ≠ -1 ∧ Counts w.xfrs w.bytes put
  | .testEof => Given stdin put w.stdin w.xfrs w.bytes shmp.cnt
  | .addCnt => Given stdin put w.stdin w.xfrs w.bytes shmp.cnt ∧ shmp.cnt ≠ 0
  | .lastReserveSem | .removeSems | .removeShm | .exited =>
    put = stdin.chunks ++ [[]] ∧ stdin.fails = false ∧ Counts w.xfrs w.bytes stdin.chunks
  | .failed => stdin.chunks = put ∧ stdin.fails = true

/-- The reader has ended before it could read from the segment, or in the middle of a chunk. -/
inductive Ended (short : Prop) (stdout : List UInt8) : Prop
  | early (hgot : got = []) (hstdout : stdout = [])
  | short (hshort : short) (hstdout : stdout <+: put.flatten)

/-- What holds at each place of the reader, when it has handed these chunks back. -/
def ReaderOk (short : Prop) (r : Reader) (shmp : Segment) : Prop :=
  match r.pc with
  | .semget | .shmget => got = [] ∧ r.stdout = [] ∧ Counts r.xfrs r.bytes got
  | .reserveSem | .testEof => r.stdout = got.flatten ∧ Counts r.xfrs r.bytes got
  | .addCnt => r.stdout = got.flatten ∧ Counts r.xfrs r.bytes got ∧ shmp.cnt ≠ 0
  | .write =>
    r.stdout = got.flatten ∧ shmp.cnt ≠ 0 ∧ r.xfrs = as_int got.length ∧
      r.bytes = int_add (as_int got.flatten.length) shmp.cnt
  | .releaseSem =>
    r.stdout = got.flatten ++ shmp.buf.take shmp.cnt.toNat ∧ shmp.cnt ≠ 0 ∧ r.xfrs = as_int got.length ∧
      r.bytes = int_add (as_int got.flatten.length) shmp.cnt
  | .shmdt | .lastReleaseSem => r.stdout = got.flatten ∧ Counts r.xfrs r.bytes got ∧ shmp.cnt = 0
  | .exited =>
    got = stdin.chunks ++ [[]] ∧ stdin.fails = false ∧ r.stdout = stdin.content ∧
      Counts r.xfrs r.bytes stdin.chunks
  | .failed => Ended put got short r.stdout

/-- Whose turn it is. -/
inductive Turn (short : Prop) (s : System) : Prop
  /-- The writer makes the IPC objects. -/
  | setup (hput : put = []) (hgot : got = []) (hshm : s.shm = false)
    (hreader : s.reader.pc = .semget ∨ s.reader.pc = .shmget ∨ s.reader.pc = .failed)
    (hwriter : Making s.writer.pc s.sems)
  | writers (hput : put = got) (hsems : s.sems = some ⟨1, 0⟩) (hwriter : s.writer.pc.Between = true)
    (hreader : s.reader.pc.HasTurn = false)
  | writing (hput : put = got) (hsems : s.sems = some ⟨0, 0⟩) (hwriter : s.writer.pc.HasTurn = true)
    (hreader : s.reader.pc.HasTurn = false)
  | readers (chunk : List UInt8) (hput : put = got ++ [chunk]) (hholds : s.shmp.Holds chunk)
    (hsems : s.sems = some ⟨0, 1⟩) (hwriter : s.writer.pc.Between = true)
    (hreader : s.reader.pc.HasTurn = false)
  | reading (chunk : List UInt8) (hput : put = got ++ [chunk]) (hholds : s.shmp.Holds chunk)
    (hsems : s.sems = some ⟨0, 0⟩) (hwriter : s.writer.pc.Between = true)
    (hreader : s.reader.pc.HasTurn = true)
  /-- The writer removes the IPC objects. -/
  | closing (hput : put = got) (hreader : s.reader.pc = .exited)
    (hwriter : Removing s.writer.pc s.sems s.shm)
  /-- The writer could not read its input. -/
  | unread (hput : put = got) (hsems : s.sems = some ⟨0, 0⟩) (hwriter : s.writer.pc = .failed)
    (hreader : s.reader.pc.HasTurn = false)
  /-- The reader could not write all of a chunk. -/
  | unwritten (hshort : short) (hsems : s.sems = some ⟨0, 0⟩) (hwriter : s.writer.pc.Between = true)
    (hreader : s.reader.pc = .failed)

/-- The invariant of all runs. -/
structure Inv (short : Prop) (s : System) : Prop where
  handed : s.reader.pc = .exited ∨ got <+: stdin.chunks
  fails : s.writer.stdin.fails = stdin.fails
  writer : WriterOk stdin put s.writer s.shmp
  reader : ReaderOk stdin put got short s.reader s.shmp
  turn : Turn put got short s

end Invariant

section Writer

variable {stdin : Input} {put got : List (List UInt8)} {short : Prop} {s s' : System}

theorem WriterOk.sent {w : Writer} {shmp : Segment} (h : WriterOk stdin put w shmp) :
    put <+: stdin.chunks ∨ put = stdin.chunks ++ [[]] ∧ stdin.fails = false := by
  have hfetched : ∀ nr, Fetched stdin put w.stdin shmp.buf nr → put <+: stdin.chunks := by
    rintro nr (⟨chunk, -, -, hinput⟩ | ⟨-, hinput, -⟩ | ⟨-, hinput, -⟩)
    · exact ⟨_, hinput.symm⟩
    all_goals exact hinput ▸ List.prefix_refl _
  have hgiven : Given stdin put w.stdin w.xfrs w.bytes shmp.cnt →
      put <+: stdin.chunks ∨ put = stdin.chunks ++ [[]] ∧ stdin.fails = false := by
    rintro (⟨before, chunk, hput, -, -, -, hinput⟩ | ⟨hput, hfails, -, -⟩)
    · exact .inl ⟨_, hinput.symm⟩
    · exact .inr ⟨hput, hfails⟩
  cases hpc : w.pc <;> simp only [hpc, WriterOk] at h
  case testEof => exact hgiven h
  case addCnt => exact hgiven h.1
  case storeCnt | checkCnt | releaseSem => exact .inl (hfetched _ h.1)
  case lastReserveSem | removeSems | removeShm | exited => exact .inr ⟨h.1, h.2.1⟩
  case failed => exact .inl (h.1 ▸ List.prefix_refl _)
  all_goals exact .inl ⟨_, h.1.symm⟩

/-- What the reader knows does not depend on the writer, as long as the segment stays as it is. -/
theorem ReaderOk.mono {more : List (List UInt8)} {r : Reader} {shmp shmp' : Segment}
    (h : ReaderOk stdin put got short r shmp) (hput : put <+: more)
    (hshmp : r.pc.HasTurn = true → shmp' = shmp) : ReaderOk stdin more got short r shmp' := by
  cases hpc : r.pc <;> simp only [hpc, ReaderPc.HasTurn, ReaderOk, Bool.false_eq_true, false_implies,
    true_implies] at h hshmp ⊢ <;> try (first | exact h | rw [hshmp]; exact h)
  case failed =>
    rcases h with ⟨hgot, hstdout⟩ | ⟨hshort, hstdout⟩
    · exact .early hgot hstdout
    · refine .short hshort (hstdout.trans ?_)
      obtain ⟨rest, rfl⟩ := hput
      exact ⟨rest.flatten, List.flatten_append.symm⟩

/-- A step of the writer that leaves the reader and its part of the state alone. -/
theorem Inv.writer_moves {more : List (List UInt8)} (hinv : Inv stdin put got short s) (hput : put <+: more)
    (hreader : s'.reader = s.reader) (hfails : s'.writer.stdin.fails = s.writer.stdin.fails)
    (hshmp : s.reader.pc.HasTurn = true → s'.shmp = s.shmp) (hwriter : WriterOk stdin more s'.writer s'.shmp)
    (hturn : Turn more got short s') : Inv stdin more got short s' where
  handed := by rw [hreader]; exact hinv.handed
  fails := hfails.trans hinv.fails
  writer := hwriter
  reader := by rw [hreader]; exact hinv.reader.mono hput hshmp
  turn := hturn

/-- Only in its turn the writer can be writing. -/
theorem Turn.of_hasTurn (h : Turn put got short s) (hpc : s.writer.pc.HasTurn = true) :
    put = got ∧ s.sems = some ⟨0, 0⟩ ∧ s.reader.pc.HasTurn = false := by
  cases h with
  | writing hput hsems _ hreader => exact ⟨hput, hsems, hreader⟩
  | setup _ _ _ _ hwriter => simp [hwriter.outside] at hpc
  | closing _ _ hwriter => simp [hwriter.outside] at hpc
  | unread _ _ hwriter _ => simp [hwriter, WriterPc.HasTurn] at hpc
  | writers _ _ hwriter _ | readers _ _ _ _ hwriter _ | reading _ _ _ _ hwriter _ | unwritten _ _ hwriter _ =>
    simp [WriterPc.between_outside hwriter] at hpc

theorem Turn.of_between (h : Turn put got short s) (hpc : s.writer.pc.Between = true) :
    put = got ∧ s.sems = some ⟨1, 0⟩ ∧ s.reader.pc.HasTurn = false ∨
    (∃ chunk, put = got ++ [chunk] ∧ s.shmp.Holds chunk ∧ s.sems = some ⟨0, 1⟩ ∧ s.reader.pc.HasTurn = false) ∨
    (∃ chunk, put = got ++ [chunk] ∧ s.shmp.Holds chunk ∧ s.sems = some ⟨0, 0⟩ ∧ s.reader.pc.HasTurn = true) ∨
    short ∧ s.sems = some ⟨0, 0⟩ ∧ s.reader.pc = .failed := by
  cases h with
  | writers hput hsems _ hreader => exact .inl ⟨hput, hsems, hreader⟩
  | readers chunk hput hholds hsems _ hreader => exact .inr (.inl ⟨chunk, hput, hholds, hsems, hreader⟩)
  | reading chunk hput hholds hsems _ hreader => exact .inr (.inr (.inl ⟨chunk, hput, hholds, hsems, hreader⟩))
  | unwritten hshort hsems _ hreader => exact .inr (.inr (.inr ⟨hshort, hsems, hreader⟩))
  | setup _ _ _ _ hwriter => simp [hwriter.outside] at hpc
  | closing _ _ hwriter => simp [hwriter.outside] at hpc
  | unread _ _ hwriter _ => simp [hwriter, WriterPc.Between] at hpc
  | writing _ _ hwriter _ => simp [WriterPc.between_outside hpc] at hwriter

/-- While the writer is between two turns, the turn stays whose it is. -/
theorem Turn.between (h : Turn put got short s) (hpc : s.writer.pc.Between = true)
    (hpc' : s'.writer.pc.Between = true) (hsems' : s'.sems = s.sems) (hshmp' : s'.shmp = s.shmp)
    (hreader' : s'.reader = s.reader) : Turn put got short s' := by
  have hcases := h.of_between hpc
  rw [← hsems', ← hshmp', ← hreader'] at hcases
  rcases hcases with h | ⟨chunk, h⟩ | ⟨chunk, h⟩ | h
  · exact .writers h.1 h.2.1 hpc' h.2.2
  · exact .readers chunk h.1 h.2.1 h.2.2.1 hpc' h.2.2.2
  · exact .reading chunk h.1 h.2.1 h.2.2.1 hpc' h.2.2.2
  · exact .unwritten h.1 h.2.1 hpc' h.2.2

/-- Between its turns the writer gets the segment only when the reader has handed it back. -/
theorem Turn.writer_reserves (h : Turn put got short s) (hpc : s.writer.pc.Between = true) :
    ∃ sems, s.sems = some sems ∧ ∀ value, reserveSem sems.WRITE_SEM = some value →
      put = got ∧ sems = ⟨1, 0⟩ ∧ value = 0 ∧ s.reader.pc.HasTurn = false := by
  rcases h.of_between hpc with ⟨hput, hsems, hreader⟩ | ⟨_, -, -, hsems, -⟩ | ⟨_, -, -, hsems, -⟩ | ⟨-, hsems, -⟩
  · exact ⟨_, hsems, fun value hvalue => ⟨hput, rfl, (Option.some.inj hvalue).symm, hreader⟩⟩
  all_goals exact ⟨_, hsems, fun value hvalue => by cases hvalue⟩

theorem Inv.writer_makes (hinv : Inv stdin put got short s) (hmaking : Making s.writer.pc s.sems)
    (h : writer_step s = some s') : Inv stdin put got short s' := by
  have hwriter := hinv.writer
  obtain ⟨sems, shm, shmp, ⟨pc, input, xfrs, bytes⟩, reader⟩ := s
  obtain ⟨hput, hgot, hshm, hreader⟩ : put = [] ∧ got = [] ∧ shm = false ∧
      (reader.pc = .semget ∨ reader.pc = .shmget ∨ reader.pc = .failed) := by
    cases hinv.turn with
    | setup hput hgot hshm hreader _ => exact ⟨hput, hgot, hshm, hreader⟩
    | closing _ _ hwriter => cases hmaking <;> cases hwriter
    | unread _ _ hwriter _ => cases hwriter; cases hmaking
    | writers _ _ hwriter _ | readers _ _ _ _ hwriter _ | reading _ _ _ _ hwriter _ | unwritten _ _ hwriter _ =>
      simp [hmaking.outside] at hwriter
    | writing _ _ hwriter _ => simp [hmaking.outside] at hwriter
  cases hmaking <;> cases h
  case shmget =>
    refine hinv.writer_moves (List.prefix_refl put) rfl rfl (fun _ => rfl) hwriter
      (.writers (hput.trans hgot.symm) rfl rfl ?_)
    change reader.pc.HasTurn = false
    rcases hreader with h | h | h <;> rw [h] <;> rfl
  all_goals
    refine hinv.writer_moves (List.prefix_refl put) rfl rfl (fun _ => rfl) hwriter
      (.setup hput hgot hshm hreader ?_)
    constructor

/-- The turn of the writer begins. -/
theorem Inv.writer_reserves (hinv : Inv stdin put got short s) (hpc : s.writer.pc = .reserveSem)
    (h : writer_step s = some s') : Inv stdin put got short s' := by
  have hwriter := hinv.writer
  obtain ⟨sems, hsems, hreserve⟩ := hinv.turn.writer_reserves (by rw [hpc]; rfl)
  simp only [writer_step, hpc, hsems, Option.map_eq_some_iff] at h
  obtain ⟨value, hvalue, rfl⟩ := h
  obtain ⟨hput, rfl, rfl, hreader⟩ := hreserve value hvalue
  simp only [WriterOk, hpc] at hwriter
  exact hinv.writer_moves (List.prefix_refl put) rfl rfl (fun _ => rfl) hwriter (.writing hput rfl rfl hreader)

/-- In its turn the writer fills the segment. -/
theorem Inv.writer_fills (hinv : Inv stdin put got short s) (hpc : s.writer.pc.HasTurn = true)
    (hnext : s'.writer.pc.HasTurn = true) (hsems : s'.sems = s.sems) (hreader : s'.reader = s.reader)
    (hfails : s'.writer.stdin.fails = s.writer.stdin.fails) (hwriter : WriterOk stdin put s'.writer s'.shmp) :
    Inv stdin put got short s' := by
  obtain ⟨hput, hzero, houtside⟩ := hinv.turn.of_hasTurn hpc
  refine hinv.writer_moves (List.prefix_refl put) hreader hfails (fun hin => ?_) hwriter ?_
  · simp [houtside] at hin
  · exact .writing hput (hsems.trans hzero) hnext (hreader ▸ houtside)

theorem Inv.writer_reads (hinv : Inv stdin put got short s) (hpc : s.writer.pc = .read)
    (h : writer_step s = some s') : Inv stdin put got short s' := by
  have hwriter := hinv.writer
  simp only [writer_step, hpc, Option.some.injEq] at h
  subst h
  have hfails : (s.writer.stdin.read s.shmp.buf).input.fails = s.writer.stdin.fails := by
    unfold Input.read
    split <;> rfl
  refine hinv.writer_fills (by rw [hpc]; rfl) rfl rfl rfl hfails ?_
  simp only [WriterOk, hpc] at hwriter ⊢
  refine ⟨?_, hwriter.2⟩
  cases hchunks : s.writer.stdin.chunks with
  | nil =>
    have hput : stdin.chunks = put := by rw [hwriter.1, hchunks, List.append_nil]
    simp only [Input.read, hchunks, hinv.fails]
    cases hfail : stdin.fails with
    | false => exact .eof rfl hput hfail
    | true => exact .error rfl hput hfail
  | cons chunk rest =>
    refine .chunk chunk ?_ ?_ ?_
    · simp [Input.read, hchunks]
    · simp [Input.read, hchunks]
    · simp [Input.read, hchunks, hwriter.1]

theorem Inv.writer_checks (hinv : Inv stdin put got short s) (hpc : s.writer.pc = .checkCnt)
    (h : writer_step s = some s') : Inv stdin put got short s' := by
  obtain ⟨hfetched, hcounts⟩ : Fetched stdin put s.writer.stdin s.shmp.buf s.shmp.cnt ∧
      Counts s.writer.xfrs s.writer.bytes put := by
    simpa only [WriterOk, hpc] using hinv.writer
  obtain ⟨hput, hsems, hreader⟩ := hinv.turn.of_hasTurn (by rw [hpc]; rfl)
  simp only [writer_step, hpc, Option.some.injEq] at h
  subst h
  by_cases hcnt : s.shmp.cnt = -1
  · rw [if_pos hcnt]
    have hend : stdin.chunks = put ∧ stdin.fails = true := by
      rcases hfetched with ⟨chunk, hnr, -, -⟩ | ⟨hnr, -, -⟩ | ⟨-, hinput, hfails⟩
      · omega
      · omega
      · exact ⟨hinput, hfails⟩
    exact hinv.writer_moves (List.prefix_refl put) rfl rfl (fun _ => rfl) hend (.unread hput hsems rfl hreader)
  · rw [if_neg hcnt]
    exact hinv.writer_fills (by rw [hpc]; rfl) rfl rfl rfl rfl ⟨hfetched, hcnt, hcounts⟩

/-- The turn of the reader begins. -/
theorem Inv.writer_releases (hinv : Inv stdin put got short s) (hdelivers : Delivers stdin)
    (hpc : s.writer.pc = .releaseSem) (h : writer_step s = some s') :
    ∃ more, Inv stdin more got short s' := by
  obtain ⟨hfetched, hcnt, hcounts⟩ : Fetched stdin put s.writer.stdin s.shmp.buf s.shmp.cnt ∧
      s.shmp.cnt ≠ -1 ∧ Counts s.writer.xfrs s.writer.bytes put := by
    simpa only [WriterOk, hpc] using hinv.writer
  obtain ⟨hput, hsems, hreader⟩ := hinv.turn.of_hasTurn (by rw [hpc]; rfl)
  simp only [writer_step, hpc, hsems, releaseSem, SEMVMX, Nat.zero_lt_succ, if_true, Option.some.injEq] at h
  subst h
  -- the end of file goes to the reader as an empty chunk
  obtain ⟨chunk, hholds, hgiven⟩ : ∃ chunk, s.shmp.Holds chunk ∧
      Given stdin (put ++ [chunk]) s.writer.stdin s.writer.xfrs s.writer.bytes s.shmp.cnt := by
    rcases hfetched with ⟨chunk, hnr, hbuf, hinput⟩ | ⟨hnr, hinput, hfails⟩ | ⟨hnr, -, -⟩
    · have hmem : chunk ∈ stdin.chunks := by simp [hinput]
      have hne : chunk ≠ [] := List.length_pos_iff.mp (hdelivers chunk hmem).1
      exact ⟨chunk, ⟨hnr, hbuf⟩, .chunk put chunk rfl hne hnr hcounts (by simp [hinput])⟩
    · exact ⟨[], ⟨hnr, rfl⟩, .eof (by rw [hinput]) hfails hnr (hinput ▸ hcounts)⟩
    · exact absurd hnr hcnt
  refine ⟨put ++ [chunk], hinv.writer_moves (List.prefix_append put [chunk]) rfl rfl (fun _ => rfl) hgiven ?_⟩
  exact .readers chunk (by rw [hput]) hholds rfl rfl hreader

/-- Between its turns the writer looks at the segment, which the reader does not change. -/
theorem Inv.writer_rests (hinv : Inv stdin put got short s) (hpc : s.writer.pc.Between = true)
    (hnext : s'.writer.pc.Between = true) (hsems : s'.sems = s.sems) (hshmp : s'.shmp = s.shmp)
    (hreader : s'.reader = s.reader) (hfails : s'.writer.stdin.fails = s.writer.stdin.fails)
    (hwriter : WriterOk stdin put s'.writer s'.shmp) : Inv stdin put got short s' :=
  hinv.writer_moves (List.prefix_refl put) hreader hfails (fun _ => hshmp) hwriter
    (hinv.turn.between hpc hnext hsems hshmp hreader)

theorem Inv.writer_tests (hinv : Inv stdin put got short s) (hpc : s.writer.pc = .testEof)
    (h : writer_step s = some s') : Inv stdin put got short s' := by
  have hgiven : Given stdin put s.writer.stdin s.writer.xfrs s.writer.bytes s.shmp.cnt := by
    simpa only [WriterOk, hpc] using hinv.writer
  simp only [writer_step, hpc, Option.some.injEq] at h
  subst h
  by_cases hcnt : s.shmp.cnt = 0
  · rw [if_pos hcnt]
    have hend : put = stdin.chunks ++ [[]] ∧ stdin.fails = false ∧
        Counts s.writer.xfrs s.writer.bytes stdin.chunks := by
      rcases hgiven with ⟨before, chunk, -, hne, hlen, -, -⟩ | ⟨hput, hfails, -, hcounts⟩
      · have hpos := List.length_pos_iff.mpr hne
        omega
      · exact ⟨hput, hfails, hcounts⟩
    exact hinv.writer_rests (by rw [hpc]; rfl) rfl rfl rfl rfl rfl hend
  · rw [if_neg hcnt]
    exact hinv.writer_rests (by rw [hpc]; rfl) rfl rfl rfl rfl rfl ⟨hgiven, hcnt⟩

theorem Inv.writer_counts (hinv : Inv stdin put got short s) (hpc : s.writer.pc = .addCnt)
    (h : writer_step s = some s') : Inv stdin put got short s' := by
  obtain ⟨hgiven, hcnt⟩ : Given stdin put s.writer.stdin s.writer.xfrs s.writer.bytes s.shmp.cnt ∧
      s.shmp.cnt ≠ 0 := by
    simpa only [WriterOk, hpc] using hinv.writer
  simp only [writer_step, hpc, Option.some.injEq] at h
  subst h
  refine hinv.writer_rests (by rw [hpc]; rfl) rfl rfl rfl rfl rfl ?_
  rcases hgiven with ⟨before, chunk, rfl, -, hlen, hcounts, hinput⟩ | ⟨-, -, hzero, -⟩
  · refine ⟨hinput, ?_⟩
    change Counts (int_add s.writer.xfrs 1) (int_add s.writer.bytes s.shmp.cnt) (before ++ [chunk])
    rw [hlen]
    exact hcounts.snoc
  · exact absurd hzero hcnt

/-- When the writer gets the segment back at the end, the reader has exited. -/
theorem Inv.writer_closes (hinv : Inv stdin put got short s) (hpc : s.writer.pc = .lastReserveSem)
    (h : writer_step s = some s') : Inv stdin put got short s' := by
  have hwriter := hinv.writer
  obtain ⟨sems, hsems, hreserve⟩ := hinv.turn.writer_reserves (by rw [hpc]; rfl)
  simp only [writer_step, hpc, hsems, Option.map_eq_some_iff] at h
  obtain ⟨value, hvalue, rfl⟩ := h
  obtain ⟨hput, rfl, rfl, -⟩ := hreserve value hvalue
  simp only [WriterOk, hpc] at hwriter
  have hexited : s.reader.pc = .exited := by
    rcases hinv.handed with hexited | hgot
    · exact hexited
    · have hlen := hgot.length_le
      rw [← hput, hwriter.1, List.length_append, List.length_singleton] at hlen
      omega
  exact hinv.writer_moves (List.prefix_refl put) rfl rfl (fun _ => rfl) hwriter (.closing hput hexited .removeSems)

theorem Inv.writer_removes (hinv : Inv stdin put got short s) (hremoving : Removing s.writer.pc s.sems s.shm)
    (h : writer_step s = some s') : Inv stdin put got short s' := by
  have hwriter := hinv.writer
  obtain ⟨sems, shm, shmp, ⟨pc, input, xfrs, bytes⟩, reader⟩ := s
  obtain ⟨hput, hreader⟩ : put = got ∧ reader.pc = .exited := by
    cases hinv.turn with
    | closing hput hreader _ => exact ⟨hput, hreader⟩
    | setup _ _ _ _ hwriter => cases hremoving <;> cases hwriter
    | unread _ _ hwriter _ => cases hwriter; cases hremoving
    | writers _ _ hwriter _ | readers _ _ _ _ hwriter _ | reading _ _ _ _ hwriter _ | unwritten _ _ hwriter _ =>
      simp [hremoving.outside] at hwriter
    | writing _ _ hwriter _ => simp [hremoving.outside] at hwriter
  cases hremoving <;> cases h
  all_goals
    refine hinv.writer_moves (List.prefix_refl put) rfl rfl (fun _ => rfl) hwriter (.closing hput hreader ?_)
    constructor

/-- The writer keeps the invariant. -/
theorem Inv.writer_step (hinv : Inv stdin put got short s) (hdelivers : Delivers stdin)
    (h : writer_step s = some s') : ∃ more, Inv stdin more got short s' := by
  have hmaking : s.writer.pc.Between = false → s.writer.pc.HasTurn = false → s.writer.pc ≠ .failed →
      Making s.writer.pc s.sems ∨ Removing s.writer.pc s.sems s.shm := by
    intro hbetween hin hfailed
    cases hinv.turn with
    | setup _ _ _ _ hwriter => exact .inl hwriter
    | closing _ _ hwriter => exact .inr hwriter
    | unread _ _ hwriter _ => exact absurd hwriter hfailed
    | writers _ _ hwriter _ | readers _ _ _ _ hwriter _ | reading _ _ _ _ hwriter _ | unwritten _ _ hwriter _ =>
      simp [hbetween] at hwriter
    | writing _ _ hwriter _ => simp [hin] at hwriter
  cases hpc : s.writer.pc with
  | reserveSem => exact ⟨put, hinv.writer_reserves hpc h⟩
  | read => exact ⟨put, hinv.writer_reads hpc h⟩
  | storeCnt nr =>
    have hwriter := hinv.writer
    simp only [svshm.writer_step, hpc, Option.some.injEq] at h
    subst h
    simp only [WriterOk, hpc] at hwriter
    exact ⟨put, hinv.writer_fills (by rw [hpc]; rfl) rfl rfl rfl rfl hwriter⟩
  | checkCnt => exact ⟨put, hinv.writer_checks hpc h⟩
  | releaseSem => exact hinv.writer_releases hdelivers hpc h
  | testEof => exact ⟨put, hinv.writer_tests hpc h⟩
  | addCnt => exact ⟨put, hinv.writer_counts hpc h⟩
  | lastReserveSem => exact ⟨put, hinv.writer_closes hpc h⟩
  | failed => simp [svshm.writer_step, hpc] at h
  | semget | initSemAvailable | initSemInUse | shmget | removeSems | removeShm | exited =>
    refine ⟨put, ?_⟩
    rcases hmaking (by rw [hpc]; rfl) (by rw [hpc]; rfl) (by rw [hpc]; decide) with hm | hm
    · exact hinv.writer_makes hm h
    · exact hinv.writer_removes hm h

end Writer

section Reader

variable {stdin : Input} {put got : List (List UInt8)} {short : Prop} {s s' : System}

/-- In its turn the reader has the last chunk before it. -/
theorem Turn.of_reading (h : Turn put got short s) (hpc : s.reader.pc.HasTurn = true) :
    ∃ chunk, put = got ++ [chunk] ∧ s.shmp.Holds chunk ∧ s.sems = some ⟨0, 0⟩ ∧ s.writer.pc.Between = true := by
  cases h with
  | reading chunk hput hholds hsems hwriter _ => exact ⟨chunk, hput, hholds, hsems, hwriter⟩
  | setup _ _ _ hreader _ => rcases hreader with h | h | h <;> simp [h, ReaderPc.HasTurn] at hpc
  | closing _ hreader _ | unwritten _ _ _ hreader => simp [hreader, ReaderPc.HasTurn] at hpc
  | writers _ _ _ hreader | writing _ _ _ hreader | readers _ _ _ _ _ hreader | unread _ _ _ hreader =>
    simp [hreader] at hpc

/-- The reader looks for the IPC objects. -/
theorem Inv.reader_starts (hinv : Inv stdin put got short s) {pc : ReaderPc}
    (hpc : s.reader.pc = .semget ∨ s.reader.pc = .shmget)
    (hnext : pc = .shmget ∨ pc = .reserveSem ∧ s.shm = true ∨ pc = .failed) :
    Inv stdin put got short (s.reader_at pc) := by
  obtain ⟨hgot, hstdout, hcounts⟩ : got = [] ∧ s.reader.stdout = [] ∧ Counts s.reader.xfrs s.reader.bytes got := by
    have hreader := hinv.reader
    rcases hpc with h | h <;> simpa only [ReaderOk, h] using hreader
  have houtside : pc.HasTurn = false := by
    rcases hnext with rfl | ⟨rfl, -⟩ | rfl <;> rfl
  refine ⟨.inr ?_, hinv.fails, hinv.writer, ?_, ?_⟩
  · rw [hgot]
    exact List.nil_prefix
  · rcases hnext with rfl | ⟨rfl, -⟩ | rfl
    · exact ⟨hgot, hstdout, hcounts⟩
    · refine ⟨?_, hcounts⟩
      rw [hgot]
      exact hstdout
    · exact .early hgot hstdout
  · cases hinv.turn with
    | setup hput hgot hshm _ hwriter =>
      refine .setup hput hgot hshm ?_ hwriter
      rcases hnext with rfl | ⟨-, htrue⟩ | rfl
      · exact .inr (.inl rfl)
      · simp [hshm] at htrue
      · exact .inr (.inr rfl)
    | writers hput hsems hwriter _ => exact .writers hput hsems hwriter houtside
    | writing hput hsems hwriter _ => exact .writing hput hsems hwriter houtside
    | readers chunk hput hholds hsems hwriter _ => exact .readers chunk hput hholds hsems hwriter houtside
    | unread hput hsems hwriter _ => exact .unread hput hsems hwriter houtside
    | reading _ _ _ _ _ hreader => rcases hpc with h | h <;> simp [h, ReaderPc.HasTurn] at hreader
    | closing _ hreader _ | unwritten _ _ _ hreader => rcases hpc with h | h <;> simp [h] at hreader

/-- The turn of the reader begins. -/
theorem Inv.reader_reserves (hinv : Inv stdin put got short s) (hpc : s.reader.pc = .reserveSem)
    (h : reader_step s = some s') : Inv stdin put got short s' := by
  have hreader := hinv.reader
  have hhanded : got <+: stdin.chunks := hinv.handed.resolve_left (by rw [hpc]; decide)
  -- the semaphore is only up in the turn of the reader
  have hblocked : ∀ sems, s.sems = some sems → sems.READ_SEM = 0 → False := by
    intro sems hsems hzero
    simp [reader_step, hpc, hsems, reserveSem, hzero] at h
  cases hinv.turn with
  | readers chunk hput hholds hsems hwriter _ =>
    simp only [reader_step, hpc, hsems, reserveSem, Nat.zero_lt_one, if_true, Option.map_some,
      Option.some.injEq] at h
    subst h
    simp only [ReaderOk, hpc] at hreader
    exact ⟨.inr hhanded, hinv.fails, hinv.writer, hreader, .reading chunk hput hholds rfl hwriter rfl⟩
  | setup _ _ _ hreader _ => rcases hreader with h | h | h <;> simp [hpc] at h
  | closing _ hreader _ | unwritten _ _ _ hreader => simp [hpc] at hreader
  | writers _ hsems _ _ | writing _ hsems _ _ | reading _ _ _ hsems _ _ | unread _ hsems _ _ =>
    exact (hblocked _ hsems rfl).elim

/-- In its turn the reader goes on. -/
theorem Inv.reader_reads (hinv : Inv stdin put got short s) (hpc : s.reader.pc.HasTurn = true)
    (hnext : s'.reader.pc.HasTurn = true) (hsems : s'.sems = s.sems) (hshmp : s'.shmp = s.shmp)
    (hwriter : s'.writer = s.writer) (hreader : ReaderOk stdin put got short s'.reader s'.shmp) :
    Inv stdin put got short s' := by
  obtain ⟨chunk, hput, hholds, hzero, hbetween⟩ := hinv.turn.of_reading hpc
  have hhanded : got <+: stdin.chunks := hinv.handed.resolve_left fun h => by simp [h, ReaderPc.HasTurn] at hpc
  refine ⟨.inr hhanded, ?_, ?_, hreader, ?_⟩
  · rw [hwriter]
    exact hinv.fails
  · rw [hwriter, hshmp]
    exact hinv.writer
  · rw [← hshmp] at hholds
    rw [← hwriter] at hbetween
    exact .reading chunk hput hholds (hsems.trans hzero) hbetween hnext

theorem Inv.reader_tests (hinv : Inv stdin put got short s) (hpc : s.reader.pc = .testEof)
    (h : reader_step s = some s') : Inv stdin put got short s' := by
  have hreader := hinv.reader
  simp only [ReaderOk, hpc] at hreader
  simp only [reader_step, hpc, Option.some.injEq] at h
  subst h
  by_cases hcnt : s.shmp.cnt = 0
  · rw [if_pos hcnt]
    exact hinv.reader_reads (by rw [hpc]; rfl) rfl rfl rfl rfl ⟨hreader.1, hreader.2, hcnt⟩
  · rw [if_neg hcnt]
    exact hinv.reader_reads (by rw [hpc]; rfl) rfl rfl rfl rfl ⟨hreader.1, hreader.2, hcnt⟩

theorem Inv.reader_counts (hinv : Inv stdin put got short s) (hpc : s.reader.pc = .addCnt)
    (h : reader_step s = some s') : Inv stdin put got short s' := by
  have hreader := hinv.reader
  simp only [ReaderOk, hpc] at hreader
  simp only [reader_step, hpc, Option.some.injEq] at h
  subst h
  refine hinv.reader_reads (by rw [hpc]; rfl) rfl rfl rfl rfl ?_
  refine ⟨hreader.1, hreader.2.2, hreader.2.1.1, ?_⟩
  change int_add s.reader.bytes s.shmp.cnt = _
  rw [hreader.2.1.2]

theorem Inv.reader_writes (hinv : Inv stdin put got short s) (hpc : s.reader.pc = .write)
    (h : reader_step s = some s') : Inv stdin put got short s' := by
  have hreader := hinv.reader
  simp only [ReaderOk, hpc] at hreader
  simp only [reader_step, hpc, Option.some.injEq] at h
  subst h
  refine hinv.reader_reads (by rw [hpc]; rfl) rfl rfl rfl rfl ⟨?_, hreader.2⟩
  change s.reader.stdout ++ _ = _
  rw [hreader.1]

/-- The reader hands a chunk back, and the turn of the writer begins. -/
theorem Inv.reader_releases (hinv : Inv stdin put got short s) (hpc : s.reader.pc = .releaseSem)
    (h : reader_step s = some s') : ∃ back, Inv stdin put back short s' := by
  have hreader := hinv.reader
  simp only [ReaderOk, hpc] at hreader
  obtain ⟨hstdout, hcnt, hxfrs, hbytes⟩ := hreader
  obtain ⟨chunk, hput, hholds, hsems, hwriter⟩ := hinv.turn.of_reading (by rw [hpc]; rfl)
  simp only [reader_step, hpc, hsems, releaseSem, SEMVMX, Nat.zero_lt_succ, if_true, Option.some.injEq] at h
  subst h
  have hsent : got ++ [chunk] <+: stdin.chunks := by
    rcases hinv.writer.sent with h | ⟨h, -⟩
    · rwa [← hput]
    · -- the chunk is not empty, so it is not the last one
      have hlast : chunk = [] := (List.append_inj' (hput.symm.trans h) rfl).2 |> List.singleton_inj.mp
      rw [hholds.1, hlast] at hcnt
      exact absurd rfl hcnt
  have hcounts : Counts (int_add s.reader.xfrs 1) s.reader.bytes (got ++ [chunk]) := by
    rw [hxfrs, hbytes, hholds.1]
    exact Counts.snoc ⟨rfl, rfl⟩
  refine ⟨got ++ [chunk], .inr hsent, hinv.fails, hinv.writer, ⟨?_, hcounts⟩, .writers hput rfl hwriter rfl⟩
  change s.reader.stdout = _
  rw [hstdout, hholds.1, Int.toNat_natCast, hholds.2, List.flatten_append, List.flatten_singleton]

/-- The last turn goes to the writer when everything has been written. -/
theorem Inv.reader_exits (hinv : Inv stdin put got short s) (hdelivers : Delivers stdin)
    (hpc : s.reader.pc = .lastReleaseSem) (h : reader_step s = some s') :
    ∃ back, Inv stdin put back short s' := by
  have hreader := hinv.reader
  simp only [ReaderOk, hpc] at hreader
  obtain ⟨hstdout, hcounts, hcnt⟩ := hreader
  obtain ⟨chunk, hput, hholds, hsems, hwriter⟩ := hinv.turn.of_reading (by rw [hpc]; rfl)
  simp only [reader_step, hpc, hsems, releaseSem, SEMVMX, Nat.zero_lt_succ, if_true, Option.some.injEq] at h
  subst h
  have hempty : chunk = [] := by
    rw [hholds.1] at hcnt
    exact List.length_eq_zero_iff.mp (by omega)
  subst hempty
  have hall : put = stdin.chunks ++ [[]] ∧ stdin.fails = false := by
    rcases hinv.writer.sent with h | h
    · have hmem : [] ∈ stdin.chunks := h.subset (by simp [hput])
      exact absurd (hdelivers [] hmem).1 (by simp)
    · exact h
  have hgot : got = stdin.chunks := List.append_cancel_right (hput.symm.trans hall.1)
  refine ⟨put, .inl rfl, hinv.fails, hinv.writer, ⟨hall.1, hall.2, ?_, ?_⟩, .writers rfl rfl hwriter rfl⟩
  · change s.reader.stdout = _
    rw [hstdout, hgot, Input.content]
  · rw [← hgot]
    exact hcounts

/-- The reader keeps the invariant. -/
theorem Inv.reader_step (hinv : Inv stdin put got short s) (hdelivers : Delivers stdin)
    (h : reader_step s = some s') : ∃ back, Inv stdin put back short s' := by
  cases hpc : s.reader.pc with
  | semget =>
    simp only [svshm.reader_step, hpc, Option.some.injEq] at h
    subst h
    refine ⟨got, hinv.reader_starts (.inl hpc) ?_⟩
    split
    · exact .inl rfl
    · exact .inr (.inr rfl)
  | shmget =>
    simp only [svshm.reader_step, hpc, Option.some.injEq] at h
    subst h
    refine ⟨got, hinv.reader_starts (.inr hpc) ?_⟩
    split
    · next hshm => exact .inr (.inl ⟨rfl, hshm⟩)
    · exact .inr (.inr rfl)
  | reserveSem => exact ⟨got, hinv.reader_reserves hpc h⟩
  | testEof => exact ⟨got, hinv.reader_tests hpc h⟩
  | addCnt => exact ⟨got, hinv.reader_counts hpc h⟩
  | write => exact ⟨got, hinv.reader_writes hpc h⟩
  | releaseSem => exact hinv.reader_releases hpc h
  | shmdt =>
    have hreader := hinv.reader
    simp only [svshm.reader_step, hpc, Option.some.injEq] at h
    subst h
    simp only [ReaderOk, hpc] at hreader
    exact ⟨got, hinv.reader_reads (by rw [hpc]; rfl) rfl rfl rfl rfl hreader⟩
  | lastReleaseSem => exact hinv.reader_exits hdelivers hpc h
  | exited => simp [svshm.reader_step, hpc] at h
  | failed => simp [svshm.reader_step, hpc] at h

/-- In the turn of the reader the writer leaves the segment as it is. -/
theorem Inv.segment_kept (hinv : Inv stdin put got short s) (hpc : s.reader.pc.HasTurn = true)
    (h : svshm.writer_step s = some s') : s'.shmp = s.shmp := by
  obtain ⟨chunk, -, -, hsems, hwriter⟩ := hinv.turn.of_reading hpc
  cases hw : s.writer.pc <;> simp only [hw, WriterPc.Between, Bool.false_eq_true] at hwriter
  case testEof | addCnt =>
    simp only [svshm.writer_step, hw, Option.some.injEq] at h
    exact h ▸ rfl
  case reserveSem | lastReserveSem => simp [svshm.writer_step, hw, hsems, reserveSem] at h

/-- What the reader has not found. -/
def Missing (s : System) : Prop := s.reader.pc = .semget ∧ s.sems = none ∨ s.reader.pc = .shmget ∧ s.shm = false

theorem Turn.of_reserving (h : Turn put got short s) (hpc : s.reader.pc = .reserveSem) : s.sems ≠ none := by
  intro hnone
  cases h with
  | setup _ _ _ hreader _ => rcases hreader with h | h | h <;> simp [hpc] at h
  | closing _ hreader _ | unwritten _ _ _ hreader => simp [hpc] at hreader
  | writers _ hsems _ _ | writing _ hsems _ _ | reading _ _ _ hsems _ _ | readers _ _ _ hsems _ _
  | unread _ hsems _ _ =>
    simp [hnone] at hsems

/-- The reader's own steps fail when it does not find the IPC objects. -/
theorem Inv.reader_misses (hinv : Inv stdin put got short s) (h : svshm.reader_step s = some s')
    (hpc' : s'.reader.pc = .failed) : Missing s := by
  have hmiddle : s.reader.pc.HasTurn = true → s.sems = some ⟨0, 0⟩ := fun hpc => by
    obtain ⟨-, -, -, hsems, -⟩ := hinv.turn.of_reading hpc
    exact hsems
  cases hpc : s.reader.pc <;> simp only [svshm.reader_step, hpc, Option.some.injEq, reduceCtorEq] at h
  case semget =>
    subst h
    cases hsems : s.sems with
    | none => exact .inl ⟨hpc, hsems⟩
    | some sems => simp [hsems, System.reader_at] at hpc'
  case shmget =>
    subst h
    cases hshm : s.shm with
    | false => exact .inr ⟨hpc, hshm⟩
    | true => simp [hshm, System.reader_at] at hpc'
  case reserveSem =>
    obtain ⟨sems, hsems⟩ := Option.ne_none_iff_exists'.mp (hinv.turn.of_reserving hpc)
    simp only [hsems, Option.map_eq_some_iff] at h
    obtain ⟨value, -, rfl⟩ := h
    cases hpc'
  case testEof =>
    subst h
    simp only [System.reader_at] at hpc'
    split at hpc' <;> cases hpc'
  case releaseSem | lastReleaseSem =>
    simp only [hmiddle (by rw [hpc]; rfl), releaseSem, SEMVMX, Nat.zero_lt_succ, if_true, Option.some.injEq] at h
    subst h
    cases hpc'
  all_goals
    subst h
    cases hpc'

theorem writer_step_reader (h : svshm.writer_step s = some s') : s'.reader = s.reader := by
  unfold svshm.writer_step at h
  split at h
  case h_5 | h_12 =>
    obtain ⟨value, -, rfl⟩ := Option.map_eq_some_iff.mp h
    rfl
  case h_9 => split at h <;> cases h <;> rfl
  all_goals cases h <;> rfl

/-- The reader fails when it does not find the IPC objects, or by a short write. -/
theorem Inv.reader_fails {a : Action} (hinv : Inv stdin put got short s) (hpc : s.reader.pc ≠ .failed)
    (h : step s a = some s') (hpc' : s'.reader.pc = .failed) :
    a = .reader ∧ Missing s ∨ ∃ accepted, a = .shortWrite accepted := by
  cases a with
  | writer =>
    rw [writer_step_reader h] at hpc'
    exact absurd hpc' hpc
  | reader => exact .inl ⟨rfl, hinv.reader_misses h hpc'⟩
  | writerInterrupted | readerInterrupted =>
    simp only [step, bsRetryOnEintr, if_true, Option.ite_none_right_eq_some, Option.some.injEq] at h
    rw [← h.2] at hpc'
    exact absurd hpc' hpc
  | shortWrite accepted => exact .inr ⟨accepted, rfl⟩

/-- The reader ends in the middle of a chunk. -/
theorem Inv.short_write (hinv : Inv stdin put got short s) (hshort : short) {accepted : Nat}
    (h : step s (.shortWrite accepted) = some s') : Inv stdin put got short s' := by
  have hreader := hinv.reader
  simp only [step] at h
  split at h
  case isFalse => cases h
  case isTrue hpc =>
    cases h
    simp only [ReaderOk, hpc.1] at hreader
    have hhanded : got <+: stdin.chunks := hinv.handed.resolve_left (by rw [hpc.1]; decide)
    obtain ⟨chunk, hput, hholds, hsems, hwriter⟩ := hinv.turn.of_reading (by rw [hpc.1]; rfl)
    refine ⟨.inr hhanded, hinv.fails, hinv.writer, .short hshort ?_, .unwritten hshort hsems hwriter rfl⟩
    have hle : accepted ≤ chunk.length := by
      have hlt := hpc.2
      rw [hholds.1] at hlt
      omega
    change s.reader.stdout ++ s.shmp.buf.take accepted <+: put.flatten
    rw [hreader.1, hput, List.flatten_append, List.flatten_singleton, List.prefix_append_right_inj]
    rw [← hholds.2]
    exact List.take_prefix_take_left hle

end Reader

end tlpi.svshm
