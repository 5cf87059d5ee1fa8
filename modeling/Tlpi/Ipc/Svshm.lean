import Tlpi.Io.Input
import Tlpi.Lib.Interleave

namespace tlpi.svshm

/-- The size of the transfer buffer. -/
def BUF_SIZE : Nat := 1024

/-- The largest value of a semaphore. -/
def SEMVMX : Nat := 32767

/-- An interrupted `semop` of `reserveSem` is called again. -/
def bsRetryOnEintr : Bool := true

/-- `reserveSem` on a semaphore with this value. It blocks as long as the value is 0. -/
def reserveSem (value : Nat) : Option Nat := if 0 < value then some (value - 1) else none

/-- `releaseSem` on a semaphore with this value. It fails with `ERANGE` at the largest value. -/
def releaseSem (value : Nat) : Except Errno Nat :=
  if value < SEMVMX then .ok (value + 1) else .error (.other 34)

/-- The set of two semaphores. -/
structure Sems where
  WRITE_SEM : Nat
  READ_SEM : Nat
deriving DecidableEq

/-- `struct shmseg`. -/
structure Segment where
  cnt : Int
  buf : List UInt8
deriving DecidableEq

/-- Where the writer is: before the named call, or before one of its accesses to the segment. -/
inductive WriterPc where
  | semget
  | initSemAvailable
  | initSemInUse
  | shmget
  | reserveSem
  | read
  | storeCnt (nr : Int)
  | checkCnt
  | releaseSem
  | testEof
  | addCnt
  | lastReserveSem
  | removeSems
  | removeShm
  | exited
  | failed
deriving DecidableEq

inductive ReaderPc where
  | semget
  | shmget
  | reserveSem
  | testEof
  | addCnt
  | write
  | releaseSem
  | shmdt
  | lastReleaseSem
  | exited
  | failed
deriving DecidableEq

structure Writer where
  pc : WriterPc
  stdin : Input
  xfrs : Int
  bytes : Int
deriving DecidableEq

structure Reader where
  pc : ReaderPc
  stdout : List UInt8
  xfrs : Int
  bytes : Int
deriving DecidableEq

/-- The IPC objects as far as they exist, the memory of the segment, which stays there while it
    is attached, and the two processes. -/
structure System where
  sems : Option Sems
  shm : Bool
  shmp : Segment
  writer : Writer
  reader : Reader
deriving DecidableEq

namespace System

def writer_at (s : System) (pc : WriterPc) : System := { s with writer := { s.writer with pc } }

def reader_at (s : System) (pc : ReaderPc) : System := { s with reader := { s.reader with pc } }

def set_sems (s : System) (sems : Sems) : System := { s with sems := some sems }

end System

/-- The writer's next call or access, up to the one after it. There is none while it is blocked
    and after its end. -/
def writer_step (s : System) : Option System :=
  match s.writer.pc, s.sems with
  | .semget, sems => some ((s.set_sems (sems.getD ⟨0, 0⟩)).writer_at .initSemAvailable)
  | .initSemAvailable, some sems => some ((s.set_sems { sems with WRITE_SEM := 1 }).writer_at .initSemInUse)
  | .initSemInUse, some sems => some ((s.set_sems { sems with READ_SEM := 0 }).writer_at .shmget)
  | .shmget, _ => some ({ s with shm := true }.writer_at .reserveSem)
  | .reserveSem, some sems =>
    (reserveSem sems.WRITE_SEM).map fun value => (s.set_sems { sems with WRITE_SEM := value }).writer_at .read
  | .read, _ =>
    let reply := s.writer.stdin.read s.shmp.buf
    some { s with
      shmp := { s.shmp with buf := reply.buff }
      writer := { s.writer with pc := .storeCnt reply.nr_bytes, stdin := reply.input } }
  | .storeCnt nr, _ => some ({ s with shmp := { s.shmp with cnt := nr } }.writer_at .checkCnt)
  | .checkCnt, _ => some (s.writer_at (if s.shmp.cnt = -1 then .failed else .releaseSem))
  | .releaseSem, some sems =>
    match releaseSem sems.READ_SEM with
    | .ok value => some ((s.set_sems { sems with READ_SEM := value }).writer_at .testEof)
    | .error _ => some (s.writer_at .failed)
  -- the segment is read again after the reader has got its turn
  | .testEof, _ => some (s.writer_at (if s.shmp.cnt = 0 then .lastReserveSem else .addCnt))
  | .addCnt, _ =>
    some { s with writer := { s.writer with
      pc := .reserveSem
      xfrs := int_add s.writer.xfrs 1
      bytes := int_add s.writer.bytes s.shmp.cnt } }
  | .lastReserveSem, some sems =>
    (reserveSem sems.WRITE_SEM).map fun value =>
      (s.set_sems { sems with WRITE_SEM := value }).writer_at .removeSems
  | .removeSems, some _ => some ({ s with sems := none }.writer_at .removeShm)
  | .removeShm, _ => some ({ s with shm := false }.writer_at .exited)
  | .exited, _ => none
  | .failed, _ => none
  -- a call on semaphores that do not exist
  | _, none => some (s.writer_at .failed)

/-- The reader's next call or access. -/
def reader_step (s : System) : Option System :=
  match s.reader.pc, s.sems with
  | .semget, sems => some (s.reader_at (if sems.isSome then .shmget else .failed))
  | .shmget, _ => some (s.reader_at (if s.shm then .reserveSem else .failed))
  | .reserveSem, some sems =>
    (reserveSem sems.READ_SEM).map fun value =>
      (s.set_sems { sems with READ_SEM := value }).reader_at .testEof
  | .testEof, _ => some (s.reader_at (if s.shmp.cnt = 0 then .shmdt else .addCnt))
  | .addCnt, _ =>
    some { s with reader := { s.reader with pc := .write, bytes := int_add s.reader.bytes s.shmp.cnt } }
  | .write, _ =>
    some { s with reader := { s.reader with
      pc := .releaseSem
      stdout := s.reader.stdout ++ s.shmp.buf.take s.shmp.cnt.toNat } }
  | .releaseSem, some sems =>
    match releaseSem sems.WRITE_SEM with
    | .ok value =>
      some { s.set_sems { sems with WRITE_SEM := value } with
        reader := { s.reader with pc := .reserveSem, xfrs := int_add s.reader.xfrs 1 } }
    | .error _ => some (s.reader_at .failed)
  | .shmdt, _ => some (s.reader_at .lastReleaseSem)
  | .lastReleaseSem, some sems =>
    match releaseSem sems.WRITE_SEM with
    | .ok value => some ((s.set_sems { sems with WRITE_SEM := value }).reader_at .exited)
    | .error _ => some (s.reader_at .failed)
  | .exited, _ => none
  | .failed, _ => none
  | _, none => some (s.reader_at .failed)

/-- What can happen: a party goes on, a signal interrupts its waiting, or the reader's `write`
    takes fewer bytes than it is given, which ends the reader. -/
inductive Action where
  | writer
  | reader
  | writerInterrupted
  | readerInterrupted
  | shortWrite (accepted : Nat)
deriving DecidableEq

def step (s : System) : Action → Option System
  | .writer => writer_step s
  | .reader => reader_step s
  | .writerInterrupted =>
    if s.writer.pc = .reserveSem ∨ s.writer.pc = .lastReserveSem then
      some (if bsRetryOnEintr then s else s.writer_at .failed)
    else none
  | .readerInterrupted =>
    if s.reader.pc = .reserveSem then some (if bsRetryOnEintr then s else s.reader_at .failed) else none
  | .shortWrite accepted =>
    if s.reader.pc = .write ∧ accepted < s.shmp.cnt then
      some { s with reader := { s.reader with
        pc := .failed
        stdout := s.reader.stdout ++ s.shmp.buf.take accepted } }
    else none

/-- Both programs are started, none of the IPC objects exists. -/
def start (stdin : Input) (shmp : Segment) : System where
  sems := none
  shm := false
  shmp := shmp
  writer := ⟨.semget, stdin, 0, 0⟩
  reader := ⟨.semget, [], 0, 0⟩

/-- What the calls of `read` return: at least one byte and at most a buffer full, and at the end
    no byte or an error. -/
def Delivers (stdin : Input) : Prop :=
  ∀ chunk ∈ stdin.chunks, 1 ≤ chunk.length ∧ chunk.length ≤ BUF_SIZE

instance (stdin : Input) : Decidable (Delivers stdin) :=
  inferInstanceAs (Decidable (∀ chunk ∈ stdin.chunks, _ ∧ _))

end tlpi.svshm
