import Mathlib.Algebra.Order.Ring.Int
import Tlpi.Lib.Interleave
import Tlpi.Lib.Threads
import Tlpi.Machine

namespace tlpi.prod_condvar

/-- Where a producer is: before the named call, or before one of its accesses to `avail`. -/
inductive ProducerPc where
  | test
  | lock
  | load
  | store (value : Int)
  | unlock
  | signal
  | exited
deriving DecidableEq

structure Producer where
  pc : ProducerPc
  cnt : Int
  j : Nat
deriving DecidableEq

/-- Where the main thread is. `waiting` is inside of `pthread_cond_wait` until it is woken,
    `relock` is inside of it until the mutex is locked again. -/
inductive MainPc where
  | create
  | lock
  | testEmpty
  | wait
  | waiting
  | relock
  | testAvail
  | load
  | store (value : Int)
  | printf
  | unlock
  | testDone
  | exited
deriving DecidableEq

/-- The main thread with the arguments for which it has not yet created a thread. -/
structure Main where
  pc : MainPc
  args : List Int
  totRequired : Int
  numConsumed : Int
  done : Bool
  stdout : List Int
deriving DecidableEq

structure System where
  mtx : Bool
  avail : Int
  producers : List Producer
  main : Main
deriving DecidableEq

namespace System

def main_at (s : System) (pc : MainPc) : System := { s with main := { s.main with pc } }

def set_producer (s : System) (i : Nat) (p : Producer) : System := { s with producers := s.producers.set i p }

end System

/-- `pthread_cond_signal(&cond)`. It does nothing when no thread is waiting. -/
def pthread_cond_signal (s : System) : System :=
  if s.main.pc = .waiting then s.main_at .relock else s

/-- The next call or access of the `i`th producer. -/
def producer_step (s : System) (i : Nat) (p : Producer) : Option System :=
  match p.pc with
  | .test => some (s.set_producer i { p with pc := if p.j < p.cnt then .lock else .exited })
  | .lock => if s.mtx then none else some ({ s with mtx := true }.set_producer i { p with pc := .load })
  | .load => some (s.set_producer i { p with pc := .store s.avail })
  | .store value => some ({ s with avail := int_add value 1 }.set_producer i { p with pc := .unlock })
  | .unlock => some ({ s with mtx := false }.set_producer i { p with pc := .signal })
  | .signal => some ((pthread_cond_signal s).set_producer i { p with pc := .test, j := p.j + 1 })
  | .exited => none

/-- The next call or access of the main thread. -/
def main_step (s : System) : Option System :=
  match s.main.pc with
  | .create =>
    match s.main.args with
    | [] => some (s.main_at .lock)
    | arg :: rest =>
      some { s with
        producers := s.producers ++ [⟨.test, arg, 0⟩]
        main := { s.main with args := rest, totRequired := int_add s.main.totRequired arg } }
  | .lock => if s.mtx then none else some ({ s with mtx := true }.main_at .testEmpty)
  | .testEmpty => some (s.main_at (if s.avail = 0 then .wait else .testAvail))
  | .wait => some ({ s with mtx := false }.main_at .waiting)
  | .waiting => none
  | .relock => if s.mtx then none else some ({ s with mtx := true }.main_at .testEmpty)
  | .testAvail => some (s.main_at (if s.avail > 0 then .load else .unlock))
  | .load =>
    some { s with main := { s.main with pc := .store s.avail, numConsumed := int_add s.main.numConsumed 1 } }
  | .store value => some ({ s with avail := int_add value (-1) }.main_at .printf)
  | .printf =>
    some { s with main := { s.main with
      pc := .testAvail
      stdout := s.main.stdout ++ [s.main.numConsumed]
      done := decide (s.main.totRequired ≤ s.main.numConsumed) } }
  | .unlock => some ({ s with mtx := false }.main_at .testDone)
  | .testDone => some (s.main_at (if s.main.done then .exited else .lock))
  | .exited => none

/-- What can happen: a thread goes on, or the waiting ends without a signal. -/
inductive Action where
  | producer (i : Nat)
  | main
  | spurious
deriving DecidableEq

/-- The end of the main thread is the end of all threads. -/
def step (s : System) : Action → Option System
  | .producer i =>
    if s.main.pc = .exited then none else s.producers[i]?.bind fun p => producer_step s i p
  | .main => main_step s
  | .spurious => if s.main.pc = .waiting then some (s.main_at .relock) else none

/-- The program with these arguments, as numbers. -/
def start (args : List Int) : System where
  mtx := false
  avail := 0
  producers := []
  main := ⟨.create, args, 0, 0, false, []⟩

/-- The threads that are between `pthread_mutex_lock` and `pthread_mutex_unlock`. -/
def Producer.inside (p : Producer) : Nat :=
  match p.pc with
  | .load | .store _ | .unlock => 1
  | _ => 0

def MainPc.inside : MainPc → Nat
  | .testEmpty | .wait | .testAvail | .load | .store _ | .printf | .unlock => 1
  | _ => 0

/-- How many units are in `avail` or have been there. -/
def Producer.produced (p : Producer) : Nat :=
  match p.pc with
  | .unlock | .signal => p.j + 1
  | _ => p.j

/-- The unit that is counted as consumed and still in `avail`. -/
def MainPc.counted : MainPc → Nat
  | .store _ => 1
  | _ => 0

/-- How many units have been taken out of `avail`. -/
def Main.taken (m : Main) : Int := m.numConsumed - m.pc.counted

/-- The number of units that the producers of these arguments make. -/
def units (args : List Int) : Nat := (args.map Int.toNat).sum

/-- Arguments for which no `int` of the program wraps around. -/
structure Fits (args : List Int) : Prop where
  total : units args ≤ INT_MAX
  sums : ∀ k, INT_MIN ≤ (args.take k).sum

/-- The lines for so many units. -/
def numbers (n : Int) : List Int := (List.range n.toNat).map fun k : Nat => (k : Int) + 1

/-- What holds at each place of a producer. -/
def Producer.Ok (avail : Int) (p : Producer) : Prop :=
  match p.pc with
  | .test => p.j ≤ p.cnt.toNat
  | .lock | .load | .unlock | .signal => p.j < p.cnt
  | .store value => p.j < p.cnt ∧ value = avail
  | .exited => p.j = p.cnt.toNat

/-- The output, and the test for the end, after the last unit that was printed. -/
def Main.Settled (m : Main) : Prop :=
  m.stdout = numbers m.numConsumed ∧
    m.done = decide (1 ≤ m.numConsumed ∧ m.totRequired ≤ m.numConsumed)

/-- What holds at each place of the main thread. -/
def Main.Ok (avail : Int) (m : Main) : Prop :=
  match m.pc with
  | .create => m.Settled ∧ m.numConsumed = 0
  | .lock | .waiting | .relock | .testEmpty => m.Settled ∧ m.args = [] ∧ m.done = false
  | .wait => m.Settled ∧ m.args = [] ∧ m.done = false ∧ avail = 0
  | .testAvail => m.Settled ∧ m.args = [] ∧ (0 < avail ∨ 1 ≤ m.numConsumed)
  | .load => m.Settled ∧ m.args = [] ∧ 0 < avail
  | .store value =>
    m.args = [] ∧ 1 ≤ m.numConsumed ∧ m.stdout = numbers (m.numConsumed - 1) ∧ value = avail ∧ 0 < avail
  | .printf => m.args = [] ∧ 1 ≤ m.numConsumed ∧ m.stdout = numbers (m.numConsumed - 1)
  | .unlock | .testDone => m.Settled ∧ m.args = [] ∧ 1 ≤ m.numConsumed
  | .exited => m.Settled ∧ m.args = [] ∧ m.done = true

/-- A unit has come, and the signal for it not yet. -/
def Producer.Pending (p : Producer) : Prop := p.pc = .unlock ∨ p.pc = .signal

structure Inv (args : List Int) (s : System) : Prop where
  mutex : (s.producers.map Producer.inside).sum + s.main.pc.inside = if s.mtx then 1 else 0
  accounts : s.avail + s.main.taken = (s.producers.map Producer.produced).sum
  nonneg : 0 ≤ s.avail
  numConsumed : 0 ≤ s.main.numConsumed
  args : s.producers.map Producer.cnt ++ s.main.args = args
  required : s.main.totRequired = (s.producers.map Producer.cnt).sum
  producers : ∀ p ∈ s.producers, p.Ok s.avail
  main : s.main.Ok s.avail
  /-- No unit waits for a main thread that nobody will wake. -/
  wake : s.main.pc = .waiting → 0 < s.avail → ∃ p ∈ s.producers, p.Pending

section Steps

variable {args : List Int} {s s' : System} {i : Nat} {p p' : Producer} {avail : Int}

/-- Outside of the mutex nothing is known about `avail`. -/
theorem Producer.Ok.outside (h : p.Ok s.avail) (hp : p.inside = 0) : p.Ok avail := by
  cases p with
  | mk pc cnt j => cases pc <;> first | exact h | cases hp

theorem Main.Ok.outside {m : Main} (h : m.Ok s.avail) (hm : m.pc.inside = 0) : m.Ok avail := by
  cases m with
  | mk pc _ _ _ _ _ => cases pc <;> first | exact h | cases hm

theorem units_append (first second : List Int) : units (first ++ second) = units first + units second := by
  rw [units, List.map_append, List.sum_append]
  rfl

theorem sum_le_units (args : List Int) : args.sum ≤ units args := by
  induction args with
  | nil => exact Int.le_refl 0
  | cons arg rest ih =>
    simp only [units, List.map_cons, List.sum_cons] at ih ⊢
    omega

theorem numbers_succ {n : Int} (h : 0 ≤ n) : numbers (n + 1) = numbers n ++ [n + 1] := by
  have hsucc : (n + 1).toNat = n.toNat + 1 := by omega
  rw [numbers, hsucc, List.range_succ, List.map_append, List.map_singleton, Int.toNat_of_nonneg h, numbers]

theorem Producer.Ok.produced_le {avail : Int} (h : p.Ok avail) : p.produced ≤ p.cnt.toNat := by
  cases p with
  | mk pc cnt j => cases pc <;> simp only [Producer.Ok, Producer.produced] at h ⊢ <;> omega

theorem Inv.units_created (hinv : Inv args s) : (s.producers.map fun p => p.cnt.toNat).sum ≤ units args := by
  have hall : units args = units (s.producers.map Producer.cnt) + units s.main.args := by
    rw [← units_append, hinv.args]
  have hcreated : units (s.producers.map Producer.cnt) = (s.producers.map fun p => p.cnt.toNat).sum := by
    rw [units, List.map_map]
    rfl
  omega

theorem Inv.sum_produced_le (hinv : Inv args s) : (s.producers.map Producer.produced).sum ≤ units args := by
  have hcreated : (s.producers.map Producer.produced).sum ≤ (s.producers.map fun p => p.cnt.toNat).sum :=
    List.sum_le_sum fun p hp => (hinv.producers p hp).produced_le
  exact hcreated.trans hinv.units_created

theorem Inv.taken_nonneg (hinv : Inv args s) : 0 ≤ s.main.taken := by
  have hconsumed := hinv.numConsumed
  have hm := hinv.main
  rw [Main.taken]
  cases hpc : s.main.pc <;> simp only [MainPc.counted]
  case store =>
    simp only [Main.Ok, hpc] at hm
    omega
  all_goals omega

/-- The next unit of a producer can be counted. -/
theorem Inv.produce_fits {value cnt : Int} {j : Nat} (hfits : Fits args) (hinv : Inv args s)
    (hi : s.producers[i]? = some ⟨.store value, cnt, j⟩) : int_add s.avail 1 = s.avail + 1 := by
  have hj := (hinv.producers _ (List.mem_of_getElem? hi)).1
  have hroom := sum_add_le_sum (fun p hp => (hinv.producers p hp).produced_le) hi
  have hunits := hinv.units_created
  have haccounts := hinv.accounts
  have htaken := hinv.taken_nonneg
  have hnonneg := hinv.nonneg
  have htotal := hfits.total
  simp only [Producer.produced] at hroom hj
  refine int_add_eq ?_ (by omega)
  rw [INT_MIN]
  omega

/-- And so can the next one that is consumed. -/
theorem Inv.consume_fits (hfits : Fits args) (hinv : Inv args s) (hpos : 0 < s.avail)
    (hcounted : s.main.pc.counted = 0) : int_add s.main.numConsumed 1 = s.main.numConsumed + 1 := by
  have hunits := hinv.sum_produced_le
  have haccounts := hinv.accounts
  have hconsumed := hinv.numConsumed
  have htotal := hfits.total
  rw [Main.taken, hcounted] at haccounts
  refine int_add_eq ?_ (by omega)
  rw [INT_MIN]
  omega

theorem Inv.take_fits (hfits : Fits args) (hinv : Inv args s) : int_add s.avail (-1) = s.avail - 1 := by
  have hunits := hinv.sum_produced_le
  have haccounts := hinv.accounts
  have htaken := hinv.taken_nonneg
  have hnonneg := hinv.nonneg
  have htotal := hfits.total
  refine int_add_eq ?_ (by omega)
  rw [INT_MIN]
  omega

theorem Inv.start (args : List Int) : Inv args (start args) where
  mutex := rfl
  accounts := rfl
  nonneg := Int.le_refl 0
  numConsumed := Int.le_refl 0
  args := rfl
  required := rfl
  producers := by
    intro p hp
    cases hp
  main := ⟨⟨rfl, rfl⟩, rfl⟩
  wake := by
    intro hpc
    cases hpc

/-- What the others rely on when a producer takes a step. -/
theorem Inv.set_producer {mtx' : Bool} {m' : Main} (hinv : Inv args s) (hi : s.producers[i]? = some p)
    (hcnt : p'.cnt = p.cnt)
    (hmutex : p'.inside + m'.pc.inside + (if s.mtx then 1 else 0) = p.inside + s.main.pc.inside + if mtx' then 1 else 0)
    (hunits : avail + m'.taken + p.produced = s.avail + s.main.taken + p'.produced) (hnonneg : 0 ≤ avail)
    (hconsumed : m'.numConsumed = s.main.numConsumed) (hargs : m'.args = s.main.args)
    (hrequired : m'.totRequired = s.main.totRequired)
    (hothers : avail = s.avail ∨ p.inside = 1) (hp' : p'.Ok avail) (hm' : m'.Ok avail)
    (hwake : m'.pc = .waiting → 0 < avail → p'.Pending ∨ s.main.pc = .waiting ∧ 0 < s.avail ∧ ¬ p.Pending) :
    Inv args ⟨mtx', avail, s.producers.set i p', m'⟩ where
  mutex := by
    have hset := sum_set hi p' Producer.inside
    have hmtx := hinv.mutex
    simp only
    omega
  accounts := by
    have hset := sum_set hi p' Producer.produced
    have hunits' := hinv.accounts
    simp only
    omega
  nonneg := hnonneg
  numConsumed := hconsumed ▸ hinv.numConsumed
  args := by
    rw [hargs, map_set hi hcnt, hinv.args]
  required := by
    rw [hrequired, map_set hi hcnt, hinv.required]
  producers := by
    refine forall_set ?_ hp'
    intro k u hik hk
    have hu := hinv.producers u (List.mem_of_getElem? hk)
    rcases hothers with h | h
    · exact h ▸ hu
    · refine hu.outside ?_
      by_contra hne
      -- two producers cannot be inside
      refine hik (eq_of_inside ?_ hi (Nat.le_of_eq h.symm) hk (Nat.pos_of_ne_zero hne))
      have hmtx := hinv.mutex
      split at hmtx <;> omega
  main := hm'
  wake := by
    intro hwaiting hpos
    rcases hwake hwaiting hpos with h | ⟨hwas, hpos', hnot⟩
    · have hlt : i < s.producers.length := (List.getElem?_eq_some_iff.mp hi).1
      exact ⟨p', List.mem_of_getElem? (List.getElem?_set_self hlt), h⟩
    · exact exists_set (hinv.wake hwas hpos') hi (fun h => absurd h hnot)

theorem Inv.producer_step (hfits : Fits args) (hinv : Inv args s) (hi : s.producers[i]? = some p)
    (hstep : producer_step s i p = some s') : Inv args s' := by
  have hp := hinv.producers p (List.mem_of_getElem? hi)
  have hle := le_sum hi Producer.inside
  have hmutex := hinv.mutex
  cases p with
  | mk pc cnt j =>
  cases pc with
  | test =>
    cases hstep
    by_cases hj : (j : Int) < cnt
    · rw [if_pos hj]
      exact hinv.set_producer hi rfl rfl rfl hinv.nonneg rfl rfl rfl (.inl rfl) hj hinv.main
        (fun hw hpos => .inr ⟨hw, hpos, by simp [Producer.Pending]⟩)
    · rw [if_neg hj]
      have hj' : j ≤ cnt.toNat := hp
      have hend : j = cnt.toNat := by omega
      exact hinv.set_producer hi rfl rfl rfl hinv.nonneg rfl rfl rfl (.inl rfl) hend hinv.main
        (fun hw hpos => .inr ⟨hw, hpos, by simp [Producer.Pending]⟩)
  | lock =>
    simp only [prod_condvar.producer_step] at hstep
    split at hstep
    · cases hstep
    · rename_i hfree
      cases hstep
      rw [Bool.not_eq_true] at hfree
      refine hinv.set_producer hi rfl ?_ rfl hinv.nonneg rfl rfl rfl (.inl rfl) hp hinv.main
        (fun hw hpos => .inr ⟨hw, hpos, by simp [Producer.Pending]⟩)
      simp [hfree, Producer.inside]
      omega
  | load =>
    cases hstep
    exact hinv.set_producer hi rfl rfl rfl hinv.nonneg rfl rfl rfl (.inl rfl) ⟨hp, rfl⟩ hinv.main
      (fun hw hpos => .inr ⟨hw, hpos, by simp [Producer.Pending]⟩)
  | store value =>
    cases hstep
    obtain ⟨hj, rfl⟩ := hp
    have hmain : s.main.pc.inside = 0 := by
      simp only [Producer.inside] at hle
      split at hmutex <;> omega
    rw [hinv.produce_fits hfits hi]
    refine hinv.set_producer hi rfl rfl ?_ (Int.le_add_one hinv.nonneg) rfl rfl rfl (.inr rfl) hj
      (hinv.main.outside hmain) (fun _ _ => .inl (.inl rfl))
    simp only [Producer.produced]
    omega
  | unlock =>
    cases hstep
    have hmtx : s.mtx = true ∧ s.main.pc.inside = 0 := by
      simp only [Producer.inside] at hle
      split at hmutex
      · exact ⟨‹_›, by omega⟩
      · omega
    refine hinv.set_producer hi rfl ?_ rfl hinv.nonneg rfl rfl rfl (.inl rfl) hp hinv.main (fun _ _ => .inl (.inr rfl))
    simp [Producer.inside, hmtx.1]
    omega
  | signal =>
    cases hstep
    have hj : j + 1 ≤ cnt.toNat := by
      have hj : (j : Int) < cnt := hp
      omega
    by_cases hw : s.main.pc = .waiting
    · rw [pthread_cond_signal, if_pos hw]
      have hm := hinv.main
      simp only [Main.Ok, hw] at hm
      refine hinv.set_producer hi rfl ?_ ?_ hinv.nonneg rfl rfl rfl (.inl rfl) hj hm (fun h => by cases h)
      · rw [hw]
        rfl
      · rw [Main.taken, Main.taken, hw]
        rfl
    · rw [pthread_cond_signal, if_neg hw]
      exact hinv.set_producer hi rfl rfl rfl hinv.nonneg rfl rfl rfl (.inl rfl) hj hinv.main (fun h => absurd h hw)
  | exited => cases hstep

/-- What the producers rely on when the main thread takes a step. -/
theorem Inv.set_main {mtx' : Bool} {m' : Main} (hinv : Inv args s)
    (hmutex : m'.pc.inside + (if s.mtx then 1 else 0) = s.main.pc.inside + if mtx' then 1 else 0)
    (hunits : avail + m'.taken = s.avail + s.main.taken) (hnonneg : 0 ≤ avail) (hconsumed : 0 ≤ m'.numConsumed)
    (hargs : m'.args = s.main.args) (hrequired : m'.totRequired = s.main.totRequired)
    (hothers : avail = s.avail ∨ s.main.pc.inside = 1) (hm' : m'.Ok avail)
    (hwake : m'.pc = .waiting → avail = 0) :
    Inv args ⟨mtx', avail, s.producers, m'⟩ where
  mutex := by
    have hmtx := hinv.mutex
    simp only
    omega
  accounts := hunits.trans hinv.accounts
  nonneg := hnonneg
  numConsumed := hconsumed
  args := by rw [hargs, hinv.args]
  required := by rw [hrequired, hinv.required]
  producers := by
    intro u hu
    have hok := hinv.producers u hu
    rcases hothers with h | h
    · exact h ▸ hok
    · refine hok.outside ?_
      have hu : u ∈ s.producers := hu
      obtain ⟨k, hk⟩ := List.getElem?_of_mem hu
      have hle := le_sum hk Producer.inside
      have hmtx := hinv.mutex
      split at hmtx <;> omega
  main := hm'
  wake := by
    intro hwaiting hpos
    have hzero : avail = 0 := hwake hwaiting
    exact absurd hzero (Int.ne_of_gt hpos)

/-- The main thread goes to another place, in or out of the mutex. -/
theorem Inv.main_at {mtx' : Bool} {pc pc' : MainPc} (hinv : Inv args s) (hpc : s.main.pc = pc)
    (hmutex : pc'.inside + (if s.mtx then 1 else 0) = pc.inside + if mtx' then 1 else 0)
    (hcounted : pc'.counted = pc.counted) (hm' : ({ s.main with pc := pc' } : Main).Ok s.avail)
    (hwake : pc' = .waiting → s.avail = 0) : Inv args ({ s with mtx := mtx' }.main_at pc') := by
  refine hinv.set_main ?_ ?_ hinv.nonneg hinv.numConsumed rfl rfl (.inl rfl) hm' hwake
  · rw [hpc, ← hmutex]
  · rw [Main.taken, Main.taken, hpc, ← hcounted]

theorem Inv.create (hfits : Fits args) (hinv : Inv args s) (hpc : s.main.pc = .create)
    (hstep : main_step s = some s') : Inv args s' := by
  have hm := hinv.main
  simp only [Main.Ok, hpc] at hm
  obtain ⟨hsettled, hzero⟩ := hm
  simp only [main_step, hpc] at hstep
  cases hargs : s.main.args with
  | nil =>
    simp only [hargs, Option.some.injEq] at hstep
    subst hstep
    have hdone : s.main.done = false := by simp [hsettled.2, hzero]
    exact hinv.main_at hpc rfl rfl ⟨hsettled, hargs, hdone⟩ (fun h => by cases h)
  | cons arg rest =>
    simp only [hargs, Option.some.injEq] at hstep
    subst hstep
    have hall := hinv.args
    rw [hargs] at hall
    have hsum : int_add s.main.totRequired arg = ((s.producers.map Producer.cnt) ++ [arg]).sum := by
      have htake : args.take (s.producers.length + 1) = s.producers.map Producer.cnt ++ [arg] := by
        rw [← hall, List.append_cons, List.take_left' (by simp)]
      have hmin := hfits.sums (s.producers.length + 1)
      have hmax : (s.producers.map Producer.cnt ++ [arg]).sum ≤ INT_MAX := by
        have hle := sum_le_units (s.producers.map Producer.cnt ++ [arg])
        have hunits := units_append (s.producers.map Producer.cnt ++ [arg]) rest
        rw [List.append_assoc, List.singleton_append, hall] at hunits
        have htotal := hfits.total
        omega
      rw [htake] at hmin
      rw [List.sum_append, List.sum_singleton, ← hinv.required] at hmin hmax ⊢
      exact int_add_eq hmin hmax
    exact
      { mutex := by simpa [hpc, Producer.inside] using hinv.mutex
        accounts := by simpa [Main.taken, hpc, Producer.produced] using hinv.accounts
        nonneg := hinv.nonneg
        numConsumed := hinv.numConsumed
        args := by simpa using hall
        required := by simpa using hsum
        producers := by
          intro u hu
          rcases List.mem_append.mp hu with hu | hu
          · exact hinv.producers u hu
          · rw [List.mem_singleton.mp hu]
            exact Nat.zero_le _
        main := by
          refine ⟨⟨hsettled.1, ?_⟩, hzero⟩
          simp [hsettled.2, hzero]
        wake := fun h => by simp at h }

/-- While the main thread is inside, it is the one that has locked the mutex. -/
theorem Inv.locked (hinv : Inv args s) (hinside : s.main.pc.inside = 1) : s.mtx = true := by
  have hmutex := hinv.mutex
  by_contra hfree
  rw [if_neg hfree] at hmutex
  omega

theorem Inv.main_step (hfits : Fits args) (hinv : Inv args s) (hstep : main_step s = some s') : Inv args s' := by
  have hm := hinv.main
  have hnonneg := hinv.nonneg
  cases hpc : s.main.pc
  case create => exact hinv.create hfits hpc hstep
  all_goals simp only [prod_condvar.main_step, hpc, Option.some.injEq, reduceCtorEq] at hstep
  all_goals simp only [Main.Ok, hpc] at hm
  case lock | relock =>
    split at hstep
    · cases hstep
    · rename_i hfree
      cases hstep
      refine hinv.main_at hpc ?_ rfl hm (fun h => by cases h)
      rw [if_neg hfree]
      rfl
  case testEmpty =>
    subst hstep
    by_cases hzero : s.avail = 0
    · rw [if_pos hzero]
      exact hinv.main_at hpc rfl rfl ⟨hm.1, hm.2.1, hm.2.2, hzero⟩ (fun h => by cases h)
    · rw [if_neg hzero]
      exact hinv.main_at hpc rfl rfl ⟨hm.1, hm.2.1, .inl (by omega)⟩ (fun h => by cases h)
  case wait =>
    subst hstep
    refine hinv.main_at hpc ?_ rfl ⟨hm.1, hm.2.1, hm.2.2.1⟩ (fun _ => hm.2.2.2)
    rw [if_pos (hinv.locked (by rw [hpc]; rfl))]
    rfl
  case testAvail =>
    subst hstep
    by_cases hpos : s.avail > 0
    · rw [if_pos hpos]
      exact hinv.main_at hpc rfl rfl ⟨hm.1, hm.2.1, hpos⟩ (fun h => by cases h)
    · rw [if_neg hpos]
      exact hinv.main_at hpc rfl rfl ⟨hm.1, hm.2.1, hm.2.2.resolve_left hpos⟩ (fun h => by cases h)
  case load =>
    subst hstep
    have hconsumed := hinv.numConsumed
    rw [hinv.consume_fits hfits hm.2.2 (by rw [hpc]; rfl)]
    refine hinv.set_main (by rw [hpc]; rfl) ?_ hnonneg (Int.le_add_one hconsumed) rfl rfl (.inl rfl)
      ⟨hm.2.1, Int.le_add_of_nonneg_left hconsumed, ?_, rfl, hm.2.2⟩ (fun h => by cases h)
    · simp only [Main.taken, hpc, MainPc.counted]
      omega
    · rw [Int.add_sub_cancel]
      exact hm.1.1
  case store value =>
    subst hstep
    obtain ⟨hargs, hone, hstdout, rfl, hpos⟩ := hm
    rw [hinv.take_fits hfits]
    refine hinv.set_main (by rw [hpc]; rfl) ?_ (Int.sub_nonneg_of_le hpos) hinv.numConsumed rfl rfl
      (.inr (by rw [hpc]; rfl)) ⟨hargs, hone, hstdout⟩ (fun h => by cases h)
    simp only [Main.taken, hpc, MainPc.counted]
    omega
  case printf =>
    subst hstep
    obtain ⟨hargs, hone, hstdout⟩ := hm
    refine hinv.set_main (by rw [hpc]; rfl) ?_ hnonneg hinv.numConsumed rfl rfl (.inl rfl) ⟨⟨?_, ?_⟩, hargs, .inr hone⟩
      (fun h => by cases h)
    · simp only [Main.taken, hpc, MainPc.counted]
    · have hsucc := numbers_succ (Int.sub_nonneg_of_le hone)
      rw [Int.sub_add_cancel] at hsucc
      rw [hstdout, hsucc]
    · simp [hone]
  case unlock =>
    subst hstep
    refine hinv.main_at hpc ?_ rfl hm (fun h => by cases h)
    rw [if_pos (hinv.locked (by rw [hpc]; rfl))]
    rfl
  case testDone =>
    subst hstep
    by_cases hdone : s.main.done = true
    · rw [if_pos hdone]
      exact hinv.main_at hpc rfl rfl ⟨hm.1, hm.2.1, hdone⟩ (fun h => by cases h)
    · rw [if_neg hdone]
      exact hinv.main_at hpc rfl rfl ⟨hm.1, hm.2.1, Bool.eq_false_iff.mpr hdone⟩ (fun h => by cases h)

theorem Inv.step {a : Action} (hfits : Fits args) (hinv : Inv args s) (hstep : step s a = some s') : Inv args s' := by
  cases a with
  | producer i =>
    simp only [prod_condvar.step] at hstep
    split at hstep
    · cases hstep
    · obtain ⟨p, hi, hp⟩ := Option.bind_eq_some_iff.mp hstep
      exact hinv.producer_step hfits hi hp
  | main => exact hinv.main_step hfits hstep
  | spurious =>
    simp only [prod_condvar.step] at hstep
    split at hstep
    · rename_i hpc
      cases hstep
      have hm := hinv.main
      simp only [Main.Ok, hpc] at hm
      exact hinv.main_at hpc rfl rfl hm (fun h => by cases h)
    · cases hstep

end Steps

end tlpi.prod_condvar
