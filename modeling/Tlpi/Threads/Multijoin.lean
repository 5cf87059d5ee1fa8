import Tlpi.Lib.Interleave
import Tlpi.Lib.Threads

namespace tlpi.multijoin

/-- `enum tstate`. -/
inductive Tstate where
  | TS_ALIVE
  | TS_TERMINATED
  | TS_JOINED
deriving DecidableEq

/-- Where a thread is: before the named call, or before one of its accesses to `numUnjoined` and to
    its entry of the array. -/
inductive WorkerPc where
  | lock
  | load
  | store (value : Int)
  | terminate
  | unlock
  | signal
  | returned
deriving DecidableEq

/-- A thread and its entry of the array. -/
structure Worker where
  pc : WorkerPc
  state : Tstate
deriving DecidableEq

/-- Where the main thread is. `waiting` is inside of `pthread_cond_wait` until it is woken,
    `relock` is inside of it until the mutex is locked again, and the others have the index of the
    `for` loop. -/
inductive MainPc where
  | create
  | testLive
  | lock
  | testUnjoined
  | wait
  | waiting
  | relock
  | scan (idx : Nat)
  | join (idx : Nat)
  | joined (idx : Nat)
  | load (idx : Nat)
  | store (idx : Nat) (value : Int)
  | printf (idx : Nat)
  | unlock
  | exited
deriving DecidableEq

structure System where
  mutex : Bool
  numUnjoined : Int
  numLive : Int
  workers : List Worker
  pc : MainPc
  /-- The arguments for which no thread has been created yet. -/
  left : Nat
  /-- The threads that have been reaped, with the value of `numLive`. -/
  stdout : List (Nat × Int)
deriving DecidableEq

def System.set_worker (s : System) (idx : Nat) (w : Worker) : System := { s with workers := s.workers.set idx w }

/-- `pthread_cond_signal(&threadDied)`. It does nothing when no thread is waiting. -/
def pthread_cond_signal (s : System) : System := if s.pc = .waiting then { s with pc := .relock } else s

/-- The next call or access of a thread, from the end of its `sleep` on. -/
def worker_step (s : System) (idx : Nat) (w : Worker) : Option System :=
  match w.pc with
  | .lock => if s.mutex then none else some ({ s with mutex := true }.set_worker idx { w with pc := .load })
  | .load => some (s.set_worker idx { w with pc := .store s.numUnjoined })
  | .store value => some ({ s with numUnjoined := value + 1 }.set_worker idx { w with pc := .terminate })
  | .terminate => some (s.set_worker idx ⟨.unlock, .TS_TERMINATED⟩)
  | .unlock => some ({ s with mutex := false }.set_worker idx { w with pc := .signal })
  | .signal => some ((pthread_cond_signal s).set_worker idx { w with pc := .returned })
  | .returned => none

/-- The next call or access of the main thread. -/
def main_step (s : System) : Option System :=
  match s.pc with
  | .create =>
    match s.left with
    | 0 => some { s with pc := .testLive, numLive := s.workers.length }
    | left + 1 => some { s with left, workers := s.workers ++ [⟨.lock, .TS_ALIVE⟩] }
  | .testLive => some { s with pc := if s.numLive > 0 then .lock else .exited }
  | .lock => if s.mutex then none else some { s with mutex := true, pc := .testUnjoined }
  | .testUnjoined => some { s with pc := if s.numUnjoined = 0 then .wait else .scan 0 }
  | .wait => some { s with mutex := false, pc := .waiting }
  | .waiting => none
  | .relock => if s.mutex then none else some { s with mutex := true, pc := .testUnjoined }
  | .scan idx =>
    match s.workers[idx]? with
    | none => some { s with pc := .unlock }
    | some w => some { s with pc := if w.state = .TS_TERMINATED then .join idx else .scan (idx + 1) }
  | .join idx =>
    -- pthread_join waits for the return of the thread
    if (s.workers[idx]?.map Worker.pc) = some .returned then some { s with pc := .joined idx } else none
  | .joined idx =>
    match s.workers[idx]? with
    | none => none
    | some w =>
      some { s.set_worker idx { w with state := .TS_JOINED } with pc := .load idx, numLive := s.numLive - 1 }
  | .load idx => some { s with pc := .store idx s.numUnjoined }
  | .store idx value => some { s with pc := .printf idx, numUnjoined := value - 1 }
  | .printf idx => some { s with pc := .scan (idx + 1), stdout := s.stdout ++ [(idx, s.numLive)] }
  | .unlock => some { s with mutex := false, pc := .testLive }
  | .exited => none

/-- What can happen: a thread goes on, or the waiting ends without a signal. -/
inductive Action where
  | worker (idx : Nat)
  | main
  | spurious
deriving DecidableEq

/-- The end of the main thread is the end of all threads. -/
def step (s : System) : Action → Option System
  | .worker idx => if s.pc = .exited then none else s.workers[idx]?.bind fun w => worker_step s idx w
  | .main => main_step s
  | .spurious => if s.pc = .waiting then some { s with pc := .relock } else none

/-- The program with so many arguments. -/
def start (args : Nat) : System where
  mutex := false
  numUnjoined := 0
  numLive := 0
  workers := []
  pc := .create
  left := args
  stdout := []

/-- The threads that are between `pthread_mutex_lock` and `pthread_mutex_unlock`. -/
def Worker.inside (w : Worker) : Nat :=
  match w.pc with
  | .load | .store _ | .terminate | .unlock => 1
  | _ => 0

def MainPc.inside : MainPc → Nat
  | .create | .testLive | .lock | .waiting | .relock | .exited => 0
  | _ => 1

/-- A thread that is counted in `numUnjoined`. -/
def Worker.unjoined (w : Worker) : Nat :=
  match w.pc with
  | .lock | .load | .store _ => 0
  | _ => if w.state = .TS_JOINED then 0 else 1

/-- A thread that is counted in `numLive`. -/
def Worker.live (w : Worker) : Nat := if w.state = .TS_JOINED then 0 else 1

/-- The thread that has been joined and is still counted in `numUnjoined`. -/
def MainPc.joining : MainPc → Nat
  | .load _ | .store _ _ => 1
  | _ => 0

/-- The thread that has been joined and not yet been printed. -/
def MainPc.unprinted : MainPc → Option Nat
  | .load idx | .store idx _ | .printf idx => some idx
  | _ => none

/-- What holds at each place of a thread. -/
def Worker.Ok (numUnjoined : Int) (w : Worker) : Prop :=
  match w.pc with
  | .lock | .load | .terminate => w.state = .TS_ALIVE
  | .store value => w.state = .TS_ALIVE ∧ value = numUnjoined
  | .unlock | .signal => w.state = .TS_TERMINATED
  | .returned => w.state ≠ .TS_ALIVE

/-- What holds at each place of the main thread. -/
def MainOk (s : System) : Prop :=
  match s.pc with
  | .create => s.stdout = []
  | .testLive | .scan _ | .unlock | .printf _ | .load _ => s.left = 0
  | .lock | .testUnjoined | .waiting | .relock => s.left = 0 ∧ 0 < s.numLive
  | .wait => s.left = 0 ∧ s.numUnjoined = 0 ∧ 0 < s.numLive
  | .join idx => s.left = 0 ∧ ∃ w, s.workers[idx]? = some w ∧ w.state = .TS_TERMINATED
  | .joined idx => s.left = 0 ∧ ∃ w, s.workers[idx]? = some w ∧ w.state = .TS_TERMINATED ∧ w.pc = .returned
  | .store _ value => s.left = 0 ∧ value = s.numUnjoined
  | .exited => s.left = 0 ∧ s.numLive ≤ 0

/-- A thread has been counted, and its signal not yet sent. -/
def Worker.Pending (w : Worker) : Prop := w.pc = .terminate ∨ w.pc = .unlock ∨ w.pc = .signal

/-- What has been printed: each joined thread once, and how many were left after it. -/
structure Printed (args : Nat) (s : System) : Prop where
  nodup : (s.stdout.map Prod.fst ++ s.pc.unprinted.toList).Nodup
  joined : ∀ i, i ∈ s.stdout.map Prod.fst ++ s.pc.unprinted.toList ↔
    ∃ w, s.workers[i]? = some w ∧ w.state = .TS_JOINED
  total : (s.workers.map Worker.live).sum + (s.stdout.map Prod.fst ++ s.pc.unprinted.toList).length = s.workers.length
  counts : ∀ (k i : Nat) (n : Int), s.stdout[k]? = some (i, n) → n = args - 1 - k

structure Inv (args : Nat) (s : System) : Prop where
  created : s.workers.length + s.left = args
  mutex : (s.workers.map Worker.inside).sum + s.pc.inside = if s.mutex then 1 else 0
  unjoined : s.numUnjoined = (s.workers.map Worker.unjoined).sum + s.pc.joining
  live : s.pc ≠ .create → s.numLive = (s.workers.map Worker.live).sum
  workers : ∀ w ∈ s.workers, w.Ok s.numUnjoined
  main : MainOk s
  /-- No thread is left to a main thread that nobody will wake. -/
  wake : s.pc = .waiting → 0 < s.numUnjoined → ∃ w ∈ s.workers, w.Pending
  printed : Printed args s

section Steps

variable {args : Nat} {s s' : System} {i : Nat} {w w' : Worker} {numUnjoined : Int}

theorem Inv.start (args : Nat) : Inv args (start args) where
  created := Nat.zero_add args
  mutex := rfl
  unjoined := rfl
  live := fun h => absurd rfl h
  workers := by simp [multijoin.start]
  main := rfl
  wake := by simp [multijoin.start]
  printed := by constructor <;> simp [multijoin.start, MainPc.unprinted]

/-- Outside of the mutex nothing is known about `numUnjoined`. -/
theorem Worker.Ok.outside (h : w.Ok s.numUnjoined) (hw : w.inside = 0) : w.Ok numUnjoined := by
  cases w with
  | mk pc state => cases pc <;> first | exact h | cases hw

/-- What the others rely on when a thread takes a step, which may wake the main thread. -/
theorem Inv.set_worker {mutex' : Bool} {pc' : MainPc} (hinv : Inv args s) (hi : s.workers[i]? = some w)
    (hpc : pc' = s.pc ∨ s.pc = .waiting ∧ pc' = .relock)
    (hmutex : w'.inside + (if s.mutex then 1 else 0) = w.inside + if mutex' then 1 else 0)
    (hunjoined : numUnjoined + w.unjoined = s.numUnjoined + w'.unjoined)
    (hothers : numUnjoined = s.numUnjoined ∨ w.inside = 1)
    (hstate : w'.state = .TS_JOINED ↔ w.state = .TS_JOINED) (hw' : w'.Ok numUnjoined)
    (hmain : MainOk { s with mutex := mutex', numUnjoined, workers := s.workers.set i w', pc := pc' })
    (hwake : pc' = .waiting → 0 < numUnjoined → w'.Pending ∨ 0 < s.numUnjoined ∧ ¬ w.Pending) :
    Inv args { s with mutex := mutex', numUnjoined, workers := s.workers.set i w', pc := pc' } := by
  have hlt : i < s.workers.length := (List.getElem?_eq_some_iff.mp hi).1
  have hsame : pc'.inside = s.pc.inside ∧ pc'.joining = s.pc.joining ∧ pc'.unprinted = s.pc.unprinted ∧
      (pc' = .create ↔ s.pc = .create) := by
    rcases hpc with rfl | ⟨hwas, rfl⟩
    · exact ⟨rfl, rfl, rfl, Iff.rfl⟩
    · rw [hwas]
      exact ⟨rfl, rfl, rfl, by simp⟩
  obtain ⟨hinside, hjoining, hunprinted, hcreate⟩ := hsame
  have hlive : w'.live = w.live := by simp only [Worker.live, hstate]
  have hlives : ((s.workers.set i w').map Worker.live).sum = (s.workers.map Worker.live).sum := by
    rw [map_set hi hlive]
  exact
    { created := by rw [← hinv.created, List.length_set]
      mutex := by
        have hset := sum_set hi w' Worker.inside
        have hmutex' := hinv.mutex
        simp only [hinside]
        omega
      unjoined := by
        have hset := sum_set hi w' Worker.unjoined
        have hunjoined' := hinv.unjoined
        simp only [hjoining]
        omega
      live := fun h => by
        rw [hlives]
        exact hinv.live fun hc => h (hcreate.mpr hc)
      workers := by
        refine forall_set ?_ hw'
        intro k u hik hk
        have hu := hinv.workers u (List.mem_of_getElem? hk)
        rcases hothers with h | h
        · exact h ▸ hu
        · refine hu.outside ?_
          by_contra hne
          -- two threads cannot be inside
          refine hik (eq_of_inside ?_ hi (Nat.le_of_eq h.symm) hk (Nat.pos_of_ne_zero hne))
          have hmutex' := hinv.mutex
          split at hmutex' <;> omega
      main := hmain
      wake := by
        intro hwaiting hpos
        rcases hwake hwaiting hpos with h | ⟨hpos', hnot⟩
        · exact ⟨w', List.mem_of_getElem? (List.getElem?_set_self hlt), h⟩
        · have hwas : s.pc = .waiting := by
            rcases hpc with h | ⟨h, -⟩
            · exact h ▸ hwaiting
            · exact h
          exact exists_set (hinv.wake hwas hpos') hi (fun h => absurd h hnot)
      printed := by
        refine ⟨?_, ?_, ?_, hinv.printed.counts⟩
        · rw [hunprinted]
          exact hinv.printed.nodup
        · intro k
          rw [hunprinted, hinv.printed.joined k]
          by_cases hk : i = k
          · subst hk
            simp only [hi, List.getElem?_set_self hlt, Option.some.injEq, exists_eq_left', hstate]
          · rw [List.getElem?_set_ne hk]
        · rw [hunprinted, hlives, List.length_set]
          exact hinv.printed.total }

/-- The step of a thread leaves the main thread where it is. -/
theorem MainOk.set_worker {mutex' : Bool} (h : MainOk s) (hi : s.workers[i]? = some w)
    (hstate : w.state = .TS_TERMINATED → w'.state = .TS_TERMINATED) (hpc : w.pc ≠ .returned)
    (hothers : numUnjoined = s.numUnjoined ∨ s.pc.inside = 0) :
    MainOk { s with mutex := mutex', numUnjoined, workers := s.workers.set i w' } := by
  have hlt : i < s.workers.length := (List.getElem?_eq_some_iff.mp hi).1
  cases hmain : s.pc <;> simp only [MainOk, hmain, MainPc.inside] at h hothers ⊢
  case wait =>
    obtain ⟨hleft, hzero, hlive⟩ := h
    exact ⟨hleft, by omega, hlive⟩
  case store =>
    obtain ⟨hleft, hvalue⟩ := h
    exact ⟨hleft, by omega⟩
  case join k =>
    obtain ⟨hleft, u, hk, hu⟩ := h
    by_cases hik : i = k
    · subst hik
      obtain rfl : w = u := Option.some.inj (hi.symm.trans hk)
      exact ⟨hleft, w', List.getElem?_set_self hlt, hstate hu⟩
    · exact ⟨hleft, u, (List.getElem?_set_ne hik).trans hk, hu⟩
  case joined k =>
    obtain ⟨hleft, u, hk, hu, hreturned⟩ := h
    by_cases hik : i = k
    · subst hik
      obtain rfl : w = u := Option.some.inj (hi.symm.trans hk)
      exact absurd hreturned hpc
    · exact ⟨hleft, u, (List.getElem?_set_ne hik).trans hk, hu, hreturned⟩
  all_goals exact h

theorem Inv.outside_main (hinv : Inv args s) (hi : s.workers[i]? = some w) (hw : w.inside = 1) :
    s.mutex = true ∧ s.pc.inside = 0 := by
  have hle := le_sum hi Worker.inside
  have hmutex := hinv.mutex
  split at hmutex
  case isTrue h => exact ⟨h, by omega⟩
  case isFalse => omega

theorem Inv.worker_step (hinv : Inv args s) (hi : s.workers[i]? = some w) (hstep : worker_step s i w = some s') :
    Inv args s' := by
  have hw := hinv.workers w (List.mem_of_getElem? hi)
  cases w with
  | mk pc state =>
  cases pc with
  | lock =>
    simp only [multijoin.worker_step] at hstep
    split at hstep
    case isTrue => cases hstep
    case isFalse hfree =>
      cases hstep
      refine hinv.set_worker hi (.inl rfl) ?_ rfl (.inl rfl) Iff.rfl hw
        (hinv.main.set_worker hi id (by simp) (.inl rfl)) (fun _ h => .inr ⟨h, by simp [Worker.Pending]⟩)
      simp [hfree, Worker.inside]
  | load =>
    cases hstep
    exact hinv.set_worker hi (.inl rfl) rfl rfl (.inl rfl) Iff.rfl ⟨hw, rfl⟩
      (hinv.main.set_worker hi id (by simp) (.inl rfl)) (fun _ h => .inr ⟨h, by simp [Worker.Pending]⟩)
  | store value =>
    cases hstep
    obtain ⟨hstate, rfl⟩ := hw
    have hmain := (hinv.outside_main hi rfl).2
    refine hinv.set_worker hi (.inl rfl) rfl ?_ (.inr rfl) Iff.rfl hstate
      (hinv.main.set_worker hi id (by simp) (.inr hmain)) (fun _ _ => .inl (.inl rfl))
    simp only at hstate
    simp [Worker.unjoined, hstate]
  | terminate =>
    cases hstep
    have hstate : state = .TS_ALIVE := hw
    subst hstate
    exact hinv.set_worker hi (.inl rfl) rfl rfl (.inl rfl) (by simp) rfl
      (hinv.main.set_worker hi (fun h => by cases h) (by simp) (.inl rfl)) (fun _ _ => .inl (.inr (.inl rfl)))
  | unlock =>
    cases hstep
    have hmutex := (hinv.outside_main hi rfl).1
    refine hinv.set_worker hi (.inl rfl) ?_ rfl (.inl rfl) Iff.rfl hw
      (hinv.main.set_worker hi id (by simp) (.inl rfl)) (fun _ _ => .inl (.inr (.inr rfl)))
    simp [Worker.inside, hmutex]
  | signal =>
    cases hstep
    have hstate : state = .TS_TERMINATED := hw
    subst hstate
    have hw' : (⟨.returned, .TS_TERMINATED⟩ : Worker).Ok s.numUnjoined := by simp [Worker.Ok]
    by_cases hwaiting : s.pc = .waiting
    · have hmain := hinv.main
      simp only [MainOk, hwaiting] at hmain
      rw [pthread_cond_signal, if_pos hwaiting]
      exact hinv.set_worker hi (.inr ⟨hwaiting, rfl⟩) rfl rfl (.inl rfl) Iff.rfl hw' hmain (fun h => by cases h)
    · rw [pthread_cond_signal, if_neg hwaiting]
      exact hinv.set_worker hi (.inl rfl) rfl rfl (.inl rfl) Iff.rfl hw'
        (hinv.main.set_worker hi id (by simp) (.inl rfl)) (fun h => absurd h hwaiting)
  | returned => cases hstep

/-- What the threads rely on when the main thread takes a step. -/
theorem Inv.set_main {mutex' : Bool} {pc pc' : MainPc} (hinv : Inv args s) (hpc : s.pc = pc) (hcreate : pc ≠ .create)
    (hmutex : pc'.inside + (if s.mutex then 1 else 0) = pc.inside + if mutex' then 1 else 0)
    (hunjoined : numUnjoined + pc.joining = s.numUnjoined + pc'.joining) (hunprinted : pc'.unprinted = pc.unprinted)
    (hothers : numUnjoined = s.numUnjoined ∨ pc.inside = 1)
    (hmain : MainOk { s with mutex := mutex', numUnjoined, pc := pc' }) (hwake : pc' = .waiting → numUnjoined = 0) :
    Inv args { s with mutex := mutex', numUnjoined, pc := pc' } where
  created := hinv.created
  mutex := by
    have hmutex' := hinv.mutex
    rw [hpc] at hmutex'
    simp only
    omega
  unjoined := by
    have hunjoined' := hinv.unjoined
    rw [hpc] at hunjoined'
    simp only
    omega
  live := fun _ => hinv.live (hpc ▸ hcreate)
  workers := by
    intro u hu
    have hok := hinv.workers u hu
    rcases hothers with h | h
    · exact h ▸ hok
    · refine hok.outside ?_
      have hu : u ∈ s.workers := hu
      obtain ⟨k, hk⟩ := List.getElem?_of_mem hu
      have hle := le_sum hk Worker.inside
      have hmutex' := hinv.mutex
      rw [hpc, h] at hmutex'
      split at hmutex' <;> omega
  main := hmain
  wake := by
    intro hwaiting hpos
    have hzero : numUnjoined = 0 := hwake hwaiting
    exact absurd hzero (Int.ne_of_gt hpos)
  printed := by
    have hprinted := hinv.printed
    refine ⟨?_, ?_, ?_, hprinted.counts⟩
    · rw [hunprinted, ← hpc]
      exact hprinted.nodup
    · rw [hunprinted, ← hpc]
      exact hprinted.joined
    · rw [hunprinted, ← hpc]
      exact hprinted.total

/-- The main thread goes to another place, in or out of the mutex. -/
theorem Inv.main_to {mutex' : Bool} {pc pc' : MainPc} (hinv : Inv args s) (hpc : s.pc = pc) (hcreate : pc ≠ .create)
    (hmutex : pc'.inside + (if s.mutex then 1 else 0) = pc.inside + if mutex' then 1 else 0)
    (hjoining : pc'.joining = pc.joining) (hunprinted : pc'.unprinted = pc.unprinted)
    (hmain : MainOk { s with mutex := mutex', pc := pc' }) (hwake : pc' = .waiting → s.numUnjoined = 0) :
    Inv args { s with mutex := mutex', pc := pc' } :=
  hinv.set_main hpc hcreate hmutex (by rw [hjoining]) hunprinted (.inl rfl) hmain hwake

theorem Inv.create (hinv : Inv args s) (hpc : s.pc = .create) (hstep : main_step s = some s') : Inv args s' := by
  have hmain := hinv.main
  simp only [MainOk, hpc] at hmain
  have hprinted := hinv.printed
  simp only [multijoin.main_step, hpc] at hstep
  have htotal := hprinted.total
  simp only [hmain, hpc, MainPc.unprinted, List.map_nil, Option.toList_none, List.append_nil, List.length_nil] at htotal
  cases hleft : s.left with
  | zero =>
    simp only [hleft, Option.some.injEq] at hstep
    subst hstep
    have hcreated := hinv.created
    rw [hleft] at hcreated
    have hmutex := hinv.mutex
    have hunjoined := hinv.unjoined
    rw [hpc] at hmutex hunjoined
    refine ⟨hcreated, hmutex, hunjoined, ?_, hinv.workers, rfl, ?_, ?_⟩
    · intro _
      simp only
      omega
    · intro h
      cases h
    · have hnodup := hprinted.nodup
      have hjoined := hprinted.joined
      have htotal' := hprinted.total
      rw [hpc] at hnodup hjoined htotal'
      exact ⟨hnodup, hjoined, htotal', hprinted.counts⟩
  | succ left =>
    simp only [hleft, Option.some.injEq] at hstep
    subst hstep
    exact
      { created := by
          have hcreated := hinv.created
          simp only [List.length_append, List.length_singleton]
          omega
        mutex := by simpa [hpc, Worker.inside] using hinv.mutex
        unjoined := by simpa [hpc, Worker.unjoined] using hinv.unjoined
        live := fun h => absurd rfl h
        workers := by
          intro u hu
          rcases List.mem_append.mp hu with hu | hu
          · exact hinv.workers u hu
          · rw [List.mem_singleton.mp hu]
            rfl
        main := hmain
        wake := fun h => by cases h
        printed := by
          have hnone : ∀ k : Nat, ¬ ∃ u : Worker, s.workers[k]? = some u ∧ u.state = .TS_JOINED := by
            intro k hk
            have hmem := (hprinted.joined k).mpr hk
            simp [hmain, hpc, MainPc.unprinted] at hmem
          refine ⟨?_, ?_, ?_, ?_⟩
          · simp [hmain, MainPc.unprinted]
          · intro k
            simp only [hmain, MainPc.unprinted, List.map_nil, Option.toList_none, List.append_nil,
              List.not_mem_nil, false_iff]
            rintro ⟨u, hk, hu⟩
            rw [List.getElem?_append] at hk
            split at hk
            · exact hnone k ⟨u, hk, hu⟩
            · have hmem := List.mem_of_getElem? hk
              rw [List.mem_singleton] at hmem
              rw [hmem] at hu
              cases hu
          · simp only [hmain, MainPc.unprinted, List.map_append, List.sum_append, List.map_nil,
              Option.toList_none, List.append_nil, List.length_nil, List.length_append, List.length_singleton,
              List.map_cons, List.sum_cons, List.sum_nil, Worker.live]
            simp only [reduceCtorEq, if_false]
            omega
          · simp [hmain] }

/-- The join of a thread, which takes it out of the count of live threads. -/
theorem Inv.join {idx : Nat} (hinv : Inv args s) (hpc : s.pc = .joined idx) (hi : s.workers[idx]? = some w)
    (hw : w.state = .TS_TERMINATED) (hreturned : w.pc = .returned) :
    Inv args { s.set_worker idx { w with state := .TS_JOINED } with pc := .load idx, numLive := s.numLive - 1 } := by
  have hlt : idx < s.workers.length := (List.getElem?_eq_some_iff.mp hi).1
  have hmain := hinv.main
  simp only [MainOk, hpc] at hmain
  have hprinted := hinv.printed
  have hnodup := hprinted.nodup
  have hjoined := hprinted.joined
  have htotal := hprinted.total
  simp only [hpc, MainPc.unprinted, Option.toList_none, List.append_nil] at hnodup hjoined htotal
  have hset := sum_set hi { w with state := .TS_JOINED } Worker.live
  simp only [Worker.live, hw, reduceCtorEq, if_true, if_false] at hset
  exact
    { created := by
        rw [← hinv.created]
        simp only [System.set_worker, List.length_set]
      mutex := by
        have hmutex := hinv.mutex
        have hsame : ((s.workers.set idx { w with state := .TS_JOINED }).map Worker.inside) =
            s.workers.map Worker.inside := map_set hi rfl
        rw [hpc, ← hsame] at hmutex
        exact hmutex
      unjoined := by
        have hunjoined := hinv.unjoined
        have hset' := sum_set hi { w with state := .TS_JOINED } Worker.unjoined
        have hbefore : w.unjoined = 1 := by simp [Worker.unjoined, hreturned, hw]
        have hafter : ({ w with state := .TS_JOINED } : Worker).unjoined = 0 := by simp [Worker.unjoined, hreturned]
        simp only [hpc, MainPc.joining] at hunjoined
        simp only [System.set_worker, MainPc.joining]
        omega
      live := by
        intro _
        have hlive := hinv.live (by simp [hpc])
        simp only [System.set_worker]
        omega
      workers := by
        refine forall_set (fun k u _ hk => hinv.workers u (List.mem_of_getElem? hk)) ?_
        simp [Worker.Ok, hreturned]
      main := hmain.1
      wake := fun h => by cases h
      printed := by
        refine ⟨?_, ?_, ?_, hprinted.counts⟩
        · refine List.nodup_append.mpr ⟨hnodup, by simp [MainPc.unprinted], ?_⟩
          intro k hk l hl heq
          simp only [MainPc.unprinted, Option.toList_some, List.mem_singleton] at hl
          obtain ⟨u, hu, hstate⟩ := (hjoined k).mp hk
          rw [heq, hl, hi, Option.some.injEq] at hu
          rw [← hu, hw] at hstate
          cases hstate
        · intro k
          simp only [MainPc.unprinted, Option.toList_some, List.mem_append, List.mem_singleton, hjoined,
            System.set_worker]
          by_cases hk : idx = k
          · subst hk
            simp [List.getElem?_set_self hlt]
          · rw [List.getElem?_set_ne hk]
            simp [Ne.symm hk]
        · simp only [MainPc.unprinted, Option.toList_some, List.length_append, List.length_singleton,
            System.set_worker, List.length_set]
          omega }

theorem Inv.print {idx : Nat} (hinv : Inv args s) (hpc : s.pc = .printf idx) :
    Inv args { s with pc := .scan (idx + 1), stdout := s.stdout ++ [(idx, s.numLive)] } := by
  have hmain := hinv.main
  simp only [MainOk, hpc] at hmain
  have hprinted := hinv.printed
  have hunjoined := hinv.unjoined
  have hmutex := hinv.mutex
  have hlive := hinv.live (by simp [hpc])
  have hcreated := hinv.created
  have hnodup := hprinted.nodup
  have hjoined := hprinted.joined
  have htotal := hprinted.total
  rw [hpc] at hunjoined hmutex
  simp only [hpc, MainPc.unprinted, Option.toList_some] at hnodup hjoined htotal
  have hfst : (s.stdout ++ [(idx, s.numLive)]).map Prod.fst ++ (MainPc.scan (idx + 1)).unprinted.toList =
      s.stdout.map Prod.fst ++ [idx] := by
    rw [List.map_append]
    exact List.append_nil _
  refine ⟨hinv.created, hmutex, hunjoined, fun _ => hlive, hinv.workers, hmain, (fun h => by cases h), ?_, ?_, ?_, ?_⟩
  · rw [hfst]
    exact hnodup
  · rw [hfst]
    exact hjoined
  · rw [hfst]
    exact htotal
  · intro k i n hk
    rw [List.getElem?_append] at hk
    split at hk
    case isTrue => exact hprinted.counts k i n hk
    case isFalse hlong =>
      obtain ⟨hlt, hget⟩ := List.getElem?_eq_some_iff.mp hk
      rw [List.length_singleton] at hlt
      have hk' : k = s.stdout.length := by omega
      simp only [List.getElem_singleton, Prod.mk.injEq] at hget
      simp only [List.length_append, List.length_map, List.length_singleton] at htotal
      omega

/-- While the main thread is inside, it is the one that has locked the mutex. -/
theorem Inv.locked (hinv : Inv args s) (hinside : s.pc.inside = 1) : s.mutex = true := by
  have hmutex := hinv.mutex
  by_contra hfree
  rw [if_neg hfree] at hmutex
  omega

theorem Inv.main_step (hinv : Inv args s) (hstep : main_step s = some s') : Inv args s' := by
  have hmain := hinv.main
  cases hpc : s.pc
  case create => exact hinv.create hpc hstep
  all_goals simp only [multijoin.main_step, hpc, Option.some.injEq, reduceCtorEq] at hstep
  all_goals simp only [MainOk, hpc] at hmain
  case testLive =>
    subst hstep
    by_cases hlive : s.numLive > 0
    · rw [if_pos hlive]
      exact hinv.main_to hpc (by simp) rfl rfl rfl ⟨hmain, hlive⟩ (fun h => by cases h)
    · rw [if_neg hlive]
      exact hinv.main_to hpc (by simp) rfl rfl rfl ⟨hmain, Int.not_lt.mp hlive⟩ (fun h => by cases h)
  case lock | relock =>
    split at hstep
    case isTrue => cases hstep
    case isFalse hfree =>
      cases hstep
      refine hinv.main_to hpc (by simp) ?_ rfl rfl hmain (fun h => by cases h)
      rw [if_neg hfree]
      rfl
  case testUnjoined =>
    subst hstep
    by_cases hzero : s.numUnjoined = 0
    · rw [if_pos hzero]
      exact hinv.main_to hpc (by simp) rfl rfl rfl ⟨hmain.1, hzero, hmain.2⟩ (fun h => by cases h)
    · rw [if_neg hzero]
      exact hinv.main_to hpc (by simp) rfl rfl rfl hmain.1 (fun h => by cases h)
  case wait =>
    subst hstep
    refine hinv.main_to hpc (by simp) ?_ rfl rfl ⟨hmain.1, hmain.2.2⟩ (fun _ => hmain.2.1)
    rw [if_pos (hinv.locked (by rw [hpc]; rfl))]
    rfl
  case unlock =>
    subst hstep
    refine hinv.main_to hpc (by simp) ?_ rfl rfl hmain (fun h => by cases h)
    rw [if_pos (hinv.locked (by rw [hpc]; rfl))]
    rfl
  case scan idx =>
    cases hi : s.workers[idx]? with
    | none =>
      simp only [hi, Option.some.injEq] at hstep
      subst hstep
      exact hinv.main_to hpc (by simp) rfl rfl rfl hmain (fun h => by cases h)
    | some w =>
      simp only [hi, Option.some.injEq] at hstep
      subst hstep
      by_cases hw : w.state = .TS_TERMINATED
      · rw [if_pos hw]
        exact hinv.main_to hpc (by simp) rfl rfl rfl ⟨hmain, w, hi, hw⟩ (fun h => by cases h)
      · rw [if_neg hw]
        exact hinv.main_to hpc (by simp) rfl rfl rfl hmain (fun h => by cases h)
  case join idx =>
    split at hstep
    case isFalse => cases hstep
    case isTrue hreturned =>
      cases hstep
      obtain ⟨hleft, w, hi, hw⟩ := hmain
      rw [hi, Option.map_some, Option.some.injEq] at hreturned
      exact hinv.main_to hpc (by simp) rfl rfl rfl ⟨hleft, w, hi, hw, hreturned⟩ (fun h => by cases h)
  case joined idx =>
    obtain ⟨-, w, hi, hw, hreturned⟩ := hmain
    simp only [hi, Option.some.injEq] at hstep
    subst hstep
    exact hinv.join hpc hi hw hreturned
  case load idx =>
    subst hstep
    exact hinv.main_to hpc (by simp) rfl rfl rfl ⟨hmain, rfl⟩ (fun h => by cases h)
  case store idx value =>
    subst hstep
    obtain ⟨hleft, rfl⟩ := hmain
    refine hinv.set_main hpc (by simp) rfl ?_ rfl (.inr rfl) hleft (fun h => by cases h)
    simp only [MainPc.joining]
    omega
  case printf idx =>
    subst hstep
    exact hinv.print hpc

theorem Inv.step {a : Action} (hinv : Inv args s) (hstep : step s a = some s') : Inv args s' := by
  cases a with
  | worker idx =>
    simp only [multijoin.step] at hstep
    split at hstep
    case isTrue => cases hstep
    case isFalse =>
      obtain ⟨w, hi, hw⟩ := Option.bind_eq_some_iff.mp hstep
      exact hinv.worker_step hi hw
  | main => exact hinv.main_step hstep
  | spurious =>
    simp only [multijoin.step] at hstep
    split at hstep
    case isTrue hpc =>
      cases hstep
      have hmain := hinv.main
      simp only [MainOk, hpc] at hmain
      exact hinv.main_to hpc (by simp) rfl rfl rfl hmain (fun h => by cases h)
    case isFalse => cases hstep

end Steps

end tlpi.multijoin
