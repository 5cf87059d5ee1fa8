import Mathlib.Tactic.Ring
import Tlpi.Threads.Multijoin

namespace tlpi.multijoin

section Runs

variable {args : Nat} {s s' : System} {i : Nat} {w w' : Worker} {actions : List Action}

theorem inv_of_follow (hrun : follow step (start args) actions = some s) : Inv args s :=
  follow_invariant (fun _ _ _ _ h => h.step) (Inv.start args) hrun

theorem Worker.Ok.returned_of_joined {numUnjoined : Int} (h : w.Ok numUnjoined) (hw : w.state = .TS_JOINED) :
    w.pc = .returned := by
  cases w with
  | mk pc state =>
    subst hw
    cases pc <;> simp [Worker.Ok] at h ⊢

/-- When nobody is counted as alive, everybody has been joined. -/
theorem Inv.all_joined (hinv : Inv args s) (hpc : s.pc = .exited) :
    s.workers = List.replicate args ⟨.returned, .TS_JOINED⟩ ∧ ∀ i, i ∈ s.stdout.map Prod.fst ↔ i < args := by
  have hmain := hinv.main
  simp only [MainOk, hpc] at hmain
  have hlive := hinv.live (by simp [hpc])
  have hlength : s.workers.length = args := by
    rw [← hinv.created, hmain.1, Nat.add_zero]
  have hjoined : s.workers = List.replicate args ⟨.returned, .TS_JOINED⟩ := by
    refine List.eq_replicate_iff.mpr ⟨hlength, ?_⟩
    intro w hw
    obtain ⟨i, hi⟩ := List.getElem?_of_mem hw
    have hle := le_sum hi Worker.live
    have hstate : w.state = .TS_JOINED := by
      by_contra hne
      simp only [Worker.live, if_neg hne] at hle
      omega
    have hreturned := (hinv.workers w hw).returned_of_joined hstate
    cases w with
    | mk pc state =>
      subst hstate hreturned
      rfl
  refine ⟨hjoined, ?_⟩
  intro i
  have hprinted := hinv.printed.joined i
  simp only [hpc, MainPc.unprinted, Option.toList_none, List.append_nil] at hprinted
  rw [hprinted, hjoined, List.getElem?_replicate]
  split <;> simp [*]

/-- However the threads are scheduled and woken, at most one is inside of the mutex. The main
    thread reaps no thread twice and none that has not returned, and prints how many are left to
    be reaped. When it exits it has reaped all of them. -/
theorem runs_join (args : Nat) (actions : List Action) (s : System)
    (hrun : follow step (start args) actions = some s) :
    (s.workers.map Worker.inside).sum + s.pc.inside ≤ 1 ∧ (s.stdout.map Prod.fst).Nodup ∧
      (∀ i ∈ s.stdout.map Prod.fst, s.workers[i]? = some ⟨.returned, .TS_JOINED⟩) ∧
      (∀ (k i : Nat) (n : Int), s.stdout[k]? = some (i, n) → n = args - 1 - k) ∧
      (s.pc = .exited → s.workers = List.replicate args ⟨.returned, .TS_JOINED⟩ ∧
        ∀ i, i ∈ s.stdout.map Prod.fst ↔ i < args) := by
  have hinv := inv_of_follow hrun
  refine ⟨?_, ?_, ?_, hinv.printed.counts, hinv.all_joined⟩
  · rw [hinv.mutex]
    split <;> omega
  · exact (List.nodup_append.mp hinv.printed.nodup).1
  · intro i hi
    obtain ⟨w, hw, hstate⟩ := (hinv.printed.joined i).mp (List.mem_append_left _ hi)
    have hreturned := (hinv.workers w (List.mem_of_getElem? hw)).returned_of_joined hstate
    cases w with
    | mk pc state =>
      subst hstate hreturned
      exact hw

/-- Two threads, of which the second is the first to end. -/
def two_threads : List Action :=
  List.replicate 3 Action.main ++ List.replicate 6 (Action.worker 1) ++ List.replicate 16 Action.main ++
  [Action.spurious] ++ List.replicate 3 Action.main ++ List.replicate 6 (Action.worker 0) ++
  List.replicate 12 Action.main

theorem runs_join_two_threads : ∃ s, follow step (start 2) two_threads = some s ∧ s.stdout = [(1, 1), (0, 0)] ∧
    s.workers = List.replicate 2 ⟨.returned, .TS_JOINED⟩ :=
  ⟨_, rfl, rfl, ((runs_join 2 two_threads _ rfl).2.2.2.2 rfl).1⟩

theorem main_blocked (hinv : Inv args s) (h : main_step s = none) :
    s.pc = .exited ∨ s.pc = .waiting ∨ (s.mutex = true ∧ s.pc.inside = 0) ∨
      ∃ (i : Nat) (w : Worker), s.workers[i]? = some w ∧ w.state = .TS_TERMINATED ∧ w.pc ≠ .returned := by
  have hmain := hinv.main
  cases hpc : s.pc <;> simp only [main_step, hpc, reduceCtorEq] at h
  case create => split at h <;> cases h
  case lock | relock =>
    split at h
    case isTrue hlocked => exact .inr (.inr (.inl ⟨hlocked, rfl⟩))
    case isFalse => cases h
  case waiting => exact .inr (.inl rfl)
  case scan => split at h <;> cases h
  case join i =>
    simp only [MainOk, hpc] at hmain
    obtain ⟨-, w, hi, hw⟩ := hmain
    rw [hi] at h
    refine .inr (.inr (.inr ⟨i, w, hi, hw, ?_⟩))
    intro hreturned
    simp [hreturned] at h
  case joined i =>
    simp only [MainOk, hpc] at hmain
    obtain ⟨-, w, hi, -⟩ := hmain
    simp [hi] at h
  case exited => exact .inl rfl

theorem worker_blocked (h : worker_step s i w = none) :
    w.inside = 0 ∧ ¬ w.Pending ∧ (w.pc = .returned ∨ w.pc = .lock ∧ s.mutex = true) := by
  cases w with
  | mk pc state =>
  cases pc <;> simp only [worker_step, reduceCtorEq] at h
  case lock =>
    split at h
    case isTrue hlocked => exact ⟨rfl, by simp [Worker.Pending], .inr ⟨rfl, hlocked⟩⟩
    case isFalse => cases h
  case returned => exact ⟨rfl, by simp [Worker.Pending], .inl rfl⟩

theorem Worker.Ok.pending_of_terminated {numUnjoined : Int} (h : w.Ok numUnjoined) (hw : w.state = .TS_TERMINATED)
    (hpc : w.pc ≠ .returned) : w.Pending := by
  cases w with
  | mk pc state =>
    subst hw
    cases pc <;> simp [Worker.Ok, Worker.Pending] at h hpc ⊢

/-- No thread can go on, unless a waiting ends without a signal. -/
def Quiet (s : System) : Prop := main_step s = none ∧ ∀ i w, s.workers[i]? = some w → worker_step s i w = none

/-- A mutex that is locked has been locked by a thread that can go on. -/
theorem Inv.unlocked (hinv : Inv args s) (hquiet : Quiet s) (houtside : s.pc.inside = 0) : s.mutex = false := by
  have hnobody : (s.workers.map Worker.inside).sum = 0 := by
    refine List.sum_eq_zero ?_
    intro n hn
    obtain ⟨w, hw, rfl⟩ := List.mem_map.mp hn
    obtain ⟨i, hi⟩ := List.getElem?_of_mem hw
    exact (worker_blocked (hquiet.2 i w hi)).1
  have hmutex := hinv.mutex
  by_contra hlocked
  rw [Bool.not_eq_false] at hlocked
  rw [if_pos hlocked] at hmutex
  omega

/-- The main thread does not wait for a thread whose signal it has missed. -/
theorem Inv.not_waiting (hinv : Inv args s) (hquiet : Quiet s) : s.pc ≠ .waiting := by
  intro hpc
  have hfree := hinv.unlocked hquiet (by rw [hpc]; rfl)
  have hreturned : ∀ w ∈ s.workers, w.pc = .returned ∧ ¬ w.Pending := by
    intro w hw
    obtain ⟨i, hi⟩ := List.getElem?_of_mem hw
    obtain ⟨-, hpending, hreturned | ⟨-, hlocked⟩⟩ := worker_blocked (hquiet.2 i w hi)
    · exact ⟨hreturned, hpending⟩
    · rw [hfree] at hlocked
      cases hlocked
  have hnone : s.numUnjoined ≤ 0 := by
    by_contra hpos
    obtain ⟨w, hw, hpending⟩ := hinv.wake hpc (Int.not_le.mp hpos)
    exact (hreturned w hw).2 hpending
  have hsame : s.workers.map Worker.live = s.workers.map Worker.unjoined := by
    refine List.map_congr_left ?_
    intro w hw
    simp only [Worker.live, Worker.unjoined, (hreturned w hw).1]
  have hmain := hinv.main
  have hunjoined := hinv.unjoined
  have hlive := hinv.live (by simp [hpc])
  simp only [MainOk, hpc] at hmain
  rw [hpc, ← hsame] at hunjoined
  simp only [MainPc.joining] at hunjoined
  omega

theorem Inv.exited (hinv : Inv args s) (hquiet : Quiet s) : s.pc = .exited := by
  rcases main_blocked hinv hquiet.1 with hpc | hpc | ⟨hlocked, houtside⟩ | ⟨i, w, hi, hw, hpc⟩
  · exact hpc
  · exact absurd hpc (hinv.not_waiting hquiet)
  · rw [hinv.unlocked hquiet houtside] at hlocked
    cases hlocked
  · have hpending := (hinv.workers w (List.mem_of_getElem? hi)).pending_of_terminated hw hpc
    exact absurd hpending (worker_blocked (hquiet.2 i w hi)).2.1

/-- What is left of a thread, with what its signal makes the main thread do. -/
def WorkerPc.rank (args : Nat) : WorkerPc → Nat
  | .lock => args + 11
  | .load => args + 10
  | .store _ => args + 9
  | .terminate => args + 8
  | .unlock => args + 7
  | .signal => args + 6
  | .returned => 0

/-- With the pass of the main thread that reaps it. -/
def Worker.rank (args : Nat) (w : Worker) : Nat :=
  w.pc.rank args + if w.state = .TS_JOINED then 0 else 2 * args + 11

/-- What is left of the main thread up to its next wait or the next thread that it reaps. -/
def main_rank (args : Nat) (workers : List Worker) : MainPc → Nat
  | .create | .unlock => args + 8
  | .testLive => args + 7
  | .lock | .relock => args + 6
  | .testUnjoined => args + 5
  | .wait | .joined _ => 2
  | .waiting => 1
  | .scan idx => if ∃ w ∈ workers.drop idx, w.state = .TS_TERMINATED then args - idx + 4 else args - idx + args + 9
  | .join _ => 3
  | .load _ => 2 * args + 12
  | .store _ _ => 2 * args + 11
  | .printf _ => 2 * args + 10
  | .exited => 0

/-- A bound on the number of steps that are left. -/
def steps_left (args : Nat) (s : System) : Nat :=
  main_rank args s.workers s.pc + (s.workers.map (Worker.rank args)).sum + s.left * (3 * args + 23)

/-- A thread that terminates can only shorten the pass over the array. -/
theorem main_rank_set (hi : s.workers[i]? = some w) (hw : w.state = .TS_TERMINATED → w'.state = .TS_TERMINATED)
    (pc : MainPc) : main_rank args (s.workers.set i w') pc ≤ main_rank args s.workers pc := by
  cases pc <;> simp only [main_rank, Nat.le_refl]
  case scan idx =>
    by_cases hsome : ∃ u ∈ s.workers.drop idx, u.state = .TS_TERMINATED
    · have hsome' : ∃ u ∈ (s.workers.set i w').drop idx, u.state = .TS_TERMINATED := by
        rw [List.drop_set]
        split
        case isTrue => exact hsome
        case isFalse hlt =>
          have hdrop : (s.workers.drop idx)[i - idx]? = some w := by
            rw [List.getElem?_drop, Nat.add_sub_cancel' (Nat.not_lt.mp hlt)]
            exact hi
          exact exists_set hsome hdrop hw
      rw [if_pos hsome, if_pos hsome']
    · rw [if_neg hsome]
      split <;> omega

theorem steps_left_set {mutex' : Bool} {numUnjoined' : Int} {pc' : MainPc} (hi : s.workers[i]? = some w)
    (hw : w.state = .TS_TERMINATED → w'.state = .TS_TERMINATED)
    (hrank : main_rank args s.workers pc' + w'.rank args + 1 ≤ main_rank args s.workers s.pc + w.rank args) :
    steps_left args { s with mutex := mutex', numUnjoined := numUnjoined', workers := s.workers.set i w', pc := pc' } + 1 ≤
      steps_left args s := by
  have hsum := sum_set hi w' (Worker.rank args)
  have hmain : main_rank args (s.workers.set i w') pc' ≤ main_rank args s.workers pc' := main_rank_set hi hw pc'
  simp only [steps_left]
  omega

theorem steps_left_worker (hinv : Inv args s) (hi : s.workers[i]? = some w) (hstep : worker_step s i w = some s') :
    steps_left args s' + 1 ≤ steps_left args s := by
  have hw := hinv.workers w (List.mem_of_getElem? hi)
  cases w with
  | mk pc state =>
  cases pc with
  | lock =>
    simp only [worker_step] at hstep
    split at hstep
    case isTrue => cases hstep
    case isFalse =>
      cases hstep
      refine steps_left_set hi id ?_
      simp only [Worker.rank, WorkerPc.rank]
      omega
  | terminate =>
    cases hstep
    have hstate : state = .TS_ALIVE := hw
    subst hstate
    refine steps_left_set hi (fun _ => rfl) ?_
    simp only [Worker.rank, WorkerPc.rank, reduceCtorEq, if_false]
    omega
  | signal =>
    cases hstep
    by_cases hwaiting : s.pc = .waiting
    · rw [pthread_cond_signal, if_pos hwaiting]
      refine steps_left_set hi id ?_
      simp only [hwaiting, main_rank, Worker.rank, WorkerPc.rank]
      omega
    · rw [pthread_cond_signal, if_neg hwaiting]
      refine steps_left_set hi id ?_
      simp only [Worker.rank, WorkerPc.rank]
      omega
  | returned => cases hstep
  | load | store | unlock =>
    cases hstep
    refine steps_left_set hi id ?_
    simp only [Worker.rank, WorkerPc.rank]
    omega

theorem steps_left_main_to {mutex' : Bool} {numUnjoined' numLive' : Int} {stdout' : List (Nat × Int)} {pc' : MainPc}
    (hrank : main_rank args s.workers pc' + 1 ≤ main_rank args s.workers s.pc) :
    steps_left args { s with mutex := mutex', numUnjoined := numUnjoined', numLive := numLive', stdout := stdout', pc := pc' } +
      1 ≤ steps_left args s := by
  simp only [steps_left]
  omega

/-- Where threads are counted, one of the array can be joined. -/
theorem Inv.exists_terminated (hinv : Inv args s) (hinside : s.pc.inside = 1) (hjoining : s.pc.joining = 0)
    (hne : s.numUnjoined ≠ 0) : ∃ w ∈ s.workers, w.state = .TS_TERMINATED := by
  by_contra hnone
  refine hne ?_
  rw [hinv.unjoined, hjoining]
  have hzero : (s.workers.map Worker.unjoined).sum = 0 := by
    refine List.sum_eq_zero ?_
    intro n hn
    obtain ⟨w, hw, rfl⟩ := List.mem_map.mp hn
    obtain ⟨i, hi⟩ := List.getElem?_of_mem hw
    have hok := hinv.workers w hw
    have hstate : w.state ≠ .TS_TERMINATED := fun h => hnone ⟨w, hw, h⟩
    have houtside : w.inside = 0 := by
      by_contra hin
      have hone : w.inside = 1 := by
        cases w with
        | mk pc state => cases pc <;> simp [Worker.inside] at hin ⊢
      have hmain := (hinv.outside_main hi hone).2
      omega
    cases w with
    | mk pc state =>
      cases pc <;> cases state <;> simp [Worker.unjoined, Worker.Ok, Worker.inside] at hok hstate houtside ⊢
  rw [hzero]
  rfl

theorem steps_left_scan {idx : Nat} (hinv : Inv args s) (hpc : s.pc = .scan idx) (hstep : main_step s = some s') :
    steps_left args s' + 1 ≤ steps_left args s := by
  have hmain := hinv.main
  simp only [MainOk, hpc] at hmain
  have hlength := hinv.created
  simp only [main_step, hpc] at hstep
  cases hi : s.workers[idx]? with
  | none =>
    simp only [hi, Option.some.injEq] at hstep
    subst hstep
    refine steps_left_main_to ?_
    have hdrop : s.workers.drop idx = [] := List.drop_eq_nil_of_le (List.getElem?_eq_none_iff.mp hi)
    simp only [hpc, main_rank, hdrop, List.not_mem_nil, false_and, exists_false, if_false]
    omega
  | some w =>
    simp only [hi, Option.some.injEq] at hstep
    subst hstep
    obtain ⟨hlt, hget⟩ := List.getElem?_eq_some_iff.mp hi
    have hdrop : s.workers.drop idx = w :: s.workers.drop (idx + 1) := by
      rw [List.drop_eq_getElem_cons hlt, hget]
    refine steps_left_main_to ?_
    rw [hpc]
    by_cases hw : w.state = .TS_TERMINATED
    · simp only [if_pos hw, main_rank]
      split <;> omega
    · have hsame : (∃ u ∈ s.workers.drop idx, u.state = .TS_TERMINATED) ↔
          ∃ u ∈ s.workers.drop (idx + 1), u.state = .TS_TERMINATED := by
        rw [hdrop, List.exists_mem_cons_iff, or_iff_right hw]
      simp only [if_neg hw, main_rank]
      by_cases hsome : ∃ u ∈ s.workers.drop (idx + 1), u.state = .TS_TERMINATED
      · rw [if_pos hsome, if_pos (hsame.mpr hsome)]
        omega
      · rw [if_neg hsome, if_neg fun h => hsome (hsame.mp h)]
        omega

theorem steps_left_main (hinv : Inv args s) (hstep : main_step s = some s') :
    steps_left args s' + 1 ≤ steps_left args s := by
  have hmain := hinv.main
  cases hpc : s.pc
  case scan => exact steps_left_scan hinv hpc hstep
  all_goals simp only [main_step, hpc, Option.some.injEq, reduceCtorEq] at hstep
  all_goals simp only [MainOk, hpc] at hmain
  case create =>
    cases hleft : s.left with
    | zero =>
      simp only [hleft, Option.some.injEq] at hstep
      subst hstep
      simp only [steps_left, hpc, main_rank]
      omega
    | succ left =>
      simp only [hleft, Option.some.injEq] at hstep
      subst hstep
      simp only [steps_left, hleft, hpc, main_rank, List.map_append, List.sum_append, List.map_cons, List.sum_cons,
        List.map_nil, List.sum_nil, Worker.rank, WorkerPc.rank, reduceCtorEq, if_false, Nat.add_mul]
      omega
  case testLive =>
    subst hstep
    refine steps_left_main_to ?_
    rw [hpc]
    split <;> simp only [main_rank] <;> omega
  case lock | relock =>
    split at hstep
    case isTrue => cases hstep
    case isFalse =>
      cases hstep
      refine steps_left_main_to ?_
      simp only [hpc, main_rank]
      omega
  case testUnjoined =>
    subst hstep
    refine steps_left_main_to ?_
    by_cases hzero : s.numUnjoined = 0
    · simp only [if_pos hzero, hpc, main_rank]
      omega
    · have hsome : ∃ w ∈ s.workers.drop 0, w.state = .TS_TERMINATED :=
        hinv.exists_terminated (by rw [hpc]; rfl) (by rw [hpc]; rfl) hzero
      simp only [if_neg hzero, hpc, main_rank, if_pos hsome]
      omega
  case join idx =>
    split at hstep
    case isFalse => cases hstep
    case isTrue =>
      cases hstep
      refine steps_left_main_to ?_
      simp only [hpc, main_rank]
      omega
  case joined idx =>
    -- the pass that reaps this thread is paid for by the thread
    obtain ⟨-, w, hi, hw, hreturned⟩ := hmain
    simp only [hi, Option.some.injEq] at hstep
    subst hstep
    have hsum := sum_set hi { w with state := .TS_JOINED } (Worker.rank args)
    have hbefore : w.rank args = 2 * args + 11 := by simp [Worker.rank, WorkerPc.rank, hreturned, hw]
    have hafter : ({ w with state := .TS_JOINED } : Worker).rank args = 0 := by
      simp [Worker.rank, WorkerPc.rank, hreturned]
    simp only [steps_left, System.set_worker, hpc, main_rank]
    omega
  case printf idx =>
    subst hstep
    refine steps_left_main_to ?_
    simp only [hpc, main_rank]
    split <;> omega
  all_goals
    subst hstep
    refine steps_left_main_to ?_
    simp only [hpc, main_rank]
    omega

/-- A waiting that ends without a signal is repeated. -/
def Action.cost (args : Nat) : Action → Nat
  | .spurious => args + 6
  | _ => 0

theorem steps_left_step {a : Action} (hinv : Inv args s) (hstep : step s a = some s') :
    steps_left args s' + 1 ≤ steps_left args s + a.cost args := by
  cases a with
  | worker idx =>
    simp only [step] at hstep
    split at hstep
    case isTrue => cases hstep
    case isFalse =>
      obtain ⟨w, hi, hw⟩ := Option.bind_eq_some_iff.mp hstep
      exact steps_left_worker hinv hi hw
  | main => exact steps_left_main hinv hstep
  | spurious =>
    simp only [step] at hstep
    split at hstep
    case isTrue hpc =>
      cases hstep
      simp only [steps_left, hpc, main_rank, Action.cost]
      omega
    case isFalse => cases hstep

theorem sum_cost (args : Nat) (actions : List Action) :
    (actions.map (Action.cost args)).sum = (args + 6) * actions.count .spurious := by
  induction actions with
  | nil => rfl
  | cons a rest ih =>
    rw [List.map_cons, List.sum_cons, List.count_cons, ih]
    cases a
    case spurious =>
      simp only [Action.cost, beq_self_eq_true, if_true, Nat.mul_add]
      omega
    all_goals simp [Action.cost]

/-- No signal is lost: however the threads are scheduled and woken, they can come to a standstill
    only by the exit of the main thread, and up to the wake-ups without a signal all runs come to
    such an end. -/
theorem multijoin_exits (args : Nat) (actions : List Action) (s : System)
    (hrun : follow step (start args) actions = some s) :
    actions.length ≤ 3 * args * args + 24 * args + 8 + (args + 6) * actions.count .spurious ∧
      (Quiet s → s.pc = .exited) := by
  have hinv := inv_of_follow hrun
  refine ⟨?_, hinv.exited⟩
  have hkeep : ∀ a ∈ actions, ∀ s s', Inv args s → step s a = some s' → Inv args s' := fun _ _ _ _ h => h.step
  have hlen := follow_length_le hkeep (fun _ _ _ h => steps_left_step h) (Inv.start args) hrun
  have hstart : steps_left args (start args) = 3 * args * args + 24 * args + 8 := by
    simp only [steps_left, start, main_rank, List.map_nil, List.sum_nil]
    ring
  rw [hstart, sum_cost] at hlen
  omega

theorem multijoin_exits_two_threads : ∃ s, follow step (start 2) two_threads = some s ∧ two_threads.length ≤ 76 ∧
    s.pc = .exited :=
  ⟨_, rfl, (multijoin_exits 2 two_threads _ rfl).1, rfl⟩

end Runs

end tlpi.multijoin
