import Tlpi.Threads.ProdCondvar

namespace tlpi.prod_condvar

section Runs

variable {args : List Int} {s s' : System} {i : Nat} {p p' : Producer} {actions : List Action}

theorem sum_eq_units {args : List Int} (hargs : ∀ arg ∈ args, 0 ≤ arg) : args.sum = units args := by
  induction args with
  | nil => rfl
  | cons arg rest ih =>
    have harg := hargs arg List.mem_cons_self
    have hrest := ih fun a ha => hargs a (List.mem_cons_of_mem _ ha)
    simp only [units, List.map_cons, List.sum_cons] at hrest ⊢
    omega

theorem units_pos_iff {args : List Int} : 0 < units args ↔ ∃ arg ∈ args, 0 < arg := by
  induction args with
  | nil => simp [units]
  | cons arg rest ih =>
    simp only [units, List.map_cons, List.sum_cons, List.exists_mem_cons_iff] at ih ⊢
    rw [← ih]
    omega

theorem inv_of_follow (hfits : Fits args) (hrun : follow step (start args) actions = some s) : Inv args s :=
  follow_invariant (fun _ _ _ _ h => h.step hfits) (Inv.start args) hrun

/-- What has come to an end with the main thread. -/
structure Consumed (args : List Int) (s : System) : Prop where
  stdout : s.main.stdout = numbers s.main.numConsumed
  pos : 1 ≤ s.main.numConsumed
  enough : args.sum ≤ s.main.numConsumed
  le : s.avail + s.main.numConsumed ≤ units args

theorem Inv.consumed (hinv : Inv args s) (hpc : s.main.pc = .exited) : Consumed args s := by
  have hm := hinv.main
  simp only [Main.Ok, hpc] at hm
  obtain ⟨⟨hstdout, hdone⟩, hargs, htrue⟩ := hm
  rw [htrue] at hdone
  obtain ⟨hpos, henough⟩ := of_decide_eq_true hdone.symm
  have hall := hinv.args
  rw [hargs, List.append_nil] at hall
  refine ⟨hstdout, hpos, ?_, ?_⟩
  · rw [← hall, ← hinv.required]
    exact henough
  · have hunits := hinv.accounts
    have hle := hinv.sum_produced_le
    simp only [Main.taken, hpc, MainPc.counted] at hunits
    omega

/-- However the threads are scheduled and woken, at most one of them is inside of the mutex and
    every unit that was produced is in `avail` or consumed, and not both. When the main thread
    exits it has printed the numbers of the consumed units one after the other, and they are at
    least as many as were required. When no argument is negative they are all that there are. -/
theorem runs_consume (args : List Int) (actions : List Action) (s : System) (hfits : Fits args)
    (hrun : follow step (start args) actions = some s) :
    (s.producers.map Producer.inside).sum + s.main.pc.inside ≤ 1 ∧ 0 ≤ s.avail ∧
      s.avail + s.main.taken = (s.producers.map Producer.produced).sum ∧
      (s.main.pc = .exited → Consumed args s ∧
        ((∀ arg ∈ args, 0 ≤ arg) → s.main.numConsumed = units args ∧ s.avail = 0)) := by
  have hinv := inv_of_follow hfits hrun
  refine ⟨?_, hinv.nonneg, hinv.accounts, ?_⟩
  · rw [hinv.mutex]
    split <;> omega
  · intro hpc
    have hconsumed := hinv.consumed hpc
    refine ⟨hconsumed, ?_⟩
    intro hargs
    have heq := sum_eq_units hargs
    have henough := hconsumed.enough
    have hle := hconsumed.le
    have hnonneg := hinv.nonneg
    omega

/-- A run with one unit, for which the main thread waits. -/
def one_unit : List Action :=
  List.replicate 5 Action.main ++ [Action.spurious] ++ List.replicate 3 Action.main ++
  List.replicate 6 (Action.producer 0) ++ List.replicate 9 Action.main

theorem fits_one : Fits [1] := by
  refine ⟨by decide, ?_⟩
  intro k
  cases k <;> simp [INT_MIN]

theorem runs_consume_one_unit : ∃ s, follow step (start [1]) one_unit = some s ∧ s.main.stdout = [1] :=
  ⟨_, rfl, ((runs_consume [1] one_unit _ fits_one rfl).2.2.2 rfl).1.stdout⟩

/-- No thread can go on, unless a waiting ends without a signal. -/
def Quiet (s : System) : Prop := main_step s = none ∧ ∀ i p, s.producers[i]? = some p → producer_step s i p = none

theorem main_blocked (h : main_step s = none) :
    s.main.pc = .exited ∨ s.main.pc = .waiting ∨ s.mtx = true ∧ s.main.pc.inside = 0 := by
  cases hpc : s.main.pc <;> simp only [main_step, hpc, reduceCtorEq] at h
  case waiting => exact .inr (.inl rfl)
  case exited => exact .inl rfl
  case create => split at h <;> cases h
  case lock | relock =>
    split at h
    · exact .inr (.inr ⟨‹_›, rfl⟩)
    · cases h

theorem producer_blocked (h : producer_step s i p = none) :
    p.inside = 0 ∧ ¬ p.Pending ∧ (p.pc = .exited ∨ s.mtx = true) := by
  cases p with
  | mk pc cnt j =>
  cases pc <;> simp only [producer_step, reduceCtorEq] at h
  case exited => exact ⟨rfl, by simp [Producer.Pending], .inl rfl⟩
  case lock =>
    split at h
    · exact ⟨rfl, by simp [Producer.Pending], .inr ‹_›⟩
    · cases h

/-- A mutex that is locked has been locked by a thread that can go on. -/
theorem Inv.unlocked (hinv : Inv args s) (hquiet : Quiet s) (houtside : s.main.pc.inside = 0) : s.mtx = false := by
  have hnobody : (s.producers.map Producer.inside).sum = 0 := by
    refine List.sum_eq_zero ?_
    intro n hn
    obtain ⟨p, hp, rfl⟩ := List.mem_map.mp hn
    obtain ⟨i, hi⟩ := List.getElem?_of_mem hp
    exact (producer_blocked (hquiet.2 i p hi)).1
  have hmutex := hinv.mutex
  by_contra hlocked
  rw [Bool.not_eq_false] at hlocked
  rw [if_pos hlocked] at hmutex
  omega

/-- When nobody can go on, the main thread has exited or waits for a unit where there are none. -/
theorem Inv.ends (hinv : Inv args s) (hquiet : Quiet s) :
    s.main.pc = .exited ∨ s.main.pc = .waiting ∧ units args = 0 := by
  rcases main_blocked hquiet.1 with hpc | hpc | ⟨hlocked, houtside⟩
  · exact .inl hpc
  · have hfree := hinv.unlocked hquiet (by rw [hpc]; rfl)
    have hproducers : ∀ p ∈ s.producers, p.pc = .exited ∧ ¬ p.Pending := by
      intro p hp
      obtain ⟨i, hi⟩ := List.getElem?_of_mem hp
      obtain ⟨-, hpending, hexited⟩ := producer_blocked (hquiet.2 i p hi)
      exact ⟨hexited.resolve_right (by simp [hfree]), hpending⟩
    have hzero : s.avail = 0 := by
      by_contra hne
      have hnonneg := hinv.nonneg
      obtain ⟨p, hp, hpending⟩ := hinv.wake hpc (by omega)
      exact (hproducers p hp).2 hpending
    have hm := hinv.main
    simp only [Main.Ok, hpc] at hm
    obtain ⟨⟨-, hdone⟩, hargs, hfalse⟩ := hm
    have hall := hinv.args
    rw [hargs, List.append_nil] at hall
    have hproduced : (s.producers.map Producer.produced).sum = units args := by
      rw [← hall, units, List.map_map]
      congr 1
      refine List.map_congr_left ?_
      intro p hp
      have hok := hinv.producers p hp
      simp only [Producer.Ok, (hproducers p hp).1] at hok
      simp only [Producer.produced, (hproducers p hp).1, hok, Function.comp_apply]
    have haccounts := hinv.accounts
    rw [hproduced, Main.taken, hpc, hzero] at haccounts
    rw [hfalse, eq_comm, decide_eq_false_iff_not] at hdone
    refine .inr ⟨hpc, ?_⟩
    by_contra hne
    -- all units are consumed, and they are enough
    have hle := sum_le_units args
    rw [hinv.required, hall] at hdone
    simp only [MainPc.counted] at haccounts
    omega
  · rw [hinv.unlocked hquiet houtside] at hlocked
    cases hlocked

/-- What is left of a producer, with what its signals make the main thread do. -/
def Producer.rank (p : Producer) : Nat :=
  match p.pc with
  | .test => 9 * (p.cnt.toNat - p.j) + 1
  | .lock => 9 * (p.cnt.toNat - p.j)
  | .load => 9 * (p.cnt.toNat - p.j) - 1
  | .store _ => 9 * (p.cnt.toNat - p.j) - 2
  | .unlock => 9 * (p.cnt.toNat - p.j) - 3
  | .signal => 9 * (p.cnt.toNat - p.j) - 4
  | .exited => 0

/-- What is left of the main thread up to its next wait or the next unit. -/
def main_rank (avail : Int) : MainPc → Nat
  | .create | .testDone => 7
  | .lock | .relock => 6
  | .testEmpty => 5
  | .wait => 4
  | .waiting | .load => 3
  | .testAvail => if 0 < avail then 4 else 9
  | .store _ => 2
  | .printf => 1
  | .unlock => 8
  | .exited => 0

/-- A bound on the number of steps that are left. -/
def steps_left (args : List Int) (s : System) : Nat :=
  main_rank s.avail s.main.pc + 9 * (units args - s.main.stdout.length) + (s.producers.map Producer.rank).sum +
    (s.main.args.map fun arg => 9 * arg.toNat + 2).sum

theorem main_rank_add_one (avail : Int) (pc : MainPc) : main_rank (avail + 1) pc ≤ main_rank avail pc := by
  cases pc <;> simp only [main_rank, Nat.le_refl]
  split <;> split <;> omega

theorem steps_left_set {mtx' : Bool} {avail' : Int} {m' : Main} (hi : s.producers[i]? = some p)
    (hargs : m'.args = s.main.args) (hstdout : m'.stdout = s.main.stdout)
    (hrank : main_rank avail' m'.pc + p'.rank + 1 ≤ main_rank s.avail s.main.pc + p.rank) :
    steps_left args ⟨mtx', avail', s.producers.set i p', m'⟩ + 1 ≤ steps_left args s := by
  have hsum := sum_set hi p' Producer.rank
  simp only [steps_left, hargs, hstdout]
  omega

theorem steps_left_producer (hfits : Fits args) (hinv : Inv args s) (hi : s.producers[i]? = some p)
    (hstep : producer_step s i p = some s') : steps_left args s' + 1 ≤ steps_left args s := by
  have hp := hinv.producers p (List.mem_of_getElem? hi)
  cases p with
  | mk pc cnt j =>
  cases pc with
  | test =>
    cases hstep
    refine steps_left_set hi rfl rfl ?_
    by_cases hj : (j : Int) < cnt
    · simp only [if_pos hj, Producer.rank]
      omega
    · simp only [if_neg hj, Producer.rank]
      omega
  | lock =>
    simp only [producer_step] at hstep
    split at hstep
    · cases hstep
    · cases hstep
      refine steps_left_set hi rfl rfl ?_
      simp only [Producer.Ok, Producer.rank] at hp ⊢
      omega
  | load =>
    cases hstep
    refine steps_left_set hi rfl rfl ?_
    simp only [Producer.Ok, Producer.rank] at hp ⊢
    omega
  | store value =>
    cases hstep
    obtain ⟨hj, rfl⟩ := hp
    rw [hinv.produce_fits hfits hi]
    refine steps_left_set hi rfl rfl ?_
    have hmain := main_rank_add_one s.avail s.main.pc
    simp only [Producer.rank] at hj ⊢
    omega
  | unlock =>
    cases hstep
    refine steps_left_set hi rfl rfl ?_
    simp only [Producer.Ok, Producer.rank] at hp ⊢
    omega
  | signal =>
    cases hstep
    simp only [Producer.Ok] at hp
    by_cases hw : s.main.pc = .waiting
    · rw [pthread_cond_signal, if_pos hw]
      refine steps_left_set hi rfl rfl ?_
      simp only [System.main_at, hw, main_rank, Producer.rank]
      omega
    · rw [pthread_cond_signal, if_neg hw]
      refine steps_left_set hi rfl rfl ?_
      simp only [Producer.rank]
      omega
  | exited => cases hstep

theorem steps_left_main (hinv : Inv args s) (hstep : main_step s = some s') :
    steps_left args s' + 1 ≤ steps_left args s := by
  have hm := hinv.main
  cases hpc : s.main.pc <;> simp only [main_step, hpc, Option.some.injEq, reduceCtorEq] at hstep
  case create =>
    cases hargs : s.main.args with
    | nil =>
      simp only [hargs, Option.some.injEq] at hstep
      subst hstep
      simp only [steps_left, System.main_at, hpc, main_rank]
      omega
    | cons arg rest =>
      simp only [hargs, Option.some.injEq] at hstep
      subst hstep
      simp only [steps_left, hpc, hargs, List.map_append, List.sum_append, List.map_cons, List.sum_cons,
        List.map_nil, List.sum_nil, Producer.rank]
      omega
  case printf =>
    -- the next unit is one of those that are still to come
    subst hstep
    simp only [Main.Ok, hpc] at hm
    obtain ⟨-, hone, hstdout⟩ := hm
    have haccounts := hinv.accounts
    have hle := hinv.sum_produced_le
    have hnonneg := hinv.nonneg
    have hlen : s.main.stdout.length = (s.main.numConsumed - 1).toNat := by
      rw [hstdout, numbers, List.length_map, List.length_range]
    simp only [Main.taken, hpc, MainPc.counted] at haccounts
    simp only [steps_left, List.length_append, List.length_singleton, hpc, main_rank]
    split <;> omega
  case lock | relock =>
    split at hstep
    · cases hstep
    · cases hstep
      simp only [steps_left, System.main_at, hpc, main_rank]
      omega
  case testEmpty =>
    subst hstep
    have hnonneg := hinv.nonneg
    by_cases hzero : s.avail = 0
    · simp only [steps_left, System.main_at, if_pos hzero, hpc, main_rank]
      omega
    · have hpos : 0 < s.avail := by omega
      simp only [steps_left, System.main_at, if_neg hzero, hpc, main_rank, if_pos hpos]
      omega
  case testAvail =>
    subst hstep
    by_cases hpos : 0 < s.avail
    · simp only [steps_left, System.main_at, gt_iff_lt, if_pos hpos, hpc, main_rank]
      omega
    · simp only [steps_left, System.main_at, gt_iff_lt, if_neg hpos, hpc, main_rank]
      omega
  case testDone =>
    subst hstep
    by_cases hdone : s.main.done = true
    · simp only [steps_left, System.main_at, if_pos hdone, hpc, main_rank]
      omega
    · simp only [steps_left, System.main_at, if_neg hdone, hpc, main_rank]
      omega
  all_goals
    subst hstep
    simp only [steps_left, System.main_at, hpc, main_rank]
    omega

/-- A waiting that ends without a signal is repeated. -/
def Action.cost : Action → Nat
  | .spurious => 4
  | _ => 0

theorem steps_left_step {a : Action} (hfits : Fits args) (hinv : Inv args s) (hstep : step s a = some s') :
    steps_left args s' + 1 ≤ steps_left args s + a.cost := by
  cases a with
  | producer i =>
    simp only [step] at hstep
    split at hstep
    · cases hstep
    · obtain ⟨p, hi, hp⟩ := Option.bind_eq_some_iff.mp hstep
      exact steps_left_producer hfits hinv hi hp
  | main => exact steps_left_main hinv hstep
  | spurious =>
    simp only [step] at hstep
    split at hstep
    · rename_i hpc
      cases hstep
      simp only [steps_left, System.main_at, hpc, main_rank, Action.cost]
      omega
    · cases hstep

theorem steps_left_start (args : List Int) : steps_left args (start args) = 18 * units args + 2 * args.length + 7 := by
  have hsum : (args.map fun arg => 9 * arg.toNat + 2).sum = 9 * units args + 2 * args.length := by
    induction args with
    | nil => rfl
    | cons arg rest ih =>
      simp only [units, List.map_cons, List.sum_cons, List.length_cons] at ih ⊢
      omega
  simp only [steps_left, start, main_rank, List.length_nil, List.map_nil, List.sum_nil, hsum]
  omega

theorem sum_cost (actions : List Action) : (actions.map Action.cost).sum = 4 * actions.count .spurious := by
  induction actions with
  | nil => rfl
  | cons a rest ih =>
    rw [List.map_cons, List.sum_cons, List.count_cons, ih]
    cases a
    case spurious =>
      simp only [Action.cost, beq_self_eq_true, if_true]
      omega
    all_goals simp [Action.cost]

/-- No wake-up is lost: when there is something to consume, the threads can come to a standstill
    only by the exit of the main thread, and up to the wake-ups without a signal all runs come to
    such an end. When there is nothing to consume the main thread never exits. -/
theorem consumer_exits (args : List Int) (actions : List Action) (s : System) (hfits : Fits args)
    (hrun : follow step (start args) actions = some s) :
    actions.length ≤ 18 * units args + 2 * args.length + 7 + 4 * actions.count .spurious ∧
      (s.main.pc = .exited → ∃ arg ∈ args, 0 < arg) ∧
      (Quiet s → (∃ arg ∈ args, 0 < arg) → s.main.pc = .exited) := by
  have hinv := inv_of_follow hfits hrun
  have hkeep : ∀ a ∈ actions, ∀ s s', Inv args s → step s a = some s' → Inv args s' := fun _ _ _ _ h => h.step hfits
  have hlower : ∀ s a s', Inv args s → step s a = some s' → steps_left args s' + 1 ≤ steps_left args s + a.cost :=
    fun _ _ _ h => steps_left_step hfits h
  refine ⟨?_, ?_, ?_⟩
  · have hlen := follow_length_le hkeep hlower (Inv.start args) hrun
    rw [steps_left_start, sum_cost] at hlen
    omega
  · intro hpc
    have hconsumed := hinv.consumed hpc
    have hpos := hconsumed.pos
    have hle := hconsumed.le
    have hnonneg := hinv.nonneg
    exact units_pos_iff.mp (by omega)
  · intro hquiet hargs
    rcases hinv.ends hquiet with h | ⟨-, hzero⟩
    · exact h
    · have hpos := units_pos_iff.mpr hargs
      omega

theorem consumer_exits_one_unit : ∃ s, follow step (start [1]) one_unit = some s ∧ one_unit.length ≤ 31 ∧
    s.main.pc = .exited :=
  ⟨_, rfl, (consumer_exits [1] one_unit _ fits_one rfl).1, rfl⟩

end Runs

end tlpi.prod_condvar
