import Tlpi.Lib.Interleave
import Tlpi.Lib.Threads

namespace tlpi.multi_sigchld

/-- A child process, which stays a zombie until the parent has waited for it. -/
inductive Child where
  | running
  | zombie
  | reaped
deriving DecidableEq

/-- Where `main` is: before the named call. `suspended` is inside of `sigsuspend`. -/
inductive Pc where
  | sigaction
  | sigprocmask
  | fork
  | test
  | sigsuspend
  | suspended
  | count
  | exited
deriving DecidableEq

/-- Where the handler is, with the child that `waitpid` has returned. -/
inductive HandlerPc where
  | waitpid
  | decrement (child : Nat)
  | returns
deriving DecidableEq

/-- The parent with its signal mask and its one pending `SIGCHLD`, and the children. -/
structure System where
  pc : Pc
  /-- The handler, while it runs. -/
  handler : Option HandlerPc
  installed : Bool
  blocked : Bool
  pending : Bool
  /-- The arguments for which no child has been created yet. -/
  left : Nat
  children : List Child
  numLiveChildren : Int
  sigCnt : Nat
  /-- The children that the handler has reported. -/
  stdout : List Nat
deriving DecidableEq

/-- The next step of `main`. It waits while the handler runs. -/
def main_step (s : System) : Option System :=
  if s.handler.isSome then none
  else
    match s.pc with
    | .sigaction => some { s with pc := .sigprocmask, installed := true }
    | .sigprocmask => some { s with pc := .fork, blocked := true }
    | .fork =>
      match s.left with
      | 0 => some { s with pc := .test }
      | left + 1 => some { s with left, children := s.children ++ [.running] }
    | .test => some { s with pc := if s.numLiveChildren > 0 then .sigsuspend else .exited }
    | .sigsuspend => some { s with pc := .suspended, blocked := false }
    | .suspended => none
    | .count => some { s with pc := .test, sigCnt := s.sigCnt + 1 }
    | .exited => none

/-- A pending signal that is not blocked is delivered, and blocked while the handler runs. -/
def deliver (s : System) : Option System :=
  if s.pending ∧ ¬ s.blocked then
    some { s with pending := false, blocked := s.installed, handler := if s.installed then some .waitpid else none }
  else none

/-- The next step of the handler. `waitpid` returns one of the zombies, if there is any, and else
    0 or an error. `sigsuspend` returns with the mask that was set before it. -/
def handler_step (s : System) (child : Nat) : Option System :=
  match s.handler with
  | none => none
  | some .waitpid =>
    if s.children[child]? = some .zombie then
      some { s with
        children := s.children.set child .reaped
        handler := some (.decrement child)
        stdout := s.stdout ++ [child] }
    else if .zombie ∈ s.children then none
    else some { s with handler := some .returns }
  | some (.decrement _) =>
    some { s with handler := some .waitpid, numLiveChildren := s.numLiveChildren - 1 }
  | some .returns =>
    if s.pc = .suspended then some { s with handler := none, pc := .count, blocked := true }
    else some { s with handler := none, blocked := false }

/-- What can happen: `main` or the handler goes on, the signal is delivered, a child exits, or a
    child is stopped or continued, which is a `SIGCHLD` too. -/
inductive Action where
  | main
  | handler (child : Nat)
  | deliver
  | exit (child : Nat)
  | stop (child : Nat)
deriving DecidableEq

def step (s : System) : Action → Option System
  | .main => main_step s
  | .handler child => handler_step s child
  | .deliver => if s.pc = .exited then none else deliver s
  | .exit child =>
    if s.children[child]? = some .running then
      some { s with children := s.children.set child .zombie, pending := true }
    else none
  | .stop child => if s.children[child]? = some .running then some { s with pending := true } else none

/-- The program with so many arguments. -/
def start (args : Nat) : System where
  pc := .sigaction
  handler := none
  installed := false
  blocked := false
  pending := false
  left := args
  children := []
  numLiveChildren := args
  sigCnt := 0
  stdout := []

/-- A child that is counted as alive. -/
def Child.live : Child → Nat
  | .reaped => 0
  | _ => 1

/-- What holds at each place of `main`. -/
def MainOk (s : System) : Prop :=
  match s.pc with
  | .sigaction => s.handler = none ∧ s.pending = false ∧ s.children = []
  | .sigprocmask => s.handler = none ∧ s.pending = false ∧ s.children = [] ∧ s.installed = true
  | .fork => s.handler = none ∧ s.blocked = true ∧ s.installed = true
  | .test | .count => s.handler = none ∧ s.blocked = true ∧ s.installed = true ∧ s.left = 0
  | .sigsuspend =>
    s.handler = none ∧ s.blocked = true ∧ s.installed = true ∧ s.left = 0 ∧ 0 < s.numLiveChildren
  | .suspended =>
    s.installed = true ∧ s.left = 0 ∧ s.blocked = s.handler.isSome ∧ (s.handler = none → 0 < s.numLiveChildren)
  | .exited => s.handler = none ∧ s.left = 0 ∧ s.numLiveChildren ≤ 0

/-- The handler will call `waitpid` again. -/
def Searching (s : System) : Prop := s.handler = some .waitpid ∨ ∃ child, s.handler = some (.decrement child)

structure Inv (args : Nat) (s : System) : Prop where
  created : s.children.length + s.left = args
  live : s.numLiveChildren = (s.children.map Child.live).sum + s.left +
    match s.handler with
    | some (.decrement _) => 1
    | _ => 0
  main : MainOk s
  /-- No zombie is left to a parent that nobody will wake. -/
  wake : .zombie ∈ s.children → s.pending = true ∨ Searching s
  reported : s.stdout.Nodup
  mem_stdout : ∀ i, i ∈ s.stdout ↔ s.children[i]? = some .reaped

section Steps

variable {args : Nat} {s s' : System} {child : Nat}

theorem Inv.start (args : Nat) : Inv args (start args) where
  created := by simp [multi_sigchld.start]
  live := by simp [multi_sigchld.start]
  main := ⟨rfl, rfl, rfl⟩
  wake := by simp [multi_sigchld.start]
  reported := List.nodup_nil
  mem_stdout := by simp [multi_sigchld.start]

/-- The handler runs only inside of `sigsuspend`. -/
theorem Inv.suspended (hinv : Inv args s) (hhandler : s.handler ≠ none) :
    s.pc = .suspended ∧ s.installed = true ∧ s.left = 0 ∧ s.blocked = true := by
  have hmain := hinv.main
  cases hpc : s.pc <;> simp only [MainOk, hpc] at hmain
  case suspended =>
    refine ⟨rfl, hmain.1, hmain.2.1, ?_⟩
    rw [hmain.2.2.1, Option.isSome_iff_ne_none]
    exact hhandler
  all_goals exact absurd hmain.1 hhandler

/-- Where there is a child, the mask has been set. -/
theorem Inv.created_after (hinv : Inv args s) {c : Child} (hchild : s.children[child]? = some c) :
    s.pc ≠ .sigaction ∧ s.pc ≠ .sigprocmask := by
  have hmain := hinv.main
  have hne : s.children ≠ [] := fun h => by simp [h] at hchild
  constructor
  · intro hpc
    simp only [MainOk, hpc] at hmain
    exact hne hmain.2.2
  · intro hpc
    simp only [MainOk, hpc] at hmain
    exact hne hmain.2.2.1

/-- A step of `main` outside of the `fork` loop. -/
theorem Inv.main_to {pc : Pc} {blocked installed : Bool} {sigCnt : Nat} (hinv : Inv args s)
    (hmain : MainOk { s with pc, blocked, installed, sigCnt }) : Inv args { s with pc, blocked, installed, sigCnt } :=
  ⟨hinv.created, hinv.live, hmain, hinv.wake, hinv.reported, hinv.mem_stdout⟩

theorem Inv.fork {left : Nat} (hinv : Inv args s) (hpc : s.pc = .fork) (hleft : s.left = left + 1) :
    Inv args { s with left, children := s.children ++ [.running] } := by
  have hmain := hinv.main
  simp only [MainOk, hpc] at hmain
  exact
    { created := by
        have hcreated := hinv.created
        simp only [List.length_append, List.length_singleton]
        omega
      live := by
        have hlive := hinv.live
        simp only [hmain.1, hleft] at hlive
        simp only [hmain.1, hlive, List.map_append, List.sum_append, List.map_cons, List.map_nil, List.sum_cons,
          List.sum_nil, Child.live]
        omega
      main := by
        simp only [MainOk, hpc]
        exact hmain
      wake := by
        intro hzombie
        simp only [List.mem_append, List.mem_singleton, reduceCtorEq, or_false] at hzombie
        exact hinv.wake hzombie
      reported := hinv.reported
      mem_stdout := by
        intro i
        rw [hinv.mem_stdout i, List.getElem?_append]
        split
        · rfl
        · rename_i hlong
          rw [List.getElem?_eq_none (Nat.not_lt.mp hlong)]
          cases i - s.children.length <;> simp }

theorem Inv.main_step (hinv : Inv args s) (hstep : main_step s = some s') : Inv args s' := by
  have hmain := hinv.main
  unfold multi_sigchld.main_step at hstep
  split at hstep
  · cases hstep
  · rename_i hnone
    rw [Option.not_isSome_iff_eq_none] at hnone
    cases hpc : s.pc <;> simp only [hpc, Option.some.injEq, reduceCtorEq] at hstep <;> simp only [MainOk, hpc] at hmain
    case sigaction =>
      subst hstep
      exact hinv.main_to ⟨hmain.1, hmain.2.1, hmain.2.2, rfl⟩
    case sigprocmask =>
      subst hstep
      exact hinv.main_to ⟨hmain.1, rfl, hmain.2.2.2⟩
    case fork =>
      cases hleft : s.left with
      | zero =>
        simp only [hleft, Option.some.injEq] at hstep
        subst hstep
        exact hleft ▸ hinv.main_to ⟨hmain.1, hmain.2.1, hmain.2.2, hleft⟩
      | succ left =>
        simp only [hleft, Option.some.injEq] at hstep
        subst hstep
        rw [← hpc]
        exact hinv.fork hpc hleft
    case test =>
      subst hstep
      by_cases hlive : s.numLiveChildren > 0
      · rw [if_pos hlive]
        exact hinv.main_to ⟨hmain.1, hmain.2.1, hmain.2.2.1, hmain.2.2.2, hlive⟩
      · rw [if_neg hlive]
        exact hinv.main_to ⟨hmain.1, hmain.2.2.2, Int.not_lt.mp hlive⟩
    case sigsuspend =>
      subst hstep
      refine hinv.main_to ⟨hmain.2.2.1, hmain.2.2.2.1, ?_, fun _ => hmain.2.2.2.2⟩
      rw [hnone]
      rfl
    case count =>
      subst hstep
      exact hinv.main_to hmain

/-- Only `sigsuspend` lets the signal through. -/
theorem Inv.deliver (hinv : Inv args s) (hpc : s.pc ≠ .exited) (hstep : deliver s = some s') : Inv args s' := by
  have hmain := hinv.main
  unfold multi_sigchld.deliver at hstep
  split at hstep
  case isFalse => cases hstep
  case isTrue hdeliver =>
    obtain ⟨hpending, hblocked⟩ := hdeliver
    cases hstep
    cases hpc' : s.pc <;> simp only [MainOk, hpc'] at hmain
    case suspended =>
      have hnone : s.handler = none := by
        rw [hmain.2.2.1, Option.not_isSome_iff_eq_none] at hblocked
        exact hblocked
      have hlive := hinv.live
      simp only [hnone] at hlive
      rw [if_pos hmain.1]
      refine ⟨hinv.created, ?_, ?_, fun _ => .inr (.inl rfl), hinv.reported, hinv.mem_stdout⟩
      · exact hlive
      · exact ⟨hmain.1, hmain.2.1, hmain.1, fun h => by cases h⟩
    case sigaction | sigprocmask => simp [hmain.2.1] at hpending
    case exited => exact absurd hpc' hpc
    all_goals exact absurd hmain.2.1 hblocked

/-- A child that is reaped is reported, and it has not been reported before. -/
theorem Inv.reap (hinv : Inv args s) (hhandler : s.handler = some .waitpid) (hzombie : s.children[child]? = some .zombie) :
    Inv args { s with
      children := s.children.set child .reaped
      handler := some (.decrement child)
      stdout := s.stdout ++ [child] } := by
  obtain ⟨hpc, hinstalled, hleft, hblocked⟩ := hinv.suspended (by rw [hhandler]; exact Option.some_ne_none _)
  have hlt : child < s.children.length := (List.getElem?_eq_some_iff.mp hzombie).1
  have hnew : child ∉ s.stdout := by
    rw [hinv.mem_stdout, hzombie]
    simp
  exact
    { created := by
        rw [← hinv.created, List.length_set]
      live := by
        have hlive := hinv.live
        have hset := sum_set hzombie .reaped Child.live
        simp only [hhandler] at hlive
        simp only [Child.live] at hset
        simp only [hlive]
        omega
      main := by
        simp only [MainOk, hpc]
        exact ⟨hinstalled, hleft, hblocked, fun h => by cases h⟩
      wake := fun _ => .inr (.inr ⟨child, rfl⟩)
      reported := List.nodup_append.mpr ⟨hinv.reported, by simp, by
        intro i hi k hk heq
        rw [List.mem_singleton] at hk
        subst hk heq
        exact hnew hi⟩
      mem_stdout := by
        intro i
        rw [List.mem_append, List.mem_singleton, hinv.mem_stdout]
        by_cases hi : i = child
        · subst hi
          simp [List.getElem?_set_self hlt]
        · rw [List.getElem?_set_ne (Ne.symm hi)]
          simp [hi] }

theorem Inv.handler_step (hinv : Inv args s) (hstep : handler_step s child = some s') : Inv args s' := by
  cases hhandler : s.handler with
  | none => simp [multi_sigchld.handler_step, hhandler] at hstep
  | some pc =>
    obtain ⟨hpc, hinstalled, hleft, hblocked⟩ := hinv.suspended (by rw [hhandler]; exact Option.some_ne_none pc)
    have hlive := hinv.live
    cases pc <;> simp only [multi_sigchld.handler_step, hhandler] at hlive hstep
    case waitpid =>
      split at hstep
      case isTrue hzombie =>
        cases hstep
        exact hinv.reap hhandler hzombie
      case isFalse =>
        split at hstep
        case isTrue => cases hstep
        case isFalse hnone =>
          cases hstep
          refine ⟨hinv.created, hlive, ?_, fun h => absurd h hnone, hinv.reported, hinv.mem_stdout⟩
          simp only [MainOk, hpc]
          exact ⟨hinstalled, hleft, hblocked, fun h => by cases h⟩
    case decrement reported =>
      cases hstep
      refine ⟨hinv.created, ?_, ?_, fun _ => .inr (.inl rfl), hinv.reported, hinv.mem_stdout⟩
      · simp only [hlive]
        omega
      · simp only [MainOk, hpc]
        exact ⟨hinstalled, hleft, hblocked, fun h => by cases h⟩
    case returns =>
      rw [if_pos hpc] at hstep
      cases hstep
      refine ⟨hinv.created, hlive, ⟨rfl, rfl, hinstalled, hleft⟩, ?_, hinv.reported, hinv.mem_stdout⟩
      intro hzombie
      refine .inl ((hinv.wake hzombie).resolve_right ?_)
      rintro (h | ⟨_, h⟩) <;> simp [hhandler] at h

theorem Inv.exit (hinv : Inv args s) (hrunning : s.children[child]? = some .running) :
    Inv args { s with children := s.children.set child .zombie, pending := true } := by
  have hlt : child < s.children.length := (List.getElem?_eq_some_iff.mp hrunning).1
  obtain ⟨hfirst, hsecond⟩ := hinv.created_after hrunning
  exact
    { created := by rw [← hinv.created, List.length_set]
      live := by
        have hset := sum_set hrunning .zombie Child.live
        simp only [Child.live] at hset
        rw [hinv.live]
        simp only
        omega
      main := by
        have hmain := hinv.main
        cases hpc : s.pc <;> simp only [MainOk, hpc] at hmain ⊢
        case sigaction => exact absurd hpc hfirst
        case sigprocmask => exact absurd hpc hsecond
        all_goals exact hmain
      wake := fun _ => .inl rfl
      reported := hinv.reported
      mem_stdout := by
        intro i
        rw [hinv.mem_stdout]
        by_cases hi : i = child
        · subst hi
          simp [List.getElem?_set_self hlt, hrunning]
        · rw [List.getElem?_set_ne (Ne.symm hi)] }

theorem Inv.stop (hinv : Inv args s) (hrunning : s.children[child]? = some .running) :
    Inv args { s with pending := true } := by
  obtain ⟨hfirst, hsecond⟩ := hinv.created_after hrunning
  refine ⟨hinv.created, hinv.live, ?_, fun _ => .inl rfl, hinv.reported, hinv.mem_stdout⟩
  have hmain := hinv.main
  cases hpc : s.pc <;> simp only [MainOk, hpc] at hmain ⊢
  case sigaction => exact absurd hpc hfirst
  case sigprocmask => exact absurd hpc hsecond
  all_goals exact hmain

theorem Inv.step {a : Action} (hinv : Inv args s) (hstep : step s a = some s') : Inv args s' := by
  cases a with
  | main => exact hinv.main_step hstep
  | handler child => exact hinv.handler_step hstep
  | deliver =>
    simp only [multi_sigchld.step] at hstep
    split at hstep
    case isTrue => cases hstep
    case isFalse hpc => exact hinv.deliver hpc hstep
  | exit child =>
    simp only [multi_sigchld.step] at hstep
    split at hstep
    case isTrue hrunning =>
      cases hstep
      exact hinv.exit hrunning
    case isFalse => cases hstep
  | stop child =>
    simp only [multi_sigchld.step] at hstep
    split at hstep
    case isTrue hrunning =>
      cases hstep
      exact hinv.stop hrunning
    case isFalse => cases hstep

end Steps

section Runs

variable {args : Nat} {s s' : System} {child : Nat} {actions : List Action}

theorem inv_of_follow (hrun : follow step (start args) actions = some s) : Inv args s :=
  follow_invariant (fun _ _ _ _ h => h.step) (Inv.start args) hrun

/-- Two children that exit before their parent waits for them, with one signal for both. -/
def two_children : List Action :=
  List.replicate 4 Action.main ++ [Action.exit 1, .exit 0] ++ List.replicate 3 Action.main ++
  [Action.deliver, .handler 0, .handler 0] ++ List.replicate 4 (Action.handler 1) ++ List.replicate 2 Action.main

/-- Nothing can happen but in the children, which have all exited. -/
theorem exited_of_stuck (hinv : Inv args s) (hstuck : Stuck step s) : s.pc = .exited := by
  have hmain := hinv.main
  have hmain_step : main_step s = none := hstuck .main
  have hno_running : .running ∉ s.children := by
    intro hmem
    obtain ⟨i, hi⟩ := List.getElem?_of_mem hmem
    have hexit := hstuck (.exit i)
    simp [step, hi] at hexit
  cases hhandler : s.handler with
  | some pc =>
    -- the handler always goes on
    exfalso
    cases pc with
    | waitpid =>
      by_cases hzombie : .zombie ∈ s.children
      · obtain ⟨i, hi⟩ := List.getElem?_of_mem hzombie
        have hreap := hstuck (.handler i)
        simp [step, handler_step, hhandler, hi] at hreap
      · have hreturn := hstuck (.handler s.children.length)
        simp [step, handler_step, hhandler, hzombie] at hreturn
    | decrement child =>
      have hdecrement := hstuck (.handler child)
      simp [step, handler_step, hhandler] at hdecrement
    | returns =>
      have hreturn := hstuck (.handler 0)
      simp only [step, handler_step, hhandler] at hreturn
      split at hreturn <;> cases hreturn
  | none =>
    cases hpc : s.pc <;> simp only [main_step, hhandler, hpc, Option.isSome_none, Bool.false_eq_true, if_false,
      reduceCtorEq] at hmain_step
    case exited => rfl
    case fork => split at hmain_step <;> cases hmain_step
    case suspended =>
      exfalso
      simp only [MainOk, hpc, hhandler] at hmain
      obtain ⟨-, hleft, hblocked, hpositive⟩ := hmain
      have hpending : s.pending = false := by
        have hdeliver := hstuck .deliver
        by_contra hpending
        simp [step, hpc, deliver, hpending, hblocked] at hdeliver
      have hno_zombie : .zombie ∉ s.children := by
        intro hzombie
        rcases hinv.wake hzombie with h | h | ⟨_, h⟩
        · simp [hpending] at h
        · simp [hhandler] at h
        · simp [hhandler] at h
      have hzero : (s.children.map Child.live).sum = 0 := by
        refine List.sum_eq_zero ?_
        intro n hn
        obtain ⟨c, hc, rfl⟩ := List.mem_map.mp hn
        cases c with
        | running => exact absurd hc hno_running
        | zombie => exact absurd hc hno_zombie
        | reaped => rfl
      have hlive := hinv.live
      simp only [hhandler, hleft, hzero] at hlive
      have hpos := hpositive trivial
      omega

/-- What is left to be done about a child, with the signal of its exit. -/
def Child.rank : Child → Nat
  | .running => 9
  | .zombie => 2
  | .reaped => 0

def Pc.rank : Pc → Nat
  | .sigaction => 5
  | .sigprocmask => 4
  | .fork | .count => 3
  | .test => 2
  | .sigsuspend => 1
  | .suspended | .exited => 0

def handler_rank : Option HandlerPc → Nat
  | some (.decrement _) => 6
  | some .waitpid => 5
  | some .returns => 4
  | none => 0

/-- A bound on the number of steps that are left. -/
def steps_left (s : System) : Nat :=
  s.pc.rank + handler_rank s.handler + 6 * s.pending.toNat + 10 * s.left + (s.children.map Child.rank).sum

/-- A child that is stopped is the reason for one more call of the handler. -/
def Action.cost : Action → Nat
  | .stop _ => 7
  | _ => 0

theorem steps_left_main (hstep : main_step s = some s') : steps_left s' + 1 ≤ steps_left s := by
  unfold main_step at hstep
  split at hstep
  case isTrue => cases hstep
  case isFalse =>
    cases hpc : s.pc <;> simp only [hpc, Option.some.injEq, reduceCtorEq] at hstep
    case fork =>
      cases hleft : s.left with
      | zero =>
        simp only [hleft, Option.some.injEq] at hstep
        subst hstep
        simp only [steps_left, hpc, Pc.rank, hleft]
        omega
      | succ left =>
        simp only [hleft, Option.some.injEq] at hstep
        subst hstep
        simp only [steps_left, hpc, hleft, List.map_append, List.sum_append, List.map_cons, List.map_nil,
          List.sum_cons, List.sum_nil, Child.rank]
        omega
    case test =>
      subst hstep
      simp only [steps_left, hpc]
      split <;> simp only [Pc.rank] <;> omega
    all_goals
      subst hstep
      simp only [steps_left, hpc, Pc.rank]
      omega

theorem steps_left_handler (hinv : Inv args s) (hstep : handler_step s child = some s') :
    steps_left s' + 1 ≤ steps_left s := by
  cases hhandler : s.handler with
  | none => simp [handler_step, hhandler] at hstep
  | some pc =>
    have hpc := (hinv.suspended (by rw [hhandler]; exact Option.some_ne_none pc)).1
    cases pc <;> simp only [handler_step, hhandler] at hstep
    case waitpid =>
      split at hstep
      case isTrue hzombie =>
        cases hstep
        have hset := sum_set hzombie .reaped Child.rank
        simp only [Child.rank] at hset
        simp only [steps_left, hhandler, handler_rank]
        omega
      case isFalse =>
        split at hstep
        case isTrue => cases hstep
        case isFalse =>
          cases hstep
          simp only [steps_left, hhandler, handler_rank]
          omega
    case decrement =>
      cases hstep
      simp only [steps_left, hhandler, handler_rank]
      omega
    case returns =>
      rw [if_pos hpc] at hstep
      cases hstep
      simp only [steps_left, hhandler, hpc, handler_rank, Pc.rank]
      omega

theorem steps_left_step {a : Action} (hinv : Inv args s) (hstep : step s a = some s') :
    steps_left s' + 1 ≤ steps_left s + a.cost := by
  cases a with
  | main => exact steps_left_main hstep
  | handler child => exact steps_left_handler hinv hstep
  | deliver =>
    simp only [step, deliver] at hstep
    split at hstep
    case isTrue => cases hstep
    case isFalse =>
      split at hstep
      case isFalse => cases hstep
      case isTrue hdeliver =>
        cases hstep
        have hpending : s.pending.toNat = 1 := by rw [hdeliver.1, Bool.toNat_true]
        have hrank : handler_rank (if s.installed = true then some .waitpid else none) ≤ 5 := by
          split <;> simp only [handler_rank, Nat.le_refl, Nat.zero_le]
        simp only [steps_left, hpending, Bool.toNat_false]
        omega
  | exit child =>
    simp only [step] at hstep
    split at hstep
    case isFalse => cases hstep
    case isTrue hrunning =>
      cases hstep
      have hset := sum_set hrunning .zombie Child.rank
      simp only [Child.rank] at hset
      simp only [steps_left, Bool.toNat_true]
      omega
  | stop child =>
    simp only [step] at hstep
    split at hstep
    case isFalse => cases hstep
    case isTrue =>
      cases hstep
      simp only [steps_left, Bool.toNat_true, Action.cost]
      omega

/-- No `SIGCHLD` is missed: a state in which nothing can happen any more is one in which `main` has
    exited, and apart from what stopped children add, every run is so long at most. -/
theorem sigchld_exits (args : Nat) (actions : List Action) (s : System)
    (hrun : follow step (start args) actions = some s) :
    actions.length ≤ 10 * args + 5 + (actions.map Action.cost).sum ∧ (Stuck step s → s.pc = .exited) := by
  have hinv := inv_of_follow hrun
  have hkeep : ∀ a ∈ actions, ∀ s s', Inv args s → step s a = some s' → Inv args s' := fun _ _ _ _ h => h.step
  have hlower : ∀ s a s', Inv args s → step s a = some s' → steps_left s' + 1 ≤ steps_left s + a.cost :=
    fun _ _ _ h => steps_left_step h
  refine ⟨?_, exited_of_stuck hinv⟩
  have hlen := follow_length_le hkeep hlower (Inv.start args) hrun
  have hstart : steps_left (start args) = 10 * args + 5 := by
    simp only [steps_left, start, Pc.rank, handler_rank, Bool.toNat_false, List.map_nil, List.sum_nil]
    omega
  omega

theorem sigchld_exits_two_children : ∃ s, follow step (start 2) two_children = some s ∧
    two_children.length ≤ 25 ∧ s.pc = .exited :=
  ⟨_, rfl, (sigchld_exits 2 two_children _ rfl).1, rfl⟩

end Runs

end tlpi.multi_sigchld
