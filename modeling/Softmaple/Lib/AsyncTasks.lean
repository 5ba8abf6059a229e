import Mathlib.Data.List.Perm.Basic

/-!
Cooperative tasks over a shared state. A task is the list of segments it has
still to run; one task at a time runs its next segment to the end, which may
put further segments before the rest. What a segment leaves to others is read
off the pending segments: `pending_resume` says how one segment changes them.
-/
namespace TaskPool

open List

variable {σ ι : Type*}

structure Pool (σ ι : Type*) where
  state : σ
  tasks : List (List ι)

namespace Pool

/-- The segments that are still to run. -/
def pending (pool : Pool σ ι) : List ι := pool.tasks.flatten

/-- No task has anything left to run. -/
def Quiescent (pool : Pool σ ι) : Prop := ∀ task ∈ pool.tasks, task = []

def spawn (pool : Pool σ ι) (task : List ι) : Pool σ ι := { pool with tasks := pool.tasks ++ [task] }

def next (pool : Pool σ ι) (place : Nat) : Option ι := pool.tasks[place]?.bind head?

def resume (exec : σ → ι → σ × List ι) (pool : Pool σ ι) (place : Nat) : Pool σ ι :=
  match pool.tasks[place]? with
  | some (segment :: rest) =>
    ⟨(exec pool.state segment).1, pool.tasks.set place ((exec pool.state segment).2 ++ rest)⟩
  | _ => pool

@[simp]
theorem state_spawn (pool : Pool σ ι) (task : List ι) : (pool.spawn task).state = pool.state := rfl

@[simp]
theorem pending_spawn (pool : Pool σ ι) (task : List ι) :
    (pool.spawn task).pending = pool.pending ++ task := by
  simp [pending, spawn]

theorem pending_of_quiescent {pool : Pool σ ι} (h : pool.Quiescent) : pool.pending = [] := by
  unfold pending
  rw [flatten_eq_nil_iff]
  exact h

theorem resume_of_next_none {exec : σ → ι → σ × List ι} {pool : Pool σ ι} {place : Nat}
    (h : pool.next place = none) : pool.resume exec place = pool := by
  unfold next at h
  unfold resume
  split
  · next htask =>
      rw [htask] at h
      cases h
  · rfl

theorem next_mem {pool : Pool σ ι} {place : Nat} {segment : ι} (h : pool.next place = some segment) :
    segment ∈ pool.pending := by
  unfold next at h
  obtain ⟨task, htask, hhead⟩ := Option.bind_eq_some_iff.mp h
  exact mem_flatten.mpr ⟨task, mem_of_getElem? htask, mem_of_head? hhead⟩

theorem state_resume {exec : σ → ι → σ × List ι} {pool : Pool σ ι} {place : Nat} {segment : ι}
    (h : pool.next place = some segment) :
    (pool.resume exec place).state = (exec pool.state segment).1 := by
  unfold next at h
  unfold resume
  cases htask : pool.tasks[place]? with
  | none =>
    rw [htask] at h
    cases h
  | some task =>
    rw [htask] at h
    cases task with
    | nil => cases h
    | cons head rest =>
      cases h
      rfl

theorem pending_resume {exec : σ → ι → σ × List ι} {pool : Pool σ ι} {place : Nat} {segment : ι}
    (h : pool.next place = some segment) :
    ∃ others, pool.pending.Perm (segment :: others) ∧
      (pool.resume exec place).pending.Perm ((exec pool.state segment).2 ++ others) := by
  unfold next at h
  obtain ⟨task, htask, h⟩ := Option.bind_eq_some_iff.mp h
  cases task with
  | nil => cases h
  | cons head rest =>
    cases h
    obtain ⟨hplace, hget⟩ := List.getElem?_eq_some_iff.mp htask
    obtain ⟨before, after, hsplit, hset⟩ : ∃ before after,
        pool.tasks = before ++ (segment :: rest) :: after ∧
        (pool.resume exec place).tasks =
          before ++ ((exec pool.state segment).2 ++ rest) :: after := by
      refine ⟨pool.tasks.take place, pool.tasks.drop (place + 1), ?_, ?_⟩
      · rw [← hget, getElem_cons_drop, take_append_drop]
      · unfold resume
        rw [htask]
        exact set_eq_take_append_cons_drop.trans (if_pos hplace)
    have hjoin : ∀ task : List ι, (before ++ task :: after).flatten.Perm
        (task ++ (before.flatten ++ after.flatten)) := by
      intro task
      rw [flatten_append, flatten_cons]
      exact perm_append_comm_assoc _ _ _
    refine ⟨rest ++ (before.flatten ++ after.flatten), ?_, ?_⟩
    · unfold pending
      rw [hsplit]
      exact hjoin (segment :: rest)
    · unfold pending
      rw [hset, ← append_assoc]
      exact hjoin _

end Pool

end TaskPool

namespace AsyncTasks

open List

section Procs

variable {σ κ μ π : Type} {α : κ → Type}

inductive Proc (σ κ : Type) (α : κ → Type) (μ π : Type) : Type
  | done
  | act (update : σ → σ) (next : σ → Proc σ κ α μ π)
  | mark (event : π) (next : Proc σ κ α μ π)
  | call (request : κ) (next : α request → Proc σ κ α μ π)
  | fork (job : μ) (body : Proc σ κ α μ π) (next : Nat → Proc σ κ α μ π)
  | join (tickets : List Nat) (next : Proc σ κ α μ π)

structure Task (σ κ : Type) (α : κ → Type) (μ π : Type) where
  ticket : Nat
  job : μ
  proc : Proc σ κ α μ π

/-- The tasks stand in the order in which they were made. -/
structure World (σ κ : Type) (α : κ → Type) (μ π : Type) where
  state : σ
  trace : List π
  tasks : List (Task σ κ α μ π)
  next : Nat

/-- What the services answer, and which jobs share a queue. -/
structure System (σ κ : Type) (α χ : κ → Type) (μ ι ε π : Type) where
  queue : μ → Option ι
  serve : (request : κ) → χ request → σ → Option (α request × σ)
  entry : ε → μ × Proc σ κ α μ π

/-- An asynchronous function, as what it does to the rest of its task. -/
def Async (σ κ : Type) (α : κ → Type) (μ π β : Type) : Type :=
  (β → Proc σ κ α μ π) → Proc σ κ α μ π

instance : Monad (Async σ κ α μ π) where
  pure b := fun next => next b
  bind function rest := fun next => function fun b => rest b next

namespace Async

variable {β : Type}

def proc (function : Async σ κ α μ π Unit) : Proc σ κ α μ π := function fun _ => .done

def getModify (update : σ → σ) : Async σ κ α μ π σ := fun next => .act update next

def get : Async σ κ α μ π σ := getModify id

def modify (update : σ → σ) : Async σ κ α μ π Unit := fun next => .act update fun _ => next ()

def mark (event : π) : Async σ κ α μ π Unit := fun next => .mark event (next ())

def call (request : κ) : Async σ κ α μ π (α request) := fun next => .call request next

/-- Lets other tasks run. -/
def yield : Async σ κ α μ π Unit := fun next => .join [] (next ())

def detach (job : μ) (body : Async σ κ α μ π Unit) : Async σ κ α μ π Unit :=
  fun next => .fork job body.proc fun _ => next ()

/-- Starts a job and waits for its end. -/
def perform (job : μ) (body : Async σ κ α μ π Unit) : Async σ κ α μ π Unit :=
  fun next => .fork job body.proc fun ticket => .join [ticket] (next ())

def allFrom (next : Unit → Proc σ κ α μ π) :
    List (μ × Async σ κ α μ π Unit) → List Nat → Proc σ κ α μ π
  | [], tickets => .join tickets (next ())
  | (job, body) :: jobs, tickets =>
    .fork job body.proc fun ticket => allFrom next jobs (ticket :: tickets)

def all (jobs : List (μ × Async σ κ α μ π Unit)) : Async σ κ α μ π Unit :=
  fun next => allFrom next jobs []

def forEach {γ : Type} : List γ → (γ → Async σ κ α μ π Unit) → Async σ κ α μ π Unit
  | [], _ => pure ()
  | item :: items, body => do
      body item
      forEach items body

end Async

end Procs

/-- A world without what its tasks have still to do: the state, the marks passed, and the jobs of
each queue. -/
structure View (σ μ ι π : Type) where
  state : σ
  trace : List π
  lanes : ι → List μ

namespace View

variable {σ μ ι π : Type} [DecidableEq ι]

def push (view : View σ μ ι π) (lane : Option ι) (job : μ) : View σ μ ι π :=
  { view with lanes := fun other =>
      if lane = some other then view.lanes other ++ [job] else view.lanes other }

def pop (view : View σ μ ι π) (lane : Option ι) : View σ μ ι π :=
  { view with lanes := fun other =>
      if lane = some other then (view.lanes other).tail else view.lanes other }

end View

namespace World

variable {σ κ μ ι ε π : Type} {α χ : κ → Type} [DecidableEq ι]

/-- Runs a proc to its next `await`. -/
def advance : Proc σ κ α μ π → World σ κ α μ π → Proc σ κ α μ π × World σ κ α μ π
  | .done, world => (.done, world)
  | .act update next, world => advance (next world.state) { world with state := update world.state }
  | .mark event next, world => advance next { world with trace := world.trace ++ [event] }
  | .call request next, world => (.call request next, world)
  | .fork job body next, world =>
    advance (next world.next) { world with
        tasks := world.tasks ++ [⟨world.next, job, body⟩]
        next := world.next + 1 }
  | .join tickets next, world => (.join tickets next, world)

/-- The task at a place goes on as `proc`, or ends. -/
def settle (place : Nat) (task : Task σ κ α μ π) (proc : Proc σ κ α μ π)
    (world : World σ κ α μ π) : World σ κ α μ π :=
  match proc with
  | .done => { world with tasks := world.tasks.eraseIdx place }
  | proc => { world with tasks := world.tasks.set place { task with proc := proc } }

def advanceAt (place : Nat) (task : Task σ κ α μ π) (proc : Proc σ κ α μ π)
    (world : World σ κ α μ π) : World σ κ α μ π :=
  settle place task (advance proc world).1 (advance proc world).2

def IsFront (system : System σ κ α χ μ ι ε π) (world : World σ κ α μ π) (place : Nat) (job : μ) :
    Prop :=
  system.queue job = none ∨
    ∀ earlier ∈ world.tasks.take place, system.queue earlier.job ≠ system.queue job

instance (system : System σ κ α χ μ ι ε π) (world : World σ κ α μ π) (place : Nat) (job : μ) :
    Decidable (IsFront system world place job) :=
  inferInstanceAs (Decidable (_ ∨ _))

def finished (world : World σ κ α μ π) (ticket : Nat) : Bool :=
  world.tasks.all fun task => task.ticket ≠ ticket

inductive Action (κ : Type) (χ : κ → Type) (ε : Type) where
  | invoke (entry : ε)
  | serve (place : Nat) (choice : (request : κ) → χ request)
  | resume (place : Nat)

section Steps

variable (system : System σ κ α χ μ ι ε π)

def invoke (world : World σ κ α μ π) (entry : ε) : World σ κ α μ π :=
  let task : Task σ κ α μ π := ⟨world.next, (system.entry entry).1, (system.entry entry).2⟩
  advanceAt world.tasks.length task task.proc
    { world with tasks := world.tasks ++ [task], next := world.next + 1 }

def serve (world : World σ κ α μ π) (place : Nat) (choice : (request : κ) → χ request) :
    Option (World σ κ α μ π) :=
  match world.tasks[place]? with
  | some task =>
    match task.proc with
    | .call request next =>
      if IsFront system world place task.job then
        (system.serve request (choice request) world.state).map fun served =>
          { world with
            state := served.2
            tasks := world.tasks.set place { task with proc := next served.1 } }
      else none
    | _ => none
  | none => none

def resume (world : World σ κ α μ π) (place : Nat) : Option (World σ κ α μ π) :=
  match world.tasks[place]? with
  | some task =>
    if IsFront system world place task.job then
      match task.proc with
      | .call _ _ => none
      | .join tickets next =>
        if tickets.all world.finished then some (advanceAt place task next world) else none
      | proc => some (advanceAt place task proc world)
    else none
  | none => none

def step (world : World σ κ α μ π) : Action κ χ ε → Option (World σ κ α μ π)
  | .invoke entry => some (invoke system world entry)
  | .serve place choice => serve system world place choice
  | .resume place => resume system world place

def run (world : World σ κ α μ π) : List (Action κ χ ε) → Option (World σ κ α μ π)
  | [] => some world
  | action :: actions => (step system world action).bind fun next => run next actions

section Conditions

variable (cond : π → View σ μ ι π → Prop)

def lane (world : World σ κ α μ π) (lane : ι) : List μ :=
  (world.tasks.map (·.job)).filter fun job => system.queue job = some lane

def view (world : World σ κ α μ π) : View σ μ ι π :=
  ⟨world.state, world.trace, world.lane system⟩

/-- Every mark that a proc passes before its next `await` meets the condition. -/
def Passes : Proc σ κ α μ π → World σ κ α μ π → Prop
  | .act update next, world =>
    Passes (next world.state) { world with state := update world.state }
  | .mark event next, world =>
    cond event (world.view system) ∧ Passes next { world with trace := world.trace ++ [event] }
  | .fork job body next, world =>
    Passes (next world.next) { world with
        tasks := world.tasks ++ [⟨world.next, job, body⟩]
        next := world.next + 1 }
  | _, _ => True

def Meets (world : World σ κ α μ π) : Action κ χ ε → Prop
  | .invoke entry =>
    Passes system cond (system.entry entry).2 { world with
        tasks := world.tasks ++ [⟨world.next, (system.entry entry).1, (system.entry entry).2⟩]
        next := world.next + 1 }
  | .serve _ _ => True
  | .resume place => ∀ task, world.tasks[place]? = some task →
      match task.proc with
      | .join _ next => Passes system cond next world
      | proc => Passes system cond proc world

/-- Every mark of the run is passed under its condition. -/
def RunMeets (world : World σ κ α μ π) : List (Action κ χ ε) → Prop
  | [] => True
  | action :: actions => ∀ next, step system world action = some next →
      Meets system cond world action ∧ RunMeets next actions

section Weaken

variable {system cond} {weaker : π → View σ μ ι π → Prop}
  (himp : ∀ event view, cond event view → weaker event view)
include himp

theorem Passes.imp (proc : Proc σ κ α μ π) : ∀ {world : World σ κ α μ π},
    Passes system cond proc world → Passes system weaker proc world := by
  induction proc with
  | done | call | join => exact fun _ => trivial
  | act update next ih => exact fun h => ih _ h
  | mark event next ih => exact fun h => ⟨himp _ _ h.1, ih h.2⟩
  | fork job body next ihBody ih => exact fun h => ih _ h

theorem Meets.imp {world : World σ κ α μ π} {action : Action κ χ ε}
    (h : Meets system cond world action) : Meets system weaker world action := by
  cases action with
  | invoke entry => exact Passes.imp himp _ h
  | serve place choice => trivial
  | resume place =>
    intro task htask
    have hpasses := h task htask
    cases hproc : task.proc with
    | join tickets next =>
      rw [hproc] at hpasses
      exact Passes.imp himp next hpasses
    | done | act | mark | call | fork =>
      rw [hproc] at hpasses
      exact Passes.imp himp _ hpasses

theorem RunMeets.imp (actions : List (Action κ χ ε)) : ∀ {world : World σ κ α μ π},
    RunMeets system cond world actions → RunMeets system weaker world actions := by
  induction actions with
  | nil => exact fun _ => trivial
  | cons action actions ih =>
    intro world h next hnext
    obtain ⟨hfirst, hrest⟩ := h next hnext
    exact ⟨hfirst.imp himp, ih hrest⟩

end Weaken

end Conditions

section Traces

variable {system} {after : World σ κ α μ π} {cond : π → List π → Prop} {last : List π}

omit [DecidableEq ι] in
theorem advance_trace (proc : Proc σ κ α μ π) : ∀ world : World σ κ α μ π,
    world.trace <+: (advance proc world).2.trace := by
  induction proc with
  | done | call | join =>
    intro world
    exact prefix_rfl
  | act update next ih =>
    intro world
    exact ih world.state { world with state := update world.state }
  | mark event next ih =>
    intro world
    exact (prefix_append _ _).trans (ih { world with trace := world.trace ++ [event] })
  | fork job body next ihBody ih =>
    intro world
    exact ih world.next { world with
        tasks := world.tasks ++ [⟨world.next, job, body⟩]
        next := world.next + 1 }

theorem settle_trace (place : Nat) (task : Task σ κ α μ π) (proc : Proc σ κ α μ π)
    (world : World σ κ α μ π) : (settle place task proc world).trace = world.trace := by
  cases proc <;> rfl

theorem passes_of_trace (hcond : ∀ before event, before ++ [event] <+: last → cond event before)
    (proc : Proc σ κ α μ π) : ∀ world : World σ κ α μ π, (advance proc world).2.trace <+: last →
      Passes system (fun event view => cond event view.trace) proc world := by
  induction proc with
  | done | call | join =>
    intro world _
    trivial
  | act update next ih =>
    intro world hlast
    exact ih world.state { world with state := update world.state } hlast
  | mark event next ih =>
    intro world hlast
    have hnext := advance_trace next { world with trace := world.trace ++ [event] }
    exact ⟨hcond world.trace event (hnext.trans hlast),
      ih { world with trace := world.trace ++ [event] } hlast⟩
  | fork job body next ihBody ih =>
    intro world hlast
    exact ih world.next { world with
        tasks := world.tasks ++ [⟨world.next, job, body⟩]
        next := world.next + 1 } hlast

theorem meets_of_trace (hcond : ∀ before event, before ++ [event] <+: last → cond event before)
    {world : World σ κ α μ π} {action : Action κ χ ε} (hstep : step system world action = some after)
    (hlast : after.trace <+: last) :
    Meets system (fun event view => cond event view.trace) world action ∧
      world.trace <+: after.trace := by
  have hadvance : ∀ place (task : Task σ κ α μ π) proc (world : World σ κ α μ π),
      (advanceAt place task proc world).trace = (advance proc world).2.trace :=
    fun place task proc world => settle_trace place task _ _
  cases action with
  | invoke entry =>
    cases hstep
    let made : World σ κ α μ π :=
      { world with
        tasks := world.tasks ++ [⟨world.next, (system.entry entry).1, (system.entry entry).2⟩]
        next := world.next + 1 }
    have htrace : (invoke system world entry).trace = (advance (system.entry entry).2 made).2.trace :=
      hadvance _ _ _ _
    rw [htrace] at hlast ⊢
    exact ⟨passes_of_trace hcond _ made hlast, advance_trace _ made⟩
  | serve place choice =>
    refine ⟨trivial, ?_⟩
    dsimp only [step] at hstep
    unfold serve at hstep
    split at hstep
    · split at hstep
      · split at hstep
        · obtain ⟨served, -, rfl⟩ := Option.map_eq_some_iff.mp hstep
          exact prefix_rfl
        · cases hstep
      · cases hstep
    · cases hstep
  | resume place =>
    dsimp only [step] at hstep
    unfold resume at hstep
    cases hfound : world.tasks[place]? with
    | none =>
      rw [hfound] at hstep
      cases hstep
    | some task =>
      rw [hfound] at hstep
      dsimp only at hstep
      split at hstep
      · cases hproc : task.proc with
        | call request next =>
          rw [hproc] at hstep
          cases hstep
        | join tickets next =>
          rw [hproc] at hstep
          dsimp only at hstep
          split at hstep
          · cases hstep
            rw [hadvance] at hlast ⊢
            refine ⟨fun other hother => ?_, advance_trace next world⟩
            cases hfound.symm.trans hother
            rw [hproc]
            exact passes_of_trace hcond next world hlast
          · cases hstep
        | done | act | mark | fork =>
          rw [hproc] at hstep
          cases hstep
          rw [hadvance] at hlast ⊢
          refine ⟨fun other hother => ?_, advance_trace _ world⟩
          cases hfound.symm.trans hother
          rw [hproc]
          exact passes_of_trace hcond _ world hlast
      · cases hstep

theorem runMeets_of_trace (actions : List (Action κ χ ε)) : ∀ {world : World σ κ α μ π},
    run system world actions = some after →
    (∀ before event, before ++ [event] <+: after.trace → cond event before) →
    RunMeets system (fun event view => cond event view.trace) world actions ∧
      world.trace <+: after.trace := by
  induction actions with
  | nil =>
    intro world hrun hcond
    cases hrun
    exact ⟨trivial, prefix_rfl⟩
  | cons action actions ih =>
    intro world hrun hcond
    obtain ⟨next, hstep, hrest⟩ := Option.bind_eq_some_iff.mp hrun
    obtain ⟨hmeets, htrace⟩ := ih hrest hcond
    obtain ⟨hfirst, hgrows⟩ := meets_of_trace hcond hstep htrace
    refine ⟨fun other hother => ?_, hgrows.trans htrace⟩
    cases hstep.symm.trans hother
    exact ⟨hfirst, hmeets⟩

theorem run_trace (actions : List (Action κ χ ε)) {world : World σ κ α μ π}
    (hrun : run system world actions = some after) : world.trace <+: after.trace := by
  have hnothing : ∀ before event, before ++ [event] <+: after.trace →
      (fun (_ : π) (_ : List π) => True) event before := fun _ _ _ => trivial
  exact (runMeets_of_trace actions hrun hnothing).2

end Traces

end Steps

section Lanes

variable {system : System σ κ α χ μ ι ε π} {world : World σ κ α μ π}

omit [DecidableEq ι] in
theorem isFront_iff {place : Nat} {job : μ} :
    IsFront system world place job ↔ system.queue job = none ∨
      ∀ before < place, ∀ earlier, world.tasks[before]? = some earlier →
        system.queue earlier.job ≠ system.queue job := by
  refine or_congr Iff.rfl ?_
  constructor
  · intro h before hbefore earlier hearlier
    obtain ⟨hlength, hget⟩ := List.getElem?_eq_some_iff.mp hearlier
    exact h earlier (mem_take_iff_getElem.mpr ⟨before, Nat.lt_min.mpr ⟨hbefore, hlength⟩, hget⟩)
  · intro h earlier hearlier
    obtain ⟨before, hbefore, hget⟩ := mem_take_iff_getElem.mp hearlier
    obtain ⟨hplace, hlength⟩ := Nat.lt_min.mp hbefore
    exact h before hplace earlier (List.getElem?_eq_some_iff.mpr ⟨hlength, hget⟩)

variable {task : Task σ κ α μ π}

theorem tasks_split {place : Nat} (htask : world.tasks[place]? = some task) :
    ∃ before after, before.length = place ∧ world.tasks = before ++ task :: after ∧
      world.tasks.eraseIdx place = before ++ after ∧
      ∀ other, world.tasks.set place other = before ++ other :: after := by
  obtain ⟨hplace, hget⟩ := List.getElem?_eq_some_iff.mp htask
  refine ⟨world.tasks.take place, world.tasks.drop (place + 1), ?_, ?_, ?_, ?_⟩
  · rw [length_take]
    exact Nat.min_eq_left (Nat.le_of_lt hplace)
  · rw [← hget, getElem_cons_drop, take_append_drop]
  · exact eraseIdx_eq_take_drop_succ _ _
  · intro other
    exact set_eq_take_append_cons_drop.trans (if_pos hplace)

theorem view_append {task : Task σ κ α μ π} {next : Nat} :
    ({ world with tasks := world.tasks ++ [task], next := next } : World σ κ α μ π).view system =
      (world.view system).push (system.queue task.job) task.job := by
  unfold view View.push
  congr 1
  funext other
  unfold lane
  rw [map_append, filter_append, map_singleton, filter_singleton]
  by_cases hqueue : system.queue task.job = some other
  · rw [if_pos hqueue, decide_eq_true hqueue]
    rfl
  · rw [if_neg hqueue, decide_eq_false hqueue]
    exact append_nil _

theorem view_set {place : Nat} {proc : Proc σ κ α μ π} {state : σ}
    (htask : world.tasks[place]? = some task) :
    ({ world with
        state := state
        tasks := world.tasks.set place { task with proc := proc } } :
      World σ κ α μ π).view system = { world.view system with state := state } := by
  obtain ⟨before, after, -, hsplit, -, hset⟩ := tasks_split htask
  unfold view
  congr 1
  funext other
  unfold lane
  dsimp only
  rw [hset, hsplit, map_append, map_append, map_cons, map_cons]

theorem filter_before {place : Nat} {before : List (Task σ κ α μ π)}
    {after : List (Task σ κ α μ π)} {own : ι} (hlength : before.length = place)
    (hsplit : world.tasks = before ++ task :: after) (hfront : IsFront system world place task.job)
    (hqueue : system.queue task.job = some own) :
    (before.map (·.job)).filter (fun job => system.queue job = some own) = [] := by
  rw [filter_eq_nil_iff]
  intro job hjob hsame
  obtain ⟨earlier, hearlier, rfl⟩ := mem_map.mp hjob
  cases hfront with
  | inl hnone =>
    rw [hnone] at hqueue
    cases hqueue
  | inr hfirst =>
    refine hfirst earlier ?_ ((of_decide_eq_true hsame).trans hqueue.symm)
    rw [hsplit, ← hlength, take_left]
    exact hearlier

theorem lane_of_front {place : Nat} {own : ι}
    (htask : world.tasks[place]? = some task) (hfront : IsFront system world place task.job)
    (hqueue : system.queue task.job = some own) :
    ∃ others, world.lane system own = task.job :: others := by
  obtain ⟨before, after, hlength, hsplit, -, -⟩ := tasks_split htask
  refine ⟨(after.map (·.job)).filter fun job => system.queue job = some own, ?_⟩
  unfold lane
  rw [hsplit, map_append, filter_append, filter_before hlength hsplit hfront hqueue,
    map_cons, nil_append, filter_cons, if_pos (decide_eq_true hqueue)]

theorem view_erase {place : Nat}
    (htask : world.tasks[place]? = some task) (hfront : IsFront system world place task.job) :
    ({ world with tasks := world.tasks.eraseIdx place } : World σ κ α μ π).view system =
      (world.view system).pop (system.queue task.job) := by
  obtain ⟨before, after, hlength, hsplit, herase, -⟩ := tasks_split htask
  unfold view View.pop
  congr 1
  funext other
  unfold lane
  dsimp only
  rw [herase, hsplit, map_append, map_append, filter_append, filter_append,
    map_cons]
  by_cases hqueue : system.queue task.job = some other
  · rw [if_pos hqueue, filter_before hlength hsplit hfront hqueue, nil_append,
      nil_append, filter_cons, if_pos (decide_eq_true hqueue), tail_cons]
  · rw [if_neg hqueue, filter_cons,
      if_neg fun hsame => hqueue (of_decide_eq_true hsame)]

omit [DecidableEq ι] in
theorem queue_ne_of_front {first second : Nat} {one two : Task σ κ α μ π}
    (hone : world.tasks[first]? = some one) (htwo : world.tasks[second]? = some two)
    (hfirst : IsFront system world first one.job) (hsecond : IsFront system world second two.job)
    (hne : first ≠ second) :
    system.queue two.job = none ∨ system.queue one.job ≠ system.queue two.job := by
  cases isFront_iff.mp hsecond with
  | inl hnone => exact .inl hnone
  | inr hearlier =>
    cases isFront_iff.mp hfirst with
    | inl hnone =>
      cases hqueue : system.queue two.job with
      | none => exact .inl rfl
      | some own =>
        refine .inr ?_
        rw [hnone]
        intro hsame
        cases hsame
    | inr hbefore =>
      refine .inr ?_
      cases Nat.lt_or_gt_of_ne hne with
      | inl hlt => exact hearlier first hlt one hone
      | inr hgt =>
        intro hsame
        exact hbefore second hgt two htwo hsame.symm

theorem lane_eq_nil {own : ι} :
    world.lane system own = [] ↔ ∀ task ∈ world.tasks, system.queue task.job ≠ some own := by
  unfold lane
  rw [filter_eq_nil_iff]
  constructor
  · intro h task htask hqueue
    exact h task.job (mem_map_of_mem htask) (decide_eq_true hqueue)
  · intro h job hjob hqueue
    obtain ⟨task, htask, rfl⟩ := mem_map.mp hjob
    exact h task htask (of_decide_eq_true hqueue)

end Lanes

end World

end AsyncTasks
