import Mathlib.Data.Set.Finite.Basic
import Mathlib.Order.WellFounded
import Softmaple.Lib.AsyncRely

/-!
Progress of asynchronous functions. Every step takes a task further down its
proc, which is well founded. So a rank of the jobs that falls along what they
wait for rules out every cycle of waiting tasks, and in a fair run every task
ends, however many calls are still made.
-/
namespace AsyncTasks

open List

open Relation (TransGen ReflTransGen)

variable {σ κ μ ι ε π : Type} {α χ : κ → Type}

namespace Proc

inductive Child : Proc σ κ α μ π → Proc σ κ α μ π → Prop
  | act (update : σ → σ) (next : σ → Proc σ κ α μ π) (state : σ) :
      Child (next state) (.act update next)
  | mark (event : π) (next : Proc σ κ α μ π) : Child next (.mark event next)
  | call (request : κ) (next : α request → Proc σ κ α μ π) (answer : α request) :
      Child (next answer) (.call request next)
  | fork (job : μ) (body : Proc σ κ α μ π) (next : Nat → Proc σ κ α μ π) (ticket : Nat) :
      Child (next ticket) (.fork job body next)
  | join (tickets : List Nat) (next : Proc σ κ α μ π) : Child next (.join tickets next)

theorem child_wellFounded : WellFounded (Child (σ := σ) (κ := κ) (α := α) (μ := μ) (π := π)) := by
  refine ⟨fun proc => ?_⟩
  induction proc with
  | done =>
    constructor
    intro child h
    cases h
  | act update next ih =>
    constructor
    intro child h
    cases h with
    | act update next state => exact ih state
  | mark event next ih =>
    constructor
    intro child h
    cases h with
    | mark event next => exact ih
  | call request next ih =>
    constructor
    intro child h
    cases h with
    | call request next answer => exact ih answer
  | fork job body next ihBody ih =>
    constructor
    intro child h
    cases h with
    | fork job body next ticket => exact ih ticket
  | join tickets next ih =>
    constructor
    intro child h
    cases h with
    | join tickets next => exact ih

end Proc

namespace World

structure Ordered (world : World σ κ α μ π) : Prop where
  sorted : (world.tasks.map (·.ticket)).Pairwise (· < ·)
  bound : ∀ task ∈ world.tasks, task.ticket < world.next

section Ordered

variable {world after : World σ κ α μ π} {place : Nat} {task other : Task σ κ α μ π}

theorem Ordered.eq_of_ticket (h : world.Ordered) (htask : task ∈ world.tasks)
    (hother : other ∈ world.tasks) (hticket : task.ticket = other.ticket) : task = other := by
  have hnodup : (world.tasks.map (·.ticket)).Nodup := h.sorted.imp Nat.ne_of_lt
  exact inj_on_of_nodup_map hnodup htask hother hticket

theorem Ordered.push (h : world.Ordered) (job : μ) (body : Proc σ κ α μ π) : Ordered { world with
        tasks := world.tasks ++ [⟨world.next, job, body⟩]
        next := world.next + 1 } := by
  constructor
  · dsimp only
    rw [map_append, pairwise_append]
    refine ⟨h.sorted, pairwise_singleton _ _, fun first hfirst last hlast => ?_⟩
    obtain ⟨old, hold, rfl⟩ := mem_map.mp hfirst
    rw [mem_singleton.mp hlast]
    exact h.bound old hold
  · intro found hfound
    cases mem_append.mp hfound with
    | inl hold => exact Nat.lt_succ_of_lt (h.bound found hold)
    | inr hnew =>
      rw [mem_singleton.mp hnew]
      exact Nat.lt_succ_self _

variable [DecidableEq ι] {system : System σ κ α χ μ ι ε π}

omit [DecidableEq ι] in
theorem Ordered.ticket_lt {before : Nat} (h : world.Ordered) (hother : world.tasks[before]? = some other)
    (htask : world.tasks[place]? = some task) (hbefore : before < place) :
    other.ticket < task.ticket := by
  obtain ⟨hlength, hget⟩ := List.getElem?_eq_some_iff.mp hother
  obtain ⟨hlength', hget'⟩ := List.getElem?_eq_some_iff.mp htask
  have hsorted := pairwise_iff_getElem.mp h.sorted before place
    (by rw [length_map]; exact hlength) (by rw [length_map]; exact hlength') hbefore
  rw [getElem_map, getElem_map, hget, hget'] at hsorted
  exact hsorted

omit [DecidableEq ι] in
theorem Ordered.isFront (h : world.Ordered) (htask : world.tasks[place]? = some task)
    (hfirst : ∀ earlier ∈ world.tasks, earlier.ticket < task.ticket →
      system.queue earlier.job ≠ system.queue task.job) :
    IsFront system world place task.job := by
  refine isFront_iff.mpr (.inr fun before hbefore earlier hearlier => ?_)
  exact hfirst earlier (mem_of_getElem? hearlier) (h.ticket_lt hearlier htask hbefore)

end Ordered

/-- What a step does to the tasks: those of the tickets in `acted` go `down` or end, the others
stay, and new ones have new tickets. -/
structure Onward (down : Proc σ κ α μ π → Proc σ κ α μ π → Prop) (world after : World σ κ α μ π)
    (acted : Nat → Prop) : Prop where
  ordered : after.Ordered
  next : world.next ≤ after.next
  kept : ∀ task ∈ world.tasks, ¬acted task.ticket → task ∈ after.tasks
  came : ∀ task ∈ after.tasks, task ∈ world.tasks ∧ ¬acted task.ticket ∨
    world.next ≤ task.ticket ∨ acted task.ticket ∧
      ∃ old ∈ world.tasks, old.ticket = task.ticket ∧ old.job = task.job ∧ down task.proc old.proc

section Onward

variable {world : World σ κ α μ π} {place : Nat} {task : Task σ κ α μ π}
  {down : Proc σ κ α μ π → Proc σ κ α μ π → Prop}

theorem advance_grows (proc : Proc σ κ α μ π) : ∀ {world : World σ κ α μ π}, world.Ordered →
    (advance proc world).2.Ordered ∧ world.next ≤ (advance proc world).2.next ∧
      ∃ more, (advance proc world).2.tasks = world.tasks ++ more ∧
        ∀ task ∈ more, world.next ≤ task.ticket := by
  induction proc with
  | done | call | join =>
    intro world h
    refine ⟨h, Nat.le_refl _, [], (append_nil _).symm, fun task htask => by cases htask⟩
  | act update next ih =>
    intro world h
    exact ih world.state ⟨h.sorted, h.bound⟩
  | mark event next ih =>
    intro world h
    exact ih ⟨h.sorted, h.bound⟩
  | fork job body next ihBody ih =>
    intro world h
    obtain ⟨hordered, hnext, more, htasks, hmore⟩ := ih world.next (h.push job body)
    refine ⟨hordered, Nat.le_of_succ_le hnext, ⟨world.next, job, body⟩ :: more, ?_, ?_⟩
    · exact htasks.trans (append_assoc _ _ _)
    · intro task htask
      cases mem_cons.mp htask with
      | inl heq =>
        rw [heq]
      | inr hmem => exact Nat.le_of_succ_le (hmore task hmem)

theorem advance_down (proc : Proc σ κ α μ π) : ∀ {world : World σ κ α μ π},
    ReflTransGen Proc.Child (advance proc world).1 proc := by
  induction proc with
  | done | call | join =>
    intro world
    exact .refl
  | act update next ih =>
    intro world
    exact (ih world.state).tail (.act update next world.state)
  | mark event next ih =>
    intro world
    exact ih.tail (.mark event next)
  | fork job body next ihBody ih =>
    intro world
    exact (ih world.next).tail (.fork job body next world.next)

section

variable (h : world.Ordered)
include h

theorem Ordered.ticket_ne {before rest : List (Task σ κ α μ π)}
    (hsplit : world.tasks = before ++ task :: rest) :
    ∀ found, found ∈ before ∨ found ∈ rest → ¬found.ticket = task.ticket := by
  have hsorted := h.sorted
  rw [hsplit, map_append, map_cons, pairwise_append, pairwise_cons] at hsorted
  obtain ⟨-, ⟨hrest, -⟩, hbefore⟩ := hsorted
  intro found hfound
  cases hfound with
  | inl hmem => exact Nat.ne_of_lt (hbefore _ (mem_map_of_mem hmem) _ mem_cons_self)
  | inr hmem => exact Nat.ne_of_gt (hrest _ (mem_map_of_mem hmem))

section

variable (htask : world.tasks[place]? = some task)
include htask

variable {proc : Proc σ κ α μ π}

theorem Ordered.settleTask (hdown : down proc task.proc) :
    Onward down world { world with tasks := world.tasks.set place { task with proc := proc } }
      (· = task.ticket) := by
  obtain ⟨before, rest, -, hsplit, -, hset⟩ := tasks_split htask
  have hkept : ∀ found, found ∈ world.tasks ↔
      found ∈ before ∨ found = task ∨ found ∈ rest := by
    intro found
    rw [hsplit, mem_append, mem_cons]
  have hcame : ∀ found, found ∈ before ++ { task with proc := proc } :: rest ↔
      found ∈ before ∨ found = { task with proc := proc } ∨ found ∈ rest := by
    intro found
    rw [mem_append, mem_cons]
  have hfound : task ∈ world.tasks := mem_of_getElem? htask
  rw [hset]
  refine ⟨⟨?_, ?_⟩, Nat.le_refl _, ?_, ?_⟩
  · have htickets : (before ++ { task with proc := proc } :: rest).map (·.ticket) =
        world.tasks.map (·.ticket) := by
      rw [hsplit, map_append, map_append, map_cons, map_cons]
    exact htickets ▸ h.sorted
  · intro found hmem
    rcases (hcame found).mp hmem with hbefore | heq | hrest
    · exact h.bound found ((hkept found).mpr (.inl hbefore))
    · rw [heq]
      exact h.bound task hfound
    · exact h.bound found ((hkept found).mpr (.inr (.inr hrest)))
  · intro found hmem hne
    rcases (hkept found).mp hmem with hbefore | heq | hrest
    · exact (hcame found).mpr (.inl hbefore)
    · exact absurd (congrArg Task.ticket heq) hne
    · exact (hcame found).mpr (.inr (.inr hrest))
  · intro found hmem
    rcases (hcame found).mp hmem with hbefore | heq | hrest
    · exact .inl ⟨(hkept found).mpr (.inl hbefore), h.ticket_ne hsplit found (.inl hbefore)⟩
    · rw [heq]
      exact .inr (.inr ⟨rfl, task, hfound, rfl, rfl, hdown⟩)
    · exact .inl ⟨(hkept found).mpr (.inr (.inr hrest)), h.ticket_ne hsplit found (.inr hrest)⟩

theorem Ordered.endTask :
    Onward down world { world with tasks := world.tasks.eraseIdx place } (· = task.ticket) := by
  obtain ⟨before, rest, -, hsplit, herase, -⟩ := tasks_split htask
  have hcame : ∀ found ∈ before ++ rest, found ∈ world.tasks := by
    intro found hmem
    rw [hsplit, mem_append, mem_cons]
    exact (mem_append.mp hmem).imp_right .inr
  rw [herase]
  refine ⟨⟨?_, fun found hmem => h.bound found (hcame found hmem)⟩, Nat.le_refl _, ?_,
    fun found hmem => .inl ⟨hcame found hmem, h.ticket_ne hsplit found (mem_append.mp hmem)⟩⟩
  · refine h.sorted.sublist (List.Sublist.map _ ?_)
    rw [hsplit]
    exact List.Sublist.append (List.Sublist.refl _) (sublist_cons_self _ _)
  · intro found hmem hne
    rw [hsplit, mem_append, mem_cons] at hmem
    refine mem_append.mpr (hmem.imp_right fun hrest => hrest.resolve_left fun heq => ?_)
    exact hne (congrArg Task.ticket heq)

theorem Ordered.settle (hdown : proc = .done ∨ down proc task.proc) :
    Onward down world (World.settle place task proc world) (· = task.ticket) := by
  cases proc with
  | done => exact h.endTask htask
  | act | mark | call | fork | join =>
    cases hdown with
    | inl hdone => cases hdone
    | inr hgoes => exact h.settleTask htask hgoes

theorem Ordered.advanceAt
    (hdown : (World.advance proc world).1 = .done ∨ down (World.advance proc world).1 task.proc) :
    Onward down world (World.advanceAt place task proc world) (· = task.ticket) := by
  obtain ⟨hordered, hnext, more, htasks, hmore⟩ := advance_grows proc h
  have hplace : place < world.tasks.length := (List.getElem?_eq_some_iff.mp htask).1
  have hfound : (World.advance proc world).2.tasks[place]? = some task := by
    rw [htasks, getElem?_append_left hplace]
    exact htask
  have hsettle := hordered.settle hfound hdown
  refine ⟨hsettle.ordered, Nat.le_trans hnext hsettle.next, ?_, ?_⟩
  · intro found hmem hne
    refine hsettle.kept found ?_ hne
    rw [htasks]
    exact mem_append_left _ hmem
  · intro found hmem
    cases hsettle.came found hmem with
    | inl hbefore =>
      obtain ⟨hbefore, hne⟩ := hbefore
      rw [htasks] at hbefore
      cases mem_append.mp hbefore with
      | inl hold => exact .inl ⟨hold, hne⟩
      | inr hnew => exact .inr (.inl (hmore found hnew))
    | inr hrest =>
      cases hrest with
      | inl hnew => exact .inr (.inl (Nat.le_trans hnext hnew))
      | inr hgone =>
        obtain ⟨hacted, old, hold, hticket, hjob, hchild⟩ := hgone
        rw [htasks] at hold
        cases mem_append.mp hold with
        | inl hold => exact .inr (.inr ⟨hacted, old, hold, hticket, hjob, hchild⟩)
        | inr hnew => exact .inr (.inl (hticket ▸ hmore old hnew))

end

end

end Onward

def Action.place : Action κ χ ε → Option Nat
  | .invoke _ => none
  | .serve place _ | .resume place => some place

def Acts (world : World σ κ α μ π) (action : Action κ χ ε) (ticket : Nat) : Prop :=
  ∃ place task, action.place = some place ∧ world.tasks[place]? = some task ∧ task.ticket = ticket

section Steps

variable {world after : World σ κ α μ π} [DecidableEq ι] {system : System σ κ α χ μ ι ε π}
  {action : Action κ χ ε}

omit [DecidableEq ι] in
theorem Ordered.invoke (h : world.Ordered) {entry : ε} :
    Onward (TransGen Proc.Child) world (World.invoke system world entry) fun _ => False := by
  let task : Task σ κ α μ π := ⟨world.next, (system.entry entry).1, (system.entry entry).2⟩
  let made : World σ κ α μ π :=
    { world with tasks := world.tasks ++ [task], next := world.next + 1 }
  have hordered : made.Ordered := h.push _ _
  have hold : ∀ old ∈ made.tasks, old ∈ world.tasks ∨ world.next ≤ old.ticket := by
    intro old hmem
    cases mem_append.mp hmem with
    | inl hmem => exact .inl hmem
    | inr hnew =>
      rw [mem_singleton.mp hnew]
      exact .inr (Nat.le_refl _)
  have honward : Onward (fun _ _ => True) made (World.invoke system world entry) (· = task.ticket) :=
    hordered.advanceAt getElem?_concat_length (.inr trivial)
  refine ⟨honward.ordered, Nat.le_trans (Nat.le_succ _) honward.next, ?_, ?_⟩
  · intro found hmem _
    exact honward.kept found (mem_append_left _ hmem) (Nat.ne_of_lt (h.bound found hmem))
  · intro found hmem
    cases honward.came found hmem with
    | inl hbefore => exact (hold found hbefore.1).imp (⟨·, id⟩) .inl
    | inr hrest =>
      cases hrest with
      | inl hnew => exact .inr (.inl (Nat.le_of_succ_le hnew))
      | inr hacted =>
        rw [hacted.1]
        exact .inr (.inl (Nat.le_refl _))

theorem Ordered.serve {place : Nat} {choice : (request : κ) → χ request} (h : world.Ordered)
    (hserve : World.serve system world place choice = some after) :
    ∃ task, world.tasks[place]? = some task ∧
      Onward (TransGen Proc.Child) world after (· = task.ticket) := by
  unfold World.serve at hserve
  split at hserve
  · next task hfound =>
      split at hserve
      · next request next hproc =>
          split at hserve
          · obtain ⟨⟨answer, state⟩, -, rfl⟩ := Option.map_eq_some_iff.mp hserve
            have hchild : TransGen Proc.Child (next answer) task.proc := by
              rw [hproc]
              exact .single (.call request next answer)
            have hsettle := h.settleTask hfound hchild
            exact ⟨task, hfound, ⟨hsettle.ordered.sorted, hsettle.ordered.bound⟩, hsettle.next,
              hsettle.kept, hsettle.came⟩
          · cases hserve
      · cases hserve
  · cases hserve

theorem Ordered.resume {place : Nat} (h : world.Ordered)
    (hresume : World.resume system world place = some after) :
    ∃ task, world.tasks[place]? = some task ∧
      Onward (TransGen Proc.Child) world after (· = task.ticket) := by
  unfold World.resume at hresume
  cases hfound : world.tasks[place]? with
  | none =>
    rw [hfound] at hresume
    cases hresume
  | some task =>
    rw [hfound] at hresume
    refine ⟨task, rfl, ?_⟩
    dsimp only at hresume
    split at hresume
    · cases hproc : task.proc with
      | call request next =>
        rw [hproc] at hresume
        cases hresume
      | join tickets next =>
        rw [hproc] at hresume
        dsimp only at hresume
        split at hresume
        · cases hresume
          refine h.advanceAt hfound (.inr ?_)
          rw [hproc]
          exact .tail' (advance_down next) (.join tickets next)
        · cases hresume
      | done =>
        rw [hproc] at hresume
        cases hresume
        exact h.advanceAt hfound (.inl rfl)
      | act update next =>
        rw [hproc] at hresume
        cases hresume
        refine h.advanceAt hfound (.inr ?_)
        rw [hproc]
        exact .tail' (advance_down (next world.state)) (.act update next world.state)
      | mark event next =>
        rw [hproc] at hresume
        cases hresume
        refine h.advanceAt hfound (.inr ?_)
        rw [hproc]
        exact .tail' (advance_down next) (.mark event next)
      | fork job body next =>
        rw [hproc] at hresume
        cases hresume
        refine h.advanceAt hfound (.inr ?_)
        rw [hproc]
        exact .tail' (advance_down (next world.next)) (.fork job body next world.next)
    · cases hresume

theorem Ordered.step (h : world.Ordered) (hstep : World.step system world action = some after) :
    Onward (TransGen Proc.Child) world after (Acts world action) := by
  have hacts : ∀ {place task}, action.place = some place → world.tasks[place]? = some task →
      Onward (TransGen Proc.Child) world after (· = task.ticket) →
      Onward (TransGen Proc.Child) world after (Acts world action) := by
    intro place task hplace hfound honward
    refine ⟨honward.ordered, honward.next, fun found hmem hne => ?_, fun found hmem => ?_⟩
    · exact honward.kept found hmem fun hsame => hne ⟨place, task, hplace, hfound, hsame.symm⟩
    · refine (honward.came found hmem).imp (fun hbefore => ⟨hbefore.1, fun hacts => hbefore.2 ?_⟩)
        (Or.imp_right fun hacted => ⟨⟨place, task, hplace, hfound, hacted.1.symm⟩, hacted.2⟩)
      obtain ⟨other, actor, hother, hactor, hticket⟩ := hacts
      cases hplace.symm.trans hother
      cases hfound.symm.trans hactor
      exact hticket.symm
  cases action with
  | invoke entry =>
    cases hstep
    have honward : Onward (TransGen Proc.Child) world (World.invoke system world entry) _ := h.invoke
    refine ⟨honward.ordered, honward.next, fun found hmem _ => honward.kept found hmem id,
      fun found hmem => ?_⟩
    refine (honward.came found hmem).imp (fun hbefore => ⟨hbefore.1, fun hacts => ?_⟩)
      (Or.imp_right fun hacted => hacted.1.elim)
    obtain ⟨place, task, hplace, -⟩ := hacts
    cases hplace
  | serve place choice =>
    obtain ⟨task, hfound, honward⟩ := h.serve hstep
    exact hacts rfl hfound honward
  | resume place =>
    obtain ⟨task, hfound, honward⟩ := h.resume hstep
    exact hacts rfl hfound honward

end Steps

theorem Ordered.run [DecidableEq ι] {system : System σ κ α χ μ ι ε π}
    (actions : List (Action κ χ ε)) : ∀ {world after : World σ κ α μ π}, world.Ordered →
      World.run system world actions = some after → after.Ordered := by
  induction actions with
  | nil =>
    intro world after h hrun
    cases hrun
    exact h
  | cons action actions ih =>
    intro world after h hrun
    obtain ⟨next, hstep, hrest⟩ := Option.bind_eq_some_iff.mp hrun
    exact ih (h.step hstep).ordered hrest

section Fair

variable [DecidableEq ι] (system : System σ κ α χ μ ι ε π)

def readyAt (world : World σ κ α μ π) (place : Nat) : Bool :=
  match world.tasks[place]? with
  | some task =>
    decide (IsFront system world place task.job) &&
      match task.proc with
      | .join tickets _ => tickets.all world.finished
      | _ => true
  | none => false

def Ready (world : World σ κ α μ π) (ticket : Nat) : Prop :=
  ∃ place task, world.tasks[place]? = some task ∧ task.ticket = ticket ∧
    readyAt system world place = true

variable {system} in
theorem readyAt_of_front {world : World σ κ α μ π} {place : Nat} {task : Task σ κ α μ π}
    (htask : world.tasks[place]? = some task) (hfront : IsFront system world place task.job)
    (hjoined : ∀ tickets next, task.proc = .join tickets next → tickets.all world.finished = true) :
    readyAt system world place = true := by
  unfold readyAt
  rw [htask]
  refine Bool.and_eq_true_iff.mpr ⟨decide_eq_true hfront, ?_⟩
  cases hproc : task.proc with
  | join tickets next => exact hjoined tickets next hproc
  | done | act | mark | call | fork => rfl

/-- What keeps a task from going on: a task before it in its queue, or one whose end it awaits. -/
inductive WaitsFor (world : World σ κ α μ π) : Task σ κ α μ π → Task σ κ α μ π → Prop
  | queue {task other : Task σ κ α μ π} (place before : Nat)
      (htask : world.tasks[place]? = some task) (hother : world.tasks[before]? = some other)
      (hbefore : before < place) (hsome : system.queue task.job ≠ none)
      (hqueue : system.queue other.job = system.queue task.job) : WaitsFor world task other
  | join {task other : Task σ κ α μ π} (place : Nat) (tickets : List Nat) (next : Proc σ κ α μ π)
      (htask : world.tasks[place]? = some task) (hfront : IsFront system world place task.job)
      (hproc : task.proc = .join tickets next) (hother : other ∈ world.tasks)
      (hticket : other.ticket ∈ tickets) : WaitsFor world task other

section Waiting

variable {system} {world : World σ κ α μ π} {task other : Task σ κ α μ π}

omit [DecidableEq ι] in
theorem WaitsFor.mem (h : WaitsFor system world task other) : other ∈ world.tasks := by
  cases h with
  | queue place before htask hother => exact mem_of_getElem? hother
  | join place tickets next htask hfront hproc hother => exact hother

theorem exists_waitsFor {place : Nat} (htask : world.tasks[place]? = some task)
    (hready : ¬readyAt system world place = true) : ∃ other, WaitsFor system world task other := by
  by_cases hfront : IsFront system world place task.job
  · obtain ⟨tickets, next, hproc, hjoined⟩ : ∃ tickets next,
        task.proc = .join tickets next ∧ ¬tickets.all world.finished = true := by
      by_contra hnone
      refine hready (readyAt_of_front htask hfront fun tickets next hproc => ?_)
      by_contra hjoined
      exact hnone ⟨tickets, next, hproc, hjoined⟩
    obtain ⟨ticket, hticket, hwaiting⟩ := all_eq_false.mp (Bool.eq_false_iff.mpr hjoined)
    obtain ⟨other, hother, hnot⟩ := all_eq_false.mp (Bool.eq_false_iff.mpr hwaiting)
    have hsame : other.ticket = ticket := by
      by_contra hne
      exact hnot (decide_eq_true hne)
    exact ⟨other, .join place tickets next htask hfront hproc hother (hsame ▸ hticket)⟩
  · obtain ⟨hsome, before, hbefore, other, hother, hqueue⟩ : system.queue task.job ≠ none ∧
        ∃ before < place, ∃ other, world.tasks[before]? = some other ∧
          system.queue other.job = system.queue task.job := by
      by_contra hnone
      refine hfront (isFront_iff.mpr ?_)
      by_cases hsome : system.queue task.job = none
      · exact .inl hsome
      · refine .inr fun before hbefore other hother hqueue => ?_
        exact hnone ⟨hsome, before, hbefore, other, hother, hqueue⟩
    exact ⟨other, .queue place before htask hother hbefore hsome hqueue⟩

theorem not_ready {place : Nat} (htask : world.tasks[place]? = some task)
    (h : ¬∃ ready ∈ world.tasks, Ready system world ready.ticket) :
    ¬readyAt system world place = true :=
  fun hready => h ⟨task, mem_of_getElem? htask, place, task, htask, rfl, hready⟩

theorem exists_cycle (hsome : world.tasks ≠ [])
    (hstuck : ¬∃ ready ∈ world.tasks, Ready system world ready.ticket) :
    ∃ task, TransGen (WaitsFor system world) task task := by
  by_contra hnone
  have hfinite : Finite { task // task ∈ world.tasks } := finite_toSet world.tasks
  let waits (other task : { task // task ∈ world.tasks }) : Prop :=
    TransGen (WaitsFor system world) task.val other.val
  have htrans : IsTrans { task // task ∈ world.tasks } waits :=
    ⟨fun first second third h hnext => TransGen.trans hnext h⟩
  have hirrefl : Std.Irrefl waits := ⟨fun task hcycle => hnone ⟨task.val, hcycle⟩⟩
  obtain ⟨first, hfirst⟩ := exists_mem_of_ne_nil _ hsome
  obtain ⟨last, -, hlast⟩ := (Finite.wellFounded_of_trans_of_irrefl waits).has_min Set.univ
    ⟨⟨first, hfirst⟩, trivial⟩
  obtain ⟨place, hplace⟩ := mem_iff_getElem?.mp last.property
  obtain ⟨other, hwaits⟩ := exists_waitsFor hplace (not_ready hplace hstuck)
  exact hlast ⟨other, hwaits.mem⟩ trivial (.single hwaits)

end Waiting

/-- A run in which a task that can go on from some time on does so: its calls are answered, and it
is scheduled. -/
structure FairRun (world : Nat → World σ κ α μ π) (action : Nat → Action κ χ ε) : Prop where
  step : ∀ time, World.step system (world time) (action time) = some (world (time + 1))
  fair : ∀ time ticket, (∀ later ≥ time, Ready system (world later) ticket) →
    ∃ later ≥ time, Acts (world later) (action later) ticket

def Gone (world : World σ κ α μ π) (ticket : Nat) : Prop :=
  ∀ task ∈ world.tasks, task.ticket ≠ ticket

variable {system} {world : Nat → World σ κ α μ π} {action : Nat → Action κ χ ε}

section

variable (h : FairRun system world action)
variable (hstart : (world 0).Ordered)
include h hstart

theorem FairRun.ordered : ∀ time, (world time).Ordered := by
  intro time
  induction time with
  | zero => exact hstart
  | succ time ih => exact (ih.step (h.step time)).ordered

variable {later time : Nat}

theorem FairRun.next_mono (hle : time ≤ later) : (world time).next ≤ (world later).next := by
  induction hle with
  | refl => exact Nat.le_refl _
  | step _ ih => exact Nat.le_trans ih ((h.ordered hstart _).step (h.step _)).next

theorem FairRun.came (hle : time ≤ later) : ∀ task ∈ (world later).tasks,
      task.ticket < (world time).next →
      ∃ old ∈ (world time).tasks, old.ticket = task.ticket ∧ old.job = task.job := by
  induction hle with
  | refl => exact fun task htask _ => ⟨task, htask, rfl, rfl⟩
  | @step later hle ih =>
    intro task htask hold
    have honward := (h.ordered hstart later).step (h.step later)
    cases honward.came task htask with
    | inl hbefore => exact ih task hbefore.1 hold
    | inr hrest =>
      cases hrest with
      | inl hnew =>
        have hmono := h.next_mono hstart hle
        omega
      | inr hacted =>
        obtain ⟨-, old, hmem, hticket, hjob, -⟩ := hacted
        obtain ⟨first, hfirst, hsame, hsameJob⟩ := ih old hmem (hticket ▸ hold)
        exact ⟨first, hfirst, hsame.trans hticket, hsameJob.trans hjob⟩

theorem FairRun.gone_mono {ticket : Nat} (hle : time ≤ later) (hold : ticket < (world time).next)
    (hgone : Gone (world time) ticket) : Gone (world later) ticket := by
  intro task htask hticket
  obtain ⟨old, hmem, hsame, -⟩ := h.came hstart hle task htask (hticket ▸ hold)
  exact hgone old hmem (hsame.trans hticket)

theorem FairRun.gone_all : ∀ tickets : List Nat, (∀ ticket ∈ tickets, ticket < (world time).next) →
      (∀ ticket ∈ tickets, ∃ later ≥ time, Gone (world later) ticket) →
      ∃ later ≥ time, ∀ ticket ∈ tickets, Gone (world later) ticket := by
  intro tickets
  induction tickets with
  | nil => exact fun _ _ => ⟨time, Nat.le_refl _, fun ticket hticket => by cases hticket⟩
  | cons first tickets ih =>
    intro hold hgone
    obtain ⟨one, hone, hfirst⟩ := hgone first mem_cons_self
    obtain ⟨two, htwo, hothers⟩ := ih (fun ticket hmem => hold ticket (mem_cons_of_mem _ hmem))
      fun ticket hmem => hgone ticket (mem_cons_of_mem _ hmem)
    have hnext : ∀ ticket ∈ first :: tickets, ∀ later ≥ time, ticket < (world later).next :=
      fun ticket hmem later hle => Nat.lt_of_lt_of_le (hold ticket hmem) (h.next_mono hstart hle)
    refine ⟨max one two, Nat.le_trans hone (Nat.le_max_left _ _), fun ticket hmem => ?_⟩
    cases mem_cons.mp hmem with
    | inl heq =>
      rw [heq]
      exact h.gone_mono hstart (Nat.le_max_left _ _) (hnext first mem_cons_self one hone) hfirst
    | inr hmore =>
      exact h.gone_mono hstart (Nat.le_max_right _ _) (hnext ticket hmem two htwo)
        (hothers ticket hmore)

theorem FairRun.stays {task : Task σ κ α μ π} (hle : time ≤ later)
    (htask : task ∈ (world time).tasks) (hidle : ∀ between, time ≤ between → between < later →
      ¬Acts (world between) (action between) task.ticket) : task ∈ (world later).tasks := by
  induction hle with
  | refl => exact htask
  | @step later hle ih =>
    refine ((h.ordered hstart later).step (h.step later)).kept task ?_
      (hidle later hle (Nat.lt_succ_self _))
    exact ih fun between htime hlater => hidle between htime (Nat.lt_succ_of_lt hlater)

theorem FairRun.goesDown {task : Task σ κ α μ π} (htask : task ∈ (world time).tasks)
    (hacts : ∃ later ≥ time, Acts (world later) (action later) task.ticket) :
    ∃ later ≥ time, Gone (world later) task.ticket ∨
      ∃ found ∈ (world later).tasks, found.ticket = task.ticket ∧ found.job = task.job ∧
        TransGen Proc.Child found.proc task.proc := by
  classical
  obtain ⟨hlater, hfirst⟩ := Nat.find_spec hacts
  have hmem : task ∈ (world (Nat.find hacts)).tasks := by
    refine h.stays hstart hlater htask fun between htime hbetween hacted => ?_
    exact Nat.find_min hacts hbetween ⟨htime, hacted⟩
  have hordered := h.ordered hstart (Nat.find hacts)
  have honward := hordered.step (h.step (Nat.find hacts))
  refine ⟨Nat.find hacts + 1, Nat.le_succ_of_le hlater, ?_⟩
  by_cases hgone : Gone (world (Nat.find hacts + 1)) task.ticket
  · exact .inl hgone
  · obtain ⟨found, hfound, hsame⟩ :
        ∃ found ∈ (world (Nat.find hacts + 1)).tasks, found.ticket = task.ticket := by
      by_contra hnone
      exact hgone fun found hfound hsame => hnone ⟨found, hfound, hsame⟩
    cases honward.came found hfound with
    | inl hkept =>
      rw [hsame] at hkept
      exact absurd hfirst hkept.2
    | inr hrest =>
      cases hrest with
      | inl hnew =>
        have hbound := hordered.bound task hmem
        omega
      | inr hacted =>
        obtain ⟨-, old, hold, hticket, hjob, hdown⟩ := hacted
        cases hordered.eq_of_ticket hold hmem (hticket.trans hsame)
        exact .inr ⟨found, hfound, hsame, hjob.symm, hdown⟩

end

section Follow

variable (system) (idle : Action κ χ ε)

def follow : List (Action κ χ ε) → World σ κ α μ π → Nat → World σ κ α μ π
  | _, world, 0 => world
  | [], world, time + 1 => follow [] ((step system world idle).getD world) time
  | action :: actions, world, time + 1 =>
    follow actions ((step system world action).getD world) time

variable {system} {idle}

theorem follow_step {trace : List π} (hidle : ∀ world : World σ κ α μ π, world.tasks = [] →
      ∃ after, step system world idle = some after ∧ after.tasks = [] ∧ after.trace = world.trace)
    (time : Nat) : ∀ (actions : List (Action κ χ ε)) (world after : World σ κ α μ π),
      run system world actions = some after → after.tasks = [] → after.trace = trace →
      step system (follow system idle actions world time) (actions.getD time idle) =
          some (follow system idle actions world (time + 1)) ∧
        (follow system idle actions world time).trace <+: trace ∧
        (actions.length ≤ time → (follow system idle actions world time).tasks = []) := by
  induction time with
  | zero =>
    intro actions world after hrun htasks htrace
    cases actions with
    | nil =>
      cases hrun
      obtain ⟨next, hstep, -⟩ := hidle world htasks
      refine ⟨?_, htrace ▸ prefix_rfl, fun _ => htasks⟩
      exact hstep.trans (congrArg some (congrArg (Option.getD · world) hstep).symm)
    | cons action actions =>
      obtain ⟨next, hstep, hrest⟩ := Option.bind_eq_some_iff.mp hrun
      refine ⟨hstep.trans (congrArg some (congrArg (Option.getD · world) hstep).symm), ?_,
        fun hlength => absurd hlength (Nat.not_succ_le_zero _)⟩
      exact htrace ▸ run_trace (action :: actions) hrun
  | succ time ih =>
    intro actions world after hrun htasks htrace
    cases actions with
    | nil =>
      cases hrun
      obtain ⟨next, hstep, hnext, hsame⟩ := hidle world htasks
      have hrest := ih [] next next rfl hnext (hsame.trans htrace)
      have hfollow : ∀ time, follow system idle [] world (time + 1) =
          follow system idle [] next time :=
        fun time => congrArg (follow system idle [] · time) (congrArg (Option.getD · world) hstep)
      rw [hfollow, hfollow]
      exact ⟨hrest.1, hrest.2.1, fun _ => hrest.2.2 (Nat.zero_le _)⟩
    | cons action actions =>
      obtain ⟨next, hstep, hrun'⟩ := Option.bind_eq_some_iff.mp hrun
      have hrest := ih actions next after hrun' htasks htrace
      have hfollow : ∀ time, follow system idle (action :: actions) world (time + 1) =
          follow system idle actions next time :=
        fun time => congrArg (follow system idle actions · time)
          (congrArg (Option.getD · world) hstep)
      rw [hfollow, hfollow]
      exact ⟨hrest.1, hrest.2.1, fun hlength => hrest.2.2 (Nat.le_of_succ_le_succ hlength)⟩

theorem fairRun_follow {actions : List (Action κ χ ε)} {world after : World σ κ α μ π}
    (hidle : ∀ world : World σ κ α μ π, world.tasks = [] →
      ∃ after, step system world idle = some after ∧ after.tasks = [] ∧ after.trace = world.trace)
    (hrun : run system world actions = some after) (htasks : after.tasks = []) :
    FairRun system (follow system idle actions world) fun time => actions.getD time idle := by
  refine ⟨fun time => (follow_step hidle time actions world after hrun htasks rfl).1,
    fun time ticket hready => ?_⟩
  exfalso
  obtain ⟨place, task, htask, -⟩ := hready (max time actions.length) (Nat.le_max_left _ _)
  have hempty := (follow_step hidle (max time actions.length) actions world after hrun htasks rfl).2.2
    (Nat.le_max_right _ _)
  rw [hempty] at htask
  cases htask

end Follow

end Fair

end World

namespace Discipline

open World

variable [DecidableEq ι] {system : System σ κ α χ μ ι ε π} {discipline : Discipline system}

variable (discipline) in
structure Ranked (rank : μ → View σ μ ι π → Nat) : Prop where
  waits : ∀ {job other view}, discipline.waits job other view → rank other view < rank job view
  queue : ∀ {job other view}, system.queue job = system.queue other → system.queue job ≠ none →
    rank job view = rank other view
  mono : ∀ {job first second}, discipline.rely none first second → rank job second ≤ rank job first

section Waiting

variable {rank : μ → View σ μ ι π → Nat} {world : World σ κ α μ π} {task other : Task σ κ α μ π}

theorem waitsFor_lower (hranked : discipline.Ranked rank) (hsound : discipline.Sound world)
    (hordered : world.Ordered) (h : WaitsFor system world task other) :
    rank other.job (world.view system) < rank task.job (world.view system) ∨
      rank other.job (world.view system) = rank task.job (world.view system) ∧
        other.ticket < task.ticket := by
  cases h with
  | queue place before htask hother hbefore hsome hqueue =>
    refine .inr ⟨(hranked.queue hqueue.symm hsome).symm, ?_⟩
    exact hordered.ticket_lt hother htask hbefore
  | join place tickets next htask hfront hproc hother hticket =>
    obtain ⟨known, hknown, hok⟩ := hsound.running htask hfront
    rw [hproc] at hok
    obtain ⟨job, hmem, hwaits⟩ := hok.1 other.ticket hticket
    rw [(hknown other.ticket job hmem).2 other hother rfl]
    exact .inl (hranked.waits hwaits)

theorem no_cycle (hranked : discipline.Ranked rank) (hsound : discipline.Sound world)
    (hordered : world.Ordered) (task : Task σ κ α μ π) :
    ¬TransGen (WaitsFor system world) task task := by
  have hlower : ∀ {task other}, TransGen (WaitsFor system world) task other →
      rank other.job (world.view system) < rank task.job (world.view system) ∨
        rank other.job (world.view system) = rank task.job (world.view system) ∧
          other.ticket < task.ticket := by
    intro task other h
    induction h with
    | single h => exact waitsFor_lower hranked hsound hordered h
    | tail _ h ih =>
      have hlast := waitsFor_lower hranked hsound hordered h
      omega
  intro hcycle
  have hself := hlower hcycle
  omega

end Waiting

section Ends

variable {rank : μ → View σ μ ι π → Nat} {world : Nat → World σ κ α μ π}
  {action : Nat → Action κ χ ε}

theorem soundAt (hsound : discipline.Sound (world 0)) (henters : discipline.Enters)
    (hrun : FairRun system world action)
    (hmeets : ∀ time, Meets system discipline.cond (world time) (action time)) :
    ∀ time, discipline.Sound (world time) := by
  intro time
  induction time with
  | zero => exact hsound
  | succ time ih => exact (ih.step henters (hmeets time) (hrun.step time)).1

theorem rely_later (hsound : discipline.Sound (world 0)) (henters : discipline.Enters)
    (hrun : FairRun system world action)
    (hmeets : ∀ time, Meets system discipline.cond (world time) (action time))
    {time later : Nat} (hle : time ≤ later) :
    discipline.rely none ((world time).view system) ((world later).view system) := by
  induction hle with
  | refl => exact discipline.rely_refl _ _
  | @step later hle ih =>
    obtain ⟨-, ⟨job, htrail⟩, -⟩ :=
      (soundAt hsound henters hrun hmeets later).step henters (hmeets later) (hrun.step later)
    exact discipline.rely_trans ih (rely_of_trail htrail)

theorem ready_of_idle (hranked : discipline.Ranked rank) (hsound : discipline.Sound (world 0))
    (hordered : (world 0).Ordered) (henters : discipline.Enters)
    (hrun : FairRun system world action)
    (hmeets : ∀ time, Meets system discipline.cond (world time) (action time))
    {time : Nat} {task : Task σ κ α μ π} (htask : task ∈ (world time).tasks)
    (hidle : ∀ later ≥ time, ¬Acts (world later) (action later) task.ticket)
    (hlower : ∀ later ≥ time, ∀ other ∈ (world later).tasks,
      rank other.job ((world later).view system) < rank task.job ((world later).view system) →
      ∃ last ≥ later, Gone (world last) other.ticket)
    (hearlier : ∀ other ∈ (world time).tasks, other.ticket < task.ticket →
      system.queue other.job = system.queue task.job → system.queue task.job ≠ none →
      ∃ later ≥ time, Gone (world later) other.ticket) :
    ∃ later ≥ time, ∀ last ≥ later, Ready system (world last) task.ticket := by
  have hbound := (hrun.ordered hordered time).bound
  -- first the tasks before it in its queue end
  let before := ((world time).tasks.filter fun other =>
    other.ticket < task.ticket ∧ system.queue other.job = system.queue task.job ∧
      system.queue task.job ≠ none).map (·.ticket)
  have hbefore : ∀ ticket ∈ before, ∃ other ∈ (world time).tasks, other.ticket = ticket ∧
      other.ticket < task.ticket ∧ system.queue other.job = system.queue task.job ∧
      system.queue task.job ≠ none := by
    intro ticket hticket
    obtain ⟨other, hother, hsame⟩ := mem_map.mp hticket
    obtain ⟨hmem, hfilter⟩ := mem_filter.mp hother
    exact ⟨other, hmem, hsame, of_decide_eq_true hfilter⟩
  obtain ⟨middle, hmiddle, hfirst⟩ := hrun.gone_all hordered before (fun ticket hticket => by
      obtain ⟨other, hmem, hsame, -⟩ := hbefore ticket hticket
      exact hsame ▸ hbound other hmem)
    (fun ticket hticket => by
      obtain ⟨other, hmem, hsame, hlt, hqueue, hsome⟩ := hbefore ticket hticket
      exact hsame ▸ hearlier other hmem hlt hqueue hsome)
  have hfront : ∀ later ≥ middle, ∀ place : Nat, (world later).tasks[place]? = some task →
      IsFront system (world later) place task.job := by
    intro later hlater place hplace
    by_cases hsome : system.queue task.job = none
    · exact .inl hsome
    · refine (hrun.ordered hordered later).isFront hplace fun other hother hlt hqueue => ?_
      obtain ⟨old, hold, hticket, hjob⟩ := hrun.came hordered (Nat.le_trans hmiddle hlater) other
        hother (Nat.lt_trans hlt (hbound task htask))
      have hmem : other.ticket ∈ before := by
        refine mem_map.mpr ⟨old, mem_filter.mpr ⟨hold, decide_eq_true ?_⟩, hticket⟩
        rw [hticket, hjob]
        exact ⟨hlt, hqueue, hsome⟩
      refine hrun.gone_mono hordered hlater ?_ (hfirst _ hmem) other hother rfl
      exact Nat.lt_of_lt_of_le (hticket ▸ hbound old hold) (hrun.next_mono hordered hmiddle)
  have hstays : ∀ later ≥ middle, ∃ place : Nat, (world later).tasks[place]? = some task :=
    fun later hlater => mem_iff_getElem?.mp
      (hrun.stays hordered (Nat.le_trans hmiddle hlater) htask fun between htime _ => hidle between htime)
  -- then the tasks that it waits for
  have hjoined : ∃ later ≥ middle, ∀ last ≥ later, ∀ tickets next,
      task.proc = .join tickets next → tickets.all (world last).finished = true := by
    cases hproc : task.proc with
    | join tickets next =>
      obtain ⟨place, hplace⟩ := hstays middle (Nat.le_refl _)
      have hsoundMiddle := soundAt hsound henters hrun hmeets middle
      obtain ⟨known, hknown, hok⟩ :=
        hsoundMiddle.running hplace (hfront middle (Nat.le_refl _) place hplace)
      rw [hproc] at hok
      have hends : ∀ ticket ∈ tickets, ticket < (world middle).next ∧
          ∃ later ≥ middle, Gone (world later) ticket := by
        intro ticket hticket
        obtain ⟨other, hmem, hwaits⟩ := hok.1 ticket hticket
        obtain ⟨hnext, hjobs⟩ := hknown ticket other hmem
        refine ⟨hnext, ?_⟩
        by_cases hgone : Gone (world middle) ticket
        · exact ⟨middle, Nat.le_refl _, hgone⟩
        · obtain ⟨found, hfound, hsame⟩ :
              ∃ found ∈ (world middle).tasks, found.ticket = ticket := by
            by_contra hnone
            exact hgone fun found hfound hsame => hnone ⟨found, hfound, hsame⟩
          rw [← hsame]
          refine hlower middle hmiddle found hfound ?_
          rw [hjobs found hfound hsame]
          exact hranked.waits hwaits
      obtain ⟨last, hlast, hgone⟩ := hrun.gone_all hordered tickets
        (fun ticket hticket => (hends ticket hticket).1)
        (fun ticket hticket => (hends ticket hticket).2)
      refine ⟨last, hlast, fun end' hend tickets' next' hjoin => ?_⟩
      cases hjoin
      refine all_eq_true.mpr fun ticket hticket => all_eq_true.mpr fun found hfound => ?_
      refine decide_eq_true (hrun.gone_mono hordered hend ?_ (hgone ticket hticket) found hfound)
      exact Nat.lt_of_lt_of_le (hends ticket hticket).1 (hrun.next_mono hordered hlast)
    | done | act | mark | call | fork =>
      exact ⟨middle, Nat.le_refl _, fun last _ tickets next hjoin => by cases hjoin⟩
  obtain ⟨later, hlater, hdone⟩ := hjoined
  refine ⟨later, Nat.le_trans hmiddle hlater, fun last hlast => ?_⟩
  have hafter : last ≥ middle := Nat.le_trans hlater hlast
  obtain ⟨place, hplace⟩ := hstays last hafter
  exact ⟨place, task, hplace, rfl,
    readyAt_of_front hplace (hfront last hafter place hplace) (hdone last hlast)⟩

theorem ends (hranked : discipline.Ranked rank) (hsound : discipline.Sound (world 0))
    (hordered : (world 0).Ordered) (henters : discipline.Enters)
    (hrun : FairRun system world action)
    (hmeets : ∀ time, Meets system discipline.cond (world time) (action time)) :
    ∀ bound time task, task ∈ (world time).tasks →
      rank task.job ((world time).view system) < bound →
      ∃ later ≥ time, Gone (world later) task.ticket := by
  intro bound
  induction bound with
  | zero => exact fun time task htask hrank => absurd hrank (Nat.not_lt_zero _)
  | succ bound ihRank =>
    have hmono : ∀ {time later : Nat} (job : μ), time ≤ later →
        rank job ((world later).view system) ≤ rank job ((world time).view system) :=
      fun job hle => hranked.mono (rely_later hsound henters hrun hmeets hle)
    have hticket : ∀ ticket time task, task ∈ (world time).tasks → task.ticket = ticket →
        rank task.job ((world time).view system) < bound + 1 →
        ∃ later ≥ time, Gone (world later) task.ticket := by
      intro ticket
      induction ticket using Nat.strongRecOn with
      | ind ticket ihTicket =>
        have hproc : ∀ proc time task, task ∈ (world time).tasks → task.ticket = ticket →
            task.proc = proc → rank task.job ((world time).view system) < bound + 1 →
            ∃ later ≥ time, Gone (world later) task.ticket := by
          intro proc
          induction proc using Proc.child_wellFounded.transGen.induction with
          | h proc ihProc =>
            intro time task htask hsame hat hrank
            by_cases hidle : ∀ later ≥ time, ¬Acts (world later) (action later) task.ticket
            · exfalso
              obtain ⟨later, hlater, hready⟩ := ready_of_idle hranked hsound hordered henters
                hrun hmeets htask hidle
                (fun later hlater other hother hlt => ihRank later other hother
                  (Nat.lt_of_lt_of_le hlt
                    (Nat.le_of_lt_succ (Nat.lt_of_le_of_lt (hmono task.job hlater) hrank))))
                (fun other hother hlt hqueue hsome =>
                  ihTicket other.ticket (hsame ▸ hlt) time other hother rfl
                    (hranked.queue hqueue (hqueue ▸ hsome) ▸ hrank))
              obtain ⟨last, hlast, hacts⟩ := hrun.fair later task.ticket hready
              exact hidle last (Nat.le_trans hlater hlast) hacts
            · have hacts : ∃ later ≥ time,
                  Acts (world later) (action later) task.ticket := by
                by_contra hnone
                exact hidle fun later hlater hacts => hnone ⟨later, hlater, hacts⟩
              obtain ⟨later, hlater, hgoes⟩ := hrun.goesDown hordered htask hacts
              cases hgoes with
              | inl hgone => exact ⟨later, hlater, hgone⟩
              | inr hdown =>
                obtain ⟨found, hfound, hticket, hjob, hchild⟩ := hdown
                obtain ⟨last, hlast, hgone⟩ := ihProc found.proc (hat ▸ hchild) later found
                  hfound (hticket.trans hsame) rfl
                  (hjob ▸ Nat.lt_of_le_of_lt (hmono task.job hlater) hrank)
                exact ⟨last, Nat.le_trans hlater hlast, hticket ▸ hgone⟩
        exact fun time task htask hsame hrank => hproc task.proc time task htask hsame rfl hrank
    exact fun time task htask hrank => hticket task.ticket time task htask rfl hrank

end Ends

end Discipline
end AsyncTasks
