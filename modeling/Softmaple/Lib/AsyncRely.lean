import Softmaple.Lib.AsyncTasks

/-!
Rely and guarantee for asynchronous functions. A `Discipline` says what a job
may do between two awaits (`guar`) and what it may count on while it waits
(`rely`): jobs of its own queue do not run meanwhile. `Ok` is the weakest
precondition of a proc; `Sound` is the invariant of the world, which every step
keeps.
-/
namespace AsyncTasks

open List

variable {σ κ μ ι ε π : Type} {α χ : κ → Type}

structure Discipline [DecidableEq ι] (system : System σ κ α χ μ ι ε π) where
  /-- The condition under which a mark is passed. -/
  cond : π → View σ μ ι π → Prop
  /-- What holds where a mark is passed. -/
  ensures : π → View σ μ ι π → Prop
  inv : View σ μ ι π → Prop
  /-- What holds of a queue while none of its jobs has begun. -/
  rest : ι → View σ μ ι π → Prop
  guar : μ → View σ μ ι π → View σ μ ι π → Prop
  rely : Option ι → View σ μ ι π → View σ μ ι π → Prop
  /-- When a job may wait for the end of another. -/
  waits : μ → μ → View σ μ ι π → Prop
  guar_refl : ∀ job view, guar job view view
  rely_refl : ∀ lane view, rely lane view view
  rely_trans : ∀ {lane first second third}, rely lane first second → rely lane second third →
    rely lane first third
  rely_none : ∀ {lane first second}, rely lane first second → rely none first second
  rely_of_guar : ∀ {lane job first second}, guar job first second → inv first → inv second →
    (lane = none ∨ system.queue job ≠ lane) → rely lane first second
  rest_of_rely : ∀ {lane first second}, rest lane first → rely (some lane) first second →
    rest lane second
  waits_of_rely : ∀ {job other first second}, waits job other first →
    rely (system.queue job) first second → waits job other second

namespace Discipline

variable [DecidableEq ι] {system : System σ κ α χ μ ι ε π} (discipline : Discipline system)

/-- What happens while a job of the lane waits: its queue only grows. -/
def Later (lane : Option ι) (first second : View σ μ ι π) : Prop :=
  discipline.rely lane first second ∧ ∀ own, lane = some own → first.lanes own <+: second.lanes own

def Leaves (job : μ) (view : View σ μ ι π) : Prop :=
  ∀ lane, system.queue job = some lane →
    discipline.guar job view (view.pop (some lane)) ∧ discipline.inv (view.pop (some lane)) ∧
      discipline.rest lane (view.pop (some lane))

def Ok : Proc σ κ α μ π → μ → List (Nat × μ) → View σ μ ι π → Prop
  | .done, job, _, view => discipline.Leaves job view
  | .act update next, job, known, view =>
    discipline.guar job view { view with state := update view.state } ∧
    discipline.inv { view with state := update view.state } ∧
    Ok (next view.state) job known { view with state := update view.state }
  | .mark event next, job, known, view =>
    discipline.cond event view →
    discipline.ensures event view ∧
    discipline.guar job view { view with trace := view.trace ++ [event] } ∧
    discipline.inv { view with trace := view.trace ++ [event] } ∧
    Ok next job known { view with trace := view.trace ++ [event] }
  | .call request next, job, known, view =>
    ∀ before, discipline.Later (system.queue job) view before → discipline.inv before →
      ∀ choice answer state, system.serve request choice before.state = some (answer, state) →
        discipline.guar job before { before with state := state } ∧
        discipline.inv { before with state := state } ∧
        ∀ after, discipline.Later (system.queue job) { before with state := state } after →
          discipline.inv after → Ok (next answer) job known after
  | .fork other body next, job, known, view =>
    discipline.guar job view (view.push (system.queue other) other) ∧
    discipline.inv (view.push (system.queue other) other) ∧
    (∀ start, discipline.Later none (view.push (system.queue other) other) start →
      discipline.inv start →
      (∀ lane, system.queue other = some lane →
        discipline.rest lane start ∧ ∃ others, start.lanes lane = other :: others) →
      Ok body other [] start) ∧
    ∀ ticket, Ok (next ticket) job ((ticket, other) :: known) (view.push (system.queue other) other)
  | .join tickets next, job, known, view =>
    (∀ ticket ∈ tickets, ∃ other, (ticket, other) ∈ known ∧ discipline.waits job other view) ∧
    ∀ after, discipline.Later (system.queue job) view after → discipline.inv after →
      Ok next job known after

/-- What a job may still start from. -/
def Starts (job : μ) (body : Proc σ κ α μ π) (view : View σ μ ι π) : Prop :=
  ∀ start, discipline.Later none view start → discipline.inv start →
    (∀ lane, system.queue job = some lane →
      discipline.rest lane start ∧ ∃ others, start.lanes lane = job :: others) →
    discipline.Ok body job [] start

def Change (job : μ) (first second : View σ μ ι π) : Prop :=
  discipline.guar job first second ∧ discipline.inv first ∧ discipline.inv second

/-- What a job changes up to its next `await`. -/
def Trail (job : μ) : View σ μ ι π → View σ μ ι π → Prop :=
  Relation.ReflTransGen (discipline.Change job)

section Soundness

open World

variable {discipline} {lane : Option ι} {first second third : View σ μ ι π} {job : μ}

theorem Later.refl (lane : Option ι) (view : View σ μ ι π) : discipline.Later lane view view :=
  ⟨discipline.rely_refl lane view, fun _ _ => prefix_rfl⟩

theorem Later.trans (h : discipline.Later lane first second)
    (hnext : discipline.Later lane second third) : discipline.Later lane first third :=
  ⟨discipline.rely_trans h.1 hnext.1, fun own hown => (h.2 own hown).trans (hnext.2 own hown)⟩

theorem Later.none (h : discipline.Later lane first second) : discipline.Later none first second :=
  ⟨discipline.rely_none h.1, fun _ hown => by cases hown⟩

theorem Starts.later {body : Proc σ κ α μ π} (h : discipline.Starts job body first)
    (hlater : discipline.Later none first second) : discipline.Starts job body second := by
  intro start hstart
  exact h start (hlater.trans hstart)

theorem Ok.later {proc : Proc σ κ α μ π} {known : List (Nat × μ)}
    (h : discipline.Ok proc job known first)
    (hblocked : (∃ request next, proc = .call request next) ∨ ∃ tickets next, proc = .join tickets next)
    (hlater : discipline.Later (system.queue job) first second) :
    discipline.Ok proc job known second := by
  cases hblocked with
  | inl hcall =>
    obtain ⟨request, next, rfl⟩ := hcall
    intro before hbefore
    exact h before (hlater.trans hbefore)
  | inr hjoin =>
    obtain ⟨tickets, next, rfl⟩ := hjoin
    refine ⟨fun ticket hticket => ?_, fun after hafter => h.2 after (hlater.trans hafter)⟩
    obtain ⟨other, hknown, hwaits⟩ := h.1 ticket hticket
    exact ⟨other, hknown, discipline.waits_of_rely hwaits hlater.1⟩

variable (discipline) in
def KnownSound (world : World σ κ α μ π) (known : List (Nat × μ)) : Prop :=
  ∀ ticket other, (ticket, other) ∈ known → ticket < world.next ∧
    ∀ task ∈ world.tasks, task.ticket = ticket → task.job = other

variable (discipline) in
def Running (world : World σ κ α μ π) (task : Task σ κ α μ π) : Prop :=
  ∃ known, KnownSound world known ∧
    ∀ after, discipline.Later (system.queue task.job) (world.view system) after →
      discipline.inv after → discipline.Ok task.proc task.job known after

variable (discipline) in
def GoodAt (world : World σ κ α μ π) (place : Nat) : Prop :=
  ∀ task, world.tasks[place]? = some task →
    (IsFront system world place task.job → discipline.Running world task) ∧
    (¬IsFront system world place task.job →
      discipline.Starts task.job task.proc (world.view system))

variable (discipline) in
structure SoundExcept (world : World σ κ α μ π) (except : Nat) : Prop where
  inv : discipline.inv (world.view system)
  rest : ∀ own, world.lane system own = [] → discipline.rest own (world.view system)
  tickets : ∀ task ∈ world.tasks, task.ticket < world.next
  good : ∀ place, place ≠ except → discipline.GoodAt world place

variable (discipline) in
structure Sound (world : World σ κ α μ π) : Prop where
  inv : discipline.inv (world.view system)
  rest : ∀ own, world.lane system own = [] → discipline.rest own (world.view system)
  tickets : ∀ task ∈ world.tasks, task.ticket < world.next
  good : ∀ place, discipline.GoodAt world place

section Transfer

variable {world after : World σ κ α μ π} {place : Nat}

omit [DecidableEq ι] in
theorem isFront_congr (hbefore : ∀ before < place,
      after.tasks[before]?.map (·.job) = world.tasks[before]?.map (·.job)) :
    IsFront system after place job ↔ IsFront system world place job := by
  rw [isFront_iff, isFront_iff]
  refine or_congr Iff.rfl (forall_congr' fun before => forall_congr' fun hlt => ?_)
  have hjobs := hbefore before hlt
  constructor
  · intro h earlier hearlier
    rw [hearlier] at hjobs
    obtain ⟨other, hother, hsame⟩ := Option.map_eq_some_iff.mp hjobs
    have hjob : other.job = earlier.job := hsame
    rw [← hjob]
    exact h other hother
  · intro h earlier hearlier
    rw [hearlier] at hjobs
    obtain ⟨other, hother, hsame⟩ := Option.map_eq_some_iff.mp hjobs.symm
    have hjob : other.job = earlier.job := hsame
    rw [← hjob]
    exact h other hother

def SameTickets (world after : World σ κ α μ π) : Prop :=
  world.next ≤ after.next ∧ ∀ task ∈ after.tasks,
    (∃ old ∈ world.tasks, old.ticket = task.ticket ∧ old.job = task.job) ∨ world.next ≤ task.ticket

theorem KnownSound.later {known : List (Nat × μ)} (h : KnownSound world known)
    (hsame : SameTickets world after) : KnownSound after known := by
  intro ticket other hknown
  obtain ⟨hlt, htasks⟩ := h ticket other hknown
  refine ⟨Nat.lt_of_lt_of_le hlt hsame.1, fun task htask hticket => ?_⟩
  cases hsame.2 task htask with
  | inl hold =>
    obtain ⟨old, hmem, holdTicket, holdJob⟩ := hold
    rw [← holdJob]
    exact htasks old hmem (holdTicket.trans hticket)
  | inr hnew => omega

theorem GoodAt.later (h : discipline.GoodAt world place)
    (htask : after.tasks[place]? = world.tasks[place]?)
    (hbefore : ∀ before < place,
      after.tasks[before]?.map (·.job) = world.tasks[before]?.map (·.job))
    (hsame : SameTickets world after)
    (hnone : discipline.Later none (world.view system) (after.view system))
    (hlater : ∀ task, world.tasks[place]? = some task → IsFront system world place task.job →
      discipline.Later (system.queue task.job) (world.view system) (after.view system)) :
    discipline.GoodAt after place := by
  intro task hplace
  rw [htask] at hplace
  obtain ⟨hrunning, hstarts⟩ := h task hplace
  rw [isFront_congr hbefore]
  constructor
  · intro hfront
    obtain ⟨known, hknown, hok⟩ := hrunning hfront
    exact ⟨known, hknown.later hsame,
      fun view hview => hok view ((hlater task hplace hfront).trans hview)⟩
  · intro hqueued
    exact (hstarts hqueued).later hnone

end Transfer

section Advance

variable {world : World σ κ α μ π} {place : Nat} {task : Task σ κ α μ π} {proc : Proc σ κ α μ π}

theorem later_of_guar (h : discipline.guar job first second) (hinv : discipline.inv first)
    (hnext : discipline.inv second) (hother : lane = none ∨ system.queue job ≠ lane)
    (hgrows : ∀ own, lane = some own → first.lanes own <+: second.lanes own) :
    discipline.Later lane first second :=
  ⟨discipline.rely_of_guar h hinv hnext hother, hgrows⟩

theorem later_none_of_guar (h : discipline.guar job first second) (hinv : discipline.inv first)
    (hnext : discipline.inv second) : discipline.Later none first second :=
  later_of_guar h hinv hnext (.inl rfl) fun _ hown => by cases hown

variable (discipline) in
/-- The task at a place has come to `proc` since the world was `start`. -/
structure Advanced (place : Nat) (task : Task σ κ α μ π) (start : View σ μ ι π)
    (proc : Proc σ κ α μ π) (world : World σ κ α μ π) : Prop where
  sound : discipline.SoundExcept world place
  found : world.tasks[place]? = some task
  front : IsFront system world place task.job
  ok : ∃ known, KnownSound world known ∧ discipline.Ok proc task.job known (world.view system)
  trail : discipline.Trail task.job start (world.view system)

theorem SoundExcept.change (h : discipline.SoundExcept world place)
    (hfound : world.tasks[place]? = some task) (hfront : IsFront system world place task.job)
    {state : σ} {trace : List π}
    (hguar : discipline.guar task.job (world.view system)
      (({ world with state := state, trace := trace } : World σ κ α μ π).view system))
    (hinv : discipline.inv
      (({ world with state := state, trace := trace } : World σ κ α μ π).view system)) :
    discipline.SoundExcept { world with state := state, trace := trace } place := by
  have hnone := later_none_of_guar hguar h.inv hinv
  have hsame : SameTickets world { world with state := state, trace := trace } :=
    ⟨Nat.le_refl _, fun task htask => .inl ⟨task, htask, rfl, rfl⟩⟩
  refine ⟨hinv, ?_, h.tickets, ?_⟩
  · intro own hempty
    refine discipline.rest_of_rely (h.rest own hempty)
      (discipline.rely_of_guar hguar h.inv hinv (.inr fun hqueue => ?_))
    exact lane_eq_nil.mp hempty task (mem_of_getElem? hfound) hqueue
  · intro other hother
    refine (h.good other hother).later rfl (fun _ _ => rfl) hsame hnone ?_
    intro running hrunning hother'
    refine later_of_guar hguar h.inv hinv ?_ fun own _ => prefix_rfl
    exact queue_ne_of_front hfound hrunning hfront hother' (Ne.symm hother)

variable {start : View σ μ ι π}

theorem Advanced.act {update : σ → σ} {next : σ → Proc σ κ α μ π}
    (h : discipline.Advanced place task start (.act update next) world) :
    discipline.Advanced place task start (next world.state)
      { world with state := update world.state } := by
  obtain ⟨known, hknown, hguar, hinv, hok⟩ := h.ok
  exact ⟨h.sound.change h.found h.front hguar hinv, h.found, h.front, ⟨known, hknown, hok⟩,
    h.trail.tail ⟨hguar, h.sound.inv, hinv⟩⟩

theorem Advanced.mark {event : π} {next : Proc σ κ α μ π}
    (h : discipline.Advanced place task start (.mark event next) world)
    (hcond : discipline.cond event (world.view system)) :
    discipline.Advanced place task start next { world with trace := world.trace ++ [event] } := by
  obtain ⟨known, hknown, hmark⟩ := h.ok
  obtain ⟨-, hguar, hinv, hok⟩ := hmark hcond
  exact ⟨h.sound.change h.found h.front hguar hinv, h.found, h.front, ⟨known, hknown, hok⟩,
    h.trail.tail ⟨hguar, h.sound.inv, hinv⟩⟩

theorem Advanced.fork {other : μ} {body : Proc σ κ α μ π} {next : Nat → Proc σ κ α μ π}
    (h : discipline.Advanced place task start (.fork other body next) world) :
    discipline.Advanced place task start (next world.next) { world with
        tasks := world.tasks ++ [⟨world.next, other, body⟩]
        next := world.next + 1 } := by
  obtain ⟨known, hknown, hguar, hinv, hstarts, hok⟩ := h.ok
  have hplace : place < world.tasks.length := (List.getElem?_eq_some_iff.mp h.found).1
  let after : World σ κ α μ π :=
    { world with tasks := world.tasks ++ [⟨world.next, other, body⟩], next := world.next + 1 }
  have hview : after.view system =
      (world.view system).push (system.queue other) other := view_append
  have hkeep : ∀ before < world.tasks.length, after.tasks[before]? = world.tasks[before]? :=
    fun before hlt => getElem?_append_left hlt
  have hbefore : ∀ bound ≤ world.tasks.length, ∀ before < bound,
      after.tasks[before]?.map (·.job) = world.tasks[before]?.map (·.job) := by
    intro bound hbound before hlt
    rw [hkeep before (Nat.lt_of_lt_of_le hlt hbound)]
  have hsame : SameTickets world after := by
    refine ⟨Nat.le_succ _, fun task htask => ?_⟩
    cases mem_append.mp htask with
    | inl hold => exact .inl ⟨task, hold, rfl, rfl⟩
    | inr hnew =>
      rw [mem_singleton.mp hnew]
      exact .inr (Nat.le_refl _)
  rw [← hview] at hguar hinv hok
  have hstarts : discipline.Starts other body (after.view system) := by
    rw [hview]
    exact hstarts
  have hnone := later_none_of_guar hguar h.sound.inv hinv
  have hgrows : ∀ own, (world.view system).lanes own <+: (after.view system).lanes own := by
    intro own
    rw [hview]
    dsimp only [View.push]
    split
    · exact prefix_append _ _
    · exact prefix_rfl
  have hrest : ∀ own, world.lane system own = [] → discipline.rest own (after.view system) := by
    intro own hempty
    refine discipline.rest_of_rely (h.sound.rest own hempty)
      (discipline.rely_of_guar hguar h.sound.inv hinv (.inr fun hqueue => ?_))
    exact lane_eq_nil.mp hempty task (mem_of_getElem? h.found) hqueue
  refine ⟨⟨hinv, ?_, ?_, ?_⟩, (hkeep place hplace).trans h.found,
    (isFront_congr (hbefore place (Nat.le_of_lt hplace))).mpr h.front,
    ⟨(world.next, other) :: known, ?_, hok world.next⟩,
    h.trail.tail ⟨hguar, h.sound.inv, hinv⟩⟩
  · intro own hempty
    refine hrest own (lane_eq_nil.mpr fun task htask => ?_)
    exact lane_eq_nil.mp hempty task (mem_append_left _ htask)
  · intro task htask
    cases mem_append.mp htask with
    | inl hold => exact Nat.lt_succ_of_lt (h.sound.tickets task hold)
    | inr hnew =>
      rw [mem_singleton.mp hnew]
      exact Nat.lt_succ_self _
  · intro other' hother'
    cases Nat.lt_or_ge other' world.tasks.length with
    | inl hlt =>
      refine (h.sound.good other' hother').later (hkeep other' hlt)
        (hbefore other' (Nat.le_of_lt hlt)) hsame hnone ?_
      intro running hrunning hrunningFront
      refine later_of_guar hguar h.sound.inv hinv ?_ fun own _ => hgrows own
      exact queue_ne_of_front h.found hrunning h.front hrunningFront (Ne.symm hother')
    | inr hge =>
      intro found hfound
      have hlast : other' = world.tasks.length := by
        have hbound := (List.getElem?_eq_some_iff.mp hfound).1
        rw [length_append, length_singleton] at hbound
        omega
      rw [hlast, getElem?_concat_length] at hfound
      cases hfound
      refine ⟨fun hfront => ?_, fun _ => hstarts⟩
      have hnothing : KnownSound after [] := by
        intro ticket job hmem
        cases hmem
      -- the new job is the first of its queue, which was at rest
      refine ⟨[], hnothing, fun view hview' hinv' => ?_⟩
      refine hstarts view hview'.none hinv' fun own hqueue => ?_
      have hempty : world.lane system own = [] := by
        refine lane_eq_nil.mpr fun earlier hearlier hsameQueue => ?_
        cases hfront with
        | inl hnone => cases hnone.symm.trans hqueue
        | inr hfirst =>
          refine hfirst earlier ?_ (hsameQueue.trans hqueue.symm)
          rw [hlast, take_left]
          exact hearlier
      refine ⟨discipline.rest_of_rely (hrest own hempty) (hqueue ▸ hview'.1), ?_⟩
      have hlanes : (after.view system).lanes own = [other] := by
        rw [hview]
        dsimp only [View.push]
        rw [if_pos hqueue]
        exact congrArg (· ++ [other]) hempty
      obtain ⟨others, hothers⟩ := hview'.2 own hqueue
      rw [hlanes] at hothers
      exact ⟨others, hothers.symm⟩
  · intro ticket job hmem
    cases mem_cons.mp hmem with
    | inl heq =>
      cases heq
      refine ⟨Nat.lt_succ_self _, fun task htask hticket => ?_⟩
      cases mem_append.mp htask with
      | inl hold => exact absurd hticket (Nat.ne_of_lt (h.sound.tickets task hold))
      | inr hnew => rw [mem_singleton.mp hnew]
    | inr hold => exact hknown.later hsame ticket job hold

theorem Advanced.advance (proc : Proc σ κ α μ π) : ∀ {start : View σ μ ι π}
    {world : World σ κ α μ π}, discipline.Advanced place task start proc world →
      Passes system discipline.cond proc world →
      discipline.Advanced place task start (World.advance proc world).1
          (World.advance proc world).2 ∧
        Passes system discipline.ensures proc world := by
  induction proc with
  | done =>
    intro start world h hpasses
    exact ⟨h, trivial⟩
  | act update next ih =>
    intro start world h hpasses
    exact ih world.state h.act hpasses
  | mark event next ih =>
    intro start world h hpasses
    obtain ⟨known, hknown, hmark⟩ := h.ok
    obtain ⟨hadvanced, hrest⟩ := ih (h.mark hpasses.1) hpasses.2
    exact ⟨hadvanced, (hmark hpasses.1).1, hrest⟩
  | call request next ih =>
    intro start world h hpasses
    exact ⟨h, trivial⟩
  | fork other body next ihBody ih =>
    intro start world h hpasses
    exact ih world.next h.fork hpasses
  | join tickets next ih =>
    intro start world h hpasses
    exact ⟨h, trivial⟩

end Advance

section Settle

variable {world : World σ κ α μ π} {place : Nat} {task : Task σ κ α μ π} {proc : Proc σ κ α μ π}

theorem advance_blocked (proc : Proc σ κ α μ π) : ∀ {world : World σ κ α μ π},
    (World.advance proc world).1 = .done ∨
      (∃ request next, (World.advance proc world).1 = .call request next) ∨
      ∃ tickets next, (World.advance proc world).1 = .join tickets next := by
  induction proc with
  | done =>
    intro world
    exact .inl rfl
  | act update next ih =>
    intro world
    exact ih world.state
  | mark event next ih =>
    intro world
    exact ih
  | call request next ih =>
    intro world
    exact .inr (.inl ⟨request, next, rfl⟩)
  | fork other body next ihBody ih =>
    intro world
    exact ih world.next
  | join tickets next ih =>
    intro world
    exact .inr (.inr ⟨tickets, next, rfl⟩)

theorem SoundExcept.set (h : discipline.SoundExcept world place)
    (hfound : world.tasks[place]? = some task) (hfront : IsFront system world place task.job)
    (hrunning : discipline.Running world { task with proc := proc }) :
    discipline.Sound { world with tasks := world.tasks.set place { task with proc := proc } } := by
  let after : World σ κ α μ π :=
    { world with tasks := world.tasks.set place { task with proc := proc } }
  have hplace : place < world.tasks.length := (List.getElem?_eq_some_iff.mp hfound).1
  have hview : after.view system = world.view system := view_set hfound
  have hold : ∀ found ∈ after.tasks,
      ∃ old ∈ world.tasks, old.ticket = found.ticket ∧ old.job = found.job := by
    intro found hmem
    cases mem_or_eq_of_mem_set hmem with
    | inl hmem => exact ⟨found, hmem, rfl, rfl⟩
    | inr heq =>
      rw [heq]
      exact ⟨task, mem_of_getElem? hfound, rfl, rfl⟩
  have hsame : SameTickets world after := ⟨Nat.le_refl _, fun found hmem => .inl (hold found hmem)⟩
  have hother : ∀ other, other ≠ place → after.tasks[other]? = world.tasks[other]? :=
    fun other hne => getElem?_set_ne (Ne.symm hne)
  have hjobs : ∀ other : Nat, after.tasks[other]?.map (·.job) = world.tasks[other]?.map (·.job) := by
    intro other
    by_cases hne : other = place
    · rw [hne, hfound]
      dsimp only [after]
      rw [getElem?_set_self hplace]
      rfl
    · rw [hother other hne]
  refine ⟨hview.symm ▸ h.inv, ?_, ?_, ?_⟩
  · intro own hempty
    refine hview.symm ▸ h.rest own (lane_eq_nil.mpr fun found hmem => ?_)
    obtain ⟨index, hindex⟩ := mem_iff_getElem?.mp hmem
    have hjob := hjobs index
    rw [hindex] at hjob
    obtain ⟨other, hget, hsameJob⟩ := Option.map_eq_some_iff.mp hjob
    have heq : other.job = found.job := hsameJob
    rw [← heq]
    exact lane_eq_nil.mp hempty other (mem_of_getElem? hget)
  · intro found hmem
    obtain ⟨old, hmem, hticket, -⟩ := hold found hmem
    rw [← hticket]
    exact h.tickets old hmem
  · intro other
    by_cases hne : other = place
    · intro found hget
      rw [hne] at hget ⊢
      have hset : after.tasks[place]? = some { task with proc := proc } :=
        getElem?_set_self hplace
      cases hset.symm.trans hget
      refine ⟨fun _ => ?_, fun hqueued => ?_⟩
      · obtain ⟨known, hknown, hok⟩ := hrunning
        exact ⟨known, hknown.later hsame, hview.symm ▸ hok⟩
      · exact absurd ((isFront_congr fun before _ => hjobs before).mpr hfront) hqueued
    · refine (h.good other hne).later (hother other hne) (fun before _ => hjobs before) hsame
        (hview.symm ▸ Later.refl _ _) fun _ _ _ => hview.symm ▸ Later.refl _ _

section Erase

/-- Where the task stood before the one at a place ended. -/
def beforeErase (place index : Nat) : Nat := if index < place then index else index + 1

omit [DecidableEq ι] in
theorem getElem?_erase (index : Nat) :
    (world.tasks.eraseIdx place)[index]? = world.tasks[beforeErase place index]? := by
  unfold beforeErase
  rw [getElem?_eraseIdx]
  split <;> rfl

omit [DecidableEq ι] in
theorem isFront_erase {index : Nat} (h : IsFront system world (beforeErase place index) job) :
    IsFront system { world with tasks := world.tasks.eraseIdx place } index job := by
  rw [isFront_iff] at h ⊢
  refine h.imp_right fun hfirst before hlt earlier hearlier => ?_
  dsimp only at hearlier
  rw [getElem?_erase] at hearlier
  refine hfirst (beforeErase place before) ?_ earlier hearlier
  unfold beforeErase
  split <;> split <;> omega

omit [DecidableEq ι] in
theorem isFront_of_erase {index : Nat} (hfound : world.tasks[place]? = some task)
    (hne : system.queue task.job ≠ system.queue job)
    (h : IsFront system { world with tasks := world.tasks.eraseIdx place } index job) :
    IsFront system world (beforeErase place index) job := by
  rw [isFront_iff] at h ⊢
  refine h.imp_right fun hfirst before hlt earlier hearlier => ?_
  cases Nat.lt_trichotomy before place with
  | inl hbefore =>
    refine hfirst before ?_ earlier ?_
    · unfold beforeErase at hlt
      split at hlt <;> omega
    · dsimp only
      rw [getElem?_erase, beforeErase, if_pos hbefore]
      exact hearlier
  | inr hrest =>
    cases hrest with
    | inl heq =>
      rw [heq, hfound] at hearlier
      cases hearlier
      exact hne
    | inr hafter =>
      refine hfirst (before - 1) ?_ earlier ?_
      · unfold beforeErase at hlt
        split at hlt <;> omega
      · dsimp only
        rw [getElem?_erase, beforeErase, if_neg (by omega), Nat.sub_add_cancel (by omega)]
        exact hearlier

theorem later_of_leaves (hinv : discipline.inv first) (hleaves : discipline.Leaves job first) :
    discipline.inv (first.pop (system.queue job)) ∧
      discipline.Trail job first (first.pop (system.queue job)) ∧
      ∀ lane, lane = none ∨ system.queue job ≠ lane →
        discipline.Later lane first (first.pop (system.queue job)) := by
  cases hqueue : system.queue job with
  | none => exact ⟨hinv, .refl, fun lane _ => Later.refl lane first⟩
  | some own =>
    obtain ⟨hguar, hnext, -⟩ := hleaves own hqueue
    refine ⟨hnext, .single ⟨hguar, hinv, hnext⟩, fun lane hlane => ?_⟩
    refine later_of_guar hguar hinv hnext (hqueue ▸ hlane) fun other hother => ?_
    have hne : ¬some own = some other := by
      intro hsame
      cases hlane with
      | inl hnone => cases hnone.symm.trans hother
      | inr hne => exact hne (hsame.trans hother.symm)
    have hsame : (first.pop (some own)).lanes other = first.lanes other := if_neg hne
    exact hsame ▸ prefix_rfl

theorem SoundExcept.erase (h : discipline.SoundExcept world place)
    (hfound : world.tasks[place]? = some task) (hfront : IsFront system world place task.job)
    (hleaves : discipline.Leaves task.job (world.view system)) :
    discipline.Sound { world with tasks := world.tasks.eraseIdx place } ∧
      discipline.Trail task.job (world.view system)
        (({ world with tasks := world.tasks.eraseIdx place } : World σ κ α μ π).view system) := by
  let after : World σ κ α μ π := { world with tasks := world.tasks.eraseIdx place }
  have hview : after.view system = (world.view system).pop (system.queue task.job) :=
    view_erase hfound hfront
  obtain ⟨hinv, htrail, hlater⟩ := later_of_leaves h.inv hleaves
  rw [← hview] at hinv htrail hlater
  have hsame : SameTickets world after :=
    ⟨Nat.le_refl _, fun found hmem => .inl ⟨found, mem_of_mem_eraseIdx hmem, rfl, rfl⟩⟩
  have hrest : ∀ own, system.queue task.job = some own →
      discipline.rest own (after.view system) := by
    intro own hqueue
    have hend := (hleaves own hqueue).2.2
    rw [← hqueue, ← hview] at hend
    exact hend
  refine ⟨⟨hinv, ?_, fun found hmem => h.tickets found (mem_of_mem_eraseIdx hmem), ?_⟩, htrail⟩
  · intro own hempty
    by_cases hqueue : system.queue task.job = some own
    · exact hrest own hqueue
    · refine discipline.rest_of_rely (h.rest own (lane_eq_nil.mpr fun found hmem => ?_))
        (hlater (some own) (.inr hqueue)).1
      obtain ⟨before, rest, -, hsplit, herase, -⟩ := tasks_split hfound
      rw [hsplit] at hmem
      cases mem_append.mp hmem with
      | inl hbefore =>
        exact lane_eq_nil.mp hempty found (herase ▸ mem_append_left _ hbefore)
      | inr hrest =>
        cases mem_cons.mp hrest with
        | inl heq =>
          rw [heq]
          exact hqueue
        | inr hafter =>
          exact lane_eq_nil.mp hempty found (herase ▸ mem_append_right _ hafter)
  · intro index found hindex
    have hbefore : world.tasks[beforeErase place index]? = some found := by
      rw [← getElem?_erase]
      exact hindex
    have hne : beforeErase place index ≠ place := by
      unfold beforeErase
      split <;> omega
    obtain ⟨hrunning, hstarts⟩ := h.good _ hne found hbefore
    by_cases hfirst : IsFront system world (beforeErase place index) found.job
    · refine ⟨fun _ => ?_, fun hqueued => absurd (isFront_erase hfirst) hqueued⟩
      obtain ⟨known, hknown, hok⟩ := hrunning hfirst
      refine ⟨known, hknown.later hsame, fun view hview' => hok view (Later.trans ?_ hview')⟩
      exact hlater _ (queue_ne_of_front hfound hbefore hfront hfirst (Ne.symm hne))
    · have hready := hstarts hfirst
      refine ⟨fun hnow => ?_, fun _ => hready.later (hlater none (.inl rfl))⟩
      -- the job that ended was the one before it in its queue
      have hqueues : system.queue task.job = system.queue found.job :=
        Decidable.byContradiction fun hdiff => hfirst (isFront_of_erase hfound hdiff hnow)
      have hnothing : KnownSound after [] := by
        intro ticket job hmem
        cases hmem
      refine ⟨[], hnothing, fun view hview' hinv' => ?_⟩
      refine hready view ((hlater none (.inl rfl)).trans hview'.none) hinv' fun own hqueue => ?_
      obtain ⟨others, hothers⟩ := lane_of_front hindex hnow hqueue
      obtain ⟨more, hmore⟩ := hview'.2 own hqueue
      refine ⟨discipline.rest_of_rely (hrest own (hqueues.trans hqueue)) (hqueue ▸ hview'.1),
        others ++ more, ?_⟩
      rw [← hmore]
      exact congrArg (· ++ more) hothers

end Erase

theorem Advanced.settle {start : View σ μ ι π} (h : discipline.Advanced place task start proc world)
    (hblocked : proc = .done ∨ (∃ request next, proc = .call request next) ∨
      ∃ tickets next, proc = .join tickets next) :
    discipline.Sound (World.settle place task proc world) ∧
      discipline.Trail task.job start ((World.settle place task proc world).view system) := by
  obtain ⟨known, hknown, hok⟩ := h.ok
  cases hblocked with
  | inl hdone =>
    rw [hdone] at hok ⊢
    obtain ⟨hsound, htrail⟩ := h.sound.erase h.found h.front hok
    exact ⟨hsound, h.trail.trans htrail⟩
  | inr hwaits =>
    have hset : World.settle place task proc world =
        { world with tasks := world.tasks.set place { task with proc := proc } } := by
      cases hwaits with
      | inl hcall =>
        obtain ⟨request, next, rfl⟩ := hcall
        rfl
      | inr hjoin =>
        obtain ⟨tickets, next, rfl⟩ := hjoin
        rfl
    have hview : (World.settle place task proc world).view system = world.view system := by
      rw [hset]
      exact view_set h.found
    rw [hview, hset]
    exact ⟨h.sound.set h.found h.front
      ⟨known, hknown, fun after hafter _ => hok.later hwaits hafter⟩, h.trail⟩

theorem Advanced.advanceAt {start : View σ μ ι π}
    (h : discipline.Advanced place task start proc world)
    (hpasses : Passes system discipline.cond proc world) :
    discipline.Sound (World.advanceAt place task proc world) ∧
      discipline.Trail task.job start ((World.advanceAt place task proc world).view system) ∧
      Passes system discipline.ensures proc world := by
  obtain ⟨hadvanced, hensures⟩ := Advanced.advance proc h hpasses
  obtain ⟨hsound, htrail⟩ := hadvanced.settle (advance_blocked proc)
  exact ⟨hsound, htrail, hensures⟩

end Settle

section Steps

variable {world after : World σ κ α μ π} {place : Nat}

section

variable (h : discipline.Sound world)
include h

theorem Sound.except (place : Nat) : discipline.SoundExcept world place :=
  ⟨h.inv, h.rest, h.tickets, fun other _ => h.good other⟩

theorem Sound.running {task : Task σ κ α μ π}
    (hfound : world.tasks[place]? = some task) (hfront : IsFront system world place task.job) :
    ∃ known, KnownSound world known ∧
      discipline.Ok task.proc task.job known (world.view system) := by
  obtain ⟨known, hknown, hok⟩ := (h.good place task hfound).1 hfront
  exact ⟨known, hknown, hok _ (Later.refl _ _) h.inv⟩

theorem Sound.serve {choice : (request : κ) → χ request}
    (hserve : World.serve system world place choice = some after) : discipline.Sound after ∧
      ∃ job, discipline.Change job (world.view system) (after.view system) := by
  unfold World.serve at hserve
  split at hserve
  · next task hfound =>
      split at hserve
      · next request next hproc =>
          split at hserve
          · next hfront =>
              obtain ⟨⟨answer, state⟩, hstate, rfl⟩ := Option.map_eq_some_iff.mp hserve
              obtain ⟨known, hknown, hok⟩ := h.running hfound hfront
              rw [hproc] at hok
              obtain ⟨hguar, hinv, hnext⟩ := hok _ (Later.refl _ _) h.inv _ answer state hstate
              have hchange := (h.except place).change hfound hfront hguar hinv
              refine ⟨hchange.set hfound hfront ⟨known, hknown, hnext⟩, ?_⟩
              rw [view_set hfound]
              exact ⟨task.job, hguar, h.inv, hinv⟩
          · cases hserve
      · cases hserve
  · cases hserve

theorem Sound.resume (hmeets : Meets system discipline.cond world (.resume place))
    (hresume : World.resume system world place = some after) : discipline.Sound after ∧
      (∃ job, discipline.Trail job (world.view system) (after.view system)) ∧
      Meets system discipline.ensures world (.resume place) := by
  unfold World.resume at hresume
  cases hfound : world.tasks[place]? with
  | none =>
    rw [hfound] at hresume
    cases hresume
  | some task =>
    rw [hfound] at hresume
    have hpasses := hmeets task hfound
    dsimp only at hresume
    split at hresume
    · next hfront =>
        obtain ⟨known, hknown, hok⟩ := h.running hfound hfront
        have hadvanced : discipline.Advanced place task (world.view system) task.proc world :=
          ⟨h.except place, hfound, hfront, ⟨known, hknown, hok⟩, .refl⟩
        cases hproc : task.proc with
        | call request next =>
          rw [hproc] at hresume
          cases hresume
        | join tickets next =>
          rw [hproc] at hresume hpasses hok
          dsimp only at hresume
          split at hresume
          · cases hresume
            have hnext := hok.2 _ (Later.refl _ _) h.inv
            have hjoined : discipline.Advanced place task (world.view system) next world :=
              ⟨h.except place, hfound, hfront, ⟨known, hknown, hnext⟩, .refl⟩
            obtain ⟨hsound, htrail, hensures⟩ := hjoined.advanceAt hpasses
            refine ⟨hsound, ⟨task.job, htrail⟩, fun other hother => ?_⟩
            cases hfound.symm.trans hother
            rw [hproc]
            exact hensures
          · cases hresume
        | done | act | mark | fork =>
          rw [hproc] at hresume hpasses hadvanced
          cases hresume
          obtain ⟨hsound, htrail, hensures⟩ := hadvanced.advanceAt hpasses
          refine ⟨hsound, ⟨task.job, htrail⟩, fun other hother => ?_⟩
          cases hfound.symm.trans hother
          rw [hproc]
          exact hensures
    · cases hresume

variable (discipline) in
/-- What may be called from outside runs from any view. -/
def Enters : Prop :=
  ∀ entry, system.queue (system.entry entry).1 = none ∧
    ∀ view, discipline.inv view → discipline.Ok (system.entry entry).2 (system.entry entry).1 [] view

theorem Sound.invoke (henters : discipline.Enters) {entry : ε}
    (hmeets : Meets system discipline.cond world (.invoke entry)) :
    discipline.Sound (World.invoke system world entry) ∧
      (∃ job, discipline.Trail job (world.view system)
        ((World.invoke system world entry).view system)) ∧
      Meets system discipline.ensures world (.invoke entry) := by
  obtain ⟨hqueue, hentry⟩ := henters entry
  let task : Task σ κ α μ π := ⟨world.next, (system.entry entry).1, (system.entry entry).2⟩
  let made : World σ κ α μ π :=
    { world with tasks := world.tasks ++ [task], next := world.next + 1 }
  have hview : made.view system = world.view system := by
    have hpush : made.view system = (world.view system).push (system.queue task.job) task.job :=
      view_append
    rw [hpush, hqueue]
    rfl
  have hkeep : ∀ before < world.tasks.length, made.tasks[before]? = world.tasks[before]? :=
    fun before hlt => getElem?_append_left hlt
  have hsame : SameTickets world made := by
    refine ⟨Nat.le_succ _, fun found hmem => ?_⟩
    cases mem_append.mp hmem with
    | inl hold => exact .inl ⟨found, hold, rfl, rfl⟩
    | inr hnew =>
      rw [mem_singleton.mp hnew]
      exact .inr (Nat.le_refl _)
  have hadvanced : discipline.Advanced world.tasks.length task (world.view system) task.proc made := by
    refine ⟨⟨hview.symm ▸ h.inv, ?_, ?_, ?_⟩, getElem?_concat_length, .inl hqueue,
      ⟨[], ?_, hentry _ (hview.symm ▸ h.inv)⟩, hview ▸ .refl⟩
    · intro own hempty
      refine hview.symm ▸ h.rest own (lane_eq_nil.mpr fun found hmem => ?_)
      exact lane_eq_nil.mp hempty found (mem_append_left _ hmem)
    · intro found hmem
      cases mem_append.mp hmem with
      | inl hold => exact Nat.lt_succ_of_lt (h.tickets found hold)
      | inr hnew =>
        rw [mem_singleton.mp hnew]
        exact Nat.lt_succ_self _
    · intro other hne
      cases Nat.lt_or_ge other world.tasks.length with
      | inl hlt =>
        refine (h.good other).later (hkeep other hlt) ?_ hsame (hview.symm ▸ Later.refl _ _)
          fun _ _ _ => hview.symm ▸ Later.refl _ _
        intro before hbefore
        rw [hkeep before (Nat.lt_trans hbefore hlt)]
      | inr hge =>
        intro found hfound
        have hbound := (List.getElem?_eq_some_iff.mp hfound).1
        rw [length_append, length_singleton] at hbound
        omega
    · intro ticket job hmem
      cases hmem
  obtain ⟨hsound, htrail, hensures⟩ := hadvanced.advanceAt hmeets
  exact ⟨hsound, ⟨task.job, htrail⟩, hensures⟩

theorem Sound.step (henters : discipline.Enters)
    {action : Action κ χ ε} (hmeets : Meets system discipline.cond world action)
    (hstep : World.step system world action = some after) : discipline.Sound after ∧
      (∃ job, discipline.Trail job (world.view system) (after.view system)) ∧
      Meets system discipline.ensures world action := by
  cases action with
  | invoke entry =>
    cases hstep
    exact h.invoke henters hmeets
  | serve place choice =>
    obtain ⟨hsound, job, hchange⟩ := h.serve hstep
    exact ⟨hsound, ⟨job, .single hchange⟩, trivial⟩
  | resume place => exact h.resume hmeets hstep

end

theorem rely_of_trail (h : discipline.Trail job first second) :
    discipline.rely none first second := by
  induction h with
  | refl => exact discipline.rely_refl none first
  | tail _ hchange ih =>
    obtain ⟨hguar, hinv, hnext⟩ := hchange
    exact discipline.rely_trans ih (discipline.rely_of_guar hguar hinv hnext (.inl rfl))

theorem Sound.run (henters : discipline.Enters) (actions : List (Action κ χ ε)) :
    ∀ {world after : World σ κ α μ π}, discipline.Sound world →
      RunMeets system discipline.cond world actions →
      World.run system world actions = some after →
      discipline.Sound after ∧ discipline.rely none (world.view system) (after.view system) := by
  induction actions with
  | nil =>
    intro world after h hmeets hrun
    cases hrun
    exact ⟨h, discipline.rely_refl none _⟩
  | cons action actions ih =>
    intro world after h hmeets hrun
    obtain ⟨next, hstep, hrest⟩ := Option.bind_eq_some_iff.mp hrun
    obtain ⟨hfirst, hothers⟩ := hmeets next hstep
    obtain ⟨hnext, ⟨job, htrail⟩, -⟩ := h.step henters hfirst hstep
    obtain ⟨hafter, hmore⟩ := ih hnext hothers hrest
    exact ⟨hafter, discipline.rely_trans (rely_of_trail htrail) hmore⟩

theorem Sound.runMeets (henters : discipline.Enters) (actions : List (Action κ χ ε)) :
    ∀ {world : World σ κ α μ π}, discipline.Sound world →
      RunMeets system discipline.cond world actions →
      RunMeets system discipline.ensures world actions := by
  induction actions with
  | nil =>
    intro world h hmeets
    trivial
  | cons action actions ih =>
    intro world h hmeets next hstep
    obtain ⟨hfirst, hothers⟩ := hmeets next hstep
    obtain ⟨hnext, -, hensures⟩ := h.step henters hfirst hstep
    exact ⟨hensures, ih hnext hothers⟩

theorem sound_of_idle (htasks : world.tasks = []) (hinv : discipline.inv (world.view system))
    (hrest : ∀ own, discipline.rest own (world.view system)) : discipline.Sound world := by
  refine ⟨hinv, fun own _ => hrest own, ?_, ?_⟩
  · intro task hmem
    rw [htasks] at hmem
    cases hmem
  · intro place task hfound
    rw [htasks] at hfound
    cases hfound

end Steps

end Soundness
end Discipline

end AsyncTasks
