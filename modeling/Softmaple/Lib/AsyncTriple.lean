import Softmaple.Lib.AsyncRely

/-!
Triples for asynchronous functions. The precondition of an `await` has to be
stable: it must survive what the rely allows.
-/
namespace AsyncTasks.Discipline

variable {σ κ μ ι ε π β γ : Type} {α χ : κ → Type} [DecidableEq ι] {system : System σ κ α χ μ ι ε π}
  (discipline : Discipline system)

def Stable (job : μ) (assertion : View σ μ ι π → Prop) : Prop :=
  ∀ first second, assertion first → discipline.inv first →
    discipline.Later (system.queue job) first second → discipline.inv second → assertion second

def Triple (job : μ) (pre : View σ μ ι π → Prop) (function : Async σ κ α μ π β)
    (post : β → View σ μ ι π → Prop) : Prop :=
  ∀ next known view, pre view → discipline.inv view →
    (∀ b known after, post b after → discipline.inv after → discipline.Ok (next b) job known after) →
    discipline.Ok (function next) job known view

/-- A change that the discipline allows the job. -/
def Allows (job : μ) (first second : View σ μ ι π) : Prop :=
  discipline.guar job first second ∧ discipline.inv second

namespace Triple

variable {discipline} {job other : μ} {pre pre' : View σ μ ι π → Prop}
  {post : β → View σ μ ι π → Prop} {last : γ → View σ μ ι π → Prop}

theorem pure {b : β} (h : ∀ view, pre view → discipline.inv view → post b view) :
    discipline.Triple job pre (Pure.pure b : Async σ κ α μ π β) post := by
  intro next known view hpre hinv hnext
  exact hnext b known view (h view hpre hinv) hinv

variable {function : Async σ κ α μ π β}

theorem bind {rest : β → Async σ κ α μ π γ} (h : discipline.Triple job pre function post)
    (hrest : ∀ b, discipline.Triple job (post b) (rest b) last) :
    discipline.Triple job pre (function >>= rest) last := by
  intro next known view hpre hinv hnext
  refine h _ known view hpre hinv fun b known' after hpost hafter => ?_
  exact hrest b next known' after hpost hafter hnext

theorem weaken (h : discipline.Triple job pre' function post)
    (hpre : ∀ view, pre view → discipline.inv view → pre' view) :
    discipline.Triple job pre function post := by
  intro next known view hview hinv hnext
  exact h next known view (hpre view hview hinv) hinv hnext

theorem consequence {post' : β → View σ μ ι π → Prop} (h : discipline.Triple job pre' function post')
    (hpre : ∀ view, pre view → discipline.inv view → pre' view)
    (hpost : ∀ b view, post' b view → discipline.inv view → post b view) :
    discipline.Triple job pre function post := by
  intro next known view hview hinv hnext
  refine h next known view (hpre view hview hinv) hinv fun b known' after hafter hinv' => ?_
  exact hnext b known' after (hpost b after hafter hinv') hinv'

/-- A precondition that the state does not speak about. -/
theorem assume {fact : Prop} (h : fact → discipline.Triple job pre function post) :
    discipline.Triple job (fun view => fact ∧ pre view) function post := by
  intro next known view hview hinv hnext
  exact h hview.1 next known view hview.2 hinv hnext

theorem getModify {update : σ → σ} {post : σ → View σ μ ι π → Prop}
    (h : ∀ view, pre view → discipline.inv view →
      discipline.Allows job view { view with state := update view.state } ∧
        post view.state { view with state := update view.state }) :
    discipline.Triple job pre (Async.getModify update : Async σ κ α μ π σ) post := by
  intro next known view hpre hinv hnext
  obtain ⟨⟨hguar, hafter⟩, hpost⟩ := h view hpre hinv
  exact ⟨hguar, hafter, hnext view.state known _ hpost hafter⟩

theorem get : discipline.Triple job pre (Async.get : Async σ κ α μ π σ)
    (fun state view => view.state = state ∧ pre view) := by
  refine getModify fun view hpre hinv => ?_
  exact ⟨⟨discipline.guar_refl job view, hinv⟩, rfl, hpre⟩

variable {post : Unit → View σ μ ι π → Prop}

theorem modify {update : σ → σ} (h : ∀ view, pre view → discipline.inv view →
      discipline.Allows job view { view with state := update view.state } ∧
        post () { view with state := update view.state }) :
    discipline.Triple job pre (Async.modify update : Async σ κ α μ π Unit) post := by
  intro next known view hpre hinv hnext
  obtain ⟨⟨hguar, hafter⟩, hpost⟩ := h view hpre hinv
  exact ⟨hguar, hafter, hnext () known _ hpost hafter⟩

theorem mark {event : π} (h : ∀ view, pre view → discipline.inv view → discipline.cond event view →
      discipline.ensures event view ∧
        discipline.Allows job view { view with trace := view.trace ++ [event] } ∧
        post () { view with trace := view.trace ++ [event] }) :
    discipline.Triple job pre (Async.mark event : Async σ κ α μ π Unit) post := by
  intro next known view hpre hinv hnext hcond
  obtain ⟨hensures, ⟨hguar, hafter⟩, hpost⟩ := h view hpre hinv hcond
  exact ⟨hensures, hguar, hafter, hnext () known _ hpost hafter⟩

theorem call {request : κ} {post : α request → View σ μ ι π → Prop}
    (hstable : discipline.Stable job pre)
    (h : ∀ view, pre view → discipline.inv view → ∀ choice answer state,
      system.serve request choice view.state = some (answer, state) →
        discipline.Allows job view { view with state := state } ∧
          post answer { view with state := state })
    (hpost : ∀ answer, discipline.Stable job (post answer)) :
    discipline.Triple job pre (Async.call request : Async σ κ α μ π (α request)) post := by
  intro next known view hpre hinv hnext before hbefore hinv' choice answer state hstate
  obtain ⟨⟨hguar, hserved⟩, hanswer⟩ :=
    h before (hstable view before hpre hinv hbefore hinv') hinv' choice answer state hstate
  refine ⟨hguar, hserved, fun after hafter hinvAfter => ?_⟩
  exact hnext answer known after (hpost answer _ after hanswer hserved hafter hinvAfter) hinvAfter

theorem yield (hstable : discipline.Stable job pre) :
    discipline.Triple job pre (Async.yield : Async σ κ α μ π Unit) fun _ => pre := by
  intro next known view hpre hinv hnext
  refine ⟨fun ticket hticket => (by cases hticket), fun after hafter hinv' => ?_⟩
  exact hnext () known after (hstable view after hpre hinv hafter hinv') hinv'

/-- What a job has to establish from any view it may begin in. -/
def Body (discipline : Discipline system) (other : μ) (start : View σ μ ι π → Prop)
    (body : Async σ κ α μ π Unit) : Prop :=
  discipline.Triple other (fun view => start view ∧ ∀ lane, system.queue other = some lane →
      discipline.rest lane view ∧ ∃ others, view.lanes lane = other :: others)
    body fun _ => discipline.Leaves other

/-- What holds when a job is made and is not lost before it begins. -/
def Lasting (discipline : Discipline system) (assertion : View σ μ ι π → Prop) : Prop :=
  ∀ first second, assertion first → discipline.inv first → discipline.Later none first second →
    discipline.inv second → assertion second

variable {start : View σ μ ι π → Prop}

theorem fork_ok {body : Async σ κ α μ π Unit}
    {next : Nat → Proc σ κ α μ π} {known : List (Nat × μ)} {view : View σ μ ι π}
    (hallows : discipline.Allows job view (view.push (system.queue other) other))
    (hstart : start (view.push (system.queue other) other)) (hlasting : Lasting discipline start)
    (hbody : Body discipline other start body)
    (hnext : ∀ ticket, discipline.Ok (next ticket) job ((ticket, other) :: known)
      (view.push (system.queue other) other)) :
    discipline.Ok (.fork other body.proc next) job known view := by
  refine ⟨hallows.1, hallows.2, fun first hfirst hinv hrest => ?_, hnext⟩
  refine hbody _ [] first ⟨hlasting _ first hstart hallows.2 hfirst hinv, hrest⟩ hinv ?_
  intro b known after hleaves hinv'
  exact hleaves

section

variable (hlasting : Lasting discipline start)
include hlasting

theorem detach {body : Async σ κ α μ π Unit} (hbody : Body discipline other start body)
    (h : ∀ view, pre view → discipline.inv view →
      discipline.Allows job view (view.push (system.queue other) other) ∧
        start (view.push (system.queue other) other) ∧
        post () (view.push (system.queue other) other)) :
    discipline.Triple job pre (Async.detach other body : Async σ κ α μ π Unit) post := by
  intro next known view hpre hinv hnext
  obtain ⟨hallows, hstart, hpost⟩ := h view hpre hinv
  exact fork_ok hallows hstart hlasting hbody fun ticket => hnext () _ _ hpost hallows.2

theorem perform {body : Async σ κ α μ π Unit} (hbody : Body discipline other start body)
    (h : ∀ view, pre view → discipline.inv view →
      discipline.Allows job view (view.push (system.queue other) other) ∧
        start (view.push (system.queue other) other) ∧
        discipline.waits job other (view.push (system.queue other) other) ∧
        post () (view.push (system.queue other) other)) (hpost : discipline.Stable job (post ())) :
    discipline.Triple job pre (Async.perform other body : Async σ κ α μ π Unit) post := by
  intro next known view hpre hinv hnext
  obtain ⟨hallows, hstart, hwaits, hview⟩ := h view hpre hinv
  refine fork_ok hallows hstart hlasting hbody fun ticket => ⟨fun one hone => ?_, ?_⟩
  · rw [List.mem_singleton.mp hone]
    exact ⟨other, List.mem_cons_self, hwaits⟩
  · intro after hafter hinv'
    exact hnext () _ after (hpost _ after hview hallows.2 hafter hinv') hinv'

theorem allFrom_ok {assertion : View σ μ ι π → Prop} {next : Unit → Proc σ κ α μ π}
    (hstable : discipline.Stable job assertion)
    (hnext : ∀ known after, assertion after → discipline.inv after →
      discipline.Ok (next ()) job known after) (jobs : List (μ × Async σ κ α μ π Unit))
    (hbodies : ∀ made ∈ jobs, Body discipline made.1 start made.2)
    (hpush : ∀ made ∈ jobs, ∀ view, start view → assertion view → discipline.inv view →
      discipline.Allows job view (view.push (system.queue made.1) made.1) ∧
        start (view.push (system.queue made.1) made.1) ∧
        assertion (view.push (system.queue made.1) made.1))
    (hwaits : ∀ made ∈ jobs, ∀ view, assertion view → discipline.waits job made.1 view) :
    ∀ tickets known view, start view → assertion view → discipline.inv view →
      (∀ ticket ∈ tickets, ∃ other, (ticket, other) ∈ known ∧
        ∀ view, assertion view → discipline.waits job other view) →
      discipline.Ok (Async.allFrom next jobs tickets) job known view := by
  induction jobs with
  | nil =>
    intro tickets known view hstart hview hinv htickets
    refine ⟨fun ticket hticket => ?_, fun after hafter hinv' => ?_⟩
    · obtain ⟨other, hknown, hother⟩ := htickets ticket hticket
      exact ⟨other, hknown, hother view hview⟩
    · exact hnext known after (hstable view after hview hinv hafter hinv') hinv'
  | cons made jobs ih =>
    intro tickets known view hstart hview hinv htickets
    obtain ⟨hallows, hstart', hview'⟩ := hpush made List.mem_cons_self view hstart hview hinv
    refine fork_ok hallows hstart' hlasting (hbodies made List.mem_cons_self) fun ticket => ?_
    refine ih (fun other hmem => hbodies other (List.mem_cons_of_mem _ hmem))
      (fun other hmem => hpush other (List.mem_cons_of_mem _ hmem))
      (fun other hmem => hwaits other (List.mem_cons_of_mem _ hmem)) _ _ _ hstart' hview'
      hallows.2 ?_
    intro one hone
    cases List.mem_cons.mp hone with
    | inl heq =>
      rw [heq]
      exact ⟨made.1, List.mem_cons_self, hwaits made List.mem_cons_self⟩
    | inr hold =>
      obtain ⟨other, hknown, hother⟩ := htickets one hold
      exact ⟨other, List.mem_cons_of_mem _ hknown, hother⟩

theorem all {jobs : List (μ × Async σ κ α μ π Unit)} (hstable : discipline.Stable job pre)
    (hbodies : ∀ made ∈ jobs, Body discipline made.1 start made.2)
    (hpush : ∀ made ∈ jobs, ∀ view, start view → pre view → discipline.inv view →
      discipline.Allows job view (view.push (system.queue made.1) made.1) ∧
        start (view.push (system.queue made.1) made.1) ∧
        pre (view.push (system.queue made.1) made.1))
    (hwaits : ∀ made ∈ jobs, ∀ view, pre view → discipline.waits job made.1 view) :
    discipline.Triple job (fun view => start view ∧ pre view)
      (Async.all jobs : Async σ κ α μ π Unit) fun _ => pre := by
  intro next known view hview hinv hnext
  exact allFrom_ok hlasting hstable (fun known' after hafter hinv' => hnext () known' after hafter hinv')
    jobs hbodies hpush hwaits [] known view hview.1 hview.2 hinv fun ticket hticket => by cases hticket

end

theorem forEach {items : List γ} {body : γ → Async σ κ α μ π Unit}
    (h : ∀ item ∈ items, discipline.Triple job pre (body item) fun _ => pre) :
    discipline.Triple job pre (Async.forEach items body) fun _ => pre := by
  induction items with
  | nil => exact pure fun view hpre _ => hpre
  | cons item items ih =>
    exact bind (h item List.mem_cons_self) fun _ =>
      ih fun other hmem => h other (List.mem_cons_of_mem _ hmem)

theorem enters {function : Async σ κ α μ π Unit} (hqueue : system.queue job = none)
    (h : discipline.Triple job (fun _ => True) function fun _ _ => True) (view : View σ μ ι π)
    (hinv : discipline.inv view) : discipline.Ok function.proc job [] view := by
  refine h _ [] view trivial hinv fun b known after _ hinv' => ?_
  intro lane hlane
  cases hqueue.symm.trans hlane

end Triple

def Maintains (job : μ) (assertion : View σ μ ι π → Prop) (function : Async σ κ α μ π β) : Prop :=
  discipline.Triple job assertion function fun _ => assertion

namespace Maintains

variable {discipline} {job other : μ} {assertion : View σ μ ι π → Prop}

theorem pure {b : β} : discipline.Maintains job assertion (Pure.pure b : Async σ κ α μ π β) :=
  Triple.pure fun _ hview _ => hview

theorem bind {function : Async σ κ α μ π β} {rest : β → Async σ κ α μ π γ}
    (h : discipline.Maintains job assertion function)
    (hrest : ∀ b, discipline.Maintains job assertion (rest b)) :
    discipline.Maintains job assertion (function >>= rest) :=
  Triple.bind h hrest

theorem get : discipline.Maintains job assertion (Async.get : Async σ κ α μ π σ) :=
  Triple.consequence Triple.get (fun _ hview _ => hview) fun _ _ hview _ => hview.2

theorem modify {update : σ → σ} (h : ∀ view, assertion view → discipline.inv view →
      discipline.Allows job view { view with state := update view.state } ∧
        assertion { view with state := update view.state }) :
    discipline.Maintains job assertion (Async.modify update : Async σ κ α μ π Unit) :=
  Triple.modify h

theorem call {request : κ} (hstable : discipline.Stable job assertion)
    (hserve : ∀ choice state answer after, system.serve request choice state = some (answer, after) →
      after = state) :
    discipline.Maintains job assertion (Async.call request : Async σ κ α μ π (α request)) := by
  refine Triple.call hstable (fun view hview hinv choice answer state hstate => ?_) fun _ => hstable
  rw [hserve choice view.state answer state hstate]
  exact ⟨⟨discipline.guar_refl job view, hinv⟩, hview⟩

end Maintains

end AsyncTasks.Discipline
