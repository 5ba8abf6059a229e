import Softmaple.Presence.RoomCalls

/-!
The order in which the messages of a peer are handled. The queue keeps the order
in which messages are put in it, which is the order in which their snapshots
are persisted. So where those of a peer are persisted in the order of its calls,
its messages are handled in that order.
-/
namespace Softmaple.Presence.ArrivalOrder

open Json AsyncTasks List

/-- The numbers of the messages of a peer state whose snapshots are persisted. -/
def persisted (state : PeerRef) (trace : List Mark) : List Nat :=
  trace.filterMap fun
    | .persisted message => if message.state = state then some message.number else none
    | _ => none

def handled (state : PeerRef) (trace : List Mark) : List Nat :=
  trace.filterMap fun
    | .handles message _ => if message.state = state then some message.number else none
    | _ => none

def queued (state : PeerRef) (jobs : List Job) : List Nat :=
  jobs.filterMap fun
    | .message message | .authenticate message =>
      if message.state = state then some message.number else none
    | _ => none

/-- A snapshot is persisted after those of all earlier calls of the peer. -/
def InOrder : Mark → List Mark → Prop
  | .persisted message, trace => persisted message.state trace = List.range message.number
  | _, _ => True

/-- The snapshots of the calls of each peer are persisted in the order of the calls. -/
def PersistedInOrder (trace : List Mark) : Prop :=
  ∀ state, persisted state trace = List.range (persisted state trace).length

/-- Every message of a peer is handled after those that came before it. -/
def HandledInOrder (trace : List Mark) : Prop :=
  ∀ state, (handled state trace).Pairwise (· < ·)

/-- No Update is dropped as stale because of a later one of the peer. -/
def NoLaterStale (trace : List Mark) : Prop :=
  ∀ message writer, Mark.stale message writer ∈ trace → writer.state = message.state →
    writer.number < message.number

def JoinsFirst (trace : List Mark) : Prop :=
  ∀ before message kind, before ++ [.handles message kind] <+: trace → ∀ join : MessageId,
    join.state = message.state → join.number < message.number → .handles join .join ∈ trace →
    .handles join .join ∈ before

structure Inv (view : RoomView) : Prop where
  handled_sorted : HandledInOrder view.trace
  stale : NoLaterStale view.trace
  handled_bound : ∀ state, ∀ number ∈ handled state view.trace,
    number < (persisted state view.trace).length
  queued_sorted : ∀ state, (queued state (view.lanes (.peer state))).Pairwise (· < ·)
  queued_bound : ∀ state, ∀ number ∈ queued state (view.lanes (.peer state)),
    number < (persisted state view.trace).length
  handled_le : ∀ state, ∀ first ∈ handled state view.trace,
    ∀ number ∈ queued state (view.lanes (.peer state)), first ≤ number
  writers : ∀ roomId, ∀ stored ∈ view.state.members roomId,
    stored.writer.number ∈ handled stored.writer.state view.trace

def Resting (state : PeerRef) (view : RoomView) : Prop :=
  ∀ first ∈ handled state view.trace, ∀ number ∈ queued state (view.lanes (.peer state)),
    first < number

/-- Of a message that comes into the queue: all messages that were handled came before it. -/
def Arrives (first second : RoomView) : Prop :=
  ∀ state, ∀ number ∈ queued state (second.lanes (.peer state)),
    number ∈ queued state (first.lanes (.peer state)) ∨
      ∀ old ∈ handled state first.trace, old < number

structure Guar (job : Job) (first second : RoomView) : Prop where
  trace : first.trace <+: second.trace
  handled : ∀ state, job.queue ≠ some (.peer state) →
    handled state second.trace = handled state first.trace
  arrives : Arrives first second
  writers : ∀ roomId, ∀ stored ∈ second.state.members roomId,
    (∃ old ∈ first.state.members roomId, old.writer = stored.writer) ∨ job = .message stored.writer

structure Rely (lane : Option Queue) (first second : RoomView) : Prop where
  trace : first.trace <+: second.trace
  handled : ∀ state, lane = some (.peer state) →
    handled state second.trace = handled state first.trace
  arrives : Arrives first second
  writers : ∀ roomId, ∀ stored ∈ second.state.members roomId,
    (∃ old ∈ first.state.members roomId, old.writer = stored.writer) ∨
      lane ≠ some (.peer stored.writer.state)

theorem handled_mono {first second : List Mark} (h : first <+: second) (state : PeerRef) :
    handled state first <+: handled state second :=
  h.filterMap _

theorem handled_append (state : PeerRef) (trace : List Mark) {mark : Mark}
    (h : ∀ message kind, mark ≠ .handles message kind) :
    handled state (trace ++ [mark]) = handled state trace := by
  unfold handled
  rw [filterMap_append]
  cases mark with
  | handles message kind => exact absurd rfl (h message kind)
  | _ => exact append_nil _

theorem persisted_append (state : PeerRef) (trace : List Mark) {mark : Mark}
    (h : ∀ message, mark ≠ .persisted message) :
    persisted state (trace ++ [mark]) = persisted state trace := by
  unfold persisted
  rw [filterMap_append]
  cases mark with
  | persisted message => exact absurd rfl (h message)
  | _ => exact append_nil _

theorem Arrives.refl (view : RoomView) : Arrives view view := fun _ _ hnumber => .inl hnumber

variable {second first : RoomView}

theorem Arrives.trans {third : RoomView} (h : Arrives first second)
    (htrace : first.trace <+: second.trace) (hnext : Arrives second third) : Arrives first third := by
  intro state number hnumber
  cases hnext state number hnumber with
  | inl hmiddle => exact h state number hmiddle
  | inr hnew => exact .inr fun old hold => hnew old ((handled_mono htrace state).subset hold)

theorem Rely.trans {lane : Option Queue} {third : RoomView} (h : Rely lane first second)
    (hnext : Rely lane second third) : Rely lane first third where
  trace := h.trace.trans hnext.trace
  handled state hlane := (hnext.handled state hlane).trans (h.handled state hlane)
  arrives := h.arrives.trans h.trace hnext.arrives
  writers roomId stored hstored := by
    cases hnext.writers roomId stored hstored with
    | inl hold =>
      obtain ⟨middle, hmiddle, hsame⟩ := hold
      have hfirst := h.writers roomId middle hmiddle
      rw [hsame] at hfirst
      exact hfirst
    | inr hother => exact .inr hother

theorem Rely.of_guar {lane : Option Queue} {job : Job}
    (h : Guar job first second) (hlane : lane = none ∨ job.queue ≠ lane) : Rely lane first second where
  trace := h.trace
  arrives := h.arrives
  handled state hown := by
    refine h.handled state fun hqueue => ?_
    cases hlane with
    | inl hnone => cases hnone.symm.trans hown
    | inr hne => exact hne (hqueue.trans hown.symm)
  writers roomId stored hstored := by
    refine (h.writers roomId stored hstored).imp_right fun hjob hown => ?_
    rw [hjob] at hlane
    cases hlane with
    | inl hnone => cases hnone.symm.trans hown
    | inr hne => exact hne hown.symm

theorem Resting.of_rely {state : PeerRef} (h : Resting state first)
    (hrely : Rely (some (.peer state)) first second) : Resting state second := by
  intro old hold number hnumber
  rw [hrely.handled state rfl] at hold
  cases hrely.arrives state number hnumber with
  | inl hqueued => exact h old hold number hqueued
  | inr hnew => exact hnew old hold

variable (services : PresenceServices)

def discipline : Discipline (system services) where
  cond mark view := InOrder mark view.trace
  ensures _ _ := True
  inv := Inv
  rest
    | .peer state => Resting state
    | _ => fun _ => True
  guar := Guar
  rely := Rely
  waits _ _ _ := True
  guar_refl _ _ := ⟨prefix_rfl, fun _ _ => rfl, Arrives.refl _,
    fun _ stored hstored => .inl ⟨stored, hstored, rfl⟩⟩
  rely_refl _ _ := ⟨prefix_rfl, fun _ _ => rfl, Arrives.refl _,
    fun _ stored hstored => .inl ⟨stored, hstored, rfl⟩⟩
  rely_trans := Rely.trans
  rely_none h := ⟨h.trace, fun _ hnone => (by cases hnone), h.arrives,
    fun _ _ _ => .inr fun hnone => (by cases hnone)⟩
  rely_of_guar h _ _ hlane := Rely.of_guar h hlane
  rest_of_rely {lane first second} h hrely := by
    cases lane with
    | peer state => exact Resting.of_rely h hrely
    | maintenance room => trivial
    | fanout room => trivial
  waits_of_rely _ _ := trivial

/-- A change that is none for the order of messages. -/
structure Quiet (first second : RoomView) : Prop where
  trace : first.trace <+: second.trace
  handled : ∀ state, handled state second.trace = handled state first.trace
  persisted : ∀ state, persisted state second.trace = persisted state first.trace
  stale : ∀ message writer, Mark.stale message writer ∈ second.trace →
    Mark.stale message writer ∈ first.trace
  queued : ∀ state, queued state (second.lanes (.peer state)) =
    queued state (first.lanes (.peer state))
  lanes : ∀ state, first.lanes (.peer state) <+: second.lanes (.peer state)
  members : ∀ roomId, ∀ stored ∈ second.state.members roomId,
    ∃ old ∈ first.state.members roomId, old.writer = stored.writer

namespace Quiet

variable {first second : RoomView}

theorem inv (h : Quiet first second) (hinv : Inv first) : Inv second where
  handled_sorted state := by
    rw [h.handled state]
    exact hinv.handled_sorted state
  stale message writer hstale := hinv.stale message writer (h.stale message writer hstale)
  handled_bound state := by
    rw [h.handled state, h.persisted state]
    exact hinv.handled_bound state
  queued_sorted state := by
    rw [h.queued state]
    exact hinv.queued_sorted state
  queued_bound state := by
    rw [h.queued state, h.persisted state]
    exact hinv.queued_bound state
  handled_le state := by
    rw [h.handled state, h.queued state]
    exact hinv.handled_le state
  writers roomId stored hstored := by
    obtain ⟨old, hold, hsame⟩ := h.members roomId stored hstored
    rw [h.handled, ← hsame]
    exact hinv.writers roomId old hold

theorem guar (h : Quiet first second) (job : Job) : Guar job first second where
  trace := h.trace
  handled state _ := h.handled state
  arrives state number hnumber := by
    rw [h.queued state] at hnumber
    exact .inl hnumber
  writers roomId stored hstored := .inl (h.members roomId stored hstored)

theorem allows (h : Quiet first second) (job : Job) (hinv : Inv first) :
    (discipline services).Allows job first second :=
  ⟨h.guar job, h.inv hinv⟩

theorem tame {view : RoomView} {state : State} (h : view.state.Tame state) :
    Quiet view { view with state := state } where
  trace := prefix_rfl
  handled _ := rfl
  persisted _ := rfl
  stale _ _ h := h
  queued _ := rfl
  lanes _ := prefix_rfl
  members := h.members

theorem mark {view : RoomView} {mark : Mark} (hhandles : ∀ message kind, mark ≠ .handles message kind)
    (hpersisted : ∀ message, mark ≠ .persisted message)
    (hstale : ∀ message writer, mark ≠ .stale message writer) :
    Quiet view { view with trace := view.trace ++ [mark] } where
  trace := prefix_append _ _
  handled state := handled_append state view.trace hhandles
  persisted state := persisted_append state view.trace hpersisted
  stale message writer hmem := by
    cases mem_append.mp hmem with
    | inl hold => exact hold
    | inr hnew => exact absurd (mem_singleton.mp hnew).symm (hstale message writer)
  queued _ := rfl
  lanes _ := prefix_rfl
  members _ stored hstored := ⟨stored, hstored, rfl⟩

theorem push {view : RoomView} {job : Job} (hmessage : ∀ message, job ≠ .message message)
    (hauth : ∀ message, job ≠ .authenticate message) :
    Quiet view (view.push job.queue job) where
  trace := prefix_rfl
  handled _ := rfl
  persisted _ := rfl
  stale _ _ h := h
  queued state := by
    dsimp only [View.push]
    split
    · unfold ArrivalOrder.queued
      cases job with
      | message message => exact absurd rfl (hmessage message)
      | authenticate message => exact absurd rfl (hauth message)
      | _ => rw [filterMap_append]; exact append_nil _
    · rfl
  lanes state := by
    dsimp only [View.push]
    split
    · exact prefix_append _ _
    · exact prefix_rfl
  members _ stored hstored := ⟨stored, hstored, rfl⟩

end Quiet

theorem Quiet.pop {view : RoomView} {lane : Queue} (hlane : ∀ state, lane ≠ .peer state) :
    Quiet view (view.pop (some lane)) := by
  have hlanes : ∀ state, (view.pop (some lane)).lanes (.peer state) = view.lanes (.peer state) := by
    intro state
    dsimp only [View.pop]
    exact if_neg fun hsame => hlane state (Option.some.inj hsame)
  refine ⟨prefix_rfl, fun _ => rfl, fun _ => rfl, fun _ _ h => h, fun state => ?_,
    fun state => ?_, fun _ stored hstored => ⟨stored, hstored, rfl⟩⟩
  · rw [hlanes state]
  · rw [hlanes state]

structure Steadfast (job : Job) (assertion : RoomView → Prop) : Prop where
  stable : (discipline services).Stable job assertion
  quiet : ∀ first second, assertion first → Inv first → Quiet first second → assertion second

namespace Steadfast

variable {services} {job : Job} {assertion : RoomView → Prop}

theorem trivial (job : Job) : Steadfast services job fun _ => True :=
  ⟨fun _ _ _ _ _ _ => True.intro, fun _ _ _ _ _ => True.intro⟩

theorem tamely (h : Steadfast services job assertion) : Tamely (discipline services) job assertion where
  stable := h.stable
  tame view state hview hinv htame :=
    ⟨(Quiet.tame htame).allows services job hinv, h.quiet _ _ hview hinv (Quiet.tame htame)⟩
  mark mark view hplain hview hinv := by
    have hquiet : Quiet view { view with trace := view.trace ++ [mark] } := by
      cases hplain with
      | received | takes | stores | joins | leaves | sends =>
        refine Quiet.mark ?_ ?_ ?_
        · intro message kind hsame
          cases hsame
        · intro message hsame
          cases hsame
        · intro message writer hsame
          cases hsame
    exact ⟨True.intro, hquiet.allows services job hinv, h.quiet _ _ hview hinv hquiet⟩
  fanout room view hview hinv := by
    have hquiet : Quiet view (view.push (Job.fanout room).queue (.fanout room)) := by
      refine Quiet.push ?_ ?_
      · intro message hsame
        cases hsame
      · intro message hsame
        cases hsame
    exact ⟨hquiet.allows services job hinv, True.intro, h.quiet _ _ hview hinv hquiet⟩

theorem enqueue (h : Steadfast services job assertion) {other : Job} {work : RoomAsync Unit}
    (hbody : Discipline.Triple.Body (discipline services) other (fun _ => True) work)
    (hmessage : ∀ message, other ≠ .message message)
    (hauth : ∀ message, other ≠ .authenticate message) :
    (discipline services).Maintains job assertion (Async.perform other work) := by
  refine Discipline.Triple.perform (fun _ _ _ _ _ _ => True.intro) hbody (fun view hview hinv => ?_) h.stable
  have hquiet : Quiet view (view.push other.queue other) := Quiet.push hmessage hauth
  exact ⟨hquiet.allows services job hinv, True.intro, True.intro, h.quiet _ _ hview hinv hquiet⟩

theorem detach (h : Steadfast services job assertion) {other : Job} {work : RoomAsync Unit}
    (hbody : Discipline.Triple.Body (discipline services) other (fun _ => True) work)
    (hmessage : ∀ message, other ≠ .message message)
    (hauth : ∀ message, other ≠ .authenticate message) :
    (discipline services).Maintains job assertion (Async.detach other work) := by
  refine Discipline.Triple.detach (fun _ _ _ _ _ _ => True.intro) hbody (fun view hview hinv => ?_)
  have hquiet : Quiet view (view.push other.queue other) := Quiet.push hmessage hauth
  exact ⟨hquiet.allows services job hinv, True.intro, h.quiet _ _ hview hinv hquiet⟩

end Steadfast

theorem fanoutSteady : FanoutSteady (discipline services) where
  steady room := (Steadfast.trivial (.fanout room)).tamely.routinely.toSteady
  leaves room view hinv lane hlane := by
    cases hlane
    have hquiet : Quiet view (view.pop (some (.fanout room))) :=
      Quiet.pop fun state hsame => by cases hsame
    exact ⟨hquiet.guar _, hquiet.inv hinv, True.intro⟩

section Lanes

variable {services} {job : Job} {state : PeerRef} {message : MessageId}

def Heads (state : PeerRef) (job : Job) (view : RoomView) : Prop :=
  ∃ others, view.lanes (.peer state) = job :: others

theorem Heads.later {first second : RoomView} (h : Heads state job first)
    (hlanes : first.lanes (.peer state) <+: second.lanes (.peer state)) : Heads state job second := by
  obtain ⟨others, hothers⟩ := h
  obtain ⟨more, hmore⟩ := hlanes
  refine ⟨others ++ more, ?_⟩
  rw [← hmore, hothers, cons_append]

def AtRest (state : PeerRef) (job : Job) (view : RoomView) : Prop :=
  Resting state view ∧ Heads state job view

section

variable (hqueue : job.queue = some (.peer state))
include hqueue

theorem AtRest.steadfast : Steadfast services job (AtRest state job) := by
  constructor
  · intro first second h hinv hlater hinv'
    refine ⟨h.1.of_rely ?_, h.2.later (hlater.2 _ hqueue)⟩
    exact hqueue ▸ hlater.1
  · intro first second h hinv hquiet
    refine ⟨?_, h.2.later (hquiet.lanes state)⟩
    intro old hold number hnumber
    rw [hquiet.handled state] at hold
    rw [hquiet.queued state] at hnumber
    exact h.1 old hold number hnumber

omit hqueue in
theorem queued_tail {jobs : List Job} {number : Nat} (h : number ∈ queued state jobs.tail) :
    number ∈ queued state jobs := by
  cases jobs with
  | nil => exact h
  | cons first jobs => exact ((sublist_cons_self first jobs).filterMap _).subset h

theorem leaves_of_resting {view : RoomView}
    (hinv : Inv view) (hrest : Resting state (view.pop (some (.peer state)))) :
    (discipline services).Leaves job view := by
  have hlanes : ∀ other, ∀ number ∈ queued other ((view.pop (some (.peer state))).lanes (.peer other)),
      number ∈ queued other (view.lanes (.peer other)) := by
    intro other number hnumber
    dsimp only [View.pop] at hnumber
    split at hnumber
    · exact queued_tail hnumber
    · exact hnumber
  intro lane hlane
  cases hqueue.symm.trans hlane
  refine ⟨⟨prefix_rfl, fun _ _ => rfl, fun other number hnumber => .inl (hlanes other number hnumber),
    fun _ stored hstored => .inl ⟨stored, hstored, rfl⟩⟩, ⟨hinv.handled_sorted, hinv.stale,
    hinv.handled_bound, fun other => ?_, fun other number hnumber => ?_,
    fun other old hold number hnumber => ?_, hinv.writers⟩, hrest⟩
  · dsimp only [View.pop]
    split
    · exact (hinv.queued_sorted other).sublist ((tail_sublist _).filterMap _)
    · exact hinv.queued_sorted other
  · exact hinv.queued_bound other number (hlanes other number hnumber)
  · exact hinv.handled_le other old hold number (hlanes other number hnumber)

theorem AtRest.leaves {view : RoomView}
    (h : AtRest state job view) (hinv : Inv view) : (discipline services).Leaves job view := by
  refine leaves_of_resting hqueue hinv fun old hold number hnumber => ?_
  dsimp only [View.pop] at hnumber
  rw [if_pos rfl] at hnumber
  exact h.1 old hold number (queued_tail hnumber)

theorem body_of_maintains {work : RoomAsync Unit}
    (hwork : (discipline services).Maintains job (AtRest state job) work) :
    Discipline.Triple.Body (discipline services) job (fun _ => True) work := by
  refine .consequence hwork (fun view hview _ => ?_) fun _ view hview hinv => hview.leaves hqueue hinv
  exact hview.2 _ hqueue

end

theorem resetBody (state : PeerRef) (endReason : PresenceSessionEndReason) :
    Discipline.Triple.Body (discipline services) (.reset state) (fun _ => True)
      (resetState services state true endReason) :=
  body_of_maintains rfl
    ((AtRest.steadfast rfl).tamely.resetState (fanoutSteady services) state endReason)

theorem enqueueReset {assertion : RoomView → Prop} (h : Steadfast services job assertion)
    (state : PeerRef) (endReason : PresenceSessionEndReason) :
    (discipline services).Maintains job assertion
      (enqueue (.reset state) (resetState services state true endReason)) :=
  h.enqueue (resetBody state endReason) (fun _ hsame => by cases hsame) fun _ hsame => by cases hsame

section Messages

def HandlingJob (message : MessageId) (job : Job) : Prop :=
  job = .message message ∨ job = .authenticate message

theorem HandlingJob.queue (h : HandlingJob message job) : job.queue = some (.peer message.state) := by
  cases h with
  | inl hjob => rw [hjob]; rfl
  | inr hjob => rw [hjob]; rfl

theorem HandlingJob.queued (h : HandlingJob message job) (jobs : List Job) :
    queued message.state (job :: jobs) = message.number :: queued message.state jobs := by
  have hself : (if message.state = message.state then some message.number else none) =
      some message.number := if_pos rfl
  unfold ArrivalOrder.queued
  cases h with
  | inl hjob =>
    rw [hjob]
    exact filterMap_cons_some hself
  | inr hjob =>
    rw [hjob]
    exact filterMap_cons_some hself

structure Busy (message : MessageId) (job : Job) (view : RoomView) : Prop where
  heads : Heads message.state job view
  handled : message.number ∈ handled message.state view.trace
  last : ∀ old ∈ ArrivalOrder.handled message.state view.trace, old ≤ message.number

theorem Busy.steadfast (hqueue : job.queue = some (.peer message.state)) :
    Steadfast services job (Busy message job) := by
  constructor
  · intro first second h hinv hlater hinv'
    have hhandled := hlater.1.handled message.state hqueue
    refine ⟨h.heads.later (hlater.2 _ hqueue), ?_, ?_⟩
    · rw [hhandled]
      exact h.handled
    · rw [hhandled]
      exact h.last
  · intro first second h hinv hquiet
    refine ⟨h.heads.later (hquiet.lanes _), ?_, ?_⟩
    · rw [hquiet.handled]
      exact h.handled
    · rw [hquiet.handled]
      exact h.last

theorem Busy.leaves {view : RoomView} (hjob : HandlingJob message job) (h : Busy message job view)
    (hinv : Inv view) : (discipline services).Leaves job view := by
  refine leaves_of_resting hjob.queue hinv fun old hold number hnumber => ?_
  obtain ⟨others, hothers⟩ := h.heads
  dsimp only [View.pop] at hnumber
  rw [if_pos rfl, hothers] at hnumber
  have hsorted := hinv.queued_sorted message.state
  rw [hothers, hjob.queued, pairwise_cons] at hsorted
  exact Nat.lt_of_le_of_lt (h.last old hold) (hsorted.1 number hnumber)

structure Unwritten (message : MessageId) (job : Job) (view : RoomView) : Prop extends
    Busy message job view where
  unwritten : ∀ roomId, ∀ stored ∈ view.state.members roomId, stored.writer ≠ message

theorem Unwritten.steadfast (hqueue : job.queue = some (.peer message.state)) :
    Steadfast services job (Unwritten message job) := by
  have hbusy : Steadfast services job (Busy message job) := Busy.steadfast hqueue
  constructor
  · intro first second h hinv hlater hinv'
    refine ⟨hbusy.stable first second h.toBusy hinv hlater hinv', fun roomId stored hstored heq => ?_⟩
    cases hlater.1.writers roomId stored hstored with
    | inl hold =>
      obtain ⟨old, hold, hsame⟩ := hold
      exact h.unwritten roomId old hold (hsame.trans heq)
    | inr hother =>
      rw [heq] at hother
      exact hother hqueue
  · intro first second h hinv hquiet
    refine ⟨hbusy.quiet first second h.toBusy hinv hquiet, fun roomId stored hstored heq => ?_⟩
    obtain ⟨old, hold, hsame⟩ := hquiet.members roomId stored hstored
    exact h.unwritten roomId old hold (hsame.trans heq)

theorem handled_handles (state : PeerRef) (trace : List Mark) (message : MessageId)
    (kind : PresenceMessageKind) :
    handled state (trace ++ [.handles message kind]) =
      handled state trace ++ if message.state = state then [message.number] else [] := by
  unfold handled
  rw [filterMap_append]
  congr 1
  by_cases hsame : message.state = state
  · rw [if_pos hsame]
    exact filterMap_cons_some (if_pos hsame)
  · rw [if_neg hsame]
    exact filterMap_cons_none (if_neg hsame)

theorem mem_handled_handles {state : PeerRef} {trace : List Mark} {kind : PresenceMessageKind}
    {number : Nat} (h : number ∈ handled state (trace ++ [.handles message kind])) :
    number ∈ handled state trace ∨ state = message.state ∧ number = message.number := by
  rw [handled_handles] at h
  refine (mem_append.mp h).imp_right fun hnew => ?_
  split at hnew
  · next hsame => exact ⟨hsame.symm, mem_singleton.mp hnew⟩
  · cases hnew

theorem AtRest.lt {view : RoomView} (hjob : HandlingJob message job)
    (h : AtRest message.state job view) :
    ∀ old ∈ handled message.state view.trace, old < message.number := by
  obtain ⟨others, hothers⟩ := h.2
  intro old hold
  refine h.1 old hold _ ?_
  rw [hothers, hjob.queued]
  exact mem_cons_self

theorem AtRest.inv_handles {view : RoomView} (hjob : HandlingJob message job)
    (h : AtRest message.state job view) (hinv : Inv view) (kind : PresenceMessageKind) :
    Inv { view with trace := view.trace ++ [.handles message kind] } := by
  obtain ⟨others, hothers⟩ := h.2
  have hsorted := hinv.queued_sorted message.state
  rw [hothers, hjob.queued, pairwise_cons] at hsorted
  have hgrows : ∀ state, handled state view.trace <+:
      handled state (view.trace ++ [.handles message kind]) :=
    fun state => handled_mono (prefix_append _ _) state
  refine ⟨fun state => ?_, fun later writer hstale => ?_, fun state number hnumber => ?_,
    hinv.queued_sorted, fun state number hnumber => ?_, fun state first hfirst number hnumber => ?_,
    fun roomId stored hstored => (hgrows _).subset (hinv.writers roomId stored hstored)⟩
  · dsimp only
    rw [handled_handles]
    split
    · next hsame =>
        rw [← hsame, pairwise_append]
        refine ⟨hinv.handled_sorted message.state, pairwise_singleton _ _, ?_⟩
        intro old hold number hnumber
        rw [mem_singleton.mp hnumber]
        exact h.lt hjob old hold
    · rw [append_nil]
      exact hinv.handled_sorted state
  · refine hinv.stale later writer ?_
    cases mem_append.mp hstale with
    | inl hold => exact hold
    | inr hnew => cases mem_singleton.mp hnew
  · dsimp only at hnumber ⊢
    rw [persisted_append _ _ fun _ hsame => by cases hsame]
    cases mem_handled_handles hnumber with
    | inl hold => exact hinv.handled_bound state number hold
    | inr hnew =>
      rw [hnew.1, hnew.2]
      refine hinv.queued_bound _ _ ?_
      rw [hothers, hjob.queued]
      exact mem_cons_self
  · dsimp only
    rw [persisted_append _ _ fun _ hsame => by cases hsame]
    exact hinv.queued_bound state number hnumber
  · cases mem_handled_handles hfirst with
    | inl hold => exact hinv.handled_le state first hold number hnumber
    | inr hnew =>
      rw [hnew.2]
      rw [hnew.1] at hnumber
      dsimp only at hnumber
      rw [hothers, hjob.queued] at hnumber
      cases mem_cons.mp hnumber with
      | inl hself => exact Nat.le_of_eq hself.symm
      | inr hother => exact Nat.le_of_lt (hsorted.1 number hother)

theorem handles_spec (hjob : HandlingJob message job) (kind : PresenceMessageKind) :
    (discipline services).Triple job (AtRest message.state job)
      (Async.mark (.handles message kind) : RoomAsync Unit) fun _ => Unwritten message job := by
  refine Discipline.Triple.mark fun view hview hinv _ => ⟨True.intro, ⟨?_, hview.inv_handles hjob hinv kind⟩,
    ⟨hview.2, ?_, fun old hold => ?_⟩, fun roomId stored hstored heq => ?_⟩
  · refine ⟨prefix_append _ _, fun state hstate => ?_, Arrives.refl view,
      fun _ stored hstored => .inl ⟨stored, hstored, rfl⟩⟩
    dsimp only
    rw [handled_handles, if_neg, append_nil]
    intro hsame
    exact hstate (hsame ▸ hjob.queue)
  · dsimp only
    rw [handled_handles, if_pos rfl]
    exact mem_append_right _ mem_cons_self
  · cases mem_handled_handles hold with
    | inl hbefore => exact Nat.le_of_lt (hview.lt hjob old hbefore)
    | inr hnew => exact Nat.le_of_eq hnew.2
  · have hwriter := hinv.writers roomId stored hstored
    rw [heq] at hwriter
    exact Nat.lt_irrefl _ (hview.lt hjob _ hwriter)

theorem finds_spec (message : MessageId) (roomId connectionId : Text) :
    (discipline services).Triple (.message message) (Unwritten message (.message message))
      (getMember roomId connectionId) fun found view =>
        (∀ stored, found = some (some stored) → stored.writer.state = message.state →
          stored.writer.number < message.number) ∧ Unwritten message (.message message) view := by
  have hsteadfast : Steadfast services (.message message) (Unwritten message (.message message)) :=
    Unwritten.steadfast rfl
  refine Discipline.Triple.call hsteadfast.stable (fun view hview hinv choice answer state hserve => ?_)
    fun answer first second h hinv hlater hinv' =>
      ⟨h.1, hsteadfast.stable first second h.2 hinv hlater hinv'⟩
  have hrequest : ¬(Request.getMember roomId connectionId).Stores := id
  have hquiet : Quiet view { view with state := state } :=
    Quiet.tame (serve_tame services.policy hrequest hserve)
  refine ⟨hquiet.allows services _ hinv, fun stored hanswer hsame => ?_,
    hsteadfast.quiet _ _ hview hinv hquiet⟩
  rw [hanswer] at hserve
  have hmem := mem_of_getMember services.policy hserve
  have hwriter := hinv.writers roomId stored hmem
  rw [hsame] at hwriter
  refine Nat.lt_of_le_of_ne (hview.last _ hwriter) fun hnumber => ?_
  exact hview.unwritten roomId stored hmem (MessageId.ext hsame hnumber)

theorem stores_spec (message : MessageId) (roomId : Text) (member : PresenceMemberRecord) :
    (discipline services).Triple (.message message) (Unwritten message (.message message))
      (setMember roomId member message) fun _ => Busy message (.message message) := by
  refine Discipline.Triple.call (Unwritten.steadfast rfl).stable
    (fun view hview hinv choice answer state hserve => ?_) fun _ => (Busy.steadfast rfl).stable
  obtain ⟨-, hmembers⟩ := setMember_spec services.policy hserve
  refine ⟨⟨⟨prefix_rfl, fun _ _ => rfl, Arrives.refl view, fun other stored hstored => ?_⟩,
    ⟨hinv.handled_sorted, hinv.stale, hinv.handled_bound, hinv.queued_sorted, hinv.queued_bound,
      hinv.handled_le, fun other stored hstored => ?_⟩⟩, ⟨hview.heads, hview.handled, hview.last⟩⟩
  · refine (hmembers other stored hstored).imp (fun hold => ⟨stored, hold, rfl⟩) fun hnew => ?_
    rw [hnew]
  · cases hmembers other stored hstored with
    | inl hold => exact hinv.writers other stored hold
    | inr hnew =>
      rw [hnew]
      exact hview.handled

theorem stale_spec (message writer : MessageId)
    (holder : writer.state = message.state → writer.number < message.number) :
    (discipline services).Maintains (.message message) (Unwritten message (.message message))
      (Async.mark (.stale message writer) : RoomAsync Unit) := by
  refine Discipline.Triple.mark fun view hview hinv _ => ⟨True.intro, ?_⟩
  have hhandled : ∀ state, handled state (view.trace ++ [.stale message writer]) =
      handled state view.trace := by
    intro state
    refine handled_append state view.trace fun _ _ hsame => ?_
    cases hsame
  have hpersisted : ∀ state, persisted state (view.trace ++ [.stale message writer]) =
      persisted state view.trace := by
    intro state
    refine persisted_append state view.trace fun _ hsame => ?_
    cases hsame
  have hlater : NoLaterStale (view.trace ++ [.stale message writer]) := by
    intro later other hmem
    cases mem_append.mp hmem with
    | inl hold => exact hinv.stale later other hold
    | inr hnew =>
      cases mem_singleton.mp hnew
      exact holder
  refine ⟨⟨⟨prefix_append _ _, fun state _ => hhandled state, Arrives.refl view,
    fun _ stored hstored => .inl ⟨stored, hstored, rfl⟩⟩, ⟨fun state => ?_, hlater, fun state => ?_,
    hinv.queued_sorted, fun state => ?_, fun state => ?_, fun roomId stored hstored => ?_⟩⟩,
    ⟨hview.heads, ?_, ?_⟩, hview.unwritten⟩
  all_goals dsimp only
  · rw [hhandled]
    exact hinv.handled_sorted state
  · rw [hhandled, hpersisted]
    exact hinv.handled_bound state
  · rw [hpersisted]
    exact hinv.queued_bound state
  · rw [hhandled]
    exact hinv.handled_le state
  · rw [hhandled]
    exact hinv.writers roomId stored hstored
  · rw [hhandled]
    exact hview.handled
  · rw [hhandled]
    exact hview.last

theorem handling (message : MessageId) : Handling (discipline services) message
      (fun writer => writer.state = message.state → writer.number < message.number)
      (Unwritten message (.message message)) (Busy message (.message message)) where
  tameBefore := (Unwritten.steadfast rfl).tamely
  tameAfter := (Busy.steadfast rfl).tamely
  weaken _ hview := hview.toBusy
  stores := stores_spec message
  finds := finds_spec message
  stale := stale_spec message

variable {assertion : RoomView → Prop}

section

variable (h : Steadfast services job assertion)
include h

theorem Steadfast.quietMark {mark : Mark} (hhandles : ∀ message kind, mark ≠ .handles message kind)
    (hpersisted : ∀ message, mark ≠ .persisted message)
    (hstale : ∀ message writer, mark ≠ .stale message writer) :
    (discipline services).Maintains job assertion (Async.mark mark : RoomAsync Unit) := by
  refine Discipline.Triple.mark fun view hview hinv _ => ?_
  have hquiet : Quiet view { view with trace := view.trace ++ [mark] } :=
    Quiet.mark hhandles hpersisted hstale
  exact ⟨True.intro, hquiet.allows services job hinv, h.quiet _ _ hview hinv hquiet⟩

theorem all_spec {jobs : List (Job × RoomAsync Unit)} (hqueue : ∀ made ∈ jobs, made.1.queue = none)
    (hbodies : ∀ made ∈ jobs, (discipline services).Maintains made.1 (fun _ => True) made.2) :
    (discipline services).Maintains job assertion (Async.all jobs) := by
  have hall : (discipline services).Triple job (fun view => True ∧ assertion view) (Async.all jobs)
      fun _ => assertion := by
    refine Discipline.Triple.all (fun _ _ _ _ _ _ => True.intro) h.stable (fun made hmade => ?_)
      (fun made hmade view _ hview hinv => ?_) fun _ _ _ _ => True.intro
    · refine .consequence (hbodies made hmade) (fun _ _ _ => True.intro) fun _ view _ _ lane hlane => ?_
      cases (hqueue made hmade).symm.trans hlane
    · have hsame : view.push ((system services).queue made.1) made.1 = view := by
        have hnone : (system services).queue made.1 = none := hqueue made hmade
        rw [hnone]
        rfl
      rw [hsame]
      exact ⟨⟨(discipline services).guar_refl job view, hinv⟩, True.intro, hview⟩
  exact .weaken hall fun view hview _ => ⟨True.intro, hview⟩

theorem closes_spec
    (states : List PeerRef) (code : Nat) (reason : String) (endReason : PresenceSessionEndReason) :
    (discipline services).Maintains job assertion
      (Async.all (states.map (closing services code reason endReason))) := by
  refine all_spec h (fun made hmade => ?_) fun made hmade => ?_
  · obtain ⟨state, -, rfl⟩ := mem_map.mp hmade
    rfl
  · obtain ⟨state, -, rfl⟩ := mem_map.mp hmade
    have hclosing : Steadfast services (.closing state) fun _ => True := Steadfast.trivial _
    exact .bind (hclosing.tamely.routinely.closePeer state code reason) fun _ =>
      enqueueReset hclosing state endReason

theorem sweep_spec (room time : Nat) (callingPeer : Option PeerRef) :
    (discipline services).Maintains job assertion (sweepLocked services room time callingPeer) := by
  refine h.tamely.sweepLocked room time callingPeer (fun _ => assertion) (fun _ => assertion)
    (fun expired => h.quietMark ?_ ?_ ?_) (fun expired => h.tamely.calmly.requestLeaves expired)
    fun expired => closes_spec h expired _ _ _
  · intro message kind hsame
    cases hsame
  · intro message hsame
    cases hsame
  · intro message writer hsame
    cases hsame

theorem lock_spec (room : Nat) (caller : Option PeerRef) {work : RoomAsync Unit}
    (hwork : (discipline services).Maintains (.maintenance room caller) (fun _ => True) work) :
    (discipline services).Maintains job assertion
      (withMessageMaintenanceLock room caller work) := by
  refine h.enqueue ?_ (fun _ hsame => by cases hsame) fun _ hsame => by cases hsame
  refine .consequence hwork (fun _ _ _ => True.intro) fun _ view _ hinv lane hlane => ?_
  cases hlane
  have hquiet : Quiet view (view.pop (some (.maintenance room))) :=
    Quiet.pop fun state hsame => by cases hsame
  exact ⟨hquiet.guar _, hquiet.inv hinv, True.intro⟩

theorem maintain_spec (state : PeerRef) :
    (discipline services).Maintains job assertion (maintain services state) := by
  refine .bind (lock_spec h state.room (some state) ?_) fun _ => h.quietMark ?_ ?_ ?_
  · exact .bind maintains_now fun time => sweep_spec (Steadfast.trivial _) _ _ _
  · intro message kind hsame
    cases hsame
  · intro message hsame
    cases hsame
  · intro message writer hsame
    cases hsame

end

theorem messageBody (message : MessageId) (kind : PresenceMessageKind)
    (envelope : PresenceEnvelope) :
    Discipline.Triple.Body (discipline services) (.message message) (fun _ => True)
      (processMessage services message kind envelope) := by
  have hrest : Steadfast services (.message message) (AtRest message.state (.message message)) :=
    AtRest.steadfast rfl
  have hjob : HandlingJob message (.message message) := .inl rfl
  have hhandling : Handling (discipline services) message _ _ _ := handling message
  have hdispatch := hhandling.dispatch (fanoutSteady services) kind envelope (handles_spec hjob kind)
  refine .weaken (processMessage_spec (fanoutSteady services) hrest.tamely hrest.tamely
    (.weaken (hrest.quietMark ?_ ?_ ?_) fun _ hview _ => hview.2) (maintain_spec hrest message.state)
    kind envelope (.consequence hdispatch (fun _ hview _ => hview) fun _ view hview hinv =>
      hview.leaves hjob hinv) fun view hview hinv => hview.leaves rfl hinv)
    fun view hview _ => hview.2 _ rfl
  · intro message kind hsame
    cases hsame
  · intro message hsame
    cases hsame
  · intro message writer hsame
    cases hsame

theorem authenticateBody (message : MessageId) (envelope : PresenceEnvelope) :
    Discipline.Triple.Body (discipline services) (.authenticate message) (fun _ => True)
      (authenticate services message envelope) := by
  have hjob : HandlingJob message (.authenticate message) := .inr rfl
  have hbusy : Steadfast services (.authenticate message) (Busy message (.authenticate message)) :=
    Busy.steadfast rfl
  have hmark : (discipline services).Triple (.authenticate message) _ _ _ := handles_spec hjob .auth
  have hwork := hbusy.tamely.authenticate (fanoutSteady services) message envelope
    (.consequence hmark (fun _ hview _ => hview) fun _ _ hview _ => hview.toBusy)
  exact .consequence hwork (fun view hview _ => hview.2 _ rfl) fun _ view hview hinv =>
    hview.leaves hjob hinv

end Messages

section Calls

structure Numbered (message : MessageId) (view : RoomView) : Prop where
  handled : ∀ old ∈ handled message.state view.trace, old < message.number
  queued : ∀ old ∈ queued message.state (view.lanes (.peer message.state)), old < message.number
  persisted : message.number < (persisted message.state view.trace).length

theorem persisted_persisted (state : PeerRef) (trace : List Mark) (message : MessageId) :
    persisted state (trace ++ [.persisted message]) =
      persisted state trace ++ if message.state = state then [message.number] else [] := by
  unfold persisted
  rw [filterMap_append]
  congr 1
  by_cases hsame : message.state = state
  · rw [if_pos hsame]
    exact filterMap_cons_some (if_pos hsame)
  · rw [if_neg hsame]
    exact filterMap_cons_none (if_neg hsame)

theorem persisted_spec (message : MessageId) : (discipline services).Triple .call (fun _ => True)
      (Async.mark (.persisted message) : RoomAsync Unit) fun _ => Numbered message := by
  refine Discipline.Triple.mark fun view _ hinv hcond => ⟨True.intro, ?_⟩
  have hlength : (persisted message.state view.trace).length = message.number := by
    have horder : persisted message.state view.trace = List.range message.number := hcond
    rw [horder, length_range]
  have hhandled : ∀ state, handled state (view.trace ++ [.persisted message]) =
      handled state view.trace := by
    intro state
    refine handled_append state view.trace fun _ _ hsame => ?_
    cases hsame
  have hgrows : ∀ state, (persisted state view.trace).length ≤
      (persisted state (view.trace ++ [.persisted message])).length := by
    intro state
    rw [persisted_persisted, length_append]
    exact Nat.le_add_right _ _
  have hstale : NoLaterStale (view.trace ++ [.persisted message]) := by
    intro later writer hmem
    cases mem_append.mp hmem with
    | inl hold => exact hinv.stale later writer hold
    | inr hnew => cases mem_singleton.mp hnew
  refine ⟨⟨⟨prefix_append _ _, fun state _ => hhandled state, Arrives.refl view,
    fun _ stored hstored => .inl ⟨stored, hstored, rfl⟩⟩, ⟨fun state => ?_, hstale,
    fun state number hnumber => ?_, hinv.queued_sorted, fun state number hnumber => ?_, fun state => ?_,
    fun roomId stored hstored => ?_⟩⟩, ⟨fun old hold => ?_, fun old hold => ?_, ?_⟩⟩
  · rw [hhandled]
    exact hinv.handled_sorted state
  · rw [hhandled] at hnumber
    exact Nat.lt_of_lt_of_le (hinv.handled_bound state number hnumber) (hgrows state)
  · exact Nat.lt_of_lt_of_le (hinv.queued_bound state number hnumber) (hgrows state)
  · rw [hhandled]
    exact hinv.handled_le state
  · rw [hhandled]
    exact hinv.writers roomId stored hstored
  · rw [hhandled] at hold
    exact hlength ▸ hinv.handled_bound message.state old hold
  · exact hlength ▸ hinv.queued_bound message.state old hold
  · dsimp only
    rw [persisted_persisted, if_pos rfl, length_append, hlength, length_singleton]
    exact Nat.lt_succ_self _

theorem queued_push {view : RoomView} (hjob : HandlingJob message job) (state : PeerRef) :
    queued state ((view.push job.queue job).lanes (.peer state)) =
      queued state (view.lanes (.peer state)) ++
        if message.state = state then [message.number] else [] := by
  dsimp only [View.push]
  rw [hjob.queue]
  by_cases hsame : message.state = state
  · cases hsame
    rw [if_pos rfl, if_pos rfl]
    unfold queued
    rw [filterMap_append]
    congr 1
    exact hjob.queued []
  · rw [if_neg hsame, if_neg fun hqueue => hsame (Queue.peer.inj (Option.some.inj hqueue)),
      append_nil]

theorem enqueueMessage (hjob : HandlingJob message job) {work : RoomAsync Unit}
    (hbody : Discipline.Triple.Body (discipline services) job (fun _ => True) work) :
    (discipline services).Triple .call (Numbered message) (enqueue job work) fun _ _ => True := by
  refine Discipline.Triple.perform (fun _ _ _ _ _ _ => True.intro) hbody
    (fun view hview hinv => ⟨?_, True.intro, True.intro, True.intro⟩) fun _ _ _ _ _ _ => True.intro
  have hmem : ∀ state, ∀ number ∈ queued state ((view.push job.queue job).lanes (.peer state)),
      number ∈ queued state (view.lanes (.peer state)) ∨
        state = message.state ∧ number = message.number := by
    intro state number hnumber
    rw [queued_push hjob] at hnumber
    refine (mem_append.mp hnumber).imp_right fun hnew => ?_
    split at hnew
    · next hsame => exact ⟨hsame.symm, mem_singleton.mp hnew⟩
    · cases hnew
  refine ⟨⟨prefix_rfl, fun _ _ => rfl, fun state number hnumber => ?_,
    fun _ stored hstored => .inl ⟨stored, hstored, rfl⟩⟩, ⟨hinv.handled_sorted, hinv.stale,
    hinv.handled_bound, fun state => ?_, fun state number hnumber => ?_,
    fun state old hold number hnumber => ?_, hinv.writers⟩⟩
  · refine (hmem state number hnumber).imp_right fun hnew old hold => ?_
    rw [hnew.2]
    exact hview.handled old (hnew.1 ▸ hold)
  · have hpush : queued state ((view.push job.queue job).lanes (.peer state)) = _ :=
      queued_push hjob state
    have hsorted := hinv.queued_sorted state
    refine Eq.mpr (congrArg (List.Pairwise (· < ·)) hpush) ?_
    split
    · next hsame =>
        rw [pairwise_append]
        refine ⟨hsorted, pairwise_singleton _ _, fun old hold number hnumber => ?_⟩
        rw [mem_singleton.mp hnumber]
        exact hview.queued old (hsame ▸ hold)
    · rw [append_nil]
      exact hsorted
  · cases hmem state number hnumber with
    | inl hold => exact hinv.queued_bound state number hold
    | inr hnew =>
      rw [hnew.1, hnew.2]
      exact hview.persisted
  · cases hmem state number hnumber with
    | inl hqueued => exact hinv.handled_le state old hold number hqueued
    | inr hnew =>
      rw [hnew.2]
      exact Nat.le_of_lt (hview.handled old (hnew.1 ▸ hold))

theorem resumeBody (state : PeerRef) (resumed : PresenceRoomResumeState) :
    Discipline.Triple.Body (discipline services) (.resume state) (fun _ => True)
      (resumeSession services state resumed) :=
  body_of_maintains rfl
    ((AtRest.steadfast rfl).tamely.resumeSession (fanoutSteady services) state resumed)

theorem calling : Calling (discipline services) Numbered fun _ _ => True := by
  have hcall : Steadfast services .call fun _ => True := Steadfast.trivial .call
  refine ⟨hcall.tamely.calmly, fun message view state hview hinv hcalm => ?_, persisted_spec,
    fun message kind envelope => enqueueMessage (.inl rfl) (messageBody message kind envelope),
    fun message envelope => enqueueMessage (.inr rfl) (authenticateBody message envelope),
    fun state resumed => hcall.enqueue (resumeBody state resumed) ?_ ?_,
    fun _ _ _ => True.intro, fun _ => hcall.tamely.routinely,
    fun state endReason => enqueueReset hcall state endReason,
    fun state endReason => hcall.detach (resetBody state endReason) ?_ ?_,
    fun recipients frame => all_spec hcall ?_ ?_,
    fun states code reason endReason =>
      .weaken (closes_spec hcall states code reason endReason) fun _ _ _ => True.intro,
    fun room time => lock_spec hcall room none (sweep_spec (Steadfast.trivial _) _ _ _)⟩
  · exact ⟨(Quiet.tame hcalm.tame).allows services _ hinv, hview.handled, hview.queued,
      hview.persisted⟩
  · intro message hsame
    cases hsame
  · intro message hsame
    cases hsame
  · intro message hsame
    cases hsame
  · intro message hsame
    cases hsame
  · intro made hmade
    obtain ⟨state, -, rfl⟩ := mem_map.mp hmade
    rfl
  · intro made hmade
    obtain ⟨state, -, rfl⟩ := mem_map.mp hmade
    exact .bind ((Steadfast.trivial .sending).tamely.call id) fun _ => .pure

theorem enters : (discipline services).Enters := calling.enters (fanoutSteady services)

theorem sound_start : (discipline services).Sound start := by
  refine Discipline.sound_of_idle rfl ?_ fun own => ?_
  · refine ⟨fun _ => List.Pairwise.nil, ?_, ?_, fun _ => List.Pairwise.nil, ?_, ?_, ?_⟩
    · intro message writer hmem
      cases hmem
    · intro state number hnumber
      cases hnumber
    · intro state number hnumber
      cases hnumber
    · intro state old hold
      cases hold
    · intro roomId stored hstored
      cases hstored
  · cases own with
    | peer state =>
      intro old hold
      cases hold
    | maintenance room => exact True.intro
    | fanout room => exact True.intro

end Calls

end Lanes

theorem inOrder_of_persisted {trace : List Mark} (h : PersistedInOrder trace) :
    ∀ before mark, before ++ [mark] <+: trace → InOrder mark before := by
  intro before mark hinit
  cases mark with
  | persisted message =>
    have hnumbers : persisted message.state before ++ [message.number] <+:
        persisted message.state trace := by
      have hmark := persisted_persisted message.state before message
      rw [if_pos rfl] at hmark
      rw [← hmark]
      exact hinit.filterMap _
    rw [h message.state] at hnumbers
    have htake := prefix_iff_eq_take.mp hnumbers
    rw [take_range, length_append, length_singleton] at htake
    have hbound : (persisted message.state before).length + 1 ≤
        (persisted message.state trace).length := by
      have hlength := hnumbers.length_le
      rw [length_append, length_singleton, length_range] at hlength
      exact hlength
    rw [Nat.min_eq_left hbound, range_succ] at htake
    obtain ⟨hbefore, hlast⟩ := append_inj' htake rfl
    have hnumber : message.number = (persisted message.state before).length :=
      (List.cons.inj hlast).1
    exact hbefore.trans (congrArg List.range hnumber.symm)
  | _ => exact True.intro

theorem joinsFirst_of_handled {trace : List Mark} (h : HandledInOrder trace) : JoinsFirst trace := by
  intro before message kind hinit join hstate hnumber hjoin
  obtain ⟨rest, hrest⟩ := hinit
  rw [← hrest, append_assoc] at hjoin
  cases mem_append.mp hjoin with
  | inl hbefore => exact hbefore
  | inr hafter =>
    exfalso
    have hlist : handled message.state (before ++ ([.handles message kind] ++ rest)) =
        handled message.state before ++ (message.number :: handled message.state rest) := by
      unfold handled
      rw [filterMap_append]
      exact congrArg _ (filterMap_cons_some (if_pos rfl))
    have hsorted := h message.state
    rw [← hrest, append_assoc, hlist, pairwise_append, pairwise_cons] at hsorted
    cases mem_cons.mp hafter with
    | inl heq =>
      cases heq
      exact Nat.lt_irrefl _ hnumber
    | inr hlater =>
      refine Nat.lt_asymm hnumber (hsorted.2.1.1 join.number ?_)
      exact mem_filterMap.mpr ⟨_, hlater, if_pos hstate⟩

/-- In every run in which the snapshots of each peer's calls are persisted in the order of the
calls, its messages are handled in that order. -/
theorem handled_in_arrival_order (services : PresenceServices) (actions : List RoomAction)
    {after : RoomWorld} (hrun : World.run (system services) start actions = some after)
    (hpersisted : PersistedInOrder after.trace) :
    HandledInOrder after.trace ∧ NoLaterStale after.trace ∧ JoinsFirst after.trace := by
  obtain ⟨hmeets, -⟩ := World.runMeets_of_trace actions hrun (inOrder_of_persisted hpersisted)
  have henters : (discipline services).Enters := enters
  obtain ⟨hsound, -⟩ := Discipline.Sound.run henters actions sound_start hmeets hrun
  have hinv : Inv (after.view (system services)) := hsound.inv
  exact ⟨hinv.handled_sorted, hinv.stale, joinsFirst_of_handled hinv.handled_sorted⟩

/-- Two Updates of a peer, the second of which is persisted first. -/
def sampleUpdates : List RoomAction :=
  sampleJoins ++ [.invoke (.receive 0 0 (sampleMessage "u" 1)),
    .invoke (.receive 0 0 (sampleMessage "u" 2))] ++ answered 1 none ++ answered 0 none ++
    [.resume 2, .resume 2] ++ answered 2 none ++ answered 2 none ++ answered 2 none ++
    [.serve 2 (sampleChoice none)] ++ answered 2 none ++ [.resume 1, .resume 1, .resume 1] ++
    answered 1 none ++ answered 1 none

theorem not_handled_in_arrival_order : ∃ actions after,
    World.run (system (sampleServices .background)) start actions = some after ∧
      ¬HandledInOrder after.trace ∧ ¬NoLaterStale after.trace := by
  have hruns : (World.run (system (sampleServices .background)) start sampleUpdates).map
      (fun after => handled ⟨0, 0, 0⟩ after.trace) = some [0, 1, 3, 2] := by decide +kernel
  have hstale : (World.run (system (sampleServices .background)) start sampleUpdates).map
      (fun after => after.trace.any fun
        | .stale message writer => writer.state = message.state && message.number < writer.number
        | _ => false) = some true := by decide +kernel
  obtain ⟨after, hrun, hhandled⟩ := Option.map_eq_some_iff.mp hruns
  rw [hrun] at hstale
  refine ⟨sampleUpdates, after, hrun, fun horder => ?_, fun hnone => ?_⟩
  · have hsorted := horder ⟨0, 0, 0⟩
    rw [hhandled] at hsorted
    revert hsorted
    decide
  · obtain ⟨mark, hmark, hlater⟩ := any_eq_true.mp (Option.some.inj hstale)
    cases mark with
    | stale message writer =>
      obtain ⟨hstate, hnumber⟩ := Bool.and_eq_true_iff.mp hlater
      have hless := hnone message writer hmark (of_decide_eq_true hstate)
      exact Nat.lt_asymm hless (of_decide_eq_true hnumber)
    | _ => cases hlater

theorem handled_in_arrival_order_joins : ∃ after,
    World.run (system (sampleServices .background)) start sampleJoins = some after ∧
      HandledInOrder after.trace ∧ NoLaterStale after.trace ∧ JoinsFirst after.trace := by
  have hruns : (World.run (system (sampleServices .background)) start sampleJoins).map
      (fun after => after.trace.filterMap fun
        | .persisted message => some message
        | _ => none) = some [⟨⟨0, 0, 0⟩, 0⟩, ⟨⟨0, 0, 0⟩, 1⟩] := by decide +kernel
  obtain ⟨after, hrun, hmessages⟩ := Option.map_eq_some_iff.mp hruns
  refine ⟨after, hrun, handled_in_arrival_order _ sampleJoins hrun fun state => ?_⟩
  have hpersisted : persisted state after.trace =
      [(⟨⟨0, 0, 0⟩, 0⟩ : MessageId), ⟨⟨0, 0, 0⟩, 1⟩].filterMap fun message =>
        if message.state = state then some message.number else none := by
    rw [← hmessages, filterMap_filterMap]
    unfold persisted
    congr 1
    funext mark
    cases mark <;> rfl
  rw [hpersisted]
  by_cases hstate : (⟨0, 0, 0⟩ : PeerRef) = state
  · rw [← hstate]
    rfl
  · have hown : ∀ message ∈ [(⟨⟨0, 0, 0⟩, 0⟩ : MessageId), ⟨⟨0, 0, 0⟩, 1⟩],
        message.state = ⟨0, 0, 0⟩ := by decide
    rw [filterMap_eq_nil_iff.mpr fun message hmessage =>
      if_neg fun hsame => hstate ((hown message hmessage).symm.trans hsame)]
    rfl

end Softmaple.Presence.ArrivalOrder
