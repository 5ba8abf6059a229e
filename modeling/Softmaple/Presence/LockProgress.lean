import Softmaple.Lib.AsyncProgress
import Softmaple.Presence.RoomCalls

/-!
Progress of the peer queues under the maintenance lock. A sweep waits for the
queues of the peers that it closes, and the work of a message waits for the
lock. Where no sweep lists a peer whose message is on its way to the lock, what
tasks wait for has a falling rank.
-/
namespace Softmaple.Presence.LockProgress

open Json AsyncTasks
open Relation (TransGen)

/-- A message of the peer has re-armed its heartbeat and is not back from the maintenance lock. -/
def maintaining (state : PeerRef) (trace : List Mark) : Bool :=
  trace.foldl (fun held mark =>
    match mark with
    | .rearms other => if other = state then true else held
    | .maintained other => if other = state then false else held
    | _ => held) false

/-- A sweep lists no peer whose message is on its way to the lock. -/
def Spares : Mark → List Mark → Prop
  | .lists _ expired, trace => ∀ state ∈ expired, maintaining state trace = false
  | _, _ => True

/-- No sweep of a run does. -/
def SweepsSpare (trace : List Mark) : Prop :=
  ∀ before mark, before ++ [mark] <+: trace → Spares mark before

def doomed (state : PeerRef) (view : RoomView) : Bool :=
  (view.state.peers state).leaveRequested && !maintaining state view.trace

def Waits : Job → Job → RoomView → Prop
  | .call, other, _ => other ≠ .call
  | .fanout _, .fanout _, _ => False
  | _, .fanout _, _ => True
  | .closing state, .reset other, _ => state = other
  | .message message, .maintenance _ _, view => maintaining message.state view.trace = true
  | .maintenance _ _, .closing state, view => doomed state view = true
  | _, _, _ => False

structure Guar (job : Job) (first second : RoomView) : Prop where
  doomed : ∀ state, doomed state first = true → doomed state second = true
  maintaining : ∀ state, job.queue ≠ some (.peer state) →
    maintaining state second.trace = maintaining state first.trace

structure Rely (lane : Option Queue) (first second : RoomView) : Prop where
  doomed : ∀ state, doomed state first = true → doomed state second = true
  maintaining : ∀ state, lane = some (.peer state) →
    maintaining state second.trace = maintaining state first.trace

variable {job : Job}

theorem Waits.of_rely {other : Job} {first second : RoomView} (h : Waits job other first)
    (hrely : Rely job.queue first second) : Waits job other second := by
  cases job with
  | call => exact h
  | message message =>
    cases other with
    | maintenance room caller =>
      exact (hrely.maintaining message.state rfl).trans h
    | _ => exact h
  | maintenance room caller =>
    cases other with
    | closing state => exact hrely.doomed state h
    | _ => exact h
  | _ => cases other <;> exact h

variable (services : PresenceServices)

def discipline : Discipline (system services) where
  cond mark view := Spares mark view.trace
  ensures _ _ := True
  inv _ := True
  rest _ _ := True
  guar := Guar
  rely := Rely
  waits := Waits
  guar_refl _ _ := ⟨fun _ h => h, fun _ _ => rfl⟩
  rely_refl _ _ := ⟨fun _ h => h, fun _ _ => rfl⟩
  rely_trans h hnext := ⟨fun state hdoomed => hnext.doomed state (h.doomed state hdoomed),
    fun state hlane => (hnext.maintaining state hlane).trans (h.maintaining state hlane)⟩
  rely_none h := ⟨h.doomed, fun _ hnone => (by cases hnone)⟩
  rely_of_guar {lane job first second} h _ _ hlane := by
    refine ⟨h.doomed, fun state hown => h.maintaining state fun hqueue => ?_⟩
    cases hlane with
    | inl hnone => cases hnone.symm.trans hown
    | inr hne => exact hne (hqueue.trans hown.symm)
  rest_of_rely _ _ := trivial
  waits_of_rely h hrely := h.of_rely hrely

/-- Fanout, sending, the queue of a peer that leaves, its closing, maintenance, the queue of any
other peer, its closing, calls. -/
def rank : Job → RoomView → Nat
  | .fanout _, _ => 0
  | .sending, _ => 1
  | .message ⟨state, _⟩, view | .authenticate ⟨state, _⟩, view | .reset state, view
  | .resume state, view => if doomed state view then 2 else 5
  | .closing state, view => if doomed state view then 3 else 6
  | .maintenance _ _, _ => 4
  | .call, _ => 7

variable {view : RoomView}

theorem rank_peer {state : PeerRef}
    (h : job.queue = some (.peer state)) : rank job view = if doomed state view then 2 else 5 := by
  cases job with
  | message message | authenticate message | reset message | resume message =>
    cases h
    rfl
  | _ => cases h

theorem rank_maintenance {room : Nat} (h : job.queue = some (.maintenance room)) : rank job view = 4 := by
  cases job with
  | maintenance room caller => rfl
  | _ => cases h

theorem rank_fanout {room : Nat} (h : job.queue = some (.fanout room)) : rank job view = 0 := by
  cases job with
  | fanout room => rfl
  | _ => cases h

theorem not_doomed_of_maintaining {state : PeerRef}
    (h : maintaining state view.trace = true) : doomed state view = false := by
  unfold doomed
  rw [h]
  exact Bool.and_false _

theorem rank_closing (state : PeerRef) (view : RoomView) :
    rank (.closing state) view = if doomed state view then 3 else 6 := rfl

theorem rank_pos (h : ∀ room, job ≠ .fanout room) : 0 < rank job view := by
  cases job with
  | fanout room => exact absurd rfl (h room)
  | message | authenticate | reset | resume =>
    rw [rank_peer rfl]
    split <;> decide
  | closing =>
    rw [rank_closing]
    split <;> decide
  | call | sending | maintenance => exact Nat.zero_lt_succ _

theorem rank_lt_call (h : job ≠ .call) : rank job view < rank .call view := by
  have hcall : rank .call view = 7 := rfl
  rw [hcall]
  cases job with
  | call => exact absurd rfl h
  | message | authenticate | reset | resume =>
    rw [rank_peer rfl]
    split <;> decide
  | closing =>
    rw [rank_closing]
    split <;> decide
  | sending => exact Nat.lt_of_sub_pos (Nat.zero_lt_succ 5)
  | maintenance => exact Nat.lt_of_sub_pos (Nat.zero_lt_succ 2)
  | fanout => exact Nat.zero_lt_succ _

theorem Waits.rank_lt {other : Job} (h : Waits job other view) :
    rank other view < rank job view := by
  cases other with
  | fanout room =>
    refine rank_pos fun own hown => ?_
    rw [hown] at h
    exact h
  | call | sending | message | authenticate | resume =>
    cases job with
    | call => exact rank_lt_call h
    | _ => cases h
  | reset state =>
    cases job with
    | call => exact rank_lt_call h
    | closing own =>
      cases h
      rw [rank_peer rfl, rank_closing]
      split <;> decide
    | _ => cases h
  | closing state =>
    cases job with
    | call => exact rank_lt_call h
    | maintenance room caller =>
      have hdoomed : doomed state view = true := h
      rw [rank_closing, if_pos hdoomed, rank_maintenance rfl]
      decide
    | _ => cases h
  | maintenance room caller =>
    cases job with
    | call => exact rank_lt_call h
    | message message =>
      have hmaintaining : maintaining message.state view.trace = true := h
      have hother : rank (.maintenance room caller) view = 4 := rfl
      rw [hother, rank_peer rfl, not_doomed_of_maintaining hmaintaining]
      decide
    | _ => cases h

theorem ranked : (discipline services).Ranked rank where
  waits h := Waits.rank_lt h
  queue {job other view} hqueue hsome := by
    cases hown : job.queue with
    | none => exact absurd hown hsome
    | some lane =>
      have hother : other.queue = some lane := hqueue.symm.trans hown
      cases lane with
      | peer state => rw [rank_peer hown, rank_peer hother]
      | maintenance room => rw [rank_maintenance hown, rank_maintenance hother]
      | fanout room => rw [rank_fanout hown, rank_fanout hother]
  mono {job first second} h := by
    have hlower : ∀ (state : PeerRef) (low high : Nat), low ≤ high →
        (if doomed state second then low else high) ≤ if doomed state first then low else high := by
      intro state low high hle
      by_cases hdoomed : doomed state first = true
      · rw [if_pos hdoomed, if_pos (h.doomed state hdoomed)]
      · rw [if_neg hdoomed]
        split
        · exact hle
        · exact Nat.le_refl _
    cases job with
    | message message => exact hlower message.state 2 5 (by decide)
    | authenticate message => exact hlower message.state 2 5 (by decide)
    | reset state | resume state => exact hlower state 2 5 (by decide)
    | closing state => exact hlower state 3 6 (by decide)
    | call | sending | maintenance | fanout => exact Nat.le_refl _

/-- A change that neither takes back a request to leave nor concerns the lock. -/
structure Mild (first second : RoomView) : Prop where
  leaveRequested : ∀ state, (first.state.peers state).leaveRequested = true →
    (second.state.peers state).leaveRequested = true
  maintaining : ∀ state, maintaining state second.trace = maintaining state first.trace

theorem maintaining_append (state : PeerRef) (trace : List Mark) {mark : Mark}
    (hrearms : mark ≠ .rearms state) (hmaintained : mark ≠ .maintained state) :
    maintaining state (trace ++ [mark]) = maintaining state trace := by
  unfold maintaining
  rw [List.foldl_append]
  cases mark with
  | rearms other => exact if_neg fun hsame => hrearms (congrArg Mark.rearms hsame)
  | maintained other => exact if_neg fun hsame => hmaintained (congrArg Mark.maintained hsame)
  | _ => rfl

namespace Mild

variable {first second : RoomView}

theorem doomed (h : Mild first second) (state : PeerRef) (hdoomed : doomed state first = true) :
    LockProgress.doomed state second = true := by
  obtain ⟨hleave, hlock⟩ := Bool.and_eq_true_iff.mp hdoomed
  refine Bool.and_eq_true_iff.mpr ⟨h.leaveRequested state hleave, ?_⟩
  rw [h.maintaining state]
  exact hlock

theorem allows (h : Mild first second) (job : Job) : (discipline services).Allows job first second :=
  ⟨⟨h.doomed, fun state _ => h.maintaining state⟩, True.intro⟩

theorem mark {view : RoomView} {mark : Mark} (hrearms : ∀ state, mark ≠ .rearms state)
    (hmaintained : ∀ state, mark ≠ .maintained state) :
    Mild view { view with trace := view.trace ++ [mark] } :=
  ⟨fun _ h => h, fun state => maintaining_append state view.trace (hrearms state) (hmaintained state)⟩

theorem push (view : RoomView) (lane : Option Queue) (job : Job) : Mild view (view.push lane job) :=
  ⟨fun _ h => h, fun _ => rfl⟩

end Mild

structure Steadfast (job : Job) (assertion : RoomView → Prop) : Prop where
  stable : (discipline services).Stable job assertion
  mild : ∀ first second, assertion first → Mild first second → assertion second

namespace Steadfast

variable {services} {job : Job} {assertion : RoomView → Prop}

theorem trivial (job : Job) : Steadfast services job fun _ => True :=
  ⟨fun _ _ _ _ _ _ => True.intro, fun _ _ _ _ => True.intro⟩

section

variable (h : Steadfast services job assertion)
include h

theorem mark {mark : Mark}
    (hrearms : ∀ state, mark ≠ .rearms state) (hmaintained : ∀ state, mark ≠ .maintained state) :
    (discipline services).Maintains job assertion (Async.mark mark : RoomAsync Unit) := by
  refine Discipline.Triple.mark fun view hview _ _ => ?_
  have hmild : Mild view { view with trace := view.trace ++ [mark] } := Mild.mark hrearms hmaintained
  exact ⟨True.intro, hmild.allows services job, h.mild _ _ hview hmild⟩

theorem tamely (hjob : ∀ room, job ≠ .fanout room) :
    Tamely (discipline services) job assertion where
  stable := h.stable
  tame view state hview _ htame := by
    have hmild : Mild view { view with state := state } := ⟨htame.leaveRequested, fun _ => rfl⟩
    exact ⟨hmild.allows services job, h.mild _ _ hview hmild⟩
  mark mark view hplain hview _ := by
    have hmild : Mild view { view with trace := view.trace ++ [mark] } := by
      cases hplain with
      | received | takes | stores | joins | leaves | sends =>
        refine Mild.mark (fun _ hsame => ?_) fun _ hsame => ?_
        · cases hsame
        · cases hsame
    exact ⟨True.intro, hmild.allows services job, h.mild _ _ hview hmild⟩
  fanout room view hview _ := by
    have hmild := Mild.push view (some (.fanout room)) (.fanout room)
    refine ⟨hmild.allows services job, ?_, h.mild _ _ hview hmild⟩
    cases job with
    | fanout own => exact absurd rfl (hjob own)
    | call =>
      intro hcall
      cases hcall
    | _ => exact True.intro

omit h in
theorem leaving_body {other : Job} {work : RoomAsync Unit}
    (hbody : (discipline services).Maintains other (fun _ => True) work) :
    Discipline.Triple.Body (discipline services) other (fun _ => True) work :=
  .consequence hbody (fun _ _ _ => True.intro) fun _ _ _ _ _ _ =>
    ⟨⟨fun _ hdoomed => hdoomed, fun _ _ => rfl⟩, True.intro, True.intro⟩

theorem enqueue {other : Job} {work : RoomAsync Unit}
    (hbody : (discipline services).Maintains other (fun _ => True) work)
    (hwaits : ∀ view, assertion view → Waits job other view) :
    (discipline services).Maintains job assertion (Async.perform other work) := by
  refine Discipline.Triple.perform (fun _ _ _ _ _ _ => True.intro) (leaving_body hbody)
    (fun view hview _ => ?_) h.stable
  have hmild := Mild.push view other.queue other
  have hafter := h.mild _ _ hview hmild
  exact ⟨hmild.allows services job, True.intro, hwaits _ hafter, hafter⟩

theorem all {jobs : List (Job × RoomAsync Unit)}
    (hbodies : ∀ made ∈ jobs, (discipline services).Maintains made.1 (fun _ => True) made.2)
    (hwaits : ∀ made ∈ jobs, ∀ view, assertion view → Waits job made.1 view) :
    (discipline services).Maintains job assertion (Async.all jobs) := by
  have hall : (discipline services).Triple job (fun view => True ∧ assertion view) (Async.all jobs)
      fun _ => assertion := by
    refine Discipline.Triple.all (fun _ _ _ _ _ _ => True.intro) h.stable
      (fun made hmade => leaving_body (hbodies made hmade)) (fun made hmade view _ hview _ => ?_) hwaits
    have hmild := Mild.push view made.1.queue made.1
    exact ⟨hmild.allows services job, True.intro, h.mild _ _ hview hmild⟩
  exact .weaken hall fun view hview _ => ⟨True.intro, hview⟩

end

end Steadfast

section Jobs

variable {services}

theorem fanoutSteady : FanoutSteady (discipline services) where
  steady room :=
    { stable := fun _ _ _ _ _ _ => True.intro
      routine := fun view state _ _ hroutine => by
        have hmild : Mild view { view with state := state } :=
          ⟨hroutine.calm.leaveRequested, fun _ => rfl⟩
        exact ⟨hmild.allows services _, True.intro⟩
      sends := fun peer frame view _ _ => by
        have hmild : Mild view { view with trace := view.trace ++ [.sends peer frame] } := by
          refine Mild.mark (fun _ hsame => ?_) fun _ hsame => ?_
          · cases hsame
          · cases hsame
        exact ⟨True.intro, hmild.allows services _, True.intro⟩ }
  leaves room view _ lane _ := ⟨⟨fun _ hdoomed => hdoomed, fun _ _ => rfl⟩, True.intro, True.intro⟩

theorem tamely {job : Job} (hjob : ∀ room, job ≠ .fanout room) :
    Tamely (discipline services) job fun _ => True :=
  (Steadfast.trivial job).tamely hjob

theorem reset_spec (state : PeerRef) (endReason : PresenceSessionEndReason) :
    (discipline services).Maintains (.reset state) (fun _ => True)
      (resetState services state true endReason) :=
  (tamely fun _ hsame => by cases hsame).resetState fanoutSteady state endReason

theorem closing_spec (code : Nat) (reason : String) (endReason : PresenceSessionEndReason)
    (state : PeerRef) :
    (discipline services).Maintains (.closing state) (fun _ => True)
      (closing services code reason endReason state).2 := by
  refine .bind ((tamely fun _ hsame => by cases hsame).routinely.closePeer state code reason) fun _ => ?_
  exact (Steadfast.trivial _).enqueue (reset_spec state endReason) fun _ _ => rfl

theorem sending_spec (peer : Nat) (frame : PresenceFrame) :
    (discipline services).Maintains .sending (fun _ => True)
      (do let _ ← Async.call (Request.send peer frame)) :=
  .bind ((tamely fun _ hsame => by cases hsame).call id) fun _ => .pure

/-- All of the peers were asked to leave, and none is on its way to the lock. -/
def AllDoomed (states : List PeerRef) (view : RoomView) : Prop :=
  ∀ state ∈ states, doomed state view = true

theorem AllDoomed.steadfast (states : List PeerRef) (job : Job) :
    Steadfast services job (AllDoomed states) :=
  ⟨fun _ _ h _ hlater _ state hstate => hlater.1.doomed state (h state hstate),
    fun _ _ h hmild state hstate => hmild.doomed state (h state hstate)⟩

theorem sweep_spec (room time : Nat) (callingPeer caller : Option PeerRef) :
    (discipline services).Maintains (.maintenance room caller) (fun _ => True)
      (sweepLocked services room time callingPeer) := by
  refine (tamely fun _ hsame => by cases hsame).sweepLocked room time callingPeer
    (fun expired view => ∀ state ∈ expired, maintaining state view.trace = false) AllDoomed
    (fun expired => ?_) (fun expired => ?_) fun expired => ?_
  · refine Discipline.Triple.mark fun view _ _ hcond => ?_
    have hmild : Mild view { view with trace := view.trace ++ [.lists room expired] } := by
      refine Mild.mark (fun _ hsame => ?_) fun _ hsame => ?_
      · cases hsame
      · cases hsame
    refine ⟨True.intro, hmild.allows services _, fun state hstate => ?_⟩
    exact (hmild.maintaining state).trans (hcond state hstate)
  · refine Discipline.Triple.modify fun view hlisted _ => ?_
    have hmild : Mild view { view with state := view.state.requestLeaves expired } :=
      ⟨(State.Calm.requestLeaves expired view.state).leaveRequested, fun _ => rfl⟩
    refine ⟨hmild.allows services _, fun state hstate => Bool.and_eq_true_iff.mpr ⟨?_, ?_⟩⟩
    · exact State.leaveRequested_requestLeaves expired view.state state hstate
    · dsimp only
      rw [hlisted state hstate]
      rfl
  · refine .consequence ((AllDoomed.steadfast expired _).all (fun made hmade => ?_)
      fun made hmade view hdoomed => ?_) (fun _ hview _ => hview) fun _ _ _ _ => True.intro
    · obtain ⟨state, -, rfl⟩ := List.mem_map.mp hmade
      exact closing_spec _ _ _ state
    · obtain ⟨state, hstate, rfl⟩ := List.mem_map.mp hmade
      exact hdoomed state hstate

def Maintaining (state : PeerRef) (view : RoomView) : Prop :=
  maintaining state view.trace = true

theorem Maintaining.steadfast {job : Job} {state : PeerRef} (hqueue : job.queue = some (.peer state)) :
    Steadfast services job (Maintaining state) :=
  ⟨fun _ _ h _ hlater _ => (hlater.1.maintaining state hqueue).trans h,
    fun _ _ h hmild => (hmild.maintaining state).trans h⟩

theorem maintaining_rearms (state other : PeerRef) (trace : List Mark) :
    maintaining state (trace ++ [.rearms other]) =
      if other = state then true else maintaining state trace := by
  unfold maintaining
  rw [List.foldl_append]
  rfl

theorem maintaining_maintained (state other : PeerRef) (trace : List Mark) :
    maintaining state (trace ++ [.maintained other]) =
      if other = state then false else maintaining state trace := by
  unfold maintaining
  rw [List.foldl_append]
  rfl

theorem maintain_spec (message : MessageId) :
    (discipline services).Triple (.message message) (Maintaining message.state)
      (maintain services message.state) fun _ _ => True := by
  refine .bind ((Maintaining.steadfast rfl).enqueue ?_ fun view hview => hview) fun _ => ?_
  · exact .bind maintains_now fun time => sweep_spec _ _ _ _
  · refine Discipline.Triple.mark fun view _ _ _ => ⟨True.intro, ⟨⟨fun state hdoomed => ?_,
      fun state hstate => ?_⟩, True.intro⟩, True.intro⟩
    · obtain ⟨hleave, hlock⟩ := Bool.and_eq_true_iff.mp hdoomed
      refine Bool.and_eq_true_iff.mpr ⟨hleave, ?_⟩
      dsimp only
      rw [maintaining_maintained]
      split
      · rfl
      · exact hlock
    · dsimp only
      rw [maintaining_maintained, if_neg]
      intro hsame
      exact hstate (hsame ▸ rfl)

theorem handling (message : MessageId) :
    Handling (discipline services) message (fun _ => True) (fun _ => True) fun _ => True where
  tameBefore := tamely fun _ hsame => by cases hsame
  tameAfter := tamely fun _ hsame => by cases hsame
  weaken _ _ := True.intro
  stores roomId member := by
    refine Discipline.Triple.call (fun _ _ _ _ _ _ => True.intro)
      (fun view _ _ choice answer state hserve => ?_) fun _ _ _ _ _ _ _ => True.intro
    have hpeers := (setMember_spec services.policy hserve).1
    have hmild : Mild view { view with state := state } := by
      refine ⟨fun place hleave => ?_, fun _ => rfl⟩
      dsimp only
      rw [hpeers]
      exact hleave
    exact ⟨hmild.allows services _, True.intro⟩
  finds roomId connectionId := by
    have hrequest : ¬(Request.getMember roomId connectionId).Stores := id
    have htamely : Tamely (discipline services) (.message message) fun _ => True :=
      tamely fun _ hsame => by cases hsame
    exact .consequence (htamely.call hrequest) (fun _ _ _ => True.intro) fun _ _ _ _ =>
      ⟨fun _ _ => True.intro, True.intro⟩
  stale writer _ := by
    refine (Steadfast.trivial _).mark (fun _ hsame => ?_) fun _ hsame => ?_
    · cases hsame
    · cases hsame

theorem message_spec (message : MessageId) (kind : PresenceMessageKind)
    (envelope : PresenceEnvelope) :
    (discipline services).Maintains (.message message) (fun _ => True)
      (processMessage services message kind envelope) := by
  have hsteadfast : Steadfast services (.message message) (Maintaining message.state) :=
    Maintaining.steadfast rfl
  refine processMessage_spec fanoutSteady (tamely fun _ hsame => by cases hsame)
    (hsteadfast.tamely fun _ hsame => by cases hsame) ?_ (maintain_spec message) kind envelope
    ((handling message).dispatch fanoutSteady kind envelope ?_) fun _ _ _ => True.intro
  · refine Discipline.Triple.mark fun view hview _ _ => ⟨True.intro, ⟨⟨fun state hdoomed => ?_,
      fun state hstate => ?_⟩, True.intro⟩, ?_⟩
    · obtain ⟨hleave, hlock⟩ := Bool.and_eq_true_iff.mp hdoomed
      refine Bool.and_eq_true_iff.mpr ⟨hleave, ?_⟩
      dsimp only
      rw [maintaining_rearms, if_neg]
      · exact hlock
      · intro hsame
        rw [hsame, hleave] at hview
        cases hview.1
    · dsimp only
      rw [maintaining_rearms, if_neg]
      intro hsame
      exact hstate (hsame ▸ rfl)
    · unfold Maintaining
      dsimp only
      rw [maintaining_rearms, if_pos rfl]
  · refine (Steadfast.trivial _).mark (fun _ hsame => ?_) fun _ hsame => ?_
    · cases hsame
    · cases hsame

theorem authenticate_spec (message : MessageId) (envelope : PresenceEnvelope) :
    (discipline services).Maintains (.authenticate message) (fun _ => True)
      (authenticate services message envelope) := by
  refine (tamely fun _ hsame => by cases hsame).authenticate fanoutSteady message envelope ?_
  refine (Steadfast.trivial _).mark (fun _ hsame => ?_) fun _ hsame => ?_
  · cases hsame
  · cases hsame

theorem detach_spec (state : PeerRef) (endReason : PresenceSessionEndReason) :
    (discipline services).Maintains .call (fun _ => True)
      (Async.detach (.reset state) (resetState services state true endReason)) := by
  refine Discipline.Triple.detach (fun _ _ _ _ _ _ => True.intro)
    (Steadfast.leaving_body (reset_spec state endReason)) fun view _ _ => ?_
  exact ⟨(Mild.push view _ _).allows services .call, True.intro, True.intro⟩

theorem calling : Calling (discipline services) (fun _ _ => True) fun _ _ => True := by
  have hcall : Steadfast services .call fun _ => True := Steadfast.trivial .call
  have hwaits : ∀ {other : Job}, other ≠ .call → ∀ view : RoomView, True → Waits .call other view :=
    fun hother _ _ => hother
  have htamely : Tamely (discipline services) .call fun _ => True :=
    tamely fun _ hsame => by cases hsame
  refine ⟨htamely.calmly, fun message view state _ _ hcalm => ?_,
    fun message => hcall.mark ?_ ?_,
    fun message kind envelope => hcall.enqueue (message_spec message kind envelope) (hwaits ?_),
    fun message envelope => hcall.enqueue (authenticate_spec message envelope) (hwaits ?_),
    fun state resumed => hcall.enqueue ?_ (hwaits ?_),
    fun _ _ _ => True.intro, fun _ => htamely.routinely,
    fun state endReason => hcall.enqueue (reset_spec state endReason) (hwaits ?_),
    detach_spec, fun recipients frame => hcall.all ?_ ?_,
    fun states code reason endReason => .weaken (hcall.all ?_ ?_) fun _ _ _ => True.intro,
    fun room time => hcall.enqueue (sweep_spec _ _ _ _) (hwaits ?_)⟩
  case refine_2 | refine_3 =>
    intro state hsame
    cases hsame
  case refine_4 | refine_5 | refine_7 | refine_8 | refine_13 =>
    intro hsame
    cases hsame
  · have hmild : Mild view { view with state := state } := ⟨hcalm.leaveRequested, fun _ => rfl⟩
    exact ⟨hmild.allows services .call, True.intro⟩
  · exact (tamely fun _ hsame => by cases hsame).resumeSession fanoutSteady state resumed
  · intro made hmade
    obtain ⟨state, -, rfl⟩ := List.mem_map.mp hmade
    exact sending_spec state.peer frame
  · intro made hmade
    obtain ⟨state, -, rfl⟩ := List.mem_map.mp hmade
    exact fun view _ hsame => by cases hsame
  · intro made hmade
    obtain ⟨state, -, rfl⟩ := List.mem_map.mp hmade
    exact closing_spec code reason endReason state
  · intro made hmade
    obtain ⟨state, -, rfl⟩ := List.mem_map.mp hmade
    exact fun view _ hsame => by cases hsame

theorem enters : (discipline services).Enters := calling.enters fanoutSteady

theorem sound_start : (discipline services).Sound start :=
  Discipline.sound_of_idle rfl True.intro fun _ => True.intro

end Jobs

theorem SweepsSpare.earlier {before trace : List Mark} (hinit : before <+: trace)
    (h : SweepsSpare trace) : SweepsSpare before :=
  fun earlier mark hmark => h earlier mark (hmark.trans hinit)

/-- Where no sweep of a run lists a peer whose message has re-armed its heartbeat and is not back
from the maintenance lock, no task waits for itself, and every call ends if all that it waits for is
answered. -/
theorem queues_never_deadlock (services : PresenceServices) :
    (∀ actions after, World.run (system services) start actions = some after →
      SweepsSpare after.trace →
      ∀ task, ¬TransGen (World.WaitsFor (system services) after) task task) ∧
    ∀ world action, World.FairRun (system services) world action → world 0 = start →
      (∀ time, SweepsSpare (world time).trace) → ∀ time, ∀ task ∈ (world time).tasks,
        ∃ later ≥ time, World.Gone (world later) task.ticket := by
  have hordered : start.Ordered := ⟨List.Pairwise.nil, fun task htask => by cases htask⟩
  constructor
  · intro actions after hrun hspare
    obtain ⟨hmeets, -⟩ := World.runMeets_of_trace actions hrun hspare
    obtain ⟨hsound, -⟩ := Discipline.Sound.run enters actions sound_start hmeets hrun
    exact Discipline.no_cycle (ranked services) hsound (hordered.run actions hrun)
  · intro world action hrun hstart hspare time task htask
    refine Discipline.ends (ranked services) (hstart ▸ sound_start) (hstart ▸ hordered) enters hrun
      (fun time => ?_) _ time task htask (Nat.lt_succ_self _)
    exact (World.meets_of_trace (hspare (time + 1)) (hrun.step time) List.prefix_rfl).1

section Samples

/-- A heartbeat of an admitted peer comes back from the maintenance lock. -/
def sampleMaintains : List RoomAction :=
  sampleJoins.take 17 ++ [.invoke (.receive 0 0 (sampleMessage "h" 0))] ++ answered 0 none ++
    [.resume 1, .resume 1] ++ answered 1 none ++ [.resume 2, .resume 2] ++ answered 2 none ++
    [.resume 1, .serve 1 (sampleChoice none)] ++ answered 1 none ++ answered 1 none ++ [.resume 0]

/-- The snapshot of its heartbeat is stored for longer than the heartbeat lasts. -/
def sampleStuck : List RoomAction :=
  sampleJoins.take 17 ++ [.invoke (.receive 0 0 (sampleMessage "h" 0))] ++ answered 0 none ++
    [.resume 1, .resume 1, .invoke (.elapse 1000), .invoke (.sweep 0 none), .resume 3] ++
    answered 4 none ++ answered 1 none

theorem queues_deadlock : ∃ actions after,
    World.run (system (sampleServices .onMessage)) start actions = some after ∧
      (∃ task, TransGen (World.WaitsFor (system (sampleServices .onMessage)) after) task task) ∧
      ¬∃ task ∈ after.tasks, World.Ready (system (sampleServices .onMessage)) after task.ticket := by
  have hruns : (World.run (system (sampleServices .onMessage)) start sampleStuck).map (fun after =>
      (List.range after.tasks.length).map
        (World.readyAt (system (sampleServices .onMessage)) after)) =
      some [false, false, false, false, false, false, false] := by decide +kernel
  obtain ⟨after, hrun, hready⟩ := Option.map_eq_some_iff.mp hruns
  have hsome : after.tasks ≠ [] := by
    intro hempty
    rw [hempty] at hready
    cases hready
  have hstuck : ¬∃ task ∈ after.tasks,
      World.Ready (system (sampleServices .onMessage)) after task.ticket := by
    intro hgoes
    obtain ⟨task, -, place, found, hfound, -, hplace⟩ := hgoes
    have hmem : true ∈ (List.range after.tasks.length).map
        (World.readyAt (system (sampleServices .onMessage)) after) :=
      List.mem_map.mpr ⟨place, List.mem_range.mpr (List.getElem?_eq_some_iff.mp hfound).1, hplace⟩
    rw [hready] at hmem
    revert hmem
    decide
  exact ⟨sampleStuck, after, hrun, World.exists_cycle hsome hstuck, hstuck⟩

def listsNone (trace : List Mark) : Bool :=
  trace.all fun
    | .lists _ expired => expired.isEmpty
    | _ => true

theorem sweepsSpare_of_listsNone {trace : List Mark} (h : listsNone trace = true) :
    SweepsSpare trace := by
  intro before mark hmark
  cases mark with
  | lists room expired =>
    intro state hstate
    have hmem : .lists room expired ∈ trace :=
      hmark.subset (List.mem_append_right _ List.mem_cons_self)
    have hnone : expired.isEmpty = true := List.all_eq_true.mp h _ hmem
    rw [List.isEmpty_iff.mp hnone] at hstate
    cases hstate
  | _ => exact True.intro

theorem queues_never_deadlock_maintains :
    (∃ after, World.run (system (sampleServices .onMessage)) start (sampleMaintains.take 24) =
        some after ∧ after.tasks ≠ [] ∧
      ∀ task, ¬TransGen (World.WaitsFor (system (sampleServices .onMessage)) after) task task) ∧
    ∃ world action, World.FairRun (system (sampleServices .onMessage)) world action ∧
      world 0 = start ∧ ∃ time, (world time).tasks ≠ [] ∧ ∀ task ∈ (world time).tasks,
        ∃ later ≥ time, World.Gone (world later) task.ticket := by
  have hnever := queues_never_deadlock (sampleServices .onMessage)
  constructor
  · have hruns : (World.run (system (sampleServices .onMessage)) start (sampleMaintains.take 24)).map
        (fun after => (after.tasks.isEmpty, listsNone after.trace)) = some (false, true) := by
      decide +kernel
    obtain ⟨after, hrun, hafter⟩ := Option.map_eq_some_iff.mp hruns
    obtain ⟨htasks, hlists⟩ := Prod.mk.inj hafter
    refine ⟨after, hrun, List.isEmpty_eq_false_iff.mp htasks, ?_⟩
    exact hnever.1 _ after hrun (sweepsSpare_of_listsNone hlists)
  · have hruns : (World.run (system (sampleServices .onMessage)) start sampleMaintains).map
        (fun after => (after.tasks.isEmpty, listsNone after.trace)) = some (true, true) := by
      decide +kernel
    have hbusy : (World.follow (system (sampleServices .onMessage)) (.invoke (.elapse 0))
        sampleMaintains start 24).tasks.isEmpty = false := by decide +kernel
    obtain ⟨after, hrun, hafter⟩ := Option.map_eq_some_iff.mp hruns
    obtain ⟨htasks, hlists⟩ := Prod.mk.inj hafter
    have hempty : after.tasks = [] := List.isEmpty_iff.mp htasks
    have hidle : ∀ world : RoomWorld, world.tasks = [] → ∃ after,
        World.step (system (sampleServices .onMessage)) world (.invoke (.elapse 0)) = some after ∧
          after.tasks = [] ∧ after.trace = world.trace := by
      intro world hworld
      refine ⟨_, rfl, ?_, rfl⟩
      change (world.tasks ++ [_]).eraseIdx world.tasks.length = []
      rw [hworld]
      rfl
    have hfair := World.fairRun_follow hidle hrun hempty
    refine ⟨_, _, hfair, rfl, 24, List.isEmpty_eq_false_iff.mp hbusy, ?_⟩
    refine hnever.2 _ _ hfair rfl (fun time => ?_) 24
    refine (sweepsSpare_of_listsNone hlists).earlier ?_
    exact (World.follow_step hidle time sampleMaintains start after hrun hempty rfl).2.1

end Samples

end Softmaple.Presence.LockProgress
