import Softmaple.Presence.RoomWork

/-!
The calls of the room, for every discipline: what is left to it are the jobs
that the calls start, and what holds of a peer that was asked to leave.
-/
namespace Softmaple.Presence

open Json AsyncTasks
open CollabHost (PresenceIdentity)

variable {services : PresenceServices}

/-- What the calls need of a discipline. `numbered` holds of a message from its mark until it is
put in the peer's queue, `asked` of a peer that was asked to leave. -/
structure Calling (discipline : Discipline (system services))
    (numbered : MessageId → RoomView → Prop) (asked : PeerRef → RoomView → Prop) : Prop where
  calmly : Calmly discipline .call fun _ => True
  calm : ∀ message view state, numbered message view → discipline.inv view → view.state.Calm state →
    discipline.Allows .call view { view with state := state } ∧
      numbered message { view with state := state }
  persisted : ∀ message, discipline.Triple .call (fun _ => True)
    (Async.mark (.persisted message) : RoomAsync Unit) fun _ => numbered message
  message : ∀ message kind envelope, discipline.Triple .call (numbered message)
    (enqueue (.message message) (processMessage services message kind envelope)) fun _ _ => True
  authenticate : ∀ message envelope, discipline.Triple .call (numbered message)
    (enqueue (.authenticate message) (authenticate services message envelope)) fun _ _ => True
  resume : ∀ state resumed, discipline.Maintains .call (fun _ => True)
    (enqueue (.resume state) (resumeSession services state resumed))
  asks : ∀ (view : RoomView) state, (view.state.peers state).leaveRequested = true → asked state view
  stays : ∀ state, Routinely discipline .call (asked state)
  reset : ∀ state endReason, discipline.Triple .call (asked state)
    (enqueue (.reset state) (resetState services state true endReason)) fun _ _ => True
  detached : ∀ state endReason, discipline.Triple .call (asked state)
    (Async.detach (.reset state) (resetState services state true endReason)) fun _ _ => True
  sends : ∀ (recipients : List PeerRef) (frame : PresenceFrame),
    discipline.Maintains .call (fun _ => True)
      (Async.all (recipients.map fun state =>
        (.sending, do let _ ← Async.call (.send state.peer frame))))
  closes : ∀ (states : List PeerRef) code reason endReason,
    discipline.Triple .call (fun view => ∀ state ∈ states, asked state view)
      (Async.all (states.map (closing services code reason endReason))) fun _ _ => True
  sweep : ∀ room time, discipline.Maintains .call (fun _ => True)
    (withMessageMaintenanceLock room none (sweepLocked services room time none))

namespace Calling

variable {discipline : Discipline (system services)} {numbered : MessageId → RoomView → Prop}
  {asked : PeerRef → RoomView → Prop} (hfanout : FanoutSteady discipline)
  (h : Calling discipline numbered asked)
include h

omit h in
theorem forgets {β : Type} {message : MessageId} {function : RoomAsync β}
    (hfunction : discipline.Maintains .call (fun _ => True) function) :
    discipline.Triple .call (numbered message) function fun _ _ => True :=
  .weaken hfunction fun _ _ _ => trivial

theorem setPeer {message : MessageId} {state : PeerRef} {update : PeerState → PeerState}
    (hupdate : ∀ peer : PeerState, peer.Calm (update peer)) :
    discipline.Maintains .call (numbered message) (setPeer state update) :=
  .modify fun view hview hinv =>
    h.calm message view _ hview hinv (State.Calm.setPeer view.state state hupdate)

theorem requestLeave (state : PeerRef) :
    discipline.Triple .call (fun _ => True) (requestLeave state) fun _ => asked state := by
  refine .modify fun view _ hinv => ?_
  have hcalm : ∀ peer : PeerState, peer.Calm { peer with leaveRequested := true } :=
    fun _ => ⟨rfl, fun h => h, fun _ => rfl⟩
  refine ⟨(h.calmly.calm view _ trivial hinv (State.Calm.setPeer view.state state hcalm)).1, ?_⟩
  refine h.asks _ state ?_
  dsimp only [State.setPeer]
  rw [if_pos rfl]

theorem requestLeaves (states : List PeerRef) :
    discipline.Triple .call (fun _ => True) (requestLeaves states)
      fun _ view => ∀ state ∈ states, asked state view := by
  refine .modify fun view _ hinv => ?_
  refine ⟨(h.calmly.calm view _ trivial hinv (State.Calm.requestLeaves states view.state)).1, ?_⟩
  exact fun state hstate =>
    h.asks _ state (State.leaveRequested_requestLeaves states view.state state hstate)

theorem closeAndEnqueueReset (state : PeerRef) (code : Nat) (reason : String) :
    discipline.Maintains .call (fun _ => True) (closeAndEnqueueReset services state code reason) :=
  Discipline.Triple.bind (h.requestLeave state) fun _ =>
    .bind ((h.stays state).closePeer state code reason) fun _ => h.reset state _

theorem join (room peer : Nat) :
    discipline.Maintains .call (fun _ => True) (join room peer) := by
  refine .bind .get fun all => ?_
  split
  · exact .bind (h.calmly.callOutside fun choice _ => ⟨choice, rfl⟩) fun _ => .pure
  · split
    · refine h.calmly.modify fun all => ⟨Nat.le_refl _, rfl, rfl, fun other hother => ?_, fun _ => rfl,
        fun _ h => h, fun _ h => h⟩
      dsimp only [State.setRoom]
      split
      · next heq => exact heq ▸ hother
      · exact hother
    · exact .pure

theorem resumes (room peer : Nat) (resumed : PresenceRoomResumeState) :
    discipline.Maintains .call (fun _ => True) (Presence.resume services room peer resumed) := by
  refine .bind (h.join room peer) fun _ => .bind h.calmly.yield fun _ => .bind .get fun all => ?_
  split
  · split
    · exact .bind (h.calmly.setPeer fun _ => ⟨rfl, fun h => h, fun h => h⟩) fun _ => h.resume _ resumed
    · exact h.closeAndEnqueueReset _ _ _
  · exact .pure

theorem receiveAuth (message : MessageId) (envelope : PresenceEnvelope) :
    discipline.Triple .call (numbered message) (receiveAuth services message envelope)
      fun _ _ => True := by
  refine .bind (maintains_getPeer message.state) fun peer => ?_
  split
  · refine forgets (Discipline.Triple.bind (h.requestLeave message.state) fun _ => ?_)
    exact .bind ((h.stays message.state).closePeer _ _ _) fun _ => h.detached _ _
  · refine .bind (h.setPeer fun _ => ⟨rfl, fun h => h, fun h => h⟩) fun _ => ?_
    exact h.authenticate message envelope

theorem receiveEnvelope (message : MessageId) (envelope : PresenceEnvelope) :
    discipline.Triple .call (numbered message) (receiveEnvelope services message envelope)
      fun _ _ => True := by
  unfold Presence.receiveEnvelope
  split
  · exact forgets (h.closeAndEnqueueReset _ _ _)
  · exact h.receiveAuth message envelope
  · refine .bind (maintains_getPeer message.state) fun peer => ?_
    split
    · exact h.message message _ envelope
    · exact forgets (h.closeAndEnqueueReset _ _ _)

theorem receivePersisted (message : MessageId) (allowed : Bool) (rawMessage : Text) :
    discipline.Triple .call (numbered message)
      (receivePersisted services message allowed rawMessage) fun _ _ => True := by
  unfold Presence.receivePersisted
  split
  · exact forgets (h.closeAndEnqueueReset _ _ _)
  · split
    · exact forgets (h.calmly.sendIgnoringFailure _ _)
    · split
      · exact forgets (h.closeAndEnqueueReset _ _ _)
      · exact h.receiveEnvelope message _

theorem receive (room peer : Nat) (rawMessage : Text) :
    discipline.Maintains .call (fun _ => True) (receive services room peer rawMessage) := by
  refine .bind .get fun all => ?_
  split
  · dsimp only
    split
    · exact .pure
    · split
      · exact h.closeAndEnqueueReset _ _ _
      · next state closed hlookup hlive allowed rateLimit hquota =>
        refine .bind (h.calmly.setPeer fun _ => ⟨rfl, fun h => h, fun h => h⟩) fun _ => ?_
        refine .bind (Discipline.Triple.mark fun view hview hinv _ => ?_) fun _ => ?_
        · exact h.calmly.received _ view hview hinv
        · refine .bind (h.calmly.persistSnapshot _) fun _ => ?_
          exact Discipline.Triple.bind (h.persisted _) fun _ => h.receivePersisted _ _ rawMessage
  · exact .pure

theorem leave (room peer : Nat) (reason : RoomLeaveReason) :
    discipline.Maintains .call (fun _ => True) (leave services room peer reason) := by
  refine .bind .get fun all => ?_
  split
  · next state hlookup =>
      exact Discipline.Triple.bind (h.requestLeave state) fun _ =>
        .bind ((h.stays state).clearHeartbeatTimer state) fun _ => h.reset _ _
  · exact .pure

include hfanout in
theorem close (room : Nat) :
    discipline.Maintains .call (fun _ => True) (close services room) := by
  refine .bind .get fun all => ?_
  split
  · exact .pure
  · refine .bind (h.calmly.modify fun all => ⟨Nat.le_refl _, rfl, rfl, fun other hother => ?_,
      fun _ => rfl, fun _ h => h, fun _ h => h⟩) fun _ => ?_
    · dsimp only [State.setRoom]
      split
      · rfl
      · exact hother
    · refine Discipline.Triple.bind (h.requestLeaves _) fun _ => .bind (h.closes _ _ _ _) fun _ => ?_
      exact h.calmly.closeFanout hfanout room

theorem heartbeatTimer (state : PeerRef) :
    discipline.Maintains .call (fun _ => True) (heartbeatTimer services state) := by
  refine .bind maintains_now fun time => .bind (maintains_getPeer state) fun peer => ?_
  split
  · refine .bind (h.calmly.clearHeartbeatTimer state) fun _ => ?_
    split
    · exact h.closeAndEnqueueReset _ _ _
    · exact .pure
  · exact .pure

theorem broadcast (room : Nat) (frame : PresenceFrame) :
    discipline.Maintains .call (fun _ => True) (broadcast services room frame) := by
  unfold Presence.broadcast
  split
  · refine .bind .get fun all => ?_
    refine .bind (Discipline.Triple.forEach fun state _ =>
      Discipline.Triple.mark fun view hview hinv _ => ?_) fun _ => ?_
    · exact h.calmly.sends _ _ view hview hinv
    · exact h.sends _ frame
  · exact .pure

include hfanout in
/-- Every call of the room may be made at any time. -/
theorem enters : discipline.Enters := by
  intro entry
  refine ⟨rfl, fun view hinv => ?_⟩
  refine Discipline.Triple.enters rfl ?_ view hinv
  cases entry with
  | elapse duration =>
    exact h.calmly.modify fun all => ⟨Nat.le_add_right _ _, rfl, rfl, fun _ h => h, fun _ => rfl,
      fun _ h => h, fun _ h => h⟩
  | join room peer => exact h.join room peer
  | resume room peer resumed => exact h.resumes room peer resumed
  | receive room peer rawMessage => exact h.receive room peer rawMessage
  | leave room peer reason => exact h.leave room peer reason
  | close room => exact h.close hfanout room
  | sweep room time => exact .bind maintains_now fun now => h.sweep room _
  | heartbeatTimer state => exact h.heartbeatTimer state
  | broadcast room frame => exact h.broadcast room frame

end Calling

end Softmaple.Presence
