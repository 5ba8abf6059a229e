import Softmaple.Lib.AsyncTriple
import Softmaple.Presence.PresenceRoom

/-!
The parts of the room's methods that neither admit nor remove a peer: what they
change is `Routine`. They are verified once, for every discipline and every
assertion that routine changes keep.
-/
namespace Softmaple.Presence

open Json AsyncTasks
open CollabHost (PresenceIdentity)

structure PeerState.Routine (peer after : PeerState) : Prop where
  connectionId : after.connectionId = peer.connectionId
  joined : after.joined = peer.joined
  leaveRequested : after.leaveRequested = peer.leaveRequested
  phase : after.phase = peer.phase ∨ after.phase ≠ .connected

structure State.Routine (state after : State) : Prop where
  now : after.now = state.now
  members : after.members = state.members
  lapsing : after.lapsing = state.lapsing
  closed : ∀ room, (after.rooms room).closed = (state.rooms room).closed
  peers : ∀ place, (state.peers place).Routine (after.peers place)

structure State.Calm (state after : State) : Prop where
  now : state.now ≤ after.now
  members : after.members = state.members
  lapsing : after.lapsing = state.lapsing
  closed : ∀ room, (state.rooms room).closed = true → (after.rooms room).closed = true
  connectionId : ∀ place, (after.peers place).connectionId = (state.peers place).connectionId
  joined : ∀ place, (after.peers place).joined = true → (state.peers place).joined = true
  leaveRequested : ∀ place, (state.peers place).leaveRequested = true →
    (after.peers place).leaveRequested = true

structure PeerState.Calm (peer after : PeerState) : Prop where
  connectionId : after.connectionId = peer.connectionId
  joined : after.joined = true → peer.joined = true
  leaveRequested : peer.leaveRequested = true → after.leaveRequested = true

namespace State

theorem Calm.refl (state : State) : state.Calm state :=
  ⟨Nat.le_refl _, rfl, rfl, fun _ h => h, fun _ => rfl, fun _ h => h, fun _ h => h⟩

theorem Calm.trans {first second third : State} (h : first.Calm second) (hnext : second.Calm third) :
    first.Calm third where
  now := Nat.le_trans h.now hnext.now
  members := hnext.members.trans h.members
  lapsing := hnext.lapsing.trans h.lapsing
  closed room hroom := hnext.closed room (h.closed room hroom)
  connectionId place := (hnext.connectionId place).trans (h.connectionId place)
  joined place hplace := h.joined place (hnext.joined place hplace)
  leaveRequested place hplace := hnext.leaveRequested place (h.leaveRequested place hplace)

theorem Routine.calm {state after : State} (h : state.Routine after) : state.Calm after where
  now := Nat.le_of_eq h.now.symm
  members := h.members
  lapsing := h.lapsing
  closed room hroom := (h.closed room).trans hroom
  connectionId place := (h.peers place).connectionId
  joined place hplace := (h.peers place).joined ▸ hplace
  leaveRequested place hplace := (h.peers place).leaveRequested.trans hplace

theorem Calm.setPeer (state : State) (place : PeerRef) {update : PeerState → PeerState}
    (h : ∀ peer : PeerState, peer.Calm (update peer)) : state.Calm (state.setPeer place update) := by
  have hpeers : ∀ other, (state.peers other).Calm ((state.setPeer place update).peers other) := by
    intro other
    dsimp only [State.setPeer]
    split
    · next heq =>
        rw [heq]
        exact h _
    · exact ⟨rfl, fun h => h, fun h => h⟩
  exact ⟨Nat.le_refl _, rfl, rfl, fun _ h => h, fun other => (hpeers other).connectionId,
    fun other => (hpeers other).joined, fun other => (hpeers other).leaveRequested⟩

theorem Calm.requestLeaves (places : List PeerRef) : ∀ state : State,
    state.Calm (state.requestLeaves places) := by
  induction places with
  | nil => exact Calm.refl
  | cons first places ih =>
    have hasked : ∀ peer : PeerState,
        peer.Calm { peer with leaveRequested := true, heartbeatTimer := none } :=
      fun _ => ⟨rfl, fun h => h, fun _ => rfl⟩
    exact fun state => (Calm.setPeer state first hasked).trans (ih _)

theorem leaveRequested_requestLeaves (places : List PeerRef) : ∀ state : State, ∀ place ∈ places,
    ((state.requestLeaves places).peers place).leaveRequested = true := by
  induction places with
  | nil =>
    intro state place hplace
    cases hplace
  | cons first places ih =>
    intro state place hplace
    cases List.mem_cons.mp hplace with
    | inl heq =>
      rw [heq]
      refine (Calm.requestLeaves places _).leaveRequested first ?_
      dsimp only [State.setPeer]
      rw [if_pos rfl]
    | inr hmem => exact ih _ place hmem

theorem Routine.setPeer (state : State) (place : PeerRef) {update : PeerState → PeerState}
    (h : ∀ peer : PeerState, peer.Routine (update peer)) : state.Routine (state.setPeer place update) := by
  refine ⟨rfl, rfl, rfl, fun _ => rfl, fun other => ?_⟩
  dsimp only [State.setPeer]
  split
  · next heq =>
      rw [heq]
      exact h _
  · exact ⟨rfl, rfl, rfl, .inl rfl⟩

theorem Routine.setRoom (state : State) (room : Nat) {update : RoomState → RoomState}
    (h : ∀ current, (update current).closed = current.closed) :
    state.Routine (state.setRoom room update) := by
  refine ⟨rfl, rfl, rfl, fun other => ?_, fun _ => ⟨rfl, rfl, rfl, .inl rfl⟩⟩
  dsimp only [State.setRoom]
  split
  · next heq =>
      rw [heq]
      exact h _
  · rfl

end State

section Routines

variable {services : PresenceServices} (discipline : Discipline (system services))

structure Steady (job : Job) (assertion : RoomView → Prop) : Prop where
  stable : discipline.Stable job assertion
  routine : ∀ view state, assertion view → discipline.inv view → view.state.Routine state →
    discipline.Allows job view { view with state := state } ∧ assertion { view with state := state }
  sends : ∀ peer frame view, assertion view → discipline.inv view →
    discipline.ensures (.sends peer frame) view ∧
      discipline.Allows job view { view with trace := view.trace ++ [.sends peer frame] } ∧
      assertion { view with trace := view.trace ++ [.sends peer frame] }

structure FanoutSteady : Prop where
  steady : ∀ room, Steady discipline (.fanout room) fun _ => True
  leaves : ∀ room view, discipline.inv view → discipline.Leaves (.fanout room) view

structure Routinely (job : Job) (assertion : RoomView → Prop) : Prop extends
    Steady discipline job assertion where
  fanout : ∀ room view, assertion view → discipline.inv view →
    discipline.Allows job view (view.push (some (.fanout room)) (.fanout room)) ∧
      discipline.waits job (.fanout room) (view.push (some (.fanout room)) (.fanout room)) ∧
      assertion (view.push (some (.fanout room)) (.fanout room))

structure Calmly (job : Job) (assertion : RoomView → Prop) : Prop extends
    Routinely discipline job assertion where
  calm : ∀ view state, assertion view → discipline.inv view → view.state.Calm state →
    discipline.Allows job view { view with state := state } ∧ assertion { view with state := state }
  received : ∀ message view, assertion view → discipline.inv view →
    discipline.ensures (.received message) view ∧
      discipline.Allows job view { view with trace := view.trace ++ [.received message] } ∧
      assertion { view with trace := view.trace ++ [.received message] }

variable {discipline} {job : Job} {assertion : RoomView → Prop}

section Reads

theorem maintains_getPeer (state : PeerRef) : discipline.Maintains job assertion (getPeer state) :=
  .bind .get fun _ => .pure

theorem getPeer_spec (state : PeerRef) :
    discipline.Triple job assertion (getPeer state) fun peer view =>
      view.state.peers state = peer ∧ assertion view := by
  refine .bind .get fun all => .pure fun view hview _ => ⟨?_, hview.2⟩
  rw [hview.1]

theorem maintains_getRoom (room : Nat) : discipline.Maintains job assertion (getRoom room) :=
  .bind .get fun _ => .pure

theorem getRoom_spec (room : Nat) :
    discipline.Triple job assertion (getRoom room) fun current view =>
      view.state.rooms room = current ∧ assertion view := by
  refine .bind .get fun all => .pure fun view hview _ => ⟨?_, hview.2⟩
  rw [hview.1]

theorem maintains_now : discipline.Maintains job assertion now := .bind .get fun _ => .pure

theorem maintains_isPeerLive (state : PeerRef) :
    discipline.Maintains job assertion (isPeerLive state) :=
  .bind (maintains_getPeer state) fun _ => .pure

theorem maintains_isStopped (state : PeerRef) :
    discipline.Maintains job assertion (isStopped state) :=
  .bind (maintains_getRoom state.room) fun _ => .bind (maintains_getPeer state) fun _ => .pure

theorem isPeerLive_spec (state : PeerRef) :
    discipline.Triple job assertion (isPeerLive state) fun live view =>
      (live = true → (view.state.peers state).leaveRequested = false) ∧ assertion view := by
  refine .bind (getPeer_spec state) fun peer => .pure fun view hview _ => ⟨fun hlive => ?_, hview.2⟩
  rw [hview.1]
  exact Bool.not_eq_true' _ ▸ (Bool.and_eq_true_iff.mp hlive).1

end Reads

namespace Steady

variable (h : Steady discipline job assertion)
include h

theorem setPeer {state : PeerRef} {update : PeerState → PeerState}
    (hupdate : ∀ peer : PeerState, peer.Routine (update peer)) :
    discipline.Maintains job assertion (setPeer state update) :=
  .modify fun view hview hinv =>
    h.routine view _ hview hinv (State.Routine.setPeer view.state state hupdate)

theorem setRoom {room : Nat} {update : RoomState → RoomState}
    (hupdate : ∀ current, (update current).closed = current.closed) :
    discipline.Maintains job assertion (setRoom room update) :=
  .modify fun view hview hinv =>
    h.routine view _ hview hinv (State.Routine.setRoom view.state room hupdate)

theorem yield : discipline.Maintains job assertion (Async.yield : RoomAsync Unit) :=
  Discipline.Triple.yield h.stable

theorem callOutside {request : Request} (hrequest : ∀ choice state,
      ∃ answer, serve services.policy request choice state = some (answer, state)) :
    discipline.Maintains job assertion (Async.call request : RoomAsync (Answer request)) := by
  refine .call h.stable fun choice state answer after hserve => ?_
  obtain ⟨given, hgiven⟩ := hrequest choice state
  cases hgiven.symm.trans hserve
  rfl

theorem clearHeartbeatTimer (state : PeerRef) :
    discipline.Maintains job assertion (clearHeartbeatTimer state) :=
  h.setPeer fun _ => ⟨rfl, rfl, rfl, .inl rfl⟩

theorem closePeer (state : PeerRef) (code : Nat) (reason : String) :
    discipline.Maintains job assertion (closePeer state code reason) :=
  .bind (h.callOutside fun choice _ => ⟨choice, rfl⟩) fun _ => .pure

theorem publish (frame : PresenceFrame) : discipline.Maintains job assertion (publish frame) :=
  h.callOutside fun choice _ => ⟨choice, rfl⟩

theorem acquire (roomId connectionId : Text) :
    discipline.Maintains job assertion (acquire roomId connectionId) :=
  h.callOutside fun choice _ => ⟨choice, rfl⟩

theorem authorize (roomId connectionId : Text) (credential : Json .value) (userId : Text) :
    discipline.Maintains job assertion (authorize roomId connectionId credential userId) :=
  h.callOutside fun choice _ => ⟨choice, rfl⟩

theorem refreshSession (credential : Json .value) (session : PresenceSession) :
    discipline.Maintains job assertion (refreshSession credential session) :=
  h.callOutside fun choice _ => ⟨choice, rfl⟩

theorem sendIgnoringFailure (state : PeerRef) (frame : PresenceFrame) :
    discipline.Maintains job assertion (sendIgnoringFailure state frame) := by
  refine .bind (Discipline.Triple.mark fun view hview hinv _ => ?_) fun _ => ?_
  · exact h.sends state.peer frame view hview hinv
  · exact .bind (h.callOutside fun choice _ => ⟨choice, rfl⟩) fun _ => .pure

theorem persistSnapshot (state : PeerRef) :
    discipline.Maintains job assertion (persistSnapshot services state) := by
  refine .bind (maintains_getPeer state) fun peer => ?_
  split
  · exact .bind (h.callOutside fun choice _ => ⟨choice, rfl⟩) fun _ => .pure
  · exact h.yield

theorem releaseLease (lease : Option Nat) :
    discipline.Maintains job assertion (releaseLease lease) := by
  cases lease with
  | some lease => exact .bind (h.callOutside fun choice _ => ⟨choice, rfl⟩) fun _ => .pure
  | none => exact .pure

theorem refreshLease (state : PeerRef) (otherwise : Bool) :
    discipline.Maintains job assertion (refreshLease state otherwise) := by
  refine .bind (maintains_getPeer state) fun peer => ?_
  split
  · exact h.callOutside fun choice _ => ⟨choice, rfl⟩
  · exact .pure

theorem endHook (session : PresenceSession) (endReason : PresenceSessionEndReason) :
    discipline.Maintains job assertion (endHook services session endReason) := by
  unfold Presence.endHook
  split
  · exact .bind (h.callOutside fun choice _ => ⟨choice, rfl⟩) fun _ => .pure
  · exact .pure

theorem rearmHeartbeatTimer (state : PeerRef) :
    discipline.Maintains job assertion (rearmHeartbeatTimer state) :=
  .bind maintains_now fun _ => h.setPeer fun _ => ⟨rfl, rfl, rfl, .inl rfl⟩

theorem rearmHeartbeat (state : PeerRef) :
    discipline.Maintains job assertion (rearmHeartbeat services state) := by
  refine .bind maintains_now fun time => ?_
  refine .bind (h.setPeer fun _ => ⟨rfl, rfl, rfl, .inl rfl⟩) fun _ => ?_
  refine .bind (h.persistSnapshot state) fun _ => ?_
  split
  · exact h.rearmHeartbeatTimer state
  · exact .pure

section Fanout

theorem unsubscribeFanout (subscription : Nat) :
    discipline.Maintains job assertion (unsubscribeFanout subscription) :=
  h.callOutside fun choice _ => ⟨choice, rfl⟩

theorem forgetSubscription (room subscription : Nat) :
    discipline.Maintains job assertion (forgetSubscription room subscription) := by
  refine h.setRoom fun current => ?_
  split <;> rfl

theorem countRetainer (state : PeerRef) :
    discipline.Maintains job assertion (countRetainer state) :=
  .bind (h.setRoom fun _ => rfl) fun _ => h.setPeer fun _ => ⟨rfl, rfl, rfl, .inl rfl⟩

theorem subscribeFanout (state : PeerRef) :
    discipline.Maintains job assertion (subscribeFanout services state) := by
  refine .bind (h.callOutside fun choice _ => ⟨choice, rfl⟩) fun subscription => ?_
  split
  · exact .bind (h.setRoom fun _ => rfl) fun _ => h.countRetainer state
  · exact .pure

end Fanout

end Steady

namespace Routinely

variable (hfanout : FanoutSteady discipline) (h : Routinely discipline job assertion)
include hfanout h

theorem withFanoutLock (room : Nat) {work : RoomAsync Unit}
    (hwork : discipline.Maintains (.fanout room) (fun _ => True) work) :
    discipline.Maintains job assertion (withFanoutLock room work) := by
  have hlasting : Discipline.Triple.Lasting discipline fun _ => True := fun _ _ _ _ _ _ => trivial
  refine Discipline.Triple.perform hlasting ?_ (fun view hview hinv => ?_) h.stable
  · exact .consequence hwork (fun _ _ _ => trivial) fun _ view _ hinv => hfanout.leaves room view hinv
  · obtain ⟨hallows, hwaits, hafter⟩ := h.fanout room view hview hinv
    exact ⟨hallows, trivial, hwaits, hafter⟩

theorem retainFanout (state : PeerRef) :
    discipline.Maintains job assertion (retainFanout services state) := by
  have hsteady := hfanout.steady state.room
  refine .bind (h.withFanoutLock hfanout state.room ?_) fun _ => .bind (maintains_getPeer state) fun _ => .pure
  refine .bind (maintains_getRoom state.room) fun current => ?_
  split
  · split
    · refine .bind (hsteady.unsubscribeFanout _) fun ended => ?_
      split
      · exact .bind (hsteady.forgetSubscription _ _) fun _ => hsteady.subscribeFanout state
      · exact .pure
    · exact hsteady.subscribeFanout state
  · exact hsteady.countRetainer state

theorem releaseFanout (state : PeerRef) :
    discipline.Maintains job assertion (releaseFanout state) := by
  have hsteady := hfanout.steady state.room
  refine .bind (maintains_getPeer state) fun peer => ?_
  split
  · refine .bind (h.setPeer fun _ => ⟨rfl, rfl, rfl, .inl rfl⟩) fun _ => ?_
    refine h.withFanoutLock hfanout state.room ?_
    refine .bind (hsteady.setRoom fun _ => rfl) fun _ => .bind (maintains_getRoom state.room) fun current => ?_
    split
    · split
      · refine .bind (hsteady.unsubscribeFanout _) fun ended => ?_
        split
        · exact hsteady.forgetSubscription _ _
        · exact .pure
      · exact .pure
    · exact .pure
  · exact h.yield

theorem closeFanout (room : Nat) : discipline.Maintains job assertion (closeFanout room) := by
  have hsteady := hfanout.steady room
  refine h.withFanoutLock hfanout room ?_
  refine .bind (maintains_getRoom room) fun current => .bind (hsteady.setRoom fun _ => rfl) fun _ => ?_
  split
  · refine .bind (hsteady.unsubscribeFanout _) fun ended => ?_
    split
    · exact hsteady.setRoom fun _ => rfl
    · exact .pure
  · exact .pure

end Routinely

namespace Calmly

variable (h : Calmly discipline job assertion)
include h

theorem modify {update : State → State} (hupdate : ∀ state : State, state.Calm (update state)) :
    discipline.Maintains job assertion (Async.modify update : RoomAsync Unit) :=
  .modify fun view hview hinv => h.calm view _ hview hinv (hupdate view.state)

theorem setPeer {state : PeerRef} {update : PeerState → PeerState}
    (hupdate : ∀ peer : PeerState, peer.Calm (update peer)) :
    discipline.Maintains job assertion (Presence.setPeer state update) :=
  h.modify fun all => State.Calm.setPeer all state hupdate

theorem requestLeave (state : PeerRef) : discipline.Maintains job assertion (requestLeave state) :=
  h.setPeer fun _ => ⟨rfl, fun h => h, fun _ => rfl⟩

theorem requestLeaves (states : List PeerRef) : discipline.Maintains job assertion
      (requestLeaves states) :=
  h.modify (State.Calm.requestLeaves states)

end Calmly

end Routines

end Softmaple.Presence
