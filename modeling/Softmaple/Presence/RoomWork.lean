import Softmaple.Presence.RoomRoutines

/-!
The work of the peer queues and the calls of the room, for the disciplines that
do not ask which peer has which connection ID. What such work changes is `Tame`.
-/
namespace Softmaple.Presence

open Json AsyncTasks
open CollabHost (PresenceIdentity)

structure State.Tame (state after : State) : Prop where
  leaveRequested : ∀ place, (state.peers place).leaveRequested = true →
    (after.peers place).leaveRequested = true
  members : ∀ roomId, ∀ stored ∈ after.members roomId,
    ∃ old ∈ state.members roomId, old.writer = stored.writer

namespace State

theorem Tame.refl (state : State) : state.Tame state :=
  ⟨fun _ h => h, fun _ stored hstored => ⟨stored, hstored, rfl⟩⟩

theorem Tame.trans {first second third : State} (h : first.Tame second) (hnext : second.Tame third) :
    first.Tame third := by
  refine ⟨fun place hplace => hnext.leaveRequested place (h.leaveRequested place hplace), ?_⟩
  intro roomId stored hstored
  obtain ⟨middle, hmiddle, hsame⟩ := hnext.members roomId stored hstored
  obtain ⟨old, hold, hwriter⟩ := h.members roomId middle hmiddle
  exact ⟨old, hold, hwriter.trans hsame⟩

theorem Calm.tame {state after : State} (h : state.Calm after) : state.Tame after :=
  ⟨h.leaveRequested, fun _ stored hstored => ⟨stored, h.members ▸ hstored, rfl⟩⟩

theorem Tame.setPeer (state : State) (place : PeerRef) {update : PeerState → PeerState}
    (h : ∀ peer : PeerState, peer.leaveRequested = true → (update peer).leaveRequested = true) :
    state.Tame (state.setPeer place update) := by
  refine ⟨fun other hother => ?_, (Tame.refl state).members⟩
  dsimp only [State.setPeer]
  split
  · next heq =>
      rw [heq] at hother
      exact h _ hother
  · exact hother

theorem Tame.setMembers (state : State) (roomId : Text) {members : List StoredMember}
    (h : ∀ stored ∈ members, ∃ old ∈ state.members roomId, old.writer = stored.writer) :
    state.Tame (state.setMembers roomId members) := by
  refine ⟨fun _ h => h, fun other stored hstored => ?_⟩
  dsimp only [State.setMembers] at hstored
  split at hstored
  · next heq =>
      rw [heq]
      exact h stored hstored
  · exact ⟨stored, hstored, rfl⟩

theorem Tame.drop (state : State) (roomId : Text) (drops : Text → Bool) :
    state.Tame (state.drop roomId drops) :=
  Tame.setMembers state roomId fun stored hstored => ⟨stored, (List.mem_filter.mp hstored).1, rfl⟩

theorem Tame.adopt (state : State) (roomId connectionId : Text) (owner : PeerRef) :
    state.Tame (state.adopt roomId connectionId owner) := by
  refine Tame.setMembers state roomId fun stored hstored => ?_
  obtain ⟨old, hold, hsame⟩ := List.mem_map.mp hstored
  refine ⟨old, hold, ?_⟩
  rw [← hsame]
  split <;> rfl

theorem Tame.storeCall {β : Type} (state : State) (roomId : Text) (choice : StoreChoice)
    {exec : State → β × State} (h : ∀ state : State, state.Tame (exec state).2) :
    state.Tame (state.storeCall roomId choice exec).2 := by
  have hexec : state.Tame (exec (state.drop roomId choice.drops)).2 :=
    (Tame.drop state roomId choice.drops).trans (h _)
  unfold State.storeCall
  dsimp only
  split
  · dsimp only
    split
    · exact hexec
    · exact Tame.refl state
  · exact hexec

end State

def Request.Stores : Request → Prop
  | .setMember _ _ _ => True
  | _ => False

theorem serve_tame (policy : PresenceRoomPolicy) {request : Request} (hrequest : ¬request.Stores)
    {choice : Choice request} {state after : State} {answer : Answer request}
    (hserve : serve policy request choice state = some (answer, after)) : state.Tame after := by
  cases request with
  | setMember roomId member writer => exact absurd trivial hrequest
  | getMember roomId connectionId =>
    have hafter : (state.storeCall roomId choice fun state =>
        (state.liveMember roomId connectionId, state)).2 = after :=
      congrArg Prod.snd (Option.some.inj hserve)
    rw [← hafter]
    exact State.Tame.storeCall state roomId choice State.Tame.refl
  | refreshMember roomId connectionId =>
    have hafter : (state.storeCall roomId choice _).2 = after :=
      congrArg Prod.snd (Option.some.inj hserve)
    rw [← hafter]
    refine State.Tame.storeCall state roomId choice fun state => ?_
    split
    · next stored hlive =>
        refine State.Tame.setMembers state roomId fun other hother => ?_
        have hfound := KeyedList.find_mem (Option.filter_eq_some_iff.mp hlive).1
        cases KeyedList.mem_put hother with
        | inl heq => exact ⟨stored, hfound.1, by rw [heq]⟩
        | inr hold => exact ⟨other, hold.1, rfl⟩
    · exact State.Tame.refl state
  | removeMember roomId connectionId =>
    have hafter : (state.storeCall roomId choice _).2 = after :=
      congrArg Prod.snd (Option.some.inj hserve)
    rw [← hafter]
    refine State.Tame.storeCall state roomId choice fun state => ?_
    refine State.Tame.setMembers state roomId fun other hother => ⟨other, ?_, rfl⟩
    exact (KeyedList.mem_delete.mp hother).1
  | listMembers roomId reader =>
    have hafter := congrArg Prod.snd (Option.some.inj hserve)
    dsimp only at hafter
    have hcall : state.Tame (state.storeCall roomId choice fun state =>
        (state.page roomId, state.drop roomId fun _ => true)).2 :=
      State.Tame.storeCall state roomId choice fun state => State.Tame.drop state roomId fun _ => true
    rw [← hafter]
    split
    · exact hcall.trans ⟨fun _ h => h, (State.Tame.refl _).members⟩
    · exact hcall
  | persist | send | close | authorize | refreshSession | endSession | acquire | refreshLease
  | releaseLease | subscribe | unsubscribe | publish =>
    cases hserve
    exact State.Tame.refl state

theorem mem_of_getMember (policy : PresenceRoomPolicy) {roomId connectionId : Text}
    {choice : StoreChoice} {state after : State} {stored : StoredMember}
    (hserve : serve policy (.getMember roomId connectionId) choice state =
      some (some (some stored), after)) : stored ∈ state.members roomId := by
  have hanswer : (state.storeCall roomId choice fun state =>
      (state.liveMember roomId connectionId, state)).1 = some (some stored) :=
    congrArg Prod.fst (Option.some.inj hserve)
  unfold State.storeCall at hanswer
  dsimp only at hanswer
  split at hanswer
  · cases hanswer
  · have hlive := (Option.filter_eq_some_iff.mp (Option.some.inj hanswer)).1
    have hmem := (KeyedList.find_mem hlive).1
    dsimp only [State.drop, State.setMembers] at hmem
    rw [if_pos rfl] at hmem
    exact (List.mem_filter.mp hmem).1

theorem setMember_spec (policy : PresenceRoomPolicy) {roomId : Text} {member : PresenceMemberRecord}
    {writer : MessageId} {choice : StoreChoice} {state after : State} {answer : Option Unit}
    (hserve : serve policy (.setMember roomId member writer) choice state = some (answer, after)) :
    after.peers = state.peers ∧ ∀ other, ∀ stored ∈ after.members other,
      stored ∈ state.members other ∨ stored.writer = writer := by
  have hafter := congrArg Prod.snd (Option.some.inj hserve)
  have hstored : ∀ other, ∀ stored ∈ ((state.drop roomId choice.drops).storeMember roomId
      ⟨member, state.now + policy.memberTtlMs, writer, writer.state⟩).members other,
      stored ∈ state.members other ∨ stored.writer = writer := by
    intro other stored hmem
    dsimp only [State.storeMember, State.drop, State.setMembers] at hmem
    split at hmem
    · next heq =>
        rw [if_pos rfl] at hmem
        cases KeyedList.mem_put hmem with
        | inl hnew =>
          rw [hnew]
          exact .inr rfl
        | inr hold =>
          rw [heq]
          exact .inl (List.mem_filter.mp hold.1).1
    · exact .inl hmem
  unfold State.storeCall at hafter
  dsimp only at hafter
  rw [← hafter]
  split
  · dsimp only
    split
    · exact ⟨rfl, hstored⟩
    · exact ⟨rfl, fun _ _ hmem => .inl hmem⟩
  · exact ⟨rfl, hstored⟩

/-- A mark that says nothing of the order of messages or of the maintenance lock. -/
inductive Mark.Plain : Mark → Prop
  | received (message : MessageId) : Plain (.received message)
  | takes (state : PeerRef) (connectionId : Text) : Plain (.takes state connectionId)
  | stores (state : PeerRef) (connectionId : Text) : Plain (.stores state connectionId)
  | joins (state : PeerRef) (connectionId : Text) : Plain (.joins state connectionId)
  | leaves (roomId connectionId : Text) (account : PeerRef) :
      Plain (.leaves roomId connectionId account)
  | sends (peer : Nat) (frame : PresenceFrame) : Plain (.sends peer frame)

section Work

variable {services : PresenceServices} (discipline : Discipline (system services))

structure Tamely (job : Job) (assertion : RoomView → Prop) : Prop where
  stable : discipline.Stable job assertion
  tame : ∀ view state, assertion view → discipline.inv view → view.state.Tame state →
    discipline.Allows job view { view with state := state } ∧ assertion { view with state := state }
  mark : ∀ mark view, Mark.Plain mark → assertion view → discipline.inv view →
    discipline.ensures mark view ∧
      discipline.Allows job view { view with trace := view.trace ++ [mark] } ∧
      assertion { view with trace := view.trace ++ [mark] }
  fanout : ∀ room view, assertion view → discipline.inv view →
    discipline.Allows job view (view.push (some (.fanout room)) (.fanout room)) ∧
      discipline.waits job (.fanout room) (view.push (some (.fanout room)) (.fanout room)) ∧
      assertion (view.push (some (.fanout room)) (.fanout room))

variable {discipline} {job : Job} {assertion : RoomView → Prop}

namespace Tamely

variable (hfanout : FanoutSteady discipline) (h : Tamely discipline job assertion)
include h

theorem calmly : Calmly discipline job assertion where
  stable := h.stable
  routine view state hview hinv hroutine := h.tame view state hview hinv hroutine.calm.tame
  sends peer frame view := h.mark (.sends peer frame) view (.sends peer frame)
  fanout := h.fanout
  calm view state hview hinv hcalm := h.tame view state hview hinv hcalm.tame
  received message view := h.mark (.received message) view (.received message)

theorem routinely : Routinely discipline job assertion := h.calmly.toRoutinely

theorem plain {mark : Mark} (hplain : Mark.Plain mark) :
    discipline.Maintains job assertion (Async.mark mark : RoomAsync Unit) :=
  Discipline.Triple.mark fun view hview hinv _ => h.mark mark view hplain hview hinv

theorem modify {update : State → State} (hupdate : ∀ state : State, state.Tame (update state)) :
    discipline.Maintains job assertion (Async.modify update : RoomAsync Unit) :=
  .modify fun view hview hinv => h.tame view _ hview hinv (hupdate view.state)

theorem setPeer {state : PeerRef} {update : PeerState → PeerState}
    (hupdate : ∀ peer : PeerState, peer.leaveRequested = true → (update peer).leaveRequested = true) :
    discipline.Maintains job assertion (setPeer state update) :=
  h.modify fun all => State.Tame.setPeer all state hupdate

theorem setRoom (room : Nat) (update : RoomState → RoomState) :
    discipline.Maintains job assertion (setRoom room update) :=
  h.modify fun _ => ⟨fun _ h => h, (State.Tame.refl _).members⟩

theorem requestLeave (state : PeerRef) : discipline.Maintains job assertion (requestLeave state) :=
  h.calmly.requestLeave state

theorem call {request : Request} (hrequest : ¬request.Stores) :
    discipline.Maintains job assertion (Async.call request : RoomAsync (Answer request)) :=
  Discipline.Triple.call h.stable
    (fun view hview hinv _ _ state hserve =>
      h.tame view state hview hinv (serve_tame services.policy hrequest hserve))
    fun _ => h.stable

theorem publishLeave (room : Nat) (connectionId userId : Text) (account : PeerRef) :
    discipline.Maintains job assertion (publishLeave services room connectionId userId account) :=
  .bind (h.plain (.leaves _ connectionId account)) fun _ => h.routinely.publish _

theorem publishExpired (room : Nat) (reader : Queue) (expired : List LapsedMember) :
    discipline.Maintains job assertion (publishExpired services room reader expired) := by
  have hlapsing : ∀ lapsed, ∀ state : State, state.Tame (state.setLapsing reader lapsed) :=
    fun _ _ => ⟨fun _ h => h, (State.Tame.refl _).members⟩
  induction expired with
  | nil => exact .pure
  | cons first rest ih =>
    refine .bind (h.modify (hlapsing rest)) fun _ => ?_
    refine .bind (h.publishLeave room _ _ _) fun published => ?_
    split
    · exact ih
    · exact .bind (h.modify (hlapsing [])) fun _ => .pure

theorem removeMember (room : Nat) (connectionId : Option Text) :
    discipline.Maintains job assertion (removeMember services room connectionId) := by
  cases connectionId with
  | some connectionId => exact .bind (h.call id) fun _ => .pure
  | none => exact .pure

section

variable (state : PeerRef)
include state

theorem endSession (connectionId : Option Text)
    (identity : Option PresenceIdentity) (wasJoined : Bool) (endReason : PresenceSessionEndReason) :
    discipline.Maintains job assertion
      (endSession services state connectionId identity wasJoined endReason) := by
  unfold Presence.endSession
  split
  · refine .bind (h.routinely.endHook _ _) fun _ => ?_
    split
    · exact .bind (h.publishLeave state.room _ _ state) fun _ => .pure
    · exact .pure
  · exact .pure

theorem forgetPeer : discipline.Maintains job assertion (forgetPeer state true) :=
  .bind (h.setPeer fun _ hleave => hleave) fun _ =>
    .bind (h.setPeer fun _ hleave => hleave) fun _ => h.setRoom _ _

include hfanout

theorem resetState (endReason : PresenceSessionEndReason) :
    discipline.Maintains job assertion (resetState services state true endReason) := by
  refine .bind (h.routinely.clearHeartbeatTimer state) fun _ => ?_
  refine .bind (h.routinely.releaseFanout hfanout state) fun _ => ?_
  refine .bind (maintains_getPeer state) fun peer => ?_
  refine .bind (h.setPeer fun _ hleave => hleave) fun _ => ?_
  refine .bind (h.routinely.releaseLease _) fun _ => ?_
  refine .bind (maintains_getPeer state) fun peer => ?_
  refine .bind (h.removeMember state.room _) fun removed => ?_
  refine .bind (maintains_getPeer state) fun peer => ?_
  refine .bind (h.setPeer fun _ hleave => hleave) fun _ => ?_
  exact .bind (h.endSession state _ _ _ endReason) fun _ => h.forgetPeer state

theorem closeAndReset (code : Nat) (reason : String) (endReason : PresenceSessionEndReason) :
    discipline.Maintains job assertion (closeAndReset services state code reason endReason) :=
  .bind (h.requestLeave state) fun _ =>
    .bind (h.routinely.closePeer state code reason) fun _ => h.resetState hfanout state endReason

theorem resetAndClose (code : Nat) (reason : String) (endReason : PresenceSessionEndReason) :
    discipline.Maintains job assertion (resetAndClose services state code reason endReason) :=
  .bind (h.requestLeave state) fun _ =>
    .bind (h.resetState hfanout state endReason) fun _ => h.routinely.closePeer state code reason

theorem resetStopped : discipline.Maintains job assertion (resetStopped services state) :=
  .bind (maintains_getRoom state.room) fun _ => h.resetState hfanout state _

theorem rejectAuth : discipline.Maintains job assertion (rejectAuth services state) :=
  .bind (h.requestLeave state) fun _ => .bind (h.resetState hfanout state _) fun _ =>
    .bind (h.routinely.sendIgnoringFailure state _) fun _ => h.routinely.closePeer state _ _

theorem retainAndGoOn {goOn : RoomAsync Unit} (hgoOn : discipline.Maintains job assertion goOn) :
    discipline.Maintains job assertion (do
      if ← isStopped state then Presence.resetStopped services state
      else if ← retainFanout services state then
        if ← isStopped state then Presence.resetStopped services state else goOn
      else Presence.closeAndReset services state 1011 "Presence runtime unavailable" .peerLeft) := by
  refine .bind (maintains_isStopped state) fun stopped => ?_
  split
  · exact h.resetStopped hfanout state
  · refine .bind (h.routinely.retainFanout hfanout state) fun retained => ?_
    split
    · refine .bind (maintains_isStopped state) fun stopped => ?_
      split
      · exact h.resetStopped hfanout state
      · exact hgoOn
    · exact h.closeAndReset hfanout state _ _ _

omit hfanout in
theorem establish (auth : PresenceAuthPayload) (identity : PresenceIdentity) :
    discipline.Maintains job assertion (establish services state auth identity) :=
  .bind maintains_now fun _ => .bind (h.setPeer fun _ hleave => hleave) fun _ =>
    .bind (h.routinely.persistSnapshot state) fun _ => h.routinely.sendIgnoringFailure state _

theorem admitPeer (auth : PresenceAuthPayload) (identity : PresenceIdentity) :
    discipline.Maintains job assertion (admitPeer services state auth identity) := by
  refine .bind (maintains_isStopped state) fun stopped => ?_
  split
  · exact h.resetStopped hfanout state
  · refine .bind (h.plain (.takes state _)) fun _ => ?_
    refine .bind (h.setPeer fun _ hleave => hleave) fun _ => ?_
    refine .bind (h.routinely.acquire _ _) fun admission => ?_
    split
    · exact h.rejectAuth hfanout state
    · exact h.closeAndReset hfanout state _ _ _
    · refine .bind (h.setPeer fun _ hleave => hleave) fun _ => ?_
      exact h.retainAndGoOn hfanout state (h.establish state auth identity)

omit state in
theorem authenticate (message : MessageId) (envelope : PresenceEnvelope) {start : RoomView → Prop}
    (hmark : discipline.Triple job start (Async.mark (.handles message .auth) : RoomAsync Unit)
      fun _ => assertion) :
    discipline.Triple job start (authenticate services message envelope) fun _ => assertion := by
  refine .bind hmark fun _ => ?_
  split
  · exact h.rejectAuth hfanout message.state
  · split
    · exact h.rejectAuth hfanout message.state
    · refine Discipline.Maintains.bind (h.routinely.authorize _ _ _ _) fun answer => ?_
      split
      · exact h.admitPeer hfanout message.state _ _
      · exact h.rejectAuth hfanout message.state

omit hfanout in
theorem reestablish : discipline.Maintains job assertion (reestablish services state) := by
  refine .bind maintains_now fun time => .bind (h.setPeer fun _ hleave => hleave) fun _ => ?_
  refine .bind (maintains_getPeer state) fun peer => ?_
  split
  · exact h.setPeer fun _ hleave => hleave
  · exact .pure

omit hfanout in
theorem resumeJoined (resumed : PresenceRoomResumeState) :
    discipline.Maintains job assertion (resumeJoined services state resumed) := by
  unfold Presence.resumeJoined
  split
  · refine .bind (h.plain (.stores state _)) fun _ => ?_
    refine .bind (h.modify fun all => State.Tame.adopt all _ _ state) fun _ => ?_
    exact .bind (h.plain (.joins state _)) fun _ => h.setPeer fun _ hleave => hleave
  · exact h.setPeer fun _ hleave => hleave

theorem readmitPeer (resumed : PresenceRoomResumeState) (identity : PresenceIdentity) :
    discipline.Maintains job assertion (readmitPeer services state resumed identity) := by
  refine .bind (h.plain (.takes state _)) fun _ => ?_
  refine .bind (h.setPeer fun _ hleave => hleave) fun _ => ?_
  refine .bind (h.resumeJoined state resumed) fun _ => ?_
  refine .bind (h.routinely.acquire _ _) fun admission => ?_
  split
  · exact h.closeAndReset hfanout state _ _ _
  · exact h.closeAndReset hfanout state _ _ _
  · refine .bind (h.setPeer fun _ hleave => hleave) fun _ => ?_
    exact h.retainAndGoOn hfanout state (h.reestablish state)

theorem resumeSession (resumed : PresenceRoomResumeState) :
    discipline.Maintains job assertion (resumeSession services state resumed) := by
  refine .bind (h.routinely.refreshSession _ _) fun answer => ?_
  split
  · exact h.closeAndReset hfanout state _ _ _
  · refine .bind (maintains_isStopped state) fun stopped => ?_
    split
    · exact h.resetStopped hfanout state
    · split
      · split
        · exact h.readmitPeer hfanout state resumed _
        · exact h.closeAndReset hfanout state _ _ _
      · exact h.closeAndReset hfanout state _ _ _

theorem refreshAuthorizationForMessage :
    discipline.Maintains job assertion (refreshAuthorizationForMessage services state) := by
  refine .bind maintains_now fun time => .bind (maintains_getPeer state) fun peer => ?_
  split
  · exact .bind h.routinely.yield fun _ => .pure
  · split
    · refine .bind (h.routinely.refreshSession _ _) fun answer => ?_
      split
      · exact .bind (h.resetAndClose hfanout state _ _ _) fun _ => .pure
      · refine .bind (maintains_isPeerLive state) fun live => ?_
        split
        · exact .pure
        · split
          · refine .bind maintains_now fun time => .bind (h.setPeer fun _ hleave => hleave) fun _ => ?_
            exact .bind (h.routinely.persistSnapshot state) fun _ => .pure
          · exact .bind (h.resetAndClose hfanout state _ _ _) fun _ => .pure
    · exact .pure

theorem joinFailed : discipline.Maintains job assertion (joinFailed services state) :=
  h.resetAndClose hfanout state _ _ _

theorem announceJoin (connectionId : Text) (member : PresenceMemberRecord) :
    discipline.Maintains job assertion (announceJoin services state connectionId member) := by
  refine .bind (h.routinely.refreshLease state true) fun alive => ?_
  split
  · exact h.joinFailed hfanout state
  · exact h.resetAndClose hfanout state _ _ _
  · refine .bind (h.plain (.joins state _)) fun _ => ?_
    refine .bind (h.setPeer fun _ hleave => hleave) fun _ => ?_
    refine .bind (h.routinely.persistSnapshot state) fun _ => ?_
    refine .bind (h.setPeer fun _ hleave => hleave) fun _ => ?_
    refine .bind (h.routinely.publish _) fun published => ?_
    split
    · exact .pure
    · exact h.joinFailed hfanout state

theorem receiveSync : discipline.Maintains job assertion (receiveSync services state) := by
  have hfailed : discipline.Maintains job assertion (syncFailed services state) :=
    h.resetAndClose hfanout state _ _ _
  refine .bind (h.call id) fun page => ?_
  split
  · exact hfailed
  · refine .bind (h.publishExpired state.room _ _) fun published => ?_
    split
    · exact h.routinely.sendIgnoringFailure state _
    · exact hfailed

theorem receiveHeartbeat (envelope : PresenceEnvelope) :
    discipline.Maintains job assertion (receiveHeartbeat services state envelope) := by
  have hfailed : discipline.Maintains job assertion (heartbeatFailed services state) :=
    h.resetAndClose hfanout state _ _ _
  unfold Presence.receiveHeartbeat
  split
  · exact h.resetAndClose hfanout state _ _ _
  · refine .bind (maintains_getPeer state) fun peer => ?_
    split
    · exact .pure
    · refine .bind (h.routinely.refreshLease state false) fun lease => ?_
      split
      · exact hfailed
      · refine .bind (h.call id) fun alive => ?_
        split
        · exact hfailed
        · refine .bind (maintains_getPeer state) fun peer => ?_
          split
          · exact h.resetAndClose hfanout state _ _ _
          · exact h.routinely.sendIgnoringFailure state _

theorem updateFailed : discipline.Maintains job assertion (updateFailed services state) :=
  h.resetAndClose hfanout state _ _ _

theorem announceUpdate (connectionId : Text) (patch : PresencePatch)
    (updates : Json .value) (userId : Text) : discipline.Maintains job assertion
      (announceUpdate services state connectionId patch updates userId) := by
  refine .bind (h.routinely.refreshLease state true) fun alive => ?_
  split
  · exact h.updateFailed hfanout state
  · exact h.resetAndClose hfanout state _ _ _
  · refine .bind (h.routinely.publish _) fun published => ?_
    split
    · exact .pure
    · exact h.updateFailed hfanout state

end

omit hfanout in
theorem sweepLocked (room time : Nat) (callingPeer : Option PeerRef)
    (listed asked : List PeerRef → RoomView → Prop)
    (hlists : ∀ expired, discipline.Triple job assertion
      (Async.mark (.lists room expired) : RoomAsync Unit) fun _ => listed expired)
    (hasks : ∀ expired, discipline.Triple job (listed expired) (Presence.requestLeaves expired) fun _ =>
      asked expired)
    (hcloses : ∀ expired, discipline.Triple job (asked expired)
      (Async.all (expired.map (closing services 1001 "Presence heartbeat expired" .peerLeft)))
      fun _ => assertion) :
    discipline.Maintains job assertion (sweepLocked services room time callingPeer) := by
  refine .bind .get fun all => ?_
  refine Discipline.Triple.bind (hlists _) fun _ => .bind (hasks _) fun _ => .bind (hcloses _) fun _ => ?_
  refine Discipline.Maintains.bind (h.call id) fun page => ?_
  split
  · exact .pure
  · exact .bind (h.publishExpired room _ _) fun _ => .pure

end Tamely

structure Handling (discipline : Discipline (system services)) (message : MessageId)
    (older : MessageId → Prop) (before after : RoomView → Prop) : Prop where
  tameBefore : Tamely discipline (.message message) before
  tameAfter : Tamely discipline (.message message) after
  weaken : ∀ view, before view → after view
  stores : ∀ roomId member, discipline.Triple (.message message) before
    (setMember roomId member message) fun _ => after
  finds : ∀ roomId connectionId, discipline.Triple (.message message) before
    (getMember roomId connectionId) fun found view =>
      (∀ stored, found = some (some stored) → older stored.writer) ∧ before view
  stale : ∀ writer, older writer → discipline.Maintains (.message message) before
    (Async.mark (.stale message writer) : RoomAsync Unit)

namespace Handling

variable {message : MessageId} {older : MessageId → Prop} {before after : RoomView → Prop}
  (hfanout : FanoutSteady discipline) (h : Handling discipline message older before after)
include h

theorem weaken_post {β : Type} {function : RoomAsync β}
    (hfunction : discipline.Maintains (.message message) before function) :
    discipline.Triple (.message message) before function fun _ => after :=
  .consequence hfunction (fun _ hview _ => hview) fun _ view hview _ => h.weaken view hview

include hfanout

theorem receiveJoin :
    discipline.Triple (.message message) before (receiveJoin services message) fun _ => after := by
  refine .bind (maintains_getPeer message.state) fun peer => ?_
  split
  · exact h.weaken_post (h.tameBefore.closeAndReset hfanout message.state _ _ _)
  · split
    · refine .bind maintains_now fun time => ?_
      split
      · exact h.weaken_post (h.tameBefore.joinFailed hfanout message.state)
      · refine .bind (h.tameBefore.plain (.stores message.state _)) fun _ => ?_
        refine .bind (h.stores _ _) fun stored => ?_
        split
        · exact h.tameAfter.joinFailed hfanout message.state
        · exact h.tameAfter.announceJoin hfanout message.state _ _
    · exact h.weaken_post .pure

theorem applyUpdate (connectionId userId : Text) {current : StoredMember}
    (holder : older current.writer) (patch : PresencePatch) :
    discipline.Triple (.message message) before
      (applyUpdate services message connectionId userId current patch) fun _ => after := by
  unfold Presence.applyUpdate
  split
  · exact h.weaken_post (h.stale current.writer holder)
  · split
    · exact h.weaken_post (h.tameBefore.resetAndClose hfanout message.state _ _ _)
    · refine .bind maintains_now fun time => ?_
      split
      · exact h.weaken_post (h.tameBefore.updateFailed hfanout message.state)
      · refine .bind (h.stores _ _) fun stored => ?_
        split
        · exact h.tameAfter.updateFailed hfanout message.state
        · exact h.tameAfter.announceUpdate hfanout message.state _ _ _ _

theorem receiveUpdate (envelope : PresenceEnvelope) :
    discipline.Triple (.message message) before (receiveUpdate services message envelope)
      fun _ => after := by
  refine .bind (maintains_getPeer message.state) fun peer => ?_
  split
  · refine .bind (h.finds _ _) fun found => .assume fun hfound => ?_
    split
    · exact h.weaken_post (h.tameBefore.updateFailed hfanout message.state)
    · split
      · exact h.weaken_post (h.tameBefore.resetAndClose hfanout message.state _ _ _)
      · next found current hcurrent =>
          split
          · exact h.weaken_post (h.tameBefore.resetAndClose hfanout message.state _ _ _)
          · refine h.applyUpdate hfanout _ _ (hfound current ?_) _
            rw [(Option.filter_eq_some_iff.mp hcurrent).1]
  · exact h.weaken_post .pure

theorem dispatch (kind : PresenceMessageKind) (envelope : PresenceEnvelope)
    {start : RoomView → Prop}
    (hmark : discipline.Triple (.message message) start
      (Async.mark (.handles message kind) : RoomAsync Unit) fun _ => before) :
    discipline.Triple (.message message) start (dispatch services message kind envelope)
      fun _ => after := by
  refine .bind hmark fun _ => ?_
  cases kind with
  | join => exact h.receiveJoin hfanout
  | sync => exact h.weaken_post (h.tameBefore.receiveSync hfanout message.state)
  | heartbeat => exact h.weaken_post (h.tameBefore.receiveHeartbeat hfanout message.state envelope)
  | update => exact h.receiveUpdate hfanout envelope
  | leave => exact h.weaken_post (h.tameBefore.closeAndReset hfanout message.state _ _ _)
  | auth => exact h.weaken_post .pure

end Handling

theorem processMessage_spec {message : MessageId} {start waiting : RoomView → Prop}
    {last : RoomView → Prop} (hfanout : FanoutSteady discipline)
    (hstart : Tamely discipline (.message message) start)
    (hwaiting : Tamely discipline (.message message) waiting)
    (hrearms : discipline.Triple (.message message)
      (fun view => (view.state.peers message.state).leaveRequested = false ∧ start view)
      (Async.mark (.rearms message.state) : RoomAsync Unit) fun _ => waiting)
    (hmaintains : discipline.Triple (.message message) waiting (maintain services message.state)
      fun _ => start)
    (kind : PresenceMessageKind) (envelope : PresenceEnvelope)
    (hdispatch : discipline.Triple (.message message) start
      (dispatch services message kind envelope) fun _ => last)
    (hlast : ∀ view, start view → discipline.inv view → last view) :
    discipline.Triple (.message message) start
      (processMessage services message kind envelope) fun _ => last := by
  have hends : discipline.Triple (.message message) start (pure () : RoomAsync Unit) fun _ => last :=
    .pure hlast
  refine .bind (maintains_isPeerLive message.state) fun live => ?_
  split
  · refine .bind (hstart.refreshAuthorizationForMessage hfanout message.state) fun goes => ?_
    split
    · refine .bind (isPeerLive_spec message.state) fun live => ?_
      split
      · next hlive =>
          split
          · refine .bind (.weaken hrearms fun view hview _ => ⟨hview.1 hlive, hview.2⟩) fun _ => ?_
            refine .bind (hwaiting.routinely.rearmHeartbeat message.state) fun _ => ?_
            refine .bind hmaintains fun _ => .bind (maintains_isPeerLive message.state) fun live => ?_
            split
            · exact hdispatch
            · exact hends
          · refine .bind (.weaken (hstart.routinely.rearmHeartbeat message.state) ?_) fun _ => hdispatch
            exact fun view hview _ => hview.2
      · exact .weaken hends fun view hview _ => hview.2
    · exact hends
  · exact hends

end Work

end Softmaple.Presence
