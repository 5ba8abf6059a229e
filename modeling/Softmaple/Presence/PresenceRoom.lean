import Softmaple.Presence.RoomServices

/-!
The presence room (`collab-runtime/src/presence-room-implementation.ts`), method
by method. A method of the room takes its number; a method on a peer state takes
its reference, which has the number of the room.
-/
namespace Softmaple.Presence

open Json AsyncTasks
open CollabHost (PresenceIdentity)

abbrev RoomAsync (β : Type) := Async State Request Answer Job Mark β

def now : RoomAsync Nat := do return (← Async.get).now

def getRoom (room : Nat) : RoomAsync RoomState := do return (← Async.get).rooms room

def setRoom (room : Nat) (update : RoomState → RoomState) : RoomAsync Unit :=
  Async.modify fun state => state.setRoom room update

def getPeer (state : PeerRef) : RoomAsync PeerState := do return (← Async.get).peers state

def setPeer (state : PeerRef) (update : PeerState → PeerState) : RoomAsync Unit :=
  Async.modify fun all => all.setPeer state update

def requestLeave (state : PeerRef) : RoomAsync Unit :=
  setPeer state fun peer => { peer with leaveRequested := true }

def clearHeartbeatTimer (state : PeerRef) : RoomAsync Unit :=
  setPeer state fun peer => { peer with heartbeatTimer := none }

section Services

def authorize (roomId connectionId : Text) (credential : Json .value) (userId : Text) :
    RoomAsync (Option (Option PresenceIdentity)) :=
  Async.call (Request.authorize roomId connectionId credential userId)

def refreshSession (credential : Json .value) (session : PresenceSession) :
    RoomAsync (Option (Option PresenceIdentity)) :=
  Async.call (Request.refreshSession credential session)

/-- The lease, if there is one. -/
def acquire (roomId connectionId : Text) : RoomAsync (Option (Option Nat)) :=
  Async.call (Request.acquire roomId connectionId)

def subscribe (roomId : Text) : RoomAsync (Option Nat) := Async.call (Request.subscribe roomId)

def publish (frame : PresenceFrame) : RoomAsync Bool := Async.call (Request.publish frame)

def setMember (roomId : Text) (member : PresenceMemberRecord) (writer : MessageId) :
    RoomAsync (Option Unit) :=
  Async.call (Request.setMember roomId member writer)

def getMember (roomId connectionId : Text) : RoomAsync (Option (Option StoredMember)) :=
  Async.call (Request.getMember roomId connectionId)

def refreshMember (roomId connectionId : Text) : RoomAsync (Option Bool) :=
  Async.call (Request.refreshMember roomId connectionId)

def listMembers (roomId : Text) (reader : Queue) :
    RoomAsync (Option (List PresenceMemberRecord × List LapsedMember)) :=
  Async.call (Request.listMembers roomId reader)

end Services

def isPeerLive (state : PeerRef) : RoomAsync Bool := do
  let peer ← getPeer state
  return !peer.leaveRequested && peer.phase ≠ .left

def isStopped (state : PeerRef) : RoomAsync Bool := do
  let closed := (← getRoom state.room).closed
  let peer ← getPeer state
  return peer.leaveRequested || closed

def closePeer (state : PeerRef) (code : Nat) (reason : String) : RoomAsync Unit := do
  let _ ← Async.call (.close state.peer code reason)

def sendIgnoringFailure (state : PeerRef) (frame : PresenceFrame) : RoomAsync Unit := do
  Async.mark (.sends state.peer frame)
  let _ ← Async.call (.send state.peer frame)

def enqueue (job : Job) (work : RoomAsync Unit) : RoomAsync Unit := Async.perform job work

def withFanoutLock (room : Nat) (work : RoomAsync Unit) : RoomAsync Unit :=
  Async.perform (.fanout room) work

def withMessageMaintenanceLock (room : Nat) (caller : Option PeerRef) (work : RoomAsync Unit) :
    RoomAsync Unit :=
  Async.perform (.maintenance room caller) work

section Room

variable (services : PresenceServices)

def persistSnapshot (state : PeerRef) : RoomAsync Unit := do
  let peer ← getPeer state
  match services.persists state.peer, peer.connectionId, peer.credential, peer.identity with
  | true, some connectionId, some credential, some identity =>
    let _ ← Async.call (.persist state
      { authorizationExpiresAt := peer.authorizationExpiresAt
        connectionId := connectionId
        credential := credential
        heartbeatExpiresAt := peer.heartbeatExpiresAt
        identity := identity
        joined := peer.joined
        rateLimit := peer.rateLimit })
  | _, _, _, _ => Async.yield

def encode (room : Nat) (senderId : Text) (payload : FramePayload) : PresenceFrame :=
  ⟨services.roomId room, senderId, payload⟩

def server : Text := literal "server"

def publishLeave (room : Nat) (connectionId userId : Text) (account : PeerRef) : RoomAsync Bool := do
  Async.mark (.leaves (services.roomId room) connectionId account)
  publish (encode services room connectionId (.leave connectionId userId))

def publishExpired (room : Nat) (reader : Queue) : List LapsedMember → RoomAsync Bool
  | [] => pure true
  | expired :: rest => do
      Async.modify fun state => state.setLapsing reader rest
      if ← publishLeave services room expired.connectionId expired.userId expired.owner then
        publishExpired room reader rest
      else do
        Async.modify fun state => state.setLapsing reader []
        return false

section Fanout

def unsubscribeFanout (subscription : Nat) : RoomAsync Bool :=
  Async.call (Request.unsubscribe subscription)

def forgetSubscription (room subscription : Nat) : RoomAsync Unit :=
  setRoom room fun room =>
    if room.fanoutSubscription = some subscription then { room with fanoutSubscription := none }
    else room

def countRetainer (state : PeerRef) : RoomAsync Unit := do
  setRoom state.room fun room => { room with fanoutRetainers := room.fanoutRetainers + 1 }
  setPeer state fun peer => { peer with fanoutRetained := true }

/-- Subscribes once a stale subscription has ended; otherwise it throws. -/
def subscribeFanout (state : PeerRef) : RoomAsync Unit := do
  match ← subscribe (services.roomId state.room) with
  | some subscription =>
    setRoom state.room fun room => { room with fanoutSubscription := some subscription }
    countRetainer state
  | none => pure ()

/-- Whether it did not throw: `fanoutRetained` is set at its end and nowhere else. -/
def retainFanout (state : PeerRef) : RoomAsync Bool := do
  withFanoutLock state.room do
    let current ← getRoom state.room
    if current.fanoutRetainers = 0 then
      match current.fanoutSubscription with
      | some stale =>
        if ← unsubscribeFanout stale then
          forgetSubscription state.room stale
          subscribeFanout services state
      | none => subscribeFanout services state
    else countRetainer state
  return (← getPeer state).fanoutRetained

def releaseFanout (state : PeerRef) : RoomAsync Unit := do
  if (← getPeer state).fanoutRetained then
    setPeer state fun peer => { peer with fanoutRetained := false }
    withFanoutLock state.room do
      setRoom state.room fun room => { room with fanoutRetainers := room.fanoutRetainers - 1 }
      let current ← getRoom state.room
      if current.fanoutRetainers = 0 then
        match current.fanoutSubscription with
        | some subscription =>
          if ← unsubscribeFanout subscription then forgetSubscription state.room subscription
        | none => pure ()
  else Async.yield

end Fanout

section Reset

def releaseLease (lease : Option Nat) : RoomAsync Unit :=
  match lease with
  | some lease => do let _ ← Async.call (.releaseLease lease)
  | none => pure ()

/-- The record that was removed. -/
def removeMember (room : Nat) (connectionId : Option Text) :
    RoomAsync (Option PresenceMemberRecord) :=
  match connectionId with
  | some connectionId => do
      let removed : Option (Option PresenceMemberRecord) ←
        Async.call (Request.removeMember (services.roomId room) connectionId)
      return removed.join
  | none => pure none

def endHook (session : PresenceSession) (endReason : PresenceSessionEndReason) : RoomAsync Unit := do
  if services.ends then
    let _ ← Async.call (.endSession session endReason)

def endSession (state : PeerRef) (connectionId : Option Text) (identity : Option PresenceIdentity)
    (wasJoined : Bool) (endReason : PresenceSessionEndReason) : RoomAsync Unit :=
  match connectionId, identity with
  | some connectionId, some identity => do
      endHook services ⟨connectionId, identity, services.roomId state.room⟩ endReason
      if wasJoined then
        let _ ← publishLeave services state.room connectionId identity.userId state
  | _, _ => pure ()

/-- What `resetState` does last. -/
def forgetPeer (state : PeerRef) (remove : Bool) : RoomAsync Unit := do
  setPeer state fun peer => { peer with connectionId := none }
  if remove then
    setPeer state fun peer => { peer with phase := .left }
    setRoom state.room fun room =>
      { room with peers := room.peers.filter fun entry => entry.1 ≠ state.peer }
  else
    setPeer state fun peer => { peer with phase := .connected, leaveRequested := false }

def resetState (state : PeerRef) (remove : Bool) (endReason : PresenceSessionEndReason) :
    RoomAsync Unit := do
  clearHeartbeatTimer state
  releaseFanout state
  let lease := (← getPeer state).lease
  setPeer state fun peer => { peer with lease := none }
  releaseLease lease
  let connectionId := (← getPeer state).connectionId
  let removedMember ← removeMember services state.room connectionId
  let peer ← getPeer state
  setPeer state fun peer =>
    { peer with
      identity := none
      credential := none
      authorizationExpiresAt := 0
      heartbeatExpiresAt := 0
      rateLimit := none
      joined := false }
  endSession services state connectionId peer.identity (peer.joined || removedMember.isSome)
    endReason
  forgetPeer state remove

/-- `leaveRequested`, then `closePeer`, then `resetState`. -/
def closeAndReset (state : PeerRef) (code : Nat) (reason : String)
    (endReason : PresenceSessionEndReason) : RoomAsync Unit := do
  requestLeave state
  closePeer state code reason
  resetState services state true endReason

/-- `leaveRequested`, then `resetState`, then `closePeer`. -/
def resetAndClose (state : PeerRef) (code : Nat) (reason : String)
    (endReason : PresenceSessionEndReason) : RoomAsync Unit := do
  requestLeave state
  resetState services state true endReason
  closePeer state code reason

/-- `leaveRequested`, then `closePeer`, then `resetState` in the peer's queue. -/
def closeAndEnqueueReset (state : PeerRef) (code : Nat) (reason : String) : RoomAsync Unit := do
  requestLeave state
  closePeer state code reason
  enqueue (.reset state) (resetState services state true .peerLeft)

/-- `resetState` of a peer that was asked to leave meanwhile. -/
def resetStopped (state : PeerRef) : RoomAsync Unit := do
  let closed := (← getRoom state.room).closed
  resetState services state true (if closed then .roomClosed else .peerLeft)

end Reset

section Admission

/-- The `catch` of `authenticate`. -/
def rejectAuth (state : PeerRef) : RoomAsync Unit := do
  requestLeave state
  resetState services state true .accessRevoked
  sendIgnoringFailure state
    (encode services state.room server (.authError "Authentication or document membership failed"))
  closePeer state 1008 "Unauthorized"

/-- What `authenticate` does once the fanout is retained. -/
def establish (state : PeerRef) (auth : PresenceAuthPayload) (identity : PresenceIdentity) :
    RoomAsync Unit := do
  let time ← now
  setPeer state fun peer =>
    { peer with
      credential := some auth.credential
      identity := some identity
      authorizationExpiresAt := time + services.policy.authorizationRefreshIntervalMs
      phase := .authenticated }
  persistSnapshot services state
  sendIgnoringFailure state (encode services state.room server .authOk)

/-- What `authenticate` does once the hook has given an identity. -/
def admitPeer (state : PeerRef) (auth : PresenceAuthPayload) (identity : PresenceIdentity) :
    RoomAsync Unit := do
  if ← isStopped state then resetStopped services state
  else
    Async.mark (.takes state auth.connectionId)
    setPeer state fun peer => { peer with connectionId := some auth.connectionId }
    match ← acquire (services.roomId state.room) auth.connectionId with
    | none => rejectAuth services state
    | some none =>
      closeAndReset services state 1013 "Presence room is full or duplicated" .peerLeft
    | some (some lease) =>
      setPeer state fun peer => { peer with lease := some lease }
      if ← isStopped state then resetStopped services state
      else if ← retainFanout services state then
        if ← isStopped state then resetStopped services state
        else establish services state auth identity
      else closeAndReset services state 1011 "Presence runtime unavailable" .peerLeft

def authenticate (message : MessageId) (envelope : PresenceEnvelope) : RoomAsync Unit := do
  Async.mark (.handles message .auth)
  match services.codec.parseAuth envelope.payload with
  | none => rejectAuth services message.state
  | some auth =>
    if envelope.senderId ≠ auth.connectionId then rejectAuth services message.state
    else
      match ← authorize (services.roomId message.state.room) auth.connectionId auth.credential
          auth.userId with
      | some (some identity) => admitPeer services message.state auth identity
      | _ => rejectAuth services message.state

/-- What `resumeSession` does once the fanout is retained. -/
def reestablish (state : PeerRef) : RoomAsync Unit := do
  let time ← now
  setPeer state fun peer =>
    { peer with
      authorizationExpiresAt := time + services.policy.authorizationRefreshIntervalMs
      phase := if peer.joined then .joined else .authenticated }
  if services.refreshMode state.room = .background ∧ time < (← getPeer state).heartbeatExpiresAt then
    setPeer state fun peer => { peer with heartbeatTimer := some (max time peer.heartbeatExpiresAt) }

/-- A record that the session left in the store is its own. -/
def resumeJoined (state : PeerRef) (resumed : PresenceRoomResumeState) : RoomAsync Unit :=
  if resumed.joined then do
    Async.mark (.stores state resumed.connectionId)
    Async.modify fun all => all.adopt (services.roomId state.room) resumed.connectionId state
    Async.mark (.joins state resumed.connectionId)
    setPeer state fun peer => { peer with joined := true }
  else setPeer state fun peer => { peer with joined := false }

/-- What `resumeSession` does once the hook has given the identity again. -/
def readmitPeer (state : PeerRef) (resumed : PresenceRoomResumeState) (identity : PresenceIdentity) :
    RoomAsync Unit := do
  Async.mark (.takes state resumed.connectionId)
  setPeer state fun peer =>
    { peer with
      connectionId := some resumed.connectionId
      credential := some resumed.credential
      identity := some identity
      rateLimit := resumed.rateLimit
      heartbeatExpiresAt := resumed.heartbeatExpiresAt }
  resumeJoined services state resumed
  match ← acquire (services.roomId state.room) resumed.connectionId with
  | none => closeAndReset services state 1011 "Presence runtime unavailable" .peerLeft
  | some none =>
    closeAndReset services state 1013 "Presence connection lease was lost" .peerLeft
  | some (some lease) =>
    setPeer state fun peer => { peer with lease := some lease }
    if ← isStopped state then resetStopped services state
    else if ← retainFanout services state then
      if ← isStopped state then resetStopped services state
      else reestablish services state
    else closeAndReset services state 1011 "Presence runtime unavailable" .peerLeft

def resumeSession (state : PeerRef) (resumed : PresenceRoomResumeState) : RoomAsync Unit := do
  match ← refreshSession resumed.credential
      ⟨resumed.connectionId, resumed.identity, services.roomId state.room⟩ with
  | none => closeAndReset services state 1011 "Presence runtime unavailable" .peerLeft
  | some refreshed =>
    if ← isStopped state then resetStopped services state
    else
      match refreshed with
      | some identity =>
        if identity.userId = resumed.identity.userId then
          readmitPeer services state resumed identity
        else
          closeAndReset services state 1008 "Presence access was revoked" .accessRevoked
      | none => closeAndReset services state 1008 "Presence access was revoked" .accessRevoked

def refreshAuthorizationForMessage (state : PeerRef) : RoomAsync Bool := do
  let time ← now
  let peer ← getPeer state
  if time < peer.authorizationExpiresAt then
    Async.yield
    return true
  else
    match peer.credential, peer.identity, peer.connectionId with
    | some credential, some identity, some connectionId =>
      match ← refreshSession credential ⟨connectionId, identity, services.roomId state.room⟩ with
      | none =>
        resetAndClose services state 1011 "Authorization recheck failed" .peerLeft
        return false
      | some refreshed =>
        if !(← isPeerLive state) then return false
        else if refreshed.map (·.userId) = some identity.userId then
          let time ← now
          setPeer state fun peer =>
            { peer with
              identity := refreshed
              authorizationExpiresAt := time + services.policy.authorizationRefreshIntervalMs }
          persistSnapshot services state
          return true
        else
          resetAndClose services state 1008 "Workspace membership was revoked" .accessRevoked
          return false
    | _, _, _ => return false

end Admission

section Messages

/-- Whether the lease is alive, or the peer has none; `none` where the refresh throws. -/
def refreshLease (state : PeerRef) (otherwise : Bool) : RoomAsync (Option Bool) := do
  match (← getPeer state).lease with
  | some lease => Async.call (Request.refreshLease lease)
  | none => return some otherwise

def joinFailed (state : PeerRef) : RoomAsync Unit :=
  resetAndClose services state 1011 "Presence join failed" .peerLeft

/-- What `receiveJoin` does once the record is stored. -/
def announceJoin (state : PeerRef) (connectionId : Text) (member : PresenceMemberRecord) :
    RoomAsync Unit := do
  match ← refreshLease state true with
  | none => joinFailed services state
  | some false => resetAndClose services state 1008 "Presence lease expired" .peerLeft
  | some true =>
    Async.mark (.joins state connectionId)
    setPeer state fun peer => { peer with joined := true }
    persistSnapshot services state
    setPeer state fun peer => { peer with phase := .joined }
    if ← publish (encode services state.room connectionId (.join member)) then pure ()
    else joinFailed services state

def receiveJoin (message : MessageId) : RoomAsync Unit := do
  let peer ← getPeer message.state
  if peer.phase ≠ .authenticated then
    closeAndReset services message.state 1008 "Presence already joined" .peerLeft
  else
    match peer.identity, peer.connectionId with
    | some identity, some connectionId =>
      match services.codec.createMember identity connectionId (← now) with
      | none => joinFailed services message.state
      | some member => do
          Async.mark (.stores message.state connectionId)
          match ← setMember (services.roomId message.state.room) member message with
          | none => joinFailed services message.state
          | some () => announceJoin services message.state connectionId member
    | _, _ => pure ()

def syncFailed (state : PeerRef) : RoomAsync Unit :=
  resetAndClose services state 1011 "Presence sync failed" .peerLeft

def receiveSync (state : PeerRef) : RoomAsync Unit := do
  match ← listMembers (services.roomId state.room) (.peer state) with
  | none => syncFailed services state
  | some (members, expired) =>
    if ← publishExpired services state.room (.peer state) expired then
      sendIgnoringFailure state
        (encode services state.room server (.syncResponse (members.filter services.codec.isMember)))
    else syncFailed services state

def heartbeatFailed (state : PeerRef) : RoomAsync Unit :=
  resetAndClose services state 1011 "Presence heartbeat failed" .peerLeft

def receiveHeartbeat (state : PeerRef) (envelope : PresenceEnvelope) : RoomAsync Unit :=
  match services.codec.parseHeartbeat envelope.payload with
  | none => resetAndClose services state 1008 "Invalid presence heartbeat" .peerLeft
  | some pingId => do
      match (← getPeer state).connectionId with
      | none => pure ()
      | some connectionId =>
        match ← refreshLease state false with
        | none => heartbeatFailed services state
        | some leaseAlive =>
          match ← refreshMember (services.roomId state.room) connectionId with
          | none => heartbeatFailed services state
          | some presenceAlive =>
            if !leaseAlive || ((← getPeer state).joined && !presenceAlive) then
              resetAndClose services state 1008 "Presence lease expired" .peerLeft
            else
              sendIgnoringFailure state
                (encode services state.room connectionId (.heartbeatAck pingId))

def updateFailed (state : PeerRef) : RoomAsync Unit :=
  resetAndClose services state 1011 "Presence update failed" .peerLeft

/-- What `receiveUpdate` does once the record is stored. -/
def announceUpdate (state : PeerRef) (connectionId : Text) (patch : PresencePatch)
    (updates : Json .value) (userId : Text) : RoomAsync Unit := do
  match ← refreshLease state true with
  | none => updateFailed services state
  | some false => resetAndClose services state 1008 "Presence lease expired" .peerLeft
  | some true =>
    if ← publish
        (encode services state.room connectionId (.update patch.clock connectionId updates userId)) then
      pure ()
    else updateFailed services state

/-- What `receiveUpdate` does with a patch of the peer for the record in the store. -/
def applyUpdate (message : MessageId) (connectionId : Text) (userId : Text)
    (current : StoredMember) (patch : PresencePatch) : RoomAsync Unit := do
  if patch.clock ≤ current.member.clock then Async.mark (.stale message current.writer)
  else if current.member.clock + 1000 < patch.clock then
    resetAndClose services message.state 1008 "Invalid presence update" .peerLeft
  else
    match services.codec.applyPatch current.member patch (← now) with
    | none => updateFailed services message.state
    | some (updates, member) =>
      match ← setMember (services.roomId message.state.room) member message with
      | none => updateFailed services message.state
      | some () =>
        announceUpdate services message.state connectionId patch updates userId

def receiveUpdate (message : MessageId) (envelope : PresenceEnvelope) :
    RoomAsync Unit := do
  let peer ← getPeer message.state
  match peer.connectionId, peer.identity with
  | some connectionId, some identity =>
    match ← getMember (services.roomId message.state.room) connectionId with
    | none => updateFailed services message.state
    | some found =>
      match found.filter fun stored => services.codec.isMember stored.member with
      | none =>
        resetAndClose services message.state 1008 "Join presence before updating" .peerLeft
      | some current =>
        match (services.codec.parsePatch envelope.payload).filter fun patch =>
            patch.connectionId = connectionId ∧ patch.userId = identity.userId with
        | none =>
          resetAndClose services message.state 1008 "Invalid presence update" .peerLeft
        | some patch =>
          applyUpdate services message connectionId identity.userId current patch
  | _, _ => pure ()

def receiveLeave (state : PeerRef) : RoomAsync Unit :=
  closeAndReset services state 1000 "Presence left" .peerLeft

def expiredHeartbeats (all : State) (room time : Nat) (callingPeer : Option PeerRef) :
    List PeerRef :=
  (all.peersOf room).filter fun state =>
    let peer := all.peers state
    some state ≠ callingPeer && (peer.phase = .authenticated || peer.phase = .joined) &&
      !peer.leaveRequested && 0 < peer.heartbeatExpiresAt && peer.heartbeatExpiresAt ≤ time

def requestLeaves (states : List PeerRef) : RoomAsync Unit :=
  Async.modify fun all => all.requestLeaves states

/-- Closes a peer that was asked to leave and resets it in its queue. -/
def closing (code : Nat) (reason : String) (endReason : PresenceSessionEndReason)
    (state : PeerRef) : Job × RoomAsync Unit :=
  (.closing state, do
    closePeer state code reason
    enqueue (.reset state) (resetState services state true endReason))

def sweepLocked (room time : Nat) (callingPeer : Option PeerRef) : RoomAsync Unit := do
  let expired := expiredHeartbeats (← Async.get) room time callingPeer
  Async.mark (.lists room expired)
  requestLeaves expired
  Async.all (expired.map (closing services 1001 "Presence heartbeat expired" .peerLeft))
  match ← listMembers (services.roomId room) (.maintenance room) with
  | none => pure ()
  | some (_, lapsed) =>
    let _ ← publishExpired services room (.maintenance room) lapsed

def rearmHeartbeatTimer (state : PeerRef) : RoomAsync Unit := do
  let time ← now
  setPeer state fun peer => { peer with heartbeatTimer := some (max time peer.heartbeatExpiresAt) }

def rearmHeartbeat (state : PeerRef) : RoomAsync Unit := do
  let time ← now
  setPeer state fun peer =>
    { peer with heartbeatExpiresAt := time + services.policy.heartbeatExpiryMs }
  persistSnapshot services state
  if services.refreshMode state.room = .background then rearmHeartbeatTimer state

def dispatch (message : MessageId) (kind : PresenceMessageKind)
    (envelope : PresenceEnvelope) : RoomAsync Unit := do
  Async.mark (.handles message kind)
  match kind with
  | .join => receiveJoin services message
  | .sync => receiveSync services message.state
  | .heartbeat => receiveHeartbeat services message.state envelope
  | .update => receiveUpdate services message envelope
  | .leave => receiveLeave services message.state
  | .auth => pure ()

def maintain (state : PeerRef) : RoomAsync Unit := do
  withMessageMaintenanceLock state.room (some state) do
    sweepLocked services state.room (← now) (some state)
  Async.mark (.maintained state)

def processMessage (message : MessageId) (kind : PresenceMessageKind)
    (envelope : PresenceEnvelope) : RoomAsync Unit := do
  if ← isPeerLive message.state then
    if ← refreshAuthorizationForMessage services message.state then
      if ← isPeerLive message.state then
        if services.refreshMode message.state.room = .onMessage then
          Async.mark (.rearms message.state)
          rearmHeartbeat services message.state
          maintain services message.state
          if ← isPeerLive message.state then dispatch services message kind envelope
        else
          rearmHeartbeat services message.state
          dispatch services message kind envelope

end Messages

section Calls

/-- The object of the next serial number is as `createPeerState` makes it. -/
def join (room peer : Nat) : RoomAsync Unit := do
  let all ← Async.get
  if (all.rooms room).closed then
    let _ ← Async.call (.close peer 1012 "Collaboration runtime is shutting down")
  else if (all.lookup room peer).isNone then
    Async.modify fun all =>
      { all.setRoom room fun current =>
          { current with peers := current.peers ++ [(peer, all.made)] } with
        made := all.made + 1 }

def resume (room peer : Nat) (resumed : PresenceRoomResumeState) : RoomAsync Unit := do
  join room peer
  Async.yield
  let all ← Async.get
  match all.lookup room peer, (all.rooms room).closed with
  | some state, false =>
    if (all.peers state).phase = .connected then
      setPeer state fun peer => { peer with phase := .authenticating }
      enqueue (.resume state) (resumeSession services state resumed)
    else closeAndEnqueueReset services state 1008 "Already authenticated"
  | _, _ => pure ()

def receiveAuth (message : MessageId) (envelope : PresenceEnvelope) : RoomAsync Unit := do
  if (← getPeer message.state).phase ≠ .connected then
    requestLeave message.state
    closePeer message.state 1008 "Presence is already authenticated"
    Async.detach (.reset message.state) (resetState services message.state true .peerLeft)
  else
    setPeer message.state fun peer => { peer with phase := .authenticating }
    enqueue (.authenticate message) (authenticate services message envelope)

/-- What `receive` does with an envelope of the room. -/
def receiveEnvelope (message : MessageId) (envelope : PresenceEnvelope) :
    RoomAsync Unit := do
  match services.codec.classify envelope with
  | none => closeAndEnqueueReset services message.state 1008 "Unsupported presence message"
  | some .auth => receiveAuth services message envelope
  | some kind =>
    let peer ← getPeer message.state
    if (peer.phase = .authenticated ∨ peer.phase = .joined) ∧
        peer.connectionId = some envelope.senderId then
      enqueue (.message message) (processMessage services message kind envelope)
    else closeAndEnqueueReset services message.state 1008 "Authenticate presence first"

/-- What `receive` does once the rate limit is persisted. -/
def receivePersisted (message : MessageId) (allowed : Bool) (rawMessage : Text) :
    RoomAsync Unit :=
  if !allowed then
    closeAndEnqueueReset services message.state 1013 "Presence rate limit exceeded"
  else
    match services.codec.parseEnvelope rawMessage with
    | none =>
      sendIgnoringFailure message.state
        ⟨literal "unknown", server, .error "invalid-message" "The presence message is invalid"⟩
    | some envelope =>
      if envelope.roomId ≠ services.roomId message.state.room then
        closeAndEnqueueReset services message.state 1008 "Presence room mismatch"
      else receiveEnvelope services message envelope

def receive (room peer : Nat) (rawMessage : Text) : RoomAsync Unit := do
  let all ← Async.get
  match all.lookup room peer, (all.rooms room).closed with
  | some state, false =>
    let current := all.peers state
    if current.leaveRequested ∨ current.phase = .left then pure ()
    else
      match services.codec.consumeQuota current.rateLimit all.now with
      | none =>
        closeAndEnqueueReset services state 1011 "Presence rate limit check failed"
      | some (allowed, rateLimit) =>
        let message : MessageId := ⟨state, current.calls⟩
        setPeer state fun peer =>
          { peer with rateLimit := some rateLimit, calls := current.calls + 1 }
        Async.mark (.received message)
        persistSnapshot services state
        Async.mark (.persisted message)
        receivePersisted services message allowed rawMessage
  | _, _ => pure ()

def leave (room peer : Nat) (reason : RoomLeaveReason) : RoomAsync Unit := do
  match (← Async.get).lookup room peer with
  | some state =>
    requestLeave state
    clearHeartbeatTimer state
    enqueue (.reset state) (resetState services state true (endReasonFromLeave reason))
  | none => pure ()

def closeFanout (room : Nat) : RoomAsync Unit :=
  withFanoutLock room do
    let subscription := (← getRoom room).fanoutSubscription
    setRoom room fun room => { room with fanoutRetainers := 0 }
    match subscription with
    | some subscription =>
      if ← unsubscribeFanout subscription then
        setRoom room fun room => { room with fanoutSubscription := none }
    | none => pure ()

/-- A second call gives the promise of the first. -/
def close (room : Nat) : RoomAsync Unit := do
  let all ← Async.get
  if (all.rooms room).closed then pure ()
  else
    let states := all.peersOf room
    setRoom room fun room => { room with closed := true }
    requestLeaves states
    Async.all (states.map
      (closing services 1012 "Collaboration runtime is shutting down" .roomClosed))
    closeFanout room

def sweep (room : Nat) (time : Option Nat) : RoomAsync Unit := do
  let time := time.getD (← now)
  withMessageMaintenanceLock room none (sweepLocked services room time none)

/-- The heartbeat timer of a peer fires: `closeExpiredHeartbeatPeer`. -/
def heartbeatTimer (state : PeerRef) : RoomAsync Unit := do
  let time ← now
  let peer ← getPeer state
  if peer.heartbeatTimer.any (· ≤ time) then
    clearHeartbeatTimer state
    if (peer.phase = .authenticated ∨ peer.phase = .joined) ∧ !peer.leaveRequested then
      closeAndEnqueueReset services state 1001 "Presence heartbeat expired"

def broadcast (room : Nat) (frame : PresenceFrame) : RoomAsync Unit := do
  if frame.roomId = services.roomId room then
    let all ← Async.get
    let recipients := (all.peersOf room).filter fun state =>
      (all.peers state).phase = .joined && !(all.peers state).leaveRequested
    Async.forEach recipients fun state => Async.mark (.sends state.peer frame)
    Async.all (recipients.map fun state =>
      (.sending, do let _ ← Async.call (.send state.peer frame)))

end Calls

inductive Entry where
  | elapse (duration : Nat)
  | join (room peer : Nat)
  | resume (room peer : Nat) (resumed : PresenceRoomResumeState)
  | receive (room peer : Nat) (rawMessage : Text)
  | leave (room peer : Nat) (reason : RoomLeaveReason)
  | close (room : Nat)
  | sweep (room : Nat) (time : Option Nat)
  | heartbeatTimer (state : PeerRef)
  | broadcast (room : Nat) (frame : PresenceFrame)

def Entry.exec : Entry → RoomAsync Unit
  | .elapse duration => Async.modify fun state => { state with now := state.now + duration }
  | .join room peer => Presence.join room peer
  | .resume room peer resumed => Presence.resume services room peer resumed
  | .receive room peer rawMessage => Presence.receive services room peer rawMessage
  | .leave room peer reason => Presence.leave services room peer reason
  | .close room => Presence.close services room
  | .sweep room time => Presence.sweep services room time
  | .heartbeatTimer state => Presence.heartbeatTimer services state
  | .broadcast room frame => Presence.broadcast services room frame

def system : System State Request Answer Choice Job Queue Entry Mark where
  queue := Job.queue
  serve := serve services.policy
  entry entry := (.call, (entry.exec services).proc)

end Room

abbrev RoomWorld := World State Request Answer Job Mark

abbrev RoomView := View State Job Queue Mark

abbrev RoomAction := World.Action Request Choice Entry

def State.start : State where
  now := 0
  rooms := fun _ => ⟨false, 0, none, []⟩
  peers := fun _ => createPeerState
  made := 0
  members := fun _ => []
  lapsing := fun _ => []

/-- No room has a peer, and the store is empty. -/
def start : RoomWorld := ⟨State.start, [], [], 0⟩

section Sample

def sampleCodec : PresenceCodec where
  applyPatch current patch _ := some (.null, { current with clock := patch.clock })
  classify envelope :=
    if envelope.type = literal "a" then some .auth
    else if envelope.type = literal "j" then some .join
    else if envelope.type = literal "u" then some .update
    else if envelope.type = literal "h" then some .heartbeat
    else none
  consumeQuota _ _ := some (true, .null)
  createMember identity connectionId _ := some ⟨0, connectionId, identity.userId, .null⟩
  isMember _ := true
  parseAuth
    | some (.array (.cons (.string connectionId) _)) => some ⟨connectionId, .null, literal "u"⟩
    | _ => none
  parseEnvelope
    | kind :: clock :: sender =>
      some ⟨some (.array (.cons (.string sender) (.cons (.number clock.val) .nil))), literal "r", sender,
        [kind]⟩
    | _ => none
  parseHeartbeat _ := some []
  parsePatch
    | some (.array (.cons (.string connectionId) (.cons (.number clock) .nil))) =>
      some ⟨clock, connectionId, literal "u", .null⟩
    | _ => none
  createMember_connectionId := by
    intro identity connectionId now member h
    cases h
    rfl
  applyPatch_connectionId := by
    intro current patch now application h
    cases h
    rfl

def sampleServices (refreshMode : PresenceRoomRefreshMode) : PresenceServices where
  codec := sampleCodec
  policy := ⟨1000, 1000, 1000⟩
  roomId _ := literal "r"
  refreshMode _ := refreshMode
  persists _ := true
  ends := false

/-- Services that answer every call; the limiter gives a lease or refuses. -/
def sampleChoice (lease : Option Nat) : (request : Request) → Choice request
  | .persist _ _ | .send _ _ | .close _ _ _ | .endSession _ _ | .releaseLease _ => ()
  | .authorize _ _ _ _ | .refreshSession _ _ => some (some ⟨none, literal "n", literal "u"⟩)
  | .acquire _ _ => some lease
  | .refreshLease _ => some true
  | .subscribe _ => some 0
  | .unsubscribe _ | .publish _ => true
  | .setMember _ _ _ | .getMember _ _ | .refreshMember _ _ | .removeMember _ _
  | .listMembers _ _ => ⟨false, false, fun _ => false⟩

def sampleMessage (kind : String) (clock : Fin 0x10000) : Text :=
  literal kind ++ clock :: literal "c"

/-- The task at a place gets its answer and goes on. -/
def answered (place : Nat) (lease : Option Nat) : List RoomAction :=
  [.serve place (sampleChoice lease), .resume place]

/-- A peer is admitted and joins. -/
def sampleJoins : List RoomAction :=
  [.invoke (.join 0 0), .invoke (.receive 0 0 (sampleMessage "a" 0)), .resume 0, .resume 1] ++
    answered 1 (some 0) ++ answered 1 (some 0) ++ [.resume 2] ++ answered 2 (some 0) ++
    [.resume 1] ++ answered 1 (some 0) ++ answered 1 (some 0) ++ [.resume 0] ++
    [.invoke (.receive 0 0 (sampleMessage "j" 0))] ++ answered 0 none ++ [.resume 1, .resume 1] ++
    answered 1 none ++ answered 1 none ++ answered 1 none ++ answered 1 none ++ answered 1 none ++
    [.resume 0]

end Sample

end Softmaple.Presence
