import Softmaple.CollabHost.PresenceAttachment
import Softmaple.Lib.AsyncTasks
import Softmaple.Realtime.PresenceStores

/-!
What a presence room works on (`collab-runtime/src/presence-room.ts`): the state
of its peers, the services it calls and what they answer. Several rooms share
one store. The store's records carry the message that stored them last and the
peer state they belong to, which the source does not keep.
-/
namespace Softmaple.Presence

open Json KeyedList AsyncTasks
open CollabHost (PresenceIdentity)

abbrev PresenceMemberRecord := Realtime.PresenceMemberRecord (Json .value)

inductive PeerPhase where
  | authenticated
  | authenticating
  | connected
  | joined
  | left
  deriving DecidableEq, Repr

inductive PresenceMessageKind where
  | auth
  | heartbeat
  | join
  | leave
  | sync
  | update
  deriving DecidableEq, Repr

inductive PresenceRoomRefreshMode where
  | background
  | onMessage
  deriving DecidableEq, Repr

inductive PresenceSessionEndReason where
  | accessRevoked
  | peerLeft
  | roomClosed
  deriving DecidableEq, Repr

inductive RoomLeaveReason where
  | accessRevoked
  | connectionClosed
  | runtimeShutdown
  deriving DecidableEq, Repr

def endReasonFromLeave : RoomLeaveReason → PresenceSessionEndReason
  | .accessRevoked => .accessRevoked
  | .runtimeShutdown => .roomClosed
  | .connectionClosed => .peerLeft

structure PresenceEnvelope where
  payload : Option (Json .value)
  roomId : Text
  senderId : Text
  type : Text

structure PresenceAuthPayload where
  connectionId : Text
  credential : Json .value
  userId : Text

structure PresencePatch where
  clock : Int
  connectionId : Text
  userId : Text
  payload : Json .value

inductive FramePayload where
  | authError (message : String)
  | authOk
  | error (code message : String)
  | heartbeatAck (pingId : Text)
  | join (member : PresenceMemberRecord)
  | leave (connectionId userId : Text)
  | syncResponse (members : List PresenceMemberRecord)
  | update (clock : Int) (connectionId : Text) (updates : Json .value) (userId : Text)

structure PresenceFrame where
  roomId : Text
  senderId : Text
  payload : FramePayload

/-- The parse methods and `classify` throw on invalid input, which is `none`. -/
structure PresenceCodec where
  applyPatch : PresenceMemberRecord → PresencePatch → Nat →
    Option (Json .value × PresenceMemberRecord)
  classify : PresenceEnvelope → Option PresenceMessageKind
  consumeQuota : Option (Json .value) → Nat → Option (Bool × Json .value)
  createMember : PresenceIdentity → Text → Nat → Option PresenceMemberRecord
  isMember : PresenceMemberRecord → Bool
  parseAuth : Option (Json .value) → Option PresenceAuthPayload
  /-- With the `JSON.parse` before it. -/
  parseEnvelope : Text → Option PresenceEnvelope
  parseHeartbeat : Option (Json .value) → Option Text
  parsePatch : Option (Json .value) → Option PresencePatch
  createMember_connectionId : ∀ {identity connectionId now member},
    createMember identity connectionId now = some member → member.connectionId = connectionId
  applyPatch_connectionId : ∀ {current patch now application},
    applyPatch current patch now = some application →
      application.2.connectionId = current.connectionId

structure PresenceRoomPolicy where
  authorizationRefreshIntervalMs : Nat
  heartbeatExpiryMs : Nat
  memberTtlMs : Nat

/-- The rooms, by number, and what they share. -/
structure PresenceServices where
  codec : PresenceCodec
  policy : PresenceRoomPolicy
  roomId : Nat → Text
  refreshMode : Nat → PresenceRoomRefreshMode
  /-- Whether a peer has `persist`. -/
  persists : Nat → Bool
  /-- Whether the session hooks have `end`. -/
  ends : Bool

structure PresencePeerSnapshot where
  authorizationExpiresAt : Nat
  connectionId : Text
  credential : Json .value
  heartbeatExpiresAt : Nat
  identity : PresenceIdentity
  joined : Bool
  rateLimit : Option (Json .value)

structure PresenceRoomResumeState where
  connectionId : Text
  credential : Json .value
  heartbeatExpiresAt : Nat
  identity : PresenceIdentity
  joined : Bool
  rateLimit : Option (Json .value)

structure PresenceSession where
  connectionId : Text
  identity : PresenceIdentity
  roomId : Text

/-- A `PeerState` object: the peer of a room it was made for, and its serial number. -/
structure PeerRef where
  room : Nat
  peer : Nat
  serial : Nat
  deriving DecidableEq, Repr

/-- `calls` numbers the messages received; the source keeps no such count. -/
structure PeerState where
  authorizationExpiresAt : Nat
  connectionId : Option Text
  credential : Option (Json .value)
  fanoutRetained : Bool
  heartbeatExpiresAt : Nat
  heartbeatTimer : Option Nat
  identity : Option PresenceIdentity
  joined : Bool
  lease : Option Nat
  leaveRequested : Bool
  phase : PeerPhase
  rateLimit : Option (Json .value)
  calls : Nat

def createPeerState : PeerState where
  authorizationExpiresAt := 0
  connectionId := none
  credential := none
  fanoutRetained := false
  heartbeatExpiresAt := 0
  heartbeatTimer := none
  identity := none
  joined := false
  lease := none
  leaveRequested := false
  phase := .connected
  rateLimit := none
  calls := 0

structure RoomState where
  closed : Bool
  fanoutRetainers : Nat
  fanoutSubscription : Option Nat
  /-- The peers with the serial numbers of their `PeerState`. -/
  peers : List (Nat × Nat)

@[ext] structure MessageId where
  state : PeerRef
  number : Nat
  deriving DecidableEq, Repr

/-- `writer` is the message that stored the record last, `owner` the peer state whose it is. -/
structure StoredMember where
  member : PresenceMemberRecord
  expiresAt : Nat
  writer : MessageId
  owner : PeerRef

/-- A record that a read of the store has purged; its Leave is still to be published. -/
structure LapsedMember where
  roomId : Text
  connectionId : Text
  userId : Text
  owner : PeerRef
  deriving DecidableEq, Repr

inductive Queue where
  | peer (state : PeerRef)
  | maintenance (room : Nat)
  | fanout (room : Nat)
  deriving DecidableEq, Repr

structure State where
  now : Nat
  rooms : Nat → RoomState
  peers : PeerRef → PeerState
  /-- The next serial number. -/
  made : Nat
  members : Text → List StoredMember
  /-- The lapsed records of the page that a queue's work has read. -/
  lapsing : Queue → List LapsedMember

/-- The points of a run that results speak about. -/
inductive Mark where
  | received (message : MessageId)
  | persisted (message : MessageId)
  | handles (message : MessageId) (kind : PresenceMessageKind)
  /-- An Update is dropped for a record with no smaller clock. -/
  | stale (message writer : MessageId)
  | takes (state : PeerRef) (connectionId : Text)
  /-- The peer begins to store its record, or takes over the one that is stored. -/
  | stores (state : PeerRef) (connectionId : Text)
  /-- The peer has joined. -/
  | joins (state : PeerRef) (connectionId : Text)
  /-- A Leave is published on account of a peer state. -/
  | leaves (roomId connectionId : Text) (account : PeerRef)
  /-- A sweep takes the expired peers. -/
  | lists (room : Nat) (expired : List PeerRef)
  /-- The work of a peer is on its way to the maintenance lock. -/
  | rearms (state : PeerRef)
  | maintained (state : PeerRef)
  | sends (peer : Nat) (frame : PresenceFrame)

/-- What a task is for. -/
inductive Job where
  | call
  | closing (state : PeerRef)
  | sending
  | message (message : MessageId)
  | reset (state : PeerRef)
  | authenticate (message : MessageId)
  | resume (state : PeerRef)
  | maintenance (room : Nat) (caller : Option PeerRef)
  | fanout (room : Nat)
  deriving DecidableEq, Repr

def Job.queue : Job → Option Queue
  | .call | .closing _ | .sending => none
  | .message received | .authenticate received => some (.peer received.state)
  | .reset state | .resume state => some (.peer state)
  | .maintenance room _ => some (.maintenance room)
  | .fanout room => some (.fanout room)

inductive Request where
  | persist (state : PeerRef) (snapshot : PresencePeerSnapshot)
  | send (peer : Nat) (frame : PresenceFrame)
  | close (peer code : Nat) (reason : String)
  | authorize (roomId connectionId : Text) (credential : Json .value) (userId : Text)
  | refreshSession (credential : Json .value) (session : PresenceSession)
  | endSession (session : PresenceSession) (reason : PresenceSessionEndReason)
  | acquire (roomId connectionId : Text)
  | refreshLease (lease : Nat)
  | releaseLease (lease : Nat)
  | subscribe (roomId : Text)
  | unsubscribe (subscription : Nat)
  | publish (frame : PresenceFrame)
  | setMember (roomId : Text) (member : PresenceMemberRecord) (writer : MessageId)
  | getMember (roomId connectionId : Text)
  | refreshMember (roomId connectionId : Text)
  | removeMember (roomId connectionId : Text)
  | listMembers (roomId : Text) (reader : Queue)

/-- What a call gives; `none` where it throws and the room goes on otherwise than without. -/
def Answer : Request → Type
  | .persist _ _ | .send _ _ | .close _ _ _ | .endSession _ _ | .releaseLease _ => Unit
  | .authorize _ _ _ _ | .refreshSession _ _ => Option (Option PresenceIdentity)
  | .acquire _ _ => Option (Option Nat)
  | .refreshLease _ => Option Bool
  | .subscribe _ => Option Nat
  | .unsubscribe _ | .publish _ => Bool
  | .setMember _ _ _ => Option Unit
  | .getMember _ _ => Option (Option StoredMember)
  | .refreshMember _ _ => Option Bool
  | .removeMember _ _ => Option (Option PresenceMemberRecord)
  | .listMembers _ _ => Option (List PresenceMemberRecord × List LapsedMember)

/-- How a call of the store goes. A call that throws may have taken effect, and a call may drop
lapsed records that no read has reported. -/
structure StoreChoice where
  throws : Bool
  applied : Bool
  drops : Text → Bool

/-- What the services may choose: the hooks, the limiter and the fanout anything, the store not
what it answers. -/
def Choice : Request → Type
  | .setMember _ _ _ | .getMember _ _ | .refreshMember _ _ | .removeMember _ _
  | .listMembers _ _ => StoreChoice
  | request => Answer request

namespace State

def setPeer (state : State) (place : PeerRef) (update : PeerState → PeerState) : State :=
  { state with peers := fun other =>
      if other = place then update (state.peers place) else state.peers other }

def requestLeaves (state : State) (places : List PeerRef) : State :=
  places.foldl (fun state place =>
    state.setPeer place fun peer => { peer with leaveRequested := true, heartbeatTimer := none }) state

def setRoom (state : State) (room : Nat) (update : RoomState → RoomState) : State :=
  { state with rooms := fun other =>
      if other = room then update (state.rooms room) else state.rooms other }

def setMembers (state : State) (roomId : Text) (members : List StoredMember) : State :=
  { state with members := fun other => if other = roomId then members else state.members other }

def setLapsing (state : State) (reader : Queue) (lapsed : List LapsedMember) : State :=
  { state with lapsing := fun other => if other = reader then lapsed else state.lapsing other }

def lookup (state : State) (room peer : Nat) : Option PeerRef :=
  ((state.rooms room).peers.find? fun entry => entry.1 = peer).map fun entry =>
    ⟨room, entry.1, entry.2⟩

def peersOf (state : State) (room : Nat) : List PeerRef :=
  (state.rooms room).peers.map fun entry => ⟨room, entry.1, entry.2⟩

def findMember (state : State) (roomId connectionId : Text) : Option StoredMember :=
  find (·.member.connectionId) connectionId (state.members roomId)

def liveMember (state : State) (roomId connectionId : Text) : Option StoredMember :=
  (state.findMember roomId connectionId).filter fun stored => state.now < stored.expiresAt

def lapsedMember (roomId : Text) (stored : StoredMember) : LapsedMember :=
  ⟨roomId, stored.member.connectionId, stored.member.userId, stored.owner⟩

def storeMember (state : State) (roomId : Text) (stored : StoredMember) : State :=
  state.setMembers roomId (put (·.member.connectionId) stored (state.members roomId))

def adopt (state : State) (roomId connectionId : Text) (owner : PeerRef) : State :=
  state.setMembers roomId ((state.members roomId).map fun stored =>
    if stored.member.connectionId = connectionId then { stored with owner := owner } else stored)

def drop (state : State) (roomId : Text) (drops : Text → Bool) : State :=
  state.setMembers roomId ((state.members roomId).filter fun stored =>
    decide (state.now < stored.expiresAt) || !drops stored.member.connectionId)

def page (state : State) (roomId : Text) : List PresenceMemberRecord × List LapsedMember :=
  (((state.members roomId).filter fun stored => state.now < stored.expiresAt).map (·.member),
    ((state.members roomId).filter fun stored => !decide (state.now < stored.expiresAt)).map
      (lapsedMember roomId))

/-- A call on the store that answers and goes on as `exec` does. -/
def storeCall {β : Type} (state : State) (roomId : Text) (choice : StoreChoice)
    (exec : State → β × State) : Option β × State :=
  let result := exec (state.drop roomId choice.drops)
  if choice.throws then (none, if choice.applied then result.2 else state)
  else (some result.1, result.2)

end State

def serve (policy : PresenceRoomPolicy) :
    (request : Request) → Choice request → State → Option (Answer request × State)
  | .persist _ _, choice, state | .send _ _, choice, state | .close _ _ _, choice, state
  | .authorize _ _ _ _, choice, state | .refreshSession _ _, choice, state
  | .endSession _ _, choice, state | .acquire _ _, choice, state | .refreshLease _, choice, state
  | .releaseLease _, choice, state | .subscribe _, choice, state | .unsubscribe _, choice, state
  | .publish _, choice, state => some (choice, state)
  | .setMember roomId member writer, choice, state =>
    some (state.storeCall roomId choice fun state =>
      ((), state.storeMember roomId ⟨member, state.now + policy.memberTtlMs, writer, writer.state⟩))
  | .getMember roomId connectionId, choice, state =>
    some (state.storeCall roomId choice fun state => (state.liveMember roomId connectionId, state))
  | .refreshMember roomId connectionId, choice, state =>
    some (state.storeCall roomId choice fun state =>
      match state.liveMember roomId connectionId with
      | some stored => (true, state.storeMember roomId
          { stored with expiresAt := state.now + policy.memberTtlMs })
      | none => (false, state))
  | .removeMember roomId connectionId, choice, state =>
    some (state.storeCall roomId choice fun state =>
      ((state.findMember roomId connectionId).map (·.member), state.setMembers roomId
          (delete (·.member.connectionId) connectionId (state.members roomId))))
  | .listMembers roomId reader, choice, state =>
    let result := state.storeCall roomId choice fun state =>
      (state.page roomId, state.drop roomId fun _ => true)
    -- the lapsed records of a page that arrives are to be published
    some (result.1,
      match result.1 with
      | some page => result.2.setLapsing reader page.2
      | none => result.2)

end Softmaple.Presence
