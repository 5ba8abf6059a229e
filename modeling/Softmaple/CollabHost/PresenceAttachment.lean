import Softmaple.CollabHost.SessionHooks
import Softmaple.CollabHost.AttachmentIdentity
import Softmaple.CollabHost.AuthDeadline

/-!
What a presence socket carries through hibernation
(`collab-cloudflare/src/presence-attachment.ts`), and the `Auth` payload it
starts from (`awareness/src/protocol/auth.ts`).
-/
namespace Softmaple.CollabHost

open Json

def PRESENCE_PROTOCOL_VERSION : Int := 2

/-- The capabilities a client must offer, each with the value true. -/
def PRESENCE_CAPABILITIES : List String :=
  ["activityLivenessSplit", "connectionId", "presenceClock", "readyHandshake", "heartbeatAck",
    "stableCursor"]

def MAX_PRESENCE_TOKEN_LENGTH : Nat := 4096

def MAX_PERSISTED_PRESENCE_BYTES : Nat := 4 * 1024

def isShortString (maxLength : Nat) (value : Text) : Bool :=
  decide (0 < value.length ∧ value.length ≤ maxLength)

abbrev ShortString (maxLength : Nat) := {value : Text // isShortString maxLength value = true}

def parseShortString (maxLength : Nat) (value : Option (Json .value)) :
    Option (ShortString maxLength) := do
  let read ← asString value
  if h : isShortString maxLength read = true then some ⟨read, h⟩ else none

structure PresenceAuthPayload where
  connectionId : ShortString 256
  token : ShortString MAX_PRESENCE_TOKEN_LENGTH
  userId : ShortString 256
  deriving DecidableEq

/-- A value that is no array, null or primitive. -/
def isObject : Json .value → Bool
  | .object _ => true
  | _ => false

def parsePresenceAuth (payload : Json .value) : Option PresenceAuthPayload := do
  if !isObject payload then none
  else
    let token ← parseShortString MAX_PRESENCE_TOKEN_LENGTH (payload.get "token")
    let connectionId ← parseShortString 256 (payload.get "connectionId")
    let userId ← parseShortString 256 (payload.get "userId")
    let capabilities ← payload.get "capabilities"
    if asNumber (payload.get "protocolVersion") ≠ some PRESENCE_PROTOCOL_VERSION ∨
        !isObject capabilities then none
    else if PRESENCE_CAPABILITIES.all fun name =>
        asBoolean (capabilities.get name) == some true then
      return ⟨connectionId, token, userId⟩
    else none

structure PresenceIdentity where
  avatarUrl : Option Text
  name : Text
  userId : Text
  deriving DecidableEq, Repr

/-- `PresencePeerSnapshot`. The credential is an access token; the rate limit belongs to the codec. -/
structure PresencePeerSnapshot where
  authorizationExpiresAt : SafeNat
  connectionId : ShortString 256
  token : ShortString MAX_PRESENCE_TOKEN_LENGTH
  heartbeatExpiresAt : SafeNat
  identity : PresenceIdentity
  joined : Bool
  rateLimit : Json .value

structure PresenceAttachmentBase where
  peerId : PeerId
  roomId : DocumentId
  deriving DecidableEq

inductive PresenceWebSocketAttachment where
  | awaitingAuth (base : PresenceAttachmentBase) (connectedAt : SafeNat)
  | authenticated (base : PresenceAttachmentBase) (snapshot : PresencePeerSnapshot)

section Stored

def presenceCredentialJson (token : ShortString MAX_PRESENCE_TOKEN_LENGTH) : Json .value :=
  objectOf [("kind", .string (literal "access-token")), ("token", .string token.val)]

def identityJson (identity : PresenceIdentity) : Json .value :=
  match identity.avatarUrl with
  | none => objectOf [("name", .string identity.name), ("userId", .string identity.userId)]
  | some avatarUrl =>
    objectOf [("name", .string identity.name), ("userId", .string identity.userId),
      ("avatarUrl", .string avatarUrl)]

/-- The attachment as `serializeAttachment` clones it. -/
def presenceAttachmentJson : PresenceWebSocketAttachment → Json .value
  | .awaitingAuth base connectedAt =>
    objectOf [("connectedAt", natural connectedAt), ("peerId", .string base.peerId.val),
      ("phase", .string (literal "awaiting-auth")), ("roomId", .string base.roomId.val),
      ("version", .number ATTACHMENT_VERSION)]
  | .authenticated base snapshot =>
    objectOf [("authorizationExpiresAt", natural snapshot.authorizationExpiresAt),
      ("connectionId", .string snapshot.connectionId.val),
      ("credential", presenceCredentialJson snapshot.token),
      ("heartbeatExpiresAt", natural snapshot.heartbeatExpiresAt),
      ("identity", identityJson snapshot.identity), ("joined", .boolean snapshot.joined),
      ("peerId", .string base.peerId.val), ("phase", .string (literal "authenticated")),
      ("rateLimit", snapshot.rateLimit), ("roomId", .string base.roomId.val),
      ("version", .number ATTACHMENT_VERSION)]

def parsePresenceCredential (value : Option (Json .value)) :
    Option (ShortString MAX_PRESENCE_TOKEN_LENGTH) := do
  let record ← value
  if !record.isRecord ∨ asString (record.get "kind") ≠ some (literal "access-token") then none
  else parseShortString MAX_PRESENCE_TOKEN_LENGTH (record.get "token")

def parseIdentity (value : Option (Json .value)) : Option PresenceIdentity := do
  let record ← value
  if !record.isRecord then none
  else
    let name ← parseShortString 4096 (record.get "name")
    let userId ← parseShortString 256 (record.get "userId")
    match record.get "avatarUrl" with
    | none => return ⟨none, name.val, userId.val⟩
    | some avatarUrl =>
      return ⟨some (← parseShortString 4096 (some avatarUrl)).val, name.val, userId.val⟩

def parsePresenceBase (value : Json .value) : Option PresenceAttachmentBase := do
  if !value.isRecord ∨ asNumber (value.get "version") ≠ some ATTACHMENT_VERSION then none
  else
    let roomId ← asString (value.get "roomId") >>= parseDocumentId
    let peerId ← asString (value.get "peerId") >>= parsePeerId
    return ⟨peerId, roomId⟩

def parsePresenceWebSocketAttachment (value : Json .value) :
    Option PresenceWebSocketAttachment := do
  let base ← parsePresenceBase value
  if asString (value.get "phase") = some (literal "awaiting-auth") then
    return .awaitingAuth base (← isNonNegativeInteger (value.get "connectedAt"))
  else if asString (value.get "phase") ≠ some (literal "authenticated") then none
  else
    let authorizationExpiresAt ← isNonNegativeInteger (value.get "authorizationExpiresAt")
    let heartbeatExpiresAt ← isNonNegativeInteger (value.get "heartbeatExpiresAt")
    let joined ← asBoolean (value.get "joined")
    let connectionId ← parseShortString 256 (value.get "connectionId")
    let token ← parsePresenceCredential (value.get "credential")
    let identity ← parseIdentity (value.get "identity")
    return .authenticated base ⟨authorizationExpiresAt, connectionId, token, heartbeatExpiresAt,
      identity, joined, (value.get "rateLimit").getD .null⟩

end Stored

def createAwaitingAuthPresence (roomId : DocumentId) (peerId : PeerId) (now : SafeNat) :
    PresenceWebSocketAttachment :=
  .awaitingAuth ⟨peerId, roomId⟩ now

def attachmentAfterSnapshot (base : PresenceAttachmentBase) (snapshot : PresencePeerSnapshot) :
    PresenceWebSocketAttachment :=
  .authenticated base snapshot

/-- What the parser asks of an identity. -/
def PresenceIdentity.Readable (identity : PresenceIdentity) : Prop :=
  isShortString 4096 identity.name = true ∧ isShortString 256 identity.userId = true ∧
    ∀ avatarUrl ∈ identity.avatarUrl, isShortString 4096 avatarUrl = true

section ReadBack

@[simp]
theorem parseShortString_string {maxLength : Nat} (value : ShortString maxLength) :
    parseShortString maxLength (some (.string value.val)) = some value := by
  simp [parseShortString, asString, value.property]

@[simp]
theorem parsePresenceCredential_json (token : ShortString MAX_PRESENCE_TOKEN_LENGTH) :
    parsePresenceCredential (some (presenceCredentialJson token)) = some token := by
  unfold parsePresenceCredential presenceCredentialJson
  simp (disch := decide) only [Option.bind_eq_bind, Option.bind_some, get_objectOf_same,
    get_objectOf_other]
  simp

theorem parseIdentity_json {identity : PresenceIdentity} (h : identity.Readable) :
    parseIdentity (some (identityJson identity)) = some identity := by
  obtain ⟨avatarUrl, name, userId⟩ := identity
  obtain ⟨hname, huser, havatar⟩ := h
  have hreadName := parseShortString_string ⟨name, hname⟩
  have hreadUser := parseShortString_string ⟨userId, huser⟩
  dsimp only at hreadName hreadUser
  unfold parseIdentity identityJson
  cases avatarUrl with
  | none =>
    simp (disch := decide) only [Option.bind_eq_bind, Option.bind_some, get_objectOf_same,
      get_objectOf_other, get_objectOf_nil]
    simp [hreadName, hreadUser]
  | some avatarUrl =>
    have hreadAvatar := parseShortString_string ⟨avatarUrl, havatar avatarUrl rfl⟩
    dsimp only at hreadAvatar
    simp (disch := decide) only [Option.bind_eq_bind, Option.bind_some, get_objectOf_same,
      get_objectOf_other]
    simp [hreadName, hreadUser, hreadAvatar]

theorem parse_awaitingAuthPresence (base : PresenceAttachmentBase) (connectedAt : SafeNat) :
    parsePresenceWebSocketAttachment (presenceAttachmentJson (.awaitingAuth base connectedAt)) =
      some (.awaitingAuth base connectedAt) := by
  unfold parsePresenceWebSocketAttachment parsePresenceBase presenceAttachmentJson
  simp (disch := decide) only [get_objectOf_same, get_objectOf_other]
  simp

theorem parse_authenticatedPresence {base : PresenceAttachmentBase}
    {snapshot : PresencePeerSnapshot} (h : snapshot.identity.Readable) :
    parsePresenceWebSocketAttachment (presenceAttachmentJson (.authenticated base snapshot)) =
      some (.authenticated base snapshot) := by
  have hphase : literal "authenticated" ≠ literal "awaiting-auth" := by decide
  unfold parsePresenceWebSocketAttachment parsePresenceBase presenceAttachmentJson
  simp (disch := decide) only [get_objectOf_same, get_objectOf_other]
  simp [hphase, parseIdentity_json h]

end ReadBack

end Softmaple.CollabHost

/-!
The presence identity the Worker resolves for a token
(`collab-cloudflare/src/supabase-presence-backend.ts`). Names and avatars come
from the database as they are there.
-/
namespace Softmaple.CollabHost

open Json

/-- The columns of `users` the hooks read. -/
structure UserRow where
  id : Text
  full_name : Option Text
  avatar_src : Option Text
  deriving DecidableEq, Repr

structure PresenceBackend where
  castUuid : Text → Option Text
  getClaims : Text → Option Text
  database : Database
  users : List UserRow

def identityFromUserRow (userId : Text) (row : UserRow) : PresenceIdentity where
  name :=
    match row.full_name.map trim with
    | none | some [] => literal "Workspace member"
    | some name => name
  userId := userId
  avatarUrl := row.avatar_src

namespace PresenceBackend

variable (backend : PresenceBackend)

def findUser (userId : Text) : Except QueryError (Option UserRow) :=
  match backend.castUuid userId with
  | none => .error .invalidUuid
  | some id => .ok (backend.users.find? fun row => row.id = id)

def resolveIdentity (token roomId claimedUserId : Text) :
    Except QueryError (Option PresenceIdentity) :=
  match backend.getClaims token with
  | none => .ok none
  | some userId =>
    if userId.length = 0 ∨ userId ≠ claimedUserId then .ok none
    else
      match findDocument backend.castUuid backend.database roomId with
      | .error error => .error error
      | .ok none => .ok none
      | .ok (some document) =>
        match findMember backend.castUuid backend.database userId document.workspace_id with
        | .error error => .error error
        | .ok none => .ok none
        | .ok (some _) =>
          match backend.findUser userId with
          | .error error => .error error
          | .ok none => .ok none
          | .ok (some user) => .ok (some (identityFromUserRow userId user))

end PresenceBackend

theorem identityFromUserRow_name (userId : Text) (row : UserRow) :
    0 < (identityFromUserRow userId row).name.length := by
  unfold identityFromUserRow
  dsimp only
  split
  · decide
  · decide
  · next name hempty _ => exact List.length_pos_iff.mpr hempty

theorem resolveIdentity_spec {backend : PresenceBackend} {token roomId claimedUserId : Text}
    {identity : PresenceIdentity}
    (h : backend.resolveIdentity token roomId claimedUserId = .ok (some identity)) :
    identity.userId = claimedUserId ∧ 0 < identity.name.length := by
  unfold PresenceBackend.resolveIdentity at h
  split at h
  · cases h
  · next userId _ =>
      split at h
      · cases h
      · next hclaimed =>
          rw [not_or, not_not] at hclaimed
          split at h
          · cases h
          · cases h
          · split at h
            · cases h
            · cases h
            · split at h
              · cases h
              · cases h
              · next user _ =>
                  cases h
                  exact ⟨hclaimed.2, identityFromUserRow_name userId user⟩

end Softmaple.CollabHost

/-!
The connections of a `PresenceRoomDO` (`presence-room-do.ts`,
`presence-room-implementation.ts`): what its room knows of each, what each
socket stores, and the steps that pass a snapshot to `persist`. A snapshot that
is too large is reported and dropped, and the room goes on.
-/
namespace Softmaple.CollabHost

open Json

def authorizationRefreshIntervalMs : Nat := 8000

def heartbeatExpiryMs : Nat := 30000

/-- What `Date.now()` gives: no time value is larger. -/
abbrev Instant := {value : Nat // value ≤ 8640000000000000}

def Instant.after (now : Instant) (delay : Nat) (h : delay ≤ 30000) : SafeNat :=
  ⟨now.val + delay, by
    have hnow := now.property
    unfold isSafeInteger maxSafeInteger
    rw [decide_eq_true_eq]
    omega⟩

/-- `PeerState` of an authenticated peer, but for its rate limit. -/
structure PresenceSession where
  authorizationExpiresAt : SafeNat
  connectionId : ShortString 256
  token : ShortString MAX_PRESENCE_TOKEN_LENGTH
  heartbeatExpiresAt : SafeNat
  identity : PresenceIdentity
  joined : Bool

/-- `DurableObjectPresencePeer` and the room's state of it. `persisted` is the last snapshot the
room passed to `persist`. -/
structure PresenceConnection where
  base : PresenceAttachmentBase
  stored : Json .value
  rateLimit : Json .value
  session : Option PresenceSession
  persisted : Option PresencePeerSnapshot

inductive PresenceAction where
  | receive
  | quota (rateLimit : Json .value)
  | auth (payload : PresenceAuthPayload) (backend : PresenceBackend) (now : Instant)
  | refresh (backend : PresenceBackend) (now : Instant)
  | rearmHeartbeat (now : Instant)
  | join
  | wake (backend : PresenceBackend) (now : Instant)
  | close

namespace PresenceConnection

def accept (roomId : DocumentId) (peerId : PeerId) (now : Instant) : PresenceConnection where
  base := ⟨peerId, roomId⟩
  stored := presenceAttachmentJson
    (createAwaitingAuthPresence roomId peerId (now.after 0 (by decide)))
  rateLimit := .null
  session := none
  persisted := none

def snapshotOf (rateLimit : Json .value) (session : PresenceSession) : PresencePeerSnapshot where
  authorizationExpiresAt := session.authorizationExpiresAt
  connectionId := session.connectionId
  token := session.token
  heartbeatExpiresAt := session.heartbeatExpiresAt
  identity := session.identity
  joined := session.joined
  rateLimit := rateLimit

/-- `persist`: an attachment over the budget throws, and the room only reports it. -/
def persist (connection : PresenceConnection) (snapshot : PresencePeerSnapshot) :
    PresenceConnection :=
  let attachment := presenceAttachmentJson (attachmentAfterSnapshot connection.base snapshot)
  { connection with
    stored :=
      if jsonBytes attachment > MAX_PERSISTED_PRESENCE_BYTES then connection.stored else attachment
    persisted := some snapshot }

/-- `persistSnapshot`: nothing to persist before a session. -/
def persistSnapshot (connection : PresenceConnection) : PresenceConnection :=
  match connection.session with
  | none => connection
  | some session => connection.persist (snapshotOf connection.rateLimit session)

def withSession (connection : PresenceConnection) (session : PresenceSession) :
    PresenceConnection :=
  { connection with session := some session }

/-- A message finds its socket's attachment, or closes the socket. -/
def receive (connection : PresenceConnection) : Option PresenceConnection :=
  match parsePresenceWebSocketAttachment connection.stored with
  | none => none
  | some _ => some connection

def authenticate (connection : PresenceConnection) (payload : PresenceAuthPayload)
    (backend : PresenceBackend) (now : Instant) : Option PresenceConnection :=
  if connection.session.isSome then none
  else
    match backend.resolveIdentity payload.token.val connection.base.roomId.val
        payload.userId.val with
    | .error _ | .ok none => none
    | .ok (some identity) =>
      some (connection.withSession
        { authorizationExpiresAt := now.after authorizationRefreshIntervalMs (by decide)
          connectionId := payload.connectionId
          token := payload.token
          heartbeatExpiresAt := ⟨0, isSafeInteger_zero⟩
          identity := identity
          joined := false }).persistSnapshot

def refreshIdentity (connection : PresenceConnection) (token : Text) (identity : PresenceIdentity)
    (backend : PresenceBackend) : Option PresenceIdentity :=
  match backend.resolveIdentity token connection.base.roomId.val identity.userId with
  | .error _ | .ok none => none
  | .ok (some refreshed) => if refreshed.userId ≠ identity.userId then none else some refreshed

def refresh (connection : PresenceConnection) (backend : PresenceBackend) (now : Instant) :
    Option PresenceConnection :=
  match connection.session with
  | none => some connection
  | some session =>
    if session.authorizationExpiresAt.val > now.val then some connection
    else
      match connection.refreshIdentity session.token.val session.identity backend with
      | none => none
      | some identity =>
        some (connection.withSession { session with
            identity := identity
            authorizationExpiresAt := now.after authorizationRefreshIntervalMs (by decide)
            }).persistSnapshot

def rearmHeartbeat (connection : PresenceConnection) (now : Instant) : PresenceConnection :=
  match connection.session with
  | none => connection
  | some session =>
    (connection.withSession
      { session with heartbeatExpiresAt := now.after heartbeatExpiryMs (by decide) }).persistSnapshot

def join (connection : PresenceConnection) : Option PresenceConnection :=
  match connection.session with
  | none => some connection
  | some session =>
    if session.joined then none
    else some (connection.withSession { session with joined := true }).persistSnapshot

/-- The object was evicted and a new one restores the socket. -/
def wake (connection : PresenceConnection) (backend : PresenceBackend) (now : Instant) :
    Option PresenceConnection :=
  match parsePresenceWebSocketAttachment connection.stored with
  | none => none
  | some (.awaitingAuth _ _) => some { connection with rateLimit := .null, session := none }
  | some (.authenticated _ snapshot) =>
    match connection.refreshIdentity snapshot.token.val snapshot.identity backend with
    | none => none
    | some identity =>
      some { connection with
        rateLimit := snapshot.rateLimit
        session := some
          { authorizationExpiresAt := now.after authorizationRefreshIntervalMs (by decide)
            connectionId := snapshot.connectionId
            token := snapshot.token
            heartbeatExpiresAt := snapshot.heartbeatExpiresAt
            identity := identity
            joined := snapshot.joined } }

/-- What happens to the connection; none when it is closed. -/
def step (connection : PresenceConnection) : PresenceAction → Option PresenceConnection
  | .receive => connection.receive
  | .quota rateLimit => some { connection with rateLimit }.persistSnapshot
  | .auth payload backend now => connection.authenticate payload backend now
  | .refresh backend now => connection.refresh backend now
  | .rearmHeartbeat now => some (connection.rearmHeartbeat now)
  | .join => connection.join
  | .wake backend now => connection.wake backend now
  | .close => none

/-- Whether the authentication deadline passed on a socket that still awaits its `Auth`. -/
def isPastAuthDeadline (connection : PresenceConnection) (now : Instant) : Bool :=
  match parsePresenceWebSocketAttachment connection.stored with
  | some (.awaitingAuth _ connectedAt) => decide (authDeadlineFrom connectedAt.val ≤ now.val)
  | _ => false

end PresenceConnection

/-- The open sockets of the object, each under a number of its own. -/
structure PresenceObject where
  sockets : Nat → Option PresenceConnection

inductive PresenceObjectAction where
  | accept (socket : Nat) (peerId : PeerId) (now : Instant)
  | socket (socket : Nat) (action : PresenceAction)
  | alarm (now : Instant)

namespace PresenceObject

def start : PresenceObject := ⟨fun _ => none⟩

def set (object : PresenceObject) (socket : Nat) (connection : Option PresenceConnection) :
    PresenceObject :=
  ⟨fun other => if other = socket then connection else object.sockets other⟩

theorem set_sockets (object : PresenceObject) (socket other : Nat)
    (connection : Option PresenceConnection) :
    (object.set socket connection).sockets other =
      if other = socket then connection else object.sockets other := rfl

/-- The sweep of the authentication deadline. -/
def alarm (object : PresenceObject) (now : Instant) : PresenceObject :=
  ⟨fun socket => (object.sockets socket).filter fun connection => !connection.isPastAuthDeadline now⟩

def step (roomId : DocumentId) (object : PresenceObject) : PresenceObjectAction → PresenceObject
  | .accept socket peerId now =>
    match object.sockets socket with
    | none => object.set socket (some (.accept roomId peerId now))
    | some _ => object
  | .socket socket action =>
    match object.sockets socket with
    | none => object
    | some connection => object.set socket (connection.step action)
  | .alarm now => object.alarm now

def run (roomId : DocumentId) (object : PresenceObject) (actions : List PresenceObjectAction) :
    PresenceObject :=
  actions.foldl (step roomId) object

end PresenceObject

end Softmaple.CollabHost
