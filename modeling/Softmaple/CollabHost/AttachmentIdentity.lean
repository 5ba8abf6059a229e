import Softmaple.CollabHost.DocumentId
import Softmaple.CollabHost.DocumentSession

/-!
What a document socket carries through hibernation
(`collab-cloudflare/src/websocket-attachment.ts`): the messages that opened the
session, from which a woken object rebuilds it.
-/
namespace Softmaple.CollabHost

open Json

def ATTACHMENT_VERSION : Int := 1

/-- A count or an instant: a safe integer that is not negative. -/
abbrev SafeNat := {value : Nat // isSafeInteger value = true}

structure MessageQuota where
  count : SafeNat
  windowStartedAt : SafeNat
  deriving DecidableEq

structure AttachmentBase where
  documentId : DocumentId
  peerId : PeerId
  quota : MessageQuota
  deriving DecidableEq

structure AuthenticatedAttachment where
  base : AttachmentBase
  auth : AuthMessage
  ready : ReadyMessage
  validatedAt : SafeNat
  deriving DecidableEq

inductive DocumentWebSocketAttachment where
  | awaitingAuth (base : AttachmentBase) (connectedAt : SafeNat)
  | authenticated (attachment : AuthenticatedAttachment)
  deriving DecidableEq

def DocumentWebSocketAttachment.base : DocumentWebSocketAttachment → AttachmentBase
  | .awaitingAuth base _ => base
  | .authenticated attachment => attachment.base

/-- Whether the two messages describe one session of the document. -/
def hasConsistentIdentity (documentId : Text) (auth : AuthMessage) (ready : ReadyMessage) : Bool :=
  if auth.documentId ≠ documentId ∨ ready.documentId ≠ documentId ∨
      auth.protocolVersion ≠ ready.protocolVersion then false
  else
    match auth, ready with
    | .legacy _ _ _, ready => decide (ready.protocolVersion = .legacy)
    | .current _ _ _, .legacy _ _ _ _ => false
    | .current credential _ _, .current accessMode _ userId role _ =>
      if accessMode = .authenticated ∧ (userId = none ∨ role = none) then false
      else
        match credential with
        | .publicAccess => decide (accessMode = .publicAccess)
        | .accessToken _ => decide (accessMode = .authenticated)

section Stored

def natural (value : SafeNat) : Json .value := .number value.val

def isNonNegativeInteger (value : Option (Json .value)) : Option SafeNat := do
  let read ← asNumber value
  if h : 0 ≤ read ∧ isSafeInteger read.natAbs = true then some ⟨read.natAbs, h.2⟩ else none

def parsePeerId (text : Text) : Option PeerId :=
  if h : isPeerId text = true then some ⟨text, h⟩ else none

def quotaJson (quota : MessageQuota) : Json .value :=
  objectOf [("count", natural quota.count), ("windowStartedAt", natural quota.windowStartedAt)]

def parseQuota (value : Option (Json .value)) : Option MessageQuota := do
  let record ← value
  if !record.isRecord then none
  else
    let count ← isNonNegativeInteger (record.get "count")
    let windowStartedAt ← isNonNegativeInteger (record.get "windowStartedAt")
    return ⟨count, windowStartedAt⟩

/-- The attachment as `serializeAttachment` clones it. -/
def attachmentJson : DocumentWebSocketAttachment → Json .value
  | .awaitingAuth base connectedAt =>
    objectOf [("connectedAt", natural connectedAt), ("documentId", .string base.documentId.val),
      ("peerId", .string base.peerId.val), ("phase", .string (literal "awaiting-auth")),
      ("quota", quotaJson base.quota), ("version", .number ATTACHMENT_VERSION)]
  | .authenticated attachment =>
    objectOf [("auth", authJson attachment.auth),
      ("documentId", .string attachment.base.documentId.val),
      ("peerId", .string attachment.base.peerId.val),
      ("phase", .string (literal "authenticated")), ("quota", quotaJson attachment.base.quota),
      ("ready", readyJson attachment.ready), ("validatedAt", natural attachment.validatedAt),
      ("version", .number ATTACHMENT_VERSION)]

def parseBase (value : Json .value) : Option AttachmentBase := do
  if !value.isRecord ∨ asNumber (value.get "version") ≠ some ATTACHMENT_VERSION then none
  else
    let documentId ← asString (value.get "documentId") >>= parseDocumentId
    let peerId ← asString (value.get "peerId") >>= parsePeerId
    let quota ← parseQuota (value.get "quota")
    return ⟨documentId, peerId, quota⟩

def parseDocumentWebSocketAttachment (value : Json .value) :
    Option DocumentWebSocketAttachment := do
  let base ← parseBase value
  if asString (value.get "phase") = some (literal "awaiting-auth") then
    return .awaitingAuth base (← isNonNegativeInteger (value.get "connectedAt"))
  else if asString (value.get "phase") ≠ some (literal "authenticated") then none
  else
    let validatedAt ← isNonNegativeInteger (value.get "validatedAt")
    let auth ← value.get "auth" >>= parseAuth
    let ready ← value.get "ready" >>= parseReady
    if hasConsistentIdentity base.documentId.val auth ready then
      return .authenticated ⟨base, auth, ready, validatedAt⟩
    else none

end Stored

def createAwaitingAuthAttachment (documentId : DocumentId) (peerId : PeerId) (now : SafeNat) :
    DocumentWebSocketAttachment :=
  .awaitingAuth ⟨documentId, peerId, ⟨⟨0, isSafeInteger_zero⟩, now⟩⟩ now

def sessionFromMessages (auth : AuthMessage) (ready : ReadyMessage) : Option DocumentSession :=
  if !hasConsistentIdentity auth.documentId auth ready then none
  else
    match auth, ready with
    | .legacy _ documentId sessionId, .legacy _ userId role canWrite =>
      some (.authenticated documentId.val sessionId.val .legacy userId canWrite role)
    | .current _ documentId sessionId, .current .publicAccess _ _ _ _ =>
      some (.publicAccess documentId.val sessionId.val)
    | .current _ documentId sessionId, .current .authenticated _ (some userId) (some role) canWrite =>
      some (.authenticated documentId.val sessionId.val .current userId canWrite role)
    | _, _ => none

def resumeStateFromAttachment (attachment : AuthenticatedAttachment) : Option ResumeState :=
  match sessionFromMessages attachment.auth attachment.ready with
  | none => none
  | some session => some ⟨credentialFromAuth attachment.auth, session⟩

def readyFromSession : DocumentSession → ReadyMessage
  | .authenticated documentId _ .legacy actorId canWrite role =>
    .legacy documentId actorId role canWrite
  | .authenticated documentId _ .current actorId canWrite role =>
    .current .authenticated documentId (some actorId) (some role) canWrite
  | .publicAccess documentId _ => .current .publicAccess documentId none none false

def attachmentAfterReady (attachment : DocumentWebSocketAttachment) (auth : AuthMessage)
    (ready : ReadyMessage) (validatedAt : SafeNat) : Option AuthenticatedAttachment :=
  if !hasConsistentIdentity attachment.base.documentId.val auth ready then none
  else some ⟨attachment.base, auth, ready, validatedAt⟩

def attachmentAfterResume (attachment : AuthenticatedAttachment) (session : DocumentSession)
    (validatedAt : SafeNat) : Option AuthenticatedAttachment :=
  if hasConsistentIdentity attachment.base.documentId.val attachment.auth
      (readyFromSession session) then
    some { attachment with ready := readyFromSession session, validatedAt }
  else none

def attachmentWithQuota (attachment : DocumentWebSocketAttachment) (quota : MessageQuota) :
    DocumentWebSocketAttachment :=
  match attachment with
  | .awaitingAuth base connectedAt => .awaitingAuth { base with quota } connectedAt
  | .authenticated attachment =>
    .authenticated { attachment with base := { attachment.base with quota } }

end Softmaple.CollabHost

namespace Softmaple.CollabHost

open Json

/-- The `Auth` message opened a session of this identity. -/
structure Describes (auth : AuthMessage) (session : DocumentSession) : Prop where
  documentId : auth.documentId = session.documentId
  sessionId : auth.sessionId = session.sessionId
  protocolVersion : auth.protocolVersion = session.protocolVersion
  accessMode : session.accessMode = .publicAccess ↔ credentialFromAuth auth = .publicAccess

variable {auth : AuthMessage} {session : DocumentSession}

theorem Describes.of_sameIdentity {other : DocumentSession}
    (h : Describes auth session) (hsame : other.SameIdentity session) : Describes auth other where
  documentId := h.documentId.trans hsame.documentId.symm
  sessionId := h.sessionId.trans hsame.sessionId.symm
  protocolVersion := h.protocolVersion.trans hsame.protocolVersion.symm
  accessMode := by rw [hsame.accessMode, h.accessMode]

@[simp]
theorem readyFromSession_eq (session : DocumentSession) :
    readyFromSession session = readyMessage session := by
  cases session with
  | authenticated _ _ protocolVersion => cases protocolVersion <;> rfl
  | publicAccess => rfl

@[simp]
theorem readyMessage_documentId (session : DocumentSession) :
    (readyMessage session).documentId = session.documentId := by
  cases session with
  | authenticated _ _ protocolVersion => cases protocolVersion <;> rfl
  | publicAccess => rfl

@[simp]
theorem readyMessage_protocolVersion (session : DocumentSession) :
    (readyMessage session).protocolVersion = session.protocolVersion := by
  cases session with
  | authenticated _ _ protocolVersion => cases protocolVersion <;> rfl
  | publicAccess => rfl

def HasReadableActor (session : DocumentSession) : Prop :=
  ∀ actorId ∈ session.actorId, isNonEmptyString actorId = true

theorem readable_readyMessage
    (hdocument : isNonEmptyString session.documentId = true) (hactor : HasReadableActor session) :
    (readyMessage session).Readable := by
  cases session with
  | authenticated documentId sessionId protocolVersion actorId canWrite role =>
    have hid := hactor actorId rfl
    cases protocolVersion with
    | current =>
      refine ⟨hdocument, ?_, fun hmode => by cases hmode⟩
      intro id hmem
      cases hmem
      exact hid
    | legacy => exact ⟨hdocument, hid⟩
  | publicAccess documentId sessionId =>
    refine ⟨hdocument, ?_, fun _ => ⟨rfl, rfl, rfl⟩⟩
    intro id hmem
    cases hmem

theorem hasConsistentIdentity_of_describes (h : Describes auth session) :
    hasConsistentIdentity session.documentId auth (readyMessage session) = true := by
  unfold hasConsistentIdentity
  rw [readyMessage_documentId, readyMessage_protocolVersion, h.documentId, h.protocolVersion,
    if_neg (by simp)]
  have haccess := h.accessMode
  have hversion := h.protocolVersion
  cases session with
  | authenticated documentId sessionId protocolVersion actorId canWrite role =>
    cases auth with
    | legacy accessToken authDocumentId authSessionId =>
      cases hversion
      rfl
    | current credential authDocumentId authSessionId =>
      cases hversion
      cases credential with
      | accessToken token => rfl
      | publicAccess => cases haccess.mpr rfl
  | publicAccess documentId sessionId =>
    cases auth with
    | legacy accessToken authDocumentId authSessionId => cases hversion
    | current credential authDocumentId authSessionId =>
      cases credential with
      | accessToken token => cases haccess.mp rfl
      | publicAccess => rfl

theorem sessionFromMessages_of_describes (h : Describes auth session) :
    sessionFromMessages auth (readyMessage session) = some session := by
  have hconsistent := hasConsistentIdentity_of_describes h
  have hdocument := h.documentId
  have hsession := h.sessionId
  have hversion := h.protocolVersion
  unfold sessionFromMessages
  rw [h.documentId, hconsistent, if_neg (by simp)]
  cases session with
  | authenticated documentId sessionId protocolVersion actorId canWrite role =>
    cases auth with
    | legacy accessToken authDocumentId authSessionId =>
      cases hversion
      cases hdocument
      cases hsession
      rfl
    | current credential authDocumentId authSessionId =>
      cases hversion
      cases hdocument
      cases hsession
      rfl
  | publicAccess documentId sessionId =>
    cases auth with
    | legacy accessToken authDocumentId authSessionId => cases hversion
    | current credential authDocumentId authSessionId =>
      cases hdocument
      cases hsession
      rfl

section Stored

@[simp]
theorem isNonNegativeInteger_natural (value : SafeNat) :
    isNonNegativeInteger (some (natural value)) = some value := by
  have hsafe : 0 ≤ (value.val : Int) ∧ isSafeInteger (value.val : Int).natAbs = true :=
    ⟨Int.natCast_nonneg _, value.property⟩
  unfold isNonNegativeInteger natural
  rw [asNumber_number, Option.bind_eq_bind, Option.bind_some, dif_pos hsafe]
  rfl

@[simp]
theorem parseQuota_quotaJson (quota : MessageQuota) : parseQuota (some (quotaJson quota)) = some quota := by
  unfold parseQuota quotaJson
  simp (disch := decide) only [Option.bind_eq_bind, Option.bind_some, get_objectOf_same,
    get_objectOf_other]
  simp

@[simp]
theorem parseDocumentId_val (documentId : DocumentId) :
    parseDocumentId documentId.val = some documentId := by
  rw [parseDocumentId, dif_pos documentId.property]

@[simp]
theorem parsePeerId_val (peerId : PeerId) : parsePeerId peerId.val = some peerId := by
  rw [parsePeerId, dif_pos peerId.property]

theorem parse_awaitingAuth (base : AttachmentBase) (connectedAt : SafeNat) :
    parseDocumentWebSocketAttachment (attachmentJson (.awaitingAuth base connectedAt)) =
      some (.awaitingAuth base connectedAt) := by
  unfold parseDocumentWebSocketAttachment parseBase attachmentJson
  simp (disch := decide) only [get_objectOf_same, get_objectOf_other]
  simp

theorem parse_authenticated {attachment : AuthenticatedAttachment}
    (hready : attachment.ready.Readable)
    (hconsistent : hasConsistentIdentity attachment.base.documentId.val attachment.auth
      attachment.ready = true) :
    parseDocumentWebSocketAttachment (attachmentJson (.authenticated attachment)) =
      some (.authenticated attachment) := by
  have hphase : literal "authenticated" ≠ literal "awaiting-auth" := by decide
  unfold parseDocumentWebSocketAttachment parseBase attachmentJson
  simp (disch := decide) only [get_objectOf_same, get_objectOf_other]
  simp [hphase, parseAuth_authJson, parseReady_readyJson hready, hconsistent]

theorem parse_authenticated_ne_awaitingAuth (attachment : AuthenticatedAttachment)
    (base : AttachmentBase) (connectedAt : SafeNat) :
    parseDocumentWebSocketAttachment (attachmentJson (.authenticated attachment)) ≠
      some (.awaitingAuth base connectedAt) := by
  have hphase : literal "authenticated" ≠ literal "awaiting-auth" := by decide
  intro h
  unfold parseDocumentWebSocketAttachment parseBase attachmentJson at h
  simp (disch := decide) only [get_objectOf_same, get_objectOf_other] at h
  simp [hphase, Option.bind_eq_some_iff] at h

end Stored

theorem resumeStateFromAttachment_of_describes {base : AttachmentBase}
    {validatedAt : SafeNat} (h : Describes auth session) :
    resumeStateFromAttachment ⟨base, auth, readyMessage session, validatedAt⟩ =
      some ⟨credentialFromAuth auth, session⟩ := by
  unfold resumeStateFromAttachment
  rw [sessionFromMessages_of_describes h]

theorem describes_of_authenticate {documentId : Text} {access : DocumentAccess}
    {credential : CollabCredential}
    (h : authenticate documentId auth (some access) = .admitted credential session)
    (hmode : access.accessMode = .publicAccess ↔ credentialFromAuth auth = .publicAccess) :
    credential = credentialFromAuth auth ∧ session.documentId = documentId ∧
      session.actorId = access.actorId ∧ Describes auth session := by
  unfold authenticate at h
  dsimp only at h
  split at h
  · cases h
  · next hdocument =>
      rw [not_not] at hdocument
      split at h
      · cases h
      · next hlegacy =>
          cases h
          cases access with
          | authenticated actorId canWrite role =>
            exact ⟨rfl, rfl, rfl, hdocument, rfl, rfl, hmode⟩
          | publicAccess =>
            refine ⟨rfl, rfl, rfl, hdocument, rfl, ?_, hmode⟩
            cases hversion : auth.protocolVersion with
            | current => rfl
            | legacy =>
              exact absurd ⟨hversion, fun hauthenticated => by cases hauthenticated⟩ hlegacy

end Softmaple.CollabHost
