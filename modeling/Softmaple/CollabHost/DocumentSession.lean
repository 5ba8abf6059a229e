import Softmaple.CollabHost.Protocol

/-!
Sessions of a document room (`collab-runtime/src/document-session.ts`) and what
`RuntimeDocumentRoom` decides about them: whether an `Auth` message is accepted,
and whether a refreshed access still belongs to the session.
-/
namespace Softmaple.CollabHost

inductive DocumentAccess where
  | authenticated (actorId : Text) (canWrite : Bool) (role : CollabRole)
  | publicAccess
  deriving DecidableEq, Repr

namespace DocumentAccess

def accessMode : DocumentAccess → CollabAccessMode
  | .authenticated _ _ _ => .authenticated
  | .publicAccess => .publicAccess

def actorId : DocumentAccess → Option Text
  | .authenticated actorId _ _ => some actorId
  | .publicAccess => none

end DocumentAccess

inductive DocumentSession where
  | authenticated (documentId sessionId : Text) (protocolVersion : ProtocolVersion)
      (actorId : Text) (canWrite : Bool) (role : CollabRole)
  | publicAccess (documentId sessionId : Text)
  deriving DecidableEq, Repr

namespace DocumentSession

def documentId : DocumentSession → Text
  | .authenticated documentId _ _ _ _ _ | .publicAccess documentId _ => documentId

def sessionId : DocumentSession → Text
  | .authenticated _ sessionId _ _ _ _ | .publicAccess _ sessionId => sessionId

def protocolVersion : DocumentSession → ProtocolVersion
  | .authenticated _ _ protocolVersion _ _ _ => protocolVersion
  | .publicAccess _ _ => .current

def accessMode : DocumentSession → CollabAccessMode
  | .authenticated _ _ _ _ _ _ => .authenticated
  | .publicAccess _ _ => .publicAccess

def actorId : DocumentSession → Option Text
  | .authenticated _ _ _ actorId _ _ => some actorId
  | .publicAccess _ _ => none

structure SameIdentity (session other : DocumentSession) : Prop where
  documentId : session.documentId = other.documentId
  sessionId : session.sessionId = other.sessionId
  protocolVersion : session.protocolVersion = other.protocolVersion
  accessMode : session.accessMode = other.accessMode
  actorId : session.actorId = other.actorId

namespace SameIdentity

theorem refl (session : DocumentSession) : SameIdentity session session :=
  ⟨rfl, rfl, rfl, rfl, rfl⟩

theorem trans {session other third : DocumentSession} (h : SameIdentity session other)
    (hother : SameIdentity other third) : SameIdentity session third :=
  ⟨h.documentId.trans hother.documentId, h.sessionId.trans hother.sessionId,
    h.protocolVersion.trans hother.protocolVersion, h.accessMode.trans hother.accessMode,
    h.actorId.trans hother.actorId⟩

end SameIdentity

end DocumentSession

def sessionFromAccess (documentId sessionId : Text) (protocolVersion : ProtocolVersion) :
    DocumentAccess → DocumentSession
  | .publicAccess => .publicAccess documentId sessionId
  | .authenticated actorId canWrite role =>
    .authenticated documentId sessionId protocolVersion actorId canWrite role

def accessMatchesSessionIdentity (access : DocumentAccess) (session : DocumentSession) : Bool :=
  decide (access.accessMode = session.accessMode ∧ access.actorId = session.actorId)

def sessionWithRefreshedAccess (session : DocumentSession) (access : DocumentAccess) :
    DocumentSession :=
  sessionFromAccess session.documentId session.sessionId session.protocolVersion access

/-- A legacy session is authenticated, so nothing is left to throw. -/
def readyMessage : DocumentSession → ReadyMessage
  | .authenticated documentId _ .legacy actorId canWrite role =>
    .legacy documentId actorId role canWrite
  | .authenticated documentId _ .current actorId canWrite role =>
    .current .authenticated documentId (some actorId) (some role) canWrite
  | .publicAccess documentId _ => .current .publicAccess documentId none none false

/-- What `authenticate` makes of the answer of the authorization hook. -/
inductive Authentication where
  | unauthorized
  | legacyPublicUnsupported
  | admitted (credential : CollabCredential) (session : DocumentSession)
  deriving DecidableEq

def authenticate (documentId : Text) (message : AuthMessage) (access : Option DocumentAccess) :
    Authentication :=
  if message.documentId ≠ documentId then .unauthorized
  else
    match access with
    | none => .unauthorized
    | some access =>
      if message.protocolVersion = .legacy ∧ access.accessMode ≠ .authenticated then
        .legacyPublicUnsupported
      else
        .admitted (credentialFromAuth message)
          (sessionFromAccess documentId message.sessionId message.protocolVersion access)

def refreshSession (session : DocumentSession) (access : Option DocumentAccess) :
    Option DocumentSession :=
  match access with
  | none => none
  | some access =>
    if accessMatchesSessionIdentity access session then
      some (sessionWithRefreshedAccess session access)
    else none

/-- `DocumentRoomResumeState`. -/
structure ResumeState where
  credential : CollabCredential
  session : DocumentSession
  deriving DecidableEq

def resumeSession (documentId : Text) (resumed : ResumeState) (access : Option DocumentAccess) :
    Option DocumentSession :=
  if resumed.session.documentId ≠ documentId then none
  else refreshSession resumed.session access

theorem accessMatchesSessionIdentity_iff (access : DocumentAccess) (session : DocumentSession) :
    accessMatchesSessionIdentity access session = true ↔
      access.accessMode = session.accessMode ∧ access.actorId = session.actorId := by
  rw [accessMatchesSessionIdentity, decide_eq_true_eq]

variable {session : DocumentSession}

theorem sameIdentity_sessionWithRefreshedAccess
    {access : DocumentAccess} (h : accessMatchesSessionIdentity access session = true) :
    (sessionWithRefreshedAccess session access).SameIdentity session := by
  rw [accessMatchesSessionIdentity_iff] at h
  cases access with
  | authenticated actorId canWrite role =>
    cases session with
    | authenticated => exact ⟨rfl, rfl, rfl, rfl, h.2⟩
    | publicAccess => cases h.1
  | publicAccess =>
    cases session with
    | authenticated => cases h.1
    | publicAccess => exact ⟨rfl, rfl, rfl, rfl, rfl⟩

theorem sameIdentity_refreshSession {refreshed : DocumentSession}
    {access : Option DocumentAccess} (h : refreshSession session access = some refreshed) :
    refreshed.SameIdentity session := by
  cases access with
  | none => cases h
  | some access =>
    unfold refreshSession at h
    dsimp only at h
    split at h
    · next hmatch =>
        cases h
        exact sameIdentity_sessionWithRefreshedAccess hmatch
    · cases h

theorem refreshSession_isSome {access : DocumentAccess}
    (h : accessMatchesSessionIdentity access session = true) :
    refreshSession session (some access) = some (sessionWithRefreshedAccess session access) :=
  if_pos h

end Softmaple.CollabHost
