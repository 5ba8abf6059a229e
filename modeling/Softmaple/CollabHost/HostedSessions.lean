import Softmaple.CollabHost.AttachedSession

/-!
A session that a host grants can be stored and resumed, and the other host
grants it too, unless a token's user is no member of a public document: the
Worker grants such a token public access, which its own attachment refuses, and
Nitro grants none.
-/
namespace Softmaple.CollabHost

open Json

/-- The `Ready` of the session can be stored, the stored attachment gives the session back, and
after every later run it still gives a session of the same identity that a woken object resumes. -/
def Reconnects (connection : Connection) (auth : AuthMessage) (credential : CollabCredential)
    (session : DocumentSession) (now : SafeNat) : Prop :=
  ∃ ready, connection.persistReady auth credential session now = some ready ∧
    ready.resumable = some ⟨credential, session⟩ ∧
    ∀ actions later, ready.run actions = some later →
      (∃ resumed, later.resumable = some ⟨credential, resumed⟩ ∧ resumed.SameIdentity session) ∧
        ∀ access wokenAt, accessMatchesSessionIdentity access session = true →
          (later.wake (some access) wokenAt).isSome = true

section Hosted

variable (castUuid : Text → Option Text) (getClaims : Text → Option Text) (database : Database)
  (documentId : DocumentId)

/-- Every session the Worker accepts for the message reconnects, and Nitro grants the same access. -/
def Hosted (connection : Connection) (auth : AuthMessage) (now : SafeNat) : Prop :=
  (∀ access credential session,
    Supabase.authorize castUuid getClaims database (credentialFromAuth auth) documentId.val =
        .ok (some access) →
      authenticate documentId.val auth (some access) = .admitted credential session →
      Reconnects connection auth credential session now) ∧
    Prisma.authorize castUuid getClaims database (credentialFromAuth auth) documentId.val =
      Supabase.authorize castUuid getClaims database (credentialFromAuth auth) documentId.val

end Hosted

theorem persistReady_attached {documentId : DocumentId} {connection : Connection}
    (hwaiting : connection.Waiting documentId) {auth : AuthMessage} {session : DocumentSession}
    (hdescribes : Describes auth session) (hdocument : session.documentId = documentId.val)
    (now : SafeNat) :
    ∃ ready base, connection.persistReady auth (credentialFromAuth auth) session now = some ready ∧
      base.documentId.val = session.documentId ∧
      ready.attachment = .authenticated ⟨base, auth, readyMessage session, now⟩ ∧
      ready.Attached auth session ∧
      ready.stored = attachmentJson (.authenticated ⟨base, auth, readyMessage session, now⟩) := by
  obtain ⟨⟨base, connectedAt, hbase, hattachment, -⟩, -⟩ := hwaiting
  have hid : base.documentId.val = session.documentId := by rw [hbase, hdocument]
  have hconsistent := hasConsistentIdentity_of_describes hdescribes
  rw [← hid] at hconsistent
  have hready : attachmentAfterReady connection.attachment auth (readyMessage session) now =
      some ⟨base, auth, readyMessage session, now⟩ := by
    rw [hattachment]
    exact if_neg (by simp only [DocumentWebSocketAttachment.base, hconsistent]; decide)
  refine ⟨⟨.authenticated ⟨base, auth, readyMessage session, now⟩, _,
    some ⟨credentialFromAuth auth, session⟩⟩, base, ?_, hid, rfl, ?_, rfl⟩
  · unfold Connection.persistReady
    rw [hready]
    rfl
  · exact ⟨⟨base, session, now, hid, .refl session, rfl, rfl⟩, ⟨session, .refl session, rfl⟩⟩

theorem reconnects_of_describes {documentId : DocumentId} {connection : Connection}
    (hwaiting : connection.Waiting documentId) {auth : AuthMessage} {session : DocumentSession}
    (hdescribes : Describes auth session) (hactor : HasReadableActor session)
    (hdocument : session.documentId = documentId.val) (now : SafeNat) :
    Reconnects connection auth (credentialFromAuth auth) session now := by
  obtain ⟨ready, base, hpersist, hid, hattachment, hattached, hstored⟩ :=
    persistReady_attached hwaiting hdescribes hdocument now
  refine ⟨ready, hpersist, ?_, ?_⟩
  · unfold Connection.resumable
    rw [hstored, Connection.parse_attached hdescribes hactor hid (.refl session)]
    exact resumeStateFromAttachment_of_describes hdescribes
  · intro actions later hrun
    have hlater := Connection.attached_run hdescribes hactor hattached hrun
    constructor
    · exact Connection.resumable_of_attached hdescribes hactor hlater
    · intro access wokenAt hmatch
      exact Connection.wake_isSome_of_attached hdescribes hactor hlater hmatch wokenAt

theorem session_hosted_iff {castUuid getClaims : Text → Option Text} {database : Database}
    (hblank : ∀ text, (castUuid text).isSome = true → isNonEmptyString text = true)
    (hcanonical : ∀ documentId : DocumentId, castUuid documentId.val = some documentId.val)
    {documentId : DocumentId} {peerId : PeerId} {acceptedAt : SafeNat}
    {actions : List ConnectionAction} {connection : Connection}
    (hrun : (Connection.accept documentId peerId acceptedAt).run actions = some connection)
    (hlive : connection.live = none) (auth : AuthMessage) (now : SafeNat) :
    Hosted castUuid getClaims database documentId connection auth now ↔
      ¬TokenOfNonMember castUuid getClaims database (credentialFromAuth auth) documentId.val := by
  have hagree : Prisma.authorize castUuid getClaims database (credentialFromAuth auth)
      documentId.val = Supabase.authorize castUuid getClaims database (credentialFromAuth auth)
        documentId.val ↔
      ¬TokenOfNonMember castUuid getClaims database (credentialFromAuth auth) documentId.val :=
    hooks_agree_iff (hcanonical documentId)
  constructor
  · intro h
    exact hagree.mp h.2
  · intro hmember
    refine ⟨?_, hagree.mpr hmember⟩
    intro access credential session haccess hauthenticate
    have hwaiting := Connection.waiting_run (Connection.waiting_accept documentId peerId acceptedAt)
      hrun hlive
    have hgranted : (access.accessMode = .publicAccess ↔ credentialFromAuth auth = .publicAccess) ∧
        ∀ actorId ∈ access.actorId, isNonEmptyString actorId = true := by
      obtain ⟨hcredential, rfl⟩ | ⟨hnonmember, -⟩ | ⟨token, userId, canWrite, role, hcredential,
        rfl, hcast⟩ := supabase_access_cases haccess
      · exact ⟨iff_of_true rfl hcredential, fun actorId hmem => by cases hmem⟩
      · exact absurd hnonmember hmember
      · refine ⟨iff_of_false (fun h => by cases h) (fun h => ?_), ?_⟩
        · rw [hcredential] at h
          cases h
        · intro actorId hmem
          cases hmem
          exact hblank userId hcast
    obtain ⟨rfl, hdocument, hactorId, hdescribes⟩ :=
      describes_of_authenticate hauthenticate hgranted.1
    have hactor : HasReadableActor session := by
      intro actorId hmem
      rw [hactorId] at hmem
      exact hgranted.2 actorId hmem
    exact reconnects_of_describes hwaiting hdescribes hactor hdocument now

section PublicDocument

def sampleDocumentId : DocumentId :=
  ⟨literal "3f2504e0-4f89-41d3-9a0c-0305e82c3301", by decide +kernel⟩

def samplePeerId : PeerId := ⟨literal "9f1c2d3e-4b5a-4c6d-8e7f-0a1b2c3d4e5f", by decide +kernel⟩

def sampleUserId : Text := literal "6fa459ea-ee8a-3ca4-894e-db77e160355e"

def sampleCast (text : Text) : Option Text :=
  if isNonEmptyString text then normalizeDocumentId text else none

def sampleClaims (token : Text) : Option Text :=
  if token = literal "token" then some sampleUserId else none

/-- A public document of workspace 7. -/
def sampleDatabase (members : List MemberRow) : Database :=
  ⟨[⟨sampleDocumentId.val, true, 7⟩], members⟩

def sampleAuth : AuthMessage :=
  .current (.accessToken ⟨literal "token", by decide⟩) sampleDocumentId.toNonBlank
    ⟨literal "session", by decide⟩

def sampleConnection : Connection := .accept sampleDocumentId samplePeerId ⟨0, isSafeInteger_zero⟩

theorem sampleCast_nonBlank (text : Text) (h : (sampleCast text).isSome = true) :
    isNonEmptyString text = true := by
  unfold sampleCast at h
  split at h
  · next hblank => exact hblank
  · cases h

theorem sampleCast_documentId (documentId : DocumentId) :
    sampleCast documentId.val = some documentId.val :=
  (if_pos (isNonEmptyString_normalized documentId.property)).trans documentId.property

theorem session_hosted_member :
    Hosted sampleCast sampleClaims (sampleDatabase [⟨sampleUserId, 7, .editor⟩]) sampleDocumentId
      sampleConnection sampleAuth ⟨5, rfl⟩ := by
  have hrun : sampleConnection.run [] = some sampleConnection := rfl
  apply (session_hosted_iff sampleCast_nonBlank sampleCast_documentId hrun rfl sampleAuth _).mpr
  have huser : userIdOf sampleClaims ⟨literal "token", by decide⟩ = some sampleUserId := by
    decide +kernel
  have hdocument : findDocument sampleCast (sampleDatabase [⟨sampleUserId, 7, .editor⟩])
      sampleDocumentId.val = .ok (some ⟨sampleDocumentId.val, true, 7⟩) := by
    decide +kernel
  intro h
  have hmember := ((tokenOfNonMember_iff huser hdocument).mp h).2
  exact absurd hmember (by decide +kernel)

/-- The token of a user who is no member: the Worker's session cannot be stored, and Nitro grants
nothing. -/
theorem session_not_hosted_nonMember :
    ¬Hosted sampleCast sampleClaims (sampleDatabase []) sampleDocumentId sampleConnection sampleAuth
        ⟨5, rfl⟩ ∧
      authenticate sampleDocumentId.val sampleAuth (some .publicAccess) =
        .admitted (credentialFromAuth sampleAuth)
          (.publicAccess sampleDocumentId.val (literal "session")) ∧
      attachmentAfterReady sampleConnection.attachment sampleAuth
        (readyMessage (.publicAccess sampleDocumentId.val (literal "session"))) ⟨5, rfl⟩ = none ∧
      Supabase.authorize sampleCast sampleClaims (sampleDatabase [])
        (credentialFromAuth sampleAuth) sampleDocumentId.val = .ok (some .publicAccess) ∧
      Prisma.authorize sampleCast sampleClaims (sampleDatabase [])
        (credentialFromAuth sampleAuth) sampleDocumentId.val = .ok none := by
  have hsupabase : Supabase.authorize sampleCast sampleClaims (sampleDatabase [])
      (credentialFromAuth sampleAuth) sampleDocumentId.val = .ok (some .publicAccess) := by
    decide +kernel
  have hprisma : Prisma.authorize sampleCast sampleClaims (sampleDatabase [])
      (credentialFromAuth sampleAuth) sampleDocumentId.val = .ok none := by
    decide +kernel
  refine ⟨?_, by decide +kernel, by decide +kernel, hsupabase, hprisma⟩
  intro h
  have hsame := h.2
  rw [hsupabase, hprisma] at hsame
  cases hsame

end PublicDocument

end Softmaple.CollabHost
