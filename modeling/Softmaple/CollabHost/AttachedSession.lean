import Softmaple.CollabHost.AttachmentIdentity
import Softmaple.CollabHost.SessionHooks

/-!
A document connection of `DocumentRoomDO` (`document-room-do.ts`) from its
upgrade on: quota updates, an `Auth` message, refreshes of its authorization and
wake-ups from hibernation. Over every run the stored attachment gives the live
session back up to its role.
-/
namespace Softmaple.CollabHost

open Json

def MAX_PERSISTED_AUTH_BYTES : Nat := 8 * 1024

/-- `DurableObjectRoomPeer`: the attachment it holds, the one its socket stores, and the session
its room gave it. -/
structure Connection where
  attachment : DocumentWebSocketAttachment
  stored : Json .value
  live : Option ResumeState

inductive ConnectionAction where
  | quota (quota : MessageQuota)
  | auth (message : AuthMessage) (access : Option DocumentAccess) (sent : Bool) (now : SafeNat)
  | refresh (access : Option DocumentAccess)
  | wake (access : Option DocumentAccess) (now : SafeNat)

namespace Connection

def accept (documentId : DocumentId) (peerId : PeerId) (now : SafeNat) : Connection :=
  let attachment := createAwaitingAuthAttachment documentId peerId now
  ⟨attachment, attachmentJson attachment, none⟩

def replaceAttachment (connection : Connection) (attachment : DocumentWebSocketAttachment) :
    Connection :=
  { connection with attachment, stored := attachmentJson attachment }

def authForRoutedDocument (connection : Connection) (message : AuthMessage) : Option AuthMessage :=
  match h : normalizeDocumentId message.documentId with
  | none => none
  | some documentId =>
    if documentId ≠ connection.attachment.base.documentId.val then none
    else some (message.withDocumentId ⟨documentId, isNonEmptyString_normalized h⟩)

/-- The attachment of an authenticated session, once its `Ready` was sent. -/
def persistReady (connection : Connection) (auth : AuthMessage) (credential : CollabCredential)
    (session : DocumentSession) (now : SafeNat) : Option Connection :=
  match attachmentAfterReady connection.attachment auth (readyMessage session) now with
  | none => none
  | some attachment =>
    some ⟨.authenticated attachment, attachmentJson (.authenticated attachment),
      some ⟨credential, session⟩⟩

/-- An `Auth` message with the answer of the authorization hook; none when the socket closes.
Where the `Ready` cannot be persisted or sent, the client may try again. -/
def receiveAuth (connection : Connection) (message : AuthMessage) (access : Option DocumentAccess)
    (sent : Bool) (now : SafeNat) : Option Connection :=
  match connection.authForRoutedDocument message with
  | none => none
  | some auth =>
    if (Utf8.encode (stringify (authJson auth))).length > MAX_PERSISTED_AUTH_BYTES then none
    else if connection.live.isSome then none
    else
      match authenticate connection.attachment.base.documentId.val auth access with
      | .unauthorized | .legacyPublicUnsupported => none
      | .admitted credential session =>
        match connection.persistReady auth credential session now with
        | none => some connection
        | some ready => if sent then some ready else some connection

def refresh (connection : Connection) (access : Option DocumentAccess) : Option Connection :=
  match connection.live with
  | none => some connection
  | some state =>
    match refreshSession state.session access with
    | none => none
    | some session => some { connection with live := some { state with session } }

/-- The object was evicted and a new one restores the socket. -/
def wake (connection : Connection) (access : Option DocumentAccess) (now : SafeNat) :
    Option Connection :=
  match parseDocumentWebSocketAttachment connection.stored with
  | none => none
  | some (.awaitingAuth base connectedAt) =>
    some ⟨.awaitingAuth base connectedAt, connection.stored, none⟩
  | some (.authenticated attachment) =>
    match resumeStateFromAttachment attachment with
    | none => none
    | some state =>
      match resumeSession attachment.base.documentId.val state access with
      | none => none
      | some session =>
        match attachmentAfterResume attachment session now with
        | none => none
        | some resumed =>
          some ⟨.authenticated resumed, attachmentJson (.authenticated resumed),
            some { state with session }⟩

/-- What happens to the connection; none when it is closed. -/
def step (connection : Connection) : ConnectionAction → Option Connection
  | .quota quota =>
    some (connection.replaceAttachment (attachmentWithQuota connection.attachment quota))
  | .auth message access sent now => connection.receiveAuth message access sent now
  | .refresh access => connection.refresh access
  | .wake access now => connection.wake access now

def run : Connection → List ConnectionAction → Option Connection
  | connection, [] => some connection
  | connection, action :: actions =>
    match connection.step action with
    | none => none
    | some next => run next actions

def resumable (connection : Connection) : Option ResumeState :=
  match parseDocumentWebSocketAttachment connection.stored with
  | some (.authenticated attachment) => resumeStateFromAttachment attachment
  | _ => none

section Waiting

/-- A socket that has not been authenticated. -/
structure Waiting (documentId : DocumentId) (connection : Connection) : Prop where
  awaits : ∃ base connectedAt, base.documentId = documentId ∧
    connection.attachment = .awaitingAuth base connectedAt ∧
    connection.stored = attachmentJson (.awaitingAuth base connectedAt)
  dormant : connection.live = none

/-- A socket with a session. -/
structure Opened (connection : Connection) : Prop where
  attached : ∃ attachment, connection.attachment = .authenticated attachment ∧
    connection.stored = attachmentJson (.authenticated attachment)
  live : connection.live.isSome = true

theorem waiting_accept (documentId : DocumentId) (peerId : PeerId) (now : SafeNat) :
    Waiting documentId (accept documentId peerId now) where
  awaits := ⟨_, _, rfl, rfl, rfl⟩
  dormant := rfl

variable {connection : Connection}

theorem opened_persistReady {ready : Connection} {auth : AuthMessage}
    {credential : CollabCredential} {session : DocumentSession} {now : SafeNat}
    (h : connection.persistReady auth credential session now = some ready) : Opened ready := by
  unfold persistReady at h
  split at h
  · cases h
  · cases h
    exact ⟨⟨_, rfl, rfl⟩, rfl⟩

theorem receiveAuth_cases {next : Connection} {message : AuthMessage}
    {access : Option DocumentAccess} {sent : Bool} {now : SafeNat}
    (h : connection.receiveAuth message access sent now = some next) :
    connection.live = none ∧ (next = connection ∨ Opened next) := by
  unfold receiveAuth at h
  split at h
  · cases h
  · split at h
    · cases h
    · by_cases hlive : connection.live.isSome = true
      · rw [if_pos hlive] at h
        cases h
      · refine ⟨Option.not_isSome_iff_eq_none.mp hlive, ?_⟩
        rw [if_neg hlive] at h
        split at h
        · cases h
        · cases h
        · split at h
          · exact .inl (Option.some.inj h).symm
          · next hready =>
              split at h
              · cases h
                exact .inr (opened_persistReady hready)
              · exact .inl (Option.some.inj h).symm

theorem opened_step {next : Connection} {action : ConnectionAction}
    (hopened : Opened connection) (h : connection.step action = some next) : Opened next := by
  obtain ⟨⟨attachment, hattachment, hstored⟩, hlive⟩ := hopened
  cases action with
  | quota quota =>
    cases h
    unfold replaceAttachment
    rw [hattachment]
    exact ⟨⟨_, rfl, rfl⟩, hlive⟩
  | auth message access sent now =>
    have hnone := (receiveAuth_cases h).1
    rw [hnone] at hlive
    cases hlive
  | refresh access =>
    change connection.refresh access = some next at h
    unfold refresh at h
    split at h
    · next hnone =>
        rw [hnone] at hlive
        cases hlive
    · split at h
      · cases h
      · cases h
        exact ⟨⟨attachment, hattachment, hstored⟩, rfl⟩
  | wake access now =>
    change connection.wake access now = some next at h
    unfold wake at h
    rw [hstored] at h
    split at h
    · cases h
    · next hparse => exact absurd hparse (parse_authenticated_ne_awaitingAuth _ _ _)
    · split at h
      · cases h
      · split at h
        · cases h
        · split at h
          · cases h
          · cases h
            exact ⟨⟨_, rfl, rfl⟩, rfl⟩

theorem waiting_step {documentId : DocumentId} {next : Connection}
    {action : ConnectionAction} (hwaiting : Waiting documentId connection)
    (h : connection.step action = some next) : Waiting documentId next ∨ Opened next := by
  obtain ⟨⟨base, connectedAt, hdocument, hattachment, hstored⟩, hdormant⟩ := hwaiting
  cases action with
  | quota quota =>
    cases h
    unfold replaceAttachment
    rw [hattachment]
    exact .inl ⟨⟨{ base with quota }, connectedAt, hdocument, rfl, rfl⟩, hdormant⟩
  | auth message access sent now =>
    obtain ⟨-, hsame | hopened⟩ := receiveAuth_cases h
    · rw [hsame]
      exact .inl ⟨⟨base, connectedAt, hdocument, hattachment, hstored⟩, hdormant⟩
    · exact .inr hopened
  | refresh access =>
    change connection.refresh access = some next at h
    unfold refresh at h
    rw [hdormant] at h
    cases h
    exact .inl ⟨⟨base, connectedAt, hdocument, hattachment, hstored⟩, hdormant⟩
  | wake access now =>
    change connection.wake access now = some next at h
    unfold wake at h
    rw [hstored, parse_awaitingAuth] at h
    cases h
    exact .inl ⟨⟨base, connectedAt, hdocument, rfl, rfl⟩, rfl⟩

theorem opened_run {last : Connection} {actions : List ConnectionAction}
    (hopened : Opened connection) (h : connection.run actions = some last) : Opened last := by
  induction actions generalizing connection with
  | nil =>
    cases h
    exact hopened
  | cons action actions ih =>
    rw [run] at h
    split at h
    · cases h
    · next hstep => exact ih (opened_step hopened hstep) h

theorem waiting_run {documentId : DocumentId} {last : Connection}
    {actions : List ConnectionAction} (hwaiting : Waiting documentId connection)
    (h : connection.run actions = some last) (hlast : last.live = none) :
    Waiting documentId last := by
  induction actions generalizing connection with
  | nil =>
    cases h
    exact hwaiting
  | cons action actions ih =>
    rw [run] at h
    split at h
    · cases h
    · next hstep =>
        cases waiting_step hwaiting hstep with
        | inl hnext => exact ih hnext h
        | inr hopened =>
          have hlive := (opened_run hopened h).live
          rw [hlast] at hlive
          cases hlive

end Waiting

section Attached

/-- The socket of a session that this `Auth` message opened: what it stores and what the room
holds are of one identity. -/
structure Attached (auth : AuthMessage) (session : DocumentSession) (connection : Connection) :
    Prop where
  stores : ∃ base attached validatedAt, base.documentId.val = session.documentId ∧
    attached.SameIdentity session ∧
    connection.attachment = .authenticated ⟨base, auth, readyMessage attached, validatedAt⟩ ∧
    connection.stored = attachmentJson connection.attachment
  live : ∃ current, current.SameIdentity session ∧
    connection.live = some ⟨credentialFromAuth auth, current⟩

variable {auth : AuthMessage} {session : DocumentSession} {connection next : Connection}
  (hdescribes : Describes auth session) (hactor : HasReadableActor session)

include hdescribes hactor

theorem parse_attached {base : AttachmentBase} {attached : DocumentSession} {validatedAt : SafeNat}
    (hdocument : base.documentId.val = session.documentId)
    (hsame : attached.SameIdentity session) :
    parseDocumentWebSocketAttachment
        (attachmentJson (.authenticated ⟨base, auth, readyMessage attached, validatedAt⟩)) =
      some (.authenticated ⟨base, auth, readyMessage attached, validatedAt⟩) := by
  have hattached := hdescribes.of_sameIdentity hsame
  have hid : base.documentId.val = attached.documentId := hdocument.trans hsame.documentId.symm
  apply parse_authenticated
  · apply readable_readyMessage
    · rw [← hid]
      exact isNonEmptyString_normalized base.documentId.property
    · intro actorId hmem
      rw [hsame.actorId] at hmem
      exact hactor actorId hmem
  · dsimp only
    rw [hid]
    exact hasConsistentIdentity_of_describes hattached

section

variable (h : Attached auth session connection)
include h

theorem resumable_of_attached :
    ∃ resumed, connection.resumable = some ⟨credentialFromAuth auth, resumed⟩ ∧
      resumed.SameIdentity session := by
  obtain ⟨base, attached, validatedAt, hdocument, hsame, hattachment, hstored⟩ := h.stores
  refine ⟨attached, ?_, hsame⟩
  unfold resumable
  rw [hstored, hattachment, parse_attached hdescribes hactor hdocument hsame]
  exact resumeStateFromAttachment_of_describes (hdescribes.of_sameIdentity hsame)

/-- A woken object asks the hooks again and resumes with what they grant. -/
theorem wake_attached (access : Option DocumentAccess) (now : SafeNat) :
    ∃ base attached, base.documentId.val = session.documentId ∧ attached.SameIdentity session ∧
      connection.wake access now = (refreshSession attached access).map fun refreshed =>
        ⟨.authenticated ⟨base, auth, readyMessage refreshed, now⟩,
          attachmentJson (.authenticated ⟨base, auth, readyMessage refreshed, now⟩),
          some ⟨credentialFromAuth auth, refreshed⟩⟩ := by
  obtain ⟨base, attached, validatedAt, hdocument, hsame, hattachment, hstored⟩ := h.stores
  have hattached := hdescribes.of_sameIdentity hsame
  have hid : attached.documentId = base.documentId.val := hsame.documentId.trans hdocument.symm
  refine ⟨base, attached, hdocument, hsame, ?_⟩
  unfold wake
  rw [hstored, hattachment, parse_attached hdescribes hactor hdocument hsame]
  dsimp only
  rw [resumeStateFromAttachment_of_describes hattached]
  dsimp only
  unfold resumeSession
  rw [if_neg (by simp [hid])]
  cases hrefresh : refreshSession attached access with
  | none => rfl
  | some refreshed =>
    have hrefreshed := hattached.of_sameIdentity (sameIdentity_refreshSession hrefresh)
    have hconsistent := hasConsistentIdentity_of_describes hrefreshed
    rw [(sameIdentity_refreshSession hrefresh).documentId, hid] at hconsistent
    dsimp only
    unfold attachmentAfterResume
    rw [readyFromSession_eq, if_pos hconsistent]
    rfl

theorem attached_step {action : ConnectionAction}
    (hstep : connection.step action = some next) : Attached auth session next := by
  obtain ⟨base, attached, validatedAt, hdocument, hsame, hattachment, hstored⟩ := h.stores
  obtain ⟨current, hcurrent, hlive⟩ := h.live
  cases action with
  | quota quota =>
    cases hstep
    unfold replaceAttachment
    rw [hattachment]
    exact ⟨⟨{ base with quota }, attached, validatedAt, hdocument, hsame, rfl, rfl⟩,
      ⟨current, hcurrent, hlive⟩⟩
  | auth message access sent now =>
    have hnone := (receiveAuth_cases hstep).1
    rw [hlive] at hnone
    cases hnone
  | refresh access =>
    change connection.refresh access = some next at hstep
    unfold refresh at hstep
    rw [hlive] at hstep
    dsimp only at hstep
    cases hrefresh : refreshSession current access with
    | none =>
      rw [hrefresh] at hstep
      cases hstep
    | some refreshed =>
      rw [hrefresh] at hstep
      cases hstep
      exact ⟨⟨base, attached, validatedAt, hdocument, hsame, hattachment, hstored⟩,
        ⟨refreshed, (sameIdentity_refreshSession hrefresh).trans hcurrent, rfl⟩⟩
  | wake access now =>
    obtain ⟨wokenBase, woken, hwokenDocument, hwoken, hwake⟩ :=
      wake_attached hdescribes hactor h access now
    change connection.wake access now = some next at hstep
    rw [hwake] at hstep
    obtain ⟨refreshed, hrefresh, rfl⟩ := Option.map_eq_some_iff.mp hstep
    have hidentity := (sameIdentity_refreshSession hrefresh).trans hwoken
    exact ⟨⟨wokenBase, refreshed, now, hwokenDocument, hidentity, rfl, rfl⟩,
      ⟨refreshed, hidentity, rfl⟩⟩

theorem attached_run {actions : List ConnectionAction}
    (hrun : connection.run actions = some next) : Attached auth session next := by
  induction actions generalizing connection with
  | nil =>
    cases hrun
    exact h
  | cons action actions ih =>
    rw [run] at hrun
    split at hrun
    · cases hrun
    · next hstep => exact ih (attached_step hdescribes hactor h hstep) hrun

theorem wake_isSome_of_attached {access : DocumentAccess}
    (hmatch : accessMatchesSessionIdentity access session = true) (now : SafeNat) :
    (connection.wake (some access) now).isSome = true := by
  obtain ⟨base, attached, -, hsame, hwake⟩ := wake_attached hdescribes hactor h (some access) now
  have hattached : accessMatchesSessionIdentity access attached = true := by
    rw [accessMatchesSessionIdentity_iff] at hmatch ⊢
    rw [hsame.accessMode, hsame.actorId]
    exact hmatch
  rw [hwake, refreshSession_isSome hattached]
  rfl

end

end Attached

end Connection

end Softmaple.CollabHost
