import Softmaple.CollabHost.HostedSessions
import Softmaple.CollabHost.PresenceAttachment

/-!
Presence survives hibernation wherever each snapshot fits the attachment: at
most 4096 bytes of JSON and no empty avatar URL. A token may be as long as the
whole budget, so a snapshot need not fit; then the attachment still awaits an
`Auth`, and the deadline's sweep closes an authenticated connection.
-/
namespace Softmaple.CollabHost

open Json PresenceObject PresenceConnection

/-- What `persist` stores and the parser reads back. -/
def Persistable (base : PresenceAttachmentBase) (snapshot : PresencePeerSnapshot) : Prop :=
  jsonBytes (presenceAttachmentJson (attachmentAfterSnapshot base snapshot)) ≤
      MAX_PERSISTED_PRESENCE_BYTES ∧
    snapshot.identity.avatarUrl ≠ some []

def PresenceIdentity.Named (identity : PresenceIdentity) : Prop :=
  0 < identity.name.length ∧ isShortString 256 identity.userId = true

section Budget

theorem length_identityJson {identity : PresenceIdentity} {value : Text}
    (h : value = identity.name ∨ identity.avatarUrl = some value) :
    value.length < (stringify (identityJson identity)).length := by
  have hstring := length_stringify_string value
  have hfield : ∃ name fields, identityJson identity = objectOf fields ∧
      (name, Json.string value) ∈ fields := by
    obtain ⟨avatarUrl, name, userId⟩ := identity
    cases avatarUrl with
    | none =>
      cases h with
      | inl hname =>
        rw [hname]
        exact ⟨_, _, rfl, List.mem_cons_self⟩
      | inr havatar => cases havatar
    | some avatarUrl =>
      cases h with
      | inl hname =>
        rw [hname]
        exact ⟨_, _, rfl, List.mem_cons_self⟩
      | inr havatar =>
        cases havatar
        refine ⟨"avatarUrl", _, rfl, ?_⟩
        simp
  obtain ⟨name, fields, hidentity, hmem⟩ := hfield
  rw [hidentity]
  have hlt := length_stringify_field hmem
  omega

theorem length_field_lt_jsonBytes (base : PresenceAttachmentBase) (snapshot : PresencePeerSnapshot)
    {name : String} {value : Json .value}
    (h : (name, value) ∈ [("credential", presenceCredentialJson snapshot.token),
      ("identity", identityJson snapshot.identity)]) :
    (stringify value).length <
      jsonBytes (presenceAttachmentJson (attachmentAfterSnapshot base snapshot)) := by
  refine Nat.lt_of_lt_of_le ?_ (length_le_jsonBytes _)
  unfold attachmentAfterSnapshot presenceAttachmentJson
  refine length_stringify_field (?_ : (name, value) ∈ _)
  simp only [List.mem_cons, List.not_mem_nil, or_false, Prod.mk.injEq] at h ⊢
  cases h with
  | inl hcredential => exact .inr (.inr (.inl hcredential))
  | inr hidentity => exact .inr (.inr (.inr (.inr (.inl hidentity))))

theorem length_identity_le_of_persistable {base : PresenceAttachmentBase}
    {snapshot : PresencePeerSnapshot} (h : Persistable base snapshot) {value : Text}
    (hvalue : value = snapshot.identity.name ∨ snapshot.identity.avatarUrl = some value) :
    value.length ≤ 4096 := by
  have hidentity := length_identityJson hvalue
  have hbytes := length_field_lt_jsonBytes base snapshot (List.mem_cons_of_mem _ List.mem_cons_self)
  have hbudget := h.1
  unfold MAX_PERSISTED_PRESENCE_BYTES at hbudget
  omega

theorem readable_of_persistable {base : PresenceAttachmentBase} {snapshot : PresencePeerSnapshot}
    (h : Persistable base snapshot) (hnamed : snapshot.identity.Named) :
    snapshot.identity.Readable := by
  refine ⟨?_, hnamed.2, ?_⟩
  · unfold isShortString
    rw [decide_eq_true_eq]
    exact ⟨hnamed.1, length_identity_le_of_persistable h (.inl rfl)⟩
  · intro avatarUrl hmem
    unfold isShortString
    rw [decide_eq_true_eq]
    refine ⟨?_, length_identity_le_of_persistable h (.inr hmem)⟩
    apply List.length_pos_iff.mpr
    intro hnil
    rw [hnil] at hmem
    exact h.2 hmem

theorem jsonBytes_of_token (base : PresenceAttachmentBase) (snapshot : PresencePeerSnapshot) :
    snapshot.token.val.length + 4 ≤
      jsonBytes (presenceAttachmentJson (attachmentAfterSnapshot base snapshot)) := by
  have hstring := length_stringify_string snapshot.token.val
  have hcredential : ("token", Json.string snapshot.token.val) ∈
      [("kind", Json.string (literal "access-token")), ("token", .string snapshot.token.val)] :=
    List.mem_cons_of_mem _ List.mem_cons_self
  have htoken := length_stringify_field hcredential
  have hbytes := length_field_lt_jsonBytes base snapshot List.mem_cons_self
  unfold presenceCredentialJson at hbytes
  omega

end Budget

namespace PresenceConnection

/-- The snapshot has what the session has, up to a refresh of its identity and deadline. -/
structure Agrees (rateLimit : Json .value) (snapshot : PresencePeerSnapshot)
    (session : PresenceSession) : Prop where
  connectionId : snapshot.connectionId = session.connectionId
  token : snapshot.token = session.token
  userId : snapshot.identity.userId = session.identity.userId
  joined : snapshot.joined = session.joined
  heartbeatExpiresAt : snapshot.heartbeatExpiresAt = session.heartbeatExpiresAt
  rateLimit : snapshot.rateLimit = rateLimit

structure Carries (connection : PresenceConnection) (session : PresenceSession) : Prop where
  named : session.identity.Named
  carries : ∃ snapshot, connection.persisted = some snapshot ∧
    connection.stored = presenceAttachmentJson (.authenticated connection.base snapshot) ∧
    snapshot.identity.Readable ∧ Agrees connection.rateLimit snapshot session

/-- A socket awaits its `Auth` exactly until the room has a session for it. -/
def Sound (connection : PresenceConnection) : Prop :=
  match connection.session with
  | none => ∃ connectedAt,
      connection.stored = presenceAttachmentJson (.awaitingAuth connection.base connectedAt)
  | some session => connection.Carries session

/-- Every snapshot passed on so far fits; `persisted` is the last one. -/
def Fits (connection : PresenceConnection) : Prop :=
  ∀ snapshot ∈ connection.persisted, Persistable connection.base snapshot

theorem sound_accept (roomId : DocumentId) (peerId : PeerId) (now : Instant) :
    Sound (accept roomId peerId now) :=
  ⟨now.after 0 (by decide), rfl⟩

section

variable (connection : PresenceConnection)
include connection

theorem persistSnapshot_withSession (session : PresenceSession) :
    (connection.withSession session).persistSnapshot =
      (connection.withSession session).persist (snapshotOf connection.rateLimit session) := rfl

@[simp]
theorem persist_session (snapshot : PresencePeerSnapshot) :
    (connection.persist snapshot).session = connection.session := by
  unfold persist
  rfl

@[simp]
theorem persist_base (snapshot : PresencePeerSnapshot) :
    (connection.persist snapshot).base = connection.base := by
  unfold persist
  rfl

@[simp]
theorem persist_rateLimit (snapshot : PresencePeerSnapshot) :
    (connection.persist snapshot).rateLimit = connection.rateLimit := by
  unfold persist
  rfl

@[simp]
theorem persist_persisted (snapshot : PresencePeerSnapshot) :
    (connection.persist snapshot).persisted = some snapshot := by
  unfold persist
  rfl

end

variable {connection : PresenceConnection}

theorem persist_stored {snapshot : PresencePeerSnapshot}
    (h : jsonBytes (presenceAttachmentJson (attachmentAfterSnapshot connection.base snapshot)) ≤
      MAX_PERSISTED_PRESENCE_BYTES) :
    (connection.persist snapshot).stored =
      presenceAttachmentJson (.authenticated connection.base snapshot) := by
  unfold persist
  dsimp only
  rw [if_neg (Nat.not_lt.mpr h)]
  rfl

theorem persist_stored_of_large {snapshot : PresencePeerSnapshot}
    (h : MAX_PERSISTED_PRESENCE_BYTES <
      jsonBytes (presenceAttachmentJson (attachmentAfterSnapshot connection.base snapshot))) :
    (connection.persist snapshot).stored = connection.stored := by
  unfold persist
  dsimp only
  rw [if_pos h]

variable {session : PresenceSession}

theorem sound_persist (hsession : connection.session = some session) (hnamed : session.identity.Named)
    (hfits : (connection.persist (snapshotOf connection.rateLimit session)).Fits) :
    (connection.persist (snapshotOf connection.rateLimit session)).Sound := by
  have hpersistable := hfits _ (persist_persisted _ _)
  rw [persist_base] at hpersistable
  have hreadable := readable_of_persistable hpersistable hnamed
  have hstored := persist_stored hpersistable.1
  unfold Sound
  rw [persist_session, hsession]
  refine ⟨hnamed, snapshotOf connection.rateLimit session, persist_persisted _ _, ?_, hreadable, ?_⟩
  · rw [persist_base]
    exact hstored
  · rw [persist_rateLimit]
    exact ⟨rfl, rfl, rfl, rfl, rfl, rfl⟩

variable {next : PresenceConnection}

theorem sound_withSession (hnext : (connection.withSession session).persistSnapshot = next)
    (hnamed : session.identity.Named) (hfits : next.Fits) : next.Sound := by
  rw [persistSnapshot_withSession] at hnext
  rw [← hnext] at hfits ⊢
  exact sound_persist rfl hnamed hfits

theorem carries_of_sound (h : connection.Sound) (hsession : connection.session = some session) :
    connection.Carries session := by
  unfold Sound at h
  rw [hsession] at h
  exact h

theorem awaits_of_sound (h : connection.Sound) (hsession : connection.session = none) :
    ∃ connectedAt, connection.stored =
      presenceAttachmentJson (.awaitingAuth connection.base connectedAt) := by
  unfold Sound at h
  rw [hsession] at h
  exact h

theorem parse_of_carries (h : connection.Carries session) :
    ∃ snapshot, connection.persisted = some snapshot ∧
      parsePresenceWebSocketAttachment connection.stored =
        some (.authenticated connection.base snapshot) ∧
      snapshot.identity.Readable ∧ Agrees connection.rateLimit snapshot session := by
  obtain ⟨snapshot, hpersisted, hstored, hreadable, hagrees⟩ := h.carries
  refine ⟨snapshot, hpersisted, ?_, hreadable, hagrees⟩
  rw [hstored]
  exact parse_authenticatedPresence hreadable

variable {backend : PresenceBackend}

theorem named_refreshIdentity {token : Text} {identity refreshed : PresenceIdentity}
    (hnamed : isShortString 256 identity.userId = true)
    (h : connection.refreshIdentity token identity backend = some refreshed) :
    refreshed.Named ∧ refreshed.userId = identity.userId := by
  unfold refreshIdentity at h
  split at h
  · cases h
  · cases h
  · next found hfound =>
      split at h
      · cases h
      · next huser =>
          cases h
          rw [not_not] at huser
          refine ⟨⟨(resolveIdentity_spec hfound).2, ?_⟩, huser⟩
          rw [huser]
          exact hnamed

theorem sound_authenticate {payload : PresenceAuthPayload} {now : Instant}
    (h : connection.authenticate payload backend now = some next) (hfits : next.Fits) :
    next.Sound := by
  unfold authenticate at h
  split at h
  · cases h
  · split at h
    · cases h
    · cases h
    · next identity hidentity =>
        obtain ⟨huser, hname⟩ := resolveIdentity_spec hidentity
        refine sound_withSession (Option.some.inj h) ⟨hname, ?_⟩ hfits
        dsimp only
        rw [huser]
        exact payload.userId.property

theorem sound_refresh
    {now : Instant} (hsound : connection.Sound) (h : connection.refresh backend now = some next)
    (hfits : next.Fits) : next.Sound := by
  unfold refresh at h
  split at h
  · cases h
    exact hsound
  · next session hsession =>
      split at h
      · cases h
        exact hsound
      · split at h
        · cases h
        · next identity hidentity =>
            have hnamed := (carries_of_sound hsound hsession).named
            exact sound_withSession (Option.some.inj h)
              (named_refreshIdentity hnamed.2 hidentity).1 hfits

theorem sound_wake
    {now : Instant} (hsound : connection.Sound) (h : connection.wake backend now = some next) :
    next.Sound := by
  unfold wake at h
  cases hsession : connection.session with
  | none =>
    obtain ⟨connectedAt, hstored⟩ := awaits_of_sound hsound hsession
    have hparse := parse_awaitingAuthPresence connection.base connectedAt
    rw [← hstored] at hparse
    rw [hparse] at h
    cases h
    exact ⟨connectedAt, hstored⟩
  | some session =>
    have hcarries := carries_of_sound hsound hsession
    obtain ⟨snapshot, hpersisted, hparse, hreadable, -⟩ := parse_of_carries hcarries
    obtain ⟨stored, hstored, hjson, -, -⟩ := hcarries.carries
    rw [hpersisted] at hstored
    cases hstored
    rw [hparse] at h
    dsimp only at h
    split at h
    · cases h
    · next identity hidentity =>
        cases h
        obtain ⟨hnamed, huser⟩ := named_refreshIdentity hreadable.2.1 hidentity
        exact ⟨hnamed, snapshot, hpersisted, hjson, hreadable,
          ⟨rfl, rfl, huser.symm, rfl, rfl, rfl⟩⟩

theorem sound_step {action : PresenceAction}
    (hsound : connection.Sound) (h : connection.step action = some next) (hfits : next.Fits) :
    next.Sound := by
  cases action with
  | receive =>
    change connection.receive = some next at h
    unfold receive at h
    split at h
    · cases h
    · cases h
      exact hsound
  | quota rateLimit =>
    have hnext : persistSnapshot { connection with rateLimit } = next :=
      Option.some.inj h
    unfold persistSnapshot at hnext
    dsimp only at hnext
    split at hnext
    · next hsession =>
        have hawaits := awaits_of_sound hsound hsession
        rw [← hnext]
        unfold Sound
        dsimp only
        rw [hsession]
        exact hawaits
    · next session hsession =>
        have hpersist : persist { connection with rateLimit }
            (snapshotOf rateLimit session) = next := hnext
        rw [← hpersist] at hfits ⊢
        exact sound_persist hsession (carries_of_sound hsound hsession).named hfits
  | auth payload backend now => exact sound_authenticate h hfits
  | refresh backend now => exact sound_refresh hsound h hfits
  | rearmHeartbeat now =>
    have hnext : connection.rearmHeartbeat now = next := Option.some.inj h
    unfold rearmHeartbeat at hnext
    split at hnext
    · rw [← hnext]
      exact hsound
    · next session hsession =>
        have hnamed := (carries_of_sound hsound hsession).named
        exact sound_withSession hnext hnamed hfits
  | join =>
    change connection.join = some next at h
    unfold join at h
    split at h
    · cases h
      exact hsound
    · next session hsession =>
        split at h
        · cases h
        · have hnamed := (carries_of_sound hsound hsession).named
          exact sound_withSession (Option.some.inj h) hnamed hfits
  | wake backend now => exact sound_wake hsound h
  | close => cases h

theorem not_isPastAuthDeadline_of_carries (h : connection.Carries session) (now : Instant) :
    connection.isPastAuthDeadline now = false := by
  obtain ⟨snapshot, -, hparse, -, -⟩ := parse_of_carries h
  unfold isPastAuthDeadline
  rw [hparse]

theorem receive_of_carries (h : connection.Carries session) : connection.receive = some connection := by
  obtain ⟨snapshot, -, hparse, -, -⟩ := parse_of_carries h
  unfold receive
  rw [hparse]

end PresenceConnection

namespace PresenceObject

def Sound (object : PresenceObject) : Prop :=
  ∀ socket connection, object.sockets socket = some connection → connection.Sound

def Fits (object : PresenceObject) : Prop :=
  ∀ socket connection, object.sockets socket = some connection → connection.Fits

/-- Every snapshot passed on in the run fits. -/
def RunFits (roomId : DocumentId) : PresenceObject → List PresenceObjectAction → Prop
  | _, [] => True
  | before, action :: actions =>
    (before.step roomId action).Fits ∧ RunFits roomId (before.step roomId action) actions

theorem sound_step {roomId : DocumentId} {object : PresenceObject} {action : PresenceObjectAction}
    (hsound : object.Sound) (hfits : (object.step roomId action).Fits) :
    (object.step roomId action).Sound := by
  intro socket connection h
  have hfit := hfits socket connection h
  cases action with
  | accept opened peerId now =>
    unfold step at h
    dsimp only at h
    split at h
    · rw [set_sockets] at h
      split at h
      · cases h
        exact sound_accept roomId peerId now
      · exact hsound socket connection h
    · exact hsound socket connection h
  | socket moved action =>
    unfold step at h
    dsimp only at h
    split at h
    · exact hsound socket connection h
    · next before hbefore =>
        rw [set_sockets] at h
        split at h
        · exact PresenceConnection.sound_step (hsound moved before hbefore) h hfit
        · exact hsound socket connection h
  | alarm now =>
    have hkept := (Option.filter_eq_some_iff.mp h).1
    exact hsound socket connection hkept

theorem sound_run {roomId : DocumentId} {object : PresenceObject}
    {actions : List PresenceObjectAction} (hsound : object.Sound)
    (hfits : RunFits roomId object actions) : (object.run roomId actions).Sound := by
  induction actions generalizing object with
  | nil => exact hsound
  | cons action actions ih => exact ih (sound_step hsound hfits.1) hfits.2

end PresenceObject

/-- In every state of a run whose snapshots fit, the socket of an authenticated peer gives back the
last snapshot, the deadline's sweep keeps it, and so does the reading of its attachment. -/
theorem presence_survives_hibernation {roomId : DocumentId} {actions : List PresenceObjectAction}
    (hfits : PresenceObject.RunFits roomId .start actions) {socket : Nat}
    {connection : PresenceConnection} {session : PresenceSession}
    (hsocket : (start.run roomId actions).sockets socket = some connection)
    (hsession : connection.session = some session) :
    (∃ snapshot, connection.persisted = some snapshot ∧
      parsePresenceWebSocketAttachment connection.stored =
        some (.authenticated connection.base snapshot) ∧
      PresenceConnection.Agrees connection.rateLimit snapshot session) ∧
    (∀ now, ((start.run roomId actions).alarm now).sockets socket =
      some connection) ∧
    connection.receive = some connection := by
  have hstart : start.Sound := fun _ _ h => by cases h
  have hsound := sound_run hstart hfits socket connection hsocket
  have hcarries := carries_of_sound hsound hsession
  refine ⟨?_, ?_, receive_of_carries hcarries⟩
  · obtain ⟨snapshot, hpersisted, hparse, -, hagrees⟩ := parse_of_carries hcarries
    exact ⟨snapshot, hpersisted, hparse, hagrees⟩
  · intro now
    apply Option.filter_eq_some_iff.mpr
    refine ⟨hsocket, ?_⟩
    rw [not_isPastAuthDeadline_of_carries hcarries]
    rfl

section TokenLength

def presenceRoomId : DocumentId := sampleDocumentId

def presencePeerId : PeerId := samplePeerId

def presenceUserId : ShortString 256 :=
  ⟨literal "6fa459ea-ee8a-3ca4-894e-db77e160355e", by decide +kernel⟩

/-- A member with a name and no avatar, whose every token is valid. -/
def presenceBackend : PresenceBackend where
  castUuid := fun text => some text
  getClaims := fun _ => some presenceUserId.val
  database := ⟨[⟨presenceRoomId.val, false, 7⟩], [⟨presenceUserId.val, 7, .viewer⟩]⟩
  users := [⟨presenceUserId.val, some (literal "Ada"), none⟩]

def presenceIdentity : PresenceIdentity := ⟨none, literal "Ada", presenceUserId.val⟩

theorem resolve_presenceIdentity (token : Text) :
    presenceBackend.resolveIdentity token presenceRoomId.val presenceUserId.val =
      .ok (some presenceIdentity) := by
  have hconstant : presenceBackend.resolveIdentity token presenceRoomId.val presenceUserId.val =
      presenceBackend.resolveIdentity [] presenceRoomId.val presenceUserId.val := rfl
  rw [hconstant]
  decide +kernel

def presencePayload (token : ShortString MAX_PRESENCE_TOKEN_LENGTH) : PresenceAuthPayload :=
  ⟨⟨literal "connection", by decide⟩, token, presenceUserId⟩

def presenceAccepted : PresenceConnection :=
  .accept presenceRoomId presencePeerId ⟨0, by decide⟩

def presenceSession (token : ShortString MAX_PRESENCE_TOKEN_LENGTH) : PresenceSession where
  authorizationExpiresAt := ⟨8000, rfl⟩
  connectionId := ⟨literal "connection", by decide⟩
  token := token
  heartbeatExpiresAt := ⟨0, isSafeInteger_zero⟩
  identity := presenceIdentity
  joined := false

/-- A socket that is accepted and authenticates at once. -/
def presenceRun (token : ShortString MAX_PRESENCE_TOKEN_LENGTH) : List PresenceObjectAction :=
  [.accept 0 presencePeerId ⟨0, by decide⟩,
    .socket 0 (.auth (presencePayload token) presenceBackend ⟨0, by decide⟩)]

def presenceOpened (token : ShortString MAX_PRESENCE_TOKEN_LENGTH) : PresenceConnection :=
  presenceAccepted.withSession (presenceSession token)

theorem authenticate_presence (token : ShortString MAX_PRESENCE_TOKEN_LENGTH) :
    presenceAccepted.authenticate (presencePayload token) presenceBackend ⟨0, by decide⟩ =
      some ((presenceOpened token).persist
        (snapshotOf .null (presenceSession token))) := by
  have hresolve : presenceBackend.resolveIdentity (presencePayload token).token.val
      presenceAccepted.base.roomId.val (presencePayload token).userId.val =
        .ok (some presenceIdentity) := resolve_presenceIdentity token.val
  have hpersist : (presenceOpened token).persistSnapshot = (presenceOpened token).persist
      (snapshotOf .null (presenceSession token)) :=
    persistSnapshot_withSession presenceAccepted (presenceSession token)
  rw [← hpersist]
  unfold PresenceConnection.authenticate
  rw [hresolve]
  rfl

theorem run_presence (token : ShortString MAX_PRESENCE_TOKEN_LENGTH) :
    (start.run presenceRoomId (presenceRun token)).sockets 0 =
      some ((presenceOpened token).persist
        (snapshotOf .null (presenceSession token))) := by
  rw [← authenticate_presence token]
  rfl

def shortToken : ShortString MAX_PRESENCE_TOKEN_LENGTH := ⟨literal "token", by decide⟩

theorem fits_shortToken : PresenceObject.RunFits presenceRoomId .start (presenceRun shortToken) := by
  have haccepted : ∀ socket, (start.step presenceRoomId
      (.accept 0 presencePeerId ⟨0, by decide⟩)).sockets socket =
        if socket = 0 then some presenceAccepted else none := fun socket => rfl
  have hpersistable : Persistable (presenceOpened shortToken).base
      (snapshotOf .null (presenceSession shortToken)) :=
    ⟨by decide +kernel, fun h => by cases h⟩
  refine ⟨?_, ?_, trivial⟩
  · intro socket connection h snapshot hsnapshot
    rw [haccepted] at h
    split at h
    · cases h
      cases hsnapshot
    · cases h
  · intro socket connection h snapshot hsnapshot
    by_cases hzero : socket = 0
    · have hrun := run_presence shortToken
      rw [hzero] at h
      have hsame := Option.some.inj (h.symm.trans hrun)
      rw [hsame, persist_persisted] at hsnapshot
      cases hsnapshot
      rw [hsame, persist_base]
      exact hpersistable
    · have hnone : ((start.step presenceRoomId
          (.accept 0 presencePeerId ⟨0, by decide⟩)).step presenceRoomId
            (.socket 0 (.auth (presencePayload shortToken) presenceBackend ⟨0, by decide⟩))).sockets
              socket = none := by
        have hset : ∀ moved, ((start.step presenceRoomId
            (.accept 0 presencePeerId ⟨0, by decide⟩)).set 0 moved).sockets socket = none := by
          intro moved
          rw [set_sockets, if_neg hzero, haccepted, if_neg hzero]
        exact hset _
      rw [hnone] at h
      cases h

theorem presence_survives_shortToken :
    ∃ connection, (start.run presenceRoomId (presenceRun shortToken)).sockets 0 =
        some connection ∧
      (∀ now, ((start.run presenceRoomId (presenceRun shortToken)).alarm
        now).sockets 0 = some connection) ∧
      connection.receive = some connection := by
  have hsession : ((presenceOpened shortToken).persist (snapshotOf .null
      (presenceSession shortToken))).session = some (presenceSession shortToken) := rfl
  have hsurvives := presence_survives_hibernation fits_shortToken (run_presence shortToken) hsession
  exact ⟨_, run_presence shortToken, hsurvives.2⟩

theorem isShortString_replicate {maxLength : Nat} (h : 0 < maxLength) (unit : CodeUnit) :
    isShortString maxLength (List.replicate maxLength unit) = true := by
  unfold isShortString
  rw [List.length_replicate]
  exact decide_eq_true ⟨h, Nat.le_refl maxLength⟩

/-- A token of the greatest length the payload may have. -/
def longToken : ShortString MAX_PRESENCE_TOKEN_LENGTH :=
  ⟨List.replicate MAX_PRESENCE_TOKEN_LENGTH (ascii 'a'),
    isShortString_replicate (by decide) (ascii 'a')⟩

/-- An authenticated connection whose snapshot was dropped is closed at the deadline. -/
theorem presence_closed_longToken : ∃ connection session,
      (start.run presenceRoomId (presenceRun longToken)).sockets 0 =
        some connection ∧
      connection.session = some session ∧
      (∃ base connectedAt, parsePresenceWebSocketAttachment connection.stored =
        some (.awaitingAuth base connectedAt)) ∧
      ((start.run presenceRoomId (presenceRun longToken)).alarm
        ⟨10000, by decide⟩).sockets 0 = none := by
  have hlarge := jsonBytes_of_token (presenceOpened longToken).base
    (snapshotOf .null (presenceSession longToken))
  have hlength : (snapshotOf .null (presenceSession longToken)).token.val.length =
      MAX_PRESENCE_TOKEN_LENGTH := List.length_replicate
  rw [hlength] at hlarge
  have hstored := persist_stored_of_large (Nat.lt_of_lt_of_le (by decide) hlarge)
  have hparse := parse_awaitingAuthPresence ⟨presencePeerId, presenceRoomId⟩
    (Instant.after ⟨0, by decide⟩ 0 (by decide))
  have hawaits : parsePresenceWebSocketAttachment ((presenceOpened longToken).persist
      (snapshotOf .null (presenceSession longToken))).stored =
        some (.awaitingAuth ⟨presencePeerId, presenceRoomId⟩
          (Instant.after ⟨0, by decide⟩ 0 (by decide))) := by
    rw [hstored]
    exact hparse
  refine ⟨_, _, run_presence longToken, rfl, ⟨_, _, hawaits⟩, ?_⟩
  unfold alarm
  dsimp only
  rw [run_presence, Option.filter_some, if_neg]
  unfold isPastAuthDeadline
  rw [hawaits]
  decide

end TokenLength

end Softmaple.CollabHost
