import Softmaple.CollabHost.DocumentId
import Softmaple.CollabHost.DocumentSession

/-!
The authorization hooks of both hosts: `collab-cloudflare/src/supabase-backend.ts`
and `collab-nitro/server/utils/auth.ts` with
`adapters/document-session-hooks.ts`. Token verification and the database's cast
of a text to a UUID come from outside.
-/
namespace Softmaple.CollabHost

/-- The columns of `documents` the hooks read. -/
structure DocumentRow where
  id : Text
  is_public : Bool
  workspace_id : Nat
  deriving DecidableEq, Repr

/-- The columns of `workspace_members` the hooks read. -/
structure MemberRow where
  user_id : Text
  workspace_id : Nat
  role : CollabRole
  deriving DecidableEq, Repr

structure Database where
  documents : List DocumentRow
  members : List MemberRow
  deriving DecidableEq, Repr

inductive QueryError where
  | invalidUuid
  deriving DecidableEq, Repr

section Hooks

variable (castUuid : Text → Option Text) (getClaims : Text → Option Text) (database : Database)

def findDocument (documentId : Text) : Except QueryError (Option DocumentRow) :=
  match castUuid documentId with
  | none => .error .invalidUuid
  | some id => .ok (database.documents.find? fun row => row.id = id)

def findPublicDocument (documentId : Text) : Except QueryError (Option DocumentRow) :=
  match castUuid documentId with
  | none => .error .invalidUuid
  | some id => .ok (database.documents.find? fun row => row.id = id && row.is_public)

def findMember (userId : Text) (workspaceId : Nat) : Except QueryError (Option MemberRow) :=
  match castUuid userId with
  | none => .error .invalidUuid
  | some id =>
    .ok (database.members.find? fun row => row.user_id = id && row.workspace_id = workspaceId)

/-- The subject of a valid token, when it is a string that is not empty. -/
def userIdOf (token : NonBlank) : Option Text :=
  match getClaims token.val with
  | some userId => if userId.length = 0 then none else some userId
  | none => none

def mayWrite (role : CollabRole) : Bool := decide (role = .owner ∨ role = .editor)

namespace Supabase

def authorizePublic (documentId : Text) : Except QueryError (Option DocumentAccess) :=
  match findPublicDocument castUuid database documentId with
  | .error error => .error error
  | .ok none => .ok none
  | .ok (some document) => .ok (if document.is_public then some .publicAccess else none)

def authorizeAuthenticated (token : NonBlank) (documentId : Text) :
    Except QueryError (Option DocumentAccess) :=
  match userIdOf getClaims token with
  | none => .ok none
  | some userId =>
    match findDocument castUuid database documentId with
    | .error error => .error error
    | .ok none => .ok none
    | .ok (some document) =>
      match findMember castUuid database userId document.workspace_id with
      | .error error => .error error
      | .ok none => .ok (if document.is_public then some .publicAccess else none)
      | .ok (some member) => .ok (some (.authenticated userId (mayWrite member.role) member.role))

def authorize (credential : CollabCredential) (documentId : Text) :
    Except QueryError (Option DocumentAccess) :=
  match credential with
  | .publicAccess => authorizePublic castUuid database documentId
  | .accessToken token => authorizeAuthenticated castUuid getClaims database token documentId

end Supabase

namespace Prisma

structure HostedAccess where
  documentId : Text
  access : DocumentAccess
  deriving DecidableEq, Repr

def authorizePublicDocument (documentId : Text) : Except QueryError (Option HostedAccess) :=
  match findPublicDocument castUuid database documentId with
  | .error error => .error error
  | .ok none => .ok none
  | .ok (some document) => .ok (some ⟨document.id, .publicAccess⟩)

def authorizeAuthenticatedDocument (token : NonBlank) (documentId : Text) :
    Except QueryError (Option HostedAccess) :=
  match userIdOf getClaims token with
  | none => .ok none
  | some userId =>
    match findDocument castUuid database documentId with
    | .error error => .error error
    | .ok none => .ok none
    | .ok (some document) =>
      match findMember castUuid database userId document.workspace_id with
      | .error error => .error error
      | .ok none => .ok none
      | .ok (some member) =>
        .ok (some ⟨document.id, .authenticated userId (mayWrite member.role) member.role⟩)

def authorizeDocument (credential : CollabCredential) (documentId : Text) :
    Except QueryError (Option HostedAccess) :=
  match credential with
  | .publicAccess => authorizePublicDocument castUuid database documentId
  | .accessToken token => authorizeAuthenticatedDocument castUuid getClaims database token documentId

def toRuntimeAccess (access : Option HostedAccess) (expectedDocumentId : Text) :
    Option DocumentAccess :=
  match access with
  | none => none
  | some access => if access.documentId ≠ expectedDocumentId then none else some access.access

def authorize (credential : CollabCredential) (documentId : Text) :
    Except QueryError (Option DocumentAccess) :=
  (authorizeDocument castUuid getClaims database credential documentId).map fun access =>
    toRuntimeAccess access documentId

end Prisma

/-- The credential is the token of a user who is no member of the public document's workspace. -/
def TokenOfNonMember (credential : CollabCredential) (documentId : Text) : Prop :=
  ∃ token userId document, credential = .accessToken token ∧
    userIdOf getClaims token = some userId ∧
    findDocument castUuid database documentId = .ok (some document) ∧ document.is_public = true ∧
    findMember castUuid database userId document.workspace_id = .ok none

end Hooks

section Agreement

variable {castUuid : Text → Option Text} {getClaims : Text → Option Text} {database : Database}

variable {documentId : Text}

variable {document : DocumentRow}

theorem findDocument_id (hcast : castUuid documentId = some documentId)
    (h : findDocument castUuid database documentId = .ok (some document)) :
    document.id = documentId := by
  unfold findDocument at h
  rw [hcast] at h
  have hfound := List.find?_some (Except.ok.inj h)
  exact of_decide_eq_true hfound

theorem findPublicDocument_spec (hcast : castUuid documentId = some documentId)
    (h : findPublicDocument castUuid database documentId = .ok (some document)) :
    document.id = documentId ∧ document.is_public = true := by
  unfold findPublicDocument at h
  rw [hcast] at h
  have hfound := List.find?_some (Except.ok.inj h)
  rw [Bool.and_eq_true, decide_eq_true_eq] at hfound
  exact hfound

theorem toRuntimeAccess_same (documentId : Text) (access : DocumentAccess) :
    Prisma.toRuntimeAccess (some ⟨documentId, access⟩) documentId = some access :=
  if_neg fun h => h rfl

theorem tokenOfNonMember_iff {token : NonBlank} {userId : Text}
    (huser : userIdOf getClaims token = some userId)
    (hdocument : findDocument castUuid database documentId = .ok (some document)) :
    TokenOfNonMember castUuid getClaims database (.accessToken token) documentId ↔
      document.is_public = true ∧
        findMember castUuid database userId document.workspace_id = .ok none := by
  constructor
  · rintro ⟨_, _, _, hcredential, hsome, hok, hpublic, hmember⟩
    cases hcredential
    rw [huser] at hsome
    cases hsome
    rw [hdocument] at hok
    cases hok
    exact ⟨hpublic, hmember⟩
  · rintro ⟨hpublic, hmember⟩
    exact ⟨token, userId, document, rfl, huser, hdocument, hpublic, hmember⟩

theorem not_tokenOfNonMember_publicAccess (documentId : Text) :
    ¬TokenOfNonMember castUuid getClaims database .publicAccess documentId := by
  rintro ⟨token, _, _, hcredential, _⟩
  cases hcredential

theorem not_tokenOfNonMember_invalid {token : NonBlank} (huser : userIdOf getClaims token = none) :
    ¬TokenOfNonMember castUuid getClaims database (.accessToken token) documentId := by
  rintro ⟨_, _, _, hcredential, hsome, _⟩
  cases hcredential
  rw [huser] at hsome
  cases hsome

theorem not_tokenOfNonMember_missing {token : NonBlank}
    (hdocument : ∀ document, findDocument castUuid database documentId ≠ .ok (some document)) :
    ¬TokenOfNonMember castUuid getClaims database (.accessToken token) documentId := by
  rintro ⟨_, _, document, _, _, hok, _⟩
  exact hdocument document hok

theorem public_hooks_agree (hcast : castUuid documentId = some documentId) :
    Prisma.authorize castUuid getClaims database .publicAccess documentId =
      Supabase.authorize castUuid getClaims database .publicAccess documentId := by
  unfold Prisma.authorize Supabase.authorize Prisma.authorizeDocument
  dsimp only
  unfold Prisma.authorizePublicDocument Supabase.authorizePublic
  cases hdocument : findPublicDocument castUuid database documentId with
  | error error => rfl
  | ok found =>
    cases found with
    | none => rfl
    | some document =>
      obtain ⟨hid, hpublic⟩ := findPublicDocument_spec hcast hdocument
      dsimp only [Except.map]
      rw [if_pos hpublic, hid, toRuntimeAccess_same]

theorem hooks_agree_iff {credential : CollabCredential} (hcast : castUuid documentId = some documentId) :
    Prisma.authorize castUuid getClaims database credential documentId =
        Supabase.authorize castUuid getClaims database credential documentId ↔
      ¬TokenOfNonMember castUuid getClaims database credential documentId := by
  cases credential with
  | publicAccess =>
    exact iff_of_true (public_hooks_agree hcast) (not_tokenOfNonMember_publicAccess documentId)
  | accessToken token =>
    unfold Prisma.authorize Supabase.authorize Prisma.authorizeDocument
    dsimp only
    unfold Prisma.authorizeAuthenticatedDocument Supabase.authorizeAuthenticated
    cases huser : userIdOf getClaims token with
    | none => exact iff_of_true rfl (not_tokenOfNonMember_invalid huser)
    | some userId =>
      dsimp only
      cases hdocument : findDocument castUuid database documentId with
      | error error =>
        refine iff_of_true rfl (not_tokenOfNonMember_missing fun document hok => ?_)
        rw [hdocument] at hok
        cases hok
      | ok found =>
        cases found with
        | none =>
          refine iff_of_true rfl (not_tokenOfNonMember_missing fun document hok => ?_)
          rw [hdocument] at hok
          cases hok
        | some document =>
          rw [tokenOfNonMember_iff huser hdocument]
          dsimp only
          cases hmember : findMember castUuid database userId document.workspace_id with
          | error error => exact iff_of_true rfl fun h => by cases h.2
          | ok found =>
            cases found with
            | none =>
              dsimp only [Except.map]
              by_cases hpublic : document.is_public = true
              · rw [if_pos hpublic]
                refine iff_of_false (fun heq => ?_) (fun hnot => hnot ⟨hpublic, rfl⟩)
                cases heq
              · rw [if_neg hpublic]
                exact iff_of_true rfl fun h => hpublic h.1
            | some member =>
              dsimp only [Except.map]
              rw [findDocument_id hcast hdocument, toRuntimeAccess_same]
              exact iff_of_true rfl fun h => by cases h.2

theorem supabase_access_cases {credential : CollabCredential} {access : DocumentAccess}
    (h : Supabase.authorize castUuid getClaims database credential documentId = .ok (some access)) :
    (credential = .publicAccess ∧ access = .publicAccess) ∨
      (TokenOfNonMember castUuid getClaims database credential documentId ∧
        access = .publicAccess) ∨
      ∃ token userId canWrite role, credential = .accessToken token ∧
        access = .authenticated userId canWrite role ∧ (castUuid userId).isSome = true := by
  unfold Supabase.authorize at h
  cases credential with
  | publicAccess =>
    dsimp only at h
    unfold Supabase.authorizePublic at h
    split at h
    · cases h
    · cases h
    · split at h
      · cases h
        exact .inl ⟨rfl, rfl⟩
      · cases h
  | accessToken token =>
    dsimp only at h
    unfold Supabase.authorizeAuthenticated at h
    split at h
    · cases h
    · next userId huser =>
        split at h
        · cases h
        · cases h
        · next document hdocument =>
            split at h
            · cases h
            · next hmember =>
                split at h
                · next hpublic =>
                    cases h
                    exact .inr (.inl ⟨(tokenOfNonMember_iff huser hdocument).mpr
                      ⟨hpublic, hmember⟩, rfl⟩)
                · cases h
            · next member hmember =>
                cases h
                refine .inr (.inr ⟨token, userId, _, _, rfl, rfl, ?_⟩)
                unfold findMember at hmember
                split at hmember
                · cases hmember
                · next hcast =>
                    rw [hcast]
                    rfl

end Agreement

end Softmaple.CollabHost
