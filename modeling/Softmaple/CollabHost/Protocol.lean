import Mathlib.Data.List.TakeWhile
import Softmaple.Lib.Json
import Softmaple.EgWalker.EventId

/-!
The two messages that open a collaboration session (`collab-protocol/src/index.ts`):
`Auth` from the client and `Ready` from the host, in the current version and in
the legacy one, and their parsers.
-/
namespace Softmaple.CollabHost

open Json

def COLLAB_PROTOCOL_VERSION : Int := 3

def LEGACY_COLLAB_PROTOCOL_VERSION : Int := 2

def isWhiteSpace (unit : CodeUnit) : Bool :=
  [0x09, 0x0a, 0x0b, 0x0c, 0x0d, 0x20, 0xa0, 0x1680, 0x2028, 0x2029, 0x202f, 0x205f, 0x3000,
    0xfeff].contains unit.val || (0x2000 ≤ unit.val && unit.val ≤ 0x200a)

def trim (value : Text) : Text :=
  ((value.dropWhile isWhiteSpace).reverse.dropWhile isWhiteSpace).reverse

def isNonEmptyString (value : Text) : Bool := decide (0 < (trim value).length)

theorem isNonEmptyString_of_mem {value : Text} {unit : CodeUnit} (hmem : unit ∈ value)
    (hunit : isWhiteSpace unit = false) : isNonEmptyString value = true := by
  have hfront : unit ∈ value.dropWhile isWhiteSpace := by
    induction value with
    | nil => exact hmem
    | cons head rest ih =>
      rw [List.dropWhile_cons]
      split
      · next hblank =>
          cases hmem with
          | head => rw [hunit] at hblank; exact absurd hblank Bool.false_ne_true
          | tail _ hrest => exact ih hrest
      · exact hmem
  have hback : (value.dropWhile isWhiteSpace).reverse.dropWhile isWhiteSpace ≠ [] := by
    intro hnil
    have hblank := List.dropWhile_eq_nil_iff.mp hnil unit (List.mem_reverse.mpr hfront)
    rw [hunit] at hblank
    exact Bool.false_ne_true hblank
  unfold isNonEmptyString trim
  rw [decide_eq_true_eq, List.length_reverse]
  exact List.length_pos_iff.mpr hback

abbrev NonBlank := {value : Text // isNonEmptyString value = true}

def parseNonBlank (value : Option (Json .value)) : Option NonBlank := do
  let read ← asString value
  if h : isNonEmptyString read = true then some ⟨read, h⟩ else none

inductive CollabRole where
  | owner
  | editor
  | viewer
  deriving DecidableEq, Repr

inductive CollabAccessMode where
  | authenticated
  | publicAccess
  deriving DecidableEq, Repr

inductive CollabCredential where
  | accessToken (token : NonBlank)
  | publicAccess
  deriving DecidableEq

inductive AuthMessage where
  | current (credential : CollabCredential) (documentId sessionId : NonBlank)
  | legacy (accessToken documentId sessionId : NonBlank)
  deriving DecidableEq

inductive ProtocolVersion where
  | current
  | legacy
  deriving DecidableEq, Repr

inductive ReadyMessage where
  | current (accessMode : CollabAccessMode) (documentId : Text) (userId : Option Text)
      (role : Option CollabRole) (canWrite : Bool)
  | legacy (documentId userId : Text) (role : CollabRole) (canWrite : Bool)
  deriving DecidableEq, Repr

namespace ProtocolVersion

def parse (value : Option (Json .value)) : Option ProtocolVersion :=
  match asNumber value with
  | some read =>
    if read = COLLAB_PROTOCOL_VERSION then some .current
    else if read = LEGACY_COLLAB_PROTOCOL_VERSION then some .legacy
    else none
  | none => none

@[simp]
theorem parse_current : parse (some (.number COLLAB_PROTOCOL_VERSION)) = some .current := rfl

@[simp]
theorem parse_legacy : parse (some (.number LEGACY_COLLAB_PROTOCOL_VERSION)) = some .legacy := rfl

end ProtocolVersion

namespace AuthMessage

def protocolVersion : AuthMessage → ProtocolVersion
  | .current _ _ _ => .current
  | .legacy _ _ _ => .legacy

def documentId : AuthMessage → Text
  | .current _ documentId _ | .legacy _ documentId _ => documentId.val

def sessionId : AuthMessage → Text
  | .current _ _ sessionId | .legacy _ _ sessionId => sessionId.val

def withDocumentId (documentId : NonBlank) : AuthMessage → AuthMessage
  | .current credential _ sessionId => .current credential documentId sessionId
  | .legacy accessToken _ sessionId => .legacy accessToken documentId sessionId

end AuthMessage

def credentialFromAuth : AuthMessage → CollabCredential
  | .current credential _ _ => credential
  | .legacy accessToken _ _ => .accessToken accessToken

namespace ReadyMessage

def protocolVersion : ReadyMessage → ProtocolVersion
  | .current _ _ _ _ _ => .current
  | .legacy _ _ _ _ => .legacy

def documentId : ReadyMessage → Text
  | .current _ documentId _ _ _ | .legacy documentId _ _ _ => documentId

end ReadyMessage

section Parsing

def parseCredential (value : Option (Json .value)) : Option CollabCredential := do
  let record ← value
  if !record.isRecord then none
  else
    let kind ← parseNonBlank (record.get "kind")
    if kind.val = literal "public" then some .publicAccess
    else if kind.val = literal "access-token" then
      return .accessToken (← parseNonBlank (record.get "token"))
    else none

/-- The `Auth` case of `parseClientCollabMessage`. -/
def parseAuth (value : Json .value) : Option AuthMessage := do
  if !value.isRecord then none
  else
    let version ← ProtocolVersion.parse (value.get "protocolVersion")
    if asString (value.get "type") ≠ some (literal "auth") then none
    else
      let documentId ← parseNonBlank (value.get "documentId")
      let sessionId ← parseNonBlank (value.get "sessionId")
      match version with
      | .legacy => return .legacy (← parseNonBlank (value.get "accessToken")) documentId sessionId
      | .current => return .current (← parseCredential (value.get "credential")) documentId sessionId

def parseRole (value : Option (Json .value)) : Option CollabRole :=
  match asString value with
  | some read =>
    if read = literal "OWNER" then some .owner
    else if read = literal "EDITOR" then some .editor
    else if read = literal "VIEWER" then some .viewer
    else none
  | none => none

def parseAccessMode (value : Option (Json .value)) : Option CollabAccessMode :=
  match asString value with
  | some read =>
    if read = literal "authenticated" then some .authenticated
    else if read = literal "public" then some .publicAccess
    else none
  | none => none

/-- `value === null || parse(value)`. -/
def parseNullable {α : Type} (parse : Option (Json .value) → Option α)
    (value : Option (Json .value)) : Option (Option α) :=
  match value with
  | some .null => some none
  | other => (parse other).map some

/-- The `Ready` case of `parseServerCollabMessage`. -/
def parseReady (value : Json .value) : Option ReadyMessage := do
  if !value.isRecord then none
  else
    let version ← ProtocolVersion.parse (value.get "protocolVersion")
    if asString (value.get "type") ≠ some (literal "ready") then none
    else
      let documentId ← parseNonBlank (value.get "documentId")
      let canWrite ← asBoolean (value.get "canWrite")
      match version with
      | .legacy =>
        let userId ← parseNonBlank (value.get "userId")
        let role ← parseRole (value.get "role")
        return .legacy documentId.val userId.val role canWrite
      | .current =>
        let accessMode ← parseAccessMode (value.get "accessMode")
        let userId ← parseNullable parseNonBlank (value.get "userId")
        let role ← parseNullable parseRole (value.get "role")
        if accessMode = .publicAccess ∧ (userId.isSome ∨ role.isSome ∨ canWrite) then none
        else return .current accessMode documentId.val (userId.map (·.val)) role canWrite

end Parsing

section Writing

def roleText : CollabRole → Text
  | .owner => literal "OWNER"
  | .editor => literal "EDITOR"
  | .viewer => literal "VIEWER"

def accessModeText : CollabAccessMode → Text
  | .authenticated => literal "authenticated"
  | .publicAccess => literal "public"

def nullable {α : Type} (write : α → Json .value) : Option α → Json .value
  | none => .null
  | some value => write value

def credentialJson : CollabCredential → Json .value
  | .accessToken token =>
    objectOf [("kind", .string (literal "access-token")), ("token", .string token.val)]
  | .publicAccess => objectOf [("kind", .string (literal "public"))]

def authJson : AuthMessage → Json .value
  | .current credential documentId sessionId =>
    objectOf [("protocolVersion", .number COLLAB_PROTOCOL_VERSION),
      ("type", .string (literal "auth")), ("credential", credentialJson credential),
      ("documentId", .string documentId.val), ("sessionId", .string sessionId.val)]
  | .legacy accessToken documentId sessionId =>
    objectOf [("protocolVersion", .number LEGACY_COLLAB_PROTOCOL_VERSION),
      ("type", .string (literal "auth")), ("accessToken", .string accessToken.val),
      ("documentId", .string documentId.val), ("sessionId", .string sessionId.val)]

def readyJson : ReadyMessage → Json .value
  | .current accessMode documentId userId role canWrite =>
    objectOf [("protocolVersion", .number COLLAB_PROTOCOL_VERSION),
      ("type", .string (literal "ready")), ("accessMode", .string (accessModeText accessMode)),
      ("documentId", .string documentId), ("userId", nullable .string userId),
      ("role", nullable (fun role => .string (roleText role)) role),
      ("canWrite", .boolean canWrite)]
  | .legacy documentId userId role canWrite =>
    objectOf [("protocolVersion", .number LEGACY_COLLAB_PROTOCOL_VERSION),
      ("type", .string (literal "ready")), ("documentId", .string documentId),
      ("userId", .string userId), ("role", .string (roleText role)),
      ("canWrite", .boolean canWrite)]

end Writing

section ReadBack

@[simp]
theorem parseNonBlank_string (value : NonBlank) :
    parseNonBlank (some (.string value.val)) = some value := by
  simp [parseNonBlank, asString, value.property]

@[simp]
theorem parseRole_roleText (role : CollabRole) :
    parseRole (some (.string (roleText role))) = some role := by
  cases role with
  | owner => decide
  | editor => decide
  | viewer => decide

@[simp]
theorem parseAccessMode_accessModeText (mode : CollabAccessMode) :
    parseAccessMode (some (.string (accessModeText mode))) = some mode := by
  cases mode with
  | authenticated => decide
  | publicAccess => decide

@[simp]
theorem parseCredential_credentialJson (credential : CollabCredential) :
    parseCredential (some (credentialJson credential)) = some credential := by
  have hkinds : literal "access-token" ≠ literal "public" := by decide
  have htoken : isNonEmptyString (literal "access-token") = true := by decide
  have hpublic : isNonEmptyString (literal "public") = true := by decide
  cases credential with
  | accessToken token =>
    have hkind := parseNonBlank_string ⟨literal "access-token", htoken⟩
    dsimp only at hkind
    unfold parseCredential credentialJson
    simp (disch := decide) only [Option.bind_eq_bind, Option.bind_some, get_objectOf_same,
      get_objectOf_other]
    simp [hkind, hkinds]
  | publicAccess =>
    have hkind := parseNonBlank_string ⟨literal "public", hpublic⟩
    dsimp only at hkind
    unfold parseCredential credentialJson
    simp only [Option.bind_eq_bind, Option.bind_some, get_objectOf_same]
    simp [hkind]

theorem parseAuth_authJson (auth : AuthMessage) : parseAuth (authJson auth) = some auth := by
  cases auth with
  | current credential documentId sessionId =>
    unfold parseAuth authJson
    simp (disch := decide) only [get_objectOf_same, get_objectOf_other]
    simp
  | legacy accessToken documentId sessionId =>
    unfold parseAuth authJson
    simp (disch := decide) only [get_objectOf_same, get_objectOf_other]
    simp

/-- What `parseReady` asks of a message beside its shape. -/
def ReadyMessage.Readable : ReadyMessage → Prop
  | .current accessMode documentId userId role canWrite =>
    isNonEmptyString documentId = true ∧ (∀ id ∈ userId, isNonEmptyString id = true) ∧
      (accessMode = .publicAccess → userId = none ∧ role = none ∧ canWrite = false)
  | .legacy documentId userId _ _ =>
    isNonEmptyString documentId = true ∧ isNonEmptyString userId = true

theorem parseNullable_string {userId : Option Text}
    (h : ∀ id ∈ userId, isNonEmptyString id = true) :
    ∃ read, parseNullable parseNonBlank (some (nullable .string userId)) = some read ∧
      read.map (·.val) = userId := by
  cases userId with
  | none => exact ⟨none, rfl, rfl⟩
  | some id =>
    have hid := parseNonBlank_string ⟨id, h id rfl⟩
    dsimp only at hid
    refine ⟨some ⟨id, h id rfl⟩, ?_, rfl⟩
    rw [nullable, parseNullable, hid]
    · rfl
    · intro hnull
      cases hnull

theorem parseNullable_role (role : Option CollabRole) :
    parseNullable parseRole (some (nullable (fun role => .string (roleText role)) role)) =
      some role := by
  cases role with
  | none => rfl
  | some role =>
    rw [nullable, parseNullable, parseRole_roleText]
    · rfl
    · intro hnull
      cases hnull

theorem parseReady_readyJson {ready : ReadyMessage} (h : ready.Readable) :
    parseReady (readyJson ready) = some ready := by
  cases ready with
  | current accessMode documentId userId role canWrite =>
    obtain ⟨hdocument, huser, hpublic⟩ := h
    obtain ⟨read, hread, hval⟩ := parseNullable_string huser
    have hid := parseNonBlank_string ⟨documentId, hdocument⟩
    dsimp only at hid
    have hanonymous : ¬(accessMode = .publicAccess ∧
        (read.isSome = true ∨ role.isSome = true ∨ canWrite = true)) := by
      rintro ⟨hmode, hsome⟩
      obtain ⟨hnone, hrole, hwrite⟩ := hpublic hmode
      rw [← hval, Option.map_eq_none_iff] at hnone
      rw [hnone, hrole, hwrite] at hsome
      simp at hsome
    unfold parseReady readyJson
    simp (disch := decide) only [get_objectOf_same, get_objectOf_other]
    simp only [isRecord_objectOf, ProtocolVersion.parse_current, hid, hread, parseNullable_role,
      parseAccessMode_accessModeText, asBoolean_boolean, asString_string, ne_eq,
      not_true_eq_false, Bool.not_true, Bool.false_eq_true, if_false, Option.bind_eq_bind,
      Option.bind_some]
    rw [if_neg hanonymous, hval]
    rfl
  | legacy documentId userId role canWrite =>
    have hid := parseNonBlank_string ⟨documentId, h.1⟩
    have huser := parseNonBlank_string ⟨userId, h.2⟩
    dsimp only at hid huser
    unfold parseReady readyJson
    simp (disch := decide) only [get_objectOf_same, get_objectOf_other]
    simp [hid, huser]

end ReadBack

end Softmaple.CollabHost
