import Softmaple.CollabHost.Protocol

/-!
The document a connection is routed to (`collab-cloudflare/src/document-id.ts`).
Every spelling of a UUID normalizes to one text, and that text to itself.
-/
namespace Softmaple.CollabHost

open Json List

def dash : CodeUnit := ascii '-'

/-- `[0-9a-f]` with the flag `i`. -/
def isHexDigit (unit : CodeUnit) : Bool :=
  isDigit unit || (65 ≤ unit.val && unit.val ≤ 70) || (97 ≤ unit.val && unit.val ≤ 102)

def lowerUnit (unit : CodeUnit) : CodeUnit :=
  if 65 ≤ unit.val && unit.val ≤ 90 then Utf8.unit (unit.val + 32) else unit

def matchesAll : List (CodeUnit → Bool) → Text → Bool
  | [], [] => true
  | test :: tests, unit :: units => test unit && matchesAll tests units
  | _, _ => false

def uuidPattern (version variant : CodeUnit → Bool) : List (CodeUnit → Bool) :=
  List.replicate 8 isHexDigit ++ (· == dash) :: (List.replicate 4 isHexDigit ++ (· == dash) ::
    version :: (List.replicate 3 isHexDigit ++ (· == dash) :: variant ::
      (List.replicate 3 isHexDigit ++ (· == dash) :: List.replicate 12 isHexDigit)))

def isVariant (unit : CodeUnit) : Bool :=
  decide (unit ∈ [ascii '8', ascii '9', ascii 'a', ascii 'b', ascii 'A', ascii 'B'])

def isDocumentVersion (unit : CodeUnit) : Bool := 49 ≤ unit.val && unit.val ≤ 56

def isDocumentId (text : Text) : Bool := matchesAll (uuidPattern isDocumentVersion isVariant) text

/-- `PEER_ID_PATTERN.test`. -/
def isPeerId (text : Text) : Bool := matchesAll (uuidPattern (· == ascii '4') isVariant) text

def unwrap (documentId : Text) : Text :=
  if documentId.head? = some (ascii '\x7b') ∧ documentId.getLast? = some (ascii '\x7d') then
    (documentId.drop 1).dropLast
  else documentId

/-- The digits in five groups. -/
def formatUuid (normalized : Text) : Text :=
  normalized.take 8 ++ dash :: ((normalized.drop 8).take 4 ++ dash :: ((normalized.drop 12).take 4 ++
    dash :: ((normalized.drop 16).take 4 ++ dash :: normalized.drop 20)))

def normalizeDocumentId (documentId : Text) : Option Text :=
  let compact := (unwrap documentId).filter (· != dash)
  if ¬(compact.length = 32 ∧ compact.all isHexDigit = true) then none
  else
    let formatted := formatUuid (compact.map lowerUnit)
    if isDocumentId formatted then some formatted else none

theorem isHexDigit_iff (unit : CodeUnit) : isHexDigit unit = true ↔
    48 ≤ unit.val ∧ unit.val ≤ 57 ∨ 65 ≤ unit.val ∧ unit.val ≤ 70 ∨
      97 ≤ unit.val ∧ unit.val ≤ 102 := by
  simp [isHexDigit, isDigit, or_assoc]

theorem lowerUnit_isHexDigit {unit : CodeUnit} (h : isHexDigit unit = true) :
    isHexDigit (lowerUnit unit) = true ∧ lowerUnit (lowerUnit unit) = lowerUnit unit := by
  rw [isHexDigit_iff] at h
  unfold lowerUnit
  by_cases hupper : 65 ≤ unit.val ∧ unit.val ≤ 90
  · have hval : (Utf8.unit (unit.val + 32)).val = unit.val + 32 := Utf8.val_unit (by omega)
    rw [if_pos (by simp only [Bool.and_eq_true, decide_eq_true_eq]; exact hupper)]
    constructor
    · rw [isHexDigit_iff, hval]
      omega
    · rw [if_neg (by simp only [Bool.and_eq_true, decide_eq_true_eq, hval]; omega)]
  · rw [if_neg (by simp only [Bool.and_eq_true, decide_eq_true_eq]; exact hupper)]
    constructor
    · exact (isHexDigit_iff unit).mpr h
    · rw [if_neg (by simp only [Bool.and_eq_true, decide_eq_true_eq]; exact hupper)]

section

variable {documentId raw : Text} (h : normalizeDocumentId raw = some documentId)
include h

theorem normalizeDocumentId_eq_some :
    ∃ normalized : Text, documentId = formatUuid normalized ∧ normalized.length = 32 ∧
      (∀ unit ∈ normalized, isHexDigit unit = true ∧ lowerUnit unit = unit) ∧
      isDocumentId documentId = true := by
  unfold normalizeDocumentId at h
  dsimp only at h
  split at h
  · cases h
  · next hcompact =>
      rw [not_not] at hcompact
      split at h
      · next hpattern =>
          cases h
          refine ⟨_, rfl, ?_, ?_, hpattern⟩
          · rw [length_map]
            exact hcompact.1
          · intro unit hunit
            obtain ⟨upper, hupper, rfl⟩ := mem_map.mp hunit
            exact lowerUnit_isHexDigit (all_eq_true.mp hcompact.2 upper hupper)
      · cases h

theorem isNonEmptyString_normalized : isNonEmptyString documentId = true := by
  obtain ⟨normalized, rfl, hlength, hdigits, -⟩ := normalizeDocumentId_eq_some h
  cases normalized with
  | nil => cases hlength
  | cons unit units =>
    have hunit := (isHexDigit_iff unit).mp (hdigits unit mem_cons_self).1
    have hmem : unit ∈ formatUuid (unit :: units) := mem_append_left _ mem_cons_self
    apply isNonEmptyString_of_mem hmem
    · unfold isWhiteSpace
      simp only [Bool.or_eq_false_iff, Bool.and_eq_false_iff, decide_eq_false_iff_not]
      constructor
      · rw [contains_eq_mem, decide_eq_false_iff_not]
        simp only [mem_cons, not_mem_nil, or_false]
        omega
      · omega

end

/-- A document ID as the router writes it. -/
abbrev DocumentId := {documentId : Text // normalizeDocumentId documentId = some documentId}

def DocumentId.toNonBlank (documentId : DocumentId) : NonBlank :=
  ⟨documentId.val, isNonEmptyString_normalized documentId.property⟩

/-- What `crypto.randomUUID` gives. -/
abbrev PeerId := {peerId : Text // isPeerId peerId = true}

def parseDocumentId (text : Text) : Option DocumentId :=
  if h : normalizeDocumentId text = some text then some ⟨text, h⟩ else none

end Softmaple.CollabHost
