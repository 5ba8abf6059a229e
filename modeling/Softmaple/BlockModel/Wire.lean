import Softmaple.BlockModel.RichTextEvent
import Softmaple.Lib.StateMethod
import Mathlib.Data.List.Sort

/-!
Validation of batches (`block-model/src/wire.ts`). The checks on the shape of
the JSON (objects, type tags, schema versions, unknown field names) are in the
types; what is left are the checks on values. URL parsing is the platform's.
-/
namespace Softmaple.BlockModel

open List

inductive WireError where
  | emptyString (label : String)
  | unsafeInteger (label : String)
  | emptyDelete (label : String)
  | emptyFields (label : String)
  | repeatedIds (label : String)
  | unpairedSurrogate (label : String)
  | linkAttributes (label : String)
  | markValue (label : String)
  | invalidAnchor (label : String)
  | markerCarrier
  | textCarrier
  | deleteCarrier
  | metadataCarrier
  | bootstrapMetadata
  | noEvents
  | batchIdNotFirst
  | parentsNotFirst
  | repeatedEventId (id : Text)
  | brokenChain
  | invalidBootstrap
  deriving DecidableEq, Repr

def check (condition : Bool) (error : WireError) : Except WireError Unit :=
  if condition then .ok () else .error error

def asNonEmptyString (input : Text) (label : String) : Except WireError Text :=
  if input = [] then .error (.emptyString label) else .ok input

def asNonNegativeSafeInteger (input : Nat) (label : String) : Except WireError Nat :=
  if isSafeInteger input then .ok input else .error (.unsafeInteger label)

def asSafeInteger (input : Int) (label : String) : Except WireError Int :=
  if isSafeInteger input.natAbs then .ok input else .error (.unsafeInteger label)

def parseNullable {α : Type} (parse : α → String → Except WireError α) (input : Option α)
    (label : String) : Except WireError (Option α) :=
  match input with
  | none => .ok none
  | some value => (parse value label).map some

def parseNullableString : Option Text → String → Except WireError (Option Text) :=
  parseNullable asNonEmptyString

def parseNullableSafeInteger : Option Nat → String → Except WireError (Option Nat) :=
  parseNullable asNonNegativeSafeInteger

def assertWellFormedUtf16 (value : Text) (label : String) : Except WireError Unit :=
  if Utf8.wellFormed value then .ok () else .error (.unpairedSurrogate label)

def isReserved (codeUnit : CodeUnit) : Bool :=
  decide ([codeUnit] = BLOCK_MARKER ∨ [codeUnit] = METADATA_MARKER ∨ [codeUnit] = TEXT_ESCAPE)

def escapeText (value : Text) : Text :=
  value.flatMap fun codeUnit =>
    if isReserved codeUnit then TEXT_ESCAPE ++ [codeUnit] else [codeUnit]

def encodeText (value : Text) : Except WireError Text := do
  assertWellFormedUtf16 value "text"
  return escapeText value

def toGraphEvent (event : RichTextEvent) : GraphEvent where
  id := event.id
  parentVersion := event.parentVersion
  timestamp := event.timestamp
  operation := event.operation

def fromGraphEvent (event : GraphEvent) (effect : RichTextEffect) : RichTextEvent where
  id := event.id
  parentVersion := event.parentVersion.insertionSort (· ≤ ·)
  timestamp := event.timestamp
  operation := event.operation
  effect := effect

/-- `parseFieldPatch`: a key is checked only where it is present. -/
def parseFieldPatch (fields : BlockFieldPatch) (label : String) :
    Except WireError BlockFieldPatch := do
  let parentId ← fields.parentId.mapM fun input => parseNullableString input s!"{label}.parentId"
  let language ← fields.language.mapM fun input => parseNullableString input s!"{label}.language"
  let theme ← fields.theme.mapM fun input => parseNullableString input s!"{label}.theme"
  let start ← fields.start.mapM fun input => parseNullableSafeInteger input s!"{label}.start"
  let value ← fields.value.mapM fun input => parseNullableSafeInteger input s!"{label}.value"
  return { fields with parentId, language, theme, start, value }

def parseCompleteFields (fields : CompleteBlockFields) (label : String) :
    Except WireError CompleteBlockFields := do
  let parentId ← parseNullableString fields.parentId s!"{label}.parentId"
  let language ← parseNullableString fields.language s!"{label}.language"
  let theme ← parseNullableString fields.theme s!"{label}.theme"
  let start ← parseNullableSafeInteger fields.start s!"{label}.start"
  let value ← parseNullableSafeInteger fields.value s!"{label}.value"
  return { fields with parentId, language, theme, start, value }

def isSequenceAnchor : SequenceAnchor → Bool
  | .atom eventId offset _ => !eventId.isEmpty && isSafeInteger offset
  | .startBoundary | .endBoundary => true

def parseOperation (operation : SerializedTextOperation) (label : String) :
    Except WireError SerializedTextOperation :=
  match operation with
  | .insert index value => do
      let index ← asNonNegativeSafeInteger index s!"{label}.index"
      let value ← asNonEmptyString value s!"{label}.text"
      assertWellFormedUtf16 value s!"{label}.text"
      return .insert index value
  | .delete index length => do
      let index ← asNonNegativeSafeInteger index s!"{label}.index"
      let length ← asNonNegativeSafeInteger length s!"{label}.length"
      check (length ≠ 0) (.emptyDelete s!"{label}.length")
      return .delete index length

def assertEffectCarrier (eventId : Text) (operation : SerializedTextOperation) :
    RichTextEffect → Except WireError Unit
  | .bootstrap _ _ | .blockCreate _ _ _ =>
    match operation with
    | .insert _ value => if value = BLOCK_MARKER then .ok () else .error .markerCarrier
    | .delete _ _ => .error .markerCarrier
  | .textInsert _ value =>
    match operation with
    | .insert _ carried => do
        let encoded ← encodeText value
        if carried = encoded then return () else throw .textCarrier
    | .delete _ _ => .error .textCarrier
  | .textDelete _ =>
    match operation with
    | .insert _ _ => .error .deleteCarrier
    | .delete _ _ => .ok ()
  | .blockSet _ _ | .blockJoin _ | .blockDelete _ | .markSet _ _ _ _ _ =>
    match operation with
    | .insert _ value =>
      if value ≠ METADATA_MARKER then .error .metadataCarrier
      else if eventId = BOOTSTRAP_EVENT_ID then .error .bootstrapMetadata
      else .ok ()
    | .delete _ _ => .error .metadataCarrier

def parseVersion (input : List Text) (label : String) : Except WireError (List Text) := do
  let version ← input.zipIdx.mapM fun (id, index) => asNonEmptyString id s!"{label}[{index}]"
  check version.Nodup (.repeatedIds label)
  return version.insertionSort (· ≤ ·)

def assertCausalChain : List Text → Option Text → List RichTextEvent → Except WireError Unit
  | _, _, [] => .ok ()
  | seen, previous, event :: rest =>
    if event.id ∈ seen then .error (.repeatedEventId event.id)
    else if previous.any fun id => decide (event.parentVersion ≠ [id]) then .error .brokenChain
    else assertCausalChain (event.id :: seen) (some event.id) rest

variable (isSafeLinkUrl : Text → Bool)

def isLinkAttributes (attributes : LinkAttributes) : Bool := isSafeLinkUrl attributes.url

def parseMarkValue (kind : MarkKind) (input : Option MarkValue) (label : String) :
    Except WireError (Option MarkValue) :=
  match input with
  | none => .ok none
  | some .on => if kind = .link then .error (.linkAttributes label) else .ok (some .on)
  | some (.link attributes) =>
    if kind = .link then
      if isLinkAttributes isSafeLinkUrl attributes then .ok (some (.link attributes))
      else .error (.linkAttributes label)
    else .error (.markValue label)

def parseEffect (effect : RichTextEffect) (label : String) : Except WireError RichTextEffect :=
  match effect with
  | .bootstrap blockId fields => do
      let blockId ← asNonEmptyString blockId s!"{label}.blockId"
      let fields ← parseCompleteFields fields s!"{label}.fields"
      return .bootstrap blockId fields
  | .blockCreate blockId sourceBlockId fields => do
      let blockId ← asNonEmptyString blockId s!"{label}.blockId"
      let sourceBlockId ← parseNullableString sourceBlockId s!"{label}.sourceBlockId"
      let fields ← parseCompleteFields fields s!"{label}.fields"
      return .blockCreate blockId sourceBlockId fields
  | .textInsert blockId value => do
      let value ← asNonEmptyString value s!"{label}.text"
      assertWellFormedUtf16 value s!"{label}.text"
      let blockId ← asNonEmptyString blockId s!"{label}.blockId"
      return .textInsert blockId value
  | .textDelete blockId => return .textDelete (← asNonEmptyString blockId s!"{label}.blockId")
  | .blockJoin blockId => return .blockJoin (← asNonEmptyString blockId s!"{label}.blockId")
  | .blockDelete blockId => return .blockDelete (← asNonEmptyString blockId s!"{label}.blockId")
  | .blockSet blockId fields => do
      let fields ← parseFieldPatch fields s!"{label}.fields"
      check (fields ≠ ⟨none, none, none, none, none, none, none⟩) (.emptyFields s!"{label}.fields")
      let blockId ← asNonEmptyString blockId s!"{label}.blockId"
      return .blockSet blockId fields
  | .markSet blockId kind value start stop => do
      check (isSequenceAnchor start && isSequenceAnchor stop) (.invalidAnchor s!"{label}.range")
      let value ← parseMarkValue isSafeLinkUrl kind value s!"{label}.value"
      let blockId ← asNonEmptyString blockId s!"{label}.blockId"
      return .markSet blockId kind value start stop

def parseEvent (event : RichTextEvent) (label : String) : Except WireError RichTextEvent := do
  let id ← asNonEmptyString event.id s!"{label}.id"
  let parentVersion ← parseVersion event.parentVersion s!"{label}.parentVersion"
  let timestamp ← asSafeInteger event.timestamp s!"{label}.timestamp"
  let operation ← parseOperation event.operation s!"{label}.operation"
  let effect ← parseEffect isSafeLinkUrl event.effect s!"{label}.effect"
  assertEffectCarrier id operation effect
  return { id, parentVersion, timestamp, operation, effect }

/-- `parseBatch` up to the comparison with the bootstrap batch. -/
def parseBatch (batch : RichTextEventBatch) : Except WireError RichTextEventBatch := do
  let batchId ← asNonEmptyString batch.batchId "batchId"
  let parentVersion ← parseVersion batch.parentVersion "parentVersion"
  let events ← batch.events.zipIdx.mapM fun (event, index) =>
    parseEvent isSafeLinkUrl event s!"events[{index}]"
  match events with
  | [] => throw .noEvents
  | first :: _ =>
    check (batchId = first.id ∨ batchId = BOOTSTRAP_BATCH_ID) .batchIdNotFirst
    check (parentVersion = first.parentVersion) .parentsNotFirst
    assertCausalChain [] none events
    let parsed : RichTextEventBatch := { batchId, parentVersion, events }
    check (batchId ≠ BOOTSTRAP_BATCH_ID ∨ parsed = BOOTSTRAP_BATCH) .invalidBootstrap
    return parsed

section Accepted

open StateMethod

variable {isSafeLinkUrl : Text → Bool} {label : String}

theorem check_eq_ok {condition : Bool} {error : WireError} :
    check condition error = .ok () ↔ condition = true := by
  cases condition with
  | false => simp [check]
  | true => simp [check]

theorem asNonEmptyString_eq_ok {input out : Text} :
    asNonEmptyString input label = .ok out ↔ input ≠ [] ∧ out = input := by
  unfold asNonEmptyString
  by_cases hempty : input = []
  · simp [hempty]
  · simp [hempty, eq_comm]

def Gives {α : Type} (parsed : Except WireError α) (value : α) : Prop :=
  ∀ out, parsed = .ok out → out = value

namespace Gives

variable {α β : Type} {parsed : Except WireError α} {value : α} {out : β}
  {next : α → Except WireError β}

theorem pure (value : α) : Gives (.ok value) value := fun _ h => (Except.ok.inj h).symm

theorem bind (h : Gives parsed value) (hnext : Gives (next value) out) :
    Gives (parsed >>= next) out := by
  intro result hresult
  obtain ⟨value', hvalue, hrest⟩ := except_bind_eq_ok.mp hresult
  rw [h value' hvalue] at hrest
  exact hnext result hrest

theorem after (hnext : ∀ value, Gives (next value) out) : Gives (parsed >>= next) out := by
  intro result hresult
  obtain ⟨value', -, hrest⟩ := except_bind_eq_ok.mp hresult
  exact hnext value' result hrest

theorem ite {condition : Prop} [Decidable condition] {error : WireError} :
    Gives (if condition then .ok value else .error error) value := by
  split
  · exact pure value
  · intro _ h
    cases h

end Gives

theorem asNonEmptyString_same (input : Text) : Gives (asNonEmptyString input label) input :=
  fun _ h => (asNonEmptyString_eq_ok.mp h).2

theorem asNonNegativeSafeInteger_same (input : Nat) :
    Gives (asNonNegativeSafeInteger input label) input :=
  Gives.ite

theorem parseNullable_same {α : Type} {parse : α → String → Except WireError α}
    (hparse : ∀ input, Gives (parse input label) input) (input : Option α) :
    Gives (parseNullable parse input label) input := by
  cases input with
  | none => exact Gives.pure none
  | some value =>
    intro out h
    have hvalue : (parse value label).map some = .ok out := h
    obtain ⟨result, hresult, hvalue⟩ := except_bind_eq_ok.mp hvalue
    rw [hparse value result hresult] at hvalue
    exact (Except.ok.inj hvalue).symm

theorem parseNullableString_same (input : Option Text) :
    Gives (parseNullableString input label) input :=
  parseNullable_same asNonEmptyString_same input

theorem parseNullableSafeInteger_same (input : Option Nat) :
    Gives (parseNullableSafeInteger input label) input :=
  parseNullable_same asNonNegativeSafeInteger_same input

theorem mapM_same {α : Type} {parse : α → Except WireError α}
    (hparse : ∀ input, Gives (parse input) input) (input : Option α) :
    Gives (input.mapM parse) input := by
  cases input with
  | none => exact Gives.pure none
  | some value => exact (hparse value).bind (Gives.pure (some value))

theorem parseFieldPatch_same (fields : BlockFieldPatch) :
    Gives (parseFieldPatch fields label) fields :=
  (mapM_same parseNullableString_same _).bind <| (mapM_same parseNullableString_same _).bind <|
    (mapM_same parseNullableString_same _).bind <|
    (mapM_same parseNullableSafeInteger_same _).bind <|
    (mapM_same parseNullableSafeInteger_same _).bind <| Gives.pure fields

theorem parseCompleteFields_same (fields : CompleteBlockFields) :
    Gives (parseCompleteFields fields label) fields :=
  (parseNullableString_same _).bind <| (parseNullableString_same _).bind <|
    (parseNullableString_same _).bind <| (parseNullableSafeInteger_same _).bind <|
    (parseNullableSafeInteger_same _).bind <| Gives.pure fields

theorem parseOperation_same (operation : SerializedTextOperation) :
    Gives (parseOperation operation label) operation := by
  cases operation with
  | insert index value =>
    exact (asNonNegativeSafeInteger_same index).bind <| (asNonEmptyString_same value).bind <|
      Gives.after fun _ => Gives.pure _
  | delete index length =>
    exact (asNonNegativeSafeInteger_same index).bind <|
      (asNonNegativeSafeInteger_same length).bind <| Gives.after fun _ => Gives.pure _

theorem parseMarkValue_same (kind : MarkKind) (input : Option MarkValue) :
    Gives (parseMarkValue isSafeLinkUrl kind input label) input := by
  intro out h
  unfold parseMarkValue at h
  split at h
  · exact (Except.ok.inj h).symm
  · split at h
    · cases h
    · exact (Except.ok.inj h).symm
  · split at h
    · exact Gives.ite out h
    · cases h

theorem parseEffect_same (effect : RichTextEffect) :
    Gives (parseEffect isSafeLinkUrl effect label) effect := by
  cases effect with
  | bootstrap blockId fields =>
    exact (asNonEmptyString_same blockId).bind <| (parseCompleteFields_same fields).bind <|
      Gives.pure _
  | blockCreate blockId sourceBlockId fields =>
    exact (asNonEmptyString_same blockId).bind <| (parseNullableString_same sourceBlockId).bind <|
      (parseCompleteFields_same fields).bind <| Gives.pure _
  | textInsert blockId value =>
    exact (asNonEmptyString_same value).bind <| Gives.after fun _ =>
      (asNonEmptyString_same blockId).bind <| Gives.pure _
  | textDelete blockId | blockJoin blockId | blockDelete blockId =>
    exact (asNonEmptyString_same blockId).bind <| Gives.pure _
  | blockSet blockId fields =>
    exact (parseFieldPatch_same fields).bind <| Gives.after fun _ =>
      (asNonEmptyString_same blockId).bind <| Gives.pure _
  | markSet blockId kind value start stop =>
    exact Gives.after fun _ => (parseMarkValue_same kind value).bind <|
      (asNonEmptyString_same blockId).bind <| Gives.pure _

theorem parseVersion_eq_ok {input out : List Text} : parseVersion input label = .ok out ↔
      (∀ id ∈ input, id ≠ []) ∧ input.Nodup ∧ out = input.insertionSort (· ≤ ·) := by
  have hids : ∀ version : List Text,
      (input.zipIdx.mapM fun (id, index) => asNonEmptyString id s!"{label}[{index}]") =
        .ok version ↔ (∀ id ∈ input, id ≠ []) ∧ version = input := by
    intro version
    generalize 0 = start
    rw [except_mapM_eq_ok]
    induction input generalizing version start with
    | nil => simp
    | cons id input ih =>
      rw [zipIdx_cons]
      constructor
      · intro h
        cases h with
        | cons hid hrest =>
          obtain ⟨hne, hout⟩ := asNonEmptyString_eq_ok.mp hid
          obtain ⟨hall, hversion⟩ := (ih _ _).mp hrest
          rw [hout, hversion]
          exact ⟨forall_mem_cons.mpr ⟨hne, hall⟩, rfl⟩
      · rintro ⟨hall, rfl⟩
        rw [forall_mem_cons] at hall
        exact .cons (asNonEmptyString_eq_ok.mpr ⟨hall.1, rfl⟩) ((ih _ _).mpr ⟨hall.2, rfl⟩)
  unfold parseVersion
  constructor
  · intro h
    obtain ⟨version, hversion, hrest⟩ := except_bind_eq_ok.mp h
    obtain ⟨⟨⟩, hnodup, hout⟩ := except_bind_eq_ok.mp hrest
    obtain ⟨hall, hsame⟩ := (hids version).mp hversion
    rw [hsame] at hnodup hout
    exact ⟨hall, of_decide_eq_true (check_eq_ok.mp hnodup), (Except.ok.inj hout).symm⟩
  · rintro ⟨hall, hnodup, rfl⟩
    refine except_bind_eq_ok.mpr ⟨input, (hids input).mpr ⟨hall, rfl⟩, ?_⟩
    exact except_bind_eq_ok.mpr ⟨⟨⟩, check_eq_ok.mpr (decide_eq_true hnodup), rfl⟩

theorem parseVersion_again {input out : List Text} (h : parseVersion input label = .ok out) :
    parseVersion out label = .ok out := by
  obtain ⟨hall, hnodup, rfl⟩ := parseVersion_eq_ok.mp h
  have hperm := perm_insertionSort (· ≤ ·) input
  have hsorted : (input.insertionSort (· ≤ ·)).Pairwise (· ≤ ·) :=
    pairwise_insertionSort (· ≤ ·) input
  apply parseVersion_eq_ok.mpr
  refine ⟨fun id hid => hall id (hperm.subset hid), hperm.nodup_iff.mpr hnodup, ?_⟩
  exact (List.Pairwise.insertionSort_eq hsorted).symm

theorem parseEvent_eq_ok {event out : RichTextEvent}
    (h : parseEvent isSafeLinkUrl event label = .ok out) :
    out.id = event.id ∧ out.operation = event.operation ∧ out.effect = event.effect ∧
      parseEvent isSafeLinkUrl out label = .ok out := by
  obtain ⟨id, hid, h⟩ := except_bind_eq_ok.mp h
  obtain ⟨parentVersion, hparents, h⟩ := except_bind_eq_ok.mp h
  obtain ⟨timestamp, htimestamp, h⟩ := except_bind_eq_ok.mp h
  obtain ⟨operation, hoperation, h⟩ := except_bind_eq_ok.mp h
  obtain ⟨effect, heffect, h⟩ := except_bind_eq_ok.mp h
  obtain ⟨⟨⟩, hcarrier, h⟩ := except_bind_eq_ok.mp h
  have hsameId := asNonEmptyString_same _ _ hid
  have hsameOperation := parseOperation_same _ _ hoperation
  have hsameEffect := parseEffect_same _ _ heffect
  have hsameTimestamp : timestamp = event.timestamp := Gives.ite _ htimestamp
  subst hsameId hsameOperation hsameEffect hsameTimestamp
  cases h
  refine ⟨rfl, rfl, rfl, ?_⟩
  refine except_bind_eq_ok.mpr ⟨_, hid, except_bind_eq_ok.mpr
    ⟨_, parseVersion_again hparents, except_bind_eq_ok.mpr ⟨_, htimestamp, ?_⟩⟩⟩
  refine except_bind_eq_ok.mpr ⟨_, hoperation, except_bind_eq_ok.mpr ⟨_, heffect, ?_⟩⟩
  exact except_bind_eq_ok.mpr ⟨⟨⟩, hcarrier, rfl⟩

theorem parseBatch_eq_ok {batch out : RichTextEventBatch}
    (h : parseBatch isSafeLinkUrl batch = .ok out) :
    out.batchId = batch.batchId ∧ out.eventIds = batch.eventIds ∧
      parseBatch isSafeLinkUrl out = .ok out := by
  obtain ⟨batchId, hbatchId, h⟩ := except_bind_eq_ok.mp h
  obtain ⟨parentVersion, hparents, h⟩ := except_bind_eq_ok.mp h
  obtain ⟨events, hevents, h⟩ := except_bind_eq_ok.mp h
  have hsameId := (asNonEmptyString_eq_ok.mp hbatchId).2
  subst hsameId
  -- Every event is accepted again, at its own index.
  have hagain : ∀ (start : Nat) (items outs : List RichTextEvent),
      (items.zipIdx start).mapM (fun (event, index) =>
        parseEvent isSafeLinkUrl event s!"events[{index}]") = .ok outs →
      outs.map (·.id) = items.map (·.id) ∧
        (outs.zipIdx start).mapM (fun (event, index) =>
          parseEvent isSafeLinkUrl event s!"events[{index}]") = .ok outs := by
    intro start items
    induction items generalizing start with
    | nil =>
      intro outs hitems
      cases Except.ok.inj hitems
      exact ⟨rfl, rfl⟩
    | cons item items ih =>
      intro outs hitems
      rw [zipIdx_cons, except_mapM_eq_ok] at hitems
      cases hitems with
      | cons hfirst hrest =>
        obtain ⟨hid, -, -, hfirstAgain⟩ := parseEvent_eq_ok hfirst
        obtain ⟨hids, hrestAgain⟩ := ih _ _ (except_mapM_eq_ok.mpr hrest)
        refine ⟨by rw [map_cons, map_cons, hid, hids], ?_⟩
        rw [zipIdx_cons, except_mapM_eq_ok]
        exact .cons hfirstAgain (except_mapM_eq_ok.mp hrestAgain)
  obtain ⟨hids, heventsAgain⟩ := hagain 0 batch.events events hevents
  have hout : out = { batchId := batch.batchId, parentVersion, events } := by
    cases events with
    | nil => cases h
    | cons first rest =>
      obtain ⟨-, -, h⟩ := except_bind_eq_ok.mp h
      obtain ⟨-, -, h⟩ := except_bind_eq_ok.mp h
      obtain ⟨-, -, h⟩ := except_bind_eq_ok.mp h
      obtain ⟨-, -, h⟩ := except_bind_eq_ok.mp h
      exact (Except.ok.inj h).symm
  subst hout
  refine ⟨rfl, hids, ?_⟩
  exact except_bind_eq_ok.mpr ⟨_, hbatchId, except_bind_eq_ok.mpr
    ⟨_, parseVersion_again hparents, except_bind_eq_ok.mpr ⟨_, heventsAgain, h⟩⟩⟩

theorem assertCausalChain_nodup {seen : List Text} {previous : Option Text}
    {events : List RichTextEvent} (h : assertCausalChain seen previous events = .ok ⟨⟩) :
    (events.map (·.id)).Nodup ∧ ∀ event ∈ events, event.id ∉ seen := by
  induction events generalizing seen previous with
  | nil => exact ⟨nodup_nil, fun _ hmem => absurd hmem not_mem_nil⟩
  | cons event events ih =>
    rw [assertCausalChain] at h
    split at h
    · cases h
    · next hunseen =>
        split at h
        · cases h
        · obtain ⟨hnodup, hrest⟩ := ih h
          refine ⟨nodup_cons.mpr ⟨?_, hnodup⟩, ?_⟩
          · intro hmem
            obtain ⟨other, hother, heq⟩ := mem_map.mp hmem
            exact hrest other hother (heq ▸ mem_cons_self)
          · intro other hother
            cases mem_cons.mp hother with
            | inl heq => exact heq ▸ hunseen
            | inr hmem =>
              exact fun hseen => hrest other hmem (mem_cons_of_mem _ hseen)

theorem parseBatch_named {batch out : RichTextEventBatch}
    (h : parseBatch isSafeLinkUrl batch = .ok out) :
    (out.batchId ∈ out.eventIds ∨ out.batchId = BOOTSTRAP_BATCH_ID) ∧ out.eventIds.Nodup := by
  obtain ⟨batchId, -, h⟩ := except_bind_eq_ok.mp h
  obtain ⟨parentVersion, -, h⟩ := except_bind_eq_ok.mp h
  obtain ⟨events, -, h⟩ := except_bind_eq_ok.mp h
  cases events with
  | nil => cases h
  | cons first rest =>
    obtain ⟨⟨⟩, hname, h⟩ := except_bind_eq_ok.mp h
    obtain ⟨⟨⟩, -, h⟩ := except_bind_eq_ok.mp h
    obtain ⟨⟨⟩, hchain, h⟩ := except_bind_eq_ok.mp h
    obtain ⟨⟨⟩, -, h⟩ := except_bind_eq_ok.mp h
    cases Except.ok.inj h
    refine ⟨?_, (assertCausalChain_nodup hchain).1⟩
    cases of_decide_eq_true (check_eq_ok.mp hname) with
    | inl hfirst => exact Or.inl (hfirst ▸ mem_cons_self)
    | inr hbootstrap => exact Or.inr hbootstrap

end Accepted

end Softmaple.BlockModel
