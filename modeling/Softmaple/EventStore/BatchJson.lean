import Softmaple.Lib.Json
import Softmaple.BlockModel.RichTextEvent

/-!
Event batches as JSON (`block-model/src/types.ts`) and the hash the durable
store keeps of them (`event-store.ts`, `supabase-backend.ts`: one
`canonicalJson` in both). Objects are written with their keys in the order
`canonicalJson` gives them; SHA-256 comes from outside.
-/
namespace Softmaple.EventStore

open BlockModel Json List

def BLOCK_MODEL_SCHEMA_VERSION : Nat := 1

def record (fields : List (String × Json .value)) : Json .value :=
  .object (ofFields (fields.map fun entry => (literal entry.1, entry.2)))

/-- A record whose undefined keys are left out. -/
def partialRecord (fields : List (String × Option (Json .value))) : Json .value :=
  .object (ofFields (present (fields.map fun entry => (literal entry.1, entry.2))))

def list (items : List (Json .value)) : Json .value := .array (ofItems items)

def nullable {α : Type} (write : α → Json .value) : Option α → Json .value
  | none => .null
  | some value => write value

def natural (value : Nat) : Json .value := .number value

def blockTypeText : BlockType → Text
  | .paragraph => literal "paragraph"
  | .h1 => literal "h1"
  | .h2 => literal "h2"
  | .h3 => literal "h3"
  | .quote => literal "quote"
  | .code => literal "code"
  | .bulletList => literal "bullet-list"
  | .numberList => literal "number-list"
  | .checkList => literal "check-list"

def markKindText : MarkKind → Text
  | .bold => literal "bold"
  | .italic => literal "italic"
  | .underline => literal "underline"
  | .strike => literal "strike"
  | .inlineCode => literal "inline-code"
  | .link => literal "link"

def affinityText : AnchorAffinity → Text
  | .before => literal "before"
  | .after => literal "after"

def linkJson (attributes : LinkAttributes) : Json .value :=
  partialRecord [("rel", attributes.rel.map .string), ("target", attributes.target.map .string),
    ("title", attributes.title.map .string), ("url", some (.string attributes.url))]

def markValueJson : MarkValue → Json .value
  | .on => .boolean true
  | .link attributes => linkJson attributes

def completeFieldsJson (fields : CompleteBlockFields) : Json .value :=
  record [("checked", nullable .boolean fields.checked),
    ("language", nullable .string fields.language), ("parentId", nullable .string fields.parentId),
    ("start", nullable natural fields.start), ("theme", nullable .string fields.theme),
    ("type", .string (blockTypeText fields.type)), ("value", nullable natural fields.value)]

def fieldPatchJson (fields : BlockFieldPatch) : Json .value :=
  partialRecord [("checked", fields.checked.map (nullable .boolean)),
    ("language", fields.language.map (nullable .string)),
    ("parentId", fields.parentId.map (nullable .string)),
    ("start", fields.start.map (nullable natural)), ("theme", fields.theme.map (nullable .string)),
    ("type", fields.type.map fun type => .string (blockTypeText type)),
    ("value", fields.value.map (nullable natural))]

def operationJson : SerializedTextOperation → Json .value
  | .insert index value =>
    record [("index", natural index), ("text", .string value), ("type", .string (literal "insert"))]
  | .delete index length =>
    record [("index", natural index), ("length", natural length),
      ("type", .string (literal "delete"))]

def anchorJson : SequenceAnchor → Json .value
  | .atom eventId offset affinity =>
    record [("affinity", .string (affinityText affinity)), ("eventId", .string eventId),
      ("offset", natural offset), ("type", .string (literal "atom"))]
  | .startBoundary =>
    record [("affinity", .string (literal "after")), ("edge", .string (literal "start")),
      ("type", .string (literal "boundary"))]
  | .endBoundary =>
    record [("affinity", .string (literal "before")), ("edge", .string (literal "end")),
      ("type", .string (literal "boundary"))]

def effectJson : RichTextEffect → Json .value
  | .bootstrap blockId fields =>
    record [("blockId", .string blockId), ("fields", completeFieldsJson fields),
      ("type", .string (literal "bootstrap"))]
  | .blockCreate blockId sourceBlockId fields =>
    record [("blockId", .string blockId), ("fields", completeFieldsJson fields),
      ("sourceBlockId", nullable .string sourceBlockId),
      ("type", .string (literal "block-create"))]
  | .textInsert blockId value =>
    record [("blockId", .string blockId), ("text", .string value),
      ("type", .string (literal "text-insert"))]
  | .textDelete blockId =>
    record [("blockId", .string blockId), ("type", .string (literal "text-delete"))]
  | .blockSet blockId fields =>
    record [("blockId", .string blockId), ("fields", fieldPatchJson fields),
      ("type", .string (literal "block-set"))]
  | .blockJoin blockId =>
    record [("blockId", .string blockId), ("type", .string (literal "block-join"))]
  | .blockDelete blockId =>
    record [("blockId", .string blockId), ("type", .string (literal "block-delete"))]
  | .markSet blockId kind value start stop =>
    record [("blockId", .string blockId), ("kind", .string (markKindText kind)),
      ("range", record [("end", anchorJson stop), ("start", anchorJson start)]),
      ("type", .string (literal "mark-set")), ("value", nullable markValueJson value)]

def eventJson (event : RichTextEvent) : Json .value :=
  record [("effect", effectJson event.effect), ("id", .string event.id),
    ("operation", operationJson event.operation),
    ("parentVersion", list (event.parentVersion.map .string)),
    ("schemaVersion", natural BLOCK_MODEL_SCHEMA_VERSION), ("timestamp", .number event.timestamp)]

def batchJson (batch : RichTextEventBatch) : Json .value :=
  record [("batchId", .string batch.batchId), ("events", list (batch.events.map eventJson)),
    ("parentVersion", list (batch.parentVersion.map .string)),
    ("schemaVersion", natural BLOCK_MODEL_SCHEMA_VERSION)]

def canonicalJson (value : Json .value) : Text := stringify (sortKeys value)

theorem record_injective {fields others : List (String × Json .value)}
    (h : record fields = record others) (hkeys : fields.map Prod.fst = others.map Prod.fst) :
    fields = others := by
  injection h with h
  have hmap := ofFields_injective h
  have hvalues : fields.map Prod.snd = others.map Prod.snd := by
    have hsnd := congrArg (List.map Prod.snd) hmap
    rw [map_map, map_map] at hsnd
    exact hsnd
  rw [← zip_unzip fields, ← zip_unzip others, unzip_fst, unzip_snd,
    unzip_fst, unzip_snd, hkeys, hvalues]

def typeField : {shape : JsonShape} → Json shape → Option Text
  | _, .object fields => typeField fields
  | _, .field key (.string value) rest => if key = literal "type" then some value else typeField rest
  | _, .field _ _ rest => typeField rest
  | _, _ => none

inductive EffectType where
  | bootstrap
  | blockCreate
  | textInsert
  | textDelete
  | blockSet
  | blockJoin
  | blockDelete
  | markSet

def effectType : RichTextEffect → EffectType
  | .bootstrap _ _ => .bootstrap
  | .blockCreate _ _ _ => .blockCreate
  | .textInsert _ _ => .textInsert
  | .textDelete _ => .textDelete
  | .blockSet _ _ => .blockSet
  | .blockJoin _ => .blockJoin
  | .blockDelete _ => .blockDelete
  | .markSet _ _ _ _ _ => .markSet

def effectTypeText : EffectType → Text
  | .bootstrap => literal "bootstrap"
  | .blockCreate => literal "block-create"
  | .textInsert => literal "text-insert"
  | .textDelete => literal "text-delete"
  | .blockSet => literal "block-set"
  | .blockJoin => literal "block-join"
  | .blockDelete => literal "block-delete"
  | .markSet => literal "mark-set"

theorem effectTypeText_injective : Function.Injective effectTypeText := by
  intro type other h
  cases type <;> cases other <;> first | rfl | exact absurd h (by decide)

theorem typeField_effectJson (effect : RichTextEffect) :
    typeField (effectJson effect) = some (effectTypeText (effectType effect)) := by
  have hblockId : literal "blockId" ≠ literal "type" := by decide
  have htext : literal "text" ≠ literal "type" := by decide
  have hkind : literal "kind" ≠ literal "type" := by decide
  have hsource : literal "sourceBlockId" ≠ literal "type" := by decide
  cases effect with
  | blockCreate blockId source fields =>
    cases source <;> simp [effectJson, record, nullable, completeFieldsJson, ofFields, typeField, hblockId, hsource,
      effectType, effectTypeText]
  | markSet blockId kind value start stop =>
    simp [effectJson, record, ofFields, typeField, hblockId, hkind, effectType, effectTypeText]
  | bootstrap _ _ | textInsert _ _ | textDelete _ | blockSet _ _ | blockJoin _ | blockDelete _ =>
    simp [effectJson, record, completeFieldsJson, fieldPatchJson, partialRecord, ofFields, typeField, hblockId, htext, effectType,
      effectTypeText]

theorem nullable_injective {α : Type} {write : α → Json .value} (h : Function.Injective write)
    (hnull : ∀ value, write value ≠ .null) : Function.Injective (nullable write) := by
  intro value other heq
  cases value with
  | none =>
    cases other with
    | none => rfl
    | some other => exact absurd heq.symm (hnull other)
  | some value =>
    cases other with
    | none => exact absurd heq (hnull value)
    | some other => rw [h heq]

theorem natural_injective : Function.Injective natural := by
  intro value other h
  injection h with h
  exact Int.ofNat.inj h

theorem nullableText_injective : Function.Injective (nullable Json.string) :=
  nullable_injective (fun _ _ h => by injection h) fun _ h => by cases h

theorem nullableNatural_injective : Function.Injective (nullable natural) :=
  nullable_injective natural_injective fun _ h => by cases h

theorem nullableBoolean_injective : Function.Injective (nullable Json.boolean) :=
  nullable_injective (fun _ _ h => by injection h) fun _ h => by cases h

theorem list_injective {α : Type} {write : α → Json .value} (h : Function.Injective write) :
    Function.Injective fun items : List α => list (items.map write) := by
  intro items others heq
  injection heq with heq
  exact map_injective_iff.mpr h (ofItems_injective heq)

theorem blockTypeText_injective : Function.Injective blockTypeText := by
  intro type other h
  cases type <;> cases other <;> first | rfl | exact absurd h (by decide)

theorem markKindText_injective : Function.Injective markKindText := by
  intro kind other h
  cases kind <;> cases other <;> first | rfl | exact absurd h (by decide)

theorem affinityText_injective : Function.Injective affinityText := by
  intro affinity other h
  cases affinity <;> cases other <;> first | rfl | exact absurd h (by decide)

theorem partialRecord_injective {fields others : List (String × Option (Json .value))}
    (keys : List String) (h : partialRecord fields = partialRecord others)
    (hfields : fields.map Prod.fst = keys) (hothers : others.map Prod.fst = keys)
    (hnodup : (keys.map literal).Nodup) : fields = others := by
  injection h with h
  have hkeys : ∀ entries : List (String × Option (Json .value)), entries.map Prod.fst = keys →
      (entries.map fun entry => (literal entry.1, entry.2)).map Prod.fst = keys.map literal := by
    intro entries hentries
    rw [← hentries, map_map, map_map]
    rfl
  have hpresent := present_injective ((hkeys fields hfields).trans (hkeys others hothers).symm)
    (by rw [hkeys fields hfields]; exact hnodup) (ofFields_injective h)
  have hvalues := congrArg (List.map Prod.snd) hpresent
  rw [map_map, map_map] at hvalues
  have hsnd : fields.map Prod.snd = others.map Prod.snd := hvalues
  rw [← zip_unzip fields, ← zip_unzip others, unzip_fst, unzip_snd,
    unzip_fst, unzip_snd, hfields, hothers, hsnd]

theorem linkJson_injective : Function.Injective linkJson := by
  intro link other h
  have hfields := partialRecord_injective ["rel", "target", "title", "url"] h rfl rfl (by decide)
  simp only [List.cons.injEq, Prod.mk.injEq, true_and, and_true, Option.some.injEq,
    Json.string.injEq] at hfields
  have htext : Function.Injective (Option.map Json.string) :=
    Option.map_injective fun _ _ h => by injection h
  obtain ⟨hrel, htarget, htitle, hurl⟩ := hfields
  cases link
  cases other
  simp only [LinkAttributes.mk.injEq]
  exact ⟨hurl, htext htarget, htext hrel, htext htitle⟩

theorem markValueJson_injective : Function.Injective markValueJson := by
  intro value other h
  cases value with
  | on =>
    cases other with
    | on => rfl
    | link attributes => cases h
  | link attributes =>
    cases other with
    | on => cases h
    | link attributes' => rw [linkJson_injective h]

theorem completeFieldsJson_injective : Function.Injective completeFieldsJson := by
  intro fields other h
  have hfields := record_injective h rfl
  simp only [List.cons.injEq, Prod.mk.injEq, true_and, and_true, Json.string.injEq] at hfields
  obtain ⟨hchecked, hlanguage, hparentId, hstart, htheme, htype, hvalue⟩ := hfields
  obtain ⟨⟨parentId, language, theme, start, value, checked⟩, type⟩ := fields
  obtain ⟨⟨parentId', language', theme', start', value', checked'⟩, type'⟩ := other
  simp only [CompleteBlockFields.mk.injEq, BlockAttributes.mk.injEq]
  exact ⟨⟨nullableText_injective hparentId, nullableText_injective hlanguage,
    nullableText_injective htheme, nullableNatural_injective hstart,
    nullableNatural_injective hvalue, nullableBoolean_injective hchecked⟩,
    blockTypeText_injective htype⟩

theorem fieldPatchJson_injective : Function.Injective fieldPatchJson := by
  intro fields other h
  have hfields := partialRecord_injective
    ["checked", "language", "parentId", "start", "theme", "type", "value"] h rfl rfl (by decide)
  simp only [List.cons.injEq, Prod.mk.injEq, true_and, and_true] at hfields
  obtain ⟨hchecked, hlanguage, hparentId, hstart, htheme, htype, hvalue⟩ := hfields
  have htypes : Function.Injective (Option.map fun type => Json.string (blockTypeText type)) :=
    Option.map_injective fun _ _ h => blockTypeText_injective (by injection h)
  cases fields
  cases other
  simp only [BlockFieldPatch.mk.injEq]
  exact ⟨htypes htype, Option.map_injective nullableText_injective hparentId,
    Option.map_injective nullableText_injective hlanguage,
    Option.map_injective nullableText_injective htheme,
    Option.map_injective nullableNatural_injective hstart,
    Option.map_injective nullableNatural_injective hvalue,
    Option.map_injective nullableBoolean_injective hchecked⟩

theorem operationJson_injective : Function.Injective operationJson := by
  intro operation other h
  have htext : literal "text" ≠ literal "length" := by decide
  cases operation with
  | insert index value =>
    cases other with
    | insert index' value' =>
      have hfields := record_injective h rfl
      simp only [List.cons.injEq, Prod.mk.injEq, true_and, and_true, Json.string.injEq] at hfields
      rw [natural_injective hfields.1, hfields.2]
    | delete index' length =>
      injection h with h
      injection h with _ _ h
      injection h with h
      exact absurd h htext
  | delete index length =>
    cases other with
    | insert index' value =>
      injection h with h
      injection h with _ _ h
      injection h with h
      exact absurd h.symm htext
    | delete index' length' =>
      have hfields := record_injective h rfl
      simp only [List.cons.injEq, Prod.mk.injEq, true_and, and_true] at hfields
      rw [natural_injective hfields.1, natural_injective hfields.2]

theorem anchorJson_injective : Function.Injective anchorJson := by
  intro anchor other h
  have heventId : literal "eventId" ≠ literal "edge" := by decide
  cases anchor with
  | atom eventId offset affinity =>
    cases other with
    | atom eventId' offset' affinity' =>
      have hfields := record_injective h rfl
      simp only [List.cons.injEq, Prod.mk.injEq, true_and, and_true, Json.string.injEq] at hfields
      obtain ⟨haffinity, heventId, hoffset⟩ := hfields
      rw [affinityText_injective haffinity, heventId, natural_injective hoffset]
    | startBoundary | endBoundary =>
      injection h with h
      injection h with _ _ h
      injection h with h
      exact absurd h heventId
  | startBoundary =>
    cases other with
    | atom eventId offset affinity =>
      injection h with h
      injection h with _ _ h
      injection h with h
      exact absurd h.symm heventId
    | startBoundary => rfl
    | endBoundary =>
      have hfields := record_injective h rfl
      simp only [List.cons.injEq, Prod.mk.injEq, true_and, Json.string.injEq] at hfields
      exact absurd hfields.1 (by decide)
  | endBoundary =>
    cases other with
    | atom eventId offset affinity =>
      injection h with h
      injection h with _ _ h
      injection h with h
      exact absurd h.symm heventId
    | startBoundary =>
      have hfields := record_injective h rfl
      simp only [List.cons.injEq, Prod.mk.injEq, true_and, Json.string.injEq] at hfields
      exact absurd hfields.1 (by decide)
    | endBoundary => rfl

theorem nullableMarkValue_injective : Function.Injective (nullable markValueJson) := by
  apply nullable_injective markValueJson_injective
  intro value h
  cases value <;> cases h

theorem effectJson_injective : Function.Injective effectJson := by
  intro effect other h
  have htype : effectType effect = effectType other := by
    have hfield := congrArg typeField h
    rw [typeField_effectJson, typeField_effectJson] at hfield
    exact effectTypeText_injective (Option.some.inj hfield)
  cases effect with
  | bootstrap blockId fields =>
    cases other with
    | bootstrap blockId' fields' =>
      have hfields := record_injective h rfl
      simp only [List.cons.injEq, Prod.mk.injEq, true_and, and_true, Json.string.injEq] at hfields
      rw [hfields.1, completeFieldsJson_injective hfields.2]
    | _ => cases htype
  | blockCreate blockId source fields =>
    cases other with
    | blockCreate blockId' source' fields' =>
      have hfields := record_injective h rfl
      simp only [List.cons.injEq, Prod.mk.injEq, true_and, and_true, Json.string.injEq] at hfields
      rw [hfields.1, completeFieldsJson_injective hfields.2.1,
        nullableText_injective hfields.2.2]
    | _ => cases htype
  | textInsert blockId value =>
    cases other with
    | textInsert blockId' value' =>
      cases record_injective h rfl
      rfl
    | _ => cases htype
  | textDelete blockId =>
    cases other with
    | textDelete blockId' =>
      cases record_injective h rfl
      rfl
    | _ => cases htype
  | blockSet blockId fields =>
    cases other with
    | blockSet blockId' fields' =>
      have hfields := record_injective h rfl
      simp only [List.cons.injEq, Prod.mk.injEq, true_and, and_true, Json.string.injEq] at hfields
      rw [hfields.1, fieldPatchJson_injective hfields.2]
    | _ => cases htype
  | blockJoin blockId =>
    cases other with
    | blockJoin blockId' =>
      cases record_injective h rfl
      rfl
    | _ => cases htype
  | blockDelete blockId =>
    cases other with
    | blockDelete blockId' =>
      cases record_injective h rfl
      rfl
    | _ => cases htype
  | markSet blockId kind value start stop =>
    cases other with
    | markSet blockId' kind' value' start' stop' =>
      have hfields := record_injective h rfl
      simp only [List.cons.injEq, Prod.mk.injEq, true_and, and_true, Json.string.injEq] at hfields
      obtain ⟨hblockId, hkind, hrange, hvalue⟩ := hfields
      have hanchors := record_injective hrange rfl
      simp only [List.cons.injEq, Prod.mk.injEq, true_and, and_true] at hanchors
      rw [hblockId, markKindText_injective hkind, nullableMarkValue_injective hvalue,
        anchorJson_injective hanchors.1, anchorJson_injective hanchors.2]
    | _ => cases htype

theorem eventJson_injective : Function.Injective eventJson := by
  intro event other h
  have hfields := record_injective h rfl
  simp only [List.cons.injEq, Prod.mk.injEq, true_and, and_true, Json.string.injEq,
    Json.number.injEq] at hfields
  obtain ⟨heffect, hid, hoperation, hparents, htimestamp⟩ := hfields
  have hstring : Function.Injective Json.string := fun _ _ h => by injection h
  cases event
  cases other
  simp only [RichTextEvent.mk.injEq]
  exact ⟨hid, list_injective hstring hparents, htimestamp, operationJson_injective hoperation,
    effectJson_injective heffect⟩

theorem batchJson_injective : Function.Injective batchJson := by
  intro batch other h
  have hfields := record_injective h rfl
  simp only [List.cons.injEq, Prod.mk.injEq, true_and, and_true, Json.string.injEq] at hfields
  obtain ⟨hbatchId, hevents, hparents⟩ := hfields
  have hstring : Function.Injective Json.string := fun _ _ h => by injection h
  cases batch
  cases other
  simp only [RichTextEventBatch.mk.injEq]
  exact ⟨hbatchId, list_injective hstring hparents, list_injective eventJson_injective hevents⟩

theorem keysSorted_record {fields : List (String × Json .value)} (keys : List String)
    (hfields : fields.map Prod.fst = keys)
    (hkeys : (keys.map literal).Pairwise (· ≤ ·))
    (h : fields.Forall fun entry => KeysSorted entry.2) : KeysSorted (record fields) := by
  refine keysSorted_ofFields ?_ ?_
  · rw [map_map]
    rw [← hfields, map_map] at hkeys
    exact hkeys
  · intro entry hentry
    obtain ⟨source, hsource, rfl⟩ := mem_map.mp hentry
    exact forall_iff_forall_mem.mp h source hsource

theorem keysSorted_partialRecord {fields : List (String × Option (Json .value))}
    (keys : List String) (hfields : fields.map Prod.fst = keys)
    (hkeys : (keys.map literal).Pairwise (· ≤ ·))
    (h : fields.Forall fun entry => ∀ value ∈ entry.2, KeysSorted value) :
    KeysSorted (partialRecord fields) := by
  refine keysSorted_present ?_ ?_
  · rw [map_map]
    rw [← hfields, map_map] at hkeys
    exact hkeys
  · intro entry hentry
    obtain ⟨source, hsource, rfl⟩ := mem_map.mp hentry
    exact forall_iff_forall_mem.mp h source hsource

theorem keysSorted_nullable {α : Type} {write : α → Json .value}
    (h : ∀ value, KeysSorted (write value)) (value : Option α) :
    KeysSorted (nullable write value) := by
  cases value with
  | none => trivial
  | some value => exact h value

theorem keysSorted_list {items : List (Json .value)} (h : ∀ item ∈ items, KeysSorted item) :
    KeysSorted (list items) :=
  keysSorted_ofItems h

theorem keysSorted_texts (texts : List Text) : KeysSorted (list (texts.map Json.string)) := by
  apply keysSorted_list
  intro item hitem
  obtain ⟨value, -, rfl⟩ := mem_map.mp hitem
  trivial

theorem keysSorted_mapped {α : Type} {write : α → Json .value}
    (h : ∀ value, KeysSorted (write value)) (held : Option α) :
    ∀ value ∈ held.map write, KeysSorted value := by
  intro value hvalue
  obtain ⟨source, -, rfl⟩ := Option.map_eq_some_iff.mp hvalue
  exact h source

theorem keysSorted_linkJson (attributes : LinkAttributes) : KeysSorted (linkJson attributes) := by
  have htext : ∀ value, KeysSorted (Json.string value) := fun _ => trivial
  exact keysSorted_partialRecord ["rel", "target", "title", "url"] rfl (by decide)
    ⟨keysSorted_mapped htext _, keysSorted_mapped htext _, keysSorted_mapped htext _,
      fun _ h => Option.some.inj h ▸ htext _⟩

theorem keysSorted_completeFieldsJson (fields : CompleteBlockFields) :
    KeysSorted (completeFieldsJson fields) := by
  have htext : ∀ value, KeysSorted (Json.string value) := fun _ => trivial
  have hnatural : ∀ value, KeysSorted (natural value) := fun _ => trivial
  have hboolean : ∀ value, KeysSorted (Json.boolean value) := fun _ => trivial
  exact keysSorted_record ["checked", "language", "parentId", "start", "theme", "type", "value"]
    rfl (by decide) ⟨keysSorted_nullable hboolean _, keysSorted_nullable htext _,
      keysSorted_nullable htext _, keysSorted_nullable hnatural _, keysSorted_nullable htext _,
      trivial, keysSorted_nullable hnatural _⟩

theorem keysSorted_fieldPatchJson (fields : BlockFieldPatch) :
    KeysSorted (fieldPatchJson fields) := by
  have htext : ∀ value, KeysSorted (Json.string value) := fun _ => trivial
  have hnatural : ∀ value, KeysSorted (natural value) := fun _ => trivial
  have hboolean : ∀ value, KeysSorted (Json.boolean value) := fun _ => trivial
  exact keysSorted_partialRecord
    ["checked", "language", "parentId", "start", "theme", "type", "value"] rfl (by decide)
    ⟨keysSorted_mapped (keysSorted_nullable hboolean) _,
      keysSorted_mapped (keysSorted_nullable htext) _,
      keysSorted_mapped (keysSorted_nullable htext) _,
      keysSorted_mapped (keysSorted_nullable hnatural) _,
      keysSorted_mapped (keysSorted_nullable htext) _,
      keysSorted_mapped (fun type => htext (blockTypeText type)) _,
      keysSorted_mapped (keysSorted_nullable hnatural) _⟩

theorem keysSorted_operationJson (operation : SerializedTextOperation) :
    KeysSorted (operationJson operation) := by
  cases operation with
  | insert index value =>
    exact keysSorted_record ["index", "text", "type"] rfl (by decide) ⟨trivial, trivial, trivial⟩
  | delete index length =>
    exact keysSorted_record ["index", "length", "type"] rfl (by decide) ⟨trivial, trivial, trivial⟩

theorem keysSorted_anchorJson (anchor : SequenceAnchor) : KeysSorted (anchorJson anchor) := by
  cases anchor with
  | atom eventId offset affinity =>
    exact keysSorted_record ["affinity", "eventId", "offset", "type"] rfl (by decide) ⟨trivial, trivial, trivial, trivial⟩
  | startBoundary | endBoundary =>
    exact keysSorted_record ["affinity", "edge", "type"] rfl (by decide) ⟨trivial, trivial, trivial⟩

theorem keysSorted_markValueJson (value : MarkValue) : KeysSorted (markValueJson value) := by
  cases value with
  | on => trivial
  | link attributes => exact keysSorted_linkJson attributes

theorem keysSorted_effectJson (effect : RichTextEffect) : KeysSorted (effectJson effect) := by
  have htext : ∀ value, KeysSorted (Json.string value) := fun _ => trivial
  cases effect with
  | bootstrap blockId fields =>
    exact keysSorted_record ["blockId", "fields", "type"] rfl (by decide) ⟨trivial, keysSorted_completeFieldsJson fields, trivial⟩
  | blockCreate blockId source fields =>
    exact keysSorted_record ["blockId", "fields", "sourceBlockId", "type"] rfl (by decide) ⟨trivial, keysSorted_completeFieldsJson fields, keysSorted_nullable htext source,
      trivial⟩
  | textInsert blockId value =>
    exact keysSorted_record ["blockId", "text", "type"] rfl (by decide) ⟨trivial, trivial, trivial⟩
  | blockSet blockId fields =>
    exact keysSorted_record ["blockId", "fields", "type"] rfl (by decide) ⟨trivial, keysSorted_fieldPatchJson fields, trivial⟩
  | textDelete blockId | blockJoin blockId | blockDelete blockId =>
    exact keysSorted_record ["blockId", "type"] rfl (by decide) ⟨trivial, trivial⟩
  | markSet blockId kind value start stop =>
    have hrange : KeysSorted (record [("end", anchorJson stop), ("start", anchorJson start)]) := by
      exact keysSorted_record ["end", "start"] rfl (by decide) ⟨keysSorted_anchorJson stop, keysSorted_anchorJson start⟩
    exact keysSorted_record ["blockId", "kind", "range", "type", "value"] rfl (by decide) ⟨trivial, trivial, hrange, trivial, keysSorted_nullable keysSorted_markValueJson value⟩

theorem keysSorted_eventJson (event : RichTextEvent) : KeysSorted (eventJson event) := by
  exact keysSorted_record
    ["effect", "id", "operation", "parentVersion", "schemaVersion", "timestamp"] rfl (by decide) ⟨keysSorted_effectJson event.effect, trivial, keysSorted_operationJson event.operation,
    keysSorted_texts event.parentVersion, trivial, trivial⟩

theorem keysSorted_batchJson (batch : RichTextEventBatch) : KeysSorted (batchJson batch) := by
  have hevents : KeysSorted (list (batch.events.map eventJson)) := by
    apply keysSorted_list
    intro item hitem
    obtain ⟨event, -, rfl⟩ := mem_map.mp hitem
    exact keysSorted_eventJson event
  exact keysSorted_record ["batchId", "events", "parentVersion", "schemaVersion"] rfl
    (by decide) ⟨trivial, hevents, keysSorted_texts batch.parentVersion, trivial⟩

theorem canonicalJson_batchJson (batch : RichTextEventBatch) :
    canonicalJson (batchJson batch) = stringify (batchJson batch) := by
  rw [canonicalJson, sortKeys_eq_self (keysSorted_batchJson batch)]

theorem canonicalBatch_injective :
    Function.Injective fun batch : RichTextEventBatch => canonicalJson (batchJson batch) := by
  intro batch other h
  simp only [canonicalJson_batchJson] at h
  exact batchJson_injective (stringify_injective h)

end Softmaple.EventStore
