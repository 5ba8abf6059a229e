import Softmaple.Codec.EventIdText

/-!
The rich-text data model (`block-model/src/types.ts`, `constants.ts`): blocks,
documents, and the events and batches that carry edits to them. An absent
optional key is `none`; an explicit `null` of a patch is `some none`.
-/
namespace Softmaple.BlockModel

/-- A string constant of the source. -/
def text (literal : String) : Text := literal.toList.map fun char => Utf8.unit char.toNat

abbrev BlockId := Text

inductive BlockType where
  | paragraph
  | h1
  | h2
  | h3
  | quote
  | code
  | bulletList
  | numberList
  | checkList
  deriving DecidableEq, Repr

inductive MarkKind where
  | bold
  | italic
  | underline
  | strike
  | inlineCode
  | link
  deriving DecidableEq, Repr

structure LinkAttributes where
  url : Text
  target : Option Text
  rel : Option Text
  title : Option Text
  deriving DecidableEq, Repr

/-- `true` or the attributes of a link. -/
inductive MarkValue where
  | on
  | link (attributes : LinkAttributes)
  deriving DecidableEq, Repr

structure BlockAttributes where
  parentId : Option BlockId
  language : Option Text
  theme : Option Text
  start : Option Nat
  value : Option Nat
  checked : Option Bool
  deriving DecidableEq, Repr

structure CompleteBlockFields extends BlockAttributes where
  type : BlockType
  deriving DecidableEq, Repr

structure BlockFieldPatch where
  type : Option BlockType
  parentId : Option (Option BlockId)
  language : Option (Option Text)
  theme : Option (Option Text)
  start : Option (Option Nat)
  value : Option (Option Nat)
  checked : Option (Option Bool)
  deriving DecidableEq, Repr

structure MarkSpan where
  kind : MarkKind
  start : Nat
  stop : Nat
  value : MarkValue
  deriving DecidableEq, Repr

structure Block where
  id : BlockId
  type : BlockType
  text : Text
  attrs : BlockAttributes
  marks : List MarkSpan
  deriving DecidableEq, Repr

structure BlockDocument where
  blocks : List Block
  deriving DecidableEq, Repr

inductive SerializedTextOperation where
  | insert (index : Nat) (text : Text)
  | delete (index length : Nat)
  deriving DecidableEq, Repr

inductive AnchorAffinity where
  | before
  | after
  deriving DecidableEq, Repr

/-- A stable place between two code units; a boundary fixes its affinity. -/
inductive SequenceAnchor where
  | atom (eventId : Text) (offset : Nat) (affinity : AnchorAffinity)
  | startBoundary
  | endBoundary
  deriving DecidableEq, Repr

inductive RichTextEffect where
  | bootstrap (blockId : BlockId) (fields : CompleteBlockFields)
  | blockCreate (blockId : BlockId) (sourceBlockId : Option BlockId) (fields : CompleteBlockFields)
  | textInsert (blockId : BlockId) (text : Text)
  | textDelete (blockId : BlockId)
  | blockSet (blockId : BlockId) (fields : BlockFieldPatch)
  | blockJoin (blockId : BlockId)
  | blockDelete (blockId : BlockId)
  | markSet (blockId : BlockId) (kind : MarkKind) (value : Option MarkValue)
      (start stop : SequenceAnchor)
  deriving DecidableEq, Repr

/-- What EG-walker's graph keeps of an event. -/
structure GraphEvent where
  id : Text
  parentVersion : List Text
  timestamp : Int
  operation : SerializedTextOperation
  deriving DecidableEq, Repr

structure RichTextEvent where
  id : Text
  parentVersion : List Text
  timestamp : Int
  operation : SerializedTextOperation
  effect : RichTextEffect
  deriving DecidableEq, Repr

structure RichTextEventBatch where
  batchId : Text
  parentVersion : List Text
  events : List RichTextEvent
  deriving DecidableEq, Repr

namespace RichTextEventBatch

def eventIds (batch : RichTextEventBatch) : List Text := batch.events.map (·.id)

end RichTextEventBatch

def BLOCK_MARKER : Text := [Utf8.unit 0xfdd0]

def METADATA_MARKER : Text := [Utf8.unit 0xfdd1]

def TEXT_ESCAPE : Text := [Utf8.unit 0xfdd2]

def BOOTSTRAP_BATCH_ID : Text := text "softmaple:block-model:bootstrap:v1"

def BOOTSTRAP_EVENT_ID : Text := text "softmaple:block-model:bootstrap:event:v1"

def BOOTSTRAP_BLOCK_ID : Text := text "softmaple:block-model:bootstrap:block:v1"

def DEFAULT_BLOCK_FIELDS : CompleteBlockFields where
  type := .paragraph
  parentId := none
  language := none
  theme := none
  start := none
  value := none
  checked := none

def BOOTSTRAP_BATCH : RichTextEventBatch where
  batchId := BOOTSTRAP_BATCH_ID
  parentVersion := []
  events := [{
    id := BOOTSTRAP_EVENT_ID
    parentVersion := []
    timestamp := 0
    operation := .insert 0 BLOCK_MARKER
    effect := .bootstrap BOOTSTRAP_BLOCK_ID DEFAULT_BLOCK_FIELDS }]

end Softmaple.BlockModel
