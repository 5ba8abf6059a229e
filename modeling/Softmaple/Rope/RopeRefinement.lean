import Softmaple.Rope.EditorInvariant
import Mathlib.Data.List.Forall2

/-!
An editor of a rope against an editor of a plain string.
-/
namespace Softmaple.Rope

open ExceptAgreement (Agree)

structure PlainEditor where
  text : Text
  closed : Bool

namespace PlainEditor

def start (text : Text) : PlainEditor := ⟨text, false⟩

def assertOpen (editor : PlainEditor) : Except RopeError Unit :=
  if editor.closed then .error .finished else .ok ()

def insert (editor : PlainEditor) (index : Int) (inserted : Text) : Except RopeError PlainEditor := do
  editor.assertOpen
  let index ← assertEditorIndex index editor.text.length
  return { editor with text := editor.text.splice index inserted }

def delete (editor : PlainEditor) (index length : Int) : Except RopeError PlainEditor := do
  editor.assertOpen
  let range ← assertEditorRange index length editor.text.length
  return { editor with text := editor.text.delete range.1 range.2 }

end PlainEditor

inductive EditorMirrors : TransientUtf16RopeEditor → PlainEditor → Prop where
  | opened {base : PersistentUtf16Rope} {root : PieceNode} {dirty : Bool} {priorityState : UInt32}
      {source text : Text} (hbase : Represents base source) (hroot : Spells source root text)
      (hclean : dirty = false → text = source) :
      EditorMirrors ⟨base, root, none, dirty, priorityState⟩ ⟨text, false⟩
  | closed {base rope : PersistentUtf16Rope} {root : PieceNode} {dirty : Bool}
      {priorityState : UInt32} {text : Text} (hrope : Represents rope text) :
      EditorMirrors ⟨base, root, some rope, dirty, priorityState⟩ ⟨text, true⟩

section Editors

variable {editor : TransientUtf16RopeEditor} {plain : PlainEditor} {base : PersistentUtf16Rope}
  {text : Text}

theorem Represents.startEditor (h : Represents base text) :
    EditorMirrors (.start base) (.start text) := by
  rw [TransientUtf16RopeEditor.start, h.length_eq]
  split
  · next hnone =>
      obtain rfl := List.eq_nil_of_length_eq_zero hnone
      exact .opened h spells_empty fun _ => rfl
  · next hsome =>
      have hpiece : PieceFormed text ⟨.rope, 0, text.length, base.hasSurrogateCodeUnits⟩ := by
        refine ⟨Nat.pos_of_ne_zero hsome, le_rfl, fun hsurrogate => ?_⟩
        rw [PersistentUtf16Rope.hasSurrogateCodeUnits, h.utf16_eq]
        exact hsurrogate
      have hwhole := NodeFormed.newNode hpiece (nextPriority 0x9e3779b9)
      refine .opened h ⟨hwhole.1, ?_⟩ fun _ => rfl
      rw [hwhole.2]
      exact sliceText_whole text le_rfl

section

variable (h : EditorMirrors editor plain)
include h

theorem EditorMirrors.length_eq : editor.length = plain.text.length := by
  cases h with
  | opened hbase hroot hclean =>
    rw [← hroot.text, ← hroot.formed.length_eq]
    rfl
  | closed hrope => exact hrope.length_eq

theorem EditorMirrors.marked (hsurrogate : containsUtf16SurrogateCodeUnit plain.text = true) :
    editor.hasSurrogateCodeUnits = true := by
  cases h with
  | opened hbase hroot hclean =>
    rw [← hroot.text] at hsurrogate
    exact hroot.formed.marked hsurrogate
  | closed hrope =>
    show PersistentUtf16Rope.hasSurrogateCodeUnits _ = true
    rw [PersistentUtf16Rope.hasSurrogateCodeUnits, hrope.utf16_eq]
    exact hsurrogate

theorem EditorMirrors.codeUnitAt (index : Int) :
    editor.codeUnitAt index = PlainText.codeUnitAt plain.text index := by
  rw [TransientUtf16RopeEditor.codeUnitAt, h.length_eq]
  by_cases hlow : 0 ≤ index
  · by_cases hrange : index < plain.text.length
    · rw [if_pos ⟨hlow, hrange⟩]
      cases h with
      | opened hbase hroot hclean =>
        rw [PlainText.codeUnitAt, if_pos hlow, ← hroot.text]
        exact hroot.formed.codeUnitAt hbase (by rw [hroot.text]; dsimp only at hrange; omega)
      | closed hrope => exact hrope.codeUnitAt index
    · rw [if_neg fun h => hrange h.2, PlainText.codeUnitAt, if_pos hlow]
      exact (List.getElem?_eq_none (by omega)).symm
  · rw [PlainText.codeUnitAt, if_neg hlow, if_neg fun h => hlow h.1]

theorem EditorMirrors.assertOpen :
    Agree Eq (fun _ _ => plain.closed = false) editor.assertOpen plain.assertOpen := by
  cases h with
  | opened hbase hroot hclean => exact .ok rfl
  | closed hrope => exact .error rfl

omit h in
theorem assertEditorIndex_agree {length : Nat} (index : Int) :
    Agree Eq (fun place other => place = other ∧ place ≤ length) (assertEditorIndex index length)
      (assertEditorIndex index length) := by
  rw [assertEditorIndex]
  split
  · exact .ok ⟨rfl, by omega⟩
  · exact .error rfl

omit h in
theorem assertEditorRange_agree {length : Nat} (index count : Int) :
    Agree Eq (fun range other => range = other ∧ range.1 + range.2 ≤ length)
      (assertEditorRange index count length) (assertEditorRange index count length) := by
  rw [assertEditorRange]
  split
  · exact .ok ⟨rfl, by dsimp only; omega⟩
  · exact .error rfl

theorem EditorMirrors.insert (index : Int) (inserted : Text) :
    Agree Eq EditorMirrors (editor.insert index inserted) (plain.insert index inserted) := by
  rw [TransientUtf16RopeEditor.insert, PlainEditor.insert, h.length_eq]
  refine h.assertOpen.bind fun _ _ hopen => ?_
  refine (assertEditorIndex_agree index).bind fun place other hplace => ?_
  obtain ⟨rfl, hle⟩ := hplace
  cases h with
  | closed hrope => cases hopen
  | @opened base root dirty priorityState source text hbase hroot hclean =>
    by_cases hempty : inserted = []
    · rw [if_pos hempty, hempty, Text.splice_nil]
      exact .ok (.opened hbase hroot hclean)
    · rw [if_neg hempty]
      obtain ⟨hleft, hright⟩ := hroot.split hle priorityState
      have hpiece : PieceFormed source ⟨.text inserted, 0, inserted.length,
          containsUtf16SurrogateCodeUnit inserted⟩ :=
        ⟨List.length_pos_iff.mpr hempty, le_rfl, id⟩
      have hnew := NodeFormed.newNode hpiece
        (nextPriority (split priorityState root place).priorityState)
      rw [Piece.text] at hnew
      have hinserted : Spells source _ inserted :=
        ⟨hnew.1, hnew.2.trans (sliceText_whole inserted le_rfl)⟩
      exact .ok (.opened hbase ((hleft.merge hinserted).merge hright) (by rintro ⟨⟩))

theorem EditorMirrors.delete (index length : Int) :
    Agree Eq EditorMirrors (editor.delete index length) (plain.delete index length) := by
  rw [TransientUtf16RopeEditor.delete, PlainEditor.delete, h.length_eq]
  refine h.assertOpen.bind fun _ _ hopen => ?_
  refine (assertEditorRange_agree index length).bind fun range other hrange => ?_
  obtain ⟨rfl, hle⟩ := hrange
  cases h with
  | closed hrope => cases hopen
  | @opened base root dirty priorityState source text hbase hroot hclean =>
    by_cases hnone : range.2 = 0
    · rw [if_pos hnone, Text.delete, hnone, Nat.add_zero, List.take_append_drop]
      exact .ok (.opened hbase hroot hclean)
    · rw [if_neg hnone]
      dsimp only at hle
      obtain ⟨hleft, hsuffix⟩ := hroot.split (show range.1 ≤ text.length by omega) priorityState
      obtain ⟨-, hright⟩ := hsuffix.split (show range.2 ≤ (text.drop range.1).length by
        rw [List.length_drop]; omega) (split priorityState root range.1).priorityState
      rw [List.drop_drop] at hright
      exact .ok (.opened hbase (hleft.merge hright) (by rintro ⟨⟩))

theorem EditorMirrors.finish :
    Agree Eq (fun result other => Represents result.1 other.text ∧ EditorMirrors result.2 other)
      editor.finish (.ok { plain with closed := true }) := by
  cases h with
  | closed hrope => exact .ok ⟨hrope, .closed hrope⟩
  | @opened base root dirty priorityState source text hbase hroot hclean =>
    have hrope : Agree Eq Represents
        (TransientUtf16RopeEditor.freeze ⟨base, root, none, dirty, priorityState⟩) (.ok text) := by
      rw [TransientUtf16RopeEditor.freeze]
      cases dirty with
      | false =>
        rw [hclean rfl]
        exact .ok hbase
      | true =>
        have hnone : PiecesInside source [] := fun piece hpiece => absurd hpiece List.not_mem_nil
        obtain ⟨hinside, hjoined⟩ := foldl_pushPiece hroot.formed.pieces hnone
        have hcompact := assembled_start.appendCompacted hbase hinside false
        have htext : ([] : Text) ++ piecesText source (root.pieces.foldl pushPiece []) = text := by
          rw [hjoined, ← hroot.text]
          rfl
        rw [htext] at hcompact
        exact hcompact.map_ok fun assembly hassembled => hassembled.finish
    exact hrope.map_ok fun rope hfinal => ⟨hfinal, .closed hfinal⟩

end

end Editors

end Softmaple.Rope

namespace Softmaple.Rope

open ExceptAgreement (Agree)

/-- A call on the ropes and the editors there are, by number. -/
inductive RopeCall where
  | ofText (text : Text)
  | insert (rope : Nat) (index : Int) (text : Text)
  | delete (rope : Nat) (index length : Int)
  | sliceRope (rope : Nat) (start stop : Int)
  | fromSegments (segments : List (Segment Nat))
  | assemble (calls : List (AssemblerCall Nat))
  | startEditor (rope : Nat)
  | editorInsert (editor : Nat) (index : Int) (text : Text)
  | editorDelete (editor : Nat) (index length : Int)
  | finish (editor : Nat)

structure RopeState where
  ropes : List PersistentUtf16Rope
  editors : List TransientUtf16RopeEditor

namespace RopeState

/-- A number past the end stands for the empty rope. -/
def rope (state : RopeState) (number : Nat) : PersistentUtf16Rope :=
  state.ropes.getD number ⟨EMPTY_LEAF⟩

def editor (state : RopeState) (number : Nat) : TransientUtf16RopeEditor :=
  state.editors.getD number (.start ⟨EMPTY_LEAF⟩)

def withRope (state : RopeState) (rope : PersistentUtf16Rope) : RopeState :=
  { state with ropes := state.ropes ++ [rope] }

def withEditor (state : RopeState) (number : Nat) (editor : TransientUtf16RopeEditor) : RopeState :=
  { state with editors := state.editors.set number editor }

def call (state : RopeState) : RopeCall → Except RopeError RopeState
  | .ofText text => .ok (state.withRope (.ofText text))
  | .insert number index text => state.withRope <$> (state.rope number).insert index text
  | .delete number index length => state.withRope <$> (state.rope number).delete index length
  | .sliceRope number start stop => state.withRope <$> (state.rope number).sliceRope start stop
  | .fromSegments segments =>
    state.withRope <$> PersistentUtf16Rope.fromSegments (segments.map (Segment.map state.rope))
  | .assemble calls =>
    state.withRope <$> PersistentUtf16Rope.assemble (calls.map (AssemblerCall.map state.rope))
  | .startEditor number =>
    .ok { state with editors := state.editors ++ [.start (state.rope number)] }
  | .editorInsert number index text =>
    state.withEditor number <$> (state.editor number).insert index text
  | .editorDelete number index length =>
    state.withEditor number <$> (state.editor number).delete index length
  | .finish number =>
    (fun result => (state.withRope result.1).withEditor number result.2) <$>
      (state.editor number).finish

end RopeState

/-- The same with strings for ropes. -/
structure PlainState where
  texts : List Text
  editors : List PlainEditor

namespace PlainState

def text (state : PlainState) (number : Nat) : Text := state.texts.getD number []

def editor (state : PlainState) (number : Nat) : PlainEditor :=
  state.editors.getD number (.start [])

def withText (state : PlainState) (text : Text) : PlainState :=
  { state with texts := state.texts ++ [text] }

def withEditor (state : PlainState) (number : Nat) (editor : PlainEditor) : PlainState :=
  { state with editors := state.editors.set number editor }

/-- Only a range of leaves asks where a rope's leaves end. -/
def call (state : PlainState) (boundaries : Nat → List Nat) : RopeCall → Except RopeError PlainState
  | .ofText text => .ok (state.withText text)
  | .insert number index text => state.withText <$> PlainText.insert (state.text number) index text
  | .delete number index length =>
    state.withText <$> PlainText.delete (state.text number) index length
  | .sliceRope number start stop =>
    state.withText <$> PlainText.slice (state.text number) start stop
  | .fromSegments segments =>
    state.withText <$> PlainText.fromSegments
      (segments.map (Segment.map fun number => ⟨state.text number, boundaries number⟩))
  | .assemble calls =>
    state.withText <$> PlainText.assemble
      (calls.map (AssemblerCall.map fun number => ⟨state.text number, boundaries number⟩))
  | .startEditor number =>
    .ok { state with editors := state.editors ++ [.start (state.text number)] }
  | .editorInsert number index text =>
    state.withEditor number <$> (state.editor number).insert index text
  | .editorDelete number index length =>
    state.withEditor number <$> (state.editor number).delete index length
  | .finish number =>
    .ok ((state.withText (state.editor number).text).withEditor number
      { state.editor number with closed := true })

end PlainState

/-- Ropes and strings after the same calls; a call that throws changes nothing. -/
structure SideBySide where
  ropes : RopeState
  plain : PlainState

namespace SideBySide

def start : SideBySide := ⟨⟨[], []⟩, ⟨[], []⟩⟩

def boundaries (state : SideBySide) (number : Nat) : List Nat :=
  (state.ropes.rope number).getLeafBoundaries

def step (state : SideBySide) (call : RopeCall) : SideBySide where
  ropes := (state.ropes.call call).toOption.getD state.ropes
  plain := (state.plain.call state.boundaries call).toOption.getD state.plain

def run (calls : List RopeCall) : SideBySide := calls.foldl step start

end SideBySide

structure Faithful (rope : PersistentUtf16Rope) (text : Text) : Prop where
  toText : rope.toText = text
  length : rope.length = text.length
  codeUnitAt : ∀ index, rope.codeUnitAt index = PlainText.codeUnitAt text index
  slice : ∀ start stop, rope.slice start stop = PlainText.slice text start stop
  surrogates : rope.hasSurrogateCodeUnits = containsUtf16SurrogateCodeUnit text
  pairs : rope.hasSurrogatePairs = true ↔ ∃ index, text.splitsScalar index = true
  shape : IsRoot rope.root

structure FaithfulEditor (editor : TransientUtf16RopeEditor) (plain : PlainEditor) : Prop where
  length : editor.length = plain.text.length
  codeUnitAt : ∀ index, editor.codeUnitAt index = PlainText.codeUnitAt plain.text index
  surrogates : containsUtf16SurrogateCodeUnit plain.text = true →
    editor.hasSurrogateCodeUnits = true

structure Faithfully (state : RopeState) (plain : PlainState) : Prop where
  ropes : List.Forall₂ Faithful state.ropes plain.texts
  editors : List.Forall₂ FaithfulEditor state.editors plain.editors

section Observers

theorem pairsAfter_iff (current : CodeUnit) (rest : Text) : pairsAfter (some current) rest = true ↔
    ∃ index, Text.splitsScalar (current :: rest) (index + 1) = true := by
  induction rest generalizing current with
  | nil =>
    refine ⟨nofun, fun ⟨index, h⟩ => ?_⟩
    rw [Text.splitsScalar] at h
    cases index <;> cases h
  | cons next rest ih =>
    rw [pairsAfter, Bool.or_eq_true, ih]
    constructor
    · rintro (hfirst | ⟨index, hlater⟩)
      · exact ⟨0, hfirst⟩
      · exact ⟨index + 1, hlater⟩
    · rintro ⟨index, h⟩
      cases index with
      | zero => exact Or.inl h
      | succ index => exact Or.inr ⟨index, h⟩

theorem pairsAfter_none_iff (text : Text) :
    pairsAfter none text = true ↔ ∃ index, text.splitsScalar index = true := by
  cases text with
  | nil => exact ⟨nofun, fun ⟨index, h⟩ => by cases index <;> cases h⟩
  | cons current rest =>
    show (false || pairsAfter (some current) rest) = true ↔ _
    rw [Bool.false_or, pairsAfter_iff]
    constructor
    · exact fun ⟨index, h⟩ => ⟨index + 1, h⟩
    · rintro ⟨index, h⟩
      cases index with
      | zero => cases h
      | succ index => exact ⟨index, h⟩

theorem Represents.faithful {rope : PersistentUtf16Rope} {text : Text} (h : Represents rope text) :
    Faithful rope text where
  toText := h.toText
  length := h.length_eq
  codeUnitAt := h.codeUnitAt
  slice := h.slice
  surrogates := by rw [PersistentUtf16Rope.hasSurrogateCodeUnits, h.utf16_eq]; rfl
  pairs := by
    rw [PersistentUtf16Rope.hasSurrogatePairs, h.utf16_eq]
    exact pairsAfter_none_iff text
  shape := h.root

theorem EditorMirrors.faithful {editor : TransientUtf16RopeEditor} {plain : PlainEditor}
    (h : EditorMirrors editor plain) : FaithfulEditor editor plain :=
  ⟨h.length_eq, h.codeUnitAt, h.marked⟩

end Observers

structure Mirrors (state : RopeState) (plain : PlainState) : Prop where
  ropes : List.Forall₂ Represents state.ropes plain.texts
  editors : List.Forall₂ EditorMirrors state.editors plain.editors

section Runs

variable {ropes : RopeState} {plain : PlainState}

section

variable (h : Mirrors ropes plain)
include h

theorem Mirrors.faithfully : Faithfully ropes plain :=
  ⟨h.ropes.imp fun _ _ => Represents.faithful, h.editors.imp fun _ _ => EditorMirrors.faithful⟩

omit h in
theorem forall₂_getD {α β : Type*} {R : α → β → Prop} {first : List α} {second : List β}
    (h : List.Forall₂ R first second) {a : α} {b : β} (hdefault : R a b) (number : Nat) :
    R (first.getD number a) (second.getD number b) := by
  induction h generalizing number with
  | nil => exact hdefault
  | cons hhead htail ih =>
    cases number with
    | zero => exact hhead
    | succ number => exact ih number

omit h in
theorem forall₂_set {α β : Type*} {R : α → β → Prop} {first : List α} {second : List β}
    (h : List.Forall₂ R first second) {a : α} {b : β} (hnew : R a b) (number : Nat) :
    List.Forall₂ R (first.set number a) (second.set number b) := by
  induction h generalizing number with
  | nil => exact .nil
  | cons hhead htail ih =>
    cases number with
    | zero => exact .cons hnew htail
    | succ number => exact .cons hhead (ih number)

theorem Mirrors.rope (number : Nat) : Represents (ropes.rope number) (plain.text number) :=
  forall₂_getD h.ropes represents_empty number

theorem Mirrors.editor (number : Nat) : EditorMirrors (ropes.editor number) (plain.editor number) :=
  forall₂_getD h.editors represents_empty.startEditor number

theorem Mirrors.withRope {rope : PersistentUtf16Rope} {text : Text}
    (hnew : Represents rope text) : Mirrors (ropes.withRope rope) (plain.withText text) :=
  ⟨List.rel_append h.ropes (.cons hnew .nil), h.editors⟩

theorem Mirrors.withEditor (number : Nat)
    {editor : TransientUtf16RopeEditor} {other : PlainEditor} (hnew : EditorMirrors editor other) :
    Mirrors (ropes.withEditor number editor) (plain.withEditor number other) :=
  ⟨h.ropes, forall₂_set h.editors hnew number⟩

theorem Mirrors.call (call : RopeCall) : Agree Eq Mirrors (ropes.call call)
      (plain.call (fun number => (ropes.rope number).getLeafBoundaries) call) := by
  have hadd : ∀ {result : Except RopeError PersistentUtf16Rope} {mirror : Except RopeError Text}, Agree Eq Represents result mirror →
      Agree Eq Mirrors (ropes.withRope <$> result) (plain.withText <$> mirror) :=
    fun hresult => hresult.map fun _ _ => h.withRope
  have hcuts : ∀ number, CutsAs (ropes.rope number)
      ⟨plain.text number, (ropes.rope number).getLeafBoundaries⟩ := fun number => (h.rope number).cuts
  cases call with
  | ofText text => exact .ok (h.withRope (ofText_represents text))
  | insert number index text => exact hadd ((h.rope number).insert index text)
  | delete number index length => exact hadd ((h.rope number).delete index length)
  | sliceRope number start stop => exact hadd ((h.rope number).sliceRope start stop)
  | fromSegments segments => exact hadd (fromSegments_agree hcuts segments)
  | assemble calls => exact hadd (assemble_agree hcuts calls)
  | startEditor number =>
    exact .ok ⟨h.ropes, List.rel_append h.editors (.cons (h.rope number).startEditor .nil)⟩
  | editorInsert number index text =>
    exact ((h.editor number).insert index text).map fun _ _ => h.withEditor number
  | editorDelete number index length =>
    exact ((h.editor number).delete index length).map fun _ _ => h.withEditor number
  | finish number =>
    exact (h.editor number).finish.map_ok fun result hresult =>
      (h.withRope hresult.1).withEditor number hresult.2

end

theorem Mirrors.step {state : SideBySide} (h : Mirrors state.ropes state.plain) (call : RopeCall) :
    Mirrors (state.step call).ropes (state.step call).plain := by
  have hcall : Agree Eq Mirrors (state.ropes.call call) (state.plain.call state.boundaries call) :=
    h.call call
  rw [SideBySide.step]
  dsimp only
  cases hropes : state.ropes.call call with
  | error failure =>
    rw [hropes] at hcall
    cases hplain : state.plain.call state.boundaries call with
    | error other => exact h
    | ok next => rw [hplain] at hcall; cases hcall
  | ok next =>
    rw [hropes] at hcall
    cases hplain : state.plain.call state.boundaries call with
    | error other => rw [hplain] at hcall; cases hcall
    | ok other =>
      rw [hplain] at hcall
      cases hcall with
      | ok hnext => exact hnext

theorem Mirrors.run (calls : List RopeCall) {state : SideBySide}
    (h : Mirrors state.ropes state.plain) :
    Mirrors (calls.foldl SideBySide.step state).ropes (calls.foldl SideBySide.step state).plain := by
  induction calls generalizing state with
  | nil => exact h
  | cons call calls ih => exact ih (h.step call)

theorem call_keeps {next : RopeState} {call : RopeCall} (h : ropes.call call = .ok next) :
    ropes.ropes <+: next.ropes := by
  have hmap : ∀ {α : Type} (f : α → RopeState) (result : Except RopeError α),
      (∀ value, ropes.ropes <+: (f value).ropes) → f <$> result = .ok next →
      ropes.ropes <+: next.ropes := by
    intro α f result hkeeps hresult
    cases result with
    | error failure => cases hresult
    | ok value => cases hresult; exact hkeeps value
  have hadd : ∀ rope, ropes.ropes <+: (ropes.withRope rope).ropes := fun rope =>
    List.prefix_append ropes.ropes [rope]
  have hsame : ∀ number editor, ropes.ropes <+: (ropes.withEditor number editor).ropes :=
    fun number editor => List.prefix_refl ropes.ropes
  cases call with
  | ofText text => cases h; exact hadd _
  | insert number index text => exact hmap _ _ hadd h
  | delete number index length => exact hmap _ _ hadd h
  | sliceRope number start stop => exact hmap _ _ hadd h
  | fromSegments segments => exact hmap _ _ hadd h
  | assemble calls => exact hmap _ _ hadd h
  | startEditor number => cases h; exact List.prefix_refl _
  | editorInsert number index text => exact hmap _ _ (hsame number) h
  | editorDelete number index length => exact hmap _ _ (hsame number) h
  | finish number =>
    refine hmap _ (ropes.editor number).finish (fun result => ?_) h
    exact hadd result.1

end Runs

theorem ropes_refine_strings (calls : List RopeCall) :
    Faithfully (SideBySide.run calls).ropes (SideBySide.run calls).plain ∧
      ∀ call, Agree Eq Faithfully ((SideBySide.run calls).ropes.call call)
          ((SideBySide.run calls).plain.call (SideBySide.run calls).boundaries call) ∧
        ∀ next, (SideBySide.run calls).ropes.call call = .ok next →
          (SideBySide.run calls).ropes.ropes <+: next.ropes := by
  have hstart : Mirrors SideBySide.start.ropes SideBySide.start.plain := ⟨.nil, .nil⟩
  have hrun : Mirrors (SideBySide.run calls).ropes (SideBySide.run calls).plain := hstart.run calls
  refine ⟨hrun.faithfully, fun call => ⟨(hrun.call call).mono fun _ _ h => h.faithfully,
    fun next => call_keeps⟩⟩

end Softmaple.Rope
