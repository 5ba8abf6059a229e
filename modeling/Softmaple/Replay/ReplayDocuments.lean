import Softmaple.Rope.RopeRefinement
import Softmaple.Replay.LinearReplay

/-!
What a pending edit has to satisfy on the text it is not applied to yet, and when an edit of the
text with it is one that the text without it allows.
-/
namespace Softmaple.Replay

open List

/-- An operation that may be applied to a text; one that changes nothing always may. -/
def Admits (text : Text) : ExternalOperation → Prop
  | .insert index inserted =>
    inserted ≠ [] → index ≤ text.length ∧ text.splitsScalar index = false
  | .delete index length => length ≠ 0 → index + length ≤ text.length ∧
      text.splitsScalar index = false ∧ text.splitsScalar (index + length) = false

instance (text : Text) (operation : ExternalOperation) : Decidable (Admits text operation) := by
  cases operation with
  | insert index inserted => exact inferInstanceAs (Decidable (_ → _))
  | delete index length => exact inferInstanceAs (Decidable (_ → _))

def applyPlain (text : Text) (operation : ExternalOperation) : Except Unit Text :=
  if Admits text operation then .ok (operation.applyTo text) else .error ()

def Changes : ExternalOperation → Prop
  | .insert _ text => text ≠ []
  | .delete _ length => length ≠ 0

/-- What a replica checks of an operation before it takes it in. -/
def ValidOperation : ExternalOperation → Prop
  | .insert index text => isSafeInteger index = true ∧ Utf8.wellFormed text = true
  | .delete index length => isSafeInteger index = true ∧ isSafeInteger length = true

theorem admits_unchanged {operation : ExternalOperation} (h : ¬ Changes operation) (text : Text) :
    Admits text operation ∧ operation.applyTo text = text := by
  cases operation with
  | insert index inserted =>
    obtain rfl : inserted = [] := by_contra h
    exact ⟨fun hsome => absurd rfl hsome, Text.splice_nil text index⟩
  | delete index length =>
    obtain rfl : length = 0 := by_contra h
    refine ⟨fun hsome => absurd rfl hsome, ?_⟩
    rw [ExternalOperation.applyTo, Text.delete, Nat.add_zero, take_append_drop]

theorem applyPlain_unchanged {operation : ExternalOperation} (h : ¬ Changes operation) (text : Text) :
    applyPlain text operation = .ok text := by
  obtain ⟨hadmits, hsame⟩ := admits_unchanged h text
  rw [applyPlain, if_pos hadmits, hsame]

variable {γ : Type} {textOf : γ → Text}

def PendingEdit.applied (textOf : γ → Text) (base : Text) : PendingEdit γ → Text
  | .none => base
  | .insert index _ content => base.splice index (textOf content)
  | .delete index length => base.delete index length

def PendingOk (textOf : γ → Text) (base : Text) : PendingEdit γ → Prop
  | .none => True
  | .insert index length content => (textOf content).length = length ∧ 0 < length ∧
      Utf8.wellFormed (textOf content) = true ∧ index ≤ base.length ∧ base.splitsScalar index = false
  | .delete index length => 0 < length ∧ index + length ≤ base.length ∧
      base.splitsScalar index = false ∧ base.splitsScalar (index + length) = false

section Parts

variable {base : Text} {index length : Nat}

structure CutAt (base : Text) (index : Nat) (before after : Text) : Prop where
  whole : base = before ++ after
  length : before.length = index
  before : Utf8.wellFormed before = true
  after : Utf8.wellFormed after = true

theorem cutAt (hwell : Utf8.wellFormed base = true) (hindex : index ≤ base.length)
    (hcut : base.splitsScalar index = false) : ∃ before after, CutAt base index before after := by
  obtain ⟨hbefore, hafter⟩ := Text.wellFormed_parts hwell hcut
  exact ⟨base.take index, base.drop index, (take_append_drop index base).symm,
    by rw [length_take, Nat.min_eq_left hindex], hbefore, hafter⟩

structure StretchAt (base : Text) (index length : Nat) (before gone after : Text) : Prop where
  whole : base = before ++ (gone ++ after)
  index : before.length = index
  length : gone.length = length
  before : Utf8.wellFormed before = true
  gone : Utf8.wellFormed gone = true
  after : Utf8.wellFormed after = true

theorem stretchAt (hwell : Utf8.wellFormed base = true) (hend : index + length ≤ base.length)
    (hstart : base.splitsScalar index = false) (hstop : base.splitsScalar (index + length) = false)
    (hlength : 0 < length) : ∃ before gone after, StretchAt base index length before gone after := by
  obtain ⟨before, rest, hfirst⟩ := cutAt hwell (by omega) hstart
  rw [hfirst.whole, ← hfirst.length, Text.splitsScalar_right hlength] at hstop
  rw [hfirst.whole, length_append, hfirst.length] at hend
  obtain ⟨gone, after, hsecond⟩ := cutAt hfirst.after (by omega) hstop
  exact ⟨before, gone, after, by rw [← hsecond.whole]; exact hfirst.whole, hfirst.length,
    hsecond.length, hfirst.before, hsecond.before, hsecond.after⟩

theorem delete_right (before rest : Text) (length : Nat) :
    (before ++ rest).delete before.length length = before ++ rest.drop length := by
  rw [Text.delete, take_left, drop_length_add_append]

theorem splice_left (before after inserted : Text) :
    (before ++ after).splice before.length inserted = before ++ (inserted ++ after) := by
  rw [Text.splice, take_left, drop_left, append_assoc]

variable {before gone after : Text}

theorem StretchAt.delete (h : StretchAt base index length before gone after) :
    base.delete index length = before ++ after := by
  rw [h.whole, ← h.index, delete_right, ← h.length, drop_left]

end Parts

section Applied

variable {base : Text} {pending : PendingEdit γ}

theorem PendingOk.wellFormed (h : PendingOk textOf base pending) (hwell : Utf8.wellFormed base = true) :
    Utf8.wellFormed (pending.applied textOf base) = true := by
  cases pending with
  | none => exact hwell
  | insert index length content =>
    obtain ⟨-, -, hcontent, hindex, hcut⟩ := h
    obtain ⟨before, after, hparts⟩ := cutAt hwell hindex hcut
    rw [PendingEdit.applied, hparts.whole, ← hparts.length, splice_left,
      Utf8.wellFormed_append hparts.before, Utf8.wellFormed_append hcontent]
    exact hparts.after
  | delete index length =>
    obtain ⟨hlength, hend, hstart, hstop⟩ := h
    obtain ⟨before, gone, after, hparts⟩ := stretchAt hwell hend hstart hstop hlength
    rw [PendingEdit.applied, hparts.delete, Utf8.wellFormed_append hparts.before]
    exact hparts.after

end Applied

section Joins

variable {base : Text} {index length : Nat}

theorem join_insert {content : Text} (hwell : Utf8.wellFormed base = true)
    (hindex : index ≤ base.length) (hcut : base.splitsScalar index = false)
    (hcontent : Utf8.wellFormed content = true) (typed : Text) :
    Admits (base.splice index content) (.insert (index + content.length) typed) ∧
      (base.splice index content).splice (index + content.length) typed =
        base.splice index (content ++ typed) := by
  obtain ⟨before, after, hparts⟩ := cutAt hwell hindex hcut
  have hwhole : base.splice index content = before ++ content ++ after := by
    rw [hparts.whole, ← hparts.length, splice_left, append_assoc]
  have hlength : index + content.length = (before ++ content).length := by
    rw [length_append, hparts.length]
  have hboth : Utf8.wellFormed (before ++ content) = true := by
    rw [Utf8.wellFormed_append hparts.before, hcontent]
  rw [hwhole, hlength]
  refine ⟨fun _ => ⟨(prefix_append _ after).length_le, Text.splitsScalar_end hboth⟩, ?_⟩
  rw [splice_left, hparts.whole, ← hparts.length, splice_left, append_assoc, append_assoc]

theorem join_delete (hwell : Utf8.wellFormed base = true) (hlength : 0 < length)
    (hend : index + length ≤ base.length) (hstart : base.splitsScalar index = false)
    (hstop : base.splitsScalar (index + length) = false) {more : Nat} (hmore : 0 < more) :
    (Admits (base.delete index length) (.delete index more) ↔
      index + (length + more) ≤ base.length ∧ base.splitsScalar (index + (length + more)) = false) ∧
      (base.delete index length).delete index more = base.delete index (length + more) := by
  obtain ⟨before, gone, after, hparts⟩ := stretchAt hwell hend hstart hstop hlength
  have hsplits : base.splitsScalar (index + (length + more)) =
      (before ++ after).splitsScalar (index + more) := by
    rw [hparts.whole, ← hparts.index, Text.splitsScalar_right (by omega), ← hparts.length,
      Text.splitsScalar_right hmore, Text.splitsScalar_right hmore]
  have hedge : (before ++ after).splitsScalar index = false := by
    rw [← hparts.index]
    exact Text.splitsScalar_end hparts.before
  have hwhole : base.length = before.length + (gone.length + after.length) := by
    rw [hparts.whole, length_append, length_append]
  rw [hparts.delete, hsplits]
  refine ⟨⟨fun h => ?_, fun h _ => ?_⟩, ?_⟩
  · obtain ⟨hrange, -, hcut⟩ := h (by omega)
    rw [length_append] at hrange
    exact ⟨by rw [hwhole, hparts.length]; omega, hcut⟩
  · refine ⟨?_, hedge, h.2⟩
    rw [length_append]
    have hgone := hparts.length
    omega
  · rw [hparts.whole, ← hparts.index, delete_right, delete_right, ← hparts.length,
      drop_length_add_append]

theorem join_backspace (hwell : Utf8.wellFormed base = true) (hlength : 0 < length) {more : Nat}
    (hend : index + more + length ≤ base.length) (hstart : base.splitsScalar (index + more) = false)
    (hstop : base.splitsScalar (index + more + length) = false) (hmore : 0 < more) :
    (Admits (base.delete (index + more) length) (.delete index more) ↔
      base.splitsScalar index = false) ∧
      (base.delete (index + more) length).delete index more = base.delete index (length + more) := by
  obtain ⟨before, gone, after, hparts⟩ := stretchAt hwell hend hstart hstop hlength
  have hbefore : index < before.length := by rw [hparts.index]; omega
  have hsplits : base.splitsScalar index = (before ++ after).splitsScalar index := by
    rw [hparts.whole, Text.splitsScalar_left hbefore, Text.splitsScalar_left hbefore]
  have hedge : (before ++ after).splitsScalar (index + more) = false := by
    rw [← hparts.index]
    exact Text.splitsScalar_end hparts.before
  rw [hparts.delete, hsplits]
  refine ⟨⟨fun h => (h (by omega)).2.1, fun h _ => ⟨?_, h, hedge⟩⟩, ?_⟩
  · rw [length_append, hparts.index]
    omega
  · have hwide : index + (length + more) = before.length + gone.length := by
      rw [hparts.index, hparts.length]
      omega
    rw [Text.delete, Text.delete, hwide, hparts.whole, ← hparts.index, drop_left,
      take_append_of_le_length (by omega), take_append_of_le_length (by omega),
      drop_length_add_append, drop_left]

end Joins

end Softmaple.Replay

namespace Softmaple.Replay

open List

open ExceptAgreement (Agree)
open Rope (Represents EditorMirrors PlainText.codeUnitAt RopeError)

inductive Holds : ReplayDocument → Text → Prop where
  | persistent {rope : Rope.PersistentUtf16Rope} {text : Text} (h : Represents rope text) :
      Holds (.persistent rope) text
  | transient {editor : Rope.TransientUtf16RopeEditor} {text : Text}
      (h : EditorMirrors editor ⟨text, false⟩) : Holds (.transient editor) text

def AnyError (_ : ReplayError) (_ : Unit) : Prop := True

theorem agree_checked {α : Type} {R : α → Text → Prop} {text : Text} {operation : ExternalOperation}
    {check : Except ReplayError PUnit} {value : α}
    (hcheck : check = .ok () ↔ Admits text operation)
    (hvalue : Admits text operation → R value (operation.applyTo text)) :
    Agree AnyError R (check >>= fun _ => .ok value) (applyPlain text operation) := by
  rw [applyPlain]
  cases check with
  | error failure =>
    rw [if_neg fun hadmits => nomatch hcheck.mpr hadmits]
    exact .error trivial
  | ok passed =>
    have hadmits := hcheck.mp rfl
    rw [if_pos hadmits]
    exact .ok (hvalue hadmits)

section Views

variable {document : ReplayDocument} {text : Text} {index length : Nat}

section

variable (h : Holds document text)
include h

theorem Holds.length_eq : document.length = text.length := by
  cases h with
  | persistent h => exact h.length_eq
  | transient h => exact h.length_eq

theorem Holds.codeUnitAt : document.codeUnitAt index = text[index]? := by
  have hplain : PlainText.codeUnitAt text index = text[index]? := by
    rw [PlainText.codeUnitAt, if_pos (Int.natCast_nonneg index), Int.toNat_natCast]
  cases h with
  | persistent h => exact (h.codeUnitAt index).trans hplain
  | transient h => exact (h.codeUnitAt index).trans hplain

theorem Holds.marked (hsurrogate : containsUtf16SurrogateCodeUnit text = true) :
    document.hasSurrogateCodeUnits = true := by
  cases h with
  | persistent h =>
    rw [ReplayDocument.hasSurrogateCodeUnits, Rope.PersistentUtf16Rope.hasSurrogateCodeUnits, h.utf16_eq]
    exact hsurrogate
  | transient h => exact h.marked hsurrogate

theorem Holds.boundary :
    assertCodePointBoundary index document = .ok () ↔ text.splitsScalar index = false := by
  rw [assertCodePointBoundary, h.length_eq, h.codeUnitAt, h.codeUnitAt]
  cases index with
  | zero => exact ⟨fun _ => rfl, fun _ => rfl⟩
  | succ before =>
    have hiff : (text[before]?.any isHighSurrogate && text[before + 1]?.any isLowSurrogate) =
        text.splitsScalar (before + 1) := by
      rw [Text.splitsScalar]
      cases text[before]? with
      | none => rfl
      | some high => cases text[before + 1]? <;> simp
    rw [Nat.add_sub_cancel, hiff]
    split
    · next hskip =>
        refine ⟨fun _ => ?_, fun _ => rfl⟩
        rcases hskip with hzero | hend | hplain
        · cases hzero
        · rw [← hiff, getElem?_eq_none hend]
          exact Bool.and_false _
        · apply Text.splitsScalar_false_of_plain
          by_contra hsurrogate
          rw [h.marked ((Bool.not_eq_false _).mp hsurrogate)] at hplain
          cases hplain
    · cases text.splitsScalar (before + 1) with
      | true => exact ⟨(by rintro ⟨⟩), (by rintro ⟨⟩)⟩
      | false => exact ⟨fun _ => rfl, fun _ => rfl⟩

omit h in
theorem bind_ok_iff {ε : Type} {first second : Except ε PUnit} :
    (first >>= fun _ => second) = .ok () ↔ first = .ok () ∧ second = .ok () := by
  cases first with
  | error failure => exact ⟨nofun, fun h => nomatch h.1⟩
  | ok value => exact ⟨fun h => ⟨rfl, h⟩, fun h => h.2⟩

theorem Holds.documentIndex (hsafe : isSafeInteger index = true) (allowEnd : Bool) :
    assertDocumentIndex index document allowEnd = .ok () ↔
      if allowEnd then index ≤ text.length else index < text.length := by
  rw [assertDocumentIndex, h.length_eq, hsafe]
  rw [Bool.not_true, if_neg Bool.false_ne_true]
  cases allowEnd with
  | true =>
    rw [if_pos rfl, if_pos rfl]
    split
    · next hbeyond => exact ⟨nofun, fun hle => by omega⟩
    · next hwithin => exact ⟨fun _ => by omega, fun _ => rfl⟩
  | false =>
    rw [if_neg Bool.false_ne_true, if_neg Bool.false_ne_true]
    split
    · next hbeyond => exact ⟨nofun, fun hle => by omega⟩
    · next hwithin => exact ⟨fun _ => by omega, fun _ => rfl⟩

theorem Holds.checkInsert_iff (hsafe : isSafeInteger index = true) :
    checkInsert index document = .ok () ↔ index ≤ text.length ∧ text.splitsScalar index = false := by
  rw [checkInsert, bind_ok_iff, h.documentIndex hsafe, h.boundary, if_pos rfl]

theorem Holds.checkDelete_iff (hsafe : isSafeInteger index = true)
    (hlength : 0 < length) : checkDelete index length document = .ok () ↔
      index + length ≤ text.length ∧ text.splitsScalar index = false ∧
        text.splitsScalar (index + length) = false := by
  rw [checkDelete, bind_ok_iff, bind_ok_iff, h.documentIndex hsafe, h.boundary, h.length_eq,
    if_neg Bool.false_ne_true]
  split
  · next hbeyond => exact ⟨fun h => (nomatch h.2.2), fun h => absurd h.1 (by omega)⟩
  · next hwithin =>
      rw [h.boundary]
      exact ⟨fun h => ⟨by omega, h.2.1, h.2.2⟩, fun h => ⟨by omega, h.2.1, h.2.2⟩⟩

end

end Views

section Edits

variable {document : ReplayDocument} {text : Text}

section

variable (h : Holds document text)
include h

theorem Holds.insert {index : Nat} (hindex : index ≤ text.length) (inserted : Text) :
    Agree AnyError Holds (document.insert index inserted) (.ok (text.splice index inserted)) := by
  have hplace : (0 : Int) ≤ index ∧ (index : Int) ≤ text.length := by omega
  cases h with
  | persistent h =>
    have hagree := h.insert index inserted
    rw [Rope.PlainText.insert, Rope.assertIndex, if_pos hplace, Int.toNat_natCast] at hagree
    exact hagree.lift_ok fun _ => .persistent
  | transient h =>
    have hagree := h.insert index inserted
    rw [Rope.PlainEditor.insert, Rope.assertEditorIndex, if_pos hplace, Int.toNat_natCast] at hagree
    exact hagree.lift_ok fun _ => .transient

theorem Holds.delete {index length : Nat} (hrange : index + length ≤ text.length) :
    Agree AnyError Holds (document.delete index length) (.ok (text.delete index length)) := by
  have hplace : (0 : Int) ≤ index ∧ (0 : Int) ≤ length ∧ (index + length : Int) ≤ text.length := by
    omega
  cases h with
  | persistent h =>
    have hagree := h.delete index length
    rw [Rope.PlainText.delete, Rope.assertRange, if_pos hplace, Int.toNat_natCast,
      Int.toNat_natCast] at hagree
    exact hagree.lift_ok fun _ => .persistent
  | transient h =>
    have hagree := h.delete index length
    rw [Rope.PlainEditor.delete, Rope.assertEditorRange, if_pos hplace, Int.toNat_natCast,
      Int.toNat_natCast] at hagree
    exact hagree.lift_ok fun _ => .transient

theorem Holds.finish : Agree AnyError Represents document.finish (.ok text) := by
  cases h with
  | persistent h => exact .ok h
  | transient h => exact h.finish.lift_ok fun _ hresult => hresult.1

omit h in
theorem Holds.startDocument {rope : Rope.PersistentUtf16Rope} (h : Represents rope text) :
    Holds (.transient (.start rope)) text := .transient h.startEditor

theorem Holds.validate {operation : ExternalOperation}
    (hvalid : ValidOperation operation) : Agree AnyError
      (fun checked changed => operation.applyTo text = changed ∧ Admits text operation ∧
        (checked = none ∧ changed = text ∨ checked = some operation ∧ Changes operation))
      (validateLocalOperation document operation) (applyPlain text operation) := by
  by_cases hchanges : Changes operation
  · cases operation with
    | insert index inserted =>
      obtain ⟨hsafe, hwell⟩ := hvalid
      rw [validateLocalOperation, if_neg hchanges, assertWellFormedUtf16, if_pos hwell]
      refine agree_checked (((h.checkInsert_iff hsafe).trans ?_)) fun hadmits =>
        ⟨rfl, hadmits, .inr ⟨rfl, hchanges⟩⟩
      exact ⟨fun hadmits _ => hadmits, fun hadmits => hadmits hchanges⟩
    | delete index length =>
      obtain ⟨hsafe, hsafeLength⟩ := hvalid
      rw [validateLocalOperation, hsafeLength, Bool.not_true, if_neg Bool.false_ne_true,
        if_neg hchanges]
      refine agree_checked ((h.checkDelete_iff hsafe (Nat.pos_of_ne_zero hchanges)).trans ?_)
        fun hadmits => ⟨rfl, hadmits, .inr ⟨rfl, hchanges⟩⟩
      exact ⟨fun hadmits _ => hadmits, fun hadmits => hadmits hchanges⟩
  · obtain ⟨hadmits, hsame⟩ := admits_unchanged hchanges text
    have hnone : validateLocalOperation document operation = .ok none := by
      cases operation with
      | insert index inserted =>
        rw [validateLocalOperation, if_pos (not_not.mp hchanges)]
      | delete index length =>
        rw [validateLocalOperation, hvalid.2, if_pos (not_not.mp hchanges)]
        rfl
    rw [hnone, applyPlain_unchanged hchanges]
    exact .ok ⟨hsame, hadmits, .inl ⟨rfl, rfl⟩⟩

theorem Holds.apply {operation : ExternalOperation} (hvalid : ValidOperation operation) :
    Agree AnyError Holds (applyOperation document operation) (applyPlain text operation) := by
  rw [applyOperation, ← bind_pure (applyPlain text operation)]
  refine (h.validate hvalid).bind fun checked changed hchecked => ?_
  obtain ⟨rfl, hadmits, hkept⟩ := hchecked
  rcases hkept with ⟨rfl, hsame⟩ | ⟨rfl, hchanges⟩
  · rw [hsame]
    exact .ok h
  · cases operation with
    | insert index inserted => exact h.insert (hadmits hchanges).1 inserted
    | delete index length => exact h.delete (hadmits hchanges).1

end

end Edits

end Softmaple.Replay
