import Softmaple.BlockModel.Wire
import Softmaple.Lib.PartitionPoint

/-!
The raw sequence of a segment and its text (`segment-layout.ts`, and `decodeSegment` of
`materialize.ts`).
-/
namespace Softmaple.BlockModel

open List

inductive SegmentError where
  | unindexedBlockMarker
  | malformedEscape
  | malformedUtf16
  deriving DecidableEq, Repr

structure SegmentLayout where
  content : Text
  text : Text
  specials : List Nat
  deriving DecidableEq, Repr

structure LayoutBoundary where
  logical : Nat
  offset : Nat
  deriving DecidableEq, Repr

structure ContentRange where
  start : Nat
  stop : Nat
  deriving DecidableEq, Repr

def METADATA_CODE : CodeUnit := METADATA_MARKER.getD 0 0
def BLOCK_CODE : CodeUnit := BLOCK_MARKER.getD 0 0
def ESCAPE_CODE : CodeUnit := TEXT_ESCAPE.getD 0 0

/-- The loop of `decodeLayout`; the text up to `runStart` has been copied. -/
def decodeLayoutFrom (content : Text) (index runStart : Nat) (text : Text) (specials : List Nat) :
    Except SegmentError SegmentLayout :=
  match _h : content[index]? with
  | none =>
    if runStart = 0 then .ok ⟨content, content, specials⟩
    else .ok ⟨content, text ++ content.drop runStart, specials⟩
  | some code =>
    let copied := text ++ (content.take index).drop runStart
    if code = METADATA_CODE then
      decodeLayoutFrom content (index + 1) (index + 1) copied (specials ++ [index])
    else if code = BLOCK_CODE then .error .unindexedBlockMarker
    else if code = ESCAPE_CODE then
      match content[index + 1]? with
      | none => .error .malformedEscape
      | some escaped =>
        if !isReserved escaped then .error .malformedEscape
        else decodeLayoutFrom content (index + 2) (index + 2) (copied ++ [escaped])
          (specials ++ [index])
    else decodeLayoutFrom content (index + 1) runStart text specials
termination_by content.length - index
decreasing_by all_goals have := (List.getElem?_eq_some_iff.mp _h).1; omega

def decodeLayout (content : Text) : Except SegmentError SegmentLayout :=
  decodeLayoutFrom content 0 0 [] []

def lowerBound (values : List Nat) (target : Nat) : Nat :=
  PartitionPoint.partitionPoint (fun value => decide (value < target)) values

def isSpecialAt (specials : List Nat) (offset : Nat) : Bool :=
  let index := lowerBound specials offset
  decide (index < specials.length) && decide (specials[index]? = some offset)

def splitsSurrogatePair (content : Text) (offset : Nat) : Bool :=
  decide (0 < offset) && decide (offset < content.length) &&
    (content[offset - 1]?.any isHighSurrogate && content[offset]?.any isLowSurrogate)

def splitsUnit (layout : SegmentLayout) (offset : Nat) : Bool :=
  (decide (0 < offset) && decide (layout.content[offset - 1]? = some ESCAPE_CODE) &&
    isSpecialAt layout.specials (offset - 1)) ||
  splitsSurrogatePair layout.content offset

def isPlainText (text : Text) : Bool :=
  !text.any isReserved && !text.head?.any isLowSurrogate && !text.getLast?.any isHighSurrogate

def spliceContent (content : Text) (offset deleteCount : Nat) (inserted : Text) : Text :=
  content.take offset ++ inserted ++ content.drop (offset + deleteCount)

/-- An edit of the content. A special that is shifted stands after the deletion. -/
def spliceLayout (layout : SegmentLayout) (offset deleteCount : Nat) (inserted : Text) :
    Except SegmentError SegmentLayout :=
  let next := spliceContent layout.content offset deleteCount inserted
  let specials := layout.specials
  if splitsUnit layout offset || splitsUnit layout (offset + deleteCount) then decodeLayout next
  else
    let first := lowerBound specials offset
    if deleteCount = 0 ∧ inserted = METADATA_MARKER then
      .ok ⟨next, layout.text, specials.take first ++ [offset] ++ (specials.drop first).map (· + 1)⟩
    else if !isPlainText inserted then decodeLayout next
    else if 0 < deleteCount ∧ lowerBound specials (offset + deleteCount) ≠ first then
      decodeLayout next
    else
      let logical := offset - first
      let text := layout.text.take logical ++ inserted ++ layout.text.drop (logical + deleteCount)
      if inserted.length = deleteCount ∨ first = specials.length then .ok ⟨next, text, specials⟩
      else
        .ok ⟨next, text, specials.take first ++
          (specials.drop first).map (· + inserted.length - deleteCount)⟩

def logicalAt (layout : SegmentLayout) (offset : Nat) : Nat :=
  offset - lowerBound layout.specials offset

def contentOffsetOf (layout : SegmentLayout) (logical : Nat) : Nat :=
  logical + PartitionPoint.partitionPoint (fun entry => decide (entry.1 - entry.2 < logical))
    layout.specials.zipIdx

def isLogicalBoundary (layout : SegmentLayout) (logical : Nat) : Bool :=
  decide (logical ≤ layout.text.length) &&
    !splitsSurrogatePair layout.content (contentOffsetOf layout logical)

def boundaryAtOrBefore (layout : SegmentLayout) (offset : Nat) : LayoutBoundary :=
  let logical := logicalAt layout offset
  let logical := if !isLogicalBoundary layout logical then logical - 1 else logical
  ⟨logical, contentOffsetOf layout logical⟩

def boundaryAtOrAfter (layout : SegmentLayout) (offset : Nat) : Option LayoutBoundary :=
  let before := boundaryAtOrBefore layout offset
  if before.offset = offset then some before
  else
    let logical := before.logical + 1
    let logical := if !isLogicalBoundary layout logical then logical + 1 else logical
    if layout.text.length < logical then none
    else some ⟨logical, contentOffsetOf layout logical⟩

/-- The loop of `unitRanges` over the specials that are left. -/
def rangesFrom (content : Text) (start stop : Nat) : List Nat → List ContentRange
  | [] => if start < stop then [⟨start, stop⟩] else []
  | special :: rest =>
    if stop ≤ special then if start < stop then [⟨start, stop⟩] else []
    else if content[special]? ≠ some METADATA_CODE then rangesFrom content start stop rest
    else
      (if start < special then [⟨start, special⟩] else []) ++
        rangesFrom content (special + 1) stop rest

def unitRanges (layout : SegmentLayout) (logicalFrom logicalTo : Nat) : List ContentRange :=
  let stop := contentOffsetOf layout logicalTo
  let start := contentOffsetOf layout logicalFrom
  rangesFrom layout.content start stop (layout.specials.drop (lowerBound layout.specials start))

structure DecodedUnit where
  blockId : Text
  logicalFrom : Nat
  logicalTo : Nat
  rawFrom : Nat
  rawTo : Nat
  deriving DecidableEq, Repr

/-- `boundaries` lists a map whose keys grow. -/
structure DecodedSegment where
  text : Text
  boundaries : List (Nat × Nat)
  units : List DecodedUnit
  deriving DecidableEq, Repr

def DecodedSegment.add (segment : DecodedSegment) (blockId : Text) (visible : Text)
    (rawFrom rawTo : Nat) : DecodedSegment where
  text := segment.text ++ visible
  boundaries := segment.boundaries ++ [(segment.text.length + visible.length, rawTo)]
  units := segment.units ++
    [⟨blockId, segment.text.length, segment.text.length + visible.length, rawFrom, rawTo⟩]

def codePointAt (raw : Text) (rawIndex : Nat) (current : CodeUnit) : Text :=
  match raw[rawIndex + 1]? with
  | some next => if isHighSurrogate current && isLowSurrogate next then [current, next] else [current]
  | none => [current]

theorem length_codePointAt_pos (raw : Text) (rawIndex : Nat) (current : CodeUnit) :
    0 < (codePointAt raw rawIndex current).length := by
  rw [codePointAt]
  split
  · split
    · exact Nat.succ_pos _
    · exact Nat.succ_pos _
  · exact Nat.succ_pos _

def decodeSegmentFrom (raw : Text) (stop : Nat) (blockId : Text) (rawIndex : Nat)
    (segment : DecodedSegment) : Except SegmentError DecodedSegment :=
  if stop ≤ rawIndex then .ok segment
  else
    match raw[rawIndex]? with
    | none => .error .malformedUtf16
    | some current =>
      if current = METADATA_CODE then decodeSegmentFrom raw stop blockId (rawIndex + 1) segment
      else if current = BLOCK_CODE then .error .unindexedBlockMarker
      else if current = ESCAPE_CODE then
        match raw[rawIndex + 1]? with
        | none => .error .malformedEscape
        | some escaped =>
          if !isReserved escaped then .error .malformedEscape
          else decodeSegmentFrom raw stop blockId (rawIndex + 2)
            (segment.add blockId [escaped] rawIndex (rawIndex + 2))
      else
        let visible := codePointAt raw rawIndex current
        decodeSegmentFrom raw stop blockId (rawIndex + visible.length)
          (segment.add blockId visible rawIndex (rawIndex + visible.length))
termination_by stop - rawIndex
decreasing_by
  · omega
  · omega
  · have := length_codePointAt_pos raw rawIndex current
    omega

def decodeSegment (raw : Text) (start stop : Nat) (blockId : Text) :
    Except SegmentError DecodedSegment :=
  decodeSegmentFrom raw stop blockId start ⟨[], [(0, start)], []⟩

end Softmaple.BlockModel

namespace Softmaple.BlockModel

open List

inductive Token where
  | metadata
  | escape (escaped : CodeUnit)
  | plain (code : CodeUnit)
  deriving DecidableEq, Repr

namespace Token

def raw : Token → Text
  | .metadata => [METADATA_CODE]
  | .escape escaped => [ESCAPE_CODE, escaped]
  | .plain code => [code]

def text : Token → Text
  | .metadata => []
  | .escape escaped => [escaped]
  | .plain code => [code]

def Valid : Token → Prop
  | .metadata => True
  | .escape escaped => isReserved escaped = true
  | .plain code => isReserved code = false

/-- Whether a token has one code unit that is no text. -/
def special : Token → Bool
  | .plain _ => false
  | _ => true

end Token

def rawOf (tokens : List Token) : Text := tokens.flatMap Token.raw

def textOf (tokens : List Token) : Text := tokens.flatMap Token.text

def AllValid (tokens : List Token) : Prop := ∀ token ∈ tokens, token.Valid

def specialsFrom (start : Nat) : List Token → List Nat
  | [] => []
  | token :: rest =>
    (if token.special then [start] else []) ++ specialsFrom (start + token.raw.length) rest

def layoutOf (tokens : List Token) : SegmentLayout := ⟨rawOf tokens, textOf tokens, specialsFrom 0 tokens⟩

section Codes

theorem isReserved_iff (code : CodeUnit) : isReserved code = true ↔
    code = BLOCK_CODE ∨ code = METADATA_CODE ∨ code = ESCAPE_CODE := by
  have hsingle : ∀ other : CodeUnit, [code] = [other] ↔ code = other := fun other =>
    ⟨fun h => singleton_injective h, fun h => by rw [h]⟩
  rw [isReserved, decide_eq_true_eq]
  exact or_congr (hsingle _) (or_congr (hsingle _) (hsingle _))

theorem codes_reserved : isReserved METADATA_CODE = true ∧ isReserved BLOCK_CODE = true ∧
    isReserved ESCAPE_CODE = true := by decide

theorem reserved_not_surrogate {code : CodeUnit} (h : isReserved code = true) :
    isHighSurrogate code = false ∧ isLowSurrogate code = false := by
  rcases (isReserved_iff code).mp h with rfl | rfl | rfl <;> decide

theorem escape_ne : METADATA_CODE ≠ ESCAPE_CODE := by decide

end Codes

section Lists

variable {before after tokens : List Token} {token : Token}

@[simp] theorem rawOf_nil : rawOf [] = [] := rfl

@[simp] theorem rawOf_cons : rawOf (token :: tokens) = token.raw ++ rawOf tokens := rfl

@[simp] theorem rawOf_append : rawOf (before ++ after) = rawOf before ++ rawOf after :=
  flatMap_append

@[simp] theorem textOf_nil : textOf [] = [] := rfl

@[simp] theorem textOf_cons : textOf (token :: tokens) = token.text ++ textOf tokens := rfl

@[simp] theorem textOf_append : textOf (before ++ after) = textOf before ++ textOf after :=
  flatMap_append

theorem allValid_append : AllValid (before ++ after) ↔ AllValid before ∧ AllValid after :=
  forall_mem_append

theorem Token.length_raw (token : Token) :
    token.raw.length = token.text.length + (if token.special then 1 else 0) := by
  cases token <;> rfl

theorem Token.raw_pos (token : Token) : 0 < token.raw.length := by
  cases token <;> exact Nat.succ_pos _

theorem specialsFrom_append (start : Nat) : specialsFrom start (before ++ after) =
    specialsFrom start before ++ specialsFrom (start + (rawOf before).length) after := by
  induction before generalizing start with
  | nil => rfl
  | cons token before ih =>
    rw [cons_append, specialsFrom, specialsFrom, ih, rawOf_cons, length_append,
      Nat.add_assoc, append_assoc]

theorem mem_specialsFrom {start place : Nat} (h : place ∈ specialsFrom start tokens) :
    start ≤ place ∧ place < start + (rawOf tokens).length := by
  induction tokens generalizing start with
  | nil => cases h
  | cons token tokens ih =>
    have hpos := token.raw_pos
    rw [rawOf_cons, length_append]
    rw [specialsFrom] at h
    cases mem_append.mp h with
    | inl hhere =>
      split at hhere
      · rw [mem_singleton] at hhere
        omega
      · cases hhere
    | inr hlater =>
      have hbounds := ih hlater
      omega

theorem length_rawOf (start : Nat) : (rawOf tokens).length =
    (textOf tokens).length + (specialsFrom start tokens).length := by
  induction tokens generalizing start with
  | nil => rfl
  | cons token tokens ih =>
    have hrest := ih (start + token.raw.length)
    have hraw := token.length_raw
    rw [rawOf_cons, textOf_cons, specialsFrom, length_append, length_append,
      length_append]
    split at hraw
    · next hspecial =>
        rw [if_pos hspecial, length_singleton]
        omega
    · next hplain =>
        rw [if_neg hplain, length_nil]
        omega

theorem map_add_specialsFrom (start shift : Nat) :
    (specialsFrom start tokens).map (· + shift) = specialsFrom (start + shift) tokens := by
  induction tokens generalizing start with
  | nil => rfl
  | cons token tokens ih =>
    rw [specialsFrom, specialsFrom, map_append, ih, Nat.add_right_comm]
    split <;> rfl

theorem lowerBound_specials (start : Nat) :
    lowerBound (specialsFrom start (before ++ after)) (start + (rawOf before).length) =
      (specialsFrom start before).length := by
  rw [specialsFrom_append]
  apply PartitionPoint.partitionPoint_append
  · intro place hplace
    have hbounds := mem_specialsFrom hplace
    exact decide_eq_true (by omega)
  · intro place hplace
    have hbounds := mem_specialsFrom hplace
    exact decide_eq_false (by omega)

end Lists

section Decoding

theorem decodeLayoutFrom_end {content text : Text} {runStart : Nat} {specials : List Nat}
    (hrun : runStart = 0 → text = []) :
    decodeLayoutFrom content content.length runStart text specials =
      .ok ⟨content, text ++ content.drop runStart, specials⟩ := by
  rw [decodeLayoutFrom.eq_def]
  split
  · split
    · next hzero => rw [hzero, hrun hzero, drop_zero, nil_append]
    · rfl
  · next code hcode =>
      rw [getElem?_eq_none (Nat.le_refl _)] at hcode
      cases hcode

theorem decodeLayoutFrom_tokens {tokens : List Token} (h : AllValid tokens) {done text : Text}
    {runStart : Nat} {specials : List Nat} (hle : runStart ≤ done.length)
    (hrun : runStart = 0 → text = []) :
    decodeLayoutFrom (done ++ rawOf tokens) done.length runStart text specials =
      .ok ⟨done ++ rawOf tokens, text ++ done.drop runStart ++ textOf tokens,
        specials ++ specialsFrom done.length tokens⟩ := by
  induction tokens generalizing done text runStart specials with
  | nil =>
    rw [rawOf_nil, append_nil, textOf_nil, append_nil, specialsFrom, append_nil]
    exact decodeLayoutFrom_end hrun
  | cons token tokens ih =>
    obtain ⟨hvalid, hrest⟩ := forall_mem_cons.mp h
    have hcopied : ((done ++ (token.raw ++ rawOf tokens)).take done.length).drop runStart =
        done.drop runStart := by rw [take_left]
    have hnext : ∀ {text runStart specials}, runStart ≤ done.length + token.raw.length →
        (runStart = 0 → text = []) →
        decodeLayoutFrom (done ++ (token.raw ++ rawOf tokens)) (done.length + token.raw.length) runStart
          text specials = .ok ⟨done ++ (token.raw ++ rawOf tokens),
            text ++ (done ++ token.raw).drop runStart ++ textOf tokens,
            specials ++ specialsFrom (done.length + token.raw.length) tokens⟩ := by
      intro text runStart specials hle hrun
      rw [← append_assoc done, ← length_append]
      exact ih hrest (by rwa [length_append]) hrun
    have hdone : (done ++ token.raw).drop (done.length + token.raw.length) = [] := by
      rw [← length_append, drop_length]
    rw [rawOf_cons, textOf_cons, specialsFrom, decodeLayoutFrom.eq_def]
    have hhere : (done ++ (token.raw ++ rawOf tokens))[done.length]? = token.raw.head? := by
      rw [getElem?_append_right (Nat.le_refl _), Nat.sub_self, ← head?_eq_getElem?,
        head?_append]
      cases token <;> rfl
    split
    · next hnone =>
        rw [hhere] at hnone
        cases token <;> cases hnone
    next code hcode =>
    rw [hhere] at hcode
    dsimp only
    cases token with
    | metadata =>
      obtain rfl := Option.some.inj hcode
      rw [if_pos rfl, hcopied]
      refine (hnext (Nat.le_refl _) nofun).trans ?_
      rw [hdone, append_nil, append_assoc specials]
      rfl
    | escape escaped =>
      obtain rfl := Option.some.inj hcode
      have hreserved : isReserved escaped = true := hvalid
      have hlater : (done ++ (Token.raw (.escape escaped) ++ rawOf tokens))[done.length + 1]? =
          some escaped := by
        rw [getElem?_append_right (Nat.le_add_right _ _), Nat.add_sub_cancel_left]
        rfl
      rw [if_neg escape_ne.symm, if_neg (by decide), if_pos rfl, hlater, hcopied]
      dsimp only
      rw [hreserved, Bool.not_true, if_neg Bool.false_ne_true]
      refine (hnext (Nat.le_refl _) nofun).trans ?_
      rw [hdone, append_nil, append_assoc specials, append_assoc _ [escaped]]
      rfl
    | plain code =>
      obtain rfl := Option.some.inj hcode
      have hplain : isReserved code = false := hvalid
      have hcodes : ¬ (code = BLOCK_CODE ∨ code = METADATA_CODE ∨ code = ESCAPE_CODE) := by
        rw [← isReserved_iff, hplain]
        exact Bool.false_ne_true
      rw [if_neg fun h => hcodes (.inr (.inl h)), if_neg fun h => hcodes (.inl h),
        if_neg fun h => hcodes (.inr (.inr h))]
      refine (hnext (hle.trans (Nat.le_add_right _ _)) hrun).trans ?_
      rw [drop_append_of_le_length hle, ← append_assoc text,
        append_assoc (text ++ done.drop runStart)]
      rfl

theorem decodeLayout_tokens {tokens : List Token} (h : AllValid tokens) :
    decodeLayout (rawOf tokens) = .ok (layoutOf tokens) :=
  @decodeLayoutFrom_tokens tokens h [] [] 0 [] (Nat.le_refl 0) fun _ => rfl

theorem tokens_of_decodeLayoutFrom {content text : Text} {index runStart : Nat} {specials : List Nat}
    {layout : SegmentLayout} (h : decodeLayoutFrom content index runStart text specials = .ok layout) :
    ∃ tokens, AllValid tokens ∧ content.drop index = rawOf tokens := by
  induction hgap : content.length - index using Nat.strong_induction_on generalizing index runStart text
    specials with
  | h gap ih =>
    rw [decodeLayoutFrom.eq_def] at h
    split at h
    · next hnone =>
        refine ⟨[], fun token htoken => absurd htoken not_mem_nil, ?_⟩
        exact drop_eq_nil_of_le (getElem?_eq_none_iff.mp hnone)
    next code hcode =>
    obtain ⟨hlt, hget⟩ := List.getElem?_eq_some_iff.mp hcode
    have hhead : content.drop index = code :: content.drop (index + 1) := by
      rw [drop_eq_getElem_cons hlt, hget]
    dsimp only at h
    split at h
    · next hmetadata =>
        obtain ⟨tokens, hvalid, hrest⟩ := ih _ (by omega) h rfl
        exact ⟨.metadata :: tokens, forall_mem_cons.mpr ⟨trivial, hvalid⟩, by
          rw [hhead, hrest, hmetadata]; rfl⟩
    · next hmetadata =>
        split at h
        · cases h
        · next hblock =>
            split at h
            · next hescape =>
                split at h
                · cases h
                · next escaped hescaped =>
                    split at h
                    · cases h
                    · next hreserved =>
                        obtain ⟨tokens, hvalid, hrest⟩ := ih _ (by omega) h rfl
                        obtain ⟨hlater, hnext⟩ := List.getElem?_eq_some_iff.mp hescaped
                        refine ⟨.escape escaped :: tokens, forall_mem_cons.mpr ⟨?_, hvalid⟩, ?_⟩
                        · show isReserved escaped = true
                          rwa [Bool.not_eq_true, Bool.not_eq_false'] at hreserved
                        · rw [hhead, drop_eq_getElem_cons hlater, hnext, hrest, hescape]
                          rfl
            · next hescape =>
                obtain ⟨tokens, hvalid, hrest⟩ := ih _ (by omega) h rfl
                refine ⟨.plain code :: tokens, forall_mem_cons.mpr ⟨?_, hvalid⟩, by
                  rw [hhead, hrest]; rfl⟩
                show isReserved code = false
                rw [Bool.eq_false_iff, Ne, isReserved_iff]
                rintro (hcase | hcase | hcase)
                · exact hblock hcase
                · exact hmetadata hcase
                · exact hescape hcase

theorem tokens_of_decodeLayout {content : Text} {layout : SegmentLayout}
    (h : decodeLayout content = .ok layout) :
    ∃ tokens, AllValid tokens ∧ content = rawOf tokens ∧ layout = layoutOf tokens := by
  obtain ⟨tokens, hvalid, hcontent⟩ := tokens_of_decodeLayoutFrom h
  rw [drop_zero] at hcontent
  rw [hcontent, decodeLayout_tokens hvalid] at h
  exact ⟨tokens, hvalid, hcontent, (Except.ok.inj h).symm⟩

end Decoding

end Softmaple.BlockModel
