import Softmaple.BlockModel.SegmentAgreement

/-!
The raw ranges of a stretch of text are its units, grouped where they touch.
-/
namespace Softmaple.BlockModel

open List

variable {tokens : List Token} {before after list : List Piece} {blockId : Text}
  {start logical raw : Nat}

/-- A range in front of others; two that touch are one. -/
def attach (range : ContentRange) : List ContentRange → List ContentRange
  | [] => [range]
  | next :: rest =>
    if next.start = range.stop then ⟨range.start, next.stop⟩ :: rest else range :: next :: rest

def contiguousRanges (units : List DecodedUnit) : List ContentRange :=
  units.foldr (fun unit => attach ⟨unit.rawFrom, unit.rawTo⟩) []

def ContentRange.shift (start : Nat) (range : ContentRange) : ContentRange :=
  ⟨start + range.start, start + range.stop⟩

section Grouping

/-- What has been read since the last range, in front of the later ones. -/
def attachPending (pending place : Nat) (ranges : List ContentRange) : List ContentRange :=
  if pending < place then attach ⟨pending, place⟩ ranges else ranges

theorem attach_attach {first second third : Nat} (ranges : List ContentRange) :
    attach ⟨first, second⟩ (attach ⟨second, third⟩ ranges) = attach ⟨first, third⟩ ranges := by
  cases ranges with
  | nil => simp [attach]
  | cons next rest =>
    by_cases htouch : next.start = third
    · simp [attach, htouch]
    · simp [attach, htouch]

theorem attachPending_attach {first second third : Nat} (hle : first ≤ second)
    (ranges : List ContentRange) :
    attachPending first second (attach ⟨second, third⟩ ranges) = attach ⟨first, third⟩ ranges := by
  rw [attachPending]
  split
  · exact attach_attach ranges
  · next hlt => rw [Nat.le_antisymm hle (Nat.le_of_not_lt hlt)]

theorem attachPending_self (place : Nat) (ranges : List ContentRange) :
    attachPending place place ranges = ranges := if_neg (Nat.lt_irrefl place)

theorem head?_attach (range : ContentRange) (ranges : List ContentRange) :
    ∃ stop, (attach range ranges).head? = some ⟨range.start, stop⟩ := by
  cases ranges with
  | nil => exact ⟨range.stop, rfl⟩
  | cons next rest =>
    rw [attach]
    split
    · exact ⟨next.stop, rfl⟩
    · exact ⟨range.stop, rfl⟩

theorem contiguousRanges_cons (piece : Piece) : contiguousRanges (unitsFrom blockId logical raw (piece :: list)) =
    if piece.isText then attach ⟨raw, raw + piece.raw.length⟩
      (contiguousRanges (unitsFrom blockId (logical + piece.text.length) (raw + piece.raw.length) list))
    else contiguousRanges (unitsFrom blockId (logical + piece.text.length) (raw + piece.raw.length) list) := by
  rw [unitsFrom]
  split <;> rfl

theorem le_head_contiguousRanges {range : ContentRange}
    (h : (contiguousRanges (unitsFrom blockId logical raw list)).head? = some range) :
    raw ≤ range.start := by
  induction list generalizing logical raw with
  | nil => cases h
  | cons piece list ih =>
    rw [contiguousRanges_cons] at h
    split at h
    · obtain ⟨stop, hhead⟩ := head?_attach ⟨raw, raw + piece.raw.length⟩
        (contiguousRanges (unitsFrom blockId (logical + piece.text.length) (raw + piece.raw.length) list))
      rw [hhead] at h
      obtain rfl := Option.some.inj h
      exact Nat.le_refl _
    · exact (Nat.le_add_right _ _).trans (ih h)

theorem attachPending_marker (pending : Nat) :
    attachPending pending raw (contiguousRanges (unitsFrom blockId logical (raw + 1) list)) =
      (if pending < raw then [⟨pending, raw⟩] else []) ++
        contiguousRanges (unitsFrom blockId logical (raw + 1) list) := by
  rw [attachPending]
  split
  · cases hranges : contiguousRanges (unitsFrom blockId logical (raw + 1) list) with
    | nil => rfl
    | cons next rest =>
      have hnext := @le_head_contiguousRanges list blockId logical (raw + 1) next (by rw [hranges]; rfl)
      have hgap : next.start ≠ raw := by omega
      exact if_neg hgap
  · rfl

end Grouping

section Loop

variable {content : Text} {pending stop : Nat}

theorem rangesFrom_past {specials : List Nat} (h : ∀ special ∈ specials, stop ≤ special) :
    rangesFrom content pending stop specials = if pending < stop then [⟨pending, stop⟩] else [] := by
  cases specials with
  | nil => rfl
  | cons special rest => exact if_pos (h special mem_cons_self)

/-- The loop passes an escaped code unit as it passes ordinary ones. -/
theorem rangesFrom_text {done rest : List Token} (piece : Piece) (htext : piece.isText = true)
    (hstop : (rawOf done).length < stop) (hcontent : content = rawOf (done ++ (piece.tokens ++ rest))) :
    rangesFrom content pending stop (specialsFrom (rawOf done).length (piece.tokens ++ rest)) =
      rangesFrom content pending stop (specialsFrom ((rawOf done).length + piece.raw.length) rest) := by
  cases piece with
  | metadata => cases htext
  | single code => rfl
  | pair high low => rfl
  | escape escaped =>
    have hget : content[(rawOf done).length]? = some ESCAPE_CODE := by
      rw [hcontent, rawOf_append, getElem?_append_right (Nat.le_refl _), Nat.sub_self]
      rfl
    refine (if_neg (Nat.not_le.mpr hstop)).trans (if_pos ?_)
    rw [hget]
    exact fun h => escape_ne (Option.some.inj h).symm

theorem rangesFrom_pieces (done rest : List Token)
    (hcontent : content = rawOf (done ++ (tokensOf list ++ rest))) (hpending : pending ≤ (rawOf done).length) :
    (rangesFrom content pending ((rawOf done).length + rawLength list)
        (specialsFrom (rawOf done).length (tokensOf list ++ rest))).map (ContentRange.shift start) =
      attachPending (start + pending) (start + (rawOf done).length)
        (contiguousRanges (unitsFrom blockId logical (start + (rawOf done).length) list)) := by
  induction list generalizing done pending logical with
  | nil =>
    rw [rawLength_nil, Nat.add_zero, rangesFrom_past fun special hspecial => (mem_specialsFrom hspecial).1,
      attachPending, apply_ite (List.map (ContentRange.shift start))]
    simp only [Nat.add_lt_add_iff_left]
    rfl
  | cons piece list ih =>
    have hassoc : done ++ (tokensOf (piece :: list) ++ rest) =
        (done ++ piece.tokens) ++ (tokensOf list ++ rest) := by
      rw [tokensOf_cons, append_assoc, append_assoc]
    have hlength : (rawOf (done ++ piece.tokens)).length = (rawOf done).length + piece.raw.length :=
      length_rawOf_append
    have hpos := piece.raw_pos
    rw [hassoc] at hcontent
    rw [contiguousRanges_cons, tokensOf_cons, append_assoc, rawLength_cons, ← Nat.add_assoc]
    cases htext : piece.isText with
    | true =>
      have hrest := @ih (logical + piece.text.length) pending (done ++ piece.tokens) hcontent (by omega)
      rw [hlength, ← Nat.add_assoc] at hrest
      rw [rangesFrom_text piece htext (by omega) (by rw [hcontent, append_assoc]), hrest, if_pos rfl,
        attachPending_attach (by omega)]
      exact if_pos (by omega)
    | false =>
      obtain rfl : piece = .metadata := by
        cases piece with
        | metadata => rfl
        | escape escaped => cases htext
        | single code => cases htext
        | pair high low => cases htext
      have hget : content[(rawOf done).length]? = some METADATA_CODE := by
        rw [hcontent, append_assoc, rawOf_append, getElem?_append_right (Nat.le_refl _),
          Nat.sub_self]
        rfl
      have hrest := @ih logical ((rawOf done).length + 1) (done ++ Piece.metadata.tokens) hcontent
        (Nat.le_of_eq hlength.symm)
      rw [hlength, show (Piece.raw .metadata).length = 1 from rfl, ← Nat.add_assoc,
        attachPending_self] at hrest
      have hloop : rangesFrom content pending ((rawOf done).length + 1 + rawLength list)
          (specialsFrom (rawOf done).length (Piece.metadata.tokens ++ (tokensOf list ++ rest))) =
          (if pending < (rawOf done).length then [⟨pending, (rawOf done).length⟩] else []) ++
            rangesFrom content ((rawOf done).length + 1) ((rawOf done).length + 1 + rawLength list)
              (specialsFrom ((rawOf done).length + 1) (tokensOf list ++ rest)) := by
        refine (if_neg (by omega)).trans (if_neg ?_)
        rw [hget, not_not]
      rw [show (Piece.raw .metadata).length = 1 from rfl, hloop, map_append, hrest,
        if_neg Bool.false_ne_true, show (Piece.text .metadata).length = 0 from rfl, Nat.add_zero,
        attachPending_marker, apply_ite (List.map (ContentRange.shift start))]
      simp only [Nat.add_lt_add_iff_left]
      rfl

end Loop

section Stretches

theorem text_pos_of_mem {entry : DecodedUnit} (h : entry ∈ unitsFrom blockId logical raw list) :
    logical ≤ entry.logicalFrom ∧ entry.logicalFrom < entry.logicalTo ∧
      entry.logicalTo ≤ logical + textLength list := by
  obtain ⟨before, piece, after, rfl, htext, rfl⟩ := mem_unitsFrom.mp h
  have hpos := piece.text_pos_iff.mpr htext
  rw [textLength_append, textLength_cons]
  dsimp only
  exact ⟨by omega, by omega, by omega⟩

theorem filter_unitsFrom {middle : List Piece} :
    (unitsFrom blockId 0 start (before ++ (middle ++ after))).filter
        (fun entry => decide (textLength before ≤ entry.logicalFrom ∧
          entry.logicalTo ≤ textLength before + textLength middle)) =
      unitsFrom blockId (textLength before) (start + rawLength before) middle := by
  rw [unitsFrom_append, unitsFrom_append, Nat.zero_add, filter_append, filter_append]
  have hbefore : (unitsFrom blockId 0 start before).filter (fun entry =>
      decide (textLength before ≤ entry.logicalFrom ∧
        entry.logicalTo ≤ textLength before + textLength middle)) = [] := by
    refine filter_eq_nil_iff.mpr fun entry hentry => ?_
    have hbounds := text_pos_of_mem hentry
    rw [decide_eq_true_eq]
    omega
  have hafter : (unitsFrom blockId (textLength before + textLength middle)
      (start + rawLength before + rawLength middle) after).filter (fun entry =>
      decide (textLength before ≤ entry.logicalFrom ∧
        entry.logicalTo ≤ textLength before + textLength middle)) = [] := by
    refine filter_eq_nil_iff.mpr fun entry hentry => ?_
    have hbounds := text_pos_of_mem hentry
    rw [decide_eq_true_eq]
    omega
  rw [hbefore, hafter, nil_append, append_nil]
  refine filter_eq_self.mpr fun entry hentry => ?_
  have hbounds := text_pos_of_mem hentry
  exact decide_eq_true ⟨hbounds.1, hbounds.2.2⟩

theorem pieces_prefix_total {first rest : List Piece} (h : before ++ after = first ++ rest)
    (hle : rawLength before ≤ rawLength first) :
    ∃ middle, first = before ++ middle ∧ after = middle ++ rest := by
  rcases append_eq_append_iff.mp h with ⟨middle, hfirst, hafter⟩ | ⟨middle, hbefore, hrest⟩
  · exact ⟨middle, hfirst, hafter⟩
  · rw [hbefore, rawLength_append] at hle
    cases middle with
    | nil => exact ⟨[], by rw [hbefore, append_nil, append_nil], hrest.symm⟩
    | cons piece middle =>
      have hpos := piece.raw_pos
      rw [rawLength_cons] at hle
      omega

theorem unitRanges_eq (h : AllValid tokens) {logicalFrom logicalTo : Nat}
    (hfrom : isLogicalBoundary (layoutOf tokens) logicalFrom = true)
    (hto : isLogicalBoundary (layoutOf tokens) logicalTo = true) :
    (unitRanges (layoutOf tokens) logicalFrom logicalTo).map (ContentRange.shift start) =
      contiguousRanges ((unitsFrom blockId 0 start (pieces tokens)).filter
        fun entry => decide (logicalFrom ≤ entry.logicalFrom ∧ entry.logicalTo ≤ logicalTo)) := by
  obtain ⟨before, rest, hpieces, hends, rfl, hstart⟩ := mem_boundariesOf.mp
    ((@mem_boundaries_iff tokens h blockId 0 _ _).mpr ⟨hfrom, rfl⟩)
  obtain ⟨first, after, hother, hfirst, rfl, hstop⟩ := mem_boundariesOf.mp
    ((@mem_boundaries_iff tokens h blockId 0 _ _).mpr ⟨hto, rfl⟩)
  rw [Nat.zero_add, Nat.zero_add] at hstart hstop
  have htokens : tokens = tokensOf before ++ tokensOf rest := by
    rw [← tokensOf_append, ← hpieces, tokensOf_pieces]
  have hdrop : (layoutOf tokens).specials.drop (lowerBound (layoutOf tokens).specials (rawLength before)) =
      specialsFrom (rawLength before) (tokensOf rest) := by
    rw [htokens, rawLength, lowerBound_edge, layoutOf, specialsFrom_append, Nat.zero_add, drop_left]
  rw [unitRanges, hstart, hstop, hdrop]
  by_cases hle : rawLength before ≤ rawLength first
  · obtain ⟨middle, rfl, rfl⟩ := pieces_prefix_total (hpieces.symm.trans hother) hle
    have hloop := @rangesFrom_pieces middle blockId start (textLength before) (rawOf tokens)
      (rawLength before) (tokensOf before) (tokensOf after)
      (by rw [htokens, tokensOf_append]) (Nat.le_refl _)
    rw [hpieces, textLength_append, filter_unitsFrom, rawLength_append, tokensOf_append]
    exact hloop.trans (attachPending_self _ _)
  · obtain ⟨middle, rfl, -⟩ := pieces_prefix_total (hother.symm.trans hpieces) (Nat.le_of_not_le hle)
    have hnone : (unitsFrom blockId 0 start (pieces tokens)).filter (fun entry =>
        decide (textLength (first ++ middle) ≤ entry.logicalFrom ∧ entry.logicalTo ≤ textLength first)) =
          [] := by
      refine filter_eq_nil_iff.mpr fun entry hentry => ?_
      have hbounds := text_pos_of_mem hentry
      rw [decide_eq_true_eq, textLength_append]
      omega
    rw [hnone, rangesFrom_past fun special hspecial =>
      (Nat.le_of_not_le hle).trans (mem_specialsFrom hspecial).1, if_neg (by omega)]
    rfl

end Stretches

end Softmaple.BlockModel

namespace Softmaple.BlockModel

open List

section Encoding

/-- The code points of a text, as a string iterator yields them. -/
def codePoints : Text → List Text
  | [] => []
  | [code] => [[code]]
  | code :: next :: rest =>
    if isHighSurrogate code && isLowSurrogate next then [code, next] :: codePoints rest
    else [code] :: codePoints (next :: rest)

/-- The encoded units of a text with any number of metadata markers around each. -/
inductive Interleaved : List Text → Text → Prop where
  | nil : Interleaved [] []
  | metadata {units : List Text} {content : Text} (rest : Interleaved units content) :
      Interleaved units (METADATA_MARKER ++ content)
  | unit {units : List Text} {value encoded content : Text} (encoding : encodeText value = .ok encoded)
      (rest : Interleaved units content) : Interleaved (value :: units) (encoded ++ content)

theorem flatten_codePoints (value : Text) : (codePoints value).flatten = value := by
  induction value using codePoints.induct with
  | case1 => rfl
  | case2 code => rfl
  | case3 code next rest hpair ih =>
    rw [codePoints, if_pos hpair, flatten_cons, ih]
    rfl
  | case4 code next rest hpair ih =>
    rw [codePoints, if_neg hpair, flatten_cons, ih]
    rfl

theorem encodeText_ok {value : Text} (h : Utf8.wellFormed value = true) :
    encodeText value = .ok (escapeText value) := by
  rw [encodeText, assertWellFormedUtf16, if_pos h]
  rfl

theorem escapeText_append (first second : Text) :
    escapeText (first ++ second) = escapeText first ++ escapeText second := flatMap_append

theorem isHighSurrogate_eq (code : CodeUnit) : isHighSurrogate code = Utf8.isHigh code := rfl

theorem interleaved_escapeText {value : Text} (h : Utf8.wellFormed value = true) :
    Interleaved (codePoints value) (escapeText value) := by
  induction value using codePoints.induct with
  | case1 => exact .nil
  | case2 code =>
    have hunit := Interleaved.unit (encodeText_ok h) .nil
    rwa [append_nil] at hunit
  | case3 code next rest hpair ih =>
    obtain ⟨hhigh, hlow⟩ := (Bool.and_eq_true _ _).mp hpair
    rw [isHighSurrogate_eq] at hhigh
    rw [Utf8.wellFormed, if_pos hhigh, Bool.and_eq_true] at h
    have hvalue : Utf8.wellFormed [code, next] = true := by
      rw [Utf8.wellFormed, if_pos hhigh, h.1]
      rfl
    have hencoded := escapeText_append [code, next] rest
    rw [cons_append, singleton_append] at hencoded
    rw [codePoints, if_pos hpair, hencoded]
    exact Interleaved.unit (encodeText_ok hvalue) (ih h.2)
  | case4 code next rest hpair ih =>
    rw [Utf8.wellFormed] at h
    split at h
    · next hhigh =>
        rw [Bool.and_eq_true] at h
        exact absurd ((Bool.and_eq_true _ _).mpr ⟨hhigh, h.1⟩) hpair
    · next hhigh =>
        rw [Bool.and_eq_true] at h
        have hvalue : Utf8.wellFormed [code] = true := by
          rw [Utf8.wellFormed, (Bool.not_eq_true _).mp hhigh, h.1]
          rfl
        have hencoded := escapeText_append [code] (next :: rest)
        rw [singleton_append] at hencoded
        rw [codePoints, if_neg hpair, hencoded]
        exact Interleaved.unit (encodeText_ok hvalue) (ih h.2)

def tokensOfText (value : Text) : List Token :=
  value.map fun code => if isReserved code then .escape code else .plain code

theorem tokensOfText_spec (value : Text) : AllValid (tokensOfText value) ∧
    rawOf (tokensOfText value) = escapeText value ∧ textOf (tokensOfText value) = value := by
  induction value with
  | nil => exact ⟨nofun, rfl, rfl⟩
  | cons code value ih =>
    obtain ⟨hvalid, hraw, htext⟩ := ih
    have hsplit : tokensOfText (code :: value) =
        (if isReserved code then .escape code else .plain code) :: tokensOfText value := rfl
    rw [hsplit, rawOf_cons, textOf_cons, hraw, htext]
    cases hreserved : isReserved code with
    | true =>
      refine ⟨forall_mem_cons.mpr ⟨hreserved, hvalid⟩, ?_, rfl⟩
      rw [escapeText, escapeText, flatMap_cons, hreserved]
      rfl
    | false =>
      refine ⟨forall_mem_cons.mpr ⟨hreserved, hvalid⟩, ?_, rfl⟩
      rw [escapeText, escapeText, flatMap_cons, hreserved]
      rfl

theorem encodeText_eq {value encoded : Text} (h : encodeText value = .ok encoded) :
    encoded = escapeText value := by
  rw [encodeText, assertWellFormedUtf16] at h
  split at h
  · exact (Except.ok.inj h).symm
  · cases h

theorem tokens_of_interleaved {units : List Text} {content : Text} (h : Interleaved units content) :
    ∃ tokens, AllValid tokens ∧ content = rawOf tokens ∧ textOf tokens = units.flatten := by
  induction h with
  | nil => exact ⟨[], nofun, rfl, rfl⟩
  | metadata rest ih =>
    obtain ⟨tokens, hvalid, rfl, htext⟩ := ih
    exact ⟨.metadata :: tokens, forall_mem_cons.mpr ⟨trivial, hvalid⟩, rfl, htext⟩
  | @unit units value encoded content encoding rest ih =>
    obtain ⟨tokens, hvalid, rfl, htext⟩ := ih
    obtain ⟨hvalue, hraw, hvalueText⟩ := tokensOfText_spec value
    refine ⟨tokensOfText value ++ tokens, allValid_append.mpr ⟨hvalue, hvalid⟩, ?_, ?_⟩
    · rw [encodeText_eq encoding, rawOf_append, hraw]
    · rw [textOf_append, hvalueText, htext, flatten_cons]

theorem block_escaped {content : Text} {layout : SegmentLayout} (h : decodeLayout content = .ok layout)
    {index : Nat} (hindex : content[index]? = some BLOCK_CODE) :
    0 < index ∧ content[index - 1]? = some ESCAPE_CODE ∧ index - 1 ∈ layout.specials := by
  obtain ⟨tokens, hvalid, rfl, rfl⟩ := tokens_of_decodeLayout h
  have hlt := (List.getElem?_eq_some_iff.mp hindex).1
  obtain ⟨before, after, rfl, rfl | ⟨escaped, rest, rfl, rfl⟩⟩ := exists_cut (Nat.le_of_lt hlt)
  · cases after with
    | nil =>
      rw [append_nil] at hlt
      exact absurd hlt (Nat.lt_irrefl _)
    | cons token rest =>
      rw [rawOf_append, getElem?_append_right (Nat.le_refl _), Nat.sub_self,
        ← head?_eq_getElem?, head?_rawOf] at hindex
      have htoken : token.Valid := hvalid token (mem_append_right _ mem_cons_self)
      cases token with
      | metadata => exact absurd hindex (by decide)
      | escape escaped => exact absurd hindex (by show ¬ some ESCAPE_CODE = some BLOCK_CODE; decide)
      | plain code =>
        obtain rfl := Option.some.inj hindex
        exact absurd (codes_reserved.2.1.symm.trans htoken).symm Bool.false_ne_true
  · refine ⟨Nat.succ_pos _, ?_, ?_⟩
    · rw [Nat.add_sub_cancel, rawOf_append, getElem?_append_right (Nat.le_refl _), Nat.sub_self]
      rfl
    · exact mem_of_isSpecialAt ((isSpecialAt_token (.escape escaped)).trans rfl)

end Encoding

section Layouts

/-- The answers of a layout are those of the units and boundaries of a segment that starts at `start`. -/
structure Agrees (layout : SegmentLayout) (segment : DecodedSegment) (start : Nat) : Prop where
  text : segment.text = layout.text
  splits : ∀ offset, splitsUnit layout offset = true ↔
    ∃ unit ∈ segment.units, unit.rawFrom < start + offset ∧ start + offset < unit.rawTo
  logicalInside : ∀ offset, ∀ unit ∈ segment.units, unit.rawFrom < start + offset →
    start + offset < unit.rawTo → logicalAt layout offset + (unit.rawTo - (start + offset)) = unit.logicalTo
  logicalBetween : ∀ offset ≤ layout.content.length, splitsUnit layout offset = false →
    ∃ raw, IsAtOrBefore segment.boundaries (start + offset) (logicalAt layout offset, raw)
  boundaries : ∀ logical raw, (logical, raw) ∈ segment.boundaries ↔
    isLogicalBoundary layout logical = true ∧ raw = start + contentOffsetOf layout logical
  before : ∀ offset ≤ layout.content.length, IsAtOrBefore segment.boundaries (start + offset)
      ((boundaryAtOrBefore layout offset).logical, start + (boundaryAtOrBefore layout offset).offset)
  after : ∀ offset ≤ layout.content.length,
    match boundaryAtOrAfter layout offset with
    | some after => IsAtOrAfter segment.boundaries (start + offset) (after.logical, start + after.offset)
    | none => ∀ entry ∈ segment.boundaries, entry.2 < start + offset
  ranges : ∀ logicalFrom logicalTo, isLogicalBoundary layout logicalFrom = true →
    isLogicalBoundary layout logicalTo = true →
    (unitRanges layout logicalFrom logicalTo).map (ContentRange.shift start) =
      contiguousRanges (segment.units.filter fun unit =>
        decide (logicalFrom ≤ unit.logicalFrom ∧ unit.logicalTo ≤ logicalTo))

theorem agrees_decodeSegment {content : Text} {layout : SegmentLayout}
    (h : decodeLayout content = .ok layout) (pre : Text) {post : Text} (blockId : Text)
    (hpost : post = [] ∨ ∃ later, post = BLOCK_MARKER ++ later) :
    ∃ segment, decodeSegment (pre ++ content ++ post) pre.length (pre.length + content.length) blockId =
      .ok segment ∧ Agrees layout segment pre.length := by
  obtain ⟨tokens, hvalid, rfl, rfl⟩ := tokens_of_decodeLayout h
  exact ⟨_, decodeSegment_tokens hvalid pre hpost,
    { text := rfl
      splits := fun _ => splitsUnit_iff hvalid
      logicalInside := fun _ _ hunit hfrom hto => logicalAt_inside hvalid hunit hfrom hto
      logicalBetween := fun _ hoffset hsplits => logicalAt_between hvalid hoffset hsplits
      boundaries := fun _ _ => mem_boundaries_iff hvalid
      before := fun _ hoffset => boundaryAtOrBefore_nearest hvalid hoffset
      after := fun _ hoffset => boundaryAtOrAfter_nearest hvalid hoffset
      ranges := fun _ _ hfrom hto => unitRanges_eq hvalid hfrom hto }⟩

theorem decodeLayout_interleaved {value content : Text} (h : Interleaved (codePoints value) content) :
    ∃ layout, decodeLayout content = .ok layout ∧ layout.text = value := by
  obtain ⟨tokens, hvalid, rfl, htext⟩ := tokens_of_interleaved h
  exact ⟨layoutOf tokens, decodeLayout_tokens hvalid, htext.trans (flatten_codePoints value)⟩

/-- Layouts follow every edit of a content, answer as the full decoder does, and read encoded text back. -/
theorem layouts_exact : (∀ {content layout}, decodeLayout content = .ok layout →
      (∀ offset deleteCount inserted, offset ≤ content.length →
        spliceLayout layout offset deleteCount inserted =
          decodeLayout (spliceContent content offset deleteCount inserted)) ∧
      ∀ pre post blockId, (post = [] ∨ ∃ later, post = BLOCK_MARKER ++ later) →
        ∃ segment, decodeSegment (pre ++ content ++ post) pre.length (pre.length + content.length) blockId =
          .ok segment ∧ Agrees layout segment pre.length) ∧
    ∀ value, Utf8.wellFormed value = true →
      (∃ encoded, encodeText value = .ok encoded ∧ Interleaved (codePoints value) encoded) ∧
      ∀ content, Interleaved (codePoints value) content →
        ∃ layout, decodeLayout content = .ok layout ∧ layout.text = value ∧
          ∀ index, content[index]? = some BLOCK_CODE →
            0 < index ∧ content[index - 1]? = some ESCAPE_CODE ∧ index - 1 ∈ layout.specials := by
  refine ⟨fun h => ⟨fun offset deleteCount inserted hoffset => ?_, fun pre post blockId hpost => ?_⟩,
    fun value hvalue => ⟨?_, fun content hcontent => ?_⟩⟩
  · exact spliceLayout_eq deleteCount inserted h hoffset
  · exact agrees_decodeSegment h pre blockId hpost
  · exact ⟨_, encodeText_ok hvalue, interleaved_escapeText hvalue⟩
  · obtain ⟨layout, hlayout, htext⟩ := decodeLayout_interleaved hcontent
    exact ⟨layout, hlayout, htext, fun index hindex => block_escaped hlayout hindex⟩

end Layouts

end Softmaple.BlockModel
