import Softmaple.BlockModel.SegmentUnits

/-!
What a layout says about its offsets. A logical offset belongs to the shortest list of tokens with that
much text; the content offset right after them is the largest that is not past the logical one.
-/
namespace Softmaple.BlockModel

open List

variable {before after tokens : List Token}

def EndsInText (tokens : List Token) : Prop := tokens.getLast? ≠ some .metadata

section Prefixes

theorem length_textOf_cons (token : Token) :
    (textOf (token :: tokens)).length = token.text.length + (textOf tokens).length := by
  rw [textOf_cons, length_append]

theorem length_rawOf_cons (token : Token) :
    (rawOf (token :: tokens)).length = token.raw.length + (rawOf tokens).length := by
  rw [rawOf_cons, length_append]

theorem length_textOf_append : (textOf (before ++ after)).length =
    (textOf before).length + (textOf after).length := by
  rw [textOf_append, length_append]

theorem length_rawOf_append : (rawOf (before ++ after)).length =
    (rawOf before).length + (rawOf after).length := by
  rw [rawOf_append, length_append]

theorem endsInText_append (h : after ≠ []) : EndsInText (before ++ after) ↔ EndsInText after := by
  rw [EndsInText, EndsInText, getLast?_append_of_ne_nil before h]

theorem EndsInText.text_pos (h : EndsInText tokens) (hne : tokens ≠ []) : 0 < (textOf tokens).length := by
  obtain ⟨first, token, rfl⟩ := tokens.eq_nil_or_concat'.resolve_left hne
  rw [EndsInText, getLast?_concat] at h
  rw [length_textOf_append]
  cases token with
  | metadata => exact absurd rfl h
  | escape escaped => exact Nat.add_pos_right _ Nat.one_pos
  | plain code => exact Nat.add_pos_right _ Nat.one_pos

theorem exists_text_prefix {logical : Nat} (h : logical ≤ (textOf tokens).length) :
    ∃ before after, tokens = before ++ after ∧ EndsInText before ∧ (textOf before).length = logical := by
  induction tokens generalizing logical with
  | nil => exact ⟨[], [], rfl, (by rintro ⟨⟩), (Nat.le_zero.mp h).symm⟩
  | cons token tokens ih =>
    by_cases hzero : logical = 0
    · exact ⟨[], token :: tokens, rfl, (by rintro ⟨⟩), hzero.symm⟩
    · rw [length_textOf_cons] at h
      have hle : token.text.length ≤ 1 := by cases token <;> simp [Token.text]
      obtain ⟨before, after, rfl, hends, hlength⟩ := @ih (logical - token.text.length) (by omega)
      refine ⟨token :: before, after, rfl, ?_, by rw [length_textOf_cons]; omega⟩
      cases before with
      | nil =>
        rw [textOf_nil, length_nil] at hlength
        cases token with
        | metadata => exact absurd hlength.symm hzero
        | escape escaped => rintro ⟨⟩
        | plain code => rintro ⟨⟩
      | cons next before =>
        exact (@endsInText_append [token] _ (cons_ne_nil next before)).mpr hends

theorem prefix_total {first rest : List Token} (h : before ++ after = first ++ rest)
    (hle : (rawOf before).length ≤ (rawOf first).length) :
    ∃ middle, first = before ++ middle ∧ after = middle ++ rest := by
  rcases append_eq_append_iff.mp h with ⟨middle, hfirst, hafter⟩ | ⟨middle, hbefore, hrest⟩
  · exact ⟨middle, hfirst, hafter⟩
  · rw [hbefore, length_rawOf_append] at hle
    cases middle with
    | nil => exact ⟨[], by rw [hbefore, append_nil, append_nil], hrest.symm⟩
    | cons token middle =>
      have hpos := token.raw_pos
      rw [length_rawOf_cons] at hle
      omega

end Prefixes

section Offsets

theorem logicalAt_edge :
    logicalAt (layoutOf (before ++ after)) (rawOf before).length = (textOf before).length := by
  have hlength := @length_rawOf before 0
  rw [logicalAt, lowerBound_edge]
  omega

theorem logicalAt_escape (escaped : CodeUnit) :
    logicalAt (layoutOf (before ++ .escape escaped :: after)) ((rawOf before).length + 1) =
      (textOf before).length := by
  have hspecials : (layoutOf (before ++ .escape escaped :: after)).specials =
      (specialsFrom 0 before ++ [(rawOf before).length]) ++
        specialsFrom ((rawOf before).length + 2) after := by
    rw [layoutOf, specialsFrom_append, Nat.zero_add, append_assoc]
    rfl
  have hcount : lowerBound (layoutOf (before ++ .escape escaped :: after)).specials
      ((rawOf before).length + 1) = (specialsFrom 0 before ++ [(rawOf before).length]).length := by
    rw [hspecials]
    apply PartitionPoint.partitionPoint_append
    · intro place hplace
      cases mem_append.mp hplace with
      | inl hbefore =>
        have hbounds := mem_specialsFrom hbefore
        exact decide_eq_true (by omega)
      | inr hhere =>
        rw [mem_singleton.mp hhere]
        exact decide_eq_true (Nat.lt_succ_self _)
    · intro place hplace
      have hbounds := mem_specialsFrom hplace
      exact decide_eq_false (by omega)
  have hlength := @length_rawOf before 0
  rw [logicalAt, hcount, length_append, length_singleton]
  omega

theorem exists_of_mem_zipIdx {raw count : Nat} {entry : Nat × Nat}
    (h : entry ∈ (specialsFrom raw tokens).zipIdx count) :
    ∃ first token rest, tokens = first ++ token :: rest ∧ entry.1 = raw + (rawOf first).length ∧
      entry.2 = count + (specialsFrom raw first).length := by
  induction tokens generalizing raw count with
  | nil => cases h
  | cons token tokens ih =>
    rw [specialsFrom, zipIdx_append] at h
    cases mem_append.mp h with
    | inl hhere =>
      split at hhere
      · next hspecial =>
          obtain rfl := mem_singleton.mp hhere
          exact ⟨[], token, tokens, rfl, rfl, rfl⟩
      · cases hhere
    | inr hlater =>
      obtain ⟨first, next, rest, rfl, hplace, hcount⟩ := ih hlater
      refine ⟨token :: first, next, rest, rfl, ?_, ?_⟩
      · rw [hplace, length_rawOf_cons, Nat.add_assoc]
      · rw [hcount, specialsFrom, length_append, Nat.add_assoc]

theorem contentOffsetOf_edge (h : EndsInText before) :
    contentOffsetOf (layoutOf (before ++ after)) (textOf before).length = (rawOf before).length := by
  have hlength := @length_rawOf before 0
  have hcount : PartitionPoint.partitionPoint
      (fun entry : Nat × Nat => decide (entry.1 - entry.2 < (textOf before).length))
      (layoutOf (before ++ after)).specials.zipIdx = (specialsFrom 0 before).zipIdx.length := by
    rw [layoutOf, specialsFrom_append, zipIdx_append]
    apply PartitionPoint.partitionPoint_append
    · intro entry hentry
      obtain ⟨first, token, rest, rfl, hplace, hcount⟩ := exists_of_mem_zipIdx hentry
      have hfirst := @length_rawOf first 0
      have hpos := ((endsInText_append (cons_ne_nil token rest)).mp h).text_pos
        (cons_ne_nil token rest)
      rw [length_textOf_append]
      exact decide_eq_true (by omega)
    · intro entry hentry
      obtain ⟨first, token, rest, rfl, hplace, hcount⟩ := exists_of_mem_zipIdx hentry
      have hfirst := @length_rawOf first (0 + (rawOf before).length)
      exact decide_eq_false (by omega)
  rw [contentOffsetOf, hcount, length_zipIdx]
  omega

theorem contentOffsetOf_le_iff {logical offset : Nat} (hlogical : logical ≤ (textOf tokens).length)
    (hoffset : offset ≤ (rawOf tokens).length) :
    contentOffsetOf (layoutOf tokens) logical ≤ offset ↔ logical ≤ logicalAt (layoutOf tokens) offset := by
  obtain ⟨first, rest, rfl, hends, rfl⟩ := exists_text_prefix hlogical
  rw [contentOffsetOf_edge hends]
  obtain ⟨before, after, hsplit, hcut⟩ := exists_cut hoffset
  have hat : logicalAt (layoutOf (first ++ rest)) offset = (textOf before).length := by
    rw [hsplit]
    rcases hcut with rfl | ⟨escaped, later, rfl, rfl⟩
    · exact logicalAt_edge
    · exact logicalAt_escape escaped
  rw [hat]
  constructor
  · intro hle
    by_cases hpast : (rawOf first).length ≤ (rawOf before).length
    · obtain ⟨middle, rfl, -⟩ := prefix_total hsplit hpast
      rw [length_textOf_append]
      exact Nat.le_add_right _ _
    · obtain ⟨middle, rfl, hafter⟩ := prefix_total hsplit.symm (by omega)
      rw [length_rawOf_append] at hle hpast
      rcases hcut with rfl | ⟨escaped, later, rfl, rfl⟩
      · exact absurd hle (by omega)
      · cases middle with
        | nil => exact absurd (Nat.le_refl _) hpast
        | cons token middle =>
          obtain ⟨rfl, -⟩ := cons_eq_cons.mp hafter
          have hraw : (rawOf (.escape escaped :: middle)).length = 2 + (rawOf middle).length :=
            length_rawOf_cons _
          exact absurd hle (by omega)
  · intro hle
    by_contra hpast
    have hbefore : (rawOf before).length ≤ offset := by
      rcases hcut with rfl | ⟨escaped, later, rfl, rfl⟩
      · exact Nat.le_refl _
      · exact Nat.le_succ _
    obtain ⟨middle, rfl, -⟩ := prefix_total hsplit.symm (by omega)
    have hne : middle ≠ [] := by
      rintro rfl
      rw [append_nil] at hpast
      exact hpast hbefore
    have hpos := ((endsInText_append hne).mp hends).text_pos hne
    rw [length_textOf_append] at hle
    omega

theorem logicalAt_le {offset : Nat} (h : offset ≤ (rawOf tokens).length) :
    logicalAt (layoutOf tokens) offset ≤ (textOf tokens).length := by
  obtain ⟨before, after, rfl, hcut⟩ := exists_cut h
  have hat : logicalAt (layoutOf (before ++ after)) offset = (textOf before).length := by
    rcases hcut with rfl | ⟨escaped, later, rfl, rfl⟩
    · exact logicalAt_edge
    · exact logicalAt_escape escaped
  rw [hat, length_textOf_append]
  exact Nat.le_add_right _ _

theorem contentOffsetOf_le {logical : Nat} (h : logical ≤ (textOf tokens).length) :
    contentOffsetOf (layoutOf tokens) logical ≤ (rawOf tokens).length := by
  obtain ⟨first, rest, rfl, hends, rfl⟩ := exists_text_prefix h
  rw [contentOffsetOf_edge hends, length_rawOf_append]
  exact Nat.le_add_right _ _

theorem contentOffsetOf_le_contentOffsetOf {first second : Nat} (hfirst : first ≤ (textOf tokens).length)
    (hsecond : second ≤ (textOf tokens).length) :
    contentOffsetOf (layoutOf tokens) first ≤ contentOffsetOf (layoutOf tokens) second ↔
      first ≤ second := by
  rw [contentOffsetOf_le_iff hfirst (contentOffsetOf_le hsecond)]
  obtain ⟨before, after, rfl, hends, rfl⟩ := exists_text_prefix hsecond
  rw [contentOffsetOf_edge hends, logicalAt_edge]

end Offsets

section Boundaries

theorem isLogicalBoundary_edge (h : AllValid (before ++ after)) (hends : EndsInText before) :
    isLogicalBoundary (layoutOf (before ++ after)) (textOf before).length = true ↔
      ¬ SplitsPair before after := by
  have hle : (textOf before).length ≤ (layoutOf (before ++ after)).text.length := by
    rw [layoutOf, length_textOf_append]
    exact Nat.le_add_right _ _
  rw [isLogicalBoundary, contentOffsetOf_edge hends, decide_eq_true hle, Bool.true_and, Bool.not_eq_true',
    Bool.eq_false_iff, Ne, ← splitsSurrogatePair_edge h]
  rfl

theorem isLogicalBoundary_around {logical : Nat} (h : AllValid tokens)
    (hle : logical ≤ (textOf tokens).length)
    (hinside : isLogicalBoundary (layoutOf tokens) logical = false) :
    0 < logical ∧ logical < (textOf tokens).length ∧
      isLogicalBoundary (layoutOf tokens) (logical - 1) = true ∧
      isLogicalBoundary (layoutOf tokens) (logical + 1) = true := by
  obtain ⟨before, after, rfl, hends, rfl⟩ := exists_text_prefix hle
  rw [Bool.eq_false_iff, Ne, isLogicalBoundary_edge h hends, not_not] at hinside
  obtain ⟨first, high, low, rest, rfl, rfl, hhigh, hlow⟩ := hinside
  have hlength : (textOf (first ++ [.plain high])).length = (textOf first).length + 1 :=
    length_textOf_append
  refine ⟨by omega, ?_, ?_, ?_⟩
  · rw [@length_textOf_append (first ++ [Token.plain high])]
    exact Nat.lt_add_of_pos_right (Nat.succ_pos _)
  · -- the markers between the last text and the pair are left out
    obtain ⟨text, markers, rfl, htext, hsame⟩ := exists_text_prefix (Nat.le_refl (textOf first).length)
    rw [hlength, Nat.add_sub_cancel, ← hsame]
    rw [append_assoc, append_assoc] at h ⊢
    rw [isLogicalBoundary_edge h htext]
    intro ⟨_, _, other, _, _, hmarkers, _, hother⟩
    cases markers with
    | nil =>
      obtain rfl := Token.plain.inj (cons_eq_cons.mp hmarkers).1
      exact not_high_low hhigh hother
    | cons marker markers =>
      obtain rfl := (cons_eq_cons.mp hmarkers).1
      rw [length_textOf_append, length_textOf_cons] at hsame
      have hone : (Token.plain other).text.length = 1 := rfl
      omega
  · have hnext : (textOf (first ++ [.plain high] ++ [.plain low])).length =
        (textOf (first ++ [.plain high])).length + 1 := length_textOf_append
    have hassoc : first ++ [.plain high] ++ .plain low :: rest =
        first ++ [.plain high] ++ [.plain low] ++ rest := by rw [append_assoc _ [Token.plain low]]; rfl
    rw [hassoc] at h ⊢
    rw [← hnext, isLogicalBoundary_edge h ((endsInText_append (cons_ne_nil _ _)).mpr nofun)]
    intro ⟨_, other, _, _, hlast, _, hother, _⟩
    obtain rfl := Token.plain.inj (singleton_injective (append_inj' hlast rfl).2)
    exact not_high_low hother hlow

end Boundaries

end Softmaple.BlockModel

namespace Softmaple.BlockModel

open List

variable {tokens : List Token} {before after : List Piece}

def boundariesOf (start : Nat) (units : List DecodedUnit) : List (Nat × Nat) :=
  (0, start) :: units.map fun unit => (unit.logicalTo, unit.rawTo)

section Splitting

theorem SplitsPair.cons {first second : List Token} (token : Token) (h : SplitsPair first second) :
    SplitsPair (token :: first) second := by
  obtain ⟨start, high, low, rest, rfl, rfl, hhigh, hlow⟩ := h
  exact ⟨token :: start, high, low, rest, rfl, rfl, hhigh, hlow⟩

theorem pieces_append {first second : List Token} (h : ¬ SplitsPair first second) :
    pieces (first ++ second) = pieces first ++ pieces second := by
  induction first using pieces.induct with
  | case1 => rfl
  | case2 rest ih => exact congrArg _ (ih fun hrest => h (hrest.cons _))
  | case3 escaped rest ih => exact congrArg _ (ih fun hrest => h (hrest.cons _))
  | case4 code next rest hpair ih =>
    rw [cons_append, cons_append, pieces.eq_4, if_pos hpair, pieces.eq_4, if_pos hpair,
      ih fun hrest => h ((hrest.cons _).cons _), cons_append]
  | case5 code next rest hpair ih =>
    have hrest := ih fun hrest => h (hrest.cons _)
    rw [cons_append] at hrest
    rw [cons_append, cons_append, pieces.eq_4, if_neg hpair, pieces.eq_4, if_neg hpair, hrest,
      cons_append]
  | case6 code rest hplain ih =>
    have hrest := ih fun hrest => h (hrest.cons _)
    rw [cons_append, pieces.eq_5 code rest hplain, cons_append, ← hrest]
    cases rest with
    | cons token rest =>
      refine pieces.eq_5 _ _ fun next later hlater => ?_
      rw [cons_append] at hlater
      exact hplain next rest (by rw [(cons_eq_cons.mp hlater).1])
    | nil =>
      cases second with
      | nil => rfl
      | cons token second =>
        cases token with
        | metadata => rfl
        | escape escaped => rfl
        | plain next =>
          refine (pieces.eq_4 _ _ _).trans (if_neg fun hpair => h ?_)
          rw [Bool.and_eq_true] at hpair
          exact ⟨[], code, next, second, rfl, rfl, hpair.1, hpair.2⟩

theorem pair_of_mem_pieces {high low : CodeUnit} (h : .pair high low ∈ pieces tokens) :
    isHighSurrogate high = true ∧ isLowSurrogate low = true := by
  induction tokens using pieces.induct with
  | case1 => cases h
  | case2 rest ih => exact ih ((mem_cons.mp h).resolve_left (by rintro ⟨⟩))
  | case3 escaped rest ih => exact ih ((mem_cons.mp h).resolve_left (by rintro ⟨⟩))
  | case4 code next rest hpair ih =>
    rw [pieces.eq_4, if_pos hpair] at h
    rcases mem_cons.mp h with hhere | hlater
    · cases hhere
      exact (Bool.and_eq_true _ _).mp hpair
    · exact ih hlater
  | case5 code next rest hpair ih =>
    rw [pieces.eq_4, if_neg hpair] at h
    exact ih ((mem_cons.mp h).resolve_left (by rintro ⟨⟩))
  | case6 code rest hplain ih =>
    rw [pieces.eq_5 code rest hplain] at h
    exact ih ((mem_cons.mp h).resolve_left (by rintro ⟨⟩))

end Splitting

section Boundaries

theorem Piece.endsInText_iff (piece : Piece) : EndsInText piece.tokens ↔ piece.isText = true := by
  cases piece <;> simp [EndsInText, Piece.tokens, Piece.isText]

theorem endsInText_concat (before : List Piece) (piece : Piece) :
    EndsInText (tokensOf (before ++ [piece])) ↔ piece.isText = true := by
  have hne : piece.tokens ≠ [] := by cases piece <;> exact cons_ne_nil _ _
  rw [tokensOf_append, tokensOf_cons, tokensOf_nil, append_nil, endsInText_append hne,
    piece.endsInText_iff]

theorem mem_boundariesOf {blockId : Text} {start logical raw : Nat} {list : List Piece} :
    (logical, raw) ∈ boundariesOf start (unitsFrom blockId 0 start list) ↔
      ∃ before after, list = before ++ after ∧ EndsInText (tokensOf before) ∧
        logical = textLength before ∧ raw = start + rawLength before := by
  rw [boundariesOf, mem_cons, mem_map]
  constructor
  · rintro (hfirst | ⟨unit, hunit, hentry⟩)
    · obtain ⟨rfl, rfl⟩ := Prod.mk.inj hfirst
      exact ⟨[], list, rfl, nofun, rfl, rfl⟩
    · obtain ⟨before, piece, after, rfl, htext, rfl⟩ := mem_unitsFrom.mp hunit
      obtain ⟨rfl, rfl⟩ := Prod.mk.inj hentry
      refine ⟨before ++ [piece], after, by rw [append_assoc]; rfl,
        (endsInText_concat before piece).mpr htext, ?_, ?_⟩
      · simp
      · simp [Nat.add_assoc]
  · intro ⟨before, after, hlist, hends, hlogical, hraw⟩
    rcases before.eq_nil_or_concat' with rfl | ⟨first, piece, rfl⟩
    · exact .inl (by rw [hlogical, hraw]; rfl)
    · rw [endsInText_concat] at hends
      refine .inr ⟨_, mem_unitsFrom.mpr ⟨first, piece, after, ?_, hends, rfl⟩, ?_⟩
      · rw [hlist, append_assoc]
        rfl
      · rw [hlogical, hraw]
        simp [Nat.add_assoc]

theorem mem_boundaries_iff (h : AllValid tokens) {blockId : Text} {start logical raw : Nat} :
    (logical, raw) ∈ boundariesOf start (unitsFrom blockId 0 start (pieces tokens)) ↔
      isLogicalBoundary (layoutOf tokens) logical = true ∧
        raw = start + contentOffsetOf (layoutOf tokens) logical := by
  rw [mem_boundariesOf]
  constructor
  · rintro ⟨before, after, hpieces, hends, hlogical, hraw⟩
    have htokens : tokens = tokensOf before ++ tokensOf after := by
      rw [← tokensOf_append, ← hpieces, tokensOf_pieces]
    have hsplits := not_splitsPair hpieces
    rw [hlogical, hraw, htokens, textLength]
    rw [htokens] at h
    exact ⟨(isLogicalBoundary_edge h hends).mpr hsplits,
      congrArg (start + ·) (contentOffsetOf_edge hends).symm⟩
  · rintro ⟨hboundary, hraw⟩
    have hle : logical ≤ (textOf tokens).length := by
      rw [isLogicalBoundary, Bool.and_eq_true] at hboundary
      exact of_decide_eq_true hboundary.1
    obtain ⟨before, after, rfl, hends, rfl⟩ := exists_text_prefix hle
    rw [isLogicalBoundary_edge h hends] at hboundary
    rw [contentOffsetOf_edge hends] at hraw
    refine ⟨pieces before, pieces after, pieces_append hboundary, ?_, ?_, ?_⟩
    · rwa [tokensOf_pieces]
    · rw [textLength, tokensOf_pieces]
    · rw [rawLength, tokensOf_pieces, hraw]

end Boundaries

section Nearest

/-- The largest boundary that is not past a raw place. -/
def IsAtOrBefore (boundaries : List (Nat × Nat)) (place : Nat) (entry : Nat × Nat) : Prop :=
  entry ∈ boundaries ∧ entry.2 ≤ place ∧ ∀ other ∈ boundaries, other.2 ≤ place → other.2 ≤ entry.2

def IsAtOrAfter (boundaries : List (Nat × Nat)) (place : Nat) (entry : Nat × Nat) : Prop :=
  entry ∈ boundaries ∧ place ≤ entry.2 ∧ ∀ other ∈ boundaries, place ≤ other.2 → entry.2 ≤ other.2

variable {blockId : Text} {start offset logical : Nat}

theorem le_of_isLogicalBoundary (h : isLogicalBoundary (layoutOf tokens) logical = true) :
    logical ≤ (textOf tokens).length := by
  rw [isLogicalBoundary, Bool.and_eq_true] at h
  exact of_decide_eq_true h.1

theorem boundaryAtOrBefore_eq (h : AllValid tokens) (hoffset : offset ≤ (rawOf tokens).length) :
    ∃ logical, boundaryAtOrBefore (layoutOf tokens) offset =
        ⟨logical, contentOffsetOf (layoutOf tokens) logical⟩ ∧
      isLogicalBoundary (layoutOf tokens) logical = true ∧
      logical ≤ logicalAt (layoutOf tokens) offset ∧
      ∀ other, isLogicalBoundary (layoutOf tokens) other = true →
        other ≤ logicalAt (layoutOf tokens) offset → other ≤ logical := by
  rw [boundaryAtOrBefore]
  cases hboundary : isLogicalBoundary (layoutOf tokens) (logicalAt (layoutOf tokens) offset) with
  | true => exact ⟨_, rfl, hboundary, Nat.le_refl _, fun _ _ hother => hother⟩
  | false =>
    obtain ⟨hpos, -, hbefore, -⟩ := isLogicalBoundary_around h (logicalAt_le hoffset) hboundary
    refine ⟨_, rfl, hbefore, Nat.sub_le _ _, fun other hother hle => ?_⟩
    refine Nat.le_sub_one_of_lt (Nat.lt_of_le_of_ne hle ?_)
    rintro rfl
    rw [hother] at hboundary
    cases hboundary

theorem boundaryAtOrBefore_nearest (h : AllValid tokens) (hoffset : offset ≤ (rawOf tokens).length) :
    IsAtOrBefore (boundariesOf start (unitsFrom blockId 0 start (pieces tokens))) (start + offset)
      ((boundaryAtOrBefore (layoutOf tokens) offset).logical,
        start + (boundaryAtOrBefore (layoutOf tokens) offset).offset) := by
  obtain ⟨logical, heq, hboundary, hle, hlast⟩ := boundaryAtOrBefore_eq h hoffset
  have hlogical := le_of_isLogicalBoundary hboundary
  rw [heq]
  refine ⟨(mem_boundaries_iff h).mpr ⟨hboundary, rfl⟩, ?_, ?_⟩
  · exact Nat.add_le_add_left ((contentOffsetOf_le_iff hlogical hoffset).mpr hle) start
  · intro (other, raw) hother hraw
    obtain ⟨hotherBoundary, rfl⟩ := (mem_boundaries_iff h).mp hother
    have hotherLe := le_of_isLogicalBoundary hotherBoundary
    have hat := (contentOffsetOf_le_iff hotherLe hoffset).mp (Nat.le_of_add_le_add_left hraw)
    exact Nat.add_le_add_left
      ((contentOffsetOf_le_contentOffsetOf hotherLe hlogical).mpr (hlast other hotherBoundary hat)) start

theorem exists_next_boundary (h : AllValid tokens) (logical : Nat) :
    ∃ next, (if !isLogicalBoundary (layoutOf tokens) (logical + 1) then logical + 1 + 1
        else logical + 1) = next ∧
      (next ≤ (textOf tokens).length → isLogicalBoundary (layoutOf tokens) next = true) ∧
      logical < next ∧
      ∀ other, isLogicalBoundary (layoutOf tokens) other = true → logical < other → next ≤ other := by
  cases hnext : isLogicalBoundary (layoutOf tokens) (logical + 1) with
  | true => exact ⟨_, rfl, fun _ => hnext, Nat.lt_succ_self _, fun _ _ hother => hother⟩
  | false =>
    refine ⟨_, rfl, fun hle => ?_, Nat.lt_succ_of_lt (Nat.lt_succ_self _), fun other hother hlt => ?_⟩
    · exact (isLogicalBoundary_around h (Nat.le_of_succ_le hle) hnext).2.2.2
    · refine Nat.succ_le_of_lt (Nat.lt_of_le_of_ne hlt ?_)
      rintro rfl
      rw [hother] at hnext
      cases hnext

theorem boundaryAtOrAfter_nearest (h : AllValid tokens) (hoffset : offset ≤ (rawOf tokens).length) :
    match boundaryAtOrAfter (layoutOf tokens) offset with
    | some after =>
      IsAtOrAfter (boundariesOf start (unitsFrom blockId 0 start (pieces tokens))) (start + offset)
        (after.logical, start + after.offset)
    | none => ∀ entry ∈ boundariesOf start (unitsFrom blockId 0 start (pieces tokens)),
        entry.2 < start + offset := by
  obtain ⟨logical, heq, hboundary, hle, hlast⟩ := boundaryAtOrBefore_eq h hoffset
  have hlogical := le_of_isLogicalBoundary hboundary
  rw [boundaryAtOrAfter, heq]
  dsimp only
  by_cases hhere : contentOffsetOf (layoutOf tokens) logical = offset
  · rw [if_pos hhere]
    refine ⟨(mem_boundaries_iff h).mpr ⟨hboundary, rfl⟩, ?_, fun other _ hother => ?_⟩
    · exact Nat.add_le_add_left (Nat.le_of_eq hhere.symm) start
    · rw [hhere]
      exact hother
  · obtain ⟨next, hnext, hnextBoundary, hlt, hfirst⟩ := exists_next_boundary h logical
    -- a boundary at or after the offset is past the one before it
    have hpast : ∀ other raw, (other, raw) ∈
        boundariesOf start (unitsFrom blockId 0 start (pieces tokens)) → start + offset ≤ raw →
        isLogicalBoundary (layoutOf tokens) other = true ∧
          raw = start + contentOffsetOf (layoutOf tokens) other ∧ next ≤ other := by
      intro other raw hother hraw
      obtain ⟨hotherBoundary, rfl⟩ := (mem_boundaries_iff h).mp hother
      refine ⟨hotherBoundary, rfl, hfirst other hotherBoundary (Nat.lt_of_not_le fun hbefore => hhere ?_)⟩
      refine Nat.le_antisymm ((contentOffsetOf_le_iff hlogical hoffset).mpr hle) ?_
      exact (Nat.le_of_add_le_add_left hraw).trans
        ((contentOffsetOf_le_contentOffsetOf (le_of_isLogicalBoundary hotherBoundary) hlogical).mpr hbefore)
    rw [if_neg hhere, hnext, show (layoutOf tokens).text = textOf tokens from rfl]
    by_cases hend : (textOf tokens).length < next
    · rw [if_pos hend]
      intro (other, raw) hother
      by_contra hraw
      obtain ⟨hboundary, -, hle⟩ := hpast other raw hother (Nat.le_of_not_lt hraw)
      exact absurd (hle.trans (le_of_isLogicalBoundary hboundary)) (Nat.not_le.mpr hend)
    · rw [if_neg hend]
      have hnextLe := Nat.le_of_not_lt hend
      have hboundary := hnextBoundary hnextLe
      refine ⟨(mem_boundaries_iff h).mpr ⟨hboundary, rfl⟩, ?_, ?_⟩
      · refine Nat.add_le_add_left (Nat.le_of_not_lt fun hbefore => ?_) start
        have hat := (contentOffsetOf_le_iff hnextLe hoffset).mp (Nat.le_of_lt hbefore)
        exact absurd (hlast next hboundary hat) (Nat.not_le.mpr hlt)
      · intro (other, raw) hother hraw
        obtain ⟨hotherBoundary, rfl, hle⟩ := hpast other raw hother hraw
        exact Nat.add_le_add_left ((contentOffsetOf_le_contentOffsetOf hnextLe
          (le_of_isLogicalBoundary hotherBoundary)).mpr hle) start

end Nearest

section Units

variable {list : List Piece} {piece : Piece} {blockId : Text} {start offset : Nat}

/-- An offset is between two pieces or in the middle of one of two code units. -/
theorem exists_piece_cut (h : offset ≤ rawLength list) :
    ∃ before after, list = before ++ after ∧ (offset = rawLength before ∨
      ∃ piece rest, after = piece :: rest ∧ piece.raw.length = 2 ∧ offset = rawLength before + 1) := by
  induction list generalizing offset with
  | nil => exact ⟨[], [], rfl, .inl (Nat.le_zero.mp h)⟩
  | cons piece list ih =>
    rw [rawLength_cons] at h
    by_cases hpast : piece.raw.length ≤ offset
    · obtain ⟨before, after, rfl, hcut⟩ := @ih (offset - piece.raw.length) (by omega)
      refine ⟨piece :: before, after, rfl, ?_⟩
      rw [rawLength_cons]
      rcases hcut with hedge | ⟨next, rest, rfl, hlength, hoffset⟩
      · exact .inl (by omega)
      · exact .inr ⟨next, rest, rfl, hlength, by omega⟩
    · refine ⟨[], piece :: list, rfl, ?_⟩
      have hlength : piece.raw.length = 1 ∨ piece.raw.length = 2 := by
        cases piece <;> simp [Piece.raw, Piece.tokens, Token.raw]
      rw [rawLength_nil]
      by_cases hzero : offset = 0
      · exact .inl hzero
      · exact .inr ⟨piece, list, rfl, by omega, by omega⟩

theorem middle_of_piece (hpieces : pieces tokens = before ++ piece :: after) (hvalid : AllValid tokens)
    (hlength : piece.raw.length = 2) :
    splitsUnit (layoutOf tokens) (rawLength before + 1) = true ∧
      logicalAt (layoutOf tokens) (rawLength before + 1) + 1 = textLength before + piece.text.length := by
  have htokens : tokens = tokensOf before ++ (piece.tokens ++ tokensOf after) := by
    rw [← tokensOf_cons, ← tokensOf_append, ← hpieces, tokensOf_pieces]
  cases piece with
  | metadata => cases hlength
  | single code => cases hlength
  | escape escaped =>
    rw [htokens]
    exact ⟨splitsUnit_escape escaped _, congrArg (· + 1) (logicalAt_escape escaped)⟩
  | pair high low =>
    obtain ⟨hhigh, hlow⟩ := pair_of_mem_pieces (hpieces ▸ mem_append_right _ mem_cons_self)
    have hmiddle : tokens = (tokensOf before ++ [.plain high]) ++ (.plain low :: tokensOf after) := by
      rw [htokens, append_assoc]
      rfl
    have hraw : rawLength before + 1 = (rawOf (tokensOf before ++ [.plain high])).length := by
      rw [length_rawOf_append]
      rfl
    have htext : textLength before + 2 = (textOf (tokensOf before ++ [.plain high])).length + 1 := by
      rw [length_textOf_append]
      rfl
    rw [hmiddle] at hvalid
    rw [hmiddle, hraw, splitsUnit_edge hvalid, logicalAt_edge]
    exact ⟨⟨_, high, low, _, rfl, rfl, hhigh, hlow⟩, htext.symm⟩

theorem unit_around {unit : DecodedUnit} (hunit : unit ∈ unitsFrom blockId 0 start list)
    (hfrom : unit.rawFrom < start + offset) (hto : start + offset < unit.rawTo) :
    ∃ before piece after, list = before ++ piece :: after ∧ piece.raw.length = 2 ∧
      offset = rawLength before + 1 ∧ unit.logicalTo = textLength before + piece.text.length ∧
      unit.rawTo = start + offset + 1 := by
  obtain ⟨before, piece, after, rfl, htext, rfl⟩ := mem_unitsFrom.mp hunit
  have hlength : piece.raw.length ≤ 2 := by
    cases piece <;> simp [Piece.raw, Piece.tokens, Token.raw]
  dsimp only at hfrom hto ⊢
  exact ⟨before, piece, after, rfl, by omega, by omega, by omega, by omega⟩

theorem splitsUnit_iff (h : AllValid tokens) : splitsUnit (layoutOf tokens) offset = true ↔
      ∃ unit ∈ unitsFrom blockId 0 start (pieces tokens),
        unit.rawFrom < start + offset ∧ start + offset < unit.rawTo := by
  constructor
  · intro hsplits
    have hle : offset ≤ rawLength (pieces tokens) := by
      rw [rawLength, tokensOf_pieces]
      by_contra hpast
      rw [splitsUnit_past (Nat.lt_of_not_le hpast)] at hsplits
      cases hsplits
    obtain ⟨before, after, hpieces, rfl | ⟨piece, rest, rfl, hlength, rfl⟩⟩ := exists_piece_cut hle
    · have htokens : tokens = tokensOf before ++ tokensOf after := by
        rw [← tokensOf_append, ← hpieces, tokensOf_pieces]
      rw [htokens] at h hsplits
      exact absurd ((splitsUnit_edge h).mp hsplits) (not_splitsPair hpieces)
    · have htext : piece.isText = true := by
        cases piece with
        | metadata => cases hlength
        | escape escaped => rfl
        | single code => rfl
        | pair high low => rfl
      refine ⟨_, mem_unitsFrom.mpr ⟨before, piece, rest, hpieces, htext, rfl⟩, ?_, ?_⟩
      · dsimp only
        omega
      · dsimp only
        omega
  · rintro ⟨unit, hunit, hfrom, hto⟩
    obtain ⟨before, piece, after, hpieces, hlength, rfl, -⟩ := unit_around hunit hfrom hto
    exact (middle_of_piece hpieces h hlength).1

theorem logicalAt_inside (h : AllValid tokens) {unit : DecodedUnit}
    (hunit : unit ∈ unitsFrom blockId 0 start (pieces tokens)) (hfrom : unit.rawFrom < start + offset)
    (hto : start + offset < unit.rawTo) :
    logicalAt (layoutOf tokens) offset + (unit.rawTo - (start + offset)) = unit.logicalTo := by
  obtain ⟨before, piece, after, hpieces, hlength, rfl, hlogical, hraw⟩ := unit_around hunit hfrom hto
  rw [hraw, Nat.add_sub_cancel_left, hlogical]
  exact (middle_of_piece hpieces h hlength).2

theorem logicalAt_between (h : AllValid tokens) (hoffset : offset ≤ (rawOf tokens).length)
    (hsplits : splitsUnit (layoutOf tokens) offset = false) :
    ∃ raw, IsAtOrBefore (boundariesOf start (unitsFrom blockId 0 start (pieces tokens))) (start + offset)
      (logicalAt (layoutOf tokens) offset, raw) := by
  have hboundary : isLogicalBoundary (layoutOf tokens) (logicalAt (layoutOf tokens) offset) = true := by
    obtain ⟨first, rest, rfl, rfl⟩ := exists_edge hsplits hoffset
    rw [Bool.eq_false_iff, Ne, splitsUnit_edge h] at hsplits
    obtain ⟨text, markers, rfl, hends, hsame⟩ := exists_text_prefix (Nat.le_refl (textOf first).length)
    rw [logicalAt_edge, ← hsame, append_assoc]
    rw [append_assoc] at h
    refine (isLogicalBoundary_edge h hends).mpr fun hpair => ?_
    cases markers with
    | nil => exact hsplits (by rwa [append_nil])
    | cons marker markers =>
      obtain ⟨_, _, low, _, _, hmarkers, -, -⟩ := hpair
      obtain rfl := (cons_eq_cons.mp hmarkers).1
      rw [length_textOf_append, length_textOf_cons] at hsame
      have hone : (Token.plain low).text.length = 1 := rfl
      omega
  have hbefore : boundaryAtOrBefore (layoutOf tokens) offset = ⟨logicalAt (layoutOf tokens) offset,
        contentOffsetOf (layoutOf tokens) (logicalAt (layoutOf tokens) offset)⟩ := by
    rw [boundaryAtOrBefore, hboundary]
    rfl
  have hnearest := @boundaryAtOrBefore_nearest tokens blockId start offset h hoffset
  rw [hbefore] at hnearest
  exact ⟨_, hnearest⟩

end Units

end Softmaple.BlockModel
