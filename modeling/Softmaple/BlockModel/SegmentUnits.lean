import Softmaple.BlockModel.SegmentTokens

/-!
Offsets of a content as places between its tokens, and edits of a layout. An offset is between two
tokens or inside an escaped code unit; `splitsUnit` also refuses the middle of a surrogate pair.
-/
namespace Softmaple.BlockModel

open List

variable {before middle after tokens : List Token}

/-- Two tokens that are one code point, one on each side. -/
def SplitsPair (before after : List Token) : Prop :=
  ∃ first high low rest, before = first ++ [.plain high] ∧ after = .plain low :: rest ∧
    isHighSurrogate high = true ∧ isLowSurrogate low = true

section Cuts

theorem exists_cut {offset : Nat} (h : offset ≤ (rawOf tokens).length) :
    ∃ before after, tokens = before ++ after ∧ (offset = (rawOf before).length ∨
      ∃ escaped rest, after = .escape escaped :: rest ∧ offset = (rawOf before).length + 1) := by
  induction tokens generalizing offset with
  | nil => exact ⟨[], [], rfl, .inl (Nat.le_zero.mp h)⟩
  | cons token tokens ih =>
    rw [rawOf_cons, length_append] at h
    by_cases hpast : token.raw.length ≤ offset
    · obtain ⟨before, after, hsplit, hcut⟩ := @ih (offset - token.raw.length) (by omega)
      refine ⟨token :: before, after, by rw [hsplit, cons_append], ?_⟩
      rw [rawOf_cons, length_append]
      cases hcut with
      | inl hedge => exact .inl (by omega)
      | inr hinside =>
        obtain ⟨escaped, rest, hafter, hoffset⟩ := hinside
        exact .inr ⟨escaped, rest, hafter, by omega⟩
    · refine ⟨[], token :: tokens, rfl, ?_⟩
      cases token with
      | metadata => exact .inl (Nat.le_zero.mp (Nat.le_of_lt_succ (Nat.not_le.mp hpast)))
      | plain code => exact .inl (Nat.le_zero.mp (Nat.le_of_lt_succ (Nat.not_le.mp hpast)))
      | escape escaped =>
        have hlt : offset < 2 := Nat.not_le.mp hpast
        by_cases hzero : offset = 0
        · exact .inl hzero
        · exact .inr ⟨escaped, tokens, rfl, by rw [rawOf_nil, length_nil]; omega⟩

/-- The code unit before an edge, and the one after it. -/
theorem rawOf_last (token : Token) :
    (rawOf (before ++ [token]))[(rawOf (before ++ [token])).length - 1]? = token.raw.getLast? := by
  rw [← getLast?_eq_getElem?, rawOf_append, rawOf_cons, rawOf_nil, append_nil,
    getLast?_append]
  cases token <;> rfl

theorem lowerBound_edge : lowerBound (layoutOf (before ++ after)).specials (rawOf before).length =
      (specialsFrom 0 before).length := by
  have h := @lowerBound_specials before after 0
  rwa [Nat.zero_add] at h

theorem isSpecialAt_token (token : Token) :
    isSpecialAt (layoutOf (before ++ token :: after)).specials (rawOf before).length =
      token.special := by
  rw [isSpecialAt, lowerBound_edge, layoutOf, specialsFrom_append, Nat.zero_add, specialsFrom]
  cases hspecial : token.special with
  | true =>
    rw [if_pos rfl, getElem?_append_right (Nat.le_refl _), Nat.sub_self, length_append]
    simp
  | false =>
    rw [if_neg Bool.false_ne_true, nil_append,
      getElem?_append_right (Nat.le_refl _), Nat.sub_self]
    rw [Bool.and_eq_false_iff, decide_eq_false_iff_not, decide_eq_false_iff_not]
    refine .inr fun hget => ?_
    have hbounds := mem_specialsFrom (mem_of_getElem? hget)
    have hpos := token.raw_pos
    omega

end Cuts

section Splits

theorem mem_of_isSpecialAt {specials : List Nat} {offset : Nat} (h : isSpecialAt specials offset = true) :
    offset ∈ specials := by
  rw [isSpecialAt, Bool.and_eq_true, decide_eq_true_eq, decide_eq_true_eq] at h
  exact mem_of_getElem? h.2

theorem Token.plain_of_high {token : Token} (h : token.Valid) {code : CodeUnit}
    (hlast : token.raw.getLast? = some code) (hhigh : isHighSurrogate code = true) :
    token = .plain code := by
  cases token with
  | metadata =>
    obtain rfl := Option.some.inj hlast
    exact absurd hhigh (by decide)
  | escape escaped =>
    obtain rfl := Option.some.inj hlast
    exact absurd ((reserved_not_surrogate h).1.symm.trans hhigh) Bool.false_ne_true
  | plain value => exact congrArg Token.plain (Option.some.inj hlast)

theorem Token.plain_of_low {token : Token} {code : CodeUnit} (hhead : token.raw.head? = some code)
    (hlow : isLowSurrogate code = true) : token = .plain code := by
  cases token with
  | metadata =>
    obtain rfl := Option.some.inj hhead
    exact absurd hlow (by decide)
  | escape escaped =>
    obtain rfl := Option.some.inj hhead
    exact absurd hlow (by decide)
  | plain value => rw [Option.some.inj hhead]

theorem head?_rawOf (token : Token) : (rawOf (token :: tokens)).head? = token.raw.head? := by
  cases token <;> rfl

theorem content_around (first : List Token) (token : Token) (after : List Token) :
    (rawOf (first ++ [token] ++ after))[(rawOf (first ++ [token])).length - 1]? = token.raw.getLast? ∧
      (rawOf (first ++ [token] ++ after))[(rawOf (first ++ [token])).length]? = (rawOf after).head? := by
  have hpos : 0 < (rawOf (first ++ [token])).length := by
    have htoken := token.raw_pos
    rw [rawOf_append, length_append, rawOf_cons, length_append]
    omega
  constructor
  · rw [rawOf_append, getElem?_append_left (Nat.sub_lt hpos Nat.one_pos), rawOf_last]
  · rw [rawOf_append, getElem?_append_right (Nat.le_refl _), Nat.sub_self, head?_eq_getElem?]

theorem splitsSurrogatePair_edge (h : AllValid (before ++ after)) :
    splitsSurrogatePair (rawOf (before ++ after)) (rawOf before).length = true ↔
      SplitsPair before after := by
  rcases before.eq_nil_or_concat' with rfl | ⟨first, token, rfl⟩
  · constructor
    · intro hsplits
      simp [splitsSurrogatePair] at hsplits
    · intro ⟨first, high, low, rest, hbefore, _⟩
      simp at hbefore
  have hvalid : token.Valid := h token (by simp)
  have hpos := token.raw_pos
  obtain ⟨hlast, hnext⟩ := content_around first token after
  simp only [splitsSurrogatePair, hlast, hnext, Bool.and_eq_true, decide_eq_true_eq, Option.any_eq_true]
  constructor
  · intro ⟨_, ⟨high, hgetLast, hhigh⟩, low, hhead, hlow⟩
    cases after with
    | nil => cases hhead
    | cons next rest =>
      rw [head?_rawOf] at hhead
      exact ⟨first, high, low, rest, by rw [Token.plain_of_high hvalid hgetLast hhigh],
        by rw [Token.plain_of_low hhead hlow], hhigh, hlow⟩
  · intro ⟨_, high, low, rest, hbefore, hafter, hhigh, hlow⟩
    obtain ⟨rfl, htoken⟩ := append_inj' hbefore rfl
    obtain rfl := singleton_injective htoken
    rw [hafter]
    refine ⟨⟨?_, ?_⟩, ⟨high, rfl, hhigh⟩, low, rfl, hlow⟩
    · rw [rawOf_append, length_append]
      exact Nat.lt_of_lt_of_le hpos (Nat.le_add_left _ _)
    · rw [@rawOf_append (first ++ [Token.plain high]), length_append]
      exact Nat.lt_add_of_pos_right (Nat.succ_pos _)

theorem not_escaped_edge (h : AllValid (before ++ after)) :
    ¬ ((layoutOf (before ++ after)).content[(rawOf before).length - 1]? = some ESCAPE_CODE ∧
      0 < (rawOf before).length ∧
      isSpecialAt (layoutOf (before ++ after)).specials ((rawOf before).length - 1) = true) := by
  intro ⟨hescape, hpos, hspecial⟩
  rcases before.eq_nil_or_concat' with rfl | ⟨first, token, rfl⟩
  · cases hpos
  have hvalid : token.Valid := h token (by simp)
  rw [layoutOf, (content_around first token after).1] at hescape
  cases token with
  | metadata => exact absurd (Option.some.inj hescape) escape_ne
  | plain code =>
    obtain rfl := Option.some.inj hescape
    exact absurd (codes_reserved.2.2.symm.trans hvalid).symm Bool.false_ne_true
  | escape escaped =>
    have hmem := mem_of_isSpecialAt hspecial
    rw [layoutOf, append_assoc, specialsFrom_append, singleton_append, specialsFrom,
      mem_append, mem_append] at hmem
    have hlength : (rawOf (first ++ [.escape escaped])).length = (rawOf first).length + 2 := by
      rw [rawOf_append, length_append]
      rfl
    rw [hlength] at hmem
    rcases hmem with hfirst | hhere | hlater
    · have hbounds := mem_specialsFrom hfirst
      omega
    · have hplace := mem_singleton.mp hhere
      omega
    · have hbounds := mem_specialsFrom hlater
      have hraw : (Token.escape escaped).raw.length = 2 := rfl
      omega

theorem splitsUnit_edge (h : AllValid (before ++ after)) :
    splitsUnit (layoutOf (before ++ after)) (rawOf before).length = true ↔
      SplitsPair before after := by
  have hescaped := not_escaped_edge h
  rw [splitsUnit, Bool.or_eq_true]
  constructor
  · intro hsplits
    cases hsplits with
    | inl hinside =>
      rw [Bool.and_eq_true, Bool.and_eq_true, decide_eq_true_eq, decide_eq_true_eq] at hinside
      exact absurd ⟨hinside.1.2, hinside.1.1, hinside.2⟩ hescaped
    | inr hpair => exact (splitsSurrogatePair_edge h).mp hpair
  · intro hpair
    exact .inr ((splitsSurrogatePair_edge h).mpr hpair)

theorem splitsUnit_escape (escaped : CodeUnit) (rest : List Token) :
    splitsUnit (layoutOf (before ++ .escape escaped :: rest)) ((rawOf before).length + 1) = true := by
  have hget : (layoutOf (before ++ .escape escaped :: rest)).content[(rawOf before).length]? =
      some ESCAPE_CODE := by
    rw [layoutOf, rawOf_append, getElem?_append_right (Nat.le_refl _), Nat.sub_self]
    rfl
  rw [splitsUnit, Nat.add_sub_cancel, hget, isSpecialAt_token, decide_eq_true (Nat.succ_pos _),
    decide_eq_true rfl]
  rfl

theorem splitsUnit_past {offset : Nat} (h : (rawOf tokens).length < offset) :
    splitsUnit (layoutOf tokens) offset = false := by
  rw [splitsUnit, Bool.or_eq_false_iff]
  constructor
  · refine Bool.and_eq_false_iff.mpr (.inr (Bool.eq_false_iff.mpr fun hspecial => ?_))
    have hbounds := mem_specialsFrom (mem_of_isSpecialAt hspecial)
    omega
  · rw [splitsSurrogatePair, layoutOf, decide_eq_false (Nat.lt_asymm h), Bool.and_false, Bool.false_and]

theorem exists_edge {offset : Nat} (hsplits : splitsUnit (layoutOf tokens) offset = false)
    (hle : offset ≤ (rawOf tokens).length) :
    ∃ before after, tokens = before ++ after ∧ offset = (rawOf before).length := by
  obtain ⟨before, after, rfl, hedge | ⟨escaped, rest, rfl, rfl⟩⟩ := exists_cut hle
  · exact ⟨before, after, rfl, hedge⟩
  · rw [splitsUnit_escape] at hsplits
    cases hsplits

end Splits

section Edits

theorem rawOf_eq_textOf {start : Nat} (h : specialsFrom start tokens = []) :
    rawOf tokens = textOf tokens := by
  have hplain : ∀ token ∈ tokens, token.special = false := by
    intro token htoken
    obtain ⟨before, after, hsplit⟩ := append_of_mem htoken
    cases hspecial : token.special with
    | false => rfl
    | true =>
      rw [hsplit, specialsFrom_append, specialsFrom, hspecial] at h
      simp at h
  refine flatMap_congr fun token htoken => ?_
  have htest := hplain token htoken
  cases token with
  | metadata => cases htest
  | escape escaped => cases htest
  | plain code => rfl

def plainTokens (text : Text) : List Token := text.map .plain

theorem rawOf_plainTokens (text : Text) : rawOf (plainTokens text) = text := by
  rw [rawOf, plainTokens, flatMap_map]
  exact flatMap_singleton' text

theorem textOf_plainTokens (text : Text) : textOf (plainTokens text) = text := by
  rw [textOf, plainTokens, flatMap_map]
  exact flatMap_singleton' text

theorem specialsFrom_plainTokens (start : Nat) (text : Text) :
    specialsFrom start (plainTokens text) = [] := by
  induction text generalizing start with
  | nil => rfl
  | cons code text ih => exact ih (start + 1)

theorem allValid_plainTokens {text : Text} (h : isPlainText text = true) :
    AllValid (plainTokens text) := by
  intro token htoken
  obtain ⟨code, hcode, rfl⟩ := mem_map.mp htoken
  rw [isPlainText, Bool.and_eq_true, Bool.and_eq_true, Bool.not_eq_true', any_eq_false] at h
  exact Bool.eq_false_iff.mpr (h.1.1 code hcode)

theorem lowerBound_past {offset : Nat} (h : (rawOf tokens).length ≤ offset) :
    lowerBound (specialsFrom 0 tokens) offset = (specialsFrom 0 tokens).length := by
  have hpass : ∀ place ∈ specialsFrom 0 tokens, decide (place < offset) = true := by
    intro place hplace
    have hbounds := mem_specialsFrom hplace
    exact decide_eq_true (by omega)
  have hsplit := @PartitionPoint.partitionPoint_append _ (fun place => decide (place < offset))
    (specialsFrom 0 tokens) [] hpass fun place hplace => absurd hplace not_mem_nil
  rwa [append_nil] at hsplit

variable {deleteCount : Nat}

theorem exists_deleted {rest : List Token}
    (hsplits : splitsUnit (layoutOf (before ++ rest)) ((rawOf before).length + deleteCount) = false) :
    ∃ middle after, rest = middle ++ after ∧ ((rawOf middle).length = deleteCount ∨
      after = [] ∧ (rawOf middle).length < deleteCount) := by
  by_cases hle : deleteCount ≤ (rawOf rest).length
  · obtain ⟨middle, after, rfl, hedge | ⟨escaped, later, rfl, rfl⟩⟩ := exists_cut hle
    · exact ⟨middle, after, rfl, .inl hedge.symm⟩
    · have hescape := @splitsUnit_escape (before ++ middle) escaped later
      rw [rawOf_append, length_append, append_assoc, Nat.add_assoc, hsplits] at hescape
      cases hescape
  · exact ⟨rest, [], (append_nil rest).symm, .inr ⟨rfl, Nat.lt_of_not_le hle⟩⟩

theorem no_special_deleted {rest : List Token} (hrest : rest = middle ++ after)
    (hdelete : (rawOf middle).length = deleteCount ∨ after = [] ∧ (rawOf middle).length < deleteCount)
    (hsame : deleteCount = 0 ∨ lowerBound (layoutOf (before ++ rest)).specials
      ((rawOf before).length + deleteCount) = (specialsFrom 0 before).length) :
    specialsFrom (rawOf before).length middle = [] := by
  have hlength := @specialsFrom_append before middle 0
  rw [Nat.zero_add] at hlength
  have hcount : (specialsFrom 0 (before ++ middle)).length = (specialsFrom 0 before).length ∨
      (rawOf middle).length = 0 := by
    rcases hsame with hzero | hsame
    · rw [hzero] at hdelete
      exact .inr (hdelete.elim id fun h => absurd h.2 (Nat.not_lt_zero _))
    · rcases hdelete with hdelete | ⟨rfl, hpast⟩
      · rw [← hdelete, ← length_append, ← rawOf_append, hrest, ← append_assoc,
          lowerBound_edge] at hsame
        exact .inl hsame
      · rw [hrest, append_nil, layoutOf, lowerBound_past (by
          rw [rawOf_append, length_append]; omega)] at hsame
        exact .inl hsame
  rw [hlength, length_append] at hcount
  have hraw := @length_rawOf middle (rawOf before).length
  exact eq_nil_of_length_eq_zero (by omega)

theorem spliceContent_edge {rest : List Token} (inserted : Text) (hrest : rest = middle ++ after)
    (hdelete : (rawOf middle).length = deleteCount ∨ after = [] ∧ (rawOf middle).length < deleteCount) :
    spliceContent (rawOf (before ++ rest)) (rawOf before).length deleteCount inserted =
      rawOf before ++ inserted ++ rawOf after := by
  have hdrop : (rawOf rest).drop deleteCount = rawOf after := by
    rw [hrest, rawOf_append]
    rcases hdelete with rfl | ⟨rfl, hpast⟩
    · exact drop_left
    · rw [rawOf_nil, append_nil]
      exact drop_eq_nil_of_le (Nat.le_of_lt hpast)
  rw [spliceContent, rawOf_append, take_left, ← drop_drop, drop_left, hdrop]

theorem layoutOf_marker : layoutOf (before ++ .metadata :: after) =
    ⟨rawOf before ++ METADATA_MARKER ++ rawOf after, textOf (before ++ after),
      (specialsFrom 0 (before ++ after)).take (specialsFrom 0 before).length ++ [(rawOf before).length] ++
        ((specialsFrom 0 (before ++ after)).drop (specialsFrom 0 before).length).map (· + 1)⟩ := by
  rw [layoutOf, specialsFrom_append, specialsFrom_append, Nat.zero_add, take_left,
    drop_left, map_add_specialsFrom, specialsFrom, rawOf_append, textOf_append, textOf_append]
  simp [Token.special, Token.raw, Token.text, METADATA_CODE, METADATA_MARKER]

theorem layoutOf_replaced (inserted : Text) : layoutOf (before ++ plainTokens inserted ++ after) =
    ⟨rawOf before ++ inserted ++ rawOf after, textOf before ++ inserted ++ textOf after,
      specialsFrom 0 before ++ specialsFrom ((rawOf before).length + inserted.length) after⟩ := by
  rw [layoutOf, specialsFrom_append, specialsFrom_append, specialsFrom_plainTokens, append_nil]
  simp [rawOf_plainTokens, textOf_plainTokens]

theorem text_around (hplain : rawOf middle = textOf middle)
    (hdelete : (rawOf middle).length = deleteCount ∨ after = [] ∧ (rawOf middle).length < deleteCount) :
    (textOf (before ++ (middle ++ after))).take
        ((rawOf before).length - (specialsFrom 0 before).length) = textOf before ∧
      (textOf (before ++ (middle ++ after))).drop
        ((rawOf before).length - (specialsFrom 0 before).length + deleteCount) = textOf after := by
  have hlogical : (rawOf before).length - (specialsFrom 0 before).length = (textOf before).length := by
    have hlength := @length_rawOf before 0
    omega
  rw [hlogical, textOf_append, textOf_append]
  refine ⟨take_left, ?_⟩
  rw [← drop_drop, drop_left]
  rcases hdelete with rfl | ⟨rfl, hpast⟩
  · rw [hplain, drop_left]
  · rw [textOf_nil, append_nil]
    exact drop_eq_nil_of_le (hplain ▸ Nat.le_of_lt hpast)

theorem specials_moved (hnone : specialsFrom (rawOf before).length middle = [])
    (hdelete : (rawOf middle).length = deleteCount ∨ after = [] ∧ (rawOf middle).length < deleteCount) :
    specialsFrom 0 (before ++ (middle ++ after)) =
        specialsFrom 0 before ++ specialsFrom ((rawOf before).length + deleteCount) after := by
  rw [specialsFrom_append, specialsFrom_append, Nat.zero_add, hnone, nil_append]
  rcases hdelete with rfl | ⟨rfl, _⟩
  · rfl
  · rfl

theorem map_moved (start inserted deleteCount : Nat) :
    (specialsFrom (start + deleteCount) tokens).map (· + inserted - deleteCount) =
      specialsFrom (start + inserted) tokens := by
  rw [← map_add_specialsFrom start deleteCount, ← map_add_specialsFrom start inserted, map_map]
  refine map_congr_left fun place _ => ?_
  show place + deleteCount + inserted - deleteCount = place + inserted
  omega

theorem allValid_replaced {inserted : Text} (h : AllValid (before ++ (middle ++ after)))
    (hplain : isPlainText inserted = true) : AllValid (before ++ plainTokens inserted ++ after) := by
  rw [allValid_append, allValid_append] at h
  exact allValid_append.mpr ⟨allValid_append.mpr ⟨h.1, allValid_plainTokens hplain⟩, h.2.2⟩

theorem decodeLayout_content {layout : SegmentLayout} (h : AllValid tokens)
    (hlayout : layoutOf tokens = layout) : decodeLayout layout.content = .ok layout := by
  rw [← hlayout]
  exact decodeLayout_tokens h

theorem spliceLayout_eq {content : Text} {layout : SegmentLayout} {offset : Nat} (deleteCount : Nat)
    (inserted : Text) (h : decodeLayout content = .ok layout) (hoffset : offset ≤ content.length) :
    spliceLayout layout offset deleteCount inserted =
      decodeLayout (spliceContent content offset deleteCount inserted) := by
  obtain ⟨tokens, hvalid, rfl, rfl⟩ := tokens_of_decodeLayout h
  rw [spliceLayout]
  dsimp only
  split
  · rfl
  next hsplits =>
  rw [Bool.or_eq_true, not_or, Bool.not_eq_true, Bool.not_eq_true] at hsplits
  obtain ⟨before, rest, rfl, rfl⟩ := exists_edge hsplits.1 hoffset
  rw [lowerBound_edge, show (layoutOf (before ++ rest)).content = rawOf (before ++ rest) from rfl]
  split
  · next hmarker =>
      obtain ⟨rfl, rfl⟩ := hmarker
      obtain ⟨hbefore, hrest⟩ := allValid_append.mp hvalid
      have hmarked : AllValid (before ++ .metadata :: rest) :=
        allValid_append.mpr ⟨hbefore, forall_mem_cons.mpr ⟨trivial, hrest⟩⟩
      have hcontent : spliceContent (rawOf (before ++ rest)) (rawOf before).length 0 METADATA_MARKER =
          rawOf before ++ METADATA_MARKER ++ rawOf rest :=
        spliceContent_edge METADATA_MARKER (nil_append rest).symm (.inl rfl)
      rw [hcontent]
      exact (decodeLayout_content hmarked layoutOf_marker).symm
  split
  · rfl
  next hplain =>
  rw [Bool.not_eq_true, Bool.not_eq_false'] at hplain
  split
  · rfl
  next hsame =>
  rw [not_and_or, not_not, Nat.not_lt, Nat.le_zero] at hsame
  obtain ⟨middle, after, rfl, hdelete⟩ := exists_deleted hsplits.2
  have hnone := no_special_deleted rfl hdelete hsame
  have htext := @text_around before _ _ _ (rawOf_eq_textOf hnone) hdelete
  have hspecials : (layoutOf (before ++ (middle ++ after))).specials =
      specialsFrom 0 before ++ specialsFrom ((rawOf before).length + deleteCount) after :=
    specials_moved hnone hdelete
  have hdecoded := decodeLayout_content (allValid_replaced hvalid hplain) (layoutOf_replaced inserted)
  rw [spliceContent_edge inserted rfl hdelete, hspecials,
    show (layoutOf (before ++ (middle ++ after))).text = textOf (before ++ (middle ++ after)) from rfl,
    htext.1, htext.2]
  split
  · next hunmoved =>
      refine Eq.trans ?_ hdecoded.symm
      rcases hunmoved with hlength | hlast
      · rw [hlength]
      · rw [length_append, Nat.left_eq_add, length_eq_zero_iff] at hlast
        have hlater : specialsFrom ((rawOf before).length + inserted.length) after = [] := by
          rw [← map_moved (rawOf before).length inserted.length deleteCount, hlast, map_nil]
        rw [hlast, hlater]
  · refine Eq.trans ?_ hdecoded.symm
    rw [take_left, drop_left, map_moved]

end Edits

end Softmaple.BlockModel

namespace Softmaple.BlockModel

open List

inductive Piece where
  | metadata
  | escape (escaped : CodeUnit)
  | single (code : CodeUnit)
  | pair (high low : CodeUnit)
  deriving DecidableEq, Repr

namespace Piece

def tokens : Piece → List Token
  | .metadata => [.metadata]
  | .escape escaped => [.escape escaped]
  | .single code => [.plain code]
  | .pair high low => [.plain high, .plain low]

def raw (piece : Piece) : Text := rawOf piece.tokens

def text (piece : Piece) : Text := textOf piece.tokens

def isText : Piece → Bool
  | .metadata => false
  | _ => true

end Piece

def pieces : List Token → List Piece
  | [] => []
  | .metadata :: rest => .metadata :: pieces rest
  | .escape escaped :: rest => .escape escaped :: pieces rest
  | .plain code :: .plain next :: rest =>
    if isHighSurrogate code && isLowSurrogate next then .pair code next :: pieces rest
    else .single code :: pieces (.plain next :: rest)
  | .plain code :: rest => .single code :: pieces rest

def tokensOf (list : List Piece) : List Token := list.flatMap Piece.tokens

def rawLength (list : List Piece) : Nat := (rawOf (tokensOf list)).length

def textLength (list : List Piece) : Nat := (textOf (tokensOf list)).length

def unitsFrom (blockId : Text) (logical raw : Nat) : List Piece → List DecodedUnit
  | [] => []
  | piece :: rest =>
    (if piece.isText then
      [⟨blockId, logical, logical + piece.text.length, raw, raw + piece.raw.length⟩] else []) ++
    unitsFrom blockId (logical + piece.text.length) (raw + piece.raw.length) rest

section Pieces

variable {tokens : List Token} {before after list : List Piece} {piece : Piece}

@[simp] theorem tokensOf_nil : tokensOf [] = [] := rfl

@[simp] theorem tokensOf_cons : tokensOf (piece :: list) = piece.tokens ++ tokensOf list := rfl

@[simp] theorem tokensOf_append : tokensOf (before ++ after) = tokensOf before ++ tokensOf after :=
  flatMap_append

@[simp] theorem rawLength_nil : rawLength [] = 0 := rfl

@[simp] theorem rawLength_cons : rawLength (piece :: list) = piece.raw.length + rawLength list := by
  rw [rawLength, tokensOf_cons, rawOf_append, length_append]
  rfl

@[simp] theorem rawLength_append : rawLength (before ++ after) = rawLength before + rawLength after := by
  rw [rawLength, tokensOf_append, rawOf_append, length_append]
  rfl

@[simp] theorem textLength_nil : textLength [] = 0 := rfl

@[simp] theorem textLength_cons : textLength (piece :: list) = piece.text.length + textLength list := by
  rw [textLength, tokensOf_cons, textOf_append, length_append]
  rfl

@[simp] theorem textLength_append :
    textLength (before ++ after) = textLength before + textLength after := by
  rw [textLength, tokensOf_append, textOf_append, length_append]
  rfl

theorem tokensOf_pieces : tokensOf (pieces tokens) = tokens := by
  induction tokens using pieces.induct with
  | case1 => rfl
  | case2 rest ih => rw [pieces, tokensOf_cons, ih]; rfl
  | case3 escaped rest ih => rw [pieces, tokensOf_cons, ih]; rfl
  | case4 code next rest hpair ih => rw [pieces, if_pos hpair, tokensOf_cons, ih]; rfl
  | case5 code next rest hpair ih => rw [pieces, if_neg hpair, tokensOf_cons, ih]; rfl
  | case6 code rest hrest ih => rw [pieces, tokensOf_cons, ih]; rfl; exact hrest

theorem SplitsPair.getLast_head {before after : List Token} (h : SplitsPair before after) :
    ∃ high low, before.getLast? = some (.plain high) ∧ after.head? = some (.plain low) ∧
      isHighSurrogate high = true ∧ isLowSurrogate low = true := by
  obtain ⟨first, high, low, rest, rfl, rfl, hhigh, hlow⟩ := h
  exact ⟨high, low, getLast?_concat, rfl, hhigh, hlow⟩

theorem not_high_low {code : CodeUnit} (hhigh : isHighSurrogate code = true) :
    ¬ isLowSurrogate code = true := by
  simp only [isHighSurrogate, isLowSurrogate, Bool.and_eq_true, decide_eq_true_eq] at hhigh ⊢
  omega

theorem getLast?_tokensOf_cons (h : list ≠ []) :
    (tokensOf (piece :: list)).getLast? = (tokensOf list).getLast? := by
  obtain ⟨first, last, rfl⟩ := eq_nil_or_concat' list |>.resolve_left h
  rw [tokensOf_cons, tokensOf_append, getLast?_append, getLast?_append]
  cases last <;> rfl

theorem last_piece {rest : List Token} {high low : CodeUnit} (h : piece :: pieces rest = before ++ after)
    (hlast : (tokensOf before).getLast? = some (.plain high))
    (hhead : (tokensOf after).head? = some (.plain low))
    (hlater : ∀ before, pieces rest = before ++ after →
      (tokensOf before).getLast? ≠ some (.plain high)) :
    piece.tokens.getLast? = some (.plain high) ∧ rest.head? = some (.plain low) := by
  cases before with
  | nil => cases hlast
  | cons first before =>
    rw [cons_append] at h
    obtain ⟨rfl, hrest⟩ := cons_eq_cons.mp h
    by_cases hnil : before = []
    · subst hnil
      rw [nil_append] at hrest
      rw [← hrest, tokensOf_pieces] at hhead
      rw [tokensOf_cons, tokensOf_nil, append_nil] at hlast
      exact ⟨hlast, hhead⟩
    · rw [getLast?_tokensOf_cons hnil] at hlast
      exact absurd hlast (hlater before hrest)

theorem not_splitsPair (h : pieces tokens = before ++ after) :
    ¬ SplitsPair (tokensOf before) (tokensOf after) := by
  intro hsplits
  obtain ⟨high, low, hlast, hhead, hhigh, hlow⟩ := hsplits.getLast_head
  clear hsplits
  induction tokens using pieces.induct generalizing before with
  | case1 =>
    obtain ⟨rfl, rfl⟩ := append_eq_nil_iff.mp h.symm
    cases hlast
  | case2 rest ih => cases (last_piece h hlast hhead fun _ hrest hhigher => ih hrest hhigher).1
  | case3 escaped rest ih => cases (last_piece h hlast hhead fun _ hrest hhigher => ih hrest hhigher).1
  | case4 code next rest hpair ih =>
    rw [pieces, if_pos hpair] at h
    obtain ⟨hhere, -⟩ := last_piece h hlast hhead fun _ hrest hhigher => ih hrest hhigher
    obtain rfl := Token.plain.inj (Option.some.inj hhere)
    exact not_high_low hhigh (Bool.and_eq_true _ _ ▸ hpair).2
  | case5 code next rest hpair ih =>
    rw [pieces, if_neg hpair] at h
    obtain ⟨hhere, hnext⟩ := last_piece h hlast hhead fun _ hrest hhigher => ih hrest hhigher
    obtain rfl := Token.plain.inj (Option.some.inj hhere)
    obtain rfl := Token.plain.inj (Option.some.inj hnext)
    exact hpair (by rw [hhigh, hlow]; rfl)
  | case6 code rest hplain ih =>
    rw [pieces] at h
    · obtain ⟨-, hnext⟩ := last_piece h hlast hhead fun _ hrest hhigher => ih hrest hhigher
      obtain ⟨later, rfl⟩ := head?_eq_some_iff.mp hnext
      exact hplain _ _ rfl
    · exact hplain

theorem Piece.raw_pos (piece : Piece) : 0 < piece.raw.length := by
  cases piece <;> exact Nat.succ_pos _

theorem Piece.text_pos_iff (piece : Piece) : 0 < piece.text.length ↔ piece.isText = true := by
  cases piece <;> simp [Piece.text, Piece.tokens, Piece.isText, textOf, Token.text]

theorem unitsFrom_append (blockId : Text) (logical raw : Nat) :
    unitsFrom blockId logical raw (before ++ after) = unitsFrom blockId logical raw before ++
      unitsFrom blockId (logical + textLength before) (raw + rawLength before) after := by
  induction before generalizing logical raw with
  | nil => rfl
  | cons piece before ih =>
    rw [cons_append, unitsFrom, unitsFrom, ih, append_assoc, textLength_cons,
      rawLength_cons, Nat.add_assoc, Nat.add_assoc]

theorem mem_unitsFrom {blockId : Text} {logical raw : Nat} {entry : DecodedUnit} :
    entry ∈ unitsFrom blockId logical raw list ↔ ∃ before piece after, list = before ++ piece :: after ∧
      piece.isText = true ∧ entry = ⟨blockId, logical + textLength before,
        logical + textLength before + piece.text.length, raw + rawLength before,
        raw + rawLength before + piece.raw.length⟩ := by
  constructor
  · intro h
    induction list generalizing logical raw with
    | nil => cases h
    | cons piece list ih =>
      rw [unitsFrom, mem_append] at h
      cases h with
      | inl hhere =>
        split at hhere
        · next htext => exact ⟨[], piece, list, rfl, htext, mem_singleton.mp hhere⟩
        · cases hhere
      | inr hlater =>
        obtain ⟨before, text, after, rfl, htext, hentry⟩ := ih hlater
        refine ⟨piece :: before, text, after, rfl, htext, ?_⟩
        rw [hentry, textLength_cons, rawLength_cons, Nat.add_assoc logical, Nat.add_assoc raw]
  · intro ⟨before, piece, after, hlist, htext, hentry⟩
    rw [hlist, unitsFrom_append, unitsFrom, if_pos htext, hentry]
    simp

end Pieces

section Decoder

variable {tokens : List Token} {list : List Piece} {piece : Piece}

def DecodedSegment.extend (segment : DecodedSegment) (text : Text) (units : List DecodedUnit) :
    DecodedSegment where
  text := segment.text ++ text
  boundaries := segment.boundaries ++ units.map fun unit => (unit.logicalTo, unit.rawTo)
  units := segment.units ++ units

theorem DecodedSegment.extend_nil (segment : DecodedSegment) : segment.extend [] [] = segment := by
  simp [extend]

theorem DecodedSegment.extend_piece (segment : DecodedSegment) (blockId : Text) (raw : Nat)
    (h : piece.isText = true) :
    segment.extend (piece.text ++ textOf (tokensOf list))
        (unitsFrom blockId segment.text.length raw (piece :: list)) =
      (segment.add blockId piece.text raw (raw + piece.raw.length)).extend (textOf (tokensOf list))
        (unitsFrom blockId (segment.add blockId piece.text raw (raw + piece.raw.length)).text.length
          (raw + piece.raw.length) list) := by
  simp [extend, add, unitsFrom, h]

theorem getElem?_done (done left : Text) (index : Nat) :
    (done ++ left)[done.length + index]? = left[index]? := by
  rw [getElem?_append_right (Nat.le_add_right _ _), Nat.add_sub_cancel_left]

theorem decodeSegmentFrom_escape {done left : Text} {stop : Nat} {blockId : Text}
    {segment : DecodedSegment} {escaped : CodeUnit} (hstop : done.length < stop)
    (hreserved : isReserved escaped = true) :
    decodeSegmentFrom (done ++ (ESCAPE_CODE :: escaped :: left)) stop blockId done.length segment =
      decodeSegmentFrom (done ++ (ESCAPE_CODE :: escaped :: left)) stop blockId (done.length + 2)
        (segment.add blockId [escaped] done.length (done.length + 2)) := by
  have hhere := getElem?_done done (ESCAPE_CODE :: escaped :: left) 0
  have hnext := getElem?_done done (ESCAPE_CODE :: escaped :: left) 1
  rw [Nat.add_zero] at hhere
  rw [decodeSegmentFrom, if_neg (Nat.not_le.mpr hstop), hhere]
  dsimp only [getElem?_cons_zero]
  rw [if_neg escape_ne.symm, if_neg (by decide), if_pos rfl, hnext]
  simp [hreserved]

theorem decodeSegmentFrom_plain {done left : Text} {stop : Nat} {blockId : Text}
    {segment : DecodedSegment} {code : CodeUnit} {visible : Text} (hstop : done.length < stop)
    (hplain : isReserved code = false)
    (hvisible : codePointAt (done ++ (code :: left)) done.length code = visible) :
    decodeSegmentFrom (done ++ (code :: left)) stop blockId done.length segment =
      decodeSegmentFrom (done ++ (code :: left)) stop blockId (done.length + visible.length)
        (segment.add blockId visible done.length (done.length + visible.length)) := by
  have hhere := getElem?_done done (code :: left) 0
  have hcodes : ¬ (code = BLOCK_CODE ∨ code = METADATA_CODE ∨ code = ESCAPE_CODE) := by
    rw [← isReserved_iff, hplain]
    exact Bool.false_ne_true
  rw [Nat.add_zero] at hhere
  rw [decodeSegmentFrom, if_neg (Nat.not_le.mpr hstop), hhere]
  dsimp only [getElem?_cons_zero]
  rw [if_neg fun h => hcodes (.inr (.inl h)), if_neg fun h => hcodes (.inl h),
    if_neg fun h => hcodes (.inr (.inr h)), hvisible]

theorem codePointAt_done (done left : Text) (code : CodeUnit) :
    codePointAt (done ++ (code :: left)) done.length code =
      match left with
      | next :: _ => if isHighSurrogate code && isLowSurrogate next then [code, next] else [code]
      | [] => [code] := by
  rw [codePointAt, getElem?_done]
  cases left <;> rfl

def Decodes (post blockId : Text) (tokens : List Token) : Prop :=
  ∀ (done : Text) (segment : DecodedSegment),
    decodeSegmentFrom (done ++ (rawOf tokens ++ post)) (done.length + (rawOf tokens).length) blockId
      done.length segment = .ok (segment.extend (textOf tokens)
        (unitsFrom blockId segment.text.length done.length (pieces tokens)))

theorem decodes_nil (post blockId : Text) : Decodes post blockId [] := by
  intro done segment
  rw [decodeSegmentFrom, rawOf_nil, length_nil, Nat.add_zero, if_pos (Nat.le_refl _)]
  exact congrArg Except.ok segment.extend_nil.symm

variable {post blockId : Text} {rest : List Token}

theorem decodes_metadata (h : Decodes post blockId rest) :
    Decodes post blockId (.metadata :: rest) := by
  intro done segment
  have hhere := getElem?_done done (METADATA_CODE :: (rawOf rest ++ post)) 0
  have hrest := h (done ++ [METADATA_CODE]) segment
  rw [length_append, append_assoc, Nat.add_assoc, length_singleton] at hrest
  rw [Nat.add_zero] at hhere
  have hlength : (rawOf (.metadata :: rest)).length = 1 + (rawOf rest).length := by
    rw [rawOf_cons, length_append]
    rfl
  rw [decodeSegmentFrom, if_neg (by omega), hlength]
  refine Eq.trans ?_ hrest
  rw [show rawOf (.metadata :: rest) ++ post = METADATA_CODE :: (rawOf rest ++ post) from rfl, hhere]
  rfl

theorem decodes_text (hpieces : pieces (piece.tokens ++ rest) = piece :: pieces rest)
    (htext : piece.isText = true) (h : Decodes post blockId rest)
    (hround : ∀ (done : Text) (stop : Nat) (segment : DecodedSegment), done.length < stop →
      decodeSegmentFrom (done ++ (piece.raw ++ (rawOf rest ++ post))) stop blockId done.length segment =
        decodeSegmentFrom (done ++ (piece.raw ++ (rawOf rest ++ post))) stop blockId
          (done.length + piece.raw.length)
          (segment.add blockId piece.text done.length (done.length + piece.raw.length))) :
    Decodes post blockId (piece.tokens ++ rest) := by
  intro done segment
  have hpos := piece.raw_pos
  have hraw : rawOf (piece.tokens ++ rest) = piece.raw ++ rawOf rest := rawOf_append
  have hrest := h (done ++ piece.raw)
    (segment.add blockId piece.text done.length (done.length + piece.raw.length))
  rw [length_append, append_assoc, Nat.add_assoc] at hrest
  rw [hraw, append_assoc, length_append, hround done _ segment (by omega), hrest, hpieces,
    textOf_append]
  have hextend := @DecodedSegment.extend_piece (pieces rest) piece segment blockId done.length htext
  rw [tokensOf_pieces] at hextend
  exact congrArg Except.ok hextend.symm

theorem decodes_tokens (h : AllValid tokens)
    (hpost : ∀ code, post.head? = some code → isLowSurrogate code = false) :
    Decodes post blockId tokens := by
  induction tokens using pieces.induct with
  | case1 => exact decodes_nil post blockId
  | case2 rest ih => exact decodes_metadata (ih (forall_mem_cons.mp h).2)
  | case3 escaped rest ih =>
    have hvalid := forall_mem_cons.mp h
    exact @decodes_text (.escape escaped) post blockId rest rfl rfl (ih hvalid.2)
      fun done stop segment hstop => decodeSegmentFrom_escape hstop hvalid.1
  | case4 code next rest hpair ih =>
    have hvalid := forall_mem_cons.mp h
    refine @decodes_text (.pair code next) post blockId rest ?_ rfl
      (ih (forall_mem_cons.mp hvalid.2).2) fun done stop segment hstop => ?_
    · exact (pieces.eq_4 _ _ _).trans (if_pos hpair)
    · refine decodeSegmentFrom_plain hstop hvalid.1 ?_
      exact (codePointAt_done _ _ _).trans (if_pos hpair)
  | case5 code next rest hpair ih =>
    have hvalid := forall_mem_cons.mp h
    refine @decodes_text (.single code) post blockId (.plain next :: rest) ?_ rfl
      (ih hvalid.2) fun done stop segment hstop => ?_
    · exact (pieces.eq_4 _ _ _).trans (if_neg hpair)
    · refine decodeSegmentFrom_plain hstop hvalid.1 ?_
      exact (codePointAt_done _ _ _).trans (if_neg hpair)
  | case6 code rest hplain ih =>
    have hvalid := forall_mem_cons.mp h
    refine @decodes_text (.single code) post blockId rest ?_ rfl
      (ih hvalid.2) fun done stop segment hstop => ?_
    · exact pieces.eq_5 code rest hplain
    · have hnext : ∀ next, (rawOf rest ++ post).head? = some next → isLowSurrogate next = false := by
        intro next hnext
        cases rest with
        | nil => exact hpost next hnext
        | cons token rest =>
          rw [Bool.eq_false_iff]
          intro hlow
          have hhead : token.raw.head? = some next := by
            rw [← hnext]
            cases token <;> rfl
          obtain rfl := Token.plain_of_low hhead hlow
          exact hplain next rest rfl
      have hvisible : codePointAt (done ++ (code :: (rawOf rest ++ post))) done.length code = [code] := by
        rw [codePointAt_done]
        cases hleft : rawOf rest ++ post with
        | nil => rfl
        | cons next left =>
          rw [hleft] at hnext
          exact if_neg (by rw [hnext next rfl, Bool.and_false]; exact Bool.false_ne_true)
      exact decodeSegmentFrom_plain hstop hvalid.1 hvisible

theorem decodeSegment_tokens (h : AllValid tokens) (pre : Text)
    (hpost : post = [] ∨ ∃ later, post = BLOCK_MARKER ++ later) :
    decodeSegment (pre ++ rawOf tokens ++ post) pre.length (pre.length + (rawOf tokens).length) blockId =
      .ok ⟨textOf tokens, (0, pre.length) ::
          (unitsFrom blockId 0 pre.length (pieces tokens)).map fun unit => (unit.logicalTo, unit.rawTo),
        unitsFrom blockId 0 pre.length (pieces tokens)⟩ := by
  have hhead : ∀ code, post.head? = some code → isLowSurrogate code = false := by
    intro code hcode
    rcases hpost with rfl | ⟨later, rfl⟩
    · cases hcode
    · obtain rfl := Option.some.inj hcode
      decide
  rw [decodeSegment, append_assoc, decodes_tokens h hhead pre _]
  rfl

end Decoder

end Softmaple.BlockModel
