import Softmaple.Codec.BinaryIo
import Mathlib.Data.List.Induction

/-!
Event IDs as strings (`graph/event-id.ts`): an ID parses as
`replicaId:sequence` when what follows its last colon is a safe integer in
decimal without leading zeros. Formatting and parsing are inverse.
-/
namespace Softmaple.Codec

def colon : CodeUnit := ⟨58, by decide⟩

def splitLastColon : Text → Option (Text × Text)
  | [] => none
  | codeUnit :: rest =>
    match splitLastColon rest with
    | some (before, after) => some (codeUnit :: before, after)
    | none => if codeUnit = colon then some ([], rest) else none

def isDigit (codeUnit : CodeUnit) : Bool := 48 ≤ codeUnit.val && codeUnit.val ≤ 57

def readDigits : Nat → Text → Option Nat
  | sequence, [] => some sequence
  | sequence, codeUnit :: rest =>
    if isDigit codeUnit then readDigits (sequence * 10 + (codeUnit.val - 48)) rest else none

/-- Digits of `Number.MAX_SAFE_INTEGER`. -/
def maxSafeSequenceDigits : Nat := 16

/-- The sequence after the last colon; `none` is the source's `-1`. -/
def canonicalSequenceAfter (replicaId suffix : Text) : Option Nat :=
  if replicaId = [] ∨ suffix = [] ∨ maxSafeSequenceDigits < suffix.length then none
  else if suffix.head?.map (·.val) = some 48 ∧ suffix.length ≠ 1 then none
  else
    match readDigits 0 suffix with
    | some sequence => if sequence ≤ maxSafeInteger then some sequence else none
    | none => none

def parseEventId (id : Text) : Option (Text × Nat) :=
  match splitLastColon id with
  | some (replicaId, suffix) => (canonicalSequenceAfter replicaId suffix).map (replicaId, ·)
  | none => none

def digit (value : Nat) : CodeUnit := Utf8.unit (48 + value)

def decimalDigits : Nat → Nat → Text
  | 0, value => [digit value]
  | fuel + 1, value =>
    if value < 10 then [digit value] else decimalDigits fuel (value / 10) ++ [digit (value % 10)]

/-- A safe integer in decimal. -/
def decimal (value : Nat) : Text := decimalDigits (maxSafeSequenceDigits - 1) value

def formatEventId (replicaId : Text) (sequence : Nat) : Text :=
  replicaId ++ colon :: decimal sequence

theorem splitLastColon_append (before after : Text) (h : colon ∉ after) :
    splitLastColon (before ++ colon :: after) = some (before, after) := by
  have hnone : ∀ text : Text, colon ∉ text → splitLastColon text = none := by
    intro text htext
    induction text with
    | nil => rfl
    | cons codeUnit rest ih =>
      simp only [List.mem_cons, not_or] at htext
      simp [splitLastColon, ih htext.2, Ne.symm htext.1]
  induction before with
  | nil => simp [splitLastColon, hnone after h]
  | cons codeUnit rest ih => simp [splitLastColon, ih]

theorem splitLastColon_eq_some {id before after : Text}
    (h : splitLastColon id = some (before, after)) : id = before ++ colon :: after := by
  induction id generalizing before with
  | nil => cases h
  | cons codeUnit rest ih =>
    rw [splitLastColon] at h
    cases hrest : splitLastColon rest with
    | some pair =>
      rw [hrest] at h
      cases h
      rw [ih hrest]
      rfl
    | none =>
      rw [hrest] at h
      by_cases hcolon : codeUnit = colon
      · rw [if_pos hcolon] at h
        cases h
        rw [hcolon]
        rfl
      · rw [if_neg hcolon] at h
        cases h

theorem digit_val {value : Nat} (h : value < 10) : (digit value).val = 48 + value :=
  Utf8.val_unit (by omega)

theorem isDigit_digit {value : Nat} (h : value < 10) : isDigit (digit value) = true := by
  simp only [isDigit, digit_val h, Bool.and_eq_true, decide_eq_true_eq]
  omega

theorem digit_of_isDigit {codeUnit : CodeUnit} (h : isDigit codeUnit = true) :
    codeUnit = digit (codeUnit.val - 48) ∧ codeUnit.val - 48 < 10 := by
  simp only [isDigit, Bool.and_eq_true, decide_eq_true_eq] at h
  refine ⟨Fin.ext ?_, by omega⟩
  rw [digit_val (by omega)]
  omega

theorem readDigits_append (sequence : Nat) (digits more : Text) :
    readDigits sequence (digits ++ more) =
      (readDigits sequence digits).bind (readDigits · more) := by
  induction digits generalizing sequence with
  | nil => rfl
  | cons codeUnit rest ih =>
    simp only [List.cons_append, readDigits]
    split
    · exact ih _
    · rfl

theorem readDigits_digit (sequence : Nat) {value : Nat} (h : value < 10) :
    readDigits sequence [digit value] = some (sequence * 10 + value) := by
  simp only [readDigits, isDigit_digit h, digit_val h, if_true]
  congr 2
  omega

variable {sequence : Nat}

theorem le_of_readDigits {result : Nat} {digits : Text}
    (h : readDigits sequence digits = some result) : sequence ≤ result := by
  induction digits generalizing sequence with
  | nil =>
    cases h
    exact Nat.le_refl _
  | cons codeUnit rest ih =>
    rw [readDigits] at h
    split at h
    · exact Nat.le_trans (by omega) (ih h)
    · cases h

theorem decimalDigits_ne_nil (fuel value : Nat) : decimalDigits fuel value ≠ [] := by
  cases fuel with
  | zero => simp [decimalDigits]
  | succ fuel =>
    rw [decimalDigits]
    split
    · simp
    · simp

theorem length_decimalDigits_le (fuel value : Nat) :
    (decimalDigits fuel value).length ≤ fuel + 1 := by
  induction fuel generalizing value with
  | zero => simp [decimalDigits]
  | succ fuel ih =>
    rw [decimalDigits]
    split
    · simp
    · simpa using ih (value / 10)

theorem readDigits_decimalDigits (fuel value : Nat) (h : value < 10 ^ (fuel + 1)) :
    readDigits 0 (decimalDigits fuel value) = some value := by
  induction fuel generalizing value with
  | zero => simpa [decimalDigits] using readDigits_digit 0 (show value < 10 by omega)
  | succ fuel ih =>
    rw [decimalDigits]
    by_cases hsmall : value < 10
    · rw [if_pos hsmall]
      simpa using readDigits_digit 0 hsmall
    · rw [Nat.pow_succ] at h
      rw [if_neg hsmall, readDigits_append, ih (value / 10) (by omega), Option.bind_some,
        readDigits_digit _ (Nat.mod_lt _ (by decide))]
      congr 1
      omega

theorem digits_decimalDigits (fuel value : Nat) (h : value < 10 ^ (fuel + 1)) :
    ∀ codeUnit ∈ decimalDigits fuel value, isDigit codeUnit = true := by
  induction fuel generalizing value with
  | zero =>
    intro codeUnit hmem
    rw [decimalDigits, List.mem_singleton] at hmem
    rw [hmem]
    exact isDigit_digit (by omega)
  | succ fuel ih =>
    rw [decimalDigits]
    intro codeUnit hmem
    by_cases hsmall : value < 10
    · rw [if_pos hsmall, List.mem_singleton] at hmem
      rw [hmem]
      exact isDigit_digit hsmall
    · rw [Nat.pow_succ] at h
      rw [if_neg hsmall, List.mem_append, List.mem_singleton] at hmem
      cases hmem with
      | inl hfirst => exact ih (value / 10) (by omega) codeUnit hfirst
      | inr hlast =>
        rw [hlast]
        exact isDigit_digit (Nat.mod_lt _ (by decide))

/-- No leading zero but in zero itself. -/
theorem head_decimalDigits (fuel value : Nat) (h : value < 10 ^ (fuel + 1))
    (hzero : (decimalDigits fuel value).head?.map (·.val) = some 48) :
    (decimalDigits fuel value).length = 1 := by
  have hhead : ∀ fuel value : Nat, 0 < value → value < 10 ^ (fuel + 1) →
      (decimalDigits fuel value).head?.map (·.val) ≠ some 48 := by
    intro fuel
    induction fuel with
    | zero =>
      intro value hpos hlt
      simp only [decimalDigits, List.head?_cons, Option.map_some, digit_val (show value < 10 by
        omega)]
      simp only [ne_eq, Option.some.injEq]
      omega
    | succ fuel ih =>
      intro value hpos hlt
      rw [decimalDigits]
      by_cases hsmall : value < 10
      · simp only [if_pos hsmall, List.head?_cons, Option.map_some, digit_val hsmall, ne_eq,
          Option.some.injEq]
        omega
      · rw [Nat.pow_succ] at hlt
        rw [if_neg hsmall, List.head?_append_of_ne_nil _ (decimalDigits_ne_nil _ _)]
        exact ih (value / 10) (by omega) (by omega)
  cases Nat.eq_zero_or_pos value with
  | inl hvalue =>
    subst hvalue
    cases fuel with
    | zero => rfl
    | succ fuel => rfl
  | inr hpos => exact absurd hzero (hhead fuel value hpos h)

theorem decimalDigits_of_readDigits (digits : Text) :
    ∀ fuel value : Nat, digits ≠ [] → digits.length ≤ fuel + 1 →
      ¬ (digits.head?.map (·.val) = some 48 ∧ digits.length ≠ 1) →
      readDigits 0 digits = some value → digits = decimalDigits fuel value := by
  induction digits using List.reverseRecOn with
  | nil => exact fun _ _ h => absurd rfl h
  | append_singleton digits last ih =>
    intro fuel value _ hlength hlead hread
    rw [readDigits_append] at hread
    obtain ⟨high, hhigh, hlast⟩ := Option.bind_eq_some_iff.mp hread
    rw [readDigits] at hlast
    split at hlast
    · next hdigit =>
        obtain ⟨hunit, hten⟩ := digit_of_isDigit hdigit
        simp only [readDigits, Option.some.injEq] at hlast
        cases digits with
        | nil =>
          cases hhigh
          rw [Nat.zero_mul, Nat.zero_add] at hlast
          cases fuel with
          | zero => rw [decimalDigits, ← hlast, ← hunit]; rfl
          | succ fuel =>
            rw [decimalDigits, if_pos (by omega), ← hlast, ← hunit]
            rfl
        | cons first rest =>
          have hfirst : first.val ≠ 48 := by
            intro heq
            exact hlead ⟨by simp [heq], by simp⟩
          have hpos : 0 < high := by
            rw [readDigits] at hhigh
            split at hhigh
            · next hfirstDigit =>
                have hle := le_of_readDigits hhigh
                simp only [isDigit, Bool.and_eq_true, decide_eq_true_eq] at hfirstDigit
                omega
            · cases hhigh
          cases fuel with
          | zero => simp at hlength
          | succ fuel =>
            have hrest := ih fuel high (by simp) (by simpa using hlength)
              (fun h => hfirst (by simpa using h.1)) hhigh
            have hdiv : value / 10 = high := by omega
            have hmod : value % 10 = last.val - 48 := by omega
            rw [decimalDigits, if_neg (by omega), hdiv, hmod, ← hunit, ← hrest]
    · cases hlast

theorem decimal_lt (h : sequence ≤ maxSafeInteger) : sequence < 10 ^ (maxSafeSequenceDigits - 1 + 1) := by
  rw [maxSafeInteger] at h
  rw [maxSafeSequenceDigits]
  omega

theorem colon_not_mem_decimal (h : sequence ≤ maxSafeInteger) :
    colon ∉ decimal sequence := by
  intro hmem
  have hdigit := digits_decimalDigits _ sequence (decimal_lt h) colon hmem
  exact absurd hdigit (by decide)

theorem parseEventId_format {replicaId : Text} (hreplica : replicaId ≠ [])
    (h : sequence ≤ maxSafeInteger) :
    parseEventId (formatEventId replicaId sequence) = some (replicaId, sequence) := by
  have hne := decimalDigits_ne_nil (maxSafeSequenceDigits - 1) sequence
  have hlength := length_decimalDigits_le (maxSafeSequenceDigits - 1) sequence
  have hdigits : maxSafeSequenceDigits = 16 := rfl
  have hread := readDigits_decimalDigits (maxSafeSequenceDigits - 1) sequence (decimal_lt h)
  rw [parseEventId, formatEventId, splitLastColon_append _ _ (colon_not_mem_decimal h)]
  simp only
  rw [canonicalSequenceAfter, decimal, if_neg (by simp [hreplica, hne]; omega),
    if_neg fun hlead => hlead.2 (head_decimalDigits _ sequence (decimal_lt h) hlead.1), hread]
  simp [h]

theorem parseEventId_eq_some {id replicaId : Text} (h : parseEventId id = some (replicaId, sequence)) :
    id = formatEventId replicaId sequence ∧ replicaId ≠ [] ∧ sequence ≤ maxSafeInteger := by
  rw [parseEventId] at h
  cases hsplit : splitLastColon id with
  | none =>
    rw [hsplit] at h
    cases h
  | some pair =>
    obtain ⟨before, suffix⟩ := pair
    rw [hsplit] at h
    obtain ⟨value, hcanonical, heq⟩ := Option.map_eq_some_iff.mp h
    cases heq
    rw [canonicalSequenceAfter] at hcanonical
    split at hcanonical
    · cases hcanonical
    split at hcanonical
    · cases hcanonical
    split at hcanonical
    · next hshape hlead _ value hread =>
        split at hcanonical
        · next hsafe =>
            cases hcanonical
            have hdigits : maxSafeSequenceDigits = 16 := rfl
            have hsuffix := decimalDigits_of_readDigits suffix (maxSafeSequenceDigits - 1)
              sequence (fun hnil => hshape (.inr (.inl hnil))) (by
                have := fun hlong => hshape (.inr (.inr hlong))
                omega) hlead hread
            refine ⟨?_, fun hnil => hshape (.inl hnil), hsafe⟩
            rw [splitLastColon_eq_some hsplit, formatEventId, decimal, ← hsuffix]
        · cases hcanonical
    · cases hcanonical

theorem formatEventId_injective {replicaId other : Text} {otherSequence : Nat}
    (hreplica : replicaId ≠ []) (hother : other ≠ []) (h : sequence ≤ maxSafeInteger)
    (hsafe : otherSequence ≤ maxSafeInteger)
    (heq : formatEventId replicaId sequence = formatEventId other otherSequence) :
    replicaId = other ∧ sequence = otherSequence := by
  have hleft := parseEventId_format hreplica h
  rw [heq, parseEventId_format hother hsafe] at hleft
  cases hleft
  exact ⟨rfl, rfl⟩

end Softmaple.Codec
