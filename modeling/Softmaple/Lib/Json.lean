import Softmaple.Lib.Utf8
import Mathlib.Data.Nat.Digits.Lemmas

/-!
JSON values and their text without white space. The values, the rest of an
array and the rest of an object are one indexed family, so that one induction
covers them. `stringify_append` reads a value back from its text and what
follows, so the text determines the value.
-/
inductive JsonShape where
  | value
  | items
  | fields

inductive Json : JsonShape → Type where
  | null : Json .value
  | boolean (value : Bool) : Json .value
  | number (value : Int) : Json .value
  | string (value : List Utf8.Unit) : Json .value
  | array (items : Json .items) : Json .value
  | object (fields : Json .fields) : Json .value
  | nil : Json .items
  | cons (head : Json .value) (tail : Json .items) : Json .items
  | done : Json .fields
  | field (key : List Utf8.Unit) (value : Json .value) (rest : Json .fields) : Json .fields

namespace Json

open List

abbrev Text := List Utf8.Unit

def ascii (char : Char) : Utf8.Unit := Utf8.unit char.toNat

def literal (value : String) : Text := value.toList.map ascii

def quotation : Utf8.Unit := ascii '"'

def backslash : Utf8.Unit := ascii '\\'

section Numbers

def digit (value : Nat) : Utf8.Unit := Utf8.unit (48 + value)

def isDigit (unit : Utf8.Unit) : Bool := 48 ≤ unit.val && unit.val ≤ 57

/-- The decimal digits of a number, most significant first, none for zero. -/
def digits (value : Nat) : Text := (Nat.digits 10 value).reverse.map digit

def decimal (value : Nat) : Text := if value = 0 then [digit 0] else digits value

def integer : Int → Text
  | .ofNat value => decimal value
  | .negSucc value => ascii '-' :: decimal (value + 1)

theorem digit_val {value : Nat} (h : value < 10) : (digit value).val = 48 + value :=
  Utf8.val_unit (by omega)

theorem isDigit_digit {value : Nat} (h : value < 10) : isDigit (digit value) = true := by
  unfold isDigit
  rw [digit_val h, Bool.and_eq_true, decide_eq_true_eq, decide_eq_true_eq]
  omega

def readDecimal (text : Text) : Nat := text.foldl (fun value unit => 10 * value + (unit.val - 48)) 0

theorem isDigit_decimal (value : Nat) : ∀ unit ∈ decimal value, isDigit unit = true := by
  intro unit hunit
  unfold decimal at hunit
  by_cases hzero : value = 0
  · rw [if_pos hzero, mem_singleton] at hunit
    rw [hunit]
    exact isDigit_digit (by omega)
  · rw [if_neg hzero, digits, mem_map] at hunit
    obtain ⟨low, hlow, rfl⟩ := hunit
    exact isDigit_digit (Nat.digits_lt_base (by omega) (mem_reverse.mp hlow))

theorem readDecimal_digits (value : Nat) : readDecimal (digits value) = value := by
  have hfold : ∀ lows : List Nat, (∀ low ∈ lows, low < 10) →
      readDecimal (lows.reverse.map digit) = Nat.ofDigits 10 lows := by
    intro lows
    induction lows with
    | nil => intro; rfl
    | cons low lows ih =>
      intro hlows
      rw [forall_mem_cons] at hlows
      have hread := ih hlows.2
      unfold readDecimal at hread ⊢
      rw [reverse_cons, map_append, foldl_append, hread, Nat.ofDigits_cons]
      simp only [map_cons, map_nil, foldl_cons, foldl_nil]
      rw [digit_val hlows.1, Nat.add_sub_cancel_left, Nat.add_comm]
  have hsmall : ∀ low ∈ Nat.digits 10 value, low < 10 := fun low hlow =>
    Nat.digits_lt_base (by omega) hlow
  rw [digits, hfold _ hsmall, Nat.ofDigits_digits]

theorem readDecimal_decimal (value : Nat) : readDecimal (decimal value) = value := by
  unfold decimal
  by_cases hzero : value = 0
  · rw [if_pos hzero, hzero]
    rfl
  · rw [if_neg hzero, readDecimal_digits]

theorem decimal_injective : Function.Injective decimal :=
  Function.LeftInverse.injective readDecimal_decimal

theorem decimal_ne_nil (value : Nat) : decimal value ≠ [] := by
  unfold decimal
  by_cases hzero : value = 0
  · rw [if_pos hzero]
    exact cons_ne_nil _ _
  · rw [if_neg hzero, digits, Ne, map_eq_nil_iff, reverse_eq_nil_iff]
    exact Nat.digits_ne_nil_iff_ne_zero.mpr hzero

/-- What may follow a number: nothing that goes on with it. -/
def EndsNumber (rest : Text) : Prop := ∀ unit ∈ rest.head?, isDigit unit = false

theorem takeWhile_decimal (value : Nat) {rest : Text} (h : EndsNumber rest) :
    (decimal value ++ rest).takeWhile isDigit = decimal value := by
  rw [takeWhile_append_of_pos (isDigit_decimal value)]
  cases rest with
  | nil => simp
  | cons unit rest => simp [h unit rfl]

theorem decimal_append {value other : Nat} {rest more : Text} (hrest : EndsNumber rest)
    (hmore : EndsNumber more) (h : decimal value ++ rest = decimal other ++ more) :
    value = other ∧ rest = more := by
  have hdigits : decimal value = decimal other := by
    rw [← takeWhile_decimal value hrest, h, takeWhile_decimal other hmore]
  rw [hdigits] at h
  exact ⟨decimal_injective hdigits, append_cancel_left h⟩

theorem integer_append {value other : Int} {rest more : Text} (hrest : EndsNumber rest)
    (hmore : EndsNumber more) (h : integer value ++ rest = integer other ++ more) :
    value = other ∧ rest = more := by
  have hsign : ∀ (low high : Nat) (rest more : Text),
      decimal low ++ rest ≠ ascii '-' :: decimal high ++ more := by
    intro low high rest more heq
    cases hlow : decimal low with
    | nil => exact decimal_ne_nil low hlow
    | cons unit units =>
      rw [hlow] at heq
      have hdigit := isDigit_decimal low unit (by rw [hlow]; exact mem_cons_self)
      rw [(List.cons.inj heq).1] at hdigit
      exact absurd hdigit (by decide)
  cases value with
  | ofNat low =>
    cases other with
    | ofNat high =>
      obtain ⟨hvalue, htail⟩ := decimal_append hrest hmore h
      exact ⟨congrArg Int.ofNat hvalue, htail⟩
    | negSucc high => exact absurd h (hsign low (high + 1) rest more)
  | negSucc low =>
    cases other with
    | ofNat high => exact absurd h.symm (hsign high (low + 1) more rest)
    | negSucc high =>
      obtain ⟨hvalue, htail⟩ := decimal_append hrest hmore (List.cons.inj h).2
      exact ⟨congrArg Int.negSucc (Nat.succ.inj hvalue), htail⟩

end Numbers

section Strings

def hexDigit (value : Nat) : Utf8.Unit := Utf8.unit (if value < 10 then 48 + value else 87 + value)

def hexValue (unit : Utf8.Unit) : Nat :=
  if isDigit unit then unit.val - 48 else unit.val - 87

def hexEscape (unit : Utf8.Unit) : Text :=
  [backslash, ascii 'u', hexDigit (unit.val / 4096), hexDigit (unit.val / 256 % 16),
    hexDigit (unit.val / 16 % 16), hexDigit (unit.val % 16)]

def shortEscapes : List (Utf8.Unit × Utf8.Unit) :=
  [(quotation, quotation), (backslash, backslash), (Utf8.unit 8, ascii 'b'),
    (Utf8.unit 12, ascii 'f'), (Utf8.unit 10, ascii 'n'), (Utf8.unit 13, ascii 'r'),
    (Utf8.unit 9, ascii 't')]

/-- A unit inside a string, where it is no half of a surrogate pair on its own. -/
def escapeUnit (unit : Utf8.Unit) : Text :=
  match shortEscapes.lookup unit with
  | some letter => [backslash, letter]
  | none => if unit.val < 32 then hexEscape unit else [unit]

def escapeAlone (unit : Utf8.Unit) : Text :=
  if Utf8.isHigh unit || Utf8.isLow unit then hexEscape unit else escapeUnit unit

def escape : Text → Text
  | [] => []
  | [unit] => escapeAlone unit
  | unit :: next :: more =>
    if Utf8.isHigh unit && Utf8.isLow next then unit :: next :: escape more
    else escapeAlone unit ++ escape (next :: more)

def quote (value : Text) : Text := quotation :: (escape value ++ [quotation])

def readUnit : Text → Option (Utf8.Unit × Text)
  | [] => none
  | unit :: rest =>
    if unit = backslash then
      match rest with
      | [] => none
      | letter :: more =>
        if letter = ascii 'u' then
          match more with
          | first :: second :: third :: fourth :: after =>
            some (Utf8.unit (4096 * hexValue first + 256 * hexValue second +
              16 * hexValue third + hexValue fourth), after)
          | _ => none
        else (shortEscapes.find? fun entry => entry.2 = letter).map fun entry =>
          (entry.1, more)
    else some (unit, rest)

theorem hexValue_hexDigit {value : Nat} (h : value < 16) : hexValue (hexDigit value) = value := by
  have hall : ∀ value < 16, hexValue (hexDigit value) = value := by decide
  exact hall value h

theorem readUnit_hexEscape (unit : Utf8.Unit) (rest : Text) :
    readUnit (hexEscape unit ++ rest) = some (unit, rest) := by
  have hunit := unit.isLt
  have hval : Utf8.unit (4096 * hexValue (hexDigit (unit.val / 4096)) +
      256 * hexValue (hexDigit (unit.val / 256 % 16)) +
      16 * hexValue (hexDigit (unit.val / 16 % 16)) + hexValue (hexDigit (unit.val % 16))) =
        unit := by
    rw [hexValue_hexDigit (by omega), hexValue_hexDigit (by omega), hexValue_hexDigit (by omega),
      hexValue_hexDigit (by omega)]
    apply Fin.ext
    rw [Utf8.val_unit (by omega)]
    omega
  unfold hexEscape
  simp only [cons_append, nil_append, readUnit, if_true, hval]

theorem readUnit_escapeUnit (unit : Utf8.Unit) (rest : Text) :
    readUnit (escapeUnit unit ++ rest) = some (unit, rest) := by
  unfold escapeUnit
  cases hlookup : shortEscapes.lookup unit with
  | some letter =>
    obtain ⟨before, after, hsplit, -⟩ := lookup_eq_some_iff.mp hlookup
    have hmem : (unit, letter) ∈ shortEscapes := by
      rw [hsplit]
      exact mem_append_right _ mem_cons_self
    have hread : ∀ entry ∈ shortEscapes, entry.2 ≠ ascii 'u' ∧
        (shortEscapes.find? fun other => other.2 = entry.2) = some entry := by
      intro entry hentry
      simp only [shortEscapes, mem_cons, not_mem_nil, or_false] at hentry
      rcases hentry with rfl | rfl | rfl | rfl | rfl | rfl | rfl <;> exact ⟨by decide, by decide⟩
    obtain ⟨hletter, hfind⟩ := hread _ hmem
    simp only [cons_append, nil_append, readUnit, if_true, if_neg hletter, hfind,
      Option.map_some]
  | none =>
    by_cases hcontrol : unit.val < 32
    · simp only [if_pos hcontrol]
      exact readUnit_hexEscape unit rest
    · have hplain : unit ≠ backslash := by
        intro heq
        rw [heq] at hlookup
        exact absurd hlookup (by decide)
      simp only [if_neg hcontrol, cons_append, nil_append, readUnit, if_neg hplain]

structure Piece (unit : Utf8.Unit) (piece : Text) : Prop where
  reads : ∀ rest, readUnit (piece ++ rest) = some (unit, rest)
  opens : ∀ rest, (piece ++ rest).head? ≠ some quotation

inductive Writes : Text → Text → Prop where
  | nil : Writes [] []
  | cons {unit : Utf8.Unit} {piece rest out : Text} (h : Piece unit piece) (hrest : Writes rest out) :
      Writes (unit :: rest) (piece ++ out)

theorem piece_hexEscape (unit : Utf8.Unit) : Piece unit (hexEscape unit) where
  reads := readUnit_hexEscape unit
  opens := by
    intro rest heq
    exact absurd (Option.some.inj heq) (by decide)

theorem piece_plain {unit : Utf8.Unit} (hslash : unit ≠ backslash) (hquote : unit ≠ quotation) :
    Piece unit [unit] where
  reads := by
    intro rest
    simp only [singleton_append, readUnit, if_neg hslash]
  opens := by
    intro rest heq
    exact hquote (Option.some.inj heq)

theorem piece_escapeUnit (unit : Utf8.Unit) : Piece unit (escapeUnit unit) where
  reads := readUnit_escapeUnit unit
  opens := by
    intro rest heq
    unfold escapeUnit at heq
    cases hlookup : shortEscapes.lookup unit with
    | some letter =>
      rw [hlookup] at heq
      exact absurd (Option.some.inj heq) (by decide)
    | none =>
      rw [hlookup] at heq
      by_cases hcontrol : unit.val < 32
      · simp only [if_pos hcontrol] at heq
        exact (piece_hexEscape unit).opens rest heq
      · simp only [if_neg hcontrol] at heq
        rw [Option.some.inj heq] at hlookup
        exact absurd hlookup (by decide)

theorem piece_surrogate {unit : Utf8.Unit} (h : 0xd800 ≤ unit.val) : Piece unit [unit] := by
  apply piece_plain
  · intro heq
    rw [heq] at h
    exact absurd h (by decide)
  · intro heq
    rw [heq] at h
    exact absurd h (by decide)

theorem piece_escapeAlone (unit : Utf8.Unit) : Piece unit (escapeAlone unit) := by
  unfold escapeAlone
  by_cases hsurrogate : (Utf8.isHigh unit || Utf8.isLow unit) = true
  · rw [if_pos hsurrogate]
    exact piece_hexEscape unit
  · rw [if_neg hsurrogate]
    exact piece_escapeUnit unit

theorem writes_escape (value : Text) : Writes value (escape value) := by
  induction value using escape.induct with
  | case1 => exact .nil
  | case2 unit =>
    have hwrites : Writes [unit] (escapeAlone unit ++ []) := .cons (piece_escapeAlone unit) .nil
    rw [append_nil] at hwrites
    exact hwrites
  | case3 unit next more hpair ih =>
    rw [escape, if_pos hpair]
    rw [Bool.and_eq_true] at hpair
    have hunit : 0xd800 ≤ unit.val := ((Utf8.isHigh_iff unit).mp hpair.1).1
    have hnext : 0xdc00 ≤ next.val := ((Utf8.isLow_iff next).mp hpair.2).1
    have hwrites : Writes (unit :: next :: more) ([unit] ++ ([next] ++ escape more)) :=
      .cons (piece_surrogate hunit) (.cons (piece_surrogate (by omega)) ih)
    exact hwrites
  | case4 unit next more hpair ih =>
    rw [escape, if_neg hpair]
    exact .cons (piece_escapeAlone unit) ih

theorem writes_append {value other out shown : Text} (h : Writes value out)
    (hother : Writes other shown) {rest more : Text}
    (heq : out ++ quotation :: rest = shown ++ quotation :: more) :
    value = other ∧ rest = more := by
  induction h generalizing other shown with
  | nil =>
    cases hother with
    | nil => exact ⟨rfl, (List.cons.inj heq).2⟩
    | cons hpiece hrest =>
      rw [nil_append, append_assoc] at heq
      exact absurd (congrArg head? heq).symm (hpiece.opens _)
  | @cons unit piece units out hpiece hrest ih =>
    cases hother with
    | nil =>
      rw [nil_append, append_assoc] at heq
      exact absurd (congrArg head? heq) (hpiece.opens _)
    | @cons next piece' units' out' hpiece' hrest' =>
      rw [append_assoc, append_assoc] at heq
      have hread := hpiece.reads (out ++ quotation :: rest)
      rw [heq, hpiece'.reads] at hread
      obtain ⟨hunit, hout⟩ := Prod.mk.inj (Option.some.inj hread)
      obtain ⟨hunits, hmore⟩ := ih hrest' hout.symm
      rw [hunit, hunits]
      exact ⟨rfl, hmore⟩

theorem quote_append {value other rest more : Text} (h : quote value ++ rest = quote other ++ more) :
    value = other ∧ rest = more := by
  have htail : (escape value ++ [quotation]) ++ rest = (escape other ++ [quotation]) ++ more :=
    (List.cons.inj h).2
  rw [append_assoc, append_assoc] at htail
  exact writes_append (writes_escape value) (writes_escape other) htail

end Strings

section Values

def stringify : {shape : JsonShape} → Json shape → Text
  | _, .null => literal "null"
  | _, .boolean true => literal "true"
  | _, .boolean false => literal "false"
  | _, .number value => integer value
  | _, .string value => quote value
  | _, .array .nil => [ascii '[', ascii ']']
  | _, .array (.cons head tail) => ascii '[' :: (stringify head ++ stringify tail)
  | _, .object .done => [ascii '\x7b', ascii '\x7d']
  | _, .object (.field key value rest) =>
    ascii '\x7b' :: (quote key ++ ascii ':' :: (stringify value ++ stringify rest))
  | _, .nil => [ascii ']']
  | _, .cons head tail => ascii ',' :: (stringify head ++ stringify tail)
  | _, .done => [ascii '\x7d']
  | _, .field key value rest =>
    ascii ',' :: (quote key ++ ascii ':' :: (stringify value ++ stringify rest))

/-- The kinds of a value, told apart by the first unit of the text. -/
inductive Kind where
  | null
  | boolean
  | number
  | string
  | array
  | object
  | closing
  deriving DecidableEq

def kind : Json .value → Kind
  | .null => .null
  | .boolean _ => .boolean
  | .number _ => .number
  | .string _ => .string
  | .array _ => .array
  | .object _ => .object

def leadKind (unit : Utf8.Unit) : Kind :=
  if isDigit unit then .number
  else (([(ascii 'n', .null), (ascii 't', .boolean), (ascii 'f', .boolean), (quotation, .string),
    (ascii '[', .array), (ascii '\x7b', .object), (ascii '-', .number)] :
      List (Utf8.Unit × Kind)).lookup unit).getD .closing

theorem lead_integer (value : Int) :
    ∃ unit rest, integer value = unit :: rest ∧ leadKind unit = .number := by
  cases value with
  | ofNat value =>
    cases hdecimal : decimal value with
    | nil => exact absurd hdecimal (decimal_ne_nil value)
    | cons unit rest =>
      refine ⟨unit, rest, hdecimal, ?_⟩
      rw [leadKind, if_pos (isDigit_decimal value unit (by rw [hdecimal]; exact mem_cons_self))]
  | negSucc value => exact ⟨_, _, rfl, by decide⟩

theorem lead_value (value : Json .value) :
    ∃ unit rest, stringify value = unit :: rest ∧ leadKind unit = kind value := by
  cases value with
  | null => exact ⟨_, _, rfl, by decide⟩
  | boolean value =>
    cases value with
    | true => exact ⟨_, _, rfl, by decide⟩
    | false => exact ⟨_, _, rfl, by decide⟩
  | number value => exact lead_integer value
  | string value =>
    have hlead : leadKind quotation = .string := by decide
    exact ⟨_, _, rfl, hlead⟩
  | array items =>
    have hlead : leadKind (ascii '[') = .array := by decide
    cases items with
    | nil => exact ⟨_, _, rfl, hlead⟩
    | cons head tail => exact ⟨_, _, rfl, hlead⟩
  | object fields =>
    have hlead : leadKind (ascii '\x7b') = .object := by decide
    cases fields with
    | done => exact ⟨_, _, rfl, hlead⟩
    | field key value rest => exact ⟨_, _, rfl, hlead⟩

variable {more rest : Text}

theorem kind_eq {value other : Json .value}
    (h : stringify value ++ rest = stringify other ++ more) : kind value = kind other := by
  obtain ⟨unit, units, hvalue, hkind⟩ := lead_value value
  obtain ⟨unit', units', hother, hkind'⟩ := lead_value other
  rw [hvalue, hother] at h
  rw [← hkind, ← hkind', (List.cons.inj h).1]

theorem value_ne_closing (value : Json .value) {unit : Utf8.Unit} (hunit : leadKind unit = .closing)
    : stringify value ++ rest ≠ unit :: more := by
  intro h
  obtain ⟨lead, units, hvalue, hkind⟩ := lead_value value
  rw [hvalue] at h
  rw [(List.cons.inj h).1, hunit] at hkind
  cases value <;> cases hkind

theorem endsNumber_cons {unit : Utf8.Unit} (h : isDigit unit = false) (rest : Text) :
    EndsNumber (unit :: rest) := by
  intro first hfirst
  rw [← Option.some.inj hfirst]
  exact h

theorem endsNumber_items (items : Json .items) (rest : Text) :
    EndsNumber (stringify items ++ rest) := by
  cases items with
  | nil => exact endsNumber_cons (by decide) _
  | cons head tail => exact endsNumber_cons (by decide) _

theorem endsNumber_fields (fields : Json .fields) (rest : Text) :
    EndsNumber (stringify fields ++ rest) := by
  cases fields with
  | done => exact endsNumber_cons (by decide) _
  | field key value rest => exact endsNumber_cons (by decide) _

theorem array_append {items others : Json .items}
    (h : stringify (.array items) ++ rest = stringify (.array others) ++ more) :
    stringify items ++ rest = stringify others ++ more := by
  cases items with
  | nil =>
    cases others with
    | nil => exact (List.cons.inj h).2
    | cons head tail =>
      have htail : stringify head ++ stringify tail ++ more = ascii ']' :: rest :=
        (List.cons.inj h).2.symm
      rw [append_assoc] at htail
      exact absurd htail (value_ne_closing head (by decide))
  | cons head tail =>
    cases others with
    | nil =>
      have htail : stringify head ++ stringify tail ++ rest = ascii ']' :: more :=
        (List.cons.inj h).2
      rw [append_assoc] at htail
      exact absurd htail (value_ne_closing head (by decide))
    | cons head' tail' => exact congrArg (ascii ',' :: ·) (List.cons.inj h).2

theorem object_append {fields others : Json .fields}
    (h : stringify (.object fields) ++ rest = stringify (.object others) ++ more) :
    stringify fields ++ rest = stringify others ++ more := by
  have hquote : ascii '\x7d' ≠ quotation := by decide
  cases fields with
  | done =>
    cases others with
    | done => exact (List.cons.inj h).2
    | field key value tail => exact absurd (List.cons.inj (List.cons.inj h).2).1 hquote
  | field key value tail =>
    cases others with
    | done => exact absurd (List.cons.inj (List.cons.inj h).2).1.symm hquote
    | field key' value' tail' => exact congrArg (ascii ',' :: ·) (List.cons.inj h).2

theorem stringify_append {shape : JsonShape} {value other : Json shape}
    (hrest : EndsNumber rest) (hmore : EndsNumber more)
    (h : stringify value ++ rest = stringify other ++ more) : value = other ∧ rest = more := by
  induction value generalizing rest more with
  | null =>
    have hkind := kind_eq h
    cases other with
    | null => exact ⟨rfl, append_cancel_left h⟩
    | boolean _ | number _ | string _ | array _ | object _ => cases hkind
  | boolean value =>
    have hkind := kind_eq h
    cases other with
    | boolean value' =>
      cases value with
      | true =>
        cases value' with
        | true => exact ⟨rfl, append_cancel_left h⟩
        | false => exact absurd (List.cons.inj h).1 (by decide)
      | false =>
        cases value' with
        | true => exact absurd (List.cons.inj h).1 (by decide)
        | false => exact ⟨rfl, append_cancel_left h⟩
    | null | number _ | string _ | array _ | object _ => cases hkind
  | number value =>
    have hkind := kind_eq h
    cases other with
    | number value' =>
      obtain ⟨hvalue, htail⟩ := integer_append hrest hmore h
      rw [hvalue]
      exact ⟨rfl, htail⟩
    | null | boolean _ | string _ | array _ | object _ => cases hkind
  | string value =>
    have hkind := kind_eq h
    cases other with
    | string value' =>
      obtain ⟨hvalue, htail⟩ := quote_append h
      rw [hvalue]
      exact ⟨rfl, htail⟩
    | null | boolean _ | number _ | array _ | object _ => cases hkind
  | array items ih =>
    have hkind := kind_eq h
    cases other with
    | array items' =>
      obtain ⟨hitems, htail⟩ := ih hrest hmore (array_append h)
      rw [hitems]
      exact ⟨rfl, htail⟩
    | null | boolean _ | number _ | string _ | object _ => cases hkind
  | object fields ih =>
    have hkind := kind_eq h
    cases other with
    | object fields' =>
      obtain ⟨hfields, htail⟩ := ih hrest hmore (object_append h)
      rw [hfields]
      exact ⟨rfl, htail⟩
    | null | boolean _ | number _ | string _ | array _ => cases hkind
  | nil =>
    cases other with
    | nil => exact ⟨rfl, (List.cons.inj h).2⟩
    | cons head tail => exact absurd (List.cons.inj h).1 (by decide)
  | cons head tail ihhead ihtail =>
    cases other with
    | nil => exact absurd (List.cons.inj h).1 (by decide)
    | cons head' tail' =>
      have hparts : stringify head ++ stringify tail ++ rest =
          stringify head' ++ stringify tail' ++ more := (List.cons.inj h).2
      rw [append_assoc, append_assoc] at hparts
      obtain ⟨hhead, htails⟩ :=
        ihhead (endsNumber_items tail rest) (endsNumber_items tail' more) hparts
      obtain ⟨htail, hfollow⟩ := ihtail hrest hmore htails
      rw [hhead, htail]
      exact ⟨rfl, hfollow⟩
  | done =>
    cases other with
    | done => exact ⟨rfl, (List.cons.inj h).2⟩
    | field key value tail => exact absurd (List.cons.inj h).1 (by decide)
  | field key value tail ihvalue ihtail =>
    cases other with
    | done => exact absurd (List.cons.inj h).1 (by decide)
    | field key' value' tail' =>
      have hparts : quote key ++ ascii ':' :: (stringify value ++ stringify tail) ++ rest =
          quote key' ++ ascii ':' :: (stringify value' ++ stringify tail') ++ more :=
        (List.cons.inj h).2
      rw [append_assoc, append_assoc] at hparts
      obtain ⟨hkey, hvalues⟩ := quote_append hparts
      have hvalues : stringify value ++ stringify tail ++ rest =
          stringify value' ++ stringify tail' ++ more := (List.cons.inj hvalues).2
      rw [append_assoc, append_assoc] at hvalues
      obtain ⟨hvalue, htails⟩ :=
        ihvalue (endsNumber_fields tail rest) (endsNumber_fields tail' more) hvalues
      obtain ⟨htail, hfollow⟩ := ihtail hrest hmore htails
      rw [hkey, hvalue, htail]
      exact ⟨rfl, hfollow⟩

theorem stringify_injective {shape : JsonShape} :
    Function.Injective (stringify : Json shape → Text) := by
  intro value other h
  have hnil : EndsNumber [] := by
    intro unit hunit
    cases hunit
  have hempty : stringify value ++ [] = stringify other ++ [] := by rw [h]
  exact (stringify_append hnil hnil hempty).1

end Values

section Keys

def ofItems : List (Json .value) → Json .items
  | [] => .nil
  | item :: rest => .cons item (ofItems rest)

def ofFields : List (Text × Json .value) → Json .fields
  | [] => .done
  | (key, value) :: rest => .field key value (ofFields rest)

theorem ofItems_injective : Function.Injective ofItems := by
  intro items
  induction items with
  | nil =>
    intro others h
    cases others with
    | nil => rfl
    | cons other others => cases h
  | cons item items ih =>
    intro others h
    cases others with
    | nil => cases h
    | cons other others =>
      injection h with hitem hrest
      rw [hitem, ih hrest]

theorem ofFields_injective : Function.Injective ofFields := by
  intro fields
  induction fields with
  | nil =>
    intro others h
    cases others with
    | nil => rfl
    | cons other others => cases h
  | cons entry fields ih =>
    intro others h
    cases others with
    | nil => cases h
    | cons other others =>
      injection h with hkey hvalue hrest
      rw [ih hrest, show entry = other from Prod.ext hkey hvalue]

def insertField (key : Text) (value : Json .value) : {shape : JsonShape} → Json shape → Json shape
  | _, .done => .field key value .done
  | _, .field other held rest =>
    if key ≤ other then .field key value (.field other held rest)
    else .field other held (insertField key value rest)
  | _, other => other

def sortKeys : {shape : JsonShape} → Json shape → Json shape
  | _, .null => .null
  | _, .boolean value => .boolean value
  | _, .number value => .number value
  | _, .string value => .string value
  | _, .array items => .array (sortKeys items)
  | _, .object fields => .object (sortKeys fields)
  | _, .nil => .nil
  | _, .cons head tail => .cons (sortKeys head) (sortKeys tail)
  | _, .done => .done
  | _, .field key value rest => insertField key (sortKeys value) (sortKeys rest)

def Leads (key : Text) : Json .fields → Prop
  | .done => True
  | .field other _ _ => key ≤ other

def KeysSorted : {shape : JsonShape} → Json shape → Prop
  | _, .array items => KeysSorted items
  | _, .object fields => KeysSorted fields
  | _, .cons head tail => KeysSorted head ∧ KeysSorted tail
  | _, .field key value rest => Leads key rest ∧ KeysSorted value ∧ KeysSorted rest
  | _, _ => True

theorem sortKeys_eq_self {shape : JsonShape} {value : Json shape} (h : KeysSorted value) :
    sortKeys value = value := by
  induction value with
  | null | boolean _ | number _ | string _ | nil | done => rfl
  | array items ih => rw [sortKeys, ih h]
  | object fields ih => rw [sortKeys, ih h]
  | cons head tail ihhead ihtail => rw [sortKeys, ihhead h.1, ihtail h.2]
  | field key value rest ihvalue ihrest =>
    rw [sortKeys, ihvalue h.2.1, ihrest h.2.2]
    cases rest with
    | done => rw [insertField]
    | field other held more => rw [insertField, if_pos (show key ≤ other from h.1)]

theorem keysSorted_ofItems {items : List (Json .value)} (h : ∀ item ∈ items, KeysSorted item) :
    KeysSorted (ofItems items) := by
  induction items with
  | nil => trivial
  | cons item items ih =>
    rw [forall_mem_cons] at h
    exact ⟨h.1, ih h.2⟩

theorem keysSorted_ofFields {fields : List (Text × Json .value)}
    (hkeys : (fields.map Prod.fst).Pairwise (· ≤ ·))
    (h : ∀ entry ∈ fields, KeysSorted entry.2) : KeysSorted (ofFields fields) := by
  induction fields with
  | nil => trivial
  | cons entry fields ih =>
    rw [forall_mem_cons] at h
    rw [map_cons, pairwise_cons] at hkeys
    refine ⟨?_, h.1, ih hkeys.2 h.2⟩
    cases fields with
    | nil => trivial
    | cons other fields => exact hkeys.1 _ mem_cons_self

def present (fields : List (Text × Option (Json .value))) : List (Text × Json .value) :=
  fields.filterMap fun entry => entry.2.map fun value => (entry.1, value)

variable {fields : List (Text × Option (Json .value))}

theorem key_mem_of_present {entry : Text × Json .value} (h : entry ∈ present fields) :
    (entry.1, some entry.2) ∈ fields := by
  obtain ⟨⟨key, value⟩, hmem, hentry⟩ := mem_filterMap.mp h
  cases value with
  | none => cases hentry
  | some value =>
    rw [← Option.some.inj hentry]
    exact hmem

theorem keys_present_sublist (fields : List (Text × Option (Json .value))) :
    ((present fields).map Prod.fst).Sublist (fields.map Prod.fst) := by
  induction fields with
  | nil => exact .slnil
  | cons entry fields ih =>
    obtain ⟨key, value⟩ := entry
    cases value with
    | none => exact .cons _ ih
    | some value => exact .cons_cons _ ih

theorem keysSorted_present (hkeys : (fields.map Prod.fst).Pairwise (· ≤ ·))
    (h : ∀ entry ∈ fields, ∀ value ∈ entry.2, KeysSorted value) :
    KeysSorted (ofFields (present fields)) := by
  apply keysSorted_ofFields (hkeys.sublist (keys_present_sublist fields))
  intro entry hentry
  exact h _ (key_mem_of_present hentry) _ rfl

theorem present_injective {others : List (Text × Option (Json .value))}
    (hkeys : fields.map Prod.fst = others.map Prod.fst) (hnodup : (fields.map Prod.fst).Nodup)
    (h : present fields = present others) : fields = others := by
  induction fields generalizing others with
  | nil =>
    cases others with
    | nil => rfl
    | cons other others => cases hkeys
  | cons entry fields ih =>
    cases others with
    | nil => cases hkeys
    | cons other others =>
      obtain ⟨key, value⟩ := entry
      obtain ⟨key', value'⟩ := other
      rw [map_cons, map_cons] at hkeys
      obtain ⟨rfl, hrest⟩ := List.cons.inj hkeys
      rw [map_cons, nodup_cons] at hnodup
      have hfresh : ∀ (value : Json .value) (fields : List (Text × Option (Json .value))),
          key ∉ fields.map Prod.fst → (key, value) ∉ present fields :=
        fun value fields hkey hmem =>
          hkey (mem_map_of_mem (key_mem_of_present hmem))
      cases value with
      | none =>
        cases value' with
        | none => rw [ih hrest hnodup.2 h]
        | some shown =>
          have hmem : (key, shown) ∈ present fields := by
            have hhead : (key, shown) ∈ present ((key, some shown) :: others) :=
              mem_cons_self
            rw [← h] at hhead
            exact hhead
          exact absurd hmem (hfresh shown fields hnodup.1)
      | some held =>
        cases value' with
        | none =>
          have hmem : (key, held) ∈ present others := by
            have hhead : (key, held) ∈ present ((key, some held) :: fields) :=
              mem_cons_self
            rw [h] at hhead
            exact hhead
          refine absurd hmem (hfresh held others ?_)
          rw [← hrest]
          exact hnodup.1
        | some shown =>
          obtain ⟨hvalue, htail⟩ := List.cons.inj h
          rw [ih hrest hnodup.2 htail, (Prod.mk.inj hvalue).2]

/-- Every string of a value, keys included, satisfies `p`. -/
def allStrings (p : Text → Bool) : {shape : JsonShape} → Json shape → Bool
  | _, .string value => p value
  | _, .array items => allStrings p items
  | _, .object fields => allStrings p fields
  | _, .cons head tail => allStrings p head && allStrings p tail
  | _, .field key value rest => p key && allStrings p value && allStrings p rest
  | _, _ => true

end Keys

end Json

namespace Json

open List

def objectOf (fields : List (String × Json .value)) : Json .value :=
  .object (ofFields (fields.map fun entry => (literal entry.1, entry.2)))

def lookupKey (key : Text) : Json .fields → Option (Json .value)
  | .done => none
  | .field other value rest => if other = key then some value else lookupKey key rest

/-- `value.name`, where none is undefined. -/
def get (value : Json .value) (name : String) : Option (Json .value) :=
  match value with
  | .object fields => lookupKey (literal name) fields
  | _ => none

/-- A value that is neither null nor a primitive. -/
def isRecord : Json .value → Bool
  | .array _ | .object _ => true
  | _ => false

def asString : Option (Json .value) → Option Text
  | some (.string value) => some value
  | _ => none

def asBoolean : Option (Json .value) → Option Bool
  | some (.boolean value) => some value
  | _ => none

def asNumber : Option (Json .value) → Option Int
  | some (.number value) => some value
  | _ => none

@[simp]
theorem asString_string (value : Text) : asString (some (.string value)) = some value := rfl

@[simp]
theorem asBoolean_boolean (value : Bool) : asBoolean (some (.boolean value)) = some value := rfl

@[simp]
theorem asNumber_number (value : Int) : asNumber (some (.number value)) = some value := rfl

@[simp]
theorem isRecord_objectOf (fields : List (String × Json .value)) :
    (objectOf fields).isRecord = true := rfl

theorem get_objectOf_nil (name : String) : (objectOf []).get name = none := by
  rw [objectOf, get, map_nil, ofFields, lookupKey]

theorem get_objectOf_same (name : String) (value : Json .value)
    (fields : List (String × Json .value)) :
    (objectOf ((name, value) :: fields)).get name = some value := by
  rw [objectOf, get, map_cons, ofFields, lookupKey, if_pos rfl]

theorem get_objectOf_other {name other : String} (h : literal other ≠ literal name)
    (value : Json .value) (fields : List (String × Json .value)) :
    (objectOf ((other, value) :: fields)).get name = (objectOf fields).get name := by
  rw [objectOf, get, map_cons, ofFields, lookupKey, if_neg h]
  rfl

end Json

namespace Utf8

open List

theorem Scalar.length_bytes_pos (scalar : Scalar) : 1 ≤ scalar.bytes.length := by
  rw [Scalar.bytes]
  split
  · simp
  split
  · simp
  split
  · simp
  · simp

theorem length_le_encode (text : List Unit) : text.length ≤ (encode text).length := by
  induction text using scalars.induct with
  | case1 => simp
  | case2 unit =>
    have hunit := (Scalar.ofUnit unit).length_bytes_pos
    simpa [encode, scalars] using hunit
  | case3 unit next rest h ih =>
    have hlong : 2 ≤ (Scalar.ofPair unit next h).bytes.length := by
      have hval : 0x10000 ≤ (Scalar.ofPair unit next h).val := by
        unfold Scalar.ofPair
        dsimp only
        omega
      rw [Scalar.bytes, if_neg (by omega), if_neg (by omega), if_neg (by omega)]
      simp
    unfold encode at ih ⊢
    rw [scalars, dif_pos h, flatMap_cons, length_append]
    simp only [length_cons]
    omega
  | case4 unit next rest h ih =>
    have hunit := (Scalar.ofUnit unit).length_bytes_pos
    unfold encode at ih ⊢
    rw [scalars, dif_neg h, flatMap_cons, length_append]
    simp only [length_cons] at ih ⊢
    omega

end Utf8

namespace Json

open List

def jsonBytes (value : Json .value) : Nat := (Utf8.encode (stringify value)).length

theorem length_escapeAlone_pos (unit : Utf8.Unit) : 1 ≤ (escapeAlone unit).length := by
  unfold escapeAlone escapeUnit hexEscape
  split
  · simp
  · split
    · simp
    · split
      · simp
      · simp

theorem length_le_escape (value : Text) : value.length ≤ (escape value).length := by
  induction value using escape.induct with
  | case1 => exact Nat.zero_le _
  | case2 unit =>
    rw [escape]
    exact length_escapeAlone_pos unit
  | case3 unit next more h ih =>
    rw [escape, if_pos h]
    simp only [length_cons]
    omega
  | case4 unit next more h ih =>
    have hunit := length_escapeAlone_pos unit
    rw [escape, if_neg h, length_append]
    simp only [length_cons] at ih ⊢
    omega

theorem length_stringify_string (value : Text) :
    value.length + 2 ≤ (stringify (.string value)).length := by
  have hescape := length_le_escape value
  rw [stringify, quote, length_cons, length_append, length_singleton]
  omega

theorem length_stringify_field {fields : List (String × Json .value)} {name : String}
    {value : Json .value} (h : (name, value) ∈ fields) :
    (stringify value).length < (stringify (objectOf fields)).length := by
  have hrest : ∀ others : List (String × Json .value), (name, value) ∈ others →
      (stringify value).length <
        (stringify (ofFields (others.map fun entry => (literal entry.1, entry.2)))).length := by
    intro others
    induction others with
    | nil => intro hmem; cases hmem
    | cons entry others ih =>
      intro hmem
      rw [map_cons, ofFields, stringify]
      simp only [length_cons, length_append]
      cases hmem with
      | head =>
        dsimp only
        omega
      | tail _ htail =>
        have hlt := ih htail
        omega
  unfold objectOf
  cases fields with
  | nil => cases h
  | cons entry fields =>
    rw [map_cons, ofFields, stringify]
    simp only [length_cons, length_append]
    cases h with
    | head =>
      dsimp only
      omega
    | tail _ htail =>
      have hlt := hrest fields htail
      omega

theorem length_le_jsonBytes (value : Json .value) : (stringify value).length ≤ jsonBytes value :=
  Utf8.length_le_encode _

end Json
