import Mathlib.Data.Fin.Basic
import Mathlib.Tactic.Ring
import Mathlib.Data.List.Basic

/-!
UTF-16 strings as UTF-8 bytes. Encoding replaces each lone surrogate by U+FFFD;
strict decoding refuses every sequence that is not UTF-8. Decoding what was
encoded gives the string back exactly when it has no lone surrogate.
-/
namespace Utf8

open List

abbrev Byte := Fin 256

abbrev Unit := Fin 0x10000

instance neZero_units : NeZero 0x10000 := ⟨by decide⟩

instance lawfulBEq_units : LawfulBEq (List Unit) := inferInstance

def isHigh (unit : Unit) : Bool := 0xd800 ≤ unit.val && unit.val ≤ 0xdbff

def isLow (unit : Unit) : Bool := 0xdc00 ≤ unit.val && unit.val ≤ 0xdfff

/-- A Unicode code point that is not a surrogate. -/
structure Scalar where
  val : Nat
  valid : val < 0xd800 ∨ 0xe000 ≤ val ∧ val < 0x110000
  deriving DecidableEq

def wellFormed : List Unit → Bool
  | [] => true
  | [unit] => !isHigh unit && !isLow unit
  | unit :: next :: rest =>
    if isHigh unit then isLow next && wellFormed rest
    else !isLow unit && wellFormed (next :: rest)

def byte (n : Nat) : Byte := ⟨n % 256, Nat.mod_lt _ (by decide)⟩

def unit (n : Nat) : Unit := ⟨n % 0x10000, Nat.mod_lt _ (by decide)⟩

theorem val_byte {n : Nat} (h : n < 256) : (byte n).val = n := Nat.mod_eq_of_lt h

theorem val_unit {n : Nat} (h : n < 0x10000) : (unit n).val = n := Nat.mod_eq_of_lt h

def Scalar.bytes (scalar : Scalar) : List Byte :=
  if scalar.val < 0x80 then [byte scalar.val]
  else if scalar.val < 0x800 then
    [byte (0xc0 + scalar.val / 64), byte (0x80 + scalar.val % 64)]
  else if scalar.val < 0x10000 then
    [byte (0xe0 + scalar.val / 4096), byte (0x80 + scalar.val / 64 % 64),
      byte (0x80 + scalar.val % 64)]
  else
    [byte (0xf0 + scalar.val / 262144), byte (0x80 + scalar.val / 4096 % 64),
      byte (0x80 + scalar.val / 64 % 64), byte (0x80 + scalar.val % 64)]

def Scalar.units (scalar : Scalar) : List Unit :=
  if scalar.val < 0x10000 then [unit scalar.val]
  else [unit (0xd800 + (scalar.val - 0x10000) / 0x400),
    unit (0xdc00 + (scalar.val - 0x10000) % 0x400)]

theorem isHigh_iff (unit : Unit) : isHigh unit = true ↔ 0xd800 ≤ unit.val ∧ unit.val ≤ 0xdbff := by
  simp [isHigh]

theorem isLow_iff (unit : Unit) : isLow unit = true ↔ 0xdc00 ≤ unit.val ∧ unit.val ≤ 0xdfff := by
  simp [isLow]

def Scalar.ofUnit (unit : Unit) : Scalar :=
  if h : isHigh unit = false ∧ isLow unit = false then
    { val := unit.val
      valid := by
        have := unit.isLt
        have hhigh := h.1
        have hlow := h.2
        simp only [isHigh, isLow, Bool.and_eq_false_iff, decide_eq_false_iff_not] at hhigh hlow
        omega }
  else ⟨0xfffd, by decide⟩

def Scalar.ofPair (high low : Unit) (h : isHigh high = true ∧ isLow low = true) : Scalar where
  val := 0x10000 + (high.val - 0xd800) * 0x400 + (low.val - 0xdc00)
  valid := by
    have hhigh := (isHigh_iff high).mp h.1
    have hlow := (isLow_iff low).mp h.2
    omega

/-- The scalars of a string, lone surrogates replaced. -/
def scalars : List Unit → List Scalar
  | [] => []
  | [unit] => [.ofUnit unit]
  | unit :: next :: rest =>
    if h : isHigh unit = true ∧ isLow next = true then .ofPair unit next h :: scalars rest
    else .ofUnit unit :: scalars (next :: rest)

/-- The string with each lone surrogate replaced. -/
def toWellFormed (text : List Unit) : List Unit := (scalars text).flatMap (·.units)

def encode (text : List Unit) : List Byte := (scalars text).flatMap (·.bytes)

def isTail (byte : Byte) : Bool := 0x80 ≤ byte.val && byte.val ≤ 0xbf

/-- The scalars of a byte sequence, `none` where it is not UTF-8. -/
def decodeScalars : List Byte → Option (List Scalar)
  | [] => some []
  | a :: rest =>
    if ha : a.val < 0x80 then
      (decodeScalars rest).map (⟨a.val, by omega⟩ :: ·)
    else if 0xc2 ≤ a.val ∧ a.val ≤ 0xdf then
      match rest with
      | b :: rest =>
        if isTail b then
          let val := (a.val - 0xc0) * 64 + (b.val - 0x80)
          if h : val < 0x800 then (decodeScalars rest).map (⟨val, by omega⟩ :: ·) else none
        else none
      | [] => none
    else if 0xe0 ≤ a.val ∧ a.val ≤ 0xef then
      match rest with
      | b :: c :: rest =>
        if isTail b && isTail c then
          let val := (a.val - 0xe0) * 4096 + (b.val - 0x80) * 64 + (c.val - 0x80)
          if h : 0x800 ≤ val ∧ (val < 0xd800 ∨ 0xe000 ≤ val) ∧ val < 0x10000 then
            (decodeScalars rest).map (⟨val, by omega⟩ :: ·)
          else none
        else none
      | _ => none
    else if 0xf0 ≤ a.val ∧ a.val ≤ 0xf4 then
      match rest with
      | b :: c :: d :: rest =>
        if isTail b && isTail c && isTail d then
          let val := (a.val - 0xf0) * 262144 + (b.val - 0x80) * 4096 +
            (c.val - 0x80) * 64 + (d.val - 0x80)
          if h : 0x10000 ≤ val ∧ val < 0x110000 then
            (decodeScalars rest).map (⟨val, by omega⟩ :: ·)
          else none
        else none
      | _ => none
    else none

/-- Strict decoding. -/
def decode (bytes : List Byte) : Option (List Unit) :=
  (decodeScalars bytes).map (·.flatMap (·.units))

theorem decodeScalars_bytes (scalar : Scalar) (rest : List Byte) :
    decodeScalars (scalar.bytes ++ rest) = (decodeScalars rest).map (scalar :: ·) := by
  obtain ⟨val, valid⟩ := scalar
  by_cases h1 : val < 0x80
  · have := val_byte (show val < 256 by omega)
    simp only [Scalar.bytes, h1, if_true, cons_append, nil_append]
    rw [decodeScalars.eq_def]
    simp only [this]
    rw [dif_pos h1]
  by_cases h2 : val < 0x800
  · have ha := val_byte (show 0xc0 + val / 64 < 256 by omega)
    have hb := val_byte (show 0x80 + val % 64 < 256 by omega)
    have hsum : (0xc0 + val / 64 - 0xc0) * 64 + (0x80 + val % 64 - 0x80) = val := by omega
    simp only [Scalar.bytes, h1, h2, if_false, if_true, cons_append, nil_append]
    rw [decodeScalars]
    simp only [ha, hb, isTail, hsum]
    rw [dif_neg (by omega), if_pos (by omega), if_pos (by simp; omega), dif_pos h2]
  by_cases h3 : val < 0x10000
  · have ha := val_byte (show 0xe0 + val / 4096 < 256 by omega)
    have hb := val_byte (show 0x80 + val / 64 % 64 < 256 by omega)
    have hc := val_byte (show 0x80 + val % 64 < 256 by omega)
    have hsum : (0xe0 + val / 4096 - 0xe0) * 4096 + (0x80 + val / 64 % 64 - 0x80) * 64 +
        (0x80 + val % 64 - 0x80) = val := by omega
    simp only [Scalar.bytes, h1, h2, h3, if_false, if_true, cons_append, nil_append]
    rw [decodeScalars]
    simp only [ha, hb, hc, isTail, hsum]
    rw [dif_neg (by omega), if_neg (by omega), if_pos (by omega), if_pos (by simp; omega),
      dif_pos (by omega)]
  · have ha := val_byte (show 0xf0 + val / 262144 < 256 by omega)
    have hb := val_byte (show 0x80 + val / 4096 % 64 < 256 by omega)
    have hc := val_byte (show 0x80 + val / 64 % 64 < 256 by omega)
    have hd := val_byte (show 0x80 + val % 64 < 256 by omega)
    have hsum : (0xf0 + val / 262144 - 0xf0) * 262144 + (0x80 + val / 4096 % 64 - 0x80) * 4096 +
        (0x80 + val / 64 % 64 - 0x80) * 64 + (0x80 + val % 64 - 0x80) = val := by omega
    simp only [Scalar.bytes, h1, h2, h3, if_false, cons_append, nil_append]
    rw [decodeScalars]
    simp only [ha, hb, hc, hd, isTail, hsum]
    rw [dif_neg (by omega), if_neg (by omega), if_neg (by omega), if_pos (by omega),
      if_pos (by simp; omega), dif_pos (by omega)]

theorem decodeScalars_flatMap (list : List Scalar) :
    decodeScalars (list.flatMap (·.bytes)) = some list := by
  induction list with
  | nil => rfl
  | cons scalar rest ih => rw [flatMap_cons, decodeScalars_bytes, ih]; rfl

theorem decode_encode (text : List Unit) : decode (encode text) = some (toWellFormed text) := by
  rw [decode, encode, decodeScalars_flatMap]
  rfl

theorem isHigh_isLow (unit : Unit) (h : isHigh unit = true) : isLow unit = false := by
  rw [isHigh_iff] at h
  simp only [isLow, Bool.and_eq_false_iff, decide_eq_false_iff_not]
  omega

theorem Scalar.units_ofUnit (unit : Unit) (hhigh : isHigh unit = false) (hlow : isLow unit = false) :
    (Scalar.ofUnit unit).units = [unit] := by
  have hval : (ofUnit unit).val = unit.val := by rw [ofUnit, dif_pos ⟨hhigh, hlow⟩]
  rw [units, hval, if_pos unit.isLt]
  exact congrArg (fun value => [value]) (Fin.ext (Nat.mod_eq_of_lt unit.isLt))

theorem Scalar.units_ofPair (high low : Unit) (h : isHigh high = true ∧ isLow low = true) :
    (Scalar.ofPair high low h).units = [high, low] := by
  have hhigh := (isHigh_iff high).mp h.1
  have hlow := (isLow_iff low).mp h.2
  have hval : (ofPair high low h).val =
      0x10000 + (high.val - 0xd800) * 0x400 + (low.val - 0xdc00) := rfl
  have hfirst : unit (0xd800 + ((high.val - 0xd800) * 0x400 + (low.val - 0xdc00)) / 0x400) =
      high := by
    apply Fin.ext
    rw [val_unit (by omega)]
    omega
  have hsecond : unit (0xdc00 + ((high.val - 0xd800) * 0x400 + (low.val - 0xdc00)) % 0x400) =
      low := by
    apply Fin.ext
    rw [val_unit (by omega)]
    omega
  rw [units, hval, if_neg (by omega), Nat.add_assoc, Nat.add_sub_cancel_left, hfirst, hsecond]

theorem Scalar.wellFormed_units (scalar : Scalar) (text : List Unit) :
    wellFormed (scalar.units ++ text) = wellFormed text := by
  obtain ⟨val, valid⟩ := scalar
  by_cases h : val < 0x10000
  · have hhigh : isHigh (unit val) = false := by
      simp only [isHigh, val_unit h, Bool.and_eq_false_iff, decide_eq_false_iff_not]
      omega
    have hlow : isLow (unit val) = false := by
      simp only [isLow, val_unit h, Bool.and_eq_false_iff, decide_eq_false_iff_not]
      omega
    simp only [units, h, if_true, cons_append, nil_append]
    cases text with
    | nil => simp [wellFormed, hhigh, hlow]
    | cons next rest => simp [wellFormed, hhigh, hlow]
  · have hhigh : isHigh (unit (0xd800 + (val - 0x10000) / 0x400)) = true := by
      rw [isHigh_iff, val_unit (by omega)]
      omega
    have hlow : isLow (unit (0xdc00 + (val - 0x10000) % 0x400)) = true := by
      rw [isLow_iff, val_unit (by omega)]
      omega
    simp only [units, h, if_false, cons_append, nil_append]
    simp [wellFormed, hhigh, hlow]

theorem wellFormed_flatMap (list : List Scalar) : wellFormed (list.flatMap (·.units)) = true := by
  induction list with
  | nil => rfl
  | cons scalar rest ih => rw [flatMap_cons, Scalar.wellFormed_units, ih]

variable {text : List Unit}

/-- What strict decoding accepts has no lone surrogate. -/
theorem wellFormed_decode {bytes : List Byte} (h : decode bytes = some text) :
    wellFormed text = true := by
  obtain ⟨list, -, rfl⟩ := Option.map_eq_some_iff.mp h
  exact wellFormed_flatMap list

theorem toWellFormed_of_wellFormed (h : wellFormed text = true) :
    toWellFormed text = text := by
  induction text using wellFormed.induct with
  | case1 => rfl
  | case2 unit =>
    simp only [wellFormed, Bool.and_eq_true, Bool.not_eq_eq_eq_not, Bool.not_true] at h
    simp [toWellFormed, scalars, Scalar.units_ofUnit unit h.1 h.2]
  | case3 unit next rest hhigh ih =>
    simp only [wellFormed, hhigh, if_true, Bool.and_eq_true] at h
    have hrest : toWellFormed rest = rest := ih h.2
    rw [toWellFormed, scalars, dif_pos ⟨hhigh, h.1⟩, flatMap_cons, Scalar.units_ofPair]
    exact congrArg ([unit, next] ++ ·) hrest
  | case4 unit next rest hhigh ih =>
    simp only [wellFormed, hhigh, Bool.false_eq_true, if_false, Bool.and_eq_true,
      Bool.not_eq_eq_eq_not, Bool.not_true] at h
    have hrest : toWellFormed (next :: rest) = next :: rest := ih h.2
    rw [toWellFormed, scalars, dif_neg fun hpair => hhigh hpair.1, flatMap_cons,
      Scalar.units_ofUnit unit (by simpa using hhigh) h.1]
    exact congrArg ([unit] ++ ·) hrest

theorem toWellFormed_eq_iff (text : List Unit) :
    toWellFormed text = text ↔ wellFormed text = true := by
  constructor
  · intro h
    rw [← h]
    exact wellFormed_flatMap _
  · exact toWellFormed_of_wellFormed

theorem wellFormed_append {more : List Unit} (h : wellFormed text = true) :
    wellFormed (text ++ more) = wellFormed more := by
  have hall : ∀ list : List Scalar,
      wellFormed (list.flatMap (·.units) ++ more) = wellFormed more := by
    intro list
    induction list with
    | nil => rfl
    | cons scalar rest ih => rw [flatMap_cons, append_assoc, Scalar.wellFormed_units, ih]
  rw [← (toWellFormed_eq_iff text).mpr h]
  exact hall (scalars text)

theorem wellFormed_cons_cons {unit next : Unit} {rest : List Unit} :
    wellFormed (unit :: next :: rest) = true ↔
      (isHigh unit = true ∧ isLow next = true ∧ wellFormed rest = true) ∨
        (isHigh unit = false ∧ isLow unit = false ∧ wellFormed (next :: rest) = true) := by
  rw [wellFormed]
  cases isHigh unit with
  | true => simp
  | false => simp

theorem wellFormed_of_plain
    (h : ∀ unit ∈ text, isHigh unit = false ∧ isLow unit = false) : wellFormed text = true := by
  induction text with
  | nil => rfl
  | cons unit rest ih =>
    obtain ⟨hunit, hrest⟩ := forall_mem_cons.mp h
    cases rest with
    | nil => simp [wellFormed, hunit.1, hunit.2]
    | cons next rest => exact wellFormed_cons_cons.mpr (.inr ⟨hunit.1, hunit.2, ih hrest⟩)

theorem wellFormed_cut {more : List Unit} (h : wellFormed (text ++ more) = true)
    (hcut : ∀ high ∈ text.getLast?, ∀ low ∈ more.head?, isHigh high = true → isLow low = false) :
    wellFormed text = true ∧ wellFormed more = true := by
  induction text using wellFormed.induct with
  | case1 => exact ⟨rfl, h⟩
  | case2 unit =>
    cases more with
    | nil => exact ⟨h, rfl⟩
    | cons next rest =>
      cases wellFormed_cons_cons.mp h with
      | inl hpair =>
        have hlow := hcut unit rfl next rfl hpair.1
        rw [hpair.2.1] at hlow
        cases hlow
      | inr hsingle => exact ⟨by simp [wellFormed, hsingle.1, hsingle.2.1], hsingle.2.2⟩
  | case3 unit next rest hhigh ih =>
    cases wellFormed_cons_cons.mp h with
    | inl hpair =>
      have hparts := ih hpair.2.2 fun high hlast => by
        apply hcut high
        cases rest with
        | nil => cases hlast
        | cons later rest => rwa [getLast?_cons_cons, getLast?_cons_cons]
      exact ⟨wellFormed_cons_cons.mpr (.inl ⟨hhigh, hpair.2.1, hparts.1⟩), hparts.2⟩
    | inr hsingle =>
      rw [hhigh] at hsingle
      cases hsingle.1
  | case4 unit next rest hhigh ih =>
    cases wellFormed_cons_cons.mp h with
    | inl hpair => exact absurd hpair.1 hhigh
    | inr hsingle =>
      have hparts := ih hsingle.2.2 fun high hlast => by
        apply hcut high
        rwa [getLast?_cons_cons]
      exact ⟨wellFormed_cons_cons.mpr (.inr ⟨hsingle.1, hsingle.2.1, hparts.1⟩), hparts.2⟩

theorem wellFormed_ends (h : wellFormed text = true) : (∀ first ∈ text.head?, isLow first = false) ∧
      ∀ last ∈ text.getLast?, isHigh last = false := by
  induction text using wellFormed.induct with
  | case1 => simp
  | case2 unit =>
    simp only [wellFormed, Bool.and_eq_true, Bool.not_eq_eq_eq_not, Bool.not_true] at h
    simp [h.1, h.2]
  | case3 unit next rest hhigh ih =>
    cases wellFormed_cons_cons.mp h with
    | inl hpair =>
      refine ⟨?_, ?_⟩
      · intro first hfirst
        rw [← Option.some.inj hfirst]
        exact isHigh_isLow unit hhigh
      · intro last hlast
        cases rest with
        | nil =>
          have heq : next = last := Option.some.inj hlast
          rw [← heq]
          cases hnext : isHigh next with
          | false => rfl
          | true =>
            rw [isHigh_isLow next hnext] at hpair
            cases hpair.2.1
        | cons later rest =>
          rw [getLast?_cons_cons, getLast?_cons_cons] at hlast
          exact (ih hpair.2.2).2 last hlast
    | inr hsingle =>
      rw [hhigh] at hsingle
      cases hsingle.1
  | case4 unit next rest hhigh ih =>
    cases wellFormed_cons_cons.mp h with
    | inl hpair => exact absurd hpair.1 hhigh
    | inr hsingle =>
      refine ⟨?_, ?_⟩
      · intro first hfirst
        rw [← Option.some.inj hfirst]
        exact hsingle.2.1
      · intro last hlast
        rw [getLast?_cons_cons] at hlast
        exact (ih hsingle.2.2).2 last hlast

theorem length_encode_le (text : List Unit) : (encode text).length ≤ 3 * text.length := by
  have hunit : ∀ unit : Unit, (Scalar.ofUnit unit).bytes.length ≤ 3 := by
    intro unit
    have hlt : (Scalar.ofUnit unit).val < 0x10000 := by
      rw [Scalar.ofUnit]
      split
      · exact unit.isLt
      · decide
    rw [Scalar.bytes]
    split
    · simp
    split
    · simp
    simp
  have hscalar : ∀ scalar : Scalar, scalar.bytes.length ≤ 4 := by
    intro scalar
    rw [Scalar.bytes]
    split
    · simp
    split
    · simp
    split
    · simp
    · simp
  induction text using scalars.induct with
  | case1 => simp [encode, scalars]
  | case2 unit => simpa [encode, scalars] using hunit unit
  | case3 unit next rest h ih =>
    have := hscalar (.ofPair unit next h)
    simp only [encode] at ih
    simp only [encode, scalars, h, and_self, dif_pos, flatMap_cons, length_append,
      length_cons]
    omega
  | case4 unit next rest h ih =>
    have := hunit unit
    simp only [encode] at ih
    rw [encode, scalars, dif_neg h, flatMap_cons, length_append]
    simp only [length_cons] at ih ⊢
    omega

end Utf8
