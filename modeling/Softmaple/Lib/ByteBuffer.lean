import Mathlib

/-!
Fixed-width numbers in a byte buffer, in either byte order. What was written at
a place is read there again, and a column of equally wide items is read item by
item.
-/

namespace Softmaple.ByteBuffer

/-- The little-endian bytes of a number. -/
def digits : Nat → Nat → List UInt8
  | 0, _ => []
  | width + 1, n => UInt8.ofNat n :: digits width (n / 256)

def ofDigits : List UInt8 → Nat
  | [] => 0
  | byte :: bytes => byte.toNat + 256 * ofDigits bytes

def encode (littleEndian : Bool) (width n : Nat) : List UInt8 :=
  if littleEndian then digits width n else (digits width n).reverse

def decode (littleEndian : Bool) (bytes : List UInt8) : Nat :=
  ofDigits (if littleEndian then bytes else bytes.reverse)

def getBytes (data : List UInt8) (place width : Nat) : Option (List UInt8) :=
  if place + width ≤ data.length then some ((data.drop place).take width) else none

def get (littleEndian : Bool) (data : List UInt8) (place width : Nat) : Option Nat :=
  (getBytes data place width).map (decode littleEndian)

def setBytes (data : List UInt8) (place : Nat) (bytes : List UInt8) : List UInt8 :=
  data.take place ++ bytes ++ data.drop (place + bytes.length)

theorem length_digits (width n : Nat) : (digits width n).length = width := by
  induction width generalizing n with
  | zero => rfl
  | succ width ih => exact congrArg (· + 1) (ih (n / 256))

theorem length_encode (littleEndian : Bool) (width n : Nat) :
    (encode littleEndian width n).length = width := by
  cases littleEndian <;> simp [encode, length_digits]

variable {width : Nat}

theorem ofDigits_digits {n : Nat} (h : n < 256 ^ width) : ofDigits (digits width n) = n := by
  induction width generalizing n with
  | zero =>
    rw [Nat.pow_zero] at h
    exact (Nat.lt_one_iff.mp h).symm
  | succ width ih =>
    have hrest : n / 256 < 256 ^ width := by
      refine (Nat.div_lt_iff_lt_mul (by decide)).mpr ?_
      rwa [← Nat.pow_succ]
    have hbyte : (UInt8.ofNat n).toNat = n % 256 := UInt8.toNat_ofNat'
    rw [digits, ofDigits, hbyte, ih hrest]
    omega

theorem decode_encode (littleEndian : Bool) {n : Nat} (h : n < 256 ^ width) :
    decode littleEndian (encode littleEndian width n) = n := by
  cases littleEndian <;> simp [decode, encode, ofDigits_digits h]

def Holds (data : List UInt8) (place : Nat) (bytes : List UInt8) : Prop :=
  ∃ before after, data = before ++ bytes ++ after ∧ before.length = place

variable {data : List UInt8}

variable {place : Nat}

theorem Holds.left {a b : List UInt8} (h : Holds data place (a ++ b)) :
    Holds data place a := by
  obtain ⟨before, after, hdata, hplace⟩ := h
  exact ⟨before, b ++ after, by simp [hdata], hplace⟩

theorem Holds.right {a b : List UInt8} (h : Holds data place (a ++ b)) :
    Holds data (place + a.length) b := by
  obtain ⟨before, after, hdata, hplace⟩ := h
  exact ⟨before ++ a, after, by simp [hdata], by simp [hplace]⟩

theorem Holds.head {byte : UInt8} {bytes : List UInt8} (h : Holds data place (byte :: bytes)) :
    data[place]? = some byte ∧ Holds data (place + 1) bytes := by
  refine ⟨?_, Holds.right (a := [byte]) h⟩
  obtain ⟨before, after, rfl, rfl⟩ := h
  simp

theorem Holds.getBytes {bytes : List UInt8} (h : Holds data place bytes) :
    getBytes data place bytes.length = some bytes := by
  obtain ⟨before, after, rfl, rfl⟩ := h
  unfold ByteBuffer.getBytes
  rw [if_pos (by simp), List.append_assoc, List.drop_left, List.take_left]

theorem Holds.get {n : Nat} {littleEndian : Bool}
    (h : Holds data place (encode littleEndian width n)) (hn : n < 256 ^ width) :
    get littleEndian data place width = some n := by
  have hbytes := h.getBytes
  rw [length_encode] at hbytes
  rw [ByteBuffer.get, hbytes, Option.map_some, decode_encode _ hn]

theorem Holds.item {α : Type} {bytes : α → List UInt8}
    (hwidth : ∀ a, (bytes a).length = width) {items : List α}
    (h : Holds data place (items.flatMap bytes)) {i : Nat} (hi : i < items.length) :
    Holds data (place + i * width) (bytes items[i]) := by
  induction items generalizing place i with
  | nil => cases hi
  | cons a items ih =>
    rw [List.flatMap_cons] at h
    cases i with
    | zero => simpa using h.left
    | succ i =>
      have hrest := ih (i := i) h.right (by simpa using hi)
      rw [hwidth] at hrest
      have hplace : place + (i + 1) * width = place + width + i * width := by ring
      rw [hplace]
      exact hrest

theorem length_flatMap_width {α : Type} {bytes : α → List UInt8}
    (hwidth : ∀ a, (bytes a).length = width) (items : List α) :
    (items.flatMap bytes).length = items.length * width := by
  induction items with
  | nil => simp
  | cons a items ih => rw [List.flatMap_cons, List.length_append, ih, hwidth, List.length_cons]; ring

end Softmaple.ByteBuffer
