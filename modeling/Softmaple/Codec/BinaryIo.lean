import Softmaple.EgWalker.EventId
import Softmaple.Lib.ListReader
import Mathlib.Tactic.NormNum

/-!
Binary input and output (`graph/internals/binary-io.ts`): unsigned LEB128
varints of safe integers, zigzag varints and length-prefixed bytes. A writer is
the bytes it appends; a reader takes them off the front of the input.
-/
namespace Softmaple.Codec

open ListReader

abbrev Byte := Utf8.Byte

/-- The ways an encoder or a decoder throws. -/
inductive CodecError where
  | invalidVarintValue (value : Nat)
  | invalidZigZagVarintValue (value : Int)
  | unexpectedEndOfVarint
  | varintExceedsMaxSafeInteger
  | varintExceedsMaxBytes
  | unexpectedEnd
  | invalidUtf8
  | invalidMetadata
  | metadataNotObject
  | invalidEventId (eventOffset : Nat)
  | invalidParentId (id : Text)
  | invalidTimestamp (id : Text)
  | invalidOperationIndex (id : Text)
  | invalidDeleteLength (id : Text)
  | loneSurrogate (id : Text)
  | operationEnd (id : Text)
  | duplicateEventId (id : Text)
  | notTopological (id parentId : Text)
  | orderCount
  | frontierOrder
  | cycle
  | tooManyEvents (count : Nat)
  | idRunCount (covered count : Nat)
  | overrideCount (expected found : Nat)
  | checksumMismatch
  | invalidHeader
  | eventLimit (count limit : Nat)
  | emptyIdString (index : Nat)
  | repeatedIdString (index : Nat)
  | missingIdString (run stringIndex : Nat)
  | canonicalCustomId (id : Text)
  | invalidIdRunLength (run length : Nat)
  | idRunSequence (run : Nat)
  | invalidOverrideCount (count : Nat)
  | invalidOverrideOffset (offset : Nat)
  | invalidParentCount (offset count : Nat)
  | parentNotBefore (offset : Nat)
  | repeatedParent (offset : Nat)
  | redundantOverride (offset : Nat)
  | tooManyEdges
  | invalidLengthRun (offset length : Nat)
  | invalidSpanLength (offset length : Nat)
  | invalidSpanIndex (offset : Nat)
  | unknownSpanKind (kind offset : Nat)
  | insertedContentRange
  | insertedContentSize (expected found : Nat)
  | insertNotWellFormed (offset : Nat)
  | invalidSegmentLength (offset length : Nat)
  | unknownSegmentMode (mode offset : Nat)
  | timestampRange (offset : Nat)
  | trailingBytes
  | invalidIdRun (run : Nat)
  | duplicateColumnarId (id : Text)
  | unknownFrontierEvent (id : Text)
  deriving DecidableEq, Repr

abbrev BinaryReader (α : Type) := ListReader Byte CodecError α

def isSafeInt (value : Int) : Bool := -maxSafeInteger ≤ value && value ≤ maxSafeInteger

/-- The sum of two safe integers as doubles: above `2 ^ 53` only even numbers are
doubles, and ties go to multiples of four. -/
def numberAdd (a b : Nat) : Nat :=
  let sum := a + b
  if sum ≤ 2 ^ 53 ∨ sum % 2 = 0 then sum else if sum % 4 = 1 then sum - 1 else sum + 1

def zigzagEncode (value : Int) : Nat :=
  if 0 ≤ value then (value * 2).toNat else (value * -2 - 1).toNat

def zigzagDecode (value : Nat) : Int :=
  if value % 2 = 0 then (value / 2 : Nat) else -((value + 1) / 2 : Nat)

/-- The bytes of a varint; `fuel` bounds how many follow the first. -/
def varintBytes : Nat → Nat → List Byte
  | 0, remaining => [Utf8.byte remaining]
  | fuel + 1, remaining =>
    if 0x80 ≤ remaining then
      Utf8.byte (remaining % 0x80 + 0x80) :: varintBytes fuel (remaining / 0x80)
    else [Utf8.byte remaining]

/-- Seven bits a byte: eight bytes hold every safe integer. -/
def maxVarintBytes : Nat := 8

def writeVarint (value : Nat) : Except CodecError (List Byte) :=
  if isSafeInteger value then .ok (varintBytes (maxVarintBytes - 1) value)
  else .error (.invalidVarintValue value)

def writeZigZagVarint (value : Int) : Except CodecError (List Byte) :=
  if isSafeInt value then writeVarint (zigzagEncode value)
  else .error (.invalidZigZagVarintValue value)

def writeBytes (bytes : List Byte) : Except CodecError (List Byte) :=
  (writeVarint bytes.length).map (· ++ bytes)

def encodeText (value : Text) : List Byte := Utf8.encode value

def writeString (value : Text) : Except CodecError (List Byte) := writeBytes (encodeText value)

def writeUint32LE (value : Nat) : List Byte :=
  [Utf8.byte value, Utf8.byte (value / 0x100), Utf8.byte (value / 0x10000),
    Utf8.byte (value / 0x1000000)]

def readVarintLoop : Nat → Nat → Nat → List Byte → Except CodecError (Nat × List Byte)
  | 0, _, _, _ => .error .varintExceedsMaxBytes
  | _ + 1, _, _, [] => .error .unexpectedEndOfVarint
  | fuel + 1, value, multiplier, byte :: rest =>
    if maxSafeInteger < value + byte.val % 0x80 * multiplier then
      .error .varintExceedsMaxSafeInteger
    else if byte.val < 0x80 then .ok (value + byte.val % 0x80 * multiplier, rest)
    else readVarintLoop fuel (value + byte.val % 0x80 * multiplier) (multiplier * 0x80) rest

def readVarint : BinaryReader Nat := ⟨readVarintLoop maxVarintBytes 0 1⟩

def readZigZagVarint : BinaryReader Int := zigzagDecode <$> readVarint

def readByteView (length : Nat) : BinaryReader (List Byte) := take length .unexpectedEnd

def decodeTextStrict (bytes : List Byte) : Except CodecError Text :=
  match Utf8.decode bytes with
  | some text => .ok text
  | none => .error .invalidUtf8

theorem numberAdd_of_le {a b : Nat} (h : a + b ≤ maxSafeInteger + 1) : numberAdd a b = a + b :=
  if_pos (.inl h)

theorem varintBytes_pos (fuel value : Nat) : 1 ≤ (varintBytes fuel value).length := by
  cases fuel with
  | zero => exact Nat.le_refl 1
  | succ fuel =>
    rw [varintBytes]
    split
    · simp
    · simp

theorem readVarintLoop_varintBytes (fuel value remaining multiplier : Nat) (rest : List Byte)
    (hlt : remaining < 0x80 ^ (fuel + 1))
    (hsafe : value + remaining * multiplier ≤ maxSafeInteger) :
    readVarintLoop (fuel + 1) value multiplier (varintBytes fuel remaining ++ rest) =
      .ok (value + remaining * multiplier, rest) := by
  -- the last byte holds what is left
  have hlast : ∀ fuel value remaining multiplier : Nat, remaining < 0x80 →
      value + remaining * multiplier ≤ maxSafeInteger →
      readVarintLoop (fuel + 1) value multiplier (Utf8.byte remaining :: rest) =
        .ok (value + remaining * multiplier, rest) := by
    intro fuel value remaining multiplier hsmall hle
    rw [readVarintLoop, Utf8.val_byte (by omega), Nat.mod_eq_of_lt hsmall, if_neg (by omega),
      if_pos hsmall]
  induction fuel generalizing value remaining multiplier with
  | zero => exact hlast 0 value remaining multiplier (by omega) hsafe
  | succ fuel ih =>
    rw [varintBytes]
    by_cases hbig : 0x80 ≤ remaining
    · have hmod : (remaining % 0x80 + 0x80) % 0x80 = remaining % 0x80 := by omega
      have hsum : value + remaining % 0x80 * multiplier + remaining / 0x80 * (multiplier * 0x80) =
          value + remaining * multiplier := by
        conv_rhs => rw [← Nat.mod_add_div remaining 0x80]
        ring
      have hnext : remaining / 0x80 < 0x80 ^ (fuel + 1) := by
        rw [Nat.pow_succ] at hlt
        omega
      rw [if_pos hbig, List.cons_append, readVarintLoop, Utf8.val_byte (by omega), hmod,
        if_neg (by omega), if_neg (by omega)]
      rw [ih _ _ _ hnext (by omega), hsum]
    · rw [if_neg hbig]
      exact hlast (fuel + 1) value remaining multiplier (by omega) hsafe

theorem reads_varint {value : Nat} (h : value ≤ maxSafeInteger) :
    Reads readVarint (varintBytes (maxVarintBytes - 1) value) value := by
  intro rest
  have hlt : value < 0x80 ^ maxVarintBytes := by
    rw [maxSafeInteger] at h
    rw [maxVarintBytes]
    omega
  have hread := readVarintLoop_varintBytes (maxVarintBytes - 1) 0 value 1 rest hlt (by omega)
  rw [Nat.zero_add, Nat.mul_one] at hread
  exact hread

variable {bytes : List Byte}

theorem writeVarint_eq_ok {value : Nat} : writeVarint value = .ok bytes ↔
      value ≤ maxSafeInteger ∧ bytes = varintBytes (maxVarintBytes - 1) value := by
  rw [writeVarint]
  split
  · next h => simp_all [isSafeInteger, eq_comm]
  · next h => simp_all [isSafeInteger]

theorem zigzagDecode_zigzagEncode (value : Int) : zigzagDecode (zigzagEncode value) = value := by
  rw [zigzagEncode]
  split
  · rw [zigzagDecode, if_pos (by omega)]
    omega
  · rw [zigzagDecode, if_neg (by omega)]
    omega

theorem zigzagEncode_safe_iff (value : Int) :
    zigzagEncode value ≤ maxSafeInteger ↔ -0x10000000000000 ≤ value ∧ value < 0x10000000000000 := by
  rw [zigzagEncode, maxSafeInteger]
  split
  · omega
  · omega

theorem writeZigZagVarint_eq_ok {value : Int} :
    writeZigZagVarint value = .ok bytes ↔ (-0x10000000000000 ≤ value ∧ value < 0x10000000000000) ∧
        bytes = varintBytes (maxVarintBytes - 1) (zigzagEncode value) := by
  rw [writeZigZagVarint]
  split
  · rw [writeVarint_eq_ok, zigzagEncode_safe_iff]
  · next h =>
      refine iff_of_false (by simp) fun hvalue => h ?_
      have hmax : maxSafeInteger = 9007199254740991 := rfl
      simp only [isSafeInt, Bool.and_eq_true, decide_eq_true_eq, hmax]
      omega

theorem reads_zigZagVarint {value : Int}
    (h : -0x10000000000000 ≤ value ∧ value < 0x10000000000000) :
    Reads readZigZagVarint (varintBytes (maxVarintBytes - 1) (zigzagEncode value)) value := by
  have hread := (reads_varint ((zigzagEncode_safe_iff value).mpr h)).map zigzagDecode
  rw [zigzagDecode_zigzagEncode] at hread
  exact hread

theorem writeBytes_eq_ok {written : List Byte} :
    writeBytes bytes = .ok written ↔ bytes.length ≤ maxSafeInteger ∧
      written = varintBytes (maxVarintBytes - 1) bytes.length ++ bytes := by
  rw [writeBytes, writeVarint]
  split
  · next h =>
      simp only [isSafeInteger, decide_eq_true_eq] at h
      simp [Except.map, h, eq_comm]
  · next h =>
      simp only [isSafeInteger, decide_eq_true_eq] at h
      simp [Except.map, h]

theorem reads_bytes (h : bytes.length ≤ maxSafeInteger) :
    Reads (readVarint >>= readByteView) (varintBytes (maxVarintBytes - 1) bytes.length ++ bytes)
      bytes := by
  have htake : Reads (readByteView bytes.length) bytes bytes :=
    reads_take bytes CodecError.unexpectedEnd
  exact (reads_varint h).bind htake

end Softmaple.Codec
