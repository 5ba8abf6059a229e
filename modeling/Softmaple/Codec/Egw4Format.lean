import Softmaple.Codec.BinaryIo
import Mathlib.Data.Nat.Bitwise

/-!
The EGW4 wire format (`graph/columnar-codec/egw4-format.ts`): its constants, the
wrapped anchor deltas of operation spans, and the checksum that ends a payload.
-/
namespace Softmaple.Codec

def egw4Magic : List Byte := [Utf8.byte 0x45, Utf8.byte 0x47, Utf8.byte 0x57, Utf8.byte 0x34]

inductive SpanKind where
  | insert
  | delete
  | backspace
  deriving DecidableEq, Repr

def SpanKind.code : SpanKind → Nat
  | .insert => 0
  | .delete => 1
  | .backspace => 2

inductive SegmentMode where
  | sameStep
  | newStep
  | literal
  deriving DecidableEq, Repr

def SegmentMode.code : SegmentMode → Nat
  | .sameStep => 0
  | .newStep => 1
  | .literal => 2

def egw4ManyParents : Nat := 3

/-- Shortest run of equal values that an unsigned run column repeats. -/
def egw4MinRepeat : Nat := 3

def egw4ChecksumBytes : Nat := 4

def egw4MaxEvents : Nat := 2 ^ 25

def uint32Max : Nat := 0xffffffff

/-- 2^53, the count of non-negative safe integers. -/
def positionModulus : Int := 0x20000000000000

def halfPositionModulus : Int := 0x10000000000000

/-- `anchor - cursor` modulo 2^53, from -2^52 to 2^52 - 1. -/
def wrapAnchorDelta (anchor cursor : Nat) : Int :=
  let delta : Int := anchor - cursor
  if halfPositionModulus ≤ delta then delta - positionModulus
  else if delta < -halfPositionModulus then delta + positionModulus
  else delta

/-- The position a wrapped `delta` takes `cursor` to. -/
def unwrapAnchor (cursor : Nat) (delta : Int) : Nat :=
  if 0 ≤ delta then
    let headroom : Int := positionModulus - cursor
    if delta < headroom then (cursor + delta).toNat else (delta - headroom).toNat
  else
    let anchor : Int := cursor + delta
    if 0 ≤ anchor then anchor.toNat else (anchor + positionModulus).toNat

variable {cursor : Nat}

section

variable (hcursor : cursor ≤ maxSafeInteger)
include hcursor

theorem wrapAnchorDelta_spec {anchor : Nat} (hanchor : anchor ≤ maxSafeInteger) :
    (-0x10000000000000 ≤ wrapAnchorDelta anchor cursor ∧
      wrapAnchorDelta anchor cursor < 0x10000000000000) ∧
    (cursor + wrapAnchorDelta anchor cursor) % positionModulus = anchor := by
  have hmax : maxSafeInteger = 9007199254740991 := rfl
  have hmodulus : positionModulus = 0x20000000000000 := rfl
  have hhalf : halfPositionModulus = 0x10000000000000 := rfl
  rw [wrapAnchorDelta, hmodulus]
  by_cases hhigh : halfPositionModulus ≤ (anchor : Int) - cursor
  · rw [if_pos hhigh]
    omega
  by_cases hlow : (anchor : Int) - cursor < -halfPositionModulus
  · rw [if_neg hhigh, if_pos hlow]
    omega
  · rw [if_neg hhigh, if_neg hlow]
    omega

theorem unwrapAnchor_eq_emod {delta : Int}
    (hdelta : -0x10000000000000 ≤ delta ∧ delta < 0x10000000000000) :
    (unwrapAnchor cursor delta : Int) = (cursor + delta) % positionModulus := by
  have hmax : maxSafeInteger = 9007199254740991 := rfl
  have hmodulus : positionModulus = 0x20000000000000 := rfl
  rw [unwrapAnchor, hmodulus]
  by_cases hpos : 0 ≤ delta
  · rw [if_pos hpos]
    by_cases hroom : delta < 0x20000000000000 - cursor
    · rw [if_pos hroom]
      omega
    · rw [if_neg hroom]
      omega
  · rw [if_neg hpos]
    by_cases hback : 0 ≤ (cursor : Int) + delta
    · rw [if_pos hback]
      omega
    · rw [if_neg hback]
      omega

theorem unwrapAnchor_wrapAnchorDelta {anchor : Nat} (hanchor : anchor ≤ maxSafeInteger) :
    unwrapAnchor cursor (wrapAnchorDelta anchor cursor) = anchor := by
  obtain ⟨hrange, hturns⟩ := wrapAnchorDelta_spec hcursor hanchor
  exact Int.ofNat_inj.mp ((unwrapAnchor_eq_emod hcursor hrange).trans hturns)

theorem unwrapAnchor_le {delta : Int}
    (hdelta : -0x10000000000000 ≤ delta ∧ delta < 0x10000000000000) :
    unwrapAnchor cursor delta ≤ maxSafeInteger := by
  have hmax : maxSafeInteger = 9007199254740991 := rfl
  have hmodulus : positionModulus = 0x20000000000000 := rfl
  have hunwrap := unwrapAnchor_eq_emod hcursor hdelta
  rw [hmodulus] at hunwrap
  omega

end

def crc32Bit (crc : Nat) : Nat :=
  if crc % 2 = 1 then Nat.xor 0xedb88320 (crc / 2) else crc / 2

/-- `CRC32_TABLES[byte]`. -/
def crc32Table (byte : Nat) : Nat := Nat.iterate crc32Bit 8 byte

def crc32 (bytes : List Byte) : Nat :=
  Nat.xor (bytes.foldl
      (fun crc byte => Nat.xor (crc32Table (Nat.xor crc byte.val % 0x100)) (crc / 0x100))
      0xffffffff)
    0xffffffff

theorem xor_lt {a b : Nat} (ha : a < 2 ^ 32) (hb : b < 2 ^ 32) : Nat.xor a b < 2 ^ 32 :=
  Nat.xor_lt_two_pow ha hb

theorem crc32Table_lt (byte : Nat) (h : byte < 2 ^ 32) : crc32Table byte < 2 ^ 32 := by
  have hbit : ∀ crc, crc < 2 ^ 32 → crc32Bit crc < 2 ^ 32 := by
    intro crc hcrc
    rw [crc32Bit]
    split
    · exact xor_lt (by decide) (by omega)
    · omega
  have hiterate : ∀ n crc, crc < 2 ^ 32 → Nat.iterate crc32Bit n crc < 2 ^ 32 := by
    intro n
    induction n with
    | zero => exact fun crc hcrc => hcrc
    | succ n ih => exact fun crc hcrc => ih _ (hbit crc hcrc)
  exact hiterate 8 byte h

theorem crc32_lt (bytes : List Byte) : crc32 bytes < 2 ^ 32 := by
  have hfold : ∀ crc, crc < 2 ^ 32 →
      bytes.foldl (fun crc byte =>
        Nat.xor (crc32Table (Nat.xor crc byte.val % 0x100)) (crc / 0x100)) crc < 2 ^ 32 := by
    induction bytes with
    | nil => exact fun crc hcrc => hcrc
    | cons byte rest ih =>
      intro crc hcrc
      exact ih _ (xor_lt (crc32Table_lt _ (by omega)) (by omega))
  exact xor_lt (hfold _ (by decide)) (by decide)

end Softmaple.Codec
