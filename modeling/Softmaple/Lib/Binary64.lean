import Mathlib

/-!
Doubles as numbers. A double is unpacked to a canonical mantissa and exponent,
its magnitude is a multiple of the least positive double, and an operation whose
exact result is a double returns that double.
-/

namespace Softmaple.Binary64

open Float.Model Float.Model.UnpackedFloat UnpackedFloat

theorem sign_toBitVec (b : BitVec 1) : (Sign.ofBitVec b).toBitVec = b := by
  revert b; decide

theorem sign_ofBitVec (s : Sign) : Sign.ofBitVec s.toBitVec = s := by
  cases s <;> rfl

theorem packComponents_unpack (b : BitVec 64) :
    packComponents Format.binary64 (Sign.ofBitVec (@unpackSign Format.binary64 b))
      (@unpackExponent Format.binary64 b)
      (@unpackMantissa Format.binary64 b) = b := by
  unfold packComponents
  rw [sign_toBitVec]
  apply BitVec.eq_of_getLsbD_eq
  intro i hi
  change i < 64 at hi
  simp only [BitVec.getLsbD_append, unpackSign, unpackExponent, unpackMantissa,
    BitVec.getLsbD_cast, BitVec.getLsbD_extractLsb]
  split
  · simp only [Nat.sub_zero, Nat.zero_add, Bool.and_eq_right_iff_imp, decide_eq_true_eq]
    intro; omega
  · split
    · rename_i hlow hmiddle
      have hindex : 52 + (i - 52) = i := by omega
      simp only [Nat.reduceAdd, Nat.reduceSub, hindex, Bool.and_eq_right_iff_imp,
        decide_eq_true_eq]
      intro; omega
    · rename_i hlow hmiddle
      have hindex : 52 + 11 + (i - 52 - 11) = i := by omega
      have hlast : i - 52 - 11 < 52 + 11 - (52 + 11) + 1 := by omega
      simp only [hindex, hlast, decide_true, Bool.true_and]

theorem unpackSign_packComponents (s : Sign) (e : BitVec 11) (m : BitVec 52) :
    @unpackSign Format.binary64 (packComponents Format.binary64 s e m) =
      s.toBitVec := by
  apply BitVec.eq_of_getLsbD_eq
  intro i hi
  have hzero : i = 0 := by omega
  subst hzero
  simp only [unpackSign, packComponents, BitVec.getLsbD_cast, BitVec.getLsbD_extractLsb,
    BitVec.getLsbD_append]
  simp

structure IsCanonical (m : Nat) (e : Int) : Prop where
  mantissa : m < 2 ^ 53
  exponent : -1074 ≤ e
  normal : 2 ^ 52 ≤ m ∨ e = -1074

def Canonical : UnpackedFloat → Prop
  | .finite _ m e _ => IsCanonical m e ∧ e ≤ 971
  | _ => True

theorem toNat_one_append (m : BitVec 52) : (1#1 ++ m).toNat = 2 ^ 52 + m.toNat := by
  rw [BitVec.toNat_append, ← Nat.shiftLeft_add_eq_or_of_lt m.isLt]
  simp [Nat.shiftLeft_eq]

theorem exponent_ne_zero {x : BitVec 11} (h : x ≠ 0#11) : x.toNat ≠ 0 := by
  intro hzero
  exact h (BitVec.eq_of_toNat_eq hzero)

theorem exponent_ne_full {x : BitVec 11} (h : x ≠ -1#11) : x.toNat ≠ 2047 := by
  intro hfull
  exact h (BitVec.eq_of_toNat_eq hfull)

variable {m : Nat}

theorem log2_normal (hlow : 2 ^ 52 ≤ m) (hhigh : m < 2 ^ 53) : m.log2 = 52 :=
  (Nat.log2_eq_iff (by omega)).mpr ⟨hlow, hhigh⟩

theorem log2_subnormal (hpos : 0 < m) (h : m < 2 ^ 52) : m.log2 < 52 :=
  (Nat.log2_lt (by omega)).mpr h

theorem canonical_unpack (f : Float.Model) : Canonical f.unpack := by
  unfold Float.Model.unpack UnpackedFloat.unpack
  dsimp only
  split
  · split <;> trivial
  · rename_i hfull
    split
    · split
      · trivial
      · rename_i hzero hmantissa
        refine ⟨⟨?_, ?_, Or.inr ?_⟩, ?_⟩
        · have h := (@unpackMantissa Format.binary64 f.toBits.toBitVec).isLt
          change _ < 2 ^ 52 at h
          omega
        all_goals rw [hzero]; decide
    · rename_i hzero
      have hx := (@unpackExponent Format.binary64 f.toBits.toBitVec).isLt
      have hm := (@unpackMantissa Format.binary64 f.toBits.toBitVec).isLt
      have hpos := exponent_ne_zero hzero
      have hcap := exponent_ne_full hfull
      change _ < 2 ^ 11 at hx
      change _ < 2 ^ 52 at hm
      have hbias : ((Format.binary64.exponentBias : Int) +
          Format.binary64.mantissaBitsWithoutImplicit) = 1075 := by decide
      refine ⟨⟨?_, ?_, Or.inl ?_⟩, ?_⟩
      · rw [toNat_one_append]; omega
      · rw [hbias]; omega
      · rw [toNat_one_append]; omega
      · rw [hbias]; omega

theorem pack_finite (s : Sign) (m : Nat) (e : Int) (h : 0 < m) :
    UnpackedFloat.pack Format.binary64 (.finite s m e h) =
      if 2048 ≤ (e + 1075).toNat + 1 then packedInfinity Format.binary64 s
      else if m.log2 + 1 = 53 then
        packComponents Format.binary64 s (BitVec.ofNat 11 (e + 1075).toNat) (BitVec.ofNat 52 m)
      else packComponents Format.binary64 s 0#11 (BitVec.ofNat 52 m) := by
  have hbias : e + Format.binary64.exponentBias +
      Format.binary64.mantissaBitsWithoutImplicit = e + 1075 := by
    change e + (1023 : Nat) + (52 : Nat) = _
    omega
  unfold UnpackedFloat.pack
  simp only [hbias]
  rfl

theorem pack_normal (s : Sign) (x : BitVec 11) (m : BitVec 52) (h : 0 < (1#1 ++ m).toNat)
    (hzero : x ≠ 0#11) (hfull : x ≠ -1#11) :
    UnpackedFloat.pack Format.binary64 (.finite s (1#1 ++ m).toNat (x.toNat - 1075) h) =
      packComponents Format.binary64 s x m := by
  have hx : x.toNat < 2 ^ 11 := x.isLt
  have hpos := exponent_ne_zero hzero
  have hcap := exponent_ne_full hfull
  have hm := m.isLt
  have hlog : (1#1 ++ m).toNat.log2 = 52 := by
    rw [toNat_one_append]
    exact log2_normal (by omega) (by omega)
  have hexponent : ((x.toNat : Int) - 1075 + 1075).toNat = x.toNat := by omega
  have hmantissa : BitVec.ofNat 52 (1#1 ++ m).toNat = m := by
    apply BitVec.eq_of_toNat_eq
    rw [BitVec.toNat_ofNat, toNat_one_append]
    omega
  rw [pack_finite, hexponent, if_neg (by omega), hlog, if_pos rfl, hmantissa,
    BitVec.ofNat_toNat, BitVec.setWidth_eq]

theorem pack_subnormal (s : Sign) (m : BitVec 52) (h : 0 < m.toNat) :
    UnpackedFloat.pack Format.binary64 (.finite s m.toNat (-1074) h) =
      packComponents Format.binary64 s 0#11 m := by
  have hlog := log2_subnormal h m.isLt
  rw [pack_finite, if_neg (by decide), if_neg (by omega), BitVec.ofNat_toNat,
    BitVec.setWidth_eq]

theorem pack_unpack (f : Float.Model) : Float.Model.pack f.unpack = f := by
  obtain ⟨bits, valid⟩ := f
  have hparts := packComponents_unpack bits.toBitVec
  suffices h : UnpackedFloat.pack Format.binary64
      (UnpackedFloat.unpack Format.binary64 bits.toBitVec) = bits.toBitVec by
    simp only [Float.Model.pack, Float.Model.unpack, h, UInt64.ofBitVec_toBitVec]
  have hvalid := valid.eq_packedNaN
  generalize hs : @unpackSign Format.binary64 bits.toBitVec = s at *
  generalize hx : @unpackExponent Format.binary64 bits.toBitVec = x at *
  generalize hm : @unpackMantissa Format.binary64 bits.toBitVec = m at *
  unfold UnpackedFloat.unpack
  simp only [hs, hx, hm]
  split
  · rename_i hfull
    split
    · rename_i hzero
      rw [← hparts, hfull, hzero]
      rfl
    · rename_i hzero
      exact (hvalid hfull hzero).symm
  · rename_i hfull
    split
    · rename_i hexponent
      split
      · rename_i hzero
        rw [← hparts, hexponent, hzero]
        rfl
      · refine Eq.trans ?_ hparts
        subst hexponent
        exact pack_subnormal _ m _
    · rename_i hexponent
      exact (pack_normal _ x m _ hexponent hfull).trans hparts

theorem unpack_injective {f g : Float.Model} (h : f.unpack = g.unpack) : f = g := by
  rw [← pack_unpack f, h, pack_unpack g]

theorem unpack_normal (s : Sign) (x : BitVec 11) (m : BitVec 52) (hzero : x ≠ 0#11)
    (hfull : x ≠ -1#11) :
    UnpackedFloat.unpack Format.binary64 (packComponents Format.binary64 s x m) =
      .finite s (1#1 ++ m).toNat (x.toNat - 1075) (by rw [toNat_one_append]; omega) := by
  unfold UnpackedFloat.unpack
  simp only [unpackMantissa_packComponents, unpackExponent_packComponents,
    unpackSign_packComponents, sign_ofBitVec, hzero, hfull, if_false]
  rfl

theorem unpack_subnormal (s : Sign) (m : BitVec 52) (h : m ≠ 0#52) :
    UnpackedFloat.unpack Format.binary64 (packComponents Format.binary64 s 0#11 m) =
      .finite s m.toNat (-1074) (Nat.pos_of_ne_zero fun hzero =>
        h (BitVec.eq_of_toNat_eq hzero)) := by
  unfold UnpackedFloat.unpack
  have hfull : ¬(0#11 = -1#11) := by decide
  simp only [unpackMantissa_packComponents, unpackExponent_packComponents,
    unpackSign_packComponents, sign_ofBitVec, hfull, h, if_false, if_true, dite_false]
  rfl

variable {e : Int}

theorem unpack_pack_finite (h : IsCanonical m e) (s : Sign) (hpos : 0 < m) :
    UnpackedFloat.unpack Format.binary64 (UnpackedFloat.pack Format.binary64 (.finite s m e hpos)) =
      if e ≤ 971 then .finite s m e hpos else .infinity s := by
  obtain ⟨hm, he, hnormal⟩ := h
  rw [pack_finite]
  by_cases hover : 2048 ≤ (e + 1075).toNat + 1
  · rw [if_pos hover, if_neg (by omega)]
    cases s <;> rfl
  have hfits : e ≤ 971 := by omega
  rw [if_neg hover, if_pos hfits]
  by_cases hlow : 2 ^ 52 ≤ m
  · have hx : (BitVec.ofNat 11 (e + 1075).toNat).toNat = (e + 1075).toNat := by
      rw [BitVec.toNat_ofNat, Nat.mod_eq_of_lt (by omega)]
    have hmantissa : (1#1 ++ BitVec.ofNat 52 m).toNat = m := by
      rw [toNat_one_append, BitVec.toNat_ofNat]
      omega
    rw [log2_normal hlow hm, if_pos rfl, unpack_normal]
    · simp only [hx, hmantissa]
      congr 1
      omega
    · intro hzero
      rw [hzero] at hx
      change 0 = _ at hx
      omega
    · intro hfull
      rw [hfull] at hx
      change 2047 = _ at hx
      omega
  · have hlog := log2_subnormal hpos (by omega)
    have hmantissa : (BitVec.ofNat 52 m).toNat = m := by
      rw [BitVec.toNat_ofNat, Nat.mod_eq_of_lt (by omega)]
    have hleast : e = -1074 := hnormal.resolve_left hlow
    rw [if_neg (by omega), unpack_subnormal]
    · simp only [hmantissa, hleast]
    · intro hzero
      rw [hzero] at hmantissa
      change 0 = _ at hmantissa
      omega

variable {u : UnpackedFloat}

theorem unpack_pack (h : Canonical u) : (Float.Model.pack u).unpack = u := by
  simp only [Float.Model.pack, Float.Model.unpack, UInt64.toBitVec_ofBitVec]
  cases u with
  | infinity s => cases s <;> rfl
  | notANumber => rfl
  | zero s => cases s <;> rfl
  | finite s m e hpos => exact (unpack_pack_finite h.1 s hpos).trans (if_pos h.2)

/-- A number in units of the least positive double. -/
def magnitude (m : Nat) (e : Int) : Nat := m * 2 ^ (e + 1074).toNat

def units : UnpackedFloat → Int
  | .finite s m e _ => s.apply (magnitude m e)
  | _ => 0

theorem magnitude_pos (e : Int) (h : 0 < m) : 0 < magnitude m e :=
  Nat.mul_pos h (Nat.two_pow_pos _)

theorem magnitude_lt_of_lt {m' : Nat} (e : Int) (h : m < m') : magnitude m e < magnitude m' e :=
  Nat.mul_lt_mul_of_pos_right h (Nat.two_pow_pos _)

theorem magnitude_lt {m' : Nat} {e' : Int} (h : IsCanonical m e) (h' : IsCanonical m' e')
    (hlt : e < e') : magnitude m e < magnitude m' e' := by
  have hlow := h.exponent
  have hnormal : 2 ^ 52 ≤ m' := h'.normal.resolve_right (by omega)
  have hstep : (e + 1074).toNat + 1 ≤ (e' + 1074).toNat := by omega
  calc m * 2 ^ (e + 1074).toNat
      < 2 ^ 53 * 2 ^ (e + 1074).toNat :=
        Nat.mul_lt_mul_of_pos_right h.mantissa (Nat.two_pow_pos _)
    _ = 2 ^ 52 * 2 ^ ((e + 1074).toNat + 1) := by rw [← Nat.pow_add, ← Nat.pow_add]; congr 1; omega
    _ ≤ m' * 2 ^ (e' + 1074).toNat :=
        Nat.mul_le_mul hnormal (Nat.pow_le_pow_right (by decide) hstep)

theorem compare_magnitude {m' : Nat} {e' : Int} (h : IsCanonical m e) (h' : IsCanonical m' e') :
    (compare e e').then (compare m m') = compare (magnitude m e) (magnitude m' e') := by
  obtain hlt | rfl | hgt := lt_trichotomy e e'
  · rw [compare_lt_iff_lt.mpr hlt, compare_lt_iff_lt.mpr (magnitude_lt h h' hlt)]
    rfl
  · rw [compare_eq_iff_eq.mpr rfl, Ordering.eq_then]
    obtain hlt | rfl | hgt := lt_trichotomy m m'
    · rw [compare_lt_iff_lt.mpr hlt,
        compare_lt_iff_lt.mpr (magnitude_lt_of_lt e hlt)]
    · rw [compare_eq_iff_eq.mpr rfl, compare_eq_iff_eq.mpr rfl]
    · rw [compare_gt_iff_gt.mpr hgt,
        compare_gt_iff_gt.mpr (magnitude_lt_of_lt e hgt)]
  · rw [compare_gt_iff_gt.mpr hgt, compare_gt_iff_gt.mpr (magnitude_lt h' h hgt)]
    rfl

theorem compare_positive (a b : Nat) :
    compare (Sign.positive.apply a) (Sign.positive.apply b) = compare a b := by
  obtain hlt | rfl | hgt := lt_trichotomy a b
  · rw [compare_lt_iff_lt.mpr hlt]
    exact compare_lt_iff_lt.mpr (Int.ofNat_lt.mpr hlt)
  · rw [compare_eq_iff_eq.mpr rfl, compare_eq_iff_eq.mpr rfl]
  · rw [compare_gt_iff_gt.mpr hgt]
    exact compare_gt_iff_gt.mpr (Int.ofNat_lt.mpr hgt)

theorem compare_negative (a b : Nat) :
    compare (Sign.negative.apply a) (Sign.negative.apply b) = (compare a b).swap := by
  obtain hlt | rfl | hgt := lt_trichotomy a b
  · rw [compare_lt_iff_lt.mpr hlt]
    exact compare_gt_iff_gt.mpr (neg_lt_neg (Int.ofNat_lt.mpr hlt))
  · rw [compare_eq_iff_eq.mpr rfl, compare_eq_iff_eq.mpr rfl]
    rfl
  · rw [compare_gt_iff_gt.mpr hgt]
    exact compare_lt_iff_lt.mpr (neg_lt_neg (Int.ofNat_lt.mpr hgt))

variable {v : UnpackedFloat}

theorem compare_units (hu : Canonical u) (hv : Canonical v)
    (hufinite : u.isFinite = true) (hvfinite : v.isFinite = true) :
    u.compare v = some (compare (units u) (units v)) := by
  cases u with
  | infinity s => cases hufinite
  | notANumber => cases hufinite
  | zero s =>
    cases v with
    | infinity s' => cases hvfinite
    | notANumber => cases hvfinite
    | zero s' => rfl
    | finite s' m' e' hpos' =>
      have hmag := magnitude_pos e' hpos'
      cases s' with
      | negative =>
        refine congrArg some (compare_gt_iff_gt.mpr ?_).symm
        change -(magnitude m' e' : Int) < 0
        omega
      | positive =>
        refine congrArg some (compare_lt_iff_lt.mpr ?_).symm
        change 0 < (magnitude m' e' : Int)
        omega
  | finite s m e hpos =>
    have hmag := magnitude_pos e hpos
    cases v with
    | infinity s' => cases hvfinite
    | notANumber => cases hvfinite
    | zero s' =>
      cases s with
      | negative =>
        refine congrArg some (compare_lt_iff_lt.mpr ?_).symm
        change -(magnitude m e : Int) < 0
        omega
      | positive =>
        refine congrArg some (compare_gt_iff_gt.mpr ?_).symm
        change 0 < (magnitude m e : Int)
        omega
    | finite s' m' e' hpos' =>
      have hmag' := magnitude_pos e' hpos'
      have hcompare := compare_magnitude hu.1 hv.1
      cases s <;> cases s'
      · refine congrArg some ?_
        rw [hcompare]
        exact (compare_negative _ _).symm
      · refine congrArg some (compare_lt_iff_lt.mpr ?_).symm
        change -(magnitude m e : Int) < (magnitude m' e' : Int)
        omega
      · refine congrArg some (compare_gt_iff_gt.mpr ?_).symm
        change -(magnitude m' e' : Int) < (magnitude m e : Int)
        omega
      · refine congrArg some ?_
        rw [hcompare]
        exact (compare_positive _ _).symm

/-- The exponent rounding gives to a number. -/
def target (m : Nat) (e : Int) : Int := max (m.log2 + e - 52) (-1074)

theorem targetExponent_eq (m : Nat) (e : Int) :
    Format.binary64.targetExponent (totalExponent m e) = target m e := by
  change max ((m.log2 : Int) + 1 + e - (53 : Nat)) (-1074) = _
  unfold target
  congr 1
  omega

theorem target_shift (h : 0 < m) (k : Nat) (e : Int) : target (m * 2 ^ k) (e - k) = target m e := by
  have hlog : (m * 2 ^ k).log2 = m.log2 + k := by
    have hne : m * 2 ^ k ≠ 0 := (Nat.mul_pos h (Nat.two_pow_pos k)).ne'
    refine (Nat.log2_eq_iff hne).mpr ⟨?_, ?_⟩
    · rw [Nat.pow_add]
      exact Nat.mul_le_mul_right _ (Nat.log2_self_le h.ne')
    · rw [show m.log2 + k + 1 = m.log2 + 1 + k by omega, Nat.pow_add]
      exact Nat.mul_lt_mul_of_pos_right Nat.lt_log2_self (Nat.two_pow_pos k)
  unfold target
  rw [hlog]
  congr 1
  omega

theorem target_canonical (h : IsCanonical m e) (hpos : 0 < m) :
    target m e = e := by
  obtain ⟨hm, he, hnormal⟩ := h
  unfold target
  by_cases hlow : 2 ^ 52 ≤ m
  · rw [log2_normal hlow hm]
    omega
  · have hlog := log2_subnormal hpos (by omega)
    have := hnormal.resolve_left hlow
    omega

theorem shiftRight_mantissa (x : ExtendedMantissa) (k : Nat) :
    (x >>> k).mantissa = x.mantissa / 2 ^ k := by
  induction k with
  | zero => exact (Nat.div_one _).symm
  | succ k ih =>
    change (x >>> k).mantissa / 2 = _
    rw [ih, Nat.div_div_eq_div_mul, ← Nat.pow_succ]

theorem shiftRight_exact (m k : Nat) :
    (⟨m * 2 ^ k, false, false⟩ : ExtendedMantissa) >>> k = ⟨m, false, false⟩ := by
  induction k generalizing m with
  | zero => rw [Nat.pow_zero, Nat.mul_one]; rfl
  | succ k ih =>
    have hsplit : m * 2 ^ (k + 1) = 2 * m * 2 ^ k := by rw [Nat.pow_succ]; ring
    change ((⟨m * 2 ^ (k + 1), false, false⟩ : ExtendedMantissa) >>> k).shiftRightOne = _
    rw [hsplit, ih]
    unfold ExtendedMantissa.shiftRightOne
    simp

theorem shiftToTarget_exact (m : Nat) (e : Int) : shiftToTargetExponent Format.binary64 m e .exact =
      ((⟨m, false, false⟩ : ExtendedMantissa) >>> (target m e - e).toNat,
        e + (target m e - e).toNat) := by
  unfold shiftToTargetExponent shiftToExponent
  rw [targetExponent_eq]
  rfl

theorem roundWithAccuracy_exact (h : IsCanonical m e) (hpos : 0 < m) (s : Sign) (k : Nat) :
    roundWithAccuracy Format.binary64 s (m * 2 ^ k) (e - k) .exact = .finite s m e hpos := by
  have htarget := target_canonical h hpos
  have hshift : (e - (e - k)).toNat = k := by omega
  have hexponent : e - (k : Int) + k = e := by omega
  have hstay : (e - e).toNat = 0 := by omega
  unfold roundWithAccuracy
  simp only [shiftToTarget_exact, target_shift hpos, htarget, hshift, shiftRight_exact,
    hexponent]
  have hrounded : (⟨m, false, false⟩ : ExtendedMantissa).roundedMantissa = m := rfl
  have hsame : (⟨m, false, false⟩ : ExtendedMantissa) >>> 0 = ⟨m, false, false⟩ := rfl
  simp only [hrounded, htarget, hstay, hsame, hpos.ne', dite_false, Nat.cast_zero, add_zero]

variable {E : Int}

theorem round_exact {M : Nat} (h : IsCanonical m e) (hpos : 0 < m)
    (hE : -1074 ≤ E) (hvalue : magnitude M E = magnitude m e) (s : Sign) :
    UnpackedFloat.round Format.binary64 s M E = .finite s m e hpos := by
  have he := h.exponent
  have htarget := target_canonical h hpos
  unfold magnitude at hvalue
  unfold UnpackedFloat.round
  rw [targetExponent_eq]
  by_cases hle : e ≤ E
  · have hm : m = M * 2 ^ (E - e).toNat := by
      have hsplit : (E + 1074).toNat = (E - e).toNat + (e + 1074).toNat := by omega
      rw [hsplit, Nat.pow_add, ← Nat.mul_assoc] at hvalue
      exact (Nat.eq_of_mul_eq_mul_right (Nat.two_pow_pos _) hvalue).symm
    have hM : 0 < M := by
      rcases Nat.eq_zero_or_pos M with hzero | hM
      · rw [hm, hzero, Nat.zero_mul] at hpos
        cases hpos
      · exact hM
    have hsame : target M E = e := by
      have hshift := target_shift hM (E - e).toNat E
      rw [← hm, show E - ((E - e).toNat : Int) = e by omega, htarget] at hshift
      exact hshift.symm
    have hexponent : E - ((E - e).toNat : Int) = e := by omega
    have hround := roundWithAccuracy_exact h hpos s 0
    rw [Nat.pow_zero, Nat.mul_one, Nat.cast_zero, sub_zero] at hround
    simp only [decreaseExponent, hsame, Nat.shiftLeft_eq, ← hm, hexponent]
    exact hround
  · have hM : M = m * 2 ^ (e - E).toNat := by
      have hsplit : (e + 1074).toNat = (e - E).toNat + (E + 1074).toNat := by omega
      rw [hsplit, Nat.pow_add, ← Nat.mul_assoc] at hvalue
      exact Nat.eq_of_mul_eq_mul_right (Nat.two_pow_pos _) hvalue
    have hexponent : e - ((e - E).toNat : Int) = E := by omega
    have hsame : target M E = e := by
      have hshift := target_shift hpos (e - E).toNat e
      rw [← hM, hexponent, htarget] at hshift
      exact hshift
    have hstay : (E - e).toNat = 0 := by omega
    have hround := roundWithAccuracy_exact h hpos s (e - E).toNat
    rw [← hM, hexponent] at hround
    simp only [decreaseExponent, hsame, hstay, Nat.shiftLeft_zero, Nat.cast_zero, sub_zero]
    exact hround

theorem roundedMantissa_bounds (x : ExtendedMantissa) :
    x.mantissa ≤ x.roundedMantissa ∧ x.roundedMantissa ≤ x.mantissa + 1 := by
  obtain ⟨m, roundBit, stickyBit⟩ := x
  cases roundBit <;> cases stickyBit <;>
    simp only [ExtendedMantissa.roundedMantissa, ExtendedMantissa.accuracy,
      Accuracy.roundToNearestEven] <;> omega

theorem shifted_bounds {M : Nat} (hpos : 0 < M) (hE : -1074 ≤ E) (hle : E ≤ target M E) :
    0 < M / 2 ^ (target M E - E).toNat ∧ M / 2 ^ (target M E - E).toNat < 2 ^ 53 ∧
      (2 ^ 52 ≤ M / 2 ^ (target M E - E).toNat ∨ target M E = -1074) := by
  have hlow := Nat.log2_self_le hpos.ne'
  have hhigh := @Nat.lt_log2_self M
  have hpow := Nat.two_pow_pos (target M E - E).toNat
  have htarget : target M E = max (M.log2 + E - 52) (-1074) := rfl
  have hfits : M / 2 ^ (target M E - E).toNat < 2 ^ 53 := by
    refine (Nat.div_lt_iff_lt_mul hpow).mpr (lt_of_lt_of_le hhigh ?_)
    rw [← Nat.pow_add]
    exact Nat.pow_le_pow_right (by decide) (by omega)
  by_cases hleast : target M E = -1074
  · have hstay : (target M E - E).toNat = 0 := by omega
    refine ⟨?_, hfits, Or.inr hleast⟩
    rw [hstay, Nat.pow_zero, Nat.div_one]
    exact hpos
  · have hnormal : 2 ^ 52 ≤ M / 2 ^ (target M E - E).toNat := by
      refine (Nat.le_div_iff_mul_le hpow).mpr (le_trans ?_ hlow)
      rw [← Nat.pow_add]
      exact Nat.pow_le_pow_right (by decide) (by omega)
    exact ⟨by omega, hfits, Or.inl hnormal⟩

theorem target_le (hm : m < 2 ^ 53) (hpos : 0 < m) (he : -1074 ≤ e) :
    target m e ≤ e := by
  have hlog : m.log2 < 53 := (Nat.log2_lt hpos.ne').mpr hm
  unfold target
  omega

theorem second_shift {r : Nat} {t : Int} (hpos : 0 < r) (hfits : r ≤ 2 ^ 53)
    (hlow : -1074 ≤ t) (hnormal : 2 ^ 52 ≤ r ∨ t = -1074) :
    ∃ m e, 0 < m ∧ IsCanonical m e ∧
      shiftToTargetExponent Format.binary64 r t .exact = (⟨m, false, false⟩, e) := by
  rw [shiftToTarget_exact]
  by_cases hr : r < 2 ^ 53
  · have hstay : (target r t - t).toNat = 0 := by
      have := target_le hr hpos hlow
      omega
    rw [hstay, Nat.cast_zero, add_zero]
    exact ⟨r, t, hpos, ⟨hr, hlow, hnormal⟩, rfl⟩
  · -- rounding carried into a new leading digit
    have hr : r = 2 ^ 53 := by omega
    have hstep : (target r t - t).toNat = 1 := by
      rw [hr]
      unfold target
      rw [Nat.log2_two_pow]
      omega
    rw [hstep, hr]
    exact ⟨2 ^ 52, t + 1, by decide, ⟨by decide, by omega, Or.inl le_rfl⟩, rfl⟩

theorem roundWithAccuracy_canonical {M : Nat} (s : Sign) (hpos : 0 < M)
    (hE : -1074 ≤ E) (hle : E ≤ target M E) :
    ∃ m e h, roundWithAccuracy Format.binary64 s M E .exact = .finite s m e h ∧
      IsCanonical m e := by
  obtain ⟨hq, hfits, hnormal⟩ := shifted_bounds hpos hE hle
  have hexponent : E + ((target M E - E).toNat : Int) = target M E := by omega
  have hbounds := roundedMantissa_bounds
    ((⟨M, false, false⟩ : ExtendedMantissa) >>> (target M E - E).toNat)
  rw [shiftRight_mantissa] at hbounds
  obtain ⟨hrlow, hrhigh⟩ := hbounds
  obtain ⟨m, e, h, hcanonical, hsecond⟩ := second_shift (t := target M E)
    (lt_of_lt_of_le hq hrlow) (le_trans hrhigh hfits) (by omega)
    (hnormal.imp_left fun hlow => le_trans hlow hrlow)
  refine ⟨m, e, h, ?_, hcanonical⟩
  unfold roundWithAccuracy
  simp only [shiftToTarget_exact M E, hexponent, hsecond, h.ne', dite_false]

theorem round_canonical {M : Nat} (s : Sign) (hpos : 0 < M) (hE : -1074 ≤ E) :
    ∃ m e h, UnpackedFloat.round Format.binary64 s M E = .finite s m e h ∧ IsCanonical m e := by
  unfold UnpackedFloat.round
  rw [targetExponent_eq]
  simp only [decreaseExponent, Nat.shiftLeft_eq]
  have hshift := target_shift hpos (E - target M E).toNat E
  have hlow : -1074 ≤ target M E := by unfold target; omega
  refine roundWithAccuracy_canonical s (Nat.mul_pos hpos (Nat.two_pow_pos _)) ?_ ?_
  · omega
  · rw [hshift]
    omega

theorem eq_of_magnitude_eq {m' : Nat} {e' : Int} (h : IsCanonical m e)
    (h' : IsCanonical m' e') (heq : magnitude m e = magnitude m' e') : m = m' ∧ e = e' := by
  obtain hlt | rfl | hgt := lt_trichotomy e e'
  · exact absurd heq (magnitude_lt h h' hlt).ne
  · exact ⟨Nat.eq_of_mul_eq_mul_right (Nat.two_pow_pos _) heq, rfl⟩
  · exact absurd heq (magnitude_lt h' h hgt).ne'

theorem eq_of_units_eq (hu : Canonical u) (hv : Canonical v)
    (hufinite : u.isFinite = true) (hvfinite : v.isFinite = true) (h : units u = units v) :
    u = v ∨ ∃ s s', u = .zero s ∧ v = .zero s' := by
  cases u with
  | infinity s => cases hufinite
  | notANumber => cases hufinite
  | zero s =>
    cases v with
    | infinity s' => cases hvfinite
    | notANumber => cases hvfinite
    | zero s' => exact Or.inr ⟨s, s', rfl, rfl⟩
    | finite s' m' e' hpos' =>
      have hmag := magnitude_pos e' hpos'
      cases s' <;> simp only [units, Sign.apply] at h <;> omega
  | finite s m e hpos =>
    have hmag := magnitude_pos e hpos
    cases v with
    | infinity s' => cases hvfinite
    | notANumber => cases hvfinite
    | zero s' => cases s <;> simp only [units, Sign.apply] at h <;> omega
    | finite s' m' e' hpos' =>
      have hmag' := magnitude_pos e' hpos'
      have heq : s = s' ∧ magnitude m e = magnitude m' e' := by
        cases s <;> cases s' <;> simp only [units, Sign.apply] at h
        all_goals first | exact ⟨rfl, by omega⟩ | omega
      obtain ⟨rfl, hmagnitude⟩ := heq
      obtain ⟨rfl, rfl⟩ := eq_of_magnitude_eq hu.1 hv.1 hmagnitude
      exact Or.inl rfl

/-- A sum is normalized to the double it is, if it is one. -/
theorem normalize_exact {M : Int} (hu : Canonical u)
    (hfinite : u.isFinite = true) (hsign : u ≠ .zero .negative) (hE : -1074 ≤ E)
    (h : units u = M * 2 ^ (E + 1074).toNat) :
    UnpackedFloat.normalize Format.binary64 M E .positive = u := by
  have hpow : (0 : Int) < 2 ^ (E + 1074).toNat := by positivity
  unfold UnpackedFloat.normalize
  cases u with
  | infinity s => cases hfinite
  | notANumber => cases hfinite
  | zero s =>
    have hzero : M = 0 := by
      rcases Int.mul_eq_zero.mp h.symm with hM | hbad
      · exact hM
      · omega
    subst hzero
    cases s with
    | negative => exact absurd rfl hsign
    | positive => rfl
  | finite s m e hpos =>
    have hmag := magnitude_pos e hpos
    cases s with
    | negative =>
      change -(magnitude m e : Int) = _ at h
      have hM : M < 0 := by
        by_contra hM
        have := Int.mul_nonneg (not_lt.mp hM) hpow.le
        omega
      rw [compare_lt_iff_lt.mpr hM]
      refine round_exact hu.1 hpos hE ?_ .negative
      have hcast : ((-M).toNat : Int) = -M := by omega
      zify
      rw [magnitude, Nat.cast_mul, hcast, Nat.cast_pow, Nat.cast_ofNat, neg_mul]
      omega
    | positive =>
      change (magnitude m e : Int) = _ at h
      have hM : 0 < M := by
        by_contra hM
        have := Int.mul_nonpos_of_nonpos_of_nonneg (not_lt.mp hM) hpow.le
        omega
      rw [compare_gt_iff_gt.mpr hM]
      refine round_exact hu.1 hpos hE ?_ .positive
      have hcast : (M.toNat : Int) = M := by omega
      zify
      rw [magnitude, Nat.cast_mul, hcast, Nat.cast_pow, Nat.cast_ofNat]
      omega

/-- The number one in units. -/
def one : Int := 2 ^ 1074

theorem one_pos : 0 < one := by
  unfold one
  positivity

theorem isCanonical_natural {n : Nat} (hpos : 0 < n) (h : n < 2 ^ 53) :
    IsCanonical (n * 2 ^ (52 - n.log2)) (n.log2 - 52) ∧
      magnitude (n * 2 ^ (52 - n.log2)) (n.log2 - 52) = n * 2 ^ 1074 := by
  have hlog : n.log2 < 53 := (Nat.log2_lt hpos.ne').mpr h
  have hlow := Nat.log2_self_le hpos.ne'
  have hhigh := @Nat.lt_log2_self n
  refine ⟨⟨?_, by omega, Or.inl ?_⟩, ?_⟩
  · calc n * 2 ^ (52 - n.log2)
        < 2 ^ (n.log2 + 1) * 2 ^ (52 - n.log2) :=
          Nat.mul_lt_mul_of_pos_right hhigh (Nat.two_pow_pos _)
      _ = 2 ^ 53 := by rw [← Nat.pow_add]; congr 1; omega
  · calc 2 ^ 52 = 2 ^ n.log2 * 2 ^ (52 - n.log2) := by rw [← Nat.pow_add]; congr 1; omega
      _ ≤ n * 2 ^ (52 - n.log2) := Nat.mul_le_mul_right _ hlow
  · unfold magnitude
    rw [Nat.mul_assoc, ← Nat.pow_add]
    congr 2
    omega

section

variable {n : Int} (h : n.natAbs < 2 ^ 53)
include h

theorem exists_canonical_integer :
    ∃ u, Canonical u ∧ u.isFinite = true ∧ u ≠ .zero .negative ∧ units u = n * one := by
  obtain hneg | rfl | hpos := lt_trichotomy n 0
  · have hn : 0 < n.natAbs := by omega
    obtain ⟨hcanonical, hmag⟩ := isCanonical_natural hn h
    have hlog : n.natAbs.log2 < 53 := (Nat.log2_lt hn.ne').mpr h
    refine ⟨.finite .negative _ _ (Nat.mul_pos hn (Nat.two_pow_pos _)),
      ⟨hcanonical, by omega⟩, rfl, nofun, ?_⟩
    change -((magnitude _ _ : Nat) : Int) = _
    rw [hmag, Nat.cast_mul, Int.ofNat_natAbs_of_nonpos hneg.le, neg_mul, neg_neg, one,
      Nat.cast_pow, Nat.cast_ofNat]
  · exact ⟨.zero .positive, trivial, rfl, nofun, (zero_mul one).symm⟩
  · have hn : 0 < n.natAbs := by omega
    obtain ⟨hcanonical, hmag⟩ := isCanonical_natural hn h
    have hlog : n.natAbs.log2 < 53 := (Nat.log2_lt hn.ne').mpr h
    refine ⟨.finite .positive _ _ (Nat.mul_pos hn (Nat.two_pow_pos _)),
      ⟨hcanonical, by omega⟩, rfl, nofun, ?_⟩
    change ((magnitude _ _ : Nat) : Int) = _
    rw [hmag, Nat.cast_mul, Int.natAbs_of_nonneg hpos.le, one, Nat.cast_pow, Nat.cast_ofNat]

theorem canonical_ofInt :
    Canonical (ofInt Format.binary64 n) ∧ (ofInt Format.binary64 n).isFinite = true ∧
      ofInt Format.binary64 n ≠ .zero .negative ∧ units (ofInt Format.binary64 n) = n * one := by
  obtain ⟨u, hcanonical, hfinite, hsign, hunits⟩ := exists_canonical_integer h
  have heq : ofInt Format.binary64 n = u :=
    normalize_exact hcanonical hfinite hsign (by decide) hunits
  rw [heq]
  exact ⟨hcanonical, hfinite, hsign, hunits⟩

/-- The double of an integer. -/
def number (n : Int) : Float := .ofModel (.ofInt n)

def negativeZero : Float := .ofModel (.pack (.zero .negative))

def unitsOf (x : Float) : Int := units x.toModel.unpack

/-- The number without its fraction; zero if it is not a finite number. -/
def truncate (x : Float) : Int := (unitsOf x).tdiv one

def isInteger (x : Float) : Bool := x.isFinite && unitsOf x % one == 0

def isSafeInteger (x : Float) : Bool := isInteger x && decide ((truncate x).natAbs < 2 ^ 53)

variable {x : Float}

omit h in
theorem eq_of_unpack {y : Float} (h : x.toModel.unpack = y.toModel.unpack) : x = y := by
  obtain ⟨x⟩ := x
  obtain ⟨y⟩ := y
  exact congrArg Float.ofModel (unpack_injective h)

omit h in
theorem unpack_negativeZero : negativeZero.toModel.unpack = .zero .negative :=
  unpack_pack (u := .zero .negative) trivial

omit h in
theorem unpack_ne_negativeZero (h : x ≠ negativeZero) : x.toModel.unpack ≠ .zero .negative :=
  fun hzero => h (eq_of_unpack (hzero.trans unpack_negativeZero.symm))

theorem unpack_number : (number n).toModel.unpack = ofInt Format.binary64 n :=
  unpack_pack (canonical_ofInt h).1

theorem unitsOf_number : unitsOf (number n) = n * one := by
  rw [unitsOf, unpack_number h]
  exact (canonical_ofInt h).2.2.2

theorem isFinite_number : (number n).isFinite = true := by
  change (number n).toModel.unpack.isFinite = true
  rw [unpack_number h]
  exact (canonical_ofInt h).2.1

theorem number_ne_negativeZero : number n ≠ negativeZero := by
  intro hzero
  have hunpack := congrArg (fun x => x.toModel.unpack) hzero
  simp only [unpack_number h, unpack_negativeZero] at hunpack
  exact (canonical_ofInt h).2.2.1 hunpack

theorem truncate_number : truncate (number n) = n := by
  rw [truncate, unitsOf_number h]
  exact Int.mul_tdiv_cancel n one_pos.ne'

theorem isSafeInteger_number : isSafeInteger (number n) = true := by
  rw [isSafeInteger, isInteger, isFinite_number h, truncate_number h, unitsOf_number h,
    Int.mul_emod_left]
  simpa using h

end

theorem unitsOf_eq (h : isInteger x = true) : unitsOf x = truncate x * one := by
  simp only [isInteger, Bool.and_eq_true, beq_iff_eq] at h
  exact (Int.tdiv_mul_cancel (Int.dvd_of_emod_eq_zero h.2)).symm

theorem eq_number (h : isInteger x = true) (hsmall : (truncate x).natAbs < 2 ^ 53)
    (hsign : x ≠ negativeZero) : x = number (truncate x) := by
  have hunits := unitsOf_eq h
  have hfinite : x.isFinite = true := by
    simp only [isInteger, Bool.and_eq_true] at h
    exact h.1
  refine eq_of_unpack ?_
  rw [unpack_number hsmall]
  obtain ⟨hcanonical, hint, hpositive, hvalue⟩ := canonical_ofInt hsmall
  obtain heq | ⟨s, s', hx, hn⟩ := eq_of_units_eq (canonical_unpack x.toModel) hcanonical hfinite
    hint (hunits.trans hvalue.symm)
  · exact heq
  · have hs := unpack_ne_negativeZero hsign
    rw [hx] at hs ⊢
    rw [hn] at hpositive ⊢
    cases s <;> cases s' <;> first | rfl | exact absurd rfl hs | exact absurd rfl hpositive

theorem lt_iff_units {y : Float} (hx : x.isFinite = true) (hy : y.isFinite = true) :
    x < y ↔ unitsOf x < unitsOf y := by
  change decide ((x.toModel.unpack.compare y.toModel.unpack == some .lt) = true) = true ↔ _
  rw [decide_eq_true_eq, compare_units (canonical_unpack _) (canonical_unpack _) hx hy, beq_iff_eq,
    Option.some.injEq]
  exact compare_lt_iff_lt

theorem beq_iff_units {y : Float} (hx : x.isFinite = true) (hy : y.isFinite = true) :
    (x == y) = true ↔ unitsOf x = unitsOf y := by
  change (x.toModel.unpack.compare y.toModel.unpack == some .eq) = true ↔ _
  rw [compare_units (canonical_unpack _) (canonical_unpack _) hx hy, beq_iff_eq,
    Option.some.injEq]
  exact compare_eq_iff_eq

theorem eq_of_compare_eq (hu : Canonical u) (hv : Canonical v)
    (husign : u ≠ .zero .negative) (hvsign : v ≠ .zero .negative)
    (h : u.compare v = some .eq) : u = v := by
  have hfinite (hufinite : u.isFinite = true) (hvfinite : v.isFinite = true) : u = v := by
    rw [compare_units hu hv hufinite hvfinite, Option.some.injEq, compare_eq_iff_eq] at h
    obtain heq | ⟨s, s', rfl, rfl⟩ := eq_of_units_eq hu hv hufinite hvfinite h
    · exact heq
    · cases s <;> cases s' <;> first | rfl | exact absurd rfl husign | exact absurd rfl hvsign
  cases u with
  | notANumber => cases v <;> cases h
  | infinity s =>
    cases v with
    | infinity s' => cases s <;> cases s' <;> first | rfl | cases h
    | notANumber => cases s <;> cases h
    | zero s' => cases s <;> cases h
    | finite s' m' e' hpos' => cases s <;> cases h
  | zero s =>
    cases v with
    | infinity s' => cases s' <;> cases h
    | notANumber => cases h
    | zero s' => exact hfinite rfl rfl
    | finite s' m' e' hpos' => exact hfinite rfl rfl
  | finite s m e hpos =>
    cases v with
    | infinity s' => cases s' <;> cases h
    | notANumber => cases h
    | zero s' => exact hfinite rfl rfl
    | finite s' m' e' hpos' => exact hfinite rfl rfl

theorem eq_of_beq {y : Float} (h : (x == y) = true) (hx : x ≠ negativeZero)
    (hy : y ≠ negativeZero) : x = y := by
  change (x.toModel.unpack.compare y.toModel.unpack == some .eq) = true at h
  rw [beq_iff_eq] at h
  exact eq_of_unpack (eq_of_compare_eq (canonical_unpack _) (canonical_unpack _)
    (unpack_ne_negativeZero hx) (unpack_ne_negativeZero hy) h)

theorem decreaseExponent_units (hE : -1074 ≤ E) (h : E ≤ e) :
    (m <<< (e - E).toNat) * 2 ^ (E + 1074).toNat = magnitude m e := by
  have hsplit : (e + 1074).toNat = (e - E).toNat + (E + 1074).toNat := by omega
  rw [magnitude, hsplit, Nat.pow_add, Nat.shiftLeft_eq, Nat.mul_assoc]

theorem normalize_ne_negativeZero (M : Int) (hE : -1074 ≤ E) :
    (Float.Model.pack (UnpackedFloat.normalize Format.binary64 M E .positive)).unpack ≠
      .zero .negative := by
  have hround (s : Sign) {m : Nat} (hpos : 0 < m) :
      (Float.Model.pack (UnpackedFloat.round Format.binary64 s m E)).unpack ≠
        .zero .negative := by
    obtain ⟨m', e', hpos', hround, hcanonical⟩ := round_canonical s hpos hE
    rw [hround]
    simp only [Float.Model.pack, Float.Model.unpack, UInt64.toBitVec_ofBitVec,
      unpack_pack_finite hcanonical]
    split <;> nofun
  unfold UnpackedFloat.normalize
  obtain hneg | rfl | hpos := lt_trichotomy M 0
  · rw [compare_lt_iff_lt.mpr hneg]
    exact hround .negative (by omega)
  · rw [compare_eq_iff_eq.mpr rfl, unpack_pack (u := .zero .positive) trivial]
    nofun
  · rw [compare_gt_iff_gt.mpr hpos]
    exact hround .positive (by omega)

theorem add_unpack_ne_negativeZero (hu : Canonical u) (hv : Canonical v)
    (h : u ≠ .zero .negative) :
    (Float.Model.pack (add Format.binary64 u v)).unpack ≠ .zero .negative := by
  have hkeep {w : UnpackedFloat} (hw : Canonical w) (hne : w ≠ .zero .negative) :
      (Float.Model.pack w).unpack ≠ .zero .negative := by
    rwa [unpack_pack hw]
  cases u with
  | notANumber => exact hkeep (w := .notANumber) trivial nofun
  | infinity s =>
    cases v with
    | notANumber => exact hkeep (w := .notANumber) trivial nofun
    | infinity s' =>
      cases s <;> cases s' <;>
        first | exact hkeep (w := .notANumber) trivial nofun
              | exact hkeep (w := .infinity _) trivial nofun
    | zero s' => exact hkeep (w := .infinity s) trivial nofun
    | finite s' m' e' hpos' => exact hkeep (w := .infinity s) trivial nofun
  | zero s =>
    cases v with
    | notANumber => exact hkeep (w := .notANumber) trivial nofun
    | infinity s' => exact hkeep (w := .infinity s') trivial nofun
    | zero s' =>
      cases s with
      | negative => exact absurd rfl h
      | positive => cases s' <;> exact hkeep (w := .zero .positive) trivial nofun
    | finite s' m' e' hpos' => exact hkeep hv nofun
  | finite s m e hpos =>
    cases v with
    | notANumber => exact hkeep (w := .notANumber) trivial nofun
    | infinity s' => exact hkeep (w := .infinity s') trivial nofun
    | zero s' => exact hkeep hu nofun
    | finite s' m' e' hpos' =>
      exact normalize_ne_negativeZero _ (le_min hu.1.exponent hv.1.exponent)

theorem add_ne_negativeZero (h : x ≠ negativeZero) (y : Float) :
    x + y ≠ negativeZero := by
  intro hzero
  refine add_unpack_ne_negativeZero (canonical_unpack x.toModel) (canonical_unpack y.toModel)
    (unpack_ne_negativeZero h) ?_
  exact (congrArg (fun z => z.toModel.unpack) hzero).trans unpack_negativeZero

theorem zero_mul_unpack (h : v.isFinite = true) (s : Sign) :
    ∃ s', mul Format.binary64 (.zero s) v = .zero s' := by
  cases v with
  | infinity s' => cases h
  | notANumber => cases h
  | zero s' => exact ⟨_, rfl⟩
  | finite s' m e hpos => exact ⟨_, rfl⟩

theorem mul_zero_unpack (h : u.isFinite = true) (s : Sign) :
    ∃ s', mul Format.binary64 u (.zero s) = .zero s' := by
  cases u with
  | infinity s' => cases h
  | notANumber => cases h
  | zero s' => exact ⟨_, rfl⟩
  | finite s' m e hpos => exact ⟨_, rfl⟩

theorem add_zero_unpack (h : u ≠ .zero .negative) (s : Sign) :
    add Format.binary64 u (.zero s) = u := by
  cases u with
  | infinity s' => rfl
  | notANumber => rfl
  | zero s' =>
    cases s' with
    | negative => exact absurd rfl h
    | positive => cases s <;> rfl
  | finite s' m e hpos => rfl

theorem add_zero_product {y z : Float} (hx : x ≠ negativeZero) {s : Sign}
    (h : mul Format.binary64 y.toModel.unpack z.toModel.unpack = .zero s) :
    x + y * z = x := by
  refine eq_of_unpack ?_
  have hproduct : (y * z).toModel = Float.Model.pack
    (mul Format.binary64 y.toModel.unpack z.toModel.unpack) := rfl
  have hsum : (x + y * z).toModel = Float.Model.pack
    (add Format.binary64 x.toModel.unpack (y * z).toModel.unpack) := rfl
  rw [hsum, hproduct, h, unpack_pack (u := .zero s) trivial,
    add_zero_unpack (unpack_ne_negativeZero hx), pack_unpack]

theorem unpack_number_zero : (number 0).toModel.unpack = .zero .positive :=
  unpack_number (by decide)

theorem add_zero_mul {step : Float} (hx : x ≠ negativeZero) (hstep : step.isFinite = true) :
    x + number 0 * step = x := by
  obtain ⟨s, hs⟩ := zero_mul_unpack (v := step.toModel.unpack) hstep .positive
  rw [← unpack_number_zero] at hs
  exact add_zero_product hx hs

theorem add_mul_zero {count step : Float} (hx : x ≠ negativeZero)
    (hcount : count.isFinite = true) (hstep : step = negativeZero ∨ step = number 0) :
    x + count * step = x := by
  obtain rfl | rfl := hstep
  · obtain ⟨s, hs⟩ := mul_zero_unpack (u := count.toModel.unpack) hcount .negative
    rw [← unpack_negativeZero] at hs
    exact add_zero_product hx hs
  · obtain ⟨s, hs⟩ := mul_zero_unpack (u := count.toModel.unpack) hcount .positive
    rw [← unpack_number_zero] at hs
    exact add_zero_product hx hs

theorem units_neg_finite {s : Sign} (hpos : 0 < m) :
    units (.finite (-s) m e hpos) = -units (.finite s m e hpos) := by
  cases s with
  | negative => exact (neg_neg _).symm
  | positive => rfl

theorem apply_shift (s : Sign) (hpos : 0 < m) (hE : -1074 ≤ E) (h : E ≤ e) :
    s.apply (m <<< (e - E).toNat : Nat) * 2 ^ (E + 1074).toNat =
      units (.finite s m e hpos) := by
  have hunits := decreaseExponent_units (m := m) hE h
  have hcast : (((m <<< (e - E).toNat : Nat) : Int)) * 2 ^ (E + 1074).toNat = magnitude m e := by
    exact_mod_cast hunits
  cases s with
  | negative => change -_ * _ = -_; rw [neg_mul, hcast]
  | positive => exact hcast

/-- The difference of two integers is exact while it has at most 53 bits. -/
theorem sub_number {a b : Int} (ha : a.natAbs < 2 ^ 53) (hb : b.natAbs < 2 ^ 53)
    (hdiff : (a - b).natAbs < 2 ^ 53) : number a - number b = number (a - b) := by
  have hvalue : (number a - number b).toModel = Float.Model.pack (sub
    Format.binary64 (number a).toModel.unpack (number b).toModel.unpack) := rfl
  have hgoal : (number (a - b)).toModel = Float.Model.pack (ofInt Format.binary64 (a - b)) := rfl
  suffices h : sub Format.binary64 (ofInt Format.binary64 a)
      (ofInt Format.binary64 b) = ofInt Format.binary64 (a - b) by
    rw [unpack_number ha, unpack_number hb, h, ← hgoal] at hvalue
    exact congrArg Float.ofModel hvalue
  obtain ⟨hca, hfa, hsa, hua⟩ := canonical_ofInt ha
  obtain ⟨hcb, hfb, hsb, hub⟩ := canonical_ofInt hb
  obtain ⟨hcd, hfd, hsd, hud⟩ := canonical_ofInt hdiff
  generalize ofInt Format.binary64 a = u at *
  generalize ofInt Format.binary64 b = v at *
  generalize ofInt Format.binary64 (a - b) = w at *
  have hw : units w = units u - units v := by rw [hud, hua, hub, sub_mul]
  have hsame {x : UnpackedFloat} (hx : Canonical x) (hfinite : x.isFinite = true)
      (hsign : x ≠ .zero .negative) (hunits : units x = units w) : x = w := by
    obtain heq | ⟨s, s', rfl, rfl⟩ := eq_of_units_eq hx hcd hfinite hfd hunits
    · exact heq
    · cases s <;> cases s' <;> first | rfl | exact absurd rfl hsign | exact absurd rfl hsd
  cases u with
  | infinity s => cases hfa
  | notANumber => cases hfa
  | zero s =>
    cases s with
    | negative => exact absurd rfl hsa
    | positive =>
      cases v with
      | infinity s' => cases hfb
      | notANumber => cases hfb
      | zero s' =>
        cases s' with
        | negative => exact absurd rfl hsb
        | positive => exact hsame (x := .zero .positive) trivial rfl nofun hw.symm
      | finite s' m' e' hpos' =>
        refine hsame (x := .finite (-s') m' e' hpos') hcb rfl nofun ?_
        rw [units_neg_finite, hw]
        exact (zero_sub _).symm
  | finite s m e hpos =>
    cases v with
    | infinity s' => cases hfb
    | notANumber => cases hfb
    | zero s' => exact hsame hca rfl nofun (hw.trans (sub_zero _)).symm
    | finite s' m' e' hpos' =>
      have hE := le_min hca.1.exponent hcb.1.exponent
      refine normalize_exact hcd hfd hsd hE ?_
      rw [sub_mul, apply_shift s hpos hE (min_le_left _ _),
        apply_shift s' hpos' hE (min_le_right _ _), hw]

end Softmaple.Binary64
