import Mathlib
import TreeWatch.Fingerprint

/-!
# Comparing fingerprints

Whether two fingerprints diverge does not depend on their order, and none diverges from itself. Both
hold of all bits, also of those that are no number.

## Main results

- `Fingerprint.divergesFrom_comm`
- `Fingerprint.divergesFrom_self`

## Design notes

Differences of floating-point numbers are rounded, but the sign has no part in it: turning a difference
around changes the sign of the rounded result only, and the absolute value forgets the sign.
-/

namespace TreeWatch

open Float.Model (UnpackedFloat Format)
open Float.Model.UnpackedFloat (Sign)

namespace Seconds

/-! ### Numbers up to their sign -/

variable (spec : Format) (s s' : Sign)

theorem abs_round (mantissa : Nat) (exponent : Int) :
    (UnpackedFloat.round spec s mantissa exponent).abs =
      (UnpackedFloat.round spec s' mantissa exponent).abs := by
  simp only [UnpackedFloat.round, UnpackedFloat.roundWithAccuracy]
  split <;> rfl

theorem abs_normalize_neg (mantissa exponent : Int) :
    (UnpackedFloat.normalize spec (-mantissa) exponent s).abs =
      (UnpackedFloat.normalize spec mantissa exponent s).abs := by
  unfold UnpackedFloat.normalize
  rcases Int.lt_trichotomy mantissa 0 with hneg | rfl | hpos
  · have hless : compare mantissa 0 = .lt := Int.compare_eq_lt.2 hneg
    have hgreater : compare (-mantissa) 0 = .gt := Int.compare_eq_gt.2 (by omega)
    rw [hless, hgreater]
    exact abs_round ..
  · rfl
  · have hgreater : compare mantissa 0 = .gt := Int.compare_eq_gt.2 hpos
    have hless : compare (-mantissa) 0 = .lt := Int.compare_eq_lt.2 (by omega)
    rw [hless, hgreater]
    simp only [Int.neg_neg]
    exact abs_round ..

theorem abs_unpack_packComponents (exponent : BitVec spec.exponentBits)
    (mantissa : BitVec spec.mantissaBitsWithoutImplicit) :
    (UnpackedFloat.unpack spec (UnpackedFloat.packComponents spec s exponent mantissa)).abs =
      (UnpackedFloat.unpack spec (UnpackedFloat.packComponents spec s' exponent mantissa)).abs := by
  simp only [UnpackedFloat.unpack, UnpackedFloat.unpackMantissa_packComponents,
    UnpackedFloat.unpackExponent_packComponents]
  split
  · split <;> rfl
  · split
    · split <;> rfl
    · rfl

theorem abs_unpack_pack {u u' : UnpackedFloat} (h : u.abs = u'.abs) :
    (UnpackedFloat.unpack spec (UnpackedFloat.pack spec u)).abs =
      (UnpackedFloat.unpack spec (UnpackedFloat.pack spec u')).abs := by
  cases u with
  | notANumber =>
    cases u' <;> cases h
    rfl
  | infinity s =>
    cases u' <;> cases h
    exact abs_unpack_packComponents ..
  | zero s =>
    cases u' <;> cases h
    exact abs_unpack_packComponents ..
  | finite s m e hm =>
    cases u' <;> cases h
    simp only [UnpackedFloat.pack]
    split
    · exact abs_unpack_packComponents ..
    · split <;> exact abs_unpack_packComponents ..

/-- A difference that is turned around has the same absolute value. -/
theorem abs_sub_comm (u u' : UnpackedFloat) :
    (UnpackedFloat.sub spec u u').abs = (UnpackedFloat.sub spec u' u).abs := by
  cases u with
  | notANumber => cases u' <;> rfl
  | infinity s =>
    cases u' with
    | infinity s' => cases s <;> cases s' <;> rfl
    | _ => rfl
  | zero s =>
    cases u' with
    | zero s' => cases s <;> cases s' <;> rfl
    | _ => rfl
  | finite s m e hm =>
    cases u' with
    | finite s' m' e' hm' =>
      simp only [UnpackedFloat.sub]
      rw [Int.min_comm e' e, ← abs_normalize_neg, Int.neg_sub]
    | _ => rfl

/-- A number differs from itself by zero, or the difference is no number. -/
theorem sub_self_cases (u : UnpackedFloat) :
    UnpackedFloat.sub spec u u = .notANumber ∨ ∃ s, UnpackedFloat.sub spec u u = .zero s := by
  cases u with
  | notANumber => exact .inl rfl
  | infinity s => cases s <;> exact .inl rfl
  | zero s => cases s <;> exact .inr ⟨_, rfl⟩
  | finite s m e hm =>
    refine .inr ⟨.positive, ?_⟩
    simp only [UnpackedFloat.sub, Int.sub_self]
    rfl

/-- The absolute value of a difference, by way of the difference of the unpacked numbers. -/
theorem abs_sub_eq (x y : Float) :
    (x - y).abs = .ofModel (.pack (UnpackedFloat.unpack .binary64 (UnpackedFloat.pack .binary64
      (UnpackedFloat.sub .binary64 x.toModel.unpack y.toModel.unpack))).abs) :=
  rfl

/-! ### Points in time -/

theorem apart_comm (a b : Seconds) : a.apart b = b.apart a := by
  have habs : (a.toFloat - b.toFloat).abs = (b.toFloat - a.toFloat).abs := by
    rw [abs_sub_eq, abs_sub_eq, abs_unpack_pack _ (abs_sub_comm _ _ _)]
  rw [apart, habs, apart]

theorem apart_self (a : Seconds) : a.apart a = false := by
  rw [apart, abs_sub_eq]
  rcases sub_self_cases .binary64 a.toFloat.toModel.unpack with h | ⟨s, h⟩
  · rw [h]
    decide +kernel
  · rw [h]
    cases s <;> decide +kernel

end Seconds

namespace Fingerprint

/-- The order of two fingerprints does not matter. -/
theorem divergesFrom_comm (a b : Fingerprint) : a.divergesFrom b = b.divergesFrom a := by
  rw [divergesFrom, divergesFrom, Seconds.apart_comm a.mtime, Seconds.apart_comm a.ctime,
    bne_comm]

theorem divergesFrom_self (a : Fingerprint) : a.divergesFrom a = false := by
  simp [divergesFrom, Seconds.apart_self]

end Fingerprint

end TreeWatch
