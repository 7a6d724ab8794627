/-
What the shared helpers compute.

`Util::Split` by the single byte 3 is `List.splitOn`, so the library's facts about
fields apply to it.  Lower-casing leaves the two framing bytes, newline and 3,
where they are: that is why folding the case of a whole file commutes with cutting
it into lines and fields.  And a 32-bit counter that is bumped `n` times holds `n`
reduced to 32 bits, which is `n` itself below `2 ^ 31`.
-/
import DocSearcher.Common.Util

namespace DocSearcher

/-! ### Splitting a record -/

theorem split_fieldSep (line : Str) : Util.split line [fieldSep] = line.splitOn fieldSep := by
  unfold Util.split
  rw [List.splitOn_eq_splitOnP]
  congr 1
  funext c
  by_cases h : c = fieldSep <;> simp [h]

/-! ### Lower-casing -/

theorem toLowerByte_eq_iff {b : UInt8} (hupper : ¬ (65 ≤ b ∧ b ≤ 90))
    (hlower : ¬ (97 ≤ b ∧ b ≤ 122)) (c : UInt8) : toLowerByte c = b ↔ c = b := by
  unfold toLowerByte
  by_cases hc : 65 ≤ c ∧ c ≤ 90
  · rw [if_pos hc]
    refine ⟨fun h => ?_, fun h => ?_⟩
    · -- the image of a capital is a small letter, which `b` is not
      exfalso
      apply hlower
      rw [← h]
      simp only [UInt8.le_iff_toNat_le, UInt8.toNat_add, UInt8.reduceToNat] at hc ⊢
      omega
    · exact absurd (h ▸ hc) hupper
  · rw [if_neg hc]

theorem toLowerByte_newline (c : UInt8) : toLowerByte c = newline ↔ c = newline :=
  toLowerByte_eq_iff (by decide) (by decide) c

theorem toLowerByte_fieldSep (c : UInt8) : toLowerByte c = fieldSep ↔ c = fieldSep :=
  toLowerByte_eq_iff (by decide) (by decide) c

theorem toLowerByte_toLowerByte (c : UInt8) : toLowerByte (toLowerByte c) = toLowerByte c := by
  by_cases hc : 65 ≤ c ∧ c ≤ 90
  · have hlow : toLowerByte c = c + 32 := if_pos hc
    rw [hlow]
    refine if_neg ?_
    simp only [UInt8.le_iff_toNat_le, UInt8.toNat_add, UInt8.reduceToNat] at hc ⊢
    omega
  · have hsame : toLowerByte c = c := if_neg hc
    rw [hsame, hsame]

@[simp] theorem toLower_toLower (s : Str) : toLower (toLower s) = toLower s := by
  unfold toLower
  rw [List.map_map]
  exact List.map_congr_left fun c _ => toLowerByte_toLowerByte c

@[simp] theorem toLower_append (s t : Str) : toLower (s ++ t) = toLower s ++ toLower t :=
  List.map_append

/-! ### 32-bit counters -/

theorem int32_of_lt {z : Int} (hlo : 0 ≤ z) (hhi : z < 2 ^ 31) : int32 z = z := by
  unfold int32
  exact Int.bmod_eq_of_le (by omega) (by omega)

@[simp] theorem int32_zero : int32 0 = 0 := int32_of_lt (Int.le_refl 0) (by omega)

@[simp] theorem int32_int32_add (a b : Int) : int32 (int32 a + b) = int32 (a + b) := by
  unfold int32
  exact Int.bmod_add_bmod

@[simp] theorem int32_add_int32 (a b : Int) : int32 (a + int32 b) = int32 (a + b) := by
  unfold int32
  exact Int.add_bmod_bmod

@[simp] theorem int32_mul_int32 (a b : Int) : int32 (a * int32 b) = int32 (a * b) := by
  unfold int32
  exact Int.mul_bmod_bmod

end DocSearcher
