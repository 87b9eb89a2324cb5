/-
This file gives the reversible operations on words of a fixed width.
-/

import Mathlib.Data.BitVec
import Mathlib.Data.Fintype.EquivFin
import Mathlib.Data.Nat.ModEq
import Mathlib.Data.Nat.GCD.Basic
import Mathlib.Data.Nat.Prime.Basic

namespace Liasse.Codes

section Operations

variable {width : Nat}

/-- A word that is its own right shift is zero. -/
theorem eq_zero_of_eq_shift {shift : Nat} (positive : 0 < shift) {word : BitVec width}
    (same : word = word >>> shift) : word = BitVec.ofNat width 0 := by
  -- The shift repeats, so it goes past every bit of the word.
  have repeated (times : Nat) : word = word >>> (shift * times) := by
    induction times with
    | zero => simp
    | succ times earlier =>
      calc word = word >>> shift := same
        _ = (word >>> (shift * times)) >>> shift := by rw [← earlier]
        _ = word >>> (shift * (times + 1)) := by rw [← BitVec.shiftRight_add, Nat.mul_succ]
  rw [repeated width]
  exact BitVec.ushiftRight_eq_zero (Nat.le_mul_of_pos_left width positive)

/-- A word is determined by its sum with its own right shift. -/
theorem xorShift_injective {shift : Nat} (positive : 0 < shift) :
    Function.Injective fun word : BitVec width => word ^^^ (word >>> shift) := by
  intro first second same
  have cancelled : first ^^^ second = (first ^^^ second) >>> shift := by
    have sums : first ^^^ (first >>> shift) = second ^^^ (second >>> shift) := same
    calc first ^^^ second = (first ^^^ (first >>> shift)) ^^^ (first >>> shift) ^^^ second := by
          rw [BitVec.xor_assoc first, BitVec.xor_self, BitVec.xor_zero]
      _ = (second ^^^ (second >>> shift)) ^^^ (first >>> shift) ^^^ second := by rw [sums]
      _ = (first >>> shift) ^^^ (second >>> shift) ^^^ (second ^^^ second) := by ac_rfl
      _ = (first ^^^ second) >>> shift := by
          rw [BitVec.xor_self, BitVec.xor_zero, BitVec.ushiftRight_xor_distrib]
  have zero := eq_zero_of_eq_shift positive cancelled
  have added := congrArg (fun word => word ^^^ second) zero
  simpa [BitVec.xor_assoc] using added

/-- An odd factor loses nothing of a word. -/
theorem mul_injective {factor : BitVec width} (odd : Odd factor.toNat) :
    Function.Injective fun word : BitVec width => word * factor := by
  intro first second same
  have products : first.toNat * factor.toNat ≡ second.toNat * factor.toNat [MOD 2 ^ width] := by
    show first.toNat * factor.toNat % 2 ^ width = second.toNat * factor.toNat % 2 ^ width
    simpa only [BitVec.toNat_mul] using congrArg BitVec.toNat same
  have coprime : Nat.gcd (2 ^ width) factor.toNat = 1 :=
    Nat.Coprime.pow_left width (Nat.coprime_two_left.mpr odd)
  have numbers := Nat.ModEq.cancel_right_of_coprime coprime products
  apply BitVec.eq_of_toNat_eq
  exact numbers.eq_of_lt_of_lt first.isLt second.isLt

/-- A wider copy of a word loses nothing of it. -/
theorem setWidth_injective {narrow : Nat} (wider : narrow ≤ width) :
    Function.Injective fun word : BitVec narrow => word.setWidth width := by
  intro first second same
  have back := congrArg (fun word : BitVec width => word.setWidth narrow) same
  simpa [BitVec.setWidth_setWidth_of_le _ wider] using back

theorem add_injective (shift : BitVec width) : Function.Injective fun word => word + shift :=
  fun _ _ same => BitVec.add_right_inj shift |>.mp (by simpa [BitVec.add_comm] using same)

/-- A counter does not repeat a word before it has shown every word. -/
theorem counted_nodup {start count : Nat} (bounded : count ≤ 2 ^ width) :
    ((List.range' start count).map (BitVec.ofNat width)).Nodup := by
  refine (List.nodup_map_iff_inj_on (List.nodup_range' (h := by decide))).mpr ?_
  intro first low second high same
  simp only [List.mem_range'_1] at low high
  have congruent : first ≡ second [MOD 2 ^ width] := by
    show first % 2 ^ width = second % 2 ^ width
    simpa using congrArg BitVec.toNat same
  rcases Nat.le_total first second with below | above
  · have divides := (Nat.modEq_iff_dvd' below).mp congruent
    have zero := Nat.eq_zero_of_dvd_of_lt divides (by omega)
    omega
  · have divides := (Nat.modEq_iff_dvd' above).mp congruent.symm
    have zero := Nat.eq_zero_of_dvd_of_lt divides (by omega)
    omega

end Operations

section Bytes

/-- The bytes of a word from the highest to the lowest. -/
def bytesBE (count : Nat) (word : BitVec (8 * count)) : List UInt8 :=
  List.ofFn fun place : Fin count => UInt8.ofBitVec (word.extractLsb' (8 * (count - 1 - place)) 8)

@[simp] theorem bytesBE_length (count : Nat) (word : BitVec (8 * count)) :
    (bytesBE count word).length = count := by
  simp [bytesBE]

/-- A word is determined by its bytes. -/
theorem bytesBE_injective (count : Nat) : Function.Injective (bytesBE count) := by
  intro first second same
  have slices : ∀ place : Fin count, first.extractLsb' (8 * (count - 1 - place)) 8 =
      second.extractLsb' (8 * (count - 1 - place)) 8 := by
    intro place
    have agree := congrFun (List.ofFn_injective same) place
    simpa using congrArg UInt8.toBitVec agree
  ext bit inside
  have slice := slices ⟨count - 1 - bit / 8, by omega⟩
  have place : count - 1 - (count - 1 - bit / 8) = bit / 8 := by omega
  rw [place] at slice
  have own := congrArg (fun byte : BitVec 8 => byte.getLsbD (bit % 8)) slice
  have split : 8 * (bit / 8) + bit % 8 = bit := Nat.div_add_mod bit 8
  simpa [BitVec.getLsbD_extractLsb', Nat.mod_lt, split, ← BitVec.getLsbD_eq_getElem] using own

end Bytes

end Liasse.Codes
