import Flux.Checksums
import Mathlib.Logic.Function.Basic

/-!
The checksum tells apart two strings that differ in one byte. One turn of the
division loses no bit of the remainder: the bit that is shifted out comes back at
the top, because the polynomial has its highest bit set. So a remainder that has
been changed stays changed.
-/
namespace Flux.ChecksumErrors

open GoStrings Checksums

/-- The test of the source on the last bit, as a bit of the word. -/
theorem and_one_eq_one_iff (c : UInt32) : c &&& 1 = 1 ↔ c.toBitVec.getLsbD 0 = true := by
  have hparity : (c &&& 1).toNat = c.toNat % 2 := by
    rw [UInt32.toNat_and]
    exact Nat.and_one_is_mod c.toNat
  have hbit : c.toBitVec.getLsbD 0 = decide (c.toNat % 2 = 1) := Nat.testBit_zero c.toNat
  rw [← UInt32.toNat_inj, hparity, hbit, decide_eq_true_iff]
  exact Iff.rfl

/-- The bits of a remainder after one turn. -/
theorem crcBit_getLsbD (c : UInt32) (i : ℕ) :
    (crcBit c).toBitVec.getLsbD i =
      (c.toBitVec.getLsbD (1 + i) ^^
        (c.toBitVec.getLsbD 0 && (0xEDB88320 : UInt32).toBitVec.getLsbD i)) := by
  unfold crcBit
  by_cases hodd : c &&& 1 = 1
  · rw [if_pos hodd, (and_one_eq_one_iff c).mp hodd]
    simp
  · have heven : c.toBitVec.getLsbD 0 = false :=
      Bool.eq_false_iff.mpr (fun hbit => hodd ((and_one_eq_one_iff c).mpr hbit))
    rw [if_neg hodd, heven]
    simp

/-- A step of the checksum loses nothing. -/
theorem crcBit_injective : Function.Injective crcBit := by
  intro a b h
  have hbits : ∀ i, (crcBit a).toBitVec.getLsbD i = (crcBit b).toBitVec.getLsbD i := by
    intro i
    rw [h]
  have htop : (0xEDB88320 : UInt32).toBitVec.getLsbD 31 = true := by decide
  have hlow : a.toBitVec.getLsbD 0 = b.toBitVec.getLsbD 0 := by
    have hlast := hbits 31
    have houtside : ∀ c : UInt32, c.toBitVec.getLsbD (1 + 31) = false :=
      fun c => BitVec.getLsbD_of_ge c.toBitVec 32 (Nat.le_refl 32)
    rw [crcBit_getLsbD, crcBit_getLsbD, htop, houtside a, houtside b, Bool.and_true,
      Bool.and_true, Bool.false_xor, Bool.false_xor] at hlast
    exact hlast
  refine UInt32.toBitVec_inj.mp (BitVec.eq_of_getLsbD_eq (fun i _ => ?_))
  cases i with
  | zero => exact hlow
  | succ i =>
    have hnext := hbits i
    rw [crcBit_getLsbD, crcBit_getLsbD, hlow, Nat.add_comm 1 i] at hnext
    simpa using hnext

theorem crcBits_injective (turns : List ℕ) :
    Function.Injective (fun c => turns.foldl (fun c _ => crcBit c) c) := by
  induction turns with
  | nil => exact fun _ _ h => h
  | cons t turns ih => exact fun a b h => crcBit_injective (ih h)

theorem xor_right_injective {a b c : UInt32} (h : a ^^^ c = b ^^^ c) : a = b := by
  have hagain := congrArg (· ^^^ c) h
  simpa [UInt32.xor_assoc] using hagain

theorem crcByte_injective (b : UInt8) : Function.Injective (fun c => crcByte c b) := by
  intro c c' h
  exact xor_right_injective (crcBits_injective (List.range 8) h)

theorem crcByte_right_injective (c : UInt32) {b b' : UInt8} (h : crcByte c b = crcByte c b') :
    b = b' := by
  have hxor : c ^^^ b.toUInt32 = c ^^^ b'.toUInt32 := crcBits_injective (List.range 8) h
  rw [UInt32.xor_comm c, UInt32.xor_comm c] at hxor
  have hword := xor_right_injective hxor
  have hnat := congrArg UInt32.toNat hword
  rw [UInt8.toNat_toUInt32, UInt8.toNat_toUInt32] at hnat
  exact UInt8.toNat_inj.mp hnat

theorem foldl_crcByte_injective (s : Str) : Function.Injective (fun c => s.foldl crcByte c) := by
  induction s with
  | nil => exact fun _ _ h => h
  | cons b s ih => exact fun c c' h => crcByte_injective b (ih h)

/-- Strings that differ in one byte have different checksums. -/
theorem checksum_single_byte (front back : Str) {b b' : UInt8}
    (h : checksumIEEE (front ++ b :: back) = checksumIEEE (front ++ b' :: back)) : b = b' := by
  have hword := UInt32.toNat_inj.mp h
  have hfold := xor_right_injective hword
  rw [List.foldl_append, List.foldl_append] at hfold
  exact crcByte_right_injective _ (foldl_crcByte_injective back hfold)

theorem checksum_set {s : Str} {i : ℕ} {x : UInt8}
    (h : checksumIEEE (s.set i x) = checksumIEEE s) : s.set i x = s := by
  by_cases hi : i < s.length
  · have hsplit : s = s.take i ++ s[i] :: s.drop (i + 1) := by
      rw [List.getElem_cons_drop, List.take_append_drop]
    have hset : s.set i x = s.take i ++ x :: s.drop (i + 1) := List.set_eq_take_cons_drop x hi
    rw [hset] at h ⊢
    nth_rewrite 3 [hsplit] at h
    rw [checksum_single_byte _ _ h, ← hsplit]
  · exact List.set_eq_of_length_le (by omega)

end Flux.ChecksumErrors
