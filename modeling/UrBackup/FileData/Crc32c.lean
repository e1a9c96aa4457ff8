import Mathlib.Logic.Function.Iterate

namespace filedata

/-- One shift of the remainder. -/
def crcBit (crc : UInt32) : UInt32 :=
  let mask := 0 - (crc &&& 1)
  (crc >>> 1) ^^^ (0x82F63B78 &&& mask)

def crcByte (crc : UInt32) (b : UInt8) : UInt32 :=
  crcBit^[8] (crc ^^^ b.toUInt32)

def crc32c (data : List UInt8) : UInt32 :=
  ~~~ (data.foldl crcByte 0xFFFFFFFF)

theorem and_one_toNat (c : UInt32) : (c &&& 1).toNat = c.toNat % 2 := by
  rw [UInt32.toNat_and]
  exact Nat.and_one_is_mod _

theorem crcBit_even {c : UInt32} (h : c.toNat % 2 = 0) : crcBit c = c >>> 1 := by
  have hand : c &&& 1 = 0 := UInt32.toNat_inj.mp (by rw [and_one_toNat, h]; rfl)
  simp [crcBit, hand]

theorem crcBit_odd {c : UInt32} (h : c.toNat % 2 = 1) : crcBit c = (c >>> 1) ^^^ 0x82F63B78 := by
  have hand : c &&& 1 = 1 := UInt32.toNat_inj.mp (by rw [and_one_toNat, h]; rfl)
  simp [crcBit, hand]

theorem shift_toNat (c : UInt32) : (c >>> 1).toNat = c.toNat / 2 := by
  rw [UInt32.toNat_shiftRight]
  exact Nat.shiftRight_eq_div_pow _ 1

/-- The top bit tells whether the polynomial went in. -/
theorem shift_ne_xor (a b : UInt32) : a >>> 1 ≠ (b >>> 1) ^^^ 0x82F63B78 := by
  intro h
  have hbit := congrArg (fun c : UInt32 => c.toNat.testBit 31) h
  have htop (c : UInt32) : (c >>> 1).toNat.testBit 31 = false := by
    rw [shift_toNat]
    exact Nat.testBit_lt_two_pow (by have := c.toNat_lt; omega)
  simp only [UInt32.toNat_xor, Nat.testBit_xor, htop] at hbit
  revert hbit
  decide

theorem crcBit_injective : Function.Injective crcBit := by
  intro a b h
  have hshift : a >>> 1 = b >>> 1 → a.toNat % 2 = b.toNat % 2 → a = b := by
    intro heq hmod
    have hdiv := congrArg UInt32.toNat heq
    rw [shift_toNat, shift_toNat] at hdiv
    exact UInt32.toNat_inj.mp (by omega)
  obtain ha | ha := Nat.mod_two_eq_zero_or_one a.toNat
  · obtain hb | hb := Nat.mod_two_eq_zero_or_one b.toNat
    · rw [crcBit_even ha, crcBit_even hb] at h
      exact hshift h (ha.trans hb.symm)
    · rw [crcBit_even ha, crcBit_odd hb] at h
      exact absurd h (shift_ne_xor a b)
  · obtain hb | hb := Nat.mod_two_eq_zero_or_one b.toNat
    · rw [crcBit_odd ha, crcBit_even hb] at h
      exact absurd h.symm (shift_ne_xor b a)
    · rw [crcBit_odd ha, crcBit_odd hb, UInt32.xor_left_inj] at h
      exact hshift h (ha.trans hb.symm)

theorem crcByte_injective (b : UInt8) : Function.Injective fun crc => crcByte crc b := by
  intro c d h
  have hxor := crcBit_injective.iterate 8 h
  exact (UInt32.xor_left_inj _).mp hxor

theorem crcByte_inj (crc : UInt32) {a b : UInt8} (h : crcByte crc a = crcByte crc b) : a = b := by
  have hxor := (UInt32.xor_right_inj _).mp (crcBit_injective.iterate 8 h)
  exact UInt8.toNat_inj.mp (by simpa using congrArg UInt32.toNat hxor)

theorem foldl_crcByte_injective (zs : List UInt8) : Function.Injective fun crc => zs.foldl crcByte crc := by
  induction zs with
  | nil => exact fun _ _ h => h
  | cons z zs ih => exact fun _ _ h => crcByte_injective z (ih h)

/-- One wrong byte is noticed. -/
theorem crc32c_inj {xs zs : List UInt8} {a b : UInt8} (h : crc32c (xs ++ a :: zs) = crc32c (xs ++ b :: zs)) : a = b := by
  have hfold := UInt32.not_inj.mp h
  rw [List.foldl_append, List.foldl_append, List.foldl_cons, List.foldl_cons] at hfold
  exact crcByte_inj _ (foldl_crcByte_injective zs hfold)

end filedata
