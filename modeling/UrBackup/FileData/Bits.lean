import UrBackup.FileData.Slices

namespace filedata

/-! Bits in a row of bytes, with the highest bit of a byte first. -/

section Bits

variable {bytes : List UInt8} {k j : Nat}

def bitMask (k : Nat) : UInt8 :=
  ⟨BitVec.twoPow 8 (7 - k % 8)⟩

def testBit (bytes : List UInt8) (k : Nat) : Bool :=
  bytes.getD (k / 8) 0 &&& bitMask k ≠ 0

def putBit (bytes : List UInt8) (k : Nat) (v : Bool) : List UInt8 :=
  bytes.set (k / 8) (if v then bytes.getD (k / 8) 0 ||| bitMask k else bytes.getD (k / 8) 0 &&& ~~~bitMask k)

@[simp] theorem length_putBit (bytes : List UInt8) (k : Nat) (v : Bool) : (putBit bytes k v).length = bytes.length :=
  List.length_set

theorem getLsbD_bitMask (k i : Nat) : (bitMask k).toBitVec.getLsbD i = decide (7 - k % 8 = i) := by
  rw [bitMask, BitVec.getLsbD_twoPow]
  simp only [Bool.and_eq_right_iff_imp, decide_eq_true_eq]
  omega

theorem and_bitMask_ne_zero (b : UInt8) (k : Nat) : (b &&& bitMask k ≠ 0) ↔ b.toBitVec.getLsbD (7 - k % 8) = true := by
  rw [ne_eq, ← UInt8.toBitVec_inj, UInt8.toBitVec_and, bitMask, BitVec.and_twoPow]
  constructor
  · intro hne
    by_contra hbit
    exact hne (if_neg hbit)
  · intro h hzero
    have hbit := getLsbD_bitMask k (7 - k % 8)
    rw [if_pos h] at hzero
    rw [bitMask, hzero] at hbit
    simp at hbit

/-- A bit that is set is set again. -/
theorem or_bitMask {b : UInt8} (h : b &&& bitMask k ≠ 0) : b ||| bitMask k = b := by
  rw [and_bitMask_ne_zero] at h
  rw [← UInt8.toBitVec_inj, UInt8.toBitVec_or]
  refine BitVec.eq_of_getLsbD_eq fun i _ => ?_
  rw [BitVec.getLsbD_or, getLsbD_bitMask]
  by_cases hi : 7 - k % 8 = i
  · rw [← hi, h, Bool.true_or]
  · simp [hi]

theorem testBit_eq (bytes : List UInt8) (k : Nat) : testBit bytes k = (bytes.getD (k / 8) 0).toBitVec.getLsbD (7 - k % 8) := by
  rw [testBit, Bool.eq_iff_iff, decide_eq_true_iff]
  exact and_bitMask_ne_zero _ k

/-- A bit is changed and no other one. -/
theorem testBit_putBit (hk : k / 8 < bytes.length) (v : Bool) :
    testBit (putBit bytes k v) j = if j = k then v else testBit bytes j := by
  have hplace : (7 - k % 8 = 7 - j % 8) ↔ j % 8 = k % 8 := by omega
  rw [testBit_eq, testBit_eq, putBit]
  by_cases hbyte : j / 8 = k / 8
  · have hsame : j = k ↔ j % 8 = k % 8 := by omega
    rw [hbyte, List.getD_eq_getElem?_getD, List.getElem?_set_self hk, Option.getD_some]
    simp only [hsame]
    cases v with
    | true =>
      rw [if_pos rfl, UInt8.toBitVec_or, BitVec.getLsbD_or, getLsbD_bitMask]
      by_cases h : j % 8 = k % 8 <;> simp [hplace, h]
    | false =>
      rw [if_neg Bool.false_ne_true, UInt8.toBitVec_and, BitVec.getLsbD_and, UInt8.toBitVec_not, BitVec.getLsbD_not,
        getLsbD_bitMask]
      have hlt : 7 - j % 8 < 8 := by omega
      by_cases h : j % 8 = k % 8 <;> simp [hplace, h, hlt]
  · have hne : j ≠ k := fun h => hbyte (h ▸ rfl)
    rw [if_neg hne, List.getD_eq_getElem?_getD, List.getElem?_set_ne (Ne.symm hbyte), ← List.getD_eq_getElem?_getD]

/-- Behind the end there are no bits, nor in what it is extended with. -/
theorem testBit_append_zeros (n : Nat) : testBit (bytes ++ List.replicate n 0) k = testBit bytes k := by
  rw [testBit_eq, testBit_eq]
  congr 2
  rw [List.getD_eq_getElem?_getD, List.getD_eq_getElem?_getD]
  by_cases h : k / 8 < bytes.length
  · rw [List.getElem?_append_left h]
  · rw [List.getElem?_append_right (by omega), List.getElem?_replicate, List.getElem?_eq_none (by omega)]
    split <;> rfl

end Bits

end filedata
