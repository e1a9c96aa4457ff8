import UrBackup.FileList.StringTools
import Mathlib.Data.Nat.Bitwise
import Mathlib.Data.Nat.Log
import Mathlib.Tactic.IntervalCases

namespace urbackup.wire

open stringtools

def SLOT_2_0 : Nat := 0x001fc07f

def SLOT_4_2_0 : Nat := 0xf01fc07f

/-- A left shift of a 32 bit number. -/
def shl32 (a k : Nat) : Nat :=
  (a <<< k) % 2 ^ 32

def byteAt (p : Bytes) (i : Nat) : Nat :=
  (p.getD i 0).toNat

/-- How many bytes a number needs. -/
def varintLenLoop (v : Nat) : Nat :=
  if v >>> 7 ≠ 0 then varintLenLoop (v >>> 7) + 1 else 1
termination_by v
decreasing_by
  rw [Nat.shiftRight_eq_div_pow] at *
  omega

def sqlite3VarintLen (v : Nat) : Nat :=
  let i := varintLenLoop v
  if i = 10 then 9 else i

section Get

variable (p : Bytes) (max_length : Nat)

/-- The ninth byte has all its bits. `b` is read again from the fifth. -/
def getVarint9 (a b s : Nat) : Option (Nat × Nat) :=
  if max_length ≤ 8 then none
  else
    let a := shl32 a 15 ||| byteAt p 8
    let a := a ||| shl32 (b &&& SLOT_2_0) 8
    let s := shl32 s 4 ||| ((byteAt p 4 &&& 0x7f) >>> 3)
    some (9, (s <<< 32) ||| a)

def getVarint8 (a b s : Nat) : Option (Nat × Nat) :=
  if max_length ≤ 7 then none
  else
    let b := shl32 b 14 ||| byteAt p 7
    if b &&& 0x80 = 0 then some (8, ((s >>> 4) <<< 32) ||| (shl32 a 7 ||| (b &&& SLOT_4_2_0)))
    else getVarint9 p max_length a b s

def getVarint7 (a b s : Nat) : Option (Nat × Nat) :=
  if max_length ≤ 6 then none
  else
    let a := shl32 a 14 ||| byteAt p 6
    if a &&& 0x80 = 0 then some (7, ((s >>> 11) <<< 32) ||| ((a &&& SLOT_4_2_0) ||| shl32 (b &&& SLOT_2_0) 7))
    else getVarint8 p max_length (a &&& SLOT_2_0) b s

def getVarint6 (a b s : Nat) : Option (Nat × Nat) :=
  if max_length ≤ 5 then none
  else
    let b := shl32 b 14 ||| byteAt p 5
    if b &&& 0x80 = 0 then some (6, ((s >>> 18) <<< 32) ||| (shl32 (a &&& SLOT_2_0) 7 ||| b))
    else getVarint7 p max_length a b s

def getVarint5 (a b s : Nat) : Option (Nat × Nat) :=
  if max_length ≤ 4 then none
  else
    let a := shl32 a 14 ||| byteAt p 4
    if a &&& 0x80 = 0 then some (5, ((s >>> 18) <<< 32) ||| (a ||| shl32 b 7))
    else getVarint6 p max_length a b (shl32 s 7 ||| b)

def getVarint4 (a b : Nat) : Option (Nat × Nat) :=
  if max_length ≤ 3 then none
  else
    let b := shl32 b 14 ||| byteAt p 3
    if b &&& 0x80 = 0 then some (4, shl32 a 7 ||| (b &&& SLOT_2_0))
    else getVarint5 p max_length a (b &&& SLOT_2_0) a

def getVarint3 (a b : Nat) : Option (Nat × Nat) :=
  if max_length ≤ 2 then none
  else
    let a := shl32 a 14 ||| byteAt p 2
    if a &&& 0x80 = 0 then some (3, (a &&& SLOT_2_0) ||| shl32 (b &&& 0x7f) 7)
    else getVarint4 p max_length (a &&& SLOT_2_0) b

/-- How many bytes a number had and its value; nothing if the bytes end before
it does. The even and the odd bytes are collected separately, in 32 bits each. -/
def sqlite3GetVarint : Option (Nat × Nat) :=
  if max_length = 0 then none
  else
    let a := byteAt p 0
    if a &&& 0x80 = 0 then some (1, a)
    else if max_length ≤ 1 then none
    else
      let b := byteAt p 1
      if b &&& 0x80 = 0 then some (2, shl32 (a &&& 0x7f) 7 ||| b)
      else getVarint3 p max_length a b

end Get

section Put

/-- `k` bytes of seven bits each, the least significant one first. -/
def septets : Nat → Nat → List Nat
  | 0, _ => []
  | k + 1, v => ((v &&& 0x7f) ||| 0x80) :: septets k (v >>> 7)

/-- The bytes of seven bits until nothing is left. -/
def septetLoop (v : Nat) : List Nat :=
  ((v &&& 0x7f) ||| 0x80) :: if v >>> 7 ≠ 0 then septetLoop (v >>> 7) else []
termination_by v
decreasing_by
  rw [Nat.shiftRight_eq_div_pow] at *
  omega

def putVarint64 (v : Nat) : Bytes :=
  if v &&& (0xff000000 <<< 32) ≠ 0 then
    (((v % 256) :: septets 8 (v >>> 8)).map UInt8.ofNat).reverse
  else (((septetLoop v).modify 0 (· &&& 0x7f)).map UInt8.ofNat).reverse

def sqlite3PutVarint (v : Nat) : Bytes :=
  if v ≤ 0x7f then [UInt8.ofNat (v &&& 0x7f)]
  else if v ≤ 0x3fff then [UInt8.ofNat (((v >>> 7) &&& 0x7f) ||| 0x80), UInt8.ofNat (v &&& 0x7f)]
  else putVarint64 v

end Put

section Bits

/-- Bits of two numbers, above and below a position. -/
theorem or_split (k a b : Nat) : a ||| b = ((a / 2 ^ k) ||| (b / 2 ^ k)) * 2 ^ k + ((a % 2 ^ k) ||| (b % 2 ^ k)) := by
  rw [← Nat.or_div_two_pow, ← Nat.or_mod_two_pow, Nat.mul_comm, Nat.div_add_mod]

theorem and_split (k a b : Nat) : a &&& b = ((a / 2 ^ k) &&& (b / 2 ^ k)) * 2 ^ k + ((a % 2 ^ k) &&& (b % 2 ^ k)) := by
  rw [← Nat.and_div_two_pow, ← Nat.and_mod_two_pow, Nat.mul_comm, Nat.div_add_mod]

theorem or_low {k a b : Nat} (ha : a % 2 ^ k = 0) (hb : b < 2 ^ k) : a ||| b = a + b := by
  rw [or_split k, ha, Nat.div_eq_of_lt hb, Nat.mod_eq_of_lt hb, Nat.or_zero, Nat.zero_or]
  have := Nat.div_add_mod a (2 ^ k)
  rw [ha] at this
  rw [Nat.mul_comm]
  omega

theorem and_0x7f (a : Nat) : a &&& 0x7f = a % 128 :=
  Nat.and_two_pow_sub_one_eq_mod a 7

theorem and_0x80 (a : Nat) : a &&& 0x80 = 0 ↔ a % 256 < 128 := by
  rw [and_split 7 a 0x80]
  norm_num
  omega

theorem and_slot_2_0 (a : Nat) : a &&& SLOT_2_0 = a / 2 ^ 14 % 128 * 2 ^ 14 + a % 128 := by
  rw [and_split 14 a SLOT_2_0]
  have h1 : SLOT_2_0 / 2 ^ 14 = 0x7f := by decide
  have h2 : SLOT_2_0 % 2 ^ 14 = 0x7f := by decide
  rw [h1, h2, and_0x7f, and_0x7f]
  omega

theorem and_slot_4_2_0 (a : Nat) :
    a &&& SLOT_4_2_0 = a / 2 ^ 28 % 16 * 2 ^ 28 + a / 2 ^ 14 % 128 * 2 ^ 14 + a % 128 := by
  rw [and_split 28 a SLOT_4_2_0]
  have h1 : SLOT_4_2_0 / 2 ^ 28 = 2 ^ 4 - 1 := by decide
  have h2 : SLOT_4_2_0 % 2 ^ 28 = SLOT_2_0 := by decide
  rw [h1, h2, Nat.and_two_pow_sub_one_eq_mod, and_slot_2_0]
  omega

theorem shl32_eq (a k : Nat) : shl32 a k = a * 2 ^ k % 2 ^ 32 := by
  rw [shl32, Nat.shiftLeft_eq]

theorem or_septets_high {u v w : Nat} (hv : v < 128) (hw : w < 128) :
    (u * 2 ^ 14 + w) ||| (v * 2 ^ 7) = u * 2 ^ 14 + v * 2 ^ 7 + w := by
  rw [or_split 7, show (u * 2 ^ 14 + w) / 2 ^ 7 = u * 2 ^ 7 by omega, show v * 2 ^ 7 / 2 ^ 7 = v by omega,
    show (u * 2 ^ 14 + w) % 2 ^ 7 = w by omega, show v * 2 ^ 7 % 2 ^ 7 = 0 by omega,
    or_low (Nat.mul_mod_left _ _) hv, Nat.or_zero]
  omega

/-- Even and odd septets put together. -/
theorem or_septets {u v w x : Nat} (hv : v < 128) (hw : w < 128) (hx : x < 128) :
    (u * 2 ^ 21 + w * 2 ^ 7) ||| (v * 2 ^ 14 + x) = u * 2 ^ 21 + v * 2 ^ 14 + w * 2 ^ 7 + x := by
  rw [or_split 7, show (u * 2 ^ 21 + w * 2 ^ 7) / 2 ^ 7 = u * 2 ^ 14 + w by omega,
    show (v * 2 ^ 14 + x) / 2 ^ 7 = v * 2 ^ 7 by omega, show (u * 2 ^ 21 + w * 2 ^ 7) % 2 ^ 7 = 0 by omega,
    show (v * 2 ^ 14 + x) % 2 ^ 7 = x by omega, or_septets_high hv hw, Nat.zero_or]
  omega

/-- The same with a last byte behind them. -/
theorem or_septets_low {k u v w x y : Nat} (hv : v < 128) (hw : w < 128) (hx : x < 128) (hy : y < 2 ^ k) :
    ((u * 2 ^ 21 + w * 2 ^ 7) * 2 ^ k + y) ||| ((v * 2 ^ 14 + x) * 2 ^ k) =
      (u * 2 ^ 21 + v * 2 ^ 14 + w * 2 ^ 7 + x) * 2 ^ k + y := by
  have hpos : 0 < 2 ^ k := Nat.two_pow_pos k
  rw [or_split k, Nat.add_comm _ y, Nat.add_mul_div_right _ _ hpos, Nat.div_eq_of_lt hy, Nat.zero_add,
    Nat.mul_div_left _ hpos, or_septets hv hw hx, Nat.add_mul_mod_self_right, Nat.mod_eq_of_lt hy, Nat.mul_mod_left,
    Nat.or_zero, Nat.add_comm]

/-- A byte appended to what was collected. -/
theorem shl32_or (a : Nat) {k b : Nat} (hk : k ≤ 32) (hb : b < 2 ^ k) : shl32 a k ||| b = a * 2 ^ k % 2 ^ 32 + b := by
  rw [shl32_eq, or_low _ hb]
  obtain ⟨j, hj⟩ := Nat.exists_eq_add_of_le hk
  rw [hj, Nat.pow_add, Nat.mul_comm (2 ^ k), Nat.mul_mod_mul_right, Nat.mul_mod_left]

theorem shl_or_32 (a : Nat) {b : Nat} (hb : b < 2 ^ 32) : (a <<< 32) ||| b = a * 2 ^ 32 + b := by
  rw [Nat.shiftLeft_eq, or_low (Nat.mul_mod_left _ _) hb]

end Bits

section Read

-- `d0` to `d7` are the septets in the order they are read; `S` stands for the first four of them
variable {p : Bytes} {m d0 d1 d2 d3 d4 d5 d6 d7 d8 : Nat} (h0 : d0 < 128) (h1 : d1 < 128) (h2 : d2 < 128) (h3 : d3 < 128)
  (h4 : d4 < 128) (h5 : d5 < 128) (h6 : d6 < 128) (h7 : d7 < 128)

include h0 h2 in
theorem getVarint3_more (hm : 2 < m) (hp : byteAt p 2 = 128 + d2) (b : Nat) :
    getVarint3 p m (128 + d0) b = getVarint4 p m (d0 * 2 ^ 14 + d2) b := by
  unfold getVarint3
  rw [if_neg (by omega), hp, shl32_or _ (by omega) (by omega)]
  dsimp only
  rw [if_neg (by rw [and_0x80]; omega), and_slot_2_0]
  refine congrArg (getVarint4 p m · b) ?_
  omega

include h0 h1 h2 in
theorem getVarint3_end (hm : 2 < m) (hp : byteAt p 2 = d2) :
    getVarint3 p m (128 + d0) (128 + d1) = some (3, d0 * 2 ^ 14 + d1 * 2 ^ 7 + d2) := by
  unfold getVarint3
  rw [if_neg (by omega), hp, shl32_or _ (by omega) (by omega)]
  dsimp only
  rw [if_pos (by rw [and_0x80]; omega), and_slot_2_0, and_0x7f, shl32_eq,
    show ((128 + d0) * 2 ^ 14 % 2 ^ 32 + d2) / 2 ^ 14 % 128 * 2 ^ 14 + ((128 + d0) * 2 ^ 14 % 2 ^ 32 + d2) % 128 =
      (0 * 2 ^ 21 + d0 * 2 ^ 7) * 2 ^ 7 + d2 by omega,
    show (128 + d1) % 128 * 2 ^ 7 % 2 ^ 32 = (0 * 2 ^ 14 + d1) * 2 ^ 7 by omega, or_septets_low (by omega) h0 h1 h2]
  refine congrArg (fun v => some (3, v)) ?_
  omega

include h1 h3 in
theorem getVarint4_more (hm : 3 < m) (hp : byteAt p 3 = 128 + d3) (a : Nat) :
    getVarint4 p m a (128 + d1) = getVarint5 p m a (d1 * 2 ^ 14 + d3) a := by
  unfold getVarint4
  rw [if_neg (by omega), hp, shl32_or _ (by omega) (by omega)]
  dsimp only
  rw [if_neg (by rw [and_0x80]; omega), and_slot_2_0]
  refine congrArg (getVarint5 p m a · a) ?_
  omega

include h0 h1 h2 h3 in
theorem getVarint4_end (hm : 3 < m) (hp : byteAt p 3 = d3) :
    getVarint4 p m (d0 * 2 ^ 14 + d2) (128 + d1) = some (4, d0 * 2 ^ 21 + d1 * 2 ^ 14 + d2 * 2 ^ 7 + d3) := by
  unfold getVarint4
  rw [if_neg (by omega), hp, shl32_or _ (by omega) (by omega)]
  dsimp only
  rw [if_pos (by rw [and_0x80]; omega), and_slot_2_0, shl32_eq,
    show ((128 + d1) * 2 ^ 14 % 2 ^ 32 + d3) / 2 ^ 14 % 128 * 2 ^ 14 + ((128 + d1) * 2 ^ 14 % 2 ^ 32 + d3) % 128 =
      d1 * 2 ^ 14 + d3 by omega,
    show (d0 * 2 ^ 14 + d2) * 2 ^ 7 % 2 ^ 32 = d0 * 2 ^ 21 + d2 * 2 ^ 7 by omega, or_septets h1 h2 h3]

include h0 h1 h2 h3 h4 in
theorem getVarint5_more (hm : 4 < m) (hp : byteAt p 4 = 128 + d4) :
    getVarint5 p m (d0 * 2 ^ 14 + d2) (d1 * 2 ^ 14 + d3) (d0 * 2 ^ 14 + d2) =
      getVarint6 p m (d0 % 16 * 2 ^ 28 + d2 * 2 ^ 14 + (128 + d4)) (d1 * 2 ^ 14 + d3)
        (d0 * 2 ^ 21 + d1 * 2 ^ 14 + d2 * 2 ^ 7 + d3) := by
  unfold getVarint5
  rw [if_neg (by omega), hp, shl32_or _ (by omega) (by omega)]
  dsimp only
  rw [if_neg (by rw [and_0x80]; omega), shl32_eq,
    show (d0 * 2 ^ 14 + d2) * 2 ^ 7 % 2 ^ 32 = d0 * 2 ^ 21 + d2 * 2 ^ 7 by omega, or_septets h1 h2 h3]
  refine congrArg (getVarint6 p m · _ _) ?_
  omega

include h1 h2 h3 h4 in
theorem getVarint5_end (hm : 4 < m) (hp : byteAt p 4 = d4) :
    getVarint5 p m (d0 * 2 ^ 14 + d2) (d1 * 2 ^ 14 + d3) (d0 * 2 ^ 14 + d2) =
      some (5, d0 * 2 ^ 28 + d1 * 2 ^ 21 + d2 * 2 ^ 14 + d3 * 2 ^ 7 + d4) := by
  unfold getVarint5
  rw [if_neg (by omega), hp, shl32_or _ (by omega) (by omega)]
  dsimp only
  rw [if_pos (by rw [and_0x80]; omega), shl32_eq,
    show (d0 * 2 ^ 14 + d2) * 2 ^ 14 % 2 ^ 32 + d4 = (d0 % 16 * 2 ^ 21 + d2 * 2 ^ 7) * 2 ^ 7 + d4 by omega,
    show (d1 * 2 ^ 14 + d3) * 2 ^ 7 % 2 ^ 32 = (d1 * 2 ^ 14 + d3) * 2 ^ 7 by omega, or_septets_low h1 h2 h3 h4,
    Nat.shiftRight_eq_div_pow, shl_or_32 _ (by omega)]
  refine congrArg (fun v => some (5, v)) ?_
  omega

include h3 h5 in
theorem getVarint6_more (hm : 5 < m) (hp : byteAt p 5 = 128 + d5) (a s : Nat) :
    getVarint6 p m a (d1 * 2 ^ 14 + d3) s = getVarint7 p m a (d1 % 16 * 2 ^ 28 + d3 * 2 ^ 14 + (128 + d5)) s := by
  unfold getVarint6
  rw [if_neg (by omega), hp, shl32_or _ (by omega) (by omega)]
  dsimp only
  rw [if_neg (by rw [and_0x80]; omega)]
  refine congrArg (getVarint7 p m a · s) ?_
  omega

include h2 h3 h4 h5 in
theorem getVarint6_end (hm : 5 < m) (hp : byteAt p 5 = d5) :
    getVarint6 p m (d0 % 16 * 2 ^ 28 + d2 * 2 ^ 14 + (128 + d4)) (d1 * 2 ^ 14 + d3)
        (d0 * 2 ^ 21 + d1 * 2 ^ 14 + d2 * 2 ^ 7 + d3) =
      some (6, d0 * 2 ^ 35 + d1 * 2 ^ 28 + d2 * 2 ^ 21 + d3 * 2 ^ 14 + d4 * 2 ^ 7 + d5) := by
  unfold getVarint6
  rw [if_neg (by omega), hp, shl32_or _ (by omega) (by omega)]
  dsimp only
  rw [if_pos (by rw [and_0x80]; omega), and_slot_2_0, shl32_eq,
    show ((d0 % 16 * 2 ^ 28 + d2 * 2 ^ 14 + (128 + d4)) / 2 ^ 14 % 128 * 2 ^ 14 +
      (d0 % 16 * 2 ^ 28 + d2 * 2 ^ 14 + (128 + d4)) % 128) * 2 ^ 7 % 2 ^ 32 = (d2 * 2 ^ 14 + d4) * 2 ^ 7 by omega,
    show (d1 * 2 ^ 14 + d3) * 2 ^ 14 % 2 ^ 32 + d5 = (d1 % 16 * 2 ^ 21 + d3 * 2 ^ 7) * 2 ^ 7 + d5 by omega,
    Nat.or_comm ((d2 * 2 ^ 14 + d4) * 2 ^ 7), or_septets_low h2 h3 h4 h5,
    Nat.shiftRight_eq_div_pow, shl_or_32 _ (by omega)]
  refine congrArg (fun v => some (6, v)) ?_
  omega

include h4 h6 in
theorem getVarint7_more (hm : 6 < m) (hp : byteAt p 6 = 128 + d6) (b s : Nat) :
    getVarint7 p m (d0 % 16 * 2 ^ 28 + d2 * 2 ^ 14 + (128 + d4)) b s = getVarint8 p m (d4 * 2 ^ 14 + d6) b s := by
  unfold getVarint7
  rw [if_neg (by omega), hp, shl32_or _ (by omega) (by omega)]
  dsimp only
  rw [if_neg (by rw [and_0x80]; omega), and_slot_2_0]
  refine congrArg (getVarint8 p m · b s) ?_
  omega

include h3 h4 h5 h6 in
theorem getVarint7_end (hm : 6 < m) (hp : byteAt p 6 = d6) :
    getVarint7 p m (d0 % 16 * 2 ^ 28 + d2 * 2 ^ 14 + (128 + d4)) (d1 % 16 * 2 ^ 28 + d3 * 2 ^ 14 + (128 + d5))
        (d0 * 2 ^ 21 + d1 * 2 ^ 14 + d2 * 2 ^ 7 + d3) =
      some (7, d0 * 2 ^ 42 + d1 * 2 ^ 35 + d2 * 2 ^ 28 + d3 * 2 ^ 21 + d4 * 2 ^ 14 + d5 * 2 ^ 7 + d6) := by
  unfold getVarint7
  rw [if_neg (by omega), hp, shl32_or _ (by omega) (by omega)]
  dsimp only
  rw [if_pos (by rw [and_0x80]; omega), and_slot_4_2_0, and_slot_2_0, shl32_eq,
    show (d0 % 16 * 2 ^ 28 + d2 * 2 ^ 14 + (128 + d4)) * 2 ^ 14 % 2 ^ 32 + d6 =
      d2 % 16 * 2 ^ 28 + (128 + d4) * 2 ^ 14 + d6 by omega,
    show (d2 % 16 * 2 ^ 28 + (128 + d4) * 2 ^ 14 + d6) / 2 ^ 28 % 16 * 2 ^ 28 +
      (d2 % 16 * 2 ^ 28 + (128 + d4) * 2 ^ 14 + d6) / 2 ^ 14 % 128 * 2 ^ 14 +
      (d2 % 16 * 2 ^ 28 + (128 + d4) * 2 ^ 14 + d6) % 128 = (d2 % 16 * 2 ^ 21 + d4 * 2 ^ 7) * 2 ^ 7 + d6 by omega,
    show ((d1 % 16 * 2 ^ 28 + d3 * 2 ^ 14 + (128 + d5)) / 2 ^ 14 % 128 * 2 ^ 14 +
      (d1 % 16 * 2 ^ 28 + d3 * 2 ^ 14 + (128 + d5)) % 128) * 2 ^ 7 % 2 ^ 32 = (d3 * 2 ^ 14 + d5) * 2 ^ 7 by omega,
    or_septets_low h3 h4 h5 h6, Nat.shiftRight_eq_div_pow, shl_or_32 _ (by omega)]
  refine congrArg (fun v => some (7, v)) ?_
  omega

include h5 h7 in
theorem getVarint8_more (hm : 7 < m) (hp : byteAt p 7 = 128 + d7) (a s : Nat) :
    getVarint8 p m a (d1 % 16 * 2 ^ 28 + d3 * 2 ^ 14 + (128 + d5)) s =
      getVarint9 p m a (d3 % 16 * 2 ^ 28 + (128 + d5) * 2 ^ 14 + (128 + d7)) s := by
  unfold getVarint8
  rw [if_neg (by omega), hp, shl32_or _ (by omega) (by omega)]
  dsimp only
  rw [if_neg (by rw [and_0x80]; omega)]
  refine congrArg (getVarint9 p m a · s) ?_
  omega

include h4 h5 h6 h7 in
theorem getVarint8_end (hm : 7 < m) (hp : byteAt p 7 = d7) :
    getVarint8 p m (d4 * 2 ^ 14 + d6) (d1 % 16 * 2 ^ 28 + d3 * 2 ^ 14 + (128 + d5))
        (d0 * 2 ^ 21 + d1 * 2 ^ 14 + d2 * 2 ^ 7 + d3) =
      some (8, d0 * 2 ^ 49 + d1 * 2 ^ 42 + d2 * 2 ^ 35 + d3 * 2 ^ 28 + d4 * 2 ^ 21 + d5 * 2 ^ 14 + d6 * 2 ^ 7 + d7) := by
  unfold getVarint8
  rw [if_neg (by omega), hp, shl32_or _ (by omega) (by omega)]
  dsimp only
  rw [if_pos (by rw [and_0x80]; omega), and_slot_4_2_0, shl32_eq,
    show (d1 % 16 * 2 ^ 28 + d3 * 2 ^ 14 + (128 + d5)) * 2 ^ 14 % 2 ^ 32 + d7 =
      d3 % 16 * 2 ^ 28 + (128 + d5) * 2 ^ 14 + d7 by omega,
    show (d3 % 16 * 2 ^ 28 + (128 + d5) * 2 ^ 14 + d7) / 2 ^ 28 % 16 * 2 ^ 28 +
      (d3 % 16 * 2 ^ 28 + (128 + d5) * 2 ^ 14 + d7) / 2 ^ 14 % 128 * 2 ^ 14 +
      (d3 % 16 * 2 ^ 28 + (128 + d5) * 2 ^ 14 + d7) % 128 = (d3 % 16 * 2 ^ 21 + d5 * 2 ^ 7) * 2 ^ 7 + d7 by omega,
    show (d4 * 2 ^ 14 + d6) * 2 ^ 7 % 2 ^ 32 = (d4 * 2 ^ 14 + d6) * 2 ^ 7 by omega,
    Nat.or_comm ((d4 * 2 ^ 14 + d6) * 2 ^ 7), or_septets_low h4 h5 h6 h7, Nat.shiftRight_eq_div_pow,
    shl_or_32 _ (by omega)]
  refine congrArg (fun v => some (8, v)) ?_
  omega

include h0 h1 h2 h3 h4 h5 h6 h7 in
theorem getVarint9_end (h8 : d8 < 256) (hm : 8 < m) (hp4 : byteAt p 4 = 128 + d4) (hp : byteAt p 8 = d8) :
    getVarint9 p m (d4 * 2 ^ 14 + d6) (d3 % 16 * 2 ^ 28 + (128 + d5) * 2 ^ 14 + (128 + d7))
        (d0 * 2 ^ 21 + d1 * 2 ^ 14 + d2 * 2 ^ 7 + d3) =
      some (9, d0 * 2 ^ 57 + d1 * 2 ^ 50 + d2 * 2 ^ 43 + d3 * 2 ^ 36 + d4 * 2 ^ 29 + d5 * 2 ^ 22 + d6 * 2 ^ 15 +
        d7 * 2 ^ 8 + d8) := by
  unfold getVarint9
  rw [if_neg (by omega), hp, hp4, shl32_or _ (by omega) (by omega)]
  dsimp only
  rw [and_slot_2_0, and_0x7f, Nat.shiftRight_eq_div_pow, shl32_or _ (by omega) (by omega), shl32_eq,
    show (d4 * 2 ^ 14 + d6) * 2 ^ 15 % 2 ^ 32 + d8 = (d4 % 8 * 2 ^ 21 + d6 * 2 ^ 7) * 2 ^ 8 + d8 by omega,
    show ((d3 % 16 * 2 ^ 28 + (128 + d5) * 2 ^ 14 + (128 + d7)) / 2 ^ 14 % 128 * 2 ^ 14 +
      (d3 % 16 * 2 ^ 28 + (128 + d5) * 2 ^ 14 + (128 + d7)) % 128) * 2 ^ 8 % 2 ^ 32 = (d5 * 2 ^ 14 + d7) * 2 ^ 8 by omega,
    or_septets_low h5 h6 h7 h8, shl_or_32 _ (by omega)]
  refine congrArg (fun v => some (9, v)) ?_
  omega

end Read

section RoundTrip

theorem shiftRight_7 (v : Nat) : v >>> 7 = v / 128 :=
  Nat.shiftRight_eq_div_pow v 7

theorem or_0x80 (v : Nat) : (v &&& 0x7f) ||| 0x80 = 128 + v % 128 := by
  rw [and_0x7f, Nat.or_comm, or_low (show 128 % 2 ^ 7 = 0 by rfl) (by omega)]

theorem toNat_septet (v : Nat) : (UInt8.ofNat ((v &&& 0x7f) ||| 0x80)).toNat = 128 + v % 128 := by
  rw [or_0x80, UInt8.toNat_ofNat']
  omega

theorem toNat_lastSeptet (v : Nat) : (UInt8.ofNat (((v &&& 0x7f) ||| 0x80) &&& 0x7f)).toNat = v % 128 := by
  rw [or_0x80, and_0x7f, UInt8.toNat_ofNat']
  omega

/-- The loops go through as many septets as the number has. -/
theorem septetLoop_eq {n v : Nat} (hlt : v < 128 ^ (n + 1)) (hge : n ≠ 0 → 128 ^ n ≤ v) :
    septetLoop v = septets (n + 1) v ∧ varintLenLoop v = n + 1 := by
  induction n generalizing v with
  | zero =>
    rw [septetLoop, varintLenLoop, shiftRight_7]
    have hzero : v / 128 = 0 := Nat.div_eq_of_lt (by simpa using hlt)
    rw [if_neg (by omega), if_neg (by omega)]
    exact ⟨rfl, rfl⟩
  | succ n ih =>
    have hge' := hge (by omega)
    rw [Nat.pow_succ] at hlt hge'
    have hdiv : v / 128 < 128 ^ (n + 1) := Nat.div_lt_of_lt_mul (by rw [Nat.mul_comm]; exact hlt)
    have hdiv' : 128 ^ n ≤ v / 128 := (Nat.le_div_iff_mul_le (by omega)).mpr hge'
    have hpos : 0 < 128 ^ n := Nat.pow_pos (by omega)
    obtain ⟨hseptets, hlen⟩ := ih hdiv (fun _ => hdiv')
    rw [septetLoop, varintLenLoop, shiftRight_7, if_pos (by omega), if_pos (by omega), hseptets, hlen]
    refine ⟨?_, rfl⟩
    show _ = ((v &&& 0x7f) ||| 0x80) :: septets (n + 1) (v >>> 7)
    rw [shiftRight_7]

theorem and_top (v : Nat) (h : v < 2 ^ 64) : v &&& (0xff000000 <<< 32) = 0 ↔ v < 2 ^ 56 := by
  have htop : (0xff000000 <<< 32) / 2 ^ 56 = 2 ^ 8 - 1 := by decide
  have hlow : (0xff000000 <<< 32) % 2 ^ 56 = 0 := by decide
  rw [and_split 56, htop, hlow, Nat.and_two_pow_sub_one_eq_mod, Nat.and_zero]
  omega

/-- A number of three to eight bytes. -/
theorem sqlite3PutVarint_eq {n v : Nat} (hn : 1 < n) (hn' : n < 8) (hlt : v < 128 ^ (n + 1)) (hge : 128 ^ n ≤ v) :
    sqlite3PutVarint v = (((septets (n + 1) v).modify 0 (· &&& 0x7f)).map UInt8.ofNat).reverse ∧
      sqlite3VarintLen v = n + 1 := by
  have hlow : 128 ^ 2 ≤ v := Nat.le_trans (Nat.pow_le_pow_right (by omega) hn) hge
  have hhigh : v < 128 ^ 8 := Nat.lt_of_lt_of_le hlt (Nat.pow_le_pow_right (by omega) (by omega))
  obtain ⟨hseptets, hlen⟩ := septetLoop_eq hlt (fun _ => hge)
  constructor
  · rw [sqlite3PutVarint, if_neg (by omega), if_neg (by omega), putVarint64,
      if_neg (by rw [ne_eq, not_not, and_top v (by omega)]; omega), hseptets]
  · rw [sqlite3VarintLen, hlen, if_neg (by omega)]

theorem sqlite3PutVarint_nine {v : Nat} (hlt : v < 2 ^ 64) (hge : 2 ^ 56 ≤ v) :
    sqlite3PutVarint v = (((v % 256) :: septets 8 (v >>> 8)).map UInt8.ofNat).reverse ∧ sqlite3VarintLen v = 9 := by
  constructor
  · rw [sqlite3PutVarint, if_neg (by omega), if_neg (by omega), putVarint64,
      if_pos (by rw [ne_eq, and_top v hlt]; omega)]
  · rw [sqlite3VarintLen]
    by_cases h9 : v < 128 ^ 9
    · obtain ⟨_, hlen⟩ := septetLoop_eq (show v < 128 ^ (8 + 1) from h9) (fun _ => show 128 ^ 8 ≤ v by omega)
      rw [hlen]
      rfl
    · obtain ⟨_, hlen⟩ := septetLoop_eq (show v < 128 ^ (9 + 1) by omega) (fun _ => Nat.not_lt.mp h9)
      rw [hlen]
      rfl

theorem sqlite3GetVarint_more {p : Bytes} {m d0 d1 : Nat} (h0 : d0 < 128) (h1 : d1 < 128) (hm : 1 < m)
    (hp0 : byteAt p 0 = 128 + d0) (hp1 : byteAt p 1 = 128 + d1) :
    sqlite3GetVarint p m = getVarint3 p m (128 + d0) (128 + d1) := by
  unfold sqlite3GetVarint
  rw [if_neg (by omega), hp0, hp1]
  dsimp only
  rw [if_neg (by rw [and_0x80]; omega), if_neg (by omega), if_neg (by rw [and_0x80]; omega)]

/-- The septet of a number, counted from the lowest. -/
def septetAt : Nat → Nat → Nat
  | 0, v => v % 128
  | k + 1, v => septetAt k (v / 128)

theorem septetAt_lt (k v : Nat) : septetAt k v < 128 := by
  induction k generalizing v with
  | zero => exact Nat.mod_lt _ (by omega)
  | succ k ih => exact ih (v / 128)

theorem length_septets (k v : Nat) : (septets k v).length = k := by
  induction k generalizing v with
  | zero => rfl
  | succ k ih => rw [septets, List.length_cons, ih]

/-- All bytes but the last one of a number, read from the front. -/
theorem byteAt_septets (k v : Nat) (tail : Bytes) {i : Nat} (hi : i < k) :
    byteAt (((septets k v).map UInt8.ofNat).reverse ++ tail) i = 128 + septetAt (k - 1 - i) v := by
  induction k generalizing v tail with
  | zero => omega
  | succ k ih =>
    rw [septets, List.map_cons, List.reverse_cons, List.append_assoc]
    by_cases hlast : i = k
    · subst hlast
      have hlen : ((septets i (v >>> 7)).map UInt8.ofNat).reverse.length = i := by simp [length_septets]
      rw [byteAt, List.getD_eq_getElem?_getD, List.getElem?_append_right (by omega), hlen, Nat.sub_self,
        Nat.add_sub_cancel, Nat.sub_self]
      exact toNat_septet v
    · rw [ih (v >>> 7) _ (by omega), shiftRight_7, show k + 1 - 1 - i = k - 1 - i + 1 by omega]
      rfl

theorem byteAt_last {xs : Bytes} {n : Nat} (hlen : xs.length = n) (x : UInt8) (tail : Bytes) :
    byteAt (xs ++ [x] ++ tail) n = x.toNat := by
  rw [byteAt, List.getD_eq_getElem?_getD, List.append_assoc, List.getElem?_append_right (by omega), hlen, Nat.sub_self]
  rfl

/-- The bytes of a number of three to eight bytes. -/
theorem byteAt_put {n v : Nat} (hn : 1 < n) (hn' : n < 8) (hlt : v < 128 ^ (n + 1)) (hge : 128 ^ n ≤ v) (tail : Bytes) :
    (∀ i, i < n → byteAt (sqlite3PutVarint v ++ tail) i = 128 + septetAt (n - i) v) ∧
      byteAt (sqlite3PutVarint v ++ tail) n = septetAt 0 v ∧ (sqlite3PutVarint v).length = n + 1 := by
  rw [(sqlite3PutVarint_eq hn hn' hlt hge).1, septets, List.modify_zero_cons, List.map_cons, List.reverse_cons]
  refine ⟨fun i hi => ?_, ?_, ?_⟩
  · rw [List.append_assoc, byteAt_septets n _ _ hi, shiftRight_7, show n - i = n - 1 - i + 1 by omega]
    rfl
  · rw [byteAt_last (by simp [length_septets])]
    exact toNat_lastSeptet v
  · simp [length_septets]

theorem byteAt_put_nine {v : Nat} (hlt : v < 2 ^ 64) (hge : 2 ^ 56 ≤ v) (tail : Bytes) :
    (∀ i, i < 8 → byteAt (sqlite3PutVarint v ++ tail) i = 128 + septetAt (7 - i) (v / 256)) ∧
      byteAt (sqlite3PutVarint v ++ tail) 8 = v % 256 ∧ (sqlite3PutVarint v).length = 9 := by
  have hbyte : (UInt8.ofNat (v % 256)).toNat = v % 256 := by
    rw [UInt8.toNat_ofNat']
    omega
  rw [(sqlite3PutVarint_nine hlt hge).1, List.map_cons, List.reverse_cons]
  refine ⟨fun i hi => ?_, ?_, ?_⟩
  · rw [List.append_assoc, byteAt_septets 8 _ _ hi, Nat.shiftRight_eq_div_pow]
  · rw [byteAt_last (by simp [length_septets]), hbyte]
  · simp [length_septets]

section Get

variable {v m : Nat} (tail : Bytes)

theorem get_put_1 (hlt : v < 128) (hm : 0 < m) : sqlite3GetVarint (sqlite3PutVarint v ++ tail) m = some (1, v) := by
  have hbyte : byteAt (sqlite3PutVarint v ++ tail) 0 = v := by
    rw [sqlite3PutVarint, if_pos (by omega), and_0x7f]
    show (UInt8.ofNat (v % 128)).toNat = v
    rw [UInt8.toNat_ofNat']
    omega
  unfold sqlite3GetVarint
  rw [if_neg (by omega), hbyte]
  dsimp only
  rw [if_pos (by rw [and_0x80]; omega)]

theorem get_put_2 (hlt : v < 128 ^ 2) (hge : 128 ≤ v) (hm : 1 < m) :
    sqlite3GetVarint (sqlite3PutVarint v ++ tail) m = some (2, v) := by
  have hput : sqlite3PutVarint v = [UInt8.ofNat (((v >>> 7) &&& 0x7f) ||| 0x80), UInt8.ofNat (v &&& 0x7f)] := by
    rw [sqlite3PutVarint, if_neg (by omega), if_pos (by omega)]
  have hbyte0 : byteAt (sqlite3PutVarint v ++ tail) 0 = 128 + v / 128 % 128 := by
    rw [hput, ← shiftRight_7]
    exact toNat_septet _
  have hbyte1 : byteAt (sqlite3PutVarint v ++ tail) 1 = v % 128 := by
    rw [hput]
    show (UInt8.ofNat (v &&& 0x7f)).toNat = v % 128
    rw [and_0x7f, UInt8.toNat_ofNat']
    omega
  unfold sqlite3GetVarint
  rw [if_neg (by omega), hbyte0, hbyte1]
  dsimp only
  rw [if_neg (by rw [and_0x80]; omega), if_neg (by omega), if_pos (by rw [and_0x80]; omega), and_0x7f,
    shl32_or _ (by omega) (by omega)]
  refine congrArg (fun v => some (2, v)) ?_
  omega

section Continued

variable {p : Bytes} {d : Nat → Nat} (hd : ∀ i, d i < 128)

include hd

theorem get_3 (hbytes : ∀ i, i < 2 → byteAt p i = 128 + d i) (hm : 1 < m) :
    sqlite3GetVarint p m = getVarint3 p m (128 + d 0) (128 + d 1) :=
  sqlite3GetVarint_more (hd 0) (hd 1) hm (hbytes 0 (by omega)) (hbytes 1 (by omega))

theorem get_4 (hbytes : ∀ i, i < 3 → byteAt p i = 128 + d i) (hm : 2 < m) :
    sqlite3GetVarint p m = getVarint4 p m (d 0 * 2 ^ 14 + d 2) (128 + d 1) := by
  rw [get_3 hd (fun i hi => hbytes i (by omega)) (by omega), getVarint3_more (hd 0) (hd 2) hm (hbytes 2 (by omega))]

theorem get_5 (hbytes : ∀ i, i < 4 → byteAt p i = 128 + d i) (hm : 3 < m) :
    sqlite3GetVarint p m = getVarint5 p m (d 0 * 2 ^ 14 + d 2) (d 1 * 2 ^ 14 + d 3) (d 0 * 2 ^ 14 + d 2) := by
  rw [get_4 hd (fun i hi => hbytes i (by omega)) (by omega), getVarint4_more (hd 1) (hd 3) hm (hbytes 3 (by omega))]

theorem get_6 (hbytes : ∀ i, i < 5 → byteAt p i = 128 + d i) (hm : 4 < m) :
    sqlite3GetVarint p m = getVarint6 p m (d 0 % 16 * 2 ^ 28 + d 2 * 2 ^ 14 + (128 + d 4)) (d 1 * 2 ^ 14 + d 3)
      (d 0 * 2 ^ 21 + d 1 * 2 ^ 14 + d 2 * 2 ^ 7 + d 3) := by
  rw [get_5 hd (fun i hi => hbytes i (by omega)) (by omega),
    getVarint5_more (hd 0) (hd 1) (hd 2) (hd 3) (hd 4) hm (hbytes 4 (by omega))]

theorem get_7 (hbytes : ∀ i, i < 6 → byteAt p i = 128 + d i) (hm : 5 < m) :
    sqlite3GetVarint p m = getVarint7 p m (d 0 % 16 * 2 ^ 28 + d 2 * 2 ^ 14 + (128 + d 4))
      (d 1 % 16 * 2 ^ 28 + d 3 * 2 ^ 14 + (128 + d 5)) (d 0 * 2 ^ 21 + d 1 * 2 ^ 14 + d 2 * 2 ^ 7 + d 3) := by
  rw [get_6 hd (fun i hi => hbytes i (by omega)) (by omega), getVarint6_more (hd 3) (hd 5) hm (hbytes 5 (by omega))]

theorem get_8 (hbytes : ∀ i, i < 7 → byteAt p i = 128 + d i) (hm : 6 < m) :
    sqlite3GetVarint p m = getVarint8 p m (d 4 * 2 ^ 14 + d 6) (d 1 % 16 * 2 ^ 28 + d 3 * 2 ^ 14 + (128 + d 5))
      (d 0 * 2 ^ 21 + d 1 * 2 ^ 14 + d 2 * 2 ^ 7 + d 3) := by
  rw [get_7 hd (fun i hi => hbytes i (by omega)) (by omega), getVarint7_more (hd 4) (hd 6) hm (hbytes 6 (by omega))]

theorem get_9 (hbytes : ∀ i, i < 8 → byteAt p i = 128 + d i) (hm : 7 < m) :
    sqlite3GetVarint p m = getVarint9 p m (d 4 * 2 ^ 14 + d 6) (d 3 % 16 * 2 ^ 28 + (128 + d 5) * 2 ^ 14 + (128 + d 7))
      (d 0 * 2 ^ 21 + d 1 * 2 ^ 14 + d 2 * 2 ^ 7 + d 3) := by
  rw [get_8 hd (fun i hi => hbytes i (by omega)) (by omega), getVarint8_more (hd 5) (hd 7) hm (hbytes 7 (by omega))]

end Continued

theorem get_put_septets {n : Nat} (hn : 1 < n) (hn' : n < 8) (hlt : v < 128 ^ (n + 1)) (hge : 128 ^ n ≤ v) (hm : n < m) :
    sqlite3GetVarint (sqlite3PutVarint v ++ tail) m = some (n + 1, v) := by
  obtain ⟨hbytes, hlast, _⟩ := byteAt_put hn hn' hlt hge tail
  have hd : ∀ i, septetAt (n - i) v < 128 := fun i => septetAt_lt (n - i) v
  have hvalue : ∀ value, value = v → some (n + 1, value) = some (n + 1, v) := fun _ h => h ▸ rfl
  interval_cases n
  · rw [get_3 hd hbytes (by omega), getVarint3_end (hd 0) (hd 1) (hd 2) hm hlast]
    exact hvalue _ (by simp only [septetAt, Nat.sub_self]; omega)
  · rw [get_4 hd hbytes (by omega), getVarint4_end (hd 0) (hd 1) (hd 2) (hd 3) hm hlast]
    exact hvalue _ (by simp only [septetAt, Nat.sub_self]; omega)
  · rw [get_5 hd hbytes (by omega), getVarint5_end (hd 1) (hd 2) (hd 3) (hd 4) hm hlast]
    exact hvalue _ (by simp only [septetAt, Nat.sub_self]; omega)
  · rw [get_6 hd hbytes (by omega), getVarint6_end (hd 2) (hd 3) (hd 4) (hd 5) hm hlast]
    exact hvalue _ (by simp only [septetAt, Nat.sub_self]; omega)
  · rw [get_7 hd hbytes (by omega), getVarint7_end (hd 3) (hd 4) (hd 5) (hd 6) hm hlast]
    exact hvalue _ (by simp only [septetAt, Nat.sub_self]; omega)
  · rw [get_8 hd hbytes (by omega), getVarint8_end (hd 4) (hd 5) (hd 6) (hd 7) hm hlast]
    exact hvalue _ (by simp only [septetAt, Nat.sub_self]; omega)

theorem get_put_9 (hlt : v < 2 ^ 64) (hge : 2 ^ 56 ≤ v) (hm : 8 < m) :
    sqlite3GetVarint (sqlite3PutVarint v ++ tail) m = some (9, v) := by
  obtain ⟨hbytes, hlast, _⟩ := byteAt_put_nine hlt hge tail
  have hd : ∀ i, septetAt (7 - i) (v / 256) < 128 := fun i => septetAt_lt (7 - i) (v / 256)
  rw [get_9 hd hbytes (by omega), getVarint9_end (hd 0) (hd 1) (hd 2) (hd 3) (hd 4) (hd 5) (hd 6) (hd 7)
    (Nat.mod_lt _ (by omega)) hm (hbytes 4 (by omega)) hlast]
  refine congrArg (fun v => some (9, v)) ?_
  simp only [septetAt, Nat.sub_self]
  omega

end Get

/-- The numbers of three to eight bytes. -/
theorem exists_septets {v : Nat} (hlow : 128 ^ 2 ≤ v) (hhigh : v < 2 ^ 56) :
    ∃ n, 1 < n ∧ n < 8 ∧ v < 128 ^ (n + 1) ∧ 128 ^ n ≤ v := by
  have hlog : Nat.log 128 v < 8 := Nat.log_lt_of_lt_pow (by omega) (by omega)
  have hlog' : 2 ≤ Nat.log 128 v := Nat.le_log_of_pow_le (by omega) hlow
  exact ⟨Nat.log 128 v, hlog', hlog, Nat.lt_pow_succ_log_self (by omega) v, Nat.pow_log_le_self 128 (by omega)⟩

/-- A written number takes the bytes that were counted for it. -/
theorem length_sqlite3PutVarint {v : Nat} (hv : v < 2 ^ 64) : (sqlite3PutVarint v).length = sqlite3VarintLen v := by
  by_cases h1 : v < 128
  · obtain ⟨_, hlen⟩ := septetLoop_eq (show v < 128 ^ (0 + 1) by omega) (fun h => absurd rfl h)
    rw [sqlite3PutVarint, if_pos (by omega), sqlite3VarintLen, hlen]
    rfl
  · by_cases h2 : v < 128 ^ 2
    · obtain ⟨_, hlen⟩ := septetLoop_eq (show v < 128 ^ (1 + 1) from h2) (fun _ => show 128 ^ 1 ≤ v by omega)
      rw [sqlite3PutVarint, if_neg (by omega), if_pos (by omega), sqlite3VarintLen, hlen]
      rfl
    · by_cases h9 : v < 2 ^ 56
      · obtain ⟨n, hn, hn', hlt, hge⟩ := exists_septets (by omega) h9
        rw [(byteAt_put hn hn' hlt hge []).2.2, (sqlite3PutVarint_eq hn hn' hlt hge).2]
      · rw [(byteAt_put_nine hv (by omega) []).2.2, (sqlite3PutVarint_nine hv (by omega)).2]

theorem length_sqlite3PutVarint_le {v : Nat} (hv : v < 2 ^ 64) : (sqlite3PutVarint v).length ≤ 9 := by
  by_cases h1 : v < 128
  · rw [sqlite3PutVarint, if_pos (by omega)]
    simp
  · by_cases h2 : v < 128 ^ 2
    · rw [sqlite3PutVarint, if_neg (by omega), if_pos (by omega)]
      simp
    · by_cases h9 : v < 2 ^ 56
      · obtain ⟨n, hn, hn', hlt, hge⟩ := exists_septets (by omega) h9
        rw [(byteAt_put hn hn' hlt hge []).2.2]
        omega
      · rw [(byteAt_put_nine hv (by omega) []).2.2]

/-- A written number is read back, whatever follows it. -/
theorem sqlite3GetVarint_put {v : Nat} (hv : v < 2 ^ 64) (tail : Bytes) {m : Nat} (hm : (sqlite3PutVarint v).length ≤ m) :
    sqlite3GetVarint (sqlite3PutVarint v ++ tail) m = some ((sqlite3PutVarint v).length, v) := by
  by_cases h1 : v < 128
  · have hlen : (sqlite3PutVarint v).length = 1 := by
      rw [sqlite3PutVarint, if_pos (by omega)]
      rfl
    rw [hlen] at hm ⊢
    exact get_put_1 tail h1 hm
  · by_cases h2 : v < 128 ^ 2
    · have hlen : (sqlite3PutVarint v).length = 2 := by
        rw [sqlite3PutVarint, if_neg (by omega), if_pos (by omega)]
        rfl
      rw [hlen] at hm ⊢
      exact get_put_2 tail h2 (by omega) hm
    · by_cases h9 : v < 2 ^ 56
      · obtain ⟨n, hn, hn', hlt, hge⟩ := exists_septets (by omega) h9
        rw [(byteAt_put hn hn' hlt hge []).2.2] at hm ⊢
        exact get_put_septets tail hn hn' hlt hge hm
      · rw [(byteAt_put_nine hv (by omega) []).2.2] at hm ⊢
        exact get_put_9 tail hv (by omega) hm

end RoundTrip

end urbackup.wire
