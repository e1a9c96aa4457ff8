import Mathlib.Algebra.Group.Nat.Defs
import Mathlib.Data.List.Basic

namespace filedata

/-- The `k` low bytes of a number, least significant first. -/
def leBytes : Nat → Nat → List UInt8
  | 0, _ => []
  | k + 1, n => UInt8.ofNat (n % 256) :: leBytes k (n / 256)

def leValue : List UInt8 → Nat
  | [] => 0
  | b :: bs => b.toNat + 256 * leValue bs

@[simp] theorem length_leBytes (k n : Nat) : (leBytes k n).length = k := by
  induction k generalizing n with
  | zero => rfl
  | succ k ih => simp [leBytes, ih]

theorem leValue_lt (bs : List UInt8) : leValue bs < 256 ^ bs.length := by
  induction bs with
  | nil => exact Nat.one_pos
  | cons b bs ih =>
    rw [leValue, List.length_cons, Nat.pow_succ]
    have := b.toNat_lt
    omega

/-- The high bytes are lost. -/
theorem leValue_leBytes_mod (k n : Nat) : leValue (leBytes k n) = n % 256 ^ k := by
  induction k generalizing n with
  | zero => simp [leBytes, leValue, Nat.mod_one]
  | succ k ih =>
    have hbyte : (UInt8.ofNat (n % 256)).toNat = n % 256 := by
      simp only [UInt8.toNat_ofNat']
      omega
    rw [leBytes, leValue, ih, hbyte, Nat.pow_succ, Nat.mul_comm (256 ^ k), Nat.mod_mul]

theorem leValue_leBytes {k n : Nat} (h : n < 256 ^ k) : leValue (leBytes k n) = n := by
  rw [leValue_leBytes_mod, Nat.mod_eq_of_lt h]

/-- The low bytes come first. -/
theorem leBytes_add (j k n : Nat) : leBytes (j + k) n = leBytes j n ++ leBytes k (n / 256 ^ j) := by
  induction j generalizing n with
  | zero => simp [leBytes]
  | succ j ih => rw [Nat.succ_add, leBytes, leBytes, ih, List.cons_append, Nat.div_div_eq_div_mul, Nat.pow_succ, Nat.mul_comm 256]

/-- The same bytes of a number that was reduced. -/
theorem leBytes_mod {k m : Nat} (h : m = 256 ^ k) (n : Nat) : leBytes k (n % m) = leBytes k n := by
  subst h
  induction k generalizing n with
  | zero => rfl
  | succ k ih =>
    rw [leBytes, leBytes, Nat.pow_succ, Nat.mul_comm, Nat.mod_mod_of_dvd _ (Nat.dvd_mul_right ..),
      Nat.mod_mul_right_div_self, ih]

end filedata
