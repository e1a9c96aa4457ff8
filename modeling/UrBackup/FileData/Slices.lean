import Mathlib.Data.List.Basic

namespace filedata

variable {α : Type}

/-- Up to `n` elements from a position on. -/
def slice (xs : List α) (p n : Nat) : List α :=
  (xs.drop p).take n

@[simp] theorem length_slice (xs : List α) (p n : Nat) : (slice xs p n).length = min n (xs.length - p) := by
  simp [slice]

theorem getElem?_slice (xs : List α) (p n i : Nat) : (slice xs p n)[i]? = if i < n then xs[p + i]? else none := by
  rw [slice, List.getElem?_take, List.getElem?_drop]

theorem slice_add (xs : List α) (p n m : Nat) : slice xs p (n + m) = slice xs p n ++ slice xs (p + n) m := by
  rw [slice, slice, slice, List.take_add, List.drop_drop]

theorem slice_eq_nil {xs : List α} {p n : Nat} (h : xs.length ≤ p) : slice xs p n = [] := by
  simp [slice, h]

theorem take_add_slice (xs : List α) (p n : Nat) : xs.take (p + n) = xs.take p ++ slice xs p n :=
  List.take_add

theorem slice_congr {xs ys : List α} {p n : Nat} (h : xs.drop p = ys.drop p) : slice xs p n = slice ys p n := by
  rw [slice, slice, h]

/-- A slice never reaches behind the end. -/
theorem slice_min (xs : List α) (p n : Nat) : slice xs p (min n (xs.length - p)) = slice xs p n := by
  unfold slice
  rw [← List.length_drop, List.take_eq_take_iff]
  simp

theorem slice_append_left {xs : List α} {p n : Nat} (ys : List α) (h : p + n ≤ xs.length) :
    slice (xs ++ ys) p n = slice xs p n := by
  rw [slice, slice, List.drop_append_of_le_length (by omega), List.take_append_of_le_length (by simp; omega)]

theorem slice_drop (xs : List α) (p q n : Nat) : slice (xs.drop p) q n = slice xs (p + q) n := by
  rw [slice, slice, List.drop_drop]

/-- Part of a slice. -/
theorem slice_slice (xs : List α) {p n q m : Nat} (h : q + m ≤ n) : slice (slice xs p n) q m = slice xs (p + q) m := by
  simp only [slice, List.drop_take, List.take_take, List.drop_drop]
  congr 1
  omega

/-- The rest of a slice. -/
theorem drop_slice (xs : List α) (p n q : Nat) : (slice xs p n).drop q = slice xs (p + q) (n - q) := by
  simp only [slice, List.drop_take, List.drop_drop]

theorem take_slice (xs : List α) (p n q : Nat) : (slice xs p n).take q = slice xs p (min q n) := by
  simp only [slice, List.take_take]

section Fixed

variable {β : Type} {g : α → List β} {n : Nat} (hg : ∀ a, (g a).length = n)

include hg

theorem length_flatMap_fixed (xs : List α) : (xs.flatMap g).length = n * xs.length := by
  induction xs with
  | nil => rfl
  | cons x xs ih => rw [List.flatMap_cons, List.length_append, hg, ih, List.length_cons, Nat.mul_succ, Nat.add_comm]

/-- Entries of fixed size are found by their index. -/
theorem slice_flatMap_fixed {xs : List α} {i : Nat} (h : i < xs.length) : slice (xs.flatMap g) (n * i) n = g xs[i] := by
  induction xs generalizing i with
  | nil => simp at h
  | cons x xs ih =>
    rw [List.flatMap_cons]
    cases i with
    | zero => simp [slice, hg]
    | succ i =>
      have hrest := ih (show i < xs.length by simpa using h)
      rw [slice, Nat.mul_succ, Nat.add_comm, ← List.drop_drop, List.drop_left' (hg x)]
      simpa [slice] using hrest

end Fixed

/-- The list cut into pieces of `n` elements; the last one may be shorter. -/
def pieces (n : Nat) : List α → List (List α)
  | [] => []
  | x :: xs => (x :: xs.take (n - 1)) :: pieces n (xs.drop (n - 1))
termination_by xs => xs.length

@[simp] theorem pieces_nil (n : Nat) : pieces n ([] : List α) = [] := by
  rw [pieces]

section Positive

variable {n : Nat} (hn : 0 < n)

include hn

theorem pieces_eq {xs : List α} (h : xs ≠ []) : pieces n xs = xs.take n :: pieces n (xs.drop n) := by
  obtain ⟨m, rfl⟩ := Nat.exists_eq_succ_of_ne_zero (Nat.pos_iff_ne_zero.mp hn)
  cases xs with
  | nil => exact absurd rfl h
  | cons x xs =>
    rw [pieces]
    rfl

/-- The pieces from a position on. -/
theorem pieces_drop {xs : List α} {p : Nat} (h : p < xs.length) :
    pieces n (xs.drop p) = slice xs p n :: pieces n (xs.drop (p + n)) := by
  rw [pieces_eq hn (by simpa using h), List.drop_drop]
  rfl

/-- A piece is found by its index. -/
theorem getElem?_pieces (xs : List α) (i : Nat) :
    (pieces n xs)[i]? = if n * i < xs.length then some (slice xs (n * i) n) else none := by
  induction i generalizing xs with
  | zero =>
    by_cases hxs : xs = []
    · simp [hxs]
    · rw [pieces_eq hn hxs, if_pos (by simpa using List.length_pos_of_ne_nil hxs)]
      simp [slice]
  | succ i ih =>
    by_cases hxs : xs = []
    · simp [hxs]
    · rw [pieces_eq hn hxs, List.getElem?_cons_succ, ih, slice_drop, List.length_drop, Nat.mul_succ,
        Nat.add_comm n]
      have := List.length_pos_of_ne_nil hxs
      split <;> split <;> first | rfl | omega

theorem lt_length_pieces (xs : List α) (i : Nat) : i < (pieces n xs).length ↔ n * i < xs.length := by
  have h := getElem?_pieces hn xs i
  constructor
  · intro hi
    rw [List.getElem?_eq_getElem hi] at h
    by_contra hcon
    rw [if_neg hcon] at h
    cases h
  · intro hi
    rw [if_pos hi] at h
    exact (List.getElem?_eq_some_iff.mp h).1

theorem length_pieces (xs : List α) : (pieces n xs).length = (xs.length + n - 1) / n := by
  have h : ∀ i, i < (pieces n xs).length ↔ i < (xs.length + n - 1) / n := by
    intro i
    rw [lt_length_pieces hn, Nat.lt_div_iff_mul_lt hn, Nat.mul_comm]
    omega
  have hle := h (pieces n xs).length
  have hge := h ((xs.length + n - 1) / n)
  omega

theorem getElem_pieces {xs : List α} {i : Nat} (hi : i < (pieces n xs).length) :
    (pieces n xs)[i] = slice xs (n * i) n := by
  have h := getElem?_pieces hn xs i
  rw [List.getElem?_eq_getElem hi, if_pos ((lt_length_pieces hn xs i).mp hi)] at h
  exact Option.some.inj h

theorem flatten_pieces (xs : List α) : (pieces n xs).flatten = xs := by
  induction h : xs.length using Nat.strongRecOn generalizing xs with
  | ind k ih =>
    by_cases hxs : xs = []
    · simp [hxs]
    · have hpos := List.length_pos_of_ne_nil hxs
      rw [pieces_eq hn hxs, List.flatten_cons, ih _ (by simp; omega) _ rfl, List.take_append_drop]

/-- Whole pieces in front stay pieces. -/
theorem pieces_append {xs ys : List α} (h : n ∣ xs.length) : pieces n (xs ++ ys) = pieces n xs ++ pieces n ys := by
  induction hk : xs.length using Nat.strongRecOn generalizing xs with
  | ind k ih =>
    by_cases hxs : xs = []
    · simp [hxs]
    · have hpos := List.length_pos_of_ne_nil hxs
      have hle := Nat.le_of_dvd hpos h
      have hdvd : n ∣ (xs.drop n).length := by
        rw [List.length_drop]
        exact Nat.dvd_sub h (Nat.dvd_refl n)
      rw [pieces_eq hn hxs, pieces_eq hn (by simp [hxs]), List.take_append_of_le_length hle,
        List.drop_append_of_le_length hle, ih _ (by simp; omega) hdvd rfl, List.cons_append]

theorem pieces_flatMap_fixed {β : Type} {g : β → List α} (hg : ∀ a, (g a).length = n) (xs : List β) :
    pieces n (xs.flatMap g) = xs.map g := by
  induction xs with
  | nil => simp
  | cons x xs ih =>
    have hne : g x ≠ [] := by
      rw [← List.length_pos_iff, hg]
      exact hn
    rw [List.flatMap_cons, pieces_eq hn (by simp [hne]), List.take_left' (hg x), List.drop_left' (hg x), ih, List.map_cons]

end Positive

section Overwrite

variable (z : α)

/-- The contents after `ys` was written at a position; a gap before it is filled
with `z`. -/
def overwrite (xs : List α) (p : Nat) (ys : List α) : List α :=
  if ys.isEmpty then xs else xs.take p ++ List.replicate (p - xs.length) z ++ ys ++ xs.drop (p + ys.length)

theorem getElem?_overwrite {xs ys : List α} {p : Nat} (hys : ys ≠ []) (i : Nat) :
    (overwrite z xs p ys)[i]? =
      if i < p then some (xs.getD i z) else if i < p + ys.length then ys[i - p]? else xs[i]? := by
  rw [overwrite, if_neg (by simpa using hys)]
  by_cases hfront : i < p
  · rw [if_pos hfront, List.append_assoc, List.getElem?_append_left (by simp; omega)]
    by_cases hlen : i < xs.length
    · rw [List.getElem?_append_left (by simp; omega), List.getElem?_take_of_lt hfront]
      simp [hlen]
    · rw [List.getElem?_append_right (by simp; omega), List.getElem?_replicate, if_pos (by simp; omega)]
      simp [Nat.le_of_not_lt hlen]
  · have hpre : (xs.take p ++ List.replicate (p - xs.length) z).length = p := by simp; omega
    rw [if_neg hfront]
    split
    · rw [List.getElem?_append_left (by rw [List.length_append, hpre]; omega),
        List.getElem?_append_right (by omega), hpre]
    · rw [List.getElem?_append_right (by rw [List.length_append, hpre]; omega), List.length_append, hpre,
        List.getElem?_drop]
      congr 1
      omega

@[simp] theorem overwrite_nil (xs : List α) (p : Nat) : overwrite z xs p [] = xs := rfl

/-- Two parts written one after the other. -/
theorem overwrite_overwrite (xs ys zs : List α) (p : Nat) :
    overwrite z (overwrite z xs p ys) (p + ys.length) zs = overwrite z xs p (ys ++ zs) := by
  by_cases hys : ys = []
  · simp [hys]
  by_cases hzs : zs = []
  · simp [hzs]
  refine List.ext_getElem? fun i => ?_
  have happend : ys ++ zs ≠ [] := by simp [hys]
  rw [getElem?_overwrite z hzs, getElem?_overwrite z hys, getElem?_overwrite z happend, List.length_append]
  by_cases hp : i < p
  · rw [if_pos (by omega), if_pos hp, List.getD_eq_getElem?_getD, getElem?_overwrite z hys, if_pos hp]
    rfl
  rw [if_neg hp, if_neg hp]
  by_cases hy : i < p + ys.length
  · rw [if_pos hy, if_pos (by omega), List.getD_eq_getElem?_getD, getElem?_overwrite z hys, if_neg hp, if_pos hy,
      List.getElem?_append_left (by omega), List.getElem?_eq_getElem (by omega)]
    rfl
  rw [if_neg hy]
  by_cases hz : i < p + (ys.length + zs.length)
  · rw [if_pos (by omega), if_pos hz, List.getElem?_append_right (by omega)]
    congr 1
    omega
  · rw [if_neg (by omega), if_neg hz, if_neg hy]

/-- What is written over is gone. -/
theorem overwrite_again {xs ys zs : List α} {p : Nat} (h : ys.length = zs.length) :
    overwrite z (overwrite z xs p ys) p zs = overwrite z xs p zs := by
  by_cases hys : ys = []
  · rw [hys]
    rfl
  have hzs : zs ≠ [] := by
    rw [← List.length_pos_iff, ← h]
    exact List.length_pos_of_ne_nil hys
  refine List.ext_getElem? fun i => ?_
  rw [getElem?_overwrite z hzs, getElem?_overwrite z hzs, List.getD_eq_getElem?_getD, getElem?_overwrite z hys, ← h]
  split
  · rfl
  · split
    · rfl
    · rfl

/-- What lies behind the written part stays. -/
theorem drop_overwrite {xs ys : List α} {p q : Nat} (h : p + ys.length ≤ q) :
    (overwrite z xs p ys).drop q = xs.drop q := by
  unfold overwrite
  split
  · rfl
  · have hfront : (xs.take p ++ List.replicate (p - xs.length) z ++ ys).length = p + ys.length := by
      simp only [List.length_append, List.length_take, List.length_replicate]
      omega
    rw [List.drop_append, hfront, List.drop_eq_nil_of_le (by omega), List.nil_append, List.drop_drop]
    congr 1
    omega

/-- A part that does not overlap with the written one stays. -/
theorem slice_overwrite_disjoint {xs ys : List α} {p q n : Nat} (hn : p + n ≤ xs.length)
    (hdisjoint : p + n ≤ q ∨ q + ys.length ≤ p) : slice (overwrite z xs q ys) p n = slice xs p n := by
  by_cases hys : ys = []
  · rw [hys]
    rfl
  refine List.ext_getElem? fun i => ?_
  rw [getElem?_slice, getElem?_slice]
  split
  · next hi =>
    rw [getElem?_overwrite z hys]
    by_cases hfront : p + i < q
    · rw [if_pos hfront, List.getElem?_eq_getElem (by omega)]
      simp [show p + i < xs.length by omega]
    · rw [if_neg hfront, if_neg (by omega)]
  · rfl

/-- What was written is read back. -/
theorem slice_overwrite_self (xs ys : List α) (p : Nat) : slice (overwrite z xs p ys) p ys.length = ys := by
  by_cases hys : ys = []
  · simp [hys, slice]
  refine List.ext_getElem? fun i => ?_
  rw [getElem?_slice]
  split
  · next hi =>
    rw [getElem?_overwrite z hys, if_neg (by omega), if_pos (by omega)]
    congr 1
    omega
  · rw [List.getElem?_eq_none (by omega)]

/-- What was written follows what was there before it. -/
theorem take_overwrite {xs : List α} {p : Nat} (hp : p ≤ xs.length) (ys : List α) :
    (overwrite z xs p ys).take (p + ys.length) = xs.take p ++ ys := by
  unfold overwrite
  split
  · next h => simp [List.isEmpty_iff.mp h]
  · have hfront : (xs.take p ++ List.replicate (p - xs.length) z ++ ys).length = p + ys.length := by
      simp only [List.length_append, List.length_take, List.length_replicate]
      omega
    rw [← hfront, List.take_left, show p - xs.length = 0 by omega, List.replicate_zero, List.append_nil]

/-- The start of a part was written. -/
theorem slice_overwrite_prefix {xs ys : List α} {p n : Nat} (hn : p + n ≤ xs.length) (hys : ys.length ≤ n) :
    slice (overwrite z xs p ys) p n = ys ++ (slice xs p n).drop ys.length := by
  obtain ⟨m, rfl⟩ := Nat.exists_eq_add_of_le hys
  have hrest : slice (overwrite z xs p ys) (p + ys.length) m = slice xs (p + ys.length) m :=
    slice_congr (drop_overwrite z (Nat.le_refl _))
  rw [slice_add, slice_overwrite_self, hrest, drop_slice, Nat.add_sub_cancel_left]

theorem length_overwrite_max {xs : List α} {p : Nat} (h : p ≤ xs.length) (ys : List α) :
    (overwrite z xs p ys).length = max xs.length (p + ys.length) := by
  unfold overwrite
  split
  · next hys =>
    rw [List.isEmpty_iff.mp hys, List.length_nil]
    omega
  · simp only [List.length_append, List.length_take, List.length_replicate, List.length_drop]
    omega

/-- The gap before it is filled. -/
theorem length_overwrite_gap {xs ys : List α} {p : Nat} (hp : xs.length ≤ p) (hys : ys ≠ []) :
    (overwrite z xs p ys).length = p + ys.length := by
  rw [overwrite, if_neg (by simpa using hys)]
  simp only [List.length_append, List.length_take, List.length_replicate, List.length_drop]
  omega

theorem le_length_overwrite (xs : List α) (p : Nat) (ys : List α) : xs.length ≤ (overwrite z xs p ys).length := by
  unfold overwrite
  split
  · exact Nat.le_refl _
  · simp only [List.length_append, List.length_take, List.length_replicate, List.length_drop]
    omega

theorem length_overwrite {xs ys : List α} {p : Nat} (h : p + ys.length ≤ xs.length) :
    (overwrite z xs p ys).length = xs.length := by
  rw [length_overwrite_max z (by omega)]
  omega

/-- Writing what is there changes nothing. -/
theorem overwrite_slice_self {xs : List α} {p n : Nat} (h : p + n ≤ xs.length) : overwrite z xs p (slice xs p n) = xs := by
  by_cases hys : slice xs p n = []
  · rw [hys]
    rfl
  have hlength := length_slice xs p n
  refine List.ext_getElem? fun i => ?_
  rw [getElem?_overwrite z hys]
  split
  · rw [List.getElem?_eq_getElem (by omega)]
    simp [show i < xs.length by omega]
  · split
    · rw [getElem?_slice, if_pos (by omega)]
      congr 1
      omega
    · rfl

theorem set_eq_overwrite {xs : List α} {p : Nat} (h : p < xs.length) (y : α) : xs.set p y = overwrite z xs p [y] := by
  rw [List.set_eq_take_append_cons_drop, if_pos h]
  simp [overwrite, show p - xs.length = 0 by omega]

/-- A write to the first of two parts. -/
theorem overwrite_append_left {xs ys : List α} {p : Nat} (h : p + ys.length ≤ xs.length) (zs : List α) :
    overwrite z (xs ++ zs) p ys = overwrite z xs p ys ++ zs := by
  unfold overwrite
  split
  · rfl
  · rw [List.take_append_of_le_length (by omega), List.drop_append_of_le_length h, List.length_append,
      show p - (xs.length + zs.length) = 0 by omega, show p - xs.length = 0 by omega]
    simp only [List.append_assoc]

/-- Writing at the seam of two parts moves the seam. -/
theorem overwrite_append (xs ys zs : List α) : overwrite z (xs ++ zs) xs.length ys = xs ++ ys ++ zs.drop ys.length := by
  unfold overwrite
  split
  · next h => simp [List.isEmpty_iff.mp h]
  · simp [List.drop_append]

end Overwrite

end filedata
