import UrBackup.FileData.Slices

namespace merkle

open filedata

variable {α : Type} (combine : List α → α) (n : Nat)

/-- The root of the `n`-ary tree over the leaves `xs`. Each level combines
groups of `n` neighbours, and the last group may be shorter. -/
def root (xs : List α) : α :=
  if 2 ≤ n ∧ 2 ≤ xs.length then root ((pieces n xs).map combine) else xs.headD (combine [])
termination_by xs.length
decreasing_by
  rename_i h
  rw [List.length_map, length_pieces (by omega), Nat.div_lt_iff_lt_mul (by omega)]
  have hmul := Nat.add_le_mul h.2 h.1
  omega

/-- A node is added to the lowest level. A group that becomes full goes to the
next level as one node. -/
def push (x : α) : List (List α) → List (List α)
  | [] => [[x]]
  | level :: levels =>
    if level.length + 1 = n then [] :: push (combine (level ++ [x])) levels else (level ++ [x]) :: levels

/-- A node is put into the first level, which is made if it is missing. -/
def raise (x : α) : List (List α) → List (List α)
  | [] => [[x]]
  | level :: levels => (level ++ [x]) :: levels

/-- The nodes of the highest level when the incomplete groups below are
combined from the lowest level upwards. -/
def collapse (carry : List α) : List (List α) → List α
  | [] => carry
  | [level] => level ++ carry
  | level :: next :: levels =>
    collapse (if level ++ carry = [] then [] else [combine (level ++ carry)]) (next :: levels)

/-- The levels hold the incomplete groups of a tree over `xs`. A level above
the lowest one is there only if a group below was full. -/
def Holds : List (List α) → List α → Prop
  | [], xs => xs = []
  | level :: levels, xs => ∃ full, xs = full ++ level ∧ n ∣ full.length ∧ level.length < n ∧
      (full = [] → levels = []) ∧ Holds levels ((pieces n full).map combine)

variable {combine n}

theorem root_of_le_one {xs : List α} (h : xs.length ≤ 1) : root combine n xs = xs.headD (combine []) := by
  rw [root, if_neg (by omega)]

@[simp] theorem root_nil : root combine n [] = combine [] :=
  root_of_le_one (Nat.zero_le 1)

@[simp] theorem root_singleton (x : α) : root combine n [x] = x :=
  root_of_le_one (Nat.le_refl 1)

theorem Holds.full_eq_nil (hn : 0 < n) {full : List α} (h : Holds combine n [] ((pieces n full).map combine)) : full = [] := by
  have hempty : (pieces n full).map combine = [] := h
  by_contra hfull
  rw [pieces_eq hn hfull] at hempty
  cases hempty

theorem Holds.length_lt {levels : List (List α)} {xs : List α} (h : Holds combine n levels xs) :
    ∀ level ∈ levels, level.length < n := by
  induction levels generalizing xs with
  | nil => simp
  | cons level levels ih =>
    obtain ⟨full, _, _, hlt, _, hlevels⟩ := h
    intro l hl
    obtain rfl | hl := List.mem_cons.mp hl
    · exact hlt
    · exact ih hlevels l hl

/-- Levels without a leaf are one empty level. -/
theorem Holds.eq_of_nil {levels : List (List α)} (h : Holds combine n levels []) (hne : levels ≠ []) : levels = [[]] := by
  obtain ⟨level, upper, rfl⟩ := List.exists_cons_of_ne_nil hne
  obtain ⟨full, hfull, _, _, hnil, _⟩ := h
  obtain ⟨rfl, rfl⟩ := List.append_eq_nil_iff.mp hfull.symm
  rw [hnil rfl]

section Arity

variable (hn : 2 ≤ n)

include hn

theorem root_of_two_le {xs : List α} (h : 2 ≤ xs.length) :
    root combine n xs = root combine n ((pieces n xs).map combine) := by
  rw [root, if_pos ⟨hn, h⟩]

theorem pieces_of_length_le {xs : List α} (h : xs.length ≤ n) (hne : xs ≠ []) : pieces n xs = [xs] := by
  rw [pieces_eq (by omega) hne, List.take_of_length_le h, List.drop_eq_nil_of_le h, pieces_nil]

/-- Levels keep holding a tree when a leaf is added. -/
theorem Holds.push {levels : List (List α)} {xs : List α} (h : Holds combine n levels xs) (x : α) :
    Holds combine n (push combine n x levels) (xs ++ [x]) := by
  induction levels generalizing xs x with
  | nil =>
    obtain rfl : xs = [] := h
    exact ⟨[], rfl, by simp, by simp; omega, fun _ => rfl, by simp [Holds]⟩
  | cons level levels ih =>
    obtain ⟨full, rfl, hdvd, hlt, hnil, hlevels⟩ := h
    rw [merkle.push]
    split
    · next hfull =>
      have hgroup : (level ++ [x]).length = n := by simpa using hfull
      have hpieces : pieces n (full ++ (level ++ [x])) = pieces n full ++ [level ++ [x]] := by
        rw [pieces_append (by omega) hdvd, pieces_of_length_le hn (Nat.le_of_eq hgroup) (by simp)]
      refine ⟨full ++ (level ++ [x]), by simp, ?_, by simp; omega, by simp, ?_⟩
      · rw [List.length_append, hgroup]
        exact Nat.dvd_add hdvd (Nat.dvd_refl n)
      · rw [hpieces, List.map_append]
        exact ih hlevels _
    · next hfull =>
      refine ⟨full, by simp, hdvd, ?_, hnil, hlevels⟩
      rw [List.length_append, List.length_singleton]
      omega

/-- The highest level holds at most one group once the levels are collapsed,
and combining it gives the root. -/
theorem Holds.root_eq {levels : List (List α)} {xs : List α} (h : Holds combine n levels xs) {carry : List α}
    (hcarry : carry.length ≤ 1) :
    root combine n (xs ++ carry) = if (collapse combine carry levels).length > 1 then combine (collapse combine carry levels)
      else (collapse combine carry levels).headD (combine []) := by
  induction levels generalizing xs carry with
  | nil =>
    obtain rfl : xs = [] := h
    rw [collapse, if_neg (by omega), List.nil_append, root_of_le_one hcarry]
  | cons level levels ih =>
    obtain ⟨full, rfl, hdvd, hlt, hnil, hlevels⟩ := h
    have hlength : (level ++ carry).length ≤ n := by
      rw [List.length_append]
      omega
    cases levels with
    | nil =>
      obtain rfl := Holds.full_eq_nil (by omega) hlevels
      rw [collapse, List.nil_append]
      split
      · next hmany =>
        have hne : level ++ carry ≠ [] := List.ne_nil_of_length_pos (by omega)
        rw [root_of_two_le hn (by omega), pieces_of_length_le hn hlength hne, List.map_singleton, root_singleton]
      · next hone => exact root_of_le_one (by omega)
    | cons next levels =>
      have hfull : full ≠ [] := fun hempty => absurd (hnil hempty) (by simp)
      have hpos := Nat.le_of_dvd (List.length_pos_of_ne_nil hfull) hdvd
      rw [collapse, List.append_assoc, root_of_two_le hn (by simp; omega), pieces_append (by omega) hdvd, List.map_append]
      split
      · next hempty =>
        rw [hempty, pieces_nil, List.map_nil]
        exact ih hlevels (Nat.zero_le 1)
      · next hne =>
        rw [pieces_of_length_le hn hlength hne, List.map_singleton]
        exact ih hlevels (Nat.le_refl 1)

end Arity

/-- The highest level is empty only if there is no leaf. -/
theorem Holds.collapse_ne_nil {levels : List (List α)} {xs : List α} (h : Holds combine n levels xs) {carry : List α}
    (hn : 0 < n) (hne : xs ++ carry ≠ []) : collapse combine carry levels ≠ [] := by
  induction levels generalizing xs carry with
  | nil =>
    obtain rfl : xs = [] := h
    simpa [collapse] using hne
  | cons level levels ih =>
    obtain ⟨full, rfl, hdvd, hlt, hnil, hlevels⟩ := h
    cases levels with
    | nil =>
      obtain rfl := Holds.full_eq_nil hn hlevels
      simpa [collapse] using hne
    | cons next levels =>
      have hfull : full ≠ [] := fun hempty => absurd (hnil hempty) (by simp)
      have hpieces : (pieces n full).map combine ≠ [] := by
        rw [pieces_eq hn hfull]
        simp
      rw [collapse]
      apply ih hlevels
      simp [hpieces]

end merkle
