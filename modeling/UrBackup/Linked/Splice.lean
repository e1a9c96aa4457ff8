import Mathlib.Data.List.Nodup

namespace linked

variable {α β ι : Type} [DecidableEq ι]

/-- A new element before the one with a name, or at the end. -/
def insertBefore (name : α → ι) (pos : Option ι) (a : α) : List α → List α
  | [] => [a]
  | x :: xs => if pos = some (name x) then a :: x :: xs else x :: insertBefore name pos a xs

/-- The element with a name moves before another one. It does not move before
itself, and there is no result where it is missing. -/
def moveBefore (name : α → ι) (pos : Option ι) (i : ι) (xs : List α) : Option (List α) :=
  (xs.find? (name · = i)).map fun a =>
    if pos = some i then xs else insertBefore name pos a (xs.filter (name · ≠ i))

section Find

variable {xs ys : List α} {a : α} {i : ι} {name : α → ι}

/-- The element with a name is found where the names are distinct. -/
theorem find?_name (hnodup : (xs.map name).Nodup) (ha : a ∈ xs) : xs.find? (name · = name a) = some a := by
  induction xs with
  | nil => cases ha
  | cons x xs ih =>
    rw [List.map_cons, List.nodup_cons] at hnodup
    obtain rfl | hmem := List.mem_cons.mp ha
    · simp
    · have hne : name x ≠ name a := fun heq => hnodup.1 (heq ▸ List.mem_map_of_mem hmem)
      rw [List.find?_cons_of_neg (by simpa using hne)]
      exact ih hnodup.2 hmem

theorem find?_name_none (h : ∀ x ∈ xs, name x ≠ i) : xs.find? (name · = i) = none := by
  rw [List.find?_eq_none]
  intro x hx
  simpa using h x hx

theorem filter_name_notMem (h : i ∉ xs.map name) : xs.filter (name · ≠ i) = xs := by
  rw [List.filter_eq_self]
  intro x hx
  have hne : name x ≠ i := fun heq => h (heq ▸ List.mem_map_of_mem hx)
  simpa using hne

/-- All but one element, whose name is no other one's. -/
theorem filter_name (hnodup : (xs.map name).Nodup) (ha : a ∈ xs) : (a :: xs.filter (name · ≠ name a)).Perm xs := by
  induction xs with
  | nil => cases ha
  | cons x xs ih =>
    rw [List.map_cons, List.nodup_cons] at hnodup
    obtain rfl | hmem := List.mem_cons.mp ha
    · rw [List.filter_cons_of_neg (by simp), filter_name_notMem hnodup.1]
    · have hne : name x ≠ name a := fun heq => hnodup.1 (heq ▸ List.mem_map_of_mem hmem)
      rw [List.filter_cons_of_pos (by simpa using hne)]
      exact (List.Perm.swap x a _).trans ((ih hnodup.2 hmem).cons x)

end Find

section Insert

variable {name : α → ι} {pos : Option ι} {a : α} {xs : List α}

theorem insertBefore_perm : (insertBefore name pos a xs).Perm (a :: xs) := by
  induction xs with
  | nil => exact List.Perm.refl _
  | cons x xs ih =>
    rw [insertBefore]
    split
    · exact List.Perm.refl _
    · exact (ih.cons x).trans (List.Perm.swap a x xs)

theorem insertBefore_head : insertBefore name (xs.head?.map name) a xs = a :: xs := by
  cases xs with
  | nil => rfl
  | cons x xs => exact if_pos rfl

theorem insertBefore_none : insertBefore name none a xs = xs ++ [a] := by
  induction xs with
  | nil => rfl
  | cons x xs ih => rw [insertBefore, if_neg (by simp), ih, List.cons_append]

theorem insertBefore_map {name' : β → ι} {f : α → β} (h : ∀ x, name' (f x) = name x) :
    (insertBefore name pos a xs).map f = insertBefore name' pos (f a) (xs.map f) := by
  induction xs with
  | nil => rfl
  | cons x xs ih =>
    rw [insertBefore, List.map_cons, insertBefore, h]
    split
    · rfl
    · rw [List.map_cons, ih]

/-- Only the place of the name matters, not which kind of name it is. -/
theorem insertBefore_congr {κ : Type} [DecidableEq κ] {name' : α → κ} {pos' : Option κ}
    (h : ∀ x ∈ xs, pos = some (name x) ↔ pos' = some (name' x)) : insertBefore name pos a xs = insertBefore name' pos' a xs := by
  induction xs with
  | nil => rfl
  | cons x xs ih =>
    have hx := h x (by simp)
    rw [insertBefore, insertBefore, ih fun y hy => h y (List.mem_cons_of_mem x hy)]
    by_cases hpos : pos = some (name x)
    · rw [if_pos hpos, if_pos (hx.mp hpos)]
    · rw [if_neg hpos, if_neg fun hpos' => hpos (hx.mpr hpos')]

end Insert

section Move

variable {name : α → ι} {pos : Option ι} {a : α} {xs : List α}

theorem moveBefore_eq (hnodup : (xs.map name).Nodup) (ha : a ∈ xs) : moveBefore name pos (name a) xs =
    some (if pos = some (name a) then xs else insertBefore name pos a (xs.filter (name · ≠ name a))) := by
  rw [moveBefore, find?_name hnodup ha]
  rfl

/-- The first element is the one that was moved to the front. -/
theorem moveBefore_head (hnodup : (xs.map name).Nodup) (ha : a ∈ xs) :
    moveBefore name (xs.head?.map name) (name a) xs = some (a :: xs.filter (name · ≠ name a)) := by
  rw [moveBefore_eq hnodup ha]
  cases xs with
  | nil => cases ha
  | cons x xs =>
    rw [List.map_cons, List.nodup_cons] at hnodup
    have hhead : (x :: xs).head?.map name = some (name x) := rfl
    rw [hhead]
    by_cases heq : name x = name a
    · obtain rfl | hmem := List.mem_cons.mp ha
      · rw [if_pos rfl, List.filter_cons_of_neg (by simp), filter_name_notMem hnodup.1]
      · exact absurd (heq ▸ List.mem_map_of_mem hmem) hnodup.1
    · rw [if_neg (by simpa using heq), List.filter_cons_of_pos (by simpa using heq), insertBefore, if_pos rfl]

end Move

end linked
