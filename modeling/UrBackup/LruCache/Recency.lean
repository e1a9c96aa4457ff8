import UrBackup.Linked.Splice
import Mathlib.Logic.Function.Basic

namespace recency

open linked

/-! Keys and values from the latest to the earliest use. -/

variable {K V : Type} [DecidableEq K]

def stored (l : List (K × V)) (key : K) : Option V :=
  (l.find? (·.1 = key)).map Prod.snd

def Has (l : List (K × V)) (key : K) : Prop :=
  key ∈ l.map Prod.fst

instance (l : List (K × V)) (key : K) : Decidable (Has l key) :=
  inferInstanceAs (Decidable (key ∈ l.map Prod.fst))

/-- The key is used. -/
def touch (key : K) (l : List (K × V)) : List (K × V) :=
  match stored l key with
  | some v => (key, v) :: l.filter (·.1 ≠ key)
  | none => l

def assign (key : K) (v : V) (l : List (K × V)) : List (K × V) :=
  l.map fun e => if e.1 = key then (e.1, v) else e

def put (key : K) (v : V) (l : List (K × V)) : List (K × V) :=
  (key, v) :: l.filter (·.1 ≠ key)

/-- The key is put where another one is, and used just after it. -/
def putAfter (key put_key : K) (v : V) (l : List (K × V)) : List (K × V) :=
  if Has l key then
    if Has l put_key then assign put_key v ((moveBefore Prod.fst (some key) put_key l).getD l)
    else insertBefore Prod.fst (some key) (put_key, v) l
  else put put_key v l

def putBack (key : K) (v : V) (l : List (K × V)) : List (K × V) :=
  if Has l key then assign key v l else l ++ [(key, v)]

/-- A key takes the place of another one and is no longer where it was itself. -/
def rename (old_key new_key : K) (l : List (K × V)) : List (K × V) :=
  if Has l old_key then
    (l.filter fun e => e.1 = old_key ∨ e.1 ≠ new_key).map fun e => if e.1 = old_key then (new_key, e.2) else e
  else l

def erase (key : K) (l : List (K × V)) : List (K × V) :=
  l.filter (·.1 ≠ key)

section Stored

variable {l l' : List (K × V)} {key k : K} {v : V}

theorem stored_eq_some (hnodup : (l.map Prod.fst).Nodup) : stored l key = some v ↔ (key, v) ∈ l := by
  constructor
  · intro h
    obtain ⟨e, he, rfl⟩ := Option.map_eq_some_iff.mp h
    have hkey : e.1 = key := by simpa using List.find?_some he
    exact hkey ▸ List.mem_of_find?_eq_some he
  · intro h
    rw [stored, find?_name hnodup h]
    rfl

theorem stored_eq_none : stored l key = none ↔ ¬ Has l key := by
  rw [stored, Option.map_eq_none_iff, List.find?_eq_none, Has, List.mem_map]
  constructor
  · rintro h ⟨e, he, rfl⟩
    exact h e he (by simp)
  · intro h e he hkey
    exact h ⟨e, he, by simpa using hkey⟩

/-- The order does not matter. -/
theorem stored_perm (hnodup : (l.map Prod.fst).Nodup) (hperm : l'.Perm l) : stored l' = stored l := by
  funext key
  refine Option.ext fun v => ?_
  rw [stored_eq_some hnodup, stored_eq_some ((hperm.map Prod.fst).nodup_iff.mpr hnodup), hperm.mem_iff]

theorem stored_cons : stored ((key, v) :: l) = Function.update (stored l) key (some v) := by
  funext k
  by_cases hk : k = key
  · subst hk
    simp [stored]
  · rw [Function.update_of_ne hk]
    simp [stored, Ne.symm hk]

theorem stored_erase : stored (erase key l) = Function.update (stored l) key none := by
  funext k
  by_cases hk : k = key
  · subst hk
    rw [Function.update_self, stored_eq_none, Has, erase]
    simp
  · rw [Function.update_of_ne hk, erase, stored, stored, List.find?_filter]
    congr 2
    funext e
    by_cases he : e.1 = k
    · simp [he, hk]
    · simp [he]

theorem stored_put : stored (put key v l) = Function.update (stored l) key (some v) := by
  rw [put, stored_cons]
  have herase : stored (l.filter (·.1 ≠ key)) = Function.update (stored l) key none := stored_erase
  rw [herase, Function.update_idem]

theorem stored_touch : stored (touch key l) = stored l := by
  unfold touch
  split
  · next v hv =>
    have hput : stored ((key, v) :: l.filter (·.1 ≠ key)) = Function.update (stored l) key (some v) := stored_put
    rw [hput, ← hv, Function.update_eq_self]
  · rfl

theorem stored_assign (h : Has l key) : stored (assign key v l) = Function.update (stored l) key (some v) := by
  funext k
  have hfound : stored (assign key v l) k =
      ((l.find? (·.1 = k)).map fun e => if e.1 = key then (e.1, v) else e).map Prod.snd := by
    rw [stored, assign, List.find?_map]
    congr 3
    funext e
    dsimp only [Function.comp]
    split <;> rfl
  rw [hfound]
  cases hfind : l.find? (·.1 = k) with
  | none =>
    have hno : ¬ Has l k := stored_eq_none.mp (by rw [stored, hfind]; rfl)
    have hne : k ≠ key := fun heq => hno (heq ▸ h)
    rw [Function.update_of_ne hne, stored, hfind]
    rfl
  | some e =>
    have hkey : e.1 = k := by simpa using List.find?_some hfind
    by_cases heq : k = key
    · subst heq
      simp [hkey]
    · rw [Function.update_of_ne heq, stored, hfind]
      simp [hkey, heq]

theorem moveBefore_perm {pos : Option K} (hnodup : (l.map Prod.fst).Nodup) (h : moveBefore Prod.fst pos key l = some l') :
    l'.Perm l := by
  obtain ⟨e, he, hmove⟩ := Option.map_eq_some_iff.mp h
  obtain rfl : e.1 = key := by simpa using List.find?_some he
  have hmem := List.mem_of_find?_eq_some he
  rw [← hmove]
  split
  · exact List.Perm.refl _
  · exact insertBefore_perm.trans (filter_name hnodup hmem)

theorem stored_new (hnodup : (l.map Prod.fst).Nodup) (hnew : ¬ Has l key) (hperm : l'.Perm ((key, v) :: l)) :
    stored l' = Function.update (stored l) key (some v) := by
  have hnodup' : (((key, v) :: l).map Prod.fst).Nodup := by
    rw [List.map_cons, List.nodup_cons]
    exact ⟨hnew, hnodup⟩
  rw [stored_perm hnodup' hperm, stored_cons]

theorem stored_putAfter {put_key : K} (hnodup : (l.map Prod.fst).Nodup) :
    stored (putAfter key put_key v l) = Function.update (stored l) put_key (some v) := by
  unfold putAfter
  split
  · split
    · next hput =>
      have hperm : ((moveBefore Prod.fst (some key) put_key l).getD l).Perm l := by
        cases hmove : moveBefore Prod.fst (some key) put_key l with
        | none => exact List.Perm.refl _
        | some l' => exact moveBefore_perm hnodup hmove
      have hput' : Has ((moveBefore Prod.fst (some key) put_key l).getD l) put_key :=
        (hperm.map Prod.fst).mem_iff.mpr hput
      rw [stored_assign hput', stored_perm hnodup hperm]
    · next hput => exact stored_new hnodup hput insertBefore_perm
  · exact stored_put

theorem stored_putBack (hnodup : (l.map Prod.fst).Nodup) :
    stored (putBack key v l) = Function.update (stored l) key (some v) := by
  unfold putBack
  split
  · next h => exact stored_assign h
  · next h => exact stored_new hnodup h (List.perm_append_singleton _ _)

/-- What is found in the renamed list, by what it is in the other one. -/
theorem find?_rename {old_key new_key : K} (h : Has l old_key) {q : K × V → Bool}
    (hq : ∀ e, q e = true ↔ (e.1 = old_key ∨ e.1 ≠ new_key) ∧ (if e.1 = old_key then new_key else e.1) = k) :
    (rename old_key new_key l).find? (·.1 = k) = (l.find? q).map fun e => if e.1 = old_key then (new_key, e.2) else e := by
  rw [rename, if_pos h, List.find?_map, List.find?_filter]
  congr 2
  funext e
  rw [Bool.eq_iff_iff, hq e]
  by_cases he : e.1 = old_key
  · simp [he]
  · simp [he]

theorem stored_rename {old_key new_key : K} : stored (rename old_key new_key l) =
    match stored l old_key with
    | none => stored l
    | some v => Function.update (Function.update (stored l) old_key none) new_key (some v) := by
  cases hold : stored l old_key with
  | none => rw [rename, if_neg (stored_eq_none.mp hold)]
  | some v =>
    have hhas : Has l old_key := by
      by_contra hno
      rw [stored_eq_none.mpr hno] at hold
      cases hold
    funext k
    dsimp only
    by_cases hnew : k = new_key
    · subst hnew
      have hfind : (rename old_key k l).find? (·.1 = k) =
          (l.find? fun e => decide (e.1 = old_key)).map fun e => if e.1 = old_key then (k, e.2) else e := by
        apply find?_rename hhas
        intro e
        by_cases he : e.1 = old_key <;> simp [he]
      rw [Function.update_self, ← hold, stored, hfind, stored, Option.map_map]
      congr 1
      funext e
      dsimp only [Function.comp]
      split <;> rfl
    · rw [Function.update_of_ne hnew]
      by_cases hk : k = old_key
      · subst hk
        rw [Function.update_self, stored_eq_none, Has, rename, if_pos hhas, List.map_map]
        rintro hmem
        obtain ⟨e, -, he⟩ := List.mem_map.mp hmem
        dsimp only [Function.comp] at he
        split at he
        · exact hnew he.symm
        · next hne => exact hne he
      · have hfind : (rename old_key new_key l).find? (·.1 = k) =
            (l.find? fun e => decide (e.1 = k)).map fun e => if e.1 = old_key then (new_key, e.2) else e := by
          apply find?_rename hhas
          intro e
          by_cases he : e.1 = old_key
          · simp [he, Ne.symm hnew, Ne.symm hk]
          · by_cases hek : e.1 = k
            · simp [hek, hk, hnew]
            · simp [he, hek]
        rw [Function.update_of_ne hk, stored, stored, hfind]
        cases hl : l.find? (·.1 = k) with
        | none => rfl
        | some e =>
          have hkey : e.1 = k := by simpa using List.find?_some hl
          simp [hkey, hk]

/-- The last key is given up. -/
theorem stored_dropLast (hnodup : (l.map Prod.fst).Nodup) (hlast : l.getLast? = some (key, v)) :
    stored l.dropLast = Function.update (stored l) key none := by
  obtain ⟨init, rfl⟩ : ∃ init, l = init ++ [(key, v)] := List.getLast?_eq_some_iff.mp hlast
  have hnew : key ∉ init.map Prod.fst := by
    rw [List.map_append, List.nodup_append] at hnodup
    intro hmem
    exact hnodup.2.2 key hmem key (by simp) rfl
  have herase : erase key (init ++ [(key, v)]) = init := by
    rw [erase, List.filter_append, filter_name_notMem hnew]
    simp
  rw [List.dropLast_concat, ← stored_erase, herase]

end Stored

end recency
