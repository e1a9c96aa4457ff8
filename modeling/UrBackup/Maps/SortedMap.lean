import Mathlib.Order.Lattice
import Mathlib.Order.Defs.LinearOrder
import Mathlib.Data.List.Basic
import Mathlib.Order.Basic

namespace maps

/-- A map as the list of its entries in the order of the keys. -/
structure SortedMap (κ ν : Type) [LinearOrder κ] where
  entries : List (κ × ν)
  sorted : entries.Pairwise fun a b => a.1 < b.1

namespace SortedMap

variable {κ ν : Type} [LinearOrder κ]

def empty : SortedMap κ ν :=
  ⟨[], List.Pairwise.nil⟩

/-- The value of the first entry with a key. -/
def lookup (k : κ) : List (κ × ν) → Option ν
  | [] => none
  | e :: es => if e.1 = k then some e.2 else lookup k es

def find (m : SortedMap κ ν) (k : κ) : Option ν :=
  lookup k m.entries

section Lists

variable {es : List (κ × ν)} {k : κ} {v : ν}

theorem lookup_eq_none : lookup k es = none ↔ ∀ e ∈ es, e.1 ≠ k := by
  induction es with
  | nil => simp [lookup]
  | cons e es ih =>
    rw [lookup]
    split
    · next h => simp [h]
    · next h => simp [ih, h]

/-- With distinct keys an entry is what is found for its key. -/
theorem lookup_eq_some (hes : es.Pairwise fun a b => a.1 ≠ b.1) : lookup k es = some v ↔ (k, v) ∈ es := by
  induction es with
  | nil => simp [lookup]
  | cons e es ih =>
    obtain ⟨hhead, htail⟩ := List.pairwise_cons.mp hes
    rw [lookup, List.mem_cons]
    split
    · next h =>
      subst h
      constructor
      · rintro ⟨⟩
        exact Or.inl rfl
      · rintro (heq | hmem)
        · rw [← heq]
        · exact absurd rfl (hhead (e.1, v) hmem)
    · next h =>
      rw [ih htail]
      constructor
      · exact Or.inr
      · rintro (rfl | hmem)
        · exact absurd rfl h
        · exact hmem

theorem keys_distinct (hes : es.Pairwise fun a b => a.1 < b.1) : es.Pairwise fun a b => a.1 ≠ b.1 :=
  hes.imp fun h => h.ne

end Lists

section Insert

/-- An entry put where its key belongs, in place of the one that is there. -/
def insertEntry (k : κ) (v : ν) : List (κ × ν) → List (κ × ν)
  | [] => [(k, v)]
  | e :: es => if k < e.1 then (k, v) :: e :: es else if e.1 = k then (k, v) :: es else e :: insertEntry k v es

theorem mem_insertEntry {k : κ} {v : ν} {es : List (κ × ν)} {d : κ × ν} (h : d ∈ insertEntry k v es) :
    d = (k, v) ∨ d ∈ es := by
  induction es with
  | nil => exact Or.inl (by simpa [insertEntry] using h)
  | cons e es ih =>
    rw [insertEntry] at h
    split at h
    · exact List.mem_cons.mp h
    · split at h
      · obtain h | h := List.mem_cons.mp h
        · exact Or.inl h
        · exact Or.inr (List.mem_cons_of_mem _ h)
      · obtain h | h := List.mem_cons.mp h
        · exact Or.inr (h ▸ List.mem_cons_self)
        · obtain h | h := ih h
          · exact Or.inl h
          · exact Or.inr (List.mem_cons_of_mem _ h)

theorem sorted_insertEntry (k : κ) (v : ν) {es : List (κ × ν)} (hes : es.Pairwise fun a b => a.1 < b.1) :
    (insertEntry k v es).Pairwise fun a b => a.1 < b.1 := by
  induction es with
  | nil => simp [insertEntry]
  | cons e es ih =>
    obtain ⟨hhead, htail⟩ := List.pairwise_cons.mp hes
    rw [insertEntry]
    split
    · next hlt =>
      refine List.pairwise_cons.mpr ⟨fun d hd => ?_, hes⟩
      obtain rfl | hd := List.mem_cons.mp hd
      · exact hlt
      · exact hlt.trans (hhead d hd)
    · next hge =>
      split
      · next heq => exact List.pairwise_cons.mpr ⟨fun d hd => heq ▸ hhead d hd, htail⟩
      · next hne =>
        refine List.pairwise_cons.mpr ⟨fun d hd => ?_, ih htail⟩
        obtain rfl | hd := mem_insertEntry hd
        · exact lt_of_le_of_ne (not_lt.mp hge) hne
        · exact hhead d hd

theorem lookup_insertEntry (k k' : κ) (v : ν) (es : List (κ × ν)) :
    lookup k' (insertEntry k v es) = if k = k' then some v else lookup k' es := by
  induction es with
  | nil => rfl
  | cons e es ih =>
    rw [insertEntry]
    split
    · rfl
    · split
      · next heq =>
        rw [lookup, lookup]
        split
        · rfl
        · next hne => rw [if_neg (by rw [heq]; exact hne)]
      · next hne =>
        rw [lookup, lookup, ih]
        split
        · next heq => rw [if_neg (fun h => hne (heq.trans h.symm))]
        · rfl

def insert (m : SortedMap κ ν) (k : κ) (v : ν) : SortedMap κ ν :=
  ⟨insertEntry k v m.entries, sorted_insertEntry k v m.sorted⟩

@[simp] theorem find_empty (k : κ) : (empty : SortedMap κ ν).find k = none := rfl

theorem find_insert (m : SortedMap κ ν) (k k' : κ) (v : ν) :
    (m.insert k v).find k' = if k = k' then some v else m.find k' :=
  lookup_insertEntry k k' v m.entries

theorem find_eq_some {m : SortedMap κ ν} {k : κ} {v : ν} : m.find k = some v ↔ (k, v) ∈ m.entries :=
  lookup_eq_some (keys_distinct m.sorted)

end Insert

section Rebuild

/-- A key after all others comes last. -/
theorem insertEntry_last {es : List (κ × ν)} {k : κ} (v : ν) (h : ∀ e ∈ es, e.1 < k) :
    insertEntry k v es = es ++ [(k, v)] := by
  induction es with
  | nil => rfl
  | cons e es ih =>
    have he := h e List.mem_cons_self
    rw [insertEntry, if_neg he.asymm, if_neg he.ne, ih fun d hd => h d (List.mem_cons_of_mem _ hd), List.cons_append]

theorem entries_foldl_insert (es : List (κ × ν)) (m : SortedMap κ ν)
    (h : (m.entries ++ es).Pairwise fun a b => a.1 < b.1) :
    (es.foldl (fun m e => m.insert e.1 e.2) m).entries = m.entries ++ es := by
  induction es generalizing m with
  | nil => rw [List.foldl_nil, List.append_nil]
  | cons e es ih =>
    have hlast : (m.insert e.1 e.2).entries = m.entries ++ [e] :=
      insertEntry_last e.2 fun d hd => (List.pairwise_append.mp h).2.2 d hd e List.mem_cons_self
    have happend : m.entries ++ [e] ++ es = m.entries ++ e :: es := by simp
    rw [List.foldl_cons, ih _ (by rw [hlast, happend]; exact h), hlast, happend]

/-- A map is made again of its entries. -/
theorem foldl_insert_entries (m : SortedMap κ ν) : m.entries.foldl (fun m e => m.insert e.1 e.2) empty = m := by
  have h := entries_foldl_insert m.entries empty (by simpa [empty] using m.sorted)
  obtain ⟨es, hes⟩ := m
  cases hfold : es.foldl (fun m e => m.insert e.1 e.2) empty with
  | mk ds hds =>
    rw [hfold] at h
    simp only [empty, List.nil_append] at h
    subst h
    rfl

end Rebuild

section Erase

def erase (m : SortedMap κ ν) (k : κ) : SortedMap κ ν :=
  ⟨m.entries.filter fun e => e.1 ≠ k, m.sorted.sublist List.filter_sublist⟩

theorem find_erase (m : SortedMap κ ν) (k k' : κ) : (m.erase k).find k' = if k = k' then none else m.find k' := by
  unfold erase find
  dsimp only
  generalize m.entries = es
  induction es with
  | nil => simp [lookup]
  | cons e es ih =>
    rw [List.filter_cons]
    by_cases hk : e.1 = k
    · rw [if_neg (by simp [hk]), ih, lookup]
      split
      · rfl
      · next hne => rw [if_neg (by rw [hk]; exact hne)]
    · rw [if_pos (by simp [hk]), lookup, ih, lookup]
      split
      · next heq => rw [if_neg (fun h => hk (heq.trans h.symm))]
      · rfl

theorem erase_of_find_none {m : SortedMap κ ν} {k : κ} (h : m.find k = none) : m.erase k = m := by
  obtain ⟨es, hes⟩ := m
  have hfilter : (es.filter fun e => e.1 ≠ k) = es := by
    rw [List.filter_eq_self]
    intro e he
    simpa using lookup_eq_none.mp h e he
  simp only [erase, mk.injEq]
  exact hfilter

theorem erase_erase (m : SortedMap κ ν) (k : κ) : (m.erase k).erase k = m.erase k :=
  erase_of_find_none (by rw [find_erase, if_pos rfl])

end Erase

section LowerBound

/-- The entries from a key on. -/
def lowerBound (m : SortedMap κ ν) (k : κ) : List (κ × ν) :=
  m.entries.dropWhile fun e => e.1 < k

theorem mem_dropWhile_lt {es : List (κ × ν)} (hes : es.Pairwise fun a b => a.1 < b.1) (k : κ) (d : κ × ν) :
    d ∈ es.dropWhile (fun e => e.1 < k) ↔ d ∈ es ∧ k ≤ d.1 := by
  induction es with
  | nil => simp
  | cons c es ih =>
    obtain ⟨hhead, htail⟩ := List.pairwise_cons.mp hes
    rw [List.dropWhile_cons]
    split
    · next hc =>
      have hlt : c.1 < k := by simpa using hc
      rw [ih htail, List.mem_cons]
      constructor
      · exact fun h => ⟨Or.inr h.1, h.2⟩
      · rintro ⟨rfl | hmem, hd⟩
        · exact absurd hd (not_le.mpr hlt)
        · exact ⟨hmem, hd⟩
    · next hc =>
      have hle : k ≤ c.1 := by simpa using hc
      constructor
      · intro hmem
        refine ⟨hmem, ?_⟩
        obtain rfl | hmem := List.mem_cons.mp hmem
        · exact hle
        · exact hle.trans (hhead d hmem).le
      · exact fun h => h.1

/-- A condition that nothing in between interrupts selects the same as a filter. -/
theorem mem_takeWhile_sorted {es : List (κ × ν)} (hes : es.Pairwise fun a b => a.1 < b.1) {p : κ × ν → Bool}
    (hp : ∀ a ∈ es, ∀ b : κ × ν, a.1 < b.1 → p b = true → p a = true) (e : κ × ν) :
    e ∈ es.takeWhile p ↔ e ∈ es ∧ p e = true := by
  induction es with
  | nil => simp
  | cons d es ih =>
    obtain ⟨hhead, htail⟩ := List.pairwise_cons.mp hes
    rw [List.takeWhile_cons]
    split
    · next hd =>
      rw [List.mem_cons, List.mem_cons, ih htail fun a ha => hp a (List.mem_cons_of_mem _ ha)]
      constructor
      · rintro (rfl | ⟨hmem, he⟩)
        · exact ⟨Or.inl rfl, hd⟩
        · exact ⟨Or.inr hmem, he⟩
      · rintro ⟨rfl | hmem, he⟩
        · exact Or.inl rfl
        · exact Or.inr ⟨hmem, he⟩
    · next hd =>
      constructor
      · intro h
        cases h
      · rintro ⟨hmem, he⟩
        obtain rfl | hmem := List.mem_cons.mp hmem
        · exact absurd he hd
        · exact absurd (hp d List.mem_cons_self e (hhead e hmem) he) hd

/-- What a loop from a key on goes through, as long as the keys that satisfy
its condition are not interrupted by others. -/
theorem mem_takeWhile_lowerBound (m : SortedMap κ ν) (k : κ) {p : κ × ν → Bool}
    (hp : ∀ a b : κ × ν, k ≤ a.1 → a.1 < b.1 → p b = true → p a = true) (e : κ × ν) :
    e ∈ (m.lowerBound k).takeWhile p ↔ e ∈ m.entries ∧ k ≤ e.1 ∧ p e = true := by
  have hsorted : (m.lowerBound k).Pairwise fun a b => a.1 < b.1 := m.sorted.sublist (List.dropWhile_sublist _)
  rw [mem_takeWhile_sorted hsorted fun a ha b => hp a b ((mem_dropWhile_lt m.sorted k a).mp ha).2, lowerBound,
    mem_dropWhile_lt m.sorted]
  exact and_assoc

end LowerBound

section Folds

/-- Entries put into a map one after the other. -/
theorem find_foldl_insert {es : List (κ × ν)} (hes : es.Pairwise fun a b => a.1 ≠ b.1) (m : SortedMap κ ν) (k : κ) :
    (es.foldl (fun m e => m.insert e.1 e.2) m).find k = (lookup k es).or (m.find k) := by
  induction es generalizing m with
  | nil => rfl
  | cons e es ih =>
    obtain ⟨hhead, htail⟩ := List.pairwise_cons.mp hes
    rw [List.foldl_cons, ih htail, find_insert, lookup]
    split
    · next heq =>
      subst heq
      rw [lookup_eq_none.mpr fun d hd => (hhead d hd).symm]
      rfl
    · rfl

theorem find_foldl_erase (es : List (κ × ν)) (m : SortedMap κ ν) (k : κ) :
    (es.foldl (fun m e => m.erase e.1) m).find k = if lookup k es = none then m.find k else none := by
  induction es generalizing m with
  | nil => rfl
  | cons e es ih =>
    rw [List.foldl_cons, ih, find_erase, lookup]
    by_cases heq : e.1 = k
    · simp [heq]
    · simp [heq]

end Folds

end SortedMap

end maps
