import Mathlib.Computability.Language

namespace wildcards

variable {α : Type} {S T : α → Prop} {L : Language α} {c : α} {w : List α}

/-- The words over some letters. -/
def wordsOver (S : α → Prop) : Language α :=
  {w | ∀ c ∈ w, S c}

/-- The words of one of some letters. -/
def oneOf (S : α → Prop) : Language α :=
  {w | ∃ c, w = [c] ∧ S c}

theorem nil_mem_over_mul : [] ∈ wordsOver S * L ↔ [] ∈ L := by
  rw [Language.mem_mul]
  constructor
  · rintro ⟨a, _, b, hb, happend⟩
    obtain ⟨rfl, rfl⟩ := List.append_eq_nil_iff.mp happend
    exact hb
  · intro h
    exact ⟨[], fun c hc => absurd hc List.not_mem_nil, [], h, rfl⟩

/-- A word begins with what stands behind the wildcard, or with a letter for it. -/
theorem cons_mem_over_mul : c :: w ∈ wordsOver S * L ↔ c :: w ∈ L ∨ S c ∧ w ∈ wordsOver S * L := by
  rw [Language.mem_mul, Language.mem_mul]
  constructor
  · rintro ⟨a, ha, b, hb, happend⟩
    cases a with
    | nil => exact Or.inl (happend ▸ hb)
    | cons d a =>
      obtain ⟨rfl, rfl⟩ := List.cons.inj happend
      exact Or.inr ⟨ha d List.mem_cons_self, a, fun x hx => ha x (List.mem_cons_of_mem d hx), b, hb, rfl⟩
  · rintro (h | ⟨hc, a, ha, b, hb, rfl⟩)
    · exact ⟨[], fun x hx => absurd hx List.not_mem_nil, c :: w, h, rfl⟩
    · refine ⟨c :: a, fun x hx => ?_, b, hb, rfl⟩
      obtain rfl | hx := List.mem_cons.mp hx
      · exact hc
      · exact ha x hx

/-- A wildcard takes over the ones behind it that stand for less. -/
theorem over_mul_over (h : ∀ c, S c → T c) : wordsOver T * wordsOver S = wordsOver T := by
  apply Language.ext
  intro w
  rw [Language.mem_mul]
  constructor
  · rintro ⟨a, ha, b, hb, rfl⟩ c hc
    obtain hc | hc := List.mem_append.mp hc
    · exact ha c hc
    · exact h c (hb c hc)
  · intro hw
    exact ⟨w, hw, [], fun c hc => absurd hc List.not_mem_nil, List.append_nil w⟩

theorem nil_notMem_oneOf_mul : [] ∉ oneOf S * L := by
  rw [Language.mem_mul]
  rintro ⟨a, ⟨c, rfl, _⟩, b, _, happend⟩
  simp at happend

theorem cons_mem_oneOf_mul : c :: w ∈ oneOf S * L ↔ S c ∧ w ∈ L := by
  rw [Language.mem_mul]
  constructor
  · rintro ⟨a, ⟨d, rfl, hd⟩, b, hb, happend⟩
    obtain ⟨rfl, rfl⟩ := List.cons.inj happend
    exact ⟨hd, hb⟩
  · rintro ⟨hc, hw⟩
    exact ⟨[c], ⟨c, rfl, hc⟩, w, hw, rfl⟩

end wildcards
