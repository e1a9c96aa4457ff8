import UrBackup.FileData.Slices

namespace blockhash

open filedata

variable {σ α : Type}

/-- A hash function that takes a message in blocks. -/
structure Compression (σ α : Type) where
  blockLength : Nat
  pos : 0 < blockLength
  initial : σ
  compress : σ → List α → σ

namespace Compression

variable (c : Compression σ α)

/-- The complete blocks of some data. -/
def absorb (s : σ) (xs : List α) : σ :=
  (List.range (xs.length / c.blockLength)).foldl (fun s i => c.compress s (slice xs (c.blockLength * i) c.blockLength)) s

variable {c} {s : σ} {xs ys : List α}

theorem absorb_short (h : xs.length < c.blockLength) : c.absorb s xs = s := by
  rw [absorb, Nat.div_eq_of_lt h]
  rfl

@[simp] theorem absorb_nil (s : σ) : c.absorb s [] = s :=
  absorb_short (show ([] : List α).length < c.blockLength from c.pos)

theorem absorb_block (h : xs.length = c.blockLength) (s : σ) (ys : List α) :
    c.absorb s (xs ++ ys) = c.absorb (c.compress s xs) ys := by
  have hrest : ∀ i, slice (xs ++ ys) (c.blockLength * (i + 1)) c.blockLength = slice ys (c.blockLength * i) c.blockLength := by
    intro i
    rw [slice, slice, Nat.mul_succ, Nat.add_comm, ← h, List.drop_length_add_append]
  rw [absorb, absorb, List.length_append, h, Nat.add_div_left _ c.pos, List.range_succ_eq_map, List.foldl_cons, List.foldl_map,
    Nat.mul_zero, slice_append_left ys (by omega), slice, List.drop_zero, ← h, List.take_length, h]
  simp only [Nat.succ_eq_add_one, hrest]

/-- Whole blocks can be taken first. -/
theorem absorb_append (h : xs.length % c.blockLength = 0) (s : σ) (ys : List α) :
    c.absorb s (xs ++ ys) = c.absorb (c.absorb s xs) ys := by
  induction hn : xs.length using Nat.strongRecOn generalizing xs s with
  | ind n ih =>
    have hpos := c.pos
    by_cases hnil : xs = []
    · rw [hnil, List.nil_append, absorb_nil]
    have hlong : c.blockLength ≤ xs.length :=
      Nat.le_of_dvd (List.length_pos_of_ne_nil hnil) (Nat.dvd_of_mod_eq_zero h)
    have htake : (xs.take c.blockLength).length = c.blockLength := by
      rw [List.length_take]
      omega
    have hdrop : (xs.drop c.blockLength).length = xs.length - c.blockLength := List.length_drop
    have hsplit : xs = xs.take c.blockLength ++ xs.drop c.blockLength := (List.take_append_drop ..).symm
    have hrest : (xs.drop c.blockLength).length % c.blockLength = 0 := by
      rw [hdrop, ← Nat.mod_eq_sub_mod hlong, h]
    rw [hsplit, List.append_assoc, absorb_block htake, absorb_block htake,
      ih _ (by omega) hrest _ rfl]

/-- What a context has of a message: the state is for its whole blocks, and the rest of
it waits. -/
structure Holds (c : Compression σ α) (s : σ) (part message : List α) : Prop where
  state : s = c.absorb c.initial message
  split : ∃ whole, message = whole ++ part ∧ whole.length % c.blockLength = 0
  short : part.length < c.blockLength

variable {part message : List α}

theorem Holds.start (c : Compression σ α) : c.Holds c.initial [] [] where
  state := (absorb_nil _).symm
  split := ⟨[], rfl, Nat.zero_mod _⟩
  short := c.pos

/-- As many bytes wait as there are behind the last whole block. -/
theorem Holds.length_part (h : c.Holds s part message) : part.length = message.length % c.blockLength := by
  obtain ⟨whole, rfl, hwhole⟩ := h.split
  rw [List.length_append, Nat.add_mod, hwhole, Nat.zero_add, Nat.mod_mod, Nat.mod_eq_of_lt h.short]

/-- Data that does not fill the block. -/
theorem Holds.keep (h : c.Holds s part message) (hshort : part.length + xs.length < c.blockLength) :
    c.Holds s (part ++ xs) (message ++ xs) := by
  obtain ⟨whole, rfl, hwhole⟩ := h.split
  have hlt : (part ++ xs).length < c.blockLength := by rwa [List.length_append]
  refine ⟨?_, ⟨whole, List.append_assoc .., hwhole⟩, hlt⟩
  rw [h.state, List.append_assoc, absorb_append hwhole, absorb_append hwhole, absorb_short h.short, absorb_short hlt]

/-- Data that fills it. -/
theorem Holds.fill (h : c.Holds s part message) (hfull : part.length + xs.length = c.blockLength) :
    c.Holds (c.compress s (part ++ xs)) [] (message ++ xs) := by
  obtain ⟨whole, rfl, hwhole⟩ := h.split
  have hblock : (part ++ xs).length = c.blockLength := by rwa [List.length_append]
  refine ⟨?_, ⟨whole ++ (part ++ xs), by simp, ?_⟩, c.pos⟩
  · have hone := absorb_block hblock (c.absorb c.initial whole) []
    rw [List.append_nil, absorb_nil] at hone
    rw [h.state, List.append_assoc, absorb_append hwhole, absorb_append hwhole, absorb_short h.short, hone]
  · rw [List.length_append, hblock, Nat.add_mod_right, hwhole]

/-- A message and its padding are whole blocks. -/
theorem Holds.finish (h : c.Holds s [] message) : c.absorb c.initial message = s :=
  h.state.symm

end Compression

end blockhash
