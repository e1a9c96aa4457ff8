import UrBackup.Vhd.VHDFile

namespace urbackup.vhdfile

open stringtools filedata

/-- What an image says about the places of its parts. -/
structure Space where
  read_only : Bool
  fast_mode : Bool
  dstsize : Nat
  blocksize : Nat
  bitmap_size : Nat
  bat : List Nat
  bat_offset : Nat
  nextblock_offset : Nat
  parentlocator : List VHDParentLocator

def VHDFile.space (s : VHDFile) : Space where
  read_only := s.read_only
  fast_mode := s.fast_mode
  dstsize := s.dstsize
  blocksize := s.blocksize
  bitmap_size := s.bitmap_size
  bat := s.bat
  bat_offset := s.bat_offset
  nextblock_offset := s.nextblock_offset
  parentlocator := s.parentlocator

/-- The parts of an image. -/
inductive Region
  | header
  | dynamicheader
  | locator (i : Nat)
  | bat
  | block (i : Nat)
  deriving DecidableEq

namespace Space

section Definitions

variable (sp : Space)

/-- Where a part starts and ends. -/
def extent : Region → Option (Nat × Nat)
  | .header => some (0, def_dynamic_header_offset)
  | .dynamicheader => some (def_dynamic_header_offset, def_dynamic_header_offset + 1024)
  | .locator i => sp.parentlocator[i]?.map fun locator =>
    (locator.platform_offset, locator.platform_offset + max locator.platform_space locator.platform_length)
  | .bat => some (sp.bat_offset, sp.bat_offset + 4 * sp.bat.length)
  | .block i => match sp.bat[i]? with
    | none => none
    | some bat_ref =>
      if bat_ref = unallocated then none
      else some (bat_ref * sector_size, bat_ref * sector_size + sp.bitmap_size + sp.blocksize)

/-- The parts do not overlap and end before the place of the next block. -/
structure Spaced : Prop where
  apart : ∀ r r' a b a' b', r ≠ r' → sp.extent r = some (a, b) → sp.extent r' = some (a', b') → b ≤ a' ∨ b' ≤ a
  below : ∀ r a b, sp.extent r = some (a, b) → b ≤ sp.nextblock_offset
  fits : ∀ bat_ref ∈ sp.bat, bat_ref < 2 ^ 32

/-- What a new block takes. -/
def stride : Nat :=
  sp.blocksize + sp.bitmap_size + (sector_size - (sp.blocksize + sp.bitmap_size) % sector_size)

structure Roomy : Prop where
  spaced : sp.Spaced
  blocksize_pos : 0 < sp.blocksize
  small : sp.blocksize + sp.bitmap_size < 2 ^ 32
  aligned : sp.nextblock_offset % sector_size = 0
  table : sp.dstsize ≤ sp.bat.length * sp.blocksize

/-- A block gets the next place. -/
def place (block : Nat) : Space :=
  { sp with
    bat := sp.bat.set block (sp.nextblock_offset / sector_size % 2 ^ 32)
    nextblock_offset := sp.nextblock_offset + sp.stride }

/-- A place is skipped. -/
def skip : Space :=
  { sp with nextblock_offset := sp.nextblock_offset + sp.stride }

end Definitions

variable {sp : Space}

theorem sector_pos : 0 < sector_size := by
  decide

theorem stride_le (sp : Space) : sp.blocksize + sp.bitmap_size ≤ sp.stride ∧
    sp.stride ≤ sp.blocksize + sp.bitmap_size + sector_size := by
  have hmod := Nat.mod_lt (sp.blocksize + sp.bitmap_size) sector_pos
  unfold stride
  omega

theorem stride_aligned (sp : Space) : sp.stride % sector_size = 0 := by
  unfold stride sector_size
  omega

theorem extent_skip (r : Region) : sp.skip.extent r = sp.extent r := by
  cases r <;> rfl

theorem Roomy.skip (h : sp.Roomy) : sp.skip.Roomy where
  spaced :=
    { apart := fun r r' a b a' b' hne hr hr' => by
        rw [extent_skip] at hr hr'
        exact h.spaced.apart r r' a b a' b' hne hr hr'
      below := fun r a b hr => by
        rw [extent_skip] at hr
        exact (h.spaced.below r a b hr).trans (Nat.le_add_right _ _)
      fits := h.spaced.fits }
  blocksize_pos := h.blocksize_pos
  small := h.small
  aligned := by
    have haligned := h.aligned
    have hstride := stride_aligned sp
    dsimp only [Space.skip]
    rw [Nat.add_mod, haligned, hstride]
    rfl
  table := h.table

/-- A part other than the new block is where it was. -/
theorem extent_place {block : Nat} {r : Region} (hr : r ≠ .block block) : (sp.place block).extent r = sp.extent r := by
  cases r with
  | block i =>
    have hne : block ≠ i := fun heq => hr (by rw [heq])
    simp only [extent, place, List.getElem?_set_ne hne]
  | bat => simp only [extent, place, List.length_set]
  | header => rfl
  | dynamicheader => rfl
  | locator i => rfl

/-- The new block is behind everything else. -/
theorem extent_place_self {block : Nat} (h : sp.Roomy) (hplace : sp.nextblock_offset / sector_size < unallocated) {a b : Nat}
    (hr : (sp.place block).extent (.block block) = some (a, b)) :
    a = sp.nextblock_offset ∧ b ≤ sp.nextblock_offset + sp.stride := by
  have hmod : sp.nextblock_offset / sector_size % 2 ^ 32 = sp.nextblock_offset / sector_size := by
    exact Nat.mod_eq_of_lt (hplace.trans (by decide))
  have hoffset : sp.nextblock_offset / sector_size * sector_size = sp.nextblock_offset :=
    Nat.div_mul_cancel (Nat.dvd_of_mod_eq_zero h.aligned)
  have hstride := (stride_le sp).1
  have hget : (sp.place block).bat[block]? = none ∨ (sp.place block).bat[block]? = some (sp.nextblock_offset / sector_size) := by
    by_cases hlt : block < sp.bat.length
    · right
      dsimp only [place]
      rw [List.getElem?_set_self hlt, hmod]
    · left
      dsimp only [place]
      rw [List.getElem?_eq_none (by rw [List.length_set]; omega)]
  unfold extent at hr
  dsimp only at hr
  obtain hget | hget := hget
  · rw [hget] at hr
    cases hr
  · rw [hget] at hr
    dsimp only at hr
    rw [if_neg (by omega), hoffset] at hr
    cases hr
    refine ⟨rfl, ?_⟩
    dsimp only [place]
    omega

theorem Roomy.place (h : sp.Roomy) (hplace : sp.nextblock_offset / sector_size < unallocated) (block : Nat) :
    (sp.place block).Roomy where
  spaced :=
    { apart := fun r r' a b a' b' hne hr hr' => by
        by_cases hself : r = .block block
        · subst hself
          rw [extent_place hne.symm] at hr'
          have hbelow := h.spaced.below r' a' b' hr'
          obtain ⟨rfl, -⟩ := extent_place_self h hplace hr
          exact Or.inr hbelow
        · rw [extent_place hself] at hr
          by_cases hself' : r' = .block block
          · subst hself'
            have hbelow := h.spaced.below r a b hr
            obtain ⟨rfl, -⟩ := extent_place_self h hplace hr'
            exact Or.inl hbelow
          · rw [extent_place hself'] at hr'
            exact h.spaced.apart r r' a b a' b' hne hr hr'
      below := fun r a b hr => by
        by_cases hself : r = .block block
        · subst hself
          exact (extent_place_self h hplace hr).2
        · rw [extent_place hself] at hr
          exact (h.spaced.below r a b hr).trans (Nat.le_add_right _ _)
      fits := fun bat_ref hmem => by
        obtain hmem | rfl := List.mem_or_eq_of_mem_set hmem
        · exact h.spaced.fits bat_ref hmem
        · exact Nat.mod_lt _ (by decide) }
  blocksize_pos := h.blocksize_pos
  small := h.small
  aligned := h.skip.aligned
  table := by
    dsimp only [Space.place]
    rw [List.length_set]
    exact h.table

end Space

end urbackup.vhdfile
