import UrBackup.Vhd.Space

namespace urbackup.vhdfile

open stringtools filedata

namespace VHDFile

variable {io : Io} {s : VHDFile}

section Same

theorem fileSeek_space (io : Io) (s : VHDFile) (pos : Nat) : (s.fileSeek io pos).2.space = s.space := by
  unfold fileSeek
  split <;> rfl

theorem write_footer_space (io : Io) (s : VHDFile) : (s.write_footer io).2.space = s.space := by
  have hseek := fileSeek_space io s s.nextblock_offset
  unfold write_footer
  dsimp only
  split
  · exact hseek
  · split
    · exact hseek
    · split <;> exact hseek

theorem write_bat_space (io : Io) (s : VHDFile) : (s.write_bat io).2.space = s.space := by
  have hseek := fileSeek_space io s s.bat_offset
  unfold write_bat
  dsimp only
  split <;> exact hseek

end Same

section Steps

end Steps

section Place

/-- The next place is behind the block. -/
theorem reserveBlock_space (hsmall : s.blocksize + s.bitmap_size < 2 ^ 32) (haligned : s.nextblock_offset % sector_size = 0)
    (hwrap : s.nextblock_offset + s.space.stride < 2 ^ 64) : s.reserveBlock.2.space = s.space.skip := by
  have hle : s.blocksize + s.bitmap_size ≤ s.space.stride := (Space.stride_le s.space).1
  have hstride : nextSector ((s.nextblock_offset + (s.blocksize + s.bitmap_size) % 2 ^ 32) % 2 ^ 64) =
      s.nextblock_offset + s.space.stride := by
    rw [Nat.mod_eq_of_lt hsmall, Nat.mod_eq_of_lt (by omega), nextSector]
    have hmod : (s.nextblock_offset + (s.blocksize + s.bitmap_size)) % sector_size =
        (s.blocksize + s.bitmap_size) % sector_size := by
      rw [Nat.add_mod, haligned, Nat.zero_add, Nat.mod_mod]
    have heq : s.space.stride = s.blocksize + s.bitmap_size + (sector_size - (s.blocksize + s.bitmap_size) % sector_size) := rfl
    rw [hmod, Nat.mod_eq_of_lt (by omega)]
    omega
  unfold reserveBlock Space.skip
  dsimp only [space] at hstride ⊢
  rw [hstride]

end Place

section Loops

/-- The blocks of a write are in the table. -/
theorem block_lt {block blockoffset : Nat} (h : s.space.Roomy) (hin : block * s.blocksize + blockoffset < s.dstsize) :
    block < s.bat.length := by
  have htable : s.dstsize ≤ s.bat.length * s.blocksize := h.table
  refine Nat.lt_of_mul_lt_mul_right (a := s.blocksize) ?_
  omega

/-- The blocks without a place among some of them. -/
def fresh (s : VHDFile) (block n : Nat) : Nat :=
  (slice s.bat block n).count unallocated

/-- There is a number for the place of every new block. -/
def HasNumbers (s : VHDFile) (block n : Nat) : Prop :=
  ∀ i < s.fresh block n, (s.nextblock_offset + i * s.space.stride) / sector_size < unallocated

theorem slice_cons {bat : List Nat} {block n : Nat} (hblock : block < bat.length) :
    slice bat block (n + 1) = bat[block] :: slice bat (block + 1) n := by
  rw [slice, List.drop_eq_getElem_cons hblock, List.take_succ_cons, slice]

theorem HasNumbers.next {t : VHDFile} {block n : Nat} (h : s.HasNumbers block (n + 1)) (hblock : block < s.bat.length)
    (hbat : t.bat.drop (block + 1) = s.bat.drop (block + 1)) (hstride : t.space.stride = s.space.stride)
    (hnext : t.nextblock_offset = s.nextblock_offset ∨
      s.bat[block]? = some unallocated ∧ t.nextblock_offset = s.nextblock_offset + s.space.stride) : t.HasNumbers (block + 1) n := by
  have hfresh : t.fresh (block + 1) n = (slice s.bat (block + 1) n).count unallocated := by
    rw [fresh, slice, hbat, slice]
  have hcount : s.fresh block (n + 1) = (slice s.bat (block + 1) n).count unallocated +
      if s.bat[block] = unallocated then 1 else 0 := by
    rw [fresh, slice_cons hblock, List.count_cons]
    simp
  intro i hi
  rw [hfresh] at hi
  rw [hstride]
  obtain hnext | ⟨hnew, hnext⟩ := hnext
  · rw [hnext]
    exact h i (by omega)
  · rw [List.getElem?_eq_getElem hblock, Option.some_inj] at hnew
    rw [if_pos hnew] at hcount
    have hplace := h (i + 1) (by omega)
    rw [hnext, Nat.add_assoc, Nat.add_comm s.space.stride]
    rw [Nat.add_mul, Nat.one_mul] at hplace
    exact hplace

end Loops

end VHDFile

end urbackup.vhdfile
