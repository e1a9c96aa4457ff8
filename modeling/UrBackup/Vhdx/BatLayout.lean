import UrBackup.Vhdx.Blocks

namespace urbackup.vhdxfile

section Layout

variable (size block_size sector_size : Nat)

/-- Every payload block has an entry of its own, every chunk one for its sector bitmap, and all
of them are in the BAT. -/
structure BatLaidOut : Prop where
  payload : ∀ {pos pos'}, pos < size → pos' < size → pos / block_size ≠ pos' / block_size →
    getBatEntry pos block_size sector_size ≠ getBatEntry pos' block_size sector_size
  bitmap : ∀ {pos pos'}, pos < size → pos' < size →
    (getSectorBitmapEntry pos block_size sector_size = getSectorBitmapEntry pos' block_size sector_size ↔
      pos / block_size / getChunkRatio block_size sector_size = pos' / block_size / getChunkRatio block_size sector_size)
  apart : ∀ {pos pos'}, pos < size → pos' < size →
    getBatEntry pos block_size sector_size ≠ getSectorBitmapEntry pos' block_size sector_size
  inside : ∀ {pos}, pos < size → (getBatEntry pos block_size sector_size + 1) * 8 ≤ getBatLength size block_size sector_size ∧
    (getSectorBitmapEntry pos block_size sector_size + 1) * 8 ≤ getBatLength size block_size sector_size

/-- The MiB of the BAT where the payload blocks are in one chunk; their number is the number of
entries. -/
def chunkBatMb : Nat :=
  let data_blocks := getDataBlocks size block_size
  (if data_blocks % block_size ≠ 0 then data_blocks * 8 / block_size + 1 else data_blocks * 8 / block_size) % 4096

/-- The disk is not larger than one chunk, and the BAT has room for the entry of its bitmap. -/
structure OneChunk : Prop where
  ratio : 2 ≤ getChunkRatio block_size sector_size
  blocks : size ≤ getChunkRatio block_size sector_size * block_size
  room : (getChunkRatio block_size sector_size + 1) * 8 ≤ chunkBatMb size block_size * (1024 * 1024)

end Layout

section Chunk

variable {size pos block_size sector_size : Nat}

theorem getChunkRatio_lt : getChunkRatio block_size sector_size < 2 ^ 32 :=
  Nat.mod_lt _ (by decide)

theorem getBatEntry_first (hratio : 2 ≤ getChunkRatio block_size sector_size)
    (hblock : pos / block_size ≤ getChunkRatio block_size sector_size) : getBatEntry pos block_size sector_size = pos / block_size := by
  have hlt := @getChunkRatio_lt block_size sector_size
  have hnone : (pos / block_size - 1) / getChunkRatio block_size sector_size = 0 := Nat.div_eq_of_lt (by omega)
  rw [getBatEntry_of_ratio hratio, hnone, Nat.add_zero]
  exact Nat.mod_eq_of_lt (by omega)

theorem getSectorBitmapEntry_first (hratio : 2 ≤ getChunkRatio block_size sector_size)
    (hblock : pos / block_size < getChunkRatio block_size sector_size) :
    getSectorBitmapEntry pos block_size sector_size = getChunkRatio block_size sector_size := by
  have hlt := @getChunkRatio_lt block_size sector_size
  have hnone : (pos / block_size - 1) / getChunkRatio block_size sector_size = 0 := Nat.div_eq_of_lt (by omega)
  rw [getSectorBitmapEntry_of_ratio hratio, hnone, Nat.mod_eq_of_lt hblock, Nat.add_zero, Nat.add_sub_cancel' hblock.le]
  exact Nat.mod_eq_of_lt hlt

theorem getDataBlocks_le {n : Nat} (hsize : size ≤ n * block_size) : getDataBlocks size block_size ≤ n := by
  have hdiv : size / block_size ≤ n := Nat.div_le_of_le_mul (by rwa [Nat.mul_comm])
  have hmod := Nat.div_add_mod size block_size
  rw [getDataBlocks]
  split
  next hrest =>
    by_contra hnot
    have heq : size / block_size = n := by omega
    rw [heq, Nat.mul_comm] at hmod
    omega
  next => exact hdiv

/-- The BAT of a disk that is not larger than one chunk. -/
theorem getBatLength_first (hratio : 2 ≤ getChunkRatio block_size sector_size)
    (hblocks : getDataBlocks size block_size ≤ getChunkRatio block_size sector_size) :
    getBatLength size block_size sector_size = chunkBatMb size block_size * (1024 * 1024) := by
  have hlt := @getChunkRatio_lt block_size sector_size
  have hnone : (getDataBlocks size block_size - 1) / getChunkRatio block_size sector_size = 0 := Nat.div_eq_of_lt (by omega)
  have hentries : getBatEntries size block_size sector_size = getDataBlocks size block_size := by
    rw [getBatEntries, prevChunks_eq hratio, hnone]
    omega
  simp only [getBatLength, hentries, chunkBatMb]
  omega

theorem chunkRatio_pos (h : 2 ≤ getChunkRatio block_size sector_size) : 0 < block_size := by
  by_contra hzero
  obtain rfl : block_size = 0 := by omega
  simp [getChunkRatio] at h

theorem OneChunk.block_lt (h : OneChunk size block_size sector_size) (hpos : pos < size) :
    pos / block_size < getChunkRatio block_size sector_size := by
  have hblock_size := chunkRatio_pos h.ratio
  rw [Nat.div_lt_iff_lt_mul hblock_size]
  exact hpos.trans_le h.blocks

theorem OneChunk.laidOut (h : OneChunk size block_size sector_size) : BatLaidOut size block_size sector_size := by
  have hblocks := getDataBlocks_le h.blocks
  have hroom := h.room
  rw [← getBatLength_first h.ratio hblocks] at hroom
  refine ⟨?_, ?_, ?_, ?_⟩
  · intro pos pos' hpos hpos' hne
    rwa [getBatEntry_first h.ratio (h.block_lt hpos).le, getBatEntry_first h.ratio (h.block_lt hpos').le]
  · intro pos pos' hpos hpos'
    rw [getSectorBitmapEntry_first h.ratio (h.block_lt hpos), getSectorBitmapEntry_first h.ratio (h.block_lt hpos'),
      Nat.div_eq_of_lt (h.block_lt hpos), Nat.div_eq_of_lt (h.block_lt hpos')]
    exact ⟨fun _ => rfl, fun _ => rfl⟩
  · intro pos pos' hpos hpos'
    rw [getBatEntry_first h.ratio (h.block_lt hpos).le, getSectorBitmapEntry_first h.ratio (h.block_lt hpos')]
    exact (h.block_lt hpos).ne
  · intro pos hpos
    have hlt := h.block_lt hpos
    rw [getBatEntry_first h.ratio hlt.le, getSectorBitmapEntry_first h.ratio hlt]
    exact ⟨by omega, hroom⟩

end Chunk

section Collision

variable {size block_size sector_size : Nat}

theorem BatLaidOut.ratio (h : BatLaidOut size block_size sector_size) (hsize : 0 < size) : 2 ≤ getChunkRatio block_size sector_size := by
  by_contra hnot
  obtain hzero | hone : getChunkRatio block_size sector_size = 0 ∨ getChunkRatio block_size sector_size = 1 := by omega
  · have hsame : getBatEntry 0 block_size sector_size = getSectorBitmapEntry 0 block_size sector_size := by
      simp [getBatEntry, getSectorBitmapEntry, prevChunks, hzero]
    exact h.apart hsize hsize hsame
  · have hlast : getBatEntry 0 block_size sector_size = 2 ^ 32 - 1 := by
      rw [getBatEntry, hone, Nat.zero_div]
      rfl
    have hinside := (h.inside hsize).1
    have hlength : getBatLength size block_size sector_size < 2 ^ 32 := Nat.mod_lt _ (by decide)
    omega

/-- The first payload block of the second chunk has the entry of the first chunk's bitmap. -/
theorem BatLaidOut.blocks (h : BatLaidOut size block_size sector_size) (hratio : 2 ≤ getChunkRatio block_size sector_size) :
    size ≤ getChunkRatio block_size sector_size * block_size := by
  by_contra hlarge
  have hblock := Nat.mul_div_cancel (getChunkRatio block_size sector_size) (chunkRatio_pos hratio)
  refine @BatLaidOut.apart _ _ _ h (getChunkRatio block_size sector_size * block_size) 0 (by omega) (by omega) ?_
  rw [getBatEntry_first hratio hblock.le, hblock, getSectorBitmapEntry_first hratio (by rw [Nat.zero_div]; omega)]

/-- The blocks and bitmaps have entries of their own just when one chunk holds the disk. -/
theorem batLaidOut_iff : BatLaidOut size block_size sector_size ↔ size = 0 ∨ OneChunk size block_size sector_size := by
  constructor
  · intro h
    obtain hzero | hsize := Nat.eq_zero_or_pos size
    · exact .inl hzero
    have hratio := h.ratio hsize
    have hblocks := h.blocks hratio
    have hroom := (h.inside hsize).2
    rw [getSectorBitmapEntry_first hratio (by rw [Nat.zero_div]; omega),
      getBatLength_first hratio (getDataBlocks_le hblocks)] at hroom
    exact .inr ⟨hratio, hblocks, hroom⟩
  · rintro (rfl | h)
    · exact ⟨nofun, nofun, nofun, nofun⟩
    · exact h.laidOut

/-- An image of 4 GiB and one byte, with blocks of 1 MiB and sectors of 512 bytes. -/
theorem not_batLaidOut_second_chunk : ¬BatLaidOut (4 * 1024 * 1024 * 1024 + 1) (1024 * 1024) 512 := by
  intro h
  exact @BatLaidOut.apart _ _ _ h (4 * 1024 * 1024 * 1024) 0 (by decide) (by decide) (by decide)

end Collision

end urbackup.vhdxfile
