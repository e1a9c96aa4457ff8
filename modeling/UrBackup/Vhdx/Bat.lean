import UrBackup.FileList.StringTools
import UrBackup.FileData.Durable
import UrBackup.FileData.Slices

namespace urbackup.vhdxfile

open stringtools filedata

def allocate_size_add_size : Nat := 100 * 1024 * 1024

def log_sector_size : Nat := 4096

def meta_region_offset : Nat := 2 * 1024 * 1024

def bat_table_offset : Nat := meta_region_offset + 1 * 1024 * 1024

def LogOffset : Nat := 1 * 1024 * 1024

def LogLength : Nat := 1 * 1024 * 1024

/-- The sizes `createNew` gives to every image. -/
def block_size : Nat := 1 * 1024 * 1024

def sector_size : Nat := 512

section Indexes

variable (size pos block_size sector_size : Nat)

def getDataBlocks : Nat :=
  if size % block_size ≠ 0 then size / block_size + 1 else size / block_size

def getChunkRatio : Nat :=
  8388608 * sector_size / block_size % 2 ^ 32

/-- `(data_blocks - 1) / chunk_ratio`, which is signed and rounds towards zero. -/
def prevChunks (data_blocks chunk_ratio : Nat) : Int :=
  ((data_blocks : Int) - 1).tdiv chunk_ratio

def getBatEntries : Nat :=
  let data_blocks := getDataBlocks size block_size
  ((data_blocks + prevChunks data_blocks (getChunkRatio block_size sector_size)) % 2 ^ 32).toNat

def getBatEntry : Nat :=
  let data_blocks := pos / block_size
  ((data_blocks + prevChunks data_blocks (getChunkRatio block_size sector_size)) % 2 ^ 32).toNat

def getSectorBitmapEntry : Nat :=
  let data_blocks := pos / block_size
  let chunk_ratio := getChunkRatio block_size sector_size
  ((data_blocks + prevChunks data_blocks chunk_ratio + (chunk_ratio - data_blocks % chunk_ratio : Nat)) % 2 ^ 32).toNat

def getSectorBitmapOffset : Nat :=
  pos / sector_size % 8388608

def getBatLength : Nat :=
  let bat_entries := getBatEntries size block_size sector_size
  let mb_blocks := if bat_entries % block_size ≠ 0 then bat_entries * 8 / block_size + 1 else bat_entries * 8 / block_size
  mb_blocks * 1024 * 1024 % 2 ^ 32

theorem prevChunks_eq {data_blocks chunk_ratio : Nat} (hratio : 2 ≤ chunk_ratio) :
    prevChunks data_blocks chunk_ratio = ((data_blocks - 1) / chunk_ratio : Nat) := by
  cases data_blocks with
  | zero =>
    have hone : (1 : Int).tdiv chunk_ratio = 0 := Int.tdiv_eq_zero_of_lt (by omega) (by omega)
    rw [prevChunks, Nat.zero_sub, Nat.zero_div, Nat.cast_zero, zero_sub, Int.neg_tdiv, hone]
    rfl
  | succ n =>
    have hcast : ((n + 1 : Nat) : Int) - 1 = (n : Nat) := by omega
    rw [prevChunks, hcast, Nat.add_sub_cancel]
    rfl

variable {pos block_size sector_size}

theorem getBatEntry_of_ratio (hratio : 2 ≤ getChunkRatio block_size sector_size) : getBatEntry pos block_size sector_size =
    (pos / block_size + (pos / block_size - 1) / getChunkRatio block_size sector_size) % 2 ^ 32 := by
  rw [getBatEntry, prevChunks_eq hratio]
  generalize pos / block_size = b
  generalize (b - 1) / getChunkRatio block_size sector_size = chunks
  omega

theorem getSectorBitmapEntry_of_ratio (hratio : 2 ≤ getChunkRatio block_size sector_size) : getSectorBitmapEntry pos block_size sector_size =
    (pos / block_size + (pos / block_size - 1) / getChunkRatio block_size sector_size +
      (getChunkRatio block_size sector_size - pos / block_size % getChunkRatio block_size sector_size)) % 2 ^ 32 := by
  rw [getSectorBitmapEntry, prevChunks_eq hratio]
  generalize pos / block_size = b
  generalize (b - 1) / getChunkRatio block_size sector_size = chunks
  generalize getChunkRatio block_size sector_size - b % getChunkRatio block_size sector_size = rest
  omega

end Indexes

inductive BlockState where
  | NOT_PRESENT
  | UNDEFINED
  | ZERO
  | UNMAPPED
  | FULLY_PRESENT
  | PARTIALLY_PRESENT
  | reserved
deriving DecidableEq

structure VhdxBatEntry where
  State : BlockState
  FileOffsetMB : Nat
deriving DecidableEq

namespace VhdxBatEntry

/-- An entry of zero bytes. -/
def zero : VhdxBatEntry :=
  ⟨.NOT_PRESENT, 0⟩

/-- The entry says that its block has a place in the file. -/
def IsPresent (e : VhdxBatEntry) : Prop :=
  e.State = .FULLY_PRESENT ∨ e.State = .PARTIALLY_PRESENT

instance (e : VhdxBatEntry) : Decidable e.IsPresent :=
  inferInstanceAs (Decidable (_ ∨ _))

def fileOffset (e : VhdxBatEntry) : Nat :=
  e.FileOffsetMB * 1024 * 1024

end VhdxBatEntry

section SectorBitmap

/-- A buffer of bytes, by their positions. -/
abbrev Buffer := Nat → UInt8

def isSectorSetInt (sector_buf : Buffer) (pos : Nat) : Bool :=
  let offs := getSectorBitmapOffset pos sector_size
  (sector_buf (offs / 8)).toBitVec.getLsbD (offs % 8)

def setBit (sector_buf : Buffer) (offs : Nat) : Buffer := fun i =>
  if i = offs / 8 then sector_buf i ||| ⟨1#8 <<< (offs % 8)⟩ else sector_buf i

/-- The bits of `n` sectors from `start` on. -/
def setSectors (sector_buf : Buffer) (start : Nat) : Nat → Buffer
  | 0 => sector_buf
  | n + 1 => setSectors (setBit sector_buf (getSectorBitmapOffset start sector_size)) (start + sector_size) n

def setSectorInt (sector_buf : Buffer) (start stop : Nat) : Buffer :=
  setSectors sector_buf start ((stop - start + sector_size - 1) / sector_size)

end SectorBitmap

end urbackup.vhdxfile
