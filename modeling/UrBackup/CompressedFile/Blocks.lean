import UrBackup.CompressedFile.CompressedFile

namespace urbackup.compressedfile

open stringtools filedata

namespace CompressedFile

/-- What is asked of the compression library for blocks of a size. -/
structure Lossless (codec : Codec) (blocksize : Nat) : Prop where
  roundtrip : ∀ data, data.length = blocksize → codec.decompress codec.mode (codec.compress data) = some data
  size : ∀ data, data.length = blocksize → (codec.compress data).length < 2 ^ 32
  mode : codec.mode = mode_zlib ∨ codec.mode = mode_zstd

section Definitions

variable (codec : Codec) (s : CompressedFile)

/-- The items that are neither in the cache nor in the file. -/
def pending : List SCacheItem :=
  s.evictedItems ++ s.working.filterMap fun w =>
    match w.stage with
    | .published => none
    | _ => some w.item

/-- A block is in the file at an offset, behind the header. -/
structure StoredAt (blockOffset : Nat) (data : Bytes) : Prop where
  header_le : c_header_size ≤ blockOffset
  length_eq : data.length = s.blocksize
  bytes : slice s.uncompressedFile blockOffset (blob codec data).length = blob codec data
  le_size : blockOffset + (blob codec data).length ≤ s.uncompressedFileSize

/-- What the index says about a block. -/
def InFile (k : Nat) (data : Bytes) : Prop :=
  match s.blockOffsets[k]? with
  | none => False
  | some none => data = List.replicate s.blocksize 0
  | some (some blockOffset) => StoredAt codec s blockOffset data

/-- The items with contents that need not be in the file. -/
def live : List SCacheItem :=
  s.lruItems ++ s.pending

def Cached (k : Nat) : Prop :=
  ∃ item ∈ s.lruItems, item.offset = k * s.blocksize

def Pending (k : Nat) : Prop :=
  ∃ item ∈ s.pending, item.offset = k * s.blocksize

/-- The contents of a block: those in the cache or on the way to the file, else
those in the file. -/
def Has (k : Nat) (data : Bytes) : Prop :=
  ⟨k * s.blocksize, data⟩ ∈ s.live ∨ (∀ item ∈ s.live, item.offset ≠ k * s.blocksize) ∧ InFile codec s k data

/-- Two parts of a file that do not overlap. -/
def Disjoint (offset length offset' length' : Nat) : Prop :=
  offset + length ≤ offset' ∨ offset' + length' ≤ offset

/-- Where a worker writes to. -/
def Work.region (w : Work) : Option Nat :=
  match w.stage with
  | .reserved blockOffset => some blockOffset
  | .written blockOffset => some blockOffset
  | _ => none

/-- The items in the cache and on the way to the file. -/
structure Items : Prop where
  blocksize_pos : 0 < s.blocksize
  aligned : ∀ item ∈ s.live, item.offset % s.blocksize = 0
  lengths : ∀ item ∈ s.live, item.buffer.length = s.blocksize
  distinct : s.live.Pairwise fun a b => a.offset ≠ b.offset
  buffers : ∀ buffer ∈ s.lruItemBuffers, buffer.length = s.blocksize
  worked : ∀ w ∈ s.working, w.item.buffer.length = s.blocksize

/-- A block in the file does not overlap with what the workers write. -/
def ClearOf (blockOffset : Nat) (data : Bytes) (w : Work) : Prop :=
  ∀ offset, Work.region w = some offset →
    Disjoint blockOffset (blob codec data).length offset (blob codec w.item.buffer).length

/-- The blocks in the file. -/
structure Layout : Prop where
  size_ge : c_header_size ≤ s.uncompressedFileSize
  length_ge : c_header_size ≤ s.uncompressedFile.length
  file : ∀ (k blockOffset : Nat), s.blockOffsets[k]? = some (some blockOffset) →
    ∃ data, StoredAt codec s blockOffset data ∧ ∀ w ∈ s.working, ClearOf codec blockOffset data w
  regions : ∀ w ∈ s.working, ∀ offset, Work.region w = some offset →
    c_header_size ≤ offset ∧ offset + (blob codec w.item.buffer).length ≤ s.uncompressedFileSize
  apart : s.working.Pairwise fun v w => ∀ offset, Work.region v = some offset → ClearOf codec offset v.item.buffer w
  written : ∀ w ∈ s.working, ∀ offset, w.stage = .written offset → StoredAt codec s offset w.item.buffer
  numbered : s.numBlockOffsets ≤ s.blockOffsets.length

/-- A file that is only read has nothing to write. -/
def ReadOnly : Prop :=
  s.readOnly = true → s.n_threads = 0 ∧ s.evictedItems = [] ∧ s.working = [] ∧ s.numBlockOffsets = s.blockOffsets.length ∧
    ∀ item ∈ s.lruItems, InFile codec s (item.offset / s.blocksize) item.buffer

end Definitions

section File

variable {codec : Codec} {s : CompressedFile}

theorem length_blob (codec : Codec) (data : Bytes) :
    (blob codec data).length = c_blockbufHeadersize + (codec.compress data).length := by
  simp only [blob, c_blockbufHeadersize, List.length_append, length_leBytes]

section Stored

variable {blockOffset : Nat} {data : Bytes} (h : StoredAt codec s blockOffset data)

include h

theorem StoredAt.le_length :
    blockOffset + (blob codec data).length ≤ s.uncompressedFile.length := by
  have hlength := congrArg List.length h.bytes
  have hpos := length_blob codec data
  rw [length_slice] at hlength
  unfold c_blockbufHeadersize at hpos
  omega

/-- A write elsewhere leaves a block alone. -/
theorem StoredAt.writeToFile {offset : Nat} {buffer : Bytes}
    (hdisjoint : Disjoint blockOffset (blob codec data).length offset buffer.length) :
    StoredAt codec (s.writeToFile offset buffer) blockOffset data where
  header_le := h.header_le
  length_eq := h.length_eq
  bytes := (slice_overwrite_disjoint 0 h.le_length hdisjoint).trans h.bytes
  le_size := h.le_size

/-- Only the file and its size matter. -/
theorem StoredAt.congr {s' : CompressedFile} (hblocksize : s'.blocksize = s.blocksize)
    (hfile : s'.uncompressedFile = s.uncompressedFile) (hsize : s.uncompressedFileSize ≤ s'.uncompressedFileSize) : StoredAt codec s' blockOffset data where
  header_le := h.header_le
  length_eq := h.length_eq.trans hblocksize.symm
  bytes := by
    rw [hfile]
    exact h.bytes
  le_size := h.le_size.trans hsize

/-- The two parts of a block in the file. -/
theorem StoredAt.parts :
    slice s.uncompressedFile blockOffset c_blockbufHeadersize = leBytes 4 (codec.compress data).length ++ leBytes 4 codec.mode ∧
      slice s.uncompressedFile (blockOffset + c_blockbufHeadersize) (codec.compress data).length = codec.compress data := by
  have hbytes := h.bytes
  rw [length_blob, slice_add] at hbytes
  have hlength := h.le_length
  rw [length_blob] at hlength
  refine List.append_inj hbytes ?_
  rw [length_slice, List.length_append, length_leBytes, length_leBytes]
  unfold c_blockbufHeadersize at hlength ⊢
  omega

variable (hcodec : Lossless codec s.blocksize)

include hcodec

theorem StoredAt.sizeBytes :
    leValue ((slice s.uncompressedFile blockOffset c_blockbufHeadersize).take 4) = (codec.compress data).length := by
  rw [h.parts.1, List.take_left' (length_leBytes 4 _)]
  exact leValue_leBytes (hcodec.size data h.length_eq)

/-- There is one block at an offset. -/
theorem StoredAt.unique {data' : Bytes} (h' : StoredAt codec s blockOffset data') : data = data' := by
  have hsize : (codec.compress data).length = (codec.compress data').length :=
    (h.sizeBytes hcodec).symm.trans (h'.sizeBytes hcodec)
  have hcompress : codec.compress data = codec.compress data' := by
    rw [← h.parts.2, hsize, h'.parts.2]
  have hplain := hcodec.roundtrip data h.length_eq
  rw [hcompress, hcodec.roundtrip data' h'.length_eq] at hplain
  exact (Option.some.inj hplain).symm

end Stored

end File

end CompressedFile

end urbackup.compressedfile
