import UrBackup.FileList.StringTools
import UrBackup.FileData.LittleEndian
import UrBackup.FileData.Slices

namespace urbackup.compressedfile

open stringtools filedata

/-- The compression library. -/
structure Codec where
  compress : Bytes → Bytes
  decompress : (mode : Nat) → Bytes → Option Bytes
  /-- `mode_zstd`, or `mode_zlib` in a build without zstd. -/
  mode : Nat

def mode_none : Nat := 0

def mode_zlib : Nat := 1

def mode_zstd : Nat := 2

def c_ncacheItems : Nat := 5

def c_blockbufHeadersize : Nat := 8

/-- `URBACKUP COMPRESSED FILE#` -/
def headerMagic : Bytes :=
  [85, 82, 66, 65, 67, 75, 85, 80, 32, 67, 79, 77, 80, 82, 69, 83, 83, 69, 68, 32, 70, 73, 76, 69, 35]

/-- `1.0` -/
def headerVersionV1_0 : Bytes := [49, 46, 48]

/-- `1.1` -/
def headerVersionV1_1 : Bytes := [49, 46, 49]

def c_header_size : Nat := (headerMagic.length + 1) + (headerVersionV1_0.length + 1) + 8 + 8 + 4

structure SCacheItem where
  offset : Nat
  buffer : Bytes

/-- How far a worker is with `evictFromLruCache`. -/
inductive Stage
  | taken
  | reserved (blockOffset : Nat)
  | written (blockOffset : Nat)
  | published

structure Work where
  item : SCacheItem
  stage : Stage

/-- The file and its cache. A block offset of -1 is `none`. `n_threads` is the
number of workers and `allocated` that of the buffers that were allocated. -/
structure CompressedFile where
  blocksize : Nat
  filesize : Nat
  index_offset : Nat
  currentPosition : Nat
  blockOffsets : List (Option Nat)
  numBlockOffsets : Nat
  uncompressedFile : Bytes
  uncompressedFileSize : Nat
  lruItems : List SCacheItem
  evictedItems : List SCacheItem
  working : List Work
  lruItemBuffers : List Bytes
  n_threads : Nat
  allocated : Nat
  error : Bool
  readOnly : Bool

namespace CompressedFile

section Evict

variable (codec : Codec) (s : CompressedFile)

/-- A block in the file. -/
def blob (data : Bytes) : Bytes :=
  leBytes 4 (codec.compress data).length ++ leBytes 4 codec.mode ++ codec.compress data

def reserve (data : Bytes) : CompressedFile :=
  { s with uncompressedFileSize := s.uncompressedFileSize + (blob codec data).length }

def writeToFile (offset : Nat) (buffer : Bytes) : CompressedFile :=
  { s with uncompressedFile := overwrite 0 s.uncompressedFile offset buffer }

def publish (blockIdx blockOffset : Nat) : CompressedFile :=
  let blockOffsets :=
    if s.blockOffsets.length ≤ blockIdx then
      s.blockOffsets ++ List.replicate ((blockIdx + 1) * 2 - s.blockOffsets.length) none
    else s.blockOffsets
  { s with
    blockOffsets := blockOffsets.set blockIdx (some blockOffset)
    numBlockOffsets := max s.numBlockOffsets (blockIdx + 1) }

def evictFromLruCache (item : SCacheItem) : CompressedFile :=
  if s.readOnly then s
  else
    let blockOffset := s.uncompressedFileSize
    let s := s.reserve codec item.buffer
    let s := s.writeToFile blockOffset (blob codec item.buffer)
    s.publish (item.offset / s.blocksize) blockOffset

end Evict

section Lru

variable (codec : Codec) (mem : Nat → Nat → UInt8) (s : CompressedFile)

/-- `new char[buffersize]`: whatever is in the memory. -/
def newBuffer : Bytes × CompressedFile :=
  (List.ofFn fun i : Fin s.blocksize => mem s.allocated i, { s with allocated := s.allocated + 1 })

def getLruItemBuffer : Bytes × CompressedFile :=
  match s.lruItemBuffers.getLast? with
  | some buffer => (buffer, { s with lruItemBuffers := s.lruItemBuffers.dropLast })
  | none => s.newBuffer mem

/-- An item goes to the file, or to the workers if they do not have enough
already. The result is a buffer that can be used. -/
def evict (item : SCacheItem) : Bytes × CompressedFile :=
  if s.evictedItems.length ≥ s.n_threads then (item.buffer, s.evictFromLruCache codec item)
  else ({ s with evictedItems := s.evictedItems ++ [item] }).getLruItemBuffer mem

/-- A buffer for a new item, that of the first one when there are enough. -/
def takeBuffer : Bytes × CompressedFile :=
  if s.lruItems.length ≥ c_ncacheItems then
    match s.lruItems with
    | [] => s.newBuffer mem
    | toremove :: rest =>
      let (buffer, s) := s.evict codec mem toremove
      (buffer, { s with lruItems := rest })
  else s.newBuffer mem

def pushItem (offset : Nat) (buffer : Bytes) : CompressedFile :=
  { s with lruItems := s.lruItems ++ [⟨offset - offset % s.blocksize, buffer⟩] }

def covers (offset : Nat) (item : SCacheItem) : Bool :=
  item.offset ≤ offset ∧ offset < item.offset + s.blocksize

/-- The last item of a list that satisfies a condition, with those around it. -/
def splitLast (p : SCacheItem → Bool) : List SCacheItem → Option (List SCacheItem × SCacheItem × List SCacheItem)
  | [] => none
  | x :: xs =>
    match splitLast p xs with
    | some (pre, y, post) => some (x :: pre, y, post)
    | none => if p x then some ([], x, xs) else none

/-- The item of a position. -/
def get (offset : Nat) : Option SCacheItem :=
  (splitLast (s.covers offset) s.lruItems).map fun found => found.2.1

/-- Bytes of a block; its item becomes the last one. -/
def put (offset : Nat) (buffer : Bytes) : CompressedFile :=
  match splitLast (s.covers offset) s.lruItems with
  | some (pre, item, post) =>
    let item := { item with buffer := overwrite 0 item.buffer (offset - item.offset) buffer }
    { s with lruItems := pre ++ post ++ [item] }
  | none =>
    let (buf, s) := s.takeBuffer codec mem
    s.pushItem offset (overwrite 0 buf (offset % s.blocksize) buffer)

end Lru

section Fill

variable (codec : Codec) (mem : Nat → Nat → UInt8) (s : CompressedFile)

/-- What `fillCache` reads from the file into a buffer. -/
def readBlock (offset blockDataOffset : Nat) (buf : Bytes) : Bool × Bytes :=
  let header := slice s.uncompressedFile blockDataOffset c_blockbufHeadersize
  if header.length ≠ c_blockbufHeadersize then (false, buf)
  else
    let compressedSize := leValue (header.take 4)
    let mode := leValue (header.drop 4)
    let data := slice s.uncompressedFile (blockDataOffset + c_blockbufHeadersize) compressedSize
    if mode = mode_none then
      if compressedSize > s.blocksize then (false, buf)
      else (data.length = compressedSize, data ++ buf.drop data.length)
    else if data.length ≠ compressedSize then (false, buf)
    else if mode = mode_zlib ∨ mode = mode_zstd then
      match codec.decompress mode data with
      | none => (false, buf)
      | some plain =>
        if plain.length > s.blocksize then (false, buf)
        else (¬ (mode = mode_zlib ∧ plain.length ≠ s.blocksize ∧ offset + s.blocksize < s.filesize),
          plain ++ buf.drop plain.length)
    else (false, buf)

/-- Only called for a block that is not in the cache. -/
def fillCache (offset : Nat) : Bool × CompressedFile :=
  let block := offset / s.blocksize
  if block ≥ s.blockOffsets.length then (false, s)
  else
    let (buf, s) := s.takeBuffer codec mem
    if s.error then (false, s.pushItem offset buf)
    else
      match s.blockOffsets.getD block none with
      | none => (true, s.pushItem offset (List.replicate s.blocksize 0))
      | some blockDataOffset =>
        let (ok, buf) := s.readBlock codec offset blockDataOffset buf
        (ok, s.pushItem offset buf)

end Fill

section Access

variable (codec : Codec) (mem : Nat → Nat → UInt8) (s : CompressedFile)

def Seek (spos : Nat) : CompressedFile :=
  { s with currentPosition := spos }

/-- The item of the current position, which is there or comes from the file. -/
def prepare : Bool × CompressedFile :=
  match s.get s.currentPosition with
  | some _ => (true, s)
  | none => s.fillCache codec mem s.currentPosition

/-- A round of `Read`. Behind the end of the file the number of bytes would be
negative: there is no result. -/
def readRound (bsize : Nat) : Option (Bytes × CompressedFile) :=
  let (filled, s) := s.prepare codec mem
  if filled = false then some ([], s)
  else
    match s.get s.currentPosition with
    | none => some ([], s)
    | some item =>
      let innerOffset := s.currentPosition - item.offset
      let canRead := min bsize (s.blocksize - innerOffset)
      if s.currentPosition + canRead > s.filesize ∧ s.currentPosition > s.filesize then none
      else
        let canRead := if s.currentPosition + canRead > s.filesize then s.filesize - s.currentPosition else canRead
        some (slice item.buffer innerOffset canRead, { s with currentPosition := s.currentPosition + canRead })

/-- `Read` goes on as long as it gets something, `bsize` rounds at most. -/
def Read : (fuel bsize : Nat) → CompressedFile → Option (Bytes × CompressedFile)
  | 0, _, s => some ([], s)
  | fuel + 1, bsize, s =>
    match s.readRound codec mem bsize with
    | none => none
    | some (data, s) =>
      if data.length = 0 ∨ data.length ≥ bsize then some (data, s)
      else (Read fuel (bsize - data.length) s).map fun (rest, s) => (data ++ rest, s)

/-- A round of `Write`: what it wrote, none after an error. -/
def writeRound (buffer : Bytes) : Nat × CompressedFile :=
  let maxWrite := (s.currentPosition / s.blocksize + 1) * s.blocksize - s.currentPosition
  let write := min buffer.length maxWrite
  let s := (s.prepare codec mem).2
  if s.error then (0, { s with error := false })
  else
    let s := s.put codec mem s.currentPosition (buffer.take write)
    let s := { s with currentPosition := s.currentPosition + write }
    (write, { s with filesize := max s.filesize s.currentPosition })

/-- `Write` goes on with the rest behind the end of a block. -/
def Write : (fuel : Nat) → (buffer : Bytes) → CompressedFile → Nat × CompressedFile
  | 0, _, s => (0, s)
  | fuel + 1, buffer, s =>
    let maxWrite := (s.currentPosition / s.blocksize + 1) * s.blocksize - s.currentPosition
    let (write, s) := s.writeRound codec mem buffer
    if maxWrite < buffer.length ∧ write ≠ 0 then
      let (rest, s) := Write fuel (buffer.drop write) s
      (write + rest, s)
    else (write, s)

end Access

section File

variable (codec : Codec) (s : CompressedFile)

/-- The last byte of the header is not set. -/
def header : Bytes :=
  headerMagic ++ (headerVersionV1_1 ++ [0]) ++ leBytes 8 s.index_offset ++ leBytes 8 s.filesize ++
    leBytes 4 s.blocksize ++ [0]

def writeHeader : CompressedFile :=
  s.writeToFile 0 s.header

def offsetBytes : Option Nat → Bytes
  | none => leBytes 8 (2 ^ 64 - 1)
  | some blockOffset => leBytes 8 blockOffset

def writeIndex : CompressedFile :=
  let s := { s with index_offset := s.uncompressedFile.length }
  if s.blockOffsets.isEmpty then s
  else
    let nOffsetBytes := 8 * s.numBlockOffsets % 2 ^ 32
    s.writeToFile s.index_offset ((s.blockOffsets.flatMap offsetBytes).take nOffsetBytes)

/-- `LRUMemCache::clear`, when the workers have nothing to do. -/
def clear : CompressedFile :=
  { s.lruItems.foldl (evictFromLruCache codec) s with lruItems := [] }

def finish : CompressedFile :=
  let s := s.clear codec
  if s.readOnly then s else s.writeIndex.writeHeader

/-- A new file. -/
def create (blocksize n_threads : Nat) : CompressedFile :=
  let s : CompressedFile :=
    { blocksize
      filesize := 0
      index_offset := 0
      currentPosition := 0
      blockOffsets := []
      numBlockOffsets := 0
      uncompressedFile := []
      uncompressedFileSize := 0
      lruItems := []
      evictedItems := []
      working := []
      lruItemBuffers := []
      n_threads := n_threads - 1
      allocated := 0
      error := false
      readOnly := false }
  let s := s.writeHeader
  { s with uncompressedFileSize := s.uncompressedFile.length }

def nOffsetItems : Nat :=
  s.filesize / s.blocksize + if s.filesize % s.blocksize ≠ 0 then 1 else 0

end File

end CompressedFile

end urbackup.compressedfile
