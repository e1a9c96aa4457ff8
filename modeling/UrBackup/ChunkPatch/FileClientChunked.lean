import UrBackup.ChunkHash.ChunkHasher
import UrBackup.ChunkPatch.PatchedFile

namespace urbackup.chunkpatch

open stringtools filedata chunkhash

def c_chunk_size : Nat := 4096

/-- What the next received byte belongs to. A header that has come in part counts as
none. -/
inductive ChunkedState where
  | CS_ID_FIRST
  | CS_BLOCK
  | CS_CHUNK
deriving DecidableEq

/-- A `FileClientChunked` in patch mode. `patch_buf` is the part of the buffer that is
filled, and `getfile_done` is set once `GetFile` returns. `disk` has for each of the
next calls of `writeFileRepeat` after how many bytes it gives up, `none` where it writes
them all, as it does behind the end of the list. -/
structure FileClientChunked where
  patchfile : IFile
  patchfile_pos : Nat
  patch_buf : Bytes
  patch_buf_start : Nat
  last_chunk_patches : List Nat
  last_patch_output_fsize : Int
  curr_output_fsize : Int
  remote_filesize : Int
  state : ChunkedState
  file_pos : Nat
  whole_block_remaining : Nat
  adler_remaining : Nat
  block_for_chunk_start : Int
  hash_for_whole_block : Bool
  has_error : Bool
  getfile_done : Bool
  disk : List (Option Nat)

namespace FileClientChunked

/-- As it is constructed. -/
def new (disk : List (Option Nat)) : FileClientChunked where
  patchfile := ⟨[], 0⟩
  patchfile_pos := 0
  patch_buf := []
  patch_buf_start := 0
  last_chunk_patches := []
  last_patch_output_fsize := 0
  curr_output_fsize := 0
  remote_filesize := -1
  state := .CS_ID_FIRST
  file_pos := 0
  whole_block_remaining := 0
  adler_remaining := 0
  block_for_chunk_start := -1
  hash_for_whole_block := false
  has_error := false
  getfile_done := true
  disk

variable (fc : FileClientChunked)

/-- How much of `bsize` bytes the next call of `writeFileRepeat` writes. -/
def accepted (bsize : Nat) : Nat :=
  match fc.disk with
  | some n :: _ => min n bsize
  | _ => bsize

/-- To the patch file. The last write is an error if it wrote nothing, as it also does
when there is nothing to write. -/
def writeFileRepeat (buf : Bytes) : FileClientChunked :=
  { fc with
    patchfile := fc.patchfile.Write (buf.take (fc.accepted buf.length))
    has_error := fc.has_error || decide (fc.accepted buf.length < buf.length) || buf.isEmpty
    disk := fc.disk.tail }

def writePatchInt (pos : Nat) (buf : Bytes) : FileClientChunked :=
  let fc := (fc.writeFileRepeat (leBytes 8 pos ++ leBytes 4 buf.length)).writeFileRepeat buf
  { fc with
    last_patch_output_fsize := if fc.last_chunk_patches = [] then fc.curr_output_fsize else fc.last_patch_output_fsize
    last_chunk_patches := fc.last_chunk_patches ++ [fc.patchfile_pos]
    patchfile_pos := fc.patchfile_pos + 12 + buf.length
    curr_output_fsize := max fc.curr_output_fsize (pos + buf.length) }

/-- The buffer as a record. -/
def flush : FileClientChunked :=
  { fc.writePatchInt fc.patch_buf_start fc.patch_buf with patch_buf := [] }

/-- `buf` is never `NULL`. -/
def writePatch (pos : Nat) (buf : Bytes) (last : Bool) : FileClientChunked :=
  if buf.length ≤ c_chunk_size - fc.patch_buf.length ∧
      (fc.patch_buf = [] ∨ pos = fc.patch_buf_start + fc.patch_buf.length) then
    let fc := { fc with
      patch_buf_start := if fc.patch_buf = [] then pos else fc.patch_buf_start
      patch_buf := fc.patch_buf ++ buf }
    if last ∨ fc.patch_buf.length = c_chunk_size ∨ buf.length = 0 then fc.flush else fc
  else
    let fc := if fc.patch_buf ≠ [] then fc.flush else fc
    if ¬ last ∧ 0 < buf.length ∧ buf.length < c_chunk_size then { fc with patch_buf_start := pos, patch_buf := buf }
    else fc.writePatchInt pos buf

def writePatchSize (remote_fs : Nat) : FileClientChunked :=
  let fc := { fc with patchfile := fc.patchfile.Seek 0 }.writeFileRepeat (leBytes 8 remote_fs)
  if fc.patchfile_pos = 0 then { fc with patchfile_pos := 8 }
  else { fc with patchfile := fc.patchfile.Seek fc.patchfile_pos }

/-- The offset of the record at a position becomes -1. -/
def invalidatePatch (patch_pos : Nat) : FileClientChunked :=
  { fc with patchfile := fc.patchfile.Seek patch_pos }.writeFileRepeat (leBytes 8 (2 ^ 64 - 1))

def invalidateLastPatches : FileClientChunked :=
  let fc := { fc with
    curr_output_fsize := if fc.last_chunk_patches ≠ [] then fc.last_patch_output_fsize else fc.curr_output_fsize }
  let fc := fc.last_chunk_patches.foldl invalidatePatch fc
  { fc with patchfile := fc.patchfile.Seek fc.patchfile_pos, patch_buf := [], last_chunk_patches := [] }

/-- `connected` says whether there is a new connection in time, and the request is sent
over it. -/
def Reconnect (connected rerequest : Bool) : Bool × FileClientChunked :=
  if fc.has_error ∨ ¬ connected then (false, fc)
  else
    let fc := { fc with remote_filesize := -1, block_for_chunk_start := -1, state := .CS_ID_FIRST, patch_buf := [] }
    (true, if rerequest then fc.invalidateLastPatches else fc)

/-- A block is asked for on a connection of its own. -/
def requestOfbChunk : FileClientChunked :=
  { fc with state := .CS_ID_FIRST }.invalidateLastPatches

/-- Without what is only hashed; the positions in a block do not go back. -/
def Hash_upto (new_chunk_start : Nat) : FileClientChunked :=
  let block_start := new_chunk_start / c_checkpoint_dist * c_checkpoint_dist
  let fc :=
    if (block_start : Int) ≠ fc.block_for_chunk_start then
      { fc with
        block_for_chunk_start := block_start, last_chunk_patches := [], patch_buf := [], hash_for_whole_block := false }
    else fc
  { fc with file_pos := new_chunk_start }

/-- `equal` says whether the hash of the block is the received one. Where a block that
came in chunks has another hash it is loaded again as a whole, and this goes on until
the hash of that. -/
def Hash_finalize (curr_pos : Nat) (equal : Bool) : FileClientChunked :=
  let whole := fc.hash_for_whole_block
  let fc := { fc with block_for_chunk_start := if whole then fc.block_for_chunk_start else -1 }
  if equal then
    { fc with
      curr_output_fsize := max fc.curr_output_fsize (min (curr_pos + c_checkpoint_dist) fc.remote_filesize)
      last_chunk_patches := [] }
  else if whole then { fc with getfile_done := true, last_chunk_patches := [] }
  else fc.invalidateLastPatches.requestOfbChunk

def Hash_nochange (curr_pos : Nat) : FileClientChunked :=
  if curr_pos + c_checkpoint_dist ≤ fc.remote_filesize then
    { fc with curr_output_fsize := max fc.curr_output_fsize (curr_pos + c_checkpoint_dist) }
  else { fc with curr_output_fsize := max fc.curr_output_fsize fc.remote_filesize }

def State_Block (buf : Bytes) : FileClientChunked :=
  let rbytes := min buf.length fc.whole_block_remaining
  let fc := { fc with whole_block_remaining := fc.whole_block_remaining - rbytes }
  let fc := fc.writePatch fc.file_pos (buf.take rbytes) (decide (fc.whole_block_remaining = 0))
  let fc := { fc with file_pos := fc.file_pos + rbytes }
  if fc.whole_block_remaining = 0 then { fc with hash_for_whole_block := true, state := .CS_ID_FIRST } else fc

def State_Chunk (buf : Bytes) : FileClientChunked :=
  let rbytes := min buf.length fc.adler_remaining
  let fc := { fc with adler_remaining := fc.adler_remaining - rbytes }
  let fc : FileClientChunked :=
    if 0 < rbytes then
      let fc := fc.writePatch fc.file_pos (buf.take rbytes) (decide (fc.adler_remaining = 0))
      { fc with file_pos := fc.file_pos + rbytes }
    else fc
  if fc.adler_remaining = 0 then { fc with state := .CS_ID_FIRST } else fc

/-- Up to the requests, with a new temporary file for the patches. -/
def GetFilePatch (predicted_filesize : Int) : FileClientChunked :=
  { fc with
    patchfile := ⟨[], 0⟩, patchfile_pos := 0, patch_buf := [], remote_filesize := predicted_filesize
    curr_output_fsize := 0, file_pos := 0, getfile_done := false, block_for_chunk_start := -1, state := .CS_ID_FIRST }

end FileClientChunked

/-- What comes in on the connections or happens to them. Blocks and chunks are those
that were asked for. -/
inductive Event where
  | GetFilePatch (predicted_filesize : Int)
  | filesize (remote_filesize : Nat)
  | wholeBlock (block_start whole_block_remaining : Nat)
  | updateChunk (new_chunk_start adler_remaining : Nat)
  | data (buf : Bytes)
  | noChange (block_start : Nat)
  | blockHash (block_start : Nat) (equal : Bool)
  | blockError (allow_reconnect connected : Bool)
  | reconnect (connected : Bool)
  | requestOfbChunk
  | ofbFailed

namespace FileClientChunked

/-- The handling of an event. -/
def step (fc : FileClientChunked) : Event → FileClientChunked
  | .GetFilePatch predicted_filesize => fc.GetFilePatch predicted_filesize
  | .filesize remote_filesize => { fc with remote_filesize }.writePatchSize remote_filesize
  | .wholeBlock block_start whole_block_remaining =>
    { fc with
      file_pos := block_start, block_for_chunk_start := block_start, whole_block_remaining, state := .CS_BLOCK
      hash_for_whole_block := false }
  | .updateChunk new_chunk_start adler_remaining =>
    { fc.Hash_upto new_chunk_start with
      adler_remaining, state := if 0 < adler_remaining then .CS_CHUNK else .CS_ID_FIRST }
  | .data buf => if fc.state = .CS_BLOCK then fc.State_Block buf else fc.State_Chunk buf
  | .noChange block_start => fc.Hash_nochange block_start
  | .blockHash block_start equal => fc.Hash_finalize block_start equal
  | .blockError allow_reconnect connected =>
    { if fc.remote_filesize ≠ -1 ∧ allow_reconnect then (fc.Reconnect connected false).2 else fc with getfile_done := true }
  | .reconnect connected =>
    match fc.Reconnect connected true with
    | (true, fc) => fc
    | (false, fc) => { fc with getfile_done := true }
  | .requestOfbChunk => fc.requestOfbChunk
  | .ofbFailed => { fc with getfile_done := true, last_chunk_patches := [] }

end FileClientChunked

/-- The patches one after the other, each a header and its data. -/
def readPatches (patch : IFile) : List (SPatchHeader × Bytes) :=
  match _h : readNextValidPatch patch with
  | (false, _, _) => []
  | (true, header, patchf) =>
    (header, (patchf.Read header.patch_size).1) :: readPatches (patchf.Read header.patch_size).2
termination_by patch.content.length - patch.pos
decreasing_by
  have hnext := readNextValidPatch_cases patch
  rw [_h] at hnext
  cases hnext with
  | some _ pos hpos hend =>
    simp only [IFile.Read]
    omega

end urbackup.chunkpatch
