import Mathlib.Data.Nat.Basic
import UrBackup.FileData.IFile
import UrBackup.FileData.LittleEndian
import UrBackup.Steps.Rounds

namespace urbackup.chunkpatch

open stringtools filedata steps

def sparse_blocksize : Nat := 512 * 1024

def buffer_size : Nat := 512 * 1024

def UINT_MAX : Nat := 2 ^ 32 - 1

def roundUp (numToRound multiple : Int) : Int :=
  (numToRound + multiple - 1).tdiv multiple * multiple

def roundDown (numToRound multiple : Int) : Int :=
  numToRound.tdiv multiple * multiple

/-- A signed number in eight bytes. -/
def int64 (bytes : Bytes) : Int :=
  (BitVec.ofNat 64 (leValue bytes)).toInt

structure SPatchHeader where
  patch_off : Int
  patch_size : Nat

/-- The settings of a `ChunkPatcher`. -/
structure ChunkPatcher where
  require_unchanged : Bool
  unchanged_align : Nat

/-- What is handed on, in order: bytes of the old file or of the patch, and ranges
without their bytes. -/
inductive Piece where
  | bytes (buf : Bytes) (changed : Bool)
  | unchanged (bsize : Nat)
  | sparse (bsize : Nat)
deriving DecidableEq

/-- Where the next round goes on: in the outer loop, in the one that reads patch data,
or in the one over the old file with `tr` bytes left. -/
inductive Phase where
  | head
  | patching (patching_finished : Bool)
  | copying (tr : Nat)

/-- The variables of `ApplyPatch`. `patchf_pos` is the position of the patch file,
and `extents` starts with the current sparse extent. -/
structure PatchState where
  phase : Phase
  file : IFile
  patch : IFile
  filesize : Int
  has_header : Bool
  next_header : SPatchHeader
  file_pos : Nat
  unchanged_align_start : Int
  unchanged_align_end : Int
  unchanged_align_end_next : Int
  extents : List SSparseExtent
  output : List Piece

/-- Also the size of the header, 0 with no other one left. -/
def readNextValidPatch (patch : IFile) : Bool × SPatchHeader × IFile :=
  if patch.content.length < patch.pos + 12 then (false, ⟨-1, 0⟩, (patch.Read 12).2)
  else
    let patch_off := int64 (slice patch.content patch.pos 8)
    let patch_size := leValue (slice patch.content (patch.pos + 8) 4)
    if patch_off = -1 then readNextValidPatch (patch.Seek (patch.pos + 12 + patch_size))
    else (true, ⟨patch_off, patch_size⟩, patch.Seek (patch.pos + 12))
termination_by patch.content.length - patch.pos
decreasing_by
  simp only [IFile.Seek]
  omega

namespace ChunkPatcher

variable (cp : ChunkPatcher)

/-- At most so much is taken from the old file at once. -/
def max_read : Nat :=
  if cp.unchanged_align ≠ 0 then UINT_MAX - UINT_MAX % cp.unchanged_align else UINT_MAX

def fetchHeader (s : PatchState) : PatchState :=
  if s.has_header ∧ s.next_header.patch_off = -1 then
    match readNextValidPatch s.patch with
    | (has_header, next_header, patch) =>
      let s := { s with has_header, next_header, patch }
      if next_header.patch_off ≠ -1 ∧ cp.unchanged_align ≠ 0 then
        { s with
          unchanged_align_start := roundDown next_header.patch_off cp.unchanged_align
          unchanged_align_end_next := roundUp (next_header.patch_off + next_header.patch_size) cp.unchanged_align }
      else s
  else s

/-- How far the old file goes on until the next patch. -/
def toRead (s : PatchState) : Nat :=
  let hoff := s.next_header.patch_off - s.file_pos
  if s.next_header.patch_off ≠ -1 ∧ 0 ≤ hoff ∧ hoff < cp.max_read then hoff.toNat else cp.max_read

/-- Old data, or a range of it that is known to be sparse. -/
def oldData (s : PatchState) (tr : Nat) : PatchState :=
  let extents := s.extents.dropWhile fun e => decide (e.offset + e.size ≤ s.file_pos)
  let tr := if s.filesize < s.file_pos + tr then (s.filesize - s.file_pos).toNat else tr
  let s := { s with extents, phase := .copying tr }
  match extents with
  | [] => s
  | e :: _ =>
    if sparse_blocksize ≤ tr ∧ cp.unchanged_align ≤ tr ∧ e.offset ≤ s.file_pos ∧ s.file_pos + tr ≤ e.offset + e.size then
      if s.file_pos % sparse_blocksize = 0 ∧ (cp.unchanged_align = 0 ∨ s.file_pos % cp.unchanged_align = 0) then
        let tr := tr - tr % sparse_blocksize
        let tr := if cp.unchanged_align ≠ 0 then tr - tr % cp.unchanged_align else tr
        { s with phase := .head, file_pos := s.file_pos + tr, output := s.output ++ [.sparse tr] }
      else
        let tr :=
          if cp.unchanged_align ≠ 0 ∧ s.file_pos % cp.unchanged_align ≠ 0 then
            min tr (cp.unchanged_align - s.file_pos % cp.unchanged_align)
          else tr
        let tr :=
          if s.file_pos % sparse_blocksize ≠ 0 then min tr (sparse_blocksize - s.file_pos % sparse_blocksize) else tr
        { s with phase := .copying tr }
    else s

/-- A round of the outer loop up to one of the inner ones. The assertions are not
compiled in. -/
def outerRound (s : PatchState) : Round PatchState (Bool × List Piece) :=
  let size := s.file.content.length
  if ¬ (s.file_pos < size ∧ (s.file_pos : Int) < s.filesize) ∧ ¬ s.has_header then .done (true, s.output)
  else
    let s := cp.fetchHeader s
    if ¬ s.has_header ∧ (s.filesize ≤ s.file_pos ∨ size ≤ s.file_pos) then .done (true, s.output)
    else
      let tr := cp.toRead s
      if tr = 0 ∧ s.filesize < s.file_pos + s.next_header.patch_size then
        let patch_size := ((s.filesize - s.file_pos) % 2 ^ 32).toNat
        .next { s with
          phase := .patching true
          next_header := { s.next_header with patch_size }
          unchanged_align_end := s.unchanged_align_end_next }
      else if s.filesize ≤ s.file_pos then .done (false, s.output)
      else if tr = 0 then
        .next { s with phase := .patching false, unchanged_align_end := s.unchanged_align_end_next }
      else if s.file_pos < size then .next (cp.oldData s tr)
      else .done (false, s.output)

/-- A round of the loop that hands on the data of a patch. -/
def patchRound (s : PatchState) (patching_finished : Bool) : Round PatchState (Bool × List Piece) :=
  if 0 < s.next_header.patch_size then
    match s.patch.Read (min buffer_size s.next_header.patch_size) with
    | (buf, patch) =>
      .next { s with
        patch
        next_header := { s.next_header with patch_size := s.next_header.patch_size - buf.length }
        file_pos := s.file_pos + buf.length
        output := s.output ++ [.bytes buf true] }
  else if patching_finished then .done (true, s.output)
  else
    .next { s with
      phase := .head
      file := if cp.require_unchanged then s.file.Seek s.file_pos else s.file
      next_header := { s.next_header with patch_off := -1 } }

/-- The position is in a block that the next patch or the last one touches. -/
def nearPatch (s : PatchState) : Bool :=
  cp.unchanged_align ≠ 0 &&
    (s.unchanged_align_start ≠ -1 && s.unchanged_align_end_next ≠ -1 && s.unchanged_align_start ≤ s.file_pos &&
        s.file_pos < s.unchanged_align_end_next ||
      s.unchanged_align_end ≠ -1 && s.file_pos < s.unchanged_align_end)

/-- `tr`, cut where such blocks begin and end. -/
def cutToBlocks (s : PatchState) (curr_require_unchanged : Bool) (tr : Nat) : Nat :=
  if cp.unchanged_align = 0 then tr
  else if ¬ curr_require_unchanged ∧ s.unchanged_align_start ≠ -1 ∧ s.file_pos < s.unchanged_align_start ∧
      s.unchanged_align_start < s.file_pos + tr then
    (s.unchanged_align_start - s.file_pos).toNat
  else if s.unchanged_align_end ≠ -1 ∧ s.file_pos < s.unchanged_align_end ∧ s.unchanged_align_end < s.file_pos + tr then
    (s.unchanged_align_end - s.file_pos).toNat
  else tr

/-- The next bytes are handed on without or with their contents. -/
def takeOld (s : PatchState) (tr : Nat) : PatchState :=
  let near := cp.nearPatch s
  let curr_require_unchanged := cp.require_unchanged || near
  let tr := cp.cutToBlocks s curr_require_unchanged (min tr buffer_size)
  if curr_require_unchanged then
    match (if near then s.file.Seek s.file_pos else s.file).Read tr with
    | (buf, file) =>
      { s with
        phase := .copying (tr - buf.length)
        file
        file_pos := s.file_pos + buf.length
        output := s.output ++ [.bytes buf false] }
  else
    let tr := min tr (s.file.content.length - s.file_pos)
    { s with phase := .copying 0, file_pos := s.file_pos + tr, output := s.output ++ [.unchanged tr] }

/-- A round of the loop over old data. -/
def copyRound (s : PatchState) (tr : Nat) : Round PatchState (Bool × List Piece) :=
  if 0 < tr ∧ s.file_pos < s.file.content.length ∧ s.file_pos < s.filesize then
    let s := cp.takeOld s tr
    .next (if cp.unchanged_align ≠ 0 ∧ s.file_pos = s.unchanged_align_end then { s with unchanged_align_end := -1 } else s)
  else .next { s with phase := .head }

def round (s : PatchState) : Round PatchState (Bool × List Piece) :=
  match s.phase with
  | .head => cp.outerRound s
  | .patching patching_finished => cp.patchRound s patching_finished
  | .copying tr => cp.copyRound s tr

/-- Once the file size has been read. -/
def start (file : Bytes) (extents : List SSparseExtent) (patch : Bytes) : PatchState where
  phase := .head
  file := ⟨file, 0⟩
  patch := ⟨patch, 8⟩
  filesize := int64 (patch.take 8)
  has_header := true
  next_header := ⟨-1, 0⟩
  file_pos := 0
  unchanged_align_start := -1
  unchanged_align_end := -1
  unchanged_align_end_next := -1
  extents
  output := []

/-- Its result with what was handed on, `none` where the fuel is used up. -/
def ApplyPatch (fuel : Nat) (file : Bytes) (extents : List SSparseExtent) (patch : Bytes) : Option (Bool × List Piece) :=
  if patch.length < 8 then some (false, [])
  else run cp.round fuel (start file extents patch)

end ChunkPatcher

end urbackup.chunkpatch
