import UrBackup.FileData.IFile

namespace urbackup.sparsefile

open stringtools filedata

def roundUp (numToRound multiple : Nat) : Nat :=
  (numToRound + multiple - 1) / multiple * multiple

def roundDown (numToRound multiple : Nat) : Nat :=
  numToRound / multiple * multiple

/-- From `offset` on the data is at `backing_offset`. -/
structure SPosMap where
  offset : Nat
  backing_offset : Nat
  deriving DecidableEq

/-- What the loop of `initWithSparseExtents` carries. -/
structure InitState where
  fpos : Nat
  last_offset : Nat
  max_offset : Nat
  sparse_extents_size : Nat
  sparse_offsets : List SPosMap

def addSparseExtent (blocksize : Nat) (st : InitState) (curr_extent : SSparseExtent) : InitState :=
  let offset := roundUp curr_extent.offset blocksize
  let offset_end := roundDown (curr_extent.offset + curr_extent.size) blocksize
  if offset < offset_end then
    let extent_size := offset_end - offset
    let fpos := st.fpos + (offset - st.last_offset)
    { fpos
      last_offset := offset + extent_size
      max_offset := max st.max_offset (curr_extent.offset + curr_extent.size)
      sparse_extents_size := st.sparse_extents_size + extent_size
      sparse_offsets := st.sparse_offsets ++ [⟨fpos, offset + extent_size⟩] }
  else st

structure SparseFile where
  sparse_offsets : List SPosMap
  backing_file : IFile
  seek_pos : Nat
  backing_pos : Nat
  sparse_extents_size : Nat

/-- A view of a file without some of its extents. A `max_size` of zero is no
bound. -/
def initWithSparseExtents (backing_file : IFile) (sparse_extents : List SSparseExtent) (blocksize max_size : Nat) :
    SparseFile :=
  let st := sparse_extents.foldl (addSparseExtent blocksize) ⟨0, 0, 0, 0, []⟩
  let max_offset := if max_size > 0 then min max_size st.max_offset else st.max_offset
  let backing_pos := match st.sparse_offsets.head? with
    | some first => if first.offset = 0 then first.backing_offset else 0
    | none => 0
  let backing_file :=
    if max_offset > backing_file.content.length then backing_file.Resize max_offset else backing_file
  { sparse_offsets := st.sparse_offsets
    backing_file := backing_file.Seek backing_pos
    seek_pos := 0
    backing_pos
    sparse_extents_size := st.sparse_extents_size }

/-- The first entry behind a position (`upper_bound`). -/
def nextBackingOffset (sparse_offsets : List SPosMap) (seek_pos : Nat) : Option SPosMap :=
  (sparse_offsets.dropWhile fun m => m.offset ≤ seek_pos).head?

def lastBackingOffset (sparse_offsets : List SPosMap) (offset : Nat) : Option SPosMap :=
  (sparse_offsets.takeWhile fun m => m.offset ≤ offset).getLast?

def mapToBackingOffset (sparse_offsets : List SPosMap) (offset : Nat) : Nat :=
  match lastBackingOffset sparse_offsets offset with
  | none => offset
  | some last => last.backing_offset + (offset - last.offset)

/-- An operation on part of a buffer at the current position of a file, with
what it collects. -/
structure IOrigOp (σ : Type) where
  origOp : (buffer_offset max_size : Nat) → IFile → σ → Nat × IFile × σ

def BackingReadStrOp : IOrigOp Bytes where
  origOp _ max_size f ret :=
    let (ret_add, f) := f.Read max_size
    (ret_add.length, f, ret ++ ret_add)

def BackingWriteBufOp (buffer : Bytes) : IOrigOp Unit where
  origOp buffer_offset max_size f _ :=
    let tw := slice buffer buffer_offset max_size
    (tw.length, f.Write tw, ())

namespace SparseFile

def Seek (s : SparseFile) (spos : Nat) : SparseFile :=
  let backing_pos := mapToBackingOffset s.sparse_offsets spos
  { s with seek_pos := spos, backing_pos, backing_file := s.backing_file.Seek backing_pos }

/-- The loop of `mappedOrigOp`. Every round but the last gets a part of the
buffer done, so that its size is enough as `fuel`. -/
def mappedLoop {σ : Type} (orig_op : IOrigOp σ) (op_size_orig : Nat) :
    (fuel op_size : Nat) → SparseFile → σ → Nat × SparseFile × σ
  | 0, op_size, s, ret => (op_size_orig - op_size, s, ret)
  | fuel + 1, op_size, s, ret =>
    if op_size = 0 then (op_size_orig - op_size, s, ret)
    else
      let next := nextBackingOffset s.sparse_offsets s.seek_pos
      let max_size := match next with
        | none => op_size
        | some next => min op_size (next.offset - s.seek_pos)
      let buffer_offset := op_size_orig - op_size
      let (backing_op_size, backing_file, ret) := orig_op.origOp buffer_offset max_size s.backing_file ret
      let s := { s with backing_file, seek_pos := s.seek_pos + backing_op_size }
      let op_size := op_size - backing_op_size
      match next with
      | none => (op_size_orig - op_size, s, ret)
      | some next =>
        if s.seek_pos = next.offset then
          mappedLoop orig_op op_size_orig fuel op_size
            { s with backing_pos := next.backing_offset, backing_file := s.backing_file.Seek next.backing_offset } ret
        else (op_size_orig - op_size, s, ret)

def mappedOrigOp {σ : Type} (s : SparseFile) (orig_op : IOrigOp σ) (op_size : Nat) (ret : σ) : Nat × SparseFile × σ :=
  mappedLoop orig_op op_size op_size op_size s ret

def Read (s : SparseFile) (tr : Nat) : Bytes × SparseFile :=
  let (_, s, ret) := s.mappedOrigOp BackingReadStrOp tr []
  (ret, s)

def Write (s : SparseFile) (tw : Bytes) : Nat × SparseFile :=
  let (written, s, _) := s.mappedOrigOp (BackingWriteBufOp tw) tw.length ()
  (written, s)

end SparseFile

inductive Op
  | Seek (spos : Nat)
  | Read (tr : Nat)
  | ReadAt (spos tr : Nat)
  | Write (tw : Bytes)
  | WriteAt (spos : Nat) (tw : Bytes)

inductive Answer
  | done
  | read (bytes : Bytes)
  | written (n : Nat)
  deriving DecidableEq

def SparseFile.apply (s : SparseFile) : Op → Answer × SparseFile
  | .Seek spos => (.done, s.Seek spos)
  | .Read tr => let (ret, s) := s.Read tr; (.read ret, s)
  | .ReadAt spos tr => let (ret, s) := (s.Seek spos).Read tr; (.read ret, s)
  | .Write tw => let (n, s) := s.Write tw; (.written n, s)
  | .WriteAt spos tw => let (n, s) := (s.Seek spos).Write tw; (.written n, s)

def SparseFile.run (s : SparseFile) : List Op → List Answer × SparseFile
  | [] => ([], s)
  | op :: ops =>
    let (answer, s) := s.apply op
    let (answers, s) := s.run ops
    (answer :: answers, s)

/-- The same operations on a plain file. -/
def applyPlain (f : IFile) : Op → Answer × IFile
  | .Seek spos => (.done, f.Seek spos)
  | .Read tr => let (ret, f) := f.Read tr; (.read ret, f)
  | .ReadAt spos tr => let (ret, f) := (f.Seek spos).Read tr; (.read ret, f)
  | .Write tw => (.written tw.length, f.Write tw)
  | .WriteAt spos tw => (.written tw.length, (f.Seek spos).Write tw)

def runPlain (f : IFile) : List Op → List Answer × IFile
  | [] => ([], f)
  | op :: ops =>
    let (answer, f) := applyPlain f op
    let (answers, f) := runPlain f ops
    (answer :: answers, f)

end urbackup.sparsefile
