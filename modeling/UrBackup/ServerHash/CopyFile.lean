import UrBackup.FileData.IFile

namespace urbackup.serverhash

open stringtools filedata

def BUFFER_SIZE : Nat := 64 * 1024

def RP_COPY_BLOCKSIZE : Nat := 1024

/-- The source and the destination while they are copied. `extents` are the ones that
the iterator has left, and `ops` is the number of operations that may fail. -/
structure Copying where
  tf : IFile
  dst : IFile
  extents : List SSparseExtent
  cow_filesize : Nat
  ops : Nat

/-- How a copy ends. It is `running` where the fuel is used up. -/
inductive Copied (σ : Type)
  | running
  | failed
  | done (s : σ)

namespace Copying

variable (ok : Nat → Bool) (s : Copying)

def seekSource (pos : Nat) : Option Copying :=
  if ok s.ops then some { s with tf := s.tf.Seek pos, ops := s.ops + 1 } else none

def seekDest (pos : Nat) : Option Copying :=
  if ok s.ops then some { s with dst := s.dst.Seek pos, ops := s.ops + 1 } else none

/-- All is written or the call fails. -/
def writeRepeatFreeSpace (buf : Bytes) : Option Copying :=
  if ok s.ops then some { s with dst := s.dst.Write buf, ops := s.ops + 1 } else none

def writeZeros (s : Copying) (size written : Nat) : Option Copying :=
  if written < size then do
    let towrite := min (size - written) 32768
    let s ← s.writeRepeatFreeSpace ok (List.replicate towrite 0)
    writeZeros s size (written + towrite)
  else some s
termination_by size - written

def punchHoleOrZero (offset size : Nat) : Option Copying :=
  if ok s.ops then some { s with dst := s.dst.PunchHole offset size, ops := s.ops + 1 }
  else do
    let s ← { s with ops := s.ops + 1 }.seekDest ok offset
    s.writeZeros ok size 0

end Copying

section CopyFile

structure CopyState extends Copying where
  fpos : Nat
  sparse_max : Option Nat

variable (ok : Nat → Bool)

/-- The extents at the position. -/
def copySkip : List SSparseExtent → CopyState → Option CopyState
  | [], s => some { s with extents := [] }
  | e :: es, s =>
    if s.fpos ≥ e.offset ∧ s.fpos ≤ e.offset + e.size then do
      let fpos := e.offset + e.size
      let c ← s.toCopying.seekSource ok fpos
      let c ← c.punchHoleOrZero ok e.offset e.size
      let c ← c.seekDest ok fpos
      copySkip es { c with fpos, sparse_max := some fpos }
    else some { s with extents := e :: es }

/-- Up to the next extent. -/
def toreadOf (extents : List SSparseExtent) (fpos : Nat) : Nat :=
  match extents with
  | [] => BUFFER_SIZE
  | e :: _ =>
    if fpos + BUFFER_SIZE > e.offset then min BUFFER_SIZE (((e.offset : Int) - fpos) % 2 ^ 32).toNat else BUFFER_SIZE

def copyLoop : (fuel : Nat) → CopyState → Copied CopyState
  | 0, _ => .running
  | fuel + 1, s =>
    match copySkip ok s.extents s with
    | none => .failed
    | some s =>
      let (buf, tf) := s.tf.Read (toreadOf s.extents s.fpos)
      let has_read_error := !ok s.ops
      if has_read_error then .failed
      else
        match { s.toCopying with tf, ops := s.ops + 1 }.writeRepeatFreeSpace ok buf with
        | none => .failed
        | some c =>
          let s : CopyState := { s with toCopying := c, fpos := s.fpos + buf.length }
          if buf.length > 0 then copyLoop fuel s else .done s

/-- Where the last extent ends behind the destination. -/
def resizeSparse (s : CopyState) : Copied Copying :=
  match s.sparse_max with
  | none => .done s.toCopying
  | some sparse_max =>
    if sparse_max > s.dst.content.length then
      if ok s.ops then .done { s.toCopying with dst := s.dst.Resize (min s.tf.content.length sparse_max), ops := s.ops + 1 }
      else .failed
    else .done s.toCopying

/-- The destination is a new file. -/
def copyFile (tf : IFile) (extents : List SSparseExtent) (cow_filesize : Nat) : Copied Copying :=
  let s : CopyState :=
    { tf := tf.Seek 0, dst := ⟨[], 0⟩, extents, cow_filesize, ops := 1, fpos := 0, sparse_max := none }
  let opened := ok 0
  if ¬ opened then .failed
  else
    match copyLoop ok (tf.content.length + 2) s with
    | .running => .running
    | .failed => .failed
    | .done s => resizeSparse ok s

end CopyFile

section ReplaceFile

structure ReplaceState extends Copying where
  dst_pos : Nat
  dst_eof : Bool

variable (ok : Nat → Bool) (copy : Bool)

def replaceSkip : List SSparseExtent → ReplaceState → Option ReplaceState
  | [], s => some { s with extents := [] }
  | e :: es, s =>
    if e.offset ≥ s.dst_pos ∧ e.offset + e.size > s.dst_pos then do
      let c ← s.toCopying.punchHoleOrZero ok e.offset e.size
      let dst_pos := e.offset + e.size
      let c ← c.seekSource ok dst_pos
      let c ← c.seekDest ok dst_pos
      replaceSkip es { s with toCopying := c, dst_pos }
    else some { s with extents := e :: es }

/-- A block of the destination, none behind its end. -/
def readDest (s : ReplaceState) : Bytes × IFile :=
  if s.dst_eof then ([], s.dst) else s.dst.Read RP_COPY_BLOCKSIZE

/-- A block is written where the destination has another one. -/
def writeChanged (s : ReplaceState) (buf1 buf2 : Bytes) : Option Copying :=
  if buf1 ≠ buf2 then
    { s.toCopying with
      dst := s.dst.Seek s.dst_pos
      cow_filesize := s.cow_filesize + buf1.length }.writeRepeatFreeSpace ok buf1
  else some { s.toCopying with cow_filesize := if copy then s.cow_filesize + buf1.length else s.cow_filesize }

def replaceLoop : (fuel : Nat) → ReplaceState → Copied ReplaceState
  | 0, _ => .running
  | fuel + 1, s =>
    match replaceSkip ok s.extents s with
    | none => .failed
    | some s =>
      let (buf1, tf) := s.tf.Read RP_COPY_BLOCKSIZE
      let (buf2, dst) := readDest s
      let has_read_error := !ok s.ops
      if has_read_error then .failed
      else
        let s : ReplaceState :=
          { s with tf, dst, ops := s.ops + 1, dst_eof := s.dst_eof || decide (buf2.length < buf1.length) }
        match writeChanged ok copy s buf1 buf2 with
        | none => .failed
        | some c =>
          let s : ReplaceState := { s with toCopying := c, dst_pos := s.dst_pos + buf1.length }
          if buf1.length > 0 then replaceLoop fuel s else .done s

/-- `old` is what the destination has at first. Without a reflink it is copied. -/
def replaceFile (tf : IFile) (old : Bytes) (extents : List SSparseExtent) (reflink : Bool) (cow_filesize : Nat) :
    Copied Copying :=
  if ¬ reflink then copyFile ok tf extents cow_filesize
  else
    let s : ReplaceState :=
      { tf := tf.Seek 0, dst := ⟨old, 0⟩, extents, cow_filesize, ops := 1, dst_pos := 0, dst_eof := false }
    let opened := ok 0
    if ¬ opened then .failed
    else
      match replaceLoop ok copy (tf.content.length + 2) s with
      | .running => .running
      | .failed => .failed
      | .done s =>
        if s.dst.content.length ≠ s.tf.content.length then
          if ok s.ops then .done { s.toCopying with dst := s.dst.Resize s.tf.content.length, ops := s.ops + 1 } else .failed
        else .done s.toCopying

end ReplaceFile

end urbackup.serverhash
