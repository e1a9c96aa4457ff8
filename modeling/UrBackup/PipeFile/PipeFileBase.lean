import UrBackup.FileList.StringTools
import UrBackup.FileData.Slices

namespace urbackup.fileservplugin

open stringtools filedata

def buffer_size : Nat := 50 * 1024 * 1024

def buffer_keep_free : Nat := 45 * 1024 * 1024

/-- A call of `fillBuffer` that has released the lock: where it writes, how much
it may write, and what it has written. -/
structure Filling where
  cp_buf_w_pos : Nat
  bsize_free : Nat
  written : Bytes

structure PipeFileBase where
  buffer : Bytes
  curr_pos : Int
  buf_w_pos : Nat
  buf_w_reserved_pos : Nat
  buf_r_pos : Nat
  buf_circle : Bool
  has_eof : Bool
  stream_size : Int
  filling : Option Filling

namespace PipeFileBase

variable (s : PipeFileBase)

def construct : PipeFileBase where
  buffer := List.replicate buffer_size 0
  curr_pos := 0
  buf_w_pos := 0
  buf_w_reserved_pos := 0
  buf_r_pos := 0
  buf_circle := false
  has_eof := false
  stream_size := -1
  filling := none

/-- A position before the start of the buffer is one of the lap before, and so
are those behind the write position. -/
def SeekInt (spos : Int) : Bool × PipeFileBase :=
  let seek_off := spos - s.curr_pos
  if seek_off = 0 then (true, s)
  else
    let seeked_r_pos := (s.buf_r_pos : Int) + seek_off
    if s.buf_r_pos ≤ s.buf_w_pos then
      if 0 ≤ seeked_r_pos ∧ seeked_r_pos ≤ s.buf_w_pos then
        (true, { s with curr_pos := spos, buf_r_pos := seeked_r_pos.toNat })
      else if seeked_r_pos < 0 ∧ ((buffer_size - s.buf_w_reserved_pos : Nat) : Int) > -seeked_r_pos ∧ s.buf_circle = true then
        (true, { s with curr_pos := spos, buf_r_pos := (buffer_size + seeked_r_pos).toNat })
      else (false, s)
    else
      if seeked_r_pos ≥ s.buf_w_reserved_pos ∧ seeked_r_pos < buffer_size then
        (true, { s with curr_pos := spos, buf_r_pos := seeked_r_pos.toNat })
      else if seeked_r_pos ≥ buffer_size ∧ seeked_r_pos - buffer_size ≤ s.buf_w_pos then
        (true, { s with curr_pos := spos, buf_r_pos := (seeked_r_pos - buffer_size).toNat })
      else (false, s)

def getReadAvail : Nat :=
  if s.buf_w_pos ≥ s.buf_r_pos then s.buf_w_pos - s.buf_r_pos
  else buffer_size - s.buf_r_pos + s.buf_w_pos

/-- Bytes from the read position on. -/
def copyOut (n : Nat) : Bytes × PipeFileBase :=
  (slice s.buffer s.buf_r_pos n, { s with buf_r_pos := s.buf_r_pos + n, curr_pos := s.curr_pos + n })

/-- The call that `readBuf` makes of itself reads from the start of the buffer,
which is not behind the write position. -/
def readBuf (toread : Nat) : Bytes × PipeFileBase :=
  if s.buf_w_pos ≥ s.buf_r_pos then s.copyOut toread
  else if toread ≤ buffer_size - s.buf_r_pos then s.copyOut toread
  else
    let cread := buffer_size - s.buf_r_pos
    let (first, s) := s.copyOut cread
    let (rest, s) := { s with buf_r_pos := 0 }.copyOut (toread - cread)
    (first ++ rest, s)

/-- The last round of a `Read`. In the rounds before it the position is sought
and the lock released again. -/
def Read (spos : Int) (tr : Nat) : Option Bytes × PipeFileBase :=
  match s.SeekInt spos with
  | (false, s) => (none, s)
  | (true, s) =>
    let (ret, s) := s.readBuf (min s.getReadAvail tr)
    if s.has_eof = true ∧ s.getReadAvail = 0 then (some ret, { s with stream_size := s.curr_pos })
    else (some ret, s)

section Fill

/-- The producer goes back to the start of the buffer if the reader is far enough. -/
def circle : PipeFileBase :=
  if s.buf_w_pos = buffer_size ∧ s.buf_r_pos > buffer_keep_free then
    { s with buf_circle := true, buf_w_pos := 0, buf_w_reserved_pos := 0 }
  else s

/-- The free bytes behind the write position. There are none for now if
`fillBuffer` waits. -/
def sizeFree : Nat :=
  if s.buf_r_pos > s.buf_w_pos then
    if s.buf_r_pos - s.buf_w_pos < buffer_keep_free then 0 else s.buf_r_pos - s.buf_w_pos - buffer_keep_free
  else if buffer_size - s.buf_w_pos + s.buf_r_pos < buffer_keep_free then 0
  else buffer_size - s.buf_w_pos

/-- `fillBuffer` up to where it releases the lock. -/
def reserve : PipeFileBase :=
  if s.has_eof then s
  else
    let s := s.circle
    let bsize_free := s.sizeFree
    if bsize_free = 0 then s
    else { s with buf_w_reserved_pos := s.buf_w_pos + bsize_free, filling := some ⟨s.buf_w_pos, bsize_free, []⟩ }

/-- Some bytes that `readStdoutIntoBuffer` writes, without the lock. -/
def readStdout (f : Filling) (data : Bytes) : PipeFileBase :=
  { s with
    buffer := overwrite 0 s.buffer (f.cp_buf_w_pos + f.written.length) data
    filling := some { f with written := f.written ++ data } }

/-- `fillBuffer` after `readStdoutIntoBuffer` has returned. -/
def commit (f : Filling) (b : Bool) : PipeFileBase :=
  { s with
    buf_w_pos := s.buf_w_pos + f.written.length
    buf_w_reserved_pos := s.buf_w_pos + f.written.length
    has_eof := s.has_eof || !b
    filling := none }

end Fill

/-- The steps of the producer and of the reader. -/
inductive Event
  | reserve
  | readStdout (data : Bytes)
  | commit (b : Bool)
  | Seek (spos : Int)
  | Read (spos : Int) (tr : Nat)
  | waitForExit

/-- A pipe and all bytes that were produced for it. -/
structure Produced where
  pipe : PipeFileBase
  stream : Bytes

/-- The producer takes its steps one after the other, and writes not more than
it has reserved. -/
def apply (p : Produced) : Event → Option Produced
  | .reserve =>
    match p.pipe.filling with
    | none => some { p with pipe := p.pipe.reserve }
    | some _ => none
  | .readStdout data =>
    match p.pipe.filling with
    | none => none
    | some f => if f.written.length + data.length ≤ f.bsize_free then some { p with pipe := p.pipe.readStdout f data } else none
  | .commit b =>
    match p.pipe.filling with
    | none => none
    | some f => some ⟨p.pipe.commit f b, p.stream ++ f.written⟩
  | .Seek spos => some { p with pipe := (p.pipe.SeekInt spos).2 }
  | .Read spos tr => some { p with pipe := (p.pipe.Read spos tr).2 }
  | .waitForExit => some { p with pipe := { p.pipe with has_eof := true } }

def applyAll : List Event → Produced → Option Produced
  | [], p => some p
  | event :: events, p => (apply p event).bind (applyAll events)

end PipeFileBase

end urbackup.fileservplugin
