import UrBackup.FileList.StringTools
import UrBackup.FileData.LittleEndian
import UrBackup.FileData.Slices

namespace urbackup.websocket

open stringtools filedata

inductive EReadState
  | Header1
  | HeaderSize1
  | HeaderSize2
  | HeaderMask
  | Body
  deriving DecidableEq

/-- One end of a connection. `sent` is what it wrote to the pipe below. -/
structure WebSocketPipe where
  mask_writes : Bool
  expect_read_mask : Bool
  masking_key : Vector UInt8 4
  read_state : EReadState
  header_bits1 : UInt8
  header_bits2 : UInt8
  payload_size : Nat
  remaining_size_bytes : Nat
  consumed_size_bytes : Nat
  read_mask : Vector UInt8 4
  curr_has_read_mask : Bool
  read_mask_idx : Nat
  has_error : Bool
  pipe_add : Bytes
  sent : Bytes

/-- The FIN bit of the first header byte and the mask bit of the second one. -/
def bit7 : UInt8 := 0x80

/-- A byte of a mask that is used over and over. -/
def maskByte (mask : Vector UInt8 4) (idx : Nat) : UInt8 :=
  mask.get ⟨idx % 4, Nat.mod_lt idx (by decide)⟩

/-- Bytes with a mask on them; it starts at `idx`. -/
def xorMask (mask : Vector UInt8 4) : (idx : Nat) → Bytes → Bytes
  | _, [] => []
  | idx, b :: bs => (b ^^^ maskByte mask idx) :: xorMask mask (idx + 1) bs

namespace WebSocketPipe

variable (w : WebSocketPipe)

/-- A new end; what is zero here is set before it is used. -/
def construct (mask_writes expect_read_mask : Bool) (masking_key : Vector UInt8 4) (pipe_add : Bytes) : WebSocketPipe where
  mask_writes
  expect_read_mask
  masking_key
  read_state := .Header1
  header_bits1 := 0
  header_bits2 := 0
  payload_size := 0
  remaining_size_bytes := 0
  consumed_size_bytes := 0
  read_mask := Vector.replicate 4 0
  curr_has_read_mask := false
  read_mask_idx := 0
  has_error := false
  pipe_add
  sent := []

/-- What `Write` puts in front of the payload. -/
def writeHeader (bsize : Nat) : Bytes :=
  let mask_bit : UInt8 := if w.mask_writes then bit7 else 0
  let size :=
    if bsize > 65535 then (127 ||| mask_bit) :: leBytes 8 bsize
    else if bsize > 125 then (126 ||| mask_bit) :: leBytes 2 bsize
    else [UInt8.ofNat bsize ||| mask_bit]
  (bit7 ||| 2) :: size ++ if w.mask_writes then w.masking_key.toList else []

def Write (buffer : Bytes) : WebSocketPipe :=
  if w.mask_writes then
    { w with sent := w.sent ++ (w.writeHeader buffer.length ++ xorMask w.masking_key 0 buffer) }
  else { w with sent := w.sent ++ w.writeHeader buffer.length ++ buffer }

section Consume

def has_read_mask : Bool :=
  w.header_bits2 &&& bit7 ≠ 0

def get_opcode : UInt8 :=
  w.header_bits1 &&& 15

/-- The opcodes of frames with data. -/
def is_data : Bool :=
  w.get_opcode = 0 ∨ w.get_opcode = 1 ∨ w.get_opcode = 2

def header1 (b : UInt8) : WebSocketPipe :=
  let w := { w with header_bits1 := b, read_state := .HeaderSize1 }
  let opcode := w.get_opcode
  let has_error := w.has_error || decide (opcode ≠ 0 ∧ opcode ≠ 1 ∧ opcode ≠ 2 ∧ opcode ≠ 8 ∧ opcode ≠ 9 ∧ opcode ≠ 10)
  let has_error := has_error || decide (w.header_bits1 &&& 1 = 0 ∧ opcode ≠ 0 ∧ opcode ≠ 1 ∧ opcode ≠ 2)
  { w with has_error }

/-- What follows the size of the payload. -/
def afterSize : WebSocketPipe :=
  if w.has_read_mask then
    { w with read_state := .HeaderMask, remaining_size_bytes := 4, consumed_size_bytes := 0, curr_has_read_mask := true }
  else { w with curr_has_read_mask := false, read_state := .Body }

def headerSize1 (b : UInt8) : WebSocketPipe :=
  let w := { w with header_bits2 := b }
  let w := { w with has_error := w.has_error || w.expect_read_mask && !w.has_read_mask }
  let tmp_payload_size := w.header_bits2.toNat % 128
  if tmp_payload_size < 126 then ({ w with payload_size := tmp_payload_size }).afterSize
  else
    { w with
      remaining_size_bytes := if tmp_payload_size = 126 then 2 else 8
      consumed_size_bytes := 0
      payload_size := 0
      read_state := .HeaderSize2 }

/-- `size_byte << (8 * n)` as an `int`, whose shifts count modulo 32, extended to
64 bits. -/
def shiftedByte (size_byte : UInt8) (n : Nat) : Nat :=
  let value := size_byte.toNat * 2 ^ (8 * n % 32) % 2 ^ 32
  if value < 2 ^ 31 then value else value + (2 ^ 64 - 2 ^ 32)

def headerSize2 (b : UInt8) : WebSocketPipe :=
  let w := { w with
    remaining_size_bytes := w.remaining_size_bytes - 1
    payload_size := w.payload_size ||| shiftedByte b w.consumed_size_bytes
    consumed_size_bytes := w.consumed_size_bytes + 1 }
  if w.remaining_size_bytes = 0 then w.afterSize else w

def headerMask (b : UInt8) : WebSocketPipe :=
  let w := { w with
    remaining_size_bytes := w.remaining_size_bytes - 1
    read_mask := w.read_mask.setIfInBounds w.consumed_size_bytes b
    consumed_size_bytes := w.consumed_size_bytes + 1 }
  if w.remaining_size_bytes = 0 then { w with read_state := .Body, read_mask_idx := 0 } else w

/-- The end of a payload. A close and a ping are answered. -/
def endOfFrame : WebSocketPipe :=
  let w := { w with read_state := .Header1 }
  if w.get_opcode = 8 then
    { w with sent := w.sent ++ [w.header_bits1, w.header_bits2 ||| bit7], has_error := true }
  else if w.get_opcode = 9 then { w with sent := w.sent ++ [10 ||| bit7, bit7] }
  else w

end Consume

end WebSocketPipe

/-- The variables of `consume`. What it returns is moved to the front of the
buffer. -/
structure ConsumeState where
  w : WebSocketPipe
  buffer : Bytes
  consumed : Nat
  out_off : Nat

namespace ConsumeState

variable (c : ConsumeState)

/-- The loop that takes the mask off the payload. -/
def unmaskLoop : (toread : Nat) → ConsumeState → ConsumeState
  | 0, c => c
  | toread + 1, c =>
    unmaskLoop toread
      { w := { c.w with read_mask_idx := c.w.read_mask_idx + 1 }
        buffer := c.buffer.set c.out_off (c.buffer.getD c.consumed 0 ^^^ maskByte c.w.read_mask c.w.read_mask_idx)
        consumed := c.consumed + 1
        out_off := c.out_off + 1 }

/-- A part of a payload goes to the front, or is passed over. -/
def movePayload (toread : Nat) : ConsumeState :=
  if c.w.is_data = false then { c with consumed := c.consumed + toread }
  else if c.w.curr_has_read_mask then c.unmaskLoop toread
  else if c.out_off = c.consumed then { c with consumed := c.consumed + toread, out_off := c.out_off + toread }
  else
    { c with
      buffer := overwrite 0 c.buffer c.out_off (slice c.buffer c.consumed toread)
      consumed := c.consumed + toread
      out_off := c.out_off + toread }

def body (bsize : Nat) : ConsumeState :=
  let toread := min (bsize - c.consumed) c.w.payload_size
  let c := ({ c with w := { c.w with payload_size := c.w.payload_size - toread } }).movePayload toread
  if c.w.payload_size = 0 then { c with w := c.w.endOfFrame } else c

def header (next : WebSocketPipe → UInt8 → WebSocketPipe) : ConsumeState :=
  { c with w := next c.w (c.buffer.getD c.consumed 0), consumed := c.consumed + 1 }

def step (bsize : Nat) : ConsumeState :=
  match c.w.read_state with
  | .Header1 => c.header WebSocketPipe.header1
  | .HeaderSize1 => c.header WebSocketPipe.headerSize1
  | .HeaderSize2 => c.header WebSocketPipe.headerSize2
  | .HeaderMask => c.header WebSocketPipe.headerMask
  | .Body => c.body bsize

/-- The loop of `consume`. A round takes at least one byte, but for the end of
an empty payload, so that `2 * bsize + 1` rounds are enough. -/
def loop (bsize : Nat) : (fuel : Nat) → ConsumeState → ConsumeState
  | 0, c => c
  | fuel + 1, c => if c.consumed < bsize then loop bsize fuel (c.step bsize) else c

end ConsumeState

namespace WebSocketPipe

/-- The buffer afterwards, how much of it was used and how much data is at its
front. -/
def consume (w : WebSocketPipe) (buffer : Bytes) (bsize : Nat) : ConsumeState :=
  ConsumeState.loop bsize (2 * bsize + 1) ⟨w, buffer, 0, 0⟩

/-- The loop of `Read`: until there is data or the pipe below has nothing.
`chunks` is what the reads of the pipe below return. -/
def readLoop : WebSocketPipe → (chunks : List Bytes) → Bytes × WebSocketPipe × List Bytes
  | w, [] => ([], w, [])
  | w, chunk :: chunks =>
    if chunk.isEmpty then ([], w, chunks)
    else
      let c := w.consume chunk chunk.length
      if c.out_off > 0 then (c.buffer.take c.out_off, c.w, chunks) else readLoop c.w chunks

def Read (w : WebSocketPipe) (bsize : Nat) (chunks : List Bytes) : Bytes × WebSocketPipe × List Bytes :=
  if w.pipe_add.isEmpty then w.readLoop chunks
  else
    let c := w.consume w.pipe_add (min bsize w.pipe_add.length)
    let w := { c.w with pipe_add := c.buffer.drop c.consumed }
    if c.out_off > 0 then (c.buffer.take c.out_off, w, chunks) else w.readLoop chunks

/-- Reads with buffers of the given sizes, one after the other. -/
def readAll (w : WebSocketPipe) : (bsizes : List Nat) → (chunks : List Bytes) → Bytes × WebSocketPipe × List Bytes
  | [], chunks => ([], w, chunks)
  | bsize :: bsizes, chunks =>
    let (data, w, chunks) := w.Read bsize chunks
    let (rest, w, chunks) := w.readAll bsizes chunks
    (data ++ rest, w, chunks)

end WebSocketPipe

end urbackup.websocket
