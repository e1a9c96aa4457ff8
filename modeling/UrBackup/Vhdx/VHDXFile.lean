import UrBackup.Vhdx.Bat

namespace urbackup.vhdxfile

open stringtools filedata

section File

/-- The `LogGuid` is zero, or one of those that were made at random, no two of
which are the same. -/
structure VhdxHeader where
  SequenceNumber : Nat
  LogGuid : Option Nat
deriving DecidableEq

/-- A log entry with the sector of the BAT it holds. -/
structure LogEntry where
  LogGuid : Nat
  SequenceNumber : Nat
  Tail : Nat
  FlushedFileOffset : Nat
  LastFileOffset : Nat
  sector : Nat
  entries : Nat → VhdxBatEntry

/-- What the image writes to its file. The headers, the log and the BAT have
areas of their own in front of the blocks. -/
inductive FileWrite where
  | header (second : Bool) (header : VhdxHeader)
  | log (pos : Nat) (entry : LogEntry)
  | bat (sector : Nat) (entries : Nat → VhdxBatEntry)
  | data (pos size : Nat) (bytes : Buffer)
  | resize (size : Nat)

structure Content where
  header1 : VhdxHeader
  header2 : VhdxHeader
  log : Nat → Option LogEntry
  bat : Nat → VhdxBatEntry
  data : Buffer
  size : Nat

/-- How many entries of the BAT a sector of the log holds. -/
def sector_entries : Nat := log_sector_size / 8

namespace FileWrite

def apply : FileWrite → Content → Content
  | .header second h, c => if second then { c with header2 := h } else { c with header1 := h }
  | .log pos e, c => { c with log := fun p => if p = pos then some e else c.log p }
  | .bat sector entries, c => { c with bat := fun i => if i / sector_entries = sector then entries i else c.bat i }
  | .data pos size bytes, c =>
    { c with
      data := fun p => if pos ≤ p ∧ p < pos + size then bytes (p - pos) else c.data p
      size := max c.size (pos + size) }
  | .resize size, c => { c with size := size }

end FileWrite

/-- The file after it was created with both headers, a zeroed BAT and some size. -/
def Content.created (size : Nat) : Content where
  header1 := ⟨1, none⟩
  header2 := ⟨1, none⟩
  log := fun _ => none
  bat := fun _ => VhdxBatEntry.zero
  data := fun _ => 0
  size := size

end File

section Parent

/-- A parent image: what is read from it, and what the metadata says about it, as
UTF-16. -/
structure ParentImage where
  dst_size : Nat
  data : Buffer
  parent_linkage : Bytes
  relative_path : Bytes
  absolute_win32_path : Bytes

structure VhdxParentLocatorEntry where
  KeyOffset : Nat
  ValueOffset : Nat
  KeyLength : Nat
  ValueLength : Nat

namespace ParentImage

variable (p : ParentImage)

/-- How many bytes `Read` returns. -/
def readable (pos bsize : Nat) : Nat :=
  if pos > p.dst_size then 0
  else if pos + bsize ≥ p.dst_size then p.dst_size - pos
  else bsize

/-- The lengths of the keys `absolute_win32_path`, `parent_linkage` and
`relative_path`, and their values, in the order of the keys. -/
def parent_loc_entries : List (Nat × Bytes) :=
  [(2 * 19, p.absolute_win32_path), (2 * 14, p.parent_linkage), (2 * 13, p.relative_path)]

def locatorHeaderSize : Nat := 20 + 12 * 3

def parent_locator_size : Nat :=
  locatorHeaderSize + (p.parent_loc_entries.map fun e => e.1 + e.2.length).sum

def locatorEntries : Nat → List (Nat × Bytes) → List VhdxParentLocatorEntry
  | _, [] => []
  | str_pos, e :: entries =>
    { KeyOffset := str_pos
      KeyLength := e.1 % 2 ^ 16
      ValueOffset := str_pos + e.1
      ValueLength := e.2.length % 2 ^ 16 } :: locatorEntries (str_pos + e.1 + e.2.length) entries

/-- The checks `readMeta` makes on the parent locator that `getMetaRegion` wrote. -/
def isLocatorPlausible : Bool :=
  (locatorEntries locatorHeaderSize p.parent_loc_entries).all fun e =>
    !(decide (e.KeyOffset + e.KeyLength ≥ p.parent_locator_size) || decide (e.KeyOffset > 10 * 1024 * 1024) ||
      decide (e.ValueOffset + e.ValueLength ≥ p.parent_locator_size) || decide (e.ValueOffset > 10 * 1024 * 1024))

end ParentImage

end Parent

structure VHDXFile where
  dst_size : Nat
  parent : Option ParentImage
  fast_mode : Bool
  created_size : Nat
  events : List (Event FileWrite)
  resizes : Nat
  guids : Nat
  curr_header : VhdxHeader
  curr_header_second : Bool
  bat_length : Nat
  bat_buf : Nat → VhdxBatEntry
  pending_bat_entries : List Nat
  next_payload_pos : Nat
  flushed_vhdx_size : Nat
  data_write_uuid_updated : Bool
  log_pos : Nat
  log_start_pos : Nat
  log_sequence_num : Nat
  finished : Bool
  sector_bitmap_bufs : Nat → Option Buffer
  pending_sector_bitmaps : List Nat

/-- How a call ends. A call is undefined from where it leaves `bat_buf` or follows
a null pointer. -/
inductive Call (α : Type) where
  | returns (a : α)
  | hangs
  | undefined

namespace VHDXFile

section File

variable (s : VHDXFile)

def content : Content :=
  Event.content FileWrite.apply (Content.created s.created_size) s.events

def fileWrite (w : FileWrite) : VHDXFile :=
  { s with events := s.events ++ [.write w] }

def fileSync : VHDXFile :=
  { s with events := s.events ++ [.sync] }

def fileSize : Nat :=
  s.content.size

/-- `resizeOk` tells which resizes of the run go well. -/
def resize (resizeOk : Nat → Bool) (size : Nat) : Bool × VHDXFile :=
  if resizeOk s.resizes then (true, { s.fileWrite (.resize size) with resizes := s.resizes + 1 })
  else (false, { s with resizes := s.resizes + 1 })

def updateHeader : VHDXFile :=
  let curr_header := { s.curr_header with SequenceNumber := s.curr_header.SequenceNumber + 1 }
  let s := ({ s with curr_header := curr_header }.fileWrite (.header s.curr_header_second curr_header)).fileSync
  { s with curr_header_second := !s.curr_header_second }

end File

/-- A `std::set` of numbers, in their order. -/
def insertPending (n : Nat) (pending : List Nat) : List Nat :=
  if n ∈ pending then pending else pending.orderedInsert (· ≤ ·) n

section Bat

variable (resizeOk : Nat → Bool) (s : VHDXFile)

/-- The entry lies in `bat_buf`. -/
def hasEntry (block : Nat) : Bool :=
  block * 8 + 8 ≤ s.bat_length

def setEntry (block : Nat) (e : VhdxBatEntry) : VHDXFile :=
  { s with bat_buf := fun i => if i = block then e else s.bat_buf i }

def setState (block : Nat) (state : BlockState) : VHDXFile :=
  s.setEntry block { s.bat_buf block with State := state }

/-- The entry is marked as present before its place is known to exist. -/
def reserve (block : Nat) : VHDXFile :=
  { s.setState block .FULLY_PRESENT with next_payload_pos := s.next_payload_pos + block_size }

def makeRoom (new_pos : Nat) : Bool × VHDXFile :=
  if new_pos > s.fileSize then s.resize resizeOk (new_pos + block_size + allocate_size_add_size) else (true, s)

def assign (block new_pos : Nat) : VHDXFile :=
  { s.setEntry block ⟨.FULLY_PRESENT, new_pos / (1024 * 1024)⟩ with
    pending_bat_entries := insertPending block s.pending_bat_entries }

def allocateBatBlockFull (block : Nat) : Bool × VHDXFile :=
  let new_pos := s.next_payload_pos
  match (s.reserve block).makeRoom resizeOk new_pos with
  | (false, s) => (false, s)
  | (true, s) => (true, s.assign block new_pos)

/-- The buffer of a sector bitmap is kept in memory. -/
def cacheBitmap (sector_block : Nat) (buf : Buffer) : VHDXFile :=
  { s with sector_bitmap_bufs := fun b => if b = sector_block then some buf else s.sector_bitmap_bufs b }

def getSectorBitmap (sector_block : Nat) (FileOffsetMB : Nat) : Option Buffer × VHDXFile :=
  match s.sector_bitmap_bufs sector_block with
  | some buf => (some buf, s)
  | none =>
    let pos := FileOffsetMB * 1024 * 1024
    if pos + block_size ≤ s.fileSize then
      let buf : Buffer := fun i => s.content.data (pos + i)
      (some buf, s.cacheBitmap sector_block buf)
    else (none, s)

def addZeroBitmap (sector_block : Nat) : Buffer :=
  match s.sector_bitmap_bufs sector_block with
  | some buf => buf
  | none => fun _ => 0

/-- `none` on an error. -/
def isSectorSet (spos : Nat) : Call (Option Bool) × VHDXFile :=
  let sector_block := getSectorBitmapEntry spos block_size sector_size
  if s.hasEntry sector_block then
    let sector_bat_entry := s.bat_buf sector_block
    if sector_bat_entry.State ≠ .FULLY_PRESENT then (.returns none, s)
    else
      match s.getSectorBitmap sector_block sector_bat_entry.FileOffsetMB with
      | (some buf, s) => (.returns (some (isSectorSetInt buf spos)), s)
      | (none, s) => (.returns none, s)
  else (.undefined, s)

/-- The bits are set in the buffer, which is written later. -/
def putSectors (sector_block start stop : Nat) (buf : Buffer) : VHDXFile :=
  { s.cacheBitmap sector_block (setSectorInt buf start stop) with
    pending_sector_bitmaps := insertPending sector_block s.pending_sector_bitmaps }

def setSector (start stop : Nat) : Call Bool × VHDXFile :=
  let sector_block := getSectorBitmapEntry start block_size sector_size
  if s.hasEntry sector_block then
    let sector_bat_entry := s.bat_buf sector_block
    match sector_bat_entry.State with
    | .NOT_PRESENT =>
      match s.allocateBatBlockFull resizeOk sector_block with
      | (false, s) => (.returns false, s)
      | (true, s) => (.returns true, s.putSectors sector_block start stop (s.addZeroBitmap sector_block))
    | .FULLY_PRESENT =>
      match s.getSectorBitmap sector_block sector_bat_entry.FileOffsetMB with
      | (some buf, s) => (.returns true, s.putSectors sector_block start stop buf)
      | (none, s) => (.returns false, s)
    | _ => (.returns false, s)
  else (.undefined, s)

/-- A block that has only the sectors of `[start, stop)`. -/
def allocatePartially (block start stop : Nat) : Call Bool × VHDXFile :=
  match s.allocateBatBlockFull resizeOk block with
  | (false, s) => (.returns false, s)
  | (true, s) => (s.setState block .PARTIALLY_PRESENT).setSector resizeOk start stop

end Bat

section Write

variable (resizeOk : Nat → Bool)

/-- The block is made ready for a write to `[spos, stop)`. -/
def prepareWrite (block spos stop : Nat) (s : VHDXFile) : Call Bool × VHDXFile :=
  match (s.bat_buf block).State, s.parent with
  | .FULLY_PRESENT, _ => (.returns true, s)
  | .PARTIALLY_PRESENT, none => (.returns false, s)
  | .reserved, _ => (.returns false, s)
  | _, none =>
    match s.allocateBatBlockFull resizeOk block with
    | (ok, s) => (.returns ok, s)
  | .PARTIALLY_PRESENT, some _ => s.setSector resizeOk spos stop
  | _, some _ => s.allocatePartially resizeOk block spos stop

/-- How much was written, and whether an error stopped the rest. -/
def writeBlocks : Nat → Nat → Bytes → Nat → VHDXFile → Call (Nat × Bool) × VHDXFile
  | 0, _, _, written, s => (.returns (written, false), s)
  | fuel + 1, spos, buffer, written, s =>
    if buffer = [] then (.returns (written, false), s)
    else
      let block := getBatEntry spos block_size sector_size
      if s.hasEntry block then
        let towrite := min (block_size - spos % block_size) buffer.length
        match s.prepareWrite resizeOk block spos (spos + towrite) with
        | (.returns true, s) =>
          let pos := (s.bat_buf block).fileOffset + spos % block_size
          let s := s.fileWrite (.data pos towrite fun i => buffer.getD i 0)
          writeBlocks fuel (spos + towrite) (buffer.drop towrite) (written + towrite) s
        | (.returns false, s) => (.returns (written, true), s)
        | (.hangs, s) => (.hangs, s)
        | (.undefined, s) => (.undefined, s)
      else (.undefined, s)

/-- The first write after an image was opened gives it a new `DataWriteGuid`. -/
def updateDataWriteGuid (s : VHDXFile) : VHDXFile :=
  if s.data_write_uuid_updated then s
  else if s.fast_mode then { s with data_write_uuid_updated := true }
  else { s with data_write_uuid_updated := true }.updateHeader

def Write (s : VHDXFile) (spos : Nat) (buffer : Bytes) : Call (Nat × Bool) × VHDXFile :=
  if spos > s.dst_size then (.returns (0, true), s)
  else
    let buffer := if spos + buffer.length ≥ s.dst_size then buffer.take (s.dst_size - spos) else buffer
    writeBlocks resizeOk (buffer.length + 1) spos buffer 0 s.updateDataWriteGuid

end Write

section Unused

variable (resizeOk : Nat → Bool)

/-- What `n` bytes of the parent from `pos` on are copied to. -/
def copyParent (block pos n : Nat) (s : VHDXFile) : Call Bool × VHDXFile :=
  match s.parent with
  | none => (.undefined, s)
  | some p =>
    if p.readable pos n ≠ n then (.returns false, s)
    else
      let s := s.fileWrite (.data ((s.bat_buf block).fileOffset + pos % block_size) n fun i => p.data (pos + i))
      (.returns true, s)

/-- A sector that was not in the file before, or an error. -/
def newSector : Call Bool × VHDXFile → Call (Option Bool) × VHDXFile
  | (.returns set, s) => (.returns (if set then some true else none), s)
  | (.hangs, s) => (.hangs, s)
  | (.undefined, s) => (.undefined, s)

/-- The block is made ready for zeros in the sector of `unused_start`. The answer
is whether the sector was not in the file before. -/
def unuseSector (block unused_start wantwrite : Nat) (s : VHDXFile) : Call (Option Bool) × VHDXFile :=
  match (s.bat_buf block).State with
  | .PARTIALLY_PRESENT =>
    match s.isSectorSet unused_start with
    | (.returns (some false), s) =>
      newSector (s.setSector resizeOk unused_start (unused_start + sector_size))
    | (.returns (some true), s) =>
      let pos := (s.bat_buf block).fileOffset + unused_start % block_size
      (.returns (some false), s.fileWrite (.data pos wantwrite fun _ => 0))
    | out => out
  | .UNDEFINED | .UNMAPPED | .NOT_PRESENT =>
    newSector (s.allocatePartially resizeOk block unused_start (unused_start + sector_size))
  | .ZERO => (.hangs, s)
  | _ => (.returns none, s)

/-- The parts of the sector outside of the discarded range are copied from the
parent. `unused_start` is already behind the discarded part. -/
def copyPrev (block curr_sector_size wantwrite unused_start unused_end : Nat) (s : VHDXFile) : Call Bool × VHDXFile :=
  let before :=
    if curr_sector_size < sector_size ∧ s.parent.isSome then
      s.copyParent block (unused_start / sector_size * sector_size) (sector_size - curr_sector_size)
    else (.returns true, s)
  match before with
  | (.returns true, s) =>
    if unused_start + wantwrite = unused_end ∧ unused_end % sector_size ≠ 0 then
      s.copyParent block unused_end (sector_size - unused_end % sector_size)
    else (.returns true, s)
  | out => out

/-- The discarded part of the sector of `unused_start`. -/
def unusePart (block unused_start unused_end : Nat) (s : VHDXFile) : Call Bool × VHDXFile :=
  let curr_sector_size := sector_size - unused_start % sector_size
  let wantwrite := min curr_sector_size (unused_end - unused_start)
  match s.unuseSector resizeOk block unused_start wantwrite with
  | (.returns none, s) => (.returns false, s)
  | (.returns (some true), s) => s.copyPrev block curr_sector_size wantwrite (unused_start + wantwrite) unused_end
  | (.returns (some false), s) => (.returns true, s)
  | (.hangs, s) => (.hangs, s)
  | (.undefined, s) => (.undefined, s)

def unuseBlocks : Nat → Nat → Nat → VHDXFile → Call Bool × VHDXFile
  | 0, _, _, s => (.returns true, s)
  | fuel + 1, unused_start, unused_end, s =>
    if unused_start ≥ unused_end then (.returns true, s)
    else
      let block := getBatEntry unused_start block_size sector_size
      if s.hasEntry block then
        if unused_start % block_size = 0 ∧ unused_start + block_size ≤ unused_end then
          unuseBlocks fuel (unused_start + block_size) unused_end (s.setState block .ZERO)
        else
          let wantwrite := min (sector_size - unused_start % sector_size) (unused_end - unused_start)
          match s.unusePart resizeOk block unused_start unused_end with
          | (.returns true, s) => unuseBlocks fuel (unused_start + wantwrite) unused_end s
          | out => out
      else (.undefined, s)

def setUnused (s : VHDXFile) (unused_start unused_end : Nat) : Call Bool × VHDXFile :=
  if unused_end > s.dst_size then (.returns false, s)
  else unuseBlocks resizeOk (unused_end - unused_start + 1) unused_start unused_end s

end Unused

section Read

/-- `n` bytes of a buffer from `pos` on. -/
def bytesAt (buf : Buffer) (pos n : Nat) : Bytes :=
  (List.range n).map fun i => buf (pos + i)

/-- How many bytes the next round of `Read` is after. -/
def roundSize (spos bsize : Nat) (s : VHDXFile) : Nat :=
  match (s.bat_buf (getBatEntry spos block_size sector_size)).State, s.parent with
  | .PARTIALLY_PRESENT, some _ => min (sector_size - spos % sector_size) bsize
  | _, _ => min (block_size - spos % block_size) bsize

/-- What is there of `toread` bytes of the file at `pos`, and whether some are
missing. -/
def fileRead (pos toread : Nat) (s : VHDXFile) : Bytes × Bool :=
  let rc := min toread (s.fileSize - pos)
  (bytesAt s.content.data pos rc, rc < toread)

def parentRead (p : ParentImage) (pos toread : Nat) : Bytes × Bool :=
  let rc := p.readable pos toread
  (bytesAt p.data pos rc, rc < toread)

/-- The bytes of one round, and whether there was an error. -/
def readRound (spos toread : Nat) (s : VHDXFile) : Call (Bytes × Bool) × VHDXFile :=
  let block := getBatEntry spos block_size sector_size
  if s.hasEntry block then
    let bat_entry := s.bat_buf block
    let stored := s.fileRead (bat_entry.fileOffset + spos % block_size) toread
    match bat_entry.State, s.parent with
    | .FULLY_PRESENT, _ => (.returns stored, s)
    | .PARTIALLY_PRESENT, none => (.returns ([], true), s)
    | .PARTIALLY_PRESENT, some p =>
      match s.isSectorSet spos with
      | (.returns none, s) => (.returns ([], true), s)
      | (.returns (some true), s) => (.returns stored, s)
      | (.returns (some false), s) => (.returns (parentRead p spos toread), s)
      | (.hangs, s) => (.hangs, s)
      | (.undefined, s) => (.undefined, s)
    | .NOT_PRESENT, some p => (.returns (parentRead p spos toread), s)
    | .reserved, _ => (.returns ([], true), s)
    | _, _ => (.returns (List.replicate toread 0, false), s)
  else (.undefined, s)

/-- The bytes read before an error or the end, and whether there was an error. -/
def readBlocks : Nat → Nat → Nat → VHDXFile → Call (Bytes × Bool) × VHDXFile
  | 0, _, _, s => (.returns ([], false), s)
  | fuel + 1, spos, bsize, s =>
    if bsize = 0 then (.returns ([], false), s)
    else
      let toread := s.roundSize spos bsize
      match s.readRound spos toread with
      | (.returns (bytes, false), s) =>
        match readBlocks fuel (spos + toread) (bsize - toread) s with
        | (.returns (rest, has_error), s) => (.returns (bytes ++ rest, has_error), s)
        | out => out
      | out => out

def Read (s : VHDXFile) (spos bsize : Nat) : Call (Bytes × Bool) × VHDXFile :=
  if spos > s.dst_size then (.returns ([], true), s)
  else
    let bsize := if spos + bsize ≥ s.dst_size then s.dst_size - spos else bsize
    readBlocks (bsize + 1) spos bsize s

end Read

section Sync

def startLog (s : VHDXFile) : VHDXFile :=
  match s.curr_header.LogGuid with
  | some _ => s
  | none =>
    { s with
      curr_header := { s.curr_header with LogGuid := some s.guids }
      guids := s.guids + 1
      log_pos := 0
      log_start_pos := 0 }.updateHeader

def logEntry (sector : Nat) (s : VHDXFile) : LogEntry where
  LogGuid := s.curr_header.LogGuid.getD 0
  SequenceNumber := s.log_sequence_num
  Tail := s.log_start_pos
  FlushedFileOffset := s.flushed_vhdx_size
  LastFileOffset := s.flushed_vhdx_size
  sector := sector
  entries := s.bat_buf

def appendLog (sector : Nat) (s : VHDXFile) : VHDXFile :=
  { s.fileWrite (.log s.log_pos (s.logEntry sector)) with
    log_sequence_num := s.log_sequence_num + 1
    log_pos := s.log_pos + 2 * log_sector_size }

/-- `false` where the log has no room for another entry. -/
@[irreducible] def logWrite (sector : Nat) (s : VHDXFile) : Bool × VHDXFile :=
  let s := s.startLog
  if s.log_pos + 2 * log_sector_size > LogLength then (false, s)
  else (true, s.appendLog sector)

/-- The sectors of the pending entries are logged until the log is full. The
answer is the first entry whose sector is not. -/
def logPending : Option Nat → List Nat → VHDXFile → Option Nat × VHDXFile
  | _, [], s => (none, s)
  | b_idx, entry_idx :: rest, s =>
    let c_b_idx := entry_idx * 8 / log_sector_size
    if b_idx = some c_b_idx then logPending b_idx rest s
    else
      match s.logWrite c_b_idx with
      | (true, s) => logPending (some c_b_idx) rest s
      | (false, s) => (some entry_idx, s)

/-- The sectors of the pending entries before `stop_idx` are written. -/
def writePending (stop_idx : Option Nat) : Option Nat → List Nat → VHDXFile → VHDXFile
  | _, [], s => { s with pending_bat_entries := [] }
  | b_idx, entry_idx :: rest, s =>
    if stop_idx = some entry_idx then { s with pending_bat_entries := entry_idx :: rest }
    else
      let c_b_idx := entry_idx * 8 / log_sector_size
      if b_idx = some c_b_idx then writePending stop_idx b_idx rest s
      else writePending stop_idx (some c_b_idx) rest (s.fileWrite (.bat c_b_idx s.bat_buf))

def syncBitmaps : List Nat → VHDXFile → Bool × VHDXFile
  | [], s => (true, { s with pending_sector_bitmaps := [] })
  | sector_block :: rest, s =>
    let sector_bat_entry := s.bat_buf sector_block
    if sector_bat_entry.State ≠ .FULLY_PRESENT then (false, s)
    else
      match s.sector_bitmap_bufs sector_block with
      | none => (false, s)
      | some buf => syncBitmaps rest (s.fileWrite (.data sector_bat_entry.fileOffset block_size buf))

def flushSize (s : VHDXFile) : VHDXFile :=
  if s.flushed_vhdx_size ≠ s.fileSize then { s.fileSync with flushed_vhdx_size := s.fileSize } else s

/-- A round that finds the log full leaves it so, and the rounds after it come no
further. -/
def syncBat (s : VHDXFile) : Call Bool × VHDXFile :=
  if s.fast_mode then
    (.returns true, (s.writePending none none s.pending_bat_entries).fileSync)
  else
    let s := s.flushSize
    match s.logPending none s.pending_bat_entries with
    | (stop_idx, s) =>
      let s := s.fileSync.writePending stop_idx none s.pending_bat_entries
      if stop_idx.isSome then (.hangs, s) else (.returns true, s)

def endLog (s : VHDXFile) : VHDXFile :=
  { s with curr_header := { s.curr_header with LogGuid := none } }.updateHeader

def syncInt (full : Bool) (s : VHDXFile) : Call Bool × VHDXFile :=
  match s.syncBitmaps s.pending_sector_bitmaps with
  | (false, s) => (.returns false, s)
  | (true, s) =>
    match s.syncBat with
    | (.returns true, s) =>
      if full && !s.fast_mode then
        (.returns true, s.fileSync.endLog)
      else (.returns true, s)
    | out => out

def Sync (s : VHDXFile) : Call Bool × VHDXFile :=
  s.syncInt false

/-- Only the first call does anything, and no call reports an error. -/
def finish (s : VHDXFile) : Call Bool × VHDXFile :=
  if s.finished then (.returns true, s)
  else
    match { s with finished := true }.syncInt true with
    | (.returns _, s) => (.returns true, s)
    | out => out

end Sync

section Open

/-- The new image, unless its file could not be given its first size. -/
def createNew (resizeOk : Nat → Bool) (dst_size : Nat) (parent : Option ParentImage) (fast_mode : Bool) :
    Option VHDXFile :=
  let bat_length := getBatLength dst_size block_size sector_size
  if resizeOk 0 then
    some
      { dst_size := dst_size
        parent := parent
        fast_mode := fast_mode
        created_size := bat_table_offset + bat_length + allocate_size_add_size
        events := []
        resizes := 1
        guids := 0
        curr_header := ⟨1, none⟩
        curr_header_second := false
        bat_length := bat_length
        bat_buf := fun _ => VhdxBatEntry.zero
        pending_bat_entries := []
        next_payload_pos := bat_table_offset + bat_length
        -- not initialised: some value that is not the size of the file
        flushed_vhdx_size := 0
        data_write_uuid_updated := true
        log_pos := 0
        log_start_pos := 0
        log_sequence_num := 1
        finished := false
        sector_bitmap_bufs := fun _ => none
        pending_sector_bitmaps := [] }
  else none

/-- The newer header, and whether the second one is the next to be written. -/
def readHeader (c : Content) : VhdxHeader × Bool :=
  if c.header2.SequenceNumber > c.header1.SequenceNumber then (c.header2, false) else (c.header1, true)

/-- Entries of other logs do not count. -/
def readLogEntry (c : Content) (log_guid off : Nat) : Option LogEntry :=
  match c.log off with
  | some e => if e.LogGuid = log_guid then some e else none
  | none => none

/-- The positions of the entries, and the last sequence number, zero where there
is none. -/
structure LogSequence where
  entries : List Nat
  max_sequence : Nat

def validateSequence (c : Content) (log_guid : Nat) (seq : LogSequence) : LogSequence :=
  match seq.entries.head?, seq.entries.getLast? with
  | some first, some last =>
    match readLogEntry c log_guid last with
    | some head => if head.Tail ≠ first then { seq with entries := [] } else seq
    | none => { seq with entries := [] }
  | _, _ => seq

/-- The sequence that starts at `off`, and where to look for the next one. -/
def findSequence (c : Content) (log_guid : Nat) : Nat → Nat → Nat → LogSequence → Option (LogSequence × Nat)
  | 0, _, _, _ => none
  | fuel + 1, off, expected_seq, seq =>
    match readLogEntry c log_guid off with
    | none => some (validateSequence c log_guid seq, off + 4096)
    | some loge =>
      if expected_seq ≠ 0 ∧ expected_seq ≠ loge.SequenceNumber then some (validateSequence c log_guid seq, off)
      else
        findSequence c log_guid fuel ((off + 2 * log_sector_size) % LogLength) (loge.SequenceNumber + 1)
          ⟨seq.entries ++ [off], loge.SequenceNumber⟩

/-- `none` where the search does not end. -/
def findLogSequence (c : Content) (log_guid : Nat) : Nat → Nat → LogSequence → Option LogSequence
  | 0, _, _ => none
  | fuel + 1, log_pos, max_seq =>
    if log_pos < LogLength then
      match findSequence c log_guid (LogLength / log_sector_size) log_pos 0 ⟨[], 0⟩ with
      | none => none
      | some (seq, log_pos) =>
        findLogSequence c log_guid fuel log_pos (if seq.max_sequence > max_seq.max_sequence then seq else max_seq)
    else some max_seq

def replayEntry (loge : LogEntry) (s : VHDXFile) : VHDXFile :=
  { s.fileWrite (.bat loge.sector loge.entries) with log_sequence_num := loge.SequenceNumber + 1 }

/-- The entries are written to the BAT of the file. -/
def replayEntries (log_guid : Nat) : List Nat → VHDXFile → Bool × VHDXFile
  | [], s => (true, s)
  | pos :: entries, s =>
    match readLogEntry s.content log_guid pos with
    | none => (false, s)
    | some loge =>
      if s.fileSize < loge.FlushedFileOffset then (false, s)
      else
        replayEntries log_guid entries (s.replayEntry loge)

def endReplay (resizeOk : Nat → Bool) (head_entry : LogEntry) (s : VHDXFile) : VHDXFile :=
  if s.fileSize < head_entry.LastFileOffset then
    match s.resize resizeOk head_entry.LastFileOffset with
    | (true, s) => { s.fileSync with flushed_vhdx_size := head_entry.LastFileOffset }.endLog
    | (false, s) => s.fileSync.endLog
  else s.fileSync.endLog

def replayLog (resizeOk : Nat → Bool) (log_guid : Nat) (s : VHDXFile) : Call Bool × VHDXFile :=
  match findLogSequence s.content log_guid (LogLength / log_sector_size + 1) 0 ⟨[], 0⟩ with
  | none => (.hangs, s)
  | some seq =>
    if seq.max_sequence = 0 then (.returns false, s)
    else
      match seq.entries.getLast? with
      | none => (.returns false, s)
      | some last =>
        match readLogEntry s.content log_guid last with
        | none => (.returns false, s)
        | some head_entry =>
          if s.fileSize < head_entry.FlushedFileOffset then (.returns false, s)
          else
            match s.replayEntries log_guid seq.entries with
            | (false, s) => (.returns false, s)
            | (true, s) => (.returns true, s.endReplay resizeOk head_entry)

def replayIfLogged (resizeOk : Nat → Bool) (s : VHDXFile) : Call Bool × VHDXFile :=
  match s.curr_header.LogGuid with
  | none => (.returns true, s)
  | some log_guid => s.replayLog resizeOk log_guid

/-- The end of the areas in front of the blocks and of all blocks with an entry
among the scanned ones. -/
def calcNextPayloadPos (s : VHDXFile) : Nat :=
  let next_pos := max (1 * 1024 * 1024) (bat_table_offset + s.bat_length)
  let next_pos := max next_pos (LogOffset + LogLength)
  let next_pos := max next_pos (meta_region_offset + 1 * 1024 * 1024)
  (List.range (getBatEntries s.dst_size block_size sector_size)).foldl
    (fun next_pos i => max next_pos ((s.bat_buf i).fileOffset + block_size)) next_pos

/-- What is read from a file before the log is looked at. -/
def readFile (s : VHDXFile) : VHDXFile :=
  { s with
    curr_header := (readHeader s.content).1
    curr_header_second := (readHeader s.content).2
    bat_buf := s.content.bat
    pending_bat_entries := []
    data_write_uuid_updated := false
    log_sequence_num := 1
    finished := false
    sector_bitmap_bufs := fun _ => none
    pending_sector_bitmaps := [] }

def continueFile (s : VHDXFile) : VHDXFile :=
  { s with next_payload_pos := s.calcNextPayloadPos, flushed_vhdx_size := s.fileSize }

/-- The image of a file that was closed. The BAT is read before the log is
replayed. -/
def openImage (resizeOk : Nat → Bool) (s : VHDXFile) : Call Bool × VHDXFile :=
  let s := s.readFile
  if s.fileSize < bat_table_offset + s.bat_length then (.returns false, s)
  else if (s.parent.map ParentImage.isLocatorPlausible).getD true = false then (.returns false, s)
  else
    match s.replayIfLogged resizeOk with
    | (.returns true, s) =>
      if getBatEntries s.dst_size block_size sector_size * 8 ≤ s.bat_length then
        let s := s.continueFile
        (.returns true, if s.fast_mode then s else s.updateHeader)
      else (.undefined, s)
    | out => out

/-- The destructor finishes the image. -/
def reopen (resizeOk : Nat → Bool) (s : VHDXFile) : Call Bool × VHDXFile :=
  match s.finish with
  | (.returns _, s) => s.openImage resizeOk
  | out => out

end Open

section Run

inductive Op where
  | Write (spos : Nat) (buffer : Bytes)
  | setUnused (unused_start unused_end : Nat)
  | Read (spos bsize : Nat)
  | Sync
  | finish
  | reopen

/-- Whether the image is still open after a call that returned. -/
def open_after {α : Type} (stays : α → Bool) : Call α × VHDXFile → Call Bool × VHDXFile
  | (.returns a, s) => (.returns (stays a), s)
  | (.hangs, s) => (.hangs, s)
  | (.undefined, s) => (.undefined, s)

def apply (resizeOk : Nat → Bool) (s : VHDXFile) : Op → Call Bool × VHDXFile
  | .Write spos buffer => open_after (fun _ => true) (s.Write resizeOk spos buffer)
  | .setUnused unused_start unused_end => open_after (fun _ => true) (s.setUnused resizeOk unused_start unused_end)
  | .Read spos bsize => open_after (fun _ => true) (s.Read spos bsize)
  | .Sync => open_after (fun _ => true) s.Sync
  | .finish => open_after (fun _ => true) s.finish
  | .reopen => s.reopen resizeOk

/-- The calls are made while the image is open and they return. -/
def applyAll (resizeOk : Nat → Bool) : List Op → VHDXFile → Call Bool × VHDXFile
  | [], s => (.returns true, s)
  | op :: ops, s =>
    match s.apply resizeOk op with
    | (.returns true, s) => applyAll resizeOk ops s
    | out => out

end Run

end VHDXFile

end urbackup.vhdxfile
