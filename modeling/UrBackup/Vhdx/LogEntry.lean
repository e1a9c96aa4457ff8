import UrBackup.FileData.Fields
import UrBackup.Vhdx.Header

namespace urbackup.vhdxlog

open stringtools filedata vhdxheader

def log_sector_size : Nat := 4096

def roundUp (numToRound multiple : Nat) : Nat :=
  (numToRound + multiple - 1) / multiple * multiple

structure LogZeroDescriptor where
  ZeroLength : Int64
  FileOffset : Int64
  deriving DecidableEq

structure LogData where
  offset : Int64
  data : Bytes
  deriving DecidableEq

/-- The sequence number is -1 unless the entry is valid. -/
structure LogEntry where
  to_zero : List LogZeroDescriptor
  to_write : List LogData
  sequence_number : Int64
  length : Nat
  fsize : Int64
  new_fsize : Int64
  tail_pos : Nat
  deriving DecidableEq

/-- An entry of which nothing was read yet. -/
def LogEntry.unread : LogEntry :=
  ⟨[], [], -1, 0, 0, 0, 0⟩

/-- "loge" -/
def log_ident : Bytes := [108, 111, 103, 101]

/-- "zero" -/
def zero_ident : Bytes := [122, 101, 114, 111]

/-- "desc" -/
def desc_ident : Bytes := [100, 101, 115, 99]

/-- "data" -/
def data_ident : Bytes := [100, 97, 116, 97]

def int64Bytes (n : Int64) : Bytes :=
  leBytes 8 n.toUInt64.toNat

def getInt64 (buf : Bytes) (pos : Nat) : Int64 :=
  (UInt64.ofNat (leValue (slice buf pos 8))).toInt64

def HighPart (n : Int64) : Bytes :=
  leBytes 4 (n.toUInt64.toNat / 2 ^ 32)

def LowPart (n : Int64) : Bytes :=
  leBytes 4 (n.toUInt64.toNat % 2 ^ 32)

/-- The file of an image with the state of its log. -/
structure LogFile extends HeaderFile where
  log_pos : Nat
  log_start_pos : Nat
  log_sequence_num : Int64
  flushed_vhdx_size : Int64

section Write

variable (s : LogFile) (off : Int64) (buf : Bytes) (new_dst_size : Int64)

def headerFields (desc_count size : Nat) : List (Nat × Bytes) :=
  [(0, log_ident), (4, leBytes 4 0), (8, leBytes 4 size), (24, leBytes 4 desc_count), (12, leBytes 4 s.log_start_pos),
    (48, int64Bytes s.flushed_vhdx_size),
    (56, int64Bytes (if new_dst_size ≤ 0 then s.flushed_vhdx_size else new_dst_size)),
    (32, s.curr_header.LogGuid), (16, int64Bytes s.log_sequence_num)]

def descriptorFields (i : Nat) : List (Nat × Bytes) :=
  let pos := 64 + i * 32
  [(pos, desc_ident), (pos + 16, int64Bytes (off + Int64.ofNat (i * log_sector_size))),
    (pos + 8, slice buf (i * log_sector_size) 8),
    (pos + 4, slice buf (i * log_sector_size + (log_sector_size - 4)) 4), (pos + 24, int64Bytes s.log_sequence_num)]

/-- `i` is already the position of the sector in the buffer. -/
def sectorFields (i : Nat) : List (Nat × Bytes) :=
  let pos := log_sector_size + i * log_sector_size
  [(pos, data_ident), (pos + 4092, LowPart s.log_sequence_num), (pos + 4, HighPart s.log_sequence_num),
    (pos + 8, slice buf (i + 8) (log_sector_size - 8 - 4))]

/-- All that is put into the buffer of an entry, except for its checksum. -/
def entryFields (desc_count size : Nat) : List (Nat × Bytes) :=
  headerFields s new_dst_size desc_count size ++
    (List.range desc_count).flatMap (descriptorFields s off buf) ++
    (List.range desc_count).flatMap fun j => sectorFields s buf (j * log_sector_size)

/-- `none` where something is put outside of the buffer. -/
def logEntry (desc_count size : Nat) : Option Bytes :=
  match putAll 0 (List.replicate size 0) (entryFields s off buf new_dst_size desc_count size) with
  | none => none
  | some entry => put 0 entry (4, leBytes 4 (crc32c entry).toNat)

/-- An empty log gets a new GUID. -/
def LogFile.startLog (guid : VhdxGUID) : LogFile :=
  if s.curr_header.LogGuid = List.replicate 16 0 then
    { { s.toHeaderFile with curr_header := s.curr_header.setLogGuid guid }.updateHeader with
      log_pos := 0
      log_start_pos := 0
      log_sequence_num := s.log_sequence_num
      flushed_vhdx_size := s.flushed_vhdx_size }
  else s

/-- What is returned, and whether the log is full; `none` where the entry does not
fit into its buffer. -/
def logWrite (guid : VhdxGUID) : Option (Bool × Bool × LogFile) :=
  if buf.length > 126 * log_sector_size then some (false, false, s)
  else
    let s := s.startLog guid
    let desc_count := roundUp buf.length log_sector_size / log_sector_size
    let size := log_sector_size + roundUp buf.length log_sector_size
    if s.log_pos + size > s.curr_header.LogLength then some (false, true, s)
    else
      match logEntry s off buf new_dst_size desc_count size with
      | none => none
      | some entry =>
        some (true, false,
          { s with
            file := overwrite 0 s.file (s.curr_header.LogOffset + s.log_pos) entry
            log_pos := s.log_pos + size
            log_sequence_num := s.log_sequence_num + 1 })

end Write

section Read

/-- One descriptor; the answer is whether the entry goes on. Its data sector is
at `desc_off` for every descriptor. -/
def readDescriptor (entry_buf : Bytes) (entry_seq : Int64) (desc_off i : Nat) (loge : LogEntry) :
    Option (Bool × LogEntry) :=
  let pos := 64 + i * 32
  if pos + 32 > entry_buf.length then none
  else if slice entry_buf pos 4 = zero_ident then
    if entry_seq ≠ getInt64 entry_buf (pos + 24) then some (false, loge)
    else
      let zero_desc : LogZeroDescriptor := ⟨getInt64 entry_buf (pos + 8), getInt64 entry_buf (pos + 16)⟩
      some (true, { loge with to_zero := loge.to_zero ++ [zero_desc] })
  else if slice entry_buf pos 4 = desc_ident then
    if entry_seq ≠ getInt64 entry_buf (pos + 24) then some (false, loge)
    else if desc_off + log_sector_size > entry_buf.length then none
    else if slice entry_buf desc_off 4 ≠ data_ident then some (false, loge)
    else if slice entry_buf (desc_off + 4) 4 ≠ HighPart (getInt64 entry_buf (pos + 24)) then some (false, loge)
    else if slice entry_buf (desc_off + 4092) 4 ≠ LowPart (getInt64 entry_buf (pos + 24)) then some (false, loge)
    else
      let log_data : LogData :=
        ⟨getInt64 entry_buf (pos + 16),
          slice entry_buf (pos + 8) 8 ++ slice entry_buf (desc_off + 8) 4084 ++ slice entry_buf (pos + 4) 4⟩
      some (true, { loge with to_write := loge.to_write ++ [log_data] })
  else some (false, loge)

def readDescriptors (entry_buf : Bytes) (entry_seq : Int64) (desc_off : Nat) :
    List Nat → LogEntry → Option (Bool × LogEntry)
  | [], loge => some (true, loge)
  | i :: is, loge =>
    match readDescriptor entry_buf entry_seq desc_off i loge with
    | some (true, loge) => readDescriptors entry_buf entry_seq desc_off is loge
    | out => out

/-- The entry in its buffer, once its checksum holds. -/
def readEntryBuf (entry_buf : Bytes) (loge : LogEntry) : Option LogEntry :=
  if entry_buf.length < 64 then none
  else
    let entry_seq := getInt64 entry_buf 16
    let loge := { loge with
      fsize := getInt64 entry_buf 48
      new_fsize := getInt64 entry_buf 56
      tail_pos := leValue (slice entry_buf 12 4) }
    let DescriptorCount := leValue (slice entry_buf 24 4)
    let desc_off :=
      if DescriptorCount > 126 then
        4096 + (DescriptorCount - 126) / 128 * 4096 % 2 ^ 32 + if (DescriptorCount - 126) % 128 ≠ 0 then 4096 else 0
      else 4096
    match readDescriptors entry_buf entry_seq desc_off (List.range DescriptorCount) loge with
    | some (true, loge) => some { loge with sequence_number := entry_seq }
    | some (false, loge) => some loge
    | none => none

/-- `none` where something is read or written outside of a buffer. -/
def readLogEntry (file log_guid : Bytes) (off : Nat) : Option LogEntry :=
  let buf := slice file off 4096
  if buf.length ≠ 4096 ∨ slice buf 0 4 ≠ log_ident ∨ slice buf 32 16 ≠ log_guid then some .unread
  else
    let EntryLength := leValue (slice buf 8 4)
    let loge := { LogEntry.unread with length := EntryLength }
    let entry_buf := slice file off EntryLength
    if entry_buf.length ≠ EntryLength then some loge
    else
      match put 0 entry_buf (4, leBytes 4 0) with
      | none => none
      | some entry_buf =>
        if (crc32c entry_buf).toNat ≠ leValue (slice buf 4 4) then some loge else readEntryBuf entry_buf loge

end Read

end urbackup.vhdxlog
