import UrBackup.FileList.StringTools
import UrBackup.FileData.Crc32c
import UrBackup.FileData.LittleEndian
import UrBackup.FileData.Slices

namespace urbackup.vhdxheader

open stringtools filedata

structure VhdxGUID where
  bytes : Bytes
  size : bytes.length = 16

/-- The bytes of a header. Its fields are `Signature`, `Checksum`, `SequenceNumber`,
the three GUIDs, `LogVersion`, `Version`, `LogLength`, `LogOffset` and `Reserved`. -/
structure VhdxHeader where
  bytes : Bytes
  size : bytes.length = 4096
  deriving DecidableEq

namespace VhdxHeader

variable (h : VhdxHeader)

def Checksum : Nat :=
  leValue (slice h.bytes 4 4)

def SequenceNumber : Nat :=
  leValue (slice h.bytes 8 8)

def LogGuid : Bytes :=
  slice h.bytes 48 16

def LogLength : Nat :=
  leValue (slice h.bytes 68 4)

def LogOffset : Nat :=
  leValue (slice h.bytes 72 8)

/-- A field of the header is set. -/
def put (p : Nat) (value : Bytes) (hfits : p + value.length ≤ 4096) : VhdxHeader :=
  ⟨overwrite 0 h.bytes p value, by rw [length_overwrite _ (h.size.symm ▸ hfits), h.size]⟩

def zero : VhdxHeader :=
  ⟨List.replicate 4096 0, List.length_replicate⟩

def setChecksum (checksum : UInt32) : VhdxHeader :=
  h.put 4 (leBytes 4 checksum.toNat) (by simp)

def setSequenceNumber (sequence_number : UInt64) : VhdxHeader :=
  h.put 8 (leBytes 8 sequence_number.toNat) (by simp)

def setLogGuid (g : VhdxGUID) : VhdxHeader :=
  h.put 48 g.bytes (by rw [g.size]; omega)

end VhdxHeader

/-- The GUIDs of a header, which the image changes between two updates. -/
structure Guids where
  FileWriteGuid : VhdxGUID
  DataWriteGuid : VhdxGUID
  LogGuid : VhdxGUID

def Guids.bytes (g : Guids) : Bytes :=
  g.FileWriteGuid.bytes ++ g.DataWriteGuid.bytes ++ g.LogGuid.bytes

@[simp] theorem Guids.length_bytes (g : Guids) : g.bytes.length = 48 := by
  simp only [bytes, List.length_append, VhdxGUID.size]

def VhdxHeader.setGuids (h : VhdxHeader) (g : Guids) : VhdxHeader :=
  h.put 16 g.bytes (by simp)

/-- "head" -/
def head_ident : Bytes := [104, 101, 97, 100]

/-- "vhdxfile" -/
def file_ident : Bytes := [118, 104, 100, 120, 102, 105, 108, 101]

/-- The checksum is made with the field of the checksum set to zero. -/
def checkHeader (header : VhdxHeader) : Bool :=
  slice header.bytes 0 4 = head_ident ∧ (crc32c (header.setChecksum 0).bytes).toNat = header.Checksum

def readSlot (file : Bytes) (pos : Nat) : Option VhdxHeader :=
  if h : (slice file pos 4096).length = 4096 then some ⟨slice file pos 4096, h⟩ else none

/-- The header and where the next one is written, if there is a valid one. -/
def readHeader (file : Bytes) : Option (VhdxHeader × Nat) :=
  if slice file 0 8 ≠ file_ident then none
  else
    match readSlot file (64 * 1024), readSlot file (128 * 1024) with
    | some header1, some header2 =>
      let sel_header := if checkHeader header1 then some (header1, 128 * 1024) else none
      if checkHeader header2 ∧ header2.SequenceNumber > header1.SequenceNumber then some (header2, 64 * 1024)
      else sel_header
    | _, _ => none

/-- The file of an image with the header in memory. -/
structure HeaderFile where
  file : Bytes
  curr_header : VhdxHeader
  curr_header_pos : Nat

namespace HeaderFile

variable (v : HeaderFile)

/-- The header that is written next. -/
def nextHeader : VhdxHeader :=
  let header := v.curr_header.setSequenceNumber (UInt64.ofNat (v.curr_header.SequenceNumber + 1))
  (header.setChecksum 0).setChecksum (crc32c (header.setChecksum 0).bytes)

def updateHeader : HeaderFile where
  file := overwrite 0 v.file v.curr_header_pos v.nextHeader.bytes
  curr_header := v.nextHeader
  curr_header_pos := if v.curr_header_pos = 64 * 1024 then 128 * 1024 else 64 * 1024

def setGuids (g : Guids) : HeaderFile :=
  { v with curr_header := v.curr_header.setGuids g }

/-- The file where `updateHeader` was interrupted after it wrote `k` bytes. -/
def tornFile (g : Guids) (k : Nat) : Bytes :=
  overwrite 0 v.file v.curr_header_pos ((v.setGuids g).nextHeader.bytes.take k)

/-- The headers are updated one after the other, each with its GUIDs. -/
def updates (gs : List Guids) : HeaderFile :=
  gs.foldl (fun v g => (v.setGuids g).updateHeader) v

end HeaderFile

/-- "UrBackup vhdx file" as UTF-16 -/
def creator : Bytes :=
  [85, 114, 66, 97, 99, 107, 117, 112, 32, 118, 104, 100, 120, 32, 102, 105, 108, 101].flatMap fun c => [c, 0]

def getFileIdentifier : Bytes :=
  overwrite 0 (overwrite 0 (List.replicate 500 0) 0 file_ident) 8 creator

/-- The header of a new image, before its checksum is made. -/
def newFields (FileWriteGuid DataWriteGuid : VhdxGUID) : VhdxHeader :=
  let header := (VhdxHeader.zero.put 0 head_ident (by decide)).setSequenceNumber 1
  let header := header.setGuids ⟨FileWriteGuid, DataWriteGuid, ⟨List.replicate 16 0, List.length_replicate⟩⟩
  let header := header.put 66 (leBytes 2 1) (by simp)
  let header := header.put 72 (leBytes 8 (1 * 1024 * 1024)) (by simp)
  header.put 68 (leBytes 4 (1 * 1024 * 1024)) (by simp)

def newHeader (FileWriteGuid DataWriteGuid : VhdxGUID) : VhdxHeader :=
  let header := newFields FileWriteGuid DataWriteGuid
  header.setChecksum (crc32c header.bytes)

/-- The start of the file of a new image. -/
def createNew (FileWriteGuid DataWriteGuid : VhdxGUID) : HeaderFile :=
  let header := newHeader FileWriteGuid DataWriteGuid
  { file := overwrite 0 (overwrite 0 getFileIdentifier (64 * 1024) header.bytes) (128 * 1024) header.bytes
    curr_header := header
    curr_header_pos := 64 * 1024 }

end urbackup.vhdxheader
