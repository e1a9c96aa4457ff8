import UrBackup.FileList.StringTools
import UrBackup.FileData.LittleEndian
import UrBackup.FileData.Slices

namespace urbackup.vhdfile

open stringtools filedata

def def_dynamic_header_offset : Nat := 512

def def_bat_offset : Nat := 512 + 1024

def def_bat_offset_parent : Nat := 2 * 1024

def sector_size : Nat := 512

/-- The entry of a block that has no place in the file. -/
def unallocated : Nat := 0xFFFFFFFF

def beBytes (k n : Nat) : Bytes :=
  (leBytes k n).reverse

def beValue (bytes : Bytes) : Nat :=
  leValue bytes.reverse

/-- What the operations on the file do, by their number: a seek may fail, and a
write may be limited to some bytes. -/
structure Io where
  seek : Nat → Bool
  write : Nat → Option Nat

structure VHDParentLocator where
  platform_code : Nat
  platform_space : Nat
  platform_length : Nat
  platform_offset : Nat

structure VHDFile where
  read_only : Bool
  fast_mode : Bool
  compressed : Bool
  dstsize : Nat
  blocksize : Nat
  bat : List Nat
  bat_offset : Nat
  nextblock_offset : Nat
  parentlocator : List VHDParentLocator
  bitmap : Bytes
  bitmap_size : Nat
  currblock : Nat
  curr_offset : Nat
  bitmap_offset : Nat
  bitmap_dirty : Bool
  footer : Bytes
  file : Bytes
  filepos : Nat
  ops : Nat

/-- How a call ends: with a value, with an error, or by an access behind the end
of the table of blocks. -/
inductive Outcome (α : Type)
  | value (a : α)
  | failed
  | outOfRange

namespace VHDFile

section File

variable (io : Io) (s : VHDFile)

def fileSeek (pos : Nat) : Bool × VHDFile :=
  if io.seek s.ops then (true, { s with filepos := pos, ops := s.ops + 1 })
  else (false, { s with ops := s.ops + 1 })

/-- How much of a buffer is written. -/
def writable (buffer : Bytes) : Nat :=
  match io.write s.ops with
  | none => buffer.length
  | some limit => min limit buffer.length

def fileWrite (buffer : Bytes) : Nat × VHDFile :=
  let n := s.writable io buffer
  (n, { s with file := overwrite 0 s.file s.filepos (buffer.take n), filepos := s.filepos + n, ops := s.ops + 1 })

/-- A write with a position of its own. -/
def fileWriteAt (pos : Nat) (buffer : Bytes) : Nat × VHDFile :=
  let n := s.writable io buffer
  (n, { s with file := overwrite 0 s.file pos (buffer.take n), ops := s.ops + 1 })

def fileRead (n : Nat) : Bytes × VHDFile :=
  let bytes := slice s.file s.filepos n
  (bytes, { s with filepos := s.filepos + bytes.length })

end File

section Bitmap

variable (io : Io) (s : VHDFile)

def bitMask (offset : Nat) : UInt8 :=
  UInt8.ofNat (2 ^ (7 - offset / sector_size % 8))

def bitmapByte (offset : Nat) : UInt8 :=
  s.bitmap.getD (offset / sector_size / 8) 0

def isBitmapSet (offset : Nat) : Bool :=
  s.bitmapByte offset &&& bitMask offset ≠ 0

/-- Whether the bit was another one, too. Only used to set bits. -/
def setBitmapBit (offset : Nat) : Bool × VHDFile :=
  let changed := ¬ s.isBitmapSet offset
  (changed, { s with
    bitmap := s.bitmap.set (offset / sector_size / 8) (s.bitmapByte offset ||| bitMask offset)
    bitmap_dirty := s.bitmap_dirty || changed })

def switchBitmap (new_offset : Nat) : VHDFile :=
  let s := if s.fast_mode ∧ ¬ s.read_only ∧ s.bitmap_dirty ∧ s.bitmap_offset ≠ 0 then
      let s := (s.fileSeek io s.bitmap_offset).2
      (s.fileWrite io s.bitmap).2
    else s
  { s with bitmap_offset := new_offset, bitmap_dirty := false }

end Bitmap

section Layout

variable (io : Io) (s : VHDFile)

/-- The next sector, also behind the end of one. -/
def nextSector (offset : Nat) : Nat :=
  (offset + (sector_size - offset % sector_size)) % 2 ^ 64

/-- The place of a new block, and where the one after it goes. -/
def reserveBlock : Nat × VHDFile :=
  (s.nextblock_offset, { s with
    nextblock_offset := nextSector ((s.nextblock_offset + (s.blocksize + s.bitmap_size) % 2 ^ 32) % 2 ^ 64) })

def write_footer : Bool × VHDFile :=
  let (sought, s) := s.fileSeek io s.nextblock_offset
  if ¬ sought then (false, s)
  else
    let (rc, s) := s.fileWrite io s.footer
    if rc ≠ s.footer.length then (false, s)
    else if ¬ s.compressed ∧ s.file.length ≠ s.nextblock_offset + s.footer.length then
      let size := s.nextblock_offset + s.footer.length
      (true, { s with file := s.file.take size ++ List.replicate (size - s.file.length) 0 })
    else (true, s)

def write_bat : Bool × VHDFile :=
  let (sought, s) := s.fileSeek io s.bat_offset
  if ¬ sought then (false, s)
  else
    let (rc, s) := s.fileWrite io ((s.bat.flatMap (beBytes 4)).take (4 * s.bat.length % 2 ^ 32))
    (rc = 4 * s.bat.length, s)

end Layout

section Access

variable (io : Io) (s : VHDFile)

def Seek (offset : Int) : VHDFile :=
  { s with curr_offset := (offset % 2 ^ 64).toNat }

/-- The bytes of one step, at most those of a sector. -/
def wantBytes (blockoffset todo : Nat) (first : Bool) : Nat :=
  let want := min sector_size todo
  let want := if s.blocksize - blockoffset < want then s.blocksize - blockoffset else want
  if first ∧ blockoffset % sector_size ≠ 0 ∧ want > sector_size - blockoffset % sector_size then
    sector_size - blockoffset % sector_size
  else want

/-- The place of a block in the file, which it gets if it has none. `Write`
checks that it has a number, `setUnused` does not. -/
def placeBlock (checked : Bool) (block : Nat) : Outcome (Nat × Bool) × VHDFile :=
  match s.bat[block]? with
  | none => (.outOfRange, s)
  | some bat_ref =>
    if bat_ref = unallocated then
      let (dataoffset, s) := s.reserveBlock
      if checked ∧ dataoffset / sector_size ≥ unallocated then (.failed, s)
      else (.value (dataoffset, true), { s with bat := s.bat.set block (dataoffset / sector_size % 2 ^ 32) })
    else (.value (bat_ref * sector_size, false), s)

/-- The bitmap of a block becomes the current one. -/
def openBlock (block dataoffset : Nat) (new_block : Bool) : Bool × VHDFile :=
  if s.currblock = block then (true, s)
  else
    let s := s.switchBitmap io dataoffset
    let s := (s.fileSeek io dataoffset).2
    if new_block then
      let s := { s with bitmap := List.replicate s.bitmap_size 0 }
      let (rc, s) := s.fileWrite io s.bitmap
      if rc ≠ s.bitmap_size then (false, s) else (true, { s with currblock := block })
    else
      let (bytes, s) := s.fileRead s.bitmap_size
      (true, { s with bitmap := bytes ++ s.bitmap.drop bytes.length, currblock := block })

/-- The sectors of a block that are written. What is left of the buffer goes to
the next block. -/
def writeSectors : (fuel : Nat) → (s : VHDFile) → (buffer : Bytes) → (blockoffset : Nat) → (firstw : Bool) → Option Bytes × VHDFile
  | 0, s, buffer, _, _ => (some buffer, s)
  | fuel + 1, s, buffer, blockoffset, firstw =>
    if blockoffset < s.blocksize then
      let wantwrite := s.wantBytes blockoffset buffer.length firstw
      let s := (s.setBitmapBit blockoffset).2
      let (rc, s) := s.fileWrite io (buffer.take wantwrite)
      if rc ≠ wantwrite then (none, s)
      else if buffer.length - wantwrite = 0 ∨ s.blocksize - (blockoffset + wantwrite) = 0 then
        (some (buffer.drop wantwrite), s)
      else writeSectors fuel s (buffer.drop wantwrite) (blockoffset + wantwrite) false
    else (some buffer, s)

/-- The bitmap is written at once, unless the file is finished later. -/
def writeBitmap (dataoffset : Nat) : Bool × VHDFile :=
  if s.fast_mode then (true, s)
  else
    let s := (s.fileSeek io dataoffset).2
    let (rc, s) := s.fileWrite io s.bitmap
    (rc = s.bitmap_size, s)

/-- The blocks that are written. The result is whether there are new ones. -/
def writeBlocks : (fuel : Nat) → (s : VHDFile) → (buffer : Bytes) → (block blockoffset : Nat) → (firstw dwrite_footer : Bool) →
    Outcome Bool × VHDFile
  | 0, s, _, _, _, _, _ => (.failed, s)
  | fuel + 1, s, buffer, block, blockoffset, firstw, dwrite_footer =>
    match s.placeBlock true block with
    | (.outOfRange, s) => (.outOfRange, s)
    | (.failed, s) => (.failed, s)
    | (.value (dataoffset, new_block), s) =>
      let (opened, s) := s.openBlock io block dataoffset new_block
      if ¬ opened then (.failed, s)
      else
        let (sought, s) := s.fileSeek io (dataoffset + s.bitmap_size + blockoffset)
        if ¬ sought then (.failed, s)
        else
          match writeSectors io (buffer.length + 1) s buffer blockoffset firstw with
          | (none, s) => (.failed, s)
          | (some buffer, s) =>
            let (written, s) := s.writeBitmap io dataoffset
            if ¬ written then (.failed, s)
            else if buffer.length = 0 then (.value (dwrite_footer || new_block), s)
            else writeBlocks fuel s buffer (block + 1) 0 false (dwrite_footer || new_block)

/-- The footer and the table, when there are new blocks. -/
def writeTables (dwrite_footer : Bool) : Bool × VHDFile :=
  if dwrite_footer ∧ ¬ s.fast_mode then
    let (written, s) := s.write_footer io
    if ¬ written then (false, s) else s.write_bat io
  else (true, s)

/-- The number of bytes that were written, 0 after an error. -/
def Write (buffer : Bytes) : Outcome Nat × VHDFile :=
  if s.read_only then (.failed, s)
  else if (buffer.length + s.curr_offset) % 2 ^ 64 > s.dstsize then (.failed, s)
  else
    match writeBlocks io (buffer.length + 1) s buffer (s.curr_offset / s.blocksize) (s.curr_offset % s.blocksize) true false with
    | (.outOfRange, s) => (.outOfRange, s)
    | (.failed, s) => (.failed, s)
    | (.value dwrite_footer, s) =>
      let (written, s) := s.writeTables io dwrite_footer
      if ¬ written then (.failed, s)
      else (.value buffer.length, { s with curr_offset := (s.curr_offset + buffer.length) % 2 ^ 64 })

/-- The sectors of a block that are not used any more. Where something may be,
zeros are written. -/
def zeroSectors (dataoffset : Nat) : (fuel : Nat) → (s : VHDFile) → (towrite blockoffset : Nat) → (firstw : Bool) →
    Option Nat × VHDFile
  | 0, s, towrite, _, _ => (some towrite, s)
  | fuel + 1, s, towrite, blockoffset, firstw =>
    if blockoffset < s.blocksize then
      let wantwrite := s.wantBytes blockoffset towrite firstw
      let (changed, s) := s.setBitmapBit blockoffset
      let (rc, s) := if changed then (wantwrite, s)
        else s.fileWriteAt io (dataoffset + s.bitmap_size + blockoffset) (List.replicate wantwrite 0)
      if rc ≠ wantwrite then (none, s)
      else if towrite - wantwrite = 0 ∨ s.blocksize - (blockoffset + wantwrite) = 0 then (some (towrite - wantwrite), s)
      else zeroSectors dataoffset fuel s (towrite - wantwrite) (blockoffset + wantwrite) false
    else (some towrite, s)

def unuseBlocks : (fuel : Nat) → (s : VHDFile) → (towrite block blockoffset : Nat) → (firstw dwrite_footer : Bool) →
    Outcome Bool × VHDFile
  | 0, s, _, _, _, _, _ => (.failed, s)
  | fuel + 1, s, towrite, block, blockoffset, firstw, dwrite_footer =>
    match s.placeBlock false block with
    | (.outOfRange, s) => (.outOfRange, s)
    | (.failed, s) => (.failed, s)
    | (.value (dataoffset, new_block), s) =>
      let (opened, s) := s.openBlock io block dataoffset new_block
      if ¬ opened then (.failed, s)
      else
        match zeroSectors io dataoffset (towrite + 1) s towrite blockoffset firstw with
        | (none, s) => (.failed, s)
        | (some towrite, s) =>
          let (written, s) := s.writeBitmap io dataoffset
          if ¬ written then (.failed, s)
          else if towrite = 0 then (.value (dwrite_footer || new_block), s)
          else unuseBlocks fuel s towrite (block + 1) 0 false (dwrite_footer || new_block)

def setUnused (unused_start unused_end : Int) : Outcome Unit × VHDFile :=
  let s := s.Seek unused_start
  if s.read_only then (.failed, s)
  else if (unused_end % 2 ^ 64).toNat > s.dstsize then (.failed, s)
  else
    let towrite := ((unused_end - unused_start) % 2 ^ 64).toNat
    match unuseBlocks io (towrite + 1) s towrite (s.curr_offset / s.blocksize) (s.curr_offset % s.blocksize) true false with
    | (.outOfRange, s) => (.outOfRange, s)
    | (.failed, s) => (.failed, s)
    | (.value dwrite_footer, s) =>
      let (written, s) := s.writeTables io dwrite_footer
      (if written then .value () else .failed, s)

end Access

section Create

/-- Nothing fails. -/
def Io.ok : Io where
  seek := fun _ => true
  write := fun _ => none

def calculate_chs (dstsize : Nat) : Nat :=
  let totalSectors := min (dstsize / sector_size) (65535 * 16 * 255)
  let (cylinderTimesHeads, heads, sectorsPerTrack) :=
    if totalSectors ≥ 65535 * 16 * 63 then (totalSectors / 255, 16, 255)
    else
      let cylinderTimesHeads := totalSectors / 17
      let heads := max ((cylinderTimesHeads + 1023) / 1024 % 256) 4
      let (cylinderTimesHeads, heads, sectorsPerTrack) :=
        if cylinderTimesHeads ≥ heads * 1024 ∨ heads > 16 then (totalSectors / 31, 16, 31)
        else (cylinderTimesHeads, heads, 17)
      if cylinderTimesHeads ≥ heads * 1024 then (totalSectors / 63, 16, 63)
      else (cylinderTimesHeads, heads, sectorsPerTrack)
  cylinderTimesHeads / heads % 2 ^ 16 * 2 ^ 16 + heads * 2 ^ 8 + sectorsPerTrack

def calculate_checksum (data : Bytes) : Nat :=
  2 ^ 32 - 1 - (data.map UInt8.toNat).sum % 2 ^ 32

/-- What is random or depends on the time. -/
structure Ident where
  timestamp : Nat
  uid : Bytes

/-- `conectix` and the rest of a `VHDFooter`. -/
def footerBytes (dstsize disk_type checksum : Nat) (ident : Ident) : Bytes :=
  [99, 111, 110, 101, 99, 116, 105, 120] ++ beBytes 4 0x00000002 ++ beBytes 4 0x00010000 ++
    beBytes 8 def_dynamic_header_offset ++ beBytes 4 ident.timestamp ++ [118, 112, 99, 32] ++ beBytes 4 0x00050003 ++
    beBytes 4 0x5769326B ++ beBytes 8 dstsize ++ beBytes 8 dstsize ++ beBytes 4 (calculate_chs dstsize) ++
    beBytes 4 disk_type ++ beBytes 4 checksum ++ ident.uid ++ [0] ++ List.replicate 427 0

def footerOf (dstsize : Nat) (diff : Bool) (ident : Ident) : Bytes :=
  let disk_type := if diff then 4 else 3
  footerBytes dstsize disk_type (calculate_checksum (footerBytes dstsize disk_type 0 ident)) ident

/-- A parent and its names, in UTF-16. -/
structure ParentInfo where
  uid : Bytes
  timestamp : Nat
  unicodename : Bytes
  abs_unicodename : Bytes
  rel_unicodename : Bytes

def locatorBytes (locator : VHDParentLocator) : Bytes :=
  beBytes 4 locator.platform_code ++ beBytes 4 locator.platform_space ++ beBytes 4 locator.platform_length ++ beBytes 4 0 ++
    beBytes 8 locator.platform_offset

variable (s : VHDFile)

/-- `cxsparse` and the rest of a `VHDDynamicHeader`. -/
def dynamicheaderBytes (checksum : Nat) (parent_uid : Bytes) (parent_timestamp : Nat) (parent_unicodename : Bytes) : Bytes :=
  [99, 120, 115, 112, 97, 114, 115, 101] ++ List.replicate 8 255 ++ beBytes 8 s.bat_offset ++ beBytes 4 0x00010000 ++
    beBytes 4 s.bat.length ++ beBytes 4 s.blocksize ++ beBytes 4 checksum ++ parent_uid ++ beBytes 4 parent_timestamp ++
    beBytes 4 0 ++ (parent_unicodename ++ List.replicate 512 0).take 512 ++
    ((s.parentlocator.flatMap locatorBytes) ++ List.replicate 192 0).take 192 ++ List.replicate 256 0

def init_bitmap : VHDFile :=
  let size := s.blocksize / sector_size / 8
  let size := if s.blocksize % sector_size ≠ 0 ∨ s.blocksize / sector_size % 8 ≠ 0 then size + 1 else size
  let size := if size % sector_size ≠ 0 then size + (sector_size - size % sector_size) else size
  { s with bitmap_size := size, bitmap := List.replicate size 0 }

def locatorSectors (size : Nat) : Nat :=
  size / sector_size + if size % sector_size ≠ 0 then 1 else 0

/-- Where the full name of the parent goes, and what comes next. A long name goes
behind the table of blocks, and a sector is skipped for each byte before it. -/
def absLocator (size nextblock_offset : Nat) : Nat × Nat :=
  if locatorSectors size > 1 then (nextblock_offset, (nextblock_offset + nextblock_offset * sector_size) % 2 ^ 64)
  else (def_bat_offset_parent - 512, nextblock_offset)

/-- The sectors of the other name. By the precedence of the operators they are one
or none at first. -/
def relLocatorSectors (size : Nat) : Nat :=
  let locator_blocks := if locatorSectors size ≠ 0 then 1 else 0
  if locator_blocks < 128 then 128 else locator_blocks

def addLocators (parent : ParentInfo) : VHDFile :=
  let locator_blocks_abs := locatorSectors parent.abs_unicodename.length
  let (abs_locator_offset, nextblock_offset) := absLocator parent.abs_unicodename.length s.nextblock_offset
  let locator_blocks := relLocatorSectors parent.rel_unicodename.length
  { s with
    file := overwrite 0 (overwrite 0 s.file abs_locator_offset parent.abs_unicodename) nextblock_offset parent.rel_unicodename
    nextblock_offset := (nextblock_offset + locator_blocks * sector_size) % 2 ^ 64
    parentlocator :=
      [⟨0x57326B75, locator_blocks_abs * sector_size, parent.abs_unicodename.length, abs_locator_offset⟩,
        ⟨0x57327275, locator_blocks * sector_size, parent.rel_unicodename.length, nextblock_offset⟩] }

def write_dynamicheader (parent : Option ParentInfo) : VHDFile :=
  let s := match parent with
    | none => s
    | some parent => s.addLocators parent
  let s := s.init_bitmap
  let bytes := fun checksum => match parent with
    | none => s.dynamicheaderBytes checksum (List.replicate 16 0) 0 []
    | some parent => s.dynamicheaderBytes checksum parent.uid parent.timestamp parent.unicodename
  { s with file := overwrite 0 s.file def_dynamic_header_offset (bytes (calculate_checksum (bytes 0))) }

def batsizeOf (dstsize blocksize : Nat) : Nat :=
  (dstsize / blocksize % 2 ^ 32 + if dstsize % blocksize ≠ 0 then 1 else 0) % 2 ^ 32

/-- A new image, with or without a parent. -/
def create (dstsize blocksize : Nat) (fast_mode compressed : Bool) (ident : Ident) (parent : Option ParentInfo) : VHDFile :=
  let footer := footerOf dstsize parent.isSome ident
  let bat_offset := if parent.isSome then def_bat_offset_parent else def_bat_offset
  let batsize := batsizeOf dstsize blocksize
  let s : VHDFile :=
    { read_only := false
      fast_mode
      compressed
      dstsize
      blocksize
      bat := List.replicate batsize unallocated
      bat_offset
      nextblock_offset := nextSector (bat_offset + batsize * 4)
      parentlocator := []
      bitmap := []
      bitmap_size := 0
      currblock := 0xFFFFFFFF
      curr_offset := 0
      bitmap_offset := 0
      bitmap_dirty := false
      footer
      file := footer
      filepos := 0
      ops := 0 }
  let s := s.write_dynamicheader parent
  let s := (s.write_bat Io.ok).2
  (s.write_footer Io.ok).2

end Create

end VHDFile

end urbackup.vhdfile
