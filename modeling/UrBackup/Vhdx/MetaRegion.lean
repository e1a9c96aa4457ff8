import UrBackup.FileData.Fields
import UrBackup.Text.Utf16
import UrBackup.Vhdx.LogEntry

namespace urbackup.vhdxmeta

open stringtools filedata utf8 vhdxheader vhdxlog

section Guids

/-- The first three parts are stored with the low byte first. -/
def reorderGUID (g : VhdxGUID) : VhdxGUID :=
  ⟨(slice g.bytes 0 4).reverse ++ (slice g.bytes 4 2).reverse ++ (slice g.bytes 6 2).reverse ++ g.bytes.drop 8, by
    simp [g.size]⟩

def isZeroGUID (g : VhdxGUID) : Bool :=
  g.bytes = List.replicate 16 0

def hexnum_array : Bytes :=
  [48, 49, 50, 51, 52, 53, 54, 55, 56, 57, 97, 98, 99, 100, 101, 102]

def IsHex (str : Bytes) : Bool :=
  str.all fun ch => hexnum_array.contains ch

def byteToHex (ch : UInt8) : Bytes :=
  [hexnum_array.getD (ch.toNat / 16) 0, hexnum_array.getD (ch.toNat % 16) 0]

/-- A GUID in braces. All that is no hexadecimal digit is passed over. -/
def parseStrGuid (str : Bytes) : Option VhdxGUID :=
  if str.length < 5 then none
  else if str.head? ≠ some 123 ∨ str.getLast? ≠ some 125 then none
  else
    let hb := (slice str 1 (str.length - 2)).filter fun ch => IsHex [ch]
    if h : hb.length = 32 then
      some (reorderGUID ⟨(pieces 2 hb).map fun cb => UInt8.ofNat (hexToULong cb), by
        rw [List.length_map, length_pieces (by omega), h]⟩)
    else none

/-- A hyphen behind the bytes 3, 5, 7 and 9. -/
def strGUID (g : VhdxGUID) : Bytes :=
  let tmp := reorderGUID g
  123 :: (tmp.bytes.mapIdx fun i ch =>
    byteToHex ch ++ if i = 3 ∨ i = 5 ∨ i = 7 ∨ i = 9 then [45] else []).flatten ++ [125]

def makeFileParametersGUID : VhdxGUID :=
  reorderGUID ⟨[0xCA, 0xA1, 0x67, 0x37, 0xFA, 0x36, 0x4D, 0x43, 0xB3, 0xB6, 0x33, 0xF0, 0xAA, 0x44, 0xE7, 0x6B], rfl⟩

def makeVirtualDiskSizeGUID : VhdxGUID :=
  reorderGUID ⟨[0x2F, 0xA5, 0x42, 0x24, 0xCD, 0x1B, 0x48, 0x76, 0xB2, 0x11, 0x5D, 0xBE, 0xD8, 0x3B, 0xF4, 0xB8], rfl⟩

def makeLogicalSectorSizeGUID : VhdxGUID :=
  reorderGUID ⟨[0x81, 0x41, 0xBF, 0x1D, 0xA9, 0x6F, 0x47, 0x09, 0xBA, 0x47, 0xF2, 0x33, 0xA8, 0xFA, 0xAB, 0x5F], rfl⟩

def makePhysicalSectorSizeGUID : VhdxGUID :=
  reorderGUID ⟨[0xCD, 0xA3, 0x48, 0xC7, 0x44, 0x5D, 0x44, 0x71, 0x9C, 0xC9, 0xE9, 0x88, 0x52, 0x51, 0xC5, 0x56], rfl⟩

def makeVirtualDiskIdGUID : VhdxGUID :=
  reorderGUID ⟨[0xBE, 0xCA, 0x12, 0xAB, 0xB2, 0xE6, 0x45, 0x23, 0x93, 0xEF, 0xC3, 0x09, 0xE0, 0x00, 0xC7, 0x46], rfl⟩

def makeParentLocatorGUID : VhdxGUID :=
  reorderGUID ⟨[0xA8, 0xD3, 0x5F, 0x2D, 0xB3, 0x0B, 0x45, 0x4D, 0xAB, 0xF7, 0xD3, 0xD8, 0x48, 0x34, 0xAB, 0x0C], rfl⟩

def makeVhdxParentLocatorGUID : VhdxGUID :=
  reorderGUID ⟨[0xB0, 0x4A, 0xEF, 0xB7, 0xD1, 0x9E, 0x4A, 0x81, 0xB7, 0x89, 0x25, 0xB8, 0xE9, 0x44, 0x59, 0x13], rfl⟩

end Guids

section Structs

structure VhdxMetadataTableEntry where
  ItemId : Bytes
  Offset : Nat
  Length : Nat
  IsVirtualDisk : Bool
  IsRequired : Bool

def VhdxMetadataTableEntry.bytes (e : VhdxMetadataTableEntry) : Bytes :=
  e.ItemId ++ leBytes 4 e.Offset ++ leBytes 4 e.Length ++ leBytes 4 (2 * e.IsVirtualDisk.toNat + 4 * e.IsRequired.toNat) ++
    leBytes 4 0

def tableEntryAt (buf : Bytes) : VhdxMetadataTableEntry where
  ItemId := slice buf 0 16
  Offset := leValue (slice buf 16 4)
  Length := leValue (slice buf 20 4)
  IsVirtualDisk := leValue (slice buf 24 4) / 2 % 2 = 1
  IsRequired := leValue (slice buf 24 4) / 4 % 2 = 1

structure VhdxParentLocatorEntry where
  KeyOffset : Nat
  ValueOffset : Nat
  KeyLength : Nat
  ValueLength : Nat

def VhdxParentLocatorEntry.bytes (e : VhdxParentLocatorEntry) : Bytes :=
  leBytes 4 e.KeyOffset ++ leBytes 4 e.ValueOffset ++ leBytes 2 e.KeyLength ++ leBytes 2 e.ValueLength

def locatorEntryAt (buf : Bytes) : VhdxParentLocatorEntry where
  KeyOffset := leValue (slice buf 0 4)
  ValueOffset := leValue (slice buf 4 4)
  KeyLength := leValue (slice buf 8 2)
  ValueLength := leValue (slice buf 10 2)

end Structs

section Texts

/-- "metadata" -/
def metadata_ident : Bytes :=
  [109, 101, 116, 97, 100, 97, 116, 97]

def parent_linkage : Bytes :=
  [112, 97, 114, 101, 110, 116, 95, 108, 105, 110, 107, 97, 103, 101]

def relative_path : Bytes :=
  [114, 101, 108, 97, 116, 105, 118, 101, 95, 112, 97, 116, 104]

def volume_path : Bytes :=
  [118, 111, 108, 117, 109, 101, 95, 112, 97, 116, 104]

def absolute_win32_path : Bytes :=
  [97, 98, 115, 111, 108, 117, 116, 101, 95, 119, 105, 110, 51, 50, 95, 112, 97, 116, 104]

end Texts

section Write

variable (rawf_size : Int64) (block_size sector_size : UInt32)
variable (parent_data_uuid parent_rel_loc parent_abs_loc : Bytes) (virtual_disk_id : VhdxGUID)

/-- The entries in the order of their keys. -/
def parent_loc_entries : List (Bytes × Bytes) :=
  [(ConvertToUTF16 absolute_win32_path, ConvertToUTF16 parent_abs_loc),
    (ConvertToUTF16 parent_linkage, ConvertToUTF16 parent_data_uuid),
    (ConvertToUTF16 relative_path, ConvertToUTF16 parent_rel_loc)]

def textLength (entries : List (Bytes × Bytes)) : Nat :=
  (entries.map fun it => it.1.length + it.2.length).sum

def parent_locator_size (entries : List (Bytes × Bytes)) : Nat :=
  20 + 12 * entries.length + textLength entries

/-- The entries of the table, with their values from `64 * 1024` on. -/
def itemFields : List (Nat × Bytes) :=
  [(0, metadata_ident), (10, leBytes 2 (if parent_data_uuid = [] then 5 else 6)),
    (32, (VhdxMetadataTableEntry.mk makeFileParametersGUID.bytes (64 * 1024) 8 false true).bytes),
    (64 * 1024, leBytes 4 block_size.toNat), (64 * 1024 + 4, leBytes 4 (if parent_data_uuid = [] then 0 else 2)),
    (32 + 32, (VhdxMetadataTableEntry.mk makeVirtualDiskSizeGUID.bytes (64 * 1024 + 8) 8 true true).bytes),
    (64 * 1024 + 8, int64Bytes rawf_size),
    (32 + 2 * 32, (VhdxMetadataTableEntry.mk makeLogicalSectorSizeGUID.bytes (64 * 1024 + 16) 4 true true).bytes),
    (64 * 1024 + 16, leBytes 4 sector_size.toNat),
    (32 + 3 * 32, (VhdxMetadataTableEntry.mk makePhysicalSectorSizeGUID.bytes (64 * 1024 + 20) 4 true true).bytes),
    (64 * 1024 + 20, leBytes 4 sector_size.toNat),
    (32 + 4 * 32, (VhdxMetadataTableEntry.mk makeVirtualDiskIdGUID.bytes (64 * 1024 + 24) 16 true true).bytes),
    (64 * 1024 + 24, virtual_disk_id.bytes)]

/-- The loop over the entries of the parent locator at `off`. -/
def keyValueFields (off : Nat) : Nat → Nat → List (Bytes × Bytes) → List (Nat × Bytes)
  | _, _, [] => []
  | entry_pos, str_pos, it :: entries =>
    let value_pos := str_pos + it.1.length
    (entry_pos, (VhdxParentLocatorEntry.mk (str_pos - off) (value_pos - off) it.1.length it.2.length).bytes) ::
      (str_pos, it.1) :: (value_pos, it.2) ::
      keyValueFields off (entry_pos + 12) (value_pos + it.2.length) entries

def locatorFields (entries : List (Bytes × Bytes)) : List (Nat × Bytes) :=
  let off := 64 * 1024 + 40
  [(32 + 5 * 32, (VhdxMetadataTableEntry.mk makeParentLocatorGUID.bytes off (parent_locator_size entries) false true).bytes),
    (off + 18, leBytes 2 entries.length), (off, makeVhdxParentLocatorGUID.bytes)] ++
    keyValueFields off (off + 20) (off + 20 + 12 * entries.length) entries

/-- `none` where something is put outside of the region. -/
def getMetaRegion : Option Bytes :=
  let fields := itemFields rawf_size block_size sector_size parent_data_uuid virtual_disk_id
  let entries := parent_loc_entries parent_data_uuid parent_rel_loc parent_abs_loc
  if parent_data_uuid = [] then putAll 0 (List.replicate (64 * 1024 + 40) 0) fields
  else putAll 0 (List.replicate (64 * 1024 + 40 + parent_locator_size entries) 0) (fields ++ locatorFields entries)

end Write

section Read

inductive ReadError where
  | rejected
  | outside_buffer

/-- What is read from the metadata. -/
structure Meta where
  sector_size : Nat
  physical_sector_size : Nat
  BlockSize : Nat
  HasParent : Bool
  dst_size : Int64
  parent_linkage_guid : VhdxGUID
  rel_parent_path : Bytes
  volume_parent_path : Bytes
  absolute_win32_parent_path : Bytes

theorem length_zeroGUID : (List.replicate 16 (0 : UInt8)).length = 16 :=
  List.length_replicate

def Meta.unread : Meta :=
  ⟨0, 0, 0, false, -1, ⟨List.replicate 16 0, length_zeroGUID⟩, [], [], []⟩

def Meta.setKey (m : Meta) (key_v value_v : Bytes) : Except ReadError Meta :=
  if key_v = parent_linkage then
    match parseStrGuid value_v with
    | none => .error .rejected
    | some parent_linkage_guid => .ok { m with parent_linkage_guid }
  else if key_v = relative_path then .ok { m with rel_parent_path := value_v }
  else if key_v = volume_path then .ok { m with volume_parent_path := value_v }
  else if key_v = absolute_win32_path then .ok { m with absolute_win32_parent_path := value_v }
  else .ok m

def readKeyValue (entry_buf : Bytes) (m : Meta) (i : Nat) : Except ReadError Meta :=
  if 20 + i * 12 + 12 > entry_buf.length then .error .outside_buffer
  else
    let e := locatorEntryAt (slice entry_buf (20 + i * 12) 12)
    if (e.KeyOffset + e.KeyLength) % 2 ^ 32 ≥ entry_buf.length ∨ e.KeyOffset > 10 * 1024 * 1024 then .error .rejected
    else if (e.ValueOffset + e.ValueLength) % 2 ^ 32 ≥ entry_buf.length ∨ e.ValueOffset > 10 * 1024 * 1024 then
      .error .rejected
    else
      match ConvertFromUTF16 (slice entry_buf e.KeyOffset e.KeyLength),
        ConvertFromUTF16 (slice entry_buf e.ValueOffset e.ValueLength) with
      | some key_v, some value_v => m.setKey key_v value_v
      | _, _ => .error .outside_buffer

def readLocator (entry_buf : Bytes) (m : Meta) : Except ReadError Meta :=
  if entry_buf.length < 20 then .error .rejected
  else if slice entry_buf 0 16 ≠ makeVhdxParentLocatorGUID.bytes then .error .rejected
  else (List.range (leValue (slice entry_buf 18 2))).foldlM (readKeyValue entry_buf) m

/-- The value of an entry of the table. -/
def readItem (table_entry : VhdxMetadataTableEntry) (entry_buf : Bytes) (m : Meta) : Except ReadError Meta :=
  if table_entry.ItemId = makeFileParametersGUID.bytes then
    if entry_buf.length < 8 then .error .rejected
    else
      .ok { m with
        BlockSize := leValue (slice entry_buf 0 4)
        HasParent := leValue (slice entry_buf 4 4) / 2 % 2 = 1 }
  else if table_entry.ItemId = makeVirtualDiskSizeGUID.bytes then
    if entry_buf.length < 8 then .error .rejected else .ok { m with dst_size := getInt64 entry_buf 0 }
  else if table_entry.ItemId = makePhysicalSectorSizeGUID.bytes then
    if entry_buf.length < 4 then .error .rejected
    else .ok { m with physical_sector_size := leValue (slice entry_buf 0 4) }
  else if table_entry.ItemId = makeLogicalSectorSizeGUID.bytes then
    if entry_buf.length < 4 then .error .rejected else .ok { m with sector_size := leValue (slice entry_buf 0 4) }
  else if table_entry.ItemId = makeVirtualDiskIdGUID.bytes then
    if entry_buf.length < 16 then .error .rejected else .ok m
  else if table_entry.ItemId = makeParentLocatorGUID.bytes then readLocator entry_buf m
  else if table_entry.IsRequired then .error .rejected
  else .ok m

structure Region where
  FileOffset : Nat
  Length : Nat

def readTableEntry (file : Bytes) (meta_table_region : Region) (meta_table : Bytes) (m : Meta) (i : Nat) :
    Except ReadError Meta :=
  if 32 + i * 32 + 32 > meta_table.length then .error .rejected
  else
    let table_entry := tableEntryAt (slice meta_table (32 + i * 32) 32)
    if table_entry.Offset < 64 * 1024 then .error .rejected
    else if (table_entry.Offset + table_entry.Length) % 2 ^ 32 > meta_table_region.Length then .error .rejected
    else
      let entry_buf := slice file (meta_table_region.FileOffset + table_entry.Offset) table_entry.Length
      if entry_buf.length ≠ table_entry.Length then .error .rejected else readItem table_entry entry_buf m

/-- The files at the paths of a parent; `some none` is a file that cannot be opened,
otherwise the GUID is its `DataWriteGuid`. -/
abbrev Files :=
  Bytes → Option (Option VhdxGUID)

/-- The parent is looked for at the absolute path first. -/
def Meta.parent (m : Meta) (files : Files) : Option VhdxGUID :=
  match files m.absolute_win32_parent_path with
  | some parent => parent
  | none => (files m.rel_parent_path).join

def Meta.openParent (m : Meta) (files : Files) : Except ReadError Meta :=
  if m.sector_size = 0 ∨ m.physical_sector_size = 0 ∨ m.BlockSize = 0 ∨ m.dst_size = -1 then .error .rejected
  else if m.HasParent then
    if isZeroGUID m.parent_linkage_guid then .error .rejected
    else
      match m.parent files with
      | none => .error .rejected
      | some dwg => if dwg.bytes ≠ m.parent_linkage_guid.bytes then .error .rejected else .ok m
  else .ok m

def readMeta (file : Bytes) (meta_table_region : Region) (files : Files) : Except ReadError Meta :=
  if meta_table_region.Length < 64 * 1024 then .error .rejected
  else
    let meta_table := slice file meta_table_region.FileOffset (64 * 1024)
    if meta_table.length ≠ 64 * 1024 then .error .rejected
    else if slice meta_table 0 8 ≠ metadata_ident then .error .rejected
    else
      match (List.range (leValue (slice meta_table 10 2))).foldlM (readTableEntry file meta_table_region meta_table)
        Meta.unread with
      | .error e => .error e
      | .ok m => m.openParent files

end Read

end urbackup.vhdxmeta
