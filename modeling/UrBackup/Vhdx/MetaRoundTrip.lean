import UrBackup.Vhdx.LogRoundTrip
import UrBackup.Vhdx.MetaRegion

namespace urbackup.vhdxmeta

open stringtools filedata utf8 vhdxheader vhdxlog

section Structs

theorem tableEntryAt_bytes {e : VhdxMetadataTableEntry} (hid : e.ItemId.length = 16) :
    tableEntryAt e.bytes = { e with Offset := e.Offset % 256 ^ 4, Length := e.Length % 256 ^ 4 } := by
  have hflags (a b : Bool) : leValue (leBytes 4 (2 * a.toNat + 4 * b.toNat)) = 2 * a.toNat + 4 * b.toNat := by
    refine leValue_leBytes ?_
    cases a <;> cases b <;> decide
  have hdisk (a b : Bool) : decide ((2 * a.toNat + 4 * b.toNat) / 2 % 2 = 1) = a := by
    cases a <;> cases b <;> rfl
  have hrequired (a b : Bool) : decide ((2 * a.toNat + 4 * b.toNat) / 4 % 2 = 1) = b := by
    cases a <;> cases b <;> rfl
  have hid' : slice e.bytes 0 16 = e.ItemId := by
    simp only [VhdxMetadataTableEntry.bytes, List.append_assoc]
    exact @slice_part _ [] _ _ _ _ rfl hid
  have hoff' : slice e.bytes 16 4 = leBytes 4 e.Offset := by
    simp only [VhdxMetadataTableEntry.bytes, List.append_assoc]
    exact slice_part _ hid (length_leBytes 4 _)
  have hlen' : slice e.bytes 20 4 = leBytes 4 e.Length := by
    rw [VhdxMetadataTableEntry.bytes, List.append_assoc, List.append_assoc]
    exact slice_part _ (by simp [hid]) (length_leBytes 4 _)
  have hflags' : slice e.bytes 24 4 = leBytes 4 (2 * e.IsVirtualDisk.toNat + 4 * e.IsRequired.toNat) := by
    rw [VhdxMetadataTableEntry.bytes, List.append_assoc]
    exact slice_part _ (by simp [hid]) (length_leBytes 4 _)
  rw [tableEntryAt, hid', hoff', hlen', hflags', leValue_leBytes_mod, leValue_leBytes_mod, hflags, hdisk, hrequired]

theorem locatorEntryAt_bytes (e : VhdxParentLocatorEntry) : locatorEntryAt e.bytes =
    ⟨e.KeyOffset % 256 ^ 4, e.ValueOffset % 256 ^ 4, e.KeyLength % 256 ^ 2, e.ValueLength % 256 ^ 2⟩ := by
  have hkey : slice e.bytes 0 4 = leBytes 4 e.KeyOffset := by
    simp only [VhdxParentLocatorEntry.bytes, List.append_assoc]
    exact @slice_part _ [] _ _ _ _ rfl (length_leBytes 4 _)
  have hvalue : slice e.bytes 4 4 = leBytes 4 e.ValueOffset := by
    simp only [VhdxParentLocatorEntry.bytes, List.append_assoc]
    exact slice_part _ (length_leBytes 4 _) (length_leBytes 4 _)
  have hkeyLength : slice e.bytes 8 2 = leBytes 2 e.KeyLength := by
    rw [VhdxParentLocatorEntry.bytes, List.append_assoc]
    exact slice_part _ (by simp) (length_leBytes 2 _)
  have hvalueLength : slice e.bytes 10 2 = leBytes 2 e.ValueLength := by
    rw [VhdxParentLocatorEntry.bytes, ← List.append_nil (leBytes 2 e.ValueLength)]
    exact slice_part [] (by simp) (length_leBytes 2 _)
  rw [locatorEntryAt, hkey, hvalue, hkeyLength, hvalueLength, leValue_leBytes_mod, leValue_leBytes_mod, leValue_leBytes_mod,
    leValue_leBytes_mod]

end Structs

section Region

variable {rawf_size : Int64} {block_size sector_size : UInt32} {parent_data_uuid parent_rel_loc parent_abs_loc : Bytes}
  {virtual_disk_id : VhdxGUID}

theorem length_tableEntry {e : VhdxMetadataTableEntry} (hid : e.ItemId.length = 16) : e.bytes.length = 32 := by
  simp [VhdxMetadataTableEntry.bytes, hid]

@[simp] theorem length_locatorEntry (e : VhdxParentLocatorEntry) : e.bytes.length = 12 := by
  simp [VhdxParentLocatorEntry.bytes]

theorem itemFields_within : ∀ f ∈ itemFields rawf_size block_size sector_size parent_data_uuid virtual_disk_id,
    f.1 + f.2.length ≤ 192 ∨ (65536 ≤ f.1 ∧ f.1 + f.2.length ≤ 65576) := by
  simp [itemFields, length_tableEntry, VhdxGUID.size, metadata_ident]

theorem itemFields_apart : (itemFields rawf_size block_size sector_size parent_data_uuid virtual_disk_id).Pairwise Apart := by
  simp [itemFields, length_tableEntry, VhdxGUID.size, metadata_ident, Apart]

section KeyValues

variable {off entry_pos str_pos : Nat} {entries : List (Bytes × Bytes)}

theorem textLength_cons (it : Bytes × Bytes) (entries : List (Bytes × Bytes)) :
    textLength (it :: entries) = it.1.length + it.2.length + textLength entries := by
  rw [textLength, List.map_cons, List.sum_cons, textLength]

/-- The entries are in one part of the locator and the texts in another one, up to
the end. -/
theorem keyValueFields_within : ∀ f ∈ keyValueFields off entry_pos str_pos entries,
    (entry_pos ≤ f.1 ∧ f.1 + f.2.length ≤ entry_pos + 12 * entries.length) ∨
      (str_pos ≤ f.1 ∧ f.1 + f.2.length ≤ str_pos + textLength entries) := by
  induction entries generalizing entry_pos str_pos with
  | nil => exact fun f hf => absurd hf List.not_mem_nil
  | cons it entries ih =>
    intro f hf
    rw [keyValueFields] at hf
    rw [List.length_cons, textLength_cons]
    obtain rfl | rfl | rfl | hf := by simpa using hf
    · rw [length_locatorEntry]
      omega
    · dsimp only
      omega
    · dsimp only
      omega
    · have := ih f hf
      omega

theorem keyValueFields_apart (hpos : entry_pos + 12 * entries.length ≤ str_pos) :
    (keyValueFields off entry_pos str_pos entries).Pairwise Apart := by
  induction entries generalizing entry_pos str_pos with
  | nil => exact List.Pairwise.nil
  | cons it entries ih =>
    rw [List.length_cons] at hpos
    have hrest : ∀ f ∈ keyValueFields off (entry_pos + 12) (str_pos + it.1.length + it.2.length) entries, _ :=
      keyValueFields_within
    have htexts : str_pos + it.1.length + it.2.length ≤ str_pos + it.1.length + it.2.length + textLength entries :=
      Nat.le_add_right _ _
    rw [keyValueFields]
    refine List.pairwise_cons.mpr ⟨?_, List.pairwise_cons.mpr ⟨?_, List.pairwise_cons.mpr ⟨?_, ih (by omega)⟩⟩⟩
    · intro f hf
      rw [Apart, length_locatorEntry]
      obtain rfl | rfl | hf := by simpa using hf
      · dsimp only
        omega
      · dsimp only
        omega
      · have := hrest f hf
        omega
    · intro f hf
      rw [Apart]
      obtain rfl | hf := by simpa using hf
      · dsimp only
        omega
      · have := hrest f hf
        dsimp only
        omega
    · intro f hf
      have := hrest f hf
      rw [Apart]
      dsimp only
      omega

end KeyValues

variable {entries : List (Bytes × Bytes)}

theorem locatorFields_within : ∀ f ∈ locatorFields entries,
    (192 ≤ f.1 ∧ f.1 + f.2.length ≤ 224) ∨ (65576 ≤ f.1 ∧ f.1 + f.2.length ≤ 65576 + parent_locator_size entries) := by
  intro f hf
  have hsize : parent_locator_size entries = 20 + 12 * entries.length + textLength entries := rfl
  obtain hf | hf := List.mem_append.mp hf
  · obtain rfl | rfl | rfl := by simpa using hf
    · rw [length_tableEntry makeParentLocatorGUID.size]
      omega
    · rw [length_leBytes]
      omega
    · rw [VhdxGUID.size]
      omega
  · have := keyValueFields_within f hf
    omega

theorem locatorFields_apart : (locatorFields entries).Pairwise Apart := by
  refine List.pairwise_append.mpr ⟨?_, keyValueFields_apart (Nat.le_refl _), fun f hf g hg => ?_⟩
  · simp [length_tableEntry, VhdxGUID.size, Apart]
  · have := keyValueFields_within g hg
    rw [Apart]
    obtain rfl | rfl | rfl := by simpa using hf
    · rw [length_tableEntry makeParentLocatorGUID.size]
      omega
    · rw [length_leBytes]
      omega
    · rw [VhdxGUID.size]
      omega

theorem fields_apart : (itemFields rawf_size block_size sector_size parent_data_uuid virtual_disk_id ++
    locatorFields entries).Pairwise Apart := by
  refine List.pairwise_append.mpr ⟨itemFields_apart, locatorFields_apart, fun f hf g hg => ?_⟩
  have := itemFields_within f hf
  have := locatorFields_within g hg
  rw [Apart]
  omega

theorem fields_within : ∀ f ∈ itemFields rawf_size block_size sector_size parent_data_uuid virtual_disk_id ++
    locatorFields entries, f.1 + f.2.length ≤ 64 * 1024 + 40 + parent_locator_size entries := by
  intro f hf
  obtain hf | hf := List.mem_append.mp hf
  · have := itemFields_within f hf
    omega
  · have := locatorFields_within f hf
    omega

/-- All that is put into the region. -/
def regionFields (rawf_size : Int64) (block_size sector_size : UInt32) (parent_data_uuid parent_rel_loc parent_abs_loc : Bytes)
    (virtual_disk_id : VhdxGUID) : List (Nat × Bytes) :=
  itemFields rawf_size block_size sector_size parent_data_uuid virtual_disk_id ++
    if parent_data_uuid = [] then []
    else locatorFields (parent_loc_entries parent_data_uuid parent_rel_loc parent_abs_loc)

/-- The region is always made, and each of the fields is in it. -/
theorem getMetaRegion_fields (rawf_size : Int64) (block_size sector_size : UInt32)
    (parent_data_uuid parent_rel_loc parent_abs_loc : Bytes) (virtual_disk_id : VhdxGUID) :
    ∃ region,
      getMetaRegion rawf_size block_size sector_size parent_data_uuid parent_rel_loc parent_abs_loc virtual_disk_id =
        some region ∧ 64 * 1024 + 40 ≤ region.length ∧
      ∀ p v, (p, v) ∈ regionFields rawf_size block_size sector_size parent_data_uuid parent_rel_loc parent_abs_loc
        virtual_disk_id → p + v.length ≤ region.length ∧ slice region p v.length = v := by
  have hsome {n : Nat} {fields : List (Nat × Bytes)} (hapart : fields.Pairwise Apart)
      (hfits : ∀ f ∈ fields, f.1 + f.2.length ≤ n) :
      ∃ region, putAll 0 (List.replicate n 0) fields = some region ∧ region.length = n ∧
        ∀ p v, (p, v) ∈ fields → p + v.length ≤ region.length ∧ slice region p v.length = v := by
    obtain ⟨region, hput, hlen⟩ := @putAll_fits _ (0 : UInt8) (List.replicate n 0) _ (by simpa using hfits)
    rw [List.length_replicate] at hlen
    exact ⟨region, hput, hlen, fun p v hmem => ⟨hlen ▸ hfits _ hmem, slice_putAll 0 hput hapart hmem⟩⟩
  unfold getMetaRegion regionFields
  dsimp only
  split
  · rw [List.append_nil]
    obtain ⟨region, hput, hlen, hfields⟩ := hsome (n := 64 * 1024 + 40) itemFields_apart fun f hf => by
      have := itemFields_within f hf
      omega
    exact ⟨region, hput, hlen.ge, hfields⟩
  · obtain ⟨region, hput, hlen, hfields⟩ := hsome fields_apart fields_within
    exact ⟨region, hput, by omega, hfields⟩

end Region

section Statement

/-- The locator of a parent. -/
structure ParentLocator where
  guid : VhdxGUID
  rel_loc : Bytes
  abs_loc : Bytes

/-- The parent is at its absolute path or at its relative one. -/
def ParentLocator.Present (p : ParentLocator) (files : Files) : Prop :=
  files p.abs_loc = some (some p.guid) ∨ (files p.abs_loc = none ∧ files p.rel_loc = some (some p.guid))

def meta_region_offset : Nat := 2 * 1024 * 1024

def meta_table_region : Region :=
  ⟨meta_region_offset, 1 * 1024 * 1024⟩

theorem offset_region : meta_table_region.FileOffset = meta_region_offset := rfl

theorem length_region : meta_table_region.Length = 1 * 1024 * 1024 := rfl

/-- The region for an image with or without a parent. -/
def metaRegionOf (rawf_size : Int64) (block_size sector_size : UInt32) (parent : Option ParentLocator)
    (virtual_disk_id : VhdxGUID) : Option Bytes :=
  match parent with
  | none => getMetaRegion rawf_size block_size sector_size [] [] [] virtual_disk_id
  | some p => getMetaRegion rawf_size block_size sector_size (strGUID p.guid) p.rel_loc p.abs_loc virtual_disk_id

/-- What is written is accepted and read. -/
def Recovers (file : Bytes) (rawf_size : Int64) (block_size sector_size : UInt32) (parent : Option ParentLocator) : Prop :=
  ∀ (virtual_disk_id : VhdxGUID) (files : Files), (∀ p ∈ parent, p.Present files) →
    ∃ region m, metaRegionOf rawf_size block_size sector_size parent virtual_disk_id = some region ∧
      readMeta (overwrite 0 file meta_region_offset region) meta_table_region files = .ok m ∧
      m.dst_size = rawf_size ∧ m.BlockSize = block_size.toNat ∧ m.sector_size = sector_size.toNat ∧
      m.physical_sector_size = sector_size.toNat ∧ m.HasParent = parent.isSome ∧
      ∀ p ∈ parent, m.parent_linkage_guid = p.guid ∧ m.rel_parent_path = p.rel_loc ∧
        m.absolute_win32_parent_path = p.abs_loc

end Statement

section Read

/-- The fields of a region that is in the file. -/
def IsWritten (file : Bytes) (fields : List (Nat × Bytes)) : Prop :=
  meta_region_offset + (64 * 1024 + 40) ≤ file.length ∧
    ∀ p v, (p, v) ∈ fields → slice file (meta_region_offset + p) v.length = v

theorem isWritten_overwrite (file : Bytes) {region : Bytes} {fields : List (Nat × Bytes)}
    (hlen : 64 * 1024 + 40 ≤ region.length)
    (hfields : ∀ p v, (p, v) ∈ fields → p + v.length ≤ region.length ∧ slice region p v.length = v) :
    IsWritten (overwrite 0 file meta_region_offset region) fields := by
  have hself := slice_overwrite_self (0 : UInt8) file region meta_region_offset
  constructor
  · have hlength := congrArg List.length hself
    rw [length_slice] at hlength
    omega
  · intro p v hmem
    obtain ⟨hfits, hslice⟩ := hfields p v hmem
    rw [← slice_slice _ hfits, hself, hslice]

variable {file : Bytes} {fields : List (Nat × Bytes)} (hw : IsWritten file fields)

include hw

theorem IsWritten.value {p n : Nat} {v : Bytes} (hmem : (p, v) ∈ fields) (hn : v.length = n) :
    slice file (meta_region_offset + p) n = v := by
  rw [← hn]
  exact hw.2 p v hmem

theorem IsWritten.length_table : (slice file meta_region_offset (64 * 1024)).length = 64 * 1024 := by
  have := hw.1
  rw [length_slice]
  omega

theorem IsWritten.table {p n : Nat} {v : Bytes} (hmem : (p, v) ∈ fields) (hn : v.length = n) (hp : p + n ≤ 64 * 1024) :
    slice (slice file meta_region_offset (64 * 1024)) p n = v := by
  rw [slice_slice _ hp, hw.value hmem hn]

/-- An item whose value is in the file. -/
theorem IsWritten.readTableEntry {e : VhdxMetadataTableEntry} {i n : Nat} {entry_buf : Bytes}
    (hmem : (n, e.bytes) ∈ fields) (hn : n = 32 + i * 32) (hi : i ≤ 5) (hid : e.ItemId.length = 16)
    (hoff : 64 * 1024 ≤ e.Offset) (hend : e.Offset + e.Length ≤ 1 * 1024 * 1024)
    (hbuf : slice file (meta_region_offset + e.Offset) e.Length = entry_buf) (hlen : entry_buf.length = e.Length) (m : Meta) :
    readTableEntry file meta_table_region (slice file meta_region_offset (64 * 1024)) m i = readItem e entry_buf m := by
  subst hn
  have hentry := hw.table hmem (length_tableEntry hid) (by omega)
  have heq : tableEntryAt e.bytes = e := by
    rw [tableEntryAt_bytes hid, Nat.mod_eq_of_lt (by omega), Nat.mod_eq_of_lt (by omega)]
  rw [vhdxmeta.readTableEntry, hw.length_table, if_neg (by omega), hentry, heq]
  dsimp only
  rw [if_neg (Nat.not_lt.mpr hoff), length_region, if_neg (by omega), offset_region, hbuf, if_neg (not_not.mpr hlen)]

end Read

section Items

variable {e : VhdxMetadataTableEntry} {entry_buf : Bytes} (m : Meta)

theorem readItem_params (hid : e.ItemId = makeFileParametersGUID.bytes) {BlockSize : UInt32} {flags : Nat} (hflags : flags < 256)
    (hbuf : entry_buf = leBytes 4 BlockSize.toNat ++ leBytes 4 flags) :
    readItem e entry_buf m = .ok { m with BlockSize := BlockSize.toNat, HasParent := flags / 2 % 2 = 1 } := by
  have hfirst : slice entry_buf 0 4 = leBytes 4 BlockSize.toNat := by
    rw [hbuf]
    exact @slice_part _ [] _ _ _ _ rfl (length_leBytes 4 _)
  have hsecond : slice entry_buf 4 4 = leBytes 4 flags := by
    rw [hbuf, ← List.append_nil (leBytes 4 flags)]
    exact slice_part [] (length_leBytes 4 _) (length_leBytes 4 _)
  rw [readItem, if_pos hid, if_neg (by simp [hbuf]), hfirst, hsecond, leValue_leBytes BlockSize.toNat_lt,
    leValue_leBytes (by omega)]

theorem readItem_size (hid : e.ItemId = makeVirtualDiskSizeGUID.bytes) {size : Int64} :
    readItem e (int64Bytes size) m = .ok { m with dst_size := size } := by
  have hsize : getInt64 (int64Bytes size) 0 = size := by
    refine getInt64_of_slice ?_
    rw [slice, List.drop_zero, List.take_of_length_le (by rw [length_int64Bytes])]
  rw [readItem, hid, if_neg (by decide), if_pos rfl, if_neg (by rw [length_int64Bytes]; omega), hsize]

theorem slice_leBytes (k n : Nat) : slice (leBytes k n) 0 k = leBytes k n := by
  rw [slice, List.drop_zero, List.take_of_length_le (by rw [length_leBytes])]

theorem readItem_physical (hid : e.ItemId = makePhysicalSectorSizeGUID.bytes) {size : UInt32} :
    readItem e (leBytes 4 size.toNat) m = .ok { m with physical_sector_size := size.toNat } := by
  rw [readItem, hid, if_neg (by decide), if_neg (by decide), if_pos rfl, if_neg (by rw [length_leBytes]; omega),
    slice_leBytes, leValue_leBytes size.toNat_lt]

theorem readItem_logical (hid : e.ItemId = makeLogicalSectorSizeGUID.bytes) {size : UInt32} :
    readItem e (leBytes 4 size.toNat) m = .ok { m with sector_size := size.toNat } := by
  rw [readItem, hid, if_neg (by decide), if_neg (by decide), if_neg (by decide), if_pos rfl,
    if_neg (by rw [length_leBytes]; omega), slice_leBytes, leValue_leBytes size.toNat_lt]

theorem readItem_diskId (hid : e.ItemId = makeVirtualDiskIdGUID.bytes) (hlen : entry_buf.length = 16) :
    readItem e entry_buf m = .ok m := by
  rw [readItem, hid, if_neg (by decide), if_neg (by decide), if_neg (by decide), if_neg (by decide), if_pos rfl,
    if_neg (by omega)]

theorem readItem_locator (hid : e.ItemId = makeParentLocatorGUID.bytes) :
    readItem e entry_buf m = readLocator entry_buf m := by
  rw [readItem, hid, if_neg (by decide), if_neg (by decide), if_neg (by decide), if_neg (by decide), if_neg (by decide),
    if_pos rfl]

end Items

section NoParent

variable {file : Bytes} {rawf_size : Int64} {block_size sector_size : UInt32} {virtual_disk_id : VhdxGUID}

/-- What is read of an image without a parent. -/
def withoutParent (rawf_size : Int64) (block_size sector_size : UInt32) : Meta :=
  { Meta.unread with
    sector_size := sector_size.toNat
    physical_sector_size := sector_size.toNat
    BlockSize := block_size.toNat
    HasParent := false
    dst_size := rawf_size }

/-- The items in the order of the table. -/
theorem readTable_items (hw : IsWritten file (itemFields rawf_size block_size sector_size [] virtual_disk_id)) :
    (List.range 5).foldlM (readTableEntry file meta_table_region (slice file meta_region_offset (64 * 1024))) Meta.unread =
      .ok (withoutParent rawf_size block_size sector_size) := by
  have hparams : slice file (meta_region_offset + 64 * 1024) 8 = leBytes 4 block_size.toNat ++ leBytes 4 0 := by
    rw [slice_add file _ 4 4, hw.value (v := leBytes 4 block_size.toNat) (by simp [itemFields]) (length_leBytes 4 _),
      hw.value (p := 64 * 1024 + 4) (v := leBytes 4 0) (by simp [itemFields]) (length_leBytes 4 _)]
  have hfirst (m : Meta) := (hw.readTableEntry (e := ⟨makeFileParametersGUID.bytes, 64 * 1024, 8, false, true⟩) (i := 0)
    (by simp [itemFields]) rfl (by omega) (VhdxGUID.size _) (by simp) (by simp) hparams (by simp) m).trans
      (readItem_params m rfl (by omega) rfl)
  have hsecond (m : Meta) := (hw.readTableEntry (e := ⟨makeVirtualDiskSizeGUID.bytes, 64 * 1024 + 8, 8, true, true⟩) (i := 1)
    (by simp [itemFields]) rfl (by omega) (VhdxGUID.size _) (by simp) (by simp)
      (hw.value (by simp [itemFields]) (length_int64Bytes _)) (length_int64Bytes rawf_size) m).trans (readItem_size m rfl)
  have hthird (m : Meta) := (hw.readTableEntry (e := ⟨makeLogicalSectorSizeGUID.bytes, 64 * 1024 + 16, 4, true, true⟩) (i := 2)
    (by simp [itemFields]) rfl (by omega) (VhdxGUID.size _) (by simp) (by simp)
      (hw.value (by simp [itemFields]) (length_leBytes 4 _)) (length_leBytes 4 sector_size.toNat) m).trans
        (readItem_logical m rfl)
  have hfourth (m : Meta) := (hw.readTableEntry (e := ⟨makePhysicalSectorSizeGUID.bytes, 64 * 1024 + 20, 4, true, true⟩)
    (i := 3) (by simp [itemFields]) rfl (by omega) (VhdxGUID.size _) (by simp) (by simp)
      (hw.value (by simp [itemFields]) (length_leBytes 4 _)) (length_leBytes 4 sector_size.toNat) m).trans
        (readItem_physical m rfl)
  have hfifth (m : Meta) := (hw.readTableEntry (e := ⟨makeVirtualDiskIdGUID.bytes, 64 * 1024 + 24, 16, true, true⟩) (i := 4)
    (by simp [itemFields]) rfl (by omega) (VhdxGUID.size _) (by simp) (by simp)
      (hw.value (by simp [itemFields]) virtual_disk_id.size) virtual_disk_id.size m).trans
        (readItem_diskId m rfl virtual_disk_id.size)
  have hrange : List.range 5 = [0, 1, 2, 3, 4] := rfl
  simp only [hrange, List.foldlM_cons, List.foldlM_nil, hfirst, hsecond, hthird, hfourth, hfifth]
  rfl

/-- An image without a parent. -/
theorem readMeta_noParent (hw : IsWritten file (itemFields rawf_size block_size sector_size [] virtual_disk_id)) (files : Files) :
    readMeta file meta_table_region files = (withoutParent rawf_size block_size sector_size).openParent files := by
  have hident : slice (slice file meta_region_offset (64 * 1024)) 0 8 = metadata_ident :=
    hw.table (by simp [itemFields]) rfl (by omega)
  have hcount : leValue (slice (slice file meta_region_offset (64 * 1024)) 10 2) = 5 := by
    rw [hw.table (v := leBytes 2 5) (by simp [itemFields]) (length_leBytes 2 5) (by omega), leValue_leBytes (by omega)]
  rw [readMeta, length_region, offset_region, if_neg (by omega)]
  dsimp only
  rw [hw.length_table, if_neg (not_not.mpr rfl), hident, if_neg (not_not.mpr rfl), hcount, readTable_items hw]

theorem openParent_withoutParent (rawf_size : Int64) (block_size sector_size : UInt32) (files : Files) :
    (withoutParent rawf_size block_size sector_size).openParent files =
      if sector_size = 0 ∨ block_size = 0 ∨ rawf_size = -1 then .error .rejected
      else .ok (withoutParent rawf_size block_size sector_size) := by
  have hzero (n : UInt32) : n.toNat = 0 ↔ n = 0 := by
    rw [← UInt32.toNat_inj]
    rfl
  simp only [Meta.openParent, withoutParent, hzero, or_self_left]
  rfl

theorem recovers_noParent (file : Bytes) (rawf_size : Int64) (block_size sector_size : UInt32) :
    Recovers file rawf_size block_size sector_size none ↔ block_size ≠ 0 ∧ sector_size ≠ 0 ∧ rawf_size ≠ -1 := by
  constructor
  · intro h
    obtain ⟨region, m, hregion, hread, -⟩ := h ⟨List.replicate 16 0, List.length_replicate⟩ (fun _ => none)
      (fun p hp => by cases hp)
    obtain ⟨region', hregion', hlen, hfields⟩ := getMetaRegion_fields rawf_size block_size sector_size [] [] []
      ⟨List.replicate 16 0, List.length_replicate⟩
    rw [metaRegionOf, hregion'] at hregion
    cases hregion
    have hw := isWritten_overwrite file hlen hfields
    rw [regionFields, if_pos rfl, List.append_nil] at hw
    rw [readMeta_noParent hw, openParent_withoutParent] at hread
    split at hread
    · cases hread
    · next hall =>
      simp only [not_or] at hall
      exact ⟨hall.2.1, hall.1, hall.2.2⟩
  · rintro ⟨hblock, hsector, hsize⟩ virtual_disk_id files -
    obtain ⟨region, hregion, hlen, hfields⟩ := getMetaRegion_fields rawf_size block_size sector_size [] [] [] virtual_disk_id
    have hw := isWritten_overwrite file hlen hfields
    rw [regionFields, if_pos rfl, List.append_nil] at hw
    refine ⟨region, withoutParent rawf_size block_size sector_size, hregion, ?_, rfl, rfl, rfl, rfl, rfl, fun p hp => by cases hp⟩
    rw [readMeta_noParent hw, openParent_withoutParent, if_neg]
    simp only [not_or]
    exact ⟨hsector, hblock, hsize⟩

end NoParent

section Loops

variable {α β ε : Type} {f : β → α → Except ε β}

/-- A loop that ends went through each of its rounds. -/
theorem foldlM_ok_mem {xs : List α} {b c : β} (h : xs.foldlM f b = .ok c) {x : α} (hx : x ∈ xs) :
    ∃ b' c', f b' x = .ok c' := by
  induction xs generalizing b with
  | nil => exact absurd hx List.not_mem_nil
  | cons y ys ih =>
    rw [List.foldlM_cons] at h
    cases hy : f b y with
    | error e =>
      rw [hy] at h
      cases h
    | ok b' =>
      rw [hy] at h
      obtain rfl | hx := List.mem_cons.mp hx
      · exact ⟨b, b', hy⟩
      · exact ih h hx

theorem foldlM_ok_invariant {P : β → Prop} (hP : ∀ b x c, P b → f b x = .ok c → P c) {xs : List α} {b c : β} (hb : P b)
    (h : xs.foldlM f b = .ok c) : P c := by
  induction xs generalizing b with
  | nil =>
    cases h
    exact hb
  | cons y ys ih =>
    rw [List.foldlM_cons] at h
    cases hy : f b y with
    | error e =>
      rw [hy] at h
      cases h
    | ok b' =>
      rw [hy] at h
      exact ih (hP b y b' hb hy) h

end Loops

section Short

/-- The relative path is one that fits into a value. -/
def ShortPath (m : Meta) : Prop :=
  (ConvertToUTF16 m.rel_parent_path).length < 256 ^ 2

theorem shortPath_unread : ShortPath Meta.unread := by
  have hnil : utf8to16 Meta.unread.rel_parent_path = some [] := utf8to16_ascii (s := []) fun b hb => by cases hb
  rw [ShortPath, ConvertToUTF16, hnil]
  exact Nat.pow_pos (by omega)

theorem shortPath_setKey {m m' : Meta} {key_v value_v : Bytes} (hm : ShortPath m)
    (hvalue : (ConvertToUTF16 value_v).length < 256 ^ 2) (h : m.setKey key_v value_v = .ok m') : ShortPath m' := by
  unfold Meta.setKey at h
  split at h
  · split at h
    · cases h
    · cases h
      exact hm
  · split at h
    · cases h
      exact hvalue
    · split at h
      · cases h
        exact hm
      · split at h
        · cases h
          exact hm
        · cases h
          exact hm

theorem shortPath_readKeyValue {entry_buf : Bytes} {m m' : Meta} {i : Nat} (hm : ShortPath m)
    (h : readKeyValue entry_buf m i = .ok m') : ShortPath m' := by
  unfold readKeyValue at h
  split at h
  · cases h
  · dsimp only at h
    split at h
    · cases h
    · split at h
      · cases h
      · split at h
        · next key_v value_v hkey hvalue =>
          refine shortPath_setKey hm (Nat.lt_of_le_of_lt (length_ConvertToUTF16_le hvalue) ?_) h
          have hlt : (locatorEntryAt (slice entry_buf (20 + i * 12) 12)).ValueLength < 256 ^ 2 := by
            refine Nat.lt_of_lt_of_le (leValue_lt _) (Nat.pow_le_pow_right (by omega) ?_)
            rw [length_slice]
            omega
          rw [length_slice]
          omega
        · cases h

theorem shortPath_readItem {e : VhdxMetadataTableEntry} {entry_buf : Bytes} {m m' : Meta} (hm : ShortPath m)
    (h : readItem e entry_buf m = .ok m') : ShortPath m' := by
  unfold readItem at h
  repeat' split at h
  all_goals first
    | cases h
      exact hm
    | cases h
    | skip
  unfold readLocator at h
  split at h
  · cases h
  · split at h
    · cases h
    · exact foldlM_ok_invariant (fun _ _ _ => shortPath_readKeyValue) hm h

theorem shortPath_readTableEntry {file meta_table : Bytes} {region : Region} {m m' : Meta} {i : Nat} (hm : ShortPath m)
    (h : readTableEntry file region meta_table m i = .ok m') : ShortPath m' := by
  unfold readTableEntry at h
  split at h
  · cases h
  · dsimp only at h
    split at h
    · cases h
    · split at h
      · cases h
      · split at h
        · cases h
        · exact shortPath_readItem hm h

theorem openParent_same {m m' : Meta} {files : Files} (h : m.openParent files = .ok m') : m' = m := by
  unfold Meta.openParent at h
  repeat' split at h
  all_goals
    cases h
  all_goals rfl

end Short

section Parent

/-- The value that ends with the locator is read only if its length does not fit. -/
theorem long_of_readKeyValue {entry_buf : Bytes} {m m' : Meta} {e : VhdxParentLocatorEntry}
    (hentry : 56 ≤ entry_buf.length → slice entry_buf 44 12 = e.bytes)
    (hlen : entry_buf.length = (e.ValueOffset + e.ValueLength) % 256 ^ 4) (h : readKeyValue entry_buf m 2 = .ok m') :
    256 ^ 2 ≤ e.ValueLength := by
  unfold readKeyValue at h
  split at h
  · cases h
  · next hin =>
    rw [hentry (by omega), locatorEntryAt_bytes] at h
    dsimp only at h
    split at h
    · cases h
    · split at h
      · cases h
      · next hvalue =>
        by_contra hshort
        rw [Nat.mod_eq_of_lt (Nat.not_le.mp hshort)] at hvalue
        omega

variable {file : Bytes} {fields : List (Nat × Bytes)} (hw : IsWritten file fields)

include hw

/-- The locator is read with the length that is written in the table, and its third
entry is the one that ends with the locator. -/
theorem IsWritten.long_of_readTableEntry {entries : List (Bytes × Bytes)} {a b c : Bytes × Bytes}
    (hentries : entries = [a, b, c]) (hfields : ∀ f ∈ locatorFields entries, f ∈ fields) {m m' : Meta}
    (h : vhdxmeta.readTableEntry file meta_table_region (slice file meta_region_offset (64 * 1024)) m 5 = .ok m') :
    256 ^ 2 ≤ c.2.length := by
  have hentry := hw.table (p := 192) (hfields _ List.mem_cons_self) (length_tableEntry (VhdxGUID.size _)) (by omega)
  have hcount : slice file (meta_region_offset + (64 * 1024 + 40 + 18)) 2 = leBytes 2 3 :=
    hw.value (hfields _ (by simp [locatorFields, hentries])) (length_leBytes 2 3)
  have hsize : parent_locator_size entries = 56 + textLength entries := by
    rw [parent_locator_size, hentries]
    rfl
  obtain ⟨e, he, hvalue, hend⟩ : ∃ e : VhdxParentLocatorEntry, (64 * 1024 + 40 + 44, e.bytes) ∈ locatorFields entries ∧
      e.ValueLength = c.2.length ∧ 56 + textLength entries = e.ValueOffset + e.ValueLength := by
    rw [hentries]
    refine ⟨⟨_, _, c.1.length, c.2.length⟩, List.mem_append_right _ (List.mem_cons_of_mem _ (List.mem_cons_of_mem _
      (List.mem_cons_of_mem _ (List.mem_cons_of_mem _ (List.mem_cons_of_mem _ (List.mem_cons_of_mem _
        List.mem_cons_self)))))), rfl, ?_⟩
    simp only [textLength_cons, List.length_cons, List.length_nil]
    rw [textLength, List.map_nil, List.sum_nil]
    omega
  rw [← hvalue]
  unfold vhdxmeta.readTableEntry at h
  split at h
  · cases h
  · rw [hentry, tableEntryAt_bytes (VhdxGUID.size _)] at h
    dsimp only at h
    split at h
    · cases h
    · split at h
      · cases h
      · split at h
        · cases h
        · next hlen =>
          rw [not_not] at hlen
          rw [readItem_locator _ rfl] at h
          generalize hbuf : slice file _ _ = entry_buf at h hlen
          unfold readLocator at h
          split at h
          · cases h
          · next hheader =>
            split at h
            · cases h
            · have hpart {p n : Nat} (hp : p + n ≤ entry_buf.length) :
                  slice entry_buf p n = slice file (meta_region_offset + (64 * 1024 + 40 + p)) n := by
                rw [← hbuf, slice_slice file (by omega), offset_region, Nat.mod_eq_of_lt (by omega), Nat.add_assoc]
              rw [hpart (by omega), hcount, leValue_leBytes (by omega)] at h
              obtain ⟨m₂, m₃, hthird⟩ := foldlM_ok_mem h (x := 2) (List.mem_range.mpr (by omega))
              refine long_of_readKeyValue (e := e) (fun hlong => ?_) ?_ hthird
              · rw [hpart (by omega)]
                exact hw.value (hfields _ he) (length_locatorEntry e)
              · rw [hlen, hsize, hend]

end Parent

section RoundTrip

theorem strGUID_ne_nil (g : VhdxGUID) : strGUID g ≠ [] := by
  unfold strGUID
  exact List.cons_ne_nil _ _

theorem not_recovers_parent (file : Bytes) (rawf_size : Int64) (block_size sector_size : UInt32) (p : ParentLocator) :
    ¬ Recovers file rawf_size block_size sector_size (some p) := by
  intro h
  obtain ⟨region, m, hregion, hread, -, -, -, -, -, hparent⟩ := h ⟨List.replicate 16 0, List.length_replicate⟩
    (fun _ => some (some p.guid)) (fun q hq => by
      cases hq
      exact Or.inl rfl)
  obtain ⟨region', hregion', hlen, hfields⟩ := getMetaRegion_fields rawf_size block_size sector_size (strGUID p.guid)
    p.rel_loc p.abs_loc ⟨List.replicate 16 0, List.length_replicate⟩
  rw [metaRegionOf, hregion'] at hregion
  cases hregion
  have hw := isWritten_overwrite file hlen hfields
  rw [regionFields, if_neg (strGUID_ne_nil _)] at hw
  have hcount : leValue (slice (slice (overwrite 0 file meta_region_offset region) meta_region_offset (64 * 1024)) 10 2) = 6 := by
    rw [hw.table (v := leBytes 2 6) (by simp [itemFields, strGUID_ne_nil]) (length_leBytes 2 6) (by omega),
      leValue_leBytes (by omega)]
  unfold readMeta at hread
  split at hread
  · cases hread
  · dsimp only at hread
    split at hread
    · cases hread
    · split at hread
      · cases hread
      · rw [offset_region, hcount] at hread
        split at hread
        · cases hread
        · next m' htable =>
          obtain rfl := openParent_same hread
          obtain ⟨m₁, m₂, hlast⟩ := foldlM_ok_mem htable (x := 5) (List.mem_range.mpr (by omega))
          have hlong := hw.long_of_readTableEntry rfl (fun f hf => List.mem_append_right _ hf) hlast
          have hshort : ShortPath m := foldlM_ok_invariant (fun _ _ _ => shortPath_readTableEntry)
            shortPath_unread htable
          rw [ShortPath, (hparent p rfl).2.1] at hshort
          dsimp only at hlong
          omega

/-- Exactly the images without a parent are read back. -/
theorem recovers_iff (file : Bytes) (rawf_size : Int64) (block_size sector_size : UInt32) (parent : Option ParentLocator) :
    Recovers file rawf_size block_size sector_size parent ↔
      parent = none ∧ block_size ≠ 0 ∧ sector_size ≠ 0 ∧ rawf_size ≠ -1 := by
  cases parent with
  | none => simpa using recovers_noParent file rawf_size block_size sector_size
  | some p => simpa using not_recovers_parent file rawf_size block_size sector_size p

def exampleParent : ParentLocator :=
  ⟨(guidsOf 2).DataWriteGuid, [112], [112]⟩

theorem not_recovers_example : ¬ Recovers [] 1048576 1048576 512 (some exampleParent) :=
  not_recovers_parent [] 1048576 1048576 512 exampleParent

end RoundTrip

end urbackup.vhdxmeta
