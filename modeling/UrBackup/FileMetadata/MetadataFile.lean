import UrBackup.ChunkHash.ChunkHasher
import UrBackup.ChunkPatch.Delivers
import UrBackup.Wire.Data

namespace urbackup.filemetadata

open stringtools filedata wire chunkpatch

section Model

def METADATA_MAGIC : UInt32 := 0xA4F04E41

structure FileMetadata where
  file_permissions : Bytes := []
  last_modified : Int64 := 0
  created : Int64 := 0
  accessed : Int64 := 0
  rsize : Int64 := 0
  shahash : Bytes := []
  orig_path : Bytes := []
  exist : Bool := false
deriving DecidableEq

namespace FileMetadata

def serialize (metadata : FileMetadata) (data : CWData) : CWData :=
  let data := data.addString metadata.shahash
  let data := data.addString metadata.orig_path
  let data := data.addString metadata.file_permissions
  let data := data.addVarInt metadata.last_modified
  let data := data.addVarInt metadata.created
  let data := data.addVarInt metadata.accessed
  data.addVarInt metadata.rsize

/-- `none` if one of the fields cannot be read. -/
def read (data : CRData) : Option FileMetadata :=
  let shahash := data.getStr
  let orig_path := shahash.2.getStr
  let file_permissions := orig_path.2.getStr
  let last_modified := file_permissions.2.getVarInt
  let created := last_modified.2.getVarInt
  let accessed := created.2.getVarInt
  let rsize := accessed.2.getVarInt
  do some {
    shahash := ← shahash.1, orig_path := ← orig_path.1, file_permissions := ← file_permissions.1
    last_modified := ← last_modified.1, created := ← created.1, accessed := ← accessed.1, rsize := ← rsize.1, exist := true }

end FileMetadata

/-- The size of the hash data in front of the metadata. -/
def get_hashdata_size (hashfilesize : Int) : Int :=
  if hashfilesize = -1 then chunkhash.chunkhash_file_off
  else
    let num_chunks := hashfilesize.tdiv chunkhash.c_checkpoint_dist
    let size := chunkhash.chunkhash_file_off + num_chunks * chunkhash.chunkhash_single_size
    let rest := hashfilesize.tmod chunkhash.c_checkpoint_dist
    if rest ≠ 0 then
      size + (chunkhash.big_hash_size + rest.tdiv chunkhash.c_small_hash_dist * chunkhash.small_hash_size +
        if rest.tmod chunkhash.c_small_hash_dist ≠ 0 then (chunkhash.small_hash_size : Int) else 0)
    else size

/-- A seek to a place in front of the file fails. -/
def seek (f : IFile) (pos : Int) : Option IFile :=
  if pos < 0 then none else some (f.Seek pos.toNat)

/-- The bytes that are asked for, or `none` if there are less. -/
def readAll (f : IFile) (n : Nat) : Option Bytes × IFile :=
  let (bytes, f) := f.Read n
  (if bytes.length = n then some bytes else none, f)

/-- Returns how much is written, too. There is enough space. -/
def write_metadata (out : IFile) (metadata : FileMetadata) : Nat × IFile :=
  let data : CWData := ⟨[]⟩
  let data := data.addUInt METADATA_MAGIC
  let data := data.addChar 0
  let data := metadata.serialize data
  let metadata_size := UInt32.ofNat data.data.length
  let out := out.Write (leBytes 4 metadata_size.toNat)
  (4 + data.data.length, out.Write data.data)

/-- The size of the metadata with its magic, `none` where there is none. -/
def sizeAndMagic (f : IFile) : Option Nat × IFile :=
  match readAll f 8 with
  | (none, f) => (none, f)
  | (some metadata_size_and_magic, f) =>
    if leValue (metadata_size_and_magic.take 4) = 0 then (none, f)
    else if leValue (metadata_size_and_magic.drop 4) ≠ METADATA_MAGIC.toNat then (none, f)
    else (some (leValue (metadata_size_and_magic.take 4)), f)

def get_metadata_size (f : IFile) : Nat × IFile :=
  let (size, f) := sizeAndMagic f
  (size.getD 0, f)

/-- `none` also where the size is too small for the magic, so that the buffer is left. -/
def read_metadata_values (f : IFile) : Option FileMetadata :=
  match sizeAndMagic f with
  | (none, _) => none
  | (some metadata_size, f) =>
    if metadata_size < 4 then none
    else
      match readAll f (metadata_size - 4) with
      | (none, _) => none
      | (some bytes, _) =>
        let (version, data) := (CRData.set (bytes ++ List.replicate 4 0)).getChar
        match version, FileMetadata.read data with
        | some version, some metadata => if version ≠ 0 then none else some metadata
        | _, _ => none

def read_metadata (content : Bytes) : Option FileMetadata :=
  match readAll ⟨content, 0⟩ 8 with
  | (none, _) => none
  | (some hashfilesize, f) =>
    if int64 hashfilesize ≠ -1 then
      -- Where the seek fails the file stays where it is.
      read_metadata_values ((seek f (get_hashdata_size (int64 hashfilesize))).getD f)
    else read_metadata_values f

/-- What is checked before old metadata is overwritten. Returns whether the file is to be truncated. -/
def checkSize (out : IFile) (hashdata_size : Int) (overwrite_existing : Bool) : Option Bool :=
  if (out.content.length : Int) ≠ hashdata_size then
    if ¬ overwrite_existing then none
    else do
      let out ← seek out hashdata_size
      let (metadata_size, out) := get_metadata_size out
      let size_should := hashdata_size + (metadata_size + 4 : Nat)
      if (out.content.length : Int) > size_should then
        let out ← seek out size_should
        let os_metadata_size ← (readAll out 8).1
        let size_should := size_should + int64 os_metadata_size
        if (out.content.length : Int) ≠ size_should then none else some true
      else if (out.content.length : Int) ≠ size_should then none
      else some false
  else some false

/-- Returns where the file is to be truncated, `-1` for nowhere, and the file; `none` for an error. -/
def writeToFile (content : Bytes) (metadata : FileMetadata) (overwrite_existing : Bool) : Option (Int × Bytes) :=
  if content.length = 0 then
    let out := IFile.Write ⟨content, 0⟩ (leBytes 8 (2 ^ 64 - 1))
    let (_, out) := write_metadata out metadata
    some (-1, out.content)
  else do
    let hashfilesize ← (readAll ⟨content, 0⟩ 8).1
    let hashdata_size := get_hashdata_size (int64 hashfilesize)
    let needs_truncate ← checkSize ⟨content, 8⟩ hashdata_size overwrite_existing
    let out ← seek ⟨content, 8⟩ hashdata_size
    let (written, out) := write_metadata out metadata
    some (if needs_truncate then hashdata_size + written else -1, out.content)

/-- `write_file_metadata` for a file by its name. -/
def write_file_metadata (content : Bytes) (metadata : FileMetadata) (overwrite_existing : Bool) : Option Bytes := do
  let (truncate_to_bytes, content) ← writeToFile content metadata overwrite_existing
  if truncate_to_bytes > 0 then some (IFile.Resize ⟨content, 0⟩ truncate_to_bytes.toNat).content else some content

end Model

section Spec

namespace FileMetadata

def fields (metadata : FileMetadata) : List Field :=
  [.string metadata.shahash, .string metadata.orig_path, .string metadata.file_permissions, .varInt metadata.last_modified,
    .varInt metadata.created, .varInt metadata.accessed, .varInt metadata.rsize]

/-- The metadata behind its size. -/
def bytes (metadata : FileMetadata) : Bytes :=
  leBytes 4 METADATA_MAGIC.toNat ++ ([0] ++ metadata.fields.flatMap Field.bytes)

/-- The metadata as it is in a file. -/
def record (metadata : FileMetadata) : Bytes :=
  leBytes 4 (UInt32.ofNat metadata.bytes.length).toNat ++ metadata.bytes

/-- No string is longer than what is read. -/
def Readable (metadata : FileMetadata) : Prop :=
  metadata.shahash.length ≤ CRData.max_strlen ∧ metadata.orig_path.length ≤ CRData.max_strlen ∧
    metadata.file_permissions.length ≤ CRData.max_strlen

end FileMetadata

/-- The hash data in a metadata file, whose size is by its first number. -/
structure IsHashdata (hashdata : Bytes) : Prop where
  len : 8 ≤ hashdata.length
  size : (hashdata.length : Int) = get_hashdata_size (int64 (hashdata.take 8))

/-- The part of the operating system, whose size counts the bytes for it, too. -/
def osPart : Option Bytes → Bytes
  | none => []
  | some os => leBytes 8 (8 + os.length) ++ os

end Spec

section Records

variable {metadata : FileMetadata} {f : IFile} {n pos : Nat} {bytes tail hashdata rest : Bytes}

theorem serialize_eq (metadata : FileMetadata) (data : CWData) :
    metadata.serialize data = ⟨data.data ++ metadata.fields.flatMap Field.bytes⟩ := by
  have hall : metadata.serialize data = data.addAll metadata.fields := rfl
  rw [hall, addAll_eq]

/-- The record goes over what was there. -/
theorem write_metadata_eq (metadata : FileMetadata) (hashdata rest : Bytes) :
    (write_metadata ⟨hashdata ++ rest, hashdata.length⟩ metadata).1 = metadata.record.length ∧
      (write_metadata ⟨hashdata ++ rest, hashdata.length⟩ metadata).2.content =
        hashdata ++ metadata.record ++ rest.drop metadata.record.length := by
  have hdata : (metadata.serialize ((CWData.addUInt ⟨[]⟩ METADATA_MAGIC).addChar 0)).data = metadata.bytes := by
    rw [serialize_eq]
    simp [CWData.addUInt, CWData.addChar, FileMetadata.bytes]
    rfl
  have hsize : (leBytes 4 (UInt32.ofNat metadata.bytes.length).toNat).length = 4 := length_leBytes 4 _
  unfold write_metadata
  simp only [hdata, IFile.Write]
  refine ⟨?_, ?_⟩
  · rw [FileMetadata.record, List.length_append, hsize]
  · have hpos : hashdata.length + (leBytes 4 (UInt32.ofNat metadata.bytes.length).toNat).length =
        (hashdata ++ leBytes 4 (UInt32.ofNat metadata.bytes.length).toNat).length := by
      rw [List.length_append]
    rw [overwrite_append, hpos, overwrite_append, List.drop_drop, FileMetadata.record, List.length_append]
    simp only [List.append_assoc]

theorem readAll_eq (h : f.content.drop f.pos = bytes ++ tail) :
    readAll f bytes.length = (some bytes, ⟨f.content, f.pos + bytes.length⟩) := by
  have hslice : slice f.content f.pos bytes.length = bytes := by
    rw [slice, h, List.take_left]
  simp [readAll, IFile.Read, hslice]

/-- The size and the magic of a record. -/
theorem sizeAndMagic_eq (hpos : 0 < n) (hn : n < 2 ^ 32)
    (h : f.content.drop f.pos = leBytes 4 n ++ (leBytes 4 METADATA_MAGIC.toNat ++ tail)) :
    sizeAndMagic f = (some n, ⟨f.content, f.pos + 8⟩) := by
  have hlen : (leBytes 4 n ++ leBytes 4 METADATA_MAGIC.toNat).length = 8 := by
    simp only [List.length_append, length_leBytes]
  have hread := @readAll_eq f (leBytes 4 n ++ leBytes 4 METADATA_MAGIC.toNat) tail (by rw [h, List.append_assoc])
  rw [hlen] at hread
  have hsize : leValue ((leBytes 4 n ++ leBytes 4 METADATA_MAGIC.toNat).take 4) = n := by
    rw [List.take_left' (length_leBytes 4 n), leValue_leBytes (by omega)]
  have hmagic : leValue ((leBytes 4 n ++ leBytes 4 METADATA_MAGIC.toNat).drop 4) = METADATA_MAGIC.toNat := by
    rw [List.drop_left' (length_leBytes 4 n), leValue_leBytes METADATA_MAGIC.toNat_lt]
  unfold sizeAndMagic
  simp only [hread, hsize, hmagic]
  rw [if_neg (by omega), if_neg (not_not_intro rfl)]

/-- All fields are read back. -/
theorem read_fields (done tail : Bytes) (hreadable : metadata.Readable)
    (hlen : (done ++ (metadata.fields.flatMap Field.bytes ++ tail)).length ≤ CRData.max_datalen) :
    FileMetadata.read (CRData.between done (metadata.fields.flatMap Field.bytes ++ tail)) = some { metadata with exist := true } := by
  have hfits : ∀ f ∈ metadata.fields, f.Fits := by
    obtain ⟨hshahash, horig_path, hfile_permissions⟩ := hreadable
    simp [FileMetadata.fields, Field.Fits, hshahash, horig_path, hfile_permissions]
  have hall := congrArg Prod.fst (getAll_between done tail metadata.fields hfits hlen)
  generalize CRData.between done (metadata.fields.flatMap Field.bytes ++ tail) = data at hall
  simp only [FileMetadata.fields, List.map_cons, Field.type, List.map_nil, CRData.getAll, CRData.get, Prod.map_fst,
    Prod.map_snd, id_eq, List.cons.injEq, Option.map_eq_some_iff, Field.string.injEq, exists_eq_right,
    Field.varInt.injEq, and_true] at hall
  obtain ⟨hshahash, horig_path, hfile_permissions, hlast_modified, hcreated, haccessed, hrsize⟩ := hall
  unfold FileMetadata.read
  simp only [hshahash, horig_path, hfile_permissions, hlast_modified, hcreated, haccessed, hrsize]
  rfl

theorem bytes_length (hreadable : metadata.Readable) : metadata.bytes.length + 4 ≤ CRData.max_datalen := by
  have hint (ta : Int64) : (sqlite3PutVarint ta.toUInt64.toNat).length ≤ 9 := length_sqlite3PutVarint_le ta.toUInt64.toNat_lt
  obtain ⟨hshahash, horig_path, hfile_permissions⟩ := hreadable
  have hlast_modified := hint metadata.last_modified
  have hcreated := hint metadata.created
  have haccessed := hint metadata.accessed
  have hrsize := hint metadata.rsize
  simp only [FileMetadata.bytes, FileMetadata.fields, Field.bytes, List.flatMap_cons, List.flatMap_nil, List.length_append,
    length_leBytes, List.length_singleton, List.length_nil, CRData.max_datalen, CRData.max_strlen] at *
  omega

theorem bytes_pos (metadata : FileMetadata) : 4 < metadata.bytes.length := by
  simp only [FileMetadata.bytes, List.length_append, length_leBytes, List.length_singleton]
  omega

theorem size_bytes (hsize : metadata.bytes.length < 2 ^ 32) : (UInt32.ofNat metadata.bytes.length).toNat = metadata.bytes.length := by
  rw [UInt32.toNat_ofNat', Nat.mod_eq_of_lt hsize]

theorem length_record (metadata : FileMetadata) : metadata.record.length = 4 + metadata.bytes.length := by
  rw [FileMetadata.record, List.length_append, length_leBytes]

/-- Where a record starts, its size and its magic are found. -/
theorem sizeAndMagic_record (hsize : metadata.bytes.length < 2 ^ 32) (h : f.content.drop f.pos = metadata.record ++ tail) :
    sizeAndMagic f = (some metadata.bytes.length, ⟨f.content, f.pos + 8⟩) := by
  have hpos := bytes_pos metadata
  have hsplit : metadata.record ++ tail = leBytes 4 metadata.bytes.length ++
      (leBytes 4 METADATA_MAGIC.toNat ++ ([0] ++ metadata.fields.flatMap Field.bytes ++ tail)) := by
    rw [FileMetadata.record, size_bytes hsize, List.append_assoc, ← List.append_assoc (leBytes 4 METADATA_MAGIC.toNat)]
    rfl
  exact sizeAndMagic_eq (by omega) hsize (h.trans hsplit)

/-- A record is read back. -/
theorem read_record (hreadable : metadata.Readable) (h : f.content.drop f.pos = metadata.record ++ tail) :
    read_metadata_values f = some { metadata with exist := true } := by
  have hlen := bytes_length hreadable
  have hpos := bytes_pos metadata
  have hsize : metadata.bytes.length < 2 ^ 32 := by
    simp only [CRData.max_datalen] at hlen
    omega
  have hrest : f.content.drop (f.pos + 8) = ([0] ++ metadata.fields.flatMap Field.bytes) ++ tail := by
    rw [← List.drop_drop, h, FileMetadata.record, FileMetadata.bytes, List.append_assoc, List.append_assoc,
      ← List.append_assoc (leBytes 4 _)]
    exact List.drop_left' (by simp only [List.length_append, length_leBytes])
  have hbytes : ([0] ++ metadata.fields.flatMap Field.bytes).length = metadata.bytes.length - 4 := by
    simp only [FileMetadata.bytes, List.length_append, length_leBytes]
    omega
  have hread := @readAll_eq ⟨f.content, f.pos + 8⟩ _ _ hrest
  rw [hbytes] at hread
  unfold read_metadata_values
  simp only [sizeAndMagic_record hsize h, hread]
  rw [if_neg (by omega)]
  have hset : CRData.set (([0] ++ metadata.fields.flatMap Field.bytes) ++ List.replicate 4 0) =
      CRData.between [] ([(0 : Int8).toUInt8] ++ (metadata.fields.flatMap Field.bytes ++ List.replicate 4 0)) := by
    rw [set_eq_between, List.append_assoc]
    · rfl
    · rw [List.length_append, hbytes, List.length_replicate]
      omega
  have hfields : FileMetadata.read (CRData.between ([] ++ [(0 : Int8).toUInt8])
      (metadata.fields.flatMap Field.bytes ++ List.replicate 4 0)) = some { metadata with exist := true } := by
    apply read_fields _ _ hreadable
    simp only [List.length_append, List.length_singleton, List.length_nil, List.length_replicate] at hbytes ⊢
    omega
  rw [hset, getChar_between]
  simp only [hfields]
  rfl

/-- What is read has no string that is longer than what is read. -/
theorem getStr_length {data : CRData} {ret : Bytes} (h : data.getStr.1 = some ret) : ret.length ≤ CRData.max_strlen := by
  have hbytes (data : CRData) (strlen : Nat) (h : (data.getBytes strlen).1 = some ret) : ret.length ≤ CRData.max_strlen := by
    unfold CRData.getBytes at h
    split at h
    · cases h
    · split at h
      · cases h
      · obtain rfl := Option.some.inj h
        rw [length_slice]
        omega
  unfold CRData.getStr at h
  split at h
  · exact hbytes _ _ h
  · cases h

theorem read_readable {data : CRData} (h : FileMetadata.read data = some metadata) : metadata.Readable := by
  unfold FileMetadata.read at h
  simp only [Option.bind_eq_bind, Option.bind_eq_some_iff, Option.some.injEq] at h
  obtain ⟨shahash, hshahash, orig_path, horig_path, file_permissions, hfile_permissions, _, _, _, _, _, _, _, _, rfl⟩ := h
  exact ⟨getStr_length hshahash, getStr_length horig_path, getStr_length hfile_permissions⟩

theorem read_metadata_readable {content : Bytes} (h : read_metadata content = some metadata) : metadata.Readable := by
  have hvalues (f : IFile) (h : read_metadata_values f = some metadata) : metadata.Readable := by
    unfold read_metadata_values at h
    split at h
    · cases h
    · split at h
      · cases h
      · split at h
        · cases h
        · simp only at h
          split at h
          next version metadata' _ hread =>
            split at h
            · cases h
            · exact read_readable (hread.trans h)
          next => cases h
  unfold read_metadata at h
  split at h
  · cases h
  · split at h
    · exact hvalues _ h
    · exact hvalues _ h

end Records

section Files

variable {metadata old : FileMetadata} {os : Option Bytes} {hashdata rest : Bytes}

theorem IsHashdata.header (h : IsHashdata hashdata) (rest : Bytes) :
    readAll ⟨hashdata ++ rest, 0⟩ 8 = (some (hashdata.take 8), ⟨hashdata ++ rest, 8⟩) := by
  have hlen : (hashdata.take 8).length = 8 := by
    rw [List.length_take]
    exact Nat.min_eq_left h.len
  have hread := @readAll_eq ⟨hashdata ++ rest, 0⟩ (hashdata.take 8) (hashdata.drop 8 ++ rest) (by
    rw [List.drop_zero, ← List.append_assoc, List.take_append_drop])
  rwa [hlen, Nat.zero_add] at hread

theorem seek_natCast (f : IFile) (pos : Nat) : seek f pos = some ⟨f.content, pos⟩ := by
  rw [seek, if_neg (by omega)]
  rfl

/-- Behind the hash data the record is read. -/
theorem read_metadata_record (h : IsHashdata hashdata) (hreadable : metadata.Readable) :
    read_metadata (hashdata ++ metadata.record) = some { metadata with exist := true } := by
  have hrecord : (hashdata ++ metadata.record).drop hashdata.length = metadata.record ++ [] := by
    rw [List.drop_left, List.append_nil]
  unfold read_metadata
  simp only [h.header, ← h.size, seek_natCast, Option.getD_some]
  split
  · exact read_record hreadable hrecord
  next hminus =>
    have hlen : hashdata.length = 8 := by
      have hsize := h.size
      rw [not_not.mp hminus, get_hashdata_size, if_pos rfl] at hsize
      exact_mod_cast hsize
    rw [hlen] at hrecord
    exact read_record hreadable hrecord

/-- Old metadata has the right size, and its file is truncated if there is something behind it. -/
theorem checkSize_old (hold : old.bytes.length < 2 ^ 32) (hos : ∀ bytes ∈ os, 8 + bytes.length < 2 ^ 63) (pos : Nat) :
    checkSize ⟨hashdata ++ (old.record ++ osPart os), pos⟩ hashdata.length true = some os.isSome := by
  have hlen := length_record old
  have hmagic := @sizeAndMagic_record old ⟨hashdata ++ (old.record ++ osPart os), hashdata.length⟩ (osPart os) hold List.drop_left
  have hshould : (hashdata.length : Int) + (old.bytes.length + 4 : Nat) = (hashdata ++ old.record).length := by
    rw [List.length_append, hlen]
    omega
  unfold checkSize
  rw [if_pos (by simp only [List.length_append, hlen]; omega), if_neg (by simp)]
  simp only [seek_natCast, Option.bind_eq_bind, Option.bind_some, get_metadata_size, hmagic, Option.getD_some, hshould]
  cases os with
  | none =>
    have htotal : (hashdata ++ (old.record ++ osPart none)).length = (hashdata ++ old.record).length := by
      simp [osPart]
    rw [htotal, if_neg (lt_irrefl _), if_neg (not_not_intro rfl)]
    rfl
  | some bytes =>
    have hos' := hos bytes rfl
    have htotal : (hashdata ++ (old.record ++ osPart (some bytes))).length = (hashdata ++ old.record).length + (8 + bytes.length) := by
      simp only [osPart, List.length_append, length_leBytes]
      omega
    have hread := @readAll_eq ⟨hashdata ++ (old.record ++ osPart (some bytes)), (hashdata ++ old.record).length⟩
      (leBytes 8 (8 + bytes.length)) bytes (by rw [← List.append_assoc, List.drop_left]; rfl)
    rw [length_leBytes] at hread
    rw [htotal, if_pos (by omega)]
    simp only [hread, Option.bind_some, int64_leBytes hos']
    rw [if_neg]
    · rfl
    · rw [not_not]
      norm_cast

/-- The file behind the call. -/
theorem write_file_metadata_eq (h : IsHashdata hashdata) (hold : old.bytes.length < 2 ^ 32)
    (hos : ∀ bytes ∈ os, 8 + bytes.length < 2 ^ 63) (metadata : FileMetadata) :
    write_file_metadata (hashdata ++ (old.record ++ osPart os)) metadata true =
      some (hashdata ++ metadata.record ++ if os.isSome then [] else old.record.drop metadata.record.length) := by
  have hne : (hashdata ++ (old.record ++ osPart os)).length ≠ 0 := by
    have hlen := h.len
    rw [List.length_append]
    omega
  obtain ⟨hwritten, hcontent⟩ := write_metadata_eq metadata hashdata (old.record ++ osPart os)
  have hwrite : writeToFile (hashdata ++ (old.record ++ osPart os)) metadata true =
      some (if os.isSome then ((hashdata ++ metadata.record).length : Int) else -1,
        hashdata ++ metadata.record ++ (old.record ++ osPart os).drop metadata.record.length) := by
    unfold writeToFile
    rw [if_neg hne]
    simp only [h.header, Option.bind_eq_bind, Option.bind_some, ← h.size, checkSize_old hold hos, seek_natCast, hwritten, hcontent]
    rw [List.length_append]
    push_cast
    rfl
  rw [write_file_metadata, hwrite]
  cases os with
  | none => simp [osPart]
  | some bytes =>
    have hpos : (0 : Int) < (hashdata ++ metadata.record).length := by
      have hlen := h.len
      rw [List.length_append]
      omega
    have hresize (ys : Bytes) : (IFile.Resize ⟨hashdata ++ metadata.record ++ ys, 0⟩ (hashdata ++ metadata.record).length).content =
        hashdata ++ metadata.record := by
      have hle : (hashdata ++ metadata.record).length - (hashdata ++ metadata.record ++ ys).length = 0 := by
        have hlen := @List.length_append _ (hashdata ++ metadata.record) ys
        omega
      rw [IFile.Resize]
      simp only [hle, List.take_left, List.replicate_zero, List.append_nil]
    simp only [Option.isSome_some, if_true, Option.bind_eq_bind, Option.bind_some, if_pos hpos, Int.toNat_natCast, hresize,
      List.append_nil]

/-- The new metadata is all that is behind the hash data just when it can be read, and the old one was not longer or
had a part of the operating system. -/
theorem write_file_metadata_iff (hashdata : Bytes) (old : FileMetadata) (os : Option Bytes) (metadata : FileMetadata)
    (h : IsHashdata hashdata) (hold : old.bytes.length < 2 ^ 32) (hos : ∀ bytes ∈ os, 8 + bytes.length < 2 ^ 63) :
    (∃ content, write_file_metadata (hashdata ++ (old.record ++ osPart os)) metadata true = some content ∧
      read_metadata content = some { metadata with exist := true } ∧ content = hashdata ++ metadata.record) ↔
      metadata.Readable ∧ (os.isSome ∨ old.record.length ≤ metadata.record.length) := by
  have hrest : (if os.isSome then [] else old.record.drop metadata.record.length) = [] ↔
      os.isSome ∨ old.record.length ≤ metadata.record.length := by
    cases os with
    | none => simp
    | some bytes => simp
  rw [write_file_metadata_eq h hold hos, ← hrest]
  constructor
  · rintro ⟨content, hwrite, hread, rfl⟩
    have hreadable := read_metadata_readable hread
    refine ⟨hreadable, ?_⟩
    exact List.append_right_eq_self.mp (Option.some.inj hwrite)
  · rintro ⟨hreadable, hnil⟩
    exact ⟨_, by rw [hnil, List.append_nil], read_metadata_record h hreadable, rfl⟩

theorem write_file_metadata_iff_small :
    (∃ content, write_file_metadata (leBytes 8 (2 ^ 64 - 1) ++ (FileMetadata.record { shahash := [1] } ++ osPart (some [7])))
        { accessed := 5 } true = some content ∧
      read_metadata content = some { accessed := 5, exist := true } ∧
      content = leBytes 8 (2 ^ 64 - 1) ++ FileMetadata.record { accessed := 5 }) ↔
      FileMetadata.Readable { accessed := 5 } ∧ ((some [(7 : UInt8)]).isSome ∨
        (FileMetadata.record { shahash := [1] }).length ≤ (FileMetadata.record { accessed := 5 }).length) :=
  write_file_metadata_iff (leBytes 8 (2 ^ 64 - 1)) { shahash := [1] } (some [7]) { accessed := 5 }
    ⟨by decide, by decide⟩ (by decide) (by simp)

/-- The end of longer metadata stays behind shorter one. -/
theorem write_file_metadata_leaves : ¬ ∀ (hashdata : Bytes) (old : FileMetadata) (os : Option Bytes) (metadata : FileMetadata),
    IsHashdata hashdata → old.bytes.length < 2 ^ 32 → (∀ bytes ∈ os, 8 + bytes.length < 2 ^ 63) →
    ∃ content, write_file_metadata (hashdata ++ (old.record ++ osPart os)) metadata true = some content ∧
      read_metadata content = some { metadata with exist := true } ∧ content = hashdata ++ metadata.record := by
  intro h
  obtain ⟨content, hwrite, _, hcontent⟩ := h (leBytes 8 (2 ^ 64 - 1)) { shahash := [1] } none {} ⟨by decide, by decide⟩ (by decide) (by simp)
  rw [hcontent] at hwrite
  revert hwrite
  decide +kernel

end Files

end urbackup.filemetadata
