import UrBackup.Wire.Data

namespace urbackup.wire

open stringtools filedata

structure FileMetadata where
  file_permissions : Bytes
  last_modified : Int64
  created : Int64
  accessed : Int64
  rsize : Int64
  shahash : Bytes
  has_orig_path : Bool
  orig_path : Bytes
  exist : Bool

namespace FileMetadata

def serialize (m : FileMetadata) (data : CWData) : CWData :=
  let data := data.addString m.shahash
  let data := data.addString m.orig_path
  let data := data.addString m.file_permissions
  let data := data.addVarInt m.last_modified
  let data := data.addVarInt m.created
  let data := data.addVarInt m.accessed
  data.addVarInt m.rsize

/-- Reads on after a failure; a value that could not be read stays as it was. -/
def read (m : FileMetadata) (data : CRData) : Bool × FileMetadata × CRData :=
  let shahash := data.getStr
  let orig_path := shahash.2.getStr
  let file_permissions := orig_path.2.getStr
  let last_modified := file_permissions.2.getVarInt
  let created := last_modified.2.getVarInt
  let accessed := created.2.getVarInt
  let rsize := accessed.2.getVarInt
  let ok := shahash.1.isSome && orig_path.1.isSome && file_permissions.1.isSome && last_modified.1.isSome &&
    created.1.isSome && accessed.1.isSome && rsize.1.isSome
  (ok,
    { m with
      shahash := shahash.1.getD m.shahash
      orig_path := orig_path.1.getD m.orig_path
      file_permissions := file_permissions.1.getD m.file_permissions
      last_modified := last_modified.1.getD m.last_modified
      created := created.1.getD m.created
      accessed := accessed.1.getD m.accessed
      rsize := rsize.1.getD m.rsize
      exist := ok || m.exist }, rsize.2)

/-- The fields of the metadata in their order. -/
def fields (m : FileMetadata) : List Field :=
  [.string m.shahash, .string m.orig_path, .string m.file_permissions, .varInt m.last_modified, .varInt m.created,
    .varInt m.accessed, .varInt m.rsize]

/-- The strings are not longer than the reader allows. -/
structure Fits (m : FileMetadata) : Prop where
  shahash : m.shahash.length ≤ CRData.max_strlen
  orig_path : m.orig_path.length ≤ CRData.max_strlen
  file_permissions : m.file_permissions.length ≤ CRData.max_strlen

theorem Fits.fields {m : FileMetadata} (hfits : m.Fits) : ∀ f ∈ m.fields, f.Fits := by
  intro f hf
  simp only [FileMetadata.fields, List.mem_cons, List.not_mem_nil, or_false] at hf
  obtain rfl | rfl | rfl | rfl | rfl | rfl | rfl := hf
  · exact hfits.shahash
  · exact hfits.orig_path
  · exact hfits.file_permissions
  all_goals trivial

theorem serialize_eq (m : FileMetadata) (data : CWData) : m.serialize data = data.addAll m.fields := rfl

/-- Metadata that fits is far from the limit of the reader. -/
theorem length_fields {m : FileMetadata} (hfits : m.Fits) : (m.fields.flatMap Field.bytes).length ≤ CRData.max_datalen := by
  have hshahash := hfits.shahash
  have horig_path := hfits.orig_path
  have hfile_permissions := hfits.file_permissions
  have hlast_modified := length_sqlite3PutVarint_le m.last_modified.toUInt64.toNat_lt
  have hcreated := length_sqlite3PutVarint_le m.created.toUInt64.toNat_lt
  have haccessed := length_sqlite3PutVarint_le m.accessed.toUInt64.toNat_lt
  have hrsize := length_sqlite3PutVarint_le m.rsize.toUInt64.toNat_lt
  simp only [fields, List.flatMap_cons, List.flatMap_nil, Field.bytes, List.length_append, List.length_nil, length_leBytes,
    CRData.max_datalen, CRData.max_strlen] at *
  omega

/-- The metadata is read back, into whatever was there before. -/
theorem read_between (m before : FileMetadata) (done tail : Bytes) (hfits : m.Fits)
    (hlen : (done ++ (m.fields.flatMap Field.bytes ++ tail)).length ≤ CRData.max_datalen) :
    before.read (CRData.between done (m.fields.flatMap Field.bytes ++ tail)) =
      (true, { m with exist := true, has_orig_path := before.has_orig_path },
        CRData.between (done ++ m.fields.flatMap Field.bytes) tail) := by
  have hall := getAll_between done tail m.fields hfits.fields hlen
  generalize CRData.between done (m.fields.flatMap Field.bytes ++ tail) = data at hall
  simp only [fields, List.map_cons, List.map_nil, Field.type, CRData.getAll, CRData.get, Prod.map, id, Prod.mk.injEq,
    List.cons.injEq, Option.map_eq_some_iff, Field.string.injEq, Field.varInt.injEq, exists_eq_right, and_true] at hall
  obtain ⟨⟨hshahash, horig_path, hfile_permissions, hlast_modified, hcreated, haccessed, hrsize⟩, hrest⟩ := hall
  unfold read
  simp only [hshahash, horig_path, hfile_permissions, hlast_modified, hcreated, haccessed, hrsize, hrest]
  rfl

end FileMetadata

/-- What was appended to a message is read back by the same sequence of
getters, and nothing is left; in particular metadata. -/
theorem message_roundtrip (fields : List Field) (hfits : ∀ f ∈ fields, f.Fits)
    (hlen : ((CWData.mk []).addAll fields).data.length ≤ CRData.max_datalen) (m before : FileMetadata) (hm : m.Fits) :
    (∃ r, (CRData.set ((CWData.mk []).addAll fields).data).getAll (fields.map Field.type) = (fields.map some, r) ∧
      r.getLeft = 0) ∧
    ∃ r, before.read (CRData.set (m.serialize (CWData.mk [])).data) =
      (true, { m with exist := true, has_orig_path := before.has_orig_path }, r) ∧ r.getLeft = 0 := by
  have hleft : ∀ done : Bytes, (CRData.between done []).getLeft = 0 := by
    intro done
    simp [CRData.getLeft, CRData.between]
  rw [addAll_eq, List.nil_append] at hlen ⊢
  constructor
  · have hget := getAll_between [] [] fields hfits (by rwa [List.append_nil, List.nil_append])
    rw [List.append_nil] at hget
    rw [set_eq_between hlen, hget]
    exact ⟨_, rfl, hleft _⟩
  · rw [FileMetadata.serialize_eq, addAll_eq, List.nil_append, set_eq_between (FileMetadata.length_fields hm)]
    have hread := FileMetadata.read_between m before [] [] hm
      (by rw [List.append_nil, List.nil_append]; exact FileMetadata.length_fields hm)
    rw [List.append_nil] at hread
    exact ⟨_, hread, hleft _⟩

theorem message_roundtrip_negative :
    (∃ r, (CRData.set ((CWData.mk []).addAll [.varInt (-1), .string2 [104, 105], .int (-2)]).data).getAll
      [.varInt, .string2, .int] = ([some (.varInt (-1)), some (.string2 [104, 105]), some (.int (-2))], r) ∧
      r.getLeft = 0) ∧
    ∃ r, (FileMetadata.mk [] 0 0 0 0 [] false [] false).read
        (CRData.set ((FileMetadata.mk [112] (-1) 5 6 7 [1, 2] true [97] true).serialize (CWData.mk [])).data) =
      (true, FileMetadata.mk [112] (-1) 5 6 7 [1, 2] false [97] true, r) ∧ r.getLeft = 0 :=
  message_roundtrip [.varInt (-1), .string2 [104, 105], .int (-2)] (by simp [Field.Fits, CRData.max_strlen])
    (by rw [addAll_eq]; decide) (FileMetadata.mk [112] (-1) 5 6 7 [1, 2] true [97] true)
    (FileMetadata.mk [] 0 0 0 0 [] false [] false) ⟨by decide, by decide, by decide⟩

theorem get_uchar_some {r : CRData} {f : Field} (h : (r.get .uchar).1 = some f) :
    r.streampos + 1 ≤ r.datalen ∧ (r.get .uchar).2 = { r with streampos := r.streampos + 1 } := by
  unfold CRData.get CRData.getUChar CRData.getFixed at h ⊢
  dsimp only at h ⊢
  split at h
  · cases h
  · next hle =>
    rw [if_neg hle]
    exact ⟨Nat.not_lt.mp hle, rfl⟩

/-- As many bytes as were read must have been there. -/
theorem getAll_uchar (n : Nat) (r : CRData) (b : UInt8)
    (h : (r.getAll (List.replicate (n + 1) .uchar)).1 = List.replicate (n + 1) (some (.uchar b))) :
    r.streampos + (n + 1) ≤ r.datalen := by
  induction n generalizing r with
  | zero => exact (get_uchar_some (List.cons.inj h).1).1
  | succ n ih =>
    rw [List.replicate_succ, List.replicate_succ, CRData.getAll] at h
    obtain ⟨hfirst, hrest⟩ := List.cons.inj h
    obtain ⟨_, hnext⟩ := get_uchar_some hfirst
    rw [hnext] at hrest
    have hle := ih { r with streampos := r.streampos + 1 } hrest
    dsimp only at hle
    omega

/-- The reader does not look at more than its limit. -/
theorem message_roundtrip_long :
    let fields := List.replicate (CRData.max_datalen + 1) (Field.uchar 0)
    (∀ f ∈ fields, f.Fits) ∧
      ((CRData.set ((CWData.mk []).addAll fields).data).getAll (fields.map Field.type)).1 ≠ fields.map some := by
  intro fields
  constructor
  · intro f hf
    rw [List.eq_of_mem_replicate hf]
    trivial
  · intro hall
    rw [List.map_replicate, List.map_replicate] at hall
    have hread := getAll_uchar _ _ _ hall
    have hle : (CRData.set ((CWData.mk []).addAll fields).data).datalen ≤ CRData.max_datalen := Nat.min_le_left _ _
    have hpos : (CRData.set ((CWData.mk []).addAll fields).data).streampos = 0 := rfl
    omega

end urbackup.wire
