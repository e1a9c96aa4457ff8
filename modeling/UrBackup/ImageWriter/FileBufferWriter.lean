import UrBackup.FileData.IFile
import UrBackup.FileData.LittleEndian

namespace urbackup.imagewriter

open stringtools filedata

section Model

/-- A call of `writeBuffer`. An item without a buffer is trimmed. -/
structure BufferVHDItem where
  buf : Option Bytes
  pos : Nat
  bsize : Nat
  pos_lt : pos < 2 ^ 64
  bsize_lt : bsize < 2 ^ 32
  filled : ∀ b, buf = some b → b.length = bsize

/-- A call of `writeVHD`. -/
structure VHDWrite where
  pos : Nat
  buf : Option Bytes
  bsize : Nat
deriving DecidableEq

def BufferVHDItem.write (i : BufferVHDItem) : VHDWrite :=
  ⟨i.pos, i.buf, i.bsize⟩

structure FileBufferVHDItem where
  type : UInt8
  pos : Nat
  bsize : Nat
deriving DecidableEq

def sizeof_FileBufferVHDItem : Nat := 24

/-- The bytes between the fields of a `FileBufferVHDItem`, which are not initialized. -/
structure Padding where
  type : Bytes
  bsize : Bytes
  length_type : type.length = 7
  length_bsize : bsize.length = 4

def FileBufferVHDItem.bytes (item : FileBufferVHDItem) (pad : Padding) : Bytes :=
  item.type :: (pad.type ++ (leBytes 8 item.pos ++ (leBytes 4 item.bsize ++ pad.bsize)))

def FileBufferVHDItem.ofBytes (b : Bytes) : FileBufferVHDItem :=
  ⟨b.headD 0, leValue (slice b 8 8), leValue (slice b 16 4)⟩

/-- What the writer puts into a temporary file for an item. -/
def BufferVHDItem.record (i : BufferVHDItem) (pad : Padding) : Bytes :=
  match i.buf with
  | some buf => FileBufferVHDItem.bytes ⟨0, i.pos, i.bsize⟩ pad ++ buf
  | none => FileBufferVHDItem.bytes ⟨1, i.pos, i.bsize⟩ pad

/-- The reading of a temporary file: where the next record is, the type of that record
where it is known, and the size of the block buffer. -/
structure Replay where
  tmp : IFile
  tpos : Nat
  next_type : UInt8
  blockbuf_size : Nat
  written : List VHDWrite
  has_error : Bool

namespace Replay

variable (r : Replay)

/-- `setHasError` and the end of the loop. -/
def fail : Replay :=
  { r with has_error := true }

/-- A record is read with its header first. -/
def oldMethod : Replay :=
  let (head, tmp) := (r.tmp.Seek r.tpos).Read sizeof_FileBufferVHDItem
  let item := FileBufferVHDItem.ofBytes head
  let tpos := r.tpos + sizeof_FileBufferVHDItem
  if head.length ≠ sizeof_FileBufferVHDItem then r.fail
  else if item.type = 1 then
    { r with tmp := tmp, tpos := tpos, next_type := 255, written := r.written ++ [⟨item.pos, none, item.bsize⟩] }
  else if item.type = 0 then
    let tw := item.bsize
    if tpos + tw > r.tmp.content.length then r.fail
    else
      let blockbuf_size :=
        if (tw + 1) % 2 ^ 32 > r.blockbuf_size then (tw + 1 + sizeof_FileBufferVHDItem) % 2 ^ 32 else r.blockbuf_size
      let (blockbuf, tmp) := tmp.Read ((tw + 1) % 2 ^ 32)
      if blockbuf.length < tw then r.fail
      else
        { tmp := tmp
          tpos := tpos + tw
          next_type := if blockbuf.length = (tw + 1) % 2 ^ 32 then blockbuf.getD tw 0 else 255
          blockbuf_size := blockbuf_size
          written := r.written ++ [⟨item.pos, some (blockbuf.take tw), tw⟩]
          has_error := r.has_error }
  else r.fail

/-- One round of the loop. A data record is first read behind its type, with the type of
the record that follows. The byte of the block buffer in front is that of an earlier
record and not used. -/
def step : Replay :=
  if r.next_type ≠ 0 then r.oldMethod
  else
    let n := (r.blockbuf_size + 2 ^ 32 - 1) % 2 ^ 32
    let (got, tmp) := r.tmp.Read n
    let blockbuf := 0 :: got
    let item := FileBufferVHDItem.ofBytes blockbuf
    if got.length ≠ n then { r with tmp := tmp }.oldMethod
    else if n = item.bsize + sizeof_FileBufferVHDItem then
      { r with
        tmp := tmp
        tpos := r.tpos + item.bsize + sizeof_FileBufferVHDItem
        next_type := blockbuf.getD n 0
        written := r.written ++ [⟨item.pos, some (slice blockbuf sizeof_FileBufferVHDItem item.bsize), item.bsize⟩] }
    else { r with tmp := tmp }.oldMethod

def loop : Nat → Replay → Replay
  | 0, r => r
  | fuel + 1, r => if r.tpos < r.tmp.content.length && !r.has_error then loop fuel r.step else r

end Replay

/-- The replay of a temporary file. Each record has a byte at least. -/
def replay (tmp : Bytes) (blockbuf_size : Nat) (written : List VHDWrite) : Replay :=
  Replay.loop tmp.length
    { tmp := ⟨tmp, 0⟩, tpos := 0, next_type := 255, blockbuf_size := blockbuf_size, written := written, has_error := false }

end Model

section Records

theorem length_bytes (item : FileBufferVHDItem) (pad : Padding) : (item.bytes pad).length = sizeof_FileBufferVHDItem := by
  simp [FileBufferVHDItem.bytes, pad.length_type, pad.length_bsize, sizeof_FileBufferVHDItem]

theorem ofBytes_bytes {item : FileBufferVHDItem} (hpos : item.pos < 2 ^ 64) (hbsize : item.bsize < 2 ^ 32) (pad : Padding)
    (rest : Bytes) : FileBufferVHDItem.ofBytes (item.bytes pad ++ rest) = item := by
  have hsplit : item.bytes pad ++ rest = item.type :: pad.type ++ (leBytes 8 item.pos ++ (leBytes 4 item.bsize ++ (pad.bsize ++ rest))) := by
    simp [FileBufferVHDItem.bytes]
  have hlen : (item.type :: pad.type).length = 8 := by simp [pad.length_type]
  have hpos' : slice (item.bytes pad ++ rest) 8 8 = leBytes 8 item.pos := by
    rw [hsplit, slice, List.drop_left' hlen, List.take_left' (length_leBytes 8 _)]
  have hbsize' : slice (item.bytes pad ++ rest) 16 4 = leBytes 4 item.bsize := by
    rw [hsplit, slice, ← List.append_assoc (item.type :: pad.type), List.drop_left' (by simp [pad.length_type]),
      List.take_left' (length_leBytes 4 _)]
  rw [FileBufferVHDItem.ofBytes, hpos', hbsize', leValue_leBytes hpos, leValue_leBytes hbsize]
  rfl

/-- The records of some items. -/
def records (items : List (BufferVHDItem × Padding)) : Bytes :=
  items.flatMap fun i => i.1.record i.2

@[simp] theorem records_nil : records [] = [] :=
  rfl

@[simp] theorem records_cons (i : BufferVHDItem × Padding) (items : List (BufferVHDItem × Padding)) :
    records (i :: items) = i.1.record i.2 ++ records items :=
  rfl

theorem record_data {i : BufferVHDItem} {buf : Bytes} (h : i.buf = some buf) (pad : Padding) :
    i.record pad = FileBufferVHDItem.bytes ⟨0, i.pos, i.bsize⟩ pad ++ buf := by
  simp only [BufferVHDItem.record, h]

theorem record_trim {i : BufferVHDItem} (h : i.buf = none) (pad : Padding) :
    i.record pad = FileBufferVHDItem.bytes ⟨1, i.pos, i.bsize⟩ pad := by
  simp only [BufferVHDItem.record, h]

theorem length_record_pos (i : BufferVHDItem) (pad : Padding) : 0 < (i.record pad).length := by
  cases h : i.buf with
  | none => simp [record_trim h, length_bytes, sizeof_FileBufferVHDItem]
  | some buf => simp [record_data h, length_bytes, sizeof_FileBufferVHDItem]

theorem length_le_records (items : List (BufferVHDItem × Padding)) : items.length ≤ (records items).length := by
  induction items with
  | nil => exact Nat.le_refl 0
  | cons i items ih =>
    have := length_record_pos i.1 i.2
    rw [records_cons, List.length_append, List.length_cons]
    omega

/-- The first byte of a record is its type. -/
theorem head_records {items : List (BufferVHDItem × Padding)} (h : (records items)[0]? = some 0) :
    ∃ i pad rest buf, items = (i, pad) :: rest ∧ i.buf = some buf := by
  cases items with
  | nil => cases h
  | cons i items =>
    obtain ⟨i, pad⟩ := i
    cases hbuf : i.buf with
    | none =>
      rw [records_cons, record_trim hbuf] at h
      cases h
    | some buf => exact ⟨i, pad, items, buf, rfl, hbuf⟩

end Records

section Steps

/-- The sizes of a record and of the block buffer for it are unsigned integers. -/
def BufferVHDItem.Fits (i : BufferVHDItem) : Prop :=
  ∀ buf, i.buf = some buf → i.bsize + sizeof_FileBufferVHDItem + 1 < 2 ^ 32

/-- The items that are still to be read. Where the next one is known to be data, the
file stands behind its type. -/
structure Replay.At (r : Replay) (items : List (BufferVHDItem × Padding)) : Prop where
  content : r.tmp.content.drop r.tpos = records items
  next : r.next_type = 0 → r.tmp.pos = r.tpos + 1 ∧ (records items)[0]? = some 0
  size : sizeof_FileBufferVHDItem + 1 ≤ r.blockbuf_size
  size_lt : r.blockbuf_size < 2 ^ 32
  error : r.has_error = false

variable {r : Replay} {i : BufferVHDItem} {pad : Padding} {items : List (BufferVHDItem × Padding)}

theorem length_content (h : r.tmp.content.drop r.tpos = records ((i, pad) :: items)) :
    r.tmp.content.length = r.tpos + (records ((i, pad) :: items)).length := by
  have hpos := length_record_pos i pad
  have hlen := congrArg List.length h
  rw [records_cons, List.length_append, List.length_drop] at hlen
  rw [records_cons, List.length_append]
  dsimp only at hlen ⊢
  omega

theorem content_drop (h : r.tmp.content.drop r.tpos = records ((i, pad) :: items)) {n : Nat} (hn : (i.record pad).length = n) :
    r.tmp.content.drop (r.tpos + n) = records items := by
  rw [← List.drop_drop, h, records_cons, List.drop_left' hn]

theorem read_head (h : r.tmp.content.drop r.tpos = records ((i, pad) :: items)) {item : FileBufferVHDItem} {rest : Bytes}
    (hrecord : i.record pad = item.bytes pad ++ rest) :
    slice r.tmp.content r.tpos sizeof_FileBufferVHDItem = item.bytes pad := by
  rw [slice, h, records_cons, hrecord, List.append_assoc, List.take_left' (length_bytes item pad)]

/-- The type of the next record, where the file goes on. -/
theorem next_of_read {buf : Bytes} {n : Nat} (hbuf : buf.length = n) (rest : Bytes) :
    (if ((buf ++ rest).take (n + 1)).length = n + 1 then ((buf ++ rest).take (n + 1)).getD n 0 else 255) = 0 →
      ((buf ++ rest).take (n + 1)).length = n + 1 ∧ rest[0]? = some 0 := by
  cases rest with
  | nil => simp [hbuf]
  | cons b rest =>
    have hlen : ((buf ++ b :: rest).take (n + 1)).length = n + 1 := by
      simp only [List.length_take, List.length_append, List.length_cons, hbuf]
      omega
    rw [if_pos hlen]
    intro hzero
    refine ⟨hlen, ?_⟩
    rw [List.getD_eq_getElem?_getD, List.getElem?_take_of_lt (Nat.lt_succ_self n), List.getElem?_append_right (by omega), hbuf,
      Nat.sub_self] at hzero
    exact congrArg some hzero

section Record

variable (hcontent : r.tmp.content.drop r.tpos = records ((i, pad) :: items))

include hcontent

theorem oldMethod_trim (hbuf : i.buf = none) :
    r.oldMethod =
      { r with
        tmp := ⟨r.tmp.content, r.tpos + sizeof_FileBufferVHDItem⟩
        tpos := r.tpos + sizeof_FileBufferVHDItem
        next_type := 255
        written := r.written ++ [i.write] } := by
  have hhead := read_head hcontent (by rw [record_trim hbuf, List.append_nil])
  have hparse := @ofBytes_bytes ⟨1, i.pos, i.bsize⟩ i.pos_lt i.bsize_lt pad []
  rw [List.append_nil] at hparse
  simp only [Replay.oldMethod, IFile.Seek, IFile.Read, hhead, length_bytes, hparse, ne_eq, not_true_eq_false, if_false, if_true,
    BufferVHDItem.write, hbuf]

theorem oldMethod_data {buf : Bytes} (hbuf : i.buf = some buf)
    (hfits : i.Fits) :
    r.oldMethod =
      { tmp := ⟨r.tmp.content, r.tpos + sizeof_FileBufferVHDItem + ((buf ++ records items).take (i.bsize + 1)).length⟩
        tpos := r.tpos + sizeof_FileBufferVHDItem + i.bsize
        next_type :=
          if ((buf ++ records items).take (i.bsize + 1)).length = i.bsize + 1 then
            ((buf ++ records items).take (i.bsize + 1)).getD i.bsize 0
          else 255
        blockbuf_size := if i.bsize + 1 > r.blockbuf_size then i.bsize + 1 + sizeof_FileBufferVHDItem else r.blockbuf_size
        written := r.written ++ [i.write]
        has_error := r.has_error } := by
  have hlen := i.filled buf hbuf
  have hsmall := hfits buf hbuf
  have hhead := read_head hcontent (record_data hbuf pad)
  have hparse := @ofBytes_bytes ⟨0, i.pos, i.bsize⟩ i.pos_lt i.bsize_lt pad []
  rw [List.append_nil] at hparse
  have hbody : slice r.tmp.content (r.tpos + sizeof_FileBufferVHDItem) (i.bsize + 1) = (buf ++ records items).take (i.bsize + 1) := by
    rw [slice, ← List.drop_drop, hcontent, records_cons, record_data hbuf, List.append_assoc, List.drop_left' (length_bytes _ _)]
  have hroom : ¬ r.tpos + sizeof_FileBufferVHDItem + i.bsize > r.tmp.content.length := by
    rw [length_content hcontent, records_cons, record_data hbuf]
    simp only [List.length_append, length_bytes, hlen]
    omega
  have hread : ¬ ((buf ++ records items).take (i.bsize + 1)).length < i.bsize := by
    rw [List.length_take, List.length_append, hlen]
    omega
  have hone : (i.bsize + 1) % 2 ^ 32 = i.bsize + 1 := Nat.mod_eq_of_lt (by omega)
  have hsize : (i.bsize + 1 + sizeof_FileBufferVHDItem) % 2 ^ 32 = i.bsize + 1 + sizeof_FileBufferVHDItem :=
    Nat.mod_eq_of_lt (by omega)
  have htake : ((buf ++ records items).take (i.bsize + 1)).take i.bsize = buf := by
    rw [List.take_take, Nat.min_eq_left (Nat.le_succ _), List.take_left' hlen]
  have htype : ¬ (0 : UInt8) = 1 := by decide
  simp only [Replay.oldMethod, IFile.Seek, IFile.Read, hhead, length_bytes, hparse, ne_eq, not_true_eq_false, if_false, if_true,
    htype, hroom, hone, hsize, hbody, hread, htake, BufferVHDItem.write, hbuf]

/-- A record that is read with its header first. -/
theorem oldMethod_at
    (hsize : sizeof_FileBufferVHDItem + 1 ≤ r.blockbuf_size) (hsize_lt : r.blockbuf_size < 2 ^ 32) (herror : r.has_error = false)
    (hfits : i.Fits) :
    r.oldMethod.At items ∧ r.oldMethod.written = r.written ++ [i.write] ∧ r.oldMethod.tmp.content = r.tmp.content := by
  cases hbuf : i.buf with
  | none =>
    have hnext := content_drop hcontent (by rw [record_trim hbuf, length_bytes])
    rw [oldMethod_trim hcontent hbuf]
    exact ⟨⟨hnext, (fun h => nomatch h), hsize, hsize_lt, herror⟩, rfl, rfl⟩
  | some buf =>
    have hlen := i.filled buf hbuf
    have hsmall := hfits buf hbuf
    have hnext := content_drop hcontent (n := sizeof_FileBufferVHDItem + i.bsize)
      (by rw [record_data hbuf, List.length_append, length_bytes, hlen])
    rw [oldMethod_data hcontent hbuf hfits]
    refine ⟨⟨?_, fun h => ?_, ?_, ?_, herror⟩, rfl, rfl⟩
    · dsimp only
      rw [Nat.add_assoc]
      exact hnext
    · obtain ⟨hfull, hzero⟩ := next_of_read hlen (records items) h
      refine ⟨?_, hzero⟩
      dsimp only
      rw [hfull]
      omega
    · dsimp only
      split <;> omega
    · dsimp only
      split <;> omega

/-- The block buffer behind the type of a data record. -/
theorem read_ahead {buf : Bytes} (hbuf : i.buf = some buf)
    (n : Nat) : 0 :: slice r.tmp.content (r.tpos + 1) (sizeof_FileBufferVHDItem + n) =
      FileBufferVHDItem.bytes ⟨0, i.pos, i.bsize⟩ pad ++ (buf ++ records items).take (n + 1) := by
  have hfull : (records ((i, pad) :: items)).take (sizeof_FileBufferVHDItem + (n + 1)) =
      FileBufferVHDItem.bytes ⟨0, i.pos, i.bsize⟩ pad ++ (buf ++ records items).take (n + 1) := by
    rw [records_cons, record_data hbuf, List.append_assoc]
    have htake := @List.take_length_add_append _ (FileBufferVHDItem.bytes ⟨0, i.pos, i.bsize⟩ pad) (buf ++ records items)
      (i := n + 1)
    rwa [length_bytes] at htake
  rw [← hfull, ← Nat.add_assoc, records_cons, record_data hbuf, slice, ← List.drop_drop, hcontent, records_cons, record_data hbuf]
  rfl

theorem step_read_ahead {buf : Bytes}
    (hbuf : i.buf = some buf) (htype : r.next_type = 0) (hpos : r.tmp.pos = r.tpos + 1)
    (hsize : r.blockbuf_size = sizeof_FileBufferVHDItem + i.bsize + 1) (hsize_lt : r.blockbuf_size < 2 ^ 32)
    (hmore : records items ≠ []) :
    r.step =
      { r with
        tmp := ⟨r.tmp.content, r.tpos + 1 + (sizeof_FileBufferVHDItem + i.bsize)⟩
        tpos := r.tpos + i.bsize + sizeof_FileBufferVHDItem
        next_type := (records items).getD 0 0
        written := r.written ++ [i.write] } := by
  have hlen := i.filled buf hbuf
  have hn : (r.blockbuf_size + 2 ^ 32 - 1) % 2 ^ 32 = sizeof_FileBufferVHDItem + i.bsize := by omega
  have hahead := read_ahead hcontent hbuf i.bsize
  have htake : (buf ++ records items).take (i.bsize + 1) = buf ++ (records items).take 1 := by
    rw [← hlen, List.take_length_add_append]
  rw [htake] at hahead
  have hone : ((records items).take 1).length = 1 := by
    rw [List.length_take]
    exact Nat.min_eq_left (List.length_pos_iff.mpr hmore)
  have hgot : (slice r.tmp.content (r.tpos + 1) (sizeof_FileBufferVHDItem + i.bsize)).length = sizeof_FileBufferVHDItem + i.bsize := by
    have hcount := congrArg List.length hahead
    simp only [List.length_cons, List.length_append, length_bytes, hlen, hone] at hcount
    omega
  have hparse := @ofBytes_bytes ⟨0, i.pos, i.bsize⟩ i.pos_lt i.bsize_lt pad (buf ++ (records items).take 1)
  have hdata : slice (FileBufferVHDItem.bytes ⟨0, i.pos, i.bsize⟩ pad ++ (buf ++ (records items).take 1)) sizeof_FileBufferVHDItem i.bsize = buf := by
    rw [slice, List.drop_left' (length_bytes _ _), List.take_left' hlen]
  have hnext : (FileBufferVHDItem.bytes ⟨0, i.pos, i.bsize⟩ pad ++ (buf ++ (records items).take 1)).getD (sizeof_FileBufferVHDItem + i.bsize) 0 =
      (records items).getD 0 0 := by
    have hdata_length : (FileBufferVHDItem.bytes ⟨0, i.pos, i.bsize⟩ pad ++ buf).length = sizeof_FileBufferVHDItem + i.bsize := by
      rw [List.length_append, length_bytes, hlen]
    rw [← List.append_assoc, List.getD_eq_getElem?_getD, List.getElem?_append_right (Nat.le_of_eq hdata_length), hdata_length,
      Nat.sub_self, List.getElem?_take_of_lt Nat.one_pos, List.getD_eq_getElem?_getD]
  have hcomm : sizeof_FileBufferVHDItem + i.bsize = i.bsize + sizeof_FileBufferVHDItem := Nat.add_comm _ _
  simp only [Replay.step, htype, ne_eq, not_true_eq_false, if_false, hn, IFile.Read, hpos, hahead, hgot, hparse, hdata, hnext]
  rw [if_pos hcomm]
  simp only [BufferVHDItem.write, hbuf]

end Record

/-- Where the block buffer is not that of the record or nothing follows it, the record is
read again. -/
theorem step_not_ahead (h : r.At ((i, pad) :: items)) {buf : Bytes} (hbuf : i.buf = some buf) (htype : r.next_type = 0)
    (hslow : ¬ (r.blockbuf_size = sizeof_FileBufferVHDItem + i.bsize + 1 ∧ records items ≠ [])) :
    ∃ tmp : IFile, tmp.content = r.tmp.content ∧ r.step = ({ r with tmp := tmp } : Replay).oldMethod := by
  obtain ⟨hpos, -⟩ := h.next htype
  obtain ⟨m, hm⟩ := Nat.exists_eq_add_of_le h.size
  have hn : (r.blockbuf_size + 2 ^ 32 - 1) % 2 ^ 32 = sizeof_FileBufferVHDItem + m := by
    have := h.size_lt
    omega
  have hlen := i.filled buf hbuf
  have hahead := read_ahead h.content hbuf m
  have hparse := @ofBytes_bytes ⟨0, i.pos, i.bsize⟩ i.pos_lt i.bsize_lt pad ((buf ++ records items).take (m + 1))
  refine ⟨((r.tmp.Read (sizeof_FileBufferVHDItem + m)).2), rfl, ?_⟩
  simp only [Replay.step, htype, ne_eq, not_true_eq_false, if_false, hn, IFile.Read, hpos, hahead, hparse]
  split
  · rfl
  · next hgot =>
    refine if_neg fun heq => hslow ⟨by omega, fun hnone => ?_⟩
    have hcount := congrArg List.length hahead
    simp only [List.length_cons, List.length_append, length_bytes, hnone, List.append_nil, List.length_take, hlen] at hcount
    omega

/-- Each round writes the next item. -/
theorem step_at (h : r.At ((i, pad) :: items)) (hfits : i.Fits) :
    r.step.At items ∧ r.step.written = r.written ++ [i.write] ∧ r.step.tmp.content = r.tmp.content := by
  have hold : ∀ tmp : IFile, tmp.content = r.tmp.content →
      ({ r with tmp := tmp } : Replay).oldMethod.At items ∧ ({ r with tmp := tmp } : Replay).oldMethod.written = r.written ++ [i.write] ∧
        ({ r with tmp := tmp } : Replay).oldMethod.tmp.content = r.tmp.content := by
    intro tmp htmp
    have hcontent : tmp.content.drop r.tpos = records ((i, pad) :: items) := by rw [htmp, h.content]
    obtain ⟨hat, hwritten, hsame⟩ := oldMethod_at (r := { r with tmp := tmp }) hcontent h.size h.size_lt h.error hfits
    exact ⟨hat, hwritten, hsame.trans htmp⟩
  by_cases htype : r.next_type = 0
  · obtain ⟨hpos, hzero⟩ := h.next htype
    obtain ⟨i', pad', items', buf, heq, hbuf⟩ := head_records hzero
    obtain ⟨⟨rfl, rfl⟩, rfl⟩ : (i = i' ∧ pad = pad') ∧ items = items' := by simpa using heq
    by_cases hfast : r.blockbuf_size = sizeof_FileBufferVHDItem + i.bsize + 1 ∧ records items ≠ []
    · have hnext := content_drop h.content (n := i.bsize + sizeof_FileBufferVHDItem)
        (by rw [record_data hbuf, List.length_append, length_bytes, i.filled buf hbuf, Nat.add_comm])
      rw [step_read_ahead h.content hbuf htype hpos hfast.1 h.size_lt hfast.2]
      refine ⟨⟨?_, fun hnext_type => ⟨?_, ?_⟩, h.size, h.size_lt, h.error⟩, rfl, rfl⟩
      · dsimp only
        rw [Nat.add_assoc]
        exact hnext
      · dsimp only
        omega
      · dsimp only at hnext_type
        rw [List.getD_eq_getElem?_getD, List.getElem?_eq_getElem (List.length_pos_iff.mpr hfast.2)] at hnext_type
        rw [List.getElem?_eq_getElem (List.length_pos_iff.mpr hfast.2)]
        exact congrArg some hnext_type
    · -- the block buffer is not that of the record, or nothing follows it
      obtain ⟨tmp, htmp, heq⟩ := step_not_ahead h hbuf htype hfast
      rw [heq]
      exact hold tmp htmp
  · rw [Replay.step, if_pos htype]
    exact hold r.tmp rfl

theorem loop_at {fuel : Nat} (h : r.At items) (hfits : ∀ i ∈ items, i.1.Fits) (hfuel : items.length ≤ fuel) :
    (Replay.loop fuel r).written = r.written ++ items.map (·.1.write) ∧ (Replay.loop fuel r).has_error = false ∧
      sizeof_FileBufferVHDItem + 1 ≤ (Replay.loop fuel r).blockbuf_size ∧ (Replay.loop fuel r).blockbuf_size < 2 ^ 32 := by
  induction items generalizing r fuel with
  | nil =>
    have hend : Replay.loop fuel r = r := by
      cases fuel with
      | zero => rfl
      | succ fuel =>
        have hdone : r.tmp.content.length ≤ r.tpos := List.drop_eq_nil_iff.mp h.content
        rw [Replay.loop, if_neg]
        simp only [Bool.and_eq_true, decide_eq_true_eq, not_and]
        omega
    rw [hend]
    exact ⟨(List.append_nil _).symm, h.error, h.size, h.size_lt⟩
  | cons i items ih =>
    obtain ⟨i, pad⟩ := i
    cases fuel with
    | zero => cases hfuel
    | succ fuel =>
      obtain ⟨hat, hwritten, -⟩ := step_at h (hfits _ List.mem_cons_self)
      have hmore : r.tpos < r.tmp.content.length := by
        have := length_record_pos i pad
        rw [length_content h.content, records_cons, List.length_append]
        dsimp only
        omega
      rw [Replay.loop, if_pos (by simp [hmore, h.error])]
      obtain ⟨heq, hrest⟩ := ih hat (fun j hj => hfits j (List.mem_cons_of_mem _ hj)) (by simpa using hfuel)
      refine ⟨?_, hrest⟩
      rw [heq, hwritten, List.append_assoc]
      rfl

/-- The replay of a temporary file writes its items, whatever the block buffer is. -/
theorem replay_records (hfits : ∀ i ∈ items, i.1.Fits) {blockbuf_size : Nat} (hsize : sizeof_FileBufferVHDItem + 1 ≤ blockbuf_size)
    (hsize_lt : blockbuf_size < 2 ^ 32) (written : List VHDWrite) :
    (replay (records items) blockbuf_size written).written = written ++ items.map (·.1.write) ∧
      (replay (records items) blockbuf_size written).has_error = false ∧
      sizeof_FileBufferVHDItem + 1 ≤ (replay (records items) blockbuf_size written).blockbuf_size ∧
      (replay (records items) blockbuf_size written).blockbuf_size < 2 ^ 32 := by
  refine loop_at ⟨rfl, (fun h => nomatch h), hsize, hsize_lt, rfl⟩ hfits (length_le_records items)

end Steps

end urbackup.imagewriter
