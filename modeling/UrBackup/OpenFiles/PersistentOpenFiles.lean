import Mathlib.Data.List.Lex
import UrBackup.FileData.IFile
import UrBackup.Maps.SortedMap
import UrBackup.Wire.Data

namespace urbackup.openfiles

open stringtools filedata wire maps

structure FileName where
  bytes : Bytes
  deriving DecidableEq

def FileName.codes (fn : FileName) : List Nat :=
  fn.bytes.map UInt8.toNat

theorem FileName.codes_injective : Function.Injective FileName.codes := by
  rintro ⟨a⟩ ⟨b⟩ h
  have hinj : Function.Injective UInt8.toNat := fun _ _ => UInt8.toNat_inj.mp
  exact congrArg FileName.mk (List.map_injective_iff.mpr hinj h)

/-- Strings are ordered by their bytes. -/
instance : LinearOrder FileName :=
  LinearOrder.lift' FileName.codes FileName.codes_injective

/-- The readings of a clock that does not go backwards. -/
structure Clock where
  getTimeMS : Nat → Int64
  not_negative : ∀ n, 0 ≤ getTimeMS n
  not_backwards : ∀ {m n}, m ≤ n → getTimeMS m ≤ getTimeMS n

/-- A clock at which no time passes. -/
def atRest : Clock :=
  ⟨fun _ => 0, fun _ => Int64.le_refl 0, fun _ => Int64.le_refl 0⟩

def PERSIST_ADD : Int8 := 0

def PERSIST_REMOVE : Int8 := 1

/-- `reads` counts the readings of the clock. Its file can always be opened. -/
structure PersistentOpenFiles where
  wdata : CWData
  persistf : IFile
  open_files : SortedMap FileName UInt32
  bytes_written : Nat
  bytes_deleted : Nat
  curr_id : UInt32
  reads : Nat

/-- An `unsigned long`, which has 32 bits on Windows. -/
def getDataSize (w : CWData) : Nat :=
  w.data.length % 2 ^ 32

namespace PersistentOpenFiles

variable (clock : Clock) (p : PersistentOpenFiles)

def removef (id : UInt32) (fn_size : Nat) : PersistentOpenFiles :=
  { p with
    wdata := ((p.wdata.addChar PERSIST_REMOVE).addInt64 (clock.getTimeMS p.reads)).addUInt id
    bytes_deleted := p.bytes_deleted + (1 + 8 + 4) + (1 + 8 + 4 + fn_size + 4)
    reads := p.reads + 1 }

def addf (fn : FileName) (id : UInt32) : PersistentOpenFiles :=
  { p with
    wdata := (((p.wdata.addChar PERSIST_ADD).addInt64 (clock.getTimeMS p.reads)).addString fn.bytes).addUInt id
    bytes_written := p.bytes_written + (1 + 8 + 4 + fn.bytes.length + 4)
    reads := p.reads + 1 }

/-- `cycle` is only called if `allow_cycle` is set. -/
def flushf_int (cycle : PersistentOpenFiles → Bool × PersistentOpenFiles) (allow_cycle : Bool) :
    Bool × PersistentOpenFiles :=
  if getDataSize p.wdata = 0 then (true, p)
  else if p.bytes_deleted > p.bytes_written * 2 ∧ allow_cycle then cycle { p with wdata := ⟨[]⟩ }
  else
    let p := { p with persistf := p.persistf.Write (p.wdata.data.take (getDataSize p.wdata)), wdata := ⟨[]⟩ }
    if p.persistf.content.length > 20 * 1024 * 1024 ∧ allow_cycle ∧ p.bytes_deleted > 5 * 1024 * 1024 then cycle p
    else (true, p)

/-- The open files are written to a new file, which takes the place of the old
one and is then opened with `MODE_RW`. -/
def cycle : Bool × PersistentOpenFiles :=
  let p := { p with persistf := ⟨[], 0⟩, bytes_deleted := 0, bytes_written := 0 }
  let p := p.open_files.entries.foldl (fun p e => p.addf clock e.1 e.2) p
  let p := (p.flushf_int (fun p => (false, p)) false).2
  (true, { p with persistf := ⟨p.persistf.content, 0⟩ })

def flushf : Bool × PersistentOpenFiles :=
  p.flushf_int (cycle clock) true

def get : List FileName :=
  p.open_files.entries.map Prod.fst

def remove (fn : FileName) : PersistentOpenFiles :=
  match p.open_files.find fn with
  | some id =>
    let p := p.removef clock id fn.bytes.length
    { p with open_files := p.open_files.erase fn }
  | none => p

def add (fn : FileName) : PersistentOpenFiles :=
  if p.open_files.find fn = none then
    let p := { p with curr_id := p.curr_id + 1, open_files := p.open_files.insert fn (p.curr_id + 1) }
    p.addf clock fn p.curr_id
  else p

end PersistentOpenFiles

/-- What is known while a file is loaded. -/
structure Loading where
  new_open_files : SortedMap FileName UInt32
  max_time : Int64
  curr_id : UInt32
  bytes_written : Nat
  bytes_deleted : Nat

/-- The rest of an added file; without data left loading fails. -/
def loadAdd (ctime : Int64) (pdata : CRData) (l : Loading) : Option CRData × Loading :=
  match pdata.getInt64 with
  | (none, _) => (none, l)
  | (some rec_time, pdata) =>
    match pdata.getStr with
    | (none, _) => (none, l)
    | (some fn, pdata) =>
      match pdata.getUInt with
      | (none, _) => (none, l)
      | (some id, pdata) =>
        let l := { l with
          new_open_files := l.new_open_files.insert ⟨fn⟩ id
          curr_id := max l.curr_id id
          max_time := max l.max_time rec_time }
        if l.max_time > ctime then (none, l)
        else (some pdata, { l with bytes_written := l.bytes_written + (1 + 8 + 4 + fn.length + 4) })

/-- The rest of a removed file, which has to be there. -/
def loadRemove (ctime : Int64) (pdata : CRData) (l : Loading) : Option CRData × Loading :=
  match pdata.getInt64 with
  | (none, _) => (none, l)
  | (some rec_time, pdata) =>
    match pdata.getUInt with
    | (none, _) => (none, l)
    | (some id, pdata) =>
      match l.new_open_files.entries.find? fun e => e.2 = id with
      | none => (none, l)
      | some it =>
        let l := { l with
          new_open_files := l.new_open_files.erase it.1
          bytes_deleted := l.bytes_deleted + (1 + 8 + 4) + (1 + 8 + 4 + it.1.bytes.length + 4)
          max_time := max l.max_time rec_time }
        if l.max_time > ctime then (none, l) else (some pdata, l)

def loadRecord (ctime : Int64) (id : Int8) (pdata : CRData) (l : Loading) : Option CRData × Loading :=
  if id = PERSIST_ADD then loadAdd ctime pdata l
  else if id = PERSIST_REMOVE then loadRemove ctime pdata l
  else (none, l)

/-- The loop over the records. Each of them has a byte at least. -/
def loadRecords (ctime : Int64) : Nat → CRData → Loading → Bool × Loading
  | 0, _, l => (false, l)
  | fuel + 1, pdata, l =>
    match pdata.getChar with
    | (none, _) => (true, l)
    | (some id, pdata) =>
      match loadRecord ctime id pdata l with
      | (none, l) => (false, l)
      | (some pdata, l) => loadRecords ctime fuel pdata l

namespace PersistentOpenFiles

variable (clock : Clock) (p : PersistentOpenFiles)

/-- The file is read to its end. -/
def load : Bool × PersistentOpenFiles :=
  let data := p.persistf.content
  let loaded := loadRecords (clock.getTimeMS p.reads) (data.length + 1) (CRData.set data)
    ⟨SortedMap.empty, 0, p.curr_id, 0, 0⟩
  let p := { p with
    persistf := ⟨data, data.length⟩
    curr_id := loaded.2.curr_id
    bytes_written := loaded.2.bytes_written
    bytes_deleted := loaded.2.bytes_deleted
    reads := p.reads + 1 }
  if loaded.1 then
    let max_time := loaded.2.max_time
    if max_time > clock.getTimeMS p.reads then (false, { p with reads := p.reads + 1 })
    else (true, { p with open_files := loaded.2.new_open_files, reads := p.reads + 1 })
  else (false, p)

/-- The constructor, where the file has some content. -/
def construct (content : Bytes) (reads : Nat) : PersistentOpenFiles :=
  let loaded := load clock ⟨⟨[]⟩, ⟨content, 0⟩, SortedMap.empty, 0, 0, 0, reads⟩
  if loaded.1 then loaded.2 else { loaded.2 with persistf := ⟨[], 0⟩ }

end PersistentOpenFiles

inductive Record
  | add (rec_time : Int64) (fn : FileName) (id : UInt32)
  | remove (rec_time : Int64) (id : UInt32)

namespace Record

def fields : Record → List Field
  | .add rec_time fn id => [.char PERSIST_ADD, .int64 rec_time, .string fn.bytes, .uint id]
  | .remove rec_time id => [.char PERSIST_REMOVE, .int64 rec_time, .uint id]

def bytes (r : Record) : Bytes :=
  r.fields.flatMap Field.bytes

def rec_time : Record → Int64
  | .add rec_time _ _ => rec_time
  | .remove rec_time _ => rec_time

/-- The name can be read again. -/
def Fits : Record → Prop
  | .add _ fn _ => fn.bytes.length ≤ CRData.max_strlen
  | .remove _ _ => True

/-- What a record does to the open files. -/
def apply (m : SortedMap FileName UInt32) : Record → Option (SortedMap FileName UInt32)
  | .add _ fn id => some (m.insert fn id)
  | .remove _ id => (m.entries.find? fun e => e.2 = id).map fun it => m.erase it.1

def replay (m : SortedMap FileName UInt32) (recs : List Record) : Option (SortedMap FileName UInt32) :=
  recs.foldlM apply m

theorem one_le_length_bytes (r : Record) : 1 ≤ r.bytes.length := by
  cases r <;> simp [bytes, fields, Field.bytes]

theorem length_le_length_bytes (recs : List Record) : recs.length ≤ (recs.flatMap bytes).length := by
  induction recs with
  | nil => exact Nat.le_refl _
  | cons r recs ih =>
    have hone := r.one_le_length_bytes
    rw [List.flatMap_cons, List.length_append, List.length_cons]
    omega

end Record

section Load

theorem max_le_time {a b c : Int64} (ha : a ≤ c) (hb : b ≤ c) : max a b ≤ c := by
  show (if a ≤ b then b else a) ≤ c
  split
  · exact hb
  · exact ha

theorem not_gt_time {a c : Int64} (h : a ≤ c) : ¬ a > c := by
  rw [gt_iff_lt, Int64.lt_iff_toInt_lt]
  rw [Int64.le_iff_toInt_le] at h
  omega

variable {ctime : Int64}

theorem loadAdd_between (done tail : Bytes) (l : Loading) (rec_time : Int64) {fn : FileName} (id : UInt32)
    (hfits : fn.bytes.length ≤ CRData.max_strlen) (hmax : l.max_time ≤ ctime) (htime : rec_time ≤ ctime) :
    ∃ l' : Loading, l'.new_open_files = l.new_open_files.insert fn id ∧ l'.max_time ≤ ctime ∧
      loadAdd ctime (CRData.between done ([Field.int64 rec_time, .string fn.bytes, .uint id].flatMap Field.bytes ++ tail))
        l = (some (CRData.between (done ++ [Field.int64 rec_time, .string fn.bytes, .uint id].flatMap Field.bytes) tail),
        l') := by
  refine ⟨⟨l.new_open_files.insert fn id, max l.max_time rec_time, max l.curr_id id,
    l.bytes_written + (1 + 8 + 4 + fn.bytes.length + 4), l.bytes_deleted⟩, rfl, max_le_time hmax htime, ?_⟩
  simp only [List.flatMap_cons, List.flatMap_nil, Field.bytes, List.append_nil]
  rw [loadAdd, List.append_assoc, getInt64_between]
  dsimp only
  rw [List.append_assoc, getStr_between _ _ hfits]
  dsimp only
  rw [getUInt_between]
  dsimp only
  rw [if_neg (not_gt_time (max_le_time hmax htime))]
  simp only [List.append_assoc]

theorem loadRemove_between (done tail : Bytes) (l : Loading) (rec_time : Int64) {id : UInt32}
    {it : FileName × UInt32} (hit : (l.new_open_files.entries.find? fun e => e.2 = id) = some it)
    (hmax : l.max_time ≤ ctime) (htime : rec_time ≤ ctime) :
    ∃ l' : Loading, l'.new_open_files = l.new_open_files.erase it.1 ∧ l'.max_time ≤ ctime ∧
      loadRemove ctime (CRData.between done ([Field.int64 rec_time, .uint id].flatMap Field.bytes ++ tail)) l =
        (some (CRData.between (done ++ [Field.int64 rec_time, .uint id].flatMap Field.bytes) tail), l') := by
  refine ⟨⟨l.new_open_files.erase it.1, max l.max_time rec_time, l.curr_id, l.bytes_written,
    l.bytes_deleted + (1 + 8 + 4) + (1 + 8 + 4 + it.1.bytes.length + 4)⟩, rfl, max_le_time hmax htime, ?_⟩
  simp only [List.flatMap_cons, List.flatMap_nil, Field.bytes, List.append_nil]
  rw [loadRemove, List.append_assoc, getInt64_between]
  dsimp only
  rw [getUInt_between]
  dsimp only
  rw [hit]
  dsimp only
  rw [if_neg (not_gt_time (max_le_time hmax htime))]
  simp only [List.append_assoc]

/-- A record is read and done. -/
theorem loadRecord_between (done tail : Bytes) (l : Loading) {r : Record} {m : SortedMap FileName UInt32}
    (happly : r.apply l.new_open_files = some m) (hfits : r.Fits) (hmax : l.max_time ≤ ctime)
    (htime : r.rec_time ≤ ctime) (fuel : Nat) :
    ∃ l' : Loading, l'.new_open_files = m ∧ l'.max_time ≤ ctime ∧
      loadRecords ctime (fuel + 1) (CRData.between done (r.bytes ++ tail)) l =
        loadRecords ctime fuel (CRData.between (done ++ r.bytes) tail) l' := by
  cases r with
  | add rec_time fn id =>
    obtain rfl : l.new_open_files.insert fn id = m := Option.some.inj happly
    obtain ⟨l', hm, hmax', hload⟩ := loadAdd_between (done ++ [PERSIST_ADD.toUInt8]) tail l rec_time id hfits hmax htime
    refine ⟨l', hm, hmax', ?_⟩
    rw [Record.bytes, Record.fields, List.flatMap_cons, List.append_assoc, loadRecords]
    simp only [Field.bytes, getChar_between, loadRecord, if_pos]
    rw [hload]
    simp only [List.append_assoc]
  | remove rec_time id =>
    obtain ⟨it, hit, rfl⟩ := Option.map_eq_some_iff.mp happly
    obtain ⟨l', hm, hmax', hload⟩ := loadRemove_between (done ++ [PERSIST_REMOVE.toUInt8]) tail l rec_time hit hmax htime
    refine ⟨l', hm, hmax', ?_⟩
    have hne : PERSIST_REMOVE ≠ PERSIST_ADD := by decide
    rw [Record.bytes, Record.fields, List.flatMap_cons, List.append_assoc, loadRecords]
    simp only [Field.bytes, getChar_between, loadRecord, if_neg hne, if_pos]
    rw [hload]
    simp only [List.append_assoc]

/-- The loop does the records one after the other. -/
theorem loadRecords_between (recs : List Record) (done : Bytes) (l : Loading) {m : SortedMap FileName UInt32}
    (hreplay : Record.replay l.new_open_files recs = some m) (hfits : ∀ r ∈ recs, r.Fits)
    (hmax : l.max_time ≤ ctime) (htime : ∀ r ∈ recs, r.rec_time ≤ ctime) {fuel : Nat} (hfuel : recs.length < fuel) :
    ∃ l' : Loading, l'.new_open_files = m ∧ l'.max_time ≤ ctime ∧
      loadRecords ctime fuel (CRData.between done (recs.flatMap Record.bytes)) l = (true, l') := by
  induction recs generalizing done l fuel with
  | nil =>
    obtain ⟨fuel, rfl⟩ := Nat.exists_eq_succ_of_ne_zero (Nat.ne_of_gt hfuel)
    refine ⟨l, Option.some.inj hreplay, hmax, ?_⟩
    rw [List.flatMap_nil, loadRecords, getChar_end]
  | cons r recs ih =>
    obtain ⟨fuel, rfl⟩ := Nat.exists_eq_succ_of_ne_zero (Nat.ne_of_gt (Nat.zero_lt_of_lt hfuel))
    rw [Record.replay, List.foldlM_cons] at hreplay
    obtain ⟨m₁, happly, hrest⟩ := Option.bind_eq_some_iff.mp hreplay
    obtain ⟨l₁, rfl, hmax₁, hstep⟩ := loadRecord_between done (recs.flatMap Record.bytes) l happly
      (hfits r List.mem_cons_self) hmax (htime r List.mem_cons_self) fuel
    obtain ⟨l', hm, hmax', hloop⟩ := ih (done ++ r.bytes) l₁ hrest
      (fun q hq => hfits q (List.mem_cons_of_mem _ hq)) hmax₁ (fun q hq => htime q (List.mem_cons_of_mem _ hq))
      (Nat.lt_of_succ_lt_succ hfuel)
    exact ⟨l', hm, hmax', hstep.trans hloop⟩

end Load

end urbackup.openfiles
