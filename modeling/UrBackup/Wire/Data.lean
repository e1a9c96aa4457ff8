import UrBackup.FileData.Slices
import UrBackup.FileData.LittleEndian
import UrBackup.Wire.Varint

namespace urbackup.wire

open stringtools filedata

structure CWData where
  data : Bytes

namespace CWData

variable (w : CWData)

def addInt (ta : Int32) : CWData :=
  ⟨w.data ++ leBytes 4 ta.toUInt32.toNat⟩

def addUInt (ta : UInt32) : CWData :=
  ⟨w.data ++ leBytes 4 ta.toNat⟩

def addInt64 (ta : Int64) : CWData :=
  ⟨w.data ++ leBytes 8 ta.toUInt64.toNat⟩

def addUInt64 (ta : UInt64) : CWData :=
  ⟨w.data ++ leBytes 8 ta.toNat⟩

def addUShort (ta : UInt16) : CWData :=
  ⟨w.data ++ leBytes 2 ta.toNat⟩

def addChar (ta : Int8) : CWData :=
  ⟨w.data ++ [ta.toUInt8]⟩

def addUChar (ta : UInt8) : CWData :=
  ⟨w.data ++ [ta]⟩

/-- The number is written over the bytes that were added for it. -/
def addVarInt (ta : Int64) : CWData :=
  let cpos := w.data.length
  let needed_bytes := sqlite3VarintLen ta.toUInt64.toNat
  ⟨overwrite 0 (w.data ++ List.replicate needed_bytes 0) cpos (sqlite3PutVarint ta.toUInt64.toNat)⟩

def addString (ta : Bytes) : CWData :=
  let w := w.addUInt (UInt32.ofNat ta.length)
  if ta.isEmpty then w else ⟨w.data ++ ta⟩

def addString2 (ta : Bytes) : CWData :=
  let w := w.addVarInt (Int64.ofNat ta.length)
  if ta.isEmpty then w else ⟨w.data ++ ta⟩

end CWData

structure CRData where
  data : Bytes
  streampos : Nat
  datalen : Nat

namespace CRData

/-- At most this much of the data is looked at. -/
def max_datalen : Nat := 100 * 1024 * 1024

def max_strlen : Nat := 10 * 1024 * 1024

def set (c : Bytes) : CRData :=
  ⟨c, 0, min max_datalen c.length⟩

variable (r : CRData)

def getLeft : Nat :=
  (r.datalen - r.streampos) % 2 ^ 32

/-- A number of a fixed size. -/
def getFixed (size : Nat) : Option Nat × CRData :=
  if r.streampos + size > r.datalen then (none, r)
  else (some (leValue (slice r.data r.streampos size)), { r with streampos := r.streampos + size })

def getInt : Option Int32 × CRData :=
  (r.getFixed 4).map (Option.map fun n => (UInt32.ofNat n).toInt32) id

def getUInt : Option UInt32 × CRData :=
  (r.getFixed 4).map (Option.map UInt32.ofNat) id

def getInt64 : Option Int64 × CRData :=
  (r.getFixed 8).map (Option.map fun n => (UInt64.ofNat n).toInt64) id

def getUShort : Option UInt16 × CRData :=
  (r.getFixed 2).map (Option.map UInt16.ofNat) id

def getChar : Option Int8 × CRData :=
  (r.getFixed 1).map (Option.map fun n => (UInt8.ofNat n).toInt8) id

def getUChar : Option UInt8 × CRData :=
  (r.getFixed 1).map (Option.map UInt8.ofNat) id

def getVarInt : Option Int64 × CRData :=
  match sqlite3GetVarint (r.data.drop r.streampos) r.getLeft with
  | some (b, v) => (some (UInt64.ofNat v).toInt64, { r with streampos := r.streampos + b })
  | none => (none, r)

/-- The bytes of a string whose length was read. -/
def getBytes (strlen : Nat) : Option Bytes × CRData :=
  if strlen > max_strlen then (none, r)
  else if r.streampos + strlen > r.datalen then (none, r)
  else (some (slice r.data r.streampos strlen), { r with streampos := r.streampos + strlen })

def getStr : Option Bytes × CRData :=
  match r.getUInt with
  | (some strlen, r) => r.getBytes strlen.toNat
  | (none, r) => (none, r)

def getStr2 : Option Bytes × CRData :=
  match r.getVarInt with
  | (some strlen, r) => if strlen < 0 then (none, r) else r.getBytes strlen.toInt.toNat
  | (none, r) => (none, r)

end CRData

/-- What can be appended to a message. -/
inductive Field
  | int (ta : Int32)
  | uint (ta : UInt32)
  | int64 (ta : Int64)
  | uint64 (ta : UInt64)
  | ushort (ta : UInt16)
  | char (ta : Int8)
  | uchar (ta : UInt8)
  | varInt (ta : Int64)
  | string (ta : Bytes)
  | string2 (ta : Bytes)
  deriving DecidableEq

inductive FieldType
  | int | uint | int64 | uint64 | ushort | char | uchar | varInt | string | string2

def Field.type : Field → FieldType
  | .int _ => .int
  | .uint _ => .uint
  | .int64 _ => .int64
  | .uint64 _ => .uint64
  | .ushort _ => .ushort
  | .char _ => .char
  | .uchar _ => .uchar
  | .varInt _ => .varInt
  | .string _ => .string
  | .string2 _ => .string2

def CWData.add (w : CWData) : Field → CWData
  | .int ta => w.addInt ta
  | .uint ta => w.addUInt ta
  | .int64 ta => w.addInt64 ta
  | .uint64 ta => w.addUInt64 ta
  | .ushort ta => w.addUShort ta
  | .char ta => w.addChar ta
  | .uchar ta => w.addUChar ta
  | .varInt ta => w.addVarInt ta
  | .string ta => w.addString ta
  | .string2 ta => w.addString2 ta

/-- The getter for a field. Unsigned 64 bit numbers have none of their own. -/
def CRData.get (r : CRData) : FieldType → Option Field × CRData
  | .int => r.getInt.map (Option.map Field.int) id
  | .uint => r.getUInt.map (Option.map Field.uint) id
  | .int64 => r.getInt64.map (Option.map Field.int64) id
  | .uint64 => r.getInt64.map (Option.map fun ret => Field.uint64 ret.toUInt64) id
  | .ushort => r.getUShort.map (Option.map Field.ushort) id
  | .char => r.getChar.map (Option.map Field.char) id
  | .uchar => r.getUChar.map (Option.map Field.uchar) id
  | .varInt => r.getVarInt.map (Option.map Field.varInt) id
  | .string => r.getStr.map (Option.map Field.string) id
  | .string2 => r.getStr2.map (Option.map Field.string2) id

def CWData.addAll (w : CWData) (fields : List Field) : CWData :=
  fields.foldl CWData.add w

/-- The results of a sequence of getters. -/
def CRData.getAll (r : CRData) : List FieldType → List (Option Field) × CRData
  | [] => ([], r)
  | type :: types =>
    let got := r.get type
    let rest := got.2.getAll types
    (got.1 :: rest.1, rest.2)

section Add

/-- The bytes of a field. -/
def Field.bytes : Field → Bytes
  | .int ta => leBytes 4 ta.toUInt32.toNat
  | .uint ta => leBytes 4 ta.toNat
  | .int64 ta => leBytes 8 ta.toUInt64.toNat
  | .uint64 ta => leBytes 8 ta.toNat
  | .ushort ta => leBytes 2 ta.toNat
  | .char ta => [ta.toUInt8]
  | .uchar ta => [ta]
  | .varInt ta => sqlite3PutVarint ta.toUInt64.toNat
  | .string ta => leBytes 4 (UInt32.ofNat ta.length).toNat ++ ta
  | .string2 ta => sqlite3PutVarint (Int64.ofNat ta.length).toUInt64.toNat ++ ta

theorem addVarInt_eq (w : CWData) (ta : Int64) : w.addVarInt ta = ⟨w.data ++ sqlite3PutVarint ta.toUInt64.toNat⟩ := by
  have hlen := length_sqlite3PutVarint ta.toUInt64.toNat_lt
  rw [CWData.addVarInt, overwrite_append, hlen, List.drop_eq_nil_of_le (by simp), List.append_nil]

/-- A field is appended. -/
theorem add_eq (w : CWData) (f : Field) : w.add f = ⟨w.data ++ f.bytes⟩ := by
  cases f with
  | string ta =>
    cases ta with
    | nil => simp [CWData.add, CWData.addString, CWData.addUInt, Field.bytes]
    | cons b ta => simp [CWData.add, CWData.addString, CWData.addUInt, Field.bytes]
  | string2 ta =>
    cases ta with
    | nil => simp [CWData.add, CWData.addString2, addVarInt_eq, Field.bytes]
    | cons b ta => simp [CWData.add, CWData.addString2, addVarInt_eq, Field.bytes]
  | varInt ta => exact addVarInt_eq w ta
  | int ta => rfl
  | uint ta => rfl
  | int64 ta => rfl
  | uint64 ta => rfl
  | ushort ta => rfl
  | char ta => rfl
  | uchar ta => rfl

theorem addAll_eq (w : CWData) (fields : List Field) : w.addAll fields = ⟨w.data ++ fields.flatMap Field.bytes⟩ := by
  induction fields generalizing w with
  | nil => simp [CWData.addAll]
  | cons f fields ih =>
    have hrest := ih (w.add f)
    rw [add_eq] at hrest
    rw [CWData.addAll, List.foldl_cons, add_eq, List.flatMap_cons, ← List.append_assoc]
    exact hrest

end Add

section Get

/-- A reader between what it has read and what is left. -/
def CRData.between (done left : Bytes) : CRData :=
  ⟨done ++ left, done.length, (done ++ left).length⟩

/-- The bytes of a field of a fixed size are there. -/
theorem getFixed_between (done tail : Bytes) {bytes : Bytes} {size : Nat} (hsize : bytes.length = size) :
    (CRData.between done (bytes ++ tail)).getFixed size = (some (leValue bytes), CRData.between (done ++ bytes) tail) := by
  have hslice : slice (done ++ (bytes ++ tail)) done.length size = bytes := by
    rw [slice, List.drop_left, List.take_left' hsize]
  unfold CRData.getFixed
  rw [if_neg]
  · simp only [CRData.between, hslice, List.append_assoc, List.length_append, hsize]
  · simp only [CRData.between, List.length_append]
    omega

theorem getFixed_leBytes (done tail : Bytes) {k n : Nat} (hn : n < 256 ^ k) :
    (CRData.between done (leBytes k n ++ tail)).getFixed k = (some n, CRData.between (done ++ leBytes k n) tail) := by
  rw [getFixed_between _ _ (length_leBytes k n), leValue_leBytes hn]

theorem getFixed_byte (done tail : Bytes) (b : UInt8) :
    (CRData.between done ([b] ++ tail)).getFixed 1 = (some b.toNat, CRData.between (done ++ [b]) tail) := by
  rw [getFixed_between _ _ List.length_singleton]
  rfl

theorem getUInt_between (done tail : Bytes) (ta : UInt32) :
    (CRData.between done (leBytes 4 ta.toNat ++ tail)).getUInt =
      (some ta, CRData.between (done ++ leBytes 4 ta.toNat) tail) := by
  rw [CRData.getUInt, getFixed_leBytes _ _ ta.toNat_lt]
  show (some (UInt32.ofNat ta.toNat), _) = _
  rw [UInt32.ofNat_toNat]
  rfl

theorem getChar_between (done tail : Bytes) (ta : Int8) :
    (CRData.between done ([ta.toUInt8] ++ tail)).getChar = (some ta, CRData.between (done ++ [ta.toUInt8]) tail) := by
  rw [CRData.getChar, getFixed_byte, Prod.map, Option.map_some, UInt8.ofNat_toNat]
  rfl

/-- Nothing is left. -/
theorem getChar_end (done : Bytes) : (CRData.between done []).getChar = (none, CRData.between done []) := by
  rw [CRData.getChar, CRData.getFixed, if_pos]
  · rfl
  · simp [CRData.between]

theorem getInt64_between (done tail : Bytes) (ta : Int64) :
    (CRData.between done (leBytes 8 ta.toUInt64.toNat ++ tail)).getInt64 =
      (some ta, CRData.between (done ++ leBytes 8 ta.toUInt64.toNat) tail) := by
  rw [CRData.getInt64, getFixed_leBytes _ _ ta.toUInt64.toNat_lt, Prod.map, Option.map_some, UInt64.ofNat_toNat]
  rfl

theorem getVarInt_between (done tail : Bytes) (ta : Int64)
    (hlen : (done ++ (sqlite3PutVarint ta.toUInt64.toNat ++ tail)).length ≤ CRData.max_datalen) :
    (CRData.between done (sqlite3PutVarint ta.toUInt64.toNat ++ tail)).getVarInt =
      (some ta, CRData.between (done ++ sqlite3PutVarint ta.toUInt64.toNat) tail) := by
  have hleft : (CRData.between done (sqlite3PutVarint ta.toUInt64.toNat ++ tail)).getLeft =
      (sqlite3PutVarint ta.toUInt64.toNat ++ tail).length := by
    simp only [CRData.getLeft, CRData.between]
    simp only [CRData.max_datalen, List.length_append] at hlen ⊢
    omega
  have hget := sqlite3GetVarint_put ta.toUInt64.toNat_lt tail
    (show (sqlite3PutVarint ta.toUInt64.toNat).length ≤ (sqlite3PutVarint ta.toUInt64.toNat ++ tail).length by simp)
  have hdrop : (CRData.between done (sqlite3PutVarint ta.toUInt64.toNat ++ tail)).data.drop
      (CRData.between done (sqlite3PutVarint ta.toUInt64.toNat ++ tail)).streampos =
      sqlite3PutVarint ta.toUInt64.toNat ++ tail := List.drop_left
  unfold CRData.getVarInt
  rw [hleft, hdrop, hget]
  simp [CRData.between]

theorem getBytes_between (done tail : Bytes) {ta : Bytes} (hta : ta.length ≤ CRData.max_strlen) :
    (CRData.between done (ta ++ tail)).getBytes ta.length = (some ta, CRData.between (done ++ ta) tail) := by
  have hslice : slice (done ++ (ta ++ tail)) done.length ta.length = ta := by
    rw [slice, List.drop_left, List.take_left]
  unfold CRData.getBytes
  rw [if_neg (by omega), if_neg]
  · simp only [CRData.between, hslice, List.append_assoc, List.length_append]
  · simp only [CRData.between, List.length_append]
    omega

theorem getStr_between (done tail : Bytes) {ta : Bytes} (hta : ta.length ≤ CRData.max_strlen) :
    (CRData.between done (leBytes 4 (UInt32.ofNat ta.length).toNat ++ ta ++ tail)).getStr =
      (some ta, CRData.between (done ++ (leBytes 4 (UInt32.ofNat ta.length).toNat ++ ta)) tail) := by
  have hcast : (UInt32.ofNat ta.length).toNat = ta.length := by
    rw [UInt32.toNat_ofNat']
    simp only [CRData.max_strlen] at hta
    omega
  rw [CRData.getStr, List.append_assoc, getUInt_between]
  show CRData.getBytes _ (UInt32.ofNat ta.length).toNat = _
  rw [hcast, getBytes_between _ tail hta, List.append_assoc]

theorem getStr2_between (done tail : Bytes) {ta : Bytes} (hta : ta.length ≤ CRData.max_strlen)
    (hlen : (done ++ (sqlite3PutVarint (Int64.ofNat ta.length).toUInt64.toNat ++ ta ++ tail)).length ≤
      CRData.max_datalen) :
    (CRData.between done (sqlite3PutVarint (Int64.ofNat ta.length).toUInt64.toNat ++ ta ++ tail)).getStr2 =
      (some ta, CRData.between (done ++ (sqlite3PutVarint (Int64.ofNat ta.length).toUInt64.toNat ++ ta)) tail) := by
  have hcast : (Int64.ofNat ta.length).toInt = ta.length := by
    rw [Int64.toInt_ofNat', Int.bmod_eq_of_le]
    · simp only [Int64.size]
      omega
    · simp only [Int64.size, CRData.max_strlen] at hta ⊢
      omega
  rw [List.append_assoc] at hlen
  rw [CRData.getStr2, List.append_assoc, getVarInt_between _ _ _ hlen]
  show (if Int64.ofNat ta.length < 0 then _ else CRData.getBytes _ (Int64.ofNat ta.length).toInt.toNat) = _
  rw [if_neg, hcast, Int.toNat_natCast, getBytes_between _ tail hta, List.append_assoc]
  rw [Int64.lt_iff_toInt_lt, hcast]
  simp

/-- Strings are not longer than the reader allows. -/
def Field.Fits : Field → Prop
  | .string ta => ta.length ≤ CRData.max_strlen
  | .string2 ta => ta.length ≤ CRData.max_strlen
  | _ => True

/-- A field is read back, whatever follows it. -/
theorem get_between (done tail : Bytes) {f : Field} (hfits : f.Fits)
    (hlen : (done ++ (f.bytes ++ tail)).length ≤ CRData.max_datalen) :
    (CRData.between done (f.bytes ++ tail)).get f.type = (some f, CRData.between (done ++ f.bytes) tail) := by
  cases f with
  | int ta =>
    have hlt : ta.toUInt32.toNat < 256 ^ 4 := ta.toUInt32.toNat_lt
    simp only [Field.type, CRData.get, CRData.getInt, Field.bytes, getFixed_leBytes _ _ hlt, Prod.map,
      Option.map_some, UInt32.ofNat_toNat]
    rfl
  | uint ta =>
    simp only [Field.type, CRData.get, Field.bytes, getUInt_between]
    rfl
  | int64 ta =>
    simp only [Field.type, CRData.get, Field.bytes, getInt64_between]
    rfl
  | uint64 ta =>
    have hlt : ta.toNat < 256 ^ 8 := ta.toNat_lt
    simp only [Field.type, CRData.get, CRData.getInt64, Field.bytes, getFixed_leBytes _ _ hlt, Prod.map,
      Option.map_some, UInt64.ofNat_toNat]
    rfl
  | ushort ta =>
    have hlt : ta.toNat < 256 ^ 2 := ta.toNat_lt
    simp only [Field.type, CRData.get, CRData.getUShort, Field.bytes, getFixed_leBytes _ _ hlt, Prod.map,
      Option.map_some, UInt16.ofNat_toNat]
    rfl
  | char ta =>
    simp only [Field.type, CRData.get, Field.bytes, getChar_between]
    rfl
  | uchar ta =>
    simp only [Field.type, CRData.get, CRData.getUChar, Field.bytes, getFixed_byte, Prod.map, Option.map_some,
      UInt8.ofNat_toNat]
    rfl
  | varInt ta =>
    simp only [Field.type, CRData.get, Field.bytes, getVarInt_between done tail ta hlen]
    rfl
  | string ta =>
    simp only [Field.type, CRData.get, Field.bytes, getStr_between done tail hfits]
    rfl
  | string2 ta =>
    simp only [Field.type, CRData.get, Field.bytes, getStr2_between done tail hfits hlen]
    rfl

/-- Fields are read back in order. -/
theorem getAll_between (done tail : Bytes) (fields : List Field) (hfits : ∀ f ∈ fields, f.Fits)
    (hlen : (done ++ (fields.flatMap Field.bytes ++ tail)).length ≤ CRData.max_datalen) :
    (CRData.between done (fields.flatMap Field.bytes ++ tail)).getAll (fields.map Field.type) =
      (fields.map some, CRData.between (done ++ fields.flatMap Field.bytes) tail) := by
  induction fields generalizing done with
  | nil => simp [CRData.getAll]
  | cons f fields ih =>
    rw [List.flatMap_cons, List.append_assoc] at hlen ⊢
    have hget := get_between done (fields.flatMap Field.bytes ++ tail) (hfits f List.mem_cons_self) hlen
    have hrest := ih (done ++ f.bytes) (fun g hg => hfits g (List.mem_cons_of_mem _ hg))
      (by rw [List.append_assoc]; exact hlen)
    rw [List.map_cons, List.map_cons, CRData.getAll, hget]
    dsimp only
    rw [hrest, List.append_assoc]

theorem set_eq_between {c : Bytes} (h : c.length ≤ CRData.max_datalen) : CRData.set c = CRData.between [] c := by
  rw [CRData.set, Nat.min_eq_right h]
  rfl

end Get

end urbackup.wire
