import UrBackup.FileList.StringTools
import UrBackup.Framing.ZeroRuns

namespace urbackup.cryptoplugin

open stringtools

def iv_size : Nat := 12

def end_marker_zeros : Nat := 4

/-- The cipher of a key. `crypt` is what comes out for the next bytes of a
message, `tag` what comes out at its end and `decrypt` what a message with its
tag is decrypted to, if the tag is right. -/
structure Cipher where
  crypt : (iv plain data : Bytes) → Bytes
  tag : (iv plain : Bytes) → Bytes
  decrypt : (iv message : Bytes) → Option Bytes
  IncrementCounterByOne : Bytes → Bytes

namespace Cipher

variable (c : Cipher)

def cryptAll (iv : Bytes) : (plain : Bytes) → (pieces : List Bytes) → Bytes
  | _, [] => []
  | plain, data :: pieces => c.crypt iv plain data ++ cryptAll iv (plain ++ data) pieces

/-- A message that is put into the cipher piece by piece. -/
def encrypt (iv : Bytes) (pieces : List Bytes) : Bytes :=
  c.cryptAll iv [] pieces ++ c.tag iv pieces.flatten

/-- Messages one after the other, each with the next initialization vector. -/
def encryptAll : (iv : Bytes) → (messages : List (List Bytes)) → List Bytes
  | _, [] => []
  | iv, pieces :: messages => c.encrypt iv pieces :: encryptAll (c.IncrementCounterByOne iv) messages

def ivAfter (iv : Bytes) (n : Nat) : Bytes :=
  c.IncrementCounterByOne^[n] iv

/-- A message that was not changed is decrypted to what was encrypted. -/
structure Faithful : Prop where
  decrypt_encrypt : ∀ iv pieces, c.decrypt iv (c.encrypt iv pieces) = some pieces.flatten

end Cipher

/-- The filter in front of the cipher and its queue: what can still be retrieved
of the messages that ended and of the one that did not. -/
structure EncryptionFilter where
  iv : Bytes
  pieces : List Bytes
  finished : List Bytes
  pending : Bytes
  history : List (List Bytes)

namespace EncryptionFilter

variable (c : Cipher) (f : EncryptionFilter)

def Put (data : Bytes) : EncryptionFilter :=
  { f with pending := f.pending ++ c.crypt f.iv f.pieces.flatten data, pieces := f.pieces ++ [data] }

def MessageEnd : EncryptionFilter :=
  { f with
    finished := f.finished ++ [f.pending ++ c.tag f.iv f.pieces.flatten]
    pending := []
    pieces := []
    history := f.history ++ [f.pieces] }

/-- The bytes of the first message only. -/
def MaxRetrievable : Nat :=
  match f.finished with
  | [] => f.pending.length
  | first :: _ => first.length

def Get (n : Nat) : Bytes × EncryptionFilter :=
  match f.finished with
  | [] => (f.pending.take n, { f with pending := f.pending.drop n })
  | first :: rest => (first.take n, { f with finished := first.drop n :: rest })

def GetNextMessage : EncryptionFilter :=
  match f.finished with
  | [] :: rest => { f with finished := rest }
  | _ => f

end EncryptionFilter

structure AESGCMEncryption where
  encryption_filter : EncryptionFilter
  iv_done : Bool
  m_IV : Bytes
  m_orig_IV : Bytes
  end_markers : List Nat
  end_marker_state : Nat
  overhead_size : Nat
  message_size : Nat

namespace AESGCMEncryption

variable (c : Cipher) (e : AESGCMEncryption)

def construct (iv : Bytes) : AESGCMEncryption where
  encryption_filter := ⟨iv, [], [], [], []⟩
  iv_done := false
  m_IV := iv
  m_orig_IV := iv
  end_markers := []
  end_marker_state := 0
  overhead_size := 0
  message_size := 0

def flush : AESGCMEncryption :=
  let filter := e.encryption_filter.MessageEnd c
  let m_IV := c.IncrementCounterByOne e.m_IV
  { e with
    encryption_filter := { filter with iv := m_IV }
    end_markers := e.end_markers ++ [filter.MaxRetrievable]
    m_IV
    overhead_size := e.overhead_size + 16 }

def put (data : Bytes) : AESGCMEncryption :=
  let message_size := (e.message_size + data.length) % 2 ^ 64
  let e := { e with encryption_filter := e.encryption_filter.Put c data, message_size }
  if message_size > 2 * 1024 * 1024 * 1024 - 1 then e.flush c else e

/-- The size is that of the buffer before something is inserted into it. -/
def escapeEndMarker : (fuel : Nat) → AESGCMEncryption → (ret : Bytes) → (size i : Nat) → Bytes × AESGCMEncryption
  | 0, e, ret, _, _ => (ret, e)
  | fuel + 1, e, ret, size, i =>
    if i < size then
      if e.end_marker_state = 0 ∧ i + end_marker_zeros ≤ size ∧ ret[i + end_marker_zeros - 1]? ≠ some 0 then
        escapeEndMarker fuel e ret size (i + end_marker_zeros)
      else if ret[i]? = some 0 then
        if e.end_marker_state + 1 = end_marker_zeros then
          escapeEndMarker fuel { e with end_marker_state := 0, overhead_size := e.overhead_size + 1 }
            (ret.take (i + 1) ++ 2 :: ret.drop (i + 1)) size (i + 2)
        else escapeEndMarker fuel { e with end_marker_state := e.end_marker_state + 1 } ret size (i + 1)
      else escapeEndMarker fuel { e with end_marker_state := 0 } ret size (i + 1)
    else (ret, e)

def decEndMarkers (n : Nat) : AESGCMEncryption :=
  { e with end_markers := e.end_markers.map fun marker => (marker + 2 ^ 64 - n) % 2 ^ 64 }

/-- The length of the next output and whether a message ends with it. -/
def nextMarker : Nat × Bool × AESGCMEncryption :=
  match e.end_markers with
  | [] => (e.encryption_filter.MaxRetrievable, false, e)
  | marker :: end_markers => (marker, true, { e with end_markers })

/-- What `get` writes behind the initialization vector. -/
def retrieve (max_retrievable : Nat) (iv zeros : Bytes) : Bytes × AESGCMEncryption :=
  if max_retrievable > 0 then
    let (data, filter) := e.encryption_filter.Get max_retrievable
    let ret := iv ++ data ++ List.replicate (max_retrievable - data.length) 0 ++ zeros
    let size := iv.length + data.length
    let (ret, e) := escapeEndMarker size { e with encryption_filter := filter } ret size iv.length
    (ret, e.decEndMarkers data.length)
  else (iv ++ zeros, e)

def get : Bytes × AESGCMEncryption :=
  let (max_retrievable, add_end_marker, e) := e.nextMarker
  let zeros : Bytes := if add_end_marker then List.replicate (end_marker_zeros + 1) 0 else []
  let iv := if e.iv_done then [] else e.m_orig_IV
  let e := { e with iv_done := true, overhead_size := e.overhead_size + iv.length }
  let (ret, e) := e.retrieve max_retrievable iv zeros
  if add_end_marker then
    (ret.dropLast ++ [1],
      { e with
        end_marker_state := 0
        overhead_size := e.overhead_size + (end_marker_zeros + 1)
        encryption_filter := e.encryption_filter.GetNextMessage
        message_size := 0 })
  else (ret, e)

end AESGCMEncryption

/-- The filter in front of the other cipher: what it was given of the message
that has not ended, what it was given of the messages that did, and the
decrypted messages that can be retrieved. -/
structure DecryptionFilter where
  iv : Bytes
  current : Bytes
  ended : List Bytes
  messages : List Bytes

namespace DecryptionFilter

variable (c : Cipher) (f : DecryptionFilter)

def Put (data : Bytes) : DecryptionFilter :=
  { f with current := f.current ++ data }

/-- It is an exception if the tag is wrong. -/
def MessageEnd : Bool × DecryptionFilter :=
  let f' := { f with current := [], ended := f.ended ++ [f.current] }
  match c.decrypt f.iv f.current with
  | none => (false, f')
  | some message => (true, { f' with messages := f.messages ++ [message] })

end DecryptionFilter

structure AESGCMDecryption where
  decryption_filter : DecryptionFilter
  iv_buffer : Bytes
  iv_done : Bool
  end_marker_state : Nat
  overhead_bytes : Nat

/-- What `findAndUnescapeEndMarker` found. -/
structure Scanned where
  end_marker_pos : Option Nat
  has_error : Bool
  data_copy : Bytes
  has_copy : Bool
  escaped_zeros : Nat

namespace AESGCMDecryption

variable (c : Cipher) (d : AESGCMDecryption)

def construct : AESGCMDecryption where
  decryption_filter := ⟨[], [], [], []⟩
  iv_buffer := []
  iv_done := false
  end_marker_state := 0
  overhead_bytes := 0

def findAndUnescapeEndMarker : (fuel : Nat) → AESGCMDecryption → (data : Bytes) → (i : Nat) → Scanned → Scanned × AESGCMDecryption
  | 0, d, _, _, out => (out, d)
  | fuel + 1, d, data, i, out =>
    match data[i]? with
    | none => (out, d)
    | some ch =>
      if d.end_marker_state = 0 ∧ i + end_marker_zeros ≤ data.length ∧ data[i + end_marker_zeros - 1]? ≠ some 0 then
        findAndUnescapeEndMarker fuel d data (i + end_marker_zeros) out
      else if d.end_marker_state = end_marker_zeros then
        if ch = 2 then
          let data_copy := if out.data_copy.isEmpty then data else out.data_copy
          findAndUnescapeEndMarker fuel { d with end_marker_state := 0, overhead_bytes := d.overhead_bytes + 1 } data (i + 1)
            { out with
              data_copy := data_copy.eraseIdx (i - out.escaped_zeros)
              escaped_zeros := out.escaped_zeros + 1
              has_copy := true }
        else if ch = 1 then
          if i + 1 > out.escaped_zeros then
            ({ out with end_marker_pos := some (i + 1 - out.escaped_zeros) },
              { d with end_marker_state := 0, overhead_bytes := d.overhead_bytes + (end_marker_zeros + 1) })
          else ({ out with has_error := true }, { d with end_marker_state := 0 })
        else if ch ≠ 0 then ({ out with has_error := true }, d)
        else findAndUnescapeEndMarker fuel d data (i + 1) out
      else if ch = 0 then
        findAndUnescapeEndMarker fuel { d with end_marker_state := d.end_marker_state + 1 } data (i + 1) out
      else findAndUnescapeEndMarker fuel { d with end_marker_state := 0 } data (i + 1) out

/-- The initialization vector is at the start of the stream. -/
def readIV (data : Bytes) : Bytes × AESGCMDecryption :=
  let toread := min (iv_size - d.iv_buffer.length) data.length
  let d := { d with iv_buffer := d.iv_buffer ++ data.take toread }
  let data := data.drop toread
  if d.iv_buffer.length = iv_size then
    (data,
      { d with
        decryption_filter := { d.decryption_filter with iv := d.iv_buffer }
        iv_done := true
        overhead_bytes := d.overhead_bytes + d.iv_buffer.length })
  else (data, d)

/-- Zeros that may belong to an end marker are kept back. The difference with
the zeros kept back before is not one if it is negative: it wraps around. -/
def keepBack (data_size carry_zeros escaped_zeros : Nat) : Nat × Nat :=
  if d.end_marker_state > 0 then
    if data_size - escaped_zeros ≥ d.end_marker_state then (data_size - d.end_marker_state, carry_zeros)
    else if carry_zeros ≤ d.end_marker_state ∧ data_size - escaped_zeros ≥ d.end_marker_state - carry_zeros then
      (data_size - (d.end_marker_state - carry_zeros), 0)
    else (data_size, carry_zeros)
  else (data_size, carry_zeros)

/-- A buffer without an end marker. -/
def putPart (data : Bytes) (carry_zeros : Nat) (out : Scanned) : AESGCMDecryption :=
  let (data_size, carry_zeros) := d.keepBack data.length carry_zeros out.escaped_zeros
  let filter := d.decryption_filter.Put (List.replicate carry_zeros 0)
  let filter :=
    if out.has_copy = true ∧ data_size - out.escaped_zeros > 0 then filter.Put (out.data_copy.take (data_size - out.escaped_zeros))
    else if data_size > 0 then filter.Put (data.take data_size)
    else filter
  { d with decryption_filter := filter }

/-- A buffer with an end marker. -/
def putEnd (data : Bytes) (carry_zeros : Nat) (out : Scanned) (end_marker_pos : Nat) : Bool × AESGCMDecryption :=
  let filter :=
    if end_marker_pos > end_marker_zeros + 1 then
      let filter := d.decryption_filter.Put (List.replicate carry_zeros 0)
      if out.has_copy then filter.Put (out.data_copy.take (end_marker_pos - end_marker_zeros - 1))
      else filter.Put (data.take (end_marker_pos - end_marker_zeros - 1))
    else d.decryption_filter
  let (ok, filter) := filter.MessageEnd c
  if ok then
    let iv_buffer := c.IncrementCounterByOne d.iv_buffer
    (true,
      { d with
        decryption_filter := { filter with iv := iv_buffer }
        overhead_bytes := d.overhead_bytes + 16
        iv_buffer })
  else (false, { d with decryption_filter := filter })

def putData : (fuel : Nat) → AESGCMDecryption → (data : Bytes) → Bool × AESGCMDecryption
  | 0, d, _ => (true, d)
  | fuel + 1, d, data =>
    let carry_zeros := d.end_marker_state
    let (out, d) := findAndUnescapeEndMarker (data.length + 1) d data 0 ⟨none, false, [], false, 0⟩
    match out.end_marker_pos with
    | none => if out.has_error then (false, d) else (true, d.putPart data carry_zeros out)
    | some end_marker_pos =>
      match d.putEnd c data carry_zeros out end_marker_pos with
      | (false, d) => (false, d)
      | (true, d) =>
        if data.length > end_marker_pos then putData fuel d (data.drop (end_marker_pos + out.escaped_zeros))
        else (true, d)

/-- The calls that `put` makes of itself do not read an initialization vector. -/
def put (data : Bytes) : Bool × AESGCMDecryption :=
  if d.iv_done then d.putData c (data.length + 1) data
  else
    let (data, d) := d.readIV data
    if data = [] then (true, d)
    else if d.iv_buffer.length ≠ iv_size then (false, d)
    else d.putData c (data.length + 1) data

/-- The first message, if there is one. -/
def get : Option Bytes × AESGCMDecryption :=
  match d.decryption_filter.messages with
  | [] => (none, d)
  | message :: messages => (some message, { d with decryption_filter := { d.decryption_filter with messages } })

end AESGCMDecryption

end urbackup.cryptoplugin
