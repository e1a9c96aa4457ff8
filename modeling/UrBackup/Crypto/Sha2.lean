import UrBackup.BlockHash.Absorb
import UrBackup.FileData.LittleEndian
import UrBackup.FileData.Slices
import UrBackup.FileList.StringTools

namespace urbackup.sha2

open stringtools filedata

abbrev sha2_word64 := UInt64

def SHA512_BLOCK_LENGTH : Nat := 128

def SHA512_SHORT_BLOCK_LENGTH : Nat := SHA512_BLOCK_LENGTH - 16

def R (b x : sha2_word64) : sha2_word64 := x >>> b

/-- The source notes that `R` and `S` are named backwards: this one rotates. -/
def S64 (b x : sha2_word64) : sha2_word64 := x >>> b ||| x <<< (64 - b)

def Ch (x y z : sha2_word64) : sha2_word64 := (x &&& y) ^^^ (~~~x &&& z)

def Maj (x y z : sha2_word64) : sha2_word64 := (x &&& y) ^^^ (x &&& z) ^^^ (y &&& z)

def Sigma0_512 (x : sha2_word64) : sha2_word64 := S64 28 x ^^^ S64 34 x ^^^ S64 39 x

def Sigma1_512 (x : sha2_word64) : sha2_word64 := S64 14 x ^^^ S64 18 x ^^^ S64 41 x

def sigma0_512 (x : sha2_word64) : sha2_word64 := S64 1 x ^^^ S64 8 x ^^^ R 7 x

def sigma1_512 (x : sha2_word64) : sha2_word64 := S64 19 x ^^^ S64 61 x ^^^ R 6 x

def K512 : List sha2_word64 :=
  [0x428a2f98d728ae22, 0x7137449123ef65cd, 0xb5c0fbcfec4d3b2f, 0xe9b5dba58189dbbc, 0x3956c25bf348b538,
    0x59f111f1b605d019, 0x923f82a4af194f9b, 0xab1c5ed5da6d8118, 0xd807aa98a3030242, 0x12835b0145706fbe,
    0x243185be4ee4b28c, 0x550c7dc3d5ffb4e2, 0x72be5d74f27b896f, 0x80deb1fe3b1696b1, 0x9bdc06a725c71235,
    0xc19bf174cf692694, 0xe49b69c19ef14ad2, 0xefbe4786384f25e3, 0x0fc19dc68b8cd5b5, 0x240ca1cc77ac9c65,
    0x2de92c6f592b0275, 0x4a7484aa6ea6e483, 0x5cb0a9dcbd41fbd4, 0x76f988da831153b5, 0x983e5152ee66dfab,
    0xa831c66d2db43210, 0xb00327c898fb213f, 0xbf597fc7beef0ee4, 0xc6e00bf33da88fc2, 0xd5a79147930aa725,
    0x06ca6351e003826f, 0x142929670a0e6e70, 0x27b70a8546d22ffc, 0x2e1b21385c26c926, 0x4d2c6dfc5ac42aed,
    0x53380d139d95b3df, 0x650a73548baf63de, 0x766a0abb3c77b2a8, 0x81c2c92e47edaee6, 0x92722c851482353b,
    0xa2bfe8a14cf10364, 0xa81a664bbc423001, 0xc24b8b70d0f89791, 0xc76c51a30654be30, 0xd192e819d6ef5218,
    0xd69906245565a910, 0xf40e35855771202a, 0x106aa07032bbd1b8, 0x19a4c116b8d2d0c8, 0x1e376c085141ab53,
    0x2748774cdf8eeb99, 0x34b0bcb5e19b48a8, 0x391c0cb3c5c95a63, 0x4ed8aa4ae3418acb, 0x5b9cca4f7763e373,
    0x682e6ff3d6b2b8a3, 0x748f82ee5defb2fc, 0x78a5636f43172f60, 0x84c87814a1f0ab72, 0x8cc702081a6439ec,
    0x90befffa23631e28, 0xa4506cebde82bde9, 0xbef9a3f7b2c67915, 0xc67178f2e372532b, 0xca273eceea26619c,
    0xd186b8c721c0c207, 0xeada7dd6cde0eb1e, 0xf57d4f7fee6ed178, 0x06f067aa72176fba, 0x0a637dc5a2c898a6,
    0x113f9804bef90dae, 0x1b710b35131c471b, 0x28db77f523047d84, 0x32caab7b40c72493, 0x3c9ebe0a15c9bebc,
    0x431d67c49c100d4c, 0x4cc5d4becb3e42b6, 0x597f299cfc657e2a, 0x5fcb6fab3ad6faec, 0x6c44198c4a475817]

/-- The registers of the compression function. -/
structure State where
  a : sha2_word64
  b : sha2_word64
  c : sha2_word64
  d : sha2_word64
  e : sha2_word64
  f : sha2_word64
  g : sha2_word64
  h : sha2_word64

def sha512_initial_hash_value : State :=
  ⟨0x6a09e667f3bcc908, 0xbb67ae8584caa73b, 0x3c6ef372fe94f82b, 0xa54ff53a5f1d36f1,
    0x510e527fade682d1, 0x9b05688c2b3e6c1f, 0x1f83d9abfb41bd6b, 0x5be0cd19137e2179⟩

namespace State

def round (s : State) (k w : sha2_word64) : State :=
  let T1 := s.h + Sigma1_512 s.e + Ch s.e s.f s.g + k + w
  let T2 := Sigma0_512 s.a + Maj s.a s.b s.c
  ⟨T1 + T2, s.a, s.b, s.c, s.d + T1, s.e, s.f, s.g⟩

def add (s t : State) : State :=
  ⟨s.a + t.a, s.b + t.b, s.c + t.c, s.d + t.d, s.e + t.e, s.f + t.f, s.g + t.g, s.h + t.h⟩

def words (s : State) : List sha2_word64 :=
  [s.a, s.b, s.c, s.d, s.e, s.f, s.g, s.h]

end State

/-- A word is stored with its highest byte first. -/
def bigEndian (count value : Nat) : Bytes :=
  (leBytes count value).reverse

/-- The word of the message schedule for a round from the sixteenth on. -/
def expand (W512 : List sha2_word64) (j : Nat) : sha2_word64 :=
  let s0 := sigma0_512 (W512.getD ((j + 1) % 16) 0)
  let s1 := sigma1_512 (W512.getD ((j + 14) % 16) 0)
  W512.getD (j % 16) 0 + (s1 + W512.getD ((j + 9) % 16) 0 + s0)

def SHA512_Transform (state : State) (data : Bytes) : State :=
  let W512 := (List.range 16).map fun j => UInt64.ofNat (leValue (slice data (8 * j) 8).reverse)
  let start := (List.range 16).foldl (fun s j => s.round (K512.getD j 0) (W512.getD j 0)) state
  let (_, last) := (List.range' 16 64).foldl (fun (W512, s) j =>
    (W512.set (j % 16) (expand W512 j), s.round (K512.getD j 0) (expand W512 j))) (W512, start)
  state.add last

/-- The end of the message as `SHA512_Last` completes it. -/
def padding (length : Nat) : Bytes :=
  let usedspace := length % SHA512_BLOCK_LENGTH + 1
  let zeros := if usedspace ≤ SHA512_SHORT_BLOCK_LENGTH then SHA512_SHORT_BLOCK_LENGTH - usedspace
    else SHA512_BLOCK_LENGTH - usedspace + SHA512_SHORT_BLOCK_LENGTH
  0x80 :: List.replicate zeros 0 ++ bigEndian 16 (8 * length)

/-- The digest of a message that is given in any number of updates. -/
def sha512 (data : Bytes) : Bytes :=
  let message := data ++ padding data.length
  let state := (List.range (message.length / SHA512_BLOCK_LENGTH)).foldl (fun state i =>
    SHA512_Transform state (slice message (SHA512_BLOCK_LENGTH * i) SHA512_BLOCK_LENGTH)) sha512_initial_hash_value
  state.words.flatMap fun w => bigEndian 8 w.toNat

end urbackup.sha2

namespace urbackup.sha2

open stringtools filedata blockhash

variable {σ κ : Type}

section Definitions

/-- What the hash functions of the family differ in. `noBits`, `addBits`, `bits` and
`lengthBytes` are those of the counter: without bits, with some more, its low word, and
as it is stored. -/
structure Variant (σ κ : Type) extends Compression σ UInt8 where
  shortBlockLength : Nat
  schedule : Bytes → Bytes
  cleared : Nat
  noBits : κ
  addBits : κ → Nat → κ
  bits : κ → Nat
  lengthBytes : κ → Bytes

structure Context (σ κ : Type) where
  state : σ
  bitcount : κ
  buffer : Bytes

namespace Variant

variable (v : Variant σ κ)

def Init : Context σ κ where
  state := v.initial
  bitcount := v.noBits
  buffer := List.replicate v.blockLength 0

/-- The words of the schedule are in the buffer. -/
def Transform (context : Context σ κ) (data : Bytes) : Context σ κ :=
  { context with state := v.compress context.state data, buffer := v.schedule data }

/-- As many complete blocks as there are, and what is left over. -/
def blocks : Nat → (context : Context σ κ) → (data : Bytes) → Context σ κ × Bytes
  | 0, context, data => (context, data)
  | n + 1, context, data =>
    if v.blockLength ≤ data.length then
      let context := v.Transform context (data.take v.blockLength)
      blocks n { context with bitcount := v.addBits context.bitcount (v.blockLength * 8) } (data.drop v.blockLength)
    else (context, data)

def usedspace (context : Context σ κ) : Nat :=
  v.bits context.bitcount / 8 % v.blockLength

/-- Data is put behind what is used of the buffer. -/
def buffered (context : Context σ κ) (usedspace : Nat) (data : Bytes) : Context σ κ :=
  { context with
    buffer := overwrite 0 context.buffer usedspace data
    bitcount := v.addBits context.bitcount (data.length * 8) }

def Update (context : Context σ κ) (data : Bytes) : Context σ κ :=
  if data.length = 0 then context
  else
    let usedspace := v.usedspace context
    let freespace := v.blockLength - usedspace
    if 0 < usedspace ∧ data.length < freespace then v.buffered context usedspace data
    else
      let (context, data) :=
        if 0 < usedspace then
          let context := v.buffered context usedspace (data.take freespace)
          (v.Transform context context.buffer, data.drop freespace)
        else (context, data)
      let (context, data) := v.blocks data.length context data
      if 0 < data.length then v.buffered context 0 data else context

/-- The padding up to the length, behind a block that has no room for both. -/
def padded (context : Context σ κ) : Context σ κ :=
  let usedspace := v.usedspace context
  if 0 < usedspace then
    let buffer := overwrite 0 context.buffer usedspace [0x80]
    let usedspace := usedspace + 1
    if usedspace ≤ v.shortBlockLength then
      { context with buffer := overwrite 0 buffer usedspace (List.replicate (v.shortBlockLength - usedspace) 0) }
    else
      let buffer :=
        if usedspace < v.blockLength then overwrite 0 buffer usedspace (List.replicate (v.blockLength - usedspace) 0)
        else buffer
      let context := v.Transform context buffer
      { context with buffer := overwrite 0 context.buffer 0 (List.replicate v.cleared 0) }
  else
    { context with buffer := overwrite 0 (overwrite 0 context.buffer 0 (List.replicate v.shortBlockLength 0)) 0 [0x80] }

def Last (context : Context σ κ) : Context σ κ :=
  let lengthBytes := v.lengthBytes context.bitcount
  let context := v.padded context
  v.Transform context (overwrite 0 context.buffer v.shortBlockLength lengthBytes)

/-- What a counter of bits is for: it has the length of the message, up to the size of
its words. -/
structure Counts (counted : Nat → κ) (width : Nat) : Prop where
  noBits : v.noBits = counted 0
  addBits : ∀ n k, k ≤ v.blockLength → v.addBits (counted n) (k * 8) = counted (n + k)
  bits : ∀ n, v.bits (counted n) / 8 % v.blockLength = n % v.blockLength
  lengthBytes : ∀ n, v.lengthBytes (counted n) = bigEndian width (8 * n)
  room : v.shortBlockLength + width = v.blockLength
  short : 0 < v.shortBlockLength
  cleared : v.shortBlockLength ≤ v.cleared ∧ v.cleared ≤ v.blockLength
  schedule : ∀ data, (v.schedule data).length = v.blockLength

/-- The end of a message. -/
def paddingOf (width length : Nat) : Bytes :=
  let usedspace := length % v.blockLength + 1
  let zeros := if usedspace ≤ v.shortBlockLength then v.shortBlockLength - usedspace
    else v.blockLength - usedspace + v.shortBlockLength
  0x80 :: List.replicate zeros 0 ++ bigEndian width (8 * length)

/-- A context after a message: the buffer starts with the bytes that wait. -/
structure Ready (counted : Nat → κ) (context : Context σ κ) (message : Bytes) : Prop where
  holds : v.Holds context.state (context.buffer.take (message.length % v.blockLength)) message
  length : context.buffer.length = v.blockLength
  count : context.bitcount = counted message.length

end Variant

end Definitions

namespace Variant

variable {v : Variant σ κ} {counted : Nat → κ} {width : Nat} {context : Context σ κ} {message data : Bytes}

theorem Init_ready (h : v.Counts counted width) : v.Ready counted v.Init [] where
  holds := by
    rw [List.length_nil, Nat.zero_mod, List.take_zero]
    exact Compression.Holds.start _
  length := List.length_replicate
  count := h.noBits

/-- What is in the buffer behind the bytes that wait. -/
theorem Ready.take_buffered (hr : v.Ready counted context message)
    (hfits : message.length % v.blockLength + data.length ≤ v.blockLength) :
    (overwrite 0 context.buffer (message.length % v.blockLength) data).length = v.blockLength ∧
      (overwrite 0 context.buffer (message.length % v.blockLength) data).take (message.length % v.blockLength + data.length) =
        context.buffer.take (message.length % v.blockLength) ++ data := by
  have hlength := hr.length
  exact ⟨by rw [length_overwrite 0 (by omega), hlength], take_overwrite 0 (by omega) data⟩

/-- The last block is written up to its end. -/
theorem take_written {buffer front : Bytes} {p n : Nat} (htake : buffer.take p = front) (hp : p ≤ buffer.length) (data : Bytes)
    (hn : p + data.length = n) : (overwrite 0 buffer p data).take n = front ++ data := by
  rw [← hn, take_overwrite 0 hp, htake]

@[simp] theorem length_bigEndian (count value : Nat) : (bigEndian count value).length = count := by
  rw [bigEndian, List.length_reverse, length_leBytes]

variable (h : v.Counts counted width)

include h

theorem Ready.usedspace (hr : v.Ready counted context message) :
    v.usedspace context = message.length % v.blockLength := by
  rw [Variant.usedspace, hr.count, h.bits]

theorem Ready.keep (hr : v.Ready counted context message)
    (hshort : message.length % v.blockLength + data.length < v.blockLength) :
    v.Ready counted (v.buffered context (message.length % v.blockLength) data) (message ++ data) := by
  obtain ⟨hlength, htake⟩ := hr.take_buffered hshort.le
  have hpart := hr.holds.length_part
  have hmod : (message ++ data).length % v.blockLength = message.length % v.blockLength + data.length := by
    rw [List.length_append, ← Nat.mod_add_mod, Nat.mod_eq_of_lt hshort]
  refine ⟨?_, hlength, ?_⟩
  · rw [hmod, buffered, htake]
    exact hr.holds.keep (by rwa [hpart])
  · rw [buffered, hr.count, h.addBits _ _ (by omega), List.length_append]

theorem Ready.fill (hr : v.Ready counted context message)
    (hfull : message.length % v.blockLength + data.length = v.blockLength) :
    v.Ready counted (v.Transform (v.buffered context (message.length % v.blockLength) data)
      (v.buffered context (message.length % v.blockLength) data).buffer) (message ++ data) := by
  obtain ⟨hlength, htake⟩ := hr.take_buffered hfull.le
  have hpart := hr.holds.length_part
  have hmod : (message ++ data).length % v.blockLength = 0 := by
    rw [List.length_append, ← Nat.mod_add_mod, hfull, Nat.mod_self]
  rw [hfull, List.take_of_length_le hlength.le] at htake
  refine ⟨?_, h.schedule _, ?_⟩
  · rw [hmod, List.take_zero, Transform, buffered, htake]
    exact hr.holds.fill (by rwa [hpart])
  · rw [Transform, buffered, hr.count, h.addBits _ _ (by omega), List.length_append]

/-- Blocks that do not go through the buffer. -/
theorem blocks_ready {n : Nat} (hn : data.length ≤ n) (hr : v.Ready counted context message)
    (hwhole : message.length % v.blockLength = 0) :
    ∃ context' front rest, v.blocks n context data = (context', rest) ∧ data = front ++ rest ∧ rest.length < v.blockLength ∧
      (message ++ front).length % v.blockLength = 0 ∧ v.Ready counted context' (message ++ front) := by
  have hpos := v.pos
  induction n generalizing context data message with
  | zero => exact ⟨context, [], data, rfl, rfl, by omega, by rwa [List.append_nil], by rwa [List.append_nil]⟩
  | succ n ih =>
    rw [blocks]
    split
    · next hle =>
      have htake : (data.take v.blockLength).length = v.blockLength := by
        rw [List.length_take]
        omega
      have hmod : (message ++ data.take v.blockLength).length % v.blockLength = 0 := by
        rw [List.length_append, htake, Nat.add_mod_right, hwhole]
      have hready : v.Ready counted { v.Transform context (data.take v.blockLength) with
          bitcount := v.addBits (v.Transform context (data.take v.blockLength)).bitcount (v.blockLength * 8) }
          (message ++ data.take v.blockLength) := by
        have hholds := hr.holds
        rw [hwhole, List.take_zero] at hholds
        refine ⟨?_, h.schedule _, ?_⟩
        · rw [hmod, List.take_zero]
          exact hholds.fill (by rw [htake, List.length_nil, Nat.zero_add])
        · rw [Transform, hr.count, h.addBits _ _ (le_refl _), List.length_append, htake]
      have hdrop : (data.drop v.blockLength).length ≤ n := by
        rw [List.length_drop]
        omega
      obtain ⟨context', front, rest, hblocks, hsplit, hshort, hfront, hready'⟩ := ih hdrop hready hmod
      rw [List.append_assoc] at hfront hready'
      refine ⟨context', data.take v.blockLength ++ front, rest, hblocks, ?_, hshort, hfront, hready'⟩
      rw [List.append_assoc, ← hsplit, List.take_append_drop]
    · next hlt => exact ⟨context, [], data, rfl, rfl, by omega, by rwa [List.append_nil], by rwa [List.append_nil]⟩

/-- An update adds its data to the message. -/
theorem Ready.update (hr : v.Ready counted context message) (data : Bytes) :
    v.Ready counted (v.Update context data) (message ++ data) := by
  have hlt := Nat.mod_lt message.length v.pos
  have hrest : ∀ {context message data}, v.Ready counted context message → message.length % v.blockLength = 0 →
      v.Ready counted (match v.blocks data.length context data with
        | (context, data) => if 0 < data.length then v.buffered context 0 data else context) (message ++ data) := by
    intro context message data hr hwhole
    obtain ⟨context', front, rest, hblocks, hsplit, hshort, hfront, hready⟩ := blocks_ready h (le_refl data.length) hr hwhole
    rw [hblocks, hsplit, ← List.append_assoc]
    dsimp only
    split
    · have hkeep := hready.keep h (show (message ++ front).length % v.blockLength + rest.length < v.blockLength by omega)
      rwa [hfront] at hkeep
    · next hnil =>
      rw [List.eq_nil_of_length_eq_zero (show rest.length = 0 by omega), List.append_nil]
      exact hready
  rw [Update]
  split
  · next hnil => rwa [List.eq_nil_of_length_eq_zero hnil, List.append_nil]
  dsimp only
  rw [hr.usedspace h]
  split
  · next hfew => exact hr.keep h (by omega)
  split
  · next hmany hused =>
    have htake : (data.take (v.blockLength - message.length % v.blockLength)).length =
        v.blockLength - message.length % v.blockLength := by
      rw [List.length_take]
      omega
    have hfull := hr.fill h (show message.length % v.blockLength +
      (data.take (v.blockLength - message.length % v.blockLength)).length = v.blockLength by omega)
    have hwhole : (message ++ data.take (v.blockLength - message.length % v.blockLength)).length % v.blockLength = 0 := by
      rw [List.length_append, htake, ← Nat.mod_add_mod, Nat.add_sub_cancel' hlt.le, Nat.mod_self]
    have hall := @hrest _ _ (data.drop (v.blockLength - message.length % v.blockLength)) hfull hwhole
    rwa [List.append_assoc, List.take_append_drop] at hall
  · next hmany hused => exact hrest hr (by omega)

/-- Any number of updates. -/
theorem foldl_ready (chunks : List Bytes) (hr : v.Ready counted context message) :
    v.Ready counted (chunks.foldl v.Update context) (message ++ chunks.flatten) := by
  induction chunks generalizing context message with
  | nil => rwa [List.flatten_nil, List.append_nil]
  | cons chunk chunks ih =>
    rw [List.flatten_cons, ← List.append_assoc]
    exact ih (hr.update h chunk)

/-- The block that is transformed last. -/
theorem Last_state {front : Bytes} (hcount : context.bitcount = counted message.length)
    (hlength : (v.padded context).buffer.length = v.blockLength)
    (htake : (v.padded context).buffer.take v.shortBlockLength = front) :
    (v.Last context).state = v.compress (v.padded context).state (front ++ bigEndian width (8 * message.length)) := by
  have hroom := h.room
  have hall := take_written htake (by omega) (bigEndian width (8 * message.length)) (n := v.blockLength)
    (by rw [length_bigEndian]; exact hroom)
  rw [List.take_of_length_le (by rw [length_overwrite 0 (by rw [length_bigEndian]; omega), hlength])] at hall
  rw [Last, Transform, hcount, h.lengthBytes, hall]

/-- There is room for the length in the block of the message. -/
theorem Ready.padded_short (hr : v.Ready counted context message) {used : Nat}
    (hmod : message.length % v.blockLength = used) (hfits : used + 1 ≤ v.shortBlockLength) :
    (v.padded context).state = context.state ∧ (v.padded context).buffer.length = v.blockLength ∧
      (v.padded context).buffer.take v.shortBlockLength =
        context.buffer.take used ++ [0x80] ++ List.replicate (v.shortBlockLength - (used + 1)) 0 := by
  have hroom := h.room
  have hlength := hr.length
  have hused := hr.usedspace h
  rw [hmod] at hused
  rw [padded, hused]
  dsimp only
  by_cases hpos : 0 < used
  · have htake := take_written (show context.buffer.take used = _ from rfl) (by omega) [0x80] (n := used + 1) rfl
    have hfirst : (overwrite 0 context.buffer used [0x80]).length = v.blockLength := by
      rw [length_overwrite 0 (by rw [List.length_singleton]; omega), hlength]
    rw [if_pos hpos, if_pos hfits]
    refine ⟨rfl, ?_, take_written htake (by omega) _ (by rw [List.length_replicate]; omega)⟩
    rw [length_overwrite 0 (by rw [List.length_replicate]; omega), hfirst]
  · obtain rfl : used = 0 := by omega
    obtain ⟨zeros, hzeros⟩ : ∃ zeros, overwrite 0 context.buffer 0 (List.replicate v.shortBlockLength 0) = zeros := ⟨_, rfl⟩
    have hlong : zeros.length = v.blockLength := by
      rw [← hzeros, length_overwrite 0 (by rw [List.length_replicate]; omega), hlength]
    have htake : zeros.take v.shortBlockLength = List.replicate v.shortBlockLength 0 := by
      rw [← hzeros]
      exact take_written (List.take_zero ..) (by omega) _ (by rw [List.length_replicate]; omega)
    have hmark : overwrite 0 zeros 0 [0x80] = 0x80 :: zeros.drop 1 := overwrite_append 0 [] [0x80] zeros
    obtain ⟨n, hn⟩ : ∃ n, v.shortBlockLength = n + 1 := ⟨v.shortBlockLength - 1, by omega⟩
    rw [if_neg hpos, hzeros, hmark]
    refine ⟨rfl, ?_, ?_⟩
    · rw [List.length_cons, List.length_drop]
      omega
    · have hrest := congrArg (List.drop 1) htake
      rw [hn, List.drop_take, List.drop_replicate] at hrest
      rw [hn, List.take_succ_cons, Nat.add_sub_cancel] at *
      rw [hrest]
      rfl

/-- There is none, and the block of the message is transformed before. -/
theorem Ready.padded_long (hr : v.Ready counted context message) {used : Nat}
    (hmod : message.length % v.blockLength = used) (hover : ¬ used + 1 ≤ v.shortBlockLength) :
    (v.padded context).state = v.compress context.state
        (context.buffer.take used ++ [0x80] ++ List.replicate (v.blockLength - (used + 1)) 0) ∧
      (v.padded context).buffer.length = v.blockLength ∧
      (v.padded context).buffer.take v.shortBlockLength = List.replicate v.shortBlockLength 0 := by
  obtain ⟨hcleared, hinside⟩ := h.cleared
  have hshort := h.short
  have hlength := hr.length
  have hused := hr.usedspace h
  have hlt := Nat.mod_lt message.length v.pos
  rw [hmod] at hused hlt
  have htake := take_written (show context.buffer.take used = _ from rfl) (by omega) [0x80] (n := used + 1) rfl
  have hfirst : (overwrite 0 context.buffer used [0x80]).length = v.blockLength := by
    rw [length_overwrite 0 (by rw [List.length_singleton]; omega), hlength]
  have hfull : (if used + 1 < v.blockLength then
      overwrite 0 (overwrite 0 context.buffer used [0x80]) (used + 1) (List.replicate (v.blockLength - (used + 1)) 0)
      else overwrite 0 context.buffer used [0x80]) =
      context.buffer.take used ++ [0x80] ++ List.replicate (v.blockLength - (used + 1)) 0 := by
    split
    · have hall := take_written htake (by omega) (List.replicate (v.blockLength - (used + 1)) 0) (n := v.blockLength)
        (by rw [List.length_replicate]; omega)
      rwa [List.take_of_length_le (by rw [length_overwrite 0 (by rw [List.length_replicate]; omega), hfirst])] at hall
    · rw [show v.blockLength - (used + 1) = 0 by omega, List.replicate_zero, List.append_nil, ← htake,
        List.take_of_length_le (by omega)]
  have hscratch : ∀ data, (overwrite 0 (v.schedule data) 0 (List.replicate v.cleared 0)).length = v.blockLength := by
    intro data
    rw [length_overwrite 0 (by rw [List.length_replicate, h.schedule]; omega), h.schedule]
  rw [padded, hused]
  dsimp only
  rw [if_pos (by omega), if_neg hover, hfull]
  refine ⟨rfl, hscratch _, ?_⟩
  have hzeros := take_written (List.take_zero (l := v.schedule (context.buffer.take used ++ [0x80] ++
    List.replicate (v.blockLength - (used + 1)) 0))) (by omega) (List.replicate v.cleared 0) (n := v.cleared)
    (by rw [List.length_replicate]; omega)
  have hfront := congrArg (List.take v.shortBlockLength) hzeros
  rwa [List.take_take, Nat.min_eq_left hcleared, List.nil_append, List.take_replicate, Nat.min_eq_left hcleared] at hfront

/-- The end of the message is what the padding says. -/
theorem Ready.last (hr : v.Ready counted context message) :
    (v.Last context).state = v.absorb v.initial (message ++ v.paddingOf width message.length) := by
  have hroom := h.room
  have hpart := hr.holds.length_part
  have hlt := Nat.mod_lt message.length v.pos
  obtain ⟨used, hmod⟩ : ∃ n, message.length % v.blockLength = n := ⟨_, rfl⟩
  have hholds := hr.holds
  rw [hmod] at hpart hlt hholds
  rw [paddingOf, hmod]
  by_cases hfits : used + 1 ≤ v.shortBlockLength
  · obtain ⟨hstate, hlength, htake⟩ := hr.padded_short h hmod hfits
    have hfilled : v.Holds _ [] (message ++ (0x80 :: List.replicate (v.shortBlockLength - (used + 1)) 0 ++
        bigEndian width (8 * message.length))) := hholds.fill (by
      simp only [hpart, List.cons_append, List.length_cons, List.length_append, List.length_replicate, length_bigEndian]
      omega)
    rw [if_pos hfits, hfilled.finish, Last_state h hr.count hlength htake, hstate]
    simp only [List.append_assoc, List.cons_append, List.nil_append]
  · obtain ⟨hstate, hlength, htake⟩ := hr.padded_long h hmod hfits
    have hfirst : v.Holds _ [] (message ++ 0x80 :: List.replicate (v.blockLength - (used + 1)) 0) := hholds.fill (by
      simp only [hpart, List.length_cons, List.length_replicate]
      omega)
    have hsecond : v.Holds _ [] (message ++ 0x80 :: List.replicate (v.blockLength - (used + 1)) 0 ++
        (List.replicate v.shortBlockLength 0 ++ bigEndian width (8 * message.length))) := hfirst.fill (by
      simp only [List.length_nil, List.length_append, List.length_replicate, length_bigEndian]
      omega)
    rw [if_neg hfits, List.replicate_add, Last_state h hr.count hlength htake, hstate]
    have hfinish := hsecond.finish
    simp only [List.append_assoc, List.cons_append, List.nil_append] at hfinish ⊢
    exact hfinish.symm

end Variant

/-- Words are replaced. -/
theorem length_foldl_set {α : Type} (js : List Nat) (f : List α → Nat → α) (W : List α) :
    (js.foldl (fun W j => W.set (j % 16) (f W j)) W).length = W.length := by
  induction js generalizing W with
  | nil => rfl
  | cons j js ih => rw [List.foldl_cons, ih, List.length_set]

section SHA512

/-- The words of the schedule after the last round. -/
def schedule512 (data : Bytes) : List sha2_word64 :=
  (List.range' 16 64).foldl (fun W512 j => W512.set (j % 16) (expand W512 j))
    ((List.range 16).map fun j => UInt64.ofNat (leValue (slice data (8 * j) 8).reverse))

def scratch512 (data : Bytes) : Bytes :=
  (schedule512 data).flatMap fun w => leBytes 8 w.toNat

theorem length_scratch512 (data : Bytes) : (scratch512 data).length = SHA512_BLOCK_LENGTH := by
  have hlength : (schedule512 data).length = 16 := by
    rw [schedule512, length_foldl_set, List.length_map, List.length_range]
  rw [scratch512, length_flatMap_fixed (fun w : sha2_word64 => length_leBytes 8 w.toNat), hlength]
  rfl

/-- The low word comes first. -/
def ADDINC128 (w : sha2_word64 × sha2_word64) (n : Nat) : sha2_word64 × sha2_word64 :=
  let low := w.1 + UInt64.ofNat n
  (low, if low < UInt64.ofNat n then w.2 + 1 else w.2)

theorem SHA512_BLOCK_LENGTH_pos : 0 < SHA512_BLOCK_LENGTH := by
  decide

/-- More than the room for the padding is cleared before the last block. -/
def sha512Variant : Variant State (sha2_word64 × sha2_word64) where
  blockLength := SHA512_BLOCK_LENGTH
  pos := SHA512_BLOCK_LENGTH_pos
  initial := sha512_initial_hash_value
  compress := SHA512_Transform
  shortBlockLength := SHA512_SHORT_BLOCK_LENGTH
  schedule := scratch512
  cleared := SHA512_BLOCK_LENGTH - 2
  noBits := (0, 0)
  addBits := ADDINC128
  bits w := w.1.toNat
  lengthBytes w := bigEndian 8 w.2.toNat ++ bigEndian 8 w.1.toNat

abbrev SHA512_CTX := Context State (sha2_word64 × sha2_word64)

def SHA512_Init : SHA512_CTX := sha512Variant.Init

def SHA512_Update (context : SHA512_CTX) (data : Bytes) : SHA512_CTX :=
  sha512Variant.Update context data

def SHA512_Last (context : SHA512_CTX) : SHA512_CTX :=
  sha512Variant.Last context

def SHA512_Final (context : SHA512_CTX) : Bytes :=
  (SHA512_Last context).state.words.flatMap fun w => bigEndian 8 w.toNat

theorem ADDINC128_counts (n : Nat) {k : Nat} (hk : k ≤ 128) :
    ADDINC128 (UInt64.ofNat (8 * n), UInt64.ofNat (8 * n / 2 ^ 64)) (k * 8) =
      (UInt64.ofNat (8 * (n + k)), UInt64.ofNat (8 * (n + k) / 2 ^ 64)) := by
  have hlow : UInt64.ofNat (8 * n) + UInt64.ofNat (k * 8) = UInt64.ofNat (8 * (n + k)) := by
    rw [← UInt64.ofNat_add]
    congr 1
    omega
  rw [ADDINC128, hlow]
  congr 1
  dsimp only
  split
  · next hcarry =>
    rw [UInt64.lt_iff_toNat_lt, UInt64.toNat_ofNat', UInt64.toNat_ofNat'] at hcarry
    rw [show 8 * (n + k) / 2 ^ 64 = 8 * n / 2 ^ 64 + 1 by omega, UInt64.ofNat_add]
    rfl
  · next hcarry =>
    rw [UInt64.lt_iff_toNat_lt, UInt64.toNat_ofNat', UInt64.toNat_ofNat'] at hcarry
    rw [show 8 * (n + k) / 2 ^ 64 = 8 * n / 2 ^ 64 by omega]

theorem sha512_counts : sha512Variant.Counts (fun n => (UInt64.ofNat (8 * n), UInt64.ofNat (8 * n / 2 ^ 64))) 16 where
  noBits := rfl
  addBits n _ hk := ADDINC128_counts n hk
  bits n := by
    change (UInt64.ofNat (8 * n)).toNat / 8 % 128 = n % 128
    rw [UInt64.toNat_ofNat']
    omega
  lengthBytes n := by
    change bigEndian 8 (UInt64.ofNat (8 * n / 2 ^ 64)).toNat ++ bigEndian 8 (UInt64.ofNat (8 * n)).toNat = bigEndian 16 (8 * n)
    have hwords : 2 ^ 64 = 256 ^ 8 := by decide
    rw [UInt64.toNat_ofNat', UInt64.toNat_ofNat', bigEndian, bigEndian, bigEndian, leBytes_mod hwords, leBytes_mod hwords,
      leBytes_add 8 8, List.reverse_append, hwords]
  room := by decide
  short := by decide
  cleared := by decide
  schedule data := by
    have hscratch : sha512Variant.schedule = scratch512 := by rw [sha512Variant]
    have hblock : sha512Variant.blockLength = SHA512_BLOCK_LENGTH := rfl
    rw [hscratch, hblock, length_scratch512]

/-- However a message is split, its digest is the same. -/
theorem SHA512_Final_updates (chunks : List Bytes) :
    SHA512_Final (chunks.foldl SHA512_Update SHA512_Init) = sha512 chunks.flatten := by
  have hready := Variant.foldl_ready sha512_counts chunks (Variant.Init_ready sha512_counts)
  rw [List.nil_append] at hready
  have hlast := hready.last sha512_counts
  rw [SHA512_Final, sha512]
  exact congrArg (fun state => state.words.flatMap fun w => bigEndian 8 w.toNat) hlast

end SHA512

section SHA256

abbrev sha2_word32 := UInt32

def SHA256_BLOCK_LENGTH : Nat := 64

def SHA256_SHORT_BLOCK_LENGTH : Nat := SHA256_BLOCK_LENGTH - 8

def S32 (b x : sha2_word32) : sha2_word32 := x >>> b ||| x <<< (32 - b)

def Sigma0_256 (x : sha2_word32) : sha2_word32 := S32 2 x ^^^ S32 13 x ^^^ S32 22 x

def Sigma1_256 (x : sha2_word32) : sha2_word32 := S32 6 x ^^^ S32 11 x ^^^ S32 25 x

def sigma0_256 (x : sha2_word32) : sha2_word32 := S32 7 x ^^^ S32 18 x ^^^ x >>> 3

def sigma1_256 (x : sha2_word32) : sha2_word32 := S32 17 x ^^^ S32 19 x ^^^ x >>> 10

def K256 : List sha2_word32 :=
  [0x428a2f98, 0x71374491, 0xb5c0fbcf, 0xe9b5dba5, 0x3956c25b, 0x59f111f1, 0x923f82a4, 0xab1c5ed5,
    0xd807aa98, 0x12835b01, 0x243185be, 0x550c7dc3, 0x72be5d74, 0x80deb1fe, 0x9bdc06a7, 0xc19bf174,
    0xe49b69c1, 0xefbe4786, 0x0fc19dc6, 0x240ca1cc, 0x2de92c6f, 0x4a7484aa, 0x5cb0a9dc, 0x76f988da,
    0x983e5152, 0xa831c66d, 0xb00327c8, 0xbf597fc7, 0xc6e00bf3, 0xd5a79147, 0x06ca6351, 0x14292967,
    0x27b70a85, 0x2e1b2138, 0x4d2c6dfc, 0x53380d13, 0x650a7354, 0x766a0abb, 0x81c2c92e, 0x92722c85,
    0xa2bfe8a1, 0xa81a664b, 0xc24b8b70, 0xc76c51a3, 0xd192e819, 0xd6990624, 0xf40e3585, 0x106aa070,
    0x19a4c116, 0x1e376c08, 0x2748774c, 0x34b0bcb5, 0x391c0cb3, 0x4ed8aa4a, 0x5b9cca4f, 0x682e6ff3,
    0x748f82ee, 0x78a5636f, 0x84c87814, 0x8cc70208, 0x90befffa, 0xa4506ceb, 0xbef9a3f7, 0xc67178f2]

/-- The registers of the compression function. -/
structure State256 where
  a : sha2_word32
  b : sha2_word32
  c : sha2_word32
  d : sha2_word32
  e : sha2_word32
  f : sha2_word32
  g : sha2_word32
  h : sha2_word32

def sha256_initial_hash_value : State256 :=
  ⟨0x6a09e667, 0xbb67ae85, 0x3c6ef372, 0xa54ff53a, 0x510e527f, 0x9b05688c, 0x1f83d9ab, 0x5be0cd19⟩

namespace State256

/-- The macros `Ch` and `Maj` are used with these words, too. -/
def round (s : State256) (k w : sha2_word32) : State256 :=
  let T1 := s.h + Sigma1_256 s.e + ((s.e &&& s.f) ^^^ (~~~s.e &&& s.g)) + k + w
  let T2 := Sigma0_256 s.a + ((s.a &&& s.b) ^^^ (s.a &&& s.c) ^^^ (s.b &&& s.c))
  ⟨T1 + T2, s.a, s.b, s.c, s.d + T1, s.e, s.f, s.g⟩

def add (s t : State256) : State256 :=
  ⟨s.a + t.a, s.b + t.b, s.c + t.c, s.d + t.d, s.e + t.e, s.f + t.f, s.g + t.g, s.h + t.h⟩

def words (s : State256) : List sha2_word32 :=
  [s.a, s.b, s.c, s.d, s.e, s.f, s.g, s.h]

end State256

def expand256 (W256 : List sha2_word32) (j : Nat) : sha2_word32 :=
  let s0 := sigma0_256 (W256.getD ((j + 1) % 16) 0)
  let s1 := sigma1_256 (W256.getD ((j + 14) % 16) 0)
  W256.getD (j % 16) 0 + (s1 + W256.getD ((j + 9) % 16) 0 + s0)

def W256 (data : Bytes) : List sha2_word32 :=
  (List.range 16).map fun j => UInt32.ofNat (leValue (slice data (4 * j) 4).reverse)

def SHA256_Transform (state : State256) (data : Bytes) : State256 :=
  let start := (List.range 16).foldl (fun s j => s.round (K256.getD j 0) ((W256 data).getD j 0)) state
  let (_, last) := (List.range' 16 48).foldl (fun (W256, s) j =>
    (W256.set (j % 16) (expand256 W256 j), s.round (K256.getD j 0) (expand256 W256 j))) (W256 data, start)
  state.add last

/-- The words of the schedule after the last round. -/
def schedule256 (data : Bytes) : List sha2_word32 :=
  (List.range' 16 48).foldl (fun W256 j => W256.set (j % 16) (expand256 W256 j)) (W256 data)

def scratch256 (data : Bytes) : Bytes :=
  (schedule256 data).flatMap fun w => leBytes 4 w.toNat

theorem length_scratch256 (data : Bytes) : (scratch256 data).length = SHA256_BLOCK_LENGTH := by
  have hlength : (schedule256 data).length = 16 := by
    rw [schedule256, length_foldl_set, W256, List.length_map, List.length_range]
  rw [scratch256, length_flatMap_fixed (fun w : sha2_word32 => length_leBytes 4 w.toNat), hlength]
  rfl

theorem SHA256_BLOCK_LENGTH_pos : 0 < SHA256_BLOCK_LENGTH := by
  decide

def sha256Variant : Variant State256 UInt64 where
  blockLength := SHA256_BLOCK_LENGTH
  pos := SHA256_BLOCK_LENGTH_pos
  initial := sha256_initial_hash_value
  compress := SHA256_Transform
  shortBlockLength := SHA256_SHORT_BLOCK_LENGTH
  schedule := scratch256
  cleared := SHA256_SHORT_BLOCK_LENGTH
  noBits := 0
  addBits bitcount n := bitcount + UInt64.ofNat n
  bits := UInt64.toNat
  lengthBytes bitcount := bigEndian 8 bitcount.toNat

abbrev SHA256_CTX := Context State256 UInt64

def SHA256_Init : SHA256_CTX := sha256Variant.Init

def SHA256_Update (context : SHA256_CTX) (data : Bytes) : SHA256_CTX :=
  sha256Variant.Update context data

def SHA256_Final (context : SHA256_CTX) : Bytes :=
  (sha256Variant.Last context).state.words.flatMap fun w => bigEndian 4 w.toNat

/-- The digest of a message, all at once. -/
def sha256 (data : Bytes) : Bytes :=
  (sha256Variant.absorb sha256_initial_hash_value (data ++ sha256Variant.paddingOf 8 data.length)).words.flatMap
    fun w => bigEndian 4 w.toNat

theorem sha256_counts : sha256Variant.Counts (fun n => UInt64.ofNat (8 * n)) 8 where
  noBits := rfl
  addBits n k _ := by
    change UInt64.ofNat (8 * n) + UInt64.ofNat (k * 8) = UInt64.ofNat (8 * (n + k))
    rw [← UInt64.ofNat_add]
    congr 1
    omega
  bits n := by
    change (UInt64.ofNat (8 * n)).toNat / 8 % 64 = n % 64
    rw [UInt64.toNat_ofNat']
    omega
  lengthBytes n := by
    change bigEndian 8 (UInt64.ofNat (8 * n)).toNat = bigEndian 8 (8 * n)
    rw [UInt64.toNat_ofNat', bigEndian, bigEndian, leBytes_mod (show 2 ^ 64 = 256 ^ 8 by decide)]
  room := by decide
  short := by decide
  cleared := by decide
  schedule data := by
    have hscratch : sha256Variant.schedule = scratch256 := by rw [sha256Variant]
    have hblock : sha256Variant.blockLength = SHA256_BLOCK_LENGTH := rfl
    rw [hscratch, hblock, length_scratch256]

/-- However a message is split, its digest is the same. -/
theorem SHA256_Final_updates (chunks : List Bytes) :
    SHA256_Final (chunks.foldl SHA256_Update SHA256_Init) = sha256 chunks.flatten := by
  have hready := Variant.foldl_ready sha256_counts chunks (Variant.Init_ready sha256_counts)
  rw [List.nil_append] at hready
  have hlast := hready.last sha256_counts
  rw [SHA256_Final, sha256]
  exact congrArg (fun state => state.words.flatMap fun w => bigEndian 4 w.toNat) hlast

end SHA256

end urbackup.sha2
