import UrBackup.BlockHash.Absorb
import UrBackup.FileData.LittleEndian
import UrBackup.FileList.StringTools

namespace urbackup.md5

open stringtools filedata blockhash

abbrev uint4 := UInt32

section Definitions

def rotate_left (x n : uint4) : uint4 := x <<< n ||| x >>> (32 - n)

def F (x y z : uint4) : uint4 := x &&& y ||| ~~~x &&& z

def G (x y z : uint4) : uint4 := x &&& z ||| y &&& ~~~z

def H (x y z : uint4) : uint4 := x ^^^ y ^^^ z

def I (x y z : uint4) : uint4 := y ^^^ (x ||| ~~~z)

/-- One of the four transformations, with its function. -/
def turn (f : uint4 → uint4 → uint4 → uint4) (a b c d x s ac : uint4) : uint4 :=
  rotate_left (a + (f b c d + x + ac)) s + b

def FF (a b c d x s ac : uint4) : uint4 := turn F a b c d x s ac

def GG (a b c d x s ac : uint4) : uint4 := turn G a b c d x s ac

def HH (a b c d x s ac : uint4) : uint4 := turn H a b c d x s ac

def II (a b c d x s ac : uint4) : uint4 := turn I a b c d x s ac

structure State where
  a : uint4
  b : uint4
  c : uint4
  d : uint4

def initial : State :=
  ⟨0x67452301, 0xefcdab89, 0x98badcfe, 0x10325476⟩

/-- The words, shifts and constants of the first round. -/
def round1 : List (Nat × uint4 × uint4) :=
  [(0, 7, 0xd76aa478), (1, 12, 0xe8c7b756), (2, 17, 0x242070db), (3, 22, 0xc1bdceee),
    (4, 7, 0xf57c0faf), (5, 12, 0x4787c62a), (6, 17, 0xa8304613), (7, 22, 0xfd469501),
    (8, 7, 0x698098d8), (9, 12, 0x8b44f7af), (10, 17, 0xffff5bb1), (11, 22, 0x895cd7be),
    (12, 7, 0x6b901122), (13, 12, 0xfd987193), (14, 17, 0xa679438e), (15, 22, 0x49b40821)]

def round2 : List (Nat × uint4 × uint4) :=
  [(1, 5, 0xf61e2562), (6, 9, 0xc040b340), (11, 14, 0x265e5a51), (0, 20, 0xe9b6c7aa),
    (5, 5, 0xd62f105d), (10, 9, 0x2441453), (15, 14, 0xd8a1e681), (4, 20, 0xe7d3fbc8),
    (9, 5, 0x21e1cde6), (14, 9, 0xc33707d6), (3, 14, 0xf4d50d87), (8, 20, 0x455a14ed),
    (13, 5, 0xa9e3e905), (2, 9, 0xfcefa3f8), (7, 14, 0x676f02d9), (12, 20, 0x8d2a4c8a)]

def round3 : List (Nat × uint4 × uint4) :=
  [(5, 4, 0xfffa3942), (8, 11, 0x8771f681), (11, 16, 0x6d9d6122), (14, 23, 0xfde5380c),
    (1, 4, 0xa4beea44), (4, 11, 0x4bdecfa9), (7, 16, 0xf6bb4b60), (10, 23, 0xbebfbc70),
    (13, 4, 0x289b7ec6), (0, 11, 0xeaa127fa), (3, 16, 0xd4ef3085), (6, 23, 0x4881d05),
    (9, 4, 0xd9d4d039), (12, 11, 0xe6db99e5), (15, 16, 0x1fa27cf8), (2, 23, 0xc4ac5665)]

def round4 : List (Nat × uint4 × uint4) :=
  [(0, 6, 0xf4292244), (7, 10, 0x432aff97), (14, 15, 0xab9423a7), (5, 21, 0xfc93a039),
    (12, 6, 0x655b59c3), (3, 10, 0x8f0ccc92), (10, 15, 0xffeff47d), (1, 21, 0x85845dd1),
    (8, 6, 0x6fa87e4f), (15, 10, 0xfe2ce6e0), (6, 15, 0xa3014314), (13, 21, 0x4e0811a1),
    (4, 6, 0xf7537e82), (11, 10, 0xbd3af235), (2, 15, 0x2ad7d2bb), (9, 21, 0xeb86d391)]

def State.words (s : State) : List uint4 :=
  [s.a, s.b, s.c, s.d]

def encode (words : List uint4) : Bytes :=
  words.flatMap fun w => leBytes 4 w.toNat

def decode (block : Bytes) : List uint4 :=
  (List.range 16).map fun j => UInt32.ofNat (leValue (slice block (4 * j) 4))

/-- The steps of a round. Each one changes the first register, and the last one is the
first one of the next step. -/
def State.rounds (f : uint4 → uint4 → uint4 → uint4 → uint4 → uint4 → uint4 → uint4) (x : List uint4)
    (steps : List (Nat × uint4 × uint4)) (s : State) : State :=
  steps.foldl (fun s step => ⟨s.d, f s.a s.b s.c s.d (x.getD step.1 0) step.2.1 step.2.2, s.b, s.c⟩) s

def transform (state : State) (block : Bytes) : State :=
  let x := decode block
  let s := (((state.rounds FF x round1).rounds GG x round2).rounds HH x round3).rounds II x round4
  ⟨state.a + s.a, state.b + s.b, state.c + s.c, state.d + s.d⟩

/-- `count` is the number of bits, its low word first. -/
structure MD5 where
  state : State
  count0 : uint4
  count1 : uint4
  buffer : Bytes
  digest : Bytes
  finalized : Bool

namespace MD5

/-- The blocks behind the first one, as long as there are complete ones. -/
def blocks (input : Bytes) : Nat → (state : State) → (input_index : Nat) → Option (State × Nat)
  | 0, _, _ => none
  | fuel + 1, state, input_index =>
    if (input_index + 63) % 2 ^ 32 < input.length then
      blocks input fuel (transform state (slice input input_index 64)) ((input_index + 64) % 2 ^ 32)
    else some (state, input_index)

def update (s : MD5) (input : Bytes) : Option MD5 :=
  if s.finalized then some s
  else
    let buffer_index := s.count0.toNat / 8 % 64
    let bits := UInt32.ofNat (8 * input.length)
    let count0 := s.count0 + bits
    let count1 := (if count0 < bits then s.count1 + 1 else s.count1) + UInt32.ofNat (input.length / 2 ^ 29)
    let buffer_space := 64 - buffer_index
    if buffer_space ≤ input.length then
      let buffer := overwrite 0 s.buffer buffer_index (input.take buffer_space)
      match blocks input (input.length + 1) (transform s.state buffer) buffer_space with
      | none => none
      | some (state, input_index) =>
        some { s with state, count0, count1, buffer := overwrite 0 buffer 0 (input.drop input_index) }
    else some { s with count0, count1, buffer := overwrite 0 s.buffer buffer_index input }

def PADDING : Bytes :=
  0x80 :: List.replicate 63 0

def padLen (index : Nat) : Nat :=
  if index < 56 then 56 - index else 120 - index

/-- Of the buffer, only the first byte is cleared. -/
def finalize (s : MD5) : Option MD5 :=
  if s.finalized then some s
  else
    let bits := encode [s.count0, s.count1]
    match s.update (PADDING.take (padLen (s.count0.toNat / 8 % 64))) with
    | none => none
    | some s =>
      match s.update bits with
      | none => none
      | some s => some { s with digest := encode s.state.words, buffer := overwrite 0 s.buffer 0 [0], finalized := true }

def raw_digest_int (s : MD5) : Option Bytes :=
  if s.finalized then some s.digest else none

def updates : List Bytes → (s : MD5) → Option MD5
  | [], s => some s
  | input :: inputs, s =>
    match s.update input with
    | none => none
    | some s => updates inputs s

end MD5

def md5Compression : Compression State UInt8 where
  blockLength := 64
  pos := Nat.succ_pos 63
  initial := initial
  compress := transform

/-- The digest of a message, all at once. -/
def digestOf (data : Bytes) : Bytes :=
  encode (md5Compression.absorb initial
    (data ++ MD5.PADDING.take (MD5.padLen (data.length % 64)) ++ leBytes 8 (8 * data.length))).words

/-- A context after a message: the buffer starts with the bytes that wait. The other
contents of the buffer and of the digest are not known. -/
structure MD5.Ready (s : MD5) (message : Bytes) : Prop where
  holds : md5Compression.Holds s.state (s.buffer.take (message.length % 64)) message
  length : s.buffer.length = 64
  count0 : s.count0 = UInt32.ofNat (8 * message.length)
  count1 : s.count1 = UInt32.ofNat (8 * message.length / 2 ^ 32)
  running : s.finalized = false

end Definitions

namespace MD5

variable {s t : MD5} {message input : Bytes}

/-- The number of bits of a longer message. -/
theorem count_add (n k : Nat) :
    UInt32.ofNat (8 * n) + UInt32.ofNat (8 * k) = UInt32.ofNat (8 * (n + k)) ∧
      (if UInt32.ofNat (8 * (n + k)) < UInt32.ofNat (8 * k) then UInt32.ofNat (8 * n / 2 ^ 32) + 1
        else UInt32.ofNat (8 * n / 2 ^ 32)) + UInt32.ofNat (k / 2 ^ 29) = UInt32.ofNat (8 * (n + k) / 2 ^ 32) := by
  constructor
  · rw [← UInt32.ofNat_add]
    congr 1
    omega
  split
  · next hcarry =>
    rw [UInt32.lt_iff_toNat_lt, UInt32.toNat_ofNat', UInt32.toNat_ofNat'] at hcarry
    rw [show 8 * (n + k) / 2 ^ 32 = 8 * n / 2 ^ 32 + 1 + k / 2 ^ 29 by omega, UInt32.ofNat_add, UInt32.ofNat_add]
    rfl
  · next hcarry =>
    rw [UInt32.lt_iff_toNat_lt, UInt32.toNat_ofNat', UInt32.toNat_ofNat'] at hcarry
    rw [show 8 * (n + k) / 2 ^ 32 = 8 * n / 2 ^ 32 + k / 2 ^ 29 by omega, UInt32.ofNat_add]

theorem Ready.index (h : s.Ready message) : s.count0.toNat / 8 % 64 = message.length % 64 := by
  rw [h.count0, UInt32.toNat_ofNat']
  omega

/-- The loop ends in a block that is not complete. -/
theorem blocks_holds (hlength : input.length + 64 ≤ 2 ^ 32) {fuel : Nat} {state : State} {input_index : Nat}
    (hfuel : input.length < fuel + input_index) (hin : input_index ≤ input.length)
    (h : md5Compression.Holds state [] (message ++ input.take input_index)) :
    ∃ state' input_index', blocks input fuel state input_index = some (state', input_index') ∧
      input_index' ≤ input.length ∧ input.length < input_index' + 64 ∧
      md5Compression.Holds state' [] (message ++ input.take input_index') := by
  induction fuel generalizing state input_index with
  | zero => omega
  | succ fuel ih =>
    rw [blocks, Nat.mod_eq_of_lt (show input_index + 63 < 2 ^ 32 by omega)]
    split
    · next hmore =>
      have hslice : (slice input input_index 64).length = 64 := by
        rw [length_slice]
        omega
      have hnext : md5Compression.Holds (transform state (slice input input_index 64)) []
          (message ++ input.take (input_index + 64)) := by
        rw [take_add_slice, ← List.append_assoc]
        have hfill := h.fill (show ([] : Bytes).length + (slice input input_index 64).length = _ by rw [hslice]; rfl)
        exact hfill
      rw [Nat.mod_eq_of_lt (by omega)]
      exact ih (by omega) (by omega) hnext
    · next hlast => exact ⟨state, input_index, rfl, hin, by omega, h⟩

/-- An update adds its input to the message. -/
theorem Ready.update (h : s.Ready message) (hlength : input.length + 64 ≤ 2 ^ 32) :
    ∃ t, s.update input = some t ∧ t.Ready (message ++ input) := by
  have hbuffer := h.length
  have hpart := h.holds.length_part
  have hblock : md5Compression.blockLength = 64 := rfl
  rw [hblock] at hpart
  have hlt := Nat.mod_lt message.length (show 0 < 64 by omega)
  obtain ⟨hcount0, hcount1⟩ := count_add message.length input.length
  have hlong : (message ++ input).length = message.length + input.length := List.length_append
  rw [MD5.update, h.running, h.index]
  dsimp only
  rw [if_neg (by simp), h.count0, h.count1, hcount0, hcount1]
  split
  · next hmany =>
    have htake : (input.take (64 - message.length % 64)).length = 64 - message.length % 64 := by
      rw [List.length_take]
      omega
    have hwritten : (overwrite 0 s.buffer (message.length % 64) (input.take (64 - message.length % 64))).length = 64 := by
      rw [length_overwrite 0 (by omega), hbuffer]
    have hfull := take_overwrite 0 (show message.length % 64 ≤ s.buffer.length by omega) (input.take (64 - message.length % 64))
    rw [List.take_of_length_le (by omega)] at hfull
    have hfirst : md5Compression.Holds
        (transform s.state (overwrite 0 s.buffer (message.length % 64) (input.take (64 - message.length % 64)))) []
        (message ++ input.take (64 - message.length % 64)) := by
      rw [hfull]
      exact h.holds.fill (by rw [hpart, htake, hblock]; omega)
    obtain ⟨state, input_index, hblocks, hin, hrest, hholds⟩ :=
      blocks_holds hlength (show input.length < input.length + 1 + (64 - message.length % 64) by omega) hmany hfirst
    have hdrop : (input.drop input_index).length = input.length - input_index := List.length_drop
    have hmod : (message ++ input).length % 64 = input.length - input_index := by
      have hwhole := hholds.length_part
      rw [hblock, List.length_nil, List.length_append, List.length_take, Nat.min_eq_left hin] at hwhole
      omega
    rw [hblocks]
    refine ⟨_, rfl, ?_, ?_, ?_, ?_, rfl⟩
    · have hkeep : md5Compression.Holds state ([] ++ input.drop input_index)
          (message ++ input.take input_index ++ input.drop input_index) := hholds.keep (by
        rw [hdrop, hblock, List.length_nil]
        omega)
      rw [List.append_assoc, List.take_append_drop] at hkeep
      have hbehind := take_overwrite 0 (Nat.zero_le
        (overwrite 0 s.buffer (message.length % 64) (input.take (64 - message.length % 64))).length) (input.drop input_index)
      rw [Nat.zero_add, hdrop, List.take_zero] at hbehind
      dsimp only
      rw [hmod, hbehind]
      exact hkeep
    · dsimp only
      rw [length_overwrite 0 (by omega), hwritten]
    · rw [hlong]
    · rw [hlong]
  · next hfew =>
    have hmod : (message ++ input).length % 64 = message.length % 64 + input.length := by omega
    have hbehind := take_overwrite 0 (show message.length % 64 ≤ s.buffer.length by omega) input
    refine ⟨_, rfl, ?_, ?_, ?_, ?_, rfl⟩
    · dsimp only
      rw [hmod, hbehind]
      exact h.holds.keep (by rw [hpart, hblock]; omega)
    · dsimp only
      rw [length_overwrite 0 (by omega), hbuffer]
    · rw [hlong]
    · rw [hlong]

theorem Ready.updates (h : s.Ready message) {inputs : List Bytes} (hlength : ∀ input ∈ inputs, input.length + 64 ≤ 2 ^ 32) :
    ∃ t, updates inputs s = some t ∧ t.Ready (message ++ inputs.flatten) := by
  induction inputs generalizing s message with
  | nil => exact ⟨s, rfl, by rwa [List.flatten_nil, List.append_nil]⟩
  | cons input inputs ih =>
    obtain ⟨t, hupdate, ht⟩ := h.update (hlength input List.mem_cons_self)
    obtain ⟨u, hrest, hu⟩ := ih ht (fun i hi => hlength i (List.mem_cons_of_mem _ hi))
    rw [List.append_assoc, ← List.flatten_cons] at hu
    refine ⟨u, ?_, hu⟩
    rw [MD5.updates, hupdate]
    exact hrest

/-- The number of bits as it is stored. -/
theorem encode_count (n : Nat) : encode [UInt32.ofNat n, UInt32.ofNat (n / 2 ^ 32)] = leBytes 8 n := by
  have hword : 2 ^ 32 = 256 ^ 4 := by decide
  rw [encode, List.flatMap_cons, List.flatMap_cons, List.flatMap_nil, List.append_nil, UInt32.toNat_ofNat', UInt32.toNat_ofNat',
    leBytes_mod hword, leBytes_mod hword, leBytes_add 4 4, hword]

/-- The padding leaves room for the number of bits. -/
theorem padLen_mod (n : Nat) : (n + padLen (n % 64)) % 64 = 56 ∧ padLen (n % 64) ≤ 64 := by
  unfold padLen
  split <;> omega

/-- The digest is that of the message. -/
theorem Ready.finalize (h : s.Ready message) : ∃ t, s.finalize = some t ∧ t.raw_digest_int = some (digestOf message) := by
  obtain ⟨hpad, hpadLen⟩ := padLen_mod message.length
  obtain ⟨padding, hpadding⟩ : ∃ padding, PADDING.take (padLen (message.length % 64)) = padding := ⟨_, rfl⟩
  have hlength : padding.length = padLen (message.length % 64) := by
    rw [← hpadding, List.length_take]
    exact Nat.min_eq_left hpadLen
  obtain ⟨t, hfirst, ht⟩ := h.update (show padding.length + 64 ≤ 2 ^ 32 by omega)
  have hbits : (leBytes 8 (8 * message.length)).length = 8 := length_leBytes ..
  obtain ⟨u, hsecond, hu⟩ := ht.update (show (leBytes 8 (8 * message.length)).length + 64 ≤ 2 ^ 32 by omega)
  have hwhole : (message ++ padding ++ leBytes 8 (8 * message.length)).length % 64 = 0 := by
    rw [List.length_append, List.length_append, hbits, hlength]
    omega
  have hholds := hu.holds
  rw [hwhole, List.take_zero] at hholds
  rw [MD5.finalize, h.running, h.index, hpadding, hfirst, h.count0, h.count1, encode_count]
  dsimp only
  rw [hsecond, if_neg (by simp)]
  refine ⟨_, rfl, ?_⟩
  rw [raw_digest_int, digestOf, hpadding]
  dsimp only
  rw [if_pos rfl, ← hholds.finish]
  rfl

end MD5

/-- A context without data. The buffer has any contents. -/
def MD5.init (buffer digest : Bytes) : MD5 where
  state := initial
  count0 := 0
  count1 := 0
  buffer
  digest
  finalized := false

theorem MD5.init_ready {buffer : Bytes} (hbuffer : buffer.length = 64) (digest : Bytes) : (MD5.init buffer digest).Ready [] where
  holds := by
    rw [List.length_nil, Nat.zero_mod, List.take_zero]
    exact Compression.Holds.start md5Compression
  length := hbuffer
  count0 := rfl
  count1 := rfl
  running := rfl

/-- However a message is split, its digest is the same, and there is one. -/
theorem MD5.updates_digest {buffer : Bytes} (hbuffer : buffer.length = 64) (digest : Bytes) {inputs : List Bytes}
    (hlength : ∀ input ∈ inputs, input.length + 64 ≤ 2 ^ 32) :
    ∃ s t, MD5.updates inputs (MD5.init buffer digest) = some s ∧ s.finalize = some t ∧
      t.raw_digest_int = some (digestOf inputs.flatten) := by
  obtain ⟨s, hupdates, hs⟩ := (MD5.init_ready hbuffer digest).updates hlength
  rw [List.nil_append] at hs
  obtain ⟨t, hfinalize, hdigest⟩ := hs.finalize
  exact ⟨s, t, hupdates, hfinalize, hdigest⟩

theorem MD5.updates_digest_abc : ∃ s t, MD5.updates [[97], [], [98, 99]] (MD5.init (List.replicate 64 255) []) = some s ∧
    s.finalize = some t ∧ t.raw_digest_int = some (digestOf [97, 98, 99]) := by
  apply MD5.updates_digest List.length_replicate
  intro input hinput
  simp only [List.mem_cons, List.not_mem_nil, or_false] at hinput
  obtain rfl | rfl | rfl := hinput
  · decide
  · decide
  · decide

end urbackup.md5
