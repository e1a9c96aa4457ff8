import UrBackup.WebSocket.Feed

namespace urbackup.websocket

open stringtools filedata

/-- The size of a payload as the sender writes it. -/
def sizeBytes (mask_bit : UInt8) (n : Nat) : Bytes :=
  if n > 65535 then (127 ||| mask_bit) :: leBytes 8 n
  else if n > 125 then (126 ||| mask_bit) :: leBytes 2 n
  else [UInt8.ofNat n ||| mask_bit]

def maskBit (mask : Option (Vector UInt8 4)) : UInt8 :=
  if mask.isSome then bit7 else 0

def maskKey : Option (Vector UInt8 4) → Bytes
  | none => []
  | some key => key.toList

def masked : Option (Vector UInt8 4) → Bytes → Bytes
  | none, payload => payload
  | some key, payload => xorMask key 0 payload

/-- A frame with its first byte. -/
def frame (first : UInt8) (mask : Option (Vector UInt8 4)) (payload : Bytes) : Bytes :=
  first :: (sizeBytes (maskBit mask) payload.length ++ maskKey mask ++ masked mask payload)

/-- The mask a pipe writes with. -/
def WebSocketPipe.writeMask (w : WebSocketPipe) : Option (Vector UInt8 4) :=
  if w.mask_writes then some w.masking_key else none

theorem WebSocketPipe.Write_sent (w : WebSocketPipe) (buffer : Bytes) :
    w.Write buffer = { w with sent := w.sent ++ frame (bit7 ||| 2) w.writeMask buffer } := by
  by_cases hmask : w.mask_writes = true
  · simp [Write, frame, writeMask, writeHeader, sizeBytes, maskBit, maskKey, masked, hmask]
  · simp [Write, frame, writeMask, writeHeader, sizeBytes, maskBit, maskKey, masked, hmask]

namespace WebSocketPipe

section Size

/-- The size that a receiver reads. -/
def decodeSize : (payload_size consumed : Nat) → Bytes → Nat
  | payload_size, _, [] => payload_size
  | payload_size, consumed, b :: bs => decodeSize (payload_size ||| shiftedByte b consumed) (consumed + 1) bs

theorem shiftedByte_eq {b : UInt8} {n : Nat} (h : b.toNat * 2 ^ (8 * n) < 2 ^ 31) : shiftedByte b n = b.toNat * 2 ^ (8 * n) := by
  unfold shiftedByte
  dsimp only
  by_cases hb : b.toNat = 0
  · simp [hb]
  · have hpow : 2 ^ (8 * n) < 2 ^ 31 := lt_of_le_of_lt (Nat.le_mul_of_pos_left _ (by omega)) h
    have hn : 8 * n < 31 := (Nat.pow_lt_pow_iff_right (by decide)).mp hpow
    rw [Nat.mod_eq_of_lt (show 8 * n < 32 by omega), Nat.mod_eq_of_lt (lt_trans h (by decide)), if_pos h]

/-- Up to 31 bits the size is read as it was written. -/
theorem decodeSize_leBytes {k m payload_size n : Nat} (hm : m < 256 ^ k) (hpayload : payload_size < 2 ^ (8 * n))
    (hsize : m * 2 ^ (8 * n) < 2 ^ 31) : decodeSize payload_size n (leBytes k m) = payload_size + m * 2 ^ (8 * n) := by
  induction k generalizing m payload_size n with
  | zero =>
    rw [Nat.pow_zero, Nat.lt_one_iff] at hm
    simp [leBytes, decodeSize, hm]
  | succ k ih =>
    have hbyte : (UInt8.ofNat (m % 256)).toNat = m % 256 := by
      simp only [UInt8.toNat_ofNat']
      omega
    have hpow : 2 ^ (8 * (n + 1)) = 256 * 2 ^ (8 * n) := by rw [Nat.mul_succ, Nat.pow_add, Nat.mul_comm]
    have hparts : m % 256 * 2 ^ (8 * n) + m / 256 * 2 ^ (8 * (n + 1)) = m * 2 ^ (8 * n) := by
      rw [hpow, ← Nat.mul_assoc, ← Nat.add_mul, Nat.mul_comm (m / 256), Nat.mod_add_div]
    have hlow : shiftedByte (UInt8.ofNat (m % 256)) n = m % 256 * 2 ^ (8 * n) := by
      rw [shiftedByte_eq (by rw [hbyte]; omega), hbyte]
    have hor : payload_size ||| m % 256 * 2 ^ (8 * n) = payload_size + m % 256 * 2 ^ (8 * n) := by
      rw [Nat.or_comm, Nat.mul_comm, ← Nat.two_pow_add_eq_or_of_lt hpayload, Nat.add_comm]
    have hnext : payload_size + m % 256 * 2 ^ (8 * n) < 2 ^ (8 * (n + 1)) := by
      have hle : m % 256 * 2 ^ (8 * n) ≤ 255 * 2 ^ (8 * n) := Nat.mul_le_mul_right _ (by omega)
      omega
    have hdiv : m / 256 < 256 ^ k := by
      rw [Nat.pow_succ, Nat.mul_comm] at hm
      exact Nat.div_lt_of_lt_mul hm
    rw [leBytes, decodeSize, hlow, hor, ih hdiv hnext (by omega)]
    omega

theorem decodeSize_two {n : Nat} (h : n < 65536) : decodeSize 0 0 (leBytes 2 n) = n := by
  have hdecode := decodeSize_leBytes (k := 2) (m := n) (n := 0) (show n < 256 ^ 2 by omega) (show 0 < 2 ^ (8 * 0) by decide)
    (by omega)
  omega

theorem decodeSize_eight {n : Nat} (h : n < 2 ^ 31) : decodeSize 0 0 (leBytes 8 n) = n := by
  have hdecode := decodeSize_leBytes (k := 8) (m := n) (n := 0) (show n < 256 ^ 8 by omega) (show 0 < 2 ^ (8 * 0) by decide)
    (by omega)
  omega

theorem feed_size {w : WebSocketPipe} {bs : Bytes} (hstate : w.read_state = .HeaderSize2)
    (hremaining : w.remaining_size_bytes = bs.length) (hbs : bs ≠ []) :
    w.feed bs = (({ w with
      remaining_size_bytes := 0
      payload_size := decodeSize w.payload_size w.consumed_size_bytes bs
      consumed_size_bytes := w.consumed_size_bytes + bs.length }).afterSize, []) := by
  induction bs generalizing w with
  | nil => exact absurd rfl hbs
  | cons b bs ih =>
    rw [List.length_cons] at hremaining ⊢
    have htake : w.settle.takeByte b = (w.headerSize2 b, []) := by
      rw [settle_of_state w (by simp [hstate]), takeByte, hstate]
    rw [feed_cons, htake, decodeSize]
    unfold headerSize2
    dsimp only
    by_cases hnil : bs = []
    · subst hnil
      have hone : w.remaining_size_bytes - 1 = 0 := by simp [hremaining]
      rw [if_pos hone, hone]
      rfl
    · have hpos := List.length_pos_of_ne_nil hnil
      rw [if_neg (show ¬ w.remaining_size_bytes - 1 = 0 by omega)]
      rw [ih (by exact hstate) (by show w.remaining_size_bytes - 1 = _; omega) hnil]
      dsimp only
      rw [show w.consumed_size_bytes + 1 + bs.length = w.consumed_size_bytes + (bs.length + 1) by omega]
      rfl

end Size

section Header

/-- The first bytes that the receiver does not accept. -/
def refused (first : UInt8) : Bool :=
  let opcode := first &&& 15
  decide (opcode ≠ 0 ∧ opcode ≠ 1 ∧ opcode ≠ 2 ∧ opcode ≠ 8 ∧ opcode ≠ 9 ∧ opcode ≠ 10) ||
    decide (first &&& 1 = 0 ∧ opcode ≠ 0 ∧ opcode ≠ 1 ∧ opcode ≠ 2)

theorem header1_eq (w : WebSocketPipe) (first : UInt8) :
    w.header1 first =
      { w with header_bits1 := first, read_state := .HeaderSize1, has_error := w.has_error || refused first } := by
  unfold header1 refused get_opcode
  dsimp only
  rw [Bool.or_assoc]

theorem second_byte {n : Nat} (hn : n < 128) (mask : Option (Vector UInt8 4)) :
    (UInt8.ofNat n ||| maskBit mask).toNat % 128 = n ∧
      decide ((UInt8.ofNat n ||| maskBit mask) &&& bit7 ≠ 0) = mask.isSome := by
  have hset : ∀ i : Fin 128, (UInt8.ofNat i ||| bit7).toNat % 128 = i ∧ decide ((UInt8.ofNat i ||| bit7) &&& bit7 ≠ 0) = true := by
    decide
  have hunset : ∀ i : Fin 128, (UInt8.ofNat i ||| 0).toNat % 128 = i ∧ decide ((UInt8.ofNat i ||| 0) &&& bit7 ≠ 0) = false := by
    decide
  cases mask with
  | none => exact hunset ⟨n, hn⟩
  | some key => exact hset ⟨n, hn⟩

/-- A receiver that has the header of a frame. -/
structure InBody (w w' : WebSocketPipe) (first : UInt8) (mask : Option (Vector UInt8 4)) (n : Nat) : Prop where
  read_state : w'.read_state = .Body
  payload_size : w'.payload_size = n
  header_bits1 : w'.header_bits1 = first
  has_mask : w'.curr_has_read_mask = mask.isSome
  mask_eq : ∀ key, mask = some key → w'.read_mask = key ∧ w'.read_mask_idx = 0
  has_error : w'.has_error = (w.has_error || refused first || w.expect_read_mask && mask.isNone)
  sent : w'.sent = w.sent
  expect_read_mask : w'.expect_read_mask = w.expect_read_mask

theorem feed_mask {w : WebSocketPipe} (hstate : w.read_state = .HeaderMask) (hremaining : w.remaining_size_bytes = 4)
    (hconsumed : w.consumed_size_bytes = 0) (key : Vector UInt8 4) :
    w.feed key.toList = ({ w with
      read_state := .Body
      remaining_size_bytes := 0
      consumed_size_bytes := 4
      read_mask := key
      read_mask_idx := 0 }, []) := by
  obtain ⟨⟨list⟩, hlist⟩ := key
  obtain ⟨a, b, c, d, rfl⟩ : ∃ a b c d, list = [a, b, c, d] := by
    match list, hlist with
    | [a, b, c, d], _ => exact ⟨a, b, c, d, rfl⟩
  have hset : (((w.read_mask.setIfInBounds 0 a).setIfInBounds 1 b).setIfInBounds 2 c).setIfInBounds 3 d =
      (⟨#[a, b, c, d], hlist⟩ : Vector UInt8 4) := by
    refine Vector.ext fun i hi => ?_
    match i, hi with
    | 0, _ => simp
    | 1, _ => simp
    | 2, _ => simp
    | 3, _ => simp
  have hfeed : w.feed [a, b, c, d] = ({ w with
      read_state := .Body
      remaining_size_bytes := 0
      consumed_size_bytes := 4
      read_mask := (((w.read_mask.setIfInBounds 0 a).setIfInBounds 1 b).setIfInBounds 2 c).setIfInBounds 3 d
      read_mask_idx := 0 }, []) := by
    obtain ⟨_, _, _, _, _, _, _, _, _, _, _, _, _, _, _⟩ := w
    dsimp only at hstate hremaining hconsumed
    subst hstate hremaining hconsumed
    rfl
  rw [hset] at hfeed
  exact hfeed

/-- A receiver that has the size of a frame and knows if it has a mask. -/
structure Sized (w w' : WebSocketPipe) (mask : Option (Vector UInt8 4)) (n : Nat) : Prop where
  payload_size : w'.payload_size = n
  has_mask : w'.has_read_mask = mask.isSome
  header_bits1 : w'.header_bits1 = w.header_bits1
  has_error : w'.has_error = (w.has_error || w.expect_read_mask && mask.isNone)
  sent : w'.sent = w.sent
  expect_read_mask : w'.expect_read_mask = w.expect_read_mask

theorem feed_sizeBytes {w : WebSocketPipe} (hstate : w.read_state = .HeaderSize1) (mask : Option (Vector UInt8 4)) {n : Nat}
    (hn : n < 2 ^ 31) :
    ∃ w' : WebSocketPipe, w.feed (sizeBytes (maskBit mask) n) = (w'.afterSize, []) ∧ Sized w w' mask n := by
  have htake : ∀ b, w.settle.takeByte b = (w.headerSize1 b, []) := by
    intro b
    rw [settle_of_state w (by simp [hstate]), takeByte, hstate]
  have hnone : (!mask.isSome) = mask.isNone := by simp
  -- a size that follows in its own bytes
  have hlong : ∀ m k, m = 126 ∧ k = 2 ∨ m = 127 ∧ k = 8 → decodeSize 0 0 (leBytes k n) = n →
      ∃ w' : WebSocketPipe, w.feed ((UInt8.ofNat m ||| maskBit mask) :: leBytes k n) = (w'.afterSize, []) ∧
        Sized w w' mask n := by
    intro m k hmk hdecode
    obtain ⟨hvalue, hbit⟩ := second_byte (n := m) (by omega) mask
    have hsize : w.headerSize1 (UInt8.ofNat m ||| maskBit mask) = { w with
        header_bits2 := UInt8.ofNat m ||| maskBit mask
        has_error := w.has_error || w.expect_read_mask && mask.isNone
        remaining_size_bytes := k
        consumed_size_bytes := 0
        payload_size := 0
        read_state := .HeaderSize2 } := by
      unfold headerSize1 has_read_mask
      dsimp only
      rw [hvalue, hbit, hnone, if_neg (by omega), show (if m = 126 then 2 else 8) = k by split <;> omega]
    have hbytes : leBytes k n ≠ [] := List.ne_nil_of_length_pos (by rw [length_leBytes]; omega)
    rw [feed_cons, htake, hsize, feed_size rfl (by rw [length_leBytes]) hbytes]
    exact ⟨_, rfl, ⟨hdecode, hbit, rfl, rfl, rfl, rfl⟩⟩
  unfold sizeBytes
  split
  · exact hlong 127 8 (Or.inr ⟨rfl, rfl⟩) (decodeSize_eight hn)
  · split
    · exact hlong 126 2 (Or.inl ⟨rfl, rfl⟩) (decodeSize_two (by omega))
    · obtain ⟨hvalue, hbit⟩ := second_byte (n := n) (by omega) mask
      rw [feed_cons, htake]
      refine ⟨{ w with
        header_bits2 := UInt8.ofNat n ||| maskBit mask
        has_error := w.has_error || w.expect_read_mask && mask.isNone
        payload_size := n }, ?_, ⟨rfl, hbit, rfl, rfl, rfl, rfl⟩⟩
      unfold headerSize1 has_read_mask
      dsimp only
      rw [hvalue, hbit, hnone, if_pos (by omega)]
      rfl

/-- The header of a frame. -/
theorem feed_header {w : WebSocketPipe} (hstate : w.read_state = .Header1) (first : UInt8) (mask : Option (Vector UInt8 4))
    {n : Nat} (hn : n < 2 ^ 31) :
    ∃ w', w.feed (first :: (sizeBytes (maskBit mask) n ++ maskKey mask)) = (w', []) ∧ InBody w w' first mask n := by
  have htake : w.settle.takeByte first = (w.header1 first, []) := by
    rw [settle_of_state w (by simp [hstate]), takeByte, hstate]
  obtain ⟨w2, hfeed, hpayload, hmask, hbits, herror, hsent, hexpect⟩ :=
    feed_sizeBytes (w := w.header1 first) (by rw [header1_eq]) mask hn
  rw [header1_eq] at hbits herror hsent hexpect
  have herror : w2.has_error = (w.has_error || refused first || w.expect_read_mask && mask.isNone) := herror
  rw [feed_cons, htake, feed_append, hfeed]
  cases mask with
  | none =>
    refine ⟨{ w2 with curr_has_read_mask := false, read_state := .Body }, ?_, ⟨rfl, hpayload, hbits, rfl, ?_, herror, hsent, hexpect⟩⟩
    · rw [afterSize, if_neg (by simp [hmask])]
      rfl
    · intro key hkey
      cases hkey
  | some key =>
    refine ⟨{ w2 with
      curr_has_read_mask := true
      read_state := .Body
      remaining_size_bytes := 0
      consumed_size_bytes := 4
      read_mask := key
      read_mask_idx := 0 }, ?_, ⟨rfl, hpayload, hbits, rfl, ?_, herror, hsent, hexpect⟩⟩
    · rw [afterSize, if_pos (by simp [hmask])]
      dsimp only [maskKey]
      rw [feed_mask rfl rfl rfl]
      rfl
    · rintro _ ⟨⟩
      exact ⟨rfl, rfl⟩

end Header

end WebSocketPipe

end urbackup.websocket
