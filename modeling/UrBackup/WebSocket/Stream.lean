import UrBackup.WebSocket.Frames

namespace urbackup.websocket

open stringtools filedata

/-- What is sent by one end: data, and pings and pongs between it. -/
inductive Sent
  | write (buffer : Bytes)
  | ping (mask : Option (Vector UInt8 4)) (payload : Bytes)
  | pong (mask : Option (Vector UInt8 4)) (payload : Bytes)

namespace Sent

def first : Sent → UInt8
  | write _ => bit7 ||| 2
  | ping _ _ => bit7 ||| 9
  | pong _ _ => bit7 ||| 10

def opcode : Sent → UInt8
  | write _ => 2
  | ping _ _ => 9
  | pong _ _ => 10

def payload : Sent → Bytes
  | write buffer => buffer
  | ping _ payload => payload
  | pong _ payload => payload

def mask (writer : WebSocketPipe) : Sent → Option (Vector UInt8 4)
  | write _ => writer.writeMask
  | ping mask _ => mask
  | pong mask _ => mask

/-- The data in it. -/
def data : Sent → Bytes
  | write buffer => buffer
  | _ => []

def isPong : Sent → Bool
  | pong _ _ => true
  | _ => false

/-- How a receiver answers. -/
def answer : Sent → Bytes
  | ping _ _ => [10 ||| bit7, bit7]
  | _ => []

/-- What a sender may send to a receiver. -/
def Allowed (writer reader : WebSocketPipe) (s : Sent) : Prop :=
  (reader.expect_read_mask = true → (s.mask writer).isSome = true) ∧
  match s with
  | write buffer => buffer.length < 2 ^ 31
  | ping _ payload => payload.length ≤ 125
  | pong _ payload => payload.length ≤ 125

end Sent

/-- One end sends. -/
def WebSocketPipe.send (w : WebSocketPipe) (s : Sent) : WebSocketPipe :=
  match s with
  | .write buffer => w.Write buffer
  | .ping mask payload => { w with sent := w.sent ++ frame (bit7 ||| 9) mask payload }
  | .pong mask payload => { w with sent := w.sent ++ frame (bit7 ||| 10) mask payload }

def WebSocketPipe.sendAll (w : WebSocketPipe) (sends : List Sent) : WebSocketPipe :=
  sends.foldl send w

namespace WebSocketPipe

theorem send_eq (w : WebSocketPipe) (s : Sent) :
    w.send s = { w with sent := w.sent ++ frame s.first (s.mask w) s.payload } := by
  cases s with
  | write buffer => exact Write_sent w buffer
  | ping mask payload => rfl
  | pong mask payload => rfl

theorem sendAll_sent (w : WebSocketPipe) (sends : List Sent) :
    (w.sendAll sends).sent = w.sent ++ sends.flatMap fun s => frame s.first (s.mask w) s.payload := by
  induction sends generalizing w with
  | nil => exact (List.append_nil _).symm
  | cons s sends ih =>
    have hmask : ∀ t : Sent, t.mask (w.send s) = t.mask w := by
      intro t
      rw [send_eq]
      cases t <;> rfl
    rw [sendAll, List.foldl_cons, ← sendAll, ih, List.flatMap_cons, ← List.append_assoc]
    simp only [hmask]
    rw [send_eq]

section Frame

/-- At the end of a frame. -/
theorem endOfFrame_eq (w : WebSocketPipe) (h : w.header_bits1 &&& 15 ≠ 8) :
    w.endOfFrame = { w with
      read_state := .Header1
      sent := w.sent ++ if w.header_bits1 &&& 15 = 9 then [10 ||| bit7, bit7] else [] } := by
  unfold endOfFrame get_opcode
  dsimp only
  rw [if_neg h]
  split
  · rfl
  · rw [List.append_nil]

theorem xorMask_xorMask (mask : Vector UInt8 4) (idx : Nat) (bytes : Bytes) :
    xorMask mask idx (xorMask mask idx bytes) = bytes := by
  induction bytes generalizing idx with
  | nil => rfl
  | cons b bs ih => rw [xorMask, xorMask, ih, UInt8.xor_assoc, UInt8.xor_self, UInt8.xor_zero]

theorem dataOf_masked {v w : WebSocketPipe} {first : UInt8} {mask : Option (Vector UInt8 4)} {n : Nat}
    (h : InBody v w first mask n) (payload : Bytes) :
    w.dataOf (masked mask payload) = if first &&& 15 = 0 ∨ first &&& 15 = 1 ∨ first &&& 15 = 2 then payload else [] := by
  have hdata : w.is_data = decide (first &&& 15 = 0 ∨ first &&& 15 = 1 ∨ first &&& 15 = 2) := by
    unfold is_data get_opcode
    rw [h.header_bits1]
  have hpayload : (if w.curr_has_read_mask then xorMask w.read_mask w.read_mask_idx (masked mask payload)
      else masked mask payload) = payload := by
    rw [h.has_mask]
    cases hmask : mask with
    | none => rfl
    | some key =>
      obtain ⟨hkey, hidx⟩ := h.mask_eq key hmask
      rw [hkey, hidx, if_pos (Option.isSome_some)]
      exact xorMask_xorMask key 0 payload
  unfold dataOf
  rw [hpayload, hdata]
  simp only [decide_eq_true_eq]

/-- What a frame does to a receiver that is at the start of one. -/
structure Received (w w' : WebSocketPipe) (s : Sent) (mask : Option (Vector UInt8 4)) : Prop where
  boundary : w'.settle.read_state = .Header1
  has_error : w'.has_error = (w.settle.has_error || s.isPong || w.expect_read_mask && mask.isNone)
  settled : w'.settle.has_error = w'.has_error
  answered : w'.settle.sent = w.settle.sent ++ s.answer
  sent : w'.sent = w.settle.sent ++ if s.payload = [] then [] else s.answer
  expect_read_mask : w'.expect_read_mask = w.expect_read_mask

theorem first_opcode (s : Sent) : s.first &&& 15 = s.opcode := by
  cases s with
  | write _ => exact (by decide : (bit7 ||| 2) &&& 15 = 2)
  | ping _ _ => exact (by decide : (bit7 ||| 9) &&& 15 = 9)
  | pong _ _ => exact (by decide : (bit7 ||| 10) &&& 15 = 10)

/-- Of what is sent a receiver refuses the pongs: their opcode is even. -/
theorem refused_first (s : Sent) : refused s.first = s.isPong := by
  cases s with
  | write _ => exact (by decide : refused (bit7 ||| 2) = false)
  | ping _ _ => exact (by decide : refused (bit7 ||| 9) = false)
  | pong _ _ => exact (by decide : refused (bit7 ||| 10) = true)

theorem feed_frame {w : WebSocketPipe} (hstate : w.settle.read_state = .Header1) (s : Sent)
    (mask : Option (Vector UInt8 4)) (hsize : s.payload.length < 2 ^ 31) :
    ∃ w', w.feed (frame s.first mask s.payload) = (w', s.data) ∧ Received w w' s mask := by
  have hopcode : s.first &&& 15 ≠ 8 := by
    rw [first_opcode]
    cases s <;> simp [Sent.opcode]
  have hanswer : (if s.first &&& 15 = 9 then [10 ||| bit7, bit7] else []) = s.answer := by
    rw [first_opcode]
    cases s <;> simp [Sent.opcode, Sent.answer]
  have hdata : (if s.first &&& 15 = 0 ∨ s.first &&& 15 = 1 ∨ s.first &&& 15 = 2 then s.payload else []) = s.data := by
    rw [first_opcode]
    cases s <;> simp [Sent.opcode, Sent.data, Sent.payload]
  have hexpect : w.settle.expect_read_mask = w.expect_read_mask := by
    unfold settle endOfFrame
    dsimp only
    repeat' split
    all_goals rfl
  obtain ⟨v, hheader, hv⟩ := feed_header hstate s.first mask hsize
  have hfeed : w.feed (frame s.first mask s.payload) = v.feed (masked mask s.payload) := by
    have hsplit : frame s.first mask s.payload =
        (s.first :: (sizeBytes (maskBit mask) s.payload.length ++ maskKey mask)) ++ masked mask s.payload := rfl
    rw [← feed_settle w (by simp [frame]), hsplit, feed_append, hheader]
    rfl
  have hend : v.endOfFrame = { v with read_state := .Header1, sent := v.sent ++ s.answer } := by
    rw [endOfFrame_eq v (by rw [hv.header_bits1]; exact hopcode), hv.header_bits1, hanswer]
  by_cases hnil : s.payload = []
  · -- an empty payload ends with the next byte
    have hsettle : v.settle = v.endOfFrame := if_pos ⟨hv.read_state, by rw [hv.payload_size, hnil]; rfl⟩
    have hmasked : masked mask s.payload = [] := by
      rw [hnil]
      cases mask <;> rfl
    have hnone : s.data = [] := by
      rw [← hdata, hnil]
      split <;> rfl
    refine ⟨v, ?_, ?_, ?_, ?_, ?_, ?_, ?_⟩
    · rw [hfeed, hmasked, hnone]
      rfl
    · rw [hsettle, hend]
    · rw [hv.has_error, refused_first, hexpect]
    · rw [hsettle, hend]
    · rw [hsettle, hend, ← hv.sent]
    · rw [if_pos hnil, List.append_nil, hv.sent]
    · rw [hv.expect_read_mask, hexpect]
  · have hlength : (masked mask s.payload).length = s.payload.length := by
      cases mask with
      | none => rfl
      | some key => exact length_xorMask key 0 s.payload
    have hpos := List.length_pos_of_ne_nil hnil
    have hbody := feed_body v hv.read_state (List.ne_nil_of_length_pos (by rw [hlength]; exact hpos))
      (by rw [hlength, hv.payload_size])
    obtain ⟨t, ht⟩ : ∃ t, v.advance s.payload.length = t := ⟨_, rfl⟩
    have hpart : v.bodyPart s.payload.length = { t with read_state := .Header1, sent := t.sent ++ s.answer } := by
      have hbits : t.header_bits1 = s.first := by rw [← ht]; exact hv.header_bits1
      rw [bodyPart, ht, if_pos (by rw [← ht]; show v.payload_size - _ = 0; rw [hv.payload_size]; omega),
        endOfFrame_eq t (by rw [hbits]; exact hopcode), hbits, hanswer]
    have herror : t.has_error = v.has_error := by rw [← ht]; rfl
    have hsent : t.sent = w.settle.sent := by rw [← hv.sent, ← ht]; rfl
    have hmask : t.expect_read_mask = v.expect_read_mask := by rw [← ht]; rfl
    rw [hlength, dataOf_masked hv, hdata, hpart] at hbody
    refine ⟨_, hfeed.trans hbody, ?_⟩
    have hsettle := settle_of_state { t with read_state := .Header1, sent := t.sent ++ s.answer } EReadState.noConfusion
    refine ⟨?_, ?_, ?_, ?_, ?_, ?_⟩
    · rw [hsettle]
    · dsimp only
      rw [herror, hv.has_error, refused_first, hexpect]
    · rw [hsettle]
    · rw [hsettle, ← hsent]
    · rw [if_neg hnil, ← hsent]
    · exact hmask.trans (hv.expect_read_mask.trans hexpect)

end Frame

end WebSocketPipe

end urbackup.websocket
