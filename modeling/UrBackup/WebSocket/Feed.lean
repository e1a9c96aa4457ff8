import UrBackup.WebSocket.WebSocketPipe

namespace urbackup.websocket

open stringtools filedata

namespace WebSocketPipe

/-- The end of an empty payload is seen with the next byte. -/
def settle (w : WebSocketPipe) : WebSocketPipe :=
  if w.read_state = .Body ∧ w.payload_size = 0 then w.endOfFrame else w

/-- The data in a part of a payload. -/
def dataOf (w : WebSocketPipe) (bytes : Bytes) : Bytes :=
  if w.is_data then if w.curr_has_read_mask then xorMask w.read_mask w.read_mask_idx bytes else bytes else []

/-- After a part of a payload that is not its end. -/
def advance (w : WebSocketPipe) (n : Nat) : WebSocketPipe :=
  { w with
    payload_size := w.payload_size - n
    read_mask_idx := w.read_mask_idx + if w.is_data ∧ w.curr_has_read_mask then n else 0 }

def bodyPart (w : WebSocketPipe) (n : Nat) : WebSocketPipe :=
  if (w.advance n).payload_size = 0 then (w.advance n).endOfFrame else w.advance n

def takeByte (w : WebSocketPipe) (b : UInt8) : WebSocketPipe × Bytes :=
  match w.read_state with
  | .Header1 => (w.header1 b, [])
  | .HeaderSize1 => (w.headerSize1 b, [])
  | .HeaderSize2 => (w.headerSize2 b, [])
  | .HeaderMask => (w.headerMask b, [])
  | .Body => (w.bodyPart 1, w.dataOf [b])

/-- What happens byte by byte. -/
def feed (w : WebSocketPipe) : Bytes → WebSocketPipe × Bytes
  | [] => (w, [])
  | b :: bs =>
    let (w, out) := w.settle.takeByte b
    let (w, outs) := feed w bs
    (w, out ++ outs)

section Feed

variable (w : WebSocketPipe)

theorem feed_cons (b : UInt8) (bs : Bytes) :
    w.feed (b :: bs) = (((w.settle.takeByte b).1.feed bs).1, (w.settle.takeByte b).2 ++ ((w.settle.takeByte b).1.feed bs).2) :=
  rfl

theorem feed_append (bs cs : Bytes) :
    w.feed (bs ++ cs) = (((w.feed bs).1.feed cs).1, (w.feed bs).2 ++ ((w.feed bs).1.feed cs).2) := by
  induction bs generalizing w with
  | nil => rfl
  | cons b bs ih => rw [List.cons_append, feed_cons, feed_cons, ih, List.append_assoc]

@[simp] theorem endOfFrame_read_state : w.endOfFrame.read_state = .Header1 := by
  unfold endOfFrame
  dsimp only
  split
  · rfl
  · split <;> rfl

theorem settle_of_state (h : w.read_state ≠ .Body) : w.settle = w :=
  if_neg fun hbody => h hbody.1

theorem settle_of_payload (h : w.payload_size ≠ 0) : w.settle = w :=
  if_neg fun hbody => h hbody.2

theorem settle_settle : w.settle.settle = w.settle := by
  by_cases h : w.read_state = .Body ∧ w.payload_size = 0
  · rw [settle_of_state]
    rw [settle, if_pos h, endOfFrame_read_state]
    decide
  · have hsettle : w.settle = w := if_neg h
    rw [hsettle, hsettle]

theorem feed_settle {bytes : Bytes} (h : bytes ≠ []) : w.settle.feed bytes = w.feed bytes := by
  cases bytes with
  | nil => exact absurd rfl h
  | cons b bs => rw [feed_cons, feed_cons, settle_settle]

@[simp] theorem length_xorMask (mask : Vector UInt8 4) (idx : Nat) (bytes : Bytes) :
    (xorMask mask idx bytes).length = bytes.length := by
  induction bytes generalizing idx with
  | nil => rfl
  | cons b bs ih => rw [xorMask, List.length_cons, List.length_cons, ih]

theorem dataOf_cons (b : UInt8) (bs : Bytes) : w.dataOf (b :: bs) = w.dataOf [b] ++ (w.advance 1).dataOf bs := by
  unfold dataOf
  by_cases hdata : w.is_data = true
  · by_cases hmask : w.curr_has_read_mask = true
    · have hidx : (w.advance 1).read_mask_idx = w.read_mask_idx + 1 := by simp [advance, hdata, hmask]
      rw [if_pos hdata, if_pos hmask, if_pos hdata, if_pos hmask,
        if_pos (show (w.advance 1).is_data = true from hdata),
        if_pos (show (w.advance 1).curr_has_read_mask = true from hmask), hidx]
      rfl
    · rw [if_pos hdata, if_neg hmask, if_pos hdata, if_neg hmask,
        if_pos (show (w.advance 1).is_data = true from hdata),
        if_neg (show ¬ (w.advance 1).curr_has_read_mask = true from hmask)]
      rfl
  · rw [if_neg hdata, if_neg hdata, if_neg (show ¬ (w.advance 1).is_data = true from hdata)]
    rfl

theorem advance_zero : w.advance 0 = w := by
  simp [advance]

theorem advance_advance (n m : Nat) : (w.advance n).advance m = w.advance (n + m) := by
  have hdata : (w.advance n).is_data = w.is_data := rfl
  unfold advance
  dsimp only
  congr 1
  · omega
  · show _ + (if (w.advance n).is_data = true ∧ w.curr_has_read_mask = true then m else 0) = _
    rw [hdata]
    split <;> omega

/-- A part of a payload. -/
theorem feed_body {bytes : Bytes} (hstate : w.read_state = .Body) (hne : bytes ≠ [])
    (hle : bytes.length ≤ w.payload_size) : w.feed bytes = (w.bodyPart bytes.length, w.dataOf bytes) := by
  induction bytes generalizing w with
  | nil => exact absurd rfl hne
  | cons b bs ih =>
    rw [List.length_cons] at hle ⊢
    have htake : w.settle.takeByte b = (w.bodyPart 1, w.dataOf [b]) := by
      rw [settle_of_payload w (by omega), takeByte, hstate]
    rw [feed_cons, htake]
    by_cases hbs : bs = []
    · subst hbs
      exact Prod.ext rfl (List.append_nil _)
    · have hlength := List.length_pos_of_ne_nil hbs
      have hpart : w.bodyPart 1 = w.advance 1 := by
        rw [bodyPart, if_neg]
        show ¬ w.payload_size - 1 = 0
        omega
      rw [hpart, ih (w.advance 1) hstate hbs (by show bs.length ≤ w.payload_size - 1; omega), dataOf_cons w b bs]
      have hall : (w.advance 1).bodyPart bs.length = w.bodyPart (bs.length + 1) := by
        rw [bodyPart, advance_advance, Nat.add_comm 1]
        rfl
      rw [hall]

end Feed

end WebSocketPipe

namespace ConsumeState

theorem unmaskLoop_eq (n : Nat) {c : ConsumeState} (hout : c.out_off ≤ c.consumed)
    (hlength : c.consumed + n ≤ c.buffer.length) :
    c.unmaskLoop n =
      { w := { c.w with read_mask_idx := c.w.read_mask_idx + n }
        buffer := overwrite 0 c.buffer c.out_off
          (xorMask c.w.read_mask c.w.read_mask_idx (slice c.buffer c.consumed n))
        consumed := c.consumed + n
        out_off := c.out_off + n } := by
  induction n generalizing c with
  | zero => simp [unmaskLoop, slice, xorMask]
  | succ n ih =>
    have hset := set_eq_overwrite 0 (show c.out_off < c.buffer.length by omega)
    have hdrop : (overwrite 0 c.buffer c.out_off
        [c.buffer.getD c.consumed 0 ^^^ maskByte c.w.read_mask c.w.read_mask_idx]).drop (c.consumed + 1) =
          c.buffer.drop (c.consumed + 1) :=
      drop_overwrite 0 (by rw [List.length_singleton]; omega)
    have hfirst : slice c.buffer c.consumed (n + 1) = c.buffer.getD c.consumed 0 :: slice c.buffer (c.consumed + 1) n := by
      rw [Nat.add_comm n 1, slice_add]
      have hone : slice c.buffer c.consumed 1 = [c.buffer.getD c.consumed 0] := by
        rw [slice, List.take_one_drop_eq_of_lt_length (show c.consumed < c.buffer.length by omega)]
        simp [show c.consumed < c.buffer.length by omega]
      rw [hone]
      rfl
    rw [unmaskLoop, ih (by dsimp only; omega) (by rw [List.length_set]; dsimp only; omega)]
    dsimp only
    have hover := overwrite_overwrite 0 c.buffer
      [c.buffer.getD c.consumed 0 ^^^ maskByte c.w.read_mask c.w.read_mask_idx]
      (xorMask c.w.read_mask (c.w.read_mask_idx + 1) (slice c.buffer (c.consumed + 1) n)) c.out_off
    rw [List.length_singleton] at hover
    rw [hset, slice_congr hdrop, hover, hfirst, Nat.add_assoc, Nat.add_assoc c.consumed, Nat.add_assoc c.out_off 1 n, Nat.add_comm 1 n]
    rfl

/-- All of the data in a part of a payload is at the front afterwards. -/
theorem movePayload_eq {n : Nat} {c : ConsumeState} (hout : c.out_off ≤ c.consumed)
    (hlength : c.consumed + n ≤ c.buffer.length) :
    c.movePayload n =
      { w := { c.w with read_mask_idx := c.w.read_mask_idx + if c.w.is_data ∧ c.w.curr_has_read_mask then n else 0 }
        buffer := overwrite 0 c.buffer c.out_off (c.w.dataOf (slice c.buffer c.consumed n))
        consumed := c.consumed + n
        out_off := c.out_off + (c.w.dataOf (slice c.buffer c.consumed n)).length } := by
  have hn : (slice c.buffer c.consumed n).length = n := by
    rw [length_slice]
    omega
  unfold movePayload WebSocketPipe.dataOf
  by_cases hdata : c.w.is_data = true
  · rw [if_neg (by simp [hdata]), if_pos hdata]
    by_cases hmask : c.w.curr_has_read_mask = true
    · rw [if_pos hmask, if_pos hmask, if_pos ⟨hdata, hmask⟩, unmaskLoop_eq n hout hlength, WebSocketPipe.length_xorMask, hn]
    · rw [if_neg hmask, if_neg hmask, if_neg (show ¬ (c.w.is_data = true ∧ c.w.curr_has_read_mask = true) from fun h => hmask h.2), hn]
      by_cases heq : c.out_off = c.consumed
      · rw [if_pos heq, heq, overwrite_slice_self 0 hlength]
        rfl
      · rw [if_neg heq]
        rfl
  · rw [if_pos (by simpa using hdata), if_neg hdata, if_neg (show ¬ (c.w.is_data = true ∧ c.w.curr_has_read_mask = true) from fun h => hdata h.1)]
    rfl

/-- What a round does to a part of a payload. -/
theorem body_eq {bsize : Nat} {c : ConsumeState} (hout : c.out_off ≤ c.consumed) (hlt : c.consumed < bsize)
    (hlength : bsize ≤ c.buffer.length) {n : Nat} (hn : n = min (bsize - c.consumed) c.w.payload_size) :
    c.body bsize =
      { w := c.w.bodyPart n
        buffer := overwrite 0 c.buffer c.out_off (c.w.dataOf (slice c.buffer c.consumed n))
        consumed := c.consumed + n
        out_off := c.out_off + (c.w.dataOf (slice c.buffer c.consumed n)).length } := by
  have hend : ∀ d : ConsumeState, (if d.w.payload_size = 0 then { d with w := d.w.endOfFrame } else d) =
      ⟨if d.w.payload_size = 0 then d.w.endOfFrame else d.w, d.buffer, d.consumed, d.out_off⟩ := by
    intro d
    split <;> rfl
  unfold body
  dsimp only
  rw [← hn, movePayload_eq (by exact hout) (by dsimp only; omega), hend]
  rfl

/-- The rounds that are enough. -/
def rounds (bsize : Nat) (c : ConsumeState) : Nat :=
  2 * (bsize - c.consumed) + if c.w.read_state = .Body then 1 else 0

/-- What a buffer and the state became, when a part of it was used. -/
structure Used (bsize : Nat) (c c' : ConsumeState) (n : Nat) : Prop where
  w_eq : c'.w = (c.w.feed (slice c.buffer c.consumed n)).1
  front : c'.buffer.take c'.out_off = c.buffer.take c.out_off ++ (c.w.feed (slice c.buffer c.consumed n)).2
  consumed_eq : c'.consumed = c.consumed + n
  out_off_le : c'.out_off ≤ c'.consumed
  rest : c'.buffer.drop c'.consumed = c.buffer.drop c'.consumed
  length_eq : c'.buffer.length = c.buffer.length

theorem used_zero {bsize : Nat} {c : ConsumeState} (hout : c.out_off ≤ c.consumed) : Used bsize c c 0 where
  w_eq := rfl
  front := (List.append_nil _).symm
  consumed_eq := rfl
  out_off_le := hout
  rest := rfl
  length_eq := rfl

theorem Used.trans {bsize n m : Nat} {a b c : ConsumeState} (hab : Used bsize a b n) (hbc : Used bsize b c m) :
    Used bsize a c (n + m) := by
  have hslice : slice b.buffer b.consumed m = slice a.buffer (a.consumed + n) m := by
    rw [← hab.consumed_eq]
    exact slice_congr hab.rest
  have hfeed := a.w.feed_append (slice a.buffer a.consumed n) (slice a.buffer (a.consumed + n) m)
  rw [← slice_add, ← hab.w_eq, ← hslice] at hfeed
  refine ⟨?_, ?_, ?_, hbc.out_off_le, ?_, hbc.length_eq.trans hab.length_eq⟩
  · rw [hfeed, hbc.w_eq]
  · rw [hfeed, hbc.front, hab.front, List.append_assoc]
  · rw [hbc.consumed_eq, hab.consumed_eq, Nat.add_assoc]
  · rw [hbc.rest, hbc.consumed_eq, ← List.drop_drop, hab.rest, List.drop_drop]

theorem used_header {bsize : Nat} {c : ConsumeState} {next : WebSocketPipe → UInt8 → WebSocketPipe}
    (hout : c.out_off ≤ c.consumed) (hlt : c.consumed < bsize) (hlength : bsize ≤ c.buffer.length)
    (hstate : c.w.read_state ≠ .Body) (htake : ∀ b, c.w.takeByte b = (next c.w b, [])) :
    Used bsize c (c.header next) 1 := by
  have hslice : slice c.buffer c.consumed 1 = [c.buffer.getD c.consumed 0] := by
    rw [slice, List.take_one_drop_eq_of_lt_length (show c.consumed < c.buffer.length by omega)]
    simp [show c.consumed < c.buffer.length by omega]
  have hfeed : c.w.feed (slice c.buffer c.consumed 1) = (next c.w (c.buffer.getD c.consumed 0), []) := by
    rw [hslice, WebSocketPipe.feed_cons, WebSocketPipe.settle_of_state _ hstate, htake]
    rfl
  refine ⟨?_, ?_, rfl, ?_, rfl, rfl⟩
  · rw [hfeed]
    rfl
  · rw [hfeed, List.append_nil]
    rfl
  · exact Nat.le_succ_of_le hout

theorem used_body {bsize : Nat} {c : ConsumeState} (hout : c.out_off ≤ c.consumed) (hlt : c.consumed < bsize)
    (hlength : bsize ≤ c.buffer.length) (hstate : c.w.read_state = .Body) (hpayload : c.w.payload_size ≠ 0) :
    Used bsize c (c.body bsize) (min (bsize - c.consumed) c.w.payload_size) := by
  obtain ⟨n, hn⟩ : ∃ n, n = min (bsize - c.consumed) c.w.payload_size := ⟨_, rfl⟩
  have hslice : (slice c.buffer c.consumed n).length = n := by
    rw [length_slice]
    omega
  have hfeed := c.w.feed_body hstate (List.ne_nil_of_length_pos (by rw [hslice]; omega)) (by rw [hslice]; omega)
  rw [hslice] at hfeed
  have hdata : (c.w.dataOf (slice c.buffer c.consumed n)).length ≤ n := by
    unfold WebSocketPipe.dataOf
    split
    · split
      · rw [WebSocketPipe.length_xorMask, hslice]
      · rw [hslice]
    · exact Nat.zero_le _
  rw [body_eq hout hlt hlength hn, ← hn]
  refine ⟨?_, ?_, rfl, ?_, ?_, ?_⟩
  · rw [hfeed]
  · rw [hfeed]
    exact take_overwrite 0 (by omega) _
  · dsimp only
    omega
  · exact drop_overwrite 0 (by dsimp only; omega)
  · exact length_overwrite 0 (by omega)

theorem loop_eq {bsize fuel : Nat} {c : ConsumeState} (hout : c.out_off ≤ c.consumed) (hle : c.consumed ≤ bsize)
    (hlength : bsize ≤ c.buffer.length) (hfuel : c.rounds bsize ≤ fuel) :
    Used bsize c (loop bsize fuel c) (bsize - c.consumed) := by
  induction fuel generalizing c with
  | zero =>
    have hzero : bsize - c.consumed = 0 := by
      unfold rounds at hfuel
      omega
    rw [hzero, loop]
    exact used_zero hout
  | succ fuel ih =>
    rw [loop]
    by_cases hlt : c.consumed < bsize
    · rw [if_pos hlt]
      -- one round, and then the others
      have hround : ∀ n, Used bsize c (c.step bsize) n → c.consumed + n ≤ bsize → (c.step bsize).rounds bsize ≤ fuel →
          Used bsize c (loop bsize fuel (c.step bsize)) (bsize - c.consumed) := by
        intro n hused hn hrounds
        have hrest := ih hused.out_off_le (by rw [hused.consumed_eq]; exact hn) (by rw [hused.length_eq]; exact hlength) hrounds
        rw [show bsize - c.consumed = n + (bsize - (c.step bsize).consumed) by rw [hused.consumed_eq]; omega]
        exact hused.trans hrest
      have hheader : ∀ next, c.step bsize = c.header next → c.w.read_state ≠ .Body →
          (∀ b, c.w.takeByte b = (next c.w b, [])) → Used bsize c (loop bsize fuel (c.step bsize)) (bsize - c.consumed) := by
        intro next hstep hstate htake
        refine hround 1 (hstep ▸ used_header hout hlt hlength hstate htake) hlt ?_
        unfold rounds at hfuel ⊢
        rw [if_neg hstate] at hfuel
        rw [hstep]
        show 2 * (bsize - (c.consumed + 1)) + _ ≤ fuel
        split <;> omega
      cases hstate : c.w.read_state with
      | Header1 => exact hheader _ (by rw [step, hstate]) (by simp [hstate]) fun b => by rw [WebSocketPipe.takeByte, hstate]
      | HeaderSize1 => exact hheader _ (by rw [step, hstate]) (by simp [hstate]) fun b => by rw [WebSocketPipe.takeByte, hstate]
      | HeaderSize2 => exact hheader _ (by rw [step, hstate]) (by simp [hstate]) fun b => by rw [WebSocketPipe.takeByte, hstate]
      | HeaderMask => exact hheader _ (by rw [step, hstate]) (by simp [hstate]) fun b => by rw [WebSocketPipe.takeByte, hstate]
      | Body =>
        have hstep : c.step bsize = c.body bsize := by rw [step, hstate]
        unfold rounds at hfuel
        rw [if_pos hstate] at hfuel
        by_cases hpayload : c.w.payload_size = 0
        · have hsettle : c.step bsize = { c with w := c.w.settle } := by
            have hpart : c.w.bodyPart 0 = c.w.settle := by
              rw [WebSocketPipe.bodyPart, WebSocketPipe.advance_zero, if_pos hpayload, WebSocketPipe.settle,
                if_pos ⟨hstate, hpayload⟩]
            rw [hstep, body_eq hout hlt hlength (show 0 = min (bsize - c.consumed) c.w.payload_size by omega), hpart]
            simp [slice, WebSocketPipe.dataOf, xorMask]
          have hread : c.w.settle.read_state = .Header1 := by
            rw [WebSocketPipe.settle, if_pos ⟨hstate, hpayload⟩, WebSocketPipe.endOfFrame_read_state]
          rw [hsettle]
          have hrest := ih (c := { c with w := c.w.settle }) hout hle hlength (by
            unfold rounds
            dsimp only
            rw [if_neg (by simp [hread])]
            omega)
          have hne : slice c.buffer c.consumed (bsize - c.consumed) ≠ [] :=
            List.ne_nil_of_length_pos (by rw [length_slice]; omega)
          have hfeed := c.w.feed_settle hne
          refine ⟨?_, ?_, hrest.consumed_eq, hrest.out_off_le, hrest.rest, hrest.length_eq⟩
          · rw [← hfeed]
            exact hrest.w_eq
          · rw [← hfeed]
            exact hrest.front
        · refine hround _ (hstep ▸ used_body hout hlt hlength hstate hpayload) (by omega) ?_
          unfold rounds
          rw [hstep, body_eq hout hlt hlength rfl]
          dsimp only
          split <;> omega
    · rw [if_neg hlt, show bsize - c.consumed = 0 by omega]
      exact used_zero hout

end ConsumeState

namespace WebSocketPipe

/-- However the bytes come, `consume` does what they do one by one. -/
theorem consume_eq (w : WebSocketPipe) {buffer : Bytes} {bsize : Nat} (hlength : bsize ≤ buffer.length) :
    (w.consume buffer bsize).w = (w.feed (buffer.take bsize)).1 ∧
    (w.consume buffer bsize).buffer.take (w.consume buffer bsize).out_off = (w.feed (buffer.take bsize)).2 ∧
    (w.consume buffer bsize).out_off = (w.feed (buffer.take bsize)).2.length ∧
    (w.consume buffer bsize).consumed = bsize ∧ (w.consume buffer bsize).buffer.drop bsize = buffer.drop bsize := by
  have hrounds : ConsumeState.rounds bsize ⟨w, buffer, 0, 0⟩ ≤ 2 * bsize + 1 := by
    unfold ConsumeState.rounds
    dsimp only
    split <;> omega
  have hused := ConsumeState.loop_eq (le_refl 0) (Nat.zero_le bsize) hlength hrounds
  obtain ⟨hw, hfront, hconsumed, hout, hrest, hbuf⟩ := hused
  have hslice : slice buffer 0 (bsize - 0) = buffer.take bsize := by simp [slice]
  dsimp only at hw hfront hconsumed hrest hbuf
  rw [hslice] at hw hfront
  rw [Nat.sub_zero, Nat.zero_add] at hconsumed
  rw [List.take_zero, List.nil_append] at hfront
  rw [hconsumed] at hrest
  refine ⟨hw, hfront, ?_, hconsumed, hrest⟩
  rw [← hfront, List.length_take]
  unfold consume
  omega

end WebSocketPipe

end urbackup.websocket
