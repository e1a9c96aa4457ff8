import UrBackup.WebSocket.Stream

namespace urbackup.websocket

open stringtools filedata

namespace WebSocketPipe

section Stream

/-- The answers that were sent when all bytes have been read. An empty ping at
the end has none yet. -/
def answers : List Sent → Bytes
  | [] => []
  | [s] => if s.payload = [] then [] else s.answer
  | s :: t :: rest => s.answer ++ answers (t :: rest)

theorem answers_cons {sends : List Sent} (h : answers sends ≠ []) : ∃ rest, answers sends = (10 ||| bit7) :: rest := by
  induction sends with
  | nil => exact absurd rfl h
  | cons s sends ih =>
    cases s with
    | ping mask payload =>
      cases sends with
      | nil =>
        rw [answers] at h ⊢
        split
        · next hnil => exact absurd (if_pos hnil) h
        · exact ⟨_, rfl⟩
      | cons t sends => exact ⟨_, rfl⟩
    | write buffer =>
      cases sends with
      | nil => exact absurd (by simp [answers, Sent.answer]) h
      | cons t sends => exact ih h
    | pong mask payload =>
      cases sends with
      | nil => exact absurd (by simp [answers, Sent.answer]) h
      | cons t sends => exact ih h

/-- What was received of a stream. -/
theorem feed_stream {w : WebSocketPipe} (hstate : w.settle.read_state = .Header1) (hsettled : w.settle.has_error = w.has_error)
    (masks : Sent → Option (Vector UInt8 4)) {sends : List Sent} (hne : sends ≠ [])
    (hsends : ∀ s ∈ sends, s.payload.length < 2 ^ 31 ∧ (w.expect_read_mask = true → (masks s).isSome = true)) :
    ∃ w', w.feed (sends.flatMap fun s => frame s.first (masks s) s.payload) = (w', sends.flatMap Sent.data) ∧
      w'.has_error = (w.has_error || sends.any Sent.isPong) ∧ w'.sent = w.settle.sent ++ answers sends := by
  induction sends generalizing w with
  | nil => exact absurd rfl hne
  | cons s sends ih =>
    obtain ⟨hsize, hmask⟩ := hsends s List.mem_cons_self
    obtain ⟨v, hfeed, hv⟩ := feed_frame hstate s (masks s) hsize
    have hmasked : (w.expect_read_mask && (masks s).isNone) = false := by
      cases hexpect : w.expect_read_mask with
      | false => rfl
      | true => simpa using hmask hexpect
    have herror := hv.has_error
    rw [hmasked, Bool.or_false, hsettled] at herror
    rw [List.flatMap_cons, List.flatMap_cons, feed_append, hfeed]
    cases sends with
    | nil =>
      refine ⟨v, rfl, ?_, ?_⟩
      · rw [herror]
        simp
      · rw [hv.sent]
        rfl
    | cons t rest =>
      obtain ⟨w', hrest, herror', hsent'⟩ := ih hv.boundary hv.settled (by simp) fun r hr => by
        rw [hv.expect_read_mask]
        exact hsends r (List.mem_cons_of_mem _ hr)
      refine ⟨w', ?_, ?_, ?_⟩
      · rw [hrest]
      · rw [herror', herror, Bool.or_assoc]
        rfl
      · rw [hsent', hv.answered, List.append_assoc]
        rfl

/-- An error stays. -/
theorem feed_has_error {w : WebSocketPipe} (h : w.has_error = true) (bytes : Bytes) : (w.feed bytes).1.has_error = true := by
  have hend : ∀ {w : WebSocketPipe}, w.has_error = true → w.endOfFrame.has_error = true := by
    intro w h
    unfold endOfFrame
    dsimp only
    split
    · rfl
    · split <;> exact h
  have hafter : ∀ {w : WebSocketPipe}, w.has_error = true → w.afterSize.has_error = true := by
    intro w h
    unfold afterSize
    split <;> exact h
  induction bytes generalizing w with
  | nil => exact h
  | cons b bs ih =>
    rw [feed_cons]
    apply ih
    have hsettle : w.settle.has_error = true := by
      unfold settle
      split
      · exact hend h
      · exact h
    unfold takeByte
    split
    · rw [header1_eq]
      simp [hsettle]
    · unfold headerSize1
      dsimp only
      split
      · exact hafter (by simp [hsettle])
      · simp [hsettle]
    · unfold headerSize2
      dsimp only
      split
      · exact hafter hsettle
      · exact hsettle
    · unfold headerMask
      dsimp only
      split <;> exact hsettle
    · unfold bodyPart
      dsimp only
      split
      · exact hend hsettle
      · exact hsettle

/-- A pong without a mask key and with an even opcode is an error at the other
end. -/
theorem feed_answer {w : WebSocketPipe} (hstate : w.read_state = .Header1) (rest : Bytes) :
    (w.feed ((10 ||| bit7) :: rest)).1.has_error = true := by
  rw [feed_cons]
  apply feed_has_error
  have hrefused : refused (10 ||| bit7) = true := by decide
  rw [settle_of_state w (by simp [hstate]), takeByte, hstate]
  dsimp only
  rw [header1_eq, hrefused, Bool.or_true]

end Stream

section Read

/-- What `Read` gets is what some of the chunks have. -/
theorem readLoop_eq (w : WebSocketPipe) (chunks : List Bytes) :
    ∃ used, chunks = used ++ (w.readLoop chunks).2.2 ∧ (w.readLoop chunks).1 = (w.feed used.flatten).2 ∧
      (w.readLoop chunks).2.1 = (w.feed used.flatten).1 := by
  induction chunks generalizing w with
  | nil => exact ⟨[], rfl, rfl, rfl⟩
  | cons chunk chunks ih =>
    rw [readLoop]
    by_cases hempty : chunk.isEmpty = true
    · rw [if_pos hempty]
      refine ⟨[chunk], rfl, ?_, ?_⟩
      · rw [List.isEmpty_iff.mp hempty]
        rfl
      · rw [List.isEmpty_iff.mp hempty]
        rfl
    rw [if_neg hempty]
    obtain ⟨hw, hfront, hout, _, _⟩ := w.consume_eq (le_refl chunk.length)
    rw [List.take_length] at hw hfront hout
    dsimp only
    split
    · refine ⟨[chunk], rfl, ?_, ?_⟩
      · rw [hfront, List.flatten_cons, List.flatten_nil, List.append_nil]
      · rw [hw, List.flatten_cons, List.flatten_nil, List.append_nil]
    · next hzero =>
      have hnone : (w.feed chunk).2 = [] := List.eq_nil_of_length_eq_zero (by omega)
      obtain ⟨used, hchunks, hdata, hnext⟩ := ih (w.consume chunk chunk.length).w
      rw [hw] at hchunks hdata hnext
      refine ⟨chunk :: used, ?_, ?_, ?_⟩
      · rw [List.cons_append, hw, ← hchunks]
      · rw [List.flatten_cons, feed_append, hnone, hw, hdata]
        rfl
      · rw [List.flatten_cons, feed_append, hw, hnext]

/-- Without bytes from before, the reads get what the chunks have. -/
theorem readAll_eq (w : WebSocketPipe) (hadd : ∀ bytes, (w.feed bytes).1.pipe_add = []) (bsizes : List Nat)
    (chunks : List Bytes) :
    ∃ used, chunks = used ++ (w.readAll bsizes chunks).2.2 ∧ (w.readAll bsizes chunks).1 = (w.feed used.flatten).2 ∧
      (w.readAll bsizes chunks).2.1 = (w.feed used.flatten).1 := by
  induction bsizes generalizing w chunks with
  | nil => exact ⟨[], rfl, rfl, rfl⟩
  | cons bsize bsizes ih =>
    have hread : w.Read bsize chunks = w.readLoop chunks := by
      have hnil : w.pipe_add = [] := hadd []
      rw [Read, hnil]
      rfl
    obtain ⟨used, hchunks, hdata, hnext⟩ := w.readLoop_eq chunks
    obtain ⟨used', hchunks', hdata', hnext'⟩ := ih (w.readLoop chunks).2.1 (by
      intro bytes
      have hboth := hadd (used.flatten ++ bytes)
      rw [feed_append, ← hnext] at hboth
      exact hboth) (w.readLoop chunks).2.2
    refine ⟨used ++ used', ?_, ?_, ?_⟩
    · show chunks = used ++ used' ++ ((w.Read bsize chunks).2.1.readAll bsizes (w.Read bsize chunks).2.2).2.2
      rw [hread, List.append_assoc, ← hchunks']
      exact hchunks
    · show (w.Read bsize chunks).1 ++ ((w.Read bsize chunks).2.1.readAll bsizes (w.Read bsize chunks).2.2).1 = _
      rw [hread, hdata', hdata, List.flatten_append, feed_append, hnext]
    · show ((w.Read bsize chunks).2.1.readAll bsizes (w.Read bsize chunks).2.2).2.1 = _
      rw [hread, hnext', List.flatten_append, feed_append, hnext]

/-- The bytes from before stay as they are. -/
theorem feed_pipe_add (w : WebSocketPipe) (pipe_add bytes : Bytes) :
    ({ w with pipe_add }).feed bytes = ({ (w.feed bytes).1 with pipe_add }, (w.feed bytes).2) := by
  have hend : ∀ w : WebSocketPipe, ({ w with pipe_add }).endOfFrame = { w.endOfFrame with pipe_add } := by
    intro w
    unfold endOfFrame get_opcode
    dsimp only
    split
    · rfl
    · split <;> rfl
  have hafter : ∀ w : WebSocketPipe, ({ w with pipe_add }).afterSize = { w.afterSize with pipe_add } := by
    intro w
    unfold afterSize has_read_mask
    dsimp only
    split <;> rfl
  have hsettle : ∀ w : WebSocketPipe, ({ w with pipe_add }).settle = { w.settle with pipe_add } := by
    intro w
    unfold settle
    dsimp only
    split
    · exact hend w
    · rfl
  have htake : ∀ (w : WebSocketPipe) (b : UInt8),
      ({ w with pipe_add }).takeByte b = ({ (w.takeByte b).1 with pipe_add }, (w.takeByte b).2) := by
    intro w b
    unfold takeByte
    dsimp only
    split
    · rfl
    · unfold headerSize1
      dsimp only
      split
      · exact Prod.ext (hafter { w with
          header_bits2 := b
          has_error := w.has_error || w.expect_read_mask && !({ w with header_bits2 := b }).has_read_mask
          payload_size := b.toNat % 128 }) rfl
      · rfl
    · unfold headerSize2
      dsimp only
      split
      · exact Prod.ext (hafter { w with
          remaining_size_bytes := w.remaining_size_bytes - 1
          payload_size := w.payload_size ||| shiftedByte b w.consumed_size_bytes
          consumed_size_bytes := w.consumed_size_bytes + 1 }) rfl
      · rfl
    · unfold headerMask
      dsimp only
      split <;> rfl
    · refine Prod.ext ?_ rfl
      unfold bodyPart
      dsimp only
      split
      · next h =>
        rw [if_pos (by exact h)]
        exact hend (w.advance 1)
      · next h =>
        rw [if_neg (by exact h)]
        rfl
  induction bytes generalizing w with
  | nil => rfl
  | cons b bs ih => rw [feed_cons, feed_cons, hsettle, htake, ih]

/-- The first read takes the bytes from before, if it has room for them. -/
theorem Read_first (w : WebSocketPipe) {bsize : Nat} (hroom : w.pipe_add.length ≤ bsize) (chunks : List Bytes) :
    ∃ used, chunks = used ++ (w.Read bsize chunks).2.2 ∧
      (w.Read bsize chunks).1 = (w.feed (w.pipe_add ++ used.flatten)).2 ∧
      (w.Read bsize chunks).2.1 = { (w.feed (w.pipe_add ++ used.flatten)).1 with pipe_add := [] } := by
  obtain ⟨hw, hfront, hout, hconsumed, hrest⟩ := w.consume_eq (Nat.min_le_right bsize w.pipe_add.length)
  rw [Nat.min_eq_right hroom, List.take_length] at hw hfront hout
  rw [Nat.min_eq_right hroom] at hconsumed hrest
  rw [List.drop_length] at hrest
  unfold Read
  dsimp only
  rw [Nat.min_eq_right hroom]
  by_cases hempty : w.pipe_add.isEmpty = true
  · have hnil := List.isEmpty_iff.mp hempty
    obtain ⟨used, hchunks, hdata, hnext⟩ := w.readLoop_eq chunks
    have hself : { w with pipe_add := [] } = w := by rw [← hnil]
    have hadd := w.feed_pipe_add [] used.flatten
    rw [hself] at hadd
    rw [if_pos hempty]
    refine ⟨used, hchunks, ?_, ?_⟩
    · rw [hdata, hnil]
      rfl
    · rw [hnext, hnil, List.nil_append]
      exact congrArg Prod.fst hadd
  rw [if_neg hempty, hconsumed, hrest]
  split
  · refine ⟨[], rfl, ?_, ?_⟩
    · rw [hfront, List.flatten_nil, List.append_nil]
    · rw [hw, List.flatten_nil, List.append_nil]
  · next hzero =>
    have hnone : (w.feed w.pipe_add).2 = [] := List.eq_nil_of_length_eq_zero (by omega)
    obtain ⟨used, hchunks, hdata, hnext⟩ :=
      ({ (w.consume w.pipe_add w.pipe_add.length).w with pipe_add := [] } : WebSocketPipe).readLoop_eq chunks
    refine ⟨used, hchunks, ?_, ?_⟩
    · rw [hdata, feed_pipe_add, feed_append, hw, hnone]
      rfl
    · rw [hnext, feed_pipe_add, feed_append, hw]

/-- When all bytes were read, they were read in their order. -/
theorem readAll_wire (w : WebSocketPipe) (bsizes : List Nat) (chunks : List Bytes)
    (hroom : ∀ bsize ∈ bsizes.head?, w.pipe_add.length ≤ bsize) (hchunks : (w.readAll bsizes chunks).2.2 = [])
    (hadd : (w.readAll bsizes chunks).2.1.pipe_add = []) :
    (w.readAll bsizes chunks).1 = (w.feed (w.pipe_add ++ chunks.flatten)).2 ∧
      (w.readAll bsizes chunks).2.1 = { (w.feed (w.pipe_add ++ chunks.flatten)).1 with pipe_add := [] } := by
  cases bsizes with
  | nil =>
    have hchunks : chunks = [] := hchunks
    have hadd : w.pipe_add = [] := hadd
    rw [hchunks, hadd]
    refine ⟨rfl, ?_⟩
    show w = { w with pipe_add := [] }
    rw [← hadd]
  | cons bsize bsizes =>
    obtain ⟨used, hused, hdata, hnext⟩ := w.Read_first (hroom bsize rfl) chunks
    have hempty : ∀ bytes, ((w.Read bsize chunks).2.1.feed bytes).1.pipe_add = [] := by
      intro bytes
      rw [hnext, feed_pipe_add]
    obtain ⟨used', hused', hdata', hnext'⟩ := (w.Read bsize chunks).2.1.readAll_eq hempty bsizes (w.Read bsize chunks).2.2
    have hrest : ((w.Read bsize chunks).2.1.readAll bsizes (w.Read bsize chunks).2.2).2.2 = [] := hchunks
    rw [hrest, List.append_nil] at hused'
    have hflat : w.pipe_add ++ chunks.flatten = (w.pipe_add ++ used.flatten) ++ used'.flatten := by
      rw [List.append_assoc, ← List.flatten_append, ← hused', ← hused]
    have hkeep := feed_pipe_add (w.feed (w.pipe_add ++ used.flatten)).1 [] used'.flatten
    rw [hflat, feed_append]
    constructor
    · show (w.Read bsize chunks).1 ++ ((w.Read bsize chunks).2.1.readAll bsizes (w.Read bsize chunks).2.2).1 = _
      rw [hdata', hdata, hnext, hkeep]
    · show ((w.Read bsize chunks).2.1.readAll bsizes (w.Read bsize chunks).2.2).2.1 = _
      rw [hnext', hnext, hkeep]

end Read

/-- An end that has not read or written anything. -/
structure Fresh (w : WebSocketPipe) : Prop where
  read_state : w.read_state = .Header1
  has_error : w.has_error = false
  sent : w.sent = []

theorem sendAll_eq (w : WebSocketPipe) (sends : List Sent) : ∃ sent, w.sendAll sends = { w with sent } := by
  induction sends generalizing w with
  | nil => exact ⟨w.sent, rfl⟩
  | cons s sends ih =>
    obtain ⟨sent, hsent⟩ := ih (w.send s)
    refine ⟨sent, ?_⟩
    rw [sendAll, List.foldl_cons, ← sendAll, hsent, send_eq]

end WebSocketPipe

open WebSocketPipe

/-- No pong, and a ping at most at the end, where an empty one is not answered
yet. -/
def Quiet : List Sent → Prop
  | [] => True
  | .write _ :: sends => Quiet sends
  | .ping _ payload :: sends => payload = [] ∧ sends = []
  | .pong _ _ :: _ => False

theorem quiet_iff (sends : List Sent) : Quiet sends ↔ sends.any Sent.isPong = false ∧ answers sends = [] := by
  induction sends with
  | nil => simp [Quiet, answers]
  | cons s sends ih =>
    cases s with
    | write buffer =>
      rw [Quiet, ih]
      cases sends with
      | nil => simp [answers, Sent.answer, Sent.isPong]
      | cons t sends => simp [answers, Sent.answer, Sent.isPong]
    | ping mask payload =>
      cases sends with
      | nil =>
        by_cases hnil : payload = []
        · simp [Quiet, answers, Sent.isPong, Sent.payload, hnil]
        · simp [Quiet, answers, Sent.answer, Sent.isPong, Sent.payload, hnil]
      | cons t sends => simp [Quiet, answers, Sent.answer]
    | pong mask payload => simp [Quiet, Sent.isPong]

/-- The reads of one end return what the other one wrote, no end has an error,
and the answers leave the parser of the writer at the start of a frame. -/
def Carried (writer reader : WebSocketPipe) (sends : List Sent) (bsizes : List Nat) (chunks : List Bytes) : Prop :=
  let reader' := (reader.readAll bsizes chunks).2.1
  let writer' := ((writer.sendAll sends).consume reader'.sent reader'.sent.length).w
  (reader.readAll bsizes chunks).1 = sends.flatMap Sent.data ∧ reader'.has_error = false ∧ writer'.has_error = false ∧
    writer'.read_state = .Header1

/-- For any writes, splits of the bytes and reads until all of them are used, the
stream is carried exactly if no pong comes and no ping that is answered. -/
theorem carried_iff_quiet (writer reader : WebSocketPipe) (hwriter : writer.Fresh) (hreader : reader.Fresh)
    (sends : List Sent) (hsends : ∀ s ∈ sends, s.Allowed writer reader) (bsizes : List Nat) (chunks : List Bytes)
    (hwire : reader.pipe_add ++ chunks.flatten = (writer.sendAll sends).sent)
    (hroom : ∀ bsize ∈ bsizes.head?, reader.pipe_add.length ≤ bsize)
    (hchunks : (reader.readAll bsizes chunks).2.2 = []) (hadd : (reader.readAll bsizes chunks).2.1.pipe_add = []) :
    Carried writer reader sends bsizes chunks ↔ Quiet sends := by
  have hsettle : reader.settle = reader := settle_of_state reader (by simp [hreader.read_state])
  have hsizes : ∀ s ∈ sends, s.payload.length < 2 ^ 31 ∧ (reader.expect_read_mask = true → (s.mask writer).isSome = true) := by
    intro s hs
    obtain ⟨hmask, hsize⟩ := hsends s hs
    refine ⟨?_, hmask⟩
    cases s with
    | write buffer => exact hsize
    | ping mask payload => exact lt_of_le_of_lt hsize (by decide)
    | pong mask payload => exact lt_of_le_of_lt hsize (by decide)
  have hfeed : ∃ w', reader.feed (writer.sendAll sends).sent = (w', sends.flatMap Sent.data) ∧
      w'.has_error = sends.any Sent.isPong ∧ w'.sent = answers sends := by
    rw [sendAll_sent, hwriter.sent, List.nil_append]
    by_cases hne : sends = []
    · subst hne
      exact ⟨reader, rfl, hreader.has_error, hreader.sent⟩
    · obtain ⟨w', hw', herror, hsent⟩ := feed_stream (hsettle.symm ▸ hreader.read_state) (by rw [hsettle])
        (fun s => s.mask writer) hne hsizes
      rw [hsettle, hreader.sent, List.nil_append] at hsent
      rw [hreader.has_error, Bool.false_or] at herror
      exact ⟨w', hw', herror, hsent⟩
  obtain ⟨w', hw', herror, hsent⟩ := hfeed
  obtain ⟨hdata, hnext⟩ := reader.readAll_wire bsizes chunks hroom hchunks hadd
  rw [hwire, hw'] at hdata hnext
  obtain ⟨sent, hwriter'⟩ := writer.sendAll_eq sends
  unfold Carried
  dsimp only
  rw [hdata, hnext, hwriter', quiet_iff]
  dsimp only
  rw [herror, hsent, ((({ writer with sent } : WebSocketPipe).consume_eq (le_refl (answers sends).length))).1, List.take_length]
  constructor
  · rintro ⟨_, hpong, hanswer, _⟩
    refine ⟨hpong, ?_⟩
    by_contra hne
    obtain ⟨rest, hrest⟩ : ∃ rest, answers sends = (10 ||| bit7) :: rest := answers_cons hne
    rw [hrest, feed_answer (by exact hwriter.read_state)] at hanswer
    cases hanswer
  · rintro ⟨hpong, hanswer⟩
    rw [hanswer]
    exact ⟨rfl, hpong, hwriter.has_error, hwriter.read_state⟩

theorem carried_masked :
    Carried (construct true false #v[7, 8, 9, 10] []) (construct false true (Vector.replicate 4 0) [0x82, 0x83, 7])
      [.write [1, 2, 3], .write []] [1024, 1024, 1024] [[8], [9, 10, 6], [10, 10, 0x82, 0x80, 7, 8, 9], [10]] := by
  refine (carried_iff_quiet _ _ ⟨rfl, rfl, rfl⟩ ⟨rfl, rfl, rfl⟩ _ ?_ _ _ ?_ ?_ ?_ ?_).mpr trivial
  · simp [Sent.Allowed, Sent.mask, writeMask, construct]
  · decide
  · decide
  · decide
  · decide

/-- The answer to a ping is an error at the end that sent it. -/
theorem not_carried_ping :
    ((construct false false (Vector.replicate 4 0) []).sendAll [.write [1], .ping none [5], .write [2]]).sent =
      [0x82, 1, 1, 0x89, 1, 5, 0x82, 1, 2] ∧
    ¬ Carried (construct false false (Vector.replicate 4 0) []) (construct false false (Vector.replicate 4 0) [])
      [.write [1], .ping none [5], .write [2]] [1024, 1024] [[0x82, 1, 1], [0x89, 1, 5, 0x82, 1, 2]] := by
  refine ⟨by decide, ?_⟩
  unfold Carried
  decide

end urbackup.websocket
