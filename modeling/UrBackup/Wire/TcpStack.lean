import UrBackup.FileData.Slices
import UrBackup.FileData.LittleEndian
import UrBackup.FileList.StringTools

namespace urbackup.tcpstack

open stringtools filedata

def MAX_PACKET : Nat := 4096

def checksum_len : Nat := 16

/-- The size of the length in front of a message. -/
def length_size : Nat := 4

structure CTCPStack where
  buffer : Bytes
  add_checksum : Bool
  max_packet_size : Nat

namespace CTCPStack

variable (md5 : Bytes → Bytes) (st : CTCPStack)

/-- Data that does not fit into the buffer is refused. -/
def AddData (data : Bytes) : Bool × CTCPStack :=
  if data.length > 0 then
    if st.buffer.length + data.length > st.max_packet_size then (false, st)
    else (true, { st with buffer := st.buffer ++ data })
  else (true, st)

/-- A message behind its length. -/
def framed (msg : Bytes) : Bytes :=
  leBytes length_size (msg.length % 2 ^ 32) ++ msg

/-- What is sent for a message. -/
def packet (msg : Bytes) : Bytes :=
  if st.add_checksum then md5 ((framed msg).take (msg.length % 2 ^ 32 + length_size)) ++ framed msg else framed msg

/-- What `Send` writes to the pipe, write by write; a message that is too large
is refused. -/
def Send (msg : Bytes) : Option (List Bytes) :=
  if msg.length > st.max_packet_size then none else some (pieces MAX_PACKET (st.packet md5 msg))

/-- Where the length of the next message is. -/
def len_off : Nat :=
  if st.add_checksum then checksum_len else 0

/-- The message at the front of the buffer. One with a wrong checksum is dropped
without a result. -/
def getPacket : Option Bytes × CTCPStack :=
  if st.buffer.length ≥ st.len_off + length_size then
    let len := leValue (slice st.buffer st.len_off length_size)
    if len < st.max_packet_size ∧ st.buffer.length ≥ st.len_off + len + length_size then
      let next := { st with buffer := st.buffer.drop (st.len_off + len + length_size) }
      if st.add_checksum ∧ md5 (slice st.buffer checksum_len (len + length_size)) ≠ st.buffer.take checksum_len then
        (none, next)
      else (some (slice st.buffer (st.len_off + length_size) len), next)
    else (none, st)
  else (none, st)

theorem getPacket_shorter {msg : Bytes} {next : CTCPStack} (h : st.getPacket md5 = (some msg, next)) :
    next.buffer.length < st.buffer.length := by
  unfold getPacket at h
  dsimp only at h
  split at h
  · next hheader =>
    split at h
    · split at h
      · cases h
      · cases h
        rw [List.length_drop]
        simp only [length_size] at hheader ⊢
        omega
    · cases h
  · cases h

/-- `getPacket` until it has no result. -/
def getPackets (st : CTCPStack) : List Bytes × CTCPStack :=
  match _h : st.getPacket md5 with
  | (some msg, next) =>
    let rest := getPackets next
    (msg :: rest.1, rest.2)
  | (none, next) => ([], next)
termination_by st.buffer.length
decreasing_by exact getPacket_shorter md5 st _h

/-- The messages that come out while data comes in. -/
def receive (st : CTCPStack) : List Bytes → List Bytes × CTCPStack
  | [] => ([], st)
  | data :: rest =>
    let got := ((st.AddData data).2).getPackets md5
    let more := receive got.2 rest
    (got.1 ++ more.1, more.2)

/-- No data is refused. -/
def Accepts (st : CTCPStack) : List Bytes → Prop
  | [] => True
  | data :: rest => (st.AddData data).1 = true ∧ Accepts (((st.AddData data).2).getPackets md5).2 rest

theorem getPackets_none {md5 : Bytes → Bytes} {st next : CTCPStack} (h : st.getPacket md5 = (none, next)) :
    st.getPackets md5 = ([], next) := by
  rw [getPackets]
  split
  · next hsome => cases h.symm.trans hsome
  · next hnone =>
    cases h.symm.trans hnone
    rfl

theorem getPackets_some {md5 : Bytes → Bytes} {st next : CTCPStack} {msg : Bytes}
    (h : st.getPacket md5 = (some msg, next)) :
    st.getPackets md5 = (msg :: (next.getPackets md5).1, (next.getPackets md5).2) := by
  rw [getPackets]
  split
  · next hsome =>
    cases h.symm.trans hsome
    rfl
  · next hnone => cases h.symm.trans hnone

section Packets

variable {md5} (hmd5 : ∀ data, (md5 data).length = checksum_len) {st}

/-- A state that holds the given data. -/
def holding (st : CTCPStack) (buffer : Bytes) : CTCPStack :=
  { st with buffer }

include hmd5 in
theorem length_packet (msg : Bytes) : (st.packet md5 msg).length = st.len_off + msg.length + length_size := by
  unfold packet len_off
  cases st.add_checksum with
  | true =>
    simp only [if_true, List.length_append, hmd5, framed, length_leBytes]
    omega
  | false =>
    simp only [Bool.false_eq_true, if_false, List.length_append, framed, length_leBytes]
    omega

include hmd5 in
theorem drop_len_off (msg tail : Bytes) : (st.packet md5 msg ++ tail).drop st.len_off = framed msg ++ tail := by
  unfold packet len_off
  cases st.add_checksum with
  | true =>
    rw [if_pos rfl, if_pos rfl, List.append_assoc]
    exact List.drop_left' (hmd5 _)
  | false => rfl

/-- The length is read back as soon as it is there. -/
theorem leValue_framed {msg tail : Bytes} (hmsg : msg.length < 2 ^ 32) :
    leValue ((framed msg ++ tail).take length_size) = msg.length := by
  rw [framed, List.append_assoc, List.take_left' (length_leBytes _ _), Nat.mod_eq_of_lt hmsg]
  exact leValue_leBytes hmsg

theorem getPacket_incomplete
    (h : st.len_off + length_size ≤ st.buffer.length →
      st.buffer.length < st.len_off + leValue (slice st.buffer st.len_off length_size) + length_size) :
    st.getPacket md5 = (none, st) := by
  unfold getPacket
  by_cases hheader : st.len_off + length_size ≤ st.buffer.length
  · have hshort := h hheader
    rw [if_pos hheader]
    dsimp only
    rw [if_neg (by omega)]
  · rw [if_neg hheader]

theorem getPacket_complete {len : Nat} (hheader : st.len_off + length_size ≤ st.buffer.length)
    (hlen : leValue (slice st.buffer st.len_off length_size) = len) (hmax : len < st.max_packet_size)
    (hall : st.len_off + len + length_size ≤ st.buffer.length)
    (hsum : st.add_checksum = true →
      md5 (slice st.buffer checksum_len (len + length_size)) = st.buffer.take checksum_len) :
    st.getPacket md5 = (some (slice st.buffer (st.len_off + length_size) len),
      st.holding (st.buffer.drop (st.len_off + len + length_size))) := by
  unfold getPacket
  rw [if_pos hheader]
  dsimp only
  rw [hlen, if_pos ⟨hmax, hall⟩, if_neg]
  · rfl
  · rintro ⟨hchecksum, hwrong⟩
    exact hwrong (hsum hchecksum)

include hmd5 in
/-- A whole packet at the front of the buffer is taken out. -/
theorem getPacket_whole {msg : Bytes} (tail : Bytes) (hmsg : msg.length < 2 ^ 32) (hmax : msg.length < st.max_packet_size) :
    (st.holding (st.packet md5 msg ++ tail)).getPacket md5 = (some msg, st.holding tail) := by
  have hlen := @length_packet md5 st hmd5 msg
  have hframe := @drop_len_off md5 st hmd5 msg tail
  have hread : leValue (slice (st.packet md5 msg ++ tail) st.len_off length_size) = msg.length := by
    rw [slice, hframe]
    exact leValue_framed hmsg
  have hdata : slice (st.packet md5 msg ++ tail) (st.len_off + length_size) msg.length = msg := by
    rw [slice, ← List.drop_drop, hframe, framed, List.append_assoc, List.drop_left' (length_leBytes _ _), List.take_left]
  have hall : st.len_off + msg.length + length_size ≤ (st.packet md5 msg ++ tail).length := by
    rw [List.length_append]
    omega
  have hget := @getPacket_complete md5 (st.holding (st.packet md5 msg ++ tail)) msg.length
    (show st.len_off + length_size ≤ (st.packet md5 msg ++ tail).length by omega) hread hmax hall ?_
  · refine hget.trans ?_
    show (some (slice (st.packet md5 msg ++ tail) (st.len_off + length_size) msg.length),
      st.holding ((st.packet md5 msg ++ tail).drop (st.len_off + msg.length + length_size))) = _
    rw [hdata, List.drop_left' hlen]
  intro (hchecksum : st.add_checksum = true)
  show md5 (slice (st.packet md5 msg ++ tail) _ _) = (st.packet md5 msg ++ tail).take _
  rw [packet, if_pos hchecksum, List.append_assoc, List.take_left' (hmd5 _), slice, List.drop_left' (hmd5 _),
    Nat.mod_eq_of_lt hmsg, List.take_append_of_le_length]
  rw [framed, List.length_append, length_leBytes]
  omega

include hmd5 in
/-- Part of a packet stays in the buffer. -/
theorem getPacket_part {msg buffer more tail : Bytes} (hmsg : msg.length < 2 ^ 32)
    (hbuffer : buffer ++ more = st.packet md5 msg ++ tail) (hpart : buffer.length < (st.packet md5 msg).length) :
    (st.holding buffer).getPacket md5 = (none, st.holding buffer) := by
  refine getPacket_incomplete fun (hheader : st.len_off + length_size ≤ buffer.length) => ?_
  show buffer.length < st.len_off + leValue (slice buffer st.len_off length_size) + length_size
  rw [← slice_append_left more hheader, hbuffer, slice, @drop_len_off md5 st hmd5, leValue_framed hmsg]
  rwa [@length_packet md5 st hmd5] at hpart

end Packets

section Stream

variable {md5} (hmd5 : ∀ data, (md5 data).length = checksum_len) {st}

include hmd5

/-- From the beginning of a stream of packets the whole ones are taken out. -/
theorem getPackets_stream (msgs : List Bytes) (hmsgs : ∀ msg ∈ msgs, msg.length < 2 ^ 32) (buffer more : Bytes)
    (hbuffer : buffer ++ more = msgs.flatMap (st.packet md5)) (hmax : buffer.length ≤ st.max_packet_size) :
    ∃ got rest buffer', (st.holding buffer).getPackets md5 = (got, st.holding buffer') ∧ msgs = got ++ rest ∧
      buffer' ++ more = rest.flatMap (st.packet md5) ∧ buffer'.length ≤ buffer.length ∧
      ∀ msg ∈ rest.head?, buffer'.length < (st.packet md5 msg).length := by
  induction msgs generalizing buffer with
  | nil =>
    have hempty : buffer = [] := (List.append_eq_nil_iff.mp hbuffer).1
    have hnone : (st.holding buffer).getPacket md5 = (none, st.holding buffer) := by
      refine getPacket_incomplete fun hheader => ?_
      rw [hempty] at hheader
      exact absurd hheader (by simp [holding, length_size])
    exact ⟨[], [], buffer, getPackets_none hnone, rfl, hbuffer, Nat.le_refl _, by simp⟩
  | cons msg msgs ih =>
    have hmsg := hmsgs msg List.mem_cons_self
    rw [List.flatMap_cons] at hbuffer
    by_cases hpart : buffer.length < (st.packet md5 msg).length
    · have hnone := getPacket_part hmd5 hmsg hbuffer hpart
      refine ⟨[], msg :: msgs, buffer, getPackets_none hnone, rfl, by rw [hbuffer, List.flatMap_cons], Nat.le_refl _, ?_⟩
      rintro _ ⟨⟩
      exact hpart
    · obtain ⟨tail, htail⟩ : ∃ tail, buffer = st.packet md5 msg ++ tail :=
        List.prefix_of_prefix_length_le ⟨_, rfl⟩ ⟨_, hbuffer⟩ (by omega) |>.imp fun _ h => h.symm
      subst htail
      have hlen := @length_packet md5 st hmd5 msg
      rw [List.length_append] at hmax
      have hsome := @getPacket_whole md5 st hmd5 msg tail hmsg (by simp only [length_size] at hlen; omega)
      obtain ⟨got, rest, buffer', hgot, hsplit, hrest, hle, hhead⟩ :=
        ih (fun m hm => hmsgs m (List.mem_cons_of_mem _ hm)) tail
          (by rw [List.append_assoc] at hbuffer; exact List.append_cancel_left hbuffer) (by omega)
      refine ⟨msg :: got, rest, buffer', ?_, by rw [hsplit]; rfl, hrest, by rw [List.length_append]; omega, hhead⟩
      rw [getPackets_some hsome, hgot]

omit hmd5 in
/-- Data that is not refused goes to the end of the buffer. -/
theorem AddData_accepted {buffer data : Bytes} (hmax : buffer.length ≤ st.max_packet_size)
    (h : ((st.holding buffer).AddData data).1 = true) :
    ((st.holding buffer).AddData data).2 = st.holding (buffer ++ data) ∧
      (buffer ++ data).length ≤ st.max_packet_size := by
  unfold AddData at h ⊢
  by_cases hdata : data.length > 0
  · rw [if_pos hdata] at h ⊢
    split at h
    · cases h
    · next hfits =>
      rw [if_neg hfits, List.length_append]
      exact ⟨rfl, Nat.not_lt.mp hfits⟩
  · have hempty : data = [] := List.eq_nil_of_length_eq_zero (by omega)
    rw [if_neg hdata, hempty, List.append_nil]
    exact ⟨rfl, hmax⟩

/-- Whatever way the stream is cut, the messages come out. -/
theorem receive_stream (msgs : List Bytes) (hmsgs : ∀ msg ∈ msgs, msg.length < 2 ^ 32) (buffer : Bytes)
    (hmax : buffer.length ≤ st.max_packet_size) (fragments : List Bytes)
    (hstream : buffer ++ fragments.flatten = msgs.flatMap (st.packet md5))
    (hpart : ∀ msg ∈ msgs.head?, buffer.length < (st.packet md5 msg).length)
    (haccepts : (st.holding buffer).Accepts md5 fragments) :
    (st.holding buffer).receive md5 fragments = (msgs, st.holding []) := by
  induction fragments generalizing msgs buffer with
  | nil =>
    rw [List.flatten_nil, List.append_nil] at hstream
    cases msgs with
    | nil =>
      rw [hstream]
      rfl
    | cons msg msgs =>
      have hshort := hpart msg rfl
      rw [hstream, List.flatMap_cons, List.length_append] at hshort
      omega
  | cons data fragments ih =>
    obtain ⟨haccepted, hrest⟩ := haccepts
    obtain ⟨hadd, hfits⟩ := AddData_accepted hmax haccepted
    rw [List.flatten_cons, ← List.append_assoc] at hstream
    obtain ⟨got, rest, buffer', hgot, hsplit, hstream', hle, hhead⟩ :=
      getPackets_stream hmd5 msgs hmsgs (buffer ++ data) fragments.flatten hstream hfits
    rw [hadd, hgot] at hrest
    have hrec := ih rest (fun msg hmsg => hmsgs msg (by rw [hsplit]; exact List.mem_append_right _ hmsg)) buffer'
      (by omega) hstream' hhead hrest
    rw [receive, hadd, hgot]
    dsimp only
    rw [hrec, hsplit]

end Stream

section Accepts

variable {md5} {st}

theorem getPacket_le {result : Option Bytes} {next : CTCPStack} (h : st.getPacket md5 = (result, next)) :
    next.buffer.length ≤ st.buffer.length ∧ next.max_packet_size = st.max_packet_size := by
  unfold getPacket at h
  dsimp only at h
  split at h
  · split at h
    · split at h
      · cases h
        exact ⟨by rw [List.length_drop]; omega, rfl⟩
      · cases h
        exact ⟨by rw [List.length_drop]; omega, rfl⟩
    · cases h
      exact ⟨Nat.le_refl _, rfl⟩
  · cases h
    exact ⟨Nat.le_refl _, rfl⟩

theorem getPackets_le (st : CTCPStack) :
    (st.getPackets md5).2.buffer.length ≤ st.buffer.length ∧
      (st.getPackets md5).2.max_packet_size = st.max_packet_size := by
  fun_induction getPackets md5 st with
  | case1 st msg next h rest ih =>
    obtain ⟨hle, hmax⟩ := getPacket_le h
    exact ⟨Nat.le_trans ih.1 hle, ih.2.trans hmax⟩
  | case2 st next h => exact getPacket_le h

/-- A stream that fits into the buffer as a whole is never refused. -/
theorem accepts_of_le (st : CTCPStack) (fragments : List Bytes)
    (h : st.buffer.length + fragments.flatten.length ≤ st.max_packet_size) : st.Accepts md5 fragments := by
  induction fragments generalizing st with
  | nil => trivial
  | cons data fragments ih =>
    rw [List.flatten_cons, List.length_append] at h
    have hadd : (st.AddData data).1 = true ∧ (st.AddData data).2.buffer.length = st.buffer.length + data.length ∧
        (st.AddData data).2.max_packet_size = st.max_packet_size := by
      unfold AddData
      by_cases hdata : data.length > 0
      · rw [if_pos hdata, if_neg (by omega)]
        exact ⟨rfl, List.length_append, rfl⟩
      · rw [if_neg hdata]
        exact ⟨rfl, show st.buffer.length = _ by omega, rfl⟩
    obtain ⟨hle, hmax⟩ := @getPackets_le md5 (st.AddData data).2
    exact ⟨hadd.1, ih _ (by omega)⟩

end Accepts

/-- Messages that were sent come out as they are, in order and whatever way
the stream is cut, as long as no data is refused. -/
theorem receive_sent (md5 : Bytes → Bytes) (hmd5 : ∀ data, (md5 data).length = checksum_len) (sender receiver : CTCPStack)
    (hchecksum : sender.add_checksum = receiver.add_checksum) (hempty : receiver.buffer = []) (msgs : List Bytes)
    (hmsgs : ∀ msg ∈ msgs, msg.length < 2 ^ 32) (writes : List (List Bytes))
    (hsend : msgs.map (sender.Send md5) = writes.map some) (fragments : List Bytes)
    (hcut : fragments.flatten = writes.flatten.flatten) (haccepts : receiver.Accepts md5 fragments) :
    (receiver.receive md5 fragments).1 = msgs := by
  have hstream : ∀ (msgs : List Bytes) (writes : List (List Bytes)), msgs.map (sender.Send md5) = writes.map some →
      writes.flatten.flatten = msgs.flatMap (receiver.packet md5) := by
    intro msgs
    induction msgs with
    | nil =>
      intro writes hsend
      rw [List.map_eq_nil_iff.mp hsend.symm]
      rfl
    | cons msg msgs ih =>
      intro writes hsend
      cases writes with
      | nil => cases hsend
      | cons write writes =>
        rw [List.map_cons, List.map_cons, List.cons.injEq] at hsend
        have hwrite : write.flatten = receiver.packet md5 msg := by
          have hsent := hsend.1
          unfold Send at hsent
          split at hsent
          · cases hsent
          · cases hsent
            rw [flatten_pieces (by decide), packet, packet, hchecksum]
        rw [List.flatten_cons, List.flatten_append, hwrite, ih writes hsend.2, List.flatMap_cons]
  have hreceiver : receiver = receiver.holding [] := by
    rw [← hempty]
    rfl
  rw [hreceiver] at haccepts ⊢
  rw [receive_stream hmd5 msgs hmsgs [] (Nat.zero_le _) fragments _ _ haccepts]
  · rw [List.nil_append, hcut]
    exact hstream msgs writes hsend
  · intro msg _
    rw [@length_packet md5 receiver hmd5, List.length_nil]
    simp only [length_size]
    omega

theorem receive_sent_split :
    ((⟨[], false, 100⟩ : CTCPStack).receive (fun _ => List.replicate 16 0) [[2, 0], [0, 0, 7], [8, 0, 0, 0, 0]]).1 =
      [[7, 8], []] :=
  receive_sent (fun _ => List.replicate 16 0) (fun _ => rfl) ⟨[], false, 100⟩ ⟨[], false, 100⟩ rfl rfl [[7, 8], []]
    (by decide) [[[2, 0, 0, 0, 7, 8]], [[0, 0, 0, 0]]] (by simp [Send, packet, framed, leBytes, length_size, pieces, MAX_PACKET])
    _ rfl (accepts_of_le _ _ (by decide))

/-- Two messages that come in at once do not fit, though each of them does. -/
theorem receive_sent_refused :
    let stack : CTCPStack := ⟨[], false, 10⟩
    let md5 : Bytes → Bytes := fun _ => List.replicate 16 0
    [[1, 2], [3, 4]].map (stack.Send md5) = [some [[2, 0, 0, 0, 1, 2]], some [[2, 0, 0, 0, 3, 4]]] ∧
      (stack.receive md5 [[2, 0, 0, 0, 1, 2, 2, 0, 0, 0, 3, 4]]).1 = [] := by
  intro stack md5
  have hnone : stack.getPacket md5 = (none, stack) := rfl
  constructor
  · simp [stack, Send, packet, framed, leBytes, length_size, pieces, MAX_PACKET]
  · show (stack.getPackets md5).1 ++ [] = []
    rw [getPackets_none hnone]
    rfl

end CTCPStack

end urbackup.tcpstack
