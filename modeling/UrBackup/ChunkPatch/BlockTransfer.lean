import UrBackup.ChunkPatch.Receiver
import UrBackup.Crypto.Md5
import UrBackup.Crypto.Sha2

namespace urbackup.chunkpatch

open stringtools filedata chunkhash FileClientChunked

/-- The size of the old file, as its chunk hashes say, unless it is a part of it. -/
def hashfilesize (file chunkhashes : Bytes) : Nat :=
  min (leValue (chunkhashes.take 8)) file.length

def num_chunks (hashfilesize : Nat) : Nat :=
  hashfilesize / c_checkpoint_dist + if hashfilesize % c_checkpoint_dist ≠ 0 then 1 else 0

/-- The request for a block, by its hashes where there are some. -/
def blockRequest (file chunkhashes : Bytes) (next_chunk : Nat) : SChunk :=
  let read := slice chunkhashes (chunkhash_file_off + chunkhash_single_size * next_chunk) chunkhash_single_size
  if next_chunk < num_chunks (hashfilesize file chunkhashes) ∧ read ≠ [] then
    let hashes := read ++ List.replicate (chunkhash_single_size - read.length) 0
    ⟨c_checkpoint_dist * next_chunk, false, hashes.take big_hash_size, hashes.drop big_hash_size⟩
  else ⟨c_checkpoint_dist * next_chunk, true, [], []⟩

/-- The number of requests that may be without an answer. -/
def c_max_queued_chunks : Nat := 1000

/-- The loop that asks begins with fewer of them. -/
def c_queued_chunks_low : Nat := 100

/-- Whether the block of a packet was asked for. -/
def Packet.requested (pending_chunks : List Nat) : Packet → Bool
  | .wholeBlock block_start _ | .noChange block_start => decide (block_start ∈ pending_chunks)
  | .updateChunk new_chunk_start _ => decide (new_chunk_start / c_checkpoint_dist * c_checkpoint_dist ∈ pending_chunks)
  | _ => true

/-- What is read next. Of the data of a block or a chunk any part can be there. -/
def arrive (n : Nat) : List Packet → Option (Packet × List Packet)
  | [] => none
  | .data buf :: later => some (.data (buf.take n), dataPackets (buf.drop n) ++ later)
  | packet :: later => some (packet, later)

/-- A connection on which a block is loaded again. -/
structure OutOfBand where
  chunk_pos : Nat
  incoming : List Packet

/-- A transfer between a client and a sender. `incoming` has what was sent and not received
yet: the answers to the requests, in their order. `compared` has the data that was found to
have the same hash, and that of the remote file. -/
structure Transfer where
  receiver : Receiver
  next_chunk : Nat
  pending_chunks : List Nat
  incoming : List Packet
  out_of_band : Option OutOfBand
  compared : List (Bytes × Bytes)

/-- What can happen next. `connected` says whether there is a new connection, where one is
needed. -/
inductive Action where
  | request
  | receive (n : Nat) (connected : Bool)
  | reconnect (connected : Bool)
  | reconnectOutOfBand (connected : Bool)

namespace Transfer

variable (d : Digests) (file old remote : Bytes) (t : Transfer)

def fc : FileClientChunked := t.receiver.session.fc

def done : Bool := t.fc.getfile_done

def num_total_chunks : Nat := num_chunks t.fc.remote_filesize.toNat

/-- Where the next packet comes from. -/
def stream : List Packet :=
  match t.out_of_band with
  | none => t.incoming
  | some ofb => ofb.incoming

/-- The file is asked for, after a session that remembers no patches. -/
def start (s : Session) (chunk_start : Nat) (md5_hash : Bytes) (predicted_filesize : Int) : Transfer :=
  ⟨⟨s.step (.GetFilePatch predicted_filesize), chunk_start, md5_hash⟩, 0, [], [.filesize remote.length], none, []⟩

/-- The chunk hashes are those of an old file, which the client has in whole or in part. -/
def answer (chunk : SChunk) : List Packet :=
  (sender remote (hashfilesize file (chunkHashFile d old))).sendChunk d chunk

/-- All blocks that were asked for and have not come are asked for again. -/
def reconnect (connected : Bool) : Transfer :=
  { t with
    receiver := { t.receiver with session := t.receiver.session.step (.reconnect connected), md5_hash := [] }
    next_chunk := t.pending_chunks.foldl (fun next_chunk chunk => min next_chunk (chunk / c_checkpoint_dist)) t.next_chunk
    pending_chunks := []
    incoming := [.filesize remote.length] }

/-- A packet is handled. What is asked for behind the end of a file that is smaller than
expected takes a new connection. -/
def handle (connected : Bool) (packet : Packet) : Transfer :=
  let received := { t with receiver := t.receiver.receive d file packet }
  if packet.requested t.pending_chunks then
    match packet with
    | .filesize remote_filesize =>
      if (remote_filesize : Int) < t.fc.remote_filesize ∧ num_chunks remote_filesize ≤ t.next_chunk then
        t.reconnect remote connected
      else if remote_filesize = 0 then { received with receiver := received.receiver.ended }
      else received
    | .noChange block_start =>
      { received with
        pending_chunks := t.pending_chunks.erase block_start
        compared := t.compared ++ [(block old block_start, block remote block_start)] }
    | .blockHash block_start hash =>
      if t.receiver.hashEqual d file block_start hash then
        { received with
          pending_chunks := t.pending_chunks.erase block_start
          compared := t.compared ++
            ((t.receiver.hashed file block_start).map fun data => (data, block remote block_start)).toList }
      else { received with out_of_band := some ⟨block_start, answer d file old remote ⟨block_start, true, [], []⟩⟩ }
    | _ => received
  else { t with receiver := t.receiver.ended }

/-- Something is read. A block that is loaded again comes before everything else. -/
def receive (n : Nat) (connected : Bool) : Transfer :=
  match t.out_of_band with
  | none =>
    match arrive n t.incoming with
    | none => t
    | some (packet, incoming) => { t with incoming }.handle d file old remote connected packet
  | some ofb =>
    match arrive n ofb.incoming with
    | none => t
    | some (packet, incoming) =>
      let t := { t with out_of_band := some { ofb with incoming } }.handle d file old remote connected packet
      if ofb.chunk_pos ∈ t.pending_chunks then t else { t with out_of_band := none }

/-- A request is one round of the loop that asks, whenever a round can come. -/
def Enabled : Action → Prop
  | .request => t.done = false ∧ t.out_of_band = none ∧ t.pending_chunks.length < c_max_queued_chunks ∧
      t.fc.remote_filesize ≠ -1 ∧ t.next_chunk < t.num_total_chunks
  | .receive n _ => t.done = false ∧ t.stream ≠ [] ∧ 0 < n
  | .reconnect _ => t.done = false ∧ t.out_of_band = none
  | .reconnectOutOfBand _ => t.done = false ∧ t.out_of_band ≠ none

def step : Action → Transfer
  | .request =>
    { t with
      next_chunk := t.next_chunk + 1
      pending_chunks := t.pending_chunks ++ [c_checkpoint_dist * t.next_chunk]
      incoming := t.incoming ++ answer d file old remote (blockRequest file (chunkHashFile d old) t.next_chunk) }
  | .receive n connected => t.receive d file old remote n connected
  | .reconnect connected => t.reconnect remote connected
  | .reconnectOutOfBand connected =>
    { t with
      receiver := { t.receiver with
        session := t.receiver.session.step (if connected then .requestOfbChunk else .ofbFailed) }
      out_of_band := t.out_of_band.map fun ofb =>
        ⟨ofb.chunk_pos, answer d file old remote ⟨ofb.chunk_pos, true, [], []⟩⟩ }

/-- Reached in a transfer of the remote file. -/
inductive Reached : Transfer → Prop
  | start {s : Session} (hs : Session.Reaches (fun s e => s.Sent e ∧ s.Forgotten e) s) (hnone : s.fc.last_chunk_patches = [])
      (chunk_start : Nat) (md5_hash : Bytes) (predicted_filesize : Int) :
      Reached (start remote s chunk_start md5_hash predicted_filesize)
  | step {t : Transfer} (h : Reached t) {a : Action} (ha : t.Enabled a) : Reached (t.step d file old remote a)

/-- All blocks have come. -/
def Finished : Prop :=
  t.done = false ∧ 0 < t.fc.remote_filesize ∧ t.num_total_chunks ≤ t.next_chunk ∧ t.pending_chunks = [] ∧
    t.fc.state = .CS_ID_FIRST

instance (t : Transfer) : (a : Action) → Decidable (t.Enabled a)
  | .request | .receive _ _ | .reconnect _ | .reconnectOutOfBand _ => inferInstanceAs (Decidable (_ ∧ _))

instance (t : Transfer) : Decidable t.Finished :=
  inferInstanceAs (Decidable (_ ∧ _))

end Transfer

/-- A part of the answer for a block. -/
def Packet.isPart : Packet → Bool
  | .wholeBlock _ _ | .updateChunk _ _ | .data _ => true
  | _ => false

/-- Between the parts of a transfer. -/
def Session.Between (s : Session) : Prop :=
  s.fc.state = .CS_ID_FIRST ∧ s.current = []

/-- The size of the file has not come yet. -/
structure Session.Unsized (s : Session) : Prop where
  reaches : Session.Reaches (fun s e => s.Sent e ∧ s.Forgotten e) s
  active : s.fc.getfile_done = false
  forgotten : s.stale = false
  pos : s.fc.patchfile_pos = 0
  patches : s.fc.last_chunk_patches = []
  finished : s.finished = []
  between : s.Between
  block : s.fc.block_for_chunk_start = -1

/-- What was received of a file of which the blocks in front of a position are done. -/
structure Session.Received (file remote : Bytes) (compared : List (Bytes × Bytes)) (s : Session) (pos : Nat) : Prop where
  reaches : Session.Reaches (fun s e => s.Sent e ∧ s.Forgotten e) s
  active : s.fc.getfile_done = false
  forgotten : s.stale = false
  headed : s.fc.Headed (leBytes 8 remote.length)
  finished : ∀ w ∈ s.finished, PartOf remote w ∧ w.stop ≤ pos
  current : ∀ w ∈ s.current, PartOf remote w ∧ pos ≤ w.off
  same : (∀ c ∈ compared, c.1 = c.2) → Same file remote s.finished 0 (min pos remote.length)

/-- In a block of which chunks were received. -/
structure Receiver.Started (file remote : Bytes) (r : Receiver) (start pos : Nat) : Prop where
  block : r.session.fc.block_for_chunk_start = start
  chunks : r.session.fc.hash_for_whole_block = false
  chunk_start : r.chunk_start = pos
  hashing : Hashing file remote r.session.current start pos r.md5_hash
  behind : ∀ w ∈ r.session.current, w.stop ≤ pos

/-- In front of a block. -/
structure Receiver.Rests (r : Receiver) (start : Nat) : Prop where
  between : r.session.Between
  before : r.session.fc.block_for_chunk_start < start

section Expects

variable (d : Digests) (file old remote : Bytes)

/-- What is left of the answer for a block fits to the state of the client. -/
inductive Expects (r : Receiver) (start : Nat) : Bool → List Packet → Prop
  | noChange (hrests : r.Rests start) (hhash : d.md5 (block old start) = d.md5 (block remote start))
      (hsame : block old start = block remote start → Same file remote [] start (blockEnd remote start)) :
      Expects r start false [.noChange start]
  | wholeBlock (out_of_band : Bool) (hbetween : r.session.Between) :
      Expects r start out_of_band [.wholeBlock start (block remote start).length, .data (block remote start),
        .blockHash start (d.md5 (block remote start))]
  | blockData (out_of_band : Bool) {pos : Nat} {buf : Bytes} (hstate : r.session.fc.state = .CS_BLOCK)
      (hremaining : r.session.fc.whole_block_remaining = buf.length) (hne : buf ≠ []) (hpos : r.session.fc.file_pos = pos)
      (hle : start ≤ pos) (hbuf : block remote start = r.md5_hash ++ buf) (hlength : r.md5_hash.length = pos - start)
      (hcovers : ∀ p, start ≤ p → p < pos → ∃ w ∈ r.session.current, w.off ≤ p ∧ p < w.stop)
      (hbehind : ∀ w ∈ r.session.current, w.stop ≤ pos) (hblock : r.session.fc.block_for_chunk_start = start) :
      Expects r start out_of_band [.data buf, .blockHash start (d.md5 (block remote start))]
  | blockDone (out_of_band : Bool) (hstate : r.session.fc.state = .CS_ID_FIRST)
      (hwhole : r.session.fc.hash_for_whole_block = true) (hmd5 : r.md5_hash = block remote start)
      (hcovers : ∀ p, start ≤ p → p < blockEnd remote start → ∃ w ∈ r.session.current, w.off ≤ p ∧ p < w.stop)
      (hbehind : ∀ w ∈ r.session.current, w.stop ≤ blockEnd remote start)
      (hblock : r.session.fc.block_for_chunk_start = start) :
      Expects r start out_of_band [.blockHash start (d.md5 (block remote start))]
  | updates {pos : Nat} {rs : List Record} (hstate : r.session.fc.state = .CS_ID_FIRST)
      (hrs : Updates remote (start + c_checkpoint_dist) pos (blockEnd remote start) rs) (hend : pos ≤ blockEnd remote start)
      (hbegun : r.Started file remote start pos ∨ r.Rests start ∧ pos = start ∧ rs ≠ []) :
      Expects r start false (rs.flatMap updatePackets ++ [.blockHash start (d.md5 (block remote start))])
  | chunkData {pos : Nat} {buf : Bytes} {rs : List Record} (hstate : r.session.fc.state = .CS_CHUNK)
      (hremaining : r.session.fc.adler_remaining = buf.length) (hne : buf ≠ []) (hpos : r.session.fc.file_pos = pos)
      (hbuf : buf = slice remote pos buf.length) (hend : pos + buf.length ≤ blockEnd remote start)
      (hstarted : r.Started file remote start pos)
      (hrs : Updates remote (start + c_checkpoint_dist) (pos + buf.length) (blockEnd remote start) rs) :
      Expects r start false (.data buf :: (rs.flatMap updatePackets ++ [.blockHash start (d.md5 (block remote start))]))

/-- A packet of the answer for a block is handled: the next one is expected, the block is
done, or it is loaded again. -/
inductive Handled (compared : List (Bytes × Bytes)) (r : Receiver) (start : Nat) (out_of_band : Bool) :
    Packet → List Packet → Prop
  | next {packet : Packet} {later : List Packet} (hpart : packet.isPart = true)
      (hrequested : ∀ pending_chunks : List Nat, start ∈ pending_chunks → packet.requested pending_chunks = true)
      (hreceived : (r.receive d file packet).session.Received file remote compared start)
      (hsize : (r.receive d file packet).session.fc.remote_filesize = remote.length)
      (hexpects : Expects d file old remote (r.receive d file packet) start out_of_band later) :
      Handled compared r start out_of_band packet later
  | noChange (hhash : d.md5 (block old start) = d.md5 (block remote start))
      (hreceived : (r.receive d file (.noChange start)).session.Received file remote
        (compared ++ [(block old start, block remote start)]) (start + c_checkpoint_dist))
      (hsize : (r.receive d file (.noChange start)).session.fc.remote_filesize = remote.length)
      (hrests : (r.receive d file (.noChange start)).Rests (start + c_checkpoint_dist)) :
      Handled compared r start out_of_band (.noChange start) []
  | blockHash {hash data : Bytes} (hequal : r.hashEqual d file start hash = true) (hdata : r.hashed file start = some data)
      (hhash : d.md5 data = d.md5 (block remote start))
      (hreceived : (r.receive d file (.blockHash start hash)).session.Received file remote
        (compared ++ [(data, block remote start)]) (start + c_checkpoint_dist))
      (hsize : (r.receive d file (.blockHash start hash)).session.fc.remote_filesize = remote.length)
      (hrests : (r.receive d file (.blockHash start hash)).Rests (start + c_checkpoint_dist)) :
      Handled compared r start out_of_band (.blockHash start hash) []
  | again {hash : Bytes} (hfirst : out_of_band = false) (hequal : r.hashEqual d file start hash = false)
      (hreceived : (r.receive d file (.blockHash start hash)).session.Received file remote compared start)
      (hsize : (r.receive d file (.blockHash start hash)).session.fc.remote_filesize = remote.length)
      (hexpects : Expects d file old remote (r.receive d file (.blockHash start hash)) start true
        [.wholeBlock start (block remote start).length, .data (block remote start),
          .blockHash start (d.md5 (block remote start))]) :
      Handled compared r start out_of_band (.blockHash start hash) []

end Expects

namespace Session

variable {s : Session} {file remote : Bytes} {compared : List (Bytes × Bytes)} {pos : Nat}

/-- A step in which no block is finished. -/
theorem Received.next (h : s.Received file remote compared pos) {e : Event} (hsent : s.Sent e) (he : ∀ n, e ≠ .GetFilePatch n)
    (hactive : (s.step e).fc.getfile_done = s.fc.getfile_done) (hheaded : (s.step e).fc.Headed (leBytes 8 remote.length))
    (hfinished : (s.step e).finished = s.finished)
    (hcurrent : ∀ w ∈ (s.step e).current, PartOf remote w ∧ pos ≤ w.off) : (s.step e).Received file remote compared pos := by
  refine ⟨h.reaches.step ⟨hsent, forgotten_of_stale h.forgotten e⟩, hactive.trans h.active, stale_step h.forgotten he, hheaded,
    ?_, hcurrent, ?_⟩
  · rw [hfinished]
    exact h.finished
  · rw [hfinished]
    exact h.same

/-- The rest of a block is received and the old file is the same elsewhere in it. -/
theorem Received.finish (h : s.Received file remote compared pos) {s' : Session} {block_end : Nat} {c : Bytes × Bytes}
    (hreaches : Reaches (fun s e => s.Sent e ∧ s.Forgotten e) s') (hactive : s'.fc.getfile_done = s.fc.getfile_done)
    (hstale : s'.stale = false) (hheaded : s'.fc.Headed (leBytes 8 remote.length))
    (hfinished : s'.finished = s.finished ++ s.current) (hnone : s'.current = [])
    (hbehind : ∀ w ∈ s.current, w.stop ≤ block_end) (hend : block_end = min (pos + c_checkpoint_dist) remote.length)
    (hsame : c.1 = c.2 → Same file remote s.current pos block_end) :
    s'.Received file remote (compared ++ [c]) (pos + c_checkpoint_dist) := by
  refine ⟨hreaches, hactive.trans h.active, hstale, hheaded, ?_, by simp [hnone], ?_⟩
  · intro w hw
    rw [hfinished] at hw
    obtain hw | hw := List.mem_append.mp hw
    · exact ⟨(h.finished w hw).1, Nat.le_add_right_of_le (h.finished w hw).2⟩
    · have hstop := hbehind w hw
      exact ⟨(h.current w hw).1, by omega⟩
  · intro hequal p _ hp
    rw [hfinished]
    by_cases hbefore : p < pos
    · obtain ⟨w, hw, hin⟩ | hold :=
        h.same (fun c hc => hequal c (List.mem_append_left _ hc)) p (Nat.zero_le p) (by omega)
      · exact Or.inl ⟨w, List.mem_append_left _ hw, hin⟩
      · exact Or.inr hold
    · obtain ⟨w, hw, hin⟩ | hold :=
        hsame (hequal c (List.mem_append_right _ (List.mem_singleton_self c))) p (Nat.le_of_not_lt hbefore) (by omega)
      · exact Or.inl ⟨w, List.mem_append_right _ hw, hin⟩
      · exact Or.inr hold

/-- The first packet is the file size. -/
theorem Unsized.filesize (h : s.Unsized) (file remote : Bytes) :
    (s.step (.filesize remote.length)).Received file remote [] 0 := by
  have hsent : s.Sent (.filesize remote.length) := ⟨h.active, h.between.1⟩
  have hcurrent : (s.step (.filesize remote.length)).current = [] := h.between.2
  have hfinished : (s.step (.filesize remote.length)).finished = [] := h.finished
  refine ⟨h.reaches.step ⟨hsent, trivial⟩, (filesize_fields s.fc _).2.2.2.trans h.active, stale_step h.forgotten (by simp),
    headed_filesize (Or.inl ⟨h.pos, h.patches⟩) h.reaches.inv.1, by simp [hfinished], by simp [hcurrent], ?_⟩
  intro _ p _ hp
  rw [Nat.zero_min] at hp
  exact absurd hp (Nat.not_lt_zero p)

theorem Unsized.reconnect (h : s.Unsized) {connected : Bool} (hdone : (s.step (.reconnect connected)).fc.getfile_done = false) :
    (s.step (.reconnect connected)).Unsized := by
  obtain ⟨hstate, hblock, _⟩ := reconnect_fields s.fc connected hdone
  obtain ⟨hpos, hpatches⟩ := reconnect_unsized s.fc connected h.pos h.patches
  exact ⟨h.reaches.step ⟨h.active, forgotten_of_stale h.forgotten _⟩, hdone, stale_step h.forgotten (by simp), hpos, hpatches,
    h.finished, ⟨hstate, rfl⟩, hblock⟩

end Session

section Receive

variable {d : Digests} {file old remote : Bytes} {compared : List (Bytes × Bytes)} {r : Receiver} {start pos : Nat}
  {out_of_band : Bool}

/-- A part of the file behind what was received can come next. -/
theorem Session.Received.part {s : Session} (h : s.Received file remote compared start) (hlt : remote.length < 2 ^ 63)
    (hstate : s.fc.state = .CS_ID_FIRST) {pos size : Nat} (hle : start ≤ pos) (hbehind : ∀ w ∈ s.current, w.stop ≤ pos)
    (hend : pos + size ≤ remote.length) (hsize : size ≤ c_checkpoint_dist) : s.Next pos size := by
  have hpatch := h.headed.patch_pos
  have hdist : c_checkpoint_dist = 524288 := rfl
  refine ⟨hstate, by omega, ?_, by omega, by omega⟩
  intro w hw
  obtain hw | hw := List.mem_append.mp hw
  · exact Nat.le_trans (h.finished w hw).2 hle
  · exact hbehind w hw

/-- The file size is received again. -/
theorem Session.Received.filesize {s : Session} (h : s.Received file remote compared start) (hbetween : s.Between) :
    (s.step (.filesize remote.length)).Received file remote compared start := by
  have hsent : s.Sent (.filesize remote.length) := ⟨h.active, hbetween.1⟩
  exact h.next hsent (by simp) (filesize_fields s.fc _).2.2.2 (headed_filesize (Or.inr h.headed) h.reaches.inv.1) rfl h.current

theorem Session.Received.reconnect {s : Session} (h : s.Received file remote compared start) {connected : Bool}
    (hdone : (s.step (.reconnect connected)).fc.getfile_done = false) :
    (s.step (.reconnect connected)).Received file remote compared start := by
  have hsent : s.Sent (.reconnect connected) := h.active
  refine h.next hsent (by simp) (hdone.trans h.active.symm) (h.headed.reconnect connected) rfl ?_
  intro w hw
  cases hw

/-- Data of a block or a chunk is received. -/
theorem Session.Received.data {s : Session} (h : s.Received file remote compared start)
    (hstate : s.fc.state ≠ .CS_ID_FIRST) {pos : Nat} {piece : Bytes}
    (hdone : (s.step (.data piece)).fc.getfile_done = s.fc.getfile_done)
    (hcurrent : (s.step (.data piece)).current = s.current ++ [⟨pos, piece⟩]) (hle : start ≤ pos) (hne : piece ≠ [])
    (hpart : piece = slice remote pos piece.length) : (s.step (.data piece)).Received file remote compared start := by
  have hsent : s.Sent (.data piece) := ⟨h.active, hstate⟩
  have hpos := List.length_pos_of_ne_nil hne
  have hlength := congrArg List.length hpart
  rw [length_slice] at hlength
  apply h.next hsent (by simp) hdone (h.headed.data piece) rfl
  intro w hw
  rw [hcurrent] at hw
  obtain hw | hw := List.mem_append.mp hw
  · exact h.current w hw
  · rw [List.mem_singleton.mp hw]
    exact ⟨⟨by simp only; omega, by simp only [Record.stop]; omega, hpart⟩, hle⟩

/-- Data that is received goes up to its own end. -/
theorem behind_append {calls : List Record} (h : ∀ w ∈ calls, w.stop ≤ pos) {piece : Bytes} :
    ∀ w ∈ calls ++ [⟨pos, piece⟩], w.stop ≤ pos + piece.length := by
  intro w hw
  obtain hw | hw := List.mem_append.mp hw
  · exact Nat.le_add_right_of_le (h w hw)
  · rw [List.mem_singleton.mp hw]
    exact Nat.le_refl _

/-- The hash of a block that was received as a whole is the right one. -/
theorem hashEqual_whole (hwhole : r.session.fc.hash_for_whole_block = true) {pos : Nat} :
    r.hashed file pos = some r.md5_hash ∧ r.hashEqual d file pos (d.md5 r.md5_hash) = true := by
  have hhashed : r.hashed file pos = some r.md5_hash := by
    rw [Receiver.hashed, if_neg (by simp [hwhole])]
  refine ⟨hhashed, ?_⟩
  rw [Receiver.hashEqual, hhashed]
  simp

/-- The hash goes on up to the chunk that comes next. -/
theorem started_updateChunk (hbegun : r.Started file remote start pos ∨ r.Rests start ∧ pos = start) {new_chunk_start : Nat}
    (hle : pos ≤ new_chunk_start) (hend : new_chunk_start ≤ remote.length)
    (hblock : new_chunk_start / c_checkpoint_dist * c_checkpoint_dist = start) (adler_remaining : Nat) :
    (r.receive d file (.updateChunk new_chunk_start adler_remaining)).Started file remote start new_chunk_start := by
  have hchunks : r.session.fc.block_for_chunk_start = start → r.session.fc.hash_for_whole_block = false := by
    obtain hstarted | ⟨hrests, _⟩ := hbegun
    · exact fun _ => hstarted.chunks
    · intro heq
      have hbefore := hrests.before
      omega
  obtain ⟨hblock', hchunks'⟩ := updateChunk_fields r.session.fc hblock adler_remaining hchunks
  have hmd5 : ∃ md5_hash, (r.receive d file (.updateChunk new_chunk_start adler_remaining)).md5_hash =
      hashUpto file new_chunk_start pos md5_hash ∧ Hashing file remote r.session.current start pos md5_hash ∧
      ∀ w ∈ r.session.current, w.stop ≤ pos := by
    obtain hstarted | ⟨⟨⟨_, hnone⟩, hbefore⟩, rfl⟩ := hbegun
    · refine ⟨r.md5_hash, ?_, hstarted.hashing, hstarted.behind⟩
      rw [Receiver.receive, Receiver.Hash_upto, hblock, if_neg (by simp [hstarted.block]), hstarted.chunk_start]
    · refine ⟨[], ?_, ⟨Nat.le_refl _, Nat.zero_le _, fun _ p hp hlt => by omega⟩, by simp [hnone]⟩
      rw [Receiver.receive, Receiver.Hash_upto, hblock, if_pos (by omega)]
  obtain ⟨md5_hash, hmd5, hhashing, hbehind⟩ := hmd5
  refine ⟨hblock', hchunks', rfl, ?_, fun w hw => Nat.le_trans (hbehind w hw) hle⟩
  rw [hmd5]
  exact hhashing.skip hle hend (hashUpto_spec file hle md5_hash)

/-- Where the hash of all chunks and of the rest of the old file is taken of the block of
the remote file, they are the same. -/
theorem hashed_chunks (hstarted : r.Started file remote start pos) (hsize : r.session.fc.remote_filesize = remote.length)
    (hend : pos ≤ blockEnd remote start) (hstart : start < remote.length) {data : Bytes} (hdata : r.hashed file start = some data)
    (hsame : data = block remote start) : Same file remote r.session.current start (blockEnd remote start) := by
  have hblockEnd := blockEnd_eq hstart
  have hdest : (min (start + c_checkpoint_dist : Int) r.session.fc.remote_filesize).toNat = blockEnd remote start := by
    rw [hsize, hblockEnd]
    omega
  rw [Receiver.hashed, if_pos ⟨by simp [hstarted.chunks], hstarted.block.symm⟩, hdest, hstarted.chunk_start] at hdata
  have hrest := hstarted.hashing.skip hend (by omega) (Or.inl (hashRest_spec hend hdata))
  apply hrest.same
  rw [hsame, block, ← slice_min]
  congr 1
  omega

section Handled

variable (h : r.session.Received file remote compared start) (hsize : r.session.fc.remote_filesize = remote.length)

include h hsize

theorem handled_chunkData {buf : Bytes} {rs : List Record}
    (hstate : r.session.fc.state = .CS_CHUNK) (hremaining : r.session.fc.adler_remaining = buf.length) (hne : buf ≠ [])
    (hpos : r.session.fc.file_pos = pos) (hbuf : buf = slice remote pos buf.length)
    (hend : pos + buf.length ≤ blockEnd remote start) (hstarted : r.Started file remote start pos)
    (hrs : Updates remote (start + c_checkpoint_dist) (pos + buf.length) (blockEnd remote start) rs) {n : Nat} (hn : 0 < n) :
    Handled d file old remote compared r start false (.data (buf.take n))
      (dataPackets (buf.drop n) ++ (rs.flatMap updatePackets ++ [.blockHash start (d.md5 (block remote start))])) := by
  have htake : (buf.take n).length = min n buf.length := List.length_take
  have hdrop : (buf.drop n).length = buf.length - n := List.length_drop
  have hsome := List.length_pos_of_ne_nil hne
  have hpiece : buf.take n = slice remote pos (buf.take n).length := by
    rw [htake, ← take_slice, ← hbuf]
  have hrest : buf.drop n = slice remote (pos + (buf.take n).length) (buf.drop n).length := by
    by_cases hshort : n ≤ buf.length
    · rw [hdrop, htake, Nat.min_eq_left hshort, ← drop_slice, ← hbuf]
    · have hnil : buf.drop n = [] := List.drop_eq_nil_of_le (by omega)
      rw [hnil]
      exact (List.take_zero).symm
  have hsum : (buf.take n).length + (buf.drop n).length = buf.length := by omega
  have hne' : buf.take n ≠ [] := List.ne_nil_of_length_pos (by omega)
  generalize buf.take n = piece at hpiece hrest hsum hne' ⊢
  generalize buf.drop n = rest at hrest hsum ⊢
  obtain ⟨hpos', hremaining', hhash', hlast, hmore⟩ :=
    State_Chunk_fields r.session.fc hstate hne' (by omega : piece.length ≤ r.session.fc.adler_remaining)
  have hblock : r.session.fc.state ≠ .CS_BLOCK := by
    rw [hstate]
    decide
  have hpositive := List.length_pos_of_ne_nil hne'
  have hcurrent : (r.session.step (.data piece)).current = r.session.current ++ [⟨pos, piece⟩] := by
    have hmin : min piece.length r.session.fc.adler_remaining = piece.length := by omega
    have hcall : r.session.fc.call piece = [⟨pos, piece⟩] := by
      rw [FileClientChunked.call, if_neg hblock, hmin, if_pos hpositive, hpos, List.take_length]
    rw [← hcall]
    rfl
  have hrbytes : min piece.length r.session.fc.remaining = piece.length := by
    rw [remaining, if_neg hblock]
    omega
  have hreceive : r.receive d file (.data piece) =
      ⟨r.session.step (.data piece), r.chunk_start + piece.length, r.md5_hash ++ piece⟩ := by
    rw [Receiver.receive]
    simp only [hrbytes, List.take_length]
  have hstarted' : (r.receive d file (.data piece)).Started file remote start (pos + piece.length) := by
    rw [hreceive]
    refine ⟨hhash'.block.trans hstarted.block, hhash'.whole.trans hstarted.chunks, ?_, ?_, ?_⟩
    · simp only [hstarted.chunk_start]
    · simp only [hcurrent]
      exact hstarted.hashing.push hpiece
    · simp only [hcurrent]
      exact behind_append hstarted.behind
  refine .next rfl (fun _ _ => rfl)
    (h.data (by rw [hstate]; decide) hhash'.done hcurrent hstarted.hashing.start_le hne' hpiece) (hhash'.size.trans hsize) ?_
  by_cases hempty : rest = []
  · subst hempty
    rw [dataPackets, if_pos rfl, List.nil_append]
    have hall : pos + piece.length = pos + buf.length := by
      rw [List.length_nil] at hsum
      omega
    rw [← hall] at hrs
    exact .updates (hlast (by rw [hremaining]; omega)) hrs (by omega) (Or.inl hstarted')
  · have hleft := List.length_pos_of_ne_nil hempty
    rw [dataPackets, if_neg hempty]
    refine .chunkData (hmore (by omega)) ?_ hempty ?_ hrest (by omega) hstarted' ?_
    · exact hremaining'.trans (by omega)
    · exact hpos'.trans (by rw [hpos])
    · rw [Nat.add_assoc, hsum]
      exact hrs

/-- A block of which chunks have come is loaded again if it has another hash. -/
theorem handled_wrongHash (hstate : r.session.fc.state = .CS_ID_FIRST) (hchunks : r.session.fc.hash_for_whole_block = false)
    {hash : Bytes} (hequal : r.hashEqual d file start hash = false) :
    Handled d file old remote compared r start false (.blockHash start hash) [] := by
  have hsent : r.session.Sent (.blockHash start false) := ⟨h.active, hstate⟩
  have hreceive : r.receive d file (.blockHash start hash) = { r with session := r.session.step (.blockHash start false) } := by
    rw [Receiver.receive, hequal]
  obtain ⟨hstate', hsize', hdone⟩ := wrongHash_fields r.session.fc start hchunks
  refine .again rfl hequal ?_ ?_ ?_
  · rw [hreceive]
    refine h.next hsent (by simp) hdone (h.headed.blockHash start false) rfl ?_
    intro w hw
    cases hw
  · rw [hreceive]
    exact hsize'.trans hsize
  · rw [hreceive]
    exact .wholeBlock true ⟨hstate', rfl⟩

variable (hstart : start < remote.length)

include hstart

theorem handled_wholeBlock (hlt : remote.length < 2 ^ 63) (hbetween : r.session.Between) :
    Handled d file old remote compared r start out_of_band (.wholeBlock start (block remote start).length)
      [.data (block remote start), .blockHash start (d.md5 (block remote start))] := by
  obtain ⟨hfirst, hnone⟩ := hbetween
  have hlength : (block remote start).length = min c_checkpoint_dist (remote.length - start) := length_slice _ _ _
  have hnext := h.part hlt hfirst (Nat.le_refl start) (by simp [hnone])
    (by omega : start + (block remote start).length ≤ remote.length) (by omega)
  have hsent : r.session.Sent (.wholeBlock start (block remote start).length) := ⟨h.active, hnext, hnone⟩
  have hpos : (r.receive d file (.wholeBlock start (block remote start).length)).session.fc.file_pos = start := rfl
  refine .next rfl (fun _ hin => decide_eq_true hin) ?_ hsize
    (.blockData out_of_band rfl rfl (block_ne_nil hstart) hpos (Nat.le_refl _) rfl ?_ ?_ ?_ rfl)
  · exact h.next hsent (by simp) rfl (h.headed.of_same rfl rfl h.headed.patches) rfl h.current
  · exact (Nat.sub_self start).symm
  · intro p hp hbefore
    omega
  · intro w hw
    change w ∈ r.session.current at hw
    rw [hnone] at hw
    cases hw

theorem handled_blockData {buf : Bytes}
    (hstate : r.session.fc.state = .CS_BLOCK) (hremaining : r.session.fc.whole_block_remaining = buf.length) (hne : buf ≠ [])
    (hpos : r.session.fc.file_pos = pos) (hle : start ≤ pos) (hbuf : block remote start = r.md5_hash ++ buf)
    (hlength : r.md5_hash.length = pos - start)
    (hcovers : ∀ p, start ≤ p → p < pos → ∃ w ∈ r.session.current, w.off ≤ p ∧ p < w.stop)
    (hbehind : ∀ w ∈ r.session.current, w.stop ≤ pos) (hblock : r.session.fc.block_for_chunk_start = start) {n : Nat} (hn : 0 < n) :
    Handled d file old remote compared r start out_of_band (.data (buf.take n))
      (dataPackets (buf.drop n) ++ [.blockHash start (d.md5 (block remote start))]) := by
  have hpart := @slice_of_block _ _ _ _ _ n hbuf hlength hle
  have htake : (buf.take n).length = min n buf.length := List.length_take
  have hsome := List.length_pos_of_ne_nil hne
  have hend : pos + buf.length ≤ remote.length := by
    have hall := congrArg List.length hbuf
    rw [block, length_slice, List.length_append] at hall
    omega
  have hsplit : r.md5_hash ++ buf.take n ++ buf.drop n = r.md5_hash ++ buf := by
    rw [List.append_assoc, List.take_append_drop]
  have hleft : buf.length - (buf.take n).length = (buf.drop n).length := by
    rw [htake, List.length_drop]
    omega
  generalize buf.take n = piece at hpart htake hsplit hleft ⊢
  generalize buf.drop n = rest at hsplit hleft ⊢
  obtain ⟨hpos', hremaining', hblock', hsize', hdone, hlast, hmore⟩ :=
    State_Block_fields r.session.fc hstate (by omega : piece.length ≤ r.session.fc.whole_block_remaining)
  have hstep : (r.session.step (.data piece)).current = r.session.current ++ [⟨pos, piece⟩] := by
    have hcall : r.session.fc.call piece = [⟨pos, piece⟩] := by
      rw [FileClientChunked.call, if_pos hstate, hpos, Nat.min_eq_left (by omega), List.take_length]
    rw [← hcall]
    rfl
  have hhash : (r.receive d file (.data piece)).md5_hash = r.md5_hash ++ piece := by
    have hrbytes : min piece.length r.session.fc.remaining = piece.length := by
      rw [remaining, if_pos hstate]
      omega
    rw [Receiver.receive]
    simp only [hrbytes, List.take_length]
  have hcovers' : ∀ p, start ≤ p → p < pos + piece.length →
      ∃ w ∈ (r.session.step (.data piece)).current, w.off ≤ p ∧ p < w.stop := by
    intro p hp hlt
    rw [hstep]
    by_cases hbefore : p < pos
    · obtain ⟨w, hw, hin⟩ := hcovers p hp hbefore
      exact ⟨w, List.mem_append_left _ hw, hin⟩
    · exact ⟨_, List.mem_append_right _ (List.mem_singleton_self _), Nat.le_of_not_lt hbefore, hlt⟩
  have hbehind' : ∀ w ∈ (r.session.step (.data piece)).current, w.stop ≤ pos + piece.length := by
    rw [hstep]
    exact behind_append hbehind
  have hne' : piece ≠ [] := List.ne_nil_of_length_pos (by omega)
  refine .next rfl (fun _ _ => rfl) (h.data (by rw [hstate]; decide) hdone hstep hle hne' hpart) (hsize'.trans hsize) ?_
  by_cases hrest : rest = []
  · subst hrest
    obtain ⟨hfirst, hwhole⟩ := hlast (by simp at hleft; omega)
    have hall : pos + piece.length = blockEnd remote start := by
      have hblock := congrArg List.length hbuf
      rw [List.length_append] at hblock
      simp only [List.length_nil] at hleft
      rw [blockEnd]
      omega
    rw [hall] at hcovers' hbehind'
    refine .blockDone out_of_band hfirst hwhole ?_ hcovers' hbehind' (hblock'.trans hblock)
    rw [hhash, hbuf, ← hsplit, List.append_nil]
  · have hmore' := hmore (by have := List.length_pos_of_ne_nil hrest; omega)
    rw [dataPackets, if_neg hrest]
    refine .blockData out_of_band hmore' ?_ hrest ?_ ?_ ?_ ?_ hcovers' hbehind' (hblock'.trans hblock)
    · exact hremaining'.trans (by rw [hremaining]; exact hleft)
    · exact hpos'.trans (by rw [hpos])
    · omega
    · rw [hhash, hbuf, hsplit]
    · rw [hhash, List.length_append]
      omega

/-- A block is finished by its hash. -/
theorem handled_blockHash (hstate : r.session.fc.state = .CS_ID_FIRST) (hblock : r.session.fc.block_for_chunk_start = start)
    (hbehind : ∀ w ∈ r.session.current, w.stop ≤ blockEnd remote start) {hash data : Bytes}
    (hequal : r.hashEqual d file start hash = true) (hdata : r.hashed file start = some data)
    (hhash : d.md5 data = d.md5 (block remote start))
    (hsame : data = block remote start → Same file remote r.session.current start (blockEnd remote start)) :
    Handled d file old remote compared r start out_of_band (.blockHash start hash) [] := by
  have hsent : r.session.Sent (.blockHash start true) := ⟨h.active, hstate⟩
  obtain ⟨hstate', hblock', hsize', hdone⟩ := blockHash_fields r.session.fc start
  have hreceive : r.receive d file (.blockHash start hash) = { r with session := r.session.step (.blockHash start true) } := by
    rw [Receiver.receive, hequal]
  have hbefore : (if r.session.fc.hash_for_whole_block then r.session.fc.block_for_chunk_start else -1) <
      (start + c_checkpoint_dist : Nat) := by
    have hdist := checkpoint_pos
    split
    · rw [hblock]
      omega
    · omega
  refine .blockHash hequal hdata hhash ?_ ?_ ?_
  · rw [hreceive]
    exact h.finish (h.reaches.step ⟨hsent, trivial⟩) hdone (Session.stale_step h.forgotten (by simp))
      (h.headed.blockHash start true) rfl rfl hbehind (blockEnd_eq hstart) hsame
  · rw [hreceive]
    exact hsize'.trans hsize
  · rw [hreceive]
    exact ⟨⟨hstate'.trans hstate, rfl⟩, lt_of_eq_of_lt hblock' hbefore⟩

theorem handled_noChange (hrests : r.Rests start) (hhash : d.md5 (block old start) = d.md5 (block remote start))
    (hsame : block old start = block remote start → Same file remote [] start (blockEnd remote start)) :
    Handled d file old remote compared r start out_of_band (.noChange start) [] := by
  obtain ⟨⟨hfirst, hnone⟩, hbefore⟩ := hrests
  have hsent : r.session.Sent (.noChange start) := ⟨h.active, hfirst⟩
  obtain ⟨hstate, hblock, hsize', hdone⟩ := noChange_fields r.session.fc start
  have hheaded : (r.session.step (.noChange start)).fc.Headed (leBytes 8 remote.length) := by
    change (r.session.fc.Hash_nochange start).Headed _
    unfold Hash_nochange
    split <;> exact h.headed.of_same rfl rfl h.headed.patches
  have hdist := checkpoint_pos
  refine .noChange hhash ?_ (hsize'.trans hsize) ⟨⟨hstate.trans hfirst, hnone⟩, lt_of_eq_of_lt hblock (by omega)⟩
  refine h.finish (h.reaches.step ⟨hsent, trivial⟩) hdone (Session.stale_step h.forgotten (by simp)) hheaded ?_ hnone
    ?_ (blockEnd_eq hstart) ?_
  · rw [hnone, List.append_nil]
    rfl
  · simp [hnone]
  · rw [hnone]
    exact hsame

theorem handled_updateChunk (hlt : remote.length < 2 ^ 63) (hstate : r.session.fc.state = .CS_ID_FIRST) {u : Record} {rs : List Record}
    (hrs : Updates remote (start + c_checkpoint_dist) pos (blockEnd remote start) (u :: rs))
    (hbegun : r.Started file remote start pos ∨ r.Rests start ∧ pos = start) (hdvd : c_checkpoint_dist ∣ start) :
    Handled d file old remote compared r start false (.updateChunk u.off u.data.length)
      (dataPackets u.data ++ (rs.flatMap updatePackets ++ [.blockHash start (d.md5 (block remote start))])) := by
  obtain ⟨hoff, hbegins, hstop, hdata, hlater⟩ := hrs
  have hle : start ≤ pos := by
    obtain hstarted | ⟨_, rfl⟩ := hbegun
    · exact hstarted.hashing.start_le
    · exact Nat.le_refl _
  have hdist := checkpoint_pos
  have hblockEnd := blockEnd_eq hstart
  rw [Record.stop] at hstop
  have hblock : u.off / c_checkpoint_dist * c_checkpoint_dist = start := by
    obtain ⟨k, rfl⟩ := hdvd
    have hdiv : u.off / c_checkpoint_dist = k := by
      apply Nat.div_eq_of_lt_le
      · rw [Nat.mul_comm]
        omega
      · rw [Nat.add_mul, Nat.mul_comm k]
        omega
    rw [hdiv, Nat.mul_comm]
  have hbehind : ∀ w ∈ r.session.current, w.stop ≤ u.off := by
    obtain hstarted | ⟨hrests, _⟩ := hbegun
    · exact fun w hw => Nat.le_trans (hstarted.behind w hw) hoff
    · simp [hrests.between.2]
  have hnext := h.part hlt hstate (Nat.le_trans hle hoff) hbehind (by omega : u.off + u.data.length ≤ remote.length) (by omega)
  have hsent : r.session.Sent (.updateChunk u.off u.data.length) := by
    refine ⟨h.active, hnext, ?_⟩
    obtain hstarted | ⟨hrests, _⟩ := hbegun
    · right
      rw [hblock]
      exact hstarted.block
    · exact Or.inl hrests.between.2
  have hstarted := started_updateChunk (d := d) hbegun hoff (by omega) hblock u.data.length
  have hheaded : (r.session.step (.updateChunk u.off u.data.length)).fc.Headed (leBytes 8 remote.length) := by
    change ({ r.session.fc.Hash_upto u.off with
      adler_remaining := u.data.length, state := if 0 < u.data.length then .CS_CHUNK else .CS_ID_FIRST } : FileClientChunked).Headed _
    unfold FileClientChunked.Hash_upto
    dsimp only
    split
    · exact h.headed.of_same rfl rfl (by simp)
    · exact h.headed.of_same rfl rfl h.headed.patches
  have hrequested : ∀ pending_chunks : List Nat, start ∈ pending_chunks →
      (Packet.updateChunk u.off u.data.length).requested pending_chunks = true := by
    intro pending_chunks hin
    rw [← hblock] at hin
    exact decide_eq_true hin
  obtain ⟨hkept, hdone⟩ := updateChunk_size r.session.fc u.off u.data.length
  refine .next rfl hrequested (h.next hsent (by simp) hdone hheaded rfl h.current) (hkept.trans hsize) ?_
  by_cases hempty : u.data = []
  · rw [dataPackets, if_pos hempty, List.nil_append]
    refine .updates ?_ (hlater.mono (Nat.le_add_right _ _)) (by omega) (Or.inl hstarted)
    change (if 0 < u.data.length then ChunkedState.CS_CHUNK else .CS_ID_FIRST) = _
    rw [hempty]
    rfl
  · rw [dataPackets, if_neg hempty]
    refine .chunkData ?_ rfl hempty rfl hdata hstop hstarted hlater
    exact if_pos (List.length_pos_of_ne_nil hempty)

/-- The hash behind the chunks of a block. -/
theorem handled_hash (hstate : r.session.fc.state = .CS_ID_FIRST) (hstarted : r.Started file remote start pos)
    (hend : pos ≤ blockEnd remote start) :
    Handled d file old remote compared r start false (.blockHash start (d.md5 (block remote start))) [] := by
  cases hhash : r.hashEqual d file start (d.md5 (block remote start)) with
  | true =>
    obtain ⟨data, hdata, hmd5⟩ : ∃ data, r.hashed file start = some data ∧ d.md5 data = d.md5 (block remote start) := by
      simpa [Receiver.hashEqual, Option.any_eq_true] using hhash
    exact handled_blockHash h hsize hstart hstate hstarted.block (fun w hw => Nat.le_trans (hstarted.behind w hw) hend) hhash
      hdata hmd5 (hashed_chunks hstarted hsize hend hstart hdata)
  | false => exact handled_wrongHash h hsize hstate hstarted.chunks hhash

/-- What comes next of the answer for a block is handled. -/
theorem Expects.handled {rest : List Packet} (hexpects : Expects d file old remote r start out_of_band rest)
    (hlt : remote.length < 2 ^ 63) (hdvd : c_checkpoint_dist ∣ start) {n : Nat} (hn : 0 < n) :
    ∃ packet later, arrive n rest = some (packet, later) ∧
      Handled d file old remote compared r start out_of_band packet later := by
  cases hexpects with
  | noChange hrests hhash hsame => exact ⟨_, _, rfl, handled_noChange h hsize hstart hrests hhash hsame⟩
  | wholeBlock _ hbetween => exact ⟨_, _, rfl, handled_wholeBlock h hsize hstart hlt hbetween⟩
  | blockData _ hstate hremaining hne hpos hle hbuf hlength hcovers hbehind hblock =>
    exact ⟨_, _, rfl, handled_blockData h hsize hstart hstate hremaining hne hpos hle hbuf hlength hcovers hbehind hblock hn⟩
  | blockDone _ hstate hwhole hmd5 hcovers hbehind hblock =>
    obtain ⟨hhashed, hhash⟩ := @hashEqual_whole d file r hwhole start
    rw [hmd5] at hhashed hhash
    exact ⟨_, _, rfl, handled_blockHash h hsize hstart hstate hblock hbehind hhash hhashed rfl
      fun _ p hp hlt => Or.inl (hcovers p hp hlt)⟩
  | @updates pos rs hstate hrs hend hbegun =>
    cases rs with
    | nil =>
      obtain hstarted | ⟨_, _, hnil⟩ := hbegun
      · exact ⟨_, _, rfl, handled_hash h hsize hstart hstate hstarted hend⟩
      · exact absurd rfl hnil
    | cons u rs =>
      have hbegun' : r.Started file remote start pos ∨ r.Rests start ∧ pos = start :=
        hbegun.imp id fun hrests => ⟨hrests.1, hrests.2.1⟩
      refine ⟨.updateChunk u.off u.data.length, _, rfl, ?_⟩
      have hhandled := @handled_updateChunk d file old remote _ _ _ _ h hsize hstart hlt hstate u rs hrs hbegun' hdvd
      rw [← List.append_assoc] at hhandled
      exact hhandled
  | chunkData hstate hremaining hne hpos hbuf hend hstarted hrs =>
    exact ⟨_, _, rfl, handled_chunkData h hsize hstate hremaining hne hpos hbuf hend hstarted hrs hn⟩

end Handled

theorem Expects.ne_nil {rest : List Packet} (h : Expects d file old remote r start out_of_band rest) : rest ≠ [] := by
  cases h with
  | updates => exact List.append_ne_nil_of_right_ne_nil _ (List.cons_ne_nil _ _)
  | _ => exact List.cons_ne_nil _ _

end Receive

/-- The answers for blocks behind each other. -/
def answers (d : Digests) (file old remote : Bytes) (k m : Nat) : List Packet :=
  (List.range' k m).flatMap fun i => Transfer.answer d file old remote (blockRequest file (chunkHashFile d old) i)

namespace Transfer

section Inv

variable (d : Digests) (file old remote : Bytes)

/-- Of the blocks from `k` on, `m` were asked for. -/
structure Asked (k m : Nat) (t : Transfer) : Prop where
  next_chunk : t.next_chunk = k + m
  pending_chunks : t.pending_chunks = (List.range' k m).map (c_checkpoint_dist * ·)

/-- Where a transfer is when `k` blocks are done and `m` more were asked for. -/
inductive Stage (t : Transfer) (k : Nat) : Nat → Prop
  | filesize (hrests : t.receiver.Rests (c_checkpoint_dist * k)) (hsize : t.fc.remote_filesize = -1)
      (hin : t.incoming = [.filesize remote.length]) (hofb : t.out_of_band = none) : Stage t k 0
  | idle (hrests : t.receiver.Rests (c_checkpoint_dist * k)) (hsize : t.fc.remote_filesize = remote.length)
      (hin : t.incoming = []) (hofb : t.out_of_band = none) : Stage t k 0
  | block {m : Nat} {rest : List Packet} (hsize : t.fc.remote_filesize = remote.length)
      (hexpects : Expects d file old remote t.receiver (c_checkpoint_dist * k) false rest)
      (hin : t.incoming = rest ++ answers d file old remote (k + 1) m) (hofb : t.out_of_band = none) : Stage t k (m + 1)
  | outOfBand {m : Nat} {rest : List Packet} (hsize : t.fc.remote_filesize = remote.length)
      (hexpects : Expects d file old remote t.receiver (c_checkpoint_dist * k) true rest)
      (hin : t.incoming = answers d file old remote (k + 1) m) (hofb : t.out_of_band = some ⟨c_checkpoint_dist * k, rest⟩) :
      Stage t k (m + 1)

/-- What holds in every state of a transfer that is reached. -/
inductive Inv (t : Transfer) : Prop
  | unsized {m : Nat} (hunsized : t.receiver.session.Unsized) (hnone : t.compared = []) (hasked : t.Asked 0 m)
      (hsize : m ≤ t.num_total_chunks) (hin : t.incoming = .filesize remote.length :: answers d file old remote 0 m)
      (hofb : t.out_of_band = none) : Inv t
  | sized {k m : Nat} (hreceived : t.receiver.session.Received file remote t.compared (c_checkpoint_dist * k))
      (hequal : ∀ c ∈ t.compared, d.md5 c.1 = d.md5 c.2) (hasked : t.Asked k m)
      (hbegin : ∀ i < m, c_checkpoint_dist * (k + i) < remote.length) (hstage : t.Stage d file old remote k m) : Inv t

end Inv

end Transfer

theorem arrive_append {n : Nat} {packet : Packet} {rest later : List Packet} (h : arrive n rest = some (packet, later))
    (more : List Packet) : arrive n (rest ++ more) = some (packet, later ++ more) := by
  cases rest with
  | nil => cases h
  | cons first rest =>
    cases first with
    | data buf =>
      cases h
      rw [List.append_assoc]
      rfl
    | _ =>
      cases h
      rfl

section Requests

variable {d : Digests} {file old remote : Bytes}

theorem answers_zero (k : Nat) : answers d file old remote k 0 = [] := rfl

theorem answers_succ (k m : Nat) : answers d file old remote k (m + 1) =
    Transfer.answer d file old remote (blockRequest file (chunkHashFile d old) k) ++ answers d file old remote (k + 1) m := by
  rw [answers, List.range'_succ, List.flatMap_cons]
  rfl

theorem answers_push (k m : Nat) : answers d file old remote k m ++
    Transfer.answer d file old remote (blockRequest file (chunkHashFile d old) (k + m)) = answers d file old remote k (m + 1) := by
  rw [answers, answers, List.range'_1_concat, List.flatMap_append, List.flatMap_singleton]

theorem startpos_blockRequest (file chunkhashes : Bytes) (next_chunk : Nat) :
    (blockRequest file chunkhashes next_chunk).startpos = c_checkpoint_dist * next_chunk := by
  unfold blockRequest
  dsimp only
  split <;> rfl

theorem hashfilesize_eq (hold : old.length < 2 ^ 63) : hashfilesize file (chunkHashFile d old) = min old.length file.length := by
  rw [hashfilesize, size_chunkHashFile d hold]

theorem lt_num_chunks {size next_chunk : Nat} (h : next_chunk < num_chunks size) : c_checkpoint_dist * next_chunk < size := by
  have hdist : c_checkpoint_dist = 524288 := rfl
  rw [num_chunks, hdist] at h
  rw [hdist]
  split at h <;> omega

theorem le_of_num_chunks {size next_chunk : Nat} (h : num_chunks size ≤ next_chunk) : size ≤ c_checkpoint_dist * next_chunk := by
  have hdist : c_checkpoint_dist = 524288 := rfl
  rw [num_chunks, hdist] at h
  rw [hdist]
  split at h <;> omega

theorem num_chunks_mono {size size' : Nat} (h : size ≤ size') : num_chunks size ≤ num_chunks size' := by
  have hdist : c_checkpoint_dist = 524288 := rfl
  rw [num_chunks, num_chunks, hdist]
  split <;> split <;> omega

/-- The hash in a request is that of the block of the old file. -/
theorem big_hash_blockRequest (hold : old.length < 2 ^ 63) {next_chunk : Nat}
    (h : (blockRequest file (chunkHashFile d old) next_chunk).transfer_all = false) :
    (blockRequest file (chunkHashFile d old) next_chunk).big_hash = d.md5 (block old (c_checkpoint_dist * next_chunk)) := by
  unfold blockRequest at h ⊢
  dsimp only at h ⊢
  split at h
  · next hsome =>
    have hlt : c_checkpoint_dist * next_chunk < old.length := by
      have hnum := lt_num_chunks hsome.1
      rw [hashfilesize_eq hold] at hnum
      omega
    rw [if_pos hsome, slice_chunkHashFile d hlt]
    have hmd5 : (d.md5 (block old (c_checkpoint_dist * next_chunk))).length = big_hash_size := d.length_md5 _
    dsimp only
    rw [record, List.append_assoc, List.take_left' hmd5]
  · cases h

/-- An unchanged block is the same in the part of the old file that there is. -/
theorem same_of_block (hfile : file <+: old) {start : Nat}
    (hsize : start + (block remote start).length ≤ min old.length file.length) (hsame : block old start = block remote start) :
    Same file remote [] start (blockEnd remote start) := by
  intro p hp hlt
  right
  rw [blockEnd] at hlt
  obtain ⟨rest, rfl⟩ := hfile
  have hbyte := congrArg (fun bytes => bytes[p - start]?) hsame
  have hblock : p - start < c_checkpoint_dist := by
    have hlength : (block remote start).length = min c_checkpoint_dist (remote.length - start) := length_slice _ _ _
    omega
  simp only [block, getElem?_slice, if_pos hblock, Nat.add_sub_cancel' hp] at hbyte
  rw [← hbyte, List.getElem?_append_left (by omega)]

theorem answer_whole {start : Nat} (hstart : start < remote.length) :
    Transfer.answer d file old remote ⟨start, true, [], []⟩ = [.wholeBlock start (block remote start).length,
      .data (block remote start), .blockHash start (d.md5 (block remote start))] := by
  have hne : remote ≠ [] := List.ne_nil_of_length_pos (by omega)
  rw [Transfer.answer, ChunkSendThread.sendChunk, if_pos rfl, sendWhole_sender hne d hstart]

/-- The answer for a block is expected in front of it. -/
theorem expects_answer {r : Receiver} {k : Nat} (hfile : file <+: old) (hold : old.length < 2 ^ 63)
    (hrests : r.Rests (c_checkpoint_dist * k)) (hstart : c_checkpoint_dist * k < remote.length) :
    Expects d file old remote r (c_checkpoint_dist * k) false
      (Transfer.answer d file old remote (blockRequest file (chunkHashFile d old) k)) := by
  have hne : remote ≠ [] := List.ne_nil_of_length_pos (by omega)
  have hpos := startpos_blockRequest file (chunkHashFile d old) k
  have hhash := @big_hash_blockRequest d file old hold k
  generalize blockRequest file (chunkHashFile d old) k = chunk at hpos hhash ⊢
  cases hwhole : chunk.transfer_all with
  | true =>
    rw [Transfer.answer, ChunkSendThread.sendChunk, if_pos hwhole, hpos, sendWhole_sender hne d hstart]
    exact .wholeBlock false hrests.between
  | false =>
    have hanswers := @sendChunk_answers remote (hashfilesize file (chunkHashFile d old)) hne d chunk (by rw [hpos]; exact hstart)
    rw [hpos, hhash hwhole] at hanswers
    rw [Transfer.answer]
    generalize (sender remote (hashfilesize file (chunkHashFile d old))).sendChunk d chunk = packets at hanswers ⊢
    cases hanswers with
    | whole => exact .wholeBlock false hrests.between
    | unchanged hmd5 hall =>
      rw [hashfilesize_eq hold] at hall
      exact .noChange hrests hmd5.symm (same_of_block hfile hall)
    | updates hsome hrs =>
      exact .updates hrests.between.1 hrs (Nat.le_add_right _ _) (Or.inr ⟨hrests, rfl, hsome⟩)

end Requests

namespace Transfer

section Steps

variable {d : Digests} {file old remote : Bytes} {t : Transfer} {k m : Nat}

theorem Asked.push (h : t.Asked k m) {u : Transfer} (hnext : u.next_chunk = t.next_chunk + 1)
    (hpending : u.pending_chunks = t.pending_chunks ++ [c_checkpoint_dist * t.next_chunk]) : u.Asked k (m + 1) := by
  refine ⟨?_, ?_⟩
  · rw [hnext, h.next_chunk, Nat.add_assoc]
  · rw [hpending, h.pending_chunks, h.next_chunk, List.range'_1_concat, List.map_append]
    rfl

/-- The first block that was asked for is done. -/
theorem Asked.pop (h : t.Asked k (m + 1)) {u : Transfer} (hnext : u.next_chunk = t.next_chunk)
    (hpending : u.pending_chunks = t.pending_chunks.erase (c_checkpoint_dist * k)) : u.Asked (k + 1) m := by
  refine ⟨?_, ?_⟩
  · rw [hnext, h.next_chunk]
    omega
  · rw [hpending, h.pending_chunks, List.range'_succ, List.map_cons, List.erase_cons_head]

theorem Asked.mem (h : t.Asked k (m + 1)) : c_checkpoint_dist * k ∈ t.pending_chunks := by
  rw [h.pending_chunks, List.range'_succ]
  exact List.mem_cons_self

theorem Asked.not_mem (h : t.Asked (k + 1) m) : c_checkpoint_dist * k ∉ t.pending_chunks := by
  rw [h.pending_chunks]
  intro hin
  obtain ⟨i, hi, heq⟩ := List.mem_map.mp hin
  have hle := (List.mem_range'_1.mp hi).1
  have hi' : i = k := Nat.eq_of_mul_eq_mul_left checkpoint_pos heq
  omega

/-- After a new connection the blocks are asked for again from the first that is not done. -/
theorem Asked.reconnect (h : t.Asked k m) (connected : Bool) : (t.reconnect remote connected).Asked k 0 := by
  refine ⟨?_, rfl⟩
  have hfold : ∀ (m k n : Nat), ((List.range' k m).map (c_checkpoint_dist * ·)).foldl
      (fun next_chunk chunk => min next_chunk (chunk / c_checkpoint_dist)) n = if m = 0 then n else min n k := by
    intro m
    induction m with
    | zero => exact fun k n => rfl
    | succ m ih =>
      intro k n
      rw [List.range'_succ, List.map_cons, List.foldl_cons, ih, Nat.mul_div_cancel_left k checkpoint_pos]
      split
      · simp
      · simp
  have hnext := hfold m k t.next_chunk
  rw [← h.pending_chunks] at hnext
  refine hnext.trans ?_
  rw [h.next_chunk]
  split <;> omega

/-- In front of a block the answer for it comes next, if it was asked for. -/
theorem Stage.of_rests (hfile : file <+: old) (hold : old.length < 2 ^ 63) (hrests : t.receiver.Rests (c_checkpoint_dist * k))
    (hsize : t.fc.remote_filesize = remote.length) (hbegin : ∀ i < m, c_checkpoint_dist * (k + i) < remote.length)
    (hin : t.incoming = answers d file old remote k m) (hofb : t.out_of_band = none) : t.Stage d file old remote k m := by
  cases m with
  | zero => exact .idle hrests hsize hin hofb
  | succ m =>
    rw [answers_succ] at hin
    exact .block hsize (expects_answer hfile hold hrests (hbegin 0 (Nat.zero_lt_succ m))) hin hofb

theorem Inv.request (h : t.Inv d file old remote) (hfile : file <+: old) (hold : old.length < 2 ^ 63)
    (ha : t.Enabled .request) : (t.step d file old remote .request).Inv d file old remote := by
  obtain ⟨_, hnoofb, _, hsized, hnext⟩ := ha
  cases h with
  | @unsized m hunsized hnone hasked hsize hin hofb =>
    rw [hasked.next_chunk, Nat.zero_add] at hnext
    refine .unsized hunsized hnone (hasked.push rfl rfl) hnext ?_ hofb
    change t.incoming ++ answer d file old remote (blockRequest file (chunkHashFile d old) t.next_chunk) = _
    rw [hin, hasked.next_chunk, List.cons_append, answers_push]
  | @sized k m hreceived hequal hasked hbegin hstage =>
    have hincoming (rest : List Packet) (i n : Nat) (hin : t.incoming = rest ++ answers d file old remote i n)
        (hi : i + n = t.next_chunk) : (t.step d file old remote .request).incoming = rest ++ answers d file old remote i (n + 1) := by
      rw [← answers_push, ← List.append_assoc, ← hin, hi]
      rfl
    have hbegin' (hsize : t.fc.remote_filesize = remote.length) : ∀ i < m + 1, c_checkpoint_dist * (k + i) < remote.length := by
      intro i hi
      obtain hi | rfl := Nat.lt_succ_iff_lt_or_eq.mp hi
      · exact hbegin i hi
      · rw [num_total_chunks, hsize, Int.toNat_natCast, hasked.next_chunk] at hnext
        exact lt_num_chunks hnext
    have hasked' := hasked.push (u := t.step d file old remote .request) rfl rfl
    cases hstage with
    | filesize _ hsize => exact absurd hsize hsized
    | idle hrests hsize hin hofb =>
      have hnothing : t.incoming = [] ++ answers d file old remote k 0 := by
        rw [hin, answers_zero, List.nil_append]
      have hanswer := hincoming [] k 0 hnothing hasked.next_chunk.symm
      rw [List.nil_append] at hanswer
      exact .sized hreceived hequal hasked' (hbegin' hsize)
        (Stage.of_rests hfile hold hrests hsize (hbegin' hsize) hanswer hofb)
    | @block m rest hsize hexpects hin hofb =>
      refine .sized hreceived hequal hasked' (hbegin' hsize) (.block hsize hexpects ?_ hofb)
      refine hincoming rest (k + 1) m hin ?_
      rw [hasked.next_chunk]
      omega
    | outOfBand _ _ _ hofb =>
      rw [hnoofb] at hofb
      cases hofb

theorem Inv.reconnect (h : t.Inv d file old remote) (hnoofb : t.out_of_band = none) {connected : Bool}
    (hdone : (t.reconnect remote connected).done = false) : (t.reconnect remote connected).Inv d file old remote := by
  cases h with
  | unsized hunsized hnone hasked hsize hin hofb =>
    exact .unsized (hunsized.reconnect hdone) hnone (hasked.reconnect connected) (Nat.zero_le _) rfl hofb
  | sized hreceived hequal hasked hbegin hstage =>
    obtain ⟨hstate, hblock, hsize⟩ := reconnect_fields t.fc connected hdone
    refine .sized (hreceived.reconnect hdone) hequal (hasked.reconnect connected) (fun i hi => absurd hi (Nat.not_lt_zero i))
      (.filesize ⟨⟨hstate, rfl⟩, ?_⟩ hsize rfl hnoofb)
    refine lt_of_eq_of_lt hblock ?_
    omega

theorem handle_part {packet : Packet} (hpart : packet.isPart = true) (hrequested : packet.requested t.pending_chunks = true)
    (connected : Bool) : t.handle d file old remote connected packet = { t with receiver := t.receiver.receive d file packet } := by
  cases packet with
  | wholeBlock | updateChunk | data => simp only [Transfer.handle, hrequested, if_true]
  | filesize | noChange | blockHash => cases hpart

theorem handle_noChange {start : Nat} (hrequested : start ∈ t.pending_chunks) (connected : Bool) :
    t.handle d file old remote connected (.noChange start) =
      { t with
        receiver := t.receiver.receive d file (.noChange start)
        pending_chunks := t.pending_chunks.erase start
        compared := t.compared ++ [(block old start, block remote start)] } := by
  have hin : (Packet.noChange start).requested t.pending_chunks = true := decide_eq_true hrequested
  rw [Transfer.handle, if_pos hin]

theorem handle_blockHash {start : Nat} {hash data : Bytes} (hequal : t.receiver.hashEqual d file start hash = true)
    (hdata : t.receiver.hashed file start = some data) (connected : Bool) :
    t.handle d file old remote connected (.blockHash start hash) =
      { t with
        receiver := t.receiver.receive d file (.blockHash start hash)
        pending_chunks := t.pending_chunks.erase start
        compared := t.compared ++ [(data, block remote start)] } := by
  have hrequested : (Packet.blockHash start hash).requested t.pending_chunks = true := rfl
  rw [Transfer.handle, if_pos hrequested]
  simp only [hequal, if_true, hdata]
  rfl

theorem handle_wrongHash {start : Nat} {hash : Bytes} (hequal : t.receiver.hashEqual d file start hash = false) (connected : Bool) :
    t.handle d file old remote connected (.blockHash start hash) =
      { t with
        receiver := t.receiver.receive d file (.blockHash start hash)
        out_of_band := some ⟨start, answer d file old remote ⟨start, true, [], []⟩⟩ } := by
  have hrequested : (Packet.blockHash start hash).requested t.pending_chunks = true := rfl
  rw [Transfer.handle, if_pos hrequested]
  simp only [hequal, Bool.false_eq_true, if_false]

section Answered

variable (hfile : file <+: old) (hold : old.length < 2 ^ 63) (hequal : ∀ c ∈ t.compared, d.md5 c.1 = d.md5 c.2)
  (hasked : t.Asked k (m + 1)) (hbegin : ∀ i < m + 1, c_checkpoint_dist * (k + i) < remote.length)

include hfile hold hequal hasked hbegin

/-- The first block that was asked for is done. -/
theorem Inv.of_done
    {t' : Transfer} {c : Bytes × Bytes} (hc : d.md5 c.1 = d.md5 c.2) (hcompared : t'.compared = t.compared ++ [c])
    (hreceived : t'.receiver.session.Received file remote (t.compared ++ [c]) (c_checkpoint_dist * k + c_checkpoint_dist))
    (hrests : t'.receiver.Rests (c_checkpoint_dist * k + c_checkpoint_dist)) (hsize : t'.fc.remote_filesize = remote.length)
    (hnext : t'.next_chunk = t.next_chunk) (hpending : t'.pending_chunks = t.pending_chunks.erase (c_checkpoint_dist * k))
    (hin : t'.incoming = answers d file old remote (k + 1) m) (hofb : t'.out_of_band = none) : t'.Inv d file old remote := by
  have hbegin' : ∀ i < m, c_checkpoint_dist * (k + 1 + i) < remote.length := by
    intro i hi
    have hlater := hbegin (i + 1) (Nat.succ_lt_succ hi)
    have heq : k + (i + 1) = k + 1 + i := by omega
    rwa [heq] at hlater
  rw [← Nat.mul_succ, ← hcompared] at hreceived
  rw [← Nat.mul_succ] at hrests
  refine .sized hreceived ?_ (hasked.pop hnext hpending) hbegin' (Stage.of_rests hfile hold hrests hsize hbegin' hin hofb)
  intro c' hc'
  rw [hcompared] at hc'
  obtain hc' | hc' := List.mem_append.mp hc'
  · exact hequal c' hc'
  · rw [List.mem_singleton.mp hc']
    exact hc

/-- A packet of the answer for a block. -/
theorem Inv.of_handled {packet : Packet} {later : List Packet}
    (hin : t.incoming = later ++ answers d file old remote (k + 1) m) (hofb : t.out_of_band = none)
    (h : Handled d file old remote t.compared t.receiver (c_checkpoint_dist * k) false packet later) (connected : Bool) :
    (t.handle d file old remote connected packet).Inv d file old remote := by
  cases h with
  | next hpart hrequested hreceived hsize hexpects =>
    rw [handle_part hpart (hrequested _ hasked.mem)]
    exact .sized hreceived hequal ⟨hasked.1, hasked.2⟩ hbegin (.block hsize hexpects hin hofb)
  | noChange hhash hreceived hsize hrests =>
    rw [handle_noChange hasked.mem]
    exact Inv.of_done hfile hold hequal hasked hbegin hhash rfl hreceived hrests hsize rfl rfl hin hofb
  | blockHash hequal' hdata hhash hreceived hsize hrests =>
    rw [handle_blockHash hequal' hdata]
    exact Inv.of_done hfile hold hequal hasked hbegin hhash rfl hreceived hrests hsize rfl rfl hin hofb
  | again _ hequal' hreceived hsize hexpects =>
    have hstart : c_checkpoint_dist * k < remote.length := hbegin 0 (Nat.zero_lt_succ m)
    rw [handle_wrongHash hequal', answer_whole hstart]
    exact .sized hreceived hequal ⟨hasked.1, hasked.2⟩ hbegin (.outOfBand hsize hexpects hin rfl)

/-- A packet of a block that is loaded again. -/
theorem Inv.of_handled_outOfBand {packet : Packet} {later : List Packet}
    (hin : t.incoming = answers d file old remote (k + 1) m) (hofb : t.out_of_band = some ⟨c_checkpoint_dist * k, later⟩)
    (h : Handled d file old remote t.compared t.receiver (c_checkpoint_dist * k) true packet later) (connected : Bool) :
    (if c_checkpoint_dist * k ∈ (t.handle d file old remote connected packet).pending_chunks then
      t.handle d file old remote connected packet
    else { t.handle d file old remote connected packet with out_of_band := none }).Inv d file old remote := by
  have hgone : c_checkpoint_dist * k ∉ t.pending_chunks.erase (c_checkpoint_dist * k) :=
    (hasked.pop (u := { t with pending_chunks := t.pending_chunks.erase (c_checkpoint_dist * k) }) rfl rfl).not_mem
  cases h with
  | next hpart hrequested hreceived hsize hexpects =>
    rw [handle_part hpart (hrequested _ hasked.mem)]
    dsimp only
    rw [if_pos hasked.mem]
    exact .sized hreceived hequal ⟨hasked.1, hasked.2⟩ hbegin (.outOfBand hsize hexpects hin hofb)
  | noChange hhash hreceived hsize hrests =>
    rw [handle_noChange hasked.mem]
    dsimp only
    rw [if_neg hgone]
    exact Inv.of_done hfile hold hequal hasked hbegin hhash rfl hreceived hrests hsize rfl rfl hin rfl
  | blockHash hequal' hdata hhash hreceived hsize hrests =>
    rw [handle_blockHash hequal' hdata]
    dsimp only
    rw [if_neg hgone]
    exact Inv.of_done hfile hold hequal hasked hbegin hhash rfl hreceived hrests hsize rfl rfl hin rfl
  | again hfirst => cases hfirst

end Answered

theorem receive_none (hofb : t.out_of_band = none) {n : Nat} {packet : Packet} {incoming : List Packet}
    (h : arrive n t.incoming = some (packet, incoming)) (connected : Bool) :
    t.receive d file old remote n connected = { t with incoming }.handle d file old remote connected packet := by
  simp only [Transfer.receive, hofb, h]

theorem receive_some {ofb : OutOfBand} (hofb : t.out_of_band = some ofb) {n : Nat} {packet : Packet} {incoming : List Packet}
    (h : arrive n ofb.incoming = some (packet, incoming)) (connected : Bool) :
    t.receive d file old remote n connected =
      if ofb.chunk_pos ∈ ({ t with out_of_band := some { ofb with incoming } }.handle d file old remote connected
          packet).pending_chunks then
        { t with out_of_band := some { ofb with incoming } }.handle d file old remote connected packet
      else { { t with out_of_band := some { ofb with incoming } }.handle d file old remote connected packet with
        out_of_band := none } := by
  simp only [Transfer.receive, hofb, h]

section Filesize

variable {remote_filesize : Nat} {incoming : List Packet} (hofb : t.out_of_band = none)
  (hin : t.incoming = .filesize remote_filesize :: incoming) {n : Nat} {connected : Bool}

include hofb hin

/-- The file is smaller than expected, and something was asked for behind its end. -/
theorem receive_smaller (hsmaller : (remote_filesize : Int) < t.fc.remote_filesize)
    (hbehind : num_chunks remote_filesize ≤ t.next_chunk) :
    t.receive d file old remote n connected = t.reconnect remote connected := by
  have harrive : arrive n t.incoming = some (.filesize remote_filesize, incoming) := by
    rw [hin]
    rfl
  have hrequested : (Packet.filesize remote_filesize).requested t.pending_chunks = true := rfl
  rw [receive_none hofb harrive, Transfer.handle, if_pos hrequested]
  exact if_pos ⟨hsmaller, hbehind⟩

theorem receive_filesize (hfits : ¬ ((remote_filesize : Int) < t.fc.remote_filesize ∧ num_chunks remote_filesize ≤ t.next_chunk)) :
    t.receive d file old remote n connected =
      let received := t.receiver.receive d file (.filesize remote_filesize)
      { t with receiver := if remote_filesize = 0 then received.ended else received, incoming } := by
  have harrive : arrive n t.incoming = some (.filesize remote_filesize, incoming) := by
    rw [hin]
    rfl
  have hrequested : (Packet.filesize remote_filesize).requested t.pending_chunks = true := rfl
  rw [receive_none hofb harrive, Transfer.handle, if_pos hrequested]
  refine (if_neg hfits).trans ?_
  split <;> rfl

/-- The file is not empty, or `GetFile` is done. -/
theorem receive_sized (hfits : ¬ ((remote_filesize : Int) < t.fc.remote_filesize ∧ num_chunks remote_filesize ≤ t.next_chunk))
    (hdone : (t.receive d file old remote n connected).done = false) : t.receive d file old remote n connected =
      { t with receiver := t.receiver.receive d file (.filesize remote_filesize), incoming } := by
  rw [receive_filesize hofb hin hfits] at hdone ⊢
  by_cases hempty : remote_filesize = 0
  · simp only [if_pos hempty] at hdone
    cases hdone
  · simp only [if_neg hempty]

end Filesize

/-- The file size comes for the first time. -/
theorem Inv.receive_unsized (h : t.Inv d file old remote) (hfile : file <+: old) (hold : old.length < 2 ^ 63)
    (hunsized : t.receiver.session.Unsized) (hnone : t.compared = []) (hasked : t.Asked 0 m) (hsize : m ≤ t.num_total_chunks)
    (hin : t.incoming = .filesize remote.length :: answers d file old remote 0 m) (hofb : t.out_of_band = none) {n : Nat}
    {connected : Bool} (hdone : (t.receive d file old remote n connected).done = false) :
    (t.receive d file old remote n connected).Inv d file old remote := by
  by_cases hfits : (remote.length : Int) < t.fc.remote_filesize ∧ num_chunks remote.length ≤ t.next_chunk
  · rw [receive_smaller hofb hin hfits.1 hfits.2] at hdone ⊢
    exact h.reconnect hofb hdone
  · rw [receive_sized hofb hin hfits hdone]
    obtain ⟨hstate, hblock, hsize', _⟩ := filesize_fields t.fc remote.length
    have hbegin : ∀ i < m, c_checkpoint_dist * (0 + i) < remote.length := by
      intro i hi
      rw [Nat.zero_add]
      apply lt_num_chunks
      by_cases hsmaller : (remote.length : Int) < t.fc.remote_filesize
      · have hnext := hasked.next_chunk
        have hlt : t.next_chunk < num_chunks remote.length := Nat.lt_of_not_le fun hle => hfits ⟨hsmaller, hle⟩
        omega
      · have hmono := num_chunks_mono (by omega : t.fc.remote_filesize.toNat ≤ remote.length)
        exact Nat.lt_of_lt_of_le hi (Nat.le_trans hsize hmono)
    have hrests : (t.receiver.receive d file (.filesize remote.length)).Rests (c_checkpoint_dist * 0) := by
      refine ⟨⟨hstate.trans hunsized.between.1, hunsized.between.2⟩, ?_⟩
      rw [Nat.mul_zero]
      exact lt_of_eq_of_lt (hblock.trans hunsized.block) (by decide)
    refine .sized (k := 0) (m := m) ?_ (by simp [hnone]) ⟨hasked.1, hasked.2⟩ hbegin
      (Stage.of_rests hfile hold hrests hsize' hbegin rfl hofb)
    simp only [hnone, Nat.mul_zero]
    exact hunsized.filesize file remote

theorem Inv.receive (h : t.Inv d file old remote) (hfile : file <+: old) (hold : old.length < 2 ^ 63)
    (hlt : remote.length < 2 ^ 63) {n : Nat} (hn : 0 < n) (hstream : t.stream ≠ []) {connected : Bool}
    (hdone : (t.receive d file old remote n connected).done = false) :
    (t.receive d file old remote n connected).Inv d file old remote := by
  cases h' : h with
  | unsized hunsized hnone hasked hsize hin hofb =>
    exact h.receive_unsized hfile hold hunsized hnone hasked hsize hin hofb hdone
  | @sized k m hreceived hequal hasked hbegin hstage =>
    have hdvd : c_checkpoint_dist ∣ c_checkpoint_dist * k := Nat.dvd_mul_right _ _
    cases hstage with
    | filesize hrests hsize hin hofb =>
      have hfits : ¬ ((remote.length : Int) < t.fc.remote_filesize ∧ num_chunks remote.length ≤ t.next_chunk) := by
        rw [hsize]
        omega
      rw [receive_sized hofb hin hfits hdone]
      obtain ⟨hstate, hblock, hsize', _⟩ := filesize_fields t.fc remote.length
      have hbefore := lt_of_eq_of_lt hblock hrests.before
      exact .sized (hreceived.filesize hrests.between) hequal ⟨hasked.1, hasked.2⟩ hbegin
        (.idle ⟨⟨hstate.trans hrests.between.1, hrests.between.2⟩, hbefore⟩ hsize' rfl hofb)
    | idle _ _ hin hofb =>
      rw [stream, hofb] at hstream
      exact absurd hin hstream
    | @block m rest hsize hexpects hin hofb =>
      obtain ⟨packet, later, harrive, hhandled⟩ := hexpects.handled hreceived hsize (hbegin 0 (Nat.zero_lt_succ m)) hlt hdvd hn
      have hnext := arrive_append harrive (answers d file old remote (k + 1) m)
      rw [← hin] at hnext
      rw [receive_none hofb hnext]
      exact Inv.of_handled (t := { t with incoming := later ++ answers d file old remote (k + 1) m }) hfile hold hequal
        ⟨hasked.1, hasked.2⟩ hbegin rfl hofb hhandled connected
    | @outOfBand m rest hsize hexpects hin hofb =>
      obtain ⟨packet, later, harrive, hhandled⟩ := hexpects.handled hreceived hsize (hbegin 0 (Nat.zero_lt_succ m)) hlt hdvd hn
      rw [receive_some hofb harrive]
      exact Inv.of_handled_outOfBand (t := { t with out_of_band := some ⟨c_checkpoint_dist * k, later⟩ }) hfile hold hequal
        ⟨hasked.1, hasked.2⟩ hbegin hin rfl hhandled connected

/-- The block is asked for again on another connection. -/
theorem Inv.reconnectOutOfBand (h : t.Inv d file old remote) (hofb : t.out_of_band ≠ none) {connected : Bool}
    (hdone : (t.step d file old remote (.reconnectOutOfBand connected)).done = false) :
    (t.step d file old remote (.reconnectOutOfBand connected)).Inv d file old remote := by
  cases connected with
  | false => cases hdone
  | true =>
    cases h with
    | unsized _ _ _ _ _ hnone => exact absurd hnone hofb
    | @sized k m hreceived hequal hasked hbegin hstage =>
      cases hstage with
      | filesize _ _ _ hnone => exact absurd hnone hofb
      | idle _ _ _ hnone => exact absurd hnone hofb
      | block _ _ _ hnone => exact absurd hnone hofb
      | @outOfBand m rest hsize hexpects hin hsome =>
        have hstart : c_checkpoint_dist * k < remote.length := hbegin 0 (Nat.zero_lt_succ m)
        have hsent : t.receiver.session.Sent .requestOfbChunk := hreceived.active
        obtain ⟨hstate, hsize', hactive⟩ := requestOfbChunk_fields t.fc
        have hreceived' := hreceived.next hsent (by simp) hactive hreceived.headed.requestOfbChunk rfl fun w hw => by cases hw
        refine .sized hreceived' hequal ⟨hasked.1, hasked.2⟩ hbegin
          (.outOfBand (hsize'.trans hsize) (.wholeBlock true ⟨hstate, rfl⟩) hin ?_)
        rw [step, hsome, Option.map_some, answer_whole hstart]

theorem Inv.step (h : t.Inv d file old remote) (hfile : file <+: old) (hold : old.length < 2 ^ 63) (hlt : remote.length < 2 ^ 63)
    {a : Action} (ha : t.Enabled a) (hdone : (t.step d file old remote a).done = false) :
    (t.step d file old remote a).Inv d file old remote := by
  cases a with
  | request => exact h.request hfile hold ha
  | receive n connected => exact h.receive hfile hold hlt ha.2.2 ha.2.1 hdone
  | reconnect connected => exact h.reconnect ha.2 hdone
  | reconnectOutOfBand connected => exact h.reconnectOutOfBand ha.2 hdone

theorem Inv.start {s : Session} (hs : Session.Reaches (fun s e => s.Sent e ∧ s.Forgotten e) s) (hnone : s.fc.last_chunk_patches = [])
    (chunk_start : Nat) (md5_hash : Bytes) (predicted_filesize : Int) :
    (start remote s chunk_start md5_hash predicted_filesize).Inv d file old remote := by
  have hreaches := hs.step (e := .GetFilePatch predicted_filesize) ⟨trivial, trivial⟩
  have hstale : (s.step (.GetFilePatch predicted_filesize)).stale = false := by
    simp [Session.step, FileClientChunked.step, GetFilePatch, hnone]
  exact .unsized (m := 0) ⟨hreaches, rfl, hstale, rfl, hnone, rfl, ⟨rfl, rfl⟩, rfl⟩ rfl ⟨rfl, rfl⟩ (Nat.zero_le _) rfl rfl

theorem Reached.inv (h : t.Reached d file old remote) (hfile : file <+: old) (hold : old.length < 2 ^ 63)
    (hlt : remote.length < 2 ^ 63) (hdone : t.done = false) : t.Inv d file old remote := by
  induction h with
  | start hs hnone chunk_start md5_hash predicted_filesize => exact Inv.start hs hnone chunk_start md5_hash predicted_filesize
  | @step t _ a ha ih =>
    have hbefore : t.done = false := by
      cases a <;> exact ha.1
    exact (ih hbefore).step hfile hold hlt ha hdone

/-- Behind the last block. -/
theorem Inv.finished (h : t.Inv d file old remote) (hfinished : t.Finished) : ∃ pos, remote.length ≤ pos ∧
    t.receiver.session.Received file remote t.compared pos ∧ (∀ c ∈ t.compared, d.md5 c.1 = d.md5 c.2) ∧
    t.receiver.session.Between := by
  obtain ⟨_, hsized, htotal, hpending, _⟩ := hfinished
  have hnothing {k m : Nat} (hasked : t.Asked k m) : m = 0 := by
    have hlength := congrArg List.length hasked.pending_chunks
    rw [hpending, List.length_map, List.length_range'] at hlength
    exact hlength.symm
  cases h with
  | unsized _ _ hasked =>
    obtain rfl := hnothing hasked
    rw [hasked.next_chunk] at htotal
    have hempty := le_of_num_chunks htotal
    omega
  | @sized k m hreceived hequal hasked hbegin hstage =>
    obtain rfl := hnothing hasked
    cases hstage with
    | filesize _ hsize => omega
    | idle hrests hsize =>
      rw [num_total_chunks, hsize, Int.toNat_natCast, hasked.next_chunk] at htotal
      exact ⟨_, le_of_num_chunks htotal, hreceived, hequal, hrests.between⟩

end Steps

section Delivered

variable {d : Digests} {file old remote : Bytes} {t : Transfer} {cp : ChunkPatcher}

/-- Where no data was taken for other data with the same hash, all that differs from the
old file was received. -/
theorem Inv.sends (h : t.Inv d file old remote) (hfinished : t.Finished) (hequal : ∀ c ∈ t.compared, c.1 = c.2) :
    Session.Sends (t.receiver.session.finished ++ t.receiver.session.current) file remote := by
  obtain ⟨pos, hend, hreceived, _, _, hnone⟩ := h.finished hfinished
  rw [hnone, List.append_nil]
  refine ⟨fun w hw => (hreceived.finished w hw).1, fun p hp hnot => ?_⟩
  obtain ⟨w, hw, hin⟩ | hsame := hreceived.same hequal p (Nat.zero_le p) (by omega)
  · exact absurd hin (hnot w hw)
  · exact hsame

/-- MD5 and SHA-512 of the data a context was given. -/
def contextDigests : Digests where
  md5 := md5.digestOf
  sha512 := sha2.sha512
  length_md5 _ := rfl

/-- A file of one byte is asked for, and there is no old file. -/
def sized : Transfer :=
  (start [7] (Session.new []) 0 [] (-1)).step contextDigests [] [] [7] (.receive 1 true)

/-- Its block is asked for. -/
def begun : Transfer :=
  { sized with
    next_chunk := 1
    pending_chunks := [0]
    incoming := [.wholeBlock 0 1, .data [7], .blockHash 0 (contextDigests.md5 [7])] }

/-- The connection was lost in front of the hash. -/
def again : Transfer :=
  [.receive 1 true, .receive 1 true, .reconnect true, .receive 1 true].foldl (step contextDigests [] [] [7]) begun

theorem sized_reached : sized.Reached contextDigests [] [] [7] :=
  (Reached.start (.new [] (by simp)) rfl 0 [] (-1)).step (a := .receive 1 true) (by decide)

/-- Until all blocks have come there is always something to ask for or to read. -/
theorem goes_on (h : t.Reached d file old remote) (hdone : t.done = false) (hfile : file <+: old) (hold : old.length < 2 ^ 63)
    (hlt : remote.length < 2 ^ 63) (hne : remote ≠ []) :
    t.Finished ∨ t.Enabled .request ∧ t.pending_chunks.length < c_queued_chunks_low ∨
      ∀ (n : Nat) (connected : Bool), 0 < n → t.Enabled (.receive n connected) := by
  have hreads (hstream : t.stream ≠ []) : t.Finished ∨ t.Enabled .request ∧ t.pending_chunks.length < c_queued_chunks_low ∨
      ∀ (n : Nat) (connected : Bool), 0 < n → t.Enabled (.receive n connected) :=
    Or.inr (Or.inr fun _ _ hn => ⟨hdone, hstream, hn⟩)
  cases h.inv hfile hold hlt hdone with
  | unsized _ _ _ _ hin hofb =>
    apply hreads
    rw [stream, hofb, hin]
    exact List.cons_ne_nil _ _
  | sized _ _ hasked _ hstage =>
    cases hstage with
    | filesize _ _ hin hofb =>
      apply hreads
      rw [stream, hofb, hin]
      exact List.cons_ne_nil _ _
    | idle hrests hsize _ hofb =>
      -- nothing is on its way, so there are requests to come, or the file is whole
      have hpending : t.pending_chunks = [] := hasked.pending_chunks
      have hpos := List.length_pos_of_ne_nil hne
      by_cases hnext : t.next_chunk < t.num_total_chunks
      · exact Or.inr (Or.inl ⟨⟨hdone, hofb, by rw [hpending]; decide, by omega, hnext⟩, by rw [hpending]; decide⟩)
      · exact Or.inl ⟨hdone, by omega, Nat.le_of_not_lt hnext, hpending, hrests.between.1⟩
    | block _ hexpects hin hofb =>
      apply hreads
      rw [stream, hofb, hin]
      exact List.append_ne_nil_of_left_ne_nil hexpects.ne_nil _
    | outOfBand _ hexpects _ hofb =>
      apply hreads
      rw [stream, hofb]
      exact hexpects.ne_nil

theorem goes_on_sized : sized.Finished ∨ sized.Enabled .request ∧ sized.pending_chunks.length < c_queued_chunks_low ∨
    ∀ (n : Nat) (connected : Bool), 0 < n → sized.Enabled (.receive n connected) :=
  @goes_on contextDigests [] [] [7] sized sized_reached (by decide) (List.prefix_refl []) (by decide) (by decide) (by decide)

end Delivered

end Transfer

end urbackup.chunkpatch
