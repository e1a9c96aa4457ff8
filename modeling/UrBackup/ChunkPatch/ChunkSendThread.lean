import UrBackup.ChunkHash.ChunkHashFile
import UrBackup.ChunkPatch.FileClientChunked

namespace urbackup.chunkpatch

open stringtools filedata chunkhash

/-- A block that is asked for: what differs from its hashes, or all of it. -/
structure SChunk where
  startpos : Nat
  transfer_all : Bool
  big_hash : Bytes
  small_hash : Bytes

/-- What is sent to the client. The data of a block or a chunk follows its header. -/
inductive Packet where
  | filesize (remote_filesize : Nat)
  | wholeBlock (block_start whole_block_remaining : Nat)
  | updateChunk (new_chunk_start adler_remaining : Nat)
  | data (buf : Bytes)
  | noChange (block_start : Nat)
  | blockHash (block_start : Nat) (hash : Bytes)
deriving DecidableEq

def dataPackets (buf : Bytes) : List Packet :=
  if buf = [] then [] else [.data buf]

def updatePackets (r : Record) : List Packet :=
  .updateChunk r.off r.data.length :: dataPackets r.data

/-- A `ChunkSendThread` with a file on disk that can be read. -/
structure ChunkSendThread where
  file : Bytes
  curr_file_size : Nat
  curr_hash_size : Nat

namespace ChunkSendThread

variable (t : ChunkSendThread)

/-- How much of `most` bytes is left of the file. -/
def left (curr_pos most : Nat) : Nat :=
  if t.curr_file_size ≤ curr_pos ∧ 0 < t.curr_file_size then 0
  else if t.curr_file_size - curr_pos < most ∧ 0 < t.curr_file_size then t.curr_file_size - curr_pos
  else most

/-- The loop over a whole block. Behind the end of the file nothing is sent or hashed. -/
def wholeLoop (spos blockleft : Nat) : Bytes :=
  if 0 < blockleft then
    let toread := min blockleft c_chunk_size
    let buf := slice t.file spos toread
    if toread = c_chunk_size then buf ++ wholeLoop (spos + buf.length) (blockleft - toread) else buf
  else []
termination_by blockleft
decreasing_by
  simp only [c_chunk_size]
  omega

/-- The loop over the chunks of a block: those that are sent, and all the data for the
hash of the block. Behind the end of the file are zeros. -/
def chunkLoop (small_hash : Bytes) (spos curr_pos read_total next_smallhash small_hash_num c_adler : Nat) : List Record × Bytes :=
  let to_read := t.left curr_pos c_chunk_size
  let read := slice t.file spos to_read
  let buf := read ++ List.replicate (to_read - read.length) 0
  let c_adler := urb_adler32 c_adler buf
  let hashed := read_total + buf.length = next_smallhash ∨ buf.length ≠ c_chunk_size
  let updates : List Record :=
    if hashed ∧ (c_adler ≠ leValue (slice small_hash (small_hash_size * small_hash_num) small_hash_size) ∨
        curr_pos + buf.length > t.curr_hash_size) then [⟨curr_pos, buf⟩]
    else []
  let next := if hashed then (next_smallhash + c_small_hash_dist, small_hash_num + 1, adler_init)
    else (next_smallhash, small_hash_num, c_adler)
  if read.length = c_chunk_size ∧ read_total + buf.length < c_checkpoint_dist then
    let later := chunkLoop small_hash (spos + read.length) (curr_pos + buf.length) (read_total + buf.length)
      next.1 next.2.1 next.2.2
    (updates ++ later.1, buf ++ later.2)
  else (updates, buf)
termination_by c_checkpoint_dist - read_total
decreasing_by
  rename_i hmore
  have hread : read.length ≤ buf.length := by
    simp only [buf, List.length_append]
    omega
  have hchunk : c_chunk_size = 4096 := rfl
  change c_checkpoint_dist - (read_total + buf.length) < c_checkpoint_dist - read_total
  omega

variable (d : Digests)

def sendWhole (startpos : Nat) : List Packet :=
  let blockleft := t.left startpos c_checkpoint_dist
  let buf := t.wholeLoop startpos blockleft
  (if buf = [] then [] else [.wholeBlock startpos blockleft, .data buf]) ++ [.blockHash startpos (d.md5 buf)]

/-- If no chunk is sent although the block has another hash, all of it is. -/
def sendChunk (chunk : SChunk) : List Packet :=
  if chunk.transfer_all then t.sendWhole d chunk.startpos
  else
    let sent := t.chunkLoop chunk.small_hash chunk.startpos chunk.startpos 0 c_small_hash_dist 0 adler_init
    let hash := d.md5 sent.2
    if sent.1 = [] ∧ hash ≠ chunk.big_hash then
      .wholeBlock chunk.startpos sent.2.length :: dataPackets sent.2 ++ [.blockHash chunk.startpos hash]
    else if sent.1 = [] then [.noChange chunk.startpos]
    else sent.1.flatMap updatePackets ++ [.blockHash chunk.startpos hash]

end ChunkSendThread

/-- Chunks of a file in their order, between two positions. They begin in one block. -/
def Updates (remote : Bytes) (block_end : Nat) : Nat → Nat → List Record → Prop
  | _, _, [] => True
  | pos, stop, r :: rs => pos ≤ r.off ∧ r.off < block_end ∧ r.stop ≤ stop ∧ r.data = slice remote r.off r.data.length ∧
      Updates remote block_end r.stop stop rs

section Updates

variable {remote : Bytes} {block_end pos stop : Nat} {rs : List Record}

theorem Updates.mono {pos' : Nat} (h : Updates remote block_end pos stop rs) (hpos : pos' ≤ pos) :
    Updates remote block_end pos' stop rs := by
  cases rs with
  | nil => trivial
  | cons r rs => exact ⟨Nat.le_trans hpos h.1, h.2⟩

theorem Updates.append {mid : Nat} {us : List Record} (h : Updates remote block_end pos mid us)
    (h' : Updates remote block_end mid stop rs) (hpos : pos ≤ mid) (hmid : mid ≤ stop) :
    Updates remote block_end pos stop (us ++ rs) := by
  induction us generalizing pos with
  | nil => exact h'.mono hpos
  | cons u us ih =>
    obtain ⟨hoff, hbegins, hstop, hdata, hlater⟩ := h
    exact ⟨hoff, hbegins, Nat.le_trans hstop hmid, hdata, ih hlater hstop⟩

end Updates

/-- How a block of the file is answered: all of it, nothing if it has the hash that was
sent, or some of its chunks. -/
inductive Answers (d : Digests) (remote : Bytes) (hash_size startpos : Nat) (big_hash : Bytes) : List Packet → Prop
  | whole : Answers d remote hash_size startpos big_hash
      [.wholeBlock startpos (block remote startpos).length, .data (block remote startpos),
        .blockHash startpos (d.md5 (block remote startpos))]
  | unchanged (hhash : d.md5 (block remote startpos) = big_hash)
      (hsize : startpos + (block remote startpos).length ≤ hash_size) :
      Answers d remote hash_size startpos big_hash [.noChange startpos]
  | updates {rs : List Record} (hne : rs ≠ [])
      (hrs : Updates remote (startpos + c_checkpoint_dist) startpos (startpos + (block remote startpos).length) rs) :
      Answers d remote hash_size startpos big_hash
        (rs.flatMap updatePackets ++ [.blockHash startpos (d.md5 (block remote startpos))])

/-- The sender of a file that does not change. -/
def sender (remote : Bytes) (hash_size : Nat) : ChunkSendThread :=
  ⟨remote, remote.length, hash_size⟩

@[simp] theorem file_sender (remote : Bytes) (hash_size : Nat) : (sender remote hash_size).file = remote := rfl

@[simp] theorem curr_file_size_sender (remote : Bytes) (hash_size : Nat) :
    (sender remote hash_size).curr_file_size = remote.length := rfl

@[simp] theorem curr_hash_size_sender (remote : Bytes) (hash_size : Nat) :
    (sender remote hash_size).curr_hash_size = hash_size := rfl

section Sender

variable {remote : Bytes} {hash_size : Nat}

theorem wholeLoop_sender {pos n : Nat} (hn : n ≤ remote.length - pos) : (sender remote hash_size).wholeLoop pos n = slice remote pos n := by
  induction n using Nat.strong_induction_on generalizing pos with
  | _ n ih =>
    have hchunk : c_chunk_size = 4096 := rfl
    rw [ChunkSendThread.wholeLoop]
    split
    · next hpos =>
      simp only [file_sender]
      have hread : (slice remote pos (min n c_chunk_size)).length = min n c_chunk_size := by
        rw [length_slice]
        omega
      rw [hread]
      split
      · next hfull =>
        have hsum : c_chunk_size + (n - c_chunk_size) = n := by omega
        rw [hfull, ih (n - c_chunk_size) (by omega) (by omega), ← slice_add, hsum]
      · next hlast =>
        have hmin : min n c_chunk_size = n := by omega
        rw [hmin]
    · next hzero =>
      obtain rfl : n = 0 := by omega
      simp [slice]

theorem block_ne_nil {startpos : Nat} (hstart : startpos < remote.length) : block remote startpos ≠ [] := by
  have hdist := checkpoint_pos
  apply List.ne_nil_of_length_pos
  rw [block, length_slice]
  omega

variable (hne : remote ≠ [])

include hne

theorem left_sender (pos most : Nat) : (sender remote hash_size).left pos most = min most (remote.length - pos) := by
  have hlength := List.length_pos_of_ne_nil hne
  rw [ChunkSendThread.left, curr_file_size_sender]
  split
  · omega
  · split <;> omega

theorem sendWhole_sender (d : Digests) {startpos : Nat} (hstart : startpos < remote.length) :
    (sender remote hash_size).sendWhole d startpos =
      [.wholeBlock startpos (block remote startpos).length, .data (block remote startpos),
        .blockHash startpos (d.md5 (block remote startpos))] := by
  have hlength : (block remote startpos).length = min c_checkpoint_dist (remote.length - startpos) := length_slice _ _ _
  have hdata : (sender remote hash_size).wholeLoop startpos (min c_checkpoint_dist (remote.length - startpos)) =
      block remote startpos := by
    rw [wholeLoop_sender (by omega), slice_min]
    rfl
  rw [ChunkSendThread.sendWhole, left_sender hne, hdata, if_neg (block_ne_nil hstart), ← hlength]
  rfl

/-- A round of the loop. -/
theorem chunkLoop_round (small_hash : Bytes) (num pos : Nat) :
    (sender remote hash_size).chunkLoop small_hash pos pos (c_chunk_size * num) (c_chunk_size * (num + 1)) num adler_init =
      let buf := slice remote pos c_chunk_size
      let updates : List Record :=
        if urb_adler32 adler_init buf ≠ leValue (slice small_hash (small_hash_size * num) small_hash_size) ∨
            pos + buf.length > hash_size then [⟨pos, buf⟩]
        else []
      if buf.length = c_chunk_size ∧ c_chunk_size * (num + 1) < c_checkpoint_dist then
        let later := (sender remote hash_size).chunkLoop small_hash (pos + c_chunk_size) (pos + c_chunk_size)
          (c_chunk_size * (num + 1)) (c_chunk_size * (num + 1 + 1)) (num + 1) adler_init
        (updates ++ later.1, buf ++ later.2)
      else (updates, buf) := by
  have hsucc (k : Nat) : c_chunk_size * (k + 1) = c_chunk_size * k + c_chunk_size := Nat.mul_succ _ _
  have hread : slice remote pos ((sender remote hash_size).left pos c_chunk_size) = slice remote pos c_chunk_size := by
    rw [left_sender hne, slice_min]
  have hzeros : (sender remote hash_size).left pos c_chunk_size - (slice remote pos c_chunk_size).length = 0 := by
    rw [left_sender hne, length_slice, Nat.sub_self]
  have hhashed : c_chunk_size * num + (slice remote pos c_chunk_size).length = c_chunk_size * (num + 1) ∨
      (slice remote pos c_chunk_size).length ≠ c_chunk_size := by
    rw [hsucc]
    omega
  rw [ChunkSendThread.chunkLoop]
  simp only [file_sender, curr_hash_size_sender, hread, hzeros, List.replicate_zero, List.append_nil, if_pos hhashed,
    and_iff_right hhashed]
  by_cases hfull : (slice remote pos c_chunk_size).length = c_chunk_size
  · rw [hfull, hsucc num, hsucc (num + 1), hsucc num]
    rfl
  · have hstop (p : Prop) : ¬ ((slice remote pos c_chunk_size).length = c_chunk_size ∧ p) := fun h => hfull h.1
    rw [if_neg (hstop _), if_neg (hstop _)]

/-- The loop from a chunk of a block on. -/
theorem chunkLoop_sender (small_hash : Bytes) {num pos : Nat} (hnum : c_chunk_size * num < c_checkpoint_dist)
    {sent : List Record × Bytes} (hsent : (sender remote hash_size).chunkLoop small_hash pos pos (c_chunk_size * num)
      (c_chunk_size * (num + 1)) num adler_init = sent) :
    sent.2 = slice remote pos (c_checkpoint_dist - c_chunk_size * num) ∧
      Updates remote (pos + (c_checkpoint_dist - c_chunk_size * num)) pos (pos + sent.2.length) sent.1 ∧ (sent.1 = [] → pos + sent.2.length ≤ hash_size) := by
  have hchunk : c_chunk_size = 4096 := rfl
  have hdist : c_checkpoint_dist = 524288 := rfl
  have hsucc (k : Nat) : c_chunk_size * (k + 1) = c_chunk_size * k + c_chunk_size := Nat.mul_succ _ _
  induction hm : c_checkpoint_dist - c_chunk_size * num using Nat.strong_induction_on generalizing num pos sent with
  | _ m ih =>
    have hlength : (slice remote pos c_chunk_size).length = min c_chunk_size (remote.length - pos) := length_slice _ _ _
    rw [chunkLoop_round hne] at hsent
    dsimp only at hsent
    generalize hupdates : (if urb_adler32 adler_init (slice remote pos c_chunk_size) ≠
        leValue (slice small_hash (small_hash_size * num) small_hash_size) ∨
        pos + (slice remote pos c_chunk_size).length > hash_size then [(⟨pos, slice remote pos c_chunk_size⟩ : Record)]
      else []) = updates at hsent
    have hround : Updates remote (pos + m) pos (pos + (slice remote pos c_chunk_size).length) updates ∧
        (updates = [] → pos + (slice remote pos c_chunk_size).length ≤ hash_size) := by
      rw [← hupdates]
      split
      · refine ⟨⟨Nat.le_refl _, by simp only; omega, Nat.le_refl _, ?_, trivial⟩, by simp⟩
        rw [hlength, slice_min]
      · next hsame => exact ⟨trivial, fun _ => Nat.le_of_not_gt fun hbehind => hsame (Or.inr hbehind)⟩
    obtain ⟨hchunks, hall⟩ := hround
    split at hsent
    · next hmore =>
      obtain ⟨hdata, hlater, hrest⟩ := ih (c_checkpoint_dist - c_chunk_size * (num + 1)) (by rw [hsucc]; omega) hmore.2 rfl rfl
      generalize (sender remote hash_size).chunkLoop small_hash (pos + c_chunk_size) (pos + c_chunk_size)
        (c_chunk_size * (num + 1)) (c_chunk_size * (num + 1 + 1)) (num + 1) adler_init = later at hsent hdata hlater hrest
      subst hsent
      rw [hmore.1] at hchunks hall
      have hsum : c_chunk_size + (c_checkpoint_dist - c_chunk_size * (num + 1)) = m := by
        have hlt := hmore.2
        rw [hsucc] at hlt ⊢
        omega
      refine ⟨?_, ?_, ?_⟩
      · rw [hdata, ← slice_add, hsum]
      · rw [Nat.add_assoc, hsum] at hlater
        rw [List.length_append, hmore.1, ← Nat.add_assoc]
        exact hchunks.append hlater (Nat.le_add_right _ _) (Nat.le_add_right _ _)
      · intro hnone
        rw [List.length_append, hmore.1, ← Nat.add_assoc]
        exact hrest (List.append_eq_nil_iff.mp hnone).2
    · next hlast =>
      subst hsent
      refine ⟨?_, hchunks, hall⟩
      have hend : slice remote pos m = slice remote pos c_chunk_size := by
        rw [← slice_min, ← slice_min remote pos c_chunk_size]
        have hmul : c_chunk_size * num = 4096 * num := rfl
        rw [hsucc, hlength] at hlast
        congr 1
        omega
      exact hend.symm

/-- A request for a block of the file is answered. -/
theorem sendChunk_answers (d : Digests) {chunk : SChunk} (hstart : chunk.startpos < remote.length) :
    Answers d remote hash_size chunk.startpos chunk.big_hash ((sender remote hash_size).sendChunk d chunk) := by
  rw [ChunkSendThread.sendChunk]
  split
  · rw [sendWhole_sender hne d hstart]
    exact .whole
  · obtain ⟨hdata, hupdates, hall⟩ := @chunkLoop_sender remote hash_size hne chunk.small_hash 0 chunk.startpos checkpoint_pos _ rfl
    have hloop : (sender remote hash_size).chunkLoop chunk.small_hash chunk.startpos chunk.startpos (c_chunk_size * 0)
        (c_chunk_size * (0 + 1)) 0 adler_init =
      (sender remote hash_size).chunkLoop chunk.small_hash chunk.startpos chunk.startpos 0 c_small_hash_dist 0 adler_init := rfl
    rw [hloop] at hdata hupdates hall
    generalize (sender remote hash_size).chunkLoop chunk.small_hash chunk.startpos chunk.startpos 0 c_small_hash_dist 0
      adler_init = sent at hdata hupdates hall ⊢
    change sent.2 = block remote chunk.startpos at hdata
    rw [hdata] at hupdates hall
    simp only [hdata]
    split
    · rw [dataPackets, if_neg (block_ne_nil hstart)]
      exact .whole
    · next hother =>
      split
      · next hnone =>
        exact .unchanged (by_contra fun hhash => hother ⟨hnone, hhash⟩) (hall hnone)
      · next hsome => exact .updates hsome hupdates

end Sender

end urbackup.chunkpatch
