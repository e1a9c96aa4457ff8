import UrBackup.ChunkPatch.ChunkSendThread
import UrBackup.ChunkPatch.PatchesKept

namespace urbackup.chunkpatch

open stringtools filedata chunkhash FileClientChunked

def BUFFERSIZE : Nat := 32768

/-- The loop of `Hash_upto`: the old file goes into the hash up to a chunk. A piece that
is too short does not. -/
def hashUpto (file : Bytes) (new_chunk_start chunk_start : Nat) (md5_hash : Bytes) : Bytes :=
  if chunk_start < new_chunk_start then
    let toread := min BUFFERSIZE (new_chunk_start - chunk_start)
    let buf := slice file chunk_start toread
    if buf.length < toread then md5_hash else hashUpto file new_chunk_start (chunk_start + toread) (md5_hash ++ buf)
  else md5_hash
termination_by new_chunk_start - chunk_start
decreasing_by
  simp only [BUFFERSIZE]
  omega

/-- The loop of `Hash_finalize`: the rest of the block. There is no hash if the old file
ends before. -/
def hashRest (file : Bytes) (dest_pos chunk_start : Nat) (md5_hash : Bytes) : Option Bytes :=
  if chunk_start < dest_pos then
    let buf := slice file chunk_start (min BUFFERSIZE (dest_pos - chunk_start))
    if buf = [] then none else hashRest file dest_pos (chunk_start + buf.length) (md5_hash ++ buf)
  else some md5_hash
termination_by dest_pos - chunk_start
decreasing_by
  rename_i hlt hbuf
  have hpos := List.length_pos_of_ne_nil hbuf
  change dest_pos - (chunk_start + buf.length) < dest_pos - chunk_start
  omega

namespace FileClientChunked

/-- The patch file begins with the size of the file, and no position in front of its end
is written to. -/
structure Headed (fc : FileClientChunked) (header : Bytes) : Prop where
  header : slice fc.patchfile.content 0 8 = header
  length : 8 ≤ fc.patchfile.content.length
  pos : 8 ≤ fc.patchfile.pos
  patch_pos : 8 ≤ fc.patchfile_pos
  patches : ∀ p ∈ fc.last_chunk_patches, 8 ≤ p

section Headed

variable {fc : FileClientChunked} {header : Bytes}

theorem Headed.of_same {fc' : FileClientChunked} (h : fc.Headed header) (hfile : fc'.patchfile = fc.patchfile)
    (hpos : fc'.patchfile_pos = fc.patchfile_pos) (hpatches : ∀ p ∈ fc'.last_chunk_patches, 8 ≤ p) : fc'.Headed header := by
  refine ⟨?_, ?_, ?_, ?_, hpatches⟩
  · rw [hfile]
    exact h.header
  · rw [hfile]
    exact h.length
  · rw [hfile]
    exact h.pos
  · rw [hpos]
    exact h.patch_pos

theorem Headed.seek (h : fc.Headed header) {pos : Nat} (hpos : 8 ≤ pos) :
    ({ fc with patchfile := fc.patchfile.Seek pos } : FileClientChunked).Headed header :=
  ⟨h.header, h.length, hpos, h.patch_pos, h.patches⟩

theorem Headed.writeFileRepeat (h : fc.Headed header) (buf : Bytes) : (fc.writeFileRepeat buf).Headed header := by
  refine ⟨?_, ?_, ?_, h.patch_pos, h.patches⟩
  · rw [← h.header]
    exact slice_overwrite_disjoint _ (by simpa using h.length) (Or.inl (by simpa using h.pos))
  · exact Nat.le_trans h.length (le_length_overwrite _ _ _ _)
  · exact Nat.le_trans h.pos (Nat.le_add_right _ _)

theorem Headed.writePatchInt (h : fc.Headed header) (pos : Nat) (buf : Bytes) : (fc.writePatchInt pos buf).Headed header := by
  have hwritten := (h.writeFileRepeat (leBytes 8 pos ++ leBytes 4 buf.length)).writeFileRepeat buf
  refine ⟨hwritten.header, hwritten.length, hwritten.pos, ?_, ?_⟩
  · have hpos := h.patch_pos
    change 8 ≤ fc.patchfile_pos + 12 + buf.length
    omega
  · intro p hp
    obtain hp | hp := List.mem_append.mp hp
    · exact h.patches p hp
    · rw [List.mem_singleton.mp hp]
      exact h.patch_pos

theorem Headed.writePatch (h : fc.Headed header) (pos : Nat) (buf : Bytes) (last : Bool) :
    (fc.writePatch pos buf last).Headed header := by
  unfold FileClientChunked.writePatch
  have hbuffer (fc' : FileClientChunked) (h' : fc'.Headed header) (patch_buf : Bytes) (patch_buf_start : Nat) :
      ({ fc' with patch_buf, patch_buf_start } : FileClientChunked).Headed header :=
    h'.of_same rfl rfl h'.patches
  have hflush (fc' : FileClientChunked) (h' : fc'.Headed header) : fc'.flush.Headed header :=
    (h'.writePatchInt fc'.patch_buf_start fc'.patch_buf).of_same rfl rfl (h'.writePatchInt _ _).patches
  dsimp only
  split
  · split
    · exact hflush _ (hbuffer _ h _ _)
    · exact hbuffer _ h _ _
  · have hflushed : (if fc.patch_buf ≠ [] then fc.flush else fc).Headed header := by
      split
      · exact hflush _ h
      · exact h
    split
    · exact hbuffer _ hflushed _ _
    · exact hflushed.writePatchInt _ _

theorem Headed.invalidateLastPatches (h : fc.Headed header) : fc.invalidateLastPatches.Headed header := by
  have hfold : ∀ (patches : List Nat) (fc' : FileClientChunked), fc'.Headed header → (∀ p ∈ patches, 8 ≤ p) →
      (patches.foldl invalidatePatch fc').Headed header := by
    intro patches
    induction patches with
    | nil => exact fun _ h' _ => h'
    | cons p patches ih =>
      intro fc' h' hall
      apply ih
      · exact (h'.seek (hall p List.mem_cons_self)).writeFileRepeat _
      · exact fun q hq => hall q (List.mem_cons_of_mem p hq)
  have hsize : ({ fc with curr_output_fsize :=
      if fc.last_chunk_patches ≠ [] then fc.last_patch_output_fsize else fc.curr_output_fsize } : FileClientChunked).Headed header :=
    h.of_same rfl rfl h.patches
  have hinvalid := hfold fc.last_chunk_patches _ hsize h.patches
  exact ⟨hinvalid.header, hinvalid.length, hinvalid.patch_pos, hinvalid.patch_pos, by simp [FileClientChunked.invalidateLastPatches]⟩

theorem Headed.requestOfbChunk (h : fc.Headed header) : fc.requestOfbChunk.Headed header :=
  (h.of_same rfl rfl h.patches : ({ fc with state := .CS_ID_FIRST } : FileClientChunked).Headed header).invalidateLastPatches

/-- The file size is at the start of the patch file, also when it is received again. -/
theorem headed_filesize {n : Nat} (hstart : fc.patchfile_pos = 0 ∧ fc.last_chunk_patches = [] ∨ fc.Headed (leBytes 8 n))
    (hworks : fc.Works) : (fc.step (.filesize n)).Headed (leBytes 8 n) := by
  have hseek : ({ fc with remote_filesize := n, patchfile := fc.patchfile.Seek 0 } : FileClientChunked).Works := hworks
  have hfile := writeFileRepeat_patchfile hseek (leBytes 8 n)
  have hheader : slice (overwrite 0 fc.patchfile.content 0 (leBytes 8 n)) 0 8 = leBytes 8 n := by
    have hself := slice_overwrite_self (0 : UInt8) fc.patchfile.content (leBytes 8 n) 0
    rw [length_leBytes] at hself
    exact hself
  have hlength : 8 ≤ (overwrite 0 fc.patchfile.content 0 (leBytes 8 n)).length := by
    have hslice := congrArg List.length hheader
    rw [length_slice, length_leBytes] at hslice
    omega
  rw [FileClientChunked.step, writePatchSize]
  dsimp only
  have hpatches : ∀ p ∈ fc.last_chunk_patches, 8 ≤ p := by
    obtain ⟨_, hnone⟩ | h := hstart
    · simp [hnone]
    · exact h.patches
  split
  · refine ⟨?_, ?_, ?_, Nat.le_refl 8, hpatches⟩
    · rw [hfile]
      exact hheader
    · rw [hfile]
      exact hlength
    · rw [hfile]
      simp [IFile.Write, IFile.Seek]
  · next hlong =>
    obtain ⟨hpos, _⟩ | h := hstart
    · exact absurd hpos hlong
    · refine ⟨?_, ?_, h.patch_pos, h.patch_pos, hpatches⟩
      · rw [hfile]
        exact hheader
      · rw [hfile]
        exact hlength

theorem Headed.data (h : fc.Headed header) (buf : Bytes) : (fc.step (.data buf)).Headed header := by
  rw [FileClientChunked.step]
  split
  · unfold State_Block
    dsimp only
    generalize min buf.length fc.whole_block_remaining = rbytes
    have hcounted : ({ fc with whole_block_remaining := fc.whole_block_remaining - rbytes } : FileClientChunked).Headed header :=
      h.of_same rfl rfl h.patches
    have hwritten := hcounted.writePatch fc.file_pos (buf.take rbytes) (decide (fc.whole_block_remaining - rbytes = 0))
    split <;> exact hwritten.of_same rfl rfl hwritten.patches
  · unfold State_Chunk
    dsimp only
    generalize min buf.length fc.adler_remaining = rbytes
    have hcounted : ({ fc with adler_remaining := fc.adler_remaining - rbytes } : FileClientChunked).Headed header :=
      h.of_same rfl rfl h.patches
    have hwritten := hcounted.writePatch fc.file_pos (buf.take rbytes) (decide (fc.adler_remaining - rbytes = 0))
    split
    · split <;> exact hwritten.of_same rfl rfl hwritten.patches
    · split <;> exact hcounted.of_same rfl rfl hcounted.patches

theorem Headed.blockHash (h : fc.Headed header) (block_start : Nat) (equal : Bool) :
    (fc.step (.blockHash block_start equal)).Headed header := by
  rw [FileClientChunked.step]
  unfold Hash_finalize
  dsimp only
  split
  · exact h.of_same rfl rfl (by simp)
  · split
    · exact h.of_same rfl rfl (by simp)
    · have hcleared : ({ fc with block_for_chunk_start := -1 } : FileClientChunked).Headed header := h.of_same rfl rfl h.patches
      exact hcleared.invalidateLastPatches.requestOfbChunk

theorem Headed.reconnect (h : fc.Headed header) (connected : Bool) : (fc.step (.reconnect connected)).Headed header := by
  by_cases hfails : fc.has_error ∨ ¬ connected
  · rw [FileClientChunked.step, Reconnect, if_pos hfails]
    exact h.of_same rfl rfl h.patches
  · rw [FileClientChunked.step, Reconnect, if_neg hfails]
    have hcleared : ({ fc with remote_filesize := -1, block_for_chunk_start := -1, state := .CS_ID_FIRST, patch_buf := [] } :
        FileClientChunked).Headed header := h.of_same rfl rfl h.patches
    exact hcleared.invalidateLastPatches

end Headed

end FileClientChunked

/-- The client with what it hashes. A digest context is the data it was given so far. -/
structure Receiver where
  session : Session
  chunk_start : Nat
  md5_hash : Bytes

namespace Receiver

variable (d : Digests) (file : Bytes) (r : Receiver)

def Hash_upto (new_chunk_start : Nat) : Receiver :=
  let block_start := new_chunk_start / c_checkpoint_dist * c_checkpoint_dist
  let r := if (block_start : Int) ≠ r.session.fc.block_for_chunk_start then
      { r with chunk_start := block_start, md5_hash := [] }
    else r
  { r with chunk_start := new_chunk_start, md5_hash := hashUpto file new_chunk_start r.chunk_start r.md5_hash }

/-- What the hash of a block is taken of, `none` if the block has to be loaded again. -/
def hashed (curr_pos : Nat) : Option Bytes :=
  if ¬ r.session.fc.hash_for_whole_block ∧ (curr_pos : Int) = r.session.fc.block_for_chunk_start then
    hashRest file (min (curr_pos + c_checkpoint_dist : Int) r.session.fc.remote_filesize).toNat r.chunk_start r.md5_hash
  else some r.md5_hash

def hashEqual (curr_pos : Nat) (hash : Bytes) : Bool :=
  (r.hashed file curr_pos).any fun data => decide (d.md5 data = hash)

/-- The handling of what is received. -/
def receive : Packet → Receiver
  | .filesize remote_filesize => { r with session := r.session.step (.filesize remote_filesize) }
  | .wholeBlock block_start whole_block_remaining =>
    ⟨r.session.step (.wholeBlock block_start whole_block_remaining), block_start, []⟩
  | .updateChunk new_chunk_start adler_remaining =>
    { r.Hash_upto file new_chunk_start with session := r.session.step (.updateChunk new_chunk_start adler_remaining) }
  | .data buf =>
    let rbytes := min buf.length r.session.fc.remaining
    ⟨r.session.step (.data buf), r.chunk_start + rbytes, r.md5_hash ++ buf.take rbytes⟩
  | .noChange block_start => { r with session := r.session.step (.noChange block_start) }
  | .blockHash block_start hash =>
    { r with session := r.session.step (.blockHash block_start (r.hashEqual d file block_start hash)) }

/-- `GetFile` returns. -/
def ended : Receiver :=
  { r with session := { r.session with fc := { r.session.fc with getfile_done := true } } }

end Receiver

/-- A part of a file. -/
def PartOf (remote : Bytes) (w : Record) : Prop :=
  w.off < remote.length ∧ w.stop ≤ remote.length ∧ w.data = slice remote w.off w.data.length

/-- Between two positions all bytes were received or are those of the old file. -/
def Same (file remote : Bytes) (calls : List Record) (start stop : Nat) : Prop :=
  ∀ p, start ≤ p → p < stop → (∃ w ∈ calls, w.off ≤ p ∧ p < w.stop) ∨ file[p]? = remote[p]?

section Hashing

variable {file remote md5_hash : Bytes} {calls : List Record} {start pos : Nat}

theorem hashUpto_spec (file : Bytes) {new_chunk_start chunk_start : Nat} (h : chunk_start ≤ new_chunk_start) (md5_hash : Bytes) :
    hashUpto file new_chunk_start chunk_start md5_hash = md5_hash ++ slice file chunk_start (new_chunk_start - chunk_start) ∨
      (hashUpto file new_chunk_start chunk_start md5_hash).length < md5_hash.length + (new_chunk_start - chunk_start) := by
  have hbuffer : 0 < BUFFERSIZE := by decide
  induction hm : new_chunk_start - chunk_start using Nat.strong_induction_on generalizing chunk_start md5_hash with
  | _ m ih =>
    rw [hashUpto]
    split
    · next hlt =>
      dsimp only
      split
      · exact Or.inr (by omega)
      · next hread =>
        generalize htoread : min BUFFERSIZE (new_chunk_start - chunk_start) = toread at hread ⊢
        have hlength : (slice file chunk_start toread).length = toread := by
          rw [length_slice] at hread ⊢
          omega
        have hrest : toread + (new_chunk_start - (chunk_start + toread)) = m := by omega
        obtain hall | hshort := @ih (new_chunk_start - (chunk_start + toread)) (by omega) (chunk_start + toread) (by omega)
          (md5_hash ++ slice file chunk_start toread) rfl
        · left
          rw [hall, List.append_assoc, ← slice_add, hrest]
        · right
          rw [List.length_append, hlength] at hshort
          omega
    · left
      have hzero : m = 0 := by omega
      rw [hzero, slice, List.take_zero, List.append_nil]

theorem hashRest_spec {dest_pos chunk_start : Nat} (h : chunk_start ≤ dest_pos) {data : Bytes}
    (hdata : hashRest file dest_pos chunk_start md5_hash = some data) :
    data = md5_hash ++ slice file chunk_start (dest_pos - chunk_start) := by
  induction hm : dest_pos - chunk_start using Nat.strong_induction_on generalizing chunk_start md5_hash with
  | _ m ih =>
    rw [hashRest] at hdata
    split at hdata
    · next hlt =>
      dsimp only at hdata
      split at hdata
      · cases hdata
      · next hsome =>
        have hpos := List.length_pos_of_ne_nil hsome
        have hlength := length_slice file chunk_start (min BUFFERSIZE (dest_pos - chunk_start))
        have hpiece : slice file chunk_start (min BUFFERSIZE (dest_pos - chunk_start)) = slice file chunk_start
            (slice file chunk_start (min BUFFERSIZE (dest_pos - chunk_start))).length := by
          rw [hlength, slice_min]
        generalize (slice file chunk_start (min BUFFERSIZE (dest_pos - chunk_start))).length = n at hpos hlength hpiece hdata
        rw [hpiece] at hdata
        have hrest : n + (dest_pos - (chunk_start + n)) = m := by omega
        rw [ih _ (by omega) (by omega) hdata rfl, List.append_assoc, ← slice_add, hrest]
    · cases hdata
      have hzero : m = 0 := by omega
      rw [hzero, slice, List.take_zero, List.append_nil]

/-- If what is hashed is the remote file up to a position, it tells where the old file
is the same. -/
structure Hashing (file remote : Bytes) (calls : List Record) (start pos : Nat) (md5_hash : Bytes) : Prop where
  start_le : start ≤ pos
  length : md5_hash.length ≤ pos - start
  same : md5_hash = slice remote start (pos - start) → Same file remote calls start pos

theorem Hashing.skip (h : Hashing file remote calls start pos md5_hash) {next : Nat} (hnext : pos ≤ next)
    (hend : next ≤ remote.length) {md5_hash' : Bytes} (hhash : md5_hash' = md5_hash ++ slice file pos (next - pos) ∨
      md5_hash'.length < md5_hash.length + (next - pos)) : Hashing file remote calls start next md5_hash' := by
  obtain ⟨hle, hlength, hsame⟩ := h
  have hslice := length_slice file pos (next - pos)
  refine ⟨Nat.le_trans hle hnext, ?_, ?_⟩
  · obtain rfl | hshort := hhash
    · rw [List.length_append, hslice]
      omega
    · omega
  · intro hremote
    have hall := congrArg List.length hremote
    rw [length_slice] at hall
    obtain rfl | hshort := hhash
    · have hsplit : next - start = (pos - start) + (next - pos) := by omega
      rw [List.length_append, hslice] at hall
      rw [hsplit, slice_add, Nat.add_sub_cancel' hle] at hremote
      obtain ⟨hbefore, hold⟩ := List.append_inj hremote (by rw [length_slice]; omega)
      intro p hp hlt
      by_cases hfirst : p < pos
      · exact hsame hbefore p hp hfirst
      · right
        have hbyte := congrArg (fun bytes => bytes[p - pos]?) hold
        simp only [getElem?_slice] at hbyte
        rw [if_pos (by omega), if_pos (by omega), Nat.add_sub_cancel' (Nat.le_of_not_lt hfirst)] at hbyte
        exact hbyte
    · omega

theorem Hashing.push (h : Hashing file remote calls start pos md5_hash) {buf : Bytes} (hbuf : buf = slice remote pos buf.length) :
    Hashing file remote (calls ++ [⟨pos, buf⟩]) start (pos + buf.length) (md5_hash ++ buf) := by
  obtain ⟨hle, hlength, hsame⟩ := h
  refine ⟨Nat.le_add_right_of_le hle, ?_, ?_⟩
  · rw [List.length_append]
    omega
  · intro hremote
    have hsplit : pos + buf.length - start = (pos - start) + buf.length := by omega
    rw [hsplit, slice_add, Nat.add_sub_cancel' hle] at hremote
    have hbefore := (List.append_inj' hremote (congrArg List.length hbuf)).1
    intro p hp hlt
    by_cases hfirst : p < pos
    · obtain ⟨w, hw, hin⟩ | hold := hsame hbefore p hp hfirst
      · exact Or.inl ⟨w, List.mem_append_left _ hw, hin⟩
      · exact Or.inr hold
    · exact Or.inl ⟨_, List.mem_append_right _ (List.mem_singleton_self _), Nat.le_of_not_lt hfirst, hlt⟩

end Hashing

def blockEnd (remote : Bytes) (start : Nat) : Nat :=
  start + (block remote start).length

theorem blockEnd_eq {remote : Bytes} {start : Nat} (hstart : start < remote.length) :
    blockEnd remote start = min (start + c_checkpoint_dist) remote.length := by
  rw [blockEnd, block, length_slice]
  omega

/-- What is left of a block is a part of the file. -/
theorem slice_of_block {remote read buf : Bytes} {start pos n : Nat} (hblock : block remote start = read ++ buf)
    (hread : read.length = pos - start) (hle : start ≤ pos) : buf.take n = slice remote pos (buf.take n).length := by
  have hdrop : buf = slice remote pos (c_checkpoint_dist - (pos - start)) := by
    have hbuf := congrArg (List.drop (pos - start)) hblock
    rw [block, drop_slice, Nat.add_sub_cancel' hle, List.drop_left' hread] at hbuf
    exact hbuf.symm
  have htake : buf.take n = slice remote pos (min n (c_checkpoint_dist - (pos - start))) := by
    rw [← take_slice, ← hdrop]
  have hlength := congrArg List.length htake
  rw [length_slice] at hlength
  rw [hlength, slice_min]
  exact htake

namespace FileClientChunked

/-- What a block is hashed with does not depend on the patches. -/
structure SameHash (fc fc' : FileClientChunked) : Prop where
  block : fc'.block_for_chunk_start = fc.block_for_chunk_start
  whole : fc'.hash_for_whole_block = fc.hash_for_whole_block
  size : fc'.remote_filesize = fc.remote_filesize
  done : fc'.getfile_done = fc.getfile_done

theorem writePatch_hash (fc : FileClientChunked) (pos : Nat) (buf : Bytes) (last : Bool) : SameHash fc (fc.writePatch pos buf last) := by
  unfold writePatch
  dsimp only
  split
  · split <;> exact ⟨rfl, rfl, rfl, rfl⟩
  · split <;> split <;> exact ⟨rfl, rfl, rfl, rfl⟩

section Fields

variable (fc : FileClientChunked)

theorem filesize_fields (n : Nat) : (fc.step (.filesize n)).state = fc.state ∧
    (fc.step (.filesize n)).block_for_chunk_start = fc.block_for_chunk_start ∧ (fc.step (.filesize n)).remote_filesize = n ∧
    (fc.step (.filesize n)).getfile_done = fc.getfile_done := by
  rw [FileClientChunked.step, writePatchSize]
  dsimp only
  split <;> exact ⟨rfl, rfl, rfl, rfl⟩

theorem noChange_fields (block_start : Nat) : (fc.step (.noChange block_start)).state = fc.state ∧
    (fc.step (.noChange block_start)).block_for_chunk_start = fc.block_for_chunk_start ∧
    (fc.step (.noChange block_start)).remote_filesize = fc.remote_filesize ∧
    (fc.step (.noChange block_start)).getfile_done = fc.getfile_done := by
  rw [FileClientChunked.step, Hash_nochange]
  split <;> exact ⟨rfl, rfl, rfl, rfl⟩

/-- A chunk of the block that has begun, or of a new one. -/
theorem updateChunk_fields {new_chunk_start start : Nat} (hstart : new_chunk_start / c_checkpoint_dist * c_checkpoint_dist = start)
    (adler_remaining : Nat) (hchunks : fc.block_for_chunk_start = start → fc.hash_for_whole_block = false) :
    (fc.step (.updateChunk new_chunk_start adler_remaining)).block_for_chunk_start = start ∧
      (fc.step (.updateChunk new_chunk_start adler_remaining)).hash_for_whole_block = false := by
  rw [FileClientChunked.step, Hash_upto, hstart]
  dsimp only
  split
  · exact ⟨rfl, rfl⟩
  · next hsame =>
    have hblock : fc.block_for_chunk_start = start := (not_not.mp hsame).symm
    exact ⟨hblock, hchunks hblock⟩

theorem updateChunk_size (new_chunk_start adler_remaining : Nat) :
    (fc.step (.updateChunk new_chunk_start adler_remaining)).remote_filesize = fc.remote_filesize ∧
      (fc.step (.updateChunk new_chunk_start adler_remaining)).getfile_done = fc.getfile_done := by
  rw [FileClientChunked.step, Hash_upto]
  dsimp only
  split <;> exact ⟨rfl, rfl⟩

theorem State_Block_fields {buf : Bytes} (hstate : fc.state = .CS_BLOCK) (hfits : buf.length ≤ fc.whole_block_remaining) :
    (fc.step (.data buf)).file_pos = fc.file_pos + buf.length ∧
      (fc.step (.data buf)).whole_block_remaining = fc.whole_block_remaining - buf.length ∧
      (fc.step (.data buf)).block_for_chunk_start = fc.block_for_chunk_start ∧
      (fc.step (.data buf)).remote_filesize = fc.remote_filesize ∧ (fc.step (.data buf)).getfile_done = fc.getfile_done ∧
      (fc.whole_block_remaining = buf.length → (fc.step (.data buf)).state = .CS_ID_FIRST ∧
        (fc.step (.data buf)).hash_for_whole_block = true) ∧
      (fc.whole_block_remaining ≠ buf.length → (fc.step (.data buf)).state = .CS_BLOCK) := by
  have hpart := writePatch_part { fc with whole_block_remaining := fc.whole_block_remaining - buf.length } fc.file_pos buf
    (decide (fc.whole_block_remaining - buf.length = 0))
  have hhash := writePatch_hash { fc with whole_block_remaining := fc.whole_block_remaining - buf.length } fc.file_pos buf
    (decide (fc.whole_block_remaining - buf.length = 0))
  rw [FileClientChunked.step, if_pos hstate]
  unfold State_Block
  simp only [Nat.min_eq_left hfits, List.take_length]
  generalize ({ fc with whole_block_remaining := fc.whole_block_remaining - buf.length } : FileClientChunked).writePatch
    fc.file_pos buf (decide (fc.whole_block_remaining - buf.length = 0)) = written at hpart hhash ⊢
  have hleft : written.whole_block_remaining = fc.whole_block_remaining - buf.length := hpart.whole_block_remaining
  have hpos : written.file_pos + buf.length = fc.file_pos + buf.length := congrArg (· + buf.length) hpart.file_pos
  split
  · next hlast =>
    exact ⟨hpos, hleft, hhash.block, hhash.size, hhash.done, fun _ => ⟨rfl, rfl⟩, fun hmore => absurd hlast (by omega)⟩
  · next hmore =>
    exact ⟨hpos, hleft, hhash.block, hhash.size, hhash.done, fun hlast => absurd hmore (by omega),
      fun _ => hpart.state.trans hstate⟩

theorem State_Chunk_fields {buf : Bytes} (hstate : fc.state = .CS_CHUNK) (hne : buf ≠ []) (hfits : buf.length ≤ fc.adler_remaining) :
    (fc.step (.data buf)).file_pos = fc.file_pos + buf.length ∧
      (fc.step (.data buf)).adler_remaining = fc.adler_remaining - buf.length ∧
      SameHash fc (fc.step (.data buf)) ∧
      (fc.adler_remaining = buf.length → (fc.step (.data buf)).state = .CS_ID_FIRST) ∧
      (fc.adler_remaining ≠ buf.length → (fc.step (.data buf)).state = .CS_CHUNK) := by
  have hpart := writePatch_part { fc with adler_remaining := fc.adler_remaining - buf.length } fc.file_pos buf
    (decide (fc.adler_remaining - buf.length = 0))
  have hhash := writePatch_hash { fc with adler_remaining := fc.adler_remaining - buf.length } fc.file_pos buf
    (decide (fc.adler_remaining - buf.length = 0))
  have hblock : fc.state ≠ .CS_BLOCK := by
    rw [hstate]
    decide
  rw [FileClientChunked.step, if_neg hblock]
  unfold State_Chunk
  simp only [Nat.min_eq_left hfits, List.take_length, if_pos (List.length_pos_of_ne_nil hne)]
  generalize ({ fc with adler_remaining := fc.adler_remaining - buf.length } : FileClientChunked).writePatch
    fc.file_pos buf (decide (fc.adler_remaining - buf.length = 0)) = written at hpart hhash ⊢
  have hleft : written.adler_remaining = fc.adler_remaining - buf.length := hpart.adler_remaining
  have hpos : written.file_pos + buf.length = fc.file_pos + buf.length := congrArg (· + buf.length) hpart.file_pos
  split
  · next hlast =>
    exact ⟨hpos, hleft, ⟨hhash.block, hhash.whole, hhash.size, hhash.done⟩, fun _ => rfl,
      fun hmore => absurd hlast (by omega)⟩
  · next hmore =>
    exact ⟨hpos, hleft, ⟨hhash.block, hhash.whole, hhash.size, hhash.done⟩, fun hlast => absurd hmore (by omega),
      fun _ => hpart.state.trans hstate⟩

/-- A block with the right hash. -/
theorem blockHash_fields (block_start : Nat) : (fc.step (.blockHash block_start true)).state = fc.state ∧
    (fc.step (.blockHash block_start true)).block_for_chunk_start =
      (if fc.hash_for_whole_block then fc.block_for_chunk_start else -1) ∧
    (fc.step (.blockHash block_start true)).remote_filesize = fc.remote_filesize ∧
    (fc.step (.blockHash block_start true)).getfile_done = fc.getfile_done := by
  rw [FileClientChunked.step, Hash_finalize]
  exact ⟨rfl, rfl, rfl, rfl⟩

theorem foldl_invalidatePatch_hash (patches : List Nat) : SameHash fc (patches.foldl invalidatePatch fc) := by
  induction patches generalizing fc with
  | nil => exact ⟨rfl, rfl, rfl, rfl⟩
  | cons p patches ih =>
    obtain ⟨hblock, hwhole, hsize, hdone⟩ := ih (fc.invalidatePatch p)
    exact ⟨hblock, hwhole, hsize, hdone⟩

theorem foldl_invalidatePatch_state (patches : List Nat) : (patches.foldl invalidatePatch fc).state = fc.state := by
  induction patches generalizing fc with
  | nil => rfl
  | cons p patches ih => exact ih (fc.invalidatePatch p)

theorem invalidateLastPatches_hash : SameHash fc fc.invalidateLastPatches := by
  obtain ⟨hblock, hwhole, hsize, hdone⟩ := foldl_invalidatePatch_hash { fc with curr_output_fsize :=
    if fc.last_chunk_patches ≠ [] then fc.last_patch_output_fsize else fc.curr_output_fsize } fc.last_chunk_patches
  exact ⟨hblock, hwhole, hsize, hdone⟩

theorem requestOfbChunk_fields : fc.requestOfbChunk.state = .CS_ID_FIRST ∧
    fc.requestOfbChunk.remote_filesize = fc.remote_filesize ∧ fc.requestOfbChunk.getfile_done = fc.getfile_done :=
  have hhash := invalidateLastPatches_hash { fc with state := .CS_ID_FIRST }
  ⟨foldl_invalidatePatch_state _ _, hhash.size, hhash.done⟩

theorem wrongHash_fields (block_start : Nat) (hchunks : fc.hash_for_whole_block = false) :
    (fc.step (.blockHash block_start false)).state = .CS_ID_FIRST ∧
    (fc.step (.blockHash block_start false)).remote_filesize = fc.remote_filesize ∧
    (fc.step (.blockHash block_start false)).getfile_done = fc.getfile_done := by
  have hstep : fc.step (.blockHash block_start false) =
      FileClientChunked.requestOfbChunk { fc with block_for_chunk_start := -1 }.invalidateLastPatches := by
    simp [FileClientChunked.step, Hash_finalize, hchunks]
  obtain ⟨hstate, hsize, hdone⟩ := requestOfbChunk_fields { fc with block_for_chunk_start := -1 }.invalidateLastPatches
  have hhash := invalidateLastPatches_hash { fc with block_for_chunk_start := -1 }
  rw [hstep]
  exact ⟨hstate, hsize.trans hhash.size, hdone.trans hhash.done⟩

theorem reconnect_fields (connected : Bool) (hdone : (fc.step (.reconnect connected)).getfile_done = false) :
    (fc.step (.reconnect connected)).state = .CS_ID_FIRST ∧ (fc.step (.reconnect connected)).block_for_chunk_start = -1 ∧
      (fc.step (.reconnect connected)).remote_filesize = -1 := by
  by_cases hfails : fc.has_error ∨ ¬ connected
  · rw [FileClientChunked.step, Reconnect, if_pos hfails] at hdone
    cases hdone
  · rw [FileClientChunked.step, Reconnect, if_neg hfails]
    have hhash := invalidateLastPatches_hash { fc with
      remote_filesize := -1, block_for_chunk_start := -1, state := .CS_ID_FIRST, patch_buf := [] }
    exact ⟨foldl_invalidatePatch_state _ _, hhash.block, hhash.size⟩

/-- A new connection before the file size has come. -/
theorem reconnect_unsized (connected : Bool) (hpos : fc.patchfile_pos = 0) (hnone : fc.last_chunk_patches = []) :
    (fc.step (.reconnect connected)).patchfile_pos = 0 ∧ (fc.step (.reconnect connected)).last_chunk_patches = [] := by
  by_cases hfails : fc.has_error ∨ ¬ connected
  · rw [FileClientChunked.step, Reconnect, if_pos hfails]
    exact ⟨hpos, hnone⟩
  · rw [FileClientChunked.step, Reconnect, if_neg hfails]
    simp [FileClientChunked.invalidateLastPatches, hpos, hnone]

end Fields

end FileClientChunked

namespace Session

variable {s : Session}

theorem stale_step (h : s.stale = false) {e : Event} (he : ∀ n, e ≠ .GetFilePatch n) : (s.step e).stale = false := by
  cases e with
  | GetFilePatch n => exact absurd rfl (he n)
  | blockHash block_start equal => cases equal <;> simp [step, after, h]
  | _ => simp [step, after, h]

theorem forgotten_of_stale (h : s.stale = false) (e : Event) : s.Forgotten e := by
  cases e with
  | blockHash block_start equal =>
    cases equal with
    | true => trivial
    | false => exact h
  | reconnect connected => exact h
  | requestOfbChunk => exact h
  | _ => trivial

end Session

end urbackup.chunkpatch
