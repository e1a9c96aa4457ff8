import UrBackup.ChunkPatch.Delivers
import UrBackup.ChunkPatch.FileClientChunked
import UrBackup.ChunkPatch.PatchedFile

namespace urbackup.chunkpatch

open stringtools filedata chunkhash

/-- Where the records lie, the first one at a position. -/
def positions : Nat → List Record → List Nat
  | _, [] => []
  | pos, r :: rs => pos :: positions (pos + 12 + r.data.length) rs

def Entry.skip (r : Record) : Entry :=
  .skipped r.data

namespace FileClientChunked

/-- No write gives up. -/
def Works (fc : FileClientChunked) : Prop :=
  ∀ n ∈ fc.disk, n = none

/-- The patch file has a header, entries and behind them the records whose positions are
remembered, after those of an earlier patch file. -/
structure Log (fc : FileClientChunked) (stale : List Nat) (header : Bytes) (old : List Entry) (new : List Record) : Prop where
  content : fc.patchfile.content = header ++ encode old ++ encode (new.map .patch)
  pos : fc.patchfile.pos = fc.patchfile_pos
  filled : fc.patchfile_pos = fc.patchfile.content.length
  remembered : fc.last_chunk_patches = stale ++ positions (header ++ encode old).length new

/-- The buffer as a record, if there is something in it. -/
def buffered (fc : FileClientChunked) : List Record :=
  if fc.patch_buf = [] then [] else [⟨fc.patch_buf_start, fc.patch_buf⟩]

/-- What the writing of patches leaves alone. -/
structure SamePart (fc fc' : FileClientChunked) : Prop where
  state : fc'.state = fc.state
  file_pos : fc'.file_pos = fc.file_pos
  whole_block_remaining : fc'.whole_block_remaining = fc.whole_block_remaining
  adler_remaining : fc'.adler_remaining = fc.adler_remaining
  getfile_done : fc'.getfile_done = fc.getfile_done

theorem SamePart.refl (fc : FileClientChunked) : SamePart fc fc :=
  ⟨rfl, rfl, rfl, rfl, rfl⟩

theorem SamePart.trans {fc fc' fc'' : FileClientChunked} (h : SamePart fc fc') (h' : SamePart fc' fc'') : SamePart fc fc'' :=
  ⟨h'.state.trans h.state, h'.file_pos.trans h.file_pos, h'.whole_block_remaining.trans h.whole_block_remaining,
    h'.adler_remaining.trans h.adler_remaining, h'.getfile_done.trans h.getfile_done⟩

/-- The patches, written or in the buffer, are the same. -/
structure SamePatches (fc fc' : FileClientChunked) : Prop where
  patchfile : fc'.patchfile = fc.patchfile
  patchfile_pos : fc'.patchfile_pos = fc.patchfile_pos
  last_chunk_patches : fc'.last_chunk_patches = fc.last_chunk_patches
  patch_buf : fc'.patch_buf = fc.patch_buf
  patch_buf_start : fc'.patch_buf_start = fc.patch_buf_start

section SamePatches

variable {fc fc' : FileClientChunked} (h : SamePatches fc fc')

include h

theorem SamePatches.log {stale : List Nat} {header : Bytes} {old : List Entry} {new : List Record}
    (hlog : fc.Log stale header old new) : fc'.Log stale header old new := by
  refine ⟨?_, ?_, ?_, ?_⟩
  · rw [h.patchfile]
    exact hlog.content
  · rw [h.patchfile, h.patchfile_pos]
    exact hlog.pos
  · rw [h.patchfile, h.patchfile_pos]
    exact hlog.filled
  · rw [h.last_chunk_patches]
    exact hlog.remembered

theorem SamePatches.buffered : fc'.buffered = fc.buffered := by
  rw [FileClientChunked.buffered, FileClientChunked.buffered, h.patch_buf, h.patch_buf_start]

end SamePatches

end FileClientChunked

open FileClientChunked

section Positions

theorem positions_append (pos : Nat) (rs : List Record) (r : Record) :
    positions pos (rs ++ [r]) = positions pos rs ++ [pos + (encode (rs.map .patch)).length] := by
  induction rs generalizing pos with
  | nil => simp [positions, encode]
  | cons r' rs ih =>
    have hlength : (encode ((r' :: rs).map .patch)).length = 12 + r'.data.length + (encode (rs.map .patch)).length := by
      rw [List.map_cons, encode_cons, List.length_append, Entry.encode]
      simp only [List.length_append, length_leBytes, Entry.data]
    have hshift : pos + 12 + r'.data.length + (encode (rs.map .patch)).length =
        pos + (encode ((r' :: rs).map .patch)).length := by omega
    rw [List.cons_append, positions, positions, ih, hshift, List.cons_append]

theorem encode_append (entries entries' : List Entry) : encode (entries ++ entries') = encode entries ++ encode entries' :=
  List.flatMap_append

theorem length_encode_skip (rs : List Record) : (encode (rs.map Entry.skip)).length = (encode (rs.map .patch)).length := by
  induction rs with
  | nil => rfl
  | cons r rs ih =>
    rw [List.map_cons, List.map_cons, encode_cons, encode_cons, List.length_append, List.length_append, ih]
    simp [Entry.encode, Entry.skip, Entry.data]

theorem records_skip (rs : List Record) : records (rs.map Entry.skip) = [] := by
  simp [records, Entry.skip, Entry.record?]

theorem records_patch (rs : List Record) : records (rs.map .patch) = rs := by
  induction rs with
  | nil => rfl
  | cons r rs ih =>
    rw [List.map_cons, records_cons, ih]

end Positions

section Writes

variable {fc : FileClientChunked} {stale : List Nat} {header : Bytes} {old : List Entry} {new : List Record}

theorem writeFileRepeat_patchfile (hworks : fc.Works) (buf : Bytes) :
    (fc.writeFileRepeat buf).patchfile = fc.patchfile.Write buf := by
  have haccepted : fc.accepted buf.length = buf.length := by
    unfold FileClientChunked.accepted
    split
    · next n disk hdisk =>
      have := hworks (some n) (by simp [hdisk])
      cases this
    · rfl
  rw [writeFileRepeat, haccepted, List.take_length]

theorem Works.tail (hworks : fc.Works) {fc' : FileClientChunked} (h : fc'.disk = fc.disk.tail) : fc'.Works := by
  intro n hn
  rw [h] at hn
  exact hworks n (List.mem_of_mem_tail hn)

/-- A record is put behind the others and its position remembered. -/
theorem writePatchInt_log (hworks : fc.Works) (hlog : fc.Log stale header old new) (pos : Nat) (buf : Bytes) :
    (fc.writePatchInt pos buf).Works ∧ (fc.writePatchInt pos buf).Log stale header old (new ++ [⟨pos, buf⟩]) := by
  have hworks₁ : (fc.writeFileRepeat (leBytes 8 pos ++ leBytes 4 buf.length)).Works := Works.tail hworks rfl
  have hfile : (fc.writePatchInt pos buf).patchfile =
      (fc.patchfile.Write (leBytes 8 pos ++ leBytes 4 buf.length)).Write buf := by
    rw [← writeFileRepeat_patchfile hworks, ← writeFileRepeat_patchfile hworks₁]
    rfl
  have hend : fc.patchfile.pos = fc.patchfile.content.length := hlog.pos.trans hlog.filled
  have hheader := IFile.content_Write_end hend (leBytes 8 pos ++ leBytes 4 buf.length)
  have hcontent : (fc.writePatchInt pos buf).patchfile.content =
      fc.patchfile.content ++ (leBytes 8 pos ++ leBytes 4 buf.length ++ buf) := by
    have hnext : (fc.patchfile.Write (leBytes 8 pos ++ leBytes 4 buf.length)).pos =
        (fc.patchfile.Write (leBytes 8 pos ++ leBytes 4 buf.length)).content.length := by
      rw [hheader, List.length_append, ← hend]
      rfl
    rw [hfile, IFile.content_Write_end hnext, hheader, List.append_assoc]
  have hpos : (fc.writePatchInt pos buf).patchfile_pos = fc.patchfile_pos + 12 + buf.length := rfl
  have hlast : (fc.writePatchInt pos buf).last_chunk_patches = fc.last_chunk_patches ++ [fc.patchfile_pos] := rfl
  refine ⟨Works.tail hworks₁ rfl, ?_, ?_, ?_, ?_⟩
  · rw [hcontent, hlog.content, List.map_append, encode_append]
    simp [encode, Entry.encode, Entry.off, Entry.data]
  · rw [hfile, hpos]
    simp [IFile.Write, hlog.pos, Nat.add_assoc]
  · rw [hcontent, hpos, hlog.filled]
    simp only [List.length_append, length_leBytes]
    omega
  · rw [hlast, hlog.remembered, positions_append, List.append_assoc, hlog.filled, hlog.content,
      @List.length_append _ (header ++ encode old)]

theorem flush_log (hworks : fc.Works) (hlog : fc.Log stale header old new) :
    fc.flush.Works ∧ fc.flush.Log stale header old (new ++ [⟨fc.patch_buf_start, fc.patch_buf⟩]) := by
  obtain ⟨hworks', hlog'⟩ := writePatchInt_log hworks hlog fc.patch_buf_start fc.patch_buf
  exact ⟨hworks', hlog'.content, hlog'.pos, hlog'.filled, hlog'.remembered⟩

theorem writePatch_part (fc : FileClientChunked) (pos : Nat) (buf : Bytes) (last : Bool) : SamePart fc (fc.writePatch pos buf last) := by
  unfold writePatch
  simp only
  split
  · split <;> exact ⟨rfl, rfl, rfl, rfl, rfl⟩
  · have hflush : SamePart fc (if fc.patch_buf ≠ [] then fc.flush else fc) := by
      split <;> exact ⟨rfl, rfl, rfl, rfl, rfl⟩
    split <;> exact hflush.trans ⟨rfl, rfl, rfl, rfl, rfl⟩

end Writes

section WritePatch

variable {fc : FileClientChunked} {stale : List Nat} {header : Bytes} {old : List Entry} {new calls : List Record}

/-- What a call of `writePatch` comes to: it is in the records or in the buffer. -/
structure Patched (fc' : FileClientChunked) (stale : List Nat) (header : Bytes) (old : List Entry) (calls new : List Record) :
    Prop where
  works : fc'.Works
  log : fc'.Log stale header old new
  merges : Merges calls (new ++ fc'.buffered)
  room : fc'.patch_buf.length < c_chunk_size
  small : ∀ r ∈ new, r.data.length < 2 ^ 32

/-- The call goes to the buffer, which goes on with it. -/
theorem merges_buffer (hmerges : Merges calls (new ++ fc.buffered)) {pos : Nat} (buf : Bytes)
    (hbehind : ∀ c ∈ calls, c.stop ≤ pos) (hnext : fc.patch_buf = [] ∨ pos = fc.patch_buf_start + fc.patch_buf.length) :
    Merges (calls ++ [⟨pos, buf⟩])
      (new ++ [⟨if fc.patch_buf = [] then pos else fc.patch_buf_start, fc.patch_buf ++ buf⟩]) := by
  by_cases hempty : fc.patch_buf = []
  · rw [buffered, if_pos hempty, List.append_nil] at hmerges
    rw [if_pos hempty, hempty, List.nil_append]
    exact hmerges.push hbehind
  · rw [buffered, if_neg hempty] at hmerges
    rw [if_neg hempty]
    exact hmerges.extend (hnext.resolve_left hempty)

theorem small_push (hsmall : ∀ r ∈ new, r.data.length < 2 ^ 32) {w : Record} (hw : w.data.length < 2 ^ 32) :
    ∀ r ∈ new ++ [w], r.data.length < 2 ^ 32 := by
  intro r hr
  obtain hr | hr := List.mem_append.mp hr
  · exact hsmall r hr
  · rw [List.mem_singleton.mp hr]
    exact hw

section Flushed

variable (hworks : fc.Works) (hlog : fc.Log stale header old new) (hmerges : Merges calls (new ++ fc.buffered))
  (hroom : fc.patch_buf.length < c_chunk_size) (hsmall : ∀ r ∈ new, r.data.length < 2 ^ 32)

include hworks hlog hmerges hroom hsmall

/-- What was in the buffer is behind the records. -/
theorem flushed :
    ∃ new', Patched (if fc.patch_buf ≠ [] then fc.flush else fc) stale header old calls new' ∧
      (if fc.patch_buf ≠ [] then fc.flush else fc).patch_buf = [] := by
  by_cases hempty : fc.patch_buf = []
  · rw [if_neg (not_not_intro hempty)]
    exact ⟨new, ⟨hworks, hlog, hmerges, hroom, hsmall⟩, hempty⟩
  · rw [if_pos hempty]
    rw [buffered, if_neg hempty] at hmerges
    obtain ⟨hworks', hlog'⟩ := flush_log hworks hlog
    have hlength : fc.patch_buf.length < 2 ^ 32 := Nat.lt_trans hroom (by decide)
    refine ⟨_, ⟨hworks', hlog', ?_, Nat.zero_lt_succ _, small_push hsmall hlength⟩, rfl⟩
    rw [buffered, if_pos (show fc.flush.patch_buf = [] from rfl), List.append_nil]
    exact hmerges

theorem writePatch_log {pos : Nat} {buf : Bytes}
    (hbehind : ∀ c ∈ calls, c.stop ≤ pos) (hbuf : buf.length < 2 ^ 32) (last : Bool) :
    ∃ new', Patched (fc.writePatch pos buf last) stale header old (calls ++ [⟨pos, buf⟩]) new' ∧
      (last = true → (fc.writePatch pos buf last).patch_buf = []) := by
  unfold writePatch
  split
  · next hfits =>
    have hmerges' := merges_buffer hmerges buf hbehind hfits.2
    generalize hfc : ({ fc with
      patch_buf_start := if fc.patch_buf = [] then pos else fc.patch_buf_start
      patch_buf := fc.patch_buf ++ buf } : FileClientChunked) = fc'
    have hworks' : fc'.Works := by
      rw [← hfc]
      exact hworks
    have hlog' : fc'.Log stale header old new := by
      rw [← hfc]
      exact ⟨hlog.content, hlog.pos, hlog.filled, hlog.remembered⟩
    have hstart : fc'.patch_buf_start = if fc.patch_buf = [] then pos else fc.patch_buf_start := by rw [← hfc]
    have hfilled : fc'.patch_buf = fc.patch_buf ++ buf := by rw [← hfc]
    have hlength : fc'.patch_buf.length = fc.patch_buf.length + buf.length := by rw [hfilled, List.length_append]
    have hle : fc'.patch_buf.length ≤ c_chunk_size := by omega
    rw [← hstart, ← hfilled] at hmerges'
    simp only
    split
    · obtain ⟨hworks'', hlog''⟩ := flush_log hworks' hlog'
      have hshort : fc'.patch_buf.length < 2 ^ 32 := Nat.lt_of_le_of_lt hle (by decide)
      refine ⟨_, ⟨hworks'', hlog'', ?_, Nat.zero_lt_succ _, small_push hsmall hshort⟩, fun _ => rfl⟩
      rw [buffered, if_pos (show fc'.flush.patch_buf = [] from rfl), List.append_nil]
      exact hmerges'
    · next hkeep =>
      push Not at hkeep
      have hne : fc'.patch_buf ≠ [] := by
        rw [← List.length_pos_iff]
        omega
      refine ⟨new, ⟨hworks', hlog', ?_, by omega, hsmall⟩, fun hlast => absurd hlast hkeep.1⟩
      rw [buffered, if_neg hne]
      exact hmerges'
  · obtain ⟨new₁, hflushed, hempty⟩ := flushed hworks hlog hmerges hroom hsmall
    generalize (if fc.patch_buf ≠ [] then fc.flush else fc) = fc₁ at hflushed hempty
    have hmerges₁ := hflushed.merges
    rw [buffered, if_pos hempty, List.append_nil] at hmerges₁
    have hpush := hmerges₁.push (w := ⟨pos, buf⟩) hbehind
    simp only
    split
    · next hshort =>
      obtain ⟨hlast, hpos, hlt⟩ := hshort
      refine ⟨new₁, ⟨hflushed.works, ?_, ?_, hlt, hflushed.small⟩, fun h => absurd h hlast⟩
      · exact ⟨hflushed.log.content, hflushed.log.pos, hflushed.log.filled, hflushed.log.remembered⟩
      · rw [buffered, if_neg (List.length_pos_iff.mp hpos)]
        exact hpush
    · obtain ⟨hworks₂, hlog₂⟩ := writePatchInt_log hflushed.works hflushed.log pos buf
      have hstill : (fc₁.writePatchInt pos buf).patch_buf = [] := hempty
      refine ⟨_, ⟨hworks₂, hlog₂, ?_, ?_, small_push hflushed.small hbuf⟩, fun _ => hstill⟩
      · rw [buffered, if_pos hstill, List.append_nil]
        exact hpush
      · rw [hstill]
        exact Nat.zero_lt_succ _

end Flushed

end WritePatch

section Invalidate

variable {fc : FileClientChunked} {stale : List Nat} {header : Bytes} {old : List Entry} {new : List Record}

/-- Each record becomes one that is skipped, in its place. -/
theorem foldl_invalidatePatch (hworks : fc.Works) {front : Bytes} {rs : List Record}
    (hcontent : fc.patchfile.content = front ++ encode (rs.map .patch)) :
    ((positions front.length rs).foldl invalidatePatch fc).Works ∧
      ((positions front.length rs).foldl invalidatePatch fc).patchfile.content = front ++ encode (rs.map Entry.skip) ∧
      ((positions front.length rs).foldl invalidatePatch fc).patchfile_pos = fc.patchfile_pos ∧
      SamePart fc ((positions front.length rs).foldl invalidatePatch fc) := by
  induction rs generalizing fc front with
  | nil => exact ⟨hworks, hcontent, rfl, .refl fc⟩
  | cons r rs ih =>
    have hworks₁ : (fc.invalidatePatch front.length).Works := Works.tail hworks rfl
    have hworksSeek : ({ fc with patchfile := fc.patchfile.Seek front.length } : FileClientChunked).Works := hworks
    have hcontent₁ : (fc.invalidatePatch front.length).patchfile.content =
        (front ++ (Entry.skip r).encode) ++ encode (rs.map .patch) := by
      rw [invalidatePatch, writeFileRepeat_patchfile hworksSeek, IFile.Write, IFile.Seek]
      simp only
      rw [hcontent, overwrite_append, List.map_cons, encode_cons, Entry.encode, Entry.encode, List.append_assoc (leBytes 8 _),
        List.append_assoc (leBytes 8 _), List.drop_left' (by simp)]
      simp [Entry.skip, Entry.off, Entry.data]
    have hnext : front.length + 12 + r.data.length = (front ++ (Entry.skip r).encode).length := by
      rw [Entry.encode]
      simp only [List.length_append, length_leBytes, Entry.skip, Entry.data]
      omega
    have hpart₁ : SamePart fc (fc.invalidatePatch front.length) := ⟨rfl, rfl, rfl, rfl, rfl⟩
    obtain ⟨hworks', hcontent', hpos, hpart⟩ := ih hworks₁ hcontent₁
    rw [positions, hnext, List.foldl_cons]
    refine ⟨hworks', ?_, hpos, hpart₁.trans hpart⟩
    rw [hcontent', List.map_cons, encode_cons, List.append_assoc]

/-- The records that are remembered are skipped from now on. -/
theorem invalidateLastPatches_log (hworks : fc.Works) (hlog : fc.Log [] header old new) :
    fc.invalidateLastPatches.Works ∧ fc.invalidateLastPatches.Log [] header (old ++ new.map Entry.skip) [] ∧
      SamePart fc fc.invalidateLastPatches := by
  have hremembered : fc.last_chunk_patches = positions (header ++ encode old).length new := by
    rw [hlog.remembered, List.nil_append]
  unfold invalidateLastPatches
  simp only
  generalize hfc : ({ fc with
    curr_output_fsize := if fc.last_chunk_patches ≠ [] then fc.last_patch_output_fsize else fc.curr_output_fsize }
      : FileClientChunked) = fc₁
  have hworks₁ : fc₁.Works := by
    rw [← hfc]
    exact hworks
  have hcontent₁ : fc₁.patchfile.content = (header ++ encode old) ++ encode (new.map .patch) := by
    rw [← hfc]
    exact hlog.content
  have hpart₁ : SamePart fc fc₁ := by
    rw [← hfc]
    exact ⟨rfl, rfl, rfl, rfl, rfl⟩
  have hpos₁ : fc₁.patchfile_pos = fc.patchfile_pos := by rw [← hfc]
  rw [hremembered]
  obtain ⟨hworks', hcontent', hpos', hpart'⟩ := foldl_invalidatePatch hworks₁ hcontent₁
  refine ⟨hworks', ⟨?_, rfl, ?_, rfl⟩, hpart₁.trans (hpart'.trans ⟨rfl, rfl, rfl, rfl, rfl⟩)⟩
  · rw [encode_append]
    simpa [encode, IFile.Seek] using hcontent'
  · simp only [IFile.Seek]
    rw [hcontent', hpos', hpos₁, hlog.filled, hlog.content, @List.length_append _ _ (encode (new.map .patch)),
      @List.length_append _ _ (encode (new.map Entry.skip)), length_encode_skip]

/-- The file size at the front is written over. -/
theorem writePatchSize_log (hworks : fc.Works) (hlog : fc.Log stale header old new)
    (hheader : header.length = 8 ∨ header = [] ∧ old = [] ∧ new = []) (remote_fs : Nat) :
    ∃ header', header'.length = 8 ∧ (fc.writePatchSize remote_fs).Works ∧ (fc.writePatchSize remote_fs).Log stale header' old new ∧
      SamePart fc (fc.writePatchSize remote_fs) := by
  have hworksSeek : ({ fc with patchfile := fc.patchfile.Seek 0 } : FileClientChunked).Works := hworks
  have hfile : (({ fc with patchfile := fc.patchfile.Seek 0 } : FileClientChunked).writeFileRepeat (leBytes 8 remote_fs)).patchfile =
      (fc.patchfile.Seek 0).Write (leBytes 8 remote_fs) := writeFileRepeat_patchfile hworksSeek _
  have hworks' : (({ fc with patchfile := fc.patchfile.Seek 0 } : FileClientChunked).writeFileRepeat (leBytes 8 remote_fs)).Works :=
    Works.tail hworksSeek rfl
  have hpos : (({ fc with patchfile := fc.patchfile.Seek 0 } : FileClientChunked).writeFileRepeat (leBytes 8 remote_fs)).patchfile_pos =
      fc.patchfile_pos := rfl
  have hwritten := overwrite_append (0 : UInt8) [] (leBytes 8 remote_fs) fc.patchfile.content
  rw [List.nil_append, List.nil_append, length_leBytes, List.length_nil] at hwritten
  refine ⟨leBytes 8 remote_fs, by simp, ?_⟩
  unfold writePatchSize
  simp only [hpos]
  obtain hheader | ⟨rfl, rfl, rfl⟩ := hheader
  · have hlong : fc.patchfile_pos ≠ 0 := by
      rw [hlog.filled, hlog.content]
      simp only [List.length_append]
      omega
    have hcontent : (fc.patchfile.content).drop 8 = encode old ++ encode (new.map .patch) := by
      rw [hlog.content, List.append_assoc, List.drop_left' hheader]
    rw [hcontent] at hwritten
    rw [if_neg hlong]
    refine ⟨hworks', ⟨?_, rfl, ?_, ?_⟩, ⟨rfl, rfl, rfl, rfl, rfl⟩⟩
    · rw [hfile]
      simp only [IFile.Seek, IFile.Write, hwritten, List.append_assoc]
    · rw [hfile]
      simp only [IFile.Seek, IFile.Write, hwritten]
      rw [hlog.filled, hlog.content]
      simp only [List.length_append, length_leBytes, hheader]
      omega
    · have hlast := hlog.remembered
      rw [List.length_append, hheader] at hlast
      rw [List.length_append, length_leBytes]
      exact hlast
  · have hnil : fc.patchfile.content = [] := by
      rw [hlog.content]
      rfl
    rw [hnil, List.drop_nil, List.append_nil] at hwritten
    have hzero : fc.patchfile_pos = 0 := by
      rw [hlog.filled, hnil]
      rfl
    rw [if_pos hzero]
    refine ⟨hworks', ⟨?_, ?_, ?_, hlog.remembered⟩, ⟨rfl, rfl, rfl, rfl, rfl⟩⟩
    · rw [hfile]
      simp [IFile.Seek, IFile.Write, hnil, hwritten, encode]
    · rw [hfile]
      simp [IFile.Seek, IFile.Write]
    · rw [hfile]
      simp [IFile.Seek, IFile.Write, hnil, hwritten]

theorem buffer_writePatchSize (fc : FileClientChunked) (remote_fs : Nat) :
    (fc.writePatchSize remote_fs).patch_buf = fc.patch_buf ∧ (fc.writePatchSize remote_fs).patch_buf_start = fc.patch_buf_start := by
  unfold writePatchSize
  simp only
  split <;> exact ⟨rfl, rfl⟩

end Invalidate

end urbackup.chunkpatch

namespace urbackup.chunkpatch

open stringtools filedata chunkhash

/-- The call of `writePatch` for received data. -/
def FileClientChunked.call (fc : FileClientChunked) (buf : Bytes) : List Record :=
  if fc.state = .CS_BLOCK then [⟨fc.file_pos, buf.take (min buf.length fc.whole_block_remaining)⟩]
  else if 0 < min buf.length fc.adler_remaining then [⟨fc.file_pos, buf.take (min buf.length fc.adler_remaining)⟩]
  else []

/-- A `FileClientChunked`, with the calls of `writePatch` for the blocks of the file that
are finished and for the one that has begun, and with the patches that were read from the
patch file when it began. `stale` tells that positions in an earlier patch file are still
remembered. -/
structure Session where
  fc : FileClientChunked
  finished : List Record
  current : List Record
  before : List (SPatchHeader × Bytes)
  stale : Bool

/-- Behind the file size. -/
def FileClientChunked.patches (fc : FileClientChunked) : List (SPatchHeader × Bytes) :=
  readPatches (fc.patchfile.Seek 8)

namespace Session

def new (disk : List (Option Nat)) : Session :=
  ⟨.new disk, [], [], [], false⟩

/-- Stale positions are remembered until all positions are forgotten. -/
def after (s : Session) (fc : FileClientChunked) : Session :=
  { s with fc, stale := s.stale && !fc.last_chunk_patches.isEmpty }

@[simp] theorem after_fc (s : Session) (fc : FileClientChunked) : (s.after fc).fc = fc := rfl

@[simp] theorem after_finished (s : Session) (fc : FileClientChunked) : (s.after fc).finished = s.finished := rfl

@[simp] theorem after_current (s : Session) (fc : FileClientChunked) : (s.after fc).current = s.current := rfl

@[simp] theorem after_before (s : Session) (fc : FileClientChunked) : (s.after fc).before = s.before := rfl

/-- A block is finished by its hash, and begins anew where it is asked for again. -/
def step (s : Session) (e : Event) : Session :=
  let fc := s.fc.step e
  match e with
  | .GetFilePatch _ => ⟨fc, [], [], [], !fc.last_chunk_patches.isEmpty⟩
  | .data buf => { s.after fc with current := s.current ++ s.fc.call buf }
  | .blockHash _ true => { s.after fc with finished := s.finished ++ s.current, current := [], before := fc.patches }
  | .blockHash _ false | .reconnect _ | .requestOfbChunk => { s.after fc with current := [] }
  | _ => s.after fc

/-- A part of the file from `start` on may come next: it is not before what has come, and
its numbers fit. -/
def Next (s : Session) (start size : Nat) : Prop :=
  s.fc.state = .CS_ID_FIRST ∧ s.fc.patchfile_pos ≠ 0 ∧ (∀ c ∈ s.finished ++ s.current, c.stop ≤ start) ∧
    start + size < 2 ^ 63 ∧ size < 2 ^ 32

/-- What can come in: a file after the other, the parts of each in their order, and the
hash of each block that was sent before the next block. -/
def Sent (s : Session) : Event → Prop
  | .GetFilePatch _ => True
  | .wholeBlock block_start size => s.fc.getfile_done = false ∧ s.Next block_start size ∧ s.current = []
  | .updateChunk new_chunk_start size => s.fc.getfile_done = false ∧ s.Next new_chunk_start size ∧
      (s.current = [] ∨ s.fc.block_for_chunk_start = (new_chunk_start / c_checkpoint_dist * c_checkpoint_dist : Nat))
  | .data _ => s.fc.getfile_done = false ∧ s.fc.state ≠ .CS_ID_FIRST
  | .filesize _ | .noChange _ | .blockHash _ _ | .blockError _ _ => s.fc.getfile_done = false ∧ s.fc.state = .CS_ID_FIRST
  | .reconnect _ | .requestOfbChunk | .ofbFailed => s.fc.getfile_done = false

instance (s : Session) (start size : Nat) : Decidable (s.Next start size) :=
  inferInstanceAs (Decidable (_ ∧ _))

instance (s : Session) : (e : Event) → Decidable (s.Sent e)
  | .GetFilePatch _ => inferInstanceAs (Decidable True)
  | .wholeBlock _ _ | .updateChunk _ _ | .data _ | .filesize _ | .noChange _ | .blockHash _ _ | .blockError _ _ =>
    inferInstanceAs (Decidable (_ ∧ _))
  | .reconnect _ | .requestOfbChunk | .ofbFailed => inferInstanceAs (Decidable (_ = _))

/-- No patches are invalidated while positions in an earlier patch file are remembered. -/
def Forgotten (s : Session) : Event → Prop
  | .blockHash _ false | .reconnect _ | .requestOfbChunk => s.stale = false
  | _ => True

/-- Between the parts, all that was written is in sorted records that do not overlap and
patch a file as the calls do. -/
def Overlays (s : Session) : Prop :=
  s.fc.getfile_done = false → s.fc.state = .CS_ID_FIRST → ∃ rs : List Record,
    s.fc.patches = rs.map (fun r => (⟨r.off, r.data.length⟩, r.data)) ∧ (rs.Pairwise fun r r' => r.stop ≤ r'.off) ∧
      ∀ old p, patched old rs p = patched old (s.finished ++ s.current) p

/-- After an invalidation the patches from before the block are left. -/
def Restores (s : Session) (e : Event) : Prop :=
  match e with
  | .blockHash _ false | .reconnect _ | .requestOfbChunk => (s.step e).fc.getfile_done = false → (s.step e).fc.patches = s.before
  | _ => True

/-- Reached from a new object by steps of this kind. -/
inductive Reaches (P : Session → Event → Prop) : Session → Prop
  | new (disk : List (Option Nat)) (hdisk : ∀ n ∈ disk, n = none) : Reaches P (.new disk)
  | step {s : Session} {e : Event} (h : Reaches P s) (he : P s e) : Reaches P (s.step e)

end Session

end urbackup.chunkpatch
