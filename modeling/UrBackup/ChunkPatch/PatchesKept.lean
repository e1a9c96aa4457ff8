import UrBackup.ChunkPatch.PatchSession

namespace urbackup.chunkpatch

open stringtools filedata chunkhash FileClientChunked

/-- A record as it is read back. -/
def Record.read (r : Record) : SPatchHeader × Bytes :=
  (⟨r.off, r.data.length⟩, r.data)

section ReadBack

theorem readPatches_none {patch patchf : IFile} {header : SPatchHeader}
    (h : readNextValidPatch patch = (false, header, patchf)) : readPatches patch = [] := by
  rw [readPatches]
  split
  · rfl
  · next hnext =>
    rw [h] at hnext
    cases hnext

theorem readPatches_some {patch patchf : IFile} {header : SPatchHeader}
    (h : readNextValidPatch patch = (true, header, patchf)) :
    readPatches patch = (header, (patchf.Read header.patch_size).1) :: readPatches (patchf.Read header.patch_size).2 := by
  rw [readPatches]
  split
  · next hnext =>
    rw [h] at hnext
    cases hnext
  · next hnext =>
    rw [h] at hnext
    cases hnext
    rfl

/-- The records of a patch file are read back. -/
theorem readPatches_encode {content : Bytes} {pos : Nat} {todo : List Entry} (hdata : ∀ e ∈ todo, e.data.length < 2 ^ 32)
    (hoff : ∀ r ∈ records todo, r.off < 2 ^ 63) (h : content.drop pos = encode todo) :
    readPatches ⟨content, pos⟩ = (records todo).map Record.read := by
  induction hlen : todo.length using Nat.strongRecOn generalizing todo pos with
  | ind n ih =>
    obtain ⟨hnil, pos', hnone⟩ | ⟨skips, r, later, pos', rfl, hskips, hsome, hlater⟩ := readNextValidPatch_encode hdata hoff h
    · rw [readPatches_none hnone, hnil]
      rfl
    · have hread : ((⟨content, pos'⟩ : IFile).Read r.data.length) = (r.data, ⟨content, pos' + r.data.length⟩) := by
        have hslice : slice content pos' r.data.length = r.data := by
          rw [slice, hlater, List.take_left]
        rw [IFile.Read, hslice]
      have hrest : content.drop (pos' + r.data.length) = encode later := by
        rw [← List.drop_drop, hlater, List.drop_left]
      have hrecords : records (skips ++ .patch r :: later) = r :: records later := by
        rw [records_append, hskips, records_cons, List.nil_append]
      rw [hrecords] at hoff
      rw [readPatches_some hsome, hrecords, List.map_cons]
      simp only [hread]
      rw [ih later.length (by simp at hlen; omega) (fun e he => hdata e (by simp [he]))
        (fun r' hr' => hoff r' (List.mem_cons_of_mem _ hr')) hrest rfl]
      rfl

end ReadBack

/-- How much of the part that is being received is still to come. -/
def FileClientChunked.remaining (fc : FileClientChunked) : Nat :=
  if fc.state = .CS_BLOCK then fc.whole_block_remaining else fc.adler_remaining

namespace Session

/-- The patch file of a transfer that goes on. -/
structure Holds (s : Session) (stale : List Nat) (header : Bytes) (old : List Entry) (new : List Record) : Prop where
  log : s.fc.Log stale header old new
  sized : header.length = 8 ∨ header = [] ∧ old = [] ∧ new = []
  finished : Merges s.finished (records old)
  current : Merges s.current (new ++ s.fc.buffered)
  before : s.before = (records old).map Record.read
  ordered : ∀ w ∈ s.finished, ∀ w' ∈ s.current, w.stop ≤ w'.off
  small : ∀ e ∈ old, e.data.length < 2 ^ 32
  small_new : ∀ r ∈ new, r.data.length < 2 ^ 32
  fits : ∀ w ∈ s.finished ++ s.current, w.stop < 2 ^ 63
  room : s.fc.patch_buf.length < c_chunk_size
  idle : s.fc.state = .CS_ID_FIRST → s.fc.patch_buf = []
  part : s.fc.state ≠ .CS_ID_FIRST → header.length = 8 ∧ (∀ w ∈ s.finished ++ s.current, w.stop ≤ s.fc.file_pos) ∧
    s.fc.file_pos + s.fc.remaining < 2 ^ 63 ∧ s.fc.remaining < 2 ^ 32
  chunk : s.fc.state = .CS_CHUNK → 0 < s.fc.adler_remaining
  forgotten : s.stale = false → stale = []

/-- What holds in every state that is reached. -/
def Inv (s : Session) : Prop :=
  s.fc.Works ∧ (s.fc.getfile_done = false → ∃ stale header old new, s.Holds stale header old new)

variable {s : Session} {stale : List Nat} {header : Bytes} {old : List Entry} {new : List Record}

namespace Holds

/-- All records are read back. -/
theorem patches_eq (h : s.Holds stale header old new) (hidle : s.fc.patch_buf = []) :
    s.fc.patches = (records old ++ new).map Record.read := by
  have hcurrent := h.current
  rw [buffered, if_pos hidle, List.append_nil] at hcurrent
  have hmerges := h.finished.append hcurrent h.ordered
  have hrecords : records (old ++ new.map .patch) = records old ++ new := by rw [records_append, records_patch]
  rw [FileClientChunked.patches, IFile.Seek, h.log.content, ← hrecords]
  apply readPatches_encode
  · intro e he
    obtain he | he := List.mem_append.mp he
    · exact h.small e he
    · obtain ⟨r, hr, rfl⟩ := List.mem_map.mp he
      exact h.small_new r hr
  · intro r hr
    rw [hrecords] at hr
    obtain ⟨w, hw, hoff⟩ := hmerges.starts r hr
    have hstop := h.fits w hw
    rw [Record.stop] at hstop
    omega
  · rw [encode_append, List.append_assoc]
    obtain hheader | ⟨rfl, rfl, rfl⟩ := h.sized
    · exact List.drop_left' hheader
    · rfl

theorem patches_before (h : s.Holds stale header old new) (hidle : s.fc.patch_buf = []) (hnone : s.current = []) :
    s.fc.patches = s.before := by
  have hcurrent := h.current
  rw [hnone] at hcurrent
  obtain rfl := (List.append_eq_nil_iff.mp hcurrent.eq_nil).1
  rw [h.patches_eq hidle, h.before, List.append_nil]

theorem overlays (h : s.Holds stale header old new) : s.Overlays := by
  intro _ hstate
  have hidle := h.idle hstate
  have hcurrent := h.current
  rw [buffered, if_pos hidle, List.append_nil] at hcurrent
  have hmerges := h.finished.append hcurrent h.ordered
  exact ⟨_, h.patches_eq hidle, hmerges.sorted, patched_congr hmerges.cells_eq⟩

/-- While the flag is set something is remembered. -/
theorem forgotten_step (h : s.Holds stale header old new) {list : List Nat} {from_pos : Nat} {rs : List Record}
    (hlist : list = stale ++ positions from_pos rs) (hflag : (s.stale && !list.isEmpty) = false) : stale = [] := by
  obtain hflag | hflag := Bool.and_eq_false_iff.mp hflag
  · exact h.forgotten hflag
  · have hnil : list = [] := by simpa using hflag
    rw [hnil] at hlist
    exact (List.append_eq_nil_iff.mp hlist.symm).1

/-- A step that only changes what has nothing to do with the patches. -/
theorem same (h : s.Holds stale header old new) (fc : FileClientChunked) (hsame : SamePatches s.fc fc)
    (hidle : fc.state = .CS_ID_FIRST → s.fc.patch_buf = [])
    (hpart : fc.state ≠ .CS_ID_FIRST → header.length = 8 ∧ (∀ w ∈ s.finished ++ s.current, w.stop ≤ fc.file_pos) ∧
      fc.file_pos + fc.remaining < 2 ^ 63 ∧ fc.remaining < 2 ^ 32)
    (hchunk : fc.state = .CS_CHUNK → 0 < fc.adler_remaining) : (s.after fc).Holds stale header old new where
  log := hsame.log h.log
  sized := h.sized
  finished := h.finished
  current := by
    rw [after_fc, hsame.buffered]
    exact h.current
  before := h.before
  ordered := h.ordered
  small := h.small
  small_new := h.small_new
  fits := h.fits
  room := by
    rw [after_fc, hsame.patch_buf]
    exact h.room
  idle := fun hstate => hsame.patch_buf.trans (hidle hstate)
  part := hpart
  chunk := hchunk
  forgotten := h.forgotten_step (hsame.log h.log).remembered

/-- The records of the block that has begun are skipped from now on. -/
theorem invalidated (h : s.Holds [] header old new) {fc : FileClientChunked} (hworks : fc.Works)
    (hlog : fc.Log [] header old new) (hstate : fc.state = .CS_ID_FIRST) (flag : Bool) :
    fc.invalidateLastPatches.Works ∧
      (⟨fc.invalidateLastPatches, s.finished, [], s.before, flag⟩ : Session).Holds [] header (old ++ new.map Entry.skip) [] := by
  obtain ⟨hworks', hlog', hpart⟩ := invalidateLastPatches_log hworks hlog
  have hrecords : records (old ++ new.map Entry.skip) = records old := by
    rw [records_append, records_skip, List.append_nil]
  have hfirst := hpart.state.trans hstate
  refine ⟨hworks', ⟨hlog', ?_, ?_, Merges.nil, ?_, by simp, ?_, by simp, ?_, Nat.zero_lt_succ _, fun _ => rfl,
    fun hnot => absurd hfirst hnot, fun hchunk => ?_, fun _ => rfl⟩⟩
  · obtain hsized | ⟨rfl, rfl, rfl⟩ := h.sized
    · exact Or.inl hsized
    · exact Or.inr ⟨rfl, rfl, rfl⟩
  · rw [hrecords]
    exact h.finished
  · rw [hrecords]
    exact h.before
  · intro e he
    obtain he | he := List.mem_append.mp he
    · exact h.small e he
    · obtain ⟨r, hr, rfl⟩ := List.mem_map.mp he
      exact h.small_new r hr
  · intro w hw
    rw [List.append_nil] at hw
    exact h.fits w (List.mem_append_left _ hw)
  · rw [hfirst] at hchunk
    cases hchunk

end Holds

theorem GetFilePatch_inv (hworks : s.fc.Works) (predicted_filesize : Int) : (s.step (.GetFilePatch predicted_filesize)).Inv := by
  refine ⟨hworks, fun _ => ⟨s.fc.last_chunk_patches, [], [], [], ?_⟩⟩
  refine ⟨⟨rfl, rfl, rfl, (List.append_nil _).symm⟩, Or.inr ⟨rfl, rfl, rfl⟩, Merges.nil, Merges.nil, rfl, ?_, ?_, ?_, ?_,
    Nat.zero_lt_succ _, fun _ => rfl, fun hnot => absurd rfl hnot, fun hchunk => ?_, ?_⟩
  iterate 4
    intro w hw
    cases hw
  · cases hchunk
  · intro hflag
    simpa [step, FileClientChunked.step, GetFilePatch] using hflag

/-- A transfer that is over leaves nothing to show. -/
theorem inv_done (hworks : s.fc.Works) (hdone : s.fc.getfile_done = true) : s.Inv := by
  refine ⟨hworks, fun hnot => ?_⟩
  rw [hdone] at hnot
  cases hnot

theorem filesize_inv (hworks : s.fc.Works) (h : s.Holds stale header old new) (hstate : s.fc.state = .CS_ID_FIRST)
    (remote_filesize : Nat) : (s.step (.filesize remote_filesize)).Inv := by
  have hworks₁ : ({ s.fc with remote_filesize } : FileClientChunked).Works := hworks
  have hlog₁ : ({ s.fc with remote_filesize } : FileClientChunked).Log stale header old new :=
    ⟨h.log.content, h.log.pos, h.log.filled, h.log.remembered⟩
  obtain ⟨header', hlength, hworks', hlog', hpart⟩ := writePatchSize_log hworks₁ hlog₁ h.sized remote_filesize
  obtain ⟨hbuf, hstart⟩ := buffer_writePatchSize { s.fc with remote_filesize } remote_filesize
  have hstate' := hpart.state.trans hstate
  change (s.after (FileClientChunked.writePatchSize { s.fc with remote_filesize } remote_filesize)).Inv
  generalize FileClientChunked.writePatchSize { s.fc with remote_filesize } remote_filesize = fc
    at hworks' hlog' hbuf hstart hstate'
  refine ⟨hworks', fun _ => ⟨stale, header', old, new, ?_⟩⟩
  refine ⟨hlog', Or.inl hlength, h.finished, ?_, h.before, h.ordered, h.small, h.small_new, h.fits, ?_, ?_, ?_, ?_,
    h.forgotten_step hlog'.remembered⟩
  · rw [after_fc, buffered, hbuf, hstart]
    exact h.current
  · rw [after_fc, hbuf]
    exact h.room
  · intro _
    rw [after_fc, hbuf]
    exact h.idle hstate
  · exact fun hnot => absurd hstate' hnot
  · intro hchunk
    rw [after_fc, hstate'] at hchunk
    cases hchunk

/-- Behind the file size there is one. -/
theorem Holds.header_of_pos (h : s.Holds stale header old new) (hpos : s.fc.patchfile_pos ≠ 0) : header.length = 8 := by
  obtain hsized | ⟨rfl, rfl, rfl⟩ := h.sized
  · exact hsized
  · rw [h.log.filled, h.log.content] at hpos
    exact absurd rfl hpos

theorem wholeBlock_inv (hworks : s.fc.Works) (h : s.Holds stale header old new) {block_start size : Nat}
    (hnext : s.Next block_start size) : (s.step (.wholeBlock block_start size)).Inv := by
  obtain ⟨hstate, hpos, hbehind, hend, hsize⟩ := hnext
  refine ⟨hworks, fun _ => ⟨stale, header, old, new, ?_⟩⟩
  refine h.same _ ?_ ?_ ?_ ?_
  · exact ⟨rfl, rfl, rfl, rfl, rfl⟩
  · intro hnot
    cases hnot
  · exact fun _ => ⟨h.header_of_pos hpos, hbehind, hend, hsize⟩
  · intro hnot
    cases hnot

theorem noChange_inv (hworks : s.fc.Works) (h : s.Holds stale header old new) (hstate : s.fc.state = .CS_ID_FIRST)
    (block_start : Nat) : (s.step (.noChange block_start)).Inv := by
  change (s.after (s.fc.Hash_nochange block_start)).Inv
  unfold Hash_nochange
  split
  all_goals
    refine ⟨hworks, fun _ => ⟨stale, header, old, new, ?_⟩⟩
    exact h.same _ ⟨rfl, rfl, rfl, rfl, rfl⟩ h.idle (fun hnot => absurd hstate hnot) h.chunk

/-- A chunk of another block finds no records that could be forgotten too early. -/
theorem updateChunk_inv (hworks : s.fc.Works) (h : s.Holds stale header old new) {new_chunk_start size : Nat}
    (hnext : s.Next new_chunk_start size) (hblock : s.current = [] ∨
      s.fc.block_for_chunk_start = (new_chunk_start / c_checkpoint_dist * c_checkpoint_dist : Nat)) :
    (s.step (.updateChunk new_chunk_start size)).Inv := by
  obtain ⟨hstate, hpos, hbehind, hend, hsize⟩ := hnext
  change (s.after { s.fc.Hash_upto new_chunk_start with
    adler_remaining := size, state := if 0 < size then .CS_CHUNK else .CS_ID_FIRST }).Inv
  have hremaining : (if 0 < size then ChunkedState.CS_CHUNK else .CS_ID_FIRST) ≠ .CS_BLOCK := by
    split <;> simp
  have hchunk : (if 0 < size then ChunkedState.CS_CHUNK else .CS_ID_FIRST) = .CS_CHUNK → 0 < size := by
    split
    · exact fun _ => by assumption
    · simp
  have hidle := h.idle hstate
  unfold Hash_upto
  simp only
  split
  · next hother =>
    have hnone : s.current = [] := hblock.resolve_right fun heq => hother heq.symm
    have hcurrent := h.current
    rw [hnone] at hcurrent
    obtain ⟨rfl, hbuffered⟩ := List.append_eq_nil_iff.mp hcurrent.eq_nil
    refine ⟨hworks, fun _ => ⟨[], header, old, [], ?_⟩⟩
    refine ⟨⟨h.log.content, h.log.pos, h.log.filled, rfl⟩, h.sized, h.finished, ?_, h.before, h.ordered, h.small, h.small_new,
      h.fits, Nat.zero_lt_succ _, fun _ => rfl, fun _ => ⟨h.header_of_pos hpos, hbehind, ?_⟩, hchunk, fun _ => rfl⟩
    · rw [after_current, hnone]
      exact Merges.nil
    · rw [after_fc, remaining, if_neg hremaining]
      exact ⟨hend, hsize⟩
  · refine ⟨hworks, fun _ => ⟨stale, header, old, new, ?_⟩⟩
    refine h.same _ ?_ ?_ ?_ hchunk
    · exact ⟨rfl, rfl, rfl, rfl, rfl⟩
    · exact fun _ => hidle
    · rw [remaining, if_neg hremaining]
      exact fun _ => ⟨h.header_of_pos hpos, hbehind, hend, hsize⟩

/-- Data of a part is handed to `writePatch`, with `left` bytes of the part to come. -/
structure Takes (fc fc₁ fc' : FileClientChunked) (buf : Bytes) (left : Nat) : Prop where
  same : SamePatches fc fc₁
  disk : fc₁.disk = fc.disk
  file_pos : fc₁.file_pos = fc.file_pos
  same' : SamePatches (fc₁.writePatch fc.file_pos buf (decide (left = 0))) fc'
  disk' : fc'.disk = (fc₁.writePatch fc.file_pos buf (decide (left = 0))).disk
  file_pos' : fc'.file_pos = fc.file_pos + buf.length
  last : left = 0 → fc'.state = .CS_ID_FIRST
  more : left ≠ 0 → fc'.state = fc.state ∧ fc'.remaining = left

theorem takes_writePatch {fc fc₁ fc₂ : FileClientChunked} {buf : Bytes} {n left : Nat} {p : Prop} [Decidable p]
    (hsame : SamePatches fc fc₁) (hdisk : fc₁.disk = fc.disk) (hpos : fc₁.file_pos = fc.file_pos) (hstate : fc₁.state = fc.state)
    (hleft : fc₁.remaining = left) (hwrite : fc₁.writePatch fc.file_pos buf (decide (left = 0)) = fc₂) (hlength : buf.length = n)
    (hp : p ↔ left = 0) (hash : Bool) :
    Takes fc fc₁ (if p then { fc₂ with file_pos := fc₂.file_pos + n, hash_for_whole_block := hash, state := .CS_ID_FIRST }
      else { fc₂ with file_pos := fc₂.file_pos + n }) buf left := by
  subst hwrite hlength
  have hpart := writePatch_part fc₁ fc.file_pos buf (decide (left = 0))
  have hpos₂ := congrArg (· + buf.length) (hpart.file_pos.trans hpos)
  have hremaining : (fc₁.writePatch fc.file_pos buf (decide (left = 0))).remaining = left := by
    rw [remaining, hpart.state, hpart.whole_block_remaining, hpart.adler_remaining]
    exact hleft
  split
  · next hzero =>
    exact ⟨hsame, hdisk, hpos, ⟨rfl, rfl, rfl, rfl, rfl⟩, rfl, hpos₂, fun _ => rfl, fun hmore => absurd (hp.mp hzero) hmore⟩
  · next hmore =>
    exact ⟨hsame, hdisk, hpos, ⟨rfl, rfl, rfl, rfl, rfl⟩, rfl, hpos₂, fun hzero => absurd (hp.mpr hzero) hmore,
      fun _ => ⟨hpart.state.trans hstate, hremaining⟩⟩

theorem State_Block_takes {fc : FileClientChunked} (hstate : fc.state = .CS_BLOCK) (buf : Bytes) :
    ∃ fc₁, Takes fc fc₁ (fc.State_Block buf) (buf.take (min buf.length fc.whole_block_remaining))
      (fc.whole_block_remaining - min buf.length fc.whole_block_remaining) := by
  refine ⟨_, @takes_writePatch fc { fc with whole_block_remaining := fc.whole_block_remaining - min buf.length fc.whole_block_remaining }
    _ _ _ _ _ _ ⟨rfl, rfl, rfl, rfl, rfl⟩ rfl rfl rfl (if_pos hstate) rfl ?_ ?_ true⟩
  · rw [List.length_take]
    omega
  · rw [(writePatch_part _ _ _ _).whole_block_remaining]

theorem State_Chunk_takes {fc : FileClientChunked} (hstate : fc.state ≠ .CS_BLOCK) {buf : Bytes}
    (hdata : 0 < min buf.length fc.adler_remaining) :
    ∃ fc₁, Takes fc fc₁ (fc.State_Chunk buf) (buf.take (min buf.length fc.adler_remaining))
      (fc.adler_remaining - min buf.length fc.adler_remaining) := by
  unfold State_Chunk
  dsimp only
  rw [if_pos hdata]
  refine ⟨_, @takes_writePatch fc { fc with adler_remaining := fc.adler_remaining - min buf.length fc.adler_remaining }
    _ _ _ _ _ _ ⟨rfl, rfl, rfl, rfl, rfl⟩ rfl rfl rfl (if_neg hstate) rfl ?_ ?_ _⟩
  · rw [List.length_take]
    omega
  · rw [(writePatch_part _ _ _ _).adler_remaining]

/-- The call is in the records or in the buffer then. -/
theorem takes_inv (hworks : s.fc.Works) (h : s.Holds stale header old new) {fc₁ fc : FileClientChunked} {buf : Bytes}
    (hstate : s.fc.state ≠ .CS_ID_FIRST) (hlength : buf.length ≤ s.fc.remaining)
    (htakes : Takes s.fc fc₁ fc buf (s.fc.remaining - buf.length)) :
    ({ s.after fc with current := s.current ++ [⟨s.fc.file_pos, buf⟩] } : Session).Inv := by
  obtain ⟨hheader, hbehind, hend, hsize⟩ := h.part hstate
  have hworks₁ : fc₁.Works := by
    intro n hn
    rw [htakes.disk] at hn
    exact hworks n hn
  obtain ⟨new', hpatched, hlast⟩ := writePatch_log hworks₁ (htakes.same.log h.log)
    (by rw [htakes.same.buffered]; exact h.current) (by rw [htakes.same.patch_buf]; exact h.room) h.small_new
    (fun c hc => hbehind c (List.mem_append_right _ hc)) (Nat.lt_of_le_of_lt hlength hsize)
    (decide (s.fc.remaining - buf.length = 0))
  have hcall : ∀ w ∈ s.finished ++ (s.current ++ [⟨s.fc.file_pos, buf⟩]), w.stop ≤ s.fc.file_pos + buf.length := by
    intro w hw
    rw [← List.append_assoc] at hw
    obtain hw | hw := List.mem_append.mp hw
    · exact Nat.le_add_right_of_le (hbehind w hw)
    · rw [List.mem_singleton.mp hw]
      exact Nat.le_refl _
  have hlog := htakes.same'.log hpatched.log
  have hworks' : fc.Works := by
    intro n hn
    rw [htakes.disk'] at hn
    exact hpatched.works n hn
  refine ⟨hworks', fun _ => ⟨stale, header, old, new', ?_⟩⟩
  refine ⟨hlog, Or.inl hheader, h.finished, ?_, h.before, ?_, h.small, hpatched.small, ?_, ?_, fun hidle => ?_, fun hmore => ?_,
    fun hchunk => ?_, ?_⟩
  · simp only [after_fc, htakes.same'.buffered]
    exact hpatched.merges
  · intro w hw w' hw'
    obtain hw' | hw' := List.mem_append.mp hw'
    · exact h.ordered w hw w' hw'
    · rw [List.mem_singleton.mp hw']
      exact hbehind w (List.mem_append_left _ hw)
  · intro w hw
    have := hcall w hw
    omega
  · simp only [after_fc, htakes.same'.patch_buf]
    exact hpatched.room
  · by_cases hleft : s.fc.remaining - buf.length = 0
    · exact htakes.same'.patch_buf.trans (hlast (decide_eq_true hleft))
    · exact absurd ((htakes.more hleft).1.symm.trans hidle) hstate
  · have hleft := (htakes.more fun hzero => hmore (htakes.last hzero)).2
    refine ⟨hheader, fun w hw => ?_, ?_, ?_⟩
    · rw [after_fc, htakes.file_pos']
      exact hcall w hw
    · rw [after_fc, htakes.file_pos', hleft]
      omega
    · rw [after_fc, hleft]
      omega
  · have hleft : s.fc.remaining - buf.length ≠ 0 := by
      intro hzero
      rw [after_fc, htakes.last hzero] at hchunk
      cases hchunk
    have hremaining := (htakes.more hleft).2
    rw [after_fc] at hchunk
    rw [remaining, if_neg (by simp [hchunk])] at hremaining
    rw [after_fc, hremaining]
    exact Nat.pos_of_ne_zero hleft
  · exact h.forgotten_step hlog.remembered

theorem data_inv (hworks : s.fc.Works) (h : s.Holds stale header old new) (hstate : s.fc.state ≠ .CS_ID_FIRST) (buf : Bytes) :
    (s.step (.data buf)).Inv := by
  by_cases hblock : s.fc.state = .CS_BLOCK
  · obtain ⟨fc₁, htakes⟩ := State_Block_takes hblock buf
    have hremaining : s.fc.remaining = s.fc.whole_block_remaining := if_pos hblock
    have hstep : s.step (.data buf) = { s.after (s.fc.State_Block buf) with
        current := s.current ++ [⟨s.fc.file_pos, buf.take (min buf.length s.fc.whole_block_remaining)⟩] } := by
      rw [step, FileClientChunked.step, if_pos hblock, FileClientChunked.call, if_pos hblock]
    have hlength : (buf.take (min buf.length s.fc.whole_block_remaining)).length = min buf.length s.fc.whole_block_remaining := by
      rw [List.length_take]
      omega
    rw [hstep]
    apply takes_inv hworks h hstate
    · omega
    · rw [hlength, hremaining]
      exact htakes
  · have hchunk : s.fc.state = .CS_CHUNK := by
      cases hcase : s.fc.state with
      | CS_ID_FIRST => exact absurd hcase hstate
      | CS_BLOCK => exact absurd hcase hblock
      | CS_CHUNK => rfl
    have hremaining : s.fc.remaining = s.fc.adler_remaining := if_neg hblock
    have hlength : (buf.take (min buf.length s.fc.adler_remaining)).length = min buf.length s.fc.adler_remaining := by
      rw [List.length_take]
      omega
    by_cases hdata : 0 < min buf.length s.fc.adler_remaining
    · obtain ⟨fc₁, htakes⟩ := State_Chunk_takes hblock hdata
      have hstep : s.step (.data buf) = { s.after (s.fc.State_Chunk buf) with
          current := s.current ++ [⟨s.fc.file_pos, buf.take (min buf.length s.fc.adler_remaining)⟩] } := by
        rw [step, FileClientChunked.step, if_neg hblock, FileClientChunked.call, if_neg hblock, if_pos hdata]
      rw [hstep]
      apply takes_inv hworks h hstate
      · omega
      · rw [hlength, hremaining]
        exact htakes
    · have hpos := h.chunk hchunk
      have hnone : min buf.length s.fc.adler_remaining = 0 := Nat.eq_zero_of_not_pos hdata
      have hfc : s.fc.State_Chunk buf = s.fc := by
        unfold State_Chunk
        rw [hnone]
        dsimp only
        rw [if_neg (Nat.lt_irrefl 0), if_neg (by simp; omega), Nat.sub_zero]
      have hstep : s.step (.data buf) = s.after s.fc := by
        rw [step, FileClientChunked.step, if_neg hblock, FileClientChunked.call, if_neg hblock, if_neg hdata, hfc, List.append_nil]
        rfl
      rw [hstep]
      exact ⟨hworks, fun _ => ⟨stale, header, old, new, h.same s.fc ⟨rfl, rfl, rfl, rfl, rfl⟩ h.idle h.part h.chunk⟩⟩

/-- The records of a block that is finished are kept. -/
theorem blockHash_inv (hworks : s.fc.Works) (h : s.Holds stale header old new) (hstate : s.fc.state = .CS_ID_FIRST)
    (block_start : Nat) : (s.step (.blockHash block_start true)).Inv := by
  have hidle := h.idle hstate
  have hmerges := h.current
  rw [buffered, if_pos hidle, List.append_nil] at hmerges
  have hrecords : records (old ++ new.map .patch) = records old ++ new := by rw [records_append, records_patch]
  have hfile : (s.fc.Hash_finalize block_start true).patchfile = s.fc.patchfile := rfl
  refine ⟨hworks, fun _ => ⟨[], header, old ++ new.map .patch, [], ?_⟩⟩
  refine ⟨⟨?_, h.log.pos, h.log.filled, rfl⟩, ?_, ?_, ?_, ?_, ?_, ?_, ?_, ?_, h.room, fun _ => hidle,
    fun hnot => absurd hstate hnot, h.chunk, fun _ => rfl⟩
  · rw [encode_append, ← List.append_assoc]
    exact h.log.content.trans (List.append_nil _).symm
  · obtain hsized | ⟨rfl, rfl, rfl⟩ := h.sized
    · exact Or.inl hsized
    · exact Or.inr ⟨rfl, rfl, rfl⟩
  · rw [hrecords]
    exact h.finished.append hmerges h.ordered
  · have hbuffered : (s.step (.blockHash block_start true)).fc.buffered = [] := if_pos hidle
    rw [hbuffered]
    exact Merges.nil
  · rw [hrecords, ← h.patches_eq hidle]
    rfl
  · intro w _ w' hw'
    cases hw'
  · intro e he
    obtain he | he := List.mem_append.mp he
    · exact h.small e he
    · obtain ⟨r, hr, rfl⟩ := List.mem_map.mp he
      exact h.small_new r hr
  · intro r hr
    cases hr
  · intro w hw
    obtain hw | hw := List.mem_append.mp hw
    · exact h.fits w hw
    · cases hw

/-- The ways in which patches are invalidated. -/
theorem invalidated_inv (hworks : s.fc.Works) (h : s.Holds [] header old new) {fc : FileClientChunked}
    (hsame : fc.patchfile = s.fc.patchfile ∧ fc.patchfile_pos = s.fc.patchfile_pos ∧
      fc.last_chunk_patches = s.fc.last_chunk_patches ∧ fc.disk = s.fc.disk) (hstate : fc.state = .CS_ID_FIRST) :
    ({ s.after fc.invalidateLastPatches with current := [] } : Session).Inv := by
  obtain ⟨hfile, hpos, hlast, hdisk⟩ := hsame
  have hworks' : fc.Works := by
    intro n hn
    rw [hdisk] at hn
    exact hworks n hn
  have hlog : fc.Log [] header old new := by
    refine ⟨?_, ?_, ?_, ?_⟩
    · rw [hfile]
      exact h.log.content
    · rw [hfile, hpos]
      exact h.log.pos
    · rw [hfile, hpos]
      exact h.log.filled
    · rw [hlast]
      exact h.log.remembered
  obtain ⟨hworks'', hholds⟩ := h.invalidated hworks' hlog hstate (s.stale && !fc.invalidateLastPatches.last_chunk_patches.isEmpty)
  exact ⟨hworks'', fun _ => ⟨[], header, _, [], hholds⟩⟩

/-- Of a block with another hash nothing is kept; it is asked for as a whole. -/
theorem wrongHash_inv (hworks : s.fc.Works) (h : s.Holds stale header old new) (hstate : s.fc.state = .CS_ID_FIRST)
    (hforgotten : s.stale = false) (block_start : Nat) : (s.step (.blockHash block_start false)).Inv := by
  obtain rfl := h.forgotten hforgotten
  cases hwhole : s.fc.hash_for_whole_block with
  | true =>
    have hdone : (s.fc.Hash_finalize block_start false).getfile_done = true := by simp [Hash_finalize, hwhole]
    have hdisk : (s.fc.Hash_finalize block_start false).disk = s.fc.disk := by simp [Hash_finalize, hwhole]
    exact inv_done (fun n hn => hworks n (by rw [← hdisk]; exact hn)) hdone
  | false =>
    have hstep : s.step (.blockHash block_start false) =
        { s.after (FileClientChunked.requestOfbChunk { s.fc with block_for_chunk_start := -1 }.invalidateLastPatches) with
          current := [] } := by
      simp [step, FileClientChunked.step, Hash_finalize, hwhole]
    have hworks₁ : ({ s.fc with block_for_chunk_start := -1 } : FileClientChunked).Works := hworks
    have hlog₁ : ({ s.fc with block_for_chunk_start := -1 } : FileClientChunked).Log [] header old new :=
      ⟨h.log.content, h.log.pos, h.log.filled, h.log.remembered⟩
    obtain ⟨hworks₂, hholds⟩ := h.invalidated hworks₁ hlog₁ hstate s.stale
    rw [hstep]
    exact invalidated_inv hworks₂ hholds ⟨rfl, rfl, rfl, rfl⟩ rfl

theorem reconnect_inv (hworks : s.fc.Works) (h : s.Holds stale header old new) (hforgotten : s.stale = false)
    (connected : Bool) : (s.step (.reconnect connected)).Inv := by
  obtain rfl := h.forgotten hforgotten
  by_cases hfails : s.fc.has_error ∨ ¬ connected
  · have hstep : s.step (.reconnect connected) = { s.after { s.fc with getfile_done := true } with current := [] } := by
      rw [step, FileClientChunked.step, Reconnect, if_pos hfails]
    rw [hstep]
    exact inv_done hworks rfl
  · have hstep : s.step (.reconnect connected) = { s.after (FileClientChunked.invalidateLastPatches { s.fc with
        remote_filesize := -1, block_for_chunk_start := -1, state := .CS_ID_FIRST, patch_buf := [] }) with current := [] } := by
      rw [step, FileClientChunked.step, Reconnect, if_neg hfails]
      rfl
    rw [hstep]
    exact invalidated_inv hworks h ⟨rfl, rfl, rfl, rfl⟩ rfl

theorem blockError_inv (hworks : s.fc.Works) (allow_reconnect connected : Bool) :
    (s.step (.blockError allow_reconnect connected)).Inv := by
  have hreconnect : (s.fc.Reconnect connected false).2.disk = s.fc.disk := by
    unfold Reconnect
    split <;> rfl
  have hdisk : (if s.fc.remote_filesize ≠ -1 ∧ allow_reconnect then (s.fc.Reconnect connected false).2 else s.fc).disk =
      s.fc.disk := by
    split
    · exact hreconnect
    · rfl
  refine inv_done (fun n hn => ?_) rfl
  exact hworks n (by rw [← hdisk]; exact hn)

theorem step_inv (hinv : s.Inv) {e : Event} (hsent : s.Sent e) (hforgotten : s.Forgotten e) : (s.step e).Inv := by
  obtain ⟨hworks, hactive⟩ := hinv
  cases e with
  | GetFilePatch predicted_filesize => exact GetFilePatch_inv hworks predicted_filesize
  | filesize remote_filesize =>
    obtain ⟨stale, header, old, new, h⟩ := hactive hsent.1
    exact filesize_inv hworks h hsent.2 remote_filesize
  | wholeBlock block_start size =>
    obtain ⟨stale, header, old, new, h⟩ := hactive hsent.1
    exact wholeBlock_inv hworks h hsent.2.1
  | updateChunk new_chunk_start size =>
    obtain ⟨stale, header, old, new, h⟩ := hactive hsent.1
    exact updateChunk_inv hworks h hsent.2.1 hsent.2.2
  | data buf =>
    obtain ⟨stale, header, old, new, h⟩ := hactive hsent.1
    exact data_inv hworks h hsent.2 buf
  | noChange block_start =>
    obtain ⟨stale, header, old, new, h⟩ := hactive hsent.1
    exact noChange_inv hworks h hsent.2 block_start
  | blockHash block_start equal =>
    obtain ⟨stale, header, old, new, h⟩ := hactive hsent.1
    cases equal with
    | true => exact blockHash_inv hworks h hsent.2 block_start
    | false => exact wrongHash_inv hworks h hsent.2 hforgotten block_start
  | blockError allow_reconnect connected => exact blockError_inv hworks allow_reconnect connected
  | reconnect connected =>
    obtain ⟨stale, header, old, new, h⟩ := hactive hsent
    exact reconnect_inv hworks h hforgotten connected
  | requestOfbChunk =>
    obtain ⟨stale, header, old, new, h⟩ := hactive hsent
    obtain rfl := h.forgotten hforgotten
    exact invalidated_inv hworks h ⟨rfl, rfl, rfl, rfl⟩ rfl
  | ofbFailed => exact inv_done hworks rfl

theorem buffer_wrongHash (fc : FileClientChunked) (block_start : Nat)
    (h : (fc.step (.blockHash block_start false)).getfile_done = false) : (fc.step (.blockHash block_start false)).patch_buf = [] := by
  cases hwhole : fc.hash_for_whole_block with
  | true =>
    simp [FileClientChunked.step, Hash_finalize, hwhole] at h
  | false =>
    have hstep : fc.step (.blockHash block_start false) =
        FileClientChunked.requestOfbChunk { fc with block_for_chunk_start := -1 }.invalidateLastPatches := by
      simp [FileClientChunked.step, Hash_finalize, hwhole]
    rw [hstep]
    rfl

theorem buffer_reconnect (fc : FileClientChunked) (connected : Bool)
    (h : (fc.step (.reconnect connected)).getfile_done = false) : (fc.step (.reconnect connected)).patch_buf = [] := by
  by_cases hfails : fc.has_error ∨ ¬ connected
  · rw [FileClientChunked.step, Reconnect, if_pos hfails] at h
    cases h
  · rw [FileClientChunked.step, Reconnect, if_neg hfails]
    rfl

theorem Reaches.inv (h : Reaches (fun s e => s.Sent e ∧ s.Forgotten e) s) : s.Inv := by
  induction h with
  | new disk hdisk => exact inv_done hdisk rfl
  | step h he ih => exact step_inv ih he.1 he.2

/-- In every session in which no patches are invalidated while positions in an earlier
patch file are remembered, the patch file has what was handed to `writePatch`, and after
an invalidation what it had before the block that is asked for again. -/
theorem patches_kept (h : Reaches (fun s e => s.Sent e ∧ s.Forgotten e) s) :
    s.Overlays ∧ ∀ e, s.Sent e → s.Forgotten e → s.Restores e := by
  constructor
  · intro hdone
    obtain ⟨stale, header, old, new, hholds⟩ := h.inv.2 hdone
    exact hholds.overlays hdone
  · intro e hsent hforgotten
    have hnext := step_inv h.inv hsent hforgotten
    have hrestored (hnone : (s.step e).current = []) (hbefore : (s.step e).before = s.before)
        (hidle : (s.step e).fc.getfile_done = false → (s.step e).fc.patch_buf = [])
        (hdone : (s.step e).fc.getfile_done = false) : (s.step e).fc.patches = s.before := by
      obtain ⟨stale, header, old, new, hholds⟩ := hnext.2 hdone
      rw [← hbefore]
      exact hholds.patches_before (hidle hdone) hnone
    cases e with
    | blockHash block_start equal =>
      cases equal with
      | true => trivial
      | false => exact hrestored rfl rfl (buffer_wrongHash s.fc block_start)
    | reconnect connected => exact hrestored rfl rfl (buffer_reconnect s.fc connected)
    | requestOfbChunk => exact hrestored rfl rfl fun _ => rfl
    | _ => trivial

/-- The first block is finished, and a chunk of the second one has come. -/
def secondBlock : Session :=
  [.GetFilePatch (-1), .filesize 524291, .updateChunk 0 3, .data [1, 2, 3], .blockHash 0 true, .updateChunk 524288 3,
    .data [4, 5]].foldl step (.new [])

/-- The connection is lost in the second block, and the patches of the first one are left. -/
theorem patches_kept_secondBlock : secondBlock.Overlays ∧
    (secondBlock.step (.reconnect true)).fc.patches = [(⟨0, 3⟩, [1, 2, 3])] := by
  have hstart : Reaches (fun s e => s.Sent e ∧ s.Forgotten e) ((Session.new []).step (.GetFilePatch (-1))) :=
    .step (.new [] (by simp)) ⟨trivial, trivial⟩
  have hchunk := (hstart.step (e := .filesize 524291) ⟨by decide, trivial⟩).step (e := .updateChunk 0 3) ⟨by decide, trivial⟩
  have hblock := (hchunk.step (e := .data [1, 2, 3]) ⟨by decide, trivial⟩).step (e := .blockHash 0 true) ⟨by decide, trivial⟩
  have hnext := (hblock.step (e := .updateChunk 524288 3) ⟨by decide, trivial⟩).step (e := .data [4, 5]) ⟨by decide, trivial⟩
  have hbefore : secondBlock.before = [(⟨0, 3⟩, [1, 2, 3])] :=
    @readPatches_encode _ _ [.patch ⟨0, [1, 2, 3]⟩] (by simp [Entry.data]) (by decide) (by decide)
  exact ⟨(patches_kept hnext).1, ((patches_kept hnext).2 (.reconnect true) rfl rfl rfl).trans hbefore⟩

section Stale

/-- Two pieces of a block come, and then an error instead of the rest. -/
def interrupted : Session :=
  ((((((Session.new []).step (.GetFilePatch (-1))).step (.filesize 8192)).step (.wholeBlock 0 8192)).step
    (.data (List.replicate 4096 7))).step (.data (List.replicate 4096 7))).step (.blockError true true)

/-- The next file, of ten bytes. -/
def nextFile : Session :=
  (interrupted.step (.GetFilePatch (-1))).step (.filesize 10)

theorem nextFile_reached : Reaches Sent nextFile := by
  have hfile : Reaches Sent (((Session.new []).step (.GetFilePatch (-1))).step (.filesize 8192)) :=
    .step (.step (.new [] (by simp)) (by decide)) (by decide)
  have hblock := hfile.step (e := .wholeBlock 0 8192) (by decide)
  have hfirst := hblock.step (e := .data (List.replicate 4096 7)) (by decide)
  have hsecond := hfirst.step (e := .data (List.replicate 4096 7)) (by decide +kernel)
  have hinterrupted := hsecond.step (e := .blockError true true) (by decide +kernel)
  exact (hinterrupted.step (e := .GetFilePatch (-1)) trivial).step (e := .filesize 10) (by decide +kernel)

/-- Behind the file size there is an offset of -1, and then zeros up to the other position. -/
theorem nextFile_content : 32 ≤ (nextFile.step (.reconnect true)).fc.patchfile.content.length ∧
    slice (nextFile.step (.reconnect true)).fc.patchfile.content 8 8 = leBytes 8 (2 ^ 64 - 1) ∧
    slice (nextFile.step (.reconnect true)).fc.patchfile.content 16 4 = leBytes 4 0 ∧
    slice (nextFile.step (.reconnect true)).fc.patchfile.content 20 8 = leBytes 8 0 := by
  decide +kernel

/-- They are read as a record although no block of the file has come. -/
theorem nextFile_patches : (nextFile.step (.reconnect true)).fc.patches ≠ [] := by
  rw [FileClientChunked.patches, IFile.Seek]
  obtain ⟨hlength, hskipped, hsize, hoff⟩ := nextFile_content
  generalize (nextFile.step (.reconnect true)).fc.patchfile.content = content at hlength hskipped hsize hoff ⊢
  have hsecond : ∃ header patchf, readNextValidPatch ⟨content, 20⟩ = (true, header, patchf) := by
    have hzero : int64 (leBytes 8 0) ≠ -1 := by decide
    rw [readNextValidPatch, if_neg (Nat.not_lt.mpr hlength)]
    simp only [hoff, if_neg hzero]
    exact ⟨_, _, rfl⟩
  have hfirst : readNextValidPatch ⟨content, 8⟩ = readNextValidPatch ⟨content, 20⟩ := by
    have hnone : leValue (leBytes 4 0) = 0 := by decide
    rw [readNextValidPatch, if_neg (by simp only; omega)]
    simp only [hskipped, int64_minusOne, hsize, hnone, if_true]
    rfl
  obtain ⟨header, patchf, hread⟩ := hsecond
  rw [readPatches_some (hfirst.trans hread)]
  exact List.cons_ne_nil _ _

theorem stale_patches_read : ¬ ∀ s, Reaches Sent s → s.Overlays ∧ ∀ e, s.Sent e → s.Restores e := by
  intro hclaim
  have hdone : (nextFile.step (.reconnect true)).fc.getfile_done = false := by decide +kernel
  have hsent : nextFile.Sent (.reconnect true) := by decide +kernel
  exact nextFile_patches ((hclaim nextFile nextFile_reached).2 (.reconnect true) hsent hdone)

end Stale

section Transfer

variable {cp : ChunkPatcher} {file remote : Bytes} {calls : List Record}

/-- The calls are for parts of a file, and the old file is the same everywhere else. -/
structure Sends (calls : List Record) (file remote : Bytes) : Prop where
  parts : ∀ w ∈ calls, w.off < remote.length ∧ w.stop ≤ remote.length ∧ w.data = slice remote w.off w.data.length
  same : ∀ p < remote.length, (∀ w ∈ calls, ¬ (w.off ≤ p ∧ p < w.stop)) → file[p]? = remote[p]?

/-- The byte of the patched file where what is left out stays as it is in the old one. -/
def rebuilt (file : Bytes) (output : List Piece) (p : Nat) : Option UInt8 :=
  match (view output)[p]? with
  | some (some b) => some b
  | _ => file[p]?

theorem Sends.patched (h : Sends calls file remote) {p : Nat} (hp : p < remote.length) : patched file calls p = remote[p]? := by
  by_cases hcovered : ∃ w ∈ calls, w.off ≤ p ∧ p < w.stop
  · obtain ⟨w, hw, hin⟩ := hcovered
    rw [chunkpatch.patched]
    cases hfind : calls.find? fun r => decide (r.off ≤ p ∧ p < r.stop) with
    | none => exact absurd (List.find?_eq_none.mp hfind w hw) (by simpa using hin)
    | some r =>
      have hr := List.find?_some hfind
      rw [decide_eq_true_eq, Record.stop] at hr
      obtain ⟨-, -, hdata⟩ := h.parts r (List.mem_of_find?_eq_some hfind)
      dsimp only
      rw [hdata, getElem?_slice, if_pos (by omega), Nat.add_sub_cancel' hr.1]
  · have hnone : ∀ w ∈ calls, ¬ (w.off ≤ p ∧ p < w.stop) := fun w hw hin => hcovered ⟨w, hw, hin⟩
    rw [patched_of_not_mem hnone, h.same p hp hnone]

end Transfer

end Session

end urbackup.chunkpatch
