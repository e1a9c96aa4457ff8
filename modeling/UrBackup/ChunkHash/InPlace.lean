import UrBackup.ChunkHash.DenseBlock
import UrBackup.Crypto.Md5
import UrBackup.Crypto.Sha2

namespace urbackup.chunkhash

open stringtools filedata

section OldHashes

variable (d : Digests) (old : Bytes) (start : Option Bytes)

/-- The old chunk hashes that are at hand after `k` blocks. A short record
covers only part of the one before. -/
def oldHashes : Nat → Option Bytes
  | 0 => start
  | k + 1 => (oldHashes k).bind fun hashes =>
    if c_checkpoint_dist * k < old.length then
      some (record d (block old (c_checkpoint_dist * k)) ++
        hashes.drop (record d (block old (c_checkpoint_dist * k))).length)
    else none

/-- Without old chunk hashes there never are any. -/
theorem oldHashes_none (k : Nat) : oldHashes d old none k = none := by
  induction k with
  | zero => rfl
  | succ k ih => rw [oldHashes, ih, Option.bind_none]

variable {d old start}

theorem oldHashes_succ {k : Nat} {hashes : Bytes} (h : oldHashes d old start (k + 1) = some hashes) :
    c_checkpoint_dist * k < old.length ∧ ∃ rest, hashes = record d (block old (c_checkpoint_dist * k)) ++ rest := by
  rw [oldHashes] at h
  obtain ⟨before, _, hread⟩ := Option.bind_eq_some_iff.mp h
  split at hread
  · next hlt => exact ⟨hlt, _, (Option.some.inj hread).symm⟩
  · cases hread

theorem oldHashes_digest {k : Nat} {hashes : Bytes} (h : oldHashes d old start (k + 1) = some hashes) :
    hashes.take big_hash_size = d.md5 (block old (c_checkpoint_dist * k)) := by
  obtain ⟨-, rest, rfl⟩ := oldHashes_succ h
  rw [record, List.append_assoc]
  exact List.take_left' (d.length_md5 _)

/-- Reading the chunk hashes of the next block. -/
theorem readChunkHashes_old {hashinput : Bytes} (hinput : start ≠ none → hashinput = chunkHashFile d old)
    (hsize : old.length < 2 ^ 63) {k : Nat} {st : HasherState} (hpos : st.pos = c_checkpoint_dist * k)
    (hout : st.hashoutputpos = chunkhash_file_off + chunkhash_single_size * k)
    (hhashes : st.chunk_hashes = oldHashes d old start k) :
    readChunkHashes hashinput st = { st with chunk_hashes := oldHashes d old start (k + 1) } := by
  unfold readChunkHashes
  congr 1
  rw [oldHashes, hhashes]
  cases hk : oldHashes d old start k with
  | none => rfl
  | some hashes =>
    have hstart : start ≠ none := by
      rintro rfl
      rw [oldHashes_none] at hk
      cases hk
    rw [Option.bind_some, Option.bind_some, hinput hstart, size_chunkHashFile d hsize, hpos, hout]
    by_cases hlt : c_checkpoint_dist * k < old.length
    · have hne : (record d (block old (c_checkpoint_dist * k))).isEmpty = false := by
        rw [List.isEmpty_eq_false_iff, ← List.length_pos_iff, length_record]
        omega
      rw [if_pos hlt, if_pos hlt]
      simp only [slice_chunkHashFile d hlt, hne]
      rfl
    · rw [if_neg hlt, if_neg hlt]

end OldHashes

section Take

variable (hashes : Bytes)

/-- The control data and the checksums only look at the old block. -/
theorem controlData_take (chunkidx : Nat) (cs : List Bytes) (old : Bytes) {n : Nat} (h : cs.length ≤ n) :
    controlData hashes chunkidx cs (old.take (c_small_hash_dist * n)) = controlData hashes chunkidx cs old := by
  induction cs generalizing chunkidx old n with
  | nil => rfl
  | cons chunk cs ih =>
    obtain ⟨m, rfl⟩ := Nat.exists_eq_add_of_le' (show 1 ≤ n from Nat.le_trans (by simp) h)
    rw [controlData, controlData, Nat.mul_succ, List.take_take, Nat.min_eq_left (Nat.le_add_left _ _), List.drop_take,
      Nat.add_sub_cancel, ih _ _ (by simpa using h)]

theorem chunksAgree_take (chunkidx : Nat) (cs : List Bytes) (old : Bytes) {n : Nat} (h : cs.length ≤ n) :
    ChunksAgree hashes chunkidx cs (old.take (c_small_hash_dist * n)) ↔ ChunksAgree hashes chunkidx cs old := by
  induction cs generalizing chunkidx old n with
  | nil => rfl
  | cons chunk cs ih =>
    obtain ⟨m, rfl⟩ := Nat.exists_eq_add_of_le' (show 1 ≤ n from Nat.le_trans (by simp) h)
    rw [ChunksAgree, ChunksAgree, Nat.mul_succ, List.take_take, Nat.min_eq_left (Nat.le_add_left _ _), List.drop_take,
      Nat.add_sub_cancel, ih _ _ (by simpa using h)]

theorem length_chunks_block (f : Bytes) (p : Nat) : (chunks (block f p)).length ≤ 128 := by
  have hs : c_small_hash_dist = 4096 := rfl
  have hdist : c_checkpoint_dist = 524288 := rfl
  rw [length_chunks, block, length_slice, hs, hdist]
  omega

theorem controlData_block (f old : Bytes) (p : Nat) :
    controlData hashes 0 (chunks (block f p)) (old.drop p) =
      controlData hashes 0 (chunks (block f p)) (block old p) :=
  (controlData_take hashes 0 (chunks (block f p)) (old.drop p) (length_chunks_block f p)).symm

theorem chunksAgree_block (f old : Bytes) (p : Nat) :
    ChunksAgree hashes 0 (chunks (block f p)) (block old p) ↔ ChunksAgree hashes 0 (chunks (block f p)) (old.drop p) :=
  chunksAgree_take hashes 0 (chunks (block f p)) (old.drop p) (length_chunks_block f p)

end Take

section Copied

variable (modify_inplace : Bool) (f old : Bytes) (k : Nat)

/-- The copy after `k` blocks: the file's data in front of what the old one has
left. -/
structure CopiedTo (c : CopyState) : Prop where
  content_eq : c.file.content = f.take (c_checkpoint_dist * k) ++ old.drop (f.take (c_checkpoint_dist * k)).length
  copy_write_pos_eq : c.copy_write_pos = (f.take (c_checkpoint_dist * k)).length
  pos_eq : modify_inplace = false → c.file.pos = (f.take (c_checkpoint_dist * k)).length

variable {modify_inplace f old k} {c : CopyState}

theorem copiedTo_succ {c' : CopyState} (hwrote : Wrote (f.take (c_checkpoint_dist * k)) (block f (c_checkpoint_dist * k))
    (old.drop (f.take (c_checkpoint_dist * k)).length) c')
    (hpos : modify_inplace = false → c'.file.pos = c'.copy_write_pos) : CopiedTo modify_inplace f old (k + 1) c' := by
  obtain ⟨hcontent, hwrite⟩ := hwrote
  have htake : f.take (c_checkpoint_dist * (k + 1)) =
      f.take (c_checkpoint_dist * k) ++ block f (c_checkpoint_dist * k) := by
    rw [Nat.mul_succ, take_add_slice]
    rfl
  have hend : c'.copy_write_pos = (f.take (c_checkpoint_dist * (k + 1))).length := by
    rw [hwrite, htake, List.length_append]
  refine ⟨?_, hend, fun hmode => (hpos hmode).trans hend⟩
  rw [hcontent, htake, List.drop_drop, ← List.length_append]

theorem CopiedTo.old_eq (h : CopiedTo modify_inplace f old k c) (hk : c_checkpoint_dist * k ≤ f.length) :
    c.file.content.drop c.copy_write_pos = old.drop (c_checkpoint_dist * k) := by
  rw [h.content_eq, h.copy_write_pos_eq, List.drop_left, List.length_take, Nat.min_eq_left hk]

/-- A block written as a whole. -/
theorem CopiedTo.putWhole (h : CopiedTo false f old k c) :
    CopiedTo false f old (k + 1) (c.putWhole (block f (c_checkpoint_dist * k))) := by
  refine copiedTo_succ ⟨?_, ?_⟩ fun _ => ?_
  · show overwrite 0 c.file.content c.file.pos (block f (c_checkpoint_dist * k)) = _
    rw [h.content_eq, h.pos_eq rfl, overwrite_append]
  · show c.copy_write_pos + _ = _
    rw [h.copy_write_pos_eq]
  · show c.file.pos + _ = c.copy_write_pos + _
    rw [h.pos_eq rfl, h.copy_write_pos_eq]

/-- A block written in place, chunk by chunk. -/
theorem CopiedTo.copyChunks {chunk_hashes : Option Bytes} (h : CopiedTo true f old k c)
    (hk : c_checkpoint_dist * k ≤ f.length)
    (hagree : ∀ hashes, chunk_hashes = some hashes →
      ChunksAgree hashes 0 (chunks (block f (c_checkpoint_dist * k))) (block old (c_checkpoint_dist * k))) :
    ∃ c', (copyChunks true chunk_hashes 0 (chunks (block f (c_checkpoint_dist * k))) (some c)).2 = some c' ∧
      CopiedTo true f old (k + 1) c' := by
  have hlen : (f.take (c_checkpoint_dist * k)).length = c_checkpoint_dist * k := by
    rw [List.length_take, Nat.min_eq_left hk]
  obtain ⟨c', hc', hwrote⟩ := copyChunks_wrote chunk_hashes 0 (block f (c_checkpoint_dist * k))
    (f.take (c_checkpoint_dist * k)) (old.drop (f.take (c_checkpoint_dist * k)).length) c h.content_eq h.copy_write_pos_eq
    (fun hashes hhashes => by
      rw [hlen]
      exact (chunksAgree_block hashes f old _).mp (hagree hashes hhashes))
  exact ⟨c', hc', copiedTo_succ hwrote (fun hmode => by cases hmode)⟩

end Copied

section Step

variable (d : Digests) (modify_inplace : Bool) (f : Bytes) (copy : Option Bytes) (start : Option Bytes)

/-- No false match in block `k`, where the old chunk hashes are used. -/
def BlockMatches (old : Bytes) (k : Nat) : Prop :=
  modify_inplace = true → ∀ hashes, oldHashes d old start (k + 1) = some hashes →
    NoFalseMatch hashes (block f (c_checkpoint_dist * k)) (block old (c_checkpoint_dist * k))

/-- The state of `build_chunk_hashs` after `k` blocks. -/
structure BuiltTo (k : Nat) (st : HasherState) : Prop where
  pos_eq : c_checkpoint_dist * k < f.length → st.pos = c_checkpoint_dist * k
  le_pos : f.length ≤ c_checkpoint_dist * k → f.length ≤ st.pos
  f_eq : c_checkpoint_dist * k < f.length → st.f = ⟨f, c_checkpoint_dist * k⟩
  hashoutput_eq : st.hashoutput = leBytes 8 f.length ++ ((pieces c_checkpoint_dist f).take k).flatMap (record d)
  hashoutputpos_eq : c_checkpoint_dist * k < f.length →
    st.hashoutputpos = chunkhash_file_off + chunkhash_single_size * k
  chunk_hashes_eq : st.chunk_hashes = oldHashes d (copy.getD []) start k
  extents_eq : st.extents.curr = none
  copy_max_sparse_eq : st.copy_max_sparse = none
  copy_eq : Option.Rel (CopiedTo modify_inplace f · k) copy st.copy

variable {d modify_inplace f copy start} {hashinput : Bytes} (hinput : start ≠ none → hashinput = chunkHashFile d (copy.getD []))
  (hsize : (copy.getD []).length < 2 ^ 63) (punch_hole : Bool) {k : Nat} {st : HasherState}

include hinput hsize

/-- One round: the block is hashed and copied, then checked. -/
theorem buildStep_stored (h : BuiltTo d modify_inplace f copy start k st) (hk : c_checkpoint_dist * k < f.length) :
    ∃ st' stored, st' = { st with chunk_hashes := oldHashes d (copy.getD []) start (k + 1) } ∧
      StoredBlock d modify_inplace (block f (c_checkpoint_dist * k)) st' stored ∧
      buildStep d modify_inplace punch_hole hashinput f.length st =
        checkControl d modify_inplace (c_checkpoint_dist * k) ((st.copy.map CopyState.copy_write_pos).getD 0)
          (copyBlock modify_inplace (block f (c_checkpoint_dist * k)) st').1 stored := by
  have hread := readChunkHashes_old hinput hsize (h.pos_eq hk) (h.hashoutputpos_eq hk) h.chunk_hashes_eq
  have hdense := buildStep_dense d modify_inplace punch_hole hashinput f.length h.extents_eq
  rw [hread] at hdense
  obtain ⟨stored, hstored, hblock⟩ := @hashDenseBlock_eq d modify_inplace f
    { st with chunk_hashes := oldHashes d (copy.getD []) start (k + 1) } _ (h.pos_eq hk) (h.f_eq hk)
  exact ⟨_, stored, rfl, hstored, hdense.trans hblock⟩

omit hinput hsize in
/-- The data of the control digest in a round with old chunk hashes. -/
theorem copyBlock_control {old : Bytes} {c : CopyState} (hcopy : CopiedTo true f old k c)
    (hk : c_checkpoint_dist * k ≤ f.length) {st : HasherState} (hst : st.copy = some c) {hashes : Bytes}
    (hhashes : st.chunk_hashes = some hashes) :
    (copyBlock true (block f (c_checkpoint_dist * k)) st).1 =
      controlData hashes 0 (chunks (block f (c_checkpoint_dist * k))) (block old (c_checkpoint_dist * k)) := by
  rw [copyBlock, hst, hhashes, ← controlData_block]
  exact copyChunks_control hashes 0 _ _ c (hcopy.old_eq hk)

omit hinput hsize in
/-- The copy after a round without a false match. -/
theorem copyBlock_copied {old : Bytes} {c : CopyState} (hcopy : CopiedTo modify_inplace f old k c)
    (hk : c_checkpoint_dist * k ≤ f.length) {st : HasherState} (hst : st.copy = some c)
    (hhashes : st.chunk_hashes = oldHashes d old start (k + 1)) (hok : BlockMatches d modify_inplace f start old k) :
    ∃ c', (copyBlock modify_inplace (block f (c_checkpoint_dist * k)) st).2 = some c' ∧
      CopiedTo modify_inplace f old (k + 1) c' := by
  cases modify_inplace with
  | false =>
    refine ⟨c.putWhole (block f (c_checkpoint_dist * k)), ?_, hcopy.putWhole⟩
    rw [copyBlock, hst, copyChunks_whole]
    rfl
  | true =>
    rw [copyBlock, hst]
    refine hcopy.copyChunks hk fun hashes hsome => ?_
    have hmatch := (noFalseMatch_iff hashes _ _).mp (hok rfl hashes (hhashes.symm.trans hsome))
    exact ((controlData_eq_iff hashes 0 _ _).mp hmatch).2

omit hinput hsize in
/-- After a block without a false match the check passes. -/
theorem checkControl_passes {start_pos copy_write_pos_start : Nat} {control : Bytes} {stored : HasherState}
    (h : ∀ hashes, modify_inplace = true → stored.copy ≠ none → stored.chunk_hashes = some hashes →
      d.md5 control = hashes.take big_hash_size) :
    checkControl d modify_inplace start_pos copy_write_pos_start control stored = stored := by
  unfold checkControl
  split
  · next hcopy hhashes =>
    rw [if_neg]
    rintro ⟨hmode, hne⟩
    exact hne (h _ hmode (by simp [hcopy]) hhashes)
  · rfl

omit hinput hsize in
theorem checkControl_fails {start_pos copy_write_pos_start : Nat} {control : Bytes} {stored : HasherState} {c : CopyState}
    {hashes : Bytes} (hcopy : stored.copy = some c) (hhashes : stored.chunk_hashes = some hashes)
    (hne : d.md5 control ≠ hashes.take big_hash_size) :
    (checkControl d true start_pos copy_write_pos_start control stored).pos = start_pos := by
  unfold checkControl
  rw [hcopy, hhashes]
  simp only [true_and]
  rw [if_pos hne]

/-- A block without a false match is done. -/
theorem BuiltTo.step (h : BuiltTo d modify_inplace f copy start k st) (hk : c_checkpoint_dist * k < f.length)
    (hok : BlockMatches d modify_inplace f start (copy.getD []) k) :
    BuiltTo d modify_inplace f copy start (k + 1) (buildStep d modify_inplace punch_hole hashinput f.length st) := by
  obtain ⟨st', stored, hst', hstored, hstep⟩ := buildStep_stored hinput hsize punch_hole h hk
  have hhashes : st'.chunk_hashes = oldHashes d (copy.getD []) start (k + 1) := by rw [hst']
  have hrel : Option.Rel (CopiedTo modify_inplace f · k) copy st'.copy := by
    rw [hst']
    exact h.copy_eq
  have hcopied : Option.Rel (CopiedTo modify_inplace f · (k + 1)) copy stored.copy := by
    rw [hstored.copy_eq]
    generalize hcopy : st'.copy = target at hrel
    cases hrel with
    | none =>
      have hnone : (copyBlock modify_inplace (block f (c_checkpoint_dist * k)) st').2 = none := by
        simp only [copyBlock, hcopy, copyChunks_none]
        split <;> rfl
      rw [hnone]
      exact Option.Rel.none
    | some hc =>
      obtain ⟨c', hc', hcopied⟩ := copyBlock_copied hc (Nat.le_of_lt hk) hcopy hhashes hok
      rw [hc']
      exact Option.Rel.some hcopied
  have hpass : buildStep d modify_inplace punch_hole hashinput f.length st = stored := by
    rw [hstep]
    refine checkControl_passes fun hashes hmode hsome hread => ?_
    generalize hcopy : st'.copy = target at hrel
    subst hmode
    cases hrel with
    | none =>
      cases hst : stored.copy with
      | none => exact absurd hst hsome
      | some c =>
        rw [hst] at hcopied
        cases hcopied
    | some hc =>
      rw [hstored.chunk_hashes_eq] at hread
      have hold := hhashes.symm.trans hread
      rw [copyBlock_control hc (Nat.le_of_lt hk) hcopy hread, oldHashes_digest hold]
      exact congrArg d.md5 ((noFalseMatch_iff hashes _ _).mp (hok rfl hashes hold))
  have hcount : (chunks (block f (c_checkpoint_dist * k))).length =
      ((block f (c_checkpoint_dist * k)).length + c_small_hash_dist - 1) / c_small_hash_dist := length_chunks _
  have hC : c_checkpoint_dist * (k + 1) = c_checkpoint_dist * k + c_checkpoint_dist := Nat.mul_succ _ _
  have hs : c_small_hash_dist = 4096 := rfl
  have hdist : c_checkpoint_dist = 524288 := rfl
  have hpos : st'.pos = c_checkpoint_dist * k := by
    rw [hst']
    exact h.pos_eq hk
  rw [hpass]
  refine ⟨fun hlt => ?_, fun hle => ?_, fun hlt => ?_, ?_, fun hlt => ?_, ?_, ?_, ?_, hcopied⟩
  · rw [hstored.pos_eq, hcount, length_block (Nat.le_of_lt hlt), hpos, hC]
    rfl
  · rw [hstored.pos_eq, hcount, hpos, block, length_slice, hs]
    omega
  · rw [hstored.f_eq, length_block (Nat.le_of_lt hlt), hC, hst']
    dsimp only
    rw [h.f_eq hk]
  · rw [hstored.hashoutput_eq, pieces_take_succ hk, List.flatMap_append, List.flatMap_singleton, ← List.append_assoc,
      hst']
    exact congrArg (· ++ _) h.hashoutput_eq
  · rw [hstored.hashoutputpos_eq, length_record, hcount, length_block (Nat.le_of_lt hlt), Nat.mul_succ, hst']
    dsimp only
    rw [h.hashoutputpos_eq hk, Nat.add_assoc]
    rfl
  · rw [hstored.chunk_hashes_eq, hhashes]
  · rw [hstored.extents_eq, hst']
    exact h.extents_eq
  · rw [hstored.copy_max_sparse_eq, hst']
    exact h.copy_max_sparse_eq

/-- Without a false match the loop ends with every block done. -/
theorem BuiltTo.run (h : BuiltTo d modify_inplace f copy start k st)
    (hok : ∀ j, c_checkpoint_dist * j < f.length → BlockMatches d modify_inplace f start (copy.getD []) j) :
    ∃ n, f.length ≤ c_checkpoint_dist * n ∧ BuiltTo d modify_inplace f copy start n
      (buildLoop d modify_inplace punch_hole hashinput f.length st) := by
  induction hm : f.length - c_checkpoint_dist * k using Nat.strongRecOn generalizing k st with
  | ind m ih =>
    rw [buildLoop]
    by_cases hk : c_checkpoint_dist * k < f.length
    · rw [dif_pos (by rw [h.pos_eq hk]; exact hk)]
      refine ih (f.length - c_checkpoint_dist * (k + 1)) ?_ (h.step hinput hsize punch_hole hk (hok k hk)) rfl
      have := checkpoint_pos
      rw [Nat.mul_succ]
      omega
    · rw [dif_neg (by have := h.le_pos (by omega); omega)]
      exact ⟨k, by omega, h⟩

end Step

section Collision

variable (d : Digests) (f old : Bytes) (start : Option Bytes) (k : Nat)

/-- The digest tells the control data of a block from the old block. -/
def DigestTells : Prop :=
  ∀ hashes, oldHashes d old start (k + 1) = some hashes →
    let control := controlData hashes 0 (chunks (block f (c_checkpoint_dist * k))) (block old (c_checkpoint_dist * k))
    d.md5 control = d.md5 (block old (c_checkpoint_dist * k)) → control = block old (c_checkpoint_dist * k)

variable {d f old start k} {modify_inplace : Bool} {hashinput : Bytes} (hinput : start ≠ none → hashinput = chunkHashFile d old)
  (hsize : old.length < 2 ^ 63) (punch_hole : Bool) {st : HasherState}

include hinput hsize

/-- A false match puts the position back to the block that was just hashed. -/
theorem BuiltTo.step_back (h : BuiltTo d modify_inplace f (some old) start k st) (hk : c_checkpoint_dist * k < f.length)
    (htells : DigestTells d f old start k) (hbad : ¬ BlockMatches d modify_inplace f start old k) :
    let next := buildStep d modify_inplace punch_hole hashinput f.length st
    next.pos = c_checkpoint_dist * k ∧ next.extents.curr = none ∧
      next.hashoutput.length = st.hashoutput.length + (record d (block f (c_checkpoint_dist * k))).length := by
  obtain ⟨st', stored, hst', hstored, hstep⟩ := @buildStep_stored d modify_inplace f (some old) start hashinput hinput hsize punch_hole k st h hk
  have hhashes' : st'.chunk_hashes = oldHashes d old start (k + 1) := by rw [hst']; rfl
  unfold BlockMatches at hbad
  push Not at hbad
  obtain ⟨rfl, hashes, hhashes, hfalse⟩ := hbad
  have hread : st'.chunk_hashes = some hashes := hhashes'.trans hhashes
  have hrel : Option.Rel (CopiedTo true f · k) (some old) st'.copy := by
    rw [hst']
    exact h.copy_eq
  generalize hcopy : st'.copy = target at hrel
  cases hrel with
  | @some _ c hc =>
    have hcontrol := copyBlock_control hc (Nat.le_of_lt hk) hcopy hread
    have hne : d.md5 (copyBlock true (block f (c_checkpoint_dist * k)) st').1 ≠ hashes.take big_hash_size := by
      rw [hcontrol, oldHashes_digest hhashes]
      intro hsame
      exact hfalse ((noFalseMatch_iff hashes _ _).mpr (htells hashes hhashes hsame))
    obtain ⟨c', hc'⟩ : ∃ c', stored.copy = some c' := by
      rw [hstored.copy_eq, copyBlock, hcopy, hread]
      exact copyChunks_some hashes 0 _ c
    obtain ⟨hout, hextents, _⟩ := checkControl_output d true (c_checkpoint_dist * k)
      ((st.copy.map CopyState.copy_write_pos).getD 0) (copyBlock true (block f (c_checkpoint_dist * k)) st').1 stored
    rw [hstep]
    refine ⟨checkControl_fails hc' (hstored.chunk_hashes_eq.trans hread) hne, ?_, ?_⟩
    · rw [hextents, hstored.extents_eq, hst']
      exact h.extents_eq
    · rw [hout, hstored.hashoutput_eq, List.length_append, hst']

/-- After a false match the chunk hashes are too long. -/
theorem BuiltTo.run_too_long (h : BuiltTo d modify_inplace f (some old) start k st)
    (htells : ∀ j, DigestTells d f old start j)
    (hbad : ∃ j, k ≤ j ∧ c_checkpoint_dist * j < f.length ∧ ¬ BlockMatches d modify_inplace f start old j) :
    get_hashdata_size f.length < (buildLoop d modify_inplace punch_hole hashinput f.length st).hashoutput.length := by
  obtain ⟨j, hkj, hj, hfalse⟩ := hbad
  induction hm : j - k using Nat.strongRecOn generalizing k st with
  | ind m ih =>
    have hk : c_checkpoint_dist * k < f.length := Nat.lt_of_le_of_lt (Nat.mul_le_mul_left _ hkj) hj
    rw [buildLoop, dif_pos (by rw [h.pos_eq hk]; exact hk)]
    by_cases hok : BlockMatches d modify_inplace f start old k
    · have hne : k ≠ j := by
        rintro rfl
        exact hfalse hok
      exact ih (j - (k + 1)) (by omega) (@BuiltTo.step d modify_inplace f (some old) start hashinput hinput hsize punch_hole k st h hk hok) (by omega) rfl
    · obtain ⟨hpos, hextents, hout⟩ := BuiltTo.step_back hinput hsize punch_hole h hk (htells k) hok
      have hrest := buildLoop_output d modify_inplace punch_hole hashinput f.length _ hextents
      have hbefore : st.hashoutput.length = 8 + chunkhash_single_size * k := by
        rw [h.hashoutput_eq, List.length_append, length_leBytes, length_records_before d hk]
      rw [hout, hpos, hbefore, length_record] at hrest
      rw [get_hashdata_size_blocks k (Nat.le_of_lt hk)]
      dsimp only
      omega

end Collision

section Whole

variable (d : Digests) (f : Bytes)

theorem initialState_builtTo (modify_inplace : Bool) (copy hashinput : Option Bytes) (unset : Bytes)
    (hashf : Option HashFunc) :
    BuiltTo d modify_inplace f copy (hashinput.map fun _ => unset) 0
      (initialState f copy hashinput unset hashf []) := by
  refine ⟨fun _ => rfl, fun h => h, fun _ => rfl, by simp [initialState], fun _ => rfl, rfl, rfl, rfl, ?_⟩
  cases copy with
  | none => exact Option.Rel.none
  | some old => exact Option.Rel.some ⟨by simp, by simp, fun _ => by simp⟩

/-- All records are there once all blocks are done. -/
theorem BuiltTo.hashoutput_all {d : Digests} {f : Bytes} {modify_inplace : Bool} {copy start : Option Bytes} {n : Nat}
    {st : HasherState} (h : BuiltTo d modify_inplace f copy start n st) (hn : f.length ≤ c_checkpoint_dist * n) :
    st.hashoutput = chunkHashFile d f := by
  have hend : (pieces c_checkpoint_dist f).length ≤ n := by
    have := lt_length_pieces checkpoint_pos f n
    omega
  rw [h.hashoutput_eq, List.take_of_length_le hend, chunkHashFile]

/-- Without old chunk hashes there is nothing to match. -/
theorem blockMatches_none (modify_inplace : Bool) (old : Bytes) (k : Nat) :
    BlockMatches d modify_inplace f none old k := by
  intro _ hashes hsome
  rw [oldHashes_none] at hsome
  cases hsome

/-- Without a copy and old chunk hashes the records of all blocks are produced. -/
theorem build_chunk_hashs_plain (modify_inplace : Bool) (unset : Bytes) (hashf : Option HashFunc) (punch_hole : Bool) :
    (build_chunk_hashs d f none modify_inplace none unset hashf [] punch_hole).map BuildResult.hashoutput =
      some (chunkHashFile d f) := by
  obtain ⟨n, hn, hdone⟩ := @BuiltTo.run d modify_inplace f none none [] (fun hne => absurd rfl hne) (by simp) punch_hole 0 _
    (initialState_builtTo d f modify_inplace none none unset hashf) (fun j _ => blockMatches_none d f modify_inplace _ j)
  exact congrArg some (hdone.hashoutput_all hn)

/-- Chunk hashes that are what `build_chunk_hashs` made for a file. -/
def TruthfulHashes (old : Bytes) (hashinput : Option Bytes) : Prop :=
  ∀ hashes, hashinput = some hashes →
    (build_chunk_hashs d old none false none [] none [] false).map BuildResult.hashoutput = some hashes

/-- `build_chunk_hashs` succeeds, the copy begins with the file's data, and the
chunk hashes are the ones that it makes without a copy, of the right size. -/
def CopiesAndHashes (old : Bytes) (modify_inplace : Bool) (hashinput : Option Bytes) (unset : Bytes)
    (hashf : Option HashFunc) (punch_hole : Bool) : Prop :=
  ∃ result plain copied, build_chunk_hashs d f (some old) modify_inplace hashinput unset hashf [] punch_hole = some result ∧
    build_chunk_hashs d f none modify_inplace none unset hashf [] punch_hole = some plain ∧
    result.copy = some copied ∧ copied.take f.length = f ∧ result.hashoutput = plain.hashoutput ∧
    result.hashoutput.length = get_hashdata_size f.length

variable {d f} {old : Bytes} {modify_inplace : Bool} {hashinput : Option Bytes} {unset : Bytes}

/-- What truthful chunk hashes are. -/
theorem TruthfulHashes.input_eq (h : TruthfulHashes d old hashinput) :
    ((hashinput.map fun _ => unset) ≠ none → hashinput.getD [] = chunkHashFile d old) ∧
      hashinput.any (·.length < 8) = false := by
  cases hashinput with
  | none => exact ⟨fun hne => absurd rfl hne, rfl⟩
  | some hashes =>
    have hhashes := h hashes rfl
    rw [build_chunk_hashs_plain] at hhashes
    cases hhashes
    refine ⟨fun _ => rfl, ?_⟩
    simp [chunkHashFile]

theorem build_chunk_hashs_copy (h : TruthfulHashes d old hashinput) (hashf : Option HashFunc) (punch_hole : Bool) :
    let st := buildLoop d modify_inplace punch_hole (hashinput.getD []) f.length
      (initialState f (some old) hashinput unset hashf [])
    ∃ result, build_chunk_hashs d f (some old) modify_inplace hashinput unset hashf [] punch_hole = some result ∧
      result.hashoutput = st.hashoutput ∧
      ∀ c, st.copy = some c → st.copy_max_sparse = none → result.copy = some c.file.content := by
  unfold build_chunk_hashs
  rw [(@TruthfulHashes.input_eq d old hashinput unset h).2, if_neg (by simp)]
  refine ⟨_, rfl, rfl, fun c hcopy hmax => ?_⟩
  dsimp only
  rw [hcopy, hmax]
  rfl

/-- Without a false match the copy and the chunk hashes are right. -/
theorem copiesAndHashes_of_matches (h : TruthfulHashes d old hashinput) (hsize : old.length < 2 ^ 63)
    (hok : ∀ k, c_checkpoint_dist * k < f.length →
      BlockMatches d modify_inplace f (hashinput.map fun _ => unset) old k)
    (hashf : Option HashFunc) (punch_hole : Bool) :
    CopiesAndHashes d f old modify_inplace hashinput unset hashf punch_hole := by
  obtain ⟨result, hresult, hout, hcopy⟩ := build_chunk_hashs_copy h hashf punch_hole
  obtain ⟨plain, hplain, hplainout⟩ :=
    Option.map_eq_some_iff.mp (build_chunk_hashs_plain d f modify_inplace unset hashf punch_hole)
  obtain ⟨n, hn, hdone⟩ := @BuiltTo.run d modify_inplace f (some old) (hashinput.map fun _ => unset) (hashinput.getD [])
    h.input_eq.1 hsize punch_hole 0 _ (initialState_builtTo d f modify_inplace (some old) hashinput unset hashf) hok
  have hall := hdone.hashoutput_all hn
  have hrel := hdone.copy_eq
  generalize hst : (buildLoop d modify_inplace punch_hole (hashinput.getD []) f.length
    (initialState f (some old) hashinput unset hashf [])).copy = target at hrel
  cases hrel with
  | @some _ c hc =>
    refine ⟨result, plain, _, hresult, hplain, hcopy c hst hdone.copy_max_sparse_eq, ?_, ?_, ?_⟩
    · rw [hc.content_eq, List.take_of_length_le hn, List.take_left]
    · rw [hout, hall, hplainout]
    · rw [hout, hall, length_chunkHashFile]

/-- With a false match the chunk hashes are too long. -/
theorem not_copiesAndHashes (h : TruthfulHashes d old hashinput) (hsize : old.length < 2 ^ 63)
    (htells : ∀ k, DigestTells d f old (hashinput.map fun _ => unset) k)
    (hbad : ∃ k, c_checkpoint_dist * k < f.length ∧
      ¬ BlockMatches d modify_inplace f (hashinput.map fun _ => unset) old k)
    (hashf : Option HashFunc) (punch_hole : Bool) :
    ¬ CopiesAndHashes d f old modify_inplace hashinput unset hashf punch_hole := by
  rintro ⟨result, plain, copied, hresult, _, _, _, _, hlen⟩
  obtain ⟨result', hresult', hout, _⟩ :=
    @build_chunk_hashs_copy d f old modify_inplace hashinput unset h hashf punch_hole
  cases hresult.symm.trans hresult'
  obtain ⟨k, hk, hfalse⟩ := hbad
  have hlong := @BuiltTo.run_too_long d f old (hashinput.map fun _ => unset) 0 modify_inplace (hashinput.getD [])
    h.input_eq.1 hsize punch_hole _ (initialState_builtTo d f modify_inplace (some old) hashinput unset hashf) htells
    ⟨k, Nat.zero_le k, hk, hfalse⟩
  rw [hout] at hlen
  omega

/-- `build_chunk_hashs` with a copy target does what it does without one
exactly if no block has a false match in the old chunk hashes. -/
theorem build_chunk_hashs_inplace_iff (d : Digests) (f old : Bytes) (modify_inplace : Bool) (hashinput : Option Bytes)
    (unset : Bytes) (hashf : Option HashFunc) (punch_hole : Bool) (hsize : old.length < 2 ^ 63)
    (htruthful : TruthfulHashes d old hashinput)
    (htells : ∀ k, DigestTells d f old (hashinput.map fun _ => unset) k) :
    CopiesAndHashes d f old modify_inplace hashinput unset hashf punch_hole ↔
      ∀ k, c_checkpoint_dist * k < f.length →
        BlockMatches d modify_inplace f (hashinput.map fun _ => unset) old k := by
  constructor
  · intro hcopies k hk
    by_contra hfalse
    exact not_copiesAndHashes htruthful hsize htells ⟨k, hk, hfalse⟩ hashf punch_hole hcopies
  · exact fun hok => copiesAndHashes_of_matches htruthful hsize hok hashf punch_hole

/-- MD5 on zeros, for the lengths that are used below. -/
def zeroDigests : Digests where
  md5 data := leBytes 16 (
    if data.length = 4097 then 176365389410801097005358923390021923297
    else if data.length = 4096 then 21856232426354311597347370176980127586
    else if data.length = 1 then 151032665181102818714297430806108682387
    else 167830467844043968176572005485231480276)
  sha512 _ := List.replicate 64 0
  length_md5 _ := length_leBytes _ _

theorem truthful_chunkHashFile (d : Digests) (old : Bytes) : TruthfulHashes d old (some (chunkHashFile d old)) := by
  rintro hashes ⟨⟩
  exact build_chunk_hashs_plain d old false [] none false

section Changed

variable {d : Digests} {head : Bytes} (hhead : head.length = c_small_hash_dist)

include hhead

theorem chunks_concat (x : UInt8) : chunks (head ++ [x]) = [head, [x]] := by
  rw [chunks_cons (by simp), List.take_left' hhead, List.drop_left' hhead, chunks_cons (by simp)]
  simp [chunks, c_small_hash_dist]

theorem block_concat (x : UInt8) : block (head ++ [x]) (c_checkpoint_dist * 0) = head ++ [x] := by
  rw [block, slice, Nat.mul_zero, List.drop_zero, List.take_of_length_le]
  rw [List.length_append, hhead, List.length_singleton]
  decide

/-- The checksums tell the last byte, and the chunk before it is the same. -/
theorem noFalseMatch_changed {start : Option Bytes} {k : Nat} {hashes : Bytes}
    (hread : oldHashes d (head ++ [1]) start (k + 1) = some hashes) :
    NoFalseMatch hashes (block (head ++ [2]) (c_checkpoint_dist * k)) (block (head ++ [1]) (c_checkpoint_dist * k)) := by
  obtain ⟨hlt, rest, rfl⟩ := oldHashes_succ hread
  obtain rfl : k = 0 := by
    rw [List.length_append, hhead, c_small_hash_dist, c_checkpoint_dist, List.length_singleton] at hlt
    omega
  rw [block_concat hhead, block_concat hhead, noFalseMatch_iff, chunks_concat hhead]
  have hstored : storedSmallHash (record d (head ++ [1]) ++ rest) 1 = leBytes 4 (urb_adler32 adler_init [1]) := by
    simp only [record, chunks_concat hhead, List.flatMap_cons, List.flatMap_nil, List.append_nil, List.append_assoc]
    rw [storedSmallHash, slice, ← List.append_assoc,
      List.drop_left' (by rw [List.length_append, d.length_md5, length_leBytes]; rfl)]
    exact List.take_left' (length_leBytes 4 _)
  have hdiffers : ¬ SameChecksum (record d (head ++ [1]) ++ rest) 1 [2] := by
    rw [SameChecksum, hstored]
    decide
  simp only [controlData, List.take_left' hhead, List.drop_left' hhead, ite_self, hdiffers, if_false, List.append_nil]
  rfl

end Changed

theorem build_chunk_hashs_inplace_changed :
    let d : Digests := ⟨md5.digestOf, sha2.sha512, fun _ => rfl⟩
    let head := List.replicate 4096 0
    let hashinput := some (chunkHashFile d (head ++ [1]))
    CopiesAndHashes d (head ++ [2]) (head ++ [1]) true hashinput (List.replicate 528 0) none false := by
  intro d head hashinput
  have hhead : head.length = c_small_hash_dist := List.length_replicate
  have hsize : (head ++ [1]).length < 2 ^ 63 := by
    rw [List.length_append, hhead, List.length_singleton]
    decide
  exact (build_chunk_hashs_inplace_iff d _ _ true hashinput _ none false hsize (truthful_chunkHashFile _ _)
    fun _ hashes hread _ => (noFalseMatch_iff hashes _ _).mp (noFalseMatch_changed hhead hread)).mpr
    fun _ _ _ _ hread => noFalseMatch_changed hhead hread

section Shrunk

variable {old : Bytes} (hold : old.length = 4097)

include hold

/-- A file that loses its second chunk: the control data lacks the old one. -/
theorem length_control_shrunk (hashes : Bytes) :
    let control := controlData hashes 0 (chunks (block [0] 0)) (block old 0)
    control.length = 1 ∨ control.length = 4096 := by
  have hblock : chunks (block [0] 0) = [[0]] := by
    show chunks [0] = _
    rw [chunks_cons (by simp)]
    simp [chunks, c_small_hash_dist]
  have hold' : (block old 0).length = 4097 := by
    rw [block, length_slice, hold]
    rfl
  rw [hblock]
  simp only [controlData, List.append_nil]
  split
  · exact Or.inl rfl
  · refine Or.inr ?_
    rw [List.length_take, hold']
    rfl

theorem digestTells_shrunk (start : Option Bytes) (k : Nat) : DigestTells zeroDigests [0] old start k := by
  intro hashes hread
  obtain rfl : k = 0 := by
    have hlt := (oldHashes_succ hread).1
    rw [hold, c_checkpoint_dist] at hlt
    omega
  have hblock : (block old 0).length = 4097 := by
    rw [block, length_slice, hold]
    rfl
  intro control hsame
  have hcontrol : control.length = 1 ∨ control.length = 4096 := length_control_shrunk hold hashes
  simp only [zeroDigests, Nat.mul_zero, hblock] at hsame
  obtain hlen | hlen := hcontrol
  · rw [hlen] at hsame
    exact absurd hsame (by decide)
  · rw [hlen] at hsame
    exact absurd hsame (by decide)

theorem not_blockMatches_shrunk (unset : Bytes) : ¬ BlockMatches zeroDigests true [0] (some unset) old 0 := by
  intro hmatches
  obtain ⟨hashes, hread⟩ : ∃ hashes, oldHashes zeroDigests old (some unset) 1 = some hashes := by
    rw [oldHashes, oldHashes, Option.bind_some, if_pos (by rw [hold]; decide)]
    exact ⟨_, rfl⟩
  have hcovers := (hmatches rfl _ hread).covers
  rw [length_chunks, length_chunks, block, block, length_slice, length_slice, hold] at hcovers
  exact absurd hcovers (by decide)

end Shrunk

theorem build_chunk_hashs_inplace_shrunk :
    let old := List.replicate 4097 0
    let hashinput := some (chunkHashFile zeroDigests old)
    let unset := List.replicate 528 0
    TruthfulHashes zeroDigests old hashinput ∧ (∀ k, DigestTells zeroDigests [0] old (hashinput.map fun _ => unset) k) ∧
      ¬ CopiesAndHashes zeroDigests [0] old true hashinput unset none false := by
  intro old hashinput unset
  have hold : old.length = 4097 := List.length_replicate
  have htells := digestTells_shrunk hold (hashinput.map fun _ => unset)
  refine ⟨truthful_chunkHashFile _ _, htells, ?_⟩
  exact not_copiesAndHashes (truthful_chunkHashFile _ _) (by rw [hold]; decide) htells
    ⟨0, by decide, not_blockMatches_shrunk hold unset⟩ none false

end Whole

end urbackup.chunkhash
