import UrBackup.ChunkHash.CopyChunks
import UrBackup.ChunkHash.ChunkHashFile

namespace urbackup.chunkhash

open stringtools filedata

/-- A whole block written to the copy. -/
def CopyState.putWhole (c : CopyState) (data : Bytes) : CopyState :=
  { c with file := c.file.Write data, copy_write_pos := c.copy_write_pos + data.length }

section Stored

variable (d : Digests) (modify_inplace : Bool) (data : Bytes) (st : HasherState)

/-- The control data of a block and the copy after it. -/
def copyBlock : Bytes × Option CopyState :=
  let copied := copyChunks modify_inplace st.chunk_hashes 0 (chunks data) st.copy
  (copied.1, if modify_inplace then copied.2 else copied.2.map (·.putWhole data))

/-- The state after a block's data was hashed and copied, before the check. -/
structure StoredBlock (stored : HasherState) : Prop where
  pos_eq : stored.pos = st.pos + c_small_hash_dist * (chunks data).length
  f_eq : stored.f = ⟨st.f.content, st.f.pos + data.length⟩
  hashoutput_eq : stored.hashoutput = st.hashoutput ++ record d data
  hashoutputpos_eq : stored.hashoutputpos = st.hashoutputpos + (record d data).length
  chunk_hashes_eq : stored.chunk_hashes = st.chunk_hashes
  copy_eq : stored.copy = (copyBlock modify_inplace data st).2
  extents_eq : stored.extents = st.extents
  copy_sparse_eq : stored.copy_sparse_extent_start = none
  copy_max_sparse_eq : stored.copy_max_sparse = st.copy_max_sparse
  hashf_eq : ∃ b : BlockState, b.big_hash = data ∧ b.all_zeros = buf_is_zero data ∧
    let hashed := st.hashf.map fun hashf => hashBlock d hashf st.sparse_extent_start st.pos b (record d data)
    stored.hashf = hashed.map Prod.fst ∧ stored.sparse_extent_start = (hashed.map Prod.snd).getD st.sparse_extent_start

end Stored

variable (d : Digests) (modify_inplace : Bool) {f : Bytes} {st : HasherState}

/-- A block that is read where the file stands: hashed and copied, then checked. -/
theorem hashDenseBlock_eq {p : Nat} (hpos : st.pos = p) (hf : st.f = ⟨f, p⟩) :
    ∃ stored, StoredBlock d modify_inplace (block f p) st stored ∧
      hashDenseBlock d modify_inplace f.length st =
        checkControl d modify_inplace p ((st.copy.map CopyState.copy_write_pos).getD 0)
          (copyBlock modify_inplace (block f p) st).1 stored := by
  obtain ⟨hidx, hbpos, hsmall, hbig, hcontrol, hzeros, hcopy⟩ := scanBlock_data modify_inplace hpos hf
  have hread := readBlock_eq hf
  obtain ⟨b, hb⟩ : ∃ b, scanBlock modify_inplace f.length (block f p).length (readBlock st).2 = b := ⟨_, rfl⟩
  simp only [hb] at hidx hbpos hsmall hbig hcontrol hzeros hcopy
  have hrecord : d.md5 b.big_hash ++ b.small_hash = record d (block f p) := by
    rw [hbig, hsmall]
    rfl
  refine ⟨storeBlock d modify_inplace (block f p) b (readBlock st).2, ?_, ?_⟩
  · constructor
    · show b.pos = _
      rw [hbpos, hpos]
    · show (readBlock st).2.f = _
      rw [hread, hf]
    · show (readBlock st).2.hashoutput ++ (d.md5 b.big_hash ++ b.small_hash) = _
      rw [hrecord, hread]
    · show (readBlock st).2.hashoutputpos + (big_hash_size + b.chunkidx * small_hash_size) = _
      rw [hidx, hread, length_record, Nat.mul_comm]
      rfl
    · show (readBlock st).2.chunk_hashes = _
      rw [hread]
    · show (if modify_inplace then b.copy else b.copy.map (·.putWhole (block f p))) = _
      rw [hcopy]
      rfl
    · show (readBlock st).2.extents = _
      rw [hread]
    · rfl
    · show (readBlock st).2.copy_max_sparse = _
      rw [hread]
    · refine ⟨b, hbig, hzeros, ?_⟩
      rw [← hrecord, hread]
      exact ⟨rfl, rfl⟩
  · have hdata : (readBlock st).1 = block f p := by rw [hread]
    rw [hashDenseBlock_checked, hdata, hb, hcontrol, hpos]
    rfl

section Output

variable (punch_hole : Bool) (hashinput : Bytes) (fsize : Nat)

theorem extents_none {x : Extents} (h : x.curr = none) (pos epos : Nat) :
    x.skipTo pos = x ∧ x.covering pos epos = none := by
  simp [Extents.skipTo, Extents.covering, h]

/-- Without holes every block is read. -/
theorem buildStep_dense (h : st.extents.curr = none) :
    buildStep d modify_inplace punch_hole hashinput fsize st =
      hashDenseBlock d modify_inplace fsize (readChunkHashes hashinput st) := by
  have hextents : (readChunkHashes hashinput st).extents.curr = none := h
  unfold buildStep
  generalize readChunkHashes hashinput st = st at hextents ⊢
  obtain ⟨hskip, hcovering⟩ := extents_none hextents st.pos (st.pos + c_checkpoint_dist)
  dsimp only
  rw [hskip, hcovering]

/-- The check changes nothing of the chunk hashes and the holes, and moves
the position back if it fails. -/
theorem checkControl_output (start_pos copy_write_pos_start : Nat) (control : Bytes) (st : HasherState) :
    let next := checkControl d modify_inplace start_pos copy_write_pos_start control st
    next.hashoutput = st.hashoutput ∧ next.extents = st.extents ∧ (next.pos = st.pos ∨ next.pos = start_pos) := by
  unfold checkControl
  split
  · split
    · exact ⟨rfl, rfl, Or.inr rfl⟩
    · exact ⟨rfl, rfl, Or.inl rfl⟩
  · exact ⟨rfl, rfl, Or.inl rfl⟩

/-- A block adds the chunk hashes of as many chunks as it has, whatever was
read. -/
theorem hashDenseBlock_output (st : HasherState) (h : st.pos < fsize) :
    let next := hashDenseBlock d modify_inplace fsize st
    ∃ n, next.hashoutput.length = st.hashoutput.length + (16 + 4 * n) ∧
      min c_checkpoint_dist (fsize - st.pos) ≤ c_small_hash_dist * n ∧
      c_small_hash_dist * n < min c_checkpoint_dist (fsize - st.pos) + c_small_hash_dist ∧
      next.extents = st.extents ∧ (next.pos = st.pos + c_small_hash_dist * n ∨ next.pos = st.pos) := by
  have hC := checkpoint_pos
  rw [hashDenseBlock_checked]
  obtain ⟨b, hb⟩ : ∃ b, scanBlock modify_inplace fsize (readBlock st).1.length (readBlock st).2 = b := ⟨_, rfl⟩
  rw [hb]
  obtain ⟨n, hidx, hpos, hsmall, hge, hlt⟩ := chunkLoop_counts modify_inplace st.chunk_hashes (readBlock st).2.buf
    (readBlock st).1.length (st.pos + c_checkpoint_dist) fsize ⟨st.pos, 0, [], [], [], 0, true, st.sha_buf, st.copy⟩
  have hscan : chunkLoop modify_inplace st.chunk_hashes (readBlock st).2.buf
    (readBlock st).1.length (st.pos + c_checkpoint_dist) fsize ⟨st.pos, 0, [], [], [], 0, true, st.sha_buf, st.copy⟩ = b :=
    hb
  rw [hscan] at hidx hpos hsmall hge hlt
  dsimp only at hidx hpos hsmall
  have hn : 0 < n := by
    apply Nat.pos_of_ne_zero
    intro hzero
    rw [hpos, hzero] at hge
    exact absurd (Nat.lt_min.mpr ⟨Nat.lt_add_of_pos_right hC, h⟩) (Nat.not_lt.mpr hge)
  have hlast := hlt hn
  obtain ⟨hout, hextents, hcheck⟩ := checkControl_output d modify_inplace st.pos ((st.copy.map CopyState.copy_write_pos).getD 0)
    b.big_hash_copy_control (storeBlock d modify_inplace (readBlock st).1 b (readBlock st).2)
  refine ⟨n, ?_, by omega, by omega, ?_, ?_⟩
  · rw [hout]
    show (st.hashoutput ++ (d.md5 b.big_hash ++ b.small_hash)).length = _
    simp only [List.length_append, d.length_md5, hsmall, List.length_nil, Nat.zero_add]
  · rw [hextents]
    rfl
  · rw [← hpos]
    exact hcheck

/-- The loop adds at least the chunk hashes of what is left of the file. -/
theorem buildLoop_output (st : HasherState) (hextents : st.extents.curr = none) :
    st.hashoutput.length + get_hashdata_size (fsize - st.pos) ≤
      (buildLoop d modify_inplace punch_hole hashinput fsize st).hashoutput.length + 8 := by
  fun_induction buildLoop d modify_inplace punch_hole hashinput fsize st with
  | case1 st hpos _ ih =>
    rw [buildStep_dense d modify_inplace punch_hole hashinput fsize hextents] at ih ⊢
    obtain ⟨n, hout, hge, hlt, hext, hnext⟩ :=
      hashDenseBlock_output d modify_inplace fsize (readChunkHashes hashinput st) hpos
    have hrest := ih (by rw [hext]; exact hextents)
    have hsize := get_hashdata_size_rest (Nat.sub_pos_of_lt hpos) hge hlt
    rw [hout] at hrest
    change st.hashoutput.length + (16 + 4 * n) + _ ≤ _ at hrest
    obtain hnext | hnext := hnext
    · rw [hnext] at hrest
      change _ + get_hashdata_size (fsize - (st.pos + _)) ≤ _ at hrest
      rw [show fsize - st.pos - c_small_hash_dist * n = fsize - (st.pos + c_small_hash_dist * n) by omega] at hsize
      omega
    · rw [hnext] at hrest
      change _ + get_hashdata_size (fsize - st.pos) ≤ _ at hrest
      omega
  | case2 st hpos =>
    rw [show fsize - st.pos = 0 by omega]
    exact Nat.le_refl _

end Output

end urbackup.chunkhash
