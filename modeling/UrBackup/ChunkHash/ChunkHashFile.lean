import UrBackup.ChunkHash.BlockHash
import UrBackup.ChunkHash.ChunkHasher

namespace urbackup.chunkhash

open stringtools filedata

theorem checkpoint_pos : 0 < c_checkpoint_dist := by decide

/-- The bytes of a file from a block's position on. -/
def block (f : Bytes) (pos : Nat) : Bytes :=
  slice f pos c_checkpoint_dist

section Counts

variable (modify_inplace : Bool) (chunk_hashes : Option Bytes) (buf : Bytes) (cread epos fsize : Nat)

/-- The loop over the chunks counts its rounds, whatever the data is. -/
theorem chunkLoop_counts (b : BlockState) :
    let result := chunkLoop modify_inplace chunk_hashes buf cread epos fsize b
    ∃ n, result.chunkidx = b.chunkidx + n ∧ result.pos = b.pos + c_small_hash_dist * n ∧
      result.small_hash.length = b.small_hash.length + 4 * n ∧ min epos fsize ≤ result.pos ∧
      (0 < n → result.pos < min epos fsize + c_small_hash_dist) := by
  fun_induction chunkLoop with
  | case1 b hb ih =>
    obtain ⟨n, hidx, hpos, hsmall, hend, hlast⟩ := ih
    refine ⟨n + 1, ?_, ?_, ?_, hend, ?_⟩
    · rw [hidx]
      simp only [chunkStep]
      omega
    · rw [hpos]
      simp only [chunkStep]
      rw [Nat.mul_succ]
      omega
    · rw [hsmall]
      simp only [chunkStep, List.length_append, length_leBytes]
      omega
    · intro _
      by_cases hn : 0 < n
      · exact hlast hn
      · rw [hpos, show n = 0 by omega]
        simp only [chunkStep]
        omega
  | case2 b hb =>
    refine ⟨0, rfl, rfl, rfl, by omega, fun h => absurd h (Nat.lt_irrefl 0)⟩

end Counts

section Data

variable (modify_inplace : Bool) (chunk_hashes : Option Bytes)

/-- What the chunks of a block do to the control digest and the copy. -/
def copyChunks : Nat → List Bytes → Option CopyState → Bytes × Option CopyState
  | _, [], copy => ([], copy)
  | chunkidx, chunk :: rest, copy =>
    let (control, copy) := copyChunk modify_inplace chunk_hashes chunkidx
      (leBytes 4 (urb_adler32 adler_init chunk)) chunk copy
    let (control', copy) := copyChunks (chunkidx + 1) rest copy
    (control ++ control', copy)

/-- The checksums of chunks as they are stored. -/
def smallHashes (cs : List Bytes) : Bytes :=
  cs.flatMap fun chunk => leBytes 4 (urb_adler32 adler_init chunk)

/-- The state of the loop after `i` chunks of a block. -/
structure ScanAt (start_pos i : Nat) (b : BlockState) : Prop where
  pos_eq : b.pos = start_pos + c_small_hash_dist * i
  chunkidx_eq : b.chunkidx = i
  buf_off_eq : b.buf_off = c_small_hash_dist * i

variable {modify_inplace chunk_hashes} {data : Bytes} {start_pos : Nat}

/-- The data of a chunk within the block that was read. -/
theorem chunkStep_data (tail : Bytes) (hlen : data.length ≤ c_checkpoint_dist) {i : Nat} {b : BlockState}
    (hscan : ScanAt start_pos i b) (hi : c_small_hash_dist * i < data.length) :
    let chunk := slice data (c_small_hash_dist * i) c_small_hash_dist
    let next := chunkStep modify_inplace chunk_hashes (data ++ tail) data.length b
    let copied := copyChunk modify_inplace chunk_hashes i (leBytes 4 (urb_adler32 adler_init chunk)) chunk b.copy
    ScanAt start_pos (i + 1) next ∧
      next.small_hash = b.small_hash ++ leBytes 4 (urb_adler32 adler_init chunk) ∧ next.big_hash = b.big_hash ++ chunk ∧
      next.big_hash_copy_control = b.big_hash_copy_control ++ copied.1 ∧
      next.all_zeros = (b.all_zeros && buf_is_zero chunk) ∧ next.copy = copied.2 := by
  obtain ⟨hpos, hidx, hoff⟩ := hscan
  have hr : (data.length + 2 ^ 64 - b.buf_off) % 2 ^ 64 % 2 ^ 32 = data.length - c_small_hash_dist * i := by
    rw [hoff]
    simp only [c_checkpoint_dist] at hlen
    omega
  have hdata : slice (data ++ tail) b.buf_off
      (min c_small_hash_dist ((data.length + 2 ^ 64 - b.buf_off) % 2 ^ 64 % 2 ^ 32)) =
      slice data (c_small_hash_dist * i) c_small_hash_dist := by
    rw [hr, hoff, slice_append_left tail (by omega), slice_min]
  dsimp only [chunkStep]
  rw [hdata, hidx]
  refine ⟨⟨?_, rfl, ?_⟩, rfl, rfl, rfl, rfl, rfl⟩
  · show b.pos + c_small_hash_dist = _
    rw [hpos, Nat.mul_succ, Nat.add_assoc]
  · show b.buf_off + c_small_hash_dist = _
    rw [hoff, Nat.mul_succ]

theorem buf_is_zero_append (xs ys : Bytes) : buf_is_zero (xs ++ ys) = (buf_is_zero xs && buf_is_zero ys) := by
  simp [buf_is_zero]

/-- The loop over the chunks of a block that was read. -/
theorem chunkLoop_data (tail : Bytes) (hlen : data.length ≤ c_checkpoint_dist) {fsize : Nat}
    (hend : data.length = min c_checkpoint_dist (fsize - start_pos)) (i : Nat) (b : BlockState)
    (hscan : ScanAt start_pos i b) :
    let rest := data.drop (c_small_hash_dist * i)
    let result := chunkLoop modify_inplace chunk_hashes (data ++ tail) data.length (start_pos + c_checkpoint_dist) fsize b
    let copied := copyChunks modify_inplace chunk_hashes i (chunks rest) b.copy
    result.chunkidx = i + (chunks rest).length ∧ result.pos = start_pos + c_small_hash_dist * (i + (chunks rest).length) ∧
      result.small_hash = b.small_hash ++ smallHashes (chunks rest) ∧ result.big_hash = b.big_hash ++ rest ∧
      result.big_hash_copy_control = b.big_hash_copy_control ++ copied.1 ∧
      result.all_zeros = (b.all_zeros && buf_is_zero rest) ∧ result.copy = copied.2 := by
  have hs : 0 < c_small_hash_dist := by decide
  induction hm : data.length - c_small_hash_dist * i using Nat.strongRecOn generalizing i b with
  | ind m ih =>
    dsimp only
    rw [chunkLoop]
    by_cases hi : c_small_hash_dist * i < data.length
    · rw [if_pos (by rw [hscan.pos_eq]; omega)]
      obtain ⟨hnext, hsmall, hbig, hcontrol, hzeros, hcopy⟩ :=
        @chunkStep_data modify_inplace chunk_hashes _ _ tail hlen _ _ hscan hi
      generalize chunkStep modify_inplace chunk_hashes (data ++ tail) data.length b = next at *
      obtain ⟨ridx, rpos, rsmall, rbig, rcontrol, rzeros, rcopy⟩ :=
        ih (data.length - c_small_hash_dist * (i + 1)) (by rw [Nat.mul_succ]; omega) (i + 1) next hnext rfl
      have hchunks : chunks (data.drop (c_small_hash_dist * i)) = slice data (c_small_hash_dist * i) c_small_hash_dist ::
          chunks (data.drop (c_small_hash_dist * (i + 1))) := by
        rw [Nat.mul_succ]
        exact pieces_drop hs hi
      have hrest : data.drop (c_small_hash_dist * i) = slice data (c_small_hash_dist * i) c_small_hash_dist ++
          data.drop (c_small_hash_dist * (i + 1)) := by
        rw [Nat.mul_succ, ← List.drop_drop]
        exact (List.take_append_drop _ _).symm
      rw [hchunks]
      refine ⟨?_, ?_, ?_, ?_, ?_, ?_, ?_⟩
      · rw [ridx, List.length_cons]
        omega
      · rw [rpos, List.length_cons]
        congr 2
        omega
      · rw [rsmall, hsmall, List.append_assoc]
        rfl
      · rw [rbig, hbig, hrest, List.append_assoc]
      · rw [rcontrol, hcontrol, hcopy, List.append_assoc]
        rfl
      · rw [rzeros, hzeros, hrest, buf_is_zero_append, Bool.and_assoc]
      · rw [rcopy, hcopy]
        rfl
    · rw [if_neg (by rw [hscan.pos_eq]; omega), List.drop_eq_nil_of_le (by omega)]
      simp [chunks, copyChunks, smallHashes, buf_is_zero, hscan.chunkidx_eq, hscan.pos_eq]

end Data

section Block

variable (modify_inplace : Bool) {f : Bytes} {st : HasherState}

theorem readBlock_eq {p : Nat} (hf : st.f = ⟨f, p⟩) :
    readBlock st = (block f p, { st with
      f := ⟨f, p + (block f p).length⟩
      buf := block f p ++ st.buf.drop (block f p).length }) := by
  simp only [readBlock, IFile.Read, hf]
  rfl

/-- A block that is read where the file stands. -/
theorem scanBlock_data {p : Nat} (hpos : st.pos = p) (hf : st.f = ⟨f, p⟩) :
    let b := scanBlock modify_inplace f.length (block f p).length (readBlock st).2
    let copied := copyChunks modify_inplace st.chunk_hashes 0 (chunks (block f p)) st.copy
    b.chunkidx = (chunks (block f p)).length ∧ b.pos = p + c_small_hash_dist * (chunks (block f p)).length ∧
      b.small_hash = smallHashes (chunks (block f p)) ∧ b.big_hash = block f p ∧ b.big_hash_copy_control = copied.1 ∧
      b.all_zeros = buf_is_zero (block f p) ∧ b.copy = copied.2 := by
  have hlen : (block f p).length ≤ c_checkpoint_dist := by simp [block]
  have hend : (block f p).length = min c_checkpoint_dist (f.length - p) := length_slice _ _ _
  have h := @chunkLoop_data modify_inplace st.chunk_hashes (block f p) p (st.buf.drop (block f p).length) hlen f.length
    hend 0 ⟨st.pos, 0, [], [], [], 0, true, st.sha_buf, st.copy⟩ ⟨by simp [hpos], rfl, rfl⟩
  rw [readBlock_eq hf]
  simp only [scanBlock]
  rw [← hpos] at h ⊢
  simpa using h

end Block

/-- The chunk hashes of a file, block after block. -/
def chunkHashFile (d : Digests) (f : Bytes) : Bytes :=
  leBytes 8 f.length ++ (pieces c_checkpoint_dist f).flatMap (record d)

section Size

/-- The size of the chunk hashes, one block at a time. -/
theorem get_hashdata_size_block (n : Nat) :
    get_hashdata_size (c_checkpoint_dist + n) = chunkhash_single_size + get_hashdata_size n := by
  unfold get_hashdata_size
  rw [Nat.add_mod_left, Nat.add_div_left _ checkpoint_pos, Nat.succ_mul]
  dsimp only
  split <;> omega

theorem get_hashdata_size_last {n : Nat} (hpos : 0 < n) (hlt : n < c_checkpoint_dist) :
    get_hashdata_size n = 8 + (16 + 4 * ((n + c_small_hash_dist - 1) / c_small_hash_dist)) := by
  unfold get_hashdata_size
  rw [Nat.div_eq_of_lt hlt, Nat.mod_eq_of_lt hlt]
  dsimp only
  rw [if_pos (by omega)]
  by_cases hrest : n % c_small_hash_dist = 0
  · rw [if_neg (by simpa using hrest)]
    simp only [chunkhash_file_off, big_hash_size, small_hash_size, c_small_hash_dist] at *
    omega
  · rw [if_pos (by simpa using hrest)]
    simp only [chunkhash_file_off, big_hash_size, small_hash_size, c_small_hash_dist] at *
    omega

/-- The size of the chunk hashes of what remains of a file after `c` chunks
that cover a block. -/
theorem get_hashdata_size_rest {n c : Nat} (hpos : 0 < n) (hge : min c_checkpoint_dist n ≤ c_small_hash_dist * c)
    (hlt : c_small_hash_dist * c < min c_checkpoint_dist n + c_small_hash_dist) :
    get_hashdata_size n = 16 + 4 * c + get_hashdata_size (n - c_small_hash_dist * c) := by
  have hs : c_small_hash_dist = 4096 := rfl
  have hdist : c_checkpoint_dist = 524288 := rfl
  by_cases hn : c_checkpoint_dist ≤ n
  · obtain ⟨m, rfl⟩ := Nat.exists_eq_add_of_le hn
    have hc : c = 128 := by
      rw [hs] at hge hlt
      omega
    rw [get_hashdata_size_block, hc, show c_small_hash_dist * 128 = c_checkpoint_dist from rfl, Nat.add_sub_cancel_left]
    rfl
  · have hc : (n + c_small_hash_dist - 1) / c_small_hash_dist = c := by
      rw [hs] at hge hlt ⊢
      omega
    rw [get_hashdata_size_last hpos (by omega), show n - c_small_hash_dist * c = 0 by omega, hc]
    show _ = 16 + 4 * c + 8
    omega

theorem get_hashdata_size_blocks (k : Nat) {n : Nat} (h : c_checkpoint_dist * k ≤ n) :
    get_hashdata_size n = chunkhash_single_size * k + get_hashdata_size (n - c_checkpoint_dist * k) := by
  induction k with
  | zero => simp
  | succ k ih =>
    rw [Nat.mul_succ] at h
    have hrest : n - c_checkpoint_dist * k = c_checkpoint_dist + (n - c_checkpoint_dist * (k + 1)) := by
      rw [Nat.mul_succ]
      omega
    rw [ih (by omega), hrest, get_hashdata_size_block, Nat.mul_succ chunkhash_single_size]
    omega

variable (d : Digests)

theorem length_chunks (data : Bytes) :
    (chunks data).length = (data.length + c_small_hash_dist - 1) / c_small_hash_dist :=
  length_pieces smallblock_pos data

theorem length_records (f : Bytes) :
    8 + ((pieces c_checkpoint_dist f).flatMap (record d)).length = get_hashdata_size f.length := by
  induction hm : f.length using Nat.strongRecOn generalizing f with
  | ind m ih =>
    by_cases hf : f = []
    · subst hf hm
      simp [get_hashdata_size, chunkhash_file_off]
    · have hpos := List.length_pos_of_ne_nil hf
      have hC := checkpoint_pos
      have hs : c_small_hash_dist = 4096 := rfl
      have hrest := ih (f.drop c_checkpoint_dist).length (by rw [List.length_drop]; omega) _ rfl
      rw [pieces_eq checkpoint_pos hf, List.flatMap_cons, List.length_append, length_record, length_chunks,
        List.length_take, ← hm]
      rw [List.length_drop] at hrest
      by_cases hle : c_checkpoint_dist ≤ f.length
      · have hsize := get_hashdata_size_block (f.length - c_checkpoint_dist)
        rw [Nat.add_sub_cancel' hle] at hsize
        rw [Nat.min_eq_left hle, hsize, ← hrest]
        simp only [c_checkpoint_dist, c_small_hash_dist, chunkhash_single_size, big_hash_size, small_hash_size]
        omega
      · rw [Nat.min_eq_right (by omega), get_hashdata_size_last hpos (by omega)]
        rw [show f.length - c_checkpoint_dist = 0 by omega] at hrest
        have hzero : get_hashdata_size 0 = 8 := rfl
        omega

theorem length_chunkHashFile (f : Bytes) : (chunkHashFile d f).length = get_hashdata_size f.length := by
  rw [chunkHashFile, List.length_append, length_leBytes, length_records]

end Size

section Lookup

variable (d : Digests) {f : Bytes} {k : Nat}

theorem length_block (hk : c_checkpoint_dist * (k + 1) ≤ f.length) : (block f (c_checkpoint_dist * k)).length =
    c_checkpoint_dist := by
  rw [block, length_slice]
  rw [Nat.mul_succ] at hk
  omega

theorem pieces_take_succ (hk : c_checkpoint_dist * k < f.length) :
    (pieces c_checkpoint_dist f).take (k + 1) = (pieces c_checkpoint_dist f).take k ++ [block f (c_checkpoint_dist * k)] := by
  have hlt := (lt_length_pieces checkpoint_pos f k).mpr hk
  rw [List.take_add_one, List.getElem?_eq_getElem hlt, getElem_pieces checkpoint_pos hlt]
  rfl

/-- All blocks in front of a block are whole. -/
theorem length_records_before (hk : c_checkpoint_dist * k < f.length) :
    (((pieces c_checkpoint_dist f).take k).flatMap (record d)).length = chunkhash_single_size * k := by
  induction k with
  | zero => simp
  | succ k ih =>
    have hlt : c_checkpoint_dist * k < f.length := by
      rw [Nat.mul_succ] at hk
      omega
    rw [pieces_take_succ hlt, List.flatMap_append, List.length_append, ih hlt, List.flatMap_singleton, length_record,
      length_chunks, length_block (by omega), Nat.mul_succ]
    rfl

/-- The chunk hashes of a block are where the size of the ones before says. -/
theorem slice_chunkHashFile (hk : c_checkpoint_dist * k < f.length) :
    slice (chunkHashFile d f) (chunkhash_file_off + chunkhash_single_size * k) chunkhash_single_size =
      record d (block f (c_checkpoint_dist * k)) := by
  have hlt := (lt_length_pieces checkpoint_pos f k).mpr hk
  have hsplit : chunkHashFile d f = (leBytes 8 f.length ++ ((pieces c_checkpoint_dist f).take k).flatMap (record d)) ++
      (record d (block f (c_checkpoint_dist * k)) ++ ((pieces c_checkpoint_dist f).drop (k + 1)).flatMap (record d)) := by
    rw [List.append_assoc, chunkHashFile]
    congr 1
    rw [← List.flatMap_cons, ← List.flatMap_append]
    congr 1
    rw [block, ← getElem_pieces checkpoint_pos hlt, ← List.drop_eq_getElem_cons hlt, List.take_append_drop]
  have hfront : (leBytes 8 f.length ++ ((pieces c_checkpoint_dist f).take k).flatMap (record d)).length =
      chunkhash_file_off + chunkhash_single_size * k := by
    rw [List.length_append, length_leBytes, length_records_before d hk]
    rfl
  rw [slice, hsplit, List.drop_left' hfront]
  by_cases hlast : c_checkpoint_dist * (k + 1) ≤ f.length
  · refine List.take_left' ?_
    rw [length_record, length_chunks, length_block hlast]
    rfl
  · have hend : (pieces c_checkpoint_dist f).length ≤ k + 1 := by
      have := lt_length_pieces checkpoint_pos f (k + 1)
      omega
    rw [List.drop_eq_nil_of_le hend, List.flatMap_nil, List.append_nil, List.take_of_length_le]
    rw [length_record, length_chunks, block, length_slice]
    have hs : c_small_hash_dist = 4096 := rfl
    have hdist : c_checkpoint_dist = 524288 := rfl
    rw [hs, hdist]
    show _ ≤ 528
    omega

theorem size_chunkHashFile (hsize : f.length < 2 ^ 63) : leValue ((chunkHashFile d f).take 8) = f.length := by
  rw [chunkHashFile, List.take_left' (length_leBytes _ _)]
  exact leValue_leBytes (by omega)

end Lookup

end urbackup.chunkhash
