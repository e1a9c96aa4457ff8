import UrBackup.ChunkHash.TreeHash

namespace urbackup.chunkhash

open stringtools filedata

theorem smallblock_pos : 0 < treehash_smallblock := by decide

/-- The chunks of a block. -/
def chunks (data : Bytes) : List Bytes :=
  pieces treehash_smallblock data

/-- The chunk hashes of a block: its digest and the checksums of its chunks. -/
def record (d : Digests) (data : Bytes) : Bytes :=
  d.md5 data ++ (chunks data).flatMap fun chunk => leBytes 4 (urb_adler32 adler_init chunk)

/-- Every twelfth chunk continues the same checksum. -/
def streamAdlers : Nat → List Bytes → List Nat → List Nat
  | _, [], adlers => adlers
  | k, chunk :: rest, adlers => streamAdlers (k + 1) rest (adlers.modify (k % 12) (urb_adler32 · chunk))

/-- The hash of a block in a `TreeHash`. -/
def blockHash (d : Digests) (data : Bytes) : Bytes :=
  d.md5 data ++ (streamAdlers 0 (chunks data) (List.replicate 12 adler_init)).flatMap (leBytes 4)

/-- Between two blocks. -/
structure TreeHash.Fresh (th : TreeHash) : Prop where
  offset_eq : th.offset = 0
  adlers_eq : th.adlers = List.replicate 12 adler_init
  md5sum_eq : th.md5sum = []

/-- A `TreeHash` in the middle of a block. -/
def TreeHash.within (th : TreeHash) (offset : Nat) (adlers : List Nat) (md5sum : Bytes) : TreeHash :=
  { th with offset, adlers, md5sum }

section Hash

variable {d : Digests}

/-- Hashes only go to the levels. -/
theorem addHash_within (th : TreeHash) (offset : Nat) (adlers : List Nat) (md5sum h : Bytes) :
    (th.within offset adlers md5sum).addHash d h = (th.addHash d h).within offset adlers md5sum := by
  unfold TreeHash.addHash
  dsimp only
  generalize hstart : ({ th with level_hash := th.level_hash.modify 0 (· ++ [h]) } : TreeHash) = start
  have hleft : ({ th.within offset adlers md5sum with
      level_hash := (th.within offset adlers md5sum).level_hash.modify 0 (· ++ [h]) } : TreeHash) =
      start.within offset adlers md5sum := by rw [← hstart]; rfl
  rw [hleft, show (th.within offset adlers md5sum).level_hash = th.level_hash from rfl]
  generalize List.range _ = levels
  clear hstart hleft
  induction levels generalizing start with
  | nil => rfl
  | cons i levels ih =>
    rw [List.foldl_cons, List.foldl_cons, ← ih]
    congr 1
    show (if i < start.level_hash.length ∧ (start.level_hash.getD i []).length = max_level_size then _ else _) = _
    split <;> rfl

theorem TreeHash.Fresh.within_eq {th : TreeHash} (hth : th.Fresh) :
    th.within 0 (List.replicate 12 adler_init) [] = th := by
  obtain ⟨hoffset, hadlers, hmd5⟩ := hth
  rw [← hoffset, ← hadlers, ← hmd5]
  rfl

theorem TreeHash.Fresh.addHash {th : TreeHash} (hth : th.Fresh) (h : Bytes) : (th.addHash d h).Fresh := by
  have heq := @addHash_within d th 0 (List.replicate 12 adler_init) [] h
  rw [hth.within_eq] at heq
  rw [heq]
  exact ⟨rfl, rfl, rfl⟩

theorem TreeHash.fresh_new : TreeHash.new.Fresh := ⟨rfl, rfl, rfl⟩

/-- What `finalize_curr` makes of a block's checksums. -/
theorem finalize_curr_within {th : TreeHash} (hth : th.Fresh) (adlers : List Nat) (md5sum : Bytes) :
    (th.within 0 adlers md5sum).finalize_curr d = th.addHash d (d.md5 md5sum ++ adlers.flatMap (leBytes 4)) := by
  have hfresh := (@TreeHash.Fresh.addHash d th hth (d.md5 md5sum ++ adlers.flatMap (leBytes 4))).within_eq
  unfold TreeHash.finalize_curr
  dsimp only
  rw [addHash_within, ← hfresh]
  rfl

theorem hashLoop_done {buf : Bytes} {th : TreeHash} {i offset_end buf_off : Nat} (h : offset_end ≤ i) :
    TreeHash.hashLoop d buf th i offset_end buf_off = th := by
  rw [TreeHash.hashLoop, if_neg (by omega)]

/-- One chunk of a buffer that ends with or before the block. -/
theorem hashLoop_step (th : TreeHash) {buf : Bytes} (hle : buf.length ≤ treehash_blocksize) {k : Nat}
    (adlers : List Nat) (md5sum : Bytes) (hk : treehash_smallblock * k < buf.length) :
    TreeHash.hashLoop d buf (th.within (treehash_smallblock * k) adlers md5sum) (treehash_smallblock * k) buf.length
        (treehash_smallblock * k) =
      let chunk := slice buf (treehash_smallblock * k) treehash_smallblock
      let next := th.within (treehash_smallblock * k + chunk.length) (adlers.modify (k % 12) (urb_adler32 · chunk))
        (md5sum ++ chunk)
      if treehash_smallblock * k + chunk.length = treehash_blocksize then
        TreeHash.hashLoop d buf ((next.within 0 next.adlers next.md5sum).finalize_curr d)
          (treehash_smallblock * (k + 1)) buf.length
          (treehash_smallblock * k + chunk.length)
      else TreeHash.hashLoop d buf next (treehash_smallblock * (k + 1)) buf.length
        (treehash_smallblock * k + chunk.length) := by
  have hoff : (th.within (treehash_smallblock * k) adlers md5sum).offset % treehash_smallblock = 0 :=
    Nat.mul_mod_right _ _
  have hidx : treehash_smallblock * k / treehash_smallblock = k := Nat.mul_div_cancel_left k smallblock_pos
  have hlen : (slice buf (treehash_smallblock * k) treehash_smallblock).length =
      min treehash_smallblock (buf.length - treehash_smallblock * k) := length_slice _ _ _
  have hend : (if buf.length > treehash_blocksize then buf.length - treehash_blocksize else buf.length) =
      buf.length := if_neg (by omega)
  rw [TreeHash.hashLoop, if_pos hk]
  simp only [hoff, ne_eq, not_true, if_false, hidx, slice_min, hend, hlen]
  rfl

/-- The loop of `hash` over a buffer that ends with or before the block. -/
theorem hashLoop_eq (th : TreeHash) {buf : Bytes} (hle : buf.length ≤ treehash_blocksize) (k : Nat)
    (adlers : List Nat) (md5sum : Bytes) (hk : treehash_smallblock * k < buf.length) :
    TreeHash.hashLoop d buf (th.within (treehash_smallblock * k) adlers md5sum) (treehash_smallblock * k) buf.length
        (treehash_smallblock * k) =
      let rest := buf.drop (treehash_smallblock * k)
      let adlers := streamAdlers k (chunks rest) adlers
      if buf.length = treehash_blocksize then (th.within 0 adlers (md5sum ++ rest)).finalize_curr d
      else th.within buf.length adlers (md5sum ++ rest) := by
  have hb : treehash_blocksize = treehash_smallblock * 128 := rfl
  have hs := smallblock_pos
  induction hm : buf.length - treehash_smallblock * k using Nat.strongRecOn generalizing k adlers md5sum with
  | ind m ih =>
    have hchunks : chunks (buf.drop (treehash_smallblock * k)) =
        slice buf (treehash_smallblock * k) treehash_smallblock ::
          chunks (buf.drop (treehash_smallblock * (k + 1))) := by
      unfold chunks
      rw [pieces_drop hs hk, Nat.mul_succ]
    have hrest : buf.drop (treehash_smallblock * k) = slice buf (treehash_smallblock * k) treehash_smallblock ++
        buf.drop (treehash_smallblock * (k + 1)) := by
      rw [Nat.mul_succ, ← List.drop_drop]
      exact (List.take_append_drop _ _).symm
    have hlen : (slice buf (treehash_smallblock * k) treehash_smallblock).length =
      min treehash_smallblock (buf.length - treehash_smallblock * k) := length_slice _ _ _
    rw [hashLoop_step th hle adlers md5sum hk]
    dsimp only
    rw [hchunks, hrest, Nat.mul_succ]
    by_cases hlast : treehash_smallblock * k + treehash_smallblock < buf.length
    · -- a whole chunk, and more to come
      have hfull : (slice buf (treehash_smallblock * k) treehash_smallblock).length = treehash_smallblock := by omega
      rw [hfull, if_neg (by omega), ← Nat.mul_succ]
      rw [ih (buf.length - treehash_smallblock * (k + 1)) (by rw [Nat.mul_succ]; omega) (k + 1) _ _
        (by rw [Nat.mul_succ]; exact hlast) rfl]
      simp only [streamAdlers, List.append_assoc]
    · have hend : treehash_smallblock * k + (slice buf (treehash_smallblock * k) treehash_smallblock).length =
          buf.length := by omega
      have hnil : buf.drop (treehash_smallblock * k + treehash_smallblock) = [] :=
        List.drop_eq_nil_of_le (by omega)
      rw [hend, hashLoop_done (by omega), hashLoop_done (by omega), hnil, List.append_nil]
      simp only [chunks, pieces_nil, streamAdlers]
      rfl

/-- Hashing a whole block adds its hash. -/
theorem hash_block {th : TreeHash} (hth : th.Fresh) {data : Bytes} (hlen : data.length = treehash_blocksize) :
    th.hash d data = th.addHash d (blockHash d data) := by
  have hpos : treehash_smallblock * 0 < data.length := by rw [hlen]; decide
  rw [TreeHash.hash]
  have h := @hashLoop_eq d th data (by omega) 0 (List.replicate 12 adler_init) [] hpos
  rw [Nat.mul_zero, hth.within_eq] at h
  rw [hth.offset_eq, Nat.zero_add, h]
  simp only [hlen, if_true, List.drop_zero, List.nil_append]
  exact finalize_curr_within hth _ _

end Hash

section Stored

theorem streamAdlers_append (k : Nat) (cs ds : List Bytes) (adlers : List Nat) :
    streamAdlers k (cs ++ ds) adlers = streamAdlers (k + cs.length) ds (streamAdlers k cs adlers) := by
  induction cs generalizing k adlers with
  | nil => rfl
  | cons c cs ih =>
    rw [List.cons_append, streamAdlers, streamAdlers, ih, List.length_cons]
    congr 1
    omega

/-- The first twelve chunks go to checksums of their own. -/
theorem streamAdlers_first (pre : List Nat) (cs : List Bytes) {m : Nat} (hm : pre.length + m = 12)
    (hcs : cs.length ≤ m) :
    streamAdlers pre.length cs (pre ++ List.replicate m adler_init) =
      pre ++ cs.map (urb_adler32 adler_init) ++ List.replicate (m - cs.length) adler_init := by
  induction cs generalizing pre m with
  | nil => simp [streamAdlers]
  | cons c cs ih =>
    obtain ⟨m, rfl⟩ := Nat.exists_eq_succ_of_ne_zero (show m ≠ 0 by simp at hcs; omega)
    have hidx : pre.length % 12 = pre.length := Nat.mod_eq_of_lt (by omega)
    have hmodify : (pre ++ List.replicate (m + 1) adler_init).modify pre.length (urb_adler32 · c) =
        (pre ++ [urb_adler32 adler_init c]) ++ List.replicate m adler_init := by
      rw [List.modify_eq_take_drop, List.take_left, List.drop_left, List.replicate_succ]
      simp
    have h := ih (pre ++ [urb_adler32 adler_init c]) (m := m) (by simp; omega) (by simpa using hcs)
    rw [streamAdlers, hidx, hmodify]
    rw [List.length_append, List.length_singleton] at h
    rw [h]
    simp

variable (d : Digests) (data : Bytes)

theorem length_record : (record d data).length = 16 + 4 * (chunks data).length := by
  rw [record, List.length_append, d.length_md5, length_flatMap_fixed fun _ => length_leBytes 4 _]

theorem inputAdler_record {i : Nat} (hi : i < (chunks data).length) :
    TreeHash.inputAdler (record d data) i = urb_adler32 adler_init (chunks data)[i] := by
  have hslice : slice (record d data) (16 + 4 * i) 4 =
      leBytes 4 (urb_adler32 adler_init (chunks data)[i]) := by
    rw [record, slice, ← List.drop_drop, List.drop_left' (d.length_md5 data)]
    exact slice_flatMap_fixed (fun _ => length_leBytes 4 _) hi
  rw [TreeHash.inputAdler, hslice, leValue_leBytes (isAdler_urb_adler32 _ _).lt]

theorem modify_congr {f g : Nat → Nat} {adlers : List Nat} (h : ∀ a ∈ adlers, f a = g a) (i : Nat) :
    adlers.modify i f = adlers.modify i g := by
  apply List.ext_getElem? fun j => ?_
  rw [List.getElem?_modify, List.getElem?_modify]
  cases ha : adlers[j]? with
  | none => rfl
  | some a =>
    have hmem := h a (List.mem_of_getElem? ha)
    split <;> simp [hmem]

theorem isAdler_modify {adlers : List Nat} (h : ∀ a ∈ adlers, IsAdler a) (i : Nat) (chunk : Bytes) :
    ∀ a ∈ adlers.modify i (urb_adler32 · chunk), IsAdler a := by
  intro a ha
  obtain ⟨j, hj⟩ := List.mem_iff_getElem?.mp ha
  rw [List.getElem?_modify] at hj
  obtain ⟨a0, ha0, rfl⟩ := Option.map_eq_some_iff.mp hj
  split
  · exact isAdler_urb_adler32 _ _
  · exact h a0 (List.mem_of_getElem? ha0)

/-- The length that the source gives a chunk. -/
theorem length_chunk {k : Nat} (hk : k < (chunks data).length) :
    (if k + 1 = (chunks data).length ∧ data.length % treehash_smallblock ≠ 0 then
      data.length % treehash_smallblock else treehash_smallblock) = (chunks data)[k].length := by
  have hlt := (lt_length_pieces smallblock_pos data k).mp hk
  have hnext := lt_length_pieces smallblock_pos data (k + 1)
  have hchunk : (chunks data)[k] = slice data (treehash_smallblock * k) treehash_smallblock :=
    getElem_pieces smallblock_pos hk
  rw [hchunk, length_slice]
  clear hchunk
  unfold chunks at hk ⊢
  generalize (pieces treehash_smallblock data).length = count at hk hnext
  split <;> simp only [treehash_smallblock] at * <;> omega

/-- Combining the stored checksums continues the stream. -/
theorem foldl_combine (k : Nat) (adlers : List Nat) (hadlers : ∀ a ∈ adlers, IsAdler a) :
    (List.range' k ((chunks data).length - k)).foldl (fun n_adlers i =>
        let curr_len2 := if i + 1 = (chunks data).length ∧ data.length % treehash_smallblock ≠ 0 then
          data.length % treehash_smallblock else treehash_smallblock
        n_adlers.modify (i % 12) (urb_adler32_combine · (TreeHash.inputAdler (record d data) i) curr_len2)) adlers =
      streamAdlers k ((chunks data).drop k) adlers := by
  induction hm : (chunks data).length - k generalizing k adlers with
  | zero =>
    rw [List.drop_eq_nil_of_le (by omega)]
    rfl
  | succ m ih =>
    have hk : k < (chunks data).length := by omega
    rw [List.range'_succ, List.foldl_cons, List.drop_eq_getElem_cons hk, streamAdlers]
    dsimp only
    rw [length_chunk data hk, inputAdler_record d data hk,
      modify_congr (fun a ha => urb_adler32_combine_eq (hadlers a ha) (chunks data)[k])]
    exact ih (k + 1) _ (isAdler_modify hadlers _ _) (by omega)

/-- The checksums of the first twelve chunks as the stored ones give them. -/
theorem initial_adlers :
    ((List.range 12).map fun i =>
        if i ≥ (chunks data).length then adler_init else TreeHash.inputAdler (record d data) i) =
      streamAdlers 0 ((chunks data).take 12) (List.replicate 12 adler_init) := by
  have hfirst := streamAdlers_first [] ((chunks data).take 12) (m := 12) rfl (by simp)
  rw [List.nil_append, List.length_nil] at hfirst
  rw [hfirst, List.nil_append]
  apply List.ext_getElem? fun i => ?_
  by_cases hi : i < 12
  · rw [List.getElem?_map, List.getElem?_range hi, Option.map_some, List.getElem?_append]
    by_cases hc : i < (chunks data).length
    · rw [if_neg (by omega), if_pos (by simp; omega), List.getElem?_map, List.getElem?_take, if_pos hi,
        List.getElem?_eq_getElem hc, Option.map_some, inputAdler_record d data hc]
    · rw [if_pos (by omega), if_neg (by simp; omega), List.getElem?_replicate, if_pos (by simp; omega)]
  · rw [List.getElem?_eq_none (by simp; omega), List.getElem?_eq_none (by simp; omega)]

/-- The stored chunk hashes of a block give its hash. -/
theorem allAdlerTo64byteHash_record : TreeHash.allAdlerTo64byteHash (record d data) data.length = blockHash d data := by
  have hnum : ((record d data).length - 16) / 4 = (chunks data).length := by
    rw [length_record]
    omega
  have htake : (record d data).take 16 = d.md5 data := by
    rw [record, List.take_left' (d.length_md5 data)]
  have hadlers : ∀ a ∈ streamAdlers 0 ((chunks data).take 12) (List.replicate 12 adler_init), IsAdler a := by
    generalize (chunks data).take 12 = cs
    have hinit : ∀ a ∈ List.replicate 12 adler_init, IsAdler a := by
      intro a ha
      rw [List.eq_of_mem_replicate ha]
      exact isAdler_init
    generalize List.replicate 12 adler_init = adlers at hinit
    generalize 0 = k
    induction cs generalizing k adlers with
    | nil => exact hinit
    | cons c cs ih => exact ih _ (isAdler_modify hinit _ _) _
  unfold TreeHash.allAdlerTo64byteHash blockHash
  dsimp only
  rw [hnum, htake, initial_adlers, foldl_combine d data 12 _ hadlers]
  congr 2
  by_cases hlen : 12 ≤ (chunks data).length
  · have h := streamAdlers_append 0 ((chunks data).take 12) ((chunks data).drop 12) (List.replicate 12 adler_init)
    rw [List.take_append_drop, List.length_take, Nat.min_eq_left hlen, Nat.zero_add] at h
    exact h.symm
  · rw [List.drop_eq_nil_of_le (by omega), List.take_of_length_le (by omega), streamAdlers]

/-- So feeding stored chunk hashes is hashing the block. -/
theorem addHashAllAdler_record (th : TreeHash) :
    th.addHashAllAdler d (record d data) data.length = th.addHash d (blockHash d data) := by
  rw [TreeHash.addHashAllAdler, allAdlerTo64byteHash_record]

end Stored

end urbackup.chunkhash
