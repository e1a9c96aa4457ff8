import UrBackup.ChunkHash.LostBytes

namespace urbackup.chunkhash

open stringtools filedata

section Levels

variable {th : TreeHash}

/-- How many bytes the levels have. -/
def levelBytes (level_hash : List (List Bytes)) : Nat :=
  level_hash.flatten.flatten.length

theorem levelBytes_cons (level : List Bytes) (rest : List (List Bytes)) :
    levelBytes (level :: rest) = level.flatten.length + levelBytes rest := by
  simp [levelBytes]

/-- A level that is put into the next one. -/
theorem levelBytes_move {ls : List (List Bytes)} {idx : Nat} (h : idx + 1 < ls.length) :
    levelBytes ((ls.modify (idx + 1) (· ++ [(ls.getD idx []).flatten])).set idx []) = levelBytes ls := by
  induction ls generalizing idx with
  | nil => simp at h
  | cons level ls ih =>
    cases idx with
    | zero =>
      cases ls with
      | nil => simp at h
      | cons next rest =>
        simp [levelBytes]
        omega
    | succ idx =>
      rw [List.modify_succ_cons, List.set_cons_succ, levelBytes_cons, levelBytes_cons]
      congr 1
      exact ih (by simpa using h)

/-- What a finished level leaves as it is. -/
structure SameBytes (th th' : TreeHash) : Prop where
  offset : th'.offset = th.offset
  has_sparse : th'.has_sparse = th.has_sparse
  length_le : th.level_hash.length ≤ th'.level_hash.length
  levelBytes : levelBytes th'.level_hash = levelBytes th.level_hash

theorem SameBytes.refl (th : TreeHash) : SameBytes th th :=
  ⟨rfl, rfl, Nat.le_refl _, rfl⟩

theorem SameBytes.trans {t u v : TreeHash} (htu : SameBytes t u) (huv : SameBytes u v) : SameBytes t v :=
  ⟨huv.offset.trans htu.offset, huv.has_sparse.trans htu.has_sparse, htu.length_le.trans huv.length_le,
    huv.levelBytes.trans htu.levelBytes⟩

theorem getD_append_nil (ls : List (List Bytes)) {idx : Nat} (h : idx < ls.length) :
    (ls ++ [[]]).getD idx [] = ls.getD idx [] := by
  rw [List.getD_eq_getElem?_getD, List.getD_eq_getElem?_getD, List.getElem?_append_left h]

theorem finalize_level_hash {idx : Nat} (h : idx < th.level_hash.length) :
    ∃ ls, (ls = th.level_hash ∧ idx + 1 < th.level_hash.length ∨ ls = th.level_hash ++ [[]] ∧ idx + 1 = th.level_hash.length) ∧
      (th.finalize_level lengthDigests idx).level_hash =
        (ls.modify (idx + 1) (· ++ [(ls.getD idx []).flatten])).set idx [] := by
  unfold TreeHash.finalize_level
  dsimp only
  by_cases hlast : idx + 1 ≥ th.level_hash.length
  · refine ⟨th.level_hash ++ [[]], Or.inr ⟨rfl, by omega⟩, ?_⟩
    rw [if_pos hlast, getD_append_nil _ h]
    rfl
  · refine ⟨th.level_hash, Or.inl ⟨rfl, by omega⟩, ?_⟩
    rw [if_neg hlast]
    rfl

theorem sameBytes_finalize_level {idx : Nat} (h : idx < th.level_hash.length) :
    SameBytes th (th.finalize_level lengthDigests idx) := by
  obtain ⟨ls, hls, hlevel⟩ := finalize_level_hash h
  refine ⟨rfl, rfl, ?_, ?_⟩
  · rw [hlevel, List.length_set, List.length_modify]
    obtain ⟨rfl, _⟩ | ⟨rfl, _⟩ := hls
    · exact Nat.le_refl _
    · simp
  · obtain ⟨rfl, hlt⟩ | ⟨rfl, heq⟩ := hls
    · rw [hlevel, levelBytes_move hlt]
    · rw [hlevel, levelBytes_move (by simp; omega)]
      simp [levelBytes]

/-- Levels that are finished where a condition holds. -/
theorem sameBytes_foldl (levels : List Nat) (p : TreeHash → Nat → Prop) [∀ t idx, Decidable (p t idx)]
    (hp : ∀ t idx, idx ∈ levels → p t idx → th.level_hash.length ≤ t.level_hash.length → idx < t.level_hash.length) :
    SameBytes th (levels.foldl (fun t idx => if p t idx then t.finalize_level lengthDigests idx else t) th) := by
  induction levels generalizing th with
  | nil => exact SameBytes.refl th
  | cons idx levels ih =>
    have hstep : SameBytes th (if p th idx then th.finalize_level lengthDigests idx else th) := by
      split
      · next h => exact sameBytes_finalize_level (hp th idx List.mem_cons_self h (Nat.le_refl _))
      · exact SameBytes.refl th
    exact hstep.trans (ih fun t i hi ht hle => hp t i (List.mem_cons_of_mem _ hi) ht (hstep.length_le.trans hle))

theorem addHash_bytes (h : Bytes) (hne : th.level_hash ≠ []) : (th.addHash lengthDigests h).offset = th.offset ∧
    (th.addHash lengthDigests h).has_sparse = th.has_sparse ∧ (th.addHash lengthDigests h).level_hash ≠ [] ∧
    levelBytes (th.addHash lengthDigests h).level_hash = levelBytes th.level_hash + h.length := by
  obtain ⟨level, rest, hcons⟩ := List.exists_cons_of_ne_nil hne
  have hbytes : levelBytes (th.level_hash.modify 0 (· ++ [h])) = levelBytes th.level_hash + h.length := by
    rw [hcons]
    simp [levelBytes]
    omega
  obtain ⟨hoffset, hsparse, hlength, hsame⟩ := @sameBytes_foldl { th with level_hash := th.level_hash.modify 0 (· ++ [h]) }
    (List.range ((th.level_hash.modify 0 (· ++ [h])).length + 1))
    (fun t i => i < t.level_hash.length ∧ (t.level_hash.getD i []).length = max_level_size) _ (fun t i _ ht _ => ht.1)
  refine ⟨hoffset, hsparse, fun hnil => ?_, hsame.trans hbytes⟩
  have hzero := congrArg List.length hnil
  rw [TreeHash.addHash] at hzero
  rw [hzero, hcons] at hlength
  simp at hlength

/-- The levels below are empty once they are finished. -/
theorem finished_levels (count : Nat) (hcount : count + 1 ≤ th.level_hash.length) :
    let t := (List.range count).foldl (fun th i => if (th.level_hash.getD i []).isEmpty then th else th.finalize_level lengthDigests i) th
    SameBytes th t ∧ t.level_hash.length = th.level_hash.length ∧ ∀ i < count, t.level_hash.getD i [] = [] := by
  induction count with
  | zero => exact ⟨SameBytes.refl th, rfl, fun i hi => absurd hi (Nat.not_lt_zero i)⟩
  | succ count ih =>
    obtain ⟨hsame, hlength, hempty⟩ := ih (by omega)
    rw [List.range_succ, List.foldl_append, List.foldl_cons, List.foldl_nil]
    generalize (List.range count).foldl (fun th i => if (th.level_hash.getD i []).isEmpty then th else
      th.finalize_level lengthDigests i) th = t at hsame hlength hempty
    dsimp only
    split
    · next hlevel =>
      refine ⟨hsame, hlength, fun i hi => ?_⟩
      obtain hlt | rfl := Nat.lt_succ_iff_lt_or_eq.mp hi
      · exact hempty i hlt
      · exact List.isEmpty_iff.mp hlevel
    · obtain ⟨ls, hls, hlevel⟩ := @finalize_level_hash t count (by omega)
      obtain ⟨rfl, _⟩ | ⟨_, heq⟩ := hls
      · refine ⟨hsame.trans (sameBytes_finalize_level (by omega)), ?_, fun i hi => ?_⟩
        · rw [hlevel, List.length_set, List.length_modify, hlength]
        · rw [hlevel, List.getD_eq_getElem?_getD, List.getElem?_set]
          obtain hlt | rfl := Nat.lt_succ_iff_lt_or_eq.mp hi
          · have hkeep := hempty i hlt
            rw [List.getD_eq_getElem?_getD] at hkeep
            have hother : count + 1 ≠ i := by omega
            rw [if_neg (by omega), List.getElem?_modify]
            simpa [hother] using hkeep
          · rw [if_pos rfl]
            split <;> rfl
      · omega

/-- All bytes are in the last level if the others are empty. -/
theorem levelBytes_last {ls : List (List Bytes)} (h : ∀ i < ls.length - 1, ls.getD i [] = []) :
    levelBytes ls = (ls.getD (ls.length - 1) []).flatten.length := by
  induction ls with
  | nil => rfl
  | cons level ls ih =>
    cases ls with
    | nil => simp [levelBytes]
    | cons next rest =>
      have hlevel : level = [] := h 0 (by simp)
      rw [levelBytes_cons, ih fun i hi => h (i + 1) (by simp at hi ⊢; omega), hlevel]
      simp

theorem getD_modify_last (ls : List (List Bytes)) (nh : Bytes) {idx : Nat} (h : idx ≠ ls.length) :
    (((ls ++ [[]]).modify ls.length (· ++ [nh])).set idx []).getD ls.length [] = [nh] := by
  rw [List.getD_eq_getElem?_getD, List.getElem?_set, if_neg h, List.getElem?_modify, List.getElem?_append_right (Nat.le_refl _)]
  simp

/-- A digest that only concatenates has all bytes of the levels. -/
theorem length_finalize (hoffset : th.offset = 0) (hsparse : th.has_sparse = false) (hne : th.level_hash ≠ []) :
    (th.finalize lengthDigests).length = levelBytes th.level_hash := by
  have hpos := List.length_pos_of_ne_nil hne
  obtain ⟨hsame, hlength, hempty⟩ := @finished_levels th (th.level_hash.length - 1) (by omega)
  unfold TreeHash.finalize
  rw [if_neg (not_not.mpr hoffset)]
  dsimp only
  generalize (List.range (th.level_hash.length - 1)).foldl (fun th i => if (th.level_hash.getD i []).isEmpty then th else
    th.finalize_level lengthDigests i) th = t at hsame hlength hempty
  have hlast := levelBytes_last (hlength ▸ hempty)
  rw [← hsame.levelBytes, hlast]
  split
  · next h =>
    have hnil := List.isEmpty_iff.mp h.2
    rw [h.1, hnil]
    rfl
  · split
    · next hmany =>
      obtain ⟨ls, hls, hlevel⟩ := @finalize_level_hash t (t.level_hash.length - 1) (by omega)
      obtain ⟨_, hlt⟩ | ⟨rfl, _⟩ := hls
      · omega
      · have hsparse' : (t.finalize_level lengthDigests (t.level_hash.length - 1)).has_sparse = false :=
          hsame.has_sparse.trans hsparse
        rw [hsparse', hlevel, getD_append_nil _ (by omega), Nat.sub_add_cancel (by omega), List.length_set,
          List.length_modify, List.length_append, List.length_singleton, Nat.add_sub_cancel,
          getD_modify_last _ _ (by omega)]
        rfl
    · next hfew =>
      rw [hsame.has_sparse, hsparse]
      generalize t.level_hash.getD (t.level_hash.length - 1) [] = last at hfew
      match last with
      | [] => rfl
      | [h] => simp
      | h :: h' :: rest => simp at hfew

end Levels

section Bytes

variable {th : TreeHash}

/-- Between the bytes of a file. -/
structure Hashing (th : TreeHash) : Prop where
  offset_lt : th.offset < treehash_blocksize
  length_adlers : th.adlers.length = 12
  has_sparse : th.has_sparse = false
  level_hash : th.level_hash ≠ []

theorem hashing_new : Hashing TreeHash.new := ⟨by decide, rfl, rfl, List.cons_ne_nil _ _⟩

theorem finalize_curr_bytes (hadlers : th.adlers.length = 12) (hsparse : th.has_sparse = false) (hne : th.level_hash ≠ []) :
    Hashing ({ th with offset := 0 }.finalize_curr lengthDigests) ∧
      ({ th with offset := 0 }.finalize_curr lengthDigests).offset = 0 ∧
      levelBytes ({ th with offset := 0 }.finalize_curr lengthDigests).level_hash = levelBytes th.level_hash + 64 := by
  obtain ⟨hoffset, hsparse', hne', hbytes⟩ := @addHash_bytes { th with offset := 0 }
    (lengthDigests.md5 th.md5sum ++ th.adlers.flatMap (leBytes 4)) hne
  have hlength : (lengthDigests.md5 th.md5sum ++ th.adlers.flatMap (leBytes 4)).length = 64 := by
    rw [List.length_append, lengthDigests.length_md5, length_flatMap_fixed fun _ => length_leBytes 4 _, hadlers]
  rw [hlength] at hbytes
  refine ⟨⟨?_, rfl, hsparse'.trans hsparse, hne'⟩, hoffset, hbytes⟩
  show TreeHash.offset _ < _
  rw [show (TreeHash.finalize_curr lengthDigests { th with offset := 0 }).offset = 0 from hoffset]
  decide

theorem feed_bytes (hth : Hashing th) (ch : UInt8) : Hashing (th.feed lengthDigests ch) ∧
    levelBytes (th.feed lengthDigests ch).level_hash =
      levelBytes th.level_hash + 64 * ((th.offset + 1) / treehash_blocksize) := by
  have hblock : 0 < treehash_blocksize := by decide
  have hlt := hth.offset_lt
  unfold TreeHash.feed
  dsimp only
  split
  · next hend =>
    obtain ⟨hhashing, _, hbytes⟩ := @finalize_curr_bytes { th with
        adlers := th.adlers.modify (th.offset / treehash_smallblock % 12) (urb_adler32 · [ch])
        md5sum := th.md5sum ++ [ch]
        offset := th.offset + 1 } ((List.length_modify _ _ _).trans hth.length_adlers) hth.has_sparse hth.level_hash
    rw [hend, Nat.div_self hblock]
    exact ⟨hhashing, hbytes⟩
  · next hmid =>
    have hlt' : th.offset + 1 < treehash_blocksize := Nat.lt_of_le_of_ne hlt hmid
    rw [Nat.div_eq_of_lt hlt']
    exact ⟨⟨hlt', (List.length_modify _ _ _).trans hth.length_adlers, hth.has_sparse, hth.level_hash⟩, rfl⟩

theorem foldl_feed_bytes (hth : Hashing th) (data : Bytes) : Hashing (data.foldl (TreeHash.feed lengthDigests) th) ∧
    levelBytes (data.foldl (TreeHash.feed lengthDigests) th).level_hash =
      levelBytes th.level_hash + 64 * ((th.offset + data.length) / treehash_blocksize) := by
  have hblock : 0 < treehash_blocksize := by decide
  induction data generalizing th with
  | nil =>
    refine ⟨hth, ?_⟩
    rw [List.length_nil, Nat.add_zero, Nat.div_eq_of_lt hth.offset_lt]
    rfl
  | cons ch data ih =>
    obtain ⟨hfeed, hbytes⟩ := feed_bytes hth ch
    obtain ⟨hrest, hrestBytes⟩ := ih hfeed
    refine ⟨hrest, ?_⟩
    have hdiv : th.offset + (data.length + 1) = (th.offset + 1) % treehash_blocksize + data.length +
        treehash_blocksize * ((th.offset + 1) / treehash_blocksize) := by
      have := Nat.mod_add_div (th.offset + 1) treehash_blocksize
      omega
    rw [List.foldl_cons, hrestBytes, hbytes, feed_offset hth.offset_lt, List.length_cons, hdiv,
      Nat.add_mul_div_left _ _ hblock]
    omega

/-- The length of the digest counts the blocks. -/
theorem length_digest_feed (data : Bytes) :
    ((data.foldl (TreeHash.feed lengthDigests) TreeHash.new).finalize lengthDigests).length =
      64 * (data.length / treehash_blocksize) + if data.length % treehash_blocksize = 0 then 0 else 64 := by
  obtain ⟨hhashing, hbytes⟩ := foldl_feed_bytes hashing_new data
  have hoffset := @foldl_feed_offset lengthDigests TreeHash.new (by decide) data
  generalize data.foldl (TreeHash.feed lengthDigests) TreeHash.new = th at hhashing hbytes hoffset
  have hstart : TreeHash.new.offset + data.length = data.length := Nat.zero_add _
  rw [hstart] at hbytes hoffset
  have hzero : levelBytes TreeHash.new.level_hash = 0 := rfl
  rw [hzero, Nat.zero_add] at hbytes
  rw [← hoffset, ← hbytes]
  by_cases hend : th.offset = 0
  · rw [if_pos hend, length_finalize hend hhashing.has_sparse hhashing.level_hash]
    rfl
  · obtain ⟨hlast, hlastOffset, hlastBytes⟩ := finalize_curr_bytes hhashing.length_adlers hhashing.has_sparse hhashing.level_hash
    rw [if_neg hend, finalize_started hend, length_finalize hlastOffset hlast.has_sparse hlast.level_hash, hlastBytes]

theorem callsFit_bytes (data : Bytes) (offset : Nat) : CallsFit offset (data.map fun ch => [ch]) := by
  induction data generalizing offset with
  | nil => trivial
  | cons ch data ih => exact ⟨Or.inl (Nat.mod_lt offset smallblock_pos), ih _⟩

theorem flatten_bytes (data : Bytes) : (data.map fun ch => [ch]).flatten = data := by
  induction data with
  | nil => rfl
  | cons ch data ih => rw [List.map_cons, List.flatten_cons, ih, List.singleton_append]

end Bytes

section Splitting

/-- A call from the last chunk of a block on gets no further than its end. -/
theorem hash_over_end {d : Digests} {th : TreeHash} {buf : Bytes} (hth : th.offset + treehash_smallblock = treehash_blocksize)
    (hlong : treehash_smallblock ≤ buf.length) (hle : buf.length ≤ treehash_smallblock + treehash_blocksize) :
    th.hash d buf = (buf.take treehash_smallblock).foldl (TreeHash.feed d) th := by
  have hs := smallblock_pos
  have hchunk : (buf.take treehash_smallblock).length = treehash_smallblock := List.length_take_of_le hlong
  have haligned : th.offset % treehash_smallblock = 0 := by
    unfold treehash_smallblock treehash_blocksize at *
    omega
  have htohash : min treehash_smallblock (th.offset + buf.length - th.offset) = treehash_smallblock := by omega
  rw [foldl_feed (List.ne_nil_of_length_pos (by omega)) (by omega), TreeHash.wrap, if_pos (by
    show th.offset + _ = _
    omega), TreeHash.hash, TreeHash.hashLoop, if_pos (by omega)]
  dsimp only
  rw [if_neg (not_not.mpr haligned), htohash, if_pos hth, hashLoop_done (by split <;> omega)]
  unfold TreeHash.take
  rw [hchunk]
  rfl

/-- More than a block has calls with different digests. -/
theorem exists_digest_ne {data : Bytes} (hlong : treehash_blocksize < data.length) :
    ∃ bufs bufs' : List Bytes, bufs.flatten = data ∧ bufs'.flatten = data ∧
      TreeHash.digest lengthDigests false bufs ≠ TreeHash.digest lengthDigests false bufs' := by
  -- the bytes up to the end of the last block that is not the last one of the file
  obtain ⟨blocks, rest, hlength, hrest, hblocks, hpos⟩ : ∃ blocks rest, data.length = treehash_blocksize * blocks + rest ∧
      rest ≤ treehash_blocksize ∧ 0 < blocks ∧ 0 < rest := by
    refine ⟨(data.length - 1) / treehash_blocksize, data.length - treehash_blocksize * ((data.length - 1) / treehash_blocksize), ?_⟩
    unfold treehash_blocksize at *
    omega
  have hstart : treehash_blocksize * blocks - treehash_smallblock + treehash_smallblock = treehash_blocksize * blocks := by
    unfold treehash_smallblock treehash_blocksize
    omega
  generalize treehash_blocksize * blocks - treehash_smallblock = start at hstart
  have hs := smallblock_pos
  refine ⟨data.map fun ch => [ch], (data.take start).map (fun ch => [ch]) ++ [data.drop start], flatten_bytes data, ?_, ?_⟩
  · rw [List.flatten_append, flatten_bytes, List.flatten_singleton, List.take_append_drop]
  · have hbytes : (TreeHash.digest lengthDigests false (data.map fun ch => [ch])).length = 64 * (blocks + 1) := by
      rw [digest_feed false (callsFit_bytes data 0), flatten_bytes, length_digest_feed, hlength]
      obtain hlt | rfl := Nat.lt_or_eq_of_le hrest
      · rw [Nat.mul_add_div (by omega), Nat.div_eq_of_lt hlt, Nat.mul_add_mod, Nat.mod_eq_of_lt hlt, if_neg hpos.ne']
        omega
      · rw [← Nat.mul_succ, Nat.mul_div_cancel_left _ (by omega), Nat.mul_mod_right, if_pos rfl]
        rfl
    have htake : (data.take start).length = start := List.length_take_of_le (by omega)
    have hoffset : ((data.take start).foldl (TreeHash.feed lengthDigests) TreeHash.new).offset + treehash_smallblock =
        treehash_blocksize := by
      rw [foldl_feed_offset (by decide), htake, show TreeHash.new.offset = 0 from rfl, Nat.zero_add]
      unfold treehash_smallblock treehash_blocksize at *
      omega
    have hcut : (TreeHash.digest lengthDigests false ((data.take start).map (fun ch => [ch]) ++ [data.drop start])).length =
        64 * blocks := by
      rw [digest_eq, List.foldl_append, foldl_hash_feed (by decide) (callsFit_bytes _ _), flatten_bytes, List.foldl_cons,
        List.foldl_nil, hash_over_end hoffset (by rw [List.length_drop]; omega) (by rw [List.length_drop]; omega),
        ← List.foldl_append, ← List.take_add, hstart, length_digest_feed, List.length_take_of_le (by omega),
        Nat.mul_div_cancel_left _ (by decide), Nat.mul_mod_right, if_pos rfl, Nat.add_zero]
    intro heq
    have hsame := congrArg List.length heq
    rw [hbytes, hcut] at hsame
    omega

/-- Bytes of one chunk fit however they are cut. -/
theorem callsFit_chunk {bufs : List Bytes} {offset : Nat} (h : offset + bufs.flatten.length ≤ treehash_smallblock) :
    CallsFit offset bufs := by
  induction bufs generalizing offset with
  | nil => trivial
  | cons buf bufs ih =>
    rw [List.flatten_cons, List.length_append] at h
    have hblock : (offset + buf.length) % treehash_blocksize = offset + buf.length :=
      Nat.mod_eq_of_lt (by unfold treehash_smallblock treehash_blocksize at *; omega)
    refine ⟨?_, ?_⟩
    · have := Nat.mod_le offset treehash_smallblock
      exact Or.inl (by omega)
    · rw [hblock]
      exact ih (by omega)

/-- All ways to cut a string into calls have the digest of one call if and only if
the string is no longer than a chunk. Up to a block, this holds of a way to cut it
if and only if no call starts inside a chunk and goes beyond its end. -/
theorem digest_split_iff (data : Bytes) :
    ((∀ d hash_output bufs, bufs.flatten = data →
        TreeHash.digest d hash_output bufs = TreeHash.digest d hash_output [data]) ↔ data.length ≤ treehash_smallblock) ∧
      ∀ bufs, bufs.flatten = data ∧ data.length ≤ treehash_blocksize →
        ((∀ d hash_output, TreeHash.digest d hash_output bufs = TreeHash.digest d hash_output [data]) ↔ CallsFit 0 bufs) := by
  have hshort : ∀ bufs, bufs.flatten = data ∧ data.length ≤ treehash_blocksize →
      ((∀ d hash_output, TreeHash.digest d hash_output bufs = TreeHash.digest d hash_output [data]) ↔ CallsFit 0 bufs) := by
    rintro bufs ⟨rfl, hle⟩
    exact digest_eq_single_iff hle
  refine ⟨⟨fun h => ?_, fun hle d hash_output bufs hflatten => ?_⟩, hshort⟩
  · by_contra hlong
    by_cases hle : data.length ≤ treehash_blocksize
    · -- a call of one byte, and one with the rest
      have hcut : [data.take 1, data.drop 1].flatten = data := by
        rw [List.flatten_cons, List.flatten_singleton, List.take_append_drop]
      have hfits := (hshort _ ⟨hcut, hle⟩).mp fun d hash_output => h d hash_output _ hcut
      obtain ⟨_, hrest | ⟨haligned, _⟩, _⟩ := hfits
      · simp only [List.length_take, List.length_drop] at hrest
        unfold treehash_smallblock treehash_blocksize at *
        omega
      · simp only [List.length_take] at haligned
        unfold treehash_smallblock treehash_blocksize at *
        omega
    · obtain ⟨bufs, bufs', hbufs, hbufs', hne⟩ := exists_digest_ne (Nat.lt_of_not_le hle)
      exact hne ((h _ _ _ hbufs).trans (h _ _ _ hbufs').symm)
  · refine (hshort bufs ⟨hflatten, ?_⟩).mpr (callsFit_chunk ?_) d hash_output
    · unfold treehash_smallblock treehash_blocksize at *
      omega
    · rw [hflatten]
      omega

/-- After one byte, a call with 4096 more loses the last one. -/
theorem digest_split_lost : ¬ ∀ (data : Bytes) (d : Digests) (hash_output : Bool) (bufs : List Bytes), bufs.flatten = data →
    TreeHash.digest d hash_output bufs = TreeHash.digest d hash_output [data] := by
  intro h
  have hlength : [[0], List.replicate 4096 (0 : UInt8)].flatten.length = 4097 := by
    rw [List.flatten_cons, List.flatten_singleton, List.length_append, List.length_replicate, List.length_singleton]
  refine @digest_ne_of_loses false [[0], List.replicate 4096 0] ?_ ?_ (h _ lengthDigests false _ rfl)
  · rw [hlength]
    decide
  · rintro ⟨_, hrest | ⟨haligned, _⟩, _⟩
    · rw [List.length_replicate] at hrest
      exact absurd hrest (by decide)
    · exact absurd haligned (by decide)

end Splitting

end urbackup.chunkhash
