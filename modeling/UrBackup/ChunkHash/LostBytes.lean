import UrBackup.ChunkHash.CallSplitting

namespace urbackup.chunkhash

open stringtools filedata

section FirstBlock

variable {d : Digests} {th : TreeHash}

/-- In the first block, with at most `most` bytes of it. -/
structure InFirstBlock (th : TreeHash) (most : Nat) : Prop where
  level_hash : th.level_hash = [[]]
  has_sparse : th.has_sparse = false
  length_md5sum : th.md5sum.length = th.offset
  offset_le : th.offset ≤ most

theorem InFirstBlock.take {most : Nat} (hth : InFirstBlock th most) {data : Bytes} (idx : Nat)
    (hle : th.offset + data.length ≤ most) :
    InFirstBlock { th with
      adlers := th.adlers.modify idx (urb_adler32 · data)
      md5sum := th.md5sum ++ data
      offset := th.offset + data.length } most :=
  ⟨hth.level_hash, hth.has_sparse, by simp [hth.length_md5sum], hle⟩

/-- A loop gets no more bytes than are left in its call. -/
theorem hashLoop_inFirstBlock {buf : Bytes} {i offset_end buf_off most : Nat} (hth : InFirstBlock th most)
    (hmost : most < treehash_blocksize) (hbuf : buf_off + (offset_end - i) ≤ buf.length)
    (hbound : th.offset + (offset_end - i) ≤ most) : InFirstBlock (TreeHash.hashLoop d buf th i offset_end buf_off) most := by
  have hs := smallblock_pos
  induction hm : offset_end - i using Nat.strong_induction_on generalizing th i buf_off with
  | _ m ih =>
    rw [TreeHash.hashLoop]
    by_cases hi : i < offset_end
    · rw [if_pos hi]
      dsimp only
      generalize htohash : (if th.offset % treehash_smallblock ≠ 0 then
        min (min treehash_smallblock (offset_end - i)) (treehash_smallblock - th.offset % treehash_smallblock)
        else min treehash_smallblock (offset_end - i)) = tohash
      have hle : tohash ≤ treehash_smallblock ∧ tohash ≤ offset_end - i := by
        rw [← htohash]
        split <;> omega
      have hlen : (slice buf buf_off tohash).length = tohash := by
        rw [length_slice]
        omega
      have htake := @InFirstBlock.take th most hth (slice buf buf_off tohash) (i / treehash_smallblock % 12) (by omega)
      rw [hlen] at htake
      rw [if_neg (by omega)]
      exact ih _ (by omega) htake (by omega) (by show th.offset + tohash + _ ≤ _; omega) rfl
    · rw [if_neg hi]
      exact hth

theorem hash_inFirstBlock {buf : Bytes} {most : Nat} (hth : InFirstBlock th most) (hmost : most < treehash_blocksize)
    (hbound : th.offset + buf.length ≤ most) : InFirstBlock (th.hash d buf) most :=
  hashLoop_inFirstBlock hth hmost (by omega) (by omega)

theorem foldl_hash_inFirstBlock {bufs : List Bytes} {most : Nat} (hth : InFirstBlock th th.offset)
    (hmost : most < treehash_blocksize) (hbound : th.offset + bufs.flatten.length ≤ most) :
    InFirstBlock (bufs.foldl (TreeHash.hash d) th) most := by
  induction bufs generalizing th with
  | nil => exact ⟨hth.level_hash, hth.has_sparse, hth.length_md5sum, by simpa using hbound⟩
  | cons buf bufs ih =>
    rw [List.flatten_cons, List.length_append] at hbound
    have hbuf := @hash_inFirstBlock d th buf (th.offset + buf.length)
      ⟨hth.level_hash, hth.has_sparse, hth.length_md5sum, by omega⟩ (by omega) (Nat.le_refl _)
    have hle := hbuf.offset_le
    exact ih ⟨hbuf.level_hash, hbuf.has_sparse, hbuf.length_md5sum, Nat.le_refl _⟩ (by omega)

/-- A call that does not fit loses bytes. -/
theorem hash_loses {buf : Bytes} (hth : InFirstBlock th th.offset) (hend : th.offset + buf.length ≤ treehash_blocksize)
    (hfits : ¬ CallFits th.offset buf.length) : InFirstBlock (th.hash d buf) (th.offset + buf.length - 1) := by
  have hs := smallblock_pos
  unfold CallFits at hfits
  have hover : treehash_smallblock < th.offset % treehash_smallblock + buf.length := by omega
  have hinside : th.offset % treehash_smallblock ≠ 0 := by omega
  have hmod := Nat.mod_lt th.offset hs
  have htohash : min (min treehash_smallblock (th.offset + buf.length - th.offset))
      (treehash_smallblock - th.offset % treehash_smallblock) = treehash_smallblock - th.offset % treehash_smallblock := by
    omega
  have hlen : (slice buf 0 (treehash_smallblock - th.offset % treehash_smallblock)).length =
      treehash_smallblock - th.offset % treehash_smallblock := by
    rw [length_slice]
    omega
  have htake := @InFirstBlock.take th (th.offset + buf.length - 1)
    ⟨hth.level_hash, hth.has_sparse, hth.length_md5sum, by omega⟩
    (slice buf 0 (treehash_smallblock - th.offset % treehash_smallblock)) (th.offset / treehash_smallblock % 12) (by omega)
  rw [hlen] at htake
  rw [TreeHash.hash, TreeHash.hashLoop, if_pos (by omega)]
  dsimp only
  rw [if_pos hinside, htohash, if_neg (by omega)]
  apply hashLoop_inFirstBlock htake (by omega) (by omega)
  show th.offset + _ + _ ≤ _
  omega

/-- Fewer bytes than a block are all in the first one. -/
theorem foldl_feed_inFirstBlock {data : Bytes} (hlen : data.length < treehash_blocksize) :
    InFirstBlock (data.foldl (TreeHash.feed d) TreeHash.new) data.length ∧
      (data.foldl (TreeHash.feed d) TreeHash.new).md5sum = data := by
  induction data using List.reverseRecOn with
  | nil => exact ⟨⟨rfl, rfl, rfl, Nat.le_refl _⟩, rfl⟩
  | append_singleton data ch ih =>
    rw [List.length_append, List.length_singleton] at hlen
    obtain ⟨hfirst, hmd5⟩ := ih (by omega)
    have hle := hfirst.offset_le
    have htake := @InFirstBlock.take _ (data.length + 1)
      ⟨hfirst.level_hash, hfirst.has_sparse, hfirst.length_md5sum, by omega⟩ [ch]
      ((data.foldl (TreeHash.feed d) TreeHash.new).offset / treehash_smallblock % 12) (Nat.succ_le_succ hle)
    have hnot : (data.foldl (TreeHash.feed d) TreeHash.new).offset + 1 ≠ treehash_blocksize := by omega
    rw [List.foldl_append, List.foldl_cons, List.foldl_nil, List.length_append, List.length_singleton, TreeHash.feed]
    dsimp only
    rw [if_neg hnot, hmd5]
    rw [hmd5] at htake
    exact ⟨htake, rfl⟩

/-- One hash of a block is the digest. -/
theorem finalize_single {h : Bytes} (hoffset : th.offset = 0) (hsparse : th.has_sparse = false)
    (hlevel : th.level_hash = [[h]]) : th.finalize d = h := by
  unfold TreeHash.finalize
  simp [hoffset, hlevel, hsparse]

theorem addHash_first {h : Bytes} (hlevel : th.level_hash = [[]]) : (th.addHash d h).level_hash = [[h]] ∧
    (th.addHash d h).has_sparse = th.has_sparse := by
  unfold TreeHash.addHash
  simp [hlevel, List.range_succ, max_level_size]

/-- A block that has begun is finished first. -/
theorem finalize_started (hpos : th.offset ≠ 0) :
    th.finalize d = ({ th with offset := 0 }.finalize_curr d).finalize d := by
  have hzero : ({ th with offset := 0 }.finalize_curr d).offset = 0 := addHash_offset _ _
  conv_lhs => rw [TreeHash.finalize, if_pos hpos]
  rw [TreeHash.finalize, if_neg (not_not.mpr hzero)]

theorem finalize_inFirstBlock {most : Nat} (hth : InFirstBlock th most) (hpos : th.offset ≠ 0) :
    th.finalize d = d.md5 th.md5sum ++ th.adlers.flatMap (leBytes 4) := by
  obtain ⟨hlevel, hsparse⟩ := @addHash_first d { th with offset := 0 } (d.md5 th.md5sum ++ th.adlers.flatMap (leBytes 4))
    hth.level_hash
  rw [finalize_started hpos]
  exact finalize_single (addHash_offset _ _) (hsparse.trans hth.has_sparse) hlevel

theorem InFirstBlock.self {most : Nat} (hth : InFirstBlock th most) : InFirstBlock th th.offset :=
  ⟨hth.level_hash, hth.has_sparse, hth.length_md5sum, Nat.le_refl _⟩

theorem callsFit_of_empty {bufs : List Bytes} (hempty : bufs.flatten = []) (offset : Nat) : CallsFit offset bufs := by
  induction bufs generalizing offset with
  | nil => trivial
  | cons buf bufs ih =>
    rw [List.flatten_cons, List.append_eq_nil_iff] at hempty
    obtain ⟨rfl, hrest⟩ := hempty
    exact ⟨Or.inl (Nat.mod_lt offset smallblock_pos).le, ih hrest _⟩

/-- Calls of at most a block that do not all fit lose bytes. -/
theorem foldl_hash_loses {bufs : List Bytes} (hth : InFirstBlock th th.offset)
    (hend : th.offset + bufs.flatten.length ≤ treehash_blocksize) (hfits : ¬ CallsFit th.offset bufs) :
    InFirstBlock (bufs.foldl (TreeHash.hash d) th) (th.offset + bufs.flatten.length - 1) := by
  induction bufs generalizing th with
  | nil => exact absurd trivial hfits
  | cons buf bufs ih =>
    rw [List.flatten_cons, List.length_append] at hend ⊢
    rw [List.foldl_cons]
    by_cases hbuf : CallFits th.offset buf.length
    · have hrest : ¬ CallsFit ((th.offset + buf.length) % treehash_blocksize) bufs := fun h => hfits ⟨hbuf, h⟩
      by_cases hlt : th.offset + buf.length < treehash_blocksize
      · have hfirst := @hash_inFirstBlock d th buf (th.offset + buf.length)
          ⟨hth.level_hash, hth.has_sparse, hth.length_md5sum, by omega⟩ hlt (Nat.le_refl _)
        have hoffset : (th.hash d buf).offset = th.offset + buf.length := by
          rw [hash_feed hbuf hlt.le, foldl_feed_offset (by omega), Nat.mod_eq_of_lt hlt]
        rw [Nat.mod_eq_of_lt hlt, ← hoffset] at hrest
        have hlast := ih hfirst.self (by omega) hrest
        rw [hoffset, Nat.add_assoc] at hlast
        exact hlast
      · exact absurd (callsFit_of_empty (List.eq_nil_of_length_eq_zero (by omega)) _) hrest
    · have hpos : 0 < buf.length := by
        by_contra hzero
        exact hbuf (Or.inl (by have := Nat.mod_lt th.offset smallblock_pos; omega))
      have hfirst := @hash_loses d th buf hth (by omega) hbuf
      have hle := hfirst.offset_le
      exact foldl_hash_inFirstBlock hfirst.self (by omega) (by omega)

end FirstBlock

section Digests

/-- Digests that tell data of different lengths apart. -/
def lengthDigests : Digests :=
  ⟨fun data => leBytes 16 data.length, id, fun _ => length_leBytes 16 _⟩

theorem leValue_md5 {data : Bytes} (h : data.length < 256 ^ 16) : leValue (lengthDigests.md5 data) = data.length :=
  leValue_leBytes h

theorem callsFit_single {buf : Bytes} (hle : buf.length ≤ treehash_blocksize) : CallsFit 0 [buf] :=
  ⟨Or.inr ⟨rfl, by omega⟩, trivial⟩

/-- The digest of one block starts with that of its bytes. -/
theorem take_digest_block {d : Digests} (hash_output : Bool) {buf : Bytes} (hne : buf ≠ [])
    (hle : buf.length ≤ treehash_blocksize) : (TreeHash.digest d hash_output [buf]).take 16 = d.md5 buf := by
  obtain hlt | heq := Nat.lt_or_eq_of_le hle
  · obtain ⟨hfirst, hmd5⟩ := @foldl_feed_inFirstBlock d buf hlt
    have hpos : (buf.foldl (TreeHash.feed d) TreeHash.new).offset ≠ 0 := by
      rw [← hfirst.length_md5sum, hmd5]
      exact (List.length_pos_of_ne_nil hne).ne'
    rw [digest_feed hash_output (callsFit_single hle), List.flatten_singleton, finalize_inFirstBlock hfirst hpos, hmd5]
    exact List.take_left' (d.length_md5 buf)
  · obtain ⟨hlevel, hsparse⟩ := @addHash_first d TreeHash.new (blockHash d buf) rfl
    rw [digest_eq, List.foldl_cons, List.foldl_nil, hash_block TreeHash.fresh_new heq,
      finalize_single (addHash_offset _ _) hsparse hlevel]
    exact List.take_left' (d.length_md5 buf)

/-- Without all bytes the digest is another one. -/
theorem digest_ne_of_loses (hash_output : Bool) {bufs : List Bytes} (hle : bufs.flatten.length ≤ treehash_blocksize)
    (hfits : ¬ CallsFit 0 bufs) :
    TreeHash.digest lengthDigests hash_output bufs ≠ TreeHash.digest lengthDigests hash_output [bufs.flatten] := by
  intro heq
  have hne : bufs.flatten ≠ [] := fun hempty => hfits (callsFit_of_empty hempty 0)
  have hpos := List.length_pos_of_ne_nil hne
  have hwhole := @take_digest_block lengthDigests hash_output bufs.flatten hne hle
  have hloses := @foldl_hash_loses lengthDigests TreeHash.new bufs ⟨rfl, rfl, rfl, Nat.le_refl _⟩
    (by rw [show TreeHash.new.offset = 0 from rfl]; omega) hfits
  have hmost := hloses.offset_le
  rw [show TreeHash.new.offset = 0 from rfl] at hmost
  have hblock : treehash_blocksize < 256 ^ 16 := by decide
  rw [← heq, digest_eq] at hwhole
  by_cases hzero : (bufs.foldl (TreeHash.hash lengthDigests) TreeHash.new).offset = 0
  · have hnone : (bufs.foldl (TreeHash.hash lengthDigests) TreeHash.new).finalize lengthDigests = [] := by
      unfold TreeHash.finalize
      simp [hzero, hloses.level_hash]
      rfl
    rw [hnone] at hwhole
    have hlength := congrArg List.length hwhole
    simp [lengthDigests, length_leBytes] at hlength
  · rw [finalize_inFirstBlock hloses hzero, List.take_left' (lengthDigests.length_md5 _)] at hwhole
    have hvalue := congrArg leValue hwhole
    rw [leValue_md5 (by rw [hloses.length_md5sum]; omega), leValue_md5 (by omega), hloses.length_md5sum] at hvalue
    omega

/-- Up to a block, calls give the digest of one call if and only if all of them
fit. -/
theorem digest_eq_single_iff {bufs : List Bytes} (hle : bufs.flatten.length ≤ treehash_blocksize) :
    (∀ d hash_output, TreeHash.digest d hash_output bufs = TreeHash.digest d hash_output [bufs.flatten]) ↔ CallsFit 0 bufs := by
  constructor
  · intro h
    by_contra hfits
    exact digest_ne_of_loses false hle hfits (h lengthDigests false)
  · intro hfits d hash_output
    rw [digest_feed hash_output hfits, digest_feed hash_output (callsFit_single hle), List.flatten_singleton]

end Digests

/-- What `finalize` does with a block that is not complete. -/
def TreeHash.finishBlock (d : Digests) (th : TreeHash) : TreeHash :=
  if th.offset ≠ 0 then { th with offset := 0 }.finalize_curr d else th

section StoredLeaf

variable {d : Digests} {th : TreeHash} {data : Bytes}

theorem hash_finishBlock (hth : th.Fresh) (hne : data ≠ []) (hle : data.length ≤ treehash_blocksize) :
    (th.hash d data).finishBlock d = th.addHash d (blockHash d data) := by
  have hnext : (th.addHash d (blockHash d data)).offset = 0 := (hth.addHash _).offset_eq
  obtain hlt | heq := Nat.lt_or_eq_of_le hle
  · have hpos := List.length_pos_of_ne_nil hne
    have hloop := @hashLoop_eq d th data hle 0 (List.replicate 12 adler_init) [] hpos
    rw [Nat.mul_zero, hth.within_eq] at hloop
    dsimp only at hloop
    rw [if_neg hlt.ne, List.drop_zero, List.nil_append] at hloop
    have hlast : (th.within data.length (streamAdlers 0 (chunks data) (List.replicate 12 adler_init)) data).offset ≠ 0 :=
      hpos.ne'
    rw [TreeHash.hash, hth.offset_eq, Nat.zero_add, hloop, TreeHash.finishBlock, if_pos hlast]
    exact finalize_curr_within hth _ _
  · rw [hash_block hth heq, TreeHash.finishBlock, if_neg (not_not.mpr hnext)]

theorem adlers_fresh (hth : th.Fresh) : Adlers th := by
  rw [Adlers, hth.adlers_eq]
  exact adlers_init

theorem length_streamAdlers (k : Nat) (cs : List Bytes) (adlers : List Nat) :
    (streamAdlers k cs adlers).length = adlers.length := by
  induction cs generalizing k adlers with
  | nil => rfl
  | cons c cs ih => rw [streamAdlers, ih, List.length_modify]

theorem length_blockHash (d : Digests) (data : Bytes) : (blockHash d data).length = 64 := by
  rw [blockHash, List.length_append, d.length_md5, length_flatMap_fixed fun _ => length_leBytes 4 _, length_streamAdlers]
  rfl

end StoredLeaf

/-- The digest of a block and the checksums of its chunks give the 64 bytes that
the block itself gives: they are the only leaf of a new hash, and add to any other
what hashing the block adds. -/
theorem storedLeaf_eq_hash (d : Digests) (hash_output : Bool) {data : Bytes} (hne : data ≠ [])
    (hle : data.length ≤ treehash_blocksize) :
    let leaf := TreeHash.allAdlerTo64byteHash (record d data) data.length
    leaf.length = 64 ∧ ((TreeHash.new.hashCall d hash_output data).finishBlock d).level_hash = [[leaf]] ∧
      ∀ th : TreeHash, th.Fresh →
        (th.hashCall d hash_output data).finishBlock d = th.addHashAllAdler d (record d data) data.length := by
  have hhash : ∀ th : TreeHash, th.Fresh →
      (th.hashCall d hash_output data).finishBlock d = th.addHash d (blockHash d data) := by
    intro th hth
    rw [(hashCall_eq hash_output (adlers_fresh hth) data).1]
    exact hash_finishBlock hth hne hle
  dsimp only
  rw [allAdlerTo64byteHash_record]
  refine ⟨length_blockHash d data, ?_, fun th hth => ?_⟩
  · rw [hhash _ TreeHash.fresh_new]
    exact (addHash_first rfl).1
  · rw [hhash th hth, addHashAllAdler_record]

/-- A block with a short second chunk. -/
theorem storedLeaf_eq_hash_two_chunks :
    let data := List.replicate 4097 (7 : UInt8)
    let leaf := TreeHash.allAdlerTo64byteHash (record lengthDigests data) data.length
    leaf.length = 64 ∧ ((TreeHash.new.hashCall lengthDigests true data).finishBlock lengthDigests).level_hash = [[leaf]] := by
  have hlength : (List.replicate 4097 (7 : UInt8)).length = 4097 := List.length_replicate
  have hleaf := storedLeaf_eq_hash lengthDigests true (List.ne_nil_of_length_pos (by rw [hlength]; decide))
    (by rw [hlength]; decide)
  exact ⟨hleaf.1, hleaf.2.1⟩

end urbackup.chunkhash
