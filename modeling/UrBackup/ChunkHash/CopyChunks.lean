import UrBackup.ChunkHash.ChunkHashFile

namespace urbackup.chunkhash

open stringtools filedata

theorem small_hash_dist_pos : 0 < c_small_hash_dist := by decide

/-- The checksum of a chunk as the old chunk hashes have it. -/
def storedSmallHash (hashes : Bytes) (chunkidx : Nat) : Bytes :=
  slice hashes (big_hash_size + chunkidx * small_hash_size) small_hash_size

/-- The checksum of a chunk says that the old one is the same. -/
def SameChecksum (hashes : Bytes) (chunkidx : Nat) (chunk : Bytes) : Prop :=
  leBytes 4 (urb_adler32 adler_init chunk) = storedSmallHash hashes chunkidx

instance (hashes : Bytes) (chunkidx : Nat) (chunk : Bytes) : Decidable (SameChecksum hashes chunkidx chunk) :=
  inferInstanceAs (Decidable (_ = _))

/-- The data of the control digest: the new chunk where the checksums agree, the
old one elsewhere. -/
def controlData (hashes : Bytes) : Nat → List Bytes → Bytes → Bytes
  | _, [], _ => []
  | chunkidx, chunk :: rest, old =>
    (if SameChecksum hashes chunkidx chunk then chunk else old.take c_small_hash_dist) ++
      controlData hashes (chunkidx + 1) rest (old.drop c_small_hash_dist)

/-- Chunks with the same checksum are the same. -/
def ChunksAgree (hashes : Bytes) : Nat → List Bytes → Bytes → Prop
  | _, [], _ => True
  | chunkidx, chunk :: rest, old =>
    (SameChecksum hashes chunkidx chunk → chunk = old.take c_small_hash_dist) ∧
      ChunksAgree hashes (chunkidx + 1) rest (old.drop c_small_hash_dist)

theorem chunks_cons {data : Bytes} (h : data ≠ []) :
    chunks data = data.take c_small_hash_dist :: chunks (data.drop c_small_hash_dist) :=
  pieces_eq small_hash_dist_pos h

/-- A chunk is shorter only at the end. -/
theorem take_chunk_length (data : Bytes) :
    (data.take c_small_hash_dist).length = c_small_hash_dist ∨ data.drop c_small_hash_dist = [] := by
  by_cases h : c_small_hash_dist ≤ data.length
  · exact Or.inl (by simp [h])
  · exact Or.inr (List.drop_eq_nil_of_le (by omega))

theorem copyChunks_none (modify_inplace : Bool) (chunk_hashes : Option Bytes) (chunkidx : Nat) (cs : List Bytes) :
    copyChunks modify_inplace chunk_hashes chunkidx cs none = ([], none) := by
  induction cs generalizing chunkidx with
  | nil => rfl
  | cons chunk cs ih => simp [copyChunks, copyChunk, ih]

/-- A copy that is written whole blocks at a time is left alone. -/
theorem copyChunks_whole (chunk_hashes : Option Bytes) (chunkidx : Nat) (cs : List Bytes) (c : CopyState) :
    copyChunks false chunk_hashes chunkidx cs (some c) = ([], some c) := by
  induction cs generalizing chunkidx with
  | nil => rfl
  | cons chunk cs ih => simp [copyChunks, copyChunk, ih]

section InPlace

/-- The old data behind the chunk is still there. -/
theorem putHashed_drop (c : CopyState) (hashes : Bytes) (chunkidx : Nat) (small_hash chunk : Bytes) :
    (c.putHashed hashes chunkidx small_hash chunk).2.copy_write_pos = c.copy_write_pos + chunk.length ∧
      (c.putHashed hashes chunkidx small_hash chunk).2.file.content.drop (c.copy_write_pos + chunk.length) =
        c.file.content.drop (c.copy_write_pos + chunk.length) := by
  unfold CopyState.putHashed
  split
  · exact ⟨rfl, rfl⟩
  · exact ⟨rfl, drop_overwrite 0 (Nat.le_refl _)⟩

theorem copyChunks_some (hashes : Bytes) (chunkidx : Nat) (cs : List Bytes) (c : CopyState) :
    ∃ c', (copyChunks true (some hashes) chunkidx cs (some c)).2 = some c' := by
  induction cs generalizing chunkidx c with
  | nil => exact ⟨c, rfl⟩
  | cons chunk cs ih => exact ih (chunkidx + 1) _

/-- The control digest gets the control data. -/
theorem copyChunks_control (hashes : Bytes) (chunkidx : Nat) (data old : Bytes) (c : CopyState)
    (hold : c.file.content.drop c.copy_write_pos = old) :
    (copyChunks true (some hashes) chunkidx (chunks data) (some c)).1 =
      controlData hashes chunkidx (chunks data) old := by
  induction hm : data.length using Nat.strongRecOn generalizing chunkidx data old c with
  | ind m ih =>
    by_cases hdata : data = []
    · simp [hdata, chunks, copyChunks, controlData]
    · have hlen := List.length_pos_of_ne_nil hdata
      rw [chunks_cons hdata, copyChunks, controlData]
      simp only [copyChunk, if_true]
      have hread : (c.putHashed hashes chunkidx (leBytes 4 (urb_adler32 adler_init (data.take c_small_hash_dist)))
          (data.take c_small_hash_dist)).1 =
          if SameChecksum hashes chunkidx (data.take c_small_hash_dist) then data.take c_small_hash_dist
          else old.take c_small_hash_dist := by
        unfold CopyState.putHashed
        by_cases hsame : SameChecksum hashes chunkidx (data.take c_small_hash_dist)
        · rw [if_pos hsame]
          exact congrArg Prod.fst (if_pos hsame)
        · rw [if_neg hsame, ← hold]
          exact congrArg Prod.fst (if_neg hsame)
      obtain ⟨hpos, hdrop⟩ := putHashed_drop c hashes chunkidx
        (leBytes 4 (urb_adler32 adler_init (data.take c_small_hash_dist))) (data.take c_small_hash_dist)
      rw [hread]
      congr 1
      obtain hfull | hend := take_chunk_length data
      · refine ih (data.drop c_small_hash_dist).length ?_ _ _ _ _ ?_ rfl
        · rw [List.length_drop]
          have := small_hash_dist_pos
          omega
        · rw [hpos, hdrop, hfull, ← hold, List.drop_drop]
      · simp [hend, chunks, copyChunks, controlData]

/-- What writing a chunk in place makes of the copy. -/
def Wrote (pre chunk old : Bytes) (c' : CopyState) : Prop :=
  c'.file.content = pre ++ chunk ++ old.drop chunk.length ∧ c'.copy_write_pos = pre.length + chunk.length

theorem same_chunk {pre chunk old : Bytes} (h : chunk = old.take c_small_hash_dist) :
    pre ++ old = pre ++ chunk ++ old.drop chunk.length := by
  have hdrop : old.drop (old.take c_small_hash_dist).length = old.drop c_small_hash_dist := by
    rw [List.length_take]
    by_cases hlen : c_small_hash_dist ≤ old.length
    · rw [Nat.min_eq_left hlen]
    · rw [Nat.min_eq_right (by omega), List.drop_length, List.drop_eq_nil_of_le (by omega)]
  rw [h, hdrop, List.append_assoc, List.take_append_drop]

theorem putHashed_wrote {pre old : Bytes} {c : CopyState} (hcontent : c.file.content = pre ++ old)
    (hpos : c.copy_write_pos = pre.length) {hashes : Bytes} {chunkidx : Nat} {chunk : Bytes}
    (hagree : SameChecksum hashes chunkidx chunk → chunk = old.take c_small_hash_dist) :
    Wrote pre chunk old (c.putHashed hashes chunkidx (leBytes 4 (urb_adler32 adler_init chunk)) chunk).2 := by
  unfold CopyState.putHashed
  split
  · next hsame =>
    refine ⟨?_, by rw [hpos]⟩
    rw [← same_chunk (hagree hsame)]
    exact hcontent
  · refine ⟨?_, by rw [hpos]⟩
    show overwrite 0 c.file.content c.copy_write_pos chunk = _
    rw [hcontent, hpos, overwrite_append]

theorem putCompared_wrote {pre old : Bytes} {c : CopyState} (hcontent : c.file.content = pre ++ old)
    (hpos : c.copy_write_pos = pre.length) (chunk : Bytes) : Wrote pre chunk old (c.putCompared chunk) := by
  have hwrite : overwrite 0 c.file.content c.copy_write_pos chunk = pre ++ chunk ++ old.drop chunk.length := by
    rw [hcontent, hpos, overwrite_append]
  have hread : slice c.file.content c.copy_write_pos c_small_hash_dist = old.take c_small_hash_dist := by
    rw [slice, hcontent, hpos, List.drop_left]
  unfold CopyState.putCompared
  cases heof : c.copy_read_eof with
  | true =>
    refine ⟨?_, by rw [hpos]⟩
    simp only [if_true, Bool.true_or]
    exact hwrite
  | false =>
    refine ⟨?_, by rw [hpos]⟩
    simp only [IFile.Read, IFile.Seek, hread, Bool.false_eq_true, if_false, Bool.false_or]
    split
    · exact hwrite
    · next hsame =>
      simp only [Bool.or_eq_true, decide_eq_true_eq, not_or, ne_eq, not_not] at hsame
      rw [← same_chunk hsame.2.symm]
      exact hcontent

/-- The chunks of a block, written in place, replace as much of the copy. -/
theorem copyChunks_wrote (chunk_hashes : Option Bytes) (chunkidx : Nat) (data pre old : Bytes) (c : CopyState)
    (hcontent : c.file.content = pre ++ old) (hpos : c.copy_write_pos = pre.length)
    (hagree : ∀ hashes, chunk_hashes = some hashes → ChunksAgree hashes chunkidx (chunks data) old) :
    ∃ c', (copyChunks true chunk_hashes chunkidx (chunks data) (some c)).2 = some c' ∧ Wrote pre data old c' := by
  induction hm : data.length using Nat.strongRecOn generalizing chunkidx data pre old c with
  | ind m ih =>
    by_cases hdata : data = []
    · refine ⟨c, by simp [hdata, chunks, copyChunks], ?_, ?_⟩
      · simp [hdata, hcontent]
      · simp [hdata, hpos]
    · have hlen := List.length_pos_of_ne_nil hdata
      rw [chunks_cons hdata] at hagree ⊢
      have hstep : ∃ c1, (copyChunk true chunk_hashes chunkidx
          (leBytes 4 (urb_adler32 adler_init (data.take c_small_hash_dist))) (data.take c_small_hash_dist) (some c)).2 =
          some c1 ∧ Wrote pre (data.take c_small_hash_dist) old c1 := by
        cases hhashes : chunk_hashes with
        | none => exact ⟨_, rfl, putCompared_wrote hcontent hpos _⟩
        | some hashes => exact ⟨_, rfl, putHashed_wrote hcontent hpos (hagree hashes hhashes).1⟩
      obtain ⟨c1, hc1, hwrote1, hpos1⟩ := hstep
      have hrest : ∀ hashes, chunk_hashes = some hashes →
          ChunksAgree hashes (chunkidx + 1) (chunks (data.drop c_small_hash_dist))
            (old.drop (data.take c_small_hash_dist).length) := by
        intro hashes hhashes
        obtain hfull | hend := take_chunk_length data
        · rw [hfull]
          exact (hagree hashes hhashes).2
        · simp [hend, chunks, ChunksAgree]
      obtain ⟨c2, hc2, hwrote2, hpos2⟩ := ih (data.drop c_small_hash_dist).length
        (by rw [List.length_drop]; have := small_hash_dist_pos; omega) (chunkidx + 1) (data.drop c_small_hash_dist)
        (pre ++ data.take c_small_hash_dist) (old.drop (data.take c_small_hash_dist).length) c1 hwrote1
        (by rw [hpos1, List.length_append]) hrest rfl
      refine ⟨c2, ?_, ?_, ?_⟩
      · rw [copyChunks]
        simp only [hc1, hc2]
      · rw [hwrote2, List.drop_drop, ← List.length_append, List.take_append_drop, List.append_assoc pre,
          List.take_append_drop]
      · rw [hpos2, List.length_append, Nat.add_assoc, ← List.length_append, List.take_append_drop]

end InPlace

section Control

/-- The new block covers the chunks of the old one, and no two chunks at the
same place have the same checksum but different data. -/
structure NoFalseMatch (hashes new old : Bytes) : Prop where
  covers : (chunks old).length ≤ (chunks new).length
  same : ∀ i, c_small_hash_dist * i < new.length →
    SameChecksum hashes i (slice new (c_small_hash_dist * i) c_small_hash_dist) →
    slice new (c_small_hash_dist * i) c_small_hash_dist = slice old (c_small_hash_dist * i) c_small_hash_dist

theorem chunksAgree_iff (hashes : Bytes) (k : Nat) (new old : Bytes) :
    ChunksAgree hashes k (chunks new) old ↔ ∀ i, c_small_hash_dist * i < new.length →
      SameChecksum hashes (k + i) (slice new (c_small_hash_dist * i) c_small_hash_dist) →
      slice new (c_small_hash_dist * i) c_small_hash_dist = slice old (c_small_hash_dist * i) c_small_hash_dist := by
  induction hm : new.length using Nat.strongRecOn generalizing k new old with
  | ind m ih =>
    by_cases hnew : new = []
    · simp only [hnew, List.length_nil] at hm
      simp [hnew, chunks, ChunksAgree, ← hm]
    · have hlen := List.length_pos_of_ne_nil hnew
      have hs := small_hash_dist_pos
      have hfirst : ∀ xs : Bytes, slice xs (c_small_hash_dist * 0) c_small_hash_dist = xs.take c_small_hash_dist := by
        intro xs
        simp [slice]
      have hnext : ∀ (xs : Bytes) (i : Nat), slice xs (c_small_hash_dist * (i + 1)) c_small_hash_dist =
          slice (xs.drop c_small_hash_dist) (c_small_hash_dist * i) c_small_hash_dist := by
        intro xs i
        rw [slice_drop, Nat.mul_succ, Nat.add_comm]
      rw [chunks_cons hnew, ChunksAgree, ih (new.drop c_small_hash_dist).length (by rw [List.length_drop]; omega) _ _ _ rfl]
      constructor
      · rintro ⟨h0, hrest⟩ i hi hsame
        cases i with
        | zero =>
          rw [hfirst] at hsame ⊢
          rw [hfirst]
          exact h0 hsame
        | succ i =>
          rw [hnext] at hsame ⊢
          rw [hnext]
          refine hrest i (by rw [List.length_drop]; rw [Nat.mul_succ] at hi; omega) ?_
          rwa [show k + 1 + i = k + (i + 1) by omega]
      · intro h
        refine ⟨fun hsame => ?_, fun i hi hsame => ?_⟩
        · have h0 := h 0 (by omega)
          rw [hfirst, hfirst] at h0
          exact h0 hsame
        · have hi' := h (i + 1) (by rw [List.length_drop] at hi; rw [Nat.mul_succ]; omega)
          rw [hnext, hnext, show k + (i + 1) = k + 1 + i by omega] at hi'
          exact hi' hsame

theorem length_chunks_drop (old : Bytes) (n : Nat) :
    (chunks old).length ≤ n + 1 ↔ (chunks (old.drop c_small_hash_dist)).length ≤ n := by
  by_cases hold : old = []
  · simp [hold, chunks]
  · rw [chunks_cons hold, List.length_cons]
    omega

/-- The control data is the old block exactly if there is no false match. -/
theorem controlData_eq_iff (hashes : Bytes) (k : Nat) (new old : Bytes) :
    controlData hashes k (chunks new) old = old ↔
      (chunks old).length ≤ (chunks new).length ∧ ChunksAgree hashes k (chunks new) old := by
  induction hm : new.length using Nat.strongRecOn generalizing k new old with
  | ind m ih =>
    by_cases hnew : new = []
    · by_cases hold : old = []
      · simp [hnew, hold, chunks, controlData, ChunksAgree]
      · rw [hnew]
        simp only [chunks, pieces_nil, controlData, ChunksAgree, List.length_nil, and_true]
        constructor
        · exact fun h => absurd h.symm hold
        · intro h
          have hcons := chunks_cons hold
          rw [chunks, List.length_eq_zero_iff.mp (Nat.le_zero.mp h)] at hcons
          cases hcons
    · have hlen := List.length_pos_of_ne_nil hnew
      have hs := small_hash_dist_pos
      have hrest := ih (new.drop c_small_hash_dist).length (by rw [List.length_drop]; omega) (k + 1)
        (new.drop c_small_hash_dist) (old.drop c_small_hash_dist) rfl
      rw [chunks_cons hnew, controlData, ChunksAgree, List.length_cons, length_chunks_drop]
      by_cases hsame : SameChecksum hashes k (new.take c_small_hash_dist)
      · rw [if_pos hsame]
        constructor
        · intro h
          obtain hfull | hend := take_chunk_length new
          · have htake : old.take c_small_hash_dist = new.take c_small_hash_dist := by
              rw [← h, List.take_left' hfull]
            have hdrop : controlData hashes (k + 1) (chunks (new.drop c_small_hash_dist)) (old.drop c_small_hash_dist) =
                old.drop c_small_hash_dist := by
              nth_rewrite 2 [← h]
              rw [List.drop_left' hfull]
            obtain ⟨hcount, hagree⟩ := hrest.mp hdrop
            exact ⟨hcount, fun _ => htake.symm, hagree⟩
          · have hold : new.take c_small_hash_dist = old := by
              simpa [hend, chunks, controlData] using h
            have hshort : old.length ≤ c_small_hash_dist := by
              rw [← hold, List.length_take]
              omega
            rw [hend, List.drop_eq_nil_of_le hshort, List.take_of_length_le hshort]
            exact ⟨Nat.le_refl _, fun _ => hold, by simp [chunks, ChunksAgree]⟩
        · rintro ⟨hcount, hfirst, hagree⟩
          rw [hfirst hsame, hrest.mpr ⟨hcount, hagree⟩, List.take_append_drop]
      · rw [if_neg hsame]
        constructor
        · intro h
          have hdrop := List.append_cancel_left (h.trans (List.take_append_drop c_small_hash_dist old).symm)
          obtain ⟨hcount, hagree⟩ := hrest.mp hdrop
          exact ⟨hcount, fun hyes => absurd hyes hsame, hagree⟩
        · rintro ⟨hcount, _, hagree⟩
          rw [hrest.mpr ⟨hcount, hagree⟩, List.take_append_drop]

theorem noFalseMatch_iff (hashes new old : Bytes) :
    NoFalseMatch hashes new old ↔ controlData hashes 0 (chunks new) old = old := by
  rw [controlData_eq_iff, chunksAgree_iff]
  simp only [Nat.zero_add]
  exact ⟨fun h => ⟨h.covers, h.same⟩, fun h => ⟨h.1, h.2⟩⟩

end Control

end urbackup.chunkhash
