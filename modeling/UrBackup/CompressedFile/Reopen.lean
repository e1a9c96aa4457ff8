import UrBackup.CompressedFile.ByteArray

namespace urbackup.compressedfile

open stringtools filedata

namespace CompressedFile

variable {codec : Codec} {s : CompressedFile}

section Header

end Header

section Index

end Index

section Open

variable {offsets : List (Option Nat)}

/-- The state after the header was read. -/
def opened (s : CompressedFile) (file : Bytes) (n_threads : Nat) : CompressedFile :=
  { blocksize := s.blocksize
    filesize := s.filesize
    index_offset := s.index_offset
    currentPosition := 0
    blockOffsets := []
    numBlockOffsets := 0
    uncompressedFile := file
    uncompressedFileSize := file.length
    lruItems := []
    evictedItems := []
    working := []
    lruItemBuffers := []
    n_threads := n_threads - 1
    allocated := 0
    error := false
    readOnly := true }

end Open

section Finish

variable {a : Array}

/-- The file that `finish` leaves, after the cache was cleared. -/
structure Finished (codec : Codec) (s t : CompressedFile) (file : Bytes) : Prop where
  header : slice file 0 c_header_size = t.header
  index : slice file t.index_offset (8 * t.nOffsetItems) = (s.blockOffsets.take t.nOffsetItems).flatMap offsetBytes
  blocks : ∀ offset length, c_header_size ≤ offset → offset + length ≤ s.uncompressedFile.length →
    slice file offset length = slice s.uncompressedFile offset length
  length : s.uncompressedFile.length ≤ file.length
  index_offset : t.index_offset = s.uncompressedFile.length
  filesize : t.filesize = s.filesize
  blocksize : t.blocksize = s.blocksize

/-- A file that was finished, after it was opened again. -/
theorem Finished.ready {t : CompressedFile} {file : Bytes} {n_threads : Nat} (h : Finished codec s t file)
    (hgood : Good codec s) (hcodec : Lossless codec s.blocksize) (hthreads : n_threads ≤ 1) {error : Bool}
    (herror : error = true → t.nOffsetItems = 0) (hn : t.nOffsetItems ≤ s.blockOffsets.length) :
    Ready codec { t.opened file n_threads with
        blockOffsets := s.blockOffsets.take t.nOffsetItems, numBlockOffsets := t.nOffsetItems, error := error } ∧
      ∀ k data, k < t.nOffsetItems → InFile codec s k data → InFile codec { t.opened file n_threads with
        blockOffsets := s.blockOffsets.take t.nOffsetItems, numBlockOffsets := t.nOffsetItems, error := error } k data := by
  have hstored : ∀ {offset data}, StoredAt codec s offset data → StoredAt codec { t.opened file n_threads with
      blockOffsets := s.blockOffsets.take t.nOffsetItems, numBlockOffsets := t.nOffsetItems, error := error } offset data := by
    intro offset data hst
    have hle := hst.le_length
    refine ⟨hst.header_le, hst.length_eq.trans h.blocksize.symm, ?_, hle.trans h.length⟩
    exact (h.blocks _ _ hst.header_le hle).trans hst.bytes
  have hlength := hgood.layout.length_ge.trans h.length
  refine ⟨⟨⟨⟨?_, ?_, ?_, ?_, ?_, ?_⟩, ⟨hlength, hlength, ?_, ?_, ?_, ?_, ?_⟩⟩, ?_, ?_, ?_, ?_⟩, ?_⟩
  · exact h.blocksize ▸ hgood.items.blocksize_pos
  · simp [live, pending, opened]
  · simp [live, pending, opened]
  · simp [live, pending, opened]
  · simp [opened]
  · simp [opened]
  · intro k offset hk
    dsimp only at hk
    rw [List.getElem?_take] at hk
    split at hk
    · obtain ⟨data, hst, -⟩ := hgood.layout.file k offset hk
      exact ⟨data, hstored hst, by simp [opened]⟩
    · cases hk
  · simp [opened]
  · simp [opened]
  · simp [opened]
  · dsimp only
    rw [List.length_take]
    omega
  · exact h.blocksize ▸ hcodec
  · exact fun _ => ⟨rfl, rfl⟩
  · refine fun _ => ⟨Nat.sub_eq_zero_of_le hthreads, rfl, rfl, ?_, by simp [opened]⟩
    dsimp only
    rw [List.length_take]
    omega
  · intro htrue
    refine ⟨rfl, ?_⟩
    dsimp only
    rw [herror htrue, List.take_zero]
  · intro k data hk hfile
    unfold InFile at hfile ⊢
    dsimp only
    rw [List.getElem?_take, if_pos hk]
    cases hentry : s.blockOffsets[k]? with
    | none =>
      rw [hentry] at hfile
      exact hfile
    | some entry =>
      rw [hentry] at hfile
      cases entry with
      | none =>
        dsimp only [opened] at hfile ⊢
        rw [h.blocksize]
        exact hfile
      | some offset => exact hstored hfile

end Finish

section Results

end Results

end CompressedFile

end urbackup.compressedfile
