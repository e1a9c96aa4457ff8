import UrBackup.CompressedFile.Blocks

namespace urbackup.compressedfile

open stringtools filedata

namespace CompressedFile

section Steps

variable (codec : Codec) (s : CompressedFile)

/-- A worker takes the last of the evicted items. -/
def workerTake : Option CompressedFile :=
  match s.evictedItems.getLast? with
  | none => none
  | some item =>
    if s.working.length < s.n_threads then
      some { s with evictedItems := s.evictedItems.dropLast, working := s.working ++ [⟨item, .taken⟩] }
    else none

/-- It compresses the item and reserves its place in the file. -/
def workerReserve (i : Nat) : Option CompressedFile :=
  match s.working[i]? with
  | some ⟨item, .taken⟩ =>
    some { s.reserve codec item.buffer with working := s.working.set i ⟨item, .reserved s.uncompressedFileSize⟩ }
  | _ => none

def workerWrite (i : Nat) : Option CompressedFile :=
  match s.working[i]? with
  | some ⟨item, .reserved blockOffset⟩ =>
    some { s.writeToFile blockOffset (blob codec item.buffer) with
      working := s.working.set i ⟨item, .written blockOffset⟩ }
  | _ => none

def workerPublish (i : Nat) : Option CompressedFile :=
  match s.working[i]? with
  | some ⟨item, .written blockOffset⟩ =>
    some { s.publish (item.offset / s.blocksize) blockOffset with working := s.working.set i ⟨item, .published⟩ }
  | _ => none

/-- The buffer can be used again. -/
def workerReturn (i : Nat) : Option CompressedFile :=
  match s.working[i]? with
  | some ⟨item, .published⟩ =>
    some { s with working := s.working.eraseIdx i, lruItemBuffers := s.lruItemBuffers ++ [item.buffer] }
  | _ => none

end Steps

variable {codec : Codec} {s : CompressedFile}

/-- A block with an item or a place in the index. -/
def Known (s : CompressedFile) (k : Nat) : Prop :=
  (∃ item ∈ s.live, item.offset = k * s.blocksize) ∨ k < s.numBlockOffsets

structure Good (codec : Codec) (s : CompressedFile) : Prop where
  items : Items s
  layout : Layout codec s

/-- The caller sees nothing of a step, and every block keeps its contents. -/
structure Unseen (codec : Codec) (s s' : CompressedFile) : Prop where
  good : Good codec s'
  has : ∀ k data, Has codec s k data → Has codec s' k data
  known : ∀ k, s.Known k → s'.Known k
  live : ∀ item ∈ s'.live, item ∈ s.live
  blocksize : s'.blocksize = s.blocksize
  filesize : s'.filesize = s.filesize
  currentPosition : s'.currentPosition = s.currentPosition
  n_threads : s'.n_threads = s.n_threads
  error : s'.error = s.error
  readOnly : s'.readOnly = s.readOnly

theorem Unseen.trans {a b c : CompressedFile} (hab : Unseen codec a b) (hbc : Unseen codec b c) : Unseen codec a c where
  good := hbc.good
  has := fun k data h => hbc.has k data (hab.has k data h)
  known := fun k h => hbc.known k (hab.known k h)
  live := fun item h => hab.live item (hbc.live item h)
  blocksize := hbc.blocksize.trans hab.blocksize
  filesize := hbc.filesize.trans hab.filesize
  currentPosition := hbc.currentPosition.trans hab.currentPosition
  n_threads := hbc.n_threads.trans hab.n_threads
  error := hbc.error.trans hab.error
  readOnly := hbc.readOnly.trans hab.readOnly

theorem Disjoint.symm {a n b m : Nat} (h : Disjoint a n b m) : Disjoint b m a n :=
  Or.symm h

section Lists

variable {ws vs : List Work}

/-- The item of a worker that has not got it into the index yet. -/
def unpublished (w : Work) : Option SCacheItem :=
  match w.stage with
  | .published => none
  | _ => some w.item

/-- The items but for that of a worker. -/
def others (s : CompressedFile) (ws vs : List Work) : List SCacheItem :=
  s.lruItems ++ (s.evictedItems ++ (ws.filterMap unpublished ++ vs.filterMap unpublished))

end Lists

section Steps

variable {ws vs : List Work} {item : SCacheItem} {blockOffset : Nat}

/-- Blocks that stay where they are. -/
theorem InFile.mono {s' : CompressedFile} {k : Nat} {data : Bytes} (h : InFile codec s k data)
    (hblocksize : s'.blocksize = s.blocksize) (hoffsets : s'.blockOffsets = s.blockOffsets)
    (hstored : ∀ blockOffset, s.blockOffsets[k]? = some (some blockOffset) → StoredAt codec s blockOffset data →
      StoredAt codec s' blockOffset data) : InFile codec s' k data := by
  unfold InFile at h ⊢
  rw [hoffsets, hblocksize]
  cases hk : s.blockOffsets[k]? with
  | none =>
    rw [hk] at h
    exact h
  | some entry =>
    rw [hk] at h
    cases entry with
    | none => exact h
    | some blockOffset => exact hstored blockOffset hk h

theorem InFile.lt_length {k : Nat} {data : Bytes} (h : InFile codec s k data) : k < s.blockOffsets.length := by
  by_contra hge
  rw [InFile, List.getElem?_eq_none (by omega)] at h
  exact h

/-- Steps that only move items around between those that are not in the file. -/
theorem Has.mono {s' : CompressedFile} {k : Nat} {data : Bytes} (h : Has codec s k data)
    (hblocksize : s'.blocksize = s.blocksize) (hlive : s'.live.Perm s.live)
    (hfile : InFile codec s k data → InFile codec s' k data) : Has codec s' k data := by
  unfold Has at h ⊢
  rw [hblocksize]
  obtain h | ⟨hnot, h⟩ := h
  · exact Or.inl (hlive.mem_iff.mpr h)
  · exact Or.inr ⟨fun item hmem => hnot item (hlive.mem_iff.mp hmem), hfile h⟩

theorem Known.mono {s' : CompressedFile} {k : Nat} (h : s.Known k) (hblocksize : s'.blocksize = s.blocksize)
    (hlive : s'.live.Perm s.live) (hnumber : s'.numBlockOffsets = s.numBlockOffsets) : s'.Known k := by
  unfold Known at h ⊢
  rw [hblocksize, hnumber]
  obtain ⟨item, hmem, hoffset⟩ | h := h
  · exact Or.inl ⟨item, hlive.mem_iff.mpr hmem, hoffset⟩
  · exact Or.inr h

theorem Items.perm {s' : CompressedFile} (h : Items s) (hblocksize : s'.blocksize = s.blocksize)
    (hlive : s'.live.Perm s.live) (hbuffers : ∀ buffer ∈ s'.lruItemBuffers, buffer.length = s.blocksize)
    (hworked : ∀ w ∈ s'.working, w.item.buffer.length = s.blocksize) : Items s' where
  blocksize_pos := hblocksize ▸ h.blocksize_pos
  aligned := fun item hmem => hblocksize ▸ h.aligned item (hlive.mem_iff.mp hmem)
  lengths := fun item hmem => hblocksize ▸ h.lengths item (hlive.mem_iff.mp hmem)
  distinct := (hlive.pairwise_iff fun hne heq => hne heq.symm).mpr h.distinct
  buffers := fun buffer hmem => hblocksize ▸ hbuffers buffer hmem
  worked := fun w hmem => hblocksize ▸ hworked w hmem

/-- There is one item of a block. -/
theorem Items.unique (h : Items s) {a b : SCacheItem} (ha : a ∈ s.live) (hb : b ∈ s.live) (hoffset : a.offset = b.offset) :
    a = b := by
  have hpairwise : s.live.Pairwise fun a b => a.offset = b.offset → a = b :=
    h.distinct.imp fun hne heq => absurd heq hne
  have hflip : s.live.Pairwise (flip fun a b => a.offset = b.offset → a = b) :=
    h.distinct.imp fun hne heq => absurd heq.symm hne
  exact List.Pairwise.forall_of_forall_of_flip (fun _ _ _ => rfl) hpairwise hflip ha hb hoffset

/-- The contents of a block are determined. -/
theorem Has.unique (h : Items s) (hcodec : Lossless codec s.blocksize) {k : Nat} {data data' : Bytes}
    (hhas : Has codec s k data) (hhas' : Has codec s k data') : data = data' := by
  obtain hmem | ⟨hnot, hfile⟩ := hhas
  · obtain hmem' | ⟨hnot', -⟩ := hhas'
    · exact (SCacheItem.mk.inj (h.unique hmem hmem' rfl)).2
    · exact absurd rfl (hnot' _ hmem)
  · obtain hmem' | ⟨-, hfile'⟩ := hhas'
    · exact absurd rfl (hnot _ hmem')
    · unfold InFile at hfile hfile'
      cases hentry : s.blockOffsets[k]? with
      | none =>
        rw [hentry] at hfile
        exact hfile.elim
      | some entry =>
        rw [hentry] at hfile hfile'
        cases entry with
        | none => exact hfile.trans hfile'.symm
        | some blockOffset => exact hfile.unique hcodec hfile'

section Index

variable (s : CompressedFile) (k blockOffset : Nat)

end Index

section Layouts

variable {s' : CompressedFile} (h : Layout codec s) (hblocksize : s'.blocksize = s.blocksize) (hfile : s'.uncompressedFile = s.uncompressedFile)
  (hsize : s'.uncompressedFileSize = s.uncompressedFileSize) (hoffsets : s'.blockOffsets = s.blockOffsets)
  (hnumber : s'.numBlockOffsets = s.numBlockOffsets)

include h hblocksize hfile hsize hoffsets hnumber

/-- Workers without a place in the file come and go. -/
theorem Layout.of_working
    (hmem : ∀ w ∈ s'.working, w ∈ s.working ∨ Work.region w = none)
    (hapart : s'.working.Pairwise fun v w => ∀ offset, Work.region v = some offset → ClearOf codec offset v.item.buffer w) :
    Layout codec s' := by
  have hstored : ∀ {offset data}, StoredAt codec s offset data → StoredAt codec s' offset data :=
    fun hst => hst.congr hblocksize hfile (le_of_eq hsize.symm)
  refine ⟨hsize ▸ h.size_ge, hfile ▸ h.length_ge, ?_, ?_, hapart, ?_, ?_⟩
  · intro k blockOffset hk
    rw [hoffsets] at hk
    obtain ⟨data, hst, hclear⟩ := h.file k blockOffset hk
    refine ⟨data, hstored hst, fun w hw => ?_⟩
    obtain hw | hnone := hmem w hw
    · exact hclear w hw
    · intro offset hregion
      rw [hnone] at hregion
      cases hregion
  · intro w hw offset hregion
    obtain hw | hnone := hmem w hw
    · rw [hsize]
      exact h.regions w hw offset hregion
    · rw [hnone] at hregion
      cases hregion
  · intro w hw offset hstage
    obtain hw | hnone := hmem w hw
    · exact hstored (h.written w hw offset hstage)
    · rw [Work.region, hstage] at hnone
      cases hnone
  · rw [hoffsets, hnumber]
    exact h.numbered

end Layouts

end Steps

section Unseen

variable {ws vs : List Work} {item : SCacheItem} {blockOffset : Nat}

variable (h : Good codec s)

include h

end Unseen

section Steps

variable (h : Good codec s) {s' : CompressedFile}

include h

end Steps

end CompressedFile

end urbackup.compressedfile
