import UrBackup.CompressedFile.Workers

namespace urbackup.compressedfile

open stringtools filedata

namespace CompressedFile

variable {codec : Codec} {mem : Nat → Nat → UInt8} {s : CompressedFile}

/-- The caller can go on. Only a file without an index has an error. -/
structure Ready (codec : Codec) (s : CompressedFile) : Prop where
  good : Good codec s
  lossless : Lossless codec s.blocksize
  sync : s.n_threads = 0 → s.evictedItems = [] ∧ s.working = []
  readOnly : ReadOnly codec s
  error : s.error = true → s.readOnly = true ∧ s.blockOffsets = []

section Evict

variable {item : SCacheItem} {rest : List SCacheItem}

end Evict

section Buffers

/-- More items of a file that is only read. -/
theorem ReadOnly.of_items {s' : CompressedFile} (h : ReadOnly codec s) (hreadOnly : s'.readOnly = s.readOnly)
    (hthreads : s'.n_threads = s.n_threads) (hevicted : s'.evictedItems = s.evictedItems) (hworking : s'.working = s.working)
    (hoffsets : s'.blockOffsets = s.blockOffsets) (hnumber : s'.numBlockOffsets = s.numBlockOffsets)
    (hblocksize : s'.blocksize = s.blocksize) (hfile : s'.uncompressedFile = s.uncompressedFile)
    (hsize : s'.uncompressedFileSize = s.uncompressedFileSize)
    (hitems : ∀ item ∈ s'.lruItems, item ∈ s.lruItems ∨ InFile codec s (item.offset / s.blocksize) item.buffer) :
    ReadOnly codec s' := by
  intro htrue
  obtain ⟨hthreads', hevicted', hworking', hnumber', hin⟩ := h (hreadOnly ▸ htrue)
  refine ⟨hthreads.trans hthreads', hevicted.trans hevicted', hworking.trans hworking', ?_, fun item hmem => ?_⟩
  · rw [hnumber, hoffsets, hnumber']
  · have hitem : InFile codec s (item.offset / s.blocksize) item.buffer := (hitems item hmem).elim (hin item) id
    rw [hblocksize]
    exact hitem.mono hblocksize hoffsets fun _ _ hst => hst.congr hblocksize hfile (le_of_eq hsize.symm)

theorem Ready.writable {s' : CompressedFile} (h : Ready codec s) (hunseen : Unseen codec s s') (hreadOnly : s.readOnly = false)
    (hsync : s.n_threads = 0 → s'.evictedItems = [] ∧ s'.working = []) : Ready codec s' where
  good := hunseen.good
  lossless := hunseen.blocksize ▸ h.lossless
  sync := fun hthreads => hsync (hunseen.n_threads ▸ hthreads)
  readOnly := by
    intro htrue
    rw [hunseen.readOnly, hreadOnly] at htrue
    cases htrue
  error := by
    intro herror
    rw [hunseen.error] at herror
    have htrue := (h.error herror).1
    rw [hreadOnly] at htrue
    cases htrue

end Buffers

section Push

variable {k offset : Nat} {buffer : Bytes} (hk : offset / s.blocksize = k) (hlength : buffer.length = s.blocksize)
  (hnot : ∀ item ∈ s.live, item.offset ≠ k * s.blocksize)

include hk hlength hnot

end Push

section Lookup

variable {offset : Nat}

end Lookup

section Fill

variable {k offset : Nat} {data : Bytes}

/-- The block is in the cache now. -/
structure Filled (codec : Codec) (s s' : CompressedFile) (k : Nat) (data : Bytes) : Prop where
  ready : Ready codec s'
  has : ∀ j e, Has codec s j e → Has codec s' j e
  known : ∀ j, s.Known j → s'.Known j
  self : ⟨k * s.blocksize, data⟩ ∈ s'.lruItems
  blocksize : s'.blocksize = s.blocksize
  filesize : s'.filesize = s.filesize
  currentPosition : s'.currentPosition = s.currentPosition
  n_threads : s'.n_threads = s.n_threads
  readOnly : s'.readOnly = s.readOnly

theorem InFile.length_eq (h : InFile codec s k data) : data.length = s.blocksize := by
  unfold InFile at h
  cases hentry : s.blockOffsets[k]? with
  | none =>
    rw [hentry] at h
    exact h.elim
  | some entry =>
    rw [hentry] at h
    cases entry with
    | none => rw [h, List.length_replicate]
    | some blockOffset => exact StoredAt.length_eq h

end Fill

section Clear

variable {items : List SCacheItem}

end Clear

end CompressedFile

end urbackup.compressedfile
