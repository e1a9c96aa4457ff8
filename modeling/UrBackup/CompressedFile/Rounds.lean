import UrBackup.CompressedFile.Cache

namespace urbackup.compressedfile

open stringtools filedata

namespace CompressedFile

variable {codec : Codec} {mem : Nat → Nat → UInt8} {s : CompressedFile}

section Definitions

variable (codec : Codec) (s : CompressedFile)

/-- A byte of the contents of the blocks. -/
def Holds (q : Nat) (b : UInt8) : Prop :=
  ∃ data, Has codec s (q / s.blocksize) data ∧ data[q % s.blocksize]? = some b

/-- No block that is not in the cache is on the way to the file at a position. -/
def Settled : Prop :=
  s.Cached (s.currentPosition / s.blocksize) ∨ ¬ s.Pending (s.currentPosition / s.blocksize)

end Definitions

section Put

variable {k offset : Nat} {data buffer : Bytes}

end Put

section Prepare

variable {k : Nat}

theorem Filled.refl (h : Ready codec s) {data : Bytes} (hmem : ⟨k * s.blocksize, data⟩ ∈ s.lruItems) :
    Filled codec s s k data where
  ready := h
  has := fun _ _ hhas => hhas
  known := fun _ hknown => hknown
  self := hmem
  blocksize := rfl
  filesize := rfl
  currentPosition := rfl
  n_threads := rfl
  readOnly := rfl

/-- A block that is nowhere. -/
theorem not_has {data : Bytes} (hnot : ∀ item ∈ s.live, item.offset ≠ k * s.blocksize) (hlength : s.blockOffsets.length ≤ k) :
    ¬ Has codec s k data := by
  rintro (hmem | ⟨-, hfile⟩)
  · exact hnot _ hmem rfl
  · have hlt := hfile.lt_length
    omega

end Prepare

section Write

/-- Bytes were written at the current position. -/
structure Wrote (codec : Codec) (s s' : CompressedFile) (buffer : Bytes) : Prop where
  ready : Ready codec s'
  old : ∀ q b, Holds codec s q b → q < s.currentPosition ∨ s.currentPosition + buffer.length ≤ q → Holds codec s' q b
  new : ∀ i b, buffer[i]? = some b → Holds codec s' (s.currentPosition + i) b
  known : ∀ j, s.Known j → s'.Known j
  reach : ∃ k, s'.Known k ∧ s.currentPosition + buffer.length ≤ (k + 1) * s.blocksize
  blocksize : s'.blocksize = s.blocksize
  filesize : s'.filesize = max s.filesize (s.currentPosition + buffer.length)
  currentPosition : s'.currentPosition = s.currentPosition + buffer.length
  n_threads : s'.n_threads = s.n_threads
  readOnly : s'.readOnly = s.readOnly

/-- A state in which the old contents of the block of the current position are
known, if there are any. -/
structure Prepared (codec : Codec) (s t : CompressedFile) (old : Bytes) : Prop where
  ready : Ready codec t
  has : ∀ j e, Has codec s j e → Has codec t j e
  known : ∀ j, s.Known j → t.Known j
  unique : ∀ data, Has codec s (s.currentPosition / s.blocksize) data → data = old
  length : old.length = s.blocksize
  blocksize : t.blocksize = s.blocksize
  filesize : t.filesize = s.filesize
  currentPosition : t.currentPosition = s.currentPosition
  n_threads : t.n_threads = s.n_threads
  readOnly : t.readOnly = s.readOnly

theorem Ready.no_error (h : Ready codec s) (hreadOnly : s.readOnly = false) : s.error = false := by
  cases herror : s.error with
  | false => rfl
  | true =>
    have htrue := (h.error herror).1
    rw [hreadOnly] at htrue
    cases htrue

theorem Ready.moved (h : Ready codec s) (currentPosition filesize : Nat) :
    Ready codec { s with currentPosition := currentPosition, filesize := filesize } where
  good :=
    { items :=
        { blocksize_pos := h.good.items.blocksize_pos
          aligned := h.good.items.aligned
          lengths := h.good.items.lengths
          distinct := h.good.items.distinct
          buffers := h.good.items.buffers
          worked := h.good.items.worked }
      layout := h.good.layout.of_working rfl rfl rfl rfl rfl (fun _ hw => Or.inl hw) h.good.layout.apart }
  lossless := h.lossless
  sync := h.sync
  readOnly := h.readOnly.of_items rfl rfl rfl rfl rfl rfl rfl rfl rfl fun _ hmem => Or.inl hmem
  error := h.error

theorem Has.moved {k : Nat} {data : Bytes} (h : Has codec s k data) (currentPosition filesize : Nat) :
    Has codec { s with currentPosition := currentPosition, filesize := filesize } k data :=
  h.mono rfl (List.Perm.refl _) fun hfile => hfile.mono rfl rfl fun _ _ hst => hst.congr rfl rfl (le_refl _)

end Write

section Read

/-- Bytes were read at the current position. -/
structure Got (codec : Codec) (s s' : CompressedFile) (bytes : Bytes) : Prop where
  ready : Ready codec s'
  has : ∀ j e, Has codec s j e → Has codec s' j e
  right : ∀ i b, bytes[i]? = some b → Holds codec s (s.currentPosition + i) b
  known : ∀ j, s.Known j → s'.Known j
  blocksize : s'.blocksize = s.blocksize
  filesize : s'.filesize = s.filesize
  currentPosition : s'.currentPosition = s.currentPosition + bytes.length
  n_threads : s'.n_threads = s.n_threads
  readOnly : s'.readOnly = s.readOnly

end Read

section Stored

/-- Data that is stored as it is. -/
def stored : Codec where
  compress := id
  decompress := fun _ data => some data
  mode := mode_zstd

end Stored

end CompressedFile

end urbackup.compressedfile
