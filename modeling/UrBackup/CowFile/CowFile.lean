import UrBackup.FileData.Bits
import UrBackup.FileData.IFile

namespace urbackup.cowfile

open stringtools filedata

def blocksize : Nat := 4096

/-- An image that is a sparse file, and the bits of its blocks that are in use. -/
structure CowFile where
  content : Bytes
  filesize : Nat
  curr_offset : Nat
  bitmap : Bytes
  bitmap_dirty : Bool

namespace CowFile

variable (s : CowFile)

section Bitmap

def n_blocks (filesize : Nat) : Nat :=
  filesize / blocksize + if filesize % blocksize > 0 then 1 else 0

/-- The bytes for the bits of all blocks. -/
def n_bits (filesize : Nat) : Nat :=
  n_blocks filesize / 8 + if n_blocks filesize % 8 > 0 then 1 else 0

def setupBitmap : CowFile :=
  { s with bitmap := List.replicate (n_bits s.filesize) 0 }

def resizeBitmap : CowFile :=
  if n_bits s.filesize > s.bitmap.length then
    { s with bitmap := s.bitmap ++ List.replicate (n_bits s.filesize - s.bitmap.length) 0 }
  else s

/-- `none` for an access outside of the bitmap. -/
def isBitmapSet (offset : Nat) : Option Bool :=
  if offset / blocksize / 8 < s.bitmap.length then some (testBit s.bitmap (offset / blocksize)) else none

def setBitmapBit (v : Bool) (s : CowFile) (offset : Nat) : Option CowFile :=
  if offset / blocksize / 8 < s.bitmap.length then
    some { s with bitmap := putBit s.bitmap (offset / blocksize) v, bitmap_dirty := true }
  else none

def setBitmapRange (offset_start offset_end : Nat) (v : Bool) : Option CowFile :=
  let block_start := offset_start / blocksize
  let block_end := offset_end / blocksize
  (List.range' block_start (block_end - block_start)).foldlM (fun s block => setBitmapBit v s (block * blocksize)) s

end Bitmap

section File

def new (filesize : Nat) : CowFile :=
  setupBitmap ⟨List.replicate filesize 0, filesize, 0, [], false⟩

def Seek (offset : Nat) : CowFile :=
  { s with curr_offset := offset }

/-- With how much the system writes, `none` if it fails. -/
def Write (buffer : Bytes) (w : Option Nat) : Option (Nat × CowFile) :=
  match w with
  | none => some (0, s)
  | some w => do
    let w := min w buffer.length
    let s := { s with content := overwrite 0 s.content s.curr_offset (buffer.take w) }
    let s := if s.curr_offset + w > s.filesize then resizeBitmap { s with filesize := s.curr_offset + w } else s
    let s ← s.setBitmapRange s.curr_offset (s.curr_offset + w) true
    some (w, { s with curr_offset := s.curr_offset + w })

/-- `FALLOC_FL_PUNCH_HOLE`, which needs a range that is not empty. -/
def fallocate64 (content : Bytes) (offset stop : Nat) (rc : Bool) : Option Bytes :=
  if rc ∧ offset < stop then
    some (overwrite 0 content offset (List.replicate (min stop content.length - offset) 0))
  else none

/-- With whether the system can punch holes. -/
def setUnused (unused_start unused_end : Nat) (rc : Bool) : Option (Bool × CowFile) :=
  if unused_start ≥ s.filesize then some (true, s)
  else
    let unused_end := min unused_end s.filesize
    match fallocate64 s.content unused_start unused_end rc with
    | none => some (false, s)
    | some content => do
      let s ← setBitmapRange { s with content } unused_start unused_end false
      some (true, s)

end File

end CowFile

section Bitmap

variable {s s' : CowFile} {v : Bool} {k offset offset_start offset_end : Nat}

/-- The bit of a block. -/
def CowFile.bit (s : CowFile) (k : Nat) : Bool :=
  testBit s.bitmap k

/-- The bitmap has a bit for each block of the file. -/
def CowFile.Covered (s : CowFile) : Prop :=
  s.filesize ≤ s.bitmap.length * 8 * blocksize

theorem setBitmapBit_some (h : CowFile.setBitmapBit v s (k * blocksize) = some s') :
    k < s.bitmap.length * 8 ∧ s' = { s with bitmap := putBit s.bitmap k v, bitmap_dirty := true } := by
  have hblock : k * blocksize / blocksize = k := Nat.mul_div_cancel k (by decide)
  rw [CowFile.setBitmapBit, hblock] at h
  split at h
  next hlt => exact ⟨by omega, (Option.some.inj h).symm⟩
  next => simp at h

theorem setBitmapBit_inside (hk : k < s.bitmap.length * 8) :
    CowFile.setBitmapBit v s (k * blocksize) = some { s with bitmap := putBit s.bitmap k v, bitmap_dirty := true } := by
  have hblock : k * blocksize / blocksize = k := Nat.mul_div_cancel k (by decide)
  rw [CowFile.setBitmapBit, hblock, if_pos (by omega)]

/-- What the loop over some blocks does. -/
theorem setBits_some {first n : Nat}
    (h : (List.range' first n).foldlM (fun s block => CowFile.setBitmapBit v s (block * blocksize)) s = some s') :
    s'.content = s.content ∧ s'.filesize = s.filesize ∧ s'.curr_offset = s.curr_offset ∧
      s'.bitmap.length = s.bitmap.length ∧ ∀ k, s'.bit k = if first ≤ k ∧ k < first + n then v else s.bit k := by
  induction n generalizing first s with
  | zero =>
    obtain rfl : s = s' := by simpa using h
    exact ⟨rfl, rfl, rfl, rfl, fun k => (if_neg (by omega)).symm⟩
  | succ n ih =>
    rw [List.range'_succ, List.foldlM_cons] at h
    obtain ⟨s₁, hset, hrest⟩ := Option.bind_eq_some_iff.mp h
    obtain ⟨hlt, rfl⟩ := setBitmapBit_some hset
    obtain ⟨hcontent, hfilesize, hoffset, hlen, hbit⟩ := ih hrest
    refine ⟨hcontent, hfilesize, hoffset, by simpa using hlen, fun k => ?_⟩
    rw [hbit, CowFile.bit, testBit_putBit (by omega)]
    by_cases hk : k = first
    · rw [if_neg (by omega), if_pos hk, if_pos (by omega)]
    · rw [if_neg hk]
      congr 1
      simp only [eq_iff_iff]
      omega

/-- Within the bitmap there is nothing to go wrong. -/
theorem setBits_inside {first n : Nat} (h : first + n ≤ s.bitmap.length * 8) :
    ∃ s', (List.range' first n).foldlM (fun s block => CowFile.setBitmapBit v s (block * blocksize)) s = some s' := by
  induction n generalizing first s with
  | zero => exact ⟨s, rfl⟩
  | succ n ih =>
    rw [List.range'_succ, List.foldlM_cons, setBitmapBit_inside (by omega)]
    apply ih
    simp only [length_putBit]
    omega

/-- Both ends are rounded down. -/
theorem setBitmapRange_some (h : s.setBitmapRange offset_start offset_end v = some s') :
    s'.content = s.content ∧ s'.filesize = s.filesize ∧ s'.curr_offset = s.curr_offset ∧
      s'.bitmap.length = s.bitmap.length ∧
      ∀ k, s'.bit k = if offset_start / blocksize ≤ k ∧ k < offset_end / blocksize then v else s.bit k := by
  obtain ⟨hcontent, hfilesize, hoffset, hlen, hbit⟩ := setBits_some h
  refine ⟨hcontent, hfilesize, hoffset, hlen, fun k => ?_⟩
  rw [hbit]
  congr 1
  simp only [eq_iff_iff]
  omega

theorem setBitmapRange_inside (h : offset_end / blocksize ≤ s.bitmap.length * 8) :
    ∃ s', s.setBitmapRange offset_start offset_end v = some s' := by
  unfold CowFile.setBitmapRange
  obtain hle | hlt := Nat.le_total (offset_start / blocksize) (offset_end / blocksize)
  · apply setBits_inside
    omega
  · refine ⟨s, ?_⟩
    simp only [Nat.sub_eq_zero_of_le hlt]
    rfl

/-- The blocks of the file have bits enough. -/
theorem le_n_bits (filesize : Nat) : filesize ≤ CowFile.n_bits filesize * 8 * blocksize := by
  unfold CowFile.n_bits CowFile.n_blocks blocksize
  split <;> split <;> omega

theorem resizeBitmap_covered (s : CowFile) : s.resizeBitmap.Covered := by
  have hbits := le_n_bits s.filesize
  unfold CowFile.resizeBitmap CowFile.Covered
  split
  next h =>
    simp only [List.length_append, List.length_replicate]
    rwa [Nat.add_sub_cancel' (Nat.le_of_lt h)]
  next h =>
    refine hbits.trans ?_
    exact Nat.mul_le_mul_right _ (Nat.mul_le_mul_right _ (Nat.le_of_not_lt h))

@[simp] theorem bit_resizeBitmap (s : CowFile) (k : Nat) : s.resizeBitmap.bit k = s.bit k := by
  unfold CowFile.resizeBitmap CowFile.bit
  split
  · exact testBit_append_zeros _
  · rfl

theorem resizeBitmap_frame (s : CowFile) : s.resizeBitmap.content = s.content ∧ s.resizeBitmap.filesize = s.filesize ∧
    s.resizeBitmap.curr_offset = s.curr_offset := by
  unfold CowFile.resizeBitmap
  split <;> exact ⟨rfl, rfl, rfl⟩

theorem new_covered (filesize : Nat) : (CowFile.new filesize).Covered := by
  unfold CowFile.new CowFile.setupBitmap CowFile.Covered
  simpa using le_n_bits filesize

end Bitmap

section Steps

variable {s s' : CowFile} {buffer : Bytes} {w unused_start unused_end : Nat} {rc ret : Bool}

theorem CowFile.Covered.div_le (h : s.Covered) {offset : Nat} (hoffset : offset ≤ s.filesize) :
    offset / blocksize ≤ s.bitmap.length * 8 :=
  Nat.div_le_of_le_mul (by rw [Nat.mul_comm]; exact hoffset.trans h)

/-- A write that does not fail. -/
theorem Write_some (hcovered : s.Covered) (hw : w ≤ buffer.length) : ∃ s', s.Write buffer (some w) = some (w, s') ∧
    s'.Covered ∧ s'.content = overwrite 0 s.content s.curr_offset (buffer.take w) ∧
    s'.filesize = max s.filesize (s.curr_offset + w) ∧ s'.curr_offset = s.curr_offset + w ∧
    ∀ k, s'.bit k = if s.curr_offset / blocksize ≤ k ∧ k < (s.curr_offset + w) / blocksize then true else s.bit k := by
  unfold CowFile.Write
  simp only [Nat.min_eq_left hw]
  obtain ⟨s₁, hs₁, hcontent₁, hfilesize₁, hoffset₁, hcovered₁, hbit₁⟩ : ∃ s₁, (if s.curr_offset + w > s.filesize then
        CowFile.resizeBitmap { s with
          content := overwrite 0 s.content s.curr_offset (buffer.take w), filesize := s.curr_offset + w }
      else { s with content := overwrite 0 s.content s.curr_offset (buffer.take w) }) = s₁ ∧
      s₁.content = overwrite 0 s.content s.curr_offset (buffer.take w) ∧ s₁.filesize = max s.filesize (s.curr_offset + w) ∧
      s₁.curr_offset = s.curr_offset ∧ s₁.Covered ∧ ∀ k, s₁.bit k = s.bit k := by
    refine ⟨_, rfl, ?_⟩
    split
    next hgt =>
      obtain ⟨hcontent, hfilesize, hoffset⟩ := resizeBitmap_frame { s with
        content := overwrite 0 s.content s.curr_offset (buffer.take w), filesize := s.curr_offset + w }
      refine ⟨hcontent, ?_, hoffset, resizeBitmap_covered _, bit_resizeBitmap _⟩
      rw [hfilesize, Nat.max_eq_right (Nat.le_of_lt hgt)]
    next hle => exact ⟨rfl, (Nat.max_eq_left (Nat.le_of_not_lt hle)).symm, rfl, hcovered, fun _ => rfl⟩
  have hin : (s.curr_offset + w) / blocksize ≤ s₁.bitmap.length * 8 := hcovered₁.div_le (hfilesize₁ ▸ Nat.le_max_right _ _)
  obtain ⟨s₂, hset⟩ := @setBitmapRange_inside s₁ true s.curr_offset _ hin
  obtain ⟨hcontent, hfilesize, hoffset, hlen, hbit⟩ := setBitmapRange_some hset
  refine ⟨{ s₂ with curr_offset := s.curr_offset + w }, ?_, ?_, hcontent.trans hcontent₁, hfilesize.trans hfilesize₁, rfl, ?_⟩
  · simp only [hs₁, hoffset₁, hset, Option.bind_eq_bind, Option.bind_some, hoffset]
  · unfold CowFile.Covered at hcovered₁ ⊢
    simpa only [hfilesize, hlen] using hcovered₁
  · intro k
    rw [← hbit₁ k]
    exact hbit k

/-- A range is not discarded if it is empty or the system cannot do it. -/
theorem setUnused_failed (hstart : unused_start < s.filesize) (h : ¬ (rc = true ∧ unused_start < unused_end)) :
    s.setUnused unused_start unused_end rc = some (false, s) := by
  have hnone : CowFile.fallocate64 s.content unused_start (min unused_end s.filesize) rc = none :=
    if_neg fun hrc => h ⟨hrc.1, by omega⟩
  rw [CowFile.setUnused, if_neg (by omega)]
  simp only [hnone]

/-- Another one within the file is. -/
theorem setUnused_some (hcovered : s.Covered) (hstart : unused_start < s.filesize) (hrc : rc = true)
    (hlt : unused_start < unused_end) : ∃ s', s.setUnused unused_start unused_end rc = some (true, s') ∧ s'.Covered ∧
      s'.content = overwrite 0 s.content unused_start
        (List.replicate (min (min unused_end s.filesize) s.content.length - unused_start) 0) ∧
      s'.filesize = s.filesize ∧ s'.curr_offset = s.curr_offset ∧
      ∀ k, s'.bit k = if unused_start / blocksize ≤ k ∧ k < min unused_end s.filesize / blocksize then false else s.bit k := by
  have hpunch : CowFile.fallocate64 s.content unused_start (min unused_end s.filesize) rc = some (overwrite 0 s.content unused_start
      (List.replicate (min (min unused_end s.filesize) s.content.length - unused_start) 0)) :=
    if_pos ⟨hrc, by omega⟩
  rw [CowFile.setUnused, if_neg (by omega)]
  simp only [hpunch]
  generalize overwrite 0 s.content unused_start _ = content
  have hin : min unused_end s.filesize / blocksize ≤ s.bitmap.length * 8 := hcovered.div_le (Nat.min_le_right _ _)
  obtain ⟨s', hset⟩ := @setBitmapRange_inside { s with content } false unused_start _ hin
  obtain ⟨hcontent, hfilesize, hoffset, hlen, hbit⟩ := setBitmapRange_some hset
  refine ⟨s', ?_, ?_, hcontent, hfilesize, hoffset, hbit⟩
  · simp only [hset, Option.bind_eq_bind, Option.bind_some]
  · unfold CowFile.Covered at hcovered ⊢
    simpa only [hfilesize, hlen] using hcovered

end Steps

end urbackup.cowfile
