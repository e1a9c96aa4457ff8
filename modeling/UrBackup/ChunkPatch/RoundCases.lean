import UrBackup.ChunkPatch.ChunkPatcher

namespace urbackup.chunkpatch

open stringtools filedata steps

namespace ChunkPatcher

variable {cp : ChunkPatcher} {s : PatchState}

/-- Some of the old file is taken at a time. -/
theorem max_read_pos (h : cp.unchanged_align ≤ UINT_MAX) : 0 < cp.max_read := by
  unfold max_read
  split
  next hne =>
    have hlt := Nat.mod_lt UINT_MAX (Nat.pos_of_ne_zero hne)
    omega
  next => decide

/-- Blocks of the old file do not change how far it goes on. -/
theorem toRead_eq_zero (s : PatchState) (hmax : 0 < cp.max_read) :
    cp.toRead s = 0 ↔ s.next_header.patch_off ≠ -1 ∧ s.next_header.patch_off = s.file_pos := by
  simp only [toRead]
  split <;> omega

theorem toRead_le (cp : ChunkPatcher) (hle : (s.file_pos : Int) ≤ s.next_header.patch_off) :
    s.file_pos + cp.toRead s ≤ s.next_header.patch_off := by
  simp only [toRead]
  split <;> omega

/-- Reading a header only moves the patch file on. -/
structure SameButHeader (s s' : PatchState) : Prop where
  phase : s'.phase = s.phase
  file : s'.file = s.file
  filesize : s'.filesize = s.filesize
  file_pos : s'.file_pos = s.file_pos
  unchanged_align_end : s'.unchanged_align_end = s.unchanged_align_end
  extents : s'.extents = s.extents
  output : s'.output = s.output

theorem fetchHeader_same (cp : ChunkPatcher) (s : PatchState) : SameButHeader s (cp.fetchHeader s) := by
  unfold fetchHeader
  split
  · dsimp only
    split <;> exact ⟨rfl, rfl, rfl, rfl, rfl, rfl, rfl⟩
  · exact ⟨rfl, rfl, rfl, rfl, rfl, rfl, rfl⟩

/-- What a round of the outer loop does once it knows the next header. -/
inductive OuterCase (cp : ChunkPatcher) (s : PatchState) : Round PatchState (Bool × List Piece) → Prop
  | ends (hheader : s.has_header = false) (hend : s.filesize ≤ s.file_pos ∨ s.file.content.length ≤ s.file_pos) :
      OuterCase cp s (.done (true, s.output))
  | corrupt (hend : s.filesize ≤ s.file_pos ∨
        s.file.content.length ≤ s.file_pos ∧ (s.next_header.patch_off = -1 ∨ s.next_header.patch_off ≠ s.file_pos))
      (hheader : s.has_header = true)
      (hfits : s.next_header.patch_off = s.file_pos → ¬ s.filesize < s.file_pos + s.next_header.patch_size) :
      OuterCase cp s (.done (false, s.output))
  | patch (patching_finished : Bool) (patch_size : Nat) (hoff : s.next_header.patch_off = s.file_pos)
      (hsize : if patching_finished then s.filesize < s.file_pos + s.next_header.patch_size ∧
          patch_size = ((s.filesize - s.file_pos) % 2 ^ 32).toNat
        else s.file_pos + s.next_header.patch_size ≤ s.filesize ∧ s.file_pos < s.filesize ∧
          patch_size = s.next_header.patch_size) :
      OuterCase cp s (.next { s with
        phase := .patching patching_finished
        next_header := { s.next_header with patch_size }
        unchanged_align_end := s.unchanged_align_end_next })
  | copy (hsize : s.file_pos < s.file.content.length) (hfilesize : s.file_pos < s.filesize)
      (hoff : s.next_header.patch_off = -1 ∨ s.next_header.patch_off ≠ s.file_pos) :
      OuterCase cp s (.next (cp.oldData s (cp.toRead s)))

theorem outerRound_cases (hmax : 0 < cp.max_read) : OuterCase cp (cp.fetchHeader s) (cp.outerRound s) := by
  have hsame := fetchHeader_same cp s
  have hzero := toRead_eq_zero (cp.fetchHeader s) hmax
  unfold outerRound
  dsimp only
  split
  next hcond =>
    obtain ⟨hlt, hheader⟩ := hcond
    have heq : cp.fetchHeader s = s := by simp [fetchHeader, hheader]
    rw [heq]
    exact .ends (by simpa using hheader) (by omega)
  next =>
    -- `s₁` knows the next header
    rw [← hsame.file]
    generalize cp.fetchHeader s = s₁ at hsame hzero ⊢
    split
    next hcond => exact .ends (by simpa using hcond.1) hcond.2
    next hmore =>
      split
      next hcond => exact .patch true _ (hzero.mp hcond.1).2 ⟨hcond.2, rfl⟩
      next hfits =>
        have hfits : s₁.next_header.patch_off = s₁.file_pos → ¬ s₁.filesize < s₁.file_pos + s₁.next_header.patch_size :=
          fun heq hlt => hfits ⟨hzero.mpr ⟨by omega, heq⟩, hlt⟩
        have hheader : s₁.filesize ≤ s₁.file_pos ∨ s₁.file.content.length ≤ s₁.file_pos → s₁.has_header = true := by
          intro hend
          by_contra hnone
          exact hmore ⟨hnone, hend⟩
        split
        next hend => exact .corrupt (Or.inl hend) (hheader (Or.inl hend)) hfits
        next hend =>
          split
          next hpatch =>
            obtain ⟨_, hoff⟩ := hzero.mp hpatch
            exact .patch false _ hoff ⟨by have := hfits hoff; omega, by omega, rfl⟩
          next hcopy =>
            have hoff : s₁.next_header.patch_off = -1 ∨ s₁.next_header.patch_off ≠ s₁.file_pos := by
              rw [hzero] at hcopy
              omega
            split
            next hsize => exact .copy hsize (by omega) hoff
            next hsize => exact .corrupt (Or.inr ⟨by omega, hoff⟩) (hheader (Or.inr (by omega))) hfits

/-- Old data is copied up to the next patch, or a sparse range of it is passed. -/
inductive OldCase (cp : ChunkPatcher) (s : PatchState) (tr : Nat) : PatchState → Prop
  | copy (tr' : Nat) (extents : List SSparseExtent) (hpos : 0 < tr') (htr : tr' ≤ tr) (hfilesize : s.file_pos + tr' ≤ s.filesize)
      (hextents : s.extents = [] → extents = []) :
      OldCase cp s tr { s with phase := .copying tr', extents }
  | sparse (tr' : Nat) (extents : List SSparseExtent) (hpos : 0 < tr') (htr : tr' ≤ tr) (hfilesize : s.file_pos + tr' ≤ s.filesize)
      (hextents : s.extents ≠ []) :
      OldCase cp s tr { s with phase := .head, file_pos := s.file_pos + tr', extents, output := s.output ++ [.sparse tr'] }

/-- The alignment goes with the blocks of the sparse extents. -/
def FitsBlocks (cp : ChunkPatcher) : Prop :=
  cp.unchanged_align ∣ sparse_blocksize ∨ sparse_blocksize ∣ cp.unchanged_align

theorem aligned_pos (hfits : cp.FitsBlocks) {tr : Nat} (hsparse : sparse_blocksize ≤ tr) (halign : cp.unchanged_align ≤ tr)
    (hne : cp.unchanged_align ≠ 0) :
    0 < tr - tr % sparse_blocksize - (tr - tr % sparse_blocksize) % cp.unchanged_align := by
  have hmul : tr - tr % sparse_blocksize = sparse_blocksize * (tr / sparse_blocksize) := by
    have := Nat.div_add_mod tr sparse_blocksize
    omega
  have hquot : 0 < tr / sparse_blocksize := Nat.div_pos hsparse (by decide)
  obtain hdvd | ⟨k, hk⟩ := hfits
  · have hzero : (tr - tr % sparse_blocksize) % cp.unchanged_align = 0 := by
      rw [hmul]
      exact Nat.mod_eq_zero_of_dvd (Dvd.dvd.mul_right hdvd _)
    rw [hzero, hmul]
    have := Nat.mul_pos (show 0 < sparse_blocksize by decide) hquot
    omega
  · have hle : cp.unchanged_align ≤ tr - tr % sparse_blocksize := by
      rw [hmul, hk]
      apply Nat.mul_le_mul_left
      rw [Nat.le_div_iff_mul_le (by decide), Nat.mul_comm, ← hk]
      exact halign
    have hmod := Nat.mod_lt (tr - tr % sparse_blocksize) (Nat.pos_of_ne_zero hne)
    omega

theorem oldData_cases (hblocks : s.extents ≠ [] → cp.FitsBlocks) {tr : Nat} (htr : 0 < tr) (hpos : s.file_pos < s.filesize) :
    OldCase cp s tr (cp.oldData s tr) := by
  unfold oldData
  dsimp only
  obtain ⟨t, ht⟩ : ∃ t, t = if s.filesize < s.file_pos + tr then (s.filesize - s.file_pos).toNat else tr := ⟨_, rfl⟩
  have hbounds : 0 < t ∧ t ≤ tr ∧ s.file_pos + t ≤ s.filesize := by
    rw [ht]
    split <;> omega
  rw [← ht]
  have hnil : s.extents = [] → (s.extents.dropWhile fun e => decide (e.offset + e.size ≤ s.file_pos)) = [] := by
    intro h
    rw [h]
    rfl
  cases hext : s.extents.dropWhile fun e => decide (e.offset + e.size ≤ s.file_pos) with
  | nil => exact .copy t [] hbounds.1 hbounds.2.1 hbounds.2.2 fun _ => rfl
  | cons e rest =>
    have hne : s.extents ≠ [] := fun h => by simp [hnil h] at hext
    have hnone : s.extents = [] → e :: rest = [] := fun h => absurd h hne
    dsimp only
    split
    next hcovered =>
      split
      next =>
        obtain ⟨t', ht'⟩ : ∃ t', t' = if cp.unchanged_align ≠ 0 then
            t - t % sparse_blocksize - (t - t % sparse_blocksize) % cp.unchanged_align
          else t - t % sparse_blocksize := ⟨_, rfl⟩
        have hcut : 0 < t' ∧ t' ≤ t := by
          have hmod := Nat.mod_lt t (show 0 < sparse_blocksize by decide)
          rw [ht']
          split
          next halign => exact ⟨aligned_pos (hblocks hne) hcovered.1 hcovered.2.1 halign, by omega⟩
          next => omega
        rw [← ht']
        exact .sparse t' _ hcut.1 (by omega) (by omega) hne
      next =>
        -- up to the next boundary of a block
        have hnext : ∀ {n t : Nat}, 0 < t → n ≠ 0 → 0 < min t (n - s.file_pos % n) := by
          intro n t ht hn
          have := Nat.mod_lt s.file_pos (Nat.pos_of_ne_zero hn)
          omega
        obtain ⟨t₁, ht₁⟩ : ∃ t₁, t₁ = if cp.unchanged_align ≠ 0 ∧ s.file_pos % cp.unchanged_align ≠ 0 then
            min t (cp.unchanged_align - s.file_pos % cp.unchanged_align) else t := ⟨_, rfl⟩
        have hcut₁ : 0 < t₁ ∧ t₁ ≤ t := by
          rw [ht₁]
          split
          next halign => exact ⟨hnext hbounds.1 halign.1, Nat.min_le_left _ _⟩
          next => exact ⟨hbounds.1, Nat.le_refl _⟩
        rw [← ht₁]
        obtain ⟨t₂, ht₂⟩ : ∃ t₂, t₂ = if s.file_pos % sparse_blocksize ≠ 0 then
            min t₁ (sparse_blocksize - s.file_pos % sparse_blocksize) else t₁ := ⟨_, rfl⟩
        have hcut₂ : 0 < t₂ ∧ t₂ ≤ t₁ := by
          rw [ht₂]
          split
          next => exact ⟨hnext hcut₁.1 (by decide), Nat.min_le_left _ _⟩
          next => exact ⟨hcut₁.1, Nat.le_refl _⟩
        rw [← ht₂]
        exact .copy t₂ _ hcut₂.1 (by omega) (by omega) hnone
    next => exact .copy t _ hbounds.1 hbounds.2.1 hbounds.2.2 hnone

/-- What a round over the data of a patch does. -/
inductive PatchCase (cp : ChunkPatcher) (s : PatchState) (patching_finished : Bool) : Round PatchState (Bool × List Piece) → Prop
  | read (buf : Bytes) (hsize : 0 < s.next_header.patch_size)
      (hbuf : buf = slice s.patch.content s.patch.pos (min buffer_size s.next_header.patch_size)) :
      PatchCase cp s patching_finished (.next { s with
        patch := ⟨s.patch.content, s.patch.pos + buf.length⟩
        next_header := { s.next_header with patch_size := s.next_header.patch_size - buf.length }
        file_pos := s.file_pos + buf.length
        output := s.output ++ [.bytes buf true] })
  | finish (hsize : s.next_header.patch_size = 0) (hfinished : patching_finished = true) :
      PatchCase cp s patching_finished (.done (true, s.output))
  | back (pos : Nat) (hsize : s.next_header.patch_size = 0) (hfinished : patching_finished = false)
      (hpos : pos = if cp.require_unchanged then s.file_pos else s.file.pos) :
      PatchCase cp s patching_finished (.next { s with
        phase := .head
        file := ⟨s.file.content, pos⟩
        next_header := { s.next_header with patch_off := -1 } })

theorem patchRound_cases (cp : ChunkPatcher) (s : PatchState) (patching_finished : Bool) : PatchCase cp s patching_finished (cp.patchRound s patching_finished) := by
  unfold patchRound
  split
  next hsize => exact .read _ hsize rfl
  next hsize =>
    have hzero : s.next_header.patch_size = 0 := by omega
    split
    next hfinished => exact .finish hzero hfinished
    next hfinished =>
      have hback : PatchCase cp s patching_finished _ := .back _ hzero (by simpa using hfinished) rfl
      cases hreq : cp.require_unchanged <;> simpa [hreq, IFile.Seek] using hback

theorem cutToBlocks_pos (cp : ChunkPatcher) (s : PatchState) (req : Bool) {tr : Nat} (htr : 0 < tr) :
    0 < cp.cutToBlocks s req tr ∧ cp.cutToBlocks s req tr ≤ tr := by
  unfold cutToBlocks
  split
  · omega
  · split
    · omega
    · split <;> omega

/-- Where the file is read: at its own position unless the block has been sought. -/
def readPos (cp : ChunkPatcher) (s : PatchState) : Nat :=
  if cp.nearPatch s then s.file_pos else s.file.pos

/-- The end of the last patch's block once the position is `file_pos`. -/
def endAt (cp : ChunkPatcher) (s : PatchState) (file_pos : Nat) : Int :=
  if cp.unchanged_align ≠ 0 ∧ file_pos = s.unchanged_align_end then -1 else s.unchanged_align_end

/-- What a round over old data does: it hands on bytes, or the size of a range. -/
inductive CopyCase (cp : ChunkPatcher) (s : PatchState) (tr : Nat) : Round PatchState (Bool × List Piece) → Prop
  | stop (hend : tr = 0 ∨ s.file.content.length ≤ s.file_pos ∨ s.filesize ≤ s.file_pos) :
      CopyCase cp s tr (.next { s with phase := .head })
  | read (n : Nat) (buf : Bytes) (hsize : s.file_pos < s.file.content.length) (hfilesize : s.file_pos < s.filesize)
      (hreq : (cp.require_unchanged || cp.nearPatch s) = true) (hpos : 0 < n)
      (hn : n = cp.cutToBlocks s true (min tr buffer_size)) (hle : n ≤ tr)
      (hbuf : buf = slice s.file.content (cp.readPos s) n) :
      CopyCase cp s tr (.next { s with
        phase := .copying (n - buf.length)
        file := ⟨s.file.content, cp.readPos s + buf.length⟩
        file_pos := s.file_pos + buf.length
        unchanged_align_end := cp.endAt s (s.file_pos + buf.length)
        output := s.output ++ [.bytes buf false] })
  | pass (n : Nat) (hsize : s.file_pos < s.file.content.length) (hfilesize : s.file_pos < s.filesize)
      (hreq : (cp.require_unchanged || cp.nearPatch s) = false) (hpos : 0 < n)
      (hn : n = min (cp.cutToBlocks s false (min tr buffer_size)) (s.file.content.length - s.file_pos)) (hle : n ≤ tr) :
      CopyCase cp s tr (.next { s with
        phase := .copying 0
        file_pos := s.file_pos + n
        unchanged_align_end := cp.endAt s (s.file_pos + n)
        output := s.output ++ [.unchanged n] })

theorem copyRound_cases (cp : ChunkPatcher) (s : PatchState) (tr : Nat) : CopyCase cp s tr (cp.copyRound s tr) := by
  unfold copyRound
  split
  next hcond =>
    obtain ⟨htr, hsize, hfilesize⟩ := hcond
    have hmin : 0 < min tr buffer_size := Nat.lt_min.mpr ⟨htr, by decide⟩
    have hcut := fun req => cutToBlocks_pos cp s req hmin
    have hend : ∀ s' : PatchState,
        (if cp.unchanged_align ≠ 0 ∧ s'.file_pos = s'.unchanged_align_end then { s' with unchanged_align_end := -1 } else s') =
          { s' with unchanged_align_end := cp.endAt s' s'.file_pos } := by
      intro s'
      unfold endAt
      split <;> rfl
    dsimp only
    rw [hend]
    cases hreq : cp.require_unchanged || cp.nearPatch s with
    | true =>
      have hread : CopyCase cp s tr _ := .read (cp.cutToBlocks s true (min tr buffer_size)) _ hsize hfilesize hreq
        (hcut true).1 rfl (by have := (hcut true).2; omega) rfl
      have htake : cp.takeOld s tr = { s with
          phase := .copying (cp.cutToBlocks s true (min tr buffer_size) -
            (slice s.file.content (cp.readPos s) (cp.cutToBlocks s true (min tr buffer_size))).length)
          file := ⟨s.file.content, cp.readPos s +
            (slice s.file.content (cp.readPos s) (cp.cutToBlocks s true (min tr buffer_size))).length⟩
          file_pos := s.file_pos + (slice s.file.content (cp.readPos s) (cp.cutToBlocks s true (min tr buffer_size))).length
          output := s.output ++
            [.bytes (slice s.file.content (cp.readPos s) (cp.cutToBlocks s true (min tr buffer_size))) false] } := by
        simp only [takeOld, hreq, if_true, IFile.Read, readPos]
        cases cp.nearPatch s <;> rfl
      rw [htake]
      exact hread
    | false =>
      have hpass : CopyCase cp s tr _ := .pass
        (min (cp.cutToBlocks s false (min tr buffer_size)) (s.file.content.length - s.file_pos)) hsize hfilesize hreq
        (by have := (hcut false).1; omega) rfl (by have := (hcut false).2; omega)
      have htake : cp.takeOld s tr = { s with
          phase := .copying 0
          file_pos := s.file_pos + min (cp.cutToBlocks s false (min tr buffer_size)) (s.file.content.length - s.file_pos)
          output := s.output ++
            [.unchanged (min (cp.cutToBlocks s false (min tr buffer_size)) (s.file.content.length - s.file_pos))] } := by
        simp [takeOld, hreq]
      rw [htake]
      exact hpass
  next hcond => exact .stop (by omega)

end ChunkPatcher

end urbackup.chunkpatch
