import UrBackup.Vhdx.Space

namespace urbackup.vhdxfile

open filedata stringtools

namespace VHDXFile

section Indexes

/-- The entries of the payload blocks of the disk can be told apart. -/
def DiskFits (dst_size : Nat) : Prop :=
  dst_size / block_size + dst_size / block_size / 4096 < 2 ^ 32

instance (dst_size : Nat) : Decidable (DiskFits dst_size) :=
  inferInstanceAs (Decidable (_ < _))

theorem getChunkRatio_eq : getChunkRatio block_size sector_size = 4096 := by
  decide

theorem getBatEntry_eq {dst_size pos : Nat} (hfits : DiskFits dst_size) (hpos : pos < dst_size) :
    getBatEntry pos block_size sector_size = pos / block_size + (pos / block_size - 1) / 4096 := by
  rw [getBatEntry_of_ratio (by decide), getChunkRatio_eq]
  apply Nat.mod_eq_of_lt
  have hle : pos / block_size ≤ dst_size / block_size := Nat.div_le_div_right hpos.le
  unfold DiskFits at hfits
  omega

theorem getBatEntry_inj {dst_size pos pos' : Nat} (hfits : DiskFits dst_size) (hpos : pos < dst_size)
    (hpos' : pos' < dst_size) (h : getBatEntry pos block_size sector_size = getBatEntry pos' block_size sector_size) :
    pos / block_size = pos' / block_size := by
  rw [getBatEntry_eq hfits hpos, getBatEntry_eq hfits hpos'] at h
  omega

theorem getSectorBitmapEntry_congr {pos pos' : Nat} (h : pos / block_size = pos' / block_size) :
    getSectorBitmapEntry pos block_size sector_size = getSectorBitmapEntry pos' block_size sector_size := by
  unfold getSectorBitmapEntry
  rw [h]

end Indexes

/-- The same image, of the same size. -/
structure SameImage (s s' : VHDXFile) : Prop where
  parent : s'.parent = s.parent
  dst_size : s'.dst_size = s.dst_size
  bat_length : s'.bat_length = s.bat_length

namespace SameImage

variable {s s' s'' : VHDXFile}

theorem refl (s : VHDXFile) : SameImage s s :=
  ⟨rfl, rfl, rfl⟩

theorem trans (h : SameImage s s') (h' : SameImage s' s'') : SameImage s s'' :=
  ⟨h'.parent.trans h.parent, h'.dst_size.trans h.dst_size, h'.bat_length.trans h.bat_length⟩

theorem hasEntry (h : SameImage s s') (i : Nat) : s'.hasEntry i = s.hasEntry i := by
  unfold VHDXFile.hasEntry
  rw [h.bat_length]

end SameImage

/-- A step keeps the placement in order and the image the same. -/
structure Keeps (s s' : VHDXFile) : Prop where
  same : SameImage s s'
  sound : s.space.Sound → s'.space.Sound

namespace Keeps

variable {s s' s'' : VHDXFile}

theorem refl (s : VHDXFile) : Keeps s s :=
  ⟨SameImage.refl s, id⟩

theorem trans (h : Keeps s s') (h' : Keeps s' s'') : Keeps s s'' :=
  ⟨h.same.trans h'.same, fun hs => h'.sound (h.sound hs)⟩

theorem data (s : VHDXFile) (pos size : Nat) (bytes : Buffer) : Keeps s (s.fileWrite (.data pos size bytes)) :=
  ⟨⟨rfl, rfl, rfl⟩, fun hs => by rwa [space_data]⟩

end Keeps

variable {resizeOk : Nat → Bool} {s : VHDXFile}

section Allocate

theorem makeRoom_ok (hok : ∀ n, resizeOk n = true) (new_pos : Nat) :
    ∃ s', s.makeRoom resizeOk new_pos = (true, s') ∧ SameImage s s' ∧ s'.space = s.space ∧
      s'.sector_bitmap_bufs = s.sector_bitmap_bufs := by
  unfold makeRoom
  split
  · have hspace := space_resize s resizeOk (new_pos + block_size + allocate_size_add_size)
    unfold resize at hspace ⊢
    rw [if_pos (hok _)] at hspace ⊢
    exact ⟨_, rfl, ⟨rfl, rfl, rfl⟩, hspace, rfl⟩
  · exact ⟨s, rfl, SameImage.refl s, rfl, rfl⟩

theorem space_assign_reserve {t : VHDXFile} {block : Nat} (ht : t.space = (s.reserve block).space) :
    (t.assign block s.next_payload_pos).space = s.space.place block := by
  have hspace : (t.assign block s.next_payload_pos).space =
      { t.space with
        bat_buf := fun i => if i = block then ⟨.FULLY_PRESENT, s.next_payload_pos / (1024 * 1024)⟩ else t.space.bat_buf i
        pending_bat_entries := insertPending block t.space.pending_bat_entries } := rfl
  have hbuf : ∀ i, i ≠ block → (s.reserve block).space.bat_buf i = s.space.bat_buf i := fun i hi => if_neg hi
  rw [hspace, ht]
  apply Space.ext
  case bat_buf =>
    funext i
    dsimp only [Space.place]
    split
    · rfl
    · next hi => exact hbuf i hi
  all_goals rfl

/-- An allocation whose resize goes well. -/
theorem allocateBatBlockFull_ok (hok : ∀ n, resizeOk n = true) (block : Nat) :
    ∃ s', s.allocateBatBlockFull resizeOk block = (true, s') ∧ SameImage s s' ∧ s'.space = s.space.place block ∧
      s'.sector_bitmap_bufs = s.sector_bitmap_bufs := by
  obtain ⟨t, hroom, hsame, hspace, hbufs⟩ := makeRoom_ok (s := s.reserve block) hok s.next_payload_pos
  refine ⟨t.assign block s.next_payload_pos, ?_, ?_, space_assign_reserve hspace, hbufs⟩
  · simp only [allocateBatBlockFull, hroom]
  · exact ⟨hsame.parent, hsame.dst_size, hsame.bat_length⟩

end Allocate

section Sectors

theorem space_cacheBitmap (sector_block : Nat) (buf : Buffer) :
    (s.cacheBitmap sector_block buf).space = s.space.cacheBitmap sector_block := by
  apply Space.ext
  case has_sector_bitmap =>
    funext i
    dsimp only [space, cacheBitmap, Space.cacheBitmap]
    split
    · rfl
    · rfl
  all_goals rfl

theorem cacheBitmap_keeps (sector_block : Nat) (buf : Buffer) : Keeps s (s.cacheBitmap sector_block buf) := by
  refine ⟨⟨rfl, rfl, rfl⟩, fun hs => ?_⟩
  rw [space_cacheBitmap]
  exact hs.cacheBitmap sector_block

/-- A sector bitmap that is read is kept in memory. -/
theorem getSectorBitmap_state (sector_block FileOffsetMB : Nat) :
    (s.getSectorBitmap sector_block FileOffsetMB).2 = s ∨
      ∃ buf, (s.getSectorBitmap sector_block FileOffsetMB).2 = s.cacheBitmap sector_block buf := by
  cases hbuf : s.sector_bitmap_bufs sector_block with
  | some buf =>
    left
    simp only [getSectorBitmap, hbuf]
  | none =>
    by_cases hfits : FileOffsetMB * 1024 * 1024 + block_size ≤ s.fileSize
    · right
      refine ⟨fun i => s.content.data (FileOffsetMB * 1024 * 1024 + i), ?_⟩
      simp only [getSectorBitmap, hbuf, if_pos hfits]
    · left
      simp only [getSectorBitmap, hbuf, if_neg hfits]

theorem getSectorBitmap_keeps (sector_block FileOffsetMB : Nat) :
    Keeps s (s.getSectorBitmap sector_block FileOffsetMB).2 ∧
      (s.getSectorBitmap sector_block FileOffsetMB).2.bat_buf = s.bat_buf := by
  obtain hsame | ⟨buf, hcached⟩ := getSectorBitmap_state (s := s) sector_block FileOffsetMB
  · rw [hsame]
    exact ⟨Keeps.refl s, rfl⟩
  · rw [hcached]
    exact ⟨cacheBitmap_keeps sector_block buf, rfl⟩

theorem isSectorSet_keeps {spos : Nat} (hentry : s.hasEntry (getSectorBitmapEntry spos block_size sector_size) = true) :
    ∃ set, (s.isSectorSet spos).1 = .returns set ∧ Keeps s (s.isSectorSet spos).2 ∧
      (s.isSectorSet spos).2.bat_buf = s.bat_buf := by
  unfold isSectorSet
  dsimp only
  rw [if_pos hentry]
  split
  · exact ⟨none, rfl, Keeps.refl s, rfl⟩
  · have hkeeps := getSectorBitmap_keeps (s := s) (getSectorBitmapEntry spos block_size sector_size)
      (s.bat_buf (getSectorBitmapEntry spos block_size sector_size)).FileOffsetMB
    split
    · next buf s' hout =>
      rw [hout] at hkeeps
      exact ⟨some (isSectorSetInt buf spos), rfl, hkeeps⟩
    · next s' hout =>
      rw [hout] at hkeeps
      exact ⟨none, rfl, hkeeps⟩

theorem space_putSectors (sector_block start stop : Nat) (buf : Buffer) :
    (s.putSectors sector_block start stop buf).space = s.space.addBitmap sector_block := by
  apply Space.ext
  case has_sector_bitmap =>
    funext i
    dsimp only [space, putSectors, cacheBitmap, Space.addBitmap]
    split
    · rfl
    · rfl
  all_goals rfl

/-- The bits are set in a sector bitmap whose entry no payload block has. -/
theorem setSector_keeps (hok : ∀ n, resizeOk n = true) {start : Nat} (stop : Nat)
    (hentry : s.hasEntry (getSectorBitmapEntry start block_size sector_size) = true)
    (hapart : s.space.BitmapApart start) :
    ∃ set, (s.setSector resizeOk start stop).1 = .returns set ∧ Keeps s (s.setSector resizeOk start stop).2 := by
  unfold setSector
  dsimp only
  rw [if_pos hentry]
  cases hstate : (s.bat_buf (getSectorBitmapEntry start block_size sector_size)).State with
  | NOT_PRESENT =>
    obtain ⟨t, halloc, hsame, hspace, -⟩ :=
      allocateBatBlockFull_ok (s := s) hok (getSectorBitmapEntry start block_size sector_size)
    rw [halloc]
    refine ⟨true, rfl, ⟨hsame.parent, hsame.dst_size, hsame.bat_length⟩, ?_⟩
    intro hs
    change (t.putSectors _ _ _ _).space.Sound
    rw [space_putSectors, hspace]
    exact (hs.place _).addBitmap (by simp [Space.place]) hapart
  | FULLY_PRESENT =>
    have hkeeps := getSectorBitmap_keeps (s := s) (getSectorBitmapEntry start block_size sector_size)
      (s.bat_buf (getSectorBitmapEntry start block_size sector_size)).FileOffsetMB
    dsimp only
    split
    · next buf t hout =>
      rw [hout] at hkeeps
      refine ⟨true, rfl, ?_⟩
      refine ⟨⟨hkeeps.1.same.parent, hkeeps.1.same.dst_size, hkeeps.1.same.bat_length⟩, ?_⟩
      intro hs
      change (t.putSectors _ _ _ _).space.Sound
      rw [space_putSectors]
      refine (hkeeps.1.sound hs).addBitmap ?_ ?_
      · change (t.bat_buf _).State = _
        rw [hkeeps.2, hstate]
      · have hdst : t.space.dst_size = s.space.dst_size := hkeeps.1.same.dst_size
        unfold Space.IsPayload
        rw [hdst]
        exact hapart
    · next t hout =>
      rw [hout] at hkeeps
      exact ⟨false, rfl, hkeeps.1⟩
  | UNDEFINED => exact ⟨false, rfl, Keeps.refl s⟩
  | ZERO => exact ⟨false, rfl, Keeps.refl s⟩
  | UNMAPPED => exact ⟨false, rfl, Keeps.refl s⟩
  | PARTIALLY_PRESENT => exact ⟨false, rfl, Keeps.refl s⟩
  | reserved => exact ⟨false, rfl, Keeps.refl s⟩

end Sectors

section Write

/-- The entry of the sector bitmap for `pos` lies in `bat_buf` and is no payload
block's. -/
def BitmapFits (s : VHDXFile) (pos : Nat) : Prop :=
  s.hasEntry (getSectorBitmapEntry pos block_size sector_size) = true ∧ s.space.BitmapApart pos

theorem SameImage.bitmapFits {s' : VHDXFile} (h : SameImage s s') {pos : Nat} (hfits : s.BitmapFits pos) :
    s'.BitmapFits pos := by
  have hdst : s'.space.dst_size = s.space.dst_size := h.dst_size
  refine ⟨by rw [h.hasEntry]; exact hfits.1, ?_⟩
  unfold Space.BitmapApart Space.IsPayload
  rw [hdst]
  exact hfits.2

/-- A sector bitmap apart from the blocks for one position of a block is so for all. -/
theorem partial_of_apart (hdisk : DiskFits s.dst_size) {pos : Nat} (hpos : pos < s.dst_size)
    (hapart : s.space.BitmapApart pos) : s.space.Partial (getBatEntry pos block_size sector_size) := by
  intro pos' hpos' hentry
  have hblock := getBatEntry_inj hdisk hpos' hpos hentry
  unfold Space.BitmapApart
  rw [getSectorBitmapEntry_congr hblock]
  exact hapart

/-- A new block that is only partially present. -/
theorem place_partially (hs : s.space.Sound) (hdisk : DiskFits s.dst_size) {pos : Nat} (hpos : pos < s.dst_size)
    (hapart : s.space.BitmapApart pos) :
    ((s.space.place (getBatEntry pos block_size sector_size)).setState
      (getBatEntry pos block_size sector_size) .PARTIALLY_PRESENT).Sound := by
  have hplace := hs.place (getBatEntry pos block_size sector_size)
  refine hplace.setState ⟨pos, hpos, rfl⟩ ?_ ?_
  · intro _
    refine hplace.spread.present _ _ (Or.inl rfl) (Or.inl ?_)
    simp [Space.place]
  · intro _
    exact partial_of_apart hdisk hpos hapart

theorem allocatePartially_keeps (hok : ∀ n, resizeOk n = true) (hdisk : DiskFits s.dst_size) {pos : Nat} (stop : Nat)
    (hpos : pos < s.dst_size) (hbitmap : s.BitmapFits pos) :
    ∃ set, (s.allocatePartially resizeOk (getBatEntry pos block_size sector_size) pos stop).1 = .returns set ∧
      Keeps s (s.allocatePartially resizeOk (getBatEntry pos block_size sector_size) pos stop).2 := by
  obtain ⟨t, halloc, hsame, hspace, -⟩ := allocateBatBlockFull_ok (s := s) hok (getBatEntry pos block_size sector_size)
  unfold allocatePartially
  rw [halloc]
  have hmarked : Keeps s (t.setState (getBatEntry pos block_size sector_size) .PARTIALLY_PRESENT) := by
    refine ⟨⟨hsame.parent, hsame.dst_size, hsame.bat_length⟩, ?_⟩
    intro hs
    have heq : (t.setState (getBatEntry pos block_size sector_size) .PARTIALLY_PRESENT).space =
        t.space.setState (getBatEntry pos block_size sector_size) .PARTIALLY_PRESENT := rfl
    rw [heq, hspace]
    exact place_partially hs hdisk hpos hbitmap.2
  obtain ⟨hentry, hapart⟩ := hmarked.same.bitmapFits hbitmap
  obtain ⟨set, hset, hkeeps⟩ := setSector_keeps hok stop hentry hapart
  exact ⟨set, hset, hmarked.trans hkeeps⟩

theorem prepareWrite_keeps (hok : ∀ n, resizeOk n = true) (hdisk : DiskFits s.dst_size) {spos : Nat} (stop : Nat)
    (hpos : spos < s.dst_size) (hbitmap : s.parent.isSome → s.BitmapFits spos) :
    ∃ ready, (s.prepareWrite resizeOk (getBatEntry spos block_size sector_size) spos stop).1 = .returns ready ∧
      Keeps s (s.prepareWrite resizeOk (getBatEntry spos block_size sector_size) spos stop).2 := by
  unfold prepareWrite
  split
  · exact ⟨true, rfl, Keeps.refl s⟩
  · exact ⟨false, rfl, Keeps.refl s⟩
  · exact ⟨false, rfl, Keeps.refl s⟩
  · obtain ⟨t, halloc, hsame, hspace, -⟩ := allocateBatBlockFull_ok (s := s) hok (getBatEntry spos block_size sector_size)
    rw [halloc]
    refine ⟨true, rfl, hsame, ?_⟩
    intro hs
    change t.space.Sound
    rw [hspace]
    exact hs.place _
  · have hparent : s.parent.isSome := by simp [*]
    obtain ⟨hentry, hapart⟩ := hbitmap hparent
    exact setSector_keeps hok stop hentry hapart
  · have hparent : s.parent.isSome := by simp [*]
    exact allocatePartially_keeps hok hdisk stop hpos (hbitmap hparent)

/-- The entries of a range of the disk can be used. -/
def RangeFits (s : VHDXFile) (start stop : Nat) : Prop :=
  ∀ pos, start ≤ pos → pos < stop → pos < s.dst_size ∧
    s.hasEntry (getBatEntry pos block_size sector_size) = true ∧ (s.parent.isSome → s.BitmapFits pos)

theorem SameImage.rangeFits {s' : VHDXFile} (h : SameImage s s') {start start' stop : Nat} (hle : start ≤ start')
    (hfits : s.RangeFits start stop) : s'.RangeFits start' stop := by
  intro pos hstart hstop
  obtain ⟨hdst, hentry, hbitmap⟩ := hfits pos (hle.trans hstart) hstop
  refine ⟨by rw [h.dst_size]; exact hdst, by rw [h.hasEntry]; exact hentry, ?_⟩
  intro hparent
  rw [h.parent] at hparent
  exact h.bitmapFits (hbitmap hparent)

theorem writeBlocks_keeps (hok : ∀ n, resizeOk n = true) (hdisk : DiskFits s.dst_size) (fuel : Nat) {spos : Nat}
    {buffer : Bytes} (written : Nat) (hfits : s.RangeFits spos (spos + buffer.length)) :
    ∃ out, (writeBlocks resizeOk fuel spos buffer written s).1 = .returns out ∧
      Keeps s (writeBlocks resizeOk fuel spos buffer written s).2 := by
  induction fuel generalizing s spos buffer written with
  | zero => exact ⟨_, rfl, Keeps.refl s⟩
  | succ fuel ih =>
    rw [writeBlocks]
    split
    · exact ⟨_, rfl, Keeps.refl s⟩
    · next hne =>
      have hlen : 0 < buffer.length := List.length_pos_iff.mpr hne
      obtain ⟨hdst, hentry, hbitmap⟩ := hfits spos (Nat.le_refl _) (by omega)
      dsimp only
      rw [if_pos hentry]
      obtain ⟨ready, hready, hkeeps⟩ := prepareWrite_keeps hok hdisk
        (spos + min (block_size - spos % block_size) buffer.length) hdst hbitmap
      split
      · next t hout =>
        rw [hout] at hkeeps
        have hdata := hkeeps.trans (Keeps.data t
          ((t.bat_buf (getBatEntry spos block_size sector_size)).fileOffset + spos % block_size)
          (min (block_size - spos % block_size) buffer.length) fun i => buffer.getD i 0)
        have hdst' := hdata.same.dst_size
        have hlen' : spos + min (block_size - spos % block_size) buffer.length +
            (buffer.drop (min (block_size - spos % block_size) buffer.length)).length = spos + buffer.length := by
          rw [List.length_drop]
          omega
        obtain ⟨out, hret, hrest⟩ := ih (by rw [hdst']; exact hdisk)
          (written + min (block_size - spos % block_size) buffer.length)
          (by
            rw [hlen']
            exact hdata.same.rangeFits (Nat.le_add_right _ _) hfits)
        exact ⟨out, hret, hdata.trans hrest⟩
      · next t hout =>
        rw [hout] at hkeeps
        exact ⟨_, rfl, hkeeps⟩
      · next t hout =>
        rw [hout] at hready
        cases hready
      · next t hout =>
        rw [hout] at hready
        cases hready

theorem updateDataWriteGuid_keeps : Keeps s s.updateDataWriteGuid := by
  unfold updateDataWriteGuid
  split
  · exact Keeps.refl s
  · split
    · exact ⟨⟨rfl, rfl, rfl⟩, fun hs => hs⟩
    · refine ⟨⟨rfl, rfl, rfl⟩, ?_⟩
      intro hs
      rw [space_updateHeader]
      exact Space.Sound.updateHeader hs

theorem Write_keeps (hok : ∀ n, resizeOk n = true) (hdisk : DiskFits s.dst_size) {spos : Nat} {buffer : Bytes}
    (hfits : s.RangeFits spos (min (spos + buffer.length) s.dst_size)) :
    ∃ out, (s.Write resizeOk spos buffer).1 = .returns out ∧ Keeps s (s.Write resizeOk spos buffer).2 := by
  unfold Write
  split
  · exact ⟨_, rfl, Keeps.refl s⟩
  · next hpos =>
    dsimp only
    have hguid := updateDataWriteGuid_keeps (s := s)
    have hlen : spos + (if spos + buffer.length ≥ s.dst_size then buffer.take (s.dst_size - spos) else buffer).length =
        min (spos + buffer.length) s.dst_size := by
      split
      · rw [List.length_take]
        omega
      · omega
    obtain ⟨out, hret, hkeeps⟩ := writeBlocks_keeps hok (by rw [hguid.same.dst_size]; exact hdisk)
      ((if spos + buffer.length ≥ s.dst_size then buffer.take (s.dst_size - spos) else buffer).length + 1) 0
      (by
        rw [hlen]
        exact hguid.same.rangeFits (Nat.le_refl _) hfits)
    exact ⟨out, hret, hguid.trans hkeeps⟩

end Write

section Unused

/-- The entries a discard of `[start, stop)` uses. The sector bitmap of a block is
used where not the whole block is discarded, and the parent where the range ends
in the second sector. -/
structure UnusedFits (s : VHDXFile) (start stop : Nat) : Prop where
  entries : ∀ pos, start ≤ pos → pos < stop → s.hasEntry (getBatEntry pos block_size sector_size) = true
  bitmaps : ∀ pos, start ≤ pos → pos < stop →
    ¬ (start ≤ pos / block_size * block_size ∧ pos / block_size * block_size + block_size ≤ stop) → s.BitmapFits pos
  parent : s.parent = none → start % sector_size = 0 ∨ stop ≠ start + 2 * (sector_size - start % sector_size)

theorem UnusedFits.same {s' : VHDXFile} {start stop : Nat} (hfits : s.UnusedFits start stop) (h : SameImage s s') :
    s'.UnusedFits start stop where
  entries pos hstart hstop := by
    rw [h.hasEntry]
    exact hfits.entries pos hstart hstop
  bitmaps pos hstart hstop hnot := h.bitmapFits (hfits.bitmaps pos hstart hstop hnot)
  parent hparent := by
    rw [h.parent] at hparent
    exact hfits.parent hparent

theorem UnusedFits.whole {s' : VHDXFile} {start stop : Nat} (hfits : s.UnusedFits start stop) (h : SameImage s s')
    (haligned : start % block_size = 0) : s'.UnusedFits (start + block_size) stop where
  entries pos hstart hstop := by
    rw [h.hasEntry]
    exact hfits.entries pos (by omega) hstop
  bitmaps pos hstart hstop hnot := by
    apply h.bitmapFits
    apply hfits.bitmaps pos (by omega) hstop
    rintro ⟨-, hle⟩
    refine hnot ⟨?_, hle⟩
    unfold block_size at *
    omega
  parent hparent := by
    left
    unfold block_size at *
    unfold sector_size
    omega

theorem UnusedFits.sector {s' : VHDXFile} {start stop : Nat} (hfits : s.UnusedFits start stop) (h : SameImage s s')
    (hlt : start < stop) (hpart : ¬ (start % block_size = 0 ∧ start + block_size ≤ stop)) :
    s'.UnusedFits (start + min (sector_size - start % sector_size) (stop - start)) stop where
  entries pos hstart hstop := by
    rw [h.hasEntry]
    exact hfits.entries pos (by omega) hstop
  bitmaps pos hstart hstop hnot := by
    apply h.bitmapFits
    apply hfits.bitmaps pos (by omega) hstop
    rintro ⟨hge, hle⟩
    refine hnot ⟨?_, hle⟩
    unfold block_size sector_size at *
    omega
  parent hparent := by
    by_cases hend : start + (sector_size - start % sector_size) ≤ stop
    · left
      unfold sector_size at *
      omega
    · right
      unfold sector_size at *
      omega

theorem copyParent_keeps (block pos n : Nat) (hparent : s.parent.isSome) :
    (s.copyParent block pos n).1 ≠ .undefined ∧ Keeps s (s.copyParent block pos n).2 := by
  unfold copyParent
  split
  · next hnone =>
    rw [hnone] at hparent
    cases hparent
  · split
    · exact ⟨(fun h => nomatch h), Keeps.refl s⟩
    · exact ⟨(fun h => nomatch h), Keeps.data s _ _ _⟩

theorem copyPrev_keeps (block : Nat) {start stop : Nat} (hlt : start < stop) (hfits : s.UnusedFits start stop) :
    let wantwrite := min (sector_size - start % sector_size) (stop - start)
    (s.copyPrev block (sector_size - start % sector_size) wantwrite (start + wantwrite) stop).1 ≠ .undefined ∧
      Keeps s (s.copyPrev block (sector_size - start % sector_size) wantwrite (start + wantwrite) stop).2 := by
  intro wantwrite
  unfold copyPrev
  dsimp only
  -- without a parent neither part of the sector is copied
  cases hparent : s.parent with
  | none =>
    have hlast : ¬ (start + wantwrite + wantwrite = stop ∧ stop % sector_size ≠ 0) := by
      rintro ⟨hend, hrest⟩
      have := hfits.parent hparent
      unfold wantwrite sector_size at *
      omega
    simp only [Option.isSome_none, Bool.false_eq_true, and_false, if_false, if_neg hlast]
    exact ⟨(fun h => nomatch h), Keeps.refl s⟩
  | some p =>
    have hbefore : ∀ pos n, (s.copyParent block pos n).1 ≠ .undefined ∧ Keeps s (s.copyParent block pos n).2 :=
      fun pos n => copyParent_keeps block pos n (by rw [hparent]; rfl)
    have hafter : ∀ t : VHDXFile, Keeps s t →
        (if start + wantwrite + wantwrite = stop ∧ stop % sector_size ≠ 0 then
            t.copyParent block stop (sector_size - stop % sector_size) else (.returns true, t)).1 ≠ .undefined ∧
          Keeps s (if start + wantwrite + wantwrite = stop ∧ stop % sector_size ≠ 0 then
            t.copyParent block stop (sector_size - stop % sector_size) else (.returns true, t)).2 := by
      intro t ht
      split
      · obtain ⟨hdef, hkeeps⟩ := copyParent_keeps (s := t) block stop (sector_size - stop % sector_size)
          (by rw [ht.same.parent, hparent]; rfl)
        exact ⟨hdef, ht.trans hkeeps⟩
      · exact ⟨(fun h => nomatch h), ht⟩
    simp only [Option.isSome_some, and_true]
    by_cases hfirst : sector_size - start % sector_size < sector_size
    · rw [if_pos hfirst]
      obtain ⟨hdef, hkeeps⟩ := hbefore ((start + wantwrite) / sector_size * sector_size)
        (sector_size - (sector_size - start % sector_size))
      split
      · next t hout =>
        rw [hout] at hkeeps
        exact hafter t hkeeps
      · exact ⟨hdef, hkeeps⟩
    · rw [if_neg hfirst]
      exact hafter s (Keeps.refl s)

section Unused

variable (hok : ∀ n, resizeOk n = true) (hdisk : DiskFits s.dst_size)

include hok hdisk

theorem unuseSector_keeps {start : Nat} (wantwrite : Nat)
    (hpos : start < s.dst_size) (hbitmap : s.BitmapFits start) :
    (s.unuseSector resizeOk (getBatEntry start block_size sector_size) start wantwrite).1 ≠ .undefined ∧
      Keeps s (s.unuseSector resizeOk (getBatEntry start block_size sector_size) start wantwrite).2 := by
  unfold unuseSector
  have hnewSector : ∀ out : Call Bool × VHDXFile, (∃ set, out.1 = .returns set ∧ Keeps s out.2) →
      (newSector out).1 ≠ .undefined ∧ Keeps s (newSector out).2 := by
    rintro ⟨ret, t⟩ ⟨set, rfl, hkeeps⟩
    exact ⟨(fun h => nomatch h), hkeeps⟩
  have hnew := hnewSector _ (allocatePartially_keeps hok hdisk (start + sector_size) hpos hbitmap)
  cases hstate : (s.bat_buf (getBatEntry start block_size sector_size)).State with
  | PARTIALLY_PRESENT =>
    obtain ⟨set, hset, hkeeps, -⟩ := isSectorSet_keeps hbitmap.1
    dsimp only
    split
    · next t hout =>
      rw [hout] at hkeeps
      obtain ⟨hentry, hapart⟩ := hkeeps.same.bitmapFits hbitmap
      obtain ⟨ok, hret, hrest⟩ := setSector_keeps hok (start + sector_size) hentry hapart
      exact hnewSector _ ⟨ok, hret, hkeeps.trans hrest⟩
    · next t hout =>
      rw [hout] at hkeeps
      exact ⟨(fun h => nomatch h), hkeeps.trans (Keeps.data t _ _ _)⟩
    · exact ⟨(by rw [hset]; exact fun h => nomatch h), hkeeps⟩
  | UNDEFINED => exact hnew
  | UNMAPPED => exact hnew
  | NOT_PRESENT => exact hnew
  | ZERO => exact ⟨(fun h => nomatch h), Keeps.refl s⟩
  | FULLY_PRESENT => exact ⟨(fun h => nomatch h), Keeps.refl s⟩
  | reserved => exact ⟨(fun h => nomatch h), Keeps.refl s⟩

theorem unusePart_keeps {start stop : Nat}
    (hlt : start < stop) (hstop : stop ≤ s.dst_size) (hfits : s.UnusedFits start stop) (hbitmap : s.BitmapFits start) :
    (s.unusePart resizeOk (getBatEntry start block_size sector_size) start stop).1 ≠ .undefined ∧
      Keeps s (s.unusePart resizeOk (getBatEntry start block_size sector_size) start stop).2 := by
  obtain ⟨hdef, hkeeps⟩ := unuseSector_keeps hok hdisk (min (sector_size - start % sector_size) (stop - start))
    (hlt.trans_le hstop) hbitmap
  unfold unusePart
  dsimp only
  split
  · next t hout =>
    rw [hout] at hkeeps
    exact ⟨(fun h => nomatch h), hkeeps⟩
  · next t hout =>
    rw [hout] at hkeeps
    obtain ⟨hdef', hrest⟩ := copyPrev_keeps (getBatEntry start block_size sector_size) hlt (hfits.same hkeeps.same)
    exact ⟨hdef', hkeeps.trans hrest⟩
  · next t hout =>
    rw [hout] at hkeeps
    exact ⟨(fun h => nomatch h), hkeeps⟩
  · next t hout =>
    rw [hout] at hkeeps
    exact ⟨(fun h => nomatch h), hkeeps⟩
  · next t hout =>
    rw [hout] at hdef
    exact absurd rfl hdef

theorem unuseBlocks_keeps (fuel : Nat) {start stop : Nat}
    (hstop : stop ≤ s.dst_size) (hfits : s.UnusedFits start stop) :
    (unuseBlocks resizeOk fuel start stop s).1 ≠ .undefined ∧ Keeps s (unuseBlocks resizeOk fuel start stop s).2 := by
  induction fuel generalizing s start with
  | zero => exact ⟨(fun h => nomatch h), Keeps.refl s⟩
  | succ fuel ih =>
    rw [unuseBlocks]
    split
    · exact ⟨(fun h => nomatch h), Keeps.refl s⟩
    · next hnot =>
      have hlt : start < stop := Nat.not_le.mp hnot
      dsimp only
      rw [if_pos (hfits.entries start (Nat.le_refl _) hlt)]
      split
      · next hwhole =>
        have hzero : Keeps s (s.setState (getBatEntry start block_size sector_size) .ZERO) := by
          refine ⟨⟨rfl, rfl, rfl⟩, ?_⟩
          intro hs
          refine Space.Sound.setState hs ⟨start, hlt.trans_le hstop, rfl⟩ ?_ ?_
          · rintro (h | h)
            · cases h
            · cases h
          · intro h
            cases h
        obtain ⟨hdef, hrest⟩ := ih (s := s.setState (getBatEntry start block_size sector_size) .ZERO)
          hdisk hstop (hfits.whole hzero.same hwhole.1)
        exact ⟨hdef, hzero.trans hrest⟩
      · next hpart =>
        have hbitmap : s.BitmapFits start := by
          apply hfits.bitmaps start (Nat.le_refl _) hlt
          rintro ⟨hge, hle⟩
          apply hpart
          unfold block_size at *
          omega
        obtain ⟨hdef, hkeeps⟩ := unusePart_keeps hok hdisk hlt hstop hfits hbitmap
        split
        · next t hout =>
          rw [hout] at hkeeps
          obtain ⟨hdef', hrest⟩ := ih (s := t) (by rw [hkeeps.same.dst_size]; exact hdisk)
            (by rw [hkeeps.same.dst_size]; exact hstop) (hfits.sector hkeeps.same hlt hpart)
          exact ⟨hdef', hkeeps.trans hrest⟩
        · exact ⟨hdef, hkeeps⟩

theorem setUnused_keeps {start stop : Nat}
    (hfits : stop ≤ s.dst_size → s.UnusedFits start stop) :
    (s.setUnused resizeOk start stop).1 ≠ .undefined ∧ Keeps s (s.setUnused resizeOk start stop).2 := by
  unfold setUnused
  split
  · exact ⟨(fun h => nomatch h), Keeps.refl s⟩
  · next hstop => exact unuseBlocks_keeps hok hdisk _ (Nat.not_lt.mp hstop) (hfits (Nat.not_lt.mp hstop))

end Unused

end Unused

end VHDXFile

end urbackup.vhdxfile
