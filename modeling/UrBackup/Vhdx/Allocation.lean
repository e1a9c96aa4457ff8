import UrBackup.Vhdx.Reopen

namespace urbackup.vhdxfile

open filedata stringtools

namespace VHDXFile

variable {resizeOk : Nat → Bool} {s : VHDXFile}

section Read

theorem readRound_keeps {spos : Nat} (toread : Nat)
    (hentry : s.hasEntry (getBatEntry spos block_size sector_size) = true)
    (hbitmap : s.parent.isSome → s.BitmapFits spos) :
    ∃ out, (s.readRound spos toread).1 = .returns out ∧ Keeps s (s.readRound spos toread).2 := by
  unfold readRound
  dsimp only
  rw [if_pos hentry]
  split
  · exact ⟨_, rfl, Keeps.refl s⟩
  · exact ⟨_, rfl, Keeps.refl s⟩
  · have hparent : s.parent.isSome := by simp [*]
    obtain ⟨set, hset, hkeeps, -⟩ := isSectorSet_keeps (hbitmap hparent).1
    split
    · next t hout =>
      rw [hout] at hkeeps
      exact ⟨_, rfl, hkeeps⟩
    · next t hout =>
      rw [hout] at hkeeps
      exact ⟨_, rfl, hkeeps⟩
    · next t hout =>
      rw [hout] at hkeeps
      exact ⟨_, rfl, hkeeps⟩
    · next t hout =>
      rw [hout] at hset
      cases hset
    · next t hout =>
      rw [hout] at hset
      cases hset
  · exact ⟨_, rfl, Keeps.refl s⟩
  · exact ⟨_, rfl, Keeps.refl s⟩
  · exact ⟨_, rfl, Keeps.refl s⟩

theorem roundSize_le (spos bsize : Nat) : s.roundSize spos bsize ≤ bsize := by
  unfold roundSize
  split
  · exact Nat.min_le_right _ _
  · exact Nat.min_le_right _ _

theorem readBlocks_keeps (fuel : Nat) {spos bsize : Nat} (hfits : s.RangeFits spos (spos + bsize)) :
    ∃ out, (readBlocks fuel spos bsize s).1 = .returns out ∧ Keeps s (readBlocks fuel spos bsize s).2 := by
  induction fuel generalizing s spos bsize with
  | zero => exact ⟨_, rfl, Keeps.refl s⟩
  | succ fuel ih =>
    rw [readBlocks]
    split
    · exact ⟨_, rfl, Keeps.refl s⟩
    · next hne =>
      obtain ⟨-, hentry, hbitmap⟩ := hfits spos (Nat.le_refl _) (by omega)
      obtain ⟨out, hret, hkeeps⟩ := readRound_keeps (s.roundSize spos bsize) hentry hbitmap
      have hle := roundSize_le (s := s) spos bsize
      dsimp only
      split
      · next bytes t hout =>
        rw [hout] at hkeeps
        have hend : spos + s.roundSize spos bsize + (bsize - s.roundSize spos bsize) = spos + bsize := by omega
        have hfits' : t.RangeFits (spos + s.roundSize spos bsize)
            (spos + s.roundSize spos bsize + (bsize - s.roundSize spos bsize)) := by
          rw [hend]
          exact hkeeps.same.rangeFits (Nat.le_add_right _ _) hfits
        obtain ⟨out', hret', hrest⟩ := ih hfits'
        split
        · next rest has_error u hout' =>
          rw [hout'] at hrest
          exact ⟨_, rfl, hkeeps.trans hrest⟩
        · exact ⟨out', hret', hkeeps.trans hrest⟩
      · exact ⟨out, hret, hkeeps⟩

theorem Read_keeps {spos bsize : Nat} (hfits : s.RangeFits spos (min (spos + bsize) s.dst_size)) :
    ∃ out, (s.Read spos bsize).1 = .returns out ∧ Keeps s (s.Read spos bsize).2 := by
  unfold Read
  split
  · exact ⟨_, rfl, Keeps.refl s⟩
  · next hpos =>
    dsimp only
    apply readBlocks_keeps
    have hend : spos + (if spos + bsize ≥ s.dst_size then s.dst_size - spos else bsize) = min (spos + bsize) s.dst_size := by
      split
      · omega
      · omega
    rw [hend]
    exact hfits

end Read

/-- The header, log, metadata and BAT areas and all blocks with a place are apart
and in front of the next place, and the sector bitmap of a block is no payload block. -/
structure Spaced (s : VHDXFile) : Prop where
  areas : 1024 * 1024 ≤ LogOffset ∧ LogOffset + LogLength ≤ meta_region_offset ∧
    meta_region_offset + 1024 * 1024 ≤ bat_table_offset ∧ bat_table_offset + s.bat_length ≤ s.next_payload_pos
  behind : ∀ i, (s.bat_buf i).IsPresent → bat_table_offset + s.bat_length ≤ (s.bat_buf i).fileOffset
  below : ∀ i, (s.bat_buf i).IsPresent → (s.bat_buf i).fileOffset + block_size ≤ s.next_payload_pos
  apart : ∀ i j, i ≠ j → (s.bat_buf i).IsPresent → (s.bat_buf j).IsPresent →
    (s.bat_buf i).fileOffset + block_size ≤ (s.bat_buf j).fileOffset ∨
      (s.bat_buf j).fileOffset + block_size ≤ (s.bat_buf i).fileOffset
  blocks : ∀ pos pos', pos < s.dst_size → pos' < s.dst_size → pos / block_size ≠ pos' / block_size →
    getBatEntry pos block_size sector_size ≠ getBatEntry pos' block_size sector_size
  bitmaps : ∀ pos pos', pos < s.dst_size → pos' < s.dst_size →
    (s.bat_buf (getBatEntry pos block_size sector_size)).State = .PARTIALLY_PRESENT →
      getBatEntry pos' block_size sector_size ≠ getSectorBitmapEntry pos block_size sector_size

theorem spaced_of_spread (hdisk : DiskFits s.dst_size) (h : s.space.Spread) : s.Spaced where
  areas := by
    refine ⟨by decide, by decide, by decide, h.low⟩
  behind i hi := by
    have hne := h.present i _ (Or.inl rfl) hi
    have hrange := (h.placed.range i _ ⟨_, Or.inl rfl, rfl, hne⟩).1
    have haligned : s.bat_length % (1024 * 1024) = 0 := h.bat_aligned
    change (bat_table_offset + s.bat_length) / (1024 * 1024) ≤ (s.bat_buf i).FileOffsetMB at hrange
    unfold VhdxBatEntry.fileOffset
    unfold bat_table_offset meta_region_offset at *
    omega
  below i hi := by
    have hlt : (s.bat_buf i).FileOffsetMB < s.next_payload_pos / (1024 * 1024) := h.lt_next (Or.inl rfl)
    unfold VhdxBatEntry.fileOffset block_size
    omega
  apart i j hij hi hj := by
    have hne := h.present i _ (Or.inl rfl) hi
    have hne' := h.present j _ (Or.inl rfl) hj
    have hplace : (s.bat_buf i).FileOffsetMB ≠ (s.bat_buf j).FileOffsetMB := by
      intro heq
      apply hij
      exact h.placed.own i j _ ⟨_, Or.inl rfl, rfl, hne⟩ ⟨_, Or.inl rfl, heq.symm, hne⟩
    change (s.bat_buf i).FileOffsetMB ≠ 0 at hne
    unfold VhdxBatEntry.fileOffset block_size
    omega
  blocks pos pos' hpos hpos' hne heq := hne (getBatEntry_inj hdisk hpos hpos' heq)
  bitmaps pos pos' hpos hpos' hstate heq :=
    h.partially _ _ (Or.inl rfl) hstate pos hpos rfl ⟨pos', hpos', heq⟩

section Run

/-- What a call needs so that it uses only entries of `bat_buf`, and sector bitmaps
only with entries that are no payload block's. -/
def OpFits (s : VHDXFile) : Op → Prop
  | .Write spos buffer => s.RangeFits spos (min (spos + buffer.length) s.dst_size)
  | .setUnused unused_start unused_end => unused_end ≤ s.dst_size → s.UnusedFits unused_start unused_end
  | .Read spos bsize => s.RangeFits spos (min (spos + bsize) s.dst_size)
  | .Sync => True
  | .finish => True
  | .reopen => s.ReopenFits

/-- Every call of the run fits the image it is made on. -/
def AllFit (resizeOk : Nat → Bool) : List Op → VHDXFile → Prop
  | [], _ => True
  | op :: ops, s => s.OpFits op ∧ ∀ s', s.apply resizeOk op = (.returns true, s') → AllFit resizeOk ops s'

theorem open_after_ends {α : Type} {out : Call α × VHDXFile} (stays : α → Bool) (h : Ends s out) :
    (open_after stays out).1 ≠ .undefined ∧ SameImage s (open_after stays out).2 ∧ (open_after stays out).2.space.Spread ∧
      ((open_after stays out).1 = .returns true → (open_after stays out).2.space.Sound) := by
  obtain ⟨ret, t⟩ := out
  cases ret with
  | returns a => exact ⟨(fun h => nomatch h), h.same, h.spread, fun _ => h.sound a rfl⟩
  | hangs => exact ⟨(fun h => nomatch h), h.same, h.spread, fun h => nomatch h⟩
  | undefined => exact absurd rfl h.defined

theorem apply_spec (hok : ∀ n, resizeOk n = true) (hdisk : DiskFits s.dst_size) (hs : s.space.Sound) {op : Op}
    (hfits : s.OpFits op) : (s.apply resizeOk op).1 ≠ .undefined ∧ SameImage s (s.apply resizeOk op).2 ∧
      (s.apply resizeOk op).2.space.Spread ∧
      ((s.apply resizeOk op).1 = .returns true → (s.apply resizeOk op).2.space.Sound) := by
  cases op with
  | Write spos buffer =>
    obtain ⟨out, hret, hkeeps⟩ := Write_keeps hok hdisk hfits
    exact open_after_ends _ (hkeeps.ends hs (by rw [hret]; exact fun h => nomatch h))
  | setUnused unused_start unused_end =>
    obtain ⟨hdef, hkeeps⟩ := setUnused_keeps hok hdisk hfits
    exact open_after_ends _ (hkeeps.ends hs hdef)
  | Read spos bsize =>
    obtain ⟨out, hret, hkeeps⟩ := Read_keeps hfits
    exact open_after_ends _ (hkeeps.ends hs (by rw [hret]; exact fun h => nomatch h))
  | Sync => exact open_after_ends _ (syncInt_ends hs false).1
  | finish => exact open_after_ends _ (finish_ends hs).1
  | reopen => exact reopen_spec hs hfits

theorem applyAll_spec (hok : ∀ n, resizeOk n = true) (hdisk : DiskFits s.dst_size) (hs : s.space.Sound) {ops : List Op}
    (hfits : AllFit resizeOk ops s) : (applyAll resizeOk ops s).1 ≠ .undefined ∧
      SameImage s (applyAll resizeOk ops s).2 ∧ (applyAll resizeOk ops s).2.space.Spread := by
  induction ops generalizing s with
  | nil => exact ⟨(fun h => nomatch h), SameImage.refl s, hs.spread⟩
  | cons op ops ih =>
    obtain ⟨hop, hrest⟩ := hfits
    obtain ⟨hdef, hsame, hspread, hsound⟩ := apply_spec hok hdisk hs hop
    rw [applyAll]
    split
    · next t hout =>
      rw [hout] at hsame hsound
      obtain ⟨hdef', hsame', hspread'⟩ := ih (s := t) (by rw [hsame.dst_size]; exact hdisk) (hsound rfl) (hrest t hout)
      exact ⟨hdef', hsame.trans hsame', hspread'⟩
    · exact ⟨hdef, hsame, hspread⟩

theorem getBatLength_aligned (size : Nat) : getBatLength size block_size sector_size % (1024 * 1024) = 0 := by
  unfold getBatLength
  dsimp only
  omega

theorem sound_of_fresh {sp : Space} (hbuf : ∀ i, sp.bat_buf i = .zero) (hstored : ∀ i, sp.bat_stored i = .zero)
    (hlog : ∀ pos, sp.log pos = none) (haligned : sp.bat_length % (1024 * 1024) = 0)
    (hnext : sp.next_payload_pos = bat_table_offset + sp.bat_length) (hbitmaps : sp.pending_sector_bitmaps = [])
    (hheader : sp.HeaderCurrent) (hguid : sp.curr_header.LogGuid = none) : sp.Sound := by
  have hlogged : ∀ i e, ¬ sp.Logged i e := by
    rintro i e ⟨pos, loge, hpos, -⟩
    rw [hlog] at hpos
    cases hpos
  have hzero : ∀ i e, sp.Recorded i e → e = .zero := by
    rintro i e (h | h | h)
    · rw [← h, hbuf]
    · rw [← h, hstored]
    · exact absurd h (hlogged i e)
  have hseen : ∀ i a, ¬ sp.Seen i a := by
    rintro i a ⟨e, he, rfl, hne⟩
    rw [hzero i e he] at hne
    exact hne rfl
  have hspread : sp.Spread :=
    { aligned := by
        rw [hnext]
        unfold bat_table_offset meta_region_offset
        omega
      bat_aligned := haligned
      low := Nat.le_of_eq hnext.symm
      placed :=
        { own := fun i j a hi => absurd hi (hseen i a)
          range := fun i a hi => absurd hi (hseen i a) }
      present := by
        intro i e he hpresent
        rw [hzero i e he] at hpresent
        exact absurd hpresent (by decide)
      partially := by
        intro i e he hstate
        rw [hzero i e he] at hstate
        cases hstate }
  exact
    { spread := hspread
      logged := fun i e he => absurd he (hlogged i e)
      stored := fun i => by rw [hstored, hbuf]
      bitmaps := fun i hi => by
        rw [hbitmaps] at hi
        cases hi
      header := hheader
      guids := fun pos loge hpos => by
        rw [hlog] at hpos
        cases hpos
      guid := fun log_guid h => by
        rw [hguid] at h
        cases h }

theorem createNew_sound {dst_size : Nat} {parent : Option ParentImage} {fast_mode : Bool}
    (h : createNew resizeOk dst_size parent fast_mode = some s) : s.space.Sound ∧ s.dst_size = dst_size := by
  unfold createNew at h
  dsimp only at h
  split at h
  · obtain rfl := Option.some.inj h
    refine ⟨sound_of_fresh (fun _ => rfl) (fun _ => rfl) (fun _ => rfl) (getBatLength_aligned dst_size) rfl rfl ?_ rfl, rfl⟩
    exact
      { first := fun h => nomatch h
        either := fun _ => Or.inl ⟨rfl, Nat.le_refl _⟩ }
  · cases h

/-- A new image and any calls on it, with backing file resizes that succeed: the
blocks never overlap. -/
theorem applyAll_placed (hok : ∀ n, resizeOk n = true) {dst_size : Nat} (hdisk : DiskFits dst_size)
    {parent : Option ParentImage} {fast_mode : Bool} (h : createNew resizeOk dst_size parent fast_mode = some s)
    {ops : List Op} (hfits : AllFit resizeOk ops s) :
    (applyAll resizeOk ops s).1 ≠ .undefined ∧ (applyAll resizeOk ops s).2.Spaced := by
  obtain ⟨hs, rfl⟩ := createNew_sound h
  obtain ⟨hdef, hsame, hspread⟩ := applyAll_spec hok hdisk hs hfits
  refine ⟨hdef, spaced_of_spread ?_ hspread⟩
  rw [hsame.dst_size]
  exact hdisk

theorem rangeFits_two_blocks {s : VHDXFile} (hparent : s.parent = none) (hdst : s.dst_size = 2 * 1024 * 1024)
    (hlength : s.bat_length = 1024 * 1024) {start stop : Nat} (hstop : stop ≤ s.dst_size) : s.RangeFits start stop := by
  intro pos _ hpos
  have hlt : pos < s.dst_size := by omega
  have hdisk : DiskFits s.dst_size := by
    rw [hdst]
    decide
  refine ⟨hlt, ?_, ?_⟩
  · have hblock : pos / block_size ≤ 1 := by
      unfold block_size
      omega
    unfold hasEntry
    rw [getBatEntry_eq hdisk hlt, hlength]
    simp only [decide_eq_true_eq]
    omega
  · rw [hparent]
    exact fun h => nomatch h

theorem applyAll_placed_two_blocks : ∃ s, createNew (fun _ => true) (2 * 1024 * 1024) none false = some s ∧
    AllFit (fun _ => true) [.reopen, .Write 0 [1], .Sync, .Write (1024 * 1024) [2], .finish] s ∧
    (applyAll (fun _ => true) [.reopen, .Write 0 [1], .Sync, .Write (1024 * 1024) [2], .finish] s).2.Spaced := by
  obtain ⟨s, hs⟩ : ∃ s, createNew (fun _ => true) (2 * 1024 * 1024) none false = some s := ⟨_, rfl⟩
  have hdisk : DiskFits (2 * 1024 * 1024) := by decide
  obtain ⟨hsound, hdst⟩ := createNew_sound hs
  have hreopen : s.ReopenFits := by
    obtain rfl := Option.some.inj hs
    exact ⟨by decide, fun i => Or.inl rfl⟩
  have hfits : ∀ {s' : VHDXFile} {start stop : Nat}, SameImage s s' → stop ≤ 2 * 1024 * 1024 → s'.RangeFits start stop := by
    intro s' start stop hsame hstop
    refine rangeFits_two_blocks ?_ ?_ ?_ ?_
    · rw [hsame.parent]
      obtain rfl := Option.some.inj hs
      rfl
    · rw [hsame.dst_size, hdst]
    · rw [hsame.bat_length]
      obtain rfl := Option.some.inj hs
      decide
    · rw [hsame.dst_size, hdst]
      exact hstop
  have hstep : ∀ (op : Op) {t t' : VHDXFile}, SameImage s t → t.space.Sound → t.OpFits op →
      t.apply (fun _ => true) op = (.returns true, t') → SameImage s t' ∧ t'.space.Sound := by
    intro op t t' hsame ht hop happly
    obtain ⟨-, hsame', -, hsound'⟩ := apply_spec (fun _ => rfl) (by rw [hsame.dst_size, hdst]; exact hdisk) ht hop
    rw [happly] at hsame' hsound'
    exact ⟨hsame.trans hsame', hsound' rfl⟩
  have hall : AllFit (fun _ => true) [.reopen, .Write 0 [1], .Sync, .Write (1024 * 1024) [2], .finish] s := by
    refine ⟨hreopen, fun s₁ h₁ => ?_⟩
    obtain ⟨hsame₁, hsound₁⟩ := hstep .reopen (SameImage.refl s) hsound hreopen h₁
    have hwrite₁ : s₁.OpFits (.Write 0 [1]) := hfits hsame₁ (by rw [hsame₁.dst_size, hdst]; decide)
    refine ⟨hwrite₁, fun s₂ h₂ => ?_⟩
    obtain ⟨hsame₂, hsound₂⟩ := hstep _ hsame₁ hsound₁ hwrite₁ h₂
    refine ⟨trivial, fun s₃ h₃ => ?_⟩
    obtain ⟨hsame₃, hsound₃⟩ := hstep .Sync hsame₂ hsound₂ trivial h₃
    refine ⟨hfits hsame₃ (by rw [hsame₃.dst_size, hdst]; decide), fun s₄ h₄ => ?_⟩
    exact ⟨trivial, fun _ _ => trivial⟩
  exact ⟨s, hs, hall, (applyAll_placed (fun _ => rfl) hdisk hs hall).2⟩

/-- The two payload blocks of an image, after the first was discarded in part. -/
theorem not_applyAll_placed : ¬ ∀ (resizeOk : Nat → Bool) (dst_size : Nat) (parent : Option ParentImage) (fast_mode : Bool)
    (s : VHDXFile) (ops : List Op), createNew resizeOk dst_size parent fast_mode = some s →
      (applyAll resizeOk ops s).2.Spaced := by
  intro h
  have hspaced := h (fun _ => true) (2 * 1024 * 1024) none false _
    [.setUnused 0 512, .reopen, .Write (1024 * 1024) [1]] rfl
  have hplace := hspaced.apart 1 4096 (by decide) (by decide +kernel) (by decide +kernel)
  exact absurd hplace (by decide +kernel)

end Run

end VHDXFile

end urbackup.vhdxfile
