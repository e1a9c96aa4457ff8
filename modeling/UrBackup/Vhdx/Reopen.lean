import UrBackup.Vhdx.Flush

namespace urbackup.vhdxfile

open filedata

namespace VHDXFile

variable {resizeOk : Nat → Bool} {s : VHDXFile}

section Finish

/-- The BAT that is read when the image is opened again. -/
def batToRead (s : VHDXFile) : Nat → VhdxBatEntry :=
  if s.finished then s.content.bat else s.batAfterSync

theorem finish_ends (hs : s.space.Sound) :
    Ends s s.finish ∧ (∀ a, s.finish.1 = .returns a → s.finish.2.content.bat = s.batToRead) := by
  unfold finish batToRead
  split
  · exact ⟨⟨(fun h => nomatch h), SameImage.refl s, hs.spread, fun _ _ => hs⟩, fun _ _ => rfl⟩
  · obtain ⟨hends, -, hbat⟩ := syncInt_ends (s := { s with finished := true }) hs true
    have hsame : SameImage s ({ s with finished := true }.syncInt true).2 :=
      ⟨hends.same.parent, hends.same.dst_size, hends.same.bat_length⟩
    split
    · next a t hout =>
      rw [hout] at hends hbat hsame
      exact ⟨⟨(fun h => nomatch h), hsame, hends.spread, fun _ _ => hends.sound a rfl⟩, fun _ _ => hbat a rfl⟩
    · next hnot =>
      refine ⟨⟨hends.defined, hsame, hends.spread, hends.sound⟩, ?_⟩
      intro a ha
      exact (hnot a _ (Prod.ext ha rfl)).elim

end Finish

section ReadFile

theorem space_readFile (hheader : s.space.HeaderCurrent) : s.readFile.space =
    { s.space with
      bat_buf := s.content.bat
      curr_header_second := (readHeader s.content).2
      pending_bat_entries := []
      pending_sector_bitmaps := []
      has_sector_bitmap := fun _ => false } := by
  have hcurr : (readHeader s.content).1 = s.curr_header := by
    refine Eq.trans ?_ hheader.readHeader
    unfold readHeader
    split
    · next h => exact (if_pos h).symm
    · next h => exact (if_neg h).symm
  apply Space.ext
  case curr_header => exact hcurr
  all_goals rfl

theorem readFile_sound (hs : s.space.Sound) : s.readFile.space.Sound := by
  rw [space_readFile hs.header]
  refine ⟨?_, hs.logged, fun _ => Nat.le_refl _, fun i hi => absurd hi List.not_mem_nil, ?_, hs.guids, hs.guid⟩
  · refine hs.spread.mono ?_ rfl rfl rfl
    rintro i e (hmem | hrest)
    · exact Or.inr (Or.inl hmem)
    · exact Or.inr hrest
  · have hread := hs.header.readHeader
    unfold readHeader
    constructor
    · intro hsecond
      dsimp only at hsecond ⊢
      split at hsecond
      · cases hsecond
      · next hle =>
        have hle' : ¬ s.space.header2.SequenceNumber > s.space.header1.SequenceNumber := hle
        rw [if_neg hle'] at hread
        exact ⟨hread, Nat.not_lt.mp hle⟩
    · intro hsecond
      dsimp only at hsecond ⊢
      split at hsecond
      · next hlt =>
        have hlt' : s.space.header2.SequenceNumber > s.space.header1.SequenceNumber := hlt
        rw [if_pos hlt'] at hread
        exact Or.inr ⟨hread, hlt⟩
      · cases hsecond

end ReadFile

section Replay

theorem space_replayEntry (loge : LogEntry) : (s.replayEntry loge).space =
    { s.space with
      bat_stored := fun i => if i / sector_entries = loge.sector then loge.entries i else s.content.bat i } := by
  have hcontent : (s.replayEntry loge).content = (s.fileWrite (.bat loge.sector loge.entries)).content := rfl
  unfold space
  rw [hcontent, content_fileWrite]
  rfl

/-- The BAT of the file is written from the current log only. -/
theorem replayEntries_space {log_guid : Nat} (hguid : s.curr_header.LogGuid = some log_guid) (l : List Nat) :
    ∃ stored, (replayEntries log_guid l s).2.space = { s.space with bat_stored := stored } ∧
      (∀ i, stored i = s.content.bat i ∨ s.space.Logged i (stored i)) ∧ SameImage s (replayEntries log_guid l s).2 ∧
      (replayEntries log_guid l s).2.fast_mode = s.fast_mode := by
  induction l generalizing s with
  | nil => exact ⟨s.content.bat, rfl, fun _ => Or.inl rfl, SameImage.refl s, rfl⟩
  | cons pos l ih =>
    rw [replayEntries]
    split
    · exact ⟨s.content.bat, rfl, fun _ => Or.inl rfl, SameImage.refl s, rfl⟩
    · next loge hread =>
      split
      · exact ⟨s.content.bat, rfl, fun _ => Or.inl rfl, SameImage.refl s, rfl⟩
      · obtain ⟨stored, hspace, hstored, hsame, hfast⟩ := ih (s := s.replayEntry loge) hguid
        refine ⟨stored, ?_, ?_, ⟨hsame.parent, hsame.dst_size, hsame.bat_length⟩, hfast⟩
        · rw [hspace, space_replayEntry]
        · intro i
          have hlog : s.content.log pos = some loge ∧ loge.LogGuid = log_guid := by
            unfold readLogEntry at hread
            split at hread
            · next e he =>
              split at hread
              · next heq =>
                cases hread
                exact ⟨he, heq⟩
              · cases hread
            · cases hread
          rcases hstored i with h | h
          · have hbat : stored i = if i / sector_entries = loge.sector then loge.entries i else s.content.bat i := by
              rw [h]
              exact congrFun (congrArg Space.bat_stored (space_replayEntry loge)) i
            rw [hbat]
            split
            · next hsector =>
              right
              refine ⟨pos, loge, hlog.1, ?_, hsector.symm, rfl⟩
              rw [hlog.2]
              exact hguid
            · exact Or.inl rfl
          · right
            rw [space_replayEntry] at h
            exact h

variable (resizeOk) in
theorem endReplay_spec (head_entry : LogEntry) : (s.endReplay resizeOk head_entry).space =
      (s.space.withLogGuid none).updateHeader ∧ SameImage s (s.endReplay resizeOk head_entry) ∧
      (s.endReplay resizeOk head_entry).fast_mode = s.fast_mode := by
  have hend : ∀ t : VHDXFile, t.space = s.space → SameImage s t → t.fast_mode = s.fast_mode →
      t.endLog.space = (s.space.withLogGuid none).updateHeader ∧ SameImage s t.endLog ∧
        t.endLog.fast_mode = s.fast_mode := by
    intro t hspace hsame hfast
    refine ⟨?_, ⟨hsame.parent, hsame.dst_size, hsame.bat_length⟩, hfast⟩
    unfold endLog
    rw [space_updateHeader, ← hspace]
    rfl
  unfold endReplay
  split
  · have hspace := space_resize s resizeOk head_entry.LastFileOffset
    have hsame : SameImage s (s.resize resizeOk head_entry.LastFileOffset).2 ∧
        (s.resize resizeOk head_entry.LastFileOffset).2.fast_mode = s.fast_mode := by
      unfold resize
      split
      · exact ⟨⟨rfl, rfl, rfl⟩, rfl⟩
      · exact ⟨⟨rfl, rfl, rfl⟩, rfl⟩
    split
    · next t hout =>
      rw [hout] at hspace hsame
      refine hend { t.fileSync with flushed_vhdx_size := head_entry.LastFileOffset } ?_
        ⟨hsame.1.parent, hsame.1.dst_size, hsame.1.bat_length⟩ hsame.2
      exact (space_fileSync t).trans hspace
    · next t hout =>
      rw [hout] at hspace hsame
      exact hend t.fileSync ((space_fileSync t).trans hspace) ⟨hsame.1.parent, hsame.1.dst_size, hsame.1.bat_length⟩
        hsame.2
  · exact hend s.fileSync (space_fileSync s) ⟨rfl, rfl, rfl⟩ rfl

variable (resizeOk) in
/-- A replay that returns leaves an image in order. Its BAT in memory is the one
read before. -/
theorem replayLog_spec {log_guid : Nat} (hs : s.space.Sound) (hread : s.bat_buf = s.content.bat)
    (hguid : s.curr_header.LogGuid = some log_guid) :
    (s.replayLog resizeOk log_guid).1 ≠ .undefined ∧ SameImage s (s.replayLog resizeOk log_guid).2 ∧
      (s.replayLog resizeOk log_guid).2.space.Spread ∧
      ((s.replayLog resizeOk log_guid).1 = .returns true → (s.replayLog resizeOk log_guid).2.space.Sound ∧
        (s.replayLog resizeOk log_guid).2.bat_buf = s.bat_buf) := by
  have hnothing : ∀ ret, ret ≠ Call.undefined → ret ≠ .returns true →
      ret ≠ Call.undefined ∧ SameImage s s ∧ s.space.Spread ∧
        (ret = .returns true → s.space.Sound ∧ s.bat_buf = s.bat_buf) :=
    fun ret hdef hnot => ⟨hdef, SameImage.refl s, hs.spread, fun h => absurd h hnot⟩
  unfold replayLog
  split
  · exact hnothing _ (fun h => nomatch h) fun h => nomatch h
  · next seq hseq =>
    split
    · exact hnothing _ (fun h => nomatch h) fun h => nomatch h
    · split
      · exact hnothing _ (fun h => nomatch h) fun h => nomatch h
      · split
        · exact hnothing _ (fun h => nomatch h) fun h => nomatch h
        · next head_entry hhead =>
          split
          · exact hnothing _ (fun h => nomatch h) fun h => nomatch h
          · obtain ⟨stored, hspace, hstored, hsame, -⟩ := replayEntries_space hguid seq.entries
            have hrecorded : ∀ i e, Space.Recorded { s.space with bat_stored := stored } i e → s.space.Recorded i e := by
              rintro i e (hmem | hst | hlog)
              · exact Or.inl hmem
              · have hst' : stored i = e := hst
                rcases hstored i with h | h
                · exact Or.inr (Or.inl (h.symm.trans hst'))
                · rw [hst'] at h
                  exact Or.inr (Or.inr h)
              · exact Or.inr (Or.inr hlog)
            have hspread := hs.spread.mono hrecorded rfl rfl rfl
            split
            · next t hout =>
              rw [hout] at hspace hsame
              exact ⟨(fun h => nomatch h), hsame, by rw [hspace]; exact hspread, fun h => nomatch h⟩
            · next t hout =>
              rw [hout] at hspace hsame
              obtain ⟨hend, hsame', -⟩ := endReplay_spec (s := t) resizeOk head_entry
              have hsound : (t.endReplay resizeOk head_entry).space.Sound := by
                rw [hend, hspace]
                refine hspread.endLog ?_ hs.bitmaps ⟨hs.header.first, hs.header.either⟩ hs.guids
                intro i
                change (stored i).FileOffsetMB ≤ (s.bat_buf i).FileOffsetMB
                rw [hread]
                rcases hstored i with h | h
                · rw [h]
                · exact hs.logged i _ h
              refine ⟨(fun h => nomatch h), hsame.trans hsame', hsound.spread, fun _ => ⟨hsound, ?_⟩⟩
              have hbuf := congrArg Space.bat_buf (hend.trans (by rw [hspace]))
              exact hbuf

variable (resizeOk) in
theorem replayIfLogged_spec (hs : s.space.Sound) (hread : s.bat_buf = s.content.bat) :
    (s.replayIfLogged resizeOk).1 ≠ .undefined ∧ SameImage s (s.replayIfLogged resizeOk).2 ∧
      (s.replayIfLogged resizeOk).2.space.Spread ∧
      ((s.replayIfLogged resizeOk).1 = .returns true → (s.replayIfLogged resizeOk).2.space.Sound ∧
        (s.replayIfLogged resizeOk).2.bat_buf = s.bat_buf) := by
  unfold replayIfLogged
  split
  · exact ⟨(fun h => nomatch h), SameImage.refl s, hs.spread, fun _ => ⟨hs, rfl⟩⟩
  · next log_guid hguid => exact replayLog_spec resizeOk hs hread hguid

end Replay

section NextPayload

theorem foldl_max_spec (bat : Nat → VhdxBatEntry) (l : List Nat) (start : Nat) :
    let next_pos := l.foldl (fun next_pos i => max next_pos ((bat i).fileOffset + block_size)) start
    start ≤ next_pos ∧ (∀ i ∈ l, (bat i).fileOffset + block_size ≤ next_pos) ∧
      (start % (1024 * 1024) = 0 → next_pos % (1024 * 1024) = 0) := by
  induction l generalizing start with
  | nil => exact ⟨Nat.le_refl _, fun i hi => absurd hi List.not_mem_nil, id⟩
  | cons j l ih =>
    obtain ⟨hstart, hl, haligned⟩ := ih (max start ((bat j).fileOffset + block_size))
    refine ⟨(Nat.le_max_left _ _).trans hstart, ?_, ?_⟩
    · intro i hi
      rcases List.mem_cons.mp hi with rfl | hi
      · exact (Nat.le_max_right _ _).trans hstart
      · exact hl i hi
    · intro hzero
      apply haligned
      unfold VhdxBatEntry.fileOffset block_size
      omega

/-- The next place lies behind the areas in front of the blocks and behind all
scanned entries. -/
theorem calcNextPayloadPos_spec (haligned : s.bat_length % (1024 * 1024) = 0) :
    bat_table_offset + s.bat_length ≤ s.calcNextPayloadPos ∧
      (∀ i, i < getBatEntries s.dst_size block_size sector_size →
        (s.bat_buf i).fileOffset + block_size ≤ s.calcNextPayloadPos) ∧
      s.calcNextPayloadPos % (1024 * 1024) = 0 := by
  unfold calcNextPayloadPos
  obtain ⟨hstart, hl, hzero⟩ := foldl_max_spec s.bat_buf
    (List.range (getBatEntries s.dst_size block_size sector_size))
    (max (max (max (1 * 1024 * 1024) (bat_table_offset + s.bat_length)) (LogOffset + LogLength))
      (meta_region_offset + 1 * 1024 * 1024))
  refine ⟨?_, ?_, ?_⟩
  · refine le_trans ?_ hstart
    omega
  · intro i hi
    exact hl i (List.mem_range.mpr hi)
  · apply hzero
    unfold bat_table_offset meta_region_offset LogOffset LogLength
    omega

end NextPayload

section Open

/-- Every entry is scanned, or lies in front of one that is. -/
def Scanned (s : VHDXFile) (bat : Nat → VhdxBatEntry) : Prop :=
  ∀ i, (bat i).FileOffsetMB = 0 ∨ ∃ j, j < getBatEntries s.dst_size block_size sector_size ∧
    (bat i).FileOffsetMB ≤ (bat j).FileOffsetMB

/-- A place that is recorded lies in front of the one the entry has in memory, or is it. -/
theorem recorded_le (hs : s.space.Sound) {i : Nat} {e : VhdxBatEntry} (he : s.space.Recorded i e) :
    e.FileOffsetMB ≤ (s.bat_buf i).FileOffsetMB := by
  rcases he with hmem | hstored | hlog
  · rw [← hmem]
    exact Nat.le_refl _
  · rw [← hstored]
    exact hs.stored i
  · exact (hs.logged i e hlog).trans (hs.stored i)

theorem continueFile_sound (hs : s.space.Sound) (hscanned : s.Scanned s.bat_buf) : s.continueFile.space.Sound := by
  obtain ⟨hlow, hscan, haligned⟩ := calcNextPayloadPos_spec (s := s) hs.spread.bat_aligned
  have hspace : s.continueFile.space = { s.space with next_payload_pos := s.calcNextPayloadPos } := rfl
  rw [hspace]
  refine { hs with
    spread := ⟨haligned, hs.spread.bat_aligned, hlow, ?_, hs.spread.present, hs.spread.partially⟩
    header := ⟨hs.header.first, hs.header.either⟩ }
  refine ⟨hs.spread.placed.own, ?_⟩
  rintro i a ⟨e, he, rfl, hne⟩
  refine ⟨(hs.spread.placed.range i _ ⟨e, he, rfl, hne⟩).1, ?_⟩
  have hle := recorded_le hs he
  rcases hscanned i with h | ⟨j, hj, hij⟩
  · omega
  · have hend := hscan j hj
    unfold VhdxBatEntry.fileOffset block_size at hend
    change _ < s.calcNextPayloadPos / (1024 * 1024)
    omega

variable (resizeOk) in
theorem openImage_spec (hs : s.space.Sound) (hscanned : s.Scanned s.content.bat)
    (hentries : getBatEntries s.dst_size block_size sector_size * 8 ≤ s.bat_length) :
    (s.openImage resizeOk).1 ≠ .undefined ∧ SameImage s (s.openImage resizeOk).2 ∧
      (s.openImage resizeOk).2.space.Spread ∧
      ((s.openImage resizeOk).1 = .returns true → (s.openImage resizeOk).2.space.Sound) := by
  have hread := readFile_sound hs
  have hsame : SameImage s s.readFile := ⟨rfl, rfl, rfl⟩
  unfold openImage
  dsimp only
  split
  · exact ⟨(fun h => nomatch h), hsame, hread.spread, fun h => nomatch h⟩
  · split
    · exact ⟨(fun h => nomatch h), hsame, hread.spread, fun h => nomatch h⟩
    · obtain ⟨hdef, hreplayed, hspread, hsound⟩ := replayIfLogged_spec resizeOk hread rfl
      have hsame' := hsame.trans hreplayed
      split
      · next t hout =>
        rw [hout] at hsame' hsound
        obtain ⟨hst, hbuf⟩ := hsound rfl
        have hdst := hsame'.dst_size
        have hlen := hsame'.bat_length
        rw [if_pos (by rw [hdst, hlen]; exact hentries)]
        have hcontinue : t.continueFile.space.Sound := by
          apply continueFile_sound hst
          unfold Scanned
          rw [hbuf, hdst]
          exact hscanned
        split
        · exact ⟨(fun h => nomatch h), ⟨hsame'.parent, hdst, hlen⟩, hcontinue.spread, fun _ => hcontinue⟩
        · have hheader : t.continueFile.updateHeader.space.Sound := by
            rw [space_updateHeader]
            exact hcontinue.updateHeader
          exact ⟨(fun h => nomatch h), ⟨hsame'.parent, hdst, hlen⟩, hheader.spread, fun _ => hheader⟩
      · exact ⟨hdef, hsame', hspread, fun h => (hsound h).1⟩

/-- What an image needs to be opened again with its places in order. -/
structure ReopenFits (s : VHDXFile) : Prop where
  entries : getBatEntries s.dst_size block_size sector_size * 8 ≤ s.bat_length
  scanned : s.Scanned s.batToRead

theorem reopen_spec (hs : s.space.Sound) (hfits : s.ReopenFits) :
    (s.reopen resizeOk).1 ≠ .undefined ∧ SameImage s (s.reopen resizeOk).2 ∧ (s.reopen resizeOk).2.space.Spread ∧
      ((s.reopen resizeOk).1 = .returns true → (s.reopen resizeOk).2.space.Sound) := by
  obtain ⟨hends, hbat⟩ := finish_ends hs
  unfold reopen
  split
  · next a t hout =>
    rw [hout] at hends hbat
    have hscanned : t.Scanned t.content.bat := by
      unfold Scanned
      rw [hbat a rfl, hends.same.dst_size]
      exact hfits.scanned
    obtain ⟨hdef, hsame, hspread, hsound⟩ := openImage_spec resizeOk (hends.sound a rfl) hscanned
      (by rw [hends.same.dst_size, hends.same.bat_length]; exact hfits.entries)
    exact ⟨hdef, hends.same.trans hsame, hspread, hsound⟩
  · next hnot => exact ⟨hends.defined, hends.same, hends.spread, fun h => hends.sound true h⟩

end Open

end VHDXFile

end urbackup.vhdxfile
