import UrBackup.Vhdx.Placed

namespace urbackup.vhdxfile

namespace Space

variable {sp sp' : Space}

/-- Where nothing new is recorded the places stay in order. -/
theorem Spread.mono (h : sp.Spread) (hsub : ∀ i e, sp'.Recorded i e → sp.Recorded i e)
    (hdst : sp'.dst_size = sp.dst_size) (hlen : sp'.bat_length = sp.bat_length)
    (hnext : sp'.next_payload_pos = sp.next_payload_pos) : sp'.Spread where
  aligned := by
    rw [hnext]
    exact h.aligned
  bat_aligned := by
    rw [hlen]
    exact h.bat_aligned
  low := by
    rw [hlen, hnext]
    exact h.low
  placed := by
    rw [hlen, hnext]
    apply h.placed.mono
    rintro i a ⟨e, he, hea⟩
    exact ⟨e, hsub i e he, hea⟩
  present i e he := h.present i e (hsub i e he)
  partially i e he hstate := by
    have := h.partially i e (hsub i e he) hstate
    unfold Partial BitmapApart IsPayload at this ⊢
    rwa [hdst]

section Place

/-- A place that is recorded lies in front of the next one. -/
theorem Spread.lt_next (h : sp.Spread) {i : Nat} {e : VhdxBatEntry} (he : sp.Recorded i e) :
    e.FileOffsetMB < sp.next_payload_pos / (1024 * 1024) := by
  by_cases hzero : e.FileOffsetMB = 0
  · have := h.low
    unfold bat_table_offset meta_region_offset at this
    omega
  · exact (h.placed.range i e.FileOffsetMB ⟨e, he, rfl, hzero⟩).2

theorem recorded_place {block i : Nat} {e : VhdxBatEntry} (he : (sp.place block).Recorded i e) :
    sp.Recorded i e ∨ (i = block ∧ e = ⟨.FULLY_PRESENT, sp.next_payload_pos / (1024 * 1024)⟩) := by
  rcases he with hmem | hrest
  · by_cases hi : i = block
    · refine Or.inr ⟨hi, ?_⟩
      rw [← hmem]
      exact if_pos hi
    · refine Or.inl (Or.inl ?_)
      rw [← hmem]
      exact (if_neg hi).symm
  · exact Or.inl (Or.inr hrest)

theorem Spread.place (h : sp.Spread) (block : Nat) : (sp.place block).Spread where
  aligned := by
    have := h.aligned
    change (sp.next_payload_pos + block_size) % (1024 * 1024) = 0
    unfold block_size
    omega
  bat_aligned := h.bat_aligned
  low := by
    have := h.low
    change _ ≤ sp.next_payload_pos + block_size
    exact Nat.le_add_right_of_le this
  placed := by
    have hdiv : (sp.place block).next_payload_pos / (1024 * 1024) = sp.next_payload_pos / (1024 * 1024) + 1 := by
      change (sp.next_payload_pos + block_size) / (1024 * 1024) = _
      unfold block_size
      omega
    rw [hdiv]
    apply h.placed.next (Nat.div_le_div_right h.low)
    rintro i a ⟨e, he, hea, ha⟩
    rcases recorded_place he with he | ⟨rfl, rfl⟩
    · exact Or.inl ⟨e, he, hea, ha⟩
    · exact Or.inr ⟨rfl, hea.symm⟩
  present i e he hpresent := by
    rcases recorded_place he with he | ⟨rfl, rfl⟩
    · exact h.present i e he hpresent
    · have := h.low
      unfold bat_table_offset meta_region_offset at this
      change sp.next_payload_pos / (1024 * 1024) ≠ 0
      omega
  partially i e he hstate := by
    rcases recorded_place he with he | ⟨rfl, rfl⟩
    · exact h.partially i e he hstate
    · cases hstate

theorem Sound.place (h : sp.Sound) (block : Nat) : (sp.place block).Sound where
  spread := h.spread.place block
  logged := h.logged
  stored i := by
    change _ ≤ (if i = block then (⟨.FULLY_PRESENT, _⟩ : VhdxBatEntry) else sp.bat_buf i).FileOffsetMB
    split
    · exact (h.spread.lt_next (Or.inr (Or.inl rfl))).le
    · exact h.stored i
  bitmaps i hi := by
    obtain ⟨hstate, hbuf⟩ := h.bitmaps i hi
    refine ⟨?_, hbuf⟩
    change (if i = block then (⟨.FULLY_PRESENT, _⟩ : VhdxBatEntry) else sp.bat_buf i).State = _
    split
    · rfl
    · exact hstate
  header := ⟨h.header.first, h.header.either⟩
  guids := h.guids
  guid := h.guid

end Place

section SetState

theorem setState_offset (block i : Nat) (state : BlockState) :
    ((sp.setState block state).bat_buf i).FileOffsetMB = (sp.bat_buf i).FileOffsetMB := by
  by_cases hi : i = block
  · subst hi
    simp [setState]
  · simp [setState, hi]

/-- A payload block is marked. The places stay as they are. -/
theorem Sound.setState (h : sp.Sound) {block : Nat} {state : BlockState} (hpayload : sp.IsPayload block)
    (hpresent : state = .FULLY_PRESENT ∨ state = .PARTIALLY_PRESENT → (sp.bat_buf block).FileOffsetMB ≠ 0)
    (hpart : state = .PARTIALLY_PRESENT → sp.Partial block) : (sp.setState block state).Sound where
  spread := by
    have hrecorded : ∀ i e, (sp.setState block state).Recorded i e →
        sp.Recorded i e ∨ (i = block ∧ e = { sp.bat_buf block with State := state }) := by
      rintro i e (hmem | hrest)
      · by_cases hi : i = block
        · refine Or.inr ⟨hi, ?_⟩
          rw [← hmem]
          exact if_pos hi
        · refine Or.inl (Or.inl ?_)
          rw [← hmem]
          exact (if_neg hi).symm
      · exact Or.inl (Or.inr hrest)
    refine ⟨h.spread.aligned, h.spread.bat_aligned, h.spread.low, ?_, ?_, ?_⟩
    · apply h.spread.placed.mono
      rintro i a ⟨e, he, hea⟩
      rcases hrecorded i e he with he | ⟨rfl, rfl⟩
      · exact ⟨e, he, hea⟩
      · exact ⟨sp.bat_buf i, Or.inl rfl, hea⟩
    · intro i e he hp
      rcases hrecorded i e he with he | ⟨rfl, rfl⟩
      · exact h.spread.present i e he hp
      · exact hpresent hp
    · intro i e he hp
      rcases hrecorded i e he with he | ⟨rfl, rfl⟩
      · exact h.spread.partially i e he hp
      · exact hpart hp
  logged := h.logged
  stored i := by
    rw [setState_offset]
    exact h.stored i
  bitmaps i hi := by
    obtain ⟨hstate, hbuf, hnot⟩ := h.bitmaps i hi
    have hne : i ≠ block := by
      rintro rfl
      exact hnot hpayload
    have heq : (sp.setState block state).bat_buf i = sp.bat_buf i := if_neg hne
    exact ⟨by rw [heq, hstate], hbuf, hnot⟩
  header := ⟨h.header.first, h.header.either⟩
  guids := h.guids
  guid := h.guid

end SetState

section Bitmaps

theorem Sound.addBitmap (h : sp.Sound) {block : Nat} (hstate : (sp.bat_buf block).State = .FULLY_PRESENT)
    (hnot : ¬ sp.IsPayload block) : (sp.addBitmap block).Sound where
  spread := h.spread.mono (fun _ _ he => he) rfl rfl rfl
  logged := h.logged
  stored := h.stored
  bitmaps i hi := by
    rcases VHDXFile.mem_insertPending.mp hi with rfl | hi
    · exact ⟨hstate, if_pos rfl, hnot⟩
    · obtain ⟨hs, hbuf, hn⟩ := h.bitmaps i hi
      refine ⟨hs, ?_, hn⟩
      simp [Space.addBitmap, hbuf]
  header := ⟨h.header.first, h.header.either⟩
  guids := h.guids
  guid := h.guid

theorem Sound.cacheBitmap (h : sp.Sound) (block : Nat) : (sp.cacheBitmap block).Sound where
  spread := h.spread.mono (fun _ _ he => he) rfl rfl rfl
  logged := h.logged
  stored := h.stored
  bitmaps i hi := by
    obtain ⟨hs, hbuf, hn⟩ := h.bitmaps i hi
    refine ⟨hs, ?_, hn⟩
    simp [Space.cacheBitmap, hbuf]
  header := ⟨h.header.first, h.header.either⟩
  guids := h.guids
  guid := h.guid

end Bitmaps

section Header

/-- The header with another `LogGuid`, not yet written. -/
def withLogGuid (sp : Space) (log_guid : Option Nat) : Space :=
  { sp with curr_header := { sp.curr_header with LogGuid := log_guid } }

theorem HeaderCurrent.withLogGuid (h : sp.HeaderCurrent) (log_guid : Option Nat) :
    (sp.withLogGuid log_guid).updateHeader.HeaderCurrent := by
  constructor
  · intro hsecond
    have hfalse : sp.curr_header_second = false := by
      simpa [Space.updateHeader, Space.withLogGuid] using hsecond
    refine ⟨by simp [Space.updateHeader, Space.withLogGuid, hfalse], ?_⟩
    have hle : sp.header2.SequenceNumber ≤ sp.curr_header.SequenceNumber := by
      rcases h.either hfalse with ⟨h1, hle⟩ | ⟨h2, -⟩
      · rwa [h1] at hle
      · rw [h2]
    simp only [Space.updateHeader, Space.withLogGuid, hfalse]
    exact Nat.le_succ_of_le hle
  · intro hsecond
    have htrue : sp.curr_header_second = true := by
      simpa [Space.updateHeader, Space.withLogGuid] using hsecond
    refine Or.inr ⟨by simp [Space.updateHeader, Space.withLogGuid, htrue], ?_⟩
    simp [Space.updateHeader, Space.withLogGuid, htrue, (h.first htrue).1]

theorem HeaderCurrent.updateHeader (h : sp.HeaderCurrent) : sp.updateHeader.HeaderCurrent :=
  h.withLogGuid sp.curr_header.LogGuid

/-- The header that is read is the current one. -/
theorem HeaderCurrent.readHeader (h : sp.HeaderCurrent) :
    (if sp.header2.SequenceNumber > sp.header1.SequenceNumber then sp.header2 else sp.header1) = sp.curr_header := by
  cases hsecond : sp.curr_header_second with
  | true =>
    obtain ⟨h1, hle⟩ := h.first hsecond
    rw [if_neg (Nat.not_lt.mpr hle), h1]
  | false =>
    rcases h.either hsecond with ⟨h1, hle⟩ | ⟨h2, hlt⟩
    · rw [if_neg (Nat.not_lt.mpr hle), h1]
    · rw [if_pos hlt, h2]

theorem Sound.updateHeader (h : sp.Sound) : sp.updateHeader.Sound where
  spread := h.spread.mono (fun _ _ he => he) rfl rfl rfl
  logged := h.logged
  stored := h.stored
  bitmaps := h.bitmaps
  header := h.header.updateHeader
  guids := h.guids
  guid := h.guid

/-- Without a log there is nothing to replay. -/
theorem Spread.endLog (h : sp.Spread) (hstored : ∀ i, (sp.bat_stored i).FileOffsetMB ≤ (sp.bat_buf i).FileOffsetMB)
    (hbitmaps : ∀ i ∈ sp.pending_sector_bitmaps,
      (sp.bat_buf i).State = .FULLY_PRESENT ∧ sp.has_sector_bitmap i = true ∧ ¬ sp.IsPayload i)
    (hheader : sp.HeaderCurrent) (hguids : ∀ pos loge, sp.log pos = some loge → loge.LogGuid < sp.guids) :
    (sp.withLogGuid none).updateHeader.Sound where
  spread := by
    refine h.mono ?_ rfl rfl rfl
    rintro i e (hmem | hstored | ⟨pos, loge, -, hguid, -⟩)
    · exact Or.inl hmem
    · exact Or.inr (Or.inl hstored)
    · cases hguid
  logged := by
    rintro i e ⟨pos, loge, -, hguid, -⟩
    cases hguid
  stored := hstored
  bitmaps := hbitmaps
  header := hheader.withLogGuid none
  guids := hguids
  guid := by
    intro log_guid hguid
    cases hguid

theorem Sound.endLog (h : sp.Sound) : (sp.withLogGuid none).updateHeader.Sound :=
  h.spread.endLog h.stored h.bitmaps h.header h.guids

end Header

end Space

end urbackup.vhdxfile
