import UrBackup.Vhdx.Blocks

namespace urbackup.vhdxfile

open filedata

namespace Space

/-- Only log entries for some sectors are added, with the BAT as it is in memory. -/
structure LogsOnly (sectors : Nat → Prop) (sp sp' : Space) : Prop where
  dst_size : sp'.dst_size = sp.dst_size
  bat_length : sp'.bat_length = sp.bat_length
  bat_buf : sp'.bat_buf = sp.bat_buf
  bat_stored : sp'.bat_stored = sp.bat_stored
  pending_bat_entries : sp'.pending_bat_entries = sp.pending_bat_entries
  next_payload_pos : sp'.next_payload_pos = sp.next_payload_pos
  pending_sector_bitmaps : sp'.pending_sector_bitmaps = sp.pending_sector_bitmaps
  has_sector_bitmap : sp'.has_sector_bitmap = sp.has_sector_bitmap
  logged : (∀ pos loge, sp.log pos = some loge → loge.LogGuid < sp.guids) → ∀ i e, sp'.Logged i e →
    sp.Logged i e ∨ (sectors (i / sector_entries) ∧ e = sp.bat_buf i)
  header : sp.HeaderCurrent → sp'.HeaderCurrent
  guids : (∀ pos loge, sp.log pos = some loge → loge.LogGuid < sp.guids) →
    (∀ log_guid, sp.curr_header.LogGuid = some log_guid → log_guid < sp.guids) →
    (∀ pos loge, sp'.log pos = some loge → loge.LogGuid < sp'.guids) ∧
      ∀ log_guid, sp'.curr_header.LogGuid = some log_guid → log_guid < sp'.guids

namespace LogsOnly

variable {sectors sectors' : Nat → Prop} {sp sp' sp'' : Space}

theorem refl (sectors : Nat → Prop) (sp : Space) : LogsOnly sectors sp sp where
  dst_size := rfl
  bat_length := rfl
  bat_buf := rfl
  bat_stored := rfl
  pending_bat_entries := rfl
  next_payload_pos := rfl
  pending_sector_bitmaps := rfl
  has_sector_bitmap := rfl
  logged _ _ _ h := Or.inl h
  header := id
  guids h h' := ⟨h, h'⟩

theorem trans (hguid : ∀ log_guid, sp.curr_header.LogGuid = some log_guid → log_guid < sp.guids)
    (h : LogsOnly sectors sp sp') (h' : LogsOnly sectors sp' sp'') : LogsOnly sectors sp sp'' where
  dst_size := h'.dst_size.trans h.dst_size
  bat_length := h'.bat_length.trans h.bat_length
  bat_buf := h'.bat_buf.trans h.bat_buf
  bat_stored := h'.bat_stored.trans h.bat_stored
  pending_bat_entries := h'.pending_bat_entries.trans h.pending_bat_entries
  next_payload_pos := h'.next_payload_pos.trans h.next_payload_pos
  pending_sector_bitmaps := h'.pending_sector_bitmaps.trans h.pending_sector_bitmaps
  has_sector_bitmap := h'.has_sector_bitmap.trans h.has_sector_bitmap
  logged hg i e he := by
    rcases h'.logged (h.guids hg hguid).1 i e he with he | ⟨hsector, rfl⟩
    · exact h.logged hg i e he
    · exact Or.inr ⟨hsector, by rw [h.bat_buf]⟩
  header hh := h'.header (h.header hh)
  guids hg hg' := h'.guids (h.guids hg hg').1 (h.guids hg hg').2

theorem mono (h : LogsOnly sectors sp sp') (hsub : ∀ sector, sectors sector → sectors' sector) :
    LogsOnly sectors' sp sp' :=
  { h with
    logged := fun hg i e he => (h.logged hg i e he).imp id fun ⟨hsector, heq⟩ => ⟨hsub _ hsector, heq⟩ }

end LogsOnly

end Space

namespace VHDXFile

variable {s : VHDXFile}

section Bitmaps

/-- The pending sector bitmaps are written where each has its entry and its buffer. -/
theorem syncBitmaps_ok {l : List Nat}
    (hl : ∀ i ∈ l, (s.bat_buf i).State = .FULLY_PRESENT ∧ (s.sector_bitmap_bufs i).isSome = true) :
    ∃ t, s.syncBitmaps l = (true, t) ∧ SameImage s t ∧ t.space = { s.space with pending_sector_bitmaps := [] } ∧
      t.finished = s.finished ∧ t.fast_mode = s.fast_mode := by
  induction l generalizing s with
  | nil => exact ⟨_, rfl, ⟨rfl, rfl, rfl⟩, rfl, rfl, rfl⟩
  | cons i l ih =>
    obtain ⟨hstate, hbuf⟩ := hl i List.mem_cons_self
    obtain ⟨buf, hbuf⟩ := Option.isSome_iff_exists.mp hbuf
    rw [syncBitmaps]
    dsimp only
    rw [if_neg (not_not.mpr hstate), hbuf]
    obtain ⟨t, ht, hsame, hspace, hfinished, hfast⟩ := ih
      (s := s.fileWrite (.data (s.bat_buf i).fileOffset block_size buf)) fun j hj => hl j (List.mem_cons_of_mem i hj)
    refine ⟨t, ht, ⟨hsame.parent, hsame.dst_size, hsame.bat_length⟩, ?_, hfinished, hfast⟩
    rw [hspace, space_data]

end Bitmaps

section Log

/-- The sectors of these entries. -/
def sectorsOf (l : List Nat) (sector : Nat) : Bool :=
  l.any fun j => j * 8 / log_sector_size == sector

theorem sectorsOf_cons (j : Nat) (l : List Nat) (sector : Nat) :
    sectorsOf (j :: l) sector = true ↔ j * 8 / log_sector_size = sector ∨ sectorsOf l sector = true := by
  simp [sectorsOf]

theorem sectorsOf_cons_ne {j sector : Nat} {l : List Nat} (h : j * 8 / log_sector_size ≠ sector) :
    sectorsOf (j :: l) sector = sectorsOf l sector := by
  simp [sectorsOf, h]

theorem startLog_logs (s : VHDXFile) : Space.LogsOnly (fun _ => False) s.space s.startLog.space ∧
    SameImage s s.startLog ∧ s.startLog.curr_header.LogGuid.isSome = true ∧ s.startLog.finished = s.finished ∧
    s.startLog.fast_mode = s.fast_mode := by
  unfold startLog
  split
  · next log_guid hguid =>
    exact ⟨Space.LogsOnly.refl _ _, SameImage.refl s, by rw [hguid]; rfl, rfl, rfl⟩
  · next hguid =>
    refine ⟨?_, ⟨rfl, rfl, rfl⟩, rfl, rfl, rfl⟩
    rw [space_updateHeader]
    refine ⟨rfl, rfl, rfl, rfl, rfl, rfl, rfl, rfl, ?_, ?_, ?_⟩
    · -- no entry of the log has the new guid
      rintro hg i e ⟨pos, loge, hlog, hloge, -⟩
      have hlt := hg pos loge hlog
      have heq : s.guids = loge.LogGuid := Option.some.inj hloge
      rw [← heq] at hlt
      exact absurd hlt (lt_irrefl _)
    · intro hh
      have hnew := hh.withLogGuid (some s.guids)
      exact ⟨hnew.first, hnew.either⟩
    · intro hg hg'
      constructor
      · intro pos loge hlog
        exact Nat.lt_succ_of_lt (hg pos loge hlog)
      · intro log_guid heq
        have heq' : s.guids = log_guid := Option.some.inj heq
        rw [← heq']
        exact Nat.lt_succ_self _

theorem space_appendLog (sector : Nat) : (s.appendLog sector).space =
    { s.space with log := fun p => if p = s.log_pos then some (s.logEntry sector) else s.content.log p } := by
  have hcontent : (s.appendLog sector).content = (s.fileWrite (.log s.log_pos (s.logEntry sector))).content := rfl
  unfold space
  rw [hcontent, content_fileWrite]
  rfl

theorem appendLog_logs {log_guid : Nat} (hguid : s.curr_header.LogGuid = some log_guid) (sector : Nat) :
    Space.LogsOnly (fun sector' => sector' = sector) s.space (s.appendLog sector).space := by
  have hentry : (s.logEntry sector).LogGuid = log_guid := by simp [logEntry, hguid]
  rw [space_appendLog]
  refine ⟨rfl, rfl, rfl, rfl, rfl, rfl, rfl, rfl, ?_, (fun hh => ⟨hh.first, hh.either⟩), ?_⟩
  · rintro - i e ⟨pos, loge, hlog, hloge, hsector, he⟩
    dsimp only at hlog
    split at hlog
    · cases hlog
      exact Or.inr ⟨hsector.symm, he.symm⟩
    · exact Or.inl ⟨pos, loge, hlog, hloge, hsector, he⟩
  · intro hg hg'
    refine ⟨?_, hg'⟩
    intro pos loge hlog
    dsimp only at hlog
    split at hlog
    · cases hlog
      rw [hentry]
      exact hg' log_guid hguid
    · exact hg pos loge hlog

theorem logWrite_logs (hguid : ∀ log_guid, s.curr_header.LogGuid = some log_guid → log_guid < s.guids) (sector : Nat) :
    Space.LogsOnly (fun sector' => sector' = sector) s.space (s.logWrite sector).2.space ∧
      SameImage s (s.logWrite sector).2 ∧ (s.logWrite sector).2.finished = s.finished ∧
      (s.logWrite sector).2.fast_mode = s.fast_mode := by
  obtain ⟨hlogs, hsame, hsome, hfinished, hfast⟩ := startLog_logs s
  have hlogs' : Space.LogsOnly (fun sector' => sector' = sector) s.space s.startLog.space :=
    hlogs.mono fun _ h => h.elim
  unfold logWrite
  dsimp only
  split
  · exact ⟨hlogs', hsame, hfinished, hfast⟩
  · obtain ⟨log_guid, hstart⟩ := Option.isSome_iff_exists.mp hsome
    refine ⟨hlogs'.trans hguid (appendLog_logs hstart sector), ⟨hsame.parent, hsame.dst_size, hsame.bat_length⟩, ?_, ?_⟩
    · exact hfinished
    · exact hfast

theorem logPending_logs (hg : ∀ pos loge, s.content.log pos = some loge → loge.LogGuid < s.guids)
    (hguid : ∀ log_guid, s.curr_header.LogGuid = some log_guid → log_guid < s.guids) (b_idx : Option Nat) (l : List Nat) :
    Space.LogsOnly (fun sector => sectorsOf l sector = true) s.space (logPending b_idx l s).2.space ∧
      SameImage s (logPending b_idx l s).2 ∧ (logPending b_idx l s).2.finished = s.finished ∧
      (logPending b_idx l s).2.fast_mode = s.fast_mode := by
  induction l generalizing s b_idx with
  | nil =>
    rw [logPending]
    exact ⟨Space.LogsOnly.refl _ s.space, SameImage.refl s, rfl, rfl⟩
  | cons j l ih =>
    have hmore : ∀ sector, sectorsOf l sector = true → sectorsOf (j :: l) sector = true := fun sector h =>
      (sectorsOf_cons j l sector).mpr (Or.inr h)
    rw [logPending]
    split
    · obtain ⟨hlogs, hrest⟩ := ih hg hguid b_idx
      exact ⟨hlogs.mono hmore, hrest⟩
    · obtain ⟨hlogs, hsame, hfinished, hfast⟩ := logWrite_logs hguid (j * 8 / log_sector_size)
      have hlogs' : Space.LogsOnly (fun sector => sectorsOf (j :: l) sector = true) s.space
          (s.logWrite (j * 8 / log_sector_size)).2.space :=
        hlogs.mono fun sector h => (sectorsOf_cons j l sector).mpr (Or.inl h.symm)
      split
      · next t hout =>
        rw [hout] at hlogs' hsame hfinished hfast
        obtain ⟨hg', hguid'⟩ := hlogs'.guids hg hguid
        obtain ⟨hrest, hsame', hfinished', hfast'⟩ := ih (s := t) hg' hguid' (some (j * 8 / log_sector_size))
        exact ⟨hlogs'.trans hguid (hrest.mono hmore), hsame.trans hsame', hfinished'.trans hfinished, hfast'.trans hfast⟩
      · next t hout =>
        rw [hout] at hlogs' hsame hfinished hfast
        exact ⟨hlogs', hsame, hfinished, hfast⟩

end Log

section Bat

theorem space_bat (sector : Nat) : (s.fileWrite (.bat sector s.bat_buf)).space =
    { s.space with
      bat_stored := fun i => if i / sector_entries = sector then s.bat_buf i else s.content.bat i } := by
  unfold space
  rw [content_fileWrite]
  rfl

/-- The sectors of the BAT that are written are as they are in memory. -/
theorem writePending_space (stop_idx b_idx : Option Nat) (l : List Nat) (s : VHDXFile) :
    ∃ stored, (writePending stop_idx b_idx l s).space =
        { s.space with
          bat_stored := stored
          pending_bat_entries := (writePending stop_idx b_idx l s).pending_bat_entries } ∧
      (∀ i, stored i = s.content.bat i ∨ stored i = s.bat_buf i) ∧ SameImage s (writePending stop_idx b_idx l s) ∧
      (writePending stop_idx b_idx l s).finished = s.finished ∧
      (writePending stop_idx b_idx l s).fast_mode = s.fast_mode := by
  induction l generalizing s b_idx with
  | nil => exact ⟨s.content.bat, rfl, fun _ => Or.inl rfl, ⟨rfl, rfl, rfl⟩, rfl, rfl⟩
  | cons j l ih =>
    rw [writePending]
    split
    · exact ⟨s.content.bat, rfl, fun _ => Or.inl rfl, ⟨rfl, rfl, rfl⟩, rfl, rfl⟩
    · dsimp only
      split
      · exact ih b_idx s
      · obtain ⟨stored, hspace, hstored, hsame, hfinished, hfast⟩ := ih (some (j * 8 / log_sector_size))
          (s.fileWrite (.bat (j * 8 / log_sector_size) s.bat_buf))
        refine ⟨stored, ?_, ?_, ⟨hsame.parent, hsame.dst_size, hsame.bat_length⟩, hfinished, hfast⟩
        · rw [hspace, space_bat]
        · intro i
          rcases hstored i with h | h
          · rw [content_fileWrite] at h
            have hbat : stored i = if i / sector_entries = j * 8 / log_sector_size then s.bat_buf i else s.content.bat i := h
            rw [hbat]
            split
            · exact Or.inr rfl
            · exact Or.inl rfl
          · exact Or.inr h

theorem pending_writePending_none (b_idx : Option Nat) (l : List Nat) (s : VHDXFile) :
    (writePending none b_idx l s).pending_bat_entries = [] := by
  induction l generalizing s b_idx with
  | nil => rfl
  | cons j l ih =>
    rw [writePending, if_neg (by simp)]
    dsimp only
    split
    · exact ih b_idx s
    · exact ih _ _

/-- With nothing to stop at, the sectors of the pending entries are written, and no
others. -/
theorem bat_writePending_none {b_idx : Option Nat} {l : List Nat} {s : VHDXFile} {i : Nat}
    (hb : b_idx = some (i / sector_entries) → s.content.bat i = s.bat_buf i) :
    (writePending none b_idx l s).content.bat i =
      if sectorsOf l (i / sector_entries) then s.bat_buf i else s.content.bat i := by
  induction l generalizing s b_idx with
  | nil => rfl
  | cons j l ih =>
    rw [writePending, if_neg (by simp)]
    dsimp only
    split
    · next hsame =>
      rw [ih hb]
      by_cases hj : j * 8 / log_sector_size = i / sector_entries
      · have hstored := hb (hsame.trans (congrArg some hj))
        rw [if_pos ((sectorsOf_cons j l _).mpr (Or.inl hj))]
        split
        · rfl
        · exact hstored
      · rw [sectorsOf_cons_ne hj]
    · have hbat : (s.fileWrite (.bat (j * 8 / log_sector_size) s.bat_buf)).content.bat i =
          if i / sector_entries = j * 8 / log_sector_size then s.bat_buf i else s.content.bat i := by
        rw [content_fileWrite]
        rfl
      rw [ih (s := s.fileWrite (.bat (j * 8 / log_sector_size) s.bat_buf)) fun h =>
        hbat.trans (if_pos (Option.some.inj h).symm), hbat]
      by_cases hj : j * 8 / log_sector_size = i / sector_entries
      · rw [if_pos hj.symm, if_pos ((sectorsOf_cons j l _).mpr (Or.inl hj))]
        split
        · rfl
        · rfl
      · rw [if_neg (Ne.symm hj), sectorsOf_cons_ne hj]
        rfl

end Bat

section Sync

theorem flushSize_same (s : VHDXFile) : s.flushSize.space = s.space ∧ SameImage s s.flushSize ∧
    s.flushSize.finished = s.finished ∧ s.flushSize.fast_mode = s.fast_mode := by
  unfold flushSize
  split
  · exact ⟨space_fileSync s, ⟨rfl, rfl, rfl⟩, rfl, rfl⟩
  · exact ⟨rfl, SameImage.refl s, rfl, rfl⟩

/-- Log entries first and the BAT after them: what is recorded was recorded before. -/
theorem recorded_logged_written {sp sp' : Space} {stored : Nat → VhdxBatEntry} (pending : List Nat) {sectors : Nat → Prop}
    (hs : sp.Sound) (hlogs : Space.LogsOnly sectors sp sp')
    (hstored : ∀ i, stored i = sp'.bat_stored i ∨ stored i = sp'.bat_buf i) {i : Nat} {e : VhdxBatEntry}
    (he : Space.Recorded { sp' with bat_stored := stored, pending_bat_entries := pending } i e) : sp.Recorded i e := by
  rcases he with hmem | hst | hlog
  · exact Or.inl (by rw [← hlogs.bat_buf]; exact hmem)
  · rcases hstored i with h | h
    · refine Or.inr (Or.inl ?_)
      rw [← hlogs.bat_stored, ← h]
      exact hst
    · refine Or.inl ?_
      rw [← hlogs.bat_buf, ← h]
      exact hst
  · rcases hlogs.logged hs.guids i e hlog with h | ⟨-, h⟩
    · exact Or.inr (Or.inr h)
    · exact Or.inl h.symm

theorem sound_logged_written {sp sp' : Space} {stored : Nat → VhdxBatEntry} {sectors : Nat → Prop}
    (hs : sp.Sound) (hlogs : Space.LogsOnly sectors sp sp')
    (hstored : ∀ i, stored i = sp'.bat_stored i ∨ stored i = sp'.bat_buf i)
    (hwritten : ∀ i, sectors (i / sector_entries) → stored i = sp'.bat_buf i) :
    Space.Sound { sp' with bat_stored := stored, pending_bat_entries := [] } where
  spread := by
    refine hs.spread.mono ?_ hlogs.dst_size hlogs.bat_length hlogs.next_payload_pos
    intro i e he
    exact recorded_logged_written [] hs hlogs hstored he
  logged i e he := by
    have hold : (sp.bat_stored i).FileOffsetMB ≤ (stored i).FileOffsetMB := by
      rcases hstored i with h | h
      · rw [h, hlogs.bat_stored]
      · rw [h, hlogs.bat_buf]
        exact hs.stored i
    rcases hlogs.logged hs.guids i e he with h | ⟨hsector, rfl⟩
    · exact (hs.logged i e h).trans hold
    · change _ ≤ (stored i).FileOffsetMB
      rw [hwritten i hsector, hlogs.bat_buf]
  stored i := by
    change (stored i).FileOffsetMB ≤ (sp'.bat_buf i).FileOffsetMB
    rcases hstored i with h | h
    · rw [h, hlogs.bat_stored, hlogs.bat_buf]
      exact hs.stored i
    · rw [h]
  bitmaps i hi := by
    have hmem : i ∈ sp.pending_sector_bitmaps := by
      rw [← hlogs.pending_sector_bitmaps]
      exact hi
    obtain ⟨hstate, hbuf, hnot⟩ := hs.bitmaps i hmem
    refine ⟨?_, ?_, ?_⟩
    · change (sp'.bat_buf i).State = _
      rw [hlogs.bat_buf]
      exact hstate
    · change sp'.has_sector_bitmap i = true
      rw [hlogs.has_sector_bitmap]
      exact hbuf
    · unfold Space.IsPayload
      change ¬ ∃ pos, pos < sp'.dst_size ∧ _
      rw [hlogs.dst_size]
      exact hnot
  header := by
    have := hlogs.header hs.header
    exact ⟨this.first, this.either⟩
  guids := (hlogs.guids hs.guids hs.guid).1
  guid := (hlogs.guids hs.guids hs.guid).2

/-- How a call on an image in order ends: within its memory, with the places in
order, and if it returns with everything in order. -/
structure Ends {α : Type} (s : VHDXFile) (out : Call α × VHDXFile) : Prop where
  defined : out.1 ≠ .undefined
  same : SameImage s out.2
  spread : out.2.space.Spread
  sound : ∀ a, out.1 = .returns a → out.2.space.Sound

theorem Keeps.ends {α : Type} {out : Call α × VHDXFile} (h : Keeps s out.2) (hs : s.space.Sound)
    (hdef : out.1 ≠ .undefined) : Ends s out :=
  ⟨hdef, h.same, (h.sound hs).spread, fun _ _ => h.sound hs⟩

/-- The BAT of the file once the pending sectors are written. -/
def batAfterSync (s : VHDXFile) (i : Nat) : VhdxBatEntry :=
  if sectorsOf s.pending_bat_entries (i / sector_entries) then s.bat_buf i else s.content.bat i

theorem batAfterSync_congr {t : VHDXFile} (hpending : t.pending_bat_entries = s.pending_bat_entries) (hbuf : t.bat_buf = s.bat_buf)
    (hbat : t.content.bat = s.content.bat) : t.batAfterSync = s.batAfterSync := by
  funext i
  rw [batAfterSync, batAfterSync, hpending, hbuf, hbat]

/-- All pending sectors are written after they were logged, or without a log. -/
theorem writePending_sound {t : VHDXFile} (hs : s.space.Sound)
    (hlogs : Space.LogsOnly (fun sector => sectorsOf s.pending_bat_entries sector = true) s.space t.space) :
    (writePending none none t.pending_bat_entries t).space.Sound ∧
      (writePending none none t.pending_bat_entries t).content.bat = s.batAfterSync := by
  have hpending : t.pending_bat_entries = s.pending_bat_entries := hlogs.pending_bat_entries
  have hbuf : t.bat_buf = s.bat_buf := hlogs.bat_buf
  have hbat : ∀ i, (writePending none none t.pending_bat_entries t).content.bat i = s.batAfterSync i := by
    intro i
    have hstored : t.content.bat = s.content.bat := hlogs.bat_stored
    have hnone : (none : Option Nat) = some (i / sector_entries) → t.content.bat i = t.bat_buf i := fun h => nomatch h
    rw [bat_writePending_none hnone, hpending, hbuf, hstored]
    rfl
  obtain ⟨stored, hspace, hstored, -⟩ := writePending_space none none t.pending_bat_entries t
  rw [pending_writePending_none] at hspace
  refine ⟨?_, funext hbat⟩
  rw [hspace]
  apply sound_logged_written hs hlogs hstored
  intro i hi
  have heq : stored i = (writePending none none t.pending_bat_entries t).content.bat i :=
    (congrFun (congrArg Space.bat_stored hspace) i).symm
  rw [heq, hbat]
  change s.batAfterSync i = t.bat_buf i
  rw [hbuf]
  exact if_pos hi

theorem syncBat_ends (hs : s.space.Sound) : Ends s s.syncBat ∧ s.syncBat.2.finished = s.finished ∧
    s.syncBat.2.fast_mode = s.fast_mode ∧
    (∀ a, s.syncBat.1 = .returns a → a = true ∧ s.syncBat.2.content.bat = s.batAfterSync) := by
  unfold syncBat
  split
  · obtain ⟨stored, -, -, hsame, hfinished, hfast⟩ := writePending_space none none s.pending_bat_entries s
    obtain ⟨hsound, hflushed⟩ := writePending_sound hs (Space.LogsOnly.refl _ _)
    rw [← space_fileSync] at hsound
    refine ⟨⟨(fun h => nomatch h), ⟨hsame.parent, hsame.dst_size, hsame.bat_length⟩, hsound.spread, fun _ _ => hsound⟩,
      hfinished, hfast, ?_⟩
    intro a ha
    cases ha
    rw [content_fileSync]
    exact ⟨rfl, hflushed⟩
  · obtain ⟨hspace₀, hsame₀, hfinished₀, hfast₀⟩ := flushSize_same s
    obtain ⟨t, ht⟩ : ∃ t, t = s.flushSize := ⟨_, rfl⟩
    dsimp only
    rw [← ht] at hspace₀ hsame₀ hfinished₀ hfast₀ ⊢
    have hst : t.space.Sound := by
      rw [hspace₀]
      exact hs
    obtain ⟨hlogs, hsame₁, hfinished₁, hfast₁⟩ := logPending_logs hst.guids hst.guid none t.pending_bat_entries
    rcases hout : t.logPending none t.pending_bat_entries with ⟨stop_idx, u⟩
    rw [hout] at hlogs hsame₁ hfinished₁ hfast₁
    have hlogs' : Space.LogsOnly (fun sector => sectorsOf t.pending_bat_entries sector = true) t.space
        u.fileSync.space := by
      rw [space_fileSync]
      exact hlogs
    have hafter : t.batAfterSync = s.batAfterSync :=
      batAfterSync_congr (congrArg Space.pending_bat_entries hspace₀) (congrArg Space.bat_buf hspace₀)
        (congrArg Space.bat_stored hspace₀)
    obtain ⟨stored, hspace₂, hstored, hsame₂, hfinished₂, hfast₂⟩ :=
      writePending_space stop_idx none u.pending_bat_entries u.fileSync
    have hsame : SameImage s (writePending stop_idx none u.pending_bat_entries u.fileSync) :=
      (hsame₀.trans hsame₁).trans ⟨hsame₂.parent, hsame₂.dst_size, hsame₂.bat_length⟩
    have hspread : (writePending stop_idx none u.pending_bat_entries u.fileSync).space.Spread := by
      rw [hspace₂]
      refine hst.spread.mono ?_ hlogs'.dst_size hlogs'.bat_length hlogs'.next_payload_pos
      intro i e he
      exact recorded_logged_written _ hst hlogs' hstored he
    cases stop_idx with
    | none =>
      obtain ⟨hsound, hflushed⟩ := writePending_sound hst hlogs'
      refine ⟨⟨(fun h => nomatch h), hsame, hspread, fun _ _ => hsound⟩, ?_, ?_, ?_⟩
      · exact (hfinished₂.trans hfinished₁).trans hfinished₀
      · exact (hfast₂.trans hfast₁).trans hfast₀
      · intro a ha
        cases ha
        exact ⟨rfl, hflushed.trans hafter⟩
    | some stop =>
      refine ⟨⟨(fun h => nomatch h), hsame, hspread, fun _ h => nomatch h⟩, ?_, ?_, fun _ h => nomatch h⟩
      · exact (hfinished₂.trans hfinished₁).trans hfinished₀
      · exact (hfast₂.trans hfast₁).trans hfast₀

theorem endLog_sound (hs : s.space.Sound) : s.endLog.space.Sound := by
  unfold endLog
  rw [space_updateHeader]
  exact hs.endLog

theorem bat_endLog (s : VHDXFile) : s.endLog.content.bat = s.content.bat := by
  unfold VHDXFile.endLog
  rw [content_updateHeader]
  unfold FileWrite.apply
  dsimp only
  split
  · rfl
  · rfl

theorem syncInt_ends (hs : s.space.Sound) (full : Bool) : Ends s (s.syncInt full) ∧
    (s.syncInt full).2.finished = s.finished ∧
    (∀ a, (s.syncInt full).1 = .returns a → (s.syncInt full).2.content.bat = s.batAfterSync) := by
  obtain ⟨t, hbitmaps, hsame₀, hspace₀, hfinished₀, -⟩ := syncBitmaps_ok (l := s.pending_sector_bitmaps) fun i hi =>
    ⟨(hs.bitmaps i hi).1, (hs.bitmaps i hi).2.1⟩
  have hst : t.space.Sound := by
    rw [hspace₀]
    exact { hs with
      spread := hs.spread.mono (fun _ _ he => he) rfl rfl rfl
      bitmaps := fun i hi => absurd hi List.not_mem_nil
      header := ⟨hs.header.first, hs.header.either⟩ }
  obtain ⟨hends, hfinished₁, -, hflushed⟩ := syncBat_ends hst
  have hafter : t.batAfterSync = s.batAfterSync :=
    batAfterSync_congr (congrArg Space.pending_bat_entries hspace₀) (congrArg Space.bat_buf hspace₀)
      (congrArg Space.bat_stored hspace₀)
  rw [hafter] at hflushed
  unfold syncInt
  rw [hbitmaps]
  dsimp only
  split
  · next u hout =>
    rw [hout] at hends hfinished₁ hflushed
    have hsound := hends.sound true rfl
    have hsame := hsame₀.trans hends.same
    split
    · have hend : u.fileSync.endLog.space.Sound := endLog_sound (by rw [space_fileSync]; exact hsound)
      refine ⟨⟨(fun h => nomatch h), ⟨hsame.parent, hsame.dst_size, hsame.bat_length⟩, hend.spread, fun _ _ => hend⟩,
        hfinished₁.trans hfinished₀, fun _ _ => ?_⟩
      rw [bat_endLog, content_fileSync]
      exact (hflushed true rfl).2
    · exact ⟨⟨(fun h => nomatch h), hsame, hsound.spread, fun _ _ => hsound⟩, hfinished₁.trans hfinished₀,
        fun _ _ => (hflushed true rfl).2⟩
  · next hnot =>
    refine ⟨⟨hends.defined, hsame₀.trans hends.same, hends.spread, hends.sound⟩, hfinished₁.trans hfinished₀, ?_⟩
    intro a ha
    exact (hflushed a ha).2

end Sync

end VHDXFile

end urbackup.vhdxfile
