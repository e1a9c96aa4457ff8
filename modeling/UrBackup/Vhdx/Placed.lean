import UrBackup.Vhdx.VHDXFile

namespace urbackup.vhdxfile

open filedata

/-- Places handed out to indexes: each place is one index's, and all lie in a
range. -/
structure Placed (seen : Nat → Nat → Prop) (low high : Nat) : Prop where
  own : ∀ i j a, seen i a → seen j a → i = j
  range : ∀ i a, seen i a → low ≤ a ∧ a < high

namespace Placed

variable {seen seen' : Nat → Nat → Prop} {low high : Nat}

theorem mono (h : Placed seen low high) (hsub : ∀ i a, seen' i a → seen i a) : Placed seen' low high where
  own i j a hi hj := h.own i j a (hsub i a hi) (hsub j a hj)
  range i a hi := h.range i a (hsub i a hi)

/-- The next place is given to an index. -/
theorem next (h : Placed seen low high) (hle : low ≤ high) {k : Nat}
    (hsub : ∀ i a, seen' i a → seen i a ∨ (i = k ∧ a = high)) : Placed seen' low (high + 1) where
  own i j a hi hj := by
    rcases hsub i a hi with hi | ⟨rfl, rfl⟩
    · rcases hsub j a hj with hj | ⟨rfl, rfl⟩
      · exact h.own i j a hi hj
      · exact absurd (h.range i _ hi).2 (lt_irrefl _)
    · rcases hsub j _ hj with hj | ⟨rfl, -⟩
      · exact absurd (h.range j _ hj).2 (lt_irrefl _)
      · rfl
  range i a hi := by
    rcases hsub i a hi with hi | ⟨rfl, rfl⟩
    · have := h.range i a hi
      omega
    · omega

end Placed

/-- What the placement of the blocks depends on: the BAT in memory and in the
file, the log, the headers and what is still to be written. -/
@[ext] structure Space where
  dst_size : Nat
  bat_length : Nat
  bat_buf : Nat → VhdxBatEntry
  bat_stored : Nat → VhdxBatEntry
  log : Nat → Option LogEntry
  header1 : VhdxHeader
  header2 : VhdxHeader
  curr_header : VhdxHeader
  curr_header_second : Bool
  guids : Nat
  pending_bat_entries : List Nat
  next_payload_pos : Nat
  pending_sector_bitmaps : List Nat
  has_sector_bitmap : Nat → Bool

namespace Space

variable (sp : Space)

/-- An entry of the current log holds `e` for the index `i`. -/
def Logged (i : Nat) (e : VhdxBatEntry) : Prop :=
  ∃ pos loge, sp.log pos = some loge ∧ sp.curr_header.LogGuid = some loge.LogGuid ∧
    loge.sector = i / sector_entries ∧ loge.entries i = e

/-- The BAT in memory, the one in the file or the log has `e` for the index `i`. -/
def Recorded (i : Nat) (e : VhdxBatEntry) : Prop :=
  sp.bat_buf i = e ∨ sp.bat_stored i = e ∨ sp.Logged i e

/-- The place `a` was given to the index `i` and is still recorded. -/
def Seen (i a : Nat) : Prop :=
  ∃ e, sp.Recorded i e ∧ e.FileOffsetMB = a ∧ a ≠ 0

/-- The index is that of a payload block. -/
def IsPayload (i : Nat) : Prop :=
  ∃ pos, pos < sp.dst_size ∧ getBatEntry pos block_size sector_size = i

/-- No payload block of the disk has the entry of the sector bitmap for `pos`. -/
def BitmapApart (pos : Nat) : Prop :=
  ¬ sp.IsPayload (getSectorBitmapEntry pos block_size sector_size)

/-- What a sector bitmap is kept for is a block of its own. -/
def Partial (i : Nat) : Prop :=
  ∀ pos, pos < sp.dst_size → getBatEntry pos block_size sector_size = i → sp.BitmapApart pos

/-- The header the next open reads is the current one. -/
structure HeaderCurrent : Prop where
  first : sp.curr_header_second = true → sp.header1 = sp.curr_header ∧
    sp.header2.SequenceNumber ≤ sp.header1.SequenceNumber
  either : sp.curr_header_second = false →
    (sp.header1 = sp.curr_header ∧ sp.header2.SequenceNumber ≤ sp.header1.SequenceNumber) ∨
      (sp.header2 = sp.curr_header ∧ sp.header1.SequenceNumber < sp.header2.SequenceNumber)

/-- The places of the blocks that are recorded anywhere. -/
structure Spread : Prop where
  aligned : sp.next_payload_pos % (1024 * 1024) = 0
  bat_aligned : sp.bat_length % (1024 * 1024) = 0
  low : bat_table_offset + sp.bat_length ≤ sp.next_payload_pos
  placed : Placed sp.Seen ((bat_table_offset + sp.bat_length) / (1024 * 1024)) (sp.next_payload_pos / (1024 * 1024))
  present : ∀ i e, sp.Recorded i e → e.IsPresent → e.FileOffsetMB ≠ 0
  partially : ∀ i e, sp.Recorded i e → e.State = .PARTIALLY_PRESENT → sp.Partial i

/-- What every call keeps. -/
structure Sound : Prop where
  spread : sp.Spread
  logged : ∀ i e, sp.Logged i e → e.FileOffsetMB ≤ (sp.bat_stored i).FileOffsetMB
  stored : ∀ i, (sp.bat_stored i).FileOffsetMB ≤ (sp.bat_buf i).FileOffsetMB
  bitmaps : ∀ i ∈ sp.pending_sector_bitmaps,
    (sp.bat_buf i).State = .FULLY_PRESENT ∧ sp.has_sector_bitmap i = true ∧ ¬ sp.IsPayload i
  header : sp.HeaderCurrent
  guids : ∀ pos loge, sp.log pos = some loge → loge.LogGuid < sp.guids
  guid : ∀ log_guid, sp.curr_header.LogGuid = some log_guid → log_guid < sp.guids

section Moves

/-- The next place goes to an entry. -/
def place (block : Nat) : Space :=
  { sp with
    bat_buf := fun i => if i = block then ⟨.FULLY_PRESENT, sp.next_payload_pos / (1024 * 1024)⟩ else sp.bat_buf i
    pending_bat_entries := VHDXFile.insertPending block sp.pending_bat_entries
    next_payload_pos := sp.next_payload_pos + block_size }

def setState (block : Nat) (state : BlockState) : Space :=
  { sp with bat_buf := fun i => if i = block then { sp.bat_buf block with State := state } else sp.bat_buf i }

def addBitmap (block : Nat) : Space :=
  { sp with
    has_sector_bitmap := fun i => if i = block then true else sp.has_sector_bitmap i
    pending_sector_bitmaps := VHDXFile.insertPending block sp.pending_sector_bitmaps }

def cacheBitmap (block : Nat) : Space :=
  { sp with has_sector_bitmap := fun i => if i = block then true else sp.has_sector_bitmap i }

def updateHeader : Space :=
  let curr_header := { sp.curr_header with SequenceNumber := sp.curr_header.SequenceNumber + 1 }
  { sp with
    curr_header := curr_header
    header1 := if sp.curr_header_second then sp.header1 else curr_header
    header2 := if sp.curr_header_second then curr_header else sp.header2
    curr_header_second := !sp.curr_header_second }

end Moves

end Space

namespace VHDXFile

def space (s : VHDXFile) : Space where
  dst_size := s.dst_size
  bat_length := s.bat_length
  bat_buf := s.bat_buf
  bat_stored := s.content.bat
  log := s.content.log
  header1 := s.content.header1
  header2 := s.content.header2
  curr_header := s.curr_header
  curr_header_second := s.curr_header_second
  guids := s.guids
  pending_bat_entries := s.pending_bat_entries
  next_payload_pos := s.next_payload_pos
  pending_sector_bitmaps := s.pending_sector_bitmaps
  has_sector_bitmap := fun i => (s.sector_bitmap_bufs i).isSome

section Content

variable (s : VHDXFile)

@[simp] theorem content_fileWrite (w : FileWrite) : (s.fileWrite w).content = w.apply s.content :=
  Event.content_write _ _ _ _

@[simp] theorem content_fileSync : s.fileSync.content = s.content :=
  Event.content_sync _ _ _

theorem content_updateHeader : s.updateHeader.content =
    FileWrite.apply (.header s.curr_header_second { s.curr_header with SequenceNumber := s.curr_header.SequenceNumber + 1 })
      s.content := by
  change Event.content _ _ (s.events ++ [.write _] ++ [.sync]) = _
  rw [Event.content_sync, Event.content_write]
  rfl

end Content

section Space

variable (s : VHDXFile)

theorem mem_insertPending {n i : Nat} {pending : List Nat} :
    i ∈ insertPending n pending ↔ i = n ∨ i ∈ pending := by
  unfold insertPending
  split
  · next h =>
    constructor
    · exact Or.inr
    · rintro (rfl | hi)
      · exact h
      · exact hi
  · exact List.mem_orderedInsert _

theorem space_data (pos size : Nat) (bytes : Buffer) : (s.fileWrite (.data pos size bytes)).space = s.space := by
  unfold space
  rw [content_fileWrite]
  rfl

theorem space_fileSync : s.fileSync.space = s.space := by
  unfold space
  rw [content_fileSync]
  rfl

theorem space_resize (resizeOk : Nat → Bool) (size : Nat) : (s.resize resizeOk size).2.space = s.space := by
  unfold resize
  split
  · change (s.fileWrite (.resize size)).space = s.space
    unfold space
    rw [content_fileWrite]
    rfl
  · rfl

theorem space_updateHeader : s.updateHeader.space = s.space.updateHeader := by
  unfold space
  rw [content_updateHeader]
  cases hsecond : s.curr_header_second with
  | true => simp [updateHeader, Space.updateHeader, FileWrite.apply, fileSync, fileWrite, hsecond]
  | false => simp [updateHeader, Space.updateHeader, FileWrite.apply, fileSync, fileWrite, hsecond]

end Space

end VHDXFile

end urbackup.vhdxfile
