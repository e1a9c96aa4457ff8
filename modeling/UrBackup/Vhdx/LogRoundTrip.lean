import UrBackup.Vhdx.LogEntry
import UrBackup.Vhdx.TornHeader

namespace urbackup.vhdxlog

open stringtools filedata vhdxheader

variable (s : LogFile) (off : Int64) (buf : Bytes) (new_dst_size : Int64) (guid : VhdxGUID)

/-- The sectors of a buffer with their offsets. -/
def sectorsOf : List LogData :=
  (pieces log_sector_size buf).mapIdx fun i data => ⟨off + Int64.ofNat (i * log_sector_size), data⟩

/-- The entry is written within its buffer, and it is read back as a valid one with
the sectors. -/
def WritesBack : Prop :=
  ∃ (s' : LogFile) (loge : LogEntry), logWrite s off buf new_dst_size guid = some (true, false, s') ∧
    readLogEntry s'.file s'.curr_header.LogGuid (s'.curr_header.LogOffset + (s.startLog guid).log_pos) = some loge ∧
    loge.sequence_number ≠ -1 ∧ loge.to_zero = [] ∧ loge.to_write = sectorsOf off buf

/-- The log is not full. -/
def HasRoom : Prop :=
  (s.startLog guid).log_pos + (log_sector_size + buf.length) ≤ (s.startLog guid).curr_header.LogLength

section Numbers

theorem roundUp_mul (n : Nat) : roundUp (n * log_sector_size) log_sector_size = n * log_sector_size := by
  simp only [roundUp, log_sector_size]
  omega

@[simp] theorem length_int64Bytes (n : Int64) : (int64Bytes n).length = 8 :=
  length_leBytes 8 _

theorem getInt64_of_slice {buf : Bytes} {pos : Nat} {n : Int64} (h : slice buf pos 8 = int64Bytes n) :
    getInt64 buf pos = n := by
  rw [getInt64, h, int64Bytes, leValue_leBytes n.toUInt64.toNat_lt, UInt64.ofNat_toNat]
  rfl

theorem length_LogGuid (h : VhdxHeader) : h.LogGuid.length = 16 := by
  rw [VhdxHeader.LogGuid, length_slice, h.size]
  rfl

end Numbers

section Several

variable {s off buf new_dst_size guid}

/-- The second data sector is put far behind the end of the buffer. -/
theorem logEntry_outside {n : Nat} (hn : 2 ≤ n) (hn' : n ≤ 126) :
    logEntry s off buf new_dst_size n (log_sector_size + n * log_sector_size) = none := by
  have hmem : (log_sector_size + 1 * log_sector_size * log_sector_size, data_ident) ∈
      entryFields s off buf new_dst_size n (log_sector_size + n * log_sector_size) := by
    refine List.mem_append_right _ (List.mem_flatMap.mpr ⟨1, List.mem_range.mpr hn, ?_⟩)
    exact List.mem_cons_self
  rw [logEntry, putAll_outside 0 hmem]
  rw [List.length_replicate]
  simp only [log_sector_size, data_ident, List.length_cons, List.length_nil]
  omega

theorem not_writesBack_several {n : Nat} (hn : 2 ≤ n) (hn' : n ≤ 126) (hlen : buf.length = n * log_sector_size)
    (hroom : HasRoom s buf guid) : ¬ WritesBack s off buf new_dst_size guid := by
  rintro ⟨s', loge, hwrite, -⟩
  have hcount : n * log_sector_size / log_sector_size = n := Nat.mul_div_cancel n (by decide)
  rw [HasRoom, hlen] at hroom
  rw [logWrite, hlen, if_neg (by simp only [log_sector_size]; omega)] at hwrite
  dsimp only at hwrite
  rw [roundUp_mul, if_neg (by omega), hcount, logEntry_outside hn hn'] at hwrite
  cases hwrite

end Several

section One

variable {s off buf new_dst_size guid}

theorem entryFields_one (size : Nat) : entryFields s off buf new_dst_size 1 size =
    headerFields s new_dst_size 1 size ++ descriptorFields s off buf 0 ++ sectorFields s buf 0 := by
  simp [entryFields]

theorem entryFields_one_fits (hlen : buf.length = 4096) :
    ∀ f ∈ entryFields s off buf new_dst_size 1 8192, f.1 + f.2.length ≤ 8192 := by
  rw [entryFields_one]
  simp [headerFields, descriptorFields, sectorFields, log_sector_size, log_ident, desc_ident, data_ident, hlen,
    HighPart, LowPart, length_LogGuid]

theorem entryFields_one_apart (hlen : buf.length = 4096) :
    (entryFields s off buf new_dst_size 1 8192).Pairwise Apart := by
  rw [entryFields_one]
  simp [headerFields, descriptorFields, sectorFields, log_sector_size, log_ident, desc_ident, data_ident, hlen,
    HighPart, LowPart, length_LogGuid, Apart]

/-- The buffer of an entry with one sector, before its checksum is put. -/
structure OneSector (s : LogFile) (off : Int64) (buf : Bytes) (new_dst_size : Int64) (entry : Bytes) : Prop where
  length : entry.length = 8192
  fields : ∀ p v, (p, v) ∈ entryFields s off buf new_dst_size 1 8192 → slice entry p v.length = v

theorem oneSector_exists (hlen : buf.length = 4096) :
    ∃ entry, putAll 0 (List.replicate 8192 0) (entryFields s off buf new_dst_size 1 8192) = some entry ∧
      OneSector s off buf new_dst_size entry := by
  have hzero : (List.replicate 8192 (0 : UInt8)).length = 8192 := List.length_replicate
  have hfits : ∀ f ∈ entryFields s off buf new_dst_size 1 8192, f.1 + f.2.length ≤ (List.replicate 8192 (0 : UInt8)).length := by
    rw [hzero]
    exact entryFields_one_fits hlen
  obtain ⟨entry, hput, hlength⟩ := putAll_fits (0 : UInt8) hfits
  exact ⟨entry, hput, hlength.trans hzero, fun p v hmem => slice_putAll 0 hput (entryFields_one_apart hlen) hmem⟩

section Fields

variable {entry : Bytes} (h : OneSector s off buf new_dst_size entry)

include h

theorem OneSector.header {p n : Nat} {v : Bytes} (hmem : (p, v) ∈ headerFields s new_dst_size 1 8192)
    (hn : v.length = n) : slice entry p n = v := by
  rw [← hn]
  refine h.fields p v ?_
  rw [entryFields_one]
  exact List.mem_append_left _ (List.mem_append_left _ hmem)

theorem OneSector.descriptor {p n : Nat} {v : Bytes} (hmem : (p, v) ∈ descriptorFields s off buf 0)
    (hn : v.length = n) : slice entry p n = v := by
  rw [← hn]
  refine h.fields p v ?_
  rw [entryFields_one]
  exact List.mem_append_left _ (List.mem_append_right _ hmem)

theorem OneSector.sector {p n : Nat} {v : Bytes} (hmem : (p, v) ∈ sectorFields s buf 0) (hn : v.length = n) :
    slice entry p n = v := by
  rw [← hn]
  refine h.fields p v ?_
  rw [entryFields_one]
  exact List.mem_append_right _ hmem

/-- The descriptor and its data sector are read. -/
theorem OneSector.readDescriptor (hlen : buf.length = 4096) (loge : LogEntry) :
    readDescriptor entry s.log_sequence_num 4096 0 loge =
      some (true, { loge with to_write := loge.to_write ++ [⟨off + Int64.ofNat 0, buf⟩] }) := by
  have hident : slice entry 64 4 = desc_ident := h.descriptor (by simp [descriptorFields]) rfl
  have hseq : getInt64 entry 88 = s.log_sequence_num :=
    getInt64_of_slice (h.descriptor (by simp [descriptorFields]) (length_int64Bytes _))
  have hoff : getInt64 entry 80 = off + Int64.ofNat 0 :=
    getInt64_of_slice (h.descriptor (by simp [descriptorFields]) (length_int64Bytes _))
  have hleading : slice entry 72 8 = slice buf 0 8 :=
    h.descriptor (by simp [descriptorFields]) (by rw [length_slice, hlen]; rfl)
  have htrailing : slice entry 68 4 = slice buf 4092 4 :=
    h.descriptor (by simp [descriptorFields, log_sector_size]) (by rw [length_slice, hlen]; rfl)
  have hdata : slice entry 4096 4 = data_ident := h.sector (by simp [sectorFields, log_sector_size]) rfl
  have hhigh : slice entry 4100 4 = HighPart s.log_sequence_num :=
    h.sector (by simp [sectorFields, log_sector_size]) (length_leBytes 4 _)
  have hlow : slice entry 8188 4 = LowPart s.log_sequence_num :=
    h.sector (by simp [sectorFields, log_sector_size]) (length_leBytes 4 _)
  have hmiddle : slice entry 4104 4084 = slice buf 8 4084 :=
    h.sector (by simp [sectorFields, log_sector_size]) (by rw [length_slice, hlen]; rfl)
  have hbuf : slice buf 0 8 ++ slice buf 8 4084 ++ slice buf 4092 4 = buf := by
    rw [← slice_add, ← slice_add, slice, List.drop_zero, List.take_of_length_le hlen.le]
  have hzero : desc_ident ≠ zero_ident := by decide
  rw [vhdxlog.readDescriptor]
  simp only [Nat.zero_mul, Nat.add_zero, log_sector_size, h.length, hident, hseq, hoff, hleading, htrailing, hdata, hhigh,
    hlow, hmiddle, hbuf, ne_eq, not_true_eq_false, if_false, if_true, if_neg hzero]
  rfl

theorem OneSector.readEntryBuf (hlen : buf.length = 4096) (loge : LogEntry) :
    ∃ fsize new_fsize tail_pos, readEntryBuf entry loge = some { loge with
      to_write := loge.to_write ++ [⟨off + Int64.ofNat 0, buf⟩]
      sequence_number := s.log_sequence_num
      fsize, new_fsize, tail_pos } := by
  have hseq : getInt64 entry 16 = s.log_sequence_num :=
    getInt64_of_slice (h.header (by simp [headerFields]) (length_int64Bytes _))
  have hcount : leValue (slice entry 24 4) = 1 := by
    rw [h.header (v := leBytes 4 1) (by simp [headerFields]) (length_leBytes 4 1), leValue_leBytes (by omega)]
  have hlength : ¬ entry.length < 64 := by
    rw [h.length]
    omega
  refine ⟨getInt64 entry 48, getInt64 entry 56, leValue (slice entry 12 4), ?_⟩
  rw [vhdxlog.readEntryBuf, if_neg hlength]
  dsimp only
  rw [hseq, hcount, if_neg (by omega), List.range_one, readDescriptors, h.readDescriptor hlen]
  rfl

/-- The entry as it is written is read. -/
theorem OneSector.readLogEntry (hlen : buf.length = 4096) {file : Bytes} {pos : Nat} {checksum : UInt32}
    (hchecksum : checksum = crc32c entry)
    (hfile : slice file pos 8192 = overwrite 0 entry 4 (leBytes 4 checksum.toNat)) :
    ∃ loge, readLogEntry file s.curr_header.LogGuid pos = some loge ∧ loge.sequence_number = s.log_sequence_num ∧
      loge.to_zero = [] ∧ loge.to_write = [⟨off + Int64.ofNat 0, buf⟩] := by
  have hlength := h.length
  have hpart {q n : Nat} (hn : q + n ≤ 4096) : slice (slice file pos 4096) q n =
      slice (overwrite 0 entry 4 (leBytes 4 checksum.toNat)) q n := by
    rw [slice_slice file hn, ← hfile, slice_slice file (by omega)]
  have hsame {q n : Nat} (hn : q + n ≤ 8192) (hdisjoint : q + n ≤ 4 ∨ 8 ≤ q) :
      slice (overwrite 0 entry 4 (leBytes 4 checksum.toNat)) q n = slice entry q n :=
    slice_overwrite_disjoint 0 (by omega) (by rw [length_leBytes]; omega)
  have hident : slice (slice file pos 4096) 0 4 = log_ident := by
    rw [hpart (by omega), hsame (by omega) (by omega)]
    exact h.header (by simp [headerFields]) rfl
  have hguid : slice (slice file pos 4096) 32 16 = s.curr_header.LogGuid := by
    rw [hpart (by omega), hsame (by omega) (by omega)]
    exact h.header (by simp [headerFields]) (length_LogGuid _)
  have hsize : leValue (slice (slice file pos 4096) 8 4) = 8192 := by
    rw [hpart (by omega), hsame (by omega) (by omega),
      h.header (v := leBytes 4 8192) (by simp [headerFields]) (length_leBytes 4 _), leValue_leBytes (by omega)]
  have hcrc : leValue (slice (slice file pos 4096) 4 4) = (crc32c entry).toNat := by
    have hself := slice_overwrite_self (0 : UInt8) entry (leBytes 4 checksum.toNat) 4
    rw [length_leBytes] at hself
    rw [hpart (by omega), hself, leValue_leBytes checksum.toNat_lt, hchecksum]
  have hentry : (overwrite 0 entry 4 (leBytes 4 checksum.toNat)).length = 8192 := by
    rw [length_overwrite 0 (by rw [length_leBytes]; omega), hlength]
  have hbuf : (slice file pos 4096).length = 4096 := by
    have hfull := congrArg List.length hfile
    rw [hentry, length_slice] at hfull
    rw [length_slice]
    omega
  have hzero : put 0 (overwrite 0 entry 4 (leBytes 4 checksum.toNat)) (4, leBytes 4 0) = some entry := by
    have hfield : slice entry 4 4 = leBytes 4 0 := h.header (by simp [headerFields]) (length_leBytes 4 0)
    rw [put, if_pos (by rw [hentry, length_leBytes]; omega), overwrite_again 0 (by rw [length_leBytes, length_leBytes]),
      ← hfield, overwrite_slice_self 0 (by omega)]
  obtain ⟨fsize, new_fsize, tail_pos, hread⟩ := h.readEntryBuf hlen { LogEntry.unread with length := 8192 }
  refine ⟨_, Eq.trans ?_ hread, rfl, rfl, List.nil_append _⟩
  rw [vhdxlog.readLogEntry]
  dsimp only
  rw [hident, hguid, hsize, hbuf, hfile, hentry, hzero, hcrc]
  simp only [ne_eq, not_true_eq_false, or_self, if_false]

end Fields

theorem sectorsOf_one (hlen : buf.length = 4096) : sectorsOf off buf = [⟨off + Int64.ofNat 0, buf⟩] := by
  have hne : buf ≠ [] := List.length_pos_iff.mp (by omega)
  rw [sectorsOf, log_sector_size, pieces_eq (by omega) hne, List.take_of_length_le hlen.le, List.drop_eq_nil_of_le hlen.le,
    pieces_nil]
  rfl

theorem startLog_log_sequence_num : (s.startLog guid).log_sequence_num = s.log_sequence_num := by
  unfold LogFile.startLog
  split
  · rfl
  · rfl

/-- What is written for one sector is read, up to a sequence number of -1. -/
theorem logWrite_one (hlen : buf.length = 4096) (hroom : HasRoom s buf guid) :
    ∃ (s' : LogFile) (loge : LogEntry), logWrite s off buf new_dst_size guid = some (true, false, s') ∧
      readLogEntry s'.file s'.curr_header.LogGuid (s'.curr_header.LogOffset + (s.startLog guid).log_pos) = some loge ∧
      loge.sequence_number = s.log_sequence_num ∧ loge.to_zero = [] ∧ loge.to_write = sectorsOf off buf := by
  obtain ⟨entry, hput, hentry⟩ :=
    @oneSector_exists (s.startLog guid) off _ new_dst_size hlen
  have hchecksum : put 0 entry (4, leBytes 4 (crc32c entry).toNat) =
      some (overwrite 0 entry 4 (leBytes 4 (crc32c entry).toNat)) := by
    rw [put, if_pos (by rw [hentry.length, length_leBytes]; omega)]
  have hsize : (overwrite 0 entry 4 (leBytes 4 (crc32c entry).toNat)).length = 8192 := by
    rw [length_overwrite 0 (by rw [hentry.length, length_leBytes]; omega), hentry.length]
  have hself := slice_overwrite_self 0 (s.startLog guid).file (overwrite 0 entry 4 (leBytes 4 (crc32c entry).toNat))
    ((s.startLog guid).curr_header.LogOffset + (s.startLog guid).log_pos)
  rw [hsize] at hself
  obtain ⟨loge, hread, hseq, hto_zero, hto_write⟩ := hentry.readLogEntry hlen rfl hself
  have hroundUp : roundUp 4096 log_sector_size = 4096 := roundUp_mul 1
  rw [HasRoom, hlen] at hroom
  refine ⟨{ s.startLog guid with
      file := overwrite 0 (s.startLog guid).file ((s.startLog guid).curr_header.LogOffset + (s.startLog guid).log_pos)
        (overwrite 0 entry 4 (leBytes 4 (crc32c entry).toNat))
      log_pos := (s.startLog guid).log_pos + 8192
      log_sequence_num := (s.startLog guid).log_sequence_num + 1 },
    loge, ?_, hread, hseq.trans startLog_log_sequence_num, hto_zero, hto_write.trans (sectorsOf_one hlen).symm⟩
  rw [logWrite, hlen, if_neg (by simp only [log_sector_size]; omega)]
  dsimp only
  rw [hroundUp, if_neg (Nat.not_lt.mpr hroom)]
  simp only [log_sector_size, Nat.reduceDiv, Nat.reduceAdd, logEntry, hput, hchecksum]

end One

section RoundTrip

variable {s off buf new_dst_size guid}

/-- An entry is read back as it was written exactly if it has one sector. -/
theorem writesBack_iff {n : Nat} (hn : 1 ≤ n) (hn' : n ≤ 126) (hlen : buf.length = n * log_sector_size)
    (hroom : HasRoom s buf guid) :
    WritesBack s off buf new_dst_size guid ↔ n = 1 ∧ s.log_sequence_num ≠ -1 := by
  obtain hseveral | rfl := Nat.lt_or_eq_of_le hn
  · refine iff_of_false (not_writesBack_several hseveral hn' hlen hroom) fun h => ?_
    exact absurd h.1 (by omega)
  · obtain ⟨s', loge, hwrite, hread, hseq, hto_zero, hto_write⟩ :=
      logWrite_one hlen hroom
    constructor
    · rintro ⟨s'', loge', hwrite', hread', hvalid, -⟩
      rw [hwrite] at hwrite'
      cases hwrite'
      rw [hread] at hread'
      cases hread'
      exact ⟨rfl, hseq ▸ hvalid⟩
    · rintro ⟨-, hvalid⟩
      exact ⟨s', loge, hwrite, hread, hseq ▸ hvalid, hto_zero, hto_write⟩

end RoundTrip

section NewImage

/-- A new image, whose log is empty. -/
def newLog : LogFile :=
  { newImage with log_pos := 0, log_start_pos := 0, log_sequence_num := 1, flushed_vhdx_size := 0 }

theorem LogLength_startLog (s : LogFile) (guid : VhdxGUID) :
    (s.startLog guid).curr_header.LogLength = s.curr_header.LogLength := by
  have hput (h : VhdxHeader) {p : Nat} {value : Bytes} (hfits : p + value.length ≤ 4096) (hp : p + value.length ≤ 68) :
      (h.put p value hfits).LogLength = h.LogLength := by
    rw [VhdxHeader.LogLength, slice_put h hfits (by omega) (Or.inr hp)]
    rfl
  unfold LogFile.startLog
  split
  · simp only [HeaderFile.updateHeader, HeaderFile.nextHeader, VhdxHeader.setChecksum, VhdxHeader.setSequenceNumber,
      VhdxHeader.setLogGuid]
    rw [hput _ _ (by simp), hput _ _ (by simp), hput _ _ (by simp), hput _ _ (by simp [VhdxGUID.size])]
  · rfl

theorem log_pos_startLog {s : LogFile} (h : s.log_pos = 0) (guid : VhdxGUID) : (s.startLog guid).log_pos = 0 := by
  unfold LogFile.startLog
  split
  · rfl
  · exact h

theorem LogLength_newLog : newLog.curr_header.LogLength = 1 * 1024 * 1024 := by
  have hself (h : VhdxHeader) : (h.put 68 (leBytes 4 (1 * 1024 * 1024)) (by simp)).LogLength = 1 * 1024 * 1024 := by
    have hslice := slice_overwrite_self (0 : UInt8) h.bytes (leBytes 4 (1 * 1024 * 1024)) 68
    rw [length_leBytes] at hslice
    rw [VhdxHeader.LogLength, VhdxHeader.put, hslice, leValue_leBytes (by omega)]
  have hchecksum (h : VhdxHeader) (checksum : UInt32) : (h.setChecksum checksum).LogLength = h.LogLength := by
    rw [VhdxHeader.LogLength, VhdxHeader.setChecksum, slice_put h _ (by omega) (by simp)]
    rfl
  rw [newLog, newImage, createNew, newHeader, hchecksum, newFields, hself]

theorem hasRoom_newLog {buf : Bytes} {n : Nat} (hn : n ≤ 126) (hlen : buf.length = n * log_sector_size) (guid : VhdxGUID) :
    HasRoom newLog buf guid := by
  rw [HasRoom, log_pos_startLog rfl, LogLength_startLog, LogLength_newLog, hlen]
  simp only [log_sector_size]
  omega

theorem writesBack_newLog : WritesBack newLog 0 (List.replicate 4096 7) 0 (guidsOf 2).DataWriteGuid :=
  (writesBack_iff (n := 1) (by omega) (by omega) List.length_replicate
    (hasRoom_newLog (n := 1) (by omega) List.length_replicate _)).mpr ⟨rfl, by decide⟩

/-- Two sectors do not fit into the buffer of their entry. -/
theorem not_writesBack_newLog : ¬ WritesBack newLog 0 (List.replicate 8192 7) 0 (guidsOf 2).DataWriteGuid :=
  not_writesBack_several (n := 2) (by omega) (by omega) List.length_replicate
    (hasRoom_newLog (n := 2) (by omega) List.length_replicate _)

end NewImage

end urbackup.vhdxlog
