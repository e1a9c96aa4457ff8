import UrBackup.Vhdx.Header
import Mathlib.Data.UInt

namespace urbackup.vhdxheader

open stringtools filedata

section Fields

variable (h : VhdxHeader)

theorem VhdxHeader.ext' {g h : VhdxHeader} (hbytes : g.bytes = h.bytes) : g = h := by
  obtain ⟨a, ha⟩ := g
  obtain ⟨b, hb⟩ := h
  subst hbytes
  rfl

/-- The other fields stay. -/
theorem slice_put {p q n : Nat} {value : Bytes} (hfits : p + value.length ≤ 4096) (hn : q + n ≤ 4096)
    (hdisjoint : q + n ≤ p ∨ p + value.length ≤ q) : slice (h.put p value hfits).bytes q n = slice h.bytes q n :=
  slice_overwrite_disjoint 0 (h.size.symm ▸ hn) hdisjoint

theorem setChecksum_setChecksum (a b : UInt32) : (h.setChecksum a).setChecksum b = h.setChecksum b := by
  have hlen : (leBytes 4 a.toNat).length = (leBytes 4 b.toNat).length := by rw [length_leBytes, length_leBytes]
  exact VhdxHeader.ext' (overwrite_again 0 hlen)

theorem Checksum_setChecksum (checksum : UInt32) : (h.setChecksum checksum).Checksum = checksum.toNat := by
  have hslice := slice_overwrite_self (0 : UInt8) h.bytes (leBytes 4 checksum.toNat) 4
  rw [length_leBytes] at hslice
  rw [VhdxHeader.Checksum, VhdxHeader.setChecksum, VhdxHeader.put, hslice, leValue_leBytes checksum.toNat_lt]

theorem SequenceNumber_setChecksum (checksum : UInt32) : (h.setChecksum checksum).SequenceNumber = h.SequenceNumber := by
  rw [VhdxHeader.SequenceNumber, VhdxHeader.setChecksum, slice_put _ _ (by simp) (by simp)]
  rfl

theorem SequenceNumber_setSequenceNumber (n : UInt64) : (h.setSequenceNumber n).SequenceNumber = n.toNat := by
  have hslice := slice_overwrite_self (0 : UInt8) h.bytes (leBytes 8 n.toNat) 8
  rw [length_leBytes] at hslice
  rw [VhdxHeader.SequenceNumber, VhdxHeader.setSequenceNumber, VhdxHeader.put, hslice, leValue_leBytes n.toNat_lt]

theorem SequenceNumber_setGuids (g : Guids) : (h.setGuids g).SequenceNumber = h.SequenceNumber := by
  rw [VhdxHeader.SequenceNumber, VhdxHeader.setGuids, slice_put _ _ (by simp) (by simp)]
  rfl

/-- A header is valid once its checksum was made. -/
theorem checkHeader_setChecksum (hident : slice h.bytes 0 4 = head_ident) :
    checkHeader ((h.setChecksum 0).setChecksum (crc32c (h.setChecksum 0).bytes)) = true := by
  have hslice : slice ((h.setChecksum 0).setChecksum (crc32c (h.setChecksum 0).bytes)).bytes 0 4 = head_ident := by
    rw [setChecksum_setChecksum, VhdxHeader.setChecksum, slice_put _ _ (by simp) (by simp), hident]
  rw [checkHeader, decide_eq_true_iff]
  refine ⟨hslice, ?_⟩
  rw [setChecksum_setChecksum, setChecksum_setChecksum, Checksum_setChecksum]

theorem ident_of_checkHeader {h : VhdxHeader} (hcheck : checkHeader h = true) : slice h.bytes 0 4 = head_ident := by
  rw [checkHeader, decide_eq_true_iff] at hcheck
  exact hcheck.1

variable (v : HeaderFile)

theorem checkHeader_nextHeader (g : Guids) (hident : slice v.curr_header.bytes 0 4 = head_ident) :
    checkHeader (v.setGuids g).nextHeader = true := by
  refine checkHeader_setChecksum _ ?_
  rw [VhdxHeader.setSequenceNumber, slice_put _ _ (by simp) (by simp), HeaderFile.setGuids, VhdxHeader.setGuids,
    slice_put _ _ (by simp) (by simp), hident]

theorem SequenceNumber_nextHeader (g : Guids) (hseq : v.curr_header.SequenceNumber + 1 < 2 ^ 64) :
    (v.setGuids g).nextHeader.SequenceNumber = v.curr_header.SequenceNumber + 1 := by
  rw [HeaderFile.nextHeader, SequenceNumber_setChecksum, SequenceNumber_setChecksum, SequenceNumber_setSequenceNumber,
    HeaderFile.setGuids, SequenceNumber_setGuids, UInt64.toNat_ofNat_of_lt' hseq]

end Fields

section Slots

/-- Where the other header is. -/
def otherPos (pos : Nat) : Nat :=
  if pos = 64 * 1024 then 128 * 1024 else 64 * 1024

def IsPos (pos : Nat) : Prop :=
  pos = 64 * 1024 ∨ pos = 128 * 1024

theorem IsPos.other {pos : Nat} (h : IsPos pos) : IsPos (otherPos pos) := by
  obtain rfl | rfl := h
  · exact Or.inr rfl
  · exact Or.inl rfl

theorem IsPos.otherPos_otherPos {pos : Nat} (h : IsPos pos) : otherPos (otherPos pos) = pos := by
  obtain rfl | rfl := h
  · rfl
  · rfl

theorem readSlot_eq_some {file : Bytes} {pos : Nat} {h : VhdxHeader} :
    readSlot file pos = some h ↔ slice file pos 4096 = h.bytes := by
  unfold readSlot
  split
  · next hlen =>
    rw [Option.some.injEq]
    constructor
    · rintro rfl
      rfl
    · exact fun hbytes => VhdxHeader.ext' hbytes
  · next hlen =>
    refine ⟨nofun, fun hbytes => ?_⟩
    rw [hbytes] at hlen
    exact absurd h.size hlen

theorem readSlot_some {file : Bytes} (hlen : 132 * 1024 ≤ file.length) {pos : Nat} (hpos : IsPos pos) :
    ∃ h, readSlot file pos = some h := by
  have hslice : (slice file pos 4096).length = 4096 := by
    obtain rfl | rfl := hpos
    · rw [length_slice]
      omega
    · rw [length_slice]
      omega
  exact ⟨⟨slice file pos 4096, hslice⟩, readSlot_eq_some.mpr rfl⟩

/-- What is read where both slots are there. -/
theorem readHeader_of_slots {file : Bytes} (hident : slice file 0 8 = file_ident) {header1 header2 : VhdxHeader}
    (h1 : readSlot file (64 * 1024) = some header1) (h2 : readSlot file (128 * 1024) = some header2) :
    readHeader file =
      if checkHeader header2 ∧ header2.SequenceNumber > header1.SequenceNumber then some (header2, 64 * 1024)
      else if checkHeader header1 then some (header1, 128 * 1024) else none := by
  rw [readHeader, if_neg (not_not.mpr hident), h1, h2]

theorem slots_of_readHeader {file : Bytes} {out : VhdxHeader × Nat} (h : readHeader file = some out) :
    slice file 0 8 = file_ident ∧ (∃ header1, readSlot file (64 * 1024) = some header1) ∧
      ∃ header2, readSlot file (128 * 1024) = some header2 := by
  unfold readHeader at h
  split at h
  · cases h
  · next hident =>
    split at h
    · next header1 header2 h1 h2 => exact ⟨not_not.mp hident, ⟨header1, h1⟩, header2, h2⟩
    · cases h

variable {v : HeaderFile}

/-- Writes to a slot leave the rest of the file. -/
theorem slots_of_write {file : Bytes} (hlen : 132 * 1024 ≤ file.length) {pos : Nat} (hpos : IsPos pos) {ys : Bytes}
    (hys : ys.length ≤ 4096) :
    slice (overwrite 0 file pos ys) 0 8 = slice file 0 8 ∧ (overwrite 0 file pos ys).length = file.length ∧
      slice (overwrite 0 file pos ys) (otherPos pos) 4096 = slice file (otherPos pos) 4096 ∧
      slice (overwrite 0 file pos ys) pos 4096 = ys ++ (slice file pos 4096).drop ys.length := by
  obtain rfl | rfl := hpos
  · exact ⟨slice_overwrite_disjoint 0 (by omega) (by omega), length_overwrite 0 (by omega),
      slice_overwrite_disjoint 0 (by rw [otherPos, if_pos rfl]; omega) (by rw [otherPos, if_pos rfl]; omega),
      slice_overwrite_prefix 0 (by omega) hys⟩
  · exact ⟨slice_overwrite_disjoint 0 (by omega) (by omega), length_overwrite 0 (by omega),
      slice_overwrite_disjoint 0 (by rw [otherPos, if_neg (by omega)]; omega)
        (by rw [otherPos, if_neg (by omega)]; omega),
      slice_overwrite_prefix 0 (by omega) hys⟩

end Slots

section Runs

variable {v : HeaderFile}

/-- The header in memory is the valid one of the slot that is not written next. A
valid header in the other slot is not newer. -/
structure Current (v : HeaderFile) : Prop where
  ident : slice v.file 0 8 = file_ident
  length : 132 * 1024 ≤ v.file.length
  pos : IsPos v.curr_header_pos
  written : readSlot v.file (otherPos v.curr_header_pos) = some v.curr_header
  valid : checkHeader v.curr_header = true
  first : v.curr_header_pos = 64 * 1024 → ∀ old, readSlot v.file v.curr_header_pos = some old →
    old.SequenceNumber < v.curr_header.SequenceNumber ∨ old = v.curr_header
  second : v.curr_header_pos = 128 * 1024 → ∀ old, readSlot v.file v.curr_header_pos = some old →
    checkHeader old = true → old.SequenceNumber ≤ v.curr_header.SequenceNumber

theorem length_of_readSlot {file : Bytes} {h : VhdxHeader} (hslot : readSlot file (128 * 1024) = some h) :
    132 * 1024 ≤ file.length := by
  have hlen := congrArg List.length (readSlot_eq_some.mp hslot)
  rw [length_slice, h.size] at hlen
  omega

/-- An image that was opened. -/
theorem current_of_readHeader {file : Bytes} {header : VhdxHeader} {pos : Nat}
    (hread : readHeader file = some (header, pos)) : Current ⟨file, header, pos⟩ := by
  obtain ⟨hident, ⟨header1, h1⟩, header2, h2⟩ := slots_of_readHeader hread
  have hlen := length_of_readSlot h2
  rw [readHeader_of_slots hident h1 h2] at hread
  split at hread
  · next hsel =>
    cases hread
    refine ⟨hident, hlen, Or.inl rfl, h2, hsel.1, fun _ old hold => Or.inl ?_, fun hsecond => ?_⟩
    · obtain rfl : header1 = old := Option.some.inj (h1.symm.trans hold)
      exact hsel.2
    · dsimp only at hsecond
      omega
  · next hsel =>
    split at hread
    · next hvalid =>
      cases hread
      refine ⟨hident, hlen, Or.inr rfl, h1, hvalid, fun hfirst => ?_, fun _ old hold hcheck => ?_⟩
      · dsimp only at hfirst
        omega
      · obtain rfl : header2 = old := Option.some.inj (h2.symm.trans hold)
        exact Nat.not_lt.mp fun hlt => hsel ⟨hcheck, hlt⟩
    · cases hread

section Created

variable (FileWriteGuid DataWriteGuid : VhdxGUID)

/-- The fields of a new header start after the checksum. -/
theorem slice_newFields {q n : Nat} (hn : q + n ≤ 8) : slice (newFields FileWriteGuid DataWriteGuid).bytes q n =
    slice (VhdxHeader.zero.put 0 head_ident (by decide)).bytes q n := by
  simp only [newFields, VhdxHeader.setSequenceNumber, VhdxHeader.setGuids]
  rw [slice_put _ _ (by omega) (by omega), slice_put _ _ (by omega) (by omega), slice_put _ _ (by omega) (by omega),
    slice_put _ _ (by omega) (by omega), slice_put _ _ (by omega) (by omega)]

theorem slice_zero {q n : Nat} (hn : q + n ≤ 4096) : slice VhdxHeader.zero.bytes q n = List.replicate n 0 := by
  rw [VhdxHeader.zero, slice, List.drop_replicate, List.take_replicate, Nat.min_eq_left (by omega)]

theorem setChecksum_newFields :
    (newFields FileWriteGuid DataWriteGuid).setChecksum 0 = newFields FileWriteGuid DataWriteGuid := by
  have hzero : slice (newFields FileWriteGuid DataWriteGuid).bytes 4 4 = leBytes 4 0 := by
    rw [slice_newFields _ _ (by omega), slice_put _ _ (by omega) (Or.inr (by decide)), slice_zero (by omega)]
    rfl
  have hfits : 4 + 4 ≤ (newFields FileWriteGuid DataWriteGuid).bytes.length := by
    rw [VhdxHeader.size]
    omega
  have hover := overwrite_slice_self (0 : UInt8) hfits
  rw [hzero] at hover
  exact VhdxHeader.ext' hover

theorem checkHeader_newHeader : checkHeader (newHeader FileWriteGuid DataWriteGuid) = true := by
  have hcheck := checkHeader_setChecksum (newFields FileWriteGuid DataWriteGuid) (by
    rw [slice_newFields _ _ (by omega)]
    exact slice_overwrite_self 0 VhdxHeader.zero.bytes head_ident 0)
  rw [setChecksum_newFields] at hcheck
  exact hcheck

/-- Both slots of a new file have the same header. -/
theorem current_of_new {ident : Bytes} (hident : slice ident 0 8 = file_ident) (hlen : ident.length ≤ 64 * 1024)
    {header : VhdxHeader} (hvalid : checkHeader header = true) :
    Current ⟨overwrite 0 (overwrite 0 ident (64 * 1024) header.bytes) (128 * 1024) header.bytes, header, 64 * 1024⟩ := by
  have hsize := header.size
  have hne : header.bytes ≠ [] := by
    rw [← List.length_pos_iff, hsize]
    omega
  have hlength : 8 ≤ ident.length := by
    have h8 := congrArg List.length hident
    rw [length_slice, file_ident] at h8
    simp only [List.length_cons, List.length_nil] at h8
    omega
  have hfirst := length_overwrite_gap (0 : UInt8) hlen hne
  have hsecond : (overwrite 0 (overwrite 0 ident (64 * 1024) header.bytes) (128 * 1024) header.bytes).length =
      128 * 1024 + header.bytes.length := length_overwrite_gap 0 (by omega) hne
  have hslot1 := slice_overwrite_self (0 : UInt8) ident header.bytes (64 * 1024)
  have hslot2 := slice_overwrite_self (0 : UInt8) (overwrite 0 ident (64 * 1024) header.bytes) header.bytes (128 * 1024)
  rw [hsize] at hslot1 hslot2
  refine ⟨?_, ?_, Or.inl rfl, readSlot_eq_some.mpr hslot2, hvalid, fun _ old hread => Or.inr ?_, ?_⟩
  · dsimp only
    rw [slice_overwrite_disjoint 0 (by omega) (Or.inl (by omega)), slice_overwrite_disjoint 0 (by omega) (Or.inl (by omega)),
      hident]
  · dsimp only
    omega
  · dsimp only at hread
    rw [readSlot_eq_some, slice_overwrite_disjoint 0 (by omega) (Or.inl (by omega)), hslot1] at hread
    exact VhdxHeader.ext' hread.symm
  · intro hpos
    dsimp only at hpos
    omega

theorem slice_getFileIdentifier : slice getFileIdentifier 0 8 = file_ident ∧ getFileIdentifier.length = 500 := by
  have hzero : (List.replicate 500 (0 : UInt8)).length = 500 := List.length_replicate
  have hfirst : (overwrite 0 (List.replicate 500 0) 0 file_ident).length = 500 :=
    (length_overwrite 0 (by rw [hzero]; decide)).trans hzero
  refine ⟨?_, ?_⟩
  · rw [getFileIdentifier, slice_overwrite_disjoint 0 (by omega) (Or.inl (by omega))]
    exact slice_overwrite_self 0 (List.replicate 500 0) file_ident 0
  · rw [getFileIdentifier, length_overwrite 0 (by rw [hfirst]; decide), hfirst]

theorem current_createNew : Current (createNew FileWriteGuid DataWriteGuid) :=
  current_of_new slice_getFileIdentifier.1 (by rw [slice_getFileIdentifier.2]; omega)
    (checkHeader_newHeader FileWriteGuid DataWriteGuid)

end Created

/-- The slot that is written next has the header that was current. -/
theorem Current.slot_before (h : Current v) (next : VhdxHeader) :
    readSlot (overwrite 0 v.file v.curr_header_pos next.bytes) (otherPos v.curr_header_pos) = some v.curr_header := by
  obtain ⟨-, -, hother, -⟩ := slots_of_write h.length h.pos next.size.le
  rw [readSlot_eq_some, hother, readSlot_eq_some.mp h.written]

theorem Current.write (h : Current v) {next : VhdxHeader} (hvalid : checkHeader next = true)
    (hseq : v.curr_header.SequenceNumber < next.SequenceNumber) :
    Current ⟨overwrite 0 v.file v.curr_header_pos next.bytes, next, otherPos v.curr_header_pos⟩ := by
  obtain ⟨hident, hlength, -, hslot⟩ := slots_of_write h.length h.pos next.size.le
  have hold : ∀ old, readSlot (overwrite 0 v.file v.curr_header_pos next.bytes) (otherPos v.curr_header_pos) = some old →
      old = v.curr_header :=
    fun old hold => (Option.some.inj ((h.slot_before next).symm.trans hold)).symm
  refine ⟨hident.trans h.ident, hlength.symm ▸ h.length, h.pos.other, ?_, hvalid, fun _ old hread => Or.inl ?_,
    fun _ old hread _ => ?_⟩
  · rw [h.pos.otherPos_otherPos, readSlot_eq_some, hslot, List.drop_eq_nil_of_le, List.append_nil]
    rw [length_slice, next.size]
    exact Nat.min_le_left _ _
  · rw [hold old hread]
    exact hseq
  · rw [hold old hread]
    exact hseq.le

theorem updateHeader_setGuids (v : HeaderFile) (g : Guids) : (v.setGuids g).updateHeader =
    ⟨overwrite 0 v.file v.curr_header_pos (v.setGuids g).nextHeader.bytes, (v.setGuids g).nextHeader,
      otherPos v.curr_header_pos⟩ := by
  rw [HeaderFile.updateHeader, otherPos]
  rfl

theorem updates_cons (v : HeaderFile) (g : Guids) (gs : List Guids) :
    v.updates (g :: gs) = (v.setGuids g).updateHeader.updates gs := by
  rw [HeaderFile.updates, List.foldl_cons, ← HeaderFile.updates]

theorem Current.slot_before_update (h : Current v) (g : Guids) :
    readSlot (v.setGuids g).updateHeader.file (v.setGuids g).updateHeader.curr_header_pos = some v.curr_header := by
  rw [updateHeader_setGuids, ← h.slot_before (v.setGuids g).nextHeader]

theorem Current.update (h : Current v) (g : Guids) (hseq : v.curr_header.SequenceNumber + 1 < 2 ^ 64) :
    Current (v.setGuids g).updateHeader := by
  have hvalid := checkHeader_nextHeader v g (ident_of_checkHeader h.valid)
  have hnext := SequenceNumber_nextHeader v g hseq
  rw [updateHeader_setGuids]
  exact h.write hvalid (by omega)

/-- Each update is one further. -/
theorem Current.updates (h : Current v) (gs : List Guids) (hseq : v.curr_header.SequenceNumber + gs.length < 2 ^ 64) :
    Current (v.updates gs) ∧
      (v.updates gs).curr_header.SequenceNumber = v.curr_header.SequenceNumber + gs.length := by
  induction gs generalizing v with
  | nil => exact ⟨h, rfl⟩
  | cons g gs ih =>
    rw [List.length_cons] at hseq
    have hnext := SequenceNumber_nextHeader v g (by omega)
    have hheader : (v.setGuids g).updateHeader.curr_header = (v.setGuids g).nextHeader := by
      rw [updateHeader_setGuids]
    obtain ⟨hcurrent, hrest⟩ := ih (h.update g (by omega)) (by rw [hheader]; omega)
    rw [updates_cons, hrest, hheader, hnext, List.length_cons]
    exact ⟨hcurrent, by omega⟩

end Runs

section Torn

/-- The image is new, or it was opened. -/
inductive Starts : HeaderFile → Prop
  | created (FileWriteGuid DataWriteGuid : VhdxGUID) : Starts (createNew FileWriteGuid DataWriteGuid)
  | opened {file : Bytes} {header : VhdxHeader} {pos : Nat} (hread : readHeader file = some (header, pos)) :
    Starts ⟨file, header, pos⟩

theorem Starts.current {v : HeaderFile} (h : Starts v) : Current v := by
  cases h with
  | created FileWriteGuid DataWriteGuid => exact current_createNew FileWriteGuid DataWriteGuid
  | opened hread => exact current_of_readHeader hread

variable (v : HeaderFile) (g : Guids) (k : Nat)

/-- The slot of the interrupted update, as it is read. -/
def TornSlot (torn : VhdxHeader) : Prop :=
  readSlot (v.tornFile g k) v.curr_header_pos = some torn

/-- The header that was last written completely. -/
def lastWritten (torn : VhdxHeader) : VhdxHeader :=
  if torn = (v.setGuids g).nextHeader then torn else v.curr_header

/-- The header that was last written completely is read, and the next one is
written to the other slot. -/
def Survives : Prop :=
  ∃ torn pos, TornSlot v g k torn ∧ readHeader (v.tornFile g k) = some (lastWritten v g torn, pos) ∧
    readSlot (v.tornFile g k) (otherPos pos) = some (lastWritten v g torn)

/-- The checksum of the slot holds only for the header before the update and for the
complete new one. -/
def ChecksumTells : Prop :=
  ∀ torn, TornSlot v g k torn → checkHeader torn = true →
    torn = (v.setGuids g).nextHeader ∨ readSlot v.file v.curr_header_pos = some torn

/-- An invalid header in the first slot does not have the higher sequence number. -/
def NotAhead : Prop :=
  v.curr_header_pos = 64 * 1024 → ∀ torn, TornSlot v g k torn →
    checkHeader torn = true ∨ torn.SequenceNumber < v.curr_header.SequenceNumber

variable {v g k}

section Current

variable (h : Current v) (hseq : v.curr_header.SequenceNumber + 1 < 2 ^ 64)

include h

theorem slots_torn : slice (v.tornFile g k) 0 8 = file_ident ∧ 132 * 1024 ≤ (v.tornFile g k).length ∧
    readSlot (v.tornFile g k) (otherPos v.curr_header_pos) = some v.curr_header := by
  have hlen : ((v.setGuids g).nextHeader.bytes.take k).length ≤ 4096 :=
    (List.length_take_le' _ _).trans (v.setGuids g).nextHeader.size.le
  obtain ⟨hident, hlength, hother, -⟩ := slots_of_write h.length h.pos hlen
  exact ⟨hident.trans h.ident, h.length.trans_eq hlength.symm,
    readSlot_eq_some.mpr (hother.trans (readSlot_eq_some.mp h.written))⟩

theorem tornSlot_exists : ∃ torn, TornSlot v g k torn :=
  readSlot_some (slots_torn h).2.1 h.pos

include hseq

theorem lastWritten_next {torn : VhdxHeader} (htorn : torn = (v.setGuids g).nextHeader) :
    lastWritten v g torn = torn ∧ checkHeader torn = true ∧ v.curr_header.SequenceNumber < torn.SequenceNumber := by
  have hnext := SequenceNumber_nextHeader v g hseq
  subst htorn
  exact ⟨if_pos rfl, checkHeader_nextHeader v g (ident_of_checkHeader h.valid), by omega⟩

/-- A slot that cannot be the new header leaves the one that was current. -/
theorem lastWritten_curr {torn : VhdxHeader}
    (hnot : checkHeader torn = false ∨ torn.SequenceNumber ≤ v.curr_header.SequenceNumber) :
    lastWritten v g torn = v.curr_header := by
  refine if_neg fun htorn => ?_
  obtain ⟨-, hvalid, hlt⟩ := lastWritten_next h hseq htorn
  obtain hinvalid | hle := hnot
  · rw [hinvalid] at hvalid
    cases hvalid
  · omega

/-- The first slot was written: the header of the second one is read only if it is
newer by its sequence number. -/
theorem survives_first (hpos : v.curr_header_pos = 64 * 1024) (htells : ChecksumTells v g k) :
    Survives v g k ↔ NotAhead v g k := by
  obtain ⟨torn, htorn⟩ := tornSlot_exists (g := g) (k := k) h
  obtain ⟨hident, -, hother⟩ := slots_torn (g := g) (k := k) h
  have h1 : readSlot (v.tornFile g k) (64 * 1024) = some torn := hpos ▸ htorn
  have h2 : readSlot (v.tornFile g k) (128 * 1024) = some v.curr_header := by
    rw [otherPos, if_pos hpos] at hother
    exact hother
  have hread := readHeader_of_slots hident h1 h2
  rw [h.valid] at hread
  constructor
  · rintro ⟨torn', pos, htorn', hsel, -⟩ - torn'' htorn''
    obtain rfl := Option.some.inj (htorn.symm.trans htorn'')
    by_contra hnot
    rw [not_or, Bool.not_eq_true, Nat.not_lt] at hnot
    rw [hread, if_neg (by rintro ⟨-, hgt⟩; omega), hnot.1] at hsel
    cases hsel
  · intro hahead
    by_cases hlt : torn.SequenceNumber < v.curr_header.SequenceNumber
    · have hlast := lastWritten_curr (g := g) h hseq (Or.inr hlt.le)
      refine ⟨torn, 64 * 1024, htorn, ?_, ?_⟩
      · rw [hread, if_pos ⟨rfl, hlt⟩, hlast]
      · rw [hlast]
        exact h2
    · have hvalid := (hahead hpos torn htorn).resolve_right hlt
      have hlast : lastWritten v g torn = torn := by
        obtain hnext | hold := htells torn htorn hvalid
        · exact (lastWritten_next h hseq hnext).1
        · obtain hless | hsame := h.first hpos torn hold
          · exact absurd hless hlt
          · rw [lastWritten_curr h hseq (Or.inr (by rw [hsame])), hsame]
      refine ⟨torn, 128 * 1024, htorn, ?_, ?_⟩
      · rw [hread, if_neg (fun hgt => hlt hgt.2), if_pos hvalid, hlast]
      · rw [hlast]
        exact h1

/-- The second slot was written: the header of the first one is valid. -/
theorem survives_second (hpos : v.curr_header_pos = 128 * 1024) (htells : ChecksumTells v g k) : Survives v g k := by
  obtain ⟨torn, htorn⟩ := tornSlot_exists (g := g) (k := k) h
  obtain ⟨hident, -, hother⟩ := slots_torn (g := g) (k := k) h
  have h2 : readSlot (v.tornFile g k) (128 * 1024) = some torn := hpos ▸ htorn
  have h1 : readSlot (v.tornFile g k) (64 * 1024) = some v.curr_header := by
    rw [otherPos, if_neg (by omega)] at hother
    exact hother
  have hread := readHeader_of_slots hident h1 h2
  rw [h.valid] at hread
  by_cases hnew : checkHeader torn = true ∧ torn.SequenceNumber > v.curr_header.SequenceNumber
  · have hlast : lastWritten v g torn = torn := by
      obtain hnext | hold := htells torn htorn hnew.1
      · exact (lastWritten_next h hseq hnext).1
      · have hle := h.second hpos torn hold hnew.1
        omega
    refine ⟨torn, 64 * 1024, htorn, ?_, ?_⟩
    · rw [hread, if_pos hnew, hlast]
    · rw [hlast]
      exact h2
  · have hlast : lastWritten v g torn = v.curr_header := by
      refine lastWritten_curr h hseq ?_
      rw [not_and_or, Bool.not_eq_true, Nat.not_lt] at hnew
      exact hnew
    refine ⟨torn, 128 * 1024, htorn, ?_, ?_⟩
    · rw [hread, if_neg hnew, if_pos rfl, hlast]
    · rw [hlast]
      exact h1

end Current

end Torn

section Invalid

variable {v : HeaderFile}

/-- Only the GUIDs from the second one on are behind the first 32 bytes. -/
theorem drop_nextHeader (v : HeaderFile) (g : Guids) : (v.setGuids g).nextHeader.bytes.drop 32 =
    g.DataWriteGuid.bytes ++ (g.LogGuid.bytes ++ v.curr_header.bytes.drop 64) := by
  have hfields : (v.setGuids g).nextHeader.bytes.drop 32 = (v.curr_header.setGuids g).bytes.drop 32 := by
    simp only [HeaderFile.nextHeader, setChecksum_setChecksum]
    rw [VhdxHeader.setChecksum, VhdxHeader.put, drop_overwrite _ (by simp), VhdxHeader.setSequenceNumber,
      VhdxHeader.put, drop_overwrite _ (by simp), HeaderFile.setGuids]
  have hslice := slice_overwrite_self (0 : UInt8) v.curr_header.bytes g.bytes 16
  have hrest : (v.curr_header.setGuids g).bytes.drop 64 = v.curr_header.bytes.drop 64 := drop_overwrite 0 (by simp)
  have hguids : slice (v.curr_header.setGuids g).bytes 32 32 = g.DataWriteGuid.bytes ++ g.LogGuid.bytes := by
    have hbytes : g.bytes.drop 16 = g.DataWriteGuid.bytes ++ g.LogGuid.bytes := by
      rw [Guids.bytes, List.append_assoc, List.drop_left' g.FileWriteGuid.size]
    rw [Guids.length_bytes] at hslice
    have hdrop := congrArg (List.drop 16) hslice
    rw [drop_slice, hbytes] at hdrop
    exact hdrop
  rw [hfields, ← List.take_append_drop 32 ((v.curr_header.setGuids g).bytes.drop 32), List.drop_drop, hrest,
    ← List.append_assoc, ← hguids]
  rfl

theorem drop_nextHeader_rest (v : HeaderFile) (g : Guids) :
    (v.setGuids g).nextHeader.bytes.drop 64 = v.curr_header.bytes.drop 64 := by
  have hlen : (g.DataWriteGuid.bytes ++ g.LogGuid.bytes).length = 32 := by
    rw [List.length_append, VhdxGUID.size, VhdxGUID.size]
  have hdrop : (v.setGuids g).nextHeader.bytes.drop 64 = ((v.setGuids g).nextHeader.bytes.drop 32).drop 32 := by
    rw [List.drop_drop]
  rw [hdrop, drop_nextHeader, ← List.append_assoc, List.drop_left' hlen]

/-- A header that was written up to some byte behind its checksum, and that is
wrong in one byte, is invalid. -/
theorem invalid_of_one_byte {next torn : VhdxHeader} {front xs zs : Bytes} {a b : UInt8} (hvalid : checkHeader next = true)
    (hfront : 8 ≤ front.length) (hnext : next.bytes = front ++ (xs ++ a :: zs)) (htorn : torn.bytes = front ++ (xs ++ b :: zs))
    (hab : a ≠ b) : checkHeader torn = false := by
  have hchecksum : torn.Checksum = next.Checksum := by
    rw [VhdxHeader.Checksum, VhdxHeader.Checksum, hnext, htorn, slice_append_left _ (by omega), slice_append_left _ (by omega)]
  have hzero (h : VhdxHeader) {rest : Bytes} (hbytes : h.bytes = front ++ rest) :
      (h.setChecksum 0).bytes = overwrite 0 front 4 (leBytes 4 0) ++ rest := by
    show overwrite 0 h.bytes 4 (leBytes 4 0) = _
    rw [hbytes]
    exact overwrite_append_left 0 (by rw [length_leBytes]; omega) rest
  rw [checkHeader, decide_eq_true_iff] at hvalid
  rw [checkHeader, decide_eq_false_iff_not]
  rintro ⟨-, hcrc⟩
  have hsame := UInt32.toNat_inj.mp (hcrc.trans (hchecksum.trans hvalid.2.symm))
  rw [hzero _ hnext, hzero _ htorn, ← List.append_assoc, ← List.append_assoc] at hsame
  exact hab (crc32c_inj hsame).symm

section Tears

variable {g₀ g₁ : Guids} {xs zs : Bytes} {a b : UInt8}

/-- The header is interrupted in front of its second GUID, of which one byte is
different from the header that was in the slot. -/
theorem torn_invalid (h : Current v) (hseq : v.curr_header.SequenceNumber + 3 < 2 ^ 64)
    (hlog : g₁.LogGuid = g₀.LogGuid) (hg₀ : g₀.DataWriteGuid.bytes = xs ++ b :: zs)
    (hg₁ : g₁.DataWriteGuid.bytes = xs ++ a :: zs) (hab : a ≠ b) {torn : VhdxHeader}
    (htorn : TornSlot (v.updates [g₀, g₀]) g₁ 32 torn) :
    checkHeader torn = false ∧ torn.SequenceNumber = v.curr_header.SequenceNumber + 3 := by
  have hone := h.update g₀ (by omega)
  obtain ⟨htwo, hnumber⟩ := h.updates [g₀, g₀] (by simp only [List.length_cons, List.length_nil]; omega)
  have hvalid := checkHeader_nextHeader (v.updates [g₀, g₀]) g₁ (ident_of_checkHeader htwo.valid)
  have hnext := SequenceNumber_nextHeader (v.updates [g₀, g₀]) g₁ (by
    rw [hnumber]
    simp only [List.length_cons, List.length_nil]
    omega)
  have hfront : (((v.updates [g₀, g₀]).setGuids g₁).nextHeader.bytes.take 32).length = 32 := by
    rw [List.length_take, VhdxHeader.size]
    rfl
  have hslot := (slots_of_write htwo.length htwo.pos (hfront.trans_le (by omega))).2.2.2
  have hbefore : slice (v.updates [g₀, g₀]).file (v.updates [g₀, g₀]).curr_header_pos 4096 =
      (v.setGuids g₀).nextHeader.bytes := by
    have hupdates : v.updates [g₀, g₀] = ((v.setGuids g₀).updateHeader.setGuids g₀).updateHeader := by
      rw [updates_cons, updates_cons, HeaderFile.updates, List.foldl_nil]
    rw [hupdates, readSlot_eq_some.mp (hone.slot_before_update g₀), updateHeader_setGuids]
  have hrest : (v.updates [g₀, g₀]).curr_header.bytes.drop 64 = v.curr_header.bytes.drop 64 :=
    (drop_nextHeader_rest (v.setGuids g₀).updateHeader g₀).trans (drop_nextHeader_rest v g₀)
  have htornBytes : torn.bytes = ((v.updates [g₀, g₀]).setGuids g₁).nextHeader.bytes.take 32 ++
      (xs ++ b :: (zs ++ (g₀.LogGuid.bytes ++ v.curr_header.bytes.drop 64))) := by
    rw [hfront, hbefore, drop_nextHeader, hg₀, List.append_assoc, List.cons_append] at hslot
    exact (readSlot_eq_some.mp htorn).symm.trans hslot
  have hnextBytes : ((v.updates [g₀, g₀]).setGuids g₁).nextHeader.bytes =
      ((v.updates [g₀, g₀]).setGuids g₁).nextHeader.bytes.take 32 ++
      (xs ++ a :: (zs ++ (g₀.LogGuid.bytes ++ v.curr_header.bytes.drop 64))) := by
    have hsplit := List.take_append_drop 32 ((v.updates [g₀, g₀]).setGuids g₁).nextHeader.bytes
    rw [drop_nextHeader, hrest, hg₁, hlog, List.append_assoc, List.cons_append] at hsplit
    exact hsplit.symm
  refine ⟨invalid_of_one_byte hvalid (by omega) hnextBytes htornBytes hab, ?_⟩
  have hseq' : torn.SequenceNumber = ((v.updates [g₀, g₀]).setGuids g₁).nextHeader.SequenceNumber := by
    rw [VhdxHeader.SequenceNumber, VhdxHeader.SequenceNumber, htornBytes, slice_append_left _ (by omega), hnextBytes,
      slice_append_left _ (by omega), ← hnextBytes]
  rw [hseq', hnext, hnumber]
  rfl

end Tears

end Invalid

section Images

theorem SequenceNumber_createNew (FileWriteGuid DataWriteGuid : VhdxGUID) :
    (createNew FileWriteGuid DataWriteGuid).curr_header.SequenceNumber = 1 := by
  have hfields : slice (newFields FileWriteGuid DataWriteGuid).bytes 8 8 =
      slice ((VhdxHeader.zero.put 0 head_ident (by decide)).setSequenceNumber 1).bytes 8 8 := by
    simp only [newFields, VhdxHeader.setGuids]
    rw [slice_put _ _ (by omega) (by simp), slice_put _ _ (by omega) (by simp), slice_put _ _ (by omega) (by simp),
      slice_put _ _ (by omega) (by simp)]
  have hnumber : (newFields FileWriteGuid DataWriteGuid).SequenceNumber = 1 := by
    have hset := SequenceNumber_setSequenceNumber (VhdxHeader.zero.put 0 head_ident (by decide)) 1
    rw [VhdxHeader.SequenceNumber] at hset
    rw [VhdxHeader.SequenceNumber, hfields, hset]
    rfl
  rw [createNew, newHeader, SequenceNumber_setChecksum, hnumber]

/-- GUIDs of which one is told by its first byte. -/
def guidsOf (b : UInt8) : Guids :=
  let guid (b : UInt8) : VhdxGUID := ⟨b :: List.replicate 15 0, by simp⟩
  ⟨guid 1, guid b, guid 0⟩

theorem guidsOf_bytes (b : UInt8) : (guidsOf b).DataWriteGuid.bytes = [] ++ b :: List.replicate 15 0 := by
  rw [guidsOf, List.nil_append]

def newImage : HeaderFile :=
  createNew (guidsOf 2).FileWriteGuid (guidsOf 2).DataWriteGuid

theorem starts_newImage : Starts newImage :=
  Starts.created _ _

theorem current_newImage : Current newImage :=
  starts_newImage.current

theorem SequenceNumber_newImage : newImage.curr_header.SequenceNumber = 1 := by
  rw [newImage, SequenceNumber_createNew]

theorem updates_append (v : HeaderFile) (gs hs : List Guids) : (v.updates gs).updates hs = v.updates (gs ++ hs) :=
  List.foldl_append.symm

/-- The slots are written in turn. -/
theorem pos_updates {v : HeaderFile} (hpos : IsPos v.curr_header_pos) (gs : List Guids) :
    (v.updates gs).curr_header_pos =
      if gs.length % 2 = 0 then v.curr_header_pos else otherPos v.curr_header_pos := by
  induction gs generalizing v with
  | nil => rfl
  | cons g gs ih =>
    have hother : (v.setGuids g).updateHeader.curr_header_pos = otherPos v.curr_header_pos := by
      rw [updateHeader_setGuids]
    rw [updates_cons, ih (by rw [hother]; exact hpos.other), hother, hpos.otherPos_otherPos, List.length_cons]
    split
    · rw [if_neg (by omega)]
    · rw [if_pos (by omega)]

theorem pos_newImage_updates (gs : List Guids) : (newImage.updates gs).curr_header_pos =
    if gs.length % 2 = 0 then 64 * 1024 else 128 * 1024 :=
  pos_updates current_newImage.pos gs

/-- The second GUID is not written before the interruption. -/
theorem torn_newImage {v : HeaderFile} (h : Current v) (hseq : v.curr_header.SequenceNumber + 3 < 2 ^ 64)
    {torn : VhdxHeader} (htorn : TornSlot (v.updates [guidsOf 2, guidsOf 2]) (guidsOf 3) 32 torn) :
    checkHeader torn = false ∧ torn.SequenceNumber = v.curr_header.SequenceNumber + 3 := by
  have hlog : (guidsOf 3).LogGuid = (guidsOf 2).LogGuid := by rw [guidsOf, guidsOf]
  exact torn_invalid h hseq hlog (guidsOf_bytes 2) (guidsOf_bytes 3) (by decide) htorn

/-- After updates that were completed, an interrupted one loses nothing exactly
where it did not write a sequence number to the first slot before its checksum
holds. -/
theorem survives_iff {v : HeaderFile} (hstart : Starts v) (gs : List Guids) (g : Guids) (k : Nat)
    (hseq : v.curr_header.SequenceNumber + gs.length + 1 < 2 ^ 64) (htells : ChecksumTells (v.updates gs) g k) :
    Survives (v.updates gs) g k ↔ NotAhead (v.updates gs) g k := by
  obtain ⟨hcurrent, hnumber⟩ := hstart.current.updates gs (by omega)
  obtain hpos | hpos := hcurrent.pos
  · exact survives_first hcurrent (by omega) hpos htells
  · refine iff_of_true (survives_second hcurrent (by omega) hpos htells) fun hfirst => ?_
    rw [hpos] at hfirst
    omega

/-- The second slot is torn. -/
theorem survives_second_slot : Survives (newImage.updates [guidsOf 2, guidsOf 2, guidsOf 2]) (guidsOf 3) 32 := by
  have hseq := SequenceNumber_newImage
  obtain ⟨hone, hnumber⟩ := current_newImage.updates [guidsOf 2] (by
    rw [hseq]
    decide)
  have hsplit : newImage.updates [guidsOf 2, guidsOf 2, guidsOf 2] =
      (newImage.updates [guidsOf 2]).updates [guidsOf 2, guidsOf 2] := by
    rw [updates_append, List.singleton_append]
  refine (survives_iff starts_newImage [guidsOf 2, guidsOf 2, guidsOf 2] (guidsOf 3) 32 ?_ ?_).mpr ?_
  · rw [hseq]
    decide
  · intro torn htorn hvalid
    rw [hsplit] at htorn
    rw [(torn_newImage hone (by rw [hnumber, hseq]; decide) htorn).1] at hvalid
    cases hvalid
  · intro hpos
    rw [pos_newImage_updates, if_neg (by decide)] at hpos
    omega

/-- The first slot is torn, with the new sequence number in front of its old GUID. -/
theorem not_survives_first_slot : ¬ Survives (newImage.updates [guidsOf 2, guidsOf 2]) (guidsOf 3) 32 := by
  have hseq := SequenceNumber_newImage
  obtain ⟨htwo, hnumber⟩ := current_newImage.updates [guidsOf 2, guidsOf 2] (by
    rw [hseq]
    decide)
  rw [hseq] at hnumber
  have hinvalid : ∀ torn, TornSlot (newImage.updates [guidsOf 2, guidsOf 2]) (guidsOf 3) 32 torn →
      checkHeader torn = false ∧ torn.SequenceNumber = 4 := by
    intro torn htorn
    have htears := torn_newImage current_newImage (by rw [hseq]; decide) htorn
    rw [hseq] at htears
    exact htears
  have hfirst : (newImage.updates [guidsOf 2, guidsOf 2]).curr_header_pos = 64 * 1024 :=
    (pos_newImage_updates [guidsOf 2, guidsOf 2]).trans (if_pos (by decide))
  have htells : ChecksumTells (newImage.updates [guidsOf 2, guidsOf 2]) (guidsOf 3) 32 := by
    intro torn htorn hvalid
    rw [(hinvalid torn htorn).1] at hvalid
    cases hvalid
  rw [survives_first htwo (by rw [hnumber]; decide) hfirst htells]
  intro hahead
  obtain ⟨torn, htorn⟩ := tornSlot_exists htwo
  obtain ⟨hcheck, hfour⟩ := hinvalid torn htorn
  obtain hvalid | hlt := hahead hfirst torn htorn
  · rw [hcheck] at hvalid
    cases hvalid
  · rw [hnumber, hfour] at hlt
    exact absurd hlt (by decide)

end Images

end urbackup.vhdxheader
