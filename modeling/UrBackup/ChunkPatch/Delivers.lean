import UrBackup.ChunkPatch.PatchedFile

namespace urbackup.chunkpatch

open stringtools filedata steps

section Format

theorem int64_leBytes {n : Nat} (h : n < 2 ^ 63) : int64 (leBytes 8 n) = n := by
  have hmod : (BitVec.ofNat 64 n).toNat = n := by
    rw [BitVec.toNat_ofNat, Nat.mod_eq_of_lt (by omega)]
  rw [int64, leValue_leBytes (by omega), BitVec.toInt_eq_toNat_of_lt (by omega), hmod]

/-- Where a record is skipped. -/
theorem int64_minusOne : int64 (leBytes 8 (2 ^ 64 - 1)) = -1 := by
  decide

theorem encode_cons (e : Entry) (todo : List Entry) : encode (e :: todo) = e.encode ++ encode todo := by
  rw [encode, List.flatMap_cons]
  rfl

theorem records_append (entries entries' : List Entry) : records (entries ++ entries') = records entries ++ records entries' :=
  List.filterMap_append

variable {content : Bytes} {pos : Nat} {e : Entry} {todo : List Entry}

/-- The numbers in front of an entry's data. -/
theorem header_encode (h : content.drop pos = encode (e :: todo)) (hdata : e.data.length < 2 ^ 32) :
    pos + 12 ≤ content.length ∧ slice content pos 8 = leBytes 8 e.off ∧ leValue (slice content (pos + 8) 4) = e.data.length ∧
      content.drop (pos + 12) = e.data ++ encode todo := by
  have hsplit : content.drop pos = leBytes 8 e.off ++ (leBytes 4 e.data.length ++ (e.data ++ encode todo)) := by
    rw [h, encode_cons, Entry.encode]
    simp only [List.append_assoc]
  have hlen := congrArg List.length hsplit
  simp only [List.length_drop, List.length_append, length_leBytes] at hlen
  refine ⟨by omega, ?_, ?_, ?_⟩
  · rw [slice, hsplit, List.take_left' (length_leBytes 8 _)]
  · have hdrop : content.drop (pos + 8) = leBytes 4 e.data.length ++ (e.data ++ encode todo) := by
      rw [← List.drop_drop, hsplit, List.drop_left' (length_leBytes 8 _)]
    rw [slice, hdrop, List.take_left' (length_leBytes 4 _), leValue_leBytes (by omega)]
  · rw [← List.drop_drop, hsplit, ← List.append_assoc]
    apply List.drop_left'
    simp

/-- The search goes to the next record, past those that are skipped. -/
theorem readNextValidPatch_encode (hdata : ∀ e ∈ todo, e.data.length < 2 ^ 32) (hoff : ∀ r ∈ records todo, r.off < 2 ^ 63)
    (h : content.drop pos = encode todo) :
    (records todo = [] ∧ ∃ pos', readNextValidPatch ⟨content, pos⟩ = (false, ⟨-1, 0⟩, ⟨content, pos'⟩)) ∨
    ∃ skips r later pos', todo = skips ++ .patch r :: later ∧ records skips = [] ∧
      readNextValidPatch ⟨content, pos⟩ = (true, ⟨r.off, r.data.length⟩, ⟨content, pos'⟩) ∧
      content.drop pos' = r.data ++ encode later := by
  induction todo generalizing pos with
  | nil =>
    have hshort : content.length < pos + 12 := by
      have := List.drop_eq_nil_iff.mp h
      omega
    refine Or.inl ⟨rfl, ((⟨content, pos⟩ : IFile).Read 12).2.pos, ?_⟩
    rw [readNextValidPatch, if_pos hshort]
    rfl
  | cons e todo ih =>
    obtain ⟨hlong, hfirst, hsize, hrest⟩ := header_encode h (hdata e (by simp))
    cases e with
    | skipped data =>
      have hnext : content.drop (pos + 12 + data.length) = encode todo := by
        rw [← List.drop_drop, hrest]
        exact List.drop_left
      have hread : readNextValidPatch ⟨content, pos⟩ = readNextValidPatch ⟨content, pos + 12 + data.length⟩ := by
        rw [readNextValidPatch, if_neg (by simpa using hlong)]
        simp only [hfirst, hsize, Entry.off, int64_minusOne, if_true, Entry.data]
        rfl
      obtain ⟨hnil, pos', hnone⟩ | ⟨skips, r, later, pos', rfl, hskips, hsome, hlater⟩ :=
        ih (fun e he => hdata e (by simp [he])) (fun r hr => hoff r (by simpa [records, Entry.record?] using hr)) hnext
      · exact Or.inl ⟨by simpa [records, Entry.record?] using hnil, pos', hread.trans hnone⟩
      · exact Or.inr ⟨.skipped data :: skips, r, later, pos', rfl, by simpa [records, Entry.record?] using hskips,
          hread.trans hsome, hlater⟩
    | patch r =>
      have hpos := hoff r (by simp [records, Entry.record?])
      have hread : readNextValidPatch ⟨content, pos⟩ = (true, ⟨r.off, r.data.length⟩, ⟨content, pos + 12⟩) := by
        have hvalue : (r.off : Int) ≠ -1 := by omega
        rw [readNextValidPatch, if_neg (by simpa using hlong)]
        simp only [hfirst, hsize, Entry.off, Entry.data, IFile.Seek, int64_leBytes hpos, if_neg hvalue]
      exact Or.inr ⟨[], r, todo, pos + 12, rfl, rfl, hread, hrest⟩

end Format

section Blocks

variable {align : Nat} {front later : List Record} {r : Record} {p : Nat}

theorem roundDown_natCast (n : Nat) : roundDown n align = (n / align * align : Nat) := by
  rw [roundDown, Int.tdiv_eq_ediv_of_nonneg (Int.natCast_nonneg n)]
  push_cast
  rfl

theorem roundUp_natCast (halign : align ≠ 0) (n : Nat) : roundUp n align = ((n + align - 1) / align * align : Nat) := by
  have hsum : (n + align - 1 : Int) = (n + align - 1 : Nat) := by omega
  rw [roundUp, hsum, Int.tdiv_eq_ediv_of_nonneg (Int.natCast_nonneg _)]
  push_cast
  rfl

end Blocks

/-- A position in the blocks around the next record. -/
def InWindow (s : PatchState) (p : Nat) : Prop :=
  s.unchanged_align_start ≠ -1 ∧ s.unchanged_align_end_next ≠ -1 ∧ s.unchanged_align_start ≤ p ∧
    p < s.unchanged_align_end_next

/-- A position in the last block of the record before. -/
def InLast (s : PatchState) (p : Nat) : Prop :=
  s.unchanged_align_end ≠ -1 ∧ p < s.unchanged_align_end

section Cut

variable {cp : ChunkPatcher} {s : PatchState} {tr p : Nat}

end Cut

/-- What is known of the records before the position. -/
structure Passed (cp : ChunkPatcher) (front : List Entry) (file_pos : Nat) (s : PatchState) : Prop where
  stop_le : ∀ r ∈ records front, r.stop ≤ file_pos
  last_iff : cp.unchanged_align ≠ 0 → ∀ p, file_pos ≤ p → (InLast s p ↔ Touched cp.unchanged_align (records front) p)

/-- The window is that of the record before. -/
def OldWindow (cp : ChunkPatcher) (s : PatchState) : Prop :=
  cp.unchanged_align ≠ 0 → ∀ p, s.file_pos ≤ p → InWindow s p → InLast s p

/-- What has been handed on. -/
structure Output (cp : ChunkPatcher) (old : Bytes) (filesize : Nat) (entries : List Entry) (s : PatchState) : Prop where
  content : s.file.content = old
  size : s.filesize = filesize
  extents : s.extents = []
  file_pos : s.file_pos ≤ filesize
  view : view s.output = (List.range s.file_pos).map (wanted cp old (records entries))

/-- The next record, or that there is none. -/
inductive Next (cp : ChunkPatcher) (entries front : List Entry) (s : PatchState) : Prop
  | record (r : Record) (later : List Entry) (hentries : entries = front ++ .patch r :: later)
      (hheader : s.has_header = true) (hoff : s.next_header.patch_off = r.off)
      (hsize : s.next_header.patch_size = r.data.length) (hrest : s.rest = r.data ++ encode later)
      (hpos : s.file_pos ≤ r.off)
      (hwindow : cp.unchanged_align ≠ 0 →
        s.unchanged_align_start = (r.off / cp.unchanged_align * cp.unchanged_align : Nat) ∧
        s.unchanged_align_end_next = ((r.stop + cp.unchanged_align - 1) / cp.unchanged_align * cp.unchanged_align : Nat))
  | none (hrecords : records entries = records front) (hheader : s.has_header = false)
      (hoff : s.next_header.patch_off = -1) (hwindow : OldWindow cp s)

/-- A state of the call on a valid patch file. -/
inductive Walk (cp : ChunkPatcher) (old : Bytes) (filesize : Nat) (entries : List Entry) : PatchState → Prop
  | search {s : PatchState} {front todo : List Entry} (hphase : s.phase = .head) (houtput : Output cp old filesize entries s)
      (hpassed : Passed cp front s.file_pos s) (hentries : entries = front ++ todo) (hheader : s.has_header = true)
      (hoff : s.next_header.patch_off = -1) (hrest : s.rest = encode todo) (hpos : ∀ r ∈ records todo, s.file_pos ≤ r.off)
      (hwindow : OldWindow cp s) : Walk cp old filesize entries s
  | known {s : PatchState} {front : List Entry} (hphase : s.phase = .head) (houtput : Output cp old filesize entries s)
      (hpassed : Passed cp front s.file_pos s) (hnext : Next cp entries front s) : Walk cp old filesize entries s
  | copying {s : PatchState} {front : List Entry} {tr : Nat} (hphase : s.phase = .copying tr)
      (houtput : Output cp old filesize entries s) (hpassed : Passed cp front s.file_pos s) (hnext : Next cp entries front s) :
      Walk cp old filesize entries s
  | patching {s : PatchState} {front : List Entry} {r : Record} {later : List Entry} {j : Nat}
      (hphase : s.phase = .patching false) (houtput : Output cp old filesize entries s)
      (hentries : entries = front ++ .patch r :: later) (hheader : s.has_header = true) (hj : j ≤ r.data.length)
      (hpos : s.file_pos = r.off + j) (hsize : s.next_header.patch_size = r.data.length - j)
      (hrest : s.rest = r.data.drop j ++ encode later) (hbefore : ∀ r' ∈ records front, r'.stop ≤ r.off)
      (hend : cp.unchanged_align ≠ 0 → s.unchanged_align_end_next = s.unchanged_align_end ∧
        s.unchanged_align_end = ((r.stop + cp.unchanged_align - 1) / cp.unchanged_align * cp.unchanged_align : Nat)) :
      Walk cp old filesize entries s

section Walk

variable {cp : ChunkPatcher} {old : Bytes} {filesize : Nat} {entries front : List Entry} {s : PatchState}

theorem records_cons (r : Record) (later : List Entry) : records (.patch r :: later) = r :: records later :=
  rfl

/-- A state further on before the same record. -/
structure Copied (s s' : PatchState) : Prop where
  has_header : s'.has_header = s.has_header
  next_header : s'.next_header = s.next_header
  patch : s'.patch = s.patch
  unchanged_align_start : s'.unchanged_align_start = s.unchanged_align_start
  unchanged_align_end_next : s'.unchanged_align_end_next = s.unchanged_align_end_next
  file_pos : s.file_pos ≤ s'.file_pos
  before_next : s.next_header.patch_off = -1 ∨ s'.file_pos ≤ s.next_header.patch_off
  last : ∀ p, s'.file_pos ≤ p → (InLast s' p ↔ InLast s p)

theorem Next.copied {s' : PatchState} (h : Next cp entries front s) (hc : Copied s s') : Next cp entries front s' := by
  cases h with
  | record r later hentries hheader hoff hsize hrest hle hwindow =>
    refine .record r later hentries (hc.has_header.trans hheader) ?_ ?_ ?_ ?_ ?_
    · rw [hc.next_header, hoff]
    · rw [hc.next_header, hsize]
    · rw [PatchState.rest, hc.patch]
      exact hrest
    · have := hc.before_next
      omega
    · rw [hc.unchanged_align_start, hc.unchanged_align_end_next]
      exact hwindow
  | none hrecords hheader hoff hwindow =>
    refine .none hrecords (hc.has_header.trans hheader) (by rw [hc.next_header, hoff]) fun halign p hp hin => ?_
    rw [hc.last p hp]
    refine hwindow halign p (Nat.le_trans hc.file_pos hp) ?_
    unfold InWindow at hin ⊢
    rwa [hc.unchanged_align_start, hc.unchanged_align_end_next] at hin

theorem Passed.copied {s' : PatchState} (h : Passed cp front s.file_pos s) (hc : Copied s s') :
    Passed cp front s'.file_pos s' := by
  refine ⟨fun r hr => Nat.le_trans (h.stop_le r hr) hc.file_pos, fun halign p hp => ?_⟩
  rw [hc.last p hp]
  exact h.last_iff halign p (Nat.le_trans hc.file_pos hp)

/-- All of the patched file has been handed on. -/
def Delivered (cp : ChunkPatcher) (old : Bytes) (filesize : Nat) (entries : List Entry) (result : Bool × List Piece) : Prop :=
  result.1 = true ∧ view result.2 = (List.range filesize).map (wanted cp old (records entries))

end Walk

end urbackup.chunkpatch
