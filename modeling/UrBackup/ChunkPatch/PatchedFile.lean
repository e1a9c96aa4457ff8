import UrBackup.ChunkPatch.Terminates

namespace urbackup.chunkpatch

open stringtools filedata

/-- A record of a patch file: the bytes from an offset on. -/
structure Record where
  off : Nat
  data : Bytes
deriving DecidableEq

def Record.stop (r : Record) : Nat :=
  r.off + r.data.length

/-- What a patch file has behind its file size; the offset of a record that is not to
be applied is -1. -/
inductive Entry where
  | patch (r : Record)
  | skipped (data : Bytes)

namespace Entry

def data : Entry → Bytes
  | patch r => r.data
  | skipped data => data

def record? : Entry → Option Record
  | patch r => some r
  | skipped _ => none

/-- `-1` has all bits set. -/
def off : Entry → Nat
  | patch r => r.off
  | skipped _ => 2 ^ 64 - 1

def encode (e : Entry) : Bytes :=
  leBytes 8 e.off ++ leBytes 4 e.data.length ++ e.data

end Entry

def records (entries : List Entry) : List Record :=
  entries.filterMap Entry.record?

def encode (entries : List Entry) : Bytes :=
  entries.flatMap Entry.encode

/-- The byte of the patched file at a position. -/
def patched (old : Bytes) (rs : List Record) (p : Nat) : Option UInt8 :=
  match rs.find? fun r => r.off ≤ p ∧ p < r.stop with
  | some r => r.data[p - r.off]?
  | none => old[p]?

/-- The block of a position lies between the one in which a record begins and the one in
which it ends. -/
def Record.Touches (align : Nat) (r : Record) (p : Nat) : Prop :=
  r.off / align ≤ p / align ∧ p / align * align < r.stop

def Touched (align : Nat) (rs : List Record) (p : Nat) : Prop :=
  ∃ r ∈ rs, r.Touches align p

instance (align : Nat) (r : Record) (p : Nat) : Decidable (r.Touches align p) :=
  inferInstanceAs (Decidable (_ ∧ _))

instance (align : Nat) (rs : List Record) (p : Nat) : Decidable (Touched align rs p) :=
  inferInstanceAs (Decidable (∃ r ∈ rs, _))

/-- The bytes that are handed on, position by position, `none` for those left out. -/
def view (output : List Piece) : List (Option UInt8) :=
  output.flatMap fun
    | .bytes buf _ => buf.map some
    | .unchanged bsize => List.replicate bsize none
    | .sparse bsize => List.replicate bsize none

/-- What is to be handed on: the patched file, without the blocks that no record touches
where unchanged data is not required. -/
def wanted (cp : ChunkPatcher) (old : Bytes) (rs : List Record) (p : Nat) : Option UInt8 :=
  if cp.require_unchanged = true ∨ Touched cp.unchanged_align rs p then patched old rs p else none

section Records

variable {old : Bytes} {rs before after : List Record} {r : Record} {p : Nat}

theorem patched_of_not_mem (h : ∀ r ∈ rs, ¬ (r.off ≤ p ∧ p < r.stop)) : patched old rs p = old[p]? := by
  have hnone : rs.find? (fun r => decide (r.off ≤ p ∧ p < r.stop)) = none := by
    rw [List.find?_eq_none]
    simpa using h
  rw [patched, hnone]

end Records

/-- The bytes of a record with their positions. -/
def Record.cells (r : Record) : List (UInt8 × Nat) :=
  r.data.zipIdx r.off

def cells (rs : List Record) : List (UInt8 × Nat) :=
  rs.flatMap Record.cells

/-- The records put the same bytes at the same positions as the writes, in their order,
and begin and end where writes do. -/
structure Merges (writes rs : List Record) : Prop where
  cells_eq : cells rs = cells writes
  sorted : rs.Pairwise fun r r' => r.stop ≤ r'.off
  starts : ∀ r ∈ rs, ∃ w ∈ writes, w.off = r.off
  stops : ∀ r ∈ rs, ∃ w ∈ writes, w.stop = r.stop

section Cells

variable {rs rs' : List Record} {r : Record} {p : Nat}

theorem cells_append (rs rs' : List Record) : cells (rs ++ rs') = cells rs ++ cells rs' :=
  List.flatMap_append

theorem cells_cons (r : Record) (rs : List Record) : cells (r :: rs) = r.cells ++ cells rs :=
  List.flatMap_cons

/-- A record's byte is the first of its cells with the position. -/
theorem find?_record_cells (hoff : r.off ≤ p) (hstop : p < r.stop) :
    (r.cells.find? fun c => c.2 = p).map Prod.fst = r.data[p - r.off]? := by
  obtain ⟨off, data⟩ := r
  simp only [Record.cells, Record.stop] at hoff hstop ⊢
  induction data generalizing off with
  | nil =>
    simp only [List.length_nil] at hstop
    omega
  | cons b data ih =>
    rw [List.zipIdx_cons]
    by_cases hp : off = p
    · rw [List.find?_cons_of_pos (by simpa using hp)]
      simp [hp]
    · have hnext : p - off = (p - (off + 1)) + 1 := by omega
      rw [List.find?_cons_of_neg (by simpa using hp), hnext, List.getElem?_cons_succ]
      apply ih
      · omega
      · simp only [List.length_cons] at hstop
        omega

theorem find?_record_cells_none (h : ¬ (r.off ≤ p ∧ p < r.stop)) : (r.cells.find? fun c => c.2 = p) = none := by
  rw [List.find?_eq_none]
  intro c hc hp
  have hbounds := List.mem_zipIdx hc
  simp only [decide_eq_true_eq] at hp
  simp only [Record.stop] at h
  omega

/-- The patched file depends on the cells alone. -/
theorem patched_eq_cells (old : Bytes) (rs : List Record) (p : Nat) :
    patched old rs p = match (cells rs).find? fun c => c.2 = p with
      | some c => some c.1
      | none => old[p]? := by
  induction rs with
  | nil => rfl
  | cons r rs ih =>
    rw [cells_cons, List.find?_append]
    by_cases hp : r.off ≤ p ∧ p < r.stop
    · have hcell := find?_record_cells hp.1 hp.2
      have hlt : p - r.off < r.data.length := by
        have hstop : r.stop = r.off + r.data.length := rfl
        omega
      rw [List.getElem?_eq_getElem hlt] at hcell
      obtain ⟨c, hfind, hbyte⟩ := Option.map_eq_some_iff.mp hcell
      rw [patched, List.find?_cons_of_pos (by simpa using hp), hfind]
      simp [hlt, hbyte]
    · rw [find?_record_cells_none hp, Option.none_or, ← ih, patched, List.find?_cons_of_neg (by simpa using hp), patched]

theorem patched_congr (h : cells rs = cells rs') (old : Bytes) (p : Nat) : patched old rs p = patched old rs' p := by
  rw [patched_eq_cells, patched_eq_cells, h]

end Cells

namespace Merges

variable {writes writes' rs rs' : List Record} {w r : Record}

theorem nil : Merges [] [] :=
  ⟨rfl, List.Pairwise.nil, by simp, by simp⟩

theorem eq_nil (h : Merges [] rs) : rs = [] := by
  rw [List.eq_nil_iff_forall_not_mem]
  intro r hr
  obtain ⟨w, hw, _⟩ := h.starts r hr
  cases hw

/-- Records that follow each other, for writes that do. -/
theorem append (h : Merges writes rs) (h' : Merges writes' rs') (hbehind : ∀ w ∈ writes, ∀ w' ∈ writes', w.stop ≤ w'.off) :
    Merges (writes ++ writes') (rs ++ rs') := by
  refine ⟨?_, ?_, ?_, ?_⟩
  · rw [cells_append, cells_append, h.cells_eq, h'.cells_eq]
  · refine List.pairwise_append.mpr ⟨h.sorted, h'.sorted, fun r hr r' hr' => ?_⟩
    obtain ⟨w, hw, hstop⟩ := h.stops r hr
    obtain ⟨w', hw', hoff⟩ := h'.starts r' hr'
    rw [← hstop, ← hoff]
    exact hbehind w hw w' hw'
  · intro r hr
    obtain hr | hr := List.mem_append.mp hr
    · obtain ⟨w, hw, hoff⟩ := h.starts r hr
      exact ⟨w, List.mem_append_left _ hw, hoff⟩
    · obtain ⟨w, hw, hoff⟩ := h'.starts r hr
      exact ⟨w, List.mem_append_right _ hw, hoff⟩
  · intro r hr
    obtain hr | hr := List.mem_append.mp hr
    · obtain ⟨w, hw, hstop⟩ := h.stops r hr
      exact ⟨w, List.mem_append_left _ hw, hstop⟩
    · obtain ⟨w, hw, hstop⟩ := h'.stops r hr
      exact ⟨w, List.mem_append_right _ hw, hstop⟩

theorem single (w : Record) : Merges [w] [w] :=
  ⟨rfl, List.pairwise_singleton _ _, by simp, by simp⟩

/-- The next write as a record of its own. -/
theorem push (h : Merges writes rs) (hbehind : ∀ w' ∈ writes, w'.stop ≤ w.off) : Merges (writes ++ [w]) (rs ++ [w]) := by
  apply h.append (single w)
  simpa using hbehind

/-- The next write as part of the last record. -/
theorem extend (h : Merges writes (rs ++ [r])) (hnext : w.off = r.stop) :
    Merges (writes ++ [w]) (rs ++ [⟨r.off, r.data ++ w.data⟩]) := by
  have hstop : w.stop = (⟨r.off, r.data ++ w.data⟩ : Record).stop := by
    simp only [Record.stop, List.length_append] at hnext ⊢
    omega
  have hsorted := List.pairwise_append.mp h.sorted
  refine ⟨?_, ?_, ?_, ?_⟩
  · have hcells : (⟨r.off, r.data ++ w.data⟩ : Record).cells = r.cells ++ w.cells := by
      simp only [Record.cells, List.zipIdx_append, hnext, Record.stop]
    rw [cells_append writes, ← h.cells_eq, cells_append, cells_append, cells_cons, cells_cons, cells_cons, hcells]
    simp [cells]
  · refine List.pairwise_append.mpr ⟨hsorted.1, List.pairwise_singleton _ _, fun r' hr' r'' hr'' => ?_⟩
    rw [List.mem_singleton.mp hr'']
    exact hsorted.2.2 r' hr' r (by simp)
  · intro r' hr'
    obtain hr' | hr' := List.mem_append.mp hr'
    · obtain ⟨w', hw', hoff⟩ := h.starts r' (by simp [hr'])
      exact ⟨w', List.mem_append_left _ hw', hoff⟩
    · obtain ⟨w', hw', hoff⟩ := h.starts r (by simp)
      rw [List.mem_singleton.mp hr']
      exact ⟨w', List.mem_append_left _ hw', hoff⟩
  · intro r' hr'
    obtain hr' | hr' := List.mem_append.mp hr'
    · obtain ⟨w', hw', hoff⟩ := h.stops r' (by simp [hr'])
      exact ⟨w', List.mem_append_left _ hw', hoff⟩
    · rw [List.mem_singleton.mp hr']
      exact ⟨w, by simp, hstop⟩

end Merges

end urbackup.chunkpatch
