import UrBackup.ChunkPatch.RoundCases

namespace urbackup.chunkpatch

open stringtools filedata steps

/-- The position of a patch is come to: it is the current one, or the old file and the
patched one go on until there. -/
def Reached (size : Nat) (filesize : Int) (file_pos : Nat) (patch_off : Int) : Prop :=
  patch_off = file_pos ∨ file_pos < patch_off ∧ patch_off ≤ size ∧ patch_off ≤ filesize

/-- The rest of a patch file ends within the data of a patch whose position is come to.
A patch across the end of the patched file is cut there and is the last one. -/
def RunsOut (size : Nat) (filesize : Int) (file_pos : Nat) (rest : Bytes) : Prop :=
  if rest.length < 12 then False
  else
    let patch_off := int64 (slice rest 0 8)
    let patch_size := leValue (slice rest 8 4)
    let data := rest.drop 12
    if patch_off = -1 then RunsOut size filesize file_pos (data.drop patch_size)
    else
      Reached size filesize file_pos patch_off ∧
        if filesize < patch_off + patch_size then data.length < ((filesize - patch_off) % 2 ^ 32).toNat
        else patch_off < filesize ∧
          (data.length < patch_size ∨ RunsOut size filesize (patch_off + patch_size).toNat (data.drop patch_size))
termination_by rest.length
decreasing_by all_goals (simp only [List.length_drop]; omega)

/-- The same once the header of a patch has been read. -/
def PatchRunsOut (size : Nat) (filesize : Int) (file_pos : Nat) (header : SPatchHeader) (data : Bytes) : Prop :=
  Reached size filesize file_pos header.patch_off ∧
    if filesize < header.patch_off + header.patch_size then data.length < ((filesize - header.patch_off) % 2 ^ 32).toNat
    else header.patch_off < filesize ∧ (data.length < header.patch_size ∨
      RunsOut size filesize (header.patch_off + header.patch_size).toNat (data.drop header.patch_size))

/-- No patch of the file lacks some of its data. -/
def Complete (rest : Bytes) : Prop :=
  if rest.length < 12 then True
  else
    let patch_size := leValue (slice rest 8 4)
    (int64 (slice rest 0 8) = -1 ∨ patch_size ≤ (rest.drop 12).length) ∧ Complete ((rest.drop 12).drop patch_size)
termination_by rest.length
decreasing_by simp only [List.length_drop]; omega

/-- What the search for the next header comes to. -/
inductive NextPatch (patch : IFile) : Bool × SPatchHeader × IFile → Prop
  | none (pos : Nat) (hpos : patch.pos ≤ pos) (hruns : ∀ size filesize file_pos, ¬ RunsOut size filesize file_pos (patch.content.drop patch.pos)) :
      NextPatch patch (false, ⟨-1, 0⟩, ⟨patch.content, pos⟩)
  | some (header : SPatchHeader) (pos : Nat) (hpos : patch.pos + 12 ≤ pos) (hend : pos ≤ patch.content.length)
      (hoff : header.patch_off ≠ -1)
      (hruns : ∀ size filesize file_pos, RunsOut size filesize file_pos (patch.content.drop patch.pos) ↔
        PatchRunsOut size filesize file_pos header (patch.content.drop pos))
      (hcomplete : Complete (patch.content.drop patch.pos) → header.patch_size ≤ (patch.content.drop pos).length ∧
        Complete ((patch.content.drop pos).drop header.patch_size)) :
      NextPatch patch (true, header, ⟨patch.content, pos⟩)

theorem readNextValidPatch_cases (patch : IFile) : NextPatch patch (readNextValidPatch patch) := by
  induction patch using readNextValidPatch.induct with
  | case1 patch hshort =>
    rw [readNextValidPatch, if_pos hshort]
    refine .none _ (Nat.le_add_right _ _) fun size filesize file_pos => ?_
    rw [RunsOut, if_pos (by simp only [List.length_drop]; omega)]
    exact id
  | case2 patch hlong patch_off patch_size hoff ih =>
    rw [readNextValidPatch, if_neg hlong]
    simp only [patch_off] at hoff
    simp only [if_pos hoff]
    have hlen : ¬ (patch.content.drop patch.pos).length < 12 := by
      simp only [List.length_drop]
      omega
    have hskip : ∀ size filesize file_pos, RunsOut size filesize file_pos (patch.content.drop patch.pos) ↔
        RunsOut size filesize file_pos (patch.content.drop (patch.pos + 12 + patch_size)) := by
      intro size filesize file_pos
      rw [RunsOut, if_neg hlen]
      simp only [slice_drop, Nat.add_zero, if_pos hoff, List.drop_drop]
      exact Iff.rfl
    have hcomplete : Complete (patch.content.drop patch.pos) → Complete (patch.content.drop (patch.pos + 12 + patch_size)) := by
      rw [Complete, if_neg hlen]
      simp only [slice_drop, List.drop_drop]
      exact And.right
    have hpos : patch.pos ≤ patch.pos + 12 + patch_size := by omega
    revert ih
    generalize readNextValidPatch (patch.Seek (patch.pos + 12 + patch_size)) = r
    rintro (⟨pos, hle, hruns⟩ | ⟨header, pos, hle, hend, hoff, hruns, hall⟩)
    · refine .none pos (Nat.le_trans hpos hle) fun size filesize file_pos => ?_
      rw [hskip]
      exact hruns size filesize file_pos
    · refine .some header pos (by simp only [IFile.Seek] at hle; omega) hend hoff (fun size filesize file_pos => ?_)
        (hall ∘ hcomplete)
      rw [hskip]
      exact hruns size filesize file_pos
  | case3 patch hlong patch_off hoff =>
    rw [readNextValidPatch, if_neg hlong]
    simp only [patch_off] at hoff
    simp only [if_neg hoff]
    have hlen : ¬ (patch.content.drop patch.pos).length < 12 := by
      simp only [List.length_drop]
      omega
    refine .some _ _ (Nat.le_refl _) (by omega) hoff (fun size filesize file_pos => ?_) fun hall => ?_
    · rw [RunsOut, if_neg hlen]
      simp only [slice_drop, Nat.add_zero, if_neg hoff, List.drop_drop, PatchRunsOut]
    · rw [Complete, if_neg hlen] at hall
      simp only [slice_drop, Nat.add_zero, hoff, false_or, List.drop_drop] at hall
      simpa only [List.drop_drop] using hall

/-- What is known once the next header has been looked for. -/
inductive FetchCase (cp : ChunkPatcher) (s : PatchState) : PatchState → Prop
  | kept (hknown : s.has_header = true → s.next_header.patch_off ≠ -1) : FetchCase cp s s
  | none (pos : Nat) (hheader : s.has_header = true) (hoff : s.next_header.patch_off = -1)
      (hnext : NextPatch s.patch (false, ⟨-1, 0⟩, ⟨s.patch.content, pos⟩)) :
      FetchCase cp s { s with has_header := false, next_header := ⟨-1, 0⟩, patch := ⟨s.patch.content, pos⟩ }
  | some (header : SPatchHeader) (pos : Nat) (hheader : s.has_header = true) (hoff : s.next_header.patch_off = -1)
      (hnext : NextPatch s.patch (true, header, ⟨s.patch.content, pos⟩)) (unchanged_align_start unchanged_align_end_next : Int)
      (halign : cp.unchanged_align ≠ 0 → unchanged_align_start = roundDown header.patch_off cp.unchanged_align ∧
        unchanged_align_end_next = roundUp (header.patch_off + header.patch_size) cp.unchanged_align) :
      FetchCase cp s { s with
        next_header := header
        patch := ⟨s.patch.content, pos⟩
        unchanged_align_start, unchanged_align_end_next }

theorem fetchHeader_cases (cp : ChunkPatcher) (s : PatchState) : FetchCase cp s (cp.fetchHeader s) := by
  unfold ChunkPatcher.fetchHeader
  split
  next hcond =>
    obtain ⟨hheader, hoff⟩ := hcond
    have hcases := readNextValidPatch_cases s.patch
    generalize readNextValidPatch s.patch = r at hcases ⊢
    cases hcases with
    | none pos hpos hruns => exact .none pos hheader hoff (.none pos hpos hruns)
    | some header pos hpos hend hne hruns hcomplete =>
      have hnext := NextPatch.some header pos hpos hend hne hruns hcomplete
      dsimp only
      split
      next halign =>
        have hsome : FetchCase cp s _ := .some header pos hheader hoff hnext _ _ fun _ => ⟨rfl, rfl⟩
        rwa [hheader] at hsome
      next halign =>
        have hsome : FetchCase cp s _ := .some header pos hheader hoff hnext s.unchanged_align_start
          s.unchanged_align_end_next fun hne' => absurd ⟨hne, hne'⟩ halign
        rwa [hheader] at hsome
  next hcond => exact .kept fun hheader hoff => hcond ⟨hheader, hoff⟩

namespace PatchState

variable (s : PatchState)

def rest : Bytes :=
  s.patch.content.drop s.patch.pos

/-- The loop will wait for data that the patch file does not have. -/
def Fails : Prop :=
  match s.phase with
  | .patching patching_finished => s.rest.length < s.next_header.patch_size ∨ patching_finished = false ∧
      RunsOut s.file.content.length s.filesize (s.file_pos + s.next_header.patch_size) (s.rest.drop s.next_header.patch_size)
  | _ =>
    if s.next_header.patch_off = -1 then
      s.has_header = true ∧ RunsOut s.file.content.length s.filesize s.file_pos s.rest
    else PatchRunsOut s.file.content.length s.filesize s.file_pos s.next_header s.rest

/-- It waits. -/
def Stuck : Prop :=
  (∃ patching_finished, s.phase = .patching patching_finished) ∧ 0 < s.next_header.patch_size ∧ s.rest = []

/-- The patches left have all of their data. -/
def AllComplete : Prop :=
  match s.phase with
  | .patching patching_finished => s.next_header.patch_size ≤ s.rest.length ∧ (patching_finished = false →
      s.file_pos + s.next_header.patch_size ≤ s.filesize ∧ Complete (s.rest.drop s.next_header.patch_size))
  | _ => s.file_pos ≤ s.filesize ∧
    if s.next_header.patch_off = -1 then s.has_header = true → Complete s.rest
    else s.next_header.patch_size ≤ s.rest.length ∧ Complete (s.rest.drop s.next_header.patch_size)

/-- How much the rounds can still do. -/
def measure : Nat :=
  8 * (s.rest.length + (s.file.content.length - s.file_pos)) +
    match s.phase with
    | .head => if s.next_header.patch_off = -1 then 2 else 4
    | .patching _ => 3
    | .copying tr => if 0 < tr ∧ s.file_pos < s.file.content.length ∧ s.file_pos < s.filesize then 1 else 5

end PatchState

namespace ChunkPatcher

variable {cp : ChunkPatcher} {plain : Prop} {s : PatchState}

/-- What every round keeps; the search is `plain` if no sparse extents were given. -/
structure Sound (cp : ChunkPatcher) (plain : Prop) (s : PatchState) : Prop where
  extents : plain → s.extents = []
  blocks : s.extents ≠ [] → cp.FitsBlocks
  /-- a sparse range leaves the position of the old file behind -/
  behind : (∀ finished, s.phase ≠ .patching finished) → cp.require_unchanged = true →
    s.file.pos ≤ s.file_pos ∧ (plain → s.file.pos = s.file_pos)
  patching : ∀ finished, s.phase = .patching finished → s.has_header = true
  header : (∀ finished, s.phase ≠ .patching finished) → s.has_header = false → s.next_header.patch_off = -1
  copying : ∀ tr, s.phase = .copying tr → s.file_pos + tr ≤ s.filesize ∧
    (s.next_header.patch_off = -1 → s.has_header = false) ∧
    (s.file_pos ≤ s.next_header.patch_off → s.file_pos + tr ≤ s.next_header.patch_off)

/-- The rounds that follow end with the same, and are fewer. -/
structure Follows (plain : Prop) (s s' : PatchState) : Prop where
  fails : plain → (s'.Fails ↔ s.Fails)
  complete : s.AllComplete → s'.AllComplete
  lt : s'.measure < s.measure

theorem Reached.advance {size : Nat} {filesize : Int} {file_pos file_pos' : Nat} {patch_off : Int} (hle : file_pos ≤ file_pos')
    (hsize : file_pos' ≤ size) (hfilesize : file_pos' ≤ filesize) (hoff : file_pos ≤ patch_off → file_pos' ≤ patch_off) :
    Reached size filesize file_pos' patch_off ↔ Reached size filesize file_pos patch_off := by
  unfold Reached
  omega

theorem fetch_sound (hphase : s.phase = .head) (h : Sound cp plain s) :
    Sound cp plain (cp.fetchHeader s) ∧ ((cp.fetchHeader s).Fails ↔ s.Fails) ∧ (s.AllComplete → (cp.fetchHeader s).AllComplete) ∧
      (cp.fetchHeader s).measure ≤ s.measure ∧
      ((cp.fetchHeader s).next_header.patch_off = -1 → (cp.fetchHeader s).has_header = false) := by
  obtain ⟨hextents, hblocks, hbehind, hpatching, hheader, hcopying⟩ := h
  have hcases := fetchHeader_cases cp s
  generalize cp.fetchHeader s = s₁ at hcases ⊢
  cases hcases with
  | kept hknown =>
    refine ⟨⟨hextents, hblocks, hbehind, hpatching, hheader, hcopying⟩, Iff.rfl, id, Nat.le_refl _, fun hoff => ?_⟩
    simpa using fun h => hknown h hoff
  | none pos hh hoff hnext =>
    obtain ⟨_, hpos, hruns⟩ := hnext
    refine ⟨⟨hextents, hblocks, hbehind, ?_, fun _ _ => rfl, ?_⟩, ?_, ?_, ?_, fun _ => rfl⟩
    · simp [hphase]
    · simp [hphase]
    · simp [PatchState.Fails, hphase, hoff, hruns, PatchState.rest]
    · simp only [PatchState.AllComplete, hphase, hoff]
      exact fun hall => ⟨hall.1, by simp⟩
    · simp only [PatchState.measure, hphase, hoff, PatchState.rest, List.length_drop]
      simp only [↓reduceIte]
      omega
  | some header pos hh hoff hnext start end_next halign =>
    obtain _ | ⟨_, _, hpos, hend, hne, hruns, hcomplete⟩ := hnext
    refine ⟨⟨hextents, hblocks, hbehind, ?_, ?_, ?_⟩, ?_, ?_, ?_, fun h => absurd h hne⟩
    · simp [hphase]
    · simp [hh]
    · simp [hphase]
    · simp [PatchState.Fails, hphase, hoff, hne, hruns, PatchState.rest, hh]
    · simp only [PatchState.AllComplete, hphase, hoff, hne, PatchState.rest]
      exact fun hall => ⟨hall.1, hcomplete (hall.2 hh)⟩
    · simp only [PatchState.measure, hphase, hoff, hne, PatchState.rest, List.length_drop]
      simp only [↓reduceIte]
      omega

/-- A round that hands on patch data. -/
theorem patchRound_follows {finished : Bool} (hphase : s.phase = .patching finished) (h : Sound cp plain s) :
    (∃ r, cp.patchRound s finished = .done r ∧ ¬ s.Fails) ∨ (s.Stuck ∧ s.Fails ∧ ¬ s.AllComplete) ∨
      ∃ s', cp.patchRound s finished = .next s' ∧ Sound cp plain s' ∧ Follows plain s s' := by
  obtain ⟨hextents, hblocks, hbehind, hpatching, hheader, hcopying⟩ := h
  have hcases := patchRound_cases cp s finished
  generalize cp.patchRound s finished = r at hcases ⊢
  cases hcases with
  | read buf hsize hbuf =>
    by_cases hrest : s.rest = []
    · refine Or.inr (Or.inl ⟨⟨⟨finished, hphase⟩, hsize, hrest⟩, ?_, ?_⟩)
      · simp [PatchState.Fails, hphase, hrest, hsize]
      · simp only [PatchState.AllComplete, hphase, hrest, List.length_nil, not_and]
        omega
    · have hlen : buf.length = min (min buffer_size s.next_header.patch_size) s.rest.length := by
        rw [hbuf, length_slice, PatchState.rest, List.length_drop]
      have hpos : 0 < buf.length := by
        have hdata : 0 < s.rest.length := List.length_pos_iff.mpr hrest
        have hbuffer : 0 < buffer_size := by decide
        omega
      -- what is left to read from
      have hdrop : s.patch.content.drop (s.patch.pos + buf.length) = s.rest.drop buf.length := by
        rw [PatchState.rest, List.drop_drop]
      have hsum : s.file_pos + buf.length + (s.next_header.patch_size - buf.length) =
          s.file_pos + s.next_header.patch_size := by omega
      have hdata : buf.length + (s.next_header.patch_size - buf.length) = s.next_header.patch_size := by omega
      refine Or.inr (Or.inr ⟨_, rfl, ⟨hextents, hblocks, by simp [hphase], hpatching, by simp [hphase], by simp [hphase]⟩, ?_, ?_, ?_⟩)
      · intro _
        simp only [PatchState.Fails, hphase]
        rw [PatchState.rest, hdrop, List.drop_drop, hsum, hdata, List.length_drop]
        have hlt : s.rest.length - buf.length < s.next_header.patch_size - buf.length ↔
            s.rest.length < s.next_header.patch_size := by omega
        rw [hlt]
      · simp only [PatchState.AllComplete, hphase]
        rintro ⟨henough, hall⟩
        rw [PatchState.rest, hdrop, List.drop_drop, hdata, List.length_drop]
        refine ⟨by omega, fun hfinished => ⟨?_, (hall hfinished).2⟩⟩
        have hle := (hall hfinished).1
        omega
      · simp only [PatchState.measure, hphase]
        rw [PatchState.rest, hdrop, List.length_drop]
        omega
  | finish hsize hfinished => exact Or.inl ⟨_, rfl, by simp [PatchState.Fails, hphase, hsize, hfinished]⟩
  | back pos hsize hfinished hpos =>
    have hheader := hpatching finished hphase
    refine Or.inr (Or.inr ⟨_, rfl, ⟨hextents, hblocks, ?_, by simp, by simp [hheader], by simp⟩, ?_, ?_, ?_⟩)
    · intro _ hreq
      simp [hpos, hreq]
    · intro _
      simp [PatchState.Fails, hphase, hsize, hfinished, hheader, PatchState.rest]
    · intro hall
      simp only [PatchState.AllComplete, hphase, hsize, hfinished, List.drop_zero] at hall
      refine ⟨by simpa using (hall.2 trivial).1, ?_⟩
      simpa [PatchState.rest] using fun _ => (hall.2 trivial).2
    · simp [PatchState.measure, hphase, PatchState.rest]

/-- A position that is copied up to changes nothing of what comes. -/
theorem copied_follows {tr : Nat} {s' : PatchState} (hphase : s.phase = .copying tr) (h : Sound cp plain s)
    (hphase' : ∃ tr', s'.phase = .copying tr') (hfile : s'.file.content = s.file.content) (hpatch : s'.patch = s.patch)
    (hfilesize : s'.filesize = s.filesize) (hheader : s'.has_header = s.has_header) (hnext : s'.next_header = s.next_header)
    (hpos : s.file_pos < s'.file_pos) (hle : s'.file_pos ≤ s.file_pos + tr)
    (hprogress : s.file_pos < s.file.content.length ∧ s.file_pos < s.filesize)
    (hend : plain → s'.file_pos ≤ s.file.content.length) : Follows plain s s' := by
  obtain ⟨tr', hphase'⟩ := hphase'
  obtain ⟨hbound, hknown, hoff⟩ := h.copying tr hphase
  refine ⟨fun hplain => ?_, fun hall => ?_, ?_⟩
  · have hreached : Reached s.file.content.length s.filesize s'.file_pos s.next_header.patch_off ↔
        Reached s.file.content.length s.filesize s.file_pos s.next_header.patch_off :=
      Reached.advance (by omega) (hend hplain) (by omega) (by omega)
    simp only [PatchState.Fails, hphase, hphase', hfile, hfilesize, hheader, hnext, PatchState.rest, hpatch, PatchRunsOut,
      hreached]
    split
    next hnone => simp [hknown hnone]
    next => exact Iff.rfl
  · simp only [PatchState.AllComplete, hphase, hphase', hfilesize, hheader, hnext, PatchState.rest, hpatch] at hall ⊢
    exact ⟨by omega, hall.2⟩
  · have hweight : (if 0 < tr' ∧ s'.file_pos < s'.file.content.length ∧ s'.file_pos < s'.filesize then 1 else 5) ≤ 5 := by
      split <;> omega
    have hone : (if 0 < tr ∧ s.file_pos < s.file.content.length ∧ s.file_pos < s.filesize then 1 else 5) = 1 :=
      if_pos ⟨by omega, hprogress⟩
    simp only [PatchState.measure, hphase, hphase', PatchState.rest, hpatch, hfile, hone] at hweight ⊢
    omega

theorem copyRound_follows {tr : Nat} (hphase : s.phase = .copying tr) (h : Sound cp plain s) :
    ∃ s', cp.copyRound s tr = .next s' ∧ Sound cp plain s' ∧ Follows plain s s' := by
  have hcases := copyRound_cases cp s tr
  generalize cp.copyRound s tr = r at hcases ⊢
  have hnot : ∀ finished, s.phase ≠ .patching finished := by simp [hphase]
  obtain ⟨hbound, hknown, hoff⟩ := h.copying tr hphase
  cases hcases with
  | stop hend =>
    refine ⟨_, rfl, ⟨h.extents, h.blocks, fun _ => h.behind hnot, by simp, fun _ => h.header hnot, by simp⟩, ?_, ?_, ?_⟩
    · simp [PatchState.Fails, hphase, PatchState.rest]
    · simp [PatchState.AllComplete, hphase, PatchState.rest]
    · have hstop : ¬ (0 < tr ∧ s.file_pos < s.file.content.length ∧ s.file_pos < s.filesize) := by omega
      simp only [PatchState.measure, hphase, PatchState.rest, if_neg hstop]
      split <;> omega
  | read n buf hsize hfilesize hreq hpos hn hle hbuf =>
    -- the file is not read behind its end
    have hread : cp.readPos s ≤ s.file_pos ∧ (plain → cp.readPos s = s.file_pos) := by
      unfold readPos
      split
      next => exact ⟨Nat.le_refl _, fun _ => rfl⟩
      next hnear =>
        rw [Bool.not_eq_true] at hnear
        rw [hnear, Bool.or_false] at hreq
        exact h.behind hnot hreq
    have hlen : buf.length = min n (s.file.content.length - cp.readPos s) := by rw [hbuf, length_slice]
    refine ⟨_, rfl, ⟨h.extents, h.blocks, ?_, by simp, fun _ => h.header hnot, ?_⟩, ?_⟩
    · intro _ _
      exact ⟨by simp only; omega, fun hnil => by simp only [hread.2 hnil]⟩
    · rintro _ ⟨⟩
      refine ⟨by simp only; omega, hknown, fun hge => ?_⟩
      simp only at hge ⊢
      omega
    · refine copied_follows hphase h ⟨_, rfl⟩ rfl rfl rfl rfl rfl (by simp only; omega) (by simp only; omega)
        ⟨hsize, hfilesize⟩ fun hnil => ?_
      have := hread.2 hnil
      simp only
      omega
  | pass n hsize hfilesize hreq hpos hn hle =>
    refine ⟨_, rfl, ⟨h.extents, h.blocks, ?_, by simp, fun _ => h.header hnot, ?_⟩, ?_⟩
    · intro _ hrequire
      simp [hrequire] at hreq
    · rintro _ ⟨⟩
      refine ⟨by simp only; omega, hknown, fun hge => ?_⟩
      simp only at hge ⊢
      omega
    · exact copied_follows hphase h ⟨_, rfl⟩ rfl rfl rfl rfl rfl (by simp only; omega) (by simp only; omega)
        ⟨hsize, hfilesize⟩ fun _ => by simp only; omega

/-- A round of the outer loop whose header is known. -/
theorem outerCase_follows {r : Round PatchState (Bool × List Piece)} (hmax : 0 < cp.max_read) (hphase : s.phase = .head)
    (h : Sound cp plain s) (hfetched : s.next_header.patch_off = -1 → s.has_header = false) (hcases : OuterCase cp s r) :
    (∃ result, r = .done result ∧ ¬ s.Fails) ∨ ∃ s', r = .next s' ∧ Sound cp plain s' ∧ Follows plain s s' := by
  have hnot : ∀ finished, s.phase ≠ .patching finished := by simp [hphase]
  cases hcases with
  | ends hheader hend =>
    refine Or.inl ⟨_, rfl, ?_⟩
    simp [PatchState.Fails, hphase, h.header hnot hheader, hheader]
  | corrupt hend hheader hfits =>
    refine Or.inl ⟨_, rfl, ?_⟩
    have hoff : s.next_header.patch_off ≠ -1 := fun hnone => by simp [hfetched hnone] at hheader
    simp only [PatchState.Fails, hphase, if_neg hoff, PatchRunsOut, Reached]
    split
    next hcut => omega
    next hcut => omega
  | patch finished patch_size hoff hsize =>
    have hne : s.next_header.patch_off ≠ -1 := by omega
    have hheader : s.has_header = true := by
      by_contra hnone
      exact hne (h.header hnot (by simpa using hnone))
    refine Or.inr ⟨_, rfl, ⟨h.extents, h.blocks, by simp, fun _ _ => hheader, by simp, by simp⟩, ?_, ?_, ?_⟩
    · intro _
      have hsum : (s.file_pos + s.next_header.patch_size : Int).toNat = s.file_pos + s.next_header.patch_size := by omega
      simp only [PatchState.Fails, hphase, if_neg hne, PatchRunsOut, PatchState.rest]
      have hreached : Reached s.file.content.length s.filesize s.file_pos s.file_pos := Or.inl rfl
      rw [hoff, hsum, and_iff_right hreached]
      cases finished with
      | true => simp [if_pos hsize.1, hsize.2]
      | false =>
        obtain ⟨hfits, hlt, rfl⟩ := hsize
        simp [if_neg (Int.not_lt.mpr hfits), hlt]
    · simp only [PatchState.AllComplete, hphase, if_neg hne, PatchState.rest]
      rintro ⟨hle, henough, hall⟩
      cases finished with
      | true =>
        obtain ⟨hcut, rfl⟩ := hsize
        exact ⟨by omega, by simp⟩
      | false =>
        obtain ⟨hfits, hlt, rfl⟩ := hsize
        exact ⟨henough, fun _ => ⟨hfits, hall⟩⟩
    · simp only [PatchState.measure, hphase, if_neg hne, PatchState.rest]
      omega
  | copy hsize hfilesize hoff =>
    have htr : 0 < cp.toRead s := by
      have hzero := toRead_eq_zero s hmax
      omega
    have hle := toRead_le cp (s := s)
    have hcases := oldData_cases h.blocks htr hfilesize
    generalize cp.oldData s (cp.toRead s) = s' at hcases
    cases hcases with
    | copy tr' extents hpos htr' hbound hextents =>
      refine Or.inr ⟨_, rfl, ⟨fun hplain => hextents (h.extents hplain), fun hne => h.blocks fun hnil => hne (hextents hnil),
        fun _ => h.behind hnot, by simp, fun _ => h.header hnot, ?_⟩, ?_, ?_, ?_⟩
      · rintro _ ⟨⟩
        exact ⟨hbound, hfetched, fun hge => by have := hle hge; simp only; omega⟩
      · simp [PatchState.Fails, hphase, PatchState.rest]
      · simp [PatchState.AllComplete, hphase, PatchState.rest]
      · have hone : (if 0 < tr' ∧ s.file_pos < s.file.content.length ∧ s.file_pos < s.filesize then 1 else 5) = 1 :=
          if_pos ⟨hpos, hsize, hfilesize⟩
        simp only [PatchState.measure, hphase, PatchState.rest, hone]
        split <;> omega
    | sparse tr' extents hpos htr' hbound hextents =>
      refine Or.inr ⟨_, rfl, ⟨fun hplain => absurd (h.extents hplain) hextents, fun _ => h.blocks hextents,
        fun _ hreq => ?_, by simp, fun _ => h.header hnot, by simp⟩, ?_, ?_, ?_⟩
      · exact ⟨Nat.le_trans (h.behind hnot hreq).1 (Nat.le_add_right _ _), fun hplain => absurd (h.extents hplain) hextents⟩
      · exact fun hplain => absurd (h.extents hplain) hextents
      · simp only [PatchState.AllComplete, hphase, PatchState.rest]
        exact And.imp (fun _ => by omega) id
      · simp only [PatchState.measure, hphase, PatchState.rest]
        omega

theorem round_follows (hmax : 0 < cp.max_read) (h : Sound cp plain s) :
    (∃ r, cp.round s = .done r ∧ ¬ s.Fails) ∨ (s.Stuck ∧ s.Fails ∧ ¬ s.AllComplete) ∨
      ∃ s', cp.round s = .next s' ∧ Sound cp plain s' ∧ Follows plain s s' := by
  unfold round
  cases hphase : s.phase with
  | head =>
    obtain ⟨hfetch, hfails, hcomplete, hmeasure, hfetched⟩ := fetch_sound hphase h
    have hphase' : (cp.fetchHeader s).phase = .head := (fetchHeader_same cp s).phase.trans hphase
    obtain ⟨r, hdone, hnot⟩ | ⟨s', hnext, hsound, hfollows⟩ :=
      outerCase_follows hmax hphase' hfetch hfetched (outerRound_cases hmax)
    · exact Or.inl ⟨r, hdone, fun h => hnot (hfails.mpr h)⟩
    · refine Or.inr (Or.inr ⟨s', hnext, hsound, fun hplain => (hfollows.fails hplain).trans hfails,
        fun hall => hfollows.complete (hcomplete hall), ?_⟩)
      exact Nat.lt_of_lt_of_le hfollows.lt hmeasure
  | patching finished => exact patchRound_follows hphase h
  | copying tr => exact Or.inr (Or.inr (copyRound_follows hphase h))

/-- An empty read leaves everything as it is. -/
theorem stuck_stays (cp : ChunkPatcher) (s : PatchState) (h : s.Stuck) : ∃ s', cp.round s = .next s' ∧ s'.Stuck := by
  obtain ⟨⟨finished, hphase⟩, hsize, hrest⟩ := h
  have hcases := patchRound_cases cp s finished
  simp only [round, hphase]
  generalize cp.patchRound s finished = r at hcases ⊢
  cases hcases with
  | read buf _ hbuf =>
    have hnil : buf = [] := by
      rw [hbuf]
      exact slice_eq_nil (List.drop_eq_nil_iff.mp hrest)
    refine ⟨_, rfl, ⟨finished, hphase⟩, by simpa [hnil] using hsize, ?_⟩
    simpa [hnil, PatchState.rest] using hrest
  | finish hzero => omega
  | back pos hzero => omega

theorem start_sound (cp : ChunkPatcher) (file patch : Bytes) {extents : List SSparseExtent} (hblocks : extents ≠ [] → cp.FitsBlocks) :
    Sound cp (extents = []) (start file extents patch) :=
  ⟨id, hblocks, fun _ _ => ⟨Nat.le_refl _, fun _ => rfl⟩, by simp [start], fun _ _ => rfl, by simp [start]⟩

/-- A call comes to a result. -/
def PatchEnds (cp : ChunkPatcher) (file : Bytes) (extents : List SSparseExtent) (patch : Bytes) : Prop :=
  ∃ fuel result, cp.ApplyPatch fuel file extents patch = some result

theorem patchEnds_iff {file patch : Bytes} {extents : List SSparseExtent} :
    cp.PatchEnds file extents patch ↔ patch.length < 8 ∨ Ends cp.round (start file extents patch) := by
  unfold PatchEnds ApplyPatch
  split
  next hshort => simp [hshort]
  next hlong => simp [hlong, Ends]

theorem patchEnds_plain_iff (halign : cp.unchanged_align ≤ UINT_MAX) (file patch : Bytes) :
    cp.PatchEnds file [] patch ↔
      patch.length < 8 ∨ ¬ RunsOut file.length (int64 (patch.take 8)) 0 (patch.drop 8) := by
  have hstart := start_sound cp file patch (fun h => absurd rfl h)
  rw [patchEnds_iff, ends_iff_of_measure (Sound cp ([] = [])) PatchState.Stuck PatchState.Fails PatchState.measure
    (stuck_stays cp) (fun s hs => ?_) hstart]
  · simp [PatchState.Fails, PatchState.rest, start]
  · obtain hdone | ⟨hstuck, hfails, _⟩ | ⟨s', hnext, hsound, hfollows⟩ := round_follows (max_read_pos halign) hs
    · exact Or.inl hdone
    · exact Or.inr (Or.inl ⟨hstuck, hfails⟩)
    · exact Or.inr (Or.inr ⟨s', hnext, hsound, hfollows.fails rfl, hfollows.lt⟩)

theorem patchEnds_of_complete (halign : cp.unchanged_align ≤ UINT_MAX) {file patch : Bytes} {extents : List SSparseExtent}
    (hblocks : extents ≠ [] → cp.FitsBlocks) (hfilesize : 0 ≤ int64 (patch.take 8)) (hcomplete : Complete (patch.drop 8)) :
    cp.PatchEnds file extents patch := by
  have hstart := start_sound cp file patch hblocks
  have hall : (start file extents patch).AllComplete := by
    simpa [PatchState.AllComplete, PatchState.rest, start, hfilesize] using hcomplete
  have hround : ∀ s, Sound cp (extents = []) s ∧ s.AllComplete → (∃ r, cp.round s = .done r ∧ True) ∨
      ∃ s', cp.round s = .next s' ∧ (Sound cp (extents = []) s' ∧ s'.AllComplete) ∧ s'.measure < s.measure := by
    rintro s ⟨hs, hall⟩
    obtain ⟨r, hdone, _⟩ | ⟨_, _, hnot⟩ | ⟨s', hnext, hsound, hfollows⟩ := round_follows (max_read_pos halign) hs
    · exact Or.inl ⟨r, hdone, trivial⟩
    · exact absurd hall hnot
    · exact Or.inr ⟨s', hnext, ⟨hsound, hfollows.complete hall⟩, hfollows.lt⟩
  obtain ⟨fuel, r, hrun, _⟩ := ends_of_measure _ _ PatchState.measure hround ⟨hstart, hall⟩
  exact patchEnds_iff.mpr (Or.inr ⟨fuel, r, hrun⟩)

/-- Without sparse extents a call ends if the patch file does not run out of the data of
a patch whose position is come to; with them if it has the data of every patch. -/
theorem ApplyPatch_ends_iff (halign : cp.unchanged_align ≤ UINT_MAX) (file patch : Bytes) (extents : List SSparseExtent)
    (hblocks : extents ≠ [] → cp.FitsBlocks) :
    (extents = [] → (cp.PatchEnds file extents patch ↔
      patch.length < 8 ∨ ¬ RunsOut file.length (int64 (patch.take 8)) 0 (patch.drop 8))) ∧
    (0 ≤ int64 (patch.take 8) → Complete (patch.drop 8) → cp.PatchEnds file extents patch) := by
  constructor
  · rintro rfl
    exact patchEnds_plain_iff halign file patch
  · exact patchEnds_of_complete halign hblocks

/-- A patched file of four bytes, all of which are in one patch, and two of them in the
patch file. -/
def cutPatch : Bytes :=
  leBytes 8 4 ++ leBytes 8 0 ++ leBytes 4 4 ++ [1, 2]

theorem ApplyPatch_ends_cutPatch :
    ([] = ([] : List SSparseExtent) → (PatchEnds ⟨true, 0⟩ [] [] cutPatch ↔
      cutPatch.length < 8 ∨ ¬ RunsOut ([] : Bytes).length (int64 (cutPatch.take 8)) 0 (cutPatch.drop 8))) ∧
    (0 ≤ int64 (cutPatch.take 8) → Complete (cutPatch.drop 8) → PatchEnds ⟨true, 0⟩ [] [] cutPatch) :=
  ApplyPatch_ends_iff (Nat.zero_le _) [] cutPatch [] (fun h => absurd rfl h)

/-- The reads after the second byte return nothing. -/
theorem ApplyPatch_never_ends : ¬ PatchEnds ⟨true, 0⟩ [] [] cutPatch := by
  have hfilesize : int64 (cutPatch.take 8) = 4 := by decide
  have hoff : int64 (slice (cutPatch.drop 8) 0 8) = 0 := by decide
  have hsize : leValue (slice (cutPatch.drop 8) 8 4) = 4 := by decide
  have hlen : (cutPatch.drop 8).length = 14 := by decide
  rw [patchEnds_plain_iff (Nat.zero_le _), hfilesize, RunsOut]
  simp only [hlen, hoff, hsize, Reached]
  simp
  exact ⟨by decide, fun h => absurd h (by decide)⟩

end ChunkPatcher

end urbackup.chunkpatch
