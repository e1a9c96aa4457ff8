import UrBackup.CowFile.CowFile

namespace urbackup.cowfile

open stringtools filedata

section Spec

/-- The operations, with what the system does in them. -/
inductive Op
  | Seek (offset : Nat)
  | Write (buffer : Bytes) (w : Option Nat)
  | setUnused (unused_start unused_end : Nat) (rc : Bool)
  | setBitmapRange (offset_start offset_end : Nat) (v : Bool)

/-- `none` where the bitmap is left. -/
def step (s : CowFile) : Op → Option CowFile
  | .Seek offset => some (s.Seek offset)
  | .Write buffer w => (s.Write buffer w).map Prod.snd
  | .setUnused unused_start unused_end rc => (s.setUnused unused_start unused_end rc).map Prod.snd
  | .setBitmapRange offset_start offset_end v => s.setBitmapRange offset_start offset_end v

/-- How much a write has written. -/
def written (buffer : Bytes) (w : Option Nat) : Nat :=
  min (w.getD 0) buffer.length

/-- Whether `setUnused` says that it has discarded the range. -/
def discards (s : CowFile) (unused_start unused_end : Nat) (rc : Bool) : Prop :=
  (s.setUnused unused_start unused_end rc).map Prod.fst = some true

/-- Where there is data that was written and not discarded since. -/
def dataAfter (s : CowFile) (data : Nat → Prop) : Op → Nat → Prop
  | .Seek _ => data
  | .Write buffer w => fun p => data p ∨ s.curr_offset ≤ p ∧ p < s.curr_offset + written buffer w
  | .setUnused unused_start unused_end rc => fun p =>
    data p ∧ ¬ (discards s unused_start unused_end rc ∧ unused_start ≤ p ∧ p < unused_end)
  | .setBitmapRange offset_start offset_end v => fun p =>
    data p ∧ ¬ (v = false ∧ offset_start ≤ p ∧ p < offset_end)

/-- The blocks with data have their bits. -/
def Tracks (s : CowFile) (data : Nat → Prop) : Prop :=
  ∀ p, data p → s.bit (p / blocksize) = true

/-- Only blocks that are completely in a discarded range lose their bits. -/
def ClearsInside (s s' : CowFile) : Op → Prop
  | .setUnused unused_start unused_end _ => ∀ k, s.bit k = true → s'.bit k = false →
      unused_start ≤ k * blocksize ∧ (k + 1) * blocksize ≤ unused_end
  | _ => True

/-- What an operation has to keep. -/
def Kept (s : CowFile) (data : Nat → Prop) (op : Op) (s' : CowFile) : Prop :=
  Tracks s' (dataAfter s data op) ∧ ClearsInside s s' op

/-- A write ends with a block or in one that is in use, and a range whose bits are
cleared starts with a block, or within one that it does not leave, or in one where there is nothing to lose. -/
def Fits (s : CowFile) (data : Nat → Prop) : Op → Prop
  | .Seek _ => True
  | .Write buffer w => written buffer w = 0 ∨ (s.curr_offset + written buffer w) % blocksize = 0 ∨
      s.bit ((s.curr_offset + written buffer w) / blocksize) = true
  | .setUnused unused_start unused_end rc => rc = false ∨ unused_start % blocksize = 0 ∨
      min unused_end s.filesize / blocksize ≤ unused_start / blocksize ∨ s.bit (unused_start / blocksize) = false
  | .setBitmapRange offset_start offset_end v => v = true ∨ offset_end / blocksize ≤ offset_start / blocksize ∨
      ∀ p, offset_start / blocksize * blocksize ≤ p → p < offset_start → ¬ data p

/-- Every step of a run is of this kind. An access outside of the bitmap ends a run. -/
def AllSteps (P : CowFile → (Nat → Prop) → Op → CowFile → Prop) : CowFile → (Nat → Prop) → List Op → Prop
  | _, _, [] => True
  | s, data, op :: ops => ∀ s', step s op = some s' → P s data op s' ∧ AllSteps P s' (dataAfter s data op) ops

end Spec

section Steps

variable {s s' : CowFile} {data : Nat → Prop}

/-- Nothing is lost by a step that leaves the bits alone. -/
theorem kept_same {op : Op} (htracks : Tracks s data) (hdata : ∀ p, dataAfter s data op p → data p) (hbit : ∀ k, s'.bit k = s.bit k) :
    Kept s data op s' := by
  refine ⟨fun p hp => (hbit _).trans (htracks p (hdata p hp)), ?_⟩
  cases op with
  | setUnused unused_start unused_end rc =>
    intro k hset hclear
    rw [hbit, hset] at hclear
    cases hclear
  | _ => trivial

theorem write_kept (hcovered : s.Covered) (htracks : Tracks s data) {buffer : Bytes} {w : Option Nat}
    (h : (s.Write buffer w).map Prod.snd = some s') :
    s'.Covered ∧ (Kept s data (.Write buffer w) s' ↔ Fits s data (.Write buffer w)) := by
  cases w with
  | none =>
    obtain rfl : s = s' := by simpa [CowFile.Write] using h
    have hwritten : written buffer none = 0 := Nat.zero_min _
    refine ⟨hcovered, fun _ => Or.inl hwritten, fun _ => kept_same htracks ?_ fun _ => rfl⟩
    rintro p (hp | hp)
    · exact hp
    · omega
  | some w =>
    have hmin : s.Write buffer (some w) = s.Write buffer (some (written buffer (some w))) := by
      simp [CowFile.Write, written]
    have hle : written buffer (some w) ≤ buffer.length := Nat.min_le_right _ _
    rw [hmin] at h
    unfold Kept Fits ClearsInside Tracks
    simp only [and_true, dataAfter]
    generalize written buffer (some w) = n at h hle
    obtain ⟨s₁, hwrite, hcovered₁, _, _, _, hbit⟩ := Write_some hcovered hle
    obtain rfl : s₁ = s' := by simpa [hwrite] using h
    refine ⟨hcovered₁, ?_⟩
    constructor
    · intro hkept
      by_contra hnot
      push Not at hnot
      obtain ⟨hpos, hpartial, hclear⟩ := hnot
      -- The last byte that was written lies in the block without a bit.
      have hlast := hkept (s.curr_offset + n - 1) (Or.inr (by omega))
      have hblock : (s.curr_offset + n - 1) / blocksize = (s.curr_offset + n) / blocksize := by
        unfold blocksize at hpartial ⊢
        omega
      rw [hblock, hbit, if_neg (by omega)] at hlast
      exact hclear hlast
    · rintro hfits p hp
      rw [hbit]
      split
      next => rfl
      next hout =>
        obtain hp | ⟨hle', hlt⟩ := hp
        · exact htracks p hp
        · have hblock : p / blocksize = (s.curr_offset + n) / blocksize ∧ (s.curr_offset + n) % blocksize ≠ 0 := by
            unfold blocksize at hout ⊢
            omega
          obtain hzero | haligned | hset := hfits
          · omega
          · exact absurd haligned hblock.2
          · rw [hblock.1]
            exact hset

theorem setUnused_kept (hcovered : s.Covered) (htracks : Tracks s data) {unused_start unused_end : Nat} {rc : Bool}
    (h : (s.setUnused unused_start unused_end rc).map Prod.snd = some s') :
    s'.Covered ∧ (Kept s data (.setUnused unused_start unused_end rc) s' ↔ Fits s data (.setUnused unused_start unused_end rc)) := by
  by_cases hbehind : s.filesize ≤ unused_start
  · obtain rfl : s = s' := by simpa [CowFile.setUnused, hbehind] using h
    refine ⟨hcovered, fun _ => Or.inr (Or.inr (Or.inl ?_)), fun _ => kept_same htracks (fun _ => And.left) fun _ => rfl⟩
    exact Nat.div_le_div_right ((Nat.min_le_right _ _).trans hbehind)
  rw [Nat.not_le] at hbehind
  by_cases hpunch : rc = true ∧ unused_start < unused_end
  · obtain ⟨hrc, hlt⟩ := hpunch
    obtain ⟨s₁, hunused, hcovered₁, _, _, _, hbit⟩ := setUnused_some hcovered hbehind hrc hlt
    obtain rfl : s₁ = s' := by simpa [hunused] using h
    have hdiscards : discards s unused_start unused_end rc := by
      unfold discards
      rw [hunused]
      rfl
    refine ⟨hcovered₁, ?_⟩
    constructor
    · rintro ⟨-, hclears⟩
      by_contra hnot
      unfold Fits at hnot
      push Not at hnot
      obtain ⟨_, hpartial, hlt', hset⟩ := hnot
      have hinside := hclears (unused_start / blocksize) (by simpa using hset) (by rw [hbit, if_pos (by omega)])
      unfold blocksize at hpartial hinside
      omega
    · intro hfits
      have hinside : ∀ k, unused_start / blocksize ≤ k → k < min unused_end s.filesize / blocksize → s.bit k = true →
          unused_start ≤ k * blocksize ∧ (k + 1) * blocksize ≤ unused_end := by
        intro k hle hlt' hset
        obtain hrc' | haligned | hnone | hclear := hfits
        · rw [hrc] at hrc'
          cases hrc'
        · unfold blocksize at *
          omega
        · omega
        · have hne : k ≠ unused_start / blocksize := by
            rintro rfl
            rw [hset] at hclear
            cases hclear
          unfold blocksize at *
          omega
      refine ⟨?_, ?_⟩
      · rintro p ⟨hp, hkeep⟩
        have hset := htracks p hp
        rw [hbit]
        split
        next hin =>
          obtain ⟨hle, hle'⟩ := hinside _ hin.1 hin.2 hset
          refine absurd ⟨hdiscards, ?_, ?_⟩ hkeep
          · exact hle.trans (Nat.div_mul_le_self p blocksize)
          · unfold blocksize at hle'
            omega
        next => exact hset
      · intro k hset hclear
        rw [hbit] at hclear
        split at hclear
        next hin => exact hinside k hin.1 hin.2 hset
        next =>
          rw [hset] at hclear
          cases hclear
  · have hfailed := setUnused_failed hbehind hpunch
    obtain rfl : s = s' := by simpa [hfailed] using h
    refine ⟨hcovered, fun _ => ?_, fun _ => kept_same htracks (fun _ => And.left) fun _ => rfl⟩
    unfold Fits
    cases rc with
    | false => exact Or.inl rfl
    | true =>
      right; right; left
      apply Nat.div_le_div_right
      have hle : unused_end ≤ unused_start := Nat.le_of_not_lt fun hlt => hpunch ⟨rfl, hlt⟩
      omega

theorem setBitmapRange_kept (hcovered : s.Covered) (htracks : Tracks s data) {offset_start offset_end : Nat} {v : Bool}
    (h : s.setBitmapRange offset_start offset_end v = some s') :
    s'.Covered ∧ (Kept s data (.setBitmapRange offset_start offset_end v) s' ↔ Fits s data (.setBitmapRange offset_start offset_end v)) := by
  obtain ⟨_, hfilesize, _, hlen, hbit⟩ := setBitmapRange_some h
  refine ⟨?_, ?_⟩
  · unfold CowFile.Covered at hcovered ⊢
    rwa [hfilesize, hlen]
  unfold Kept Fits ClearsInside Tracks
  simp only [and_true, dataAfter]
  constructor
  · intro hkept
    by_contra hnot
    push Not at hnot
    obtain ⟨hv, hlt, p, hle, hp, hdata⟩ := hnot
    have hblock : p / blocksize = offset_start / blocksize := by
      unfold blocksize at hle ⊢
      omega
    have hset := hkept p ⟨hdata, fun hrange => absurd hp (Nat.not_lt.mpr hrange.2.1)⟩
    rw [hbit, if_pos (by omega)] at hset
    exact hv hset
  · rintro hfits p ⟨hdata, hkeep⟩
    rw [hbit]
    split
    next hin =>
      cases v with
      | true => rfl
      | false =>
        obtain hv | hle | hnone := hfits
        · exact hv
        · omega
        · exfalso
          unfold blocksize at hin hnone
          by_cases hp : p < offset_start
          · exact hnone p (by omega) hp hdata
          · exact hkeep ⟨rfl, by omega, by omega⟩
    next => exact htracks p hdata

theorem step_kept {op : Op} (hcovered : s.Covered) (htracks : Tracks s data) (h : step s op = some s') :
    s'.Covered ∧ (Kept s data op s' ↔ Fits s data op) := by
  cases op with
  | Seek offset =>
    obtain rfl := Option.some.inj h
    exact ⟨hcovered, fun _ => trivial, fun _ => kept_same htracks (fun _ hp => hp) fun _ => rfl⟩
  | Write buffer w => exact write_kept hcovered htracks h
  | setUnused unused_start unused_end rc => exact setUnused_kept hcovered htracks h
  | setBitmapRange offset_start offset_end v => exact setBitmapRange_kept hcovered htracks h

end Steps

section Runs

/-- The bitmap follows the data in a run just when all steps of it fit the blocks. -/
theorem bitmap_tracks_iff (s : CowFile) (data : Nat → Prop) (hcovered : s.Covered) (htracks : Tracks s data) (ops : List Op) :
    AllSteps Kept s data ops ↔ AllSteps (fun s data op _ => Fits s data op) s data ops := by
  induction ops generalizing s data with
  | nil => exact Iff.rfl
  | cons op ops ih =>
    apply forall_congr'
    intro s'
    apply forall_congr'
    intro hstep
    obtain ⟨hcovered', hkept⟩ := step_kept hcovered htracks hstep
    constructor
    · rintro ⟨hop, hrest⟩
      exact ⟨hkept.mp hop, (ih s' _ hcovered' hop.1).mp hrest⟩
    · rintro ⟨hop, hrest⟩
      have hop' := hkept.mpr hop
      exact ⟨hop', (ih s' _ hcovered' hop'.1).mpr hrest⟩

/-- A new file, of which a part is written. -/
theorem bitmap_tracks_new : AllSteps Kept (.new 1) (fun _ => False) [.Write [1] (some 1), .setUnused 0 1 true] ↔
    AllSteps (fun s data op _ => Fits s data op) (.new 1) (fun _ => False) [.Write [1] (some 1), .setUnused 0 1 true] :=
  bitmap_tracks_iff (.new 1) (fun _ => False) (new_covered 1) (fun _ hp => hp.elim) [.Write [1] (some 1), .setUnused 0 1 true]

/-- A block that is written up to its middle gets no bit, and one that is discarded from its middle on loses it. -/
theorem bitmap_loses : ¬ (∀ (filesize : Nat) (ops : List Op), AllSteps Kept (.new filesize) (fun _ => False) ops) ∧
    ¬ (∀ (s : CowFile) (unused_start unused_end : Nat) (s' : CowFile), s.Covered →
      step s (.setUnused unused_start unused_end true) = some s' →
      ClearsInside s s' (.setUnused unused_start unused_end true)) := by
  constructor
  · intro h
    obtain ⟨hkept, -⟩ := h 1 [.Write [1] (some 1)] ⟨[1], 1, 1, [0], false⟩ rfl
    have hbit := hkept.1 0 (Or.inr ⟨Nat.le_refl 0, Nat.one_pos⟩)
    revert hbit
    decide
  · intro h
    let s : CowFile := ⟨List.replicate 8192 0, 8192, 0, [0x80], true⟩
    have hcovered : s.Covered := by
      unfold CowFile.Covered blocksize
      simp [s]
    obtain ⟨s', hunused, -, -, -, -, hbit⟩ :=
      @setUnused_some s 1 8192 true hcovered (by simp [s]) rfl (by decide)
    have hinside := h s 1 8192 s' hcovered (by simp [step, hunused]) 0 (by decide)
      (by rw [hbit]; exact if_pos (by simp [s, blocksize]))
    exact absurd hinside.1 (by decide)

end Runs

end urbackup.cowfile
