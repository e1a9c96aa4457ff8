import UrBackup.CowFile.CowFile

namespace urbackup.cowfile

open stringtools filedata

namespace CowFile

variable (s : CowFile)

/-- The loop for the first block in use. -/
def narrowStart (offset_start offset_end : Nat) : Option (Bool × Nat) :=
  if offset_start < offset_end then
    match s.isBitmapSet offset_start with
    | none => none
    | some true => some (true, offset_start)
    | some false => narrowStart (offset_start + blocksize) offset_end
  else some (false, offset_start)
termination_by offset_end - offset_start
decreasing_by
  unfold blocksize
  omega

/-- The loop for the end, which looks at the block behind it. -/
def narrowEnd (offset_start offset_end : Nat) : Option Nat :=
  if offset_start < offset_end then
    match s.isBitmapSet offset_end with
    | none => none
    | some true => some offset_end
    | some false => narrowEnd offset_start (offset_end - blocksize)
  else some offset_end
termination_by offset_end
decreasing_by
  unfold blocksize
  omega

/-- Returns whether a block is in use, and the narrowed range. -/
def hasBitmapRangeNarrow (orig_offset_start orig_offset_end trim_blocksize : Nat) : Option (Bool × Nat × Nat) := do
  let offset_start := orig_offset_start / blocksize * blocksize
  let offset_end :=
    if orig_offset_end % blocksize ≠ 0 then (orig_offset_end / blocksize + 1) * blocksize else orig_offset_end
  let (ret, offset_start) ← s.narrowStart offset_start offset_end
  let offset_end ← if ret then s.narrowEnd offset_start offset_end else some offset_end
  let offset_start := offset_start / trim_blocksize * trim_blocksize
  let offset_start := if offset_start < orig_offset_start then orig_offset_start else offset_start
  let offset_end :=
    if offset_end % trim_blocksize ≠ 0 then
      let offset_end := (offset_end / trim_blocksize + 1) * trim_blocksize
      if offset_end > orig_offset_end then orig_offset_end else offset_end
    else offset_end
  some (ret, offset_start, offset_end)

end CowFile

section Spec

/-- The bytes of a range that lie in blocks that are in use. -/
def UsedIn (s : CowFile) (offset_start offset_end p : Nat) : Prop :=
  offset_start ≤ p ∧ p < offset_end ∧ s.bit (p / blocksize) = true

/-- What the narrowed range has to be. -/
def Narrows (s : CowFile) (offset_start offset_end : Nat) (result : Option (Bool × Nat × Nat)) : Prop :=
  ∃ ret new_start new_end, result = some (ret, new_start, new_end) ∧
    (ret = true ↔ ∃ p, UsedIn s offset_start offset_end p) ∧
    (ret = true → offset_start ≤ new_start ∧ new_end ≤ offset_end ∧
      ∀ p, UsedIn s offset_start offset_end p → new_start ≤ p ∧ p < new_end)

/-- The block behind the range. -/
def blockBehind (offset_end : Nat) : Nat :=
  (offset_end + blocksize - 1) / blocksize

/-- The last block of a range that is in use. -/
def LastUsed (s : CowFile) (offset_start offset_end last : Nat) : Prop :=
  (∃ p, UsedIn s offset_start offset_end p ∧ p / blocksize = last) ∧
    ∀ p, UsedIn s offset_start offset_end p → p / blocksize ≤ last

/-- The block behind the range has a bit. If it is set, the end of the range may not come to lie behind
where it was, and if not, rounding has to bring back the last block in use. -/
def EndFits (s : CowFile) (offset_end trim_blocksize last : Nat) : Prop :=
  blockBehind offset_end / 8 < s.bitmap.length ∧
    if s.bit (blockBehind offset_end) = true then
      offset_end % blocksize = 0 ∨ blockBehind offset_end * blocksize % trim_blocksize ≠ 0
    else
      last * blocksize % trim_blocksize ≠ 0 ∧
        min ((last + 1) * blocksize) offset_end ≤ (last * blocksize / trim_blocksize + 1) * trim_blocksize

end Spec

section Loops

variable {s : CowFile} {first behind e : Nat}

theorem isBitmapSet_block (s : CowFile) (k : Nat) :
    s.isBitmapSet (k * blocksize) = if k / 8 < s.bitmap.length then some (s.bit k) else none := by
  have hblock : k * blocksize / blocksize = k := Nat.mul_div_cancel k (by decide)
  rw [CowFile.isBitmapSet, hblock]
  rfl

/-- The first loop stops at the first block in use. -/
theorem narrowStart_eq (hin : behind ≤ s.bitmap.length * 8) (hle : first ≤ behind) :
    (s.narrowStart (first * blocksize) (behind * blocksize) = some (false, behind * blocksize) ∧
      ∀ k, first ≤ k → k < behind → s.bit k = false) ∨
    ∃ k, first ≤ k ∧ k < behind ∧ s.narrowStart (first * blocksize) (behind * blocksize) = some (true, k * blocksize) ∧
      s.bit k = true ∧ ∀ j, first ≤ j → j < k → s.bit j = false := by
  generalize hn : behind - first = n
  induction n generalizing first with
  | zero =>
    obtain rfl : first = behind := by omega
    refine Or.inl ⟨?_, fun k _ _ => by omega⟩
    rw [CowFile.narrowStart, if_neg (Nat.lt_irrefl _)]
  | succ n ih =>
    have hlt : first * blocksize < behind * blocksize := Nat.mul_lt_mul_of_pos_right (by omega) (by decide)
    rw [CowFile.narrowStart, if_pos hlt, isBitmapSet_block, if_pos (by omega)]
    cases hbit : s.bit first with
    | true => exact Or.inr ⟨first, Nat.le_refl _, by omega, rfl, hbit, fun j _ _ => by omega⟩
    | false =>
      have hnext : first * blocksize + blocksize = (first + 1) * blocksize := by rw [Nat.add_mul, Nat.one_mul]
      simp only [hnext]
      obtain ⟨hloop, hnone⟩ | ⟨k, hle', hlt', hloop, hk, hbefore⟩ := @ih (first + 1) (by omega) (by omega)
      · refine Or.inl ⟨hloop, fun k hk hk' => ?_⟩
        obtain rfl | hne := Nat.eq_or_lt_of_le hk
        · exact hbit
        · exact hnone k hne hk'
      · refine Or.inr ⟨k, by omega, hlt', hloop, hk, fun j hj hj' => ?_⟩
        obtain rfl | hne := Nat.eq_or_lt_of_le hj
        · exact hbit
        · exact hbefore j hne hj'

/-- The second loop stops at the last set bit, with the end in front of its block. -/
theorem narrowEnd_eq (hin : e / 8 < s.bitmap.length) (hle : first ≤ e) (hfirst : s.bit first = true) :
    ∃ last, first ≤ last ∧ last ≤ e ∧ s.narrowEnd (first * blocksize) (e * blocksize) = some (last * blocksize) ∧
      s.bit last = true ∧ ∀ k, last < k → k ≤ e → s.bit k = false := by
  induction e with
  | zero =>
    obtain rfl : first = 0 := by omega
    refine ⟨0, Nat.le_refl _, Nat.le_refl _, ?_, hfirst, fun k _ _ => by omega⟩
    rw [CowFile.narrowEnd, if_neg (Nat.lt_irrefl _)]
  | succ e ih =>
    obtain rfl | hlt := Nat.eq_or_lt_of_le hle
    · refine ⟨e + 1, Nat.le_refl _, Nat.le_refl _, ?_, hfirst, fun k _ _ => by omega⟩
      rw [CowFile.narrowEnd, if_neg (Nat.lt_irrefl _)]
    · have hlt' : first * blocksize < (e + 1) * blocksize := Nat.mul_lt_mul_of_pos_right hlt (by decide)
      rw [CowFile.narrowEnd, if_pos hlt', isBitmapSet_block, if_pos hin]
      cases hbit : s.bit (e + 1) with
      | true => exact ⟨e + 1, by omega, Nat.le_refl _, rfl, hbit, fun k _ _ => by omega⟩
      | false =>
        have hnext : (e + 1) * blocksize - blocksize = e * blocksize := by
          rw [Nat.add_mul, Nat.one_mul, Nat.add_sub_cancel]
        simp only [hnext]
        obtain ⟨last, hle', hle'', hloop, hlast, hbehind⟩ := ih (by omega) (by omega)
        refine ⟨last, hle', by omega, hloop, hlast, fun k hk hk' => ?_⟩
        obtain rfl | hne := Nat.eq_or_lt_of_le hk'
        · exact hbit
        · exact hbehind k hk (by omega)

end Loops

section Ranges

variable {s : CowFile} {offset_start offset_end trim_blocksize first last k p : Nat}

theorem roundedEnd_eq (offset_end : Nat) :
    (if offset_end % blocksize ≠ 0 then (offset_end / blocksize + 1) * blocksize else offset_end) =
      blockBehind offset_end * blocksize := by
  unfold blockBehind blocksize
  split <;> omega

/-- The blocks in use of a range, by their numbers. -/
theorem usedIn_block (hlt : offset_start < offset_end) : (∃ p, UsedIn s offset_start offset_end p ∧ p / blocksize = k) ↔
    offset_start / blocksize ≤ k ∧ k < blockBehind offset_end ∧ s.bit k = true := by
  unfold UsedIn blockBehind
  constructor
  · rintro ⟨p, ⟨hle, hlt', hbit⟩, rfl⟩
    refine ⟨Nat.div_le_div_right hle, ?_, hbit⟩
    unfold blocksize
    omega
  · rintro ⟨hle, hlt', hbit⟩
    have hblock : max offset_start (k * blocksize) / blocksize = k := by
      unfold blocksize at *
      omega
    refine ⟨max offset_start (k * blocksize), ⟨Nat.le_max_left _ _, ?_, hblock.symm ▸ hbit⟩, hblock⟩
    unfold blocksize at *
    omega

/-- The blocks of a range up to the last one in use. -/
theorem lastUsed_of_bits (hlt : offset_start < offset_end) (hle : offset_start / blocksize ≤ last)
    (hlast : last < blockBehind offset_end) (hbit : s.bit last = true)
    (hbehind : ∀ k, last < k → k < blockBehind offset_end → s.bit k = false) : LastUsed s offset_start offset_end last := by
  refine ⟨(usedIn_block hlt).mpr ⟨hle, hlast, hbit⟩, fun p hp => ?_⟩
  obtain ⟨_, hp', hset⟩ := (usedIn_block hlt).mp ⟨p, hp, rfl⟩
  by_contra hnot
  rw [hbehind _ (Nat.lt_of_not_le hnot) hp'] at hset
  cases hset

theorem LastUsed.unique {last' : Nat} (h : LastUsed s offset_start offset_end last) (h' : LastUsed s offset_start offset_end last') :
    last = last' := by
  obtain ⟨⟨p, hp, rfl⟩, hmax⟩ := h
  obtain ⟨⟨p', hp', rfl⟩, hmax'⟩ := h'
  exact Nat.le_antisymm (hmax' p hp) (hmax p' hp')

/-- What is returned where the loops end. -/
def narrowed (orig_offset_start orig_offset_end trim_blocksize offset_start offset_end : Nat) : Nat × Nat :=
  (max orig_offset_start (offset_start / trim_blocksize * trim_blocksize),
    if offset_end % trim_blocksize ≠ 0 then min orig_offset_end ((offset_end / trim_blocksize + 1) * trim_blocksize) else offset_end)

theorem hasBitmapRangeNarrow_found
    (hstart : s.narrowStart (offset_start / blocksize * blocksize) (blockBehind offset_end * blocksize) = some (true, first * blocksize)) :
    s.hasBitmapRangeNarrow offset_start offset_end trim_blocksize =
      (s.narrowEnd (first * blocksize) (blockBehind offset_end * blocksize)).map fun new_end =>
        (true, narrowed offset_start offset_end trim_blocksize (first * blocksize) new_end) := by
  have hmax (x : Nat) : (if x < offset_start then offset_start else x) = max offset_start x := by
    split <;> omega
  have hmin (x : Nat) : (if x > offset_end then offset_end else x) = min offset_end x := by
    split <;> omega
  unfold CowFile.hasBitmapRangeNarrow
  simp only [roundedEnd_eq, hstart, Option.bind_eq_bind, Option.bind_some, if_true, hmax, hmin]
  cases s.narrowEnd (first * blocksize) (blockBehind offset_end * blocksize) <;> rfl

/-- The second loop starts behind the range, and from there on it is about the range. -/
theorem narrowEnd_behind (hle : first ≤ last) (hlast : last < blockBehind offset_end)
    (hloop : s.narrowEnd (first * blocksize) ((blockBehind offset_end - 1) * blocksize) = some (last * blocksize)) :
    s.narrowEnd (first * blocksize) (blockBehind offset_end * blocksize) =
      if blockBehind offset_end / 8 < s.bitmap.length then
        some (if s.bit (blockBehind offset_end) = true then blockBehind offset_end * blocksize else last * blocksize)
      else none := by
  have hlt : first * blocksize < blockBehind offset_end * blocksize := Nat.mul_lt_mul_of_pos_right (by omega) (by decide)
  have hnext : blockBehind offset_end * blocksize - blocksize = (blockBehind offset_end - 1) * blocksize := by
    rw [Nat.sub_mul, Nat.one_mul]
  rw [CowFile.narrowEnd, if_pos hlt, isBitmapSet_block]
  split
  next hnone =>
    split at hnone
    · simp at hnone
    · next hout => rw [if_neg hout]
  next hset =>
    split at hset
    · next hin =>
      rw [if_pos hin, if_pos (Option.some.inj hset)]
    · simp at hset
  next hset =>
    split at hset
    · next hin =>
      rw [if_pos hin, Option.some.inj hset, if_neg Bool.false_ne_true, hnext, hloop]
    · simp at hset

/-- What the narrowed range has to do with the range, depending on where the second loop ends. -/
theorem narrowed_iff (hlt : offset_start < offset_end) (htrim : 0 < trim_blocksize)
    (hfirst : ∀ p, UsedIn s offset_start offset_end p → first * blocksize ≤ p)
    (hlast : LastUsed s offset_start offset_end last) (hbehind : blockBehind offset_end / 8 < s.bitmap.length)
    {new_start new_end : Nat} (hnew : narrowed offset_start offset_end trim_blocksize (first * blocksize)
      (if s.bit (blockBehind offset_end) = true then blockBehind offset_end * blocksize else last * blocksize) = (new_start, new_end)) :
    (offset_start ≤ new_start ∧ new_end ≤ offset_end ∧
      ∀ p, UsedIn s offset_start offset_end p → new_start ≤ p ∧ p < new_end) ↔ EndFits s offset_end trim_blocksize last := by
  obtain ⟨hnew_start, hnew_end⟩ := Prod.mk.inj hnew
  have hdown : first * blocksize / trim_blocksize * trim_blocksize ≤ first * blocksize := Nat.div_mul_le_self _ _
  have hup (x : Nat) : x < (x / trim_blocksize + 1) * trim_blocksize := Nat.lt_mul_of_div_lt (Nat.lt_succ_self _) htrim
  have hfront : offset_start ≤ new_start ∧ ∀ p, UsedIn s offset_start offset_end p → new_start ≤ p := by
    refine ⟨by omega, fun p hp => ?_⟩
    have hle := hfirst p hp
    have hle' := hp.1
    omega
  have hsplit : (offset_start ≤ new_start ∧ new_end ≤ offset_end ∧
      ∀ p, UsedIn s offset_start offset_end p → new_start ≤ p ∧ p < new_end) ↔
      new_end ≤ offset_end ∧ ∀ p, UsedIn s offset_start offset_end p → p < new_end :=
    ⟨fun h => ⟨h.2.1, fun p hp => (h.2.2 p hp).2⟩, fun h => ⟨hfront.1, h.1, fun p hp => ⟨hfront.2 p hp, h.2 p hp⟩⟩⟩
  rw [hsplit]
  unfold EndFits
  simp only [hbehind, true_and]
  have hover : offset_end ≤ blockBehind offset_end * blocksize ∧
      (blockBehind offset_end * blocksize ≤ offset_end ↔ offset_end % blocksize = 0) := by
    unfold blockBehind blocksize
    omega
  by_cases hbit : s.bit (blockBehind offset_end) = true
  · rw [if_pos hbit] at hnew_end ⊢
    have hup' := hup (blockBehind offset_end * blocksize)
    by_cases haligned : blockBehind offset_end * blocksize % trim_blocksize = 0
    · rw [if_neg (by simpa using haligned)] at hnew_end
      subst hnew_end
      simp only [haligned, ne_eq, not_true_eq_false, or_false]
      rw [← hover.2]
      exact and_iff_left fun p hp => Nat.lt_of_lt_of_le hp.2.1 hover.1
    · rw [if_pos haligned] at hnew_end
      refine iff_of_true ⟨by omega, fun p hp => ?_⟩ (Or.inr haligned)
      have hlt' := hp.2.1
      omega
  · rw [if_neg hbit] at hnew_end ⊢
    obtain ⟨⟨p, hp, hblock⟩, hmax⟩ := hlast
    by_cases haligned : last * blocksize % trim_blocksize = 0
    · rw [if_neg (by simpa using haligned)] at hnew_end
      refine iff_of_false ?_ fun h => h.1 haligned
      rintro ⟨_, hall⟩
      have hlt' := hall p hp
      have hle := Nat.div_mul_le_self p blocksize
      rw [hblock] at hle
      omega
    · rw [if_pos haligned] at hnew_end
      simp only [haligned, ne_eq, not_false_eq_true, true_and]
      constructor
      · rintro ⟨_, hall⟩
        have hin : UsedIn s offset_start offset_end (min ((last + 1) * blocksize) offset_end - 1) := by
          obtain ⟨hle, hlt', hset⟩ := hp
          have hblock' : (min ((last + 1) * blocksize) offset_end - 1) / blocksize = last := by
            unfold blocksize at hblock ⊢
            omega
          refine ⟨?_, by omega, ?_⟩
          · unfold blocksize at hblock ⊢
            omega
          · rw [hblock', ← hblock]
            exact hset
        have hlt' := hall _ hin
        omega
      · intro hle
        refine ⟨by omega, fun q hq => ?_⟩
        have hq' := hmax q hq
        have hlt' := hq.2.1
        have hlt'' : q < (last + 1) * blocksize := by
          unfold blocksize at hq' ⊢
          omega
        omega

/-- The range is narrowed as it should just when the last block in use stays in it. -/
theorem hasBitmapRangeNarrow_iff (s : CowFile) (offset_start offset_end trim_blocksize : Nat) (hcovered : s.Covered)
    (hlt : offset_start < offset_end) (hin : offset_end ≤ s.filesize) (htrim : 0 < trim_blocksize) :
    Narrows s offset_start offset_end (s.hasBitmapRangeNarrow offset_start offset_end trim_blocksize) ↔
      ∀ last, LastUsed s offset_start offset_end last → EndFits s offset_end trim_blocksize last := by
  have hbits : blockBehind offset_end ≤ s.bitmap.length * 8 := by
    unfold CowFile.Covered at hcovered
    unfold blockBehind blocksize at *
    omega
  have hle : offset_start / blocksize ≤ blockBehind offset_end := by
    unfold blockBehind blocksize
    omega
  obtain ⟨hloop, hnone⟩ | ⟨first, hle', hlt', hloop, hfirst, hbefore⟩ := narrowStart_eq hbits hle
  · -- No block is in use.
    have hunused : ¬ ∃ p, UsedIn s offset_start offset_end p := by
      rintro ⟨p, hp⟩
      obtain ⟨hle', hlt', hset⟩ := (usedIn_block hlt).mp ⟨p, hp, rfl⟩
      rw [hnone _ hle' hlt'] at hset
      cases hset
    refine iff_of_true ?_ fun last hlast => (hunused ⟨_, hlast.1.choose_spec.1⟩).elim
    unfold CowFile.hasBitmapRangeNarrow
    simp only [roundedEnd_eq, hloop, Option.bind_eq_bind, Option.bind_some, Bool.false_eq_true, if_false]
    exact ⟨false, _, _, rfl, iff_of_false Bool.false_ne_true hunused, fun h => by cases h⟩
  · obtain ⟨last, hle'', hlast', hend, hset, hnone⟩ :=
      @narrowEnd_eq s first (blockBehind offset_end - 1) (by omega) (by omega) hfirst
    have hlast : LastUsed s offset_start offset_end last :=
      lastUsed_of_bits hlt (by omega) (by omega) hset fun k hk hk' => hnone k hk (by omega)
    have hunique : (∀ last', LastUsed s offset_start offset_end last' → EndFits s offset_end trim_blocksize last') ↔
        EndFits s offset_end trim_blocksize last :=
      ⟨fun h => h last hlast, fun h last' hlast' => hlast.unique hlast' ▸ h⟩
    rw [hunique, hasBitmapRangeNarrow_found hloop, narrowEnd_behind hle'' (by omega) hend]
    by_cases hbehind : blockBehind offset_end / 8 < s.bitmap.length
    · rw [if_pos hbehind, Option.map_some]
      have hfront : ∀ p, UsedIn s offset_start offset_end p → first * blocksize ≤ p := by
        intro p hp
        obtain ⟨hle', _, hset⟩ := (usedIn_block hlt).mp ⟨p, hp, rfl⟩
        have hblock : first ≤ p / blocksize := by
          by_contra hnot
          rw [hbefore _ hle' (by omega)] at hset
          cases hset
        exact (Nat.mul_le_mul_right _ hblock).trans (Nat.div_mul_le_self _ _)
      generalize hnew : narrowed offset_start offset_end trim_blocksize (first * blocksize) _ = new
      obtain ⟨new_start, new_end⟩ := new
      rw [← narrowed_iff hlt htrim hfront hlast hbehind hnew]
      constructor
      · rintro ⟨ret, new_start', new_end', hresult, _, hnarrow⟩
        obtain ⟨rfl, rfl, rfl⟩ : true = ret ∧ new_start = new_start' ∧ new_end = new_end' := by
          simpa using hresult
        exact hnarrow rfl
      · intro h
        exact ⟨true, new_start, new_end, rfl, iff_of_true rfl ⟨_, hlast.1.choose_spec.1⟩, fun _ => h⟩
    · rw [if_neg hbehind, Option.map_none]
      refine iff_of_false ?_ fun h => hbehind h.1
      rintro ⟨ret, new_start, new_end, hresult, _⟩
      cases hresult

/-- The second of four blocks is in use, and trimming takes three at once. -/
theorem hasBitmapRangeNarrow_iff_used : Narrows ⟨List.replicate 16384 0, 16384, 0, [0x40], true⟩ 0 16384
    ((⟨List.replicate 16384 0, 16384, 0, [0x40], true⟩ : CowFile).hasBitmapRangeNarrow 0 16384 12288) := by
  have hbit : ∀ k < 4, (⟨[], 16384, 0, [0x40], true⟩ : CowFile).bit k = true → k = 1 := by decide
  refine (hasBitmapRangeNarrow_iff _ 0 16384 12288 ?_ (by decide) (Nat.le_refl 16384) (by decide)).mpr ?_
  · simp [CowFile.Covered, blocksize]
  · rintro _ ⟨⟨p, ⟨-, hlt, hused⟩, rfl⟩, -⟩
    rw [hbit (p / blocksize) (Nat.div_lt_of_lt_mul hlt) hused]
    exact ⟨by decide, by decide⟩

/-- The second of two blocks in use is lost. -/
theorem hasBitmapRangeNarrow_loses : ¬ ∀ (s : CowFile) (offset_start offset_end trim_blocksize : Nat), s.Covered →
    offset_start < offset_end → offset_end ≤ s.filesize → 0 < trim_blocksize →
    Narrows s offset_start offset_end (s.hasBitmapRangeNarrow offset_start offset_end trim_blocksize) := by
  intro h
  let s : CowFile := ⟨List.replicate 8192 0, 8192, 0, [0xC0], true⟩
  have hcovered : s.Covered := by
    unfold CowFile.Covered blocksize
    simp [s]
  have hresult : s.hasBitmapRangeNarrow 0 8192 4096 = some (true, 0, 4096) := by decide +kernel
  obtain ⟨ret, new_start, new_end, hnew, _, hnarrow⟩ := h s 0 8192 4096 hcovered (by decide) (Nat.le_refl 8192) (by decide)
  rw [hresult] at hnew
  obtain ⟨rfl, rfl, rfl⟩ : true = ret ∧ 0 = new_start ∧ 4096 = new_end := by simpa using hnew
  have hlast := (hnarrow rfl).2.2 4096 ⟨by decide, by decide, by decide⟩
  exact Nat.lt_irrefl 4096 hlast.2

end Ranges

end urbackup.cowfile
