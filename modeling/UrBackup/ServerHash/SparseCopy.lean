import UrBackup.Cbt.HashEntries
import UrBackup.ServerHash.CopyFile

namespace urbackup.serverhash

open stringtools filedata urbackup.cbt

/-- A position is in one of the extents. -/
def InExtents (extents : List SSparseExtent) (i : Nat) : Prop :=
  ∃ e ∈ extents, e.offset ≤ i ∧ i < e.offset + e.size

/-- A sorted list of extents that are in a file and have only zeros. -/
structure Truthful (content : Bytes) (extents : List SSparseExtent) : Prop where
  sorted : extents.Pairwise (fun e f => e.offset + e.size ≤ f.offset)
  sized : ∀ e ∈ extents, 0 < e.size ∧ e.offset + e.size ≤ content.length
  zeros : ∀ i, InExtents extents i → content.getD i 0 = 0

section Extents

variable {content : Bytes} {e : SSparseExtent} {es : List SSparseExtent} {i : Nat}

theorem inExtents_cons : InExtents (e :: es) i ↔ (e.offset ≤ i ∧ i < e.offset + e.size) ∨ InExtents es i := by
  simp [InExtents]

theorem Truthful.tail (h : Truthful content (e :: es)) : Truthful content es where
  sorted := h.sorted.tail
  sized := fun f hf => h.sized f (List.mem_cons_of_mem e hf)
  zeros := fun i hi => h.zeros i (inExtents_cons.mpr (Or.inr hi))

theorem Truthful.behind (h : Truthful content (e :: es)) : ∀ f ∈ es, e.offset + e.size ≤ f.offset :=
  (List.pairwise_cons.mp h.sorted).1

/-- Where the last extent ends. -/
def lastEnd : Nat → List SSparseExtent → Nat
  | pos, [] => pos
  | _, e :: es => lastEnd (e.offset + e.size) es

theorem lt_lastEnd_iff (h : Truthful content es) {pos : Nat} (hpos : ∀ f ∈ es, pos ≤ f.offset) :
    i < lastEnd pos es ↔ i < pos ∨ ∃ e ∈ es, i < e.offset + e.size := by
  induction es generalizing pos with
  | nil => simp [lastEnd]
  | cons e es ih =>
    have hle := hpos e List.mem_cons_self
    rw [lastEnd, ih h.tail h.behind, List.exists_mem_cons_iff]
    constructor
    · exact Or.inr
    · rintro (hlt | hor)
      · exact Or.inl (by omega)
      · exact hor

theorem lastEnd_le (h : Truthful content es) {pos : Nat} (hpos : pos ≤ content.length) : lastEnd pos es ≤ content.length := by
  induction es generalizing pos with
  | nil => exact hpos
  | cons e es ih => exact ih h.tail (h.sized e List.mem_cons_self).2

end Extents

namespace Copying

variable {ok : Nat → Bool} {s s' : Copying}

theorem seekSource_some {pos : Nat} (h : s.seekSource ok pos = some s') :
    s' = { s with tf := s.tf.Seek pos, ops := s.ops + 1 } := by
  rw [seekSource] at h
  split at h
  · exact (Option.some.inj h).symm
  · cases h

theorem seekDest_some {pos : Nat} (h : s.seekDest ok pos = some s') :
    s' = { s with dst := s.dst.Seek pos, ops := s.ops + 1 } := by
  rw [seekDest] at h
  split at h
  · exact (Option.some.inj h).symm
  · cases h

theorem writeRepeatFreeSpace_some {buf : Bytes} (h : s.writeRepeatFreeSpace ok buf = some s') :
    s' = { s with dst := s.dst.Write buf, ops := s.ops + 1 } := by
  rw [writeRepeatFreeSpace] at h
  split at h
  · exact (Option.some.inj h).symm
  · cases h

/-- Only the destination is another one. -/
structure SameSource (s s' : Copying) : Prop where
  tf : s'.tf = s.tf
  extents : s'.extents = s.extents
  cow_filesize : s'.cow_filesize = s.cow_filesize

theorem length_Write_le (f : IFile) (buf : Bytes) : (f.Write buf).content.length ≤ max f.content.length (f.pos + buf.length) := by
  obtain hle | hlt := Nat.lt_or_ge f.content.length f.pos |>.symm
  · exact (length_overwrite_max 0 hle buf).le
  · by_cases hbuf : buf = []
    · rw [hbuf]
      exact le_max_left _ _
    · exact (length_overwrite_gap 0 hlt.le hbuf).le.trans (le_max_right _ _)

theorem writeZeros_some {size written : Nat} (hle : written ≤ size) (h : s.writeZeros ok size written = some s') :
    SameSource s s' ∧
      Wiped (fun i => s.dst.pos ≤ i ∧ i < s.dst.pos + (size - written)) s.dst.content s'.dst.content ∧
      s'.dst.content.length ≤ max s.dst.content.length (s.dst.pos + (size - written)) := by
  induction hn : size - written using Nat.strongRecOn generalizing s written with
  | ind n ih =>
    rw [writeZeros] at h
    split at h
    · next hlt =>
      obtain ⟨t, ht, h⟩ := Option.bind_eq_some_iff.mp h
      obtain rfl := writeRepeatFreeSpace_some ht
      obtain ⟨k, hk⟩ : ∃ k, min (size - written) 32768 = k := ⟨_, rfl⟩
      rw [hk] at h
      obtain ⟨hsame, hwiped, hlength⟩ := ih (size - (written + k)) (by omega) (by omega) h rfl
      have hpos : ((s.dst.Write (List.replicate k 0)).pos) = s.dst.pos + k := by
        rw [IFile.Write, List.length_replicate]
      have hfirst := wiped_overwrite s.dst.content s.dst.pos (show 0 < k by omega)
      refine ⟨⟨hsame.tf, hsame.extents, hsame.cow_filesize⟩, ?_, ?_⟩
      · refine (hfirst.trans hwiped).congr fun i => ?_
        dsimp only
        rw [hpos]
        omega
      · dsimp only at hlength
        rw [hpos] at hlength
        have hwrite := length_Write_le s.dst (List.replicate k 0)
        rw [List.length_replicate] at hwrite
        omega
    · cases h
      refine ⟨⟨rfl, rfl, rfl⟩, (wiped_refl _).congr fun i => ?_, le_max_left _ _⟩
      rw [false_iff]
      omega

/-- The extent is zeros, and the destination does not get longer than that. -/
theorem punchHoleOrZero_some {offset size : Nat} (hsize : 0 < size) (h : s.punchHoleOrZero ok offset size = some s') :
    SameSource s s' ∧ Wiped (fun i => offset ≤ i ∧ i < offset + size) s.dst.content s'.dst.content ∧
      s'.dst.content.length ≤ max s.dst.content.length (offset + size) := by
  rw [punchHoleOrZero] at h
  split at h
  · cases h
    refine ⟨⟨rfl, rfl, rfl⟩, wiped_punchHole s.dst.content offset hsize, ?_⟩
    have hle := length_Write_le (s.dst.Seek offset) (List.replicate (min size (s.dst.content.length - offset)) 0)
    rw [List.length_replicate] at hle
    change (s.dst.PunchHole offset size).content.length ≤ max s.dst.content.length (offset + _) at hle
    refine hle.trans ?_
    omega
  · obtain ⟨t, ht, h⟩ := Option.bind_eq_some_iff.mp h
    obtain rfl := seekDest_some ht
    obtain ⟨hsame, hwiped, hlength⟩ := writeZeros_some (Nat.zero_le _) h
    exact ⟨⟨hsame.tf, hsame.extents, hsame.cow_filesize⟩, hwiped, hlength⟩

end Copying

section CopyFile

variable {ok : Nat → Bool} {tf : Bytes} {es : List SSparseExtent} {s s' : CopyState}

/-- What is before the position is copied. Where the destination is shorter, an extent
ends there. -/
structure CopiedUpTo (tf : Bytes) (es : List SSparseExtent) (s : CopyState) : Prop where
  source : s.tf.content = tf
  sourcePos : s.tf.pos = s.fpos
  destPos : s.dst.pos = s.fpos
  inSource : s.fpos ≤ tf.length
  truthful : Truthful tf es
  ahead : ∀ e ∈ es, s.fpos ≤ e.offset
  copied : ∀ i, i < s.fpos → s.dst.content.getD i 0 = tf.getD i 0
  short : s.dst.content.length ≤ s.fpos
  ends : s.dst.content.length = s.fpos ∨ s.sparse_max = some s.fpos

theorem copySkip_some (hs : CopiedUpTo tf es s) (h : copySkip ok es s = some s') :
    CopiedUpTo tf s'.extents s' ∧ s.fpos ≤ s'.fpos ∧ ∀ e ∈ s'.extents, s'.fpos < e.offset := by
  induction es generalizing s with
  | nil =>
    cases h
    exact ⟨⟨hs.source, hs.sourcePos, hs.destPos, hs.inSource, hs.truthful, hs.ahead, hs.copied, hs.short, hs.ends⟩, le_refl _,
      fun e he => absurd he List.not_mem_nil⟩
  | cons e es ih =>
    have hahead := hs.ahead e List.mem_cons_self
    obtain ⟨hsize, hin⟩ := hs.truthful.sized e List.mem_cons_self
    rw [copySkip] at h
    split at h
    · next hcond =>
      obtain ⟨c1, h1, h⟩ := Option.bind_eq_some_iff.mp h
      obtain ⟨c2, h2, h⟩ := Option.bind_eq_some_iff.mp h
      obtain ⟨c3, h3, h⟩ := Option.bind_eq_some_iff.mp h
      obtain rfl := Copying.seekSource_some h1
      obtain ⟨hsame, hwiped, hlength⟩ := Copying.punchHoleOrZero_some hsize h2
      obtain rfl := Copying.seekDest_some h3
      have hstart : e.offset = s.fpos := by omega
      have hshort := hs.short
      dsimp only at hwiped hlength
      have htf : c2.tf = s.tf.Seek (e.offset + e.size) := hsame.tf
      have hnext : CopiedUpTo tf es
          { c2 with
            dst := c2.dst.Seek (e.offset + e.size)
            ops := c2.ops + 1
            fpos := e.offset + e.size
            sparse_max := some (e.offset + e.size) } := by
        refine ⟨?_, ?_, rfl, hin, hs.truthful.tail, hs.truthful.behind, ?_, ?_, Or.inr rfl⟩
        · change c2.tf.content = tf
          rw [htf]
          exact hs.source
        · change c2.tf.pos = e.offset + e.size
          rw [htf]
          rfl
        · intro i hi
          change i < e.offset + e.size at hi
          change c2.dst.content.getD i 0 = tf.getD i 0
          by_cases hext : e.offset ≤ i
          · rw [(hwiped i).1 ⟨hext, hi⟩, hs.truthful.zeros i (inExtents_cons.mpr (Or.inl ⟨hext, hi⟩))]
          · rw [(hwiped i).2 (by omega)]
            exact hs.copied i (by omega)
        · change c2.dst.content.length ≤ e.offset + e.size
          omega
      obtain ⟨hupto, hle, hbehind⟩ := ih hnext h
      refine ⟨hupto, ?_, hbehind⟩
      change e.offset + e.size ≤ s'.fpos at hle
      omega
    · next hcond =>
      cases h
      have hlt : s.fpos < e.offset := by omega
      refine ⟨⟨hs.source, hs.sourcePos, hs.destPos, hs.inSource, hs.truthful, hs.ahead, hs.copied, hs.short, hs.ends⟩, le_refl _,
        fun f hf => ?_⟩
      obtain rfl | hf := List.mem_cons.mp hf
      · exact hlt
      · have hbehind := hs.truthful.behind f hf
        change s.fpos < f.offset
        omega

/-- What is read next is before the next extent. -/
theorem toreadOf_bounds {fpos : Nat} (hes : Truthful tf es) (hlt : ∀ e ∈ es, fpos < e.offset) :
    0 < toreadOf es fpos ∧ ∀ e ∈ es, fpos + toreadOf es fpos ≤ e.offset := by
  cases es with
  | nil => exact ⟨Nat.succ_pos _, fun e he => absurd he List.not_mem_nil⟩
  | cons e es =>
    have hhead := hlt e List.mem_cons_self
    have hbounds : 0 < toreadOf (e :: es) fpos ∧ fpos + toreadOf (e :: es) fpos ≤ e.offset := by
      rw [toreadOf]
      unfold BUFFER_SIZE
      split <;> omega
    refine ⟨hbounds.1, fun f hf => ?_⟩
    obtain rfl | hf := List.mem_cons.mp hf
    · exact hbounds.2
    · have hbehind := hes.behind f hf
      omega

/-- The bytes behind a position that are written at the same place. -/
theorem getD_Write (f : IFile) (buf : Bytes) (i : Nat) :
    (f.Write buf).content.getD i 0 = if f.pos ≤ i ∧ i < f.pos + buf.length then buf.getD (i - f.pos) 0 else f.content.getD i 0 := by
  by_cases hbuf : buf = []
  · rw [hbuf, if_neg (by simp)]
    rfl
  · rw [IFile.Write, List.getD_eq_getElem?_getD, getElem?_overwrite 0 hbuf]
    by_cases hfront : i < f.pos
    · rw [if_pos hfront, if_neg (by omega), Option.getD_some]
    · rw [if_neg hfront]
      by_cases hin : i < f.pos + buf.length
      · rw [if_pos hin, if_pos ⟨by omega, hin⟩, List.getD_eq_getElem?_getD]
      · rw [if_neg hin, if_neg (by omega), List.getD_eq_getElem?_getD]

theorem getD_slice {content : Bytes} {pos n i : Nat} (hle : pos ≤ i) (hlt : i < pos + (slice content pos n).length) :
    (slice content pos n).getD (i - pos) 0 = content.getD i 0 := by
  rw [length_slice] at hlt
  rw [List.getD_eq_getElem?_getD, getElem?_slice, if_pos (by omega), Nat.add_sub_cancel' hle, List.getD_eq_getElem?_getD]

/-- A loop that works ends with all copied. -/
theorem copyLoop_cases {fuel : Nat} (hs : CopiedUpTo tf s.extents s) (hfuel : tf.length < s.fpos + fuel) :
    copyLoop ok fuel s = .failed ∨ ∃ s', copyLoop ok fuel s = .done s' ∧ CopiedUpTo tf s'.extents s' ∧ s'.fpos = tf.length := by
  induction fuel generalizing s with
  | zero =>
    have hin := hs.inSource
    omega
  | succ fuel ih =>
    rw [copyLoop]
    cases hskip : copySkip ok s.extents s with
    | none => exact Or.inl rfl
    | some t =>
      obtain ⟨ht, hle, hbehind⟩ := copySkip_some hs hskip
      obtain ⟨hpos, hbefore⟩ := toreadOf_bounds ht.truthful hbehind
      have hin := ht.inSource
      dsimp only
      split
      · exact Or.inl rfl
      · have hbuf : (t.tf.Read (toreadOf t.extents t.fpos)).1 = slice tf t.fpos (toreadOf t.extents t.fpos) := by
          rw [IFile.Read, ht.source, ht.sourcePos]
        have htf : (t.tf.Read (toreadOf t.extents t.fpos)).2 =
            ⟨tf, t.fpos + (slice tf t.fpos (toreadOf t.extents t.fpos)).length⟩ := by
          rw [IFile.Read, ht.source, ht.sourcePos]
        rw [hbuf, htf]
        have hlength := length_slice tf t.fpos (toreadOf t.extents t.fpos)
        obtain ⟨buf, hslice⟩ : ∃ buf, slice tf t.fpos (toreadOf t.extents t.fpos) = buf := ⟨_, rfl⟩
        rw [hslice] at hlength ⊢
        cases hwrite : Copying.writeRepeatFreeSpace ok
            { t.toCopying with tf := ⟨tf, t.fpos + buf.length⟩, ops := t.ops + 1 } buf with
        | none => exact Or.inl rfl
        | some c =>
          obtain rfl := Copying.writeRepeatFreeSpace_some hwrite
          have hnext : CopiedUpTo tf t.extents
              { t with
                tf := ⟨tf, t.fpos + buf.length⟩
                dst := t.dst.Write buf
                ops := t.ops + 1 + 1
                fpos := t.fpos + buf.length } := by
            have hshort := ht.short
            have hle := Copying.length_Write_le t.dst buf
            have hdest := ht.destPos
            refine ⟨rfl, rfl, ?_, ?_, ht.truthful, ?_, ?_, ?_, ?_⟩
            · change t.dst.pos + buf.length = _
              rw [hdest]
            · change t.fpos + buf.length ≤ tf.length
              omega
            · intro e he
              have := hbefore e he
              change t.fpos + buf.length ≤ e.offset
              omega
            · intro i hi
              change (t.dst.Write buf).content.getD i 0 = tf.getD i 0
              change i < t.fpos + buf.length at hi
              rw [getD_Write, hdest]
              split
              · next hin' =>
                rw [← hslice] at hi ⊢
                exact getD_slice hin'.1 hi
              · exact ht.copied i (by omega)
            · change (t.dst.Write buf).content.length ≤ t.fpos + buf.length
              omega
            · by_cases hempty : buf = []
              · rw [hempty]
                exact ht.ends
              · left
                change (overwrite 0 t.dst.content t.dst.pos buf).length = t.fpos + buf.length
                rw [length_overwrite_gap 0 (by omega) hempty, hdest]
          dsimp only
          split
          · exact ih hnext (by change tf.length < t.fpos + buf.length + fuel; omega)
          · refine Or.inr ⟨_, rfl, hnext, ?_⟩
            change t.fpos + buf.length = tf.length
            omega

end CopyFile

theorem ext_getD {xs ys : Bytes} (hlength : xs.length = ys.length) (h : ∀ i, i < ys.length → xs.getD i 0 = ys.getD i 0) : xs = ys := by
  apply List.ext_getElem hlength
  intro i hi hi'
  have hget := h i hi'
  rwa [List.getD_eq_getElem?_getD, List.getD_eq_getElem?_getD, List.getElem?_eq_getElem hi, List.getElem?_eq_getElem hi'] at hget

/-- A file that gets the size of another one is it, where it has its bytes. -/
theorem resize_eq_iff (f : IFile) (content : Bytes) :
    (f.Resize content.length).content = content ↔ ∀ i, i < content.length → f.content.getD i 0 = content.getD i 0 := by
  have hlength : (f.Resize content.length).content.length = content.length := by
    simp only [IFile.Resize, List.length_append, List.length_take, List.length_replicate]
    omega
  have hget : ∀ i, i < content.length → (f.Resize content.length).content.getD i 0 = f.content.getD i 0 := by
    intro i hi
    rw [IFile.Resize, List.getD_eq_getElem?_getD, List.getD_eq_getElem?_getD]
    by_cases hin : i < f.content.length
    · rw [List.getElem?_append_left (by simp; omega), List.getElem?_take_of_lt hi]
    · rw [List.getElem?_append_right (by simp; omega), List.getElem?_replicate, List.getElem?_eq_none (by omega)]
      split <;> rfl
  constructor
  · intro heq i hi
    rw [← hget i hi, heq]
  · intro h
    apply ext_getD hlength
    intro i hi
    rw [hget i hi, h i hi]

/-- A copy is the source. -/
theorem copyFile_cases (ok : Nat → Bool) {tf : IFile} {es : List SSparseExtent} (cow_filesize : Nat)
    (hes : Truthful tf.content es) :
    copyFile ok tf es cow_filesize = .failed ∨ ∃ s, copyFile ok tf es cow_filesize = .done s ∧ s.dst.content = tf.content := by
  rw [copyFile]
  split
  · exact Or.inl rfl
  · have hstart : CopiedUpTo tf.content es
        { tf := tf.Seek 0, dst := ⟨[], 0⟩, extents := es, cow_filesize, ops := 1, fpos := 0, sparse_max := none } :=
      ⟨rfl, rfl, rfl, Nat.zero_le _, hes, fun _ _ => Nat.zero_le _, fun i hi => absurd hi (Nat.not_lt_zero i), le_refl _, Or.inl rfl⟩
    obtain hfailed | ⟨s, hdone, hs, hpos⟩ := @copyLoop_cases ok tf.content
      { tf := tf.Seek 0, dst := ⟨[], 0⟩, extents := es, cow_filesize, ops := 1, fpos := 0, sparse_max := none }
      (tf.content.length + 2) hstart (by dsimp only; omega)
    · rw [hfailed]
      exact Or.inl rfl
    · rw [hdone]
      dsimp only
      have hcopied := hs.copied
      have hshort := hs.short
      rw [hpos] at hcopied hshort
      have hsource := hs.source
      rw [resizeSparse]
      obtain hfull | hsparse := hs.ends
      · rw [hpos] at hfull
        have hcontent := ext_getD hfull hcopied
        cases hmax : s.sparse_max with
        | none => exact Or.inr ⟨_, rfl, hcontent⟩
        | some sparse_max =>
          dsimp only
          split
          · split
            · refine Or.inr ⟨_, rfl, ?_⟩
              dsimp only
              rw [hsource, Nat.min_eq_left (by omega), resize_eq_iff]
              exact hcopied
            · exact Or.inl rfl
          · exact Or.inr ⟨_, rfl, hcontent⟩
      · rw [hsparse, hpos]
        dsimp only
        split
        · split
          · refine Or.inr ⟨_, rfl, ?_⟩
            dsimp only
            rw [hsource, Nat.min_self, resize_eq_iff]
            exact hcopied
          · exact Or.inl rfl
        · exact Or.inr ⟨_, rfl, ext_getD (by omega) hcopied⟩

section ReplaceFile

variable {ok : Nat → Bool} {copy : Bool} {tf base : Bytes} {es : List SSparseExtent} {s s' : ReplaceState} {start : Nat}

/-- All extents are in front of the position or behind it, so they are taken at once. -/
theorem replaceSkip_some (hes : Truthful tf es) (hahead : ∀ e ∈ es, s.dst_pos ≤ e.offset) (hsource : s.tf.content = tf)
    (hpos : s.tf.pos = s.dst_pos) (hdest : s.dst.pos = s.dst_pos) (h : replaceSkip ok es s = some s') :
    s'.extents = [] ∧ s'.tf.content = tf ∧ s'.tf.pos = s'.dst_pos ∧ s'.dst.pos = s'.dst_pos ∧ s'.dst_eof = s.dst_eof ∧
      s'.dst_pos = lastEnd s.dst_pos es ∧ Wiped (InExtents es) s.dst.content s'.dst.content := by
  induction es generalizing s with
  | nil =>
    cases h
    refine ⟨rfl, hsource, hpos, hdest, rfl, rfl, (wiped_refl _).congr fun i => ?_⟩
    simp [InExtents]
  | cons e es ih =>
    have hfirst := hahead e List.mem_cons_self
    obtain ⟨hsize, hin⟩ := hes.sized e List.mem_cons_self
    rw [replaceSkip, if_pos ⟨hfirst, by omega⟩] at h
    obtain ⟨c1, h1, h⟩ := Option.bind_eq_some_iff.mp h
    obtain ⟨c2, h2, h⟩ := Option.bind_eq_some_iff.mp h
    obtain ⟨c3, h3, h⟩ := Option.bind_eq_some_iff.mp h
    obtain ⟨hsame, hwiped, -⟩ := Copying.punchHoleOrZero_some hsize h1
    obtain rfl := Copying.seekSource_some h2
    obtain rfl := Copying.seekDest_some h3
    have htf : c1.tf = s.tf := hsame.tf
    have hcontent : c1.tf.content = tf := by rw [htf, hsource]
    obtain ⟨hextents, hsource', hpos', hdest', heof, hend, hwiped'⟩ := ih hes.tail hes.behind hcontent rfl rfl h
    refine ⟨hextents, hsource', hpos', hdest', heof, hend, (hwiped.trans hwiped').congr fun i => ?_⟩
    rw [inExtents_cons]

/-- What is between `start` and the position is copied, and what is before it is as in
`base`. -/
structure ReplacedFrom (tf base : Bytes) (start : Nat) (s : ReplaceState) : Prop where
  extents : s.extents = []
  source : s.tf.content = tf
  sourcePos : s.tf.pos = s.dst_pos
  destPos : s.dst_eof = false → s.dst.pos = s.dst_pos
  inSource : s.dst_pos ≤ tf.length
  behind : start ≤ s.dst_pos
  copied : ∀ i, start ≤ i → i < s.dst_pos → s.dst.content.getD i 0 = tf.getD i 0
  kept : ∀ i, i < start → s.dst.content.getD i 0 = base.getD i 0

/-- The destination is read at the position, unless it ended. -/
theorem readDest_cases (hdest : s.dst_eof = false → s.dst.pos = s.dst_pos) :
    (readDest s).2.content = s.dst.content ∧
      ((readDest s).1 = [] ∧ s.dst_eof = true ∨
        (readDest s).1 = slice s.dst.content s.dst_pos RP_COPY_BLOCKSIZE ∧ s.dst_eof = false ∧
          (readDest s).2.pos = s.dst_pos + (readDest s).1.length) := by
  rw [readDest]
  cases heof : s.dst_eof with
  | true => exact ⟨rfl, Or.inl ⟨rfl, rfl⟩⟩
  | false =>
    rw [if_neg Bool.false_ne_true, IFile.Read, hdest heof]
    exact ⟨rfl, Or.inr ⟨rfl, rfl, rfl⟩⟩

theorem writeChanged_some {buf1 buf2 : Bytes} {c : Copying} (h : writeChanged ok copy s buf1 buf2 = some c) :
    c.tf = s.tf ∧ c.extents = s.extents ∧
      (buf1 = buf2 ∧ c.dst = s.dst ∨ buf1 ≠ buf2 ∧ c.dst = (s.dst.Seek s.dst_pos).Write buf1) := by
  rw [writeChanged] at h
  split at h
  · next hne =>
    obtain rfl := Copying.writeRepeatFreeSpace_some h
    exact ⟨rfl, rfl, Or.inr ⟨hne, rfl⟩⟩
  · next heq =>
    cases h
    exact ⟨rfl, rfl, Or.inl ⟨not_not.mp heq, rfl⟩⟩

/-- A loop that works ends with all copied. -/
theorem replaceLoop_cases {fuel : Nat} (hs : ReplacedFrom tf base start s) (hfuel : tf.length < s.dst_pos + fuel) :
    replaceLoop ok copy fuel s = .failed ∨
      ∃ s', replaceLoop ok copy fuel s = .done s' ∧ ReplacedFrom tf base start s' ∧ s'.dst_pos = tf.length := by
  induction fuel generalizing s with
  | zero =>
    have hin := hs.inSource
    omega
  | succ fuel ih =>
    have hin := hs.inSource
    have hbehind := hs.behind
    have hskip : replaceSkip ok s.extents s = some s := by
      obtain ⟨⟨stf, sdst, sextents, scow, sops⟩, spos, seof⟩ := s
      obtain rfl : sextents = [] := hs.extents
      rfl
    obtain ⟨hcontent, hdest⟩ := readDest_cases hs.destPos
    obtain ⟨buf1, hslice⟩ : ∃ buf1, slice tf s.dst_pos RP_COPY_BLOCKSIZE = buf1 := ⟨_, rfl⟩
    have hread : s.tf.Read RP_COPY_BLOCKSIZE = (buf1, ⟨tf, s.dst_pos + buf1.length⟩) := by
      rw [IFile.Read, hs.source, hs.sourcePos, hslice]
    have hlength := length_slice tf s.dst_pos RP_COPY_BLOCKSIZE
    rw [hslice] at hlength
    have hbuf1 : ∀ i, s.dst_pos ≤ i → i < s.dst_pos + buf1.length → buf1.getD (i - s.dst_pos) 0 = tf.getD i 0 := by
      rw [← hslice]
      exact fun i hle hlt => getD_slice hle hlt
    have hblock : 0 < RP_COPY_BLOCKSIZE := Nat.succ_pos _
    rw [replaceLoop, hskip]
    dsimp only
    rw [hread]
    dsimp only
    split
    · exact Or.inl rfl
    split
    · exact Or.inl rfl
    · next c hc =>
      obtain ⟨htf, hextents, hdst⟩ := writeChanged_some hc
      have hnext : ReplacedFrom tf base start
          ⟨c, s.dst_pos + buf1.length, s.dst_eof || decide ((readDest s).1.length < buf1.length)⟩ := by
        constructor
        · exact hextents.trans hs.extents
        · exact congrArg IFile.content htf
        · exact congrArg IFile.pos htf
        · intro heof
          simp only [Bool.or_eq_false_iff] at heof
          change c.dst.pos = s.dst_pos + buf1.length
          obtain ⟨heq, hdst⟩ | ⟨-, hdst⟩ := hdst
          · obtain ⟨-, htrue⟩ | ⟨-, -, hpos⟩ := hdest
            · cases htrue.symm.trans heof.1
            · rw [hdst, heq]
              exact hpos
          · rw [hdst]
            rfl
        · change s.dst_pos + buf1.length ≤ tf.length
          omega
        · exact hbehind.trans (Nat.le_add_right _ _)
        · intro i hle hlt
          change i < s.dst_pos + buf1.length at hlt
          change c.dst.content.getD i 0 = tf.getD i 0
          obtain ⟨heq, hdst⟩ | ⟨-, hdst⟩ := hdst
          · rw [hdst]
            change (readDest s).2.content.getD i 0 = tf.getD i 0
            rw [hcontent]
            by_cases hi : i < s.dst_pos
            · exact hs.copied i hle hi
            · rw [← hbuf1 i (by omega) hlt]
              rw [heq] at hlt ⊢
              obtain ⟨hempty, -⟩ | ⟨hsame, -, -⟩ := hdest
              · rw [hempty, List.length_nil] at hlt
                omega
              · rw [hsame] at hlt ⊢
                exact (getD_slice (by omega) hlt).symm
          · rw [hdst, getD_Write]
            change (if s.dst_pos ≤ i ∧ i < s.dst_pos + buf1.length then buf1.getD (i - s.dst_pos) 0
              else (readDest s).2.content.getD i 0) = _
            split
            · next hin' => exact hbuf1 i hin'.1 hin'.2
            · rw [hcontent]
              exact hs.copied i hle (by omega)
        · intro i hi
          change c.dst.content.getD i 0 = base.getD i 0
          obtain ⟨-, hdst⟩ | ⟨-, hdst⟩ := hdst
          · rw [hdst]
            change (readDest s).2.content.getD i 0 = _
            rw [hcontent]
            exact hs.kept i hi
          · rw [hdst, getD_Write]
            change (if s.dst_pos ≤ i ∧ i < s.dst_pos + buf1.length then buf1.getD (i - s.dst_pos) 0
              else (readDest s).2.content.getD i 0) = _
            rw [if_neg (by omega), hcontent]
            exact hs.kept i hi
      split
      · exact ih hnext (by change tf.length < s.dst_pos + buf1.length + fuel; omega)
      · refine Or.inr ⟨_, rfl, hnext, ?_⟩
        change s.dst_pos + buf1.length = tf.length
        omega

/-- Where all works the loop does. -/
theorem replaceLoop_works (hok : ∀ n, ok n = true) (fuel : Nat) (s : ReplaceState) : replaceLoop ok copy fuel s ≠ .failed := by
  have hskip : ∀ (es : List SSparseExtent) (s : ReplaceState), replaceSkip ok es s ≠ none := by
    intro es
    induction es with
    | nil => exact fun s => Option.some_ne_none _
    | cons e es ih =>
      intro s
      rw [replaceSkip]
      split
      · simp only [Copying.punchHoleOrZero, Copying.seekSource, Copying.seekDest, hok, if_true, Option.bind_eq_bind,
          Option.bind_some]
        exact ih _
      · exact Option.some_ne_none _
  induction fuel generalizing s with
  | zero => simp [replaceLoop]
  | succ fuel ih =>
    obtain ⟨t, ht⟩ := Option.ne_none_iff_exists'.mp (hskip s.extents s)
    rw [replaceLoop, ht]
    dsimp only
    rw [hok, if_neg (by simp)]
    split
    · next hnone =>
      rw [writeChanged] at hnone
      split at hnone
      · simp [Copying.writeRepeatFreeSpace, hok] at hnone
      · cases hnone
    · split
      · exact ih _
      · simp

theorem replaceFile_works (hok : ∀ n, ok n = true) (copy : Bool) (tf : IFile) (old : Bytes) (es : List SSparseExtent)
    (cow_filesize : Nat) : replaceFile ok copy tf old es true cow_filesize ≠ .failed := by
  rw [replaceFile, if_neg (by simp)]
  dsimp only
  rw [hok, if_neg (by simp)]
  split
  · simp
  · next hfailed => exact absurd hfailed (replaceLoop_works hok _ _)
  · rw [hok, if_pos rfl]
    split <;> simp

/-- The bytes that an extent behind them leaves as they are in the destination are
those of the source. -/
def KeepsSource (tf old : Bytes) (es : List SSparseExtent) : Prop :=
  ∀ i, (∃ e ∈ es, i < e.offset + e.size) → ¬ InExtents es i → old.getD i 0 = tf.getD i 0

theorem replaceFile_cases (ok : Nat → Bool) (copy : Bool) {tf : IFile} (old : Bytes) {es : List SSparseExtent}
    (cow_filesize : Nat) (hes : Truthful tf.content es) :
    replaceFile ok copy tf old es true cow_filesize = .failed ∨
      ∃ s, replaceFile ok copy tf old es true cow_filesize = .done s ∧
        (s.dst.content = tf.content ↔ KeepsSource tf.content old es) := by
  rw [replaceFile, if_neg (by simp)]
  dsimp only
  split
  · exact Or.inl rfl
  obtain ⟨s, hs⟩ : ∃ s : ReplaceState, s =
      { tf := tf.Seek 0, dst := ⟨old, 0⟩, extents := es, cow_filesize, ops := 1, dst_pos := 0, dst_eof := false } := ⟨_, rfl⟩
  rw [← hs]
  have hextents : s.extents = es := by rw [hs]
  have hold : s.dst.content = old := by rw [hs]
  have hzero : s.dst_pos = 0 := by rw [hs]
  cases hskip : replaceSkip ok s.extents s with
  | none =>
    rw [replaceLoop, hskip]
    exact Or.inl rfl
  | some t =>
    rw [hextents] at hskip
    obtain ⟨htextents, hsource, hpos, hdest, heof, hend, hwiped⟩ := replaceSkip_some hes
      (fun e _ => by rw [hzero]; exact Nat.zero_le _) (by rw [hs]; rfl) (by rw [hs]; rfl) (by rw [hs]) hskip
    rw [hzero] at hend
    rw [hold] at hwiped
    have hfirst : replaceLoop ok copy (tf.content.length + 2) s = replaceLoop ok copy (tf.content.length + 2) t := by
      have hagain : replaceSkip ok t.extents t = some t := by
        obtain ⟨⟨ttf, tdst, textents, tcow, tops⟩, tpos, teof⟩ := t
        obtain rfl : textents = [] := htextents
        rfl
      rw [replaceLoop, replaceLoop, hextents, hskip, hagain]
    have hin : t.dst_pos ≤ tf.content.length := hend ▸ lastEnd_le hes (Nat.zero_le _)
    have hstart : ReplacedFrom tf.content t.dst.content t.dst_pos t :=
      ⟨htextents, hsource, hpos, fun _ => hdest, hin, le_refl _, fun i hle hlt => absurd hlt (Nat.not_lt_of_le hle), fun _ _ => rfl⟩
    rw [hfirst]
    obtain hfailed | ⟨r, hdone, hr, hrpos⟩ := replaceLoop_cases hstart
      (show tf.content.length < t.dst_pos + (tf.content.length + 2) by omega)
    · rw [hfailed]
      exact Or.inl rfl
    · rw [hdone]
      dsimp only
      have hsame : (∀ i, i < tf.content.length → r.dst.content.getD i 0 = tf.content.getD i 0) ↔ KeepsSource tf.content old es := by
        have hlast : ∀ i, i < t.dst_pos ↔ ∃ e ∈ es, i < e.offset + e.size := by
          intro i
          rw [hend, lt_lastEnd_iff hes (fun e _ => Nat.zero_le _), or_iff_right (Nat.not_lt_zero i)]
        constructor
        · intro h i hlt hnot
          have hi := (hlast i).mpr hlt
          rw [← (hwiped i).2 hnot, ← hr.kept i hi]
          exact h i (by omega)
        · intro h i hi
          obtain hlt | hge := Nat.lt_or_ge i t.dst_pos
          · rw [hr.kept i hlt]
            by_cases hext : InExtents es i
            · rw [(hwiped i).1 hext, hes.zeros i hext]
            · rw [(hwiped i).2 hext]
              exact h i ((hlast i).mp hlt) hext
          · exact hr.copied i hge (by omega)
      rw [hr.source]
      split
      · split
        · refine Or.inr ⟨_, rfl, ?_⟩
          dsimp only
          rw [resize_eq_iff]
          exact hsame
        · exact Or.inl rfl
      · next hlength =>
        refine Or.inr ⟨_, rfl, ?_⟩
        rw [← hsame]
        exact ⟨fun heq i _ => by rw [heq], fun h => ext_getD (not_not.mp hlength) h⟩

end ReplaceFile

/-- A copy is the source for every run of the operations. So is what is replaced,
exactly where nothing between the extents differs in the old destination. -/
theorem replaceFile_content_iff (copy : Bool) (tf : IFile) (old : Bytes) (es : List SSparseExtent) (reflink : Bool)
    (cow_filesize : Nat) (hes : Truthful tf.content es) :
    (∀ ok, copyFile ok tf es cow_filesize ≠ .running ∧ replaceFile ok copy tf old es reflink cow_filesize ≠ .running ∧
        (∀ s, copyFile ok tf es cow_filesize = .done s → s.dst.content = tf.content) ∧
        ∀ s, replaceFile ok copy tf old es reflink cow_filesize = .done s → s.dst.content = tf.content) ↔
      (reflink = true → KeepsSource tf.content old es) := by
  have hcopy : ∀ ok, copyFile ok tf es cow_filesize ≠ .running ∧
      ∀ s, copyFile ok tf es cow_filesize = .done s → s.dst.content = tf.content := by
    intro ok
    obtain hfailed | ⟨s, hdone, hcontent⟩ := copyFile_cases ok cow_filesize hes
    · rw [hfailed]
      exact ⟨by simp, fun s h => by cases h⟩
    · rw [hdone]
      refine ⟨by simp, fun s' h => ?_⟩
      cases h
      exact hcontent
  constructor
  · rintro h rfl
    obtain hfailed | ⟨s, hdone, hiff⟩ := replaceFile_cases (fun _ => true) copy old cow_filesize hes
    · exact absurd hfailed (replaceFile_works (fun _ => rfl) copy tf old es cow_filesize)
    · exact hiff.mp ((h fun _ => true).2.2.2 s hdone)
  · intro h ok
    obtain ⟨hrunning, hcontent⟩ := hcopy ok
    cases hreflink : reflink with
    | false => exact ⟨hrunning, hrunning, hcontent, hcontent⟩
    | true =>
      obtain hfailed | ⟨s, hdone, hiff⟩ := replaceFile_cases ok copy old cow_filesize hes
      · rw [hfailed]
        exact ⟨hrunning, by simp, hcontent, fun s h => by cases h⟩
      · rw [hdone]
        refine ⟨hrunning, by simp, hcontent, fun s' hs' => ?_⟩
        cases hs'
        exact hiff.mpr (h hreflink)

theorem truthful_one {content : Bytes} {e : SSparseExtent} (hsize : 0 < e.size) (hin : e.offset + e.size ≤ content.length)
    (hzeros : ∀ i, i < content.length → e.offset ≤ i → i < e.offset + e.size → content.getD i 0 = 0) :
    Truthful content [e] where
  sorted := List.pairwise_singleton _ _
  sized := by
    intro f hf
    obtain rfl := List.mem_singleton.mp hf
    exact ⟨hsize, hin⟩
  zeros := by
    rintro i ⟨f, hf, hle, hlt⟩
    obtain rfl := List.mem_singleton.mp hf
    exact hzeros i (by omega) hle hlt

/-- Zeros at the start of a file. -/
theorem replaceFile_content_iff_front :
    ∃ s, replaceFile (fun _ => true) false ⟨[0, 0, 1, 2], 0⟩ [7, 7, 7, 7] [⟨0, 2⟩] true 0 = .done s ∧
      s.dst.content = [0, 0, 1, 2] := by
  have hreplaced := ((replaceFile_content_iff false ⟨[0, 0, 1, 2], 0⟩ [7, 7, 7, 7] [⟨0, 2⟩] true 0
    (truthful_one (by decide) (by decide) (by decide))).mpr ?_ fun _ => true).2.2.2
  · exact ⟨_, rfl, hreplaced _ rfl⟩
  · rintro - i ⟨e, he, hlt⟩ hnot
    exact absurd ⟨e, he, by rw [List.mem_singleton.mp he]; exact Nat.zero_le i, hlt⟩ hnot

/-- Zeros at the end of a file, of which the first byte is not copied. -/
theorem replaceFile_keeps_old :
    Truthful [1, 0, 0] [⟨1, 2⟩] ∧
      ∃ s, replaceFile (fun _ => true) false ⟨[1, 0, 0], 0⟩ [9, 9, 9] [⟨1, 2⟩] true 0 = .done s ∧
        s.dst.content = [9, 0, 0] :=
  ⟨truthful_one (by decide) (by decide) (by decide), _, rfl, rfl⟩

end urbackup.serverhash
