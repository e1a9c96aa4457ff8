import UrBackup.Vhd.ReadSectors

namespace urbackup.vhdfile

open stringtools filedata

namespace Layout

variable (v : Layout) (curr o n : Nat)

/-- A read of `n` bytes at `o` does not open an allocated block, because the file
seems to be too small. The current block is not checked. -/
def Refuses (block : Nat) : Prop :=
  ∃ d, v.place block = some d ∧ ¬ (block = curr ∧ ∀ b, o / v.blocksize ≤ b → b < block → v.Free b) ∧
    v.file.length < (d + v.bitmap_size + (if block = o / v.blocksize then o % v.blocksize else 0) + n) % 2 ^ 64

/-- A read does not go on behind an allocated block. -/
def Stops (block : Nat) : Prop :=
  v.Refuses curr o n block ∨ (v.place block).isSome ∧ v.dstsize ≤ (block + 1) * v.blocksize

/-- A read of `n` bytes at `o`, with a current block, takes no step that hangs. Where
it is behind the table, it stops before. -/
structure ReadsSafely (vs : List Layout) : Prop where
  steps : ∀ y, o ≤ y → y < o + n → v.StartsStep o y → (∀ b, o / v.blocksize ≤ b → b < y / v.blocksize → ¬ v.Stops curr o n b) →
    ¬ v.Refuses curr o n (y / v.blocksize) → ¬ Hangs (v :: vs) y (o + n - y)
  table : v.bat.length * v.blocksize < o + n → ∃ b, o / v.blocksize ≤ b ∧ b < v.bat.length ∧ v.Stops curr o n b

end Layout

open Layout

namespace VHDFile

variable {s t : VHDFile}

/-- The waiting bitmap is written. -/
theorem layout_written (hfile : t.file = s.layout.file) (hdirty : t.bitmap_dirty = false) (hblocksize : t.blocksize = s.blocksize)
    (hdstsize : t.dstsize = s.dstsize) (hbat : t.bat = s.bat) (hsize : t.bitmap_size = s.bitmap_size) : t.layout = s.layout := by
  have htfile : t.layout.file = s.layout.file := by
    rw [layout, hdirty]
    simpa using hfile
  have htblocksize : t.layout.blocksize = s.layout.blocksize := hblocksize
  have htdstsize : t.layout.dstsize = s.layout.dstsize := hdstsize
  have htbat : t.layout.bat = s.layout.bat := hbat
  have htsize : t.layout.bitmap_size = s.layout.bitmap_size := hsize
  revert htfile htblocksize htdstsize htbat htsize
  generalize t.layout = a
  generalize s.layout = b
  cases a
  cases b
  rintro rfl rfl rfl rfl rfl
  rfl

/-- Another bitmap is opened, after the waiting one was written. -/
theorem openToRead_other {block d : Nat} (off n : Nat) (hcurr : block ≠ s.currblock) (hbitmap : s.bitmap.length = s.bitmap_size)
    (hin : d + s.bitmap_size ≤ s.layout.file.length) :
    ∃ filepos ops, s.openToRead ReadIo.ok block d off n =
      if (d + s.bitmap_size + off + n) % 2 ^ 64 > s.layout.file.length then
        (false, { s with file := s.layout.file, filepos, ops, bitmap_offset := d, bitmap_dirty := false })
      else (true, { s with
        file := s.layout.file
        filepos
        ops
        bitmap := slice s.layout.file d s.bitmap_size
        bitmap_offset := d
        bitmap_dirty := false
        currblock := block }) := by
  have hopen : s.openToRead ReadIo.ok block d off n =
      let t := ((s.switchBitmap Io.ok d).fileSeek Io.ok d).2
      if (d + t.bitmap_size + off + n) % 2 ^ 64 > t.file.length then (false, t)
      else
        let bytes := (t.fileReadError ReadIo.ok t.bitmap_size).1
        let t := (t.fileReadError ReadIo.ok t.bitmap_size).2.2
        let t := { t with bitmap := bytes ++ t.bitmap.drop bytes.length }
        if bytes.length ≠ t.bitmap_size then (false, t) else (true, { t with currblock := block }) := if_neg hcurr
  obtain ⟨filepos, ops, hswitch⟩ := s.switchBitmap_ok d
  have hbytes : (slice s.layout.file d s.bitmap_size).length = s.bitmap_size := by
    rw [length_slice]
    omega
  have hrest : slice s.layout.file d s.bitmap_size ++ s.bitmap.drop s.bitmap_size = slice s.layout.file d s.bitmap_size := by
    rw [List.drop_eq_nil_of_le hbitmap.le, List.append_nil]
  rw [hswitch] at hopen
  dsimp only at hopen
  split at hopen
  · next hlt => exact ⟨d, ops + 1, hopen.trans (if_pos hlt).symm⟩
  · next hlt =>
    refine ⟨d + s.bitmap_size, ops + 2, Eq.trans ?_ (if_neg hlt).symm⟩
    rw [hopen, fileReadError_ok]
    change (if (slice s.layout.file d s.bitmap_size).length ≠ s.bitmap_size then _ else _) = _
    rw [if_neg (not_not.mpr hbytes)]
    change (true, { s with
      file := s.layout.file
      filepos := d + (slice s.layout.file d s.bitmap_size).length
      ops := ops + 2
      bitmap := slice s.layout.file d s.bitmap_size ++ s.bitmap.drop (slice s.layout.file d s.bitmap_size).length
      bitmap_offset := d
      bitmap_dirty := false
      currblock := block }) = _
    rw [hbytes, hrest]

/-- The bitmap of a block is opened, or the file is too small. -/
theorem openToRead_cases (hs : s.Loaded) {block d off n : Nat} (hplace : s.layout.place block = some d) :
    ∃ t : VHDFile, t.layout = s.layout ∧ t.Loaded ∧ t.curr_offset = s.curr_offset ∧
      (block ≠ s.currblock ∧ s.layout.file.length < (d + s.bitmap_size + off + n) % 2 ^ 64 ∧
          s.openToRead ReadIo.ok block d off n = (false, t) ∨
        (block = s.currblock ∨ (d + s.bitmap_size + off + n) % 2 ^ 64 ≤ s.layout.file.length) ∧ t.currblock = block ∧
          s.openToRead ReadIo.ok block d off n = (true, t)) := by
  by_cases hcurr : block = s.currblock
  · exact ⟨s, rfl, hs, rfl, Or.inr ⟨Or.inl hcurr, hcurr.symm, if_pos hcurr⟩⟩
  have hle := s.le_layout_file
  have hin := hs.inFile block d hplace
  have hbytes : (slice s.layout.file d s.bitmap_size).length = s.bitmap_size := by
    rw [length_slice]
    omega
  obtain ⟨filepos, ops, hopen⟩ := openToRead_other off n hcurr hs.bitmap (show d + s.bitmap_size ≤ s.layout.file.length by omega)
  split at hopen
  · next hlt =>
    obtain ⟨t, ht⟩ : ∃ t : VHDFile, { s with file := s.layout.file, filepos, ops, bitmap_offset := d, bitmap_dirty := false } = t :=
      ⟨_, rfl⟩
    have hlayout : t.layout = s.layout := by
      rw [← ht]
      exact layout_written rfl rfl rfl rfl rfl rfl
    rw [ht] at hopen
    subst ht
    refine ⟨_, hlayout, ⟨hs.bitmap, ?_, ?_⟩, rfl, Or.inl ⟨hcurr, hlt, hopen⟩⟩
    · rw [hlayout]
      intro b d' hd'
      exact le_trans (hs.inFile b d' hd') hle
    · rw [hlayout]
      exact hs.current
  · next hlt =>
    obtain ⟨t, ht⟩ : ∃ t : VHDFile, { s with
        file := s.layout.file
        filepos
        ops
        bitmap := slice s.layout.file d s.bitmap_size
        bitmap_offset := d
        bitmap_dirty := false
        currblock := block } = t := ⟨_, rfl⟩
    have hlayout : t.layout = s.layout := by
      rw [← ht]
      exact layout_written rfl rfl rfl rfl rfl rfl
    rw [ht] at hopen
    subst ht
    refine ⟨_, hlayout, ⟨hbytes, ?_, ?_⟩, rfl, Or.inr ⟨Or.inr (Nat.le_of_not_lt hlt), rfl, hopen⟩⟩
    · rw [hlayout]
      intro b d' hd'
      exact le_trans (hs.inFile b d' hd') hle
    · rw [hlayout]
      intro d' hd'
      rw [Option.some.inj (hplace.symm.trans hd')]

end VHDFile


namespace Layout

variable {v : Layout} {block d : Nat}

/-- An entry of the table. -/
theorem entry_cases (v : Layout) (block : Nat) : v.bat.length ≤ block ∧ v.bat[block]? = none ∨ v.Free block ∨
    ∃ bat_off, v.bat[block]? = some bat_off ∧ bat_off ≠ unallocated ∧ v.place block = some (bat_off * sector_size) := by
  cases hget : v.bat[block]? with
  | none => exact Or.inl ⟨List.getElem?_eq_none_iff.mp hget, rfl⟩
  | some bat_off =>
    by_cases hfree : bat_off = unallocated
    · exact Or.inr (Or.inl (hget.trans (congrArg some hfree)))
    · refine Or.inr (Or.inr ⟨bat_off, rfl, hfree, ?_⟩)
      rw [place, hget]
      exact if_neg hfree

theorem Free.not_stops (h : v.Free block) (curr o n : Nat) : ¬ v.Stops curr o n block := by
  rintro (⟨d, hplace, -⟩ | ⟨hplace, -⟩)
  · cases h.place.symm.trans hplace
  · rw [h.place] at hplace
    cases hplace

theorem not_free (h : v.place block = some d) : ¬ v.Free block := by
  intro hfree
  cases hfree.place.symm.trans h

end Layout

namespace Reading

variable {parentRead : Reading → Option (Outcome Unit × Reading)} {fuel : Nat} {c c' : Reading} {curr o n : Nat}
  {block off rounds toread : Nat} {firstr : Bool}

/-- Between two blocks of a read of `n` bytes at `o`. No block before the position
stopped it, and if one of them was opened then the current one is one of them. -/
structure AtBlock (c : Reading) (curr o n block off toread : Nat) : Prop where
  offset : c.image.curr_offset = block * c.image.blocksize + off
  inBlock : off < c.image.blocksize
  todo : c.read + toread = n
  length : c.buffer.length = n
  behind : c.image.curr_offset + toread = o + n
  start : c.image.curr_offset = o ∨ off = 0 ∧ o / c.image.blocksize < block ∧ 0 < toread
  inTable : block ≤ c.image.bat.length
  before : ∀ b, o / c.image.blocksize ≤ b → b < block → ¬ c.image.layout.Stops curr o n b
  opened : c.image.currblock = curr ∧ (∀ b, o / c.image.blocksize ≤ b → b < block → c.image.layout.Free b) ∨
    c.image.currblock < block ∧ ¬ ∀ b, o / c.image.blocksize ≤ b → b < block → c.image.layout.Free b

section Block

variable (h : c.AtBlock curr o n block off toread)

include h

theorem AtBlock.div : c.image.curr_offset / c.image.blocksize = block := by
  rw [h.offset, Nat.mul_comm, Nat.mul_add_div (by have := h.inBlock; omega), Nat.div_eq_of_lt h.inBlock, Nat.add_zero]

theorem AtBlock.mod : c.image.curr_offset % c.image.blocksize = off := by
  rw [h.offset, Nat.mul_comm, Nat.mul_add_mod, Nat.mod_eq_of_lt h.inBlock]

theorem AtBlock.le_block : o / c.image.blocksize ≤ block := by
  obtain hstart | ⟨-, hlt, -⟩ := h.start
  · rw [← hstart, h.div]
  · exact hlt.le

/-- The next block. -/
theorem AtBlock.next (hkeeps : c.Keeps c') (hblock : block < c.image.bat.length)
    {m : Nat} (hm : off + m = c.image.blocksize) (hread : c'.read = c.read + m)
    (hoffset : c'.image.curr_offset = c.image.curr_offset + m) (hmore : m < toread)
    (hstops : ¬ c.image.layout.Stops curr o n block)
    (hopened : c'.image.currblock = c.image.currblock ∧ c.image.layout.Free block ∨
      c'.image.currblock = block ∧ ¬ c.image.layout.Free block) :
    c'.AtBlock curr o n (block + 1) 0 (toread - m) := by
  have hle := h.le_block
  have hplace := h.offset
  have hread' := h.todo
  have hbehind := h.behind
  have hsize : c'.image.blocksize = c.image.blocksize := congrArg Layout.blocksize hkeeps.layout
  have hbat : c'.image.bat = c.image.bat := congrArg Layout.bat hkeeps.layout
  constructor
  · rw [hoffset, hsize, Nat.add_one_mul]
    omega
  · rw [hsize]
    have := h.inBlock
    omega
  · omega
  · rw [hkeeps.length, h.length]
  · omega
  · rw [hsize]
    exact Or.inr ⟨rfl, by omega, by omega⟩
  · rw [hbat]
    exact hblock
  · rw [hsize, hkeeps.layout]
    intro b hb hlt
    obtain hlt | rfl := Nat.lt_succ_iff_lt_or_eq.mp hlt
    · exact h.before b hb hlt
    · exact hstops
  · rw [hsize, hkeeps.layout]
    obtain ⟨hcurr, hfree⟩ | ⟨hcurr, hnot⟩ := hopened
    · obtain ⟨hcurr', hall⟩ | ⟨hlt, hsome⟩ := h.opened
      · refine Or.inl ⟨hcurr.trans hcurr', fun b hb hlt => ?_⟩
        obtain hlt | rfl := Nat.lt_succ_iff_lt_or_eq.mp hlt
        · exact hall b hb hlt
        · exact hfree
      · exact Or.inr ⟨by omega, fun hall => hsome fun b hb hlt => hall b hb (by omega)⟩
    · exact Or.inr ⟨by omega, fun hall => hnot (hall block hle (by omega))⟩

/-- An allocated block is opened, or it refuses. -/
theorem AtBlock.open_cases (hs : c.Sound) {d : Nat}
    (hplace : c.image.layout.place block = some d) :
    ∃ t : VHDFile, c.Keeps { c with image := t } ∧ t.curr_offset = c.image.curr_offset ∧
      (c.image.layout.Refuses curr o n block ∧ c.image.openToRead ReadIo.ok block d off n = (false, t) ∨
        ¬ c.image.layout.Refuses curr o n block ∧ t.currblock = block ∧
          c.image.openToRead ReadIo.ok block d off n = (true, t)) := by
  have hoff : (if block = o / c.image.layout.blocksize then o % c.image.layout.blocksize else 0) = off := by
    obtain rfl | ⟨rfl, hlt, -⟩ := h.start
    · exact (if_pos h.div.symm).trans h.mod
    · exact if_neg (show block ≠ o / c.image.blocksize by omega)
  have hcurr : block = c.image.currblock ↔ (block = curr ∧ ∀ b, o / c.image.blocksize ≤ b → b < block → c.image.layout.Free b) := by
    obtain ⟨hcurr, hall⟩ | ⟨hlt, hsome⟩ := h.opened
    · rw [hcurr]
      exact ⟨fun heq => ⟨heq, hall⟩, And.left⟩
    · exact ⟨fun heq => by omega, fun hall => absurd hall.2 hsome⟩
  have hrefuses : c.image.layout.Refuses curr o n block ↔
      block ≠ c.image.currblock ∧ c.image.layout.file.length < (d + c.image.bitmap_size + off + n) % 2 ^ 64 := by
    rw [Refuses, hoff, ne_eq, hcurr]
    constructor
    · rintro ⟨d', hd', hne, hlt⟩
      obtain rfl : d = d' := Option.some.inj (hplace.symm.trans hd')
      exact ⟨hne, hlt⟩
    · rintro ⟨hne, hlt⟩
      exact ⟨d, hplace, hne, hlt⟩
  obtain ⟨t, hlayout, hloaded, hoffset, ⟨hne, hlt, hopen⟩ | ⟨hor, hcurrblock, hopen⟩⟩ :=
    VHDFile.openToRead_cases hs.image hplace
  · exact ⟨t, hs.keeps hlayout hloaded rfl rfl, hoffset, Or.inl ⟨hrefuses.mpr ⟨hne, hlt⟩, hopen⟩⟩
  · refine ⟨t, hs.keeps hlayout hloaded rfl rfl, hoffset, Or.inr ⟨?_, hcurrblock, hopen⟩⟩
    rw [hrefuses]
    rintro ⟨hne, hlt⟩
    obtain heq | hle := hor
    · exact hne heq
    · omega

end Block

end Reading


namespace Layout

/-- A read of `n` bytes at `o` comes to the end of the table. -/
def Overruns (v : Layout) (curr o n : Nat) : Prop :=
  v.bat.length * v.blocksize < o + n ∧ ∀ b, o / v.blocksize ≤ b → b < v.bat.length → ¬ v.Stops curr o n b

end Layout

namespace Reading

variable {parentRead : Reading → Option (Outcome Unit × Reading)} {fuel : Nat} {c c' : Reading} {curr o n : Nat}
  {block off rounds toread : Nat} {firstr : Bool}

theorem readBlocks_out (h : c.image.bat[block]? = none) :
    readBlocks ReadIo.ok parentRead n (rounds + 1) c block off toread firstr = some (.outOfRange, c) := by
  rw [readBlocks, h]

theorem readBlocks_free (h : c.image.layout.Free block) :
    readBlocks ReadIo.ok parentRead n (rounds + 1) c block off toread firstr =
      match c.readParent parentRead (min (c.image.blocksize - off) toread) with
      | none => none
      | some (.outOfRange, c) => some (.outOfRange, c)
      | some (_, r) =>
        if toread - min (c.image.blocksize - off) toread = 0 then
          some (.value (), r.skip (min (c.image.blocksize - off) toread))
        else
          readBlocks ReadIo.ok parentRead n rounds (r.skip (min (c.image.blocksize - off) toread)) (block + 1) 0
            (toread - min (c.image.blocksize - off) toread) firstr := by
  rw [readBlocks, show c.image.bat[block]? = some unallocated from h]
  rfl

section Placed

variable {bat_off : Nat} {t : VHDFile} (hget : c.image.bat[block]? = some bat_off) (hne : bat_off ≠ unallocated)

include hget hne

theorem readBlocks_refused (hopen : c.image.openToRead ReadIo.ok block (bat_off * sector_size) off n = (false, t)) :
    readBlocks ReadIo.ok parentRead n (rounds + 1) c block off toread firstr = some (.failed, { c with image := t }) := by
  rw [readBlocks, hget]
  dsimp only
  rw [if_neg hne, hopen]
  rfl

theorem readBlocks_opened (hopen : c.image.openToRead ReadIo.ok block (bat_off * sector_size) off n = (true, t)) :
    readBlocks ReadIo.ok parentRead n (rounds + 1) c block off toread firstr =
      match readSectors ReadIo.ok parentRead (bat_off * sector_size) rounds
        { c with image := (t.fileSeek VHDFile.Io.ok (bat_off * sector_size + t.bitmap_size + off)).2 } off toread firstr with
      | none => none
      | some (.done result, c) => some (result, c)
      | some (.rest toread, c) =>
        if toread = 0 then some (.value (), c)
        else if c.image.curr_offset ≥ c.image.dstsize then some (.value (), c)
        else readBlocks ReadIo.ok parentRead n rounds c (block + 1) 0 toread false := by
  rw [readBlocks, hget]
  dsimp only
  rw [if_neg hne, hopen]
  rfl

end Placed

/-- The sectors of a block that was opened. -/
theorem AtBlock.atSector (h : c.AtBlock curr o n block off toread) {t : VHDFile} {d : Nat}
    (hplace : c.image.layout.place block = some d) (hkeeps : c.Keeps { c with image := t })
    (hoffset : t.curr_offset = c.image.curr_offset) (hcurr : t.currblock = block) :
    ∃ r : Reading, r = { c with image := (t.fileSeek VHDFile.Io.ok (d + t.bitmap_size + off)).2 } ∧ c.Keeps r ∧ r.AtSector d ∧
      r.image.currblock = block ∧ r.image.curr_offset = c.image.curr_offset ∧ r.image.curr_offset / r.image.blocksize = block ∧
      r.image.curr_offset % r.image.blocksize = off ∧ r.read = c.read := by
  have hlayout : t.layout = c.image.layout := hkeeps.layout
  have hsize : t.blocksize = c.image.blocksize := congrArg Layout.blocksize hlayout
  have hdiv : t.curr_offset / t.blocksize = block := by rw [hoffset, hsize, h.div]
  have hmod : t.curr_offset % t.blocksize = off := by rw [hoffset, hsize, h.mod]
  refine ⟨_, rfl, hkeeps.trans (hkeeps.sound.keeps rfl (hkeeps.sound.image.of_eq rfl rfl rfl rfl) rfl rfl), ⟨?_, ?_, ?_⟩, hcurr,
    hoffset, hdiv, hmod, rfl⟩
  · change t.layout.place (t.curr_offset / t.blocksize) = some d
    rw [hdiv, hlayout]
    exact hplace
  · exact hcurr.trans hdiv.symm
  · change d + t.bitmap_size + off = d + t.bitmap_size + t.curr_offset % t.blocksize
    rw [hmod]

theorem AtBlock.overruns_le (h : c.AtBlock curr o n block off toread) (hblock : block < c.image.bat.length)
    (hle : off + toread ≤ c.image.blocksize) : ¬ c.image.layout.Overruns curr o n := by
  rintro ⟨hlt, -⟩
  have hmul : (block + 1) * c.image.blocksize ≤ c.image.bat.length * c.image.blocksize := Nat.mul_le_mul_right _ hblock
  rw [Nat.add_one_mul] at hmul
  have hoffset := h.offset
  have hbehind := h.behind
  change c.image.bat.length * c.image.blocksize < o + n at hlt
  omega

/-- The steps of one block, as the parents see them. -/
theorem AtBlock.hangs_free (h : c.AtBlock curr o n block off toread) (hfree : c.image.layout.Free block)
    (hhang : HangsIn (c.parents.map VHDFile.layout) c.image.layout c.image.curr_offset (min (c.image.blocksize - off) toread)) :
    ∃ y, c.image.curr_offset ≤ y ∧ y < c.image.curr_offset + toread ∧ y / c.image.blocksize = block ∧
      c.image.layout.StartsStep c.image.curr_offset y ∧ Hangs c.layouts y (c.image.curr_offset + toread - y) := by
  obtain ⟨y, hle, hlt, hy, hhang⟩ := hhang
  have hoffset := h.offset
  have hin := h.inBlock
  have hdiv : y / c.image.blocksize = block := by
    apply Nat.div_eq_of_lt_le
    · omega
    · rw [Nat.add_one_mul]
      omega
  have hsplit := Nat.div_add_mod' y c.image.blocksize
  rw [hdiv] at hsplit
  refine ⟨y, hle, by omega, hdiv, hy, ?_⟩
  rw [layouts, List.map_cons, Hangs]
  left
  change c.image.layout.Free (y / c.image.blocksize) ∧ Hangs _ y (min _ (c.image.blocksize - y % c.image.blocksize))
  have hrest : min (c.image.curr_offset + toread - y) (c.image.blocksize - y % c.image.blocksize) =
      c.image.curr_offset + min (c.image.blocksize - off) toread - y := by omega
  rw [hdiv, hrest]
  exact ⟨hfree, hhang⟩

/-- A round of the loop over the blocks: it does not return, where a step hangs or
the fuel is used up, or the read ends in this block, or it goes on with the next one. -/
theorem readBlocks_round (ha : Answers parentRead fuel) (hs : c.Sound) (ho : o < c.image.dstsize)
    (hat : c.AtBlock curr o n block off toread) (hstart : firstr = true ∨ off % sector_size = 0) :
    (readBlocks ReadIo.ok parentRead n (rounds + 1) c block off toread firstr = none ∧
      (fuel < toread + 3 * c.parents.length + 1 ∨ rounds < toread + 2 ∨ ¬ c.image.layout.Refuses curr o n block ∧
        ∃ y, c.image.curr_offset ≤ y ∧ y < c.image.curr_offset + toread ∧ y / c.image.blocksize = block ∧
          c.image.layout.StartsStep c.image.curr_offset y ∧ Hangs c.layouts y (c.image.curr_offset + toread - y))) ∨
    (∃ out r, readBlocks ReadIo.ok parentRead n (rounds + 1) c block off toread firstr = some (out, r) ∧ c.Keeps r ∧ r.read ≤ n ∧
      (out = .outOfRange ↔ c.image.layout.Overruns curr o n) ∧
      (c.image.bat.length ≤ block ∨ c.image.layout.Stops curr o n block ∨ off + toread ≤ c.image.blocksize)) ∨
    ∃ m r first, readBlocks ReadIo.ok parentRead n (rounds + 1) c block off toread firstr =
        readBlocks ReadIo.ok parentRead n rounds r (block + 1) 0 (toread - m) first ∧
      c.Keeps r ∧ r.AtBlock curr o n (block + 1) 0 (toread - m) ∧ ¬ c.image.layout.Stops curr o n block ∧
      off + m = c.image.blocksize ∧ m < toread := by
  have hoffset := hat.offset
  have hbehind := hat.behind
  have htodo := hat.todo
  have hlength := hat.length
  have hin := hat.inBlock
  obtain ⟨hlen, hget⟩ | hfree | ⟨bat_off, hget, hne, hplace⟩ := c.image.layout.entry_cases block
  · refine Or.inr (Or.inl ⟨_, c, readBlocks_out hget, hs.keeps rfl hs.image rfl rfl, by omega, ⟨fun _ => ⟨?_, ?_⟩, fun _ => rfl⟩,
      Or.inl hlen⟩)
    · change c.image.bat.length * c.image.blocksize < o + n
      obtain rfl := Nat.le_antisymm hat.inTable hlen
      obtain hstart | ⟨rfl, -, hpos⟩ := hat.start
      · have hcovers : c.image.dstsize ≤ c.image.bat.length * c.image.blocksize := hs.covers.covers
        omega
      · omega
    · intro b hb hlt
      exact hat.before b hb (lt_of_lt_of_le hlt hlen)
  · have hblock : block < c.image.bat.length := hfree.lt
    have hx : c.image.curr_offset < 2 ^ 64 := hs.covers.lt (by change _ / c.image.blocksize < _; rwa [hat.div])
    have hmod := hat.mod
    rw [readBlocks_free hfree]
    have hhangs := hat.hangs_free hfree
    obtain ⟨want, hwant⟩ : ∃ want, min (c.image.blocksize - off) toread = want := ⟨_, rfl⟩
    rw [hwant] at hhangs ⊢
    cases hparent : c.readParent parentRead want with
    | none =>
      refine Or.inl ⟨rfl, ?_⟩
      by_contra hnot
      simp only [not_or] at hnot
      apply readParent_ne_none ha hs hx (by omega) (by omega) (by omega) _ hparent
      intro hhang
      apply hnot.2.2
      refine ⟨?_, hhangs hhang⟩
      rintro ⟨d, hplace, -⟩
      exact not_free hplace hfree
    | some answer =>
      obtain ⟨result, r⟩ := answer
      obtain ⟨m, rfl, hkeeps, himage, hread, -⟩ := readParent_value ha hs hx (by omega) (by omega) hparent
      have hkeeps' := hkeeps.skip want
      have hread' : (r.skip want).read = c.read + want := by rw [skip, hread]
      dsimp only
      by_cases hend : toread - want = 0
      · rw [if_pos hend]
        refine Or.inr (Or.inl ⟨_, _, rfl, hkeeps', by omega, ⟨fun h => (by cases h), fun h => ?_⟩, Or.inr (Or.inr (by omega))⟩)
        exact absurd h (hat.overruns_le hblock (by omega))
      · rw [if_neg hend]
        have hoffset' : (r.skip want).image.curr_offset = c.image.curr_offset + want := by rw [skip, himage]
        have hcurr : (r.skip want).image.currblock = c.image.currblock := by
          change r.image.currblock = _
          rw [himage]
        have hnot := hfree.not_stops curr o n
        exact Or.inr (Or.inr ⟨want, _, _, rfl, hkeeps',
          hat.next hkeeps' hblock (by omega) hread' hoffset' (by omega) hnot (Or.inl ⟨hcurr, hfree⟩), hnot, by omega, by omega⟩)
  · have hblock : block < c.image.bat.length := place_lt hplace
    have hplaced : (c.image.layout.place block).isSome := by
      rw [hplace]
      rfl
    have hstops : c.image.layout.Stops curr o n block → ¬ c.image.layout.Overruns curr o n :=
      fun hstops hover => hover.2 block hat.le_block hblock hstops
    obtain ⟨t, hkeeps, hoff, ⟨hrefuses, hopen⟩ | ⟨hrefuses, hcurr, hopen⟩⟩ := hat.open_cases hs hplace
    · rw [readBlocks_refused hget hne hopen]
      refine Or.inr (Or.inl ⟨_, _, rfl, hkeeps, ?_, ⟨fun h => (by cases h), fun h => ?_⟩, Or.inr (Or.inl (Or.inl hrefuses))⟩)
      · change c.read ≤ n
        omega
      · exact absurd h (hstops (Or.inl hrefuses))
    rw [readBlocks_opened hget hne hopen]
    obtain ⟨r, hr, hkeepsr, hatr, hcurrr, hoffr, hdivr, hmodr, hreadr⟩ := hat.atSector hplace hkeeps hoff hcurr
    rw [← hr, ← hmodr]
    have hsizer : r.image.blocksize = c.image.blocksize := congrArg Layout.blocksize hkeepsr.layout
    have hdstr : r.image.dstsize = c.image.dstsize := congrArg Layout.dstsize hkeepsr.layout
    have hlengthr := hkeepsr.length
    cases hsectors : readSectors ReadIo.ok parentRead (bat_off * sector_size) rounds r
        (r.image.curr_offset % r.image.blocksize) toread firstr with
    | none =>
      refine Or.inl ⟨rfl, ?_⟩
      by_contra hnot
      simp only [not_or] at hnot
      have hcount : r.parents.length = c.parents.length := by
        simpa using congrArg List.length hkeepsr.parents
      apply readSectors_ne_none ha hkeepsr.sound hatr (by omega) (by rwa [hmodr]) (by omega) (by omega) _ hsectors
      rw [hdivr, hsizer, hoffr, hkeepsr.layout, hkeepsr.layouts]
      intro y hle hlt hy hstarts hhang
      exact hnot.2.2 ⟨hrefuses, y, hle, hlt, hy, hstarts, hhang⟩
    | some answer =>
      obtain ⟨l, r'⟩ := answer
      obtain ⟨m, hm, hkeeps', hcurr', hread', hoffset', hin', hrest, hdone⟩ :=
        readSectors_some ha hkeepsr.sound hatr (by omega) hsectors
      rw [hdivr, hsizer, hdstr] at hdone
      rw [hmodr, hsizer] at hin' hrest
      have hkeeps'' := hkeepsr.trans hkeeps'
      have hdst' : r'.image.dstsize = c.image.dstsize := congrArg Layout.dstsize hkeeps''.layout
      cases l with
      | done result =>
        obtain ⟨rfl, -, hlt⟩ := hdone result rfl
        have hstop : c.image.layout.Stops curr o n block := Or.inr ⟨hplaced, hlt.le⟩
        exact Or.inr (Or.inl ⟨_, _, rfl, hkeeps'', by omega, ⟨fun h => (by cases h), fun h => absurd h (hstops hstop)⟩,
          Or.inr (Or.inl hstop)⟩)
      | rest left =>
        obtain ⟨rfl, hor⟩ := hrest left rfl
        dsimp only
        by_cases hmore : toread - m = 0
        · rw [if_pos hmore]
          refine Or.inr (Or.inl ⟨_, _, rfl, hkeeps'', by omega, ⟨fun h => (by cases h), fun h => ?_⟩, Or.inr (Or.inr (by omega))⟩)
          exact absurd h (hat.overruns_le hblock (by omega))
        rw [if_neg hmore]
        have hfull : off + m = c.image.blocksize := hor.resolve_left hmore
        have hstop_iff : c.image.layout.Stops curr o n block ↔ r'.image.curr_offset ≥ r'.image.dstsize := by
          rw [Stops, or_iff_right hrefuses, and_iff_right hplaced, hdst']
          change c.image.dstsize ≤ (block + 1) * c.image.blocksize ↔ _
          rw [Nat.add_one_mul]
          omega
        by_cases hend : r'.image.curr_offset ≥ r'.image.dstsize
        · rw [if_pos hend]
          have hstop := hstop_iff.mpr hend
          exact Or.inr (Or.inl ⟨_, _, rfl, hkeeps'', by omega, ⟨fun h => (by cases h), fun h => absurd h (hstops hstop)⟩,
            Or.inr (Or.inl hstop)⟩)
        · rw [if_neg hend]
          have hnot := mt hstop_iff.mp hend
          exact Or.inr (Or.inr ⟨m, _, _, rfl, hkeeps'', hat.next hkeeps'' hblock hfull (by omega) (by omega) (by omega) hnot
            (Or.inr ⟨hcurr'.trans hcurrr, not_free hplace⟩), hnot, by omega, by omega⟩)

/-- What a read does when it ends. -/
theorem readBlocks_some (ha : Answers parentRead fuel) {out : Outcome Unit} (hs : c.Sound) (ho : o < c.image.dstsize)
    (hat : c.AtBlock curr o n block off toread) (hstart : firstr = true ∨ off % sector_size = 0)
    (h : readBlocks ReadIo.ok parentRead n rounds c block off toread firstr = some (out, c')) :
    c.Keeps c' ∧ c'.read ≤ n ∧ (out = .outOfRange ↔ c.image.layout.Overruns curr o n) := by
  induction rounds generalizing c block off toread firstr with
  | zero => cases h
  | succ rounds ih =>
    obtain ⟨hnone, -⟩ | ⟨out', r, hsome, hkeeps, hle, hiff, -⟩ | ⟨m, r, first, hnext, hkeeps, hat', -, -, -⟩ :=
      readBlocks_round ha hs ho hat hstart
    · cases hnone.symm.trans h
    · cases hsome.symm.trans h
      exact ⟨hkeeps, hle, hiff⟩
    · have hdst : r.image.dstsize = c.image.dstsize := congrArg Layout.dstsize hkeeps.layout
      obtain ⟨hkeeps', hle, hiff⟩ := ih hkeeps.sound (by rwa [hdst]) hat' (Or.inr rfl) (hnext ▸ h)
      rw [hkeeps.layout] at hiff
      exact ⟨hkeeps.trans hkeeps', hle, hiff⟩

end Reading


namespace Reading

variable {parentRead : Reading → Option (Outcome Unit × Reading)} {fuel : Nat} {c c' : Reading} {curr o n : Nat}
  {block off rounds toread : Nat} {firstr : Bool}

theorem AtBlock.le_offset (h : c.AtBlock curr o n block off toread) : o ≤ c.image.curr_offset := by
  obtain hstart | ⟨-, hlt, -⟩ := h.start
  · exact hstart.ge
  · have hin := h.inBlock
    have hlt' := (Nat.div_lt_iff_lt_mul (show 0 < c.image.blocksize by omega)).mp hlt
    have hoffset := h.offset
    omega

/-- The first step of a block is one of the read. -/
theorem AtBlock.startsStep_iff (h : c.AtBlock curr o n block off toread) {y : Nat} (hle : c.image.curr_offset ≤ y) :
    c.image.layout.StartsStep c.image.curr_offset y ↔ c.image.layout.StartsStep o y := by
  have ho := h.le_offset
  obtain hstart | ⟨rfl, -, -⟩ := h.start
  · rw [hstart]
  · have hgrid : c.image.curr_offset % c.image.layout.blocksize % sector_size = 0 := by
      have hmod := h.mod
      change c.image.curr_offset % c.image.blocksize % sector_size = 0
      rw [hmod, Nat.zero_mod]
    constructor
    · rintro (rfl | hy)
      · exact Or.inr hgrid
      · exact Or.inr hy
    · rintro (rfl | hy)
      · exact Or.inl (by omega)
      · exact Or.inr hy

theorem hangs_lt {vs : List Layout} {v : Layout} {y m : Nat} (h : Hangs (v :: vs) y m) : y / v.blocksize < v.bat.length := by
  rw [Hangs] at h
  obtain ⟨hfree, -⟩ | ⟨⟨d, hplace, -⟩, -⟩ := h
  · exact hfree.lt
  · exact place_lt hplace

/-- A block with a step that hangs. -/
theorem readBlocks_hangs (ha : Answers parentRead fuel) (hs : c.Sound)
    (hat : c.AtBlock curr o n block off toread) (hstart : firstr = true ∨ off % sector_size = 0) {y : Nat}
    (hle : c.image.curr_offset ≤ y) (hlt : y < c.image.curr_offset + toread) (hdiv : y / c.image.blocksize = block)
    (hy : c.image.layout.StartsStep c.image.curr_offset y) (hrefuses : ¬ c.image.layout.Refuses curr o n block)
    (hhang : Hangs c.layouts y (c.image.curr_offset + toread - y)) :
    readBlocks ReadIo.ok parentRead n (rounds + 1) c block off toread firstr = none := by
  have hoffset := hat.offset
  have htodo := hat.todo
  have hlength := hat.length
  have hin := hat.inBlock
  have hmod := hat.mod
  have hy_split := Nat.div_add_mod' y c.image.blocksize
  have hy_lt := Nat.mod_lt y hs.pos
  rw [hdiv] at hy_split
  obtain ⟨hlen, -⟩ | hfree | ⟨bat_off, hget, hne, hplace⟩ := c.image.layout.entry_cases block
  · have hblock := hangs_lt hhang
    change y / c.image.blocksize < c.image.layout.bat.length at hblock
    omega
  · have hblock : block < c.image.bat.length := hfree.lt
    have hx : c.image.curr_offset < 2 ^ 64 := hs.covers.lt (by change _ / c.image.blocksize < _; rwa [hat.div])
    have hparents : HangsIn (c.parents.map VHDFile.layout) c.image.layout c.image.curr_offset
        (min (c.image.blocksize - off) toread) := by
      refine ⟨y, hle, by omega, hy, ?_⟩
      rw [layouts, List.map_cons, Hangs] at hhang
      obtain ⟨-, hhang⟩ | ⟨⟨d, hplace, -⟩, -⟩ := hhang
      · change Hangs _ y (min _ (c.image.blocksize - y % c.image.blocksize)) at hhang
        have hrest : min (c.image.curr_offset + toread - y) (c.image.blocksize - y % c.image.blocksize) =
            c.image.curr_offset + min (c.image.blocksize - off) toread - y := by omega
        rwa [hrest] at hhang
      · change c.image.layout.place (y / c.image.blocksize) = some d at hplace
        rw [hdiv] at hplace
        exact absurd hfree (not_free hplace)
    rw [readBlocks_free hfree, readParent_none ha hs hx (by omega) (by omega) hparents]
  · obtain ⟨t, hkeeps, hoff, ⟨hrefuses', -⟩ | ⟨-, hcurr, hopen⟩⟩ := hat.open_cases hs hplace
    · exact absurd hrefuses' hrefuses
    rw [readBlocks_opened hget hne hopen]
    obtain ⟨r, hr, hkeepsr, hatr, hcurrr, hoffr, hdivr, hmodr, hreadr⟩ := hat.atSector hplace hkeeps hoff hcurr
    have hsizer : r.image.blocksize = c.image.blocksize := congrArg Layout.blocksize hkeepsr.layout
    have hlengthr := hkeepsr.length
    have hnone : readSectors ReadIo.ok parentRead (bat_off * sector_size) rounds r
        (r.image.curr_offset % r.image.blocksize) toread firstr = none := by
      apply @readSectors_none _ _ _ _ _ _ _ ha y hkeepsr.sound hatr (by omega) (by rwa [hmodr])
      · rwa [hoffr]
      · rwa [hoffr]
      · rwa [hdivr, hsizer]
      · rwa [hoffr, hkeepsr.layout]
      · rwa [hoffr, hkeepsr.layouts]
    rw [hmodr] at hnone
    rw [← hr, hnone]

section Rounds

variable (ha : Answers parentRead fuel) (hs : c.Sound) (ho : o < c.image.dstsize) (hat : c.AtBlock curr o n block off toread)
  (hstart : firstr = true ∨ off % sector_size = 0)

include ha hs ho hat hstart

/-- A read does not end where a step hangs. -/
theorem readBlocks_none {y : Nat}
    (hle : c.image.curr_offset ≤ y) (hlt : y < c.image.curr_offset + toread) (hy : c.image.layout.StartsStep o y)
    (hstops : ∀ b, block ≤ b → b < y / c.image.blocksize → ¬ c.image.layout.Stops curr o n b)
    (hrefuses : ¬ c.image.layout.Refuses curr o n (y / c.image.blocksize))
    (hhang : Hangs c.layouts y (c.image.curr_offset + toread - y)) :
    readBlocks ReadIo.ok parentRead n rounds c block off toread firstr = none := by
  induction rounds generalizing c block off toread firstr with
  | zero => rfl
  | succ rounds ih =>
    have hoffset := hat.offset
    have hdiv_le : block ≤ y / c.image.blocksize := by
      rw [Nat.le_div_iff_mul_le hs.pos]
      omega
    obtain heq | hbehind := Nat.eq_or_lt_of_le hdiv_le
    · rw [← heq] at hrefuses
      exact readBlocks_hangs ha hs hat hstart hle hlt heq.symm ((hat.startsStep_iff hle).mpr hy) hrefuses hhang
    have hy_le := (Nat.le_div_iff_mul_le hs.pos).mp hbehind
    rw [Nat.succ_mul] at hy_le
    obtain ⟨hnone, -⟩ | ⟨out, r, -, -, -, -, hend⟩ | ⟨m, r, first, hnext, hkeeps, hat', -, hm, hlt'⟩ :=
      readBlocks_round ha hs ho hat hstart
    · exact hnone
    · obtain hlen | hstop | hle' := hend
      · have hblock : y / c.image.blocksize < c.image.bat.length := hangs_lt hhang
        omega
      · exact absurd hstop (hstops block (le_refl _) hbehind)
      · omega
    · have hdst : r.image.dstsize = c.image.dstsize := congrArg Layout.dstsize hkeeps.layout
      have hsize : r.image.blocksize = c.image.blocksize := congrArg Layout.blocksize hkeeps.layout
      have hoffset' := hat'.offset
      rw [hsize, Nat.add_one_mul] at hoffset'
      rw [hnext]
      apply ih hkeeps.sound (by rwa [hdst]) hat' (Or.inr rfl)
      · omega
      · omega
      · rwa [hkeeps.layout]
      · rw [hkeeps.layout, hsize]
        exact fun b hb => hstops b (by omega)
      · rwa [hkeeps.layout, hsize]
      · rw [hkeeps.layouts, show r.image.curr_offset + (toread - m) = c.image.curr_offset + toread by omega]
        exact hhang

/-- A read ends where no step hangs. -/
theorem readBlocks_ne_none
    (hrounds : toread + 3 ≤ rounds) (hfuel : toread + 3 * c.parents.length + 1 ≤ fuel)
    (hno : ∀ y, c.image.curr_offset ≤ y → y < c.image.curr_offset + toread → c.image.layout.StartsStep o y →
      (∀ b, block ≤ b → b < y / c.image.blocksize → ¬ c.image.layout.Stops curr o n b) →
      ¬ c.image.layout.Refuses curr o n (y / c.image.blocksize) → ¬ Hangs c.layouts y (c.image.curr_offset + toread - y)) :
    readBlocks ReadIo.ok parentRead n rounds c block off toread firstr ≠ none := by
  induction rounds generalizing c block off toread firstr with
  | zero => omega
  | succ rounds ih =>
    obtain ⟨-, hlow | hlow | ⟨hrefuses, y, hle, hlt, hdiv, hy, hhang⟩⟩ | ⟨out, r, hsome, -⟩ |
        ⟨m, r, first, hnext, hkeeps, hat', hnot, hm, hlt'⟩ :=
      @readBlocks_round _ _ _ curr o n block off rounds toread firstr ha hs ho hat hstart
    · omega
    · omega
    · refine absurd hhang (hno y hle hlt ((hat.startsStep_iff hle).mp hy) ?_ (by rwa [hdiv]))
      intro b hb hlt'
      omega
    · rw [hsome]
      exact Option.some_ne_none _
    · have hdst : r.image.dstsize = c.image.dstsize := congrArg Layout.dstsize hkeeps.layout
      have hsize : r.image.blocksize = c.image.blocksize := congrArg Layout.blocksize hkeeps.layout
      have hcount : r.parents.length = c.parents.length := by
        simpa using congrArg List.length hkeeps.parents
      have hin := hat.inBlock
      have hoffset := hat.offset
      have hoffset' := hat'.offset
      rw [hsize, Nat.add_one_mul] at hoffset'
      rw [hnext]
      apply ih hkeeps.sound (by rwa [hdst]) hat' (Or.inr rfl) (by omega) (by omega)
      rw [hkeeps.layout, hkeeps.layouts, hsize]
      intro y hle hlt hy hstops hrefuses
      rw [show r.image.curr_offset + (toread - m) = c.image.curr_offset + toread by omega]
      apply hno y (by omega) (by omega) hy _ hrefuses
      intro b hb hlt'
      obtain rfl | hlt'' := Nat.eq_or_lt_of_le hb
      · exact hnot
      · exact hstops b hlt'' hlt'

end Rounds

end Reading

end urbackup.vhdfile
