import UrBackup.Vhd.ReadBlocks

namespace urbackup.vhdfile

open stringtools filedata Layout

namespace Reading

variable {parentRead : Reading → Option (Outcome Unit × Reading)} {fuel : Nat} {c c' : Reading} {curr o n : Nat}
  {block off rounds toread : Nat} {firstr : Bool}

/-- The file is not too small for a read in one block. -/
theorem AtBlock.not_refuses (h : c.AtBlock curr o n block off n) (hs : c.Sound) (hle : off + n ≤ c.image.blocksize) :
    ¬ c.image.layout.Refuses curr o n block := by
  rintro ⟨d, hplace, -, hlt⟩
  have hoff : (if block = o / c.image.layout.blocksize then o % c.image.layout.blocksize else 0) = off := by
    obtain rfl | ⟨rfl, hlt', -⟩ := h.start
    · exact (if_pos h.div.symm).trans h.mod
    · exact if_neg (show block ≠ o / c.image.blocksize by omega)
  have hin := hs.image.inFile block d hplace
  have hfile := c.image.le_layout_file
  have hmod := Nat.mod_le (d + c.image.bitmap_size + off + n) (2 ^ 64)
  rw [hoff] at hlt
  change c.image.layout.file.length < (d + c.image.bitmap_size + off + n) % 2 ^ 64 at hlt
  omega

/-- A read in one block: of a step, it delivers nothing or all of it. -/
theorem readBlocks_one (ha : Answers parentRead fuel) {out : Outcome Unit} (hs : c.Sound)
    (hat : c.AtBlock curr o n block off n) (hx : c.image.curr_offset < c.image.dstsize) (hle : off + n ≤ c.image.blocksize)
    (h : readBlocks ReadIo.ok parentRead n rounds c block off n true = some (out, c')) :
    (Silent c.layouts c.image.curr_offset (c.image.layout.step c.image.curr_offset n) → c'.read = c.read) ∧
      (n = c.image.layout.step c.image.curr_offset n → ¬ Silent c.layouts c.image.curr_offset n → c'.read = c.read + n) := by
  have hoffset := hat.offset
  have htodo := hat.todo
  have hlength := hat.length
  have hdiv := hat.div
  have hmod := hat.mod
  have hsilent : ∀ m, Silent c.layouts c.image.curr_offset m ↔
      (c.image.layout.place block).isSome ∧ c.image.dstsize < c.image.curr_offset + m := by
    intro m
    rw [layouts, List.map_cons, Silent, ← hdiv]
    exact or_iff_right (Nat.not_le_of_lt hx)
  rw [hsilent, hsilent]
  cases rounds with
  | zero => cases h
  | succ rounds =>
    obtain ⟨hlen, hget⟩ | hfree | ⟨bat_off, hget, hne, hplace⟩ := c.image.layout.entry_cases block
    · have hcovers : c.image.dstsize ≤ c.image.bat.length * c.image.blocksize := hs.covers.covers
      have hmul : c.image.bat.length * c.image.blocksize ≤ block * c.image.blocksize := Nat.mul_le_mul_right _ hlen
      omega
    · have hblock : block < c.image.bat.length := hfree.lt
      have hx' : c.image.curr_offset < 2 ^ 64 := hs.covers.lt (by change _ / c.image.blocksize < _; rwa [hdiv])
      rw [hfree.place]
      refine ⟨fun hsome => absurd hsome.1 Bool.false_ne_true, fun _ _ => ?_⟩
      rw [readBlocks_free hfree, show min (c.image.blocksize - off) n = n by omega] at h
      cases hparent : c.readParent parentRead n with
      | none =>
        rw [hparent] at h
        cases h
      | some answer =>
        obtain ⟨result, r⟩ := answer
        obtain ⟨m, rfl, hkeeps, himage, hread, -⟩ := readParent_value ha hs hx' (by omega) (by omega) hparent
        rw [hparent] at h
        dsimp only at h
        rw [if_pos (Nat.sub_self n)] at h
        cases h
        rw [skip, hread]
    · rw [hplace]
      obtain ⟨t, hkeeps, hoff, ⟨hrefuses, -⟩ | ⟨-, hcurr, hopen⟩⟩ := hat.open_cases hs hplace
      · exact absurd hrefuses (hat.not_refuses hs hle)
      rw [readBlocks_opened hget hne hopen] at h
      obtain ⟨r, hr, hkeepsr, hatr, hcurrr, hoffr, hdivr, hmodr, hreadr⟩ := hat.atSector hplace hkeeps hoff hcurr
      rw [← hr, ← hmodr] at h
      have hsizer : r.image.blocksize = c.image.blocksize := congrArg Layout.blocksize hkeepsr.layout
      have hdstr : r.image.dstsize = c.image.dstsize := congrArg Layout.dstsize hkeepsr.layout
      have hlengthr := hkeepsr.length
      cases hsectors : readSectors ReadIo.ok parentRead (bat_off * sector_size) rounds r
          (r.image.curr_offset % r.image.blocksize) n true with
      | none =>
        rw [hsectors] at h
        cases h
      | some answer =>
        obtain ⟨l, r'⟩ := answer
        obtain ⟨m, hm, -, -, hread', -, hin', hrest, hdone⟩ := readSectors_some ha hkeepsr.sound hatr (by omega) hsectors
        rw [hmodr, hsizer] at hin' hrest
        rw [hdstr, hoffr] at hdone
        rw [hsectors] at h
        constructor
        · rintro ⟨-, hlt⟩
          cases rounds with
          | zero => cases hsectors
          | succ rounds =>
            have houtside : r.image.dstsize <
                r.image.curr_offset + r.image.wantBytes (r.image.curr_offset % r.image.blocksize) n true := by
              rw [wantBytes_step hkeepsr.sound (Or.inl rfl), hdstr, hoffr, hkeepsr.layout]
              exact hlt
            rw [readSectors_outside hkeepsr.sound houtside] at hsectors
            cases hsectors
            cases h
            exact hreadr
        · rintro - hnot
          cases l with
          | done result =>
            obtain ⟨-, hlt, -⟩ := hdone result rfl
            exact absurd ⟨rfl, hlt⟩ hnot
          | rest left =>
            obtain ⟨rfl, hor⟩ := hrest left rfl
            dsimp only at h
            have hend : n - m = 0 := by omega
            rw [if_pos hend] at h
            cases h
            omega

section Whole

variable (hs : c.Sound) (hx : c.image.curr_offset < c.image.dstsize)

include hs hx

theorem Read_eq (fuel : Nat) :
    Read ReadIo.ok (fuel + 1) c =
      readBlocks ReadIo.ok (Read ReadIo.ok fuel) c.buffer.length fuel { c with read := 0 }
        (c.image.curr_offset / c.image.blocksize) (c.image.curr_offset % c.image.blocksize) c.buffer.length true := by
  have hcovers : c.image.dstsize ≤ c.image.bat.length * c.image.blocksize := hs.covers.covers
  have hdiv : c.image.curr_offset / c.image.blocksize < c.image.bat.length := by
    rw [Nat.div_lt_iff_lt_mul hs.pos]
    omega
  rw [Read]
  dsimp only
  rw [if_neg (by omega), Nat.mod_eq_of_lt (lt_of_lt_of_le hdiv hs.covers.few)]

theorem atBlock_start : ({ c with read := 0 } : Reading).AtBlock c.image.currblock c.image.curr_offset c.buffer.length
    (c.image.curr_offset / c.image.blocksize) (c.image.curr_offset % c.image.blocksize) c.buffer.length where
  offset := (Nat.div_add_mod' ..).symm
  inBlock := Nat.mod_lt _ hs.pos
  todo := Nat.zero_add _
  length := rfl
  behind := rfl
  start := Or.inl rfl
  inTable := by
    have hcovers : c.image.dstsize ≤ c.image.bat.length * c.image.blocksize := hs.covers.covers
    apply le_of_lt
    rw [Nat.div_lt_iff_lt_mul hs.pos]
    exact lt_of_lt_of_le hx hcovers
  before := by
    intro b hb hlt
    exact absurd hlt (Nat.not_lt_of_le hb)
  opened := Or.inl ⟨rfl, fun b hb hlt => absurd hlt (Nat.not_lt_of_le hb)⟩

variable (ha : Answers (Read ReadIo.ok fuel) fuel)

include ha

theorem Read_some {out : Outcome Unit} (h : Read ReadIo.ok (fuel + 1) c = some (out, c')) :
    c.Keeps c' ∧ c'.read ≤ c.buffer.length ∧
      (out = .outOfRange ↔ c.image.layout.Overruns c.image.currblock c.image.curr_offset c.buffer.length) := by
  rw [Read_eq hs hx] at h
  have hs0 : ({ c with read := 0 } : Reading).Sound := ⟨hs.loaded, hs.stacked⟩
  obtain ⟨hkeeps, hle, hiff⟩ := readBlocks_some ha hs0 hx (atBlock_start hs hx) (Or.inl rfl) h
  exact ⟨⟨hkeeps.layouts, hkeeps.sound, hkeeps.length⟩, hle, hiff⟩

/-- Where a step hangs that the read comes to, it does not end. -/
theorem Read_none {y : Nat} (hle : c.image.curr_offset ≤ y) (hlt : y < c.image.curr_offset + c.buffer.length)
    (hy : c.image.layout.StartsStep c.image.curr_offset y)
    (hstops : ∀ b, c.image.curr_offset / c.image.blocksize ≤ b → b < y / c.image.blocksize →
      ¬ c.image.layout.Stops c.image.currblock c.image.curr_offset c.buffer.length b)
    (hrefuses : ¬ c.image.layout.Refuses c.image.currblock c.image.curr_offset c.buffer.length (y / c.image.blocksize))
    (hhang : Hangs c.layouts y (c.image.curr_offset + c.buffer.length - y)) : Read ReadIo.ok (fuel + 1) c = none := by
  rw [Read_eq hs hx]
  have hs0 : ({ c with read := 0 } : Reading).Sound := ⟨hs.loaded, hs.stacked⟩
  exact readBlocks_none ha hs0 hx (atBlock_start hs hx) (Or.inl rfl) hle hlt hy hstops hrefuses hhang

theorem Read_ne_none (hfuel : c.buffer.length + 3 * c.parents.length + 3 ≤ fuel)
    (hno : ∀ y, c.image.curr_offset ≤ y → y < c.image.curr_offset + c.buffer.length →
      c.image.layout.StartsStep c.image.curr_offset y →
      (∀ b, c.image.curr_offset / c.image.blocksize ≤ b → b < y / c.image.blocksize →
        ¬ c.image.layout.Stops c.image.currblock c.image.curr_offset c.buffer.length b) →
      ¬ c.image.layout.Refuses c.image.currblock c.image.curr_offset c.buffer.length (y / c.image.blocksize) →
      ¬ Hangs c.layouts y (c.image.curr_offset + c.buffer.length - y)) : Read ReadIo.ok (fuel + 1) c ≠ none := by
  rw [Read_eq hs hx]
  have hs0 : ({ c with read := 0 } : Reading).Sound := ⟨hs.loaded, hs.stacked⟩
  exact readBlocks_ne_none ha hs0 hx (atBlock_start hs hx) (Or.inl rfl) (by omega)
    (show _ + 3 * c.parents.length + 1 ≤ _ by omega) hno

end Whole

theorem Read_behind (h : c.image.dstsize ≤ c.image.curr_offset) (fuel : Nat) :
    Read ReadIo.ok (fuel + 1) c = some (.failed, { c with read := 0 }) := by
  rw [Read]
  exact if_pos h

/-- Every image of a chain answers its child. -/
theorem answers_Read (fuel : Nat) : Answers (Read ReadIo.ok fuel) fuel := by
  induction fuel with
  | zero =>
    refine ⟨fun _ _ h => (by cases h), fun _ _ _ => rfl, fun _ _ h => ?_⟩
    omega
  | succ fuel ih =>
    constructor
    · intro c out c' hs hin h
      obtain hx | hx := Nat.lt_or_ge c.image.curr_offset c.image.dstsize
      · obtain ⟨hkeeps, hle, hiff⟩ := Read_some hs hx ih h
        have hs0 : ({ c with read := 0 } : Reading).Sound := ⟨hs.loaded, hs.stacked⟩
        have hstart := atBlock_start hs hx
        rw [Read_eq hs hx] at h
        obtain ⟨hsilent, hfull⟩ := readBlocks_one ih hs0 hstart hx hin h
        have hblock : c.image.curr_offset / c.image.blocksize < c.image.bat.length := by
          have hcovers : c.image.dstsize ≤ c.image.bat.length * c.image.blocksize := hs.covers.covers
          rw [Nat.div_lt_iff_lt_mul hs.pos]
          omega
        refine ⟨?_, hkeeps, hle, hsilent, fun hstep hnot => (hfull hstep hnot).trans (Nat.zero_add _)⟩
        rw [ne_eq, hiff]
        exact hstart.overruns_le hblock hin
      · rw [Read_behind hx] at h
        cases h
        refine ⟨by simp, ⟨rfl, ⟨hs.loaded, hs.stacked⟩, rfl⟩, Nat.zero_le _, fun _ => rfl, fun _ hnot => ?_⟩
        exact absurd (Or.inl hx) hnot
    · rintro c hs hin ⟨y, hle, hlt, hy, hhang⟩
      have hinside := hangs_le hs.stacked hhang
      have hpos := step_pos (v := c.image.layout) (x := y) hs.pos
        (show 0 < c.image.curr_offset + c.buffer.length - y by omega)
      have hx : c.image.curr_offset < c.image.dstsize := by
        change _ ≤ c.image.dstsize at hinside
        omega
      have hstart := atBlock_start hs hx
      have hs0 : ({ c with read := 0 } : Reading).Sound := ⟨hs.loaded, hs.stacked⟩
      have hdiv : y / c.image.blocksize = c.image.curr_offset / c.image.blocksize := by
        have hsplit := Nat.div_add_mod' c.image.curr_offset c.image.blocksize
        have hin' : c.image.curr_offset % c.image.blocksize + c.buffer.length ≤ c.image.blocksize := hin
        apply Nat.div_eq_of_lt_le
        · omega
        · rw [Nat.add_one_mul]
          omega
      apply Read_none hs hx ih hle hlt hy _ _ hhang
      · intro b hb hlt'
        omega
      · rw [hdiv]
        exact hstart.not_refuses hs0 hin
    · intro c hs hin hfuel hno
      obtain hx | hx := Nat.lt_or_ge c.image.curr_offset c.image.dstsize
      · apply Read_ne_none hs hx ih (by omega)
        intro y hle hlt hy _ _ hhang
        exact hno ⟨y, hle, hlt, hy, hhang⟩
      · rw [Read_behind hx]
        exact Option.some_ne_none _

/-- A read at a place of the disk ends, stays in the table and copies at most what is
asked for, exactly where no step of it hangs and it does not come to the end of the
table. -/
theorem Read_safe_iff (c : Reading) (hs : c.Sound) (hx : c.image.curr_offset < c.image.dstsize) :
    (∃ fuel out c', Read ReadIo.ok fuel c = some (out, c') ∧ out ≠ .outOfRange ∧ c'.read ≤ c.buffer.length ∧
        c'.buffer.length = c.buffer.length) ↔
      c.image.layout.ReadsSafely c.image.currblock c.image.curr_offset c.buffer.length (c.parents.map VHDFile.layout) := by
  constructor
  · rintro ⟨fuel, out, c', h, hout, -⟩
    obtain ⟨fuel, rfl⟩ : ∃ k, fuel = k + 1 := by
      cases fuel with
      | zero => cases h
      | succ k => exact ⟨k, rfl⟩
    have ha := answers_Read fuel
    constructor
    · intro y hle hlt hy hstops hrefuses hhang
      cases (Read_none hs hx ha hle hlt hy hstops hrefuses hhang).symm.trans h
    · intro hlt
      by_contra hnot
      push Not at hnot
      exact hout ((Read_some hs hx ha h).2.2.mpr ⟨hlt, hnot⟩)
  · intro hsafe
    have ha := answers_Read (c.buffer.length + 3 * c.parents.length + 3)
    obtain ⟨⟨out, c'⟩, h⟩ := Option.ne_none_iff_exists'.mp (Read_ne_none hs hx ha (le_refl _) hsafe.steps)
    obtain ⟨hkeeps, hle, hiff⟩ := Read_some hs hx ha h
    refine ⟨_, out, c', h, ?_, hle, hkeeps.length⟩
    rw [ne_eq, hiff]
    rintro ⟨hlt, hnot⟩
    obtain ⟨b, hb, hlt', hstops⟩ := hsafe.table hlt
    exact hnot b hb hlt' hstops

section Small

/-- An image with blocks of two sectors that was just opened, with nothing in its
file. -/
def smallImage (dstsize : Nat) (bat : List Nat) (size : Nat) : VHDFile where
  read_only := true
  fast_mode := false
  compressed := false
  dstsize
  blocksize := 1024
  bat
  bat_offset := def_bat_offset
  nextblock_offset := size
  parentlocator := []
  bitmap := List.replicate 512 0
  bitmap_size := 512
  currblock := 0xFFFFFFFF
  curr_offset := 0
  bitmap_offset := 0
  bitmap_dirty := false
  footer := List.replicate 512 0
  file := List.replicate size 0
  filepos := 0
  ops := 0

variable {dstsize size : Nat} {bat : List Nat}

theorem smallImage_layout (dstsize size : Nat) (bat : List Nat) :
    (smallImage dstsize bat size).layout = ⟨1024, dstsize, bat, 512, List.replicate size 0⟩ := by
  rw [VHDFile.layout, if_neg (fun h => Bool.false_ne_true h.1)]
  rfl

theorem smallImage_loaded (hbat : ∀ bat_off ∈ bat, bat_off ≠ unallocated → bat_off * sector_size + 1536 ≤ size)
    (hfew : bat.length ≤ 0xFFFFFFFF) : (smallImage dstsize bat size).Loaded := by
  have hplace : ∀ block d, (smallImage dstsize bat size).layout.place block = some d →
      block < bat.length ∧ d + 1536 ≤ size := by
    intro block d h
    refine ⟨by simpa only [smallImage_layout] using place_lt h, ?_⟩
    rw [smallImage_layout, place] at h
    dsimp only at h
    split at h
    · cases h
    · next bat_off hget =>
      split at h
      · cases h
      · next hne =>
        cases h
        exact hbat bat_off (List.mem_of_getElem? hget) hne
  constructor
  · exact List.length_replicate
  · intro block d h
    have hle := (hplace block d h).2
    change d + 512 + 1024 ≤ (List.replicate size (0 : UInt8)).length
    rw [List.length_replicate]
    exact hle
  · intro d h
    have hlt := (hplace _ d h).1
    change 0xFFFFFFFF < bat.length at hlt
    omega

theorem smallImage_covers (hfew : bat.length ≤ 0xFFFFFFFF) (hcovers : dstsize ≤ bat.length * 1024) :
    (smallImage dstsize bat size).layout.Covers := by
  rw [smallImage_layout]
  refine ⟨?_, ?_, ?_, hcovers⟩
  · exact Nat.succ_pos _
  · change 1024 < 2 ^ 32
    omega
  · change bat.length ≤ 2 ^ 32
    omega

/-- An image of one block that has no place in the file. -/
def emptyDisk (n : Nat) : Reading where
  image := smallImage 1024 [unallocated] 0
  parents := []
  buffer := List.replicate n 0
  read := 0

theorem emptyDisk_sound (n : Nat) : (emptyDisk n).Sound where
  loaded := by
    intro s hs
    obtain rfl := List.mem_singleton.mp hs
    exact smallImage_loaded (by simp) (by simp)
  stacked := by
    refine ⟨?_, .singleton _⟩
    intro v hv
    obtain rfl := List.mem_singleton.mp hv
    exact smallImage_covers (by simp) (by simp)

/-- An image of one block, of which nothing is there, over one of a sector. The second
sector is read. -/
def grownDisk : Reading where
  image := (smallImage 1024 [3] 3072).Seek 512
  parents := [smallImage 512 [unallocated] 0]
  buffer := List.replicate 512 0
  read := 0

/-- Allocated blocks, over one another. -/
def layeredDisk : Reading where
  image := smallImage 1024 [3] 3072
  parents := [smallImage 1024 [3] 3072]
  buffer := List.replicate 1024 0
  read := 0

theorem layeredDisk_sound : layeredDisk.Sound where
  loaded := by
    intro s hs
    obtain rfl : s = smallImage 1024 [3] 3072 := (List.mem_pair.mp hs).elim id id
    exact smallImage_loaded (by decide) (by simp)
  stacked := by
    refine ⟨?_, .cons_cons ⟨rfl, Nat.le_refl _⟩ (.singleton _)⟩
    intro v hv
    obtain rfl : v = (smallImage 1024 [3] 3072).layout := (List.mem_pair.mp hv).elim id id
    exact smallImage_covers (by simp) (by simp)

end Small

/-- Over a parent of the same size no step hangs. -/
theorem not_hangs_over {v w : Layout} {x n : Nat} (hpos : 0 < v.blocksize) (hsize : w.dstsize = v.dstsize) (hn : 0 < n) :
    ¬ Hangs [v, w] x n := by
  have hstep := @step_pos v x n hpos hn
  have hle := (step_le v x n).2.1
  simp only [Hangs, Silent, and_false, or_false, false_or, not_and, not_or, Nat.not_le]
  rintro - hin
  constructor
  · omega
  · rintro -
    omega

/-- A read of the whole disk ends. -/
theorem Read_safe_iff_layered : ∃ fuel out c', Read ReadIo.ok fuel layeredDisk = some (out, c') ∧ out ≠ .outOfRange ∧
    c'.read ≤ layeredDisk.buffer.length ∧ c'.buffer.length = layeredDisk.buffer.length := by
  have hlength : layeredDisk.buffer.length = 1024 := List.length_replicate
  apply (Read_safe_iff layeredDisk layeredDisk_sound (Nat.succ_pos 1023)).mpr
  constructor
  · rintro y - hlt - - -
    exact not_hangs_over (Nat.succ_pos 1023) rfl (Nat.sub_pos_of_lt hlt)
  · intro hlt
    rw [hlength] at hlt
    change 1 * 1024 < 0 + 1024 at hlt
    omega

/-- Behind a last block without a place the table is left, and where the parent ends
the loop never does. -/
theorem Read_unsafe :
    ((emptyDisk 1025).Sound ∧ (emptyDisk 1025).image.curr_offset < (emptyDisk 1025).image.dstsize ∧
      ∀ fuel out c', Read ReadIo.ok fuel (emptyDisk 1025) = some (out, c') → out = .outOfRange) ∧
    grownDisk.Sound ∧ grownDisk.image.curr_offset < grownDisk.image.dstsize ∧ ∀ fuel, Read ReadIo.ok fuel grownDisk = none := by
  constructor
  · refine ⟨emptyDisk_sound 1025, Nat.succ_pos 1023, ?_⟩
    intro fuel out c' h
    cases fuel with
    | zero => cases h
    | succ fuel =>
      apply (Read_some (emptyDisk_sound 1025) (Nat.succ_pos 1023) (answers_Read fuel) h).2.2.mpr
      constructor
      · rw [emptyDisk, smallImage_layout, List.length_replicate]
        decide
      · intro b _ hlt
        have hzero : b = 0 := by
          rw [emptyDisk, smallImage_layout] at hlt
          exact Nat.lt_one_iff.mp hlt
        apply Free.not_stops
        rw [hzero]
        rfl
  · have hsound : grownDisk.Sound := by
      constructor
      · intro s hs
        rcases List.mem_cons.mp hs with rfl | hs
        · have hloaded : (smallImage 1024 [3] 3072).Loaded := smallImage_loaded (by decide) (by simp)
          exact hloaded.of_eq rfl rfl rfl rfl
        · obtain rfl := List.mem_singleton.mp hs
          exact smallImage_loaded (by simp) (by simp)
      · refine ⟨?_, ?_⟩
        · intro v hv
          obtain rfl | hv := List.mem_cons.mp hv
          · have hcovers : (smallImage 1024 [3] 3072).layout.Covers := smallImage_covers (by simp) (by simp)
            exact hcovers
          · obtain rfl := List.mem_singleton.mp hv
            exact smallImage_covers (by simp) (by simp)
        · exact .cons_cons ⟨rfl, Nat.le_add_right 512 512⟩ (.singleton _)
    refine ⟨hsound, show 512 < 1024 by omega, ?_⟩
    intro fuel
    cases fuel with
    | zero => rfl
    | succ fuel =>
      have hlayouts : grownDisk.layouts = [⟨1024, 1024, [3], 512, List.replicate 3072 0⟩, ⟨1024, 512, [unallocated], 512, []⟩] := by
        exact congrArg₂ List.cons (smallImage_layout 1024 3072 [3])
          (congrArg (List.cons · []) (smallImage_layout 512 0 [unallocated]))
      have hlayout : grownDisk.image.layout = ⟨1024, 1024, [3], 512, List.replicate 3072 0⟩ := smallImage_layout 1024 3072 [3]
      have hzero : bitSet (slice (List.replicate 3072 0) 1536 512) 512 = false := by
        rw [slice, List.drop_replicate, List.take_replicate, bitSet, List.getD_eq_getElem?_getD, List.getElem?_replicate]
        rfl
      have hlength : grownDisk.buffer.length = 512 := List.length_replicate
      apply @Read_none fuel grownDisk hsound (show 512 < 1024 by omega) (answers_Read fuel) 512 (le_refl 512)
        (by rw [hlength]; exact Nat.lt_add_of_pos_right (Nat.succ_pos 511)) (Or.inl rfl)
      · intro b _ hlt
        cases hlt
      · rw [hlayout, hlength]
        rintro ⟨d, hplace, -, hlt⟩
        cases hplace
        rw [List.length_replicate] at hlt
        exact absurd hlt (Nat.lt_irrefl 3072)
      · rw [hlayouts, hlength]
        exact Or.inr ⟨⟨1536, rfl, hzero⟩, Or.inl ⟨by decide, Or.inl (le_refl 512)⟩⟩

end Reading

end urbackup.vhdfile
