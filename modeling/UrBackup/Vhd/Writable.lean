import Mathlib.Data.List.GetD
import UrBackup.Vhd.Contents
import UrBackup.Vhd.Allocate

namespace urbackup.vhdfile

open stringtools filedata

/-- Bytes that are written to a disk at a position. -/
def put (disk : Nat → UInt8) (x : Nat) (bytes : Bytes) : Nat → UInt8 :=
  fun y => if x ≤ y ∧ y < x + bytes.length then bytes.getD (y - x) 0 else disk y

theorem put_nil (disk : Nat → UInt8) (x : Nat) : put disk x [] = disk := by
  funext y
  rw [put, if_neg (by simp)]

/-- Two parts that follow each other. -/
theorem put_append (disk : Nat → UInt8) (x : Nat) (bytes more : Bytes) :
    put (put disk x bytes) (x + bytes.length) more = put disk x (bytes ++ more) := by
  funext y
  simp only [put, List.length_append]
  by_cases hmore : x + bytes.length ≤ y ∧ y < x + bytes.length + more.length
  · rw [if_pos hmore, if_pos (by omega), List.getD_append_right _ _ _ _ (by omega)]
    congr 1
    omega
  · rw [if_neg hmore]
    by_cases hbytes : x ≤ y ∧ y < x + bytes.length
    · rw [if_pos hbytes, if_pos (by omega), List.getD_append _ _ _ _ (by omega)]
    · rw [if_neg hbytes, if_neg (by omega)]

theorem getD_overwrite (xs : Bytes) (p : Nat) (ys : Bytes) (i : Nat) :
    (overwrite 0 xs p ys).getD i 0 = if p ≤ i ∧ i < p + ys.length then ys.getD (i - p) 0 else xs.getD i 0 := by
  by_cases hnil : ys = []
  · rw [hnil, overwrite_nil, if_neg (by simp)]
  rw [List.getD_eq_getElem?_getD, getElem?_overwrite 0 hnil]
  by_cases hfront : i < p
  · rw [if_pos hfront, if_neg (by omega)]
    rfl
  · rw [if_neg hfront]
    by_cases hin : i < p + ys.length
    · rw [if_pos hin, if_pos (by omega), ← List.getD_eq_getElem?_getD]
    · rw [if_neg hin, if_neg (by omega), ← List.getD_eq_getElem?_getD]

theorem getD_slice (xs : Bytes) {p n i : Nat} (h : i < n) : (slice xs p n).getD i 0 = xs.getD (p + i) 0 := by
  rw [List.getD_eq_getElem?_getD, getElem?_slice, if_pos h, ← List.getD_eq_getElem?_getD]

namespace Layout

variable {v w : Layout} {vs : List Layout} {x d : Nat}

/-- There is a bit for every sector. -/
structure Bits (v : Layout) : Prop where
  pos : 0 < v.blocksize
  enough : v.blocksize ≤ v.bitmap_size * 8 * sector_size

theorem Bits.lt (h : v.Bits) (x : Nat) : x % v.blocksize / sector_size / 8 < v.bitmap_size := by
  have hmod := Nat.mod_lt x h.pos
  have henough := h.enough
  unfold sector_size at *
  omega

theorem Bits.size_pos (h : v.Bits) : 0 < v.bitmap_size :=
  Nat.zero_lt_of_lt (h.lt 0)

theorem Bits.bitSet_slice (h : v.Bits) (file : Bytes) (d x : Nat) :
    bitSet (slice file d v.bitmap_size) (x % v.blocksize) =
      (file.getD (d + x % v.blocksize / sector_size / 8) 0 &&& VHDFile.bitMask (x % v.blocksize) ≠ 0 : Bool) := by
  rw [bitSet, getD_slice file (h.lt x)]

/-- Only the bytes of its block say what is at a position. -/
theorem byteAt_congr (hbits : v.Bits) (hblocksize : w.blocksize = v.blocksize) (hsize : w.bitmap_size = v.bitmap_size)
    (hplace : w.place (x / v.blocksize) = v.place (x / v.blocksize))
    (hfile : ∀ d, v.place (x / v.blocksize) = some d → ∀ p, d ≤ p → p < d + v.bitmap_size + v.blocksize →
      w.file.getD p 0 = v.file.getD p 0) : byteAt (w :: vs) x = byteAt (v :: vs) x := by
  rw [byteAt, byteAt, hblocksize, hplace, hsize]
  cases hd : v.place (x / v.blocksize) with
  | none => rfl
  | some d =>
    have hmod := Nat.mod_lt x hbits.pos
    have hlt := hbits.lt x
    have hbit := hfile d hd (d + x % v.blocksize / sector_size / 8) (Nat.le_add_right ..) (by
      generalize x % v.blocksize / sector_size / 8 = i at hlt ⊢
      omega)
    dsimp only
    rw [hbits.bitSet_slice, hbits.bitSet_slice, hbit, hfile d hd _ (by omega) (by omega)]

/-- A block of which nothing is there. -/
theorem byteAt_blank (hbits : v.Bits) (hplace : v.place (x / v.blocksize) = some d)
    (hblank : ∀ p, d ≤ p → p < d + v.bitmap_size → v.file.getD p 0 = 0) : byteAt (v :: vs) x = byteAt vs x := by
  have hlt := hbits.lt x
  rw [byteAt, hplace]
  dsimp only
  rw [hbits.bitSet_slice, hblank _ (Nat.le_add_right ..) (Nat.add_lt_add_left hlt d)]
  simp

end Layout

open Layout

namespace VHDFile

variable {s t u : VHDFile}

/-- An image that is written and finished later. The bitmap of the current block is
in memory, the others are in the file. There is a number for the place of every block
that may be added. -/
structure Writable (s : VHDFile) : Prop where
  fast : s.fast_mode = true
  writes : s.read_only = false
  roomy : s.space.Roomy
  numbers : s.nextblock_offset + s.bat.count unallocated * s.space.stride ≤ unallocated * sector_size
  few : s.bat.length < 2 ^ 32
  bits : s.layout.Bits
  bitmap : s.bitmap.length = s.bitmap_size
  inFile : ∀ block d, s.layout.place block = some d → d + s.bitmap_size ≤ s.file.length
  opened : s.layout.place s.currblock = none → s.bat.length ≤ s.currblock ∧ s.bitmap_dirty = false
  offset : ∀ d, s.layout.place s.currblock = some d → s.bitmap_offset = d
  current : ∀ d, s.layout.place s.currblock = some d → ∀ p,
    s.layout.file.getD p 0 = if d ≤ p ∧ p < d + s.bitmap_size then s.bitmap.getD (p - d) 0 else s.file.getD p 0

/-- What a write leaves as it is. -/
structure Stays (s t : VHDFile) : Prop where
  dstsize : t.dstsize = s.dstsize
  blocksize : t.blocksize = s.blocksize
  bitmap_size : t.bitmap_size = s.bitmap_size
  entries : t.bat.length = s.bat.length
  bat_offset : t.bat_offset = s.bat_offset
  footer : t.footer = s.footer
  compressed : t.compressed = s.compressed
  headers : ∀ p < def_bat_offset, t.layout.file.getD p 0 = s.layout.file.getD p 0

theorem Stays.refl (s : VHDFile) : s.Stays s where
  dstsize := rfl
  blocksize := rfl
  bitmap_size := rfl
  entries := rfl
  bat_offset := rfl
  footer := rfl
  compressed := rfl
  headers := fun _ _ => rfl

theorem Stays.trans (h : s.Stays t) (h' : t.Stays u) : s.Stays u where
  dstsize := h'.dstsize.trans h.dstsize
  blocksize := h'.blocksize.trans h.blocksize
  bitmap_size := h'.bitmap_size.trans h.bitmap_size
  entries := h'.entries.trans h.entries
  bat_offset := h'.bat_offset.trans h.bat_offset
  footer := h'.footer.trans h.footer
  compressed := h'.compressed.trans h.compressed
  headers := fun p hp => (h'.headers p hp).trans (h.headers p hp)

/-- The bytes of the file with a waiting bitmap. -/
theorem layout_getD (hfast : s.fast_mode = true) (hwrites : s.read_only = false) (hoffset : s.bitmap_offset ≠ 0) (p : Nat) :
    s.layout.file.getD p 0 = if s.bitmap_dirty = true ∧ s.bitmap_offset ≤ p ∧ p < s.bitmap_offset + s.bitmap.length then
      s.bitmap.getD (p - s.bitmap_offset) 0 else s.file.getD p 0 := by
  rw [layout]
  dsimp only
  by_cases hdirty : s.bitmap_dirty = true
  · rw [if_pos ⟨hfast, by simp [hwrites], hdirty, hoffset⟩, getD_overwrite]
    simp only [hdirty, true_and]
  · rw [if_neg (fun h => hdirty h.2.2.1), if_neg (fun h => hdirty h.1)]

section Places

theorem extent_of_place {block d : Nat} (hplace : s.layout.place block = some d) :
    s.space.extent (.block block) = some (d, d + s.bitmap_size + s.blocksize) := by
  have hbat : s.layout.bat = s.space.bat := rfl
  rw [Layout.place, hbat] at hplace
  rw [Space.extent]
  cases hget : s.space.bat[block]? with
  | none =>
    rw [hget] at hplace
    cases hplace
  | some bat_ref =>
    rw [hget] at hplace
    dsimp only at hplace ⊢
    by_cases hfree : bat_ref = unallocated
    · rw [if_pos hfree] at hplace
      cases hplace
    · rw [if_neg hfree] at hplace ⊢
      cases hplace
      rfl

/-- A block is behind the headers and before the place of the next one. -/
theorem place_bounds (h : s.space.Roomy) {block d : Nat} (hplace : s.layout.place block = some d) :
    def_bat_offset ≤ d ∧ d + s.bitmap_size + s.blocksize ≤ s.nextblock_offset ∧ d % sector_size = 0 := by
  have hextent := extent_of_place hplace
  have hpos : 0 < s.blocksize := h.blocksize_pos
  have hbelow := h.spaced.below _ _ _ hextent
  have hheader := h.spaced.apart .header (.block block) _ _ _ _ (by simp) rfl hextent
  have hdynamic := h.spaced.apart .dynamicheader (.block block) _ _ _ _ (by simp) rfl hextent
  refine ⟨?_, hbelow, ?_⟩
  · unfold def_bat_offset def_dynamic_header_offset at *
    omega
  · rw [Layout.place] at hplace
    split at hplace
    · cases hplace
    · split at hplace
      · cases hplace
      · cases hplace
        exact Nat.mul_mod_left ..

/-- Blocks do not overlap. -/
theorem place_apart (h : s.space.Roomy) {block block' d d' : Nat} (hne : block ≠ block') (hplace : s.layout.place block = some d)
    (hplace' : s.layout.place block' = some d') :
    d + s.bitmap_size + s.blocksize ≤ d' ∨ d' + s.bitmap_size + s.blocksize ≤ d :=
  h.spaced.apart (.block block) (.block block') _ _ _ _ (by simpa using hne) (extent_of_place hplace) (extent_of_place hplace')

end Places

theorem Writable.wrap (h : s.Writable) : s.nextblock_offset + s.space.stride < 2 ^ 64 := by
  have hnumbers := h.numbers
  have hle := (Space.stride_le s.space).2
  have hsmall := h.roomy.small
  unfold unallocated sector_size at hnumbers
  unfold sector_size at hle
  omega

/-- The next block has a number. -/
theorem Writable.fits (h : s.Writable) {block : Nat} (hfree : s.layout.Free block) :
    s.nextblock_offset / sector_size < unallocated := by
  have hnumbers := h.numbers
  have hcount : 0 < s.bat.count unallocated := List.count_pos_iff.mpr (List.mem_of_getElem? hfree)
  have hmul := Nat.mul_le_mul_right s.space.stride hcount
  have hle := (Space.stride_le s.space).1
  have hpos := h.roomy.blocksize_pos
  rw [Nat.div_lt_iff_lt_mul Space.sector_pos]
  omega

/-- A block in the table has a place or gets one. -/
theorem Writable.placeBlock_some (h : s.Writable) {block : Nat} (hblock : block < s.bat.length) :
    ∃ d new t, s.placeBlock true block = (.value (d, new), t) := by
  unfold placeBlock
  rw [List.getElem?_eq_getElem hblock]
  dsimp only
  by_cases hfree : s.bat[block] = unallocated
  · have hget : s.layout.Free block := (List.getElem?_eq_getElem hblock).trans (congrArg some hfree)
    have hfits := h.fits hget
    have hplace : s.reserveBlock.1 = s.nextblock_offset := rfl
    rw [if_pos hfree, if_neg (by rw [hplace]; omega)]
    exact ⟨_, _, _, rfl⟩
  · rw [if_neg hfree]
    exact ⟨_, _, _, rfl⟩

section Open

variable {block d : Nat} {new : Bool}

/-- A block has a place, or it gets the next one. -/
theorem placeBlock_value {checked : Bool} (h : s.placeBlock checked block = (.value (d, new), t)) :
    new = false ∧ t = s ∧ s.layout.place block = some d ∨
    new = true ∧ s.layout.Free block ∧ d = s.nextblock_offset ∧ (checked = true → d / sector_size < unallocated) ∧
      t = { s with nextblock_offset := s.reserveBlock.2.nextblock_offset, bat := s.bat.set block (d / sector_size % 2 ^ 32) } := by
  unfold placeBlock at h
  have hbat : s.layout.bat = s.bat := rfl
  cases hget : s.bat[block]? with
  | none =>
    rw [hget] at h
    cases h
  | some bat_ref =>
    rw [hget] at h
    dsimp only at h
    by_cases hfree : bat_ref = unallocated
    · rw [if_pos hfree] at h
      split at h
      · cases h
      · next hplace =>
        cases h
        refine Or.inr ⟨rfl, hget.trans (congrArg some hfree), rfl, fun hchecked => ?_, rfl⟩
        by_contra hge
        exact hplace ⟨hchecked, Nat.le_of_not_lt hge⟩
    · rw [if_neg hfree] at h
      cases h
      refine Or.inl ⟨rfl, rfl, ?_⟩
      rw [Layout.place, hbat, hget]
      exact if_neg hfree

/-- The places after a new one was given. -/
theorem place_set {v w : Layout} (hbat : w.bat = v.bat.set block (d / sector_size % 2 ^ 32)) (hblock : block < v.bat.length)
    (haligned : d % sector_size = 0) (hfits : d / sector_size < unallocated) (b : Nat) :
    w.place b = if b = block then some d else v.place b := by
  rw [Layout.place, Layout.place, hbat]
  by_cases hb : b = block
  · rw [if_pos hb, hb, List.getElem?_set_self hblock, Nat.mod_eq_of_lt (hfits.trans (by decide))]
    dsimp only
    rw [if_neg hfits.ne, Nat.div_mul_cancel (Nat.dvd_of_mod_eq_zero haligned)]
  · rw [if_neg hb, List.getElem?_set_ne (Ne.symm hb)]

/-- The image that has opened the bitmap of a block, with the same bytes. -/
structure Opened (s u : VHDFile) (block d : Nat) : Prop where
  writable : u.Writable
  stays : s.Stays u
  current : u.currblock = block
  place : u.layout.place block = some d
  offset : u.curr_offset = s.curr_offset
  same : ∀ vs, byteAt (u.layout :: vs) = byteAt (s.layout :: vs)

variable (h : s.Writable)

include h

/-- The current block needs no other bitmap. -/
theorem Writable.opened_current (hplace : s.layout.place s.currblock = some d) : s.Opened s s.currblock d where
  writable := h
  stays := .refl s
  current := rfl
  place := hplace
  offset := rfl
  same := fun _ => rfl

/-- The bitmap of a block that has a place is read. -/
theorem Writable.openBlock_old (hplace : s.layout.place block = some d) :
    ∃ u, s.openBlock Io.ok block d false = (true, u) ∧ s.Opened u block d := by
  by_cases hcurr : s.currblock = block
  · subst hcurr
    exact ⟨s, if_pos rfl, h.opened_current hplace⟩
  obtain ⟨filepos, ops, hswitch⟩ := s.switchBitmap_ok d
  have hle := s.le_layout_file
  have hin := h.inFile block d hplace
  have hlength : (slice s.layout.file d s.bitmap_size).length = s.bitmap_size := by
    rw [length_slice]
    omega
  obtain ⟨u, hu⟩ : ∃ u : VHDFile, { s with
      file := s.layout.file
      filepos := d + s.bitmap_size
      ops := ops + 1
      bitmap := slice s.layout.file d s.bitmap_size
      bitmap_offset := d
      bitmap_dirty := false
      currblock := block } = u := ⟨_, rfl⟩
  have hopen : s.openBlock Io.ok block d false = (true, u) := by
    rw [openBlock, if_neg hcurr, hswitch, ← hu]
    change (true, ({ s with
      file := s.layout.file
      filepos := d + (slice s.layout.file d s.bitmap_size).length
      ops := ops + 1
      bitmap := slice s.layout.file d s.bitmap_size ++ s.bitmap.drop (slice s.layout.file d s.bitmap_size).length
      bitmap_offset := d
      bitmap_dirty := false
      currblock := block } : VHDFile)) = _
    rw [hlength, List.drop_eq_nil_of_le h.bitmap.le, List.append_nil]
  have hlayout : u.layout = s.layout := by
    rw [← hu]
    exact layout_written rfl rfl rfl rfl rfl rfl
  have hspace : u.space = s.space := by
    rw [← hu]
    rfl
  have hfile : u.file = s.layout.file := by rw [← hu]
  have hcurrent : u.currblock = block := by rw [← hu]
  have hbitmap : u.bitmap = slice s.layout.file d s.bitmap_size := by rw [← hu]
  have hsize : u.bitmap_size = s.bitmap_size := by rw [← hu]
  refine ⟨u, hopen, ?_, ?_, hcurrent, hlayout ▸ hplace, ?_, ?_⟩
  · constructor
    · rw [← hu]
      exact h.fast
    · rw [← hu]
      exact h.writes
    · rw [hspace]
      exact h.roomy
    · rw [hspace, ← hu]
      exact h.numbers
    · rw [← hu]
      exact h.few
    · rw [hlayout]
      exact h.bits
    · rw [hbitmap, hsize, hlength]
    · rw [hlayout, hfile, hsize]
      intro b d' hd'
      exact (h.inFile b d' hd').trans hle
    · rw [hlayout, hcurrent, hplace]
      intro hnone
      cases hnone
    · rw [hlayout, hcurrent, hplace]
      intro d' hd'
      cases hd'
      rw [← hu]
    · rw [hlayout, hcurrent, hplace, hfile, hbitmap, hsize]
      intro d' hd' p
      cases hd'
      split
      · next hp => rw [getD_slice _ (by omega), Nat.add_sub_cancel' hp.1]
      · rfl
  · constructor
    · rw [← hu]
    · rw [← hu]
    · rw [← hu]
    · rw [← hu]
    · rw [← hu]
    · rw [← hu]
    · rw [← hu]
    · rw [hlayout]
      exact fun _ _ => rfl
  · rw [← hu]
  · rw [hlayout]
    exact fun _ => rfl

/-- A new block gets an empty bitmap behind everything else. -/
theorem Writable.openBlock_new (hfree : s.layout.Free block) (hd : d = s.nextblock_offset)
    (ht : t = { s with
      nextblock_offset := s.reserveBlock.2.nextblock_offset
      bat := s.bat.set block (d / sector_size % 2 ^ 32) }) :
    ∃ u, t.openBlock Io.ok block d true = (true, u) ∧ s.Opened u block d := by
  have hblock : block < s.layout.bat.length := hfree.lt
  have hfits : d / sector_size < unallocated := hd ▸ h.fits hfree
  have hnone : s.layout.place block = none := hfree.place
  have haligned : d % sector_size = 0 := hd ▸ h.roomy.aligned
  have hcurr : s.currblock ≠ block := by
    rintro rfl
    exact absurd (h.opened hnone).1 (Nat.not_le_of_lt hblock)
  have hnext : s.reserveBlock.2.nextblock_offset = s.nextblock_offset + s.space.stride :=
    congrArg Space.nextblock_offset (reserveBlock_space h.roomy.small h.roomy.aligned h.wrap)
  have htlayout : t.layout.file = s.layout.file := by
    rw [ht]
    rfl
  have hzeros : (List.replicate s.bitmap_size (0 : UInt8)).length = s.bitmap_size := List.length_replicate
  obtain ⟨filepos, ops, hswitch⟩ := t.switchBitmap_ok d
  obtain ⟨u, hu⟩ : ∃ u : VHDFile, { t with
      file := overwrite 0 s.layout.file d (List.replicate s.bitmap_size 0)
      filepos := d + s.bitmap_size
      ops := ops + 2
      bitmap := List.replicate s.bitmap_size 0
      bitmap_offset := d
      bitmap_dirty := false
      currblock := block } = u := ⟨_, rfl⟩
  have hopen : t.openBlock Io.ok block d true = (true, u) := by
    rw [openBlock, if_neg (by rw [ht]; exact hcurr), hswitch, ← hu]
    have htsize : t.bitmap_size = s.bitmap_size := by rw [ht]
    have htake : (List.replicate s.bitmap_size (0 : UInt8)).take s.bitmap_size = List.replicate s.bitmap_size 0 := by
      rw [List.take_replicate, Nat.min_self]
    simp only [fileSeek, fileWrite, writable, Io.ok, if_true, List.length_replicate, ne_eq, not_true_eq_false, if_false, htlayout,
      htsize, htake]
  have hspace : u.space = s.space.place block := by
    rw [← hu, ht, Space.place, hd]
    dsimp only [space]
    rw [hnext]
    rfl
  have hbat : u.layout.bat = s.layout.bat.set block (d / sector_size % 2 ^ 32) := by
    rw [← hu, ht]
    rfl
  have hplace := place_set hbat hblock haligned hfits
  have hself : u.layout.place block = some d := (hplace block).trans (if_pos rfl)
  have hfile : u.file = overwrite 0 s.layout.file d (List.replicate s.bitmap_size 0) := by rw [← hu]
  have hufile : u.layout.file = u.file := by
    rw [← hu, layout]
    exact if_neg (fun hwaits => Bool.false_ne_true hwaits.2.2.1)
  have hcurrent : u.currblock = block := by rw [← hu]
  have hbitmap : u.bitmap = List.replicate s.bitmap_size 0 := by rw [← hu]
  have hsize : u.bitmap_size = s.bitmap_size := by rw [← hu, ht]
  have hblocksize : u.blocksize = s.blocksize := by rw [← hu, ht]
  have hroomy : u.space.Roomy := by
    rw [hspace]
    rw [hd] at hfits
    exact h.roomy.place hfits block
  have hbits : u.layout.Bits := by
    constructor
    · change 0 < u.blocksize
      rw [hblocksize]
      exact h.bits.pos
    · change u.blocksize ≤ u.bitmap_size * 8 * sector_size
      rw [hblocksize, hsize]
      exact h.bits.enough
  have hbounds := place_bounds hroomy hself
  have hgetD : ∀ p, u.layout.file.getD p 0 = if d ≤ p ∧ p < d + s.bitmap_size then 0 else s.layout.file.getD p 0 := by
    intro p
    rw [hufile, hfile, getD_overwrite, hzeros]
    split
    · rw [List.getD_eq_getElem?_getD, List.getElem?_replicate]
      split <;> rfl
    · rfl
  refine ⟨u, hopen, ?_, ?_, hcurrent, hself, ?_, ?_⟩
  · constructor
    · rw [← hu, ht]
      exact h.fast
    · rw [← hu, ht]
      exact h.writes
    · exact hroomy
    · have hstride : u.space.stride = s.space.stride := by
        rw [hspace]
        rfl
      have hunext : u.nextblock_offset = s.nextblock_offset + s.space.stride := congrArg Space.nextblock_offset hspace
      have hnumbers := h.numbers
      have hcount : s.bat.count unallocated = (s.bat.set block (d / sector_size % 2 ^ 32)).count unallocated + 1 := by
        have hlt : block < s.bat.length := hblock
        have hget : s.bat[block] = unallocated := by
          rw [← Option.some_inj, ← List.getElem?_eq_getElem hlt]
          exact hfree
        have hpos : 0 < s.bat.count unallocated := List.count_pos_iff.mpr (List.mem_of_getElem? hfree)
        have hne : ¬ d / sector_size % 2 ^ 32 = unallocated := by
          rw [Nat.mod_eq_of_lt (hfits.trans (by decide))]
          exact hfits.ne
        rw [List.count_set hlt]
        simp only [hget, beq_self_eq_true, if_true, beq_iff_eq, hne, if_false]
        omega
      have hubat : u.bat = s.bat.set block (d / sector_size % 2 ^ 32) := hbat
      rw [hcount, Nat.add_one_mul] at hnumbers
      rw [hstride, hunext, hubat]
      omega
    · have hlength : u.bat.length = s.bat.length := by rw [← hu, ht]; exact List.length_set
      rw [hlength]
      exact h.few
    · exact hbits
    · rw [hbitmap, hsize, hzeros]
    · intro b d' hd'
      have hbehind : d + s.bitmap_size ≤ u.file.length := by
        have hslice := congrArg List.length (slice_overwrite_self 0 s.layout.file (List.replicate s.bitmap_size 0) d)
        have hpos := h.bits.size_pos
        change 0 < s.bitmap_size at hpos
        rw [length_slice, hzeros, ← hfile] at hslice
        omega
      rw [hplace] at hd'
      rw [hsize]
      by_cases hb : b = block
      · rw [if_pos hb] at hd'
        cases hd'
        exact hbehind
      · rw [if_neg hb] at hd'
        have hin := h.inFile b d' hd'
        have hle := s.le_layout_file
        have hle' := le_length_overwrite 0 s.layout.file d (List.replicate s.bitmap_size 0)
        rw [hfile]
        omega
    · rw [hcurrent, hself]
      intro hnone
      cases hnone
    · rw [hcurrent, hself]
      intro d' hd'
      cases hd'
      rw [← hu]
    · rw [hcurrent, hself]
      intro d' hd' p
      cases hd'
      rw [hufile, hbitmap, hsize]
      split
      · next hp =>
        rw [← hufile, hgetD, if_pos hp, List.getD_eq_getElem?_getD, List.getElem?_replicate, if_pos (by omega)]
        rfl
      · rfl
  · constructor
    · rw [← hu, ht]
    · exact hblocksize
    · exact hsize
    · rw [← hu, ht]
      exact List.length_set
    · rw [← hu, ht]
    · rw [← hu, ht]
    · rw [← hu, ht]
    · intro p hp
      rw [hgetD, if_neg (by omega)]
  · rw [← hu, ht]
  · intro vs
    funext y
    by_cases hy : y / s.blocksize = block
    · have hplacey : u.layout.place (y / u.layout.blocksize) = some d := by
        change u.layout.place (y / u.blocksize) = some d
        rw [hblocksize, hy, hself]
      have hplacey' : s.layout.place (y / s.layout.blocksize) = none := by
        change s.layout.place (y / s.blocksize) = none
        rw [hy, hnone]
      rw [byteAt_blank hbits hplacey, byteAt, hplacey']
      intro p hle hlt
      rw [hgetD, if_pos ⟨hle, hsize ▸ hlt⟩]
    · apply byteAt_congr h.bits hblocksize hsize
      · rw [hplace]
        exact if_neg hy
      · intro d' hd' p hle hlt
        have hbelow := (place_bounds h.roomy hd').2.1
        change p < d' + s.bitmap_size + s.blocksize at hlt
        rw [hgetD, if_neg (by omega)]

end Open

end VHDFile

end urbackup.vhdfile
