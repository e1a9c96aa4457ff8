import UrBackup.Vhd.ReadEnds

namespace urbackup.vhdfile

open stringtools filedata

namespace Layout

/-- The byte of a chain of images, from the newest one that has its sector. Behind the
last one there are zeros. -/
def byteAt : List Layout → Nat → UInt8
  | [], _ => 0
  | v :: vs, x =>
    match v.place (x / v.blocksize) with
    | none => byteAt vs x
    | some d =>
      if bitSet (slice v.file d v.bitmap_size) (x % v.blocksize) then v.file.getD (d + v.bitmap_size + x % v.blocksize) 0
      else byteAt vs x

/-- The bytes of a chain from a position on. -/
def contents (vs : List Layout) (x n : Nat) : Bytes :=
  (List.range' x n).map (byteAt vs)

section Contents

variable {v : Layout} {vs : List Layout} {x n d : Nat}

@[simp] theorem length_contents (vs : List Layout) (x n : Nat) : (contents vs x n).length = n := by
  simp [contents]

@[simp] theorem contents_zero (vs : List Layout) (x : Nat) : contents vs x 0 = [] := rfl

theorem contents_add (vs : List Layout) (x m n : Nat) : contents vs x (m + n) = contents vs x m ++ contents vs (x + m) n := by
  rw [contents, contents, contents, ← List.map_append, List.range'_append_1]

theorem contents_nil (x n : Nat) : contents [] x n = List.replicate n 0 := by
  rw [List.eq_replicate_iff]
  refine ⟨length_contents .., ?_⟩
  intro b hb
  obtain ⟨y, -, rfl⟩ := List.mem_map.mp hb
  rfl

/-- Two chains with the same bytes. -/
theorem contents_congr {ws : List Layout} (h : ∀ y, x ≤ y → y < x + n → byteAt vs y = byteAt ws y) :
    contents vs x n = contents ws x n := by
  apply List.map_congr_left
  intro y hy
  obtain ⟨hle, hlt⟩ := List.mem_range'_1.mp hy
  exact h y hle hlt

/-- A position further on in a block. -/
theorem div_mod_in {b x y : Nat} (hle : x ≤ y) (hlt : x % b + (y - x) < b) :
    y / b = x / b ∧ y % b = x % b + (y - x) := by
  have hsplit := Nat.div_add_mod x b
  have hy : y = (x % b + (y - x)) + b * (x / b) := by omega
  constructor
  · rw [hy, Nat.add_mul_div_left _ _ (by omega), Nat.div_eq_of_lt hlt, Nat.zero_add]
  · rw [hy, Nat.add_mul_mod_self_left, Nat.mod_eq_of_lt hlt, ← hy]

/-- A block that is not there. -/
theorem contents_free (hplace : v.place (x / v.blocksize) = none) (hin : x % v.blocksize + n ≤ v.blocksize) :
    contents (v :: vs) x n = contents vs x n := by
  apply contents_congr
  intro y hle hlt
  rw [byteAt, (div_mod_in hle (by omega)).1, hplace]

/-- The bits are those of sectors. -/
theorem bitSet_congr {bitmap : Bytes} {o o' : Nat} (h : o / sector_size = o' / sector_size) : bitSet bitmap o = bitSet bitmap o' := by
  rw [bitSet, bitSet, VHDFile.bitMask, VHDFile.bitMask, h]

/-- A position in the sector of another one. -/
theorem byteAt_sector (hplace : v.place (x / v.blocksize) = some d) {y : Nat} (hle : x ≤ y)
    (hblock : x % v.blocksize + (y - x) < v.blocksize) (hsector : x % v.blocksize % sector_size + (y - x) < sector_size) :
    byteAt (v :: vs) y =
      if bitSet (slice v.file d v.bitmap_size) (x % v.blocksize) then
        v.file.getD (d + v.bitmap_size + x % v.blocksize + (y - x)) 0
      else byteAt vs y := by
  obtain ⟨hdiv, hmod⟩ := div_mod_in hle hblock
  have hbit : bitSet (slice v.file d v.bitmap_size) (x % v.blocksize + (y - x)) =
      bitSet (slice v.file d v.bitmap_size) (x % v.blocksize) := by
    apply bitSet_congr
    unfold sector_size at *
    omega
  rw [byteAt, hdiv, hplace, hmod]
  dsimp only
  rw [hbit, Nat.add_assoc _ (x % v.blocksize)]

variable (hplace : v.place (x / v.blocksize) = some d) (hblock : x % v.blocksize + n ≤ v.blocksize)
  (hsector : x % v.blocksize % sector_size + n ≤ sector_size)

include hplace hblock hsector

/-- A sector that the image has. -/
theorem contents_held (hbit : bitSet (slice v.file d v.bitmap_size) (x % v.blocksize) = true)
    (hfile : d + v.bitmap_size + x % v.blocksize + n ≤ v.file.length) :
    contents (v :: vs) x n = slice v.file (d + v.bitmap_size + x % v.blocksize) n := by
  refine List.ext_getElem? fun i => ?_
  rw [getElem?_slice, contents, List.getElem?_map]
  split
  · next hi =>
    rw [List.getElem?_range' hi, Option.map_some, Nat.one_mul,
      byteAt_sector hplace (Nat.le_add_right ..) (by omega) (by omega), if_pos hbit, Nat.add_sub_cancel_left,
      List.getD_eq_getElem?_getD, List.getElem?_eq_getElem (by omega)]
    rfl
  · next hi =>
    rw [List.getElem?_eq_none (by simpa using hi)]
    rfl

/-- A sector that its parents have. -/
theorem contents_lacks (hbit : bitSet (slice v.file d v.bitmap_size) (x % v.blocksize) = false) :
    contents (v :: vs) x n = contents vs x n := by
  apply contents_congr
  intro y hle hlt
  rw [byteAt_sector hplace hle (by omega) (by omega), hbit]
  rfl

end Contents

end Layout

open Layout

/-- Nothing hangs inside of images that are large enough. -/
theorem not_hangs {vs : List Layout} {y n : Nat} (h : ∀ v ∈ vs, y < v.dstsize ∧ y + n ≤ v.dstsize) : ¬ Hangs vs y n := by
  induction vs generalizing n with
  | nil => exact id
  | cons v vs ih =>
    have hrest : ∀ m, m ≤ n → ∀ w ∈ vs, y < w.dstsize ∧ y + m ≤ w.dstsize := by
      intro m hm w hw
      obtain ⟨hlt, hle⟩ := h w (List.mem_cons_of_mem _ hw)
      exact ⟨hlt, by omega⟩
    have hstep := (step_le v y n).1
    rintro (⟨-, hhang⟩ | ⟨-, ⟨-, hsilent⟩ | hhang⟩)
    · exact ih (hrest _ (Nat.min_le_left ..)) hhang
    · cases vs with
      | nil => exact hsilent
      | cons w ws =>
        obtain ⟨hlt, hle⟩ := hrest _ hstep w List.mem_cons_self
        obtain hout | ⟨-, hout⟩ := hsilent <;> omega
    · exact ih (hrest _ hstep) hhang

namespace VHDFile

variable {s t : VHDFile}

/-- A bitmap that waits is the one of the current block. -/
def Synced (s : VHDFile) : Prop :=
  s.bitmap_dirty = true → s.layout.place s.currblock = some s.bitmap_offset

theorem Synced.of_eq (h : s.Synced) (hlayout : t.layout = s.layout) (hcurr : t.currblock = s.currblock)
    (hoffset : t.bitmap_offset = s.bitmap_offset) (hdirty : t.bitmap_dirty = s.bitmap_dirty) : t.Synced := by
  intro hd
  rw [hlayout, hcurr, hoffset]
  exact h (hdirty ▸ hd)

/-- A bitmap that waits does not change the sectors of its block. -/
theorem Synced.getElem?_file (h : s.Synced) (hbitmap : s.bitmap.length = s.bitmap_size) {d p : Nat}
    (hplace : s.layout.place s.currblock = some d) (hp : d + s.bitmap_size ≤ p) : s.file[p]? = s.layout.file[p]? := by
  rw [layout]
  dsimp only
  split
  · next hwaits =>
    obtain rfl : d = s.bitmap_offset := Option.some.inj (hplace.symm.trans (h hwaits.2.2.1))
    by_cases hnil : s.bitmap = []
    · rw [hnil, overwrite_nil]
    · rw [getElem?_overwrite 0 hnil, hbitmap, if_neg (by omega), if_neg (by omega)]
  · rfl

theorem Synced.slice_file (h : s.Synced) (hbitmap : s.bitmap.length = s.bitmap_size) {d p : Nat}
    (hplace : s.layout.place s.currblock = some d) (hp : d + s.bitmap_size ≤ p) (n : Nat) :
    slice s.file p n = slice s.layout.file p n := by
  refine List.ext_getElem? fun i => ?_
  rw [getElem?_slice, getElem?_slice, h.getElem?_file hbitmap hplace (by omega)]

/-- Nothing waits when another bitmap was opened. -/
theorem Synced.openToRead (h : s.Synced) (io : ReadIo) (block d off n : Nat) : (s.openToRead io block d off n).2.Synced := by
  rw [VHDFile.openToRead]
  split
  · exact h
  · intro hdirty
    apply absurd hdirty
    have hswitch : ((s.switchBitmap io.toIo d).fileSeek io.toIo d).2.bitmap_dirty = false := by
      rw [fileSeek]
      split <;> rfl
    dsimp only
    generalize ((s.switchBitmap io.toIo d).fileSeek io.toIo d).2 = t at hswitch ⊢
    have hread : (t.fileReadError io t.bitmap_size).2.2.bitmap_dirty = false := by
      rw [fileReadError]
      split <;> exact hswitch
    split
    · exact Bool.not_eq_true _ ▸ hswitch
    · split <;> exact Bool.not_eq_true _ ▸ hread

end VHDFile

namespace Reading

variable {parentRead : Reading → Option (Outcome Unit × Reading)} {fuel : Nat} {c c' : Reading} {d want : Nat}

/-- No bitmap of the chain waits for another block. -/
def Synced (c : Reading) : Prop :=
  ∀ s ∈ c.image :: c.parents, s.Synced

theorem Synced.keep (h : c.Synced) (himage : c'.image.Synced) (hparents : c'.parents = c.parents) : c'.Synced := by
  intro s hs
  rw [hparents] at hs
  rcases List.mem_cons.mp hs with rfl | hs
  · exact himage
  · exact h s (List.mem_cons_of_mem _ hs)

/-- The reads in one block of a parent that is large enough return its contents. -/
def Serves (parentRead : Reading → Option (Outcome Unit × Reading)) : Prop :=
  ∀ {c out c'}, c.Sound → c.Synced → c.Within →
    (∀ v ∈ c.layouts, c.image.curr_offset + c.buffer.length ≤ v.dstsize) → parentRead c = some (out, c') →
    c'.Synced ∧ c'.read = c.buffer.length ∧ c'.buffer = contents c.layouts c.image.curr_offset c.buffer.length

theorem readParent_contents (ha : Answers parentRead fuel) (hp : Serves parentRead) (hs : c.Sound) (hsync : c.Synced)
    (hx : c.image.curr_offset < 2 ^ 64) (hroom : c.read + want ≤ c.buffer.length)
    (hin : c.image.curr_offset % c.image.blocksize + want ≤ c.image.blocksize)
    (hsize : ∀ v ∈ c.parents.map VHDFile.layout, c.image.curr_offset + want ≤ v.dstsize) {out : Outcome Nat}
    (h : c.readParent parentRead want = some (out, c')) :
    out = .value want ∧ c'.Synced ∧
      c'.buffer = overwrite 0 c.buffer c.read (contents (c.parents.map VHDFile.layout) c.image.curr_offset want) := by
  obtain ⟨n, rfl, -⟩ := readParent_value ha hs hx hroom hin h
  rw [readParent] at h
  cases hparents : c.parents with
  | nil =>
    rw [hparents] at h
    cases h
    refine ⟨rfl, hsync, ?_⟩
    rw [List.map_nil, contents_nil]
    rfl
  | cons p ps =>
    rw [hparents] at h hsize
    dsimp only at h
    cases hread : parentRead (c.handOn want p ps) with
    | none =>
      rw [hread] at h
      cases h
    | some answer =>
      obtain ⟨result, r⟩ := answer
      have hsynced : (c.handOn want p ps).Synced := by
        intro s hmem
        rcases List.mem_cons.mp hmem with rfl | hmem
        · exact (hsync p (by simp [hparents])).of_eq rfl rfl rfl rfl
        · exact hsync s (by simp [hparents, show s ∈ ps from hmem])
      have hsize' : ∀ v ∈ (c.handOn want p ps).layouts,
          (c.handOn want p ps).image.curr_offset + (c.handOn want p ps).buffer.length ≤ v.dstsize := by
        rw [handOn_layouts hparents, handOn_offset hx, handOn_length hroom, hparents]
        exact hsize
      obtain ⟨hsync', hdone, hbuffer⟩ :=
        hp (hs.handOn hparents want) hsynced (hs.handOn_within hparents hx hroom hin) hsize' hread
      rw [handOn_length hroom] at hdone
      rw [handOn_layouts hparents, handOn_offset hx, handOn_length hroom, hparents] at hbuffer
      rw [hread] at h
      have hall : ({ c.put r.buffer with parents := r.image :: r.parents } : Reading).Synced := by
        intro s hmem
        rcases List.mem_cons.mp hmem with rfl | hmem
        · exact hsync _ (by simp [put])
        · exact hsync' s hmem
      rw [← hbuffer]
      cases result with
      | outOfRange => cases h
      | value a =>
        cases h
        exact ⟨congrArg Outcome.value hdone, hall, rfl⟩
      | failed =>
        cases h
        exact ⟨congrArg Outcome.value hdone, hall, rfl⟩

/-- A step in an allocated block reads its sector, or that of the parents. -/
theorem readSector_contents (ha : Answers parentRead fuel) (hp : Serves parentRead) (hs : c.Sound) (hsync : c.Synced)
    (hat : c.AtSector d) (hroom : c.read + want ≤ c.buffer.length)
    (hstep : want = c.image.layout.step c.image.curr_offset want)
    (hsize : ∀ v ∈ c.layouts, c.image.curr_offset + want ≤ v.dstsize) {out : Outcome Nat}
    (h : c.readSector ReadIo.ok parentRead d (c.image.curr_offset % c.image.blocksize) want = some (out, c')) :
    out = .value want ∧ c'.Synced ∧ c'.buffer = overwrite 0 c.buffer c.read (contents c.layouts c.image.curr_offset want) := by
  have hmod := Nat.mod_lt c.image.curr_offset hs.pos
  have hsectorpos := Nat.mod_lt (c.image.curr_offset % c.image.blocksize) Space.sector_pos
  obtain ⟨hin, hsector⟩ : c.image.curr_offset % c.image.blocksize + want ≤ c.image.blocksize ∧
      c.image.curr_offset % c.image.blocksize % sector_size + want ≤ sector_size := by
    have hblocksize : c.image.layout.blocksize = c.image.blocksize := rfl
    rw [step, hblocksize] at hstep
    omega
  have hcurrent : c.image.layout.place c.image.currblock = some d := hat.current ▸ hat.place
  have hlacks := hat.lacks_iff hs
  rw [layouts, List.map_cons] at hsize ⊢
  rw [readSector] at h
  by_cases hbit : c.image.isBitmapSet (c.image.curr_offset % c.image.blocksize) = true
  · have hheld : bitSet (slice c.image.layout.file d c.image.bitmap_size) (c.image.curr_offset % c.image.blocksize) = true := by
      rw [← hs.image.current d hcurrent]
      exact hbit
    have hfile := hs.image.inFile _ d hat.place
    have hle := c.image.le_layout_file
    have hbehind : d + c.image.bitmap_size + c.image.curr_offset % c.image.blocksize + want ≤ c.image.layout.file.length := by
      omega
    have hbytes : slice c.image.file c.image.filepos want =
        contents (c.image.layout :: c.parents.map VHDFile.layout) c.image.curr_offset want := by
      rw [contents_held hat.place hin hsector hheld hbehind, hat.filepos]
      exact (hsync _ List.mem_cons_self).slice_file hs.image.bitmap hcurrent (Nat.le_add_right ..) want
    have hlength : (slice c.image.file c.image.filepos want).length = want := by
      rw [hbytes, length_contents]
    rw [if_pos hbit, VHDFile.fileReadError_ok] at h
    simp only [Bool.false_eq_true, and_false, if_false, Option.some.injEq, Prod.mk.injEq] at h
    obtain ⟨rfl, rfl⟩ := h
    rw [← hbytes]
    refine ⟨congrArg Outcome.value hlength, ?_, rfl⟩
    exact hsync.keep ((hsync _ List.mem_cons_self).of_eq rfl rfl rfl rfl) rfl
  · rw [if_neg hbit] at h
    have hnot : bitSet (slice c.image.layout.file d c.image.bitmap_size) (c.image.curr_offset % c.image.blocksize) = false := by
      rw [← hs.image.current d hcurrent]
      exact Bool.not_eq_true _ ▸ hbit
    rw [contents_lacks hat.place hin hsector hnot]
    cases hread : c.readParent parentRead want with
    | none =>
      rw [hread] at h
      cases h
    | some answer =>
      obtain ⟨result, r⟩ := answer
      obtain ⟨rfl, hsync', hbuffer⟩ := readParent_contents ha hp hs hsync (hat.lt hs) hroom hin
        (fun v hv => hsize v (List.mem_cons_of_mem _ hv)) hread
      rw [hread] at h
      cases h
      refine ⟨rfl, hsync'.keep ?_ rfl, hbuffer⟩
      exact (hsync' _ List.mem_cons_self).of_eq rfl rfl rfl rfl

variable {rounds toread : Nat} {firstr : Bool}

/-- The loop over the sectors of a block reads what the chain has there. -/
theorem readSectors_contents (ha : Answers parentRead fuel) (hp : Serves parentRead) (hs : c.Sound) (hsync : c.Synced)
    (hat : c.AtSector d) (hroom : c.read + toread ≤ c.buffer.length)
    (hstart : firstr = true ∨ c.image.curr_offset % c.image.blocksize % sector_size = 0)
    (hsize : ∀ v ∈ c.layouts, c.image.curr_offset + toread ≤ v.dstsize) {l : Left}
    (h : readSectors ReadIo.ok parentRead d rounds c (c.image.curr_offset % c.image.blocksize) toread firstr = some (l, c')) :
    ∃ r, l = .rest r ∧ c'.Synced ∧ c'.buffer = overwrite 0 c.buffer c.read (contents c.layouts c.image.curr_offset (toread - r)) := by
  induction rounds generalizing c toread firstr with
  | zero => cases h
  | succ rounds ih =>
    have hmod := Nat.mod_lt c.image.curr_offset hs.pos
    have hwant := wantBytes_step hs hstart toread
    obtain ⟨hle, hin⟩ := wantBytes_le hs toread firstr
    have hstep := step_step c.image.layout c.image.curr_offset toread
    rw [hwant] at hle hin
    have hdst : c.image.curr_offset + toread ≤ c.image.dstsize := hsize c.image.layout (by simp [layouts])
    generalize hn : c.image.layout.step c.image.curr_offset toread = n at hwant hle hin hstep
    rw [readSectors_step hs hwant (by omega)] at h
    cases hsector : c.readSector ReadIo.ok parentRead d (c.image.curr_offset % c.image.blocksize) n with
    | none =>
      rw [hsector] at h
      cases h
    | some answer =>
      obtain ⟨result, r⟩ := answer
      obtain ⟨m, hm, hkeeps, hcurr, hoffset, hfilepos, hread, -⟩ := readSector_value ha hs hat (by omega) hin hsector
      obtain ⟨rfl, hsync', hbuffer⟩ := readSector_contents ha hp hs hsync hat (by omega) hstep.symm
        (fun v hv => by have := hsize v hv; omega) hsector
      cases hm
      rw [hsector] at h
      dsimp only at h
      have hsize' : (r.skip n).image.blocksize = c.image.blocksize := congrArg Layout.blocksize hkeeps.layout
      have hskipped : (r.skip n).Synced := hsync'.keep ((hsync' _ List.mem_cons_self).of_eq rfl rfl rfl rfl) rfl
      have hsizer : r.image.blocksize = c.image.blocksize := hsize'
      rw [hsizer] at h
      split at h
      · cases h
        refine ⟨_, rfl, hskipped, ?_⟩
        rw [show toread - (toread - n) = n by omega]
        exact hbuffer
      · next hend =>
        rw [not_or] at hend
        have hkeeps' := hkeeps.skip n
        have hlength := hkeeps'.length
        have hread' : (r.skip n).read = c.read + n := by rw [skip, hread]
        have hoffset' : (r.skip n).image.curr_offset = c.image.curr_offset + n := by rw [skip, hoffset]
        obtain ⟨hat', -, hmod'⟩ := hat.next (by omega) hkeeps.layout hcurr hoffset hfilepos
        have haligned : (r.skip n).image.curr_offset % (r.skip n).image.blocksize % sector_size = 0 := by
          rw [hsize', hmod', ← hn]
          apply step_aligned (v := c.image.layout)
          · omega
          · rw [hn]
            exact (show c.image.curr_offset % c.image.blocksize + n < c.image.blocksize by omega)
        rw [← hmod', ← hsize'] at h
        have hsizes : ∀ v ∈ (r.skip n).layouts, (r.skip n).image.curr_offset + (toread - n) ≤ v.dstsize := by
          rw [hkeeps'.layouts, hoffset']
          intro v hv
          have := hsize v hv
          omega
        obtain ⟨left, rfl, hsync'', hbuffer'⟩ := ih hkeeps'.sound hskipped hat' (by omega) (Or.inr haligned) hsizes h
        obtain ⟨k, hk, -, -, -, -, -, hrest, -⟩ := readSectors_some ha hkeeps'.sound hat' (by omega) h
        obtain ⟨rfl, -⟩ := hrest left rfl
        refine ⟨_, rfl, hsync'', ?_⟩
        have hput : (r.skip n).buffer = overwrite 0 c.buffer c.read (contents c.layouts c.image.curr_offset n) := hbuffer
        have hsplit := overwrite_overwrite 0 c.buffer (contents c.layouts c.image.curr_offset n)
          (contents c.layouts (c.image.curr_offset + n) k) c.read
        rw [length_contents, ← contents_add] at hsplit
        rw [hbuffer', hput, hread', hkeeps'.layouts, hoffset', show toread - n - (toread - n - k) = k by omega, hsplit,
          show toread - (toread - n - k) = n + k by omega]

variable {curr o n block off : Nat}

/-- A read of `n` bytes at `o` is refused at a block from this one on. -/
def RefusedFrom (c : Reading) (curr o n block : Nat) : Prop :=
  ∃ b, block ≤ b ∧ b * c.image.blocksize < o + n ∧ c.image.layout.Refuses curr o n b

/-- A block that is not refused. -/
theorem refusedFrom_succ (hblock : ¬ c.image.layout.Refuses curr o n block) :
    c.RefusedFrom curr o n block ↔ c.RefusedFrom curr o n (block + 1) := by
  constructor
  · rintro ⟨b, hle, hlt, hrefuses⟩
    refine ⟨b, ?_, hlt, hrefuses⟩
    rcases Nat.eq_or_lt_of_le hle with rfl | hle
    · exact absurd hrefuses hblock
    · exact hle
  · rintro ⟨b, hle, hlt, hrefuses⟩
    exact ⟨b, by omega, hlt, hrefuses⟩

/-- The read is behind the last block. -/
theorem refusedFrom_end (hle : o + n ≤ block * c.image.blocksize) : ¬ c.RefusedFrom curr o n block := by
  rintro ⟨b, hb, hlt, -⟩
  have hmul := Nat.mul_le_mul_right c.image.blocksize hb
  omega

theorem refusedFrom_congr (h : c'.image.layout = c.image.layout) :
    c'.RefusedFrom curr o n block ↔ c.RefusedFrom curr o n block := by
  have hsize : c'.image.blocksize = c.image.blocksize := congrArg Layout.blocksize h
  rw [RefusedFrom, RefusedFrom, h, hsize]

/-- How a read ends: it has all bytes, or a block was refused. -/
def Ends (c : Reading) (curr o n block toread m : Nat) (out : Outcome Unit) : Prop :=
  out = .value () ∧ m = toread ∧ ¬ c.RefusedFrom curr o n block ∨ out = .failed ∧ c.RefusedFrom curr o n block

/-- The loop over the blocks reads what the chain has there, up to a block that is
refused. -/
theorem readBlocks_contents (ha : Answers parentRead fuel) (hp : Serves parentRead) (hs : c.Sound) (hsync : c.Synced)
    (ho : o < c.image.dstsize) (hat : c.AtBlock curr o n block off toread) (hstart : firstr = true ∨ off % sector_size = 0)
    (hsize : ∀ v ∈ c.layouts, o + n ≤ v.dstsize) {out : Outcome Unit}
    (h : readBlocks ReadIo.ok parentRead n rounds c block off toread firstr = some (out, c')) :
    c'.Synced ∧ ∃ m, c'.read = c.read + m ∧ c'.buffer = overwrite 0 c.buffer c.read (contents c.layouts c.image.curr_offset m) ∧
      c.Ends curr o n block toread m out := by
  induction rounds generalizing c block off toread firstr with
  | zero => cases h
  | succ rounds ih =>
    have hoffset := hat.offset
    have hbehind := hat.behind
    have htodo := hat.todo
    have hlength := hat.length
    have hin := hat.inBlock
    have hmod := hat.mod
    have hdst : o + n ≤ c.image.dstsize := hsize c.image.layout (by simp [layouts])
    have hsucc := Nat.add_one_mul block c.image.blocksize
    have hnext : ∀ {r : Reading} {m : Nat} {first : Bool}, c.Keeps r → r.Synced → r.AtBlock curr o n (block + 1) 0 (toread - m) →
        ¬ c.image.layout.Refuses curr o n block → r.read = c.read + m → r.image.curr_offset = c.image.curr_offset + m → m ≤ toread →
        r.buffer = overwrite 0 c.buffer c.read (contents c.layouts c.image.curr_offset m) →
        readBlocks ReadIo.ok parentRead n rounds r (block + 1) 0 (toread - m) first = some (out, c') →
        c'.Synced ∧ ∃ m, c'.read = c.read + m ∧
          c'.buffer = overwrite 0 c.buffer c.read (contents c.layouts c.image.curr_offset m) ∧ c.Ends curr o n block toread m out := by
      intro r m first hkeeps hsync' hat' hrefuses hread hoffset' hm hbuffer h
      have hdst' : r.image.dstsize = c.image.dstsize := congrArg Layout.dstsize hkeeps.layout
      obtain ⟨hsync'', k, hread', hbuffer', hends⟩ :=
        ih hkeeps.sound hsync' (by rwa [hdst']) hat' (Or.inr rfl) (by rwa [hkeeps.layouts]) h
      refine ⟨hsync'', m + k, by omega, ?_, ?_⟩
      · have hsplit := overwrite_overwrite 0 c.buffer (contents c.layouts c.image.curr_offset m)
          (contents c.layouts (c.image.curr_offset + m) k) c.read
        rw [length_contents, ← contents_add] at hsplit
        rw [hbuffer', hbuffer, hread, hoffset', hkeeps.layouts, hsplit]
      · rw [Ends, refusedFrom_congr hkeeps.layout, ← refusedFrom_succ hrefuses] at hends
        obtain ⟨hout, hk, hno⟩ | hfailed := hends
        · exact Or.inl ⟨hout, by omega, hno⟩
        · exact Or.inr hfailed
    obtain ⟨hlen, hget⟩ | hfree | ⟨bat_off, hget, hne, hplace⟩ := c.image.layout.entry_cases block
    · exfalso
      have hcovers : c.image.dstsize ≤ c.image.bat.length * c.image.blocksize := hs.covers.covers
      have hmul : c.image.bat.length * c.image.blocksize ≤ block * c.image.blocksize := Nat.mul_le_mul_right _ hlen
      obtain hstart | ⟨-, -, hpos⟩ := hat.start <;> omega
    · have hblock : block < c.image.bat.length := hfree.lt
      have hx : c.image.curr_offset < 2 ^ 64 := hs.covers.lt (by change _ / c.image.blocksize < _; rwa [hat.div])
      have hrefuses : ¬ c.image.layout.Refuses curr o n block := by
        rintro ⟨d, hplace, -⟩
        exact not_free hplace hfree
      have hnone : c.image.layout.place (c.image.curr_offset / c.image.layout.blocksize) = none := by
        change c.image.layout.place (c.image.curr_offset / c.image.blocksize) = none
        rw [hat.div]
        exact hfree.place
      rw [readBlocks_free hfree] at h
      generalize hwant : min (c.image.blocksize - off) toread = want at h
      cases hparent : c.readParent parentRead want with
      | none =>
        rw [hparent] at h
        cases h
      | some answer =>
        obtain ⟨result, r⟩ := answer
        obtain ⟨m, hm, hkeeps, himage, hread, -⟩ := readParent_value ha hs hx (by omega) (by omega) hparent
        obtain ⟨rfl, hsync', hbuffer⟩ := readParent_contents ha hp hs hsync hx (by omega) (by omega)
          (fun v hv => by have := hsize v (List.mem_cons_of_mem _ hv); omega) hparent
        cases hm
        have hfrom : contents c.layouts c.image.curr_offset want =
            contents (c.parents.map VHDFile.layout) c.image.curr_offset want :=
          contents_free hnone (show c.image.curr_offset % c.image.blocksize + want ≤ c.image.blocksize by omega)
        rw [← hfrom] at hbuffer
        have hread' : (r.skip want).read = c.read + want := by rw [skip, hread]
        have hoffset' : (r.skip want).image.curr_offset = c.image.curr_offset + want := by rw [skip, himage]
        have hskipped : (r.skip want).Synced := hsync'.keep ((hsync' _ List.mem_cons_self).of_eq rfl rfl rfl rfl) rfl
        have hkeeps' := hkeeps.skip want
        rw [hparent] at h
        dsimp only at h
        by_cases hend : toread - want = 0
        · rw [if_pos hend] at h
          cases h
          refine ⟨hskipped, want, hread', hbuffer, Or.inl ⟨rfl, by omega, ?_⟩⟩
          rw [refusedFrom_succ hrefuses]
          exact refusedFrom_end (by omega)
        · rw [if_neg hend] at h
          have hcurr : (r.skip want).image.currblock = c.image.currblock := by
            change r.image.currblock = _
            rw [himage]
          exact hnext hkeeps' hskipped (hat.next hkeeps' hblock (by omega) hread' hoffset' (by omega)
            (hfree.not_stops curr o n) (Or.inl ⟨hcurr, hfree⟩)) hrefuses hread' hoffset' (by omega) hbuffer h
    · have hblock : block < c.image.bat.length := place_lt hplace
      have hplaced : (c.image.layout.place block).isSome := by
        rw [hplace]
        rfl
      obtain ⟨t, hkeeps, hoff, hopened⟩ := hat.open_cases hs hplace
      have hsynct : t.Synced := by
        have hopen := (hsync _ List.mem_cons_self).openToRead ReadIo.ok block (bat_off * sector_size) off n
        obtain ⟨-, ht⟩ | ⟨-, -, ht⟩ := hopened
        · rwa [ht] at hopen
        · rwa [ht] at hopen
      obtain ⟨hrefuses, hopen⟩ | ⟨hrefuses, hcurr, hopen⟩ := hopened
      · rw [readBlocks_refused hget hne hopen] at h
        cases h
        refine ⟨hsync.keep hsynct rfl, 0, rfl, rfl, Or.inr ⟨rfl, block, le_refl _, ?_, hrefuses⟩⟩
        by_contra hnot
        obtain ⟨rfl, rfl⟩ : toread = 0 ∧ n = 0 := by
          obtain hstart | ⟨-, -, hpos⟩ := hat.start <;> omega
        exact hat.not_refuses hs (by omega) hrefuses
      rw [readBlocks_opened hget hne hopen] at h
      obtain ⟨r, hr, hkeepsr, hatr, hcurrr, hoffr, hdivr, hmodr, hreadr⟩ := hat.atSector hplace hkeeps hoff hcurr
      have hsyncr : r.Synced := by
        rw [hr]
        exact hsync.keep (hsynct.of_eq rfl rfl rfl rfl) rfl
      have hbufferr : r.buffer = c.buffer := by rw [hr]
      rw [← hr, ← hmodr] at h
      have hsizer : r.image.blocksize = c.image.blocksize := congrArg Layout.blocksize hkeepsr.layout
      have hlengthr := hkeepsr.length
      cases hsectors : readSectors ReadIo.ok parentRead (bat_off * sector_size) rounds r
          (r.image.curr_offset % r.image.blocksize) toread firstr with
      | none =>
        rw [hsectors] at h
        cases h
      | some answer =>
        obtain ⟨l, r'⟩ := answer
        obtain ⟨m, hm, hkeeps', hcurr', hread', hoffset', hin', hrest, -⟩ :=
          readSectors_some ha hkeepsr.sound hatr (by omega) hsectors
        have hsizes : ∀ v ∈ r.layouts, r.image.curr_offset + toread ≤ v.dstsize := by
          rw [hkeepsr.layouts, hoffr, hbehind]
          exact hsize
        obtain ⟨left, rfl, hsync', hbuffer⟩ :=
          readSectors_contents ha hp hkeepsr.sound hsyncr hatr (by omega) (by rwa [hmodr]) hsizes hsectors
        obtain ⟨rfl, hor⟩ := hrest left rfl
        rw [hmodr, hsizer] at hin' hor
        rw [hreadr] at hread' hbuffer
        rw [hoffr] at hoffset' hbuffer
        rw [hbufferr, hkeepsr.layouts, show toread - (toread - m) = m by omega] at hbuffer
        have hkeeps'' := hkeepsr.trans hkeeps'
        have hdst' : r'.image.dstsize = c.image.dstsize := congrArg Layout.dstsize hkeeps''.layout
        rw [hsectors] at h
        dsimp only at h
        by_cases hmore : toread - m = 0
        · rw [if_pos hmore] at h
          cases h
          refine ⟨hsync', m, hread', hbuffer, Or.inl ⟨rfl, by omega, ?_⟩⟩
          rw [refusedFrom_succ hrefuses]
          exact refusedFrom_end (by omega)
        · have hfull : off + m = c.image.blocksize := hor.resolve_left hmore
          have hnot : ¬ c.image.layout.Stops curr o n block := by
            rw [Stops, or_iff_right hrefuses, and_iff_right hplaced]
            change ¬ c.image.dstsize ≤ (block + 1) * c.image.blocksize
            omega
          rw [if_neg hmore, if_neg (by omega)] at h
          exact hnext hkeeps'' hsync' (hat.next hkeeps'' hblock hfull hread' hoffset' (by omega) hnot
            (Or.inr ⟨hcurr'.trans hcurrr, not_free hplace⟩)) hrefuses hread' hoffset' hm hbuffer h

/-- A whole buffer is written. -/
theorem overwrite_all {xs ys : Bytes} (h : ys.length = xs.length) : overwrite 0 xs 0 ys = ys := by
  have hslice := slice_overwrite_self 0 xs ys 0
  rw [slice, List.drop_zero, h, ← length_overwrite 0 (show 0 + ys.length ≤ xs.length by omega), List.take_length] at hslice
  exact hslice

/-- What a read returns. -/
theorem Read_ends (hp : Serves (Read ReadIo.ok fuel)) (hs : c.Sound) (hsync : c.Synced) (hx : c.image.curr_offset < c.image.dstsize)
    (hsize : ∀ v ∈ c.layouts, c.image.curr_offset + c.buffer.length ≤ v.dstsize) {out : Outcome Unit}
    (h : Read ReadIo.ok (fuel + 1) c = some (out, c')) :
    c'.Synced ∧ c'.buffer = overwrite 0 c.buffer 0 (contents c.layouts c.image.curr_offset c'.read) ∧
      c.Ends c.image.currblock c.image.curr_offset c.buffer.length (c.image.curr_offset / c.image.blocksize) c.buffer.length
        c'.read out := by
  have hs0 : ({ c with read := 0 } : Reading).Sound := ⟨hs.loaded, hs.stacked⟩
  rw [Read_eq hs hx] at h
  obtain ⟨hsync', m, hread, hbuffer, hends⟩ :=
    readBlocks_contents (answers_Read fuel) hp hs0 hsync hx (atBlock_start hs hx) (Or.inl rfl) hsize h
  rw [show c'.read = m from hread.trans (Nat.zero_add m)]
  exact ⟨hsync', hbuffer, hends⟩

/-- No read in one block is refused. -/
theorem not_refused_within (hs : c.Sound) (hx : c.image.curr_offset < c.image.dstsize) (hin : c.Within) :
    ¬ c.RefusedFrom c.image.currblock c.image.curr_offset c.buffer.length (c.image.curr_offset / c.image.blocksize) := by
  have hs0 : ({ c with read := 0 } : Reading).Sound := ⟨hs.loaded, hs.stacked⟩
  have hnot : ¬ c.image.layout.Refuses c.image.currblock c.image.curr_offset c.buffer.length
      (c.image.curr_offset / c.image.blocksize) := (atBlock_start hs hx).not_refuses hs0 hin
  have hsplit := Nat.div_add_mod' c.image.curr_offset c.image.blocksize
  have hsucc := Nat.add_one_mul (c.image.curr_offset / c.image.blocksize) c.image.blocksize
  unfold Within at hin
  rw [refusedFrom_succ hnot]
  exact refusedFrom_end (by omega)

/-- Every image of a chain serves its child. -/
theorem serves_Read (fuel : Nat) : Serves (Read ReadIo.ok fuel) := by
  induction fuel with
  | zero =>
    intro c out c' _ _ _ _ h
    cases h
  | succ fuel ih =>
    intro c out c' hs hsync hin hsize h
    have hdst : c.image.curr_offset + c.buffer.length ≤ c.image.dstsize := hsize c.image.layout (by simp [layouts])
    obtain hx | hx := Nat.lt_or_ge c.image.curr_offset c.image.dstsize
    · obtain ⟨hsync', hbuffer, ⟨-, hread, -⟩ | ⟨-, hrefused⟩⟩ := Read_ends ih hs hsync hx hsize h
      · rw [hread] at hbuffer
        exact ⟨hsync', hread, hbuffer.trans (overwrite_all (length_contents ..))⟩
      · exact absurd hrefused (not_refused_within hs hx hin)
    · have hnil : c.buffer = [] := by
        rw [← List.length_eq_zero_iff]
        omega
      rw [Read_behind hx] at h
      cases h
      refine ⟨hsync, ?_, ?_⟩
      · change 0 = c.buffer.length
        rw [hnil]
        rfl
      · change c.buffer = _
        rw [hnil]
        rfl

/-- Reads at some places, each into a buffer of its own. The results come with what
is then in the buffers. -/
def readAll (fuel : Nat) : (c : Reading) → List (Nat × Bytes) → Option (List (Outcome Unit × Bytes) × Reading)
  | c, [] => some ([], c)
  | c, (x, buffer) :: requests =>
    match Read ReadIo.ok fuel { c with image := c.image.Seek x, buffer, read := 0 } with
    | none => none
    | some (out, r) =>
      match readAll fuel r requests with
      | none => none
      | some (results, c') => some ((out, r.buffer) :: results, c')

/-- A read returns what the chain has. Where it is refused, the bytes before the block
that it does not open are there. -/
def Delivered (disk : Nat → UInt8) (blocksize : Nat) (request : Nat × Bytes) (result : Outcome Unit × Bytes) : Prop :=
  result = (.value (), (List.range' request.1 request.2.length).map disk) ∨
    result.1 = .failed ∧ blocksize < request.1 % blocksize + request.2.length ∧
      ∃ m, result.2 = overwrite 0 request.2 0 ((List.range' request.1 m).map disk)

/-- Whatever was read before, in any order, a read in one block returns the bytes of
the newest images that have them, and zeros where none does. A larger one does so, too,
or it is refused. -/
theorem readAll_delivered (requests : List (Nat × Bytes)) (hs : c.Sound) (hsync : c.Synced)
    (hin : ∀ r ∈ requests, r.1 < c.image.dstsize ∧ ∀ v ∈ c.layouts, r.1 + r.2.length ≤ v.dstsize)
    (hfuel : ∀ r ∈ requests, r.2.length + 3 * c.parents.length + 4 ≤ fuel) :
    ∃ results c', readAll fuel c requests = some (results, c') ∧
      List.Forall₂ (Delivered (byteAt c.layouts) c.image.blocksize) requests results := by
  induction requests generalizing c with
  | nil => exact ⟨[], c, rfl, .nil⟩
  | cons request requests ih =>
    obtain ⟨x, buffer⟩ := request
    obtain ⟨hx, hsize⟩ := hin _ List.mem_cons_self
    have hfuel' := hfuel _ List.mem_cons_self
    dsimp only at hx hsize hfuel'
    obtain ⟨fuel, rfl⟩ : ∃ k, fuel = k + 1 := ⟨fuel - 1, by omega⟩
    obtain ⟨a, hstart⟩ : ∃ a : Reading, { c with image := c.image.Seek x, buffer, read := 0 } = a := ⟨_, rfl⟩
    have hlayouts : a.layouts = c.layouts := by
      rw [← hstart]
      rfl
    have hsa : a.Sound := by
      refine ⟨?_, hlayouts ▸ hs.stacked⟩
      intro s hmem
      rw [← hstart] at hmem
      rcases List.mem_cons.mp hmem with rfl | hmem
      · exact hs.image.of_eq rfl rfl rfl rfl
      · exact hs.loaded s (List.mem_cons_of_mem _ hmem)
    have hsynca : a.Synced := by
      rw [← hstart]
      exact hsync.keep ((hsync _ List.mem_cons_self).of_eq rfl rfl rfl rfl) rfl
    have hbuffer : a.buffer = buffer := by rw [← hstart]
    have hparents : a.parents = c.parents := by rw [← hstart]
    have hblocksize : a.image.blocksize = c.image.blocksize := by
      rw [← hstart]
      rfl
    have hdstsize : a.image.dstsize = c.image.dstsize := by
      rw [← hstart]
      rfl
    have hoffset : a.image.curr_offset = x := by
      have hcovers : c.image.dstsize ≤ c.image.bat.length * c.image.blocksize := hs.covers.covers
      have hlt := hs.covers.lt (show x / c.image.blocksize < c.image.bat.length by
        rw [Nat.div_lt_iff_lt_mul hs.pos]
        omega)
      rw [← hstart]
      exact (show ((x : Int) % 2 ^ 64).toNat = x by omega)
    have hxa : a.image.curr_offset < a.image.dstsize := by rwa [hoffset, hdstsize]
    have hsizea : ∀ v ∈ a.layouts, a.image.curr_offset + a.buffer.length ≤ v.dstsize := by
      rwa [hlayouts, hoffset, hbuffer]
    have hends : Read ReadIo.ok (fuel + 1) a ≠ none := by
      apply Read_ne_none hsa hxa (answers_Read fuel)
      · rw [hbuffer, hparents]
        omega
      · intro y hle hlt _ _ _
        apply not_hangs
        intro v hv
        have := hsizea v hv
        constructor <;> omega
    obtain ⟨⟨out, r⟩, hread⟩ := Option.ne_none_iff_exists'.mp hends
    obtain ⟨hkeeps, -⟩ := Read_some hsa hxa (answers_Read fuel) hread
    obtain ⟨hsyncr, hbytes, hor⟩ := Read_ends (serves_Read fuel) hsa hsynca hxa hsizea hread
    have hlayoutsr : r.layouts = c.layouts := hkeeps.layouts.trans hlayouts
    have hblocksizer : r.image.blocksize = c.image.blocksize :=
      (congrArg Layout.blocksize hkeeps.layout).trans hblocksize
    have hdstsizer : r.image.dstsize = c.image.dstsize := (congrArg Layout.dstsize hkeeps.layout).trans hdstsize
    have hparentsr : r.parents.length = c.parents.length := by
      rw [← hparents]
      simpa using congrArg List.length hkeeps.parents
    obtain ⟨results, c', hrest, hall⟩ := ih hkeeps.sound hsyncr
      (by rw [hlayoutsr, hdstsizer]; exact fun r hr => hin r (List.mem_cons_of_mem _ hr))
      (by rw [hparentsr]; exact fun r hr => hfuel r (List.mem_cons_of_mem _ hr))
    rw [hlayoutsr, hblocksizer] at hall
    refine ⟨(out, r.buffer) :: results, c', ?_, .cons ?_ hall⟩
    · rw [readAll, hstart, hread]
      dsimp only
      rw [hrest]
    · rw [hlayouts, hoffset, hbuffer] at hbytes
      obtain ⟨rfl, hdone, -⟩ | ⟨rfl, hrefused⟩ := hor
      · left
        rw [hbytes, hdone, hbuffer, overwrite_all (length_contents ..)]
        rfl
      · right
        refine ⟨rfl, ?_, _, hbytes⟩
        by_contra hle
        apply not_refused_within hsa hxa _ hrefused
        rw [Within, hoffset, hblocksize, hbuffer]
        exact Nat.le_of_not_lt hle

end Reading

end urbackup.vhdfile
