import UrBackup.Vhd.Read
import UrBackup.Vhd.Space

namespace urbackup.vhdfile

open stringtools filedata

/-- Nothing fails. -/
def ReadIo.ok : ReadIo where
  toIo := VHDFile.Io.ok
  read := fun _ => none

namespace Layout

variable {v w : Layout} {vs : List Layout} {x n : Nat}

theorem step_congr (h : w.blocksize = v.blocksize) (x n : Nat) : w.step x n = v.step x n := by
  rw [step, step, h]

theorem step_le (v : Layout) (x n : Nat) : v.step x n ≤ n ∧ v.step x n ≤ v.again x n ∧ v.again x n ≤ n := by
  unfold step again
  omega

theorem step_pos (hpos : 0 < v.blocksize) (hn : 0 < n) : 0 < v.step x n := by
  have hmod := Nat.mod_lt x hpos
  have hsector := Nat.mod_lt (x % v.blocksize) Space.sector_pos
  unfold step
  omega

theorem step_step (v : Layout) (x n : Nat) : v.step x (v.step x n) = v.step x n := by
  unfold step
  omega

theorem step_again (v : Layout) (x n : Nat) : v.step x (v.again x n) = v.step x n := by
  unfold step again
  omega

/-- A step at the start of a sector is the whole one at once. -/
theorem again_eq_step (h : x % v.blocksize % sector_size = 0) (n : Nat) : v.again x n = v.step x n := by
  rw [step, again, h, Nat.sub_zero]

theorem step_min (v : Layout) (x n : Nat) : v.step x (min n (v.blocksize - x % v.blocksize)) = v.step x n := by
  unfold step
  omega

theorem Stacked.tail (h : Stacked (v :: vs)) : Stacked vs where
  covers := fun w hw => h.covers w (List.mem_cons_of_mem v hw)
  chain := h.chain.of_cons

theorem Stacked.next (h : Stacked (v :: w :: vs)) : w.blocksize = v.blocksize ∧ w.dstsize ≤ v.dstsize :=
  h.chain.rel

/-- A step that hangs is inside of the image. -/
theorem hangs_le {vs : List Layout} (h : Stacked (v :: vs)) (hhang : Hangs (v :: vs) x n) : x + v.step x n ≤ v.dstsize := by
  induction vs generalizing v n with
  | nil =>
    rw [Hangs] at hhang
    rcases hhang with ⟨-, hhang⟩ | ⟨-, ⟨-, hsilent⟩ | hhang⟩
    · exact absurd hhang id
    · exact absurd hsilent id
    · exact absurd hhang id
  | cons w vs ih =>
    have hnext := h.next
    rw [Hangs] at hhang
    rcases hhang with ⟨-, hhang⟩ | ⟨-, ⟨hle, -⟩ | hhang⟩
    · have hle := ih h.tail hhang
      rw [step_congr hnext.1, step_min] at hle
      exact le_trans hle hnext.2
    · have hstep := step_le v x n
      omega
    · have hle := ih h.tail hhang
      rw [step_congr hnext.1, step_step] at hle
      exact le_trans hle hnext.2

theorem place_lt {block d : Nat} (h : v.place block = some d) : block < v.bat.length := by
  by_contra hlen
  rw [place, List.getElem?_eq_none (by omega)] at h
  cases h

theorem Free.lt {block : Nat} (h : v.Free block) : block < v.bat.length :=
  (List.getElem?_eq_some_iff.mp h).1

theorem Free.place {block : Nat} (h : v.Free block) : v.place block = none := by
  rw [Layout.place, h]
  rfl

/-- The table has numbers of 32 bits. -/
theorem Covers.lt (h : v.Covers) (hblock : x / v.blocksize < v.bat.length) : x < 2 ^ 64 := by
  have hx := (Nat.div_lt_iff_lt_mul h.pos).mp hblock
  have hmul : v.bat.length * v.blocksize ≤ 2 ^ 32 * 2 ^ 32 := Nat.mul_le_mul h.few h.small.le
  omega

end Layout

open Layout

namespace VHDFile

variable {s : VHDFile}

theorem wantBytes_first {offset : Nat} (h : offset < s.blocksize) (n : Nat) :
    s.wantBytes offset n true = min n (min (s.blocksize - offset) (sector_size - offset % sector_size)) := by
  have hsector := Nat.mod_lt offset Space.sector_pos
  have hpos := Space.sector_pos
  unfold wantBytes
  dsimp only
  simp only [true_and]
  split <;> split <;> omega

theorem wantBytes_next {offset : Nat} (h : offset < s.blocksize) (n : Nat) :
    s.wantBytes offset n false = min n (min (s.blocksize - offset) sector_size) := by
  unfold wantBytes
  dsimp only
  rw [if_neg (by simp)]
  split <;> omega

theorem fileReadError_ok (n : Nat) : s.fileReadError ReadIo.ok n =
    (slice s.file s.filepos n, false,
      { s with filepos := s.filepos + (slice s.file s.filepos n).length, ops := s.ops + 1 }) :=
  rfl

/-- A step is the first one at its place or another one. -/
theorem wantBytes_cases {x offset : Nat} (hx : x % s.blocksize = offset) (hpos : 0 < s.blocksize) (n : Nat) (firstr : Bool) :
    s.wantBytes offset n firstr = if firstr then s.layout.step x n else s.layout.again x n := by
  have hlt : offset < s.blocksize := hx ▸ Nat.mod_lt x hpos
  cases firstr with
  | true => rw [wantBytes_first hlt, if_pos rfl, ← hx]; rfl
  | false => rw [wantBytes_next hlt, if_neg Bool.false_ne_true, ← hx]; rfl

theorem Loaded.of_eq {t : VHDFile} (h : s.Loaded) (hlayout : t.layout = s.layout) (hbitmap : t.bitmap = s.bitmap)
    (hfile : t.file = s.file) (hcurr : t.currblock = s.currblock) : t.Loaded := by
  have hsize : t.bitmap_size = s.bitmap_size := congrArg Layout.bitmap_size hlayout
  have hblocksize : t.blocksize = s.blocksize := congrArg Layout.blocksize hlayout
  constructor
  · rw [hbitmap, hsize]
    exact h.bitmap
  · rw [hlayout, hsize, hblocksize, hfile]
    exact h.inFile
  · rw [hlayout, hcurr, hbitmap, hsize]
    exact h.current

end VHDFile

namespace Reading

variable {parentRead : Reading → Option (Outcome Unit × Reading)} {fuel : Nat} {c c' : Reading}

/-- The bytes that are asked for are in one block. -/
def Within (c : Reading) : Prop :=
  c.image.curr_offset % c.image.blocksize + c.buffer.length ≤ c.image.blocksize

/-- A read of some bytes hangs at one of its steps. -/
def HangsIn (vs : List Layout) (v : Layout) (x n : Nat) : Prop :=
  ∃ y, x ≤ y ∧ y < x + n ∧ v.StartsStep x y ∧ Hangs vs y (x + n - y)

/-- How the reads in one block of a parent answer. The last one says how long they
take. -/
structure Answers (parentRead : Reading → Option (Outcome Unit × Reading)) (fuel : Nat) : Prop where
  answer : ∀ {c out c'}, c.Sound → c.Within → parentRead c = some (out, c') →
    out ≠ .outOfRange ∧ c.Keeps c' ∧ c'.read ≤ c.buffer.length ∧
    (Silent c.layouts c.image.curr_offset (c.image.layout.step c.image.curr_offset c.buffer.length) → c'.read = 0) ∧
    (c.buffer.length = c.image.layout.step c.image.curr_offset c.buffer.length →
      ¬ Silent c.layouts c.image.curr_offset c.buffer.length → c'.read = c.buffer.length)
  hangs : ∀ {c}, c.Sound → c.Within → HangsIn c.layouts c.image.layout c.image.curr_offset c.buffer.length → parentRead c = none
  returns : ∀ {c}, c.Sound → c.Within → c.buffer.length + 3 * c.parents.length + 4 ≤ fuel →
    ¬ HangsIn c.layouts c.image.layout c.image.curr_offset c.buffer.length → parentRead c ≠ none

theorem Sound.covers (h : c.Sound) : c.image.layout.Covers :=
  h.stacked.covers _ (by simp [layouts])

theorem Sound.pos (h : c.Sound) : 0 < c.image.blocksize :=
  h.covers.pos

theorem Sound.image (h : c.Sound) : c.image.Loaded :=
  h.loaded _ (by simp)

/-- The image moves on and its bitmap stays. -/
theorem Sound.keeps (h : c.Sound) (hlayout : c'.image.layout = c.image.layout) (himage : c'.image.Loaded)
    (hparents : c'.parents = c.parents) (hlength : c'.buffer.length = c.buffer.length) : c.Keeps c' := by
  have hlayouts : c'.layouts = c.layouts := by
    simp only [layouts, List.map_cons, hlayout, hparents]
  refine ⟨hlayouts, ⟨?_, hlayouts ▸ h.stacked⟩, hlength⟩
  intro s hs
  rw [hparents] at hs
  rcases List.mem_cons.mp hs with rfl | hs
  · exact himage
  · exact h.loaded _ (List.mem_cons_of_mem _ hs)

theorem length_put (bytes : Bytes) (h : c.read + bytes.length ≤ c.buffer.length) :
    (c.put bytes).buffer.length = c.buffer.length :=
  length_overwrite 0 h

section Parent

variable {p : VHDFile} {ps : List VHDFile} {want : Nat}

theorem Sound.handOn (h : c.Sound) (hparents : c.parents = p :: ps) (want : Nat) : (c.handOn want p ps).Sound where
  loaded := by
    intro s hs
    rcases List.mem_cons.mp hs with rfl | hs
    · exact (h.loaded p (by simp [hparents])).of_eq rfl rfl rfl rfl
    · exact h.loaded s (by simp [hparents, show s ∈ ps from hs])
  stacked := by
    have hstacked := h.stacked
    rw [layouts, hparents, List.map_cons] at hstacked
    exact hstacked.tail

theorem handOn_layouts (hparents : c.parents = p :: ps) (want : Nat) :
    (c.handOn want p ps).layouts = c.parents.map VHDFile.layout := by
  rw [hparents]
  rfl

theorem handOn_offset (hx : c.image.curr_offset < 2 ^ 64) (want : Nat) :
    (c.handOn want p ps).image.curr_offset = c.image.curr_offset := by
  have hmod : ((c.image.curr_offset : Int) % 2 ^ 64).toNat = c.image.curr_offset := by omega
  exact hmod

theorem handOn_length (hroom : c.read + want ≤ c.buffer.length) : (c.handOn want p ps).buffer.length = want := by
  simp only [handOn, length_slice]
  omega

theorem Sound.handOn_blocksize (h : c.Sound) (hparents : c.parents = p :: ps) (want : Nat) :
    (c.handOn want p ps).image.layout.blocksize = c.image.layout.blocksize := by
  have hstacked := h.stacked
  rw [layouts, hparents, List.map_cons] at hstacked
  exact hstacked.next.1

theorem Sound.handOn_within (h : c.Sound) (hparents : c.parents = p :: ps) (hx : c.image.curr_offset < 2 ^ 64)
    (hroom : c.read + want ≤ c.buffer.length) (hin : c.image.curr_offset % c.image.blocksize + want ≤ c.image.blocksize) :
    (c.handOn want p ps).Within := by
  have hsize : (c.handOn want p ps).image.blocksize = c.image.blocksize := h.handOn_blocksize hparents want
  rw [Within, handOn_offset hx, handOn_length hroom, hsize]
  exact hin

variable (ha : Answers parentRead fuel) (hs : c.Sound) (hx : c.image.curr_offset < 2 ^ 64)
  (hroom : c.read + want ≤ c.buffer.length) (hin : c.image.curr_offset % c.image.blocksize + want ≤ c.image.blocksize)

include ha hs hx hroom hin

/-- What the parents give is one step, where they have it. -/
theorem readParent_value {out : Outcome Nat} (h : c.readParent parentRead want = some (out, c')) :
    ∃ n, out = .value n ∧ c.Keeps c' ∧ c'.image = c.image ∧ c'.read = c.read ∧ n ≤ want ∧
      (Silent (c.parents.map VHDFile.layout) c.image.curr_offset (c.image.layout.step c.image.curr_offset want) → n = 0) ∧
      (want = c.image.layout.step c.image.curr_offset want →
        ¬ Silent (c.parents.map VHDFile.layout) c.image.curr_offset want → n = want) := by
  rw [readParent] at h
  cases hparents : c.parents with
  | nil =>
    rw [hparents] at h
    cases h
    refine ⟨want, rfl, ?_, rfl, rfl, le_refl _, fun hsilent => absurd hsilent id, fun _ _ => rfl⟩
    exact hs.keeps rfl hs.image rfl (length_put _ (by simpa using hroom))
  | cons p ps =>
    rw [hparents] at h
    dsimp only at h
    cases hread : parentRead (c.handOn want p ps) with
    | none =>
      rw [hread] at h
      cases h
    | some answer =>
      obtain ⟨result, r⟩ := answer
      obtain ⟨hresult, hkeeps, hle, hsilent, hfull⟩ :=
        ha.answer (hs.handOn hparents want) (hs.handOn_within hparents hx hroom hin) hread
      have hblocksize := hs.handOn_blocksize hparents want
      rw [handOn_layouts hparents, handOn_offset hx, handOn_length hroom, step_congr hblocksize] at hsilent hfull
      rw [handOn_length hroom] at hle
      have hlength := hkeeps.length
      rw [handOn_length hroom] at hlength
      have hcommon : c.Keeps { c.put r.buffer with parents := r.image :: r.parents } := by
        have hlayouts := hkeeps.layouts
        rw [handOn_layouts hparents] at hlayouts
        have hsame : ({ c.put r.buffer with parents := r.image :: r.parents } : Reading).layouts = c.layouts := by
          rw [layouts, List.map_cons]
          exact congrArg (List.cons _) hlayouts
        refine ⟨hsame, ⟨?_, hsame ▸ hs.stacked⟩, length_put _ (by rwa [hlength])⟩
        intro s hmem
        rcases List.mem_cons.mp hmem with rfl | hmem
        · exact hs.image
        · exact hkeeps.sound.loaded s hmem
      rw [← hparents]
      rw [hread] at h
      cases result with
      | outOfRange => exact absurd rfl hresult
      | value a =>
        cases h
        exact ⟨_, rfl, hcommon, rfl, rfl, hle, hsilent, hfull⟩
      | failed =>
        cases h
        exact ⟨_, rfl, hcommon, rfl, rfl, hle, hsilent, hfull⟩

theorem readParent_none (hhang : HangsIn (c.parents.map VHDFile.layout) c.image.layout c.image.curr_offset want) :
    c.readParent parentRead want = none := by
  rw [readParent]
  cases hparents : c.parents with
  | nil =>
    rw [hparents] at hhang
    obtain ⟨y, -, -, -, hhang⟩ := hhang
    exact absurd hhang id
  | cons p ps =>
    have hblocksize := hs.handOn_blocksize hparents want
    have hnone : parentRead (c.handOn want p ps) = none := by
      apply ha.hangs (hs.handOn hparents want) (hs.handOn_within hparents hx hroom hin)
      rw [handOn_layouts hparents, handOn_offset hx, handOn_length hroom]
      obtain ⟨y, hle, hlt, hstart, hhang⟩ := hhang
      refine ⟨y, hle, hlt, ?_, hhang⟩
      rw [StartsStep, hblocksize]
      exact hstart
    simp only [hnone]

theorem readParent_ne_none (hfuel : want + 3 * c.parents.length + 1 ≤ fuel)
    (hhang : ¬ HangsIn (c.parents.map VHDFile.layout) c.image.layout c.image.curr_offset want) :
    c.readParent parentRead want ≠ none := by
  rw [readParent]
  cases hparents : c.parents with
  | nil => exact Option.some_ne_none _
  | cons p ps =>
    have hblocksize := hs.handOn_blocksize hparents want
    have hsome : parentRead (c.handOn want p ps) ≠ none := by
      apply ha.returns (hs.handOn hparents want) (hs.handOn_within hparents hx hroom hin)
      · rw [hparents, List.length_cons] at hfuel
        rw [handOn_length hroom]
        change want + 3 * ps.length + 4 ≤ fuel
        omega
      · rw [handOn_layouts hparents, handOn_offset hx, handOn_length hroom]
        rintro ⟨y, hle, hlt, hstart, hhang'⟩
        refine hhang ⟨y, hle, hlt, ?_, hhang'⟩
        rw [StartsStep, hblocksize] at hstart
        exact hstart
    obtain ⟨⟨result, r⟩, hread⟩ := Option.ne_none_iff_exists'.mp hsome
    simp only [hread]
    cases result <;> exact Option.some_ne_none _

end Parent

end Reading

namespace Reading

variable {parentRead : Reading → Option (Outcome Unit × Reading)} {fuel : Nat} {c c' : Reading} {d want : Nat}

/-- The block of the position is allocated, its bitmap is the current one and the
file is at the position. -/
structure AtSector (c : Reading) (d : Nat) : Prop where
  place : c.image.layout.place (c.image.curr_offset / c.image.blocksize) = some d
  current : c.image.currblock = c.image.curr_offset / c.image.blocksize
  filepos : c.image.filepos = d + c.image.bitmap_size + c.image.curr_offset % c.image.blocksize

theorem AtSector.lt (h : c.AtSector d) (hs : c.Sound) : c.image.curr_offset < 2 ^ 64 :=
  hs.covers.lt (place_lt h.place)

theorem AtSector.lacks_iff (h : c.AtSector d) (hs : c.Sound) :
    c.image.layout.Lacks c.image.curr_offset ↔ c.image.isBitmapSet (c.image.curr_offset % c.image.blocksize) = false := by
  have hbitmap := hs.image.current d (by rw [h.current]; exact h.place)
  have hbit : c.image.isBitmapSet (c.image.curr_offset % c.image.blocksize) =
      bitSet (slice c.image.layout.file d c.image.bitmap_size) (c.image.curr_offset % c.image.blocksize) := by
    rw [← hbitmap]
    rfl
  rw [hbit]
  constructor
  · rintro ⟨d', hplace, hlacks⟩
    obtain rfl : d = d' := Option.some.inj (h.place.symm.trans hplace)
    exact hlacks
  · intro hlacks
    exact ⟨d, h.place, hlacks⟩

/-- The image after a step. -/
theorem AtSector.next (h : c.AtSector d) {n : Nat} (hin : c.image.curr_offset % c.image.blocksize + n < c.image.blocksize)
    (hlayout : c'.image.layout = c.image.layout) (hcurr : c'.image.currblock = c.image.currblock)
    (hoffset : c'.image.curr_offset = c.image.curr_offset) (hfilepos : c'.image.filepos = c.image.filepos + n) :
    (c'.skip n).AtSector d ∧ (c'.skip n).image.curr_offset / c.image.blocksize = c.image.curr_offset / c.image.blocksize ∧
      (c'.skip n).image.curr_offset % c.image.blocksize = c.image.curr_offset % c.image.blocksize + n := by
  have hsize : c'.image.blocksize = c.image.blocksize := congrArg Layout.blocksize hlayout
  have hbitmap : c'.image.bitmap_size = c.image.bitmap_size := congrArg Layout.bitmap_size hlayout
  have hpos : 0 < c.image.blocksize := by omega
  have hcurrent : (c'.skip n).image.curr_offset = c.image.curr_offset + n := by rw [skip, hoffset]
  have hsplit := Nat.div_add_mod c.image.curr_offset c.image.blocksize
  have hsum : c.image.curr_offset + n =
      (c.image.curr_offset % c.image.blocksize + n) + c.image.blocksize * (c.image.curr_offset / c.image.blocksize) := by omega
  have hdiv : (c.image.curr_offset + n) / c.image.blocksize = c.image.curr_offset / c.image.blocksize := by
    rw [hsum, Nat.add_mul_div_left _ _ hpos, Nat.div_eq_of_lt hin, Nat.zero_add]
  have hmod : (c.image.curr_offset + n) % c.image.blocksize = c.image.curr_offset % c.image.blocksize + n := by
    rw [hsum, Nat.add_mul_mod_self_left, Nat.mod_eq_of_lt hin]
  refine ⟨⟨?_, ?_, ?_⟩, by rw [hcurrent, hdiv], by rw [hcurrent, hmod]⟩
  · rw [hcurrent]
    change c'.image.layout.place ((c.image.curr_offset + n) / c'.image.blocksize) = some d
    rw [hlayout, hsize, hdiv]
    exact h.place
  · rw [hcurrent]
    change c'.image.currblock = (c.image.curr_offset + n) / c'.image.blocksize
    rw [hcurr, hsize, hdiv, h.current]
  · rw [hcurrent]
    change c'.image.filepos = d + c'.image.bitmap_size + (c.image.curr_offset + n) % c'.image.blocksize
    rw [hfilepos, hsize, hbitmap, hmod, h.filepos]
    omega

/-- A step in an allocated block. -/
theorem readSector_value (ha : Answers parentRead fuel) (hs : c.Sound) (hat : c.AtSector d)
    (hroom : c.read + want ≤ c.buffer.length) (hin : c.image.curr_offset % c.image.blocksize + want ≤ c.image.blocksize)
    {out : Outcome Nat}
    (h : c.readSector ReadIo.ok parentRead d (c.image.curr_offset % c.image.blocksize) want = some (out, c')) :
    ∃ n, out = .value n ∧ c.Keeps c' ∧ c'.image.currblock = c.image.currblock ∧
      c'.image.curr_offset = c.image.curr_offset ∧ c'.image.filepos = c.image.filepos + n ∧ c'.read = c.read ∧ n ≤ want ∧
      (c.image.layout.Lacks c.image.curr_offset →
        Silent (c.parents.map VHDFile.layout) c.image.curr_offset (c.image.layout.step c.image.curr_offset want) → n = 0) ∧
      (want = c.image.layout.step c.image.curr_offset want →
        (c.image.layout.Lacks c.image.curr_offset → ¬ Silent (c.parents.map VHDFile.layout) c.image.curr_offset want) →
        n = want) := by
  rw [hat.lacks_iff hs]
  rw [readSector] at h
  by_cases hbit : c.image.isBitmapSet (c.image.curr_offset % c.image.blocksize) = true
  · rw [if_pos hbit] at h
    have hfile := hs.image.inFile _ d hat.place
    have hbytes : (slice c.image.file c.image.filepos want).length = want := by
      rw [length_slice, hat.filepos]
      omega
    rw [VHDFile.fileReadError_ok] at h
    simp only [Bool.false_eq_true, and_false, if_false, Option.some.injEq, Prod.mk.injEq] at h
    obtain ⟨rfl, rfl⟩ := h
    rw [hbit]
    refine ⟨_, rfl, ?_, rfl, rfl, rfl, rfl, ?_, fun hlacks => absurd hlacks (by simp), ?_⟩
    · exact hs.keeps rfl (hs.image.of_eq rfl rfl rfl rfl) rfl (length_put _ (by rwa [hbytes]))
    · rw [hbytes]
    · intro _ _
      rw [hbytes]
  · rw [if_neg hbit] at h
    cases hread : c.readParent parentRead want with
    | none =>
      rw [hread] at h
      cases h
    | some answer =>
      obtain ⟨result, r⟩ := answer
      obtain ⟨n, rfl, hkeeps, himage, hdone, hle, hsilent, hfull⟩ := readParent_value ha hs (hat.lt hs) hroom hin hread
      rw [hread] at h
      cases h
      refine ⟨n, rfl, ?_, ?_, ?_, ?_, hdone, hle, fun _ => hsilent,
        fun hstep hlacks => hfull hstep (hlacks (by simpa using hbit))⟩
      · exact hkeeps.trans (hkeeps.sound.keeps rfl (hkeeps.sound.image.of_eq rfl rfl rfl rfl) rfl rfl)
      · change r.image.currblock = c.image.currblock
        rw [himage]
      · change r.image.curr_offset = c.image.curr_offset
        rw [himage]
      · change d + r.image.bitmap_size + c.image.curr_offset % c.image.blocksize + n = c.image.filepos + n
        rw [hat.filepos, himage]

end Reading

namespace Reading

variable {parentRead : Reading → Option (Outcome Unit × Reading)} {fuel : Nat} {c c' : Reading} {d want : Nat}

section Sector

variable (ha : Answers parentRead fuel) (hs : c.Sound) (hat : c.AtSector d) (hroom : c.read + want ≤ c.buffer.length)
  (hin : c.image.curr_offset % c.image.blocksize + want ≤ c.image.blocksize)

include ha hs hat hroom hin

theorem readSector_none
    (hlacks : c.image.layout.Lacks c.image.curr_offset)
    (hhang : HangsIn (c.parents.map VHDFile.layout) c.image.layout c.image.curr_offset want) :
    c.readSector ReadIo.ok parentRead d (c.image.curr_offset % c.image.blocksize) want = none := by
  rw [hat.lacks_iff hs] at hlacks
  rw [readSector, hlacks, if_neg Bool.false_ne_true, readParent_none ha hs (hat.lt hs) hroom hin hhang]

theorem readSector_ne_none
    (hfuel : want + 3 * c.parents.length + 1 ≤ fuel)
    (hhang : c.image.layout.Lacks c.image.curr_offset →
      ¬ HangsIn (c.parents.map VHDFile.layout) c.image.layout c.image.curr_offset want) :
    c.readSector ReadIo.ok parentRead d (c.image.curr_offset % c.image.blocksize) want ≠ none := by
  rw [hat.lacks_iff hs] at hhang
  rw [readSector]
  by_cases hbit : c.image.isBitmapSet (c.image.curr_offset % c.image.blocksize) = true
  · rw [if_pos hbit, VHDFile.fileReadError_ok]
    simp
  · rw [if_neg hbit]
    have hread := readParent_ne_none ha hs (hat.lt hs) hroom hin hfuel (hhang (by simpa using hbit))
    obtain ⟨⟨result, r⟩, hread⟩ := Option.ne_none_iff_exists'.mp hread
    rw [hread]
    cases result <;> exact Option.some_ne_none _

end Sector

theorem Keeps.skip (h : c.Keeps c') (n : Nat) : c.Keeps (c'.skip n) :=
  h.trans (h.sound.keeps rfl (h.sound.image.of_eq rfl rfl rfl rfl) rfl rfl)

/-- The bytes of a step are some of those to read, in the block. -/
theorem wantBytes_le (hs : c.Sound) (n : Nat) (firstr : Bool) :
    c.image.wantBytes (c.image.curr_offset % c.image.blocksize) n firstr ≤ n ∧
      c.image.curr_offset % c.image.blocksize +
        c.image.wantBytes (c.image.curr_offset % c.image.blocksize) n firstr ≤ c.image.blocksize := by
  have hmod := Nat.mod_lt c.image.curr_offset hs.pos
  have hsize : c.image.layout.blocksize = c.image.blocksize := rfl
  rw [VHDFile.wantBytes_cases rfl hs.pos]
  cases firstr <;> simp only [step, again, if_true, if_false, Bool.false_eq_true, hsize] <;> omega

/-- What the loop over the sectors does when it ends. -/
theorem readSectors_some (ha : Answers parentRead fuel) {rounds : Nat} {toread : Nat} {firstr : Bool} {l : Left}
    (hs : c.Sound) (hat : c.AtSector d) (hroom : c.read + toread ≤ c.buffer.length)
    (h : readSectors ReadIo.ok parentRead d rounds c (c.image.curr_offset % c.image.blocksize) toread firstr = some (l, c')) :
    ∃ m, m ≤ toread ∧ c.Keeps c' ∧ c'.image.currblock = c.image.currblock ∧ c'.read = c.read + m ∧
      c'.image.curr_offset = c.image.curr_offset + m ∧ c.image.curr_offset % c.image.blocksize + m ≤ c.image.blocksize ∧
      (∀ r, l = .rest r → r = toread - m ∧ (r = 0 ∨ c.image.curr_offset % c.image.blocksize + m = c.image.blocksize)) ∧
      ∀ out, l = .done out → out = .value () ∧ c.image.dstsize < c.image.curr_offset + toread ∧
        c.image.dstsize < (c.image.curr_offset / c.image.blocksize + 1) * c.image.blocksize := by
  induction rounds generalizing c toread firstr with
  | zero => cases h
  | succ rounds ih =>
    have hmod := Nat.mod_lt c.image.curr_offset hs.pos
    have hsplit := Nat.div_add_mod' c.image.curr_offset c.image.blocksize
    have hnext := Nat.add_one_mul (c.image.curr_offset / c.image.blocksize) c.image.blocksize
    obtain ⟨hle, hin⟩ := wantBytes_le hs toread firstr
    rw [readSectors, if_pos hmod] at h
    dsimp only at h
    obtain ⟨want, hwant⟩ : ∃ want, c.image.wantBytes (c.image.curr_offset % c.image.blocksize) toread firstr = want :=
      ⟨_, rfl⟩
    rw [hwant] at h hle hin
    split at h
    · cases h
      refine ⟨0, Nat.zero_le _, hs.keeps rfl hs.image rfl rfl, rfl, rfl, rfl, hmod.le, fun r hr => (by cases hr), ?_⟩
      rintro out hout
      cases hout
      refine ⟨rfl, ?_, ?_⟩ <;> omega
    · cases hsector : c.readSector ReadIo.ok parentRead d (c.image.curr_offset % c.image.blocksize) want with
      | none =>
        rw [hsector] at h
        cases h
      | some answer =>
        obtain ⟨result, r⟩ := answer
        obtain ⟨n, rfl, hkeeps, hcurr, hoffset, hfilepos, hread, hn, -, -⟩ :=
          readSector_value ha hs hat (by omega) hin hsector
        rw [hsector] at h
        dsimp only at h
        have hsize : (r.skip n).image.blocksize = c.image.blocksize := congrArg Layout.blocksize hkeeps.layout
        have hdst : (r.skip n).image.dstsize = c.image.dstsize := congrArg Layout.dstsize hkeeps.layout
        have hskip : (r.skip n).image.curr_offset = c.image.curr_offset + n := by rw [skip, hoffset]
        have hread' : (r.skip n).read = c.read + n := by rw [skip, hread]
        have hkeeps' := hkeeps.skip n
        rw [hsize] at h
        split at h
        · next hend =>
          cases h
          refine ⟨n, hn.trans hle, hkeeps', hcurr, hread', hskip, by omega, ?_, fun out hout => by cases hout⟩
          rintro k hk
          cases hk
          exact ⟨rfl, by omega⟩
        · next hend =>
          rw [not_or] at hend
          obtain ⟨hat', hdiv, hmod'⟩ := hat.next (by omega) hkeeps.layout hcurr hoffset hfilepos
          rw [← hmod', ← hsize] at h
          have hlength := hkeeps'.length
          obtain ⟨m, hm, hkeeps'', hcurr', hread'', hoffset', hin', hrest, hdone⟩ := ih hkeeps'.sound hat' (by omega) h
          rw [hsize] at hin' hrest hdone
          refine ⟨n + m, by omega, hkeeps'.trans hkeeps'', hcurr'.trans hcurr, by omega, by omega, by omega, ?_, ?_⟩
          · intro k hk
            obtain ⟨hk, hor⟩ := hrest k hk
            exact ⟨by omega, by omega⟩
          · intro out hout
            obtain ⟨hout, hlt, hlt'⟩ := hdone out hout
            rw [hdiv] at hlt'
            exact ⟨hout, by omega, by omega⟩

end Reading

namespace Reading

variable {parentRead : Reading → Option (Outcome Unit × Reading)} {fuel : Nat} {c c' : Reading} {d : Nat} {rounds toread : Nat}
  {firstr : Bool}

/-- A step that is in the image. -/
theorem readSectors_step {want : Nat} (hs : c.Sound)
    (hwant : c.image.wantBytes (c.image.curr_offset % c.image.blocksize) toread firstr = want)
    (hin : c.image.curr_offset + want ≤ c.image.dstsize) :
    readSectors ReadIo.ok parentRead d (rounds + 1) c (c.image.curr_offset % c.image.blocksize) toread firstr =
      match c.readSector ReadIo.ok parentRead d (c.image.curr_offset % c.image.blocksize) want with
      | none => none
      | some (.outOfRange, c) => some (.done .outOfRange, c)
      | some (.failed, c) => some (.done .failed, c)
      | some (.value n, r) =>
        if toread - n = 0 ∨ r.image.blocksize - (c.image.curr_offset % c.image.blocksize + n) = 0 then
          some (.rest (toread - n), r.skip n)
        else
          readSectors ReadIo.ok parentRead d rounds (r.skip n) (c.image.curr_offset % c.image.blocksize + n) (toread - n) false := by
  rw [readSectors, if_pos (Nat.mod_lt _ hs.pos)]
  dsimp only
  rw [hwant, if_neg (by omega)]
  rfl

/-- Where the parent has nothing, the loop stays. -/
theorem readSectors_stuck (ha : Answers parentRead fuel) (hs : c.Sound) (hat : c.AtSector d)
    (hroom : c.read + toread ≤ c.buffer.length) (hpos : 0 < toread)
    (hlacks : c.image.layout.Lacks c.image.curr_offset)
    (hsilent : Silent (c.parents.map VHDFile.layout) c.image.curr_offset (c.image.layout.step c.image.curr_offset toread))
    (hin : c.image.curr_offset + c.image.layout.again c.image.curr_offset toread ≤ c.image.dstsize) :
    readSectors ReadIo.ok parentRead d rounds c (c.image.curr_offset % c.image.blocksize) toread firstr = none := by
  induction rounds generalizing c firstr with
  | zero => rfl
  | succ rounds ih =>
    obtain ⟨hle, hblock⟩ := wantBytes_le hs toread firstr
    obtain ⟨want, hwant⟩ : ∃ want, c.image.wantBytes (c.image.curr_offset % c.image.blocksize) toread firstr = want :=
      ⟨_, rfl⟩
    rw [hwant] at hle hblock
    have hstep : c.image.layout.step c.image.curr_offset want = c.image.layout.step c.image.curr_offset toread ∧
        want ≤ c.image.layout.again c.image.curr_offset toread := by
      rw [← hwant, VHDFile.wantBytes_cases rfl hs.pos]
      cases firstr with
      | true => exact ⟨step_step .., (step_le ..).2.1⟩
      | false => exact ⟨step_again .., le_refl _⟩
    rw [readSectors_step hs hwant (by omega)]
    cases hsector : c.readSector ReadIo.ok parentRead d (c.image.curr_offset % c.image.blocksize) want with
    | none => rfl
    | some answer =>
      obtain ⟨result, r⟩ := answer
      obtain ⟨n, rfl, hkeeps, hcurr, hoffset, hfilepos, hread, hn, hzero, -⟩ :=
        readSector_value ha hs hat (by omega) hblock hsector
      obtain rfl := hzero hlacks (by rw [hstep.1]; exact hsilent)
      have hmod := Nat.mod_lt c.image.curr_offset hs.pos
      have hsize : r.image.blocksize = c.image.blocksize := congrArg Layout.blocksize hkeeps.layout
      have hdst : r.image.dstsize = c.image.dstsize := congrArg Layout.dstsize hkeeps.layout
      have hlength := hkeeps.length
      obtain ⟨hat', -, hmod'⟩ := hat.next (by simpa using hmod) hkeeps.layout hcurr hoffset hfilepos
      have hlayout : (r.skip 0).image.layout = c.image.layout := hkeeps.layout
      have hparents : (r.skip 0).parents.map VHDFile.layout = c.parents.map VHDFile.layout := hkeeps.parents
      have hskip : (r.skip 0).image.curr_offset = c.image.curr_offset := hoffset
      have hsize' : (r.skip 0).image.blocksize = c.image.blocksize := hsize
      have hcond : ¬ (toread - 0 = 0 ∨ r.image.blocksize - (c.image.curr_offset % c.image.blocksize + 0) = 0) := by
        rw [hsize]
        omega
      dsimp only
      rw [if_neg hcond, ← hmod', ← hsize']
      apply ih (hkeeps.skip 0).sound hat'
      · change r.read + toread ≤ r.buffer.length
        omega
      · rw [hlayout, hskip]
        exact hlacks
      · rw [hlayout, hparents, hskip]
        exact hsilent
      · rw [hlayout, hskip]
        change _ ≤ r.image.dstsize
        rw [hdst]
        exact hin

end Reading

namespace Layout

variable {v : Layout} {x y n : Nat}

/-- A step does not go over the start of another one in the same block. -/
theorem step_before (hsame : y / v.blocksize = x / v.blocksize) (hlt : x < y) (hy : y % v.blocksize % sector_size = 0) (n : Nat) :
    x + v.step x n ≤ y ∧ y % v.blocksize = x % v.blocksize + (y - x) := by
  have hx := Nat.div_add_mod' x v.blocksize
  have hy' := Nat.div_add_mod' y v.blocksize
  rw [hsame] at hy'
  unfold step sector_size at *
  omega

/-- Other steps at a position come as far as the next step at most. -/
theorem again_before (hsame : y / v.blocksize = x / v.blocksize) (hlt : x < y) (hy : y % v.blocksize % sector_size = 0)
    (hn : y < x + n) : x + v.again x n ≤ y + v.step y (x + n - y) := by
  have hmod := (step_before hsame hlt hy n).2
  unfold step again
  omega

/-- A step that ends before the sector does is the last one. -/
theorem step_aligned (hne : v.step x n < n) (hin : x % v.blocksize + v.step x n < v.blocksize) :
    (x % v.blocksize + v.step x n) % sector_size = 0 := by
  unfold step sector_size at *
  omega

end Layout

namespace Reading

variable {parentRead : Reading → Option (Outcome Unit × Reading)} {fuel : Nat} {c c' : Reading} {d : Nat} {rounds toread : Nat}
  {firstr : Bool}

/-- The first step, also where the read goes on at the start of a sector. -/
theorem wantBytes_step (hs : c.Sound) (hstart : firstr = true ∨ c.image.curr_offset % c.image.blocksize % sector_size = 0)
    (n : Nat) : c.image.wantBytes (c.image.curr_offset % c.image.blocksize) n firstr =
      c.image.layout.step c.image.curr_offset n := by
  rw [VHDFile.wantBytes_cases rfl hs.pos]
  rcases hstart with rfl | haligned
  · rfl
  · rw [show c.image.layout.again c.image.curr_offset n = c.image.layout.step c.image.curr_offset n from
      again_eq_step haligned n, ite_self]

/-- The loop does not end where a step hangs. -/
theorem readSectors_none (ha : Answers parentRead fuel) {y : Nat} (hs : c.Sound) (hat : c.AtSector d)
    (hroom : c.read + toread ≤ c.buffer.length)
    (hstart : firstr = true ∨ c.image.curr_offset % c.image.blocksize % sector_size = 0)
    (hle : c.image.curr_offset ≤ y) (hlt : y < c.image.curr_offset + toread)
    (hsame : y / c.image.blocksize = c.image.curr_offset / c.image.blocksize)
    (hy : c.image.layout.StartsStep c.image.curr_offset y)
    (hhang : Hangs c.layouts y (c.image.curr_offset + toread - y)) :
    readSectors ReadIo.ok parentRead d rounds c (c.image.curr_offset % c.image.blocksize) toread firstr = none := by
  induction rounds generalizing c toread firstr with
  | zero => rfl
  | succ rounds ih =>
    obtain ⟨hwantle, hblock⟩ := wantBytes_le hs toread firstr
    have hwant := wantBytes_step hs hstart toread
    rw [hwant] at hwantle hblock
    have hinside := hangs_le hs.stacked hhang
    have hsplit := hhang
    rw [layouts, List.map_cons, Hangs] at hsplit
    obtain ⟨hfree, -⟩ | ⟨hlacks, hsplit⟩ := hsplit
    · have hplace := hat.place
      rw [← hsame] at hplace
      cases hfree.place.symm.trans hplace
    obtain rfl | hlt' := Nat.eq_or_lt_of_le hle
    · rw [Nat.add_sub_cancel_left] at hsplit hinside
      obtain ⟨hin, hsilent⟩ | hparent := hsplit
      · exact readSectors_stuck ha hs hat hroom (by omega) hlacks hsilent hin
      · rw [readSectors_step hs hwant hinside]
        have hpos := step_pos (v := c.image.layout) (x := c.image.curr_offset) hs.pos (show 0 < toread by omega)
        have hnone := readSector_none ha hs hat (by omega) hblock hlacks
          ⟨c.image.curr_offset, le_refl _, by omega, Or.inl rfl, by rw [Nat.add_sub_cancel_left]; exact hparent⟩
        rw [hnone]
    · have haligned : y % c.image.blocksize % sector_size = 0 := hy.resolve_left (by omega)
      obtain ⟨hbefore, hoffset_y⟩ := step_before (v := c.image.layout) hsame hlt' haligned toread
      by_cases hsilent : c.image.layout.Lacks c.image.curr_offset ∧
          Silent (c.parents.map VHDFile.layout) c.image.curr_offset (c.image.layout.step c.image.curr_offset toread)
      · have hagain := again_before (v := c.image.layout) hsame hlt' haligned hlt
        exact readSectors_stuck ha hs hat hroom (by omega) hsilent.1 hsilent.2 (hagain.trans hinside)
      · rw [readSectors_step hs hwant (by change _ ≤ c.image.layout.dstsize; omega)]
        cases hsector : c.readSector ReadIo.ok parentRead d (c.image.curr_offset % c.image.blocksize)
            (c.image.layout.step c.image.curr_offset toread) with
        | none => rfl
        | some answer =>
          obtain ⟨result, r⟩ := answer
          obtain ⟨n, rfl, hkeeps, hcurr, hoffset, hfilepos, hread, -, -, hfull⟩ :=
            readSector_value ha hs hat (by omega) hblock hsector
          obtain rfl := hfull (step_step ..).symm (fun hlacks h => hsilent ⟨hlacks, h⟩)
          have hmod := Nat.mod_lt y hs.pos
          have hsize : r.image.blocksize = c.image.blocksize := congrArg Layout.blocksize hkeeps.layout
          have hlength := hkeeps.length
          have hblocksize : c.image.layout.blocksize = c.image.blocksize := rfl
          rw [hblocksize] at hoffset_y
          have hblock' : c.image.curr_offset % c.image.blocksize + c.image.layout.step c.image.curr_offset toread <
              c.image.blocksize := by omega
          obtain ⟨hat', hdiv, hmod'⟩ := hat.next hblock' hkeeps.layout hcurr hoffset hfilepos
          have hsize' : (r.skip (c.image.layout.step c.image.curr_offset toread)).image.blocksize = c.image.blocksize := hsize
          have hskip : (r.skip (c.image.layout.step c.image.curr_offset toread)).image.curr_offset =
              c.image.curr_offset + c.image.layout.step c.image.curr_offset toread := by rw [skip, hoffset]
          dsimp only
          rw [if_neg (by rw [hsize]; omega), ← hmod', ← hsize']
          apply ih (hkeeps.skip _).sound hat'
          · change r.read + c.image.layout.step c.image.curr_offset toread + _ ≤ r.buffer.length
            omega
          · right
            rw [hsize', hmod']
            exact step_aligned (v := c.image.layout) (n := toread) (by omega) hblock'
          · omega
          · omega
          · rw [hsize', hdiv]
            exact hsame
          · exact Or.inr (by change y % r.image.blocksize % _ = 0; rw [hsize]; exact haligned)
          · rw [(hkeeps.skip _).layouts, hskip]
            have hsum : c.image.curr_offset + c.image.layout.step c.image.curr_offset toread +
                (toread - c.image.layout.step c.image.curr_offset toread) - y = c.image.curr_offset + toread - y := by omega
            rw [hsum]
            exact hhang

end Reading

namespace Reading

variable {parentRead : Reading → Option (Outcome Unit × Reading)} {fuel : Nat} {c c' : Reading} {d : Nat} {rounds toread : Nat}
  {firstr : Bool}

/-- A step that is not in the image is not taken. -/
theorem readSectors_outside (hs : c.Sound)
    (hin : c.image.dstsize <
      c.image.curr_offset + c.image.wantBytes (c.image.curr_offset % c.image.blocksize) toread firstr) :
    readSectors ReadIo.ok parentRead d (rounds + 1) c (c.image.curr_offset % c.image.blocksize) toread firstr =
      some (.done (.value ()), c) := by
  rw [readSectors, if_pos (Nat.mod_lt _ hs.pos)]
  exact if_pos hin

/-- The loop ends where no step hangs. -/
theorem readSectors_ne_none (ha : Answers parentRead fuel) (hs : c.Sound) (hat : c.AtSector d)
    (hroom : c.read + toread ≤ c.buffer.length)
    (hstart : firstr = true ∨ c.image.curr_offset % c.image.blocksize % sector_size = 0)
    (hrounds : toread + 2 ≤ rounds) (hfuel : toread + 3 * c.parents.length + 1 ≤ fuel)
    (hno : ∀ y, c.image.curr_offset ≤ y → y < c.image.curr_offset + toread →
      y / c.image.blocksize = c.image.curr_offset / c.image.blocksize → c.image.layout.StartsStep c.image.curr_offset y →
      ¬ Hangs c.layouts y (c.image.curr_offset + toread - y)) :
    readSectors ReadIo.ok parentRead d rounds c (c.image.curr_offset % c.image.blocksize) toread firstr ≠ none := by
  induction rounds generalizing c toread firstr with
  | zero => omega
  | succ rounds ih =>
    have hmod := Nat.mod_lt c.image.curr_offset hs.pos
    obtain ⟨hwantle, hblock⟩ := wantBytes_le hs toread firstr
    have hwant := wantBytes_step hs hstart toread
    by_cases hin : c.image.dstsize < c.image.curr_offset + c.image.layout.step c.image.curr_offset toread
    · rw [readSectors_outside hs (by rw [hwant]; exact hin)]
      exact Option.some_ne_none _
    rw [hwant] at hwantle hblock
    rw [readSectors_step hs hwant (by omega)]
    have hhere : 0 < toread → ¬ Hangs c.layouts c.image.curr_offset toread := by
      intro hpos
      have := hno c.image.curr_offset (le_refl _) (by omega) rfl (Or.inl rfl)
      rwa [Nat.add_sub_cancel_left] at this
    rw [layouts, List.map_cons, Hangs] at hhere
    have hparents : c.image.layout.Lacks c.image.curr_offset → ¬ HangsIn (c.parents.map VHDFile.layout) c.image.layout
        c.image.curr_offset (c.image.layout.step c.image.curr_offset toread) := by
      rintro hlacks ⟨y, hle, hlt, hy, hhang⟩
      obtain rfl | hlt' := Nat.eq_or_lt_of_le hle
      · rw [Nat.add_sub_cancel_left] at hhang
        exact hhere (by omega) (Or.inr ⟨hlacks, Or.inr hhang⟩)
      · have hsame : y / c.image.layout.blocksize = c.image.curr_offset / c.image.layout.blocksize := by
          have hx := Nat.div_add_mod' c.image.curr_offset c.image.blocksize
          apply Nat.div_eq_of_lt_le
          · change c.image.curr_offset / c.image.blocksize * c.image.blocksize ≤ y
            omega
          · change y < (c.image.curr_offset / c.image.blocksize + 1) * c.image.blocksize
            rw [Nat.add_one_mul]
            omega
        have hbefore := (step_before hsame hlt' (hy.resolve_left (by omega)) toread).1
        omega
    have hsector := readSector_ne_none ha hs hat (by omega) hblock (by omega) hparents
    obtain ⟨⟨result, r⟩, hsector⟩ := Option.ne_none_iff_exists'.mp hsector
    obtain ⟨n, rfl, hkeeps, hcurr, hoffset, hfilepos, hread, hn, hzero, hfull⟩ :=
      readSector_value ha hs hat (by omega) hblock hsector
    have hsize : r.image.blocksize = c.image.blocksize := congrArg Layout.blocksize hkeeps.layout
    have hlength := hkeeps.length
    have hcount : r.parents.length = c.parents.length := by
      simpa using congrArg List.length hkeeps.parents
    rw [hsector]
    dsimp only
    rw [hsize]
    split
    · exact Option.some_ne_none _
    · next hend =>
      rw [not_or] at hend
      obtain ⟨hat', hdiv, hmod'⟩ := hat.next (by omega) hkeeps.layout hcurr hoffset hfilepos
      have hlayout : (r.skip n).image.layout = c.image.layout := hkeeps.layout
      have hsize' : (r.skip n).image.blocksize = c.image.blocksize := hsize
      have hskip : (r.skip n).image.curr_offset = c.image.curr_offset + n := by rw [skip, hoffset]
      rw [← hmod', ← hsize']
      by_cases hsilent : c.image.layout.Lacks c.image.curr_offset ∧
          Silent (c.parents.map VHDFile.layout) c.image.curr_offset (c.image.layout.step c.image.curr_offset toread)
      · obtain rfl := hzero hsilent.1 (by rw [step_step]; exact hsilent.2)
        obtain ⟨rounds, rfl⟩ : ∃ k, rounds = k + 1 := ⟨rounds - 1, by omega⟩
        have hagain : c.image.dstsize < c.image.curr_offset + c.image.layout.again c.image.curr_offset toread := by
          by_contra hle
          exact hhere (by omega) (Or.inr ⟨hsilent.1, Or.inl ⟨Nat.le_of_not_lt hle, hsilent.2⟩⟩)
        have hdst : (r.skip 0).image.dstsize = c.image.dstsize := congrArg Layout.dstsize hkeeps.layout
        rw [readSectors_outside (hkeeps.skip 0).sound]
        · exact Option.some_ne_none _
        · rw [VHDFile.wantBytes_cases rfl (hkeeps.skip 0).sound.pos, hlayout, hskip, hdst]
          exact hagain
      · obtain rfl := hfull (step_step ..).symm (fun hlacks h => hsilent ⟨hlacks, h⟩)
        have hpos := step_pos (v := c.image.layout) (x := c.image.curr_offset) hs.pos (show 0 < toread by omega)
        have haligned := step_aligned (v := c.image.layout) (x := c.image.curr_offset) (n := toread) (by omega)
          (show c.image.curr_offset % c.image.blocksize + _ < c.image.blocksize by omega)
        apply ih (hkeeps.skip _).sound hat'
        · change r.read + c.image.layout.step c.image.curr_offset toread + _ ≤ r.buffer.length
          omega
        · right
          rw [hsize', hmod']
          exact haligned
        · omega
        · change _ + 3 * r.parents.length + 1 ≤ fuel
          omega
        · rw [(hkeeps.skip _).layouts, hlayout, hskip, hsize']
          intro y hle hlt hsame hy
          have hsum : c.image.curr_offset + c.image.layout.step c.image.curr_offset toread +
              (toread - c.image.layout.step c.image.curr_offset toread) - y = c.image.curr_offset + toread - y := by omega
          rw [hsum]
          apply hno y (by omega) (by omega)
          · rw [hsame, ← hskip, hdiv]
          · obtain rfl | hgrid := hy
            · right
              have hmod'' := hmod'
              rw [hskip] at hmod''
              change (c.image.curr_offset + _) % c.image.blocksize % sector_size = 0
              rw [hmod'']
              exact haligned
            · exact Or.inr hgrid

end Reading

end urbackup.vhdfile
