import UrBackup.Vhd.VHDFile

namespace urbackup.vhdfile

open stringtools filedata

/-- What the operations on the file do when there is also a limit, by the number of
the operation, behind which reading is an error. -/
structure ReadIo extends Io where
  read : Nat → Option Nat

/-- An image that is read, its parents and the buffer, of which `read` bytes are
done. -/
structure Reading where
  image : VHDFile
  parents : List VHDFile
  buffer : Bytes
  read : Nat

/-- How the sectors of a block are left: with bytes for the next block, or with the
end of the call. -/
inductive Left
  | rest (toread : Nat)
  | done (result : Outcome Unit)

namespace VHDFile

/-- A read and whether there was an error. -/
def fileReadError (io : ReadIo) (s : VHDFile) (n : Nat) : Bytes × Bool × VHDFile :=
  match io.read s.ops with
  | none =>
    let (bytes, s) := s.fileRead n
    (bytes, false, { s with ops := s.ops + 1 })
  | some limit =>
    let (bytes, s) := s.fileRead (min limit n)
    (bytes, true, { s with ops := s.ops + 1 })

/-- The bitmap of a block becomes the current one, to read `bsize` bytes. -/
def openToRead (io : ReadIo) (s : VHDFile) (block dataoffset blockoffset bsize : Nat) : Bool × VHDFile :=
  if block = s.currblock then (true, s)
  else
    let s := s.switchBitmap io.toIo dataoffset
    let s := (s.fileSeek io.toIo dataoffset).2
    if (dataoffset + s.bitmap_size + blockoffset + bsize) % 2 ^ 64 > s.file.length then (false, s)
    else
      let (bytes, _, s) := s.fileReadError io s.bitmap_size
      let s := { s with bitmap := bytes ++ s.bitmap.drop bytes.length }
      if bytes.length ≠ s.bitmap_size then (false, s) else (true, { s with currblock := block })

end VHDFile

namespace Reading

variable (io : ReadIo) (parentRead : Reading → Option (Outcome Unit × Reading)) (c : Reading)

/-- Bytes at the end of what is done. -/
def put (bytes : Bytes) : Reading :=
  { c with buffer := overwrite 0 c.buffer c.read bytes }

def skip (n : Nat) : Reading :=
  { c with image := { c.image with curr_offset := c.image.curr_offset + n }, read := c.read + n }

/-- The parent reads into a part of the buffer. -/
def handOn (wantread : Nat) (p : VHDFile) (ps : List VHDFile) : Reading where
  image := p.Seek c.image.curr_offset
  parents := ps
  buffer := slice c.buffer c.read wantread
  read := 0

/-- What the parent has, or zeros. `none` where the parent does not return. -/
def readParent (wantread : Nat) : Option (Outcome Nat × Reading) :=
  match c.parents with
  | [] => some (.value wantread, c.put (List.replicate wantread 0))
  | p :: ps =>
    match parentRead (c.handOn wantread p ps) with
    | none => none
    | some (result, r) =>
      let c := { c.put r.buffer with parents := r.image :: r.parents }
      match result with
      | .outOfRange => some (.outOfRange, c)
      | _ => some (.value r.read, c)

/-- At most a sector of an allocated block. The result is how much it is. -/
def readSector (dataoffset blockoffset wantread : Nat) : Option (Outcome Nat × Reading) :=
  if c.image.isBitmapSet blockoffset then
    let (bytes, has_read_error, image) := c.image.fileReadError io wantread
    let c := { c.put bytes with image }
    if bytes.length ≠ wantread ∧ has_read_error then some (.failed, c) else some (.value bytes.length, c)
  else
    match c.readParent parentRead wantread with
    | some (.value n, c) =>
      some (.value n, { c with image := (c.image.fileSeek io.toIo (dataoffset + c.image.bitmap_size + blockoffset + n)).2 })
    | other => other

def readSectors (dataoffset : Nat) : (fuel : Nat) → (c : Reading) → (blockoffset toread : Nat) → (firstr : Bool) →
    Option (Left × Reading)
  | 0, _, _, _, _ => none
  | fuel + 1, c, blockoffset, toread, firstr =>
    if blockoffset < c.image.blocksize then
      let wantread := c.image.wantBytes blockoffset toread firstr
      if c.image.curr_offset + wantread > c.image.dstsize then some (.done (.value ()), c)
      else
        match c.readSector io parentRead dataoffset blockoffset wantread with
        | none => none
        | some (.outOfRange, c) => some (.done .outOfRange, c)
        | some (.failed, c) => some (.done .failed, c)
        | some (.value n, c) =>
          let c := c.skip n
          if toread - n = 0 ∨ c.image.blocksize - (blockoffset + n) = 0 then some (.rest (toread - n), c)
          else readSectors dataoffset fuel c (blockoffset + n) (toread - n) false
    else some (.rest toread, c)

/-- The blocks of a read of `bsize` bytes. -/
def readBlocks (bsize : Nat) : (fuel : Nat) → (c : Reading) → (block blockoffset toread : Nat) → (firstr : Bool) →
    Option (Outcome Unit × Reading)
  | 0, _, _, _, _, _ => none
  | fuel + 1, c, block, blockoffset, toread, firstr =>
    match c.image.bat[block]? with
    | none => some (.outOfRange, c)
    | some bat_off =>
      if bat_off = unallocated then
        let wantread := min (c.image.blocksize - blockoffset) toread
        match c.readParent parentRead wantread with
        | none => none
        | some (.outOfRange, c) => some (.outOfRange, c)
        | some (_, c) =>
          let c := c.skip wantread
          if toread - wantread = 0 then some (.value (), c)
          else readBlocks bsize fuel c (block + 1) 0 (toread - wantread) firstr
      else
        let dataoffset := bat_off * sector_size
        let (opened, image) := c.image.openToRead io block dataoffset blockoffset bsize
        if ¬ opened then some (.failed, { c with image })
        else
          let image := (image.fileSeek io.toIo (dataoffset + image.bitmap_size + blockoffset)).2
          match readSectors io parentRead dataoffset fuel { c with image } blockoffset toread firstr with
          | none => none
          | some (.done result, c) => some (result, c)
          | some (.rest toread, c) =>
            if toread = 0 then some (.value (), c)
            else if c.image.curr_offset ≥ c.image.dstsize then some (.value (), c)
            else readBlocks bsize fuel c (block + 1) 0 toread false

/-- A read of as many bytes as the buffer has, `none` where the fuel is used up. -/
def Read : (fuel : Nat) → (c : Reading) → Option (Outcome Unit × Reading)
  | 0, _ => none
  | fuel + 1, c =>
    let c := { c with read := 0 }
    if c.image.curr_offset ≥ c.image.dstsize then some (.failed, c)
    else
      readBlocks io (Read fuel) c.buffer.length fuel c (c.image.curr_offset / c.image.blocksize % 2 ^ 32)
        (c.image.curr_offset % c.image.blocksize) c.buffer.length true

end Reading

/-- What a read goes by and leaves as it is. A bitmap that is only in memory is in
the file, too. -/
structure Layout where
  blocksize : Nat
  dstsize : Nat
  bat : List Nat
  bitmap_size : Nat
  file : Bytes

/-- A bit of a bitmap, by an offset in the block. -/
def bitSet (bitmap : Bytes) (offset : Nat) : Bool :=
  bitmap.getD (offset / sector_size / 8) 0 &&& VHDFile.bitMask offset ≠ 0

namespace Layout

variable (v : Layout)

/-- Where the bitmap of a block is, and its sectors behind it. -/
def place (block : Nat) : Option Nat :=
  match v.bat[block]? with
  | none => none
  | some bat_off => if bat_off = unallocated then none else some (bat_off * sector_size)

def Free (block : Nat) : Prop :=
  v.bat[block]? = some unallocated

/-- The sector of a position is one that the parent has. -/
def Lacks (x : Nat) : Prop :=
  ∃ d, v.place (x / v.blocksize) = some d ∧ bitSet (slice v.file d v.bitmap_size) (x % v.blocksize) = false

/-- The bytes of the first step at a position. -/
def step (x n : Nat) : Nat :=
  min n (min (v.blocksize - x % v.blocksize) (sector_size - x % v.blocksize % sector_size))

/-- The bytes of another step at the same position. -/
def again (x n : Nat) : Nat :=
  min n (min (v.blocksize - x % v.blocksize) sector_size)

/-- The positions where a step of a read from `x` on may start. -/
def StartsStep (x y : Nat) : Prop :=
  y = x ∨ y % v.blocksize % sector_size = 0

/-- The numbers of the code are large enough, and the table is. -/
structure Covers : Prop where
  pos : 0 < v.blocksize
  small : v.blocksize < 2 ^ 32
  few : v.bat.length ≤ 2 ^ 32
  covers : v.dstsize ≤ v.bat.length * v.blocksize

/-- A step of `n` bytes delivers none. -/
def Silent : List Layout → (x n : Nat) → Prop
  | [], _, _ => False
  | v :: _, x, n => v.dstsize ≤ x ∨ (v.place (x / v.blocksize)).isSome ∧ v.dstsize < x + n

/-- The step at a position, with `n` bytes to read from there on, never ends: a
sector is taken from a parent which is too small to have it. -/
def Hangs : List Layout → (x n : Nat) → Prop
  | [], _, _ => False
  | v :: vs, x, n =>
    v.Free (x / v.blocksize) ∧ Hangs vs x (min n (v.blocksize - x % v.blocksize)) ∨
    v.Lacks x ∧ (x + v.again x n ≤ v.dstsize ∧ Silent vs x (v.step x n) ∨ Hangs vs x (v.step x n))

/-- An image and its parents, which are of equal or smaller size. -/
structure Stacked (vs : List Layout) : Prop where
  covers : ∀ v ∈ vs, v.Covers
  chain : vs.IsChain (fun v w => w.blocksize = v.blocksize ∧ w.dstsize ≤ v.dstsize)

end Layout

namespace VHDFile

variable (s : VHDFile)

def layout : Layout where
  blocksize := s.blocksize
  dstsize := s.dstsize
  bat := s.bat
  bitmap_size := s.bitmap_size
  file :=
    if s.fast_mode ∧ ¬ s.read_only ∧ s.bitmap_dirty ∧ s.bitmap_offset ≠ 0 then overwrite 0 s.file s.bitmap_offset s.bitmap
    else s.file

/-- The allocated blocks are in the file, and the bitmap is the one of the current
block. -/
structure Loaded : Prop where
  bitmap : s.bitmap.length = s.bitmap_size
  inFile : ∀ block d, s.layout.place block = some d → d + s.bitmap_size + s.blocksize ≤ s.file.length
  current : ∀ d, s.layout.place s.currblock = some d → s.bitmap = slice s.layout.file d s.bitmap_size

theorem le_layout_file : s.file.length ≤ s.layout.file.length := by
  rw [layout]
  split
  · exact le_length_overwrite ..
  · exact le_refl _

theorem switchBitmap_ok (new_offset : Nat) :
    ∃ filepos ops, s.switchBitmap Io.ok new_offset =
      { s with file := s.layout.file, filepos, ops, bitmap_offset := new_offset, bitmap_dirty := false } := by
  unfold switchBitmap layout
  split
  · exact ⟨s.bitmap_offset + s.bitmap.length, s.ops + 2, by simp [fileSeek, fileWrite, writable, Io.ok]⟩
  · exact ⟨s.filepos, s.ops, rfl⟩

end VHDFile

namespace Reading

def layouts (c : Reading) : List Layout :=
  (c.image :: c.parents).map VHDFile.layout

structure Sound (c : Reading) : Prop where
  loaded : ∀ s ∈ c.image :: c.parents, s.Loaded
  stacked : Layout.Stacked c.layouts

/-- What every part of a read keeps. -/
structure Keeps (c c' : Reading) : Prop where
  layouts : c'.layouts = c.layouts
  sound : c'.Sound
  length : c'.buffer.length = c.buffer.length

variable {c c' c'' : Reading}

theorem Keeps.trans (h : Keeps c c') (h' : Keeps c' c'') : Keeps c c'' where
  layouts := h'.layouts.trans h.layouts
  sound := h'.sound
  length := h'.length.trans h.length

theorem Keeps.layout (h : Keeps c c') : c'.image.layout = c.image.layout := by
  have := h.layouts
  simp only [Reading.layouts, List.map_cons, List.cons.injEq] at this
  exact this.1

theorem Keeps.parents (h : Keeps c c') : c'.parents.map VHDFile.layout = c.parents.map VHDFile.layout := by
  have := h.layouts
  simp only [Reading.layouts, List.map_cons, List.cons.injEq] at this
  exact this.2

end Reading

end urbackup.vhdfile
