import UrBackup.FileData.Bits
import UrBackup.Vhd.Writable

namespace urbackup.vhdfile

open stringtools filedata Layout

namespace VHDFile

variable {s t u : VHDFile} {block d off : Nat}

section Bits

theorem bitMask_eq (off : Nat) : VHDFile.bitMask off = filedata.bitMask (off / sector_size) := by
  have hmasks : (List.range 8).all (fun i => UInt8.ofNat (2 ^ (7 - i)) = ⟨BitVec.twoPow 8 (7 - i)⟩) = true := by
    decide
  have hmask := List.all_eq_true.mp hmasks (off / sector_size % 8) (List.mem_range.mpr (Nat.mod_lt _ (by omega)))
  exact of_decide_eq_true hmask

theorem setBitmapBit_bitmap (s : VHDFile) (off : Nat) :
    (s.setBitmapBit off).2.bitmap = putBit s.bitmap (off / sector_size) true := by
  rw [setBitmapBit, putBit, if_pos rfl, bitmapByte, bitMask_eq]

/-- A bit that is set already changes nothing. -/
theorem setBitmapBit_same (h : s.isBitmapSet off = true) (i : Nat) : (s.setBitmapBit off).2.bitmap.getD i 0 = s.bitmap.getD i 0 := by
  have hbit : s.bitmap.getD (off / sector_size / 8) 0 &&& filedata.bitMask (off / sector_size) ≠ 0 := by
    rw [← bitMask_eq]
    exact of_decide_eq_true h
  rw [setBitmapBit_bitmap, putBit, if_pos rfl, or_bitMask hbit]
  by_cases hi : off / sector_size / 8 = i
  · subst hi
    by_cases hlt : off / sector_size / 8 < s.bitmap.length
    · rw [List.getD_eq_getElem?_getD, List.getElem?_set_self hlt, Option.getD_some]
    · rw [List.set_eq_of_length_le (Nat.le_of_not_lt hlt)]
  · rw [List.getD_eq_getElem?_getD, List.getElem?_set_ne hi, ← List.getD_eq_getElem?_getD]

end Bits

/-- What is at a position of the current block. -/
theorem Writable.byteAt_current (h : s.Writable) (hplace : s.layout.place s.currblock = some d) {y : Nat}
    (hy : y / s.blocksize = s.currblock) (vs : List Layout) :
    byteAt (s.layout :: vs) y = if testBit s.bitmap (y % s.blocksize / sector_size) then
      s.layout.file.getD (d + s.bitmap_size + y % s.blocksize) 0 else byteAt vs y := by
  have hbit : y % s.blocksize / sector_size / 8 < s.bitmap_size := h.bits.lt y
  have hcurr := h.current d hplace (d + y % s.blocksize / sector_size / 8)
  rw [if_pos ⟨Nat.le_add_right .., Nat.add_lt_add_left hbit d⟩, Nat.add_sub_cancel_left] at hcurr
  have hplacey : s.layout.place (y / s.layout.blocksize) = some d := by
    change s.layout.place (y / s.blocksize) = some d
    rw [hy, hplace]
  rw [byteAt, hplacey]
  dsimp only
  rw [h.bits.bitSet_slice, testBit, ← bitMask_eq]
  change (if (s.layout.file.getD (d + y % s.blocksize / sector_size / 8) 0 &&& _ ≠ 0 : Bool) = true then _ else _) = _
  rw [hcurr]
  rfl

section Sector

variable (h : s.Writable) (hplace : s.layout.place s.currblock = some d) (hpos : s.filepos = d + s.bitmap_size + off)
  (haligned : off % sector_size = 0) (hin : off + sector_size ≤ s.blocksize) {piece : Bytes} (hlength : piece.length = sector_size)

include h hplace hpos haligned hin hlength

/-- A sector is written. -/
theorem Writable.writeSector : ∃ u, ((s.setBitmapBit off).2.fileWrite Io.ok piece) = (sector_size, u) ∧ u.Writable ∧ s.Stays u ∧
    u.space = s.space ∧ u.currblock = s.currblock ∧ u.filepos = s.filepos + sector_size ∧ u.curr_offset = s.curr_offset ∧
    ∀ vs, byteAt (u.layout :: vs) = put (byteAt (s.layout :: vs)) (s.currblock * s.blocksize + off) piece := by
  have hbounds := place_bounds h.roomy hplace
  have hlt : off / sector_size / 8 < s.bitmap.length := by
    rw [h.bitmap]
    have henough : s.blocksize ≤ s.bitmap_size * 8 * sector_size := h.bits.enough
    unfold sector_size at *
    omega
  have hoffset := h.offset d hplace
  have hnonzero : s.bitmap_offset ≠ 0 := by
    unfold def_bat_offset at hbounds
    omega
  obtain ⟨u, hu⟩ : ∃ u : VHDFile, { s with
      bitmap := (s.setBitmapBit off).2.bitmap
      bitmap_dirty := s.bitmap_dirty || ¬ s.isBitmapSet off
      file := overwrite 0 s.file s.filepos piece
      filepos := s.filepos + sector_size
      ops := s.ops + 1 } = u := ⟨_, rfl⟩
  have hwrite : (s.setBitmapBit off).2.fileWrite Io.ok piece = (sector_size, u) := by
    have htake : piece.take sector_size = piece := List.take_of_length_le hlength.le
    rw [← hu]
    simp only [fileWrite, writable, Io.ok, hlength, htake, setBitmapBit]
  have hspace : u.space = s.space := by
    rw [← hu]
    rfl
  have hplaces : ∀ b, u.layout.place b = s.layout.place b := by
    rw [← hu]
    exact fun _ => rfl
  have hcurrent : u.currblock = s.currblock := by rw [← hu]
  have hbitmap : u.bitmap = (s.setBitmapBit off).2.bitmap := by rw [← hu]
  have hblength : u.bitmap.length = s.bitmap_size := by
    rw [hbitmap, setBitmapBit_bitmap, length_putBit, h.bitmap]
  have hsize : u.bitmap_size = s.bitmap_size := by rw [← hu]
  have hblocksize : u.blocksize = s.blocksize := by rw [← hu]
  have hfile : u.file = overwrite 0 s.file (d + s.bitmap_size + off) piece := by rw [← hu, ← hpos]
  have hfast : u.fast_mode = true := by rw [← hu]; exact h.fast
  have hwrites : u.read_only = false := by rw [← hu]; exact h.writes
  have huoffset : u.bitmap_offset = d := by rw [← hu]; exact hoffset
  -- the bytes of the file as it would be with the bitmap
  have hbytes : ∀ p, u.layout.file.getD p 0 = if d ≤ p ∧ p < d + s.bitmap_size then u.bitmap.getD (p - d) 0
      else if d + s.bitmap_size + off ≤ p ∧ p < d + s.bitmap_size + off + sector_size then
        piece.getD (p - (d + s.bitmap_size + off)) 0
      else s.layout.file.getD p 0 := by
    intro p
    have hcurr := h.current d hplace p
    rw [layout_getD hfast hwrites (by rw [huoffset, ← hoffset]; exact hnonzero), huoffset, hblength, hfile, getD_overwrite, hlength]
    rw [layout_getD h.fast h.writes hnonzero, hoffset, h.bitmap] at hcurr ⊢
    by_cases hp : d ≤ p ∧ p < d + s.bitmap_size
    · rw [if_pos hp]
      rw [if_pos hp] at hcurr
      by_cases hdirty : u.bitmap_dirty = true
      · rw [if_pos ⟨hdirty, hp⟩]
      · rw [if_neg (fun hboth => hdirty hboth.1), if_neg (by omega)]
        have hclean : s.bitmap_dirty = false ∧ s.isBitmapSet off = true := by
          rw [← hu] at hdirty
          simpa using hdirty
        rw [if_neg (by simp [hclean.1])] at hcurr
        rw [hcurr, hbitmap, setBitmapBit_same hclean.2]
    · rw [if_neg hp, if_neg (fun hboth => hp hboth.2)]
      rw [if_neg hp] at hcurr
      rw [hcurr]
  have hcurr : s.layout.place u.currblock = some d := by rw [hcurrent, hplace]
  have hwritable : u.Writable := by
    constructor
    · exact hfast
    · exact hwrites
    · rw [hspace]
      exact h.roomy
    · rw [hspace, ← hu]
      exact h.numbers
    · rw [← hu]
      exact h.few
    · rw [← hu]
      exact ⟨h.bits.pos, h.bits.enough⟩
    · rw [hblength, hsize]
    · intro b d' hd'
      rw [hplaces] at hd'
      rw [hfile, hsize]
      exact (h.inFile b d' hd').trans (le_length_overwrite ..)
    · rw [hplaces, hcurr]
      intro hnone
      cases hnone
    · rw [hplaces, hcurr]
      intro d' hd'
      cases hd'
      exact huoffset
    · rw [hplaces, hcurr]
      intro d' hd' p
      cases hd'
      rw [hbytes, hsize, hfile, getD_overwrite, hlength]
      have hstays := h.current d hplace p
      by_cases hp : d ≤ p ∧ p < d + s.bitmap_size
      · rw [if_pos hp, if_pos hp]
      · rw [if_neg hp] at hstays
        rw [if_neg hp, if_neg hp, hstays]
  refine ⟨u, hwrite, hwritable, ?_, hspace, hcurrent, ?_, ?_, ?_⟩
  · constructor
    · rw [← hu]
    · rw [← hu]
    · rw [← hu]
    · rw [← hu]
    · rw [← hu]
    · rw [← hu]
    · rw [← hu]
    · intro p hp
      rw [hbytes, if_neg (by omega), if_neg (by omega)]
  · rw [← hu]
  · rw [← hu]
  · intro vs
    funext y
    have hsplit := Nat.div_add_mod' y s.blocksize
    have hmod := Nat.mod_lt y h.bits.pos
    change y % s.blocksize < s.blocksize at hmod
    by_cases hy : y / s.blocksize = s.currblock
    · have hu' : y / u.blocksize = u.currblock := by rw [hblocksize, hcurrent, hy]
      have hsector : y % s.blocksize / sector_size = off / sector_size ↔ off ≤ y % s.blocksize ∧ y % s.blocksize < off + sector_size := by
        unfold sector_size at *
        omega
      rw [hy] at hsplit
      have hbyte := hbytes (d + s.bitmap_size + y % s.blocksize)
      rw [if_neg (by omega)] at hbyte
      rw [hwritable.byteAt_current ((hplaces _).trans hcurr) hu', put, h.byteAt_current hplace hy, hblocksize, hsize, hbitmap,
        setBitmapBit_bitmap, testBit_putBit hlt, hbyte, hlength]
      by_cases hsame : y % s.blocksize / sector_size = off / sector_size
      · obtain ⟨hle, hlt'⟩ := hsector.mp hsame
        rw [if_pos hsame, if_pos rfl, if_pos (by omega), if_pos (by omega)]
        congr 1
        omega
      · have hout := mt hsector.mpr hsame
        rw [if_neg hsame, if_neg (c := d + s.bitmap_size + off ≤ _ ∧ _) (by omega),
          if_neg (c := s.currblock * s.blocksize + off ≤ y ∧ _) (by omega)]
    · have hmul : y < s.currblock * s.blocksize ∨ s.currblock * s.blocksize + s.blocksize ≤ y := by
        obtain hlt | hgt := Nat.lt_or_gt_of_ne hy
        · left
          exact (Nat.div_lt_iff_lt_mul h.bits.pos).mp hlt
        · right
          rw [← Nat.add_one_mul]
          exact (Nat.le_div_iff_mul_le h.bits.pos).mp hgt
      rw [put, if_neg (by rw [hlength]; omega)]
      apply byteAt_congr h.bits hblocksize hsize (hplaces _)
      intro d' hd' p hle hlt
      have hapart := place_apart h.roomy hy hd' hplace
      change p < d' + s.bitmap_size + s.blocksize at hlt
      rw [hbytes, if_neg (by omega), if_neg (by omega)]

end Sector

/-- Whole sectors at the start of one are left. -/
structure Whole (blocksize off : Nat) (buffer : Bytes) : Prop where
  blocks : blocksize % sector_size = 0
  start : off % sector_size = 0
  sectors : buffer.length % sector_size = 0
  pos : buffer ≠ []
  inBlock : off < blocksize

theorem Whole.room {blocksize off : Nat} {buffer : Bytes} (h : Whole blocksize off buffer) :
    off + sector_size ≤ blocksize ∧ sector_size ≤ buffer.length := by
  have hpos := List.length_pos_of_ne_nil h.pos
  obtain ⟨hblocks, hstart, hsectors, -, hin⟩ := h
  unfold sector_size at *
  omega

theorem Whole.wantBytes {buffer : Bytes} (h : Whole s.blocksize off buffer) (firstw : Bool) :
    s.wantBytes off buffer.length firstw = sector_size := by
  obtain ⟨hroom, hlength⟩ := h.room
  have hstart := h.start
  cases firstw with
  | true =>
    rw [wantBytes_first h.inBlock, hstart]
    omega
  | false =>
    rw [wantBytes_next h.inBlock]
    omega

/-- What a part of a write has done. -/
structure Wrote (s t : VHDFile) (x : Nat) (bytes : Bytes) : Prop where
  writable : t.Writable
  stays : s.Stays t
  offset : t.curr_offset = s.curr_offset
  same : ∀ vs, byteAt (t.layout :: vs) = put (byteAt (s.layout :: vs)) x bytes

theorem Wrote.trans {x y : Nat} {bytes more : Bytes} (h : s.Wrote t x bytes) (h' : t.Wrote u y more) (hy : y = x + bytes.length) :
    s.Wrote u x (bytes ++ more) where
  writable := h'.writable
  stays := h.stays.trans h'.stays
  offset := h'.offset.trans h.offset
  same := fun vs => by rw [h'.same, h.same, hy, put_append]

/-- The sectors of a block are written. -/
theorem Writable.writeSectors {fuel : Nat} {buffer : Bytes} {firstw : Bool} (h : s.Writable)
    (hplace : s.layout.place s.currblock = some d) (hpos : s.filepos = d + s.bitmap_size + off)
    (hwhole : Whole s.blocksize off buffer) (hfuel : buffer.length < fuel) :
    ∃ u, writeSectors Io.ok fuel s buffer off firstw = (some (buffer.drop (s.blocksize - off)), u) ∧ u.space = s.space ∧
      s.Wrote u (s.currblock * s.blocksize + off) (buffer.take (s.blocksize - off)) := by
  induction fuel generalizing s buffer off firstw with
  | zero => omega
  | succ fuel ih =>
    obtain ⟨hroom, hlength⟩ := hwhole.room
    have hsector := Space.sector_pos
    have hpiece : (buffer.take sector_size).length = sector_size := by
      rw [List.length_take]
      omega
    obtain ⟨u, hwrite, hu, hstays, hspace, hcurr, hfilepos, hoffset, hsame⟩ := h.writeSector hplace hpos hwhole.start hroom hpiece
    have hwrote : s.Wrote u (s.currblock * s.blocksize + off) (buffer.take sector_size) := ⟨hu, hstays, hoffset, hsame⟩
    have hblocksize : u.blocksize = s.blocksize := hstays.blocksize
    have hblocks := hwhole.blocks
    have hstart := hwhole.start
    have hsectors := hwhole.sectors
    rw [VHDFile.writeSectors, if_pos hwhole.inBlock, hwhole.wantBytes]
    dsimp only
    rw [hwrite]
    dsimp only
    rw [if_neg (by simp), hblocksize]
    by_cases hend : buffer.length - sector_size = 0 ∨ s.blocksize - (off + sector_size) = 0
    · rw [if_pos hend]
      have hall : buffer.drop sector_size = buffer.drop (s.blocksize - off) ∧
          buffer.take sector_size = buffer.take (s.blocksize - off) := by
        obtain hend | hend := hend
        · constructor
          · rw [List.drop_eq_nil_of_le (by omega), List.drop_eq_nil_of_le (by omega)]
          · rw [List.take_of_length_le (by omega), List.take_of_length_le (by omega)]
        · rw [show sector_size = s.blocksize - off by omega]
          exact ⟨rfl, rfl⟩
      rw [hall.1, ← hall.2]
      exact ⟨u, rfl, hspace, hwrote⟩
    · rw [if_neg hend]
      rw [not_or] at hend
      have hnext : Whole u.blocksize (off + sector_size) (buffer.drop sector_size) := by
        rw [hblocksize]
        refine ⟨hblocks, ?_, ?_, ?_, by omega⟩
        · unfold sector_size at *
          omega
        · rw [List.length_drop]
          unfold sector_size at *
          omega
        · rw [ne_eq, List.drop_eq_nil_iff]
          omega
      have hplace' : u.layout.place u.currblock = some d := by
        have hbat : u.layout.bat = s.layout.bat := congrArg Space.bat hspace
        rw [hcurr, Layout.place, hbat]
        exact hplace
      obtain ⟨t, hrest, htspace, htwrote⟩ := ih hu hplace' (by rw [hfilepos, hpos, hstays.bitmap_size]; omega) hnext
        (by rw [List.length_drop]; omega)
      refine ⟨t, ?_, htspace.trans hspace, ?_⟩
      · rw [hrest, hblocksize, List.drop_drop, show sector_size + (s.blocksize - (off + sector_size)) = s.blocksize - off by omega]
      · have hall := hwrote.trans htwrote (by rw [hcurr, hblocksize, hpiece]; omega)
        rw [hblocksize, show s.blocksize - (off + sector_size) = s.blocksize - off - sector_size by omega, ← List.take_add] at hall
        rw [show s.blocksize - off = sector_size + (s.blocksize - off - sector_size) by omega]
        exact hall

/-- The blocks of a write in the disk. -/
theorem Writable.writeBlocks {fuel : Nat} {buffer : Bytes} {firstw foot : Bool} (h : s.Writable)
    (hwhole : Whole s.blocksize off buffer) (hend : block * s.blocksize + off + buffer.length ≤ s.dstsize)
    (hfuel : buffer.length < fuel) :
    ∃ foot' t, writeBlocks Io.ok fuel s buffer block off firstw foot = (.value foot', t) ∧
      s.Wrote t (block * s.blocksize + off) buffer := by
  induction fuel generalizing s buffer block off firstw foot with
  | zero => omega
  | succ fuel ih =>
    have hlength := List.length_pos_of_ne_nil hwhole.pos
    obtain ⟨d, new, r, hplaced⟩ := h.placeBlock_some (@block_lt s block off h.roomy (by omega))
    obtain ⟨u, hopen, hopened⟩ : ∃ u, r.openBlock Io.ok block d new = (true, u) ∧ s.Opened u block d := by
      obtain ⟨rfl, rfl, hplace⟩ | ⟨rfl, hfree, hd, -, hr⟩ := placeBlock_value hplaced
      · exact h.openBlock_old hplace
      · exact h.openBlock_new hfree hd hr
    rw [VHDFile.writeBlocks, hplaced]
    dsimp only
    rw [hopen]
    obtain ⟨a, ha⟩ : ∃ a : VHDFile, { u with filepos := d + u.bitmap_size + off, ops := u.ops + 1 } = a := ⟨_, rfl⟩
    have hseek : u.fileSeek Io.ok (d + u.bitmap_size + off) = (true, a) := by
      rw [← ha]
      rfl
    have hlayout : a.layout = u.layout := by
      rw [← ha]
      rfl
    have hawritable : a.Writable := by
      obtain ⟨hfast, hwrites, hroomy, hwrap, hfew, hbits, hbitmap, hinFile, hopened', hoffset, hcurrent⟩ := hopened.writable
      rw [← ha]
      exact ⟨hfast, hwrites, hroomy, hwrap, hfew, hbits, hbitmap, hinFile, hopened', hoffset, hcurrent⟩
    have hsa : s.Wrote a (block * s.blocksize + off) [] := by
      refine ⟨hawritable, ?_, ?_, ?_⟩
      · have hstays := hopened.stays
        refine hstays.trans ?_
        rw [← ha]
        exact ⟨rfl, rfl, rfl, rfl, rfl, rfl, rfl, fun _ _ => rfl⟩
      · rw [← hopened.offset, ← ha]
      · intro vs
        rw [hlayout, hopened.same, put_nil]
    have hblocksize : a.blocksize = s.blocksize := hsa.stays.blocksize
    have hcurr : a.currblock = block := by
      rw [← ha]
      exact hopened.current
    have hplace : a.layout.place a.currblock = some d := by
      rw [hlayout, hcurr]
      exact hopened.place
    dsimp only
    rw [if_neg (by simp), hseek]
    dsimp only
    rw [if_neg (by simp)]
    obtain ⟨w, hsectors, hwrote⟩ : ∃ w, VHDFile.writeSectors Io.ok (buffer.length + 1) a buffer off firstw =
        (some (buffer.drop (a.blocksize - off)), w) ∧
        a.Wrote w (a.currblock * a.blocksize + off) (buffer.take (a.blocksize - off)) := by
      obtain ⟨w, hsectors, -, hwrote⟩ := hawritable.writeSectors hplace (by rw [← ha]) (hblocksize ▸ hwhole)
        (Nat.lt_succ_self buffer.length)
      exact ⟨w, hsectors, hwrote⟩
    rw [hsectors]
    have hbitmap : w.writeBitmap Io.ok d = (true, w) := if_pos hwrote.writable.fast
    have hsw := hsa.trans hwrote (by rw [hcurr, hblocksize]; rfl)
    dsimp only
    rw [hbitmap]
    dsimp only
    rw [if_neg (by simp)]
    rw [hblocksize, List.nil_append] at hsw
    by_cases hmore : (buffer.drop (a.blocksize - off)).length = 0
    · rw [if_pos hmore]
      rw [List.length_drop, hblocksize] at hmore
      rw [List.take_of_length_le (by omega)] at hsw
      exact ⟨_, w, rfl, hsw⟩
    · rw [if_neg hmore]
      rw [hblocksize] at hmore ⊢
      have hwblocksize : w.blocksize = s.blocksize := hsw.stays.blocksize
      have hblocks := hwhole.blocks
      have hstart := hwhole.start
      have hsectors' := hwhole.sectors
      have hinblock := hwhole.inBlock
      have hnext : Whole w.blocksize 0 (buffer.drop (s.blocksize - off)) := by
        rw [hwblocksize]
        refine ⟨hblocks, rfl, ?_, List.ne_nil_of_length_pos (Nat.pos_of_ne_zero hmore), by omega⟩
        rw [List.length_drop] at hmore ⊢
        unfold sector_size at *
        omega
      have hsucc := Nat.add_one_mul block s.blocksize
      rw [List.length_drop] at hmore
      obtain ⟨foot', t, hrest, hwrote'⟩ : ∃ foot' t, VHDFile.writeBlocks Io.ok fuel w (buffer.drop (s.blocksize - off)) (block + 1) 0
          false (foot || new) = (.value foot', t) ∧ w.Wrote t ((block + 1) * w.blocksize + 0) (buffer.drop (s.blocksize - off)) := by
        apply ih hwrote.writable hnext
        · rw [hwblocksize, hsw.stays.dstsize, List.length_drop]
          omega
        · rw [List.length_drop]
          omega
      refine ⟨foot', t, hrest, ?_⟩
      have hall := hsw.trans hwrote' (by rw [hwblocksize, List.length_take]; omega)
      rw [List.take_append_drop] at hall
      exact hall

/-- Whole sectors of a disk. -/
structure InDisk (dstsize : Nat) (request : Nat × Bytes) : Prop where
  start : request.1 % sector_size = 0
  sectors : request.2.length % sector_size = 0
  pos : request.2 ≠ []
  fits : request.1 + request.2.length ≤ dstsize

/-- A write in the disk succeeds, and it changes the bytes it is for. -/
theorem Writable.Write_wrote {request : Nat × Bytes} (h : s.Writable) (hblocks : s.blocksize % sector_size = 0)
    (hin : InDisk s.dstsize request) : ∃ t, (s.Seek request.1).Write Io.ok request.2 = (.value request.2.length, t) ∧ t.Writable ∧ s.Stays t ∧
      ∀ vs, byteAt (t.layout :: vs) = put (byteAt (s.layout :: vs)) request.1 request.2 := by
  obtain ⟨x, bytes⟩ := request
  obtain ⟨hstart, hsectors, hpos, hfits⟩ := hin
  dsimp only at hstart hsectors hpos hfits ⊢
  have hbspos : 0 < s.blocksize := h.bits.pos
  have hsmall : x + bytes.length < 2 ^ 64 := by
    have htable : s.dstsize ≤ s.bat.length * s.blocksize := h.roomy.table
    have hblock : s.blocksize + s.bitmap_size < 2 ^ 32 := h.roomy.small
    have hmul : s.bat.length * s.blocksize ≤ 2 ^ 32 * (2 ^ 32 - 1) := Nat.mul_le_mul h.few.le (by omega)
    omega
  obtain ⟨a, ha⟩ : ∃ a, s.Seek x = a := ⟨_, rfl⟩
  have hoffset : a.curr_offset = x := by
    rw [← ha]
    exact (show ((x : Int) % 2 ^ 64).toNat = x by omega)
  have hsa : s.Wrote { a with curr_offset := s.curr_offset } x [] := by
    rw [← ha]
    refine ⟨?_, ⟨rfl, rfl, rfl, rfl, rfl, rfl, rfl, fun _ _ => rfl⟩, rfl, fun vs => (put_nil ..).symm⟩
    obtain ⟨hfast, hwrites, hroomy, hnumbers, hfew, hbits, hbitmap, hinFile, hopened, hoffset, hcurrent⟩ := h
    exact ⟨hfast, hwrites, hroomy, hnumbers, hfew, hbits, hbitmap, hinFile, hopened, hoffset, hcurrent⟩
  have hwritable : a.Writable := by
    obtain ⟨hfast, hwrites, hroomy, hnumbers, hfew, hbits, hbitmap, hinFile, hopened, hoffset, hcurrent⟩ := hsa.writable
    exact ⟨hfast, hwrites, hroomy, hnumbers, hfew, hbits, hbitmap, hinFile, hopened, hoffset, hcurrent⟩
  have hblocksize : a.blocksize = s.blocksize := hsa.stays.blocksize
  have hdstsize : a.dstsize = s.dstsize := hsa.stays.dstsize
  have hwhole : Whole a.blocksize (x % a.blocksize) bytes := by
    rw [hblocksize]
    refine ⟨hblocks, ?_, hsectors, hpos, Nat.mod_lt _ hbspos⟩
    rw [Nat.mod_mod_of_dvd _ (Nat.dvd_of_mod_eq_zero hblocks)]
    exact hstart
  have hsplit := Nat.div_add_mod' x a.blocksize
  obtain ⟨foot, t, hwrite, hwrote⟩ : ∃ foot t, VHDFile.writeBlocks Io.ok (bytes.length + 1) a bytes (x / a.blocksize) (x % a.blocksize)
      true false = (.value foot, t) ∧ a.Wrote t (x / a.blocksize * a.blocksize + x % a.blocksize) bytes := by
    apply hwritable.writeBlocks hwhole
    · rw [hdstsize]
      omega
    · omega
  rw [hsplit] at hwrote
  have htables : t.writeTables Io.ok foot = (true, t) := by
    rw [writeTables, if_neg]
    rintro ⟨-, hnot⟩
    exact hnot hwrote.writable.fast
  refine ⟨{ t with curr_offset := (t.curr_offset + bytes.length) % 2 ^ 64 }, ?_, ?_, ?_, ?_⟩
  · rw [ha, Write, if_neg (by rw [hwritable.writes]; simp), hoffset, if_neg (by rw [hdstsize, Nat.mod_eq_of_lt (by omega)]; omega),
      hwrite]
    dsimp only
    rw [htables]
    rfl
  · obtain ⟨hfast, hwrites, hroomy, hnumbers, hfew, hbits, hbitmap, hinFile, hopened, hoffset', hcurrent⟩ := hwrote.writable
    exact ⟨hfast, hwrites, hroomy, hnumbers, hfew, hbits, hbitmap, hinFile, hopened, hoffset', hcurrent⟩
  · refine (hsa.stays.trans ?_).trans (hwrote.stays.trans ?_)
    · exact ⟨rfl, rfl, rfl, rfl, rfl, rfl, rfl, fun _ _ => rfl⟩
    · exact ⟨rfl, rfl, rfl, rfl, rfl, rfl, rfl, fun _ _ => rfl⟩
  · intro vs
    have hsame := hsa.same vs
    rw [put_nil] at hsame
    exact (hwrote.same vs).trans (congrArg (put · x bytes) hsame)

/-- Writes at some places, as long as they succeed. -/
def writeAll : List (Nat × Bytes) → (s : VHDFile) → Option VHDFile
  | [], s => some s
  | (x, bytes) :: requests, s =>
    match (s.Seek x).Write Io.ok bytes with
    | (.value _, t) => writeAll requests t
    | _ => none

/-- The disk after the same writes. -/
def putAll (disk : Nat → UInt8) (requests : List (Nat × Bytes)) : Nat → UInt8 :=
  requests.foldl (fun disk request => put disk request.1 request.2) disk

/-- The bytes of an image, and of the images that it is for, after some writes are
those that were written last. -/
theorem Writable.writeAll_contents (h : s.Writable) (hblocks : s.blocksize % sector_size = 0) (requests : List (Nat × Bytes))
    (hin : ∀ r ∈ requests, InDisk s.dstsize r) : ∃ t, writeAll requests s = some t ∧ t.Writable ∧ s.Stays t ∧
      ∀ vs, byteAt (t.layout :: vs) = putAll (byteAt (s.layout :: vs)) requests := by
  induction requests generalizing s with
  | nil => exact ⟨s, rfl, h, .refl s, fun _ => rfl⟩
  | cons request requests ih =>
    obtain ⟨x, bytes⟩ := request
    obtain ⟨t, hwrite, ht, hstays, hsame⟩ := h.Write_wrote hblocks (hin _ List.mem_cons_self)
    obtain ⟨u, hall, hu, hstays', hsame'⟩ := ih ht (by rw [hstays.blocksize, hblocks]) (by
      rw [hstays.dstsize]
      exact fun r hr => hin r (List.mem_cons_of_mem _ hr))
    refine ⟨u, ?_, hu, hstays.trans hstays', ?_⟩
    · rw [writeAll, hwrite]
      exact hall
    · intro vs
      rw [hsame', hsame, putAll, putAll, List.foldl_cons]

end VHDFile

end urbackup.vhdfile
