import UrBackup.Vhd.Regions
import UrBackup.Vhd.WriteContents

namespace urbackup.vhdfile

open stringtools filedata Layout

namespace VHDFile

section Definitions

/-- The bitmap, the footer and the table of a file that was written in fast mode. -/
def finish (io : Io) (s : VHDFile) : Bool × VHDFile :=
  let s := s.switchBitmap io 0
  if s.fast_mode ∧ ¬ s.read_only then
    let (written, s) := s.write_footer io
    if ¬ written then (false, s) else s.write_bat io
  else (true, s)

/-- Whether the number at a place of some bytes is the checksum of the others. -/
def checked (bytes : Bytes) (place : Nat) : Bool :=
  beValue (slice bytes place 4) = calculate_checksum (overwrite 0 bytes place (List.replicate 4 0))

/-- The footer, or the header if there is no footer. -/
def read_footer (file : Bytes) : Option Bytes :=
  let footer := slice file (file.length - 512) 512
  if footer.length ≠ 512 then none
  else if checked footer 64 then some footer
  else
    let header := slice file 0 512
    if header.length = 512 ∧ checked header 64 then some header else none

/-- The size of the disk and the place of the other header. -/
def process_footer (footer : Bytes) : Option (Nat × Nat) :=
  if beValue (slice footer 12 4) ≠ 0x00010000 then none
  else if beValue (slice footer 60 4) ≠ 3 ∧ beValue (slice footer 60 4) ≠ 4 then none
  else some (beValue (slice footer 48 8), beValue (slice footer 16 8))

/-- The place of the table, its entries and the size of the blocks. A parent that
opens under its name has a uid. -/
def read_dynamicheader (file footer : Bytes) (dynamic_header_offset : Nat) (parent_uid : Option Bytes) : Option (Nat × Nat × Nat) :=
  let dynamicheader := slice file dynamic_header_offset 1024
  if dynamicheader.length ≠ 1024 then none
  else if ¬ checked dynamicheader 36 then none
  else if beValue (slice footer 60 4) = 4 ∧ parent_uid ≠ some (slice dynamicheader 40 16) then none
  else some (beValue (slice dynamicheader 16 8), beValue (slice dynamicheader 28 4), beValue (slice dynamicheader 32 4))

def read_bat (file : Bytes) (bat_offset batsize : Nat) : Option (List Nat) :=
  let bytes := slice file bat_offset (4 * batsize % 2 ^ 32)
  if bytes.length ≠ 4 * batsize then none else some ((pieces 4 bytes).map beValue)

/-- A file that exists. -/
def openFile (read_only fast_mode compressed : Bool) (parent_uid : Option Bytes) (file : Bytes) : Option VHDFile :=
  match read_footer file with
  | none => none
  | some footer =>
    match process_footer footer with
    | none => none
    | some (dstsize, dynamic_header_offset) =>
      match read_dynamicheader file footer dynamic_header_offset parent_uid with
      | none => none
      | some (bat_offset, batsize, blocksize) =>
        match read_bat file bat_offset batsize with
        | none => none
        | some bat =>
          let nextblock_offset := file.length - 512
          some (init_bitmap
            { read_only
              fast_mode
              compressed
              dstsize
              blocksize
              bat
              bat_offset
              nextblock_offset :=
                if nextblock_offset % sector_size ≠ 0 then nextblock_offset + (sector_size - nextblock_offset % sector_size)
                else nextblock_offset
              parentlocator := []
              bitmap := []
              bitmap_size := 0
              currblock := 0xFFFFFFFF
              curr_offset := 0
              bitmap_offset := 0
              bitmap_dirty := false
              footer
              file
              filepos := 0
              ops := 0 })

end Definitions

section Fields

@[simp] theorem length_beBytes (k n : Nat) : (beBytes k n).length = k := by
  rw [beBytes, List.length_reverse, length_leBytes]

theorem beValue_beBytes {k n : Nat} (h : n < 256 ^ k) : beValue (beBytes k n) = n := by
  rw [beValue, beBytes, List.reverse_reverse, leValue_leBytes h]

/-- A field behind some others. -/
theorem slice_field {bytes front field back : Bytes} {p n : Nat} (h : bytes = front ++ (field ++ back)) (hp : front.length = p)
    (hn : field.length = n) : slice bytes p n = field := by
  rw [h, slice, ← hp, ← hn, List.drop_left, List.take_left]

theorem beValue_field {bytes front back : Bytes} {p k n : Nat} (h : bytes = front ++ (beBytes k n ++ back)) (hp : front.length = p)
    (hn : n < 256 ^ k) : beValue (slice bytes p k) = n := by
  rw [slice_field h hp (length_beBytes k n), beValue_beBytes hn]

/-- The checksum is that of the bytes with zeros in its place. -/
theorem checked_field {front back : Bytes} {p : Nat} (hp : front.length = p) :
    checked (front ++ (beBytes 4 (calculate_checksum (front ++ (beBytes 4 0 ++ back))) ++ back)) p = true := by
  have hzeros : beBytes 4 0 = List.replicate 4 0 := by
    decide
  have hclear := overwrite_append 0 front (List.replicate 4 0)
    (beBytes 4 (calculate_checksum (front ++ (beBytes 4 0 ++ back))) ++ back)
  rw [hp, List.length_replicate, List.drop_left' (length_beBytes ..), List.append_assoc] at hclear
  have hlt : calculate_checksum (front ++ (beBytes 4 0 ++ back)) < 256 ^ 4 := by
    unfold calculate_checksum
    omega
  rw [checked, beValue_field rfl hp hlt, hclear, ← hzeros]
  exact decide_eq_true rfl

end Fields

section Footer

variable {dstsize : Nat} {diff : Bool} {ident : Ident}

/-- The fields of a footer that are read. -/
theorem footerBytes_fields (dstsize disk_type : Nat) (ident : Ident) : ∃ cookie created geometry rest : Bytes,
    cookie.length = 12 ∧ created.length = 24 ∧ geometry.length = 4 ∧ rest.length = ident.uid.length + 428 ∧
    ∀ checksum, footerBytes dstsize disk_type checksum ident =
      cookie ++ beBytes 4 0x00010000 ++ beBytes 8 512 ++ created ++ beBytes 8 dstsize ++ geometry ++ beBytes 4 disk_type ++
        beBytes 4 checksum ++ rest := by
  refine ⟨[99, 111, 110, 101, 99, 116, 105, 120] ++ beBytes 4 0x00000002,
    beBytes 4 ident.timestamp ++ [118, 112, 99, 32] ++ beBytes 4 0x00050003 ++ beBytes 4 0x5769326B ++ beBytes 8 dstsize,
    beBytes 4 (calculate_chs dstsize), ident.uid ++ [0] ++ List.replicate 427 0, ?_, ?_, ?_, ?_, ?_⟩
  · rw [List.length_append, length_beBytes]
    rfl
  · simp only [List.length_append, length_beBytes]
    rfl
  · exact length_beBytes ..
  · simp only [List.length_append, List.length_replicate, List.length_singleton]
  · intro checksum
    simp only [footerBytes, def_dynamic_header_offset, List.append_assoc]

/-- A footer has its own checksum, and the fields are found. -/
theorem footerOf_reads (huid : ident.uid.length = 16) (hdst : dstsize < 2 ^ 64) :
    (footerOf dstsize diff ident).length = 512 ∧ checked (footerOf dstsize diff ident) 64 = true ∧
      beValue (slice (footerOf dstsize diff ident) 60 4) = (if diff then 4 else 3) ∧
      process_footer (footerOf dstsize diff ident) = some (dstsize, def_dynamic_header_offset) := by
  obtain ⟨disk_type, htype⟩ : ∃ n, (if diff then 4 else 3) = n := ⟨_, rfl⟩
  have hor : disk_type = 3 ∨ disk_type = 4 := by
    cases diff with
    | true => exact Or.inr htype.symm
    | false => exact Or.inl htype.symm
  obtain ⟨cookie, created, geometry, rest, hcookie, hcreated, hgeometry, hrest, hbytes⟩ := footerBytes_fields dstsize disk_type ident
  obtain ⟨footer, hfooter⟩ : ∃ footer, footerOf dstsize diff ident = footer := ⟨_, rfl⟩
  have hof : footer = footerBytes dstsize disk_type (calculate_checksum (footerBytes dstsize disk_type 0 ident)) ident := by
    rw [← hfooter, footerOf, htype]
  have hchecked : checked footer 64 = true := by
    have hlength : (cookie ++ beBytes 4 0x00010000 ++ beBytes 8 512 ++ created ++ beBytes 8 dstsize ++ geometry ++
        beBytes 4 disk_type).length = 64 := by
      simp only [List.length_append, length_beBytes, hcookie, hcreated, hgeometry]
    have hself := @checked_field _ rest _ hlength
    rw [hof, hbytes, hbytes 0]
    simpa only [List.append_assoc] using hself
  obtain ⟨checksum, hchecksum⟩ : ∃ n, calculate_checksum (footerBytes dstsize disk_type 0 ident) = n := ⟨_, rfl⟩
  rw [hchecksum, hbytes] at hof
  have htypeat : beValue (slice footer 60 4) = disk_type := by
    have hsplit : footer = (cookie ++ beBytes 4 0x00010000 ++ beBytes 8 512 ++ created ++ beBytes 8 dstsize ++ geometry) ++
        (beBytes 4 disk_type ++ (beBytes 4 checksum ++ rest)) := by
      simp only [hof, List.append_assoc]
    apply beValue_field hsplit
    · simp only [List.length_append, length_beBytes, hcookie, hcreated, hgeometry]
    · omega
  have hversion : beValue (slice footer 12 4) = 0x00010000 := by
    have hsplit : footer = cookie ++ (beBytes 4 0x00010000 ++ (beBytes 8 512 ++ created ++ beBytes 8 dstsize ++ geometry ++
        beBytes 4 disk_type ++ beBytes 4 checksum ++ rest)) := by
      simp only [hof, List.append_assoc]
    exact beValue_field hsplit hcookie (by omega)
  have hoffset : beValue (slice footer 16 8) = 512 := by
    have hsplit : footer = (cookie ++ beBytes 4 0x00010000) ++ (beBytes 8 512 ++ (created ++ beBytes 8 dstsize ++ geometry ++
        beBytes 4 disk_type ++ beBytes 4 checksum ++ rest)) := by
      simp only [hof, List.append_assoc]
    apply beValue_field hsplit
    · simp only [List.length_append, length_beBytes, hcookie]
    · omega
  have hsize : beValue (slice footer 48 8) = dstsize := by
    have hsplit : footer = (cookie ++ beBytes 4 0x00010000 ++ beBytes 8 512 ++ created) ++ (beBytes 8 dstsize ++ (geometry ++
        beBytes 4 disk_type ++ beBytes 4 checksum ++ rest)) := by
      simp only [hof, List.append_assoc]
    apply beValue_field hsplit
    · simp only [List.length_append, length_beBytes, hcookie, hcreated]
    · exact hdst.trans_eq (by decide)
  rw [hfooter]
  refine ⟨?_, hchecked, htypeat.trans htype.symm, ?_⟩
  · simp only [hof, List.length_append, length_beBytes, hcookie, hcreated, hgeometry, hrest, huid]
  · rw [process_footer, hversion, htypeat, hsize, hoffset, if_neg (by simp), if_neg (by omega)]
    rfl

/-- The uid is found, too. -/
theorem footerOf_uid (huid : ident.uid.length = 16) : slice (footerOf dstsize diff ident) 68 16 = ident.uid := by
  obtain ⟨disk_type, htype⟩ : ∃ n, (if diff then 4 else 3) = n := ⟨_, rfl⟩
  rw [footerOf, htype]
  generalize calculate_checksum (footerBytes dstsize disk_type 0 ident) = checksum
  obtain ⟨front, back, hlength, hbytes⟩ : ∃ front back : Bytes, front.length = 68 ∧
      footerBytes dstsize disk_type checksum ident = front ++ (ident.uid ++ back) := by
    refine ⟨[99, 111, 110, 101, 99, 116, 105, 120] ++ beBytes 4 0x00000002 ++ beBytes 4 0x00010000 ++
      beBytes 8 def_dynamic_header_offset ++ beBytes 4 ident.timestamp ++ [118, 112, 99, 32] ++ beBytes 4 0x00050003 ++
      beBytes 4 0x5769326B ++ beBytes 8 dstsize ++ beBytes 8 dstsize ++ beBytes 4 (calculate_chs dstsize) ++
      beBytes 4 disk_type ++ beBytes 4 checksum, [0] ++ List.replicate 427 0, ?_, ?_⟩
    · simp only [List.length_append, length_beBytes]
      rfl
    · simp only [footerBytes, List.append_assoc]
  exact slice_field hbytes hlength huid

end Footer

section Dynamic

variable {s : VHDFile} {uid name : Bytes} {timestamp : Nat}

/-- The same for the other header. -/
theorem dynamicheaderBytes_reads (huid : uid.length = 16) (hoffset : s.bat_offset < 2 ^ 64) (hentries : s.bat.length < 2 ^ 32)
    (hblocksize : s.blocksize < 2 ^ 32) {header : Bytes}
    (hheader : s.dynamicheaderBytes (calculate_checksum (s.dynamicheaderBytes 0 uid timestamp name)) uid timestamp name = header) :
    header.length = 1024 ∧ checked header 36 = true ∧ slice header 40 16 = uid ∧ beValue (slice header 16 8) = s.bat_offset ∧
      beValue (slice header 28 4) = s.bat.length ∧ beValue (slice header 32 4) = s.blocksize := by
  obtain ⟨cookie, rest, hcookie, hrest, hbytes⟩ : ∃ cookie rest : Bytes, cookie.length = 16 ∧ rest.length = 968 ∧
      ∀ checksum, s.dynamicheaderBytes checksum uid timestamp name = cookie ++ beBytes 8 s.bat_offset ++ beBytes 4 0x00010000 ++
        beBytes 4 s.bat.length ++ beBytes 4 s.blocksize ++ beBytes 4 checksum ++ uid ++ rest := by
    refine ⟨[99, 120, 115, 112, 97, 114, 115, 101] ++ List.replicate 8 255,
      beBytes 4 timestamp ++ beBytes 4 0 ++ (name ++ List.replicate 512 0).take 512 ++
        ((s.parentlocator.flatMap locatorBytes) ++ List.replicate 192 0).take 192 ++ List.replicate 256 0, ?_, ?_, ?_⟩
    · rw [List.length_append, List.length_replicate]
      rfl
    · simp only [List.length_append, length_beBytes, List.length_take, List.length_replicate]
      omega
    · intro checksum
      simp only [dynamicheaderBytes, List.append_assoc]
  have hchecked : checked header 36 = true := by
    have hlength : (cookie ++ beBytes 8 s.bat_offset ++ beBytes 4 0x00010000 ++ beBytes 4 s.bat.length ++
        beBytes 4 s.blocksize).length = 36 := by
      simp only [List.length_append, length_beBytes, hcookie]
    have hself := @checked_field _ (uid ++ rest) _ hlength
    rw [← hheader, hbytes, hbytes 0]
    simpa only [List.append_assoc] using hself
  obtain ⟨checksum, hchecksum⟩ : ∃ n, calculate_checksum (s.dynamicheaderBytes 0 uid timestamp name) = n := ⟨_, rfl⟩
  rw [hchecksum, hbytes] at hheader
  refine ⟨?_, hchecked, ?_, ?_, ?_, ?_⟩
  · simp only [← hheader, List.length_append, length_beBytes, hcookie, hrest, huid]
  · have hsplit : header = (cookie ++ beBytes 8 s.bat_offset ++ beBytes 4 0x00010000 ++ beBytes 4 s.bat.length ++
        beBytes 4 s.blocksize ++ beBytes 4 checksum) ++ (uid ++ rest) := by
      simp only [← hheader, List.append_assoc]
    apply slice_field hsplit _ huid
    simp only [List.length_append, length_beBytes, hcookie]
  · have hsplit : header = cookie ++ (beBytes 8 s.bat_offset ++ (beBytes 4 0x00010000 ++ beBytes 4 s.bat.length ++
        beBytes 4 s.blocksize ++ beBytes 4 checksum ++ uid ++ rest)) := by
      simp only [← hheader, List.append_assoc]
    exact beValue_field hsplit hcookie (hoffset.trans_eq (by decide))
  · have hsplit : header = (cookie ++ beBytes 8 s.bat_offset ++ beBytes 4 0x00010000) ++ (beBytes 4 s.bat.length ++
        (beBytes 4 s.blocksize ++ beBytes 4 checksum ++ uid ++ rest)) := by
      simp only [← hheader, List.append_assoc]
    apply beValue_field hsplit
    · simp only [List.length_append, length_beBytes, hcookie]
    · exact hentries.trans_eq (by decide)
  · have hsplit : header = (cookie ++ beBytes 8 s.bat_offset ++ beBytes 4 0x00010000 ++ beBytes 4 s.bat.length) ++
        (beBytes 4 s.blocksize ++ (beBytes 4 checksum ++ uid ++ rest)) := by
      simp only [← hheader, List.append_assoc]
    apply beValue_field hsplit
    · simp only [List.length_append, length_beBytes, hcookie]
    · exact hblocksize.trans_eq (by decide)

end Dynamic

section Finish

variable {t : VHDFile}

/-- A file of another size. -/
def resized (file : Bytes) (size : Nat) : Bytes :=
  file.take size ++ List.replicate (size - file.length) 0

theorem length_resized (file : Bytes) (size : Nat) : (resized file size).length = size := by
  rw [resized, List.length_append, List.length_take, List.length_replicate]
  omega

theorem getD_resized (file : Bytes) {size p : Nat} (h : p < size) : (resized file size).getD p 0 = file.getD p 0 := by
  rw [resized]
  by_cases hp : p < file.length
  · rw [List.getD_append _ _ _ _ (by rw [List.length_take]; omega), List.getD_eq_getElem?_getD, List.getElem?_take_of_lt h,
      ← List.getD_eq_getElem?_getD]
  · rw [List.getD_append_right _ _ _ _ (by rw [List.length_take]; omega), List.getD_eq_default file 0 (Nat.le_of_not_lt hp),
      List.getD_eq_getElem?_getD, List.getElem?_replicate]
    split <;> rfl

theorem resized_self (file : Bytes) : resized file file.length = file := by
  rw [resized, List.take_length, Nat.sub_self, List.replicate_zero, List.append_nil]

/-- Parts with the same bytes. -/
theorem slice_of_getD {xs ys : Bytes} {p n : Nat} (hxs : p + n ≤ xs.length) (hys : p + n ≤ ys.length)
    (h : ∀ i, p ≤ i → i < p + n → xs.getD i 0 = ys.getD i 0) : slice xs p n = slice ys p n := by
  refine List.ext_getElem? fun i => ?_
  rw [getElem?_slice, getElem?_slice]
  split
  · next hi =>
    have hbyte := h (p + i) (Nat.le_add_right ..) (by omega)
    rw [List.getD_eq_getElem?_getD, List.getD_eq_getElem?_getD, List.getElem?_eq_getElem (by omega),
      List.getElem?_eq_getElem (by omega)] at hbyte
    rw [List.getElem?_eq_getElem (by omega), List.getElem?_eq_getElem (by omega)]
    exact congrArg some hbyte
  · rfl

theorem write_footer_ok (hplain : t.compressed = false) : ∃ filepos ops, t.write_footer Io.ok = (true, { t with
    file := resized (overwrite 0 t.file t.nextblock_offset t.footer) (t.nextblock_offset + t.footer.length), filepos, ops }) := by
  have htake : t.footer.take t.footer.length = t.footer := List.take_length
  refine ⟨t.nextblock_offset + t.footer.length, t.ops + 2, ?_⟩
  rw [write_footer]
  simp only [fileSeek, fileWrite, writable, Io.ok, if_true, htake, ne_eq, not_true_eq_false, if_false, hplain, Bool.false_eq_true,
    not_false_eq_true, true_and]
  split
  · rfl
  · next hsize =>
    have hself := resized_self (overwrite 0 t.file t.nextblock_offset t.footer)
    rw [not_not.mp hsize] at hself
    rw [hself]

theorem write_bat_ok (hentries : 4 * t.bat.length < 2 ^ 32) : ∃ filepos ops, t.write_bat Io.ok =
    (true, { t with file := overwrite 0 t.file t.bat_offset (t.bat.flatMap (beBytes 4)), filepos, ops }) := by
  have hlength : (t.bat.flatMap (beBytes 4)).length = 4 * t.bat.length := length_flatMap_fixed (length_beBytes 4) t.bat
  have htake : (t.bat.flatMap (beBytes 4)).take (4 * t.bat.length) = t.bat.flatMap (beBytes 4) :=
    List.take_of_length_le hlength.le
  refine ⟨t.bat_offset + 4 * t.bat.length, t.ops + 2, ?_⟩
  rw [write_bat]
  simp only [fileSeek, fileWrite, writable, Io.ok, if_true, Nat.mod_eq_of_lt hentries, hlength, not_true_eq_false, if_false, htake,
    decide_true]

/-- The file after everything was written. -/
structure Finished (t : VHDFile) (file : Bytes) : Prop where
  length : file.length = t.nextblock_offset + 512
  footer : slice file t.nextblock_offset 512 = t.footer
  table : slice file t.bat_offset (4 * t.bat.length) = t.bat.flatMap (beBytes 4)
  same : ∀ p < t.nextblock_offset, p < t.bat_offset ∨ t.bat_offset + 4 * t.bat.length ≤ p →
    file.getD p 0 = t.layout.file.getD p 0

theorem Writable.finish_finished (h : t.Writable) (hplain : t.compressed = false) (hentries : 4 * t.bat.length < 2 ^ 32)
    (hfooter : t.footer.length = 512) : ∃ u, t.finish Io.ok = (true, u) ∧ t.Finished u.file := by
  obtain ⟨filepos, ops, hswitch⟩ := t.switchBitmap_ok 0
  obtain ⟨a, ha⟩ : ∃ a, t.switchBitmap Io.ok 0 = a := ⟨_, rfl⟩
  rw [ha] at hswitch
  obtain ⟨filepos', ops', hwritten⟩ := write_footer_ok (t := a) (by rw [hswitch]; exact hplain)
  obtain ⟨b, hb⟩ : ∃ b, (a.write_footer Io.ok).2 = b := ⟨_, rfl⟩
  have hbeq := hb
  rw [hwritten] at hbeq
  have hbat : b.bat = t.bat := by rw [← hbeq, hswitch]
  have hboffset : b.bat_offset = t.bat_offset := by rw [← hbeq, hswitch]
  have hbfile : b.file = resized (overwrite 0 t.layout.file t.nextblock_offset t.footer) (t.nextblock_offset + 512) := by
    rw [← hbeq, hswitch, ← hfooter]
  obtain ⟨filepos'', ops'', hwritten'⟩ := write_bat_ok (t := b) (by rw [hbat]; exact hentries)
  obtain ⟨u, hu⟩ : ∃ u, (b.write_bat Io.ok).2 = u := ⟨_, rfl⟩
  have hufile : u.file = overwrite 0 b.file t.bat_offset (t.bat.flatMap (beBytes 4)) := by
    rw [← hu, hwritten', hbat, hboffset]
  have hlength : (t.bat.flatMap (beBytes 4)).length = 4 * t.bat.length := length_flatMap_fixed (length_beBytes 4) t.bat
  have hbelow : t.bat_offset + 4 * t.bat.length ≤ t.nextblock_offset := h.roomy.spaced.below .bat _ _ rfl
  have hblength : b.file.length = t.nextblock_offset + 512 := by rw [hbfile, length_resized]
  have hmode : a.fast_mode = true ∧ ¬ a.read_only = true := by
    rw [hswitch]
    exact ⟨h.fast, by rw [h.writes]; simp⟩
  refine ⟨u, ?_, ?_, ?_, ?_, ?_⟩
  · rw [finish, ha]
    dsimp only
    rw [if_pos hmode, hb, hwritten]
    dsimp only
    rw [if_neg (by simp), ← hu, hwritten']
  · rw [hufile, length_overwrite 0 (by rw [hlength, hblength]; omega), hblength]
  · have hself := slice_overwrite_self 0 t.layout.file t.footer t.nextblock_offset
    have hle := congrArg List.length hself
    rw [length_slice, hfooter] at hle
    rw [hfooter] at hself
    rw [hufile, slice_overwrite_disjoint 0 (by rw [hblength]) (Or.inr (by rw [hlength]; exact hbelow)), hbfile]
    refine Eq.trans (slice_of_getD ?_ ?_ ?_) hself
    · rw [length_resized]
    · omega
    · exact fun i _ hi => getD_resized _ hi
  · rw [hufile, ← hlength]
    exact slice_overwrite_self ..
  · intro p hp hout
    rw [hufile, getD_overwrite, if_neg (by rw [hlength]; omega), hbfile, getD_resized _ (by omega), getD_overwrite,
      if_neg (by omega)]

end Finish

section Created

variable {dstsize blocksize : Nat} {ident : Ident} {parent : Option ParentInfo}

/-- The numbers of a new image fit into the fields of its headers, also when all blocks
have a place, and its blocks are made of sectors. -/
structure CreateNumbered (dstsize blocksize : Nat) (ident : Ident) (parent : Option ParentInfo) : Prop
    extends CreateFits dstsize blocksize parent where
  sectors : blocksize % sector_size = 0
  uid : ident.uid.length = 16
  parent_uid : ∀ info, parent = some info → info.uid.length = 16
  entries : 4 * batsizeOf dstsize blocksize < 2 ^ 32
  numbers : (create dstsize blocksize true false ident parent).nextblock_offset +
    batsizeOf dstsize blocksize * (create dstsize blocksize true false ident parent).space.stride ≤ unallocated * sector_size

theorem CreateNumbered.dstsize_lt (h : CreateNumbered dstsize blocksize ident parent) : dstsize < 2 ^ 64 := by
  have hle := dstsize_le h.blocksize_pos h.table
  have hsmall := batsizeOf_le h.table
  have hblock := h.block
  have hmul : batsizeOf dstsize blocksize * blocksize ≤ 2 ^ 32 * (2 ^ 32 - 1) := Nat.mul_le_mul (by omega) (by omega)
  omega

/-- There is a bit for every sector. -/
theorem le_bitmapSizeOf (blocksize : Nat) : blocksize ≤ bitmapSizeOf blocksize * 8 * sector_size := by
  unfold bitmapSizeOf sector_size
  dsimp only
  split <;> split <;> omega

/-- The uid of the parent in the header. -/
def parentUid : Option ParentInfo → Bytes
  | none => List.replicate 16 0
  | some info => info.uid

/-- The header was the last part of the file that was written. -/
def HeaderIn (s : VHDFile) (parent : Option ParentInfo) : Prop :=
  ∃ (file name : Bytes) (timestamp : Nat), s.file = overwrite 0 file def_dynamic_header_offset
    (s.dynamicheaderBytes (calculate_checksum (s.dynamicheaderBytes 0 (parentUid parent) timestamp name)) (parentUid parent) timestamp
      name)

/-- A new image before its table is written. -/
structure Started (dstsize blocksize : Nat) (ident : Ident) (parent : Option ParentInfo) (s : VHDFile) : Prop where
  created : create dstsize blocksize true false ident parent = ((s.write_bat Io.ok).2.write_footer Io.ok).2
  mode : s.fast_mode = true ∧ s.read_only = false ∧ s.compressed = false
  size : s.dstsize = dstsize
  blocks : s.blocksize = blocksize
  bat : s.bat = List.replicate (batsizeOf dstsize blocksize) unallocated
  bat_offset : def_bat_offset ≤ s.bat_offset ∧ s.bat_offset < 2 ^ 64
  bitmap_size : s.bitmap_size = bitmapSizeOf blocksize
  bitmap : s.bitmap = List.replicate (bitmapSizeOf blocksize) 0
  idle : s.currblock = 0xFFFFFFFF ∧ s.bitmap_dirty = false
  footer : s.footer = footerOf dstsize parent.isSome ident
  header : s.HeaderIn parent

theorem write_dynamicheader_headerIn (s : VHDFile) (parent : Option ParentInfo) : (s.write_dynamicheader parent).HeaderIn parent := by
  have hfile : ∀ (t : VHDFile) (file : Bytes) (checksum timestamp : Nat) (uid name : Bytes),
      ({ t with file } : VHDFile).dynamicheaderBytes checksum uid timestamp name = t.dynamicheaderBytes checksum uid timestamp name := by
    intro t file checksum timestamp uid name
    rw [dynamicheaderBytes, dynamicheaderBytes]
  cases parent with
  | none =>
    refine ⟨s.file, [], 0, ?_⟩
    rw [write_dynamicheader]
    dsimp only
    rw [hfile, hfile]
    rfl
  | some info =>
    refine ⟨(s.addLocators info).file, info.unicodename, info.timestamp, ?_⟩
    rw [write_dynamicheader]
    dsimp only
    rw [hfile, hfile]
    rfl

/-- The fields that stay. -/
theorem write_dynamicheader_fields (s : VHDFile) (parent : Option ParentInfo) {t : VHDFile} (ht : s.write_dynamicheader parent = t) :
    (t.fast_mode = s.fast_mode ∧ t.read_only = s.read_only ∧ t.compressed = s.compressed) ∧ t.dstsize = s.dstsize ∧
      t.blocksize = s.blocksize ∧ t.bat = s.bat ∧ t.bat_offset = s.bat_offset ∧ t.bitmap_size = bitmapSizeOf s.blocksize ∧
      t.bitmap = List.replicate (bitmapSizeOf s.blocksize) 0 ∧ (t.currblock = s.currblock ∧ t.bitmap_dirty = s.bitmap_dirty) ∧
      t.footer = s.footer := by
  subst ht
  cases parent with
  | none =>
    unfold write_dynamicheader
    dsimp only [init_bitmap, bitmapSizeOf]
    simp only [and_self]
  | some info =>
    unfold write_dynamicheader
    dsimp only [init_bitmap, addLocators, bitmapSizeOf]
    simp only [and_self]

theorem create_started (dstsize blocksize : Nat) (ident : Ident) (parent : Option ParentInfo) :
    ∃ s, Started dstsize blocksize ident parent s := by
  obtain ⟨start, hcreated, hmode, hsize, hblocks, hbat, hoffset, hidle, hfooter⟩ : ∃ s : VHDFile,
      create dstsize blocksize true false ident parent = (((s.write_dynamicheader parent).write_bat Io.ok).2.write_footer Io.ok).2 ∧
      (s.fast_mode = true ∧ s.read_only = false ∧ s.compressed = false) ∧ s.dstsize = dstsize ∧ s.blocksize = blocksize ∧
      s.bat = List.replicate (batsizeOf dstsize blocksize) unallocated ∧
      s.bat_offset = (if parent.isSome then def_bat_offset_parent else def_bat_offset) ∧
      (s.currblock = 0xFFFFFFFF ∧ s.bitmap_dirty = false) ∧ s.footer = footerOf dstsize parent.isSome ident :=
    ⟨_, rfl, ⟨rfl, rfl, rfl⟩, rfl, rfl, rfl, rfl, ⟨rfl, rfl⟩, rfl⟩
  obtain ⟨t, ht⟩ : ∃ t, start.write_dynamicheader parent = t := ⟨_, rfl⟩
  have hheader := write_dynamicheader_headerIn start parent
  obtain ⟨hmode', hsize', hblocks', hbat', hoffset', hbits, hbitmap, hidle', hfooter'⟩ := write_dynamicheader_fields start parent ht
  rw [ht] at hcreated hheader
  rw [hblocks] at hbits hbitmap hblocks'
  refine ⟨t, hcreated, ?_, hsize'.trans hsize, hblocks', hbat'.trans hbat, ?_, hbits, hbitmap, ?_, hfooter'.trans hfooter, hheader⟩
  · rw [hmode'.1, hmode'.2.1, hmode'.2.2]
    exact hmode
  · rw [hoffset', hoffset]
    unfold def_bat_offset_parent def_bat_offset
    split <;> omega
  · rw [hidle'.1, hidle'.2]
    exact hidle

/-- What is known of a new image. -/
structure Fresh (dstsize blocksize : Nat) (ident : Ident) (parent : Option ParentInfo) (s : VHDFile) : Prop where
  writable : s.Writable
  plain : s.compressed = false
  size : s.dstsize = dstsize
  blocks : s.blocksize = blocksize
  entries : s.bat.length = batsizeOf dstsize blocksize
  bat_offset : def_bat_offset ≤ s.bat_offset ∧ s.bat_offset < 2 ^ 64
  bitmap_size : s.bitmap_size = bitmapSizeOf blocksize
  footer : s.footer = footerOf dstsize parent.isSome ident
  free : ∀ block, s.layout.place block = none
  long : def_bat_offset ≤ s.layout.file.length
  header : ∃ (t : VHDFile) (name : Bytes) (timestamp : Nat), t.bat_offset = s.bat_offset ∧ t.bat.length = s.bat.length ∧
    t.blocksize = blocksize ∧ slice s.layout.file def_dynamic_header_offset 1024 = t.dynamicheaderBytes
      (calculate_checksum (t.dynamicheaderBytes 0 (parentUid parent) timestamp name)) (parentUid parent) timestamp name

theorem create_fresh (h : CreateNumbered dstsize blocksize ident parent) :
    Fresh dstsize blocksize ident parent (create dstsize blocksize true false ident parent) := by
  obtain ⟨t, hcreated, hmode, hsize, hblocks, hbat, hoffset, hbits, hbitmap, hidle, hfooter, file, name, timestamp, hheader⟩ :=
    create_started dstsize blocksize ident parent
  obtain ⟨s, hs⟩ : ∃ s, create dstsize blocksize true false ident parent = s := ⟨_, rfl⟩
  have hroomy : s.space.Roomy := hs ▸ create_roomy h.toCreateFits
  have hnumbers := h.numbers
  have hdst : dstsize < 2 ^ 64 := h.dstsize_lt
  obtain ⟨hflength, -⟩ := @footerOf_reads dstsize parent.isSome ident h.uid hdst
  have hentries : t.bat.length = batsizeOf dstsize blocksize := by rw [hbat, List.length_replicate]
  have hblength : (t.bat.flatMap (beBytes 4)).length = 4 * t.bat.length := length_flatMap_fixed (length_beBytes 4) t.bat
  obtain ⟨filepos, ops, hwritten⟩ := write_bat_ok (t := t) (by rw [hentries]; exact h.entries)
  obtain ⟨a, ha⟩ : ∃ a, (t.write_bat Io.ok).2 = a := ⟨_, rfl⟩
  rw [hwritten] at ha
  obtain ⟨filepos', ops', hwritten'⟩ := write_footer_ok (t := a) (by rw [← ha]; exact hmode.2.2)
  have hst : s = { t with
      file := resized (overwrite 0 (overwrite 0 t.file t.bat_offset (t.bat.flatMap (beBytes 4))) t.nextblock_offset t.footer)
        (t.nextblock_offset + 512)
      filepos := filepos'
      ops := ops' } := by
    rw [← hs, hcreated, hwritten, ha, hwritten', ← ha, ← hflength, ← hfooter]
  rw [hs] at hnumbers ⊢
  have hclean : s.layout.file = s.file := by
    have hdirty : s.bitmap_dirty = false := by
      rw [hst]
      exact hidle.2
    rw [layout]
    exact if_neg (fun hwaits => by simp [hdirty] at hwaits)
  have hsbat : s.bat = List.replicate (batsizeOf dstsize blocksize) unallocated := by
    rw [hst]
    exact hbat
  have hfree : ∀ block, s.layout.place block = none := by
    intro block
    have hlayout : s.layout.bat = List.replicate (batsizeOf dstsize blocksize) unallocated := hsbat
    rw [Layout.place, hlayout, List.getElem?_replicate]
    by_cases hblock : block < batsizeOf dstsize blocksize
    · rw [if_pos hblock]
      exact if_pos rfl
    · rw [if_neg hblock]
  have hnext : t.nextblock_offset = s.nextblock_offset := by rw [hst]
  have hbelow : t.bat_offset + 4 * t.bat.length ≤ t.nextblock_offset := by
    have hspaced := hroomy.spaced.below .bat _ _ rfl
    rw [hst] at hspaced
    exact hspaced
  have hfile : s.file = resized (overwrite 0 (overwrite 0 t.file t.bat_offset (t.bat.flatMap (beBytes 4))) t.nextblock_offset t.footer)
      (t.nextblock_offset + 512) := by rw [hst]
  have hlong : s.file.length = t.nextblock_offset + 512 := by rw [hfile, length_resized]
  have hsmall := batsizeOf_le h.table
  constructor
  · constructor
    · rw [hst]
      exact hmode.1
    · rw [hst]
      exact hmode.2.1
    · exact hroomy
    · rw [hsbat, List.count_replicate_self]
      exact hnumbers
    · rw [hsbat, List.length_replicate]
      exact hsmall
    · constructor
      · change 0 < s.blocksize
        rw [hst]
        exact hblocks ▸ h.blocksize_pos
      · change s.blocksize ≤ s.bitmap_size * 8 * sector_size
        rw [hst]
        dsimp only
        rw [hblocks, hbits]
        exact le_bitmapSizeOf blocksize
    · rw [hst]
      dsimp only
      rw [hbitmap, hbits, List.length_replicate]
    · intro block d hplace
      cases (hfree block).symm.trans hplace
    · intro _
      rw [hsbat, List.length_replicate, hst]
      dsimp only
      rw [hidle.1, hidle.2]
      exact ⟨by omega, rfl⟩
    · intro d hplace
      cases (hfree _).symm.trans hplace
    · intro d hplace
      cases (hfree _).symm.trans hplace
  · rw [hst]
    exact hmode.2.2
  · rw [hst]
    exact hsize
  · rw [hst]
    exact hblocks
  · rw [hsbat, List.length_replicate]
  · rw [hst]
    exact hoffset
  · rw [hst]
    exact hbits
  · rw [hst]
    exact hfooter
  · exact hfree
  · rw [hclean, hlong]
    omega
  · refine ⟨t, name, timestamp, by rw [hst], by rw [hst], hblocks, ?_⟩
    have hhlength := (@dynamicheaderBytes_reads t (parentUid parent) name timestamp (by
      cases parent with
      | none => exact List.length_replicate
      | some info => exact h.parent_uid info rfl) hoffset.2 (by rw [hentries]; exact hsmall)
      (by rw [hblocks]; have := h.block; omega) _ rfl).1
    have hself := slice_overwrite_self 0 file (t.dynamicheaderBytes
      (calculate_checksum (t.dynamicheaderBytes 0 (parentUid parent) timestamp name)) (parentUid parent) timestamp name)
      def_dynamic_header_offset
    have hle := congrArg List.length hself
    rw [← hheader, length_slice, hhlength] at hle
    rw [← hheader, hhlength] at hself
    rw [hclean]
    have hbase : def_bat_offset = def_dynamic_header_offset + 1024 := rfl
    refine Eq.trans (slice_of_getD ?_ ?_ ?_) hself
    · rw [hlong]
      omega
    · omega
    · intro i _ hi
      rw [hfile, getD_resized _ (by omega), getD_overwrite, if_neg (by omega), getD_overwrite, if_neg (by omega)]

end Created

section Opened

variable {dstsize blocksize : Nat} {ident : Ident} {parent : Option ParentInfo} {s t : VHDFile} {file : Bytes}

/-- The table is read as it was written. -/
theorem read_bat_table (hlength : 4 * t.bat.length < 2 ^ 32) (hfits : ∀ bat_ref ∈ t.bat, bat_ref < 2 ^ 32) (h : t.Finished file) :
    read_bat file t.bat_offset t.bat.length = some t.bat := by
  have hbytes : (t.bat.flatMap (beBytes 4)).length = 4 * t.bat.length := length_flatMap_fixed (length_beBytes 4) t.bat
  have hvalues : (t.bat.map (beBytes 4)).map beValue = t.bat := by
    rw [List.map_map]
    conv => rhs; rw [← List.map_id t.bat]
    apply List.map_congr_left
    intro bat_ref hmem
    exact beValue_beBytes ((hfits bat_ref hmem).trans_eq (by decide))
  rw [read_bat, Nat.mod_eq_of_lt hlength, h.table, if_neg (not_not.mpr hbytes), pieces_flatMap_fixed (by omega) (length_beBytes 4), hvalues]

/-- An image that was just opened. -/
structure Reopened (t : VHDFile) (dstsize blocksize : Nat) (file : Bytes) (r : VHDFile) : Prop where
  size : r.dstsize = dstsize
  blocks : r.blocksize = blocksize
  bat : r.bat = t.bat
  bitmap_size : r.bitmap_size = bitmapSizeOf blocksize
  bitmap : r.bitmap = List.replicate (bitmapSizeOf blocksize) 0
  currblock : r.currblock = 0xFFFFFFFF
  clean : r.bitmap_dirty = false
  file : r.file = file
  footer : r.footer = t.footer

/-- The parts of an image are read one after the other. -/
theorem openFile_some (read_only fast_mode : Bool) {parent_uid : Option Bytes} {footer : Bytes} {bat : List Nat}
    {dynamic_header_offset bat_offset batsize : Nat} (hfooter : read_footer file = some footer)
    (hprocess : process_footer footer = some (dstsize, dynamic_header_offset))
    (hdynamic : read_dynamicheader file footer dynamic_header_offset parent_uid = some (bat_offset, batsize, blocksize))
    (hbat : read_bat file bat_offset batsize = some bat) :
    ∃ r, openFile read_only fast_mode false parent_uid file = some r ∧ r.dstsize = dstsize ∧ r.blocksize = blocksize ∧ r.bat = bat ∧
      r.bitmap_size = bitmapSizeOf blocksize ∧ r.bitmap = List.replicate (bitmapSizeOf blocksize) 0 ∧ r.currblock = 0xFFFFFFFF ∧
      r.bitmap_dirty = false ∧ r.file = file ∧ r.footer = footer := by
  unfold openFile
  rw [hfooter]
  dsimp only
  rw [hprocess]
  dsimp only
  rw [hdynamic]
  dsimp only
  rw [hbat]
  dsimp only
  exact ⟨_, rfl, rfl, rfl, rfl, rfl, rfl, rfl, rfl, rfl, rfl⟩

theorem openFile_reopened (read_only fast_mode : Bool) (hcreate : CreateNumbered dstsize blocksize ident parent)
    (hs : Fresh dstsize blocksize ident parent s) (ht : t.Writable) (hstays : s.Stays t) (hfile : t.Finished file) :
    ∃ r, openFile read_only fast_mode false (parent.map ParentInfo.uid) file = some r ∧ t.Reopened dstsize blocksize file r := by
  have hdst : dstsize < 2 ^ 64 := hcreate.dstsize_lt
  have hentries : t.bat.length = batsizeOf dstsize blocksize := hstays.entries.trans hs.entries
  have hoffset : t.bat_offset = s.bat_offset := hstays.bat_offset
  have hlength := hfile.length
  have hbelow : t.bat_offset + 4 * t.bat.length ≤ t.nextblock_offset := ht.roomy.spaced.below .bat _ _ rfl
  have hbatoffset := hs.bat_offset
  have hinside : def_bat_offset ≤ t.bat_offset := hoffset ▸ hbatoffset.1
  have hfront : def_bat_offset ≤ t.nextblock_offset := hinside.trans ((Nat.le_add_right ..).trans hbelow)
  have hsame : slice file def_dynamic_header_offset 1024 = slice s.layout.file def_dynamic_header_offset 1024 := by
    apply slice_of_getD
    · exact hfront.trans (hlength ▸ Nat.le_add_right ..)
    · exact hs.long
    · intro i _ hi
      have hbase : def_bat_offset = def_dynamic_header_offset + 1024 := rfl
      rw [← hbase] at hi
      rw [hfile.same i (lt_of_lt_of_le hi hfront) (Or.inl (lt_of_lt_of_le hi hinside)), hstays.headers i hi]
  obtain ⟨-, hchecked, htype, hprocess⟩ := @footerOf_reads dstsize parent.isSome ident hcreate.uid hdst
  have htfooter : t.footer = footerOf dstsize parent.isSome ident := hstays.footer.trans hs.footer
  have hfooter : read_footer file = some (footerOf dstsize parent.isSome ident) := by
    have hslice := hfile.footer
    have hflength := congrArg List.length hslice
    rw [length_slice] at hflength
    rw [read_footer, hlength, Nat.add_sub_cancel, hslice, htfooter]
    rw [htfooter] at hflength
    dsimp only
    rw [if_neg (by omega), if_pos hchecked]
  obtain ⟨a, name, timestamp, haoffset, haentries, hablocks, hheader⟩ := hs.header
  have huid : (parentUid parent).length = 16 := by
    cases parent with
    | none => exact List.length_replicate
    | some info => exact hcreate.parent_uid info rfl
  obtain ⟨hhlength, hhchecked, hhuid, hhoffset, hhentries, hhblocks⟩ := @dynamicheaderBytes_reads a (parentUid parent) name timestamp
    huid (by rw [haoffset]; exact hbatoffset.2) (by rw [haentries, hs.entries]; exact batsizeOf_le hcreate.table)
    (by rw [hablocks]; have := hcreate.block; omega) _ rfl
  have hdynamic : read_dynamicheader file (footerOf dstsize parent.isSome ident) def_dynamic_header_offset (parent.map ParentInfo.uid) =
      some (t.bat_offset, t.bat.length, blocksize) := by
    rw [read_dynamicheader, hsame, hheader, if_neg (not_not.mpr hhlength), if_neg (by rw [hhchecked]; simp), htype, hhuid, hhoffset,
      hhentries, hhblocks, haoffset, haentries, hablocks, hstays.entries, hoffset, if_neg]
    cases parent with
    | none =>
      rintro ⟨hdisk, -⟩
      exact absurd hdisk (by decide)
    | some info => exact fun hboth => hboth.2 rfl
  have hbat := read_bat_table (by rw [hentries]; exact hcreate.entries) ht.roomy.spaced.fits hfile
  obtain ⟨r, hopen, hsize, hblocks, hrbat, hbits, hbitmap, hcurr, hclean, hrfile, hrfooter⟩ :=
    openFile_some read_only fast_mode hfooter hprocess hdynamic hbat
  exact ⟨r, hopen, hsize, hblocks, hrbat, hbits, hbitmap, hcurr, hclean, hrfile, hrfooter.trans htfooter.symm⟩

/-- The opened image can be read, and it has the bytes of the one that was written. -/
theorem Reopened.reads {r : VHDFile} (h : t.Reopened dstsize blocksize file r) (hcreate : CreateNumbered dstsize blocksize ident parent)
    (hs : Fresh dstsize blocksize ident parent s) (ht : t.Writable) (hstays : s.Stays t) (hfile : t.Finished file) :
    r.Loaded ∧ r.layout.Covers ∧ r.Synced ∧ ∀ vs, byteAt (r.layout :: vs) = byteAt (t.layout :: vs) := by
  have hclean : r.layout.file = file := by
    rw [layout, ← h.file]
    exact if_neg (fun hwaits => by simp [h.clean] at hwaits)
  have hplaces : ∀ block, r.layout.place block = t.layout.place block := by
    intro block
    have hbat : r.layout.bat = t.layout.bat := h.bat
    rw [Layout.place, Layout.place, hbat]
  have htblocks : t.blocksize = blocksize := hstays.blocksize.trans hs.blocks
  have htsize : t.bitmap_size = bitmapSizeOf blocksize := hstays.bitmap_size.trans hs.bitmap_size
  have htdst : t.dstsize = dstsize := hstays.dstsize.trans hs.size
  have hbounds : ∀ block d, t.layout.place block = some d → d + bitmapSizeOf blocksize + blocksize ≤ t.nextblock_offset := by
    intro block d hd
    have hbelow := (place_bounds ht.roomy hd).2.1
    rwa [htsize, htblocks] at hbelow
  have hlength := hfile.length
  refine ⟨⟨?_, ?_, ?_⟩, ⟨?_, ?_, ?_, ?_⟩, ?_, ?_⟩
  · rw [h.bitmap, h.bitmap_size, List.length_replicate]
  · intro block d hd
    rw [hplaces] at hd
    have hbelow := hbounds block d hd
    rw [h.bitmap_size, h.blocks, h.file]
    omega
  · intro d hd
    rw [hplaces, h.currblock] at hd
    have hlt : 0xFFFFFFFF < t.bat.length := place_lt hd
    have hfew := ht.few
    omega
  · change 0 < r.blocksize
    rw [h.blocks]
    exact hcreate.blocksize_pos
  · change r.blocksize < 2 ^ 32
    rw [h.blocks]
    have hblock := hcreate.block
    omega
  · change r.bat.length ≤ 2 ^ 32
    rw [h.bat]
    exact ht.few.le
  · change r.dstsize ≤ r.bat.length * r.blocksize
    have htable : t.dstsize ≤ t.bat.length * t.blocksize := ht.roomy.table
    rwa [h.size, h.bat, h.blocks, ← htdst, ← htblocks]
  · intro hdirty
    rw [h.clean] at hdirty
    cases hdirty
  · intro vs
    funext y
    apply byteAt_congr ht.bits (h.blocks.trans htblocks.symm) (h.bitmap_size.trans htsize.symm) (hplaces _)
    intro d hd p hle hlt
    have hbelow := hbounds _ d hd
    have hapart := ht.roomy.spaced.apart .bat (.block _) _ _ _ _ (by simp) rfl (extent_of_place hd)
    change p < d + t.bitmap_size + t.blocksize at hlt
    rw [htsize, htblocks] at hlt hapart
    change t.bat_offset + 4 * t.bat.length ≤ d ∨ _ ≤ t.bat_offset at hapart
    rw [hclean]
    exact hfile.same p (by omega) (by omega)

end Opened

end VHDFile

end urbackup.vhdfile
