import UrBackup.Vhd.Reopen

namespace urbackup.vhdfile

open stringtools filedata Layout

namespace VHDFile

section Definitions

def getUID (s : VHDFile) : Bytes :=
  slice s.footer 68 16

def getTimestamp (s : VHDFile) : Nat :=
  beValue (slice s.footer 24 4)

/-- An image backup: what is random in its headers, the names of the image before it,
and the writes. -/
structure Backup where
  ident : Ident
  unicodename : Bytes
  abs_unicodename : Bytes
  rel_unicodename : Bytes
  requests : List (Nat × Bytes)

def Backup.parentInfo (b : Backup) (parent : VHDFile) : ParentInfo where
  uid := parent.getUID
  timestamp := parent.getTimestamp
  unicodename := b.unicodename
  abs_unicodename := b.abs_unicodename
  rel_unicodename := b.rel_unicodename

/-- An image is created, written and finished, and it is then opened to be read. -/
def storeImage (dstsize blocksize : Nat) (b : Backup) (parent : Option VHDFile) : Option VHDFile :=
  match writeAll b.requests (create dstsize blocksize true false b.ident (parent.map b.parentInfo)) with
  | none => none
  | some t =>
    match t.finish Io.ok with
    | (false, _) => none
    | (true, u) => openFile true false false (parent.map getUID) u.file

/-- The images of a disk. The newest one comes first, and each one is for the changes
since the one behind it. -/
def storeImages (dstsize blocksize : Nat) : List Backup → Option (List VHDFile)
  | [] => some []
  | b :: older =>
    match storeImages dstsize blocksize older with
    | none => none
    | some parents =>
      match storeImage dstsize blocksize b parents.head? with
      | none => none
      | some r => some (r :: parents)

/-- The image of a backup fits into its headers, whatever it is for, and the writes are
those of whole sectors. -/
structure Backup.Fits (b : Backup) (dstsize blocksize : Nat) : Prop where
  alone : CreateNumbered dstsize blocksize b.ident none
  onParent : ∀ parent : VHDFile, parent.getUID.length = 16 → CreateNumbered dstsize blocksize b.ident (some (b.parentInfo parent))
  inDisk : ∀ r ∈ b.requests, InDisk dstsize r

/-- An image that can be read. -/
structure Stored (dstsize blocksize : Nat) (r : VHDFile) : Prop where
  loaded : r.Loaded
  covers : r.layout.Covers
  synced : r.Synced
  size : r.dstsize = dstsize
  blocks : r.blocksize = blocksize
  uid : r.getUID.length = 16

end Definitions

variable {dstsize blocksize : Nat} {b : Backup}

/-- Nothing is in a new image. -/
theorem Fresh.byteAt_eq {ident : Ident} {parent : Option ParentInfo} {s : VHDFile} (h : Fresh dstsize blocksize ident parent s)
    (vs : List Layout) : byteAt (s.layout :: vs) = byteAt vs := by
  funext y
  rw [byteAt, h.free]

/-- The image of a backup has what was written, and is open for the rest. -/
theorem storeImage_stored (h : b.Fits dstsize blocksize) (parent : Option VHDFile)
    (hparent : ∀ s, parent = some s → s.getUID.length = 16) :
    ∃ r, storeImage dstsize blocksize b parent = some r ∧ Stored dstsize blocksize r ∧
      ∀ vs, byteAt (r.layout :: vs) = putAll (byteAt vs) b.requests := by
  have hcreate : CreateNumbered dstsize blocksize b.ident (parent.map b.parentInfo) := by
    cases parent with
    | none => exact h.alone
    | some s => exact h.onParent s (hparent s rfl)
  have huids : (parent.map b.parentInfo).map ParentInfo.uid = parent.map getUID := by
    rw [Option.map_map]
    rfl
  have hs := create_fresh hcreate
  obtain ⟨t, hwritten, ht, hstays, hsame⟩ := hs.writable.writeAll_contents (by rw [hs.blocks]; exact hcreate.sectors) b.requests
    (by rw [hs.size]; exact h.inDisk)
  have hentries : 4 * t.bat.length < 2 ^ 32 := by
    rw [hstays.entries, hs.entries]
    exact hcreate.entries
  have hfooter : t.footer = footerOf dstsize (parent.map b.parentInfo).isSome b.ident := hstays.footer.trans hs.footer
  have hdst : dstsize < 2 ^ 64 := hcreate.dstsize_lt
  obtain ⟨u, hfinish, hfinished⟩ := ht.finish_finished (hstays.compressed.trans hs.plain) hentries (by
    rw [hfooter]
    exact (footerOf_reads hcreate.uid hdst).1)
  obtain ⟨r, hopen, hreopened⟩ := openFile_reopened true false hcreate hs ht hstays hfinished
  obtain ⟨hloaded, hcovers, hsynced, hbytes⟩ := hreopened.reads hcreate hs ht hstays hfinished
  rw [huids] at hopen
  refine ⟨r, ?_, ⟨hloaded, hcovers, hsynced, hreopened.size, hreopened.blocks, ?_⟩, ?_⟩
  · rw [storeImage, hwritten]
    dsimp only
    rw [hfinish]
    exact hopen
  · rw [getUID, hreopened.footer, hfooter, footerOf_uid hcreate.uid]
    exact hcreate.uid
  · intro vs
    rw [hbytes, hsame, hs.byteAt_eq]

/-- The images of a disk have the bytes that were written last. -/
theorem storeImages_stored {backups : List Backup} (h : ∀ b ∈ backups, b.Fits dstsize blocksize) :
    ∃ images, storeImages dstsize blocksize backups = some images ∧ images.length = backups.length ∧
      (∀ r ∈ images, Stored dstsize blocksize r) ∧
      byteAt (images.map layout) = putAll (fun _ => 0) (backups.reverse.flatMap Backup.requests) := by
  induction backups with
  | nil =>
    refine ⟨[], rfl, rfl, ?_, rfl⟩
    intro r hr
    cases hr
  | cons b older ih =>
    obtain ⟨parents, holder, hlength, hstored, hbytes⟩ := ih (fun a ha => h a (List.mem_cons_of_mem _ ha))
    obtain ⟨r, hnewest, hr, hwritten⟩ := storeImage_stored (h b List.mem_cons_self) parents.head?
      (fun s hs => (hstored s (List.mem_of_mem_head? hs)).uid)
    refine ⟨r :: parents, ?_, ?_, ?_, ?_⟩
    · rw [storeImages, holder]
      dsimp only
      rw [hnewest]
    · rw [List.length_cons, hlength, List.length_cons]
    · exact List.forall_mem_cons.mpr ⟨hr, hstored⟩
    · rw [List.map_cons, hwritten, hbytes, List.reverse_cons, List.flatMap_append, List.flatMap_singleton, putAll, putAll, putAll,
        List.foldl_append]

theorem stored_sound {image : VHDFile} {parents : List VHDFile} (buffer : Bytes) (read : Nat)
    (h : ∀ r ∈ image :: parents, Stored dstsize blocksize r) :
    ({ image, parents, buffer, read } : Reading).Sound ∧ ({ image, parents, buffer, read } : Reading).Synced := by
  refine ⟨⟨fun s hs => (h s hs).loaded, ?_, ?_⟩, fun s hs => (h s hs).synced⟩
  · intro v hv
    obtain ⟨s, hs, rfl⟩ := List.mem_map.mp hv
    exact (h s hs).covers
  · refine List.Pairwise.isChain (List.pairwise_map.mpr (List.pairwise_of_forall_mem_list ?_))
    intro s hs t ht
    constructor
    · exact (h t ht).blocks.trans (h s hs).blocks.symm
    · exact ((h t ht).size.trans (h s hs).size.symm).le

/-- However many backups there are, a read returns the bytes that were written last,
and zeros where nothing was. -/
theorem storeImages_readAll {newest : Backup} {older : List Backup} (h : ∀ b ∈ newest :: older, b.Fits dstsize blocksize)
    {reads : List (Nat × Bytes)} (hreads : ∀ r ∈ reads, r.1 < dstsize ∧ r.1 + r.2.length ≤ dstsize) {fuel : Nat}
    (hfuel : ∀ r ∈ reads, r.2.length + 3 * older.length + 4 ≤ fuel) :
    ∃ image parents results c', storeImages dstsize blocksize (newest :: older) = some (image :: parents) ∧
      Reading.readAll fuel { image, parents, buffer := [], read := 0 } reads = some (results, c') ∧
      List.Forall₂ (Reading.Delivered (putAll (fun _ => 0) ((newest :: older).reverse.flatMap Backup.requests)) blocksize) reads
        results := by
  obtain ⟨images, himages, hlength, hstored, hbytes⟩ := storeImages_stored h
  cases images with
  | nil => cases hlength
  | cons image parents =>
    obtain ⟨hsound, hsync⟩ := stored_sound [] 0 hstored
    have himage := hstored image List.mem_cons_self
    have hparents : parents.length = older.length := Nat.succ.inj hlength
    obtain ⟨results, c', hread, hall⟩ := Reading.readAll_delivered reads hsound hsync (by
      intro r hr
      refine ⟨himage.size.symm ▸ (hreads r hr).1, ?_⟩
      intro v hv
      obtain ⟨s, hs, rfl⟩ := List.mem_map.mp hv
      exact ((hreads r hr).2).trans_eq (hstored s hs).size.symm) (by
      intro r hr
      rw [hparents]
      exact hfuel r hr)
    have hdisk : byteAt (Reading.layouts { image, parents, buffer := [], read := 0 }) =
        putAll (fun _ => 0) ((newest :: older).reverse.flatMap Backup.requests) := hbytes
    dsimp only at hall
    rw [hdisk, himage.blocks] at hall
    exact ⟨image, parents, results, c', himages, hread, hall⟩

/-- One sector of a disk of two blocks. -/
def sectorBackup (x : Nat) (byte : UInt8) : Backup where
  ident := ⟨0, List.replicate 16 byte⟩
  unicodename := []
  abs_unicodename := [1]
  rel_unicodename := [2]
  requests := [(x, List.replicate 512 byte)]

theorem sectorBackup_fits {x : Nat} {byte : UInt8} (hstart : x % sector_size = 0) (hin : x + 512 ≤ 2048) :
    (sectorBackup x byte).Fits 2048 1024 := by
  have htable : 2048 / 1024 + 1 < 2 ^ 32 := by decide
  have hbat : batsizeOf 2048 1024 = 2 := by decide
  have hbits : bitmapSizeOf 1024 = 512 := by decide
  have hnext : ∀ s : VHDFile, s.nextblock_offset = s.space.nextblock_offset := fun _ => rfl
  constructor
  · refine ⟨⟨by decide, by decide, htable, ?_⟩, by decide, List.length_replicate, ?_, by decide, ?_⟩
    · rintro info ⟨⟩
    · rintro info ⟨⟩
    · rw [hnext, create_space_none, hbat, hbits]
      decide
  · intro parent huid
    refine ⟨⟨by decide, by decide, htable, ?_⟩, by decide, List.length_replicate, ?_, by decide, ?_⟩
    · rintro info ⟨⟩
      exact ⟨show 1 ≤ 128 * sector_size by decide,
        show locatorSectors 1 ≤ nextSector (def_bat_offset_parent + batsizeOf 2048 1024 * 4) by decide⟩
    · rintro info ⟨⟩
      exact huid
    · have hnames : absLocator ((sectorBackup x byte).parentInfo parent).abs_unicodename.length 2560 =
          (def_bat_offset_parent - 512, 2560) :=
        show absLocator 1 2560 = (def_bat_offset_parent - 512, 2560) by decide
      rw [hnext, create_space_some _ (show nextSector (def_bat_offset_parent + batsizeOf 2048 1024 * 4) = 2560 by decide) hnames,
        hbat, hbits]
      dsimp only [Space.stride]
      decide
  · intro r hr
    rw [sectorBackup, List.mem_singleton] at hr
    subst hr
    refine ⟨hstart, ?_, ?_, ?_⟩
    · rw [List.length_replicate]
      decide
    · rw [ne_eq, List.replicate_eq_nil_iff]
      decide
    · rw [List.length_replicate]
      exact hin

/-- The first sector is written in the second backup, the second one in the first. -/
theorem storeImages_readAll_sectors : ∃ image parents results c',
    storeImages 2048 1024 [sectorBackup 0 7, sectorBackup 512 9] = some (image :: parents) ∧
    Reading.readAll 1100 { image, parents, buffer := [], read := 0 } [(0, List.replicate 1024 0)] = some (results, c') ∧
    List.Forall₂ (Reading.Delivered (putAll (fun _ => 0) [(512, List.replicate 512 9), (0, List.replicate 512 7)]) 1024)
      [(0, List.replicate 1024 0)] results := by
  have hfits : ∀ b ∈ [sectorBackup 0 7, sectorBackup 512 9], b.Fits 2048 1024 := by
    intro b hb
    simp only [List.mem_cons, List.not_mem_nil, or_false] at hb
    obtain rfl | rfl := hb
    · exact sectorBackup_fits (by decide) (by decide)
    · exact sectorBackup_fits (by decide) (by decide)
  apply storeImages_readAll hfits
  · intro r hr
    rw [List.mem_singleton.mp hr, List.length_replicate]
    exact ⟨by decide, by decide⟩
  · intro r hr
    rw [List.mem_singleton.mp hr, List.length_replicate]
    decide

end VHDFile

end urbackup.vhdfile
