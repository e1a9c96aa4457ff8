import UrBackup.Vhd.Allocate

namespace urbackup.vhdfile

open stringtools filedata

namespace VHDFile

section Definitions

variable (io : Io) (s : VHDFile)

inductive Op
  | Seek (offset : Int)
  | Write (buffer : Bytes)
  | setUnused (unused_start unused_end : Int)

/-- The image after a call, whether it fails or not. There is none after an
access behind the end of the table. -/
def after {α : Type} : Outcome α × VHDFile → Option VHDFile
  | (.outOfRange, _) => none
  | (_, s) => some s

def apply : Op → Option VHDFile
  | .Seek offset => some (s.Seek offset)
  | .Write buffer => after (s.Write io buffer)
  | .setUnused unused_start unused_end => after (s.setUnused io unused_start unused_end)

def applyAll : List Op → VHDFile → Option VHDFile
  | [], s => some s
  | op :: ops, s => (apply io s op).bind (applyAll ops)

/-- The blocks behind the first one that is not used any more. -/
def blocksBehind (unused_start unused_end : Int) : Nat :=
  (unused_start.toNat % s.blocksize + (unused_end - unused_start).toNat - 1) / s.blocksize

/-- The offsets of a call are in the image and do not wrap around. There is a
number for the place of every block that `setUnused` adds. -/
def Fits : Op → Prop
  | .Seek _ => True
  | .Write buffer =>
    s.nextblock_offset + s.space.stride < 2 ^ 64 ∧ s.curr_offset + buffer.length < 2 ^ 64 ∧
      (s.curr_offset + buffer.length ≤ s.dstsize → s.curr_offset < s.dstsize)
  | .setUnused unused_start unused_end =>
    s.nextblock_offset + s.space.stride < 2 ^ 64 ∧ 0 ≤ unused_start ∧ unused_start ≤ unused_end ∧ unused_end < 2 ^ 63 ∧
      (unused_end ≤ s.dstsize → unused_start < s.dstsize ∧
        s.HasNumbers (unused_start.toNat / s.blocksize) (s.blocksBehind unused_start unused_end + 1))

def AllFit : List Op → VHDFile → Prop
  | [], _ => True
  | op :: ops, s => Fits s op ∧ ∀ s', apply io s op = some s' → AllFit ops s'

def bitmapSizeOf (blocksize : Nat) : Nat :=
  let size := blocksize / sector_size / 8
  let size := if blocksize % sector_size ≠ 0 ∨ blocksize / sector_size % 8 ≠ 0 then size + 1 else size
  if size % sector_size ≠ 0 then size + (sector_size - size % sector_size) else size

/-- The sizes of a new image fit into 32 bits, and the names of the parent into
the space that is left for them. -/
structure CreateFits (dstsize blocksize : Nat) (parent : Option ParentInfo) : Prop where
  blocksize_pos : 0 < blocksize
  block : blocksize + bitmapSizeOf blocksize < 2 ^ 32
  table : dstsize / blocksize + 1 < 2 ^ 32
  names : ∀ info, parent = some info → info.rel_unicodename.length ≤ 128 * sector_size ∧
    locatorSectors info.abs_unicodename.length ≤ nextSector (def_bat_offset_parent + batsizeOf dstsize blocksize * 4)

end Definitions

variable {io : Io} {s : VHDFile}

section Calls

end Calls

section Create

variable {dstsize blocksize : Nat} {fast_mode compressed : Bool} {ident : Ident}

theorem batsizeOf_eq (h : dstsize / blocksize + 1 < 2 ^ 32) :
    batsizeOf dstsize blocksize = dstsize / blocksize + if dstsize % blocksize ≠ 0 then 1 else 0 := by
  have hsmall : dstsize / blocksize % 2 ^ 32 = dstsize / blocksize := Nat.mod_eq_of_lt (by omega)
  unfold batsizeOf
  rw [hsmall]
  split
  · exact Nat.mod_eq_of_lt h
  · exact hsmall

theorem batsizeOf_le (h : dstsize / blocksize + 1 < 2 ^ 32) : batsizeOf dstsize blocksize < 2 ^ 32 := by
  rw [batsizeOf_eq h]
  split <;> omega

theorem dstsize_le (hpos : 0 < blocksize) (h : dstsize / blocksize + 1 < 2 ^ 32) :
    dstsize ≤ batsizeOf dstsize blocksize * blocksize := by
  have hdiv := Nat.div_add_mod dstsize blocksize
  have hmod := Nat.mod_lt dstsize hpos
  rw [batsizeOf_eq h]
  split
  · rw [Nat.add_mul, Nat.one_mul, Nat.mul_comm]
    omega
  · rw [Nat.add_zero, Nat.mul_comm]
    omega

theorem create_space_none : (create dstsize blocksize fast_mode compressed ident none).space =
    { read_only := false
      fast_mode
      dstsize
      blocksize
      bitmap_size := bitmapSizeOf blocksize
      bat := List.replicate (batsizeOf dstsize blocksize) unallocated
      bat_offset := def_bat_offset
      nextblock_offset := nextSector (def_bat_offset + batsizeOf dstsize blocksize * 4)
      parentlocator := [] } := by
  unfold create
  dsimp only
  rw [write_footer_space, write_bat_space]
  rfl

theorem relLocatorSectors_eq (size : Nat) : relLocatorSectors size = 128 := by
  unfold relLocatorSectors
  dsimp only
  by_cases h : locatorSectors size ≠ 0
  · rw [if_pos h]
    rfl
  · rw [if_neg h]
    rfl

theorem create_space_some (info : ParentInfo) {nextblock first next : Nat}
    (hnextblock : nextSector (def_bat_offset_parent + batsizeOf dstsize blocksize * 4) = nextblock)
    (hnames : absLocator info.abs_unicodename.length nextblock = (first, next)) :
    (create dstsize blocksize fast_mode compressed ident (some info)).space =
    { read_only := false
      fast_mode
      dstsize
      blocksize
      bitmap_size := bitmapSizeOf blocksize
      bat := List.replicate (batsizeOf dstsize blocksize) unallocated
      bat_offset := def_bat_offset_parent
      nextblock_offset := (next + 128 * sector_size) % 2 ^ 64
      parentlocator :=
        [⟨0x57326B75, locatorSectors info.abs_unicodename.length * sector_size, info.abs_unicodename.length, first⟩,
          ⟨0x57327275, 128 * sector_size, info.rel_unicodename.length, next⟩] } := by
  unfold create
  dsimp only
  rw [write_footer_space, write_bat_space]
  unfold write_dynamicheader addLocators
  dsimp only [Option.isSome_some]
  rw [if_pos rfl, hnextblock, hnames, relLocatorSectors_eq]
  rfl

/-- No block has a place yet. -/
theorem extent_block_replicate {sp : Space} {n : Nat} (h : sp.bat = List.replicate n unallocated) (i : Nat) :
    sp.extent (.block i) = none := by
  unfold Space.extent
  dsimp only
  rw [h, List.getElem?_replicate]
  by_cases hi : i < n
  · rw [if_pos hi]
    dsimp only
    rw [if_pos rfl]
  · rw [if_neg hi]

theorem fits_replicate {n bat_ref : Nat} (h : bat_ref ∈ List.replicate n unallocated) : bat_ref < 2 ^ 32 := by
  rw [List.eq_of_mem_replicate h]
  decide

theorem nextSector_eq {x : Nat} (h : x < 2 ^ 40) :
    x ≤ nextSector x ∧ nextSector x ≤ x + sector_size ∧ nextSector x % sector_size = 0 := by
  unfold nextSector sector_size
  omega

/-- Without blocks, the parts are the headers, the table and the names. -/
theorem spaced_start {sp : Space} {n : Nat} (hbat : sp.bat = List.replicate n unallocated)
    (hstart : def_bat_offset ≤ sp.bat_offset) (hend : sp.bat_offset + 4 * n ≤ sp.nextblock_offset)
    (hnames : ∀ i a b, sp.extent (.locator i) = some (a, b) → b ≤ sp.nextblock_offset ∧
      (def_bat_offset ≤ a ∧ b ≤ sp.bat_offset ∨ sp.bat_offset + 4 * n ≤ a))
    (hapart : ∀ i j a b a' b', i ≠ j → sp.extent (.locator i) = some (a, b) → sp.extent (.locator j) = some (a', b') →
      b ≤ a' ∨ b' ≤ a) : sp.Spaced := by
  have hlength : sp.bat.length = n := by
    rw [hbat, List.length_replicate]
  have hheader : ∀ {a b}, sp.extent .header = some (a, b) → b ≤ def_bat_offset - 1024 := by
    rintro a b ⟨⟩
    exact le_refl _
  have hdynamic : ∀ {a b}, sp.extent .dynamicheader = some (a, b) → def_bat_offset - 1024 ≤ a ∧ b ≤ def_bat_offset := by
    rintro a b ⟨⟩
    exact ⟨le_refl _, le_refl _⟩
  have htable : ∀ {a b}, sp.extent .bat = some (a, b) → a = sp.bat_offset ∧ b = sp.bat_offset + 4 * n := by
    rintro a b ⟨⟩
    exact ⟨rfl, by rw [hlength]⟩
  have hbase : 1024 ≤ def_bat_offset := by
    decide
  refine ⟨fun r r' a b a' b' hne hr hr' => ?_, fun r a b hr => ?_, ?_⟩
  · cases r with
    | block i =>
      rw [extent_block_replicate hbat] at hr
      cases hr
    | header =>
      have h := hheader hr
      cases r' with
      | block i =>
        rw [extent_block_replicate hbat] at hr'
        cases hr'
      | header => exact absurd rfl hne
      | dynamicheader => have h' := hdynamic hr'; omega
      | bat => have h' := htable hr'; omega
      | locator j => have h' := (hnames j a' b' hr').2; omega
    | dynamicheader =>
      have h := hdynamic hr
      cases r' with
      | block i =>
        rw [extent_block_replicate hbat] at hr'
        cases hr'
      | header => have h' := hheader hr'; omega
      | dynamicheader => exact absurd rfl hne
      | bat => have h' := htable hr'; omega
      | locator j => have h' := (hnames j a' b' hr').2; omega
    | bat =>
      have h := htable hr
      cases r' with
      | block i =>
        rw [extent_block_replicate hbat] at hr'
        cases hr'
      | header => have h' := hheader hr'; omega
      | dynamicheader => have h' := hdynamic hr'; omega
      | bat => exact absurd rfl hne
      | locator j => have h' := (hnames j a' b' hr').2; omega
    | locator i =>
      have h := (hnames i a b hr).2
      cases r' with
      | block i =>
        rw [extent_block_replicate hbat] at hr'
        cases hr'
      | header => have h' := hheader hr'; omega
      | dynamicheader => have h' := hdynamic hr'; omega
      | bat => have h' := htable hr'; omega
      | locator j => exact hapart i j a b a' b' (fun heq => hne (by rw [heq])) hr hr'
  · cases r with
    | block i =>
      rw [extent_block_replicate hbat] at hr
      cases hr
    | header => have h := hheader hr; omega
    | dynamicheader => have h := hdynamic hr; omega
    | bat => have h := htable hr; omega
    | locator i => exact (hnames i a b hr).1
  · intro bat_ref hmem
    rw [hbat] at hmem
    exact fits_replicate hmem

theorem create_roomy_none (hfits : CreateFits dstsize blocksize none) :
    (create dstsize blocksize fast_mode compressed ident none).space.Roomy := by
  have hbatsize := batsizeOf_le hfits.table
  obtain ⟨hge, -, haligned⟩ := nextSector_eq (show def_bat_offset + batsizeOf dstsize blocksize * 4 < 2 ^ 40 by
    unfold def_bat_offset
    omega)
  rw [create_space_none]
  refine ⟨spaced_start rfl (le_refl _) ?_ ?_ ?_, hfits.blocksize_pos, hfits.block, haligned, ?_⟩
  · dsimp only
    omega
  · rintro i a b ⟨⟩
  · rintro i j a b a' b' - ⟨⟩
  · dsimp only
    rw [List.length_replicate]
    exact dstsize_le hfits.blocksize_pos hfits.table

/-- The two names of a parent. -/
theorem extent_names {sp : Space} {l l' : VHDParentLocator} (h : sp.parentlocator = [l, l']) {i a b : Nat}
    (hi : sp.extent (.locator i) = some (a, b)) :
    i = 0 ∧ a = l.platform_offset ∧ b = l.platform_offset + max l.platform_space l.platform_length ∨
    i = 1 ∧ a = l'.platform_offset ∧ b = l'.platform_offset + max l'.platform_space l'.platform_length := by
  unfold Space.extent at hi
  dsimp only at hi
  rw [h] at hi
  match i, hi with
  | 0, hi =>
    cases hi
    exact Or.inl ⟨rfl, rfl, rfl⟩
  | 1, hi =>
    cases hi
    exact Or.inr ⟨rfl, rfl, rfl⟩

theorem locatorSectors_le (size : Nat) : size ≤ locatorSectors size * sector_size := by
  unfold locatorSectors sector_size
  split <;> omega

theorem create_roomy_some {info : ParentInfo} (hfits : CreateFits dstsize blocksize (some info)) :
    (create dstsize blocksize fast_mode compressed ident (some info)).space.Roomy := by
  have hbatsize := batsizeOf_le hfits.table
  obtain ⟨hrel, habs⟩ := hfits.names info rfl
  obtain ⟨hge, hle, haligned⟩ := nextSector_eq (show def_bat_offset_parent + batsizeOf dstsize blocksize * 4 < 2 ^ 40 by
    unfold def_bat_offset_parent
    omega)
  obtain ⟨nextblock, hnextblock⟩ : ∃ n, nextSector (def_bat_offset_parent + batsizeOf dstsize blocksize * 4) = n := ⟨_, rfl⟩
  rw [hnextblock] at habs hge hle haligned
  obtain ⟨⟨first, next⟩, hnames⟩ : ∃ out, absLocator info.abs_unicodename.length nextblock = out := ⟨_, rfl⟩
  have hsectors := locatorSectors_le info.abs_unicodename.length
  have hbase : def_bat_offset_parent = def_bat_offset + sector_size := rfl
  unfold sector_size at hsectors hle haligned hbase hrel
  -- a short name is before the table, a long one behind it
  have hplaces : next % 512 = 0 ∧ nextblock ≤ next ∧ next < 2 ^ 50 ∧
      (first = def_bat_offset ∧ locatorSectors info.abs_unicodename.length ≤ 1 ∨
        first = nextblock ∧ first + locatorSectors info.abs_unicodename.length * 512 ≤ next) := by
    have hnames' := hnames
    unfold absLocator sector_size at hnames'
    unfold def_bat_offset_parent at hle
    split at hnames'
    · have hsmall : (nextblock + nextblock * 512) % 2 ^ 64 = nextblock + nextblock * 512 := Nat.mod_eq_of_lt (by omega)
      rw [hsmall] at hnames'
      obtain ⟨rfl, rfl⟩ := Prod.mk.inj hnames'
      omega
    · next hshort =>
      obtain ⟨rfl, rfl⟩ := Prod.mk.inj hnames'
      refine ⟨haligned, le_refl _, by omega, Or.inl ⟨rfl, by omega⟩⟩
  obtain ⟨hnextaligned, hnextge, hnextlt, habsplace⟩ := hplaces
  rw [create_space_some info hnextblock hnames]
  have hnextmod : (next + 128 * sector_size) % 2 ^ 64 = next + 65536 := by
    unfold sector_size
    omega
  rw [hnextmod]
  refine ⟨spaced_start rfl ?_ ?_ ?_ ?_, hfits.blocksize_pos, hfits.block, ?_, ?_⟩
  · dsimp only
    omega
  · dsimp only
    omega
  · intro i a b hi
    obtain ⟨-, rfl, rfl⟩ | ⟨-, rfl, rfl⟩ := extent_names rfl hi
    · dsimp only [sector_size]
      omega
    · dsimp only [sector_size]
      omega
  · intro i j a b a' b' hne hi hj
    obtain ⟨rfl, rfl, rfl⟩ | ⟨rfl, rfl, rfl⟩ := extent_names rfl hi
    · obtain ⟨rfl, -, -⟩ | ⟨rfl, rfl, rfl⟩ := extent_names rfl hj
      · exact absurd rfl hne
      · dsimp only [sector_size]
        omega
    · obtain ⟨rfl, rfl, rfl⟩ | ⟨rfl, -, -⟩ := extent_names rfl hj
      · dsimp only [sector_size]
        omega
      · exact absurd rfl hne
  · dsimp only [sector_size]
    omega
  · dsimp only
    rw [List.length_replicate]
    exact dstsize_le hfits.blocksize_pos hfits.table

theorem create_roomy {parent : Option ParentInfo} (hfits : CreateFits dstsize blocksize parent) :
    (create dstsize blocksize fast_mode compressed ident parent).space.Roomy := by
  cases parent with
  | none => exact create_roomy_none hfits
  | some info => exact create_roomy_some hfits

end Create

section Overflow

end Overflow

end VHDFile

end urbackup.vhdfile
