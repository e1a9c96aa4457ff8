import UrBackup.Cbt.Datto
import UrBackup.Cbt.EraDump

namespace urbackup.cbt

open stringtools filedata

section Model

def watoi64 (str : Bytes) : BitVec 64 :=
  os_atoi64 str

inductive XmlLoc
  | Init
  | EraArray
  deriving DecidableEq

/-- What the tags have said so far. -/
structure EraLoop where
  xml_loc : XmlLoc := .Init
  current_era : BitVec 64 := -1
  block_size : BitVec 64 := -1
  hashes : CbtState

variable (io : CbtIO) (hdat_file_era hdat_img_era : BitVec 64)

/-- The end of a tag. An attribute that is missing is empty. -/
def eraNode (l : EraLoop) (xml : XmlNode) : Option EraLoop :=
  let attr (key : Bytes) : Bytes := (xml.xml_node_attrs key).getD []
  if l.xml_loc = .Init ∧ xml.xml_node_name = xmlSuperblock ∧ xml.xml_node_close = false then
    let current_era := watoi64 (attr xmlCurrentEra)
    let block_size := watoi64 (attr xmlBlockSize) * 512
    let current_era := if 0 < current_era.toInt then current_era - 1 else current_era
    if (chunkhash.c_checkpoint_dist : Int) < block_size.toInt then none
    else if block_size = 0 then none
    else if current_era.toInt ≤ 0 then none
    else some { l with current_era, block_size }
  else if xml.xml_node_name = xmlEraArray then
    some { l with xml_loc := if xml.xml_node_close then .Init else .EraArray }
  else if l.xml_loc = .EraArray ∧ xml.xml_node_name = xmlEra then
    if l.current_era.toInt ≤ 0 then none
    else
      let block_nr := watoi64 (attr xmlBlock)
      let block_era := watoi64 (attr xmlEra)
      let cbt_pos := (block_nr * l.block_size).toInt.tdiv chunkhash.c_checkpoint_dist
      (l.hashes.block io cbt_pos (hdat_img_era.toInt ≤ block_era.toInt) (hdat_file_era.toInt ≤ block_era.toInt)).map
        fun hashes => { l with hashes }
  else some l

/-- The loop over the output. It is read in pieces, but only its bytes count. -/
def eraBytes (p : XmlParser) (l : EraLoop) : Bytes → Option EraLoop
  | [] => some l
  | ch :: out =>
    let (p, node_finished) := p.feed ch
    let l := if node_finished then eraNode io hdat_file_era hdat_img_era l p.node else some l
    l.bind (eraBytes p · out)

/-- The commands that are run, and the `.era` files beside the hashes. -/
structure EraEnv where
  dev_file : Bool
  take_metadata_snap : Bool
  era_dump : Option Bytes
  rc : Int
  drop_metadata_snap : Bool
  file_era : Bytes
  img_era : Bytes

structure EraResult where
  hashes : CbtState
  hdat_file_era : BitVec 64
  hdat_img_era : BitVec 64

def finishCbtEra (env : EraEnv) (hdat_file hdat_img : Option Bytes) (shadow_id : Nat) : Option EraResult :=
  let hdat_file_era := if hdat_file.isSome then watoi64 (trim env.file_era) else -1
  let hdat_img_era := if hdat_img.isSome then watoi64 (trim env.img_era) else -1
  if !env.dev_file then none
  else if !env.take_metadata_snap then none
  else
    (writeShadowId io shadow_id hdat_img).bind fun img =>
      env.era_dump.bind fun out =>
        (eraBytes io hdat_file_era hdat_img_era {} { hashes := ⟨img, hdat_file, false, false⟩ } out).bind fun l =>
          if env.rc ≠ 0 then none
          else if !env.drop_metadata_snap then none
          else some ⟨l.hashes, if hdat_file.isSome then l.current_era else hdat_file_era,
            if hdat_img.isSome then l.current_era else hdat_img_era⟩

end Model

section Dump

variable {io : CbtIO} {hdat_file_era hdat_img_era : BitVec 64}

theorem eraBytes_eq (p : XmlParser) (l : EraLoop) (out : Bytes) : eraBytes io hdat_file_era hdat_img_era p l out =
    (p.nodes out).foldlM (eraNode io hdat_file_era hdat_img_era) l := by
  induction out generalizing p l with
  | nil => rfl
  | cons ch out ih =>
    rw [eraBytes, XmlParser.nodes]
    dsimp only
    split
    · simp only [ih, List.foldlM_cons, Option.bind_eq_bind]
    · rw [Option.bind_some, ih]

theorem toInt_ofNat {n : Nat} (h : n < 2 ^ 63) : (BitVec.ofNat 64 n).toInt = n := by
  have hmod : (BitVec.ofNat 64 n).toNat = n := by
    rw [BitVec.toNat_ofNat, Nat.mod_eq_of_lt (by omega)]
  rw [BitVec.toInt_eq_toNat_of_lt (by omega), hmod]

theorem watoi64_digits {n : Nat} (h : n < 2 ^ 63) : watoi64 (digitBytes n) = BitVec.ofNat 64 n := by
  have hconvert : convert (BitVec.ofNat 64 n) = digitBytes n := by
    rw [convert, toInt_ofNat h, if_neg (by omega), Int.natAbs_natCast]
  have hread := @os_atoi64_convert (BitVec.ofNat 64 n) [] (by simp)
  rwa [hconvert, List.append_nil] at hread

/-- The blocks of the listing, with a size in bytes. -/
def eraBlocks (block_size : Nat) (hdat_file_era hdat_img_era : BitVec 64) (blocks : List (Nat × Nat)) : List CbtBlock :=
  blocks.map fun x => ⟨x.1 * block_size / chunkhash.c_checkpoint_dist, hdat_img_era.toInt ≤ x.2, hdat_file_era.toInt ≤ x.2⟩

theorem eraNode_superblock {l : EraLoop} {sectors nr_blocks current_era : Nat} (hloc : l.xml_loc = .Init)
    (hsectors : 0 < sectors) (hsize : sectors * 512 ≤ chunkhash.c_checkpoint_dist) (hpos : 1 < current_era) (hera : current_era < 2 ^ 63) :
    eraNode io hdat_file_era hdat_img_era l
        ⟨false, xmlSuperblock, XmlParser.attrsOf (superblockAttrs sectors nr_blocks current_era) fun _ => none⟩ =
      some { l with current_era := BitVec.ofNat 64 (current_era - 1), block_size := BitVec.ofNat 64 (sectors * 512) } := by
  have hdist : chunkhash.c_checkpoint_dist = 524288 := by decide
  rw [hdist] at hsize
  have hcur : (XmlParser.attrsOf (superblockAttrs sectors nr_blocks current_era) fun _ => none) xmlCurrentEra =
      some (digitBytes current_era) := rfl
  have hblock : (XmlParser.attrsOf (superblockAttrs sectors nr_blocks current_era) fun _ => none) xmlBlockSize =
      some (digitBytes sectors) := rfl
  have hsectors64 : BitVec.ofNat 64 sectors * 512 = BitVec.ofNat 64 (sectors * 512) := by
    rw [BitVec.ofNat_mul]
    rfl
  have hera64 : BitVec.ofNat 64 current_era - 1 = BitVec.ofNat 64 (current_era - 1) := by
    apply BitVec.eq_of_toNat_eq
    rw [BitVec.toNat_sub_of_le (by rw [BitVec.le_def]; simp; omega)]
    simp
    omega
  have hcur_pos : 0 < (BitVec.ofNat 64 current_era).toInt := by
    rw [toInt_ofNat hera]
    omega
  have hnot_large : ¬ (chunkhash.c_checkpoint_dist : Int) < (BitVec.ofNat 64 (sectors * 512)).toInt := by
    rw [toInt_ofNat (by omega), hdist]
    omega
  have hnot_zero : BitVec.ofNat 64 (sectors * 512) ≠ 0 := by
    intro hzero
    have hint := congrArg BitVec.toInt hzero
    have hzero64 : (0 : BitVec 64).toInt = 0 := BitVec.toInt_zero
    rw [toInt_ofNat (by omega), hzero64] at hint
    omega
  have hnot_neg : ¬ (BitVec.ofNat 64 (current_era - 1)).toInt ≤ 0 := by
    rw [toInt_ofNat (by omega)]
    omega
  simp only [eraNode, hloc, hcur, hblock, Option.getD_some, watoi64_digits hera, watoi64_digits (by omega : sectors < 2 ^ 63),
    hsectors64, if_pos hcur_pos, hera64, if_neg hnot_large, if_neg hnot_zero, if_neg hnot_neg, and_self, if_true]

theorem eraNode_block {l : EraLoop} {block_size b e : Nat} (hloc : l.xml_loc = .EraArray) (hcur : 0 < l.current_era.toInt)
    (hsize : l.block_size = BitVec.ofNat 64 block_size) (hb : b < 2 ^ 63) (he : e < 2 ^ 63) (hpos : b * block_size < 2 ^ 63) :
    eraNode io hdat_file_era hdat_img_era l ⟨false, xmlEra, XmlParser.attrsOf (eraAttrs (b, e)) fun _ => none⟩ =
      (l.hashes.block io (b * block_size / chunkhash.c_checkpoint_dist : Nat) (hdat_img_era.toInt ≤ e) (hdat_file_era.toInt ≤ e)).map
        fun hashes => { l with hashes } := by
  have hblock : (XmlParser.attrsOf (eraAttrs (b, e)) fun _ => none) xmlBlock = some (digitBytes b) := rfl
  have hera : (XmlParser.attrsOf (eraAttrs (b, e)) fun _ => none) xmlEra = some (digitBytes e) := rfl
  have hmul : (BitVec.ofNat 64 b * BitVec.ofNat 64 block_size).toInt = (b * block_size : Nat) := by
    rw [← BitVec.ofNat_mul, toInt_ofNat hpos]
  have hdiv : ((b * block_size : Nat) : Int).tdiv chunkhash.c_checkpoint_dist = (b * block_size / chunkhash.c_checkpoint_dist : Nat) :=
    Int.ofNat_tdiv _ _
  have hnot_super : xmlEra ≠ xmlSuperblock ∧ xmlEra ≠ xmlEraArray := by decide
  simp only [eraNode, hloc, hblock, hera, Option.getD_some, watoi64_digits hb, watoi64_digits he, hsize, hmul, hdiv, toInt_ofNat he,
    hnot_super.1, hnot_super.2, if_neg (not_le.mpr hcur), reduceCtorEq, false_and, if_false, and_self, if_true]

/-- A listing of blocks of a volume with their eras. -/
structure EraListing (volsize block_size : Nat) (blocks : List (Nat × Nat)) : Prop where
  volsize_lt : volsize < 2 ^ 63
  block_size_pos : 0 < block_size
  block_lt : ∀ x ∈ blocks, x.1 * block_size < volsize
  era_lt : ∀ x ∈ blocks, x.2 < 2 ^ 63

theorem eraNodes_run {l : EraLoop} {volsize block_size : Nat} {blocks : List (Nat × Nat)} (hlist : EraListing volsize block_size blocks)
    (hloc : l.xml_loc = .EraArray) (hcur : 0 < l.current_era.toInt) (hsize : l.block_size = BitVec.ofNat 64 block_size) :
    (blocks.map fun x => (⟨false, xmlEra, XmlParser.attrsOf (eraAttrs x) fun _ => none⟩ : XmlNode)).foldlM
        (eraNode io hdat_file_era hdat_img_era) l =
      (CbtState.run io l.hashes (eraBlocks block_size hdat_file_era hdat_img_era blocks)).map fun hashes => { l with hashes } := by
  induction blocks generalizing l with
  | nil => rfl
  | cons x blocks ih =>
    have hlt := hlist.block_lt x List.mem_cons_self
    have hvol := hlist.volsize_lt
    have hle : x.1 ≤ x.1 * block_size := Nat.le_mul_of_pos_right _ hlist.block_size_pos
    have hnode := @eraNode_block io hdat_file_era hdat_img_era _ _ x.1 x.2 hloc hcur
      hsize (by omega) (hlist.era_lt x List.mem_cons_self) (by omega)
    have hrest : EraListing volsize block_size blocks :=
      ⟨hvol, hlist.block_size_pos, fun y hy => hlist.block_lt y (List.mem_cons_of_mem x hy),
        fun y hy => hlist.era_lt y (List.mem_cons_of_mem x hy)⟩
    rw [List.map_cons, List.foldlM_cons, hnode, eraBlocks, List.map_cons, CbtState.run, List.foldlM_cons]
    dsimp only
    cases l.hashes.block io (x.1 * block_size / chunkhash.c_checkpoint_dist : Nat) (hdat_img_era.toInt ≤ x.2)
        (hdat_file_era.toInt ≤ x.2) with
    | none => rfl
    | some hashes => exact ih (l := { l with hashes }) hrest hloc hcur hsize

/-- The loop over the whole output goes through the blocks that are listed in it. -/
theorem eraBytes_eraDump {volsize sectors nr_blocks current_era : Nat} {blocks : List (Nat × Nat)} (s : CbtState)
    (hlist : EraListing volsize (sectors * 512) blocks) (hsize : sectors * 512 ≤ chunkhash.c_checkpoint_dist) (hpos : 1 < current_era)
    (hera : current_era < 2 ^ 63) :
    eraBytes io hdat_file_era hdat_img_era {} { hashes := s } (eraDump sectors nr_blocks current_era blocks) =
      (CbtState.run io s (eraBlocks (sectors * 512) hdat_file_era hdat_img_era blocks)).map fun hashes =>
        ⟨.Init, BitVec.ofNat 64 (current_era - 1), BitVec.ofNat 64 (sectors * 512), hashes⟩ := by
  obtain ⟨attrs, attrs', attrs'', hnodes⟩ := XmlParser.nodes_eraDump sectors nr_blocks current_era blocks
  have hsectors : 0 < sectors := Nat.pos_of_mul_pos_right hlist.block_size_pos
  have hnames : xmlEraArray ≠ xmlSuperblock ∧ xmlSuperblock ≠ xmlEraArray ∧ xmlSuperblock ≠ xmlEra := by decide
  have hopen (l : EraLoop) : eraNode io hdat_file_era hdat_img_era l ⟨false, xmlEraArray, attrs⟩ = some { l with xml_loc := .EraArray } := by
    simp [eraNode, hnames]
  have hclose (l : EraLoop) : eraNode io hdat_file_era hdat_img_era l ⟨true, xmlEraArray, attrs'⟩ = some { l with xml_loc := .Init } := by
    simp [eraNode, hnames]
  have hend (l : EraLoop) : eraNode io hdat_file_era hdat_img_era l ⟨true, xmlSuperblock, attrs''⟩ = some l := by
    simp [eraNode, hnames]
  have hcur : 0 < (BitVec.ofNat 64 (current_era - 1)).toInt := by
    rw [toInt_ofNat (by omega)]
    omega
  rw [eraBytes_eq, hnodes, List.cons_append, List.foldlM_cons, eraNode_superblock rfl hsectors hsize hpos hera]
  have hrun := @eraNodes_run io hdat_file_era hdat_img_era
    ⟨.EraArray, BitVec.ofNat 64 (current_era - 1), BitVec.ofNat 64 (sectors * 512), s⟩ _ _ _ hlist rfl hcur rfl
  simp only [Option.bind_eq_bind, Option.bind_some, List.cons_append, List.foldlM_cons, hopen, List.foldlM_append, hrun,
    List.foldlM_nil, hclose, hend, Option.pure_def]
  cases CbtState.run io s (eraBlocks (sectors * 512) hdat_file_era hdat_img_era blocks) with
  | none => rfl
  | some hashes => rfl

end Dump

end urbackup.cbt
