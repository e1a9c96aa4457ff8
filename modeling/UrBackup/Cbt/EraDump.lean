import UrBackup.FileList.StringTools

namespace urbackup.cbt

open stringtools

section Model

inductive XmlState
  | Text
  | NodeName1
  | NodeNameX
  | NodeAttrKey
  | NodeAttrValueQuote
  | NodeAttrValue
  deriving DecidableEq

/-- A tag as the loop sees it at its end. A tag without attributes still has those of the
tag before. -/
structure XmlNode where
  xml_node_close : Bool
  xml_node_name : Bytes
  xml_node_attrs : StrMap

/-- What the loop over the output of `era_dump` keeps from byte to byte. -/
structure XmlParser where
  xml_state : XmlState := .Text
  node : XmlNode := ⟨false, [], fun _ => none⟩
  xml_node_attr_key : Bytes := []
  xml_node_attr_val : Bytes := []

namespace XmlParser

/-- One byte, and whether it ends a tag. -/
def feed (p : XmlParser) (ch : UInt8) : XmlParser × Bool :=
  match p.xml_state with
  | .Text =>
    if ch = 60 then ({ p with node := { p.node with xml_node_name := [] }, xml_state := .NodeName1 }, false) else (p, false)
  | .NodeName1 =>
    if ch = 47 then ({ p with node := { p.node with xml_node_close := true }, xml_state := .NodeNameX }, false)
    else if ch = 62 then ({ p with xml_state := .Text }, true)
    else
      let xml_node_name := if ch ≠ 32 ∧ ch ≠ 9 then p.node.xml_node_name ++ [ch] else p.node.xml_node_name
      ({ p with node := { p.node with xml_node_close := false, xml_node_name }, xml_state := .NodeNameX }, false)
  | .NodeNameX =>
    if ch = 62 then ({ p with xml_state := .Text }, true)
    else if ch ≠ 32 ∧ ch ≠ 9 then
      ({ p with node := { p.node with xml_node_name := p.node.xml_node_name ++ [ch] } }, false)
    else if p.node.xml_node_name ≠ [] then
      ({ p with node := { p.node with xml_node_attrs := fun _ => none }, xml_state := .NodeAttrKey, xml_node_attr_key := [] }, false)
    else (p, false)
  | .NodeAttrKey =>
    if ch = 62 then ({ p with xml_state := .Text }, true)
    else if ch = 61 then ({ p with xml_state := .NodeAttrValueQuote }, false)
    else if ch ≠ 32 then ({ p with xml_node_attr_key := p.xml_node_attr_key ++ [ch] }, false)
    else (p, false)
  | .NodeAttrValueQuote =>
    if ch = 62 then ({ p with xml_state := .Text }, true)
    else if ch = 34 then ({ p with xml_state := .NodeAttrValue, xml_node_attr_val := [] }, false)
    else (p, false)
  | .NodeAttrValue =>
    if ch ≠ 34 then ({ p with xml_node_attr_val := p.xml_node_attr_val ++ [ch] }, false)
    else
      let xml_node_attrs := Function.update p.node.xml_node_attrs p.xml_node_attr_key (some p.xml_node_attr_val)
      ({ p with node := { p.node with xml_node_attrs }, xml_state := .NodeAttrKey, xml_node_attr_key := [] }, false)

end XmlParser

end Model

section Nodes

namespace XmlParser

variable {p p' p'' : XmlParser} {text : Bytes}

/-- The tags that end in a text, in order. -/
def nodes (p : XmlParser) : Bytes → List XmlNode
  | [] => []
  | ch :: text =>
    let (p, node_finished) := p.feed ch
    if node_finished then p.node :: p.nodes text else p.nodes text

/-- The text leads from one state to another one, with these tags in it. -/
def Reads (p : XmlParser) (text : Bytes) (read : List XmlNode) (p' : XmlParser) : Prop :=
  ∀ rest, p.nodes (text ++ rest) = read ++ p'.nodes rest

theorem reads_nil : p.Reads [] [] p := fun _ => rfl

theorem Reads.trans {text' : Bytes} {read read' : List XmlNode} (h : p.Reads text read p') (h' : p'.Reads text' read' p'') :
    p.Reads (text ++ text') (read ++ read') p'' := by
  intro rest
  rw [List.append_assoc, h, h', List.append_assoc]

theorem Reads.nodes_eq {read : List XmlNode} (h : p.Reads text read p') : p.nodes text = read := by
  simpa [nodes] using h []

theorem reads_byte {ch : UInt8} (h : p.feed ch = (p', false)) : p.Reads [ch] [] p' := by
  intro rest
  simp [nodes, h]

theorem reads_end {ch : UInt8} (h : p.feed ch = (p', true)) : p.Reads [ch] [p'.node] p' := by
  intro rest
  simp [nodes, h]

/-- Nothing happens outside of the tags. -/
theorem reads_text (hstate : p.xml_state = .Text) (htext : (60 : UInt8) ∉ text) : p.Reads text [] p := by
  induction text with
  | nil => exact reads_nil
  | cons ch text ih =>
    obtain ⟨hch, htext⟩ := List.ne_and_not_mem_of_not_mem_cons htext
    have hfeed : p.feed ch = (p, false) := by simp [feed, hstate, hch.symm]
    exact (reads_byte hfeed).trans (ih htext)

/-- Bytes that a name or a key of an attribute can have. -/
def NameChar (ch : UInt8) : Prop :=
  ch ≠ 62 ∧ ch ≠ 61 ∧ ch ≠ 47 ∧ ch ≠ 32 ∧ ch ≠ 9

instance : DecidablePred NameChar := fun _ => inferInstanceAs (Decidable (_ ∧ _))

theorem reads_nameX {name : Bytes} (hstate : p.xml_state = .NodeNameX) (hname : ∀ ch ∈ name, NameChar ch) :
    p.Reads name [] { p with node := { p.node with xml_node_name := p.node.xml_node_name ++ name } } := by
  induction name generalizing p with
  | nil => simpa using reads_nil
  | cons ch name ih =>
    obtain ⟨hend, -, -, hspace, htab⟩ := hname ch List.mem_cons_self
    have hfeed : p.feed ch = ({ p with node := { p.node with xml_node_name := p.node.xml_node_name ++ [ch] } }, false) := by
      simp [feed, hstate, hend, hspace, htab]
    have hrest := ih (p := { p with node := { p.node with xml_node_name := p.node.xml_node_name ++ [ch] } }) hstate fun ch hch =>
      hname ch (List.mem_cons_of_mem _ hch)
    simpa using (reads_byte hfeed).trans hrest

theorem reads_key {key : Bytes} (hstate : p.xml_state = .NodeAttrKey) (hkey : ∀ ch ∈ key, NameChar ch) :
    p.Reads key [] { p with xml_node_attr_key := p.xml_node_attr_key ++ key } := by
  induction key generalizing p with
  | nil => simpa using reads_nil
  | cons ch key ih =>
    obtain ⟨hend, heq, -, hspace, -⟩ := hkey ch List.mem_cons_self
    have hfeed : p.feed ch = ({ p with xml_node_attr_key := p.xml_node_attr_key ++ [ch] }, false) := by
      simp [feed, hstate, hend, heq, hspace]
    have hrest := ih (p := { p with xml_node_attr_key := p.xml_node_attr_key ++ [ch] }) hstate fun ch hch =>
      hkey ch (List.mem_cons_of_mem _ hch)
    simpa using (reads_byte hfeed).trans hrest

theorem reads_val {val : Bytes} (hstate : p.xml_state = .NodeAttrValue) (hval : (34 : UInt8) ∉ val) :
    p.Reads val [] { p with xml_node_attr_val := p.xml_node_attr_val ++ val } := by
  induction val generalizing p with
  | nil => simpa using reads_nil
  | cons ch val ih =>
    obtain ⟨hch, hval⟩ := List.ne_and_not_mem_of_not_mem_cons hval
    have hfeed : p.feed ch = ({ p with xml_node_attr_val := p.xml_node_attr_val ++ [ch] }, false) := by
      simp [feed, hstate, hch.symm]
    have hrest := ih (p := { p with xml_node_attr_val := p.xml_node_attr_val ++ [ch] }) hstate hval
    simpa using (reads_byte hfeed).trans hrest

/-- An attribute as `era_dump` writes it. -/
def xmlAttr (attr : Bytes × Bytes) : Bytes :=
  32 :: attr.1 ++ 61 :: 34 :: attr.2 ++ [34]

def attrsOf (attrs : List (Bytes × Bytes)) (map : StrMap) : StrMap :=
  attrs.foldl (fun map attr => Function.update map attr.1 (some attr.2)) map

/-- The key has no byte that ends it, the value none that ends it. -/
def AttrOk (attr : Bytes × Bytes) : Prop :=
  (∀ ch ∈ attr.1, NameChar ch) ∧ (34 : UInt8) ∉ attr.2

theorem feed_open (hstate : p.xml_state = .Text) :
    p.feed 60 = ({ p with node := { p.node with xml_node_name := [] }, xml_state := .NodeName1 }, false) := by
  simp [feed, hstate]

theorem feed_end (hstate : p.xml_state = .NodeNameX ∨ p.xml_state = .NodeAttrKey) :
    p.feed 62 = ({ p with xml_state := .Text }, true) := by
  rcases hstate with hstate | hstate
  · simp [feed, hstate]
  · simp [feed, hstate]

theorem feed_value (hstate : p.xml_state = .NodeAttrValue) :
    p.feed 34 = ({ p with
      node := { p.node with xml_node_attrs := Function.update p.node.xml_node_attrs p.xml_node_attr_key (some p.xml_node_attr_val) }
      xml_state := .NodeAttrKey
      xml_node_attr_key := [] }, false) := by
  simp [feed, hstate]

theorem reads_attr {attr : Bytes × Bytes} (hattr : AttrOk attr) (hstate : p.xml_state = .NodeAttrKey) (hkey : p.xml_node_attr_key = []) :
    ∃ p', p.Reads (xmlAttr attr) [] p' ∧ p'.xml_state = .NodeAttrKey ∧ p'.xml_node_attr_key = [] ∧
      p'.node = { p.node with xml_node_attrs := Function.update p.node.xml_node_attrs attr.1 (some attr.2) } := by
  have hspace : p.feed 32 = (p, false) := by simp [feed, hstate]
  have hread := (reads_byte hspace).trans (reads_key hstate hattr.1)
  rw [hkey, List.nil_append] at hread
  have hequal := hread.trans (@reads_byte _ { p with xml_node_attr_key := attr.1, xml_state := .NodeAttrValueQuote } 61
    (by simp [feed, hstate]))
  have hquote := hequal.trans (@reads_byte _
    { p with xml_node_attr_key := attr.1, xml_node_attr_val := [], xml_state := .NodeAttrValue } 34 (by simp [feed]))
  have hend := (hquote.trans (reads_val rfl hattr.2)).trans (reads_byte (feed_value rfl))
  exact ⟨_, by simpa [xmlAttr] using hend, rfl, rfl, rfl⟩

theorem reads_attrs {attrs : List (Bytes × Bytes)} (hattrs : ∀ attr ∈ attrs, AttrOk attr) (hstate : p.xml_state = .NodeAttrKey)
    (hkey : p.xml_node_attr_key = []) :
    ∃ p', p.Reads (attrs.flatMap xmlAttr) [] p' ∧ p'.xml_state = .NodeAttrKey ∧
      p'.node = { p.node with xml_node_attrs := attrsOf attrs p.node.xml_node_attrs } := by
  induction attrs generalizing p with
  | nil => exact ⟨p, reads_nil, hstate, rfl⟩
  | cons attr attrs ih =>
    obtain ⟨p₁, hread, hstate, hkey, hnode⟩ := reads_attr (hattrs attr List.mem_cons_self) hstate hkey
    obtain ⟨p₂, hrest, hstate, hnode'⟩ := ih (fun attr hattr => hattrs attr (List.mem_cons_of_mem _ hattr)) hstate hkey
    refine ⟨p₂, hread.trans hrest, hstate, ?_⟩
    rw [hnode', hnode]
    rfl

theorem reads_name {name : Bytes} (hne : name ≠ []) (hname : ∀ ch ∈ name, NameChar ch) (hstate : p.xml_state = .Text) :
    p.Reads (60 :: name) [] { p with node := { p.node with xml_node_close := false, xml_node_name := name }, xml_state := .NodeNameX } := by
  cases name with
  | nil => exact absurd rfl hne
  | cons ch name =>
    obtain ⟨hend, -, hclose, hspace, htab⟩ := hname ch List.mem_cons_self
    have hfirst := (reads_byte (feed_open hstate)).trans (@reads_byte _
      { p with node := { p.node with xml_node_close := false, xml_node_name := [ch] }, xml_state := .NodeNameX } ch
      (by simp [feed, hend, hclose, hspace, htab]))
    exact hfirst.trans (reads_nameX rfl fun ch hch => hname ch (List.mem_cons_of_mem _ hch))

/-- A tag without attributes. -/
theorem reads_open {name : Bytes} (hne : name ≠ []) (hname : ∀ ch ∈ name, NameChar ch) (hstate : p.xml_state = .Text) :
    ∃ p', p'.xml_state = .Text ∧ p.Reads (60 :: name ++ [62]) [⟨false, name, p.node.xml_node_attrs⟩] p' :=
  ⟨_, rfl, (reads_name hne hname hstate).trans (reads_end (feed_end (Or.inl rfl)))⟩

theorem reads_close {name : Bytes} (hname : ∀ ch ∈ name, NameChar ch) (hstate : p.xml_state = .Text) :
    ∃ p', p'.xml_state = .Text ∧ p.Reads (60 :: 47 :: name ++ [62]) [⟨true, name, p.node.xml_node_attrs⟩] p' := by
  have hslash := (reads_byte (feed_open hstate)).trans (@reads_byte _
    { p with node := { p.node with xml_node_close := true, xml_node_name := [] }, xml_state := .NodeNameX } 47 (by simp [feed]))
  have hread := hslash.trans (reads_nameX rfl hname)
  exact ⟨_, rfl, hread.trans (reads_end (feed_end (Or.inl rfl)))⟩

/-- A tag with attributes, which may close itself. -/
theorem reads_tag {name close : Bytes} {attrs : List (Bytes × Bytes)} (hne : name ≠ []) (hname : ∀ ch ∈ name, NameChar ch)
    (hsome : attrs ≠ []) (hattrs : ∀ attr ∈ attrs, AttrOk attr) (hclose : close = [] ∨ close = [47]) (hstate : p.xml_state = .Text) :
    ∃ p', p'.xml_state = .Text ∧
      p.Reads (60 :: name ++ attrs.flatMap xmlAttr ++ close ++ [62]) [⟨false, name, attrsOf attrs fun _ => none⟩] p' := by
  have hread := reads_name hne hname hstate
  generalize hp₁ : { p with node := { p.node with xml_node_close := false, xml_node_name := name }, xml_state := .NodeNameX } = p₁ at hread
  obtain ⟨p₂, hread₂, hstate₂, hnode₂⟩ := reads_attrs
    (p := { p₁ with node := { p₁.node with xml_node_attrs := fun _ => none }, xml_state := .NodeAttrKey, xml_node_attr_key := [] })
    hattrs rfl rfl
  -- the blank before the first attribute is read twice: it ends the name, and is passed over
  have hattrs : p₁.Reads (attrs.flatMap xmlAttr) [] p₂ := by
    obtain ⟨attr, attrs, rfl⟩ := List.exists_cons_of_ne_nil hsome
    intro rest
    rw [← hread₂ rest, ← hp₁]
    simp [xmlAttr, nodes, feed, hne]
  have hend : ∃ p₃, p₃.xml_state = .NodeAttrKey ∧ p₃.node = p₂.node ∧ p₂.Reads close [] p₃ := by
    rcases hclose with rfl | rfl
    · exact ⟨p₂, hstate₂, rfl, reads_nil⟩
    · refine ⟨{ p₂ with xml_node_attr_key := p₂.xml_node_attr_key ++ [47] }, hstate₂, rfl, reads_byte ?_⟩
      simp [feed, hstate₂]
  obtain ⟨p₃, hstate₃, hnode₃, hread₃⟩ := hend
  refine ⟨{ p₃ with xml_state := .Text }, rfl, ?_⟩
  have hall := ((hread.trans hattrs).trans hread₃).trans (reads_end (feed_end (Or.inr hstate₃)))
  have hnode : p₃.node = ⟨false, name, attrsOf attrs fun _ => none⟩ := by
    rw [hnode₃, hnode₂, ← hp₁]
  simpa [hnode] using hall

end XmlParser

end Nodes

section Dump

open XmlParser

/-- `superblock` -/
def xmlSuperblock : Bytes := [115, 117, 112, 101, 114, 98, 108, 111, 99, 107]

/-- `uuid` -/
def xmlUuid : Bytes := [117, 117, 105, 100]

/-- `block_size` -/
def xmlBlockSize : Bytes := [98, 108, 111, 99, 107, 95, 115, 105, 122, 101]

/-- `nr_blocks` -/
def xmlNrBlocks : Bytes := [110, 114, 95, 98, 108, 111, 99, 107, 115]

/-- `current_era` -/
def xmlCurrentEra : Bytes := [99, 117, 114, 114, 101, 110, 116, 95, 101, 114, 97]

/-- `era_array` -/
def xmlEraArray : Bytes := [101, 114, 97, 95, 97, 114, 114, 97, 121]

/-- `era` -/
def xmlEra : Bytes := [101, 114, 97]

/-- `block` -/
def xmlBlock : Bytes := [98, 108, 111, 99, 107]

def superblockAttrs (block_size nr_blocks current_era : Nat) : List (Bytes × Bytes) :=
  [(xmlUuid, []), (xmlBlockSize, digitBytes block_size), (xmlNrBlocks, digitBytes nr_blocks), (xmlCurrentEra, digitBytes current_era)]

def eraAttrs (x : Nat × Nat) : List (Bytes × Bytes) :=
  [(xmlBlock, digitBytes x.1), (xmlEra, digitBytes x.2)]

/-- A line for a block and its era. -/
def eraLine (x : Nat × Nat) : Bytes :=
  [32, 32, 32, 32] ++ (60 :: xmlEra ++ (eraAttrs x).flatMap xmlAttr ++ [47] ++ [62]) ++ [10]

/-- What `era_dump --logical` prints. Block sizes are in sectors. -/
def eraDump (block_size nr_blocks current_era : Nat) (blocks : List (Nat × Nat)) : Bytes :=
  (60 :: xmlSuperblock ++ (superblockAttrs block_size nr_blocks current_era).flatMap xmlAttr ++ [] ++ [62]) ++ [10, 32, 32] ++
    (60 :: xmlEraArray ++ [62]) ++ [10] ++ blocks.flatMap eraLine ++ [32, 32] ++ (60 :: 47 :: xmlEraArray ++ [62]) ++ [10] ++
      (60 :: 47 :: xmlSuperblock ++ [62]) ++ [10]

namespace XmlParser

variable {p : XmlParser}

theorem attrOk_number {key : Bytes} (hkey : ∀ ch ∈ key, NameChar ch) (n : Nat) : AttrOk (key, digitBytes n) := by
  refine ⟨hkey, fun hmem => ?_⟩
  have hdigit := isDigit_digitBytes n _ hmem
  exact absurd hdigit (by decide)

theorem reads_eraLines (hstate : p.xml_state = .Text) (blocks : List (Nat × Nat)) :
    ∃ p', p'.xml_state = .Text ∧
      p.Reads (blocks.flatMap eraLine) (blocks.map fun x => ⟨false, xmlEra, attrsOf (eraAttrs x) fun _ => none⟩) p' := by
  induction blocks generalizing p with
  | nil => exact ⟨p, hstate, reads_nil⟩
  | cons x blocks ih =>
    have hattrs : ∀ attr ∈ eraAttrs x, AttrOk attr := by
      intro attr hmem
      simp only [eraAttrs, List.mem_cons, List.not_mem_nil, or_false] at hmem
      rcases hmem with rfl | rfl
      · exact attrOk_number (by decide +kernel) _
      · exact attrOk_number (by decide +kernel) _
    have hindent := @reads_text _ [32, 32, 32, 32] hstate (by decide)
    obtain ⟨p₁, hstate₁, htag⟩ := @reads_tag _ xmlEra _ _ (by decide +kernel) (by decide +kernel)
      (by simp [eraAttrs]) hattrs (Or.inr rfl) hstate
    have hline := (hindent.trans htag).trans (@reads_text _ [10] hstate₁ (by decide))
    obtain ⟨p₂, hstate₂, hrest⟩ := ih hstate₁
    exact ⟨p₂, hstate₂, by simpa [eraLine] using hline.trans hrest⟩

/-- The tags of the output: the superblock, and the blocks with their eras between the
tags of the array. -/
theorem nodes_eraDump (block_size nr_blocks current_era : Nat) (blocks : List (Nat × Nat)) : ∃ attrs attrs' attrs'',
    XmlParser.nodes {} (eraDump block_size nr_blocks current_era blocks) =
      ⟨false, xmlSuperblock, attrsOf (superblockAttrs block_size nr_blocks current_era) fun _ => none⟩ :: ⟨false, xmlEraArray, attrs⟩ ::
        blocks.map (fun x => ⟨false, xmlEra, attrsOf (eraAttrs x) fun _ => none⟩) ++
          [⟨true, xmlEraArray, attrs'⟩, ⟨true, xmlSuperblock, attrs''⟩] := by
  have hattrs : ∀ attr ∈ superblockAttrs block_size nr_blocks current_era, AttrOk attr := by
    intro attr hmem
    simp only [superblockAttrs, List.mem_cons, List.not_mem_nil, or_false] at hmem
    rcases hmem with rfl | rfl | rfl | rfl
    · exact ⟨by decide +kernel, by decide +kernel⟩
    · exact attrOk_number (by decide +kernel) _
    · exact attrOk_number (by decide +kernel) _
    · exact attrOk_number (by decide +kernel) _
  obtain ⟨p₁, hstate₁, hsuper⟩ := @reads_tag {} xmlSuperblock _ _
    (by decide +kernel) (by decide +kernel) (by simp [superblockAttrs]) hattrs (Or.inl rfl) rfl
  obtain ⟨p₂, hstate₂, harray⟩ := @reads_open _ xmlEraArray (by decide +kernel) (by decide +kernel) hstate₁
  obtain ⟨p₃, hstate₃, hlines⟩ := reads_eraLines hstate₂ blocks
  obtain ⟨p₄, hstate₄, hclose⟩ := @reads_close _ xmlEraArray (by decide +kernel) hstate₃
  obtain ⟨p₅, hstate₅, hend⟩ := @reads_close _ xmlSuperblock (by decide +kernel) hstate₄
  have hopen := ((hsuper.trans (@reads_text _ [10, 32, 32] hstate₁ (by decide))).trans harray).trans
    (@reads_text _ [10] hstate₂ (by decide))
  have hbody := ((hopen.trans hlines).trans (@reads_text _ [32, 32] hstate₃ (by decide))).trans hclose
  have hall := ((hbody.trans (@reads_text _ [10] hstate₄ (by decide))).trans hend).trans
    (@reads_text _ [10] hstate₅ (by decide))
  refine ⟨p₁.node.xml_node_attrs, p₃.node.xml_node_attrs, p₄.node.xml_node_attrs, hall.nodes_eq.trans ?_⟩
  simp

end XmlParser

end Dump

end urbackup.cbt
