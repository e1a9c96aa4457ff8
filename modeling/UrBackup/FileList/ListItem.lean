import UrBackup.FileList.FileListUtils

namespace urbackup.filelist

open stringtools treediff

/-- A name as a directory listing returns it: a C string other than `..`. -/
structure FileName where
  bytes : Bytes
  nul_free : 0 ∉ bytes
  not_up : bytes ≠ upName

/-- An extra parameter. Keys are written as they are and end with `=`; values
are escaped and may hold any byte. -/
structure Param where
  key : Bytes
  value : Bytes
  key_nonempty : key ≠ []
  no_assign : 61 ∉ key
  no_newline : 10 ∉ key

/-- The text of a parameter, as callers of `writeFileItem` put it together. -/
def Param.text (p : Param) : Bytes :=
  38 :: (p.key ++ 61 :: EscapeParamString p.value)

structure ExtraParams where
  params : List Param
  distinct : (params.map Param.key).Nodup

def ExtraParams.text (extra : ExtraParams) : Bytes :=
  extra.params.flatMap Param.text

/-- The parameters as a map. -/
def ExtraParams.map (extra : ExtraParams) : StrMap := fun key =>
  (extra.params.find? (·.key = key)).map Param.value

/-- An item of a file list; `extra` is `none` where the overload of
`writeFileItem` without extra parameters is called. -/
inductive ListItem where
  | file (name : FileName) (size last_modified : BitVec 64) (extra : Option ExtraParams)
  | dir (name : FileName) (last_modified : BitVec 64) (extra : Option ExtraParams)
  | up

namespace ListItem

/-- The argument `cf` of `writeFileItem`. -/
def sfile : ListItem → SFile
  | file name size last_modified _ => ⟨name.bytes, size, last_modified, false⟩
  | dir name last_modified _ => ⟨name.bytes, 0, last_modified, true⟩
  | up => ⟨upName, 0, 0, true⟩

def extra : ListItem → Option ExtraParams
  | file _ _ _ extra => extra
  | dir _ _ extra => extra
  | up => none

/-- The bytes the item adds to the list. -/
def text (item : ListItem) : Bytes :=
  match item.extra with
  | none => writeFileItem item.sfile
  | some extra => writeFileItemExtra item.sfile extra.text

/-- The item's extra parameters, none of them if it was written without. -/
def params (item : ListItem) : StrMap :=
  match item.extra with
  | none => fun _ => none
  | some extra => extra.map

/-- The item has a node of its own. -/
def isEntry : ListItem → Bool
  | up => false
  | _ => true

/-- The record of the item's node. -/
def nodeData : ListItem → NodeData
  | file _ size last_modified _ => .file size last_modified
  | dir _ last_modified _ => .dir last_modified
  | up => .root

end ListItem

/-- The line numbers of the directories that are open after the given items,
innermost first, together with the number of the next line. -/
def openStep (st : Nat × List Nat) : ListItem → Nat × List Nat
  | .file _ _ _ _ => (st.1 + 1, st.2)
  | .dir _ _ _ => (st.1 + 1, st.1 :: st.2)
  | .up => (st.1 + 1, st.2.tail)

def openDirs (items : List ListItem) : List Nat :=
  (items.foldl openStep (0, [])).2

/-- A properly nested list: every `..` closes a directory. -/
structure FileList where
  items : List ListItem
  nested : ∀ before after, items = before ++ .up :: after → openDirs before ≠ []

namespace FileList

/-- The list as it stands in the file. -/
def text (l : FileList) : Bytes :=
  l.items.flatMap ListItem.text

/-- The length of the file after the item of line `k`. -/
def offsetAfter (l : FileList) (k : Nat) : Nat :=
  ((l.items.take (k + 1)).flatMap ListItem.text).length

/-- The place of a line's item among the nodes. The root comes first, and `..`
lines have no node. -/
def nodeIndex (l : FileList) (k : Nat) : Nat :=
  (l.items.take k).countP ListItem.isEntry + 1

/-- The node of the directory that line `k` stands in. -/
def parentIndex (l : FileList) (k : Nat) : Nat :=
  match openDirs (l.items.take k) with
  | [] => 0
  | d :: _ => l.nodeIndex d

end FileList

/-- The lines of all items but `..` have one shape. -/
def entryText (tag : UInt8) (name : Bytes) (size last_modified : BitVec 64) (tail : Bytes) : Bytes :=
  [tag, 34] ++ escapeListName name ++ [34, 32] ++ convert size ++ [32] ++ convert last_modified ++ tail ++ [10]

/-- What follows the modification time: nothing, or `#` and the parameters. -/
def extraTail : Option ExtraParams → Bytes
  | none => []
  | some extra => markExtra extra.text

theorem convert_zero : convert 0#64 = [48] := by decide

theorem text_file (name : FileName) (size last_modified : BitVec 64) (extra : Option ExtraParams) :
    (ListItem.file name size last_modified extra).text =
      entryText 102 name.bytes size last_modified (extraTail extra) := by
  cases extra <;>
    simp [ListItem.text, ListItem.extra, ListItem.sfile, writeFileItem, writeFileItemExtra, entryText, extraTail]

theorem text_dir (name : FileName) (last_modified : BitVec 64) (extra : Option ExtraParams) :
    (ListItem.dir name last_modified extra).text =
      entryText 100 name.bytes 0 last_modified (extraTail extra) := by
  have hname := name.not_up
  cases extra <;>
    simp [ListItem.text, ListItem.extra, ListItem.sfile, writeFileItem, writeFileItemExtra, entryText, extraTail,
      convert_zero, hname]

theorem text_up : ListItem.up.text = [117, 10] := by
  simp [ListItem.text, ListItem.extra, ListItem.sfile, writeFileItem]

/-- Escaping leaves none of the bytes that structure a line. -/
theorem notMem_EscapeParamString {value : Bytes} {ch : UInt8} (h : ch ∈ EscapeParamString value) :
    ch ≠ 38 ∧ ch ≠ 36 ∧ ch ≠ 10 := by
  obtain ⟨b, _, hb⟩ := List.mem_flatMap.mp h
  unfold escapeParamChar at hb
  repeat' split at hb
  all_goals simp only [List.mem_cons, List.not_mem_nil, or_false] at hb
  all_goals grind

theorem newline_notMem_text (p : Param) : 10 ∉ p.text := by
  have hvalue : 10 ∉ EscapeParamString p.value := fun h => (notMem_EscapeParamString h).2.2 rfl
  simp [Param.text, p.no_newline, hvalue]

/-- The parameters stand behind a `#` on the item's own line. -/
theorem extraTail_cases (extra : Option ExtraParams) :
    extraTail extra = [] ∧ extra.all (·.params = []) ∨
      ∃ p ps hd, extra = some ⟨p :: ps, hd⟩ ∧
        extraTail extra = 35 :: (p.text.tail ++ ps.flatMap Param.text) := by
  cases extra with
  | none => exact Or.inl ⟨rfl, rfl⟩
  | some extra =>
    obtain ⟨params, hd⟩ := extra
    cases params with
    | nil => exact Or.inl ⟨rfl, by simp⟩
    | cons p ps => exact Or.inr ⟨p, ps, hd, rfl, by simp [extraTail, ExtraParams.text, Param.text, markExtra]⟩

end urbackup.filelist
