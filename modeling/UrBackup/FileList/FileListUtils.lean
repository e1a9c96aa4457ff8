import Mathlib.Data.List.TakeWhile
import UrBackup.FileList.StringTools
import UrBackup.TreeDiff.GatherDiffs

namespace urbackup.filelist

open stringtools treediff

/-- The fields of `SFile` that a file list carries. -/
structure SFile where
  name : Bytes
  size : BitVec 64
  last_modified : BitVec 64
  isdir : Bool
deriving DecidableEq

/-- The name `..` of the entry that ends a directory. -/
def upName : Bytes := [46, 46]

def escapeListName (listname : Bytes) : Bytes :=
  listname.flatMap fun ch => if ch = 34 then [92, 34] else if ch = 92 then [92, 92] else [ch]

/-- The bytes `writeFileItem(f, cf)` appends to the list. -/
def writeFileItem (cf : SFile) : Bytes :=
  if cf.isdir then
    if cf.name ≠ upName then
      [100, 34] ++ escapeListName cf.name ++ [34, 32, 48, 32] ++ convert cf.last_modified ++ [10]
    else [117, 10]
  else
    [102, 34] ++ escapeListName cf.name ++ [34, 32] ++ convert cf.size ++ [32] ++
      convert cf.last_modified ++ [10]

/-- `if(!extra.empty() && extra[0]=='&') extra[0]='#'`. -/
def markExtra : Bytes → Bytes
  | 38 :: params => 35 :: params
  | extra => extra

/-- The bytes `writeFileItem(f, cf, extra)` appends to the list. -/
def writeFileItemExtra (cf : SFile) (extra : Bytes) : Bytes :=
  let extra := markExtra extra
  if cf.isdir then
    if cf.name ≠ upName then
      [100, 34] ++ escapeListName cf.name ++ [34, 32, 48, 32] ++ convert cf.last_modified ++ extra ++ [10]
    else [117, 10]
  else
    [102, 34] ++ escapeListName cf.name ++ [34, 32] ++ convert cf.size ++ [32] ++
      convert cf.last_modified ++ extra ++ [10]

inductive ParseState where
  | Type
  | TypeFinish
  | Quote
  | Name
  | NameEscape
  | NameFinish
  | Filesize
  | ModifiedTime
  | ExtraParams
deriving DecidableEq, Repr

/-- The parser between two bytes. Its third member `pos` only feeds the texts
of log messages. -/
structure FileListParser where
  state : ParseState
  t_name : Bytes
deriving DecidableEq

/-- `FileListParser::reset`, which is also the state after construction. -/
def FileListParser.reset : FileListParser :=
  ⟨.Type, []⟩

/-- What a call of `nextEntry` leaves behind: the parser, the caller's `data`
and `extra`, and the returned flag. -/
structure NextEntry where
  parser : FileListParser
  data : SFile
  extra : StrMap
  found : Bool

/-- An entry is complete and came without extra parameters. -/
def NextEntry.done (data : SFile) : NextEntry :=
  ⟨.reset, data, fun _ => none, true⟩

/-- `nextEntry` with a non-null `extra`. A byte that no case expects leaves the
parser where it is (the source logs an error). -/
def FileListParser.nextEntry (p : FileListParser) (ch : UInt8) (data : SFile) (extra : StrMap) :
    NextEntry :=
  match p.state with
  | .Type =>
    if ch = 102 then ⟨{ p with state := .Quote }, { data with isdir := false }, extra, false⟩
    else if ch = 100 then ⟨{ p with state := .Quote }, { data with isdir := true }, extra, false⟩
    else if ch = 117 then ⟨{ p with state := .TypeFinish }, { data with isdir := true }, extra, false⟩
    else ⟨p, data, extra, false⟩
  | .TypeFinish =>
    if ch = 10 then .done { data with name := upName, last_modified := 0, size := 0 }
    else ⟨p, data, extra, false⟩
  | .Quote => ⟨{ p with state := .Name }, data, extra, false⟩
  | .NameFinish =>
    if ch ≠ 34 then
      let data := { data with name := p.t_name.dropLast }
      if data.isdir && data.name = upName then
        let data := { data with last_modified := 0, size := 0 }
        if ch = 10 then .done data else ⟨⟨.ExtraParams, []⟩, data, extra, false⟩
      else if data.isdir && ch = 10 then .done { data with last_modified := 0, size := 0 }
      else ⟨⟨.Filesize, []⟩, data, extra, false⟩
    else ⟨⟨.Name, p.t_name ++ [ch]⟩, data, extra, false⟩
  | .Name =>
    if ch = 34 then ⟨⟨.NameFinish, p.t_name ++ [ch]⟩, data, extra, false⟩
    else if ch = 92 then ⟨{ p with state := .NameEscape }, data, extra, false⟩
    else ⟨{ p with t_name := p.t_name ++ [ch] }, data, extra, false⟩
  | .NameEscape =>
    let t_name := if ch ≠ 34 && ch ≠ 92 then p.t_name ++ [92] else p.t_name
    ⟨⟨.Name, t_name ++ [ch]⟩, data, extra, false⟩
  | .Filesize =>
    if ch ≠ 32 then ⟨{ p with t_name := p.t_name ++ [ch] }, data, extra, false⟩
    else ⟨⟨.ModifiedTime, []⟩, { data with size := os_atoi64 p.t_name }, extra, false⟩
  | .ModifiedTime =>
    if ch ≠ 10 && ch ≠ 35 then ⟨{ p with t_name := p.t_name ++ [ch] }, data, extra, false⟩
    else
      let data := { data with last_modified := os_atoi64 p.t_name }
      if ch = 10 then .done data else ⟨⟨.ExtraParams, []⟩, data, extra, false⟩
  | .ExtraParams =>
    if ch ≠ 10 then ⟨{ p with t_name := p.t_name ++ [ch] }, data, extra, false⟩
    else ⟨.reset, data, ParseParamStrHttp p.t_name (fun _ => none) false, true⟩

/-- An entry as the walk over a list sees it: how many bytes were consumed when
it was complete, its line number, and the parsed data. -/
structure WalkEntry where
  consumed : Nat
  line : Nat
  data : SFile
  extra : StrMap

/-- The state of the walk of `IncrFileBackup::doFileBackup` over the list. -/
structure Walk where
  parser : FileListParser
  cf : SFile
  consumed : Nat
  line : Nat
  entries : List WalkEntry

def Walk.start : Walk :=
  ⟨.reset, ⟨[], 0, 0, false⟩, 0, 0, []⟩

/-- The body of the inner loop: `extra_params` is fresh for every byte, and
every entry counts as one line whatever the backup does with it. -/
def Walk.step (w : Walk) (ch : UInt8) : Walk :=
  let next := w.parser.nextEntry ch w.cf fun _ => none
  if next.found then
    { parser := next.parser, cf := next.data, consumed := w.consumed + 1, line := w.line + 1
      entries := w.entries ++ [⟨w.consumed + 1, w.line, next.data, next.extra⟩] }
  else { w with parser := next.parser, cf := next.data, consumed := w.consumed + 1 }

/-- The walk over the buffers that successive reads returned. -/
def walk (buffers : List Bytes) : Walk :=
  buffers.foldl (fun w buffer => buffer.foldl Walk.step w) .start

/-- The `int state` of both passes, in the order of its numbers 0, 1, 2, 3, 4,
5 and 10. -/
inductive ReadPhase where
  | type
  | quote
  | name
  | nameFinish
  | data
  | escape
  | lineEnd
deriving DecidableEq, Repr

/-- A slot of the `nodes` vector; pointers into it are indices. -/
structure Node where
  name : CString
  id : Nat
  data : NodeData
  parent : Option Nat
  nextSibling : Option Nat
  num_children : Nat

/-- `TreeNode()`; its null `name` reads as the empty string. -/
def Node.empty : Node :=
  ⟨⟨[], by simp⟩, 0, .root, none, none, 0⟩

/-- What a `const char*` to the copied bytes reads as. -/
def cString (name : Bytes) : CString :=
  ⟨name.takeWhile (· != 0), fun h => by simpa using List.mem_takeWhile_imp h⟩

/-- What both passes do with a byte inside a name: `ch` is the byte, and the
result the next phase and the name. `none` outside names. -/
def nameByte (phase : ReadPhase) (name : Bytes) (ch : UInt8) : Option (ReadPhase × Bytes) :=
  match phase with
  | .quote => some (.name, name)
  | .name =>
    if ch = 34 then some (.nameFinish, name)
    else if ch = 92 then some (.escape, name)
    else some (.name, name ++ [ch])
  | .escape =>
    let name := if ch ≠ 34 && ch ≠ 92 then name ++ [92] else name
    some (.name, name ++ [ch])
  | _ => none

/-- The first pass: it sizes the node vector and the string buffer. -/
structure CountState where
  phase : ReadPhase
  lines : Nat
  stringbuffer_size : Nat
  name : Bytes
  ltype : UInt8

/-- The case for phase 10, which phases 3 and 4 fall through to. -/
def CountState.lineEnd (st : CountState) (ch : UInt8) : CountState :=
  if ch = 10 then
    let size := if st.ltype = 102 then st.stringbuffer_size + 2 * 8 else st.stringbuffer_size
    if st.ltype ≠ 100 ∨ st.name ≠ upName then
      let size := if st.ltype = 100 then size + 8 else size
      ⟨.type, st.lines + 1, size + (st.name.length + 1), [], 0⟩
    else ⟨.type, st.lines, size, [], 0⟩
  else st

/-- One byte of the first pass, `none` where it returns false. -/
def CountState.step (st : CountState) (ch : UInt8) : Option CountState :=
  match st.phase with
  | .type =>
    if ch = 102 ∨ ch = 100 then some { st with ltype := ch, phase := .quote }
    else if ch = 117 then some { st with phase := .lineEnd, ltype := 100, name := upName }
    else none
  | .nameFinish =>
    if ch = 32 then some { st with phase := .data } else some ({ st with phase := .lineEnd }.lineEnd ch)
  | .data => if ch ≠ 10 then some st else some (st.lineEnd ch)
  | .lineEnd => some (st.lineEnd ch)
  | _ => (nameByte st.phase st.name ch).map fun next => { st with phase := next.1, name := next.2 }

/-- The second pass: it fills the nodes. -/
structure BuildState where
  phase : ReadPhase
  name : Bytes
  data : Bytes
  parents : List Nat
  lastNodes : List Nat
  firstChild : Bool
  idx : Nat
  stringbuffer_pos : Nat
  lines : Nat
  nodes : List Node

/-- The record behind a line: its type character and the numbers. `none` stands
for the exception of `data.substr(1)` on an empty string; no other type
character is ever put in front. -/
def parseData (data : Bytes) : Option NodeData :=
  match data with
  | 102 :: sdata => some (.file (os_atoi64 (getuntil 32 sdata)) (os_atoi64 (getafter 32 sdata)))
  | 100 :: sdata => some (.dir (os_atoi64 (getafter 32 sdata)))
  | _ => none

/-- The bytes of a record in the string buffer. -/
def dataSize : NodeData → Nat
  | .file _ _ => 16
  | .dir _ => 8
  | .root => 0

/-- A line of its own node. Writing past the vector or the buffer, and `top` or
`pop` on an empty stack, count as failure. -/
def BuildState.addNode (st : BuildState) (total : Nat) : Option BuildState := do
  let data ← parseData st.data
  let stringbuffer_pos := st.stringbuffer_pos + (st.name.length + 1) + dataSize data
  if st.idx < st.nodes.length ∧ stringbuffer_pos ≤ total then
    let node : Node := { Node.empty with name := cString st.name, id := st.lines, data }
    let nodes := st.nodes.set st.idx node
    let (nodes, lastNodes) ←
      if st.firstChild then some (nodes, st.idx :: st.lastNodes)
      else match st.lastNodes with
        | last :: rest => some (nodes.modify last ({ · with nextSibling := some st.idx }), st.idx :: rest)
        | [] => none
    let nodes := match st.parents with
      | parent :: _ =>
        (nodes.modify parent fun n => { n with num_children := n.num_children + 1 }).modify st.idx
          ({ · with parent := some parent })
      | [] => nodes
    let isdir := data.getType == .dir
    some { st with
      nodes, lastNodes, stringbuffer_pos
      parents := if isdir then st.idx :: st.parents else st.parents
      firstChild := isdir
      idx := st.idx + 1 }
  else none

/-- A `..` line. -/
def BuildState.closeDir (st : BuildState) : Option BuildState :=
  match st.parents with
  | [] => none
  | _ :: parents =>
    if st.firstChild then some { st with parents, firstChild := false }
    else match st.lastNodes with
      | [] => none
      | last :: lastNodes => some { st with
          parents, lastNodes, firstChild := false
          nodes := st.nodes.modify last ({ · with nextSibling := none }) }

/-- The case for phase 10 of the second pass; `total` is the buffer's size. -/
def BuildState.lineEnd (st : BuildState) (total : Nat) (ch : UInt8) : Option BuildState :=
  if ch = 10 then do
    let st ← if st.name ≠ upName then st.addNode total else st.closeDir
    some { st with name := [], data := [], phase := .type, lines := st.lines + 1 }
  else some st

/-- One byte of the second pass. -/
def BuildState.step (total : Nat) (st : BuildState) (ch : UInt8) : Option BuildState :=
  match st.phase with
  | .type =>
    if ch = 102 ∨ ch = 100 then some { st with data := st.data ++ [ch], phase := .quote }
    else if ch = 117 then some { st with name := upName, phase := .lineEnd }
    else none
  | .nameFinish =>
    if ch = 32 then some { st with phase := .data } else { st with phase := .lineEnd }.lineEnd total ch
  | .data => if ch ≠ 10 then some { st with data := st.data ++ [ch] } else st.lineEnd total ch
  | .lineEnd => st.lineEnd total ch
  | _ => (nameByte st.phase st.name ch).map fun next => { st with phase := next.1, name := next.2 }

/-- The size of the read buffer. -/
def bufferSize : Nat := 512 * 1024

/-- The loop of the first pass over a file with the given rest. A read returns
the whole buffer as long as the file has that much; the loop ends with the
first empty read. -/
def countLoop (rest : Bytes) (st : CountState) : Option CountState :=
  match (rest.take bufferSize).foldlM CountState.step st with
  | none => none
  | some st => if rest = [] then some st else countLoop (rest.drop bufferSize) st
termination_by rest.length
decreasing_by
  have : 0 < rest.length := by
    cases rest <;> simp_all
  simp only [List.length_drop, bufferSize]
  omega

/-- The loop of the second pass, which ends with the first short read. -/
def buildLoop (total : Nat) (rest : Bytes) (st : BuildState) : Option BuildState :=
  match (rest.take bufferSize).foldlM (BuildState.step total) st with
  | none => none
  | some st =>
    if (rest.take bufferSize).length = bufferSize then buildLoop total (rest.drop bufferSize) st
    else some st
termination_by rest.length
decreasing_by
  simp only [List.length_take, List.length_drop, bufferSize] at *
  omega

/-- The text "root". -/
def rootName : Bytes := [114, 111, 111, 116]

/-- `readTree` on the contents of the list: the node vector, or `none` where
the source returns false or one of its assertions fails. -/
def readTree (file : Bytes) : Option (List Node) := do
  let count ← countLoop file ⟨.type, 0, 0, [], 0⟩
  let total := count.stringbuffer_size + 5
  let nodes := (List.replicate (count.lines + 1) Node.empty).set 0 { Node.empty with name := cString rootName }
  let st ← buildLoop total file
    { phase := .type, name := [], data := [], parents := [0], lastNodes := [0], firstChild := true
      idx := 1, stringbuffer_pos := rootName.length + 1, lines := 0, nodes }
  if st.idx = st.nodes.length ∧ st.stringbuffer_pos = total then
    some (st.nodes.modify 0 ({ · with nextSibling := none }))
  else none

end urbackup.filelist
