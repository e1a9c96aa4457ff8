import UrBackup.FileList.ListWalk

namespace urbackup.filelist

open stringtools treediff

/-- Reading in buffers is reading byte by byte, also if the loop goes on until
an empty read. -/
theorem countLoop_eq (rest : Bytes) (st : CountState) : countLoop rest st = rest.foldlM CountState.step st := by
  induction rest, st using countLoop.induct with
  | case1 rest st hnone =>
    rw [countLoop, hnone, ← List.take_append_drop bufferSize rest, List.foldlM_append, hnone]
    rfl
  | case2 st st' hsome =>
    rw [countLoop, hsome]
    simpa using hsome.symm
  | case3 rest st st' hsome hrest ih =>
    rw [countLoop, hsome]
    simp only [hrest, if_false, ih]
    conv_rhs => rw [← List.take_append_drop bufferSize rest, List.foldlM_append, hsome]
    rfl

/-- A short read is the last one. -/
theorem buildLoop_eq (total : Nat) (rest : Bytes) (st : BuildState) :
    buildLoop total rest st = rest.foldlM (BuildState.step total) st := by
  induction rest, st using buildLoop.induct total with
  | case1 rest st hnone =>
    rw [buildLoop, hnone, ← List.take_append_drop bufferSize rest, List.foldlM_append, hnone]
    rfl
  | case2 rest st st' hsome hfull ih =>
    rw [buildLoop, hsome]
    simp only [hfull, if_true, ih]
    conv_rhs => rw [← List.take_append_drop bufferSize rest, List.foldlM_append, hsome]
    rfl
  | case3 rest st st' hsome hshort =>
    have hall : rest.take bufferSize = rest := by
      rw [List.length_take] at hshort
      exact List.take_of_length_le (by omega)
    rw [buildLoop, hsome]
    simp only [hshort, if_false]
    rw [← hsome, hall]

/-- Both passes collect an escaped name unescaped: `set` puts a phase and a
name into the state of the pass. -/
theorem foldlM_name {σ : Type} (step : σ → UInt8 → Option σ) (set : ReadPhase → Bytes → σ)
    (hstep : ∀ phase name ch next, nameByte phase name ch = some next →
      step (set phase name) ch = some (set next.1 next.2)) (name : Bytes) :
    ∀ acc, (escapeListName name).foldlM step (set .name acc) = some (set .name (acc ++ name)) := by
  induction name with
  | nil => simp [escapeListName]
  | cons ch name ih =>
    intro acc
    have hcons : escapeListName (ch :: name) =
        (if ch = 34 then [92, 34] else if ch = 92 then [92, 92] else [ch]) ++ escapeListName name := by
      simp [escapeListName]
    rw [hcons, List.foldlM_append]
    by_cases hescaped : ch = 34 ∨ ch = 92
    · have htext : (if ch = 34 then [92, 34] else if ch = 92 then [92, 92] else [ch]) = [92, ch] := by
        rcases hescaped with rfl | rfl <;> rfl
      have hslash := hstep .name acc 92 (.escape, acc) (by rfl)
      have hchar := hstep .escape acc ch (.name, acc ++ [ch]) (by rcases hescaped with rfl | rfl <;> rfl)
      simp [htext, hslash, hchar, ih]
    · obtain ⟨hquote, hslash⟩ := not_or.mp hescaped
      have hchar := hstep .name acc ch (.name, acc ++ [ch]) (by simp [nameByte, hquote, hslash])
      simp [hquote, hslash, hchar, ih]

/-- What stands between the name and the end of the line. -/
def record (size last_modified : BitVec 64) (tail : Bytes) : Bytes :=
  convert size ++ 32 :: (convert last_modified ++ tail)

theorem entryText_eq (tag : UInt8) (name : Bytes) (size last_modified : BitVec 64) (tail : Bytes) :
    entryText tag name size last_modified tail =
      tag :: 34 :: (escapeListName name ++ 34 :: 32 :: (record size last_modified tail ++ [10])) := by
  simp [entryText, record]

theorem notMem_convert {i : BitVec 64} {ch : UInt8} (hch : ch = 10 ∨ ch = 32) : ch ∉ convert i := by
  intro h
  rcases mem_convert h with hminus | hdigit
  · rcases hch with rfl | rfl <;> simp at hminus
  · rcases hch with rfl | rfl <;> simp [isDigit] at hdigit

theorem newline_notMem_extraTail (extra : Option ExtraParams) : 10 ∉ extraTail extra := by
  rcases parse_extraTail extra with ⟨htail, _⟩ | ⟨params, htail, hline, _⟩
  · simp [htail]
  · simp [htail, hline]

theorem newline_notMem_record (size last_modified : BitVec 64) (extra : Option ExtraParams) :
    10 ∉ record size last_modified (extraTail extra) := by
  simp [record, notMem_convert, newline_notMem_extraTail]

theorem getuntil_record (size last_modified : BitVec 64) (tail : Bytes) :
    getuntil 32 (record size last_modified tail) = convert size := by
  have hsize : ∀ ch ∈ convert size, (ch != 32) = true := by
    intro ch hch
    simp only [bne_iff_ne]
    exact fun heq => notMem_convert (Or.inr heq) hch
  have hmem : 32 ∈ record size last_modified tail := by simp [record]
  rw [getuntil, if_pos hmem, record, List.takeWhile_append_of_pos hsize]
  simp

theorem getafter_record (size last_modified : BitVec 64) (tail : Bytes) :
    getafter 32 (record size last_modified tail) = convert last_modified ++ tail := by
  have hsize : ∀ ch ∈ convert size, (ch != 32) = true := by
    intro ch hch
    simp only [bne_iff_ne]
    exact fun heq => notMem_convert (Or.inr heq) hch
  rw [getafter, record, List.dropWhile_append_of_pos hsize]
  simp

/-- The numbers of a line, read back through `getuntil` and `getafter`. -/
theorem parseData_record (size last_modified : BitVec 64) (extra : Option ExtraParams) :
    parseData (102 :: record size last_modified (extraTail extra)) = some (.file size last_modified) ∧
      parseData (100 :: record size last_modified (extraTail extra)) = some (.dir last_modified) := by
  have htail : ∀ ch ∈ (extraTail extra).head?, isDigit ch = false := by
    rcases parse_extraTail extra with ⟨htail, _⟩ | ⟨params, htail, _, _⟩ <;> simp [htail, isDigit]
  have htime := os_atoi64_convert last_modified htail
  simp [parseData, getuntil_record, getafter_record, convert_read, htime]

/-- The item's share of the string buffer. -/
def bufferBytes : ListItem → Nat
  | .file name _ _ _ => name.bytes.length + 1 + 16
  | .dir name _ _ => name.bytes.length + 1 + 8
  | .up => 0

theorem count_data {bytes : Bytes} (hline : 10 ∉ bytes) (st : CountState) (hphase : st.phase = .data) :
    bytes.foldlM CountState.step st = some st := by
  induction bytes with
  | nil => rfl
  | cons ch bytes ih =>
    simp only [List.mem_cons, not_or] at hline
    have hstep : st.step ch = some st := by
      simp [CountState.step, hphase, Ne.symm hline.1]
    simp [hstep, ih hline.2]

theorem count_entry {tag : UInt8} (htag : tag = 102 ∨ tag = 100) (name : Bytes) (size last_modified : BitVec 64)
    (extra : Option ExtraParams) (lines stringbuffer_size : Nat) :
    (entryText tag name size last_modified (extraTail extra)).foldlM CountState.step
        ⟨.type, lines, stringbuffer_size, [], 0⟩ =
      some (CountState.lineEnd ⟨.data, lines, stringbuffer_size, name, tag⟩ 10) := by
  have htype : CountState.step ⟨.type, lines, stringbuffer_size, [], 0⟩ tag =
      some ⟨.quote, lines, stringbuffer_size, [], tag⟩ := by
    simp [CountState.step, htag]
  have hname := foldlM_name CountState.step (fun phase name => ⟨phase, lines, stringbuffer_size, name, tag⟩)
    (by
      intro phase name ch next hnext
      cases phase <;> first | (simp [nameByte] at hnext; done) | simp [CountState.step, hnext]) name []
  have hdata := count_data (newline_notMem_record size last_modified extra)
    ⟨.data, lines, stringbuffer_size, name, tag⟩ rfl
  rw [entryText_eq]
  simp only [List.foldlM_cons, List.foldlM_append, htype, Option.bind_eq_bind, Option.bind_some]
  simp only [CountState.step, nameByte, Option.map_some, Option.bind_some] at hname hdata ⊢
  rw [hname]
  simp [hdata]

theorem count_item (item : ListItem) (lines stringbuffer_size : Nat) :
    item.text.foldlM CountState.step ⟨.type, lines, stringbuffer_size, [], 0⟩ =
      some ⟨.type, lines + (if item.isEntry then 1 else 0), stringbuffer_size + bufferBytes item, [], 0⟩ := by
  cases item with
  | file name size last_modified extra =>
    rw [text_file, count_entry (Or.inl rfl)]
    simp [CountState.lineEnd, ListItem.isEntry, bufferBytes]
    omega
  | dir name last_modified extra =>
    rw [text_dir, count_entry (Or.inr rfl)]
    simp [CountState.lineEnd, ListItem.isEntry, bufferBytes, name.not_up]
    omega
  | up =>
    rw [text_up]
    rfl

/-- The first pass counts the nodes and the bytes they need. -/
theorem count_items (items : List ListItem) :
    ∀ lines stringbuffer_size,
      (items.flatMap ListItem.text).foldlM CountState.step ⟨.type, lines, stringbuffer_size, [], 0⟩ =
        some ⟨.type, lines + items.countP ListItem.isEntry,
          stringbuffer_size + (items.map bufferBytes).sum, [], 0⟩ := by
  induction items with
  | nil => intro lines size; simp
  | cons item items ih =>
    intro lines size
    rw [List.flatMap_cons, List.foldlM_append, count_item]
    simp only [Option.bind_eq_bind, Option.bind_some, ih, List.countP_cons, List.map_cons, List.sum_cons]
    simp only [Option.some.injEq, CountState.mk.injEq, and_true, true_and]
    omega

/-- A node without its links to siblings and children. -/
structure NodeRecord where
  name : CString
  id : Nat
  data : NodeData
  parent : Option Nat

def Node.record (n : Node) : NodeRecord :=
  ⟨n.name, n.id, n.data, n.parent⟩

/-- Links to siblings and child counts do not touch the records. -/
theorem map_record_modify (nodes : List Node) (i : Nat) {f : Node → Node} (hf : ∀ n, (f n).record = n.record) :
    (nodes.modify i f).map Node.record = nodes.map Node.record := by
  apply List.ext_getElem?
  intro j
  simp only [List.getElem?_map, List.getElem?_modify]
  cases nodes[j]? with
  | none => rfl
  | some n => by_cases hij : i = j <;> simp [hij, hf]

theorem map_record_setParent (nodes : List Node) (i parent : Nat) :
    (nodes.modify i ({ · with parent := some parent })).map Node.record =
      (nodes.map Node.record).modify i ({ · with parent := some parent }) := by
  apply List.ext_getElem?
  intro j
  simp only [List.getElem?_map, List.getElem?_modify]
  cases nodes[j]? with
  | none => rfl
  | some n => by_cases hij : i = j <;> simp [hij, Node.record]

/-- The second pass at the start of a line, `depth` directories deep. -/
structure LineStart (depth : Nat) (st : BuildState) : Prop where
  phase : st.phase = .type
  name : st.name = []
  data : st.data = []
  parents : st.parents.length = depth + 1
  lastNodes : st.lastNodes.length = if st.firstChild then depth + 1 else depth + 2

theorem build_data (total : Nat) {bytes : Bytes} (hline : 10 ∉ bytes) :
    ∀ st : BuildState, st.phase = .data →
      bytes.foldlM (BuildState.step total) st = some { st with data := st.data ++ bytes } := by
  induction bytes with
  | nil => simp
  | cons ch bytes ih =>
    simp only [List.mem_cons, not_or] at hline
    intro st hphase
    have hstep : st.step total ch = some { st with data := st.data ++ [ch] } := by
      simp [BuildState.step, hphase, Ne.symm hline.1]
    rw [List.foldlM_cons, hstep]
    simp only [Option.bind_eq_bind, Option.bind_some]
    rw [ih hline.2 { st with data := st.data ++ [ch] } hphase]
    simp

theorem build_entry (total : Nat) {depth : Nat} {st : BuildState} (hst : LineStart depth st) {tag : UInt8}
    (htag : tag = 102 ∨ tag = 100) (name : Bytes) (size last_modified : BitVec 64) (extra : Option ExtraParams) :
    (entryText tag name size last_modified (extraTail extra)).foldlM (BuildState.step total) st =
      { st with phase := .data, name, data := tag :: record size last_modified (extraTail extra) }.lineEnd
        total 10 := by
  have htype : st.step total tag = some { st with phase := .quote, name := [], data := [tag] } := by
    simp [BuildState.step, hst.phase, hst.name, hst.data, htag]
  have hname := foldlM_name (BuildState.step total) (fun phase name => { st with phase, name, data := [tag] })
    (by
      intro phase name ch next hnext
      cases phase <;> first | (simp [nameByte] at hnext; done) | simp [BuildState.step, hnext]) name []
  have hdata := build_data total (newline_notMem_record size last_modified extra)
    { st with phase := .data, name, data := [tag] } rfl
  rw [entryText_eq]
  simp only [List.foldlM_cons, List.foldlM_append, htype, Option.bind_eq_bind, Option.bind_some]
  simp only [BuildState.step, nameByte, Option.map_some, Option.bind_some] at hname hdata ⊢
  rw [hname]
  simp [hdata]

theorem set_replicate {α : Type} (done : List α) (m : Nat) (e x : α) :
    (done ++ List.replicate (m + 1) e).set done.length x = done ++ x :: List.replicate m e := by
  rw [List.set_append_right _ _ (le_refl _), Nat.sub_self, List.replicate_succ, List.set_cons_zero]

theorem modify_length {α : Type} (done rest : List α) (x : α) (f : α → α) :
    (done ++ x :: rest).modify done.length f = done ++ f x :: rest := by
  induction done with
  | nil => simp
  | cons y done ih => simp [ih]

/-- Adding a node writes its record into the next free slot. -/
theorem addNode_spec {total m : Nat} (st : BuildState) {done : List NodeRecord} {data : NodeData} {parent : Nat}
    {parents : List Nat} (hdata : parseData st.data = some data)
    (hnodes : st.nodes.map Node.record = done ++ List.replicate (m + 1) Node.empty.record)
    (hidx : done.length = st.idx) (hpos : st.stringbuffer_pos + (st.name.length + 1) + dataSize data ≤ total)
    (hparents : st.parents = parent :: parents) (hlast : st.firstChild = false → st.lastNodes ≠ []) :
    ∃ nodes lastNodes, st.addNode total = some { st with
        nodes, lastNodes
        stringbuffer_pos := st.stringbuffer_pos + (st.name.length + 1) + dataSize data
        parents := if data.getType == .dir then st.idx :: st.parents else st.parents
        firstChild := data.getType == .dir
        idx := st.idx + 1 } ∧
      nodes.map Node.record =
        done ++ ⟨cString st.name, st.lines, data, some parent⟩ :: List.replicate m Node.empty.record ∧
      lastNodes.length = if st.firstChild then st.lastNodes.length + 1 else st.lastNodes.length := by
  have hroom : st.idx < st.nodes.length := by
    have := congrArg List.length hnodes
    simp only [List.length_map, List.length_append, List.length_replicate] at this
    omega
  have hset : ∀ node : Node, (st.nodes.set st.idx node).map Node.record =
      done ++ node.record :: List.replicate m Node.empty.record := by
    intro node
    rw [List.map_set, hnodes, ← hidx, set_replicate]
  unfold BuildState.addNode
  simp only [hdata, Option.bind_eq_bind, Option.bind_some, if_pos (And.intro hroom hpos), hparents]
  cases hfirst : st.firstChild with
  | true =>
    refine ⟨_, _, rfl, ?_, by simp⟩
    rw [map_record_setParent, map_record_modify, hset, ← hidx, modify_length]
    · rfl
    · exact fun _ => rfl
  | false =>
    cases hnodesLast : st.lastNodes with
    | nil => exact absurd hnodesLast (hlast hfirst)
    | cons last rest =>
      refine ⟨_, _, rfl, ?_, by simp⟩
      rw [map_record_setParent, map_record_modify, map_record_modify, hset, ← hidx, modify_length]
      · rfl
      · exact fun _ => rfl
      · exact fun _ => rfl

/-- The records of the items' nodes, where the next line and the next node have
the given numbers and `stack` holds the nodes of the open directories. -/
def recordsFrom : Nat → Nat → List Nat → List ListItem → List NodeRecord
  | _, _, _, [] => []
  | line, idx, stack, .file name size last_modified _ :: items =>
    ⟨cString name.bytes, line, .file size last_modified, stack.head?⟩ ::
      recordsFrom (line + 1) (idx + 1) stack items
  | line, idx, stack, .dir name last_modified _ :: items =>
    ⟨cString name.bytes, line, .dir last_modified, stack.head?⟩ ::
      recordsFrom (line + 1) (idx + 1) (idx :: stack) items
  | line, idx, stack, .up :: items => recordsFrom (line + 1) idx stack.tail items

/-- Every `..` closes a directory, if `depth` of them are open before. -/
def NestedFrom : Nat → List ListItem → Prop
  | _, [] => True
  | depth, .file _ _ _ _ :: items => NestedFrom depth items
  | depth, .dir _ _ _ :: items => NestedFrom (depth + 1) items
  | depth, .up :: items => 0 < depth ∧ NestedFrom (depth - 1) items

/-- A line with a node of its own. -/
theorem build_node (total : Nat) {depth m : Nat} {st : BuildState} {done : List NodeRecord} (hst : LineStart depth st)
    {tag : UInt8} (htag : tag = 102 ∨ tag = 100) {name : Bytes} (hname : name ≠ upName)
    (size last_modified : BitVec 64) (extra : Option ExtraParams) {data : NodeData}
    (hdata : parseData (tag :: record size last_modified (extraTail extra)) = some data)
    (hnodes : st.nodes.map Node.record = done ++ List.replicate (m + 1) Node.empty.record)
    (hidx : done.length = st.idx) (hpos : st.stringbuffer_pos + (name.length + 1) + dataSize data ≤ total) :
    ∃ st', (entryText tag name size last_modified (extraTail extra)).foldlM (BuildState.step total) st = some st' ∧
      LineStart (if data.getType == .dir then depth + 1 else depth) st' ∧
      st'.nodes.map Node.record =
        done ++ ⟨cString name, st.lines, data, st.parents.head?⟩ :: List.replicate m Node.empty.record ∧
      st'.stringbuffer_pos = st.stringbuffer_pos + (name.length + 1) + dataSize data ∧
      st'.parents = (if data.getType == .dir then st.idx :: st.parents else st.parents) ∧
      st'.idx = st.idx + 1 ∧ st'.lines = st.lines + 1 := by
  obtain ⟨parent, parents, hparents⟩ : ∃ parent parents, st.parents = parent :: parents := by
    cases hp : st.parents with
    | nil =>
      have := hst.parents
      simp [hp] at this
    | cons parent parents => exact ⟨parent, parents, rfl⟩
  have hlast : st.firstChild = false → st.lastNodes ≠ [] := by
    intro hfirst hnil
    have := hst.lastNodes
    simp [hfirst, hnil] at this
  obtain ⟨nodes, lastNodes, hadd, hrecords, hlength⟩ := addNode_spec
    { st with phase := .data, name, data := tag :: record size last_modified (extraTail extra) }
    hdata hnodes hidx hpos hparents hlast
  refine ⟨{
    phase := .type, name := [], data := [], nodes, lastNodes, idx := st.idx + 1, lines := st.lines + 1
    parents := if data.getType == .dir then st.idx :: st.parents else st.parents
    firstChild := data.getType == .dir
    stringbuffer_pos := st.stringbuffer_pos + (name.length + 1) + dataSize data }, ?_, ?_, ?_⟩
  · rw [build_entry total hst htag, BuildState.lineEnd, if_pos rfl, if_pos hname, hadd]
    rfl
  · have hdepth := hst.parents
    have hlasts := hst.lastNodes
    refine ⟨rfl, rfl, rfl, ?_, ?_⟩
    · cases data.getType == .dir <;> simp [hdepth]
    · cases hfirst : st.firstChild <;> cases data.getType == .dir <;> simp_all
  · exact ⟨by simp [hrecords, hparents], rfl, rfl, rfl, rfl⟩

/-- A `..` line leaves the records alone. -/
theorem build_up (total : Nat) {depth : Nat} {st : BuildState} (hst : LineStart (depth + 1) st) :
    ∃ st', ListItem.up.text.foldlM (BuildState.step total) st = some st' ∧ LineStart depth st' ∧
      st'.nodes.map Node.record = st.nodes.map Node.record ∧ st'.stringbuffer_pos = st.stringbuffer_pos ∧
      st'.parents = st.parents.tail ∧ st'.idx = st.idx ∧ st'.lines = st.lines + 1 := by
  have htype : st.step total 117 = some { st with name := upName, phase := .lineEnd } := by
    simp [BuildState.step, hst.phase]
  have hparents := hst.parents
  have hlasts := hst.lastNodes
  rw [text_up, List.foldlM_cons, htype]
  simp only [Option.bind_eq_bind, Option.bind_some, List.foldlM_cons, List.foldlM_nil, BuildState.step,
    BuildState.lineEnd, if_true, ne_eq, not_true, if_false]
  unfold BuildState.closeDir
  cases hp : st.parents with
  | nil => simp [hp] at hparents
  | cons parent parents =>
    simp only [hp, List.length_cons] at hparents
    cases hfirst : st.firstChild with
    | true =>
      refine ⟨_, rfl, ⟨rfl, rfl, rfl, by simpa using hparents, ?_⟩, rfl, rfl, rfl, rfl, rfl⟩
      simpa [hfirst] using hlasts
    | false =>
      cases hl : st.lastNodes with
      | nil => simp [hfirst, hl] at hlasts
      | cons last lastNodes =>
        refine ⟨_, rfl, ⟨rfl, rfl, rfl, by simpa using hparents, ?_⟩, ?_, rfl, rfl, rfl, rfl⟩
        · simpa [hfirst, hl] using hlasts
        · exact map_record_modify st.nodes last fun _ => rfl

/-- The second pass has `done` behind it and the nodes of `items` still empty. -/
structure Pending (total depth : Nat) (done : List NodeRecord) (items : List ListItem) (st : BuildState) :
    Prop where
  nested : NestedFrom depth items
  lineStart : LineStart depth st
  nodes : st.nodes.map Node.record = done ++ List.replicate (items.countP ListItem.isEntry) Node.empty.record
  idx : done.length = st.idx
  room : st.stringbuffer_pos + (items.map bufferBytes).sum = total

/-- One line of the second pass. -/
theorem build_item {total depth : Nat} {done : List NodeRecord} {item : ListItem} {items : List ListItem}
    {st : BuildState} (h : Pending total depth done (item :: items) st) :
    ∃ depth' done' st', item.text.foldlM (BuildState.step total) st = some st' ∧
      Pending total depth' done' items st' ∧
      done' ++ recordsFrom st'.lines st'.idx st'.parents items =
        done ++ recordsFrom st.lines st.idx st.parents (item :: items) := by
  obtain ⟨hnested, hst, hnodes, hidx, hroom⟩ := h
  simp only [List.map_cons, List.sum_cons] at hroom
  cases item with
  | file name size last_modified extra =>
    simp only [List.countP_cons, ListItem.isEntry, if_true] at hnodes
    simp only [bufferBytes] at hroom
    obtain ⟨st1, hrun, hst1, hrec, hpos1, hpar1, hidx1, hlines1⟩ := build_node total hst (Or.inl rfl) name.not_up
      size last_modified extra (parseData_record size last_modified extra).1 hnodes hidx
      (by simp only [dataSize]; omega)
    simp only [dataSize] at hpos1
    refine ⟨depth, done ++ [⟨cString name.bytes, st.lines, .file size last_modified, st.parents.head?⟩], st1,
      by rw [text_file, hrun], ⟨hnested, hst1, by simpa using hrec, by simp [hidx, hidx1], by omega⟩, ?_⟩
    simp [recordsFrom, hlines1, hidx1, hpar1, NodeData.getType]
  | dir name last_modified extra =>
    simp only [List.countP_cons, ListItem.isEntry, if_true] at hnodes
    simp only [bufferBytes] at hroom
    obtain ⟨st1, hrun, hst1, hrec, hpos1, hpar1, hidx1, hlines1⟩ := build_node total hst (Or.inr rfl) name.not_up
      0 last_modified extra (parseData_record 0 last_modified extra).2 hnodes hidx
      (by simp only [dataSize]; omega)
    simp only [dataSize] at hpos1
    refine ⟨depth + 1, done ++ [⟨cString name.bytes, st.lines, .dir last_modified, st.parents.head?⟩], st1,
      by rw [text_dir, hrun], ⟨hnested, hst1, by simpa using hrec, by simp [hidx, hidx1], by omega⟩, ?_⟩
    simp [recordsFrom, hlines1, hidx1, hpar1, NodeData.getType]
  | up =>
    obtain ⟨hdepth, hnested⟩ := hnested
    obtain ⟨depth, rfl⟩ := Nat.exists_eq_succ_of_ne_zero (Nat.ne_of_gt hdepth)
    obtain ⟨st1, hrun, hst1, hrec, hpos1, hpar1, hidx1, hlines1⟩ := build_up total hst
    simp only [bufferBytes] at hroom
    refine ⟨depth, done, st1, hrun, ⟨hnested, hst1, ?_, by rw [hidx1, hidx], by omega⟩, ?_⟩
    · simpa [hrec, ListItem.isEntry] using hnodes
    · rw [hlines1, hidx1, hpar1, recordsFrom]

/-- The second pass over a nested list fills the free slots with the items'
records and uses exactly the counted bytes. -/
theorem build_items {total : Nat} (items : List ListItem) :
    ∀ (depth : Nat) (done : List NodeRecord) (st : BuildState), Pending total depth done items st →
      ∃ st', (items.flatMap ListItem.text).foldlM (BuildState.step total) st = some st' ∧
        st'.nodes.map Node.record = done ++ recordsFrom st.lines st.idx st.parents items ∧
        st'.stringbuffer_pos = total ∧ st'.idx = st'.nodes.length := by
  induction items with
  | nil =>
    intro depth done st h
    have hnodes : st.nodes.map Node.record = done := by simpa using h.nodes
    refine ⟨st, rfl, by simpa [recordsFrom] using hnodes, by simpa using h.room, ?_⟩
    rw [← h.idx, ← hnodes, List.length_map]
  | cons item items ih =>
    intro depth done st h
    obtain ⟨depth', done', st1, hrun, h', hrecords⟩ := build_item h
    obtain ⟨st2, hrun2, hrecords2, hend⟩ := ih depth' done' st1 h'
    refine ⟨st2, ?_, by rw [hrecords2, hrecords], hend⟩
    rw [List.flatMap_cons, List.foldlM_append, hrun]
    exact hrun2

end urbackup.filelist
