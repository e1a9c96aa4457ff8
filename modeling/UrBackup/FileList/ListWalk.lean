import UrBackup.FileList.ListItem

namespace urbackup.filelist

open stringtools

theorem parseParam_key (map : StrMap) {key : Bytes} (hkey : 61 ∉ key) :
    ∀ acc, key.foldl (parseParamChar false) ⟨acc, [], false, map⟩ = ⟨acc ++ key, [], false, map⟩ := by
  induction key with
  | nil => simp
  | cons ch key ih =>
    simp only [List.mem_cons, not_or] at hkey
    intro acc
    simp [parseParamChar, Ne.symm hkey.1, ih hkey.2]

theorem parseParam_value (key : Bytes) (map : StrMap) {value : Bytes}
    (hvalue : ∀ ch ∈ value, ch ≠ 38 ∧ ch ≠ 36) :
    ∀ acc, value.foldl (parseParamChar false) ⟨key, acc, true, map⟩ = ⟨key, acc ++ value, true, map⟩ := by
  induction value with
  | nil => simp
  | cons ch value ih =>
    obtain ⟨⟨hamp, hdollar⟩, hrest⟩ := List.forall_mem_cons.mp hvalue
    intro acc
    simp [parseParamChar, hamp, hdollar, ih hrest]

/-- A parameter without its leading separator. -/
theorem parseParam_first (map : StrMap) (p : Param) :
    p.text.tail.foldl (parseParamChar false) ⟨[], [], false, map⟩ =
      ⟨p.key, EscapeParamString p.value, true, map⟩ := by
  have hvalue : ∀ ch ∈ EscapeParamString p.value, ch ≠ 38 ∧ ch ≠ 36 := fun ch h =>
    ⟨(notMem_EscapeParamString h).1, (notMem_EscapeParamString h).2.1⟩
  simp only [Param.text, List.tail_cons, List.foldl_append, List.foldl_cons, parseParam_key map p.no_assign]
  simpa [parseParamChar] using parseParam_value p.key map hvalue []

/-- A further parameter closes the one before it. -/
theorem parseParam_next (map : StrMap) (p q : Param) :
    q.text.foldl (parseParamChar false) ⟨p.key, EscapeParamString p.value, true, map⟩ =
      ⟨q.key, EscapeParamString q.value, true, insertParam map p.key p.value⟩ := by
  have hsplit : q.text = 38 :: q.text.tail := rfl
  rw [hsplit, List.foldl_cons]
  simpa [parseParamChar, ParamState.insert, htmldecode_EscapeParamString] using
    parseParam_first (insertParam map p.key p.value) q

/-- The parameters up to the last one are inserted when the next begins. -/
theorem parseParam_rest (ps : List Param) :
    ∀ (p : Param) (map : StrMap) (st : ParamState),
      (ps.flatMap Param.text).foldl (parseParamChar false) ⟨p.key, EscapeParamString p.value, true, map⟩ = st →
      st.key ≠ [] ∧ st.insert false = (p :: ps).foldl (fun map p => insertParam map p.key p.value) map := by
  induction ps with
  | nil =>
    rintro p map st rfl
    exact ⟨p.key_nonempty, by simp [ParamState.insert, htmldecode_EscapeParamString]⟩
  | cons q ps ih =>
    intro p map st hst
    rw [List.flatMap_cons, List.foldl_append, parseParam_next] at hst
    exact ih q (insertParam map p.key p.value) st hst

/-- `ParseParamStrHttp` inserts the parameters in their order. -/
theorem ParseParamStrHttp_params (p : Param) (ps : List Param) (map : StrMap) :
    ParseParamStrHttp (p.text.tail ++ ps.flatMap Param.text) map false =
      (p :: ps).foldl (fun map p => insertParam map p.key p.value) map := by
  unfold ParseParamStrHttp
  rw [List.foldl_append, parseParam_first]
  obtain ⟨hkey, hinsert⟩ := parseParam_rest ps p map _ rfl
  rw [if_pos (Or.inr hkey), hinsert]

/-- Inserting parameters with distinct keys makes the map that looks them up. -/
theorem foldl_insertParam {α : Type} (keyOf valueOf : α → Bytes) (ps : List α) (hd : (ps.map keyOf).Nodup) :
    ∀ (map : StrMap) (key : Bytes), (∀ p ∈ ps, map (keyOf p) = none) →
      (ps.foldl (fun map p => insertParam map (keyOf p) (valueOf p)) map) key =
        ((ps.find? (keyOf · = key)).map valueOf).or (map key) := by
  induction ps with
  | nil => simp
  | cons p ps ih =>
    intro map key hfree
    obtain ⟨hp, hps⟩ := List.forall_mem_cons.mp hfree
    obtain ⟨hnew, hrest⟩ := List.nodup_cons.mp hd
    have hother : ∀ q ∈ ps, keyOf q ≠ keyOf p := fun q hq heq => hnew (heq ▸ List.mem_map_of_mem hq)
    rw [List.foldl_cons, ih hrest]
    · simp only [insertParam, hp, if_true, List.find?_cons]
      by_cases hk : keyOf p = key
      · have hnone : ps.find? (keyOf · = key) = none := by
          simpa [← hk] using hother
        simp [hk, hnone]
      · simp [hk, Function.update_of_ne (Ne.symm hk)]
    · intro q hq
      simp [insertParam, hp, Function.update_of_ne (hother q hq), hps q hq]

/-- The item's parameters, read back from its line. -/
theorem parse_extraTail (extra : Option ExtraParams) :
    extraTail extra = [] ∧ (∀ key, (extra.bind fun e => e.map key) = none) ∨
      ∃ params, extraTail extra = 35 :: params ∧ 10 ∉ params ∧
        ∀ key, ParseParamStrHttp params (fun _ => none) false key = extra.bind fun e => e.map key := by
  rcases extraTail_cases extra with ⟨htail, hnone⟩ | ⟨p, ps, hd, rfl, htail⟩
  · refine Or.inl ⟨htail, fun key => ?_⟩
    cases extra with
    | none => rfl
    | some extra => simp_all [ExtraParams.map]
  · refine Or.inr ⟨_, htail, ?_, fun key => ?_⟩
    · have hp := newline_notMem_text p
      simp only [Param.text, List.mem_cons, not_or] at hp
      simp only [Param.text, List.tail_cons, List.mem_append, List.mem_flatMap, not_or, not_exists, not_and]
      exact ⟨by simpa [Param.text] using hp.2, fun q _ => newline_notMem_text q⟩
    · rw [ParseParamStrHttp_params, foldl_insertParam Param.key Param.value _ hd _ _ fun _ _ => rfl]
      simp [ExtraParams.map]

/-- The walk inside a line: only the parser and the caller's `cf` move. -/
def Walk.inLine (w : Walk) (parser : FileListParser) (cf : SFile) (n : Nat) : Walk :=
  { w with parser, cf, consumed := w.consumed + n }

theorem Walk.step_inLine (w : Walk) {p : FileListParser} {cf : SFile} {n : Nat} {ch : UInt8}
    {p' : FileListParser} {cf' : SFile} {extra : StrMap}
    (h : p.nextEntry ch cf (fun _ => none) = ⟨p', cf', extra, false⟩) :
    (w.inLine p cf n).step ch = w.inLine p' cf' (n + 1) := by
  simp [Walk.step, Walk.inLine, h, Nat.add_assoc]

theorem Walk.step_done (w : Walk) {p : FileListParser} {cf : SFile} {n : Nat} {ch : UInt8}
    {p' : FileListParser} {cf' : SFile} {extra : StrMap}
    (h : p.nextEntry ch cf (fun _ => none) = ⟨p', cf', extra, true⟩) :
    (w.inLine p cf n).step ch =
      { parser := p', cf := cf', consumed := w.consumed + (n + 1), line := w.line + 1
        entries := w.entries ++ [⟨w.consumed + (n + 1), w.line, cf', extra⟩] } := by
  simp [Walk.step, Walk.inLine, h, Nat.add_assoc]

/-- An escaped name is collected unescaped. -/
theorem walk_name (w : Walk) (cf : SFile) (name : Bytes) :
    ∀ acc n, (escapeListName name).foldl Walk.step (w.inLine ⟨.Name, acc⟩ cf n) =
      w.inLine ⟨.Name, acc ++ name⟩ cf (n + (escapeListName name).length) := by
  induction name with
  | nil => simp [escapeListName]
  | cons ch name ih =>
    intro acc n
    have hcons : escapeListName (ch :: name) =
        (if ch = 34 then [92, 34] else if ch = 92 then [92, 92] else [ch]) ++ escapeListName name := by
      simp [escapeListName]
    rw [hcons, List.foldl_append]
    by_cases hescaped : ch = 34 ∨ ch = 92
    · have htext : (if ch = 34 then [92, 34] else if ch = 92 then [92, 92] else [ch]) = [92, ch] := by
        rcases hescaped with rfl | rfl <;> rfl
      have hslash : FileListParser.nextEntry ⟨.Name, acc⟩ 92 cf (fun _ => none) =
          ⟨⟨.NameEscape, acc⟩, cf, fun _ => none, false⟩ := rfl
      have hchar : FileListParser.nextEntry ⟨.NameEscape, acc⟩ ch cf (fun _ => none) =
          ⟨⟨.Name, acc ++ [ch]⟩, cf, fun _ => none, false⟩ := by
        rcases hescaped with rfl | rfl <;> rfl
      rw [htext, List.foldl_cons, w.step_inLine hslash, List.foldl_cons, w.step_inLine hchar, List.foldl_nil, ih]
      simp only [List.append_assoc, List.singleton_append, List.length_append, List.length_cons, List.length_nil]
      congr 1
      omega
    · obtain ⟨hquote, hslash⟩ := not_or.mp hescaped
      have hchar : FileListParser.nextEntry ⟨.Name, acc⟩ ch cf (fun _ => none) =
          ⟨⟨.Name, acc ++ [ch]⟩, cf, fun _ => none, false⟩ := by
        simp [FileListParser.nextEntry, hquote, hslash]
      rw [if_neg hquote, if_neg hslash, List.foldl_cons, w.step_inLine hchar, List.foldl_nil, ih]
      simp only [List.append_assoc, List.singleton_append, List.length_cons]
      congr 1
      omega

/-- The parser takes the byte into `t_name` and stays in its state. -/
def Collects (state : ParseState) (ch : UInt8) : Prop :=
  ∀ acc cf extra, FileListParser.nextEntry ⟨state, acc⟩ ch cf extra = ⟨⟨state, acc ++ [ch]⟩, cf, extra, false⟩

theorem walk_collect (w : Walk) (cf : SFile) {state : ParseState} {bytes : Bytes}
    (h : ∀ ch ∈ bytes, Collects state ch) :
    ∀ acc n, bytes.foldl Walk.step (w.inLine ⟨state, acc⟩ cf n) =
      w.inLine ⟨state, acc ++ bytes⟩ cf (n + bytes.length) := by
  induction bytes with
  | nil => simp
  | cons ch bytes ih =>
    obtain ⟨hch, hrest⟩ := List.forall_mem_cons.mp h
    intro acc n
    rw [List.foldl_cons, w.step_inLine (hch acc cf _), ih hrest]
    simp only [List.append_assoc, List.singleton_append, List.length_cons]
    congr 1
    omega

theorem collects_convert {i : BitVec 64} {ch : UInt8} (h : ch ∈ convert i) :
    Collects .Filesize ch ∧ Collects .ModifiedTime ch := by
  have hne : ch ≠ 32 ∧ ch ≠ 10 ∧ ch ≠ 35 := by
    rcases mem_convert h with rfl | hdigit
    · decide
    · simp only [isDigit, Bool.and_eq_true, decide_eq_true_eq] at hdigit
      grind
  constructor <;> intro acc cf extra <;> simp [FileListParser.nextEntry, hne]

theorem collects_extra {params : Bytes} (hparams : 10 ∉ params) :
    ∀ ch ∈ params, Collects .ExtraParams ch := by
  intro ch hch acc cf extra
  have hne : ch ≠ 10 := fun heq => hparams (heq ▸ hch)
  simp [FileListParser.nextEntry, hne]

/-- The walk at the start of a line. -/
def Walk.AtLine (w : Walk) : Prop :=
  w.parser = .reset

/-- One entry more, of `n` bytes, and at the start of a line again. -/
def Walk.push (w : Walk) (n : Nat) (cf : SFile) (extra : StrMap) : Walk :=
  { parser := .reset, cf, consumed := w.consumed + n, line := w.line + 1
    entries := w.entries ++ [⟨w.consumed + n, w.line, cf, extra⟩] }

theorem convert_read (i : BitVec 64) : os_atoi64 (convert i) = i := by
  simpa using @os_atoi64_convert i [] (by simp)

/-- The end of an entry's line, from the modification time on. -/
theorem walk_tail (w : Walk) (cf : SFile) (n : Nat) (last_modified : BitVec 64) (extra : Option ExtraParams) :
    (convert last_modified ++ extraTail extra ++ [10]).foldl Walk.step (w.inLine ⟨.ModifiedTime, []⟩ cf n) =
      w.push (n + (convert last_modified ++ extraTail extra ++ [10]).length) { cf with last_modified }
        fun key => extra.bind fun e => e.map key := by
  rw [List.append_assoc, List.foldl_append, walk_collect w cf fun ch h => (collects_convert h).2,
    List.nil_append]
  have htime : ∀ ch, FileListParser.nextEntry ⟨.ModifiedTime, convert last_modified⟩ ch cf (fun _ => none) =
      if ch ≠ 10 && ch ≠ 35 then
        ⟨⟨.ModifiedTime, convert last_modified ++ [ch]⟩, cf, fun _ => none, false⟩
      else if ch = 10 then .done { cf with last_modified }
      else ⟨⟨.ExtraParams, []⟩, { cf with last_modified }, fun _ => none, false⟩ := by
    intro ch
    simp [FileListParser.nextEntry, convert_read]
  rcases parse_extraTail extra with ⟨htail, hnone⟩ | ⟨params, htail, hline, hparse⟩
  · have hlast := htime 10
    simp only [ne_eq, not_true, decide_false, Bool.false_and, Bool.false_eq_true, if_false, if_true,
      NextEntry.done] at hlast
    rw [htail, List.nil_append, List.foldl_cons, w.step_done hlast]
    simp [Walk.push, hnone, Nat.add_assoc]
  · have hhash := htime 35
    simp only [ne_eq, not_true, decide_false, Bool.and_false, Bool.false_eq_true, if_false,
      show ¬ ((35 : UInt8) = 10) by decide] at hhash
    have hlast : FileListParser.nextEntry ⟨.ExtraParams, [] ++ params⟩ 10 { cf with last_modified } (fun _ => none) =
        ⟨.reset, { cf with last_modified }, ParseParamStrHttp params (fun _ => none) false, true⟩ := rfl
    rw [htail, List.cons_append, List.foldl_cons, w.step_inLine hhash, List.foldl_append,
      walk_collect w _ (collects_extra hline), List.foldl_cons, w.step_done hlast, List.foldl_nil,
      funext hparse]
    have hlength : n + (convert last_modified).length + 1 + params.length + 1 =
        n + (convert last_modified ++ 35 :: (params ++ [10])).length := by
      simp only [List.length_append, List.length_cons, List.length_nil]
      omega
    rw [hlength, Walk.push]

/-- The walk over a line that is no `..`. -/
theorem walk_entry (w : Walk) (hw : w.AtLine) {tag : UInt8} (isdir : Bool)
    (htag : tag = if isdir then 100 else 102) {name : Bytes} (hname : name ≠ upName)
    (size last_modified : BitVec 64) (extra : Option ExtraParams) :
    (entryText tag name size last_modified (extraTail extra)).foldl Walk.step w =
      w.push (entryText tag name size last_modified (extraTail extra)).length
        ⟨name, size, last_modified, isdir⟩ fun key => extra.bind fun e => e.map key := by
  have hstart : w = w.inLine .reset w.cf 0 := by
    rw [← hw]
    rfl
  have htype : FileListParser.nextEntry .reset tag w.cf (fun _ => none) =
      ⟨⟨.Quote, []⟩, { w.cf with isdir }, fun _ => none, false⟩ := by
    cases isdir <;> subst htag <;> rfl
  have hopen : FileListParser.nextEntry ⟨.Quote, []⟩ 34 { w.cf with isdir } (fun _ => none) =
      ⟨⟨.Name, []⟩, { w.cf with isdir }, fun _ => none, false⟩ := rfl
  have hclose : FileListParser.nextEntry ⟨.Name, [] ++ name⟩ 34 { w.cf with isdir } (fun _ => none) =
      ⟨⟨.NameFinish, name ++ [34]⟩, { w.cf with isdir }, fun _ => none, false⟩ := rfl
  have hspace : FileListParser.nextEntry ⟨.NameFinish, name ++ [34]⟩ 32 { w.cf with isdir } (fun _ => none) =
      ⟨⟨.Filesize, []⟩, { w.cf with isdir, name }, fun _ => none, false⟩ := by
    simp [FileListParser.nextEntry, hname]
  have hsize : FileListParser.nextEntry ⟨.Filesize, [] ++ convert size⟩ 32 { w.cf with isdir, name } (fun _ => none) =
      ⟨⟨.ModifiedTime, []⟩, { w.cf with isdir, name, size }, fun _ => none, false⟩ := by
    simp [FileListParser.nextEntry, convert_read]
  have hshape : entryText tag name size last_modified (extraTail extra) =
      tag :: 34 :: (escapeListName name ++ 34 :: 32 :: (convert size ++ 32 ::
        (convert last_modified ++ extraTail extra ++ [10]))) := by
    simp [entryText]
  rw [hshape, List.foldl_cons, List.foldl_cons]
  conv_lhs => rw [hstart]
  rw [w.step_inLine htype, w.step_inLine hopen, List.foldl_append, walk_name, List.foldl_cons, List.foldl_cons,
    w.step_inLine hclose, w.step_inLine hspace, List.foldl_append,
    walk_collect w _ fun ch h => (collects_convert h).1, List.foldl_cons, w.step_inLine hsize, walk_tail]
  congr 1
  simp only [List.length_cons, List.length_append]
  omega

/-- The walk over the line of any item. -/
theorem walk_item (w : Walk) (hw : w.AtLine) (item : ListItem) :
    item.text.foldl Walk.step w = w.push item.text.length item.sfile item.params := by
  have hparams : ∀ item : ListItem, (fun key => item.extra.bind fun e => e.map key) = item.params := by
    intro item
    rw [ListItem.params]
    cases item.extra <;> rfl
  cases item with
  | file name size last_modified extra =>
    rw [text_file, walk_entry w hw false (by rfl) name.not_up]
    exact congrArg (w.push _ _) (hparams (.file name size last_modified extra))
  | dir name last_modified extra =>
    rw [text_dir, walk_entry w hw true (by rfl) name.not_up]
    exact congrArg (w.push _ _) (hparams (.dir name last_modified extra))
  | up =>
    have hstart : w = w.inLine .reset w.cf 0 := by
      rw [← hw]
      rfl
    have htype : FileListParser.nextEntry .reset 117 w.cf (fun _ => none) =
        ⟨⟨.TypeFinish, []⟩, { w.cf with isdir := true }, fun _ => none, false⟩ := rfl
    have hline : FileListParser.nextEntry ⟨.TypeFinish, []⟩ 10 { w.cf with isdir := true } (fun _ => none) =
        ⟨.reset, ListItem.up.sfile, fun _ => none, true⟩ := rfl
    rw [text_up, List.foldl_cons]
    conv_lhs => rw [hstart]
    rw [w.step_inLine htype, List.foldl_cons, w.step_done hline]
    rfl

/-- The entries the walk reports for a list: one per item, complete with the
item's last byte. -/
def expectedEntries (consumed line : Nat) : List ListItem → List WalkEntry
  | [] => []
  | item :: items =>
    ⟨consumed + item.text.length, line, item.sfile, item.params⟩ ::
      expectedEntries (consumed + item.text.length) (line + 1) items

theorem walk_items (items : List ListItem) :
    ∀ w : Walk, w.AtLine → ((items.flatMap ListItem.text).foldl Walk.step w).entries =
      w.entries ++ expectedEntries w.consumed w.line items := by
  induction items with
  | nil => simp [expectedEntries]
  | cons item items ih =>
    intro w hw
    rw [List.flatMap_cons, List.foldl_append, walk_item w hw, ih _ (by rfl)]
    simp [Walk.push, expectedEntries]

theorem walk_eq_foldl (buffers : List Bytes) : walk buffers = buffers.flatten.foldl Walk.step .start := by
  rw [walk, List.foldl_flatten]

end urbackup.filelist
