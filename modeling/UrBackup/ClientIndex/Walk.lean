import UrBackup.ClientIndex.InitialCheck

namespace urbackup.clientindex

open stringtools filedata

section Items

/-- What the list consists of. -/
inductive Item
  | dir (f : SFileAndHash)
  | file (f : SFileAndHash)
  | up
  deriving DecidableEq

variable (cfg : Settings)

def Item.text (line : Nat) : Item → Bytes
  | .dir f => dirText cfg f.name f.change_indicator (linkParams cfg f ++ lineParam line)
  | .file f => fileText cfg f line
  | .up => upText cfg

/-- The text of items that come after `n` others. -/
def listText : Nat → List Item → Bytes
  | _, [] => []
  | n, x :: xs => x.text cfg (n + 1) ++ listText (n + 1) xs

theorem listText_append (n : Nat) (xs ys : List Item) :
    listText cfg n (xs ++ ys) = listText cfg n xs ++ listText cfg (n + xs.length) ys := by
  induction xs generalizing n with
  | nil => simp [listText]
  | cons x xs ih =>
    rw [List.cons_append, listText, listText, ih, List.append_assoc, List.length_cons, Nat.add_assoc, Nat.add_comm 1]

/-- The list up to where the next item goes, and its number of items. -/
structure At (ix : Index) (list : Bytes) (n : Nat) : Prop where
  list : ix.outfile.content.take ix.outfile.pos = list
  pos_le : ix.outfile.pos ≤ ix.outfile.content.length
  file_id : ix.file_id = n

variable {cfg} {ix : Index} {list : Bytes} {n : Nat}

theorem take_overwrite {xs ys : Bytes} {p : Nat} (h : p ≤ xs.length) :
    (overwrite 0 xs p ys).take (p + ys.length) = xs.take p ++ ys ∧ p + ys.length ≤ (overwrite 0 xs p ys).length := by
  by_cases hys : ys = []
  · simp [hys, h]
  · have hgap : p - xs.length = 0 := by omega
    have hlen : (xs.take p).length = p := by simp [h]
    rw [overwrite, if_neg (by simpa using hys), hgap, List.replicate_zero, List.append_nil]
    constructor
    · rw [List.take_left' (by rw [List.length_append, hlen])]
    · simp only [List.length_append, hlen]
      omega

theorem At.writeItem (h : At ix list n) (text : Bytes) : At (writeItem ix text) (list ++ text) (n + 1) := by
  obtain ⟨htake, hlen⟩ := take_overwrite h.pos_le
  exact ⟨by rw [← h.list]; exact htake, hlen, congrArg (· + 1) h.file_id⟩

theorem At.writeItem_text (h : At ix list n) (x : Item) :
    At (clientindex.writeItem ix (x.text cfg (ix.file_id + 1))) (list ++ listText cfg n [x]) (n + 1) := by
  have hwrite := h.writeItem (x.text cfg (ix.file_id + 1))
  rw [h.file_id] at hwrite
  simpa [listText, h.file_id] using hwrite

/-- Going back to where the list has been before. -/
theorem At.seek {before : Bytes} {rest : Bytes} (h : At ix (before ++ rest) n) (m : Nat) (stack : List SRecurParams) :
    At ⟨ix.outfile.Seek before.length, m, stack⟩ before m := by
  have hle : before.length ≤ ix.outfile.pos := by
    have hlen := congrArg List.length h.list
    simp only [List.length_take, List.length_append] at hlen
    omega
  refine ⟨?_, hle.trans h.pos_le, rfl⟩
  have htake := congrArg (List.take before.length) h.list
  rwa [List.take_take, Nat.min_eq_left hle, List.take_left] at htake

theorem At.pos (h : At ix list n) : ix.outfile.pos = list.length := by
  rw [← h.list, List.length_take, Nat.min_eq_left h.pos_le]

theorem At.stack (h : At ix list n) (stack : List SRecurParams) : At { ix with params_stack := stack } list n :=
  ⟨h.list, h.pos_le, h.file_id⟩

end Items

section Walk

variable (cfg : Settings) (p : Patterns)

def fileItems (orig_dir named_path : Bytes) (files : List FileTree) : List Item :=
  (files.filter fun t => listsFile cfg p orig_dir named_path t.file).map fun t => .file t.file

/-- Whether the loop goes into a directory. -/
def entersDir (orig_dir named_path : Bytes) (f : SFileAndHash) : Bool :=
  let c := checkDir cfg p orig_dir named_path f
  !c.skipped && (c.curr_included || !c.worthless)

/-- Whether one of the directories is included itself. -/
def includesDir (orig_dir named_path : Bytes) (files : List FileTree) : Bool :=
  files.any fun t =>
    let c := checkDir cfg p orig_dir named_path t.file
    !c.skipped && cfg.include_exclude_dirs && c.curr_included

mutual

/-- What comes into the list for a directory, and whether something in it has been included. -/
def walkDir (orig_dir named_path : Bytes) : FileTree → List Item × Bool
  | .node f files =>
    if !entersDir cfg p orig_dir named_path f then ([], false)
    else if f.issym && cfg.with_proper_symlinks then ([.dir f, .up], true)
    else
      let dirs := if cfg.dir_recurse then walkDirs (subPath orig_dir f.name) (subPath named_path f.name) files else ([], false)
      let items := fileItems cfg p (subPath orig_dir f.name) (subPath named_path f.name) files
      let has_include := items ≠ [] ||
        (cfg.dir_recurse && includesDir cfg p (subPath orig_dir f.name) (subPath named_path f.name) files) || dirs.2
      if has_include || (checkDir cfg p orig_dir named_path f).curr_included then (.dir f :: items ++ dirs.1 ++ [.up], has_include)
      else ([], false)

def walkDirs (orig_dir named_path : Bytes) : List FileTree → List Item × Bool
  | [] => ([], false)
  | t :: ts => ((walkDir orig_dir named_path t).1 ++ (walkDirs orig_dir named_path ts).1,
      (walkDir orig_dir named_path t).2 || (walkDirs orig_dir named_path ts).2)

end

end Walk

section Steps

variable {cfg : Settings} {p : Patterns} {ix ix' ix'' : Index}

/-- The loop comes from one state to another one. -/
def Reaches (cfg : Settings) (p : Patterns) (ix ix' : Index) : Prop :=
  ∃ k, ∀ fuel, loop cfg p (k + fuel) ix = loop cfg p fuel ix'

theorem reaches_refl : Reaches cfg p ix ix := ⟨0, fun fuel => by rw [Nat.zero_add]⟩

theorem Reaches.trans (h : Reaches cfg p ix ix') (h' : Reaches cfg p ix' ix'') : Reaches cfg p ix ix'' := by
  obtain ⟨k, hk⟩ := h
  obtain ⟨k', hk'⟩ := h'
  exact ⟨k + k', fun fuel => by rw [Nat.add_assoc, hk, hk']⟩

theorem reaches_step (h : step cfg p ix = some ix') : Reaches cfg p ix ix' :=
  ⟨1, fun fuel => by rw [Nat.add_comm, loop, h]⟩

/-- What is on the stack for a directory before the loop comes to it. -/
def frame (cfg : Settings) (p : Patterns) (orig_dir named_path : Bytes) (parent_idx : Nat) (t : FileTree) : SRecurParams :=
  { file := t, curr_included := (checkDir cfg p orig_dir named_path t.file).curr_included, orig_dir, named_path, parent_idx := some parent_idx }

def pushed (cfg : Settings) (p : Patterns) (orig_dir named_path : Bytes) (parent_idx : Nat) (files : List FileTree) : List SRecurParams :=
  (files.filter fun t => entersDir cfg p orig_dir named_path t.file).map (frame cfg p orig_dir named_path parent_idx)

variable {orig_dir named_path list : Bytes} {n : Nat}

theorem checkFiles_at (files : List FileTree) (h : At ix list n) : ∃ ix',
    checkFiles cfg p orig_dir named_path files ix = (decide (fileItems cfg p orig_dir named_path files ≠ []), ix') ∧
      At ix' (list ++ listText cfg n (fileItems cfg p orig_dir named_path files)) (n + (fileItems cfg p orig_dir named_path files).length) ∧
        ix'.params_stack = ix.params_stack := by
  induction files using List.reverseRecOn with
  | nil => exact ⟨ix, rfl, by simpa [fileItems, listText] using h, rfl⟩
  | append_singleton files t ih =>
    obtain ⟨ix₁, heq, hat, hstack⟩ := ih
    have hitems : fileItems cfg p orig_dir named_path (files ++ [t]) = fileItems cfg p orig_dir named_path files ++
        if listsFile cfg p orig_dir named_path t.file then [.file t.file] else [] := by
      by_cases hlists : listsFile cfg p orig_dir named_path t.file = true
      · simp [fileItems, hlists]
      · simp [fileItems, hlists]
    rw [hitems, checkFiles, List.foldl_append, List.foldl_cons, List.foldl_nil]
    rw [checkFiles] at heq
    rw [heq]
    by_cases hlists : listsFile cfg p orig_dir named_path t.file = true
    · refine ⟨writeItem ix₁ (fileText cfg t.file (ix₁.file_id + 1)), by simp [hlists], ?_, hstack⟩
      have hwrite := @At.writeItem_text cfg _ _ _ hat (.file t.file)
      rw [if_pos hlists, listText_append, List.length_append, ← List.append_assoc, ← Nat.add_assoc]
      exact hwrite
    · exact ⟨ix₁, by simp [hlists], by simpa [hlists] using hat, hstack⟩

theorem pushDirs_eq (parent_idx : Nat) (files : List FileTree) (has_include : Bool) (stack : List SRecurParams) :
    pushDirs cfg p orig_dir named_path parent_idx files has_include stack =
      (has_include || includesDir cfg p orig_dir named_path files, stack ++ (pushed cfg p orig_dir named_path parent_idx files).reverse) := by
  induction files with
  | nil => simp [pushDirs, includesDir, pushed]
  | cons t files ih =>
    rw [pushDirs] at ih
    rw [pushDirs, List.foldr_cons, ih]
    have hincludes : includesDir cfg p orig_dir named_path (t :: files) = ((!(checkDir cfg p orig_dir named_path t.file).skipped &&
        cfg.include_exclude_dirs && (checkDir cfg p orig_dir named_path t.file).curr_included) || includesDir cfg p orig_dir named_path files) := rfl
    by_cases hskipped : (checkDir cfg p orig_dir named_path t.file).skipped = true
    · simp [hincludes, pushed, entersDir, hskipped]
    · by_cases henters : ((checkDir cfg p orig_dir named_path t.file).curr_included ||
          !(checkDir cfg p orig_dir named_path t.file).worthless) = true
      · simp [hincludes, pushed, entersDir, hskipped, henters, frame, Bool.or_assoc, Bool.or_comm]
      · simp [hincludes, pushed, entersDir, hskipped, henters, Bool.or_assoc, Bool.or_comm]

end Steps

section Machine

variable {cfg : Settings} {p : Patterns} {orig_dir named_path list : Bytes} {n : Nat} {ix : Index} {below : List SRecurParams}
  {params : SRecurParams}

/-- The directory on the stack is told whether something in it is included. -/
def tell (has_include : Bool) (params : SRecurParams) : SRecurParams :=
  { params with recur_ret := { params.recur_ret with has_include := params.recur_ret.has_include || has_include } }

theorem tell_false : tell false params = params := by
  simp [tell]

theorem tell_tell (a b : Bool) : tell b (tell a params) = tell (a || b) params := by
  simp [tell, Bool.or_assoc]

theorem modify_top {α : Type} (below above : List α) (x : α) (f : α → α) :
    (below ++ x :: above).modify below.length f = below ++ f x :: above := by
  induction below with
  | nil => rfl
  | cons y below ih => simp [ih]

theorem modify_below {α : Type} {below : List α} {i : Nat} (hi : i < below.length) (above : List α) (f : α → α) :
    (below ++ above).modify i f = below.modify i f ++ above := by
  induction below generalizing i with
  | nil => simp at hi
  | cons y below ih =>
    cases i with
    | zero => rfl
    | succ i => simp [ih (by simpa using hi)]

theorem modify_tell_false (i : Nat) : below.modify i (tell false) = below := by
  have hid : tell false = id := funext fun _ => tell_false
  rw [hid, List.modify_id]

theorem modify_tell_tell (i : Nat) (a b : Bool) : (below.modify i (tell a)).modify i (tell b) = below.modify i (tell (a || b)) := by
  have hcomp : tell b ∘ tell a = tell (a || b) := funext fun _ => tell_tell a b
  rw [List.modify_modify_eq, hcomp]

theorem step_back (hstack : ix.params_stack = below ++ [params]) : ix.back? = some (below.length, params) := by
  simp [Index.back?, hstack]

/-- A directory is left: it stays in the list with its end, or the list goes back to where it
has been before. -/
theorem leave_dir {before rest : Bytes} {m i : Nat} (hstack : ix.params_stack = below ++ [params]) (hstate : params.state = .leave)
    (hi : i < below.length) (hparent : params.parent_idx = some i) (hpos : params.recur_ret.pos = before.length)
    (hid : params.recur_ret.file_id_backup = n) (hat : At ix (before ++ rest) m) :
    ∃ ix', step cfg p ix = some ix' ∧ ix'.params_stack = below.modify i (tell params.recur_ret.has_include) ∧
      if params.recur_ret.has_include || params.curr_included then At ix' (before ++ rest ++ listText cfg m [.up]) (m + 1) else At ix' before n := by
  have hwrite : At (writeItem ix (upText cfg)) (before ++ rest ++ listText cfg m [.up]) (m + 1) := hat.writeItem_text .up
  have hstep : step cfg p ix = some { initialCheckRecur2 cfg ix params with
      params_stack := (initialCheckRecur2 cfg ix params).params_stack.dropLast } := by
    rw [step, step_back hstack, Option.map_some]
    simp only [hstate]
  refine ⟨_, hstep, ?_⟩
  have hkeep : (writeItem ix (upText cfg)).params_stack = below ++ [params] := hstack
  cases hinclude : params.recur_ret.has_include with
  | true =>
    have hrecur : initialCheckRecur2 cfg ix params = { writeItem ix (upText cfg) with params_stack := below.modify i (tell true) ++ [params] } := by
      have htell : (fun params : SRecurParams => { params with recur_ret := { params.recur_ret with has_include := true } }) = tell true := by
        funext params
        simp [tell]
      simp only [initialCheckRecur2, hinclude, Bool.not_true, Bool.false_eq_true, if_false, hparent, Index.setRet, hkeep, htell,
        modify_below hi]
    rw [hrecur]
    exact ⟨by simp, by simpa using hwrite.stack _⟩
  | false =>
    rw [modify_tell_false]
    cases hincluded : params.curr_included with
    | true =>
      have hrecur : initialCheckRecur2 cfg ix params = writeItem ix (upText cfg) := by
        simp [initialCheckRecur2, hinclude, hincluded]
      rw [hrecur, hkeep]
      exact ⟨by simp, by simpa using hwrite.stack _⟩
    | false =>
      have hrecur : initialCheckRecur2 cfg ix params = { writeItem ix (upText cfg) with
          outfile := (writeItem ix (upText cfg)).outfile.Seek before.length, file_id := n } := by
        simp [initialCheckRecur2, hinclude, hincluded, hpos, hid]
      rw [hrecur]
      refine ⟨by simp [hkeep], ?_⟩
      rw [List.append_assoc] at hwrite
      simpa [hkeep] using hwrite.seek n below

theorem beginDir_at (hstack : ix.params_stack = below ++ [params]) (f : SFileAndHash) (hat : At ix list n) :
    At (beginDir cfg ix below.length f) (list ++ listText cfg n [.dir f]) (n + 1) ∧
      (beginDir cfg ix below.length f).params_stack = below ++ [{ params with recur_ret := ⟨true, list.length, n⟩ }] := by
  have hwrite : At (writeItem ix (dirText cfg f.name f.change_indicator (linkParams cfg f ++ lineParam (ix.file_id + 1))))
      (list ++ listText cfg n [.dir f]) (n + 1) := hat.writeItem_text (.dir f)
  refine ⟨⟨hwrite.list, hwrite.pos_le, hwrite.file_id⟩, ?_⟩
  simp only [beginDir, Index.setRet, writeItem, hstack, modify_top, hat.pos, hat.file_id]

theorem checkFilesDirs_at (stack_idx : Nat) (files : List FileTree) (hat : At ix list n) : ∃ ix',
    checkFilesDirs cfg p orig_dir named_path stack_idx files ix =
      (decide (fileItems cfg p orig_dir named_path files ≠ []) || (cfg.dir_recurse && includesDir cfg p orig_dir named_path files), ix') ∧
    At ix' (list ++ listText cfg n (fileItems cfg p orig_dir named_path files)) (n + (fileItems cfg p orig_dir named_path files).length) ∧
      ix'.params_stack = ix.params_stack ++ if cfg.dir_recurse then (pushed cfg p orig_dir named_path stack_idx files).reverse else [] := by
  obtain ⟨ix₁, hfiles, hat₁, hstack₁⟩ := checkFiles_at (p := p) files hat
  by_cases hrecurse : cfg.dir_recurse = true
  · refine ⟨{ ix₁ with params_stack := ix.params_stack ++ (pushed cfg p orig_dir named_path stack_idx files).reverse }, ?_, hat₁.stack _,
      by simp [hrecurse]⟩
    simp only [checkFilesDirs, hfiles, hrecurse, if_true, pushDirs_eq, hstack₁, Bool.true_and]
  · refine ⟨ix₁, ?_, hat₁, by simp [hrecurse, hstack₁]⟩
    simp [checkFilesDirs, hfiles, hrecurse]

section Enter

variable (hstack : ix.params_stack = below ++ [params]) (hstate : params.state = .enter)

include hstack hstate

theorem step_enter : step cfg p ix =
    some (initialCheckRecur1 cfg p { ix with params_stack := below ++ [{ params with state := .leave }] } below.length params) := by
  rw [step, step_back hstack, Option.map_some]
  simp only [hstate, hstack, modify_top]

/-- A directory is begun: its entry and its files come into the list, and its directories onto
the stack. -/
theorem enter_dir {f : SFileAndHash} {files : List FileTree}
    (hfile : params.file = .node f files) (hlink : (f.issym && cfg.with_proper_symlinks) = false) (hat : At ix list n) :
    let orig := subPath params.orig_dir f.name
    let named := subPath params.named_path f.name
    let items := fileItems cfg p orig named files
    ∃ ix', step cfg p ix = some ix' ∧ At ix' (list ++ listText cfg n (.dir f :: items)) (n + 1 + items.length) ∧
      ix'.params_stack = below ++ { params with
        state := .leave
        recur_ret := ⟨decide (items ≠ []) || (cfg.dir_recurse && includesDir cfg p orig named files), list.length, n⟩ } ::
          if cfg.dir_recurse then (pushed cfg p orig named below.length files).reverse else [] := by
  intro orig named items
  have hf : params.file.file = f := by rw [hfile]; rfl
  have hfs : params.file.files = files := by rw [hfile]; rfl
  have hnot : (!f.issym || !cfg.with_proper_symlinks) = true := by
    rw [← Bool.not_and, hlink]
    rfl
  obtain ⟨hbegun, hbegun_stack⟩ := @beginDir_at _ _ _ { ix with params_stack := below ++ [{ params with state := .leave }] } _ _ rfl f
    (hat.stack _)
  obtain ⟨ix₁, hcheck, hat₁, hstack₁⟩ := checkFilesDirs_at (p := p) below.length files
    hbegun
  refine ⟨_, step_enter hstack hstate, ?_⟩
  have htext : list ++ listText cfg n (.dir f :: items) = list ++ listText cfg n [.dir f] ++ listText cfg (n + 1) items := by
    simp [listText]
  rw [htext]
  rw [hbegun_stack, List.append_assoc, List.singleton_append] at hstack₁
  simp only [initialCheckRecur1, hf, hfs, hnot, if_true]
  rw [hcheck]
  simp only [Index.setRet, hstack₁, modify_top]
  exact ⟨hat₁.stack _, rfl⟩

theorem enter_link {f : SFileAndHash} {files : List FileTree}
    (hfile : params.file = .node f files) (hlink : (f.issym && cfg.with_proper_symlinks) = true) (hat : At ix list n) :
    ∃ ix', step cfg p ix = some ix' ∧ At ix' (list ++ listText cfg n [.dir f]) (n + 1) ∧
      ix'.params_stack = below ++ [{ params with state := .leave, recur_ret := ⟨true, list.length, n⟩ }] := by
  have hf : params.file.file = f := by rw [hfile]; rfl
  have hnot : (!f.issym || !cfg.with_proper_symlinks) = false := by
    rw [← Bool.not_and, hlink]
    rfl
  obtain ⟨hbegun, hbegun_stack⟩ := beginDir_at rfl f
    (hat.stack _)
  refine ⟨_, step_enter hstack hstate, ?_⟩
  simp only [initialCheckRecur1, hf, hnot, Bool.false_eq_true, if_false]
  exact ⟨hbegun, hbegun_stack⟩

end Enter

end Machine

section Runs

variable {cfg : Settings} {p : Patterns} {orig_dir named_path list : Bytes} {n i : Nat} {ix : Index} {below : List SRecurParams}

@[elab_as_elim]
theorem FileTree.induct {motive : FileTree → Prop} (node : ∀ f files, (∀ t ∈ files, motive t) → motive (.node f files)) (t : FileTree) :
    motive t :=
  @FileTree.rec motive (fun ts => ∀ t ∈ ts, motive t) node nofun
    (fun _ _ ht hts _ hmem => (List.mem_cons.mp hmem).elim (fun heq => heq ▸ ht) (hts _)) t

/-- The loop takes a directory from the stack and lists it as the walk does. -/
def Runs (cfg : Settings) (p : Patterns) (t : FileTree) : Prop :=
  ∀ {orig_dir named_path list : Bytes} {n i : Nat} {ix : Index} {below : List SRecurParams},
    entersDir cfg p orig_dir named_path t.file = true → i < below.length →
      ix.params_stack = below ++ [frame cfg p orig_dir named_path i t] → At ix list n →
        ∃ ix', Reaches cfg p ix ix' ∧ ix'.params_stack = below.modify i (tell (walkDir cfg p orig_dir named_path t).2) ∧
          At ix' (list ++ listText cfg n (walkDir cfg p orig_dir named_path t).1) (n + (walkDir cfg p orig_dir named_path t).1.length)

theorem walkDir_not_entered {t : FileTree} (h : entersDir cfg p orig_dir named_path t.file = false) :
    walkDir cfg p orig_dir named_path t = ([], false) := by
  obtain ⟨f, files⟩ := t
  rw [FileTree.file] at h
  rw [walkDir, h]
  rfl

theorem runs_dirs {files : List FileTree} (hruns : ∀ t ∈ files, Runs cfg p t) (hi : i < below.length)
    (hstack : ix.params_stack = below ++ (pushed cfg p orig_dir named_path i files).reverse) (hat : At ix list n) :
    ∃ ix', Reaches cfg p ix ix' ∧ ix'.params_stack = below.modify i (tell (walkDirs cfg p orig_dir named_path files).2) ∧
      At ix' (list ++ listText cfg n (walkDirs cfg p orig_dir named_path files).1) (n + (walkDirs cfg p orig_dir named_path files).1.length) := by
  induction files generalizing below ix list n with
  | nil =>
    have hnone : ix.params_stack = below := by simpa [pushed] using hstack
    exact ⟨ix, reaches_refl, by rw [hnone, walkDirs, modify_tell_false], by simpa [walkDirs, listText] using hat⟩
  | cons t files ih =>
    have hrest : ∀ t ∈ files, Runs cfg p t := fun t ht => hruns t (List.mem_cons_of_mem _ ht)
    by_cases henters : entersDir cfg p orig_dir named_path t.file = true
    · have hpushed : pushed cfg p orig_dir named_path i (t :: files) =
          frame cfg p orig_dir named_path i t :: pushed cfg p orig_dir named_path i files := by
        simp [pushed, henters]
      rw [hpushed, List.reverse_cons, ← List.append_assoc] at hstack
      have hlt : i < (below ++ (pushed cfg p orig_dir named_path i files).reverse).length := by
        rw [List.length_append]
        omega
      obtain ⟨ix₁, hreach₁, hstack₁, hat₁⟩ := hruns t List.mem_cons_self henters hlt hstack hat
      rw [modify_below hi] at hstack₁
      obtain ⟨ix₂, hreach₂, hstack₂, hat₂⟩ := ih hrest (by simpa using hi) hstack₁ hat₁
      refine ⟨ix₂, hreach₁.trans hreach₂, ?_, ?_⟩
      · rw [hstack₂, modify_tell_tell, walkDirs]
      · rw [walkDirs, listText_append, List.length_append, ← List.append_assoc, ← Nat.add_assoc]
        exact hat₂
    · have hpushed : pushed cfg p orig_dir named_path i (t :: files) = pushed cfg p orig_dir named_path i files := by
        simp [pushed, henters]
      rw [hpushed] at hstack
      rw [walkDirs, walkDir_not_entered (by simpa using henters)]
      simpa using ih hrest hi hstack hat

/-- The directories in a directory are done before it is left. -/
theorem runs_inside {files : List FileTree} (hruns : ∀ t ∈ files, Runs cfg p t) {params : SRecurParams}
    (hstack : ix.params_stack = below ++ params ::
      if cfg.dir_recurse then (pushed cfg p orig_dir named_path below.length files).reverse else []) (hat : At ix list n) :
    let dirs := if cfg.dir_recurse then walkDirs cfg p orig_dir named_path files else ([], false)
    ∃ ix', Reaches cfg p ix ix' ∧ ix'.params_stack = below ++ [tell dirs.2 params] ∧
      At ix' (list ++ listText cfg n dirs.1) (n + dirs.1.length) := by
  intro dirs
  by_cases hrecurse : cfg.dir_recurse = true
  · have hdirs : dirs = walkDirs cfg p orig_dir named_path files := if_pos hrecurse
    rw [if_pos hrecurse, List.append_cons] at hstack
    obtain ⟨ix', hreach, hstack', hat'⟩ := runs_dirs (i := below.length) hruns (by simp) hstack hat
    rw [modify_top] at hstack'
    rw [hdirs]
    exact ⟨ix', hreach, hstack', hat'⟩
  · have hdirs : dirs = ([], false) := if_neg hrecurse
    rw [if_neg hrecurse] at hstack
    rw [hdirs]
    exact ⟨ix, reaches_refl, by rw [hstack, tell_false], by simpa [listText] using hat⟩

/-- What `leave_dir` leaves behind is the directory with all in it, or nothing. -/
theorem dir_listed {f : SFileAndHash} {items dirs : List Item} {has_include curr_included : Bool}
    (hstack : ix.params_stack = below.modify i (tell has_include))
    (hat : if has_include || curr_included then
        At ix (list ++ (listText cfg n (.dir f :: items) ++ listText cfg (n + 1 + items.length) dirs) ++
          listText cfg (n + 1 + items.length + dirs.length) [.up]) (n + 1 + items.length + dirs.length + 1)
      else At ix list n) :
    let kept := if has_include || curr_included then (.dir f :: items ++ dirs ++ [.up], has_include) else ([], false)
    ix.params_stack = below.modify i (tell kept.2) ∧ At ix (list ++ listText cfg n kept.1) (n + kept.1.length) := by
  intro kept
  by_cases hkept : (has_include || curr_included) = true
  · have heq : kept = (.dir f :: items ++ dirs ++ [.up], has_include) := if_pos hkept
    have hlen : n + kept.1.length = n + 1 + items.length + dirs.length + 1 := by
      simp only [heq, List.length_append, List.length_cons, List.length_nil]
      omega
    have htext : listText cfg n kept.1 = listText cfg n (.dir f :: items) ++ listText cfg (n + 1 + items.length) dirs ++
        listText cfg (n + 1 + items.length + dirs.length) [.up] := by
      rw [heq, listText_append, listText_append, List.length_append, List.length_cons, Nat.add_comm items.length, ← Nat.add_assoc,
        ← Nat.add_assoc, ← Nat.add_assoc]
    rw [if_pos hkept, List.append_assoc, ← htext, ← hlen] at hat
    exact ⟨by rw [heq]; exact hstack, hat⟩
  · have heq : kept = ([], false) := if_neg hkept
    rw [if_neg hkept] at hat
    rw [Bool.not_eq_true, Bool.or_eq_false_iff] at hkept
    rw [hkept.1] at hstack
    rw [heq]
    exact ⟨hstack, by simpa [listText] using hat⟩

theorem runs_dir (t : FileTree) : Runs cfg p t := by
  induction t using FileTree.induct with
  | node f files hfiles =>
    intro orig_dir named_path list n i ix below henters hi hstack hat
    have henters' : entersDir cfg p orig_dir named_path f = true := henters
    rw [walkDir, henters']
    simp only [Bool.not_true, Bool.false_eq_true, if_false]
    by_cases hlink : (f.issym && cfg.with_proper_symlinks) = true
    · obtain ⟨ix₁, hstep₁, hat₁, hstack₁⟩ := enter_link (p := p) hstack rfl rfl hlink hat
      obtain ⟨ix₂, hstep₂, hstack₂, hat₂⟩ := leave_dir (p := p) hstack₁ rfl hi rfl rfl rfl hat₁
      refine ⟨ix₂, (reaches_step hstep₁).trans (reaches_step hstep₂), by rw [if_pos hlink]; exact hstack₂, ?_⟩
      rw [if_pos hlink]
      simpa [listText] using hat₂
    · rw [if_neg hlink]
      obtain ⟨ix₁, hstep₁, hat₁, hstack₁⟩ := enter_dir (p := p) hstack rfl rfl (by simpa using hlink) hat
      obtain ⟨ix₂, hreach₂, hstack₂, hat₂⟩ := runs_inside hfiles hstack₁ hat₁
      rw [List.append_assoc] at hat₂
      obtain ⟨ix₃, hstep₃, hstack₃, hat₃⟩ := leave_dir (p := p) hstack₂ rfl hi rfl rfl rfl hat₂
      refine ⟨ix₃, (reaches_step hstep₁).trans (hreach₂.trans (reaches_step hstep₃)), ?_⟩
      dsimp only [tell, frame, FileTree.file] at hstack₃ hat₃
      exact dir_listed hstack₃ hat₃

end Runs

end urbackup.clientindex
