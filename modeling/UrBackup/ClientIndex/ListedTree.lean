import UrBackup.ClientIndex.Counted

namespace urbackup.clientindex

open stringtools filedata

section Listing

variable (cfg : Settings) (p : Patterns)

/-- A directory with what is kept in it: it is kept where it is included itself, and where
something in it is. -/
def keptDir (f : SFileAndHash) (included : Bool) (kept : List Item) : List Item :=
  if included || kept ≠ [] then .dir f :: kept ++ [.up] else []

mutual

/-- The listing of a directory by recursion. A link to one is not followed. -/
def listDir (orig_dir named_path : Bytes) : FileTree → List Item
  | .node f files =>
    let c := checkDir cfg p orig_dir named_path f
    if c.skipped then []
    else if f.issym && cfg.with_proper_symlinks then [.dir f, .up]
    else keptDir f c.curr_included (fileItems cfg p (subPath orig_dir f.name) (subPath named_path f.name) files ++
      if cfg.dir_recurse then listDirs (subPath orig_dir f.name) (subPath named_path f.name) files else [])

def listDirs (orig_dir named_path : Bytes) : List FileTree → List Item
  | [] => []
  | t :: ts => listDir orig_dir named_path t ++ listDirs orig_dir named_path ts

end

/-- Not skipped, but nothing in it is expected to match. -/
def passesOver (orig_dir named_path : Bytes) (f : SFileAndHash) : Bool :=
  let c := checkDir cfg p orig_dir named_path f
  !c.skipped && !c.curr_included && c.worthless

/-- A directory that the walk comes to and passes over, with where it is. -/
inductive PassedOver : Bytes → Bytes → FileTree → Bytes → Bytes → FileTree → Prop
  | here {orig_dir named_path : Bytes} {t : FileTree} :
      passesOver cfg p orig_dir named_path t.file = true → PassedOver orig_dir named_path t orig_dir named_path t
  | inside {orig_dir named_path orig_dir' named_path' : Bytes} {f : SFileAndHash} {files : List FileTree} {t t' : FileTree} :
      entersDir cfg p orig_dir named_path f = true → (f.issym && cfg.with_proper_symlinks) = false → cfg.dir_recurse = true → t ∈ files →
        PassedOver (subPath orig_dir f.name) (subPath named_path f.name) t orig_dir' named_path' t' →
          PassedOver orig_dir named_path (.node f files) orig_dir' named_path' t'

/-- Nothing would be listed for a directory that is passed over. -/
def LosesNothing (orig_dir named_path : Bytes) (t : FileTree) : Prop :=
  ∀ orig_dir' named_path' t', PassedOver cfg p orig_dir named_path t orig_dir' named_path' t' → listDir cfg p orig_dir' named_path' t' = []

end Listing

section Walked

variable {cfg : Settings} {p : Patterns} {orig_dir named_path : Bytes} {f : SFileAndHash} {files : List FileTree}

theorem length_keptDir {included : Bool} {kept kept' : List Item} (hle : kept.length ≤ kept'.length) :
    (keptDir f included kept).length ≤ (keptDir f included kept').length ∧
      ((keptDir f included kept).length = (keptDir f included kept').length → kept.length = kept'.length) := by
  cases included with
  | true => simp [keptDir, hle]
  | false =>
    rcases kept with _ | ⟨x, kept⟩
    · rcases kept' with _ | ⟨y, kept'⟩ <;> simp [keptDir]
    · rcases kept' with _ | ⟨y, kept'⟩
      · simp at hle
      · simp only [List.length_cons] at hle
        simp [keptDir, hle]

theorem entersDir_iff : entersDir cfg p orig_dir named_path f = true ↔ (checkDir cfg p orig_dir named_path f).skipped = false ∧
    passesOver cfg p orig_dir named_path f = false := by
  cases hskipped : (checkDir cfg p orig_dir named_path f).skipped <;> cases hincluded : (checkDir cfg p orig_dir named_path f).curr_included <;>
    simp [entersDir, passesOver, hskipped, hincluded]

/-- What is below a directory that the walk goes into. -/
def walkInside (cfg : Settings) (p : Patterns) (orig_dir named_path : Bytes) (f : SFileAndHash) (files : List FileTree) : List Item × Bool :=
  if cfg.dir_recurse then walkDirs cfg p (subPath orig_dir f.name) (subPath named_path f.name) files else ([], false)

def insideIncluded (cfg : Settings) (p : Patterns) (orig_dir named_path : Bytes) (f : SFileAndHash) (files : List FileTree) : Bool :=
  fileItems cfg p (subPath orig_dir f.name) (subPath named_path f.name) files ≠ [] ||
    (cfg.dir_recurse && includesDir cfg p (subPath orig_dir f.name) (subPath named_path f.name) files) ||
      (walkInside cfg p orig_dir named_path f files).2

theorem walkDir_link (henters : entersDir cfg p orig_dir named_path f = true) (hlink : (f.issym && cfg.with_proper_symlinks) = true) :
    walkDir cfg p orig_dir named_path (.node f files) = ([.dir f, .up], true) := by
  rw [walkDir, henters]
  simp [hlink]

theorem walkDir_real (henters : entersDir cfg p orig_dir named_path f = true) (hlink : (f.issym && cfg.with_proper_symlinks) = false) :
    walkDir cfg p orig_dir named_path (.node f files) =
      if insideIncluded cfg p orig_dir named_path f files || (checkDir cfg p orig_dir named_path f).curr_included then
        (.dir f :: fileItems cfg p (subPath orig_dir f.name) (subPath named_path f.name) files ++
          (walkInside cfg p orig_dir named_path f files).1 ++ [.up], insideIncluded cfg p orig_dir named_path f files)
      else ([], false) := by
  rw [walkDir, henters, hlink]
  rfl

theorem walkDir_ne_nil_iff (t : FileTree) : (walkDir cfg p orig_dir named_path t).1 ≠ [] ↔
    (walkDir cfg p orig_dir named_path t).2 = true ∨ ((checkDir cfg p orig_dir named_path t.file).skipped = false ∧
      (checkDir cfg p orig_dir named_path t.file).curr_included = true) := by
  obtain ⟨f, files⟩ := t
  by_cases henters : entersDir cfg p orig_dir named_path f = true
  · have hskipped := (entersDir_iff.mp henters).1
    by_cases hlink : (f.issym && cfg.with_proper_symlinks) = true
    · simp [walkDir_link henters hlink]
    · rw [walkDir_real henters (by simpa using hlink), FileTree.file, hskipped]
      by_cases hkept : (insideIncluded cfg p orig_dir named_path f files || (checkDir cfg p orig_dir named_path f).curr_included) = true
      · rw [if_pos hkept]
        simpa using hkept
      · rw [if_neg hkept]
        simp_all
  · have hnot : ¬((checkDir cfg p orig_dir named_path f).skipped = false ∧ (checkDir cfg p orig_dir named_path f).curr_included = true) := by
      rintro ⟨hskipped, hincluded⟩
      simp [entersDir, hskipped, hincluded] at henters
    have hnone := walkDir_not_entered (t := .node f files) (Bool.not_eq_true _ ▸ henters)
    rw [hnone, FileTree.file]
    simpa using hnot

theorem walkDirs_ne_nil_iff (ts : List FileTree) : (walkDirs cfg p orig_dir named_path ts).1 ≠ [] ↔
    (walkDirs cfg p orig_dir named_path ts).2 = true ∨ ∃ t ∈ ts, (checkDir cfg p orig_dir named_path t.file).skipped = false ∧
      (checkDir cfg p orig_dir named_path t.file).curr_included = true := by
  induction ts with
  | nil => simp [walkDirs]
  | cons t ts ih =>
    have hsplit : (walkDirs cfg p orig_dir named_path (t :: ts)).1 ≠ [] ↔
        (walkDir cfg p orig_dir named_path t).1 ≠ [] ∨ (walkDirs cfg p orig_dir named_path ts).1 ≠ [] := by
      rw [walkDirs, Ne, List.append_eq_nil_iff]
      tauto
    rw [hsplit, walkDir_ne_nil_iff, ih, walkDirs]
    simp only [Bool.or_eq_true, List.exists_mem_cons_iff]
    tauto

theorem curr_included_of_all (hall : cfg.include_exclude_dirs = false) (hskipped : (checkDir cfg p orig_dir named_path f).skipped = false) :
    (checkDir cfg p orig_dir named_path f).curr_included = true := by
  simp only [checkDir, hall] at hskipped ⊢
  split at hskipped
  next => simp at hskipped
  next hlisted =>
    rw [if_neg hlisted]
    rfl

/-- What the loop knows about a directory when it leaves it is whether it has to be kept. -/
theorem walkDir_eq_keptDir (henters : entersDir cfg p orig_dir named_path f = true)
    (hlink : (f.issym && cfg.with_proper_symlinks) = false) : (walkDir cfg p orig_dir named_path (.node f files)).1 =
      keptDir f (checkDir cfg p orig_dir named_path f).curr_included
        (fileItems cfg p (subPath orig_dir f.name) (subPath named_path f.name) files ++ (walkInside cfg p orig_dir named_path f files).1) := by
  have hskipped := (entersDir_iff.mp henters).1
  have hkept : (insideIncluded cfg p orig_dir named_path f files || (checkDir cfg p orig_dir named_path f).curr_included) = true ↔
      ((checkDir cfg p orig_dir named_path f).curr_included || decide (fileItems cfg p (subPath orig_dir f.name) (subPath named_path f.name) files ++
        (walkInside cfg p orig_dir named_path f files).1 ≠ [])) = true := by
    cases hincluded : (checkDir cfg p orig_dir named_path f).curr_included with
    | true => simp
    | false =>
      have hchecks : cfg.include_exclude_dirs = true := by
        by_contra hall
        rw [curr_included_of_all (by simpa using hall) hskipped] at hincluded
        contradiction
      have hinside : (walkInside cfg p orig_dir named_path f files).1 ≠ [] ↔ (walkInside cfg p orig_dir named_path f files).2 = true ∨
          (cfg.dir_recurse && includesDir cfg p (subPath orig_dir f.name) (subPath named_path f.name) files) = true := by
        by_cases hrecurse : cfg.dir_recurse = true
        · rw [walkInside, if_pos hrecurse, walkDirs_ne_nil_iff]
          simp [includesDir, hrecurse, hchecks]
        · simp [walkInside, hrecurse]
      simp only [insideIncluded, Bool.or_false, Bool.false_or, Bool.or_eq_true, decide_eq_true_eq, ne_eq, List.append_eq_nil_iff] at hinside ⊢
      tauto
  rw [walkDir_real henters hlink, keptDir]
  by_cases h : (insideIncluded cfg p orig_dir named_path f files || (checkDir cfg p orig_dir named_path f).curr_included) = true
  · rw [if_pos h, if_pos (hkept.mp h)]
    simp
  · rw [if_neg h, if_neg (mt hkept.mpr h)]

end Walked

section Follows

variable {cfg : Settings} {p : Patterns} {orig_dir named_path : Bytes} {f : SFileAndHash} {files : List FileTree}

theorem losesNothing_skipped (hskipped : (checkDir cfg p orig_dir named_path f).skipped = true) :
    LosesNothing cfg p orig_dir named_path (.node f files) := by
  intro _ _ _ hpassed
  cases hpassed with
  | here hpasses => simp [passesOver, FileTree.file, hskipped] at hpasses
  | inside henters => simp [entersDir, hskipped] at henters

theorem losesNothing_passed (hpasses : passesOver cfg p orig_dir named_path f = true) :
    LosesNothing cfg p orig_dir named_path (.node f files) ↔ listDir cfg p orig_dir named_path (.node f files) = [] := by
  refine ⟨fun h => h _ _ _ (.here hpasses), ?_⟩
  intro hnone _ _ _ hpassed
  cases hpassed with
  | here => exact hnone
  | inside henters => simp [(entersDir_iff.mp henters).2] at hpasses

theorem losesNothing_entered (henters : entersDir cfg p orig_dir named_path f = true) :
    LosesNothing cfg p orig_dir named_path (.node f files) ↔ ((f.issym && cfg.with_proper_symlinks) = false → cfg.dir_recurse = true →
      ∀ t ∈ files, LosesNothing cfg p (subPath orig_dir f.name) (subPath named_path f.name) t) := by
  constructor
  · intro h hlink hrecurse t ht _ _ _ hpassed
    exact h _ _ _ (.inside henters hlink hrecurse ht hpassed)
  · intro h _ _ _ hpassed
    cases hpassed with
    | here hpasses => simp [FileTree.file, (entersDir_iff.mp henters).2] at hpasses
    | inside _ hlink hrecurse ht hpassed => exact h hlink hrecurse _ ht _ _ _ hpassed

/-- The walk lists no more than there is to list, and as much only where it loses nothing. -/
structure Follows (walked listed : List Item) (losesNothing : Prop) : Prop where
  length_le : walked.length ≤ listed.length
  of_length : walked.length = listed.length → losesNothing
  eq : losesNothing → walked = listed

theorem follows_inside {orig_dir named_path : Bytes} {ts : List FileTree}
    (h : ∀ t ∈ ts, Follows (walkDir cfg p orig_dir named_path t).1 (listDir cfg p orig_dir named_path t) (LosesNothing cfg p orig_dir named_path t)) :
    Follows (walkDirs cfg p orig_dir named_path ts).1 (listDirs cfg p orig_dir named_path ts)
      (∀ t ∈ ts, LosesNothing cfg p orig_dir named_path t) := by
  induction ts with
  | nil => exact ⟨Nat.le_refl _, fun _ => nofun, fun _ => rfl⟩
  | cons t ts ih =>
    have ht := h t List.mem_cons_self
    have hts := ih fun t ht => h t (List.mem_cons_of_mem _ ht)
    have hle := ht.length_le
    have hle' := hts.length_le
    rw [walkDirs, listDirs]
    refine ⟨?_, ?_, ?_⟩
    · rw [List.length_append, List.length_append]
      omega
    · intro heq
      rw [List.length_append, List.length_append] at heq
      exact List.forall_mem_cons.mpr ⟨ht.of_length (by omega), hts.of_length (by omega)⟩
    · intro hnothing
      obtain ⟨hhere, hrest⟩ := List.forall_mem_cons.mp hnothing
      rw [ht.eq hhere, hts.eq hrest]

theorem follows_dir (t : FileTree) : ∀ {orig_dir named_path : Bytes},
    Follows (walkDir cfg p orig_dir named_path t).1 (listDir cfg p orig_dir named_path t) (LosesNothing cfg p orig_dir named_path t) := by
  induction t using FileTree.induct with
  | node f files hfiles =>
    intro orig_dir named_path
    by_cases henters : entersDir cfg p orig_dir named_path f = true
    · have hskipped := (entersDir_iff.mp henters).1
      by_cases hlink : (f.issym && cfg.with_proper_symlinks) = true
      · have hlist : listDir cfg p orig_dir named_path (.node f files) = [.dir f, .up] := by
          rw [listDir, hskipped, hlink]
          rfl
        rw [walkDir_link henters hlink, hlist, losesNothing_entered henters]
        exact ⟨Nat.le_refl _, fun _ hreal => absurd hlink (by simp [hreal]), fun _ => rfl⟩
      · have hreal : (f.issym && cfg.with_proper_symlinks) = false := by simpa using hlink
        have hinside := follows_inside fun t ht =>
          @hfiles t ht (subPath orig_dir f.name) (subPath named_path f.name)
        have hlist : listDir cfg p orig_dir named_path (.node f files) = keptDir f (checkDir cfg p orig_dir named_path f).curr_included
            (fileItems cfg p (subPath orig_dir f.name) (subPath named_path f.name) files ++
              if cfg.dir_recurse then listDirs cfg p (subPath orig_dir f.name) (subPath named_path f.name) files else []) := by
          rw [listDir, hskipped, hreal]
          rfl
        rw [walkDir_eq_keptDir henters hreal, hlist, losesNothing_entered henters, walkInside]
        by_cases hrecurse : cfg.dir_recurse = true
        · rw [if_pos hrecurse, if_pos hrecurse]
          obtain ⟨hle, hlen⟩ := @length_keptDir f _
            (fileItems cfg p (subPath orig_dir f.name) (subPath named_path f.name) files ++
              (walkDirs cfg p (subPath orig_dir f.name) (subPath named_path f.name) files).1)
            (fileItems cfg p (subPath orig_dir f.name) (subPath named_path f.name) files ++
              listDirs cfg p (subPath orig_dir f.name) (subPath named_path f.name) files)
            (by simpa using hinside.length_le)
          refine ⟨hle, fun heq _ _ => hinside.of_length (by simpa using hlen heq), fun hnothing => ?_⟩
          rw [hinside.eq (hnothing hreal hrecurse)]
        · rw [if_neg hrecurse, if_neg hrecurse]
          exact ⟨Nat.le_refl _, fun _ _ h => absurd h hrecurse, fun _ => rfl⟩
    · have hnone : (walkDir cfg p orig_dir named_path (.node f files)).1 = [] := by
        rw [walkDir_not_entered (t := .node f files) (Bool.not_eq_true _ ▸ henters)]
      rw [hnone]
      cases hskipped : (checkDir cfg p orig_dir named_path f).skipped with
      | true =>
        have hlist : listDir cfg p orig_dir named_path (.node f files) = [] := by
          rw [listDir, hskipped]
          rfl
        exact ⟨Nat.zero_le _, fun _ => losesNothing_skipped hskipped, fun _ => hlist.symm⟩
      | false =>
        have hpasses : passesOver cfg p orig_dir named_path f = true := by
          by_contra hnot
          exact henters (entersDir_iff.mpr ⟨hskipped, by simpa using hnot⟩)
        rw [losesNothing_passed hpasses]
        exact ⟨Nat.zero_le _, fun heq => List.length_eq_zero_iff.mp heq.symm, Eq.symm⟩

end Follows

section Root

variable {cfg : Settings} {p : Patterns} {orig_dir named_path extra before rest : Bytes} {usn : BitVec 64} {files : List FileTree} {n : Nat}

theorem loop_more {fuel : Nat} {ix ix' : Index} (h : loop cfg p fuel ix = some ix') (more : Nat) : loop cfg p (fuel + more) ix = some ix' := by
  induction fuel generalizing ix with
  | zero => simp [loop] at h
  | succ fuel ih =>
    rw [Nat.succ_add, loop]
    rw [loop] at h
    split at h
    next hstep => exact ih h
    next hstep => exact h

theorem loop_unique {fuel fuel' : Nat} {ix ix₁ ix₂ : Index} (h₁ : loop cfg p fuel ix = some ix₁) (h₂ : loop cfg p fuel' ix = some ix₂) :
    ix₁ = ix₂ := by
  have h₁' := loop_more h₁ fuel'
  have h₂' := loop_more h₂ fuel
  rw [Nat.add_comm] at h₂'
  exact Option.some.inj (h₁'.symm.trans h₂')

/-- The files of the first directory are in the list, and its directories are on the stack. -/
theorem startCheck_at :
    let ix := startCheck cfg p orig_dir named_path usn extra files ⟨before ++ rest, before.length⟩ n
    let items := fileItems cfg p orig_dir named_path files
    At ix (before ++ dirText cfg named_path usn extra ++ listText cfg (n + 1) items) (n + 1 + items.length) ∧
      ∃ params, params.state = .first ∧
        ix.params_stack = params :: if cfg.dir_recurse then (pushed cfg p orig_dir named_path 0 files).reverse else [] := by
  intro ix items
  have hstart : At ⟨⟨before ++ rest, before.length⟩, n, []⟩ before n := ⟨by simp, by simp, rfl⟩
  obtain ⟨ix₁, hfiles, hat₁, hstack₁⟩ := @checkFiles_at cfg p _ orig_dir named_path _ _ files
    (hstart.writeItem (dirText cfg named_path usn extra))
  by_cases hrecurse : cfg.dir_recurse = true
  · simp only [ix, startCheck, hfiles, hrecurse, if_true, pushDirs_eq, List.singleton_append]
    exact ⟨hat₁.stack _, _, rfl, rfl⟩
  · simp only [ix, startCheck, hfiles, if_neg hrecurse]
    exact ⟨hat₁.stack _, _, rfl, rfl⟩

/-- The loop ends, and the list is the one of the walk. -/
theorem initialCheck_walk : ∃ fuel ix,
    let items := fileItems cfg p orig_dir named_path files ++ (if cfg.dir_recurse then walkDirs cfg p orig_dir named_path files else ([], false)).1
    initialCheck cfg p fuel orig_dir named_path usn extra files ⟨before ++ rest, before.length⟩ n = some ix ∧
      At ix (before ++ dirText cfg named_path usn extra ++ listText cfg (n + 1) (items ++ [.up])) (n + 1 + (items.length + 1)) := by
  obtain ⟨hat₁, params, hfirst, hstack₁⟩ := startCheck_at (p := p) (n := n)
  obtain ⟨ix₂, ⟨k, hk⟩, hstack₂, hat₂⟩ := @runs_inside _ _ _ _ _ _ _ [] _ (fun t _ => @runs_dir _ p t) _ hstack₁ hat₁
  have hstep : step cfg p ix₂ = some { ix₂ with params_stack := [] } := by
    rw [step, step_back hstack₂, Option.map_some]
    simp [tell, hfirst, hstack₂]
  have hloop : loop cfg p (k + 2) (startCheck cfg p orig_dir named_path usn extra files ⟨before ++ rest, before.length⟩ n) =
      some { ix₂ with params_stack := [] } := by
    rw [hk, loop, hstep]
    rfl
  refine ⟨k + 2, _, by rw [initialCheck, hloop]; rfl, ?_⟩
  have hup := @At.writeItem_text cfg _ _ _ (hat₂.stack []) .up
  rw [Item.text] at hup
  simpa only [listText_append, List.length_append, List.append_assoc, Nat.add_assoc] using hup

/-- The list that the recursive walk would leave, and where `file_id` stands in it at any time. -/
structure ListsTree (cfg : Settings) (p : Patterns) (orig_dir named_path : Bytes) (usn : BitVec 64) (extra : Bytes) (files : List FileTree)
    (before rest : Bytes) (n : Nat) : Prop where
  listing : ∃ fuel ix,
    let items := fileItems cfg p orig_dir named_path files ++ if cfg.dir_recurse then listDirs cfg p orig_dir named_path files else []
    initialCheck cfg p fuel orig_dir named_path usn extra files ⟨before ++ rest, before.length⟩ n = some ix ∧
      ix.list = before ++ dirText cfg named_path usn extra ++ listText cfg (n + 1) (items ++ [.up]) ∧ ix.file_id = n + 1 + (items.length + 1)
  counter : ∀ ix, Rounds cfg p (startCheck cfg p orig_dir named_path usn extra files ⟨before ++ rest, before.length⟩ n) ix →
    ∃ items, ix.list = before ++ dirText cfg named_path usn extra ++ listText cfg (n + 1) items ∧ ix.file_id = n + 1 + items.length

theorem startCheck_counter {ix : Index}
    (h : Rounds cfg p (startCheck cfg p orig_dir named_path usn extra files ⟨before ++ rest, before.length⟩ n) ix) :
    ∃ items, ix.list = before ++ dirText cfg named_path usn extra ++ listText cfg (n + 1) items ∧ ix.file_id = n + 1 + items.length := by
  obtain ⟨hat, params, hfirst, hstack⟩ := startCheck_at (p := p) (n := n)
  have hnoted : Noted cfg (before ++ dirText cfg named_path usn extra) (n + 1) (fileItems cfg p orig_dir named_path files) [params] :=
    .waiting (by simp [hfirst]) .nil
  obtain ⟨items, hcounted⟩ := counted_rounds h ⟨hat, by
    rw [hstack, List.reverse_cons]
    by_cases hrecurse : cfg.dir_recurse = true
    · rw [if_pos hrecurse, List.reverse_reverse]
      exact noted_pushed files hnoted
    · rw [if_neg hrecurse]
      exact hnoted⟩
  exact ⟨items, hcounted.list.list, hcounted.list.file_id⟩

/-- The list is the one of the recursive walk exactly where no directory is passed over that
would have been kept. -/
theorem listsTree_iff : ListsTree cfg p orig_dir named_path usn extra files before rest n ↔
    (cfg.dir_recurse = true → ∀ t ∈ files, LosesNothing cfg p orig_dir named_path t) := by
  obtain ⟨fuel, ix, hwalk, hat⟩ := initialCheck_walk (p := p) (n := n)
  have hfollows := @follows_inside cfg p orig_dir named_path files
    fun t _ => follows_dir t
  constructor
  · rintro ⟨⟨fuel', ix', hcheck, hlist, hid⟩, -⟩ hrecurse
    obtain ⟨ix₁, hloop₁, rfl⟩ := Option.map_eq_some_iff.mp hwalk
    obtain ⟨ix₂, hloop₂, rfl⟩ := Option.map_eq_some_iff.mp hcheck
    obtain rfl := loop_unique hloop₁ hloop₂
    have hlen := hat.file_id.symm.trans hid
    rw [if_pos hrecurse, if_pos hrecurse] at hlen
    exact hfollows.of_length (by simpa using hlen)
  · intro hnothing
    refine ⟨⟨fuel, ix, hwalk, ?_⟩, fun _ => startCheck_counter⟩
    have hinside : (if cfg.dir_recurse then walkDirs cfg p orig_dir named_path files else ([], false)).1 =
        if cfg.dir_recurse then listDirs cfg p orig_dir named_path files else [] := by
      by_cases hrecurse : cfg.dir_recurse = true
      · rw [if_pos hrecurse, if_pos hrecurse, hfollows.eq (hnothing hrecurse)]
      · rw [if_neg hrecurse, if_neg hrecurse]
    rw [hinside] at hat
    exact ⟨hat.list, hat.file_id⟩

end Root

end urbackup.clientindex
