import Mathlib.Data.List.Perm.Subperm
import Mathlib.Data.List.Infix
import UrBackup.FilePaths.SamePaths

namespace urbackup.filemetadata

open stringtools filepaths

section Model

/-- A call of `os_set_file_time`. -/
structure FileTime where
  os_path : Bytes
  created : Int
  modified : Int
  accessed : Int
deriving DecidableEq

structure SFolderItem where
  path : Bytes
  os_path : Bytes := []
  created : Int := 0
  modified : Int := 0
  accessed : Int := 0
  folder_items : Int := -1
  counted_items : Int := 0
deriving DecidableEq

def SFolderItem.times (e : SFolderItem) : FileTime :=
  ⟨e.os_path, e.created, e.modified, e.accessed⟩

/-- The arguments of `addFolderItem`. -/
structure MetadataItem where
  path : Bytes
  os_path : Bytes
  is_dir : Bool
  created : Int
  modified : Int
  accessed : Int
  folder_items : Int
deriving DecidableEq

namespace MetadataItem

variable (i : MetadataItem)

def times : FileTime :=
  ⟨i.os_path, i.created, i.modified, i.accessed⟩

def toks : List Bytes :=
  Tokenize i.path slash

/-- The counter of a directory with what its own record says of it. -/
def counter (counted_items : Int) : SFolderItem :=
  { path := i.path, os_path := i.os_path, created := i.created, modified := i.modified, accessed := i.accessed,
    folder_items := i.folder_items, counted_items := counted_items }

end MetadataItem

structure FileMetadataDownloadThread where
  saved_folder_items : List SFolderItem := []
  file_times : List FileTime := []
deriving DecidableEq

/-- The search for the counter of a path. What is found is replaced by what `f` makes of
it, or erased. -/
def atPath (path : Bytes) (f : SFolderItem → Option SFolderItem × List FileTime) :
    List SFolderItem → Option (List SFolderItem × List FileTime)
  | [] => none
  | e :: es =>
    if e.path = path then some ((f e).1.toList ++ es, (f e).2)
    else (atPath path f es).map fun r => (e :: r.1, r.2)

/-- One more item below the directory of a counter. -/
def countItem (e : SFolderItem) : Option SFolderItem × List FileTime :=
  let e := { e with counted_items := e.counted_items + 1 }
  if e.counted_items = e.folder_items then (none, [e.times]) else (some e, [])

/-- The record of the directory itself. -/
def ownItem (i : MetadataItem) (e : SFolderItem) : Option SFolderItem × List FileTime :=
  if e.counted_items = i.folder_items then (none, [i.times])
  else
    (some { e with folder_items := i.folder_items, os_path := i.os_path, accessed := i.accessed, created := i.created,
                   modified := i.modified }, [])

namespace FileMetadataDownloadThread

variable (t : FileMetadataDownloadThread)

def addSingleFileItem (dir_path : Bytes) : FileMetadataDownloadThread :=
  match atPath dir_path countItem t.saved_folder_items with
  | some (saved, set) => ⟨saved, t.file_times ++ set⟩
  | none => { t with saved_folder_items := t.saved_folder_items ++ [{ path := dir_path, counted_items := 1 }] }

/-- The loop over all tokens but the last one. -/
def addAncestors (t : FileMetadataDownloadThread) (curr_path : Bytes) : List Bytes → FileMetadataDownloadThread
  | [] => t
  | [_] => t
  | tok :: toks =>
    let curr_path := (if curr_path = [] then [] else curr_path ++ [slash]) ++ tok
    addAncestors (t.addSingleFileItem curr_path) curr_path toks

def addFolderItem (i : MetadataItem) : FileMetadataDownloadThread :=
  let t := t.addAncestors [] i.toks
  if i.is_dir then
    if i.folder_items = 0 then { t with file_times := t.file_times ++ [i.times] }
    else
      match atPath i.path (ownItem i) t.saved_folder_items with
      | some (saved, set) => ⟨saved, t.file_times ++ set⟩
      | none => t
  else t

/-- The items in the order in which they arrive. -/
def run (items : List MetadataItem) : FileMetadataDownloadThread :=
  items.foldl addFolderItem {}

end FileMetadataDownloadThread

end Model

section Trees

/-- The item `i` is below the directory `d`. -/
def Below (d i : MetadataItem) : Prop :=
  d.toks <+: i.toks ∧ d.toks ≠ i.toks

instance (d i : MetadataItem) : Decidable (Below d i) :=
  inferInstanceAs (Decidable (_ ∧ _))

/-- The items of a directory tree, each once. -/
structure IsTree (items : List MetadataItem) : Prop where
  named : ∀ i ∈ items, i.toks ≠ [] ∧ (∀ n ∈ i.toks, IsComponent n) ∧ i.path = (join i.toks).tail
  distinct : (items.map (·.path)).Nodup
  parents : ∀ i ∈ items, ∀ ns, ns <+: i.toks → ns ≠ [] → ns ≠ i.toks → ∃ d ∈ items, d.is_dir = true ∧ d.toks = ns
  counts : ∀ d ∈ items, d.is_dir = true → d.folder_items = items.countP (Below d ·)

/-- The times of each directory are set once, and not before all items below it have
arrived. -/
structure TimesSet (items : List MetadataItem) : Prop where
  once : (FileMetadataDownloadThread.run items).file_times.Perm ((items.filter (·.is_dir)).map (·.times))
  after : ∀ done rest, items = done ++ rest → (FileMetadataDownloadThread.run done).file_times.Subperm
    ((done.filter fun d => d.is_dir ∧ ∀ i ∈ rest, ¬ Below d i).map (·.times))
  emptied : (FileMetadataDownloadThread.run items).saved_folder_items = []

/-- No directory arrives before all the items below it. -/
def NoneFirst (items : List MetadataItem) : Prop :=
  ∀ done d rest, items = done ++ d :: rest → d.is_dir = true → (∃ i ∈ items, Below d i) → ∃ i ∈ done, Below d i

end Trees

section Counters

variable {path : Bytes} {f : SFolderItem → Option SFolderItem × List FileTime} {saved : List SFolderItem}

/-- The first counter of the path is replaced. -/
theorem atPath_cases (path : Bytes) (f : SFolderItem → Option SFolderItem × List FileTime) (saved : List SFolderItem) :
    (atPath path f saved = none ∧ ∀ e ∈ saved, e.path ≠ path) ∨
      ∃ pre e post, saved = pre ++ e :: post ∧ e.path = path ∧ (∀ e' ∈ pre, e'.path ≠ path) ∧
        atPath path f saved = some (pre ++ (f e).1.toList ++ post, (f e).2) := by
  induction saved with
  | nil => exact Or.inl ⟨rfl, fun e he => nomatch he⟩
  | cons a as ih =>
    by_cases ha : a.path = path
    · refine Or.inr ⟨[], a, as, rfl, ha, ?_, ?_⟩
      · exact fun e' he' => nomatch he'
      · rw [atPath, if_pos ha]
        rfl
    · rcases ih with ⟨heq, hnone⟩ | ⟨pre, e, post, rfl, hpath, hpre, heq⟩
      · refine Or.inl ⟨by rw [atPath, if_neg ha, heq]; rfl, fun e he => ?_⟩
        rcases List.mem_cons.mp he with rfl | he
        · exact ha
        · exact hnone e he
      · refine Or.inr ⟨a :: pre, e, post, rfl, hpath, fun e' he' => ?_, by rw [atPath, if_neg ha, heq]; rfl⟩
        rcases List.mem_cons.mp he' with rfl | he'
        · exact ha
        · exact hpre e' he'

theorem atPath_none (h : ∀ e ∈ saved, e.path ≠ path) : atPath path f saved = none := by
  rcases atPath_cases path f saved with ⟨heq, -⟩ | ⟨pre, e, post, rfl, hpath, -⟩
  · exact heq
  · exact absurd hpath (h e (by simp))

/-- Where each path has one counter, the others stay. -/
theorem atPath_some (hnodup : (saved.map (·.path)).Nodup) {e : SFolderItem} (he : e ∈ saved) (hpath : e.path = path)
    (hf : ∀ e', (f e).1 = some e' → e'.path = path) :
    ∃ es, atPath path f saved = some (es, (f e).2) ∧ (es.map (·.path)).Nodup ∧
      ∀ e', e' ∈ es ↔ e' ∈ saved ∧ e'.path ≠ path ∨ (f e).1 = some e' := by
  rcases atPath_cases path f saved with ⟨-, hnone⟩ | ⟨pre, a, post, rfl, ha, hpre, heq⟩
  · exact absurd hpath (hnone e he)
  · have hmid := List.nodup_middle.mp (by simpa using hnodup)
    rw [List.nodup_cons, ← List.map_append] at hmid
    obtain ⟨hnot, hrest⟩ := hmid
    have hother : ∀ e' ∈ pre ++ post, e'.path ≠ path := by
      intro e' he' heq'
      exact hnot (List.mem_map.mpr ⟨e', he', heq'.trans ha.symm⟩)
    obtain rfl : e = a := by
      by_contra hne
      exact hother e (by simpa [hne] using he) hpath
    refine ⟨_, heq, ?_, fun e' => ?_⟩
    · cases hfe : (f e).1 with
      | none => simpa using hrest
      | some e' =>
        simp only [Option.toList_some, List.append_assoc, List.singleton_append, List.map_append, List.map_cons, hf e' hfe]
        rw [List.nodup_middle, List.nodup_cons, ← List.map_append, ← hpath]
        exact ⟨hnot, hrest⟩
    · have hkept : e' ∈ pre ++ post ↔ e' ∈ pre ++ e :: post ∧ e'.path ≠ path := by
        constructor
        · intro hmem
          refine ⟨?_, hother e' hmem⟩
          rcases List.mem_append.mp hmem with hmem | hmem
          · exact List.mem_append_left _ hmem
          · exact List.mem_append_right _ (List.mem_cons_of_mem _ hmem)
        · rintro ⟨hmem, hne⟩
          have : e' ≠ e := fun heq' => hne (heq' ▸ hpath)
          simpa [this] using hmem
      rw [← hkept]
      simp only [List.mem_append, Option.mem_toList]
      tauto

theorem countItem_path {e e' : SFolderItem} (h : (countItem e).1 = some e') : e'.path = e.path := by
  simp only [countItem] at h
  split at h
  · cases h
  · rw [← Option.some.inj h]

theorem ownItem_path {i : MetadataItem} {e e' : SFolderItem} (h : (ownItem i e).1 = some e') : e'.path = e.path := by
  simp only [ownItem] at h
  split at h
  · cases h
  · rw [← Option.some.inj h]

end Counters

section Paths

/-- The path of the directory that some tokens lead to. -/
def pathOf (ns : List Bytes) : Bytes :=
  (join ns).tail

/-- The tokens of a path. -/
def IsToks (ns : List Bytes) : Prop :=
  ns ≠ [] ∧ ∀ n ∈ ns, IsComponent n

theorem IsToks.pathOf_inj {ns ms : List Bytes} (hns : IsToks ns) (hms : IsToks ms) (h : pathOf ns = pathOf ms) : ns = ms := by
  rw [← Tokenize_join hns.2, ← Tokenize_join hms.2]
  exact congrArg (Tokenize · slash) h

/-- The directories above an item, `pre` before the tokens that are left. -/
def ancestorsFrom (pre : List Bytes) : List Bytes → List (List Bytes)
  | [] => []
  | [_] => []
  | tok :: toks => (pre ++ [tok]) :: ancestorsFrom (pre ++ [tok]) toks

theorem mem_ancestorsFrom {pre toks ns : List Bytes} :
    ns ∈ ancestorsFrom pre toks ↔ ns <+: pre ++ toks ∧ pre.length < ns.length ∧ ns.length < pre.length + toks.length := by
  induction toks generalizing pre with
  | nil => simp only [ancestorsFrom, List.not_mem_nil, List.length_nil, false_iff]; omega
  | cons tok toks ih =>
    cases toks with
    | nil => simp only [ancestorsFrom, List.not_mem_nil, List.length_singleton, false_iff]; omega
    | cons tok' toks =>
      rw [ancestorsFrom, List.mem_cons, ih, List.append_assoc, List.singleton_append, List.length_append]
      · simp only [List.length_nil, List.length_cons]
        constructor
        · rintro (rfl | ⟨hstart, hlow, hhigh⟩)
          · refine ⟨⟨tok' :: toks, by simp⟩, ?_, ?_⟩ <;> simp
          · exact ⟨hstart, by omega, by omega⟩
        · rintro ⟨hstart, hlow, hhigh⟩
          by_cases hlen : ns.length = pre.length + 1
          · left
            have hother : pre ++ [tok] <+: pre ++ tok :: tok' :: toks := ⟨tok' :: toks, by simp⟩
            exact (List.prefix_of_prefix_length_le hstart hother (by simp [hlen])).eq_of_length (by simp [hlen])
          · exact Or.inr ⟨hstart, by omega, by omega⟩
      · simp

theorem nodup_ancestorsFrom (pre toks : List Bytes) : (ancestorsFrom pre toks).Nodup := by
  induction toks generalizing pre with
  | nil => exact List.nodup_nil
  | cons tok toks ih =>
    cases toks with
    | nil => exact List.nodup_nil
    | cons tok' toks =>
      rw [ancestorsFrom, List.nodup_cons]
      · refine ⟨fun hmem => ?_, ih _⟩
        have := (mem_ancestorsFrom.mp hmem).2.1
        omega
      · simp

theorem pathOf_concat {pre : List Bytes} (tok : Bytes) (h : ∀ n ∈ pre, IsComponent n) :
    (if pathOf pre = [] then [] else pathOf pre ++ [slash]) ++ tok = pathOf (pre ++ [tok]) := by
  cases pre with
  | nil => simp [pathOf, join]
  | cons n ns =>
    have hne : pathOf (n :: ns) ≠ [] := by
      have := (h n List.mem_cons_self).1
      simp [pathOf, join_cons, this]
    rw [if_neg hne, pathOf, pathOf, join_concat, List.tail_append_of_ne_nil (join_ne_nil (by simp))]
    simp

theorem addAncestors_eq (t : FileMetadataDownloadThread) (pre toks : List Bytes) (h : ∀ n ∈ pre ++ toks, IsComponent n) :
    t.addAncestors (pathOf pre) toks = (ancestorsFrom pre toks).foldl (fun t ns => t.addSingleFileItem (pathOf ns)) t := by
  induction toks generalizing pre t with
  | nil => rfl
  | cons tok toks ih =>
    cases toks with
    | nil => rfl
    | cons tok' toks =>
      have hpre : ∀ n ∈ pre, IsComponent n := fun n hn => h n (List.mem_append_left _ hn)
      rw [FileMetadataDownloadThread.addAncestors, ancestorsFrom, List.foldl_cons]
      · rw [pathOf_concat tok hpre, ih]
        simpa using h
      · simp
      · simp

end Paths

end urbackup.filemetadata
