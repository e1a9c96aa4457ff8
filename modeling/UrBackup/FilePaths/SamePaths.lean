import UrBackup.FileList.Agree
import UrBackup.FilePaths.FilePathCorrections

namespace urbackup.filepaths

open stringtools filelist

section Join

/-- The components of a path, each after a separator. -/
def join (names : List Bytes) : Bytes :=
  names.flatMap (slash :: ·)

theorem join_append (ns ms : List Bytes) : join (ns ++ ms) = join ns ++ join ms :=
  List.flatMap_append

theorem join_nil : join [] = [] :=
  rfl

theorem join_cons (n : Bytes) (ns : List Bytes) : join (n :: ns) = slash :: n ++ join ns :=
  rfl

theorem join_concat (ns : List Bytes) (n : Bytes) : join (ns ++ [n]) = join ns ++ slash :: n := by
  rw [join_append, join_cons]
  exact congrArg (join ns ++ ·) (List.append_nil _)

theorem join_ne_nil {ns : List Bytes} (h : ns ≠ []) : join ns ≠ [] := by
  cases ns with
  | nil => exact absurd rfl h
  | cons n ns => exact List.cons_ne_nil _ _

theorem tokenizeFrom_append {tok n : Bytes} (h : slash ∉ n) (str : Bytes) :
    tokenizeFrom slash tok (n ++ str) = tokenizeFrom slash (tok ++ n) str := by
  induction n generalizing tok with
  | nil => rw [List.nil_append, List.append_nil]
  | cons ch n ih =>
    have hch : ch ≠ slash := fun heq => h (heq ▸ List.mem_cons_self)
    have hn : slash ∉ n := fun hmem => h (List.mem_cons_of_mem _ hmem)
    rw [List.cons_append, tokenizeFrom, if_neg hch, ih hn, List.append_assoc]
    rfl

theorem tokenizeFrom_join {tok : Bytes} (htok : tok ≠ []) {ns : List Bytes} (h : ∀ n ∈ ns, IsComponent n) :
    tokenizeFrom slash tok (join ns) = tok :: ns := by
  induction ns generalizing tok with
  | nil => exact if_neg htok
  | cons n ns ih =>
    have hn := h n List.mem_cons_self
    have hrest := ih hn.1 fun m hm => h m (List.mem_cons_of_mem _ hm)
    rw [join_cons, List.cons_append, tokenizeFrom, if_pos rfl, tokenizeFrom_append hn.2.1, List.nil_append, hrest]

theorem Tokenize_join {ns : List Bytes} (h : ∀ n ∈ ns, IsComponent n) : Tokenize (join ns).tail slash = ns := by
  cases ns with
  | nil => rfl
  | cons n ns =>
    have hn := h n List.mem_cons_self
    have hrest := tokenizeFrom_join hn.1 fun m hm => h m (List.mem_cons_of_mem _ hm)
    rw [join_cons, List.cons_append, List.tail_cons]
    unfold Tokenize
    rw [tokenizeFrom_append hn.2.1, List.nil_append, hrest]

theorem takeWhile_component {n : Bytes} (h : slash ∉ n) (str : Bytes) :
    (n.reverse ++ slash :: str).takeWhile (· ≠ slash) = n.reverse := by
  rw [List.takeWhile_append_of_pos]
  · rw [List.takeWhile_cons_of_neg (by simp), List.append_nil]
  · intro ch hch
    have hne : ch ≠ slash := fun heq => h (heq ▸ List.mem_reverse.mp hch)
    simpa using hne

theorem ExtractFilePath_join (path : Bytes) {n : Bytes} (hne : n ≠ []) (h : slash ∉ n) :
    ExtractFilePath (path ++ slash :: n) slash = path := by
  unfold ExtractFilePath
  have hrev : (path ++ slash :: n).reverse.tail = n.reverse.tail ++ slash :: path.reverse := by
    rw [List.reverse_append, List.reverse_cons, List.append_assoc]
    exact List.tail_append_of_ne_nil (by simpa using hne)
  rw [hrev, List.dropWhile_append_of_pos]
  · rw [List.dropWhile_cons_of_neg (by simp), List.tail_cons, List.reverse_reverse]
  · intro ch hch
    have hne : ch ≠ slash := fun heq => h (heq ▸ List.mem_reverse.mp (List.mem_of_mem_tail hch))
    simpa using hne

theorem ExtractFileName_join (path : Bytes) {n : Bytes} (hne : n ≠ []) (h : slash ∉ n) (hnul : 0 ∉ n) :
    ExtractFileName (path ++ slash :: n) slash = n := by
  unfold ExtractFileName
  have hrev : (path ++ slash :: n).reverse = n.reverse ++ slash :: path.reverse := by
    rw [List.reverse_append, List.reverse_cons, List.append_assoc]
    rfl
  have hhead : (n.reverse ++ slash :: path.reverse).head? ≠ some slash := by
    intro hhead
    rw [List.head?_append_of_ne_nil _ (by simpa using hne)] at hhead
    exact h (List.mem_reverse.mp (List.mem_of_mem_head? hhead))
  dsimp only
  rw [hrev, if_neg hhead, takeWhile_component h, List.filter_eq_self.mpr, List.reverse_reverse]
  intro ch hch
  have hne : ch ≠ 0 := fun heq => hnul (heq ▸ List.mem_reverse.mp hch)
  simpa using hne

/-- A path is told apart by its last component and what stands before. -/
theorem split_inj {path path' n n' : Bytes} (hn : n ≠ []) (h : slash ∉ n) (hn' : n' ≠ []) (h' : slash ∉ n')
    (heq : path ++ slash :: n = path' ++ slash :: n') : path = path' ∧ n = n' := by
  have hpath : path = path' := by
    rw [← ExtractFilePath_join path hn h, heq, ExtractFilePath_join path' hn' h']
  subst hpath
  exact ⟨rfl, (List.cons.inj (List.append_cancel_left heq)).2⟩

theorem requestPath_join (ns : List Bytes) (n : Bytes) : requestPath (join ns) n = (join (ns ++ [n])).tail := by
  rw [join_concat]
  unfold requestPath
  dsimp only
  rw [if_pos]
  cases ns with
  | nil => rfl
  | cons m ns => rfl

end Join

section Fixed

variable (md5 : HexMD5)

theorem notMem_insertHash {orig_fn fn : Bytes} (h : slash ∉ fn) : slash ∉ insertHash md5 orig_fn fn := by
  have hhash : slash ∉ 45 :: (md5.GenerateHexMD5 orig_fn).take 10 := by
    intro hmem
    rcases List.mem_cons.mp hmem with hmem | hmem
    · cases hmem
    · rcases md5.hex orig_fn slash (List.mem_of_mem_take hmem) with hdigit | ⟨hlow, -⟩
      · cases hdigit
      · exact absurd hlow (by decide)
  unfold insertHash
  dsimp only
  split
  · intro hmem
    rcases List.mem_append.mp hmem with hmem | hmem
    · rcases List.mem_append.mp hmem with hmem | hmem
      · exact h (List.mem_of_mem_take hmem)
      · exact hhash hmem
    · exact h (List.mem_of_mem_drop hmem)
  · intro hmem
    rcases List.mem_append.mp hmem with hmem | hmem
    · exact h hmem
    · exact hhash hmem

theorem insertHash_ne_nil (orig_fn fn : Bytes) : insertHash md5 orig_fn fn ≠ [] := by
  unfold insertHash
  dsimp only
  split
  · simp
  · simp

/-- The separators of a name are replaced, and it may be cut and get a hash. -/
theorem fixFilename_cases (n : Bytes) :
    (∃ fn, fixFilename md5 n = insertHash md5 n fn ∧ fn ⊆ n.map fun ch => if ch = slash then 95 else ch) ∨
      fixFilename md5 n = n.map fun ch => if ch = slash then 95 else ch := by
  unfold fixFilename
  dsimp only
  generalize (if n.contains slash then nameMax - 11 else nameMax) = name_max
  split
  · refine Or.inl ⟨_, rfl, ?_⟩
    exact fun ch hch => List.mem_of_mem_take (List.mem_of_mem_take hch)
  · split
    · exact Or.inl ⟨_, rfl, List.Subset.refl _⟩
    · exact Or.inr rfl

theorem notMem_fixFilename (n : Bytes) : slash ∉ fixFilename md5 n := by
  have hfn : slash ∉ n.map fun ch => if ch = slash then 95 else ch := by
    intro hmem
    obtain ⟨ch, -, hch⟩ := List.mem_map.mp hmem
    split at hch
    · cases hch
    · next hne => exact hne hch
  rcases fixFilename_cases md5 n with ⟨fn, heq, hsub⟩ | heq
  · rw [heq]
    exact notMem_insertHash md5 fun hmem => hfn (hsub hmem)
  · rw [heq]
    exact hfn

theorem fixFilename_ne_nil {n : Bytes} (h : n ≠ []) : fixFilename md5 n ≠ [] := by
  rcases fixFilename_cases md5 n with ⟨fn, heq, -⟩ | heq
  · rw [heq]
    exact insertHash_ne_nil md5 n fn
  · rw [heq]
    exact fun hnil => h (List.map_eq_nil_iff.mp hnil)

end Fixed

section Corrections

variable (md5 : HexMD5)

/-- The changed names below the top are stored for the path. -/
def Known (c : FilePathCorrections) (names : List Bytes) : Prop :=
  ∀ ns n rest, names = ns ++ n :: rest → ns ≠ [] → fixFilename md5 n ≠ n → c (join ns ++ slash :: n) = some (fixFilename md5 n)

/-- Nothing else is stored for a path. -/
def Only (c : FilePathCorrections) : Prop :=
  ∀ ns n v, IsComponent n → c (join ns ++ slash :: n) = some v → ns ≠ [] ∧ v = fixFilename md5 n

variable {md5} {c c' : FilePathCorrections} {ns : List Bytes} {n : Bytes}

theorem Known.mono (h : Known md5 c ns) (hc : ∀ k v, c k = some v → c' k = some v) : Known md5 c' ns :=
  fun ms m rest heq hms hm => hc _ _ (h ms m rest heq hms hm)

theorem insertParam_keeps (map : StrMap) (key value k v : Bytes) (h : map k = some v) : insertParam map key value k = some v := by
  unfold insertParam
  split
  · next hnone =>
    have hne : k ≠ key := by
      rintro rfl
      rw [hnone] at h
      cases h
    rw [Function.update_of_ne hne]
    exact h
  · exact h

theorem insertParam_cases {map : StrMap} {key value k v : Bytes} (h : insertParam map key value k = some v) :
    map k = some v ∨ (k = key ∧ v = value) := by
  unfold insertParam at h
  split at h
  · by_cases hk : k = key
    · subst hk
      rw [Function.update_self] at h
      exact Or.inr ⟨rfl, (Option.some.inj h).symm⟩
    · rw [Function.update_of_ne hk] at h
      exact Or.inl h
  · exact Or.inl h

theorem insertParam_self (map : StrMap) (key value : Bytes) : ∃ v, insertParam map key value key = some v := by
  unfold insertParam
  split
  · exact ⟨value, Function.update_self key _ map⟩
  · next hsome => exact Option.ne_none_iff_exists'.mp hsome

/-- What `fixFilenameForOS` does for an item in the directory `ns`. -/
structure Corrected (md5 : HexMD5) (c : FilePathCorrections) (ns : List Bytes) (n : Bytes)
    (out : Bytes × FilePathCorrections) : Prop where
  name : out.1 = fixFilename md5 n
  keeps : ∀ k v, c k = some v → out.2 k = some v
  known : Known md5 c ns → Known md5 out.2 (ns ++ [n])
  only : Only md5 out.2

theorem known_concat (h : Known md5 c ns) (hn : ns ≠ [] → fixFilename md5 n ≠ n → c (join ns ++ slash :: n) = some (fixFilename md5 n)) :
    Known md5 c (ns ++ [n]) := by
  intro ms m rest heq hms hm
  rcases List.eq_nil_or_concat rest with rfl | ⟨rest, x, rfl⟩
  · obtain ⟨rfl, hlast⟩ := List.append_inj' heq rfl
    obtain rfl := (List.cons.inj hlast).1
    exact hn hms hm
  · rw [List.concat_eq_append, ← List.cons_append, ← List.append_assoc] at heq
    exact h ms m rest (List.append_inj' heq rfl).1 hms hm

theorem fixFilenameForOS_corrected (honly : Only md5 c) (hn : IsComponent n) :
    Corrected md5 c ns n (fixFilenameForOS md5 n (join ns) c) := by
  unfold fixFilenameForOS
  dsimp only
  split
  · next hchanged =>
    split
    · next hnil =>
      have hns : ns = [] := by
        by_contra hns
        exact join_ne_nil hns hnil
      subst hns
      refine ⟨rfl, insertParam_keeps _ _ _, ?_, ?_⟩
      · intro _
        apply known_concat
        · intro ms m rest heq
          cases ms with
          | nil => cases heq
          | cons _ _ => cases heq
        · exact fun hne => absurd rfl hne
      · intro ms m v hm hv
        rcases insertParam_cases hv with hv | ⟨hkey, -⟩
        · exact honly ms m v hm hv
        · exact absurd (hkey ▸ List.mem_append_right _ List.mem_cons_self) hn.2.1
    · next hne =>
      refine ⟨rfl, insertParam_keeps _ _ _, ?_, ?_⟩
      · intro hknown
        apply known_concat (hknown.mono (insertParam_keeps _ _ _))
        intro _ _
        obtain ⟨v, hv⟩ := insertParam_self c (join ns ++ slash :: n) (fixFilename md5 n)
        have heq : v = fixFilename md5 n := by
          rcases insertParam_cases hv with hv | ⟨-, hv⟩
          · exact (honly ns n v hn hv).2
          · exact hv
        rw [heq] at hv
        exact hv
      · intro ms m v hm hv
        rcases insertParam_cases hv with hv | ⟨hkey, rfl⟩
        · exact honly ms m v hm hv
        · obtain ⟨hpath, rfl⟩ := split_inj hm.1 hm.2.1 hn.1 hn.2.1 hkey
          refine ⟨?_, rfl⟩
          rintro rfl
          exact hne hpath.symm
  · next hsame =>
    refine ⟨rfl, fun _ _ hv => hv, ?_, honly⟩
    intro hknown
    exact known_concat hknown fun _ hchanged => absurd hchanged hsame

end Corrections

section Apply

variable {md5 : HexMD5} {c : FilePathCorrections} {n : Bytes}

/-- Below the top the reader finds the name that was given to an item. -/
theorem get_below (honly : Only md5 c) {pre : List Bytes} (hn : IsComponent n)
    (hknown : fixFilename md5 n ≠ n → c (join pre ++ slash :: n) = some (fixFilename md5 n)) :
    c.get (join pre ++ slash :: n) n = fixFilename md5 n := by
  unfold FilePathCorrections.get
  cases hc : c (join pre ++ slash :: n) with
  | some v => exact (honly pre n v hn hc).2
  | none =>
    by_contra hne
    rw [hknown (Ne.symm hne)] at hc
    cases hc

/-- At the top it does not. -/
theorem get_top (honly : Only md5 c) (hn : IsComponent n) : c.get (slash :: n) n = n := by
  unfold FilePathCorrections.get
  cases hc : c (slash :: n) with
  | some v => exact absurd rfl (honly [] n v hn hc).1
  | none => rfl

/-- The end of the metadata path. -/
def metadataEnd (kind : UInt8) : Bytes :=
  if kind = ItemKind.dir.file_type then slash :: metadata_dir_fn else []

theorem pathLoop_below (honly : Only md5 c) (kind : UInt8) {x : Bytes} (hx : x ≠ []) {pre : List Bytes} (hpre : pre ≠ [])
    (ns : List Bytes) (hns : ∀ m ∈ ns ++ [n], IsComponent m) (hknown : Known md5 c (pre ++ (ns ++ [n]))) :
    ∃ curr_path, pathLoop c kind ⟨x, x, join pre⟩ (ns ++ [n]) =
      ⟨x ++ join (ns.map (fixFilename md5)) ++ slash :: escape_metadata_fn (fixFilename md5 n) ++ metadataEnd kind,
        x ++ join (ns.map (fixFilename md5)) ++ slash :: fixFilename md5 n, curr_path⟩ := by
  induction ns generalizing x pre with
  | nil =>
    have hn := hns n List.mem_cons_self
    have hget := get_below honly hn (hknown pre n [] rfl hpre)
    refine ⟨join pre ++ slash :: n, ?_⟩
    rw [List.nil_append, pathLoop, if_pos ⟨hn.2.2.1, hn.2.2.2⟩]
    simp only [pathLoop, hget, if_pos hx, if_true, List.map_nil, join_nil, List.append_nil, metadataEnd,
      List.append_assoc, List.cons_append, List.nil_append]
  | cons m ns ih =>
    have hm := hns m List.mem_cons_self
    have hget := get_below honly hm (hknown pre m (ns ++ [n]) rfl hpre)
    have hrest : Known md5 c ((pre ++ [m]) ++ (ns ++ [n])) := by
      rw [List.append_assoc]
      exact hknown
    have hxm : x ++ slash :: fixFilename md5 m ≠ [] := by simp [hx]
    obtain ⟨curr_path, hloop⟩ := ih hxm (by simp : pre ++ [m] ≠ []) (fun k hk => hns k (List.mem_cons_of_mem _ hk)) hrest
    refine ⟨curr_path, ?_⟩
    rw [join_concat] at hloop
    rw [List.cons_append, pathLoop, if_pos ⟨hm.2.2.1, hm.2.2.2⟩]
    simp only [hget, if_pos hx, List.append_eq_nil_iff, List.cons_ne_nil, and_false, if_false, List.append_assoc,
      List.singleton_append]
    rw [hloop]
    simp only [List.map_cons, join_cons, List.append_assoc, List.cons_append]

/-- The paths that the reader derives for an item at the top. -/
theorem applyMetadataPaths_top (honly : Only md5 c) (kind : UInt8) (hn : IsComponent n) :
    applyMetadataPaths c (kind :: (join [n]).tail) =
      (slash :: n, slash :: escape_metadata_fn n ++ metadataEnd kind) := by
  have hget := get_top honly hn
  unfold applyMetadataPaths
  rw [List.tail_cons, Tokenize_join (fun m hm => List.mem_singleton.mp hm ▸ hn)]
  dsimp only
  rw [pathLoop, if_pos ⟨hn.2.2.1, hn.2.2.2⟩]
  simp only [List.nil_append, hget, pathLoop, List.headD_cons, ne_eq, not_true, if_false, if_true, List.cons_append]
  rfl

/-- Those for an item further down. -/
theorem applyMetadataPaths_below (honly : Only md5 c) (kind : UInt8) (top : Bytes) (ns : List Bytes)
    (hns : ∀ m ∈ top :: (ns ++ [n]), IsComponent m) (hknown : Known md5 c (top :: (ns ++ [n]))) :
    applyMetadataPaths c (kind :: (join (top :: (ns ++ [n]))).tail) =
      (slash :: top ++ join (ns.map (fixFilename md5)) ++ slash :: fixFilename md5 n,
        slash :: top ++ join (ns.map (fixFilename md5)) ++ slash :: escape_metadata_fn (fixFilename md5 n) ++
          metadataEnd kind) := by
  have htop := hns top List.mem_cons_self
  have hget := get_top honly htop
  unfold applyMetadataPaths
  rw [List.tail_cons, Tokenize_join hns]
  dsimp only
  obtain ⟨curr_path, hloop⟩ := pathLoop_below honly kind htop.1 (List.cons_ne_nil top []) ns
    (fun m hm => hns m (List.mem_cons_of_mem _ hm)) hknown
  have hjoin : join [top] = slash :: top := List.append_nil _
  rw [hjoin] at hloop
  have hne : ¬ ns ++ [n] = [] := by simp
  rw [pathLoop, if_pos ⟨htop.2.2.1, htop.2.2.2⟩]
  simp only [List.nil_append, hget, if_neg hne, ne_eq, not_true, if_false, List.headD_cons]
  rw [hloop]
  simp only [List.cons_append, List.append_assoc]

end Apply

section Walk

variable {md5 : HexMD5} {c c' : FilePathCorrections}

/-- Where an item's metadata was stored. -/
def metadataPath (md5 : HexMD5) (kind : ItemKind) (ns : List Bytes) (n : Bytes) : Bytes :=
  match kind with
  | .file => join (ns.map (fixFilename md5)) ++ slash :: escape_metadata_fn (fixFilename md5 n)
  | .dir => join (ns.map (fixFilename md5)) ++ slash :: fixFilename md5 n ++ slash :: metadata_dir_fn
  | .dir_symlink => join (ns.map (fixFilename md5)) ++ slash :: escape_metadata_fn n

/-- An item as the walk creates it. -/
structure Placed (md5 : HexMD5) (c : FilePathCorrections) (ns : List Bytes) (n : Bytes) (s : Stored) : Prop where
  names : s.names = ns ++ [n]
  components : ∀ m ∈ ns ++ [n], IsComponent m ∧ 0 ∉ m
  known : Known md5 c (ns ++ [n])
  path : s.path = join (ns.map (fixFilename md5)) ++ slash :: fixFilename md5 n
  metadata_path : s.metadata_path = metadataPath md5 s.kind ns n

theorem Placed.mono {ns : List Bytes} {n : Bytes} {s : Stored} (h : Placed md5 c ns n s)
    (hc : ∀ k v, c k = some v → c' k = some v) : Placed md5 c' ns n s :=
  ⟨h.names, h.components, h.known.mono hc, h.path, h.metadata_path⟩

/-- The names of the directories that are open. -/
def openNames : List Stored → List Bytes
  | [] => []
  | d :: _ => d.names

def Opened (md5 : HexMD5) (c : FilePathCorrections) : List Stored → Prop
  | [] => True
  | d :: ds => (∃ n, Placed md5 c (openNames ds) n d) ∧ Opened md5 c ds

theorem Opened.mono {ds : List Stored} (h : Opened md5 c ds) (hc : ∀ k v, c k = some v → c' k = some v) : Opened md5 c' ds := by
  induction ds with
  | nil => trivial
  | cons d ds ih =>
    obtain ⟨⟨n, hplaced⟩, hds⟩ := h
    exact ⟨⟨n, hplaced.mono hc⟩, ih hds⟩

/-- What holds between two entries of the file list. -/
structure Walks (md5 : HexMD5) (w : PathWalk) : Prop where
  curr_path : w.curr_path = join (openNames w.open_dirs)
  curr_os_path : w.curr_os_path = join ((openNames w.open_dirs).map (fixFilename md5))
  only : Only md5 w.filepath_corrections
  opened : Opened md5 w.filepath_corrections w.open_dirs
  requested : ∀ r ∈ w.requested, ∃ ns n, Placed md5 w.filepath_corrections ns n r.stored ∧
    r.public_fn = r.stored.kind.file_type :: (join (ns ++ [n])).tail

theorem Opened.components {ds : List Stored} (h : Opened md5 c ds) : ∀ m ∈ openNames ds, IsComponent m ∧ 0 ∉ m := by
  cases ds with
  | nil => exact fun _ hm => nomatch hm
  | cons d ds =>
    obtain ⟨⟨n, hplaced⟩, -⟩ := h
    change ∀ m ∈ d.names, IsComponent m ∧ 0 ∉ m
    rw [hplaced.names]
    exact hplaced.components

theorem Opened.known {ds : List Stored} (h : Opened md5 c ds) : Known md5 c (openNames ds) := by
  cases ds with
  | nil =>
    intro ns n rest heq
    cases ns with
    | nil => cases heq
    | cons _ _ => cases heq
  | cons d ds =>
    obtain ⟨⟨n, hplaced⟩, -⟩ := h
    change Known md5 c d.names
    rw [hplaced.names]
    exact hplaced.known

theorem walks_start (md5 : HexMD5) : Walks md5 PathWalk.start where
  curr_path := rfl
  curr_os_path := rfl
  only _ _ _ _ hv := nomatch hv
  opened := trivial
  requested _ hr := nomatch hr

theorem names_eq (w : PathWalk) : w.names = openNames w.open_dirs := by
  unfold PathWalk.names openNames
  cases w.open_dirs with
  | nil => rfl
  | cons d ds => rfl

variable {w : PathWalk} {n : Bytes}

/-- The new item stands behind the names of the open directories. -/
theorem Walks.placed (h : Walks md5 w) {out : Bytes × FilePathCorrections}
    (hout : Corrected md5 w.filepath_corrections (openNames w.open_dirs) n out) (hn : IsComponent n) (hnul : 0 ∉ n)
    {s : Stored} (hnames : s.names = w.names ++ [n]) (hpath : s.path = w.curr_os_path ++ slash :: out.1)
    (hmetadata : s.metadata_path = metadataPath md5 s.kind (openNames w.open_dirs) n) :
    Placed md5 out.2 (openNames w.open_dirs) n s where
  names := by rw [hnames, names_eq]
  components m hm := by
    rcases List.mem_append.mp hm with hm | hm
    · exact h.opened.components m hm
    · rw [List.mem_singleton.mp hm]
      exact ⟨hn, hnul⟩
  known := hout.known h.opened.known
  path := by rw [hpath, h.curr_os_path, hout.name]
  metadata_path := hmetadata

theorem Walks.kept (h : Walks md5 w) (hc : ∀ k v, w.filepath_corrections k = some v → c k = some v) :
    ∀ r ∈ w.requested, ∃ ns n, Placed md5 c ns n r.stored ∧
      r.public_fn = r.stored.kind.file_type :: (join (ns ++ [n])).tail := by
  intro r hr
  obtain ⟨ns, n, hplaced, hpublic⟩ := h.requested r hr
  exact ⟨ns, n, hplaced.mono hc, hpublic⟩

theorem Walks.addFile (h : Walks md5 w) (hn : IsComponent n) (hnul : 0 ∉ n) : Walks md5 (w.addFile md5 n) := by
  have hout : Corrected md5 w.filepath_corrections (openNames w.open_dirs) n
      (fixFilenameForOS md5 n w.curr_path w.filepath_corrections) := by
    rw [h.curr_path]
    exact fixFilenameForOS_corrected h.only hn
  refine ⟨h.curr_path, h.curr_os_path, hout.only, h.opened.mono hout.keeps, ?_⟩
  intro r hr
  rcases List.mem_append.mp hr with hr | hr
  · exact h.kept hout.keeps r hr
  · rw [List.mem_singleton.mp hr]
    refine ⟨openNames w.open_dirs, n, h.placed hout hn hnul rfl rfl ?_, ?_⟩
    · change w.curr_os_path ++ slash :: escape_metadata_fn (fixFilenameForOS md5 n w.curr_path w.filepath_corrections).1 = _
      rw [h.curr_os_path, hout.name]
      rfl
    · change _ :: requestPath w.curr_path n = _
      rw [h.curr_path, requestPath_join]

theorem Walks.openDir (h : Walks md5 w) (hn : IsComponent n) (hnul : 0 ∉ n) (is_symlink : Bool) :
    Walks md5 (w.openDir md5 n is_symlink) := by
  have hout : Corrected md5 w.filepath_corrections (openNames w.open_dirs) n
      (fixFilenameForOS md5 n w.curr_path w.filepath_corrections) := by
    rw [h.curr_path]
    exact fixFilenameForOS_corrected h.only hn
  obtain ⟨s, ds, hdirs, hplaced⟩ : ∃ s ds, (w.openDir md5 n is_symlink).open_dirs = s :: ds ∧ ds = w.open_dirs ∧
      Placed md5 (w.openDir md5 n is_symlink).filepath_corrections (openNames w.open_dirs) n s := by
    refine ⟨_, _, rfl, rfl, ?_⟩
    cases is_symlink with
    | true =>
      refine h.placed hout hn hnul rfl rfl ?_
      change w.curr_os_path ++ _ = _
      rw [h.curr_os_path]
      rfl
    | false =>
      refine h.placed hout hn hnul rfl rfl ?_
      change w.curr_os_path ++ slash :: (fixFilenameForOS md5 n w.curr_path w.filepath_corrections).1 ++ _ = _
      rw [h.curr_os_path, hout.name]
      rfl
  obtain ⟨rfl, hplaced⟩ := hplaced
  have hnames : openNames (w.openDir md5 n is_symlink).open_dirs = openNames w.open_dirs ++ [n] := by
    rw [hdirs]
    exact hplaced.names
  refine ⟨?_, ?_, hout.only, ?_, h.kept hout.keeps⟩
  · rw [hnames, join_concat, ← h.curr_path]
    rfl
  · rw [hnames, List.map_append, List.map_singleton, join_concat, ← h.curr_os_path, ← hout.name]
    rfl
  · rw [hdirs]
    exact ⟨⟨n, hplaced⟩, h.opened.mono hout.keeps⟩

theorem Walks.closeDir (h : Walks md5 w) : Walks md5 w.closeDir := by
  unfold PathWalk.closeDir
  split
  · exact h
  · next s ds hdirs =>
    have hopened := h.opened
    rw [hdirs] at hopened
    obtain ⟨⟨n, hplaced⟩, hopened⟩ := hopened
    obtain ⟨hn, hnul⟩ := hplaced.components n (List.mem_append_right _ List.mem_cons_self)
    have hcurr : w.curr_path = join (openNames ds) ++ slash :: n := by
      rw [h.curr_path, hdirs, ← join_concat, ← hplaced.names]
      rfl
    have hos : w.curr_os_path = join ((openNames ds).map (fixFilename md5)) ++ slash :: fixFilename md5 n := by
      have hnames : openNames w.open_dirs = openNames ds ++ [n] := by
        rw [hdirs]
        exact hplaced.names
      rw [h.curr_os_path, hnames, List.map_append, List.map_singleton, join_concat]
    refine ⟨?_, ?_, h.only, hopened, ?_⟩
    · dsimp only
      rw [hcurr, ExtractFilePath_join _ hn.1 hn.2.1]
    · dsimp only
      rw [hos, ExtractFilePath_join _ (fixFilename_ne_nil md5 hn.1) (notMem_fixFilename md5 n)]
    · intro r hr
      dsimp only at hr
      split at hr
      · exact h.requested r hr
      · rcases List.mem_append.mp hr with hr | hr
        · exact h.requested r hr
        · rw [List.mem_singleton.mp hr]
          refine ⟨openNames ds, n, hplaced, ?_⟩
          dsimp only
          rw [hcurr, ExtractFilePath_join _ hn.1 hn.2.1, ExtractFileName_join _ hn.1 hn.2.1 hnul, requestPath_join]

theorem Walks.step (h : Walks md5 w) {item : ListItem} (hitem : item.isEntry = true → IsComponent item.sfile.name) :
    Walks md5 (w.step md5 item) := by
  cases item with
  | file name size last_modified extra => exact h.addFile (hitem rfl) name.nul_free
  | dir name last_modified extra => exact h.openDir (hitem rfl) name.nul_free _
  | up => exact h.closeDir

theorem Walks.foldl (h : Walks md5 w) {items : List ListItem} (hitems : Components items) :
    Walks md5 (items.foldl (fun w item => w.step md5 item) w) := by
  induction items generalizing w with
  | nil => exact h
  | cons item items ih =>
    exact ih (h.step (hitems item List.mem_cons_self)) fun x hx => hitems x (List.mem_cons_of_mem _ hx)

end Walk

section Same

variable {md5 : HexMD5} {c : FilePathCorrections} {n : Bytes} {r : Requested}

theorem fits_iff {ns : List Bytes} {s : Stored} (hnames : s.names = ns ++ [n]) : s.Fits md5 ↔
    fixFilename md5 ((ns ++ [n]).head (by simp)) = (ns ++ [n]).head (by simp) ∧
      (s.kind = .dir_symlink → escape_metadata_fn (fixFilename md5 n) = escape_metadata_fn n) ∧
      (s.kind = .dir → escape_metadata_fn (fixFilename md5 n) = fixFilename md5 n) := by
  have hhead : s.names.head? = some ((ns ++ [n]).head (by simp)) := by
    rw [hnames]
    exact List.head?_eq_some_head _
  have hlast : s.names.getLast? = some n := by
    rw [hnames]
    exact List.getLast?_concat
  constructor
  · intro h
    exact ⟨h.top _ hhead, fun hkind => h.symlink hkind n hlast, fun hkind => h.dir hkind n hlast⟩
  · rintro ⟨htop, hsymlink, hdir⟩
    refine ⟨?_, ?_, ?_⟩
    · intro name hname
      obtain rfl := Option.some.inj (hhead.symm.trans hname)
      exact htop
    · intro hkind name hname
      obtain rfl := Option.some.inj (hlast.symm.trans hname)
      exact hsymlink hkind
    · intro hkind name hname
      obtain rfl := Option.some.inj (hlast.symm.trans hname)
      exact hdir hkind

/-- At the top the reader has the name of the list. -/
theorem same_top (honly : Only md5 c) (hplaced : Placed md5 c [] n r.stored)
    (hpublic : r.public_fn = r.stored.kind.file_type :: (join [n]).tail) :
    r.SamePaths c ↔ fixFilename md5 n = n ∧
      (r.stored.kind = .dir_symlink → escape_metadata_fn (fixFilename md5 n) = escape_metadata_fn n) ∧
      (r.stored.kind = .dir → escape_metadata_fn (fixFilename md5 n) = fixFilename md5 n) := by
  have hn := (hplaced.components n List.mem_cons_self).1
  unfold Requested.SamePaths
  rw [hpublic, applyMetadataPaths_top honly _ hn, hplaced.path, hplaced.metadata_path, Prod.mk.injEq]
  have hpath : (slash :: n = join ([].map (fixFilename md5)) ++ slash :: fixFilename md5 n) ↔ fixFilename md5 n = n := by
    simp [join_nil, eq_comm]
  rw [hpath]
  apply and_congr_right
  intro hfix
  rw [hfix]
  cases r.stored.kind with
  | file => simp [metadataPath, metadataEnd, ItemKind.file_type, join_nil, hfix]
  | dir => simp [metadataPath, metadataEnd, ItemKind.file_type, join_nil, hfix]
  | dir_symlink => simp [metadataPath, metadataEnd, ItemKind.file_type, join_nil]

theorem same_below (honly : Only md5 c) {top : Bytes} {ns : List Bytes} (hplaced : Placed md5 c (top :: ns) n r.stored)
    (hpublic : r.public_fn = r.stored.kind.file_type :: (join (top :: ns ++ [n])).tail) :
    r.SamePaths c ↔ fixFilename md5 top = top ∧
      (r.stored.kind = .dir_symlink → escape_metadata_fn (fixFilename md5 n) = escape_metadata_fn n) ∧
      (r.stored.kind = .dir → escape_metadata_fn (fixFilename md5 n) = fixFilename md5 n) := by
  have happly := applyMetadataPaths_below honly r.stored.kind.file_type top ns (fun m hm => (hplaced.components m hm).1)
    hplaced.known
  rw [← List.cons_append, ← hpublic] at happly
  unfold Requested.SamePaths
  rw [happly, hplaced.path, hplaced.metadata_path, Prod.mk.injEq]
  have hpath : (slash :: top ++ join (ns.map (fixFilename md5)) ++ slash :: fixFilename md5 n =
      join ((top :: ns).map (fixFilename md5)) ++ slash :: fixFilename md5 n) ↔ fixFilename md5 top = top := by
    simp [join_cons, eq_comm]
  rw [hpath]
  apply and_congr_right
  intro hfix
  cases r.stored.kind with
  | file => simp [metadataPath, metadataEnd, ItemKind.file_type, join_cons, hfix]
  | dir => simp [metadataPath, metadataEnd, ItemKind.file_type, join_cons, hfix]
  | dir_symlink => simp [metadataPath, metadataEnd, ItemKind.file_type, join_cons, hfix]

theorem same_iff_fits (honly : Only md5 c) {ns : List Bytes} (hplaced : Placed md5 c ns n r.stored)
    (hpublic : r.public_fn = r.stored.kind.file_type :: (join (ns ++ [n])).tail) : r.SamePaths c ↔ r.stored.Fits md5 := by
  rw [fits_iff hplaced.names]
  cases ns with
  | nil => exact same_top honly hplaced hpublic
  | cons top ns => exact same_below honly hplaced hpublic

/-- The metadata of an item is applied where it was created if and only if the item
fits. -/
theorem samePaths_iff_fits (md5 : HexMD5) (l : FileList) (hnames : Components l.items) {r : Requested}
    (hr : r ∈ (PathWalk.run md5 l.items).requested) :
    r.SamePaths (PathWalk.run md5 l.items).filepath_corrections ↔ r.stored.Fits md5 := by
  have hwalks := (walks_start md5).foldl hnames
  obtain ⟨ns, n, hplaced, hpublic⟩ := hwalks.requested r hr
  exact same_iff_fits hwalks.only hplaced hpublic

/-- A digest for names that are not changed. -/
def exampleMD5 : HexMD5 where
  GenerateHexMD5 _ := List.replicate 32 48
  hex _ ch hch := Or.inl (by rw [List.eq_of_mem_replicate hch]; rfl)

theorem exampleTop_nul_free : 0 ∉ ([97] : Bytes) := by decide

theorem exampleTop_not_up : ([97] : Bytes) ≠ upName := by decide

theorem exampleDir_nul_free : 0 ∉ metadata_dir_fn ++ [48] := by decide

theorem exampleDir_not_up : metadata_dir_fn ++ [48] ≠ upName := by decide

/-- The directory `.dir_metadata0` in the directory `a`. -/
def exampleItems : List ListItem :=
  [.dir ⟨[97], exampleTop_nul_free, exampleTop_not_up⟩ 0 none,
    .dir ⟨metadata_dir_fn ++ [48], exampleDir_nul_free, exampleDir_not_up⟩ 0 none, .up, .up]

theorem exampleItems_nested : ∀ before after, exampleItems = before ++ .up :: after → openDirs before ≠ [] :=
  nested_of_nestedFrom [] ⟨Nat.two_pos, Nat.one_pos, trivial⟩

def exampleList : FileList where
  items := exampleItems
  nested := exampleItems_nested

theorem exampleList_components : Components exampleList.items := by
  intro item hitem hentry
  simp only [exampleList, exampleItems, List.mem_cons, List.not_mem_nil, or_false] at hitem
  rcases hitem with rfl | rfl | rfl | rfl
  · exact ⟨by decide, by decide, by decide, by decide⟩
  · exact ⟨by decide, by decide, by decide, by decide⟩
  · cases hentry
  · cases hentry

/-- The metadata of the directory `a` is applied to it. -/
theorem samePaths_iff_fits_top : ∃ r ∈ (PathWalk.run exampleMD5 exampleList.items).requested,
    r.stored.names = [[97]] ∧ r.SamePaths (PathWalk.run exampleMD5 exampleList.items).filepath_corrections := by
  have hdirs : ∃ r ∈ (PathWalk.run exampleMD5 exampleList.items).requested,
      r.stored.names = [[97]] ∧ r.stored.kind = .dir := by
    decide +kernel
  obtain ⟨r, hr, hnames, hkind⟩ := hdirs
  refine ⟨r, hr, hnames, (samePaths_iff_fits exampleMD5 exampleList exampleList_components hr).mpr ?_⟩
  refine ⟨?_, ?_, ?_⟩
  · intro name hname
    rw [hnames] at hname
    obtain rfl := Option.some.inj hname
    decide +kernel
  · intro hsymlink
    rw [hkind] at hsymlink
    cases hsymlink
  · intro _ name hname
    rw [hnames] at hname
    obtain rfl := Option.some.inj hname
    decide +kernel

/-- That of `.dir_metadata0` is looked for in `.dir_metadata1`. -/
theorem not_samePaths : ¬ ∀ (md5 : HexMD5) (l : FileList), ∀ r ∈ (PathWalk.run md5 l.items).requested,
    r.SamePaths (PathWalk.run md5 l.items).filepath_corrections := by
  intro h
  have hsame := h exampleMD5 exampleList
  unfold Requested.SamePaths at hsame
  revert hsame
  decide +kernel

end Same

end urbackup.filepaths
