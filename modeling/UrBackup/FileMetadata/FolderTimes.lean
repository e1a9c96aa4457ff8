import UrBackup.FileMetadata.FolderItems

namespace urbackup.filemetadata

open stringtools filepaths

section Tracks

/-- The counter of a directory that `log` counts items below. -/
def IsCounter (log : List (List Bytes)) (arrived : List MetadataItem) (ns : List Bytes) (e : SFolderItem) : Prop :=
  (∃ d ∈ arrived, d.toks = ns ∧ (log.count ns : Int) ≠ d.folder_items ∧ e = d.counter (log.count ns)) ∨
    (∀ d ∈ arrived, d.toks ≠ ns) ∧ e = { path := pathOf ns, counted_items := log.count ns }

/-- A directory whose items have all been counted. -/
def IsComplete (log : List (List Bytes)) (d : MetadataItem) : Prop :=
  d.is_dir = true ∧ (log.count d.toks : Int) = d.folder_items

instance (log : List (List Bytes)) (d : MetadataItem) : Decidable (IsComplete log d) :=
  inferInstanceAs (Decidable (_ ∧ _))

/-- The items that have arrived, one with a path. -/
structure Arrived (log : List (List Bytes)) (arrived : List MetadataItem) : Prop where
  toks : ∀ ns ∈ log, IsToks ns
  path : ∀ d ∈ arrived, d.path = pathOf d.toks
  nodup : arrived.Nodup
  distinct : ∀ d ∈ arrived, ∀ d' ∈ arrived, d.toks = d'.toks → d = d'

/-- What the thread has when the items below the directories of `log` are counted. -/
structure Tracks (log : List (List Bytes)) (arrived : List MetadataItem) (t : FileMetadataDownloadThread) : Prop where
  nodup : (t.saved_folder_items.map (·.path)).Nodup
  saved : ∀ e, e ∈ t.saved_folder_items ↔ ∃ ns ∈ log, IsCounter log arrived ns e
  set : t.file_times.Perm ((arrived.filter (IsComplete log ·)).map (·.times))

variable {log : List (List Bytes)} {arrived : List MetadataItem} {t : FileMetadataDownloadThread} {ns : List Bytes}

theorem IsCounter.path {e : SFolderItem} (h : IsCounter log arrived ns e) (harrived : Arrived log arrived) :
    e.path = pathOf ns := by
  rcases h with ⟨d, hd, rfl, -, rfl⟩ | ⟨-, rfl⟩
  · exact harrived.path d hd
  · rfl

theorem Tracks.counter_of_path (h : Tracks log arrived t) (harrived : Arrived log arrived) (hns : IsToks ns) {e : SFolderItem}
    (he : e ∈ t.saved_folder_items) (hpath : e.path = pathOf ns) : ns ∈ log ∧ IsCounter log arrived ns e := by
  obtain ⟨ms, hms, hcounter⟩ := (h.saved e).mp he
  obtain rfl : ms = ns := (harrived.toks ms hms).pathOf_inj hns ((hcounter.path harrived).symm.trans hpath)
  exact ⟨hms, hcounter⟩

theorem filter_perm_cons {α : Type} {l : List α} (hnodup : l.Nodup) {p q : α → Bool} {d : α} (hd : d ∈ l) (hp : p d = false)
    (hq : q d = true) (hsame : ∀ x ∈ l, x ≠ d → p x = q x) : (l.filter q).Perm (d :: l.filter p) := by
  obtain ⟨pre, post, rfl⟩ := List.append_of_mem hd
  have hnot := (List.nodup_cons.mp (List.nodup_middle.mp hnodup)).1
  have hother : ∀ x ∈ pre ++ post, p x = q x := by
    intro x hx
    have hne : x ≠ d := fun heq => hnot (heq ▸ hx)
    exact hsame x (by simpa [hne] using hx) hne
  have hpre : pre.filter p = pre.filter q := List.filter_congr fun x hx => hother x (List.mem_append_left _ hx)
  have hpost : post.filter p = post.filter q := List.filter_congr fun x hx => hother x (List.mem_append_right _ hx)
  simp only [List.filter_append, List.filter_cons, hp, hq, if_true, hpre, hpost]
  exact List.perm_middle

theorem count_concat (log : List (List Bytes)) (ns ms : List Bytes) :
    (log ++ [ns]).count ms = log.count ms + if ns = ms then 1 else 0 := by
  rw [List.count_append, List.count_singleton]
  simp only [beq_iff_eq]

theorem isCounter_concat_ne {ms : List Bytes} {e : SFolderItem} (h : ns ≠ ms) :
    IsCounter (log ++ [ns]) arrived ms e ↔ IsCounter log arrived ms e := by
  unfold IsCounter
  rw [count_concat, if_neg h, Nat.add_zero]

/-- One counter is changed, and the others are those of the directories before. -/
theorem Tracks.saved_concat (h : Tracks log arrived t) (harrived : Arrived log arrived) (hns : IsToks ns)
    {saved : List SFolderItem} {new : Option SFolderItem}
    (hmem : ∀ e, e ∈ saved ↔ e ∈ t.saved_folder_items ∧ e.path ≠ pathOf ns ∨ new = some e)
    (hnew : ∀ e, new = some e ↔ IsCounter (log ++ [ns]) arrived ns e) (e : SFolderItem) :
    e ∈ saved ↔ ∃ ms ∈ log ++ [ns], IsCounter (log ++ [ns]) arrived ms e := by
  rw [hmem e, hnew e, h.saved e]
  constructor
  · rintro (⟨⟨ms, hms, hcounter⟩, hne⟩ | hcounter)
    · have : ns ≠ ms := by
        rintro rfl
        exact hne (hcounter.path harrived)
      exact ⟨ms, List.mem_append_left _ hms, (isCounter_concat_ne this).mpr hcounter⟩
    · exact ⟨ns, List.mem_append_right _ List.mem_cons_self, hcounter⟩
  · rintro ⟨ms, hms, hcounter⟩
    by_cases heq : ns = ms
    · subst heq
      exact Or.inr hcounter
    · have hlog : ms ∈ log := by
        rcases List.mem_append.mp hms with hms | hms
        · exact hms
        · exact absurd (List.mem_singleton.mp hms).symm heq
      have hcounter := (isCounter_concat_ne heq).mp hcounter
      refine Or.inl ⟨⟨ms, hlog, hcounter⟩, fun hpath => heq ?_⟩
      exact hns.pathOf_inj (harrived.toks ms hlog) (hpath.symm.trans (hcounter.path harrived))

theorem isComplete_concat_ne {d : MetadataItem} (h : ns ≠ d.toks) : IsComplete (log ++ [ns]) d ↔ IsComplete log d := by
  unfold IsComplete
  rw [count_concat, if_neg h, Nat.add_zero]

theorem isCounter_own (harrived : Arrived log arrived) {d : MetadataItem} (hd : d ∈ arrived) (e : SFolderItem) :
    IsCounter log arrived d.toks e ↔ (log.count d.toks : Int) ≠ d.folder_items ∧ e = d.counter (log.count d.toks) := by
  constructor
  · rintro (⟨d', hd', htoks, hne, rfl⟩ | ⟨hnone, -⟩)
    · obtain rfl := harrived.distinct d' hd' d hd htoks
      exact ⟨hne, rfl⟩
    · exact absurd rfl (hnone d hd)
  · rintro ⟨hne, rfl⟩
    exact Or.inl ⟨d, hd, rfl, hne, rfl⟩

theorem isCounter_none (h : ∀ d ∈ arrived, d.toks ≠ ns) (e : SFolderItem) :
    IsCounter log arrived ns e ↔ e = { path := pathOf ns, counted_items := log.count ns } := by
  constructor
  · rintro (⟨d, hd, htoks, -⟩ | ⟨-, rfl⟩)
    · exact absurd htoks (h d hd)
    · rfl
  · exact fun heq => Or.inr ⟨h, heq⟩

theorem Arrived.concat (h : Arrived log arrived) (hns : IsToks ns) : Arrived (log ++ [ns]) arrived := by
  refine ⟨fun ms hms => ?_, h.path, h.nodup, h.distinct⟩
  rcases List.mem_append.mp hms with hms | hms
  · exact h.toks ms hms
  · exact List.mem_singleton.mp hms ▸ hns

theorem Tracks.set_none (h : Tracks log arrived t) (hnone : ∀ d ∈ arrived, d.toks ≠ ns) :
    t.file_times.Perm ((arrived.filter (IsComplete (log ++ [ns]) ·)).map (·.times)) := by
  rw [List.filter_congr (q := (IsComplete log ·)) fun d hd => ?_]
  · exact h.set
  · rw [decide_eq_decide, isComplete_concat_ne (hnone d hd).symm]

/-- One more item below a directory whose record has arrived. -/
theorem Tracks.count_own (h : Tracks log arrived t) (harrived : Arrived log arrived) {d : MetadataItem} (hd : d ∈ arrived)
    (hdir : d.is_dir = true) (hlog : d.toks ∈ log) (hlt : (log.count d.toks : Int) < d.folder_items) :
    Tracks (log ++ [d.toks]) arrived (t.addSingleFileItem (pathOf d.toks)) := by
  have hcount : (log ++ [d.toks]).count d.toks = log.count d.toks + 1 := by
    rw [count_concat, if_pos rfl]
  have hns := harrived.toks _ hlog
  have hcounter := (isCounter_own harrived hd _).mpr ⟨hlt.ne, rfl⟩
  have hpath := hcounter.path harrived
  obtain ⟨es, heq, hes, hmems⟩ := atPath_some (f := countItem) h.nodup ((h.saved _).mpr ⟨_, hlog, hcounter⟩) hpath
    fun e' he' => (countItem_path he').trans hpath
  have hitem : countItem (d.counter (log.count d.toks)) =
      if (log.count d.toks + 1 : Int) = d.folder_items then (none, [d.times])
      else (some (d.counter (log.count d.toks + 1)), []) := rfl
  have hsame : ∀ x ∈ arrived, x ≠ d → decide (IsComplete log x) = decide (IsComplete (log ++ [d.toks]) x) := by
    intro x hx hne
    rw [decide_eq_decide, isComplete_concat_ne fun heq => hne (harrived.distinct x hx d hd heq.symm)]
  have hnot : ¬ IsComplete log d := fun hcomplete => hlt.ne hcomplete.2
  rw [FileMetadataDownloadThread.addSingleFileItem, heq, hitem]
  rw [hitem] at hmems
  refine ⟨hes, h.saved_concat harrived hns hmems fun e => ?_, ?_⟩
  · rw [isCounter_own (harrived.concat hns) hd, hcount, Nat.cast_succ]
    split
    · next hfull => simp [hfull]
    · next hmore => simp [hmore, eq_comm]
  · dsimp only
    split
    · next hfull =>
      have hcomplete : IsComplete (log ++ [d.toks]) d := ⟨hdir, by rw [hcount, Nat.cast_succ]; exact hfull⟩
      have hperm := filter_perm_cons harrived.nodup hd (decide_eq_false hnot) (decide_eq_true hcomplete) hsame
      exact (List.perm_append_singleton _ _).trans ((h.set.cons d.times).trans (hperm.map _).symm)
    · next hmore =>
      rw [List.append_nil]
      refine h.set.trans (List.Perm.of_eq (congrArg _ (List.filter_congr fun x hx => ?_)))
      by_cases hne : x = d
      · subst hne
        rw [decide_eq_decide]
        refine iff_of_false hnot fun hcomplete => hmore ?_
        simpa [hcount] using hcomplete.2
      · exact hsame x hx hne

/-- One more item below a directory whose record has not arrived. -/
theorem Tracks.count_none (h : Tracks log arrived t) (harrived : Arrived log arrived) (hns : IsToks ns)
    (hnone : ∀ d ∈ arrived, d.toks ≠ ns) : Tracks (log ++ [ns]) arrived (t.addSingleFileItem (pathOf ns)) := by
  have hcount : (log ++ [ns]).count ns = log.count ns + 1 := by
    rw [count_concat, if_pos rfl]
  by_cases hlog : ns ∈ log
  · have hcounter := (@isCounter_none log _ _ hnone _).mpr rfl
    obtain ⟨es, heq, hes, hmems⟩ := atPath_some (f := countItem) h.nodup ((h.saved _).mpr ⟨_, hlog, hcounter⟩) rfl
      fun e' he' => countItem_path he'
    have hitem : countItem { path := pathOf ns, counted_items := log.count ns } =
        (some { path := pathOf ns, counted_items := log.count ns + 1 }, []) := by
      have : ¬ (log.count ns + 1 : Int) = -1 := by omega
      rw [countItem]
      exact if_neg this
    rw [FileMetadataDownloadThread.addSingleFileItem, heq, hitem]
    rw [hitem] at hmems
    refine ⟨hes, h.saved_concat harrived hns hmems fun e => ?_, ?_⟩
    · rw [isCounter_none hnone, hcount, Nat.cast_succ, Option.some.injEq, eq_comm]
    · dsimp only
      rw [List.append_nil]
      exact h.set_none hnone
  · have hfree : ∀ e ∈ t.saved_folder_items, e.path ≠ pathOf ns := by
      intro e he hpath
      exact hlog (h.counter_of_path harrived hns he hpath).1
    rw [FileMetadataDownloadThread.addSingleFileItem, atPath_none hfree]
    have hzero : log.count ns = 0 := List.count_eq_zero.mpr hlog
    refine ⟨?_, @Tracks.saved_concat _ _ _ _ h harrived hns _ (some { path := pathOf ns, counted_items := 1 }) (fun e => ?_)
        fun e => ?_,
      h.set_none hnone⟩
    · dsimp only
      rw [List.map_append, List.map_singleton, List.nodup_append]
      refine ⟨h.nodup, List.nodup_singleton _, fun p hp q hq heq => ?_⟩
      obtain ⟨e, he, rfl⟩ := List.mem_map.mp hp
      exact hfree e he (heq.trans (List.mem_singleton.mp hq))
    · rw [List.mem_append, List.mem_singleton, Option.some.injEq, eq_comm (a := e)]
      exact or_congr_left ⟨fun he => ⟨he, hfree e he⟩, And.left⟩
    · rw [isCounter_none hnone, hcount, hzero, Option.some.injEq, eq_comm]
      rfl

/-- The items below the directories above an item. -/
theorem Tracks.count_all {as : List (List Bytes)} (hnodup : as.Nodup) (h : Tracks log arrived t) (harrived : Arrived log arrived)
    (has : ∀ ns ∈ as, IsToks ns)
    (hopen : ∀ d ∈ arrived, d.toks ∈ as → d.is_dir = true ∧ d.toks ∈ log ∧ (log.count d.toks : Int) < d.folder_items) :
    Tracks (log ++ as) arrived (as.foldl (fun t ns => t.addSingleFileItem (pathOf ns)) t) := by
  induction as generalizing log t with
  | nil => simpa using h
  | cons a as ih =>
    obtain ⟨hnot, hnodup⟩ := List.nodup_cons.mp hnodup
    have ha := has a List.mem_cons_self
    have hstep : Tracks (log ++ [a]) arrived (t.addSingleFileItem (pathOf a)) := by
      by_cases hown : ∃ d ∈ arrived, d.toks = a
      · obtain ⟨d, hd, rfl⟩ := hown
        obtain ⟨hdir, hlog, hlt⟩ := hopen d hd List.mem_cons_self
        exact h.count_own harrived hd hdir hlog hlt
      · exact h.count_none harrived ha fun d hd heq => hown ⟨d, hd, heq⟩
    rw [List.foldl_cons, List.append_cons]
    refine ih hnodup hstep (harrived.concat ha) (fun ns hns => has ns (List.mem_cons_of_mem _ hns)) fun d hd hmem => ?_
    obtain ⟨hdir, hlog, hlt⟩ := hopen d hd (List.mem_cons_of_mem _ hmem)
    have hne : a ≠ d.toks := fun heq => hnot (heq ▸ hmem)
    refine ⟨hdir, List.mem_append_left _ hlog, ?_⟩
    rwa [count_concat, if_neg hne, Nat.add_zero]

theorem isCounter_arrived_ne {i : MetadataItem} {e : SFolderItem} (h : i.toks ≠ ns) :
    IsCounter log (arrived ++ [i]) ns e ↔ IsCounter log arrived ns e := by
  simp only [IsCounter, List.mem_append, List.mem_singleton, or_and_right, exists_or, or_imp, forall_and, exists_eq_left,
    forall_eq, h, false_and, or_false, not_false_eq_true, and_true, ne_eq]

/-- An item that nothing is counted below. -/
theorem Tracks.saved_leaf (h : Tracks log arrived t) {i : MetadataItem} (hi : i.toks ∉ log) (e : SFolderItem) :
    e ∈ t.saved_folder_items ↔ ∃ ns ∈ log, IsCounter log (arrived ++ [i]) ns e := by
  rw [h.saved e]
  refine exists_congr fun ns => and_congr_right fun hns => (isCounter_arrived_ne ?_).symm
  rintro rfl
  exact hi hns

theorem filter_concat_incomplete {i : MetadataItem} (h : ¬ IsComplete log i) :
    (arrived ++ [i]).filter (IsComplete log ·) = arrived.filter (IsComplete log ·) := by
  rw [List.filter_append, List.filter_singleton, decide_eq_false h]
  simp

theorem Tracks.set_complete (h : Tracks log arrived t) {i : MetadataItem} (hi : IsComplete log i) :
    (t.file_times ++ [i.times]).Perm (((arrived ++ [i]).filter (IsComplete log ·)).map (·.times)) := by
  rw [List.filter_append, List.filter_singleton, decide_eq_true hi, List.map_append]
  exact h.set.append_right _

/-- The record of a directory that items have been counted below. -/
theorem Tracks.own (h : Tracks log arrived t) (harrived : Arrived log arrived) {i : MetadataItem} (hdir : i.is_dir = true)
    (hpath : i.path = pathOf i.toks) (hlog : i.toks ∈ log) (hnone : ∀ d ∈ arrived, d.toks ≠ i.toks) :
    ∃ r, atPath i.path (ownItem i) t.saved_folder_items = some r ∧
      Tracks log (arrived ++ [i]) ⟨r.1, t.file_times ++ r.2⟩ := by
  have hns := harrived.toks _ hlog
  have hcounter := (@isCounter_none log _ _ hnone _).mpr rfl
  obtain ⟨es, heq, hes, hmems⟩ := atPath_some (f := ownItem i) h.nodup ((h.saved _).mpr ⟨_, hlog, hcounter⟩) hpath.symm
    fun e' he' => (ownItem_path he').trans hpath.symm
  have hitem : ownItem i { path := pathOf i.toks, counted_items := log.count i.toks } =
      if (log.count i.toks : Int) = i.folder_items then (none, [i.times]) else (some (i.counter (log.count i.toks)), []) := by
    rw [ownItem, MetadataItem.counter, hpath]
  rw [hitem] at heq hmems
  have hnew : ∀ e, IsCounter log (arrived ++ [i]) i.toks e ↔
      (log.count i.toks : Int) ≠ i.folder_items ∧ e = i.counter (log.count i.toks) := by
    intro e
    constructor
    · rintro (⟨d, hd, htoks, hne, rfl⟩ | ⟨hnot, -⟩)
      · rcases List.mem_append.mp hd with hd | hd
        · exact absurd htoks (hnone d hd)
        · obtain rfl := List.mem_singleton.mp hd
          exact ⟨hne, rfl⟩
      · exact absurd rfl (hnot i (by simp))
    · rintro ⟨hne, rfl⟩
      exact Or.inl ⟨i, by simp, rfl, hne, rfl⟩
  refine ⟨_, heq, hes, fun e => ?_, ?_⟩
  · have hsplit : (if (log.count i.toks : Int) = i.folder_items then ((none : Option SFolderItem), [i.times])
        else (some (i.counter (log.count i.toks)), [])).1 = some e ↔ IsCounter log (arrived ++ [i]) i.toks e := by
      rw [hnew e]
      split
      · next hfull => simp [hfull]
      · next hmore => simp [hmore, eq_comm]
    rw [hmems e, hsplit, h.saved e]
    constructor
    · rintro (⟨⟨ms, hms, hold⟩, hne⟩ | hown)
      · have : i.toks ≠ ms := by
          rintro rfl
          exact hne ((hold.path harrived).trans hpath.symm)
        exact ⟨ms, hms, (isCounter_arrived_ne this).mpr hold⟩
      · exact ⟨_, hlog, hown⟩
    · rintro ⟨ms, hms, hcounter⟩
      by_cases hms' : i.toks = ms
      · subst hms'
        exact Or.inr hcounter
      · have hold := (isCounter_arrived_ne hms').mp hcounter
        refine Or.inl ⟨⟨ms, hms, hold⟩, fun hpath' => hms' ?_⟩
        exact hns.pathOf_inj (harrived.toks ms hms) (hpath.symm.trans (hpath'.symm.trans (hold.path harrived)))
  · dsimp only
    split
    · next hfull => exact h.set_complete ⟨hdir, hfull⟩
    · next hmore =>
      rw [List.append_nil, filter_concat_incomplete fun hcomplete => hmore hcomplete.2]
      exact h.set

end Tracks

section Runs

/-- The directories above an item. -/
def ancestors (i : MetadataItem) : List (List Bytes) :=
  ancestorsFrom [] i.toks

theorem mem_ancestors {i : MetadataItem} {ns : List Bytes} : ns ∈ ancestors i ↔ ns <+: i.toks ∧ ns ≠ [] ∧ ns ≠ i.toks := by
  rw [ancestors, mem_ancestorsFrom, List.nil_append, List.length_nil, Nat.zero_add, List.length_pos_iff]
  refine and_congr_right fun hstart => and_congr_right fun _ => ?_
  constructor
  · rintro hlt rfl
    exact Nat.lt_irrefl _ hlt
  · intro hne
    exact hstart.length_le.lt_of_ne fun hlen => hne (hstart.eq_of_length hlen)

theorem mem_ancestors_iff_below {d i : MetadataItem} (h : d.toks ≠ []) : d.toks ∈ ancestors i ↔ Below d i := by
  rw [mem_ancestors, Below]
  exact and_congr_right fun _ => and_iff_right h

theorem count_ancestors {d : MetadataItem} (h : d.toks ≠ []) (items : List MetadataItem) :
    (items.flatMap ancestors).count d.toks = items.countP (Below d ·) := by
  induction items with
  | nil => rfl
  | cons i items ih =>
    have hnodup : (ancestors i).Nodup := nodup_ancestorsFrom [] i.toks
    rw [List.flatMap_cons, List.count_append, ih, List.countP_cons, Nat.add_comm, hnodup.count]
    simp only [decide_eq_true_eq, mem_ancestors_iff_below h]

variable {items done rest : List MetadataItem}

theorem IsTree.isToks (h : IsTree items) {i : MetadataItem} (hi : i ∈ items) : IsToks i.toks :=
  ⟨(h.named i hi).1, (h.named i hi).2.1⟩

theorem IsTree.isToks_ancestors (h : IsTree items) {i : MetadataItem} (hi : i ∈ items) {ns : List Bytes} (hns : ns ∈ ancestors i) :
    IsToks ns := by
  obtain ⟨hstart, hne, -⟩ := mem_ancestors.mp hns
  exact ⟨hne, fun n hn => (h.isToks hi).2 n (hstart.subset hn)⟩

theorem IsTree.distinct_toks (h : IsTree items) {d d' : MetadataItem} (hd : d ∈ items) (hd' : d' ∈ items) (htoks : d.toks = d'.toks) :
    d = d' := by
  refine List.inj_on_of_nodup_map h.distinct hd hd' ?_
  rw [(h.named d hd).2.2, (h.named d' hd').2.2, htoks]

theorem IsTree.arrived (h : IsTree (done ++ rest)) : Arrived (done.flatMap ancestors) done := by
  have hmem : ∀ {i}, i ∈ done → i ∈ done ++ rest := fun hi => List.mem_append_left _ hi
  constructor
  · intro ns hns
    obtain ⟨i, hi, hns⟩ := List.mem_flatMap.mp hns
    exact h.isToks_ancestors (hmem hi) hns
  · exact fun d hd => (h.named d (hmem hd)).2.2
  · exact (List.nodup_append.mp (h.distinct.of_map _)).1
  · exact fun d hd d' hd' htoks => h.distinct_toks (hmem hd) (hmem hd') htoks

theorem IsTree.folder_items (h : IsTree (done ++ rest)) {d : MetadataItem} (hd : d ∈ done ++ rest) (hdir : d.is_dir = true) :
    d.folder_items = (done.flatMap ancestors).count d.toks + rest.countP (Below d ·) := by
  rw [h.counts d hd hdir, List.countP_append, count_ancestors (h.named d hd).1, Nat.cast_add]

/-- An item that others are below is a directory. -/
theorem IsTree.is_dir (h : IsTree items) {d i : MetadataItem} (hd : d ∈ items) (hi : i ∈ items) (hbelow : Below d i) :
    d.is_dir = true := by
  obtain ⟨d', hd', hdir, htoks⟩ := h.parents i hi d.toks hbelow.1 (h.named d hd).1 hbelow.2
  rwa [h.distinct_toks hd hd' htoks.symm]

theorem run_concat (items : List MetadataItem) (i : MetadataItem) :
    FileMetadataDownloadThread.run (items ++ [i]) = (FileMetadataDownloadThread.run items).addFolderItem i := by
  rw [FileMetadataDownloadThread.run, List.foldl_append]
  rfl

/-- An item arrives, and the directories above it count it. -/
theorem Tracks.ancestors {i : MetadataItem} (htree : IsTree (done ++ i :: rest)) (hfirst : NoneFirst (done ++ i :: rest))
    {t : FileMetadataDownloadThread} (h : Tracks (done.flatMap ancestors) done t) :
    Tracks ((done ++ [i]).flatMap filemetadata.ancestors) done (t.addAncestors [] i.toks) := by
  have hi : i ∈ done ++ i :: rest := by simp
  have heq := addAncestors_eq t [] i.toks (htree.named i hi).2.1
  have hflat : (done ++ [i]).flatMap filemetadata.ancestors = done.flatMap filemetadata.ancestors ++ filemetadata.ancestors i := by
    rw [List.flatMap_append, List.flatMap_singleton]
  rw [pathOf, join_nil, List.tail_nil] at heq
  rw [heq, hflat]
  refine h.count_all (nodup_ancestorsFrom _ _) htree.arrived (fun ns hns => htree.isToks_ancestors hi hns) fun d hd hmem => ?_
  have hd' : d ∈ done ++ i :: rest := List.mem_append_left _ hd
  have htoks := (htree.named d hd').1
  have hbelow := (mem_ancestors_iff_below htoks).mp hmem
  have hdir := htree.is_dir hd' hi hbelow
  refine ⟨hdir, ?_, ?_⟩
  · obtain ⟨pre, post, rfl⟩ := List.append_of_mem hd
    obtain ⟨j, hj, hbelow'⟩ := hfirst pre d (post ++ i :: rest) (by simp) hdir ⟨i, hi, hbelow⟩
    exact List.mem_flatMap.mpr ⟨j, List.mem_append_left _ hj, (mem_ancestors_iff_below htoks).mpr hbelow'⟩
  · have hpos : 0 < (i :: rest).countP (Below d ·) :=
      List.countP_pos_iff.mpr ⟨i, List.mem_cons_self, decide_eq_true hbelow⟩
    rw [htree.folder_items hd' hdir]
    omega

theorem Tracks.addFolderItem {i : MetadataItem} (htree : IsTree (done ++ i :: rest)) (hfirst : NoneFirst (done ++ i :: rest))
    {t : FileMetadataDownloadThread} (h : Tracks (done.flatMap filemetadata.ancestors) done t) :
    Tracks ((done ++ [i]).flatMap filemetadata.ancestors) (done ++ [i]) (t.addFolderItem i) := by
  have hi : i ∈ done ++ i :: rest := by simp
  have htree' : IsTree ((done ++ [i]) ++ rest) := by simpa using htree
  have harrived : Arrived ((done ++ [i]).flatMap filemetadata.ancestors) done :=
    { htree.arrived with toks := htree'.arrived.toks }
  have hnone : ∀ d ∈ done, d.toks ≠ i.toks := by
    intro d hd heq
    have hnodup := htree.distinct.of_map
    obtain rfl := htree.distinct_toks (List.mem_append_left _ hd) hi heq
    exact (List.nodup_cons.mp (List.nodup_middle.mp hnodup)).1 (List.mem_append_left _ hd)
  have hmem : i.toks ∈ (done ++ [i]).flatMap filemetadata.ancestors ↔ ∃ j ∈ done, Below i j := by
    simp only [List.mem_flatMap, List.mem_append, List.mem_singleton, or_and_right, exists_or, exists_eq_left,
      mem_ancestors_iff_below (htree.named i hi).1]
    refine or_iff_left fun hself => hself.2 rfl
  have hcounted := h.ancestors htree hfirst
  rw [FileMetadataDownloadThread.addFolderItem]
  by_cases hdir : i.is_dir = true
  · have hitems := htree'.folder_items (d := i) (by simp) hdir
    rw [if_pos hdir]
    by_cases hleaf : i.folder_items = 0
    · have hzero : ((done ++ [i]).flatMap filemetadata.ancestors).count i.toks = 0 := by omega
      have hnot := List.count_eq_zero.mp hzero
      rw [if_pos hleaf]
      refine ⟨hcounted.nodup, hcounted.saved_leaf hnot, hcounted.set_complete ⟨hdir, ?_⟩⟩
      rw [hzero, hleaf]
      rfl
    · have hlog : i.toks ∈ (done ++ [i]).flatMap filemetadata.ancestors := by
        rw [hmem]
        refine hfirst done i rest rfl hdir ?_
        by_contra hnot
        refine hleaf ((htree.counts i hi hdir).trans ?_)
        rw [List.countP_eq_zero.mpr fun j hj => ?_]
        · rfl
        · simpa using fun hbelow => hnot ⟨j, hj, hbelow⟩
      obtain ⟨r, heq, htracks⟩ := hcounted.own harrived hdir (htree.named i hi).2.2 hlog hnone
      rw [if_neg hleaf, heq]
      exact htracks
  · have hnot : i.toks ∉ (done ++ [i]).flatMap filemetadata.ancestors := by
      rw [hmem]
      rintro ⟨j, hj, hbelow⟩
      exact hdir (htree.is_dir hi (List.mem_append_left _ hj) hbelow)
    rw [if_neg hdir]
    refine ⟨hcounted.nodup, hcounted.saved_leaf hnot, ?_⟩
    rw [filter_concat_incomplete fun hcomplete => hdir hcomplete.1]
    exact hcounted.set

theorem tracks_run (htree : IsTree items) (hfirst : NoneFirst items) (hitems : items = done ++ rest) :
    Tracks (done.flatMap ancestors) done (FileMetadataDownloadThread.run done) := by
  induction done using List.reverseRecOn generalizing rest with
  | nil => exact ⟨List.nodup_nil, fun e => by simp [FileMetadataDownloadThread.run], List.Perm.refl _⟩
  | append_singleton done i ih =>
    rw [List.append_assoc, List.singleton_append] at hitems
    have hdone := ih hitems
    subst hitems
    rw [run_concat]
    exact hdone.addFolderItem htree hfirst

/-- Where no directory arrives before the items below it, all times are set. -/
theorem timesSet_of_noneFirst (htree : IsTree items) (hfirst : NoneFirst items) : TimesSet items := by
  have hend := tracks_run htree hfirst (List.append_nil items).symm
  have htree' : IsTree (items ++ []) := by rwa [List.append_nil]
  have hcount : ∀ d ∈ items, d.is_dir = true → ((items.flatMap ancestors).count d.toks : Int) = d.folder_items := by
    intro d hd hdir
    rw [htree'.folder_items (List.mem_append_left _ hd) hdir]
    simp
  constructor
  · refine hend.set.trans (List.Perm.of_eq (congrArg _ (List.filter_congr fun d hd => ?_)))
    by_cases hdir : d.is_dir = true
    · rw [hdir]
      exact decide_eq_true ⟨hdir, hcount d hd hdir⟩
    · rw [Bool.eq_false_of_not_eq_true hdir]
      exact decide_eq_false fun hcomplete => hdir hcomplete.1
  · rintro done rest rfl
    have hsub : ∀ d ∈ done, IsComplete (done.flatMap ancestors) d → ∀ i ∈ rest, ¬ Below d i := by
      intro d hd hcomplete i hi hbelow
      have hitems := htree.folder_items (List.mem_append_left _ hd) hcomplete.1
      have hpos : 0 < rest.countP (Below d ·) := List.countP_pos_iff.mpr ⟨i, hi, decide_eq_true hbelow⟩
      have := hcomplete.2
      omega
    have hfilter : done.filter (IsComplete (done.flatMap ancestors) ·) =
        (done.filter fun d => d.is_dir ∧ ∀ i ∈ rest, ¬ Below d i).filter (IsComplete (done.flatMap ancestors) ·) := by
      rw [List.filter_filter]
      refine List.filter_congr fun d hd => ?_
      rw [← Bool.decide_and, decide_eq_decide]
      exact ⟨fun hcomplete => ⟨hcomplete, hcomplete.1, hsub d hd hcomplete⟩, And.left⟩
    refine (tracks_run htree hfirst rfl).set.subperm.trans ?_
    rw [hfilter]
    exact (List.filter_sublist.map _).subperm
  · refine List.eq_nil_iff_forall_not_mem.mpr fun e he => ?_
    obtain ⟨ns, hns, hcounter⟩ := (hend.saved e).mp he
    obtain ⟨i, hi, hns⟩ := List.mem_flatMap.mp hns
    obtain ⟨hstart, hne, hne'⟩ := mem_ancestors.mp hns
    obtain ⟨d, hd, hdir, rfl⟩ := htree.parents i hi ns hstart hne hne'
    exact ((isCounter_own htree'.arrived hd e).mp hcounter).1 (hcount d hd hdir)

end Runs

section Stuck

variable {t : FileMetadataDownloadThread} {path dir_path : Bytes} {f : SFolderItem → Option SFolderItem × List FileTime}
  {saved : List SFolderItem} {r : List SFolderItem × List FileTime}

/-- The counters of a path that know nothing of its directory. -/
def Stuck (path : Bytes) (t : FileMetadataDownloadThread) : Prop :=
  ∀ e ∈ t.saved_folder_items, e.path = path → e.folder_items = -1 ∧ 0 ≤ e.counted_items

def HasCounter (path : Bytes) (t : FileMetadataDownloadThread) : Prop :=
  ∃ e ∈ t.saved_folder_items, e.path = path

theorem mem_of_mem_atPath (h : atPath dir_path f saved = some r) {e' : SFolderItem} (he' : e' ∈ r.1) :
    e' ∈ saved ∨ ∃ e ∈ saved, e.path = dir_path ∧ (f e).1 = some e' := by
  rcases atPath_cases dir_path f saved with ⟨heq, -⟩ | ⟨pre, e, post, rfl, hpath, -, heq⟩
  · cases heq.symm.trans h
  · obtain rfl := Option.some.inj (heq.symm.trans h)
    simp only [List.mem_append, Option.mem_toList] at he'
    rcases he' with (hpre | hnew) | hpost
    · exact Or.inl (List.mem_append_left _ hpre)
    · exact Or.inr ⟨e, by simp, hpath, hnew⟩
    · exact Or.inl (List.mem_append_right _ (List.mem_cons_of_mem _ hpost))

/-- The counters of other paths stay. -/
theorem mem_atPath_of_ne (h : atPath dir_path f saved = some r) {e' : SFolderItem} (he' : e' ∈ saved) (hne : e'.path ≠ dir_path) :
    e' ∈ r.1 := by
  rcases atPath_cases dir_path f saved with ⟨heq, -⟩ | ⟨pre, e, post, rfl, hpath, -, heq⟩
  · cases heq.symm.trans h
  · obtain rfl := Option.some.inj (heq.symm.trans h)
    have hother : e' ≠ e := fun heq' => hne (heq' ▸ hpath)
    simp only [List.mem_append, List.mem_cons, hother, false_or] at he' ⊢
    exact he'.imp_left Or.inl

theorem HasCounter.of_addSingleFileItem (h : HasCounter path (t.addSingleFileItem dir_path)) :
    path = dir_path ∨ HasCounter path t := by
  obtain ⟨e', he', rfl⟩ := h
  rw [FileMetadataDownloadThread.addSingleFileItem] at he'
  split at he'
  · next heq =>
    rcases mem_of_mem_atPath heq he' with hold | ⟨e, -, hpath, hnew⟩
    · exact Or.inr ⟨e', hold, rfl⟩
    · exact Or.inl ((countItem_path hnew).trans hpath)
  · rcases List.mem_append.mp he' with hold | hnew
    · exact Or.inr ⟨e', hold, rfl⟩
    · rw [List.mem_singleton.mp hnew]
      exact Or.inl rfl

theorem Stuck.addSingleFileItem (h : Stuck path t) : Stuck path (t.addSingleFileItem dir_path) := by
  intro e' he' hpath'
  rw [FileMetadataDownloadThread.addSingleFileItem] at he'
  split at he'
  · next heq =>
    rcases mem_of_mem_atPath heq he' with hold | ⟨e, he, -, hnew⟩
    · exact h e' hold hpath'
    · obtain ⟨hitems, hcounted⟩ := h e he ((countItem_path hnew).symm.trans hpath')
      simp only [countItem] at hnew
      split at hnew
      · cases hnew
      · rw [← Option.some.inj hnew]
        exact ⟨hitems, by dsimp only; omega⟩
  · rcases List.mem_append.mp he' with hold | hnew
    · exact h e' hold hpath'
    · rw [List.mem_singleton.mp hnew]
      exact ⟨rfl, Int.one_nonneg⟩

theorem HasCounter.addSingleFileItem (h : Stuck path t) (hcounter : path = dir_path ∨ HasCounter path t) :
    HasCounter path (t.addSingleFileItem dir_path) := by
  rw [FileMetadataDownloadThread.addSingleFileItem]
  split
  · next saved set heq =>
    by_cases hdir : path = dir_path
    · subst hdir
      rcases atPath_cases path countItem t.saved_folder_items with ⟨hnone, -⟩ | ⟨pre, e, post, hsaved, hpath, -, hsome⟩
      · cases hnone.symm.trans heq
      · obtain ⟨hitems, hcounted⟩ := h e (by rw [hsaved]; simp) hpath
        have hmore : ¬ e.counted_items + 1 = e.folder_items := by omega
        obtain ⟨rfl, -⟩ := Prod.mk.inj (Option.some.inj (hsome.symm.trans heq))
        refine ⟨{ e with counted_items := e.counted_items + 1 }, ?_, hpath⟩
        rw [countItem, if_neg hmore]
        simp
    · obtain ⟨e, he, rfl⟩ := hcounter.resolve_left hdir
      exact ⟨e, mem_atPath_of_ne heq he hdir, rfl⟩
  · rcases hcounter with rfl | ⟨e, he, hpath⟩
    · exact ⟨_, List.mem_append_right _ List.mem_cons_self, rfl⟩
    · exact ⟨e, List.mem_append_left _ he, hpath⟩

/-- What `addFolderItem` leaves behind the counting. -/
theorem addFolderItem_saved (t : FileMetadataDownloadThread) (i : MetadataItem) :
    (t.addFolderItem i).saved_folder_items = (t.addAncestors [] i.toks).saved_folder_items ∨
      ∃ r, atPath i.path (ownItem i) (t.addAncestors [] i.toks).saved_folder_items = some r ∧
        (t.addFolderItem i).saved_folder_items = r.1 := by
  rw [FileMetadataDownloadThread.addFolderItem]
  split
  · split
    · exact Or.inl rfl
    · split
      · next heq => exact Or.inr ⟨_, heq, rfl⟩
      · exact Or.inl rfl
  · exact Or.inl rfl

theorem HasCounter.of_addFolderItem {i : MetadataItem} (h : HasCounter path (t.addFolderItem i)) :
    HasCounter path (t.addAncestors [] i.toks) := by
  obtain ⟨e', he', rfl⟩ := h
  rcases addFolderItem_saved t i with heq | ⟨r, hr, heq⟩
  · exact ⟨e', heq ▸ he', rfl⟩
  · rcases mem_of_mem_atPath hr (heq ▸ he') with hold | ⟨e, he, -, hnew⟩
    · exact ⟨e', hold, rfl⟩
    · exact ⟨e, he, (ownItem_path hnew).symm⟩

theorem HasCounter.addFolderItem {i : MetadataItem} (hne : i.path ≠ path) (h : HasCounter path (t.addAncestors [] i.toks)) :
    HasCounter path (t.addFolderItem i) := by
  obtain ⟨e, he, rfl⟩ := h
  rcases addFolderItem_saved t i with heq | ⟨r, hr, heq⟩
  · exact ⟨e, heq ▸ he, rfl⟩
  · exact ⟨e, heq ▸ mem_atPath_of_ne hr he hne.symm, rfl⟩

theorem Stuck.addFolderItem {i : MetadataItem} (hne : i.path ≠ path) (h : Stuck path (t.addAncestors [] i.toks)) :
    Stuck path (t.addFolderItem i) := by
  intro e' he' hpath'
  rcases addFolderItem_saved t i with heq | ⟨r, hr, heq⟩
  · exact h e' (heq ▸ he') hpath'
  · rcases mem_of_mem_atPath hr (heq ▸ he') with hold | ⟨e, -, hpath, hnew⟩
    · exact h e' hold hpath'
    · exact absurd (hpath.symm.trans ((ownItem_path hnew).symm.trans hpath')) hne

/-- The counting of one item, for one path. -/
theorem hasCounter_foldl {as : List (List Bytes)} (h : Stuck path t) :
    Stuck path (as.foldl (fun t ns => t.addSingleFileItem (pathOf ns)) t) ∧
      ((∃ ns ∈ as, path = pathOf ns) ∨ HasCounter path t →
        HasCounter path (as.foldl (fun t ns => t.addSingleFileItem (pathOf ns)) t)) := by
  induction as generalizing t with
  | nil => exact ⟨h, fun hcounter => hcounter.resolve_left fun ⟨ns, hns, _⟩ => nomatch hns⟩
  | cons a as ih =>
    obtain ⟨hstuck, hcounter⟩ := ih (h.addSingleFileItem)
    refine ⟨hstuck, fun hor => hcounter ?_⟩
    rcases hor with ⟨ns, hns, hpath⟩ | hold
    · rcases List.mem_cons.mp hns with rfl | hns
      · exact Or.inr (HasCounter.addSingleFileItem h (Or.inl hpath))
      · exact Or.inl ⟨ns, hns, hpath⟩
    · exact Or.inr (HasCounter.addSingleFileItem h (Or.inr hold))

theorem HasCounter.of_foldl {as : List (List Bytes)}
    (h : HasCounter path (as.foldl (fun t ns => t.addSingleFileItem (pathOf ns)) t)) :
    (∃ ns ∈ as, path = pathOf ns) ∨ HasCounter path t := by
  induction as generalizing t with
  | nil => exact Or.inr h
  | cons a as ih =>
    rcases ih h with ⟨ns, hns, hpath⟩ | hold
    · exact Or.inl ⟨ns, List.mem_cons_of_mem _ hns, hpath⟩
    · exact hold.of_addSingleFileItem.imp_left fun hpath => ⟨a, List.mem_cons_self, hpath⟩

variable {items done rest : List MetadataItem}

theorem IsTree.addAncestors_eq (htree : IsTree items) {i : MetadataItem} (hi : i ∈ items) (t : FileMetadataDownloadThread) :
    t.addAncestors [] i.toks = (ancestors i).foldl (fun t ns => t.addSingleFileItem (pathOf ns)) t :=
  filemetadata.addAncestors_eq t [] i.toks (htree.named i hi).2.1

/-- Only directories above items that have arrived have counters. -/
theorem below_of_hasCounter (htree : IsTree items) (hitems : items = done ++ rest) {d : MetadataItem} (hd : d ∈ items)
    (h : HasCounter d.path (FileMetadataDownloadThread.run done)) : ∃ i ∈ done, Below d i := by
  induction done using List.reverseRecOn generalizing rest with
  | nil =>
    obtain ⟨e, he, -⟩ := h
    exact nomatch he
  | append_singleton done i ih =>
    have hi : i ∈ items := by rw [hitems]; simp
    rw [run_concat] at h
    have hcounted := h.of_addFolderItem
    rw [htree.addAncestors_eq hi] at hcounted
    rcases hcounted.of_foldl with ⟨ns, hns, hpath⟩ | hold
    · rw [(htree.named d hd).2.2] at hpath
      obtain rfl := (htree.isToks hd).pathOf_inj (htree.isToks_ancestors hi hns) hpath
      exact ⟨i, by simp, (mem_ancestors_iff_below (htree.named d hd).1).mp hns⟩
    · obtain ⟨j, hj, hbelow⟩ := ih (by rw [hitems, List.append_assoc]) hold
      exact ⟨j, List.mem_append_left _ hj, hbelow⟩

/-- A directory that arrives first keeps a counter that is never full. -/
theorem stuck_run (htree : IsTree items) {d : MetadataItem} (hitems : items = done ++ d :: rest) (hnone : ∀ i ∈ done, ¬ Below d i)
    {mid post : List MetadataItem} (hrest : rest = mid ++ post) :
    Stuck d.path (FileMetadataDownloadThread.run (done ++ d :: mid)) ∧
      ((∃ i ∈ mid, Below d i) → HasCounter d.path (FileMetadataDownloadThread.run (done ++ d :: mid))) := by
  have hd : d ∈ items := by rw [hitems]; simp
  induction mid using List.reverseRecOn generalizing post with
  | nil =>
    refine ⟨fun e he hpath => ?_, fun ⟨i, hi, _⟩ => nomatch hi⟩
    obtain ⟨i, hi, hbelow⟩ := below_of_hasCounter htree (by simpa using hitems) hd ⟨e, he, hpath⟩
    rcases List.mem_append.mp hi with hi | hi
    · exact absurd hbelow (hnone i hi)
    · rw [List.mem_singleton.mp hi] at hbelow
      exact absurd rfl hbelow.2
  | append_singleton mid i ih =>
    obtain ⟨hstuck, hcounter⟩ := ih (by simpa using hrest)
    have hi : i ∈ items := by rw [hitems, hrest]; simp
    have hne : i.path ≠ d.path := by
      have hnodup := htree.distinct
      rw [hitems, hrest, List.map_append, List.map_cons, List.nodup_middle, List.nodup_cons] at hnodup
      intro heq
      exact hnodup.1 (heq ▸ List.mem_append_right _ (List.mem_map_of_mem (by simp)))
    have hrun : done ++ d :: (mid ++ [i]) = (done ++ d :: mid) ++ [i] := by simp
    obtain ⟨hstuck', hcounter'⟩ := hasCounter_foldl hstuck
    rw [← htree.addAncestors_eq hi] at hstuck' hcounter'
    rw [hrun, run_concat]
    refine ⟨hstuck'.addFolderItem hne, fun ⟨j, hj, hbelow⟩ => (hcounter' ?_).addFolderItem hne⟩
    rcases List.mem_append.mp hj with hj | hj
    · exact Or.inr (hcounter ⟨j, hj, hbelow⟩)
    · rw [List.mem_singleton.mp hj] at hbelow
      exact Or.inl ⟨d.toks, (mem_ancestors_iff_below (htree.named d hd).1).mpr hbelow, (htree.named d hd).2.2⟩

theorem noneFirst_of_timesSet (htree : IsTree items) (h : TimesSet items) : NoneFirst items := by
  rintro done d rest hitems hdir ⟨i, hi, hbelow⟩
  by_contra hnot
  have hnone : ∀ j ∈ done, ¬ Below d j := fun j hj hbelow' => hnot ⟨j, hj, hbelow'⟩
  have hrest : i ∈ rest := by
    rw [hitems] at hi
    rcases List.mem_append.mp hi with hi | hi
    · exact absurd hbelow (hnone i hi)
    · rcases List.mem_cons.mp hi with rfl | hi
      · exact absurd rfl hbelow.2
      · exact hi
  obtain ⟨e, he, -⟩ := (stuck_run htree hitems hnone (List.append_nil rest).symm).2 ⟨i, hrest, hbelow⟩
  rw [← hitems, h.emptied] at he
  exact nomatch he

/-- The times of all directories are set as they are to be exactly where no directory
arrives before all the items below it. -/
theorem timesSet_iff (htree : IsTree items) : TimesSet items ↔ NoneFirst items :=
  ⟨noneFirst_of_timesSet htree, timesSet_of_noneFirst htree⟩

/-- The directory `d` with the one file `f`. -/
def dirItem : MetadataItem :=
  ⟨[100], [47, 100], true, 1, 2, 3, 1⟩

def fileItem : MetadataItem :=
  ⟨[100, 47, 102], [47, 100, 47, 102], false, 4, 5, 6, 0⟩

theorem isTree_dirItem : IsTree [fileItem, dirItem] ∧ IsTree [dirItem, fileItem] := by
  have hparents : ∀ i ∈ [fileItem, dirItem], ∀ ns ∈ i.toks.inits, ns ≠ [] → ns ≠ i.toks →
      ns = dirItem.toks := by decide
  have hnamed : ∀ i ∈ [fileItem, dirItem], i.toks ≠ [] ∧ (∀ n ∈ i.toks, IsComponent n) ∧ i.path = (join i.toks).tail := by
    unfold IsComponent
    decide
  constructor
  · refine ⟨hnamed, by decide, fun i hi ns hstart hne hne' => ?_, by decide⟩
    exact ⟨dirItem, by simp, rfl, (hparents i hi ns ((List.mem_inits _ _).mpr hstart) hne hne').symm⟩
  · refine ⟨fun i hi => hnamed i (List.mem_reverse.mp hi), by decide, fun i hi ns hstart hne hne' => ?_, by decide⟩
    exact ⟨dirItem, by simp, rfl, (hparents i (List.mem_reverse.mp hi) ns ((List.mem_inits _ _).mpr hstart) hne hne').symm⟩

theorem timesSet_dirItem : IsTree [fileItem, dirItem] ∧ (TimesSet [fileItem, dirItem] ↔ NoneFirst [fileItem, dirItem]) :=
  ⟨isTree_dirItem.1, timesSet_iff isTree_dirItem.1⟩

/-- The record of the directory is dropped, and the counter of its file stays. -/
theorem not_timesSet_dirItem : IsTree [dirItem, fileItem] ∧ ¬ TimesSet [dirItem, fileItem] := by
  refine ⟨isTree_dirItem.2, fun h => ?_⟩
  have hsaved : (FileMetadataDownloadThread.run [dirItem, fileItem]).saved_folder_items ≠ [] := by decide
  exact hsaved h.emptied

end Stuck

end urbackup.filemetadata
