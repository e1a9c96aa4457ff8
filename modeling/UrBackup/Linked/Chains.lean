import UrBackup.Linked.Segment

namespace linked

variable {ι : Type} {null : ι} {l l' : Links ι} {cells : ι → Prop} {chains : List (List ι)}

/-- The cells of a store form disjoint doubly linked lists, `null` at both ends
of each. -/
structure Chains (null : ι) (l : Links ι) (cells : ι → Prop) (chains : List (List ι)) : Prop where
  nodup : chains.flatten.Nodup
  cover : ∀ a, a ∈ chains.flatten ↔ cells a
  nonempty : ∀ c ∈ chains, c ≠ []
  segment : ∀ c ∈ chains, Segment l null null c
  null_free : ¬ cells null

/-- The cells of a list carry the same label. -/
def Uniform {κ : Type} (label : ι → κ) (chains : List (List ι)) : Prop :=
  ∀ c ∈ chains, ∀ a ∈ c, ∀ b ∈ c, label a = label b

theorem Chains.empty (l : Links ι) : Chains null l (fun _ => False) [] :=
  ⟨by simp, by simp, by simp, by simp, id⟩

theorem Chains.congr {cells' : ι → Prop} (h : Chains null l cells chains) (hcells : ∀ a, cells' a ↔ cells a)
    (hnext : ∀ a, cells a → l'.next a = l.next a) (hprev : ∀ a, cells a → l'.prev a = l.prev a) :
    Chains null l' cells' chains := by
  refine ⟨h.nodup, fun a => (h.cover a).trans (hcells a).symm, h.nonempty, fun c hc => ?_, ?_⟩
  · have hcell : ∀ a ∈ c, cells a := fun a ha => (h.cover a).mp (List.mem_flatten.mpr ⟨c, hc, ha⟩)
    exact (h.segment c hc).congr (fun a ha => hnext a (hcell a ha)) (fun a ha => hprev a (hcell a ha))
  · rw [hcells]
    exact h.null_free

/-- The list of a cell, split at the cell. -/
theorem Chains.split (h : Chains null l cells chains) {a : ι} (ha : cells a) :
    ∃ before pre post after, chains = before ++ (pre ++ a :: post) :: after := by
  obtain ⟨c, hc, hac⟩ := List.mem_flatten.mp ((h.cover a).mpr ha)
  obtain ⟨before, after, rfl⟩ := List.append_of_mem hc
  obtain ⟨pre, post, rfl⟩ := List.append_of_mem hac
  exact ⟨before, pre, post, after, rfl⟩

section Split

variable {before after : List (List ι)} {pre post : List ι} {a : ι}

section Neighbours

variable (h : Chains null l cells (before ++ (pre ++ a :: post) :: after))

include h

theorem Chains.next_eq :
    l.next a = post.headD null := by
  have := h.segment (pre ++ a :: post) (by simp)
  rw [segment_append] at this
  exact this.2.2.1

theorem Chains.prev_eq :
    l.prev a = pre.getLastD null := by
  have := h.segment (pre ++ a :: post) (by simp)
  rw [segment_append] at this
  exact this.2.1

theorem Chains.mem_cells {b : ι}
    (hb : b ∈ pre ++ a :: post) : cells b :=
  (h.cover b).mp (List.mem_flatten.mpr ⟨_, by simp, hb⟩)

/-- A cell without neighbours is alone in its list. -/
theorem Chains.alone (hnext : l.next a = null)
    (hprev : l.prev a = null) : pre = [] ∧ post = [] := by
  constructor
  · rcases List.eq_nil_or_concat pre with rfl | ⟨ps, p, rfl⟩
    · rfl
    · rw [h.prev_eq] at hprev
      simp only [List.concat_eq_append, List.getLastD_concat] at hprev
      exact absurd (h.mem_cells (by simp [hprev])) h.null_free
  · cases post with
    | nil => rfl
    | cons p ps =>
      rw [h.next_eq] at hnext
      simp only [List.headD_cons] at hnext
      exact absurd (h.mem_cells (by simp [hnext])) h.null_free

end Neighbours

end Split

/-- Following a link and its inverse leads back. -/
theorem Chains.prev_next (h : Chains null l cells chains) {a : ι} (ha : cells a) (hnext : l.next a ≠ null) :
    cells (l.next a) ∧ l.prev (l.next a) = a := by
  obtain ⟨before, pre, post, after, rfl⟩ := h.split ha
  have heq := h.next_eq
  cases post with
  | nil => exact absurd heq hnext
  | cons p ps =>
    simp only [List.headD_cons] at heq
    rw [heq]
    have h' : Chains null l cells (before ++ ((pre ++ [a]) ++ p :: ps) :: after) := by simpa using h
    exact ⟨h.mem_cells (by simp), by simpa using h'.prev_eq⟩

theorem Chains.next_prev (h : Chains null l cells chains) {a : ι} (ha : cells a) (hprev : l.prev a ≠ null) :
    cells (l.prev a) ∧ l.next (l.prev a) = a := by
  obtain ⟨before, pre, post, after, rfl⟩ := h.split ha
  have heq := h.prev_eq
  rcases List.eq_nil_or_concat pre with rfl | ⟨ps, p, rfl⟩
  · exact absurd heq hprev
  · simp only [List.concat_eq_append, List.getLastD_concat] at heq
    rw [heq]
    have h' : Chains null l cells (before ++ (ps ++ p :: a :: post) :: after) := by simpa using h
    exact ⟨h.mem_cells (by simp), by simpa using h'.next_eq⟩

theorem Chains.next_ne (h : Chains null l cells chains) {a : ι} (ha : cells a) : l.next a ≠ a := by
  obtain ⟨before, pre, post, after, rfl⟩ := h.split ha
  have hnodup := h.nodup
  rw [List.flatten_append, List.flatten_cons] at hnodup
  have hrest := (List.nodup_append.mp hnodup.of_append_right.of_append_left).2.1
  rw [h.next_eq]
  cases post with
  | nil =>
    intro heq
    rw [List.headD_nil] at heq
    exact h.null_free (heq ▸ ha)
  | cons p ps => exact fun heq => (List.nodup_cons.mp hrest).1 (by simp [← heq])

theorem Chains.prev_ne (h : Chains null l cells chains) {a : ι} (ha : cells a) : l.prev a ≠ a := by
  intro heq
  by_cases hnull : l.prev a = null
  · exact h.null_free (hnull ▸ heq.symm ▸ ha)
  · have hnext := (h.next_prev ha hnull).2
    rw [heq] at hnext
    exact h.next_ne ha hnext

/-- The cells of the other lists are not among those of one list. -/
theorem Chains.notMem_other {before after : List (List ι)} {c d : List ι}
    (h : Chains null l cells (before ++ c :: after)) (hd : d ∈ before ++ after) {a : ι} (ha : a ∈ d) : a ∉ c := by
  have hnodup := h.nodup
  simp only [List.flatten_append, List.flatten_cons] at hnodup
  obtain ⟨_, hrest, hdisj⟩ := List.nodup_append.mp hnodup
  obtain ⟨_, _, hdisj'⟩ := List.nodup_append.mp hrest
  intro hac
  rcases List.mem_append.mp hd with hd | hd
  · exact hdisj a (List.mem_flatten.mpr ⟨d, hd, ha⟩) a (by simp [hac]) rfl
  · exact hdisj' a hac a (List.mem_flatten.mpr ⟨d, hd, ha⟩) rfl

/-- A new list of one cell. -/
theorem Chains.push (h : Chains null l cells chains) {n : ι} (hnew : ¬ cells n) (hnull : n ≠ null)
    (hnext : l'.next n = null) (hprev : l'.prev n = null) (hother : ∀ a, a ≠ n → l'.next a = l.next a ∧ l'.prev a = l.prev a) :
    Chains null l' (fun a => a = n ∨ cells a) ([n] :: chains) := by
  have hfresh : n ∉ chains.flatten := fun hn => hnew ((h.cover n).mp hn)
  refine ⟨?_, ?_, ?_, ?_, ?_⟩
  · simpa using ⟨by simpa using hfresh, h.nodup⟩
  · intro a
    rw [List.flatten_cons, List.mem_append, h.cover, List.mem_singleton]
  · intro c hc
    rcases List.mem_cons.mp hc with rfl | hc
    · simp
    · exact h.nonempty c hc
  · intro c hc
    rcases List.mem_cons.mp hc with rfl | hc
    · exact ⟨hprev, hnext, trivial⟩
    · have hne : ∀ a ∈ c, a ≠ n := fun a ha heq => hfresh (List.mem_flatten.mpr ⟨c, hc, heq ▸ ha⟩)
      exact (h.segment c hc).congr (fun a ha => (hother a (hne a ha)).1) (fun a ha => (hother a (hne a ha)).2)
  · rintro (heq | hcell)
    · exact hnull heq.symm
    · exact h.null_free hcell

section Update

variable {before after : List (List ι)} {pre post : List ι}

theorem Chains.notMem_null {c : List ι} (h : Chains null l cells (before ++ c :: after)) : null ∉ c :=
  fun hc => h.null_free ((h.cover null).mp (List.mem_flatten.mpr ⟨c, by simp, hc⟩))

theorem Chains.nodup_chain {c : List ι} (h : Chains null l cells (before ++ c :: after)) : c.Nodup := by
  have hnodup := h.nodup
  rw [List.flatten_append, List.flatten_cons] at hnodup
  exact hnodup.of_append_right.of_append_left

/-- The rest of a list after a cell was taken out, if anything is left. -/
def remainder (pre post : List ι) : List (List ι) :=
  if (pre ++ post).isEmpty then [] else [pre ++ post]

theorem flatten_remainder (pre post : List ι) : (remainder pre post).flatten = pre ++ post := by
  unfold remainder
  split
  · next h => simp [List.isEmpty_iff.mp h]
  · simp

theorem mem_remainder {c : List ι} (h : c ∈ remainder pre post) : c = pre ++ post ∧ c ≠ [] := by
  unfold remainder at h
  split at h
  · simp at h
  · next hne =>
    obtain rfl := List.mem_singleton.mp h
    exact ⟨rfl, fun hnil => hne (by simp [hnil])⟩

section Label

variable {κ : Type} {label label' : ι → κ}

theorem Uniform.push {n : ι} (h : Uniform label chains) (hsame : ∀ a ∈ chains.flatten, label' a = label a) :
    Uniform label' ([n] :: chains) := by
  intro c hc a ha b hb
  rcases List.mem_cons.mp hc with rfl | hc
  · rw [List.mem_singleton.mp ha, List.mem_singleton.mp hb]
  · rw [hsame a (List.mem_flatten.mpr ⟨c, hc, ha⟩), hsame b (List.mem_flatten.mpr ⟨c, hc, hb⟩)]
    exact h c hc a ha b hb

theorem Uniform.insertAfter {e n : ι} (h : Uniform label (before ++ (pre ++ e :: post) :: after))
    (hsame : ∀ a ∈ (before ++ (pre ++ e :: post) :: after).flatten, label' a = label a) (hn : label' n = label e) :
    Uniform label' (before ++ (pre ++ e :: n :: post) :: after) := by
  have hold : ∀ c ∈ before ++ (pre ++ e :: post) :: after, ∀ a ∈ c, label' a = label a := fun c hc a ha =>
    hsame a (List.mem_flatten.mpr ⟨c, hc, ha⟩)
  have hchain : ∀ a ∈ pre ++ e :: n :: post, label' a = label e := by
    intro a ha
    by_cases han : a = n
    · rw [han, hn]
    · have hmem : a ∈ pre ++ e :: post := by
        simp only [List.mem_append, List.mem_cons] at ha ⊢
        exact ha.imp_right fun h => h.imp_right fun h => h.resolve_left han
      rw [hold (pre ++ e :: post) (by simp) a hmem]
      exact h (pre ++ e :: post) (by simp) a hmem e (by simp)
  intro c hc a ha b hb
  by_cases hcase : c = pre ++ e :: n :: post
  · subst hcase
    rw [hchain a ha, hchain b hb]
  · have hmem : c ∈ before ++ (pre ++ e :: post) :: after := by
      simp only [List.mem_append, List.mem_cons] at hc ⊢
      exact hc.imp_right fun h => Or.inr (h.resolve_left hcase)
    rw [hold c hmem a ha, hold c hmem b hb]
    exact h c hmem a ha b hb

theorem Uniform.remove {x : ι} (h : Uniform label (before ++ (pre ++ x :: post) :: after))
    (hsame : ∀ a ∈ (before ++ remainder pre post ++ after).flatten, label' a = label a) :
    Uniform label' (before ++ remainder pre post ++ after) := by
  intro c hc a ha b hb
  rw [hsame a (List.mem_flatten.mpr ⟨c, hc, ha⟩), hsame b (List.mem_flatten.mpr ⟨c, hc, hb⟩)]
  simp only [List.mem_append] at hc
  rcases hc with (hc | hc) | hc
  · exact h c (by simp [hc]) a ha b hb
  · obtain ⟨rfl, _⟩ := mem_remainder hc
    have hsub : ∀ y ∈ pre ++ post, y ∈ pre ++ x :: post := by
      intro y hy
      simp only [List.mem_append, List.mem_cons] at hy ⊢
      exact hy.imp_right Or.inr
    exact h (pre ++ x :: post) (by simp) a (hsub a ha) b (hsub b hb)
  · exact h c (by simp [hc]) a ha b hb

/-- Neighbours carry the same label. -/
theorem Uniform.next_eq (h : Uniform label chains) (hc : Chains null l cells chains) {a : ι} (ha : cells a)
    (hnext : l.next a ≠ null) : label (l.next a) = label a := by
  obtain ⟨before, pre, post, after, rfl⟩ := hc.split ha
  rw [hc.next_eq] at hnext ⊢
  cases post with
  | nil => exact absurd rfl hnext
  | cons p ps => exact h (pre ++ a :: p :: ps) (by simp) p (by simp) a (by simp)

/-- The labels of the lists, each read off the first cell. -/
def labels (label : ι → κ) (chains : List (List ι)) : List (Option κ) :=
  chains.map fun c => c.head?.map label

theorem labels_congr (h : ∀ a ∈ chains.flatten, label' a = label a) : labels label' chains = labels label chains := by
  apply List.map_congr_left
  intro c hc
  cases c with
  | nil => rfl
  | cons a c => simp [h a (List.mem_flatten.mpr ⟨a :: c, hc, by simp⟩)]

theorem Uniform.label_head {c : List ι} (h : Uniform label chains) (hc : c ∈ chains) {a : ι} (ha : a ∈ c) :
    c.head?.map label = some (label a) := by
  cases c with
  | nil => simp at ha
  | cons b c => simp [h (b :: c) hc b (by simp) a ha]

/-- Lists with different labels share no cell label. -/
theorem Uniform.label_ne {c d : List ι} (h : Uniform label (before ++ c :: after))
    (hnodup : (labels label (before ++ c :: after)).Nodup) (hd : d ∈ before ++ after) {a b : ι} (ha : a ∈ c)
    (hb : b ∈ d) : label a ≠ label b := by
  intro heq
  have hmem : d ∈ before ++ c :: after := by
    rcases List.mem_append.mp hd with hd | hd <;> simp [hd]
  have hhead : d.head?.map label = c.head?.map label := by
    rw [h.label_head hmem hb, h.label_head (by simp) ha, heq]
  simp only [labels, List.map_append, List.map_cons] at hnodup
  rw [List.nodup_middle] at hnodup
  apply (List.nodup_cons.mp hnodup).1
  rw [← hhead, ← List.map_append]
  exact List.mem_map_of_mem hd

theorem labels_insertAfter {e n : ι} :
    labels label (before ++ (pre ++ e :: n :: post) :: after) = labels label (before ++ (pre ++ e :: post) :: after) := by
  cases pre <;> simp [labels]

theorem Uniform.labels_remove {x : ι} (h : Uniform label (before ++ (pre ++ x :: post) :: after)) :
    (labels label (before ++ remainder pre post ++ after)).Sublist
      (labels label (before ++ (pre ++ x :: post) :: after)) := by
  have hrem : (labels label (remainder pre post)).Sublist [(pre ++ x :: post).head?.map label] := by
    unfold remainder
    split
    · simp [labels]
    · next hne =>
      obtain ⟨y, ys, hy⟩ := List.exists_cons_of_ne_nil (fun hnil => hne (by simp [hnil]) : pre ++ post ≠ [])
      have hmem : y ∈ pre ++ x :: post := by
        have : y ∈ pre ++ post := by simp [hy]
        simp only [List.mem_append, List.mem_cons] at this ⊢
        exact this.imp_right Or.inr
      rw [h.label_head (by simp) hmem]
      simp [labels, hy]
  simp only [labels, List.map_append, List.map_cons, List.append_assoc] at hrem ⊢
  exact List.Sublist.append (List.Sublist.refl _) (List.Sublist.append hrem (List.Sublist.refl _))

end Label

/-- A new cell behind an existing one. -/
theorem Chains.insertAfter {e n : ι} (h : Chains null l cells (before ++ (pre ++ e :: post) :: after))
    (hnew : ¬ cells n) (hnull : n ≠ null) (hins : InsertedAfter null e n l l') :
    Chains null l' (fun a => a = n ∨ cells a) (before ++ (pre ++ e :: n :: post) :: after) := by
  have hfresh : n ∉ (before ++ (pre ++ e :: post) :: after).flatten := fun hn => hnew ((h.cover n).mp hn)
  have hperm : (before ++ (pre ++ e :: n :: post) :: after).flatten.Perm
      (n :: (before ++ (pre ++ e :: post) :: after).flatten) := by
    simp only [List.flatten_append, List.flatten_cons, List.append_assoc, List.cons_append]
    have hcell := @List.perm_middle _ n (before.flatten ++ pre ++ [e]) (post ++ after.flatten)
    simpa using hcell
  have hlocal : l.next e ∈ pre ++ e :: post ∨ l.next e = null := by
    rw [h.next_eq]
    cases post <;> simp
  refine ⟨hperm.nodup_iff.mpr (List.nodup_cons.mpr ⟨hfresh, h.nodup⟩), ?_, ?_, ?_, ?_⟩
  · intro a
    rw [hperm.mem_iff, List.mem_cons, h.cover]
  · intro c hc
    rcases List.mem_append.mp hc with hc | hc
    · exact h.nonempty c (by simp [hc])
    · rcases List.mem_cons.mp hc with rfl | hc
      · simp
      · exact h.nonempty c (by simp [hc])
  · have hothers : ∀ c ∈ before ++ after, Segment l' null null c := by
      intro c hc
      have hcell : ∀ a ∈ c, a ∉ pre ++ e :: post := fun a ha => h.notMem_other hc ha
      have hmem : c ∈ before ++ (pre ++ e :: post) :: after := by
        rcases List.mem_append.mp hc with hc | hc <;> simp [hc]
      have hne : ∀ a ∈ c, a ≠ n := fun a ha heq => hfresh (List.mem_flatten.mpr ⟨c, hmem, heq ▸ ha⟩)
      refine (h.segment c hmem).congr (fun a ha => hins.next_other a ?_ (hne a ha))
        (fun a ha => hins.prev_other a (hne a ha) ?_)
      · exact fun heq => hcell a ha (by simp [heq])
      · intro heq
        rcases hlocal with hl | hl
        · exact hcell a ha (heq ▸ hl)
        · exact h.null_free ((h.cover null).mp (List.mem_flatten.mpr ⟨c, hmem, hl ▸ heq ▸ ha⟩))
    intro c hc
    rcases List.mem_append.mp hc with hc | hc
    · exact hothers c (by simp [hc])
    · rcases List.mem_cons.mp hc with rfl | hc
      · exact (h.segment _ (by simp)).insertAfter h.nodup_chain h.notMem_null
          (fun hn => hfresh (List.mem_flatten.mpr ⟨_, by simp, hn⟩)) hins
      · exact hothers c (by simp [hc])
  · rintro (heq | hcell)
    · exact hnull heq.symm
    · exact h.null_free hcell

/-- A cell taken out of its list. -/
theorem Chains.remove {x : ι} (h : Chains null l cells (before ++ (pre ++ x :: post) :: after))
    (hun : Unlinked null x l l') :
    Chains null l' (fun a => a ≠ x ∧ cells a) (before ++ remainder pre post ++ after) := by
  have hperm : (before ++ (pre ++ x :: post) :: after).flatten.Perm
      (x :: (before ++ remainder pre post ++ after).flatten) := by
    simp only [List.flatten_append, List.flatten_cons, flatten_remainder, List.append_assoc]
    have hcell := @List.perm_middle _ x (before.flatten ++ pre) (post ++ after.flatten)
    simpa using hcell
  obtain ⟨hx, hnodup⟩ := List.nodup_cons.mp (hperm.nodup_iff.mp h.nodup)
  have hnext : l.next x ∈ pre ++ x :: post ∨ l.next x = null := by
    rw [h.next_eq]
    cases post <;> simp
  have hprev : l.prev x ∈ pre ++ x :: post ∨ l.prev x = null := by
    rw [h.prev_eq]
    rcases List.eq_nil_or_concat pre with rfl | ⟨ps, p, rfl⟩ <;> simp
  have hothers : ∀ c ∈ before ++ after, c ≠ [] ∧ Segment l' null null c := by
    intro c hc
    have hcell : ∀ a ∈ c, a ∉ pre ++ x :: post := fun a ha => h.notMem_other hc ha
    have hmem : c ∈ before ++ (pre ++ x :: post) :: after := by
      rcases List.mem_append.mp hc with hc | hc <;> simp [hc]
    have hnull : null ∉ c := fun hn => h.null_free ((h.cover null).mp (List.mem_flatten.mpr ⟨c, hmem, hn⟩))
    have hfar : ∀ a ∈ c, ∀ b, b ∈ pre ++ x :: post ∨ b = null → a ≠ b := by
      rintro a ha b (hb | rfl) rfl
      · exact hcell a ha hb
      · exact hnull ha
    refine ⟨h.nonempty c hmem, (h.segment c hmem).congr (fun a ha => hun.next_other a ?_ ?_)
      (fun a ha => hun.prev_other a ?_ ?_)⟩
    · exact hfar a ha x (by simp)
    · exact hfar a ha _ hprev
    · exact hfar a ha x (by simp)
    · exact hfar a ha _ hnext
  have hall : ∀ c ∈ before ++ remainder pre post ++ after, c ≠ [] ∧ Segment l' null null c := by
    intro c hc
    simp only [List.mem_append] at hc
    rcases hc with (hc | hc) | hc
    · exact hothers c (by simp [hc])
    · obtain ⟨rfl, hne⟩ := mem_remainder hc
      exact ⟨hne, (h.segment _ (by simp)).remove h.nodup_chain h.notMem_null hun⟩
    · exact hothers c (by simp [hc])
  refine ⟨hnodup, ?_, fun c hc => (hall c hc).1, fun c hc => (hall c hc).2, fun hcell => h.null_free hcell.2⟩
  intro a
  rw [← h.cover, hperm.mem_iff, List.mem_cons]
  constructor
  · exact fun ha => ⟨fun heq => hx (heq ▸ ha), Or.inr ha⟩
  · exact fun ⟨hne, ha⟩ => ha.resolve_left hne

end Update

/-- The links of the cells are inverse to each other. The lists they form may
be closed to rings. -/
structure Mutual (null : ι) (l : Links ι) (cells : ι → Prop) : Prop where
  prev_next : ∀ a, cells a → l.next a ≠ null → cells (l.next a) ∧ l.prev (l.next a) = a
  next_prev : ∀ a, cells a → l.prev a ≠ null → cells (l.prev a) ∧ l.next (l.prev a) = a
  null_free : ¬ cells null

theorem Mutual.congr {cells' : ι → Prop} (h : Mutual null l cells) (hcells : ∀ a, cells' a ↔ cells a)
    (hnext : ∀ a, cells a → l'.next a = l.next a) (hprev : ∀ a, cells a → l'.prev a = l.prev a) :
    Mutual null l' cells' := by
  refine ⟨fun a ha hne => ?_, fun a ha hne => ?_, fun hcell => h.null_free ((hcells null).mp hcell)⟩
  · rw [hcells] at ha
    rw [hnext a ha] at hne ⊢
    obtain ⟨hb, hback⟩ := h.prev_next a ha hne
    exact ⟨(hcells _).mpr hb, (hprev _ hb).trans hback⟩
  · rw [hcells] at ha
    rw [hprev a ha] at hne ⊢
    obtain ⟨hb, hback⟩ := h.next_prev a ha hne
    exact ⟨(hcells _).mpr hb, (hnext _ hb).trans hback⟩

/-- The cell `c` put before the cell `p`. -/
structure Joined (c p : ι) (l l' : Links ι) : Prop where
  next_c : l'.next c = p
  prev_p : l'.prev p = c
  next_other : ∀ a, a ≠ c → l'.next a = l.next a
  prev_other : ∀ a, a ≠ p → l'.prev a = l.prev a

/-- The end of a list can be put before the start of one. -/
theorem Mutual.join {c p : ι} (h : Mutual null l cells) (hc : cells c) (hp : cells p) (hend : l.next c = null)
    (hstart : l.prev p = null) (hjoin : Joined c p l l') : Mutual null l' cells := by
  refine ⟨fun a ha hne => ?_, fun a ha hne => ?_, h.null_free⟩
  · by_cases hac : a = c
    · rw [hac, hjoin.next_c, hjoin.prev_p]
      exact ⟨hp, rfl⟩
    · rw [hjoin.next_other a hac] at hne ⊢
      obtain ⟨hb, hback⟩ := h.prev_next a ha hne
      refine ⟨hb, ?_⟩
      rw [hjoin.prev_other _ fun heq => ?_, hback]
      rw [heq, hstart] at hback
      exact h.null_free (hback ▸ ha)
  · by_cases hap : a = p
    · rw [hap, hjoin.prev_p, hjoin.next_c]
      exact ⟨hc, rfl⟩
    · rw [hjoin.prev_other a hap] at hne ⊢
      obtain ⟨hb, hback⟩ := h.next_prev a ha hne
      refine ⟨hb, ?_⟩
      rw [hjoin.next_other _ fun heq => ?_, hback]
      rw [heq, hend] at hback
      exact h.null_free (hback ▸ ha)

end linked
