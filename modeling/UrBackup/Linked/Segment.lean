import Mathlib.Data.List.Basic
import Mathlib.Data.List.Nodup

namespace linked

/-- The links of the cells of a store. -/
structure Links (ι : Type) where
  next : ι → ι
  prev : ι → ι

variable {ι : Type} {l l' : Links ι}

/-- Consecutive cells, linked in both directions, between the cells `before`
and `after`. -/
def Segment (l : Links ι) (before after : ι) : List ι → Prop
  | [] => True
  | a :: rest => l.prev a = before ∧ l.next a = rest.headD after ∧ Segment l a after rest

@[simp] theorem segment_nil (before after : ι) : Segment l before after [] :=
  trivial

@[simp] theorem segment_cons {before after a : ι} {rest : List ι} :
    Segment l before after (a :: rest) ↔
      l.prev a = before ∧ l.next a = rest.headD after ∧ Segment l a after rest :=
  Iff.rfl

theorem headD_append (xs ys : List ι) (after : ι) : (xs ++ ys).headD after = xs.headD (ys.headD after) := by
  cases xs <;> rfl

theorem segment_append {xs ys : List ι} {before after : ι} :
    Segment l before after (xs ++ ys) ↔
      Segment l before (ys.headD after) xs ∧ Segment l (xs.getLastD before) after ys := by
  induction xs generalizing before with
  | nil => simp
  | cons a xs ih =>
    rw [List.cons_append, segment_cons, segment_cons, ih, headD_append, List.getLastD_cons]
    simp only [and_assoc]

/-- A segment only depends on the links of its own cells. -/
theorem Segment.congr {before after : ι} {c : List ι} (h : Segment l before after c)
    (hnext : ∀ a ∈ c, l'.next a = l.next a) (hprev : ∀ a ∈ c, l'.prev a = l.prev a) :
    Segment l' before after c := by
  induction c generalizing before with
  | nil => trivial
  | cons a c ih =>
    obtain ⟨hp, hn, hrest⟩ := h
    refine ⟨?_, ?_, ih hrest (fun b hb => hnext b (by simp [hb])) (fun b hb => hprev b (by simp [hb]))⟩
    · rw [hprev a (by simp), hp]
    · rw [hnext a (by simp), hn]

/-- The cell before a segment only shows in the first cell's link. -/
theorem Segment.relinkStart {before before' after : ι} {c : List ι} (h : Segment l before after c)
    (hnext : ∀ a ∈ c, l'.next a = l.next a) (hprev : ∀ a ∈ c.tail, l'.prev a = l.prev a)
    (hfirst : ∀ a ∈ c.head?, l'.prev a = before') : Segment l' before' after c := by
  cases c with
  | nil => trivial
  | cons a c =>
    obtain ⟨_, hn, hrest⟩ := h
    refine ⟨hfirst a rfl, ?_, hrest.congr (fun b hb => hnext b (by simp [hb])) hprev⟩
    rw [hnext a (by simp), hn]

/-- The cell after a segment only shows in the last cell's link. -/
theorem Segment.relinkEnd {before after after' : ι} {c : List ι} (h : Segment l before after c)
    (hnext : ∀ a ∈ c.dropLast, l'.next a = l.next a) (hprev : ∀ a ∈ c, l'.prev a = l.prev a)
    (hlast : ∀ a ∈ c.getLast?, l'.next a = after') : Segment l' before after' c := by
  rcases List.eq_nil_or_concat c with rfl | ⟨c, b, rfl⟩
  · trivial
  · rw [List.concat_eq_append, segment_append] at *
    obtain ⟨hinit, hb, _, _⟩ := h
    refine ⟨hinit.congr ?_ ?_, ?_, ?_, trivial⟩
    · exact fun a ha => hnext a (by simpa using ha)
    · exact fun a ha => hprev a (by simp [ha])
    · rw [hprev b (by simp), hb]
    · simpa using hlast b (by simp)

/-- A new cell linked in behind `e`. -/
structure InsertedAfter (null e n : ι) (l l' : Links ι) : Prop where
  next_e : l'.next e = n
  next_n : l'.next n = l.next e
  prev_n : l'.prev n = e
  prev_next : l.next e ≠ null → l'.prev (l.next e) = n
  next_other : ∀ a, a ≠ e → a ≠ n → l'.next a = l.next a
  prev_other : ∀ a, a ≠ n → a ≠ l.next e → l'.prev a = l.prev a

theorem Segment.insertAfter {null e n : ι} {pre post : List ι} (h : Segment l null null (pre ++ e :: post))
    (hnodup : (pre ++ e :: post).Nodup) (hnull : null ∉ pre ++ e :: post) (hnew : n ∉ pre ++ e :: post)
    (hins : InsertedAfter null e n l l') : Segment l' null null (pre ++ e :: n :: post) := by
  rw [segment_append] at h
  obtain ⟨hpre, hprev, hnext, hpost⟩ := h
  simp only [List.mem_append, List.mem_cons, not_or] at hnull hnew
  obtain ⟨hpreNodup, hrestNodup, hdisj⟩ := List.nodup_append.mp hnodup
  obtain ⟨hepost, hpostNodup⟩ := List.nodup_cons.mp hrestNodup
  -- the cell after `e` lies in `post` or is null
  have hafter : l.next e ∈ post ∨ l.next e = null := by
    rw [hnext]
    cases post <;> simp
  have hne : ∀ a ∈ pre, a ≠ e ∧ a ≠ n ∧ a ≠ l.next e := by
    intro a ha
    refine ⟨hdisj a ha e (by simp), fun heq => hnew.1 (heq ▸ ha), fun heq => ?_⟩
    rcases hafter with hmem | hnil
    · exact hdisj a ha a (by simp [heq, hmem]) rfl
    · exact hnull.1 (hnil ▸ heq ▸ ha)
  rw [segment_append]
  refine ⟨hpre.congr ?_ ?_, ?_, by simp [hins.next_e], hins.prev_n, by rw [hins.next_n, hnext], ?_⟩
  · exact fun a ha => hins.next_other a (hne a ha).1 (hne a ha).2.1
  · exact fun a ha => hins.prev_other a (hne a ha).2.1 (hne a ha).2.2
  · rw [hins.prev_other e (Ne.symm hnew.2.1), hprev]
    rcases hafter with hmem | hnil
    · exact fun heq => hepost (heq ▸ hmem)
    · exact fun heq => hnull.2.1 (hnil ▸ heq.symm)
  · refine hpost.relinkStart ?_ ?_ ?_
    · exact fun a ha => hins.next_other a (fun heq => hepost (heq ▸ ha)) (fun heq => hnew.2.2 (heq ▸ ha))
    · intro a ha
      have hamem : a ∈ post := List.mem_of_mem_tail ha
      refine hins.prev_other a (fun heq => hnew.2.2 (heq ▸ hamem)) ?_
      cases post with
      | nil => simp at ha
      | cons p ps =>
        rw [hnext]
        exact fun heq => (List.nodup_cons.mp hpostNodup).1 (by simpa [heq] using ha)
    · intro a ha
      cases post with
      | nil => simp at ha
      | cons p ps =>
        obtain rfl : p = a := by simpa using ha
        simp only [List.headD_cons] at hnext
        have := hins.prev_next (by rw [hnext]; exact fun heq => hnull.2.2 (by simp [heq]))
        rwa [hnext] at this

/-- A cell taken out by linking its neighbours to each other. -/
structure Unlinked (null x : ι) (l l' : Links ι) : Prop where
  next_prev : l.prev x ≠ null → l'.next (l.prev x) = l.next x
  prev_next : l.next x ≠ null → l'.prev (l.next x) = l.prev x
  next_other : ∀ a, a ≠ x → a ≠ l.prev x → l'.next a = l.next a
  prev_other : ∀ a, a ≠ x → a ≠ l.next x → l'.prev a = l.prev a

theorem Segment.remove {null x : ι} {pre post : List ι} (h : Segment l null null (pre ++ x :: post))
    (hnodup : (pre ++ x :: post).Nodup) (hnull : null ∉ pre ++ x :: post) (hun : Unlinked null x l l') :
    Segment l' null null (pre ++ post) := by
  rw [segment_append] at h
  obtain ⟨hpre, hprev, hnext, hpost⟩ := h
  simp only [List.mem_append, List.mem_cons, not_or] at hnull
  obtain ⟨hpreNodup, hrestNodup, hdisj⟩ := List.nodup_append.mp hnodup
  obtain ⟨hxpost, hpostNodup⟩ := List.nodup_cons.mp hrestNodup
  have hafter : l.next x ∈ post ∨ l.next x = null := by
    rw [hnext]
    cases post <;> simp
  have hbefore : l.prev x ∈ pre ∨ l.prev x = null := by
    rw [hprev]
    rcases List.eq_nil_or_concat pre with rfl | ⟨ps, p, rfl⟩ <;> simp
  have hpreNe : ∀ a ∈ pre, a ≠ x ∧ a ≠ l.next x := by
    intro a ha
    refine ⟨hdisj a ha x (by simp), fun heq => ?_⟩
    rcases hafter with hmem | hnil
    · exact hdisj a ha a (by simp [heq, hmem]) rfl
    · exact hnull.1 (hnil ▸ heq ▸ ha)
  have hpostNe : ∀ a ∈ post, a ≠ x ∧ a ≠ l.prev x := by
    intro a ha
    refine ⟨fun heq => hxpost (heq ▸ ha), fun heq => ?_⟩
    rcases hbefore with hmem | hnil
    · exact hdisj a (heq ▸ hmem) a (by simp [ha]) rfl
    · exact hnull.2.2 (hnil ▸ heq ▸ ha)
  rw [segment_append]
  constructor
  · refine hpre.relinkEnd ?_ (fun a ha => hun.prev_other a (hpreNe a ha).1 (hpreNe a ha).2) ?_
    · intro a ha
      refine hun.next_other a (hpreNe a (List.dropLast_subset _ ha)).1 ?_
      rcases List.eq_nil_or_concat pre with rfl | ⟨ps, p, rfl⟩
      · simp at ha
      · rw [hprev]
        simp only [List.concat_eq_append, List.dropLast_concat, List.getLastD_concat] at ha hpreNodup ⊢
        exact fun heq => (List.nodup_append.mp hpreNodup).2.2 a ha p (by simp) heq
    · intro a ha
      rcases List.eq_nil_or_concat pre with rfl | ⟨ps, p, rfl⟩
      · simp at ha
      · obtain rfl : p = a := by simpa using ha
        simp only [List.concat_eq_append, List.getLastD_concat] at hprev
        have := hun.next_prev (by rw [hprev]; exact fun heq => hnull.1 (by simp [heq]))
        rwa [hprev, hnext] at this
  · refine hpost.relinkStart (fun a ha => hun.next_other a (hpostNe a ha).1 (hpostNe a ha).2) ?_ ?_
    · intro a ha
      refine hun.prev_other a (hpostNe a (List.mem_of_mem_tail ha)).1 ?_
      cases post with
      | nil => simp at ha
      | cons p ps =>
        rw [hnext]
        exact fun heq => (List.nodup_cons.mp hpostNodup).1 (by simpa [heq] using ha)
    · intro a ha
      cases post with
      | nil => simp at ha
      | cons p ps =>
        obtain rfl : p = a := by simpa using ha
        simp only [List.headD_cons] at hnext
        have := hun.prev_next (by rw [hnext]; exact fun heq => hnull.2.2 (by simp [heq]))
        rwa [hnext, hprev] at this

end linked
