import UrBackup.FileEntries.HashThreads

namespace urbackup.fileentries

open stringtools Store

/-- How far a thread is with the links of its new row. -/
inductive Linking where
  | before
  | added (next_entry : Nat)
  | nextSet (next_entry : Nat)
  | after

def Phase.linking : Phase → Linking
  | .start | .found _ | .flagRead _ _ | .indexRead _ _ | .cleared _ => .before
  | .added next_entry => .added next_entry
  | .nextSet next_entry => .nextSet next_entry
  | .prevSet | .finished => .after

/-- The new row can be reached from the existing one. -/
def Linking.Reachable : Linking → Prop
  | .before | .added _ => False
  | .nextSet _ | .after => True

section Invariant

variable {W : Type}

/-- The lists while threads insert rows. A row counts from the moment its
predecessor names it; the link back to it from its successor may be missing
until its thread has set it. -/
structure Inserting (ins : W → Insertion) (start : Store) (chains : List (List Nat)) (st : Store) (linking : W → Linking)
    (l : linked.Links Nat) (cells : Nat → Prop) (chains' : List (List Nat)) : Prop where
  partition : linked.Chains 0 l cells chains'
  cell : ∀ a, cells a ↔ st.Cell a ∧ ∀ w nx, linking w = .added nx → a ≠ (ins w).entryid
  next : ∀ a, cells a → st.links.next a = l.next a
  prev : ∀ a, cells a → (∀ w, linking w ≠ .nextSet a) → st.links.prev a = l.prev a
  pending : ∀ w nx, linking w = .nextSet nx → nx ≠ 0 → cells nx ∧ l.prev nx = (ins w).entryid
  unlinked : ∀ w nx, linking w = .added nx →
    st.links.next (ins w).entryid = nx ∧ st.links.prev (ins w).entryid = (ins w).existing
  fresh : ∀ w, linking w = .before → st.files (ins w).entryid = none
  kept : ∀ a, start.Cell a → st.identityOf a = start.identityOf a
  rows : ∀ w, linking w ≠ .before → st.identityOf (ins w).entryid = some (ins w).identity
  uniform : linked.Uniform st.identityOf chains'
  grown : ∀ c ∈ chains, ∃ c' ∈ chains', c.Sublist c' ∧
    ∀ w, (ins w).existing ∈ c → (linking w).Reachable → (ins w).entryid ∈ c'

variable {ins : W → Insertion} {start st st' : Store} {chains chains' : List (List Nat)} {linking : W → Linking}
  {l : linked.Links Nat} {cells : Nat → Prop}

theorem cell_iff_identityOf (st : Store) (a : Nat) : st.Cell a ↔ st.identityOf a ≠ none := by
  simp [Store.Cell, Store.identityOf]

theorem Inserting.initial (hchains : linked.Chains 0 start.links start.Cell chains)
    (huniform : linked.Uniform start.identityOf chains) (hprepared : Prepared start ins) :
    Inserting ins start chains start (fun _ => .before) start.links start.Cell chains := by
  refine ⟨hchains, fun a => ?_, fun _ _ => rfl, fun _ _ _ => rfl, ?_, ?_, fun w _ => hprepared.unused w,
    fun _ _ => rfl, ?_, huniform, ?_⟩
  · exact ⟨fun ha => ⟨ha, fun _ _ h => by cases h⟩, And.left⟩
  · exact fun _ _ h => by cases h
  · exact fun _ _ h => by cases h
  · exact fun _ h => absurd rfl h
  · exact fun c hc => ⟨c, hc, .refl c, fun _ _ h => h.elim⟩

/-- The existing rows stay in the lists. -/
theorem Inserting.existing_cell (h : Inserting ins start chains st linking l cells chains')
    (hchains : linked.Chains 0 start.links start.Cell chains) (hprepared : Prepared start ins) (w : W) :
    cells (ins w).existing := by
  have hcell : start.Cell (ins w).existing := by
    rw [cell_iff_identityOf, hprepared.found w]
    exact Option.some_ne_none _
  obtain ⟨c, hc, hmem⟩ := List.mem_flatten.mp ((hchains.cover _).mpr hcell)
  obtain ⟨c', hc', hsub, _⟩ := h.grown c hc
  exact (h.partition.cover _).mp (List.mem_flatten.mpr ⟨c', hc', hsub.subset hmem⟩)

theorem Prepared.existing_ne (hprepared : Prepared start ins) (w v : W) : (ins w).existing ≠ (ins v).entryid := by
  intro heq
  have hfound := hprepared.found w
  rw [heq, Store.identityOf, hprepared.unused v] at hfound
  cases hfound

/-- Statements that set flags or the index do not touch the lists. -/
theorem Inserting.inert (h : Inserting ins start chains st linking l cells chains') (hlinks : st'.links = st.links)
    (hids : st'.identityOf = st.identityOf) : Inserting ins start chains st' linking l cells chains' := by
  have hcell : ∀ a, st'.Cell a ↔ st.Cell a := fun a => by rw [cell_iff_identityOf, cell_iff_identityOf, hids]
  refine ⟨h.partition, fun a => ?_, ?_, ?_, h.pending, ?_, fun w hw => ?_, ?_, ?_, ?_, h.grown⟩
  · rw [hcell]
    exact h.cell a
  · rw [hlinks]
    exact h.next
  · rw [hlinks]
    exact h.prev
  · rw [hlinks]
    exact h.unlinked
  · exact not_not.mp fun hne => (hcell _).mp hne (h.fresh w hw)
  · rw [hids]
    exact h.kept
  · rw [hids]
    exact h.rows
  · rw [hids]
    exact h.uniform

end Invariant

section Steps

variable {W : Type} [DecidableEq W] {ins : W → Insertion} {start st st' : Store} {chains chains' : List (List Nat)}
  {linking : W → Linking} {l : linked.Links Nat} {cells : Nat → Prop} {w : W}

theorem update_linking_eq {p q : Linking} {v : W} (h : Function.update linking w p v = q) (hpq : p ≠ q) :
    v ≠ w ∧ linking v = q := by
  have hv : v ≠ w := by
    rintro rfl
    exact hpq (by rw [← h, Function.update_self])
  exact ⟨hv, by rwa [Function.update_of_ne hv] at h⟩

/-- The new row is in the table but in no list yet. -/
theorem Inserting.addRow (h : Inserting ins start chains st linking l cells chains') (hprepared : Prepared start ins)
    (hw : linking w = .before) (nx : Nat) (flag : Bool) :
    Inserting ins start chains (st.addFileEntry (ins w).entryid
      ⟨(ins w).shahash, (ins w).filesize, (ins w).clientid, nx, (ins w).existing, flag⟩)
      (Function.update linking w (.added nx)) l cells chains' := by
  generalize hst' : st.addFileEntry (ins w).entryid _ = st'
  have hother : ∀ a, a ≠ (ins w).entryid → st'.files a = st.files a := by
    intro a ha
    rw [← hst']
    exact Function.update_of_ne ha _ _
  have hself : st'.files (ins w).entryid =
      some ⟨(ins w).shahash, (ins w).filesize, (ins w).clientid, nx, (ins w).existing, flag⟩ := by
    rw [← hst']
    exact Function.update_self _ _ _
  have hnew : ∀ a, cells a → a ≠ (ins w).entryid := by
    rintro a ha rfl
    exact ((h.cell _).mp ha).1 (h.fresh w hw)
  have hdistinct : ∀ v, v ≠ w → (ins v).entryid ≠ (ins w).entryid := fun v hv heq => hv (hprepared.distinct heq)
  refine ⟨h.partition, fun a => ?_, fun a ha => ?_, fun a ha hv => ?_, fun v k hv => ?_, fun v k hv => ?_,
    fun v hv => ?_, fun a ha => ?_, fun v hv => ?_, fun c hc a ha b hb => ?_, fun c hc => ?_⟩
  · rw [h.cell a]
    constructor
    · rintro ⟨hcell, hadded⟩
      have hne : a ≠ (ins w).entryid := hnew a ((h.cell a).mpr ⟨hcell, hadded⟩)
      refine ⟨by rwa [Store.Cell, hother a hne], fun v k hv => ?_⟩
      by_cases hvw : v = w
      · rwa [hvw]
      · rw [Function.update_of_ne hvw] at hv
        exact hadded v k hv
    · rintro ⟨hcell, hadded⟩
      have hne : a ≠ (ins w).entryid := hadded w nx (Function.update_self _ _ _)
      refine ⟨by rwa [Store.Cell, hother a hne] at hcell, fun v k hv => ?_⟩
      have hvw : v ≠ w := by
        rintro rfl
        rw [hw] at hv
        cases hv
      exact hadded v k (by rwa [Function.update_of_ne hvw])
  · rw [← h.next a ha]
    simp only [Store.links, hother a (hnew a ha)]
  · rw [← h.prev a ha fun v hva => ?_]
    · simp only [Store.links, hother a (hnew a ha)]
    · refine hv v ?_
      have hvw : v ≠ w := by
        rintro rfl
        rw [hw] at hva
        cases hva
      rwa [Function.update_of_ne hvw]
  · exact h.pending v k (update_linking_eq hv (by simp)).2
  · by_cases hvw : v = w
    · rw [hvw, Function.update_self, Linking.added.injEq] at hv
      rw [hvw, links_next hself, links_prev hself]
      exact ⟨hv, rfl⟩
    · rw [Function.update_of_ne hvw] at hv
      have := h.unlinked v k hv
      simpa only [Store.links, hother _ (hdistinct v hvw)] using this
  · obtain ⟨hvw, hv⟩ := update_linking_eq hv (by simp)
    rw [hother _ (hdistinct v hvw)]
    exact h.fresh v hv
  · have hne : a ≠ (ins w).entryid := by
      rintro rfl
      exact ha (hprepared.unused w)
    rw [← h.kept a ha]
    simp only [Store.identityOf, hother a hne]
  · by_cases hvw : v = w
    · rw [hvw, Store.identityOf, hself]
      rfl
    · rw [Function.update_of_ne hvw] at hv
      rw [← h.rows v hv]
      simp only [Store.identityOf, hother _ (hdistinct v hvw)]
  · have hmem : ∀ x ∈ c, st'.identityOf x = st.identityOf x := by
      intro x hx
      have hcell := (h.partition.cover x).mp (List.mem_flatten.mpr ⟨c, hc, hx⟩)
      simp only [Store.identityOf, hother x (hnew x hcell)]
    rw [hmem a ha, hmem b hb]
    exact h.uniform c hc a ha b hb
  · obtain ⟨c', hc', hsub, hall⟩ := h.grown c hc
    refine ⟨c', hc', hsub, fun v hv hreach => ?_⟩
    by_cases hvw : v = w
    · rw [hvw, Function.update_self] at hreach
      exact hreach.elim
    · rw [Function.update_of_ne hvw] at hreach
      exact hall v hv hreach

theorem setNextEntry_identityOf (st : Store) (n p : Nat) : (st.setNextEntry n p).identityOf = st.identityOf := by
  funext a
  simp only [Store.identityOf, setNextEntry, update_files, Option.map_map]
  congr 1
  funext r
  by_cases ha : a = p <;> simp [ha, FileEntry.identity]

theorem setPrevEntry_identityOf (st : Store) (n p : Nat) : (st.setPrevEntry n p).identityOf = st.identityOf := by
  funext a
  simp only [Store.identityOf, setPrevEntry, update_files, Option.map_map]
  congr 1
  funext r
  by_cases ha : a = p <;> simp [ha, FileEntry.identity]

theorem setNextEntry_links (st : Store) (n p a : Nat) (hp : st.Cell p) :
    (st.setNextEntry n p).links.next a = (if a = p then n else st.links.next a) ∧
      (st.setNextEntry n p).links.prev a = st.links.prev a := by
  obtain ⟨r, hr⟩ := Option.ne_none_iff_exists'.mp hp
  by_cases ha : a = p
  · simp [Store.links, setNextEntry, update_files, ha, hr]
  · simp [Store.links, setNextEntry, update_files, ha, Function.comp_def]

theorem setPrevEntry_links (st : Store) (n p a : Nat) (hp : st.Cell p) :
    (st.setPrevEntry n p).links.prev a = (if a = p then n else st.links.prev a) ∧
      (st.setPrevEntry n p).links.next a = st.links.next a := by
  obtain ⟨r, hr⟩ := Option.ne_none_iff_exists'.mp hp
  by_cases ha : a = p
  · simp [Store.links, setPrevEntry, update_files, ha, hr]
  · simp [Store.links, setPrevEntry, update_files, ha, Function.comp_def]

/-- The link back to the new row completes its insertion. -/
theorem Inserting.linkPrev (h : Inserting ins start chains st linking l cells chains') {nx : Nat}
    (hw : linking w = .nextSet nx) :
    Inserting ins start chains (if nx ≠ 0 then st.setPrevEntry (ins w).entryid nx else st)
      (Function.update linking w .after) l cells chains' := by
  generalize hst' : (if nx ≠ 0 then st.setPrevEntry (ins w).entryid nx else st) = st'
  have hids : st'.identityOf = st.identityOf := by
    rw [← hst']
    split
    · exact setPrevEntry_identityOf _ _ _
    · rfl
  have hcell : ∀ a, st'.Cell a ↔ st.Cell a := fun a => by rw [cell_iff_identityOf, cell_iff_identityOf, hids]
  have hlinks : ∀ a, st'.links.next a = st.links.next a ∧
      st'.links.prev a = if nx ≠ 0 ∧ a = nx then (ins w).entryid else st.links.prev a := by
    intro a
    rw [← hst']
    by_cases hnx : nx = 0
    · simp [hnx]
    · have hcellnx := ((h.cell nx).mp (h.pending w nx hw hnx).1).1
      obtain ⟨hprev, hnext⟩ := setPrevEntry_links st (ins w).entryid nx a hcellnx
      rw [if_pos hnx, hprev, hnext]
      simp [hnx]
  have hadded : ∀ v k, Function.update linking w .after v = .added k ↔ linking v = .added k := by
    intro v k
    by_cases hvw : v = w
    · simp [hvw, hw]
    · rw [Function.update_of_ne hvw]
  refine ⟨h.partition, fun a => ?_, fun a ha => ?_, fun a ha hv => ?_, fun v k hv => ?_, fun v k hv => ?_,
    fun v hv => ?_, ?_, fun v hv => ?_, ?_, fun c hc => ?_⟩
  · rw [hcell, h.cell]
    simp only [hadded]
  · rw [(hlinks a).1]
    exact h.next a ha
  · rw [(hlinks a).2]
    by_cases hanx : a = nx
    · have hnx : nx ≠ 0 := fun h0 => h.partition.null_free (h0 ▸ hanx ▸ ha)
      rw [if_pos ⟨hnx, hanx⟩, hanx]
      exact (h.pending w nx hw hnx).2.symm
    · rw [if_neg fun hcond => hanx hcond.2]
      refine h.prev a ha fun v hva => ?_
      by_cases hvw : v = w
      · rw [hvw, hw, Linking.nextSet.injEq] at hva
        exact hanx hva.symm
      · exact hv v (by rwa [Function.update_of_ne hvw])
  · exact h.pending v k (update_linking_eq hv (by simp)).2
  · obtain ⟨hnext, hprev⟩ := h.unlinked v k ((hadded v k).mp hv)
    rw [(hlinks _).1, (hlinks _).2]
    refine ⟨hnext, ?_⟩
    rw [if_neg, hprev]
    rintro ⟨hnx, heq⟩
    exact ((h.cell nx).mp (h.pending w nx hw hnx).1).2 v k ((hadded v k).mp hv) heq.symm
  · refine not_not.mp fun hne => (hcell _).mp hne (h.fresh v (update_linking_eq hv (by simp)).2)
  · rw [hids]
    exact h.kept
  · rw [hids]
    refine h.rows v fun hbefore => ?_
    have hvw : v ≠ w := by
      rintro rfl
      rw [hw] at hbefore
      cases hbefore
    exact hv (by rwa [Function.update_of_ne hvw])
  · rw [hids]
    exact h.uniform
  · obtain ⟨c', hc', hsub, hall⟩ := h.grown c hc
    refine ⟨c', hc', hsub, fun v hv hreach => hall v hv ?_⟩
    by_cases hvw : v = w
    · rw [hvw, hw]
      trivial
    · rwa [Function.update_of_ne hvw] at hreach

/-- The links after a cell was put behind another one. -/
def linkBehind (e n nx : Nat) (l : linked.Links Nat) : linked.Links Nat where
  next a := if a = e then n else if a = n then nx else l.next a
  prev a := if a = n then e else if a = nx then n else l.prev a

theorem linkBehind_inserted {e n : Nat} (hen : n ≠ e) (hnx : l.next e ≠ n) :
    linked.InsertedAfter 0 e n l (linkBehind e n (l.next e) l) := by
  refine ⟨?_, ?_, ?_, ?_, ?_, ?_⟩
  · simp [linkBehind]
  · simp [linkBehind, hen]
  · simp [linkBehind]
  · simp [linkBehind, hnx]
  · intro a hae han
    simp [linkBehind, hae, han]
  · intro a han hanx
    simp [linkBehind, han, hanx]

/-- Naming the new row in its predecessor puts it into the list. -/
theorem Inserting.linkNext (h : Inserting ins start chains st linking l cells chains')
    (hchains : linked.Chains 0 start.links start.Cell chains) (hprepared : Prepared start ins) {nx : Nat}
    (hw : linking w = .added nx) (htimely : st.links.next (ins w).existing = nx) :
    ∃ l' cells' chains'', Inserting ins start chains (st.setNextEntry (ins w).entryid (ins w).existing)
      (Function.update linking w (.nextSet nx)) l' cells' chains'' := by
  have hcellE := h.existing_cell hchains hprepared w
  have hcellE' := ((h.cell _).mp hcellE).1
  have hnotN : ¬ cells (ins w).entryid := fun hN => ((h.cell _).mp hN).2 w nx hw rfl
  have hEN : (ins w).existing ≠ (ins w).entryid := hprepared.existing_ne w w
  have hnext : l.next (ins w).existing = nx := by rw [← h.next _ hcellE, htimely]
  have hcellnx : nx ≠ 0 → cells nx ∧ l.prev nx = (ins w).existing := by
    intro hne
    have := h.partition.prev_next hcellE (by rwa [hnext])
    rwa [hnext] at this
  have hnxN : nx ≠ (ins w).entryid := by
    intro heq
    by_cases h0 : nx = 0
    · exact hprepared.nonzero w (heq ▸ h0)
    · exact hnotN (heq ▸ (hcellnx h0).1)
  obtain ⟨hNnext, hNprev⟩ := h.unlinked w nx hw
  have hids := setNextEntry_identityOf st (ins w).entryid (ins w).existing
  have hlinks := fun a => setNextEntry_links st (ins w).entryid (ins w).existing a hcellE'
  generalize st.setNextEntry (ins w).entryid (ins w).existing = st' at hids hlinks
  have hcell : ∀ a, st'.Cell a ↔ st.Cell a := fun a => by rw [cell_iff_identityOf, cell_iff_identityOf, hids]
  have hadded : ∀ v k, Function.update linking w (.nextSet nx) v = .added k ↔ v ≠ w ∧ linking v = .added k := by
    intro v k
    by_cases hvw : v = w
    · simp [hvw]
    · rw [Function.update_of_ne hvw]
      simp [hvw]
  have hdistinct : ∀ v, v ≠ w → (ins v).entryid ≠ (ins w).entryid := fun v hv heq => hv (hprepared.distinct heq)
  have hidN := h.rows w (by rw [hw]; simp)
  have hidE : st.identityOf (ins w).existing = some (ins w).identity := by
    rw [h.kept _ (by rw [cell_iff_identityOf, hprepared.found w]; simp), hprepared.found w]
  obtain ⟨before, pre, post, after, rfl⟩ := h.partition.split hcellE
  have hins := linkBehind_inserted hEN.symm (by rwa [hnext])
  rw [hnext] at hins
  refine ⟨_, _, _, h.partition.insertAfter hnotN (hprepared.nonzero w) hins, fun a => ?_, fun a ha => ?_,
    fun a ha hv => ?_, fun v k hv hk => ?_, fun v k hv => ?_, fun v hv => ?_, ?_, fun v hv => ?_, ?_, fun c hc => ?_⟩
  · rw [hcell, h.cell]
    simp only [hadded]
    constructor
    · rintro (rfl | ⟨ha, hall⟩)
      · refine ⟨by rw [cell_iff_identityOf, hidN]; simp, fun v k hv => (hdistinct v hv.1).symm⟩
      · exact ⟨ha, fun v k hv => hall v k hv.2⟩
    · rintro ⟨ha, hall⟩
      by_cases haN : a = (ins w).entryid
      · exact Or.inl haN
      · refine Or.inr ⟨ha, fun v k hv => ?_⟩
        by_cases hvw : v = w
        · rwa [hvw]
        · exact hall v k ⟨hvw, hv⟩
  · rw [(hlinks a).1]
    obtain rfl | ha := ha
    · simp [linkBehind, hEN.symm, hNnext]
    · have haN : a ≠ (ins w).entryid := fun heq => hnotN (heq ▸ ha)
      simp [linkBehind, haN, h.next a ha]
  · rw [(hlinks a).2]
    obtain rfl | ha := ha
    · simp [linkBehind, hNprev]
    · have haN : a ≠ (ins w).entryid := fun heq => hnotN (heq ▸ ha)
      have hanx : a ≠ nx := fun heq => hv w (by rw [heq, Function.update_self])
      simp only [linkBehind, haN, hanx, if_false]
      refine h.prev a ha fun v hva => ?_
      have hvw : v ≠ w := by
        rintro rfl
        rw [hw] at hva
        cases hva
      exact hv v (by rwa [Function.update_of_ne hvw])
  · by_cases hvw : v = w
    · rw [hvw, Function.update_self, Linking.nextSet.injEq] at hv
      subst hv
      rw [hvw]
      exact ⟨Or.inr (hcellnx hk).1, by simp [linkBehind, hnxN]⟩
    · rw [Function.update_of_ne hvw] at hv
      obtain ⟨hcellk, hprevk⟩ := h.pending v k hv hk
      have hkN : k ≠ (ins w).entryid := fun heq => hnotN (heq ▸ hcellk)
      -- two missing links back to one row would name its two predecessors
      have hknx : k ≠ nx := by
        rintro rfl
        exact hprepared.existing_ne w v ((hcellnx hk).2.symm.trans hprevk)
      exact ⟨Or.inr hcellk, by simp [linkBehind, hkN, hknx, hprevk]⟩
  · obtain ⟨hvw, hv⟩ := (hadded v k).mp hv
    obtain ⟨hvnext, hvprev⟩ := h.unlinked v k hv
    rw [(hlinks _).1, (hlinks _).2, if_neg (hprepared.existing_ne w v).symm]
    exact ⟨hvnext, hvprev⟩
  · exact not_not.mp fun hne => (hcell _).mp hne (h.fresh v (update_linking_eq hv (by simp)).2)
  · rw [hids]
    exact h.kept
  · rw [hids]
    refine h.rows v fun hbefore => ?_
    have hvw : v ≠ w := by
      rintro rfl
      rw [hw] at hbefore
      cases hbefore
    exact hv (by rwa [Function.update_of_ne hvw])
  · rw [hids]
    exact h.uniform.insertAfter (fun _ _ => rfl) (by rw [hidN, hidE])
  · obtain ⟨c', hc', hsub, hall⟩ := h.grown c hc
    by_cases hin : c' = pre ++ (ins w).existing :: post
    · subst hin
      have hmore : (pre ++ (ins w).existing :: post).Sublist (pre ++ (ins w).existing :: (ins w).entryid :: post) :=
        (List.Sublist.refl pre).append (((List.sublist_cons_self _ post)).cons_cons _)
      refine ⟨_, by simp, hsub.trans hmore, fun v hv hreach => ?_⟩
      by_cases hvw : v = w
      · simp [hvw]
      · rw [Function.update_of_ne hvw] at hreach
        exact hmore.subset (hall v hv hreach)
    · have hother : c' ∈ before ++ after := by
        simp only [List.mem_append, List.mem_cons] at hc' ⊢
        exact hc'.imp_right fun h => h.resolve_left hin
      refine ⟨c', ?_, hsub, fun v hv hreach => ?_⟩
      · simp only [List.mem_append, List.mem_cons] at hother ⊢
        exact hother.imp_right Or.inr
      · by_cases hvw : v = w
        · subst hvw
          exact absurd (by simp) (h.partition.notMem_other hother (hsub.subset hv))
        · rw [Function.update_of_ne hvw] at hreach
          exact hall v hv hreach

theorem setPointedTo_links (st : Store) (flag : Bool) (id : Nat) : (st.setPointedTo flag id).links = st.links := by
  simp only [Store.links, setPointedTo, update_files, Option.map_map]
  congr 1 <;> funext a <;> congr 2 <;> funext r <;> by_cases ha : a = id <;> simp [ha]

theorem setPointedTo_identityOf (st : Store) (flag : Bool) (id : Nat) :
    (st.setPointedTo flag id).identityOf = st.identityOf := by
  funext a
  simp only [Store.identityOf, setPointedTo, update_files, Option.map_map]
  congr 1
  funext r
  by_cases ha : a = id <;> simp [ha, FileEntry.identity]

theorem linking_update (phase : W → Phase) (w : W) (p : Phase) :
    (fun v => (Function.update phase w p v).linking) = Function.update (fun v => (phase v).linking) w p.linking := by
  funext v
  by_cases hv : v = w
  · simp [hv]
  · simp [hv]

/-- Every statement of a thread keeps the lists. -/
theorem Inserting.step {t : Threads W}
    (h : Inserting ins start chains t.store (fun v => (t.phase v).linking) l cells chains')
    (hchains : linked.Chains 0 start.links start.Cell chains) (hprepared : Prepared start ins) (w : W)
    (htimely : Timely ins t w) :
    ∃ l' cells' chains'', Inserting ins start chains (t.step ins w).store
      (fun v => ((t.step ins w).phase v).linking) l' cells' chains'' := by
  have hinert : ((ins w).step t.store (t.phase w)).2.linking = (t.phase w).linking →
      ((ins w).step t.store (t.phase w)).1.links = t.store.links →
      ((ins w).step t.store (t.phase w)).1.identityOf = t.store.identityOf →
      ∃ l' cells' chains'', Inserting ins start chains (t.step ins w).store
        (fun v => ((t.step ins w).phase v).linking) l' cells' chains'' := by
    intro hsame hlinks hids
    refine ⟨l, cells, chains', ?_⟩
    simp only [Threads.step]
    rw [linking_update, hsame, Function.update_eq_self]
    exact h.inert hlinks hids
  cases hphase : t.phase w with
  | start =>
    rw [hphase] at hinert
    exact hinert rfl rfl rfl
  | found nx =>
    rw [hphase] at hinert
    simp only [Insertion.step] at hinert
    cases hcopied : (ins w).copied_file <;> exact hinert (by rw [hcopied]; rfl) (by rw [hcopied]; rfl) (by rw [hcopied]; rfl)
  | flagRead nx flag =>
    rw [hphase] at hinert
    cases flag with
    | true => exact hinert rfl (setPointedTo_links _ _ _) (setPointedTo_identityOf _ _ _)
    | false => exact hinert rfl rfl rfl
  | indexRead nx id =>
    rw [hphase] at hinert
    simp only [Insertion.step] at hinert
    by_cases hid : id = 0
    · exact hinert rfl (by rw [if_neg (not_not.mpr hid)]) (by rw [if_neg (not_not.mpr hid)])
    · rw [if_pos hid] at hinert
      exact hinert rfl (setPointedTo_links _ _ _) (setPointedTo_identityOf _ _ _)
  | cleared nx =>
    refine ⟨l, cells, chains', ?_⟩
    simp only [Threads.step, hphase, Insertion.step]
    rw [linking_update]
    exact h.addRow hprepared (by simp only [hphase]; rfl) nx _
  | added nx =>
    have hne : (ins w).existing ≠ 0 := fun h0 =>
      h.partition.null_free (h0 ▸ h.existing_cell hchains hprepared w)
    simp only [Threads.step, hphase, Insertion.step, if_pos hne]
    rw [linking_update]
    exact h.linkNext hchains hprepared (by simp only [hphase]; rfl) (htimely nx hphase)
  | nextSet nx =>
    refine ⟨l, cells, chains', ?_⟩
    simp only [Threads.step, hphase, Insertion.step]
    rw [linking_update]
    exact h.linkPrev (by simp only [hphase]; rfl)
  | prevSet =>
    rw [hphase] at hinert
    simp only [Insertion.step] at hinert
    cases hcopied : (ins w).copied_file <;> exact hinert rfl (by rw [hcopied]; rfl) (by rw [hcopied]; rfl)
  | finished =>
    rw [hphase] at hinert
    exact hinert rfl rfl rfl

theorem Interleaved.inserting {t : Threads W} (hrun : Interleaved Timely ins (Threads.begin start) t)
    (hchains : linked.Chains 0 start.links start.Cell chains) (huniform : linked.Uniform start.identityOf chains)
    (hprepared : Prepared start ins) :
    ∃ l cells chains', Inserting ins start chains t.store (fun v => (t.phase v).linking) l cells chains' := by
  induction hrun with
  | start => exact ⟨_, _, _, .initial hchains huniform hprepared⟩
  | step w _ hcond ih =>
    obtain ⟨l, cells, chains', h⟩ := ih
    exact h.step hchains hprepared w hcond

/-- Hash threads that insert rows without another insertion behind the same row
between their reads and writes leave well formed lists: every old list has
grown by the new rows behind its members and lost nothing. -/
theorem interleaved_lists {t : Threads W} (hrun : Interleaved Timely ins (Threads.begin start) t)
    (hchains : linked.Chains 0 start.links start.Cell chains) (huniform : linked.Uniform start.identityOf chains)
    (hprepared : Prepared start ins) (hfinished : ∀ w, t.phase w = .finished) :
    ∃ chains', linked.Chains 0 t.store.links t.store.Cell chains' ∧ linked.Uniform t.store.identityOf chains' ∧
      ∀ c ∈ chains, ∃ c' ∈ chains', c.Sublist c' ∧ ∀ w, (ins w).existing ∈ c → (ins w).entryid ∈ c' := by
  obtain ⟨l, cells, chains', h⟩ := hrun.inserting hchains huniform hprepared
  have hafter : ∀ w, (t.phase w).linking = .after := fun w => by rw [hfinished w]; rfl
  refine ⟨chains', h.partition.congr (fun a => ?_) h.next (fun a ha => h.prev a ha ?_), h.uniform, fun c hc => ?_⟩
  · rw [h.cell a]
    simp [hafter]
  · simp [hafter]
  · obtain ⟨c', hc', hsub, hall⟩ := h.grown c hc
    exact ⟨c', hc', hsub, fun w hw => hall w hw (by rw [hafter]; trivial)⟩

end Steps

section Two

/-- Two threads of client 1 with the same file. -/
def sameFile (second : Bool) : Insertion :=
  ⟨List.replicate 64 7, 4096, 1, 1, if second then 3 else 2, false⟩

/-- The row they link to. -/
def oneRow : Store :=
  Call.run .empty (.addCopied 1 (List.replicate 64 7) 4096 1 false)

theorem oneRow_chains :
    linked.Chains 0 oneRow.links oneRow.Cell [[1]] ∧ linked.Uniform oneRow.identityOf [[1]] := by
  have hfiles : oneRow.files = Function.update (fun _ => none) 1
      (some ⟨List.replicate 64 7, 4096, 1, 0, 0, true⟩) := rfl
  refine ⟨⟨by decide, fun a => ?_, by simp, ?_, ?_⟩, ?_⟩
  · by_cases ha : a = 1 <;> simp [Store.Cell, hfiles, ha]
  · intro c hc
    obtain rfl := List.mem_singleton.mp hc
    exact ⟨rfl, rfl, trivial⟩
  · simp [Store.Cell, hfiles]
  · intro c hc a ha b hb
    obtain rfl := List.mem_singleton.mp hc
    rw [List.mem_singleton.mp ha, List.mem_singleton.mp hb]

theorem sameFile_prepared : Prepared oneRow sameFile := by
  refine ⟨?_, ?_, ?_, ?_⟩
  · intro w
    cases w <;> rfl
  · intro w
    cases w <;> rfl
  · intro w
    cases w <;> decide
  · intro w v
    cases w <;> cases v <;> simp [sameFile]

/-- The second thread reads after the first one has written. -/
theorem interleaved_lists_sameFile :
    let t := ([false, false, false, false, true, true, false, true, true, true, false, true].foldl
      (Threads.step sameFile) (Threads.begin oneRow))
    ∃ chains', linked.Chains 0 t.store.links t.store.Cell chains' ∧ linked.Uniform t.store.identityOf chains' ∧
      ∀ c ∈ [[1]], ∃ c' ∈ chains', c.Sublist c' ∧
        ∀ w, (sameFile w).existing ∈ c → (sameFile w).entryid ∈ c' := by
  refine interleaved_lists (Interleaved.start.run ?_) oneRow_chains.1 oneRow_chains.2 sameFile_prepared ?_
  · refine ⟨?_, ?_, ?_, ?_, ?_, ?_, ?_, ?_, ?_, ?_, ?_, ?_, trivial⟩
    all_goals
      intro nx hphase
      cases hphase
    all_goals rfl
  · intro w
    cases w <;> rfl

/-- Both threads read before either has written: the row of the first one is
lost from the list. -/
theorem interleaved_lists_lost : ¬ ∀ (ins : Bool → Insertion) (start : Store) (chains : List (List Nat))
    (t : Threads Bool), Interleaved (fun _ _ _ => True) ins (Threads.begin start) t →
      linked.Chains 0 start.links start.Cell chains → linked.Uniform start.identityOf chains →
      Prepared start ins → (∀ w, t.phase w = .finished) →
      ∃ chains', linked.Chains 0 t.store.links t.store.Cell chains' ∧ linked.Uniform t.store.identityOf chains' ∧
        ∀ c ∈ chains, ∃ c' ∈ chains', c.Sublist c' ∧ ∀ w, (ins w).existing ∈ c → (ins w).entryid ∈ c' := by
  intro hall
  let order := [false, true, false, false, false, false, false, true, true, true, true, true]
  have hrun : Interleaved (fun _ _ _ => True) sameFile (Threads.begin oneRow)
      (order.foldl (Threads.step sameFile) (Threads.begin oneRow)) :=
    Interleaved.start.run ⟨trivial, trivial, trivial, trivial, trivial, trivial, trivial, trivial, trivial, trivial,
      trivial, trivial, trivial⟩
  obtain ⟨chains', hchains', _⟩ := hall sameFile oneRow [[1]] _ hrun oneRow_chains.1 oneRow_chains.2
    sameFile_prepared (by intro w; cases w <;> rfl)
  have hcell : (order.foldl (Threads.step sameFile) (Threads.begin oneRow)).store.Cell 2 :=
    Option.isSome_iff_ne_none.mp rfl
  -- row 2 says it comes behind row 1, which names row 3
  exact absurd (hchains'.next_prev hcell (by decide +kernel)).2 (by decide +kernel)

end Two

end urbackup.fileentries
