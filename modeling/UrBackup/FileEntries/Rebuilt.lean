import Mathlib.Data.List.Chain
import UrBackup.FileEntries.CreateIndex
import UrBackup.FileEntries.Lists

namespace urbackup.fileentries

open stringtools Store

/-- The rows are different rows of the table, and none has the key that `create`
starts with. -/
structure Reads (files : Nat → Option FileEntry) (rows : List Row) : Prop where
  nodup : (rows.map Row.id).Nodup
  row : ∀ row ∈ rows, files row.id = some row.entry
  key_ne : ∀ row ∈ rows, row.entry.key ≠ .zero

/-- What holds in the loop of `create` when the rows `done` are done. -/
structure Through (files : Nat → Option FileEntry) (done : List Row) (s : CreateState) : Prop where
  last : s.last = (done.getLast?.map fun p => p.entry.key).getD .zero
  greatest : s.greatest = done.getLast?.map fun p => p.entry.key
  previous : ∀ p ∈ done.getLast?, s.last_prev_entry = p.entry.prev_entry ∧ s.last_id = p.id ∧
    s.store.links.prev p.id = p.entry.prev_entry
  untouched : ∀ a, a ∉ done.map Row.id → s.store.files a = files a
  identity : ∀ a, s.store.identityOf a = (files a).map FileEntry.identity
  ascending : done.Pairwise fun a b => a.entry.key.bytes ≤ b.entry.key.bytes
  indexed : ∀ row ∈ done, ∃ first ∈ done, s.store.index row.entry.key = first.id ∧ first.entry.key = row.entry.key
  only : ∀ k, s.store.index k ≠ 0 → ∃ row ∈ done, row.entry.key = k
  pointed : ∀ row ∈ done, ∀ r, s.store.files row.id = some r →
    r.pointed_to = decide (s.store.index row.entry.key = row.id)

section Loop

variable {files : Nat → Option FileEntry} {done : List Row} {s s' : CreateState} {row : Row}

theorem Through.start (last_prev_entry last_id : Nat) :
    Through files [] (.initial files last_prev_entry last_id) := by
  constructor <;> simp [CreateState.initial, Store.identityOf]

/-- The keys so far are at most the last one, which is the greatest of the index. -/
theorem Through.le_last (h : Through files done s) {d : Row} (hd : d ∈ done) :
    s.greatest = some s.last ∧ d.entry.key.bytes ≤ s.last.bytes := by
  obtain rfl | ⟨ds, p, rfl⟩ := List.eq_nil_or_concat done
  · simp at hd
  · have hlast := h.last
    have hgreatest := h.greatest
    have hasc := h.ascending
    simp only [List.concat_eq_append, List.getLast?_concat, Option.map_some, Option.getD_some] at hlast hgreatest hd hasc
    refine ⟨by rw [hgreatest, hlast], ?_⟩
    rw [hlast]
    rcases List.mem_append.mp hd with hd | hd
    · exact (List.pairwise_append.mp hasc).2.2 d hd p (by simp)
    · rw [List.mem_singleton.mp hd]

theorem RowDone.lt_key (h : Through files done s) (hdone : RowDone s row s') (hkey : row.entry.key ≠ s.last) {d : Row}
    (hd : d ∈ done) : d.entry.key.bytes < row.entry.key.bytes := by
  obtain ⟨hgreatest, hle⟩ := h.le_last hd
  exact lt_of_le_of_lt hle (hdone.greater hkey s.last hgreatest)

theorem RowDone.le_key (h : Through files done s) (hdone : RowDone s row s') {d : Row} (hd : d ∈ done) :
    d.entry.key.bytes ≤ row.entry.key.bytes := by
  by_cases hkey : row.entry.key = s.last
  · rw [hkey]
    exact (h.le_last hd).2
  · exact (hdone.lt_key h hkey hd).le

/-- A row has the key of the one before only if there is one. -/
theorem Through.exists_last (h : Through files done s) (hne : row.entry.key ≠ .zero) (hkey : row.entry.key = s.last) :
    ∃ p ∈ done.getLast?, p.entry.key = row.entry.key := by
  rw [h.last] at hkey
  cases hp : done.getLast? with
  | none => simp [hp, hne] at hkey
  | some p => exact ⟨p, rfl, by simpa [hp] using hkey.symm⟩

theorem RowDone.next_of_not (hdone : RowDone s row s') {a : Nat}
    (hnot : ¬ (a = row.id ∧ row.entry.key = s.last ∧ row.entry.next_entry = 0 ∧
      (s.last_prev_entry = 0 ∨ s.last_prev_entry = row.id))) :
    s'.store.links.next a = s.store.links.next a := by
  simp only [links, hdone.files, Option.map_map, Function.comp_def, rowUpdate, if_neg hnot]

theorem RowDone.prev_of_not (hdone : RowDone s row s') {a : Nat}
    (hnot : ¬ (a = s.last_id ∧ row.entry.key = s.last ∧ s.last_prev_entry = 0)) :
    s'.store.links.prev a = s.store.links.prev a := by
  simp only [links, hdone.files, Option.map_map, Function.comp_def, rowUpdate, if_neg hnot]

theorem RowDone.cell_iff (hdone : RowDone s row s') (a : Nat) : s'.store.Cell a ↔ s.store.Cell a := by
  simp [Store.Cell, hdone.files]

theorem Through.step (h : Through files done s) (hdone : RowDone s row s') (hrow : files row.id = some row.entry)
    (hnew : row.id ∉ done.map Row.id) (hne : row.entry.key ≠ .zero) : Through files (done ++ [row]) s' := by
  have hcurrent : s.store.files row.id = some row.entry := (h.untouched row.id hnew).trans hrow
  have hlastId : row.entry.key = s.last → s.last_id ∈ done.map Row.id := by
    intro hkey
    obtain ⟨p, hp, _⟩ := h.exists_last hne hkey
    rw [(h.previous p hp).2.1]
    exact List.mem_map_of_mem (List.mem_of_getLast? hp)
  have hother : ∀ d ∈ done, d.id ≠ row.id := fun d hd heq => hnew (heq ▸ List.mem_map_of_mem hd)
  refine ⟨by simp [hdone.last], ?_, ?_, ?_, ?_, ?_, ?_, ?_, ?_⟩
  · rw [hdone.greatest]
    split
    · next hkey =>
      obtain ⟨p, hp, hpkey⟩ := h.exists_last hne hkey
      simp [h.greatest, Option.mem_def.mp hp, hpkey]
    · simp
  · intro p hp
    obtain rfl : row = p := by simpa using hp
    refine ⟨hdone.last_prev_entry, hdone.last_id, ?_⟩
    have hnot : ¬ (row.id = s.last_id ∧ row.entry.key = s.last ∧ s.last_prev_entry = 0) :=
      fun hself => hnew (hself.1 ▸ hlastId hself.2.1)
    rw [hdone.prev_of_not hnot, links_prev hcurrent]
  · intro a ha
    simp only [List.map_append, List.map_cons, List.map_nil, List.mem_append, List.mem_singleton, not_or] at ha
    rw [hdone.files, h.untouched a ha.1]
    have hnotLast : ¬ (a = s.last_id ∧ row.entry.key = s.last ∧ s.last_prev_entry = 0) :=
      fun hself => ha.1 (hself.1 ▸ hlastId hself.2.1)
    have hid : rowUpdate s row a = id := by
      funext r
      simp [rowUpdate, ha.2, hnotLast]
    rw [hid, Option.map_id_fun, id]
  · intro a
    rw [← h.identity, Store.identityOf, hdone.files, Option.map_map]
    rfl
  · rw [List.pairwise_append]
    refine ⟨h.ascending, by simp, fun d hd b hb => ?_⟩
    rw [List.mem_singleton.mp hb]
    exact hdone.le_key h hd
  · intro d hd
    rw [hdone.index]
    by_cases hkey : row.entry.key = s.last
    · obtain ⟨p, hp, hpkey⟩ := h.exists_last hne hkey
      have hindexed : ∀ b ∈ done, ∃ first ∈ done ++ [row],
          s.store.index b.entry.key = first.id ∧ first.entry.key = b.entry.key := by
        intro b hb
        obtain ⟨first, hfirst, heq⟩ := h.indexed b hb
        exact ⟨first, by simp [hfirst], heq⟩
      rw [if_pos hkey]
      rcases List.mem_append.mp hd with hd | hd
      · exact hindexed d hd
      · rw [List.mem_singleton.mp hd, ← hpkey]
        exact hindexed p (List.mem_of_getLast? hp)
    · rw [if_neg hkey]
      rcases List.mem_append.mp hd with hd | hd
      · obtain ⟨first, hfirst, heq⟩ := h.indexed d hd
        have hdne : d.entry.key ≠ row.entry.key := fun heq => (hdone.lt_key h hkey hd).ne (congrArg _ heq)
        exact ⟨first, by simp [hfirst], by rwa [Function.update_of_ne hdne]⟩
      · exact ⟨row, by simp, by rw [List.mem_singleton.mp hd, Function.update_self], by rw [List.mem_singleton.mp hd]⟩
  · intro k hk
    by_cases hrowkey : row.entry.key = k
    · exact ⟨row, by simp, hrowkey⟩
    · have hold : s.store.index k ≠ 0 := by
        rw [hdone.index] at hk
        split at hk
        · exact hk
        · rwa [Function.update_of_ne (Ne.symm hrowkey)] at hk
      obtain ⟨d, hd, hdkey⟩ := h.only k hold
      exact ⟨d, by simp [hd], hdkey⟩
  · intro d hd r hr
    rw [hdone.files, Option.map_eq_some_iff] at hr
    obtain ⟨r, hr, rfl⟩ := hr
    rw [hdone.index]
    rcases List.mem_append.mp hd with hd | hd
    · rw [rowUpdate, if_neg (hother d hd), h.pointed d hd r hr]
      by_cases hkey : row.entry.key = s.last
      · rw [if_pos hkey]
      · have hdne : d.entry.key ≠ row.entry.key := fun heq => (hdone.lt_key h hkey hd).ne (congrArg _ heq)
        rw [if_neg hkey, Function.update_of_ne hdne]
    · rw [List.mem_singleton.mp hd, rowUpdate, if_pos rfl]
      by_cases hkey : row.entry.key = s.last
      · -- the index has the first row of the key, which is done
        obtain ⟨p, hp, hpkey⟩ := h.exists_last hne hkey
        obtain ⟨first, hfirst, hindex, _⟩ := h.indexed p (List.mem_of_getLast? hp)
        rw [hpkey] at hindex
        rw [if_pos hkey, hindex]
        simp [hkey, hother first hfirst]
      · simp [hkey]

theorem Reads.fresh {rows rest : List Row} (hreads : Reads files rows) (hrows : rows = done ++ row :: rest) :
    row.id ∉ done.map Row.id := by
  have hnodup := hreads.nodup
  rw [hrows, List.map_append, List.map_cons] at hnodup
  exact fun hin => (List.nodup_append.mp hnodup).2.2 _ hin _ (by simp) rfl

/-- What every row that is read keeps holds when `create` is through. -/
theorem Reads.run {rows : List Row} (hreads : Reads files rows) {P : List Row → CreateState → Prop}
    (hstep : ∀ done row rest s s', rows = done ++ row :: rest → Through files done s → RowDone s row s' →
      P done s → P (done ++ [row]) s') {done rest : List Row} (hrows : rows = done ++ rest)
    (hthrough : Through files done s) (hP : P done s) (hrun : rest.foldlM createRow s = some s') :
    Through files rows s' ∧ P rows s' := by
  induction rest generalizing done s with
  | nil =>
    obtain rfl : s = s' := by simpa using hrun
    rw [List.append_nil] at hrows
    exact hrows ▸ ⟨hthrough, hP⟩
  | cons row rest ih =>
    rw [List.foldlM_cons, Option.bind_eq_bind, Option.bind_eq_some_iff] at hrun
    obtain ⟨s1, hrow, hrun⟩ := hrun
    have hmem : row ∈ rows := by simp [hrows]
    have hnew := hreads.fresh hrows
    have hdone := createRow_done ((hthrough.untouched row.id hnew).trans (hreads.row row hmem)) hrow
    exact ih (by simp [hrows]) (hthrough.step hdone (hreads.row row hmem) hnew (hreads.key_ne row hmem))
      (hstep done row rest s s1 hrows hthrough hdone hP) hrun

theorem Reads.through {rows : List Row} {last_prev_entry last_id : Nat} (hreads : Reads files rows)
    (hrun : rows.foldlM createRow (.initial files last_prev_entry last_id) = some s) : Through files rows s :=
  (hreads.run (P := fun _ _ => True) (fun _ _ _ _ _ _ _ _ _ => trivial) (List.nil_append rows).symm (.start _ _)
    trivial hrun).1

theorem Through.createRow_isSome (h : Through files done s)
    (hasc : ∀ d ∈ done, d.entry.key.bytes ≤ row.entry.key.bytes) : ∃ s', createRow s row = some s' := by
  unfold createRow
  by_cases hkey : row.entry.key = s.last
  · simp only [hkey, if_true]
    exact ⟨_, rfl⟩
  · have hlt : ∀ k ∈ s.greatest, k.bytes < row.entry.key.bytes := by
      intro k hk
      rw [h.greatest] at hk
      obtain ⟨p, hp, rfl⟩ := Option.mem_map.mp hk
      have hlast : s.last = p.entry.key := by rw [h.last, Option.mem_def.mp hp, Option.map_some, Option.getD_some]
      refine lt_of_le_of_ne (hasc p (List.mem_of_getLast? hp)) fun heq => hkey ?_
      rw [hlast, SIndexKey.bytes_injective heq]
    simp only [hkey, if_false, CreateState.put]
    rw [if_pos hlt]
    exact ⟨_, rfl⟩

/-- The loop goes through if the keys come in their order. -/
theorem Reads.create_isSome {rows : List Row} (hreads : Reads files rows)
    (hasc : rows.Pairwise fun a b => a.entry.key.bytes ≤ b.entry.key.bytes) {done rest : List Row}
    (hrows : rows = done ++ rest) (hthrough : Through files done s) : ∃ s', rest.foldlM createRow s = some s' := by
  induction rest generalizing done s with
  | nil => exact ⟨s, rfl⟩
  | cons row rest ih =>
    have hmem : row ∈ rows := by simp [hrows]
    have hle : ∀ d ∈ done, d.entry.key.bytes ≤ row.entry.key.bytes := by
      rw [hrows, List.pairwise_append] at hasc
      exact fun d hd => hasc.2.2 d hd row (by simp)
    obtain ⟨s1, hrow⟩ := hthrough.createRow_isSome hle
    have hnew := hreads.fresh hrows
    have hdone := createRow_done ((hthrough.untouched row.id hnew).trans (hreads.row row hmem)) hrow
    obtain ⟨s', hrun⟩ :=
      ih (by simp [hrows]) (hthrough.step hdone (hreads.row row hmem) hnew (hreads.key_ne row hmem))
    refine ⟨s', ?_⟩
    rw [List.foldlM_cons, hrow]
    exact hrun

/-- The row before has the same key and no previous one: the row becomes it. -/
def Follows (p c : Row) : Prop :=
  p.entry.key = c.entry.key ∧ p.entry.prev_entry = 0

instance (p c : Row) : Decidable (Follows p c) :=
  inferInstanceAs (Decidable (_ ∧ _))

/-- The rows keep their hash, size and client. -/
theorem Through.old_row (h : Through files done s) {a : Nat} {r : FileEntry} (hr : s.store.files a = some r) :
    ∃ e, files a = some e ∧ e.identity = r.identity := by
  have hidentity := h.identity a
  rw [Store.identityOf, hr, Option.map_some] at hidentity
  exact Option.map_eq_some_iff.mp hidentity.symm

theorem Through.new_row (h : Through files done s) {a : Nat} {e : FileEntry} (he : files a = some e) :
    ∃ r, s.store.files a = some r ∧ r.identity = e.identity := by
  have hidentity := h.identity a
  rw [he, Option.map_some] at hidentity
  exact Option.map_eq_some_iff.mp hidentity

theorem Through.cell (h : Through files done s) {a : Nat} {e : FileEntry} (he : files a = some e) : s.store.Cell a := by
  obtain ⟨r, hr, _⟩ := h.new_row he
  simp [Store.Cell, hr]

theorem Through.prev_linked (h : Through files done s) (hdone : RowDone s row s') {p : Row} (hp : p ∈ done.getLast?)
    (hcell : s.store.Cell p.id) (hfollows : Follows p row) : s'.store.links.prev p.id = row.id := by
  obtain ⟨hprev, hid, _⟩ := h.previous p hp
  obtain ⟨r, hr⟩ := Option.ne_none_iff_exists'.mp hcell
  have hlast : s.last = p.entry.key := by rw [h.last, Option.mem_def.mp hp, Option.map_some, Option.getD_some]
  simp [links, hdone.files, hr, rowUpdate, hid, hprev, hlast, hfollows.1, hfollows.2]

/-- The links stay inverse at a row that is at the end of its list, if it
becomes the previous one of the row before. -/
theorem Through.mutual_step (h : Through files done s) (hdone : RowDone s row s')
    (hcells : ∀ d ∈ done, s.store.Cell d.id) (hrow : s.store.files row.id = some row.entry)
    (hne : row.entry.key ≠ .zero) (hend : ∀ p ∈ done.getLast?, Follows p row → row.entry.next_entry = 0)
    (hmutual : linked.Mutual 0 s.store.links s.store.Cell) : linked.Mutual 0 s'.store.links s'.store.Cell := by
  have hcell : s.store.Cell row.id := by simp [Store.Cell, hrow]
  have hcells' : s'.store.Cell = s.store.Cell := funext fun a => propext (hdone.cell_iff a)
  by_cases hjoin : row.entry.key = s.last ∧ s.last_prev_entry = 0
  · obtain ⟨hkey, hprev⟩ := hjoin
    obtain ⟨p, hp, hpkey⟩ := h.exists_last hne hkey
    obtain ⟨hpprev, hpid, hplink⟩ := h.previous p hp
    have hfollows : Follows p row := ⟨hpkey, hpprev ▸ hprev⟩
    have hnext : row.entry.next_entry = 0 := hend p hp hfollows
    have hpcell := hcells p (List.mem_of_getLast? hp)
    rw [hcells']
    refine hmutual.join hcell hpcell ((links_next hrow).trans hnext) (hplink.trans hfollows.2) ⟨?_, ?_, ?_, ?_⟩
    · simp [links, hdone.files, hrow, rowUpdate, hkey, hprev, hnext, hpid]
    · exact h.prev_linked hdone hp hpcell hfollows
    · exact fun a ha => hdone.next_of_not fun hself => ha hself.1
    · exact fun a ha => hdone.prev_of_not fun hself => ha (hself.1.trans hpid)
  · -- a row without a next one is the previous one of no row
    have hnot : ¬ (row.entry.key = s.last ∧ row.entry.next_entry = 0 ∧
        (s.last_prev_entry = 0 ∨ s.last_prev_entry = row.id)) := by
      rintro ⟨hkey, hnext, hprev⟩
      obtain ⟨p, hp, _⟩ := h.exists_last hne hkey
      obtain ⟨hpprev, _, hplink⟩ := h.previous p hp
      have hpcell := hcells p (List.mem_of_getLast? hp)
      have hlink : s.store.links.prev p.id = row.id := by
        rw [hplink, ← hpprev]
        exact hprev.resolve_left fun hzero => hjoin ⟨hkey, hzero⟩
      have hback := (hmutual.next_prev p.id hpcell (by
        rw [hlink]
        exact fun hzero => hmutual.null_free (hzero ▸ hcell))).2
      rw [hlink, links_next hrow, hnext] at hback
      exact hmutual.null_free (hback ▸ hpcell)
    rw [hcells']
    exact hmutual.congr (fun _ => Iff.rfl) (fun a _ => hdone.next_of_not fun hself => hnot hself.2)
      (fun a _ => hdone.prev_of_not fun hself => hjoin hself.2)

end Loop

section Table

variable {st store : Store} {created : Nat → Nat} {q_read : (Nat → Option FileEntry) → List Row}
  {last_prev_entry last_id : Nat}

/-- What the rebuilt index promises: inverse links, and for every row that can
be linked an index entry of its key, for the only row of the key that is
pointed to. -/
structure Rebuilt (store : Store) : Prop where
  inverse : linked.Mutual 0 store.links store.Cell
  indexed : ∀ id r, store.files id = some r → 16 ≤ r.shahash.length → link_file_min_size ≤ r.filesize →
    store.index r.key ≠ 0 ∧ ∃ e, store.files (store.index r.key) = some e ∧ e.key = r.key
  pointed : ∀ id r, store.files id = some r → 16 ≤ r.shahash.length → link_file_min_size ≤ r.filesize →
    (r.pointed_to ↔ store.index r.key = id)

/-- When a table can be rebuilt from the rows that are read of it. -/
structure Rebuildable (files : Nat → Option FileEntry) (rows : List Row) : Prop where
  above : ∀ id r, files id = some r → 16 ≤ r.shahash.length → r.filesize ≠ link_file_min_size
  ascending : rows.Pairwise fun a b => a.entry.key.bytes ≤ b.entry.key.bytes
  ends : rows.IsChain fun p c => Follows p c → c.entry.next_entry = 0

/-- The reset leaves the rows that are read alone. -/
theorem resetPointers_eq_some {files : Nat → Option FileEntry} {id : Nat} {r : FileEntry}
    (hlength : 16 ≤ r.shahash.length) (hsize : r.filesize > link_file_min_size) :
    resetPointers files id = some r ↔ files id = some r := by
  have hreset : ¬ (r.shahash.length < 16 ∨ r.filesize < link_file_min_size) := by omega
  unfold resetPointers
  rw [Option.map_eq_some_iff]
  constructor
  · rintro ⟨r0, hr0, hr⟩
    split at hr
    · next hsmall =>
      rw [← hr] at hreset
      exact absurd hsmall hreset
    · rw [hr0, hr]
  · exact fun hr => ⟨r, hr, if_neg hreset⟩

theorem Selects.reads {files : Nat → Option FileEntry} {rows : List Row}
    (h : Selects (resetPointers files) created rows) : Reads files rows := by
  refine ⟨h.nodup, fun row hrow => ?_, fun row hrow heq => ?_⟩
  · obtain ⟨hr, hlength, hsize⟩ := (h.mem_iff row).mp hrow
    exact (resetPointers_eq_some hlength hsize).mp hr
  · obtain ⟨_, _, hsize⟩ := (h.mem_iff row).mp hrow
    have : row.entry.filesize = 0 := congrArg SIndexKey.filesize heq
    omega

/-- The start of a list in the order of lists comes first, or they agree. -/
theorem lex_take {xs ys : List Nat} (h : List.Lex (· < ·) xs ys) (n : Nat) :
    xs.take n = ys.take n ∨ List.Lex (· < ·) (xs.take n) (ys.take n) := by
  induction h generalizing n with
  | nil => cases n <;> simp
  | cons _ ih =>
    cases n with
    | zero => simp
    | succ n => exact (ih n).imp (fun heq => by simp [heq]) fun hlt => .cons hlt
  | rel hlt =>
    cases n with
    | zero => simp
    | succ n => exact Or.inr (.rel hlt)

theorem key_le_of_orderBy_le {a b : Row} (hle : orderBy created a ≤ orderBy created b)
    (hsame : a.entry.shahash.take bytes_in_index = b.entry.shahash.take bytes_in_index →
      a.entry.shahash = b.entry.shahash) : a.entry.key.bytes ≤ b.entry.key.bytes := by
  change fileindex.SIndexKey.order _ ≤ fileindex.SIndexKey.order _
  unfold orderBy at hle
  rw [Prod.Lex.toLex_le_toLex] at hle
  unfold fileindex.SIndexKey.order
  rw [Prod.Lex.toLex_le_toLex]
  simp only [FileEntry.key, indexKey, SIndexKey.bytes, List.map_take]
  obtain hlt | ⟨heq, hle⟩ := hle
  · obtain htake | htake := lex_take hlt bytes_in_index
    · rw [← List.map_take, ← List.map_take] at htake
      have hhash := hsame (List.map_injective_iff.mpr (fun _ _ h => UInt8.toNat_inj.mp h) htake)
      rw [hhash] at hlt
      exact absurd hlt (lt_irrefl _)
    · exact Or.inl htake
  · refine Or.inr ⟨congrArg (List.take bytes_in_index) heq, ?_⟩
    dsimp only at hle
    rw [Prod.Lex.toLex_le_toLex, Prod.Lex.toLex_le_toLex] at hle
    rw [Prod.Lex.toLex_le_toLex]
    exact hle.imp_right fun h => ⟨h.1, h.2.elim le_of_lt fun h => h.1.le⟩

/-- The keys come in their order if no two hashes share the bytes in the keys. -/
theorem Selects.ascending {files : Nat → Option FileEntry} {rows : List Row} (h : Selects files created rows)
    (hsame : ∀ a ∈ rows, ∀ b ∈ rows, a.entry.shahash.take bytes_in_index = b.entry.shahash.take bytes_in_index →
      a.entry.shahash = b.entry.shahash) : rows.Pairwise fun a b => a.entry.key.bytes ≤ b.entry.key.bytes :=
  h.sorted.imp_of_mem fun ha hb hle => key_le_of_orderBy_le hle (hsame _ ha _ hb)

/-- Every row that can be linked is read, if none has the boundary size. -/
theorem Selects.mem {rows : List Row} (h : Selects (resetPointers st.files) created rows)
    (habove : ∀ id r, st.files id = some r → 16 ≤ r.shahash.length → r.filesize ≠ link_file_min_size) {id : Nat}
    {r : FileEntry} (hr : st.files id = some r) (hlength : 16 ≤ r.shahash.length)
    (hsize : link_file_min_size ≤ r.filesize) : ⟨id, r⟩ ∈ rows := by
  have hgt : r.filesize > link_file_min_size := lt_of_le_of_ne hsize (Ne.symm (habove id r hr hlength))
  exact (h.mem_iff ⟨id, r⟩).mpr ⟨(resetPointers_eq_some hlength hgt).mpr hr, hlength, hgt⟩

/-- The rows that are read keep the links inverse, if they can be rebuilt. -/
theorem Reads.mutual {rows : List Row} {s : CreateState} (hreads : Reads st.files rows)
    (hends : rows.IsChain fun p c => Follows p c → c.entry.next_entry = 0)
    (hmutual : linked.Mutual 0 st.links st.Cell)
    (hrun : rows.foldlM createRow (.initial st.files last_prev_entry last_id) = some s) :
    linked.Mutual 0 s.store.links s.store.Cell := by
  refine (hreads.run (P := fun _ s => linked.Mutual 0 s.store.links s.store.Cell) ?_ rfl (.start _ _) ?_ hrun).2
  · intro done row rest s s' hrows hthrough hdone hinv
    have hmem : row ∈ rows := by simp [hrows]
    have hrow := (hthrough.untouched row.id (hreads.fresh hrows)).trans (hreads.row row hmem)
    refine hthrough.mutual_step hdone (fun d hd => ?_) hrow (hreads.key_ne row hmem) (fun p hp => ?_) hinv
    · exact hthrough.cell (hreads.row d (by simp [hrows, hd]))
    · obtain ⟨ds, rfl⟩ := List.getLast?_eq_some_iff.mp (Option.mem_def.mp hp)
      exact List.isChain_iff_forall_rel_of_append_cons_cons.mp hends (by simpa using hrows)
  · exact hmutual

/-- The links between two rows stay when later rows are read. -/
theorem Reads.keeps_links {rows done rest : List Row} {p c : Row} {s s' : CreateState} (hreads : Reads st.files rows)
    (hrows : rows = done ++ rest) (hthrough : Through st.files done s) (hp : p ∈ done) (hc : c ∈ done)
    (hlast : s.last_id ≠ p.id) (hrun : rest.foldlM createRow s = some s') :
    s'.store.links.prev p.id = s.store.links.prev p.id ∧ s'.store.links.next c.id = s.store.links.next c.id := by
  refine (hreads.run (P := fun done s1 => p ∈ done ∧ c ∈ done ∧ s1.last_id ≠ p.id ∧
    s1.store.links.prev p.id = s.store.links.prev p.id ∧ s1.store.links.next c.id = s.store.links.next c.id)
    ?_ hrows hthrough ⟨hp, hc, hlast, rfl, rfl⟩ hrun).2.2.2.2
  rintro done row rest s1 s2 hrows hthrough hdone ⟨hp, hc, hlast, hprev, hnext⟩
  have hfresh := hreads.fresh hrows
  have hne : ∀ d ∈ done, row.id ≠ d.id := fun d hd heq => hfresh (heq ▸ List.mem_map_of_mem hd)
  refine ⟨by simp [hp], by simp [hc], ?_, ?_, ?_⟩
  · rw [hdone.last_id]
    exact hne p hp
  · rw [hdone.prev_of_not fun hself => hlast hself.1.symm, hprev]
  · rw [hdone.next_of_not fun hself => hne c hc hself.1.symm, hnext]

/-- A row that becomes the previous one of the row before keeps its own next
row. -/
theorem Reads.one_sided {pre post : List Row} {p c : Row} {s : CreateState}
    (hreads : Reads st.files (pre ++ p :: c :: post)) (hfollows : Follows p c) (hnext : c.entry.next_entry ≠ 0)
    (hrun : (pre ++ p :: c :: post).foldlM createRow (.initial st.files last_prev_entry last_id) = some s) :
    s.store.links.prev p.id = c.id ∧ s.store.links.next c.id = c.entry.next_entry := by
  have hrows : pre ++ p :: c :: post = (pre ++ [p]) ++ c :: post := by simp
  have hstart : Reads st.files (pre ++ [p]) := by
    refine ⟨?_, fun row hrow => hreads.row row ?_, fun row hrow => hreads.key_ne row ?_⟩
    · have hnodup := hreads.nodup
      rw [hrows, List.map_append] at hnodup
      exact hnodup.of_append_left
    all_goals
      rw [hrows]
      exact List.mem_append_left _ hrow
  rw [hrows, List.foldlM_append, Option.bind_eq_bind, Option.bind_eq_some_iff] at hrun
  obtain ⟨s1, hrun1, hrun⟩ := hrun
  rw [List.foldlM_cons, Option.bind_eq_bind, Option.bind_eq_some_iff] at hrun
  obtain ⟨s2, hrow, hrun⟩ := hrun
  have hthrough1 := hstart.through hrun1
  have hfresh := hreads.fresh hrows
  have hc : st.files c.id = some c.entry := hreads.row c (by simp)
  have hdone := createRow_done ((hthrough1.untouched c.id hfresh).trans hc) hrow
  have hthrough2 := hthrough1.step hdone hc hfresh (hreads.key_ne c (by simp))
  have hpc : c.id ≠ p.id := fun heq => hfresh (by simp [heq])
  obtain ⟨hprev, hnext'⟩ := hreads.keeps_links (p := p) (c := c) (by simp) hthrough2 (by simp) (by simp)
    (by rw [hdone.last_id]; exact hpc) hrun
  rw [hprev, hnext']
  constructor
  · exact hthrough1.prev_linked hdone (by simp) (hthrough1.cell (hreads.row p (by simp))) hfollows
  · rw [hdone.next_of_not fun hself => hnext hself.2.2.1, links_next ((hthrough1.untouched c.id hfresh).trans hc)]

/-- With inverse links, the rows that were read give what the index promises. -/
theorem Through.rebuilt {rows : List Row} {s : CreateState} (h : Through st.files rows s)
    (hselects : Selects (resetPointers st.files) created rows)
    (habove : ∀ id r, st.files id = some r → 16 ≤ r.shahash.length → r.filesize ≠ link_file_min_size)
    (hinverse : linked.Mutual 0 s.store.links s.store.Cell) : Rebuilt s.store := by
  have hread : ∀ id r, s.store.files id = some r → 16 ≤ r.shahash.length → link_file_min_size ≤ r.filesize →
      ∃ e, ⟨id, e⟩ ∈ rows ∧ e.key = r.key := by
    intro id r hr hlength hsize
    obtain ⟨e, he, hidentity⟩ := h.old_row hr
    have hsame := hidentity
    simp only [FileEntry.identity, Prod.mk.injEq] at hsame
    exact ⟨e, hselects.mem habove he (hsame.1 ▸ hlength) (hsame.2.1 ▸ hsize), FileEntry.key_of_identity hidentity⟩
  refine ⟨hinverse, fun id r hr hlength hsize => ?_, fun id r hr hlength hsize => ?_⟩
  · obtain ⟨e, hmem, hkey⟩ := hread id r hr hlength hsize
    obtain ⟨first, hfirst, hindex, hfkey⟩ := h.indexed ⟨id, e⟩ hmem
    obtain ⟨f, hf, hfid⟩ := h.new_row (hselects.reads.row first hfirst)
    rw [hkey] at hindex hfkey
    rw [hindex]
    refine ⟨fun hzero => hinverse.null_free ?_, f, hf, (FileEntry.key_of_identity hfid).trans hfkey⟩
    rw [← hzero]
    simp [Store.Cell, hf]
  · obtain ⟨e, hmem, hkey⟩ := hread id r hr hlength hsize
    rw [h.pointed ⟨id, e⟩ hmem r hr, hkey, decide_eq_true_iff]

theorem create_files_index_common_eq {store : Store} :
    create_files_index_common q_read last_prev_entry last_id st = some store ↔
      ∃ s, (q_read (resetPointers st.files)).foldlM createRow (.initial st.files last_prev_entry last_id) = some s ∧
        s.store = store :=
  Option.map_eq_some_iff

/-- The index is rebuilt as it should be exactly for the tables that can be
rebuilt. -/
theorem create_files_index_common_iff (hinverse : linked.Mutual 0 st.links st.Cell)
    (hselects : Selects (resetPointers st.files) created (q_read (resetPointers st.files))) :
    (∃ store, create_files_index_common q_read last_prev_entry last_id st = some store ∧ Rebuilt store) ↔
      Rebuildable st.files (q_read (resetPointers st.files)) := by
  simp only [create_files_index_common_eq]
  generalize q_read (resetPointers st.files) = rows at hselects ⊢
  have hreads := hselects.reads
  constructor
  · rintro ⟨_, ⟨s, hrun, rfl⟩, hrebuilt⟩
    have hthrough := hreads.through hrun
    refine ⟨fun id r hr hlength hboundary => ?_, hthrough.ascending, ?_⟩
    · -- a row of the boundary size is not read, and its key is not in the index
      obtain ⟨r', hr', hidentity⟩ := hthrough.new_row hr
      have hsame := hidentity
      simp only [FileEntry.identity, Prod.mk.injEq] at hsame
      obtain ⟨hindex, _⟩ := hrebuilt.indexed id r' hr' (hsame.1 ▸ hlength) (by rw [hsame.2.1, hboundary])
      obtain ⟨row, hrow, hkey⟩ := hthrough.only r'.key hindex
      have hsize : row.entry.filesize = r'.filesize := congrArg SIndexKey.filesize hkey
      have := ((hselects.mem_iff row).mp hrow).2.2
      omega
    · refine List.isChain_iff_forall_rel_of_append_cons_cons.mpr fun {p c pre post} hrows hfollows => ?_
      rw [hrows] at hreads hrun
      by_contra hnext
      obtain ⟨hprev, hkeeps⟩ := hreads.one_sided hfollows hnext hrun
      have hp := hreads.row p (by simp)
      have hc := hreads.row c (by simp)
      have hcid : c.id ≠ 0 := by
        intro hzero
        rw [hzero] at hc
        exact hinverse.null_free (by simp [Store.Cell, hc])
      -- the new links are inverse, so the old next row of `c` is `p`
      have hback := (hrebuilt.inverse.next_prev p.id ((hreads.through hrun).cell hp) (by rwa [hprev])).2
      rw [hprev, hkeeps] at hback
      have hold := (hinverse.prev_next c.id (by simp [Store.Cell, hc]) (by rwa [links_next hc])).2
      rw [links_next hc, hback, links_prev hp, hfollows.2] at hold
      exact hcid hold.symm
  · intro hable
    obtain ⟨s, hrun⟩ := hreads.create_isSome hable.ascending (List.nil_append rows).symm
      (Through.start last_prev_entry last_id)
    exact ⟨_, ⟨s, hrun, rfl⟩, (hreads.through hrun).rebuilt hselects hable.above
      (hreads.mutual hable.ends hinverse hrun)⟩

/-- A table without links. -/
theorem mutual_of_unlinked (hzero : st.files 0 = none)
    (hlinks : ∀ id r, st.files id = some r → r.next_entry = 0 ∧ r.prev_entry = 0) :
    linked.Mutual 0 st.links st.Cell := by
  refine ⟨fun a ha hne => ?_, fun a ha hne => ?_, fun h => h hzero⟩
  all_goals
    obtain ⟨r, hr⟩ := Option.ne_none_iff_exists'.mp ha
    obtain ⟨hnext, hprev⟩ := hlinks a r hr
  · exact absurd ((links_next hr).trans hnext) hne
  · exact absurd ((links_prev hr).trans hprev) hne

end Table

section Examples

/-- Two rows of a key, of which the older one is pointed to. -/
def newer : Row :=
  ⟨2, ⟨List.replicate 16 1, 4096, 1, 0, 0, false⟩⟩

def older : Row :=
  ⟨1, ⟨List.replicate 16 1, 4096, 1, 0, 0, true⟩⟩

def unlinked : Store :=
  (Store.empty.addFileEntry 1 older.entry).addFileEntry 2 newer.entry

theorem unlinked_files (id : Nat) :
    unlinked.files id = if id = 2 then some newer.entry else if id = 1 then some older.entry else none := by
  simp [unlinked, Store.addFileEntry, Store.empty, Function.update_apply]

theorem unlinked_selects : Selects (resetPointers unlinked.files) id [newer, older] := by
  refine ⟨by decide, fun row => ?_, by simp [newer, older, orderBy, Prod.Lex.toLex_le_toLex]⟩
  have hreset : resetPointers unlinked.files row.id = unlinked.files row.id := by
    unfold resetPointers
    rw [unlinked_files]
    split
    · rfl
    · split <;> rfl
  rw [hreset, unlinked_files, List.mem_cons, List.mem_singleton]
  constructor
  · rintro (rfl | rfl)
    · exact ⟨rfl, by decide, by decide⟩
    · exact ⟨rfl, by decide, by decide⟩
  · rintro ⟨hrow, _⟩
    obtain ⟨id, e⟩ := row
    split at hrow
    · next hid =>
      obtain rfl : id = 2 := hid
      obtain rfl : newer.entry = e := Option.some.inj hrow
      exact Or.inl rfl
    · split at hrow
      · next hid =>
        obtain rfl : id = 1 := hid
        obtain rfl : older.entry = e := Option.some.inj hrow
        exact Or.inr rfl
      · cases hrow

theorem unlinked_rebuilt : ∃ store, create_files_index_common (fun _ => [newer, older]) 0 0 unlinked = some store ∧
    Rebuilt store := by
  have hrow : ∀ id r, unlinked.files id = some r → r = newer.entry ∨ r = older.entry := by
    intro id r hr
    rw [unlinked_files] at hr
    split at hr
    · exact Or.inl (Option.some.inj hr).symm
    · split at hr
      · exact Or.inr (Option.some.inj hr).symm
      · cases hr
  refine (create_files_index_common_iff (mutual_of_unlinked rfl fun id r hr => ?_) unlinked_selects).mpr ⟨?_, ?_, ?_⟩
  · rcases hrow id r hr with rfl | rfl <;> exact ⟨rfl, rfl⟩
  · intro id r hr _
    rcases hrow id r hr with rfl | rfl <;> decide
  · exact unlinked_selects.ascending (by decide)
  · simp [newer, older]

/-- A file of exactly the minimum size, as `addFileSQL` adds and indexes it. -/
def boundary : Store :=
  addFileSQL .empty 1 (List.replicate 16 1) link_file_min_size 1 0 0 0 false

theorem boundary_files (id : Nat) : boundary.files id =
    if id = 1 then some ⟨List.replicate 16 1, link_file_min_size, 1, 0, 0, true⟩ else none := by
  simp [boundary, addFileSQL, addPlace, newForClient, placeNewForClient, addFileEntryExternal, addFileEntry,
    put_delayed, Store.empty, Function.update_apply]

theorem not_rebuilt_boundary : linked.Mutual 0 boundary.links boundary.Cell ∧
    boundary.index (indexKey (List.replicate 16 1) link_file_min_size 1) = 1 ∧
    Selects (resetPointers boundary.files) id [] ∧
    ¬ ∃ store, create_files_index_common (fun _ => []) 0 0 boundary = some store ∧ Rebuilt store := by
  refine ⟨mutual_of_unlinked rfl fun id r hr => ?_, by decide, ⟨by simp, fun row => ?_, by simp⟩, ?_⟩
  · rw [boundary_files] at hr
    split at hr
    · rw [← Option.some.inj hr]
      exact ⟨rfl, rfl⟩
    · cases hr
  · suffices ∀ r, resetPointers boundary.files row.id = some r → r.filesize = link_file_min_size by
      simp only [List.not_mem_nil, false_iff]
      rintro ⟨hrow, _, hsize⟩
      exact absurd (this _ hrow) (by omega)
    intro r hr
    unfold resetPointers at hr
    rw [boundary_files] at hr
    split at hr
    · rw [← Option.some.inj hr]
      rfl
    · cases hr
  · rintro ⟨store, hcreate, hrebuilt⟩
    obtain rfl := Option.some.inj hcreate
    exact (hrebuilt.indexed 1 _ (boundary_files 1) (by decide) (by decide)).1 rfl

end Examples

end urbackup.fileentries
