import UrBackup.FileIndex.LMDBFileIndex

namespace urbackup.lmdbfileindex

open maps fileindex

/-- What an item of the log does to a map when it is replayed. -/
def STransactionLogItem.apply (m : Cache) (item : STransactionLogItem) : Cache :=
  if item.value ≠ 0 then m.insert item.key item.value else m.erase item.key

/-- The value of a put is not the zero of a deleted key. -/
def Op.Stores : Op → Prop
  | .put _ value _ => value ≠ 0
  | .del _ => True

namespace LMDBFileIndex

variable {fails : Nat → Option Failure} {s s' : LMDBFileIndex} {key : SIndexKey} {value : Int} {flags : Nat}
  {log : Bool} {fuel : Nat}

section Calls

theorem mdb_put_success (h : s.mdb_put fails key value flags = (.success, s')) :
    ∃ m, s.txn = some m ∧ s' = { s with txn := some (m.insert key value), calls := s.calls + 1 } := by
  unfold mdb_put at h
  split at h
  · simp at h
  · simp at h
  · next m _ htxn =>
    split at h
    · simp at h
    · exact ⟨m, htxn, by simpa using h.symm⟩

theorem mdb_put_failed {failure : Failure} (h : s.mdb_put fails key value flags = (.failed failure, s')) :
    s' = { s with calls := s.calls + 1 } := by
  unfold mdb_put at h
  split at h
  · exact (Prod.mk.inj h).2.symm
  · exact (Prod.mk.inj h).2.symm
  · split at h
    · exact (Prod.mk.inj h).2.symm
    · simp at h

/-- A key that is not found is deleted as well. -/
theorem mdb_del_success {rc : Rc} (h : s.mdb_del fails key = (rc, s')) (hrc : ∀ failure, rc ≠ .failed failure) :
    ∃ m, s.txn = some m ∧ s' = { s with txn := some (m.erase key), calls := s.calls + 1 } := by
  unfold mdb_del at h
  split at h
  · exact absurd (Prod.mk.inj h).1.symm (hrc _)
  · exact absurd (Prod.mk.inj h).1.symm (hrc _)
  · next m _ htxn =>
    refine ⟨m, htxn, ?_⟩
    split at h
    · next hfind => rw [SortedMap.erase_of_find_none hfind, ← htxn, (Prod.mk.inj h).2]
    · exact (Prod.mk.inj h).2.symm

theorem mdb_del_failed {failure : Failure} (h : s.mdb_del fails key = (.failed failure, s')) :
    s' = { s with calls := s.calls + 1 } := by
  unfold mdb_del at h
  split at h
  · exact (Prod.mk.inj h).2.symm
  · exact (Prod.mk.inj h).2.symm
  · split at h
    · simp at h
    · simp at h

theorem mdb_txn_commit_success (h : s.mdb_txn_commit fails = (.success, s')) :
    ∃ m, s.txn = some m ∧ s' = { s with db := m, txn := none, calls := s.calls + 1 } := by
  unfold mdb_txn_commit at h
  split at h
  · simp at h
  · simp at h
  · next m _ htxn => exact ⟨m, htxn, by simpa using h.symm⟩

theorem mdb_txn_commit_failed {failure : Failure} (h : s.mdb_txn_commit fails = (.failed failure, s')) :
    s'.db = s.db ∧ s'.transaction_log = s.transaction_log ∧ s'.has_error = s.has_error := by
  unfold mdb_txn_commit at h
  split at h
  · obtain ⟨_, rfl⟩ := Prod.mk.inj h
    exact ⟨rfl, rfl, rfl⟩
  · obtain ⟨_, rfl⟩ := Prod.mk.inj h
    exact ⟨rfl, rfl, rfl⟩
  · simp at h

end Calls

/-- The transaction that is open has the map `m`, and the log more items. -/
structure Has (s s' : LMDBFileIndex) (items : List STransactionLogItem) (m : Cache) : Prop where
  no_error : s.has_error = false
  db : s'.db = s.db
  transaction_log : s'.transaction_log = s.transaction_log ++ items
  txn : s'.txn = some m

theorem Has.trans {s t u : LMDBFileIndex} {items items' : List STransactionLogItem} {m m' : Cache}
    (hst : Has s t items m) (htu : Has t u items' m') : Has s u (items ++ items') m' :=
  ⟨hst.no_error, htu.db.trans hst.db, by rw [htu.transaction_log, hst.transaction_log, List.append_assoc], htu.txn⟩

section Replay

variable {m : Cache}

theorem start_transaction_has (h : (s.start_transaction fails).has_error = false) :
    Has s (s.start_transaction fails) [] s.db := by
  unfold start_transaction at h ⊢
  split at h
  · simp at h
  · exact ⟨h, rfl, (List.append_nil _).symm, rfl⟩

theorem put_once_has (h : (s.put_once fails key value flags).has_error = false) :
    ∃ m, s.txn = some m ∧ Has s (s.put_once fails key value flags) [] (m.insert key value) := by
  unfold put_once at h ⊢
  split at h
  · next hput =>
    obtain ⟨m, htxn, rfl⟩ := mdb_put_success hput
    exact ⟨m, htxn, h, rfl, (List.append_nil _).symm, rfl⟩
  · simp at h

theorem del_once_has (h : (s.del_once fails key log).has_error = false) :
    ∃ m, s.txn = some m ∧ Has s (s.del_once fails key log) (if log then [⟨key, 0, 0⟩] else []) (m.erase key) := by
  unfold del_once at h ⊢
  split at h
  · cases log <;> simp [logDel] at h
  · next hfailed hdel =>
    obtain ⟨m, htxn, rfl⟩ := mdb_del_success hdel fun failure hrc => hfailed failure hrc
    cases log with
    | false => exact ⟨m, htxn, h, rfl, (List.append_nil _).symm, rfl⟩
    | true => exact ⟨m, htxn, h, rfl, rfl, rfl⟩

theorem replayItem_has {item : STransactionLogItem} (h : (s.replayItem fails item).has_error = false) :
    ∃ m, s.txn = some m ∧ Has s (s.replayItem fails item) [] (item.apply m) := by
  unfold replayItem STransactionLogItem.apply at *
  split
  · next hvalue =>
    rw [if_pos hvalue] at h
    exact put_once_has h
  · next hvalue =>
    rw [if_neg hvalue] at h
    exact del_once_has h

theorem foldl_replayItem_no_error {items : List STransactionLogItem}
    (h : (items.foldl (replayItem fails) s).has_error = false) : s.has_error = false := by
  induction items generalizing s with
  | nil => exact h
  | cons item items ih =>
    obtain ⟨_, _, hitem⟩ := replayItem_has (ih h)
    exact hitem.no_error

/-- A replay without an error applies all items. -/
theorem foldl_replayItem_has {items : List STransactionLogItem} (h : (items.foldl (replayItem fails) s).has_error = false)
    (hs : s.txn = some m) : Has s (items.foldl (replayItem fails) s) [] (items.foldl STransactionLogItem.apply m) := by
  induction items generalizing s m with
  | nil => exact ⟨h, rfl, (List.append_nil _).symm, hs⟩
  | cons item items ih =>
    obtain ⟨m', htxn, hitem⟩ := replayItem_has (foldl_replayItem_no_error (List.foldl_cons .. ▸ h))
    obtain rfl : m = m' := Option.some.inj (hs.symm.trans htxn)
    exact hitem.trans (ih h hitem.txn)

/-- The new transaction has what the log makes of the database. -/
theorem replay_has (h : ((s.start_transaction fails).replay_transaction_log fails).has_error = false) :
    Has s ((s.start_transaction fails).replay_transaction_log fails) []
      (s.transaction_log.foldl STransactionLogItem.apply s.db) := by
  have hstart := start_transaction_has (foldl_replayItem_no_error h)
  have hlog : (s.start_transaction fails).transaction_log = s.transaction_log := by
    rw [hstart.transaction_log, List.append_nil]
  have hreplay := foldl_replayItem_has h hstart.txn
  rw [hlog] at hreplay
  rw [replay_transaction_log, hlog]
  exact hstart.trans hreplay

theorem start_transaction_error (hs : s.has_error = true) : (s.start_transaction fails).has_error = true := by
  unfold start_transaction
  split
  · rfl
  · exact hs

theorem afterBadTxn_has {cont : Bool} (h : s.afterBadTxn fails = (cont, s')) (hno : s'.has_error = false) :
    cont = true ∧ Has s s' [] (s.transaction_log.foldl STransactionLogItem.apply s.db) := by
  unfold afterBadTxn at h
  split at h
  · next herror =>
    obtain ⟨_, rfl⟩ := Prod.mk.inj h
    rw [start_transaction_error herror] at hno
    cases hno
  · obtain ⟨rfl, rfl⟩ := Prod.mk.inj h
    exact ⟨rfl, replay_has hno⟩

theorem afterMapFull_has {cont : Bool} (h : s.afterMapFull fails = (cont, s')) (hno : s'.has_error = false) :
    cont = true ∧ Has s s' [] (s.transaction_log.foldl STransactionLogItem.apply s.db) := by
  unfold afterMapFull at h
  split at h
  · next herror =>
    obtain ⟨_, rfl⟩ := Prod.mk.inj h
    rw [start_transaction_error herror] at hno
    cases hno
  · split at h
    · obtain ⟨_, rfl⟩ := Prod.mk.inj h
      rw [start_transaction_error rfl] at hno
      cases hno
    · next hcreate =>
      obtain ⟨_, rfl⟩ := Prod.mk.inj hcreate
      obtain ⟨rfl, rfl⟩ := Prod.mk.inj h
      have hreplay := replay_has hno
      exact ⟨rfl, hreplay.no_error, hreplay.db, hreplay.transaction_log, hreplay.txn⟩

end Replay

/-- In a transaction over `base` that has made `m` of it, the log does the same. -/
structure Consistent (s : LMDBFileIndex) (base m : Cache) : Prop where
  db : s.db = base
  txn : s.txn = some m
  transaction_log : s.transaction_log.foldl STransactionLogItem.apply base = m

section Operations

variable {base m : Cache}

/-- After a failure the transaction is as it was before. -/
theorem Has.again {t : LMDBFileIndex} (h : Has t s' [] (t.transaction_log.foldl STransactionLogItem.apply t.db))
    (hs : Consistent s base m) (hdb : t.db = s.db) (hlog : t.transaction_log = s.transaction_log) :
    Consistent s' base m := by
  rw [hdb, hlog, hs.db, hs.transaction_log] at h
  refine ⟨h.db.trans (hdb.trans hs.db), h.txn, ?_⟩
  rw [h.transaction_log, hlog, List.append_nil, hs.transaction_log]

theorem logPut_has {item : STransactionLogItem} (h : (s.logPut item log).has_error = false) :
    s.has_error = false ∧ (s.logPut item log).db = s.db ∧ (s.logPut item log).txn = s.txn ∧
      (s.logPut item log).transaction_log = s.transaction_log ++ if log then [item] else [] := by
  have hno : s.has_error = false := by
    unfold logPut at h
    split at h <;> exact h
  unfold logPut
  cases log with
  | false => simp [hno]
  | true => simp [hno]

/-- A put that has gone through has put the value once and logs it once. -/
theorem put_internal_has (h : s.put_internal fails key value flags fuel log = some s') (hno : s'.has_error = false) :
    s.has_error = false ∧ ∀ base m, Consistent s base m → s'.db = base ∧ s'.txn = some (m.insert key value) ∧
      s'.transaction_log = s.transaction_log ++ if log then [⟨key, value, flags⟩] else [] := by
  induction fuel generalizing s s' log with
  | zero => cases h
  | succ fuel ih =>
    rw [put_internal] at h
    split at h
    · next s₁ hput =>
      obtain rfl := mdb_put_failed hput
      split at h
      · next hafter =>
        obtain rfl := Option.some.inj h
        cases (afterMapFull_has hafter hno).1
      · next s₂ hafter =>
        obtain ⟨t, ht, rfl⟩ := Option.map_eq_some_iff.mp h
        obtain ⟨hnot, hdb, htxn, hlog⟩ := logPut_has hno
        obtain ⟨hno₂, hretry⟩ := ih ht hnot
        obtain ⟨_, hreplay⟩ := afterMapFull_has hafter hno₂
        refine ⟨hreplay.no_error, fun base m hs => ?_⟩
        obtain ⟨hdbt, htxnt, hlogt⟩ := hretry base m (hreplay.again hs rfl rfl)
        refine ⟨hdb.trans hdbt, htxn.trans htxnt, ?_⟩
        rw [hlog, hlogt, hreplay.transaction_log]
        simp [mdb_txn_abort]
    · next s₁ hput =>
      obtain rfl := mdb_put_failed hput
      split at h
      · next hafter =>
        obtain rfl := Option.some.inj h
        cases (afterBadTxn_has hafter hno).1
      · next s₂ hafter =>
        obtain rfl := Option.some.inj h
        obtain ⟨hnot, hdb, htxn, hlog⟩ := logPut_has hno
        obtain ⟨m', htxn₂, honce⟩ := put_once_has hnot
        obtain ⟨_, hreplay⟩ := afterBadTxn_has hafter honce.no_error
        refine ⟨hreplay.no_error, fun base m hs => ?_⟩
        have hs₂ := hreplay.again hs rfl rfl
        obtain rfl : m = m' := Option.some.inj (hs₂.txn.symm.trans htxn₂)
        refine ⟨hdb.trans (honce.db.trans hs₂.db), htxn.trans honce.txn, ?_⟩
        rw [hlog, honce.transaction_log, hreplay.transaction_log]
        simp [mdb_txn_abort]
    · next s₁ hput =>
      obtain rfl := Option.some.inj h
      obtain ⟨m', htxn', rfl⟩ := mdb_put_success hput
      obtain ⟨hno, hdb, htxn, hlog⟩ := logPut_has hno
      refine ⟨hno, fun base m hs => ?_⟩
      obtain rfl : m = m' := Option.some.inj (hs.txn.symm.trans htxn')
      exact ⟨hdb.trans hs.db, htxn, hlog⟩
    · obtain rfl := Option.some.inj h
      exact absurd (logPut_has hno).1 (by simp)

theorem logDel_again {t : LMDBFileIndex} (hdb : t.db = base) (htxn : t.txn = some (m.erase key))
    (hlog : (t.transaction_log.foldl STransactionLogItem.apply base).erase key = m.erase key) :
    Consistent (t.logDel key true) base (m.erase key) := by
  refine ⟨hdb, htxn, ?_⟩
  rw [logDel, if_pos rfl, List.foldl_append]
  exact hlog

/-- A delete that has gone through is in the log, once or more often. -/
theorem del_internal_has (h : s.del_internal fails key fuel true = some s') (hno : s'.has_error = false) :
    s.has_error = false ∧ ∀ base m, Consistent s base m → Consistent s' base (m.erase key) := by
  induction fuel generalizing s s' with
  | zero => cases h
  | succ fuel ih =>
    rw [del_internal] at h
    split at h
    · next s₁ hdel =>
      obtain rfl := mdb_del_failed hdel
      split at h
      · next hafter =>
        obtain rfl := Option.some.inj h
        cases (afterMapFull_has hafter hno).1
      · next s₂ hafter =>
        obtain ⟨t, ht, rfl⟩ := Option.map_eq_some_iff.mp h
        obtain ⟨hno₂, hretry⟩ := ih ht hno
        obtain ⟨_, hreplay⟩ := afterMapFull_has hafter hno₂
        refine ⟨hreplay.no_error, fun base m hs => ?_⟩
        have htrue := hretry base m (hreplay.again hs rfl rfl)
        exact logDel_again htrue.db htrue.txn (by rw [htrue.transaction_log, SortedMap.erase_erase])
    · next s₁ hdel =>
      obtain rfl := mdb_del_failed hdel
      split at h
      · next hafter =>
        obtain rfl := Option.some.inj h
        cases (afterBadTxn_has hafter hno).1
      · next s₂ hafter =>
        obtain rfl := Option.some.inj h
        obtain ⟨m', htxn₂, honce⟩ := del_once_has hno
        obtain ⟨_, hreplay⟩ := afterBadTxn_has hafter honce.no_error
        refine ⟨hreplay.no_error, fun base m hs => ?_⟩
        have hs₂ := hreplay.again hs rfl rfl
        obtain rfl : m = m' := Option.some.inj (hs₂.txn.symm.trans htxn₂)
        refine logDel_again (honce.db.trans hs₂.db) honce.txn ?_
        rw [honce.transaction_log, if_pos rfl, List.foldl_append, hs₂.transaction_log]
        exact SortedMap.erase_erase m key
    · obtain rfl := Option.some.inj h
      cases hno
    · next hmap hbad hother hdel =>
      obtain rfl := Option.some.inj h
      obtain ⟨m', htxn, rfl⟩ := mdb_del_success hdel (by
        rintro (_ | _ | _) rfl
        · exact hmap rfl
        · exact hbad rfl
        · exact hother rfl)
      refine ⟨hno, fun base m hs => ?_⟩
      obtain rfl : m = m' := Option.some.inj (hs.txn.symm.trans htxn)
      exact logDel_again hs.db rfl (by rw [hs.transaction_log])

theorem commit_once_has (h : (s.commit_once fails).has_error = false) :
    s.has_error = false ∧ s.txn = some (s.commit_once fails).db := by
  unfold commit_once at h ⊢
  split at h
  · next hcommit =>
    obtain ⟨m, htxn, rfl⟩ := mdb_txn_commit_success hcommit
    exact ⟨h, htxn⟩
  · cases h

/-- A commit that has gone through has committed the transaction, or what the
log made of the database again. -/
theorem commit_transaction_cases (hno : (s.commit_transaction fails).has_error = false) :
    s.has_error = false ∧ (s.commit_transaction fails).transaction_log = [] ∧
      (s.txn = some (s.commit_transaction fails).db ∨
        (s.commit_transaction fails).db = s.transaction_log.foldl STransactionLogItem.apply s.db) := by
  unfold commit_transaction at hno ⊢
  split at hno
  · next s₁ hcommit =>
    obtain ⟨hdb, hlog, herror⟩ := mdb_txn_commit_failed hcommit
    split at hno
    · next hafter => cases (afterMapFull_has hafter hno).1
    · next s₂ hafter =>
      obtain ⟨hno₂, htxn⟩ := commit_once_has hno
      obtain ⟨_, hreplay⟩ := afterMapFull_has hafter hno₂
      refine ⟨herror.symm.trans hreplay.no_error, rfl, Or.inr ?_⟩
      rw [← hdb, ← hlog]
      exact Option.some.inj (htxn.symm.trans hreplay.txn)
  · next s₁ hcommit =>
    obtain ⟨hdb, hlog, herror⟩ := mdb_txn_commit_failed hcommit
    split at hno
    · next hafter => cases (afterBadTxn_has hafter hno).1
    · next s₂ hafter =>
      obtain ⟨hno₂, htxn⟩ := commit_once_has hno
      obtain ⟨_, hreplay⟩ := afterBadTxn_has hafter hno₂
      refine ⟨herror.symm.trans hreplay.no_error, rfl, Or.inr ?_⟩
      rw [← hdb, ← hlog]
      exact Option.some.inj (htxn.symm.trans hreplay.txn)
  · next hcommit =>
    obtain ⟨m', htxn, rfl⟩ := mdb_txn_commit_success hcommit
    exact ⟨hno, rfl, Or.inl htxn⟩
  · cases hno

theorem commit_transaction_db (hno : (s.commit_transaction fails).has_error = false) (hs : Consistent s base m) :
    (s.commit_transaction fails).db = m := by
  obtain ⟨_, _, htxn | hdb⟩ := commit_transaction_cases hno
  · exact Option.some.inj (htxn.symm.trans hs.txn)
  · rw [hdb, hs.db, hs.transaction_log]

end Operations

section Runs

variable {base m : Cache} {op : Op} {ops : List Op}

theorem runOp_has (hop : op.Stores) (h : s.runOp fails fuel op = some s') (hno : s'.has_error = false) :
    s.has_error = false ∧ ∀ base m, Consistent s base m → Consistent s' base (op.apply m) := by
  cases op with
  | put key value flags =>
    obtain ⟨hs, hput⟩ := put_internal_has h hno
    refine ⟨hs, fun base m hm => ?_⟩
    obtain ⟨hdb, htxn, hlog⟩ := hput base m hm
    refine ⟨hdb, htxn, ?_⟩
    rw [hlog, if_pos rfl, List.foldl_append, hm.transaction_log]
    exact if_pos hop
  | del key => exact del_internal_has h hno

theorem foldlM_runOp_has (hops : ∀ op ∈ ops, op.Stores) (h : ops.foldlM (runOp fails fuel) s = some s')
    (hno : s'.has_error = false) :
    s.has_error = false ∧ ∀ base m, Consistent s base m → Consistent s' base (ops.foldl Op.apply m) := by
  induction ops generalizing s with
  | nil =>
    obtain rfl := Option.some.inj h
    exact ⟨hno, fun _ _ hs => hs⟩
  | cons op ops ih =>
    rw [List.foldlM_cons] at h
    obtain ⟨t, hop, hrest⟩ := Option.bind_eq_some_iff.mp h
    obtain ⟨hnot, hconsistent⟩ := ih (fun op hmem => hops op (List.mem_cons_of_mem _ hmem)) hrest
    obtain ⟨hs, hstep⟩ := runOp_has (hops op List.mem_cons_self) hop hnot
    exact ⟨hs, fun base m hm => hconsistent base _ (hstep base m hm)⟩

theorem runTransaction_has (hops : ∀ op ∈ ops, op.Stores) (h : s.runTransaction fails fuel ops = some s')
    (hno : s'.has_error = false) :
    s.has_error = false ∧ s'.transaction_log = [] ∧ (s.transaction_log = [] → s'.db = ops.foldl Op.apply s.db) := by
  obtain ⟨t, hrun, rfl⟩ := Option.map_eq_some_iff.mp h
  have hconsistent : t.has_error = false → s.has_error = false ∧
      (s.transaction_log = [] → Consistent t s.db (ops.foldl Op.apply s.db)) := by
    intro hnot
    obtain ⟨hstart, hrun⟩ := foldlM_runOp_has hops hrun hnot
    have hhas := start_transaction_has hstart
    refine ⟨hhas.no_error, fun hs => hrun s.db s.db ⟨hhas.db, hhas.txn, ?_⟩⟩
    rw [hhas.transaction_log, hs]
    rfl
  obtain ⟨hnot, hlog, _⟩ := commit_transaction_cases hno
  exact ⟨(hconsistent hnot).1, hlog, fun hs => commit_transaction_db hno ((hconsistent hnot).2 hs)⟩

theorem runTransactions_has {transactions : List (List Op)} (hops : ∀ ops ∈ transactions, ∀ op ∈ ops, op.Stores)
    (h : s.runTransactions fails fuel transactions = some s') (hno : s'.has_error = false) :
    s.has_error = false ∧ (s.transaction_log = [] → s'.db = transactions.flatten.foldl Op.apply s.db) := by
  induction transactions generalizing s with
  | nil =>
    obtain rfl := Option.some.inj h
    exact ⟨hno, fun _ => rfl⟩
  | cons ops transactions ih =>
    rw [runTransactions, List.foldlM_cons] at h
    obtain ⟨t, hfirst, hrest⟩ := Option.bind_eq_some_iff.mp h
    obtain ⟨hnot, hdb⟩ := ih (fun ops hmem => hops ops (List.mem_cons_of_mem _ hmem)) hrest
    obtain ⟨hs, hlogt, hdbt⟩ := runTransaction_has (hops ops List.mem_cons_self) hfirst hnot
    refine ⟨hs, fun hlog => ?_⟩
    rw [hdb hlogt, hdbt hlog, List.flatten_cons, List.foldl_append]

/-- Whatever calls of LMDB have failed, without an error in the end what is
committed is all operations applied once, in their order. -/
theorem committed_eq {db : Cache} {map_size : Nat} {transactions : List (List Op)}
    (hops : ∀ ops ∈ transactions, ∀ op ∈ ops, op.Stores)
    (h : (opened db map_size).runTransactions fails fuel transactions = some s) (hno : s.has_error = false) :
    s.db = transactions.flatten.foldl Op.apply db :=
  (runTransactions_has hops h hno).2 rfl

/-- LMDB is full at the second put. -/
theorem committed_map_full :
    ∃ s, (opened SortedMap.empty 1).runTransactions (fun n => if n = 2 then some .map_full else none) 2
        [[.put ⟨[7], 3, 1⟩ 5 0, .put ⟨[7], 3, 2⟩ 6 0, .del ⟨[7], 3, 1⟩]] = some s ∧
      s.has_error = false ∧ s.db.find ⟨[7], 3, 1⟩ = none ∧ s.db.find ⟨[7], 3, 2⟩ = some 6 := by
  have hrun : ∃ s, (opened SortedMap.empty 1).runTransactions (fun n => if n = 2 then some .map_full else none) 2
        [[.put ⟨[7], 3, 1⟩ 5 0, .put ⟨[7], 3, 2⟩ 6 0, .del ⟨[7], 3, 1⟩]] = some s ∧ s.has_error = false :=
    ⟨_, rfl, rfl⟩
  obtain ⟨s, hrun, hno⟩ := hrun
  have hdb := committed_eq (by simp [Op.Stores]) hrun hno
  refine ⟨s, hrun, hno, ?_, ?_⟩
  · rw [hdb]
    decide
  · rw [hdb]
    decide

/-- A put of zero is replayed as a delete. -/
theorem committed_zero :
    ¬ ∀ (fails : Nat → Option Failure) (fuel : Nat) (db : Cache) (map_size : Nat) (transactions : List (List Op))
        (s : LMDBFileIndex), (opened db map_size).runTransactions fails fuel transactions = some s →
      s.has_error = false → s.db = transactions.flatten.foldl Op.apply db := by
  intro h
  have hdb := h (fun n => if n = 2 then some .map_full else none) 2 SortedMap.empty 1
    [[.put ⟨[7], 3, 1⟩ 0 0, .put ⟨[7], 3, 2⟩ 6 0]] _ rfl rfl
  have hfind := congrArg (SortedMap.find · ⟨[7], 3, 1⟩) hdb
  exact absurd hfind (by decide)

end Runs

end LMDBFileIndex

end urbackup.lmdbfileindex
