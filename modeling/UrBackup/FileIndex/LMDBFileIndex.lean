import Mathlib.Data.List.Lex
import Mathlib.Data.Prod.Lex
import UrBackup.FileList.StringTools
import UrBackup.Maps.SortedMap

namespace urbackup.fileindex

open stringtools maps

/-- Sizes and client ids are not negative. -/
structure SIndexKey where
  hash : Bytes
  filesize : Nat
  clientid : Nat
  deriving DecidableEq

namespace SIndexKey

/-- The order of the bytes of a key, with big endian numbers. -/
def order (key : SIndexKey) : Lex (List Nat × Lex (Nat × Nat)) :=
  toLex (key.hash.map UInt8.toNat, toLex (key.filesize, key.clientid))

theorem order_injective : Function.Injective order := by
  rintro ⟨hash, filesize, clientid⟩ ⟨hash', filesize', clientid'⟩ h
  have hpair : (hash.map UInt8.toNat, toLex (filesize, clientid)) = (hash'.map UInt8.toNat, toLex (filesize', clientid')) :=
    toLex.injective h
  obtain ⟨hhash, hrest⟩ := Prod.mk.inj hpair
  obtain ⟨rfl, rfl⟩ := Prod.mk.inj (toLex.injective hrest)
  have hinj : Function.Injective UInt8.toNat := fun _ _ h => UInt8.toNat_inj.mp h
  rw [hinj.list_map hhash]

instance : LinearOrder SIndexKey :=
  LinearOrder.lift' order order_injective

def isEqualWithoutClientid (key other : SIndexKey) : Bool :=
  key.hash = other.hash ∧ key.filesize = other.filesize

/-- The same file of another client. -/
def ofClient (key : SIndexKey) (clientid : Nat) : SIndexKey :=
  { key with clientid }

end SIndexKey

abbrev Cache := SortedMap SIndexKey Int

def max_buffer_size : Nat := 100000

/-- Where the writer is. In a transaction it has the database with its changes
and the entries it still has to write. -/
inductive Phase
  | waiting
  | writing (txn : Cache) (rest : List (SIndexKey × Int))
  | committed

structure State where
  active_cache_buffer : Cache
  other_cache_buffer : Cache
  db : Cache
  phase : Phase
  do_shutdown : Bool
  do_flush : Bool
  do_accept : Bool

inductive Action
  | put_delayed (key : SIndexKey) (value : Int)
  | del_delayed (key : SIndexKey)
  | shutdown
  | flush
  | stop_accept
  | swap
  | write
  | commit
  | clear

/-- An entry in the transaction of the writer. -/
def writeEntry (txn : Cache) (entry : SIndexKey × Int) : Cache :=
  if entry.2 ≠ 0 then txn.insert entry.1 entry.2 else txn.erase entry.1

namespace State

variable (s : State)

/-- `put_delayed` waits as long as there is no room. -/
def put_delayed (key : SIndexKey) (value : Int) : Option State :=
  if s.active_cache_buffer.entries.length ≥ max_buffer_size ∨ s.do_accept = false then none
  else some { s with active_cache_buffer := s.active_cache_buffer.insert key value }

/-- The writer takes the active buffer, which the other one replaces. -/
def swap : Option State :=
  match s.phase with
  | .waiting =>
    if s.do_shutdown ∧ s.active_cache_buffer.entries.isEmpty ∧ s.other_cache_buffer.entries.isEmpty then none
    else if s.active_cache_buffer.entries.isEmpty ∧ s.do_shutdown = false then none
    else some { s with
      active_cache_buffer := s.other_cache_buffer
      other_cache_buffer := s.active_cache_buffer
      phase := .writing s.db s.active_cache_buffer.entries }
  | _ => none

def write : Option State :=
  match s.phase with
  | .writing txn (entry :: rest) => some { s with phase := .writing (writeEntry txn entry) rest }
  | _ => none

def commit : Option State :=
  match s.phase with
  | .writing txn [] => some { s with db := txn, phase := .committed }
  | _ => none

def clear : Option State :=
  match s.phase with
  | .committed => some { s with other_cache_buffer := SortedMap.empty, do_flush := false, phase := .waiting }
  | _ => none

def step : Action → Option State
  | .put_delayed key value => s.put_delayed key value
  | .del_delayed key => s.put_delayed key 0
  | .shutdown => some { s with do_shutdown := true }
  | .flush => some { s with do_flush := true }
  | .stop_accept => some { s with do_accept := false }
  | .swap => s.swap
  | .write => s.write
  | .commit => s.commit
  | .clear => s.clear

def run (s : State) : List Action → Option State
  | [] => some s
  | a :: as => (s.step a).bind fun s => run s as

/-- Nothing is buffered when the writer starts. -/
def initial (db : Cache) : State :=
  ⟨SortedMap.empty, SortedMap.empty, db, .waiting, false, false, true⟩

end State

section Get

/-- What the buffers have, the active one first. -/
def get_from_caches_exact (s : State) (key : SIndexKey) : Option Int :=
  (s.active_cache_buffer.find key).or (s.other_cache_buffer.find key)

/-- What the database has. -/
def get (s : State) (key : SIndexKey) : Int :=
  (s.db.find key).getD 0

/-- The buffers are looked at in one state, with the mutex, and the database in
a later one, without it. -/
def get_with_cache_exact (s later : State) (key : SIndexKey) : Int :=
  (get_from_caches_exact s key).getD (get later key)

/-- From the key on, as long as it is the same file. -/
def sameFile (key : SIndexKey) (cache : Cache) : List (SIndexKey × Int) :=
  (cache.lowerBound key).takeWhile fun e => e.1.isEqualWithoutClientid key

def get_from_cache_all_clients (key : SIndexKey) (cache : Cache) (ret : SortedMap Nat Int) : SortedMap Nat Int :=
  (sameFile key cache).foldl (fun ret e => ret.insert e.1.clientid e.2) ret

/-- What the database has; the cursor goes through it in the same order. -/
def get_all_clients (s : State) (key : SIndexKey) : SortedMap Nat Int :=
  get_from_cache_all_clients key s.db SortedMap.empty

def get_all_clients_with_cache (s later : State) (key : SIndexKey) (with_del : Bool) : SortedMap Nat Int :=
  let ret_cache := get_from_cache_all_clients key s.other_cache_buffer SortedMap.empty
  let ret_cache := get_from_cache_all_clients key s.active_cache_buffer ret_cache
  let ret := ret_cache.entries.foldl (fun ret e => ret.insert e.1 e.2) (get_all_clients later key)
  if with_del then ret
  else (ret.entries.filter fun e => e.2 = 0).foldl (fun ret e => ret.erase e.1) ret

end Get

end urbackup.fileindex

namespace urbackup.lmdbfileindex

open maps fileindex

/-- How a call of LMDB can fail. -/
inductive Failure
  | map_full
  | bad_txn
  | other
  deriving DecidableEq

inductive Rc
  | success
  | notfound
  | failed (failure : Failure)

structure STransactionLogItem where
  key : SIndexKey
  value : Int
  flags : Nat
  deriving DecidableEq

/-- `db` is what was committed and `txn` the transaction that is open, with its
changes. `calls` counts the calls of LMDB. -/
structure LMDBFileIndex where
  db : Cache
  txn : Option Cache
  map_size : Nat
  has_error : Bool
  transaction_log : List STransactionLogItem
  calls : Nat

def MDB_APPEND : Nat := 0x20000

namespace LMDBFileIndex

/-- An index that was opened and not used. -/
def opened (db : Cache) (map_size : Nat) : LMDBFileIndex :=
  ⟨db, none, map_size, false, [], 0⟩

section Calls

variable (fails : Nat → Option Failure) (s : LMDBFileIndex)

def mdb_txn_abort : LMDBFileIndex :=
  { s with txn := none }

/-- With `MDB_APPEND` a key has to be after all others. -/
def mdb_put (key : SIndexKey) (value : Int) (flags : Nat) : Rc × LMDBFileIndex :=
  match fails s.calls, s.txn with
  | some failure, _ => (.failed failure, { s with calls := s.calls + 1 })
  | none, none => (.failed .other, { s with calls := s.calls + 1 })
  | none, some txn =>
    if flags &&& MDB_APPEND ≠ 0 ∧ txn.entries.any (fun e => decide (key ≤ e.1)) = true then
      (.failed .other, { s with calls := s.calls + 1 })
    else (.success, { s with txn := some (txn.insert key value), calls := s.calls + 1 })

def mdb_del (key : SIndexKey) : Rc × LMDBFileIndex :=
  match fails s.calls, s.txn with
  | some failure, _ => (.failed failure, { s with calls := s.calls + 1 })
  | none, none => (.failed .other, { s with calls := s.calls + 1 })
  | none, some txn =>
    if txn.find key = none then (.notfound, { s with calls := s.calls + 1 })
    else (.success, { s with txn := some (txn.erase key), calls := s.calls + 1 })

/-- A commit that fails aborts the transaction. -/
def mdb_txn_commit : Rc × LMDBFileIndex :=
  match fails s.calls, s.txn with
  | some failure, _ => (.failed failure, { s with txn := none, calls := s.calls + 1 })
  | none, none => (.failed .other, { s with calls := s.calls + 1 })
  | none, some txn => (.success, { s with db := txn, txn := none, calls := s.calls + 1 })

def start_transaction : LMDBFileIndex :=
  match fails s.calls with
  | some _ => { s with txn := none, has_error := true, calls := s.calls + 1 }
  | none => { s with txn := some s.db, calls := s.calls + 1 }

/-- The environment is made again, with more room. -/
def create_env : Bool × LMDBFileIndex :=
  ((fails s.calls).isNone, { s with map_size := s.map_size * 2, calls := s.calls + 1 })

end Calls

section Transaction

variable (fails : Nat → Option Failure)

/-- `put_internal` as the replay calls it, without `log` and `handle_enosp`. -/
def put_once (key : SIndexKey) (value : Int) (flags : Nat) (s : LMDBFileIndex) : LMDBFileIndex :=
  match s.mdb_put fails key value flags with
  | (.success, s) => s
  | (_, s) => { s with has_error := true }

/-- The end of `del_internal`. -/
def logDel (key : SIndexKey) (log : Bool) (s : LMDBFileIndex) : LMDBFileIndex :=
  if log then { s with transaction_log := s.transaction_log ++ [⟨key, 0, 0⟩] } else s

/-- `del_internal` without `handle_enosp`. -/
def del_once (key : SIndexKey) (log : Bool) (s : LMDBFileIndex) : LMDBFileIndex :=
  match s.mdb_del fails key with
  | (.failed _, s) => logDel key log { s with has_error := true }
  | (_, s) => logDel key log s

def replayItem (s : LMDBFileIndex) (item : STransactionLogItem) : LMDBFileIndex :=
  if item.value ≠ 0 then s.put_once fails item.key item.value item.flags else s.del_once fails item.key false

def replay_transaction_log (s : LMDBFileIndex) : LMDBFileIndex :=
  s.transaction_log.foldl (replayItem fails) s

/-- What is done after `MDB_MAP_FULL`; the answer is whether it goes on. -/
def afterMapFull (s : LMDBFileIndex) : Bool × LMDBFileIndex :=
  if s.has_error then (false, s.start_transaction fails)
  else
    match s.create_env fails with
    | (false, s) => (false, { s with has_error := true }.start_transaction fails)
    | (true, s) => (true, (s.start_transaction fails).replay_transaction_log fails)

def afterBadTxn (s : LMDBFileIndex) : Bool × LMDBFileIndex :=
  if s.has_error then (false, s.start_transaction fails)
  else (true, (s.start_transaction fails).replay_transaction_log fails)

/-- The end of `put_internal`. -/
def logPut (item : STransactionLogItem) (log : Bool) (s : LMDBFileIndex) : LMDBFileIndex :=
  if !s.has_error && log then { s with transaction_log := s.transaction_log ++ [item] } else s

/-- `put_internal` with `handle_enosp`. It is `none` where the fuel is used up. -/
def put_internal (key : SIndexKey) (value : Int) (flags : Nat) : Nat → Bool → LMDBFileIndex → Option LMDBFileIndex
  | 0, _, _ => none
  | fuel + 1, log, s =>
    match s.mdb_put fails key value flags with
    | (.failed .map_full, s) =>
      match s.mdb_txn_abort.afterMapFull fails with
      | (false, s) => some s
      | (true, s) => (put_internal key value flags fuel false s).map (logPut ⟨key, value, flags⟩ log)
    | (.failed .bad_txn, s) =>
      match s.mdb_txn_abort.afterBadTxn fails with
      | (false, s) => some s
      | (true, s) => some (logPut ⟨key, value, flags⟩ log (s.put_once fails key value flags))
    | (.success, s) => some (logPut ⟨key, value, flags⟩ log s)
    | (_, s) => some (logPut ⟨key, value, flags⟩ log { s with has_error := true })

/-- `del_internal` with `handle_enosp`; what it calls logs the key as well. -/
def del_internal (key : SIndexKey) : Nat → Bool → LMDBFileIndex → Option LMDBFileIndex
  | 0, _, _ => none
  | fuel + 1, log, s =>
    match s.mdb_del fails key with
    | (.failed .map_full, s) =>
      match s.mdb_txn_abort.afterMapFull fails with
      | (false, s) => some s
      | (true, s) => (del_internal key fuel true s).map (logDel key log)
    | (.failed .bad_txn, s) =>
      match s.mdb_txn_abort.afterBadTxn fails with
      | (false, s) => some s
      | (true, s) => some (logDel key log (s.del_once fails key true))
    | (.failed .other, s) => some (logDel key log { s with has_error := true })
    | (_, s) => some (logDel key log s)

def clearLog (s : LMDBFileIndex) : LMDBFileIndex :=
  { s with transaction_log := [] }

/-- `commit_transaction_internal` without `handle_enosp`. -/
def commit_once (s : LMDBFileIndex) : LMDBFileIndex :=
  match s.mdb_txn_commit fails with
  | (.success, s) => s.clearLog
  | (_, s) => { s with has_error := true }.clearLog

def commit_transaction (s : LMDBFileIndex) : LMDBFileIndex :=
  match s.mdb_txn_commit fails with
  | (.failed .map_full, s) =>
    match s.afterMapFull fails with
    | (false, s) => s
    | (true, s) => (s.commit_once fails).clearLog
  | (.failed .bad_txn, s) =>
    match s.afterBadTxn fails with
    | (false, s) => s
    | (true, s) => (s.commit_once fails).clearLog
  | (.success, s) => s.clearLog
  | (_, s) => { s with has_error := true }.clearLog

end Transaction

end LMDBFileIndex

/-- An operation of a transaction. -/
inductive Op
  | put (key : SIndexKey) (value : Int) (flags : Nat)
  | del (key : SIndexKey)

/-- What an operation does to a map. -/
def Op.apply (m : Cache) : Op → Cache
  | .put key value _ => m.insert key value
  | .del key => m.erase key

namespace LMDBFileIndex

section Runs

variable (fails : Nat → Option Failure) (fuel : Nat)

def runOp (s : LMDBFileIndex) : Op → Option LMDBFileIndex
  | .put key value flags => s.put_internal fails key value flags fuel true
  | .del key => s.del_internal fails key fuel true

/-- A transaction from its start to the commit. -/
def runTransaction (s : LMDBFileIndex) (ops : List Op) : Option LMDBFileIndex :=
  (ops.foldlM (runOp fails fuel) (s.start_transaction fails)).map (commit_transaction fails)

def runTransactions (s : LMDBFileIndex) (transactions : List (List Op)) : Option LMDBFileIndex :=
  transactions.foldlM (runTransaction fails fuel) s

end Runs

end LMDBFileIndex

end urbackup.lmdbfileindex
