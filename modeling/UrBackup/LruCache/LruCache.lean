import UrBackup.Linked.Splice
import Mathlib.Logic.Function.Basic

namespace urbackup.common

open linked

/-- A place in the list: a node by its number, or the end. -/
abbrev Iterator := Option Nat

/-- A node of the list. Its key is a pointer to the one of an entry of the map. -/
structure Node (V : Type) where
  id : Nat
  first : Nat
  second : V

/-- An entry of the map. -/
structure Entry (K : Type) where
  id : Nat
  key : K
  second : Iterator

/-- The list, from the latest to the earliest use, and the map. A node or an entry
that is created gets the next number. -/
structure lrucache (K V : Type) where
  lru_list : List (Node V)
  lru_access : List (Entry K)
  next_id : Nat

namespace lrucache

variable {K V : Type}

def empty : lrucache K V where
  lru_list := []
  lru_access := []
  next_id := 0

section Map

variable (c : lrucache K V)

def find [DecidableEq K] (key : K) : Option (Entry K) :=
  c.lru_access.find? (·.key = key)

/-- An entry that is there is left as it is. -/
def insertEntry [DecidableEq K] (key : K) (it : Iterator) : Nat × lrucache K V :=
  match c.find key with
  | some e => (e.id, c)
  | none => (c.next_id, { c with lru_access := ⟨c.next_id, key, it⟩ :: c.lru_access, next_id := c.next_id + 1 })

def setIterator (entry : Nat) (it : Iterator) : lrucache K V :=
  { c with lru_access := c.lru_access.map fun e => if e.id = entry then { e with second := it } else e }

def eraseEntry (entry : Nat) : lrucache K V :=
  { c with lru_access := c.lru_access.filter (·.id ≠ entry) }

/-- The key behind a pointer, if the entry is still there. -/
def keyAt (first : Nat) : Option K :=
  (c.lru_access.find? (·.id = first)).map Entry.key

end Map

section Nodes

variable (c : lrucache K V)

def begin : Iterator :=
  c.lru_list.head?.map Node.id

/-- The last node, before the end. -/
def last : Iterator :=
  c.lru_list.getLast?.map Node.id

def insertNode (pos : Iterator) (first : Nat) (v : V) : Iterator × lrucache K V :=
  (some c.next_id,
    { c with lru_list := insertBefore Node.id pos ⟨c.next_id, first, v⟩ c.lru_list, next_id := c.next_id + 1 })

/-- A node moves before a position. There is no result without the node. -/
def splice (pos it : Iterator) : Option (lrucache K V) := do
  let i ← it
  let lru_list ← moveBefore Node.id pos i c.lru_list
  return { c with lru_list }

def deref (it : Iterator) : Option (Node V) := do
  let i ← it
  c.lru_list.find? (·.id = i)

/-- A node is changed where it is. -/
def assign (it : Iterator) (f : Node V → Node V) : Option (lrucache K V) := do
  let n ← c.deref it
  return { c with lru_list := c.lru_list.map fun m => if m.id = n.id then f m else m }

def eraseNode (it : Iterator) : Option (lrucache K V) := do
  let n ← c.deref it
  return { c with lru_list := c.lru_list.filter (·.id ≠ n.id) }

end Nodes

/-! The operations of the cache. There is no result where an iterator or a pointer
without its target is used. -/

section Operations

variable [DecidableEq K] (c : lrucache K V)

def put (key : K) (v : V) : Option (lrucache K V) :=
  match c.find key with
  | some it => do
    let c ← c.splice c.begin it.second
    c.assign it.second ({ · with second := v })
  | none =>
    let (it_ins, c) := c.insertEntry key c.begin
    let (_, c) := c.insertNode c.begin it_ins v
    some (c.setIterator it_ins c.begin)

/-- Where the key to put is there already, its value is left as it is. -/
def put_after (key put_key : K) (v : V) : Option (lrucache K V) :=
  match c.find key with
  | some it_after =>
    match c.find put_key with
    | some it => c.splice it_after.second it.second
    | none =>
      let (it_ins, c) := c.insertEntry put_key c.begin
      let (node, c) := c.insertNode it_after.second it_ins v
      some (c.setIterator it_ins node)
  | none => c.put put_key v

def put_back (key : K) (v : V) : Option (lrucache K V) :=
  match c.find key with
  | some it => c.assign it.second ({ · with second := v })
  | none =>
    let (it_ins, c) := c.insertEntry key none
    let (_, c) := c.insertNode none it_ins v
    some (c.setIterator it_ins c.last)

/-- An entry of the new key that is there already stays with its own node. -/
def change_key (old_key new_key : K) : Option (Bool × lrucache K V) :=
  match c.find old_key with
  | some it => do
    let it_list := it.second
    let c := c.eraseEntry it.id
    let (it_ins, c) := c.insertEntry new_key it_list
    let c ← c.assign it_list ({ · with first := it_ins })
    return (true, c)
  | none => some (false, c)

/-- The entry that was found has the key, so the call is not aborted. -/
def get (key : K) (bring_front : Bool) : Option (Option V × lrucache K V) :=
  match c.find key with
  | some it => do
    let c ← if bring_front then c.splice c.begin it.second else some c
    let n ← c.deref it.second
    return (some n.second, c)
  | none => some (none, c)

def has_key (key : K) : Bool :=
  (c.find key).isSome

def evict_one : Option (Option (K × V) × lrucache K V) :=
  match c.lru_list.getLast? with
  | some back => do
    let key ← c.keyAt back.first
    let it ← c.find key
    let c := c.eraseEntry it.id
    return (some (it.key, back.second), { c with lru_list := c.lru_list.dropLast })
  | none => some (none, c)

def del (key : K) : Option (lrucache K V) :=
  match c.find key with
  | some it => do
    let c ← c.eraseNode it.second
    return c.eraseEntry it.id
  | none => some c

end Operations

/-- The calls of the interface. -/
inductive Op (K V : Type)
  | put (key : K) (v : V)
  | put_after (key put_key : K) (v : V)
  | put_back (key : K) (v : V)
  | change_key (old_key new_key : K)
  | get (key : K) (bring_front : Bool)
  | evict_one
  | del (key : K)

/-- A call and the key that it evicts. -/
def step [DecidableEq K] (c : lrucache K V) : Op K V → Option (Option K × lrucache K V)
  | .put key v => (c.put key v).map (none, ·)
  | .put_after key put_key v => (c.put_after key put_key v).map (none, ·)
  | .put_back key v => (c.put_back key v).map (none, ·)
  | .change_key old_key new_key => (c.change_key old_key new_key).map fun r => (none, r.2)
  | .get key bring_front => (c.get key bring_front).map fun r => (none, r.2)
  | .evict_one => c.evict_one.map fun r => (r.1.map Prod.fst, r.2)
  | .del key => (c.del key).map (none, ·)

end lrucache

end urbackup.common
