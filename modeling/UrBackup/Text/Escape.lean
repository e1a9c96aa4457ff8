import UrBackup.FileList.StringTools

namespace urbackup.escape

open stringtools

/-- `#` -/
def separator : UInt8 := 35

/-- `$` -/
def introducer : UInt8 := 36

/-- `r` -/
def replaced : UInt8 := 114

/-- The message is what was passed, up to a position, and the rest. What is
inserted behind the position is visited, unless the position is moved past it. -/
def escapeFrom (passed : Bytes) : (rest : Bytes) → Bytes
  | [] => passed
  | ch :: rest =>
    if ch = separator then escapeFrom (passed ++ [introducer]) (replaced :: rest)
    else if ch = introducer then escapeFrom (passed ++ [introducer, introducer]) rest
    else escapeFrom (passed ++ [ch]) rest
termination_by rest => (rest.count separator, rest.length)
decreasing_by
  · subst ch
    left
    simp [separator, replaced]
  · subst ch
    simp only [introducer, separator, List.length_cons, List.count_cons]
    right
    omega
  · rename_i hne _
    rw [List.count_cons_of_ne hne]
    right
    simp

def escapeClientMessage (msg : Bytes) : Bytes :=
  escapeFrom [] msg

/-- An introducer that does not stand before one of the two bytes is kept. -/
def unescapeFrom (passed : Bytes) : (rest : Bytes) → Bytes
  | [] => passed
  | [ch] => passed ++ [ch]
  | ch :: next :: rest =>
    if ch = introducer then
      if next = introducer then unescapeFrom (passed ++ [introducer]) rest
      else if next = replaced then unescapeFrom (passed ++ [separator]) rest
      else unescapeFrom (passed ++ [introducer]) (next :: rest)
    else unescapeFrom (passed ++ [ch]) (next :: rest)

def unescapeMessage (msg : Bytes) : Bytes :=
  unescapeFrom [] msg

/-- What stands for a byte in an escaped message. -/
def escapeChar (ch : UInt8) : Bytes :=
  if ch = separator then [introducer, replaced]
  else if ch = introducer then [introducer, introducer]
  else [ch]

theorem escapeFrom_eq (passed rest : Bytes) : escapeFrom passed rest = passed ++ rest.flatMap escapeChar := by
  induction rest generalizing passed with
  | nil => simp [escapeFrom]
  | cons ch rest ih =>
    rw [escapeFrom, List.flatMap_cons, escapeChar]
    split
    · have hreplaced : escapeFrom (passed ++ [introducer]) (replaced :: rest) = escapeFrom (passed ++ [introducer] ++ [replaced]) rest := by
        rw [escapeFrom, if_neg (by decide), if_neg (by decide)]
      rw [hreplaced, ih]
      simp
    · split
      · rw [ih, List.append_assoc]
      · rw [ih, List.append_assoc]

/-- Escaping is done byte by byte. -/
theorem escapeClientMessage_eq (msg : Bytes) : escapeClientMessage msg = msg.flatMap escapeChar :=
  escapeFrom_eq [] msg

theorem unescapeFrom_cons {ch : UInt8} (hne : ch ≠ introducer) (passed rest : Bytes) :
    unescapeFrom passed (ch :: rest) = unescapeFrom (passed ++ [ch]) rest := by
  cases rest with
  | nil => simp [unescapeFrom]
  | cons next rest => rw [unescapeFrom, if_neg hne]

/-- What stands for a byte is read as that byte, whatever comes behind it. -/
theorem unescapeFrom_escapeChar (ch : UInt8) (passed rest : Bytes) :
    unescapeFrom passed (escapeChar ch ++ rest) = unescapeFrom (passed ++ [ch]) rest := by
  unfold escapeChar
  split
  · next heq =>
    rw [List.cons_append, List.cons_append, List.nil_append, unescapeFrom, if_pos rfl, if_neg (by decide), if_pos rfl, heq]
  · split
    · next heq => rw [List.cons_append, List.cons_append, List.nil_append, unescapeFrom, if_pos rfl, if_pos rfl, heq]
    · next hne => exact unescapeFrom_cons hne passed rest

theorem unescapeFrom_flatMap (passed msg : Bytes) : unescapeFrom passed (msg.flatMap escapeChar) = passed ++ msg := by
  induction msg generalizing passed with
  | nil => simp [unescapeFrom]
  | cons ch msg ih => rw [List.flatMap_cons, unescapeFrom_escapeChar, ih, List.append_assoc, List.singleton_append]

theorem unescape_escape (msg : Bytes) : unescapeMessage (escapeClientMessage msg) = msg := by
  rw [escapeClientMessage_eq]
  exact unescapeFrom_flatMap [] msg

theorem separator_notMem (msg : Bytes) : separator ∉ escapeClientMessage msg := by
  rw [escapeClientMessage_eq, List.mem_flatMap]
  rintro ⟨ch, -, hmem⟩
  unfold escapeChar at hmem
  split at hmem
  · revert hmem
    decide
  · split at hmem
    · revert hmem
      decide
    · next hne _ => exact hne (List.mem_singleton.mp hmem).symm

/-- Escaped fields with separators between them. -/
def joinFields (fields : List Bytes) : Bytes :=
  List.intercalate [separator] (fields.map escapeClientMessage)

def splitFields (msg : Bytes) : List Bytes :=
  (msg.splitOn separator).map unescapeMessage

theorem splitFields_joinFields (field : Bytes) (fields : List Bytes) :
    splitFields (joinFields (field :: fields)) = field :: fields := by
  have hfree : ∀ part ∈ (field :: fields).map escapeClientMessage, separator ∉ part := by
    intro part hpart
    obtain ⟨msg, -, rfl⟩ := List.mem_map.mp hpart
    exact separator_notMem msg
  rw [splitFields, joinFields, List.splitOn_intercalate separator hfree (by simp), List.map_map]
  calc (field :: fields).map (unescapeMessage ∘ escapeClientMessage)
      = (field :: fields).map id := List.map_congr_left fun msg _ => unescape_escape msg
    _ = field :: fields := List.map_id _

/-- Escaping is undone, an escaped message has no separator, and escaped fields are
found again between the separators. -/
theorem escapeClientMessage_spec (msg field : Bytes) (fields : List Bytes) :
    unescapeMessage (escapeClientMessage msg) = msg ∧ separator ∉ escapeClientMessage msg ∧
      splitFields (joinFields (field :: fields)) = field :: fields :=
  ⟨unescape_escape msg, separator_notMem msg, splitFields_joinFields field fields⟩

end urbackup.escape
