import Mathlib.Algebra.Group.Nat.Defs
import Mathlib.Data.List.Basic

namespace urbackup.filebackup

/-- The largest `size_t`. -/
def npos : Nat := 2 ^ 64 - 1

structure MaxFileId where
  max_downloaded : Nat
  max_preprocessed : Nat
  min_downloaded : Nat
  postponed : List Nat
deriving DecidableEq

namespace MaxFileId

def new : MaxFileId where
  max_downloaded := npos
  max_preprocessed := 0
  min_downloaded := 0
  postponed := []

variable (m : MaxFileId)

def setMinDownloaded (id : Nat) : MaxFileId :=
  { m with
    max_downloaded := if m.max_downloaded > id then id else m.max_downloaded
    min_downloaded := (id + 1) % 2 ^ 64 }

/-- The reported id is lowered below each postponed id it has passed, and the
postponed ids that equal it are erased. -/
def lower : List Nat → Nat → Nat × List Nat
  | [], id => (id, [])
  | p :: postponed, id =>
    if p = id then lower postponed id
    else if id > p then
      let (id, postponed) := lower postponed ((p + 2 ^ 64 - 1) % 2 ^ 64)
      (id, p :: postponed)
    else
      let (id, postponed) := lower postponed id
      (id, p :: postponed)

def setMaxDownloaded (id : Nat) : MaxFileId :=
  let (id, postponed) := lower m.postponed id
  let max_downloaded := (id + 1) % 2 ^ 64
  { m with
    max_downloaded := if max_downloaded ≥ m.min_downloaded then npos else max_downloaded
    postponed := postponed }

def setMaxPreProcessed (id : Nat) : MaxFileId :=
  { m with max_preprocessed := (id + 1) % 2 ^ 64 }

def isFinished (id : Nat) : Bool :=
  (id + 1) % 2 ^ 64 ≤ m.max_downloaded && (id + 1) % 2 ^ 64 ≤ m.max_preprocessed

def postponeDownloaded (id : Nat) : MaxFileId :=
  { m with postponed := m.postponed ++ [id] }

end MaxFileId

/-- A file backup: the walk over the file list at `line`, what it queued for
download, which of these downloads come to a hash thread, and which of them a
hash thread has finished. -/
structure Transfer where
  max_file_id : MaxFileId
  line : Nat
  queued : List Nat
  hashed : List Nat
  finished : List Nat

/-- The steps of all threads, in the order in which they take the mutex. The walk
queues a line at most once before it is processed, a switched download is
postponed before it is loaded, and hash threads finish in any order. -/
inductive TransferStep where
  | queue (hashed : Bool)
  | process
  | postpone (id : Nat)
  | finish (id : Nat)

namespace Transfer

def new : Transfer where
  max_file_id := MaxFileId.new
  line := 0
  queued := []
  hashed := []
  finished := []

def step (t : Transfer) : TransferStep → Option Transfer
  | .queue hashed =>
    if t.line ∈ t.queued then none
    else
      some { t with
        -- the id zero stands for no id
        max_file_id := if t.line ≠ 0 then t.max_file_id.setMinDownloaded t.line else t.max_file_id
        queued := t.queued ++ [t.line]
        hashed := if hashed then t.hashed ++ [t.line] else t.hashed }
  | .process => some { t with max_file_id := t.max_file_id.setMaxPreProcessed t.line, line := t.line + 1 }
  | .postpone id =>
    if id ∈ t.queued ∧ id ∉ t.finished then some { t with max_file_id := t.max_file_id.postponeDownloaded id } else none
  | .finish id =>
    if id ∈ t.hashed ∧ id ∉ t.finished then
      some { t with max_file_id := t.max_file_id.setMaxDownloaded id, finished := t.finished ++ [id] }
    else none

def run : List TransferStep → Transfer → Option Transfer
  | [], t => some t
  | e :: es, t => (t.step e).bind (run es)

/-- What `isFinished` is to say of the lines. -/
structure Reported (t : Transfer) : Prop where
  only : ∀ id, id < npos → t.max_file_id.isFinished id = true →
    id < t.line ∧ (id ∈ t.hashed → id ∈ t.finished)
  all : (∀ id ∈ t.queued, id ∈ t.finished) → ∀ id, id < t.line → t.max_file_id.isFinished id = true

/-- The step neither passes the range of the ids nor reports a download before
one in front of it that was not postponed. -/
def Fits (t : Transfer) : TransferStep → Prop
  | .queue hashed => hashed = true → t.line ≠ 0
  | .process => t.line + 1 < npos
  | .postpone id => id ≠ 0
  | .finish id =>
    (∀ i ∈ t.hashed, i < id → i ∈ t.finished ∨ i ∈ t.max_file_id.postponed) ∧
      t.max_file_id.postponed.Pairwise (fun p q => p < id → q + 1 ≠ p ∧ q ≠ id) ∧
      ((∀ i ∈ t.queued, i ∈ t.finished ∨ i = id) → ∀ i ∈ t.queued, i ≤ id)

instance (t : Transfer) (e : TransferStep) : Decidable (t.Fits e) :=
  match e with
  | .queue _ => inferInstanceAs (Decidable (_ → _))
  | .process => inferInstanceAs (Decidable (_ < _))
  | .postpone _ => inferInstanceAs (Decidable (_ ≠ _))
  | .finish _ => inferInstanceAs (Decidable (_ ∧ _ ∧ _))

def AllFit : List TransferStep → Transfer → Prop
  | [], _ => True
  | e :: es, t => t.Fits e ∧ ∀ t', t.step e = some t' → AllFit es t'

instance decidableAllFit : (es : List TransferStep) → (t : Transfer) → Decidable (AllFit es t)
  | [], _ => isTrue trivial
  | e :: es, t =>
    match h : t.step e with
    | none => decidable_of_iff (t.Fits e) ⟨fun hfits => ⟨hfits, fun t' ht => by rw [h] at ht; cases ht⟩, And.left⟩
    | some u =>
      have := decidableAllFit es u
      decidable_of_iff (t.Fits e ∧ AllFit es u)
        ⟨fun hfits => ⟨hfits.1, fun t' ht => by rw [h] at ht; cases ht; exact hfits.2⟩, fun hfits => ⟨hfits.1, hfits.2 u h⟩⟩

end Transfer

end urbackup.filebackup
