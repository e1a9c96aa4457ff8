import UrBackup.CompressedFile.Rounds

namespace urbackup.compressedfile

open stringtools filedata

namespace CompressedFile

section Definitions

variable (codec : Codec) (mem : Nat → Nat → UInt8)

/-- What the caller and the workers do. `Read` and `Write` are taken a round at
a time. -/
inductive Action
  | Seek (spos : Nat)
  | Read (bsize : Nat)
  | Write (buffer : Bytes)
  | take
  | reserve (i : Nat)
  | write (i : Nat)
  | publish (i : Nat)
  | giveBack (i : Nat)

/-- The file, with the byte that was last written at each position. -/
structure System where
  file : CompressedFile
  written : Nat → Option UInt8

def record (written : Nat → Option UInt8) (position : Nat) (buffer : Bytes) : Nat → Option UInt8 :=
  fun q => if position ≤ q ∧ q < position + buffer.length then buffer[q - position]? else written q

def step (sys : System) : Action → Option System
  | .Seek spos => some { sys with file := sys.file.Seek spos }
  | .Read bsize => (sys.file.readRound codec mem bsize).map fun out => { sys with file := out.2 }
  | .Write buffer =>
    let (written, file) := sys.file.writeRound codec mem buffer
    some ⟨file, record sys.written sys.file.currentPosition (buffer.take written)⟩
  | .take => sys.file.workerTake.map fun file => { sys with file }
  | .reserve i => (sys.file.workerReserve codec i).map fun file => { sys with file }
  | .write i => (sys.file.workerWrite codec i).map fun file => { sys with file }
  | .publish i => (sys.file.workerPublish i).map fun file => { sys with file }
  | .giveBack i => (sys.file.workerReturn i).map fun file => { sys with file }

def run : List Action → System → Option System
  | [], sys => some sys
  | action :: actions, sys => (step codec mem sys action).bind (run actions)

/-- A new file. -/
def System.create (blocksize n_threads : Nat) : System :=
  ⟨CompressedFile.create blocksize n_threads, fun _ => none⟩

/-- The caller does not touch a block while it is on the way to the file. -/
def Allowed (sys : System) : Action → Prop
  | .Read _ => sys.file.Settled
  | .Write _ => sys.file.Settled
  | _ => True

def AllAllowed : List Action → System → Prop
  | [], _ => True
  | action :: actions, sys =>
    Allowed sys action ∧ ∀ sys', step codec mem sys action = some sys' → AllAllowed actions sys'

end Definitions

variable {codec : Codec} {mem : Nat → Nat → UInt8}

/-- What was written is in the blocks. -/
structure Keeps (codec : Codec) (sys : System) : Prop where
  ready : Ready codec sys.file
  readOnly : sys.file.readOnly = false
  holds : ∀ q b, sys.written q = some b → Holds codec sys.file q b
  below : ∀ q b, sys.written q = some b → q < sys.file.filesize

section Start

end Start

section Step

variable {sys : System}

theorem Holds.unseen {s s' : CompressedFile} (h : Unseen codec s s') {q : Nat} {b : UInt8} (hholds : Holds codec s q b) :
    Holds codec s' q b := by
  obtain ⟨data, hdata, hget⟩ := hholds
  unfold Holds
  rw [h.blocksize]
  exact ⟨data, h.has _ data hdata, hget⟩

/-- A worker does something. -/
theorem Keeps.worker (h : Keeps codec sys) {file : CompressedFile} (hunseen : Unseen codec sys.file file)
    (hidle : sys.file.evictedItems = [] → sys.file.working = [] → False) : Keeps codec { sys with file } where
  ready := h.ready.writable hunseen h.readOnly fun hzero => (hidle (h.ready.sync hzero).1 (h.ready.sync hzero).2).elim
  readOnly := hunseen.readOnly.trans h.readOnly
  holds := fun q b hq => (h.holds q b hq).unseen hunseen
  below := fun q b hq => by
    dsimp only
    rw [hunseen.filesize]
    exact h.below q b hq

theorem Keeps.got (h : Keeps codec sys) {file : CompressedFile} {bytes : Bytes} (hgot : Got codec sys.file file bytes) :
    Keeps codec { sys with file } where
  ready := hgot.ready
  readOnly := hgot.readOnly.trans h.readOnly
  holds := fun q b hq => by
    obtain ⟨data, hdata, hget⟩ := h.holds q b hq
    unfold Holds
    dsimp only
    rw [hgot.blocksize]
    exact ⟨data, hgot.has _ data hdata, hget⟩
  below := fun q b hq => by
    dsimp only
    rw [hgot.filesize]
    exact h.below q b hq

end Step

section Results

variable {sys : System}

instance (s : CompressedFile) : Decidable s.Settled :=
  inferInstanceAs (Decidable ((∃ item ∈ _, _) ∨ ¬ ∃ item ∈ _, _))

end Results

end CompressedFile

end urbackup.compressedfile
