import UrBackup.CompressedFile.Rounds

namespace urbackup.compressedfile

open stringtools filedata

namespace CompressedFile

section Definitions

variable (codec : Codec) (mem : Nat → Nat → UInt8)

inductive Call
  | Seek (spos : Nat)
  | Read (bsize : Nat)
  | Write (buffer : Bytes)

inductive Result
  | positioned
  | read (bytes : Bytes)
  | written (n : Nat)
  deriving DecidableEq

def call (s : CompressedFile) : Call → Option (Result × CompressedFile)
  | .Seek spos => some (.positioned, s.Seek spos)
  | .Read bsize => (Read codec mem (bsize + 1) bsize s).map fun (bytes, s) => (.read bytes, s)
  | .Write buffer =>
    let (n, s) := Write codec mem (buffer.length + 1) buffer s
    some (.written n, s)

def calls : List Call → CompressedFile → Option (List Result × CompressedFile)
  | [], s => some ([], s)
  | c :: cs, s => (call codec mem s c).bind fun (result, s) => (calls cs s).map fun (results, s) => (result :: results, s)

/-- A byte array with a position. Behind its end it is filled up with zeros. -/
structure Array where
  data : Bytes
  position : Nat

def Array.call (a : Array) : Call → Result × Array
  | .Seek spos => (.positioned, { a with position := spos })
  | .Read bsize =>
    let bytes := slice a.data a.position bsize
    (.read bytes, { a with position := a.position + bytes.length })
  | .Write buffer =>
    let data := a.data ++ List.replicate (a.position - a.data.length) 0
    (.written buffer.length, ⟨overwrite 0 data a.position buffer, a.position + buffer.length⟩)

def Array.calls : List Call → Array → List Result × Array
  | [], a => ([], a)
  | c :: cs, a =>
    let (result, a) := a.call c
    let (results, a) := Array.calls cs a
    (result :: results, a)

def Call.reads : Call → Bool
  | .Write _ => false
  | _ => true

/-- A read starts in the file, or at its end. Where a write leaves out bytes
behind the end, they are there already and zero. -/
def Fits (s : CompressedFile) : Call → Prop
  | .Seek _ => True
  | .Read _ => s.currentPosition ≤ s.filesize
  | .Write _ => ∀ q, s.filesize ≤ q → q < s.currentPosition → Holds codec s q 0

def AllFit : List Call → CompressedFile → Prop
  | [], _ => True
  | c :: cs, s => Fits codec s c ∧ ∀ result s', call codec mem s c = some (result, s') → AllFit cs s'

end Definitions

variable {codec : Codec} {mem : Nat → Nat → UInt8} {s : CompressedFile}

/-- The blocks have the bytes of an array. -/
structure Represents (codec : Codec) (s : CompressedFile) (a : Array) : Prop where
  ready : Ready codec s
  n_threads : s.n_threads = 0
  filesize : s.filesize = a.data.length
  position : s.currentPosition = a.position
  holds : ∀ (q : Nat) (b : UInt8), a.data[q]? = some b → Holds codec s q b
  reach : 0 < s.filesize → ∃ k, s.Known k ∧ s.filesize ≤ (k + 1) * s.blocksize

theorem Ready.settled (h : Ready codec s) (hthreads : s.n_threads = 0) : s.Settled := by
  obtain ⟨hevicted, hworking⟩ := h.sync hthreads
  refine Or.inr fun ⟨item, hmem, _⟩ => ?_
  rw [pending, hevicted, hworking] at hmem
  cases hmem

theorem Holds.unique (h : Ready codec s) {q : Nat} {b b' : UInt8} (hb : Holds codec s q b) (hb' : Holds codec s q b') : b = b' := by
  obtain ⟨data, hdata, hget⟩ := hb
  obtain ⟨data', hdata', hget'⟩ := hb'
  rw [Has.unique h.good.items h.lossless hdata hdata', hget'] at hget
  exact (Option.some.inj hget).symm

section Write

theorem Wrote.trans {t u : CompressedFile} {xs ys : Bytes} (hst : Wrote codec s t xs) (htu : Wrote codec t u ys) :
    Wrote codec s u (xs ++ ys) := by
  have hposition := hst.currentPosition
  have hlength : (xs ++ ys).length = xs.length + ys.length := List.length_append
  refine ⟨htu.ready, fun q b hq hout => ?_, fun i b hi => ?_, fun j hj => htu.known j (hst.known j hj), ?_,
    htu.blocksize.trans hst.blocksize, ?_, ?_, htu.n_threads.trans hst.n_threads, htu.readOnly.trans hst.readOnly⟩
  · exact htu.old q b (hst.old q b hq (by omega)) (by omega)
  · by_cases hfront : i < xs.length
    · rw [List.getElem?_append_left hfront] at hi
      exact htu.old _ b (hst.new i b hi) (by omega)
    · rw [List.getElem?_append_right (by omega)] at hi
      have hnew := htu.new _ b hi
      rw [hposition, Nat.add_assoc, Nat.add_sub_cancel' (by omega)] at hnew
      exact hnew
  · obtain ⟨k, hk, hle⟩ := htu.reach
    rw [hst.blocksize] at hle
    exact ⟨k, hk, by omega⟩
  · rw [htu.filesize, hst.filesize]
    omega
  · rw [htu.currentPosition, hposition, hlength, Nat.add_assoc]

end Write

section Read

theorem Represents.got {s' : CompressedFile} {a : Array} {bytes : Bytes} (h : Represents codec s a)
    (hgot : Got codec s s' bytes) : Represents codec s' ⟨a.data, a.position + bytes.length⟩ := by
  refine ⟨hgot.ready, hgot.n_threads.trans h.n_threads, hgot.filesize.trans h.filesize, ?_, fun q b hq => ?_, fun hfile => ?_⟩
  · rw [hgot.currentPosition, h.position]
  · obtain ⟨data, hdata, hget⟩ := h.holds q b hq
    unfold Holds
    rw [hgot.blocksize]
    exact ⟨data, hgot.has _ data hdata, hget⟩
  · rw [hgot.filesize] at hfile ⊢
    rw [hgot.blocksize]
    obtain ⟨k, hk, hle⟩ := h.reach hfile
    exact ⟨k, hgot.known k hk, hle⟩

end Read

section Calls

variable {a : Array}

end Calls

end CompressedFile

end urbackup.compressedfile
