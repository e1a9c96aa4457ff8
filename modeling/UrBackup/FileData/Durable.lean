import Mathlib.Data.List.Basic

namespace filedata

/-- What is asked of a file: a write of a kind `ω`, or that all writes before be
on the disk. -/
inductive Event (ω : Type)
  | write (w : ω)
  | sync

namespace Event

variable {ω σ : Type} (apply : ω → σ → σ)

/-- What is in the file after some events. -/
def content (start : σ) (events : List (Event ω)) : σ :=
  events.foldl (fun c e => match e with
    | .write w => apply w c
    | .sync => c) start

section Content

variable (start : σ) (events : List (Event ω))

@[simp] theorem content_nil : content apply start [] = start :=
  rfl

@[simp] theorem content_write (w : ω) : content apply start (events ++ [.write w]) = apply w (content apply start events) := by
  simp [content]

@[simp] theorem content_sync : content apply start (events ++ [.sync]) = content apply start events := by
  simp [content]

end Content

end Event

end filedata
