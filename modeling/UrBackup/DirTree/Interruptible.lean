import Mathlib.Data.List.Basic

namespace interruptible

/-- What a program has returned, and the states it has passed through, the last one
included. -/
structure Run (σ α : Type) where
  value : α
  final : σ
  passed : List σ

/-- A program that can be cut off after each of its steps. -/
def Prog (σ α : Type) : Type :=
  σ → Run σ α

variable {σ α β : Type}

namespace Prog

/-- One step, which is done as a whole or not at all. -/
def step (f : σ → α × σ) : Prog σ α :=
  fun s => ⟨(f s).1, (f s).2, [(f s).2]⟩

def modify (f : σ → σ) : Prog σ Unit :=
  step fun s => ((), f s)

/-- Looks at the state and leaves it. -/
def look (f : σ → α) : Prog σ α :=
  fun s => ⟨f s, s, []⟩

instance : Monad (Prog σ) where
  pure a := look fun _ => a
  bind m f := fun s => ⟨(f (m s).value (m s).final).value, (f (m s).value (m s).final).final,
    (m s).passed ++ (f (m s).value (m s).final).passed⟩

end Prog

open Prog

/-- Started in a state of `P`, the program is in `C` after each of its steps, and at its end
in `Q`. -/
def Holds (P : σ → Prop) (m : Prog σ α) (Q : α → σ → Prop) (C : σ → Prop) : Prop :=
  ∀ s, P s → (∀ s' ∈ (m s).passed, C s') ∧ Q (m s).value (m s).final

variable {P P' : σ → Prop} {C : σ → Prop} {Q Q' : α → σ → Prop} {R : β → σ → Prop}

theorem holds_look {f : σ → α} (h : ∀ s, P s → Q (f s) s) : Holds P (look f) Q C :=
  fun s hs => ⟨fun _ hmem => (List.not_mem_nil hmem).elim, h s hs⟩

theorem holds_pure {a : α} (h : ∀ s, P s → Q a s) : Holds P (pure a : Prog σ α) Q C :=
  holds_look h

theorem holds_step {f : σ → α × σ} (h : ∀ s, P s → C (f s).2 ∧ Q (f s).1 (f s).2) : Holds P (step f) Q C := by
  intro s hs
  refine ⟨fun s' hs' => ?_, (h s hs).2⟩
  obtain rfl := List.mem_singleton.mp hs'
  exact (h s hs).1

theorem holds_modify {f : σ → σ} {Q : Unit → σ → Prop} (h : ∀ s, P s → C (f s) ∧ Q () (f s)) : Holds P (modify f) Q C :=
  holds_step h

theorem Holds.bind {m : Prog σ α} {f : α → Prog σ β} (hm : Holds P m Q C) (hf : ∀ a, Holds (Q a) (f a) R C) : Holds P (m >>= f) R C := by
  intro s hs
  obtain ⟨hpassed, hfinal⟩ := hm s hs
  obtain ⟨hpassed', hfinal'⟩ := hf _ _ hfinal
  refine ⟨fun s' hs' => ?_, hfinal'⟩
  rcases List.mem_append.mp hs' with hmem | hmem
  · exact hpassed s' hmem
  · exact hpassed' s' hmem

theorem Holds.mono {m : Prog σ α} (h : Holds P m Q C) (hP : ∀ s, P' s → P s) (hQ : ∀ a s, Q a s → Q' a s) : Holds P' m Q' C :=
  fun s hs => ⟨(h s (hP s hs)).1, hQ _ _ (h s (hP s hs)).2⟩

theorem holds_ite {c : Prop} [Decidable c] {m m' : Prog σ α} (ht : c → Holds P m Q C) (hf : ¬ c → Holds P m' Q C) :
    Holds P (if c then m else m') Q C := by
  split
  · next h => exact ht h
  · next h => exact hf h

/-- A fact that does not depend on the state. -/
theorem holds_of_pure {p : Prop} {m : Prog σ α} (h : p → Holds P m Q C) : Holds (fun s => P s ∧ p) m Q C :=
  fun s hs => h hs.2 s hs.1

end interruptible
