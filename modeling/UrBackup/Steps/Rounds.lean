import Mathlib.Logic.Basic

namespace steps

/-- What one round of a loop comes to. -/
inductive Round (σ ρ : Type) where
  | next (s : σ)
  | done (r : ρ)

variable {σ ρ : Type} {step : σ → Round σ ρ}

/-- The loop, `none` where the fuel is used up. -/
def run (step : σ → Round σ ρ) : Nat → σ → Option ρ
  | 0, _ => none
  | fuel + 1, s =>
    match step s with
    | .done r => some r
    | .next s => run step fuel s

/-- The loop ends after finitely many rounds. -/
def Ends (step : σ → Round σ ρ) (s : σ) : Prop :=
  ∃ fuel r, run step fuel s = some r

theorem run_done {s : σ} {r : ρ} (h : step s = .done r) : run step 1 s = some r := by
  rw [run, h]

theorem run_next {s s' : σ} (h : step s = .next s') (fuel : Nat) : run step (fuel + 1) s = run step fuel s' := by
  rw [run, h]

theorem ends_done {s : σ} {r : ρ} (h : step s = .done r) : Ends step s :=
  ⟨1, r, run_done h⟩

theorem ends_next {s s' : σ} (h : step s = .next s') : Ends step s ↔ Ends step s' := by
  constructor
  · rintro ⟨fuel, r, hrun⟩
    cases fuel with
    | zero => simp [run] at hrun
    | succ fuel => exact ⟨fuel, r, run_next h fuel ▸ hrun⟩
  · rintro ⟨fuel, r, hrun⟩
    exact ⟨fuel + 1, r, (run_next h fuel).trans hrun⟩

/-- A loop whose rounds stay among some states never ends. -/
theorem not_ends_of_stays {stays : σ → Prop} (h : ∀ s, stays s → ∃ s', step s = .next s' ∧ stays s') {s : σ}
    (hs : stays s) : ¬ Ends step s := by
  rintro ⟨fuel, r, hrun⟩
  induction fuel generalizing s with
  | zero => simp [run] at hrun
  | succ fuel ih =>
    obtain ⟨s', hstep, hs'⟩ := h s hs
    exact ih hs' (run_next hstep fuel ▸ hrun)

/-- Rounds that keep an invariant and make a measure smaller come to a result. -/
theorem ends_of_measure (inv : σ → Prop) (result : ρ → Prop) (measure : σ → Nat)
    (h : ∀ s, inv s → (∃ r, step s = .done r ∧ result r) ∨ ∃ s', step s = .next s' ∧ inv s' ∧ measure s' < measure s)
    {s : σ} (hs : inv s) : ∃ fuel r, run step fuel s = some r ∧ result r := by
  generalize hm : measure s = m
  induction m using Nat.strongRecOn generalizing s with
  | ind m ih =>
    obtain ⟨r, hstep, hr⟩ | ⟨s', hstep, hs', hlt⟩ := h s hs
    · exact ⟨1, r, run_done hstep, hr⟩
    · obtain ⟨fuel, r, hrun, hr⟩ := ih _ (hm ▸ hlt) hs' rfl
      exact ⟨fuel + 1, r, (run_next hstep fuel).trans hrun, hr⟩

/-- A property that no round changes tells the states from which the loop ends, if it
tells those at which a round ends it or gets it stuck. -/
theorem ends_iff_of_measure (inv stuck fails : σ → Prop) (measure : σ → Nat)
    (hstuck : ∀ s, stuck s → ∃ s', step s = .next s' ∧ stuck s')
    (h : ∀ s, inv s → (∃ r, step s = .done r ∧ ¬ fails s) ∨ (stuck s ∧ fails s) ∨
      ∃ s', step s = .next s' ∧ inv s' ∧ (fails s' ↔ fails s) ∧ measure s' < measure s)
    {s : σ} (hs : inv s) : Ends step s ↔ ¬ fails s := by
  generalize hm : measure s = m
  induction m using Nat.strongRecOn generalizing s with
  | ind m ih =>
    obtain ⟨r, hstep, hnot⟩ | ⟨hloop, hfails⟩ | ⟨s', hstep, hs', hiff, hlt⟩ := h s hs
    · exact iff_of_true (ends_done hstep) hnot
    · exact iff_of_false (not_ends_of_stays hstuck hloop) (not_not.mpr hfails)
    · rw [ends_next hstep, ih _ (hm ▸ hlt) hs' rfl, hiff]

end steps
