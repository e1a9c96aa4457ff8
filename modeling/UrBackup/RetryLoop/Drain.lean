import Mathlib.Data.List.Nodup
import Mathlib.Data.Nat.Find
import Mathlib.Logic.Function.Basic

namespace retryloop

/-- How an attempt ends: the loop is done, the target is not tried again, or it is tried
again. -/
inductive Outcome
  | done
  | skip
  | again
  deriving DecidableEq

section Loop

variable {σ ι : Type} (target : σ → Option ι) (attempt : σ → ι → Outcome × σ)

/-- The loop that makes one attempt after the other until one is done or no target is left. -/
def drain : Nat → σ → Option (Option ι × σ)
  | 0, _ => none
  | fuel + 1, s =>
    match target s with
    | none => some (none, s)
    | some x =>
      match attempt s x with
      | (.done, s) => some (some x, s)
      | (_, s) => drain fuel s

variable {target attempt}

theorem drain_more {fuel : Nat} {s : σ} {r : Option ι × σ} (h : drain target attempt fuel s = some r) (more : Nat) :
    drain target attempt (fuel + more) s = some r := by
  induction fuel generalizing s with
  | zero => simp [drain] at h
  | succ fuel ih =>
    rw [Nat.succ_add, drain]
    rw [drain] at h
    split at h
    next => exact h
    next x =>
      split at h
      next => exact h
      next => exact ih h

theorem drain_unique {fuel fuel' : Nat} {s : σ} {r r' : Option ι × σ} (h : drain target attempt fuel s = some r)
    (h' : drain target attempt fuel' s = some r') : r = r' := by
  have hmore := drain_more h fuel'
  have hmore' := drain_more h' fuel
  rw [Nat.add_comm] at hmore'
  exact Option.some.inj (hmore.symm.trans hmore')

end Loop

section Outcomes

variable {ι : Type}

/-- The outcome of the last attempt at a target. -/
def Ends (out : ι → Nat → Outcome) (x : ι) (o : Outcome) : Prop :=
  o ≠ .again ∧ ∃ k, out x k = o ∧ ∀ j < k, out x j = .again

theorem ends_or_again (out : ι → Nat → Outcome) (x : ι) : Ends out x .done ∨ Ends out x .skip ∨ ∀ k, out x k = .again := by
  by_cases h : ∃ k, out x k ≠ .again
  · have hmin := fun j hj => not_not.mp (Nat.find_min h (m := j) hj)
    cases hout : out x (Nat.find h) with
    | done => exact .inl ⟨nofun, _, hout, hmin⟩
    | skip => exact .inr (.inl ⟨nofun, _, hout, hmin⟩)
    | again => exact absurd hout (Nat.find_spec h)
  · push Not at h
    exact .inr (.inr h)

end Outcomes

section Queue

variable {σ ι : Type} [DecidableEq ι]

/-- The targets are those of a queue: `Q L s` says that `L` is left in the state `s`. The outcome
of an attempt depends on the target and on how often it has been tried. -/
structure Serves (target : σ → Option ι) (attempt : σ → ι → Outcome × σ) (out : ι → Nat → Outcome) (tries : σ → ι → Nat)
    (Q : List ι → σ → Prop) : Prop where
  target : ∀ {L s}, Q L s → target s = L.head?
  outcome : ∀ {x L s}, Q (x :: L) s → (attempt s x).1 = out x (tries s x)
  tried : ∀ {x L s}, Q (x :: L) s → tries (attempt s x).2 = Function.update (tries s) x (tries s x + 1)
  skip : ∀ {x L s}, Q (x :: L) s → out x (tries s x) = .skip → Q L (attempt s x).2
  again : ∀ {x L s}, Q (x :: L) s → out x (tries s x) = .again → Q (x :: L) (attempt s x).2

variable {target : σ → Option ι} {attempt : σ → ι → Outcome × σ} {out : ι → Nat → Outcome} {tries : σ → ι → Nat}
  {Q : List ι → σ → Prop} {x : ι} {L : List ι} {s : σ}

section Served

variable (h : Serves target attempt out tries Q)

include h

/-- A target that is tried again and again is tried until its last attempt. -/
theorem Serves.last_attempt {k : Nat} (hagain : ∀ j < k, out x j = .again)
    (hQ : Q (x :: L) s) (hfresh : tries s x = 0) : ∃ s', Q (x :: L) s' ∧ tries s' = Function.update (tries s) x k ∧
      ∀ fuel, drain target attempt (k + fuel) s = drain target attempt fuel s' := by
  induction k with
  | zero => exact ⟨s, hQ, by rw [← hfresh, Function.update_eq_self], fun fuel => by rw [Nat.zero_add]⟩
  | succ k ih =>
    obtain ⟨s', hQ', htries, hdrain⟩ := ih fun j hj => hagain j (by omega)
    have hk : tries s' x = k := by rw [htries, Function.update_self]
    have hout : out x (tries s' x) = .again := by rw [hk]; exact hagain k (by omega)
    refine ⟨(attempt s' x).2, h.again hQ' hout, ?_, fun fuel => ?_⟩
    · rw [h.tried hQ', hk, htries, Function.update_idem]
    · rw [Nat.add_assoc, hdrain, Nat.add_comm 1, drain, h.target hQ', List.head?_cons]
      have hattempt : attempt s' x = (.again, (attempt s' x).2) := Prod.ext ((h.outcome hQ').trans hout) rfl
      dsimp only
      rw [hattempt]

theorem Serves.drain_again (hagain : ∀ k, out x k = .again) (hQ : Q (x :: L) s) (fuel : Nat) :
    drain target attempt fuel s = none := by
  induction fuel generalizing s with
  | zero => rfl
  | succ fuel ih =>
    have hattempt : attempt s x = (.again, (attempt s x).2) := Prod.ext ((h.outcome hQ).trans (hagain _)) rfl
    rw [drain, h.target hQ, List.head?_cons]
    dsimp only
    rw [hattempt]
    exact ih (h.again hQ (hagain _))

theorem Serves.drain_skip (hskip : Ends out x .skip) (hQ : Q (x :: L) s) (hfresh : tries s x = 0) :
    ∃ s' k, Q L s' ∧ (∀ y, y ≠ x → tries s' y = tries s y) ∧
      ∀ fuel, drain target attempt (k + fuel) s = drain target attempt fuel s' := by
  obtain ⟨-, k, hk, hbefore⟩ := hskip
  obtain ⟨s', hQ', htries, hdrain⟩ := h.last_attempt hbefore hQ hfresh
  have hout : out x (tries s' x) = .skip := by rwa [htries, Function.update_self]
  refine ⟨(attempt s' x).2, k + 1, h.skip hQ' hout, fun y hy => ?_, fun fuel => ?_⟩
  · rw [h.tried hQ', Function.update_of_ne hy, htries, Function.update_of_ne hy]
  · have hattempt : attempt s' x = (.skip, (attempt s' x).2) := Prod.ext ((h.outcome hQ').trans hout) rfl
    rw [Nat.add_assoc, hdrain, Nat.add_comm 1, drain, h.target hQ', List.head?_cons]
    dsimp only
    rw [hattempt]

/-- What is skipped in front of the queue. -/
theorem Serves.drain_skips {pre : List ι} (hskip : ∀ x ∈ pre, Ends out x .skip)
    (hnodup : (pre ++ L).Nodup) (hQ : Q (pre ++ L) s) (hfresh : ∀ x ∈ pre ++ L, tries s x = 0) :
    ∃ s' k, Q L s' ∧ (∀ y, y ∉ pre → tries s' y = tries s y) ∧
      ∀ fuel, drain target attempt (k + fuel) s = drain target attempt fuel s' := by
  induction pre generalizing s with
  | nil => exact ⟨s, 0, hQ, fun _ _ => rfl, fun fuel => by rw [Nat.zero_add]⟩
  | cons x pre ih =>
    obtain ⟨hx, hrest⟩ := List.nodup_cons.mp hnodup
    obtain ⟨s₁, k₁, hQ₁, htries₁, hdrain₁⟩ := h.drain_skip (hskip x List.mem_cons_self) hQ (hfresh x List.mem_cons_self)
    have hfresh₁ : ∀ y ∈ pre ++ L, tries s₁ y = 0 := fun y hy => by
      rw [htries₁ y fun hyx => hx (hyx ▸ hy)]
      exact hfresh y (List.mem_cons_of_mem _ hy)
    obtain ⟨s₂, k₂, hQ₂, htries₂, hdrain₂⟩ := ih (fun y hy => hskip y (List.mem_cons_of_mem _ hy)) hrest hQ₁ hfresh₁
    refine ⟨s₂, k₁ + k₂, hQ₂, fun y hy => ?_, fun fuel => by rw [Nat.add_assoc, hdrain₁, hdrain₂]⟩
    obtain ⟨hyx, hypre⟩ := not_or.mp (List.mem_cons.not.mp hy)
    rw [htries₂ y hypre, htries₁ y hyx]

/-- All targets are skipped. -/
theorem Serves.drain_none (hskip : ∀ x ∈ L, Ends out x .skip) (hnodup : L.Nodup) (hQ : Q L s)
    (hfresh : ∀ x ∈ L, tries s x = 0) : ∃ s' fuel, Q [] s' ∧ (∀ y, y ∉ L → tries s' y = tries s y) ∧
      drain target attempt fuel s = some (none, s') := by
  rw [← List.append_nil L] at hQ hnodup
  obtain ⟨s', k, hQ', htries, hdrain⟩ := h.drain_skips hskip hnodup hQ (by simpa using hfresh)
  exact ⟨s', k + 1, hQ', htries, by rw [hdrain, drain, h.target hQ']; rfl⟩

/-- The first target that is not skipped is done. -/
theorem Serves.drain_some {pre : List ι} (hskip : ∀ x ∈ pre, Ends out x .skip)
    (hdone : Ends out x .done) (hnodup : (pre ++ x :: L).Nodup) (hQ : Q (pre ++ x :: L) s)
    (hfresh : ∀ y ∈ pre ++ x :: L, tries s y = 0) : ∃ s' fuel, Q (x :: L) s' ∧ out x (tries s' x) = .done ∧
      drain target attempt fuel s = some (some x, (attempt s' x).2) := by
  obtain ⟨s₁, k₁, hQ₁, htries₁, hdrain₁⟩ := h.drain_skips hskip hnodup hQ hfresh
  obtain ⟨-, k, hk, hbefore⟩ := hdone
  have hx : x ∉ pre := fun hmem => List.disjoint_of_nodup_append hnodup hmem List.mem_cons_self
  obtain ⟨s₂, hQ₂, htries₂, hdrain₂⟩ := h.last_attempt hbefore hQ₁ (by rw [htries₁ x hx]; exact hfresh x (by simp))
  have hout : out x (tries s₂ x) = .done := by rwa [htries₂, Function.update_self]
  refine ⟨s₂, k₁ + (k + 1), hQ₂, hout, ?_⟩
  have hattempt : attempt s₂ x = (.done, (attempt s₂ x).2) := Prod.ext ((h.outcome hQ₂).trans hout) rfl
  rw [hdrain₁, hdrain₂, drain, h.target hQ₂, List.head?_cons]
  dsimp only
  rw [hattempt]

/-- A loop that ends has skipped all targets, or all up to one that is done. -/
theorem Serves.of_drain (hnodup : L.Nodup) (hQ : Q L s) (hfresh : ∀ x ∈ L, tries s x = 0)
    {fuel : Nat} {r : Option ι × σ} (hdrain : drain target attempt fuel s = some r) :
    (∀ x ∈ L, Ends out x .skip) ∨ ∃ pre x rest, L = pre ++ x :: rest ∧ (∀ y ∈ pre, Ends out y .skip) ∧ Ends out x .done := by
  induction L generalizing s fuel with
  | nil => exact .inl nofun
  | cons x L ih =>
    obtain hdone | hskip | hagain := ends_or_again out x
    · exact .inr ⟨[], x, L, rfl, nofun, hdone⟩
    · obtain ⟨hx, hrest⟩ := List.nodup_cons.mp hnodup
      obtain ⟨s', k, hQ', htries, hsame⟩ := h.drain_skip hskip hQ (hfresh x List.mem_cons_self)
      have hmore := drain_more hdrain k
      rw [Nat.add_comm, hsame] at hmore
      have hfresh' : ∀ y ∈ L, tries s' y = 0 := fun y hy => by
        rw [htries y fun hyx => hx (hyx ▸ hy)]
        exact hfresh y (List.mem_cons_of_mem _ hy)
      obtain hall | ⟨pre, y, rest, rfl, hpre, hdone⟩ := ih hrest hQ' hfresh' hmore
      · exact .inl (List.forall_mem_cons.mpr ⟨hskip, hall⟩)
      · exact .inr ⟨x :: pre, y, rest, rfl, List.forall_mem_cons.mpr ⟨hskip, hpre⟩, hdone⟩
    · rw [h.drain_again hagain hQ] at hdrain
      cases hdrain

end Served

end Queue

end retryloop
