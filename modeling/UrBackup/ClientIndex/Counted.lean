import Mathlib.Logic.Relation
import UrBackup.ClientIndex.Walk

namespace urbackup.clientindex

open stringtools filedata

section Stack

variable (cfg : Settings) (before : Bytes) (n : Nat)

/-- The directories that have been begun, the last one first: each goes back to where the list
has been before it. -/
inductive Noted : List Item → List SRecurParams → Prop
  | nil {items : List Item} : Noted items []
  | waiting {items : List Item} {params : SRecurParams} {below : List SRecurParams} :
      params.state ≠ .leave → Noted items below → Noted items (params :: below)
  | begun {items pre : List Item} {params : SRecurParams} {below : List SRecurParams} :
      pre <+: items → params.recur_ret.pos = (before ++ listText cfg n pre).length → params.recur_ret.file_id_backup = n + pre.length →
        Noted pre below → Noted items (params :: below)

/-- Between two rounds of the loop: the list holds as many items as `file_id` counts, and going
back keeps it so. -/
structure Counted (ix : Index) (items : List Item) : Prop where
  list : At ix (before ++ listText cfg n items) (n + items.length)
  stack : Noted cfg before n items ix.params_stack.reverse

end Stack

section Lemmas

variable {cfg : Settings} {p : Patterns} {before : Bytes} {n : Nat} {items items' : List Item} {stack : List SRecurParams}

theorem Noted.mono (h : Noted cfg before n items stack) (hle : items <+: items') : Noted cfg before n items' stack := by
  induction h with
  | nil => exact .nil
  | waiting hstate _ ih => exact .waiting hstate (ih hle)
  | begun hpre hpos hid hbelow _ => exact .begun (hpre.trans hle) hpos hid hbelow

theorem noted_pushed {orig_dir named_path : Bytes} {parent_idx : Nat} (files : List FileTree) (h : Noted cfg before n items stack) :
    Noted cfg before n items (pushed cfg p orig_dir named_path parent_idx files ++ stack) := by
  rw [pushed]
  generalize files.filter (fun t => entersDir cfg p orig_dir named_path t.file) = ts
  induction ts with
  | nil => exact h
  | cons t ts ih => exact .waiting (by simp [frame]) ih

/-- What a directory goes back by. -/
def back (params : SRecurParams) : RecurState × Nat × Nat :=
  (params.state, params.recur_ret.pos, params.recur_ret.file_id_backup)

theorem Noted.congr {stack' : List SRecurParams} (h : Noted cfg before n items stack) (hback : stack'.map back = stack.map back) :
    Noted cfg before n items stack' := by
  induction h generalizing stack' with
  | nil =>
    rw [List.map_eq_nil_iff.mp hback]
    exact .nil
  | waiting hstate _ ih =>
    obtain ⟨params, below, rfl, hparams, hbelow⟩ := List.map_eq_cons_iff.mp hback
    have heq := congrArg (·.1) hparams
    exact .waiting (fun h => hstate (heq.symm.trans h)) (ih hbelow)
  | begun hpre hpos hid _ ih =>
    obtain ⟨params, below, rfl, hparams, hbelow⟩ := List.map_eq_cons_iff.mp hback
    exact .begun hpre ((congrArg (·.2.1) hparams).trans hpos) ((congrArg (·.2.2) hparams).trans hid) (ih hbelow)

theorem map_modify {α β : Type} {f : α → α} {g : α → β} (h : ∀ x, g (f x) = g x) (xs : List α) (i : Nat) :
    (xs.modify i f).map g = xs.map g := by
  induction xs generalizing i with
  | nil => simp
  | cons x xs ih =>
    cases i with
    | zero => simp [h]
    | succ i => simp [ih]

theorem dropLast_modify {α : Type} (xs : List α) (x : α) (f : α → α) (i : Nat) : ((xs ++ [x]).modify i f).dropLast = xs.modify i f := by
  induction xs generalizing i with
  | nil => cases i <;> simp
  | cons y xs ih =>
    cases i with
    | zero => exact @List.dropLast_concat _ (f y :: xs) _
    | succ i => simp [← ih, List.dropLast_cons_of_ne_nil]

end Lemmas

section Steps

variable {cfg : Settings} {p : Patterns} {before : Bytes} {n : Nat} {ix ix' : Index} {items : List Item} {below : List SRecurParams}
  {params : SRecurParams}

theorem counted_enter (h : Counted cfg before n ix items) (hstack : ix.params_stack = below ++ [params]) (hstate : params.state = .enter)
    (hbelow : Noted cfg before n items below.reverse) (hstep : step cfg p ix = some ix') : ∃ items', Counted cfg before n ix' items' := by
  obtain ⟨f, files, hfile⟩ : ∃ f files, params.file = .node f files := by
    cases params.file
    exact ⟨_, _, rfl⟩
  cases hlink : f.issym && cfg.with_proper_symlinks with
  | true =>
    obtain ⟨ix₁, hstep₁, hat, hstack₁⟩ := enter_link hstack hstate hfile hlink h.list
    obtain rfl := Option.some.inj (hstep₁.symm.trans hstep)
    refine ⟨items ++ [.dir f], ⟨?_, ?_⟩⟩
    · rw [listText_append, List.length_append, ← List.append_assoc, ← Nat.add_assoc]
      exact hat
    · rw [hstack₁, List.reverse_append]
      exact .begun (List.prefix_append _ _) rfl rfl hbelow
  | false =>
    obtain ⟨ix₁, hstep₁, hat, hstack₁⟩ := enter_dir hstack hstate hfile hlink h.list
    obtain rfl := Option.some.inj (hstep₁.symm.trans hstep)
    refine ⟨items ++ .dir f :: fileItems cfg p (subPath params.orig_dir f.name) (subPath params.named_path f.name) files, ⟨?_, ?_⟩⟩
    · rw [listText_append, List.length_append, List.length_cons, ← List.append_assoc, Nat.add_comm _ 1, ← Nat.add_assoc, ← Nat.add_assoc]
      exact hat
    · have hnoted := @Noted.begun _ _ _ _ _ { params with
          state := .leave
          recur_ret := ⟨decide (fileItems cfg p (subPath params.orig_dir f.name) (subPath params.named_path f.name) files ≠ []) ||
              (cfg.dir_recurse && includesDir cfg p (subPath params.orig_dir f.name) (subPath params.named_path f.name) files),
            (before ++ listText cfg n items).length, n + items.length⟩ } _
        (List.prefix_append items (.dir f :: fileItems cfg p (subPath params.orig_dir f.name) (subPath params.named_path f.name) files))
        rfl rfl hbelow
      rw [hstack₁, List.reverse_append, List.reverse_cons, List.append_assoc, List.singleton_append]
      by_cases hrecurse : cfg.dir_recurse = true
      · rw [if_pos hrecurse, List.reverse_reverse]
        exact noted_pushed files hnoted
      · rw [if_neg hrecurse]
        exact hnoted

theorem initialCheckRecur2_back (hstack : ix.params_stack = below ++ [params]) :
    (initialCheckRecur2 cfg ix params).params_stack.dropLast.map back = below.map back := by
  have hkeep : (writeItem ix (upText cfg)).params_stack = below ++ [params] := hstack
  rw [initialCheckRecur2]
  split
  · split
    · simp [hkeep]
    · simp [hkeep]
  · split
    · rw [Index.setRet, hkeep, dropLast_modify, map_modify]
      exact fun _ => rfl
    · simp [hkeep]

theorem counted_leave (h : Counted cfg before n ix items) (hstack : ix.params_stack = below ++ [params]) (hstate : params.state = .leave)
    (hstep : step cfg p ix = some ix') : ∃ items', Counted cfg before n ix' items' := by
  have hnoted := h.stack
  rw [hstack, List.reverse_append, List.reverse_singleton, List.singleton_append] at hnoted
  obtain _ | ⟨hwaiting, -⟩ | ⟨hpre, hpos, hid, hbelow⟩ := hnoted
  · contradiction
  rename_i pre
  have hwrite : At (writeItem ix (upText cfg)) (before ++ listText cfg n (items ++ [Item.up])) (n + (items ++ [Item.up]).length) := by
    rw [listText_append, List.length_append, ← List.append_assoc, ← Nat.add_assoc]
    exact h.list.writeItem_text .up
  have hleave : ix' = { initialCheckRecur2 cfg ix params with params_stack := (initialCheckRecur2 cfg ix params).params_stack.dropLast } := by
    rw [step, step_back hstack, Option.map_some] at hstep
    simp only [hstate] at hstep
    exact (Option.some.inj hstep).symm
  have hback : ix'.params_stack.reverse.map back = below.reverse.map back := by
    rw [hleave, List.map_reverse, List.map_reverse, initialCheckRecur2_back hstack]
  by_cases hdropped : params.recur_ret.has_include = false ∧ params.curr_included = false
  · obtain ⟨rest, rfl⟩ := hpre
    refine ⟨pre, ⟨?_, hbelow.congr hback⟩⟩
    rw [List.append_assoc, listText_append, ← List.append_assoc] at hwrite
    rw [hleave, initialCheckRecur2, hdropped.1, hdropped.2, hpos, hid]
    exact hwrite.seek _ _
  · refine ⟨items ++ [.up], ⟨?_, (hbelow.mono (hpre.trans (List.prefix_append _ _))).congr hback⟩⟩
    have hkept : (initialCheckRecur2 cfg ix params).outfile = (writeItem ix (upText cfg)).outfile ∧
        (initialCheckRecur2 cfg ix params).file_id = (writeItem ix (upText cfg)).file_id := by
      rw [initialCheckRecur2]
      cases hinclude : params.recur_ret.has_include <;> cases hincluded : params.curr_included <;> cases params.parent_idx <;>
        simp_all [Index.setRet]
    rw [hleave]
    exact ⟨by rw [hkept.1]; exact hwrite.list, by rw [hkept.1]; exact hwrite.pos_le, by rw [hkept.2]; exact hwrite.file_id⟩

theorem counted_step (h : Counted cfg before n ix items) (hstep : step cfg p ix = some ix') : ∃ items', Counted cfg before n ix' items' := by
  obtain hnil | ⟨below, params, hstack⟩ := List.eq_nil_or_concat ix.params_stack
  · simp [step, Index.back?, hnil] at hstep
  rw [List.concat_eq_append] at hstack
  have hbelow : params.state ≠ .leave → Noted cfg before n items below.reverse := by
    intro hstate
    have hnoted := h.stack
    rw [hstack, List.reverse_append, List.reverse_singleton, List.singleton_append] at hnoted
    obtain _ | ⟨_, hbelow⟩ | ⟨hpre, _, _, hbelow⟩ := hnoted
    · exact hbelow
    · exact hbelow.mono hpre
  cases hstate : params.state with
  | enter => exact counted_enter h hstack hstate (hbelow (by simp [hstate])) hstep
  | leave => exact counted_leave h hstack hstate hstep
  | first =>
    rw [step, step_back hstack, Option.map_some] at hstep
    simp only [hstate, hstack, List.dropLast_concat, Option.some.injEq] at hstep
    subst hstep
    exact ⟨items, h.list.stack _, hbelow (by simp [hstate])⟩

/-- The rounds of the loop. -/
abbrev Rounds (cfg : Settings) (p : Patterns) : Index → Index → Prop :=
  Relation.ReflTransGen fun ix ix' => step cfg p ix = some ix'

theorem counted_rounds (hrounds : Rounds cfg p ix ix') (h : Counted cfg before n ix items) : ∃ items', Counted cfg before n ix' items' := by
  induction hrounds with
  | refl => exact ⟨items, h⟩
  | tail _ hstep ih =>
    obtain ⟨items, h⟩ := ih
    exact counted_step h hstep

end Steps

end urbackup.clientindex
