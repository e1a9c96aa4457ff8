import Mathlib.Data.List.TakeWhile
import UrBackup.Glob.Amatch
import UrBackup.Glob.Wildcards

namespace urbackup.glob

open stringtools wildcards

section Spec

inductive Tok
  | star
  | colon
  | any
  | set (negate : Bool) (body : Bytes)
  | lit (c : UInt8)
  | unclosed (bare : Bool)
deriving DecidableEq

/-- What is left behind a set. -/
theorem set_shorter {p : Bytes} {d b : UInt8} {q rest : Bytes}
    (hbody : (if (decide (p.head? = some '^'.toUInt8)) = true then p.tail else p) = d :: q)
    (hrest : q.dropWhile (fun x => decide (x ≠ ']'.toUInt8)) = b :: rest) : rest.length < p.length + 1 := by
  have hdrop := (List.dropWhile_suffix (l := q) (p := fun x => decide (x ≠ ']'.toUInt8))).length_le
  rw [hrest, List.length_cons] at hdrop
  have hle : (d :: q).length ≤ p.length := by
    rw [← hbody]
    split
    · simp
    · exact Nat.le_refl _
  rw [List.length_cons] at hle
  omega

/-- The parts of a pattern. The first character of a set does not close it, and a backslash at the end stands for itself. -/
def tokens : Bytes → List Tok
  | [] => []
  | c :: p =>
    if c = '*'.toUInt8 then .star :: tokens p
    else if c = ':'.toUInt8 then .colon :: tokens p
    else if c = '?'.toUInt8 then .any :: tokens p
    else if c = '['.toUInt8 then
      let negate : Bool := p.head? = some '^'.toUInt8
      match _hbody : if negate then p.tail else p with
      | [] => [.unclosed negate]
      | d :: q =>
        match _hrest : q.dropWhile (· ≠ ']'.toUInt8) with
        | [] => [.unclosed false]
        | _ :: rest => .set negate (d :: q.takeWhile (· ≠ ']'.toUInt8)) :: tokens rest
    else if c = '\\'.toUInt8 then
      .lit (escaped p).1 :: tokens (escaped p).2
    else .lit c :: tokens p
termination_by p => p.length
decreasing_by
  · simp
  · simp
  · simp
  · exact set_shorter _hbody _hrest
  · exact Nat.lt_succ_of_le (escaped_length p)
  · simp

/-- What a set is made of. -/
inductive Item
  | char (c : UInt8)
  | range (c d : UInt8)
  | upFrom (c : UInt8)

/-- Of a range with its ends the other way round, there are only these two. -/
def Item.has (s : UInt8) : Item → Bool
  | .char c => s = c
  | .range c d => s = c ∨ s = d ∨ (less c s ∧ less s d)
  | .upFrom c => s = c ∨ less c s

/-- The characters, and the ranges, which all have an end. -/
def closedItems : Bytes → List Item
  | [] => []
  | [c] => [.char c]
  | [c, d] => [.char c, .char d]
  | c :: d :: e :: body =>
    if d = '-'.toUInt8 then .range c e :: closedItems body else .char c :: closedItems (d :: e :: body)

/-- The end of a range may be where the next one starts, and a range without end goes on to the last character. -/
def items : Bytes → List Item
  | [] => []
  | [c] => [.char c]
  | c :: d :: body =>
    if d = '-'.toUInt8 then
      match body with
      | [] => [.upFrom c]
      | e :: body => .range c e :: items (e :: body)
    else .char c :: items (d :: body)

/-- Whether a character is in a set. -/
def inSet (items : Bytes → List Item) (body : Bytes) (s : UInt8) : Bool :=
  (items body).any (Item.has s)

def Tok.language (items : Bytes → List Item) : Tok → Language UInt8
  | .star => wordsOver fun _ => True
  | .colon => wordsOver fun c => isSep c = false
  | .any => oneOf fun _ => True
  | .set negate body => oneOf fun c => inSet items body c ≠ negate
  | .lit d => oneOf fun c => c = d
  | .unclosed _ => 0

/-- The strings that a pattern stands for. -/
def patternLanguage (items : Bytes → List Item) (p : Bytes) : Language UInt8 :=
  ((tokens p).map (Tok.language items)).prod

/-- No run of wildcards that begins with a colon has a star. -/
def runsFit (run : Option Tok) : List Tok → Prop
  | [] => True
  | .star :: ts => run ≠ some .colon ∧ runsFit (run.or (some .star)) ts
  | .colon :: ts => runsFit (run.or (some .colon)) ts
  | _ :: ts => runsFit none ts

/-- A result, and what it says. -/
def Decides (result : Option Bool) (P : Prop) : Prop :=
  ∃ b, result = some b ∧ (b = true ↔ P)

end Spec

section Loops

variable {L : Language UInt8} {np : Bool} {p str : Bytes} {rest : Bytes → Option Bool}

/-- The letters that a wildcard takes. -/
def taken (np : Bool) (c : UInt8) : Prop :=
  np = false ∨ isSep c = false

theorem tryLoop_decides (hrest : ∀ str, Decides (rest str) (str ∈ L)) (hnil : [] ∉ L) :
    Decides (tryLoop np rest str) (str ∈ wordsOver (taken np) * L) := by
  induction str with
  | nil => exact ⟨false, rfl, by simpa [nil_mem_over_mul] using hnil⟩
  | cons s str ih =>
    obtain ⟨b, hb, hin⟩ := hrest (s :: str)
    unfold tryLoop
    rw [hb]
    cases b with
    | true => exact ⟨true, rfl, iff_of_true rfl (cons_mem_over_mul.mpr (Or.inl (hin.mp rfl)))⟩
    | false =>
      have hout : s :: str ∉ L := fun h => Bool.false_ne_true (hin.mpr h)
      simp only
      split
      next hsep =>
        refine ⟨false, rfl, iff_of_false Bool.false_ne_true fun h => ?_⟩
        obtain h | ⟨htaken, _⟩ := cons_mem_over_mul.mp h
        · exact hout h
        · simp [taken] at htaken hsep
          simp [hsep] at htaken
      next hsep =>
        obtain ⟨b, hb, hin⟩ := ih
        refine ⟨b, hb, hin.trans ?_⟩
        rw [cons_mem_over_mul]
        have htaken : taken np s := by
          unfold taken
          cases np <;> simp_all
        simp [hout, htaken]

/-- Characters with which the rest cannot start are left to the wildcard. -/
theorem skip_mem (hhead : ∀ w ∈ L, w.head? = p.head?) :
    skip np p str ∈ wordsOver (taken np) * L ↔ str ∈ wordsOver (taken np) * L := by
  induction str with
  | nil => rfl
  | cons s str ih =>
    unfold skip at ih ⊢
    rw [List.dropWhile_cons]
    split
    next hskip =>
      rw [ih, cons_mem_over_mul]
      simp only [Bool.and_eq_true, Bool.or_eq_true, Bool.not_eq_true', decide_eq_true_eq] at hskip
      have hout : s :: str ∉ L := fun h => hskip.2 (hhead _ h).symm
      have htaken : taken np s := hskip.1
      simp [hout, htaken]
    next => rfl

end Loops

section Sets

variable {s : UInt8} {p : Bytes}

@[simp] theorem inSet_char (c : UInt8) : inSet items [c] s = decide (s = c) := by
  simp [inSet, items, Item.has]

/-- The first character is always in the set. -/
theorem inSet_head (c : UInt8) (body : Bytes) : inSet items (c :: body) c = true := by
  cases body with
  | nil => simp
  | cons d body =>
    rw [inSet, items.eq_def]
    by_cases hd : d = '-'.toUInt8
    · cases body <;> simp [hd, Item.has]
    · simp [hd, Item.has]

theorem dropWhile_closed {q rest : Bytes} (h : ']'.toUInt8 ∉ q) :
    (q ++ ']'.toUInt8 :: rest).dropWhile (fun x => decide (x ≠ ']'.toUInt8)) = ']'.toUInt8 :: rest := by
  rw [List.dropWhile_append_of_pos]
  · simp
  · intro x hx
    exact decide_eq_true fun heq => h (heq ▸ hx)

/-- The loop over a set that is closed. -/
theorem csetLoop_closed {body rest : Bytes} (hne : body ≠ []) (hbody : ']'.toUInt8 ∉ body.tail) :
    ∃ left, csetLoop s (body ++ ']'.toUInt8 :: rest) = some (inSet items body s, left) ∧
      left.dropWhile (fun x => decide (x ≠ ']'.toUInt8)) = ']'.toUInt8 :: rest := by
  have hbracket : ¬ ']'.toUInt8 = '-'.toUInt8 := by decide
  induction body using items.induct with
  | case1 => exact absurd rfl hne
  | case2 c =>
    refine ⟨']'.toUInt8 :: rest, ?_, dropWhile_closed List.not_mem_nil⟩
    rw [List.cons_append, List.nil_append, csetLoop_pair hbracket, if_neg (not_not_intro rfl), inSet_char, decide_eq_decide.mpr eq_comm]
  | case3 c =>
    refine ⟨']'.toUInt8 :: rest, ?_, dropWhile_closed List.not_mem_nil⟩
    rw [List.cons_append, List.cons_append, List.nil_append, csetLoop, if_pos rfl, if_neg (not_not_intro rfl)]
    simp [inSet, items, Item.has]
  | case4 c e body ih =>
    have he : e ≠ ']'.toUInt8 := fun h => hbody (by simp [h])
    have hbody' : ']'.toUInt8 ∉ e :: body := fun h => hbody (List.mem_cons_of_mem _ h)
    obtain ⟨left, hloop, hleft⟩ := ih (List.cons_ne_nil _ _) fun h => hbody' (List.mem_cons_of_mem _ h)
    have hitems : inSet items (c :: '-'.toUInt8 :: e :: body) s = (Item.has s (.range c e) || inSet items (e :: body) s) := by
      simp [inSet, items]
    simp only [List.cons_append] at hloop ⊢
    rw [csetLoop, if_pos rfl, hitems]
    simp only [if_pos he]
    split
    next hrange =>
      refine ⟨e :: (body ++ ']'.toUInt8 :: rest), ?_, dropWhile_closed (q := e :: body) hbody'⟩
      rw [Item.has, decide_eq_true hrange, Bool.true_or]
    next hrange =>
      refine ⟨left, ?_, hleft⟩
      rw [Item.has, decide_eq_false hrange, Bool.false_or]
      exact hloop
  | case5 c d body hd ih =>
    have hd' : d ≠ ']'.toUInt8 := fun h => hbody (by simp [h])
    obtain ⟨left, hloop, hleft⟩ := ih (List.cons_ne_nil _ _) fun h => hbody (List.mem_cons_of_mem _ h)
    have hitems : inSet items (c :: d :: body) s = (decide (s = c) || inSet items (d :: body) s) := by
      rw [inSet, inSet, items.eq_def]
      simp [hd, Item.has]
    simp only [List.cons_append] at hloop ⊢
    rw [csetLoop_pair hd, if_pos hd', hitems]
    split
    next hpair => 
      refine ⟨d :: (body ++ ']'.toUInt8 :: rest), ?_, dropWhile_closed (q := d :: body) hbody⟩
      obtain rfl | rfl := hpair
      · rw [decide_eq_true rfl, Bool.true_or]
      · rw [inSet_head, Bool.or_true]
    next hpair =>
      refine ⟨left, ?_, hleft⟩
      rw [hloop, decide_eq_false fun h => hpair (Or.inl h.symm), Bool.false_or]

/-- A set without an end does not match. -/
theorem cset_unclosed {d : UInt8} {q : Bytes}
    (hbody : (if (decide (p.head? = some '^'.toUInt8)) = true then p.tail else p) = d :: q)
    (hrest : q.dropWhile (fun x => decide (x ≠ ']'.toUInt8)) = []) : cset s p = .failed := by
  unfold cset
  simp only [hbody, if_neg (List.cons_ne_nil d q)]
  split
  next => rfl
  next found left hloop =>
    have hleft : left.dropWhile (fun x => decide (x ≠ ']'.toUInt8)) = [] := by
      rw [List.dropWhile_eq_nil_iff] at hrest ⊢
      exact fun x hx => hrest x ((csetLoop_suffix hloop).subset hx)
    rw [hleft]
    split <;> rfl

/-- Another one does if it has the character. -/
theorem cset_closed {d b : UInt8} {q rest : Bytes}
    (hbody : (if (decide (p.head? = some '^'.toUInt8)) = true then p.tail else p) = d :: q)
    (hrest : q.dropWhile (fun x => decide (x ≠ ']'.toUInt8)) = b :: rest) :
    cset s p = if inSet items (d :: q.takeWhile fun x => decide (x ≠ ']'.toUInt8)) s ≠ decide (p.head? = some '^'.toUInt8) then
      .matched rest else .failed := by
  have hb : b = ']'.toUInt8 := by
    have hnot := List.head_dropWhile_not (fun x => decide (x ≠ ']'.toUInt8)) (l := q) (by rw [hrest]; exact List.cons_ne_nil b rest)
    simp only [hrest, List.head_cons] at hnot
    simpa using hnot
  have hsplit : q = q.takeWhile (fun x => decide (x ≠ ']'.toUInt8)) ++ ']'.toUInt8 :: rest := by
    rw [hb] at hrest
    rw [← hrest, List.takeWhile_append_dropWhile]
  have hnone : ']'.toUInt8 ∉ (d :: q.takeWhile fun x => decide (x ≠ ']'.toUInt8)).tail := fun h => by
    simpa using List.mem_takeWhile_imp h
  obtain ⟨left, hloop, hleft⟩ := @csetLoop_closed s _ rest (List.cons_ne_nil d _) hnone
  rw [List.cons_append, ← hsplit] at hloop
  unfold cset
  simp only [hbody, if_neg (List.cons_ne_nil d q), hloop, hleft]
  split
  next heq => rw [if_neg (not_not_intro heq.symm)]
  next hne => rw [if_pos (Ne.symm hne)]

end Sets

section Patterns

variable {p str : Bytes}

theorem patternLanguage_nil : patternLanguage items [] = 1 := by
  rw [patternLanguage, tokens]
  rfl

theorem language_cons {t : Tok} {q : Bytes} (h : tokens p = t :: tokens q) :
    patternLanguage items p = t.language items * patternLanguage items q := by
  rw [patternLanguage, h, List.map_cons, List.prod_cons]
  rfl

/-- A part of a pattern that stands for one character. -/
structure OneChar (p : Bytes) (t : Tok) (q : Bytes) (S : UInt8 → Prop) : Prop where
  shorter : q.length < p.length
  tokens_eq : tokens p = t :: tokens q
  language_eq : t.language items = oneOf S
  endsRun : ∀ run ts, runsFit run (t :: ts) = runsFit none ts
  good : ∀ s str, S s → amatch (s :: str) p = amatch str q
  bad : ∀ s str, ¬ S s → amatch (s :: str) p = some false

theorem amatch_set (s : UInt8) (str p : Bytes) : amatch (s :: str) ('['.toUInt8 :: p) =
    match cset s p with
    | .failed => some false
    | .behind => none
    | .matched rest => amatch str rest := by
  rw [amatch, if_neg (by decide)]
  simp only [if_neg (show ¬ '['.toUInt8 = '?'.toUInt8 by decide), if_true]
  split
  next h => simp only [h]
  next h => simp only [h]
  next h => simp only [h]

/-- What a bracket comes to. -/
theorem tokens_set (p : Bytes) : tokens ('['.toUInt8 :: p) = [.unclosed true] ∨
    (tokens ('['.toUInt8 :: p) = [.unclosed false] ∧ ∀ s str, amatch (s :: str) ('['.toUInt8 :: p) = some false) ∨
      ∃ t q S, OneChar ('['.toUInt8 :: p) t q S := by
  have htokens := tokens.eq_2 '['.toUInt8 p
  rw [if_neg (by decide), if_neg (by decide), if_neg (by decide), if_pos rfl] at htokens
  simp only at htokens
  split at htokens
  next hbody =>
    by_cases hnegate : p.head? = some '^'.toUInt8
    · exact Or.inl (by rw [htokens, decide_eq_true hnegate])
    · refine Or.inr (Or.inl ⟨by rw [htokens, decide_eq_false hnegate], fun s str => ?_⟩)
      have hcset : cset s p = .failed := by
        unfold cset
        simp only [hbody, if_true]
        exact if_neg (by simpa using hnegate)
      rw [amatch_set, hcset]
  next d q hbody =>
    split at htokens
    next hrest =>
      refine Or.inr (Or.inl ⟨htokens, fun s str => ?_⟩)
      rw [amatch_set, cset_unclosed hbody hrest]
    next b rest hrest =>
      refine Or.inr (Or.inr ⟨_, rest, _, ?_, htokens, rfl, fun _ _ => rfl, fun s str hs => ?_, fun s str hs => ?_⟩)
      · exact set_shorter hbody hrest
      · rw [amatch_set, cset_closed hbody hrest, if_pos hs]
      · rw [amatch_set, cset_closed hbody hrest, if_neg hs]

/-- What a pattern can start with, wildcards apart. -/
theorem tokens_cases {c : UInt8} (hc : isWild c = false) (p : Bytes) : tokens (c :: p) = [.unclosed true] ∨
    (tokens (c :: p) = [.unclosed false] ∧ ∀ s str, amatch (s :: str) (c :: p) = some false) ∨
      ∃ t q S, OneChar (c :: p) t q S := by
  have hstar : c ≠ '*'.toUInt8 := fun h => by simp [isWild, h] at hc
  have hcolon : c ≠ ':'.toUInt8 := fun h => by simp [isWild, h] at hc
  by_cases hany : c = '?'.toUInt8
  · refine Or.inr (Or.inr ⟨.any, p, fun _ => True, by simp, ?_, rfl, fun _ _ => rfl, ?_, fun _ _ h => absurd trivial h⟩)
    · rw [tokens, if_neg hstar, if_neg hcolon, if_pos hany]
    · intro s str _
      rw [amatch, if_neg (by simp [hc])]
      simp only [if_pos hany]
  by_cases hset : c = '['.toUInt8
  · rw [hset]
    exact tokens_set p
  by_cases hescape : c = '\\'.toUInt8
  · refine Or.inr (Or.inr ⟨.lit (escaped p).1, (escaped p).2, fun d => d = (escaped p).1, ?_, ?_, rfl, fun _ _ => rfl, ?_, ?_⟩)
    · exact Nat.lt_succ_of_le (escaped_length p)
    · rw [tokens, if_neg hstar, if_neg hcolon, if_neg hany, if_neg hset, if_pos hescape]
    · rintro s str rfl
      rw [amatch, if_neg (by simp [hc])]
      simp only [if_neg hany, if_neg hset, if_pos hescape, if_neg (not_not_intro rfl)]
    · intro s str hne
      rw [amatch, if_neg (by simp [hc])]
      simp only [if_neg hany, if_neg hset, if_pos hescape, if_pos (Ne.symm hne)]
  · refine Or.inr (Or.inr ⟨.lit c, p, fun d => d = c, by simp, ?_, rfl, fun _ _ => rfl, ?_, ?_⟩)
    · rw [tokens, if_neg hstar, if_neg hcolon, if_neg hany, if_neg hset, if_neg hescape]
    · rintro s str rfl
      rw [amatch, if_neg (by simp [hc])]
      simp only [if_neg hany, if_neg hset, if_neg hescape, if_neg (not_not_intro rfl)]
    · intro s str hne
      rw [amatch, if_neg (by simp [hc])]
      simp only [if_neg hany, if_neg hset, if_neg hescape, if_pos (Ne.symm hne)]

/-- A pattern that does not start with a wildcard needs a character. -/
theorem nil_notMem {c : UInt8} (hc : isWild c = false) (p : Bytes) : [] ∉ patternLanguage items (c :: p) := by
  obtain h | ⟨h, -⟩ | ⟨t, q, S, h⟩ := tokens_cases hc p
  · simp [patternLanguage, h, Tok.language, Language.notMem_zero]
  · simp [patternLanguage, h, Tok.language, Language.notMem_zero]
  · rw [language_cons h.tokens_eq, h.language_eq]
    exact nil_notMem_oneOf_mul

/-- What the wildcards at the start of a pattern stand for. -/
theorem run_language {np : Bool} (hfit : runsFit (some (if np then .colon else .star)) (tokens p)) :
    wordsOver (taken np) * patternLanguage items p = wordsOver (taken np) * patternLanguage items (p.dropWhile isWild) ∧
      runsFit none (tokens (p.dropWhile isWild)) ∧ ∀ t ∈ tokens (p.dropWhile isWild), t ∈ tokens p := by
  induction p with
  | nil =>
    refine ⟨rfl, ?_, fun t ht => ht⟩
    rw [List.dropWhile_nil, tokens]
    trivial
  | cons c p ih =>
    by_cases hstar : c = '*'.toUInt8
    · have htokens : tokens (c :: p) = .star :: tokens p := by rw [tokens, if_pos hstar]
      have hwild : isWild c = true := by simp [isWild, hstar]
      rw [htokens, runsFit, Option.some_or] at hfit
      obtain ⟨hrun, hfit⟩ := hfit
      have hnp : np = false := by
        cases np with
        | false => rfl
        | true => exact absurd rfl hrun
      obtain ⟨hlang, hruns, hsub⟩ := ih hfit
      rw [List.dropWhile_cons_of_pos hwild, language_cons htokens, ← mul_assoc, htokens]
      refine ⟨?_, hruns, fun t ht => List.mem_cons_of_mem _ (hsub t ht)⟩
      have habsorb : wordsOver (taken np) * wordsOver (fun _ => True) = wordsOver (taken np) := over_mul_over fun d _ => Or.inl hnp
      rw [Tok.language, habsorb]
      exact hlang
    by_cases hcolon : c = ':'.toUInt8
    · have htokens : tokens (c :: p) = .colon :: tokens p := by rw [tokens, if_neg hstar, if_pos hcolon]
      have hwild : isWild c = true := by simp [isWild, hcolon]
      rw [htokens, runsFit, Option.some_or] at hfit
      obtain ⟨hlang, hruns, hsub⟩ := ih hfit
      rw [List.dropWhile_cons_of_pos hwild, language_cons htokens, ← mul_assoc, htokens]
      refine ⟨?_, hruns, fun t ht => List.mem_cons_of_mem _ (hsub t ht)⟩
      have habsorb : wordsOver (taken np) * wordsOver (fun d => isSep d = false) = wordsOver (taken np) := over_mul_over fun d hd => Or.inr hd
      rw [Tok.language, habsorb]
      exact hlang
    · have hwild : isWild c = false := by simp [isWild, hstar, hcolon]
      rw [List.dropWhile_cons_of_neg (by simp [hwild])]
      refine ⟨rfl, ?_, fun t ht => ht⟩
      obtain h | ⟨h, -⟩ | ⟨t, q, S, h⟩ := tokens_cases hwild p
      · rw [h]
        trivial
      · rw [h]
        trivial
      · rw [h.tokens_eq, h.endsRun] at hfit ⊢
        exact hfit

/-- Where a character is looked for, all words of the rest begin with it. -/
theorem head_looksFor {p : Bytes} (hwild : ∀ c ∈ p.head?, isWild c = false) (hlook : looksFor p = true) :
    ∀ w ∈ patternLanguage items p, w.head? = p.head? := by
  intro w hw
  cases p with
  | nil =>
    rw [patternLanguage_nil, Language.mem_one] at hw
    rw [hw]
  | cons c p =>
    have hc := hwild c rfl
    simp only [looksFor, List.head?_cons, ne_eq, Option.some.injEq, decide_eq_true_eq] at hlook
    obtain ⟨hany, hset, hescape⟩ := hlook
    have hstar : c ≠ '*'.toUInt8 := fun h => by simp [isWild, h] at hc
    have hcolon : c ≠ ':'.toUInt8 := fun h => by simp [isWild, h] at hc
    have htokens : tokens (c :: p) = .lit c :: tokens p := by
      rw [tokens, if_neg hstar, if_neg hcolon, if_neg hany, if_neg hset, if_neg hescape]
    rw [language_cons htokens, Tok.language] at hw
    cases w with
    | nil => exact absurd hw nil_notMem_oneOf_mul
    | cons d w => rw [List.head?_cons, List.head?_cons, (cons_mem_oneOf_mul.mp hw).1]

/-- The first wildcard of a run. -/
theorem tokens_wild {c : UInt8} (hc : isWild c = true) (p : Bytes) :
    tokens (c :: p) = (if c = ':'.toUInt8 then Tok.colon else .star) :: tokens p := by
  unfold isWild at hc
  obtain rfl | rfl := of_decide_eq_true hc
  · rw [tokens, if_pos rfl, if_neg (by decide)]
  · rw [tokens, if_neg (by decide), if_pos rfl, if_pos rfl]

theorem wild_language (np : Bool) : Tok.language items (if np then Tok.colon else .star) = wordsOver (taken np) := by
  cases np with
  | false =>
    rw [if_neg Bool.false_ne_true, Tok.language]
    congr 1
    funext c
    simp [taken]
  | true =>
    rw [if_pos rfl, Tok.language]
    congr 1
    funext c
    simp [taken]

/-- Only the first wildcard of a run counts. -/
theorem amatch_wild {c : UInt8} (hwild : isWild c = true) (str p : Bytes) : amatch str (c :: p) =
    if !decide (c = ':'.toUInt8) && (p.dropWhile isWild).isEmpty then some true
    else
      let str := if looksFor (p.dropWhile isWild) then skip (decide (c = ':'.toUInt8)) (p.dropWhile isWild) str else str
      if decide (c = ':'.toUInt8) && (p.dropWhile isWild).isEmpty && str.isEmpty then some true
      else tryLoop (decide (c = ':'.toUInt8)) (fun str => amatch str (p.dropWhile isWild)) str := by
  rw [amatch.eq_def]
  simp only [hwild, if_true]

/-- What is done behind a run of wildcards. -/
theorem wild_decides {np : Bool} {p : Bytes} (hwild : ∀ c ∈ p.head?, isWild c = false)
    (hrest : ∀ str, Decides (amatch str p) (str ∈ patternLanguage items p)) (str : Bytes) :
    Decides (if !np && p.isEmpty then some true
      else
        let str := if looksFor p then skip np p str else str
        if np && p.isEmpty && str.isEmpty then some true else tryLoop np (fun str => amatch str p) str)
      (str ∈ wordsOver (taken np) * patternLanguage items p) := by
  cases p with
  | nil =>
    rw [patternLanguage_nil, mul_one]
    cases np with
    | false => exact ⟨true, rfl, iff_of_true rfl fun c _ => Or.inl rfl⟩
    | true =>
      have hskip := @skip_mem 1 true [] str fun w hw => by rw [Language.mem_one] at hw; rw [hw]
      rw [mul_one] at hskip
      have hlook : looksFor [] = true := by decide
      simp only [hlook, Bool.not_true, Bool.false_and, Bool.false_eq_true, if_false, if_true, List.isEmpty_nil, Bool.true_and]
      rw [← hskip]
      cases hleft : skip true [] str with
      | nil => exact ⟨true, rfl, iff_of_true rfl fun c hc => absurd hc List.not_mem_nil⟩
      | cons s left =>
        -- The skipping has stopped at a separator.
        have hsep : isSep s = true := by
          have hnot := List.head?_dropWhile_not (fun s => (!true || !isSep s) && decide (([] : Bytes).head? ≠ some s)) str
          unfold skip at hleft
          rw [hleft] at hnot
          simpa using hnot
        refine ⟨false, ?_, iff_of_false Bool.false_ne_true fun h => ?_⟩
        · simp [tryLoop, amatch, hsep]
        · obtain htaken | htaken := h s List.mem_cons_self
          · cases htaken
          · rw [hsep] at htaken
            cases htaken
  | cons d q =>
    have hd := hwild d rfl
    have hskip : (if looksFor (d :: q) then skip np (d :: q) str else str) ∈ wordsOver (taken np) * patternLanguage items (d :: q) ↔
        str ∈ wordsOver (taken np) * patternLanguage items (d :: q) := by
      split
      next hlook => exact skip_mem (head_looksFor hwild hlook)
      next => rfl
    simp only [List.isEmpty_cons, Bool.and_false, Bool.false_eq_true, if_false, Bool.false_and]
    rw [← hskip]
    exact tryLoop_decides hrest (nil_notMem hd q)

/-- The result says whether the string is in the language of the pattern. -/
theorem amatch_decides (str p : Bytes) (hruns : runsFit none (tokens p)) (hbare : Tok.unclosed true ∉ tokens p) :
    Decides (amatch str p) (str ∈ patternLanguage items p) := by
  generalize hn : p.length = n
  induction n using Nat.strongRecOn generalizing str p with
  | ind n ih =>
    cases p with
    | nil =>
      rw [amatch, patternLanguage_nil, Language.mem_one]
      exact ⟨_, rfl, List.isEmpty_iff⟩
    | cons c p =>
      by_cases hwild : isWild c = true
      · have htokens := tokens_wild hwild p
        have hfit : runsFit (some (if decide (c = ':'.toUInt8) = true then .colon else .star)) (tokens p) := by
          rw [htokens] at hruns
          simp only [decide_eq_true_eq]
          split at hruns
          next hc =>
            rw [if_pos hc]
            exact hruns
          next hc =>
            rw [if_neg hc]
            exact hruns.2
        obtain ⟨hlang, hruns', hsub⟩ := run_language hfit
        have hlen := (List.dropWhile_suffix (l := p) isWild).length_le
        have hhead : ∀ d ∈ (p.dropWhile isWild).head?, isWild d = false := by
          intro d hd
          have hnot := List.head?_dropWhile_not isWild p
          rw [Option.mem_def.mp hd] at hnot
          simpa using hnot
        have hrest : ∀ str, Decides (amatch str (p.dropWhile isWild)) (str ∈ patternLanguage items (p.dropWhile isWild)) := by
          intro str
          refine ih _ ?_ str _ hruns' (fun ht => hbare ?_) rfl
          · rw [← hn, List.length_cons]
            omega
          · rw [htokens]
            exact List.mem_cons_of_mem _ (hsub _ ht)
        have hwords : patternLanguage items (c :: p) =
            wordsOver (taken (decide (c = ':'.toUInt8))) * patternLanguage items (p.dropWhile isWild) := by
          rw [language_cons htokens, ← hlang, ← wild_language]
          simp only [decide_eq_true_eq]
        rw [amatch_wild hwild, hwords]
        exact wild_decides hhead hrest str
      · rw [Bool.not_eq_true] at hwild
        cases str with
        | nil =>
          refine ⟨false, ?_, iff_of_false Bool.false_ne_true (nil_notMem hwild p)⟩
          rw [amatch.eq_def]
          simp only [hwild, Bool.false_eq_true, if_false]
        | cons s str =>
          obtain h | ⟨h, hbad⟩ | ⟨t, q, S, h⟩ := tokens_cases hwild p
          · exact absurd (h ▸ List.mem_cons_self) hbare
          · refine ⟨false, hbad s str, iff_of_false Bool.false_ne_true ?_⟩
            simp [patternLanguage, h, Tok.language, Language.notMem_zero]
          · rw [language_cons h.tokens_eq, h.language_eq, cons_mem_oneOf_mul]
            by_cases hs : S s
            · rw [h.good s str hs]
              rw [h.tokens_eq] at hruns hbare
              obtain ⟨b, hb, hin⟩ := ih q.length (hn ▸ h.shorter) str q (h.endsRun none _ ▸ hruns)
                (fun ht => hbare (List.mem_cons_of_mem t ht)) rfl
              exact ⟨b, hb, hin.trans (and_iff_right hs).symm⟩
            · exact ⟨false, h.bad s str hs, iff_of_false Bool.false_ne_true fun hin => hs hin.1⟩

/-- A string matches a pattern just when it is in the language of the pattern. -/
theorem amatch_iff (str p : Bytes) (hruns : runsFit none (tokens p)) (hbare : Tok.unclosed true ∉ tokens p) :
    ∃ b, amatch str p = some b ∧ (b = true ↔ str ∈ patternLanguage items p) :=
  amatch_decides str p hruns hbare

theorem amatch_iff_path : ∃ b, amatch [97, 47, 99] [58, 47, 91, 98, 45, 100, 93, 42] = some b ∧
    (b = true ↔ [97, 47, 99] ∈ patternLanguage items [58, 47, 91, 98, 45, 100, 93, 42]) := by
  have htokens : tokens [58, 47, 91, 98, 45, 100, 93, 42] = [.colon, .lit 47, .set false [98, 45, 100], .star] := by
    decide +kernel
  apply amatch_iff
  · rw [htokens]
    simp [runsFit]
  · rw [htokens]
    simp

/-- A range without end goes on behind what the set names. -/
theorem amatch_openRange : ¬ ∀ str p : Bytes, amatch str p = some true ↔ str ∈ patternLanguage closedItems p := by
  intro h
  have hmatch : amatch [122] [91, 97, 45, 93] = some true := by decide +kernel
  have htokens : tokens [91, 97, 45, 93] = [.set false [97, 45]] := by decide +kernel
  have hin := (h [122] [91, 97, 45, 93]).mp hmatch
  rw [patternLanguage, htokens, List.map_singleton, List.prod_singleton, Tok.language] at hin
  obtain ⟨c, hc, hset⟩ := hin
  obtain rfl := (List.cons.inj hc).1
  exact hset (by decide)

end Patterns

end urbackup.glob
