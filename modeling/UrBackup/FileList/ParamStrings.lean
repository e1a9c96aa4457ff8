import UrBackup.FileList.ListWalk

namespace urbackup.stringtools

open filelist

section Unescape

theorem UnescapeParamString_cons {ch : UInt8} (h : ch ≠ 37) (rest : Bytes) :
    UnescapeParamString (ch :: rest) = ch :: UnescapeParamString rest := by
  rw [UnescapeParamString]
  intro h1 h2 rest' heq
  exact absurd heq h

theorem UnescapeParamString_escapeParamChar (ch : UInt8) (rest : Bytes) :
    UnescapeParamString (escapeParamChar ch ++ rest) = ch :: UnescapeParamString rest := by
  unfold escapeParamChar
  repeat' split
  all_goals (try subst_vars)
  all_goals try rfl
  exact UnescapeParamString_cons ‹_› rest

theorem UnescapeParamString_escapePathParamChar (ch : UInt8) (rest : Bytes) :
    UnescapeParamString (escapePathParamChar ch ++ rest) = ch :: UnescapeParamString rest := by
  unfold escapePathParamChar
  repeat' split
  all_goals (try subst_vars)
  all_goals try rfl
  exact UnescapeParamString_cons ‹_› rest

/-- An escape of single bytes that is undone byte by byte is undone on strings. -/
theorem UnescapeParamString_flatMap {escape : UInt8 → Bytes}
    (h : ∀ ch rest, UnescapeParamString (escape ch ++ rest) = ch :: UnescapeParamString rest) (pStr : Bytes) :
    UnescapeParamString (pStr.flatMap escape) = pStr := by
  induction pStr with
  | nil => rfl
  | cons ch pStr ih => rw [List.flatMap_cons, h, ih]

end Unescape

section Parse

/-- A key and its escaped value. -/
def paramText (p : Bytes × Bytes) : Bytes :=
  p.1 ++ 61 :: EscapeParamString p.2

/-- Keys and escaped values, joined with `=` and `&`. -/
def paramStr (params : List (Bytes × Bytes)) : Bytes :=
  List.intercalate [38] (params.map paramText)

def paramMap (params : List (Bytes × Bytes)) : StrMap := fun key =>
  (params.find? (·.1 = key)).map Prod.snd

/-- Distinct keys without the bytes that end a key or a value. -/
structure Keys (params : List (Bytes × Bytes)) : Prop where
  distinct : (params.map Prod.fst).Nodup
  plain : ∀ p ∈ params, 61 ∉ p.1 ∧ 38 ∉ p.1 ∧ 36 ∉ p.1

/-- The state behind a key and its value. -/
def inParam (p : Bytes × Bytes) (map : StrMap) : ParamState :=
  ⟨p.1, EscapeParamString p.2, true, map⟩

theorem parse_paramText {p : Bytes × Bytes} (hkey : 61 ∉ p.1) (map : StrMap) :
    (paramText p).foldl (parseParamChar false) ⟨[], [], false, map⟩ = inParam p map := by
  have hvalue : ∀ ch ∈ EscapeParamString p.2, ch ≠ 38 ∧ ch ≠ 36 := fun ch h =>
    ⟨(notMem_EscapeParamString h).1, (notMem_EscapeParamString h).2.1⟩
  simp only [paramText, List.foldl_append, List.foldl_cons, parseParam_key map hkey]
  simpa [parseParamChar, inParam] using parseParam_value p.1 map hvalue []

theorem insert_inParam (p : Bytes × Bytes) (map : StrMap) :
    (inParam p map).insert false = insertParam map p.1 p.2 := by
  simp [inParam, ParamState.insert, htmldecode_EscapeParamString]

/-- All parameters but the last one are inserted where the next one begins. -/
theorem parse_paramStr (ps : List (Bytes × Bytes)) : ∀ (p : Bytes × Bytes) (map : StrMap),
    (∀ q ∈ p :: ps, 61 ∉ q.1) →
      (paramStr (p :: ps)).foldl (parseParamChar false) ⟨[], [], false, map⟩ =
        inParam ((p :: ps).getLast (List.cons_ne_nil _ _))
          ((p :: ps).dropLast.foldl (fun map q => insertParam map q.1 q.2) map) := by
  induction ps with
  | nil =>
    intro p map hkeys
    simpa [paramStr] using parse_paramText (hkeys p List.mem_cons_self) map
  | cons q ps ih =>
    intro p map hkeys
    have hsplit : paramStr (p :: q :: ps) = paramText p ++ 38 :: paramStr (q :: ps) := by
      simp [paramStr, List.intercalate]
    have hnext : parseParamChar false (inParam p map) 38 = ⟨[], [], false, insertParam map p.1 p.2⟩ := by
      rw [← insert_inParam]
      rfl
    rw [hsplit, List.foldl_append, parse_paramText (hkeys p List.mem_cons_self), List.foldl_cons, hnext,
      ih q _ fun r hr => hkeys r (List.mem_cons_of_mem _ hr)]
    simp

/-- What is behind the last separator is left out where it is empty. -/
theorem ParseParamStrHttp_paramStr (p : Bytes × Bytes) (ps : List (Bytes × Bytes)) (hkeys : ∀ q ∈ p :: ps, 61 ∉ q.1)
    (map : StrMap) :
    ParseParamStrHttp (paramStr (p :: ps)) map false =
      if (p :: ps).getLast (List.cons_ne_nil _ _) = ([], []) then
        (p :: ps).dropLast.foldl (fun map q => insertParam map q.1 q.2) map
      else (p :: ps).foldl (fun map q => insertParam map q.1 q.2) map := by
  have hlast := List.dropLast_append_getLast (List.cons_ne_nil p ps)
  have hescape : ∀ v : Bytes, EscapeParamString v = [] ↔ v = [] := by
    intro v
    constructor
    · intro h
      rw [← htmldecode_EscapeParamString v, h]
      rfl
    · rintro rfl
      rfl
  unfold ParseParamStrHttp
  simp only [parse_paramStr ps p map hkeys, insert_inParam]
  generalize (p :: ps).getLast _ = last at hlast ⊢
  obtain ⟨key, value⟩ := last
  simp only [inParam, ne_eq, hescape]
  by_cases hempty : (key, value) = (([], []) : Bytes × Bytes)
  · obtain ⟨rfl, rfl⟩ := Prod.mk.inj hempty
    simp
  · rw [if_neg hempty, if_pos (by grind)]
    conv_rhs => rw [← hlast, List.foldl_concat]

theorem paramMap_dropLast {params : List (Bytes × Bytes)} (hd : (params.map Prod.fst).Nodup)
    (hlast : params.getLast? = some ([], [])) : paramMap params.dropLast [] = none ∧ paramMap params [] = some [] := by
  obtain ⟨before, rfl⟩ := List.getLast?_eq_some_iff.mp hlast
  rw [List.map_append, List.map_singleton, List.nodup_append] at hd
  have hfree : before.find? (fun q => decide (q.1 = [])) = none := by
    rw [List.find?_eq_none]
    intro q hq
    simpa using hd.2.2 q.1 (List.mem_map_of_mem hq) [] (by simp)
  simp [paramMap, hfree]

/-- The parameters are read back, but for a last one with neither key nor value, and
both ways to escape a string are undone. -/
theorem ParseParamStrHttp_paramStr_iff :
    (∀ params : List (Bytes × Bytes), Keys params →
      (ParseParamStrHttp (paramStr params) (fun _ => none) false = paramMap params ↔
        params.getLast? ≠ some ([], []))) ∧
      ∀ pStr : Bytes, UnescapeParamString (EscapeParamString pStr) = pStr ∧
        UnescapeParamString (EscapePathParamString pStr) = pStr := by
  refine ⟨fun params hkeys => ?_, fun pStr => ⟨?_, ?_⟩⟩
  · have hread : ∀ ps : List (Bytes × Bytes), (ps.map Prod.fst).Nodup →
        ps.foldl (fun map q => insertParam map q.1 q.2) (fun _ => none) = paramMap ps := by
      intro ps hd
      funext key
      rw [foldl_insertParam Prod.fst Prod.snd ps hd _ key fun _ _ => rfl, Option.or_none, paramMap]
    cases params with
    | nil =>
      simp only [List.getLast?_nil, ne_eq, reduceCtorEq, not_false_eq_true, iff_true]
      rfl
    | cons p ps =>
      rw [ParseParamStrHttp_paramStr p ps (fun q hq => (hkeys.plain q hq).1),
        hread _ (hkeys.distinct.sublist ((List.dropLast_sublist _).map _)), hread _ hkeys.distinct]
      split
      · next hlast =>
        have hlast' : (p :: ps).getLast? = some ([], []) := by rw [List.getLast?_eq_some_getLast (by simp), hlast]
        obtain ⟨hnone, hsome⟩ := paramMap_dropLast hkeys.distinct hlast'
        refine iff_of_false (fun heq => ?_) (fun hne => hne hlast')
        rw [heq, hsome] at hnone
        cases hnone
      · next hlast =>
        refine iff_of_true rfl fun heq => hlast ?_
        rwa [List.getLast?_eq_some_getLast (by simp), Option.some.injEq] at heq
  · exact UnescapeParamString_flatMap UnescapeParamString_escapeParamChar pStr
  · exact UnescapeParamString_flatMap UnescapeParamString_escapePathParamChar pStr

theorem ParseParamStrHttp_paramStr_quoted :
    ParseParamStrHttp (paramStr [([97], [38, 37, 0]), ([], [43])]) (fun _ => none) false =
      paramMap [([97], [38, 37, 0]), ([], [43])] :=
  (ParseParamStrHttp_paramStr_iff.1 _ ⟨by decide, by decide⟩).mpr (by decide)

/-- The string `=` holds no parameter. -/
theorem not_ParseParamStrHttp_paramStr : ¬ ∀ params : List (Bytes × Bytes), Keys params →
    ParseParamStrHttp (paramStr params) (fun _ => none) false = paramMap params := by
  intro h
  have hone := congrFun (h [([], [])] ⟨by decide, by decide⟩) []
  cases hone

end Parse

end urbackup.stringtools
