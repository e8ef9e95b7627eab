import Pillar.Psl.Parser

/-!
# What stops the parser

The parser takes its slices between offsets that separate searches find, and multiplies numbers by
units. It stops at the first part that it refuses, so only what comes before counts.

* `faults_parse_iff` — **the parser faults at a select item with crossed brackets or at a duration
  that overflows, if it gets there**.
-/

namespace Pillar.Psl

open Lib.Utf8

variable {α β : Type}

/-! ## Faults -/

def Faults (x : Except Stop α) : Prop := ∃ f, x = .error (.fault f)

@[simp] theorem not_faults_ok (x : α) : ¬ Faults (.ok x) := by rintro ⟨f, hf⟩; cases hf

@[simp] theorem not_faults_pure (x : α) : ¬ Faults (pure x) := not_faults_ok x

@[simp] theorem not_faults_fail (message : Text) : ¬ Faults (fail message : Except Stop α) := by
  rintro ⟨f, hf⟩
  cases hf

@[simp] theorem faults_error_iff {e : Stop} :
    Faults (.error e : Except Stop α) ↔ ∃ f, e = .fault f := by
  simp [Faults]

variable {x : Except Stop α} {g : α → Except Stop β}

/-- **Faults of two computations in a row.** -/
theorem faults_bind_iff : Faults (x >>= g) ↔ Faults x ∨ ∃ a, x = .ok a ∧ Faults (g a) := by
  cases x with
  | error e => simp [Faults]
  | ok a => simp

theorem faults_bind_iff_left (hg : ∀ a, ¬ Faults (g a)) : Faults (x >>= g) ↔ Faults x := by
  simp [faults_bind_iff, hg]

theorem faults_bind_iff_right (hx : ¬ Faults x) :
    Faults (x >>= g) ↔ ∃ a, x = .ok a ∧ Faults (g a) := by
  simp [faults_bind_iff, hx]

@[simp] theorem faults_map_iff (f : α → β) : Faults (f <$> x) ↔ Faults x := by
  cases x <;> simp [Faults]

@[simp] theorem isOk_ok (a : α) : (.ok a : Except Stop α).isOk = true := rfl

@[simp] theorem isOk_error (e : Stop) : (.error e : Except Stop α).isOk = false := rfl

/-- What a loop looks at: everything up to the first that it does not get past. -/
def upTo (passes : Text → Bool) : List Text → List Text
  | [] => []
  | item :: items => if passes item then item :: upTo passes items else [item]

theorem exists_mem_upTo_cons {passes : Text → Bool} {P : Text → Prop} {item : Text}
    {items : List Text} :
    (∃ i ∈ upTo passes (item :: items), P i) ↔
      P item ∨ passes item = true ∧ ∃ i ∈ upTo passes items, P i := by
  rw [upTo]
  split_ifs with h <;> simp [h]

/-! ## Durations -/

def Overflows (d : Text) : Prop :=
  ∃ num ∈ parseU64 ((trim isWhitespace d).takeWhile Char.isDigit),
    ∃ mult ∈ unitSeconds ((trim isWhitespace d).dropWhile Char.isDigit),
      2 ^ 64 ≤ num.toNat * mult.toNat

instance (d : Text) : Decidable (Overflows d) :=
  inferInstanceAs (Decidable (∃ num ∈ _, ∃ mult ∈ _, _))

theorem faults_checkedMul_iff {a b : UInt64} :
    Faults (checkedMul a b) ↔ 2 ^ 64 ≤ a.toNat * b.toNat := by
  rw [checkedMul]
  split_ifs with h
  · simpa using h
  · exact iff_of_true ⟨_, rfl⟩ (Nat.not_lt.1 h)

theorem faults_parseDurationSeconds_iff {d : Text} :
    Faults (parseDurationSeconds d) ↔ Overflows d := by
  cases hfind : find (fun c => !c.isDigit) (trim isWhitespace d) with
  | none =>
    have hdigits : (trim isWhitespace d).dropWhile Char.isDigit = [] := by
      simpa [find_eq_none_iff, List.dropWhile_eq_nil_iff] using hfind
    simp [parseDurationSeconds, hfind, Overflows, hdigits, unitSeconds, lit]
  | some unitStart =>
    obtain ⟨num, x, unit, hd, -, hx, hdigits⟩ := exists_of_find_eq_some hfind
    simp only [Bool.not_eq_true', Bool.not_eq_false'] at hx hdigits
    have htake : (trim isWhitespace d).takeWhile Char.isDigit = num := by
      rw [hd, List.takeWhile_append_of_pos hdigits, List.takeWhile_cons_of_neg (by simp [hx]),
        List.append_nil]
    have hdrop : (trim isWhitespace d).dropWhile Char.isDigit = x :: unit := by
      rw [hd, List.dropWhile_append_of_pos hdigits, List.dropWhile_cons_of_neg (by simp [hx])]
    rw [parseDurationSeconds_eq hd hdigits hx, Overflows, htake, hdrop]
    cases parseU64 num with
    | none => simp
    | some n =>
      cases unitSeconds (x :: unit) with
      | none => simp
      | some mult => simp [faults_checkedMul_iff]

/-! ## Predicates and select items -/

theorem not_faults_splitPredicate (item : Text) : ¬ Faults (splitPredicate item) := by
  cases hmatching : item.dropInfix? (lit "=~") with
  | some parts =>
    rw [splitPredicate_matching hmatching]
    exact not_faults_ok _
  | none =>
    cases heq : find (· = '=') item with
    | some pos =>
      obtain ⟨key, x, value, rfl, -, hx, hkey⟩ := exists_of_find_eq_some heq
      obtain rfl : x = '=' := by simpa using hx
      rw [splitPredicate_eq hmatching fun h => by simpa using hkey _ h]
      exact not_faults_ok _
    | none => simp [splitPredicate, findText, hmatching, heq]

theorem not_faults_parsePredicate (item : Text) : ¬ Faults (parsePredicate item) := by
  rw [parsePredicate, faults_bind_iff_right (not_faults_splitPredicate item)]
  rintro ⟨⟨key, value, op⟩, -, hfaults⟩
  dsimp only at hfaults
  split_ifs at hfaults
  · exact not_faults_fail _ hfaults
  · exact not_faults_pure _ hfaults

/-- **A loop over items faults at the first that it does not get past.** -/
theorem faults_parseItems_iff {parseItem : Text → Except Stop α} {items : List Text} :
    Faults (parseItems parseItem items) ↔
      ∃ item ∈ upTo (fun item => (parseItems parseItem [item]).isOk) items,
        trim isWhitespace item ≠ [] ∧ Faults (parseItem (trim isWhitespace item)) := by
  induction items with
  | nil => simp [parseItems, upTo]
  | cons item items ih =>
    rw [exists_mem_upTo_cons, ← ih]
    by_cases hempty : trim isWhitespace item = []
    · simp [parseItems, hempty]
    · cases hitem : parseItem (trim isWhitespace item) with
      | error e => simp [parseItems, hempty, hitem]
      | ok first => simp [parseItems, hempty, hitem]

theorem not_faults_parsePredicates (body : Text) : ¬ Faults (parsePredicates body) := by
  rw [parsePredicates]
  split_ifs
  · exact not_faults_ok _
  · rw [splitTopLevel_comma, ok_bind, faults_parseItems_iff]
    rintro ⟨item, -, -, hfaults⟩
    exact not_faults_parsePredicate _ hfaults

theorem not_faults_kindFromName (name : Text) : ¬ Faults (kindFromName name) := by
  rw [kindFromName]
  split_ifs <;> simp

def Crossed (item : Text) : Prop := '(' ∈ item ∧ ')' ∈ item ∧ ¬ ['(', ')'].Sublist item

instance (item : Text) : Decidable (Crossed item) := inferInstanceAs (Decidable (_ ∧ _ ∧ _))

theorem brackets_cases {before after before' after' : Text}
    (h : before ++ '(' :: after = before' ++ ')' :: after') :
    (∃ inner, before' = before ++ '(' :: inner) ∨ ∃ inner, before = before' ++ ')' :: inner := by
  rcases List.append_eq_append_iff.1 h with ⟨t, hbefore, ht⟩ | ⟨t, hbefore, ht⟩
  · cases t with
    | nil => simp at ht
    | cons x inner =>
      obtain ⟨rfl, -⟩ := List.cons.inj ht
      exact .inl ⟨inner, hbefore⟩
  · cases t with
    | nil => simp at ht
    | cons x inner =>
      obtain ⟨rfl, -⟩ := List.cons.inj ht
      exact .inr ⟨inner, hbefore⟩

theorem crossed_of_before {before inner after : Text} (hfirst : '(' ∉ before ++ ')' :: inner)
    (hlast : ')' ∉ after) : Crossed ((before ++ ')' :: inner) ++ '(' :: after) := by
  refine ⟨by simp, by simp, fun hsub => ?_⟩
  -- the `(` is the first one, so the `)` comes after it
  obtain ⟨s, t, hst, hs, ht⟩ := List.sublist_append_iff.1 hsub
  cases s with
  | cons x s =>
    obtain ⟨rfl, -⟩ := List.cons.inj hst
    exact hfirst (hs.subset List.mem_cons_self)
  | nil =>
    obtain rfl : ['(', ')'] = t := hst
    exact hlast ((List.cons_sublist_cons.1 ht).subset List.mem_cons_self)

/-- **A select item faults if its last `)` comes before its first `(`.** -/
theorem faults_parseSelect_iff {item : Text} : Faults (parseSelect item) ↔ Crossed item := by
  cases hopen : find (· = '(') item with
  | none =>
    have hno : '(' ∉ item := fun h => by simpa using find_eq_none_iff.1 hopen _ h
    refine iff_of_false ?_ fun hcrossed => hno hcrossed.1
    simp only [parseSelect, hopen]
    rw [faults_bind_iff_left fun _ => not_faults_pure _]
    exact not_faults_kindFromName item
  | some opening =>
    obtain ⟨name, x, after, rfl, rfl, hx, hname⟩ := exists_of_find_eq_some hopen
    obtain rfl : x = '(' := by simpa using hx
    cases hclose : rfind (· = ')') (name ++ '(' :: after) with
    | none =>
      have hno : ')' ∉ name ++ '(' :: after := fun h => by
        simpa using rfind_eq_none_iff.1 hclose _ h
      simp [parseSelect, hopen, hclose, sliceTo_size, Crossed, hno]
    | some close =>
      obtain ⟨before, x, rest, hitem, rfl, hx, hrest⟩ := exists_of_rfind_eq_some hclose
      obtain rfl : x = ')' := by simpa using hx
      have hname' : '(' ∉ name := fun h => by simpa using hname _ h
      have hrest' : ')' ∉ rest := fun h => by simpa using hrest _ h
      rcases brackets_cases hitem with ⟨inner, rfl⟩ | ⟨inner, rfl⟩
      · have hsub : ['(', ')'].Sublist (name ++ '(' :: after) := by
          rw [hitem, List.append_assoc]
          refine .trans ?_ (List.sublist_append_right _ _)
          simp
        refine iff_of_false ?_ fun hcrossed => hcrossed.2.2 hsub
        rw [hitem, List.append_assoc, List.cons_append, parseSelect_brackets hname' hrest',
          faults_bind_iff_right (not_faults_parsePredicates inner)]
        rintro ⟨predicates, -, hfaults⟩
        rw [faults_bind_iff_left fun _ => not_faults_pure _] at hfaults
        exact not_faults_kindFromName _ hfaults
      · have hafter : ')' ∉ after := by
          rw [List.append_assoc, List.append_cancel_left_eq, List.cons_append,
            List.cons.injEq] at hitem
          intro h
          exact hrest' (by rw [← hitem.2]; simp [h])
        refine iff_of_true ?_ (crossed_of_before hname' hafter)
        have hslice : slice ((before ++ ')' :: inner) ++ '(' :: after)
            (size (before ++ ')' :: inner) + 1) (size before) = none := by
          rw [slice, if_neg]
          simp
        simp only [parseSelect, hopen, hclose, sliceTo_size, sliced_some, ok_bind, hslice]
        exact ⟨.slice, rfl⟩

/-- The select items that are looked at. -/
def selectItemsOf (body : Text) : List Text :=
  (upTo (fun item => (parseItems parseSelect [item]).isOk)
    (splitAtTop ',' (trim isWhitespace body))).map (trim isWhitespace)

theorem faults_parseSelects_iff {body : Text} :
    Faults (parseSelects body) ↔ ∃ item ∈ selectItemsOf body, Crossed item := by
  have hitems : Faults (parseItems parseSelect (splitAtTop ',' (trim isWhitespace body))) ↔
      ∃ item ∈ selectItemsOf body, Crossed item := by
    rw [faults_parseItems_iff, selectItemsOf]
    simp only [List.mem_map, exists_exists_and_eq_and, faults_parseSelect_iff]
    refine exists_congr fun item => and_congr_right fun _ => and_iff_right_of_imp ?_
    rintro hcrossed hempty
    rw [hempty] at hcrossed
    exact absurd hcrossed.1 List.not_mem_nil
  rw [← hitems, parseSelects]
  split_ifs with hempty
  · rw [hempty]
    exact iff_of_false (not_faults_fail _) (not_faults_ok [])
  · rw [splitTopLevel_comma, ok_bind]
    refine faults_bind_iff_left fun selects => ?_
    split_ifs <;> simp

/-! ## Ranges and correlations -/

def boundDuration (s : Text) : List Text := ((trim isWhitespace s).dropPrefix? (lit "now-")).toList

theorem faults_parseBound_iff {s : Text} :
    Faults (parseBound s) ↔ ∃ d ∈ boundDuration s, Overflows d := by
  rw [parseBound, boundDuration]
  split_ifs with hnow htick
  · rw [hnow]
    exact iff_of_false (not_faults_ok _) (by decide)
  · cases (trim isWhitespace s).dropPrefix? (lit "now-") with
    | some rest => simp [faults_parseDurationSeconds_iff]
    | none => cases parseU64 (trim isWhitespace s) <;> simp
  · cases (trim isWhitespace s).dropPrefix? (lit "now-") with
    | some rest => simp [faults_parseDurationSeconds_iff]
    | none => simp

/-- The durations of a range that are looked at. -/
def rangeDurations (body : Text) : List Text :=
  match (trim isWhitespace body).dropInfix? (lit "..") with
  | some (start, stop) => (upTo (fun s => (parseBound s).isOk) [start, stop]).flatMap boundDuration
  | none => boundDuration body

theorem faults_parseRange_iff {body : Text} :
    Faults (parseRange body) ↔ ∃ d ∈ rangeDurations body, Overflows d := by
  rw [parseRange, rangeDurations]
  cases (trim isWhitespace body).dropInfix? (lit "..") with
  | some parts =>
    obtain ⟨start, stop⟩ := parts
    have hbounds : (∃ d ∈ (upTo (fun s => (parseBound s).isOk) [start, stop]).flatMap boundDuration,
        Overflows d) ↔ ∃ s ∈ upTo (fun s => (parseBound s).isOk) [start, stop],
          ∃ d ∈ boundDuration s, Overflows d := by
      simp only [List.mem_flatMap]
      exact ⟨fun ⟨d, ⟨s, hs, hd⟩, h⟩ => ⟨s, hs, d, hd, h⟩,
        fun ⟨s, hs, d, hd, h⟩ => ⟨d, ⟨s, hs, hd⟩, h⟩⟩
    rw [hbounds, exists_mem_upTo_cons, exists_mem_upTo_cons, ← faults_parseBound_iff,
      ← faults_parseBound_iff]
    dsimp only
    cases parseBound start with
    | error e => simp
    | ok bound => simp [upTo]
  | none =>
    simp only [boundDuration]
    cases (trim isWhitespace body).dropPrefix? (lit "now-") with
    | some rest => simp [faults_parseDurationSeconds_iff]
    | none => simp

def fieldDuration (item : Text) : Option Text :=
  ((trim isWhitespace item).dropInfix? (lit ":")).bind fun (key, value) =>
    if trim isWhitespace key = lit "window" then some (trim isWhitespace value) else none

/-- The durations of a correlation that are looked at. -/
def correlateDurations (body : Text) : List Text :=
  match ((trim isWhitespace body).dropPrefix? (lit "\x7b")).bind
      fun s => s.dropSuffix? (lit "\x7d") with
  | none => []
  | some inner => (upTo (fun item => (correlateLoop none none [item]).isOk)
      (splitAtTop ',' inner)).filterMap fieldDuration

theorem faults_correlateLoop_iff {window : Option UInt64} {anchor : Option SignalKind}
    {items : List Text} :
    Faults (correlateLoop window anchor items) ↔
      ∃ item ∈ upTo (fun item => (correlateLoop none none [item]).isOk) items,
        ∃ d ∈ fieldDuration item, Overflows d := by
  induction items generalizing window anchor with
  | nil => simp [correlateLoop, upTo]
  | cons item items ih =>
    rw [exists_mem_upTo_cons]
    generalize (∃ i ∈ upTo _ items, ∃ d ∈ fieldDuration i, Overflows d) = later at ih ⊢
    by_cases hempty : trim isWhitespace item = []
    · have hfield : fieldDuration item = none := by rw [fieldDuration, hempty]; rfl
      simp [correlateLoop, hempty, hfield, ih]
    · cases hparts : (trim isWhitespace item).dropInfix? (lit ":") with
      | none => simp [correlateLoop, fieldDuration, hempty, hparts, fail]
      | some parts =>
        obtain ⟨key, value⟩ := parts
        by_cases hwindow : trim isWhitespace key = lit "window"
        · have hfield : fieldDuration item = some (trim isWhitespace value) := by
            simp [fieldDuration, hparts, hwindow]
          simp only [correlateLoop, hempty, hparts, hwindow, if_true, if_false, hfield,
            Option.mem_def, Option.some.injEq, exists_eq_left', ← faults_parseDurationSeconds_iff]
          cases parseDurationSeconds (trim isWhitespace value) <;> simp [ih]
        · have hfield : fieldDuration item = none := by simp [fieldDuration, hparts, hwindow]
          by_cases hanchor : trim isWhitespace key = lit "anchor"
          · have hother : lit "anchor" ≠ lit "window" := by decide
            have hkind := not_faults_kindFromName (trim isWhitespace value)
            simp only [correlateLoop, hempty, hparts, hanchor, hother, if_true, if_false, hfield]
            cases hname : kindFromName (trim isWhitespace value) with
            | error e =>
              rw [hname, faults_error_iff] at hkind
              simp [hkind]
            | ok kind => simp [ih]
          · simp [correlateLoop, hempty, hparts, hwindow, hanchor, hfield, fail]

theorem faults_parseCorrelate_iff {body : Text} :
    Faults (parseCorrelate body) ↔ ∃ d ∈ correlateDurations body, Overflows d := by
  rw [parseCorrelate, correlateDurations]
  cases ((trim isWhitespace body).dropPrefix? (lit "\x7b")).bind
      fun s => s.dropSuffix? (lit "\x7d") with
  | none => simp
  | some inner =>
    simp only [splitTopLevel_comma, ok_bind]
    rw [faults_bind_iff_left, faults_correlateLoop_iff]
    · simp only [List.mem_filterMap]
      exact ⟨fun ⟨i, hi, d, hd, h⟩ => ⟨d, ⟨i, hi, hd⟩, h⟩,
        fun ⟨d, ⟨i, hi, hd⟩, h⟩ => ⟨i, hi, d, hd, h⟩⟩
    · rintro ⟨_ | window, _ | anchor⟩ <;> simp

/-! ## Queries -/

def selectPart (input : Text) : Text × Option (Text × Text) :=
  cutAt [lit "where:", lit "range:", lit "correlate:"]
    (((trim isWhitespace input).dropPrefix? (lit "select:")).getD [])

def selectItems (input : Text) : List Text := selectItemsOf (selectPart input).1

/-- The durations that are looked at after `range:`. -/
def durationsFrom (rest : Text) : List Text :=
  let (body, after) := cutAt [lit "correlate:"] rest
  rangeDurations body ++
    match parseRange body, after with
    | .ok _, some (_, body) => correlateDurations body
    | _, _ => []

/-- The durations that are looked at. -/
def durations (input : Text) : List Text :=
  match parseSelects (selectPart input).1, (selectPart input).2 with
  | .ok _, some (kw, rest) =>
    match parseWhere kw rest with
    | .ok (_, kw, rest) => if kw = lit "range:" then durationsFrom rest else []
    | .error _ => []
  | _, _ => []

theorem not_faults_parseWhere (kw rest : Text) : ¬ Faults (parseWhere kw rest) := by
  rw [parseWhere]
  split_ifs
  · rw [splitAtFirstKeyword_eq, ok_bind]
    rcases cutAt [lit "range:", lit "correlate:"] rest with ⟨body, _ | next⟩
    · exact fun h => not_faults_parsePredicates body ((faults_bind_iff_left fun _ => by simp).1 h)
    · exact fun h => not_faults_parsePredicates body ((faults_bind_iff_left fun _ => by simp).1 h)
  · exact not_faults_pure _

/-- **The parser faults at a select item with crossed brackets or at a duration that overflows**, if
it gets there. -/
theorem faults_parse_iff {input : Text} :
    Faults (parse input) ↔
      (∃ item ∈ selectItems input, Crossed item) ∨ ∃ d ∈ durations input, Overflows d := by
  rw [selectItems, ← faults_parseSelects_iff, durations, selectPart, parse]
  cases hinput : (trim isWhitespace input).dropPrefix? (lit "select:") with
  | none =>
    have hnil : parseSelects [] = fail noKind := rfl
    have hcut : cutAt [lit "where:", lit "range:", lit "correlate:"] [] = ([], none) := rfl
    simp [hcut, hnil]
  | some rest =>
    simp only [splitAtFirstKeyword_eq, ok_bind, Option.getD_some]
    rcases cutAt [lit "where:", lit "range:", lit "correlate:"] rest with ⟨body, after⟩
    dsimp only
    cases parseSelects body with
    | error e => simp
    | ok selects =>
      rw [ok_bind]
      cases after with
      | none => simp
      | some next =>
        obtain ⟨kw, rest⟩ := next
        have hwhere := not_faults_parseWhere kw rest
        dsimp only
        cases hw : parseWhere kw rest with
        | error e =>
          rw [hw] at hwhere
          simpa using hwhere
        | ok clause =>
          obtain ⟨predicates, kw, rest⟩ := clause
          by_cases hkw : kw = lit "range:"
          · simp only [hkw, ok_bind, ne_eq, not_true_eq_false, if_false, if_true, durationsFrom]
            rcases cutAt [lit "correlate:"] rest with ⟨body, after⟩
            dsimp only
            have hrange := @faults_parseRange_iff body
            rw [or_iff_right (not_faults_ok selects)]
            simp only [List.mem_append, or_and_right, exists_or, ← hrange]
            cases parseRange body with
            | error e => simp
            | ok range =>
              cases after with
              | none => simp
              | some next => simp [faults_parseCorrelate_iff]
          · simp [hkw]

/-- **The parser returns a query or an error** precisely when it gets to no fault. -/
theorem parse_returns (input : Text) :
    ((∃ q, parse input = .ok q) ∨ ∃ e, parse input = .error (.error e)) ↔
      (∀ item ∈ selectItems input, ¬ Crossed item) ∧ ∀ d ∈ durations input, ¬ Overflows d := by
  have hreturns : ((∃ q, parse input = .ok q) ∨ ∃ e, parse input = .error (.error e)) ↔
      ¬ Faults (parse input) := by
    rcases parse input with (e | f) | q <;> simp
  rw [hreturns, faults_parse_iff, not_or]
  simp only [not_exists, not_and]

/-- A query with predicates, quotes and two durations. -/
def typicalQuery : Text :=
  lit "select: logs(message =~ \"a) or (b\") where: cell = x range: now-1d" ++
    lit " correlate: \x7b window: 5m, anchor: logs \x7d"

/-- A crossed item behind a kind that there is not, and a duration that is too long behind
`correlate:`. -/
theorem parse_typicalQuery_returns :
    selectItems typicalQuery = [lit "logs(message =~ \"a) or (b\")"] ∧
      durations typicalQuery = [lit "1d", lit "5m"] ∧
      ∀ input ∈ [typicalQuery, lit "select: nope, )(",
          lit "select: logs correlate: now-213503982334602d"],
        (∃ q, parse input = .ok q) ∨ ∃ e, parse input = .error (.error e) := by
  refine ⟨by decide +kernel, by decide +kernel, fun input hinput => (parse_returns input).2 ?_⟩
  simp only [List.mem_cons, List.not_mem_nil, or_false] at hinput
  rcases hinput with rfl | rfl | rfl <;> decide +kernel

/-- A `)` before the `(` of a select item, and more days than a `u64` has seconds. -/
theorem parse_stopped :
    parse (lit "select:)(") = .error (.fault .slice) ∧
      parse (lit "select: logs range: now-213503982334602d") = .error (.fault .overflow) := by
  decide +kernel

end Pillar.Psl
