import Pillar.Lib.Delimited
import Pillar.Lib.TopLevel
import Pillar.Lib.Utf8

/-!
# The parser of queries

`pillar-observability`'s query language PSL. `parse` works by byte offsets as the source has it: a
slice between two offsets stops the parser if they are out of order or inside a character. The build
is one without overflow checks, in which the counter of open brackets wraps; a product of seconds
that wraps stops the model, as the number would be wrong.

* `splitTopLevel_eq`, `splitAtFirstKeyword_eq` — **the scanners never fault**: they are the splits
  and cuts at the top level.
-/

namespace Pillar.Psl

open Lib.Delimited Lib.TopLevel Lib.Utf8

def isWhitespace (c : Char) : Bool :=
  (9 ≤ c.toNat && c.toNat ≤ 13) || c.toNat = 0x20 || c.toNat = 0x85 || c.toNat = 0xA0 ||
    c.toNat = 0x1680 || (0x2000 ≤ c.toNat && c.toNat ≤ 0x200A) || c.toNat = 0x2028 ||
    c.toNat = 0x2029 || c.toNat = 0x202F || c.toNat = 0x205F || c.toNat = 0x3000

def lit (s : String) : Text := s.toList

/-! ## Queries -/

inductive SignalKind where
  | metric
  | log
  | traceSpan
  | profileSample
  | metadataSample
  deriving DecidableEq

inductive PredOp where
  | eq
  | matching
  deriving DecidableEq

structure Predicate where
  key : Text
  value : Text
  op : PredOp
  deriving DecidableEq

/-- What is selected: a kind, and predicates on it. -/
structure SelectClause where
  kind : SignalKind
  predicates : List Predicate
  deriving DecidableEq

inductive TimeBound where
  | now
  | ago (seconds : UInt64)
  | tick (t : UInt64)
  deriving DecidableEq

structure TimeRange where
  start : TimeBound
  stop : TimeBound
  deriving DecidableEq

structure CorrelateSpec where
  windowSeconds : UInt64
  anchor : SignalKind
  deriving DecidableEq

structure PslQuery where
  selects : List SelectClause
  wherePredicates : List Predicate
  range : TimeRange
  correlate : Option CorrelateSpec
  deriving DecidableEq

/-! ## Stops -/

structure PslError where
  message : Text
  deriving DecidableEq

/-- What must not happen in a parser. -/
inductive Fault where
  /-- A slice with its ends out of order or inside a character. -/
  | slice
  | overflow
  deriving DecidableEq

inductive Stop where
  | error (e : PslError)
  | fault (f : Fault)
  deriving DecidableEq

def fail {α : Type} (message : Text) : Except Stop α := .error (.error ⟨message⟩)

def sliced (s : Option Text) : Except Stop Text :=
  match s with
  | some t => .ok t
  | none => .error (.fault .slice)

@[simp] theorem sliced_some (s : Text) : sliced (some s) = .ok s := rfl

@[simp] theorem ok_bind {α β : Type} (x : α) (f : α → Except Stop β) : (.ok x >>= f) = f x := rfl

@[simp] theorem error_bind {α β : Type} (e : Stop) (f : α → Except Stop β) :
    (.error e >>= f) = .error e := rfl

/-! ## Scanners -/

/-- The offsets and the characters of a text that starts at an offset. -/
def charIndices : ℕ → Text → List (ℕ × Char)
  | _, [] => []
  | i, c :: s => (i, c) :: charIndices (i + c.utf8Size) s

/-- The first of the keywords that stands at an offset. -/
def keywordAt (s : Text) (i : ℕ) : List Text → Except Stop (Option Text)
  | [] => .ok none
  | kw :: keywords => do
    let rest ← sliced (sliceFrom s i)
    if kw <+: rest then return some kw else keywordAt s i keywords

/-- The cut before the first keyword outside of brackets and quotes. -/
def keywordLoop (s : Text) (keywords : List Text) (depth : Int32) (inQuote prevWs : Bool) :
    List (ℕ × Char) → Except Stop (Text × Option (Text × Text))
  | [] => .ok (s, none)
  | (i, c) :: rest =>
    if c = '"' then keywordLoop s keywords depth (!inQuote) (isWhitespace c) rest
    else if (c = '(' ∨ c = '\x7b') ∧ inQuote = false then
      keywordLoop s keywords (depth + 1) inQuote (isWhitespace c) rest
    else if (c = ')' ∨ c = '\x7d') ∧ inQuote = false then
      keywordLoop s keywords (depth - 1) inQuote (isWhitespace c) rest
    else if depth = 0 ∧ inQuote = false ∧ prevWs = true then do
      match ← keywordAt s i keywords with
      | some kw =>
        let before ← sliced (sliceTo s i)
        let after ← sliced (sliceFrom s (i + size kw))
        return (before, some (kw, after))
      | none => keywordLoop s keywords depth inQuote (isWhitespace c) rest
    else keywordLoop s keywords depth inQuote (isWhitespace c) rest

def splitAtFirstKeyword (s : Text) (keywords : List Text) :
    Except Stop (Text × Option (Text × Text)) :=
  keywordLoop s keywords 0 false true (charIndices 0 s)

/-- The parts between separators outside of brackets and quotes. -/
def splitLoop (s : Text) (sep : Char) (depth : Int32) (inQuote : Bool) (start : ℕ) :
    List (ℕ × Char) → Except Stop (List Text)
  | [] => do
    let last ← sliced (sliceFrom s start)
    return [last]
  | (i, c) :: rest =>
    if c = '"' then splitLoop s sep depth (!inQuote) start rest
    else if (c = '(' ∨ c = '\x7b') ∧ inQuote = false then
      splitLoop s sep (depth + 1) inQuote start rest
    else if (c = ')' ∨ c = '\x7d') ∧ inQuote = false then
      splitLoop s sep (depth - 1) inQuote start rest
    else if c = sep ∧ depth = 0 ∧ inQuote = false then do
      let item ← sliced (slice s start i)
      let items ← splitLoop s sep depth inQuote (i + c.utf8Size) rest
      return item :: items
    else splitLoop s sep depth inQuote start rest

def splitTopLevel (s : Text) (sep : Char) : Except Stop (List Text) :=
  splitLoop s sep 0 false 0 (charIndices 0 s)

/-! ## Parts of a query -/

def kindFromName (name : Text) : Except Stop SignalKind :=
  if name = lit "metrics" then .ok .metric
  else if name = lit "logs" then .ok .log
  else if name = lit "traces" then .ok .traceSpan
  else if name = lit "profiles" then .ok .profileSample
  else if name = lit "metadata" then .ok .metadataSample
  else fail (lit "unknown signal kind '" ++ (name ++ lit "'"))

def parseU64 (digits : Text) : Option UInt64 :=
  let n := Nat.ofDigitChars 10 digits 0
  if digits ≠ [] ∧ digits.all Char.isDigit ∧ n < 2 ^ 64 then some (UInt64.ofNat n) else none

def checkedMul (a b : UInt64) : Except Stop UInt64 :=
  if a.toNat * b.toNat < 2 ^ 64 then .ok (a * b) else .error (.fault .overflow)

def unitSeconds (unit : Text) : Option UInt64 :=
  if unit = lit "s" then some 1
  else if unit = lit "m" then some 60
  else if unit = lit "h" then some 3600
  else if unit = lit "d" then some 86400
  else none

def parseDurationSeconds (s : Text) : Except Stop UInt64 :=
  let s := trim isWhitespace s
  match find (fun c => !c.isDigit) s with
  | none => fail (lit "duration '" ++ (s ++ lit "' has no unit"))
  | some unitStart => do
    let num ← sliced (sliceTo s unitStart)
    let unit ← sliced (sliceFrom s unitStart)
    match parseU64 num with
    | none => fail (lit "duration '" ++ (s ++ lit "' has an invalid number"))
    | some num =>
      match unitSeconds unit with
      | none =>
        fail (lit "duration '" ++ (s ++ (lit "' has unknown unit '" ++ (unit ++ lit "'"))))
      | some mult => checkedMul num mult

def unquote (s : Text) : Text :=
  ((s.dropPrefix? (lit "\"")).bind fun inner => inner.dropSuffix? (lit "\"")).getD s

def splitPredicate (item : Text) : Except Stop (Text × Text × PredOp) :=
  match findText (lit "=~") item with
  | some pos => do
    let key ← sliced (sliceTo item pos)
    let value ← sliced (sliceFrom item (pos + 2))
    return (trim isWhitespace key, trim isWhitespace value, .matching)
  | none =>
    match find (· = '=') item with
    | some pos => do
      let key ← sliced (sliceTo item pos)
      let value ← sliced (sliceFrom item (pos + 1))
      return (trim isWhitespace key, trim isWhitespace value, .eq)
    | none => fail (lit "predicate '" ++ (item ++ lit "' missing '=' or '=~'"))

def parsePredicate (item : Text) : Except Stop Predicate := do
  let (key, value, op) ← splitPredicate item
  let value := unquote value
  if key = [] ∨ value = [] then fail (lit "predicate '" ++ (item ++ lit "' is malformed"))
  else return { key, value, op }

/-- A loop over items that are trimmed and left out if nothing is left of them. -/
def parseItems {α : Type} (parseItem : Text → Except Stop α) : List Text → Except Stop (List α)
  | [] => .ok []
  | item :: items =>
    let item := trim isWhitespace item
    if item = [] then parseItems parseItem items
    else do
      let first ← parseItem item
      let rest ← parseItems parseItem items
      return first :: rest

def parsePredicates (body : Text) : Except Stop (List Predicate) :=
  let body := trim isWhitespace body
  if body = [] then .ok []
  else do
    let items ← splitTopLevel body ','
    parseItems parsePredicate items

def parseSelect (item : Text) : Except Stop SelectClause :=
  match find (· = '(') item with
  | some opening => do
    let name ← sliced (sliceTo item opening)
    match rfind (· = ')') item with
    | none => fail (lit "select item '" ++ (item ++ lit "' missing closing ')'"))
    | some close =>
      let inner ← sliced (slice item (opening + 1) close)
      let predicates ← parsePredicates inner
      let kind ← kindFromName (trim isWhitespace name)
      return { kind, predicates }
  | none => do
    let kind ← kindFromName item
    return { kind, predicates := [] }

def noKind : Text := lit "select clause must name at least one kind"

def parseSelects (body : Text) : Except Stop (List SelectClause) :=
  let body := trim isWhitespace body
  if body = [] then fail noKind
  else do
    let items ← splitTopLevel body ','
    let selects ← parseItems parseSelect items
    if selects = [] then fail noKind else return selects

def parseBound (s : Text) : Except Stop TimeBound :=
  let s := trim isWhitespace s
  if s = lit "now" then .ok .now
  else
    match s.dropPrefix? (lit "now-") with
    | some rest => do
      let seconds ← parseDurationSeconds rest
      return .ago seconds
    | none =>
      if s ≠ [] ∧ s.all Char.isDigit then
        match parseU64 s with
        | some t => .ok (.tick t)
        | none => fail (lit "range bound '" ++ (s ++ lit "' is not a valid tick"))
      else fail (lit "range bound '" ++
        (s ++ lit "' must be 'now', 'now-<duration>', or an absolute tick"))

def parseRange (body : Text) : Except Stop TimeRange :=
  let body := trim isWhitespace body
  match body.dropInfix? (lit "..") with
  | some (start, stop) => do
    let start ← parseBound start
    let stop ← parseBound stop
    return { start, stop }
  | none =>
    match body.dropPrefix? (lit "now-") with
    | some rest => do
      let seconds ← parseDurationSeconds rest
      return { start := .ago seconds, stop := .now }
    | none =>
      fail (lit "range '" ++ (body ++ lit "' must be 'now-<duration>' or '<start>..<end>'"))

def correlateLoop (window : Option UInt64) (anchor : Option SignalKind) :
    List Text → Except Stop (Option UInt64 × Option SignalKind)
  | [] => .ok (window, anchor)
  | item :: items =>
    let item := trim isWhitespace item
    if item = [] then correlateLoop window anchor items
    else
      match item.dropInfix? (lit ":") with
      | none => fail (lit "correlate field '" ++ (item ++ lit "' missing value"))
      | some (key, value) =>
        let key := trim isWhitespace key
        let value := trim isWhitespace value
        if key = lit "window" then do
          let seconds ← parseDurationSeconds value
          correlateLoop (some seconds) anchor items
        else if key = lit "anchor" then do
          let kind ← kindFromName value
          correlateLoop window (some kind) items
        else fail (lit "unknown correlate field '" ++ (key ++ lit "'"))

def parseCorrelate (body : Text) : Except Stop CorrelateSpec :=
  let body := trim isWhitespace body
  match (body.dropPrefix? (lit "\x7b")).bind fun s => s.dropSuffix? (lit "\x7d") with
  | none => fail (lit "correlate '" ++ (body ++ lit "' must be wrapped in \x7b \x7d"))
  | some inner => do
    let items ← splitTopLevel inner ','
    match ← correlateLoop none none items with
    | (none, _) => fail (lit "correlate missing 'window'")
    | (some _, none) => fail (lit "correlate missing 'anchor'")
    | (some windowSeconds, some anchor) => return { windowSeconds, anchor }

/-! ## The query -/

def noRange : Text := lit "query is missing a 'range:' clause"

/-- The where clause, if there is one, and the clause after it. -/
def parseWhere (kw rest : Text) : Except Stop (List Predicate × Text × Text) :=
  if kw = lit "where:" then do
    let (body, after) ← splitAtFirstKeyword rest [lit "range:", lit "correlate:"]
    let predicates ← parsePredicates body
    match after with
    | none => fail noRange
    | some (kw, rest) => return (predicates, kw, rest)
  else return ([], kw, rest)

def parse (input : Text) : Except Stop PslQuery :=
  match (trim isWhitespace input).dropPrefix? (lit "select:") with
  | none => fail (lit "query must start with 'select:'")
  | some rest => do
    let (body, after) ←
      splitAtFirstKeyword rest [lit "where:", lit "range:", lit "correlate:"]
    let selects ← parseSelects body
    match after with
    | none => fail noRange
    | some (kw, rest) =>
      let (wherePredicates, kw, rest) ← parseWhere kw rest
      if kw ≠ lit "range:" then fail (lit "expected 'range:', found '" ++ (kw ++ lit "'"))
      else
        let (body, after) ← splitAtFirstKeyword rest [lit "correlate:"]
        let range ← parseRange body
        match after with
        | none => return { selects, wherePredicates, range, correlate := none }
        | some (_, rest) =>
          let correlate ← parseCorrelate rest
          return { selects, wherePredicates, range, correlate := some correlate }

/-! ## The scanners never fault -/

def marks : Marks Char where
  quotes c := c = '"'
  opens c := c = '(' || c = '\x7b'
  closes c := c = ')' || c = '\x7d'

/-- The first of the keywords that a text starts with, and what follows. -/
def keyword (keywords : List Text) (s : Text) : Option (Text × Text) :=
  (keywords.find? (· <+: s)).map fun kw => (kw, s.drop kw.length)

def cutAt (keywords : List Text) (s : Text) : Text × Option (Text × Text) :=
  cut marks isWhitespace (keyword keywords) top true s

def splitAtTop (sep : Char) (s : Text) : List Text := splits marks sep top s

theorem plain_iff {c : Char} :
    marks.plain c = true ↔ c ≠ '"' ∧ ¬ (c = '(' ∨ c = '\x7b') ∧ ¬ (c = ')' ∨ c = '\x7d') := by
  simp [Marks.plain, marks, and_assoc]

theorem next_opening {c : Char} (h : c = '(' ∨ c = '\x7b') (d : Int32) :
    marks.next ⟨d, false⟩ c = ⟨d + 1, false⟩ := by
  rcases h with rfl | rfl <;> rfl

theorem next_closing {c : Char} (h : c = ')' ∨ c = '\x7d') (d : Int32) :
    marks.next ⟨d, false⟩ c = ⟨d - 1, false⟩ := by
  rcases h with rfl | rfl <;> rfl

theorem next_other {d : Int32} {q : Bool} {c : Char} (hquote : c ≠ '"')
    (hopen : ¬ ((c = '(' ∨ c = '\x7b') ∧ q = false))
    (hclose : ¬ ((c = ')' ∨ c = '\x7d') ∧ q = false)) : marks.next ⟨d, q⟩ c = ⟨d, q⟩ := by
  cases q with
  | true => exact Marks.next_of_quoted (by simpa [marks] using hquote)
  | false =>
    simp only [and_true] at hopen hclose
    exact Marks.next_of_plain (plain_iff.2 ⟨hquote, hopen, hclose⟩)

theorem splitLoop_eq {sep : Char} (hsep : marks.plain sep = true) (d : Int32) (q : Bool)
    (done cur rem : Text) :
    splitLoop (done ++ (cur ++ rem)) sep d q (size done) (charIndices (size done + size cur) rem) =
      .ok ((splits marks sep ⟨d, q⟩ rem).modifyHead (cur ++ ·)) := by
  induction rem generalizing d q done cur with
  | nil =>
    rw [charIndices, splitLoop, sliceFrom_size]
    rfl
  | cons c rem ih =>
    -- a character that separates nothing joins `cur`
    have hgo : ∀ d' q', marks.next ⟨d, q⟩ c = ⟨d', q'⟩ → ¬ Separates marks sep ⟨d, q⟩ c →
        splitLoop (done ++ (cur ++ c :: rem)) sep d' q' (size done)
            (charIndices (size done + size cur + c.utf8Size) rem) =
          .ok ((splits marks sep ⟨d, q⟩ (c :: rem)).modifyHead (cur ++ ·)) := by
      intro d' q' hnext hsplit
      have h := ih d' q' done (cur ++ [c])
      rw [size_append, size_cons, size_nil, Nat.add_zero, ← Nat.add_assoc, List.append_assoc,
        List.singleton_append] at h
      rw [h, splits, if_neg hsplit, hnext, List.modifyHead_modifyHead]
      congr 2
      funext t
      simp
    rw [charIndices, splitLoop]
    split_ifs with hquote hopen hclose hcut
    · subst hquote
      exact hgo _ _ rfl fun h => absurd (plain_iff.1 h.1).1 (by simp)
    · obtain ⟨hc, rfl⟩ := hopen
      exact hgo _ _ (next_opening hc d) fun h => (plain_iff.1 h.1).2.1 hc
    · obtain ⟨hc, rfl⟩ := hclose
      exact hgo _ _ (next_closing hc d) fun h => (plain_iff.1 h.1).2.2 hc
    · obtain ⟨rfl, rfl, rfl⟩ := hcut
      have h := ih 0 false (done ++ (cur ++ [c])) []
      simp only [size_append, size_cons, size_nil, Nat.add_zero, List.append_assoc,
        List.singleton_append, List.nil_append, ← Nat.add_assoc] at h
      rw [slice_eq_some rfl rfl, splits, if_pos ⟨hsep, rfl, rfl⟩, sliced_some, ok_bind, h, ok_bind,
        List.modifyHead_cons, List.append_nil]
      congr 2
      cases splits marks c ⟨0, false⟩ rem <;> rfl
    · refine hgo _ _ (next_other hquote hopen hclose) fun h => ?_
      obtain ⟨rfl, rfl⟩ := Level.mk.inj h.2.2
      exact hcut ⟨h.2.1, rfl, rfl⟩

/-- **Splitting never faults.** -/
theorem splitTopLevel_eq {sep : Char} (hsep : marks.plain sep = true) (s : Text) :
    splitTopLevel s sep = .ok (splitAtTop sep s) := by
  have h := splitLoop_eq hsep 0 false [] [] s
  simp only [List.nil_append, size_nil, Nat.add_zero] at h
  rw [splitTopLevel, h, splitAtTop]
  cases hsplits : splits marks sep top s <;> simp_all [top]

theorem splitTopLevel_comma (s : Text) : splitTopLevel s ',' = .ok (splitAtTop ',' s) :=
  splitTopLevel_eq (by decide) s

theorem keywordAt_eq (seen rem : Text) (keywords : List Text) :
    keywordAt (seen ++ rem) (size seen) keywords = .ok (keywords.find? (· <+: rem)) := by
  induction keywords with
  | nil => rfl
  | cons kw keywords ih =>
    rw [keywordAt, sliceFrom_size, sliced_some, ok_bind, ih, List.find?_cons]
    by_cases h : kw <+: rem
    · rw [if_pos h, decide_eq_true h]
      rfl
    · rw [if_neg h, decide_eq_false h]

theorem keywordLoop_eq (keywords : List Text) (d : Int32) (q prevWs : Bool) (seen rem : Text) :
    keywordLoop (seen ++ rem) keywords d q prevWs (charIndices (size seen) rem) =
      .ok (prepend seen (cut marks isWhitespace (keyword keywords) ⟨d, q⟩ prevWs rem)) := by
  induction rem generalizing d q prevWs seen with
  | nil => rfl
  | cons c rem ih =>
    -- a character at which no keyword starts joins `seen`
    have hgo : ∀ d' q', marks.next ⟨d, q⟩ c = ⟨d', q'⟩ →
        (marks.plain c = true → (⟨d, q⟩ : Level) = top → prevWs = true →
          keyword keywords (c :: rem) = none) →
        keywordLoop (seen ++ c :: rem) keywords d' q' (isWhitespace c)
            (charIndices (size seen + c.utf8Size) rem) =
          .ok (prepend seen
            (cut marks isWhitespace (keyword keywords) ⟨d, q⟩ prevWs (c :: rem))) := by
      intro d' q' hnext hnone
      have h := ih d' q' (isWhitespace c) (seen ++ [c])
      rw [size_append, size_cons, size_nil, Nat.add_zero, List.append_assoc,
        List.singleton_append] at h
      rw [h, cut_cons_of_none hnone, hnext, prepend_prepend]
    rw [charIndices, keywordLoop]
    split_ifs with hquote hopen hclose hcheck
    · subst hquote
      exact hgo _ _ rfl fun h => absurd (plain_iff.1 h).1 (by simp)
    · obtain ⟨hc, rfl⟩ := hopen
      exact hgo _ _ (next_opening hc d) fun h => absurd hc (plain_iff.1 h).2.1
    · obtain ⟨hc, rfl⟩ := hclose
      exact hgo _ _ (next_closing hc d) fun h => absurd hc (plain_iff.1 h).2.2
    · obtain ⟨rfl, rfl, rfl⟩ := hcheck
      have hplain : marks.plain c = true :=
        plain_iff.2 ⟨hquote, by simpa using hopen, by simpa using hclose⟩
      rw [keywordAt_eq, ok_bind]
      cases hkw : keywords.find? (· <+: c :: rem) with
      | none =>
        exact hgo _ _ (next_other hquote hopen hclose) fun _ _ _ => by rw [keyword, hkw]; rfl
      | some kw =>
        obtain ⟨rest, hrest⟩ : kw <+: c :: rem := by simpa using List.find?_some hkw
        have hfound : keyword keywords (c :: rem) = some (kw, rest) := by
          rw [keyword, hkw, ← hrest]
          simp
        have hafter : sliceFrom (seen ++ c :: rem) (size seen + size kw) = some rest := by
          rw [← hrest, ← List.append_assoc, ← size_append]
          exact sliceFrom_size _ _
        simp only [sliceTo_size, sliced_some, ok_bind, hafter]
        rw [show (⟨0, false⟩ : Level) = top from rfl, cut_keyword hplain hfound, prepend,
          List.append_nil]
        rfl
    · refine hgo _ _ (next_other hquote hopen hclose) fun _ htop hws => ?_
      obtain ⟨rfl, rfl⟩ := Level.mk.inj htop
      exact absurd ⟨rfl, rfl, hws⟩ hcheck

/-- **Cutting never faults.** -/
theorem splitAtFirstKeyword_eq (s : Text) (keywords : List Text) :
    splitAtFirstKeyword s keywords = .ok (cutAt keywords s) :=
  keywordLoop_eq keywords 0 false true [] s

/-! ## The parts without offsets -/

theorem parseDurationSeconds_eq {s num unit : Text} {x : Char}
    (hs : trim isWhitespace s = num ++ x :: unit) (hnum : ∀ c ∈ num, c.isDigit = true)
    (hx : x.isDigit = false) :
    parseDurationSeconds s =
      match parseU64 num with
      | none => fail (lit "duration '" ++ (trim isWhitespace s ++ lit "' has an invalid number"))
      | some n =>
        match unitSeconds (x :: unit) with
        | none => fail (lit "duration '" ++ (trim isWhitespace s ++
            (lit "' has unknown unit '" ++ ((x :: unit) ++ lit "'"))))
        | some mult => checkedMul n mult := by
  have hfind : find (fun c => !c.isDigit) (num ++ x :: unit) = some (size num) :=
    find_append (by simpa using hnum) (by simpa using hx)
  simp [parseDurationSeconds, hs, hfind, sliceTo_size, sliceFrom_size, sliced_some, ok_bind]

theorem splitPredicate_matching {item key value : Text}
    (h : item.dropInfix? (lit "=~") = some (key, value)) :
    splitPredicate item = .ok (trim isWhitespace key, trim isWhitespace value, .matching) := by
  have hfind : findText (lit "=~") item = some (size key) := by rw [findText, h]; rfl
  obtain rfl := eq_of_dropInfix? h
  have hvalue : sliceFrom (key ++ (lit "=~" ++ value)) (size key + 2) = some value := by
    have h := sliceFrom_size (key ++ lit "=~") value
    rwa [size_append, List.append_assoc] at h
  simp only [splitPredicate, hfind, sliceTo_size, hvalue, sliced_some, ok_bind]
  rfl

theorem splitPredicate_eq {key value : Text}
    (h : (key ++ '=' :: value).dropInfix? (lit "=~") = none) (hkey : '=' ∉ key) :
    splitPredicate (key ++ '=' :: value) =
      .ok (trim isWhitespace key, trim isWhitespace value, .eq) := by
  have hnone : findText (lit "=~") (key ++ '=' :: value) = none := by rw [findText, h]; rfl
  have hfind : find (· = '=') (key ++ '=' :: value) = some (size key) :=
    find_append (fun c hc => decide_eq_false (ne_of_mem_of_not_mem hc hkey)) rfl
  have hvalue : sliceFrom (key ++ '=' :: value) (size key + 1) = some value := by
    have h := sliceFrom_size (key ++ ['=']) value
    rwa [size_append, List.append_assoc] at h
  simp only [splitPredicate, hnone, hfind, sliceTo_size, hvalue, sliced_some, ok_bind]
  rfl

theorem parseSelect_brackets {name inner after : Text} (hname : '(' ∉ name) (hafter : ')' ∉ after) :
    parseSelect (name ++ '(' :: (inner ++ ')' :: after)) = (do
      let predicates ← parsePredicates inner
      let kind ← kindFromName (trim isWhitespace name)
      return { kind, predicates }) := by
  have hopen : find (· = '(') (name ++ '(' :: (inner ++ ')' :: after)) = some (size name) :=
    find_append (fun c hc => decide_eq_false (ne_of_mem_of_not_mem hc hname)) rfl
  have heq : (name ++ ['(']) ++ (inner ++ ')' :: after) =
      name ++ '(' :: (inner ++ ')' :: after) := by simp
  have hclose : rfind (· = ')') (name ++ '(' :: (inner ++ ')' :: after)) =
      some (size ((name ++ ['(']) ++ inner)) := by
    rw [← heq, ← List.append_assoc]
    exact rfind_append rfl fun c hc => decide_eq_false (ne_of_mem_of_not_mem hc hafter)
  have hinner : slice (name ++ '(' :: (inner ++ ')' :: after)) (size name + 1)
      (size ((name ++ ['(']) ++ inner)) = some inner := by
    rw [← heq]
    exact slice_eq_some (by simp; rfl) (by simp [Nat.add_assoc])
  simp only [parseSelect, hopen, hclose, hinner, sliceTo_size, sliced_some, ok_bind]

end Pillar.Psl
