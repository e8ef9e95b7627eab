import Pillar.KeyedStore.Convergence
import Pillar.Lib.HopSearch

/-!
# Views over a keyed store

`pillar-sqlviews`: a view is a definition in a system collection of the store, and its rows are
folded from the documents of its source every time it is read.
-/

namespace Pillar

open Std Lib.Delimited Lib.HopSearch Lib.TreeMap KeyedStore

/-- The part of a string before the first separator, all of it if there is none. -/
def Str.before (sep : Char) (s : Str) : Str where
  val := String.ofList (splitFirst sep s.val.toList).1
  size_lt := by
    rw [String.utf8ByteSize_ofList]
    refine (String.utf8Len_le_of_sublist (List.takeWhile_sublist _)).trans_lt ?_
    rw [← String.utf8ByteSize_ofList, String.ofList_toList]
    exact s.size_lt

theorem Str.before_of_not_mem {sep : Char} {s : Str} (h : sep ∉ s.val.toList) :
    s.before sep = s := by
  have htake : s.val.toList.takeWhile (· ≠ sep) = s.val.toList := by
    refine List.takeWhile_eq_self_iff.2 fun c hc => ?_
    rw [decide_eq_true_eq]
    rintro rfl
    exact h hc
  refine Str.ext ?_
  show String.ofList (s.val.toList.takeWhile (· ≠ sep)) = s.val
  rw [htake, String.ofList_toList]

namespace KeyedStore

/-! ## Dotted paths -/

def RawFields.get (name : List Char) : RawFields → Option RawValue
  | .nil => none
  | .cons first value rest => if first.val.toList = name then some value else rest.get name

theorem RawFields.sorted_of_get {name : List Char} {fields : RawFields} {v : RawValue}
    (hsorted : fields.sorted = true) (h : fields.get name = some v) : v.sorted = true := by
  induction fields using RawFields.get.induct name with
  | case1 => cases h
  | case2 value rest first hname =>
    simp only [RawFields.sorted, Bool.and_eq_true] at hsorted
    rw [RawFields.get, if_pos hname] at h
    exact Option.some.inj h ▸ hsorted.1.1
  | case3 value rest first hname ih =>
    simp only [RawFields.sorted, Bool.and_eq_true] at hsorted
    rw [RawFields.get, if_neg hname] at h
    exact ih hsorted.2 h

def Value.member (v : Value) (segment : List Char) : Option Value :=
  match v with
  | ⟨.scalar _, _⟩ => none
  | ⟨.nested fields, hsorted⟩ =>
    match h : fields.get segment with
    | some w => some ⟨w, RawFields.sorted_of_get hsorted h⟩
    | none => none

def Value.getPath (v : Value) (path : List Char) : Option Value :=
  if path = [] then some v else (path.splitOn '.').foldlM Value.member v

variable {H : Bytes → Bytes} {J : KeyedCodec}

/-- The live value at a dotted path: the first segment is the field of the document, the others
lead into its value. -/
def docQuery (s : KeyedStore H J) (collection id fieldPath : Str) : Option Value :=
  (s.fieldValue collection id (fieldPath.before '.')).bind fun v =>
    v.getPath (splitFirst '.' fieldPath.val.toList).2

theorem docQuery_of_not_mem {fieldPath : Str} (h : '.' ∉ fieldPath.val.toList)
    (s : KeyedStore H J) (collection id : Str) :
    s.docQuery collection id fieldPath = s.docGetField collection id fieldPath := by
  have hrest : (splitFirst '.' fieldPath.val.toList).2 = [] := by
    have hdrop : fieldPath.val.toList.dropWhile (· ≠ '.') = [] := by
      refine List.dropWhile_eq_nil_iff.2 fun c hc => ?_
      rw [decide_eq_true_eq]
      rintro rfl
      exact h hc
    rw [splitFirst, hdrop]
    rfl
  rw [docQuery, hrest, Str.before_of_not_mem h, docGetField]
  cases s.fieldValue collection id fieldPath <;> rfl

end KeyedStore

namespace SqlViews

/-! ## Definitions -/

/-- A row passes if its field has the value. -/
structure Filter where
  field : Str
  value : Bytes
  deriving DecidableEq

structure ViewDef where
  source : Str
  filter : Option Filter
  project : Option (List Str)
  deriving DecidableEq

namespace ViewDef

def over_ (source : Str) : ViewDef := ⟨source, none, none⟩

end ViewDef

structure ViewCodec where
  encode : ViewDef → Bytes
  /-- `serde_json::from_slice`, `none` if the bytes are no definition. -/
  decode : Bytes → Option ViewDef

/-- A definition is read back as it was written. -/
def ViewCodec.Keeps (V : ViewCodec) (d : ViewDef) : Prop := V.decode (V.encode d) = some d

/-- A codec for catalogs in which there is one definition only. -/
def soleViewCodec (d : ViewDef) : ViewCodec := ⟨fun _ => [], fun _ => some d⟩

theorem soleViewCodec_keeps (d : ViewDef) : (soleViewCodec d).Keeps d := rfl

def catalogCollection : Str := ⟨"__catalog", by decide⟩

def catalogDefField : Str := ⟨"def", by decide⟩

variable {H : Bytes → Bytes} {J : KeyedCodec}

def catalogOp (V : ViewCodec) (name : Str) (d : ViewDef) (hlc : Hlc) : KeyedOp :=
  ⟨catalogCollection, name, catalogDefField, hlc, .put (.scalar (V.encode d))⟩

def createView (V : ViewCodec) (s : KeyedStore H J) (name : Str) (d : ViewDef) (hlc : Hlc) :
    KeyedStore H J :=
  (s.docPutField catalogCollection name catalogDefField (.scalar (V.encode d)) hlc).1

def viewDef (V : ViewCodec) (s : KeyedStore H J) (name : Str) : Option ViewDef :=
  (s.docGetField catalogCollection name catalogDefField).bind fun v => v.asScalar.bind V.decode

/-! ## Rows -/

structure Row where
  id : Str
  fields : ExtTreeMap Str Value

def passes (s : KeyedStore H J) (collection id : Str) : Option Filter → Bool
  | none => true
  | some f => decide (((s.docQuery collection id f.field).bind Value.asScalar) = some f.value)

def rowFields (s : KeyedStore H J) (collection id : Str) (project : Option (List Str)) :
    ExtTreeMap Str Value :=
  (project.getD (s.docFields collection id)).foldl (fun fields f =>
    (s.docQuery collection id f).elim fields fun v => fields.insert f v) ∅

/-- The rows of a collection that pass, with the fields that are asked for. -/
def projectCollection (s : KeyedStore H J) (collection : Str) (filter : Option Filter)
    (project : Option (List Str)) : List Row :=
  ((s.docIds collection).filter fun id => passes s collection id filter).map fun id =>
    ⟨id, rowFields s collection id project⟩

def materialize (s : KeyedStore H J) (d : ViewDef) : List Row :=
  projectCollection s d.source d.filter d.project

def materializeView (V : ViewCodec) (s : KeyedStore H J) (name : Str) : Option (List Row) :=
  (viewDef V s name).map (materialize s)

/-! ## What a row shows -/

theorem getElem?_rowFields_of_query (s : KeyedStore H J) (collection id field : Str) :
    (rowFields s collection id none)[field]? =
      if (s.docGetField collection id field).isSome then s.docQuery collection id field
      else none := by
  rw [rowFields, getElem?_foldl_insert_of_some]
  simp [mem_docFields_iff]

/-- **A row without a projection has the live fields of its document.** -/
theorem getElem?_rowFields (s : KeyedStore H J) (collection id : Str) {field : Str}
    (h : '.' ∉ field.val.toList) :
    (rowFields s collection id none)[field]? = s.docGetField collection id field := by
  rw [getElem?_rowFields_of_query, docQuery_of_not_mem h]
  cases s.docGetField collection id field <;> simp

theorem materialize_over_ (s : KeyedStore H J) (source : Str) :
    materialize s (.over_ source) =
      (s.docIds source).map fun id => ⟨id, rowFields s source id none⟩ := by
  have hall : (s.docIds source).filter (fun id => passes s source id none) = s.docIds source :=
    List.filter_eq_self.2 fun _ _ => rfl
  rw [materialize, projectCollection, ViewDef.over_, hall]

def Row.scalar (row : Row) (field : Str) : Option Bytes := row.fields[field]?.bind Value.asScalar

def Row.text (row : Row) (field : Str) : Option Str := (row.scalar field).bind Str.fromUtf8

theorem text_eq_some_iff {s : KeyedStore H J} {collection id field text : Str}
    (h : '.' ∉ field.val.toList) :
    Row.text ⟨id, rowFields s collection id none⟩ field = some text ↔
      s.docGetField collection id field = some (.scalar text.bytes) := by
  simp only [Row.text, Row.scalar, getElem?_rowFields s collection id h, Option.bind_eq_some_iff,
    Str.fromUtf8_eq_some_iff]
  constructor
  · rintro ⟨_, ⟨⟨v, hsorted⟩, hv, hscalar⟩, rfl⟩
    cases v with
    | scalar b => rw [hv, ← Option.some.inj hscalar]; rfl
    | nested fields => cases hscalar
  · exact fun hv => ⟨_, ⟨_, hv, rfl⟩, rfl⟩

/-! ## Graphs -/

def edgeFrom : Str := ⟨"from", by decide⟩

def edgeTo : Str := ⟨"to", by decide⟩

def readEdges (s : KeyedStore H J) (collection : Str) : List (Str × Str) :=
  (projectCollection s collection none none).filterMap fun row =>
    (row.text edgeFrom).bind fun source => (row.text edgeTo).map fun target => (source, target)

def traverse (s : KeyedStore H J) (collection start : Str) (maxDepth : ℕ) : Finset Str :=
  search (readEdges s collection) start maxDepth ∅ [start]

/-- All of `traverse`, with fuel for the rounds if there is no bound. -/
def traverseUpTo (s : KeyedStore H J) (collection start : Str) (fuel : ℕ) :
    Option ℕ → Option (Finset Str)
  | some maxDepth => some (traverse s collection start maxDepth)
  | none => searchAll (readEdges s collection) start fuel ∅ [start]

theorem mem_readEdges_iff {s : KeyedStore H J} {collection source target : Str} :
    (source, target) ∈ readEdges s collection ↔ ∃ id,
      s.docGetField collection id edgeFrom = some (.scalar source.bytes) ∧
        s.docGetField collection id edgeTo = some (.scalar target.bytes) := by
  have hrows : projectCollection s collection none none = _ := materialize_over_ s collection
  rw [readEdges, hrows, List.filterMap_map, List.mem_filterMap]
  simp only [Function.comp_apply, Option.bind_eq_some_iff, Option.map_eq_some_iff, Prod.mk.injEq]
  constructor
  · rintro ⟨id, -, _, hfrom, _, hto, rfl, rfl⟩
    exact ⟨id, (text_eq_some_iff (by decide)).1 hfrom, (text_eq_some_iff (by decide)).1 hto⟩
  · rintro ⟨id, hfrom, hto⟩
    have hid : id ∈ s.docIds collection :=
      ((listed s).mem_docIds _ _).2 ⟨edgeFrom, by rw [hfrom]; rfl⟩
    exact ⟨id, hid, source, (text_eq_some_iff (by decide)).2 hfrom, target,
      (text_eq_some_iff (by decide)).2 hto, rfl, rfl⟩

/-- **A traversal returns what walks lead to**, in order, and ends without a bound too. -/
theorem traversal_reaches (s : KeyedStore H J) (collection start : Str) (maxDepth : Option ℕ)
    (extra : ℕ) :
    ∃ visited, traverseUpTo s collection start ((readEdges s collection).length + 1 + extra)
        maxDepth = some visited ∧ (visited.sort (· ≤ ·)).Pairwise (· < ·) ∧
      ∀ node, node ∈ visited.sort (· ≤ ·) ↔ node ≠ start ∧ ∃ k, 1 ≤ k ∧
        (∀ d, maxDepth = some d → k ≤ d) ∧ Walk (Leads (readEdges s collection)) k start node := by
  obtain ⟨visited, hvisited, hmem⟩ : ∃ visited, traverseUpTo s collection start
      ((readEdges s collection).length + 1 + extra) maxDepth = some visited ∧
      ∀ node, node ∈ visited ↔ node ≠ start ∧ ∃ k, (∀ d, maxDepth = some d → k ≤ d) ∧
        Walk (Leads (readEdges s collection)) k start node := by
    cases maxDepth with
    | none => simpa [traverseUpTo] using exists_searchAll (readEdges s collection) start extra
    | some maxDepth => exact ⟨_, rfl, fun node => by simp [traverse, mem_search_iff]⟩
  refine ⟨visited, hvisited, (Finset.sortedLT_sort _).pairwise, fun node => ?_⟩
  rw [Finset.mem_sort, hmem]
  refine and_congr_right fun hne => exists_congr fun k => (and_iff_right_of_imp fun h => ?_).symm
  -- a walk to another node has an edge
  cases h.2 with
  | refl => exact absurd rfl hne
  | cons => exact Nat.succ_pos _

/-! ## Views over everything -/

/-- **An unfiltered view shows the documents as they are** precisely when every live field with a
dot in its name has the value that its name leads to as a path. -/
theorem view_shows_documents (s : KeyedStore H J) (source : Str) :
    ((materialize s (.over_ source)).map Row.id = s.docIds source ∧
      ∀ row ∈ materialize s (.over_ source), ∀ field : Str,
        row.fields[field]? = s.docGetField source row.id field) ↔
      ∀ id field : Str, (s.docGetField source id field).isSome = true → '.' ∈ field.val.toList →
        s.docQuery source id field = s.docGetField source id field := by
  rw [materialize_over_, List.map_map, List.forall_mem_map]
  have hids : (s.docIds source).map (Row.id ∘ fun id => ⟨id, rowFields s source id none⟩) =
      s.docIds source := List.map_id' _
  simp only [hids, true_and, getElem?_rowFields_of_query]
  constructor
  · intro hshown id field hlive _
    have hid : id ∈ s.docIds source := ((listed s).mem_docIds _ _).2 ⟨field, hlive⟩
    simpa [hlive] using hshown id hid field
  · intro hpaths id _ field
    by_cases hlive : (s.docGetField source id field).isSome = true
    · rw [if_pos hlive]
      by_cases hdot : '.' ∈ field.val.toList
      · exact hpaths id field hlive hdot
      · exact docQuery_of_not_mem hdot s source id
    · rw [if_neg hlive, Option.not_isSome_iff_eq_none.1 hlive]

/-- A codec for stores with one write of each of two. -/
def twoCodec (k l : KeyedOp) : KeyedCodec :=
  ⟨fun op => if op = k then [0] else [1], fun b => some (if b = [0] then k else l)⟩

def fieldWrite (field : Str) (value : Value) : KeyedOp :=
  ⟨catalogCollection, catalogDefField, field, ⟨1, 0, catalogDefField⟩, .put value⟩

def dotted : KeyedOp := fieldWrite ⟨"a.b", by decide⟩ (.scalar [7])

def twoStore (k l : KeyedOp) : KeyedStore (tableDigest []) (twoCodec k l) :=
  ((new.appendOp k).1.appendOp l).1

/-- A field `a.b`, and the same value under `b` in a field `a`. -/
def nestedToo : KeyedOp :=
  fieldWrite (.lit "a") ⟨.nested (.cons (.lit "b") (.scalar [7]) .nil), by decide⟩

theorem dotted_field_shown :
    (materialize (twoStore dotted nestedToo) (.over_ catalogCollection)).map Row.id =
        (twoStore dotted nestedToo).docIds catalogCollection ∧
      ∀ row ∈ materialize (twoStore dotted nestedToo) (.over_ catalogCollection), ∀ field : Str,
        row.fields[field]? =
          (twoStore dotted nestedToo).docGetField catalogCollection row.id field := by
  refine (view_shows_documents _ _).2 fun id field hlive _ => ?_
  obtain ⟨k, hk, -, rfl, rfl⟩ := written_of_fieldValue hlive
  have hwrites : ∀ k ∈ (twoStore dotted nestedToo).writes,
      (twoStore dotted nestedToo).docQuery catalogCollection k.id k.field =
        (twoStore dotted nestedToo).docGetField catalogCollection k.id k.field := by
    decide +kernel
  exact hwrites k hk

/-- A live field that is not shown. -/
theorem dotted_field_lost :
    let field : Str := ⟨"a.b", by decide⟩
    (twoStore dotted dotted).docGetField catalogCollection catalogDefField field =
        some (.scalar [7]) ∧
      (materialize (twoStore dotted dotted) (.over_ catalogCollection)).map
        (fun row => (row.id, row.fields[field]?)) = [(catalogDefField, none)] := by
  decide +kernel

end SqlViews
end Pillar
