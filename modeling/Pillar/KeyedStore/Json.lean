import Pillar.KeyedStore.Compaction
import Pillar.Lib.Writers

/-!
# The payload of a write

`KeyedOp::encode` and `KeyedOp::decode` go through `serde_json`. What it writes is given as text;
reading is the inverse, up to the recursion limit of 128.

* `KeyedOp.json_injective` — **no two writes have one text.**
-/

namespace Pillar.KeyedStore

open Lib.Writers

@[irreducible] def lit (s : String) : List Char := s.toList

/-! ## Strings -/

/-- The characters that are written with a backslash: those with a letter of their own, then
every control character by its number. -/
def jsonEscapes : List (Char × List Char) :=
  [('"', ['\\', '"']), ('\\', ['\\', '\\']), ('\x08', ['\\', 'b']), ('\t', ['\\', 't']),
    ('\n', ['\\', 'n']), ('\x0c', ['\\', 'f']), ('\r', ['\\', 'r'])] ++
  (List.range 32).map fun n =>
    (Char.ofNat n, ['\\', 'u', '0', '0', Nat.digitChar (n / 16), Nat.digitChar (n % 16)])

def jsonStr (s : Str) : List Char := '"' :: (s.val.toList.flatMap (codeOf jsonEscapes) ++ ['"'])

theorem jsonEscapes_codes : Codes jsonEscapes := by
  have hbackslash : ∀ e ∈ jsonEscapes, e.2.head? = some '\\' := by decide +kernel
  refine ⟨by decide +kernel, fun e he => ⟨'\\', hbackslash e he, by decide +kernel⟩⟩

theorem codeOf_ne_quote (c : Char) (x y : List Char) : codeOf jsonEscapes c ++ x ≠ '"' :: y := by
  have hbackslash : ∀ e ∈ jsonEscapes, e.2.head? = some '\\' := by decide +kernel
  intro h
  rw [codeOf] at h
  cases hc : jsonEscapes.lookup c with
  | none =>
    rw [hc] at h
    obtain rfl : c = '"' := (List.cons.inj h).1
    exact absurd hc (by decide +kernel)
  | some w =>
    rw [hc, Option.getD_some] at h
    have hw := hbackslash _ (mem_of_lookup_eq_some hc)
    cases w with
    | nil => cases hw
    | cons first rest =>
      obtain rfl : first = '\\' := Option.some.inj hw
      exact absurd (List.cons.inj h).1 (by decide)

theorem splits_jsonStr : Splits jsonStr := by
  have htext : Function.Injective fun s : Str => s.val.toList := by
    intro a b h
    exact Str.ext (String.toList_injective h)
  exact (((splits_of_codes jsonEscapes_codes).flatMap_concat codeOf_ne_quote).comp
    htext).literal_append ['"']

/-! ## Values -/

def comma (first : Bool) : List Char := if first then [] else [',']

/-- The items of an array of bytes, up to its end. -/
def jsonBytes (first : Bool) : Bytes → List Char
  | [] => [']']
  | b :: bs => comma first ++ (Nat.toDigits 10 b.toNat ++ jsonBytes false bs)

mutual

def RawValue.json : RawValue → List Char
  | .scalar bytes => lit "\x7b\"Scalar\":[" ++ (jsonBytes true bytes ++ ['\x7d'])
  | .nested fields => lit "\x7b\"Nested\":\x7b" ++ (fields.json true ++ ['\x7d'])

def RawFields.json (first : Bool) : RawFields → List Char
  | .nil => ['\x7d']
  | .cons name value rest =>
    comma first ++ (jsonStr name ++ (':' :: (value.json ++ rest.json false)))

end

theorem head?_jsonBytes (bs : Bytes) (x : List Char) :
    ∀ c ∈ (jsonBytes false bs ++ x).head?, c.isDigit = false := by
  cases bs with
  | nil | cons b bs =>
    rintro c ⟨⟩
    decide

theorem splits_jsonBytes (first : Bool) : Splits (jsonBytes first) := by
  -- the end of the array is neither a comma nor a digit
  have hend : ∀ (first : Bool) (b : UInt8) (bs : Bytes) (x y : List Char),
      ']' :: x ≠ comma first ++ (Nat.toDigits 10 b.toNat ++ jsonBytes false bs) ++ y := by
    intro first b bs x y h
    cases first with
    | false => exact absurd (List.cons.inj h).1 (by decide)
    | true =>
      have hmem : ']' ∈ Nat.toDigits 10 b.toNat := by
        cases hd : Nat.toDigits 10 b.toNat with
        | nil => exact absurd hd Nat.toDigits_ne_nil
        | cons d ds =>
          rw [hd] at h
          rw [(List.cons.inj h).1]
          exact List.mem_cons_self
      exact Lib.Delimited.separator_not_mem_decimal (by decide) _ hmem
  intro as
  induction as generalizing first with
  | nil =>
    intro bs x y h
    cases bs with
    | nil => exact ⟨rfl, (List.cons.inj h).2⟩
    | cons b bs => exact absurd h (hend first b bs x y)
  | cons a as ih =>
    intro bs x y h
    cases bs with
    | nil => exact absurd h.symm (hend first a as y x)
    | cons b bs =>
      simp only [jsonBytes, List.append_assoc] at h
      obtain ⟨hab, hrest⟩ := decimal_append_inj (head?_jsonBytes as x) (head?_jsonBytes bs y)
        (List.append_cancel_left h)
      obtain ⟨rfl, hxy⟩ := ih false hrest
      rw [UInt8.toNat_inj.1 hab]
      exact ⟨rfl, hxy⟩

theorem objectEnd_ne (first : Bool) (name : Str) (value : RawValue) (rest : RawFields)
    (x y : List Char) : '\x7d' :: x ≠ RawFields.json first (.cons name value rest) ++ y := by
  intro h
  rw [RawFields.json] at h
  cases first with
  | false | true => exact absurd (List.cons.inj h).1 (by decide)

theorem append_ne_of_getElem?_ne {l m : List Char} {i : ℕ} (hl : i < l.length) (hm : i < m.length)
    (h : l[i]? ≠ m[i]?) (x y : List Char) : l ++ x ≠ m ++ y := by
  intro heq
  have hi := congrArg (fun z : List Char => z[i]?) heq
  simp only [List.getElem?_append_left hl, List.getElem?_append_left hm] at hi
  exact h hi

theorem scalar_ne_nested (bytes : Bytes) (fields : RawFields) (x y : List Char) :
    (RawValue.scalar bytes).json ++ x ≠ (RawValue.nested fields).json ++ y := by
  simp only [RawValue.json, List.append_assoc]
  exact append_ne_of_getElem?_ne (i := 2) (by decide +kernel) (by decide +kernel)
    (by decide +kernel) _ _

mutual

theorem RawValue.splits_json (v w : RawValue) {x y : List Char} (h : v.json ++ x = w.json ++ y) :
    v = w ∧ x = y := by
  cases v with
  | scalar bytes =>
    cases w with
    | scalar bytes' =>
      simp only [RawValue.json, List.append_assoc] at h
      obtain ⟨rfl, hxy⟩ := splits_jsonBytes true (List.append_cancel_left h)
      exact ⟨rfl, List.append_cancel_left hxy⟩
    | nested fields => exact absurd h (scalar_ne_nested bytes fields x y)
  | nested fields =>
    cases w with
    | scalar bytes => exact absurd h.symm (scalar_ne_nested bytes fields y x)
    | nested fields' =>
      simp only [RawValue.json, List.append_assoc] at h
      obtain ⟨rfl, hxy⟩ := RawFields.splits_json fields fields' true (List.append_cancel_left h)
      exact ⟨rfl, List.append_cancel_left hxy⟩

theorem RawFields.splits_json (f g : RawFields) (first : Bool) {x y : List Char}
    (h : f.json first ++ x = g.json first ++ y) : f = g ∧ x = y := by
  cases f with
  | nil =>
    cases g with
    | nil => exact ⟨rfl, List.append_cancel_left h⟩
    | cons name value rest => exact absurd h (objectEnd_ne first name value rest x y)
  | cons name value rest =>
    cases g with
    | nil => exact absurd h.symm (objectEnd_ne first name value rest y x)
    | cons name' value' rest' =>
      simp only [RawFields.json, List.append_assoc, List.cons_append] at h
      obtain ⟨rfl, hvalue⟩ := splits_jsonStr (List.append_cancel_left h)
      obtain ⟨rfl, hrest⟩ := RawValue.splits_json value value' (List.cons.inj hvalue).2
      obtain ⟨rfl, hxy⟩ := RawFields.splits_json rest rest' false hrest
      exact ⟨rfl, hxy⟩

end

/-! ## Writes -/

def OpKind.json : OpKind → List Char
  | .put value => lit "\x7b\"Put\":" ++ (value.1.json ++ ['\x7d'])
  | .tomb => lit "\"Tomb\""

def Hlc.json (h : Hlc) : List Char :=
  lit "\x7b\"physical\":" ++ (Nat.toDigits 10 h.physical.toNat ++ (lit ",\"logical\":" ++
    (Nat.toDigits 10 h.logical.toNat ++ (lit ",\"author\":" ++ (jsonStr h.author ++ ['\x7d'])))))

def KeyedOp.json (k : KeyedOp) : List Char :=
  lit "\x7b\"collection\":" ++ (jsonStr k.collection ++ (lit ",\"id\":" ++ (jsonStr k.id ++
    (lit ",\"field\":" ++ (jsonStr k.field ++ (lit ",\"hlc\":" ++ (k.hlc.json ++
      (lit ",\"kind\":" ++ (k.kind.json ++ ['\x7d'])))))))))

theorem put_ne_tomb (value : Value) (x y : List Char) :
    (OpKind.put value).json ++ x ≠ OpKind.tomb.json ++ y := by
  simp only [OpKind.json, List.append_assoc]
  exact append_ne_of_getElem?_ne (i := 0) (by decide +kernel) (by decide +kernel)
    (by decide +kernel) _ _

theorem OpKind.json_append_inj {a b : OpKind} {x y : List Char} (h : a.json ++ x = b.json ++ y) :
    a = b ∧ x = y := by
  cases a with
  | put v =>
    cases b with
    | put w =>
      simp only [OpKind.json, List.append_assoc] at h
      obtain ⟨hvw, hxy⟩ := RawValue.splits_json v.1 w.1 (List.append_cancel_left h)
      rw [Subtype.ext hvw]
      exact ⟨rfl, List.append_cancel_left hxy⟩
    | tomb => exact absurd h (put_ne_tomb v x y)
  | tomb =>
    cases b with
    | put w => exact absurd h.symm (put_ne_tomb w y x)
    | tomb => exact ⟨rfl, List.append_cancel_left h⟩

theorem Hlc.json_append_inj {a b : Hlc} {x y : List Char} (h : a.json ++ x = b.json ++ y) :
    a = b ∧ x = y := by
  have hcomma : ∀ (l : List Char) (z : List Char), l.head? = some ',' →
      ∀ c ∈ (l ++ z).head?, c.isDigit = false := by
    intro l z hl c hc
    rw [List.head?_append, hl] at hc
    obtain rfl : ',' = c := Option.some.inj hc
    decide
  simp only [Hlc.json, List.append_assoc] at h
  obtain ⟨hphysical, h⟩ := decimal_append_inj (hcomma _ _ (by decide +kernel))
    (hcomma _ _ (by decide +kernel))
    (List.append_cancel_left h)
  obtain ⟨hlogical, h⟩ := decimal_append_inj (hcomma _ _ (by decide +kernel))
    (hcomma _ _ (by decide +kernel))
    (List.append_cancel_left h)
  obtain ⟨hauthor, h⟩ := splits_jsonStr (List.append_cancel_left h)
  exact ⟨Hlc.ext (UInt64.toNat_inj.1 hphysical) (UInt64.toNat_inj.1 hlogical) hauthor,
    List.append_cancel_left h⟩

/-- **No two writes have one text.** -/
theorem KeyedOp.json_injective : Function.Injective KeyedOp.json := by
  intro a b h
  obtain ⟨hcollection, h⟩ := splits_jsonStr (List.append_cancel_left h)
  obtain ⟨hid, h⟩ := splits_jsonStr (List.append_cancel_left h)
  obtain ⟨hfield, h⟩ := splits_jsonStr (List.append_cancel_left h)
  obtain ⟨hhlc, h⟩ := Hlc.json_append_inj (List.append_cancel_left h)
  obtain ⟨hkind, -⟩ := OpKind.json_append_inj (List.append_cancel_left h)
  exact KeyedOp.ext hcollection hid hfield hhlc hkind

/-! ## Reading -/

mutual

/-- How deep the objects and arrays of a value are nested: its tag is an object, and what is
in it an array or an object. -/
def RawValue.depth : RawValue → ℕ
  | .scalar _ => 2
  | .nested fields => 2 + fields.depth

def RawFields.depth : RawFields → ℕ
  | .nil => 0
  | .cons _ value rest => max value.depth rest.depth

end

def OpKind.depth : OpKind → ℕ
  | .put value => 1 + value.1.depth
  | .tomb => 0

def KeyedOp.depth (k : KeyedOp) : ℕ := 1 + max 1 k.kind.depth

/-- The nesting at which `serde_json` stops. -/
def recursionLimit : ℕ := 128

def KeyedCodec.Serde (J : KeyedCodec) : Prop :=
  ∀ k : KeyedOp, J.decode (J.encode k) = if k.depth < recursionLimit then some k else none

open Classical in
noncomputable def serdeJson : KeyedCodec where
  encode k := utf8 (String.ofList k.json)
  decode b :=
    if h : ∃ k : KeyedOp, k.depth < recursionLimit ∧ utf8 (String.ofList k.json) = b then some h.choose
    else none

theorem serdeJson_encode_injective : Function.Injective serdeJson.encode := by
  intro a b h
  exact KeyedOp.json_injective (String.ofList_injective (utf8_injective h))

theorem serdeJson_serde : serdeJson.Serde := by
  intro k
  split_ifs with hk
  · have hex : ∃ l : KeyedOp, l.depth < recursionLimit ∧
        utf8 (String.ofList l.json) = serdeJson.encode k := ⟨k, hk, rfl⟩
    have hdecode : serdeJson.decode (serdeJson.encode k) = some hex.choose := dif_pos hex
    rw [hdecode, serdeJson_encode_injective hex.choose_spec.2]
  · refine dif_neg ?_
    rintro ⟨l, hl, hlk⟩
    rw [serdeJson_encode_injective hlk] at hl
    exact hk hl

example : serdeJson.encode (tiedOp 1) = tiedPayload "1" := by decide +kernel

end Pillar.KeyedStore
