import Pillar.Bootstrap.Token

/-!
# Workload declarations

`pillar-controller`'s `WorkloadSpec`: a declaration is four lines of text, read back with
`str::lines`.

* `decode_encode_iff` — **when a declaration is read back**: name and node have no line feed and do
  not end in a carriage return.
-/

namespace Pillar.Controller

open Bootstrap Lib.Hex Lib.Delimited

@[ext] structure WorkloadSpec where
  name : String
  targetNode : NodeId
  image : ContentId
  effect : SideEffect
  deriving DecidableEq

inductive SpecDecodeError where
  | notUtf8
  | missingField
  | invalidDigest
  | invalidEffect
  deriving DecidableEq

def effectToken : SideEffect → String
  | .exclusive => "exclusive"
  | .convergent => "convergent"

def effectOfToken (cs : List Char) : Option SideEffect :=
  if cs = "exclusive".toList then some .exclusive
  else if cs = "convergent".toList then some .convergent
  else none

def blobdigestFromHex (cs : List Char) : Option ContentId :=
  if cs = [] then none else (hexDecode cs).map .mk

/-! ## Lines -/

def stripCr (line : List Char) : List Char :=
  if line.getLast? = some '\r' then line.dropLast else line

/-- The lines of a text, of which `line` is the beginning of the first. -/
def linesFrom (line : List Char) : List Char → List (List Char)
  | [] => if line = [] then [] else [line]
  | c :: cs => if c = '\n' then stripCr line :: linesFrom [] cs else linesFrom (line ++ [c]) cs

variable {line field : List Char}

theorem linesFrom_append (h : '\n' ∉ field) (rest : List Char) :
    linesFrom line (field ++ '\n' :: rest) = stripCr (line ++ field) :: linesFrom [] rest := by
  induction field generalizing line with
  | nil => simp [linesFrom]
  | cons c field ih =>
    rw [List.mem_cons, not_or] at h
    rw [List.cons_append, linesFrom, if_neg (Ne.symm h.1), ih h.2, List.append_assoc]
    rfl

theorem not_mem_of_mem_linesFrom {cs l : List Char} (hline : '\n' ∉ line)
    (h : l ∈ linesFrom line cs) : '\n' ∉ l := by
  have hstrip : '\n' ∉ stripCr line := by
    rw [stripCr]
    split_ifs
    · exact fun hmem => hline (List.mem_of_mem_dropLast hmem)
    · exact hline
  induction cs generalizing line with
  | nil =>
    rw [linesFrom] at h
    split_ifs at h
    · cases h
    · rwa [List.mem_singleton.1 h]
  | cons c cs ih =>
    rw [linesFrom] at h
    split_ifs at h with hc
    · rcases List.mem_cons.1 h with rfl | h
      · exact hstrip
      · exact ih (by simp) h (by simp [stripCr])
    · have hnext : '\n' ∉ line ++ [c] := by simp [hline, Ne.symm hc]
      refine ih hnext h fun hmem => hnext ?_
      rw [stripCr] at hmem
      split_ifs at hmem
      · exact List.mem_of_mem_dropLast hmem
      · exact hmem

theorem stripCr_eq_self_iff : stripCr line = line ↔ line.getLast? ≠ some '\r' := by
  rw [stripCr]
  split_ifs with h
  · refine iff_of_false (fun heq => ?_) (not_not.2 h)
    obtain ⟨l, rfl⟩ := List.getLast?_eq_some_iff.1 h
    simp at heq
  · simp [h]

/-! ## Declarations -/

namespace WorkloadSpec

def encodeText (s : WorkloadSpec) : List Char :=
  s.name.toList ++ '\n' :: (s.targetNode.toList ++ '\n' ::
    (hex s.image.bytes ++ '\n' :: (effectToken s.effect).toList))

def encode (s : WorkloadSpec) : Bytes := utf8 (String.ofList s.encodeText)

def decodeLines : List (List Char) → Except SpecDecodeError WorkloadSpec
  | name :: target :: image :: effect :: _ =>
    match blobdigestFromHex image, effectOfToken effect with
    | none, _ => .error .invalidDigest
    | some _, none => .error .invalidEffect
    | some image, some effect => .ok ⟨String.ofList name, String.ofList target, image, effect⟩
  | _ => .error .missingField

def decode (bytes : Bytes) : Except SpecDecodeError WorkloadSpec :=
  match String.fromUTF8? ⟨bytes.toArray⟩ with
  | none => .error .notUtf8
  | some text => decodeLines (linesFrom [] text.toList)

/-- Neither the name nor the node has a line feed. -/
def Unbroken (s : WorkloadSpec) : Prop := '\n' ∉ s.name.toList ∧ '\n' ∉ s.targetNode.toList

/-- Neither ends in a carriage return. -/
def Unstripped (s : WorkloadSpec) : Prop :=
  s.name.toList.getLast? ≠ some '\r' ∧ s.targetNode.toList.getLast? ≠ some '\r'

variable {s t : WorkloadSpec}

theorem decode_encode (s : WorkloadSpec) :
    decode s.encode = decodeLines (linesFrom [] s.encodeText) := by
  rw [decode, encode, fromUTF8?_utf8]
  simp

theorem effectOfToken_effectToken (e : SideEffect) :
    effectOfToken (effectToken e).toList = some e := by
  cases e <;> decide

theorem newline_not_mem_hex (b : Bytes) : '\n' ∉ hex b := not_mem_hex (by decide) b

theorem decode_encode_of_unbroken (himage : s.image.bytes ≠ []) (h : s.Unbroken) :
    decode s.encode = .ok { s with
      name := String.ofList (stripCr s.name.toList)
      targetNode := String.ofList (stripCr s.targetNode.toList) } := by
  have hhex : hex s.image.bytes ≠ [] := fun hnil => himage (hex_injective hnil)
  have hstrip : stripCr (hex s.image.bytes) = hex s.image.bytes := by
    refine stripCr_eq_self_iff.2 fun hlast => ?_
    exact not_mem_hex (by decide) _ (List.mem_of_getLast? hlast)
  have heffect : linesFrom [] (effectToken s.effect).toList = [(effectToken s.effect).toList] := by
    cases s.effect <;> decide
  rw [decode_encode, encodeText, linesFrom_append h.1, linesFrom_append h.2,
    linesFrom_append (newline_not_mem_hex _), heffect]
  simp only [decodeLines, List.nil_append, hstrip, blobdigestFromHex, if_neg hhex, hexDecode_hex,
    Option.map_some, effectOfToken_effectToken]

/-- **When a declaration is read back as it was written.** -/
theorem decode_encode_iff (himage : s.image.bytes ≠ []) :
    decode s.encode = .ok s ↔ s.Unbroken ∧ s.Unstripped := by
  constructor
  · intro h
    have hbroken : s.Unbroken := by
      rw [decode_encode] at h
      have hlines : ∀ l ∈ linesFrom [] s.encodeText, '\n' ∉ l :=
        fun l hl => not_mem_of_mem_linesFrom (by simp) hl
      revert h hlines
      rcases linesFrom [] s.encodeText with _ | ⟨name, _ | ⟨target, _ | ⟨image, _ | ⟨e, ls⟩⟩⟩⟩ <;>
        intro h hlines
      iterate 4 cases h
      rw [decodeLines] at h
      split at h
      · cases h
      · cases h
      · obtain rfl := Except.ok.inj h
        exact ⟨by simpa using hlines name (by simp), by simpa using hlines target (by simp)⟩
    rw [decode_encode_of_unbroken himage hbroken] at h
    injection h with h
    obtain ⟨hname, hnode, -⟩ := WorkloadSpec.mk.inj h
    refine ⟨hbroken, stripCr_eq_self_iff.1 ?_, stripCr_eq_self_iff.1 ?_⟩
    · simpa using congrArg String.toList hname
    · simpa using congrArg String.toList hnode
  · rintro ⟨hbroken, hname, hnode⟩
    rw [decode_encode_of_unbroken himage hbroken, stripCr_eq_self_iff.2 hname,
      stripCr_eq_self_iff.2 hnode, String.ofList_toList, String.ofList_toList]

theorem encode_inj (hs : s.Unbroken) (ht : t.Unbroken) (h : s.encode = t.encode) : s = t := by
  have htext : s.encodeText = t.encodeText := String.ofList_injective (utf8_injective h)
  obtain ⟨hname, htext⟩ := append_sep_inj hs.1 ht.1 htext
  obtain ⟨hnode, htext⟩ := append_sep_inj hs.2 ht.2 htext
  obtain ⟨himage, htoken⟩ :=
    append_sep_inj (newline_not_mem_hex _) (newline_not_mem_hex _) htext
  have heffect := congrArg effectOfToken htoken
  rw [effectOfToken_effectToken, effectOfToken_effectToken] at heffect
  exact WorkloadSpec.ext (String.toList_inj.1 hname) (String.toList_inj.1 hnode)
    (ContentId.ext (hex_injective himage)) (Option.some.inj heffect)

theorem unbroken_iff_count : s.Unbroken ↔ s.encodeText.count '\n' = 3 := by
  have hhex := List.count_eq_zero.2 (newline_not_mem_hex s.image.bytes)
  have heffect : (effectToken s.effect).toList.count '\n' = 0 := by cases s.effect <;> decide
  rw [Unbroken, ← List.count_eq_zero, ← List.count_eq_zero]
  simp [encodeText, hhex, heffect]
  omega

/-- A line feed can be taken for the end of a field. -/
theorem exists_encode_eq (h : ¬ s.Unbroken) : ∃ t : WorkloadSpec, s.encode = t.encode ∧ s ≠ t := by
  rw [Unbroken, not_and_or, not_not, not_not] at h
  rcases h with hname | hnode
  · obtain ⟨a, b, hab⟩ := List.append_of_mem hname
    refine ⟨{ s with
      name := String.ofList a
      targetNode := String.ofList (b ++ '\n' :: s.targetNode.toList) },
      by simp [encode, encodeText, hab], fun heq => ?_⟩
    have hlength := congrArg (fun s => s.name.toList.length) heq
    simp [hab] at hlength
  · obtain ⟨a, b, hab⟩ := List.append_of_mem hnode
    refine ⟨{ s with
      name := String.ofList (s.name.toList ++ '\n' :: a)
      targetNode := String.ofList b },
      by simp [encode, encodeText, hab], fun heq => ?_⟩
    have hlength := congrArg (fun s => s.name.toList.length) heq
    simp at hlength

theorem encode_unique_iff : (∀ t, s.encode = t.encode → s = t) ↔ s.Unbroken := by
  constructor
  · intro hunique
    by_contra hbroken
    obtain ⟨t, heq, hne⟩ := exists_encode_eq hbroken
    exact hne (hunique t heq)
  · intro hs t h
    have htext : s.encodeText = t.encodeText := String.ofList_injective (utf8_injective h)
    exact encode_inj hs (unbroken_iff_count.2 (htext ▸ unbroken_iff_count.1 hs)) h

end WorkloadSpec

open WorkloadSpec

/-- **A declaration means one thing exactly if no field breaks a line.** -/
theorem declaration_means_one_thing (s : WorkloadSpec) :
    (s.image.bytes ≠ [] → (decode s.encode = .ok s ↔ s.Unbroken ∧ s.Unstripped)) ∧
    ((∀ t, s.encode = t.encode → s = t) ↔ s.Unbroken) :=
  ⟨fun himage => decode_encode_iff himage, encode_unique_iff⟩

def web (name node : String) : WorkloadSpec := ⟨name, node, ⟨[0xab]⟩, .exclusive⟩

theorem web_read_back : (web "web" "n1").image.bytes ≠ [] ∧
    decode (web "web" "n1").encode = .ok (web "web" "n1") :=
  ⟨by decide, ((declaration_means_one_thing _).1 (by decide)).2
    ⟨⟨by decide, by decide⟩, by decide, by decide⟩⟩

/-- A line feed moves the fields: two declarations are written alike, and one for `n1` is read as
one for `n2`. -/
theorem fields_move :
    (web "a\nb" "c" ≠ web "a" "b\nc" ∧ (web "a\nb" "c").encode = (web "a" "b\nc").encode) ∧
    decode (web "web\nn2\nab\nexclusive" "n1").encode = .ok (web "web" "n2") ∧
    decode (web "web\r" "n1").encode = .ok (web "web" "n1") := by
  decide +kernel

end Pillar.Controller
