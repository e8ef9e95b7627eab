import Pillar.Lib.Compare

/-!
# Core values

The value types of `pillar-core` that the models share.

Byte strings are `List UInt8` and compare lexicographically, as `Vec<u8>` does. Counters that the
source keeps in a `u64` and only compares or increments are `ℕ`.
-/

namespace Pillar

abbrev Bytes := List UInt8

/-- A participating node identity: the fingerprint string. -/
abbrev NodeId := String

abbrev Epoch := ℕ

/-- How a resource's side effects behave. -/
inductive SideEffect where
  /-- Non-idempotent, or requires exactly one execution. -/
  | exclusive
  /-- Idempotent, convergent, or cheaply reclaimable. -/
  | convergent
  deriving DecidableEq

/-- The consistency policy a view opts into for its underlying stream. -/
inductive ViewPolicy where
  /-- Quorum-fenced: exclusive actions are gated on the coordination core. -/
  | strict
  /-- Eventually consistent merge; no exclusivity guarantee. -/
  | relaxed
  deriving DecidableEq

/-- Whether a policy may authorise a side effect: only a strict view may
authorise an exclusive action. -/
def ViewPolicy.admits : ViewPolicy → SideEffect → Bool
  | .strict, _ => true
  | .relaxed, .convergent => true
  | .relaxed, .exclusive => false

@[simp] theorem ViewPolicy.strict_admits (e : SideEffect) : ViewPolicy.strict.admits e = true := rfl

/-! ## Strings

A `String` of the source: valid UTF-8, compared by its bytes, and no longer than
an allocation may be (`isize::MAX`), which is why a `u64` length prefix never
wraps. -/

open Std Lib.Compare

def utf8 (s : String) : Bytes := s.toByteArray.data.toList

theorem utf8_injective : Function.Injective utf8 := by
  intro a b h
  exact String.toByteArray_inj.1 (ByteArray.ext (Array.toList_inj.1 h))

theorem fromUTF8?_utf8 (s : String) : String.fromUTF8? ⟨(utf8 s).toArray⟩ = some s := by
  rw [String.fromUTF8?, utf8, Array.toArray_toList]
  exact dif_pos s.isValidUTF8

/-- A string no longer than an allocation may be. -/
@[ext] structure Str where
  val : String
  size_lt : val.utf8ByteSize < 2 ^ 63
  deriving DecidableEq

namespace Str

/-- A literal. That it is short enough is evaluated. -/
abbrev lit (val : String)
    (h : decide (val.utf8ByteSize < 2 ^ 63) = true := by exact Eq.refl true) : Str :=
  ⟨val, of_decide_eq_true h⟩

def bytes (s : Str) : Bytes := s.val.toByteArray.data.toList

theorem length_bytes_lt (s : Str) : s.bytes.length < 256 ^ 8 := by
  have h : s.bytes.length = s.val.utf8ByteSize := by
    rw [bytes, Array.length_toList]
    rfl
  have := s.size_lt
  omega

theorem bytes_injective : Function.Injective bytes := by
  intro a b h
  have hdata : a.val.toByteArray.data = b.val.toByteArray.data := Array.toList_inj.1 h
  exact Str.ext (String.toByteArray_inj.1 (ByteArray.ext hdata))

/-- The string of a slice of bytes, if they are UTF-8. -/
def fromUtf8 (b : Bytes) : Option Str :=
  (String.fromUTF8? ⟨b.toArray⟩).bind fun s =>
    if h : s.utf8ByteSize < 2 ^ 63 then some ⟨s, h⟩ else none

theorem fromUtf8_eq_some_iff {b : Bytes} {s : Str} : fromUtf8 b = some s ↔ b = s.bytes := by
  constructor
  · intro h
    obtain ⟨text, htext, hs⟩ := Option.bind_eq_some_iff.1 h
    split_ifs at hs
    obtain rfl := Option.some.inj hs
    rw [String.fromUTF8?] at htext
    split_ifs at htext
    obtain rfl := Option.some.inj htext
    rfl
  · rintro rfl
    have hback : String.fromUTF8? ⟨s.bytes.toArray⟩ = some s.val := fromUTF8?_utf8 s.val
    rw [fromUtf8, hback]
    exact dif_pos s.size_lt

instance : Ord Str := ⟨compareOn bytes⟩

theorem compare_def (a b : Str) : compare a b = compare a.bytes b.bytes := rfl

instance : TransOrd Str := inferInstanceAs (TransCmp (compareOn bytes))

instance : LawfulEqOrd Str where
  compare_self := by
    intro a
    rw [compare_def]
    exact ReflCmp.compare_self
  eq_of_compare := by
    intro a b h
    rw [compare_def] at h
    exact bytes_injective (LawfulEqCmp.eq_of_compare h)

instance : LinearOrder Str := linearOrderOfOrd Str

end Str

theorem mapError_eq_ok_iff {α ε ε' : Type} {f : ε → ε'} {x : Except ε α} {a : α} :
    x.mapError f = .ok a ↔ x = .ok a := by
  cases x <;> simp [Except.mapError]

end Pillar
