import Pillar.Bootstrap.Token
import Pillar.Lib.Utf8

/-!
# Image references

`pillar-cli`'s `ImageRef`: the address of a provider and a digest in hex.

* `image_ref_exact` — **when there is no panic and only hex digits are accepted**: what follows the
  pairs that are read does not start with a character that two bytes end inside of, and if nothing
  follows them there is no plus sign.
-/

namespace Pillar.WorkloadReconcile

open Bootstrap Lib.Hex Lib.Delimited Lib.Utf8

/-- How addresses are printed and parsed. -/
structure MultiaddrCodec (A : Type) where
  print : A → Text
  parse : Text → Option A

structure MultiaddrCodec.Inverse {A : Type} (C : MultiaddrCodec A) : Prop where
  parse_print : ∀ a, C.parse (C.print a) = some a
  bar_not_mem : ∀ a, '|' ∉ C.print a

structure ImageRef (A : Type) where
  provider : A
  digest : ContentId
  deriving DecidableEq

/-- The value of digits, as far as it fits a `u8`. -/
def u8OfDigits (ds : Text) : Option UInt8 :=
  (ds.foldlM (fun n d => (toDigit d).map (16 * n + ·)) 0).bind fun n =>
    if n < 256 then some (.ofNat n) else none

/-- `u8::from_str_radix(_, 16)`. -/
def fromStrRadix : Text → Option UInt8
  | [] => none
  | '+' :: d :: ds => u8OfDigits (d :: ds)
  | ds => u8OfDigits ds

/-- The bytes of `n` pairs of digits; the outer `none` is the panic. -/
def decodePairs : ℕ → Text → Option (Option Bytes)
  | 0, _ => some (some [])
  | n + 1, s => (splitAt s 2).bind fun parts =>
    match fromStrRadix parts.1 with
    | none => some none
    | some b => (decodePairs n parts.2).map (Option.map (b :: ·))

def decodeHex (s : Text) : Option (Option Bytes) :=
  if size s % 2 ≠ 0 then some none else decodePairs (size s / 2) s

variable {A : Type} (C : MultiaddrCodec A)

def parse (image : Text) : Option (Option (ImageRef A)) :=
  match image.dropPrefix? "blob:".toList with
  | none => some none
  | some rest =>
    if '|' ∈ rest then
      match C.parse (splitLast '|' rest).1 with
      | none => some none
      | some provider => (decodeHex (splitLast '|' rest).2).map
          (Option.map fun bytes => ⟨provider, ⟨bytes⟩⟩)
    else some none

def encode (provider : A) (digest : ContentId) : Text :=
  "blob:".toList ++ (C.print provider ++ '|' :: hex digest.bytes)

/-- The part after the last bar. -/
def digits (image : Text) : Text := (splitLast '|' image).2

/-- Two characters that are read as a byte. -/
def isPair (a b : Char) : Bool := ((toDigit a).isSome || a == '+') && (toDigit b).isSome

/-- What follows the pairs that are read. -/
def unread : Text → Text
  | a :: b :: s => if isPair a b then unread s else a :: b :: s
  | s => s

/-- What follows the pairs can be taken apart after two bytes, and if there is nothing, no pair has
a plus sign. -/
def Clean (s : Text) : Prop :=
  (unread s ≠ [] → (splitAt (unread s) 2).isSome = true) ∧ (unread s = [] → '+' ∉ s)

/-- The digits are looked at: an address that parses, a bar, and an even number of bytes. -/
def ReachesDigits (image : Text) : Prop :=
  ∃ address, image = "blob:".toList ++ (address ++ '|' :: digits image) ∧
    (C.parse address).isSome = true ∧ size (digits image) % 2 = 0

/-! ## Digits -/

theorem size_of_ascii {s : Text} (h : ∀ c ∈ s, c.utf8Size = 1) : size s = s.length := by
  induction s with
  | nil => rfl
  | cons c s ih =>
    obtain ⟨hc, hs⟩ := List.forall_mem_cons.1 h
    rw [size_cons, hc, ih hs, List.length_cons, Nat.add_comm]

theorem utf8Size_of_toDigit {c : Char} (h : (toDigit c).isSome = true) : c.utf8Size = 1 := by
  rw [toDigit] at h
  have hle : c ≤ '\x7f' := by
    split_ifs at h with h0 h1 h2
    · exact h0.2.trans (by decide)
    · exact h1.2.trans (by decide)
    · exact h2.2.trans (by decide)
    · cases h
  exact Char.utf8Size_eq_one_iff.2 hle

theorem toDigit_lt {c : Char} {n : ℕ} (h : toDigit c = some n) : n < 16 := by
  have hle : ∀ d : Char, c ≤ d → c.toNat ≤ d.toNat := fun _ hd => UInt32.le_iff_toNat_le.1 hd
  rw [toDigit] at h
  split_ifs at h with h0 h1 h2
  · have : c.toNat ≤ 57 := hle _ h0.2
    cases h
    omega
  · have : c.toNat ≤ 102 := hle _ h1.2
    cases h
    omega
  · have : c.toNat ≤ 70 := hle _ h2.2
    cases h
    omega

theorem u8OfDigits_isSome_iff {a b : Char} :
    (u8OfDigits [a, b]).isSome = true ↔ (toDigit a).isSome = true ∧ (toDigit b).isSome = true := by
  simp only [u8OfDigits, List.foldlM_cons, List.foldlM_nil, Option.bind_eq_bind]
  cases ha : toDigit a with
  | none => simp
  | some x =>
    cases hb : toDigit b with
    | none => simp
    | some y =>
      have hx := toDigit_lt ha
      have hy := toDigit_lt hb
      simp [show 16 * x + y < 256 by omega]

/-- **What is read as a byte.** -/
theorem fromStrRadix_isSome_iff {a b : Char} :
    (fromStrRadix [a, b]).isSome = true ↔ isPair a b = true := by
  rw [isPair, Bool.and_eq_true, Bool.or_eq_true, beq_iff_eq]
  by_cases ha : a = '+'
  · subst ha
    cases hb : toDigit b with
    | none => simp [fromStrRadix, u8OfDigits, hb]
    | some y =>
      have hy := toDigit_lt hb
      simp [fromStrRadix, u8OfDigits, hb, show y < 256 by omega]
  · rw [fromStrRadix.eq_3 _ (by simp) fun _ _ heq => ha (List.cons.inj heq).1,
      u8OfDigits_isSome_iff]
    simp [ha]

theorem splitAt_two {s x rest : Text} (h : splitAt s 2 = some (x, rest)) :
    (∃ a b, x = [a, b] ∧ s = a :: b :: rest) ∨ ∃ a, x = [a] ∧ a.utf8Size = 2 ∧ s = a :: rest := by
  cases s with
  | nil => cases h
  | cons a s =>
    have hpos := a.utf8Size_pos
    rw [splitAt] at h
    split_ifs at h with hle
    obtain ⟨⟨y, rest'⟩, hsplit, heq⟩ := Option.map_eq_some_iff.1 h
    obtain ⟨rfl, rfl⟩ := Prod.mk.inj heq
    obtain hone | htwo : a.utf8Size = 1 ∨ a.utf8Size = 2 := by omega
    · -- a second byte is left
      rw [hone] at hsplit
      cases s with
      | nil => cases hsplit
      | cons b s =>
        have hposb := b.utf8Size_pos
        rw [splitAt] at hsplit
        split_ifs at hsplit with hleb
        have honeb : b.utf8Size = 1 := by omega
        rw [honeb, splitAt] at hsplit
        cases hsplit
        exact .inl ⟨a, b, rfl, rfl⟩
    · rw [htwo, splitAt] at hsplit
      cases hsplit
      exact .inr ⟨a, rfl, htwo, rfl⟩

theorem utf8Size_of_isPair {a b : Char} (h : isPair a b = true) :
    a.utf8Size = 1 ∧ b.utf8Size = 1 := by
  simp only [isPair, Bool.and_eq_true, Bool.or_eq_true, beq_iff_eq] at h
  refine ⟨?_, utf8Size_of_toDigit h.2⟩
  rcases h.1 with ha | rfl
  · exact utf8Size_of_toDigit ha
  · rfl

theorem splitAt_pair {a b : Char} (h : isPair a b = true) (s : Text) :
    splitAt (a :: b :: s) 2 = some ([a, b], s) := by
  have := splitAt_size [a, b] s
  rwa [size_cons, size_cons, (utf8Size_of_isPair h).1, (utf8Size_of_isPair h).2] at this

theorem fromStrRadix_eq_none {s x rest : Text} (hsplit : splitAt s 2 = some (x, rest))
    (h : ∀ a b s', s = a :: b :: s' → isPair a b = false) : fromStrRadix x = none := by
  rcases splitAt_two hsplit with ⟨a, b, rfl, rfl⟩ | ⟨a, rfl, htwo, rfl⟩
  · rw [← Option.not_isSome_iff_eq_none, fromStrRadix_isSome_iff, h a b rest rfl]
    simp
  · -- one character of two bytes, which is no digit
    have hdigit : toDigit a = none := by
      by_contra hne
      have := utf8Size_of_toDigit (Option.isSome_iff_ne_none.2 hne)
      omega
    simp [fromStrRadix, u8OfDigits, hdigit]

/-- **The pairs are read in turn, up to the first that is none.** -/
theorem decodePairs_cases {n : ℕ} {s : Text} (hsize : size s = 2 * n) :
    (unread s = [] ∧ ∃ b, decodePairs n s = some (some b)) ∨
      unread s ≠ [] ∧ decodePairs n s = (splitAt (unread s) 2).map fun _ => none := by
  induction n generalizing s with
  | zero =>
    cases s with
    | nil => exact .inl ⟨rfl, [], rfl⟩
    | cons c s =>
      have hpos := c.utf8Size_pos
      rw [size_cons] at hsize
      omega
  | succ n ih =>
    rw [decodePairs]
    by_cases hstart : ∃ a b s', s = a :: b :: s' ∧ isPair a b = true
    · obtain ⟨a, b, s, rfl, hpair⟩ := hstart
      obtain ⟨byte, hbyte⟩ := Option.isSome_iff_exists.1 (fromStrRadix_isSome_iff.2 hpair)
      have hrest : size s = 2 * n := by
        obtain ⟨ha, hb⟩ := utf8Size_of_isPair hpair
        rw [size_cons, size_cons, ha, hb] at hsize
        omega
      rw [splitAt_pair hpair, unread, if_pos hpair]
      simp only [Option.bind_some, hbyte]
      rcases ih hrest with ⟨hnil, bytes, hbytes⟩ | ⟨hne, hstop⟩
      · exact .inl ⟨hnil, byte :: bytes, by rw [hbytes]; rfl⟩
      · exact .inr ⟨hne, by rw [hstop, Option.map_map]; rfl⟩
    · have hnot : ∀ a b s', s = a :: b :: s' → isPair a b = false := by
        intro a b s' hs
        rw [← Bool.not_eq_true]
        exact fun hpair => hstart ⟨a, b, s', hs, hpair⟩
      have hunread : unread s = s := by
        rw [unread.eq_def]
        split
        · rw [hnot _ _ _ rfl]
          rfl
        · rfl
      refine .inr ⟨?_, ?_⟩
      · rw [hunread]
        rintro rfl
        simp at hsize
      · rw [hunread]
        cases hsplit : splitAt s 2 with
        | none => rfl
        | some parts =>
          simp only [Option.bind_some, fromStrRadix_eq_none hsplit hnot]
          rfl

theorem of_unread_eq_nil {s : Text} (h : unread s = []) :
    s.length % 2 = 0 ∧ ∀ c ∈ s, (toDigit c).isSome = true ∨ c = '+' := by
  fun_induction unread s with
  | case1 a b s hpair ih =>
    obtain ⟨heven, hall⟩ := ih h
    simp only [isPair, Bool.and_eq_true, Bool.or_eq_true, beq_iff_eq] at hpair
    refine ⟨by simp only [List.length_cons]; omega, ?_⟩
    simp only [List.forall_mem_cons]
    exact ⟨hpair.1, .inl hpair.2, hall⟩
  | case2 a b s hpair => cases h
  | case3 s hs =>
    subst h
    simp

theorem fromStrRadix_digits :
    ∀ hi < 16, ∀ lo < 16, fromStrRadix [digit hi, digit lo] = some (.ofNat (16 * hi + lo)) := by
  decide

theorem utf8Size_digit : ∀ n < 16, (digit n).utf8Size = 1 := by decide

theorem ascii_hex (b : Bytes) : ∀ c ∈ hex b, c.utf8Size = 1 := by
  intro c hc
  obtain ⟨n, hn, rfl⟩ := exists_digit_of_mem_hex hc
  exact utf8Size_digit n hn

theorem decodePairs_hex (b : Bytes) : decodePairs b.length (hex b) = some (some b) := by
  induction b with
  | nil => rfl
  | cons d b ih =>
    have hd := d.toNat_lt
    have hsplit : splitAt (hexByte d ++ hex b) 2 = some (hexByte d, hex b) := by
      have := splitAt_size (hexByte d) (hex b)
      rwa [size_of_ascii fun c hc => ascii_hex [d] c (by simpa [hex] using hc)] at this
    show decodePairs (b.length + 1) (hexByte d ++ hex b) = _
    rw [decodePairs, hsplit, Option.bind_some, hexByte,
      fromStrRadix_digits _ (by omega) _ (by omega), ih, Nat.div_add_mod, UInt8.ofNat_toNat]
    rfl

theorem length_hex (b : Bytes) : (hex b).length = 2 * b.length := by
  simp [hex, hexByte, Nat.mul_comm]

theorem decodeHex_hex (b : Bytes) : decodeHex (hex b) = some (some b) := by
  have hsize := size_of_ascii (ascii_hex b)
  rw [decodeHex, hsize, length_hex, if_neg (by omega), Nat.mul_div_cancel_left _ (by decide),
    decodePairs_hex]

/-! ## References -/

theorem exists_last_bar {s : Text} (h : '|' ∈ s) : ∃ a b, s = a ++ '|' :: b ∧ '|' ∉ b := by
  obtain ⟨b, a, heq, hb⟩ := List.eq_append_cons_of_mem (List.mem_reverse.2 h)
  refine ⟨a.reverse, b.reverse, ?_, by simpa using hb⟩
  rw [← List.reverse_reverse s, heq]
  simp

theorem digits_append {a b : Text} (hb : '|' ∉ b) : digits (a ++ '|' :: b) = b := by
  rw [digits, splitLast_append _ hb]

theorem parse_of_reachesDigits {image : Text} (h : ReachesDigits C image) :
    ∃ provider, parse C image = (decodePairs (size (digits image) / 2) (digits image)).map
      (Option.map fun bytes => ⟨provider, ⟨bytes⟩⟩) := by
  obtain ⟨address, himage, hsome, heven⟩ := h
  obtain ⟨provider, hprovider⟩ := Option.isSome_iff_exists.1 hsome
  have hbar : '|' ∉ digits image := by
    obtain ⟨a, b, heq, hb⟩ := exists_last_bar (s := image) (by rw [himage]; simp)
    rwa [heq, digits_append hb]
  refine ⟨provider, ?_⟩
  rw [parse]
  conv_lhs => rw [himage, dropPrefix?_append]
  simp [splitLast_append _ hbar, hprovider, decodeHex, heven]

theorem parse_of_not_reachesDigits {image : Text} (h : ¬ ReachesDigits C image) :
    parse C image = some none := by
  rw [parse]
  split
  · rfl
  · next rest hrest =>
    obtain ⟨w, rfl, hw⟩ := List.dropPrefix?_eq_some_iff.1 hrest
    obtain rfl := eq_of_beq hw
    split_ifs with hbar
    · obtain ⟨a, b, rfl, hb⟩ := exists_last_bar hbar
      have hdigits : digits ("blob:".toList ++ (a ++ '|' :: b)) = b := by
        rw [← List.append_assoc, digits_append hb]
      rw [splitLast_append _ hb]
      split
      · rfl
      · rename_i provider hprovider
        rw [decodeHex, if_pos]
        · rfl
        · exact fun heven => h ⟨a, by rw [hdigits], by rw [hprovider]; rfl, by rwa [hdigits]⟩
    · rfl

theorem parse_encode {C : MultiaddrCodec A} (hC : C.Inverse) (provider : A) (digest : ContentId) :
    parse C (encode C provider digest) = some (some ⟨provider, digest⟩) := by
  have hbar : '|' ∉ hex digest.bytes := not_mem_hex (by decide) _
  rw [parse, encode, dropPrefix?_append]
  simp only [List.mem_append, List.mem_cons, true_or, or_true, if_true,
    splitLast_append _ hbar, hC.parse_print, decodeHex_hex]
  rfl

/-- **Parsing is safe and exact where the digits are clean**, or not looked at. -/
theorem image_ref_exact {C : MultiaddrCodec A} (hC : C.Inverse) :
    (∀ image : Text,
      (∃ r, parse C image = some r ∧ (r.isSome →
        (digits image).length % 2 = 0 ∧ ∀ c ∈ digits image, (toDigit c).isSome)) ↔
      (ReachesDigits C image → Clean (digits image))) ∧
    ∀ provider digest, parse C (encode C provider digest) = some (some ⟨provider, digest⟩) := by
  refine ⟨fun image => ?_, parse_encode hC⟩
  by_cases hreach : ReachesDigits C image
  · obtain ⟨provider, hparse⟩ := parse_of_reachesDigits C hreach
    obtain ⟨-, -, -, heven⟩ := id hreach
    rw [hparse]
    simp only [hreach, forall_const]
    rcases decodePairs_cases (n := size (digits image) / 2) (s := digits image) (by omega) with
      ⟨hnil, b, hsome⟩ | ⟨hne, hstop⟩
    · obtain ⟨hlength, hall⟩ := of_unread_eq_nil hnil
      simp only [hsome, Clean, hnil, ne_eq, not_true_eq_false, false_imp_iff, true_and,
        forall_const, Option.map_some, Option.some.injEq, exists_eq_left',
        Option.isSome_some, hlength]
      refine ⟨fun hdigits hplus => ?_, fun hplus c hc => (hall c hc).resolve_right ?_⟩
      · exact absurd (hdigits _ hplus) (by decide)
      · rintro rfl
        exact hplus hc
    · rw [hstop]
      simp only [Clean, hne, ne_eq, not_false_eq_true, forall_const, false_imp_iff, and_true]
      cases hsplit : splitAt (unread (digits image)) 2 <;> simp
  · refine iff_of_true ⟨none, parse_of_not_reachesDigits C hreach, by simp⟩ fun h => absurd h hreach

/-- One address. -/
def memoryCodec : MultiaddrCodec Unit :=
  ⟨fun _ => "/memory/1".toList, fun s => if s = "/memory/1".toList then some () else none⟩

theorem memory_parsed :
    parse memoryCodec (encode memoryCodec () ⟨[0xab]⟩) = some (some ⟨(), ⟨[0xab]⟩⟩) ∧
      ∃ r, parse memoryCodec "blob:/memory/1|0Fé+f".toList = some r ∧ (r.isSome →
        (digits "blob:/memory/1|0Fé+f".toList).length % 2 = 0 ∧
          ∀ c ∈ digits "blob:/memory/1|0Fé+f".toList, (toDigit c).isSome) := by
  have hexact := image_ref_exact (C := memoryCodec) ⟨by decide, by decide⟩
  exact ⟨hexact.2 () ⟨[0xab]⟩, (hexact.1 _).2 fun _ => ⟨by decide +kernel, by decide +kernel⟩⟩

/-- Two bytes end inside of a character, which is a panic; a plus sign is accepted for a digit. -/
theorem not_only_digits :
    parse memoryCodec "blob:/memory/1|aéb".toList = none ∧
      parse memoryCodec "blob:/memory/1|+f".toList = some (some ⟨(), ⟨[15]⟩⟩) := by
  decide +kernel

end Pillar.WorkloadReconcile
