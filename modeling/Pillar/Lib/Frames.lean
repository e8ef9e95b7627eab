import Pillar.Lib.Compare

/-!
# Length-prefixed frames

A list of byte strings, each behind its length in eight little-endian bytes.

* `frames_inj` — **the encoding is unambiguous**, as long as every length fits into its bytes.
-/

namespace Lib.Frames

open Lib.Compare

def frame (b : List UInt8) : List UInt8 := (beBytes 8 b.length).reverse ++ b

def frames (bs : List (List UInt8)) : List UInt8 := bs.flatMap frame

theorem frames_cons (b : List UInt8) (bs : List (List UInt8)) :
    frames (b :: bs) = frame b ++ frames bs := rfl

theorem frame_append_inj {a b x y : List UInt8} (ha : a.length < 256 ^ 8) (hb : b.length < 256 ^ 8)
    (h : frame a ++ x = frame b ++ y) : a = b ∧ x = y := by
  rw [frame, frame, List.append_assoc, List.append_assoc] at h
  obtain ⟨hlen, hrest⟩ := List.append_inj h (by simp)
  exact List.append_inj hrest (beBytes_inj ha hb (List.reverse_injective hlen))

theorem frame_append_ne_nil (b x : List UInt8) : frame b ++ x ≠ [] := by
  intro h
  have hlen := congrArg List.length h
  simp [frame] at hlen

theorem frames_inj {as bs : List (List UInt8)} (ha : ∀ a ∈ as, a.length < 256 ^ 8)
    (hb : ∀ b ∈ bs, b.length < 256 ^ 8) (h : frames as = frames bs) : as = bs := by
  induction as generalizing bs with
  | nil =>
    cases bs with
    | nil => rfl
    | cons b bs => exact absurd h.symm (frame_append_ne_nil b (frames bs))
  | cons a as ih =>
    cases bs with
    | nil => exact absurd h (frame_append_ne_nil a (frames as))
    | cons b bs =>
      rw [frames_cons, frames_cons] at h
      obtain ⟨rfl, hrest⟩ :=
        frame_append_inj (ha a List.mem_cons_self) (hb b List.mem_cons_self) h
      rw [ih (fun x hx => ha x (List.mem_cons_of_mem _ hx))
        (fun x hx => hb x (List.mem_cons_of_mem _ hx)) hrest]

end Lib.Frames

/-! ## Reading bytes off the front

Readers of binary records: each takes a field off the front of a byte string and leaves the rest. -/

namespace Lib.Readers

open Lib.Compare Lib.Frames

/-! ## Numbers -/

def beNat (b : List UInt8) : ℕ := b.foldl (fun n d => 256 * n + d.toNat) 0

theorem foldl_beNat (b : List UInt8) (n : ℕ) :
    b.foldl (fun n d => 256 * n + d.toNat) n = 256 ^ b.length * n + beNat b := by
  induction b generalizing n with
  | nil => simp [beNat]
  | cons d b ih =>
    rw [beNat, List.foldl_cons, List.foldl_cons, ih, ih (256 * 0 + d.toNat), List.length_cons,
      pow_succ]
    ring

theorem beNat_cons (d : UInt8) (b : List UInt8) :
    beNat (d :: b) = 256 ^ b.length * d.toNat + beNat b := by
  rw [beNat, List.foldl_cons, foldl_beNat, Nat.mul_zero, Nat.zero_add]

theorem beNat_lt (b : List UInt8) : beNat b < 256 ^ b.length := by
  induction b with
  | nil => simp [beNat]
  | cons d b ih =>
    have hd : d.toNat + 1 ≤ 256 := d.toNat_lt
    calc beNat (d :: b) = 256 ^ b.length * d.toNat + beNat b := beNat_cons d b
      _ < 256 ^ b.length * (d.toNat + 1) := by rw [Nat.mul_succ]; omega
      _ ≤ 256 ^ b.length * 256 := Nat.mul_le_mul_left _ hd
      _ = 256 ^ (d :: b).length := by rw [List.length_cons, pow_succ]

theorem beNat_beBytes {w n : ℕ} (hn : n < 256 ^ w) : beNat (beBytes w n) = n := by
  induction w generalizing n with
  | zero =>
    obtain rfl : n = 0 := by simpa using hn
    rfl
  | succ w ih =>
    have hpos : 0 < 256 ^ w := Nat.pos_of_ne_zero (by positivity)
    have hlow := ih (Nat.mod_lt n hpos)
    rw [beBytes_mod w w n le_rfl] at hlow
    have hdigit : n / 256 ^ w < 256 := Nat.div_lt_of_lt_mul (by rwa [pow_succ] at hn)
    rw [beBytes, beNat_cons, length_beBytes, hlow, UInt8.toNat_ofNat', Nat.mod_eq_of_lt hdigit]
    exact Nat.div_add_mod n (256 ^ w)

theorem beBytes_beNat (b : List UInt8) : beBytes b.length (beNat b) = b := by
  induction b with
  | nil => rfl
  | cons d b ih =>
    have hlt := beNat_lt b
    have hpos : 0 < 256 ^ b.length := Nat.zero_lt_of_lt hlt
    have hdigit : beNat (d :: b) / 256 ^ b.length = d.toNat := by
      rw [beNat_cons, Nat.mul_add_div hpos, Nat.div_eq_of_lt hlt, Nat.add_zero]
    have hrest : beBytes b.length (beNat (d :: b)) = b := by
      rw [← beBytes_mod _ b.length _ le_rfl, beNat_cons, Nat.mul_add_mod, Nat.mod_eq_of_lt hlt, ih]
    rw [List.length_cons, beBytes, hdigit, hrest, UInt8.ofNat_toNat]

/-! ## The readers -/

def takeBytes (n : ℕ) (b : List UInt8) : Option (List UInt8 × List UInt8) :=
  if n ≤ b.length then some (b.take n, b.drop n) else none

variable {b : List UInt8} {rest : List UInt8}

theorem takeBytes_eq_some_iff {n : ℕ} {x : List UInt8} :
    takeBytes n b = some (x, rest) ↔ x.length = n ∧ b = x ++ rest := by
  rw [takeBytes]
  constructor
  · intro h
    split_ifs at h with hn
    obtain ⟨rfl, rfl⟩ := Prod.mk.inj (Option.some.inj h)
    exact ⟨List.length_take_of_le hn, (List.take_append_drop n b).symm⟩
  · rintro ⟨rfl, rfl⟩
    simp

def takeBe (w : ℕ) (b : List UInt8) : Option (ℕ × List UInt8) :=
  (takeBytes w b).map fun p => (beNat p.1, p.2)

theorem takeBe_eq_some_iff {w n : ℕ} :
    takeBe w b = some (n, rest) ↔ n < 256 ^ w ∧ b = beBytes w n ++ rest := by
  simp only [takeBe, Option.map_eq_some_iff, Prod.exists, takeBytes_eq_some_iff, Prod.mk.injEq]
  constructor
  · rintro ⟨x, rest, ⟨rfl, rfl⟩, rfl, rfl⟩
    exact ⟨beNat_lt x, by rw [beBytes_beNat]⟩
  · rintro ⟨hn, rfl⟩
    exact ⟨beBytes w n, rest, ⟨length_beBytes w n, rfl⟩, beNat_beBytes hn, rfl⟩

def takeLe (w : ℕ) (b : List UInt8) : Option (ℕ × List UInt8) :=
  (takeBytes w b).map fun p => (beNat p.1.reverse, p.2)

theorem takeLe_eq_some_iff {w n : ℕ} :
    takeLe w b = some (n, rest) ↔ n < 256 ^ w ∧ b = (beBytes w n).reverse ++ rest := by
  simp only [takeLe, Option.map_eq_some_iff, Prod.exists, takeBytes_eq_some_iff, Prod.mk.injEq]
  constructor
  · rintro ⟨x, rest, ⟨rfl, rfl⟩, rfl, rfl⟩
    have hback := beBytes_beNat x.reverse
    have hlt := beNat_lt x.reverse
    rw [List.length_reverse] at hback hlt
    exact ⟨hlt, by rw [hback, List.reverse_reverse]⟩
  · rintro ⟨hn, rfl⟩
    refine ⟨(beBytes w n).reverse, rest, ⟨by simp, rfl⟩, ?_, rfl⟩
    rw [List.reverse_reverse, beNat_beBytes hn]

theorem bind_takeBytes_eq_some_iff {number : List UInt8 → Option (ℕ × List UInt8)}
    {write : ℕ → List UInt8} {bound : ℕ}
    (hnumber : ∀ b n rest, number b = some (n, rest) ↔ n < bound ∧ b = write n ++ rest)
    {x : List UInt8} :
    ((number b).bind fun p => takeBytes p.1 p.2) = some (x, rest) ↔
      x.length < bound ∧ b = write x.length ++ x ++ rest := by
  simp only [Option.bind_eq_some_iff, Prod.exists, hnumber, takeBytes_eq_some_iff]
  constructor
  · rintro ⟨n, b, ⟨hn, rfl⟩, rfl, rfl⟩
    exact ⟨hn, by rw [List.append_assoc]⟩
  · rintro ⟨hn, rfl⟩
    exact ⟨x.length, x ++ rest, ⟨hn, by rw [List.append_assoc]⟩, rfl, rfl⟩

def takeFrame (b : List UInt8) : Option (List UInt8 × List UInt8) :=
  (takeLe 8 b).bind fun p => takeBytes p.1 p.2

theorem takeFrame_eq_some_iff {x : List UInt8} :
    takeFrame b = some (x, rest) ↔ x.length < 256 ^ 8 ∧ b = frame x ++ rest :=
  bind_takeBytes_eq_some_iff fun _ _ _ => takeLe_eq_some_iff

end Lib.Readers
