import Mathlib

/-!
# Base64

The standard alphabet, read strictly: four characters at a time, padding only at the very
end, nothing else in between.
-/

namespace Base64

/-- The six bits of a character of the alphabet. -/
def value (c : UInt8) : Option Nat :=
  let n := c.toNat
  if 65 ≤ n ∧ n ≤ 90 then some (n - 65)
  else if 97 ≤ n ∧ n ≤ 122 then some (n - 71)
  else if 48 ≤ n ∧ n ≤ 57 then some (n + 4)
  else if n = 43 then some 62
  else if n = 47 then some 63
  else none

/-- The padding character. -/
def pad : UInt8 := 61

/-- The character of six bits. -/
def symbol (n : Nat) : UInt8 :=
  if n < 26 then UInt8.ofNat (n + 65)
  else if n < 52 then UInt8.ofNat (n + 71)
  else if n < 62 then UInt8.ofNat (n - 4)
  else if n = 62 then 43
  else 47

/-- Encoding, with padding. -/
def encode : List UInt8 → List UInt8
  | [] => []
  | [a] => [symbol (a.toNat / 4), symbol (a.toNat % 4 * 16), pad, pad]
  | [a, b] =>
    [symbol (a.toNat / 4), symbol (a.toNat % 4 * 16 + b.toNat / 16), symbol (b.toNat % 16 * 4), pad]
  | a :: b :: c :: rest =>
    symbol (a.toNat / 4) :: symbol (a.toNat % 4 * 16 + b.toNat / 16) ::
      symbol (b.toNat % 16 * 4 + c.toNat / 64) :: symbol (c.toNat % 64) :: encode rest

/-- Strict decoding. -/
def decode : List UInt8 → Option (List UInt8)
  | [] => some []
  | a :: b :: c :: d :: rest => do
    let x ← value a
    let y ← value b
    let first := UInt8.ofNat (x * 4 + y / 16)
    if rest = [] ∧ d = pad then
      if c = pad then some [first]
      else
        let z ← value c
        some [first, UInt8.ofNat (y * 16 + z / 4)]
    else
      let z ← value c
      let w ← value d
      let tail ← decode rest
      some (first :: UInt8.ofNat (y * 16 + z / 4) :: UInt8.ofNat (z * 64 + w) :: tail)
  | _ => none

/-! ## The round trip -/

private theorem value_symbol : ∀ n < 64, value (symbol n) = some n := by decide

private theorem symbol_ne_pad : ∀ n < 64, symbol n ≠ pad := by decide

/-- A byte is put together from its bits, whatever stands above them. -/
theorem ofNat_eq {n : Nat} {a : UInt8} (h : n % 256 = a.toNat) : UInt8.ofNat n = a := by
  apply UInt8.toNat_inj.mp
  rw [UInt8.toNat_ofNat']
  exact h

/-- Three bytes are four symbols. -/
theorem decode_cons (a b c : UInt8) (rest : List UInt8) :
    decode (symbol (a.toNat / 4) :: symbol (a.toNat % 4 * 16 + b.toNat / 16) ::
      symbol (b.toNat % 16 * 4 + c.toNat / 64) :: symbol (c.toNat % 64) :: rest) =
        (decode rest).map fun tail => a :: b :: c :: tail := by
  have ha := a.toNat_lt
  have hb := b.toNat_lt
  have hc := c.toNat_lt
  have hpad : symbol (c.toNat % 64) ≠ pad := symbol_ne_pad _ (by omega)
  have hfirst : UInt8.ofNat (a.toNat / 4 * 4 + (a.toNat % 4 * 16 + b.toNat / 16) / 16) = a :=
    ofNat_eq (by omega)
  have hsecond : UInt8.ofNat ((a.toNat % 4 * 16 + b.toNat / 16) * 16 +
      (b.toNat % 16 * 4 + c.toNat / 64) / 4) = b := ofNat_eq (by omega)
  have hthird : UInt8.ofNat ((b.toNat % 16 * 4 + c.toNat / 64) * 64 + c.toNat % 64) = c :=
    ofNat_eq (by omega)
  rw [decode, value_symbol _ (by omega), value_symbol _ (by omega), value_symbol _ (by omega),
    value_symbol _ (by omega)]
  simp only [Option.bind_eq_bind, Option.bind_some, hpad, and_false, if_false, hfirst,
    hsecond, hthird]
  cases decode rest <;> rfl

/-- What was encoded is decoded to itself. -/
theorem decode_encode (l : List UInt8) : decode (encode l) = some l := by
  fun_induction encode l with
  | case1 => rfl
  | case2 a =>
    have ha := a.toNat_lt
    have hfirst : UInt8.ofNat (a.toNat / 4 * 4 + a.toNat % 4 * 16 / 16) = a := ofNat_eq (by omega)
    rw [decode, value_symbol _ (by omega), value_symbol _ (by omega)]
    simp only [Option.bind_eq_bind, Option.bind_some, and_self, if_true, hfirst]
  | case3 a b =>
    have ha := a.toNat_lt
    have hb := b.toNat_lt
    have hpad : symbol (b.toNat % 16 * 4) ≠ pad := symbol_ne_pad _ (by omega)
    have hfirst : UInt8.ofNat (a.toNat / 4 * 4 + (a.toNat % 4 * 16 + b.toNat / 16) / 16) = a :=
      ofNat_eq (by omega)
    have hsecond :
      UInt8.ofNat ((a.toNat % 4 * 16 + b.toNat / 16) * 16 + b.toNat % 16 * 4 / 4) = b :=
      ofNat_eq (by omega)
    rw [decode, value_symbol _ (by omega), value_symbol _ (by omega), value_symbol _ (by omega)]
    simp only [Option.bind_eq_bind, Option.bind_some, and_self, if_true, hpad, if_false, hfirst,
      hsecond]
  | case4 a b c rest ih => rw [decode_cons, ih, Option.map_some]

end Base64
