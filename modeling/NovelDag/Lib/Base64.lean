import Mathlib

/-!
# Base64

The standard alphabet with padding, over groups of three bytes and of four characters.
-/

namespace Base64

def alphabet : List Char :=
  "ABCDEFGHIJKLMNOPQRSTUVWXYZabcdefghijklmnopqrstuvwxyz0123456789+/".toList

/-- The character of six bits. -/
def digit (n : ℕ) : Char := alphabet.getD n '='

/-- The six bits of a character. -/
def value (c : Char) : Option ℕ :=
  if alphabet.idxOf c < 64 then some (alphabet.idxOf c) else none

theorem value_digit : ∀ {n : ℕ}, n < 64 → value (digit n) = some n := by decide

def encodeBytes : List UInt8 → List Char
  | [] => []
  | [a] => [digit (a.toNat / 4), digit (a.toNat % 4 * 16), '=', '=']
  | [a, b] => [digit (a.toNat / 4), digit (a.toNat % 4 * 16 + b.toNat / 16),
      digit (b.toNat % 16 * 4), '=']
  | a :: b :: c :: bytes =>
    digit (a.toNat / 4) :: digit (a.toNat % 4 * 16 + b.toNat / 16) ::
      digit (b.toNat % 16 * 4 + c.toNat / 64) :: digit (c.toNat % 64) :: encodeBytes bytes

/-- The bytes of four characters, the last ones of a text if there is padding. -/
def decodeGroup (w x y z : Char) : Option (List UInt8) := do
  let w ← value w
  let x ← value x
  let first := UInt8.ofNat (w * 4 + x / 16)
  if y = '=' ∧ z = '=' then if x % 16 = 0 then some [first] else none
  else
    let y ← value y
    let second := UInt8.ofNat (x % 16 * 16 + y / 4)
    if z = '=' then if y % 4 = 0 then some [first, second] else none
    else
      let z ← value z
      some [first, second, UInt8.ofNat (y % 4 * 64 + z)]

/-- Only the last group may be padded. -/
def decodeChars : List Char → Option (List UInt8)
  | [] => some []
  | [w, x, y, z] => decodeGroup w x y z
  | w :: x :: y :: z :: chars => do
    let group ← decodeGroup w x y z
    if group.length = 3 then return group ++ (← decodeChars chars) else none
  | _ => none

def encode (bytes : List UInt8) : String := String.ofList (encodeBytes bytes)

def decode (text : String) : Option (List UInt8) := decodeChars text.toList

theorem digit_ne_pad : ∀ {n : ℕ}, n < 64 → digit n ≠ '=' := by decide +kernel

theorem ofNat_toNat_eq {a : UInt8} {n : ℕ} (h : n = a.toNat) : UInt8.ofNat n = a := by
  rw [h, UInt8.ofNat_toNat]

theorem decodeGroup_three (a b c : UInt8) :
    decodeGroup (digit (a.toNat / 4)) (digit (a.toNat % 4 * 16 + b.toNat / 16))
      (digit (b.toNat % 16 * 4 + c.toNat / 64)) (digit (c.toNat % 64)) = some [a, b, c] := by
  have ha := a.toNat_lt
  have hb := b.toNat_lt
  have hc := c.toNat_lt
  unfold decodeGroup
  rw [value_digit (by omega), value_digit (by omega), value_digit (by omega),
    value_digit (by omega)]
  simp only [Option.bind_eq_bind, Option.bind_some, digit_ne_pad (show c.toNat % 64 < 64 by omega),
    and_false, if_false, Option.some.injEq, List.cons.injEq, and_true]
  exact ⟨ofNat_toNat_eq (by omega), ofNat_toNat_eq (by omega), ofNat_toNat_eq (by omega)⟩

theorem decodeChars_encodeBytes : ∀ bytes : List UInt8,
    decodeChars (encodeBytes bytes) = some bytes
  | [] => rfl
  | [a] => by
    have ha := a.toNat_lt
    rw [encodeBytes, decodeChars, decodeGroup, value_digit (by omega), value_digit (by omega)]
    simp only [Option.bind_eq_bind, Option.bind_some, and_self, if_true]
    rw [if_pos (by omega), ofNat_toNat_eq (a := a) (by omega)]
  | [a, b] => by
    have ha := a.toNat_lt
    have hb := b.toNat_lt
    rw [encodeBytes, decodeChars, decodeGroup, value_digit (by omega), value_digit (by omega),
      value_digit (by omega)]
    simp only [Option.bind_eq_bind, Option.bind_some, and_true, if_true,
      digit_ne_pad (show b.toNat % 16 * 4 < 64 by omega), if_false]
    rw [if_pos (by omega), ofNat_toNat_eq (a := a) (by omega), ofNat_toNat_eq (a := b) (by omega)]
  | a :: b :: c :: bytes => by
    have ih := decodeChars_encodeBytes bytes
    rw [encodeBytes]
    rcases hrest : encodeBytes bytes with _ | ⟨d, rest⟩
    · rw [hrest] at ih
      obtain rfl := Option.some.inj ih
      rw [decodeChars, decodeGroup_three]
    · rw [decodeChars, decodeGroup_three, ← hrest, ih]
      · rfl
      · exact List.cons_ne_nil _ _

/-- What is encoded decodes to itself. -/
theorem decode_encode (bytes : List UInt8) : decode (encode bytes) = some bytes := by
  unfold decode encode
  rw [String.toList_ofList, decodeChars_encodeBytes]

end Base64
