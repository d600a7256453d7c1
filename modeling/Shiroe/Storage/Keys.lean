import Shiroe.Base
import Mathlib.Data.Int.Log
import Mathlib.Data.Rat.Floor

/-!
# Keys of a dict

The key of a Python dict may be a text, a number, a boolean or `None`; numbers of different types
are one key if they are equal, and a float is the double next to the decimal it is written as.  A
text may hold a character above U+FFFF as two surrogates.

* `PyKey.text` is the text that `json.dumps` writes for a key;
* `PyKey.lt` is the order in which `sorted` puts keys;
* `PyKey.same` says when two keys are one in a dict.
-/

namespace Shiroe

/-- A character of a text, and whether it is held as two surrogates if it is above U+FFFF. -/
structure PyChar where
  char : Char
  split : Bool := false
  deriving DecidableEq

/-- The code points of a character. -/
def PyChar.codes (c : PyChar) : List ℕ :=
  if c.split ∧ 0x10000 ≤ c.char.toNat then
    [0xD800 + (c.char.toNat - 0x10000) / 0x400, 0xDC00 + (c.char.toNat - 0x10000) % 0x400]
  else [c.char.toNat]

/-- The key of a dict, of the types `json.dumps` takes. -/
inductive PyKey where
  | none
  | bool (b : Bool)
  | int (n : ℤ)
  | float (x : PyFloat)
  | str (s : String)
  /-- A text with surrogates. -/
  | split (s : List PyChar)
  deriving DecidableEq

/-- The integer next to a rational number; of two that are equally near, the even one. -/
def roundEven (q : ℚ) : ℤ :=
  let below := q.floor
  if q - below < 1 / 2 then below
  else if 1 / 2 < q - below then below + 1
  else if below % 2 = 0 then below else below + 1

/-- The double next to a rational number: 53 binary digits, and the least exponent is `-1074`. -/
def toDouble (q : ℚ) : ℚ :=
  let exponent := max (Int.log 2 (abs q) - 52) (-1074)
  roundEven (q / 2 ^ exponent) * 2 ^ exponent

namespace PyKey

/-- The text a key is written as; two surrogates are written as the character is. -/
def text : PyKey → String
  | .none => "null"
  | .bool b => if b then "true" else "false"
  | .int n => String.ofList (Json.dumpsInt n)
  | .float x => x.repr
  | .str s => s
  | .split s => String.ofList (s.map (·.char))

/-- The code points of a text. -/
def codes : PyKey → Option (List ℕ)
  | .str s => some (s.toList.map Char.toNat)
  | .split s => some (s.flatMap PyChar.codes)
  | _ => Option.none

/-- The number that a key is, `-1` and `1` in front standing for the infinities; nothing for
`NaN`. -/
def number : PyKey → Option (ℤ × ℚ)
  | .bool b => some (0, if b then 1 else 0)
  | .int n => some (0, n)
  | .float x =>
    if x.isFinite then some (0, toDouble x.value)
    else if x.repr = "Infinity" then some (1, 0)
    else if x.repr = "-Infinity" then some (-1, 0)
    else Option.none
  | _ => Option.none

/-- `a < b`, for two strings or two numbers; strings are compared by their code points. -/
def lt : PyKey → PyKey → Bool
  | .str s, .str t => decide (s < t)
  | a, b =>
    match a.codes, b.codes with
    | some x, some y => decide (x < y)
    | _, _ =>
      match a.number, b.number with
      | some x, some y => x.1 < y.1 || (x.1 = y.1 && x.2 < y.2)
      | _, _ => false

/-- `isinstance(k, str)`. -/
def isStr : PyKey → Bool
  | .str _ => true
  | .split _ => true
  | _ => false

/-- `k != k`. -/
def isNaN : PyKey → Bool
  | .float x => x.isNaN
  | _ => false

/-- `k is None`. -/
def isNone : PyKey → Bool
  | .none => true
  | _ => false

/-- The two keys are one in a dict, as `1`, `1.0` and `True` are. -/
def same (a b : PyKey) : Bool := a = b || (a.number.isSome && a.number = b.number)

end PyKey

end Shiroe
