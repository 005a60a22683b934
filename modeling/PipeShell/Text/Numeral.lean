/-!
Numerals as lists of digits in a base up to sixteen, most significant digit first.
-/
namespace PipeShell.Text

def digitValue? (c : Char) : Option Nat :=
  let n := c.toNat
  if 0x30 ≤ n ∧ n ≤ 0x39 then some (n - 0x30)
  else if 0x61 ≤ n ∧ n ≤ 0x66 then some (n - 0x61 + 10)
  else if 0x41 ≤ n ∧ n ≤ 0x46 then some (n - 0x41 + 10)
  else none

def isDigit (base : Nat) (c : Char) : Bool :=
  match digitValue? c with
  | some d => d < base
  | none => false

def value (base : Nat) (digits : List Char) : Nat :=
  digits.foldl (fun v c => v * base + (digitValue? c).getD 0) 0

/-- The value of a text that is digits and nothing else. -/
def numeral? (base : Nat) (cs : List Char) : Option Nat :=
  if cs != [] && cs.all (isDigit base) then some (value base cs) else none

/-- The digits of a number, in lower case. -/
def numeralText (base n : Nat) : String := String.ofList (Nat.toDigits base n)

end PipeShell.Text
