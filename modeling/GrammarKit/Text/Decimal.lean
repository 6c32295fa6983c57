/-
Decimal numbers of a fixed width: digits behind at most one sign, within the bounds of two's complement.
-/
namespace GrammarKit.Decimal

/-- The number that is written, if it fits into `bits` bits. -/
def read? (bits : Nat) (s : String) : Option Int :=
  let (negative, digits) := match s.toList with
    | '-' :: rest => (true, rest)
    | '+' :: rest => (false, rest)
    | rest => (false, rest)
  if digits.isEmpty || !digits.all Char.isDigit then none
  else
    let size : Nat := digits.foldl (fun n d => 10 * n + (d.toNat - '0'.toNat)) 0
    let bound := Nat.pow 2 (bits - 1)
    if negative then (if size ≤ bound then some (-Int.ofNat size) else none)
    else if size < bound then some (Int.ofNat size) else none

end GrammarKit.Decimal
