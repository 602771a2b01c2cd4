/-!
# Hexadecimal text

The two spellings of a number in messages: the shortest one in lower case, and the one of an
address with sixteen digits in upper case.
-/

namespace Staging.Hex

/-- `0x` and the lower-case digits without leading zeros. -/
def short (n : Nat) : String :=
  "0x" ++ String.ofList (Nat.toDigits 16 n)

/-- `0x` and at least sixteen upper-case digits. -/
def wide (n : Nat) : String :=
  "0x" ++ String.ofList (((Nat.toDigits 16 n).map Char.toUpper).leftpad 16 '0')

end Staging.Hex
