import TreeQuery.Text.Utf8

/-!
# Percent encoding

In a percent-encoded text, a percent sign and two digits of base sixteen stand for one byte; every other byte stands
for itself, a plus sign and a lone percent sign too.
-/

namespace TreeQuery.Text

/-- The value of a digit of base sixteen, given by its byte. -/
def hexByteValue? (b : Nat) : Option Nat :=
  if 0x30 ≤ b && b ≤ 0x39 then some (b - 0x30)
  else if 0x41 ≤ b && b ≤ 0x46 then some (b - 0x41 + 10)
  else if 0x61 ≤ b && b ≤ 0x66 then some (b - 0x61 + 10)
  else none

/-- The bytes that a percent-encoded text stands for. -/
def percentDecodedBytes : List Nat → List Nat
  | 0x25 :: x :: y :: rest =>
    match hexByteValue? x, hexByteValue? y with
    | some high, some low => (high * 16 + low) :: percentDecodedBytes rest
    | _, _ => 0x25 :: percentDecodedBytes (x :: y :: rest)
  | b :: rest => b :: percentDecodedBytes rest
  | [] => []

/-- The text that a percent-encoded one stands for, unless its bytes are not UTF-8. -/
def percentDecode (s : String) : Except Utf8Fault String :=
  String.ofList <$> decodeUtf8 0 (percentDecodedBytes (utf8Bytes s))

end TreeQuery.Text
