/-!
# UTF-8

Reading bytes as characters. A fault names the byte at which the unreadable character starts, and how many bytes of
it are wrong, unless the input ends inside it.
-/

namespace TreeQuery.Text

/-- Why bytes are not UTF-8: at `index` starts no character. -/
inductive Utf8Fault where
  /-- The first `length` bytes there begin no character. -/
  | invalid (index length : Nat)
  /-- The bytes end inside a character. -/
  | incomplete (index : Nat)
  deriving DecidableEq, Repr

/-- How a fault is told. -/
def Utf8Fault.message : Utf8Fault → String
  | .invalid index length => s!"invalid utf-8 sequence of {length} bytes from index {index}"
  | .incomplete index => s!"incomplete utf-8 byte sequence from index {index}"

/-- Whether a byte continues a character. -/
def isContinuation (b : Nat) : Bool := 0x80 ≤ b && b ≤ 0xbf

/-- Whether `b` may follow the first byte `a` of a character of three bytes. -/
def isSecondOfThree (a b : Nat) : Bool :=
  if a = 0xe0 then 0xa0 ≤ b && b ≤ 0xbf
  else if a = 0xed then 0x80 ≤ b && b ≤ 0x9f
  else isContinuation b

/-- Whether `b` may follow the first byte `a` of a character of four bytes. -/
def isSecondOfFour (a b : Nat) : Bool :=
  if a = 0xf0 then 0x90 ≤ b && b ≤ 0xbf
  else if a = 0xf4 then 0x80 ≤ b && b ≤ 0x8f
  else isContinuation b

/-- The characters written by the bytes from position `index` on. -/
def decodeUtf8 (index : Nat) : List Nat → Except Utf8Fault (List Char)
  | [] => .ok []
  | a :: rest =>
    if a < 0x80 then (Char.ofNat a :: ·) <$> decodeUtf8 (index + 1) rest
    else if 0xc2 ≤ a && a ≤ 0xdf then
      match rest with
      | [] => .error (.incomplete index)
      | b :: rest =>
        if isContinuation b then
          (Char.ofNat ((a - 0xc0) * 64 + (b - 0x80)) :: ·) <$> decodeUtf8 (index + 2) rest
        else .error (.invalid index 1)
    else if 0xe0 ≤ a && a ≤ 0xef then
      match rest with
      | [] => .error (.incomplete index)
      | b :: rest =>
        if isSecondOfThree a b then
          match rest with
          | [] => .error (.incomplete index)
          | c :: rest =>
            if isContinuation c then
              (Char.ofNat ((a - 0xe0) * 4096 + (b - 0x80) * 64 + (c - 0x80)) :: ·) <$> decodeUtf8 (index + 3) rest
            else .error (.invalid index 2)
        else .error (.invalid index 1)
    else if 0xf0 ≤ a && a ≤ 0xf4 then
      match rest with
      | [] => .error (.incomplete index)
      | b :: rest =>
        if isSecondOfFour a b then
          match rest with
          | [] => .error (.incomplete index)
          | c :: rest =>
            if isContinuation c then
              match rest with
              | [] => .error (.incomplete index)
              | d :: rest =>
                if isContinuation d then
                  (Char.ofNat ((a - 0xf0) * 262144 + (b - 0x80) * 4096 + (c - 0x80) * 64 + (d - 0x80)) :: ·) <$>
                    decodeUtf8 (index + 4) rest
                else .error (.invalid index 3)
            else .error (.invalid index 2)
        else .error (.invalid index 1)
    else .error (.invalid index 1)

/-- The bytes of a string. -/
def utf8Bytes (s : String) : List Nat := s.toUTF8.toList.map UInt8.toNat

/-- The number of bytes that a text takes. -/
def byteLength : List Char → Nat
  | [] => 0
  | c :: cs => c.utf8Size + byteLength cs

/-- The characters that lie in the first `n` bytes, if `n` falls between two characters. -/
def takeBytes? : Nat → List Char → Option (List Char)
  | 0, _ => some []
  | _ + 1, [] => none
  | n + 1, c :: cs => if c.utf8Size ≤ n + 1 then (takeBytes? (n + 1 - c.utf8Size) cs).map (c :: ·) else none

/-- The bytes of two texts together. -/
theorem byteLength_append (a b : List Char) : byteLength (a ++ b) = byteLength a + byteLength b := by
  induction a with
  | nil => simp [byteLength]
  | cons c a ih => simp [byteLength, ih, Nat.add_assoc]

end TreeQuery.Text
