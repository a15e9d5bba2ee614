/-!
# Hexadecimal text of bytes

Digests are written as two lower-case hex digits per byte, high nibble first.
-/

namespace Galley.Digest

def hexDigit (n : Nat) : Char :=
  if n < 10 then Char.ofNat (48 + n) else Char.ofNat (87 + n)

def hex (bytes : List UInt8) : String :=
  String.ofList (bytes.flatMap fun b => [hexDigit (b.toNat / 16), hexDigit (b.toNat % 16)])

end Galley.Digest
