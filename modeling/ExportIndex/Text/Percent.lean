import ExportIndex.Text.Encoding

/-!
Percent escapes and file addresses. A percent sign with two hexadecimal digits
after it stands for one byte; every other byte stands for itself, a percent
sign without its digits included. Decoding works on the bytes of the text, so
that an escaped multi-byte character is put together again, and never fails.
-/
namespace ExportIndex.Percent

def hexValue (b : UInt8) : Option Nat :=
  let n := b.toNat
  if 48 ≤ n ∧ n ≤ 57 then some (n - 48)
  else if 97 ≤ n ∧ n ≤ 102 then some (n - 87)
  else if 65 ≤ n ∧ n ≤ 70 then some (n - 55)
  else none

def unescape : List UInt8 → List UInt8
  | a :: b :: c :: rest =>
    if a = 37 then
      match hexValue b, hexValue c with
      | some hi, some lo => Utf8.byte (hi * 16 + lo) :: unescape rest
      | _, _ => a :: unescape (b :: c :: rest)
    else a :: unescape (b :: c :: rest)
  | bytes => bytes

def decode (text : String) : String :=
  String.ofList (Utf8.decode (unescape (Utf8.encodeAll text.toList)))

def scheme : List Char := ['f', 'i', 'l', 'e', ':', '/', '/']

def dropStart (start text : List Char) : List Char :=
  if start.isPrefixOf text then text.drop start.length else text

/-- The path a file address names. Escapes are decoded before the scheme is
looked for, so an escaped scheme counts too. -/
def pathOfAddress (address : String) : String :=
  String.ofList (dropStart scheme (decode address).toList)

end ExportIndex.Percent
