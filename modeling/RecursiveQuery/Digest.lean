import RecursiveQuery.Expr.Printer

/-!
# Plan digests

The 64-bit FNV-1a hash of an expression's written form, as a cheap identity of
plans.
-/

namespace RecursiveQuery

namespace Digest

def offsetBasis : UInt64 := 0xcbf29ce484222325

def prime : UInt64 := 0x100000001b3

def hash (bytes : List UInt8) : UInt64 :=
  bytes.foldl (fun value byte => (value ^^^ byte.toUInt64) * prime) offsetBasis

/-- Sixteen lower-case hexadecimal digits. -/
def hexadecimal (value : UInt64) : List Char :=
  let digits := Nat.toDigits 16 value.toNat
  List.replicate (16 - digits.length) '0' ++ digits

def ofBytes (bytes : List UInt8) : String :=
  "fnv1a64:" ++ String.ofList (hexadecimal (hash bytes))

def ofText (text : String) : String :=
  ofBytes text.toUTF8.toList

end Digest

def Expr.digest (expr : Expr) : String :=
  Digest.ofText expr.print

end RecursiveQuery
