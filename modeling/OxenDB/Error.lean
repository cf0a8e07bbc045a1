import Mathlib

namespace OxenDB

/-- The text of an `io` error is the operating system's. -/
inductive Error
  | io
  | corruption (msg : String)
  | unsupportedFormat (msg : String)
  | invalidArgument (msg : String)
  | resourceExhausted (msg : String)
  | poisoned (msg : String)
  deriving DecidableEq, Repr

def hex32 (x : UInt32) : String :=
  let digits := Nat.toDigits 16 x.toNat
  "0x" ++ String.ofList (List.replicate (8 - digits.length) '0' ++ digits)

def Error.display : Error → String
  | .io => "I/O error"
  | .corruption msg => "data corruption detected: " ++ msg
  | .unsupportedFormat msg => "unsupported file format: " ++ msg
  | .invalidArgument msg => "invalid argument: " ++ msg
  | .resourceExhausted msg => "resource exhausted: " ++ msg
  | .poisoned msg => "unusable after earlier failure: " ++ msg

end OxenDB
