namespace ShapeCodec.Text

def hex (n : Nat) : String :=
  String.ofList (Nat.toDigits 16 n)

def hexPadded (width n : Nat) : String :=
  let digits := Nat.toDigits 16 n
  String.ofList (List.replicate (width - digits.length) '0' ++ digits)

def upperHex (n : Nat) : String :=
  (hex n).map Char.toUpper

end ShapeCodec.Text
