/-!
# Columns of a listing

Numbers filled with zeros on the left and names filled with spaces on the right, up to a width
that longer ones exceed.
-/

namespace MicroJava.Text

/-- The decimal digits of `n`, with zeros before them up to the width `w`. -/
def zeroPadded (w : Nat) (n : Nat) : String :=
  let digits := toString n
  String.ofList (List.replicate (w - digits.length) '0') ++ digits

/-- The text `s`, with spaces after it up to the width `w`. -/
def spacePadded (w : Nat) (s : String) : String :=
  s ++ String.ofList (List.replicate (w - s.length) ' ')

end MicroJava.Text
