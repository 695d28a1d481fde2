import MicroJava.Bytes

/-!
# Numbers of varying length

A natural number is written in groups of seven bits, the lowest group first, with the eighth bit set
in every byte but the last. What is read is limited to a number of bytes and to a greatest value of
the last possible byte, so that it fits into a word; it need not be the shortest form.
-/

namespace MicroJava

/-- Why a number cannot be read. -/
inductive VarintError where
  | endOfInput
  | tooLong
  deriving DecidableEq, Inhabited

namespace Varint

/-- The shortest form of a number. -/
def encode (n : Nat) : Bytes :=
  if n < 128 then [UInt8.ofNat n] else UInt8.ofNat (n % 128 + 128) :: encode (n / 128)

/-- Reads a number of at most `size` bytes, the last of which is at most `maxLast` if all are
needed. -/
def decode (size maxLast : Nat) (bs : Bytes) : Except VarintError (Nat × Bytes) :=
  match size, bs with
  | 0, _ => .error .tooLong
  | _ + 1, [] => .error .endOfInput
  | size + 1, b :: bs =>
    if b.toNat < 128 then
      if size = 0 ∧ maxLast < b.toNat then .error .tooLong else .ok (b.toNat, bs)
    else
      match decode size maxLast bs with
      | .error e => .error e
      | .ok (high, rest) => .ok (b.toNat - 128 + 128 * high, rest)

/-- Reads a number of 32 bits. -/
def decode32 : Bytes → Except VarintError (Nat × Bytes) := decode 5 15

/-- Reads a number of 64 bits. -/
def decode64 : Bytes → Except VarintError (Nat × Bytes) := decode 10 1

end Varint

end MicroJava
