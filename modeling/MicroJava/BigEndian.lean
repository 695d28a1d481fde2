/-!
# Big-endian words

An integer is written into a fixed number of bytes in two's complement, the most significant byte
first, and its higher bits are lost. Read back, `n` bytes give the integer modulo `range n`
(`natValue_bytes`), so an integer in range is read back unchanged (`intValue_bytes`).
-/

namespace MicroJava.BigEndian

/-- The lowest eight bits of an integer. -/
def lowByte (x : Int) : UInt8 :=
  UInt8.ofNat (x % 256).toNat

/-- The lowest `n` bytes of an integer, the most significant one first. -/
def bytes : Nat → Int → List UInt8
  | 0, _ => []
  | n + 1, x => bytes n (x / 256) ++ [lowByte x]

/-- The natural number that bytes are the digits of. -/
def natValue (bs : List UInt8) : Nat :=
  bs.foldl (fun n b => n * 256 + b.toNat) 0

/-- The number of different runs of `n` bytes. -/
def range : Nat → Nat
  | 0 => 1
  | n + 1 => 256 * range n

/-- The integer that bytes stand for in two's complement. -/
def intValue (bs : List UInt8) : Int :=
  (natValue bs : Int).bmod (range bs.length)

@[simp] theorem length_bytes (n : Nat) (x : Int) : (bytes n x).length = n := by
  induction n generalizing x with
  | zero => rfl
  | succ n ih => simp [bytes, ih]

theorem natValue_append_singleton (bs : List UInt8) (b : UInt8) :
    natValue (bs ++ [b]) = natValue bs * 256 + b.toNat := by
  simp [natValue]

theorem toNat_lowByte (x : Int) : ((lowByte x).toNat : Int) = x % 256 := by
  have h0 := Int.emod_nonneg x (b := 256) (by decide)
  have h1 := Int.emod_lt_of_pos x (b := 256) (by decide)
  rw [lowByte, UInt8.toNat_ofNat', Nat.mod_eq_of_lt (by omega)]
  omega

theorem natValue_bytes (n : Nat) (x : Int) : (natValue (bytes n x) : Int) = x % range n := by
  induction n generalizing x with
  | zero => exact (Int.emod_one x).symm
  | succ n ih =>
    have hdiv : x / (256 * range n) = x / 256 / range n :=
      (Int.ediv_ediv_of_nonneg (by decide)).symm
    have hrange : ((range (n + 1) : Nat) : Int) = 256 * range n := Int.natCast_mul 256 (range n)
    rw [bytes, natValue_append_singleton, Int.natCast_add, Int.natCast_mul, ih, toNat_lowByte,
      hrange, Int.emod_def x (256 * range n), hdiv, Int.emod_def (x / 256), Int.mul_assoc]
    have := Int.emod_add_mul_ediv x 256
    omega

/-- An integer in range is read back unchanged. -/
theorem intValue_bytes {n : Nat} {x : Int} (low : -(range n : Int) ≤ 2 * x)
    (high : 2 * x < range n) : intValue (bytes n x) = x := by
  rw [intValue, length_bytes, natValue_bytes, Int.emod_bmod, Int.bmod_eq_of_le] <;> omega

end MicroJava.BigEndian
