import MicroJava.BigEndian
import MicroJava.Bytes
import MicroJava.ImageError

/-!
# Object files

An object file has the letters `MJ`, three words and the code. The words are the number of bytes of
the code, the number of global variables and the address of the first instruction to execute, which
is -1 where there is none.
-/

namespace MicroJava

/-- A program in executable form: the number of global variables, the address of the first
instruction, and the code. -/
structure Image where
  dataSize : Int32
  entry : Int32
  code : Array UInt8
  deriving DecidableEq, Inhabited

namespace Image

/-- The two letters that every object file begins with. -/
def magic : Bytes := [0x4D, 0x4A]

/-- The contents of the object file of an image. -/
def toBytes (i : Image) : Bytes :=
  magic ++ BigEndian.bytes 4 i.code.size ++ BigEndian.bytes 4 i.dataSize.toInt ++
    BigEndian.bytes 4 i.entry.toInt ++ i.code.toList

/-- The word at the offset `n`. -/
def wordAt (header : Bytes) (n : Nat) : Int :=
  BigEndian.intValue ((header.drop n).take 4)

/-- The image in an object file. -/
def ofBytes (bs : Bytes) : Except ImageError Image :=
  match Bytes.split? headerSize bs with
  | none => .error (.truncatedHeader bs.length)
  | some (header, code) =>
    let codeSize := wordAt header 2
    let dataSize := wordAt header 6
    let entry := wordAt header 10
    if header.take 2 ≠ magic then .error .missingMagic
    else if codeSize ≠ code.length then .error (.wrongCodeSize codeSize code.length)
    else if codeSize ≤ entry then .error (.entryOutsideCode entry)
    else .ok
      { dataSize := Int32.ofInt dataSize, entry := Int32.ofInt entry, code := code.toArray }

end Image

end MicroJava
