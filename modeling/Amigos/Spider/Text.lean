import Amigos.Lib.Bytes

/-!
# Python's strings (`str`, `zlib.crc32`)

A `str` is the list of its characters. What the spider knows of a task is the CRC of its UTF-8
bytes.
-/

set_option autoImplicit false

namespace Amigos.Spider

open Amigos.Lib

/-- A `str`. -/
abbrev Str := List Char

/-- `str.isspace`, of one character. -/
def isSpace (c : Char) : Bool :=
  let n := c.toNat
  (9 ≤ n && n ≤ 13) || (28 ≤ n && n ≤ 32) || n == 0x85 || n == 0xA0 || n == 0x1680 ||
    (0x2000 ≤ n && n ≤ 0x200A) || n == 0x2028 || n == 0x2029 || n == 0x202F || n == 0x205F ||
    n == 0x3000

/-- `str.strip`. -/
def strip (s : Str) : Str := ((s.dropWhile isSpace).reverse.dropWhile isSpace).reverse

/-- `str.encode`. -/
def encode (s : Str) : Bytes := s.flatMap String.utf8EncodeChar

/-! ## `zlib.crc32` -/

def crcBit (crc : UInt32) : UInt32 :=
  if crc &&& 1 = 1 then crc >>> 1 ^^^ 0xEDB88320 else crc >>> 1

def crcByte (crc : UInt32) (b : UInt8) : UInt32 := Nat.repeat crcBit 8 (crc ^^^ b.toUInt32)

def crc32 (data : Bytes) : ℕ := (data.foldl crcByte 0xFFFFFFFF ^^^ 0xFFFFFFFF).toNat

/-- The check value of CRC-32: the digits from 1 to 9. -/
example : crc32 [49, 50, 51, 52, 53, 54, 55, 56, 57] = 0xCBF43926 := by decide +kernel

/-- The uid of a task. -/
def uidOf (task : Str) : ℕ := crc32 (encode task)

end Amigos.Spider
