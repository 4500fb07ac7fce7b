import Ircd.Text.Chattr

/-! The running hash of a DDB table: `ircd_tea` over the text of each register. -/

set_option autoImplicit false

namespace Ircd.Ddb
open Ircd.Text

/-- A register as `ms_db` gets it; one without content is a deletion. -/
structure Register where
  id : Nat
  mask : CString
  key : CString
  content : Option CString

/-- The pair `ddb_hashtable_hi`, `ddb_hashtable_lo` of a table. -/
abbrev HashPair := UInt32 × UInt32

/-- One turn of `ircd_tea`, with a key of zeros: the sum and the two halves. -/
def teaRound : UInt32 × HashPair → UInt32 × HashPair
  | (sum, y, z) =>
    let sum := sum + 0x9E3779B9
    let y := y + ((z <<< 4) ^^^ (z + sum) ^^^ (z >>> 5))
    let z := z + ((y <<< 4) ^^^ (y + sum) ^^^ (y >>> 5))
    (sum, y, z)

def teaLoop : Nat → UInt32 × HashPair → UInt32 × HashPair
  | 0, s => s
  | n + 1, s => teaLoop n (teaRound s)

def ircdTea (v x : HashPair) : HashPair := (teaLoop 32 (0, v.1 ^^^ x.1, v.2 ^^^ x.2)).2

def word (bytes : List Char) : UInt32 :=
  UInt32.ofNat ((((bytes.getD 0 nul).toNat * 256 + (bytes.getD 1 nul).toNat) * 256 +
    (bytes.getD 2 nul).toNat) * 256 + (bytes.getD 3 nul).toNat)

def hashWords : Nat → List Char → HashPair → HashPair
  | 0, _, x => x
  | left + 1, bytes, x =>
    if word bytes = 0 then x else hashWords left (bytes.drop 8) (ircdTea (word bytes, word (bytes.drop 4)) x)

/-- The first `c` before the end of the string becomes the end of the string. -/
def cutAt (c : Char) : List Char → List Char
  | [] => []
  | d :: s => if d = nul then d :: s else if d = c then nul :: s else d :: cutAt c s

/-- `ddb_hash_calculate`: its buffer has 516 words. -/
def ddbHashCalculate (line : List Char) (x : HashPair) : HashPair :=
  hashWords 258 (cutAt '\r' (cutAt '\n' (line.take 2063))) x

def decimal (n : Nat) : List Char := Nat.toDigits 10 n

/-- The text of a register, cut to the 1023 characters that `db_buf` has room for. -/
def registerText (table : Char) (r : Register) : List Char :=
  let text := decimal r.id ++ ' ' :: r.mask.chars ++ ' ' :: table :: ' ' :: r.key.chars
  match r.content with
  | some content => (text ++ ' ' :: content.chars ++ ['\n']).take 1023
  | none => (text ++ ['\n']).take 1023

end Ircd.Ddb
