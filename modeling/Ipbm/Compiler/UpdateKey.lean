import Ipbm.Compiler.Runtime
import Ipbm.Lib.BigEndian

/-! The numbers of table commands (`ipsa_tableupdate_key.h`). A text is read as a
number, a hardware address or a network address; what throws is `none`. -/

set_option autoImplicit false

namespace Ipbm.Compiler
open Lib Dataplane

def convert (c : Char) : Option Nat :=
  if '0' ≤ c ∧ c ≤ '9' then some (c.toNat - 48)
  else if 'A' ≤ c ∧ c ≤ 'F' then some (c.toNat - 55)
  else if 'a' ≤ c ∧ c ≤ 'f' then some (c.toNat - 87)
  else none

/-- `std::stoi`: blanks, a sign and a run of digits that fits an `int`. -/
def stoi (text : List Char) : Option Int :=
  let text := text.dropWhile fun c => c = ' ' ∨ 9 ≤ c.toNat ∧ c.toNat ≤ 13
  let (sign, text) := match text with
    | '-' :: rest => ((-1 : Int), rest)
    | '+' :: rest => (1, rest)
    | _ => (1, text)
  let digits := text.takeWhile Char.isDigit
  let value := sign * digits.foldl (fun value digit => value * 10 + ((digit.toNat - 48 : Nat) : Int)) 0
  if digits ≠ [] ∧ -2 ^ 31 ≤ value ∧ value < 2 ^ 31 then some value else none

inductive AddressFamily where
  | inet | inet6
  deriving DecidableEq, Repr

namespace IpsaTableUpdateKey

/-- Two digits a byte, from the last digit back. -/
def hexBytes : List Char → Option (List UInt8)
  | [] => some []
  | [low] => do return [u8 (← convert low)]
  | low :: high :: rest => do
      let byte := u8 ((← convert low) ||| (← convert high) <<< 4)
      return byte :: (← hexBytes rest)

/-- More hexadecimal digits than the width has room for are written in front of the vector. -/
def parseNumber (value : List Char) (width : Nat) : Option (List UInt8) :=
  let size := bytesFor width
  match value with
  | '0' :: 'x' :: digits => do
      let bytes ← hexBytes digits.reverse
      if bytes.length ≤ size then
        some (List.replicate (size - bytes.length) 0 ++ bytes.reverse)
      else
        none
  | _ => do return beBytes size (← stoi value).toNat

/-- A prefix clears whole bytes from the end; it shifts by what the prefix leaves, which has to
stay below the word size. -/
def generateMask (width : Nat) (prelen : Int) : Option (List UInt8) :=
  let size := bytesFor width
  let full := List.replicate size (0xFF : UInt8)
  let full := if width % 8 = 0 then full else full.set 0 (u8 (2 ^ (width % 8) - 1))
  let rest := if prelen < 0 then 0 else (width - prelen).toNat
  if rest < 32 then
    some (full.take (size - bytesFor rest) ++ List.replicate (bytesFor rest) 0)
  else
    none

/-- Six pairs of digits with one character between them. -/
def macBytes (value : List Char) : Option (List UInt8) :=
  (List.range 6).mapM fun i => do
    let high ← convert (← value[i * 3]?)
    let low ← convert (← value[i * 3 + 1]?)
    return u8 (high <<< 4 ||| low)

/-- The text in front of a slash and the number behind it, -1 without one. -/
def splitPrefix (value : List Char) : Option (List Char × Int) :=
  if '/' ∈ value then do
    let prelen ← stoi ((value.dropWhile (· ≠ '/')).drop 1)
    return (value.takeWhile (· ≠ '/'), prelen)
  else
    some (value, -1)

variable (inetPton : AddressFamily → List Char → Option (List UInt8))

/-- An address that cannot be read leaves the zeros of the vector. -/
def addressBytes (family : AddressFamily) (size : Nat) (value : List Char) : List UInt8 :=
  (inetPton family value).getD (List.replicate size 0)

/-- The entry and the mask. -/
def read (value : List Char) (width : Nat) : Option (List UInt8 × List UInt8) :=
  if '&' ∈ value then do
    let rest := value.dropWhile (· ≠ '&')
    if 3 ≤ rest.length then
      return (← parseNumber (value.takeWhile (· ≠ '&')) width, ← parseNumber (rest.drop 3) width)
    else
      none
  else if '-' ∈ value then do
    return (← macBytes value, ← generateMask width (-1))
  else if '.' ∈ value then do
    let (value, prelen) ← splitPrefix value
    return (addressBytes inetPton .inet 4 value, ← generateMask width prelen)
  else if ':' ∈ value then do
    let (value, prelen) ← splitPrefix value
    return (addressBytes inetPton .inet6 16 value, ← generateMask width prelen)
  else do
    return (← parseNumber value width, ← generateMask width (-1))

end IpsaTableUpdateKey

end Ipbm.Compiler
