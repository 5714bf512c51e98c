import IdearNiu.Framework.Cursor
import IdearNiu.Framework.Words

namespace IdearNiu.Hex

open Words
open IdearNiu.Cursor

def space : Byte := 0x20

def dot : Byte := 0x2e

def hexdigitsUpper : List Byte :=
  "0123456789ABCDEF".toList.map (fun c => BitVec.ofNat 8 c.toNat)

def hexdigitsLower : List Byte :=
  "0123456789abcdef".toList.map (fun c => BitVec.ofNat 8 c.toNat)

def hexdigits (flags : Byte) : List Byte :=
  if flags&&&4≠0 then hexdigitsUpper else hexdigitsLower

/-- `hexdigits[(value >> 4) & 0xF]`, with value a char that is promoted to int. -/
def highDigit (digits : List Byte) (value : Byte) : Byte :=
  digits.getD (((value.signExtend 32).sshiftRight 4)&&&0xF).toNat 0

def lowDigit (digits : List Byte) (value : Byte) : Byte :=
  digits.getD (value.signExtend 32&&&0xF).toNat 0

/-- The number of bytes that can be printed; the quotients are of type size_t. -/
def maxLen (size : Nat) (flags : Byte) : Int :=
  int32 (if flags&&&2≠0 then (if flags&&&1≠0 then (size-1)/4 else (size-2)/3 : Nat)
    else (if flags&&&1≠0 then size/3 else (size-1)/2 : Nat))

def hexLoop (digits : List Byte) (flags : Byte) : List Byte → Cursor Byte → Cursor Byte
  | [],p => p
  | value::rest,p =>
    let p := put (put p (highDigit digits value)) (lowDigit digits value)
    hexLoop digits flags rest (if flags&&&1≠0 then put p space else p)

/-- char is signed: a byte above 127 is below ' '. -/
def printable (value : Byte) : Byte :=
  if value.toInt<32 ∨ 126<value.toInt then dot else value

def asciiLoop : List Byte → Cursor Byte → Cursor Byte
  | [],p => p
  | value::rest,p => asciiLoop rest (put p (printable value))

def appendAscii (flags : Byte) (bytes : List Byte) (p : Cursor Byte) : Cursor Byte :=
  let (previous,p) := last p
  let p := if previous≠space then put p space else p
  let p := asciiLoop bytes p
  if flags&&&1≠0 then put p space else p

/-- A return before anything is written, or the value returned and the buffer at the end. -/
inductive Converted where
  | early (returned : Int)
  | done (returned : Int) (p : Cursor Byte)

def Converted.returned : Converted → Int
  | early r => r
  | done r _ => r

/-- The printing of the first len bytes to buf, up to the terminator. -/
def printHex (bytes : List Byte) (makeEllipsis : Bool) (flags : Byte) (p : Cursor Byte) :
    Cursor Byte :=
  let p := hexLoop (hexdigits flags) flags bytes p
  let p := if makeEllipsis then put (put p dot) dot else p
  let p := if flags&&&2≠0 then appendAscii flags bytes p else p
  let p := if flags&&&1≠0 then back p else p
  put p 0

/-- addr holds len bytes; buf none is the null pointer, and the cells are those around its
start. -/
def toHexString (addr : List Byte) (buf : Option (Int → Byte)) (size : Nat) (flags : Byte) :
    Converted :=
  match buf with
  | none => .early (-1)
  | some cells =>
    if size<3 then .early 0
    else
      let maxLen := maxLen size flags
      if maxLen=0 then .early 0
      else
        let makeEllipsis := toSize maxLen<addr.length
        let len := if makeEllipsis then toSize (maxLen-1) else addr.length
        .done (int32 len)
          (printHex (addr.take len) (decide makeEllipsis) flags ⟨cells,0,[]⟩)

/-- toupper of the C locale. -/
def toupper (c : Byte) : Byte := if 0x61≤c ∧ c≤0x7a then c-0x20 else c

/-- A digit as the decoder computes it, a uint8_t. -/
def digitValue (c : Byte) : Byte :=
  let c := toupper c
  let c := if 0x41≤c then c-(0x41-10) else c
  if 0x30≤c then c-0x30 else c

/-- The digit when the decoder takes it. -/
def nibble (c : Byte) : Option Byte :=
  if digitValue c≤15 then some (digitValue c) else none

/-- What the decoder returns and the bytes it has written from out on. -/
structure Decoded where
  returned : Int
  written : List Byte
deriving DecidableEq

/-- The loop over the text up to its nul; out holds the bytes written so far. A digit that
ends the text breaks the loop. -/
def fromHexLoop (out : List Byte) : List Byte → Decoded
  | [] => ⟨int32 out.length,out⟩
  | c::rest =>
    if c=space then fromHexLoop out rest
    else match nibble c with
      | none => ⟨int32 (-out.length),out⟩
      | some msb =>
        match rest with
        | [] => ⟨int32 out.length,out⟩
        | d::rest =>
          match nibble d with
          | none => ⟨int32 (-out.length),out⟩
          | some lsb => fromHexLoop (out++[msb<<<4|||lsb]) rest

/-- size is not read. -/
def fromHexString (hexstr : List Byte) (_size : Nat) : Decoded := fromHexLoop [] hexstr

end IdearNiu.Hex
