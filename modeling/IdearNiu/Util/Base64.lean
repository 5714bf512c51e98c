import IdearNiu.Util.Allocation

namespace IdearNiu.Base64

open Allocation

abbrev Byte := BitVec 8

/-- What a function that allocates can end in: panic() ends the program. -/
inductive Returned (α : Type) where
  | panicked
  | null
  | block (a : α)

def base64Table : List Byte :=
  "ABCDEFGHIJKLMNOPQRSTUVWXYZabcdefghijklmnopqrstuvwxyz0123456789+/".toList.map
    (fun c => BitVec.ofNat 8 c.toNat)

def tableAt (x : Byte) : Byte := base64Table.getD x.toNat 0

def newline : Byte := 0x0a

def padding : Byte := 0x3d

/-- The memory asked for: the symbols, the line feeds and the nul. -/
def encodeSize (len : Size) : Size :=
  let olen := len*4/3+4
  let olen := olen+olen/72
  olen+1

/-- The text of the full groups, the length of the open line, and the bytes left over. -/
def encodeGroups (lineLen : Nat) : List Byte → List Byte × Nat × List Byte
  | a::b::c::src =>
    let symbols := [tableAt ((a>>>2)&&&0x3f),
      tableAt ((((a&&&0x03)<<<4)|||(b>>>4))&&&0x3f),
      tableAt ((((b&&&0x0f)<<<2)|||(c>>>6))&&&0x3f),
      tableAt (c&&&0x3f)]
    let lineLen := lineLen+4
    if 72≤lineLen then
      let (text,lineLen,rest) := encodeGroups 0 src
      (symbols++[newline]++text,lineLen,rest)
    else
      let (text,lineLen,rest) := encodeGroups lineLen src
      (symbols++text,lineLen,rest)
  | src => ([],lineLen,src)

/-- The padded group of the one or two bytes left over. -/
def encodeTail : List Byte → List Byte
  | [] => []
  | [a] => [tableAt ((a>>>2)&&&0x3f),tableAt (((a&&&0x03)<<<4)&&&0x3f),padding,padding]
  | a::b::_ => [tableAt ((a>>>2)&&&0x3f),
      tableAt ((((a&&&0x03)<<<4)|||(b>>>4))&&&0x3f),
      tableAt (((b&&&0x0f)<<<2)&&&0x3f),padding]

/-- The text the encoder writes before the nul. -/
def encodeText (src : List Byte) : List Byte :=
  let (text,lineLen,rest) := encodeGroups 0 src
  let tail := encodeTail rest
  let lineLen := if rest=[] then lineLen else lineLen+4
  text++tail++(if lineLen=0 then [] else [newline])

/-- The size computed, the size of the block got, everything written to the block from its
start on, and out_len. -/
structure Encoded where
  olen : Nat
  room : Nat
  written : List Byte
  outLen : Nat

def base64Encode (malloc : Nat → Bool) (src : List Byte) : Returned Encoded :=
  let len : Size := BitVec.ofNat 64 src.length
  let olen := encodeSize len
  if olen<len then .null
  else match xmalloc malloc olen with
    | none => .panicked
    | some bytes =>
      let text := encodeText src
      .block ⟨olen.toNat,bytes,text++[0],text.length⟩

/-- The table is filled with 0x80, then with the place of each symbol, then '=' gets 0. -/
def dtableList : List Byte :=
  let filled := base64Table.zipIdx.foldl
    (fun t p => t.set p.1.toNat (BitVec.ofNat 8 p.2)) (List.replicate 256 0x80)
  filled.set padding.toNat 0

def dtable (c : Byte) : Byte := dtableList.getD c.toNat 0

def decodeBlock : List Byte → List Byte
  | [b0,b1,b2,b3] => [(b0<<<2)|||(b1>>>4),(b1<<<4)|||(b2>>>2),(b2<<<6)|||b3]
  | _ => []

/-- The second pass; none is the return of NULL on invalid padding. -/
def decodeLoop (block : List Byte) (pad : Nat) (out : List Byte) :
    List Byte → Option (List Byte)
  | [] => some out
  | c::src =>
    let tmp := dtable c
    if tmp=0x80 then decodeLoop block pad out src
    else
      let pad := if c=padding then pad+1 else pad
      let block := block++[tmp]
      if block.length=4 then
        let out := out++decodeBlock block
        if pad=0 then decodeLoop [] pad out src
        else if pad=1 then some (out.take (out.length-1))
        else if pad=2 then some (out.take (out.length-2))
        else none
      else decodeLoop block pad out src

def symbolCount (src : List Byte) : Nat := src.countP (fun c => dtable c≠0x80)

def base64Decode (malloc : Nat → Bool) (src : List Byte) : Returned (List Byte) :=
  let count := symbolCount src
  if count=0 ∨ count%4≠0 then .null
  else match xmalloc malloc (BitVec.ofNat 64 (count/4*3)) with
    | none => .panicked
    | some _ =>
      match decodeLoop [] 0 [] src with
      | none => .null
      | some out => .block out

end IdearNiu.Base64
