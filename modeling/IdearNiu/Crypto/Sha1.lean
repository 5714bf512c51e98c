import IdearNiu.Framework.Memory

set_option linter.style.nameCheck false

namespace IdearNiu.Sha1

open Memory

abbrev Byte := BitVec 8

/-- u_int and u_int32_t. -/
abbrev Word := BitVec 32

/-- The five words of a hash state, or the working variables of a round in the order of
the macro's arguments. -/
structure Words where
  v : Word
  w : Word
  x : Word
  y : Word
  z : Word
  deriving DecidableEq

/-- SHA1_CTX; count holds the number of bits, low word first. -/
structure Sha1Ctx where
  state : Words
  count0 : Word
  count1 : Word
  buffer : List Byte

def rol (value : Word) (bits : Nat) : Word := (value<<<bits)|||(value>>>(32-bits))

/-- The words of a 64-byte block as a little-endian host reads them. -/
def loadWords : Nat → List Byte → List Word
  | 0,_ => []
  | n+1,c =>
    (((c.getD 3 0).setWidth 32<<<24)|||((c.getD 2 0).setWidth 32<<<16)|||
      ((c.getD 1 0).setWidth 32<<<8)|||(c.getD 0 0).setWidth 32)::loadWords n (c.drop 4)

/-- The initial expand of a word: its bytes are reversed in place. -/
def blk0 (block : List Word) (i : Nat) : List Word × Word :=
  let l := block.getD i 0
  let new := (rol l 24&&&0xFF00FF00)|||(rol l 8&&&0x00FF00FF)
  (block.set i new,new)

def blk (block : List Word) (i : Nat) : List Word × Word :=
  let new := rol (block.getD ((i+13)%16) 0^^^block.getD ((i+8)%16) 0^^^
    block.getD ((i+2)%16) 0^^^block.getD (i%16) 0) 1
  (block.set (i%16) new,new)

/-- The mixing functions and the constants of the macros R0 to R4. -/
def mix01 (w x y : Word) : Word := (w&&&(x^^^y))^^^y
def mix24 (w x y : Word) : Word := w^^^x^^^y
def mix3 (w x y : Word) : Word := ((w|||x)&&&y)|||(w&&&x)

def k01 : Word := 0x5A827999
def k2 : Word := 0x6ED9EBA1
def k3 : Word := 0x8F1BBCDC
def k4 : Word := 0xCA62C1D6

/-- One round; the variables are returned in the order the next round takes them. -/
def R (mix : Word → Word → Word → Word) (k : Word)
    (expand : List Word → Nat → List Word × Word) (i : Nat) (r : Words × List Word) :
    Words × List Word :=
  let (block,word) := expand r.2 i
  (⟨r.1.z+(mix r.1.w r.1.x r.1.y+word+k+rol r.1.v 5),r.1.v,rol r.1.w 30,r.1.x,r.1.y⟩,block)

def R0 := R mix01 k01 blk0
def R1 := R mix01 k01 blk
def R2 := R mix24 k2 blk
def R3 := R mix3 k3 blk
def R4 := R mix24 k4 blk

/-- Rounds numbered from i on, n of them. -/
def rounds (round : Nat → Words × List Word → Words × List Word) :
    Nat → Nat → Words × List Word → Words × List Word
  | _,0,r => r
  | i,n+1,r => rounds round (i+1) n (round i r)

/-- Hash one block. -/
def sha1Transform (state : Words) (buffer : List Byte) : Words :=
  let r := rounds R0 0 16 (state,loadWords 16 buffer)
  let r := rounds R1 16 4 r
  let r := rounds R2 20 20 r
  let r := rounds R3 40 20 r
  let r := (rounds R4 60 20 r).1
  ⟨state.v+r.v,state.w+r.w,state.x+r.x,state.y+r.y,state.z+r.z⟩

def initialState : Words := ⟨0x67452301,0xEFCDAB89,0x98BADCFE,0x10325476,0xC3D2E1F0⟩

/-- The buffer of a new context is left as it was. -/
def sha1Init (buffer : List Byte) : Sha1Ctx := ⟨initialState,0,0,buffer⟩

/-- The loop over the blocks inside data; the rounds allowed are those of len. -/
def transformBlocks (data : List Byte) (len : Word) :
    Nat → Words → Word → Words × Word
  | 0,state,i => (state,i)
  | n+1,state,i =>
    if i+63<len then
      transformBlocks data len n (sha1Transform state ((data.drop i.toNat).take 64)) (i+64)
    else (state,i)

/-- Run data through the hash: data holds len bytes at least. -/
def sha1Update (context : Sha1Ctx) (data : List Byte) (len : Word) : Sha1Ctx :=
  let j := context.count0
  let count0 := context.count0+(len<<<3)
  let count1 := if count0<j then context.count1+((len>>>29)+1) else context.count1
  let j := (j>>>3)&&&63
  if j+len>63 then
    let i := 64-j
    let buffer := splice context.buffer j.toNat (data.take i.toNat)
    let state := sha1Transform context.state buffer
    let (state,i) := transformBlocks data len len.toNat state i
    ⟨state,count0,count1,
      splice buffer 0 ((data.drop i.toNat).take (len-i).toNat)⟩
  else
    ⟨context.state,count0,count1,splice context.buffer j.toNat (data.take len.toNat)⟩

/-- Byte i of a word, the most significant one first. -/
def byteAt (x : Word) (i : Nat) : Byte := ((x>>>((3-i%4)*8))&&&255).setWidth 8

def finalcount (context : Sha1Ctx) : List Byte :=
  (List.range 8).map (fun i => byteAt (if 4 ≤ i then context.count0 else context.count1) i)

/-- The loop that pads with zero bytes, and whether it ended within the rounds allowed. -/
def padZeros : Nat → Sha1Ctx → Sha1Ctx × Bool
  | 0,context => (context,context.count0&&&504=448)
  | n+1,context =>
    if context.count0&&&504≠448 then padZeros n (sha1Update context [0] 1)
    else (context,true)

def Words.get (s : Words) : Nat → Word
  | 0 => s.v
  | 1 => s.w
  | 2 => s.x
  | 3 => s.y
  | _ => s.z

def digestBytes (state : Words) : List Byte :=
  (List.range 20).map (fun i => byteAt (state.get (i/4)) i)

/-- The digest; none when 64 rounds do not end the padding. -/
def sha1Final (context : Sha1Ctx) : Option (List Byte) :=
  let count := finalcount context
  let context := sha1Update context [0x80] 1
  let (context,ended) := padZeros 64 context
  let context := sha1Update context count 8
  if ended then some (digestBytes context.state) else none

def sha1Digest (ctx : List Byte) (buf : List Byte) (len : Word) : Option (List Byte) :=
  sha1Final (sha1Update (sha1Init ctx) buf len)

/-- The digest of data handed over in chunks. -/
def sha1Chunks (ctx : List Byte) (chunks : List (List Byte)) : Option (List Byte) :=
  sha1Final (chunks.foldl
    (fun context chunk => sha1Update context chunk (BitVec.ofNat 32 chunk.length))
    (sha1Init ctx))

end IdearNiu.Sha1
