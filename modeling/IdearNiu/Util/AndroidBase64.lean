import IdearNiu.Framework.Words

namespace IdearNiu.AndroidBase64

open Words

/-- The bits of an int; the shifts to the right below are of values that are not negative. -/
abbrev Word := BitVec 32

def noPadding : Word := 1

def noWrap : Word := 2

def crlf : Word := 4

def urlSafe : Word := 8

def encodeTable : List Byte :=
  letters "ABCDEFGHIJKLMNOPQRSTUVWXYZabcdefghijklmnopqrstuvwxyz0123456789+/"

def encodeWebsafeTable : List Byte :=
  letters "ABCDEFGHIJKLMNOPQRSTUVWXYZabcdefghijklmnopqrstuvwxyz0123456789-_"

def lineGroups : Int := 19

/-- The globals do_padding, do_newline and do_cr. -/
structure Globals where
  doPadding : Bool
  doNewline : Bool
  doCr : Bool

def encodeAlphabet (flags : Word) : List Byte :=
  if flags&&&urlSafe=0 then encodeTable else encodeWebsafeTable

def symbol (alphabet : List Byte) (x : Word) : Byte := alphabet.getD (x&&&0x3f).toNat 0

def padding : Byte := 0x3d

def newline (g : Globals) : List Byte := (if g.doCr then [0x0d] else [])++[0x0a]

def wide (b : Byte) : Word := b.setWidth 32&&&0xff

/-- The main loop: the text of the full groups, count, and the bytes left over. -/
def encodeGroups (g : Globals) (alphabet : List Byte) (count : Int) :
    List Byte → List Byte × Int × List Byte
  | a::b::c::input =>
    let v := (wide a<<<16)|||(wide b<<<8)|||wide c
    let output := [symbol alphabet (v>>>18),symbol alphabet (v>>>12),
      symbol alphabet (v>>>6),symbol alphabet v]
    let count := int32 (count-1)
    if count=0 then
      let (text,count,rest) := encodeGroups g alphabet lineGroups input
      (output++newline g++text,count,rest)
    else
      let (text,count,rest) := encodeGroups g alphabet count input
      (output++text,count,rest)
  | input => ([],count,input)

/-- The bytes written to output; tail_len is zero throughout, so tail is not read. -/
def doEncode (g : Globals) (input : List Byte) (flags : Word) : List Byte :=
  let count := if g.doNewline then lineGroups else -1
  let alphabet := encodeAlphabet flags
  let (text,count,rest) := encodeGroups g alphabet count input
  match rest with
  | [a] =>
    let v := wide a<<<4
    text++[symbol alphabet (v>>>6),symbol alphabet v]++
      (if g.doPadding then [padding,padding] else [])++(if g.doNewline then newline g else [])
  | a::b::_ =>
    let v := (wide a<<<10)|||(wide b<<<2)
    text++[symbol alphabet (v>>>12),symbol alphabet (v>>>6),symbol alphabet v]++
      (if g.doPadding then [padding] else [])++(if g.doNewline then newline g else [])
  | [] => if g.doNewline ∧ 0<text.length ∧ count≠lineGroups then text++newline g else text

def globals (flags : Word) : Globals :=
  ⟨flags&&&noPadding=0,flags&&&noWrap=0,flags&&&crlf≠0⟩

/-- The length base64_encode computes before it encodes anything. -/
def outputLen (g : Globals) (len : Int) : Int :=
  let outputLen := int32 (len.tdiv 3*4)
  let outputLen :=
    if g.doPadding then
      if 0<len.tmod 3 then int32 (outputLen+4) else outputLen
    else if len.tmod 3=1 then int32 (outputLen+2)
    else if len.tmod 3=2 then int32 (outputLen+3)
    else outputLen
  if g.doNewline ∧ 0<len then
    int32 (outputLen+int32 (((int32 (len-1)).tdiv (3*lineGroups)+1)*(if g.doCr then 2 else 1)))
  else outputLen

/-- The length returned and the bytes written. -/
def base64Encode (input : List Byte) (flags : Word) : Int × List Byte :=
  let g := globals flags
  (outputLen g (int32 input.length),doEncode g input flags)

def decodeTable : List Int :=
  [-1,-1,-1,-1,-1,-1,-1,-1,-1,-1,-1,-1,-1,-1,-1,-1,
    -1,-1,-1,-1,-1,-1,-1,-1,-1,-1,-1,-1,-1,-1,-1,-1,
    -1,-1,-1,-1,-1,-1,-1,-1,-1,-1,-1,62,-1,-1,-1,63,
    52,53,54,55,56,57,58,59,60,61,-1,-1,-1,-2,-1,-1,
    -1,0,1,2,3,4,5,6,7,8,9,10,11,12,13,14,
    15,16,17,18,19,20,21,22,23,24,25,-1,-1,-1,-1,-1,
    -1,26,27,28,29,30,31,32,33,34,35,36,37,38,39,40,
    41,42,43,44,45,46,47,48,49,50,51,-1,-1,-1,-1,-1,
    -1,-1,-1,-1,-1,-1,-1,-1,-1,-1,-1,-1,-1,-1,-1,-1,
    -1,-1,-1,-1,-1,-1,-1,-1,-1,-1,-1,-1,-1,-1,-1,-1,
    -1,-1,-1,-1,-1,-1,-1,-1,-1,-1,-1,-1,-1,-1,-1,-1,
    -1,-1,-1,-1,-1,-1,-1,-1,-1,-1,-1,-1,-1,-1,-1,-1,
    -1,-1,-1,-1,-1,-1,-1,-1,-1,-1,-1,-1,-1,-1,-1,-1,
    -1,-1,-1,-1,-1,-1,-1,-1,-1,-1,-1,-1,-1,-1,-1,-1,
    -1,-1,-1,-1,-1,-1,-1,-1,-1,-1,-1,-1,-1,-1,-1,-1,
    -1,-1,-1,-1,-1,-1,-1,-1,-1,-1,-1,-1,-1,-1,-1,-1]

def decodeWebsafeTable : List Int :=
  [-1,-1,-1,-1,-1,-1,-1,-1,-1,-1,-1,-1,-1,-1,-1,-1,
    -1,-1,-1,-1,-1,-1,-1,-1,-1,-1,-1,-1,-1,-1,-1,-1,
    -1,-1,-1,-1,-1,-1,-1,-1,-1,-1,-1,-1,-1,62,-1,-1,
    52,53,54,55,56,57,58,59,60,61,-1,-1,-1,-2,-1,-1,
    -1,0,1,2,3,4,5,6,7,8,9,10,11,12,13,14,
    15,16,17,18,19,20,21,22,23,24,25,-1,-1,-1,-1,63,
    -1,26,27,28,29,30,31,32,33,34,35,36,37,38,39,40,
    41,42,43,44,45,46,47,48,49,50,51,-1,-1,-1,-1,-1,
    -1,-1,-1,-1,-1,-1,-1,-1,-1,-1,-1,-1,-1,-1,-1,-1,
    -1,-1,-1,-1,-1,-1,-1,-1,-1,-1,-1,-1,-1,-1,-1,-1,
    -1,-1,-1,-1,-1,-1,-1,-1,-1,-1,-1,-1,-1,-1,-1,-1,
    -1,-1,-1,-1,-1,-1,-1,-1,-1,-1,-1,-1,-1,-1,-1,-1,
    -1,-1,-1,-1,-1,-1,-1,-1,-1,-1,-1,-1,-1,-1,-1,-1,
    -1,-1,-1,-1,-1,-1,-1,-1,-1,-1,-1,-1,-1,-1,-1,-1,
    -1,-1,-1,-1,-1,-1,-1,-1,-1,-1,-1,-1,-1,-1,-1,-1,
    -1,-1,-1,-1,-1,-1,-1,-1,-1,-1,-1,-1,-1,-1,-1,-1]

def decodeAlphabet (flags : Word) : List Int :=
  if flags&&&urlSafe=0 then decodeTable else decodeWebsafeTable

def position (alphabet : List Int) (c : Byte) : Word := BitVec.ofInt 32 (alphabet.getD c.toNat 0)

def skip : Word := -1

def equals : Word := -2

/-- States 0 to 5 of the decoder; the error state 6 is the end of the call. -/
inductive DecodeState where
  | zero
  | one
  | two
  | three
  | four
  | five
  deriving DecidableEq

structure Machine where
  state : DecodeState
  value : Word
  output : List Byte

def byte (value : Word) : Byte := value.setWidth 8

def triple (value : Word) : List Byte := [byte (value>>>16),byte (value>>>8),byte value]

/-- The tuples taken four bytes at a time: output, value and the input left. -/
def fastPath (alphabet : List Int) (output : List Byte) (value : Word) :
    List Byte → List Byte × Word × List Byte
  | a::b::c::d::input =>
    let value := (position alphabet a<<<18)|||(position alphabet b<<<12)|||
      (position alphabet c<<<6)|||position alphabet d
    if value.msb then (output,value,a::b::c::d::input)
    else fastPath alphabet (output++triple value) value input
  | input => (output,value,input)

/-- The state machine on one byte with position d; none is return false. -/
def step (m : Machine) (d : Word) : Option Machine :=
  match m.state with
  | .zero =>
    if !d.msb then some {m with value := d,state := .one}
    else if d≠skip then none else some m
  | .one =>
    if !d.msb then some {m with value := (m.value<<<6)|||d,state := .two}
    else if d≠skip then none else some m
  | .two =>
    if !d.msb then some {m with value := (m.value<<<6)|||d,state := .three}
    else if d=equals then some {m with output := m.output++[byte (m.value>>>4)],state := .four}
    else if d≠skip then none else some m
  | .three =>
    if !d.msb then
      let value := (m.value<<<6)|||d
      some ⟨.zero,value,m.output++triple value⟩
    else if d=equals then
      some {m with output := m.output++[byte (m.value>>>10),byte (m.value>>>2)],state := .five}
    else if d≠skip then none else some m
  | .four =>
    if d=equals then some {m with state := .five}
    else if d≠skip then none else some m
  | .five => if d≠skip then none else some m

/-- The fast path is tried at the start of a tuple only. -/
def atTuple (alphabet : List Int) (m : Machine) (input : List Byte) : Machine × List Byte :=
  if m.state=.zero then
    let (output,value,input) := fastPath alphabet m.output m.value input
    (⟨.zero,value,output⟩,input)
  else (m,input)

theorem fastPath_length (alphabet : List Int) (output : List Byte) (value : Word)
    (input : List Byte) : (fastPath alphabet output value input).2.2.length ≤ input.length := by
  fun_induction fastPath alphabet output value input with
  | case1 => exact Nat.le_refl _
  | case2 output value a b c d input _ _ ih =>
    simp only [List.length_cons]
    omega
  | case3 => exact Nat.le_refl _

theorem atTuple_length (alphabet : List Int) (m : Machine) (input : List Byte) :
    (atTuple alphabet m input).2.length ≤ input.length := by
  rw [atTuple]
  split
  · exact fastPath_length alphabet m.output m.value input
  · exact Nat.le_refl _

/-- The loop over the input; its test and the break after the fast path are the one match. -/
def decodeLoop (alphabet : List Int) (m : Machine) (input : List Byte) : Option Machine :=
  match h : atTuple alphabet m input with
  | (started,[]) => some started
  | (started,c::rest) =>
    match step started (position alphabet c) with
    | none => none
    | some next => decodeLoop alphabet next rest
termination_by input.length
decreasing_by
  have hlen := atTuple_length alphabet m input
  rw [h,List.length_cons] at hlen
  omega

/-- The switch after the loop. -/
def finish (m : Machine) : Option (List Byte) :=
  match m.state with
  | .zero => some m.output
  | .one => none
  | .two => some (m.output++[byte (m.value>>>4)])
  | .three => some (m.output++[byte (m.value>>>10),byte (m.value>>>2)])
  | .four => none
  | .five => some m.output

/-- How do_decode ends: return false, or an int returned and the bytes written. -/
inductive Decoded where
  | rejected
  | accepted (returned : Int) (written : List Byte)

def doDecode (input : List Byte) (flags : Word) : Decoded :=
  match (decodeLoop (decodeAlphabet flags) ⟨.zero,0,[]⟩ input).bind finish with
  | none => .rejected
  | some output => .accepted ((int32 (int32 input.length*3)).tdiv 4) output

end IdearNiu.AndroidBase64
