import IdearNiu.Framework.Words
import IdearNiu.Math.Decimal
import Mathlib.Data.Int.Log
import Mathlib.Data.List.TakeWhile
import Mathlib.Data.Rat.Floor

namespace IdearNiu.CJson

open Words (letters int32 toSize)

abbrev Byte := BitVec 8

abbrev Word := BitVec 32

/-- A string in memory, without its nul. -/
@[ext] structure CString where
  bytes : List Byte
  noNul : 0∉bytes
  deriving DecidableEq

/-- What the bytes written to a block are as a string: all up to the first nul. -/
def CString.read (written : List Byte) : CString where
  bytes := written.takeWhile (·≠0)
  noNul h := by simpa using List.mem_takeWhile_imp h

def quote : Byte := 0x22

def backslash : Byte := 0x5c

def comma : Byte := 0x2c

def colon : Byte := 0x3a

def space : Byte := 0x20

def minus : Byte := 0x2d

def point : Byte := 0x2e

def openArray : Byte := 0x5b

def closeArray : Byte := 0x5d

def openObject : Byte := 0x7b

def closeObject : Byte := 0x7d

@[match_pattern] def typeFalse : Nat := 0

@[match_pattern] def typeTrue : Nat := 1

@[match_pattern] def typeNull : Nat := 2

@[match_pattern] def typeNumber : Nat := 3

@[match_pattern] def typeString : Nat := 4

@[match_pattern] def typeArray : Nat := 5

@[match_pattern] def typeObject : Nat := 6

/-- The fields of a cJSON other than its pointers to other items; a double is its exact value. -/
structure Fields where
  type : Nat
  valuestring : Option CString
  valueint : Int
  valuedouble : Rat
  string : Option CString

/-- A pointer to an item, with the chain of its children and the chain it stands in. -/
inductive Item where
  | null
  | item (fields : Fields) (child next : Item)

def newItem : Fields := ⟨0,none,0,0,none⟩

def sizeofItem : Nat := 64

section Numbers

/-- sprintf of %d. -/
def formatInt (i : Int) : List Byte := (if i<0 then [minus] else [])++Decimal.text i.natAbs

def roundHalfEven (q : Rat) : Nat :=
  let low := ⌊q⌋.toNat
  if q-low<1/2 then low else if 1/2<q-low then low+1 else if low%2=0 then low else low+1

/-- The digits after the point, with leading zeros. -/
def fraction (digits n : Nat) : List Byte :=
  let text := Decimal.text n
  List.replicate (digits-text.length) 0x30++text

/-- sprintf of %f with the number of digits after the point. -/
def formatFixed (digits : Nat) (d : Rat) : List Byte :=
  let n := roundHalfEven (abs d*10^digits)
  (if d<0 then [minus] else [])++Decimal.text (n/10^digits)++
    (if digits=0 then [] else point::fraction digits (n%10^digits))

/-- sprintf of %e. -/
def formatExp (d : Rat) : List Byte :=
  let e := if d=0 then 0 else Int.log 10 (abs d)
  let n := roundHalfEven (abs d/10^e*10^6)
  let (e,n) := if n=10^7 then (e+1,10^6) else (e,n)
  (if d<0 then [minus] else [])++Decimal.text (n/10^6)++point::fraction 6 (n%10^6)++
    letters "e"++(if e<0 then [minus] else letters "+")++fraction 2 e.natAbs

def dblEpsilon : Rat := 1/2^52

/-- The conversion of a double to int; a value out of range becomes INT_MIN. -/
def toInt (d : Rat) : Int :=
  let i := d.num.tdiv d.den
  if -2^31 ≤ i ∧ i<2^31 then i else -2^31

end Numbers

section Printing

/-- How printing ends without a text: NULL, or a write past the end of a block. -/
inductive PrintFailure where
  | null
  | overrun
  deriving DecidableEq

/-- What a child is printed to. -/
abbrev Printed := Except PrintFailure (List Byte)

variable (malloc : Nat → Bool)

/-- A block of a size, filled with a text and its nul. -/
def fill (size : Nat) (text : List Byte) : Printed :=
  if malloc size then if text.length < size then .ok text else .error .overrun
  else .error .null

def strdup (text : List Byte) : Printed := fill malloc (text.length+1) text

def printNumber (f : Fields) : Printed :=
  let d := f.valuedouble
  if abs ((f.valueint:Rat)-d)≤dblEpsilon ∧ d≤2147483647 ∧ -2147483648≤d then
    fill malloc 21 (formatInt f.valueint)
  else
    fill malloc 64
      (if abs ((⌊d⌋:Rat)-d)≤dblEpsilon ∧ abs d<10^60 then formatFixed 0 d
      else if abs d<1/10^6 ∨ 10^9<abs d then formatExp d
      else formatFixed 6 d)

def hexDigit (n : Nat) : Byte := (letters "0123456789abcdef").getD n 0

/-- sprintf of u%04x for a byte. -/
def formatHex (token : Byte) : List Byte :=
  0x75::[hexDigit (token.toNat/16^3%16),hexDigit (token.toNat/16^2%16),
    hexDigit (token.toNat/16%16),hexDigit (token.toNat%16)]

def escape (c : Byte) : List Byte :=
  if 31<c ∧ c≠quote ∧ c≠backslash then [c]
  else backslash::(
    if c=backslash then [backslash]
    else if c=quote then [quote]
    else if c=0x08 then letters "b"
    else if c=0x0c then letters "f"
    else if c=0x0a then letters "n"
    else if c=0x0d then letters "r"
    else if c=0x09 then letters "t"
    else formatHex c)

/-- The loop of print_string_ptr over its int len, which also ends when `++len` gives 0. -/
def countEscaped (len : Int) : List Byte → Int
  | [] => len
  | token::str =>
    let len := int32 (len+1)
    if len=0 then len
    else if token∈[quote,backslash,0x08,0x0c,0x0a,0x0d,0x09] then
      countEscaped (int32 (len+1)) str
    else if token<32 then countEscaped (int32 (len+5)) str
    else countEscaped len str

/-- How many characters print_string_ptr counts for one. -/
def escapedSize (c : Byte) : Nat :=
  if c∈[quote,backslash,0x08,0x0c,0x0a,0x0d,0x09] then 2 else if c<32 then 6 else 1

def printStringPtr : Option CString → Printed
  | none => strdup malloc []
  | some str =>
    fill malloc (toSize (int32 (countEscaped 0 str.bytes+3)))
      (quote::str.bytes.flatMap escape++[quote])

/-- The entries of an array, between the brackets. -/
def joinEntries (fmt : Bool) : List (List Byte) → List Byte
  | [] => []
  | [entry] => entry
  | entry::entries => entry++comma::(if fmt then [space] else [])++joinEntries fmt entries

/-- The loop of print_array over the children; room is the number of pointers that there is
still a place for, and a NULL ends the loop. -/
def collect (room : Nat) : List Printed → Except PrintFailure (List (List Byte))
  | [] => .ok []
  | entry::entries =>
    if room=0 then .error .overrun
    else do
      let text ← entry
      let texts ← collect (room-1) entries
      .ok (text::texts)

/-- numentries and len are ints; the children are printed where the loop comes to them. -/
def printArray (fmt : Bool) (entries : List Printed) : Printed :=
  let numentries := int32 entries.length
  if numentries=0 then fill malloc 3 [openArray,closeArray]
  else
    let bytes := toSize numentries*8%2^64
    if malloc bytes then do
      let texts ← collect (bytes/8) entries
      let len := texts.foldl
        (fun len text => int32 (len+(text.length+2+(if fmt then 1 else 0) : Nat))) (int32 5)
      fill malloc (toSize len)
        (openArray::joinEntries fmt (texts.take numentries.toNat)++[closeArray])
    else .error .null

def joinMembers : List (List Byte × List Byte) → List Byte
  | [] => []
  | [(name,entry)] => name++colon::entry
  | (name,entry)::members => name++colon::entry++comma::joinMembers members

/-- The loop of print_object over the names and the children, which a NULL does not end. -/
def collectMembers (room : Nat) :
    List (Printed × Printed) → Except PrintFailure (List (List Byte × List Byte))
  | [] => .ok []
  | (name,entry)::members =>
    if room=0 then .error .overrun
    else
      match name,entry,collectMembers (room-1) members with
      | .ok name,.ok entry,.ok members => .ok ((name,entry)::members)
      | .error .overrun,_,_ => .error .overrun
      | _,.error .overrun,_ => .error .overrun
      | _,_,.error .overrun => .error .overrun
      | _,_,_ => .error .null

/-- Composes an object from the names of its items and what they are printed to. -/
def printObject (depth : Nat) (fmt : Bool) (entries : List (Option CString × Printed)) :
    Printed :=
  let numentries := int32 entries.length
  if numentries=0 then
    fill malloc (if fmt then toSize (int32 (depth+3)) else 3) [openObject,closeObject]
  else
    let bytes := toSize numentries*8%2^64
    if malloc bytes then do
      let depth := depth+1
      let members ← collectMembers (bytes/8)
        (entries.map (fun e => (printStringPtr malloc e.1,e.2)))
      let len := members.foldl (fun len m =>
          int32 (len+(m.2.length+m.1.length+2+(if fmt then 2+depth else 0) : Nat)))
        (int32 (7+(if fmt then depth else 0) : Nat))
      fill malloc (toSize len)
        (openObject::joinMembers (members.take numentries.toNat)++[closeObject])
    else .error .null

/-- The switch of print_value, with what the children are printed to. -/
def printNode (depth : Nat) (fmt : Bool) (f : Fields)
    (entries : List (Option CString × Printed)) : Printed :=
  match f.type&&&255 with
  | typeNull => strdup malloc (letters "null")
  | typeFalse => strdup malloc (letters "false")
  | typeTrue => strdup malloc (letters "true")
  | typeNumber => printNumber malloc f
  | typeString => printStringPtr malloc f.valuestring
  | typeArray => printArray malloc fmt (entries.map Prod.snd)
  | typeObject => printObject malloc depth fmt entries
  | _ => .error .null

/-- What the items of a chain are printed to, each with the name it has. -/
def printChain (depth : Nat) (fmt : Bool) : Item → List (Option CString × Printed)
  | .null => []
  | .item f child next =>
    (f.string,printNode malloc depth fmt f (printChain (depth+1) fmt child))::
      printChain depth fmt next

def printValue (depth : Nat) (fmt : Bool) : Item → Printed
  | .null => .error .null
  | .item f child _ => printNode malloc depth fmt f (printChain malloc (depth+1) fmt child)

def cJSONPrint (item : Item) : Printed := printValue malloc 0 true item

def cJSONPrintUnformatted (item : Item) : Printed := printValue malloc 0 false item

end Printing

section Parsing

/-- How a parse ends without an item: NULL, a read past the end of the text or a write past the
end of a block, a read of uc or uc2 before anything was stored there, or a parse longer than
the bound it was started with. -/
inductive Failure where
  | null
  | overrun
  | uninitialised
  | outOfFuel
  deriving DecidableEq

def skip (text : List Byte) : List Byte := text.dropWhile (·≤32)

def isDigit (c : Byte) : Bool := 0x30≤c && c≤0x39

/-- The loop over a run of digits: the number, how many were read, and the text after them. -/
def readDigits (n : Nat) : List Byte → Nat × Nat × List Byte
  | [] => (n,0,[])
  | c::text =>
    if isDigit c then
      let (n,count,rest) := readDigits (n*10+(c.toNat-0x30)) text
      (n,count+1,rest)
    else (n,0,c::text)

/-- The text after a character that may stand at its front. -/
def after (c : Byte) (text : List Byte) : Bool × List Byte :=
  if text.head?=some c then (true,text.tail) else (false,text)

/-- The exponent, if there is one. -/
def readExponent (num : List Byte) : Int × List Byte :=
  match num with
  | [] => (0,[])
  | e::rest =>
    if e=0x65 ∨ e=0x45 then
      let (plus,rest) := after 0x2b rest
      let (negative,rest) := if plus then (false,rest) else after minus rest
      let (subscale,_,rest) := readDigits 0 rest
      (if negative then -subscale else subscale,rest)
    else (0,num)

def parseNumber (f : Fields) (num : List Byte) : Fields × List Byte :=
  let (negative,num) := after minus num
  let (_,num) := after 0x30 num
  let (n,_,num) := if num.head?.any (fun c => 0x31≤c && c≤0x39) then readDigits 0 num
    else (0,0,num)
  let (n,scale,num) := if num.head?=some point ∧ num.tail.head?.any isDigit then
    readDigits n num.tail else (n,0,num)
  let (exponent,num) := readExponent num
  let d : Rat := (if negative then -1 else 1)*n*10^(-(scale:Int)+exponent)
  ({f with valuedouble := d,valueint := toInt d,type := typeNumber},num)

/-- The first loop of parse_string, over the characters before the closing quote and the int
len; it also ends when `++len` gives 0. -/
def scanString (len : Int) : List Byte → Except Failure Int
  | [] => .ok len
  | c::text =>
    if c=quote then .ok len
    else
      let len := int32 (len+1)
      if len=0 then .ok len
      else if c=backslash then
        match text with
        | [] => .error .overrun
        | _::text => scanString len text
      else scanString len text

def isSpace (c : Byte) : Bool := c=0x20 || (0x09≤c && c≤0x0d)

def hexValue (c : Byte) : Option Nat :=
  if 0x30≤c ∧ c≤0x39 then some (c.toNat-0x30)
  else if 0x61≤c ∧ c≤0x66 then some (c.toNat-0x61+10)
  else if 0x41≤c ∧ c≤0x46 then some (c.toNat-0x41+10)
  else none

/-- sscanf of %4x: white space, a sign and 0x may stand before the digits, and from the sign on
four characters are read at most. -/
def sscanfHex (text : List Byte) : Option Word :=
  let text := (text.dropWhile isSpace).take 4
  let (negative,text) := if text.head?=some minus then (true,text.tail)
    else (false,(after 0x2b text).2)
  let text := match text with
    | a::x::rest => if a=0x30 ∧ (x=0x78 ∨ x=0x58) then rest else a::x::rest
    | text => text
  match (text.map hexValue).takeWhile Option.isSome with
  | [] => none
  | digits =>
    let n : Word := BitVec.ofNat 32 (digits.foldl (fun n d => n*16+d.getD 0) 0)
    some (if negative then -n else n)

/-- The number of bytes uc takes in UTF-8. -/
def utf8Length (uc : Word) : Nat :=
  if uc<0x80 then 1 else if uc<0x800 then 2 else if uc<0x10000 then 3 else 4

def firstByteMark : List Byte := [0x00,0x00,0xC0,0xE0,0xF0,0xF8,0xFC]

def continuation (uc : Word) : Byte := ((uc|||0x80)&&&0xBF).setWidth 8

/-- The bytes written for uc from the last to the first, in the order of the string. -/
def utf8 (uc : Word) : List Byte :=
  match utf8Length uc with
  | 1 => [uc.setWidth 8|||firstByteMark.getD 1 0]
  | 2 => [(uc>>>6).setWidth 8|||firstByteMark.getD 2 0,continuation uc]
  | 3 => [(uc>>>12).setWidth 8|||firstByteMark.getD 3 0,continuation (uc>>>6),continuation uc]
  | _ => [(uc>>>18).setWidth 8|||firstByteMark.getD 4 0,continuation (uc>>>12),
      continuation (uc>>>6),continuation uc]

/-- What is written for the letter after a backslash, u apart. -/
def unescapeLetter (c : Byte) : Byte :=
  if c=0x62 then 0x08 else if c=0x66 then 0x0c else if c=0x6e then 0x0a
  else if c=0x72 then 0x0d else if c=0x74 then 0x09 else c

/-- The second loop of parse_string: the bytes written and the text it stops at. A conversion
that fails leaves uc or uc2 as it was. -/
def unescape (uc uc2 : Option Word) : List Byte → Except Failure (List Byte × List Byte)
  | [] => .ok ([],[])
  | c::text =>
    if c=quote then .ok ([],c::text)
    else if c≠backslash then do
      let (out,rest) ← unescape uc uc2 text
      .ok (c::out,rest)
    else
      match text with
      | [] => .error .overrun
      | letter::text =>
        if letter≠0x75 then do
          let (out,rest) ← unescape uc uc2 text
          .ok (unescapeLetter letter::out,rest)
        else
          match text with
          | h1::h2::h3::h4::text =>
            match (sscanfHex (h1::h2::h3::h4::text)).or uc with
            | none => .error .uninitialised
            | some u =>
              if (0xDC00≤u ∧ u≤0xDFFF) ∨ u=0 then unescape (some u) uc2 text
              else if 0xD800≤u ∧ u≤0xDBFF then
                match text with
                | b::v::text =>
                  if b≠backslash ∨ v≠0x75 then unescape (some u) uc2 (b::v::text)
                  else
                    match text with
                    | g1::g2::g3::g4::text =>
                      match (sscanfHex (g1::g2::g3::g4::text)).or uc2 with
                      | none => .error .uninitialised
                      | some u2 =>
                        if u2<0xDC00 ∨ 0xDFFF<u2 then unescape (some u) (some u2) text
                        else do
                          let u := 0x10000+(((u&&&0x3FF)<<<10)|||(u2&&&0x3FF))
                          let (out,rest) ← unescape (some (u>>>18)) (some u2) text
                          .ok (utf8 u++out,rest)
                    | _ => .error .overrun
                | text => unescape (some u) uc2 text
              else do
                let (out,rest) ← unescape (some (u>>>(6*(utf8Length u-1)))) uc2 text
                .ok (utf8 u++out,rest)
          | _ => .error .overrun

variable (malloc : Nat → Bool)

def parseString (f : Fields) (str : List Byte) : Except Failure (Fields × List Byte) :=
  if str.head?≠some quote then .error .null
  else do
    let len ← scanString 0 str.tail
    let bytes := toSize (int32 (len+1))
    if malloc bytes then
      let (out,ptr) ← unescape none none str.tail
      if out.length<bytes then
        .ok ({f with valuestring := some (CString.read out),type := typeString},(after quote ptr).2)
      else .error .overrun
    else .error .null

mutual

def parseValue : Nat → Fields → List Byte → Except Failure (Fields × Item × List Byte)
  | 0,_,_ => .error .outOfFuel
  | fuel+1,f,value =>
    if (letters "null").isPrefixOf value then .ok ({f with type := typeNull},.null,value.drop 4)
    else if (letters "false").isPrefixOf value then
      .ok ({f with type := typeFalse},.null,value.drop 5)
    else if (letters "true").isPrefixOf value then
      .ok ({f with type := typeTrue,valueint := 1},.null,value.drop 4)
    else if value.head?=some quote then do
      let (f,rest) ← parseString malloc f value
      .ok (f,.null,rest)
    else if value.head?.any (fun c => c=minus || isDigit c) then
      let (f,rest) := parseNumber f value
      .ok (f,.null,rest)
    else if value.head?=some openArray then parseArray fuel f value
    else if value.head?=some openObject then parseObject fuel f value
    else .error .null

def parseArray : Nat → Fields → List Byte → Except Failure (Fields × Item × List Byte)
  | 0,_,_ => .error .outOfFuel
  | fuel+1,f,value =>
    let f := {f with type := typeArray}
    let value := skip value.tail
    if value.head?=some closeArray then .ok (f,.null,value.tail)
    else do
      let (child,value) ← parseElements fuel value
      if value.head?=some closeArray then .ok (f,child,value.tail) else .error .null

/-- The items of an array, with the loop over the commas. -/
def parseElements : Nat → List Byte → Except Failure (Item × List Byte)
  | 0,_ => .error .outOfFuel
  | fuel+1,value =>
    if malloc sizeofItem then do
      let (f,child,value) ← parseValue fuel newItem (skip value)
      let value := skip value
      if value.head?=some comma then
        let (next,value) ← parseElements fuel value.tail
        .ok (.item f child next,value)
      else .ok (.item f child .null,value)
    else .error .null

def parseObject : Nat → Fields → List Byte → Except Failure (Fields × Item × List Byte)
  | 0,_,_ => .error .outOfFuel
  | fuel+1,f,value =>
    let f := {f with type := typeObject}
    let value := skip value.tail
    if value.head?=some closeObject then .ok (f,.null,value.tail)
    else do
      let (child,value) ← parseMembers fuel value
      if value.head?=some closeObject then .ok (f,child,value.tail) else .error .null

/-- The members of an object: a name is parsed as a string and moved to its place. -/
def parseMembers : Nat → List Byte → Except Failure (Item × List Byte)
  | 0,_ => .error .outOfFuel
  | fuel+1,value =>
    if malloc sizeofItem then do
      let (f,value) ← parseString malloc newItem (skip value)
      let value := skip value
      let f := {f with string := f.valuestring,valuestring := none}
      if value.head?=some colon then
        let (f,child,value) ← parseValue fuel f (skip value.tail)
        let value := skip value
        if value.head?=some comma then
          let (next,value) ← parseMembers fuel value.tail
          .ok (.item f child next,value)
        else .ok (.item f child .null,value)
      else .error .null
    else .error .null

end

/-- A parse that is started with this bound does not come to it. -/
def parseFuel (text : List Byte) : Nat := 3*text.length+3

def cJSONParse (value : List Byte) : Except Failure Item :=
  if malloc sizeofItem then do
    let (f,child,_) ← parseValue malloc (parseFuel value) newItem (skip value)
    .ok (.item f child .null)
  else .error .null

end Parsing

end IdearNiu.CJson
