import IdearNiu.Framework.Words
import IdearNiu.Http.Stream

namespace IdearNiu.Http

def isSpace (b : UInt8) : Bool := b==space || (9≤b && b≤13)

def isDigit (b : UInt8) : Bool := 48≤b && b≤57

def toLower (b : UInt8) : UInt8 := if 65≤b ∧ b≤90 then b+32 else b

/-- strcasecmp gives 0. -/
def sameText (a b : List UInt8) : Bool := a.map toLower==b.map toLower

/-- The part of a buffer that a C string function sees. -/
def cString (l : List UInt8) : List UInt8 := l.takeWhile (·≠0)

/-- The value of a run of digits, with a digit function for the base. -/
def digitRun (base : Nat) (digit : UInt8 → Option Nat) : List UInt8 → Nat → Nat
  | [],n => n
  | b::l,n => match digit b with
    | some d => digitRun base digit l (base*n+d)
    | none => n

def decDigit (b : UInt8) : Option Nat := if isDigit b then some (b.toNat-48) else none

def hexDigit (b : UInt8) : Option Nat :=
  if isDigit b then some (b.toNat-48)
  else if 97≤toLower b && toLower b≤102 then some ((toLower b).toNat-87) else none

def stripZeroX (l : List UInt8) : List UInt8 :=
  match l with
  | z::x::b::_ => if z=48 ∧ toLower x=120 ∧ (hexDigit b).isSome then l.drop 2 else l
  | _ => l

/-- White space, an optional sign and the digits, before the result is brought into range. -/
def strtolValue (base : Nat) (digit : UInt8 → Option Nat)
    (strip : List UInt8 → List UInt8) (s : List UInt8) : Int :=
  match s.dropWhile isSpace with
  | [] => 0
  | b::l =>
    if b=45 then -(digitRun base digit (strip l) 0 : Int)
    else if b=43 then digitRun base digit (strip l) 0
    else digitRun base digit (strip (b::l)) 0

def wgintMax : Int := 2^63-1

/-- strtol with base 16: the result is clipped to the range of long. -/
def strtol16 (s : List UInt8) : Int :=
  max (-2^63) (min wgintMax (strtolValue 16 hexDigit stripZeroX s))

/-- Where the line that starts here goes on: the next line starts with white space. -/
def continues (l : List UInt8) : Bool := l.head?==some space || l.head?==some tab

/-- One header with its continuations, whose line ends become spaces, and what follows. -/
def headerLine : List UInt8 → List UInt8×List UInt8
  | [] => ([],[])
  | b::l =>
    if b=newline then
      if continues l then ((space::(headerLine l).1),(headerLine l).2) else ([newline],l)
    else if b=carriageReturn ∧ l.head?=some newline ∧ continues l.tail then
      ((space::(headerLine l).1),(headerLine l).2)
    else ((b::(headerLine l).1),(headerLine l).2)

def emptyHeader (l : List UInt8) : Bool :=
  l.isEmpty || [carriageReturn,newline].isPrefixOf l || [newline].isPrefixOf l

/-- The header lines of a head, up to the empty one. -/
def headerLines : Nat → List UInt8 → List (List UInt8)
  | 0,_ => []
  | fuel+1,l => if emptyHeader l then [] else (headerLine l).1::headerLines fuel (headerLine l).2

/-- The headers are NULL for an empty head. -/
def respNew (head : List UInt8) : Option (List (List UInt8)) :=
  let s := cString head
  if s=[] then none else some (headerLines s.length s)

def trim (l : List UInt8) : List UInt8 :=
  ((l.dropWhile isSpace).reverse.dropWhile isSpace).reverse

/-- The value of the first header of this name; line 0 is the status line. -/
def respHeaderGet (resp : Option (List (List UInt8))) (name : List UInt8) :
    Option (List UInt8) :=
  match resp with
  | none => none
  | some lines => lines.tail.findSome? fun line =>
      if line.length>name.length ∧ (line.drop name.length).head?=some 58 ∧
          sameText (line.take name.length) name
      then some (trim (line.drop (name.length+1))) else none

def hdrvalSize : Nat := 512

def respHeaderCopy (resp : Option (List (List UInt8))) (name : List UInt8) :
    Option (List UInt8) :=
  (respHeaderGet resp name).map fun v => v.take (hdrvalSize-1)

/-- The optional version after the letters HTTP. -/
def skipVersion (l : List UInt8) : List UInt8 :=
  match l with
  | b::rest =>
    if b=47 then
      let major := rest.dropWhile isDigit
      (if major.head?=some 46 then major.tail else major).dropWhile isDigit
    else l
  | [] => []

/-- The status code, or -1 for a malformed status line; 200 when there are no headers. -/
def respStatus (resp : Option (List (List UInt8))) : Int :=
  match resp with
  | none => 200
  | some [] => -1
  | some (line::_) =>
    if ¬text "HTTP"<+:line then -1
    else match (skipVersion (line.drop 4)).dropWhile isSpace with
      | a::b::c::_ =>
        if isDigit a && isDigit b && isDigit c then
          100*(a.toNat-48 : Int)+10*(b.toNat-48)+(c.toNat-48)
        else -1
      | _ => -1

/-- A run of digits into an int; num wraps. -/
def intRun (l : List UInt8) : Int×List UInt8 :=
  (Words.int32 (digitRun 10 decDigit l 0),l.dropWhile isDigit)

/-- After the unit bytes, a colon is allowed and some text must follow. -/
def skipUnit (hdr : List UInt8) : Option (List UInt8) :=
  if sameText (hdr.take 5) (text "bytes") then
    let l := hdr.drop 5
    let l := if l.head?=some 58 then l.tail else l
    let l := l.dropWhile isSpace
    if l=[] then none else some l
  else some hdr

/-- The first and the last position, each as the int that is stored. -/
def parseContentRange (hdr : List UInt8) : Option (Int×Int) := do
  let l ← skipUnit hdr
  guard ((l.head?.map isDigit).getD false)
  let (first,l) := intRun l
  guard (l.head?=some 45 ∧ (l.tail.head?.map isDigit).getD false)
  let (last,l) := intRun l.tail
  guard (l.head?=some 47)
  guard ((l.tail.head?.map isDigit).getD false ∨ l.tail.head?=some 42)
  guard (first≤last)
  let entity := if l.tail.head?=some 42 then -1 else (intRun l.tail).1
  guard (last<entity ∨ entity=-1)
  return (first,last)

/-- Only the low halves of the variables of gethttp are written; the upper halves keep what
they held. -/
def widen (upper low : Int) : Int := upper*2^32+low%2^32

/-- What gethttp takes from a head. -/
structure Head where
  statcode : Int
  contlen : Int
  close : Bool
  chunked : Bool
  newloc : Bool
  contentRange : Option (Int×Int)
deriving DecidableEq

/-- A negative length and one that is out of range count as none. -/
def contentLength (resp : Option (List (List UInt8))) : Int :=
  match respHeaderCopy resp (text "Content-Length") with
  | none => -1
  | some v =>
    let parsed := strtolValue 10 decDigit id v
    if wgintMax<parsed ∨ parsed<0 then -1 else parsed

def hasValue (resp : Option (List (List UInt8))) (name value : String) : Bool :=
  match respHeaderCopy resp (text name) with
  | none => false
  | some v => sameText v (text value)

def readHeaders (upper : Int×Int) (resp : Option (List (List UInt8))) : Head where
  statcode := respStatus resp
  contlen := contentLength resp
  close := hasValue resp "Connection" "Close"
  chunked := hasValue resp "Transfer-Encoding" "chunked"
  newloc := (respHeaderGet resp (text "Location")).isSome
  contentRange := ((respHeaderCopy resp (text "Content-Range")).bind parseContentRange).map
    fun r => (widen upper.1 r.1,widen upper.2 r.2)

/-- No data, a read error, a malformed status line, or a head that is not a 10x one. -/
inductive Reply where
  | noData
  | failed
  | malformed
  | head (h : Head)
deriving DecidableEq

/-- Heads with a 10x code are skipped. -/
def readReplyFrom (seg : Nat → Segment) (upper : Int×Int) : Nat → Conn → Reply×Conn
  | 0,c => (.failed,c)
  | fuel+1,c => match readHttpResponseHead seg c with
    | (.noData,c') => (.noData,c')
    | (.failed,c') => (.failed,c')
    | (.data head,c') =>
      let h := readHeaders upper (respNew head)
      if h.statcode<0 then (.malformed,c')
      else if 100≤h.statcode ∧ h.statcode<200 then readReplyFrom seg upper fuel c'
      else (.head h,c')

/-- A 10x head is not empty, so every head that is skipped takes a byte. -/
def readReply (seg : Nat → Segment) (upper : Int×Int) (c : Conn) : Reply×Conn :=
  readReplyFrom seg upper (c.unread.length+1) c

end IdearNiu.Http
