import IdearNiu.Framework.Cutting
import IdearNiu.Framework.Words
import IdearNiu.Math.Decimal

namespace IdearNiu.Url

open Words
open Cutting (before onward)

def colon : Byte := 0x3a

def slash : Byte := 0x2f

def semicolon : Byte := 0x3b

def question : Byte := 0x3f

def hash : Byte := 0x23

def atSign : Byte := 0x40

def percent : Byte := 0x25

def openBracket : Byte := 0x5b

def closeBracket : Byte := 0x5d

inductive Scheme where
  | http
  | https
  | ftp
  | ftps
  deriving DecidableEq

/-- A row of supported_schemes; the flag scm_disabled is kept apart, for it can be set. -/
structure SchemeData where
  leadingString : List Byte
  defaultPort : Nat
  hasParams : Bool
  hasQuery : Bool
  hasFragment : Bool

def schemeData : Scheme → SchemeData
  | .http => ⟨letters "http://",80,false,true,true⟩
  | .https => ⟨letters "https://",443,false,true,true⟩
  | .ftp => ⟨letters "ftp://",21,true,false,true⟩
  | .ftps => ⟨letters "ftps://",21,true,false,true⟩

def supportedSchemes (haveSsl : Bool) : List Scheme :=
  if haveSsl then [.http,.https,.ftp,.ftps] else [.http,.ftp]

def reservedMask : Nat := 1

def unsafeMask : Nat := 2

def urlchrTable : List Nat :=
  [2,2,2,2,2,2,2,2,2,2,2,2,2,2,2,2,2,2,2,2,2,2,2,2,2,2,2,2,2,2,2,2,
    2,0,2,3,1,2,1,0,0,0,0,1,1,0,0,1,0,0,0,0,0,0,0,0,0,0,3,1,2,1,2,1,
    3,0,0,0,0,0,0,0,0,0,0,0,0,0,0,0,0,0,0,0,0,0,0,0,0,0,0,3,2,3,2,0,
    2,0,0,0,0,0,0,0,0,0,0,0,0,0,0,0,0,0,0,0,0,0,0,0,0,0,0,2,2,2,0,2,
    2,2,2,2,2,2,2,2,2,2,2,2,2,2,2,2,2,2,2,2,2,2,2,2,2,2,2,2,2,2,2,2,
    2,2,2,2,2,2,2,2,2,2,2,2,2,2,2,2,2,2,2,2,2,2,2,2,2,2,2,2,2,2,2,2,
    2,2,2,2,2,2,2,2,2,2,2,2,2,2,2,2,2,2,2,2,2,2,2,2,2,2,2,2,2,2,2,2,
    2,2,2,2,2,2,2,2,2,2,2,2,2,2,2,2,2,2,2,2,2,2,2,2,2,2,2,2,2,2,2,2]

def urlchrTest (c : Byte) (mask : Nat) : Bool := urlchrTable.getD c.toNat 0&&&mask≠0

def isUpper (c : Byte) : Bool := 0x41≤c && c≤0x5a

def toLower (c : Byte) : Byte := if isUpper c then c+0x20 else c

def isCntrl (c : Byte) : Bool := c<0x20 || c=0x7f

def isHexDigit (c : Byte) : Bool :=
  (0x30≤c && c≤0x39) || (0x41≤c && c≤0x46) || (0x61≤c && c≤0x66)

/-- XNUM_TO_DIGIT. -/
def numToDigit (n : Nat) : Byte := (letters "0123456789ABCDEF").getD n 0

def escaped (c : Byte) : List Byte := [percent,numToDigit (c.toNat/16),numToDigit (c.toNat%16)]

/-- The body of url_unescape is commented out. -/
def urlUnescape (s : List Byte) : List Byte := s

def urlEscape1 (s : List Byte) (mask : Nat) : List Byte :=
  s.flatMap (fun c => if urlchrTest c mask then escaped c else [c])

def urlEscapeAllowPassthrough (s : List Byte) : List Byte := urlEscape1 s unsafeMask

def charNeedsEscaping (c : Byte) (rest : List Byte) : Bool :=
  if c=percent then !(rest.head?.any isHexDigit && rest.tail.head?.any isHexDigit)
  else urlchrTest c unsafeMask && !urlchrTest c reservedMask

def reencodeEscapes : List Byte → List Byte
  | [] => []
  | c::rest => (if charNeedsEscaping c rest then escaped c else [c])++reencodeEscapes rest

section Parsing

variable (haveSsl : Bool) (disabled : Scheme → Bool)

/-- strncasecmp over the length of the leading string. -/
def startsWith (leading url : List Byte) : Bool :=
  (url.take leading.length).map toLower=leading.map toLower

def urlScheme (url : List Byte) : Option Scheme :=
  match (supportedSchemes haveSsl).find? (fun s => startsWith (schemeData s).leadingString url) with
  | some s => if disabled s then none else some s
  | none => none

/-- The part before an at sign that comes before a terminator, and what follows it; none where
there is no such part. -/
def urlSkipCredentials (url : List Byte) : Option (List Byte) × List Byte :=
  let accept := [atSign,slash,question,hash,semicolon]
  match onward accept url with
  | [] => (none,url)
  | c::rest => if c=atSign then (some (before accept url),rest) else (none,url)

/-- A user name and a password, if there is a colon. -/
def parseCredentials (region : List Byte) : Option (List Byte × Option (List Byte)) :=
  if region=[] then none
  else
    let user := before [colon] region
    if user=[] then none
    else match onward [colon] region with
      | [] => some (urlUnescape user,none)
      | _::passwd => some (urlUnescape user,some (urlUnescape passwd))

def initSeps (scheme : Scheme) : List Byte :=
  [colon,slash]++(if (schemeData scheme).hasParams then [semicolon] else [])++
    (if (schemeData scheme).hasQuery then [question] else [])++
    (if (schemeData scheme).hasFragment then [hash] else [])

/-- The digits of a port; none for another character and for a number over 0xffff. -/
def parsePort (port : Nat) : List Byte → Option Nat
  | [] => some port
  | c::text =>
    if 0x30≤c ∧ c≤0x39 then
      let port := 10*port+(c.toNat-0x30)
      if 0xffff<port then none else parsePort port text
    else none

/-- The macro get_url_part: the part after sepchar, if p is there. -/
def getUrlPart (sepchar : Byte) (seps p : List Byte) : Option (List Byte) × List Byte :=
  match p with
  | [] => (none,[])
  | c::rest => if c=sepchar then (some (before seps rest),onward seps rest) else (none,p)

/-- The places url_parse cuts the text at, before any check. -/
structure Parts where
  credentials : Option (List Byte)
  host : List Byte
  port : Option (List Byte)
  path : Option (List Byte)
  params : Option (List Byte)
  query : Option (List Byte)
  fragment : Option (List Byte)

/-- The cuts of url_parse in the text after the leading string, with the place where p is left;
seps is advanced past each separator looked for. -/
def cutAll (scheme : Scheme) (text : List Byte) : Parts × List Byte :=
  let data := schemeData scheme
  let (credentials,p) := urlSkipCredentials text
  let seps := initSeps scheme
  let host := before seps p
  let p := onward seps p
  let seps := seps.tail
  let (port,p) := getUrlPart colon seps p
  let seps := seps.tail
  let (path,p) := getUrlPart slash seps p
  let seps := seps.tail
  let (params,p,seps) := if data.hasParams then
    let (params,p) := getUrlPart semicolon seps p
    (params,p,seps.tail) else (none,p,seps)
  let (query,p,seps) := if data.hasQuery then
    let (query,p) := getUrlPart question seps p
    (query,p,seps.tail) else (none,p,seps)
  let (fragment,p) := if data.hasFragment then getUrlPart hash seps p else (none,p)
  (⟨credentials,host,port,path,params,query,fragment⟩,p)

def cutUrl (scheme : Scheme) (text : List Byte) : Parts := (cutAll scheme text).1

structure Url where
  url : List Byte
  scheme : Scheme
  host : List Byte
  port : Nat
  path : List Byte
  params : Option (List Byte)
  query : Option (List Byte)
  fragment : Option (List Byte)
  dir : List Byte
  file : List Byte
  user : Option (List Byte)
  passwd : Option (List Byte)
  deriving DecidableEq

/-- The part up to the last slash and the part after it. -/
def splitPath (path : List Byte) : List Byte × List Byte :=
  let file := (before [slash] path.reverse).reverse
  let dir := if slash∈path then (onward [slash] path.reverse).tail.reverse else []
  (urlUnescape dir,urlUnescape file)

/-- Undoes the escaping of one character. -/
def unescapeSingleChar (chr : Byte) : List Byte → List Byte
  | a::b::c::rest =>
    if a=percent ∧ b=numToDigit (chr.toNat/16) ∧ c=numToDigit (chr.toNat%16) then
      chr::unescapeSingleChar chr rest
    else a::unescapeSingleChar chr (b::c::rest)
  | text => text

inductive AuthMode where
  | show
  | hidePasswd
  | hide
  deriving DecidableEq

def hiddenPassword : List Byte := letters "*password*"

/-- number_to_string of a port. -/
def numberToString (n : Nat) : List Byte := Decimal.text n

def fullPath (url : Url) : List Byte :=
  let frob (chr : Byte) (el : Option (List Byte)) := match el with
    | some text => chr::text
    | none => []
  frob slash (some url.path)++frob semicolon url.params++frob question url.query

def urlString (url : Url) (mode : AuthMode) : List Byte :=
  let data := schemeData url.scheme
  let quotedUser := if mode=.hide then none else url.user.map urlEscapeAllowPassthrough
  let quotedPasswd := if mode=.hide ∨ url.user=none then none
    else url.passwd.map (fun passwd =>
      if mode=.hidePasswd then hiddenPassword else urlEscapeAllowPassthrough passwd)
  let quotedHost := urlEscapeAllowPassthrough url.host
  let quotedHost := if url.host.any (urlchrTest · unsafeMask) then
    unescapeSingleChar colon quotedHost else quotedHost
  let bracketsAroundHost := colon∈quotedHost
  data.leadingString++
    (match quotedUser with
      | none => []
      | some user => user++(match quotedPasswd with
        | none => []
        | some passwd => colon::passwd)++[atSign])++
    (if bracketsAroundHost then openBracket::quotedHost++[closeBracket] else quotedHost)++
    (if url.port≠data.defaultPort then colon::numberToString url.port else [])++fullPath url

/-- An empty port and no port are the default port; getUrlPart gives neither a meaning. -/
def portOf (scheme : Scheme) : Option (List Byte) → Option Nat
  | none => some (schemeData scheme).defaultPort
  | some [] => some (schemeData scheme).defaultPort
  | some text => parsePort 0 text

def credentialsOf :
    Option (List Byte) → Option (Option (List Byte) × Option (List Byte))
  | none => some (none,none)
  | some region => (parseCredentials region).map (fun c => (some c.1,c.2))

/-- An address in brackets, which is not supported, and an empty host. -/
def hostInvalid (parts : Parts) : Bool :=
  parts.host.head?=some openBracket || parts.host=[]

/-- The last part of url_parse, after the checks of host, port and credentials: text is the
URL, encoded or not. -/
def finishUrl (scheme : Scheme) (parts : Parts) (port : Nat)
    (credentials : Option (List Byte) × Option (List Byte)) (text : List Byte) : Option Url :=
  let (user,passwd) := credentials
  let path := parts.path.getD []
  let (dir,file) := splitPath path
  let hostModified := parts.host.any isUpper || parts.host.contains percent
  let host := urlUnescape (parts.host.map toLower)
  if host.contains percent && host.any isCntrl then none
  else
    let u : Url := ⟨[],scheme,host,port,path,parts.params,parts.query,parts.fragment,dir,file,
      user,passwd⟩
    if parts.fragment.isSome || hostModified || path=[] then
      some {u with url := urlString u .show}
    else some {u with url := text}

def urlParse (url : List Byte) (percentEncode : Bool) : Option Url := do
  let scheme ← urlScheme haveSsl disabled url
  let urlEncoded := if percentEncode then reencodeEscapes url else url
  let parts := cutUrl scheme (urlEncoded.drop (schemeData scheme).leadingString.length)
  if hostInvalid parts then none
  else
    let port ← portOf scheme parts.port
    let credentials ← credentialsOf parts.credentials
    finishUrl scheme parts port credentials urlEncoded

end Parsing

end IdearNiu.Url
