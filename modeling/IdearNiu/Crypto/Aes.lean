import IdearNiu.Crypto.AesTables
import IdearNiu.Framework.Memory

namespace IdearNiu.Crypto

open Memory

/-- GETBYTE(x, y). -/
def getByte (x : Word) (y : Nat) : Byte := (x>>>(8*y)).setWidth 8

def rotlFixed (x : Word) (y : Nat) : Word := (x<<<y)|||(x>>>(32-y))

def byteReverseWord32 (value : Word) : Word :=
  let value := ((value&&&0xFF00FF00)>>>8)|||((value&&&0x00FF00FF)<<<8)
  rotlFixed value 16

/-- Four bytes of memory as a word of a little-endian host. -/
def loadWord (m : List Byte) (off : Nat) : Word :=
  (m.getD off 0).setWidth 32|||
  (m.getD (off+1) 0).setWidth 32<<<8|||
  (m.getD (off+2) 0).setWidth 32<<<16|||
  (m.getD (off+3) 0).setWidth 32<<<24

def storeWord (w : Word) : List Byte := [getByte w 0,getByte w 1,getByte w 2,getByte w 3]

def byteReverseWords (m : List Byte) (byteCount : Nat) : List Word :=
  (List.range (byteCount/4)).map fun i => byteReverseWord32 (loadWord m (4*i))

def xorWords (r a : List Byte) (n : Nat) : List Byte :=
  (List.range n).flatMap fun i => storeWord (loadWord r (4*i)^^^loadWord a (4*i))

/-- The 16 bytes are xored word by word when both addresses are multiples of four. -/
def xorbuf (aligned : Bool) (buf mask : List Byte) : List Byte :=
  if aligned then xorWords buf mask 4
  else (List.range 16).map fun i => buf.getD i 0^^^mask.getD i 0

structure Aes where
  key : List Word
  rounds : Nat
  reg : List Byte
  tmp : List Byte

inductive Direction where
  | encryption
  | decryption
deriving DecidableEq

def badFuncArg : Int := -173

/-- Te[4] on a rotated word, with the round constant. -/
def rotSubWord (temp rc : Word) : Word :=
  (Te 4 (getByte temp 2)&&&0xff000000)^^^
  (Te 4 (getByte temp 1)&&&0x00ff0000)^^^
  (Te 4 (getByte temp 0)&&&0x0000ff00)^^^
  (Te 4 (getByte temp 3)&&&0x000000ff)^^^rc

def subWord (temp : Word) : Word :=
  (Te 4 (getByte temp 3)&&&0xff000000)^^^
  (Te 4 (getByte temp 2)&&&0x00ff0000)^^^
  (Te 4 (getByte temp 1)&&&0x0000ff00)^^^
  (Te 4 (getByte temp 0)&&&0x000000ff)

def word (rk : List Word) (i : Nat) : Word := rk.getD i 0

/-- Append four words; every key size computes them in the same way. -/
def expandFour (rk : List Word) (b : Nat) (first : Word) : List Word :=
  let w0 := word rk b^^^first
  let w1 := word rk (b+1)^^^w0
  let w2 := word rk (b+2)^^^w1
  let w3 := word rk (b+3)^^^w2
  rk++[w0,w1,w2,w3]

/-- The loop of a 16-byte key, with rk at word b and n iterations left. -/
def expand128 : Nat → Nat → Nat → List Word → List Word
  | 0,_,_,rk => rk
  | n+1,i,b,rk =>
    let rk := expandFour rk b (rotSubWord (word rk (b+3)) (rcon.getD i 0))
    if i+1=10 then rk else expand128 n (i+1) (b+4) rk

/-- The loop of a 24-byte key; its last iteration ends before the last two words. -/
def expand192 : Nat → Nat → Nat → List Word → List Word
  | 0,_,_,rk => rk
  | n+1,i,b,rk =>
    let rk := expandFour rk b (rotSubWord (word rk (b+5)) (rcon.getD i 0))
    if i+1=8 then rk else
      let w10 := word rk (b+4)^^^word rk (b+9)
      let w11 := word rk (b+5)^^^w10
      expand192 n (i+1) (b+6) (rk++[w10,w11])

/-- The loop of a 32-byte key; its last iteration ends after four words. -/
def expand256 : Nat → Nat → Nat → List Word → List Word
  | 0,_,_,rk => rk
  | n+1,i,b,rk =>
    let rk := expandFour rk b (rotSubWord (word rk (b+7)) (rcon.getD i 0))
    if i+1=7 then rk else
      let rk := expandFour rk (b+4) (subWord (word rk (b+11)))
      expand256 n (i+1) (b+8) rk

/-- The switch on the key length; none is its default branch. -/
def expandKey (keylen : Nat) (rk : List Word) : Option (List Word) :=
  if keylen=16 then some (expand128 10 0 0 rk)
  else if keylen=24 then some (expand192 8 0 0 rk)
  else if keylen=32 then some (expand256 7 0 0 rk)
  else none

def swapWords (rk : List Word) (i j : Nat) : List Word :=
  (rk.set i (word rk j)).set j (word rk i)

/-- Invert the order of the round keys. -/
def invertKeys : Nat → Nat → Nat → List Word → List Word
  | 0,_,_,rk => rk
  | n+1,i,j,rk =>
    if i<j then
      let rk := swapWords rk i j
      let rk := swapWords rk (i+1) (j+1)
      let rk := swapWords rk (i+2) (j+2)
      let rk := swapWords rk (i+3) (j+3)
      invertKeys n (i+4) (j-4) rk
    else rk

/-- The inverse MixColumn transform of one word of a round key. -/
def inverseMixColumn (w : Word) : Word :=
  Td 0 ((Te 4 (getByte w 3)&&&0xff).setWidth 8)^^^
  Td 1 ((Te 4 (getByte w 2)&&&0xff).setWidth 8)^^^
  Td 2 ((Te 4 (getByte w 1)&&&0xff).setWidth 8)^^^
  Td 3 ((Te 4 (getByte w 0)&&&0xff).setWidth 8)

def mixWord (rk : List Word) (i : Nat) : List Word := rk.set i (inverseMixColumn (word rk i))

/-- The loop over the n round keys from word b on. -/
def mixKeys : Nat → Nat → List Word → List Word
  | 0,_,rk => rk
  | n+1,b,rk => mixKeys n (b+4) (mixWord (mixWord (mixWord (mixWord rk b) (b+1)) (b+2)) (b+3))

def Aes.setIV (aes : Aes) (iv : Option (List Byte)) : Int × Aes :=
  match iv with
  | some bytes => (0,{ aes with reg := bytes.take 16 })
  | none => (0,aes)

/-- Words that the schedule does not write keep what the memory held. -/
def Aes.setKeyLocal (aes : Aes) (userKey : List Byte) (keylen : Nat)
    (iv : Option (List Byte)) (dir : Direction) : Int × Aes :=
  let rounds := keylen/4+6
  let rk := byteReverseWords userKey keylen
  match expandKey keylen rk with
  | none => (badFuncArg,{ aes with rounds := rounds, key := rk++aes.key.drop rk.length })
  | some rk =>
    let key := rk++aes.key.drop rk.length
    let key := match dir with
      | .encryption => key
      | .decryption => mixKeys (rounds-1) 4 (invertKeys rounds 0 (4*rounds) key)
    Aes.setIV { aes with rounds := rounds, key := key } iv

def Aes.setKey (aes : Aes) (userKey : List Byte) (keylen : Nat)
    (iv : Option (List Byte)) (dir : Direction) : Int × Aes :=
  if ¬(keylen=16 ∨ keylen=24 ∨ keylen=32) then (badFuncArg,aes)
  else aes.setKeyLocal userKey keylen iv dir

/-- The cipher state, one word for each column. -/
structure State where
  s0 : Word
  s1 : Word
  s2 : Word
  s3 : Word
deriving DecidableEq

def State.xor (s k : State) : State := ⟨s.s0^^^k.s0,s.s1^^^k.s1,s.s2^^^k.s2,s.s3^^^k.s3⟩

/-- The round key that starts at a word of the key schedule. -/
def roundKey (rk : List Word) (b : Nat) : State :=
  ⟨word rk b,word rk (b+1),word rk (b+2),word rk (b+3)⟩

/-- Map a byte array block to the cipher state. -/
def loadState (m : List Byte) : State :=
  ⟨byteReverseWord32 (loadWord m 0),byteReverseWord32 (loadWord m 4),
   byteReverseWord32 (loadWord m 8),byteReverseWord32 (loadWord m 12)⟩

/-- Map the cipher state to a byte array block. -/
def storeState (s : State) : List Byte :=
  storeWord (byteReverseWord32 s.s0)++storeWord (byteReverseWord32 s.s1)++
  storeWord (byteReverseWord32 s.s2)++storeWord (byteReverseWord32 s.s3)

def encryptColumn (a b c d : Word) : Word :=
  Te 0 (getByte a 3)^^^Te 1 (getByte b 2)^^^Te 2 (getByte c 1)^^^Te 3 (getByte d 0)

def encryptRound (s k : State) : State :=
  ⟨encryptColumn s.s0 s.s1 s.s2 s.s3^^^k.s0,
   encryptColumn s.s1 s.s2 s.s3 s.s0^^^k.s1,
   encryptColumn s.s2 s.s3 s.s0 s.s1^^^k.s2,
   encryptColumn s.s3 s.s0 s.s1 s.s2^^^k.s3⟩

def lastEncryptColumn (a b c d : Word) : Word :=
  (Te 4 (getByte a 3)&&&0xff000000)^^^(Te 4 (getByte b 2)&&&0x00ff0000)^^^
  (Te 4 (getByte c 1)&&&0x0000ff00)^^^(Te 4 (getByte d 0)&&&0x000000ff)

def lastEncryptRound (t k : State) : State :=
  ⟨lastEncryptColumn t.s0 t.s1 t.s2 t.s3^^^k.s0,
   lastEncryptColumn t.s1 t.s2 t.s3 t.s0^^^k.s1,
   lastEncryptColumn t.s2 t.s3 t.s0 t.s1^^^k.s2,
   lastEncryptColumn t.s3 t.s0 t.s1 t.s2^^^k.s3⟩

/-- Two rounds an iteration, with rk at word b and r iterations left. -/
def encryptLoop (rk : List Word) : Nat → Nat → State → State
  | 0,_,s => s
  | r+1,b,s =>
    let t := encryptRound s (roundKey rk (b+4))
    if r=0 then lastEncryptRound t (roundKey rk (b+8))
    else encryptLoop rk r (b+8) (encryptRound t (roundKey rk (b+8)))

/-- The new content of outBlock. -/
def Aes.encrypt (aes : Aes) (inBlock outBlock : List Byte) : List Byte :=
  let r := aes.rounds>>>1
  if r>7 ∨ r=0 then outBlock
  else storeState (encryptLoop aes.key r 0 ((loadState inBlock).xor (roundKey aes.key 0)))

def decryptColumn (a b c d : Word) : Word :=
  Td 0 (getByte a 3)^^^Td 1 (getByte b 2)^^^Td 2 (getByte c 1)^^^Td 3 (getByte d 0)

def decryptRound (s k : State) : State :=
  ⟨decryptColumn s.s0 s.s3 s.s2 s.s1^^^k.s0,
   decryptColumn s.s1 s.s0 s.s3 s.s2^^^k.s1,
   decryptColumn s.s2 s.s1 s.s0 s.s3^^^k.s2,
   decryptColumn s.s3 s.s2 s.s1 s.s0^^^k.s3⟩

def lastDecryptColumn (a b c d : Word) : Word :=
  (Td 4 (getByte a 3)&&&0xff000000)^^^(Td 4 (getByte b 2)&&&0x00ff0000)^^^
  (Td 4 (getByte c 1)&&&0x0000ff00)^^^(Td 4 (getByte d 0)&&&0x000000ff)

def lastDecryptRound (t k : State) : State :=
  ⟨lastDecryptColumn t.s0 t.s3 t.s2 t.s1^^^k.s0,
   lastDecryptColumn t.s1 t.s0 t.s3 t.s2^^^k.s1,
   lastDecryptColumn t.s2 t.s1 t.s0 t.s3^^^k.s2,
   lastDecryptColumn t.s3 t.s2 t.s1 t.s0^^^k.s3⟩

def decryptLoop (rk : List Word) : Nat → Nat → State → State
  | 0,_,s => s
  | r+1,b,s =>
    let t := decryptRound s (roundKey rk (b+4))
    if r=0 then lastDecryptRound t (roundKey rk (b+8))
    else decryptLoop rk r (b+8) (decryptRound t (roundKey rk (b+8)))

def Aes.decrypt (aes : Aes) (inBlock outBlock : List Byte) : List Byte :=
  let r := aes.rounds>>>1
  if r>7 ∨ r=0 then outBlock
  else storeState (decryptLoop aes.key r 0 ((loadState inBlock).xor (roundKey aes.key 0)))

/-- The loop over the blocks of a buffer that is encrypted in place. -/
def cbcEncryptLoop (aligned : Bool) : Nat → Nat → Aes → List Byte → Option (Aes × List Byte)
  | 0,_,aes,buf => some (aes,buf)
  | n+1,off,aes,buf => do
    let block ← copyFrom buf off 16
    let reg := xorbuf aligned aes.reg block
    let aes := { aes with reg := aes.encrypt reg reg }
    let buf ← copyTo buf off aes.reg 16
    cbcEncryptLoop aligned n (off+16) aes buf

def Aes.cbcEncrypt (aes : Aes) (aligned : Bool) (buf : List Byte) (sz : Nat) :
    Option (Aes × List Byte) :=
  cbcEncryptLoop aligned (sz/16) 0 aes buf

def cbcDecryptLoop (aligned : Bool) (input : List Byte) :
    Nat → Nat → Aes → List Byte → Option (Aes × List Byte)
  | 0,_,aes,out => some (aes,out)
  | n+1,off,aes,out => do
    let tmp ← copyFrom input off 16
    let old ← copyFrom out off 16
    let plain := xorbuf aligned (aes.decrypt tmp old) aes.reg
    let out ← copyTo out off plain 16
    cbcDecryptLoop aligned input n (off+16) { aes with tmp := tmp, reg := tmp } out

def Aes.cbcDecrypt (aes : Aes) (aligned : Bool) (out input : List Byte) (sz : Nat) :
    Option (Aes × List Byte) :=
  cbcDecryptLoop aligned input (sz/16) 0 aes out

/-- The result of an int computation; none when it overflows. -/
def int (x : Int) : Option Int := if -2147483648≤x ∧ x≤2147483647 then some x else none

/-- The loop that stores one byte at every index from start up to stop. -/
def storePadding (out : List Byte) (start stop : Int) (value : Int) : Option (List Byte) :=
  let n := (stop-start).toNat
  copyTo out start.toNat (List.replicate n (BitVec.ofInt 8 value)) n

/-- The padding and the padded length; a full block is padded by a further one, and the
bytes of one block more are stored. -/
def pad (out : List Byte) (plainLength datLen : Int) : Option (Int × List Byte) :=
  if datLen-plainLength>0 then do
    let out ← storePadding out plainLength datLen (datLen-plainLength)
    return (datLen,out)
  else do
    let datLen ← int (datLen+0x10)
    let stop ← int (datLen+16)
    let out ← storePadding out plainLength stop 0x10
    return (datLen,out)

/-- The plain length rounded up to a multiple of the block size. -/
def roundedLength (plainLength : Int) : Option Int :=
  if plainLength≠plainLength.tdiv 16*16 then int ((plainLength.tdiv 16+1)*16)
  else some plainLength

/-- The plain text is padded in encOut and encrypted there; stack is what the
uninitialised Aes holds. The result is none when a copy leaves its buffer. -/
def aesEncrypt (stack : Aes) (aligned : Bool) (key : List Byte) (keyLength : Int)
    (iv : Option (List Byte)) (plainIn : List Byte) (plainLength : Int) (encOut : List Byte)
    (maxOutLen : Int) : Option (Int × List Byte) := do
  let enc := (stack.setKey key (keyLength%2^32).toNat iv .encryption).2
  let datLen ← roundedLength plainLength
  if maxOutLen<datLen then some (-1,encOut)
  else if plainLength<0 then none
  else do
    let out ← copyTo encOut 0 plainIn plainLength.toNat
    let (datLen,out) ← pad out plainLength datLen
    let (_,out) ← enc.cbcEncrypt aligned out datLen.toNat
    return (datLen,out)

def aesDecrypt (stack : Aes) (aligned : Bool) (key : List Byte) (keyLength : Int)
    (iv : Option (List Byte)) (encIn : List Byte) (encLength : Int) (plainOut : List Byte)
    (maxOutLen : Int) : Option (Int × List Byte) :=
  if maxOutLen<encLength then some (-1,plainOut)
  else do
    let dec := (stack.setKey key (keyLength%2^32).toNat iv .decryption).2
    let (_,out) ← dec.cbcDecrypt aligned plainOut encIn (encLength%2^32).toNat
    let last ← if encLength<1 then none else out[(encLength-1).toNat]?
    return (encLength-last.toNat,out)

end IdearNiu.Crypto
