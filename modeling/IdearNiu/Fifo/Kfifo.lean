import IdearNiu.Framework.Memory

set_option linter.style.nameCheck false

namespace IdearNiu.Fifo

open Memory

abbrev Byte := BitVec 8

/-- An unsigned int, wrapping modulo 2^32. -/
abbrev Uint := BitVec 32

/-- struct kfifo; the lock is never looked at. -/
structure Kfifo where
  buffer : List Byte
  size : Uint
  inIdx : Uint
  outIdx : Uint

def uintMin (x y : Uint) : Uint := if x<y then x else y

def isPowerOf2 (n : Uint) : Bool := n≠0 ∧ n&&&(n-1)=0

/-- BUG_ON ends the program when the size is not a power of two. -/
def kfifoInit (buffer : List Byte) (size : Uint) : Option Kfifo :=
  if isPowerOf2 size then some ⟨buffer,size,0,0⟩ else none

/-- The number of bytes put and the new fifo; none when a copy leaves its block. -/
def __kfifoPut (fifo : Kfifo) (data : List Byte) (len : Uint) : Option (Uint × Kfifo) := do
  let len := uintMin len (fifo.size-fifo.inIdx+fifo.outIdx)
  let l := uintMin len (fifo.size-(fifo.inIdx&&&(fifo.size-1)))
  let buffer ← copyTo fifo.buffer (fifo.inIdx&&&(fifo.size-1)).toNat data l.toNat
  let buffer ← copyTo buffer 0 (data.drop l.toNat) (len-l).toNat
  return (len,{ fifo with buffer := buffer, inIdx := fifo.inIdx+len })

/-- The number of bytes got, the bytes, and the new fifo. -/
def __kfifoGet (fifo : Kfifo) (len : Uint) : Option (Uint × List Byte × Kfifo) := do
  let len := uintMin len (fifo.inIdx-fifo.outIdx)
  let l := uintMin len (fifo.size-(fifo.outIdx&&&(fifo.size-1)))
  let first ← copyFrom fifo.buffer (fifo.outIdx&&&(fifo.size-1)).toNat l.toNat
  let rest ← copyFrom fifo.buffer 0 (len-l).toNat
  return (len,first++rest,{ fifo with outIdx := fifo.outIdx+len })

def __kfifoReset (fifo : Kfifo) : Kfifo := { fifo with inIdx := 0, outIdx := 0 }

def __kfifoLen (fifo : Kfifo) : Uint := fifo.inIdx-fifo.outIdx

def kfifoReset (fifo : Kfifo) : Kfifo := __kfifoReset fifo

def kfifoPut (fifo : Kfifo) (data : List Byte) (len : Uint) : Option (Uint × Kfifo) :=
  __kfifoPut fifo data len

/-- An emptied fifo has both indices set back to zero. -/
def kfifoGet (fifo : Kfifo) (len : Uint) : Option (Uint × List Byte × Kfifo) := do
  let r ← __kfifoGet fifo len
  if r.2.2.inIdx=r.2.2.outIdx then
    return (r.1,r.2.1,{ r.2.2 with inIdx := 0, outIdx := 0 })
  else return r

def kfifoLen (fifo : Kfifo) : Uint := __kfifoLen fifo

end IdearNiu.Fifo
