import IdearNiu.Math.Cyclic
import IdearNiu.Util.Allocation

namespace IdearNiu.Hash

open Allocation

/-- A `void *` on LP64. -/
abbrev Ptr := BitVec 64

/-- The all-bits-set marker of an empty cell. -/
def invalidPtr : Ptr := BitVec.allOnes 64

structure Cell where
  key : Ptr
  value : Ptr
  deriving DecidableEq, Repr

/-- A cell as memset with 0xff leaves it. -/
def emptyCell : Cell := ⟨invalidPtr,invalidPtr⟩

def occupied (c : Cell) : Bool := c.key != invalidPtr

/-- Ways in which a call does not return, or not in order: a probe loop that never meets an
empty cell, the abort of prime_size or of xmalloc, an int that overflows, a block that is too
short for the cells. -/
inductive Fault where
  | diverges
  | aborted
  | overflow
  | overrun
  deriving DecidableEq, Repr

structure HashTable where
  hashFunction : Ptr → BitVec 64
  testFunction : Ptr → Ptr → Bool
  cells : List Cell
  size : Nat
  count : Nat
  resizeThreshold : Nat
  primeOffset : Nat

def intMax : Nat := 2147483647

def intMin : Int := -2147483648

def primes : List Nat := [
  13,19,29,41,59,79,107,149,197,263,347,457,599,787,1031,
  1361,1777,2333,3037,3967,5167,6719,8737,11369,14783,
  19219,24989,32491,42257,54941,71429,92861,120721,156941,
  204047,265271,344857,448321,582821,757693,985003,1280519,
  1664681,2164111,2813353,3657361,4754591,6180989,8035301,
  10445899,13579681,17653589,22949669,29834603,38784989,
  50420551,65546729,85210757,110774011,144006217,187208107,
  243370577,316381771,411296309,534685237,695090819,903618083,
  1174703521,1527114613,1837299131,2147483647]

/-- The scan of the prime table from an offset: the prime and the next offset. -/
def primeScan (size : Int) : List Nat → Nat → Except Fault (Nat × Nat)
  | [],_ => .error .aborted
  | p::ps,i => if (p : Int)≥size then .ok (p,i+1) else primeScan size ps (i+1)

def primeSize (size : Int) (primeOffset : Nat) : Except Fault (Nat × Nat) :=
  primeScan size (primes.drop primeOffset) primeOffset

/-- `(int) (1 + items / 0.75)`: the quotient is exact or ends in a third, so the
double is truncated to the same integer as the rational. -/
def initialSize (items : Int) : Int := Int.tdiv (3+4*items) 3

/-- `(int) (size * 0.75)`. -/
def threshold (size : Nat) : Nat := 3*size/4

/-- xnew_array of the cells, 16 bytes each, and the memset that marks them as empty. -/
def newCells (len : Nat) : Except Fault (List Cell) :=
  match block (BitVec.ofNat 64 (len*16)) (len*16) with
  | .full => .ok (List.replicate len emptyCell)
  | .aborted => .error .aborted
  | .overrun => .error .overrun

def hashTableNew (items : Int) (hash : Ptr → BitVec 64) (test : Ptr → Ptr → Bool) :
    Except Fault HashTable :=
  if initialSize items>intMax ∨ initialSize items < intMin then .error .overflow
  else do
    let (size,offset) ← primeSize (initialSize items) 0
    let cells ← newCells size
    return {
      hashFunction := hash
      testFunction := test
      cells := cells
      size := size
      count := 0
      resizeThreshold := threshold size
      primeOffset := offset }

def cellAt (cells : List Cell) (c : Nat) : Cell := cells.getD c emptyCell

def hashPosition (hash : Ptr → BitVec 64) (size : Nat) (key : Ptr) : Nat :=
  (hash key).toNat%size

/-- FOREACH_OCCUPIED_ADJACENT from cell c, left early where the body breaks or jumps out.
The loop changes nothing but c, so once it has seen every cell it runs forever. -/
def foreachOccupiedAdjacent (cells : List Cell) (size : Nat) (leave : Cell → Bool) :
    Nat → Nat → Except Fault Nat
  | 0,_ => .error .diverges
  | fuel+1,c =>
      if occupied (cellAt cells c) then
        if leave (cellAt cells c) then .ok c
        else foreachOccupiedAdjacent cells size leave fuel (Cyclic.next size c)
      else .ok c

def findCell (ht : HashTable) (key : Ptr) : Except Fault Nat :=
  foreachOccupiedAdjacent ht.cells ht.size (fun c => ht.testFunction key c.key) ht.size
    (hashPosition ht.hashFunction ht.size key)

/-- NULL when there is no such key. -/
def hashTableGet (ht : HashTable) (key : Ptr) : Except Fault Ptr := do
  let c ← findCell ht key
  if occupied (cellAt ht.cells c) then return (cellAt ht.cells c).value else return 0

def hashTableGetPair (ht : HashTable) (key : Ptr) : Except Fault (Option Cell) := do
  let c ← findCell ht key
  if occupied (cellAt ht.cells c) then return some (cellAt ht.cells c) else return none

def hashTableContains (ht : HashTable) (key : Ptr) : Except Fault Bool := do
  let c ← findCell ht key
  return occupied (cellAt ht.cells c)

/-- The rehashing loop of grow_hash_table over the old cells. -/
def rehashInto (hash : Ptr → BitVec 64) (newsize : Nat) :
    List Cell → List Cell → Except Fault (List Cell)
  | [],cells => .ok cells
  | c::old,cells =>
      if occupied c then do
        let newC ← foreachOccupiedAdjacent cells newsize (fun _ => false) newsize
          (hashPosition hash newsize c.key)
        rehashInto hash newsize old (cells.set newC c)
      else rehashInto hash newsize old cells

def growHashTable (ht : HashTable) : Except Fault HashTable :=
  if ht.size*2>intMax then .error .overflow
  else do
    let (newsize,offset) ← primeSize (ht.size*2 : Nat) ht.primeOffset
    let cells ← newCells newsize
    let cells ← rehashInto ht.hashFunction newsize ht.cells cells
    return { ht with
      cells := cells
      size := newsize
      resizeThreshold := threshold newsize
      primeOffset := offset }

/-- hash_table_put; grow is what its call to grow_hash_table does. -/
def putGrowing (grow : HashTable → Except Fault HashTable) (ht : HashTable)
    (key value : Ptr) : Except Fault HashTable := do
  let c ← findCell ht key
  if occupied (cellAt ht.cells c) then
    return { ht with cells := ht.cells.set c ⟨key,value⟩ }
  else if ht.count≥ht.resizeThreshold then
    let big ← grow ht
    let c ← findCell big key
    return { big with count := big.count+1, cells := big.cells.set c ⟨key,value⟩ }
  else
    return { ht with count := ht.count+1, cells := ht.cells.set c ⟨key,value⟩ }

def hashTablePut (ht : HashTable) (key value : Ptr) : Except Fault HashTable :=
  putGrowing growHashTable ht key value

/-- CLEAR_CELL overwrites the key and leaves the value behind. -/
def clearCell (cells : List Cell) (c : Nat) : List Cell :=
  cells.set c { cellAt cells c with key := invalidPtr }

/-- The walk over the cluster behind a removed cell: each key is probed for again and
moved when its probe meets an empty cell before the key itself. -/
def rehashFollowing (hash : Ptr → BitVec 64) (size : Nat) :
    Nat → List Cell → Nat → Except Fault (List Cell)
  | 0,_,_ => .error .diverges
  | fuel+1,cells,c =>
      if occupied (cellAt cells c) then do
        let key2 := (cellAt cells c).key
        let cNew ← foreachOccupiedAdjacent cells size (fun d => d.key==key2) size
          (hashPosition hash size key2)
        if occupied (cellAt cells cNew) then
          rehashFollowing hash size fuel cells (Cyclic.next size c)
        else
          rehashFollowing hash size fuel (clearCell (cells.set cNew (cellAt cells c)) c)
            (Cyclic.next size c)
      else .ok cells

def hashTableRemove (ht : HashTable) (key : Ptr) : Except Fault (Bool × HashTable) := do
  let c ← findCell ht key
  if occupied (cellAt ht.cells c) then
    let cells ← rehashFollowing ht.hashFunction ht.size ht.size (clearCell ht.cells c)
      (Cyclic.next ht.size c)
    return (true,{ ht with cells := cells, count := ht.count-1 })
  else return (false,ht)

def hashTableClear (ht : HashTable) : HashTable :=
  { ht with cells := List.replicate ht.size emptyCell, count := 0 }

def hashTableCount (ht : HashTable) : Nat := ht.count

/-- The position of an iterator; its end is the end of the cells. -/
structure HashTableIterator where
  pos : Nat
  stop : Nat

def hashTableIterate (ht : HashTable) : HashTableIterator := ⟨0,ht.size⟩

/-- The scan of hash_table_iter_next over the cells from its position. -/
def iterScan : List Cell → Nat → Option (Cell × Nat)
  | [],_ => none
  | c::cs,pos => if occupied c then some (c,pos+1) else iterScan cs (pos+1)

def hashTableIterNext (ht : HashTable) (iter : HashTableIterator) :
    Option (Cell × HashTableIterator) :=
  (iterScan ((ht.cells.take iter.stop).drop iter.pos) iter.pos).map
    (fun r => (r.1,{ iter with pos := r.2 }))

/-- The iteration loop of a caller, at most fuel calls of hash_table_iter_next;
none when there are more entries than that. -/
def iterateAll (ht : HashTable) : Nat → HashTableIterator → Option (List Cell)
  | 0,_ => none
  | fuel+1,iter =>
      match hashTableIterNext ht iter with
      | none => some []
      | some (c,iter') => (iterateAll ht fuel iter').map (c::·)

end IdearNiu.Hash
