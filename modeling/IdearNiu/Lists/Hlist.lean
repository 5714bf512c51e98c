import IdearNiu.Framework.CellChains

set_option linter.style.nameCheck false

namespace IdearNiu.Hlist

open CellChains

/-- The first field of every hlist_head, the next and pprev fields of every hlist_node. -/
abbrev Heap (Head Node : Type) := Cells Head Node

variable {Head Node : Type} [DecidableEq Head] [DecidableEq Node]

def initHlistNode (k : Heap Head Node) (h : Node) : Heap Head Node :=
  setPprev (setCell k (.next h) none) h none

def hlistUnhashed (k : Heap Head Node) (h : Node) : Bool := k.pprev h=none

/-- A write through pprev; none when it is null. -/
def store (k : Heap Head Node) (pprev : Option (Cell Head Node)) (v : Option Node) :
    Option (Heap Head Node) :=
  pprev.map (fun c => setCell k c v)

def __hlistDel (k : Heap Head Node) (n : Node) : Option (Heap Head Node) := do
  let next := k.cell (.next n)
  let pprev := k.pprev n
  let k ← store k pprev next
  return setPprevOf k next pprev

def hlistDel (k : Heap Head Node) (n : Node) : Option (Heap Head Node) := do
  let k ← __hlistDel k n
  let k := setCell k (.next n) none
  return setPprev k n none

def hlistDelInit (k : Heap Head Node) (n : Node) : Option (Heap Head Node) :=
  if !hlistUnhashed k n then do
    let k ← __hlistDel k n
    return initHlistNode k n
  else some k

def hlistAddHead (k : Heap Head Node) (n : Node) (h : Head) : Option (Heap Head Node) :=
  let first := k.cell (.first h)
  let k := setCell k (.next n) first
  let k := setPprevOf k first (some (.next n))
  let k := setCell k (.first h) (some n)
  some (setPprev k n (some (.first h)))

def hlistAddHeadRcu (k : Heap Head Node) (n : Node) (h : Head) : Option (Heap Head Node) :=
  let first := k.cell (.first h)
  let k := setCell k (.next n) first
  let k := setPprev k n (some (.first h))
  let k := setPprevOf k first (some (.next n))
  some (setCell k (.first h) (some n))

def hlistAddBefore (k : Heap Head Node) (n next : Node) : Option (Heap Head Node) :=
  let k := setPprev k n (k.pprev next)
  let k := setCell k (.next n) (some next)
  let k := setPprev k next (some (.next n))
  store k (k.pprev n) (some n)

/-- The statements are those of hlist_add_before. -/
def hlistAddBeforeRcu (k : Heap Head Node) (n next : Node) : Option (Heap Head Node) :=
  let k := setPprev k n (k.pprev next)
  let k := setCell k (.next n) (some next)
  let k := setPprev k next (some (.next n))
  store k (k.pprev n) (some n)

/-- The new node is next. -/
def hlistAddAfter (k : Heap Head Node) (n next : Node) : Option (Heap Head Node) :=
  let k := setCell k (.next next) (k.cell (.next n))
  let k := setCell k (.next n) (some next)
  let k := setPprev k next (some (.next n))
  some (setPprevOf k (k.cell (.next next)) (some (.next next)))

def hlistAddAfterRcu (k : Heap Head Node) (prev n : Node) : Option (Heap Head Node) :=
  let k := setCell k (.next n) (k.cell (.next prev))
  let k := setPprev k n (some (.next prev))
  let k := setCell k (.next prev) (some n)
  some (setPprevOf k (k.cell (.next n)) (some (.next n)))

/-- The loop from pos on, deleting the current node where del says so: the nodes visited and
the heap left; none on a null write or when the fuel does not last to its end. -/
def hlistForEachSafe (del : Node → Bool) :
    Nat → Heap Head Node → Option Node → Option (List Node × Heap Head Node)
  | 0,_,_ => none
  | _+1,k,none => some ([],k)
  | fuel+1,k,some pos => do
    let n := k.cell (.next pos)
    let k ← if del pos then hlistDel k pos else some k
    let (visited,k) ← hlistForEachSafe del fuel k n
    return (pos::visited,k)

/-- One call. -/
inductive Op (Head Node : Type) where
  | initHlistNode (h : Node)
  | hlistAddHead (n : Node) (h : Head)
  | hlistAddHeadRcu (n : Node) (h : Head)
  | hlistAddBefore (n next : Node)
  | hlistAddBeforeRcu (n next : Node)
  | hlistAddAfter (n next : Node)
  | hlistAddAfterRcu (prev n : Node)
  | hlistDel (n : Node)
  | hlistDelInit (n : Node)

def exec (k : Heap Head Node) : Op Head Node → Option (Heap Head Node)
  | .initHlistNode h => some (initHlistNode k h)
  | .hlistAddHead n h => hlistAddHead k n h
  | .hlistAddHeadRcu n h => hlistAddHeadRcu k n h
  | .hlistAddBefore n next => hlistAddBefore k n next
  | .hlistAddBeforeRcu n next => hlistAddBeforeRcu k n next
  | .hlistAddAfter n next => hlistAddAfter k n next
  | .hlistAddAfterRcu prev n => hlistAddAfterRcu k prev n
  | .hlistDel n => hlistDel k n
  | .hlistDelInit n => hlistDelInit k n

/-- A sequence of calls; none when one of them writes through a null pointer. -/
def run (k : Heap Head Node) : List (Op Head Node) → Option (Heap Head Node)
  | [] => some k
  | op::ops => (exec k op).bind (fun k => run k ops)

end IdearNiu.Hlist
