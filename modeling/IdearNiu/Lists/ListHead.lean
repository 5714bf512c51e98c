import IdearNiu.Framework.Rings

set_option linter.style.nameCheck false

namespace IdearNiu.ListHead

open Rings

/-- The next and prev fields of every struct list_head. -/
abbrev Heap (Node : Type) := Links Node

variable {Node : Type} [DecidableEq Node]

def initListHead (k : Heap Node) (list : Node) : Heap Node :=
  setPrev (setNext k list list) list list

def __listAdd (k : Heap Node) (new prev next : Node) : Heap Node :=
  let k := setPrev k next new
  let k := setNext k new next
  let k := setPrev k new prev
  setNext k prev new

def listAdd (k : Heap Node) (new head : Node) : Heap Node := __listAdd k new head (k.next head)

def listAddTail (k : Heap Node) (new head : Node) : Heap Node :=
  __listAdd k new (k.prev head) head

def __listDel (k : Heap Node) (prev next : Node) : Heap Node :=
  setNext (setPrev k next prev) prev next

def __listDelEntry (k : Heap Node) (entry : Node) : Heap Node :=
  __listDel k (k.prev entry) (k.next entry)

def listDel (k : Heap Node) (entry : Node) : Heap Node :=
  let k := __listDel k (k.prev entry) (k.next entry)
  setPrev (setNext k entry entry) entry entry

/-- Every read is made after the writes before it: of an empty list the third statement reads
the prev pointer that the second has just written. -/
def listReplace (k : Heap Node) (old new : Node) : Heap Node :=
  let k := setNext k new (k.next old)
  let k := setPrev k (k.next new) new
  let k := setPrev k new (k.prev old)
  setNext k (k.prev new) new

def listReplaceInit (k : Heap Node) (old new : Node) : Heap Node :=
  initListHead (listReplace k old new) old

def listDelInit (k : Heap Node) (entry : Node) : Heap Node :=
  initListHead (listDel k entry) entry

def listMove (k : Heap Node) (list head : Node) : Heap Node :=
  listAdd (__listDelEntry k list) list head

def listMoveTail (k : Heap Node) (list head : Node) : Heap Node :=
  listAddTail (__listDelEntry k list) list head

def listIsLast (k : Heap Node) (list head : Node) : Bool := k.next list=head

def listEmpty (k : Heap Node) (head : Node) : Bool := k.next head=head

def listEmptyCareful (k : Heap Node) (head : Node) : Bool :=
  let next := k.next head
  next=head ∧ next=k.prev head

def listRotateLeft (k : Heap Node) (head : Node) : Heap Node :=
  if !listEmpty k head then
    let first := k.next head
    listMoveTail k first head
  else k

def listIsSingular (k : Heap Node) (head : Node) : Bool :=
  !listEmpty k head ∧ k.next head=k.prev head

def __listCutPosition (k : Heap Node) (list head entry : Node) : Heap Node :=
  let newFirst := k.next entry
  let k := setNext k list (k.next head)
  let k := setPrev k (k.next list) list
  let k := setPrev k list entry
  let k := setNext k entry list
  let k := setNext k head newFirst
  setPrev k newFirst head

/-- The nodes the loop visits; none when the fuel does not last to its end. -/
def listForEach (k : Heap Node) (head : Node) (fuel : Nat) : Option (List Node) :=
  walk k.next head fuel (k.next head)

def listForEachPrev (k : Heap Node) (head : Node) (fuel : Nat) : Option (List Node) :=
  walk k.prev head fuel (k.prev head)

/-- One call. -/
inductive Op (Node : Type) where
  | initListHead (list : Node)
  | listAdd (new head : Node)
  | listAddTail (new head : Node)
  | listDel (entry : Node)
  | listDelInit (entry : Node)
  | listReplaceInit (old new : Node)
  | listMove (list head : Node)
  | listMoveTail (list head : Node)
  | listRotateLeft (head : Node)
  | listCutPosition (list head entry : Node)

def exec (k : Heap Node) : Op Node → Heap Node
  | .initListHead list => initListHead k list
  | .listAdd new head => listAdd k new head
  | .listAddTail new head => listAddTail k new head
  | .listDel entry => listDel k entry
  | .listDelInit entry => listDelInit k entry
  | .listReplaceInit old new => listReplaceInit k old new
  | .listMove list head => listMove k list head
  | .listMoveTail list head => listMoveTail k list head
  | .listRotateLeft head => listRotateLeft k head
  | .listCutPosition list head entry => __listCutPosition k list head entry

def run (k : Heap Node) (ops : List (Op Node)) : Heap Node := ops.foldl exec k

def Op.args : Op Node → List Node
  | .initListHead list => [list]
  | .listAdd new head => [new,head]
  | .listAddTail new head => [new,head]
  | .listDel entry => [entry]
  | .listDelInit entry => [entry]
  | .listReplaceInit old new => [old,new]
  | .listMove list head => [list,head]
  | .listMoveTail list head => [list,head]
  | .listRotateLeft head => [head]
  | .listCutPosition list head entry => [list,head,entry]

end IdearNiu.ListHead
