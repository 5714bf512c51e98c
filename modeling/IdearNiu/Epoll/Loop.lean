import Mathlib.Tactic

namespace IdearNiu.Epoll

abbrev Events := BitVec 32

def maxMainloopEntries : Nat := 128

def maxEpollEvents : Nat := 10

/-- struct mainloop_data, with its address; a timer is destroyed with its descriptor. -/
structure MainloopData where
  ptr : Nat
  fd : Nat
  events : Events
deriving DecidableEq

/-- mainloop_list, and the pointer the kernel holds for every descriptor of interest. -/
structure State where
  mainloopList : Nat → Option MainloopData
  interest : Nat → Option Nat

def epollInit : State := ⟨fun _ => none,fun _ => none⟩

def einval : Int := -22

def enxio : Int := -6

def enomem : Int := -12

def eio : Int := -5

/-- The address is that of an object in the list. -/
def registered (s : State) (ptr : Nat) : Bool :=
  (List.range maxMainloopEntries).any fun fd =>
    match s.mainloopList fd with
    | some d => d.ptr=ptr
    | none => false

/-- The index of the list that a descriptor stands for. -/
def slot (fd : Int) : Option Nat :=
  if fd<0 ∨ fd>maxMainloopEntries-1 then none else some fd.toNat

/-- malloc gives an address that is not in use, or none; epoll_ctl refuses a descriptor
of interest, and may refuse any other one. -/
def epollAddFd (s : State) (fd : Int) (events : Events) (malloc : Option Nat) (ctl : Bool) :
    Int × State :=
  match slot fd,malloc with
  | none,_ => (einval,s)
  | some _,none => (enomem,s)
  | some i,some ptr =>
    if ctl=false ∨ (s.interest i).isSome then (-1,s)
    else (0,{
      mainloopList := Function.update s.mainloopList i (some ⟨ptr,i,events⟩)
      interest := Function.update s.interest i (some ptr) })

def epollModifyFd (s : State) (fd : Int) (events : Events) (ctl : Bool) : Int × State :=
  match slot fd with
  | none => (einval,s)
  | some i =>
    match s.mainloopList i with
    | none => (enxio,s)
    | some d =>
      if ctl=false then (-1,s)
      else (0,{ s with
        mainloopList := Function.update s.mainloopList i (some { d with events := events })
        interest := Function.update s.interest d.fd (some d.ptr) })

def epollRemoveFd (s : State) (fd : Int) : Int × State :=
  match slot fd with
  | none => (einval,s)
  | some i =>
    match s.mainloopList i with
    | none => (enxio,s)
    | some d => (0,{
        mainloopList := Function.update s.mainloopList i none
        interest := Function.update s.interest d.fd none })

/-- EPOLLIN | EPOLLONESHOT. -/
def timerEvents : Events := 0x40000001

/-- The new timer has the descriptor fd; its creation and its setting may fail. -/
def epollAddTimeout (s : State) (fd : Int) (set : Bool) (malloc : Option Nat) (ctl : Bool) :
    Int × State :=
  if fd<0 ∨ set=false then (eio,s)
  else
    let r := epollAddFd s fd timerEvents malloc ctl
    if r.1<0 then (eio,s) else (fd,r.2)

def epollModifyTimeout (s : State) (id : Int) (set ctl : Bool) : Int × State :=
  if set=false then (eio,s)
  else
    let r := epollModifyFd s id timerEvents ctl
    if r.1<0 then (eio,s) else (0,r.2)

def epollRemoveTimeout (s : State) (id : Int) : Int × State := epollRemoveFd s id

/-- The unsigned id, converted to int. -/
def timeoutRemove (s : State) (id : BitVec 32) : State :=
  if id=0 then s else (epollRemoveTimeout s id.toInt).2

/-- The calls a callback may make. -/
inductive Op where
  | addFd (fd : Int) (events : Events) (malloc : Option Nat) (ctl : Bool)
  | modifyFd (fd : Int) (events : Events) (ctl : Bool)
  | removeFd (fd : Int)
  | addTimeout (fd : Int) (set : Bool) (malloc : Option Nat) (ctl : Bool)
  | modifyTimeout (id : Int) (set ctl : Bool)
  | removeTimeout (id : Int)
  | timeoutRemove (id : BitVec 32)

/-- malloc never returns the address of an object in use. -/
def Op.possible (s : State) : Op → Bool
  | .addFd _ _ (some ptr) _ => !registered s ptr
  | .addTimeout _ _ (some ptr) _ => !registered s ptr
  | _ => true

def Op.effect (s : State) : Op → State
  | .addFd fd events malloc ctl => (epollAddFd s fd events malloc ctl).2
  | .modifyFd fd events ctl => (epollModifyFd s fd events ctl).2
  | .removeFd fd => (epollRemoveFd s fd).2
  | .addTimeout fd set malloc ctl => (epollAddTimeout s fd set malloc ctl).2
  | .modifyTimeout id set ctl => (epollModifyTimeout s id set ctl).2
  | .removeTimeout id => (epollRemoveTimeout s id).2
  | .timeoutRemove id => Epoll.timeoutRemove s id

def applyOp (s : State) (op : Op) : Option State :=
  if op.possible s then some (op.effect s) else none

def applyOps (s : State) : List Op → Option State
  | [] => some s
  | op::ops => do
    let s ← applyOp s op
    applyOps s ops

/-- A callback of epoll_add_fd, or the timeout_callback of a timer made by timeout_add,
whose function asks to be called again or not. -/
inductive Callback where
  | event (ops : List Op)
  | timeout (id : Int) (ops : List Op) (again set ctl : Bool)

def runCallback (s : State) : Callback → Option State
  | .event ops => applyOps s ops
  | .timeout id ops again set ctl => do
    let s ← applyOps s ops
    if again then
      let r := epollModifyTimeout s id set ctl
      if r.1=0 then some r.2 else some (epollRemoveTimeout r.2 id).2
    else some (epollRemoveTimeout s id).2

/-- An event of a batch: the pointer epoll_wait returned, and what its callback does. -/
structure Event where
  ptr : Nat
  callback : Callback

/-- The loop over one batch; for every call, whether its data was registered. -/
def dispatch (s : State) : List Event → Option (State × List Bool)
  | [] => some (s,[])
  | e::batch => do
    let s' ← runCallback s e.callback
    let (s',calls) ← dispatch s' batch
    return (s',registered s e.ptr::calls)

/-- A batch that epoll_wait can return: pointers the kernel holds. -/
def waitReturns (s : State) (batch : List Event) : Bool :=
  decide (batch.length ≤ maxEpollEvents) &&
  batch.all fun e => (List.range maxMainloopEntries).any fun fd => s.interest fd=some e.ptr

/-- epoll_run for a sequence of batches. -/
def epollRun (s : State) : List (List Event) → Option (State × List Bool)
  | [] => some (s,[])
  | batch::batches => do
    if waitReturns s batch then
      let (s,calls) ← dispatch s batch
      let (s,rest) ← epollRun s batches
      return (s,calls++rest)
    else none

/-- The registrations made before epoll_run is called, and the run. -/
def program (setup : List Op) (batches : List (List Event)) : Option (State × List Bool) := do
  let s ← applyOps epollInit setup
  epollRun s batches

/-- Removing this id takes away data whose event is still to come in the batch. -/
def removesPending (s : State) (pending : List Nat) (id : Int) : Bool :=
  match slot id with
  | none => false
  | some i =>
    match s.mainloopList i with
    | none => false
    | some d => decide (d.ptr∈pending)

def Op.considerate (s : State) (pending : List Nat) : Op → Bool
  | .removeFd id => !removesPending s pending id
  | .removeTimeout id => !removesPending s pending id
  | .timeoutRemove id => id=0 || !removesPending s pending id.toInt
  | _ => true

def considerateOps (s : State) (pending : List Nat) : List Op → Bool
  | [] => true
  | op::ops => op.considerate s pending &&
      match applyOp s op with
      | some s => considerateOps s pending ops
      | none => true

/-- No removal made by the callback, that of its own timer included, hits pending data. -/
def considerateCallback (s : State) (pending : List Nat) : Callback → Bool
  | .event ops => considerateOps s pending ops
  | .timeout id ops again set ctl => considerateOps s pending ops &&
      match applyOps s ops with
      | some s =>
        if again then
          (epollModifyTimeout s id set ctl).1=0 || !removesPending s pending id
        else !removesPending s pending id
      | none => true

def considerateBatch (s : State) : List Event → Bool
  | [] => true
  | e::batch => considerateCallback s (batch.map Event.ptr) e.callback &&
      match runCallback s e.callback with
      | some s => considerateBatch s batch
      | none => true

def considerateRun (s : State) : List (List Event) → Bool
  | [] => true
  | batch::batches => considerateBatch s batch &&
      match dispatch s batch with
      | some (s,_) => considerateRun s batches
      | none => true

def considerateProgram (setup : List Op) (batches : List (List Event)) : Bool :=
  match applyOps epollInit setup with
  | some s => considerateRun s batches
  | none => true

end IdearNiu.Epoll
