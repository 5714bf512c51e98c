import Mathlib.Algebra.Order.Group.Multiset
import Mathlib.Logic.Function.Basic
import Mathlib.Tactic

namespace IdearNiu.Att

/-- enum att_op_type. -/
inductive OpType where
  | req
  | rsp
  | cmd
  | ind
  | not
  | conf
  | unknown
  deriving DecidableEq

def errorRsp : UInt8 := 0x01
def handleValConf : UInt8 := 0x1E
def requestNotSupported : UInt8 := 0x06

def attOpcodeTypeTable : List (UInt8 × OpType) :=
  [(0x01,.rsp),(0x02,.req),(0x03,.rsp),(0x04,.req),(0x05,.rsp),(0x06,.req),(0x07,.rsp),
    (0x08,.req),(0x09,.rsp),(0x0A,.req),(0x0B,.rsp),(0x0C,.req),(0x0D,.rsp),(0x0E,.req),
    (0x0F,.rsp),(0x10,.req),(0x11,.rsp),(0x12,.req),(0x13,.rsp),(0x52,.cmd),(0xD2,.cmd),
    (0x16,.req),(0x17,.rsp),(0x18,.req),(0x19,.rsp),(0x1B,.not),(0x1D,.ind),(0x1E,.conf)]

def getOpType (opcode : UInt8) : OpType :=
  match attOpcodeTypeTable.find? (fun e => e.1==opcode) with
  | some e => e.2
  | none => if opcode&&&0x40≠0 then .cmd else .unknown

def attReqRspMappingTable : List (UInt8 × UInt8) :=
  [(0x02,0x03),(0x04,0x05),(0x06,0x07),(0x08,0x09),(0x0A,0x0B),(0x0C,0x0D),(0x0E,0x0F),
    (0x10,0x11),(0x12,0x13),(0x16,0x17),(0x18,0x19)]

/-- The opcode of the request that a response is for, 0 if there is none. -/
def getReqOpcode (rspOpcode : UInt8) : UInt8 :=
  match attReqRspMappingTable.find? (fun e => e.2==rspOpcode) with
  | some e => e.1
  | none => 0

/-- struct att_send_op. callback and destroy say whether there is such a function; serial
numbers the operations for the proofs. -/
structure SendOp where
  serial : Nat
  id : BitVec 32
  timeoutId : Option Nat
  type : OpType
  opcode : UInt8
  pdu : List UInt8
  callback : Bool
  destroy : Bool
  deriving DecidableEq

/-- What happens to an operation, for the proofs; expired is the end of its time. -/
inductive Entry where
  | sent (type : OpType) (serial : Nat)
  | requeued (serial : Nat)
  | called (serial : Nat) (code : UInt8)
  | cancelled (serial : Nat)
  | expired (serial : Nat)
  | destroyed (serial : Nat)
  | freed (serial : Nat)
  deriving DecidableEq

/-- Requests and indications wait for an answer. -/
inductive Lane where
  | req
  | ind
  deriving DecidableEq

def Lane.type : Lane → OpType
  | .req => .req
  | .ind => .ind

def laneOf : OpType → Option Lane
  | .req => some .req
  | .ind => some .ind
  | _ => none

/-- req_queue and pending_req, or ind_queue and pending_ind. -/
structure Channel where
  queue : List SendOp
  pending : Option SendOp
  deriving DecidableEq

/-- struct bt_att; io is false for a null pointer, shut says that io_shutdown has been called,
timeouts are those that run, with the id in their struct timeout_data. made and log are for the
proofs. -/
structure Att where
  io : Bool
  channel : Lane → Channel
  writeQueue : List SendOp
  writerActive : Bool
  inReq : Bool
  mtu : Nat
  nextSendId : BitVec 32
  shut : Bool
  timeouts : List (Nat × BitVec 32)
  timeoutsAdded : Nat
  made : List SendOp
  log : List Entry

def Att.setChannel (s : Att) (l : Lane) (c : Channel) : Att :=
  { s with channel := Function.update s.channel l c }

def btAttNew (mtu : Nat) : Att where
  io := true
  channel _ := ⟨[],none⟩
  writeQueue := []
  writerActive := false
  inReq := false
  mtu := mtu
  nextSendId := 0
  shut := false
  timeouts := []
  timeoutsAdded := 0
  made := []
  log := []

def Att.note (s : Att) (entries : List Entry) : Att := { s with log := s.log++entries }

/-- The calls of the destroy function and of free. -/
def destroyEntries (op : SendOp) : List Entry :=
  (if op.destroy then [.destroyed op.serial] else [])++[.freed op.serial]

def timeoutRemove (timeoutId : Option Nat) (timeouts : List (Nat × BitVec 32)) :
    List (Nat × BitVec 32) :=
  match timeoutId with
  | some t => timeouts.filter (fun e => e.1≠t)
  | none => timeouts

def destroyAttSendOp (op : SendOp) (s : Att) : Att :=
  { s with
    timeouts := timeoutRemove op.timeoutId s.timeouts
    log := s.log++destroyEntries op }

/-- The operation stays, without its functions. -/
def cancelAttSendOp (op : SendOp) : SendOp × List Entry :=
  ({ op with callback := false, destroy := false },
    .cancelled op.serial::if op.destroy then [.destroyed op.serial] else [])

def Channel.ready (c : Channel) : Bool := c.pending.isNone && !c.queue.isEmpty

/-- There is anything that can be sent at all. -/
def Att.sendable (s : Att) : Bool :=
  !s.writeQueue.isEmpty || (s.channel .req).ready || (s.channel .ind).ready

/-- io_set_write_handler succeeds on an io. -/
def wakeupWriter (s : Att) : Att :=
  if s.writerActive then s
  else if !s.sendable then s
  else if s.io then { s with writerActive := true }
  else s

/-- A call of the interface, which callbacks make too. -/
inductive Api where
  | send (opcode : UInt8) (pdu : Option (List UInt8)) (length : Nat) (callback destroy : Bool)
  | cancel (id : BitVec 32)
  | cancelAll

/-- The bytes of an unsigned operation. pdu_len is a 16-bit number: a length of 65535 makes it 0,
and the opcode is then written behind an empty block. -/
def encodePdu (mtu : Nat) (opcode : UInt8) (pdu : Option (List UInt8)) (length : Nat) :
    Option (List UInt8) :=
  let pduLen := (if length≠0 ∧ pdu.isSome then 1+length else 1)%2^16
  if pduLen>mtu then none
  else some ((opcode::if pduLen>1 then (pdu.getD []).take length else []).take pduLen)

def createAttSendOp (s : Att) (opcode : UInt8) (pdu : Option (List UInt8)) (length : Nat)
    (callback destroy : Bool) : Option SendOp :=
  let type := getOpType opcode
  if length≠0 ∧ pdu.isNone then none
  else if type=.unknown then none
  else if callback ∧ type≠.req ∧ type≠.ind then none
  else if ¬callback ∧ (type=.req ∨ type=.ind) then none
  else (encodePdu s.mtu opcode pdu length).map
    (fun bytes => ⟨s.made.length,0,none,type,opcode,bytes,callback,destroy⟩)

/-- The operation goes to the queue of its type. -/
def enqueueSendOp (op : SendOp) (s : Att) : Att :=
  match laneOf op.type with
  | some l => s.setChannel l { s.channel l with queue := (s.channel l).queue++[op] }
  | none => { s with writeQueue := s.writeQueue++[op] }

def btAttSend (s : Att) (opcode : UInt8) (pdu : Option (List UInt8)) (length : Nat)
    (callback destroy : Bool) : Att × BitVec 32 :=
  if !s.io then (s,0)
  else
    match createAttSendOp s opcode pdu length callback destroy with
    | none => (s,0)
    | some op =>
      let id := if s.nextSendId < 1 then 1 else s.nextSendId
      let op := { op with id := id }
      (wakeupWriter (enqueueSendOp op { s with nextSendId := id+1, made := s.made++[op] }),id)

/-- The end of an operation that has been taken out of its queue. -/
def cancelQueued (op : SendOp) (s : Att) : Att :=
  destroyAttSendOp op (s.note [.cancelled op.serial])

/-- The first operation of an id and the others. -/
def removeId (id : BitVec 32) (queue : List SendOp) : Option (SendOp × List SendOp) :=
  (queue.find? (fun op => op.id==id)).map (fun op => (op,queue.eraseP (fun op => op.id==id)))

def cancelPending (s : Att) (l : Lane) (op : SendOp) : Att :=
  (s.setChannel l { s.channel l with pending := some (cancelAttSendOp op).1 }).note
    (cancelAttSendOp op).2

def pendingWith (s : Att) (l : Lane) (id : BitVec 32) : Option SendOp :=
  (s.channel l).pending.filter (fun op => op.id==id)

def btAttCancel (s : Att) (id : BitVec 32) : Att × Bool :=
  if id=0 then (s,false)
  else match pendingWith s .req id with
  | some op => (cancelPending s .req op,true)
  | none => match pendingWith s .ind id with
    | some op => (cancelPending s .ind op,true)
    | none => match removeId id (s.channel .req).queue with
      | some (op,queue) =>
        (wakeupWriter (cancelQueued op
          (s.setChannel .req { s.channel .req with queue := queue })),true)
      | none => match removeId id (s.channel .ind).queue with
        | some (op,queue) =>
          (wakeupWriter (cancelQueued op
            (s.setChannel .ind { s.channel .ind with queue := queue })),true)
        | none => match removeId id s.writeQueue with
          | some (op,queue) => (wakeupWriter (cancelQueued op { s with writeQueue := queue }),true)
          | none => (s,false)

def cancelAll (ops : List SendOp) (s : Att) : Att := ops.foldl (fun s op => cancelQueued op s) s

def cancelLane (s : Att) (l : Lane) : Att :=
  match (s.channel l).pending with
  | some op => cancelPending s l op
  | none => s

/-- Takes the operations out of a queue. -/
def emptyLane (s : Att) (l : Lane) : Att :=
  cancelAll (s.channel l).queue (s.setChannel l { s.channel l with queue := [] })

def btAttCancelAll (s : Att) : Att :=
  let s := emptyLane (emptyLane s .req) .ind
  let s := cancelAll s.writeQueue { s with writeQueue := [] }
  cancelLane (cancelLane s .req) .ind

def callApi (s : Att) : Api → Att
  | .send opcode pdu length callback destroy =>
    (btAttSend s opcode pdu length callback destroy).1
  | .cancel id => (btAttCancel s id).1
  | .cancelAll => btAttCancelAll s

def callApis (s : Att) (calls : List Api) : Att := calls.foldl callApi s

/-- The callback of an operation, if it has one, with the calls it makes itself. -/
def runCallback (op : SendOp) (code : UInt8) (nested : List Api) (s : Att) : Att :=
  if op.callback then callApis (s.note [.called op.serial code]) nested else s

def popLane (s : Att) (l : Lane) : Option (SendOp × Att) :=
  match (s.channel l).pending,(s.channel l).queue with
  | none,op::queue => some (op,s.setChannel l { s.channel l with queue := queue })
  | _,_ => none

def pickNextSendOp (s : Att) : Option (SendOp × Att) :=
  match s.writeQueue with
  | op::queue => some (op,{ s with writeQueue := queue })
  | [] => match popLane s .req with
    | some r => some r
    | none => popLane s .ind

/-- The write handler; ok is the success of io_send, nested what the callback does. -/
def canWriteData (s : Att) (ok : Bool) (nested : List Api) : Att :=
  match pickNextSendOp s with
  | none => { s with writerActive := false }
  | some (op,s) =>
    if !ok then destroyAttSendOp op (runCallback op errorRsp nested s)
    else
      let s := s.note [.sent op.type op.serial]
      match laneOf op.type with
      | some l =>
        { s.setChannel l { s.channel l with
            pending := some { op with timeoutId := some s.timeoutsAdded } } with
          timeouts := (s.timeoutsAdded,op.id)::s.timeouts
          timeoutsAdded := s.timeoutsAdded+1 }
      | none =>
        destroyAttSendOp op (if op.type=.rsp then { s with inReq := false } else s)

def freePending (s : Att) (l : Lane) : Att :=
  match (s.channel l).pending with
  | some op => (destroyAttSendOp op s).setChannel l { s.channel l with pending := none }
  | none => s

/-- The end of a pending operation, which its callback may have cancelled in the meantime. -/
def completeLane (s : Att) (l : Lane) (code : UInt8) (nested : List Api) : Att :=
  match (s.channel l).pending with
  | some op => freePending (runCallback op code nested s) l
  | none => s

/-- retry says whether change_security succeeds. -/
def handleRsp (s : Att) (opcode : UInt8) (pdu : List UInt8) (retry : Bool)
    (nested : List Api) : Att :=
  match (s.channel .req).pending with
  | none => { s with shut := true }
  | some op =>
    if opcode=errorRsp ∧ pdu.length=4 ∧ retry then
      wakeupWriter (({ s with timeouts := timeoutRemove op.timeoutId s.timeouts }.setChannel .req
        ⟨{ op with timeoutId := none }::(s.channel .req).queue,none⟩).note [.requeued op.serial])
    else
      let reqOpcode :=
        if opcode=errorRsp then (if pdu.length=4 then pdu.headD 0 else 0)
        else getReqOpcode opcode
      let code := if reqOpcode=0 ∨ reqOpcode≠op.opcode then errorRsp else opcode
      wakeupWriter (completeLane s .req code nested)

def handleConf (s : Att) (pdu : List UInt8) (nested : List Api) : Att :=
  if (s.channel .ind).pending.isNone ∨ pdu≠[] then { s with shut := true }
  else wakeupWriter (completeLane s .ind handleValConf nested)

def respondNotSupported (s : Att) (opcode : UInt8) : Att :=
  (btAttSend s errorRsp (some [opcode,0,0,requestNotSupported]) 4 false false).1

/-- found says that a handler is registered, signed that the signature is right, and nested
are the calls of the handlers. -/
def handleNotify (s : Att) (opcode : UInt8) (found signed : Bool) (nested : List Api) : Att :=
  if opcode&&&0x80≠0 ∧ ¬signed then s
  else
    let s := if found then callApis s nested else s
    if ¬found ∧ getOpType opcode≠.cmd then respondNotSupported s opcode else s

/-- The read handler. -/
def canReadData (s : Att) (bytes : List UInt8) (retry found signed : Bool)
    (nested : List Api) : Att :=
  match bytes with
  | [] => s
  | opcode::pdu =>
    match getOpType opcode with
    | .rsp => handleRsp s opcode pdu retry nested
    | .conf => handleConf s pdu nested
    | .req =>
      if s.inReq then { s with shut := true }
      else handleNotify { s with inReq := true } opcode found signed nested
    | _ => handleNotify s opcode found signed nested

/-- The operation is taken out; nested are the calls of timeout_callback. -/
def expireLane (s : Att) (l : Lane) (op : SendOp) (nested : List Api) : Att :=
  let s := callApis
    ((s.setChannel l { s.channel l with pending := none }).note [.expired op.serial]) nested
  { destroyAttSendOp { op with timeoutId := none } s with shut := true }

/-- The timeout t of the operation id runs out. -/
def timeoutCb (s : Att) (t : Nat) (id : BitVec 32) (nested : List Api) : Att :=
  let s := { s with timeouts := timeoutRemove (some t) s.timeouts }
  match pendingWith s .req id with
  | some op => expireLane s .req op nested
  | none => match pendingWith s .ind id with
    | some op => expireLane s .ind op nested
    | none => s

/-- disc_att_send_op for the operations of a queue that has been emptied. -/
def discAll (nested : Nat → List Api) : List SendOp → Att → Att
  | [],s => s
  | op::ops,s =>
    discAll nested ops (destroyAttSendOp op (runCallback op errorRsp (nested op.serial) s))

def discQueue (nested : Nat → List Api) (s : Att) (l : Lane) : Att :=
  discAll nested (s.channel l).queue (s.setChannel l { s.channel l with queue := [] })

def discPending (nested : Nat → List Api) (s : Att) (l : Lane) : Att :=
  match (s.channel l).pending with
  | none => s
  | some op => completeLane s l errorRsp (nested op.serial)

def disconnectCb (s : Att) (nested : Nat → List Api) : Att :=
  let s := { s with io := false, writerActive := false }
  let s := discQueue nested (discQueue nested s .req) .ind
  let s := discAll nested s.writeQueue { s with writeQueue := [] }
  discPending nested (discPending nested s .req) .ind

/-- What the main loop or the user brings. -/
inductive Event where
  | api (call : Api)
  | writable (ok : Bool) (nested : List Api)
  | readable (bytes : List UInt8) (retry found signed : Bool) (nested : List Api)
  | timeout (t : Nat) (nested : List Api)
  | disconnect (nested : Nat → List Api)

def step (s : Att) : Event → Att
  | .api call => callApi s call
  | .writable ok nested => if s.io && s.writerActive then canWriteData s ok nested else s
  | .readable bytes retry found signed nested =>
    if s.io then canReadData s bytes retry found signed nested else s
  | .timeout t nested =>
    match s.timeouts.find? (fun e => e.1==t) with
    | some e => timeoutCb s t e.2 nested
    | none => s
  | .disconnect nested => if s.io then disconnectCb s nested else s

/-- bt_att_unref by the last holder, with bt_att_free. -/
def btAttUnref (s : Att) : Att := freePending (freePending (btAttCancelAll s) .req) .ind

def run (mtu : Nat) (events : List Event) : Att := events.foldl step (btAttNew mtu)

end IdearNiu.Att
