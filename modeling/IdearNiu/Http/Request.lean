import IdearNiu.Framework.OrderedMap
import IdearNiu.Http.Response
import IdearNiu.Util.Allocation

namespace IdearNiu.HttpRequest

open Http Allocation Words

/-- A string of the caller: the block of memory it lies in, and its bytes up to the NUL. -/
structure CStr where
  block : Nat
  bytes : List UInt8
  noNul : 0∉bytes
  deriving DecidableEq

/-- enum rp: what of a header is freed with it. -/
inductive ReleasePolicy where
  | relNone
  | relName
  | relValue
  | relBoth
  deriving DecidableEq

def ReleasePolicy.name : ReleasePolicy → Bool
  | .relName => true
  | .relBoth => true
  | _ => false

def ReleasePolicy.value : ReleasePolicy → Bool
  | .relValue => true
  | .relBoth => true
  | _ => false

structure RequestHeader where
  name : CStr
  value : CStr
  releasePolicy : ReleasePolicy
  deriving DecidableEq

structure Request where
  method : CStr
  arg : CStr
  headers : List RequestHeader
  hcapacity : Nat
  deriving DecidableEq

def Request.hcount (req : Request) : Nat := req.headers.length

def requestNew (method arg : CStr) : Request := ⟨method,arg,[],8⟩

/-- The blocks that are freed with a header. -/
def releaseHeader (hdr : RequestHeader) : List Nat :=
  match hdr.releasePolicy with
  | .relNone => []
  | .relName => [hdr.name.block]
  | .relValue => [hdr.value.block]
  | .relBoth => [hdr.name.block,hdr.value.block]

/-- The place of the header of a name, by strcasecmp. -/
def findHeader (req : Request) (name : CStr) : Option Nat :=
  req.headers.findIdx? (fun hdr => sameText name.bytes hdr.name.bytes)

/-- The new request and the blocks that are freed. A NULL value is none. The doubling ends at
2^26 headers: from there on the bytes of the table do not fit the int that xrealloc takes, and
it aborts. -/
def requestSetHeader (req : Request) (name : CStr) (value : Option CStr)
    (policy : ReleasePolicy) : Request × List Nat :=
  match value with
  | none => (req,if policy.name then [name.block] else [])
  | some value =>
    match findHeader req name with
    | some i =>
      ({ req with headers := req.headers.set i ⟨name,value,policy⟩ },
        (req.headers[i]?.map releaseHeader).getD [])
    | none =>
      ({ req with
          headers := req.headers++[⟨name,value,policy⟩]
          hcapacity := if req.hcount≥req.hcapacity then req.hcapacity*2 else req.hcapacity },[])

/-- The header of a line of the user, unless it has no colon. The value is a pointer into the
line; block is the copy of the name. -/
def userField (header : CStr) (block : Nat) : Option RequestHeader :=
  if 58∈header.bytes then
    some ⟨⟨block,header.bytes.takeWhile (·≠58),
        fun h => header.noNul ((List.takeWhile_prefix _).subset h)⟩,
      ⟨header.block,((header.bytes.dropWhile (·≠58)).tail).dropWhile isSpace,
        fun h => header.noNul ((List.dropWhile_suffix _).subset (List.mem_of_mem_tail
          ((List.dropWhile_suffix _).subset h)))⟩,.relName⟩
  else none

def requestSetUserHeader (req : Request) (header : CStr) (block : Nat) : Request × List Nat :=
  match userField header block with
  | some hdr => requestSetHeader req hdr.name (some hdr.value) hdr.releasePolicy
  | none => (req,[])

def requestRemoveHeader (req : Request) (name : CStr) : Request × List Nat :=
  match findHeader req name with
  | some i =>
    ({ req with headers := req.headers.eraseIdx i },
      (req.headers[i]?.map releaseHeader).getD [])
  | none => (req,[])

/-- The blocks that request_free frees. -/
def requestFree (req : Request) : List Nat := req.arg.block::req.headers.flatMap releaseHeader

/-- The size that request_send counts in an int, with the NUL. -/
def requestSize (req : Request) : Int :=
  let line := req.method.bytes.length+1+req.arg.bytes.length+1+8+2
  let size := req.headers.foldl (fun size hdr =>
    int32 (size+(hdr.name.bytes.length+2+hdr.value.bytes.length+2 : Nat))) (int32 line)
  int32 (size+3)

def headerText (hdr : RequestHeader) : List UInt8 :=
  hdr.name.bytes++[58,space]++hdr.value.bytes++[carriageReturn,newline]

/-- The text that request_send generates, without the NUL. -/
def requestText (req : Request) : List UInt8 :=
  req.method.bytes++[space]++req.arg.bytes++[space]++text "HTTP/1.1"++[carriageReturn,newline]++
    req.headers.flatMap headerText++[carriageReturn,newline]

/-- What request_send does: it hands these bytes to fd_write, it aborts, or it writes past its
block. -/
inductive Sent where
  | written (bytes : List UInt8)
  | aborted
  | overrun
  deriving DecidableEq

def requestSend (req : Request) : Sent :=
  let size := requestSize req
  match block (BitVec.ofInt 64 size) ((requestText req).length+1) with
  | .aborted => .aborted
  | .overrun => .overrun
  | .full =>
    -- the assertion behind the generation of the text
    if ((requestText req).length+1 : Nat)=size
    then .written ((requestText req).take (size-1).toNat) else .aborted

/-- A call on a request; user gives the block for the copy of the name. -/
inductive Op where
  | set (name : CStr) (value : Option CStr) (policy : ReleasePolicy)
  | user (header : CStr) (block : Nat)
  | remove (name : CStr)

def step (req : Request) : Op → Request × List Nat
  | .set name value policy => requestSetHeader req name value policy
  | .user header block => requestSetUserHeader req header block
  | .remove name => requestRemoveHeader req name

/-- The request after the calls, and the blocks freed on the way. -/
def run (req : Request) : List Op → Request × List Nat
  | [] => (req,[])
  | op::ops => ((run (step req op).1 ops).1,(step req op).2++(run (step req op).1 ops).2)

/-- The blocks that a call hands over to the request. -/
def given : Op → List Nat
  | .set name value policy =>
    (if policy.name then [name.block] else [])++
      (match value with
      | some value => if policy.value then [value.block] else []
      | none => [])
  | .user header block => if 58∈header.bytes then [block] else []
  | .remove _ => []

def sameName (a b : CStr) : Bool := sameText a.bytes b.bytes

/-- What strcasecmp looks at. -/
def nameClass (name : CStr) : List UInt8 := name.bytes.map toLower

/-- What a request stands for: the names in their order, and a header for each. -/
abbrev Fields := OrderedMap.Ordered RequestHeader (List UInt8)

def fieldsStep (f : Fields) : Op → Fields
  | .set _ none _ => f
  | .set name (some value) policy => f.put (nameClass name) ⟨name,value,policy⟩
  | .user header block =>
    match userField header block with
    | some hdr => f.put (nameClass hdr.name) hdr
    | none => f
  | .remove name => f.drop (nameClass name)

def Denotes (req : Request) (f : Fields) : Prop :=
  OrderedMap.Denotes RequestHeader.name nameClass req.headers f

/-- There is memory for every header, in a table that has grown by doubling. -/
def Roomy (req : Request) : Prop :=
  req.hcount≤req.hcapacity ∧ ∃ k,req.hcapacity=8*2^k

def held (req : Request) : List Nat := req.headers.flatMap releaseHeader

theorem sameName_classified : ClassMap.Classified sameName nameClass := by
  intro a b
  rw [sameName,sameText,beq_iff_eq]
  rfl

theorem setHeader_headers (req : Request) (name value : CStr) (policy : ReleasePolicy) :
    (requestSetHeader req name (some value) policy).1.headers=
      OrderedMap.put RequestHeader.name sameName ⟨name,value,policy⟩ req.headers := by
  rw [requestSetHeader,OrderedMap.put]
  change (match findHeader req name with | some i => _ | none => _ : Request × List Nat).1.headers=
    match findHeader req name with | some i => _ | none => _
  cases findHeader req name <;> rfl

theorem removeHeader_headers (req : Request) (name : CStr) :
    (requestRemoveHeader req name).1.headers=
      OrderedMap.drop RequestHeader.name sameName name req.headers := by
  rw [requestRemoveHeader,OrderedMap.drop]
  change (match findHeader req name with | some i => _ | none => _ : Request × List Nat).1.headers=
    match findHeader req name with | some i => _ | none => _
  cases findHeader req name <;> rfl

theorem step_denotes {req : Request} {f : Fields} (h : Denotes req f) (op : Op) :
    Denotes (step req op).1 (fieldsStep f op) := by
  cases op with
  | set name value policy =>
    cases value with
    | none => exact h
    | some value =>
      rw [Denotes,step,setHeader_headers]
      exact OrderedMap.put_denotes sameName_classified h _
  | user header block =>
    rw [step,requestSetUserHeader,fieldsStep]
    cases userField header block with
    | none => exact h
    | some hdr =>
      rw [Denotes,setHeader_headers]
      exact OrderedMap.put_denotes sameName_classified h hdr
  | remove name =>
    rw [Denotes,step,removeHeader_headers]
    exact OrderedMap.drop_denotes sameName_classified h name

theorem setHeader_roomy {req : Request} (h : Roomy req) (name value : CStr)
    (policy : ReleasePolicy) : Roomy (requestSetHeader req name (some value) policy).1 := by
  obtain ⟨hroom,k,hk⟩ := h
  rw [requestSetHeader]
  cases findHeader req name with
  | some i => exact ⟨by simpa [Request.hcount] using hroom,k,hk⟩
  | none =>
    have hcount : (req.headers++[(⟨name,value,policy⟩ : RequestHeader)]).length=
        req.hcount+1 := List.length_append
    have hpos : 1≤2^k := Nat.one_le_two_pow
    rw [Roomy,Request.hcount]
    simp only [hcount]
    split_ifs with hfull
    · exact ⟨by omega,k+1,by rw [hk,Nat.pow_succ,Nat.mul_assoc]⟩
    · exact ⟨by omega,k,hk⟩

theorem step_roomy {req : Request} (h : Roomy req) (op : Op) : Roomy (step req op).1 := by
  cases op with
  | set name value policy =>
    cases value with
    | none => exact h
    | some value => exact setHeader_roomy h name value policy
  | user header block =>
    rw [step,requestSetUserHeader]
    cases userField header block with
    | none => exact h
    | some hdr => exact setHeader_roomy h hdr.name hdr.value hdr.releasePolicy
  | remove name =>
    obtain ⟨hroom,hcap⟩ := h
    rw [step,requestRemoveHeader]
    cases findHeader req name with
    | none => exact ⟨hroom,hcap⟩
    | some i =>
      refine ⟨?_,hcap⟩
      exact Nat.le_trans (List.length_eraseIdx_le _ _) hroom

theorem given_set (name value : CStr) (policy : ReleasePolicy) :
    given (.set name (some value) policy)=releaseHeader ⟨name,value,policy⟩ := by
  cases policy <;> rfl

theorem given_user (header : CStr) (block : Nat) :
    given (.user header block)=
      match userField header block with
      | some hdr => releaseHeader hdr
      | none => [] := by
  rw [given,userField]
  split_ifs <;> rfl

/-- What is freed and what is held afterwards is what was held and what was handed over. -/
theorem setHeader_ledger (req : Request) (name value : CStr) (policy : ReleasePolicy) :
    ((requestSetHeader req name (some value) policy).2++
      held (requestSetHeader req name (some value) policy).1).Perm
      (releaseHeader ⟨name,value,policy⟩++held req) := by
  rw [requestSetHeader]
  cases hplace : findHeader req name with
  | none =>
    simp only [held,List.flatMap_append,List.flatMap_singleton,List.nil_append]
    exact List.perm_append_comm
  | some i =>
    have hi : i < req.headers.length := (List.findIdx?_eq_some_iff_findIdx_eq.mp hplace).1
    simp only [List.getElem?_eq_getElem hi,Option.map_some,Option.getD_some,held]
    have hperm := (KeyedMap.set_perm hi (⟨name,value,policy⟩ : RequestHeader)).flatMap_right
      releaseHeader
    rwa [List.flatMap_cons,List.flatMap_cons] at hperm

theorem removeHeader_ledger (req : Request) (name : CStr) :
    ((requestRemoveHeader req name).2++held (requestRemoveHeader req name).1).Perm
      (held req) := by
  rw [requestRemoveHeader]
  cases hplace : findHeader req name with
  | none => exact List.Perm.refl _
  | some i =>
    have hi : i < req.headers.length := (List.findIdx?_eq_some_iff_findIdx_eq.mp hplace).1
    simp only [List.getElem?_eq_getElem hi,Option.map_some,Option.getD_some,held]
    have hperm := (List.getElem_cons_eraseIdx_perm hi).flatMap_right releaseHeader
    rwa [List.flatMap_cons] at hperm

theorem step_ledger (req : Request) (op : Op) :
    ((step req op).2++held (step req op).1).Perm (given op++held req) := by
  cases op with
  | set name value policy =>
    cases value with
    | none =>
      rw [step,requestSetHeader,given,List.append_nil]
    | some value =>
      rw [given_set]
      exact setHeader_ledger req name value policy
  | user header block =>
    rw [step,requestSetUserHeader,given_user]
    cases userField header block with
    | none => exact List.Perm.refl _
    | some hdr => exact setHeader_ledger req hdr.name hdr.value hdr.releasePolicy
  | remove name => exact removeHeader_ledger req name

theorem step_line (req : Request) (op : Op) :
    (step req op).1.method=req.method ∧ (step req op).1.arg=req.arg := by
  have hset : ∀ (name value : CStr) (policy : ReleasePolicy),
      (requestSetHeader req name (some value) policy).1.method=req.method ∧
        (requestSetHeader req name (some value) policy).1.arg=req.arg := by
    intro name value policy
    rw [requestSetHeader]
    cases findHeader req name <;> exact ⟨rfl,rfl⟩
  cases op with
  | set name value policy =>
    cases value with
    | none => exact ⟨rfl,rfl⟩
    | some value => exact hset name value policy
  | user header block =>
    rw [step,requestSetUserHeader]
    cases userField header block with
    | none => exact ⟨rfl,rfl⟩
    | some hdr => exact hset hdr.name hdr.value hdr.releasePolicy
  | remove name =>
    rw [step,requestRemoveHeader]
    cases findHeader req name <;> exact ⟨rfl,rfl⟩

/-- No call touches the request line. -/
theorem run_line (req : Request) (ops : List Op) :
    (run req ops).1.method=req.method ∧ (run req ops).1.arg=req.arg := by
  induction ops generalizing req with
  | nil => exact ⟨rfl,rfl⟩
  | cons op ops ih =>
    obtain ⟨hmethod,harg⟩ := ih (step req op).1
    obtain ⟨hmethod',harg'⟩ := step_line req op
    exact ⟨hmethod.trans hmethod',harg.trans harg'⟩

/-- Over any calls: the request stands for the fields that the calls make, there is memory for
every header, and every block handed over is freed once or still held. -/
theorem run_spec (req : Request) (f : Fields) (ops : List Op) (hf : Denotes req f)
    (hroom : Roomy req) :
    Denotes (run req ops).1 (ops.foldl fieldsStep f) ∧ Roomy (run req ops).1 ∧
      ((run req ops).2++held (run req ops).1).Perm (ops.flatMap given++held req) := by
  induction ops generalizing req f with
  | nil => exact ⟨hf,hroom,List.Perm.refl _⟩
  | cons op ops ih =>
    obtain ⟨hden,hroomy,hledger⟩ := ih _ _ (step_denotes hf op) (step_roomy hroom op)
    refine ⟨hden,hroomy,?_⟩
    rw [List.perm_iff_count]
    intro block
    have hstep := (step_ledger req op).count_eq block
    have hrest := hledger.count_eq block
    simp only [run,List.flatMap_cons,List.count_append] at hstep hrest ⊢
    omega

/-- A request is an ordered map of fields without regard to case, and with request_free every
block handed over is freed exactly once. -/
theorem request_refines_fields (method arg : CStr) (ops : List Op) :
    Denotes (run (requestNew method arg) ops).1 (ops.foldl fieldsStep .empty) ∧
      Roomy (run (requestNew method arg) ops).1 ∧
      ((run (requestNew method arg) ops).2++requestFree (run (requestNew method arg) ops).1).Perm
        (arg.block::ops.flatMap given) := by
  obtain ⟨hden,hroom,hledger⟩ := run_spec (requestNew method arg) .empty ops
    OrderedMap.denotes_empty ⟨Nat.zero_le _,0,rfl⟩
  refine ⟨hden,hroom,?_⟩
  have harg : (run (requestNew method arg) ops).1.arg=arg :=
    (run_line (requestNew method arg) ops).2
  rw [show held (requestNew method arg)=[] from rfl,List.append_nil] at hledger
  rw [requestFree,harg]
  exact List.perm_middle.trans (hledger.cons arg.block)

end IdearNiu.HttpRequest
