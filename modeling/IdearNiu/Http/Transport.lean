import Mathlib.Tactic

namespace IdearNiu.Http

/-- The function pointers of a transport_implementation that these calls use. -/
inductive Slot where
  | reader
  | writer
  | poller
  | peeker
  | closer
deriving DecidableEq

/-- A transport_implementation is told apart by its id; a slot may be NULL. -/
structure Implementation where
  id : Nat
  provides : List Slot
deriving DecidableEq

structure TransportInfo where
  imp : Implementation
  ctx : Nat
deriving DecidableEq

/-- The global ssl_transport, and whether the block it points to has been freed. -/
structure TransportState where
  sslTransport : Option TransportInfo
  freed : Bool
deriving DecidableEq

def TransportState.init : TransportState := ⟨none,false⟩

/-- Who serves one operation of a call: the socket itself, a transport, or a transport
whose record has been freed. -/
inductive Handler where
  | plain
  | transport (info : TransportInfo)
  | dangling
deriving DecidableEq

/-- A null slot falls back on the plain socket operation. -/
def serve (info : Option TransportInfo) (slot : Slot) : Handler :=
  match info with
  | none => .plain
  | some i => if slot∈i.imp.provides then .transport i else .plain

def TransportState.serve (s : TransportState) (slot : Slot) : Handler :=
  if s.freed then .dangling else Http.serve s.sslTransport slot

/-- A negative descriptor fails the assertion, so it has none here. -/
def fdRegisterTransport (s : TransportState) (_fd : Nat) (info : TransportInfo) :
    TransportState :=
  match s.sslTransport with
  | none => { s with sslTransport := some info }
  | some _ => s

/-- One round of the loop of fd_write: whether the poll succeeds, and what is written. -/
structure Round where
  ready : Bool
  res : Int

inductive Call where
  | read (fd : Int) (timeout ready : Bool)
  | peek (fd : Int) (timeout ready : Bool)
  | write (fd : Int) (timeout : Bool) (bufsize : Nat) (rounds : List Round)
  | close (fd : Int)

def Call.fd : Call → Int
  | .read fd _ _ => fd
  | .peek fd _ _ => fd
  | .write fd _ _ _ => fd
  | .close fd => fd

/-- poll_internal, then the operation if the poll succeeds. -/
def pollThen (timeout ready : Bool) (slot : Slot) : List Slot :=
  if timeout then (if ready then [.poller,slot] else [.poller]) else [slot]

def fdWrite (timeout : Bool) : Nat → List Round → List Slot
  | 0,_ => []
  | _+1,[] => []
  | n+1,r::rounds => pollThen timeout r.ready .writer++
      if (timeout && !r.ready) || r.res≤0 then [] else fdWrite timeout (n+1-r.res.toNat) rounds

/-- The operations of a call, in turn. -/
def Call.slots : Call → List Slot
  | .read _ timeout ready => pollThen timeout ready .reader
  | .peek _ timeout ready => pollThen timeout ready .peeker
  | .write _ timeout bufsize rounds => fdWrite timeout bufsize rounds
  | .close fd => if fd<0 then [] else [.closer]

/-- fd_close frees the record but leaves the global pointer to it. -/
def fdClose (s : TransportState) (fd : Int) : TransportState :=
  if fd<0 then s else { s with freed := s.freed || s.sslTransport.isSome }

def Call.effect (s : TransportState) : Call → TransportState
  | .close fd => fdClose s fd
  | _ => s

inductive TransportOp where
  | register (fd : Nat) (info : TransportInfo)
  | call (c : Call)

def TransportOp.effect (s : TransportState) : TransportOp → TransportState
  | .register fd info => fdRegisterTransport s fd info
  | .call c => c.effect s

def transportRun (ops : List TransportOp) : TransportState :=
  ops.foldl TransportOp.effect TransportState.init

/-- The handlers that the operations of a call get after these ops. -/
def handlers (pre : List TransportOp) (c : Call) : List Handler :=
  c.slots.map (transportRun pre).serve

/-- The table of the transports registered for each descriptor and not yet closed. -/
def tableStep (table : Int → Option TransportInfo) : TransportOp → Int → Option TransportInfo
  | .register fd info => Function.update table fd (some info)
  | .call (.close fd) => if fd<0 then table else Function.update table fd none
  | .call _ => table

def tableRun (ops : List TransportOp) : Int → Option TransportInfo :=
  ops.foldl tableStep fun _ => none

def tableHandlers (pre : List TransportOp) (c : Call) : List Handler :=
  c.slots.map (serve (tableRun pre c.fd))

/-- Every call of the sequence is served by the transport registered for its descriptor. -/
def ServedByTable (ops : List TransportOp) : Prop :=
  ∀ pre c post,ops=pre++.call c::post → handlers pre c=tableHandlers pre c

def TransportOp.registration : TransportOp → Option TransportInfo
  | .register _ info => some info
  | .call _ => none

def TransportOp.registrationFor (fd : Int) : TransportOp → Option TransportInfo
  | .register n info => if (n : Int)=fd then some info else none
  | .call _ => none

def TransportOp.closes : TransportOp → Bool
  | .call (.close fd) => 0≤fd
  | _ => false

def firstRegistration (ops : List TransportOp) : Option TransportInfo :=
  ops.findSome? TransportOp.registration

def latestRegistration (fd : Int) (ops : List TransportOp) : Option TransportInfo :=
  ops.reverse.findSome? (TransportOp.registrationFor fd)

/-- Something was closed after the first registration. -/
def closedSince : List TransportOp → Bool
  | [] => false
  | .register _ _::ops => ops.any TransportOp.closes
  | .call _::ops => closedSince ops

/-- No transport has been registered; or nothing has been closed since the first one was,
and it serves the operation as the latest one registered for the descriptor does. -/
def Aligned (pre : List TransportOp) (c : Call) : Prop :=
  ∀ slot∈c.slots,firstRegistration pre=none ∨
    (closedSince pre=false ∧
      serve (firstRegistration pre) slot=serve (latestRegistration c.fd pre) slot)

@[simp]
theorem firstRegistration_register (fd : Nat) (info : TransportInfo)
    (ops : List TransportOp) : firstRegistration (.register fd info::ops)=some info := rfl

@[simp]
theorem firstRegistration_call (c : Call) (ops : List TransportOp) :
    firstRegistration (.call c::ops)=firstRegistration ops := rfl

theorem closedSince_append (pre : List TransportOp) (op : TransportOp) :
    closedSince (pre++[op])=
      (closedSince pre || ((firstRegistration pre).isSome && op.closes)) := by
  induction pre with
  | nil =>
    cases op with
    | register fd info => rfl
    | call c => rfl
  | cons a pre ih =>
    cases a with
    | register fd info => simp [closedSince]
    | call c => rw [List.cons_append,closedSince,closedSince,ih,firstRegistration_call]

theorem firstRegistration_append (pre : List TransportOp) (op : TransportOp) :
    firstRegistration (pre++[op])=(firstRegistration pre).or op.registration := by
  simp only [firstRegistration]
  rw [List.findSome?_append]
  simp

theorem latestRegistration_append (fd : Int) (pre : List TransportOp) (op : TransportOp) :
    latestRegistration fd (pre++[op])=
      (op.registrationFor fd).or (latestRegistration fd pre) := by
  rw [latestRegistration]
  rw [List.reverse_append,List.reverse_singleton,List.singleton_append,List.findSome?_cons]
  cases op.registrationFor fd <;> rfl

/-- The global pointer keeps the first registration for ever. -/
theorem transportRun_eq (pre : List TransportOp) :
    transportRun pre=⟨firstRegistration pre,closedSince pre⟩ := by
  induction pre using List.reverseRecOn with
  | nil => rfl
  | append_singleton pre op ih =>
    rw [transportRun] at ih ⊢
    rw [List.foldl_append,ih,firstRegistration_append,closedSince_append]
    cases op with
    | register fd info =>
      cases hf : firstRegistration pre <;>
        simp [TransportOp.effect,fdRegisterTransport,TransportOp.registration,
          TransportOp.closes]
    | call c =>
      cases c with
      | close fd =>
        by_cases hfd : fd<0
        · have : ¬0≤fd := by omega
          simp [TransportOp.effect,Call.effect,fdClose,hfd,this,TransportOp.registration,
            TransportOp.closes]
        · have : 0≤fd := by omega
          simp [TransportOp.effect,Call.effect,fdClose,hfd,this,TransportOp.registration,
            TransportOp.closes]
      | read fd timeout ready | peek fd timeout ready | write fd timeout bufsize rounds =>
        simp [TransportOp.effect,Call.effect,TransportOp.registration,TransportOp.closes]

theorem latestRegistration_of_none (fd : Int) (pre : List TransportOp)
    (h : firstRegistration pre=none) : latestRegistration fd pre=none := by
  rw [latestRegistration,firstRegistration] at *
  rw [List.findSome?_eq_none_iff] at h ⊢
  intro op hop
  have hnone := h op (List.mem_reverse.mp hop)
  cases op with
  | register n info => cases hnone
  | call c => rfl

/-- Before the first registration the table is empty; until something is closed after it,
the table holds the latest registrations. -/
theorem tableRun_eq (pre : List TransportOp) (h : closedSince pre=false) (fd : Int) :
    tableRun pre fd=latestRegistration fd pre := by
  induction pre using List.reverseRecOn with
  | nil => rfl
  | append_singleton pre op ih =>
    rw [closedSince_append,Bool.or_eq_false_iff] at h
    have hrec := ih h.1
    rw [tableRun] at hrec ⊢
    rw [List.foldl_append,latestRegistration_append]
    simp only [List.foldl_cons,List.foldl_nil]
    cases op with
    | register n info =>
      simp only [tableStep,TransportOp.registrationFor]
      by_cases hn : (n : Int)=fd
      · subst hn
        simp
      · rw [Function.update_of_ne (Ne.symm hn),hrec,if_neg hn,Option.none_or]
    | call c =>
      cases c with
      | close n =>
        simp only [tableStep,TransportOp.registrationFor,Option.none_or]
        by_cases hn : n<0
        · rw [if_pos hn]
          exact hrec
        · have hcl : (TransportOp.call (.close n)).closes=true := by
            simp only [TransportOp.closes,decide_eq_true_eq]
            omega
          have hnone : firstRegistration pre=none := by
            rw [hcl,Bool.and_true,Option.isSome_eq_false_iff,Option.isNone_iff_eq_none] at h
            exact h.2
          have hlatest := latestRegistration_of_none fd pre hnone
          rw [if_neg hn,hlatest]
          by_cases he : fd=n
          · rw [he,Function.update_self]
          · rw [Function.update_of_ne he,hrec,hlatest]
      | read n timeout ready | peek n timeout ready | write n timeout bufsize rounds =>
        simpa only [tableStep,TransportOp.registrationFor,Option.none_or] using hrec

theorem serve_ne_dangling (info : Option TransportInfo) (slot : Slot) :
    serve info slot≠.dangling := by
  simp only [serve]
  cases info with
  | none => simp
  | some i =>
    simp only
    split_ifs <;> simp

theorem closedSince_of_none (pre : List TransportOp) (h : firstRegistration pre=none) :
    closedSince pre=false := by
  induction pre with
  | nil => rfl
  | cons a pre ih =>
    cases a with
    | register fd info => cases h
    | call c => exact ih h

/-- The operations of a call are served as the table says exactly when it is aligned. -/
theorem handlers_iff (pre : List TransportOp) (c : Call) :
    handlers pre c=tableHandlers pre c ↔ Aligned pre c := by
  rw [handlers,tableHandlers,Aligned]
  rw [List.map_inj_left]
  apply forall₂_congr
  intro slot _
  rw [transportRun_eq]
  rw [TransportState.serve]
  simp only
  by_cases hc : closedSince pre=true
  · have hsome : firstRegistration pre≠none := by
      intro hnone
      rw [closedSince_of_none pre hnone] at hc
      cases hc
    rw [if_pos hc]
    constructor
    · intro h
      exact absurd h.symm (serve_ne_dangling _ _)
    · intro hcase
      rcases hcase with h|⟨h,_⟩
      · exact absurd h hsome
      · rw [h] at hc
        cases hc
  · have hc' : closedSince pre=false := by simpa using hc
    rw [if_neg hc,tableRun_eq pre hc' c.fd]
    constructor
    · intro h
      exact Or.inr ⟨hc',h⟩
    · intro hcase
      rcases hcase with h|⟨_,h⟩
      · rw [h,latestRegistration_of_none c.fd pre h]
      · exact h

/-- In a sequence of calls every operation is served by the transport most recently
registered for its descriptor and not yet closed if and only if every call is aligned. -/
theorem servedByTable_iff (ops : List TransportOp) :
    ServedByTable ops ↔ ∀ pre c post,ops=pre++.call c::post → Aligned pre c := by
  rw [ServedByTable]
  simp only [handlers_iff]

/-- The transport of an HTTPS connection. -/
def sslInfo : TransportInfo := ⟨⟨0,[.reader,.writer,.poller,.peeker,.closer]⟩,1⟩

/-- Descriptor 5 carries TLS and is closed; a plain connection then reuses its number, and
its read goes through the freed transport. -/
theorem closed_transport_is_used :
    ¬ServedByTable [.register 5 sslInfo,.call (.close 5),.call (.read 5 false true)] := by
  intro h
  have hread := h [.register 5 sslInfo,.call (.close 5)] (.read 5 false true) [] rfl
  exact absurd hread (by decide)

end IdearNiu.Http
