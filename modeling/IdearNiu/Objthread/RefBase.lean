import IdearNiu.Framework.InFlight

namespace IdearNiu.Objthread

open InFlight

def initialStrongValue : Int := 268435456

/-- What the caller of a function keeps while it runs: the only pointer to a new object, a
strong reference or a weak one. -/
inductive Owner where
  | raw
  | strong
  | weak
  deriving DecidableEq

/-- Where a call stands: before which access of the counters. -/
inductive Pc where
  | incStrong (owner : Owner)
  | incStrongCount (owner : Owner)
  | firstRef (owner : Owner)
  | decStrong
  | lastStrong
  | incWeak (owner : Owner)
  | decWeak
  | lastWeak
  | attempt
  | attemptRead
  | attemptTry (curCount : Int)
  | attemptFirst (curCount : Int)
  | attemptFirstRead
  | attemptRevive
  | fixRead
  | fixTry (curCount : Int)
  | attemptWeakRead
  | attemptWeakTry (curCount : Int)
  deriving DecidableEq

/-- weakref_impl, how often it and its object have been deleted, and the references that
callers hold. -/
structure Refs where
  mStrong : Int
  mWeak : Int
  objDeletes : Nat
  refsDeletes : Nat
  raw : Bool
  strongHeld : Nat
  weakHeld : Nat
  deriving DecidableEq

/-- RefBase::RefBase. -/
def Refs.initial : Refs := ⟨initialStrongValue,0,0,0,true,0,0⟩

/-- RefBase::~RefBase; extended says whether the lifetime is OBJECT_LIFETIME_WEAK. -/
def Refs.destroy (extended : Bool) (r : Refs) : Refs :=
  { r with
    objDeletes := r.objDeletes+1
    refsDeletes :=
      if r.mStrong=initialStrongValue then r.refsDeletes+1
      else if extended then (if r.mWeak=0 then r.refsDeletes+1 else r.refsDeletes)
      else r.refsDeletes }

/-- The next access of a call, and what is left of the call. agrees is the answer of
onIncStrongAttempted. -/
def exec (extended agrees : Bool) : Pc → Refs → Refs × Option Pc
  | .incStrong owner,r => ({ r with mWeak := r.mWeak+1 },some (.incStrongCount owner))
  | .incStrongCount owner,r =>
    if r.mStrong≠initialStrongValue then
      ({ r with mStrong := r.mStrong+1, strongHeld := r.strongHeld+1 },none)
    else ({ r with mStrong := r.mStrong+1 },some (.firstRef owner))
  | .firstRef _,r =>
    ({ r with mStrong := r.mStrong-initialStrongValue, strongHeld := r.strongHeld+1 },none)
  | .decStrong,r =>
    ({ r with mStrong := r.mStrong-1 },some (if r.mStrong=1 then .lastStrong else .decWeak))
  | .lastStrong,r => (if extended then r else r.destroy extended,some .decWeak)
  | .incWeak _,r => ({ r with mWeak := r.mWeak+1, weakHeld := r.weakHeld+1 },none)
  | .decWeak,r => ({ r with mWeak := r.mWeak-1 },if r.mWeak≠1 then none else some .lastWeak)
  | .lastWeak,r =>
    if extended then (r.destroy extended,none)
    else if r.mStrong=initialStrongValue then (r.destroy extended,none)
    else ({ r with refsDeletes := r.refsDeletes+1 },none)
  | .attempt,r => ({ r with mWeak := r.mWeak+1 },some .attemptRead)
  | .attemptRead,r => (r,some (.attemptTry r.mStrong))
  | .attemptTry curCount,r =>
    if curCount>0 ∧ curCount≠initialStrongValue then
      if r.mStrong=curCount then ({ r with mStrong := curCount+1 },some .fixRead)
      else (r,some .attemptRead)
    else if extended then
      -- an extended lifetime lets the object be revived if it agrees
      (r,some (if agrees then .attemptRevive else .decWeak))
    else if curCount≤0 then (r,some .decWeak)
    else (r,some (.attemptFirst curCount))
  | .attemptFirst curCount,r =>
    if curCount>0 then
      if r.mStrong=curCount then ({ r with mStrong := curCount+1 },some .fixRead)
      else (r,some .attemptFirstRead)
    else (r,some .decWeak)
  | .attemptFirstRead,r => (r,some (.attemptFirst r.mStrong))
  | .attemptRevive,r => ({ r with mStrong := r.mStrong+1 },some .fixRead)
  | .fixRead,r => (r,some (.fixTry r.mStrong))
  | .fixTry curCount,r =>
    if curCount≥initialStrongValue then
      if r.mStrong=curCount then
        ({ r with mStrong := curCount-initialStrongValue, strongHeld := r.strongHeld+1 },none)
      else (r,some .fixRead)
    else ({ r with strongHeld := r.strongHeld+1 },none)
  | .attemptWeakRead,r => (r,some (.attemptWeakTry r.mWeak))
  | .attemptWeakTry curCount,r =>
    if curCount>0 then
      if r.mWeak=curCount then
        ({ r with mWeak := curCount+1, weakHeld := r.weakHeld+1 },none)
      else (r,some .attemptWeakRead)
    else (r,none)

/-- The assertion that stands at an access. -/
def Pc.Asserted : Pc → Refs → Prop
  | .incStrong _,r => r.mWeak≥0
  | .incStrongCount _,r => r.mStrong>0
  | .decStrong,r => r.mStrong≥1
  | .incWeak _,r => r.mWeak≥0
  | .decWeak,r => r.mWeak≥1
  | .attempt,r => r.mWeak≥0
  | .attemptRead,r => r.mStrong≥0
  | .fixTry curCount,_ => curCount≥initialStrongValue → curCount>initialStrongValue
  | .attemptWeakRead,r => r.mWeak≥0
  | _,_ => True

def Pc.owner : Pc → Option Owner
  | .incStrong owner => some owner
  | .incStrongCount owner => some owner
  | .firstRef owner => some owner
  | .decStrong => none
  | .lastStrong => none
  | .incWeak owner => some owner
  | .decWeak => none
  | .lastWeak => none
  | _ => some .weak

def owned (owner : Owner) (p : Pc) : Nat := if p.owner=some owner then 1 else 0

/-- There is room for one more reference. -/
def Room (r : Refs) (ops : Multiset Pc) : Prop :=
  ((r.strongHeld+r.weakHeld+ops.card+1 : Nat) : Int) < initialStrongValue

instance (r : Refs) (ops : Multiset Pc) : Decidable (Room r ops) := Int.decLt _ _

/-- How a call begins. A reference may go only when no call under way rests on it alone, and
the first use of a new object is the business of its creator. -/
inductive Call (extended : Bool) : Refs → Multiset Pc → Refs → Option Pc → Prop
  | incStrong {r ops} (h : 0<r.strongHeld) (room : Room r ops) :
      Call extended r ops r (some (.incStrong .strong))
  | firstStrong {r ops} (h : r.raw=true) :
      Call extended r ops { r with raw := false } (some (.incStrong .raw))
  | decStrong {r ops} (h : 0<r.strongHeld)
      (free : 1<r.strongHeld ∨ ∀ p∈ops,p.owner≠some .strong) :
      Call extended r ops { r with strongHeld := r.strongHeld-1 } (some .decStrong)
  | incWeakStrong {r ops} (h : 0<r.strongHeld) (room : Room r ops) :
      Call extended r ops r (some (.incWeak .strong))
  | incWeak {r ops} (h : 0<r.weakHeld) (room : Room r ops) :
      Call extended r ops r (some (.incWeak .weak))
  | createWeak {r ops} (h : r.raw=true) :
      Call extended r ops { r with raw := false } (some (.incWeak .raw))
  | decWeak {r ops} (h : 0<r.weakHeld)
      (free : 1<r.weakHeld ∨ ∀ p∈ops,p.owner≠some .weak) :
      Call extended r ops { r with weakHeld := r.weakHeld-1 } (some .decWeak)
  | attemptIncStrong {r ops} (h : 0<r.weakHeld) (room : Room r ops) :
      Call extended r ops r (some .attempt)
  | attemptIncWeak {r ops} (h : 0<r.weakHeld) (room : Room r ops) :
      Call extended r ops r (some .attemptWeakRead)
  | delete {r ops} (h : r.raw=true) :
      Call extended r ops { r.destroy extended with raw := false } none

def refBase (extended : Bool) : Machine Refs Pc where
  call := Call extended
  turn p r r' q := ∃ agrees,exec extended agrees p r=(r',q)

/-- What holds of an object, its counters and its references, whatever is under way. -/
structure Safe (extended : Bool) (r : Refs) (ops : Multiset Pc) : Prop where
  objOnce : r.objDeletes≤1
  refsOnce : r.refsDeletes≤1
  refsAlive : ops≠0 ∨ r.raw=true ∨ 0<r.strongHeld ∨ 0<r.weakHeld → r.refsDeletes=0
  objAlive : r.raw=true ∨ 0<r.strongHeld → r.objDeletes=0
  extendedAlive : extended=true → 0<r.weakHeld → r.objDeletes=0
  noLeak : ops=0 → r.raw=false → r.strongHeld=0 → r.weakHeld=0 →
    r.objDeletes=1 ∧ r.refsDeletes=1
  weakCount : ops=0 → r.mWeak=r.strongHeld+r.weakHeld
  strongCount : ops=0 → 0<r.strongHeld → r.mStrong=r.strongHeld
  noStrongCount : ops=0 → r.strongHeld=0 → r.mStrong=0 ∨ r.mStrong=initialStrongValue
  asserted : ∀ p∈ops,p.Asserted r

end IdearNiu.Objthread
