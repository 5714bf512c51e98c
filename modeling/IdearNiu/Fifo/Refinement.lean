import IdearNiu.Fifo.Kfifo

namespace IdearNiu.Fifo

open Memory

/-- The buffer argument of a put: it holds the len bytes the caller announces. -/
structure Source where
  data : List Byte
  len : Uint
  fits : len.toNat≤data.length

inductive Op where
  | put (source : Source)
  | putUnlocked (source : Source)
  | get (len : Uint)
  | getUnlocked (len : Uint)
  | reset
  | len

inductive Answer where
  | accepted (count : Nat)
  | delivered (count : Nat) (bytes : List Byte)
  | done
  | length (count : Nat)
deriving DecidableEq

def applyOp (fifo : Kfifo) : Op → Option (Kfifo × Answer)
  | .put s => (kfifoPut fifo s.data s.len).map fun r => (r.2,.accepted r.1.toNat)
  | .putUnlocked s => (__kfifoPut fifo s.data s.len).map fun r => (r.2,.accepted r.1.toNat)
  | .get len => (kfifoGet fifo len).map fun r => (r.2.2,.delivered r.1.toNat r.2.1)
  | .getUnlocked len => (__kfifoGet fifo len).map fun r => (r.2.2,.delivered r.1.toNat r.2.1)
  | .reset => some (kfifoReset fifo,.done)
  | .len => some (fifo,.length (kfifoLen fifo).toNat)

def runOps (fifo : Kfifo) : List Op → Option (Kfifo × List Answer)
  | [] => some (fifo,[])
  | op::ops => do
    let (fifo,answer) ← applyOp fifo op
    let (fifo,answers) ← runOps fifo ops
    return (fifo,answer::answers)

/-- A run from kfifo_init. -/
def runFifo (buffer : List Byte) (size : Uint) (ops : List Op) :
    Option (Kfifo × List Answer) := do
  let fifo ← kfifoInit buffer size
  runOps fifo ops

/-- The same call without the locking layer, whose kfifo_get resets an empty fifo. -/
def Op.unlocked : Op → Op
  | .put s => .put s
  | .putUnlocked s => .putUnlocked s
  | .get n => .getUnlocked n
  | .getUnlocked n => .getUnlocked n
  | .reset => .reset
  | .len => .len

/-- The bounded byte queue, oldest byte first. -/
def queueStep (capacity : Nat) (q : List Byte) : Op → List Byte × Answer
  | .put s | .putUnlocked s =>
    let n := min s.len.toNat (capacity-q.length)
    (q++s.data.take n,.accepted n)
  | .get len | .getUnlocked len =>
    let n := min len.toNat q.length
    (q.drop n,.delivered n (q.take n))
  | .reset => ([],.done)
  | .len => (q,.length q.length)

def queueRun (capacity : Nat) (q : List Byte) : List Op → List Byte × List Answer
  | [] => (q,[])
  | op::ops =>
    let (q',answer) := queueStep capacity q op
    let (q',answers) := queueRun capacity q' ops
    (q',answer::answers)

/-- The fifo holds a queue: its bytes stand in the ring from out on. -/
structure Holds (fifo : Kfifo) (k : Nat) (q : List Byte) : Prop where
  exponent : k≤31
  size : fifo.size.toNat=2^k
  ring : fifo.buffer.length=2^k
  used : (fifo.inIdx-fifo.outIdx).toNat=q.length
  bound : q.length≤2^k
  cells : ∀ j<q.length,fifo.buffer[(fifo.outIdx.toNat%2^k+j)%2^k]?=q[j]?

theorem uintMin_toNat (x y : Uint) : (uintMin x y).toNat=min x.toNat y.toNat := by
  rw [uintMin]
  by_cases h : x<y
  · have := BitVec.lt_def.mp h
    rw [if_pos h]
    omega
  · have : ¬x.toNat<y.toNat := fun hlt => h (BitVec.lt_def.mpr hlt)
    rw [if_neg h]
    omega

theorem pow_dvd_uint (k : Nat) (hk : k≤31) : 2^k∣2^32 := pow_dvd_pow 2 (by omega)

theorem pow_lt_uint (k : Nat) (hk : k≤31) : 2^k<2^32 := Nat.pow_lt_pow_right (by omega) (by omega)

/-- Masking an index with size-1 reduces it modulo the size. -/
theorem masked_toNat (x size : Uint) (k : Nat) (hk : k≤31) (hs : size.toNat=2^k) :
    (x&&&(size-1)).toNat=x.toNat%2^k := by
  have hlt := pow_lt_uint k hk
  have hpos : 0<2^k := Nat.two_pow_pos k
  have h1 : (size-1).toNat=2^k-1 := by
    rw [BitVec.toNat_sub,hs,show (1 : Uint).toNat=1 from rfl]
    omega
  rw [BitVec.toNat_and,h1,Nat.and_two_pow_sub_one_eq_mod]

section

variable {fifo : Kfifo} {k : Nat} {q : List Byte}

/-- Positions counted from in are positions counted from out past the queue. -/
theorem Holds.in_index (h : Holds fifo k q) (d : Nat) :
    (fifo.inIdx.toNat%2^k+d)%2^k=(fifo.outIdx.toNat%2^k+(q.length+d))%2^k := by
  have hsub : (fifo.outIdx+(fifo.inIdx-fifo.outIdx)).toNat=fifo.inIdx.toNat := by
    congr 1
    bv_omega
  rw [BitVec.toNat_add,h.used] at hsub
  rw [← hsub,Nat.mod_mod_of_dvd _ (pow_dvd_uint k h.exponent),Nat.mod_add_mod,
    Nat.mod_add_mod,Nat.add_assoc]

theorem Holds.free_toNat (h : Holds fifo k q) :
    (fifo.size-fifo.inIdx+fifo.outIdx).toNat=2^k-q.length := by
  have he : fifo.size-fifo.inIdx+fifo.outIdx=fifo.size-(fifo.inIdx-fifo.outIdx) := by bv_omega
  have := pow_lt_uint k h.exponent
  have := h.bound
  rw [he,BitVec.toNat_sub,h.size,h.used]
  omega

/-- What is left of the ring up to its end. -/
theorem Holds.tail_toNat (h : Holds fifo k q) (x : Uint) :
    (fifo.size-(x&&&(fifo.size-1))).toNat=2^k-x.toNat%2^k := by
  have := pow_lt_uint k h.exponent
  have := Nat.mod_lt x.toNat (Nat.two_pow_pos k)
  rw [BitVec.toNat_sub,masked_toNat x fifo.size k h.exponent h.size,h.size]
  omega

theorem sub_min_toNat (len t : Uint) :
    (len-uintMin len t).toNat=len.toNat-min len.toNat t.toNat := by
  have hm := uintMin_toNat len t
  rw [BitVec.toNat_sub,hm]
  have := len.isLt
  omega

theorem Holds.put (h : Holds fifo k q) (s : Source) :
    ∃ n fifo',__kfifoPut fifo s.data s.len=some (n,fifo') ∧
      n.toNat=min s.len.toNat (2^k-q.length) ∧
      Holds fifo' k (q++s.data.take (min s.len.toNat (2^k-q.length))) := by
  have hn := uintMin_toNat s.len (fifo.size-fifo.inIdx+fifo.outIdx)
  rw [h.free_toNat] at hn
  generalize hN : uintMin s.len (fifo.size-fifo.inIdx+fifo.outIdx)=n at hn
  have hp := Nat.mod_lt fifo.inIdx.toNat (Nat.two_pow_pos k)
  have hbound := h.bound
  have hfits := s.fits
  have hl : (uintMin n (fifo.size-(fifo.inIdx&&&(fifo.size-1)))).toNat=
      min n.toNat (fifo.buffer.length-fifo.inIdx.toNat%2^k) := by
    rw [uintMin_toNat,h.tail_toNat,h.ring]
  have hrest : (n-uintMin n (fifo.size-(fifo.inIdx&&&(fifo.size-1)))).toNat=
      n.toNat-min n.toNat (fifo.buffer.length-fifo.inIdx.toNat%2^k) := by
    rw [sub_min_toNat,h.tail_toNat,h.ring]
  have hcopy := copyTo_ring fifo.buffer s.data (fifo.inIdx.toNat%2^k) n.toNat
    (by rw [h.ring]; exact hp) (by rw [h.ring]; omega) (by omega)
  have hsrc : (s.data.take n.toNat).length=n.toNat := by
    rw [List.length_take]
    omega
  refine ⟨n,{ fifo with
    buffer := ringWrite fifo.buffer (fifo.inIdx.toNat%2^k) (s.data.take n.toNat)
    inIdx := fifo.inIdx+n },?_,hn,?_⟩
  · rw [__kfifoPut]
    simp only [hN,hl,hrest,masked_toNat fifo.inIdx fifo.size k h.exponent h.size]
    rw [← Option.bind_eq_bind] at hcopy
    rw [← bind_assoc,hcopy]
    rfl
  · rw [← hn]
    have hused := h.used
    refine ⟨h.exponent,h.size,?_,?_,?_,?_⟩
    · rw [← h.ring]
      exact ringWrite_length _ _ _ (by rw [h.ring]; exact hp) (by rw [h.ring,hsrc]; omega)
    · have hlt := pow_lt_uint k h.exponent
      have he : fifo.inIdx+n-fifo.outIdx=(fifo.inIdx-fifo.outIdx)+n := by bv_omega
      rw [List.length_append,hsrc]
      simp only
      rw [he,BitVec.toNat_add,hused,Nat.mod_eq_of_lt (by omega)]
    · rw [List.length_append,hsrc]
      omega
    · intro j hj
      rw [List.length_append,hsrc] at hj
      have hring := h.ring
      by_cases hold : j<q.length
      · have hpos : (fifo.outIdx.toNat%2^k+j)%2^k=
            (fifo.inIdx.toNat%2^k+(2^k-q.length+j))%2^k := by
          rw [h.in_index,show fifo.outIdx.toNat%2^k+(q.length+(2^k-q.length+j))=
            fifo.outIdx.toNat%2^k+j+2^k by omega,Nat.add_mod_right]
        have hout := ringWrite_outside fifo.buffer (s.data.take n.toNat)
          (fifo.inIdx.toNat%2^k) (2^k-q.length+j) (by omega) (by omega) (by omega)
        rw [hring,← hpos] at hout
        rw [List.getElem?_append_left hold,← h.cells j hold]
        exact hout
      · have hpos : (fifo.outIdx.toNat%2^k+j)%2^k=
            (fifo.inIdx.toNat%2^k+(j-q.length))%2^k := by
          rw [h.in_index,show q.length+(j-q.length)=j by omega]
        have hins := ringWrite_inside fifo.buffer (s.data.take n.toNat)
          (fifo.inIdx.toNat%2^k) (j-q.length) (by omega) (by omega) (by omega)
        rw [hring,← hpos] at hins
        rw [List.getElem?_append_right (by omega)]
        exact hins

theorem Holds.get (h : Holds fifo k q) (len : Uint) :
    ∃ n fifo',__kfifoGet fifo len=some (n,q.take (min len.toNat q.length),fifo') ∧
      n.toNat=min len.toNat q.length ∧
      Holds fifo' k (q.drop (min len.toNat q.length)) := by
  have hn := uintMin_toNat len (fifo.inIdx-fifo.outIdx)
  rw [h.used] at hn
  generalize hN : uintMin len (fifo.inIdx-fifo.outIdx)=n at hn
  have hp := Nat.mod_lt fifo.outIdx.toNat (Nat.two_pow_pos k)
  have hbound := h.bound
  have hring := h.ring
  have hl : (uintMin n (fifo.size-(fifo.outIdx&&&(fifo.size-1)))).toNat=
      min n.toNat (fifo.buffer.length-fifo.outIdx.toNat%2^k) := by
    rw [uintMin_toNat,h.tail_toNat,h.ring]
  have hrest : (n-uintMin n (fifo.size-(fifo.outIdx&&&(fifo.size-1)))).toNat=
      n.toNat-min n.toNat (fifo.buffer.length-fifo.outIdx.toNat%2^k) := by
    rw [sub_min_toNat,h.tail_toNat,h.ring]
  have hcopy := copyFrom_ring fifo.buffer (fifo.outIdx.toNat%2^k) n.toNat
    (by omega) (by omega)
  have hbytes : ringRead fifo.buffer (fifo.outIdx.toNat%2^k) n.toNat=q.take n.toNat := by
    apply List.ext_getElem?
    intro j
    have hlen := ringRead_length fifo.buffer (fifo.outIdx.toNat%2^k) n.toNat
      (by omega) (by omega)
    by_cases hj : j<n.toNat
    · rw [ringRead_get _ _ _ _ (by omega) (by omega) hj,hring,h.cells j (by omega),
        List.getElem?_take_of_lt hj]
    · rw [List.getElem?_eq_none (by omega),
        List.getElem?_eq_none (by rw [List.length_take]; omega)]
  refine ⟨n,{ fifo with outIdx := fifo.outIdx+n },?_,hn,?_⟩
  · rw [hbytes] at hcopy
    rw [← hn]
    rw [__kfifoGet]
    simp only [hN,hl,hrest,masked_toNat fifo.outIdx fifo.size k h.exponent h.size]
    obtain ⟨first,hfirst,hsecond⟩ := Option.bind_eq_some_iff.mp hcopy
    obtain ⟨rest,hr,he⟩ := Option.map_eq_some_iff.mp hsecond
    simp [hfirst,hr,he]
  · rw [← hn]
    have hused := h.used
    have hlt := pow_lt_uint k h.exponent
    refine ⟨h.exponent,h.size,h.ring,?_,?_,?_⟩
    · rw [List.length_drop]
      simp only
      bv_omega
    · rw [List.length_drop]
      omega
    · intro j hj
      rw [List.length_drop] at hj
      have hpos : ((fifo.outIdx+n).toNat%2^k+j)%2^k=
          (fifo.outIdx.toNat%2^k+(n.toNat+j))%2^k := by
        rw [BitVec.toNat_add,Nat.mod_mod_of_dvd _ (pow_dvd_uint k h.exponent),
          Nat.mod_add_mod,Nat.mod_add_mod,Nat.add_assoc]
      rw [List.getElem?_drop,← h.cells (n.toNat+j) (by omega)]
      exact congrArg (fun i => fifo.buffer[i]?) hpos

theorem Holds.empty (hk : k≤31) (hs : fifo.size.toNat=2^k) (hb : fifo.buffer.length=2^k)
    (he : fifo.inIdx=fifo.outIdx) : Holds fifo k [] :=
  ⟨hk,hs,hb,by simp [he],by simp,by simp⟩

theorem Holds.lockedGet (h : Holds fifo k q) (len : Uint) :
    ∃ n fifo',kfifoGet fifo len=some (n,q.take (min len.toNat q.length),fifo') ∧
      n.toNat=min len.toNat q.length ∧
      Holds fifo' k (q.drop (min len.toNat q.length)) := by
  obtain ⟨n,fifo',hrun,hn,hs⟩ := h.get len
  by_cases he : fifo'.inIdx=fifo'.outIdx
  · have hnil : q.drop (min len.toNat q.length)=[] := by
      have := hs.used
      simp only [he,BitVec.sub_self,BitVec.toNat_zero] at this
      exact List.length_eq_zero_iff.mp this.symm
    refine ⟨n,{ fifo' with inIdx := 0, outIdx := 0 },?_,hn,?_⟩
    · simp [kfifoGet,hrun,he]
    · rw [hnil]
      exact Holds.empty hs.exponent hs.size hs.ring rfl
  · exact ⟨n,fifo',by simp [kfifoGet,hrun,he],hn,hs⟩

theorem Holds.apply (h : Holds fifo k q) (op : Op) :
    ∃ fifo',applyOp fifo op=some (fifo',(queueStep (2^k) q op).2) ∧
      Holds fifo' k (queueStep (2^k) q op).1 := by
  cases op with
  | put s | putUnlocked s =>
    obtain ⟨n,fifo',hrun,hn,hs⟩ := h.put s
    exact ⟨fifo',by simp [applyOp,kfifoPut,hrun,hn,queueStep],hs⟩
  | get len =>
    obtain ⟨n,fifo',hrun,hn,hs⟩ := h.lockedGet len
    exact ⟨fifo',by simp [applyOp,hrun,hn,queueStep],hs⟩
  | getUnlocked len =>
    obtain ⟨n,fifo',hrun,hn,hs⟩ := h.get len
    exact ⟨fifo',by simp [applyOp,hrun,hn,queueStep],hs⟩
  | reset => exact ⟨kfifoReset fifo,rfl,Holds.empty h.exponent h.size h.ring rfl⟩
  | len => exact ⟨fifo,by simp [applyOp,kfifoLen,__kfifoLen,h.used,queueStep],h⟩

theorem Holds.run (h : Holds fifo k q) (ops : List Op) :
    ∃ fifo',runOps fifo ops=some (fifo',(queueRun (2^k) q ops).2) ∧
      Holds fifo' k (queueRun (2^k) q ops).1 := by
  induction ops generalizing fifo q with
  | nil => exact ⟨fifo,rfl,h⟩
  | cons op ops ih =>
    obtain ⟨mid,hstep,hmid⟩ := h.apply op
    obtain ⟨fifo',hrun,hs⟩ := ih hmid
    exact ⟨fifo',by simp [runOps,hstep,hrun,queueRun],hs⟩

end

theorem kfifoInit_holds (buffer : List Byte) (k : Nat) (hk : k≤31)
    (hb : buffer.length=2^k) :
    ∃ fifo,kfifoInit buffer (BitVec.ofNat 32 (2^k))=some fifo ∧ Holds fifo k [] := by
  have hpow : ∀ j : Fin 32,isPowerOf2 (BitVec.ofNat 32 (2^j.val))=true := by decide
  refine ⟨⟨buffer,BitVec.ofNat 32 (2^k),0,0⟩,?_,?_⟩
  · rw [kfifoInit]
    rw [if_pos (hpow ⟨k,by omega⟩)]
  · refine Holds.empty hk ?_ hb rfl
    rw [BitVec.toNat_ofNat,Nat.mod_eq_of_lt (pow_lt_uint k hk)]

theorem queueStep_unlocked (capacity : Nat) (q : List Byte) (op : Op) :
    queueStep capacity q op.unlocked=queueStep capacity q op := by
  cases op <;> rfl

theorem queueRun_unlocked (capacity : Nat) (q : List Byte) (ops : List Op) :
    queueRun capacity q (ops.map Op.unlocked)=queueRun capacity q ops := by
  induction ops generalizing q with
  | nil => rfl
  | cons op ops ih => simp only [List.map_cons,queueRun,queueStep_unlocked,ih]

/-- The fifo refines a bounded byte queue: every run of calls stays inside the buffer and
answers as the queue does, its length is the queue's, and the answers stay the same when
kfifo_get does not reset the indices of an emptied fifo. -/
theorem kfifo_refines_queue (k : Nat) (hk : k≤31) (buffer : List Byte)
    (hb : buffer.length=2^k) (ops : List Op) :
    ∃ fifo,runFifo buffer (BitVec.ofNat 32 (2^k)) ops=
        some (fifo,(queueRun (2^k) [] ops).2) ∧
      (fifo.inIdx-fifo.outIdx).toNat≤2^k ∧
      (kfifoLen fifo).toNat=(queueRun (2^k) [] ops).1.length ∧
      ∃ plain,runFifo buffer (BitVec.ofNat 32 (2^k)) (ops.map Op.unlocked)=
        some (plain,(queueRun (2^k) [] ops).2) := by
  obtain ⟨start,hinit,hstart⟩ := kfifoInit_holds buffer k hk hb
  obtain ⟨fifo,hrun,h⟩ := hstart.run ops
  obtain ⟨plain,hplain,_⟩ := hstart.run (ops.map Op.unlocked)
  rw [queueRun_unlocked] at hplain
  have hstarted (ops : List Op) : runFifo buffer (BitVec.ofNat 32 (2^k)) ops=runOps start ops := by
    rw [runFifo,hinit]
    rfl
  refine ⟨fifo,(hstarted ops).trans hrun,?_,h.used,plain,(hstarted _).trans hplain⟩
  rw [h.used]
  exact h.bound

/-- Seven bytes through a ring of four: the second put wraps around its end. -/
theorem kfifo_refines_queue_wrapping :
    ∃ fifo,runFifo [0,0,0,0] 4
        [.put ⟨[1,2,3],3,by decide⟩,.get 2,.put ⟨[4,5,6,7],4,by decide⟩,.len,.get 9]=
        some (fifo,[.accepted 3,.delivered 2 [1,2],.accepted 3,.length 4,
          .delivered 4 [3,4,5,6]]) ∧
      (fifo.inIdx-fifo.outIdx).toNat≤4 ∧ (kfifoLen fifo).toNat=0 ∧
      ∃ plain,runFifo [0,0,0,0] 4
        [.put ⟨[1,2,3],3,by decide⟩,.getUnlocked 2,.put ⟨[4,5,6,7],4,by decide⟩,.len,
          .getUnlocked 9]=
        some (plain,[.accepted 3,.delivered 2 [1,2],.accepted 3,.length 4,
          .delivered 4 [3,4,5,6]]) := by
  have hqueue : queueRun (2^2) []
      [.put ⟨[1,2,3],3,by decide⟩,.get 2,.put ⟨[4,5,6,7],4,by decide⟩,.len,.get 9]=
      ([],[.accepted 3,.delivered 2 [1,2],.accepted 3,.length 4,.delivered 4 [3,4,5,6]]) := by
    decide
  have hrun := kfifo_refines_queue 2 (by decide) [0,0,0,0] rfl
    [.put ⟨[1,2,3],3,by decide⟩,.get 2,.put ⟨[4,5,6,7],4,by decide⟩,.len,.get 9]
  rw [hqueue] at hrun
  exact hrun

end IdearNiu.Fifo
