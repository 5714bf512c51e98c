import Mathlib.Data.List.GetD
import Mathlib.Tactic

namespace IdearNiu.SecureHash

/-- The five words of a hash value, or the working variables of a round. -/
@[ext] structure Vars where
  a : BitVec 32
  b : BitVec 32
  c : BitVec 32
  d : BitVec 32
  e : BitVec 32

/-- Word t of a block of 64 bytes, its first byte the most significant one. -/
def messageWord (block : List (BitVec 8)) (t : Nat) : BitVec 32 :=
  block.getD (4*t) 0++block.getD (4*t+1) 0++block.getD (4*t+2) 0++block.getD (4*t+3) 0

/-- The word that follows the first words of a schedule. -/
def nextWord (block : List (BitVec 8)) (w : List (BitVec 32)) : BitVec 32 :=
  let t := w.length
  if t<16 then messageWord block t
  else (w.getD (t-3) 0^^^w.getD (t-8) 0^^^w.getD (t-14) 0^^^w.getD (t-16) 0).rotateLeft 1

/-- The first words of the message schedule. -/
def schedule (block : List (BitVec 8)) : Nat → List (BitVec 32)
  | 0 => []
  | t+1 => schedule block t++[nextWord block (schedule block t)]

def ch (x y z : BitVec 32) : BitVec 32 := (x&&&y)^^^(~~~x&&&z)

def parity (x y z : BitVec 32) : BitVec 32 := x^^^y^^^z

def maj (x y z : BitVec 32) : BitVec 32 := (x&&&y)^^^(x&&&z)^^^(y&&&z)

def f (t : Nat) : BitVec 32 → BitVec 32 → BitVec 32 → BitVec 32 :=
  if t<20 then ch else if t<40 then parity else if t<60 then maj else parity

def k (t : Nat) : BitVec 32 :=
  if t<20 then 0x5A827999 else if t<40 then 0x6ED9EBA1
  else if t<60 then 0x8F1BBCDC else 0xCA62C1D6

def round (w : List (BitVec 32)) (t : Nat) (v : Vars) : Vars :=
  let temp := v.a.rotateLeft 5+f t v.b v.c v.d+v.e+k t+w.getD t 0
  ⟨temp,v.a,v.b.rotateLeft 30,v.c,v.d⟩

/-- The first rounds of the loop. -/
def roundLoop (w : List (BitVec 32)) : Nat → Vars → Vars
  | 0,v => v
  | t+1,v => round w t (roundLoop w t v)

/-- The compression function of the secure hash standard, with its schedule of 80 words and
its 80 rounds. -/
def compress (h : Vars) (block : List (BitVec 8)) : Vars :=
  let v := roundLoop (schedule block 80) 80 h
  ⟨v.a+h.a,v.b+h.b,v.c+h.c,v.d+h.d,v.e+h.e⟩

theorem schedule_length (block : List (BitVec 8)) (t : Nat) :
    (schedule block t).length=t := by
  induction t with
  | zero => rfl
  | succ t ih => rw [schedule,List.length_append,ih,List.length_singleton]

/-- Later words do not change the earlier ones. -/
theorem schedule_getD (block : List (BitVec 8)) (t n : Nat) (h : t<n) :
    (schedule block n).getD t 0=nextWord block (schedule block t) := by
  induction n with
  | zero => omega
  | succ n ih =>
    have hlen := schedule_length block n
    rw [schedule]
    by_cases ht : t<n
    · rw [List.getD_append _ _ _ _ (by omega)]
      exact ih ht
    · have heq : t=n := by omega
      rw [heq,List.getD_append_right _ _ _ _ (by omega),hlen,Nat.sub_self]
      rfl

theorem schedule_message (block : List (BitVec 8)) (t n : Nat) (h : t<n) (h16 : t<16) :
    (schedule block n).getD t 0=messageWord block t := by
  rw [schedule_getD block t n h,nextWord]
  simp only [schedule_length,if_pos h16]

/-- A later word in terms of the schedule it is part of. -/
theorem schedule_recurrence (block : List (BitVec 8)) (t n : Nat) (h : t<n) (h16 : 16≤t) :
    (schedule block n).getD t 0=
      ((schedule block n).getD (t-3) 0^^^(schedule block n).getD (t-8) 0^^^
        (schedule block n).getD (t-14) 0^^^(schedule block n).getD (t-16) 0).rotateLeft 1 := by
  have hold (j : Nat) (hj : j<t) :
      (schedule block t).getD j 0=(schedule block n).getD j 0 := by
    rw [schedule_getD block j t hj,schedule_getD block j n (by omega)]
  rw [schedule_getD block t n h,nextWord]
  simp only [schedule_length]
  rw [if_neg (by omega),hold _ (by omega),hold _ (by omega),hold _ (by omega),hold _ (by omega)]

end IdearNiu.SecureHash
