import Mathlib.Tactic

namespace IdearNiu.BitTable

/-- A table of bits kept in bytes, eight to a byte. -/
abbrev Table := Nat → BitVec 8

def mask (bit : Nat) : BitVec 8 := 1<<<(bit%8)

def testBit (t : Table) (bit : Nat) : Bool := t (bit/8)&&&mask bit≠0

def setBit (t : Table) (bit : Nat) : Table :=
  Function.update t (bit/8) (t (bit/8)|||mask bit)

def clearBit (t : Table) (bit : Nat) : Table :=
  Function.update t (bit/8) (t (bit/8)&&&~~~mask bit)

theorem and_mask_ne_zero (b : BitVec 8) (j : Fin 8) :
    b&&&(1 : BitVec 8)<<<j.val≠0 ↔ b.getLsbD j.val=true := by
  revert b j
  decide +kernel

theorem getLsbD_mask (i j : Fin 8) :
    ((1 : BitVec 8)<<<i.val).getLsbD j.val=decide (i=j) := by
  revert i j
  decide +kernel

/-- Masks of one byte: the test after a set and after a clear of the same byte. -/
theorem mask_cases (b : BitVec 8) (i j : Fin 8) :
    ((b|||(1 : BitVec 8)<<<i.val)&&&(1 : BitVec 8)<<<j.val≠0 ↔
      i=j ∨ b&&&(1 : BitVec 8)<<<j.val≠0) ∧
    ((b&&&~~~((1 : BitVec 8)<<<i.val))&&&(1 : BitVec 8)<<<j.val≠0 ↔
      i≠j ∧ b&&&(1 : BitVec 8)<<<j.val≠0) := by
  simp only [and_mask_ne_zero,BitVec.getLsbD_or,BitVec.getLsbD_and,BitVec.getLsbD_not,
    getLsbD_mask,Bool.or_eq_true,Bool.and_eq_true,Bool.not_eq_true',decide_eq_true_eq,
    decide_eq_false_iff_not,j.isLt]
  exact ⟨Or.comm,by tauto⟩

/-- The place of a bit in its byte. -/
def place (bit : Nat) : Fin 8 := ⟨bit%8,Nat.mod_lt bit (Nat.succ_pos 7)⟩

theorem place_eq_iff (i j : Nat) (h : i/8=j/8) : place i=place j ↔ i=j := by
  rw [place,place,Fin.mk.injEq]
  omega

theorem testBit_iff (t : Table) (bit : Nat) :
    testBit t bit=true ↔ t (bit/8)&&&mask bit≠0 := decide_eq_true_iff

@[simp] theorem testBit_setBit (t : Table) (i j : Nat) :
    testBit (setBit t i) j=(decide (i=j) || testBit t j) := by
  rw [Bool.eq_iff_iff,Bool.or_eq_true,decide_eq_true_eq,testBit_iff,testBit_iff,setBit]
  by_cases h : i/8=j/8
  · have hm := (mask_cases (t (j/8)) (place i) (place j)).1
    rw [place_eq_iff i j h] at hm
    rw [h,Function.update_self]
    exact hm
  · rw [Function.update_of_ne (Ne.symm h)]
    have hij : i≠j := fun he => h (by rw [he])
    simp [hij]

@[simp] theorem testBit_clearBit (t : Table) (i j : Nat) :
    testBit (clearBit t i) j=(decide (i≠j) && testBit t j) := by
  rw [Bool.eq_iff_iff,Bool.and_eq_true,decide_eq_true_eq,testBit_iff,testBit_iff,clearBit]
  by_cases h : i/8=j/8
  · have hm := (mask_cases (t (j/8)) (place i) (place j)).2
    rw [h,Function.update_self]
    refine hm.trans (and_congr_left' ?_)
    exact not_congr (place_eq_iff i j h)
  · rw [Function.update_of_ne (Ne.symm h)]
    have hij : i≠j := fun he => h (by rw [he])
    simp [hij]

end IdearNiu.BitTable
