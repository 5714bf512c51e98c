import Mathlib.Tactic

namespace IdearNiu.OnesComplement

/-- The carries of a number added back to its low digit. -/
def carry (base n : Nat) : Nat := n%base+n/base

/-- The one-digit number that one's-complement addition brings a sum to. Zero comes only from
zero; any other multiple of base-1 gives base-1. -/
def residue (base n : Nat) : Nat := if n=0 then 0 else (n-1)%(base-1)+1

section

variable {base : Nat}

theorem carry_modEq (hb : 2≤base) (n : Nat) : carry base n ≡ n [MOD base-1] := by
  have hbase : base ≡ 1 [MOD base-1] := by
    have h : base-1+1 ≡ 0+1 [MOD base-1] := Nat.ModEq.add_right 1 (by simp [Nat.ModEq])
    rwa [Nat.sub_add_cancel (by omega)] at h
  calc carry base n=n%base+1*(n/base) := by rw [carry,Nat.one_mul]
    _ ≡ n%base+base*(n/base) [MOD base-1] := (hbase.symm.mul_right _).add_left _
    _ = n := Nat.mod_add_div n base

theorem carry_eq_zero (n : Nat) : carry base n=0 ↔ n=0 := by
  constructor
  · intro h
    obtain ⟨hmod,hdiv⟩ := Nat.add_eq_zero_iff.mp h
    have hn := Nat.mod_add_div n base
    rw [hmod,hdiv,Nat.mul_zero] at hn
    exact hn.symm
  · intro heq
    subst heq
    simp [carry]

theorem residue_lt (hb : 2≤base) (n : Nat) : residue base n<base := by
  rw [residue]
  split
  · omega
  · have := Nat.mod_lt (n-1) (show 0<base-1 by omega)
    omega

theorem residue_le (n : Nat) : residue base n≤n := by
  rw [residue]
  split
  · omega
  · have := Nat.mod_le (n-1) (base-1)
    omega

theorem residue_eq_zero (n : Nat) : residue base n=0 ↔ n=0 := by
  rw [residue]
  split <;> omega

theorem residue_modEq (n : Nat) : residue base n ≡ n [MOD base-1] := by
  rw [residue]
  split
  · rename_i h
    rw [h]
  · have h := (Nat.mod_modEq (n-1) (base-1)).add_right 1
    rwa [Nat.sub_add_cancel (by omega)] at h

/-- A digit congruent to the sum, and zero with it, is its residue. -/
theorem eq_residue (n x : Nat) (hx : x<base) (hmod : x ≡ n [MOD base-1])
    (hzero : x=0 ↔ n=0) : x=residue base n := by
  by_cases hn : n=0
  · rw [residue,if_pos hn]
    exact hzero.mpr hn
  · have hpos : x≠0 := fun h => hn (hzero.mp h)
    rw [residue,if_neg hn]
    have hpred : x-1 ≡ n-1 [MOD base-1] := by
      apply Nat.ModEq.add_right_cancel' 1
      rwa [Nat.sub_add_cancel (by omega),Nat.sub_add_cancel (by omega)]
    have hlt : (x-1)%(base-1)=x-1 := Nat.mod_eq_of_lt (by omega)
    rw [← hpred,hlt]
    omega

/-- A digit is its own residue. -/
theorem residue_of_lt (n : Nat) (hn : n<base) : residue base n=n :=
  (eq_residue n n hn (Nat.ModEq.refl n) Iff.rfl).symm

theorem residue_carry (hb : 2≤base) (n : Nat) : residue base (carry base n)=residue base n :=
  eq_residue n _ (residue_lt hb _) ((residue_modEq _).trans (carry_modEq hb n))
    ((residue_eq_zero _).trans (carry_eq_zero n))

/-- Summing in pieces gives the residue of the whole sum. -/
theorem residue_add_left (hb : 2≤base) (m n : Nat) :
    residue base (residue base m+n)=residue base (m+n) := by
  refine eq_residue (m+n) _ (residue_lt hb _)
    ((residue_modEq _).trans ((residue_modEq m).add_right n)) ?_
  rw [residue_eq_zero,Nat.add_eq_zero_iff,residue_eq_zero,Nat.add_eq_zero_iff]

theorem residue_eq_top (hb : 2≤base) (n : Nat) :
    residue base n=base-1 ↔ n≠0 ∧ n%(base-1)=0 := by
  constructor
  · intro h
    have hne : n≠0 := fun h0 => by
      rw [(residue_eq_zero n).mpr h0] at h
      omega
    have hmod : residue base n%(base-1)=n%(base-1) := residue_modEq n
    rw [h,Nat.mod_self] at hmod
    exact ⟨hne,hmod.symm⟩
  · intro hgiven
    obtain ⟨hne,hmod⟩ := hgiven
    refine (eq_residue n (base-1) (by omega) ?_ (by omega)).symm
    rw [Nat.ModEq,Nat.mod_self,hmod]

/-- Adding the complement of a nonzero sum gives the all-ones digit. -/
theorem residue_complement (hb : 2≤base) (n : Nat) (hn : n≠0) :
    residue base (n+(base-1-residue base n))=base-1 := by
  have hlt := residue_lt hb n
  rw [residue_eq_top hb]
  refine ⟨by omega,?_⟩
  have hsum : n+(base-1-residue base n) ≡ residue base n+(base-1-residue base n) [MOD base-1] :=
    (residue_modEq n).symm.add_right _
  rw [Nat.add_sub_cancel' (by omega)] at hsum
  rw [hsum,Nat.mod_self]

end

end IdearNiu.OnesComplement
