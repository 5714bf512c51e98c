import Mathlib.Tactic

namespace IdearNiu.WordMixing

variable {w : Nat}

/-- A word added to itself shifted up. -/
def addShifted (k : Nat) (x : BitVec w) : BitVec w := x+(x<<<k)

/-- A word exclusive-ored with itself shifted down. -/
def xorShifted (k : Nat) (x : BitVec w) : BitVec w := x^^^(x>>>k)

theorem toNat_addShifted (k : Nat) (x : BitVec w) :
    (addShifted k x).toNat=x.toNat*(1+2^k)%2^w := by
  rw [addShifted,BitVec.toNat_add,BitVec.toNat_shiftLeft,Nat.shiftLeft_eq,Nat.add_mod_mod]
  congr 1
  ring

/-- Adding a shifted copy multiplies by an odd number, which is a unit. -/
theorem addShifted_injective (k : Nat) (hk : 0<k) :
    Function.Injective (addShifted k : BitVec w → BitVec w) := by
  intro x y h
  have hmod : x.toNat*(1+2^k)≡y.toNat*(1+2^k) [MOD 2^w] := by
    have := congrArg BitVec.toNat h
    rwa [toNat_addShifted,toNat_addShifted] at this
  have hodd : Odd (1+2^k) := by
    obtain ⟨j,rfl⟩ : ∃ j,k=j+1 := ⟨k-1,by omega⟩
    exact ⟨2^j,by ring⟩
  have hunit : Nat.gcd (2^w) (1+2^k)=1 :=
    Nat.Coprime.pow_left w ((Nat.coprime_two_left).mpr hodd)
  have := Nat.ModEq.cancel_right_of_coprime hunit hmod
  apply BitVec.eq_of_toNat_eq
  rwa [Nat.ModEq,Nat.mod_eq_of_lt x.isLt,Nat.mod_eq_of_lt y.isLt] at this

/-- The top bits pass through, and each lower bit is recovered from one above it. -/
theorem xorShifted_injective (k : Nat) (hk : 0<k) :
    Function.Injective (xorShifted k : BitVec w → BitVec w) := by
  intro x y h
  have hbit : ∀ d i,w-i=d → x.getLsbD i=y.getLsbD i := by
    intro d
    induction d using Nat.strong_induction_on with
    | _ d ih =>
      intro i hi
      by_cases hw : w ≤ i
      · rw [BitVec.getLsbD_of_ge _ _ hw,BitVec.getLsbD_of_ge _ _ hw]
      · have habove : x.getLsbD (k+i)=y.getLsbD (k+i) := ih (w-(k+i)) (by omega) (k+i) rfl
        have hhere := congrArg (fun z => z.getLsbD i) h
        simp only [xorShifted,BitVec.getLsbD_xor,BitVec.getLsbD_ushiftRight,habove] at hhere
        exact (Bool.xor_left_inj).mp hhere
  apply BitVec.eq_of_getLsbD_eq
  intro i _
  exact hbit (w-i) i rfl

end IdearNiu.WordMixing
