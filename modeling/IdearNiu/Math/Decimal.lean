import Mathlib.Data.Nat.Digits.Lemmas

namespace IdearNiu.Decimal

/-- The decimal digits of a number from the first on; zero has one digit. -/
def digits (n : Nat) : List Nat := if n=0 then [0] else (Nat.digits 10 n).reverse

/-- The digits as characters. -/
def text (n : Nat) : List (BitVec 8) := (digits n).map (fun d => BitVec.ofNat 8 (0x30+d))

/-- The number that digits read from the first on add up to, after what was read before. -/
def value (n : Nat) (ds : List Nat) : Nat := ds.foldl (fun n d => n*10+d) n

theorem value_cons (n d : Nat) (ds : List Nat) : value n (d::ds)=value (n*10+d) ds := rfl

theorem value_digits (n : Nat) : value 0 (digits n)=n := by
  rw [digits]
  split
  case isTrue h => exact h.symm
  case isFalse h =>
    have hn := Nat.ofDigits_digits 10 n
    rw [Nat.ofDigits_eq_foldr] at hn
    rw [value,List.foldl_reverse]
    simpa [mul_comm,add_comm] using hn

theorem digits_lt (n : Nat) : ∀ d∈digits n,d<10 := by
  intro d hd
  rw [digits] at hd
  split at hd
  · rw [List.mem_singleton.mp hd]
    decide
  · exact Nat.digits_lt_base (by decide) (List.mem_reverse.mp hd)

/-- Only the number zero starts with the digit zero. -/
theorem digits_cases (n : Nat) : n=0 ∧ digits n=[0] ∨ ∃ d ds,digits n=d::ds ∧ d≠0 := by
  by_cases hn : n=0
  · exact Or.inl ⟨hn,by rw [digits,if_pos hn]⟩
  · have hne : (Nat.digits 10 n).reverse≠[] := by
      simpa using Nat.digits_ne_nil_iff_ne_zero.mpr hn
    obtain ⟨d,ds,hd⟩ := List.exists_cons_of_ne_nil hne
    refine Or.inr ⟨d,ds,by rw [digits,if_neg hn,hd],?_⟩
    have hlast := Nat.getLast_digit_ne_zero 10 hn
    rw [← List.head_reverse hne] at hlast
    simpa only [hd,List.head_cons] using hlast

theorem digits_ne_nil (n : Nat) : digits n≠[] := by
  rcases digits_cases n with ⟨_,h⟩|⟨d,ds,h,_⟩ <;> rw [h] <;> exact List.cons_ne_nil _ _

/-- What is read of a number's digits is never more than the number. -/
theorem le_value (n : Nat) (ds : List Nat) : n≤value n ds := by
  induction ds generalizing n with
  | nil => exact Nat.le_refl n
  | cons d ds ih =>
    rw [value_cons]
    exact Nat.le_trans (by omega) (ih (n*10+d))

end IdearNiu.Decimal
