import Mathlib.Tactic

namespace IdearNiu.Words

abbrev Byte := BitVec 8

/-- The bytes of an ASCII text. -/
def letters (text : String) : List Byte := text.toList.map (fun c => BitVec.ofNat 8 c.toNat)

/-- What a variable of type int keeps of a result. -/
def int32 (n : Int) : Int := Int.bmod n (2^32)

/-- The conversion of an int to size_t on a 64-bit host. -/
def toSize (n : Int) : Nat := (n%2^64).toNat

theorem int32_range (n : Int) : -2^31 ≤ int32 n ∧ int32 n<2^31 := by
  rw [int32,Int.bmod]
  split_ifs <;> omega

theorem int32_of_range (n : Int) (hmin : -2^31 ≤ n) (hmax : n<2^31) : int32 n=n := by
  rw [int32,Int.bmod]
  split_ifs <;> omega

theorem int32_of_lt (n : Nat) (h : n<2^31) : int32 n=n := int32_of_range n (by omega) (by omega)

/-- The sign of the int is the bit 31 of the number. -/
theorem int32_natCast_iff (n : Nat) :
    (int32 n=n ↔ n<2^31) ∧ (int32 n<0 ↔ 2^31≤n%2^32) := by
  rw [int32,Int.bmod]
  constructor
  · split_ifs <;> omega
  · split_ifs <;> omega

theorem int32_emod (n : Nat) : int32 n%2^32=n%2^32 := by
  rw [int32,Int.bmod]
  split_ifs <;> omega

theorem int32_neg_iff (n : Nat) : int32 (-n)<0 ↔ 0<n%2^32 ∧ n%2^32≤2^31 := by
  rw [int32,Int.bmod]
  split_ifs <;> omega

/-- A sum that is kept in an int may be wrapped once at its end. -/
theorem int32_add_left (m n : Int) : int32 (int32 m+n)=int32 (m+n) := Int.bmod_add_bmod

/-- So may a sum over a list. -/
theorem foldl_int32 {α : Type} (f : α → Nat) (l : List α) (n : Nat) :
    l.foldl (fun len a => int32 (len+f a)) (int32 n)=int32 (n+(l.map f).sum : Nat) := by
  induction l generalizing n with
  | nil => rw [List.foldl_nil,List.map_nil,List.sum_nil,Nat.add_zero]
  | cons a l ih =>
    have hstep : int32 (int32 n+f a)=int32 (n+f a : Nat) := by
      rw [int32_add_left,Nat.cast_add]
    rw [List.foldl_cons,hstep,ih,List.map_cons,List.sum_cons,Nat.add_assoc]

theorem toSize_int32 (n : Nat) (h : n<2^31) : toSize (int32 n)=n := by
  rw [int32_of_lt n h,toSize]
  omega

end IdearNiu.Words
