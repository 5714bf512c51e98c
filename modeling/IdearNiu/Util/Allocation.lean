import IdearNiu.Framework.Words

namespace IdearNiu.Allocation

open Words

/-- size_t of a 64-bit host. -/
abbrev Size := BitVec 64

/-- The bytes that xmalloc asks malloc for: the size as an int, zero raised to one, and the
int as a size_t. -/
def request (size : Size) : Nat :=
  let int : BitVec 32 := size.setWidth 32
  let int := if int=0 then int+1 else int
  (int.signExtend 64).toNat

/-- xmalloc takes an int; malloc says which block sizes the allocator gives. -/
def xmalloc (malloc : Nat → Bool) (size : Size) : Option Nat :=
  if malloc (request size) then some (request size) else none

/-- What becomes of a call of xmalloc whose block is then written from end to end. -/
inductive Block where
  | full
  | aborted
  | overrun
  deriving DecidableEq, Repr

/-- An allocator that has every block below 2^63 bytes, which is what a negative int asks for
at least; written is the number of bytes that the caller puts into the block. -/
def block (size : Size) (written : Nat) : Block :=
  match xmalloc (fun bytes => decide (bytes<2^63)) size with
  | none => .aborted
  | some bytes => if written≤bytes then .full else .overrun

/-- The sign of the int decides what the conversion to size_t gives. -/
theorem request_eq (size : Size) :
    request size=
      if size.toNat%2^32=0 then 1
      else if size.toNat%2^32<2^31 then size.toNat%2^32
      else 2^64-2^32+size.toNat%2^32 := by
  have hint : (size.setWidth 32).toNat=size.toNat%2^32 := BitVec.toNat_setWidth 32 size
  have hlt : size.toNat%2^32<2^32 := Nat.mod_lt _ (by decide)
  rw [request]
  generalize size.setWidth 32=int at hint
  generalize size.toNat%2^32=n at hint hlt
  by_cases hn : n=0
  · have hzero : int=0 := BitVec.eq_of_toNat_eq (by rw [hint,hn]; rfl)
    rw [if_pos hn,if_pos hzero,hzero]
    rfl
  · have hne : int≠0 := by
      intro he
      rw [he] at hint
      exact hn hint.symm
    rw [if_neg hn,if_neg hne]
    by_cases hpos : n<2^31
    · have hmsb : int.msb=false := BitVec.msb_eq_false_iff_two_mul_lt.mpr (by omega)
      rw [if_pos hpos,BitVec.signExtend_eq_setWidth_of_msb_false hmsb,BitVec.toNat_setWidth]
      omega
    · have hmsb : int.msb=true := BitVec.msb_eq_true_iff_two_mul_ge.mpr (by omega)
      rw [if_neg hpos,BitVec.toNat_signExtend,hmsb]
      simp only [if_true,BitVec.toNat_setWidth]
      omega

theorem request_of_lt (size : Size) (h0 : 0 < size.toNat) (h : size.toNat<2^31) :
    request size=size.toNat := by
  rw [request_eq,Nat.mod_eq_of_lt (by omega),if_neg (by omega),if_pos h]

theorem xmalloc_some (malloc : Nat → Bool) (hmalloc : ∀ n,n<2^31 → malloc n=true) (size : Size)
    (h0 : 0 < size.toNat) (h : size.toNat<2^31) : xmalloc malloc size=some size.toNat := by
  rw [xmalloc,request_of_lt size h0 h,if_pos (hmalloc _ h)]

theorem block_eq (size : Size) (written : Nat) :
    block size written=
      if 2^31 ≤ size.toNat%2^32 then .aborted
      else if written ≤ max 1 (size.toNat%2^32) then .full else .overrun := by
  have hlt : size.toNat%2^32<2^32 := Nat.mod_lt _ (by decide)
  rw [block,xmalloc,request_eq]
  generalize size.toNat%2^32=n at hlt
  by_cases hn : 2^31≤n
  · have hbytes : (if n=0 then 1 else if n<2^31 then n else 2^64-2^32+n)=2^64-2^32+n := by
      split_ifs <;> omega
    have hrefused : ¬decide (2^64-2^32+n<2^63)=true := by
      rw [decide_eq_true_eq]
      omega
    rw [hbytes,if_neg hrefused,if_pos hn]
  · have hbytes : (if n=0 then 1 else if n<2^31 then n else 2^64-2^32+n)=max 1 n := by
      split_ifs <;> omega
    rw [hbytes,if_pos (decide_eq_true (by omega)),if_neg hn]

/-- What is asked for is got just when it is less than 2^31 bytes: from there on the int is
negative, or it is smaller than the number was. -/
theorem block_full_iff (n : Nat) : block (BitVec.ofNat 64 n) n=.full ↔ n<2^31 := by
  have hmod : (BitVec.ofNat 64 n).toNat%2^32=n%2^32 := by
    rw [BitVec.toNat_ofNat]
    omega
  rw [block_eq,hmod]
  by_cases habort : 2^31≤n%2^32
  · rw [if_pos habort]
    exact iff_of_false (by decide) (by omega)
  · rw [if_neg habort]
    by_cases hroom : n ≤ max 1 (n%2^32)
    · rw [if_pos hroom]
      exact iff_of_true rfl (by omega)
    · rw [if_neg hroom]
      exact iff_of_false (by decide) (by omega)

theorem ofInt_int32 (n : Nat) :
    (BitVec.ofInt 64 (int32 n)).toNat%2^32=(BitVec.ofNat 64 n).toNat%2^32 := by
  have hmod := int32_emod n
  rw [BitVec.toNat_ofInt,BitVec.toNat_ofNat]
  generalize int32 n=m at hmod
  omega

/-- An int asks for the same block as the number it was made from. -/
theorem block_int32 (n written : Nat) :
    block (BitVec.ofInt 64 (int32 n)) written=block (BitVec.ofNat 64 n) written := by
  rw [block_eq,block_eq,ofInt_int32]

end IdearNiu.Allocation
