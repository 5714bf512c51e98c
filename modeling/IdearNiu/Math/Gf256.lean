import Mathlib.Tactic

namespace IdearNiu.Gf256

/-- The rows and columns are numbered by Fin 4. -/
scoped instance four_ne_zero : NeZero 4 := ⟨by decide⟩

/-- Multiplication by x in GF(2)[x]/(x^8+x^4+x^3+x+1). -/
def xtime (a : BitVec 8) : BitVec 8 := a<<<1^^^bif a.msb then 0x1b else 0

def times3 (a : BitVec 8) : BitVec 8 := xtime a^^^a

def times9 (a : BitVec 8) : BitVec 8 := xtime (xtime (xtime a))^^^a

def times11 (a : BitVec 8) : BitVec 8 := xtime (xtime (xtime a))^^^xtime a^^^a

def times13 (a : BitVec 8) : BitVec 8 := xtime (xtime (xtime a))^^^xtime (xtime a)^^^a

def times14 (a : BitVec 8) : BitVec 8 :=
  xtime (xtime (xtime a))^^^xtime (xtime a)^^^xtime a

theorem xor_pairs {w : Nat} (a b c d : BitVec w) : a^^^b^^^(c^^^d)=a^^^c^^^(b^^^d) := by
  ac_rfl

/-- The part of a byte at one bit. -/
def bitPart (x : BitVec 8) (i : Nat) : BitVec 8 := bif x.getLsbD i then 1<<<i else 0

theorem bitPart_sum (x : BitVec 8) :
    bitPart x 0^^^bitPart x 1^^^bitPart x 2^^^bitPart x 3^^^
    bitPart x 4^^^bitPart x 5^^^bitPart x 6^^^bitPart x 7=x := by
  revert x
  decide

/-- Two additive functions of a byte are equal when they agree on the single bits. -/
theorem additive_ext {w : Nat} (f g : BitVec 8 → BitVec w)
    (hf : ∀ x y,f (x^^^y)=f x^^^f y) (hg : ∀ x y,g (x^^^y)=g x^^^g y)
    (h : ∀ i<8,f (1<<<i)=g (1<<<i)) (x : BitVec 8) : f x=g x := by
  have hzero (k : BitVec 8 → BitVec w) (hk : ∀ x y,k (x^^^y)=k x^^^k y) : k 0=0 := by
    simpa using hk 0 0
  have hpart (i : Nat) (hi : i<8) : f (bitPart x i)=g (bitPart x i) := by
    rw [bitPart]
    cases x.getLsbD i
    · exact (hzero f hf).trans (hzero g hg).symm
    · exact h i hi
  rw [← bitPart_sum x]
  simp only [hf,hg]
  rw [hpart 0 (by omega),hpart 1 (by omega),hpart 2 (by omega),hpart 3 (by omega),
    hpart 4 (by omega),hpart 5 (by omega),hpart 6 (by omega),hpart 7 (by omega)]

theorem xtime_xor (a b : BitVec 8) : xtime (a^^^b)=xtime a^^^xtime b := by
  simp only [xtime]
  rw [BitVec.shiftLeft_xor_distrib,BitVec.msb_xor,xor_pairs]
  congr 1
  cases a.msb <;> cases b.msb <;> decide

theorem times3_xor (a b : BitVec 8) : times3 (a^^^b)=times3 a^^^times3 b := by
  simp only [times3,xtime_xor]
  ac_rfl

theorem times9_xor (a b : BitVec 8) : times9 (a^^^b)=times9 a^^^times9 b := by
  simp only [times9,xtime_xor]
  ac_rfl

theorem times11_xor (a b : BitVec 8) : times11 (a^^^b)=times11 a^^^times11 b := by
  simp only [times11,xtime_xor]
  ac_rfl

theorem times13_xor (a b : BitVec 8) : times13 (a^^^b)=times13 a^^^times13 b := by
  simp only [times13,xtime_xor]
  ac_rfl

theorem times14_xor (a b : BitVec 8) : times14 (a^^^b)=times14 a^^^times14 b := by
  simp only [times14,xtime_xor]
  ac_rfl

/-- A word from its four bytes, the most significant first. -/
def join (a b c d : BitVec 8) : BitVec 32 := a++b++c++d

/-- The n-th byte of a word, the least significant first. -/
def byte (w : BitVec 32) (n : Nat) : BitVec 8 := (w>>>(8*n)).setWidth 8

theorem byte_xor (v w : BitVec 32) (n : Nat) : byte (v^^^w) n=byte v n^^^byte w n := by
  simp only [byte]
  rw [BitVec.ushiftRight_xor_distrib,BitVec.setWidth_xor]

theorem join_xor (a b c d a' b' c' d' : BitVec 8) :
    join (a^^^a') (b^^^b') (c^^^c') (d^^^d')=join a b c d^^^join a' b' c' d' := by
  simp only [join]
  rw [BitVec.xor_append,BitVec.xor_append,BitVec.xor_append]

theorem byte_getLsbD (w : BitVec 32) (n i : Nat) (hi : i<8) :
    (byte w n).getLsbD i=w.getLsbD (8*n+i) := by
  simp [byte,hi]

theorem join_getLsbD (a b c d : BitVec 8) (i : Nat) :
    (join a b c d).getLsbD i=
      if i<8 then d.getLsbD i
      else if i-8<8 then c.getLsbD (i-8)
      else if i-8-8<8 then b.getLsbD (i-8-8)
      else a.getLsbD (i-8-8-8) := by
  rw [join]
  simp only [BitVec.getLsbD_append]

theorem byte_join (a b c d : BitVec 8) :
    byte (join a b c d) 0=d ∧ byte (join a b c d) 1=c ∧
    byte (join a b c d) 2=b ∧ byte (join a b c d) 3=a := by
  refine ⟨?_,?_,?_,?_⟩ <;> apply BitVec.eq_of_getLsbD_eq <;> intro i hi
  · rw [byte_getLsbD _ _ _ hi,join_getLsbD,if_pos (by omega)]
    congr 1
    omega
  · rw [byte_getLsbD _ _ _ hi,join_getLsbD,if_neg (by omega),if_pos (by omega)]
    congr 1
    omega
  · rw [byte_getLsbD _ _ _ hi,join_getLsbD,if_neg (by omega),if_neg (by omega),
      if_pos (by omega)]
    congr 1
    omega
  · rw [byte_getLsbD _ _ _ hi,join_getLsbD,if_neg (by omega),if_neg (by omega),
      if_neg (by omega)]
    congr 1
    omega

theorem join_byte (w : BitVec 32) : join (byte w 3) (byte w 2) (byte w 1) (byte w 0)=w := by
  apply BitVec.eq_of_getLsbD_eq
  intro i hi
  rw [join_getLsbD]
  split_ifs with h0 h1 h2
  · rw [byte_getLsbD _ _ _ h0,show 8*0+i=i by omega]
  · rw [byte_getLsbD _ _ _ h1,show 8*1+(i-8)=i by omega]
  · rw [byte_getLsbD _ _ _ h2,show 8*2+(i-8-8)=i by omega]
  · rw [byte_getLsbD _ _ _ (by omega),show 8*3+(i-8-8-8)=i by omega]

/-- The four columns of MixColumns, each applied to one byte. -/
def mixColumn (k : Fin 4) (y : BitVec 8) : BitVec 32 :=
  match k with
  | 0 => join (xtime y) y y (times3 y)
  | 1 => join (times3 y) (xtime y) y y
  | 2 => join y (times3 y) (xtime y) y
  | 3 => join y y (times3 y) (xtime y)

/-- The four columns of InvMixColumns, each applied to one byte. -/
def invMixColumn (k : Fin 4) (y : BitVec 8) : BitVec 32 :=
  match k with
  | 0 => join (times14 y) (times9 y) (times13 y) (times11 y)
  | 1 => join (times11 y) (times14 y) (times9 y) (times13 y)
  | 2 => join (times13 y) (times11 y) (times14 y) (times9 y)
  | 3 => join (times9 y) (times13 y) (times11 y) (times14 y)

/-- InvMixColumns of a word. -/
def invMix (w : BitVec 32) : BitVec 32 :=
  invMixColumn 0 (byte w 3)^^^invMixColumn 1 (byte w 2)^^^
  invMixColumn 2 (byte w 1)^^^invMixColumn 3 (byte w 0)

theorem mixColumn_xor (k : Fin 4) (x y : BitVec 8) :
    mixColumn k (x^^^y)=mixColumn k x^^^mixColumn k y := by
  fin_cases k <;> simp only [mixColumn,xtime_xor,times3_xor,join_xor]

theorem invMixColumn_xor (k : Fin 4) (x y : BitVec 8) :
    invMixColumn k (x^^^y)=invMixColumn k x^^^invMixColumn k y := by
  fin_cases k <;>
    simp only [invMixColumn,times9_xor,times11_xor,times13_xor,times14_xor,join_xor]

theorem invMix_xor (v w : BitVec 32) : invMix (v^^^w)=invMix v^^^invMix w := by
  simp only [invMix]
  simp only [byte_xor,invMixColumn_xor]
  ac_rfl

/-- A byte at one place of a word. -/
def place (k : Fin 4) (y : BitVec 8) : BitVec 32 :=
  match k with
  | 0 => join y 0 0 0
  | 1 => join 0 y 0 0
  | 2 => join 0 0 y 0
  | 3 => join 0 0 0 y

theorem place_xor (k : Fin 4) (x y : BitVec 8) : place k (x^^^y)=place k x^^^place k y := by
  fin_cases k <;> simp only [place,← join_xor] <;> rfl

theorem join_eq_places (a b c d : BitVec 8) :
    join a b c d=place 0 a^^^place 1 b^^^place 2 c^^^place 3 d := by
  simp only [place,← join_xor]
  simp

/-- InvMixColumns undoes MixColumns, column by column. -/
theorem invMix_mixColumn (k : Fin 4) (y : BitVec 8) : invMix (mixColumn k y)=place k y := by
  refine additive_ext (fun y => invMix (mixColumn k y)) (place k) ?_ (place_xor k) ?_ y
  · intro x y
    simp only [mixColumn_xor,invMix_xor]
  · revert k
    decide

/-- Masking one byte out of four equal ones. -/
theorem join_masked (y : BitVec 8) :
    join y y y y&&&0xff000000=place 0 y ∧ join y y y y&&&0x00ff0000=place 1 y ∧
    join y y y y&&&0x0000ff00=place 2 y ∧ join y y y y&&&0x000000ff=place 3 y := by
  revert y
  decide

/-- The sum of the multiples of a by the powers of x that b has among its low n bits. -/
def mulBits : Nat → BitVec 8 → BitVec 8 → BitVec 8
  | 0,_,_ => 0
  | n+1,a,b => (bif b.getLsbD 0 then a else 0)^^^mulBits n (xtime a) (b>>>1)

/-- The product in GF(2)[x]/(x^8+x^4+x^3+x+1). -/
def mul (a b : BitVec 8) : BitVec 8 := mulBits 8 a b

theorem mulBits_xor_left (n : Nat) (a a' b : BitVec 8) :
    mulBits n (a^^^a') b=mulBits n a b^^^mulBits n a' b := by
  induction n generalizing a a' b with
  | zero => simp [mulBits]
  | succ n ih =>
    simp only [mulBits]
    rw [xtime_xor,ih,xor_pairs]
    cases b.getLsbD 0 <;> simp

theorem mulBits_xor_right (n : Nat) (a b b' : BitVec 8) :
    mulBits n a (b^^^b')=mulBits n a b^^^mulBits n a b' := by
  induction n generalizing a b b' with
  | zero => simp [mulBits]
  | succ n ih =>
    simp only [mulBits]
    rw [BitVec.ushiftRight_xor_distrib,ih,BitVec.getLsbD_xor,xor_pairs]
    cases b.getLsbD 0 <;> cases b'.getLsbD 0 <;> simp

theorem mulBits_xtime (n : Nat) (a b : BitVec 8) :
    mulBits n (xtime a) b=xtime (mulBits n a b) := by
  have hzero : xtime 0=0 := by decide
  induction n generalizing a b with
  | zero => exact hzero.symm
  | succ n ih =>
    simp only [mulBits]
    rw [ih,xtime_xor]
    cases b.getLsbD 0
    · simp only [cond_false,hzero]
    · rfl

theorem mul_iterate (i : Nat) (a b : BitVec 8) : mul (xtime^[i] a) b=xtime^[i] (mul a b) := by
  induction i with
  | zero => rfl
  | succ i ih =>
    rw [Function.iterate_succ_apply',Function.iterate_succ_apply',← ih]
    exact mulBits_xtime 8 _ b

theorem mul_bit (a : BitVec 8) (i : Nat) (hi : i<8) : mul a (1<<<i)=xtime^[i] a := by
  interval_cases i <;> simp [mul,mulBits]

protected theorem one_mul (b : BitVec 8) : mul 1 b=b :=
  additive_ext (mul 1) (fun b => b) (mulBits_xor_right 8 1) (fun _ _ => rfl) (by decide) b

theorem bit_eq_iterate (i : Nat) (hi : i<8) : (1<<<i : BitVec 8)=xtime^[i] 1 := by
  revert i
  decide

protected theorem mul_comm (a b : BitVec 8) : mul a b=mul b a := by
  refine additive_ext (mul a) (fun b => mul b a) (mulBits_xor_right 8 a)
    (fun x y => mulBits_xor_left 8 x y a) (fun i hi => ?_) b
  rw [mul_bit a i hi,bit_eq_iterate i hi,mul_iterate,Gf256.one_mul]

protected theorem mul_assoc (a b c : BitVec 8) : mul (mul a b) c=mul a (mul b c) := by
  refine additive_ext (mul (mul a b)) (fun c => mul a (mul b c)) (mulBits_xor_right 8 _)
    (fun x y => ?_) (fun i hi => ?_) c
  · rw [show mul b (x^^^y)=mul b x^^^mul b y from mulBits_xor_right 8 b x y]
    exact mulBits_xor_right 8 a _ _
  · rw [mul_bit _ i hi,mul_bit b i hi,Gf256.mul_comm a (xtime^[i] b),mul_iterate,Gf256.mul_comm b a]

/-- The byte whose product with a is 1; 0 for 0. -/
def inverse (a : BitVec 8) : BitVec 8 :=
  (((List.range 256).map (BitVec.ofNat 8)).find? (fun b => mul a b=1)).getD 0

theorem inverse_eq (a b : BitVec 8) (h : mul a b=1) : inverse a=b := by
  have hmem : b∈(List.range 256).map (BitVec.ofNat 8) :=
    List.mem_map.mpr ⟨b.toNat,List.mem_range.mpr b.isLt,BitVec.ofNat_toNat 8 b ▸
      BitVec.setWidth_eq b⟩
  obtain ⟨c,hc⟩ := Option.isSome_iff_exists.mp (List.find?_isSome.mpr
    ⟨b,hmem,by simpa using h⟩ :
    (((List.range 256).map (BitVec.ofNat 8)).find? (fun b => mul a b=1)).isSome=true)
  have hac : mul a c=1 := by simpa using List.find?_some hc
  -- both are inverses, so each is the other times 1
  have hbc : c=b := by
    calc c=mul 1 c := (Gf256.one_mul c).symm
      _=mul (mul a b) c := by rw [h]
      _=mul b (mul a c) := by rw [Gf256.mul_comm a b,Gf256.mul_assoc]
      _=b := by rw [hac,Gf256.mul_comm,Gf256.one_mul]
  rw [inverse,hc,Option.getD_some,hbc]

theorem inverse_zero : inverse 0=0 := by
  have hzero : ∀ b,mul 0 b=0 := by
    intro b
    have hadd := mulBits_xor_left 8 0 0 b
    rw [BitVec.xor_self,BitVec.xor_self] at hadd
    exact hadd
  rw [inverse,List.find?_eq_none.mpr]
  · rfl
  · intro b _
    rw [hzero]
    decide

theorem mul_two (a : BitVec 8) : mul 2 a=xtime a := by
  rw [Gf256.mul_comm]
  exact mul_bit a 1 (by decide)

theorem mul_three (a : BitVec 8) : mul 3 a=times3 a := by
  have hadd : mul (2^^^1) a=mul 2 a^^^mul 1 a := mulBits_xor_left 8 2 1 a
  rw [mul_two,Gf256.one_mul] at hadd
  exact hadd

end IdearNiu.Gf256
