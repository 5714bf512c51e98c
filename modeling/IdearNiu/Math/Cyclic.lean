import Mathlib.Tactic

namespace IdearNiu.Cyclic

/-- Forward distance from a to b on a cycle of n positions. -/
def dist (n a b : Nat) : Nat := if a≤b then b-a else b+n-a

/-- The successor position, wrapping back to zero after the last one. -/
def next (n a : Nat) : Nat := if a≠n-1 then a+1 else 0

theorem dist_spec (n a b : Nat) (ha : a<n) (hb : b<n) :
    dist n a b<n ∧ (a+dist n a b=b ∨ a+dist n a b=b+n) := by
  rw [dist]
  split_ifs <;> omega

theorem next_spec (n a : Nat) (ha : a<n) :
    next n a<n ∧ (next n a=a+1 ∨ next n a+n=a+1) := by
  rw [next]
  split_ifs <;> omega

theorem dist_self (n a : Nat) : dist n a a=0 := by simp [dist]

theorem dist_eq_zero (n a b : Nat) (ha : a<n) (hb : b<n) (h : dist n a b=0) : a=b := by
  have d := dist_spec n a b ha hb
  omega

theorem dist_inj (n a b c : Nat) (ha : a<n) (hb : b<n) (hc : c<n)
    (h : dist n a b=dist n a c) : b=c := by
  have d := dist_spec n a b ha hb
  have e := dist_spec n a c ha hc
  omega

theorem dist_next_right (n a b : Nat) (ha : a<n) (hb : b<n) (h : next n b≠a) :
    dist n a (next n b)=dist n a b+1 := by
  have s := next_spec n b hb
  have d := dist_spec n a b ha hb
  have e := dist_spec n a (next n b) ha s.1
  omega

theorem dist_next_left (n a b : Nat) (ha : a<n) (hb : b<n) (h : a≠b) :
    dist n a b=dist n (next n a) b+1 := by
  have s := next_spec n a ha
  have d := dist_spec n a b ha hb
  have e := dist_spec n (next n a) b s.1 hb
  omega

/-- Distances through an intermediate position add up, possibly with one turn. -/
theorem dist_triangle (n a b c : Nat) (ha : a<n) (hb : b<n) (hc : c<n) :
    dist n a b+dist n b c=dist n a c ∨ dist n a b+dist n b c=dist n a c+n := by
  have d := dist_spec n a b ha hb
  have e := dist_spec n b c hb hc
  have f := dist_spec n a c ha hc
  omega

/-- A way from s over y to a position i outside the stretch from y to e leads over e. -/
theorem dist_cross (n p y e i s : Nat) (hp : p<n) (hy : y<n) (he : e<n) (hi : i<n) (hs : s<n)
    (hye : dist n p y≤dist n p e) (hside : dist n p i<dist n p y ∨ dist n p e<dist n p i)
    (hpath : dist n s y<dist n s i) : dist n s e<dist n s i := by
  have hyi := (dist_spec n y i hy hi).1
  have hfirst : dist n y e<dist n y i := by
    have t1 := dist_triangle n p y e hp hy he
    have t2 := dist_triangle n p y i hp hy hi
    have b1 := (dist_spec n y e hy he).1
    have b2 := (dist_spec n p e hp he).1
    omega
  have t1 := dist_triangle n s y i hs hy hi
  have t2 := dist_triangle n s y e hs hy he
  omega

end IdearNiu.Cyclic
