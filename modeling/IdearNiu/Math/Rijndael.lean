import IdearNiu.Math.Gf256
import Mathlib.Data.List.GetD

namespace IdearNiu.Rijndael

open Gf256

/-- Bit i of the result is the sum of the bits i, i+4, i+5, i+6 and i+7 modulo 8 and of
bit i of 0x63. -/
def affine (b : BitVec 8) : BitVec 8 :=
  b^^^b.rotateLeft 1^^^b.rotateLeft 2^^^b.rotateLeft 3^^^b.rotateLeft 4^^^0x63

def sBox (a : BitVec 8) : BitVec 8 := affine (inverse a)

/-- Four rows and four columns of bytes. -/
abbrev State := Fin 4 → Fin 4 → BitVec 8

def subBytes (s : State) : State := fun r c => sBox (s r c)

def shiftRows (s : State) : State := fun r c => s r (c+r)

def mixColumns (s : State) : State :=
  fun r c => mul 2 (s r c)^^^mul 3 (s (r+1) c)^^^s (r+2) c^^^s (r+3) c

/-- A word is a column, its most significant byte in row 0. -/
def addRoundKey (w : List (BitVec 32)) (round : Nat) (s : State) : State :=
  fun r c => s r c^^^byte (w.getD (4*round+c) 0) (3-r)

def subWord (w : BitVec 32) : BitVec 32 :=
  join (sBox (byte w 3)) (sBox (byte w 2)) (sBox (byte w 1)) (sBox (byte w 0))

def rotWord (w : BitVec 32) : BitVec 32 := join (byte w 2) (byte w 1) (byte w 0) (byte w 3)

def rcon (i : Nat) : BitVec 32 := join (xtime^[i-1] 1) 0 0 0

/-- What word i of a schedule of nk key words adds to word i-nk, from word i-1. -/
def schedule (nk i : Nat) (temp : BitVec 32) : BitVec 32 :=
  if i%nk=0 then subWord (rotWord temp)^^^rcon (i/nk)
  else if 6<nk ∧ i%nk=4 then subWord temp
  else temp

def extend (nk : Nat) (w : List (BitVec 32)) : List (BitVec 32) :=
  w++[w.getD (w.length-nk) 0^^^schedule nk w.length (w.getD (w.length-1) 0)]

def keyWords (key : List (BitVec 8)) (nk : Nat) : List (BitVec 32) :=
  (List.range nk).map fun i =>
    join (key.getD (4*i) 0) (key.getD (4*i+1) 0) (key.getD (4*i+2) 0) (key.getD (4*i+3) 0)

/-- A key of nk words is extended to four words for each of the nk+6 rounds and for the
start. -/
def keyExpansion (key : List (BitVec 8)) (nk : Nat) : List (BitVec 32) :=
  (extend nk)^[4*(nk+7)-nk] (keyWords key nk)

def load (input : List (BitVec 8)) : State := fun r c => input.getD (r+4*c) 0

def store (s : State) : List (BitVec 8) :=
  [s 0 0,s 1 0,s 2 0,s 3 0,s 0 1,s 1 1,s 2 1,s 3 1,
   s 0 2,s 1 2,s 2 2,s 3 2,s 0 3,s 1 3,s 2 3,s 3 3]

def rounds (w : List (BitVec 32)) (s : State) : Nat → State
  | 0 => addRoundKey w 0 s
  | n+1 => addRoundKey w (n+1) (mixColumns (shiftRows (subBytes (rounds w s n))))

/-- The cipher with nr rounds, the last of them without mixColumns. -/
def cipher (w : List (BitVec 32)) (nr : Nat) (input : List (BitVec 8)) : List (BitVec 8) :=
  store (addRoundKey w nr (shiftRows (subBytes (rounds w (load input) (nr-1)))))

/-- The advanced encryption standard: a block under a key of 16, 24 or 32 bytes. -/
def encrypt (key block : List (BitVec 8)) : List (BitVec 8) :=
  cipher (keyExpansion key (key.length/4)) (key.length/4+6) block

/-- Away from the positions of the schedule a word is added to the one before it. -/
theorem extend_plain (nk c : Nat) (u : List (BitVec 32)) (x : BitVec 32)
    (hl : u.length+1=c+nk) (hs : ∀ t,schedule nk (c+nk) t=t) :
    extend nk (u++[x])=u++[x]++[(u++[x]).getD c 0^^^x] := by
  have hlen : (u++[x]).length=c+nk := by
    rw [List.length_append,List.length_singleton,hl]
  have hlast : (u++[x]).getD (c+nk-1) 0=x := by
    rw [List.getD,List.getElem?_append_right (by omega),show c+nk-1-u.length=0 by omega]
    rfl
  rw [extend,hlen,hs,hlast,Nat.add_sub_cancel]

/-- Four steps at once: the first takes its summand from the schedule, the next three
from the word before them. -/
theorem extend_four (nk b : Nat) (w : List (BitVec 32)) (hnk : 4≤nk) (hl : w.length=b+nk)
    (hplain : ∀ k t,0<k → k<4 → schedule nk (b+k+nk) t=t) :
    (extend nk)^[4] w=
      let w0 := w.getD b 0^^^schedule nk (b+nk) (w.getD (b+nk-1) 0)
      let w1 := w.getD (b+1) 0^^^w0
      let w2 := w.getD (b+2) 0^^^w1
      let w3 := w.getD (b+3) 0^^^w2
      w++[w0,w1,w2,w3] := by
  have hold (l : List (BitVec 32)) (i : Nat) (hi : i<b+nk) :
      (w++l).getD i 0=w.getD i 0 := by
    rw [List.getD,List.getD,List.getElem?_append_left (by omega)]
  have hfirst : extend nk w=w++[w.getD b 0^^^schedule nk (b+nk) (w.getD (b+nk-1) 0)] := by
    rw [extend,hl,Nat.add_sub_cancel]
  simp only [Function.iterate_succ,Function.iterate_zero,Function.comp_apply,id,hfirst]
  generalize w.getD b 0^^^schedule nk (b+nk) (w.getD (b+nk-1) 0)=w0
  rw [extend_plain nk (b+1) w w0 (by omega) (fun t => hplain 1 t (by decide) (by decide)),
    hold _ _ (by omega)]
  generalize w.getD (b+1) 0^^^w0=w1
  rw [extend_plain nk (b+2) (w++[w0]) w1 (by simp; omega)
    (fun t => hplain 2 t (by decide) (by decide)),List.append_assoc w,hold _ _ (by omega)]
  generalize w.getD (b+2) 0^^^w1=w2
  rw [extend_plain nk (b+3) (w++([w0]++[w1])) w2 (by simp; omega)
    (fun t => hplain 3 t (by decide) (by decide)),List.append_assoc w,hold _ _ (by omega)]
  simp only [List.append_assoc,List.cons_append,List.nil_append]

theorem extend_length (nk : Nat) (w : List (BitVec 32)) : (extend nk w).length=w.length+1 := by
  rw [extend,List.length_append,List.length_singleton]

theorem extend_iterate_length (nk n : Nat) (w : List (BitVec 32)) :
    ((extend nk)^[n] w).length=w.length+n := by
  induction n generalizing w with
  | zero => rfl
  | succ n ih =>
    rw [Function.iterate_succ_apply,ih,extend_length]
    omega

theorem keyExpansion_length (key : List (BitVec 8)) (nk : Nat) :
    (keyExpansion key nk).length=4*(nk+7) := by
  rw [keyExpansion,extend_iterate_length,keyWords,List.length_map,List.length_range]
  omega

/-- Words behind the schedule are not looked at. -/
theorem addRoundKey_append (w junk : List (BitVec 32)) (round : Nat) (s : State)
    (h : 4*(round+1)≤w.length) : addRoundKey (w++junk) round s=addRoundKey w round s := by
  funext r c
  rw [addRoundKey,addRoundKey,List.getD_append _ _ _ _ (by omega)]

theorem rounds_append (w junk : List (BitVec 32)) (s : State) (n : Nat)
    (h : 4*(n+1)≤w.length) : rounds (w++junk) s n=rounds w s n := by
  induction n with
  | zero => exact addRoundKey_append w junk 0 s h
  | succ n ih => rw [rounds,rounds,ih (by omega),addRoundKey_append w junk (n+1) _ h]

theorem cipher_append (w junk : List (BitVec 32)) (nr : Nat) (input : List (BitVec 8))
    (h : 4*(nr+1)≤w.length) : cipher (w++junk) nr input=cipher w nr input := by
  rw [cipher,cipher,rounds_append w junk _ _ (by omega),addRoundKey_append w junk nr _ h]

end IdearNiu.Rijndael
