import IdearNiu.Crypto.Sha1Stream
import IdearNiu.Math.SecureHash

set_option linter.style.nameCheck false

namespace IdearNiu.Sha1

/-- The working variables of SHA1Transform. -/
inductive Reg where
  | a
  | b
  | c
  | d
  | e

def Words.read (s : Words) : Reg → Word
  | .a => s.v
  | .b => s.w
  | .c => s.x
  | .d => s.y
  | .e => s.z

def Words.write (s : Words) (r : Reg) (value : Word) : Words :=
  match r with
  | .a => { s with v := value }
  | .b => { s with w := value }
  | .c => { s with x := value }
  | .d => { s with y := value }
  | .e => { s with z := value }

namespace Unrolled

open Reg

/-- The two statements of a macro R0 to R4 with its arguments, on the working variables and
the block. -/
def R (mix : Word → Word → Word → Word) (k : Word)
    (expand : List Word → Nat → List Word × Word) (v w x y z : Reg) (i : Nat)
    (m : Words × List Word) : Words × List Word :=
  let (block,word) := expand m.2 i
  let s := m.1.write z
    (m.1.read z+(mix (m.1.read w) (m.1.read x) (m.1.read y)+word+k+rol (m.1.read v) 5))
  (s.write w (rol (s.read w) 30),block)

def R0 := R mix01 k01 blk0
def R1 := R mix01 k01 blk
def R2 := R mix24 k2 blk
def R3 := R mix3 k3 blk
def R4 := R mix24 k4 blk

/-- The 80 macro calls as they are written. -/
def operations : List (Words × List Word → Words × List Word) := [
  R0 a b c d e 0,R0 e a b c d 1,R0 d e a b c 2,R0 c d e a b 3,
  R0 b c d e a 4,R0 a b c d e 5,R0 e a b c d 6,R0 d e a b c 7,
  R0 c d e a b 8,R0 b c d e a 9,R0 a b c d e 10,R0 e a b c d 11,
  R0 d e a b c 12,R0 c d e a b 13,R0 b c d e a 14,R0 a b c d e 15,
  R1 e a b c d 16,R1 d e a b c 17,R1 c d e a b 18,R1 b c d e a 19,
  R2 a b c d e 20,R2 e a b c d 21,R2 d e a b c 22,R2 c d e a b 23,
  R2 b c d e a 24,R2 a b c d e 25,R2 e a b c d 26,R2 d e a b c 27,
  R2 c d e a b 28,R2 b c d e a 29,R2 a b c d e 30,R2 e a b c d 31,
  R2 d e a b c 32,R2 c d e a b 33,R2 b c d e a 34,R2 a b c d e 35,
  R2 e a b c d 36,R2 d e a b c 37,R2 c d e a b 38,R2 b c d e a 39,
  R3 a b c d e 40,R3 e a b c d 41,R3 d e a b c 42,R3 c d e a b 43,
  R3 b c d e a 44,R3 a b c d e 45,R3 e a b c d 46,R3 d e a b c 47,
  R3 c d e a b 48,R3 b c d e a 49,R3 a b c d e 50,R3 e a b c d 51,
  R3 d e a b c 52,R3 c d e a b 53,R3 b c d e a 54,R3 a b c d e 55,
  R3 e a b c d 56,R3 d e a b c 57,R3 c d e a b 58,R3 b c d e a 59,
  R4 a b c d e 60,R4 e a b c d 61,R4 d e a b c 62,R4 c d e a b 63,
  R4 b c d e a 64,R4 a b c d e 65,R4 e a b c d 66,R4 d e a b c 67,
  R4 c d e a b 68,R4 b c d e a 69,R4 a b c d e 70,R4 e a b c d 71,
  R4 d e a b c 72,R4 c d e a b 73,R4 b c d e a 74,R4 a b c d e 75,
  R4 e a b c d 76,R4 d e a b c 77,R4 c d e a b 78,R4 b c d e a 79]

/-- SHA1Transform, call by call. -/
def sha1Transform (state : Words) (buffer : List Byte) : Words :=
  let r := (operations.foldl (fun m op => op m) (state,loadWords 16 buffer)).1
  ⟨state.v+r.v,state.w+r.w,state.x+r.x,state.y+r.y,state.z+r.z⟩

/-- The variables in the order the next call takes them. -/
def turn (s : Words) : Words := ⟨s.z,s.v,s.w,s.x,s.y⟩

/-- Round i on the variables in the order of its macro arguments. -/
def roundAt (i : Nat) : Words × List Word → Words × List Word :=
  if i<16 then Sha1.R0 i else if i<20 then Sha1.R1 i else if i<40 then Sha1.R2 i
  else if i<60 then Sha1.R3 i else Sha1.R4 i

/-- The macro of call i. -/
def kindAt (i : Nat) : Reg → Reg → Reg → Reg → Reg → Nat →
    Words × List Word → Words × List Word :=
  if i<16 then R0 else if i<20 then R1 else if i<40 then R2 else if i<60 then R3 else R4

/-- Call i: the arguments move on by one place with every call. -/
def callAt (i : Nat) : Words × List Word → Words × List Word :=
  match i%5 with
  | 0 => kindAt i a b c d e i
  | 1 => kindAt i e a b c d i
  | 2 => kindAt i d e a b c i
  | 3 => kindAt i c d e a b i
  | _ => kindAt i b c d e a i

theorem operations_eq : operations=(List.range 80).map callAt := rfl

theorem kindAt_roundAt (i : Nat) :
    ∃ mix k expand,kindAt i=R mix k expand ∧ roundAt i=Sha1.R mix k expand i := by
  simp only [kindAt,roundAt]
  split_ifs
  · exact ⟨_,_,_,rfl,rfl⟩
  · exact ⟨_,_,_,rfl,rfl⟩
  · exact ⟨_,_,_,rfl,rfl⟩
  · exact ⟨_,_,_,rfl,rfl⟩
  · exact ⟨_,_,_,rfl,rfl⟩

/-- A call does on its registers what the round does on the turned variables. -/
theorem callAt_turn (i : Nat) (m : Words × List Word) :
    roundAt i (turn^[i%5] m.1,m.2)=(turn^[(i+1)%5] (callAt i m).1,(callAt i m).2) := by
  obtain ⟨mix,k,expand,hcall,hround⟩ := kindAt_roundAt i
  have hlt : i%5<5 := Nat.mod_lt _ (by decide)
  have hnext : (i+1)%5=(i%5+1)%5 := by omega
  rw [hround,hnext,callAt,hcall]
  generalize i%5=phase at hlt
  interval_cases phase
  · rfl
  · rfl
  · rfl
  · rfl
  · rfl

/-- The first rounds. -/
def firstRounds (r : Words × List Word) : Nat → Words × List Word
  | 0 => r
  | n+1 => roundAt n (firstRounds r n)

theorem operations_turn (n : Nat) (m : Words × List Word) :
    firstRounds m n=
      (turn^[n%5] (((List.range n).map callAt).foldl (fun m op => op m) m).1,
        (((List.range n).map callAt).foldl (fun m op => op m) m).2) := by
  induction n with
  | zero => rfl
  | succ n ih =>
    rw [firstRounds,ih,List.range_succ,List.map_append,List.foldl_append,callAt_turn]
    rfl

theorem rounds_eq (round : Nat → Words × List Word → Words × List Word) (i n : Nat)
    (r : Words × List Word) (h : ∀ j,i≤j → j < i+n → round j=roundAt j) :
    rounds round i n (firstRounds r i)=firstRounds r (i+n) := by
  induction n generalizing i with
  | zero => rfl
  | succ n ih =>
    have hstep : round i (firstRounds r i)=firstRounds r (i+1) := by
      rw [h i le_rfl (by omega),firstRounds]
    rw [rounds,hstep,ih (i+1) (fun j hi hj => h j (by omega) (by omega))]
    congr 1
    omega

theorem transform_rounds (r : Words × List Word) :
    rounds Sha1.R4 60 20 (rounds Sha1.R3 40 20 (rounds Sha1.R2 20 20
      (rounds Sha1.R1 16 4 (rounds Sha1.R0 0 16 r))))=firstRounds r 80 := by
  have h0 := rounds_eq Sha1.R0 0 16 r (fun j _ hj => by
    simp only [roundAt,if_pos (show j<16 by omega)])
  have h1 := rounds_eq Sha1.R1 16 4 r (fun j hi hj => by
    simp only [roundAt,if_neg (show ¬j<16 by omega),if_pos (show j<20 by omega)])
  have h2 := rounds_eq Sha1.R2 20 20 r (fun j hi hj => by
    simp only [roundAt,if_neg (show ¬j<16 by omega),if_neg (show ¬j<20 by omega),
      if_pos (show j<40 by omega)])
  have h3 := rounds_eq Sha1.R3 40 20 r (fun j hi hj => by
    simp only [roundAt,if_neg (show ¬j<16 by omega),if_neg (show ¬j<20 by omega),
      if_neg (show ¬j<40 by omega),if_pos (show j<60 by omega)])
  have h4 := rounds_eq Sha1.R4 60 20 r (fun j hi hj => by
    simp only [roundAt,if_neg (show ¬j<16 by omega),if_neg (show ¬j<20 by omega),
      if_neg (show ¬j<40 by omega),if_neg (show ¬j<60 by omega)])
  have hstart : firstRounds r 0=r := rfl
  rw [hstart] at h0
  rw [h0,h1,h2,h3,h4]

/-- The written-out calls and the rounds on turned variables are one transform. -/
theorem sha1Transform_eq (state : Words) (buffer : List Byte) :
    sha1Transform state buffer=Sha1.sha1Transform state buffer := by
  have h := operations_turn 80 (state,loadWords 16 buffer)
  rw [← operations_eq] at h
  simp only [sha1Transform,Sha1.sha1Transform,transform_rounds,h]
  rfl

end Unrolled

open Unrolled SecureHash

def Words.vars (s : Words) : Vars := ⟨s.v,s.w,s.x,s.y,s.z⟩

/-- The words of the standard's schedule. -/
def scheduled (buffer : List Byte) (t : Nat) : Word := (schedule buffer 80).getD t 0

/-- The block when n words of the schedule have been used: the last 16 of them stand in it,
and in front of the first round that needs them the words as they were loaded. -/
structure Expanded (buffer : List Byte) (n : Nat) (block : List Word) : Prop where
  length : block.length=16
  used : ∀ t,t<n → n≤t+16 → block.getD (t%16) 0=scheduled buffer t
  loaded : ∀ t,n≤t → t<16 → block.getD t 0=(loadWords 16 buffer).getD t 0

theorem loadWords_length (n : Nat) (c : List Byte) : (loadWords n c).length=n := by
  induction n generalizing c with
  | zero => rfl
  | succ n ih => rw [loadWords,List.length_cons,ih]

theorem loadWords_getD (n t : Nat) (c : List Byte) (h : t<n) :
    (loadWords n c).getD t 0=
      ((c.getD (4*t+3) 0).setWidth 32<<<24)|||((c.getD (4*t+2) 0).setWidth 32<<<16)|||
        ((c.getD (4*t+1) 0).setWidth 32<<<8)|||(c.getD (4*t) 0).setWidth 32 := by
  induction n generalizing t c with
  | zero => omega
  | succ n ih =>
    rw [loadWords]
    cases t with
    | zero => rfl
    | succ t =>
      have hdrop (i : Nat) : (c.drop 4).getD i 0=c.getD (i+4) 0 := by
        simp only [List.getD,List.getElem?_drop,Nat.add_comm]
      rw [List.getD_cons_succ,ih t (c.drop 4) (by omega)]
      simp only [hdrop]
      rfl

/-- The two masked rotations reverse the bytes of a word. -/
theorem swap_bytes (c0 c1 c2 c3 : Byte) (l : Word)
    (hl : l=(c3.setWidth 32<<<24)|||(c2.setWidth 32<<<16)|||(c1.setWidth 32<<<8)|||
      c0.setWidth 32) :
    (rol l 24&&&0xFF00FF00)|||(rol l 8&&&0x00FF00FF)=c0++c1++c2++c3 := by
  apply BitVec.eq_of_getLsbD_eq
  intro i hi
  rw [BitVec.getLsbD_append,BitVec.getLsbD_append,BitVec.getLsbD_append,hl]
  simp only [rol]
  interval_cases i <;> simp

theorem getD_set_self (block : List Word) (i : Nat) (x : Word) (h : i<block.length) :
    (block.set i x).getD i 0=x := by
  simp [List.getD,h]

theorem getD_set_ne (block : List Word) (i j : Nat) (x : Word) (h : i≠j) :
    (block.set i x).getD j 0=block.getD j 0 := by
  simp [List.getD,h]

/-- Storing the next word of the schedule in its place. -/
theorem Expanded.set {buffer : List Byte} {n : Nat} {block : List Word}
    (h : Expanded buffer n block) (hn : n<80) :
    Expanded buffer (n+1) (block.set (n%16) (scheduled buffer n)) := by
  have hplace : n%16<block.length := by
    rw [h.length]
    omega
  refine ⟨by rw [List.length_set,h.length],?_,?_⟩
  · intro t ht hle
    by_cases heq : t=n
    · rw [heq,getD_set_self _ _ _ hplace]
    · rw [getD_set_ne _ _ _ _ (by omega)]
      exact h.used t (by omega) (by omega)
  · intro t hle ht
    rw [getD_set_ne _ _ _ _ (by omega)]
    exact h.loaded t (by omega) ht

theorem Expanded.blk0 {buffer : List Byte} {n : Nat} {block : List Word}
    (h : Expanded buffer n block) (hn : n<16) :
    blk0 block n=(block.set (n%16) (scheduled buffer n),scheduled buffer n) := by
  have hword : (rol (block.getD n 0) 24&&&0xFF00FF00)|||(rol (block.getD n 0) 8&&&0x00FF00FF)=
      scheduled buffer n := by
    rw [scheduled,schedule_message buffer n 80 (by omega) hn,messageWord]
    apply swap_bytes
    rw [h.loaded n le_rfl hn,loadWords_getD 16 n buffer hn]
  simp only [Sha1.blk0,hword,Nat.mod_eq_of_lt hn]

theorem Expanded.blk {buffer : List Byte} {n : Nat} {block : List Word}
    (h : Expanded buffer n block) (h16 : 16≤n) (hn : n<80) :
    blk block n=(block.set (n%16) (scheduled buffer n),scheduled buffer n) := by
  have hback (i k : Nat) (hk : 0<k) (hk16 : k≤16) (hi : i%16=(n-k)%16) :
      block.getD (i%16) 0=scheduled buffer (n-k) := by
    rw [hi]
    exact h.used (n-k) (by omega) (by omega)
  have hword : rol (block.getD ((n+13)%16) 0^^^block.getD ((n+8)%16) 0^^^
      block.getD ((n+2)%16) 0^^^block.getD (n%16) 0) 1=scheduled buffer n := by
    rw [hback (n+13) 3 (by decide) (by decide) (by omega),
      hback (n+8) 8 (by decide) (by decide) (by omega),
      hback (n+2) 14 (by decide) (by decide) (by omega),
      hback n 16 (by decide) (by decide) (by omega)]
    exact (schedule_recurrence buffer n 80 hn h16).symm
  simp only [Sha1.blk,hword]

theorem mix01_eq : mix01=ch := by
  funext w x y
  ext i hi
  simp only [mix01,ch,BitVec.getElem_xor,BitVec.getElem_and,BitVec.getElem_not]
  cases w[i] <;> cases x[i] <;> cases y[i] <;> rfl

theorem mix3_eq : mix3=maj := by
  funext w x y
  ext i hi
  simp only [mix3,maj,BitVec.getElem_xor,BitVec.getElem_and,BitVec.getElem_or]
  cases w[i] <;> cases x[i] <;> cases y[i] <;> rfl

/-- A round whose word is the scheduled one is the standard's round. -/
theorem R_round (mix : Word → Word → Word → Word) (kt : Word)
    (expand : List Word → Nat → List Word × Word) (buffer : List Byte) (n : Nat)
    (r : Words × List Word) (hmix : mix=f n) (hk : kt=k n)
    (hexp : expand r.2 n=(r.2.set (n%16) (scheduled buffer n),scheduled buffer n)) :
    (R mix kt expand n r).1.vars=round (schedule buffer 80) n r.1.vars ∧
      (R mix kt expand n r).2=r.2.set (n%16) (scheduled buffer n) := by
  have hsum (z m x word v : Word) : z+(m+word+x+v)=v+m+z+x+word := by
    ac_rfl
  subst hmix hk
  simp only [Sha1.R,hexp,Words.vars,SecureHash.round,Vars.mk.injEq,and_true]
  exact ⟨hsum _ _ _ _ _,trivial,rfl⟩

theorem roundAt_round (buffer : List Byte) (n : Nat) (r : Words × List Word) (hn : n<80)
    (h : Expanded buffer n r.2) :
    (roundAt n r).1.vars=round (schedule buffer 80) n r.1.vars ∧
      (roundAt n r).2=r.2.set (n%16) (scheduled buffer n) := by
  rw [roundAt]
  split_ifs with h16 h20 h40 h60
  · exact R_round _ _ _ buffer n r (by simp only [mix01_eq,f,if_pos (show n<20 by omega)])
      (by simp only [k01,k,if_pos (show n<20 by omega)]) (h.blk0 h16)
  · exact R_round _ _ _ buffer n r (by simp only [mix01_eq,f,if_pos h20])
      (by simp only [k01,k,if_pos h20]) (h.blk (by omega) hn)
  · exact R_round _ _ _ buffer n r (by simp only [f,if_neg h20,if_pos h40]; rfl)
      (by simp only [k2,k,if_neg h20,if_pos h40]) (h.blk (by omega) hn)
  · exact R_round _ _ _ buffer n r
      (by simp only [mix3_eq,f,if_neg h20,if_neg h40,if_pos h60])
      (by simp only [k3,k,if_neg h20,if_neg h40,if_pos h60]) (h.blk (by omega) hn)
  · exact R_round _ _ _ buffer n r
      (by simp only [f,if_neg h20,if_neg h40,if_neg h60]; rfl)
      (by simp only [k4,k,if_neg h20,if_neg h40,if_neg h60]) (h.blk (by omega) hn)

/-- The first n rounds of the source and of the standard. -/
theorem firstRounds_standard (state : Words) (buffer : List Byte) (n : Nat) (hn : n≤80) :
    (firstRounds (state,loadWords 16 buffer) n).1.vars=
        roundLoop (schedule buffer 80) n state.vars ∧
      Expanded buffer n (firstRounds (state,loadWords 16 buffer) n).2 := by
  induction n with
  | zero =>
    refine ⟨rfl,loadWords_length 16 buffer,?_,fun t _ _ => rfl⟩
    intro t ht
    omega
  | succ n ih =>
    obtain ⟨hvars,hblock⟩ := ih (by omega)
    obtain ⟨hround,hset⟩ := roundAt_round buffer n _ (by omega) hblock
    rw [firstRounds,hround,hvars,hset]
    exact ⟨rfl,hblock.set (by omega)⟩

theorem sha1Transform_compress (state : Words) (buffer : List Byte) :
    (sha1Transform state buffer).vars=SecureHash.compress state.vars buffer := by
  have h := (firstRounds_standard state buffer 80 le_rfl).1
  simp only [sha1Transform,transform_rounds,SecureHash.compress,← h]
  simp only [Words.vars,BitVec.add_comm]

/-- The hash value of a message after its whole blocks, by the standard. -/
theorem compress_standard (m : List Byte) :
    (compress m).vars=(Chaining.blocks 64 m).foldl SecureHash.compress initialState.vars := by
  have hfold (l : List (List Byte)) (s : Words) :
      (l.foldl sha1Transform s).vars=l.foldl SecureHash.compress s.vars := by
    induction l generalizing s with
    | nil => rfl
    | cons b l ih => rw [List.foldl_cons,List.foldl_cons,ih,sha1Transform_compress]
  exact hfold _ _

/-- The transform, with its block overwritten in place and its 80 calls on permuted registers,
is the compression function of the standard. -/
theorem sha1_transform_eq_standard (state : Words) (buffer : List Byte) :
    (Unrolled.sha1Transform state buffer).vars=SecureHash.compress state.vars buffer := by
  rw [sha1Transform_eq,sha1Transform_compress]

end IdearNiu.Sha1
