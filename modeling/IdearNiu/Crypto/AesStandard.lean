import IdearNiu.Crypto.AesKeys
import IdearNiu.Math.Rijndael

namespace IdearNiu.Crypto

open Gf256

/-- Undoes the affine map of the S-box. -/
def unaffine (b : Byte) : Byte := b.rotateLeft 1^^^b.rotateLeft 3^^^b.rotateLeft 6^^^0x05

theorem affine_unaffine (y : Byte) : Rijndael.affine (unaffine y)=y := by
  revert y
  decide

/-- The bytes of Te[4] are the affine images of the inverses in GF(2^8). -/
theorem sbox_eq (x : Byte) : sbox x=Rijndael.sBox x := by
  have htable : te4.zipIdx.all (fun p => p.2=0 ||
      mul (BitVec.ofNat 8 p.2) (unaffine (BitVec.ofNat 8 p.1))=1)=true := by decide +kernel
  have hlen : x.toNat<te4.length := by
    rw [show te4.length=256 by decide +kernel]
    exact x.isLt
  have hmem : (te4[x.toNat],x.toNat)∈te4.zipIdx :=
    List.mem_zipIdx_iff_getElem?.mpr (List.getElem?_eq_getElem hlen)
  have hsbox : sbox x=BitVec.ofNat 8 te4[x.toNat] := by
    rw [sbox,entry,List.getD_eq_getElem _ _ hlen,BitVec.setWidth_ofNat_of_le (by omega)]
  have hx := List.all_eq_true.mp htable _ hmem
  rw [← hsbox,BitVec.ofNat_toNat,BitVec.setWidth_eq,Bool.or_eq_true,decide_eq_true_iff,
    decide_eq_true_iff] at hx
  rcases hx with hzero|hinv
  · obtain rfl : x=0 := BitVec.eq_of_toNat_eq hzero
    rw [Rijndael.sBox,inverse_zero]
    decide
  · rw [Rijndael.sBox,inverse_eq x _ hinv,affine_unaffine]

/-- A column of the state by its number. -/
def State.col (s : State) : Fin 4 → Word
  | 0 => s.s0
  | 1 => s.s1
  | 2 => s.s2
  | 3 => s.s3

/-- The bytes of a state by row and column. -/
def State.grid (s : State) : Rijndael.State := fun r c => byte (s.col c) (3-r)

theorem encryptColumn_join (a b c d : Word) :
    encryptColumn a b c d=
      join (xtime (sbox (byte a 3))^^^times3 (sbox (byte b 2))^^^sbox (byte c 1)^^^sbox (byte d 0))
        (sbox (byte a 3)^^^xtime (sbox (byte b 2))^^^times3 (sbox (byte c 1))^^^sbox (byte d 0))
        (sbox (byte a 3)^^^sbox (byte b 2)^^^xtime (sbox (byte c 1))^^^times3 (sbox (byte d 0)))
        (times3 (sbox (byte a 3))^^^sbox (byte b 2)^^^sbox (byte c 1)^^^xtime (sbox (byte d 0))) := by
  simp only [encryptColumn,getByte_eq_byte,(te_mixColumn _).1,(te_mixColumn _).2.1,
    (te_mixColumn _).2.2.1,(te_mixColumn _).2.2.2,mixColumn,join_xor]

/-- The product of MixColumns, row by row. -/
theorem mixColumns_rows (s : Rijndael.State) (c : Fin 4) :
    Rijndael.mixColumns s 0 c=xtime (s 0 c)^^^times3 (s 1 c)^^^s 2 c^^^s 3 c ∧
    Rijndael.mixColumns s 1 c=s 0 c^^^xtime (s 1 c)^^^times3 (s 2 c)^^^s 3 c ∧
    Rijndael.mixColumns s 2 c=s 0 c^^^s 1 c^^^xtime (s 2 c)^^^times3 (s 3 c) ∧
    Rijndael.mixColumns s 3 c=times3 (s 0 c)^^^s 1 c^^^s 2 c^^^xtime (s 3 c) := by
  simp only [Rijndael.mixColumns,mul_two,mul_three]
  refine ⟨rfl,?_,?_,?_⟩
  · rw [show (1 : Fin 4)+1=2 from rfl,show (1 : Fin 4)+2=3 from rfl,
      show (1 : Fin 4)+3=0 from rfl]
    ac_rfl
  · rw [show (2 : Fin 4)+1=3 from rfl,show (2 : Fin 4)+2=0 from rfl,
      show (2 : Fin 4)+3=1 from rfl]
    ac_rfl
  · rw [show (3 : Fin 4)+1=0 from rfl,show (3 : Fin 4)+2=1 from rfl,
      show (3 : Fin 4)+3=2 from rfl]
    ac_rfl

/-- A column of a table round is a column of MixColumns over the S-box. -/
theorem encryptColumn_rows (s : State) (k : Word) (c : Fin 4) (r : Fin 4) :
    byte (encryptColumn (s.col c) (s.col (c+1)) (s.col (c+2)) (s.col (c+3))^^^k) (3-r)=
      Rijndael.mixColumns (Rijndael.shiftRows (Rijndael.subBytes s.grid)) r c^^^byte k (3-r) := by
  obtain ⟨h0,h1,h2,h3⟩ := mixColumns_rows (Rijndael.shiftRows (Rijndael.subBytes s.grid)) c
  simp only [Rijndael.shiftRows,Rijndael.subBytes,State.grid,← sbox_eq,
    add_zero] at h0 h1 h2 h3
  rw [byte_xor,encryptColumn_join]
  fin_cases r
  · exact congrArg (·^^^byte k 3) ((byte_join _ _ _ _).2.2.2.trans h0.symm)
  · exact congrArg (·^^^byte k 2) ((byte_join _ _ _ _).2.2.1.trans h1.symm)
  · exact congrArg (·^^^byte k 1) ((byte_join _ _ _ _).2.1.trans h2.symm)
  · exact congrArg (·^^^byte k 0) ((byte_join _ _ _ _).1.trans h3.symm)

/-- A round of the tables is SubBytes, ShiftRows, MixColumns and AddRoundKey. -/
theorem encryptRound_grid (s k : State) (r c : Fin 4) :
    (encryptRound s k).grid r c=
      Rijndael.mixColumns (Rijndael.shiftRows (Rijndael.subBytes s.grid)) r c^^^k.grid r c := by
  have hcol := encryptColumn_rows s (k.col c) c r
  fin_cases c <;> exact hcol

/-- The last round leaves MixColumns out. -/
theorem lastEncryptRound_grid (s k : State) (r c : Fin 4) :
    (lastEncryptRound s k).grid r c=
      Rijndael.shiftRows (Rijndael.subBytes s.grid) r c^^^k.grid r c := by
  have hcol : byte (lastEncryptColumn (s.col c) (s.col (c+1)) (s.col (c+2)) (s.col (c+3))^^^
      k.col c) (3-r)=sbox (byte (s.col (c+r)) (3-r))^^^byte (k.col c) (3-r) := by
    rw [byte_xor,lastEncryptColumn_join]
    fin_cases r
    · exact congrArg (·^^^byte (k.col c) 3) ((byte_join _ _ _ _).2.2.2.trans
        (by simp only [Fin.zero_eta,add_zero]))
    · exact congrArg (·^^^byte (k.col c) 2) (byte_join _ _ _ _).2.2.1
    · exact congrArg (·^^^byte (k.col c) 1) (byte_join _ _ _ _).2.1
    · exact congrArg (·^^^byte (k.col c) 0) (byte_join _ _ _ _).1
  simp only [Rijndael.shiftRows,Rijndael.subBytes,State.grid,← sbox_eq] at hcol ⊢
  fin_cases c <;> exact hcol

theorem loadWord_row (block : List Byte) (off : Nat) (r : Fin 4) :
    byte (byteReverseWord32 (loadWord block off)) (3-r)=block.getD (off+r) 0 := by
  rw [reverse_loadWord]
  fin_cases r
  · exact (byte_join _ _ _ _).2.2.2
  · exact (byte_join _ _ _ _).2.2.1
  · exact (byte_join _ _ _ _).2.1
  · exact (byte_join _ _ _ _).1

theorem loadState_grid (block : List Byte) : (loadState block).grid=Rijndael.load block := by
  funext r c
  have hcol : (loadState block).col c=byteReverseWord32 (loadWord block (4*c)) := by
    fin_cases c <;> rfl
  rw [State.grid,hcol,loadWord_row,Rijndael.load,Nat.add_comm]

theorem storeState_grid (s : State) : storeState s=Rijndael.store s.grid := by
  simp only [storeState,storeWord_reverse]
  rfl

/-- A round key of the schedule, as AddRoundKey sees it. -/
theorem roundKey_grid (w : List Word) (n : Nat) (r c : Fin 4) :
    (roundKey w (4*n)).grid r c=byte (w.getD (4*n+c) 0) (3-r) := by
  fin_cases c <;> rfl

theorem xor_grid (s k : State) (r c : Fin 4) : (s.xor k).grid r c=s.grid r c^^^k.grid r c := by
  simp only [State.grid]
  fin_cases c <;> exact byte_xor _ _ _

theorem encryptRounds_grid (w : List Word) (block : List Byte) (n : Nat) :
    (encryptRounds w ((loadState block).xor (roundKey w 0)) n).grid=
      Rijndael.rounds w (Rijndael.load block) n := by
  induction n with
  | zero =>
    funext r c
    have hkey := roundKey_grid w 0 r c
    rw [Nat.mul_zero] at hkey
    rw [encryptRounds,xor_grid,loadState_grid,hkey]
    rfl
  | succ n ih =>
    funext r c
    rw [encryptRounds,encryptRound_grid,ih,roundKey_grid]
    rfl

/-- The rounds of AesEncrypt are the rounds of the standard, for any schedule. -/
theorem encryptLoop_cipher (w : List Word) (block : List Byte) (m : Nat) :
    storeState (encryptLoop w (m+1) 0 ((loadState block).xor (roundKey w 0)))=
      Rijndael.cipher w (2*m+2) block := by
  have hrun := encryptLoop_rounds w ((loadState block).xor (roundKey w 0)) m 0
  have hzero : encryptRounds w ((loadState block).xor (roundKey w 0)) 0=
      (loadState block).xor (roundKey w 0) := rfl
  simp only [Nat.mul_zero,Nat.zero_add,hzero] at hrun
  rw [hrun,storeState_grid,Rijndael.cipher]
  congr 1
  funext r c
  rw [lastEncryptRound_grid,encryptRounds_grid,roundKey_grid]
  rfl

/-- Four masked words of Te[4] put S-box bytes side by side. -/
theorem te4_masked (a b c d : Byte) :
    (Te 4 a&&&0xff000000)^^^(Te 4 b&&&0x00ff0000)^^^(Te 4 c&&&0x0000ff00)^^^
      (Te 4 d&&&0x000000ff)=join (sbox a) (sbox b) (sbox c) (sbox d) := by
  rw [te4_repeated,te4_repeated,te4_repeated,te4_repeated,(join_masked _).1,
    (join_masked _).2.1,(join_masked _).2.2.1,(join_masked _).2.2.2,join_eq_places]

theorem subWord_eq (t : Word) : subWord t=Rijndael.subWord t := by
  rw [subWord,te4_masked,Rijndael.subWord]
  simp only [sbox_eq,getByte_eq_byte]

theorem rotSubWord_eq (t rc : Word) :
    rotSubWord t rc=Rijndael.subWord (Rijndael.rotWord t)^^^rc := by
  obtain ⟨h0,h1,h2,h3⟩ := byte_join (byte t 2) (byte t 1) (byte t 0) (byte t 3)
  rw [rotSubWord,te4_masked,Rijndael.rotWord,Rijndael.subWord,h0,h1,h2,h3]
  simp only [sbox_eq,getByte_eq_byte]

theorem rcon_eq (i : Nat) (hi : i<10) : rcon.getD i 0=Rijndael.rcon (i+1) := by
  revert i
  decide

theorem expandFour_eq (nk b : Nat) (rk : List Word) (first : Word) (hnk : 4≤nk)
    (hl : rk.length=b+nk)
    (hfirst : first=Rijndael.schedule nk (b+nk) (word rk (b+nk-1)))
    (hplain : ∀ k t,0<k → k<4 → Rijndael.schedule nk (b+k+nk) t=t) :
    expandFour rk b first=(Rijndael.extend nk)^[4] rk := by
  rw [Rijndael.extend_four nk b rk hnk hl hplain,hfirst]
  rfl

theorem expand128_eq (n i : Nat) (rk : List Word) (hn : i+n=10) (hl : rk.length=4*i+4) :
    expand128 n i (4*i) rk=(Rijndael.extend 4)^[4*n] rk := by
  induction n generalizing i rk with
  | zero => rfl
  | succ n ih =>
    have hmod : (4*i+4)%4=0 := by omega
    have hdiv : (4*i+4)/4=i+1 := by omega
    have hfour := expandFour_eq 4 (4*i) rk (rotSubWord (word rk (4*i+3)) (rcon.getD i 0))
      (by decide) hl
      (by rw [rotSubWord_eq,rcon_eq i (by omega),Rijndael.schedule,if_pos hmod,hdiv]
          rfl)
      (fun k t h0 h4 => by
        rw [Rijndael.schedule,if_neg (by omega),if_neg (by omega)])
    rw [expand128,hfour]
    have hlen := Rijndael.extend_iterate_length 4 4 rk
    by_cases hlast : i+1=10
    · obtain rfl : n=0 := by omega
      rw [if_pos hlast]
    · rw [if_neg hlast,show 4*i+4=4*(i+1) by omega,ih (i+1) _ (by omega) (by omega),
        ← Function.iterate_add_apply,show 4*n+4=4*(n+1) by omega]

/-- The two words that end an iteration for 24 bytes. -/
theorem extend_two (b : Nat) (rk : List Word) (hl : rk.length=6*b+10) :
    rk++[word rk (6*b+4)^^^word rk (6*b+9),
        word rk (6*b+5)^^^(word rk (6*b+4)^^^word rk (6*b+9))]=(Rijndael.extend 6)^[2] rk := by
  have hfirst : Rijndael.extend 6 rk=rk++[word rk (6*b+4)^^^word rk (6*b+9)] := by
    rw [Rijndael.extend,hl,Rijndael.schedule,if_neg (by omega),if_neg (by omega)]
    rfl
  rw [show (Rijndael.extend 6)^[2] rk=Rijndael.extend 6 (Rijndael.extend 6 rk) from rfl,hfirst,
    Rijndael.extend_plain 6 (6*b+5) rk _ (by omega) (fun t => by
      rw [Rijndael.schedule,if_neg (by omega),if_neg (by omega)]),
    List.getD_append _ _ _ _ (by omega),List.append_assoc]
  rfl

theorem expand192_eq (n i : Nat) (rk : List Word) (hn : i+n=8) (hpos : 0<n)
    (hl : rk.length=6*i+6) :
    expand192 n i (6*i) rk=(Rijndael.extend 6)^[6*n-2] rk := by
  induction n generalizing i rk with
  | zero => omega
  | succ n ih =>
    have hmod : (6*i+6)%6=0 := by omega
    have hdiv : (6*i+6)/6=i+1 := by omega
    have hfour := expandFour_eq 6 (6*i) rk (rotSubWord (word rk (6*i+5)) (rcon.getD i 0))
      (by decide) hl
      (by rw [rotSubWord_eq,rcon_eq i (by omega),Rijndael.schedule,if_pos hmod,hdiv]
          rfl)
      (fun k t h0 h4 => by
        rw [Rijndael.schedule,if_neg (by omega),if_neg (by omega)])
    rw [expand192,hfour]
    have hlen := Rijndael.extend_iterate_length 6 4 rk
    by_cases hlast : i+1=8
    · obtain rfl : n=0 := by omega
      rw [if_pos hlast]
    · rw [if_neg hlast]
      simp only
      rw [extend_two i _ (by omega),← Function.iterate_add_apply]
      have hlen' := Rijndael.extend_iterate_length 6 (2+4) rk
      rw [show 6*i+6=6*(i+1) by omega,ih (i+1) _ (by omega) (by omega) (by omega),
        ← Function.iterate_add_apply,show 6*n-2+(2+4)=6*(n+1)-2 by omega]

theorem expand256_eq (n i : Nat) (rk : List Word) (hn : i+n=7) (hpos : 0<n)
    (hl : rk.length=8*i+8) :
    expand256 n i (8*i) rk=(Rijndael.extend 8)^[8*n-4] rk := by
  induction n generalizing i rk with
  | zero => omega
  | succ n ih =>
    have hmod : (8*i+8)%8=0 := by omega
    have hdiv : (8*i+8)/8=i+1 := by omega
    have hfour := expandFour_eq 8 (8*i) rk (rotSubWord (word rk (8*i+7)) (rcon.getD i 0))
      (by decide) hl
      (by rw [rotSubWord_eq,rcon_eq i (by omega),Rijndael.schedule,if_pos hmod,hdiv]
          rfl)
      (fun k t h0 h4 => by
        rw [Rijndael.schedule,if_neg (by omega),if_neg (by omega)])
    have hlen := Rijndael.extend_iterate_length 8 4 rk
    rw [expand256,hfour]
    by_cases hlast : i+1=7
    · obtain rfl : n=0 := by omega
      rw [if_pos hlast]
    · have hnext := expandFour_eq 8 (8*i+4) ((Rijndael.extend 8)^[4] rk)
        (subWord (word ((Rijndael.extend 8)^[4] rk) (8*i+11))) (by decide) (by omega)
        (by rw [subWord_eq,Rijndael.schedule,if_neg (by omega),if_pos (by omega)]
            rfl)
        (fun k t h0 h4 => by
          rw [Rijndael.schedule,if_neg (by omega),if_neg (by omega)])
      have hlen' := Rijndael.extend_iterate_length 8 (4+4) rk
      rw [if_neg hlast]
      simp only
      rw [hnext,← Function.iterate_add_apply,show 8*i+8=8*(i+1) by omega,
        ih (i+1) _ (by omega) (by omega) (by omega),← Function.iterate_add_apply,
        show 8*n-4+(4+4)=8*(n+1)-4 by omega]

theorem byteReverseWords_eq (key : List Byte) (keylen : Nat) :
    byteReverseWords key keylen=Rijndael.keyWords key (keylen/4) := by
  rw [byteReverseWords,Rijndael.keyWords]
  simp only [reverse_loadWord]

/-- The switch of AesSetKeyLocal is the key expansion of the standard. -/
theorem expandKey_eq (key : List Byte) (keylen : Nat) (hk : ValidKeyLength keylen) :
    expandKey keylen (byteReverseWords key keylen)=
      some (Rijndael.keyExpansion key (keylen/4)) := by
  have hlen : ∀ nk,(Rijndael.keyWords key nk).length=nk := by
    intro nk
    rw [Rijndael.keyWords,List.length_map,List.length_range]
  rw [byteReverseWords_eq,expandKey]
  rcases hk with rfl|rfl|rfl
  · rw [if_pos rfl]
    exact congrArg some (expand128_eq 10 0 _ rfl (hlen 4))
  · rw [if_neg (by decide),if_pos rfl]
    exact congrArg some (expand192_eq 8 0 _ rfl (by decide) (hlen 6))
  · rw [if_neg (by decide),if_neg (by decide),if_pos rfl]
    exact congrArg some (expand256_eq 7 0 _ rfl (by decide) (hlen 8))

/-- AesEncrypt after AesSetKeyLocal computes the cipher of the standard, whatever the
context, the output block and the iv are. -/
theorem aes_encrypt_eq_standard (stack : Aes) (key block outBlock : List Byte)
    (iv : Option (List Byte)) (hk : ValidKeyLength key.length) :
    (stack.setKeyLocal key key.length iv .encryption).2.encrypt block outBlock=
      Rijndael.encrypt key block := by
  have hcontext : (stack.setKeyLocal key key.length iv .encryption).2.key=
      Rijndael.keyExpansion key (key.length/4)++
        stack.key.drop (Rijndael.keyExpansion key (key.length/4)).length ∧
      (stack.setKeyLocal key key.length iv .encryption).2.rounds=key.length/4+6 := by
    simp only [Aes.setKeyLocal,expandKey_eq key key.length hk]
    cases iv <;> exact ⟨rfl,rfl⟩
  obtain ⟨m,hm,hrounds⟩ : ∃ m,m<7 ∧ key.length/4+6=2*m+2 := by
    rcases hk with h|h|h <;> rw [h]
    · exact ⟨4,by decide,rfl⟩
    · exact ⟨5,by decide,rfl⟩
    · exact ⟨6,by decide,rfl⟩
  have hhalf : (2*m+2)>>>1=m+1 := by
    rw [Nat.shiftRight_eq_div_pow]
    omega
  rw [Aes.encrypt,hcontext.1,hcontext.2,hrounds]
  simp only [hhalf]
  rw [if_neg (by omega),encryptLoop_cipher,Rijndael.encrypt,hrounds]
  have hlen := Rijndael.keyExpansion_length key (key.length/4)
  exact Rijndael.cipher_append _ _ _ _ (by omega)

theorem aes_encrypt_eq_standard_zero :
    ValidKeyLength (List.replicate 24 (0 : Byte)).length ∧
    ((⟨[],0,[],[]⟩ : Aes).setKeyLocal (List.replicate 24 0) 24 none .encryption).2.encrypt
      (List.replicate 16 0) []=Rijndael.encrypt (List.replicate 24 0) (List.replicate 16 0) :=
  ⟨Or.inr (Or.inl rfl),aes_encrypt_eq_standard ⟨[],0,[],[]⟩ (List.replicate 24 0)
    (List.replicate 16 0) [] none (Or.inr (Or.inl rfl))⟩

end IdearNiu.Crypto
