import IdearNiu.Crypto.AesInverse

namespace IdearNiu.Crypto

theorem expandFour_length (rk : List Word) (b : Nat) (first : Word) :
    (expandFour rk b first).length=rk.length+4 := by
  simp [expandFour]

theorem expand128_length (n i b : Nat) (rk : List Word) (h : i+n=10) :
    (expand128 n i b rk).length=rk.length+4*n := by
  induction n generalizing i b rk with
  | zero => rfl
  | succ n ih =>
    unfold expand128
    simp only
    split_ifs with hi
    · rw [expandFour_length]
      omega
    · rw [ih (i+1) (b+4) _ (by omega),expandFour_length]
      omega

theorem expand192_length (n i b : Nat) (rk : List Word) (h : i+n=8) (hn : 0<n) :
    (expand192 n i b rk).length+2=rk.length+6*n := by
  induction n generalizing i b rk with
  | zero => omega
  | succ n ih =>
    rw [expand192]
    simp only
    split_ifs with hi
    · rw [expandFour_length]
      omega
    · rw [ih (i+1) (b+6) _ (by omega) (by omega),List.length_append,expandFour_length]
      simp only [List.length_cons,List.length_nil]
      omega

theorem expand256_length (n i b : Nat) (rk : List Word) (h : i+n=7) (hn : 0<n) :
    (expand256 n i b rk).length+4=rk.length+8*n := by
  induction n generalizing i b rk with
  | zero => omega
  | succ n ih =>
    rw [expand256]
    simp only
    split_ifs with hi
    · rw [expandFour_length]
      omega
    · rw [ih (i+1) (b+8) _ (by omega) (by omega),expandFour_length,expandFour_length]
      omega

def ValidKeyLength (keylen : Nat) : Prop := keylen=16 ∨ keylen=24 ∨ keylen=32

instance (keylen : Nat) : Decidable (ValidKeyLength keylen) :=
  inferInstanceAs (Decidable (_ ∨ _))

/-- The schedule of every key size has a round key for each round and the first one. -/
theorem expandKey_length (keylen : Nat) (hk : ValidKeyLength keylen) (rk : List Word)
    (hrk : rk.length=keylen/4) :
    ∃ sched,expandKey keylen rk=some sched ∧ sched.length=4*(keylen/4+6+1) := by
  rcases hk with h|h|h <;> subst h
  · refine ⟨expand128 10 0 0 rk,rfl,?_⟩
    rw [expand128_length 10 0 0 rk rfl,hrk]
  · refine ⟨expand192 8 0 0 rk,rfl,?_⟩
    have := expand192_length 8 0 0 rk rfl (by decide)
    omega
  · refine ⟨expand256 7 0 0 rk,rfl,?_⟩
    have := expand256_length 7 0 0 rk rfl (by decide)
    omega

theorem word_set (rk : List Word) (i x : Nat) (w : Word) (hi : i<rk.length) :
    word (rk.set i w) x=if x=i then w else word rk x := by
  simp only [word]
  by_cases h : x=i
  · subst h
    rw [if_pos rfl,List.getD_eq_getElem _ _ (by rw [List.length_set]; exact hi),
      List.getElem_set_self]
  · rw [if_neg h,List.getD_eq_getElem?_getD,List.getD_eq_getElem?_getD,
      List.getElem?_set_ne (by omega)]

theorem mixWord_length (rk : List Word) (i : Nat) : (mixWord rk i).length=rk.length :=
  List.length_set

theorem word_mixWord (rk : List Word) (i x : Nat) (hi : i<rk.length) :
    word (mixWord rk i) x=if x=i then inverseMixColumn (word rk x) else word rk x := by
  rw [mixWord]
  rw [word_set _ _ _ _ hi]
  split_ifs with h
  · rw [h]
  · rfl

/-- Every word of the n round keys is transformed once. -/
theorem word_mixKeys (n b : Nat) (rk : List Word) (hb : b+4*n≤rk.length) (x : Nat) :
    word (mixKeys n b rk) x=
      if b≤x ∧ x<b+4*n then inverseMixColumn (word rk x) else word rk x := by
  induction n generalizing b rk with
  | zero =>
    rw [if_neg (by omega)]
    rfl
  | succ n ih =>
    rw [mixKeys]
    rw [ih (b+4) _ (by simp only [mixWord_length]; omega),
      word_mixWord _ _ _ (by simp only [mixWord_length]; omega),
      word_mixWord _ _ _ (by simp only [mixWord_length]; omega),
      word_mixWord _ _ _ (by simp only [mixWord_length]; omega),
      word_mixWord _ _ _ (by omega)]
    split_ifs <;> first | rfl | omega

theorem swapWords_length (rk : List Word) (i j : Nat) :
    (swapWords rk i j).length=rk.length := by
  simp [swapWords]

theorem word_swapWords (rk : List Word) (i j x : Nat) (hi : i<rk.length) (hj : j<rk.length) :
    word (swapWords rk i j) x=
      if x=j then word rk i else if x=i then word rk j else word rk x := by
  rw [swapWords]
  rw [word_set _ _ _ _ (by rw [List.length_set]; exact hj),word_set _ _ _ _ hi]

/-- The first k words of the round keys at i and j are exchanged. -/
structure Swapped (rk rk' : List Word) (i j k : Nat) : Prop where
  length : rk'.length=rk.length
  words : ∀ x,word rk' x=
    if i ≤ x ∧ x < i+k then word rk (x-i+j)
    else if j ≤ x ∧ x < j+k then word rk (x-j+i) else word rk x

theorem Swapped.swap {rk rk' : List Word} {i j k : Nat} (h : Swapped rk rk' i j k)
    (hk : i+k < j) (hj : j+k < rk.length) :
    Swapped rk (swapWords rk' (i+k) (j+k)) i j (k+1) := by
  refine ⟨by rw [swapWords_length,h.length],?_⟩
  intro x
  have hl := h.length
  have hwi : word rk' (i+k)=word rk (i+k) := by
    rw [h.words,if_neg (by omega),if_neg (by omega)]
  have hwj : word rk' (j+k)=word rk (j+k) := by
    rw [h.words,if_neg (by omega),if_neg (by omega)]
  rw [word_swapWords rk' _ _ x (by omega) (by omega),hwi,hwj,h.words x]
  split_ifs <;> first | rfl | omega | (congr 1; omega)

theorem swapKeys_swapped (rk : List Word) (i j : Nat) (hij : i+4 ≤ j) (hj : j+4≤rk.length) :
    Swapped rk (swapWords (swapWords (swapWords (swapWords rk i j) (i+1) (j+1)) (i+2) (j+2))
      (i+3) (j+3)) i j 4 := by
  have h0 : Swapped rk rk i j 0 :=
    ⟨rfl,fun x => by rw [if_neg (by omega),if_neg (by omega)]⟩
  have h1 := h0.swap (by omega) (by omega)
  have h2 := h1.swap (by omega) (by omega)
  have h3 := h2.swap (by omega) (by omega)
  exact h3.swap (by omega) (by omega)

theorem invertKeys_length (n i j : Nat) (rk : List Word) :
    (invertKeys n i j rk).length=rk.length := by
  induction n generalizing i j rk with
  | zero => rfl
  | succ n ih =>
    rw [invertKeys]
    split_ifs
    · simp only [ih,swapWords_length]
    · rfl

/-- The round keys from p up to q end in the opposite order. -/
theorem word_invertKeys (n p q : Nat) (rk : List Word) (hq : 4*q+4≤rk.length)
    (hn : q≤p+2*n) (a c : Nat) (hc : c < 4) :
    word (invertKeys n (4*p) (4*q) rk) (4*a+c)=
      if p ≤ a ∧ a≤q then word rk (4*(p+q-a)+c) else word rk (4*a+c) := by
  induction n generalizing p q rk with
  | zero =>
    rw [invertKeys]
    split_ifs
    · congr 1
      omega
    · rfl
  | succ n ih =>
    rw [invertKeys]
    by_cases hlt : 4*p<4*q
    · have hs := swapKeys_swapped rk (4*p) (4*q) (by omega) hq
      have hl := hs.length
      rw [if_pos hlt]
      simp only
      rw [show 4*p+4=4*(p+1) by omega,show 4*q-4=4*(q-1) by omega,
        ih (p+1) (q-1) _ (by omega) (by omega),hs.words,hs.words]
      split_ifs <;> first | rfl | (congr 1; omega)
    · rw [if_neg hlt]
      split_ifs
      · congr 1
        omega
      · rfl

/-- What the key schedules of the two directions have in common: N round keys after the
first one, in opposite order and, between the ends, transformed. -/
structure InverseKeys (ek dk : List Word) (N : Nat) : Prop where
  first : roundKey dk 0=roundKey ek (4*N)
  last : roundKey dk (4*N)=roundKey ek 0
  middle : ∀ a,0<a → a<N → roundKey dk (4*a)=mixState (roundKey ek (4*(N-a)))

theorem word_append_left (rk junk : List Word) (x : Nat) (hx : x<rk.length) :
    word (rk++junk) x=word rk x := by
  simp only [word]
  rw [List.getD_append _ _ _ _ hx]

theorem word_decryptionKeys (sched junk : List Word) (N : Nat) (hN : 0<N)
    (hl : sched.length=4*(N+1)) (a c : Nat) (ha : a≤N) (hc : c < 4) :
    word (mixKeys (N-1) 4 (invertKeys N 0 (4*N) (sched++junk))) (4*a+c)=
      if 0<a ∧ a<N then inverseMixColumn (word sched (4*(N-a)+c))
      else word sched (4*(N-a)+c) := by
  have hlen : (sched++junk).length=4*(N+1)+junk.length := by rw [List.length_append,hl]
  have hinv := word_invertKeys N 0 N (sched++junk) (by omega) (by omega) a c hc
  rw [if_pos (by omega),Nat.zero_add,word_append_left _ _ _ (by omega),Nat.mul_zero] at hinv
  rw [word_mixKeys _ _ _ (by rw [invertKeys_length]; omega),hinv]
  split_ifs <;> first | rfl | omega

theorem schedules_inverse (sched junk junk' : List Word) (N : Nat) (hN : 0<N)
    (hl : sched.length=4*(N+1)) :
    InverseKeys (sched++junk) (mixKeys (N-1) 4 (invertKeys N 0 (4*N) (sched++junk'))) N := by
  have hw := word_decryptionKeys sched junk' N hN hl
  have he (x : Nat) (hx : x < 4*(N+1)) : word (sched++junk) x=word sched x :=
    word_append_left _ _ _ (by omega)
  refine ⟨?_,?_,?_⟩
  · simp only [roundKey]
    have h0 := hw 0
    simp only [Nat.mul_zero,Nat.zero_add,Nat.sub_zero,lt_self_iff_false,false_and,
      if_false] at h0
    rw [h0 0 (by omega) (by omega),h0 1 (by omega) (by omega),h0 2 (by omega) (by omega),
      h0 3 (by omega) (by omega),he _ (by omega),he _ (by omega),he _ (by omega),
      he _ (by omega)]
    rfl
  · simp only [roundKey]
    have h0 := hw N
    simp only [Nat.sub_self,Nat.mul_zero,Nat.zero_add,lt_self_iff_false,and_false,
      if_false] at h0
    rw [he _ (by omega),he _ (by omega),he _ (by omega),he _ (by omega),
      ← h0 0 (by omega) (by omega),← h0 1 (by omega) (by omega),
      ← h0 2 (by omega) (by omega),← h0 3 (by omega) (by omega)]
    rfl
  · intro a h0a haN
    have h0 := hw a
    simp only [h0a,haN,and_self,if_true] at h0
    simp only [roundKey,mixState]
    rw [he _ (by omega),he _ (by omega),he _ (by omega),he _ (by omega),
      ← h0 1 (by omega) (by omega),← h0 2 (by omega) (by omega),
      ← h0 3 (by omega) (by omega)]
    have hz := h0 0 (by omega) (by omega)
    rw [Nat.add_zero,Nat.add_zero] at hz
    rw [← hz]

/-- n full rounds with the round keys after word b. -/
def encryptRounds (rk : List Word) (s : State) : Nat → State
  | 0 => s
  | n+1 => encryptRound (encryptRounds rk s n) (roundKey rk (4*(n+1)))

def decryptRounds (rk : List Word) (s : State) : Nat → State
  | 0 => s
  | n+1 => decryptRound (decryptRounds rk s n) (roundKey rk (4*(n+1)))

theorem encryptLoop_rounds (rk : List Word) (s : State) (r m : Nat) :
    encryptLoop rk (r+1) (8*m) (encryptRounds rk s (2*m))=
      lastEncryptRound (encryptRounds rk s (2*(m+r)+1)) (roundKey rk (4*(2*(m+r)+2))) := by
  induction r generalizing m with
  | zero =>
    have h1 : 8*m+4=4*(2*m+1) := by omega
    have h2 : 8*m+8=4*(2*m+2) := by omega
    rw [encryptLoop]
    rw [if_pos rfl,h1,h2]
    rfl
  | succ r ih =>
    have h1 : 8*m+4=4*(2*m+1) := by omega
    have h2 : 8*m+8=4*(2*m+1+1) := by omega
    have h3 : 8*m+8=8*(m+1) := by omega
    have h := ih (m+1)
    rw [← h3,show 2*(m+1)=2*m+1+1 by omega] at h
    rw [encryptLoop]
    rw [if_neg (by omega),show m+(r+1)=m+1+r by omega,← h,h1,h2]
    rfl

theorem decryptLoop_rounds (rk : List Word) (s : State) (r m : Nat) :
    decryptLoop rk (r+1) (8*m) (decryptRounds rk s (2*m))=
      lastDecryptRound (decryptRounds rk s (2*(m+r)+1)) (roundKey rk (4*(2*(m+r)+2))) := by
  induction r generalizing m with
  | zero =>
    have h1 : 8*m+4=4*(2*m+1) := by omega
    have h2 : 8*m+8=4*(2*m+2) := by omega
    rw [decryptLoop]
    rw [if_pos rfl,h1,h2]
    rfl
  | succ r ih =>
    have h1 : 8*m+4=4*(2*m+1) := by omega
    have h2 : 8*m+8=4*(2*m+1+1) := by omega
    have h3 : 8*m+8=8*(m+1) := by omega
    have h := ih (m+1)
    rw [← h3,show 2*(m+1)=2*m+1+1 by omega] at h
    rw [decryptLoop]
    rw [if_neg (by omega),show m+(r+1)=m+1+r by omega,← h,h1,h2]
    rfl

theorem InverseKeys.rounds {ek dk : List Word} {N : Nat} (h : InverseKeys ek dk N)
    (s : State) (n : Nat) (hn : n<N) :
    decryptRounds dk (subShift (encryptRounds ek s (N-1))) n=
      subShift (encryptRounds ek s (N-1-n)) := by
  induction n with
  | zero => rfl
  | succ n ih =>
    rw [decryptRounds]
    rw [ih (by omega),h.middle (n+1) (by omega) hn,show N-1-n=N-1-(n+1)+1 by omega,
      show N-(n+1)=N-1-(n+1)+1 by omega]
    exact decryptRound_encryptRound _ _

/-- The table-driven equivalent inverse cipher undoes the cipher. -/
theorem InverseKeys.decrypt_encrypt {ek dk : List Word} {r : Nat}
    (h : InverseKeys ek dk (2*(r+1))) (s : State) :
    (decryptLoop dk (r+1) 0 ((encryptLoop ek (r+1) 0 (s.xor (roundKey ek 0))).xor
      (roundKey dk 0)))=s := by
  have henc := encryptLoop_rounds ek (s.xor (roundKey ek 0)) r 0
  rw [Nat.mul_zero,Nat.zero_add] at henc
  have hcipher : (encryptLoop ek (r+1) 0 (s.xor (roundKey ek 0))).xor (roundKey dk 0)=
      subShift (encryptRounds ek (s.xor (roundKey ek 0)) (2*(r+1)-1)) := by
    rw [h.first,show 2*(r+1)-1=2*r+1 by omega,show 2*(r+1)=2*r+2 by omega]
    apply (congrArg (State.xor · _) henc).trans
    rw [lastEncryptRound_subShift,State.xor_self_right]
  have hdec := decryptLoop_rounds dk
    (subShift (encryptRounds ek (s.xor (roundKey ek 0)) (2*(r+1)-1))) r 0
  rw [Nat.mul_zero,Nat.zero_add] at hdec
  rw [hcipher]
  apply hdec.trans
  rw [h.rounds _ _ (by omega),show 2*(r+1)-1-(2*r+1)=0 by omega,
    show 4*(2*r+2)=4*(2*(r+1)) by omega,h.last,lastDecryptRound_subShift]
  exact State.xor_self_right _ _

/-- Two contexts whose block functions undo each other. -/
structure Paired (enc dec : Aes) : Prop where
  rounds : dec.rounds=enc.rounds
  even : ∃ r,r<7 ∧ enc.rounds=2*(r+1)
  keys : InverseKeys enc.key dec.key enc.rounds
  reg : dec.reg=enc.reg

theorem setKey_valid (stack : Aes) (key : List Byte) (keylen : Nat)
    (hk : ValidKeyLength keylen) (iv : List Byte) (hiv : iv.length=16) :
    ∃ sched,sched.length=4*(keylen/4+6+1) ∧
      (stack.setKey key keylen (some iv) .encryption).2=
        ⟨sched++stack.key.drop sched.length,keylen/4+6,iv,stack.tmp⟩ ∧
      ∀ other : Aes,(other.setKey key keylen (some iv) .decryption).2=
        ⟨mixKeys (keylen/4+6-1) 4 (invertKeys (keylen/4+6) 0 (4*(keylen/4+6))
          (sched++other.key.drop sched.length)),keylen/4+6,iv,other.tmp⟩ := by
  obtain ⟨sched,hrun,hl⟩ := expandKey_length keylen hk (byteReverseWords key keylen)
    (by rw [byteReverseWords,List.length_map,List.length_range])
  have htake : iv.take 16=iv := List.take_of_length_le (by omega)
  have hk' : keylen=16 ∨ keylen=24 ∨ keylen=32 := hk
  refine ⟨sched,hl,?_,?_⟩
  · simp only [Aes.setKey,Aes.setKeyLocal,Aes.setIV,hrun,htake]
    rw [if_neg (not_not_intro hk')]
  · intro other
    simp only [Aes.setKey,Aes.setKeyLocal,Aes.setIV,hrun,htake]
    rw [if_neg (not_not_intro hk')]

theorem setKey_paired (stackE stackD : Aes) (key : List Byte) (keylen : Nat)
    (hk : ValidKeyLength keylen) (iv : List Byte) (hiv : iv.length=16) :
    Paired (stackE.setKey key keylen (some iv) .encryption).2
      (stackD.setKey key keylen (some iv) .decryption).2 ∧
    (stackE.setKey key keylen (some iv) .encryption).2.reg=iv := by
  obtain ⟨sched,hl,henc,hdec⟩ := setKey_valid stackE key keylen hk iv hiv
  rw [henc,hdec]
  refine ⟨⟨rfl,?_,schedules_inverse sched _ _ (keylen/4+6) (by omega) hl,rfl⟩,rfl⟩
  rcases hk with h|h|h <;> subst h
  · exact ⟨4,by decide,rfl⟩
  · exact ⟨5,by decide,rfl⟩
  · exact ⟨6,by decide,rfl⟩

section

variable {enc dec : Aes}

theorem Paired.encrypt_eq (h : Paired enc dec) (b out : List Byte) :
    enc.encrypt b out=storeState
      (encryptLoop enc.key (enc.rounds/2) 0 ((loadState b).xor (roundKey enc.key 0))) := by
  obtain ⟨r,hr,hn⟩ := h.even
  unfold Aes.encrypt
  rw [Nat.shiftRight_eq_div_pow,pow_one]
  simp only
  rw [if_neg (by omega)]

theorem Paired.decrypt_eq (h : Paired enc dec) (b out : List Byte) :
    dec.decrypt b out=storeState
      (decryptLoop dec.key (enc.rounds/2) 0 ((loadState b).xor (roundKey dec.key 0))) := by
  obtain ⟨r,hr,hn⟩ := h.even
  unfold Aes.decrypt
  rw [Nat.shiftRight_eq_div_pow,pow_one,h.rounds]
  simp only
  rw [if_neg (by omega)]

theorem Paired.encrypt_length (h : Paired enc dec) (b out : List Byte) :
    (enc.encrypt b out).length=16 := by
  rw [h.encrypt_eq]
  exact storeState_length _

/-- Decryption of a block undoes its encryption. -/
theorem Paired.block (h : Paired enc dec) (b out old : List Byte) (hb : b.length=16) :
    dec.decrypt (enc.encrypt b out) old=b := by
  obtain ⟨r,hr,hn⟩ := h.even
  have hkeys := h.keys
  have hhalf : 2*(r+1)/2=r+1 := by omega
  rw [hn] at hkeys
  rw [h.encrypt_eq,h.decrypt_eq,loadState_storeState,hn,hhalf,hkeys.decrypt_encrypt,
    storeState_loadState b hb]

end

end IdearNiu.Crypto
