import IdearNiu.Util.AndroidFastPath

namespace IdearNiu.AndroidBase64

open Words

/-- The int that base64_decode returns: false is 0. -/
def Outcome.returned : Outcome → Option Int
  | .faulted => none
  | .rejected _ => some 0
  | .accepted returned _ => some returned

def base64DecodeReturn (input : List Byte) (flags : Word) : Option Int :=
  (doDecodeWith true input flags).returned

/-- What the caller needs of the int returned for an input that is accepted: it is the number
of bytes written, and no rejected input has the same unless nothing is written. -/
structure TellsLength (input : List Byte) (flags : Word) (written : List Byte) : Prop where
  exact : base64DecodeReturn input flags=some (written.length : Int)
  distinct : written≠[] → ∀ other otherFlags left,
    doDecodeWith true other otherFlags=.rejected left →
      base64DecodeReturn other otherFlags≠base64DecodeReturn input flags

theorem step_data_length (m next : Machine) (d : Word) (hd : d.toNat<64)
    (h : step m d=some next) :
    m.state.taken<4 ∧ next.output.length=m.output.length+3*((m.state.taken+1)/4) := by
  have hmsb := msb_of_lt d hd
  have hequals : d≠equals := by
    intro heq
    subst heq
    cases hmsb
  have hskip : d≠skip := by
    intro heq
    subst heq
    cases hmsb
  obtain ⟨state,value,output⟩ := m
  cases state <;> simp [step,hmsb,hequals,hskip] at h <;>
    simp [← h,DecodeState.taken,triple]

theorem step_equals_length (m next : Machine) (h : step m equals=some next) :
    next.output.length=m.output.length+3*(m.state.taken%4)/4 := by
  have hmsb : equals.msb=true := by decide
  have hne : equals≠skip := by decide
  obtain ⟨state,value,output⟩ := m
  cases state <;> simp [step,hmsb,hne] at h <;> simp [← h,DecodeState.taken]

/-- The bytes written from a state on: three for each four data bytes, and what an open tuple
still gives; after a '=' there is no data byte. -/
theorem plain_length (flags : Word) (len : Int) (m : Machine) (input : List Byte)
    (returned : Int) (written : List Byte)
    (h : plain (decodeAlphabet flags) len m input=.accepted returned written) :
    returned=(int32 (len*3)).tdiv 4 ∧
    (m.state.taken=4 → input.countP (data (decodeAlphabet flags))=0 ∧
      written.length=m.output.length) ∧
    (m.state.taken<4 → written.length=m.output.length+
      3*(m.state.taken+input.countP (data (decodeAlphabet flags)))/4) := by
  induction input generalizing m with
  | nil =>
    obtain ⟨state,value,output⟩ := m
    rw [plain,leave] at h
    cases state <;> simp only [finish] at h <;> cases h <;> simp [DecodeState.taken]
  | cons c input ih =>
    rw [plain] at h
    rcases position_cases flags c with hc|hc|hc
    · have hskip : data (decodeAlphabet flags) c=false := by
        rw [data,hc]
        rfl
      rw [hc,step_skip] at h
      rw [List.countP_cons_of_neg (by simp [hskip])]
      exact ih m h
    · have hpad : data (decodeAlphabet flags) c=false := by
        rw [data,hc]
        rfl
      rw [hc] at h
      cases hstep : step m equals with
      | none =>
        rw [hstep] at h
        cases h
      | some next =>
        rw [hstep] at h
        obtain ⟨hret,hlate,_⟩ := ih next h
        obtain ⟨hcount,hlen⟩ := hlate (step_equals m next hstep)
        have hout := step_equals_length m next hstep
        rw [List.countP_cons_of_neg (by simp [hpad]),hcount]
        refine ⟨hret,fun htaken => ⟨rfl,by omega⟩,fun htaken => ?_⟩
        rw [hlen,hout,Nat.mod_eq_of_lt htaken,Nat.add_zero]
    · have hdata : data (decodeAlphabet flags) c=true := by
        rw [data,msb_of_lt _ hc]
        rfl
      cases hstep : step m (position (decodeAlphabet flags) c) with
      | none =>
        rw [hstep] at h
        cases h
      | some next =>
        rw [hstep] at h
        obtain ⟨hret,_,hearly⟩ := ih next h
        obtain ⟨htaken,hout⟩ := step_data_length m next _ hc hstep
        obtain ⟨next',hstep',hnext⟩ := step_data m _ htaken (msb_of_lt _ hc)
        rw [hstep] at hstep'
        cases hstep'
        have hlen := hearly (by omega)
        rw [List.countP_cons_of_pos hdata]
        exact ⟨hret,fun hfour => by omega,fun _ => by omega⟩

theorem accepted_length (input : List Byte) (flags : Word) (returned : Int)
    (written : List Byte) (hlen : input.length<2^31)
    (h : doDecodeWith true input flags=.accepted returned written) :
    returned=(int32 (input.length*3)).tdiv 4 ∧
      written.length=3*input.countP (data (decodeAlphabet flags))/4 := by
  obtain ⟨hfault,hsame⟩ := doDecodeWith_fast input flags hlen
  have hno : ¬Overflows (decodeAlphabet flags) 0 0 input := by
    intro hover
    rw [hfault hover] at h
    cases h
  obtain ⟨hint,hwithin⟩ := within_input input hlen
  rw [hsame hno,doDecodeWith,decodeAt_plain _ _ _ _ _ hwithin,hint] at h
  obtain ⟨hret,_,hearly⟩ := plain_length flags _ _ input returned written h
  refine ⟨hret,?_⟩
  rw [hearly (Nat.zero_lt_succ 3)]
  simp [DecodeState.taken]

/-- Far from the largest int the outcome is that of the state machine. -/
theorem doDecodeWith_short (input : List Byte) (flags : Word) (hlen : input.length+4<2^31) :
    doDecodeWith true input flags=
      plain (decodeAlphabet flags) input.length ⟨.zero,0,[]⟩ input := by
  obtain ⟨hint,hwithin⟩ := within_input input (by omega)
  have hno : ¬Overflows (decodeAlphabet flags) 0 0 input := by
    intro hover
    have := overflows_length _ _ _ _ hover
    omega
  rw [(doDecodeWith_fast input flags (by omega)).2 hno,doDecodeWith,
    decodeAt_plain _ _ _ _ _ hwithin,hint]

/-- One symbol more makes no byte more only where a tuple starts. -/
theorem bytes_eq_iff (n len : Nat) (hn : n≤len) :
    3*n/4=3*len/4 ↔ n=len ∨ (n+1=len ∧ n%4=0) := by
  constructor
  · intro h
    by_cases he : n=len
    · exact Or.inl he
    · obtain rfl : len=n+1 := by omega
      exact Or.inr ⟨rfl,by omega⟩
  · omega

/-- The product of the return statement wraps from 2^31 on. -/
theorem return_eq (len n : Nat) (hlen : len<2^31) (hn : n≤len) :
    (int32 (len*3)).tdiv 4=((3*n/4 : Nat) : Int) ↔
      (3*len<2^31 ∧ (n=len ∨ (n+1=len ∧ n%4=0))) ∨
      (2^32-4 < 3*len ∧ 3*len<2^32 ∧ n≤1) ∨
      (2^32≤3*len ∧ 3*n/4=(3*len-2^32)/4) := by
  by_cases hlow : 3*len<2^31
  · rw [int32_of_range _ (by omega) (by omega),Int.tdiv_eq_ediv_of_nonneg (by omega),
      ← bytes_eq_iff n len hn]
    omega
  · by_cases hmid : 3*len<2^32
    · have hint : int32 (len*3)= -((2^32-3*len : Nat) : Int) := by
        rw [int32,Int.bmod_def]
        omega
      rw [hint,Int.neg_tdiv,Int.tdiv_eq_ediv_of_nonneg (by omega)]
      omega
    · have hint : int32 (len*3)=((3*len-2^32 : Nat) : Int) := by
        rw [int32,Int.bmod_def]
        omega
      rw [hint,Int.tdiv_eq_ediv_of_nonneg (by omega)]
      omega

/-- The int returned is right when every byte is data, or all but one and these in whole
tuples; past 2^31 the product len*3 wraps, and it is right where the wrapped value fits. -/
theorem base64_decode_length_iff (input : List Byte) (flags : Word) (returned : Int)
    (written : List Byte) (hlen : input.length<2^31)
    (h : doDecodeWith true input flags=.accepted returned written) :
    TellsLength input flags written ↔
      let n := input.countP (data (decodeAlphabet flags))
      (3*input.length<2^31 ∧ (n=input.length ∨ (n+1=input.length ∧ n%4=0))) ∨
      (2^32-4 < 3*input.length ∧ 3*input.length<2^32 ∧ n≤1) ∨
      (2^32≤3*input.length ∧ 3*n/4=(3*input.length-2^32)/4) := by
  obtain ⟨hret,hwritten⟩ := accepted_length input flags returned written hlen h
  have hvalue : base64DecodeReturn input flags=some returned := by
    rw [base64DecodeReturn,h]
    rfl
  rw [← return_eq input.length _ hlen List.countP_le_length,← hret,← hwritten]
  refine ⟨fun ht => ?_,fun he => ⟨by rw [hvalue,he],?_⟩⟩
  · have hexact := ht.exact
    rw [hvalue] at hexact
    exact Option.some.inj hexact
  · intro hne other otherFlags left hrej heq
    rw [hvalue,base64DecodeReturn,hrej,Outcome.returned,Option.some.injEq] at heq
    have := List.length_pos_iff.mpr hne
    omega

/-- "QUJD" is data to its last byte: three bytes are written, and 3 is returned. -/
theorem base64_decode_length_four :
    TellsLength [0x51,0x55,0x4a,0x44] 0 [0x41,0x42,0x43] := by
  have haccepted : doDecodeWith true [0x51,0x55,0x4a,0x44] 0=.accepted 3 [0x41,0x42,0x43] := by
    rw [doDecodeWith_short _ _ (by simp)]
    rfl
  refine (base64_decode_length_iff _ 0 3 _ (by simp) haccepted).mpr (Or.inl ?_)
  decide

/-- "QQ==" gives one byte, and 3 is returned. -/
theorem base64_decode_length_padded :
    doDecodeWith true [0x51,0x51,0x3d,0x3d] 0=.accepted 3 [0x41] ∧
      base64DecodeReturn [0x51,0x51,0x3d,0x3d] 0=some 3 ∧
      ¬TellsLength [0x51,0x51,0x3d,0x3d] 0 [0x41] := by
  have haccepted : doDecodeWith true [0x51,0x51,0x3d,0x3d] 0=.accepted 3 [0x41] := by
    rw [doDecodeWith_short _ _ (by simp)]
    rfl
  have hvalue : base64DecodeReturn [0x51,0x51,0x3d,0x3d] 0=some 3 := by
    rw [base64DecodeReturn,haccepted]
    rfl
  refine ⟨haccepted,hvalue,fun ht => ?_⟩
  have hexact := ht.exact
  rw [hvalue] at hexact
  exact absurd hexact (by decide)

end IdearNiu.AndroidBase64
