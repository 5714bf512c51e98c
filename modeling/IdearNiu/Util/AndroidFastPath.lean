import IdearNiu.Util.AndroidBase64RoundTrip

namespace IdearNiu.AndroidBase64

open Words

/-- How do_decode ends, with the bytes written also where it returns false; faulted is a read
past the end of the input. -/
inductive Outcome where
  | faulted
  | rejected (written : List Byte)
  | accepted (returned : Int) (written : List Byte)

/-- The block that takes four symbols at a time, with the index p of the input left. The test
is of the int p+4; none is a read past the end. -/
def fastBlock (alphabet : List Int) (len p : Int) (m : Machine) :
    List Byte → Option (Int × Machine × List Byte)
  | a::b::c::d::input =>
    if int32 (p+4)≤len then
      let value := (position alphabet a<<<18)|||(position alphabet b<<<12)|||
        (position alphabet c<<<6)|||position alphabet d
      if value.msb then some (p,{ m with value := value },a::b::c::d::input)
      else fastBlock alphabet len (int32 (p+4)) ⟨m.state,value,m.output++triple value⟩ input
    else some (p,m,a::b::c::d::input)
  | input => if int32 (p+4)≤len then none else some (p,m,input)

/-- The head of the loop's body; fast says whether the block is there. -/
def tryBlock (fast : Bool) (alphabet : List Int) (len p : Int) (m : Machine)
    (input : List Byte) : Option (Int × Machine × List Byte) :=
  if fast ∧ m.state=.zero then fastBlock alphabet len p m input else some (p,m,input)

theorem fastBlock_length (alphabet : List Int) (len p p' : Int) (m m' : Machine)
    (input rest : List Byte) (h : fastBlock alphabet len p m input=some (p',m',rest)) :
    rest.length ≤ input.length := by
  fun_induction fastBlock alphabet len p m input with
  | case1 p m a b c d input _ value _ =>
    cases h
    exact Nat.le_refl _
  | case2 p m a b c d input _ value _ ih =>
    have := ih h
    simp only [List.length_cons]
    omega
  | case3 p m a b c d input _ =>
    cases h
    exact Nat.le_refl _
  | case4 => cases h
  | case5 =>
    cases h
    exact Nat.le_refl _

theorem tryBlock_length (fast : Bool) (alphabet : List Int) (len p p' : Int) (m m' : Machine)
    (input rest : List Byte) (h : tryBlock fast alphabet len p m input=some (p',m',rest)) :
    rest.length ≤ input.length := by
  rw [tryBlock] at h
  split_ifs at h
  · exact fastBlock_length alphabet len p p' m m' input rest h
  · cases h
    exact Nat.le_refl _

/-- The switch after the loop and the return of len*3/4. -/
def leave (len : Int) (m : Machine) : Outcome :=
  match finish m with
  | none => .rejected m.output
  | some output => .accepted ((int32 (len*3)).tdiv 4) output

/-- The loop over the input; the break of the block is the test after it. -/
def decodeAt (fast : Bool) (alphabet : List Int) (len p : Int) (m : Machine)
    (input : List Byte) : Outcome :=
  if p<len then
    match _h : tryBlock fast alphabet len p m input with
    | none => .faulted
    | some (p',started,left) =>
      if len≤p' then leave len started
      else match left with
        | [] => .faulted
        | c::rest =>
          match step started (position alphabet c) with
          | none => .rejected started.output
          | some next => decodeAt fast alphabet len (int32 (p'+1)) next rest
  else leave len m
termination_by input.length
decreasing_by
  have hlen := tryBlock_length _ _ _ _ _ _ _ _ _ _h
  rw [List.length_cons] at hlen
  omega

/-- do_decode as it is, or without the block of the fast path. -/
def doDecodeWith (fast : Bool) (input : List Byte) (flags : Word) : Outcome :=
  decodeAt fast (decodeAlphabet flags) (int32 input.length) 0 ⟨.zero,0,[]⟩ input

/-- The state machine alone, from a state on. -/
def plain (alphabet : List Int) (len : Int) (m : Machine) : List Byte → Outcome
  | [] => leave len m
  | c::input =>
    match step m (position alphabet c) with
    | none => .rejected m.output
    | some next => plain alphabet len next input

theorem plain_zero_value (alphabet : List Int) (len : Int) (v w : Word)
    (output input : List Byte) :
    plain alphabet len ⟨.zero,v,output⟩ input=plain alphabet len ⟨.zero,w,output⟩ input := by
  induction input with
  | nil => rfl
  | cons c input ih =>
    simp only [plain,step]
    split_ifs
    · rfl
    · rfl
    · exact ih

theorem plain_data (alphabet : List Int) (len : Int) (output input : List Byte) (v w : Word)
    (a b c d : Byte) (ha : (position alphabet a).msb=false)
    (hb : (position alphabet b).msb=false) (hc : (position alphabet c).msb=false)
    (hd : (position alphabet d).msb=false) :
    plain alphabet len ⟨.zero,v,output⟩ (a::b::c::d::input)=
      plain alphabet len ⟨.zero,w,output++triple ((position alphabet a<<<18)|||
        (position alphabet b<<<12)|||(position alphabet c<<<6)|||position alphabet d)⟩
        input := by
  simp only [plain,step,ha,hb,hc,hd,Bool.not_false,if_true,tuple_value]
  exact plain_zero_value alphabet len _ _ _ _

/-- The positions at which a loop with len bytes can stand. -/
structure Within (len p : Int) (input : List Byte) : Prop where
  start : 0≤p
  whole : p+input.length=len
  len_lt : len<2^31

theorem Within.next {len p : Int} {c : Byte} {input : List Byte} (h : Within len p (c::input)) :
    int32 (p+1)=p+1 ∧ p<len ∧ Within len (p+1) input := by
  obtain ⟨h0,hwhole,hlt⟩ := h
  rw [List.length_cons] at hwhole
  refine ⟨int32_of_range _ (by omega) (by omega),by omega,by omega,by omega,hlt⟩

/-- What the loop does with the outcome of the block. -/
def resume (fast : Bool) (alphabet : List Int) (len : Int) :
    Option (Int × Machine × List Byte) → Outcome
  | none => .faulted
  | some (p,started,left) =>
    if len≤p then leave len started
    else match left with
      | [] => .faulted
      | c::rest =>
        match step started (position alphabet c) with
        | none => .rejected started.output
        | some next => decodeAt fast alphabet len (int32 (p+1)) next rest

theorem decodeAt_eq (fast : Bool) (alphabet : List Int) (len p : Int) (m : Machine)
    (input : List Byte) (hp : p<len) :
    decodeAt fast alphabet len p m input=
      resume fast alphabet len (tryBlock fast alphabet len p m input) := by
  rw [decodeAt,if_pos hp]
  split
  · next hnone =>
    rw [hnone]
    rfl
  · next p' started left hsome =>
    refine Eq.trans ?_ (congrArg (resume fast alphabet len) hsome.symm)
    cases left <;> rfl

/-- A pass of the loop through the state machine. -/
theorem decodeAt_step (fast : Bool) (alphabet : List Int) (len p : Int) (m started : Machine)
    (c : Byte) (input : List Byte) (h : Within len p (c::input))
    (htry : tryBlock fast alphabet len p m (c::input)=some (p,started,c::input)) :
    decodeAt fast alphabet len p m (c::input)=
      match step started (position alphabet c) with
      | none => .rejected started.output
      | some next => decodeAt fast alphabet len (p+1) next input := by
  obtain ⟨hint,hp,_⟩ := h.next
  rw [decodeAt_eq fast alphabet len p m _ hp,htry,resume,if_neg (by omega),hint]

theorem decodeAt_end (fast : Bool) (alphabet : List Int) (len p : Int) (m : Machine)
    (h : Within len p []) : decodeAt fast alphabet len p m []=leave len m := by
  have hp := h.whole
  rw [List.length_nil] at hp
  rw [decodeAt,if_neg (by omega)]

/-- Without the block the loop is the state machine. -/
theorem decodeAt_plain (alphabet : List Int) (len p : Int) (m : Machine) (input : List Byte)
    (h : Within len p input) : decodeAt false alphabet len p m input=plain alphabet len m input := by
  induction input generalizing p m with
  | nil => exact decodeAt_end false alphabet len p m h
  | cons c input ih =>
    rw [decodeAt_step false alphabet len p m m c input h (by simp [tryBlock]),plain]
    cases step m (position alphabet c) with
    | none => rfl
    | some next => exact ih (p+1) next h.next.2.2

def data (alphabet : List Int) (c : Byte) : Bool := !(position alphabet c).msb

/-- The data bytes of the open tuple; the two states after a '=' have none. -/
def DecodeState.taken : DecodeState → Nat
  | .zero => 0
  | .one => 1
  | .two => 2
  | .three => 3
  | .four => 4
  | .five => 4

/-- After these bytes a tuple starts: there is no '=' among them, and their data bytes and
those taken before fill whole tuples. -/
def TupleStart (alphabet : List Int) (taken : Nat) (before : List Byte) : Prop :=
  (∀ c∈before,position alphabet c≠equals) ∧ (taken+before.countP (data alphabet))%4=0

/-- The test of p+4 is made where the sum is past the largest int: at the start of a tuple
inside the input, or at its end when the four bytes before are data. -/
def Overflows (alphabet : List Int) (taken : Nat) (p : Int) (input : List Byte) : Prop :=
  ∃ before rest,input=before++rest ∧ 2^31-4≤p+before.length ∧
    TupleStart alphabet taken before ∧
    (rest≠[] ∨ ∃ first quad,before=first++quad ∧ quad.length=4 ∧ ∀ c∈quad,data alphabet c)

theorem tupleStart_mod (alphabet : List Int) (n k : Nat) (before : List Byte) (h : n%4=k%4) :
    TupleStart alphabet n before ↔ TupleStart alphabet k before := by
  have hmod : (n+before.countP (data alphabet))%4=(k+before.countP (data alphabet))%4 := by
    omega
  rw [TupleStart,TupleStart,hmod]

theorem overflows_mod (alphabet : List Int) (n k : Nat) (p : Int) (input : List Byte)
    (h : n%4=k%4) : Overflows alphabet n p input ↔ Overflows alphabet k p input := by
  simp only [Overflows,tupleStart_mod alphabet n k _ h]

theorem overflows_nil (alphabet : List Int) (taken : Nat) (p : Int) :
    ¬Overflows alphabet taken p [] := by
  intro hgiven
  obtain ⟨before,rest,he,_,_,hend⟩ := hgiven
  obtain ⟨rfl,rfl⟩ := List.append_eq_nil_iff.mp he.symm
  rcases hend with hne|⟨first,quad,hq,hlen,_⟩
  · exact hne rfl
  · rw [(List.append_eq_nil_iff.mp hq.symm).2] at hlen
    cases hlen

/-- A byte that the state machine takes moves the place of the overflow by one. -/
theorem overflows_cons (alphabet : List Int) (taken : Nat) (p : Int) (c : Byte)
    (input : List Byte)
    (h : taken%4=0 → p<2^31-4 ∧ ¬((c::input).length=4 ∧ ∀ x∈c::input,data alphabet x)) :
    Overflows alphabet taken p (c::input) ↔ position alphabet c≠equals ∧
      Overflows alphabet (taken+if data alphabet c then 1 else 0) (p+1) input := by
  constructor
  · intro hgiven
    obtain ⟨before,rest,he,hp,⟨hno,hcount⟩,hend⟩ := hgiven
    cases before with
    | nil =>
      have := (h (by simpa using hcount)).1
      simp only [List.length_nil,Nat.cast_zero] at hp
      omega
    | cons x before =>
      obtain ⟨rfl,rfl⟩ := List.cons.inj he
      refine ⟨hno c List.mem_cons_self,before,rest,rfl,?_,⟨fun x hx =>
        hno x (List.mem_cons_of_mem c hx),?_⟩,?_⟩
      · rw [List.length_cons] at hp
        omega
      · rw [List.countP_cons] at hcount
        omega
      · rcases hend with hne|⟨first,quad,hq,hlen,hdata⟩
        · exact Or.inl hne
        · by_cases hrest : rest=[]
          · cases first with
            | nil =>
              rw [List.nil_append] at hq
              rw [← hq] at hlen hdata
              have hall := List.countP_eq_length.mpr hdata
              rw [hall,hlen] at hcount
              exact absurd ⟨by simpa [hrest] using hlen,by simpa [hrest] using hdata⟩
                (h (by omega)).2
            | cons y first =>
              exact Or.inr ⟨first,quad,(List.cons.inj hq).2,hlen,hdata⟩
          · exact Or.inl hrest
  · intro hgiven
    obtain ⟨hc,before,rest,rfl,hp,⟨hno,hcount⟩,hend⟩ := hgiven
    refine ⟨c::before,rest,rfl,?_,⟨?_,?_⟩,?_⟩
    · rw [List.length_cons]
      omega
    · exact List.forall_mem_cons.mpr ⟨hc,hno⟩
    · rw [List.countP_cons]
      omega
    · refine hend.imp_right ?_
      intro hgiven
      obtain ⟨first,quad,rfl,hquad⟩ := hgiven
      exact ⟨c::first,quad,rfl,hquad⟩

/-- The machine in states 0 to 3 on each kind of byte. -/
theorem step_data (m : Machine) (d : Word) (hm : m.state.taken<4) (hd : d.msb=false) :
    ∃ next,step m d=some next ∧ next.state.taken=(m.state.taken+1)%4 := by
  obtain ⟨state,value,output⟩ := m
  cases state <;> simp_all [step,DecodeState.taken]

theorem step_equals (m : Machine) (next : Machine) (h : step m equals=some next) :
    next.state.taken=4 := by
  have hmsb : equals.msb=true := by decide
  have hne : equals≠skip := by decide
  obtain ⟨state,value,output⟩ := m
  cases state <;> simp [step,hmsb,hne] at h <;> simp [← h,DecodeState.taken]

/-- Once a '=' is read the machine stays in the states after it. -/
theorem step_late (m next : Machine) (d : Word) (hm : m.state.taken=4)
    (h : step m d=some next) : next.state.taken=4 := by
  obtain ⟨state,value,output⟩ := m
  cases state <;> simp only [DecodeState.taken] at hm <;> simp only [step] at h
  case four =>
    split_ifs at h <;> simp [← Option.some.inj h,DecodeState.taken]
  case five =>
    split_ifs at h
    simp [← Option.some.inj h,DecodeState.taken]
  all_goals omega

theorem tryBlock_late (fast : Bool) (alphabet : List Int) (len p : Int) (m : Machine)
    (input : List Byte) (hm : m.state≠.zero) :
    tryBlock fast alphabet len p m input=some (p,m,input) := by
  simp [tryBlock,hm]

theorem decodeAt_late (fast : Bool) (alphabet : List Int) (len p : Int) (m : Machine)
    (input : List Byte) (hm : m.state.taken=4) (h : Within len p input) :
    decodeAt fast alphabet len p m input=plain alphabet len m input := by
  induction input generalizing p m with
  | nil => exact decodeAt_end fast alphabet len p m h
  | cons c input ih =>
    have hne : m.state≠.zero := by
      intro he
      rw [he] at hm
      cases hm
    rw [decodeAt_step fast alphabet len p m m c input h (tryBlock_late _ _ _ _ _ _ hne),plain]
    cases hstep : step m (position alphabet c) with
    | none => rfl
    | some next => exact ih (p+1) next (step_late m next _ hm hstep) h.next.2.2

/-- What is to be shown of the loop with the block, from a state on. -/
def Matches (alphabet : List Int) (len p : Int) (m : Machine) (input : List Byte) : Prop :=
  (Overflows alphabet m.state.taken p input → decodeAt true alphabet len p m input=.faulted) ∧
  (¬Overflows alphabet m.state.taken p input →
    decodeAt true alphabet len p m input=plain alphabet len m input)

/-- A pass that the block leaves to the state machine. -/
theorem matches_step (flags : Word) (len p : Int) (m started : Machine) (c : Byte)
    (input : List Byte) (h : Within len p (c::input)) (hm : m.state.taken<4)
    (htry : tryBlock true (decodeAlphabet flags) len p m (c::input)=some (p,started,c::input))
    (hstate : started.state=m.state)
    (hplain : plain (decodeAlphabet flags) len m (c::input)=
      plain (decodeAlphabet flags) len started (c::input))
    (hfirst : m.state.taken%4=0 → p<2^31-4 ∧
      ¬((c::input).length=4 ∧ ∀ x∈c::input,data (decodeAlphabet flags) x))
    (ih : ∀ next,next.state.taken<4 → Matches (decodeAlphabet flags) len (p+1) next input) :
    Matches (decodeAlphabet flags) len p m (c::input) := by
  rw [Matches,hplain,decodeAt_step true _ len p m started c input h htry,
    overflows_cons _ _ _ _ _ hfirst,plain]
  rw [← hstate] at hm ⊢
  have hmsb : (!skip.msb)=false := by decide
  rcases position_cases flags c with hc|hc|hc
  · have hnext := ih started hm
    rw [Matches] at hnext
    rw [hc,step_skip,data,hc,hmsb]
    simpa [skip,equals] using hnext
  · refine ⟨fun hover => absurd hc hover.1,fun _ => ?_⟩
    rw [hc]
    cases hstep : step started equals with
    | none => rfl
    | some next =>
      exact decodeAt_late true _ len (p+1) next input (step_equals started next hstep)
        h.next.2.2
  · have hd := msb_of_lt _ hc
    obtain ⟨next,hstep,htaken⟩ := step_data started _ hm hd
    have hne : position (decodeAlphabet flags) c≠equals := by
      intro he
      rw [he] at hd
      cases hd
    have hnext := ih next (by omega)
    have hmod := overflows_mod (decodeAlphabet flags) next.state.taken
      (started.state.taken+1) (p+1) input (by omega)
    rw [Matches,hmod] at hnext
    rw [hstep,data,hd]
    simpa [hne] using hnext

theorem int32_past (p : Int) (h0 : 2^31-4≤p) (h1 : p<2^31) : int32 (p+4)=p+4-2^32 := by
  rw [int32,Int.bmod_def]
  omega

/-- The sign of the four positions together: it is set unless all are data. -/
theorem quad_msb (flags : Word) (a b c d : Byte) :
    ((position (decodeAlphabet flags) a<<<18)|||(position (decodeAlphabet flags) b<<<12)|||
      (position (decodeAlphabet flags) c<<<6)|||position (decodeAlphabet flags) d).msb=false ↔
      ∀ x∈[a,b,c,d],data (decodeAlphabet flags) x := by
  simp only [BitVec.msb_or,Bool.or_eq_false_iff,tuple_msb,Nat.reduceLeDiff]
  simp [data,and_assoc]

/-- Four data bytes before more input: the block goes on where the loop would start again. -/
theorem decodeAt_quad (flags : Word) (len p : Int) (m : Machine) (a b c d : Byte)
    (input : List Byte) (value : Word) (hm : m.state=.zero)
    (h : Within len p (a::b::c::d::input)) (hvalue : value=
      (position (decodeAlphabet flags) a<<<18)|||(position (decodeAlphabet flags) b<<<12)|||
        (position (decodeAlphabet flags) c<<<6)|||position (decodeAlphabet flags) d)
    (hmsb : value.msb=false) :
    tryBlock true (decodeAlphabet flags) len p m (a::b::c::d::input)=
        fastBlock (decodeAlphabet flags) len (p+4) ⟨.zero,value,m.output++triple value⟩ input ∧
      Within len (p+4) input ∧ ∀ x∈[a,b,c,d],data (decodeAlphabet flags) x := by
  obtain ⟨h0,hwhole,hlt⟩ := h
  simp only [List.length_cons] at hwhole
  have hint : int32 (p+4)=p+4 := int32_of_range _ (by omega) (by omega)
  refine ⟨?_,⟨by omega,by omega,hlt⟩,?_⟩
  · rw [tryBlock,if_pos ⟨rfl,hm⟩,fastBlock,if_pos (by omega),← hvalue,
      if_neg (by simp [hmsb]),hint,hm]
  · rw [hvalue] at hmsb
    exact (quad_msb flags a b c d).mp hmsb

theorem data_ne_equals (flags : Word) (l : List Byte)
    (h : ∀ x∈l,data (decodeAlphabet flags) x) :
    ∀ x∈l,position (decodeAlphabet flags) x≠equals := by
  intro x hx he
  have hd := h x hx
  rw [data,he] at hd
  exact absurd hd (by decide)

theorem overflows_quad (flags : Word) (p : Int) (a b c d : Byte) (input : List Byte)
    (hp : p<2^31-4) (hne : input≠[]) (hdata : ∀ x∈[a,b,c,d],data (decodeAlphabet flags) x) :
    Overflows (decodeAlphabet flags) 0 p (a::b::c::d::input) ↔
      Overflows (decodeAlphabet flags) 0 (p+4) input := by
  have hlen : ¬((a::b::c::d::input).length=4 ∧
      ∀ x∈a::b::c::d::input,data (decodeAlphabet flags) x) :=
    fun hall => hne (by simpa using hall.1)
  have hequals := data_ne_equals flags _ hdata
  have hda := hdata a (by simp)
  have hdb := hdata b (by simp)
  have hdc := hdata c (by simp)
  have hdd := hdata d (by simp)
  rw [overflows_cons _ 0 p a _ (fun _ => ⟨hp,hlen⟩),hda,
    overflows_cons _ _ _ b _ (by simp),hdb,overflows_cons _ _ _ c _ (by simp),hdc,
    overflows_cons _ _ _ d _ (by simp),hdd,overflows_mod _ _ 0 _ input (by simp)]
  rw [show p+1+1+1+1=p+4 by ring]
  simp [hequals a,hequals b,hequals c,hequals d]

theorem fastBlock_short (alphabet : List Int) (len p : Int) (m : Machine) (input : List Byte)
    (h : input.length<4) :
    fastBlock alphabet len p m input=
      if int32 (p+4)≤len then none else some (p,m,input) := by
  match input with
  | [] => rfl
  | [_] => rfl
  | [_,_] => rfl
  | [_,_,_] => rfl
  | _::_::_::_::_ =>
    simp only [List.length_cons] at h
    omega

/-- Four bytes of which the block takes all, or none. -/
theorem matches_quad (flags : Word) (len p : Int) (m : Machine) (a b c d : Byte)
    (input : List Byte) (h : Within len p (a::b::c::d::input)) (hzero : m.state=.zero)
    (hnext : ∀ next : Machine,next.state.taken<4 →
      Matches (decodeAlphabet flags) len (p+1) next (b::c::d::input))
    (hrest : ∀ next : Machine,next.state.taken<4 → Within len (p+4) input →
      Matches (decodeAlphabet flags) len (p+4) next input) :
    Matches (decodeAlphabet flags) len p m (a::b::c::d::input) := by
  obtain ⟨value,hvalue⟩ : ∃ value,value=
    (position (decodeAlphabet flags) a<<<18)|||(position (decodeAlphabet flags) b<<<12)|||
      (position (decodeAlphabet flags) c<<<6)|||position (decodeAlphabet flags) d := ⟨_,rfl⟩
  have htaken : m.state.taken=0 := by rw [hzero]; rfl
  obtain ⟨h0,hwhole,hlt⟩ := id h
  simp only [List.length_cons] at hwhole
  have hlow : p<2^31-4 := by omega
  cases hmsb : value.msb with
  | true =>
    refine matches_step flags len p m { m with value := value } a (b::c::d::input) h (by omega)
      ?_ rfl ?_ (fun _ => ⟨hlow,?_⟩) hnext
    · rw [tryBlock,if_pos ⟨rfl,hzero⟩,fastBlock,int32_of_range _ (by omega) (by omega),
        if_pos (by omega),← hvalue,if_pos hmsb]
    · obtain ⟨state,v,output⟩ := m
      rw [show state=.zero from hzero]
      exact plain_zero_value _ _ _ _ _ _
    · intro hgiven
      obtain ⟨_,hall⟩ := hgiven
      have hclear := (quad_msb flags a b c d).mpr
        (fun x hx => hall x (List.mem_append_left input hx))
      rw [← hvalue,hmsb] at hclear
      cases hclear
  | false =>
    obtain ⟨htry,hwithin,hdata⟩ := decodeAt_quad flags len p m a b c d input value hzero h
      hvalue hmsb
    have hplain : plain (decodeAlphabet flags) len m (a::b::c::d::input)=
        plain (decodeAlphabet flags) len ⟨.zero,value,m.output++triple value⟩ input := by
      obtain ⟨state,v,output⟩ := m
      simp only [data,Bool.not_eq_true'] at hdata
      rw [show state=.zero from hzero,plain_data _ len output input v value a b c d
        (hdata a (by simp)) (hdata b (by simp)) (hdata c (by simp)) (hdata d (by simp)),hvalue]
    by_cases hnil : input=[]
    · rw [hnil,List.length_nil] at hwhole
      rw [Matches,hplain,decodeAt_eq true _ len p m _ (by omega),htry,hnil,
        fastBlock_short _ _ _ _ _ (by simp),htaken]
      by_cases hend : 2^31-4≤p+4
      · rw [int32_past (p+4) hend (by omega),if_pos (by omega)]
        refine ⟨fun _ => rfl,fun hover => absurd ?_ hover⟩
        refine ⟨[a,b,c,d],[],rfl,by simpa using hend,⟨?_,?_⟩,
          Or.inr ⟨[],[a,b,c,d],rfl,rfl,hdata⟩⟩
        · exact data_ne_equals flags _ hdata
        · rw [List.countP_eq_length.mpr hdata]
          simp
      · rw [int32_of_range _ (by omega) (by omega),if_neg (by omega),resume,if_pos (by omega)]
        refine ⟨?_,fun _ => rfl⟩
        intro hgiven
        obtain ⟨before,rest,he,hp,_⟩ := hgiven
        have hlen := congrArg List.length he
        simp only [List.length_append,List.length_cons,List.length_nil] at hlen
        omega
    · have hpos : p+4<len := by
        have := List.length_pos_iff.mpr hnil
        omega
      have hgo := hrest ⟨.zero,value,m.output++triple value⟩ (Nat.zero_lt_succ 3) hwithin
      rw [Matches,htaken,hplain,overflows_quad flags p a b c d input hlow hnil hdata,
        decodeAt_eq true _ len p m _ (by omega),htry]
      rw [Matches,decodeAt_eq true _ len (p+4) _ _ hpos,tryBlock,if_pos ⟨rfl,rfl⟩] at hgo
      exact hgo

/-- A tuple that starts where p+4 is past the largest int: the sum is negative, the test passes
and fewer than four bytes are left. -/
theorem matches_past (flags : Word) (len p : Int) (m : Machine) (c : Byte) (input : List Byte)
    (h : Within len p (c::input)) (hzero : m.state=.zero) (hpast : 2^31-4≤p) :
    Matches (decodeAlphabet flags) len p m (c::input) := by
  have hwhole := h.whole
  have hlt := h.len_lt
  rw [List.length_cons] at hwhole
  refine ⟨fun _ => ?_,fun hover => absurd ?_ hover⟩
  · rw [decodeAt_eq true _ len p m _ h.next.2.1,tryBlock,if_pos ⟨rfl,hzero⟩,
      fastBlock_short _ _ _ _ _ (by simp only [List.length_cons]; omega),
      int32_past p hpast (by omega),if_pos (by omega),resume]
  · refine ⟨[],c::input,rfl,by simpa using hpast,⟨by simp,?_⟩,Or.inl (by simp)⟩
    simp [hzero,DecodeState.taken]

/-- A tuple that starts with fewer than four bytes left. -/
theorem matches_short (flags : Word) (len p : Int) (m : Machine) (c : Byte) (input : List Byte)
    (h : Within len p (c::input)) (hzero : m.state=.zero) (hlow : p<2^31-4)
    (hshort : (c::input).length<4)
    (hnext : ∀ next : Machine,next.state.taken<4 →
      Matches (decodeAlphabet flags) len (p+1) next input) :
    Matches (decodeAlphabet flags) len p m (c::input) := by
  have h0 := h.start
  have hwhole := h.whole
  apply matches_step flags len p m m c input h (by rw [hzero]; exact Nat.zero_lt_succ 3) _ rfl
    rfl (fun _ => ⟨hlow,fun hall => absurd hall.1 (by omega)⟩) hnext
  rw [tryBlock,if_pos ⟨rfl,hzero⟩,fastBlock_short _ _ _ _ _ hshort,
    int32_of_range _ (by omega) (by omega),if_neg (by omega)]

/-- The loop with the block does what the state machine does, or reads past the end where the
sum p+4 is past the largest int. -/
theorem decodeAt_matches (flags : Word) (len p : Int) (m : Machine) (input : List Byte)
    (h : Within len p input) (hm : m.state.taken<4) :
    Matches (decodeAlphabet flags) len p m input := by
  induction hn : input.length using Nat.strong_induction_on generalizing input p m with
  | _ n ih =>
    cases input with
    | nil =>
      refine ⟨fun hover => absurd hover (overflows_nil _ _ _),fun _ => ?_⟩
      exact decodeAt_end true _ len p m h
    | cons c input =>
      rw [List.length_cons] at hn
      have hnext : ∀ next : Machine,next.state.taken<4 →
          Matches (decodeAlphabet flags) len (p+1) next input :=
        fun next hlow => ih input.length (by omega) (p+1) next input h.next.2.2 hlow rfl
      by_cases hzero : m.state=.zero
      · by_cases hpast : 2^31-4≤p
        · exact matches_past flags len p m c input h hzero hpast
        · match input with
          | [] => exact matches_short flags len p m c _ h hzero (by omega) (by simp) hnext
          | [_] => exact matches_short flags len p m c _ h hzero (by omega) (by simp) hnext
          | [_,_] => exact matches_short flags len p m c _ h hzero (by omega) (by simp) hnext
          | b::c'::d::input =>
            simp only [List.length_cons] at hn
            apply matches_quad flags len p m c b c' d input h hzero hnext
            intro next hlow hw
            exact ih input.length (by omega) (p+4) next input hw hlow rfl
      · apply matches_step flags len p m m c input h hm (tryBlock_late _ _ _ _ _ _ hzero) rfl rfl
          _ hnext
        -- inside a tuple there is nothing to exclude
        intro hmod
        exfalso
        cases hs : m.state <;> simp_all [DecodeState.taken]

theorem plain_ne_faulted (alphabet : List Int) (len : Int) (m : Machine) (input : List Byte) :
    plain alphabet len m input≠.faulted := by
  induction input generalizing m with
  | nil =>
    rw [plain,leave]
    cases finish m <;> simp
  | cons c input ih =>
    rw [plain]
    cases step m (position alphabet c) with
    | none => simp
    | some next => exact ih next

/-- An overflow needs an input that is close to the largest int in length. -/
theorem overflows_length (alphabet : List Int) (taken : Nat) (p : Int) (input : List Byte)
    (h : Overflows alphabet taken p input) : 2^31-4≤p+input.length := by
  obtain ⟨before,rest,rfl,hp,_⟩ := h
  rw [List.length_append]
  omega

theorem within_input (input : List Byte) (hlen : input.length<2^31) :
    int32 input.length=input.length ∧ Within (int32 input.length) 0 input := by
  have hint : int32 input.length=input.length := int32_of_range _ (by omega) (by omega)
  rw [hint]
  exact ⟨rfl,by omega,by omega,by omega⟩

theorem doDecodeWith_fast (input : List Byte) (flags : Word) (hlen : input.length<2^31) :
    (Overflows (decodeAlphabet flags) 0 0 input → doDecodeWith true input flags=.faulted) ∧
    (¬Overflows (decodeAlphabet flags) 0 0 input →
      doDecodeWith true input flags=doDecodeWith false input flags) := by
  have hwithin := (within_input input hlen).2
  rw [doDecodeWith,doDecodeWith,decodeAt_plain _ _ _ _ _ hwithin]
  exact decodeAt_matches flags _ 0 ⟨.zero,0,[]⟩ input hwithin (Nat.zero_lt_succ 3)

/-- Where the machine gives no fault the outcome is the one without the index. -/
theorem plain_machine (alphabet : List Int) (len : Int) (m : Machine) (input : List Byte) :
    match machine alphabet m input with
    | none => ∃ written,plain alphabet len m input=.rejected written
    | some output => plain alphabet len m input=.accepted ((int32 (len*3)).tdiv 4) output := by
  induction input generalizing m with
  | nil =>
    rw [machine,plain,leave]
    cases finish m with
    | none => exact ⟨m.output,rfl⟩
    | some output => rfl
  | cons c input ih =>
    rw [machine,plain]
    cases step m (position alphabet c) with
    | none => exact ⟨m.output,rfl⟩
    | some next => exact ih next

/-- The model with the index refines the one that takes the input as a list. -/
theorem doDecodeWith_doDecode (input : List Byte) (flags : Word) (hlen : input.length<2^31)
    (hno : ¬Overflows (decodeAlphabet flags) 0 0 input) :
    match doDecodeWith true input flags with
    | .faulted => False
    | .rejected _ => doDecode input flags=.rejected
    | .accepted returned written => doDecode input flags=.accepted returned written := by
  have hplain := plain_machine (decodeAlphabet flags) (int32 input.length) ⟨.zero,0,[]⟩ input
  rw [(doDecodeWith_fast input flags hlen).2 hno,doDecodeWith,
    decodeAt_plain _ _ _ _ _ (within_input input hlen).2,doDecode,decodeLoop_eq_machine]
  cases hm : machine (decodeAlphabet flags) ⟨.zero,0,[]⟩ input with
  | none =>
    rw [hm] at hplain
    obtain ⟨written,hw⟩ := hplain
    rw [hw]
  | some output =>
    rw [hm] at hplain
    rw [hplain]

/-- The block of the fast path changes nothing, neither the result nor the bytes written,
exactly when the sum p+4 is never formed past the largest int. -/
theorem do_decode_fast_path_iff (input : List Byte) (flags : Word)
    (hlen : input.length<2^31) :
    doDecodeWith true input flags=doDecodeWith false input flags ↔
      ¬Overflows (decodeAlphabet flags) 0 0 input := by
  obtain ⟨hfault,hsame⟩ := doDecodeWith_fast input flags hlen
  refine ⟨fun he hover => ?_,hsame⟩
  rw [hfault hover,doDecodeWith,decodeAt_plain _ _ _ _ _ (within_input input hlen).2] at he
  exact plain_ne_faulted _ _ _ _ he.symm

theorem do_decode_fast_path_four :
    doDecodeWith true [0x51,0x55,0x49,0x3d] 0=doDecodeWith false [0x51,0x55,0x49,0x3d] 0 := by
  refine (do_decode_fast_path_iff _ 0 (by simp)).mpr (fun hover => ?_)
  have hlong := overflows_length _ _ _ _ hover
  simp at hlong

/-- Of 2^31-1 bytes 'A' the block reads past the end: after 2^31-4 of them p+4 is -2^31. -/
theorem do_decode_fast_path_faults :
    let input : List Byte := List.replicate (2^31-1) 0x41
    doDecodeWith true input 0=.faulted ∧
      doDecodeWith true input 0≠doDecodeWith false input 0 := by
  intro input
  have hlen : input.length<2^31 := by
    rw [List.length_replicate]
    omega
  have hover : Overflows (decodeAlphabet 0) 0 0 input := by
    refine ⟨List.replicate (2^31-4) 0x41,List.replicate 3 0x41,?_,?_,⟨?_,?_⟩,Or.inl (by simp)⟩
    · rw [List.replicate_append_replicate,show 2^31-4+3=2^31-1 by norm_num]
    · rw [List.length_replicate]
      omega
    · intro c hc
      rw [List.eq_of_mem_replicate hc]
      decide
    · rw [List.countP_replicate,if_pos (by decide)]
      norm_num
  have hfault := (doDecodeWith_fast input 0 hlen).1 hover
  refine ⟨hfault,fun he => ?_⟩
  rw [hfault,doDecodeWith,decodeAt_plain _ _ _ _ _ (within_input input hlen).2] at he
  exact plain_ne_faulted _ _ _ _ he.symm

end IdearNiu.AndroidBase64
