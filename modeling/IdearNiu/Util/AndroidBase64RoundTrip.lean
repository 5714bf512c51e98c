import IdearNiu.Util.AndroidBase64
import IdearNiu.Util.Base64RoundTrip

namespace IdearNiu.AndroidBase64

open Words

/-- The state machine alone, without the fast path. -/
def machine (alphabet : List Int) (m : Machine) : List Byte → Option (List Byte)
  | [] => finish m
  | c::input => (step m (position alphabet c)).bind (fun m => machine alphabet m input)

/-- Between two tuples the machine has no use for value. -/
theorem machine_zero_value (alphabet : List Int) (v w : Word) (output input : List Byte) :
    machine alphabet ⟨.zero,v,output⟩ input=machine alphabet ⟨.zero,w,output⟩ input := by
  induction input with
  | nil => rfl
  | cons c input ih =>
    simp only [machine,step]
    split
    · rfl
    · split
      · rfl
      · simpa only [Option.bind_some] using ih

theorem table_positions (alphabet : List Int)
    (h : alphabet=decodeTable ∨ alphabet=decodeWebsafeTable) :
    alphabet.length=256 ∧ ∀ x∈alphabet,x=-1 ∨ x=-2 ∨ (0≤x ∧ x<64) := by
  rcases h with rfl|rfl <;> decide +kernel

theorem decodeAlphabet_cases (flags : Word) :
    decodeAlphabet flags=decodeTable ∨ decodeAlphabet flags=decodeWebsafeTable := by
  rw [decodeAlphabet]
  split
  · exact Or.inl rfl
  · exact Or.inr rfl

/-- A byte is to be skipped, is a padding character or stands for six bits. -/
theorem position_cases (flags : Word) (c : Byte) :
    position (decodeAlphabet flags) c=skip ∨ position (decodeAlphabet flags) c=equals ∨
      (position (decodeAlphabet flags) c).toNat<64 := by
  obtain ⟨hlen,hall⟩ := table_positions _ (decodeAlphabet_cases flags)
  have hc : c.toNat<(decodeAlphabet flags).length := by
    rw [hlen]
    exact c.isLt
  have hmem : (decodeAlphabet flags).getD c.toNat 0∈decodeAlphabet flags := by
    rw [List.getD_eq_getElem?_getD,List.getElem?_eq_getElem hc,Option.getD_some]
    exact List.getElem_mem hc
  rw [position]
  rcases hall _ hmem with hx|hx|⟨h0,h64⟩
  · rw [hx]
    exact Or.inl rfl
  · rw [hx]
    exact Or.inr (Or.inl rfl)
  · refine Or.inr (Or.inr ?_)
    rw [BitVec.toNat_ofInt]
    omega

theorem msb_of_lt (d : Word) (h : d.toNat<64) : d.msb=false := by
  rw [BitVec.msb_eq_decide,decide_eq_false_iff_not]
  omega

theorem shiftLeft_msb_of_lt (d : Word) (n : Nat) (hn : n≤18) (h : d.toNat<64) :
    (d<<<n).msb=false := by
  rw [BitVec.msb_eq_decide,decide_eq_false_iff_not,BitVec.toNat_shiftLeft,Nat.shiftLeft_eq]
  have hp : 2^n≤2^18 := Nat.pow_le_pow_right (by omega) hn
  have hm : d.toNat*2^n≤63*2^18 := Nat.mul_le_mul (by omega) hp
  have := Nat.mod_le (d.toNat*2^n) (2^32)
  omega

theorem tuple_msb (flags : Word) (c : Byte) (n : Nat) (hn : n≤18) :
    (position (decodeAlphabet flags) c<<<n).msb=(position (decodeAlphabet flags) c).msb := by
  rcases position_cases flags c with h|h|h
  · rw [h]
    interval_cases n <;> decide
  · rw [h]
    interval_cases n <;> decide
  · rw [shiftLeft_msb_of_lt _ n hn h,msb_of_lt _ h]

/-- Four data bytes shifted into value one after the other. -/
theorem tuple_value (x y z w : Word) :
    (((((x<<<6)|||y)<<<6)|||z)<<<6)|||w=(x<<<18)|||(y<<<12)|||(z<<<6)|||w := by
  simp only [BitVec.shiftLeft_or_distrib,← BitVec.shiftLeft_add]

theorem machine_data (alphabet : List Int) (output input : List Byte) (v : Word)
    (a b c d : Byte) (ha : (position alphabet a).msb=false)
    (hb : (position alphabet b).msb=false) (hc : (position alphabet c).msb=false)
    (hd : (position alphabet d).msb=false) :
    machine alphabet ⟨.zero,v,output⟩ (a::b::c::d::input)=
      machine alphabet ⟨.zero,0,output++triple ((position alphabet a<<<18)|||
        (position alphabet b<<<12)|||(position alphabet c<<<6)|||position alphabet d)⟩ input := by
  simp only [machine,step,ha,hb,hc,hd,Bool.not_false,if_true,Option.bind_some,tuple_value]
  exact machine_zero_value alphabet _ _ _ _

/-- Whatever the fast path takes, the machine would have taken, with the same bytes written. -/
theorem machine_fastPath (flags : Word) (output input : List Byte) (v : Word) :
    machine (decodeAlphabet flags) ⟨.zero,v,output⟩ input=
      machine (decodeAlphabet flags) ⟨.zero,(fastPath (decodeAlphabet flags) output v input).2.1,
        (fastPath (decodeAlphabet flags) output v input).1⟩
        (fastPath (decodeAlphabet flags) output v input).2.2 := by
  fun_induction fastPath (decodeAlphabet flags) output v input with
  | case1 output v a b c d input value _ => exact machine_zero_value _ _ _ _ _
  | case2 output v a b c d input value hvalue ih =>
    rw [← ih]
    have hbits : value.msb=false := by simpa using hvalue
    simp only [value,BitVec.msb_or,Bool.or_eq_false_iff,tuple_msb,Nat.reduceLeDiff] at hbits
    obtain ⟨⟨⟨ha,hb⟩,hc⟩,hd⟩ := hbits
    rw [machine_data _ _ _ _ _ _ _ _ ha hb hc hd]
    exact machine_zero_value _ _ _ _ _
  | case3 => rfl

theorem machine_atTuple (flags : Word) (m : Machine) (input : List Byte) :
    machine (decodeAlphabet flags) (atTuple (decodeAlphabet flags) m input).1
      (atTuple (decodeAlphabet flags) m input).2=machine (decodeAlphabet flags) m input := by
  rw [atTuple]
  split
  case isTrue h =>
    obtain ⟨state,v,output⟩ := m
    rw [show state=.zero from h]
    exact (machine_fastPath flags output input v).symm
  case isFalse => rfl

/-- Without the block of the fast path the output is the same, as the source says of it. -/
theorem decodeLoop_eq_machine (flags : Word) (m : Machine) (input : List Byte) :
    (decodeLoop (decodeAlphabet flags) m input).bind finish=
      machine (decodeAlphabet flags) m input := by
  fun_induction decodeLoop (decodeAlphabet flags) m input with
  | case1 m input started h =>
    rw [← machine_atTuple,h]
    rfl
  | case2 m input started c rest h hstep =>
    rw [← machine_atTuple,h,machine,hstep]
    rfl
  | case3 m input started c rest h next hstep ih =>
    rw [ih,← machine_atTuple flags m input,h,machine,hstep]
    rfl

theorem mask_toNat_lt (x : Word) : (x&&&0x3f).toNat<64 := by
  rw [BitVec.toNat_and]
  exact Nat.lt_of_le_of_lt Nat.and_le_right (by decide)

theorem mask_msb (x : Word) : (x&&&0x3f).msb=false := msb_of_lt _ (mask_toNat_lt x)

theorem table_position_symbol : ∀ i<64,
    position decodeTable (encodeTable.getD i 0)=BitVec.ofNat 32 i ∧
      position decodeWebsafeTable (encodeWebsafeTable.getD i 0)=BitVec.ofNat 32 i := by
  decide +kernel

section Decoder

variable (flags decodeFlags : Word) (hurl : flags&&&urlSafe=decodeFlags&&&urlSafe)

include hurl

theorem position_symbol (x : Word) :
    position (decodeAlphabet decodeFlags) (symbol (encodeAlphabet flags) x)=x&&&0x3f := by
  have h := table_position_symbol _ (mask_toNat_lt x)
  rw [BitVec.ofNat_toNat,BitVec.setWidth_eq] at h
  rw [symbol,encodeAlphabet,decodeAlphabet,hurl]
  split
  · exact h.1
  · exact h.2

theorem position_symbol_msb (x : Word) :
    (position (decodeAlphabet decodeFlags) (symbol (encodeAlphabet flags) x)).msb=false := by
  rw [position_symbol flags decodeFlags hurl]
  exact mask_msb x

end Decoder

theorem position_newline (flags : Word) :
    position (decodeAlphabet flags) 0x0d=skip ∧ position (decodeAlphabet flags) 0x0a=skip ∧
      position (decodeAlphabet flags) padding=equals := by
  rcases decodeAlphabet_cases flags with h|h <;> rw [h] <;> decide

theorem step_skip (m : Machine) : step m skip=some m := by
  obtain ⟨state,v,output⟩ := m
  cases state <;> rfl

theorem machine_newline (flags : Word) (g : Globals) (m : Machine) (input : List Byte) :
    machine (decodeAlphabet flags) m (newline g++input)=machine (decodeAlphabet flags) m input := by
  obtain ⟨hcr,hlf,_⟩ := position_newline flags
  rw [newline]
  split <;> simp only [List.cons_append,List.nil_append,machine,hcr,hlf,step_skip,
    Option.bind_some]

theorem triple_group (a b c : Byte) :
    triple ((((((wide a<<<16)|||(wide b<<<8)|||wide c)>>>18)&&&0x3f)<<<18)|||
      (((((wide a<<<16)|||(wide b<<<8)|||wide c)>>>12)&&&0x3f)<<<12)|||
      (((((wide a<<<16)|||(wide b<<<8)|||wide c)>>>6)&&&0x3f)<<<6)|||
      (((wide a<<<16)|||(wide b<<<8)|||wide c)&&&0x3f))=[a,b,c] := by
  simp only [triple,List.cons.injEq,and_true,byte,wide]
  refine ⟨?_,?_,?_⟩ <;> apply BitVec.eq_of_getLsbD_eq <;> intro i hi <;>
    interval_cases i <;> simp

theorem byte_of_one (a : Byte) :
    byte ((((((wide a<<<4)>>>6)&&&0x3f)<<<6)|||((wide a<<<4)&&&0x3f))>>>4)=a := by
  simp only [byte,wide]
  apply BitVec.eq_of_getLsbD_eq
  intro i hi
  interval_cases i <;> simp

theorem bytes_of_two (a b : Byte) (v w : Word) (hv : v=(wide a<<<10)|||(wide b<<<2))
    (hw : w=(((((v>>>12)&&&0x3f)<<<6)|||((v>>>6)&&&0x3f))<<<6)|||(v&&&0x3f)) :
    byte (w>>>10)=a ∧ byte (w>>>2)=b := by
  subst hv hw
  simp only [byte,wide]
  refine ⟨?_,?_⟩ <;> apply BitVec.eq_of_getLsbD_eq <;> intro i hi <;>
    interval_cases i <;> simp

/-- The four symbols of a group. -/
def group (alphabet : List Byte) (a b c : Byte) : List Byte :=
  let v := (wide a<<<16)|||(wide b<<<8)|||wide c
  [symbol alphabet (v>>>18),symbol alphabet (v>>>12),symbol alphabet (v>>>6),symbol alphabet v]

theorem encodeGroups_short (g : Globals) (alphabet : List Byte) (count : Int)
    (input : List Byte) (h : input.length<3) :
    encodeGroups g alphabet count input=([],count,input) := by
  match input,h with
  | [],_ => rfl
  | [_],_ => rfl
  | [_,_],_ => rfl

/-- What one turn of the main loop does; only the line break and count depend on count. -/
theorem encodeGroups_cons (g : Globals) (alphabet : List Byte) (count : Int) (a b c : Byte)
    (input : List Byte) :
    encodeGroups g alphabet count (a::b::c::input)=
      let next := if int32 (count-1)=0 then lineGroups else int32 (count-1)
      let ended := if int32 (count-1)=0 then newline g else []
      (group alphabet a b c++ended++(encodeGroups g alphabet next input).1,
        (encodeGroups g alphabet next input).2) := by
  rw [encodeGroups]
  split <;> simp [group]

theorem encodeGroups_rest (g : Globals) (alphabet : List Byte) (count : Int)
    (input : List Byte) :
    (encodeGroups g alphabet count input).2.2=input.drop (3*(input.length/3)) := by
  induction input using Base64.groups_induction generalizing count with
  | short input h =>
    rw [encodeGroups_short _ _ _ _ h,Nat.div_eq_of_lt h]
    rfl
  | group a b c input ih =>
    rw [encodeGroups_cons,Base64.groups_length]
    exact ih _

theorem newline_length (g : Globals) : (newline g).length=if g.doCr then 2 else 1 := by
  rw [newline]
  split <;> rfl

/-- With line breaks, count says how many groups the open line can still take. -/
theorem encodeGroups_wrapped (g : Globals) (alphabet : List Byte) (count : Int)
    (input : List Byte) (h0 : 0<count) (h19 : count≤lineGroups) :
    ((encodeGroups g alphabet count input).1.length : Int)=
      4*(input.length/3)+(lineGroups-count+input.length/3)/lineGroups*(newline g).length ∧
    (encodeGroups g alphabet count input).2.1=
      lineGroups-(lineGroups-count+input.length/3)%lineGroups := by
  simp only [lineGroups] at h19 ⊢
  induction input using Base64.groups_induction generalizing count with
  | short input h =>
    rw [encodeGroups_short _ _ _ _ h]
    simp only [List.length_nil]
    have hq : ((19-count+(input.length:Int)/3)/19)=0 := by omega
    rw [hq]
    omega
  | group a b c input ih =>
    rw [encodeGroups_cons]
    simp only [lineGroups,group,List.length_append,List.length_cons,List.length_nil]
    have hint : int32 (count-1)=count-1 := int32_of_range _ (by omega) (by omega)
    rw [hint]
    split
    next h =>
      obtain ⟨hlen,hcount⟩ := ih 19 (by omega) (by omega)
      rw [hcount]
      push_cast
      rw [hlen,show (19-count+((input.length:Int)+1+1+1)/3)/19=
        (19-19+(input.length:Int)/3)/19+1 by omega]
      refine ⟨?_,by omega⟩
      rw [add_mul]
      omega
    next h =>
      obtain ⟨hlen,hcount⟩ := ih (count-1) (by omega) (by omega)
      rw [hcount]
      push_cast
      rw [hlen,show (19-count+((input.length:Int)+1+1+1)/3)=
        (19-(count-1)+(input.length:Int)/3) by omega]
      refine ⟨?_,by omega⟩
      simp only [List.length_nil]
      omega

/-- Without line breaks, count runs down from -1 and does not come to zero. -/
theorem encodeGroups_unwrapped (g : Globals) (alphabet : List Byte) (count : Int)
    (input : List Byte) (h0 : count<0) (hmin : -2^31≤count-input.length) :
    (encodeGroups g alphabet count input).1.length=4*(input.length/3) := by
  induction input using Base64.groups_induction generalizing count with
  | short input h =>
    rw [encodeGroups_short _ _ _ _ h,Nat.div_eq_of_lt h]
    rfl
  | group a b c input ih =>
    simp only [List.length_cons] at hmin
    push_cast at hmin
    have hint : int32 (count-1)=count-1 := int32_of_range _ (by omega) (by omega)
    have hne : count-1≠0 := by omega
    rw [encodeGroups_cons]
    simp only [hint,if_neg hne,group,List.length_append,List.length_cons,List.length_nil]
    rw [ih (count-1) (by omega) (by omega)]
    omega

section Decoder

variable (flags decodeFlags : Word) (hurl : flags&&&urlSafe=decodeFlags&&&urlSafe)

include hurl

theorem machine_group (v : Word) (output input : List Byte) (a b c : Byte) :
    machine (decodeAlphabet decodeFlags) ⟨.zero,v,output⟩
        (group (encodeAlphabet flags) a b c++input)=
      machine (decodeAlphabet decodeFlags) ⟨.zero,0,output++[a,b,c]⟩ input := by
  simp only [group,List.cons_append,List.nil_append]
  rw [machine_data]
  · simp only [position_symbol flags decodeFlags hurl,triple_group]
  all_goals exact position_symbol_msb flags decodeFlags hurl _

/-- The text of the full groups takes the machine from tuple to tuple. -/
theorem machine_groups (g : Globals) (count : Int) (v : Word) (output input tail : List Byte) :
    machine (decodeAlphabet decodeFlags) ⟨.zero,v,output⟩
        ((encodeGroups g (encodeAlphabet flags) count input).1++tail)=
      machine (decodeAlphabet decodeFlags)
        ⟨.zero,0,output++input.take (3*(input.length/3))⟩ tail := by
  induction input using Base64.groups_induction generalizing count v output with
  | short input h =>
    rw [encodeGroups_short _ _ _ _ h,Nat.div_eq_of_lt h]
    simpa using machine_zero_value _ _ _ _ _
  | group a b c input ih =>
    have hnewline (w : Word) (text : List Byte) : machine (decodeAlphabet decodeFlags)
        ⟨.zero,w,output++[a,b,c]⟩ ((if int32 (count-1)=0 then newline g else [])++text)=
          machine (decodeAlphabet decodeFlags) ⟨.zero,w,output++[a,b,c]⟩ text := by
      split
      · exact machine_newline _ _ _ _
      · rfl
    rw [encodeGroups_cons,Base64.groups_length]
    simp only [List.append_assoc,List.take_succ_cons]
    rw [machine_group flags decodeFlags hurl,hnewline,ih]
    simp

/-- After the symbols of a last byte, with or without padding. -/
theorem machine_one (v : Word) (padded : Bool) (output input : List Byte) (a : Byte)
    (hinput : ∀ m,machine (decodeAlphabet decodeFlags) m input=finish m) :
    machine (decodeAlphabet decodeFlags) ⟨.zero,v,output⟩
      ([symbol (encodeAlphabet flags) ((wide a<<<4)>>>6),
        symbol (encodeAlphabet flags) (wide a<<<4)]++
        (if padded then [padding,padding] else [])++input)=some (output++[a]) := by
  obtain ⟨_,_,hpad⟩ := position_newline decodeFlags
  cases padded <;>
    simp only [machine,step,mask_msb,hpad,hinput,finish,List.cons_append,List.nil_append,
      Bool.not_false,if_true,Option.bind_some,Bool.false_eq_true,if_false,
      show (!equals.msb)=false from rfl,position_symbol flags decodeFlags hurl,byte_of_one]

theorem machine_two (v : Word) (padded : Bool) (output input : List Byte) (a b : Byte)
    (hinput : ∀ m,machine (decodeAlphabet decodeFlags) m input=finish m) :
    machine (decodeAlphabet decodeFlags) ⟨.zero,v,output⟩
      ([symbol (encodeAlphabet flags) (((wide a<<<10)|||(wide b<<<2))>>>12),
        symbol (encodeAlphabet flags) (((wide a<<<10)|||(wide b<<<2))>>>6),
        symbol (encodeAlphabet flags) ((wide a<<<10)|||(wide b<<<2))]++
        (if padded then [padding] else [])++input)=some (output++[a,b]) := by
  obtain ⟨_,_,hpad⟩ := position_newline decodeFlags
  obtain ⟨ha,hb⟩ := bytes_of_two a b _ _ rfl rfl
  cases padded <;>
    simp only [machine,step,mask_msb,hpad,hinput,finish,List.cons_append,List.nil_append,
      Bool.not_false,if_true,Option.bind_some,Bool.false_eq_true,if_false,
      show (!equals.msb)=false from rfl,position_symbol flags decodeFlags hurl,ha,hb]

/-- The machine accepts the text written and writes the bytes it was made of. -/
theorem machine_doEncode (g : Globals) (input : List Byte) :
    machine (decodeAlphabet decodeFlags) ⟨.zero,0,[]⟩ (doEncode g input flags)=some input := by
  have hend : ∀ m,machine (decodeAlphabet decodeFlags) m
      (if g.doNewline then newline g else [])=finish m := by
    intro m
    split
    · simpa [machine] using machine_newline decodeFlags g m []
    · rfl
  have hgroups := fun tail => machine_groups flags decodeFlags hurl g
    (if g.doNewline then lineGroups else -1) 0 [] input tail
  have hrest := encodeGroups_rest g (encodeAlphabet flags)
    (if g.doNewline then lineGroups else -1) input
  have hsplit := List.take_append_drop (3*(input.length/3)) input
  rw [← hrest] at hsplit
  rw [doEncode]
  revert hgroups hrest hsplit
  generalize encodeGroups g (encodeAlphabet flags) (if g.doNewline then lineGroups else -1) input
    =encoded
  obtain ⟨text,count,rest⟩ := encoded
  intro hgroups hrest hsplit
  simp only [List.nil_append] at hrest hgroups hsplit ⊢
  split
  next a =>
    rw [List.append_assoc,List.append_assoc,hgroups,← List.append_assoc,
      machine_one flags decodeFlags hurl _ _ _ _ _ hend,hsplit]
  next a b more =>
    have hmore : more=[] := by
      have hlen := congrArg List.length hrest
      simp only [List.length_cons,List.length_drop] at hlen
      exact List.length_eq_zero_iff.mp (by omega)
    subst hmore
    rw [List.append_assoc,List.append_assoc,hgroups,← List.append_assoc,
      machine_two flags decodeFlags hurl _ _ _ _ _ _ hend,hsplit]
  next =>
    rw [List.append_nil] at hsplit
    rw [hsplit] at hgroups
    split
    · rw [hgroups,← List.append_nil (newline g),machine_newline,machine,finish]
    · rw [← List.append_nil text,hgroups,machine,finish]

end Decoder

/-- The length computed, without the wrapping of ints that does not happen to it. -/
theorem outputLen_eq (g : Globals) (n : Int) (h0 : 0≤n) (hmax : n≤2^28) :
    outputLen g n=n/3*4+(if n%3=0 then 0 else if g.doPadding then 4 else n%3+1)+
      (if g.doNewline ∧ 0<n then ((n-1)/57+1)*(if g.doCr then 2 else 1) else 0) := by
  have hdiv : (n-1).tdiv 57=(n-1)/57 ∨ n=0 := by
    by_cases hn : n=0
    · exact Or.inr hn
    · exact Or.inl (Int.tdiv_eq_ediv_of_nonneg (by omega))
  have hn1 : int32 (n-1)=n-1 := int32_of_range _ (by omega) (by omega)
  have hn4 : int32 (n/3*4)=n/3*4 := int32_of_range _ (by omega) (by omega)
  obtain ⟨doPadding,doNewline,doCr⟩ := g
  simp only [outputLen,lineGroups,Int.tdiv_eq_ediv_of_nonneg h0,Int.tmod_eq_emod_of_nonneg h0,
    hn1,hn4,show (3*19:Int)=57 from rfl]
  have hsym : (if doPadding=true then if 0<n%3 then int32 (n/3*4+4) else n/3*4
      else if n%3=1 then int32 (n/3*4+2) else if n%3=2 then int32 (n/3*4+3) else n/3*4)=
        n/3*4+(if n%3=0 then 0 else if doPadding=true then 4 else n%3+1) := by
    rw [int32_of_range (n/3*4+4) (by omega) (by omega),int32_of_range (n/3*4+2) (by omega) (by omega),
      int32_of_range (n/3*4+3) (by omega) (by omega)]
    split_ifs <;> omega
  rw [hsym]
  have hsize : 0≤n/3*4+(if n%3=0 then 0 else if doPadding=true then 4 else n%3+1) ∧
      n/3*4+(if n%3=0 then 0 else if doPadding=true then 4 else n%3+1)≤2^29 := by
    split_ifs <;> omega
  revert hsize
  generalize n/3*4+(if n%3=0 then 0 else if doPadding=true then 4 else n%3+1)=symbols
  intro hsize
  split_ifs with hnl hcr
  · rw [hdiv.resolve_right (by omega)]
    rw [int32_of_range (((n-1)/57+1)*2) (by omega) (by omega),int32_of_range _ (by omega) (by omega)]
  · rw [hdiv.resolve_right (by omega)]
    rw [int32_of_range (((n-1)/57+1)*1) (by omega) (by omega),int32_of_range _ (by omega) (by omega)]
  · rw [add_zero]

/-- What is written after the full groups: the symbols of the tail and the last line break. -/
theorem doEncode_tail_length (g : Globals) (input : List Byte) (flags : Word) :
    let encoded := encodeGroups g (encodeAlphabet flags)
      (if g.doNewline then lineGroups else -1) input
    ((doEncode g input flags).length : Int)=encoded.1.length+
      (if (input.length : Int)%3=0 then 0 else if g.doPadding then 4 else (input.length : Int)%3+1)+
      (if g.doNewline ∧ ((input.length : Int)%3≠0 ∨ 0<encoded.1.length ∧ encoded.2.1≠lineGroups)
        then (newline g).length else 0) := by
  have hrest := congrArg List.length (encodeGroups_rest g (encodeAlphabet flags)
    (if g.doNewline then lineGroups else -1) input)
  rw [List.length_drop] at hrest
  rw [doEncode]
  revert hrest
  generalize encodeGroups g (encodeAlphabet flags) (if g.doNewline then lineGroups else -1) input
    =encoded
  obtain ⟨text,count,rest⟩ := encoded
  intro hrest
  simp only at hrest ⊢
  split
  next a =>
    have hmod : (input.length : Int)%3=1 := by
      rw [List.length_singleton] at hrest
      omega
    rw [hmod]
    cases g.doPadding <;> cases g.doNewline <;> simp <;> omega
  next a b more =>
    have hmod : (input.length : Int)%3=2 := by
      simp only [List.length_cons] at hrest
      omega
    rw [hmod]
    cases g.doPadding <;> cases g.doNewline <;> simp <;> omega
  next =>
    have hmod : (input.length : Int)%3=0 := by
      rw [List.length_nil] at hrest
      omega
    rw [hmod]
    simp only [ne_eq,not_true_eq_false,false_or,if_true,add_zero]
    split <;> simp

theorem doEncode_length (g : Globals) (input : List Byte) (flags : Word)
    (hlen : input.length≤2^28) :
    outputLen g (int32 input.length)=(doEncode g input flags).length := by
  rw [int32_of_range _ (by omega) (by omega),outputLen_eq g _ (by omega) (by omega),
    doEncode_tail_length]
  cases hnl : g.doNewline with
  | false =>
    have htext := encodeGroups_unwrapped g (encodeAlphabet flags) (-1) input (by omega) (by omega)
    simp only [Bool.false_eq_true,if_false,false_and,htext]
    omega
  | true =>
    obtain ⟨htext,hcount⟩ := encodeGroups_wrapped g (encodeAlphabet flags) lineGroups input
      (by decide) (by decide)
    simp only [if_true,true_and,hcount]
    rw [newline_length] at htext ⊢
    revert htext
    generalize (encodeGroups g (encodeAlphabet flags) lineGroups input).1.length=text
    simp only [lineGroups]
    cases g.doCr <;> intro htext <;>
      simp only [Bool.false_eq_true,if_false,if_true] at htext ⊢ <;>
      push_cast at htext ⊢ <;> split_ifs <;> omega

theorem outputLen_bounds (g : Globals) (n : Int) (h0 : 0≤n) (hmax : n≤2^28) :
    0≤outputLen g n ∧ outputLen g n≤2^29 ∧ (outputLen g n*3/4=0 ↔ n=0) := by
  rw [outputLen_eq g n h0 hmax]
  split_ifs <;> omega

/-- The length returned is the length of the text, and the text decodes to the bytes. The int
that do_decode then returns is zero, its value for a rejected text, for no bytes only. -/
theorem android_base64_round_trip (s : List Byte) (flags decodeFlags : Word)
    (hlen : s.length≤2^28) (hurl : flags&&&urlSafe=decodeFlags&&&urlSafe) :
    let (returned,text) := base64Encode s flags
    returned=text.length ∧ doDecode text decodeFlags=.accepted (text.length*3/4) s ∧
      ((text.length*3/4 : Int)=0 ↔ s=[]) := by
  have hlength := doEncode_length (globals flags) s flags hlen
  have hn : int32 s.length=s.length := int32_of_range _ (by omega) (by omega)
  obtain ⟨h0,hmax,hzero⟩ := outputLen_bounds (globals flags) s.length (by omega) (by omega)
  rw [← hn,hlength] at h0 hmax hzero
  rw [hn] at hzero
  simp only [base64Encode]
  refine ⟨hlength,?_,?_⟩
  · rw [doDecode,decodeLoop_eq_machine,machine_doEncode flags decodeFlags hurl,
      int32_of_range (doEncode (globals flags) s flags).length (by omega) (by omega),
      int32_of_range _ (by omega) (by omega),Int.tdiv_eq_ediv_of_nonneg (by omega)]
  · rw [hzero,← List.length_eq_zero_iff]
    omega

theorem android_base64_round_trip_wrapped :
    let (returned,text) := base64Encode (List.replicate 58 0xff) 12
    returned=text.length ∧
      doDecode text 8=.accepted (text.length*3/4) (List.replicate 58 0xff) ∧
      ((text.length*3/4 : Int)=0 ↔ List.replicate 58 (0xff:Byte)=[]) :=
  android_base64_round_trip (List.replicate 58 0xff) 12 8 (by decide) (by decide)

end IdearNiu.AndroidBase64
