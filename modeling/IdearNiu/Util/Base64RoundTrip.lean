import IdearNiu.Util.Base64

namespace IdearNiu.Base64

open Allocation

def alphabet : List Byte := padding::base64Table

/-- A line of the encoder's text, without its newline. -/
structure Line (l : List Byte) : Prop where
  nonempty : l≠[]
  short : l.length≤72
  symbols : ∀ c∈l,c∈alphabet

def ended (lines : List (List Byte)) : List Byte := lines.flatMap (·++[newline])

theorem dtable_tableAt : ∀ x : Byte,x<64 → dtable (tableAt x)=x ∧ tableAt x≠padding ∧
    tableAt x∈alphabet := by
  decide

theorem dtable_newline : dtable newline=0x80 := by decide

theorem dtable_padding : dtable padding=0 := by decide

theorem and_mask_lt (x : Byte) : x&&&0x3f<64 := by
  rw [BitVec.lt_def,BitVec.toNat_and]
  exact Nat.lt_of_le_of_lt Nat.and_le_right (by decide)

theorem dtable_symbol (x : Byte) : dtable (tableAt (x&&&0x3f))=x&&&0x3f :=
  (dtable_tableAt _ (and_mask_lt x)).1

theorem symbol_ne_padding (x : Byte) : tableAt (x&&&0x3f)≠padding :=
  (dtable_tableAt _ (and_mask_lt x)).2.1

theorem symbol_mem (x : Byte) : tableAt (x&&&0x3f)∈alphabet :=
  (dtable_tableAt _ (and_mask_lt x)).2.2

theorem symbol_valid (x : Byte) : x&&&0x3f≠(0x80:Byte) := by
  intro h
  have hlt := and_mask_lt x
  rw [h] at hlt
  exact absurd hlt (by decide)

theorem dtable_symbol_valid (x : Byte) : dtable (tableAt (x&&&0x3f))≠0x80 := by
  rw [dtable_symbol]
  exact symbol_valid x

theorem padding_mem : padding∈alphabet := List.mem_cons_self

theorem base64Table_eq :
    base64Table=(List.range 64).map (fun i => tableAt (BitVec.ofNat 8 i)) := by
  decide

theorem alphabet_valid (c : Byte) (hc : c∈alphabet) : dtable c≠0x80 := by
  rcases List.mem_cons.mp hc with rfl|hc
  · rw [dtable_padding]
    decide
  · rw [base64Table_eq,List.mem_map] at hc
    obtain ⟨i,hi,rfl⟩ := hc
    have hlt : BitVec.ofNat 8 i<64 := by
      rw [BitVec.lt_def,BitVec.toNat_ofNat]
      exact Nat.lt_of_le_of_lt (Nat.mod_le _ _) (List.mem_range.mp hi)
    rw [(dtable_tableAt _ hlt).1]
    intro h
    rw [h] at hlt
    exact absurd hlt (by decide)

theorem first_byte (a b : Byte) :
    (((a>>>2)&&&0x3f)<<<2)|||(((((a&&&0x03)<<<4)|||(b>>>4))&&&0x3f)>>>4)=a := by
  apply BitVec.eq_of_getLsbD_eq
  intro i hi
  interval_cases i <;> simp

theorem second_byte (a b c : Byte) :
    (((((a&&&0x03)<<<4)|||(b>>>4))&&&0x3f)<<<4)|||
      (((((b&&&0x0f)<<<2)|||(c>>>6))&&&0x3f)>>>2)=b := by
  apply BitVec.eq_of_getLsbD_eq
  intro i hi
  interval_cases i <;> simp

theorem third_byte (b c : Byte) :
    (((((b&&&0x0f)<<<2)|||(c>>>6))&&&0x3f)<<<6)|||(c&&&0x3f)=c := by
  apply BitVec.eq_of_getLsbD_eq
  intro i hi
  interval_cases i <;> simp

/-- One block of the second pass: the number of '=' among its four symbols decides how it
ends, not their places. -/
theorem decodeLoop_quad (out l : List Byte) (a b c d : Byte)
    (h : ∀ x∈[a,b,c,d],dtable x≠0x80) :
    decodeLoop [] 0 out (a::b::c::d::l)=
      let all := out++decodeBlock [dtable a,dtable b,dtable c,dtable d]
      if [a,b,c,d].count padding=0 then decodeLoop [] 0 all l
      else if [a,b,c,d].count padding=1 then some (all.take (all.length-1))
      else if [a,b,c,d].count padding=2 then some (all.take (all.length-2))
      else none := by
  have ha := h a (by simp)
  have hb := h b (by simp)
  have hc := h c (by simp)
  have hd := h d (by simp)
  simp only [decodeLoop,ha,hb,hc,hd,if_false,List.nil_append,List.cons_append,
    List.length_cons,List.length_nil]
  by_cases pa : a=padding <;> by_cases pb : b=padding <;> by_cases pc : c=padding <;>
    by_cases pd : d=padding <;> simp [pa,pb,pc,pd]

theorem decodeLoop_block (out src : List Byte) (c0 c1 c2 c3 : Byte) (h0 : dtable c0≠0x80)
    (h1 : dtable c1≠0x80) (h2 : dtable c2≠0x80) (h3 : dtable c3≠0x80)
    (hp0 : c0≠padding) (hp1 : c1≠padding) :
    decodeLoop [] 0 out (c0::c1::c2::c3::src)=
      let all := out++decodeBlock [dtable c0,dtable c1,dtable c2,dtable c3]
      if c2=padding then
        if c3=padding then some (all.take (all.length-2)) else some (all.take (all.length-1))
      else if c3=padding then some (all.take (all.length-1))
      else decodeLoop [] 0 all src := by
  have h : ∀ x∈[c0,c1,c2,c3],dtable x≠0x80 :=
    List.forall_mem_cons.mpr ⟨h0,List.forall_mem_cons.mpr ⟨h1,List.forall_mem_cons.mpr
      ⟨h2,List.forall_mem_singleton.mpr h3⟩⟩⟩
  rw [decodeLoop_quad out src c0 c1 c2 c3 h]
  by_cases hc2 : c2=padding <;> by_cases hc3 : c3=padding <;> simp [hp0,hp1,hc2,hc3]

theorem decodeLoop_newline (block out src : List Byte) (pad : Nat) :
    decodeLoop block pad out (newline::src)=decodeLoop block pad out src := by
  rw [decodeLoop,dtable_newline,if_pos rfl]

theorem decodeLoop_group (out src : List Byte) (a b c : Byte) :
    decodeLoop [] 0 out ([tableAt ((a>>>2)&&&0x3f),
      tableAt ((((a&&&0x03)<<<4)|||(b>>>4))&&&0x3f),
      tableAt ((((b&&&0x0f)<<<2)|||(c>>>6))&&&0x3f),
      tableAt (c&&&0x3f)]++src)=decodeLoop [] 0 (out++[a,b,c]) src := by
  simp only [List.cons_append,List.nil_append]
  rw [decodeLoop_block out src _ _ _ _ (dtable_symbol_valid _) (dtable_symbol_valid _)
    (dtable_symbol_valid _) (dtable_symbol_valid _) (symbol_ne_padding _) (symbol_ne_padding _),
    if_neg (symbol_ne_padding _),if_neg (symbol_ne_padding _)]
  simp only [dtable_symbol,decodeBlock]
  rw [first_byte,second_byte,third_byte]

theorem encodeGroups_short (lineLen : Nat) (src : List Byte) (h : src.length<3) :
    encodeGroups lineLen src=([],lineLen,src) := by
  match src,h with
  | [],_ => rfl
  | [_],_ => rfl
  | [_,_],_ => rfl

theorem encodeGroups_cons (lineLen : Nat) (a b c : Byte) (src : List Byte) :
    encodeGroups lineLen (a::b::c::src)=
      let next := if 72≤lineLen+4 then 0 else lineLen+4
      let r := encodeGroups next src
      ([tableAt ((a>>>2)&&&0x3f),
        tableAt ((((a&&&0x03)<<<4)|||(b>>>4))&&&0x3f),
        tableAt ((((b&&&0x0f)<<<2)|||(c>>>6))&&&0x3f),
        tableAt (c&&&0x3f)]++(if 72≤lineLen+4 then [newline] else [])++r.1,r.2) := by
  rw [encodeGroups]
  by_cases h : 72≤lineLen+4
  · simp only [h,if_true]
  · simp only [h,if_false,List.append_nil]

/-- Induction along the groups of three bytes. -/
theorem groups_induction (motive : List Byte → Prop)
    (short : ∀ src,src.length<3 → motive src)
    (group : ∀ a b c src,motive src → motive (a::b::c::src)) (src : List Byte) : motive src := by
  induction hn : src.length using Nat.strong_induction_on generalizing src with
  | _ n ih =>
    match src with
    | [] => exact short _ (by decide)
    | [_] => exact short _ (by simp)
    | [_,_] => exact short _ (by simp)
    | a::b::c::src =>
      exact group a b c src (ih src.length (by rw [← hn]; simp only [List.length_cons]; omega)
        src rfl)

theorem groups_length (a b c : Byte) (src : List Byte) :
    3*((a::b::c::src).length/3)=3*(src.length/3)+3 := by
  simp only [List.length_cons]
  omega

/-- What the full groups decode to: the bytes they were made of. -/
theorem decodeLoop_groups (lineLen : Nat) (out src tail : List Byte) :
    decodeLoop [] 0 out ((encodeGroups lineLen src).1++tail)=
      decodeLoop [] 0 (out++src.take (3*(src.length/3))) tail := by
  induction src using groups_induction generalizing lineLen out with
  | short src h =>
    rw [encodeGroups_short lineLen src h,Nat.div_eq_of_lt h]
    simp
  | group a b c src ih =>
    rw [encodeGroups_cons,groups_length]
    simp only [List.append_assoc]
    rw [decodeLoop_group]
    by_cases h : 72≤lineLen+4
    · simp only [h,if_true,List.cons_append,List.nil_append]
      rw [decodeLoop_newline,ih,List.append_assoc]
      rfl
    · simp only [h,if_false,List.nil_append]
      rw [ih,List.append_assoc]
      rfl

theorem encodeGroups_rest (lineLen : Nat) (src : List Byte) :
    (encodeGroups lineLen src).2.2=src.drop (3*(src.length/3)) := by
  induction src using groups_induction generalizing lineLen with
  | short src h =>
    rw [encodeGroups_short lineLen src h,Nat.div_eq_of_lt h]
    rfl
  | group a b c src ih =>
    rw [encodeGroups_cons,groups_length]
    exact ih _

/-- The open line after the full groups, and the length of their text. -/
theorem encodeGroups_lineLen (lineLen : Nat) (src : List Byte) (hl : lineLen<72)
    (h4 : lineLen%4=0) :
    (encodeGroups lineLen src).2.1=(lineLen+4*(src.length/3))%72 ∧
      (encodeGroups lineLen src).1.length=
        4*(src.length/3)+(lineLen+4*(src.length/3))/72 := by
  induction src using groups_induction generalizing lineLen with
  | short src h =>
    rw [encodeGroups_short lineLen src h,Nat.div_eq_of_lt h]
    simp only [List.length_nil]
    omega
  | group a b c src ih =>
    have hlen : (a::b::c::src).length/3=src.length/3+1 := by
      simp only [List.length_cons]
      omega
    rw [encodeGroups_cons,hlen]
    by_cases h : 72≤lineLen+4
    · obtain ⟨h1,h2⟩ := ih 0 (by decide) (by decide)
      simp only [h,if_true,List.length_append,List.length_cons,List.length_nil]
      omega
    · obtain ⟨h1,h2⟩ := ih (lineLen+4) (by omega) (by omega)
      simp only [h,if_false,List.length_append,List.length_cons,List.length_nil]
      omega

theorem symbolCount_symbols (l : List Byte) (h : ∀ c∈l,dtable c≠0x80) :
    symbolCount l=l.length := by
  apply List.countP_eq_length.mpr
  intro c hc
  simpa using h c hc

theorem symbolCount_append (x y : List Byte) :
    symbolCount (x++y)=symbolCount x+symbolCount y := List.countP_append

theorem group_symbols (w x y z : Byte) :
    ∀ c∈[tableAt (w&&&0x3f),tableAt (x&&&0x3f),tableAt (y&&&0x3f),tableAt (z&&&0x3f)],
      c∈alphabet := by
  simp only [List.mem_cons,List.not_mem_nil,or_false]
  rintro c (rfl|rfl|rfl|rfl) <;> exact symbol_mem _

theorem symbolCount_groups (lineLen : Nat) (src : List Byte) :
    symbolCount (encodeGroups lineLen src).1=4*(src.length/3) := by
  induction src using groups_induction generalizing lineLen with
  | short src h =>
    rw [encodeGroups_short lineLen src h,Nat.div_eq_of_lt h]
    rfl
  | group a b c src ih =>
    have hlen : (a::b::c::src).length/3=src.length/3+1 := by
      simp only [List.length_cons]
      omega
    have hnl : symbolCount (if 72≤lineLen+4 then [newline] else [])=0 := by
      split
      · simp [symbolCount,dtable_newline]
      · rfl
    rw [encodeGroups_cons,hlen,symbolCount_append,symbolCount_append,hnl,ih,
      symbolCount_symbols _ (fun x hx => alphabet_valid x (group_symbols _ _ _ _ x hx))]
    simp only [List.length_cons,List.length_nil]
    omega

/-- The lines closed by the full groups and the line they leave open. -/
theorem encodeGroups_lines (lineLen : Nat) (opened src : List Byte)
    (ho : opened.length=lineLen) (hl : lineLen<72) (h4 : lineLen%4=0)
    (hs : ∀ c∈opened,c∈alphabet) :
    ∃ lines opened',opened++(encodeGroups lineLen src).1=ended lines++opened' ∧
      (∀ l∈lines,Line l) ∧ (∀ c∈opened',c∈alphabet) ∧
      opened'.length=(encodeGroups lineLen src).2.1 := by
  induction src using groups_induction generalizing lineLen opened with
  | short src h =>
    rw [encodeGroups_short lineLen src h]
    exact ⟨[],opened,by simp [ended],by simp,hs,ho⟩
  | group a b c src ih =>
    rw [encodeGroups_cons]
    set symbols : List Byte := [tableAt ((a>>>2)&&&0x3f),
        tableAt ((((a&&&0x03)<<<4)|||(b>>>4))&&&0x3f),
        tableAt ((((b&&&0x0f)<<<2)|||(c>>>6))&&&0x3f),
        tableAt (c&&&0x3f)] with hsym
    have hlen : (opened++symbols).length=lineLen+4 := by simp [hsym,ho]
    have hmem : ∀ x∈opened++symbols,x∈alphabet := by
      intro x hx
      rcases List.mem_append.mp hx with hx|hx
      · exact hs x hx
      · exact group_symbols _ _ _ _ x hx
    by_cases h : 72≤lineLen+4
    · obtain ⟨lines,opened',h1,h2,h3,h5⟩ := ih 0 [] rfl (by decide) (by decide) (by simp)
      have hline : Line (opened++symbols) :=
        ⟨List.ne_nil_of_length_pos (by omega),by omega,hmem⟩
      refine ⟨(opened++symbols)::lines,opened',?_,?_,h3,?_⟩
      · rw [List.nil_append] at h1
        simp only [h,if_true,h1]
        simp [ended]
      · intro l hl
        rcases List.mem_cons.mp hl with rfl|hl
        · exact hline
        · exact h2 l hl
      · simpa only [h,if_true] using h5
    · obtain ⟨lines,opened',h1,h2,h3,h5⟩ := ih (lineLen+4) (opened++symbols) hlen (by omega)
        (by omega) hmem
      refine ⟨lines,opened',?_,h2,h3,?_⟩
      · simp only [h,if_false,List.append_nil]
        rw [← List.append_assoc,h1]
      · simpa only [h,if_false] using h5

theorem encodeTail_length (rest : List Byte) (h0 : rest≠[]) : (encodeTail rest).length=4 := by
  match rest,h0 with
  | [_],_ => rfl
  | _::_::_,_ => rfl

theorem encodeTail_symbols (rest : List Byte) : ∀ c∈encodeTail rest,c∈alphabet := by
  match rest with
  | [] => simp [encodeTail]
  | [_] =>
    simp only [encodeTail,List.mem_cons,List.not_mem_nil,or_false]
    intro c hcase
    rcases hcase with rfl|rfl|rfl|rfl
    · exact symbol_mem _
    · exact symbol_mem _
    · exact padding_mem
    · exact padding_mem
  | _::_::_ =>
    simp only [encodeTail,List.mem_cons,List.not_mem_nil,or_false]
    intro c hcase
    rcases hcase with rfl|rfl|rfl|rfl
    · exact symbol_mem _
    · exact symbol_mem _
    · exact symbol_mem _
    · exact padding_mem

/-- The padded group gives the bytes left over, whatever follows it. -/
theorem decodeLoop_tail (out rest tail : List Byte) (h0 : rest≠[]) (h3 : rest.length<3) :
    decodeLoop [] 0 out (encodeTail rest++tail)=some (out++rest) := by
  have hpad : dtable padding≠0x80 := alphabet_valid padding padding_mem
  match rest,h0,h3 with
  | [a],_,_ =>
    have ha := first_byte a 0#8
    rw [BitVec.zero_ushiftRight,BitVec.or_zero] at ha
    simp only [encodeTail,List.cons_append,List.nil_append]
    rw [decodeLoop_block out tail _ _ _ _ (dtable_symbol_valid _) (dtable_symbol_valid _) hpad
      hpad (symbol_ne_padding _) (symbol_ne_padding _),if_pos rfl,if_pos rfl]
    simp only [dtable_symbol,decodeBlock,ha]
    rw [List.length_append]
    simp [List.take_append]
  | [a,b],_,_ =>
    have hb := second_byte a b 0#8
    rw [BitVec.zero_ushiftRight,BitVec.or_zero] at hb
    simp only [encodeTail,List.cons_append,List.nil_append]
    rw [decodeLoop_block out tail _ _ _ _ (dtable_symbol_valid _) (dtable_symbol_valid _)
      (dtable_symbol_valid _) hpad (symbol_ne_padding _) (symbol_ne_padding _),
      if_neg (symbol_ne_padding _),if_pos rfl]
    simp only [dtable_symbol,decodeBlock,first_byte,hb]
    rw [List.length_append]
    simp [List.take_append]

theorem encodeText_eq (src : List Byte) :
    encodeText src=(encodeGroups 0 src).1++
      (encodeTail (src.drop (3*(src.length/3)))++
        (if (if src.drop (3*(src.length/3))=[] then (encodeGroups 0 src).2.1
          else (encodeGroups 0 src).2.1+4)=0 then [] else [newline])) := by
  simp only [encodeText,encodeGroups_rest,List.append_assoc]

theorem rest_nil (src : List Byte) :
    src.drop (3*(src.length/3))=[] ↔ src.length%3=0 := by
  rw [List.drop_eq_nil_iff]
  omega

theorem rest_short (src : List Byte) : (src.drop (3*(src.length/3))).length<3 := by
  rw [List.length_drop]
  omega

/-- The second pass over the encoder's text gives the bytes back. -/
theorem decodeLoop_encodeText (src : List Byte) :
    decodeLoop [] 0 [] (encodeText src)=some src := by
  rw [encodeText_eq,decodeLoop_groups,List.nil_append]
  by_cases h : src.drop (3*(src.length/3))=[]
  · have hall : src.take (3*(src.length/3))=src :=
      List.take_of_length_le (List.drop_eq_nil_iff.mp h)
    rw [h,hall]
    simp only [encodeTail,List.nil_append,if_true]
    split
    · rfl
    · rw [decodeLoop_newline]
      rfl
  · rw [decodeLoop_tail _ _ _ h (rest_short src),List.take_append_drop]

theorem symbolCount_encodeText (src : List Byte) :
    symbolCount (encodeText src)=4*((src.length+2)/3) := by
  have hend : ∀ p : Prop,∀ _ : Decidable p,symbolCount (if p then [] else [newline])=0 := by
    intro p _
    split
    · rfl
    · simp [symbolCount,dtable_newline]
  rw [encodeText_eq,symbolCount_append,symbolCount_append,symbolCount_groups,hend]
  by_cases h : src.drop (3*(src.length/3))=[]
  · rw [h]
    have := (rest_nil src).mp h
    simp only [encodeTail,symbolCount,List.countP_nil]
    omega
  · rw [symbolCount_symbols _ (fun c hc => alphabet_valid c (encodeTail_symbols _ c hc)),
      encodeTail_length _ h]
    have := (rest_nil src).not.mp h
    omega

theorem encodeText_length (src : List Byte) :
    (encodeText src).length=4*((src.length+2)/3)+(4*((src.length+2)/3)+71)/72 := by
  obtain ⟨hline,hlen⟩ := encodeGroups_lineLen 0 src (by decide) (by decide)
  rw [Nat.zero_add] at hline hlen
  rw [encodeText_eq,List.length_append,List.length_append,hlen,hline]
  by_cases h : src.drop (3*(src.length/3))=[]
  · have h3 := (rest_nil src).mp h
    rw [h]
    simp only [encodeTail,if_true,List.length_nil]
    split
    · simp only [List.length_nil]
      omega
    · simp only [List.length_cons,List.length_nil]
      omega
  · have h3 := (rest_nil src).not.mp h
    rw [encodeTail_length _ h]
    simp only [h,if_false]
    rw [if_neg (by omega)]
    simp only [List.length_cons,List.length_nil]
    omega

theorem ended_append (x y : List (List Byte)) : ended (x++y)=ended x++ended y :=
  List.flatMap_append

theorem encodeText_lines (src : List Byte) :
    ∃ lines,encodeText src=ended lines ∧ ∀ l∈lines,Line l := by
  obtain ⟨lines,opened,htext,hlines,hsym,hlen⟩ :=
    encodeGroups_lines 0 [] src rfl (by decide) (by decide) (by simp)
  have hopen := (encodeGroups_lineLen 0 src (by decide) (by decide)).1
  rw [List.nil_append] at htext
  have close : ∀ l : List Byte,Line l →
      ∃ ls,ended lines++(l++[newline])=ended ls ∧ ∀ x∈ls,Line x := by
    intro l hl
    refine ⟨lines++[l],?_,?_⟩
    · rw [ended_append]
      simp [ended]
    · intro x hx
      rcases List.mem_append.mp hx with hx|hx
      · exact hlines x hx
      · rw [List.mem_singleton.mp hx]
        exact hl
  rw [encodeText_eq,htext]
  by_cases h : src.drop (3*(src.length/3))=[]
  · rw [h]
    simp only [encodeTail,if_true,List.nil_append]
    split
    · next h0 =>
      rw [← hlen] at h0
      rw [List.length_eq_zero_iff.mp h0,List.append_nil,List.append_nil]
      exact ⟨lines,rfl,hlines⟩
    · next h0 =>
      rw [List.append_assoc]
      apply close
      exact ⟨List.ne_nil_of_length_pos (by omega),by omega,hsym⟩
  · simp only [h,if_false]
    rw [if_neg (by omega),List.append_assoc,← List.append_assoc opened]
    have htail := encodeTail_length _ h
    apply close
    refine ⟨List.ne_nil_of_length_pos ?_,?_,?_⟩
    · rw [List.length_append]
      omega
    · rw [List.length_append]
      omega
    · intro c hc
      rcases List.mem_append.mp hc with hc|hc
      · exact hsym c hc
      · exact encodeTail_symbols _ c hc

/-- The symbols, the newlines and the nul fit the size the encoder computes. -/
theorem text_fits (n : Nat) :
    4*((n+2)/3)+(4*((n+2)/3)+71)/72+1≤n*4/3+4+(n*4/3+4)/72+1 := by
  have h : 4*((n+2)/3)≤n*4/3+3 ∨ 4*((n+2)/3)+4≤n*4/3+4 := by omega
  generalize 4*((n+2)/3)=a at *
  generalize n*4/3=b at *
  omega

/-- Only the product can wrap. -/
theorem encodeSize_wrapped (len : Size) :
    (encodeSize len).toNat=
      len.toNat*4%2^64/3+4+(len.toNat*4%2^64/3+4)/72+1 := by
  simp only [encodeSize,BitVec.toNat_add,BitVec.toNat_udiv,BitVec.toNat_mul,BitVec.toNat_ofNat,
    BitVec.ofNat_eq_ofNat,Nat.reducePow,Nat.reduceMod]
  have hm : len.toNat*4%18446744073709551616/3≤6148914691236517205 := by omega
  generalize len.toNat*4%18446744073709551616/3=m at *
  rw [Nat.mod_eq_of_lt (show m+4<18446744073709551616 by omega)]
  have hk : (m+4)/72≤6148914691236517209 := by omega
  generalize (m+4)/72=k at *
  omega

theorem encodeSize_toNat (n : Nat) (hn : n<2^62) :
    (encodeSize (BitVec.ofNat 64 n)).toNat=n*4/3+4+(n*4/3+4)/72+1 := by
  have hlen : (BitVec.ofNat 64 n).toNat=n := by
    rw [BitVec.toNat_ofNat]
    omega
  rw [encodeSize_wrapped,hlen,Nat.mod_eq_of_lt (show n*4<2^64 by omega)]

/-- Encoding and decoding a non-empty string, and the shape and room of the text. -/
theorem base64_round_trip (malloc : Nat → Bool) (hmalloc : ∀ n,n<2^31 → malloc n=true)
    (s : List Byte) (hs : s≠[]) (hlen : s.length<2^30) :
    ∃ e,base64Encode malloc s=.block e ∧
      base64Decode malloc (e.written.take e.outLen)=.block s ∧
      (∃ lines,e.written.take e.outLen=ended lines ∧ ∀ l∈lines,Line l) ∧
      e.written.length≤e.olen ∧ e.room=e.olen := by
  have hpos : 0 < s.length := List.length_pos_of_ne_nil hs
  have hsize := encodeSize_toNat s.length (by omega)
  have hbound : s.length≤(encodeSize (BitVec.ofNat 64 s.length)).toNat ∧
      (encodeSize (BitVec.ofNat 64 s.length)).toNat<2^31 := by
    rw [hsize]
    exact ⟨by omega,by omega⟩
  have hroom := xmalloc_some malloc hmalloc (encodeSize (BitVec.ofNat 64 s.length))
    (Nat.lt_of_lt_of_le hpos hbound.1) hbound.2
  have hcount := symbolCount_encodeText s
  have hwhole : 0<(s.length+2)/3 ∧ (s.length+2)/3<2^29 := by omega
  have hout : (BitVec.ofNat 64 (symbolCount (encodeText s)/4*3)).toNat=(s.length+2)/3*3 := by
    rw [hcount,Nat.mul_div_cancel_left _ (by decide),BitVec.toNat_ofNat]
    exact Nat.mod_eq_of_lt (by omega)
  have hblock := xmalloc_some malloc hmalloc
    (BitVec.ofNat 64 (symbolCount (encodeText s)/4*3)) (by rw [hout]; omega)
    (by rw [hout]; omega)
  have hlt : ¬encodeSize (BitVec.ofNat 64 s.length)<BitVec.ofNat 64 s.length := by
    rw [BitVec.lt_def,BitVec.toNat_ofNat,Nat.mod_eq_of_lt (by omega)]
    exact Nat.not_lt.mpr hbound.1
  refine ⟨⟨(encodeSize (BitVec.ofNat 64 s.length)).toNat,
    (encodeSize (BitVec.ofNat 64 s.length)).toNat,encodeText s++[0],(encodeText s).length⟩,
    ?_,?_,?_,?_,rfl⟩
  · simp only [base64Encode,hlt,if_false,hroom]
  · simp only [List.take_left,base64Decode,hblock,decodeLoop_encodeText]
    rw [if_neg (by omega)]
  · rw [List.take_left]
    exact encodeText_lines s
  · rw [hsize,List.length_append,encodeText_length]
    exact text_fits s.length

theorem base64_round_trip_four :
    ∃ e,base64Encode (fun _ => true) [0xff,0x00,0x80,0x41]=.block e ∧
      base64Decode (fun _ => true) (e.written.take e.outLen)=.block [0xff,0x00,0x80,0x41] ∧
      (∃ lines,e.written.take e.outLen=ended lines ∧ ∀ l∈lines,Line l) ∧
      e.written.length≤e.olen ∧ e.room=e.olen :=
  base64_round_trip (fun _ => true) (fun _ _ => rfl) [0xff,0x00,0x80,0x41] (by decide)
    (by decide)

end IdearNiu.Base64
