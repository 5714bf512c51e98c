import IdearNiu.Util.Base64Allocation

namespace IdearNiu.Base64

open Allocation

/-- The bytes that are left when those outside the alphabet and '=' are dropped. -/
def symbols (src : List Byte) : List Byte := src.filter (fun c => c∈alphabet)

/-- The '=' are a final run of at most two. -/
def Padded (l : List Byte) : Prop :=
  ∃ data n,l=data++List.replicate n padding ∧ n≤2 ∧ padding∉data

/-- Some symbols, in whole groups, with '=' only at their end. -/
structure WellFormed (l : List Byte) : Prop where
  nonempty : l≠[]
  groups : l.length%4=0
  padded : Padded l

/-- The six bits a symbol stands for; '=' stands for zeros. -/
def value (c : Byte) : Nat := if c=padding then 0 else base64Table.idxOf c

/-- The decoding of the standard: four symbols are 24 bits, and a group that ends in '=' has
one byte less for each of them. -/
def standardDecode : List Byte → List Byte
  | a::b::c::d::l =>
    let bits := value a*2^18+value b*2^12+value c*2^6+value d
    let bytes := [BitVec.ofNat 8 (bits/2^16),BitVec.ofNat 8 (bits/2^8),BitVec.ofNat 8 bits]
    bytes.take (if c=padding then 1 else if d=padding then 2 else 3)++standardDecode l
  | _ => []

/-- The bytes that the second pass stores before it ends: three for each block filled. -/
def storedBytes (count pad : Nat) : List Byte → Nat
  | [] => 0
  | c::src =>
    if dtable c=0x80 then storedBytes count pad src
    else
      let pad := if c=padding then pad+1 else pad
      if count+1=4 then 3+(if pad=0 then storedBytes 0 pad src else 0)
      else storedBytes (count+1) pad src

/-- Three for each group up to the first with a '='. -/
def stored : List Byte → Nat
  | a::b::c::d::l => if [a,b,c,d].count padding=0 then 3+stored l else 3
  | _ => 0

/-- The first group with a '=' has three of them or more, or it is the last group and the '='
are its end. -/
def Placed : List Byte → Prop
  | a::b::c::d::l =>
    if [a,b,c,d].count padding=0 then Placed l
    else 3≤[a,b,c,d].count padding ∨ (l=[] ∧ a≠padding ∧ b≠padding ∧ d=padding)
  | _ => True

theorem filled_other (places : List (Byte×Nat)) (t : List Byte) (n : Nat)
    (h : ∀ p∈places,p.1.toNat≠n) :
    (places.foldl (fun t p => t.set p.1.toNat (BitVec.ofNat 8 p.2)) t)[n]?=t[n]? := by
  induction places generalizing t with
  | nil => rfl
  | cons p places ih =>
    rw [List.foldl_cons,ih _ (fun q hq => h q (List.mem_cons_of_mem p hq)),
      List.getElem?_set_ne (h p List.mem_cons_self)]

theorem dtable_skipped (c : Byte) (hc : c∉alphabet) : dtable c=0x80 := by
  rw [alphabet,List.mem_cons,not_or] at hc
  obtain ⟨hpad,htable⟩ := hc
  have hother : ∀ p∈base64Table.zipIdx,p.1.toNat≠c.toNat := by
    intro p hp he
    rw [← BitVec.eq_of_toNat_eq he] at htable
    exact htable (List.fst_mem_of_mem_zipIdx hp)
  rw [dtable,dtableList,List.getD_eq_getElem?_getD,
    List.getElem?_set_ne (fun h => hpad (BitVec.eq_of_toNat_eq h).symm),
    filled_other _ _ _ hother,List.getElem?_replicate,if_pos c.isLt]
  rfl

theorem value_lt (c : Byte) (hc : c∈alphabet) : value c<64 := by
  rw [value]
  split_ifs with hp
  · decide
  · have htable : c∈base64Table := List.mem_of_ne_of_mem hp hc
    have hlt := List.idxOf_lt_length_of_mem htable
    rwa [show base64Table.length=64 by rw [base64Table_eq]; rfl] at hlt

theorem dtable_value (c : Byte) (hc : c∈alphabet) : dtable c=BitVec.ofNat 8 (value c) := by
  have hlt := value_lt c hc
  rw [value] at hlt ⊢
  split_ifs at hlt ⊢ with hp
  · rw [hp,dtable_padding]
    rfl
  · have htable : c∈base64Table := List.mem_of_ne_of_mem hp hc
    have hplace : tableAt (BitVec.ofNat 8 (base64Table.idxOf c))=c := by
      rw [tableAt,BitVec.toNat_ofNat,Nat.mod_eq_of_lt (by omega),List.getD_eq_getElem?_getD,
        List.getElem?_idxOf htable]
      rfl
    have hsmall : BitVec.ofNat 8 (base64Table.idxOf c)<64 := by
      rw [BitVec.lt_def,BitVec.toNat_ofNat]
      exact Nat.lt_of_le_of_lt (Nat.mod_le _ _) hlt
    rw [← (dtable_tableAt _ hsmall).1,hplace]

theorem dtable_valid_iff (c : Byte) : dtable c≠0x80 ↔ c∈alphabet :=
  ⟨fun h => by_contra fun hc => h (dtable_skipped c hc),alphabet_valid c⟩

theorem symbols_mem (c : Byte) (src : List Byte) (h : c∈alphabet) :
    symbols (c::src)=c::symbols src := by
  simp [symbols,h]

theorem symbols_not_mem (c : Byte) (src : List Byte) (h : c∉alphabet) :
    symbols (c::src)=symbols src := by
  simp [symbols,h]

theorem decodeLoop_symbols (block out src : List Byte) (pad : Nat) :
    decodeLoop block pad out src=decodeLoop block pad out (symbols src) := by
  induction src generalizing block out pad with
  | nil => rfl
  | cons c src ih =>
    by_cases hm : c∈alphabet
    · rw [symbols_mem c src hm,decodeLoop,decodeLoop]
      simp only [if_neg (alphabet_valid c hm),ih]
    · rw [symbols_not_mem c src hm,decodeLoop,if_pos (dtable_skipped c hm),ih]

theorem symbolCount_eq (src : List Byte) : symbolCount src=(symbols src).length := by
  rw [symbolCount,symbols,List.countP_eq_length_filter]
  congr 2
  funext c
  simp only [dtable_valid_iff c]

theorem storedBytes_symbols (count pad : Nat) (src : List Byte) :
    storedBytes count pad src=storedBytes count pad (symbols src) := by
  induction src generalizing count pad with
  | nil => rfl
  | cons c src ih =>
    by_cases hm : c∈alphabet
    · rw [symbols_mem c src hm,storedBytes,storedBytes]
      simp only [if_neg (alphabet_valid c hm),ih]
    · rw [symbols_not_mem c src hm,storedBytes,if_pos (dtable_skipped c hm),ih]

/-- Induction along the groups of four symbols. -/
theorem quads_induction (motive : List Byte → Prop) (nil : motive [])
    (group : ∀ a b c d l,l.length%4=0 → (∀ x∈[a,b,c,d],x∈alphabet) → motive l →
      motive (a::b::c::d::l)) (l : List Byte) (hlen : l.length%4=0) (hl : ∀ x∈l,x∈alphabet) :
    motive l := by
  induction hn : l.length using Nat.strong_induction_on generalizing l with
  | _ n ih =>
    match l with
    | [] => exact nil
    | [_] => simp at hlen
    | [_,_] => simp at hlen
    | [_,_,_] => simp at hlen
    | a::b::c::d::l =>
      simp only [List.length_cons] at hlen hn
      refine group a b c d l (by omega) (fun x hx => hl x ?_) ?_
      · simp only [List.mem_cons,List.not_mem_nil,or_false] at hx ⊢
        tauto
      · refine ih l.length (by omega) l (by omega) (fun x hx => hl x ?_) rfl
        simp only [List.mem_cons]
        tauto

theorem storedBytes_quad (l : List Byte) (a b c d : Byte) (h : ∀ x∈[a,b,c,d],x∈alphabet) :
    storedBytes 0 0 (a::b::c::d::l)=
      if [a,b,c,d].count padding=0 then 3+storedBytes 0 0 l else 3 := by
  have ha := alphabet_valid a (h a (by simp))
  have hb := alphabet_valid b (h b (by simp))
  have hc := alphabet_valid c (h c (by simp))
  have hd := alphabet_valid d (h d (by simp))
  simp only [storedBytes,ha,hb,hc,hd,if_false]
  by_cases pa : a=padding <;> by_cases pb : b=padding <;> by_cases pc : c=padding <;>
    by_cases pd : d=padding <;> simp [pa,pb,pc,pd]

theorem storedBytes_eq (l : List Byte) (hlen : l.length%4=0) (hl : ∀ x∈l,x∈alphabet) :
    storedBytes 0 0 l=stored l := by
  refine quads_induction (fun l => storedBytes 0 0 l=stored l) rfl ?_ l hlen hl
  intro a b c d l _ hquad ih
  rw [storedBytes_quad l a b c d hquad,ih,stored]

/-- The shifts and ors of a block are the bytes of its 24 bits. -/
theorem decodeBlock_values (w x y z : Nat) (hw : w<64) (hx : x<64) (hy : y<64) (hz : z<64) :
    decodeBlock [BitVec.ofNat 8 w,BitVec.ofNat 8 x,BitVec.ofNat 8 y,BitVec.ofNat 8 z]=
      let bits := w*2^18+x*2^12+y*2^6+z
      [BitVec.ofNat 8 (bits/2^16),BitVec.ofNat 8 (bits/2^8),BitVec.ofNat 8 bits] := by
  have hjoin : ∀ m n k j : Nat,m<64 → n<64 → n/2^j<2^k →
      ((BitVec.ofNat 8 m)<<<k)|||((BitVec.ofNat 8 n)>>>j)=BitVec.ofNat 8 (m*2^k+n/2^j) := by
    intro m n k j hm hn hfit
    apply BitVec.eq_of_toNat_eq
    rw [BitVec.toNat_or,BitVec.toNat_shiftLeft,BitVec.toNat_ushiftRight,BitVec.toNat_ofNat,
      BitVec.toNat_ofNat,BitVec.toNat_ofNat,Nat.mod_eq_of_lt (show m<2^8 by omega),
      Nat.mod_eq_of_lt (show n<2^8 by omega),Nat.shiftRight_eq_div_pow,← Nat.shiftLeft_eq,
      Nat.shiftLeft_add_eq_or_of_lt hfit,Nat.or_mod_two_pow]
    congr 1
    exact (Nat.mod_eq_of_lt (Nat.lt_of_le_of_lt (Nat.div_le_self _ _) (by omega))).symm
  have hthird := hjoin y z 6 0 hy hz (by omega)
  simp only [BitVec.ushiftRight_zero,pow_zero,Nat.div_one] at hthird
  simp only [decodeBlock]
  rw [hjoin w x 2 4 hw hx (by omega),hjoin x y 4 2 hx hy (by omega),hthird]
  have h1 : (w*2^18+x*2^12+y*2^6+z)/2^16=w*2^2+x/2^4 := by omega
  have h2 : (w*2^18+x*2^12+y*2^6+z)/2^8%2^8=(x*2^4+y/2^2)%2^8 := by omega
  have h3 : (w*2^18+x*2^12+y*2^6+z)%2^8=(y*2^6+z)%2^8 := by omega
  simp only [h1]
  congr 2
  · exact BitVec.eq_of_toNat_eq (by simpa only [BitVec.toNat_ofNat] using h2.symm)
  · congr 1
    exact BitVec.eq_of_toNat_eq (by simpa only [BitVec.toNat_ofNat] using h3.symm)

theorem decodeBlock_symbols (a b c d : Byte) (h : ∀ x∈[a,b,c,d],x∈alphabet) :
    decodeBlock [dtable a,dtable b,dtable c,dtable d]=
      let bits := value a*2^18+value b*2^12+value c*2^6+value d
      [BitVec.ofNat 8 (bits/2^16),BitVec.ofNat 8 (bits/2^8),BitVec.ofNat 8 bits] := by
  have ha := h a (by simp)
  have hb := h b (by simp)
  have hc := h c (by simp)
  have hd := h d (by simp)
  rw [dtable_value a ha,dtable_value b hb,dtable_value c hc,dtable_value d hd]
  exact decodeBlock_values _ _ _ _ (value_lt a ha) (value_lt b hb) (value_lt c hc)
    (value_lt d hd)

theorem padded_data (c : Byte) (l : List Byte) (hc : c≠padding) :
    Padded (c::l) ↔ Padded l := by
  constructor
  · intro hgiven
    obtain ⟨data,n,he,hn,hd⟩ := hgiven
    cases data with
    | nil =>
      have hmem : c∈List.replicate n padding := by
        rw [List.nil_append] at he
        rw [← he]
        exact List.mem_cons_self
      exact absurd (List.eq_of_mem_replicate hmem) hc
    | cons x data =>
      rw [List.cons_append,List.cons.injEq] at he
      exact ⟨data,n,he.2,hn,fun hm => hd (List.mem_cons_of_mem x hm)⟩
  · intro hgiven
    obtain ⟨data,n,rfl,hn,hd⟩ := hgiven
    exact ⟨c::data,n,rfl,hn,fun hm => hd (List.mem_of_ne_of_mem hc.symm hm)⟩

theorem padded_padding (l : List Byte) : Padded (padding::l) ↔ l=[] ∨ l=[padding] := by
  constructor
  · intro hgiven
    obtain ⟨data,n,he,hn,hd⟩ := hgiven
    cases data with
    | nil =>
      rw [List.nil_append] at he
      obtain rfl|rfl|rfl : n=0 ∨ n=1 ∨ n=2 := by omega
      · cases he
      · exact Or.inl (List.cons.inj he).2
      · exact Or.inr (List.cons.inj he).2
    | cons x data =>
      rw [List.cons_append,List.cons.injEq] at he
      rw [← he.1] at hd
      exact absurd List.mem_cons_self hd
  · intro hcase
    rcases hcase with rfl|rfl
    · exact ⟨[],1,rfl,by decide,by simp⟩
    · exact ⟨[],2,rfl,by decide,by simp⟩

/-- What the second pass must give for these symbols after the bytes out. -/
def Right (out l : List Byte) : Option (List Byte) → Prop
  | none => ¬Padded l
  | some o => Padded l ∧ o=out++standardDecode l

/-- A group that ends the pass: right exactly when the '=' stand where they may. -/
theorem right_last (out l : List Byte) (a b c d : Byte) (h : ∀ x∈[a,b,c,d],x∈alphabet)
    (hlen : l.length%4=0) (hp : [a,b,c,d].count padding≠0) :
    Right out (a::b::c::d::l) (decodeLoop [] 0 out (a::b::c::d::l)) ↔
      3≤[a,b,c,d].count padding ∨ (l=[] ∧ a≠padding ∧ b≠padding ∧ d=padding) := by
  have hone : l≠[padding] := by
    intro heq
    subst heq
    simp at hlen
  rw [decodeLoop_quad out l a b c d (fun x hx => alphabet_valid x (h x hx)),
    decodeBlock_symbols a b c d h]
  by_cases pa : a=padding <;> by_cases pb : b=padding <;> by_cases pc : c=padding <;>
    by_cases pd : d=padding <;>
    simp_all [Right,padded_data,padded_padding,standardDecode,List.take_length_add_append]

/-- The second pass is right exactly on the symbols whose '=' stand where they may. -/
theorem right_iff (out l : List Byte) (hlen : l.length%4=0) (hl : ∀ x∈l,x∈alphabet) :
    Right out l (decodeLoop [] 0 out l) ↔ Placed l := by
  refine quads_induction
    (fun l => ∀ out,Right out l (decodeLoop [] 0 out l) ↔ Placed l) ?_ ?_ l hlen hl out
  · intro out
    have hnil : Padded [] := ⟨[],0,rfl,by decide,by simp⟩
    simp [decodeLoop,Right,Placed,standardDecode,hnil]
  · intro a b c d l hlen hquad ih out
    rw [Placed]
    by_cases hp : [a,b,c,d].count padding=0
    · have hno : ∀ x∈[a,b,c,d],x≠padding := by
        intro x hx he
        exact List.count_eq_zero.mp hp (he ▸ hx)
      have hpad : Padded (a::b::c::d::l) ↔ Padded l := by
        rw [padded_data a _ (hno a (by simp)),padded_data b _ (hno b (by simp)),
          padded_data c _ (hno c (by simp)),padded_data d _ (hno d (by simp))]
      rw [if_pos hp,decodeLoop_quad out l a b c d (fun x hx => alphabet_valid x (hquad x hx)),← ih]
      simp only [if_pos hp]
      rw [decodeBlock_symbols a b c d hquad]
      cases decodeLoop [] 0 _ l with
      | none => simp only [Right,hpad]
      | some o =>
        simp [Right,hpad,standardDecode,hno c (by simp),hno d (by simp)]
    · rw [if_neg hp]
      exact right_last out l a b c d hquad hlen hp

/-- What is asked of the decoder on one input: the bytes stored stay within the block asked
for, and the block returned, or NULL, is as the standard says. -/
def Meets (malloc : Nat → Bool) (src : List Byte) : Prop :=
  (symbolCount src=0 ∨ symbolCount src%4≠0 ∨
    storedBytes 0 0 src≤request (BitVec.ofNat 64 (symbolCount src/4*3))) ∧
  match base64Decode malloc src with
  | .panicked => False
  | .null => ¬WellFormed (symbols src)
  | .block out => WellFormed (symbols src) ∧ out=standardDecode (symbols src)

/-- The decoder does what the standard says exactly when it refuses the number of symbols, or
gets a block that is large enough and every '=' stands where it may. -/
theorem base64_decode_accepts_iff (malloc : Nat → Bool) (src : List Byte) :
    Meets malloc src ↔ symbols src=[] ∨ (symbols src).length%4≠0 ∨
      (malloc (request (BitVec.ofNat 64 ((symbols src).length/4*3)))=true ∧
        stored (symbols src)≤request (BitVec.ofNat 64 ((symbols src).length/4*3)) ∧
        Placed (symbols src)) := by
  have hall : ∀ x∈symbols src,x∈alphabet := by
    intro x hx
    simpa using (List.mem_filter.mp hx).2
  rw [Meets,base64Decode,symbolCount_eq,decodeLoop_symbols,storedBytes_symbols,
    xmalloc]
  by_cases hnil : symbols src=[]
  · have hno : ¬WellFormed (symbols src) := fun h => h.nonempty hnil
    simp only [hnil] at hno
    simp [hnil,hno]
  by_cases hmod : (symbols src).length%4=0
  · have hlen : (symbols src).length≠0 := fun h => hnil (List.length_eq_zero_iff.mp h)
    have hwell : WellFormed (symbols src) ↔ Padded (symbols src) :=
      ⟨fun h => h.padded,fun h => ⟨hnil,hmod,h⟩⟩
    have hright := right_iff [] (symbols src) hmod hall
    rw [storedBytes_eq _ hmod hall,hwell,if_neg (by simp only [hlen,hmod]; simp)]
    simp only [hnil,hlen,hmod,ne_eq,not_true,false_or]
    cases malloc (request (BitVec.ofNat 64 ((symbols src).length/4*3))) with
    | false => simp
    | true =>
      cases hloop : decodeLoop [] 0 [] (symbols src) with
      | none =>
        rw [hloop,Right] at hright
        simp [hright]
      | some o =>
        rw [hloop,Right,List.nil_append] at hright
        simp [hright]
  · have hno : ¬WellFormed (symbols src) := fun h => hmod h.groups
    simp [hmod,hno]

/-- A group padded in the middle of the input is taken for its end: of "AA==AAAA" only the
first byte is decoded. -/
theorem base64_decode_accepts_misplaced :
    let src := [0x41,0x41,0x3d,0x3d,0x41,0x41,0x41,0x41]
    ¬WellFormed (symbols src) ∧ base64Decode (fun _ => true) src=.block [0] ∧
      ¬Meets (fun _ => true) src := by
  intro src
  have hsym : symbols src=src := by decide
  have hloop : decodeLoop [] 0 [] src=some [0] := by decide
  have hcode : base64Decode (fun _ => true) src=.block [0] := by
    rw [base64Decode,symbolCount_eq,hsym,xmalloc,hloop]
    simp [src]
  have hno : ¬WellFormed (symbols src) := by
    intro h
    have hp := h.padded
    rw [hsym,padded_data _ _ (by decide),padded_data _ _ (by decide)] at hp
    rcases (padded_padding _).mp hp with he|he <;> cases he
  refine ⟨hno,hcode,?_⟩
  intro hgiven
  obtain ⟨_,hm⟩ := hgiven
  rw [hcode] at hm
  exact hno hm.1

end IdearNiu.Base64
