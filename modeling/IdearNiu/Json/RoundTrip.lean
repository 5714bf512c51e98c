import IdearNiu.Json.CJson

namespace IdearNiu.CJson

open Words (letters int32 toSize int32_of_lt int32_add_left foldl_int32 toSize_int32)

/-- The values of an int. -/
abbrev IntValue := {i : Int // -2^31 ≤ i ∧ i<2^31}

/-- What an item and its children stand for. -/
inductive Tree where
  | null
  | false
  | true
  | number (i : IntValue)
  | string (s : CString)
  | array (items : List Tree)
  | object (members : List (CString × Tree))

/-- The members of an object all have a name. -/
def named : List (Option CString × Tree) → Option (List (CString × Tree))
  | [] => some []
  | (string,t)::items =>
    match string,named items with
    | some name,some members => some ((name,t)::members)
    | _,_ => none

/-- The value an item stands for; a number is an int, with the same value as a double. -/
def readNode (f : Fields) (items : Option (List (Option CString × Tree))) : Option Tree :=
  match f.type&&&255 with
  | typeNull => some .null
  | typeFalse => some .false
  | typeTrue => some .true
  | typeNumber =>
    if h : -2^31≤f.valueint ∧ f.valueint<2^31 then
      if f.valuedouble=f.valueint then some (.number ⟨f.valueint,h⟩) else none
    else none
  | typeString => f.valuestring.map .string
  | typeArray => items.map (fun items => .array (items.map Prod.snd))
  | typeObject => (items.bind named).map .object
  | _ => none

def readChain : Item → Option (List (Option CString × Tree))
  | .null => some []
  | .item f child next =>
    match readNode f (readChain child),readChain next with
    | some t,some items => some ((f.string,t)::items)
    | _,_ => none

def readItem : Item → Option Tree
  | .null => none
  | .item f child _ => readNode f (readChain child)

theorem ok_bind {ε α β : Type} (a : α) (f : α → Except ε β) :
    (Except.ok a >>= f)=f a := rfl

section Strings

theorem after_cons (c : Byte) (text : List Byte) : after c (c::text)=(true,text) := by
  simp [after]

theorem after_ne (c d : Byte) (text : List Byte) (h : d≠c) :
    after c (d::text)=(false,d::text) := by
  simp [after,h]

theorem hexDigit_facts : ∀ n<16,hexDigit n≠quote ∧ hexDigit n≠backslash ∧
    isSpace (hexDigit n)=false := by
  decide

theorem sscanfHex_four (h1 h2 h3 h4 : Byte) (text : List Byte) (h : isSpace h1=false) :
    sscanfHex (h1::h2::h3::h4::text)=sscanfHex [h1,h2,h3,h4] := by
  simp [sscanfHex,h]

/-- Four digits of a control character are read back, and it takes one byte. -/
theorem control_facts : ∀ c : Byte,c<32 →
    sscanfHex (formatHex c).tail=some (c.setWidth 32) ∧ utf8 (c.setWidth 32)=[c] ∧
      (c≠0 → c.setWidth 32≠(0:Word)) ∧ ¬(0xD800:Word)≤c.setWidth 32 ∧
      ¬(0xDC00:Word)≤c.setWidth 32 := by
  decide

/-- The three forms of a character between quotes. -/
theorem escape_cases (c : Byte) : escape c=[c] ∧ c≠quote ∧ c≠backslash ∨
    (∃ letter,escape c=[backslash,letter] ∧ letter≠0x75 ∧ unescapeLetter letter=c) ∨
      escape c=backslash::formatHex c ∧ c<32 := by
  rw [escape]
  split_ifs with h hb hq h8 hc ha hd h9
  · exact Or.inl ⟨rfl,h.2⟩
  · exact Or.inr (Or.inl ⟨backslash,rfl,by decide,by rw [hb]; decide⟩)
  · exact Or.inr (Or.inl ⟨quote,rfl,by decide,by rw [hq]; decide⟩)
  · exact Or.inr (Or.inl ⟨0x62,rfl,by decide,h8 ▸ by decide⟩)
  · exact Or.inr (Or.inl ⟨0x66,rfl,by decide,hc ▸ by decide⟩)
  · exact Or.inr (Or.inl ⟨0x6e,rfl,by decide,ha ▸ by decide⟩)
  · exact Or.inr (Or.inl ⟨0x72,rfl,by decide,hd ▸ by decide⟩)
  · exact Or.inr (Or.inl ⟨0x74,rfl,by decide,h9 ▸ by decide⟩)
  · refine Or.inr (Or.inr ⟨rfl,?_⟩)
    have hle : ¬31<c := fun hlt => h ⟨hlt,hq,hb⟩
    bv_omega

def escapedLength (str : List Byte) : Nat := (str.map escapedSize).sum

theorem escapedLength_cons (c : Byte) (str : List Byte) :
    escapedLength (c::str)=escapedSize c+escapedLength str := by
  rw [escapedLength,List.map_cons,List.sum_cons,escapedLength]

theorem escapedSize_pos (c : Byte) : 0<escapedSize c := by
  rw [escapedSize]
  split_ifs <;> decide

/-- What is counted for a character is what is written for it. -/
theorem escape_length (c : Byte) : (escape c).length=escapedSize c := by
  have hall : ∀ c : Byte,(escape c).length=escapedSize c := by decide
  exact hall c

theorem flatMap_escape_length (str : List Byte) :
    (str.flatMap escape).length=escapedLength str := by
  rw [List.length_flatMap,escapedLength]
  simp only [escape_length]

/-- As long as the count does not come to 2^32 the loop counts everything. -/
theorem countEscaped_eq (str : List Byte) (n : Nat) (h : n+escapedLength str<2^32) :
    countEscaped (int32 n) str=int32 (n+escapedLength str : Nat) := by
  induction str generalizing n with
  | nil => rfl
  | cons c str ih =>
    rw [escapedLength_cons] at h ⊢
    have hpos := escapedSize_pos c
    have hadd (m k : Nat) : int32 (int32 m+k)=int32 (m+k : Nat) := by
      rw [int32_add_left,Nat.cast_add]
    have hone := hadd n 1
    have hne : int32 (n+1 : Nat)≠0 := by
      rw [int32,Int.bmod]
      split_ifs <;> omega
    rw [Nat.cast_one] at hone
    rw [countEscaped,hone]
    simp only [if_neg hne]
    by_cases hspecial : c∈[quote,backslash,0x08,0x0c,0x0a,0x0d,0x09]
    · have hsize : escapedSize c=2 := by rw [escapedSize,if_pos hspecial]
      have hnext := hadd (n+1) 1
      rw [Nat.cast_one] at hnext
      rw [if_pos hspecial,hnext,ih (n+1+1) (by omega),hsize,Nat.add_assoc n,Nat.add_assoc n]
    · by_cases hcontrol : c<32
      · have hsize : escapedSize c=6 := by rw [escapedSize,if_neg hspecial,if_pos hcontrol]
        have hnext := hadd (n+1) 5
        rw [Nat.cast_ofNat] at hnext
        rw [if_neg hspecial,if_pos hcontrol,hnext,ih (n+1+5) (by omega),hsize,Nat.add_assoc n,
          Nat.add_assoc n]
      · have hsize : escapedSize c=1 := by rw [escapedSize,if_neg hspecial,if_neg hcontrol]
        rw [if_neg hspecial,if_neg hcontrol,ih (n+1) (by omega),hsize,Nat.add_assoc n]

theorem scanString_quote (len : Int) (text : List Byte) :
    scanString len (quote::text)=.ok len := by
  rw [scanString.eq_def]
  simp

/-- The next value of len, where it does not wrap. -/
theorem len_succ (n : Nat) (h : n+1<2^31) : int32 (n+1)=(n+1 : Nat) ∧ ((n+1 : Nat) : Int)≠0 := by
  have hlen : int32 (n+1 : Nat)=(n+1 : Nat) := int32_of_lt _ h
  rw [Nat.cast_succ] at hlen
  exact ⟨hlen,by omega⟩

theorem scanString_char (n : Nat) (c : Byte) (text : List Byte) (hq : c≠quote)
    (hb : c≠backslash) (h : n+1<2^31) :
    scanString n (c::text)=scanString (n+1 : Nat) text := by
  obtain ⟨hlen,hne⟩ := len_succ n h
  rw [scanString.eq_def]
  simp only [if_neg hq,hlen,if_neg hne,if_neg hb]

theorem scanString_pair (n : Nat) (letter : Byte) (text : List Byte) (h : n+1<2^31) :
    scanString n (backslash::letter::text)=scanString (n+1 : Nat) text := by
  obtain ⟨hlen,hne⟩ := len_succ n h
  rw [scanString.eq_def]
  simp only [if_neg (show backslash≠quote by decide),hlen,if_neg hne,if_true]

/-- The first loop of parse_string passes a character, whatever its form. -/
theorem scanString_escape (n : Nat) (c : Byte) (text : List Byte)
    (h : n+escapedSize c<2^31) :
    ∃ k,0<k ∧ k≤escapedSize c ∧ scanString n (escape c++text)=scanString (n+k : Nat) text := by
  have hsize := escape_length c
  rcases escape_cases c with ⟨hc,hq,hb⟩|⟨letter,hc,_,_⟩|⟨hc,hlt⟩
  · rw [hc] at hsize ⊢
    simp only [List.length_cons,List.length_nil] at hsize
    exact ⟨1,by decide,by omega,scanString_char n c text hq hb (by omega)⟩
  · rw [hc] at hsize ⊢
    simp only [List.length_cons,List.length_nil] at hsize
    exact ⟨1,by decide,by omega,scanString_pair n letter text (by omega)⟩
  · have hd (n m : Nat) (text : List Byte) (h : n+1<2^31) :
        scanString n (hexDigit (m%16)::text)=scanString (n+1 : Nat) text := by
      obtain ⟨hq,hb,_⟩ := hexDigit_facts (m%16) (Nat.mod_lt _ (by decide))
      exact scanString_char n _ text hq hb h
    rw [hc,formatHex] at hsize ⊢
    simp only [List.length_cons,List.length_nil] at hsize
    refine ⟨5,by decide,by omega,?_⟩
    simp only [List.cons_append,List.nil_append]
    rw [scanString_pair n _ _ (by omega),hd _ _ _ (by omega),hd _ _ _ (by omega),
      hd _ _ _ (by omega),hd _ _ _ (by omega)]

theorem scanString_flatMap (n : Nat) (s text : List Byte) (h : n+escapedLength s<2^31) :
    ∃ len : Nat,scanString n (s.flatMap escape++quote::text)=.ok len ∧ n+s.length ≤ len ∧
      len≤n+escapedLength s := by
  induction s generalizing n with
  | nil => exact ⟨n,scanString_quote n text,Nat.le_refl _,Nat.le_refl _⟩
  | cons c s ih =>
    rw [escapedLength_cons] at h ⊢
    rw [List.flatMap_cons,List.append_assoc,List.length_cons]
    obtain ⟨k,hpos,hk,hstep⟩ := scanString_escape n c (s.flatMap escape++quote::text) (by omega)
    obtain ⟨len,hrun,hmin,hmax⟩ := ih (n+k) (by omega)
    exact ⟨len,hstep.trans hrun,by omega,by omega⟩

theorem unescape_quote (uc uc2 : Option Word) (text : List Byte) :
    unescape uc uc2 (quote::text)=.ok ([],quote::text) := by
  rw [unescape.eq_def]
  simp

theorem unescape_char (uc uc2 : Option Word) (c : Byte) (text : List Byte) (hq : c≠quote)
    (hb : c≠backslash) :
    unescape uc uc2 (c::text)=(unescape uc uc2 text).map (fun p => (c::p.1,p.2)) := by
  rw [unescape.eq_def]
  simp only [if_neg hq,if_pos hb]
  cases unescape uc uc2 text <;> rfl

theorem unescape_pair (uc uc2 : Option Word) (letter : Byte) (text : List Byte)
    (hu : letter≠0x75) : unescape uc uc2 (backslash::letter::text)=
      (unescape uc uc2 text).map (fun p => (unescapeLetter letter::p.1,p.2)) := by
  rw [unescape.eq_def]
  simp only [if_neg (show backslash≠quote by decide),if_neg (show ¬backslash≠backslash by decide),
    if_pos hu]
  cases unescape uc uc2 text <;> rfl

theorem unescape_hex (uc uc2 : Option Word) (h1 h2 h3 h4 : Byte) (text : List Byte) (u : Word)
    (hu : sscanfHex (h1::h2::h3::h4::text)=some u) (h0 : u≠0) (hsur : ¬0xD800≤u)
    (hlow : ¬0xDC00≤u) : unescape uc uc2 (backslash::0x75::h1::h2::h3::h4::text)=
      (unescape (some (u>>>(6*(utf8Length u-1)))) uc2 text).map
        (fun p => (utf8 u++p.1,p.2)) := by
  rw [unescape.eq_def]
  simp only [if_neg (show backslash≠quote by decide),if_neg (show ¬backslash≠backslash by decide),
    if_neg (show ¬(0x75:Byte)≠0x75 by decide),hu,Option.some_or,hsur,hlow,h0,false_and,or_self,
    if_false]
  cases unescape (some (u>>>(6*(utf8Length u-1)))) uc2 text <;> rfl

/-- The second loop writes the character, whatever its form; only uc may have changed. -/
theorem unescape_escape (uc uc2 : Option Word) (c : Byte) (hc0 : c≠0) (text : List Byte) :
    ∃ uc1,unescape uc uc2 (escape c++text)=
      (unescape uc1 uc2 text).map (fun p => (c::p.1,p.2)) := by
  rcases escape_cases c with ⟨hc,hq,hb⟩|⟨letter,hc,hu,hletter⟩|⟨hc,hlt⟩
  · rw [hc]
    exact ⟨uc,unescape_char uc uc2 c text hq hb⟩
  · rw [hc,← hletter]
    exact ⟨uc,unescape_pair uc uc2 letter text hu⟩
  · obtain ⟨hscan,hutf,hne,hsur,hlow⟩ := control_facts c hlt
    have hspace := (hexDigit_facts (c.toNat/16^3%16) (Nat.mod_lt _ (by decide))).2.2
    refine ⟨some (c.setWidth 32>>>(6*(utf8Length (c.setWidth 32)-1))),?_⟩
    rw [hc,formatHex]
    simp only [List.cons_append,List.nil_append]
    rw [unescape_hex uc uc2 _ _ _ _ text (c.setWidth 32)
      ((sscanfHex_four _ _ _ _ text hspace).trans hscan) (hne hc0) hsur hlow,hutf]
    rfl

theorem unescape_flatMap (uc uc2 : Option Word) (s text : List Byte) (hs : 0∉s) :
    unescape uc uc2 (s.flatMap escape++quote::text)=.ok (s,quote::text) := by
  induction s generalizing uc with
  | nil => exact unescape_quote uc uc2 text
  | cons c s ih =>
    rw [List.mem_cons,not_or] at hs
    rw [List.flatMap_cons,List.append_assoc]
    obtain ⟨uc1,h⟩ := unescape_escape uc uc2 c (Ne.symm hs.1) (s.flatMap escape++quote::text)
    rw [h,ih uc1 hs.2]
    rfl

theorem read_bytes (s : CString) : CString.read s.bytes=s := by
  apply CString.ext
  rw [CString.read]
  refine List.takeWhile_eq_self_iff.mpr ?_
  intro c hc
  refine decide_eq_true ?_
  intro heq
  subst heq
  exact s.noNul hc

/-- A printed string is parsed to itself, whatever stands after it. -/
theorem parseString_print (malloc : Nat → Bool) (hmalloc : ∀ n,n<2^31 → malloc n=true)
    (f : Fields) (s : CString) (hs : escapedLength s.bytes+3<2^31) (rest : List Byte) :
    parseString malloc f (quote::s.bytes.flatMap escape++[quote]++rest)=
      .ok ({f with valuestring := some s,type := typeString},rest) := by
  obtain ⟨len,hlen,hmin,hmax⟩ := scanString_flatMap 0 s.bytes rest (by omega)
  have hbytes : toSize (int32 (len+1))=len+1 := toSize_int32 (len+1) (by omega)
  have hroom : s.bytes.length<len+1 := by omega
  rw [parseString]
  simp only [Nat.cast_zero] at hlen
  simp only [List.cons_append,List.append_assoc,List.nil_append,List.head?_cons,ne_eq,
    not_true_eq_false,if_false,List.tail_cons,hlen,ok_bind,hbytes,hmalloc _ (show len+1<2^31 by omega),
    if_true,unescape_flatMap none none s.bytes rest s.noNul,read_bytes,after_cons,if_pos hroom]

end Strings

section Numbers

/-- What stands after a value in a printed text: nothing, a comma or a closing bracket. -/
def Ends (rest : List Byte) : Prop :=
  rest.head?=none ∨ rest.head?=some comma ∨ rest.head?=some closeArray ∨
    rest.head?=some closeObject

theorem digit_facts : ∀ d<10,isDigit (BitVec.ofNat 8 (0x30+d))=true ∧
    (BitVec.ofNat 8 (0x30+d)).toNat-0x30=d ∧ (BitVec.ofNat 8 (0x30+d):Byte)≠minus ∧
      (d≠0 → (0x31≤BitVec.ofNat 8 (0x30+d) && BitVec.ofNat 8 (0x30+d)≤(0x39:Byte))=true ∧
        (BitVec.ofNat 8 (0x30+d):Byte)≠0x30) := by
  decide

theorem readDigits_ends (n : Nat) (rest : List Byte) (h : Ends rest) :
    readDigits n rest=(n,0,rest) := by
  cases rest with
  | nil => rfl
  | cons c rest =>
    rw [readDigits]
    simp only [Ends,List.head?_cons,Option.some.injEq,reduceCtorEq,false_or] at h
    rcases h with rfl|rfl|rfl <;> rfl

theorem readDigits_append (n : Nat) (digits : List Nat) (rest : List Byte)
    (hdigits : ∀ d∈digits,d<10) (hrest : Ends rest) :
    readDigits n (digits.map (fun d => BitVec.ofNat 8 (0x30+d))++rest)=
      (Decimal.value n digits,digits.length,rest) := by
  induction digits generalizing n with
  | nil => exact readDigits_ends n rest hrest
  | cons d digits ih =>
    obtain ⟨hd,hsub,_⟩ := digit_facts d (hdigits d List.mem_cons_self)
    have htail : ∀ d∈digits,d<10 := fun d hd => hdigits d (List.mem_cons_of_mem _ hd)
    rw [List.map_cons,List.cons_append,readDigits,if_pos hd,hsub,ih _ htail]
    rfl

theorem readExponent_ends (rest : List Byte) (h : Ends rest) : readExponent rest=(0,rest) := by
  cases rest with
  | nil => rfl
  | cons c rest =>
    simp only [Ends,List.head?_cons,Option.some.injEq,reduceCtorEq,false_or] at h
    rcases h with rfl|rfl|rfl <;> rfl

theorem toInt_intCast (i : Int) (hmin : -2^31 ≤ i) (hmax : i<2^31) : toInt (i:Rat)=i := by
  simp [toInt]
  omega

/-- The digits of a number: only a zero starts with a zero. -/
theorem decimal_cases (n : Nat) : n=0 ∧ Decimal.text n=[0x30] ∨
    ∃ d digits,Decimal.text n=(d::digits).map (fun d => BitVec.ofNat 8 (0x30+d)) ∧ d≠0 ∧
      (∀ e∈d::digits,e<10) ∧ Decimal.value 0 (d::digits)=n := by
  have hlt := Decimal.digits_lt n
  have hvalue := Decimal.value_digits n
  rcases Decimal.digits_cases n with ⟨hn,hdigits⟩|⟨d,ds,hdigits,hd⟩
  · refine Or.inl ⟨hn,?_⟩
    rw [Decimal.text,hdigits]
    rfl
  · rw [hdigits] at hlt hvalue
    exact Or.inr ⟨d,ds,by rw [Decimal.text,hdigits],hd,hlt,hvalue⟩

/-- Digits without a sign: parse_number after its test for a minus. -/
theorem readDigits_decimal (n : Nat) (rest : List Byte) (hrest : Ends rest) :
    let num := (after 0x30 (Decimal.text n++rest)).2
    let num := if num.head?.any (fun c => 0x31≤c && c≤0x39) then readDigits 0 num else (0,0,num)
    num.1=n ∧ num.2.2=rest := by
  rcases decimal_cases n with ⟨h0,hdec⟩|⟨d,digits,hdec,hd0,hlt,hvalue⟩
  · rw [hdec,List.singleton_append,after_cons]
    cases rest with
    | nil => exact ⟨h0.symm,rfl⟩
    | cons c rest =>
      simp only [Ends,List.head?_cons,Option.some.injEq,reduceCtorEq,false_or] at hrest
      rcases hrest with rfl|rfl|rfl <;> exact ⟨h0.symm,rfl⟩
  · obtain ⟨_,_,_,hfirst⟩ := digit_facts d (hlt d List.mem_cons_self)
    rw [hdec,List.map_cons,List.cons_append,after_ne _ _ _ (hfirst hd0).2]
    simp only [List.head?_cons,Option.any_some,(hfirst hd0).1,if_true]
    have h := readDigits_append 0 (d::digits) rest hlt hrest
    rw [List.map_cons,List.cons_append] at h
    rw [h]
    exact ⟨hvalue,rfl⟩

/-- A printed int is parsed to itself, where a value can end. -/
theorem parseNumber_print (f : Fields) (i : Int) (rest : List Byte) (hrest : Ends rest)
    (hmin : -2^31 ≤ i) (hmax : i<2^31) :
    parseNumber f (formatInt i++rest)=
      ({f with valuedouble := i,valueint := i,type := typeNumber},rest) := by
  have hafter : after minus (formatInt i++rest)=(decide (i<0),Decimal.text i.natAbs++rest) := by
    rw [formatInt]
    by_cases hi : i<0
    · simp [hi,after_cons]
    · rcases decimal_cases i.natAbs with ⟨_,hdec⟩|⟨d,digits,hdec,_,hlt,_⟩
      · simp only [hi,hdec,if_false,decide_false]
        rfl
      · obtain ⟨_,_,hminus,_⟩ := digit_facts d (hlt d List.mem_cons_self)
        simp only [hi,hdec,if_false,decide_false,List.nil_append,List.map_cons,List.cons_append]
        exact after_ne _ _ _ hminus
  have hpoint : ¬(rest.head?=some point ∧ rest.tail.head?.any isDigit=true) := by
    intro hgiven
    obtain ⟨h,_⟩ := hgiven
    rw [Ends,h] at hrest
    simp [point,comma,closeArray,closeObject] at hrest
  obtain ⟨hn,hnum⟩ := readDigits_decimal i.natAbs rest hrest
  rw [parseNumber]
  simp only [hafter]
  simp only [hn,hnum,if_neg hpoint,readExponent_ends rest hrest]
  have hd : (if decide (i<0)=true then -1 else 1)*(i.natAbs:Rat)*10^(-((0:Nat):Int)+0)=i := by
    by_cases hi : i<0
    · rw [if_pos (decide_eq_true hi),Nat.cast_natAbs,abs_of_neg hi]
      push_cast
      simp
    · rw [if_neg (by simpa using hi),Nat.cast_natAbs,abs_of_nonneg (by omega)]
      simp
  rw [hd,toInt_intCast i hmin hmax]

/-- No int takes more than eleven characters. -/
theorem formatInt_length (i : Int) (hmin : -2^31 ≤ i) (hmax : i<2^31) :
    (formatInt i).length<21 := by
  have hdigits : (Decimal.text i.natAbs).length≤10 := by
    rw [Decimal.text,List.length_map,Decimal.digits]
    split
    · exact by decide
    · rw [List.length_reverse,Nat.digits_length_le_iff (by decide)]
      omega
  have hsign : (if i<0 then [minus] else []).length≤1 := by split <;> decide
  rw [formatInt,List.length_append]
  omega

theorem printNumber_int (malloc : Nat → Bool) (hmalloc : ∀ n,n<2^31 → malloc n=true)
    (f : Fields) (hd : f.valuedouble=f.valueint) (hmin : -2^31≤f.valueint)
    (hmax : f.valueint<2^31) : printNumber malloc f=.ok (formatInt f.valueint) := by
  have hle : (f.valueint:Rat)≤2147483647 := by exact_mod_cast (show f.valueint≤2147483647 by omega)
  have hge : (-2147483648:Rat)≤f.valueint := by
    exact_mod_cast (show (-2147483648:Int)≤f.valueint by omega)
  rw [printNumber]
  simp only [hd,sub_self,abs_zero,hle,hge,and_true]
  rw [if_pos (by norm_num [dblEpsilon]),fill,hmalloc 21 (by decide),if_pos rfl,
    if_pos (formatInt_length _ hmin hmax)]

theorem formatInt_head (i : Int) :
    ∃ c,(formatInt i).head?=some c ∧ (c=minus || isDigit c)=true := by
  rw [formatInt]
  split
  · exact ⟨minus,rfl,by decide⟩
  · rcases decimal_cases i.natAbs with ⟨_,hdec⟩|⟨d,digits,hdec,_,hlt,_⟩
    · exact ⟨0x30,by rw [hdec]; rfl,by decide⟩
    · refine ⟨BitVec.ofNat 8 (0x30+d),by rw [hdec]; rfl,?_⟩
      rw [(digit_facts d (hlt d List.mem_cons_self)).1,Bool.or_true]

end Numbers

section Values

variable (malloc : Nat → Bool) (hmalloc : ∀ n,n<2^31 → malloc n=true)

/-- The text of a string. -/
def quoted (s : CString) : List Byte := quote::s.bytes.flatMap escape++[quote]

/-- A text that stands for a value: it is parsed as that value wherever a value can end, with
the name that the item already has, and the white space before it can be skipped. -/
structure Parses (text : List Byte) (t : Tree) : Prop where
  start : ∃ c,text.head?=some c ∧ 32<c ∧ c≠closeArray
  parsed : ∀ fuel f rest,3*text.length≤fuel → Ends rest →
    ∃ g child,parseValue malloc fuel f (text++rest)=.ok (g,child,rest) ∧ g.string=f.string ∧
      readNode g (readChain child)=some t

theorem skip_cons (c : Byte) (text : List Byte) (h : 32<c) : skip (c::text)=c::text := by
  rw [skip,List.dropWhile_cons_of_neg]
  simpa using h

theorem prefix_ne (word : String) (c d : Byte) (tail text : List Byte)
    (hword : letters word=d::tail) (h : d≠c) : (letters word).isPrefixOf (c::text)=false := by
  rw [hword]
  simp [List.isPrefixOf,h]

/-- Texts that do not start as one of the three words. -/
theorem no_word (c : Byte) (text : List Byte) (hn : c≠0x6e) (hf : c≠0x66) (ht : c≠0x74) :
    (letters "null").isPrefixOf (c::text)=false ∧ (letters "false").isPrefixOf (c::text)=false ∧
      (letters "true").isPrefixOf (c::text)=false :=
  ⟨prefix_ne "null" c 0x6e _ text rfl hn.symm,prefix_ne "false" c 0x66 _ text rfl hf.symm,
    prefix_ne "true" c 0x74 _ text rfl ht.symm⟩

/-- The three words. -/
theorem parses_word : Parses malloc (letters "null") .null ∧
    Parses malloc (letters "false") .false ∧ Parses malloc (letters "true") .true := by
  refine ⟨⟨⟨0x6e,rfl,by decide,by decide⟩,?_⟩,⟨⟨0x66,rfl,by decide,by decide⟩,?_⟩,
    ⟨⟨0x74,rfl,by decide,by decide⟩,?_⟩⟩ <;>
  · rintro (_|fuel) f rest hfuel _
    · exact absurd hfuel (by decide)
    · exact ⟨_,_,rfl,rfl,by simp [readNode,typeNull,typeFalse,typeTrue]⟩

theorem parses_number (value : IntValue) :
    Parses malloc (formatInt value.1) (.number value) := by
  obtain ⟨i,hmin,hmax⟩ := value
  obtain ⟨c,hc,hdigit⟩ := formatInt_head i
  have hfacts : ∀ c : Byte,(c=minus || isDigit c)=true → 32<c ∧ c≠closeArray ∧ c≠0x6e ∧
      c≠0x66 ∧ c≠0x74 ∧ c≠quote := by decide
  obtain ⟨hspace,hclose,hn,hf,ht,hq⟩ := hfacts c hdigit
  refine ⟨⟨c,hc,hspace,hclose⟩,?_⟩
  obtain ⟨text,htext⟩ : ∃ text,formatInt i=c::text := List.head?_eq_some_iff.mp hc
  rintro (_|fuel) f rest hfuel hrest
  · rw [htext] at hfuel
    simp at hfuel
  · obtain ⟨hw1,hw2,hw3⟩ := no_word c (text++rest) hn hf ht
    have hnum := parseNumber_print f i rest hrest hmin hmax
    rw [htext,List.cons_append] at hnum ⊢
    rw [parseValue,hw1,hw2,hw3]
    simp only [Bool.false_eq_true,if_false,List.head?_cons,Option.some.injEq,hq,
      Option.any_some,hdigit,if_true,hnum]
    refine ⟨_,_,rfl,rfl,?_⟩
    simp only [readNode,typeNumber,if_true]
    exact dif_pos ⟨hmin,hmax⟩

include hmalloc in
theorem parses_string (s : CString) (hs : escapedLength s.bytes+3<2^31) :
    Parses malloc (quoted s) (.string s) := by
  refine ⟨⟨quote,rfl,by decide,by decide⟩,?_⟩
  rintro (_|fuel) f rest hfuel hrest
  · simp [quoted] at hfuel
  · have hstring := parseString_print malloc hmalloc f s hs rest
    rw [quoted]
    simp only [List.cons_append] at hstring ⊢
    obtain ⟨hw1,hw2,hw3⟩ := no_word quote (s.bytes.flatMap escape++[quote]++rest)
      (by decide) (by decide) (by decide)
    rw [parseValue,hw1,hw2,hw3]
    simp only [Bool.false_eq_true,if_false,List.head?_cons,if_true,hstring,ok_bind]
    exact ⟨_,_,rfl,rfl,by simp [readNode,typeString]⟩

/-- Nothing is skipped before a text that stands for a value. -/
theorem Parses.skip_append (text rest : List Byte) (t : Tree) (h : Parses malloc text t) :
    skip (text++rest)=text++rest ∧ (text++rest).head?≠some closeArray ∧ 0<text.length := by
  obtain ⟨c,hc,hspace,hclose⟩ := h.start
  obtain ⟨tail,rfl⟩ := List.head?_eq_some_iff.mp hc
  exact ⟨skip_cons c _ hspace,by simpa using hclose,by simp⟩

/-- The white space after a comma. -/
theorem parseElements_space (fmt : Bool) (fuel : Nat) (value : List Byte) :
    parseElements malloc fuel ((if fmt then [space] else [])++value)=
      parseElements malloc fuel value := by
  cases fmt with
  | false => rfl
  | true =>
    cases fuel with
    | zero => rfl
    | succ fuel =>
      rw [parseElements,parseElements]
      rfl

/-- One item of an array, where a comma or a bracket follows. -/
theorem parseElements_step (fuel : Nat) (text rest : List Byte) (t : Tree)
    (h : Parses malloc text t) (hfuel : 3*text.length≤fuel) (hrest : Ends rest)
    (hskip : skip rest=rest) :
    ∃ g child,readNode g (readChain child)=some t ∧
      parseElements malloc (fuel+1) (text++rest)=
        (if malloc sizeofItem then
          if rest.head?=some comma then do
            let (next,value) ← parseElements malloc fuel rest.tail
            .ok (.item g child next,value)
          else .ok (.item g child .null,rest)
        else .error .null) := by
  obtain ⟨g,child,hparse,_,hread⟩ := h.parsed fuel newItem rest hfuel hrest
  refine ⟨g,child,hread,?_⟩
  rw [parseElements,(h.skip_append malloc text rest t).1,hparse]
  simp only [ok_bind,hskip]

theorem joinEntries_cons (fmt : Bool) (entry entry2 : List Byte) (entries : List (List Byte)) :
    joinEntries fmt (entry::entry2::entries)=
      entry++comma::((if fmt then [space] else [])++joinEntries fmt (entry2::entries)) := by
  simp [joinEntries]

include hmalloc in
/-- The items of an array between the brackets. -/
theorem parseElements_join (fmt : Bool) (texts : List (List Byte)) (trees : List Tree)
    (h : List.Forall₂ (Parses malloc) texts trees) (hne : texts≠[]) (fuel : Nat)
    (rest : List Byte) (hfuel : 3*(joinEntries fmt texts).length<fuel) :
    ∃ chain items,parseElements malloc fuel (joinEntries fmt texts++closeArray::rest)=
      .ok (chain,closeArray::rest) ∧ readChain chain=some items ∧ items.map Prod.snd=trees := by
  induction h generalizing fuel with
  | nil => exact absurd rfl hne
  | @cons text t texts trees ht htexts ih =>
    obtain ⟨fuel,rfl⟩ := Nat.exists_eq_succ_of_ne_zero (show fuel≠0 by omega)
    cases texts with
    | nil =>
      obtain ⟨g,child,hread,hparse⟩ := parseElements_step malloc fuel text (closeArray::rest) t ht
        (by rw [joinEntries] at hfuel; omega) (Or.inr (Or.inr (Or.inl rfl)))
        (skip_cons _ _ (by decide))
      cases htexts
      refine ⟨.item g child .null,[(g.string,t)],?_,?_,rfl⟩
      · rw [joinEntries,hparse,hmalloc _ (by decide)]
        rfl
      · simp only [readChain,hread]
    | cons text2 texts =>
      obtain ⟨g,child,hread,hparse⟩ := parseElements_step malloc fuel text
        (comma::((if fmt then [space] else [])++
          (joinEntries fmt (text2::texts)++closeArray::rest))) t ht
        (by simp only [joinEntries_cons,List.length_append,List.length_cons] at hfuel; omega)
        (Or.inr (Or.inl rfl)) (skip_cons _ _ (by decide))
      obtain ⟨chain,items,hnext,hitems,htrees⟩ := ih (by simp) fuel
        (by simp only [joinEntries_cons,List.length_append,List.length_cons] at hfuel; omega)
      refine ⟨.item g child chain,(g.string,t)::items,?_,?_,by rw [List.map_cons,htrees]⟩
      · rw [joinEntries_cons]
        simp only [List.append_assoc,List.cons_append]
        rw [hparse,hmalloc _ (by decide)]
        simp only [if_true,List.head?_cons,List.tail_cons,parseElements_space,hnext,ok_bind]
      · simp only [readChain,hread,hitems]

include hmalloc in
theorem parses_array (fmt : Bool) (texts : List (List Byte)) (trees : List Tree)
    (h : List.Forall₂ (Parses malloc) texts trees) :
    Parses malloc (openArray::joinEntries fmt texts++[closeArray]) (.array trees) := by
  refine ⟨⟨openArray,rfl,by decide,by decide⟩,?_⟩
  intro fuel f rest hfuel hrest
  simp only [List.length_append,List.length_cons,List.length_nil] at hfuel
  obtain ⟨fuel,rfl⟩ := Nat.exists_eq_add_of_le' (show 2≤fuel by omega)
  simp only [List.cons_append,List.append_assoc,List.nil_append]
  obtain ⟨hw1,hw2,hw3⟩ := no_word openArray (joinEntries fmt texts++closeArray::rest)
    (by decide) (by decide) (by decide)
  rw [parseValue,hw1,hw2,hw3]
  simp only [Bool.false_eq_true,if_false,List.head?_cons,Option.some.injEq,Option.any_some,
    show openArray≠quote by decide,
    show (decide (openArray=minus) || isDigit openArray)=false by decide,if_true]
  rw [parseArray]
  simp only [List.tail_cons]
  cases h with
  | nil =>
    simp only [joinEntries,List.nil_append,skip_cons closeArray rest (by decide),
      List.head?_cons,if_true,List.tail_cons]
    exact ⟨_,_,rfl,rfl,by simp [readNode,typeArray,readChain]⟩
  | @cons text t texts trees ht htexts =>
    obtain ⟨chain,items,hparse,hitems,htrees⟩ := parseElements_join malloc hmalloc fmt _ _
      (List.Forall₂.cons ht htexts) (by simp) fuel rest (by omega)
    obtain ⟨tail,htail⟩ : ∃ tail,joinEntries fmt (text::texts)=text++tail := by
      cases texts with
      | nil => exact ⟨[],by simp [joinEntries]⟩
      | cons text2 texts => exact ⟨_,joinEntries_cons fmt text text2 texts⟩
    obtain ⟨hskip,hclose,_⟩ := ht.skip_append malloc text (tail++closeArray::rest) t
    rw [htail,List.append_assoc] at hparse ⊢
    simp only [hskip,hclose,if_false,hparse,ok_bind,List.head?_cons,if_true,List.tail_cons]
    refine ⟨_,_,rfl,rfl,?_⟩
    simp [readNode,typeArray,hitems,htrees]

/-- The texts of a member stand for its name and its value. -/
def ParsesMember (m : List Byte × List Byte) (t : CString × Tree) : Prop :=
  m.1=quoted t.1 ∧ escapedLength t.1.bytes+3<2^31 ∧ Parses malloc m.2 t.2

include hmalloc in
/-- One member of an object, where a comma or a bracket follows. -/
theorem parseMembers_step (fuel : Nat) (name : CString) (text rest : List Byte) (t : Tree)
    (hname : escapedLength name.bytes+3<2^31) (h : Parses malloc text t) (hfuel : 3*text.length≤fuel) (hrest : Ends rest)
    (hskip : skip rest=rest) :
    ∃ g child,g.string=some name ∧ readNode g (readChain child)=some t ∧
      parseMembers malloc (fuel+1) (quoted name++colon::(text++rest))=
        if rest.head?=some comma then do
          let (next,value) ← parseMembers malloc fuel rest.tail
          .ok (.item g child next,value)
        else .ok (.item g child .null,rest) := by
  obtain ⟨g,child,hparse,hsame,hread⟩ := h.parsed fuel
    ⟨typeString,none,0,0,some name⟩ rest hfuel hrest
  refine ⟨g,child,hsame,hread,?_⟩
  have hstring := parseString_print malloc hmalloc newItem name hname (colon::(text++rest))
  rw [← quoted] at hstring
  have hquote : skip (quoted name++colon::(text++rest))=quoted name++colon::(text++rest) :=
    skip_cons quote _ (by decide)
  rw [parseMembers,hmalloc _ (by decide)]
  simp only [if_true,hquote,hstring,ok_bind,skip_cons colon _ (by decide),List.head?_cons,
    List.tail_cons,(h.skip_append malloc text rest t).1]
  rw [newItem,hparse]
  simp only [ok_bind,hskip]

theorem joinMembers_cons (m m2 : List Byte × List Byte) (members : List (List Byte × List Byte)) :
    joinMembers (m::m2::members)=m.1++colon::(m.2++comma::joinMembers (m2::members)) := by
  simp [joinMembers]

include hmalloc in
/-- The members of an object between the brackets. -/
theorem parseMembers_join (members : List (List Byte × List Byte))
    (trees : List (CString × Tree)) (h : List.Forall₂ (ParsesMember malloc) members trees)
    (hne : members≠[]) (fuel : Nat) (rest : List Byte)
    (hfuel : 3*(joinMembers members).length<fuel) :
    ∃ chain items,parseMembers malloc fuel (joinMembers members++closeObject::rest)=
      .ok (chain,closeObject::rest) ∧ readChain chain=some items ∧ named items=some trees := by
  induction h generalizing fuel with
  | nil => exact absurd rfl hne
  | @cons m t members trees hm hmembers ih =>
    obtain ⟨fuel,rfl⟩ := Nat.exists_eq_succ_of_ne_zero (show fuel≠0 by omega)
    obtain ⟨name,text⟩ := m
    obtain ⟨string,value⟩ := t
    obtain ⟨rfl,hsize,hvalue⟩ := hm
    cases members with
    | nil =>
      obtain ⟨g,child,hname,hread,hparse⟩ := parseMembers_step malloc hmalloc fuel string text
        (closeObject::rest) value hsize hvalue
        (by simp only [joinMembers,List.length_append,List.length_cons] at hfuel; omega)
        (Or.inr (Or.inr (Or.inr rfl))) (skip_cons _ _ (by decide))
      cases hmembers
      refine ⟨.item g child .null,[(some string,value)],?_,?_,rfl⟩
      · simp only [joinMembers,List.append_assoc,List.cons_append]
        exact hparse
      · simp only [readChain,hread,hname]
    | cons m2 members =>
      obtain ⟨g,child,hname,hread,hparse⟩ := parseMembers_step malloc hmalloc fuel string text
        (comma::(joinMembers (m2::members)++closeObject::rest)) value hsize hvalue
        (by simp only [joinMembers_cons,List.length_append,List.length_cons] at hfuel; omega)
        (Or.inr (Or.inl rfl)) (skip_cons _ _ (by decide))
      obtain ⟨chain,items,hnext,hitems,htrees⟩ := ih (by simp) fuel
        (by simp only [joinMembers_cons,List.length_append,List.length_cons] at hfuel; omega)
      refine ⟨.item g child chain,(some string,value)::items,?_,?_,?_⟩
      · rw [joinMembers_cons]
        simp only [List.append_assoc,List.cons_append]
        rw [hparse]
        simp only [if_true,List.head?_cons,List.tail_cons,hnext,ok_bind]
      · simp only [readChain,hread,hitems,hname]
      · simp only [named,htrees]

include hmalloc in
theorem parses_object (members : List (List Byte × List Byte)) (trees : List (CString × Tree))
    (h : List.Forall₂ (ParsesMember malloc) members trees) :
    Parses malloc (openObject::joinMembers members++[closeObject]) (.object trees) := by
  refine ⟨⟨openObject,rfl,by decide,by decide⟩,?_⟩
  intro fuel f rest hfuel hrest
  simp only [List.length_append,List.length_cons,List.length_nil] at hfuel
  obtain ⟨fuel,rfl⟩ := Nat.exists_eq_add_of_le' (show 2≤fuel by omega)
  simp only [List.cons_append,List.append_assoc,List.nil_append]
  obtain ⟨hw1,hw2,hw3⟩ := no_word openObject (joinMembers members++closeObject::rest)
    (by decide) (by decide) (by decide)
  rw [parseValue,hw1,hw2,hw3]
  simp only [Bool.false_eq_true,if_false,List.head?_cons,Option.some.injEq,Option.any_some,
    show openObject≠quote by decide,show openObject≠openArray by decide,
    show (decide (openObject=minus) || isDigit openObject)=false by decide,if_true]
  rw [parseObject]
  simp only [List.tail_cons]
  cases h with
  | nil =>
    simp only [joinMembers,List.nil_append,skip_cons closeObject rest (by decide),
      List.head?_cons,if_true,List.tail_cons]
    exact ⟨_,_,rfl,rfl,by simp [readNode,typeObject,readChain,named]⟩
  | @cons m t members trees hm hmembers =>
    obtain ⟨chain,items,hparse,hitems,htrees⟩ := parseMembers_join malloc hmalloc _ _
      (List.Forall₂.cons hm hmembers) (by simp) fuel rest (by omega)
    obtain ⟨tail,htail⟩ : ∃ tail,joinMembers (m::members)=quote::tail := by
      obtain ⟨name,text⟩ := m
      obtain ⟨rfl,_⟩ := hm
      cases members with
      | nil => exact ⟨_,rfl⟩
      | cons m2 members => exact ⟨_,rfl⟩
    rw [htail,List.cons_append] at hparse ⊢
    simp only [skip_cons quote _ (by decide),List.head?_cons,Option.some.injEq,
      show quote≠closeObject by decide,if_false,hparse,ok_bind,if_true,List.tail_cons]
    refine ⟨_,_,rfl,rfl,?_⟩
    simp [readNode,typeObject,hitems,htrees]

/-- The texts of a chain stand for its items one by one, under the same names. -/
def ParsesEntry (e : Option CString × List Byte) (i : Option CString × Tree) : Prop :=
  e.1=i.1 ∧ Parses malloc e.2 i.2

def nameText : Option CString → List Byte
  | none => []
  | some s => quoted s

/-- The text of an item, with the texts of its children. -/
def textNode (fmt : Bool) (f : Fields) (entries : List (Option CString × List Byte)) :
    List Byte :=
  match f.type&&&255 with
  | typeNull => letters "null"
  | typeFalse => letters "false"
  | typeTrue => letters "true"
  | typeNumber => formatInt f.valueint
  | typeString => nameText f.valuestring
  | typeArray => openArray::joinEntries fmt (entries.map Prod.snd)++[closeArray]
  | typeObject =>
    openObject::joinMembers (entries.map (fun e => (nameText e.1,e.2)))++[closeObject]
  | _ => []

def textChain (fmt : Bool) : Item → List (Option CString × List Byte)
  | .null => []
  | .item f child next => (f.string,textNode fmt f (textChain fmt child))::textChain fmt next

def stringSize : Option CString → Nat
  | none => 1
  | some s => escapedLength s.bytes+3

/-- The sizes of the blocks that are asked for to print an item: the pointers to its children,
their names, its own text with what it is allowed for each of them, and the blocks of the
children. -/
def blocksNode (depth : Nat) (fmt : Bool) (f : Fields)
    (entries : List (Option CString × List Byte)) (children : List Nat) : List Nat :=
  match f.type&&&255 with
  | typeNull => [5]
  | typeFalse => [6]
  | typeTrue => [5]
  | typeNumber => [21]
  | typeString => [stringSize f.valuestring]
  | typeArray =>
    if entries=[] then [3]
    else [entries.length*8,5+(entries.map (fun e => e.2.length+2+(if fmt then 1 else 0))).sum]++
      children
  | typeObject =>
    if entries=[] then [if fmt then depth+3 else 3]
    else [entries.length*8,7+(if fmt then depth+1 else 0)+(entries.map (fun e =>
        e.2.length+(nameText e.1).length+2+(if fmt then 2+(depth+1) else 0))).sum]++
      entries.map (fun e => stringSize e.1)++children
  | _ => []

def blocksChain (depth : Nat) (fmt : Bool) : Item → List Nat
  | .null => []
  | .item f child next =>
    blocksNode depth fmt f (textChain fmt child) (blocksChain (depth+1) fmt child)++
      blocksChain depth fmt next

/-- The sizes of all blocks that printing an item asks for. -/
def blocks (fmt : Bool) : Item → List Nat
  | .null => []
  | .item f child _ => blocksNode 0 fmt f (textChain fmt child) (blocksChain 1 fmt child)

/-- Texts that are all there. -/
def printed (entries : List (Option CString × List Byte)) : List (Option CString × Printed) :=
  entries.map (fun e => (e.1,.ok e.2))

include hmalloc in
theorem fill_text (size : Nat) (text : List Byte) (hsize : size<2^31)
    (htext : text.length < size) : fill malloc size text=.ok text := by
  rw [fill,hmalloc size hsize,if_pos rfl,if_pos htext]

include hmalloc in
theorem printStringPtr_text (s : Option CString) (hs : stringSize s<2^31) :
    printStringPtr malloc s=.ok (nameText s) := by
  cases s with
  | none => exact fill_text malloc hmalloc 1 [] (by decide) (by decide)
  | some s =>
    rw [stringSize] at hs
    have hcount := countEscaped_eq s.bytes 0 (by omega)
    have hsize : toSize (int32 (countEscaped 0 s.bytes+3))=escapedLength s.bytes+3 := by
      rw [show (0 : Int)=int32 (0 : Nat) by decide,hcount,Nat.zero_add,int32_add_left]
      exact toSize_int32 (escapedLength s.bytes+3) hs
    rw [printStringPtr,hsize,nameText,quoted]
    apply fill_text malloc hmalloc _ _ hs
    rw [List.length_append,List.length_cons,flatMap_escape_length,List.length_singleton]
    omega

theorem joinEntries_length (fmt : Bool) (texts : List (List Byte)) :
    (joinEntries fmt texts).length≤
      (texts.map (fun t => t.length+2+(if fmt then 1 else 0))).sum := by
  induction texts with
  | nil => exact Nat.le_refl _
  | cons t texts ih =>
    rw [List.map_cons,List.sum_cons]
    cases texts with
    | nil =>
      rw [joinEntries]
      omega
    | cons t2 texts =>
      rw [joinEntries_cons,List.length_append,List.length_cons,List.length_append]
      have hspace : (if fmt then [space] else []).length=if fmt then 1 else 0 := by
        split <;> rfl
      omega

theorem joinMembers_length (members : List (List Byte × List Byte)) (k : Nat) :
    (joinMembers members).length≤
      (members.map (fun m => m.2.length+m.1.length+2+k)).sum := by
  induction members with
  | nil => exact Nat.le_refl _
  | cons m members ih =>
    rw [List.map_cons,List.sum_cons]
    cases members with
    | nil =>
      rw [joinMembers,List.length_append,List.length_cons]
      omega
    | cons m2 members =>
      rw [joinMembers_cons,List.length_append,List.length_cons,List.length_append,
        List.length_cons]
      omega

theorem collect_texts (texts : List (List Byte)) (room : Nat) (h : texts.length≤room) :
    collect room (texts.map .ok)=.ok texts := by
  induction texts generalizing room with
  | nil => rfl
  | cons t texts ih =>
    rw [List.length_cons] at h
    rw [List.map_cons,collect,if_neg (by omega),ih (room-1) (by omega)]
    rfl

theorem collectMembers_texts (members : List (List Byte × List Byte)) (room : Nat)
    (h : members.length≤room) :
    collectMembers room (members.map (fun m => (.ok m.1,.ok m.2)))=.ok members := by
  induction members generalizing room with
  | nil => rfl
  | cons m members ih =>
    rw [List.length_cons] at h
    rw [List.map_cons,collectMembers,if_neg (by omega)]
    simp only [ih (room-1) (by omega)]

/-- The table of the pointers to n children. -/
theorem pointers_room (n : Nat) (h : n*8<2^31) :
    int32 n=n ∧ toSize n*8%2^64=n*8 := by
  have hn := int32_of_lt n (by omega)
  have hsize := toSize_int32 n (by omega)
  rw [hn] at hsize
  refine ⟨hn,?_⟩
  rw [hsize]
  omega

include hmalloc in
theorem printArray_text (fmt : Bool) (texts : List (List Byte)) (hne : texts≠[])
    (hpointers : texts.length*8<2^31)
    (hlen : 5+(texts.map (fun t => t.length+2+(if fmt then 1 else 0))).sum<2^31) :
    printArray malloc fmt (texts.map .ok)=.ok (openArray::joinEntries fmt texts++[closeArray]) := by
  obtain ⟨hn,hbytes⟩ := pointers_room texts.length hpointers
  have hpos := List.length_pos_iff.mpr hne
  have htext := joinEntries_length fmt texts
  rw [printArray]
  simp only [List.length_map,hn,hbytes,hmalloc _ hpointers,if_true]
  rw [if_neg (by omega),show (5 : Int)=(5 : Nat) from rfl,collect_texts texts _ (by omega),ok_bind,foldl_int32,
    toSize_int32 _ hlen,Int.toNat_natCast,List.take_length]
  apply fill_text malloc hmalloc _ _ hlen
  rw [List.length_append,List.length_cons,List.length_singleton]
  omega

include hmalloc in
theorem printObject_nil (depth : Nat) (fmt : Bool) (hsize : (if fmt then depth+3 else 3)<2^31) :
    printObject malloc depth fmt []=.ok [openObject,closeObject] := by
  cases fmt with
  | false => exact fill_text malloc hmalloc 3 _ (by decide) (by decide)
  | true =>
    have hbytes := toSize_int32 (depth+3) hsize
    rw [Nat.cast_add,Nat.cast_ofNat] at hbytes
    have hroom : [openObject,closeObject].length < depth+3 := Nat.lt_add_left depth (by decide)
    rw [printObject]
    simp only [List.length_nil,Nat.cast_zero,show int32 0=0 by decide,if_true,hbytes]
    exact fill_text malloc hmalloc _ [openObject,closeObject] hsize hroom

include hmalloc in
theorem printObject_text (depth : Nat) (fmt : Bool)
    (entries : List (Option CString × List Byte)) (hne : entries≠[])
    (hpointers : entries.length*8<2^31)
    (hlen : 7+(if fmt then depth+1 else 0)+(entries.map (fun e =>
      e.2.length+(nameText e.1).length+2+(if fmt then 2+(depth+1) else 0))).sum<2^31)
    (hnames : ∀ e∈entries,stringSize e.1<2^31) :
    printObject malloc depth fmt (printed entries)=
      .ok (openObject::joinMembers (entries.map (fun e => (nameText e.1,e.2)))++[closeObject]) := by
  obtain ⟨hn,hbytes⟩ := pointers_room entries.length hpointers
  have hpos := List.length_pos_iff.mpr hne
  let members := entries.map (fun e => (nameText e.1,e.2))
  have hmembers : (printed entries).map (fun e => (printStringPtr malloc e.1,e.2))=
      members.map (fun m => (.ok m.1,.ok m.2)) := by
    rw [printed,List.map_map,List.map_map]
    refine List.map_congr_left fun e he => ?_
    simp only [Function.comp,printStringPtr_text malloc hmalloc e.1 (hnames e he)]
  have hcount : members.length=entries.length := List.length_map _
  have htext := joinMembers_length members (if fmt then 2+(depth+1) else 0)
  have hsum : (members.map (fun m => m.2.length+m.1.length+2+
      (if fmt then 2+(depth+1) else 0))).sum=(entries.map (fun e =>
      e.2.length+(nameText e.1).length+2+(if fmt then 2+(depth+1) else 0))).sum := by
    rw [List.map_map]
    rfl
  rw [printObject,hmembers]
  simp only [printed,List.length_map,hn,hbytes,hmalloc _ hpointers,if_true]
  rw [if_neg (by omega),collectMembers_texts members _ (by omega),ok_bind,foldl_int32,
    hsum,toSize_int32 _ hlen,Int.toNat_natCast,← hcount,List.take_length]
  apply fill_text malloc hmalloc _ _ hlen
  rw [List.length_append,List.length_cons,List.length_singleton]
  omega

include hmalloc in
/-- With every block of less than 2^31 bytes an item is printed to its text, when its children
are. -/
theorem printNode_text (depth : Nat) (fmt : Bool) (f : Fields)
    (texts : List (Option CString × List Byte)) (entries : List (Option CString × Printed))
    (items : Option (List (Option CString × Tree))) (sizes : List Nat) (t : Tree)
    (h : readNode f items=some t) (hblocks : ∀ n∈blocksNode depth fmt f texts sizes,n<2^31)
    (hchildren : (∃ i,items=some i) → (∀ n∈sizes,n<2^31) → entries=printed texts)
    (hnone : texts=[] → entries=[]) :
    printNode malloc depth fmt f entries=.ok (textNode fmt f texts) := by
  rw [readNode] at h
  split at h
  next heq =>
    simp only [printNode,textNode,heq]
    exact fill_text malloc hmalloc 5 _ (by decide) (by decide)
  next heq =>
    simp only [printNode,textNode,heq]
    exact fill_text malloc hmalloc 6 _ (by decide) (by decide)
  next heq =>
    simp only [printNode,textNode,heq]
    exact fill_text malloc hmalloc 5 _ (by decide) (by decide)
  next heq =>
    simp only [printNode,textNode,heq]
    split at h
    next hint =>
      split at h
      next hd => exact printNumber_int malloc hmalloc f hd hint.1 hint.2
      next => cases h
    next => cases h
  next heq =>
    simp only [blocksNode,heq] at hblocks
    simp only [printNode,textNode,heq]
    exact printStringPtr_text malloc hmalloc _ (hblocks _ (by simp))
  next heq =>
    obtain ⟨i,hi,_⟩ := Option.map_eq_some_iff.mp h
    simp only [blocksNode,heq] at hblocks
    simp only [printNode,textNode,heq]
    by_cases hne : texts=[]
    · rw [hnone hne,hne]
      exact fill_text malloc hmalloc 3 _ (by decide) (by decide)
    · rw [if_neg hne] at hblocks
      rw [hchildren ⟨i,hi⟩ (fun n hn => hblocks n (List.mem_append_right _ hn))]
      have hentries : (printed texts).map Prod.snd=(texts.map Prod.snd).map .ok := by
        rw [printed,List.map_map,List.map_map]
        rfl
      rw [hentries]
      apply printArray_text malloc hmalloc
      · simpa using hne
      · rw [List.length_map]
        exact hblocks _ (by simp)
      · rw [List.map_map]
        exact hblocks _ (List.mem_cons_of_mem _ List.mem_cons_self)
  next heq =>
    obtain ⟨members,hmembers,_⟩ := Option.map_eq_some_iff.mp h
    obtain ⟨i,hi,_⟩ := Option.bind_eq_some_iff.mp hmembers
    simp only [blocksNode,heq] at hblocks
    simp only [printNode,textNode,heq]
    by_cases hne : texts=[]
    · rw [if_pos hne] at hblocks
      rw [hnone hne,hne]
      exact printObject_nil malloc hmalloc depth fmt (hblocks _ List.mem_cons_self)
    · rw [if_neg hne] at hblocks
      rw [hchildren ⟨i,hi⟩ (fun n hn => hblocks n (List.mem_append_right _ hn))]
      apply printObject_text malloc hmalloc depth fmt texts hne
      · exact hblocks _ (by simp)
      · exact hblocks _ (List.mem_cons_of_mem _ List.mem_cons_self)
      · intro e he
        apply hblocks
        apply List.mem_append_left
        apply List.mem_append_right
        exact List.mem_map_of_mem he
  next => cases h

theorem printed_nil (texts : List (Option CString × List Byte)) (depth : Nat) (fmt : Bool)
    (item : Item) (htexts : textChain fmt item=texts) (h : texts=[]) :
    printChain malloc depth fmt item=[] := by
  cases item with
  | null => rfl
  | item f child next =>
    rw [textChain,h] at htexts
    cases htexts

include hmalloc in
theorem printChain_text (depth : Nat) (fmt : Bool) (item : Item)
    (h : ∃ items,readChain item=some items) (hblocks : ∀ n∈blocksChain depth fmt item,n<2^31) :
    printChain malloc depth fmt item=printed (textChain fmt item) := by
  induction item generalizing depth with
  | null => rfl
  | item f child next ihchild ihnext =>
    obtain ⟨items,h⟩ := h
    rw [blocksChain] at hblocks
    rw [readChain] at h
    split at h
    next t rest hnode hrest =>
      have hnext := ihnext depth ⟨rest,hrest⟩ (fun n hn => hblocks n (List.mem_append_right _ hn))
      have hnode' := printNode_text malloc hmalloc depth fmt f (textChain fmt child)
        (printChain malloc (depth+1) fmt child) _ (blocksChain (depth+1) fmt child) t hnode
        (fun n hn => hblocks n (List.mem_append_left _ hn)) (ihchild (depth+1))
        (printed_nil malloc _ (depth+1) fmt child rfl)
      rw [printChain,textChain,hnext,hnode']
      rfl
    next => cases h

theorem membersText_parses (entries : List (Option CString × List Byte))
    (items : List (Option CString × Tree)) (members : List (CString × Tree))
    (h : List.Forall₂ (ParsesEntry malloc) entries items) (hnamed : named items=some members)
    (hnames : ∀ e∈entries,stringSize e.1<2^31) :
    List.Forall₂ (ParsesMember malloc) (entries.map (fun e => (nameText e.1,e.2))) members := by
  induction h generalizing members with
  | nil =>
    rw [named,Option.some.injEq] at hnamed
    subst hnamed
    exact List.Forall₂.nil
  | @cons e i entries items he hentries ih =>
    obtain ⟨string,text⟩ := e
    obtain ⟨name,t⟩ := i
    obtain ⟨rfl,ht⟩ := he
    cases string with
    | none => cases hnamed
    | some name =>
      cases hmembers : named items with
      | none =>
        simp only [named,hmembers] at hnamed
        cases hnamed
      | some rest =>
        simp only [named,hmembers,Option.some.injEq] at hnamed
        subst hnamed
        have hrest := ih rest hmembers (fun e he => hnames e (List.mem_cons_of_mem _ he))
        exact List.Forall₂.cons ⟨rfl,hnames _ List.mem_cons_self,ht⟩ hrest

include hmalloc in
/-- The text of an item stands for its value, when the texts of its children do. -/
theorem textNode_parses (depth : Nat) (fmt : Bool) (f : Fields)
    (texts : List (Option CString × List Byte))
    (items : Option (List (Option CString × Tree))) (sizes : List Nat) (t : Tree)
    (h : readNode f items=some t) (hblocks : ∀ n∈blocksNode depth fmt f texts sizes,n<2^31)
    (hchildren : ∀ i,items=some i → (∀ n∈sizes,n<2^31) →
      List.Forall₂ (ParsesEntry malloc) texts i) (hnone : ∀ i,items=some i → texts=[] → i=[]) :
    Parses malloc (textNode fmt f texts) t := by
  obtain ⟨hnull,hfalse,htrue⟩ := parses_word malloc
  rw [readNode] at h
  split at h
  next heq =>
    cases h
    simp only [textNode,heq]
    exact hnull
  next heq =>
    cases h
    simp only [textNode,heq]
    exact hfalse
  next heq =>
    cases h
    simp only [textNode,heq]
    exact htrue
  next heq =>
    split at h
    next hint =>
      split at h
      next hd =>
        cases h
        simp only [textNode,heq]
        exact parses_number malloc ⟨f.valueint,hint⟩
      next => cases h
    next => cases h
  next heq =>
    obtain ⟨s,hs,rfl⟩ := Option.map_eq_some_iff.mp h
    simp only [blocksNode,heq,hs] at hblocks
    simp only [textNode,heq,hs]
    exact parses_string malloc hmalloc s (hblocks _ List.mem_cons_self)
  next heq =>
    obtain ⟨i,hi,rfl⟩ := Option.map_eq_some_iff.mp h
    simp only [blocksNode,heq] at hblocks
    simp only [textNode,heq]
    have hall : List.Forall₂ (ParsesEntry malloc) texts i := by
      by_cases hne : texts=[]
      · rw [hnone i hi hne,hne]
        exact List.Forall₂.nil
      · rw [if_neg hne] at hblocks
        exact hchildren i hi (fun n hn => hblocks n (List.mem_append_right _ hn))
    apply parses_array malloc hmalloc
    rw [List.forall₂_map_left_iff,List.forall₂_map_right_iff]
    exact hall.imp (fun _ _ h => h.2)
  next heq =>
    obtain ⟨members,hmembers,rfl⟩ := Option.map_eq_some_iff.mp h
    obtain ⟨i,hi,hnamed⟩ := Option.bind_eq_some_iff.mp hmembers
    simp only [blocksNode,heq] at hblocks
    simp only [textNode,heq]
    apply parses_object malloc hmalloc
    by_cases hne : texts=[]
    · rw [hnone i hi hne,named,Option.some.injEq] at hnamed
      rw [hne,← hnamed]
      exact List.Forall₂.nil
    · rw [if_neg hne] at hblocks
      apply membersText_parses malloc texts i members
        (hchildren i hi (fun n hn => hblocks n (List.mem_append_right _ hn))) hnamed
      intro e he
      apply hblocks
      apply List.mem_append_left
      apply List.mem_append_right
      exact List.mem_map_of_mem he
  next => cases h

theorem readChain_nil (fmt : Bool) (item : Item) (items : List (Option CString × Tree))
    (h : readChain item=some items) (htexts : textChain fmt item=[]) : items=[] := by
  cases item with
  | null =>
    rw [readChain,Option.some.injEq] at h
    exact h.symm
  | item f child next => cases htexts

include hmalloc in
/-- The texts of every chain that can be read as values stand for those values. -/
theorem textChain_parses (depth : Nat) (fmt : Bool) (item : Item)
    (items : List (Option CString × Tree)) (h : readChain item=some items)
    (hblocks : ∀ n∈blocksChain depth fmt item,n<2^31) :
    List.Forall₂ (ParsesEntry malloc) (textChain fmt item) items := by
  induction item generalizing depth items with
  | null =>
    rw [readChain,Option.some.injEq] at h
    subst h
    exact List.Forall₂.nil
  | item f child next ihchild ihnext =>
    rw [blocksChain] at hblocks
    rw [readChain] at h
    split at h
    next t rest hnode hrest =>
      rw [Option.some.injEq] at h
      subst h
      have hnext := ihnext depth rest hrest (fun n hn => hblocks n (List.mem_append_right _ hn))
      have htext := textNode_parses malloc hmalloc depth fmt f (textChain fmt child) _
        (blocksChain (depth+1) fmt child) t hnode
        (fun n hn => hblocks n (List.mem_append_left _ hn)) (ihchild (depth+1))
        (fun i hi => readChain_nil fmt child i hi)
      exact List.Forall₂.cons ⟨rfl,htext⟩ hnext
    next => cases h

include hmalloc in
theorem printValue_parses (fmt : Bool) (item : Item) (t : Tree) (h : readItem item=some t)
    (hblocks : ∀ n∈blocks fmt item,n<2^31) :
    ∃ text,printValue malloc 0 fmt item=.ok text ∧ Parses malloc text t := by
  cases item with
  | null => cases h
  | item f child next =>
    refine ⟨textNode fmt f (textChain fmt child),?_,?_⟩
    · apply printNode_text malloc hmalloc 0 fmt f (textChain fmt child) _ _ (blocksChain 1 fmt child)
        t h hblocks
      · exact printChain_text malloc hmalloc 1 fmt child
      · exact printed_nil malloc _ 1 fmt child rfl
    · apply textNode_parses malloc hmalloc 0 fmt f (textChain fmt child) _ (blocksChain 1 fmt child)
        t h hblocks
      · exact textChain_parses malloc hmalloc 1 fmt child
      · intro i hi
        exact readChain_nil fmt child i hi

include hmalloc in
theorem cJSONParse_parses (text : List Byte) (t : Tree) (h : Parses malloc text t) :
    ∃ item,cJSONParse malloc text=.ok item ∧ readItem item=some t := by
  obtain ⟨g,child,hparse,_,hread⟩ := h.parsed (parseFuel text) newItem []
    (by rw [parseFuel]; omega) (Or.inl rfl)
  have hskip := (h.skip_append malloc text [] t).1
  rw [List.append_nil] at hparse hskip
  refine ⟨.item g child .null,?_,hread⟩
  rw [cJSONParse,hmalloc _ (by decide),hskip,hparse]
  rfl

end Values

mutual

/-- An item with the value of a tree, under a name and before the rest of its chain. -/
def itemOf (string : Option CString) (next : Item) : Tree → Item
  | .null => .item ⟨typeNull,none,0,0,string⟩ .null next
  | .false => .item ⟨typeFalse,none,0,0,string⟩ .null next
  | .true => .item ⟨typeTrue,none,0,0,string⟩ .null next
  | .number i => .item ⟨typeNumber,none,i.1,i.1,string⟩ .null next
  | .string s => .item ⟨typeString,some s,0,0,string⟩ .null next
  | .array items => .item ⟨typeArray,none,0,0,string⟩ (itemsOf items) next
  | .object members => .item ⟨typeObject,none,0,0,string⟩ (membersOf members) next

def itemsOf : List Tree → Item
  | [] => .null
  | t::items => itemOf none (itemsOf items) t

def membersOf : List (CString × Tree) → Item
  | [] => .null
  | (name,t)::members => itemOf (some name) (membersOf members) t

end

mutual

/-- Every tree is the value of an item. -/
theorem readNode_itemOf (string : Option CString) (next : Item) (t : Tree) :
    ∃ f child,itemOf string next t=.item f child next ∧ f.string=string ∧
      readNode f (readChain child)=some t := by
  cases t with
  | null => exact ⟨_,_,rfl,rfl,by simp [readNode,typeNull]⟩
  | false => exact ⟨_,_,rfl,rfl,by simp [readNode,typeFalse]⟩
  | true => exact ⟨_,_,rfl,rfl,by simp [readNode,typeTrue]⟩
  | number i =>
    refine ⟨_,_,rfl,rfl,?_⟩
    simp only [readNode,typeNumber,if_true]
    exact dif_pos i.2
  | string s => exact ⟨_,_,rfl,rfl,by simp [readNode,typeString]⟩
  | array items =>
    obtain ⟨chain,hchain,hitems⟩ := readChain_itemsOf items
    exact ⟨_,_,rfl,rfl,by simp [readNode,typeArray,hchain,hitems]⟩
  | object members =>
    obtain ⟨chain,hchain,hmembers⟩ := readChain_membersOf members
    exact ⟨_,_,rfl,rfl,by simp [readNode,typeObject,hchain,hmembers]⟩

theorem readChain_itemsOf (items : List Tree) :
    ∃ chain,readChain (itemsOf items)=some chain ∧ chain.map Prod.snd=items := by
  cases items with
  | nil => exact ⟨[],rfl,rfl⟩
  | cons t items =>
    obtain ⟨chain,hchain,hitems⟩ := readChain_itemsOf items
    obtain ⟨f,child,hitem,_,hread⟩ := readNode_itemOf none (itemsOf items) t
    refine ⟨(f.string,t)::chain,?_,by rw [List.map_cons,hitems]⟩
    rw [itemsOf,hitem,readChain,hread,hchain]

theorem readChain_membersOf (members : List (CString × Tree)) :
    ∃ chain,readChain (membersOf members)=some chain ∧ named chain=some members := by
  cases members with
  | nil => exact ⟨[],rfl,rfl⟩
  | cons m members =>
    obtain ⟨name,t⟩ := m
    obtain ⟨chain,hchain,hmembers⟩ := readChain_membersOf members
    obtain ⟨f,child,hitem,hname,hread⟩ := readNode_itemOf (some name) (membersOf members) t
    refine ⟨(some name,t)::chain,?_,?_⟩
    · rw [membersOf,hitem,readChain,hread,hchain]
      simp only [hname]
    · simp only [named,hmembers]

end

theorem readItem_itemOf (t : Tree) : readItem (itemOf none .null t)=some t := by
  obtain ⟨f,child,hitem,_,hread⟩ := readNode_itemOf none .null t
  rw [hitem]
  exact hread

/-- Whatever tree of values an item is, if no block that printing it asks for is of 2^31 bytes or
more, what is printed of it, with or without formatting, is parsed to an item that is the same
tree. -/
theorem cjson_print_parse (malloc : Nat → Bool) (hmalloc : ∀ n,n<2^31 → malloc n=true)
    (item : Item) (t : Tree) (h : readItem item=some t) :
    ((∀ n∈blocks true item,n<2^31) → ∃ text parsed,cJSONPrint malloc item=.ok text ∧
      cJSONParse malloc text=.ok parsed ∧ readItem parsed=some t) ∧
    ((∀ n∈blocks false item,n<2^31) → ∃ text parsed,cJSONPrintUnformatted malloc item=.ok text ∧
      cJSONParse malloc text=.ok parsed ∧ readItem parsed=some t) := by
  have hround (fmt : Bool) (hblocks : ∀ n∈blocks fmt item,n<2^31) :
      ∃ text parsed,printValue malloc 0 fmt item=.ok text ∧
        cJSONParse malloc text=.ok parsed ∧ readItem parsed=some t := by
    obtain ⟨text,htext,hparses⟩ := printValue_parses malloc hmalloc fmt item t h hblocks
    obtain ⟨parsed,hparsed,hread⟩ := cJSONParse_parses malloc hmalloc text t hparses
    exact ⟨text,parsed,htext,hparsed,hread⟩
  exact ⟨hround true,hround false⟩

/-- An object with a member that is an array of the least int and an empty object, under a name
of a control character and a quote. -/
def sample : Item :=
  .item ⟨typeObject,none,0,0,none⟩
    (.item ⟨typeArray,none,0,0,some (CString.read [0x01,quote])⟩
      (.item ⟨typeNumber,none,-2147483648,-2147483648,none⟩ .null
        (.item ⟨typeObject,none,0,0,none⟩ .null .null)) .null) .null

/-- With a malloc that has no larger blocks. -/
theorem cjson_print_parse_sample :
    let t : Tree := .object [(CString.read [0x01,quote],.array [.number ⟨-2147483648,by decide⟩,.object []])]
    let malloc : Nat → Bool := fun n => decide (n<2^31)
    (∃ text parsed,cJSONPrint malloc sample=.ok text ∧
      cJSONParse malloc text=.ok parsed ∧ readItem parsed=some t) ∧
    ∃ text parsed,cJSONPrintUnformatted malloc sample=.ok text ∧
      cJSONParse malloc text=.ok parsed ∧ readItem parsed=some t := by
  intro t malloc
  have hread : readItem sample=some t := by
    simp [sample,t,readItem,readNode,readChain,named,typeObject,typeArray,typeNumber]
  obtain ⟨hformatted,hplain⟩ := cjson_print_parse malloc (fun n hn => decide_eq_true hn) sample t
    hread
  exact ⟨hformatted (by decide),hplain (by decide)⟩

/-- A string of one letter n times. -/
def letterString (n : Nat) : CString where
  bytes := List.replicate n 0x61
  noNul h := absurd (List.eq_of_mem_replicate h) (by decide)

/-- Where the count of print_string_ptr passes the largest int, it asks for a negative size, and
cJSON_Print returns NULL. -/
theorem long_string_unprinted (n : Nat) (hmin : 2^31 ≤ n) (hmax : n+3<2^32) :
    cJSONPrint (fun n => decide (n<2^63))
      (.item ⟨typeString,some (letterString n),0,0,none⟩ .null .null)=.error .null := by
  have hlength : escapedLength (List.replicate n 0x61)=n := by
    rw [escapedLength,List.map_replicate,List.sum_replicate,show escapedSize 0x61=1 by decide]
    exact Nat.mul_one n
  have hcount := countEscaped_eq (List.replicate n 0x61) 0 (by omega)
  have hsize : ¬toSize (int32 (countEscaped 0 (List.replicate n 0x61)+3))<2^63 := by
    rw [show (0 : Int)=int32 (0 : Nat) by decide,hcount,hlength,Nat.zero_add,int32_add_left,toSize,
      int32,Int.bmod]
    split_ifs <;> omega
  simp only [cJSONPrint,printValue,printNode,show typeString&&&255=4 by decide,printStringPtr,fill,
    letterString]
  exact if_neg (fun h => hsize (of_decide_eq_true h))

theorem cjson_long_string_lost :
    ¬∀ (item : Item) (t : Tree),readItem item=some t → ∃ text parsed,
      cJSONPrint (fun n => decide (n<2^63)) item=.ok text ∧
        cJSONParse (fun n => decide (n<2^63)) text=.ok parsed ∧ readItem parsed=some t := by
  intro h
  obtain ⟨text,_,hprint,_⟩ := h
    (.item ⟨typeString,some (letterString (2^31)),0,0,none⟩ .null .null)
    (.string (letterString (2^31))) rfl
  rw [long_string_unprinted (2^31) (by decide) (by decide)] at hprint
  cases hprint

end IdearNiu.CJson
