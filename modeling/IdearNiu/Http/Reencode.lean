import IdearNiu.Http.Url

namespace IdearNiu.Url

open Words

/-- For every character of a string, whether it is escaped. -/
def introduced : List Byte → List Bool
  | [] => []
  | c::rest => charNeedsEscaping c rest::introduced rest

def encodeCount (s : List Byte) : Nat := (introduced s).count true

/-- reencode_escapes with its lengths, which are of type int, and its assertion; none when
the assertion fails. -/
def reencodeAsserted (s : List Byte) : Option (List Byte) :=
  let count := int32 (encodeCount s)
  if count=0 then some s
  else
    let oldlen := int32 s.length
    let newlen := int32 (oldlen+2*count)
    let newstr := reencodeEscapes s
    if newstr.length=newlen then some newstr else none

def hexValue (c : Byte) : Nat :=
  if c≤0x39 then c.toNat-0x30 else if c≤0x46 then c.toNat-0x41+10 else c.toNat-0x61+10

/-- A text with the escapes at the marked characters replaced by the bytes they stand for. -/
def restore : List Bool → List Byte → List Byte
  | false::marks,c::text => c::restore marks text
  | true::marks,_::high::low::text =>
    BitVec.ofNat 8 (16*hexValue high+hexValue low)::restore marks text
  | _,_ => []

/-- No position of a text needs escaping. -/
def Conformant (text : List Byte) : Prop :=
  ∀ c rest, (c::rest)<:+text → charNeedsEscaping c rest=false

theorem conformant_cons (c : Byte) (rest : List Byte) :
    Conformant (c::rest) ↔ charNeedsEscaping c rest=false ∧ Conformant rest := by
  constructor
  · intro h
    refine ⟨h c rest List.suffix_rfl,?_⟩
    intro d r hd
    exact h d r (hd.trans (List.suffix_cons c rest))
  · intro ⟨hc,hr⟩ d r hd
    rcases List.suffix_cons_iff.mp hd with he|hs
    · obtain ⟨h1,h2⟩ := List.cons.inj he
      rw [h1,h2]
      exact hc
    · exact hr d r hs

/-- A hexadecimal digit never needs escaping, and no other character depends on what
follows it than a percent sign. -/
theorem hexDigit_safe (c : Byte) (rest : List Byte) (h : isHexDigit c=true) :
    charNeedsEscaping c rest=false := by
  have hall : ∀ c : Byte, isHexDigit c=true → c≠percent ∧
      (urlchrTest c unsafeMask && !urlchrTest c reservedMask)=false := by decide
  obtain ⟨hp,hs⟩ := hall c h
  rw [charNeedsEscaping,if_neg hp]
  exact hs

theorem escaped_digits (c : Byte) :
    isHexDigit (numToDigit (c.toNat/16))=true ∧ isHexDigit (numToDigit (c.toNat%16))=true ∧
    BitVec.ofNat 8 (16*hexValue (numToDigit (c.toNat/16))+
      hexValue (numToDigit (c.toNat%16)))=c := by
  revert c
  decide

/-- An escape in front of a conformant text. -/
theorem conformant_escaped (c : Byte) (rest : List Byte) (h : Conformant rest) :
    Conformant (escaped c++rest) := by
  obtain ⟨hh,hl,_⟩ := escaped_digits c
  simp only [escaped,List.cons_append,List.nil_append]
  rw [conformant_cons,conformant_cons,conformant_cons]
  refine ⟨?_,hexDigit_safe _ _ hh,hexDigit_safe _ _ hl,h⟩
  simp [charNeedsEscaping,hh,hl]

/-- What is kept stays as it is: hex digits in front of the text are kept too. -/
theorem reencode_hexDigit (c : Byte) (rest : List Byte) (h : isHexDigit c=true) :
    reencodeEscapes (c::rest)=c::reencodeEscapes rest := by
  rw [reencodeEscapes,hexDigit_safe c rest h]
  rfl

/-- A character that is not escaped is not to be escaped before the re-encoded rest either. -/
theorem kept_stays (c : Byte) (rest : List Byte) (h : charNeedsEscaping c rest=false) :
    charNeedsEscaping c (reencodeEscapes rest)=false := by
  by_cases hp : c=percent
  · rw [charNeedsEscaping,if_pos hp,Bool.not_eq_false',Bool.and_eq_true] at h
    match rest,h with
    | [],h => simp at h
    | [x],h => simp at h
    | x::y::r,h =>
      simp only [List.head?_cons,Option.any_some,List.tail_cons] at h
      rw [reencode_hexDigit x _ h.1,reencode_hexDigit y _ h.2,charNeedsEscaping,if_pos hp]
      simp [h.1,h.2]
  · rw [charNeedsEscaping,if_neg hp] at h ⊢
    exact h

theorem reencode_conformant (s : List Byte) : Conformant (reencodeEscapes s) := by
  induction s with
  | nil =>
    intro c rest h
    simp [reencodeEscapes] at h
  | cons c rest ih =>
    rw [reencodeEscapes]
    cases h : charNeedsEscaping c rest with
    | true => exact conformant_escaped c _ ih
    | false => exact (conformant_cons c _).mpr ⟨kept_stays c rest h,ih⟩

theorem introduced_conformant (s : List Byte) (h : Conformant s) : encodeCount s=0 := by
  induction s with
  | nil => rfl
  | cons c rest ih =>
    obtain ⟨hc,hr⟩ := (conformant_cons c rest).mp h
    have hi := ih hr
    rw [encodeCount] at hi ⊢
    rw [introduced,hc,List.count_cons_of_ne (by decide),hi]

theorem reencode_length (s : List Byte) :
    (reencodeEscapes s).length=s.length+2*encodeCount s := by
  induction s with
  | nil => rfl
  | cons c rest ih =>
    rw [encodeCount] at ih ⊢
    rw [reencodeEscapes,introduced,List.length_append,ih,List.length_cons]
    cases charNeedsEscaping c rest with
    | true =>
      rw [List.count_cons_self]
      simp only [if_true,escaped,List.length_cons,List.length_nil]
      omega
    | false =>
      rw [List.count_cons_of_ne (by decide)]
      simp only [Bool.false_eq_true,if_false,List.length_cons,List.length_nil]
      omega

theorem encodeCount_le (s : List Byte) : encodeCount s ≤ s.length := by
  have hl : (introduced s).length=s.length := by
    induction s with
    | nil => rfl
    | cons c rest ih => rw [introduced,List.length_cons,List.length_cons,ih]
  rw [encodeCount,← hl]
  exact List.count_le_length

/-- Without an escape the text is the string itself. -/
theorem reencode_eq_self (s : List Byte) (h : encodeCount s=0) : reencodeEscapes s=s := by
  induction s with
  | nil => rfl
  | cons c rest ih =>
    rw [encodeCount,introduced,List.count_eq_zero,List.mem_cons,not_or] at h
    have hc : charNeedsEscaping c rest=false := by
      cases hb : charNeedsEscaping c rest
      · rfl
      · exact absurd hb.symm h.1
    rw [reencodeEscapes,hc,ih (List.count_eq_zero.mpr h.2)]
    rfl

theorem restore_reencode (s : List Byte) : restore (introduced s) (reencodeEscapes s)=s := by
  induction s with
  | nil => rfl
  | cons c rest ih =>
    rw [introduced,reencodeEscapes]
    cases charNeedsEscaping c rest with
    | true =>
      simp only [if_true,escaped,List.cons_append,List.nil_append]
      rw [restore,ih,(escaped_digits c).2.2]
    | false =>
      simp only [Bool.false_eq_true,if_false,List.singleton_append]
      rw [restore,ih]

/-- For strings whose new length is an int the assertion holds and the text is that of the
second pass. -/
theorem reencodeAsserted_eq (s : List Byte) (h : s.length+2*encodeCount s<2^31) :
    reencodeAsserted s=some (reencodeEscapes s) := by
  have hn : (s.length : Int)+2*encodeCount s=((s.length+2*encodeCount s : Nat) : Int) := by
    push_cast
    rfl
  simp only [reencodeAsserted]
  rw [int32_of_lt (encodeCount s) (by omega),int32_of_lt s.length (by omega),hn,
    int32_of_lt _ h,reencode_length]
  by_cases h0 : encodeCount s=0
  · rw [if_pos (by omega),reencode_eq_self s h0]
  · rw [if_neg (by omega),if_pos rfl]

/-- The assertion holds, the result has nothing left to escape and is stable, and with its
escapes undone it is the string. -/
theorem reencode_escapes_stable (s : List Byte) (h : s.length<2^29) :
    ∃ t, reencodeAsserted s=some t ∧ Conformant t ∧ reencodeAsserted t=some t ∧
      restore (introduced s) t=s := by
  have hle := encodeCount_le s
  have hc := reencode_conformant s
  have h0 := introduced_conformant _ hc
  refine ⟨reencodeEscapes s,reencodeAsserted_eq s (by omega),hc,?_,restore_reencode s⟩
  rw [reencodeAsserted_eq _ (by rw [h0,reencode_length]; omega),reencode_eq_self _ h0]

theorem reencode_escapes_stable_percent :
    ∃ t, reencodeAsserted (letters "a%%20 b")=some t ∧ Conformant t ∧
      reencodeAsserted t=some t ∧ restore (introduced (letters "a%%20 b")) t=letters "a%%20 b" :=
  reencode_escapes_stable (letters "a%%20 b") (by decide)

end IdearNiu.Url
