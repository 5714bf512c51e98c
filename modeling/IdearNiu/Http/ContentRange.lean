import IdearNiu.Http.Response
import IdearNiu.Math.Decimal

namespace IdearNiu.Http

open Words (int32)

/-- A wgint variable of a little-endian host as its two halves, none until they are set. -/
structure Wgint where
  low : Option (BitVec 32)
  high : Option (BitVec 32)
deriving DecidableEq

/-- A store through a pointer to int reaches the low half only. -/
def Wgint.storeInt (v : Wgint) (n : Int) : Wgint := {v with low := some (BitVec.ofInt 32 n)}

def Wgint.loadInt (v : Wgint) : Int := (v.low.getD 0).toInt

/-- The value of the variable; none if a byte of it is not set. -/
def Wgint.value (v : Wgint) : Option Int := do
  let low ← v.low
  let high ← v.high
  return (high++low).toInt

/-- What the three pointers point to. -/
structure RangeVars where
  first : Wgint
  last : Wgint
  entity : Wgint
deriving DecidableEq

def startsDigit (l : List UInt8) : Bool := (l.head?.map isDigit).getD false

/-- parse_content_range with its stores. -/
def storeContentRange (hdr : List UInt8) (o : RangeVars) : Bool × RangeVars :=
  match skipUnit hdr with
  | none => (false,o)
  | some l =>
    if ¬startsDigit l then (false,o)
    else
      let (num,l) := intRun l
      if l.head?≠some 45 ∨ ¬startsDigit l.tail then (false,o)
      else
        let o := {o with first := o.first.storeInt num}
        let (num,l) := intRun l.tail
        if l.head?≠some 47 then (false,o)
        else
          let o := {o with last := o.last.storeInt num}
          if ¬(startsDigit l.tail ∨ l.tail.head?=some 42) then (false,o)
          else if o.last.loadInt<o.first.loadInt then (false,o)
          else
            let num := if l.tail.head?=some 42 then -1 else (intRun l.tail).1
            let o := {o with entity := o.entity.storeInt num}
            if o.entity.loadInt≤o.last.loadInt ∧ o.entity.loadInt≠-1 then (false,o)
            else (true,o)

/-- The variables of gethttp before the call. -/
def unsetVars : RangeVars := ⟨⟨none,none⟩,⟨none,none⟩,⟨none,none⟩⟩

/-- contrange and contlen as gethttp takes them from the variables. -/
def takeRange (o : RangeVars) : Option (Int × Int) := do
  let first ← o.first.value
  let last ← o.last.value
  return (first,last-first+1)

/-- The number that a run of digits stands for. -/
def numberOf (ds : List UInt8) : Nat := Decimal.value 0 (ds.map (fun b => b.toNat-48))

/-- first-last/total after the unit, with none for '*'; the runs of digits are maximal. -/
def denoted (hdr : List UInt8) : Option (Nat × Nat × Option Nat) :=
  match skipUnit hdr with
  | none => none
  | some l =>
    let first := l.takeWhile isDigit
    let l := l.dropWhile isDigit
    let last := l.tail.takeWhile isDigit
    let l' := l.tail.dropWhile isDigit
    let total := l'.tail.takeWhile isDigit
    if first=[] ∨ l.head?≠some 45 ∨ last=[] ∨ l'.head?≠some 47 then none
    else if l'.tail.head?=some 42 then some (numberOf first,numberOf last,none)
    else if total=[] then none
    else some (numberOf first,numberOf last,some (numberOf total))

/-- The numbers are in order, and each has a wgint. -/
def InOrder (d : Nat × Nat × Option Nat) : Prop :=
  d.1≤d.2.1 ∧ d.2.1<2^63 ∧ ∀ n, d.2.2=some n → d.2.1<n ∧ n<2^63

/-- The numbers are in order after their reduction to an int. -/
def WrapsInOrder (d : Nat × Nat × Option Nat) : Prop :=
  int32 d.1 ≤ int32 d.2.1 ∧ ∀ n, d.2.2=some n → int32 d.2.1 < int32 n ∨ int32 n=-1

theorem digitRun_value (l : List UInt8) (n : Nat) :
    digitRun 10 decDigit l n=
      Decimal.value n ((l.takeWhile isDigit).map (fun b => b.toNat-48)) := by
  induction l generalizing n with
  | nil => rfl
  | cons b l ih =>
    rw [digitRun,decDigit,List.takeWhile_cons]
    cases isDigit b with
    | true =>
      simp only [if_true,List.map_cons,Decimal.value_cons,Nat.mul_comm 10 n]
      exact ih _
    | false => rfl

theorem intRun_eq (l : List UInt8) :
    intRun l=(int32 (numberOf (l.takeWhile isDigit)),l.dropWhile isDigit) := by
  rw [intRun,digitRun_value,numberOf]

theorem startsDigit_iff (l : List UInt8) :
    startsDigit l=true ↔ l.takeWhile isDigit≠[] := by
  cases l with
  | nil => simp [startsDigit]
  | cons b l => cases h : isDigit b <;> simp [startsDigit,h]

theorem loadInt_storeInt (v : Wgint) (n : Int) :
    (v.storeInt n).loadInt=(BitVec.ofInt 32 n).toInt := by
  rw [Wgint.loadInt,Wgint.storeInt,Option.getD_some]

theorem toInt_ofInt_int32 (n : Nat) : (BitVec.ofInt 32 (int32 n)).toInt=int32 n := by
  unfold int32
  rw [BitVec.toInt_ofInt]
  apply Int.bmod_bmod

theorem toInt_ofInt_unknown : (BitVec.ofInt 32 (-1)).toInt=-1 := by decide

/-- A text of another form is refused; one of the form is judged by its wrapped numbers. -/
theorem storeContentRange_cases (hdr : List UInt8) (o : RangeVars) :
    (denoted hdr=none ∧ (storeContentRange hdr o).1=false) ∨
    ∃ d, denoted hdr=some d ∧ ((storeContentRange hdr o).1=true ↔ WrapsInOrder d) := by
  rw [storeContentRange,denoted]
  cases skipUnit hdr with
  | none => exact Or.inl ⟨rfl,rfl⟩
  | some l =>
    simp only [intRun_eq,startsDigit_iff,loadInt_storeInt,toInt_ofInt_int32]
    by_cases h1 : l.takeWhile isDigit=[]
    · left
      simp [h1]
    by_cases h2 : (l.dropWhile isDigit).head?=some 45
    · by_cases h3 : (l.dropWhile isDigit).tail.takeWhile isDigit=[]
      · left
        simp [h1,h3]
      by_cases h4 : ((l.dropWhile isDigit).tail.dropWhile isDigit).head?=some 47
      · simp only [h1,h2,h3,h4,ne_eq,not_true_eq_false,not_false_eq_true,or_self,if_false]
        by_cases h5 : ((l.dropWhile isDigit).tail.dropWhile isDigit).tail.head?=some 42
        · right
          refine ⟨_,by rw [if_pos h5],?_⟩
          simp only [h5,or_true,not_true_eq_false,if_false,if_true,toInt_ofInt_unknown]
          split_ifs with ha hb
          · exact iff_of_false (by simp) (fun h => absurd h.1 (not_le.mpr ha))
          · exact absurd hb.2 id
          · exact iff_of_true rfl ⟨not_lt.mp ha,fun n hn => by cases hn⟩
        by_cases h6 : ((l.dropWhile isDigit).tail.dropWhile isDigit).tail.takeWhile isDigit=[]
        · left
          refine ⟨by rw [if_neg h5,if_pos h6],?_⟩
          rw [if_pos (by simp only [h5,h6,not_true_eq_false,or_self,not_false_eq_true])]
        · right
          refine ⟨_,by rw [if_neg h5,if_neg h6],?_⟩
          simp only [h5,h6,not_false_eq_true,true_or,not_true_eq_false,if_false,
            toInt_ofInt_int32]
          split_ifs with ha hb
          · exact iff_of_false (by simp) (fun h => absurd h.1 (not_le.mpr ha))
          · refine iff_of_false (by simp) (fun h => ?_)
            rcases h.2 _ rfl with hlt|hone
            · exact absurd hb.1 (not_le.mpr hlt)
            · exact hb.2 hone
          · refine iff_of_true rfl ⟨not_lt.mp ha,?_⟩
            intro n hn
            rw [← Option.some.inj hn]
            by_contra hno
            rw [not_or,not_lt] at hno
            exact hb hno
      · left
        simp [h1,h2,h3,h4]
    · left
      simp [h1,h2]

/-- No store reaches the high half of the first variable. -/
theorem storeContentRange_high (hdr : List UInt8) (o : RangeVars) :
    (storeContentRange hdr o).2.first.high=o.first.high := by
  rw [storeContentRange]
  cases skipUnit hdr with
  | none => rfl
  | some l =>
    simp only
    split_ifs <;> rfl

theorem guard_bind {α : Type} (p : Prop) [Decidable p] (f : Unit → Option α) :
    (guard p : Option Unit).bind f=if p then f () else none := by
  by_cases h : p
  · simp [h]
  · simp [h]

theorem loadInt_intRun (v : Wgint) (l : List UInt8) :
    (v.storeInt (intRun l).1).loadInt=(intRun l).1 := by
  rw [intRun_eq,loadInt_storeInt,toInt_ofInt_int32]

/-- The total that is stored is the one that is compared. -/
theorem loadInt_total (v : Wgint) (l : List UInt8) :
    (v.storeInt (if l.head?=some 42 then -1 else (intRun l).1)).loadInt=
      if l.head?=some 42 then -1 else (intRun l).1 := by
  split_ifs
  · rw [loadInt_storeInt,toInt_ofInt_unknown]
  · exact loadInt_intRun v l

/-- The reading of a head takes the low halves that the stores leave. -/
theorem parseContentRange_eq (hdr : List UInt8) (o : RangeVars) :
    parseContentRange hdr=
      if (storeContentRange hdr o).1=true then
        some ((storeContentRange hdr o).2.first.loadInt,(storeContentRange hdr o).2.last.loadInt)
      else none := by
  rw [storeContentRange,parseContentRange]
  cases skipUnit hdr with
  | none => rfl
  | some l =>
    simp only [Option.bind_eq_bind,Option.bind_some,guard_bind,← startsDigit.eq_1,
      loadInt_intRun,loadInt_total]
    by_cases h1 : startsDigit l=true
    · by_cases h2 : (intRun l).2.head?=some 45 ∧ startsDigit (intRun l).2.tail=true
      · by_cases h3 : (intRun (intRun l).2.tail).2.head?=some 47
        · by_cases h4 : startsDigit (intRun (intRun l).2.tail).2.tail=true ∨
              (intRun (intRun l).2.tail).2.tail.head?=some 42
          · simp only [h1,h2,h3,h4,and_self,if_true,ne_eq,not_true_eq_false,or_self,if_false]
            by_cases h5 : (intRun l).1≤(intRun (intRun l).2.tail).1
            · rw [if_pos h5]
              simp only [if_neg (not_lt.mpr h5)]
              generalize (if (intRun (intRun l).2.tail).2.tail.head?=some 42 then -1
                else (intRun (intRun (intRun l).2.tail).2.tail).1)=e
              by_cases h6 : (intRun (intRun l).2.tail).1<e ∨ e=-1
              · have h7 : ¬(e≤(intRun (intRun l).2.tail).1 ∧ ¬e=-1) := by omega
                simp only [if_pos h6,if_neg h7,loadInt_intRun,if_true]
                rfl
              · have h7 : e≤(intRun (intRun l).2.tail).1 ∧ ¬e=-1 := by omega
                simp only [if_neg h6,if_pos h7,if_false,Bool.false_eq_true]
            · simp only [if_neg h5,if_pos (not_le.mp h5),if_false,Bool.false_eq_true]
          · simp only [h1,h2,h3,h4,and_self,if_true,ne_eq,not_true_eq_false,or_self,if_false,
              not_false_eq_true,Bool.false_eq_true]
        · simp only [h1,h2,h3,and_self,if_true,ne_eq,not_true_eq_false,or_self,if_false,
            not_false_eq_true,Bool.false_eq_true]
      · have h2' : (intRun l).2.head?≠some 45 ∨ ¬startsDigit (intRun l).2.tail=true :=
          not_and_or.mp h2
        simp only [h1,h2,if_true,if_false,not_true_eq_false,if_pos h2',Bool.false_eq_true]
    · simp only [h1,if_false,not_false_eq_true,if_true,Bool.false_eq_true]

/-- What is asked of a header value: success exactly for the ranges in order, and then the
denoted numbers in contrange and contlen, with every byte of the variables set. -/
structure RangeExact (hdr : List UInt8) : Prop where
  success : (storeContentRange hdr unsetVars).1=true ↔ ∃ d, denoted hdr=some d ∧ InOrder d
  values : (storeContentRange hdr unsetVars).1=true → ∃ first last total,
    denoted hdr=some (first,last,total) ∧
    takeRange (storeContentRange hdr unsetVars).2=some ((first : Int),(last : Int)-first+1)
  set : (storeContentRange hdr unsetVars).1=true →
    ∀ v∈[(storeContentRange hdr unsetVars).2.first,(storeContentRange hdr unsetVars).2.last,
      (storeContentRange hdr unsetVars).2.entity], v.low.isSome ∧ v.high.isSome

/-- A value is handled as asked exactly when it is to be refused and the reduction of its
numbers to int does not put them in order: every accepted value leaves bytes unset. -/
theorem content_range_exact_iff (hdr : List UInt8) :
    RangeExact hdr ↔ ∀ d, denoted hdr=some d → ¬InOrder d ∧ ¬WrapsInOrder d := by
  constructor
  · intro h
    have hno : (storeContentRange hdr unsetVars).1≠true := by
      intro hok
      have hs := (h.set hok _ (List.mem_cons_self ..)).2
      rw [storeContentRange_high] at hs
      cases hs
    intro d hd
    refine ⟨fun hi => hno (h.success.mpr ⟨d,hd,hi⟩),fun hw => ?_⟩
    rcases storeContentRange_cases hdr unsetVars with ⟨hn,_⟩|⟨d',hd',hiff⟩
    · rw [hn] at hd
      cases hd
    · rw [hd] at hd'
      exact hno (hiff.mpr (Option.some.inj hd' ▸ hw))
  · intro h
    have hno : (storeContentRange hdr unsetVars).1≠true := by
      rcases storeContentRange_cases hdr unsetVars with ⟨_,hf⟩|⟨d,hd,hiff⟩
      · rw [hf]
        decide
      · exact fun hok => (h d hd).2 (hiff.mp hok)
    exact ⟨iff_of_false hno (fun ⟨d,hd,hi⟩ => (h d hd).1 hi),fun hok => absurd hok hno,
      fun hok => absurd hok hno⟩

/-- "bytes 0-9/10" is taken and leaves the high halves unset. -/
theorem content_range_leaves_unset : ¬∀ hdr : List UInt8, 0∉hdr → RangeExact hdr := by
  intro h
  have he := h (text "bytes 0-9/10") (by decide)
  have hok : (storeContentRange (text "bytes 0-9/10") unsetVars).1=true := by decide
  have hs := (he.set hok _ (List.mem_cons_self ..)).2
  rw [storeContentRange_high] at hs
  cases hs

end IdearNiu.Http
