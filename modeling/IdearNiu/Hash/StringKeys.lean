import IdearNiu.Framework.ClassMap
import IdearNiu.Hash.Refinement
import IdearNiu.Math.WordMixing

namespace IdearNiu.Hash

open WordMixing ClassMap

abbrev Byte := BitVec 8

/-- tolower in the C locale. -/
def toLower (c : Byte) : Byte := if 0x41≤c ∧ c≤0x5a then c+0x20 else c

/-- A char where an unsigned int is computed: char is signed. -/
def promote (c : Byte) : BitVec 32 := c.signExtend 32

/-- One character of the base 31 hash. -/
def hashStep (h c : BitVec 32) : BitVec 32 := (h<<<5)-h+c

/-- A string is its bytes before the NUL. -/
def hashString : List Byte → BitVec 64
  | [] => 0
  | c::cs =>
      let h := promote c
      (if h≠0 then cs.foldl (fun h c => hashStep h (promote c)) h else h).setWidth 64

def hashStringNocase : List Byte → BitVec 64
  | [] => 0
  | c::cs =>
      let h := promote (toLower c)
      (if h≠0 then cs.foldl (fun h c => hashStep h (promote (toLower c))) h else h).setWidth 64

/-- `!strcmp`. -/
def cmpString (s1 s2 : List Byte) : Bool := s1=s2

/-- `!strcasecmp`. -/
def stringCmpNocase (s1 s2 : List Byte) : Bool := s1.map toLower=s2.map toLower

/-- hash_pointer; wide is the test SIZEOF_VOID_P > 4 of the preprocessor. -/
def hashPointer (wide : Bool) (ptr : Ptr) : BitVec 64 :=
  let key := ptr
  let key := addShifted 12 key
  let key := xorShifted 22 key
  let key := addShifted 4 key
  let key := xorShifted 9 key
  let key := addShifted 10 key
  let key := xorShifted 2 key
  let key := addShifted 7 key
  let key := xorShifted 12 key
  if wide then
    let key := addShifted 44 key
    let key := xorShifted 54 key
    let key := addShifted 36 key
    let key := xorShifted 41 key
    let key := addShifted 42 key
    let key := xorShifted 34 key
    let key := addShifted 39 key
    xorShifted 44 key
  else key

def cmpPointer (ptr1 ptr2 : Ptr) : Bool := ptr1==ptr2

/-- What a string table makes of a key: text is the string a pointer leads to. -/
structure Keys where
  hashFunction : (Ptr → List Byte) → Ptr → BitVec 64
  testFunction : (Ptr → List Byte) → Ptr → Ptr → Bool

def stringKeys : Keys where
  hashFunction text key := hashString (text key)
  testFunction text a b := cmpString (text a) (text b)

def nocaseKeys : Keys where
  hashFunction text key := hashStringNocase (text key)
  testFunction text a b := stringCmpNocase (text a) (text b)

/-- The calls after make_string_hash_table, or after make_nocase_string_hash_table. -/
def runStringTable (nocase : Bool) (text : Ptr → List Byte) (items : Int) (ops : List Op) :
    Except Fault (HashTable × List Answer) :=
  let keys := if nocase then nocaseKeys else stringKeys
  runTable (keys.hashFunction text) (keys.testFunction text) items ops

/-- The string a key stands for in a table: its text, or its text in lower case. -/
def stringOf (nocase : Bool) (text : Ptr → List Byte) (key : Ptr) : List Byte :=
  if nocase then (text key).map toLower else text key

/-- A partial function from strings to the pair stored under them. -/
abbrev StringMap := List Byte → Option Cell

/-- What a call does to the function; name is the string a key stands for. -/
noncomputable def stringMapStep (name : Ptr → List Byte) (f : StringMap) :
    Op → StringMap × Answer
  | .put key value => (Function.update f (name key) (some ⟨key,value⟩),.done)
  | .remove key => (Function.update f (name key) none,.removed (f (name key)).isSome)
  | .get key => (f,.value (((f (name key)).map Cell.value).getD 0))
  | .getPair key => (f,.pair (f (name key)))
  | .contains key => (f,.contained (f (name key)).isSome)
  | .clear => (fun _ => none,.done)
  | .count => (f,.counted (domain f).ncard)

noncomputable def stringMapRun (name : Ptr → List Byte) :
    StringMap → List Op → StringMap × List Answer
  | f,[] => (f,[])
  | f,op::ops =>
      let r := stringMapStep name f op
      let rest := stringMapRun name r.1 ops
      (rest.1,r.2::rest.2)

/-- Lowering a character leaves no upper case letter and no new NUL. -/
theorem hashStringNocase_eq (s : List Byte) :
    hashStringNocase s=hashString (s.map toLower) := by
  cases s with
  | nil => rfl
  | cons c cs => simp only [hashStringNocase,hashString,List.map_cons,List.foldl_map]

theorem stringKeys_classified (nocase : Bool) (text : Ptr → List Byte) :
    Classified ((if nocase then nocaseKeys else stringKeys).testFunction text)
      (stringOf nocase text) := by
  intro a b
  cases nocase with
  | false => simp [stringKeys,cmpString,stringOf]
  | true => simp [nocaseKeys,stringCmpNocase,stringOf]

/-- The guideline for custom functions: keys that test equal hash equally. -/
theorem stringKeys_lawful (nocase : Bool) (text : Ptr → List Byte) :
    LawfulKeys ((if nocase then nocaseKeys else stringKeys).hashFunction text)
      ((if nocase then nocaseKeys else stringKeys).testFunction text) where
  toLawful := (stringKeys_classified nocase text).lawful
  hash_eq a b h := by
    have hs := (stringKeys_classified nocase text a b).mp h
    cases nocase with
    | false =>
      have heq : text a=text b := by simpa [stringOf] using hs
      simp [stringKeys,heq]
    | true =>
      have heq : (text a).map toLower=(text b).map toLower := by simpa [stringOf] using hs
      simp [nocaseKeys,hashStringNocase_eq,heq]

section

variable {test : Ptr → Ptr → Bool} {name : Ptr → List Byte}

theorem mapStep_distinct {m : List Cell}
    (hm : KeyedMap.Distinct Cell.key test m) (op : Op) :
    KeyedMap.Distinct Cell.key test (mapStep test m op).1 := by
  cases op with
  | put key value =>
    refine List.pairwise_cons.mpr ⟨?_,hm.filter _⟩
    intro b hb
    simpa using (List.mem_filter.mp hb).2
  | remove key => exact hm.filter _
  | get key => exact hm
  | getPair key => exact hm
  | contains key => exact hm
  | clear => exact List.Pairwise.nil
  | count => exact hm

/-- A call on the list of bindings is the call on the function it stands for. -/
theorem mapStep_denote (h : Classified test name) {m : List Cell}
    (hm : KeyedMap.Distinct Cell.key test m) (op : Op) :
    stringMapStep name (denote Cell.key name m) op=
      (denote Cell.key name (mapStep test m op).1,(mapStep test m op).2) := by
  cases op with
  | put key value => rw [stringMapStep,mapStep,denote_insert h]
  | remove key => rw [stringMapStep,mapStep,denote_erase h,lookup_eq h]
  | get key => rw [stringMapStep,mapStep,lookup_eq h]
  | getPair key => rw [stringMapStep,mapStep,lookup_eq h]
  | contains key => rw [stringMapStep,mapStep,lookup_eq h]
  | clear => rfl
  | count => rw [stringMapStep,mapStep,ncard_domain h hm]

theorem mapRun_denote (h : Classified test name) (ops : List Op) (m : List Cell)
    (hm : KeyedMap.Distinct Cell.key test m) :
    stringMapRun name (denote Cell.key name m) ops=
        (denote Cell.key name (mapRun test m ops).1,(mapRun test m ops).2) ∧
      KeyedMap.Distinct Cell.key test (mapRun test m ops).1 := by
  induction ops generalizing m with
  | nil => exact ⟨rfl,hm⟩
  | cons op ops ih =>
    obtain ⟨hrun,hd⟩ := ih (mapStep test m op).1 (mapStep_distinct hm op)
    refine ⟨?_,hd⟩
    rw [stringMapRun,mapStep_denote h hm op]
    simp only [hrun,mapRun]

end

/-- A table made by make_string_hash_table is a partial function on strings, one made by
make_nocase_string_hash_table a partial function on strings up to case: on every sequence of
calls each probe ends, the answers are those of the function whatever pointers the strings
are given by, and an iteration yields each string of its domain once, with its pair. -/
theorem string_table_refines_function (nocase : Bool) (text : Ptr → List Byte) (items : Int)
    (ops : List Op) (hops : ∀ op∈ops,op.valid)
    (hsize : WithinPrimeTable ((if nocase then nocaseKeys else stringKeys).hashFunction text)
      ((if nocase then nocaseKeys else stringKeys).testFunction text) items ops) :
    ∃ ht,runStringTable nocase text items ops=
        .ok (ht,(stringMapRun (stringOf nocase text) (fun _ => none) ops).2) ∧
      ∃ l,iterateAll ht (ht.count+1) (hashTableIterate ht)=some l ∧
        (l.map (fun c => stringOf nocase text c.key)).Nodup ∧
        ∀ s c,(stringMapRun (stringOf nocase text) (fun _ => none) ops).1 s=some c ↔
          c∈l ∧ stringOf nocase text c.key=s := by
  have hcls := stringKeys_classified nocase text
  obtain ⟨ht0,hnew⟩ := hashTableNew_ends items _ _ hsize.1 hsize.2.1
  obtain ⟨htest,hs0⟩ := hashTableNew_sound (stringKeys_lawful nocase text) items ht0 hnew
  have hrunTable (pre : List Op) : runStringTable nocase text items pre=runOps ht0 pre := by
    simp [runStringTable,runTable,hnew,bind,Except.bind]
  obtain ⟨ht,hrun,_,hs⟩ := runOps_sound ht0 [] hs0 htest ops hops
    (fun pre ht answers hpre hpr => hsize.2.2 pre ht answers hpre ((hrunTable pre).trans hpr))
  obtain ⟨hmap,hd⟩ := mapRun_denote hcls ops [] List.Pairwise.nil
  rw [denote_nil] at hmap
  obtain ⟨l,hl,hperm⟩ := hs.iterate
  have hld := hd.perm hcls.lawful hperm.symm
  rw [hmap]
  refine ⟨ht,(hrunTable ops).trans hrun,l,hl,distinct_nodup hcls hld,?_⟩
  intro s c
  rw [denote_eq_some hcls hd,hperm.mem_iff]

/-- Two spellings of one word at the addresses 1 and 2, and another word elsewhere. -/
def spellings (key : Ptr) : List Byte :=
  if key=1 then [0x41,0x62] else if key=2 then [0x61,0x42] else [0x7a]

def spellingOps : List Op := [.put 1 7,.put 2 8,.put 3 9,.get 1,.remove 2,.contains 1]

theorem string_table_refines_function_nocase :
    ∃ ht,runStringTable true spellings 0 spellingOps=
        .ok (ht,[.done,.done,.done,.value 8,.removed true,.contained false]) ∧
      ∃ l,iterateAll ht (ht.count+1) (hashTableIterate ht)=some l ∧
        (l.map (fun c => stringOf true spellings c.key)).Nodup ∧
        ∀ s c,(stringMapRun (stringOf true spellings) (fun _ => none) spellingOps).1 s=some c ↔
          c∈l ∧ stringOf true spellings c.key=s := by
  have hall : ∀ pre∈spellingOps.inits,
      sizeDoubles (runTable (nocaseKeys.hashFunction spellings)
        (nocaseKeys.testFunction spellings) 0 pre)=true := by decide
  have hsize : WithinPrimeTable (nocaseKeys.hashFunction spellings)
      (nocaseKeys.testFunction spellings) 0 spellingOps := by
    refine ⟨by decide,by decide,?_⟩
    intro pre ht answers hpre hrun
    have := hall pre ((List.mem_inits _ _).mpr hpre)
    exact Or.inr (by simpa [hrun,sizeDoubles] using this)
  have hanswers : (stringMapRun (stringOf true spellings) (fun _ => none) spellingOps).2=
      [.done,.done,.done,.value 8,.removed true,.contained false] := by
    simp [spellingOps,stringMapRun,stringMapStep,stringOf,spellings,toLower,Function.update]
  rw [← hanswers]
  exact string_table_refines_function true spellings 0 spellingOps
    (by simp [spellingOps,Op.valid,invalidPtr]) hsize

/-- Every step of the mixing loses nothing, so no two pointers have one hash. -/
theorem hash_pointer_injective (wide : Bool) : Function.Injective (hashPointer wide) := by
  have hadd (k : Nat) (hk : 0<k) := addShifted_injective (w := 64) k hk
  have hxor (k : Nat) (hk : 0<k) := xorShifted_injective (w := 64) k hk
  have hfirst : Function.Injective (hashPointer false) :=
    (hxor 12 (by decide)).comp <| (hadd 7 (by decide)).comp <|
      (hxor 2 (by decide)).comp <| (hadd 10 (by decide)).comp <|
      (hxor 9 (by decide)).comp <| (hadd 4 (by decide)).comp <|
      (hxor 22 (by decide)).comp (hadd 12 (by decide))
  cases wide with
  | false => exact hfirst
  | true =>
    exact (hxor 44 (by decide)).comp <| (hadd 39 (by decide)).comp <|
      (hxor 34 (by decide)).comp <| (hadd 42 (by decide)).comp <|
      (hxor 41 (by decide)).comp <| (hadd 36 (by decide)).comp <|
      (hxor 54 (by decide)).comp <| (hadd 44 (by decide)).comp hfirst

end IdearNiu.Hash
