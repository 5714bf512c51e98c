import IdearNiu.Hash.Rehash

namespace IdearNiu.Hash

open Cyclic Allocation

/-- A call on a table. -/
inductive Op where
  | put (key value : Ptr)
  | remove (key : Ptr)
  | get (key : Ptr)
  | getPair (key : Ptr)
  | contains (key : Ptr)
  | clear
  | count

/-- What a call gives back; put and clear return nothing. -/
inductive Answer where
  | done
  | removed (found : Bool)
  | value (v : Ptr)
  | pair (found : Option Cell)
  | contained (found : Bool)
  | counted (n : Nat)
  deriving DecidableEq, Repr

/-- No key handed to the table is the marker of an empty cell. -/
def Op.valid : Op → Prop
  | .put key _ => key≠invalidPtr
  | .remove key => key≠invalidPtr
  | .get key => key≠invalidPtr
  | .getPair key => key≠invalidPtr
  | .contains key => key≠invalidPtr
  | .clear => True
  | .count => True

def applyOp (ht : HashTable) : Op → Except Fault (HashTable × Answer)
  | .put key value => do return (← hashTablePut ht key value,.done)
  | .remove key => do
      let r ← hashTableRemove ht key
      return (r.2,.removed r.1)
  | .get key => do return (ht,.value (← hashTableGet ht key))
  | .getPair key => do return (ht,.pair (← hashTableGetPair ht key))
  | .contains key => do return (ht,.contained (← hashTableContains ht key))
  | .clear => .ok (hashTableClear ht,.done)
  | .count => .ok (ht,.counted (hashTableCount ht))

def runOps : HashTable → List Op → Except Fault (HashTable × List Answer)
  | ht,[] => .ok (ht,[])
  | ht,op::ops => do
      let r ← applyOp ht op
      let rest ← runOps r.1 ops
      return (rest.1,r.2::rest.2)

def runTable (hash : Ptr → BitVec 64) (test : Ptr → Ptr → Bool) (items : Int)
    (ops : List Op) : Except Fault (HashTable × List Answer) := do
  runOps (← hashTableNew items hash test) ops

/-- The finite map the table stands for, as a list of bindings. -/
def mapStep (test : Ptr → Ptr → Bool) (m : List Cell) : Op → List Cell × Answer
  | .put key value => (KeyedMap.insert Cell.key test ⟨key,value⟩ m,.done)
  | .remove key =>
      (KeyedMap.erase Cell.key test key m,
        .removed (KeyedMap.lookup Cell.key test key m).isSome)
  | .get key => (m,.value (((KeyedMap.lookup Cell.key test key m).map Cell.value).getD 0))
  | .getPair key => (m,.pair (KeyedMap.lookup Cell.key test key m))
  | .contains key => (m,.contained (KeyedMap.lookup Cell.key test key m).isSome)
  | .clear => ([],.done)
  | .count => (m,.counted m.length)

def mapRun (test : Ptr → Ptr → Bool) : List Cell → List Op → List Cell × List Answer
  | m,[] => (m,[])
  | m,op::ops =>
      let r := mapStep test m op
      let rest := mapRun test r.1 ops
      (rest.1,r.2::rest.2)

theorem primes_ge (p : Nat) (h : p∈primes) : 13≤p := by
  have : ∀ p∈primes,13≤p := by decide
  exact this p h

/-- A scan returns a large enough entry, with the index behind it. -/
theorem primeScan_returns (size : Int) (ps : List Nat) (i p j : Nat)
    (h : primeScan size ps i=.ok (p,j)) : ∃ k,j=i+k+1 ∧ ps[k]?=some p ∧ (p : Int)≥size := by
  induction ps generalizing i with
  | nil => cases h
  | cons q ps ih =>
    rw [primeScan] at h
    split_ifs at h with hq
    · cases h
      exact ⟨0,rfl,rfl,hq⟩
    · obtain ⟨k,hj,hget,hge⟩ := ih (i+1) h
      exact ⟨k+1,by omega,by simpa using hget,hge⟩

/-- A scan ends no later than at an entry that is large enough. -/
theorem primeScan_ends (size : Int) (ps : List Nat) (i last q : Nat) (hq : ps[last]?=some q)
    (hge : (q : Int)≥size) : ∃ p k,primeScan size ps i=.ok (p,i+k+1) ∧ k≤last := by
  induction ps generalizing i last with
  | nil => simp at hq
  | cons r ps ih =>
    rw [primeScan]
    by_cases hr : (r : Int)≥size
    · exact ⟨r,0,by rw [if_pos hr],Nat.zero_le _⟩
    · rw [if_neg hr]
      cases last with
      | zero =>
        have heq : r=q := by simpa using hq
        exact absurd hge (heq ▸ hr)
      | succ last =>
        obtain ⟨p,k,hrun,hk⟩ := ih (i+1) last (by simpa using hq)
        exact ⟨p,k+1,by rw [hrun]; congr 3; omega,by omega⟩

theorem primeSize_returns (size : Int) (offset p j : Nat)
    (h : primeSize size offset=.ok (p,j)) :
    ∃ i,j=i+1 ∧ primes[i]?=some p ∧ (p : Int)≥size := by
  obtain ⟨k,hj,hget,hge⟩ := primeScan_returns size _ offset p j h
  rw [List.getElem?_drop] at hget
  exact ⟨offset+k,hj,hget,hge⟩

/-- The largest size in the table of primes whose cells are fewer than 2^31 bytes, so that
the int of xmalloc can ask for them. -/
def largestSize : Nat := 110774011

theorem primes_fit (p : Nat) (h : p∈primes) : p*16<2^31 ↔ p≤largestSize := by
  have : ∀ p∈primes,p*16<2^31 ↔ p≤largestSize := by decide
  exact this p h

/-- Sizes up to the largest one are rounded to one that is not larger. -/
theorem primeSize_ends (size : Int) (offset : Nat) (ho : offset≤58)
    (hs : size ≤ largestSize) : ∃ p j,primeSize size offset=.ok (p,j) ∧ p≤largestSize := by
  have hlast : (primes.drop offset)[58-offset]?=some 110774011 := by
    rw [List.getElem?_drop,show offset+(58-offset)=58 by omega]
    decide
  obtain ⟨p,k,hrun,hk⟩ := primeScan_ends size _ offset _ _ hlast hs
  obtain ⟨i,hj,hget,_⟩ := primeSize_returns size offset p _ hrun
  refine ⟨p,_,hrun,?_⟩
  have hall : ∀ i<59,∀ p,primes[i]?=some p → p≤largestSize := by decide
  exact hall i (by omega) p hget

theorem newCells_eq (len : Nat) (h : len*16<2^31) :
    newCells len=.ok (List.replicate len emptyCell) := by
  rw [newCells,(block_full_iff _).mpr h]

theorem newCells_returns (len : Nat) (cells : List Cell) (h : newCells len=.ok cells) :
    len*16<2^31 ∧ cells=List.replicate len emptyCell := by
  rw [newCells] at h
  cases hblock : block (BitVec.ofNat 64 (len*16)) (len*16) with
  | full =>
    rw [hblock] at h
    cases h
    exact ⟨(block_full_iff _).mp hblock,rfl⟩
  | aborted =>
    rw [hblock] at h
    cases h
  | overrun =>
    rw [hblock] at h
    cases h

/-- What a growth that returns has done. -/
theorem growHashTable_returns (ht big : HashTable) (h : growHashTable ht=.ok big) :
    ∃ i p cells,primes[i]?=some p ∧ ht.size*2≤p ∧ p*16<2^31 ∧
      rehashInto ht.hashFunction p ht.cells (List.replicate p emptyCell)=.ok cells ∧
      big={ ht with
        cells := cells
        size := p
        resizeThreshold := threshold p
        primeOffset := i+1 } := by
  rw [growHashTable] at h
  split_ifs at h
  obtain ⟨⟨p,j⟩,hp,hcells⟩ := (bind_eq_ok _ _ _).mp h
  obtain ⟨new,hnew,hinto⟩ := (bind_eq_ok _ _ _).mp hcells
  obtain ⟨cells,hre,hbig⟩ := (bind_eq_ok _ _ _).mp hinto
  obtain ⟨i,rfl,hget,hge⟩ := primeSize_returns _ _ p j hp
  obtain ⟨hfit,rfl⟩ := newCells_returns _ _ hnew
  cases hbig
  exact ⟨i,p,cells,hget,by exact_mod_cast hge,hfit,hre,rfl⟩

/-- What hash_table_new has done when it returns. -/
theorem hashTableNew_returns (items : Int) (hash : Ptr → BitVec 64) (test : Ptr → Ptr → Bool)
    (ht : HashTable) (h : hashTableNew items hash test=.ok ht) :
    ∃ i p : Nat,primes[i]?=some p ∧ (p : Int)≥initialSize items ∧ p*16<2^31 ∧ ht={
      hashFunction := hash
      testFunction := test
      cells := List.replicate p emptyCell
      size := p
      count := 0
      resizeThreshold := threshold p
      primeOffset := i+1 } := by
  rw [hashTableNew] at h
  split_ifs at h
  obtain ⟨⟨p,j⟩,hp,hcells⟩ := (bind_eq_ok _ _ _).mp h
  obtain ⟨new,hnew,hht⟩ := (bind_eq_ok _ _ _).mp hcells
  obtain ⟨i,rfl,hget,hge⟩ := primeSize_returns _ _ p j hp
  obtain ⟨hfit,rfl⟩ := newCells_returns _ _ hnew
  cases hht
  exact ⟨i,p,hget,hge,hfit,rfl⟩

theorem hashTableNew_ends (items : Int) (hash : Ptr → BitVec 64) (test : Ptr → Ptr → Bool)
    (hmin : intMin ≤ initialSize items) (hmax : initialSize items ≤ largestSize) :
    ∃ ht,hashTableNew items hash test=.ok ht := by
  obtain ⟨p,j,hrun,hle⟩ := primeSize_ends (initialSize items) 0 (by decide) hmax
  obtain ⟨i,_,hget,_⟩ := primeSize_returns _ _ p j hrun
  have hfit := (primes_fit p (List.mem_of_getElem? hget)).mpr hle
  have hrange : ¬(initialSize items>intMax ∨ initialSize items < intMin) := by
    have hlarge : largestSize ≤ intMax := by decide
    omega
  rw [hashTableNew,if_neg hrange,hrun]
  simp only [bind,Except.bind,newCells_eq p hfit]
  exact ⟨_,rfl⟩

/-- A table in order, and the bindings it holds. -/
structure Sound (ht : HashTable) (m : List Cell) : Prop where
  law : LawfulKeys ht.hashFunction ht.testFunction
  probed : Probed ht.hashFunction ht.testFunction ht.cells ht.size
  bindings : (entries ht.cells).Perm m
  counted : ht.count=m.length
  limit : ht.resizeThreshold=threshold ht.size
  room : ht.count≤ht.resizeThreshold
  prime : ∃ i,ht.primeOffset=i+1 ∧ primes[i]?=some ht.size

section

variable {ht : HashTable} {m : List Cell}

theorem Sound.size_ge (h : Sound ht m) : 13≤ht.size := by
  obtain ⟨i,_,hi⟩ := h.prime
  exact primes_ge _ (List.mem_of_getElem? hi)

theorem Sound.entries_lt (h : Sound ht m) : (entries ht.cells).length<ht.size := by
  have hroom := h.room
  rw [h.limit,threshold,h.counted,← h.bindings.length_eq] at hroom
  have := h.size_ge
  omega

theorem Sound.distinct (h : Sound ht m) : KeyedMap.Distinct Cell.key ht.testFunction m :=
  (h.probed.entries_distinct).perm h.law.toLawful h.bindings

/-- find_cell finds the binding of the map, or the empty cell where it belongs. -/
theorem Sound.findCell (h : Sound ht m) (key : Ptr) :
    ∃ x,x<ht.size ∧ findCell ht key=.ok x ∧
      ((occ ht.cells x=true ∧ ht.testFunction key (cellAt ht.cells x).key=true ∧
        KeyedMap.lookup Cell.key ht.testFunction key m=some (cellAt ht.cells x)) ∨
       (occ ht.cells x=false ∧ KeyedMap.lookup Cell.key ht.testFunction key m=none ∧
        (∀ b∈m,ht.testFunction key b.key=false) ∧
        ∀ y,y<ht.size → dist ht.size (hashPosition ht.hashFunction ht.size key) y<
          dist ht.size (hashPosition ht.hashFunction ht.size key) x →
          occ ht.cells y=true)) := by
  obtain ⟨x,hx,hrun,hcase⟩ := h.probed.find h.law h.entries_lt key
  have hl : x<ht.cells.length := by rw [h.probed.length]; exact hx
  refine ⟨x,hx,hrun,?_⟩
  rcases hcase with ⟨ho,ht'⟩|⟨ho,hfresh,hpath⟩
  · refine Or.inl ⟨ho,ht',KeyedMap.lookup_eq_some h.law.toLawful h.distinct ?_ ht'⟩
    exact h.bindings.mem_iff.mp (cellAt_mem_entries ht.cells x hl ho)
  · have hnone : ∀ b∈m,ht.testFunction key b.key=false := by
      intro b hb
      obtain ⟨i,hi,hoi,hbi⟩ := mem_entries ht.cells b (h.bindings.mem_iff.mpr hb)
      rw [h.probed.length] at hi
      have := hfresh i hi hoi
      rwa [hbi] at this
    exact Or.inr ⟨ho,KeyedMap.lookup_eq_none hnone,hnone,hpath⟩

theorem Sound.get (h : Sound ht m) (key : Ptr) :
    hashTableGet ht key=
      .ok (((KeyedMap.lookup Cell.key ht.testFunction key m).map Cell.value).getD 0) := by
  obtain ⟨x,_,hrun,⟨ho,_,hl⟩|⟨ho,hl,_⟩⟩ := h.findCell key <;>
    simp [hashTableGet,hrun,bind,Except.bind,pure,Except.pure,occupied_cellAt,ho,hl]

theorem Sound.getPair (h : Sound ht m) (key : Ptr) :
    hashTableGetPair ht key=.ok (KeyedMap.lookup Cell.key ht.testFunction key m) := by
  obtain ⟨x,_,hrun,⟨ho,_,hl⟩|⟨ho,hl,_⟩⟩ := h.findCell key <;>
    simp [hashTableGetPair,hrun,bind,Except.bind,pure,Except.pure,occupied_cellAt,ho,hl]

theorem Sound.contains (h : Sound ht m) (key : Ptr) :
    hashTableContains ht key=
      .ok (KeyedMap.lookup Cell.key ht.testFunction key m).isSome := by
  obtain ⟨x,_,hrun,⟨ho,_,hl⟩|⟨ho,hl,_⟩⟩ := h.findCell key <;>
    simp [hashTableContains,hrun,bind,Except.bind,pure,Except.pure,occupied_cellAt,ho,hl]

/-- Re-insertion into a larger array: every old binding arrives, none is lost. -/
theorem rehashInto_spec {hash : Ptr → BitVec 64} {test : Ptr → Ptr → Bool}
    (law : LawfulKeys hash test) (n : Nat) (old cells : List Cell)
    (h : Probed hash test cells n)
    (hroom : (entries old).length+(entries cells).length<n)
    (hd : KeyedMap.Distinct Cell.key test (entries old++entries cells)) :
    ∃ cells',rehashInto hash n old cells=.ok cells' ∧ Probed hash test cells' n ∧
      (entries cells').Perm (entries old++entries cells) := by
  induction old generalizing cells with
  | nil => exact ⟨cells,rfl,h,List.Perm.refl _⟩
  | cons c old ih =>
    rw [rehashInto]
    by_cases ho : occupied c=true
    · have hcons : entries (c::old)=c::entries old := by simp [entries,ho]
      rw [hcons] at hroom hd ⊢
      simp only [List.length_cons] at hroom
      obtain ⟨e,he,hempty⟩ := exists_empty cells (by rw [h.length]; omega)
      rw [h.length] at he
      have hs := hashPosition_lt hash n c.key h.pos
      obtain ⟨x,hx,hrun,hstop,hbefore⟩ := foreachOccupiedAdjacent_spec cells n
        (fun _ => false) e he hempty n _ hs (dist_spec n _ e hs he).1
      have hox : occ cells x=false := by
        by_contra bad
        have := hstop (by simpa using bad)
        simp at this
      have hfresh : ∀ i,i<n → occ cells i=true → test c.key (cellAt cells i).key=false := by
        intro i hi hoi
        apply (List.pairwise_cons.mp hd).1
        apply List.mem_append_right
        exact cellAt_mem_entries cells i (by rw [h.length]; exact hi) hoi
      have hfill := entries_fill cells x c (by rw [h.length]; exact hx) hox ho
      have hperm : (c::entries old++entries cells).Perm
          (entries old++entries (cells.set x c)) :=
        List.perm_middle.symm.trans (hfill.symm.append_left _)
      obtain ⟨cells',hrun',hp,he'⟩ := ih (cells.set x c)
        (h.fill law x c hx ho hfresh (fun y hy hdy => (hbefore y hy hdy).1))
        (by rw [hfill.length_eq,List.length_cons]; omega)
        (hd.perm law.toLawful hperm)
      refine ⟨cells',?_,hp,he'.trans hperm.symm⟩
      simp only [ho,if_true,hrun,bind,Except.bind,hrun']
    · have hcons : entries (c::old)=entries old := by simp [entries,ho]
      rw [hcons] at hroom hd ⊢
      rw [if_neg ho]
      exact ih cells h hroom hd

/-- Growth keeps the map and makes room for one more binding. -/
theorem Sound.grow (h : Sound ht m) (big : HashTable) (hgrow : growHashTable ht=.ok big) :
    Sound big m ∧ big.count<big.resizeThreshold ∧ big.testFunction=ht.testFunction := by
  have hge := h.size_ge
  have hent := h.entries_lt
  obtain ⟨i,p,cells,hget,hp,_,hre,rfl⟩ := growHashTable_returns ht big hgrow
  obtain ⟨cells',hre',hprobed,hperm⟩ := rehashInto_spec h.law p ht.cells
    (List.replicate p emptyCell) (Probed.replicate (by omega))
    (by rw [entries_replicate,List.length_nil]; omega)
    (by rw [entries_replicate,List.append_nil]; exact h.probed.entries_distinct)
  rw [entries_replicate,List.append_nil] at hperm
  have hcells : cells'=cells := by
    rw [hre] at hre'
    cases hre'
    rfl
  subst hcells
  have hroom := h.room
  rw [h.limit,threshold] at hroom
  have hthr : ht.count<threshold p := by
    rw [threshold]
    omega
  exact ⟨⟨h.law,hprobed,hperm.trans h.bindings,h.counted,rfl,hthr.le,⟨i,rfl,hget⟩⟩,hthr,rfl⟩

/-- A table that can be doubled below the largest size grows. -/
theorem Sound.grows (h : Sound ht m) (hsize : ht.size*2≤largestSize) :
    ∃ big,growHashTable ht=.ok big := by
  have hge := h.size_ge
  have hent := h.entries_lt
  obtain ⟨i,hoff,hprime⟩ := h.prime
  have hi : i<58 := by
    by_contra bad
    have hall : ∀ i<71,i<58 ∨ ∀ p,primes[i]?=some p → largestSize<p*2 := by decide
    have hlen : primes.length=71 := by decide
    obtain ⟨hlt,_⟩ := List.getElem?_eq_some_iff.mp hprime
    have := (hall i (by omega)).resolve_left bad _ hprime
    omega
  obtain ⟨p,j,hrun,hle⟩ := primeSize_ends (ht.size*2 : Nat) ht.primeOffset (by omega)
    (by exact_mod_cast hsize)
  obtain ⟨k,_,hget,hp⟩ := primeSize_returns _ _ p j hrun
  have hp' : ht.size*2≤p := by exact_mod_cast hp
  have hfit := (primes_fit p (List.mem_of_getElem? hget)).mpr hle
  obtain ⟨cells,hre,_⟩ := rehashInto_spec h.law p ht.cells
    (List.replicate p emptyCell) (Probed.replicate (by omega))
    (by rw [entries_replicate,List.length_nil]; omega)
    (by rw [entries_replicate,List.append_nil]; exact h.probed.entries_distinct)
  have hlarge : largestSize ≤ intMax := by decide
  rw [growHashTable,if_neg (by omega)]
  simp only [hrun,bind,Except.bind,newCells_eq p hfit,hre]
  exact ⟨_,rfl⟩

/-- A fresh key in the empty cell its probe ended in. -/
theorem Sound.fill (h : Sound ht m) (x : Nat) (key value : Ptr) (hkey : key≠invalidPtr)
    (hx : x<ht.size) (ho : occ ht.cells x=false)
    (hfresh : ∀ b∈m,ht.testFunction key b.key=false)
    (hpath : ∀ y,y<ht.size → dist ht.size (hashPosition ht.hashFunction ht.size key) y<
      dist ht.size (hashPosition ht.hashFunction ht.size key) x → occ ht.cells y=true)
    (hroom : ht.count<ht.resizeThreshold) :
    Sound { ht with count := ht.count+1, cells := ht.cells.set x ⟨key,value⟩ }
      (KeyedMap.insert Cell.key ht.testFunction ⟨key,value⟩ m) := by
  have hl : x<ht.cells.length := by rw [h.probed.length]; exact hx
  have hc : occupied ⟨key,value⟩=true := by simpa [occupied] using hkey
  have herase : KeyedMap.erase Cell.key ht.testFunction key m=m :=
    KeyedMap.erase_of_none hfresh
  have hins : KeyedMap.insert Cell.key ht.testFunction ⟨key,value⟩ m=⟨key,value⟩::m := by
    rw [KeyedMap.insert,herase]
  rw [hins]
  refine ⟨h.law,h.probed.fill h.law x _ hx hc ?_ hpath,?_,?_,h.limit,hroom,h.prime⟩
  · intro i hi hoi
    apply hfresh
    apply h.bindings.mem_iff.mp
    exact cellAt_mem_entries ht.cells i (by rw [h.probed.length]; exact hi) hoi
  · exact (entries_fill ht.cells x _ hl ho hc).trans (h.bindings.cons _)
  · simp [h.counted]

theorem Sound.put (h : Sound ht m) (key value : Ptr) (hkey : key≠invalidPtr)
    (hsize : (ht.count<ht.resizeThreshold ∨ ht.size*2≤largestSize) ∨
      ∃ ht',hashTablePut ht key value=.ok ht') :
    ∃ ht',hashTablePut ht key value=.ok ht' ∧ ht'.testFunction=ht.testFunction ∧
      Sound ht' (KeyedMap.insert Cell.key ht.testFunction ⟨key,value⟩ m) := by
  have hc : occupied ⟨key,value⟩=true := by simpa [occupied] using hkey
  obtain ⟨x,hx,hrun,⟨ho,ht',_⟩|⟨ho,_,hfresh,hpath⟩⟩ := h.findCell key
  · have hl : x<ht.cells.length := by rw [h.probed.length]; exact hx
    have hperm := entries_replace ht.cells x ⟨key,value⟩ hl ho hc
    have hold := entries_clear ht.cells x hl ho
    have hm : m.Perm (cellAt ht.cells x::entries (clearCell ht.cells x)) :=
      h.bindings.symm.trans hold.symm
    have herase := KeyedMap.erase_of_perm_cons h.law.toLawful hm h.distinct ht'
    have hnew : (entries (ht.cells.set x ⟨key,value⟩)).Perm
        (KeyedMap.insert Cell.key ht.testFunction ⟨key,value⟩ m) := by
      apply (List.perm_cons (cellAt ht.cells x)).mp
      apply hperm.trans
      exact (hold.symm.cons _).trans ((List.Perm.swap _ _ _).trans
        ((herase.symm.cons ⟨key,value⟩).cons _))
    refine ⟨{ ht with cells := ht.cells.set x ⟨key,value⟩ },?_,rfl,?_⟩
    · simp [hashTablePut,putGrowing,hrun,bind,Except.bind,pure,Except.pure,occupied_cellAt,ho]
    · refine ⟨h.law,h.probed.replace h.law x _ hx ho hc ht',hnew,?_,h.limit,h.room,h.prime⟩
      have h1 := hnew.length_eq
      have h2 := hperm.length_eq
      have h3 := h.bindings.length_eq
      simp only [List.length_cons] at h2
      have := h.counted
      simp only
      omega
  · by_cases hfull : ht.count≥ht.resizeThreshold
    · have hgrows : ∃ big,growHashTable ht=.ok big := by
        rcases hsize with (hless|hdouble)|⟨ht',hput⟩
        · omega
        · exact h.grows hdouble
        · cases hg : growHashTable ht with
          | ok big => exact ⟨big,rfl⟩
          | error f => simp [hashTablePut,putGrowing,hrun,occupied_cellAt,ho,hfull,hg,bind,
              Except.bind] at hput
      obtain ⟨big,hgrow⟩ := hgrows
      obtain ⟨hbig,hroom,htest⟩ := h.grow big hgrow
      obtain ⟨y,hy,hrun',⟨hoy,hty,_⟩|⟨hoy,_,_,hpathy⟩⟩ := hbig.findCell key
      · -- the key is fresh in the map, so growth cannot have produced it
        have hmem := hbig.bindings.mem_iff.mp (cellAt_mem_entries big.cells y
          (by rw [hbig.probed.length]; exact hy) hoy)
        rw [htest,hfresh _ hmem] at hty
        simp at hty
      · have hput := hbig.fill y key value hkey hy hoy (htest ▸ hfresh) hpathy hroom
        rw [htest] at hput
        refine ⟨{ big with count := big.count+1, cells := big.cells.set y ⟨key,value⟩ },
          ?_,htest,htest ▸ hput⟩
        simp [hashTablePut,putGrowing,hrun,hgrow,hrun',bind,Except.bind,pure,Except.pure,
          occupied_cellAt,ho,hfull]
    · refine ⟨{ ht with count := ht.count+1, cells := ht.cells.set x ⟨key,value⟩ },
        ?_,rfl,h.fill x key value hkey hx ho hfresh hpath (by omega)⟩
      simp [hashTablePut,putGrowing,hrun,bind,Except.bind,pure,Except.pure,occupied_cellAt,ho,hfull]

theorem Sound.remove (h : Sound ht m) (key : Ptr) :
    ∃ ht',hashTableRemove ht key=
        .ok ((KeyedMap.lookup Cell.key ht.testFunction key m).isSome,ht') ∧
      ht'.testFunction=ht.testFunction ∧
      Sound ht' (KeyedMap.erase Cell.key ht.testFunction key m) := by
  obtain ⟨x,hx,hrun,⟨ho,ht',hlook⟩|⟨ho,hlook,hfresh,_⟩⟩ := h.findCell key
  · have hl : x<ht.cells.length := by rw [h.probed.length]; exact hx
    obtain ⟨e,hwalk⟩ := h.probed.startWalk x hx h.entries_lt ho
    obtain ⟨cells,hre,hprobed,hperm⟩ := hwalk.run h.law.refl ht.size _
      (dist_spec ht.size _ e hwalk.q_lt hwalk.e_lt).1
    have hold := entries_clear ht.cells x hl ho
    have herase := KeyedMap.erase_of_perm_cons h.law.toLawful
      (h.bindings.symm.trans hold.symm) h.distinct ht'
    refine ⟨{ ht with cells := cells, count := ht.count-1 },?_,rfl,?_⟩
    · simp [hashTableRemove,hrun,hre,bind,Except.bind,pure,Except.pure,
        occupied_cellAt,ho,hlook]
    · refine ⟨h.law,hprobed,hperm.trans herase.symm,?_,h.limit,?_,h.prime⟩
      · have h1 := hold.length_eq
        have h2 := herase.length_eq
        have h3 := h.bindings.length_eq
        have h4 := h.counted
        simp only [List.length_cons] at h1
        simp only
        omega
      · have := h.room
        simp only
        omega
  · refine ⟨ht,?_,rfl,?_⟩
    · simp [hashTableRemove,hrun,bind,Except.bind,pure,Except.pure,occupied_cellAt,ho,hlook]
    · rw [KeyedMap.erase_of_none hfresh]
      exact h

theorem Sound.clear (h : Sound ht m) : Sound (hashTableClear ht) [] where
  law := h.law
  probed := Probed.replicate h.probed.pos
  bindings := by simp [hashTableClear,entries_replicate]
  counted := rfl
  limit := h.limit
  room := Nat.zero_le _
  prime := h.prime

end

theorem hashTableNew_sound {hash : Ptr → BitVec 64} {test : Ptr → Ptr → Bool}
    (law : LawfulKeys hash test) (items : Int) (ht : HashTable)
    (hnew : hashTableNew items hash test=.ok ht) : ht.testFunction=test ∧ Sound ht [] := by
  obtain ⟨i,p,hget,_,_,rfl⟩ := hashTableNew_returns items hash test ht hnew
  have hp := primes_ge p (List.mem_of_getElem? hget)
  exact ⟨rfl,law,Probed.replicate (by omega),by simp [entries_replicate],rfl,rfl,
    Nat.zero_le _,⟨i,rfl,hget⟩⟩

/-- One scan of hash_table_iter_next passes over empty cells only. -/
theorem iterScan_spec (l : List Cell) (pos : Nat) :
    (iterScan l pos=none ∧ entries l=[]) ∨
    ∃ c k,iterScan l pos=some (c,pos+k+1) ∧ entries l=c::entries (l.drop (k+1)) := by
  induction l generalizing pos with
  | nil => exact Or.inl ⟨rfl,rfl⟩
  | cons a l ih =>
    rw [iterScan]
    by_cases ho : occupied a=true
    · refine Or.inr ⟨a,0,by rw [if_pos ho],?_⟩
      simp [entries,ho]
    · rw [if_neg ho]
      have hcons : entries (a::l)=entries l := by simp [entries,ho]
      rw [hcons]
      rcases ih (pos+1) with h|⟨c,k,hrun,he⟩
      · exact Or.inl h
      · refine Or.inr ⟨c,k+1,by rw [hrun]; congr 2; omega,?_⟩
        simpa using he

/-- A whole iteration lists the bindings in the order of the cells. -/
theorem iterateAll_entries (ht : HashTable) (hl : ht.cells.length=ht.size) (fuel pos : Nat)
    (hf : (entries (ht.cells.drop pos)).length<fuel) :
    iterateAll ht fuel ⟨pos,ht.size⟩=some (entries (ht.cells.drop pos)) := by
  induction fuel generalizing pos with
  | zero => omega
  | succ fuel ih =>
    have htake : ht.cells.take ht.size=ht.cells := by rw [← hl,List.take_length]
    rw [iterateAll,hashTableIterNext]
    simp only [htake]
    rcases iterScan_spec (ht.cells.drop pos) pos with ⟨hrun,he⟩|⟨c,k,hrun,he⟩
    · simp [hrun,he]
    · rw [List.drop_drop,← Nat.add_assoc] at he
      rw [he,List.length_cons] at hf
      simp [hrun,ih (pos+k+1) (by omega),he]

theorem Sound.iterate {ht : HashTable} {m : List Cell} (h : Sound ht m) :
    ∃ l,iterateAll ht (ht.count+1) (hashTableIterate ht)=some l ∧ l.Perm m := by
  refine ⟨entries ht.cells,?_,h.bindings⟩
  have := iterateAll_entries ht h.probed.length (ht.count+1) 0
    (by rw [List.drop_zero,h.bindings.length_eq,h.counted]; omega)
  simpa [hashTableIterate] using this

theorem Sound.apply {ht : HashTable} {m : List Cell} (h : Sound ht m) (op : Op)
    (hop : op.valid)
    (hsize : (ht.count<ht.resizeThreshold ∨ ht.size*2≤largestSize) ∨ ∃ r,applyOp ht op=.ok r) :
    ∃ ht',applyOp ht op=.ok (ht',(mapStep ht.testFunction m op).2) ∧
      ht'.testFunction=ht.testFunction ∧ Sound ht' (mapStep ht.testFunction m op).1 := by
  cases op with
  | put key value =>
    have hreturns : (∃ r,applyOp ht (.put key value)=.ok r) →
        ∃ ht',hashTablePut ht key value=.ok ht' := by
      intro hgiven
      obtain ⟨r,hr⟩ := hgiven
      cases hput : hashTablePut ht key value with
      | ok ht' => exact ⟨ht',rfl⟩
      | error f => simp [applyOp,hput,bind,Except.bind] at hr
    obtain ⟨ht',hrun,htest,hs⟩ := h.put key value hop (hsize.imp_right hreturns)
    exact ⟨ht',by simp [applyOp,hrun,mapStep,bind,Except.bind,pure,Except.pure],htest,hs⟩
  | remove key =>
    obtain ⟨ht',hrun,htest,hs⟩ := h.remove key
    exact ⟨ht',by simp [applyOp,hrun,mapStep,bind,Except.bind,pure,Except.pure],htest,hs⟩
  | get key =>
    exact ⟨ht,by simp [applyOp,h.get,mapStep,bind,Except.bind,pure,Except.pure],rfl,h⟩
  | getPair key =>
    exact ⟨ht,by simp [applyOp,h.getPair,mapStep,bind,Except.bind,pure,Except.pure],rfl,h⟩
  | contains key =>
    exact ⟨ht,by simp [applyOp,h.contains,mapStep,bind,Except.bind,pure,Except.pure],rfl,h⟩
  | clear => exact ⟨hashTableClear ht,rfl,rfl,h.clear⟩
  | count => exact ⟨ht,by simp [applyOp,hashTableCount,mapStep,h.counted],rfl,h⟩

/-- Sizes below the last entries of the prime table: the initial size is an int, at most the
largest one whose cells xmalloc can be asked for, and so is the double of every table that a
prefix of the calls fills up to its threshold. -/
def WithinPrimeTable (hash : Ptr → BitVec 64) (test : Ptr → Ptr → Bool) (items : Int)
    (ops : List Op) : Prop :=
  intMin ≤ initialSize items ∧ initialSize items ≤ largestSize ∧
  ∀ pre ht answers,pre<+:ops → runTable hash test items pre=.ok (ht,answers) →
    ht.count<ht.resizeThreshold ∨ ht.size*2≤largestSize

/-- Every run answers as the finite map does. -/
theorem runOps_sound {test : Ptr → Ptr → Bool}
    (ht0 : HashTable) (m0 : List Cell) (h0 : Sound ht0 m0) (htest : ht0.testFunction=test)
    (ops : List Op) (hops : ∀ op∈ops,op.valid)
    (hsize : ∀ pre ht answers,pre<+:ops → runOps ht0 pre=.ok (ht,answers) →
      ht.count<ht.resizeThreshold ∨ ht.size*2≤largestSize) :
    ∃ ht,runOps ht0 ops=.ok (ht,(mapRun test m0 ops).2) ∧ ht.testFunction=test ∧
      Sound ht (mapRun test m0 ops).1 := by
  induction ops generalizing ht0 m0 with
  | nil => exact ⟨ht0,rfl,htest,h0⟩
  | cons op ops ih =>
    have hnow := hsize [] ht0 [] (List.nil_prefix) rfl
    obtain ⟨ht1,hrun,htest1,hs1⟩ := h0.apply op (hops op (by simp)) (Or.inl hnow)
    rw [htest] at hrun htest1 hs1
    obtain ⟨ht,hrest,htest2,hs⟩ := ih ht1 _ hs1 htest1
      (fun o ho => hops o (by simp [ho])) (by
        intro pre ht answers hpre hpr
        apply hsize (op::pre) ht ((mapStep test m0 op).2::answers)
          ((List.prefix_cons_inj op).mpr hpre)
        simp [runOps,hrun,hpr,bind,Except.bind,pure,Except.pure])
    refine ⟨ht,?_,htest2,hs⟩
    simp [runOps,hrun,hrest,mapRun,bind,Except.bind,pure,Except.pure]

theorem runOps_reached (ops : List Op) (hops : ∀ op∈ops,op.valid) (ht0 ht : HashTable)
    (m0 : List Cell) (answers : List Answer) (h0 : Sound ht0 m0)
    (hrun : runOps ht0 ops=.ok (ht,answers)) : ∃ m,Sound ht m := by
  induction ops generalizing ht0 m0 answers with
  | nil =>
    cases hrun
    exact ⟨m0,h0⟩
  | cons op ops ih =>
    cases hstep : applyOp ht0 op with
    | error f => simp [runOps,hstep,bind,Except.bind] at hrun
    | ok r =>
      obtain ⟨ht1,hrun1,_,h1⟩ := h0.apply op (hops op (by simp)) (Or.inr ⟨r,hstep⟩)
      cases hrest : runOps ht1 ops with
      | error f => simp [runOps,hrun1,hrest,bind,Except.bind] at hrun
      | ok rest =>
        simp only [runOps,hrun1,hrest,bind,Except.bind,pure,Except.pure,Except.ok.injEq,
          Prod.mk.injEq] at hrun
        apply ih (fun o ho => hops o (by simp [ho])) ht1 _ rest.2 h1
        rw [hrest,← hrun.1]

/-- Every table that calls lead to is in order. -/
theorem runTable_reached {hash : Ptr → BitVec 64} {test : Ptr → Ptr → Bool}
    (law : LawfulKeys hash test) (items : Int) (ops : List Op) (hops : ∀ op∈ops,op.valid)
    (ht : HashTable) (answers : List Answer)
    (hrun : runTable hash test items ops=.ok (ht,answers)) : ∃ m,Sound ht m := by
  rw [runTable] at hrun
  cases hnew : hashTableNew items hash test with
  | error f =>
    rw [hnew] at hrun
    cases hrun
  | ok ht0 =>
    rw [hnew] at hrun
    exact runOps_reached ops hops ht0 ht [] answers (hashTableNew_sound law items ht0 hnew).2 hrun

/-- The open-addressing table refines a finite map: on every sequence of calls each
probe ends, the answers are those of the map, the count is the number of bindings,
and an iteration yields every binding exactly once. -/
theorem hashTable_refines_map (hash : Ptr → BitVec 64) (test : Ptr → Ptr → Bool)
    (law : LawfulKeys hash test) (items : Int) (ops : List Op)
    (hops : ∀ op∈ops,op.valid) (hsize : WithinPrimeTable hash test items ops) :
    ∃ ht,runTable hash test items ops=.ok (ht,(mapRun test [] ops).2) ∧
      hashTableCount ht=(mapRun test [] ops).1.length ∧
      ∃ l,iterateAll ht (ht.count+1) (hashTableIterate ht)=some l ∧
        l.Perm (mapRun test [] ops).1 := by
  obtain ⟨ht0,hnew⟩ := hashTableNew_ends items hash test hsize.1 hsize.2.1
  obtain ⟨htest,hs0⟩ := hashTableNew_sound law items ht0 hnew
  have hrunTable (pre : List Op) : runTable hash test items pre=runOps ht0 pre := by
    simp [runTable,hnew,bind,Except.bind]
  obtain ⟨ht,hrun,_,hs⟩ := runOps_sound ht0 [] hs0 htest ops hops
    (fun pre ht answers hpre hpr =>
      hsize.2.2 pre ht answers hpre ((hrunTable pre).trans hpr))
  exact ⟨ht,(hrunTable ops).trans hrun,hs.counted,hs.iterate⟩

/-- Three keys that collide modulo 13, the first removed again: the other two stay. -/
def collidingOps : List Op :=
  [.put 0 1,.put 13 2,.put 26 3,.remove 0,.get 13,.getPair 26,.contains 0,.count]

def sizeDoubles (r : Except Fault (HashTable × List Answer)) : Bool :=
  match r with
  | .ok (ht,_) => decide (ht.size*2≤largestSize)
  | .error _ => true

/-- Pointers as keys, compared and hashed as they are. -/
theorem lawful_pointers : LawfulKeys id (fun a b : Ptr => a==b) :=
  ⟨⟨by simp,by intro a b h; simpa using (beq_iff_eq.mp h).symm,
    by intro a b c h k; rw [beq_iff_eq.mp h]; exact k⟩,
    by intro a b h; exact beq_iff_eq.mp h⟩

theorem hashTable_refines_map_colliding :
    ∃ ht,runTable id (fun a b => a==b) 0 collidingOps=
        .ok (ht,[.done,.done,.done,.removed true,.value 2,.pair (some ⟨26,3⟩),
          .contained false,.counted 2]) ∧
      hashTableCount ht=2 ∧
      ∃ l,iterateAll ht (ht.count+1) (hashTableIterate ht)=some l ∧
        l.Perm [⟨26,3⟩,⟨13,2⟩] := by
  have hall : ∀ pre∈collidingOps.inits,
      sizeDoubles (runTable id (fun a b => a==b) 0 pre)=true := by decide
  have hsize : WithinPrimeTable id (fun a b => a==b) 0 collidingOps := by
    refine ⟨by decide,by decide,?_⟩
    intro pre ht answers hpre hrun
    have := hall pre ((List.mem_inits _ _).mpr hpre)
    exact Or.inr (by simpa [hrun,sizeDoubles] using this)
  exact hashTable_refines_map id (fun a b => a==b) lawful_pointers 0 collidingOps
    (by simp [collidingOps,Op.valid,invalidPtr]) hsize

end IdearNiu.Hash
