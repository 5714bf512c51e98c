import IdearNiu.Hash.Refinement

namespace IdearNiu.Hash

open Cyclic

/-- A sequence of puts, each of the key and the value of a cell; grow is what their calls to
grow_hash_table do. -/
def putAllGrowing (grow : HashTable → Except Fault HashTable) (ht : HashTable) :
    List Cell → Except Fault HashTable
  | [] => .ok ht
  | c::cs => do
      let ht ← putGrowing grow ht c.key c.value
      putAllGrowing grow ht cs

def putAll (ht : HashTable) (cs : List Cell) : Except Fault HashTable :=
  putAllGrowing growHashTable ht cs

/-- What the sizes promise for any hash and test function. -/
structure Roomy (ht : HashTable) : Prop where
  length : ht.cells.length=ht.size
  filled : (entries ht.cells).length≤ht.count
  limit : ht.resizeThreshold=threshold ht.size
  room : ht.count≤ht.resizeThreshold
  large : 13≤ht.size

theorem entries_set_length (cells : List Cell) (i : Nat) (c : Cell) (hi : i<cells.length) :
    (entries (cells.set i c)).length+(if occ cells i then 1 else 0)≤
      (entries cells).length+1 := by
  have hmem : cells[i]∈cells := List.getElem_mem hi
  rw [entries,entries,← List.countP_eq_length_filter,← List.countP_eq_length_filter,
    List.countP_set hi,occ,cellAt_eq cells i hi]
  by_cases ho : occupied cells[i]=true
  · have hpos : 0 < cells.countP occupied := List.countP_pos_iff.mpr ⟨_,hmem,ho⟩
    simp only [ho,if_true]
    split_ifs <;> omega
  · simp only [ho,if_false,Bool.false_eq_true]
    split_ifs <;> omega

section

variable {ht : HashTable}

theorem Roomy.exists_empty (h : Roomy ht) : ∃ i,i<ht.size ∧ occ ht.cells i=false := by
  have hroom := h.room
  have hfilled := h.filled
  have hlarge := h.large
  rw [h.limit,threshold] at hroom
  obtain ⟨i,hi,ho⟩ := Hash.exists_empty ht.cells (by rw [h.length]; omega)
  exact ⟨i,by rw [← h.length]; exact hi,ho⟩

/-- A probe that leaves no cell early ends at an empty one, inside the array. -/
theorem probe_inside (cells : List Cell) (n : Nat) (leave : Cell → Bool) (fuel c x : Nat)
    (hc : c<n) (h : foreachOccupiedAdjacent cells n leave fuel c=.ok x) :
    x<n ∧ (occ cells x=true → leave (cellAt cells x)=true) := by
  induction fuel generalizing c with
  | zero => cases h
  | succ fuel ih =>
    rw [foreachOccupiedAdjacent] at h
    split_ifs at h with ho hl
    · cases h
      exact ⟨hc,fun _ => hl⟩
    · exact ih _ (next_spec n c hc).1 h
    · cases h
      exact ⟨hc,fun hx => absurd hx ho⟩

theorem Roomy.findCell (h : Roomy ht) (key : Ptr) :
    ∃ x,findCell ht key=.ok x ∧ x<ht.size := by
  obtain ⟨e,he,hempty⟩ := h.exists_empty
  have hs := hashPosition_lt ht.hashFunction ht.size key (by have := h.large; omega)
  obtain ⟨x,hx,hrun,_⟩ := foreachOccupiedAdjacent_spec ht.cells ht.size
    (fun c => ht.testFunction key c.key) e he hempty ht.size _ hs
    (dist_spec ht.size _ e hs he).1
  exact ⟨x,hrun,hx⟩

/-- Filling the cell that a probe ended in. -/
theorem Roomy.fill (h : Roomy ht) (x : Nat) (c : Cell) (hx : x<ht.size)
    (hroom : ht.count<ht.resizeThreshold) :
    Roomy { ht with count := ht.count+1, cells := ht.cells.set x c } := by
  have hset := entries_set_length ht.cells x c (by rw [h.length]; exact hx)
  have hfilled := h.filled
  refine ⟨by rw [List.length_set,h.length],?_,h.limit,hroom,h.large⟩
  simp only
  omega

/-- Overwriting the cell that a probe ended in. -/
theorem Roomy.replace (h : Roomy ht) (x : Nat) (c : Cell) (hx : x<ht.size)
    (ho : occ ht.cells x=true) : Roomy { ht with cells := ht.cells.set x c } := by
  have hset := entries_set_length ht.cells x c (by rw [h.length]; exact hx)
  have hfilled := h.filled
  rw [ho,if_pos rfl] at hset
  refine ⟨by rw [List.length_set,h.length],?_,h.limit,h.room,h.large⟩
  simp only
  omega

/-- Below the threshold a put changes neither the array nor its size, and it does not come to
its call of grow_hash_table. -/
theorem Roomy.put (h : Roomy ht) (key value : Ptr) (hroom : ht.count<ht.resizeThreshold) :
    ∃ ht',(∀ grow,putGrowing grow ht key value=.ok ht') ∧ Roomy ht' ∧
      ht'.size=ht.size ∧ ht'.count≤ht.count+1 := by
  obtain ⟨x,hrun,hx⟩ := h.findCell key
  have hfull : ¬ht.count≥ht.resizeThreshold := by omega
  by_cases ho : occ ht.cells x=true
  · refine ⟨{ ht with cells := ht.cells.set x ⟨key,value⟩ },?_,h.replace x _ hx ho,rfl,
      Nat.le_succ _⟩
    intro grow
    simp [putGrowing,hrun,bind,Except.bind,pure,Except.pure,occupied_cellAt,ho]
  · refine ⟨{ ht with count := ht.count+1, cells := ht.cells.set x ⟨key,value⟩ },?_,
      h.fill x _ hx hroom,rfl,le_rfl⟩
    intro grow
    simp [putGrowing,hrun,bind,Except.bind,pure,Except.pure,occupied_cellAt,ho,hfull]

theorem rehashInto_length (hash : Ptr → BitVec 64) (n : Nat) (hn : 0<n) (old cells new : List Cell)
    (hl : cells.length=n) (h : rehashInto hash n old cells=.ok new) :
    new.length=n ∧ (entries new).length≤(entries old).length+(entries cells).length := by
  induction old generalizing cells with
  | nil =>
    cases h
    exact ⟨hl,Nat.le_add_left _ _⟩
  | cons c old ih =>
    rw [rehashInto] at h
    by_cases ho : occupied c=true
    · rw [if_pos ho] at h
      have hcons : entries (c::old)=c::entries old := by simp [entries,ho]
      cases hp : foreachOccupiedAdjacent cells n (fun _ => false) n
          (hashPosition hash n c.key) with
      | error f =>
        rw [hp] at h
        cases h
      | ok x =>
        rw [hp] at h
        have hx := (probe_inside cells n _ n _ x (hashPosition_lt hash n c.key hn) hp).1
        obtain ⟨hlen,hent⟩ := ih (cells.set x c) (by rw [List.length_set,hl]) h
        have hset := entries_set_length cells x c (by rw [hl]; exact hx)
        refine ⟨hlen,?_⟩
        rw [hcons,List.length_cons]
        omega
    · rw [if_neg ho] at h
      have hcons : entries (c::old)=entries old := by simp [entries,ho]
      rw [hcons]
      exact ih cells hl h

/-- A larger array has room for one more entry. -/
theorem Roomy.grow (h : Roomy ht) (big : HashTable) (hg : growHashTable ht=.ok big) :
    Roomy big ∧ big.count<big.resizeThreshold := by
  obtain ⟨i,p,cells,_,hprime,_,hre,rfl⟩ := growHashTable_returns ht big hg
  have hlarge := h.large
  obtain ⟨hlen,hent⟩ := rehashInto_length _ p (by omega) _ _ _ List.length_replicate hre
  rw [entries_replicate,List.length_nil,Nat.add_zero] at hent
  have hroom := h.room
  rw [h.limit,threshold] at hroom
  have hless : ht.count<threshold p := by
    rw [threshold]
    omega
  exact ⟨⟨hlen,hent.trans h.filled,rfl,hless.le,by simp only; omega⟩,hless⟩

theorem Roomy.put_any (h : Roomy ht) (key value : Ptr) (ht' : HashTable)
    (hput : hashTablePut ht key value=.ok ht') : Roomy ht' := by
  by_cases hroom : ht.count<ht.resizeThreshold
  · obtain ⟨ht1,hrun,hok,_⟩ := h.put key value hroom
    rw [hashTablePut,hrun] at hput
    cases hput
    exact hok
  obtain ⟨x,hrun,hx⟩ := h.findCell key
  rw [hashTablePut,putGrowing,hrun] at hput
  simp only [bind,Except.bind,occupied_cellAt] at hput
  split_ifs at hput with ho
  · cases hput
    exact h.replace x _ hx ho
  · obtain ⟨big,hg,hput⟩ := (bind_eq_ok _ _ _).mp hput
    obtain ⟨hbig,hless⟩ := h.grow big hg
    obtain ⟨y,hfind,hy⟩ := hbig.findCell key
    rw [hfind] at hput
    cases hput
    exact hbig.fill y _ hy hless
  · omega

/-- Every run of puts that returns leaves a roomy table. -/
theorem Roomy.putAll (h : Roomy ht) (cs : List Cell) (ht' : HashTable)
    (hrun : putAll ht cs=.ok ht') : Roomy ht' := by
  induction cs generalizing ht with
  | nil =>
    cases hrun
    exact h
  | cons c cs ih =>
    rw [Hash.putAll,putAllGrowing] at hrun
    obtain ⟨ht1,hput,hrest⟩ := (bind_eq_ok _ _ _).mp hrun
    exact ih (h.put_any c.key c.value ht1 hput) hrest

/-- As many puts as the threshold leaves room for never call grow_hash_table. -/
theorem Roomy.putAll_within (h : Roomy ht) (cs : List Cell)
    (hroom : ht.count+cs.length≤ht.resizeThreshold) :
    ∃ ht',(∀ grow,putAllGrowing grow ht cs=.ok ht') ∧ ht'.size=ht.size := by
  induction cs generalizing ht with
  | nil => exact ⟨ht,fun _ => rfl,rfl⟩
  | cons c cs ih =>
    rw [List.length_cons] at hroom
    obtain ⟨ht1,hput,h1,hsize,hcount⟩ := h.put c.key c.value (by omega)
    have hlimit : ht1.resizeThreshold=ht.resizeThreshold := by rw [h1.limit,h.limit,hsize]
    obtain ⟨ht',hrun,hsize'⟩ := ih h1 (by omega)
    refine ⟨ht',?_,hsize'.trans hsize⟩
    intro grow
    rw [putAllGrowing,hput]
    exact hrun grow

/-- A run of puts of distinct new keys adds all of them. -/
theorem Sound.putAll_distinct {m : List Cell} (h : Sound ht m) (cs : List Cell)
    (hkeys : ∀ c∈cs,c.key≠invalidPtr)
    (hd : KeyedMap.Distinct Cell.key ht.testFunction (m++cs)) (ht' : HashTable)
    (hrun : putAll ht cs=.ok ht') :
    ∃ m',Sound ht' m' ∧ m'.Perm (m++cs) ∧ ht'.testFunction=ht.testFunction := by
  induction cs generalizing ht m with
  | nil =>
    cases hrun
    exact ⟨m,h,by rw [List.append_nil],rfl⟩
  | cons c cs ih =>
    rw [putAll,putAllGrowing] at hrun
    obtain ⟨ht1,hput,hrest⟩ := (bind_eq_ok _ _ _).mp hrun
    obtain ⟨ht2,hput2,htest,h2⟩ := h.put c.key c.value (hkeys c (by simp)) (Or.inr ⟨ht1,hput⟩)
    have heq : ht2=ht1 := by
      rw [hashTablePut,hput] at hput2
      cases hput2
      rfl
    subst heq
    have hperm : (m++c::cs).Perm (c::m++cs) := List.perm_middle
    have hd' := hd.perm h.law.toLawful hperm
    have hfresh : ∀ b∈m,ht.testFunction c.key b.key=false := fun b hb =>
      (List.pairwise_cons.mp hd').1 b (List.mem_append_left _ hb)
    have hins : KeyedMap.insert Cell.key ht.testFunction ⟨c.key,c.value⟩ m=c::m := by
      rw [KeyedMap.insert,KeyedMap.erase_of_none hfresh]
    rw [hins] at h2
    obtain ⟨m',hs,hm,htest'⟩ := ih h2 (fun b hb => hkeys b (by simp [hb])) (htest ▸ hd') hrest
    exact ⟨m',hs,hm.trans hperm.symm,htest'.trans htest⟩

end

/-- What hash_table_new promises for a number of items: as many puts return without coming to
their calls of grow_hash_table, distinct keys are all held with their values, and whatever is
called afterwards leaves a cell empty. -/
def HoldsItems (hash : Ptr → BitVec 64) (test : Ptr → Ptr → Bool) (items : Int) : Prop :=
  ∃ ht0,hashTableNew items hash test=.ok ht0 ∧
    (∀ cs : List Cell,cs.length ≤ items → ∃ ht,
      (∀ grow,putAllGrowing grow ht0 cs=.ok ht) ∧ ht.size=ht0.size ∧
      (LawfulKeys hash test → (∀ c∈cs,c.key≠invalidPtr) → KeyedMap.Distinct Cell.key test cs →
        (entries ht.cells).Perm cs ∧ hashTableCount ht=cs.length ∧
        ∀ c∈cs,hashTableGetPair ht c.key=.ok (some c))) ∧
    (∀ cs ht,putAll ht0 cs=.ok ht → ∃ i,i<ht.size ∧ occ ht.cells i=false) ∧
    (LawfulKeys hash test → ∀ ops : List Op,(∀ op∈ops,op.valid) → ∀ ht answers,
      runOps ht0 ops=.ok (ht,answers) → ∃ i,i<ht.size ∧ occ ht.cells i=false)

theorem Sound.exists_empty {ht : HashTable} {m : List Cell} (h : Sound ht m) :
    ∃ i,i<ht.size ∧ occ ht.cells i=false := by
  have hlt := h.entries_lt
  rw [← h.probed.length] at hlt ⊢
  exact Hash.exists_empty ht.cells hlt

/-- The threshold of a table made for some items, of 0.75 rounded twice, is not below them. -/
theorem hashTableNew_roomy (hash : Ptr → BitVec 64) (test : Ptr → Ptr → Bool) (items : Int)
    (h0 : 0 ≤ items) (ht : HashTable) (hnew : hashTableNew items hash test=.ok ht) :
    Roomy ht ∧ ht.count=0 ∧ items ≤ ht.resizeThreshold := by
  obtain ⟨i,p,hget,hge,_,rfl⟩ := hashTableNew_returns items hash test ht hnew
  have hp := primes_ge p (List.mem_of_getElem? hget)
  have hdiv : initialSize items=(3+4*items)/3 := Int.tdiv_eq_ediv_of_nonneg (by omega)
  refine ⟨⟨List.length_replicate,by simp [entries_replicate],rfl,Nat.zero_le _,hp⟩,rfl,?_⟩
  simp only [threshold]
  omega

theorem holdsItems_of_new (hash : Ptr → BitVec 64) (test : Ptr → Ptr → Bool) (items : Int)
    (h0 : 0 ≤ items) (ht0 : HashTable) (hnew : hashTableNew items hash test=.ok ht0) :
    HoldsItems hash test items := by
  obtain ⟨hroomy,hzero,hitems⟩ := hashTableNew_roomy hash test items h0 ht0 hnew
  refine ⟨ht0,hnew,?_,fun cs ht hrun => (hroomy.putAll cs ht hrun).exists_empty,?_⟩
  · intro cs hlen
    obtain ⟨ht,hrun,hsize⟩ := hroomy.putAll_within cs (by omega)
    refine ⟨ht,hrun,hsize,?_⟩
    intro law hkeys hd
    obtain ⟨htest,hs0⟩ := hashTableNew_sound law items ht0 hnew
    obtain ⟨m,hs,hm,htest'⟩ := hs0.putAll_distinct cs hkeys (htest.symm ▸ hd) ht (hrun _)
    rw [List.nil_append] at hm
    refine ⟨hs.bindings.trans hm,hs.counted.trans hm.length_eq,?_⟩
    intro c hc
    rw [hs.getPair,KeyedMap.lookup_eq_some hs.law.toLawful hs.distinct (hm.mem_iff.mpr hc)
      (hs.law.refl c.key)]
  · intro law ops hops ht answers hrun
    obtain ⟨m,hs⟩ := runOps_reached ops hops ht0 ht [] answers
      (hashTableNew_sound law items ht0 hnew).2 hrun
    exact hs.exists_empty

/-- A table made for some items holds them without growing just when xmalloc can be asked for
its cells: the size of 83080508 items is rounded up to the last prime whose cells are fewer
than 2^31 bytes. -/
theorem hash_table_new_holds_items_iff (hash : Ptr → BitVec 64) (test : Ptr → Ptr → Bool)
    (items : Int) (h0 : 0 ≤ items) : HoldsItems hash test items ↔ items ≤ 83080508 := by
  have hdiv : initialSize items=(3+4*items)/3 := Int.tdiv_eq_ediv_of_nonneg (by omega)
  constructor
  · rintro ⟨ht0,hnew,_⟩
    obtain ⟨i,p,hget,hge,hfit,_⟩ := hashTableNew_returns items hash test ht0 hnew
    have hle := (primes_fit p (List.mem_of_getElem? hget)).mp hfit
    rw [largestSize] at hle
    omega
  · intro hle
    obtain ⟨ht0,hnew⟩ := hashTableNew_ends items hash test (by rw [hdiv,intMin]; omega)
      (by rw [hdiv,largestSize]; omega)
    exact holdsItems_of_new hash test items h0 ht0 hnew

/-- Nine keys that collide modulo 13, in a table made for nine. -/
theorem hash_table_new_holds_nine : HoldsItems id (fun a b => a==b) 9 :=
  (hash_table_new_holds_items_iff id (fun a b => a==b) 9 (by decide)).mpr (by decide)

/-- One item more than that: the size is in the table of primes, and xmalloc aborts. -/
theorem hash_table_new_aborts :
    initialSize 83080509 ≤ intMax ∧
      hashTableNew 83080509 id (fun a b => a==b)=.error .aborted ∧
      ¬∀ (hash : Ptr → BitVec 64) (test : Ptr → Ptr → Bool) (items : Int),0 ≤ items →
        initialSize items ≤ intMax → HoldsItems hash test items := by
  have habort : hashTableNew 83080509 id (fun a b => a==b)=.error .aborted := by rfl
  refine ⟨by decide,habort,?_⟩
  intro h
  obtain ⟨ht0,hnew,_⟩ := h id (fun a b => a==b) 83080509 (by decide) (by decide)
  rw [habort] at hnew
  cases hnew

end IdearNiu.Hash
