import IdearNiu.Framework.KeyedMap
import IdearNiu.Hash.Table

namespace IdearNiu.Hash

open Cyclic

/-- A call that returns ran every one of its parts to its end. -/
theorem bind_eq_ok {α β : Type} (x : Except Fault α) (f : α → Except Fault β) (b : β) :
    x >>= f=.ok b ↔ ∃ a,x=.ok a ∧ f a=.ok b := by
  cases x with
  | error e =>
    refine iff_of_false (fun h => by cases h) ?_
    rintro ⟨a,ha,_⟩
    cases ha
  | ok a =>
    constructor
    · intro h
      exact ⟨a,rfl,h⟩
    · rintro ⟨a',ha,h⟩
      cases ha
      exact h

def occ (cells : List Cell) (i : Nat) : Bool := occupied (cellAt cells i)

theorem occupied_cellAt (cells : List Cell) (i : Nat) :
    occupied (cellAt cells i)=occ cells i := by rw [occ]

/-- The bindings in the order of the array. -/
def entries (cells : List Cell) : List Cell := cells.filter occupied

theorem cellAt_eq (cells : List Cell) (i : Nat) (hi : i<cells.length) :
    cellAt cells i=cells[i] := by
  simp [cellAt,List.getD,hi]

theorem cellAt_set_self (cells : List Cell) (i : Nat) (c : Cell) (hi : i<cells.length) :
    cellAt (cells.set i c) i=c := by
  simp [cellAt,List.getD,hi]

theorem cellAt_set_ne (cells : List Cell) (i j : Nat) (c : Cell) (h : i≠j) :
    cellAt (cells.set i c) j=cellAt cells j := by
  simp [cellAt,List.getD,h]

theorem occ_set_ne (cells : List Cell) (i j : Nat) (c : Cell) (h : i≠j) :
    occ (cells.set i c) j=occ cells j := by
  rw [occ,cellAt_set_ne cells i j c h,occ]

theorem cellAt_mem_entries (cells : List Cell) (i : Nat) (hi : i<cells.length)
    (h : occ cells i=true) : cellAt cells i∈entries cells := by
  apply List.mem_filter.mpr
  refine ⟨?_,h⟩
  rw [cellAt_eq cells i hi]
  exact List.getElem_mem hi

theorem mem_entries (cells : List Cell) (c : Cell) (h : c∈entries cells) :
    ∃ i,i<cells.length ∧ occ cells i=true ∧ cellAt cells i=c := by
  have hm := List.mem_filter.mp h
  obtain ⟨i,hi,he⟩ := List.getElem_of_mem hm.1
  refine ⟨i,hi,?_,(cellAt_eq cells i hi).trans he⟩
  rw [occ,cellAt_eq cells i hi,he]
  exact hm.2

/-- Fewer bindings than cells leave an empty cell. -/
theorem exists_empty (cells : List Cell) (h : (entries cells).length<cells.length) :
    ∃ e,e<cells.length ∧ occ cells e=false := by
  by_contra bad
  have full : ∀ c∈cells,occupied c=true := by
    intro c hc
    obtain ⟨i,hi,he⟩ := List.getElem_of_mem hc
    by_contra ho
    exact bad ⟨i,hi,by rw [occ,cellAt_eq cells i hi,he]; simpa using ho⟩
  have : entries cells=cells := List.filter_eq_self.mpr full
  rw [this] at h
  exact lt_irrefl _ h

/-- Writing a binding into an empty cell adds it. -/
theorem entries_fill (cells : List Cell) (i : Nat) (c : Cell) (hi : i<cells.length)
    (he : occ cells i=false) (hc : occupied c=true) :
    (entries (cells.set i c)).Perm (c::entries cells) := by
  have h := (KeyedMap.set_perm hi c).filter occupied
  rw [occ,cellAt_eq cells i hi] at he
  simpa [entries,List.filter_cons,he,hc] using h

/-- Overwriting an occupied cell exchanges its binding. -/
theorem entries_replace (cells : List Cell) (i : Nat) (c : Cell) (hi : i<cells.length)
    (he : occ cells i=true) (hc : occupied c=true) :
    (cellAt cells i::entries (cells.set i c)).Perm (c::entries cells) := by
  have h := (KeyedMap.set_perm hi c).filter occupied
  rw [occ,cellAt_eq cells i hi] at he
  rw [cellAt_eq cells i hi]
  simpa [entries,List.filter_cons,he,hc] using h

theorem occupied_cleared (c : Cell) : occupied { c with key := invalidPtr }=false := by
  simp [occupied]

theorem length_clearCell (cells : List Cell) (i : Nat) :
    (clearCell cells i).length=cells.length := by
  simp [clearCell]

theorem occ_clearCell_self (cells : List Cell) (i : Nat) (hi : i<cells.length) :
    occ (clearCell cells i) i=false := by
  rw [occ,clearCell,cellAt_set_self cells i _ hi,occupied_cleared]

theorem cellAt_clearCell_ne (cells : List Cell) (i j : Nat) (h : i≠j) :
    cellAt (clearCell cells i) j=cellAt cells j :=
  cellAt_set_ne cells i j _ h

theorem occ_clearCell_ne (cells : List Cell) (i j : Nat) (h : i≠j) :
    occ (clearCell cells i) j=occ cells j := by
  rw [occ,cellAt_clearCell_ne cells i j h,occ]

/-- Clearing an occupied cell removes its binding. -/
theorem entries_clear (cells : List Cell) (i : Nat) (hi : i<cells.length)
    (he : occ cells i=true) :
    (cellAt cells i::entries (clearCell cells i)).Perm (entries cells) := by
  have h := (KeyedMap.set_perm hi { cellAt cells i with key := invalidPtr }).filter occupied
  have hf := occupied_cleared (cellAt cells i)
  rw [occ,cellAt_eq cells i hi] at he
  rw [cellAt_eq cells i hi] at h hf ⊢
  simpa [entries,clearCell,cellAt_eq cells i hi,List.filter_cons,he,hf] using h

/-- The loop stops at the first cell, in cyclic order, that is empty or leaves it. -/
theorem foreachOccupiedAdjacent_spec (cells : List Cell) (n : Nat) (leave : Cell → Bool)
    (e : Nat) (he : e<n) (hempty : occ cells e=false) (fuel c : Nat) (hc : c<n)
    (hf : dist n c e<fuel) :
    ∃ x,x<n ∧ foreachOccupiedAdjacent cells n leave fuel c=.ok x ∧
      (occ cells x=true → leave (cellAt cells x)=true) ∧
      ∀ y,y<n → dist n c y<dist n c x → occ cells y=true ∧ leave (cellAt cells y)=false := by
  induction fuel generalizing c with
  | zero => omega
  | succ fuel ih =>
    rw [foreachOccupiedAdjacent]
    by_cases ho : occupied (cellAt cells c)=true
    · by_cases hl : leave (cellAt cells c)=true
      · refine ⟨c,hc,by rw [if_pos ho,if_pos hl],fun _ => hl,?_⟩
        intro y hy hd
        rw [dist_self] at hd
        omega
      · have hne : c≠e := by
          intro h
          subst h
          simp [occ,ho] at hempty
        have hstep := dist_next_left n c e hc he hne
        have hn := (next_spec n c hc).1
        obtain ⟨x,hx,hrun,hstop,hbefore⟩ := ih (next n c) hn (by omega)
        refine ⟨x,hx,by rw [if_pos ho,if_neg hl,hrun],hstop,?_⟩
        intro y hy hd
        by_cases hcy : c=y
        · subst hcy
          exact ⟨ho,by simpa using hl⟩
        · apply hbefore y hy
          have sy := dist_next_left n c y hc hy hcy
          by_cases hcx : c=x
          · subst hcx
            rw [dist_self] at hd
            omega
          · have sx := dist_next_left n c x hc hx hcx
            omega
    · refine ⟨c,hc,by rw [if_neg ho],fun h => absurd h ho,?_⟩
      intro y hy hd
      rw [dist_self] at hd
      omega

/-- What the callbacks promise: test is an equivalence and equal keys hash equally. -/
structure LawfulKeys (hash : Ptr → BitVec 64) (test : Ptr → Ptr → Bool) : Prop
    extends KeyedMap.Lawful test where
  hash_eq : ∀ a b,test a b=true → hash a=hash b

/-- No empty cell stands between the home slot of a key and its cell, cyclically,
and no two cells hold equal keys. -/
structure Probed (hash : Ptr → BitVec 64) (test : Ptr → Ptr → Bool)
    (cells : List Cell) (n : Nat) : Prop where
  length : cells.length=n
  pos : 0<n
  reach : ∀ i,i<n → occ cells i=true → ∀ x,x<n →
    dist n (hashPosition hash n (cellAt cells i).key) x<
      dist n (hashPosition hash n (cellAt cells i).key) i → occ cells x=true
  distinct : ∀ i j,i<n → j<n → occ cells i=true → occ cells j=true →
    test (cellAt cells i).key (cellAt cells j).key=true → i=j

theorem hashPosition_lt (hash : Ptr → BitVec 64) (n : Nat) (key : Ptr) (hn : 0<n) :
    hashPosition hash n key<n := Nat.mod_lt _ hn

theorem occ_replicate (n i : Nat) : occ (List.replicate n emptyCell) i=false := by
  by_cases h : i<n <;> simp [occ,cellAt,List.getD,h,occupied,emptyCell]

theorem entries_replicate (n : Nat) : entries (List.replicate n emptyCell)=[] := by
  apply List.filter_eq_nil_iff.mpr
  intro c hc
  rw [List.eq_of_mem_replicate hc]
  simp [occupied,emptyCell]

section

variable {hash : Ptr → BitVec 64} {test : Ptr → Ptr → Bool} {cells : List Cell} {n : Nat}

theorem Probed.replicate (hn : 0<n) : Probed hash test (List.replicate n emptyCell) n where
  length := by simp
  pos := hn
  reach := by intro i _ ho; simp [occ_replicate] at ho
  distinct := by intro i j _ _ ho; simp [occ_replicate] at ho

theorem Probed.entries_distinct (h : Probed hash test cells n) :
    KeyedMap.Distinct Cell.key test (entries cells) := by
  have hp : cells.Pairwise (fun a b => occupied a=true → occupied b=true →
      test a.key b.key=false) := by
    rw [List.pairwise_iff_getElem]
    intro i j hi hj hij ha hb
    by_contra bad
    have := h.distinct i j (h.length ▸ hi) (h.length ▸ hj)
      (by rw [occ,cellAt_eq cells i hi]; exact ha)
      (by rw [occ,cellAt_eq cells j hj]; exact hb)
      (by rw [cellAt_eq cells i hi,cellAt_eq cells j hj]; simpa using bad)
    omega
  exact (List.pairwise_filter.mpr (hp.imp (fun hab ha hb => hab ha hb)))

/-- find_cell ends at the cell of an equal key, or at the empty cell where the key
belongs when no cell has one. -/
theorem Probed.find (law : LawfulKeys hash test) (h : Probed hash test cells n)
    (hroom : (entries cells).length<n) (key : Ptr) :
    ∃ x,x<n ∧ foreachOccupiedAdjacent cells n (fun c => test key c.key) n
        (hashPosition hash n key)=.ok x ∧
      ((occ cells x=true ∧ test key (cellAt cells x).key=true) ∨
       (occ cells x=false ∧
        (∀ i,i<n → occ cells i=true → test key (cellAt cells i).key=false) ∧
        ∀ y,y<n → dist n (hashPosition hash n key) y<dist n (hashPosition hash n key) x →
          occ cells y=true)) := by
  obtain ⟨e,he,hempty⟩ := exists_empty cells (by rw [h.length]; exact hroom)
  rw [h.length] at he
  have hs := hashPosition_lt hash n key h.pos
  obtain ⟨x,hx,hrun,hstop,hbefore⟩ := foreachOccupiedAdjacent_spec cells n
    (fun c => test key c.key) e he hempty n _ hs (dist_spec n _ e hs he).1
  refine ⟨x,hx,hrun,?_⟩
  by_cases ho : occ cells x=true
  · exact Or.inl ⟨ho,hstop ho⟩
  · have ho' : occ cells x=false := by simpa using ho
    refine Or.inr ⟨ho',?_,fun y hy hd => (hbefore y hy hd).1⟩
    intro i hi hoi
    by_contra bad
    have ht : test key (cellAt cells i).key=true := by simpa using bad
    -- an equal key has the same home, so its path contains the empty cell x
    have hhome : hashPosition hash n (cellAt cells i).key=hashPosition hash n key := by
      rw [hashPosition,hashPosition,law.hash_eq key _ ht]
    have hpath := h.reach i hi hoi
    rw [hhome] at hpath
    rcases Nat.lt_trichotomy (dist n (hashPosition hash n key) i)
      (dist n (hashPosition hash n key) x) with hlt|heq|hgt
    · have := (hbefore i hi hlt).2
      simp [ht] at this
    · have := dist_inj n _ i x hs hi hx heq
      subst this
      exact ho hoi
    · exact ho (hpath x hx hgt)

/-- A new binding in the first empty cell behind its home slot. -/
theorem Probed.fill (law : LawfulKeys hash test) (h : Probed hash test cells n) (x : Nat)
    (c : Cell) (hx : x<n) (hc : occupied c=true)
    (hfresh : ∀ i,i<n → occ cells i=true → test c.key (cellAt cells i).key=false)
    (hpath : ∀ y,y<n → dist n (hashPosition hash n c.key) y<
      dist n (hashPosition hash n c.key) x → occ cells y=true) :
    Probed hash test (cells.set x c) n := by
  have hl : x<cells.length := by rw [h.length]; exact hx
  have hself := cellAt_set_self cells x c hl
  have grow : ∀ y,occ cells y=true → occ (cells.set x c) y=true := by
    intro y hy
    by_cases he : x=y
    · subst he
      rw [occ,hself]
      exact hc
    · rw [occ_set_ne cells x y c he]
      exact hy
  refine ⟨by simp [h.length],h.pos,?_,?_⟩
  · intro i hi ho y hy hd
    by_cases he : x=i
    · subst he
      rw [hself] at hd
      exact grow y (hpath y hy hd)
    · rw [occ_set_ne cells x i c he] at ho
      rw [cellAt_set_ne cells x i c he] at hd
      exact grow y (h.reach i hi ho y hy hd)
  · intro i j hi hj hoi hoj ht
    by_cases hei : x=i <;> by_cases hej : x=j
    · omega
    · subst hei
      rw [hself,cellAt_set_ne cells x j c hej] at ht
      rw [occ_set_ne cells x j c hej] at hoj
      simp [hfresh j hj hoj] at ht
    · subst hej
      rw [hself,cellAt_set_ne cells x i c hei] at ht
      rw [occ_set_ne cells x i c hei] at hoi
      have := law.symm _ _ ht
      simp [hfresh i hi hoi] at this
    · rw [cellAt_set_ne cells x i c hei,cellAt_set_ne cells x j c hej] at ht
      rw [occ_set_ne cells x i c hei] at hoi
      rw [occ_set_ne cells x j c hej] at hoj
      exact h.distinct i j hi hj hoi hoj ht

/-- An equal key takes over the cell, with the key it is stored under. -/
theorem Probed.replace (law : LawfulKeys hash test) (h : Probed hash test cells n) (x : Nat)
    (c : Cell) (hx : x<n) (ho : occ cells x=true) (hc : occupied c=true)
    (ht : test c.key (cellAt cells x).key=true) :
    Probed hash test (cells.set x c) n := by
  have hl : x<cells.length := by rw [h.length]; exact hx
  have hself := cellAt_set_self cells x c hl
  have same : ∀ y,occ (cells.set x c) y=occ cells y := by
    intro y
    by_cases he : x=y
    · subst he
      rw [ho,occ,hself,hc]
    · exact occ_set_ne cells x y c he
  have test_right : ∀ i,i<n → occ cells i=true → test c.key (cellAt cells i).key=true →
      x=i := by
    intro i hi hoi hti
    exact h.distinct x i hx hi ho hoi (law.trans _ _ _ (law.symm _ _ ht) hti)
  refine ⟨by simp [h.length],h.pos,?_,?_⟩
  · intro i hi hoi y hy hd
    rw [same] at hoi ⊢
    by_cases he : x=i
    · subst he
      rw [hself,hashPosition,law.hash_eq _ _ ht] at hd
      exact h.reach x hx ho y hy hd
    · rw [cellAt_set_ne cells x i c he] at hd
      exact h.reach i hi hoi y hy hd
  · intro i j hi hj hoi hoj hij
    rw [same] at hoi hoj
    by_cases hei : x=i <;> by_cases hej : x=j
    · omega
    · subst hei
      rw [hself,cellAt_set_ne cells x j c hej] at hij
      exact test_right j hj hoj hij
    · subst hej
      rw [hself,cellAt_set_ne cells x i c hei] at hij
      exact (test_right i hi hoi (law.symm _ _ hij)).symm
    · rw [cellAt_set_ne cells x i c hei,cellAt_set_ne cells x j c hej] at hij
      exact h.distinct i j hi hj hoi hoj hij

end

end IdearNiu.Hash
