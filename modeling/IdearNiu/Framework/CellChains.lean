import Mathlib.Tactic

namespace IdearNiu.CellChains

/-- A place that holds a pointer to a node: in the head of a list or in a node. -/
inductive Cell (Head Node : Type) where
  | first (h : Head)
  | next (n : Node)
  deriving DecidableEq

/-- What every cell points to, and the cell that each node remembers. -/
@[ext] structure Cells (Head Node : Type) where
  cell : Cell Head Node → Option Node
  pprev : Node → Option (Cell Head Node)

section

variable {Head Node : Type}

theorem first_ne_next (h : Head) (n : Node) : (.first h : Cell Head Node)≠.next n :=
  fun e => by cases e

/-- The nodes after a cell, each pointed to by the one before and remembering where. -/
def Segment (k : Cells Head Node) : Cell Head Node → List Node → Prop
  | _,[] => True
  | c,n::s => k.cell c=some n ∧ k.pprev n=some c ∧ Segment k (.next n) s

/-- The cell after the last of the nodes. -/
def endCell : Cell Head Node → List Node → Cell Head Node
  | c,[] => c
  | _,n::s => endCell (.next n) s

/-- All the nodes after a cell. -/
def Chain (k : Cells Head Node) (c : Cell Head Node) (s : List Node) : Prop :=
  Segment k c s ∧ k.cell (endCell c s)=none

theorem segment_append (k : Cells Head Node) (c : Cell Head Node) (s t : List Node) :
    Segment k c (s++t) ↔ Segment k c s ∧ Segment k (endCell c s) t := by
  induction s generalizing c with
  | nil => simp [Segment,endCell]
  | cons n s ih =>
    simp only [List.cons_append,Segment,endCell,ih]
    tauto

theorem endCell_append (c : Cell Head Node) (s t : List Node) :
    endCell c (s++t)=endCell (endCell c s) t := by
  induction s generalizing c with
  | nil => rfl
  | cons n s ih => exact ih (.next n)

theorem chain_append (k : Cells Head Node) (c : Cell Head Node) (s t : List Node) :
    Chain k c (s++t) ↔ Segment k c s ∧ Chain k (endCell c s) t := by
  simp only [Chain,segment_append,endCell_append]
  tauto

theorem chain_cons (k : Cells Head Node) (c : Cell Head Node) (n : Node) (s : List Node) :
    Chain k c (n::s) ↔ k.cell c=some n ∧ k.pprev n=some c ∧ Chain k (.next n) s := by
  simp only [Chain,Segment,endCell]
  tauto

theorem endCell_mem (c : Cell Head Node) (s : List Node) :
    endCell c s=c ∨ ∃ m∈s,endCell c s=.next m := by
  induction s generalizing c with
  | nil => exact Or.inl rfl
  | cons n s ih =>
    right
    rcases ih (.next n) with h|⟨m,hm,h⟩
    · exact ⟨n,List.mem_cons_self,h⟩
    · exact ⟨m,List.mem_cons_of_mem n hm,h⟩

/-- The first cell of a chain points to its first node. -/
theorem chain_head (k : Cells Head Node) (c : Cell Head Node) (s : List Node)
    (h : Chain k c s) : k.cell c=s.head? := by
  cases s with
  | nil => exact h.2
  | cons n s => exact ((chain_cons k c n s).mp h).1

/-- A chain depends on its first cell and on its nodes. -/
theorem chain_frame (k k' : Cells Head Node) (c : Cell Head Node) (s : List Node)
    (h : Chain k c s) (hc : k'.cell c=k.cell c)
    (hs : ∀ m∈s,k'.cell (.next m)=k.cell (.next m) ∧ k'.pprev m=k.pprev m) : Chain k' c s := by
  induction s generalizing c with
  | nil =>
    refine ⟨trivial,?_⟩
    rw [endCell,hc]
    exact h.2
  | cons n s ih =>
    obtain ⟨h1,h2,h3⟩ := (chain_cons k c n s).mp h
    obtain ⟨hn,hp⟩ := hs n List.mem_cons_self
    rw [chain_cons,hc,hp]
    exact ⟨h1,h2,ih (.next n) h3 hn (fun m hm => hs m (List.mem_cons_of_mem n hm))⟩

/-- A node of a chain is remembered by the cell that points to it. -/
theorem chain_pprev (k : Cells Head Node) (c : Cell Head Node) (s t : List Node) (n : Node)
    (h : Chain k c (s++n::t)) :
    k.pprev n=some (endCell c s) ∧ k.cell (endCell c s)=some n ∧ k.cell (.next n)=t.head? := by
  obtain ⟨h1,h2,h3⟩ := (chain_cons k _ n t).mp ((chain_append k c s (n::t)).mp h).2
  exact ⟨h2,h1,chain_head k (.next n) t h3⟩

end

section

variable {Head Node : Type} [DecidableEq Head] [DecidableEq Node]

def setCell (k : Cells Head Node) (c : Cell Head Node) (v : Option Node) : Cells Head Node :=
  ⟨Function.update k.cell c v,k.pprev⟩

def setPprev (k : Cells Head Node) (n : Node) (v : Option (Cell Head Node)) :
    Cells Head Node :=
  ⟨k.cell,Function.update k.pprev n v⟩

/-- The write of a pprev field through a pointer that may be null. -/
def setPprevOf (k : Cells Head Node) (n : Option Node) (v : Option (Cell Head Node)) :
    Cells Head Node :=
  match n with
  | none => k
  | some n => setPprev k n v

/-- Put a node between a cell and what it points to. -/
def insertAt (k : Cells Head Node) (c : Cell Head Node) (n : Node) : Cells Head Node :=
  let old := k.cell c
  let k := setCell k (.next n) old
  let k := setPprevOf k old (some (.next n))
  let k := setCell k c (some n)
  setPprev k n (some c)

/-- Let a cell point past the node it points to. -/
def removeAt (k : Cells Head Node) (c : Cell Head Node) (n : Node) : Cells Head Node :=
  let next := k.cell (.next n)
  setPprevOf (setCell k c next) next (some c)

omit [DecidableEq Head] in
theorem setPprevOf_cell (k : Cells Head Node) (n : Option Node)
    (v : Option (Cell Head Node)) : (setPprevOf k n v).cell=k.cell := by
  cases n <;> rfl

omit [DecidableEq Head] in
theorem setPprevOf_pprev (k : Cells Head Node) (n : Option Node) (v : Option (Cell Head Node))
    (m : Node) : (setPprevOf k n v).pprev m=if n=some m then v else k.pprev m := by
  cases n with
  | none => simp [setPprevOf]
  | some n =>
    simp only [setPprevOf,setPprev,Function.update_apply,Option.some.injEq]
    by_cases h : m=n
    · rw [if_pos h,if_pos h.symm]
    · rw [if_neg h,if_neg (Ne.symm h)]

theorem insertAt_cell (k : Cells Head Node) (c d : Cell Head Node) (n : Node) :
    (insertAt k c n).cell d=
      if d=c then some n else if d=.next n then k.cell c else k.cell d := by
  simp only [insertAt,setPprev,setCell,setPprevOf_cell,Function.update_apply]

theorem insertAt_pprev (k : Cells Head Node) (c : Cell Head Node) (n m : Node) :
    (insertAt k c n).pprev m=
      if m=n then some c else if k.cell c=some m then some (.next n) else k.pprev m := by
  simp only [insertAt,setPprev,setCell,Function.update_apply,setPprevOf_pprev]

theorem removeAt_cell (k : Cells Head Node) (c d : Cell Head Node) (n : Node) :
    (removeAt k c n).cell d=if d=c then k.cell (.next n) else k.cell d := by
  simp only [removeAt,setCell,setPprevOf_cell,Function.update_apply]

theorem removeAt_pprev (k : Cells Head Node) (c : Cell Head Node) (n m : Node) :
    (removeAt k c n).pprev m=if k.cell (.next n)=some m then some c else k.pprev m := by
  simp only [removeAt,setCell,setPprevOf_pprev]

/-- The chain of a cell with a new node put into it. -/
theorem chain_insert (k : Cells Head Node) (c : Cell Head Node) (s t : List Node) (n : Node)
    (h : Chain k c (s++t)) (hnd : (s++t).Nodup) (hc : ∀ m∈s++t,c≠.next m) (hn : n∉s++t)
    (hcn : c≠.next n) : Chain (insertAt k (endCell c s) n) c (s++n::t) := by
  induction s generalizing c with
  | nil =>
    rw [List.nil_append] at h hnd hc hn
    have hhead := chain_head k c t h
    rw [List.nil_append,chain_cons,endCell,insertAt_cell,insertAt_pprev,if_pos rfl,if_pos rfl]
    refine ⟨rfl,rfl,?_⟩
    cases t with
    | nil =>
      refine ⟨trivial,?_⟩
      rw [endCell,insertAt_cell,if_neg (Ne.symm hcn),if_pos rfl]
      exact hhead
    | cons m t =>
      obtain ⟨h1,h2,h3⟩ := (chain_cons k c m t).mp h
      rw [chain_cons,insertAt_cell,insertAt_pprev,if_neg (Ne.symm hcn),if_pos rfl,
        if_neg (ne_of_mem_of_not_mem List.mem_cons_self hn),if_pos h1]
      refine ⟨h1,rfl,?_⟩
      have hkeep : ∀ x∈m::t,(insertAt k c n).cell (.next x)=k.cell (.next x) := by
        intro x hx
        rw [insertAt_cell,if_neg (Ne.symm (hc x hx)),
          if_neg (by rw [Cell.next.injEq]; exact ne_of_mem_of_not_mem hx hn)]
      apply chain_frame k _ _ t h3 (hkeep m List.mem_cons_self)
      intro x hx
      refine ⟨hkeep x (List.mem_cons_of_mem m hx),?_⟩
      rw [insertAt_pprev,if_neg (ne_of_mem_of_not_mem (List.mem_cons_of_mem m hx) hn),if_neg]
      rw [h1,Option.some.injEq]
      intro heq
      subst heq
      exact (List.nodup_cons.mp hnd).1 hx
  | cons x s ih =>
    rw [List.cons_append] at h hnd hc hn
    obtain ⟨h1,h2,h3⟩ := (chain_cons k c x (s++t)).mp h
    have hx := List.nodup_cons.mp hnd
    have hend := endCell_mem (.next x : Cell Head Node) s
    have hne : c≠endCell (.next x) s := by
      rcases hend with he|⟨m,hm,he⟩
      · rw [he]
        exact hc x List.mem_cons_self
      · rw [he]
        exact hc m (List.mem_cons_of_mem x (List.mem_append_left t hm))
    have hhead := chain_head k _ t ((chain_append k _ s t).mp h3).2
    rw [List.cons_append,chain_cons,endCell,insertAt_cell,insertAt_pprev,if_neg hne,if_neg hcn,
      if_neg (ne_of_mem_of_not_mem List.mem_cons_self hn),if_neg]
    · refine ⟨h1,h2,?_⟩
      apply ih (.next x) h3 hx.2
      · intro m hm e
        rw [Cell.next.injEq] at e
        exact hx.1 (e ▸ hm)
      · exact fun hm => hn (List.mem_cons_of_mem x hm)
      · rw [ne_eq,Cell.next.injEq]
        exact fun e => hn (e ▸ List.mem_cons_self)
    · rw [hhead]
      intro he
      exact hx.1 (List.mem_append_right s (List.mem_of_head? he))

/-- The chain of a cell with one of its nodes taken out. -/
theorem chain_remove (k : Cells Head Node) (c : Cell Head Node) (s t : List Node) (n : Node)
    (h : Chain k c (s++n::t)) (hnd : (s++n::t).Nodup) (hc : ∀ m∈s++n::t,c≠.next m) :
    Chain (removeAt k (endCell c s) n) c (s++t) := by
  induction s generalizing c with
  | nil =>
    rw [List.nil_append] at h hnd hc
    obtain ⟨h1,h2,h3⟩ := (chain_cons k c n t).mp h
    rw [List.nil_append,endCell]
    cases t with
    | nil =>
      refine ⟨trivial,?_⟩
      rw [endCell,removeAt_cell,if_pos rfl]
      exact h3.2
    | cons m t =>
      obtain ⟨h4,h5,h6⟩ := (chain_cons k _ m t).mp h3
      have hm := List.nodup_cons.mp (List.nodup_cons.mp hnd).2
      have hkeep : ∀ x∈m::t,(removeAt k c n).cell (.next x)=k.cell (.next x) := by
        intro x hx
        rw [removeAt_cell,if_neg (Ne.symm (hc x (List.mem_cons_of_mem n hx)))]
      rw [chain_cons,removeAt_cell,removeAt_pprev,if_pos rfl,if_pos h4]
      refine ⟨h4,rfl,?_⟩
      apply chain_frame k _ _ t h6 (hkeep m List.mem_cons_self)
      intro x hx
      refine ⟨hkeep x (List.mem_cons_of_mem m hx),?_⟩
      rw [removeAt_pprev,if_neg]
      rw [h4,Option.some.injEq]
      intro heq
      subst heq
      exact hm.1 hx
  | cons x s ih =>
    rw [List.cons_append] at h hnd hc
    obtain ⟨h1,h2,h3⟩ := (chain_cons k c x (s++n::t)).mp h
    have hx := List.nodup_cons.mp hnd
    have hne : c≠endCell (.next x) s := by
      rcases endCell_mem (.next x : Cell Head Node) s with he|⟨m,hm,he⟩
      · rw [he]
        exact hc x List.mem_cons_self
      · rw [he]
        exact hc m (List.mem_cons_of_mem x (List.mem_append_left _ hm))
    have hnext := (chain_pprev k _ s t n h3).2.2
    rw [List.cons_append,chain_cons,endCell,removeAt_cell,removeAt_pprev,if_neg hne,if_neg]
    · refine ⟨h1,h2,?_⟩
      apply ih (.next x) h3 hx.2
      intro m hm e
      rw [Cell.next.injEq] at e
      exact hx.1 (e ▸ hm)
    · rw [hnext]
      intro he
      exact hx.1 (List.mem_append_right s (List.mem_cons_of_mem n (List.mem_of_head? he)))

end

end IdearNiu.CellChains
