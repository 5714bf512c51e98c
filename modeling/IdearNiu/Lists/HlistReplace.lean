import IdearNiu.Lists.HlistRuns

set_option linter.style.nameCheck false

namespace IdearNiu.Hlist

open CellChains

variable {Head Node : Type} [DecidableEq Head] [DecidableEq Node]

/-- The next field of the new node is set to the node itself. -/
def hlistReplaceRcu (k : Heap Head Node) (old new : Node) : Option (Heap Head Node) := do
  let next := k.cell (.next old)
  let k := setCell k (.next new) (some new)
  let k := setPprev k new (k.pprev old)
  let k := if next.isSome then setPprevOf k (k.cell (.next new)) (some (.next new)) else k
  let k ← store k (k.pprev new) (some new)
  return setPprev k old none

/-- A traversal that deletes nothing ends. -/
def TraversalEnds (k : Heap Head Node) (h : Head) : Prop :=
  ∃ fuel,(hlistForEachSafe (fun _ => false) fuel k (k.cell (.first h))).isSome=true

/-- The list of a head after a replacement that went well. -/
structure Replaced (k : Heap Head Node) (h : Head) (s t : List Node) (old new : Node) :
    Prop where
  chain : Chain k (.first h) (s++new::t)
  unhashed : hlistUnhashed k old=true
  ends : TraversalEnds k h

/-- The old node was the last one: its cell points to the new node, which follows itself. -/
theorem hlistReplaceRcu_last (k : Heap Head Node) (old new : Node) (c : Cell Head Node)
    (hp : k.pprev old=some c) (hn : k.cell (.next old)=none) :
    hlistReplaceRcu k old new=
      some (setPprev (setCell (setPprev (setCell k (.next new) (some new)) new (some c)) c
        (some new)) old none) := by
  have hpprev : (setPprev (setCell k (.next new) (some new)) new (some c)).pprev new=some c :=
    Function.update_self new _ _
  simp only [hlistReplaceRcu,hn,Option.isSome_none,Bool.false_eq_true,if_false,setCell,hp]
  simp only [setCell] at hpprev
  rw [hpprev]
  rfl

/-- Another node followed it: the new node refers to its own cell, and nothing of the list is
written but the pprev of the old node. -/
theorem hlistReplaceRcu_inner (k : Heap Head Node) (old new m : Node)
    (hn : k.cell (.next old)=some m) :
    hlistReplaceRcu k old new=
      some (setPprev (setPprev (setCell k (.next new) (some new)) new (some (.next new)))
        old none) := by
  simp only [hlistReplaceRcu,hn,Option.isSome_some,if_true]
  simp only [setPprev,setPprevOf,Function.update_self,store,Option.map_some,setCell,
    Function.update_idem]
  rfl

/-- In both cases the new node follows itself. -/
theorem hlistReplaceRcu_loops (k k' : Heap Head Node) (old new : Node)
    (h : hlistReplaceRcu k old new=some k') : k'.cell (.next new)=some new := by
  cases hn : k.cell (.next old) with
  | none =>
    cases hp : k.pprev old with
    | none =>
      simp [hlistReplaceRcu,hn,hp,setCell,setPprev,store] at h
    | some c =>
      rw [hlistReplaceRcu_last k old new c hp hn,Option.some.injEq] at h
      rw [← h]
      simp only [setPprev,setCell,Function.update_apply]
      split_ifs <;> rfl
  | some m =>
    rw [hlistReplaceRcu_inner k old new m hn,Option.some.injEq] at h
    rw [← h]
    exact Function.update_self (.next new : Cell Head Node) _ _

/-- A replacement that goes well has the new node followed by what followed the old one. -/
theorem not_replaced (k : Heap Head Node) (h : Head) (s t : List Node) (old new : Node)
    (hnext : k.cell (.next new)=some new) (hnew : new∉t) : ¬Replaced k h s t old new := by
  intro hr
  have htail := (chain_pprev k (.first h) s t new hr.chain).2.2
  rw [hnext] at htail
  exact hnew (List.mem_of_head? htail.symm)

/-- Behind the last node the traversal stays at the new one. -/
theorem forEach_loops (k : Heap Head Node) (new : Node) (hnext : k.cell (.next new)=some new)
    (fuel : Nat) : hlistForEachSafe (fun _ => false) fuel k (some new)=none := by
  induction fuel with
  | zero => rfl
  | succ fuel ih => simp [hlistForEachSafe,hnext,ih]

/-- A traversal that reaches the cell of the old node reaches the new one. -/
theorem forEach_reaches (k k' : Heap Head Node) (c : Cell Head Node) (s : List Node)
    (new : Node) (hs : Segment k c s) (hc : ∀ m∈s,c≠.next m) (hnd : s.Nodup)
    (hcell : ∀ d,(d=c ∨ ∃ m∈s,d=.next m) →
      k'.cell d=if d=endCell c s then some new else k.cell d)
    (hnext : k'.cell (.next new)=some new) (fuel : Nat) :
    hlistForEachSafe (fun _ => false) fuel k' (k'.cell c)=none := by
  induction s generalizing c fuel with
  | nil =>
    rw [hcell c (Or.inl rfl),endCell,if_pos rfl]
    exact forEach_loops k' new hnext fuel
  | cons n s ih =>
    obtain ⟨hn,-,hrest⟩ := hs
    obtain ⟨hns,hnd'⟩ := List.nodup_cons.mp hnd
    have hinner : c≠endCell (.next n) s := by
      rcases endCell_mem (.next n : Cell Head Node) s with he|⟨m,hm,he⟩
      · rw [he]
        exact hc n List.mem_cons_self
      · rw [he]
        exact hc m (List.mem_cons_of_mem n hm)
    rw [hcell c (Or.inl rfl),endCell,if_neg hinner,hn]
    cases fuel with
    | zero => rfl
    | succ fuel =>
      have hstep := ih (.next n) hrest
        (fun m hm => by rw [ne_eq,Cell.next.injEq]; exact fun e => hns (e ▸ hm)) hnd'
        (fun d hd => hcell d (Or.inr (by
          rcases hd with rfl|⟨m,hm,rfl⟩
          · exact ⟨n,List.mem_cons_self,rfl⟩
          · exact ⟨m,List.mem_cons_of_mem n hm,rfl⟩))) fuel
      simp [hlistForEachSafe,hstep]

/-- After the replacement of the last node a traversal runs for ever. -/
theorem replaced_last_never_ends (k k' : Heap Head Node) (B : Buckets Head Node) (h : Head)
    (s : List Node) (old new : Node) (hr : Represents k B) (hs : B.seq h=s++[old])
    (hnew : new∉B.seq h) (hrun : hlistReplaceRcu k old new=some k') : ¬TraversalEnds k' h := by
  have hchain := hr.chain h
  have hnd := hr.nodup h
  rw [hs] at hchain hnd hnew
  obtain ⟨hp,-,hn⟩ := chain_pprev k (.first h) s [] old hchain
  have hnext := hlistReplaceRcu_loops k k' old new hrun
  rw [hlistReplaceRcu_last k old new _ hp hn,Option.some.injEq] at hrun
  have hcell (d : Cell Head Node) (hd : d≠.next new) :
      k'.cell d=if d=endCell (.first h) s then some new else k.cell d := by
    rw [← hrun]
    simp only [setPprev,setCell,Function.update_apply,if_neg hd]
  intro hgiven
  obtain ⟨fuel,hends⟩ := hgiven
  have hnone := forEach_reaches k k' (.first h) s new
    ((chain_append k (.first h) s [old]).mp hchain).1 (fun m _ => first_ne_next h m)
    (List.nodup_append.mp hnd).1 (by
      intro d hd
      apply hcell d
      rcases hd with rfl|⟨m,hm,rfl⟩
      · exact first_ne_next h new
      · rw [ne_eq,Cell.next.injEq]
        intro heq
        subst heq
        exact hnew (List.mem_append_left _ hm)) hnext fuel
  rw [hnone] at hends
  cases hends

/-- No replacement goes well: the call returns, and the head does not denote the sequence
with the new node in the place of the old one; behind a last node the traversal never ends. -/
theorem hlist_replace_rcu_never (k : Heap Head Node) (B : Buckets Head Node) (h : Head)
    (s t : List Node) (old new : Node) (hr : Represents k B) (hs : B.seq h=s++old::t)
    (hnew : ∀ a,new∉B.seq a) :
    ∃ k',hlistReplaceRcu k old new=some k' ∧ ¬Replaced k' h s t old new ∧
      (t=[] → ¬TraversalEnds k' h) := by
  have hchain := hr.chain h
  rw [hs] at hchain
  obtain ⟨hp,-,hn⟩ := chain_pprev k (.first h) s t old hchain
  have hout : new∉t := by
    intro hm
    apply hnew h
    rw [hs]
    exact List.mem_append_right s (List.mem_cons_of_mem old hm)
  have hsome : ∃ k',hlistReplaceRcu k old new=some k' := by
    cases t with
    | nil => exact ⟨_,hlistReplaceRcu_last k old new _ hp hn⟩
    | cons m t => exact ⟨_,hlistReplaceRcu_inner k old new m hn⟩
  obtain ⟨k',hrun⟩ := hsome
  refine ⟨k',hrun,not_replaced k' h s t old new (hlistReplaceRcu_loops k k' old new hrun) hout,?_⟩
  intro heq
  subst heq
  exact replaced_last_never_ends k k' B h s old new hr hs (hnew h) hrun

/-- One head with this list, and every other node unhashed. -/
def rowNodes (l : List Nat) : Buckets Nat Nat := ⟨fun h => if h=0 then l else [],fun _ => False⟩

/-- The list as hlist_add_head builds it. -/
def rowHeap : List Nat → Heap Nat Nat
  | [] => ⟨fun _ => none,fun _ => none⟩
  | n::l => insertAt (rowHeap l) (.first 0) n

theorem row_outside {l : List Nat} {n : Nat} (hn : n∉l) (h : Nat) : n∉(rowNodes l).seq h := by
  by_cases h0 : h=0
  · simpa [rowNodes,h0] using hn
  · simp [rowNodes,h0]

theorem rowHeap_represents (l : List Nat) (hl : l.Nodup) :
    Represents (rowHeap l) (rowNodes l) := by
  induction l with
  | nil =>
    have hseq (h : Nat) : (rowNodes []).seq h=[] := by simp [rowNodes]
    refine ⟨?_,?_,?_,fun _ _ hraw => hraw,fun _ _ => rfl⟩
    · intro h
      rw [hseq]
      exact ⟨trivial,rfl⟩
    · intro h
      rw [hseq]
      exact List.nodup_nil
    · intro a b n ha
      rw [hseq] at ha
      cases ha
  | cons n l ih =>
    obtain ⟨hn,hrest⟩ := List.nodup_cons.mp hl
    have hrow := insertAt_represents (rowHeap l) (rowNodes l) (ih hrest) 0 [] l n rfl
      ⟨fun hraw => hraw,row_outside hn⟩
    have hseq : Function.update (rowNodes l).seq 0 ([]++n::l)=(rowNodes (n::l)).seq := by
      funext h
      by_cases h0 : h=0
      · rw [h0,Function.update_self]
        rfl
      · rw [Function.update_of_ne h0]
        simp [rowNodes,h0]
    rw [hseq] at hrow
    exact hrow

/-- The node in the middle of three is replaced. -/
theorem hlist_replace_rcu_never_middle :
    ∃ k',hlistReplaceRcu (rowHeap [1,2,3]) 2 4=some k' ∧ ¬Replaced k' 0 [1] [3] 2 4 ∧
      ([3]=[] → ¬TraversalEnds k' 0) :=
  hlist_replace_rcu_never (rowHeap [1,2,3]) (rowNodes [1,2,3]) 0 [1] [3] 2 4
    (rowHeap_represents [1,2,3] (by decide)) rfl (row_outside (by decide))

/-- The head of the list of node 1 then leads to node 2, which follows itself. -/
theorem hlist_replace_rcu_breaks :
    ¬∀ (k : Heap Nat Nat) (B : Buckets Nat Nat) (h : Nat) (s t : List Nat) (old new : Nat),
      Represents k B → B.seq h=s++old::t → (∀ a,new∉B.seq a) →
      ∃ k',hlistReplaceRcu k old new=some k' ∧ Replaced k' h s t old new := by
  intro hall
  obtain ⟨k',hrun,hgood⟩ := hall (rowHeap [1]) (rowNodes [1]) 0 [] [] 1 2
    (rowHeap_represents [1] (by decide)) rfl (row_outside (by decide))
  exact not_replaced k' 0 [] [] 1 2 (hlistReplaceRcu_loops (rowHeap [1]) k' 1 2 hrun)
    (by simp) hgood

end IdearNiu.Hlist
