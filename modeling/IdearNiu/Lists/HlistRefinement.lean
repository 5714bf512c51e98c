import IdearNiu.Lists.Hlist

set_option linter.style.nameCheck false

namespace IdearNiu.Hlist

open CellChains

/-- The sequence of each head, and the nodes whose fields hold nothing of use yet. -/
structure Buckets (Head Node : Type) where
  seq : Head → List Node
  raw : Node → Prop

variable {Head Node : Type} [DecidableEq Head] [DecidableEq Node]

def insertBefore (n x : Node) (l : List Node) : List Node :=
  l.flatMap (fun y => if y=x then [n,y] else [y])

def insertAfter (n x : Node) (l : List Node) : List Node :=
  l.flatMap (fun y => if y=x then [y,n] else [y])

/-- What each call does to the sequences. -/
def meaning (B : Buckets Head Node) : Op Head Node → Buckets Head Node
  | .initHlistNode h => ⟨B.seq,fun m => m≠h ∧ B.raw m⟩
  | .hlistAddHead n h => ⟨Function.update B.seq h (n::B.seq h),B.raw⟩
  | .hlistAddHeadRcu n h => ⟨Function.update B.seq h (n::B.seq h),B.raw⟩
  | .hlistAddBefore n next => ⟨fun h => insertBefore n next (B.seq h),B.raw⟩
  | .hlistAddBeforeRcu n next => ⟨fun h => insertBefore n next (B.seq h),B.raw⟩
  | .hlistAddAfter n next => ⟨fun h => insertAfter next n (B.seq h),B.raw⟩
  | .hlistAddAfterRcu prev n => ⟨fun h => insertAfter n prev (B.seq h),B.raw⟩
  | .hlistDel n => ⟨fun h => (B.seq h).erase n,B.raw⟩
  | .hlistDelInit n => ⟨fun h => (B.seq h).erase n,B.raw⟩

def Unhashed (B : Buckets Head Node) (n : Node) : Prop := ¬B.raw n ∧ ∀ h,n∉B.seq h

def Hashed (B : Buckets Head Node) (n : Node) : Prop := ∃ h,n∈B.seq h

/-- The preconditions: only a node that is in no list is initialised, added nodes are
unhashed, anchors and deleted nodes hashed. -/
def Allowed (B : Buckets Head Node) : Op Head Node → Prop
  | .initHlistNode h => ∀ a,h∉B.seq a
  | .hlistAddHead n _ => Unhashed B n
  | .hlistAddHeadRcu n _ => Unhashed B n
  | .hlistAddBefore n next => Unhashed B n ∧ Hashed B next
  | .hlistAddBeforeRcu n next => Unhashed B n ∧ Hashed B next
  | .hlistAddAfter n next => Unhashed B next ∧ Hashed B n
  | .hlistAddAfterRcu prev n => Unhashed B n ∧ Hashed B prev
  | .hlistDel n => Hashed B n
  | .hlistDelInit n => ¬B.raw n

/-- A heap whose lists are the given disjoint sequences. -/
structure Represents (k : Heap Head Node) (B : Buckets Head Node) : Prop where
  chain : ∀ h,Chain k (.first h) (B.seq h)
  nodup : ∀ h,(B.seq h).Nodup
  apart : ∀ h h' n,n∈B.seq h → n∈B.seq h' → h=h'
  hashed : ∀ n,Hashed B n → ¬B.raw n
  unhashed : ∀ n,Unhashed B n → k.pprev n=none

/-- The cells and nodes of a list are as before. -/
def Untouched (k k' : Heap Head Node) (h : Head) (s : List Node) : Prop :=
  k'.cell (.first h)=k.cell (.first h) ∧
    ∀ m∈s,k'.cell (.next m)=k.cell (.next m) ∧ k'.pprev m=k.pprev m

omit [DecidableEq Head] [DecidableEq Node] in
theorem chain_untouched (k k' : Heap Head Node) (h : Head) (s : List Node)
    (hc : Chain k (.first h) s) (hu : Untouched k k' h s) : Chain k' (.first h) s :=
  chain_frame k k' _ s hc hu.1 hu.2

omit [DecidableEq Head] [DecidableEq Node] in
/-- The cell at a place of one list is in no other list. -/
theorem endCell_out (k : Heap Head Node) (B : Buckets Head Node) (hr : Represents k B)
    (h h' : Head) (s t : List Node) (hs : B.seq h=s++t) (hne : h'≠h) :
    (.first h' : Cell Head Node)≠endCell (.first h) s ∧
      ∀ m∈B.seq h',(.next m : Cell Head Node)≠endCell (.first h) s := by
  rcases endCell_mem (.first h : Cell Head Node) s with he|⟨x,hx,he⟩
  · rw [he]
    refine ⟨?_,fun m _ => Ne.symm (first_ne_next h m)⟩
    rw [ne_eq,Cell.first.injEq]
    exact hne
  · rw [he]
    refine ⟨first_ne_next h' x,?_⟩
    intro m hm
    rw [ne_eq,Cell.next.injEq]
    intro heq
    subst heq
    exact hne (hr.apart h' h m hm (by rw [hs]; exact List.mem_append_left t hx))

theorem insertAt_untouched (k : Heap Head Node) (B : Buckets Head Node) (hr : Represents k B)
    (h h' : Head) (s t : List Node) (n : Node) (hs : B.seq h=s++t) (hne : h'≠h)
    (hn : n∉B.seq h') : Untouched k (insertAt k (endCell (.first h) s) n) h' (B.seq h') := by
  obtain ⟨h1,h2⟩ := endCell_out k B hr h h' s t hs hne
  have hold : k.cell (endCell (.first h) s)=t.head? := by
    have hc := hr.chain h
    rw [hs] at hc
    exact chain_head k _ t ((chain_append k _ s t).mp hc).2
  refine ⟨?_,?_⟩
  · rw [insertAt_cell,if_neg h1,if_neg (first_ne_next h' n)]
  · intro m hm
    have hmn : m≠n := ne_of_mem_of_not_mem hm hn
    rw [insertAt_cell,if_neg (h2 m hm),if_neg (by rw [Cell.next.injEq]; exact hmn),
      insertAt_pprev,if_neg hmn,if_neg]
    · exact ⟨rfl,rfl⟩
    · rw [hold]
      intro he
      exact hne (hr.apart h' h m hm
        (by rw [hs]; exact List.mem_append_right s (List.mem_of_head? he)))

/-- A node put into the list of a head. -/
theorem insertAt_represents (k : Heap Head Node) (B : Buckets Head Node) (hr : Represents k B)
    (h : Head) (s t : List Node) (n : Node) (hs : B.seq h=s++t) (hn : Unhashed B n) :
    Represents (insertAt k (endCell (.first h) s) n)
      ⟨Function.update B.seq h (s++n::t),B.raw⟩ := by
  have hperm : (s++n::t).Perm (n::(s++t)) := List.perm_middle
  have hmem : ∀ a m,m∈Function.update B.seq h (s++n::t) a ↔ (a=h ∧ m=n) ∨ m∈B.seq a := by
    intro a m
    by_cases ha : a=h
    · rw [ha,Function.update_self,hperm.mem_iff,hs,List.mem_cons]
      tauto
    · rw [Function.update_of_ne ha]
      tauto
  have hold : k.cell (endCell (.first h) s)=t.head? := by
    have hc := hr.chain h
    rw [hs] at hc
    exact chain_head k _ t ((chain_append k _ s t).mp hc).2
  refine ⟨?_,?_,?_,?_,?_⟩
  · intro a
    dsimp only
    by_cases ha : a=h
    · rw [ha,Function.update_self]
      have hc := hr.chain h
      have hnd := hr.nodup h
      have hnot := hn.2 h
      rw [hs] at hc hnd hnot
      exact chain_insert k _ s t n hc hnd (fun m _ => first_ne_next h m) hnot
        (first_ne_next h n)
    · rw [Function.update_of_ne ha]
      exact chain_untouched k _ a _ (hr.chain a)
        (insertAt_untouched k B hr h a s t n hs ha (hn.2 a))
  · intro a
    dsimp only
    by_cases ha : a=h
    · rw [ha,Function.update_self,hperm.nodup_iff,List.nodup_cons,← hs]
      exact ⟨hn.2 h,hr.nodup h⟩
    · rw [Function.update_of_ne ha]
      exact hr.nodup a
  · intro a b m ha hb
    rcases (hmem a m).mp ha with ⟨ha',hmn⟩|ha'
    · rcases (hmem b m).mp hb with ⟨hb',-⟩|hb'
      · rw [ha',hb']
      · exact absurd (hmn ▸ hb') (hn.2 b)
    · rcases (hmem b m).mp hb with ⟨-,hmn⟩|hb'
      · exact absurd (hmn ▸ ha') (hn.2 a)
      · exact hr.apart a b m ha' hb'
  · intro m hgiven
    obtain ⟨a,ha⟩ := hgiven
    rcases (hmem a m).mp ha with ⟨-,rfl⟩|ha
    · exact hn.1
    · exact hr.hashed m ⟨a,ha⟩
  · intro m hgiven
    obtain ⟨hraw,hm⟩ := hgiven
    have hmn : m≠n := fun e => hm h ((hmem h m).mpr (Or.inl ⟨rfl,e⟩))
    have hout : ∀ a,m∉B.seq a := fun a ha => hm a ((hmem a m).mpr (Or.inr ha))
    rw [insertAt_pprev,if_neg hmn,if_neg]
    · exact hr.unhashed m ⟨hraw,hout⟩
    · rw [hold]
      intro he
      exact hout h (by rw [hs]; exact List.mem_append_right s (List.mem_of_head? he))

theorem removeAt_untouched (k : Heap Head Node) (B : Buckets Head Node) (hr : Represents k B)
    (h h' : Head) (s t : List Node) (n : Node) (hs : B.seq h=s++n::t) (hne : h'≠h) :
    Untouched k (removeAt k (endCell (.first h) s) n) h' (B.seq h') := by
  obtain ⟨h1,h2⟩ := endCell_out k B hr h h' s (n::t) hs hne
  have hc := hr.chain h
  rw [hs] at hc
  have hnext := (chain_pprev k _ s t n hc).2.2
  refine ⟨?_,?_⟩
  · rw [removeAt_cell,if_neg h1]
  · intro m hm
    rw [removeAt_cell,if_neg (h2 m hm),removeAt_pprev,if_neg]
    · exact ⟨rfl,rfl⟩
    · rw [hnext]
      intro he
      exact hne (hr.apart h' h m hm (by
        rw [hs]
        exact List.mem_append_right s (List.mem_cons_of_mem n (List.mem_of_head? he))))

/-- A node taken out of the list of a head; its own fields are of no use then. -/
theorem removeAt_represents (k : Heap Head Node) (B : Buckets Head Node) (hr : Represents k B)
    (h : Head) (s t : List Node) (n : Node) (hs : B.seq h=s++n::t) :
    Represents (removeAt k (endCell (.first h) s) n)
      ⟨Function.update B.seq h (s++t),fun m => m=n ∨ B.raw m⟩ := by
  have hperm : (s++n::t).Perm (n::(s++t)) := List.perm_middle
  have hnd := hr.nodup h
  rw [hs,hperm.nodup_iff,List.nodup_cons] at hnd
  have hmem : ∀ a m,m∈Function.update B.seq h (s++t) a ↔ m≠n ∧ m∈B.seq a := by
    intro a m
    by_cases ha : a=h
    · rw [ha,Function.update_self,hs,hperm.mem_iff,List.mem_cons]
      constructor
      · exact fun hm => ⟨ne_of_mem_of_not_mem hm hnd.1,Or.inr hm⟩
      · exact fun hm => hm.2.resolve_left hm.1
    · rw [Function.update_of_ne ha]
      constructor
      · intro hm
        refine ⟨?_,hm⟩
        intro heq
        subst heq
        exact ha (hr.apart a h m hm (by rw [hs]; simp))
      · exact fun hm => hm.2
  have hc := hr.chain h
  rw [hs] at hc
  have hnext := (chain_pprev k _ s t n hc).2.2
  refine ⟨?_,?_,?_,?_,?_⟩
  · intro a
    dsimp only
    by_cases ha : a=h
    · have hnd' := hr.nodup h
      rw [hs] at hnd'
      rw [ha,Function.update_self]
      exact chain_remove k _ s t n hc hnd' (fun m _ => first_ne_next h m)
    · rw [Function.update_of_ne ha]
      exact chain_untouched k _ a _ (hr.chain a) (removeAt_untouched k B hr h a s t n hs ha)
  · intro a
    dsimp only
    by_cases ha : a=h
    · rw [ha,Function.update_self]
      exact hnd.2
    · rw [Function.update_of_ne ha]
      exact hr.nodup a
  · intro a b m ha hb
    exact hr.apart a b m ((hmem a m).mp ha).2 ((hmem b m).mp hb).2
  · intro m hgiven hraw
    obtain ⟨a,ha⟩ := hgiven
    obtain ⟨hmn,hma⟩ := (hmem a m).mp ha
    exact hr.hashed m ⟨a,hma⟩ (hraw.resolve_left hmn)
  · intro m hgiven
    obtain ⟨hraw,hm⟩ := hgiven
    have hmn : m≠n := fun e => hraw (Or.inl e)
    have hout : ∀ a,m∉B.seq a := fun a ha => hm a ((hmem a m).mpr ⟨hmn,ha⟩)
    rw [removeAt_pprev,if_neg]
    · exact hr.unhashed m ⟨fun hb => hraw (Or.inr hb),hout⟩
    · rw [hnext]
      intro he
      exact hout h (by
        rw [hs]
        exact List.mem_append_right s (List.mem_cons_of_mem n (List.mem_of_head? he)))

theorem initHlistNode_untouched (k : Heap Head Node) (n : Node) (h : Head) (s : List Node)
    (hn : n∉s) : Untouched k (initHlistNode k n) h s := by
  simp only [Untouched,initHlistNode,setPprev,setCell]
  refine ⟨Function.update_of_ne (first_ne_next h n) _ _,?_⟩
  intro m hm
  have hmn : m≠n := ne_of_mem_of_not_mem hm hn
  exact ⟨Function.update_of_ne (by rw [ne_eq,Cell.next.injEq]; exact hmn) _ _,
    Function.update_of_ne hmn _ _⟩

theorem initHlistNode_represents (k : Heap Head Node) (B : Buckets Head Node) (n : Node)
    (hr : Represents k B) (hn : ∀ h,n∉B.seq h) :
    Represents (initHlistNode k n) ⟨B.seq,fun m => m≠n ∧ B.raw m⟩ := by
  refine ⟨?_,hr.nodup,hr.apart,?_,?_⟩
  · exact fun h => chain_untouched k _ h _ (hr.chain h) (initHlistNode_untouched k n h _ (hn h))
  · exact fun m hm hraw => hr.hashed m hm hraw.2
  · intro m hgiven
    obtain ⟨hraw,hm⟩ := hgiven
    by_cases hmn : m=n
    · rw [hmn]
      exact Function.update_self n _ _
    · have hkeep : (initHlistNode k n).pprev m=k.pprev m := Function.update_of_ne hmn _ _
      rw [hkeep]
      exact hr.unhashed m ⟨fun hb => hraw ⟨hmn,hb⟩,hm⟩

end IdearNiu.Hlist
