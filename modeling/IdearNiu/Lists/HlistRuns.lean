import IdearNiu.Lists.HlistRefinement

set_option linter.style.nameCheck false

namespace IdearNiu.Hlist

open CellChains

variable {Head Node : Type} [DecidableEq Head] [DecidableEq Node]

theorem hlistAddHead_eq (k : Heap Head Node) (n : Node) (h : Head) :
    hlistAddHead k n h=some (insertAt k (.first h) n) := rfl

/-- The order of the writes to two nodes does not matter. -/
theorem hlistAddHeadRcu_eq (k : Heap Head Node) (n : Node) (h : Head)
    (hne : k.cell (.first h)≠some n) :
    hlistAddHeadRcu k n h=some (insertAt k (.first h) n) := by
  simp only [hlistAddHeadRcu,Option.some.injEq]
  apply Cells.ext
  · funext d
    simp only [insertAt_cell,setCell,setPprev,setPprevOf_cell,Function.update_apply]
  · funext m
    simp only [insertAt_pprev,setCell,setPprev,setPprevOf_pprev,Function.update_apply]
    by_cases hm : m=n
    · rw [if_pos hm,hm,if_neg hne,if_pos rfl]
    · simp only [hm,if_false]

theorem hlistAddBefore_eq (k : Heap Head Node) (n x : Node) (c : Cell Head Node)
    (hp : k.pprev x=some c) (hc : k.cell c=some x) (hne : n≠x) :
    hlistAddBefore k n x=some (insertAt k c n) := by
  have hpn : (setPprev (setCell (setPprev k n (k.pprev x)) (.next n) (some x)) x
      (some (.next n))).pprev n=some c := by
    simp only [setPprev,setCell,Function.update_of_ne hne,Function.update_self]
    exact hp
  simp only [hlistAddBefore,store]
  rw [hpn,Option.map_some,Option.some.injEq]
  apply Cells.ext
  · funext d
    simp only [insertAt_cell,setCell,setPprev,Function.update_apply,hc]
  · funext m
    simp only [insertAt_pprev,setCell,setPprev,Function.update_apply,hc,hp,Option.some.injEq]
    by_cases hm : m=n
    · rw [if_pos hm,hm,if_neg hne,if_pos rfl]
    · by_cases hx : m=x
      · rw [if_pos hx,if_neg hm,if_pos hx.symm]
      · rw [if_neg hx,if_neg hm,if_neg hm,if_neg (Ne.symm hx)]

theorem hlistAddAfterRcu_eq (k : Heap Head Node) (x n : Node) (hne : x≠n)
    (hx : k.cell (.next x)≠some n) :
    hlistAddAfterRcu k x n=some (insertAt k (.next x) n) := by
  have hcell : (.next n : Cell Head Node)≠.next x := by
    rw [ne_eq,Cell.next.injEq]
    exact Ne.symm hne
  simp only [hlistAddAfterRcu,Option.some.injEq]
  apply Cells.ext
  · funext d
    simp only [insertAt_cell,setCell,setPprev,setPprevOf_cell,Function.update_apply]
  · funext m
    simp only [insertAt_pprev,setCell,setPprev,setPprevOf_pprev,Function.update_apply,
      if_neg hcell,if_true]
    by_cases hm : m=n
    · rw [if_pos hm,hm,if_neg hx,if_pos rfl]
    · simp only [hm,if_false]

theorem hlistAddAfter_eq (k : Heap Head Node) (x n : Node) (hne : x≠n)
    (hx : k.cell (.next x)≠some n) :
    hlistAddAfter k x n=some (insertAt k (.next x) n) := by
  rw [← hlistAddAfterRcu_eq k x n hne hx]
  rfl

theorem hlistDel_eq (k : Heap Head Node) (n : Node) (c : Cell Head Node)
    (hp : k.pprev n=some c) : hlistDel k n=some (initHlistNode (removeAt k c n) n) := by
  simp only [hlistDel,__hlistDel,store,hp]
  rfl

theorem hlistDelInit_eq (k : Heap Head Node) (n : Node) (c : Cell Head Node)
    (hp : k.pprev n=some c) : hlistDelInit k n=some (initHlistNode (removeAt k c n) n) := by
  have hh : (!hlistUnhashed k n)=true := by simp [hlistUnhashed,hp]
  rw [hlistDelInit,if_pos hh]
  simp only [__hlistDel,store,hp]
  rfl

theorem insertBefore_not_mem (n x : Node) (l : List Node) (h : x∉l) :
    insertBefore n x l=l := by
  induction l with
  | nil => rfl
  | cons y l ih =>
    rw [List.mem_cons,not_or] at h
    rw [insertBefore,List.flatMap_cons,if_neg (Ne.symm h.1)]
    exact congrArg (y::·) (ih h.2)

theorem insertAfter_not_mem (n x : Node) (l : List Node) (h : x∉l) :
    insertAfter n x l=l := by
  induction l with
  | nil => rfl
  | cons y l ih =>
    rw [List.mem_cons,not_or] at h
    rw [insertAfter,List.flatMap_cons,if_neg (Ne.symm h.1)]
    exact congrArg (y::·) (ih h.2)

theorem insertBefore_split (n x : Node) (s t : List Node) (h : (s++x::t).Nodup) :
    insertBefore n x (s++x::t)=s++n::x::t := by
  obtain ⟨-,ht,hst⟩ := List.nodup_append.mp h
  have hs : x∉s := fun hm => hst x hm x List.mem_cons_self rfl
  have hsplit : insertBefore n x (s++x::t)=insertBefore n x s++([n,x]++insertBefore n x t) := by
    simp [insertBefore,List.flatMap_append]
  rw [hsplit,insertBefore_not_mem n x s hs,insertBefore_not_mem n x t (List.nodup_cons.mp ht).1]
  rfl

theorem insertAfter_split (n x : Node) (s t : List Node) (h : (s++x::t).Nodup) :
    insertAfter n x (s++x::t)=s++x::n::t := by
  obtain ⟨-,ht,hst⟩ := List.nodup_append.mp h
  have hs : x∉s := fun hm => hst x hm x List.mem_cons_self rfl
  have hsplit : insertAfter n x (s++x::t)=insertAfter n x s++([x,n]++insertAfter n x t) := by
    simp [insertAfter,List.flatMap_append]
  rw [hsplit,insertAfter_not_mem n x s hs,insertAfter_not_mem n x t (List.nodup_cons.mp ht).1]
  rfl

omit [DecidableEq Node] in
/-- A function of each sequence that changes one of them only. -/
theorem seq_update (B : Buckets Head Node) (f : List Node → List Node) (h : Head)
    (s : List Node) (hs : f (B.seq h)=s) (hother : ∀ a,a≠h → f (B.seq a)=B.seq a) :
    (fun a => f (B.seq a))=Function.update B.seq h s := by
  funext a
  by_cases ha : a=h
  · rw [ha,Function.update_self,hs]
  · rw [Function.update_of_ne ha,hother a ha]

/-- A step that gives some lists and leaves those it spares as they are. -/
structure Step (k k' : Heap Head Node) (B B' : Buckets Head Node) (spared : Head → Prop) :
    Prop where
  represents : Represents k' B'
  untouched : ∀ h,spared h → Untouched k k' h (B.seq h)
  same : ∀ h,spared h → B'.seq h=B.seq h

theorem insert_step (k : Heap Head Node) (B : Buckets Head Node) (hr : Represents k B)
    (a : Head) (s t : List Node) (n : Node) (hs : B.seq a=s++t) (hn : Unhashed B n) :
    Step k (insertAt k (endCell (.first a) s) n) B
      ⟨Function.update B.seq a (s++n::t),B.raw⟩ (fun h => h≠a) :=
  ⟨insertAt_represents k B hr a s t n hs hn,
    fun h hne => insertAt_untouched k B hr a h s t n hs hne (hn.2 h),
    fun _ hne => Function.update_of_ne hne _ _⟩

/-- A node of a list is taken out and left unhashed. -/
theorem delete_step (k : Heap Head Node) (B : Buckets Head Node) (hr : Represents k B)
    (a : Head) (s t : List Node) (n : Node) (hs : B.seq a=s++n::t) :
    Step k (initHlistNode (removeAt k (endCell (.first a) s) n) n) B
      ⟨Function.update B.seq a (s++t),B.raw⟩ (fun h => h≠a) := by
  have hrem := removeAt_represents k B hr a s t n hs
  have hna : n∈B.seq a := by
    rw [hs]
    simp
  have hout : ∀ h,h≠a → n∉B.seq h := fun h hne hm => hne (hr.apart h a n hm hna)
  have hgone : ∀ h,n∉Function.update B.seq a (s++t) h := by
    intro h
    by_cases hh : h=a
    · have hnd := hr.nodup a
      rw [hs,List.perm_middle.nodup_iff] at hnd
      rw [hh,Function.update_self]
      exact (List.nodup_cons.mp hnd).1
    · rw [Function.update_of_ne hh]
      exact hout h hh
  have hraw : (fun m => m≠n ∧ (m=n ∨ B.raw m))=B.raw := by
    funext m
    apply propext
    constructor
    · exact fun h => h.2.resolve_left h.1
    · refine fun h => ⟨?_,Or.inr h⟩
      intro heq
      subst heq
      exact hr.hashed m ⟨a,hna⟩ h
  have hinit := initHlistNode_represents _ _ n hrem hgone
  simp only [hraw] at hinit
  refine ⟨hinit,?_,fun _ hne => Function.update_of_ne hne _ _⟩
  intro h hne
  obtain ⟨h1,h2⟩ := removeAt_untouched k B hr a h s t n hs hne
  obtain ⟨h3,h4⟩ := initHlistNode_untouched (removeAt k (endCell (.first a) s) n) n h (B.seq h)
    (hout h hne)
  exact ⟨h3.trans h1,fun m hm => ⟨(h4 m hm).1.trans (h2 m hm).1,(h4 m hm).2.trans (h2 m hm).2⟩⟩

omit [DecidableEq Head] [DecidableEq Node] in
/-- A hashed node with its place, and the cell that points to it. -/
theorem hashed_place (k : Heap Head Node) (B : Buckets Head Node) (hr : Represents k B)
    (x : Node) (hx : Hashed B x) : ∃ a s t,B.seq a=s++x::t ∧ k.pprev x=some (endCell (.first a) s) ∧
      k.cell (endCell (.first a) s)=some x ∧ k.cell (.next x)=t.head? := by
  obtain ⟨a,ha⟩ := hx
  obtain ⟨s,t,hs⟩ := List.append_of_mem ha
  have hc := hr.chain a
  rw [hs] at hc
  exact ⟨a,s,t,hs,chain_pprev k _ s t x hc⟩

def Op.heads : Op Head Node → List Head
  | .hlistAddHead _ h => [h]
  | .hlistAddHeadRcu _ h => [h]
  | _ => []

def Op.nodes : Op Head Node → List Node
  | .initHlistNode h => [h]
  | .hlistAddHead n _ => [n]
  | .hlistAddHeadRcu n _ => [n]
  | .hlistAddBefore n next => [n,next]
  | .hlistAddBeforeRcu n next => [n,next]
  | .hlistAddAfter n next => [n,next]
  | .hlistAddAfterRcu prev n => [prev,n]
  | .hlistDel n => [n]
  | .hlistDelInit n => [n]

/-- The lists that a call is not about. -/
def Op.Spares (op : Op Head Node) (B : Buckets Head Node) (h : Head) : Prop :=
  h∉op.heads ∧ ∀ n∈op.nodes,n∉B.seq h

omit [DecidableEq Head] [DecidableEq Node] in
theorem Step.weaken (k k' : Heap Head Node) (B B' : Buckets Head Node)
    (spared spared' : Head → Prop) (h : Step k k' B B' spared)
    (hs : ∀ a,spared' a → spared a) : Step k k' B B' spared' :=
  ⟨h.represents,fun a ha => h.untouched a (hs a ha),fun a ha => h.same a (hs a ha)⟩

theorem addBefore_step (k : Heap Head Node) (B : Buckets Head Node) (hr : Represents k B)
    (n x : Node) (hn : Unhashed B n) (hx : Hashed B x) :
    ∃ k',hlistAddBefore k n x=some k' ∧
      Step k k' B ⟨fun h => insertBefore n x (B.seq h),B.raw⟩ (fun h => x∉B.seq h) := by
  obtain ⟨a,s,t,hs,hp,hc,-⟩ := hashed_place k B hr x hx
  have hxa : x∈B.seq a := by
    rw [hs]
    simp
  have hnd := hr.nodup a
  rw [hs] at hnd
  have hseq := seq_update B (insertBefore n x) a (s++n::x::t)
    (by rw [hs]; exact insertBefore_split n x s t hnd)
    (fun b hb => insertBefore_not_mem n x _ (fun hm => hb (hr.apart b a x hm hxa)))
  refine ⟨_,hlistAddBefore_eq k n x _ hp hc (fun e => hn.2 a (e ▸ hxa)),?_⟩
  rw [hseq]
  apply Step.weaken _ _ _ _ _ _ (insert_step k B hr a s (x::t) n hs hn)
  intro h hh heq
  subst heq
  exact hh hxa

theorem addAfter_step (k : Heap Head Node) (B : Buckets Head Node) (hr : Represents k B)
    (n x : Node) (hn : Unhashed B n) (hx : Hashed B x) :
    ∃ k',hlistAddAfter k x n=some k' ∧ hlistAddAfterRcu k x n=some k' ∧
      Step k k' B ⟨fun h => insertAfter n x (B.seq h),B.raw⟩ (fun h => x∉B.seq h) := by
  obtain ⟨a,s,t,hs,-,-,hnext⟩ := hashed_place k B hr x hx
  have hxa : x∈B.seq a := by
    rw [hs]
    simp
  have hnd := hr.nodup a
  rw [hs] at hnd
  have hseq := seq_update B (insertAfter n x) a (s++x::n::t)
    (by rw [hs]; exact insertAfter_split n x s t hnd)
    (fun b hb => insertAfter_not_mem n x _ (fun hm => hb (hr.apart b a x hm hxa)))
  have hne : x≠n := fun e => hn.2 a (e ▸ hxa)
  have hcell : k.cell (.next x)≠some n := by
    rw [hnext]
    intro he
    exact hn.2 a (by
      rw [hs]
      exact List.mem_append_right s (List.mem_cons_of_mem x (List.mem_of_head? he)))
  have hins := insert_step k B hr a (s++[x]) t n (by rw [hs]; simp) hn
  rw [endCell_append,List.append_assoc] at hins
  refine ⟨_,hlistAddAfter_eq k x n hne hcell,hlistAddAfterRcu_eq k x n hne hcell,?_⟩
  rw [hseq]
  apply Step.weaken _ _ _ _ _ _ hins
  intro h hh heq
  subst heq
  exact hh hxa

theorem del_step (k : Heap Head Node) (B : Buckets Head Node) (hr : Represents k B)
    (n : Node) (hn : Hashed B n) :
    ∃ k',hlistDel k n=some k' ∧ hlistDelInit k n=some k' ∧
      Step k k' B ⟨fun h => (B.seq h).erase n,B.raw⟩ (fun h => n∉B.seq h) := by
  obtain ⟨a,s,t,hs,hp,-,-⟩ := hashed_place k B hr n hn
  have hna : n∈B.seq a := by
    rw [hs]
    simp
  have hnd := hr.nodup a
  rw [hs] at hnd
  have hseq := seq_update B (fun l => l.erase n) a (s++t)
    (by
      rw [hs,List.erase_append_right _
        (fun hm => (List.disjoint_of_nodup_append hnd) hm List.mem_cons_self),
        List.erase_cons_head])
    (fun b hb => List.erase_of_not_mem (fun hm => hb (hr.apart b a n hm hna)))
  refine ⟨_,hlistDel_eq k n _ hp,hlistDelInit_eq k n _ hp,?_⟩
  rw [hseq]
  apply Step.weaken _ _ _ _ _ _ (delete_step k B hr a s t n hs)
  intro h hh heq
  subst heq
  exact hh hna

/-- One allowed call. -/
theorem exec_step (k : Heap Head Node) (B : Buckets Head Node) (op : Op Head Node)
    (hr : Represents k B) (ha : Allowed B op) :
    ∃ k',exec k op=some k' ∧ Step k k' B (meaning B op) (op.Spares B) := by
  have hnode : ∀ x∈op.nodes,∀ h,op.Spares B h → x∉B.seq h := fun x hx h hs => hs.2 x hx
  cases op with
  | initHlistNode n =>
    refine ⟨_,rfl,initHlistNode_represents k B n hr ha,?_,fun _ _ => rfl⟩
    exact fun h _ => initHlistNode_untouched k n h _ (ha h)
  | hlistAddHead n h =>
    refine ⟨_,hlistAddHead_eq k n h,?_⟩
    apply Step.weaken _ _ _ _ _ _ (insert_step k B hr h [] (B.seq h) n rfl ha)
    intro b hb heq
    subst heq
    exact hb.1 (by simp [Op.heads])
  | hlistAddHeadRcu n h =>
    have hfirst : k.cell (.first h)≠some n := by
      rw [chain_head k _ _ (hr.chain h)]
      exact fun he => ha.2 h (List.mem_of_head? he)
    refine ⟨_,hlistAddHeadRcu_eq k n h hfirst,?_⟩
    apply Step.weaken _ _ _ _ _ _ (insert_step k B hr h [] (B.seq h) n rfl ha)
    intro b hb heq
    subst heq
    exact hb.1 (by simp [Op.heads])
  | hlistAddBefore n x =>
    obtain ⟨k',hk,hstep⟩ := addBefore_step k B hr n x ha.1 ha.2
    exact ⟨k',hk,hstep.weaken _ _ _ _ _ _ (hnode x (by simp [Op.nodes]))⟩
  | hlistAddBeforeRcu n x =>
    obtain ⟨k',hk,hstep⟩ := addBefore_step k B hr n x ha.1 ha.2
    exact ⟨k',hk,hstep.weaken _ _ _ _ _ _ (hnode x (by simp [Op.nodes]))⟩
  | hlistAddAfter x n =>
    obtain ⟨k',hk,-,hstep⟩ := addAfter_step k B hr n x ha.1 ha.2
    exact ⟨k',hk,hstep.weaken _ _ _ _ _ _ (hnode x (by simp [Op.nodes]))⟩
  | hlistAddAfterRcu x n =>
    obtain ⟨k',-,hk,hstep⟩ := addAfter_step k B hr n x ha.1 ha.2
    exact ⟨k',hk,hstep.weaken _ _ _ _ _ _ (hnode x (by simp [Op.nodes]))⟩
  | hlistDel n =>
    obtain ⟨k',hk,-,hstep⟩ := del_step k B hr n ha
    exact ⟨k',hk,hstep.weaken _ _ _ _ _ _ (hnode n (by simp [Op.nodes]))⟩
  | hlistDelInit n =>
    by_cases hn : Hashed B n
    · obtain ⟨k',-,hk,hstep⟩ := del_step k B hr n hn
      exact ⟨k',hk,hstep.weaken _ _ _ _ _ _ (hnode n (by simp [Op.nodes]))⟩
    · have hout : ∀ h,n∉B.seq h := fun h hm => hn ⟨h,hm⟩
      have hp := hr.unhashed n ⟨ha,hout⟩
      have hsame : meaning B (.hlistDelInit n)=B := by
        simp only [meaning,List.erase_of_not_mem (hout _)]
      refine ⟨k,?_,?_⟩
      · simp [exec,hlistDelInit,hlistUnhashed,hp]
      · rw [hsame]
        exact ⟨hr,fun _ _ => ⟨rfl,fun _ _ => ⟨rfl,rfl⟩⟩,fun _ _ => rfl⟩

omit [DecidableEq Head] [DecidableEq Node] in
/-- A cell of a list that points to a node is the one the node remembers. -/
theorem cell_pprev (k : Heap Head Node) (B : Buckets Head Node) (hr : Represents k B)
    (c : Cell Head Node) (n : Node) (hc : ∀ m,c=.next m → Hashed B m)
    (hcell : k.cell c=some n) : k.pprev n=some c := by
  cases c with
  | first a =>
    have h := hr.chain a
    cases hs : B.seq a with
    | nil =>
      rw [hs] at h
      rw [chain_head k _ _ h] at hcell
      cases hcell
    | cons m t =>
      rw [hs] at h
      obtain ⟨h1,h2,-⟩ := (chain_cons k _ m t).mp h
      rw [h1,Option.some.injEq] at hcell
      rw [← hcell]
      exact h2
  | next m =>
    obtain ⟨a,s,t,hs,-,-,hnext⟩ := hashed_place k B hr m (hc m rfl)
    have h := hr.chain a
    cases t with
    | nil =>
      rw [hnext] at hcell
      cases hcell
    | cons x t =>
      rw [hnext,List.head?_cons,Option.some.injEq] at hcell
      rw [hs,List.append_cons] at h
      have hp := (chain_pprev k _ (s++[m]) t x h).1
      rw [endCell_append] at hp
      rw [← hcell]
      exact hp

/-- The safe loop over the rest of a list, with the nodes kept so far before it. -/
theorem forEachSafe_rest (del : Node → Bool) (fuel : Nat) (k : Heap Head Node)
    (B : Buckets Head Node) (h : Head) (kept rest : List Node) (hr : Represents k B)
    (hs : B.seq h=kept++rest) (hf : rest.length<fuel) :
    ∃ k',hlistForEachSafe del fuel k rest.head?=some (rest,k') ∧
      Represents k' ⟨Function.update B.seq h (kept++rest.filter (fun n => !del n)),B.raw⟩ := by
  induction rest generalizing fuel k B kept with
  | nil =>
    obtain ⟨fuel,rfl⟩ := Nat.exists_eq_succ_of_ne_zero (Nat.ne_zero_of_lt hf)
    refine ⟨k,rfl,?_⟩
    rw [List.filter_nil,← hs,Function.update_eq_self]
    exact hr
  | cons x rest ih =>
    obtain ⟨fuel,rfl⟩ := Nat.exists_eq_succ_of_ne_zero (Nat.ne_zero_of_lt hf)
    have hc := hr.chain h
    rw [hs] at hc
    obtain ⟨hp,-,hnext⟩ := chain_pprev k _ kept rest x hc
    rw [List.length_cons] at hf
    simp only [List.head?_cons,hlistForEachSafe,hnext]
    cases hdel : del x with
    | true =>
      have hstep := delete_step k B hr h kept rest x hs
      obtain ⟨k',hk,hres⟩ := ih fuel _ _ kept hstep.represents (Function.update_self h _ _)
        (by omega)
      rw [if_pos rfl,hlistDel_eq k x _ hp]
      simp only [Option.bind_eq_bind,Option.bind_some,hk]
      refine ⟨k',rfl,?_⟩
      rw [Function.update_idem] at hres
      rw [List.filter_cons_of_neg (by rw [hdel]; decide)]
      exact hres
    | false =>
      obtain ⟨k',hk,hres⟩ := ih fuel k B (kept++[x]) hr (by rw [hs]; simp) (by omega)
      rw [if_neg (by decide)]
      simp only [Option.bind_eq_bind,Option.bind_some,hk]
      refine ⟨k',rfl,?_⟩
      rw [List.filter_cons_of_pos (by rw [hdel]; rfl),List.append_cons]
      exact hres

/-- Every allowed sequence of calls. -/
def AllowedRun (B : Buckets Head Node) : List (Op Head Node) → Prop
  | [] => True
  | op::ops => Allowed B op ∧ AllowedRun (meaning B op) ops

theorem run_represents (k : Heap Head Node) (B : Buckets Head Node) (ops : List (Op Head Node))
    (hr : Represents k B) (ha : AllowedRun B ops) :
    ∃ k',run k ops=some k' ∧ Represents k' (ops.foldl meaning B) := by
  induction ops generalizing k B with
  | nil => exact ⟨k,rfl,hr⟩
  | cons op ops ih =>
    obtain ⟨k',hk,hstep⟩ := exec_step k B op hr ha.1
    obtain ⟨k'',hrun,hres⟩ := ih k' (meaning B op) hstep.represents ha.2
    refine ⟨k'',?_,hres⟩
    rw [run,hk,Option.bind_some,hrun]

theorem allowedRun_append (B : Buckets Head Node) (ops ops' : List (Op Head Node))
    (ha : AllowedRun B (ops++ops')) :
    AllowedRun B ops ∧ AllowedRun (ops.foldl meaning B) ops' := by
  induction ops generalizing B with
  | nil => exact ⟨trivial,ha⟩
  | cons op ops ih =>
    obtain ⟨h1,h2⟩ := ih (meaning B op) ha.2
    exact ⟨⟨ha.1,h1⟩,h2⟩

theorem run_append (k : Heap Head Node) (ops ops' : List (Op Head Node)) :
    run k (ops++ops')=(run k ops).bind (fun k => run k ops') := by
  induction ops generalizing k with
  | nil => rfl
  | cons op ops ih =>
    simp only [List.cons_append,run]
    cases exec k op with
    | none => rfl
    | some k' => exact ih k'

/-- What holds of the heap of a state: each hashed node remembers the one cell that points to
it, the others remember none, and the safe loop over a list visits its sequence, whichever
nodes it deletes. -/
structure Sound (k : Heap Head Node) (B : Buckets Head Node) : Prop where
  pprev : ∀ n,Hashed B n → ∃ c,k.pprev n=some c ∧ k.cell c=some n ∧
    ∀ d,(∀ m,d=.next m → Hashed B m) → k.cell d=some n → d=c
  unhashed : ∀ n,¬B.raw n → (hlistUnhashed k n=true ↔ ¬Hashed B n)
  forEachSafe : ∀ h del fuel,(B.seq h).length<fuel →
    ∃ k',hlistForEachSafe del fuel k (k.cell (.first h))=some (B.seq h,k') ∧
      Represents k' ⟨Function.update B.seq h ((B.seq h).filter (fun n => !del n)),B.raw⟩

theorem represents_sound (k : Heap Head Node) (B : Buckets Head Node) (hr : Represents k B) :
    Sound k B := by
  constructor
  · intro n hn
    obtain ⟨a,s,t,-,hp,hc,-⟩ := hashed_place k B hr n hn
    refine ⟨_,hp,hc,?_⟩
    intro d hd hcell
    have hd' := cell_pprev k B hr d n hd hcell
    rw [hp,Option.some.injEq] at hd'
    exact hd'.symm
  · intro n hraw
    rw [hlistUnhashed,decide_eq_true_eq]
    constructor
    · intro hp hn
      obtain ⟨a,s,t,-,hp',-,-⟩ := hashed_place k B hr n hn
      rw [hp] at hp'
      cases hp'
    · exact fun hn => hr.unhashed n ⟨hraw,fun h hm => hn ⟨h,hm⟩⟩
  · intro h del fuel hf
    rw [chain_head k _ _ (hr.chain h)]
    exact forEachSafe_rest del fuel k B h [] (B.seq h) hr rfl hf

theorem deleted_unhashed {k : Heap Head Node} (k' : Heap Head Node) (B : Buckets Head Node)
    (op : Op Head Node) (n : Node) (hr : Represents k B) (hr' : Represents k' (meaning B op))
    (ha : Allowed B op) (hop : op=.hlistDel n ∨ op=.hlistDelInit n) :
    hlistUnhashed k' n=true := by
  have hgone : ∀ h,n∉(B.seq h).erase n := fun h => (hr.nodup h).not_mem_erase
  rw [hlistUnhashed,decide_eq_true_eq]
  apply hr'.unhashed
  rcases hop with rfl|rfl
  · exact ⟨hr.hashed n ha,hgone⟩
  · exact ⟨ha,hgone⟩

/-- Every run of allowed calls on disjoint lists ends without a null write, in a heap whose
heads denote the sequences of the sequence operations; and every call leaves the lists it is
not about as they are. -/
theorem hlists_refine_sequences (k : Heap Head Node) (B : Buckets Head Node)
    (ops : List (Op Head Node)) (hr : Represents k B) (ha : AllowedRun B ops) :
    (∃ k',run k ops=some k' ∧ Represents k' (ops.foldl meaning B) ∧
      Sound k' (ops.foldl meaning B)) ∧
    ∀ before op after,ops=before++op::after →
      ∃ k1 k2,run k before=some k1 ∧ run k (before++[op])=some k2 ∧
        (∀ h,op.Spares (before.foldl meaning B) h →
          ((before++[op]).foldl meaning B).seq h=(before.foldl meaning B).seq h ∧
            Untouched k1 k2 h ((before.foldl meaning B).seq h)) ∧
        ∀ n,op=.hlistDel n ∨ op=.hlistDelInit n → hlistUnhashed k2 n=true := by
  constructor
  · obtain ⟨k',hrun,hres⟩ := run_represents k B ops hr ha
    exact ⟨k',hrun,hres,represents_sound k' _ hres⟩
  · intro before op after heq
    subst heq
    obtain ⟨h1,h2⟩ := allowedRun_append B before (op::after) ha
    obtain ⟨k1,hrun,hres⟩ := run_represents k B before hr h1
    obtain ⟨k2,hk,hstep⟩ := exec_step k1 _ op hres h2.1
    refine ⟨k1,k2,hrun,?_,?_,?_⟩
    · rw [run_append,hrun,Option.bind_some,run,hk]
      rfl
    · intro h hs
      rw [List.foldl_append]
      exact ⟨hstep.same h hs,hstep.untouched h hs⟩
    · intro n hn
      exact deleted_unhashed k2 _ op n hres hstep.represents h2.1 hn

/-- Empty lists at every head and no node initialised but two. -/
def noNodes : Buckets Nat Nat := ⟨fun _ => [],fun n => n≠1 ∧ n≠2⟩

theorem noNodes_represents : Represents ⟨fun _ => none,fun _ => none⟩ noNodes :=
  ⟨fun _ => ⟨trivial,rfl⟩,fun _ => List.nodup_nil,fun _ _ _ h => absurd h (by simp [noNodes]),
    fun _ h => absurd h.choose_spec (by simp [noNodes]),fun _ _ => rfl⟩

theorem hlists_refine_sequences_two :
    ∃ k' : Heap Nat Nat,
      run ⟨fun _ => none,fun _ => none⟩ [.hlistAddHead 1 0,.hlistAddBefore 2 1,.hlistDel 1]=
        some k' ∧ Sound k' ⟨fun h => if h=0 then [2] else [],fun n => n≠1 ∧ n≠2⟩ := by
  have hallowed : AllowedRun noNodes
      [.hlistAddHead 1 0,.hlistAddBefore 2 1,.hlistDel 1] := by
    refine ⟨⟨by simp [noNodes],by simp [noNodes]⟩,⟨⟨by simp [noNodes,meaning],?_⟩,⟨0,?_⟩⟩,
      ⟨0,?_⟩,trivial⟩
    · intro h
      by_cases hh : h=0
      · simp [noNodes,meaning,hh]
      · simp [noNodes,meaning,hh]
    · simp [noNodes,meaning]
    · simp [noNodes,meaning,insertBefore]
  obtain ⟨k',hrun,-,hsound⟩ := (hlists_refine_sequences _ noNodes
    [.hlistAddHead 1 0,.hlistAddBefore 2 1,.hlistDel 1] noNodes_represents hallowed).1
  have hlast : [Op.hlistAddHead 1 0,.hlistAddBefore 2 1,.hlistDel 1].foldl meaning noNodes=
      ⟨fun h => if h=0 then [2] else [],fun n => n≠1 ∧ n≠2⟩ := by
    simp only [List.foldl,meaning,noNodes]
    congr 1
    funext h
    by_cases hh : h=0
    · simp [hh,insertBefore]
    · simp [hh,insertBefore]
  rw [hlast] at hsound
  exact ⟨k',hrun,hsound⟩

end IdearNiu.Hlist
