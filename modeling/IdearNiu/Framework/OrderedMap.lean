import IdearNiu.Framework.ClassMap

namespace IdearNiu.OrderedMap

open ClassMap

section

variable {β κ γ : Type} (key : β → κ) (same : κ → κ → Bool) (cls : κ → γ)

/-- The place of a key in a list of bindings. -/
def place (k : κ) (m : List β) : Option Nat := m.findIdx? (fun b => same k (key b))

/-- A binding takes the place of the one with its key, or comes last. -/
def put (b : β) (m : List β) : List β :=
  match place key same (key b) m with
  | some i => m.set i b
  | none => m++[b]

def drop (k : κ) (m : List β) : List β :=
  match place key same k m with
  | some i => m.eraseIdx i
  | none => m

/-- The classes of the keys, in the order of the bindings. -/
def classes (m : List β) : List γ := m.map (fun b => cls (key b))

theorem put_cons (b a : β) (m : List β) :
    put key same b (a::m)=
      if same (key b) (key a) then b::m else a::put key same b m := by
  rw [put,place,List.findIdx?_cons,put,place]
  by_cases h : same (key b) (key a)=true
  · rw [if_pos h,if_pos h]
    rfl
  · rw [if_neg h,if_neg h]
    cases m.findIdx? (fun a => same (key b) (key a)) <;> rfl

theorem drop_cons (k : κ) (a : β) (m : List β) :
    drop key same k (a::m)=if same k (key a) then m else a::drop key same k m := by
  rw [drop,place,List.findIdx?_cons,drop,place]
  by_cases h : same k (key a)=true
  · rw [if_pos h,if_pos h]
    rfl
  · rw [if_neg h,if_neg h]
    cases m.findIdx? (fun a => same k (key a)) <;> rfl

variable {key same cls} [DecidableEq γ]

theorem denote_cons (a : β) (m : List β) (c : γ) :
    denote key cls (a::m) c=if cls (key a)=c then some a else denote key cls m c := by
  by_cases ha : cls (key a)=c <;> simp [denote,ha]

theorem put_classes (h : Classified same cls) (b : β) (m : List β) :
    classes key cls (put key same b m)=
      if cls (key b)∈classes key cls m then classes key cls m
      else classes key cls m++[cls (key b)] := by
  induction m with
  | nil => rfl
  | cons a m ih =>
    rw [put_cons,h.same_eq]
    by_cases hab : cls (key b)=cls (key a)
    · simp [hab,classes]
    · have hcons : ∀ l,classes key cls (a::l)=cls (key a)::classes key cls l := fun _ => rfl
      simp only [hab,decide_false,Bool.false_eq_true,if_false,hcons,ih,List.mem_cons,false_or]
      split_ifs <;> rfl

theorem put_denote (h : Classified same cls) (b : β) (m : List β) :
    denote key cls (put key same b m)=
      Function.update (denote key cls m) (cls (key b)) (some b) := by
  induction m with
  | nil =>
    funext c
    by_cases hc : c=cls (key b)
    · simp [put,place,denote,hc]
    · simp [put,place,denote,hc,Ne.symm hc]
  | cons a m ih =>
    rw [put_cons,h.same_eq]
    funext c
    by_cases hab : cls (key b)=cls (key a)
    · rw [if_pos (decide_eq_true hab),denote_cons]
      by_cases hc : c=cls (key b)
      · rw [if_pos hc.symm,hc,Function.update_self]
      · rw [if_neg (Ne.symm hc),Function.update_of_ne hc,denote_cons,
          if_neg (by rw [← hab]; exact Ne.symm hc)]
    · rw [if_neg (by simpa using hab),denote_cons,ih]
      by_cases hc : c=cls (key b)
      · rw [hc,if_neg (Ne.symm hab),Function.update_self,Function.update_self]
      · rw [Function.update_of_ne hc,Function.update_of_ne hc,denote_cons]

theorem drop_classes (h : Classified same cls) (k : κ) (m : List β) :
    classes key cls (drop key same k m)=(classes key cls m).erase (cls k) := by
  induction m with
  | nil => rfl
  | cons a m ih =>
    rw [drop_cons,h.same_eq]
    have hcons : ∀ l,classes key cls (a::l)=cls (key a)::classes key cls l := fun _ => rfl
    by_cases hk : cls k=cls (key a)
    · rw [if_pos (decide_eq_true hk),hcons,hk,List.erase_cons_head]
    · rw [if_neg (by simpa using hk),hcons,hcons,ih,List.erase_cons_tail]
      simpa using Ne.symm hk

/-- Among distinct keys the first binding of a key is the only one. -/
theorem drop_denote (h : Classified same cls) (k : κ) {m : List β}
    (hm : (classes key cls m).Nodup) :
    denote key cls (drop key same k m)=Function.update (denote key cls m) (cls k) none := by
  induction m with
  | nil =>
    funext c
    by_cases hc : c=cls k
    · simp [drop,place,denote,hc]
    · simp [drop,place,denote,hc]
  | cons a m ih =>
    obtain ⟨hhead,hm⟩ := List.nodup_cons.mp hm
    rw [drop_cons,h.same_eq]
    funext c
    by_cases hk : cls k=cls (key a)
    · rw [if_pos (decide_eq_true hk)]
      by_cases hc : c=cls k
      · rw [hc,Function.update_self,denote,List.find?_eq_none]
        intro b hb
        have hne : cls (key b)≠cls k := by
          intro heq
          exact hhead (List.mem_map.mpr ⟨b,hb,heq.trans hk⟩)
        simpa using hne
      · rw [Function.update_of_ne hc,denote_cons,if_neg (by rw [← hk]; exact Ne.symm hc)]
    · rw [if_neg (by simpa using hk),denote_cons,ih hm]
      by_cases hc : c=cls k
      · rw [hc,if_neg (Ne.symm hk),Function.update_self,Function.update_self]
      · rw [Function.update_of_ne hc,Function.update_of_ne hc,denote_cons]

/-- What such a list stands for: the classes in their order, and a binding for each. -/
structure Ordered (β γ : Type) where
  order : List γ
  field : γ → Option β

def Ordered.empty : Ordered β γ := ⟨[],fun _ => none⟩

def Ordered.put (f : Ordered β γ) (c : γ) (b : β) : Ordered β γ where
  order := if c∈f.order then f.order else f.order++[c]
  field := Function.update f.field c (some b)

def Ordered.drop (f : Ordered β γ) (c : γ) : Ordered β γ where
  order := f.order.erase c
  field := Function.update f.field c none

variable (key cls) in
def Denotes (m : List β) (f : Ordered β γ) : Prop :=
  classes key cls m=f.order ∧ denote key cls m=f.field ∧ f.order.Nodup

theorem denotes_empty : Denotes key cls ([] : List β) Ordered.empty := ⟨rfl,rfl,List.nodup_nil⟩

theorem put_denotes (h : Classified same cls) {m : List β} {f : Ordered β γ}
    (hm : Denotes key cls m f) (b : β) :
    Denotes key cls (put key same b m) (f.put (cls (key b)) b) := by
  obtain ⟨horder,hfield,hnodup⟩ := hm
  refine ⟨?_,?_,?_⟩
  · rw [put_classes h,horder,Ordered.put]
  · rw [put_denote h,hfield,Ordered.put]
  · rw [Ordered.put]
    split_ifs with hmem
    · exact hnodup
    · exact List.nodup_append.mpr ⟨hnodup,List.nodup_singleton _,fun a ha b hb hab =>
        hmem (List.mem_singleton.mp hb ▸ hab ▸ ha)⟩

theorem drop_denotes (h : Classified same cls) {m : List β} {f : Ordered β γ}
    (hm : Denotes key cls m f) (k : κ) :
    Denotes key cls (drop key same k m) (f.drop (cls k)) := by
  obtain ⟨horder,hfield,hnodup⟩ := hm
  refine ⟨?_,?_,hnodup.erase _⟩
  · rw [drop_classes h,horder,Ordered.drop]
  · rw [drop_denote h k (horder ▸ hnodup),hfield,Ordered.drop]

end

end IdearNiu.OrderedMap
