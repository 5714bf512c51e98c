import IdearNiu.Framework.KeyedMap
import Mathlib.Data.Set.Card

namespace IdearNiu.ClassMap

open KeyedMap

variable {β κ γ : Type} (key : β → κ) (same : κ → κ → Bool) (cls : κ → γ)

/-- A comparison that looks at the class of a key only. -/
def Classified : Prop := ∀ a b,same a b=true ↔ cls a=cls b

variable {key same cls} in
theorem Classified.lawful (h : Classified same cls) : Lawful same where
  refl a := (h a a).mpr rfl
  symm a b hab := (h b a).mpr ((h a b).mp hab).symm
  trans a b c hab hbc := (h a c).mpr (((h a b).mp hab).trans ((h b c).mp hbc))

variable {key same cls} in
/-- The classes of distinct bindings do not repeat. -/
theorem distinct_nodup (h : Classified same cls) {m : List β} (hm : Distinct key same m) :
    (m.map (fun b => cls (key b))).Nodup := by
  rw [List.Nodup,List.pairwise_map]
  refine hm.imp ?_
  intro a b hab heq
  rw [(h _ _).mpr heq] at hab
  cases hab

variable [DecidableEq γ]

/-- The partial function a list of bindings stands for: from classes of keys to bindings. -/
def denote (m : List β) (c : γ) : Option β := m.find? (fun b => cls (key b)=c)

variable {key same cls}

theorem Classified.same_eq (h : Classified same cls) (a b : κ) :
    same a b=decide (cls a=cls b) := by
  rw [Bool.eq_iff_iff,h a b,decide_eq_true_iff]

theorem lookup_eq (h : Classified same cls) (k : κ) (m : List β) :
    lookup key same k m=denote key cls m (cls k) := by
  simp only [lookup,denote,h.same_eq,eq_comm]

theorem denote_nil : denote key cls ([] : List β)=fun _ => none := rfl

theorem denote_erase (h : Classified same cls) (k : κ) (m : List β) :
    denote key cls (erase key same k m)=Function.update (denote key cls m) (cls k) none := by
  funext c
  rw [denote,erase,List.find?_filter]
  by_cases hc : c=cls k
  · rw [hc,Function.update_self,List.find?_eq_none]
    intro b _
    by_cases hb : cls (key b)=cls k
    · simp [h.same_eq,hb]
    · simp [hb]
  · rw [Function.update_of_ne hc,denote]
    congr 1
    funext b
    by_cases hb : cls (key b)=c
    · simp [h.same_eq,hb,Ne.symm hc]
    · simp [hb]

theorem denote_insert (h : Classified same cls) (b : β) (m : List β) :
    denote key cls (KeyedMap.insert key same b m)=
      Function.update (denote key cls m) (cls (key b)) (some b) := by
  funext c
  by_cases hc : c=cls (key b)
  · rw [hc,Function.update_self,denote,KeyedMap.insert,List.find?_cons,decide_eq_true rfl]
  · have hne : decide (cls (key b)=c)=false := decide_eq_false (Ne.symm hc)
    rw [Function.update_of_ne hc,denote,KeyedMap.insert,List.find?_cons,hne]
    change denote key cls (erase key same (key b) m) c=_
    rw [denote_erase h,Function.update_of_ne hc]

theorem denote_eq_some (h : Classified same cls) {m : List β} (hm : Distinct key same m)
    (c : γ) (b : β) : denote key cls m c=some b ↔ b∈m ∧ cls (key b)=c := by
  constructor
  · intro hb
    exact ⟨List.mem_of_find?_eq_some hb,by simpa using List.find?_some hb⟩
  · rintro ⟨hb,rfl⟩
    rw [← lookup_eq h]
    exact lookup_eq_some h.lawful hm hb (h.lawful.refl _)

/-- The classes a function is defined at. -/
def domain (f : γ → Option β) : Set γ := {c | (f c).isSome}

theorem ncard_domain (h : Classified same cls) {m : List β} (hm : Distinct key same m) :
    (domain (denote key cls m)).ncard=m.length := by
  have hdom : domain (denote key cls m)=((m.map (fun b => cls (key b))).toFinset : Set γ) := by
    ext c
    simp only [domain,Set.mem_ofPred_eq,Option.isSome_iff_exists,List.coe_toFinset,List.mem_map]
    exact exists_congr (denote_eq_some h hm c)
  rw [hdom,Set.ncard_coe_finset,List.toFinset_card_of_nodup (distinct_nodup h hm),
    List.length_map]

end IdearNiu.ClassMap
