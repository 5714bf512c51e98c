import Mathlib.Tactic

namespace IdearNiu.SharedCell

section

variable {κ σ τ ρ ι : Type}

/-- A step of a member with a private state and one cell that all members share: the
cell may change and may colour the answer, but the private state ignores it. -/
structure Effect (σ τ ρ : Type) where
  next : σ
  cell : τ → τ
  answer : τ → ρ

variable [DecidableEq κ]

/-- The answers of interleaved steps, each tagged with its member; none if one of the
steps does not return. -/
def run (act : σ → ι → Option (Effect σ τ ρ)) :
    (κ → σ) → τ → List (κ × ι) → Option (List (κ × ρ))
  | _,_,[] => some []
  | w,t,(k,x)::cs =>
    match act (w k) x with
    | none => none
    | some e => (run act (Function.update w k e.next) (e.cell t) cs).map
        (fun rs => (k,e.answer t)::rs)

/-- At every step of b the cell gives the answer that b's own steps alone would have
left in it. -/
def Agree (act : σ → ι → Option (Effect σ τ ρ)) (b : κ) :
    (κ → σ) → τ → τ → List (κ × ι) → Prop
  | _,_,_,[] => True
  | w,all,own,(k,x)::cs =>
    match act (w k) x with
    | none => True
    | some e => (k=b → e.answer all=e.answer own) ∧
        Agree act b (Function.update w k e.next) (e.cell all)
          (if k=b then e.cell own else own) cs

variable {act : σ → ι → Option (Effect σ τ ρ)}

theorem run_cons {w : κ → σ} {t : τ} {k : κ} {x : ι} {cs : List (κ × ι)}
    {rs : List (κ × ρ)} (h : run act w t ((k,x)::cs)=some rs) :
    ∃ e rest,act (w k) x=some e ∧
      run act (Function.update w k e.next) (e.cell t) cs=some rest ∧
      rs=(k,e.answer t)::rest := by
  rw [run] at h
  cases he : act (w k) x with
  | none =>
    rw [he] at h
    simp at h
  | some e =>
    rw [he] at h
    obtain ⟨rest,hrest,hcons⟩ := Option.map_eq_some_iff.mp h
    exact ⟨e,rest,rfl,hrest,hcons.symm⟩

theorem run_of_act {w : κ → σ} {t : τ} {k : κ} {x : ι} {cs : List (κ × ι)}
    {e : Effect σ τ ρ} (he : act (w k) x=some e) :
    run act w t ((k,x)::cs)=(run act (Function.update w k e.next) (e.cell t) cs).map
      (fun rs => (k,e.answer t)::rs) := by
  rw [run,he]

theorem agree_of_act {b : κ} {w : κ → σ} {all own : τ} {k : κ} {x : ι}
    {cs : List (κ × ι)} {e : Effect σ τ ρ} (he : act (w k) x=some e) :
    Agree act b w all own ((k,x)::cs) ↔ (k=b → e.answer all=e.answer own) ∧
      Agree act b (Function.update w k e.next) (e.cell all)
        (if k=b then e.cell own else own) cs := by
  rw [Agree,he]

/-- The steps of b answer as in a run without the others exactly when the cell agrees
at each of them. -/
theorem alone_iff (b : κ) (w w' : κ → σ) (all own : τ) (cs : List (κ × ι))
    (rs : List (κ × ρ)) (h : run act w all cs=some rs) (hw : w' b=w b) :
    run act w' own (cs.filter (fun c => c.1=b))=some (rs.filter (fun r => r.1=b)) ↔
      Agree act b w all own cs := by
  induction cs generalizing w w' all own rs with
  | nil =>
    obtain rfl : []=rs := Option.some.inj h
    exact iff_of_true rfl trivial
  | cons c cs ih =>
    obtain ⟨k,x⟩ := c
    obtain ⟨e,rest,he,hrest,rfl⟩ := run_cons h
    rw [agree_of_act he]
    by_cases hk : k=b
    · subst hk
      have he' : act (w' k) x=some e := hw ▸ he
      have htail := ih (Function.update w k e.next) (Function.update w' k e.next)
        (e.cell all) (e.cell own) rest hrest (by rw [Function.update_self,Function.update_self])
      rw [List.filter_cons_of_pos (by simp),List.filter_cons_of_pos (by simp),run_of_act he',
        Option.map_eq_some_iff]
      simp only [if_true,forall_const,← htail]
      constructor
      · intro hgiven
        obtain ⟨l,hl,hcons⟩ := hgiven
        obtain ⟨hanswer,rfl⟩ := List.cons.inj hcons
        exact ⟨(Prod.mk.inj hanswer).2.symm,hl⟩
      · intro hgiven
        obtain ⟨hanswer,hl⟩ := hgiven
        exact ⟨_,hl,by rw [hanswer]⟩
    · have htail := ih (Function.update w k e.next) w' (e.cell all) own rest hrest
        (by rw [hw,Function.update_of_ne (Ne.symm hk)])
      rw [List.filter_cons_of_neg (by simpa using hk),List.filter_cons_of_neg (by simpa using hk),
        htail,if_neg hk]
      exact ⟨fun ha => ⟨fun hb => absurd hb hk,ha⟩,fun ha => ha.2⟩

end

end IdearNiu.SharedCell
