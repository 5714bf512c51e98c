import Mathlib.Tactic

namespace IdearNiu.Pools

/-- Members that run side by side in one process. -/
structure Pool (σ : Type) where
  down : Bool
  members : List σ

/-- A member comes in, nothing happens, or a member takes a step on some input. -/
inductive Event (σ ι : Type) where
  | enter (m : σ)
  | idle
  | act (i : Nat) (x : ι)

section

variable {σ ι : Type}

/-- A member whose step fails takes the process down. -/
def apply (step : σ → ι → Option σ) (p : Pool σ) (e : Event σ ι) : Pool σ :=
  if p.down then p
  else match e with
    | .enter m => { p with members := p.members++[m] }
    | .idle => p
    | .act i x =>
      match p.members[i]? with
      | none => p
      | some m =>
        match step m x with
        | none => { p with down := true }
        | some m' => { p with members := p.members.set i m' }

def run (step : σ → ι → Option σ) (p : Pool σ) (es : List (Event σ ι)) : Pool σ :=
  es.foldl (apply step) p

/-- A test of every event of a run in the state it meets. -/
def along (step : σ → ι → Option σ) (ok : Pool σ → Event σ ι → Bool) :
    Pool σ → List (Event σ ι) → Bool
  | _,[] => true
  | p,e::es => ok p e && along step ok (apply step p e) es

def survives (step : σ → ι → Option σ) (p : Pool σ) : Event σ ι → Bool
  | .act i x => match p.members[i]? with
    | some m => (step m x).isSome
    | none => true
  | _ => true

/-- The events that decide what becomes of member j. -/
def concerns (j : Nat) : Event σ ι → Bool
  | .act i _ => i=j
  | _ => true

variable (step : σ → ι → Option σ)

theorem apply_enter (p : Pool σ) (m : σ) (h : p.down=false) :
    apply step p (.enter m)={ p with members := p.members++[m] } := by
  simp only [apply,h,Bool.false_eq_true,if_false]

theorem apply_idle (p : Pool σ) : apply step p .idle=p := by
  rw [apply]
  split <;> rfl

theorem apply_act (p : Pool σ) (i : Nat) (x : ι) (m m' : σ) (h : p.down=false)
    (hm : p.members[i]?=some m) (hstep : step m x=some m') :
    apply step p (.act i x)={ p with members := p.members.set i m' } := by
  simp only [apply,h,Bool.false_eq_true,if_false,hm,hstep]

theorem apply_fail (p : Pool σ) (i : Nat) (x : ι) (m : σ) (h : p.down=false)
    (hm : p.members[i]?=some m) (hstep : step m x=none) :
    apply step p (.act i x)={ p with down := true } := by
  simp only [apply,h,Bool.false_eq_true,if_false,hm,hstep]

theorem apply_absent (p : Pool σ) (i : Nat) (x : ι) (hm : p.members[i]?=none) :
    apply step p (.act i x)=p := by
  rw [apply]
  split
  · rfl
  · simp only [hm]

theorem apply_up (p : Pool σ) (e : Event σ ι) (h : p.down=false) :
    (apply step p e).down=false ↔ survives step p e=true := by
  cases e with
  | enter m => simp only [apply_enter step p m h,h,survives]
  | idle => simp only [apply_idle,h,survives]
  | act i x =>
    cases hm : p.members[i]? with
    | none => simp only [apply_absent step p i x hm,h,survives,hm]
    | some m =>
      cases hstep : step m x with
      | none => simp [apply_fail step p i x m h hm hstep,survives,hm,hstep]
      | some m' => simp [apply_act step p i x m m' h hm hstep,survives,hm,hstep,h]

theorem run_down (p : Pool σ) (es : List (Event σ ι)) (h : p.down=true) :
    run step p es=p := by
  induction es with
  | nil => rfl
  | cons e es ih =>
    have he : apply step p e=p := by simp only [apply,h,if_true]
    rw [run,List.foldl_cons,he]
    exact ih

/-- The process is up after a run exactly when every event of it was survived. -/
theorem run_up (p : Pool σ) (es : List (Event σ ι)) (h : p.down=false) :
    (run step p es).down=false ↔ along step (survives step) p es=true := by
  induction es generalizing p with
  | nil => simp [run,along,h]
  | cons e es ih =>
    have happly := apply_up step p e h
    rw [along,Bool.and_eq_true,← happly]
    cases hdown : (apply step p e).down with
    | false =>
      rw [run,List.foldl_cons]
      exact ⟨fun hr => ⟨rfl,(ih _ hdown).mp hr⟩,fun hr => (ih _ hdown).mpr hr.2⟩
    | true =>
      have hrun : run step p (e::es)=apply step p e := by
        rw [run,List.foldl_cons]
        exact run_down step _ es hdown
      rw [hrun,hdown]
      simp

/-- Two tests that agree wherever an invariant holds agree along a run. -/
theorem along_congr (Inv : Pool σ → Prop) (ok ok' : Pool σ → Event σ ι → Bool)
    (hok : ∀ p e,Inv p → ok p e=ok' p e)
    (p : Pool σ) (es : List (Event σ ι)) (h : Inv p)
    (hinv : ∀ p,Inv p → ∀ e∈es,Inv (apply step p e)) :
    along step ok p es=along step ok' p es := by
  induction es generalizing p with
  | nil => rfl
  | cons e es ih =>
    rw [along,along,hok p e h,ih _ (hinv p h e List.mem_cons_self)
      (fun q hq f hf => hinv q hq f (List.mem_cons_of_mem _ hf))]

/-- Two pools that show the same member j. -/
structure Agree (j : Nat) (p q : Pool σ) : Prop where
  left : p.down=false
  right : q.down=false
  size : p.members.length=q.members.length
  member : p.members[j]?=q.members[j]?

theorem Agree.apply_concerned {j : Nat} {p q : Pool σ} (h : Agree j p q) (e : Event σ ι)
    (hc : concerns j e=true) (hup : survives step p e=true) :
    Agree j (apply step p e) (apply step q e) := by
  cases e with
  | enter m =>
    rw [apply_enter step p m h.left,apply_enter step q m h.right]
    refine ⟨h.left,h.right,by simp only [List.length_append,h.size],?_⟩
    simp only [List.getElem?_append,h.size,h.member]
  | idle =>
    rw [apply_idle,apply_idle]
    exact h
  | act i x =>
    have hij : i=j := of_decide_eq_true hc
    subst hij
    cases hm : p.members[i]? with
    | none =>
      rw [apply_absent step p i x hm,apply_absent step q i x (h.member ▸ hm)]
      exact h
    | some m =>
      rw [survives,hm] at hup
      obtain ⟨m',hstep⟩ := Option.isSome_iff_exists.mp hup
      rw [apply_act step p i x m m' h.left hm hstep,
        apply_act step q i x m m' h.right (h.member ▸ hm) hstep]
      refine ⟨h.left,h.right,by simp only [List.length_set,h.size],?_⟩
      simp only [List.getElem?_set,h.size,if_true]

theorem Agree.apply_other {j : Nat} {p q : Pool σ} (h : Agree j p q) (e : Event σ ι)
    (hc : concerns j e=false) (hup : survives step p e=true) : Agree j (apply step p e) q := by
  cases e with
  | enter m => exact absurd hc (by simp [concerns])
  | idle => exact absurd hc (by simp [concerns])
  | act i x =>
    have hij : i≠j := of_decide_eq_false hc
    cases hm : p.members[i]? with
    | none =>
      rw [apply_absent step p i x hm]
      exact h
    | some m =>
      rw [survives,hm] at hup
      obtain ⟨m',hstep⟩ := Option.isSome_iff_exists.mp hup
      rw [apply_act step p i x m m' h.left hm hstep]
      exact ⟨h.left,h.right,by rw [List.length_set,h.size],by
        rw [List.getElem?_set_ne hij,h.member]⟩

/-- A member of a process that stays up is as if the other members had never moved. -/
theorem Agree.run {j : Nat} {p q : Pool σ} (h : Agree j p q) (es : List (Event σ ι))
    (hup : along step (survives step) p es=true) :
    Agree j (run step p es) (run step q (es.filter (concerns j))) := by
  induction es generalizing p q with
  | nil => exact h
  | cons e es ih =>
    obtain ⟨he,hes⟩ := Bool.and_eq_true_iff.mp hup
    cases hc : concerns j e with
    | true =>
      rw [List.filter_cons_of_pos hc]
      exact ih (h.apply_concerned step e hc he) hes
    | false =>
      rw [List.filter_cons_of_neg (by simp [hc])]
      exact ih (h.apply_other step e hc he) hes

end

end IdearNiu.Pools
