import Mathlib.Tactic

namespace IdearNiu.Histories

section

variable {ε ι σ : Type} [DecidableEq ι]

/-- The state in which a history leaves an automaton that refuses wrong steps. -/
def after (next : σ → ε → Option σ) (start : σ) (log : List ε) : Option σ := log.foldlM next start

/-- The part of a history that is about one object. -/
def about (key : ε → ι) (i : ι) (log : List ε) : List ε := log.filter (fun e => key e=i)

/-- The state of one object; each object has an automaton of its own. -/
def lifeOf (next : σ → ε → Option σ) (start : σ) (key : ε → ι) (i : ι) (log : List ε) : Option σ :=
  after next start (about key i log)

variable {next : σ → ε → Option σ} {start : σ} {key : ε → ι}

@[simp] theorem after_nil : after next start []=some start := rfl

theorem after_append (log more : List ε) :
    after next start (log++more)=(after next start log).bind (fun s => after next s more) :=
  List.foldlM_append

theorem after_extend {log more : List ε} {s s' : σ} (h : after next start log=some s)
    (hmore : after next s more=some s') : after next start (log++more)=some s' := by
  rw [after_append,h]
  exact hmore

theorem after_cons_some {e : ε} {more : List ε} {s s' : σ} (h : next s e=some s') :
    after next s (e::more)=after next s' more := by
  rw [after,List.foldlM_cons,h]
  rfl

/-- Steps that leave the automaton where it is. -/
theorem after_still {more : List ε} {s : σ} (h : ∀ e∈more,next s e=some s) :
    after next s more=some s := by
  induction more with
  | nil => rfl
  | cons e more ih =>
    rw [after_cons_some (h e (List.mem_cons_self ..))]
    exact ih fun e' he' => h e' (List.mem_cons_of_mem _ he')

theorem lifeOf_other {i : ι} {log more : List ε} (h : ∀ e∈more,key e≠i) :
    lifeOf next start key i (log++more)=lifeOf next start key i log := by
  have hnone : about key i more=[] :=
    List.filter_eq_nil_iff.mpr fun e he => by simpa using h e he
  rw [lifeOf,about,List.filter_append]
  rw [about] at hnone
  rw [hnone,List.append_nil]
  rfl

theorem lifeOf_own {i : ι} {log more : List ε} {s s' : σ} (h : ∀ e∈more,key e=i)
    (hlog : lifeOf next start key i log=some s) (hmore : after next s more=some s') :
    lifeOf next start key i (log++more)=some s' := by
  have hall : about key i more=more :=
    List.filter_eq_self.mpr fun e he => by simpa using h e he
  rw [lifeOf,about,List.filter_append]
  rw [about] at hall
  rw [hall]
  exact after_extend hlog hmore

end

end IdearNiu.Histories
