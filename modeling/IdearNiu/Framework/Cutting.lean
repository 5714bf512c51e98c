import Mathlib.Data.List.TakeWhile
import Mathlib.Tactic

namespace IdearNiu.Cutting

/-! Cutting a text at the first of some separators. -/

variable {α : Type} [DecidableEq α]

/-- What stands before the first separator. -/
def before (seps text : List α) : List α := text.takeWhile (·∉seps)

/-- The text from the first separator on. -/
def onward (seps text : List α) : List α := text.dropWhile (·∉seps)

theorem before_append_onward (seps text : List α) : before seps text++onward seps text=text :=
  List.takeWhile_append_dropWhile

theorem before_free (seps text : List α) : ∀ c∈before seps text,c∉seps := by
  intro c hc
  simpa using List.mem_takeWhile_imp hc

/-- What follows the cut is the end or a separator. -/
def Stops (seps text : List α) : Prop := ∀ c,text.head?=some c → c∈seps

theorem onward_stops (seps text : List α) : Stops seps (onward seps text) := by
  intro c hc
  have h := List.head?_dropWhile_not (·∉seps) text
  rw [onward] at hc
  rw [hc] at h
  simpa using h

omit [DecidableEq α] in
theorem stops_nil (seps : List α) : Stops seps [] := by
  intro c hc
  cases hc

omit [DecidableEq α] in
theorem stops_cons (seps : List α) (c : α) (text : List α) (h : c∈seps) : Stops seps (c::text) := by
  intro d hd
  rw [List.head?_cons,Option.some.injEq] at hd
  rw [← hd]
  exact h

theorem onward_of_stops (seps text : List α) (h : Stops seps text) : onward seps text=text := by
  cases text with
  | nil => rfl
  | cons c text =>
    rw [onward,List.dropWhile_cons_of_neg]
    simpa using h c rfl

theorem onward_cons (seps : List α) (c : α) (text : List α) (h : c∉seps) :
    onward seps (c::text)=onward seps text := by
  rw [onward,List.dropWhile_cons_of_pos (by simpa using h)]
  rfl

theorem before_of_stops (seps text : List α) (h : Stops seps text) : before seps text=[] := by
  cases text with
  | nil => rfl
  | cons c text =>
    rw [before,List.takeWhile_cons_of_neg]
    simpa using h c rfl

/-- A text without separators before a separator or the end is what the cut gives. -/
theorem cut_append (seps text rest : List α) (hfree : ∀ c∈text,c∉seps) (h : Stops seps rest) :
    before seps (text++rest)=text ∧ onward seps (text++rest)=rest := by
  have hall : ∀ c∈text,decide (c∉seps)=true := fun c hc => decide_eq_true (hfree c hc)
  constructor
  · rw [before,List.takeWhile_append_of_pos hall,← before,before_of_stops seps rest h,
      List.append_nil]
  · rw [onward,List.dropWhile_append_of_pos hall,← onward,onward_of_stops seps rest h]

end IdearNiu.Cutting
