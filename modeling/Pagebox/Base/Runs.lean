import Mathlib.Data.List.Basic

/-!
# Runs of a partial step function

A concurrent component is modelled by a state type, a type of actions (which
thread moves, and with which argument) and an executable
`step : σ → α → Option σ`; `none` means that the action is not enabled, or that
the thread performing it panics.  `Reach step ok s₀ s` says that `s` is reached
from `s₀` by a run each of whose steps meets the condition `ok` in the state it
is taken from.  Nothing here names a component.
-/

namespace Pagebox.Base

variable {σ α : Type}

/-- States reached from `s₀` by steps that all meet `ok`. -/
inductive Reach (step : σ → α → Option σ) (ok : σ → α → Prop) (s₀ : σ) : σ → Prop
  | refl : Reach step ok s₀ s₀
  | tail {s s' : σ} (a : α) : Reach step ok s₀ s → ok s a → step s a = some s' → Reach step ok s₀ s'

/-- The condition met by every step, for runs without restriction. -/
def anyStep : σ → α → Prop := fun _ _ => True

/-- Perform a list of actions from left to right. -/
def exec (step : σ → α → Option σ) : σ → List α → Option σ
  | s, [] => some s
  | s, a :: as => (step s a).bind fun s' => exec step s' as

/-- The step function restricted to actions that pass a test. -/
def guarded (test : σ → α → Bool) (step : σ → α → Option σ) (s : σ) (a : α) : Option σ :=
  if test s a then step s a else none

section

variable {step : σ → α → Option σ} {ok : σ → α → Prop} {s₀ s s' : σ}

theorem exec_append (step : σ → α → Option σ) (s : σ) (as bs : List α) :
    exec step s (as ++ bs) = (exec step s as).bind fun s' => exec step s' bs := by
  induction as generalizing s with
  | nil => rfl
  | cons a as ih =>
    rw [List.cons_append, exec, exec, Option.bind_assoc]
    congr 1
    funext s'
    exact ih s'

namespace Reach

theorem trans {t : σ} (h : Reach step ok s₀ s) (h' : Reach step ok s t) : Reach step ok s₀ t := by
  induction h' with
  | refl => exact h
  | tail a _ hok hstep ih => exact .tail a ih hok hstep

/-- An invariant that holds initially and is preserved by every step that meets
`ok` holds in every state reached. -/
theorem invariant {I : σ → Prop} (h : Reach step ok s₀ s) (hinit : I s₀)
    (hstep : ∀ s a s', I s → ok s a → step s a = some s' → I s') : I s := by
  induction h with
  | refl => exact hinit
  | tail a _ hok hs ih => exact hstep _ a _ ih hok hs

theorem mono {ok' : σ → α → Prop} (h : Reach step ok s₀ s) (hok : ∀ s a, ok s a → ok' s a) :
    Reach step ok' s₀ s := by
  induction h with
  | refl => exact .refl
  | tail a _ hmet hstep ih => exact .tail a ih (hok _ a hmet) hstep

/-- A list of actions that all pass a test implying `ok` leads to a reached state. -/
theorem of_exec {test : σ → α → Bool} {as : List α}
    (hexec : exec (guarded test step) s as = some s')
    (hok : ∀ s a, test s a = true → ok s a) : Reach step ok s s' := by
  induction as generalizing s with
  | nil =>
    cases hexec
    exact .refl
  | cons a as ih =>
    simp only [exec, guarded, Option.bind_eq_some_iff] at hexec
    obtain ⟨t, ht, hrest⟩ := hexec
    split at ht
    · rename_i htest
      exact (Reach.tail a .refl (hok s a htest) ht).trans (ih hrest)
    · cases ht

/-- A list of actions that meet `ok` in every state leads to a reached state. -/
theorem of_exec_forall {as : List α} (hexec : exec step s as = some s')
    (hok : ∀ a ∈ as, ∀ s, ok s a) : Reach step ok s s' := by
  induction as generalizing s with
  | nil =>
    cases hexec
    exact .refl
  | cons a as ih =>
    obtain ⟨t, ht, hrest⟩ := Option.bind_eq_some_iff.mp hexec
    exact (Reach.tail a .refl (hok a List.mem_cons_self s) ht).trans
      (ih hrest fun b hb => hok b (List.mem_cons_of_mem a hb))

theorem of_exec_any {as : List α} (hexec : exec step s as = some s') : Reach step anyStep s s' := by
  have hstep : guarded (fun _ _ => true) step = step := rfl
  exact of_exec (hstep.symm ▸ hexec) fun _ _ _ => trivial

end Reach

end

end Pagebox.Base
