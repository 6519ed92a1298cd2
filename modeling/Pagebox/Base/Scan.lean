import Mathlib.Data.List.Basic

/-!
# Scans that emit and may stop

A scan reads a list from left to right with a state, emits outputs on the way and
may stop early, keeping what it has emitted.  `f s a` gives the outputs for one
element and the next state, or `none` to stop.
-/

namespace Pagebox.Base

open List

variable {σ α β ω : Type}

def scan (f : σ → α → List ω × Option σ) : σ → List α → List ω × Option σ
  | s, [] => ([], some s)
  | s, a :: as =>
    match f s a with
    | (out, none) => (out, none)
    | (out, some s') => (out ++ (scan f s' as).1, (scan f s' as).2)

section

variable {f : σ → α → List ω × Option σ} {s s' : σ} {out : List ω} {as bs : List α}

@[simp] theorem scan_nil (f : σ → α → List ω × Option σ) (s : σ) : scan f s [] = ([], some s) := rfl

theorem scan_cons_of_some {a : α} (h : f s a = (out, some s')) (as : List α) :
    scan f s (a :: as) = (out ++ (scan f s' as).1, (scan f s' as).2) := by
  simp only [scan, h]

theorem scan_cons_of_none {a : α} (h : f s a = (out, none)) (as : List α) :
    scan f s (a :: as) = (out, none) := by
  simp only [scan, h]

theorem scan_singleton (f : σ → α → List ω × Option σ) (s : σ) (a : α) : scan f s [a] = f s a := by
  cases hf : f s a with
  | mk out next =>
    cases next with
    | none => rw [scan_cons_of_none hf]
    | some s' =>
      rw [scan_cons_of_some hf]
      simp

/-- A scan that got through a first part continues from the state it reached. -/
theorem scan_append_of_some (h : scan f s as = (out, some s')) (bs : List α) :
    scan f s (as ++ bs) = (out ++ (scan f s' bs).1, (scan f s' bs).2) := by
  induction as generalizing s out with
  | nil =>
    simp only [scan_nil, Prod.mk.injEq, Option.some.injEq] at h
    obtain ⟨rfl, rfl⟩ := h
    simp
  | cons a as ih =>
    cases hf : f s a with
    | mk out₁ next =>
      cases next with
      | none =>
        rw [scan_cons_of_none hf, Prod.mk.injEq] at h
        cases h.2
      | some s₁ =>
        rw [scan_cons_of_some hf, Prod.mk.injEq] at h
        have hrest : scan f s₁ as = ((scan f s₁ as).1, some s') := Prod.ext rfl h.2
        rw [cons_append, scan_cons_of_some hf, ih hrest, ← h.1]
        simp only [append_assoc]

theorem scan_append_of_none (h : scan f s as = (out, none)) (bs : List α) :
    scan f s (as ++ bs) = (out, none) := by
  induction as generalizing s out with
  | nil => cases h
  | cons a as ih =>
    cases hf : f s a with
    | mk out₁ next =>
      cases next with
      | none =>
        rw [scan_cons_of_none hf] at h
        rw [cons_append, scan_cons_of_none hf, h]
      | some s₁ =>
        rw [scan_cons_of_some hf, Prod.mk.injEq] at h
        have hrest : scan f s₁ as = ((scan f s₁ as).1, none) := Prod.ext rfl h.2
        rw [cons_append, scan_cons_of_some hf, ih hrest, ← h.1]

/-- A scan whose elements each act like a scan of smaller parts. -/
theorem scan_flatMap {g : σ → β → List ω × Option σ} {parts : α → List β}
    (h : ∀ a ∈ as, ∀ s, f s a = scan g s (parts a)) (s : σ) :
    scan f s as = scan g s (as.flatMap parts) := by
  induction as generalizing s with
  | nil => rfl
  | cons a as ih =>
    have hrest := ih fun x hx => h x (mem_cons_of_mem _ hx)
    have ha := h a mem_cons_self s
    rw [flatMap_cons]
    cases hg : scan g s (parts a) with
    | mk out next =>
      rw [hg] at ha
      cases next with
      | none => rw [scan_cons_of_none ha, scan_append_of_none hg]
      | some s' => rw [scan_cons_of_some ha, scan_append_of_some hg, hrest]

theorem scan_map {g : β → α} {bs : List β} (s : σ) :
    scan f s (bs.map g) = scan (fun s b => f s (g b)) s bs := by
  have hone : ∀ b ∈ bs, ∀ s, f s (g b) = scan f s [g b] :=
    fun b _ s => (scan_singleton f s (g b)).symm
  rw [scan_flatMap hone, map_eq_flatMap]

/-- Elements that emit nothing leave a scan without outputs, whether it stops or
not. -/
theorem scan_silent (h : ∀ a ∈ as, ∀ s, (f s a).1 = []) (s : σ) : (scan f s as).1 = [] := by
  induction as generalizing s with
  | nil => rfl
  | cons a as ih =>
    have hrest := ih fun x hx => h x (mem_cons_of_mem _ hx)
    have ha := h a mem_cons_self s
    cases hf : f s a with
    | mk out next =>
      rw [hf] at ha
      cases next with
      | none =>
        rw [scan_cons_of_none hf]
        exact ha
      | some s' =>
        rw [scan_cons_of_some hf, hrest s', append_nil]
        exact ha

end

end Pagebox.Base
