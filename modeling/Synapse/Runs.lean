import Synapse.Python

/-!
# Runs of operations

A system takes one operation after the other. What every operation keeps is kept
by a run, also where this needs a condition on each of the states that the
operations come to, and where an operation could raise.
-/

set_option autoImplicit false

namespace Synapse.Runs

section Total

variable {S O : Type} (step : O → S → S)

def run : List O → S → S
  | [], s => s
  | op::ops, s => run ops (step op s)

theorem run_append (ops rs : List O) (s : S) :
    run step (ops ++ rs) s = run step rs (run step ops s) := by
  induction ops generalizing s with
  | nil => rfl
  | cons op ops ih => exact ih _

variable (admits : O → S → Prop)

/-- Each operation meets the condition where it comes. -/
def Admitted : List O → S → Prop
  | [], _ => True
  | op::ops, s => admits op s ∧ Admitted ops (step op s)

instance decidableAdmitted [∀ op s, Decidable (admits op s)] :
    ∀ ops s, Decidable (Admitted step admits ops s)
  | [], _ => inferInstanceAs (Decidable True)
  | op::ops, s =>
    have := decidableAdmitted ops (step op s)
    inferInstanceAs (Decidable (_ ∧ _))

theorem admitted_append (ops rs : List O) (s : S) :
    Admitted step admits (ops ++ rs) s ↔
      Admitted step admits ops s ∧ Admitted step admits rs (run step ops s) := by
  induction ops generalizing s with
  | nil => simp [Admitted,run]
  | cons op ops ih => simp [Admitted,run,ih,and_assoc]

theorem run_invariant {step : O → S → S} {I : S → Prop} (hs : ∀ op s, I s → I (step op s))
    (ops : List O) {s : S} (h : I s) : I (run step ops s) := by
  induction ops generalizing s with
  | nil => exact h
  | cons op ops ih => exact ih (hs op s h)

variable {step admits}

theorem Admitted.invariant {I : S → Prop} (hs : ∀ op s, I s → admits op s → I (step op s))
    {ops : List O} {s : S} (ha : Admitted step admits ops s) (h : I s) : I (run step ops s) := by
  induction ops generalizing s with
  | nil => exact h
  | cons op ops ih => exact ih ha.2 (hs op s h ha.1)

theorem Admitted.history {I : List O → S → Prop} {s : S}
    (hs : ∀ ops op s, I ops s → admits op s → I (ops ++ [op]) (step op s)) {ops : List O}
    (ha : Admitted step admits ops s) (h : I [] s) : I ops (run step ops s) := by
  induction ops using List.reverseRecOn with
  | nil => exact h
  | append_singleton ops op ih =>
    obtain ⟨ha,hop,-⟩ := (admitted_append step admits ops [op] s).mp ha
    rw [run_append]
    exact hs ops op _ (ih ha) hop

theorem Admitted.simulation {T : Type} {step' : O → T → T} {R : S → T → Prop}
    (hs : ∀ op s t, R s t → admits op s → R (step op s) (step' op t)) {ops : List O} {s : S} {t : T}
    (ha : Admitted step admits ops s) (h : R s t) : R (run step ops s) (run step' ops t) := by
  induction ops generalizing s t with
  | nil => exact h
  | cons op ops ih => exact ih ha.2 (hs op s t h ha.1)

end Total

section Raising

variable {S O E : Type}

theorem foldlM_invariant {step : S → O → Except E S} {I : S → Prop}
    (hs : ∀ s op, I s → ∃ s', step s op = .ok s' ∧ I s') (ops : List O) {s : S} (h : I s) :
    ∃ s', ops.foldlM step s = .ok s' ∧ I s' := by
  induction ops generalizing s with
  | nil => exact ⟨s,rfl,h⟩
  | cons op ops ih =>
    obtain ⟨s₁,hs₁,h₁⟩ := hs s op h
    obtain ⟨s₂,hs₂,h₂⟩ := ih h₁
    refine ⟨s₂,?_,h₂⟩
    rw [List.foldlM_cons,hs₁]
    exact hs₂

theorem foldlM_ok_invariant {step : S → O → Except E S} {I : S → Prop} {ops : List O}
    (hs : ∀ op ∈ ops, ∀ s s', I s → step s op = .ok s' → I s') {s s' : S} (h : I s)
    (hrun : ops.foldlM step s = .ok s') : I s' := by
  induction ops generalizing s with
  | nil =>
    cases hrun
    exact h
  | cons op ops ih =>
    rw [List.forall_mem_cons] at hs
    obtain ⟨s₁,hs₁,hr⟩ := Python.bind_eq_ok.mp hrun
    exact ih hs.2 (hs.1 s s₁ h hs₁) hr

end Raising

end Synapse.Runs
