import Mathlib.Data.List.Forall2

/-!
Machines that answer calls, and when one answers as another: a relation on the
states that every allowed call keeps, with related answers, relates the
answers of whole runs.
-/
namespace AnswerRefinement

variable {σ τ ι ο : Type*}

structure Machine (σ ι ο : Type*) where
  start : σ
  exec : σ → ι → σ × ο

namespace Machine

def answers (machine : Machine σ ι ο) : σ → List ι → List ο
  | _, [] => []
  | state, call :: calls =>
    (machine.exec state call).2 :: machine.answers (machine.exec state call).1 calls

def run (machine : Machine σ ι ο) (calls : List ι) : List ο := machine.answers machine.start calls

/-- Every call of the run is allowed in the state it comes to. -/
def Allows (machine : Machine σ ι ο) (allowed : σ → ι → Prop) : σ → List ι → Prop
  | _, [] => True
  | state, call :: calls =>
    allowed state call ∧ machine.Allows allowed (machine.exec state call).1 calls

/-- One step of `machine` is one of `spec`, with the same answer. -/
def Simulates (machine : Machine σ ι ο) (spec : Machine τ ι ο) (allowed : σ → ι → Prop)
    (related : σ → τ → Prop) (same : ο → ο → Prop) : Prop :=
  ∀ state other call, related state other → allowed state call →
    related (machine.exec state call).1 (spec.exec other call).1 ∧
      same (machine.exec state call).2 (spec.exec other call).2

theorem Simulates.answers {machine : Machine σ ι ο} {spec : Machine τ ι ο} {allowed : σ → ι → Prop}
    {related : σ → τ → Prop} {same : ο → ο → Prop}
    (h : machine.Simulates spec allowed related same) {calls : List ι} {state : σ} {other : τ}
    (hrelated : related state other) (hallowed : machine.Allows allowed state calls) :
    List.Forall₂ same (machine.answers state calls) (spec.answers other calls) := by
  induction calls generalizing state other with
  | nil => exact .nil
  | cons call calls ih =>
    obtain ⟨hnext, hanswer⟩ := h state other call hrelated hallowed.1
    exact .cons hanswer (ih hnext hallowed.2)

end Machine

end AnswerRefinement
