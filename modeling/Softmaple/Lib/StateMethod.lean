import Mathlib.Data.List.Forall2

/-!
Methods that may throw and then leave the state as far as they got (`EStateM`).
`Within` bounds what a method does to the state whether it returns or throws;
its rules follow the structure of the method.
-/
namespace StateMethod

variable {ε σ τ α β : Type}

def finalState : EStateM.Result ε σ α → σ
  | .ok _ state => state
  | .error _ state => state

@[simp] theorem finalState_ok (a : α) (state : σ) :
    finalState (.ok a state : EStateM.Result ε σ α) = state := rfl

@[simp] theorem finalState_error (error : ε) (state : σ) :
    finalState (.error error state : EStateM.Result ε σ α) = state := rfl

def returned : EStateM.Result ε σ α → Bool
  | .ok _ _ => true
  | .error _ _ => false

theorem exists_of_returned {result : EStateM.Result ε σ α} (h : returned result = true) :
    ∃ a state, result = .ok a state := by
  cases result with
  | ok a state => exact ⟨a, state, rfl⟩
  | error error state => cases h

section Results

variable {method : EStateM ε σ α} {next : α → EStateM ε σ β} {state middle last : σ} {a : α} {b : β}
  {error : ε}

theorem bind_of_ok (h : method state = .ok a middle) : (method >>= next) state = next a middle := by
  change EStateM.bind method next state = _
  rw [EStateM.bind, h]

theorem bind_of_error (h : method state = .error error middle) :
    (method >>= next) state = .error error middle := by
  change EStateM.bind method next state = _
  rw [EStateM.bind, h]

theorem bind_eq_ok : (method >>= next) state = .ok b last ↔
    ∃ a middle, method state = .ok a middle ∧ next a middle = .ok b last := by
  cases hmethod : method state with
  | ok a middle =>
    rw [bind_of_ok hmethod]
    constructor
    · intro hnext
      exact ⟨a, middle, rfl, hnext⟩
    · rintro ⟨a', middle', heq, hnext⟩
      cases heq
      exact hnext
  | error error middle =>
    rw [bind_of_error hmethod]
    constructor
    · intro hnext
      cases hnext
    · rintro ⟨a, middle', heq, -⟩
      cases heq

@[simp] theorem pure_run : (pure a : EStateM ε σ α) state = .ok a state := rfl

@[simp] theorem throw_run : (throw error : EStateM ε σ α) state = .error error state := rfl

@[simp] theorem get_run : (get : EStateM ε σ σ) state = .ok state state := rfl

@[simp] theorem modify_run (update : σ → σ) :
    (modify update : EStateM ε σ PUnit) state = .ok ⟨⟩ (update state) := rfl

@[simp] theorem ofExcept_ok_run :
    (MonadExcept.ofExcept (Except.ok a : Except ε α) : EStateM ε σ α) state = .ok a state := rfl

theorem ofExcept_eq_ok {result : Except ε α} :
    (MonadExcept.ofExcept result : EStateM ε σ α) state = .ok a middle ↔
      result = .ok a ∧ middle = state := by
  cases result with
  | ok value =>
    constructor
    · intro h
      cases h
      exact ⟨rfl, rfl⟩
    · rintro ⟨h, rfl⟩
      cases h
      rfl
  | error error =>
    constructor
    · intro h
      cases h
    · rintro ⟨h, -⟩
      cases h

@[simp] theorem ofExcept_error_run :
    (MonadExcept.ofExcept (Except.error error : Except ε α) : EStateM ε σ α) state =
      .error error state := rfl

end Results

section Exceptions

variable {result : Except ε α} {next : α → Except ε β} {b : β}

theorem except_bind_eq_ok :
    (result >>= next) = .ok b ↔ ∃ a, result = .ok a ∧ next a = .ok b := by
  cases result with
  | ok a =>
    constructor
    · intro hnext
      exact ⟨a, rfl, hnext⟩
    · rintro ⟨a', heq, hnext⟩
      cases heq
      exact hnext
  | error error =>
    constructor
    · intro hnext
      cases hnext
    · rintro ⟨a, heq, -⟩
      cases heq

theorem except_mapM_eq_ok {method : α → Except ε β} {items : List α} {results : List β} :
    items.mapM method = .ok results ↔
      List.Forall₂ (fun item result => method item = .ok result) items results := by
  induction items generalizing results with
  | nil =>
    rw [List.mapM_nil, List.forall₂_nil_left_iff]
    constructor
    · intro h
      cases h
      rfl
    · intro h
      rw [h]
      rfl
  | cons item items ih =>
    rw [List.mapM_cons, except_bind_eq_ok]
    constructor
    · rintro ⟨first, hfirst, hrest⟩
      obtain ⟨rest, hitems, hresults⟩ := except_bind_eq_ok.mp hrest
      cases hresults
      exact .cons hfirst (ih.mp hitems)
    · intro h
      cases h with
      | cons hfirst hrest =>
        refine ⟨_, hfirst, except_bind_eq_ok.mpr ⟨_, ih.mpr hrest, rfl⟩⟩

theorem exists_matched {R : α → β → Prop} {items : List α} {results : List β} {result : β}
    (h : List.Forall₂ R items results) (hmem : result ∈ results) : ∃ item ∈ items, R item result := by
  induction h with
  | nil => cases hmem
  | cons hfirst _ ih =>
    cases List.mem_cons.mp hmem with
    | inl heq => exact ⟨_, List.mem_cons_self, heq ▸ hfirst⟩
    | inr hlater =>
      obtain ⟨item, hitem, hholds⟩ := ih hlater
      exact ⟨item, List.mem_cons_of_mem _ hitem, hholds⟩

end Exceptions

def Within (relation : σ → σ → Prop) (method : EStateM ε σ α) : Prop :=
  ∀ state, relation state (finalState (method state))

structure Chains (relation : σ → σ → Prop) : Prop where
  refl : ∀ state, relation state state
  trans : ∀ {first second third}, relation first second → relation second third →
    relation first third

variable {relation : σ → σ → Prop}

namespace Within

theorem pure (h : Chains relation) (a : α) :
    Within relation (Pure.pure a : EStateM ε σ α) := fun state => h.refl state

theorem throw (h : Chains relation) (error : ε) :
    Within relation (MonadExcept.throw error : EStateM ε σ α) := fun state => h.refl state

theorem get (h : Chains relation) : Within relation (MonadState.get : EStateM ε σ σ) :=
  fun state => h.refl state

theorem ofExcept (h : Chains relation) (result : Except ε α) :
    Within relation (MonadExcept.ofExcept result : EStateM ε σ α) := by
  intro state
  cases result with
  | ok a => exact h.refl state
  | error error => exact h.refl state

theorem modify {update : σ → σ} (h : ∀ state, relation state (update state)) :
    Within relation (modifyGet fun state => (⟨⟩, update state) : EStateM ε σ PUnit) := h

variable {method : EStateM ε σ α}

theorem bind {next : α → EStateM ε σ β} (h : Chains relation)
    (hmethod : Within relation method) (hnext : ∀ a, Within relation (next a)) :
    Within relation (method >>= next) := by
  intro state
  have hfirst := hmethod state
  cases hresult : method state with
  | ok a middle =>
    rw [bind_of_ok hresult]
    rw [hresult] at hfirst
    exact h.trans hfirst (hnext a middle)
  | error error middle =>
    rw [bind_of_error hresult]
    rw [hresult] at hfirst
    exact hfirst

theorem ite {condition : Prop} [Decidable condition] {left right : EStateM ε σ α}
    (hleft : Within relation left) (hright : Within relation right) :
    Within relation (if condition then left else right) := by
  by_cases hcondition : condition
  · rw [if_pos hcondition]
    exact hleft
  · rw [if_neg hcondition]
    exact hright

theorem of_ok {first last : σ} {a : α} (h : Within relation method)
    (hresult : method first = .ok a last) : relation first last := by
  have hfirst := h first
  rw [hresult] at hfirst
  exact hfirst

theorem of_error {first last : σ} {error : ε}
    (h : Within relation method) (hresult : method first = .error error last) :
    relation first last := by
  have hfirst := h first
  rw [hresult] at hfirst
  exact hfirst

theorem mono {wider : σ → σ → Prop} (h : Within relation method)
    (hwider : ∀ {first last}, relation first last → wider first last) : Within wider method :=
  fun state => hwider (h state)

theorem forM {method : α → EStateM ε σ PUnit} (h : Chains relation)
    (hmethod : ∀ a, Within relation (method a)) (items : List α) :
    Within relation (items.forM method) := by
  induction items with
  | nil => exact pure h _
  | cons item items ih => exact bind h (hmethod item) fun _ => ih

end Within

/-- From a state with `before` a method leaves one with `after`, however it ends. -/
def Leads (before after : σ → Prop) (method : EStateM ε σ α) : Prop :=
  ∀ state, before state → after (finalState (method state))

namespace Leads

variable {before after : σ → Prop}

theorem pure (h : ∀ state, before state → after state) (a : α) :
    Leads before after (Pure.pure a : EStateM ε σ α) := h

theorem throw (h : ∀ state, before state → after state) (error : ε) :
    Leads before after (MonadExcept.throw error : EStateM ε σ α) := h

theorem modify {update : σ → σ} (h : ∀ state, before state → after (update state)) :
    Leads before after (modifyGet fun state => (⟨⟩, update state) : EStateM ε σ PUnit) := h

variable {method : EStateM ε σ α}

/-- What holds between two steps may hold there only. -/
theorem chain {middle : σ → Prop} {next : α → EStateM ε σ β}
    (hmethod : Leads before middle method) (hnext : ∀ a, Leads middle after (next a))
    (hstop : ∀ state, middle state → after state) : Leads before after (method >>= next) := by
  intro state hstate
  have hmiddle := hmethod state hstate
  cases hresult : method state with
  | ok a reached =>
    rw [bind_of_ok hresult]
    rw [hresult] at hmiddle
    exact hnext a reached hmiddle
  | error error reached =>
    rw [bind_of_error hresult]
    rw [hresult] at hmiddle
    exact hstop reached hmiddle

theorem bind {next : α → EStateM ε σ β}
    (hmethod : Leads before after method) (hnext : ∀ a, Leads after after (next a)) :
    Leads before after (method >>= next) :=
  chain hmethod hnext fun _ h => h

theorem ite {condition : Prop} [Decidable condition] {left right : EStateM ε σ α}
    (hleft : Leads before after left) (hright : Leads before after right) :
    Leads before after (if condition then left else right) := by
  by_cases hcondition : condition
  · rw [if_pos hcondition]
    exact hleft
  · rw [if_neg hcondition]
    exact hright

theorem and {before' after' : σ → Prop} (h : Leads before after method)
    (h' : Leads before' after' method) :
    Leads (fun state => before state ∧ before' state) (fun state => after state ∧ after' state)
      method :=
  fun state hstate => ⟨h state hstate.1, h' state hstate.2⟩

theorem mono {before' after' : σ → Prop} (h : Leads before after method)
    (hbefore : ∀ state, before' state → before state) (hafter : ∀ state, after state → after' state) :
    Leads before' after' method := fun state hstate => hafter _ (h state (hbefore state hstate))

end Leads

theorem forM_eq_ok {method : α → EStateM ε σ PUnit} {items : List α} {first last : σ}
    (h : Chains relation) (hmethod : ∀ a, Within relation (method a))
    (hloop : items.forM method first = .ok ⟨⟩ last) {a : α} (ha : a ∈ items) :
    ∃ before after, method a before = .ok ⟨⟩ after ∧ relation after last := by
  induction items generalizing first with
  | nil => cases ha
  | cons item items ih =>
    have hsteps : (method item >>= fun _ => items.forM method) first = .ok ⟨⟩ last := hloop
    obtain ⟨⟨⟩, middle, hitem, hrest⟩ := bind_eq_ok.mp hsteps
    cases List.mem_cons.mp ha with
    | inl heq =>
      rw [heq]
      exact ⟨first, middle, hitem, (Within.forM h hmethod items).of_ok hrest⟩
    | inr hmem => exact ih hrest hmem

section Settling

variable {method : EStateM ε σ α} {state next : σ} {accepted wider : α → σ → Prop}

def Settles (method : EStateM ε σ α) (state : σ) (accepted : α → σ → Prop) : Prop :=
  match method state with
  | .ok a next => accepted a next
  | .error _ next => next = state

namespace Settles

theorem of_ok {a : α} (h : method state = .ok a next) (ha : accepted a next) :
    Settles method state accepted := by
  rw [Settles, h]
  exact ha

theorem of_error {error : ε} (h : method state = .error error state) : Settles method state accepted := by
  rw [Settles, h]

theorem mono (h : Settles method state accepted) (hwider : ∀ a next, accepted a next → wider a next) :
    Settles method state wider := by
  rw [Settles] at h ⊢
  cases hmethod : method state with
  | ok a next =>
    rw [hmethod] at h
    exact hwider a next h
  | error error next =>
    rw [hmethod] at h
    exact h

/-- A method that only reads, and what follows it. -/
theorem bind {reader : EStateM ε σ β} {rest : β → EStateM ε σ α} {p : β → Prop}
    (h : Settles reader state fun b next => next = state ∧ p b)
    (hrest : ∀ b, p b → Settles (rest b) state accepted) : Settles (reader >>= rest) state accepted := by
  rw [Settles] at h
  cases hreader : reader state with
  | ok b next =>
    rw [hreader] at h
    obtain ⟨rfl, hb⟩ := h
    rw [Settles, bind_of_ok hreader]
    exact hrest b hb
  | error error next =>
    rw [hreader] at h
    rw [Settles, bind_of_error hreader]
    exact h

theorem map {f : α → β} {accepted : β → σ → Prop}
    (h : Settles method state fun a next => accepted (f a) next) :
    Settles (method >>= fun a => Pure.pure (f a)) state accepted := by
  rw [Settles] at h ⊢
  cases hmethod : method state with
  | ok a next =>
    rw [hmethod] at h
    rw [bind_of_ok hmethod]
    exact h
  | error error next =>
    rw [hmethod] at h
    rw [bind_of_error hmethod]
    exact h

end Settles

end Settling

end StateMethod
