import Softmaple.BlockModel.StateGrowth

/-!
What a callback makes of its transaction: the state only grows, and as long as
no edit failed the events carry the first unused sequence numbers of the
replica, in order.
-/
namespace Softmaple.BlockModel

open StateMethod List

variable {T : Type}

namespace ReplicaState

def Unused (replicaId : Text) (state : ReplicaState T) (sequence : Nat) : Prop :=
  state.nextSequenceNumber ≤ sequence ∧ sequence ≤ maxSafeInteger ∧
    Codec.formatEventId replicaId sequence ∉ state.eventGraph

/-- The numbers are the first unused ones, in ascending order. -/
structure FirstUnused (replicaId : Text) (state : ReplicaState T) (numbers : List Nat) : Prop where
  ascending : numbers.Pairwise (· < ·)
  unused : ∀ n ∈ numbers, Unused replicaId state n
  first : ∀ n ∈ numbers, ∀ m < n, Unused replicaId state m → m ∈ numbers

theorem formatEventId_inj {replicaId : Text} {n m : Nat} (hn : n ≤ maxSafeInteger)
    (hm : m ≤ maxSafeInteger)
    (h : Codec.formatEventId replicaId n = Codec.formatEventId replicaId m) : n = m := by
  have hdigits : Codec.decimal n = Codec.decimal m :=
    tail_eq_of_cons_eq (append_cancel_left h)
  have hread := Codec.readDigits_decimalDigits _ n (Codec.decimal_lt hn)
  have hdecimal : Codec.decimalDigits (Codec.maxSafeSequenceDigits - 1) n =
      Codec.decimalDigits (Codec.maxSafeSequenceDigits - 1) m := hdigits
  rw [hdecimal, Codec.readDigits_decimalDigits _ m (Codec.decimal_lt hm)] at hread
  exact (Option.some.inj hread).symm

end ReplicaState

namespace TransactionContext

open ReplicaState

variable {engine : TextEngine T} {replicaId : Text} {first last : TransactionContext T}

variable {context : TransactionContext T} {apply : ReplicaState.Method T RichTextEvent}

theorem edit_of_failure {error : ReplicaError} (h : context.failure = some error) :
    edit apply context = .error error context := by
  have husable : assertUsable context = .error error context := by rw [assertUsable, h]
  exact bind_of_error husable

theorem edit_of_usable (h : context.failure = none) : edit apply context =
      match apply context.state with
      | .ok event state =>
        .ok () { context with state, events := context.events ++ [event], mutated := true }
      | .error error state =>
        .error error { context with state, failure := some error, mutated := true } := by
  have husable : assertUsable context = .ok ⟨⟩ context := by rw [assertUsable, h]
  exact bind_of_ok husable

theorem edit_eq_ok {next : TransactionContext T} (h : edit apply context = .ok ⟨⟩ next) :
    context.failure = none ∧ ∃ event state, apply context.state = .ok event state ∧
      next = { context with state, events := context.events ++ [event], mutated := true } := by
  have husable : context.failure = none := by
    cases hfailure : context.failure with
    | some error =>
      rw [edit_of_failure hfailure] at h
      cases h
    | none => rfl
  refine ⟨husable, ?_⟩
  rw [edit_of_usable husable] at h
  split at h
  · next event state hedited =>
      cases h
      exact ⟨event, state, hedited, rfl⟩
  · cases h

theorem edit_eq_error {error : ReplicaError}
    {next : TransactionContext T} (h : edit apply context = .error error next) :
    (next = context ∧ context.failure = some error) ∨
      context.failure = none ∧ ∃ state, apply context.state = .error error state ∧
        next = { context with state, failure := some error, mutated := true } := by
  cases hfailure : context.failure with
  | some thrown =>
    rw [edit_of_failure hfailure] at h
    cases h
    exact Or.inl ⟨rfl, rfl⟩
  | none =>
    rw [edit_of_usable hfailure] at h
    split at h
    · cases h
    · next thrown state hfailed =>
        cases h
        exact Or.inr ⟨rfl, state, hfailed, rfl⟩

structure Run (replicaId : Text) (start : ReplicaState T) (parents : List Text)
    (context : TransactionContext T) : Prop where
  grows : Grows start context.state
  parents : context.initialParentVersion = parents
  recorded : ∀ event ∈ context.events, event.id ∈ context.state.eventGraph
  indexed : ∀ event ∈ context.events, event.id ∈ context.state.causal
  unmutated : context.mutated = false → context.failure = none ∧ context.events = []
  numbered : context.failure = none → ∃ numbers, FirstUnused replicaId start numbers ∧
    context.events.map (·.id) = numbers.map (Codec.formatEventId replicaId) ∧
    context.state.eventGraph = start.eventGraph ++ context.events.map (·.id) ∧
    start.nextSequenceNumber ≤ context.state.nextSequenceNumber ∧
    (∀ m < context.state.nextSequenceNumber, Unused replicaId start m → m ∈ numbers) ∧
    ∀ n ∈ numbers, n < context.state.nextSequenceNumber ∨
      n = maxSafeInteger ∧ context.state.nextSequenceNumber = maxSafeInteger

theorem Run.start (replicaId : Text) (state : ReplicaState T) :
    Run replicaId state state.frontier (.start state) where
  grows := Grows.refl state
  parents := rfl
  recorded _ hmem := absurd hmem not_mem_nil
  indexed _ hmem := absurd hmem not_mem_nil
  unmutated _ := ⟨rfl, rfl⟩
  numbered _ := by
    refine ⟨[], ⟨List.Pairwise.nil, ?_, ?_⟩, rfl, (append_nil _).symm, Nat.le_refl _, ?_, ?_⟩
    · intro n hmem
      cases hmem
    · intro n hmem
      cases hmem
    · intro m hlt hunused
      exact absurd hlt (Nat.not_lt_of_le hunused.1)
    · intro n hmem
      cases hmem

variable {start : ReplicaState T} {parents : List Text} {context : TransactionContext T}

section

variable (h : Run replicaId start parents context)
include h

theorem Run.read (text : T) :
    Run replicaId start parents { context with state := { context.state with text } } where
  grows := ⟨h.grows.eventGraph, h.grows.causal⟩
  parents := h.parents
  recorded := h.recorded
  indexed := h.indexed
  unmutated := h.unmutated
  numbered := h.numbered

theorem Run.edited {state : ReplicaState T}
    {event : RichTextEvent} {sequence : Nat} (husable : context.failure = none)
    (hgrows : Grows context.state state) (hindexed : event.id ∈ state.causal)
    (hedited : Edited replicaId context.state state event.id sequence) : Run replicaId start parents
      { context with state, events := context.events ++ [event], mutated := true } where
  grows := h.grows.trans hgrows
  parents := h.parents
  recorded other hother := by
    cases mem_append.mp hother with
    | inl hbefore => exact hgrows.eventGraph _ (h.recorded other hbefore)
    | inr hnow =>
      rw [mem_singleton.mp hnow, hedited.eventGraph]
      exact mem_append_right _ mem_cons_self
  indexed other hother := by
    cases mem_append.mp hother with
    | inl hbefore => exact hgrows.causal _ (h.indexed other hbefore)
    | inr hnow =>
      rw [mem_singleton.mp hnow]
      exact hindexed
  unmutated hmutated := by cases hmutated
  numbered _ := by
    obtain ⟨numbers, hfirst, hids, hgraph, hstart, hbelow, hgiven⟩ := h.numbered husable
    -- Every number given so far is below the new one.
    have habove : ∀ n ∈ numbers, n < sequence := by
      intro n hn
      have hnext := hedited.start
      cases hgiven n hn with
      | inl hlt => omega
      | inr hlast =>
        have hsafe := hedited.safe
        have heq : ¬ sequence = n := by
          intro heq
          apply hedited.free
          rw [hgraph, hids, heq]
          exact mem_append_right _ (mem_map_of_mem hn)
        omega
    have hunused : Unused replicaId start sequence := by
      refine ⟨Nat.le_trans hstart hedited.start, hedited.safe, fun hmem => hedited.free ?_⟩
      rw [hgraph]
      exact mem_append_left _ hmem
    have hcovered : ∀ m < sequence, Unused replicaId start m → m ∈ numbers := by
      intro m hlt hm
      by_cases hnext : m < context.state.nextSequenceNumber
      · exact hbelow m hnext hm
      · have hused := hedited.used m (Nat.le_of_not_lt hnext) hlt
        rw [hgraph, hids] at hused
        cases mem_append.mp hused with
        | inl hmem => exact absurd hmem hm.2.2
        | inr hmem =>
          obtain ⟨n, hn, heq⟩ := mem_map.mp hmem
          rw [← formatEventId_inj (hfirst.unused n hn).2.1 hm.2.1 heq]
          exact hn
    refine ⟨numbers ++ [sequence], ⟨?_, ?_, ?_⟩, ?_, ?_, ?_, ?_, ?_⟩
    · rw [pairwise_append]
      refine ⟨hfirst.ascending, pairwise_singleton _ _, ?_⟩
      intro n hn m hm
      rw [mem_singleton.mp hm]
      exact habove n hn
    · intro n hn
      cases mem_append.mp hn with
      | inl hbefore => exact hfirst.unused n hbefore
      | inr hnow =>
        rw [mem_singleton.mp hnow]
        exact hunused
    · intro n hn m hlt hm
      cases mem_append.mp hn with
      | inl hbefore => exact mem_append_left _ (hfirst.first n hbefore m hlt hm)
      | inr hnow =>
        rw [mem_singleton.mp hnow] at hlt
        exact mem_append_left _ (hcovered m hlt hm)
    · rw [map_append, map_append, hids, map_singleton, map_singleton,
        hedited.eventId_eq]
    · rw [hedited.eventGraph, hgraph, map_append, append_assoc, map_singleton]
    · have hnext := hedited.nextSequenceNumber
      have hsafe := hedited.safe
      have hle := hedited.start
      change _ ≤ state.nextSequenceNumber
      omega
    · intro m hlt hm
      have hnext := hedited.nextSequenceNumber
      have hlt : m < state.nextSequenceNumber := hlt
      by_cases heq : m = sequence
      · rw [heq]
        exact mem_append_right _ mem_cons_self
      · exact mem_append_left _ (hcovered m (by omega) hm)
    · intro n hn
      have hnext := hedited.nextSequenceNumber
      have hsafe := hedited.safe
      change n < state.nextSequenceNumber ∨ _ ∧ state.nextSequenceNumber = _
      cases mem_append.mp hn with
      | inl hbefore =>
        have hlt := habove n hbefore
        omega
      | inr hnow =>
        rw [mem_singleton.mp hnow]
        omega

theorem Run.failed {state : ReplicaState T}
    {error : ReplicaError} (hgrows : Grows context.state state) :
    Run replicaId start parents
      { context with state, failure := some error, mutated := true } where
  grows := h.grows.trans hgrows
  parents := h.parents
  recorded event hmem := hgrows.eventGraph _ (h.recorded event hmem)
  indexed event hmem := hgrows.causal _ (h.indexed event hmem)
  unmutated hmutated := by cases hmutated
  numbered hfailure := by cases hfailure

end

theorem CallbackRun.run (hrun : CallbackRun engine replicaId first last)
    (h : Run replicaId start parents first) : Run replicaId start parents last := by
  induction hrun with
  | done context => exact h
  | read text rest ih => exact ih (h.read text)
  | edited timestamp operation effectFor rejection result rest ih =>
    apply ih
    obtain ⟨husable, event, state, hedit, rfl⟩ := edit_eq_ok result
    obtain ⟨sequence, hedited⟩ := editText_edited hedit
    exact h.edited husable ((editText_grows engine _ _ _ _ _).of_ok hedit)
      (editText_indexed hedit) hedited
  | failed timestamp operation effectFor rejection error result rest ih =>
    apply ih
    cases edit_eq_error result with
    | inl hsame => exact hsame.1 ▸ h
    | inr hfailed =>
      obtain ⟨-, state, hedit, rfl⟩ := hfailed
      have hgrows := editText_grows engine replicaId timestamp operation effectFor rejection
      exact h.failed (hgrows.of_error hedit)

end TransactionContext

end Softmaple.BlockModel
