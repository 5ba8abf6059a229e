import Softmaple.DocSession.LexicalBinding

/-!
Which document a commit diffs against. Along every interleaving of editor
updates, compositions, deliveries and materializations a binding that missed no
change of the replica was last made from what is integrated now, and one that
missed a change was made from less.
-/
namespace Softmaple.DocSession

open BlockModel StateMethod

variable {T : Type}

structure Tracks (integrated : List RichTextEventBatch) (binding : LexicalBinding) : Prop where
  shows : binding.missed = false → binding.shown = some integrated
  misses : binding.missed = true → ∀ shown, binding.shown = some shown →
    shown.length < integrated.length
  diffs : ∀ diff ∈ binding.diffs, diff.shown = some diff.integrated ↔ diff.missed = false

namespace Tracks

variable {integrated before after added : List RichTextEventBatch} {binding : LexicalBinding}

theorem opened : Tracks integrated .opened where
  shows h := by cases h
  misses _ shown h := by cases h
  diffs diff h := by cases h

section

variable (h : Tracks integrated binding)
include h

/-- A change of other fields. -/
theorem congr {other : LexicalBinding}
    (hshown : other.shown = binding.shown) (hmissed : other.missed = binding.missed)
    (hdiffs : other.diffs = binding.diffs) : Tracks integrated other where
  shows hother := by rw [hshown]; exact h.shows (hmissed ▸ hother)
  misses hother := by rw [hshown]; exact h.misses (hmissed ▸ hother)
  diffs := by rw [hdiffs]; exact h.diffs

/-- The content is the document as it is now. -/
theorem current {other : LexicalBinding}
    (hshown : other.shown = some integrated) (hmissed : other.missed = false)
    (hdiffs : other.diffs = binding.diffs) : Tracks integrated other where
  shows _ := hshown
  misses hother := by rw [hmissed] at hother; cases hother
  diffs := by rw [hdiffs]; exact h.diffs

theorem materialize (outcome : Materialization) :
    Tracks integrated (binding.materialize integrated outcome) := by
  unfold LexicalBinding.materialize
  split
  · exact h
  · cases outcome with
    | completed => exact h.current rfl rfl rfl
    | failed => exact h

theorem onRemote (outcome : Materialization) :
    Tracks integrated (binding.onRemote integrated outcome) := by
  rw [LexicalBinding.onRemote]
  split
  · exact h
  · split
    · exact h.congr rfl rfl rfl
    · exact h.materialize outcome

theorem length_le {shown : List RichTextEventBatch}
    (hshown : binding.shown = some shown) : shown.length ≤ integrated.length := by
  cases hmissed : binding.missed with
  | false =>
    rw [h.shows hmissed] at hshown
    cases hshown
    exact Nat.le_refl _
  | true => exact Nat.le_of_lt (h.misses hmissed shown hshown)

omit h in
theorem moveOn (h : Tracks before binding) (hafter : after = before ++ added) :
    Tracks after (binding.moveOn before after) := by
  rw [LexicalBinding.moveOn]
  split
  · next hsame => exact hsame ▸ h
  · next hmore =>
      have hadded : added ≠ [] := by
        intro hnil
        rw [hnil, List.append_nil] at hafter
        exact hmore hafter
      refine ⟨(fun hmissed => by cases hmissed), ?_, h.diffs⟩
      intro _ shown hshown
      have hle := h.length_le hshown
      have hpos := List.length_pos_iff.mpr hadded
      rw [hafter, List.length_append]
      omega

omit h in
theorem committed (h : Tracks before binding) (after : List RichTextEventBatch) :
    Tracks after (binding.committed before after) := by
  rw [LexicalBinding.committed]
  split
  · next hsame => exact hsame ▸ h
  · refine ⟨?_, ?_, h.diffs⟩
    · intro hmissed
      have hown := of_decide_eq_false hmissed
      rw [ne_eq, not_not] at hown
      exact congrArg some hown
    · intro hmissed shown hshown
      have hown := of_decide_eq_true hmissed
      cases hshown
      by_contra hge
      apply hown
      apply List.take_of_length_le
      rw [List.length_take] at hge
      omega

/-- A commit is logged with how it finds the content. -/
theorem logDiff : Tracks integrated (binding.logDiff integrated) where
  shows := h.shows
  misses := h.misses
  diffs diff hdiff := by
    cases List.mem_append.mp hdiff with
    | inl hbefore => exact h.diffs diff hbefore
    | inr hnow =>
      rw [List.mem_singleton.mp hnow]
      constructor
      · intro hshown
        rw [← Bool.not_eq_true]
        intro hmissed
        exact absurd (h.misses hmissed _ hshown) (Nat.lt_irrefl _)
      · exact h.shows

end

end Tracks

def Tracked (shared : SharedReplica T) : Prop :=
  ∀ (index : Nat) (binding : LexicalBinding), shared.bindings[index]? = some binding →
    Tracks shared.replica.integrated binding

def KeepsTrack (first last : SharedReplica T) : Prop := Tracked first → Tracked last

theorem chains_keepsTrack : Chains (KeepsTrack (T := T)) where
  refl _ h := h
  trans h k hfirst := k (h hfirst)

namespace SharedReplica

variable {engine : TextEngine T} {config : ReplicaConfig}

variable {shared : SharedReplica T}

theorem tracked_mapIdx (h : Tracked shared) {replica : BlockReplica T}
    {announced : List RichTextEventBatch} {change : Nat → LexicalBinding → LexicalBinding}
    (hchange : ∀ index binding, Tracks shared.replica.integrated binding →
      Tracks replica.integrated (change index binding)) :
    Tracked { replica, bindings := shared.bindings.mapIdx change, announced } := by
  intro index binding hbinding
  rw [List.getElem?_mapIdx] at hbinding
  obtain ⟨original, horiginal, rfl⟩ := Option.map_eq_some_iff.mp hbinding
  exact hchange index original (h index original horiginal)

theorem tracked_update (h : Tracked shared) (index : Nat) {change : LexicalBinding → LexicalBinding}
    (hchange : ∀ binding, Tracks shared.replica.integrated binding →
      Tracks shared.replica.integrated (change binding)) : Tracked (shared.update index change) := by
  apply tracked_mapIdx h
  intro other binding hbinding
  split
  · exact hchange binding hbinding
  · exact hbinding

theorem deliver_keepsTrack (delivery : Delivery) (batches : List RichTextEventBatch) :
    Within KeepsTrack (deliver engine config delivery batches) := by
  intro shared h
  have hdelivered := BlockReplica.applyRemoteEvents_delivered engine config delivery.fuel batches
    shared.replica
  obtain ⟨added, hafter⟩ := hdelivered.integrated
  rw [deliver]
  cases hresult : BlockReplica.applyRemoteEvents engine config delivery.fuel batches
      shared.replica with
  | ok result replica =>
    rw [hresult, finalState_ok] at hafter
    apply tracked_mapIdx h
    intro index binding hbinding
    have hmoved := hbinding.moveOn hafter
    simp only
    split
    · exact hmoved
    · exact hmoved.onRemote _
  | error error replica =>
    rw [hresult, finalState_error] at hafter
    exact tracked_mapIdx h fun index binding hbinding => hbinding.moveOn hafter

theorem transact_keepsTrack (author : Option Nat) (fuel : Nat) (context : TransactionContext T)
    (outcome : Except ReplicaError Unit) :
    Within KeepsTrack (transact engine config author fuel context outcome) := by
  intro shared h
  have htransacted := BlockReplica.transact_transacted engine config fuel context outcome
    shared.replica
  obtain ⟨added, hafter⟩ := htransacted.integrated
  rw [transact]
  have hsettled : ∀ {replica : BlockReplica T} {announced : List RichTextEventBatch},
      replica.integrated = shared.replica.integrated ++ added →
      Tracked
        { replica
          bindings := shared.bindings.mapIdx fun index binding =>
            if some index = author then
              binding.committed shared.replica.integrated replica.integrated
            else binding.moveOn shared.replica.integrated replica.integrated
          announced } := by
    intro replica announced hintegrated
    apply tracked_mapIdx h
    intro index binding hbinding
    split
    · exact hbinding.committed _
    · exact hbinding.moveOn hintegrated
  cases hresult : BlockReplica.transact engine config fuel context outcome shared.replica with
  | ok batch replica =>
    rw [hresult, finalState_ok] at hafter
    exact hsettled hafter
  | error error replica =>
    rw [hresult, finalState_error] at hafter
    exact hsettled hafter

theorem respects_keepsTrack : Respects engine config (KeepsTrack (T := T)) where
  chains := chains_keepsTrack
  quiet _ index _ hquiet h := tracked_update h index fun binding hbinding =>
    hbinding.congr (hquiet binding).shown (hquiet binding).missed (hquiet binding).diffs
  matching _ index h := tracked_update h index fun _ hbinding => hbinding.current rfl rfl rfl
  logDiff _ index h := tracked_update h index fun _ hbinding => hbinding.logDiff
  materialize shared index outcome := by
    intro h
    apply tracked_update h index
    intro binding hbinding
    have hshown : Tracks shared.replica.integrated
        { binding with hasPendingRemoteMaterialize := false } := hbinding.congr rfl rfl rfl
    exact hshown.materialize outcome
  deliver := deliver_keepsTrack
  transact := transact_keepsTrack

theorem flushQueue_keepsTrack (index : Nat) (delivery : Delivery) :
    Within KeepsTrack (flushQueue engine config index delivery) := by
  have hrespects := @respects_keepsTrack T engine config
  apply Within.bind chains_keepsTrack (hrespects.getBinding index)
  intro binding
  cases binding.queuedRemoteBatches with
  | nil => exact Within.pure chains_keepsTrack _
  | cons batch batches =>
    apply Within.ite
    · apply Within.bind chains_keepsTrack
      · exact Within.modify fun shared h =>
          tracked_update h index fun binding hbinding => hbinding.congr rfl rfl rfl
      · exact fun _ => deliver_keepsTrack delivery _
    · exact Within.throw chains_keepsTrack _

theorem flushComposition_keepsTrack (index : Nat) (flush : Flush T) :
    Within KeepsTrack (flushComposition engine config index flush) := by
  have hrespects := @respects_keepsTrack T engine config
  apply Within.bind chains_keepsTrack (hrespects.getBinding index)
  intro binding
  apply Within.ite (Within.pure chains_keepsTrack _)
  apply Within.bind chains_keepsTrack (hrespects.flushEditor index flush.commit)
  intro _
  exact Within.bind chains_keepsTrack (flushQueue_keepsTrack index flush.delivery)
    fun _ => hrespects.flushMaterialize index flush.materialization

theorem tracked_openBinding (h : Tracked shared)
    (outcome : Materialization) : Tracked (shared.openBinding outcome) := by
  intro index binding hbinding
  have hopened : (shared.bindings ++
      [LexicalBinding.opened.materialize shared.replica.integrated outcome])[index]? =
        some binding := hbinding
  rw [List.getElem?_append] at hopened
  split at hopened
  · exact h index binding hopened
  · have hmem := List.mem_of_getElem? hopened
    rw [List.mem_singleton.mp hmem]
    exact Tracks.opened.materialize outcome

theorem tracked_destroy (h : Tracked shared) (index : Nat) :
    Tracked (shared.destroy index) := by
  apply tracked_update h index
  intro binding hbinding
  split
  · exact hbinding
  · exact hbinding.congr rfl rfl rfl

end SharedReplica

end Softmaple.DocSession
