import Softmaple.BlockModel.ReplicaRuns

/-!
The Lexical bindings of a shared block replica (`binding-lexical/src/binding.ts`):
composition, the queue of remote batches and the commits of editor content. The
editor, the projection and the selection are given by how each call of them
ends. What an editor's content was made of is kept in three ghost fields.
-/
namespace Softmaple.DocSession

open BlockModel

/-- How `materialize` ends: the editor takes the document, or a throw or a dropped Lexical update
leaves its content as it was. -/
inductive Materialization where
  | completed
  | failed
  deriving DecidableEq, Repr

/-- A call of `replaceDocument` by `commitEditorState`. -/
structure Diff where
  /-- The integrated batches of the document it diffs against. -/
  integrated : List RichTextEventBatch
  /-- Those of the document that the content was made from by user edits alone. -/
  shown : Option (List RichTextEventBatch)
  missed : Bool
  deriving DecidableEq, Repr

structure LexicalBinding where
  destroyed : Bool
  isComposing : Bool
  hasPendingCompositionUpdate : Bool
  hasPendingRemoteMaterialize : Bool
  queuedRemoteBatches : List RichTextEventBatch
  /-- Ghost: the integrated batches of the document that the content was last made from. -/
  shown : Option (List RichTextEventBatch)
  /-- Ghost: since then the replica has integrated something that the editor does not show. -/
  missed : Bool
  /-- Ghost: the commits so far. -/
  diffs : List Diff
  deriving DecidableEq, Repr

/-- A replica and the bindings that subscribed to it. -/
structure SharedReplica (T : Type) where
  replica : BlockReplica T
  bindings : List LexicalBinding
  /-- The batches that the subscribers were told of as local changes. -/
  announced : List RichTextEventBatch

inductive BindingError where
  | replica (error : ReplicaError)
  /-- The editor, the projection or the selection threw. -/
  | editor
  | noBinding
  deriving DecidableEq, Repr

/-- How a call of `commitEditorState` goes: it throws before the comparison, or the content
matches the document, or a transaction replaces the document. `publishes` tells whether what
follows (list values, selection) returns. -/
inductive Commit (T : Type) where
  | failed
  | matching (publishes : Bool)
  | replaced (fuel : Nat) (context : TransactionContext T) (outcome : Except ReplicaError Unit)
      (publishes : Bool)

/-- How a delivery to the replica goes: whether the selection can be captured before it, and what
each binding makes of the change. -/
structure Delivery where
  captures : Bool
  fuel : Nat
  outcomes : Nat → Materialization

/-- How a call of `flushComposition` goes. -/
structure Flush (T : Type) where
  commit : Commit T
  delivery : Delivery
  materialization : Materialization

namespace LexicalBinding

def materialize (integrated : List RichTextEventBatch) (outcome : Materialization)
    (binding : LexicalBinding) : LexicalBinding :=
  if binding.destroyed then binding
  else
    match outcome with
    | .completed => { binding with shown := some integrated, missed := false }
    | .failed => binding

def moveOn (before after : List RichTextEventBatch) (binding : LexicalBinding) : LexicalBinding :=
  if after = before then binding else { binding with missed := true }

def onRemote (integrated : List RichTextEventBatch) (outcome : Materialization)
    (binding : LexicalBinding) : LexicalBinding :=
  if binding.destroyed then binding
  else if binding.isComposing then { binding with hasPendingRemoteMaterialize := true }
  else binding.materialize integrated outcome

/-- Ghost: `replaceDocument` is called. -/
def logDiff (integrated : List RichTextEventBatch) (binding : LexicalBinding) : LexicalBinding :=
  { binding with diffs := binding.diffs ++ [⟨integrated, binding.shown, binding.missed⟩] }

/-- The content after a commit is what the first batch after `before` makes of the document. -/
def committed (before after : List RichTextEventBatch) (binding : LexicalBinding) :
    LexicalBinding :=
  if after = before then binding
  else
    let own := after.take (before.length + 1)
    { binding with shown := some own, missed := decide (own ≠ after) }

/-- What a change of the replica or of the content leaves as it was. -/
structure Unmoved (before after : LexicalBinding) : Prop where
  destroyed : after.destroyed = before.destroyed
  isComposing : after.isComposing = before.isComposing
  queue : after.queuedRemoteBatches = before.queuedRemoteBatches
  diffs : after.diffs = before.diffs

theorem Unmoved.refl (binding : LexicalBinding) : Unmoved binding binding := ⟨rfl, rfl, rfl, rfl⟩

theorem Unmoved.trans {first second third : LexicalBinding} (h : Unmoved first second)
    (k : Unmoved second third) : Unmoved first third :=
  ⟨k.destroyed.trans h.destroyed, k.isComposing.trans h.isComposing, k.queue.trans h.queue,
    k.diffs.trans h.diffs⟩

section Unmoved

variable (integrated before after : List RichTextEventBatch) (outcome : Materialization)
  (binding : LexicalBinding)

theorem materialize_unmoved : binding.Unmoved (binding.materialize integrated outcome) := by
  unfold materialize
  split
  · exact .refl binding
  · cases outcome with
    | completed => exact ⟨rfl, rfl, rfl, rfl⟩
    | failed => exact .refl binding

theorem moveOn_unmoved : binding.Unmoved (binding.moveOn before after) := by
  rw [moveOn]
  split
  · exact .refl binding
  · exact ⟨rfl, rfl, rfl, rfl⟩

@[simp] theorem moveOn_same : binding.moveOn before before = binding := if_pos rfl

theorem onRemote_unmoved : binding.Unmoved (binding.onRemote integrated outcome) := by
  rw [onRemote]
  split
  · exact .refl binding
  · split
    · exact ⟨rfl, rfl, rfl, rfl⟩
    · exact materialize_unmoved integrated outcome binding

theorem committed_unmoved : binding.Unmoved (binding.committed before after) := by
  rw [committed]
  split
  · exact .refl binding
  · exact ⟨rfl, rfl, rfl, rfl⟩

theorem delivered_unmoved (integratedBatchIds : List Text) :
    binding.Unmoved (if integratedBatchIds = [] then binding.moveOn before after
      else (binding.moveOn before after).onRemote after outcome) := by
  split
  · exact moveOn_unmoved before after binding
  · exact (moveOn_unmoved before after binding).trans (onRemote_unmoved _ _ _)

theorem transacted_unmoved (own : Prop) [Decidable own] :
    binding.Unmoved (if own then binding.committed before after
      else binding.moveOn before after) := by
  split
  · exact committed_unmoved before after binding
  · exact moveOn_unmoved before after binding

end Unmoved

variable {binding : LexicalBinding}

theorem onRemote_missed {integrated : List RichTextEventBatch}
    (hlive : binding.destroyed = false) (hcomposing : binding.isComposing = false) :
    (binding.onRemote integrated .completed).missed = false := by
  rw [onRemote, hlive, hcomposing, materialize, hlive]
  rfl

theorem materialize_missed {integrated : List RichTextEventBatch}
    (outcome : Materialization) (h : binding.missed = false) :
    (binding.materialize integrated outcome).missed = false := by
  unfold materialize
  split
  · exact h
  · cases outcome with
    | completed => rfl
    | failed => exact h

theorem committed_missed {before own : List RichTextEventBatch}
    (hown : own.length ≤ 1) (h : binding.missed = false) :
    (binding.committed before (before ++ own)).missed = false := by
  rw [committed]
  split
  · exact h
  · have hall : (before ++ own).take (before.length + 1) = before ++ own := by
      apply List.take_of_length_le
      rw [List.length_append]
      omega
    simp only [hall, ne_eq, not_true_eq_false, decide_false]

/-- A new binding, before its first `materialize`. -/
def opened : LexicalBinding where
  destroyed := false
  isComposing := false
  hasPendingCompositionUpdate := false
  hasPendingRemoteMaterialize := false
  queuedRemoteBatches := []
  shown := none
  missed := true
  diffs := []

end LexicalBinding

namespace SharedReplica

variable {T : Type}

abbrev Method (T α : Type) := EStateM BindingError (SharedReplica T) α

def update (index : Nat) (change : LexicalBinding → LexicalBinding) (shared : SharedReplica T) :
    SharedReplica T :=
  { shared with
    bindings := shared.bindings.mapIdx fun other binding =>
      if other = index then change binding else binding }

def getBinding (index : Nat) : Method T LexicalBinding := fun shared =>
  match shared.bindings[index]? with
  | some binding => .ok binding shared
  | none => .error .noBinding shared

variable (engine : TextEngine T) (config : ReplicaConfig)

/-- `replica.applyRemoteEvents`, and the subscriptions it calls if anything was integrated. -/
def deliver (delivery : Delivery) (batches : List RichTextEventBatch) : Method T Unit :=
  fun shared =>
    match BlockReplica.applyRemoteEvents engine config delivery.fuel batches shared.replica with
    | .ok result replica =>
      .ok () { shared with
        replica
        bindings := shared.bindings.mapIdx fun index binding =>
          let moved := binding.moveOn shared.replica.integrated replica.integrated
          if result.integratedBatchIds = [] then moved
          else moved.onRemote replica.integrated (delivery.outcomes index) }
    | .error error replica =>
      -- A change whose document cannot be read reaches no subscription.
      .error (.replica error) { shared with
        replica
        bindings := shared.bindings.mapIdx fun _ binding =>
          binding.moveOn shared.replica.integrated replica.integrated }

/-- `replica.transact`; only the binding at `author` has the content that the batch makes. -/
def transact (author : Option Nat) (fuel : Nat) (context : TransactionContext T)
    (outcome : Except ReplicaError Unit) : Method T Unit := fun shared =>
  let settle (replica : BlockReplica T) (announced : List RichTextEventBatch) : SharedReplica T :=
    { replica
      bindings := shared.bindings.mapIdx fun index binding =>
        if some index = author then
          binding.committed shared.replica.integrated replica.integrated
        else binding.moveOn shared.replica.integrated replica.integrated
      announced := shared.announced ++ announced }
  match BlockReplica.transact engine config fuel context outcome shared.replica with
  | .ok batch replica => .ok () (settle replica batch.toList)
  | .error error replica => .error (.replica error) (settle replica [])

/-- What `commitEditorState` does once it is neither destroyed nor applying a remote change. -/
def commitContent (index : Nat) : Commit T → Method T Unit
  | .failed => throw .editor
  | .matching publishes => do
      modify fun shared => shared.update index fun binding =>
        { binding with shown := some shared.replica.integrated, missed := false }
      if publishes then pure () else throw .editor
  | .replaced fuel context outcome publishes => do
      modify fun shared => shared.update index (·.logDiff shared.replica.integrated)
      transact engine config (some index) fuel context outcome
      if publishes then pure () else throw .editor

def commitEditorState (index : Nat) (commit : Commit T) : Method T Unit := do
  let binding ← getBinding index
  if binding.destroyed then pure () else commitContent engine config index commit

def editorUpdated (index : Nat) (commit : Commit T) : Method T Unit := do
  let binding ← getBinding index
  if binding.destroyed then pure ()
  else if binding.isComposing then
    modify (update index fun binding => { binding with hasPendingCompositionUpdate := true })
  else commitEditorState engine config index commit

def compositionStart (index : Nat) : Method T Unit := do
  let binding ← getBinding index
  if binding.destroyed then pure ()
  else modify (update index fun binding => { binding with isComposing := true })

def flushCommit (index : Nat) (commit : Commit T) : Method T Unit := do
  let binding ← getBinding index
  if binding.hasPendingCompositionUpdate then commitEditorState engine config index commit
  else pure ()

def flushQueue (index : Nat) (delivery : Delivery) : Method T Unit := do
  let binding ← getBinding index
  match binding.queuedRemoteBatches with
  | [] => pure ()
  | queued =>
    if delivery.captures then do
      modify (update index fun binding => { binding with queuedRemoteBatches := [] })
      deliver engine config delivery queued
    else throw .editor

def flushMaterialize (index : Nat) (materialization : Materialization) : Method T Unit := do
  let binding ← getBinding index
  if binding.hasPendingRemoteMaterialize then
    modify fun shared => shared.update index fun binding =>
      ({ binding with hasPendingRemoteMaterialize := false }).materialize shared.replica.integrated
        materialization
  else pure ()

/-- `flushComposition` up to the queue. -/
def flushEditor (index : Nat) (commit : Commit T) : Method T Unit := do
  modify (update index fun binding => { binding with isComposing := false })
  flushCommit engine config index commit
  modify (update index fun binding => { binding with hasPendingCompositionUpdate := false })

/-- The `try` block of `flushComposition`; the `catch` only reports the error. -/
def flushSteps (index : Nat) (flush : Flush T) : Method T Unit := do
  flushEditor engine config index flush.commit
  flushQueue engine config index flush.delivery
  flushMaterialize index flush.materialization

def flushComposition (index : Nat) (flush : Flush T) : Method T Unit := do
  let binding ← getBinding index
  if binding.destroyed then pure () else flushSteps engine config index flush

def bindingApply (index : Nat) (delivery : Delivery) (batches : List RichTextEventBatch) :
    Method T Unit := do
  let binding ← getBinding index
  if binding.isComposing then
    modify (update index fun binding =>
      { binding with queuedRemoteBatches := binding.queuedRemoteBatches ++ batches })
  else if delivery.captures then deliver engine config delivery batches
  else throw .editor

/-- `createLexicalBinding`: it shows the document and subscribes. -/
def openBinding (outcome : Materialization) (shared : SharedReplica T) : SharedReplica T :=
  { shared with
    replica := { shared.replica with listening := true }
    bindings := shared.bindings ++
      [LexicalBinding.opened.materialize shared.replica.integrated outcome] }

/-- `destroy` drops the queue. -/
def destroy (index : Nat) (shared : SharedReplica T) : SharedReplica T :=
  shared.update index fun binding =>
    if binding.destroyed then binding
    else { binding with destroyed := true, queuedRemoteBatches := [] }

end SharedReplica

section Steps

open StateMethod

variable {T : Type}

structure LexicalBinding.Quiet (before after : LexicalBinding) : Prop where
  destroyed : after.destroyed = before.destroyed
  queue : ∃ added, after.queuedRemoteBatches = before.queuedRemoteBatches ++ added
  shown : after.shown = before.shown
  missed : after.missed = before.missed
  diffs : after.diffs = before.diffs

theorem LexicalBinding.Quiet.flags {before after : LexicalBinding}
    (hdestroyed : after.destroyed = before.destroyed)
    (hqueue : after.queuedRemoteBatches = before.queuedRemoteBatches)
    (hshown : after.shown = before.shown) (hmissed : after.missed = before.missed)
    (hdiffs : after.diffs = before.diffs) : Quiet before after :=
  ⟨hdestroyed, ⟨[], hqueue.trans (List.append_nil _).symm⟩, hshown, hmissed, hdiffs⟩

/-- A relation that each step of an entry point keeps, but for the one that empties the queue. -/
structure Respects (engine : TextEngine T) (config : ReplicaConfig)
    (relation : SharedReplica T → SharedReplica T → Prop) : Prop where
  chains : Chains relation
  quiet : ∀ (shared : SharedReplica T) (index : Nat) {change : LexicalBinding → LexicalBinding},
    (∀ binding, LexicalBinding.Quiet binding (change binding)) →
      relation shared (shared.update index change)
  matching : ∀ (shared : SharedReplica T) (index : Nat),
    relation shared (shared.update index fun binding =>
      { binding with shown := some shared.replica.integrated, missed := false })
  logDiff : ∀ (shared : SharedReplica T) (index : Nat),
    relation shared (shared.update index (·.logDiff shared.replica.integrated))
  materialize : ∀ (shared : SharedReplica T) (index : Nat) (outcome : Materialization),
    relation shared (shared.update index fun binding =>
      ({ binding with hasPendingRemoteMaterialize := false }).materialize
        shared.replica.integrated outcome)
  deliver : ∀ (delivery : Delivery) (batches : List RichTextEventBatch),
    Within relation (SharedReplica.deliver engine config delivery batches)
  transact : ∀ (author : Option Nat) (fuel : Nat) (context : TransactionContext T)
    (outcome : Except ReplicaError Unit),
    Within relation (SharedReplica.transact engine config author fuel context outcome)

namespace Respects

variable {engine : TextEngine T} {config : ReplicaConfig}
  {relation : SharedReplica T → SharedReplica T → Prop}

section

variable (h : Respects engine config relation)
variable (index : Nat)
include h index

theorem getBinding : Within relation (SharedReplica.getBinding index) := by
  intro shared
  rw [SharedReplica.getBinding]
  split
  · exact h.chains.refl shared
  · exact h.chains.refl shared

theorem update {change : LexicalBinding → LexicalBinding}
    (hquiet : ∀ binding, LexicalBinding.Quiet binding (change binding)) :
    Within relation (modify (SharedReplica.update index change) : SharedReplica.Method T Unit) :=
  Within.modify fun shared => h.quiet shared index hquiet

omit index in
theorem publish (publishes : Bool) :
    Within relation (if publishes then pure () else throw .editor : SharedReplica.Method T Unit) :=
  Within.ite (Within.pure h.chains _) (Within.throw h.chains _)

theorem commitContent (commit : Commit T) :
    Within relation (SharedReplica.commitContent engine config index commit) := by
  cases commit with
  | failed => exact Within.throw h.chains _
  | matching publishes =>
    apply Within.bind h.chains
    · exact Within.modify fun shared => h.matching shared index
    · exact fun _ => h.publish publishes
  | replaced fuel context outcome publishes =>
    apply Within.bind h.chains
    · exact Within.modify fun shared => h.logDiff shared index
    · intro _
      exact Within.bind h.chains (h.transact _ _ _ _) fun _ => h.publish publishes

theorem commitEditorState (commit : Commit T) :
    Within relation (SharedReplica.commitEditorState engine config index commit) := by
  apply Within.bind h.chains (h.getBinding index)
  intro binding
  exact Within.ite (Within.pure h.chains _) (h.commitContent index commit)

theorem editorUpdated (commit : Commit T) :
    Within relation (SharedReplica.editorUpdated engine config index commit) := by
  apply Within.bind h.chains (h.getBinding index)
  intro binding
  apply Within.ite (Within.pure h.chains _)
  apply Within.ite
  · exact h.update index fun _ => .flags rfl rfl rfl rfl rfl
  · exact h.commitEditorState index commit

theorem compositionStart : Within relation (SharedReplica.compositionStart index) := by
  apply Within.bind h.chains (h.getBinding index)
  intro binding
  apply Within.ite (Within.pure h.chains _)
  exact h.update index fun _ => .flags rfl rfl rfl rfl rfl

theorem bindingApply (delivery : Delivery) (batches : List RichTextEventBatch) :
    Within relation (SharedReplica.bindingApply engine config index delivery batches) := by
  apply Within.bind h.chains (h.getBinding index)
  intro binding
  apply Within.ite
  · exact h.update index fun _ => ⟨rfl, ⟨batches, rfl⟩, rfl, rfl, rfl⟩
  · exact Within.ite (h.deliver delivery batches) (Within.throw h.chains _)

theorem flushEditor (commit : Commit T) :
    Within relation (SharedReplica.flushEditor engine config index commit) := by
  apply Within.bind h.chains
  · exact h.update index fun _ => .flags rfl rfl rfl rfl rfl
  intro _
  apply Within.bind h.chains
  · apply Within.bind h.chains (h.getBinding index)
    intro binding
    exact Within.ite (h.commitEditorState index commit) (Within.pure h.chains _)
  · exact fun _ => h.update index fun _ => .flags rfl rfl rfl rfl rfl

theorem flushMaterialize (materialization : Materialization) :
    Within relation (SharedReplica.flushMaterialize index materialization) := by
  apply Within.bind h.chains (h.getBinding index)
  intro binding
  apply Within.ite
  · exact Within.modify fun shared => h.materialize shared index materialization
  · exact Within.pure h.chains _

end

end Respects

end Steps

end Softmaple.DocSession
