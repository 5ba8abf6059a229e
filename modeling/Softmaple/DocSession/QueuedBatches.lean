import Softmaple.DocSession.Interleaving

/-!
Where the batches of a shared replica are. A binding that lives keeps its queue
until its batches are held, but for two steps: a delivery of the queue that
throws, and the destruction of the binding.
-/
namespace Softmaple.DocSession

open BlockModel StateMethod SharedReplica

variable {T : Type}

/-- A living binding has the batch in its queue. -/
def Queued (shared : SharedReplica T) (batchId : Text) : Prop :=
  ∃ (index : Nat) (binding : LexicalBinding), shared.bindings[index]? = some binding ∧
    binding.destroyed = false ∧ batchId ∈ binding.queuedRemoteBatches.map (·.batchId)

def Lives (shared : SharedReplica T) (index : Nat) : Prop :=
  ∃ binding, shared.bindings[index]? = some binding ∧ binding.destroyed = false

structure KeepsBatches (first last : SharedReplica T) : Prop where
  held : BlockReplica.KeepsHeld first.replica last.replica
  queued : ∀ batchId, Queued first batchId → last.replica.Holds batchId ∨ Queued last batchId
  lives : ∀ index, Lives first index → Lives last index

theorem chains_keepsBatches : Chains (KeepsBatches (T := T)) where
  refl shared := ⟨fun _ h => h, fun _ h => Or.inr h, fun _ h => h⟩
  trans h k := by
    refine ⟨fun batchId hheld => k.held batchId (h.held batchId hheld), ?_,
      fun index hlives => k.lives index (h.lives index hlives)⟩
    intro batchId hqueued
    cases h.queued batchId hqueued with
    | inl hheld => exact Or.inl (k.held batchId hheld)
    | inr hstill => exact k.queued batchId hstill

namespace SharedReplica

variable {engine : TextEngine T} {config : ReplicaConfig}

variable {shared : SharedReplica T}

variable {replica : BlockReplica T}

theorem keepsBatches_mapIdx
    {announced : List RichTextEventBatch} {change : Nat → LexicalBinding → LexicalBinding}
    (hheld : BlockReplica.KeepsHeld shared.replica replica)
    (hdestroyed : ∀ index binding, shared.bindings[index]? = some binding →
      (change index binding).destroyed = binding.destroyed)
    (hqueue : ∀ index binding, shared.bindings[index]? = some binding →
      ∀ batchId ∈ binding.queuedRemoteBatches.map (·.batchId), replica.Holds batchId ∨
        batchId ∈ (change index binding).queuedRemoteBatches.map (·.batchId)) :
    KeepsBatches shared { replica, bindings := shared.bindings.mapIdx change, announced } where
  held := hheld
  queued := by
    intro batchId ⟨index, binding, hbinding, hlive, hmem⟩
    cases hqueue index binding hbinding batchId hmem with
    | inl hnow => exact Or.inl hnow
    | inr hstill =>
      refine Or.inr ⟨index, change index binding, ?_, ?_, hstill⟩
      · rw [List.getElem?_mapIdx, hbinding, Option.map_some]
      · rw [hdestroyed index binding hbinding]
        exact hlive
  lives := by
    intro index ⟨binding, hbinding, hlive⟩
    refine ⟨change index binding, ?_, ?_⟩
    · rw [List.getElem?_mapIdx, hbinding, Option.map_some]
    · rw [hdestroyed index binding hbinding]
      exact hlive

theorem keepsBatches_unmoved
    {announced : List RichTextEventBatch} {change : Nat → LexicalBinding → LexicalBinding}
    (hheld : BlockReplica.KeepsHeld shared.replica replica)
    (hunmoved : ∀ index binding, LexicalBinding.Unmoved binding (change index binding)) :
    KeepsBatches shared { replica, bindings := shared.bindings.mapIdx change, announced } := by
  apply keepsBatches_mapIdx hheld
  · exact fun index binding _ => (hunmoved index binding).destroyed
  · intro index binding _ batchId hmem
    rw [(hunmoved index binding).queue]
    exact Or.inr hmem

theorem keepsBatches_update (shared : SharedReplica T) (index : Nat)
    {change : LexicalBinding → LexicalBinding}
    (hdestroyed : ∀ binding, (change binding).destroyed = binding.destroyed)
    (hqueue : ∀ binding, ∃ added,
      (change binding).queuedRemoteBatches = binding.queuedRemoteBatches ++ added) :
    KeepsBatches shared (shared.update index change) := by
  apply keepsBatches_mapIdx
  · exact fun _ h => h
  · intro other binding _
    split
    · exact hdestroyed binding
    · rfl
  · intro other binding _ batchId hmem
    split
    · obtain ⟨added, hadded⟩ := hqueue binding
      rw [hadded, List.map_append]
      exact Or.inr (List.mem_append_left _ hmem)
    · exact Or.inr hmem

theorem deliver_keepsBatches (delivery : Delivery) (batches : List RichTextEventBatch) :
    Within KeepsBatches (deliver engine config delivery batches) := by
  intro shared
  have hheld := (BlockReplica.applyRemoteEvents_delivered engine config delivery.fuel batches
    shared.replica).keepsHeld
  rw [deliver]
  cases hresult : BlockReplica.applyRemoteEvents engine config delivery.fuel batches
      shared.replica with
  | ok result replica =>
    rw [hresult] at hheld
    exact keepsBatches_unmoved hheld fun _ binding =>
      LexicalBinding.delivered_unmoved _ _ _ binding _
  | error error replica =>
    rw [hresult] at hheld
    exact keepsBatches_unmoved hheld fun _ binding => LexicalBinding.moveOn_unmoved _ _ binding

variable {delivery : Delivery}

theorem deliver_holds {batches : List RichTextEventBatch}
    {first last : SharedReplica T} (h : deliver engine config delivery batches first = .ok ⟨⟩ last)
    {batch : RichTextEventBatch} (hbatch : batch ∈ batches) : last.replica.Holds batch.batchId := by
  rw [deliver] at h
  split at h
  · next result replica hresult =>
      cases h
      exact BlockReplica.holds_of_applyRemoteEvents hresult hbatch
  · cases h

theorem transact_keepsBatches (author : Option Nat) (fuel : Nat) (context : TransactionContext T)
    (outcome : Except ReplicaError Unit) :
    Within KeepsBatches (transact engine config author fuel context outcome) := by
  intro shared
  have hheld := (BlockReplica.transact_transacted engine config fuel context outcome
    shared.replica).keepsHeld
  obtain ⟨announced, hfinal⟩ := @transact_final T engine config author fuel context outcome shared
  rw [hfinal]
  exact keepsBatches_unmoved hheld fun _ binding =>
    LexicalBinding.transacted_unmoved _ _ binding _

theorem respects_keepsBatches : Respects engine config (KeepsBatches (T := T)) where
  chains := chains_keepsBatches
  quiet shared index _ hquiet := keepsBatches_update shared index
    (fun binding => (hquiet binding).destroyed) fun binding => (hquiet binding).queue
  matching shared index := keepsBatches_update shared index (fun _ => rfl)
    fun _ => ⟨[], (List.append_nil _).symm⟩
  logDiff shared index := keepsBatches_update shared index (fun _ => rfl)
    fun _ => ⟨[], (List.append_nil _).symm⟩
  materialize shared index outcome := by
    apply keepsBatches_update shared index
    · intro binding
      exact (LexicalBinding.materialize_unmoved _ _ _).destroyed
    · intro binding
      exact ⟨[], (LexicalBinding.materialize_unmoved _ _ _).queue.trans (List.append_nil _).symm⟩
  deliver := deliver_keepsBatches
  transact := transact_keepsBatches

theorem keepsBatches_openBinding (shared : SharedReplica T) (outcome : Materialization) :
    KeepsBatches shared (shared.openBinding outcome) := by
  have hthere : ∀ {index : Nat} {binding : LexicalBinding},
      shared.bindings[index]? = some binding →
      (shared.openBinding outcome).bindings[index]? = some binding := by
    intro index binding hbinding
    obtain ⟨hindex, -⟩ := List.getElem?_eq_some_iff.mp hbinding
    rw [openBinding, List.getElem?_append_left hindex]
    exact hbinding
  refine ⟨fun _ h => h, ?_, ?_⟩
  · intro batchId ⟨index, binding, hbinding, hlive, hmem⟩
    exact Or.inr ⟨index, binding, hthere hbinding, hlive, hmem⟩
  · intro index ⟨binding, hbinding, hlive⟩
    exact ⟨binding, hthere hbinding, hlive⟩

/-- What a flush takes from the queue is delivered without a throw. -/
def QueueReturns (engine : TextEngine T) (config : ReplicaConfig) (index : Nat)
    (delivery : Delivery) (shared : SharedReplica T) : Prop :=
  ∀ binding, shared.bindings[index]? = some binding → binding.queuedRemoteBatches ≠ [] →
    delivery.captures = true → ∃ result last,
      BlockReplica.applyRemoteEvents engine config delivery.fuel binding.queuedRemoteBatches
        shared.replica = .ok result last

theorem deliver_ok {batches : List RichTextEventBatch} {result : ApplyRichTextEventsResult}
    (h : BlockReplica.applyRemoteEvents engine config delivery.fuel batches shared.replica =
      .ok result replica) :
    ∃ last, deliver engine config delivery batches shared = .ok ⟨⟩ last := by
  rw [deliver, h]
  exact ⟨_, rfl⟩

theorem takeQueue_keepsBatches {index : Nat}
    {binding : LexicalBinding} (hbinding : shared.bindings[index]? = some binding)
    (hreturns : ∃ result last, BlockReplica.applyRemoteEvents engine config delivery.fuel
      binding.queuedRemoteBatches shared.replica = .ok result last) :
    KeepsBatches shared (finalState (deliver engine config delivery binding.queuedRemoteBatches
      (shared.update index fun binding => { binding with queuedRemoteBatches := [] }))) := by
  let emptied := shared.update index fun binding => { binding with queuedRemoteBatches := [] }
  have hemptied : ∀ other, emptied.bindings[other]? = (shared.bindings[other]?).map fun binding =>
      if other = index then { binding with queuedRemoteBatches := [] } else binding := by
    intro other
    exact List.getElem?_mapIdx
  obtain ⟨result, replica, hresult⟩ := hreturns
  obtain ⟨last, hlast⟩ : ∃ last, deliver engine config delivery binding.queuedRemoteBatches
      emptied = .ok ⟨⟩ last := deliver_ok hresult
  have hkeeps : KeepsBatches emptied last := (deliver_keepsBatches delivery _).of_ok hlast
  have hgoal : finalState (deliver engine config delivery binding.queuedRemoteBatches emptied) =
      last := by
    rw [hlast, finalState_ok]
  rw [hgoal]
  refine ⟨hkeeps.held, ?_, ?_⟩
  · intro batchId ⟨other, found, hfound, hlive, hmem⟩
    by_cases hsame : other = index
    · rw [hsame, hbinding] at hfound
      cases hfound
      obtain ⟨batch, hbatch, rfl⟩ := List.mem_map.mp hmem
      exact Or.inl (deliver_holds hlast hbatch)
    · apply hkeeps.queued
      refine ⟨other, found, ?_, hlive, hmem⟩
      rw [hemptied, hfound, Option.map_some, if_neg hsame]
  · intro other ⟨found, hfound, hlive⟩
    apply hkeeps.lives
    rw [Lives, hemptied, hfound, Option.map_some]
    refine ⟨_, rfl, ?_⟩
    split
    · exact hlive
    · exact hlive

theorem flushQueue_keepsBatches {index : Nat} (h : shared.QueueReturns engine config index delivery) :
    KeepsBatches shared (finalState (flushQueue engine config index delivery shared)) := by
  cases hbinding : shared.bindings[index]? with
  | none =>
    have hmissing : getBinding index shared = .error .noBinding shared := by
      rw [getBinding, hbinding]
    rw [flushQueue, bind_of_error hmissing]
    exact chains_keepsBatches.refl shared
  | some binding =>
    have hfound : getBinding index shared = .ok binding shared := by
      rw [getBinding, hbinding]
    rw [flushQueue, bind_of_ok hfound]
    cases hqueue : binding.queuedRemoteBatches with
    | nil => exact chains_keepsBatches.refl shared
    | cons batch batches =>
      cases hcaptures : delivery.captures with
      | false => exact chains_keepsBatches.refl shared
      | true =>
        have hqueued : binding.queuedRemoteBatches ≠ [] := by
          rw [hqueue]
          exact List.cons_ne_nil _ _
        have htaken := takeQueue_keepsBatches hbinding (h binding hbinding hqueued hcaptures)
        rw [hqueue] at htaken
        exact htaken

end SharedReplica

namespace Action

variable {engine : TextEngine T} {config : ReplicaConfig}

/-- A flush delivers its queue without a throw, and a binding that is destroyed has no queue and
is not the one that is bound. -/
def Lossless (engine : TextEngine T) (config : ReplicaConfig) (bound : Option Nat)
    (shared : SharedReplica T) : Action T → Prop
  | .flushed index flush => Lives shared index → ∀ middle,
      flushEditor engine config index flush.commit shared = .ok ⟨⟩ middle →
        middle.QueueReturns engine config index flush.delivery
  | .destroyed index => bound ≠ some index ∧ ∀ binding, shared.bindings[index]? = some binding →
      binding.destroyed = false → binding.queuedRemoteBatches = []
  | .opened _ | .updated _ _ | .composing _ | .received _ _ _ | .delivered _ _
  | .transacted _ _ _ => True

/-- A lossless step may only end a binding that is not bound and has nothing queued. -/
structure Keeps (bound : Option Nat) (first last : SharedReplica T) : Prop where
  held : BlockReplica.KeepsHeld first.replica last.replica
  queued : ∀ batchId, Queued first batchId → last.replica.Holds batchId ∨ Queued last batchId
  lives : ∀ index, bound = some index → Lives first index → Lives last index

theorem keeps_of_keepsBatches {bound : Option Nat} {first last : SharedReplica T}
    (h : KeepsBatches first last) : Keeps bound first last :=
  ⟨h.held, h.queued, fun index _ hlives => h.lives index hlives⟩

variable {shared : SharedReplica T}

theorem flush_keepsBatches {index : Nat} {flush : Flush T} (h : Lives shared index → ∀ middle,
      flushEditor engine config index flush.commit shared = .ok ⟨⟩ middle →
        middle.QueueReturns engine config index flush.delivery) :
    KeepsBatches shared
      (finalState (flushComposition engine config index flush shared)) := by
  cases hbinding : shared.bindings[index]? with
  | none =>
    have hmissing : getBinding index shared = .error .noBinding shared := by
      rw [getBinding, hbinding]
    rw [flushComposition, bind_of_error hmissing]
    exact chains_keepsBatches.refl shared
  | some binding =>
    have hfound : getBinding index shared = .ok binding shared := by
      rw [getBinding, hbinding]
    rw [flushComposition, bind_of_ok hfound]
    cases hlive : binding.destroyed with
    | true => exact chains_keepsBatches.refl shared
    | false =>
      have hrespects := @SharedReplica.respects_keepsBatches T engine config
      have heditor := hrespects.flushEditor index flush.commit
      cases hresult : flushEditor engine config index flush.commit shared with
      | error error middle =>
        have hfirst := heditor.of_error hresult
        have hflush : flushSteps engine config index flush shared =
            .error error middle := by
          rw [flushSteps, bind_of_error hresult]
        show KeepsBatches shared
          (finalState (flushSteps engine config index flush shared))
        rw [hflush]
        exact hfirst
      | ok _ middle =>
        have hfirst := heditor.of_ok hresult
        have hqueue := flushQueue_keepsBatches
          (h ⟨binding, hbinding, hlive⟩ middle hresult)
        show KeepsBatches shared
          (finalState (flushSteps engine config index flush shared))
        rw [flushSteps, bind_of_ok hresult]
        apply chains_keepsBatches.trans hfirst
        cases hnext : flushQueue engine config index flush.delivery middle with
        | error error reached =>
          rw [bind_of_error hnext]
          rw [hnext] at hqueue
          exact hqueue
        | ok _ reached =>
          rw [bind_of_ok hnext]
          rw [hnext] at hqueue
          exact chains_keepsBatches.trans hqueue
            (hrespects.flushMaterialize index flush.materialization reached)

theorem destroy_keeps {bound : Option Nat} {index : Nat}
    (hbound : bound ≠ some index) (hqueue : ∀ binding, shared.bindings[index]? = some binding →
      binding.destroyed = false → binding.queuedRemoteBatches = []) :
    Keeps bound shared (shared.destroy index) := by
  have hothers : ∀ {other : Nat} {binding : LexicalBinding}, other ≠ index →
      shared.bindings[other]? = some binding →
      (shared.destroy index).bindings[other]? = some binding := by
    intro other binding hne hbinding
    rw [destroy, update, List.getElem?_mapIdx, hbinding,
      Option.map_some, if_neg hne]
  refine ⟨fun _ h => h, ?_, ?_⟩
  · rintro batchId ⟨other, binding, hbinding, hlive, hmem⟩
    by_cases hsame : other = index
    · rw [hqueue binding (hsame ▸ hbinding) hlive] at hmem
      cases hmem
    · exact Or.inr ⟨other, binding, hothers hsame hbinding, hlive, hmem⟩
  · rintro other hother ⟨binding, hbinding, hlive⟩
    have hne : other ≠ index := by
      intro heq
      rw [heq] at hother
      exact hbound hother
    exact ⟨binding, hothers hne hbinding, hlive⟩

theorem apply_keeps {bound : Option Nat} {action : Action T}
    (h : action.Lossless engine config bound shared) :
    Keeps bound shared (action.apply engine config shared) := by
  have hrespects := @SharedReplica.respects_keepsBatches T engine config
  cases action with
  | opened outcome => exact keeps_of_keepsBatches (keepsBatches_openBinding _ _)
  | updated index commit =>
    exact keeps_of_keepsBatches (hrespects.editorUpdated index commit shared)
  | composing index => exact keeps_of_keepsBatches (hrespects.compositionStart index shared)
  | flushed index flush => exact keeps_of_keepsBatches (flush_keepsBatches h)
  | received index delivery batches =>
    exact keeps_of_keepsBatches (hrespects.bindingApply index delivery batches shared)
  | delivered delivery batches =>
    exact keeps_of_keepsBatches (hrespects.deliver delivery batches shared)
  | transacted fuel context outcome =>
    exact keeps_of_keepsBatches (hrespects.transact none fuel context outcome shared)
  | destroyed index => exact destroy_keeps h.1 h.2

end Action

end Softmaple.DocSession
