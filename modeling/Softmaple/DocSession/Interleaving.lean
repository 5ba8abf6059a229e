import Softmaple.BlockModel.ParkedBatches
import Softmaple.DocSession.ShownContent

/-!
Interleavings of editor updates, compositions, deliveries and transactions over
a shared replica. What a commit diffs against is what the editor's content was
made from exactly if the replica integrated nothing that the editor missed, and
an interleaving of attended steps misses nothing.
-/
namespace Softmaple.DocSession

open BlockModel StateMethod SharedReplica LexicalBinding List

variable {T : Type}

/-- What may happen to a shared replica. -/
inductive Action (T : Type) where
  | opened (outcome : Materialization)
  | updated (index : Nat) (commit : Commit T)
  | composing (index : Nat)
  | flushed (index : Nat) (flush : Flush T)
  | received (index : Nat) (delivery : Delivery) (batches : List RichTextEventBatch)
  /-- A delivery to the replica, past every binding. -/
  | delivered (delivery : Delivery) (batches : List RichTextEventBatch)
  /-- A transaction of someone else than a binding. -/
  | transacted (fuel : Nat) (context : TransactionContext T) (outcome : Except ReplicaError Unit)
  | destroyed (index : Nat)

namespace Action

/-- Whoever calls sees an error; the shared replica keeps what was done before it. -/
def apply (engine : TextEngine T) (config : ReplicaConfig) (shared : SharedReplica T) :
    Action T → SharedReplica T
  | .opened outcome => shared.openBinding outcome
  | .updated index commit => finalState (editorUpdated engine config index commit shared)
  | .composing index => finalState (compositionStart index shared)
  | .flushed index flush => finalState (flushComposition engine config index flush shared)
  | .received index delivery batches =>
    finalState (bindingApply engine config index delivery batches shared)
  | .delivered delivery batches =>
    finalState (deliver engine config delivery batches shared)
  | .transacted fuel context outcome =>
    finalState (transact engine config none fuel context outcome shared)
  | .destroyed index => shared.destroy index

end Action

/-- A commit that replaces the document edits it from the state that the replica is in. -/
def Commit.Runs (engine : TextEngine T) (config : ReplicaConfig) (replica : BlockReplica T) :
    Commit T → Prop
  | .failed | .matching _ => True
  | .replaced _ context _ _ =>
    TransactionContext.CallbackRun engine config.replicaId (.start replica.state) context

/-- A commit whose batch makes no parked batch ready. -/
def Commit.WakesNothing (config : ReplicaConfig) (replica : BlockReplica T) : Commit T → Prop
  | .failed | .matching _ => True
  | .replaced _ context outcome _ => BlockReplica.WakesNothing config replica context outcome

namespace Action

/-- The transactions of a step edit the state that the replica is in. -/
def Runs (engine : TextEngine T) (config : ReplicaConfig) (shared : SharedReplica T) :
    Action T → Prop
  | .updated _ commit => commit.Runs engine config shared.replica
  | .flushed _ flush => flush.commit.Runs engine config shared.replica
  | .transacted _ context _ =>
    TransactionContext.CallbackRun engine config.replicaId (.start shared.replica.state) context
  | .opened _ | .composing _ | .received _ _ _ | .delivered _ _ | .destroyed _ => True

end Action

def Settled (shared : SharedReplica T) : Prop :=
  ∀ (index : Nat) (binding : LexicalBinding), shared.bindings[index]? = some binding →
    binding.destroyed = false → binding.isComposing = false

def NoneLives (shared : SharedReplica T) : Prop :=
  ∀ (index : Nat) (binding : LexicalBinding), shared.bindings[index]? = some binding →
    binding.destroyed = true

def Delivery.Completes (delivery : Delivery) : Prop :=
  ∀ index, delivery.outcomes index = .completed

namespace Action

/-- The replica changes only where the living binding takes the change: it is the only one, its
materializations complete, what arrives while it composes goes through its queue, and nothing
but its own commits edits the replica, each of which wakes no parked batch. -/
def Attended (config : ReplicaConfig) (shared : SharedReplica T) : Action T → Prop
  | .opened outcome => outcome = .completed ∧ NoneLives shared
  | .updated _ commit => commit.WakesNothing config shared.replica
  | .flushed _ flush =>
    flush.commit.WakesNothing config shared.replica ∧ flush.delivery.Completes
  | .received index delivery _ => delivery.Completes ∧
      (Settled shared ∨ ∃ binding, shared.bindings[index]? = some binding ∧
        binding.destroyed = false)
  | .delivered delivery _ => delivery.Completes ∧ Settled shared
  | .transacted _ _ _ => NoneLives shared
  | .composing _ | .destroyed _ => True

end Action

/-- What a sequence of allowed steps makes of a replica that nobody shares yet. -/
inductive Interleaving (engine : TextEngine T) (config : ReplicaConfig)
    (allowed : SharedReplica T → Action T → Prop) : SharedReplica T → Prop where
  | start {replica : BlockReplica T} (reachable : BlockReplica.Reachable engine config replica) :
      Interleaving engine config allowed ⟨replica, [], []⟩
  | step {shared : SharedReplica T} (action : Action T)
      (earlier : Interleaving engine config allowed shared)
      (runs : action.Runs engine config shared) (allows : allowed shared action) :
      Interleaving engine config allowed (action.apply engine config shared)

variable {engine : TextEngine T} {config : ReplicaConfig} {allowed : SharedReplica T → Action T → Prop}

theorem Action.apply_keepsTrack (action : Action T) (shared : SharedReplica T)
    (h : Tracked shared) : Tracked (action.apply engine config shared) := by
  cases action with
  | opened outcome => exact tracked_openBinding h outcome
  | updated index commit => exact respects_keepsTrack.editorUpdated index commit shared h
  | composing index =>
    exact (@SharedReplica.respects_keepsTrack T engine config).compositionStart index shared h
  | flushed index flush => exact flushComposition_keepsTrack index flush shared h
  | received index delivery batches =>
    exact respects_keepsTrack.bindingApply index delivery batches shared h
  | delivered delivery batches => exact deliver_keepsTrack delivery batches shared h
  | transacted fuel context outcome =>
    exact transact_keepsTrack none fuel context outcome shared h
  | destroyed index => exact tracked_destroy h index

theorem Interleaving.tracked {shared : SharedReplica T}
    (h : Interleaving engine config allowed shared) : Tracked shared := by
  induction h with
  | start reachable =>
    intro index binding hbinding
    cases hbinding
  | step action earlier runs allows ih => exact action.apply_keepsTrack _ ih

section Reachability

namespace SharedReplica

variable {after before : SharedReplica T → Prop}

theorem leads_getBinding {α : Type} {index : Nat} {next : LexicalBinding → Method T α}
    (hnext : ∀ binding, Leads (fun shared => before shared ∧ shared.bindings[index]? = some binding)
      after (next binding)) (hstop : ∀ shared, before shared → after shared) :
    Leads before after (getBinding index >>= next) := by
  intro shared hshared
  cases hbinding : shared.bindings[index]? with
  | none =>
    have hmissing : getBinding index shared = .error .noBinding shared := by
      rw [getBinding, hbinding]
    rw [bind_of_error hmissing]
    exact hstop shared hshared
  | some binding =>
    have hfound : getBinding index shared = .ok binding shared := by
      rw [getBinding, hbinding]
    rw [bind_of_ok hfound]
    exact hnext binding shared ⟨hshared, hbinding⟩

theorem leads_anyBinding {α : Type} {index : Nat}
    {next : LexicalBinding → Method T α} (hstop : ∀ shared, before shared → after shared)
    (hnext : ∀ binding, Leads before after (next binding)) :
    Leads before after (getBinding index >>= next) :=
  leads_getBinding (fun binding => (hnext binding).mono (fun _ h => h.1) fun _ h => h) hstop

theorem transact_final (author : Option Nat) (fuel : Nat) (context : TransactionContext T)
    (outcome : Except ReplicaError Unit) (shared : SharedReplica T) :
    ∃ announced, finalState (transact engine config author fuel context outcome shared) =
      let replica :=
        finalState (BlockReplica.transact engine config fuel context outcome shared.replica)
      { replica
        bindings := shared.bindings.mapIdx fun index binding =>
          if some index = author then
            binding.committed shared.replica.integrated replica.integrated
          else binding.moveOn shared.replica.integrated replica.integrated
        announced := shared.announced ++ announced } := by
  rw [transact]
  cases BlockReplica.transact engine config fuel context outcome shared.replica with
  | ok batch replica => exact ⟨batch.toList, rfl⟩
  | error error replica => exact ⟨[], rfl⟩

theorem publish_leads (h : ∀ shared, before shared → after shared) (publishes : Bool) :
    Leads before after (if publishes then pure () else throw .editor : Method T Unit) :=
  Leads.ite (Leads.pure h _) (Leads.throw h _)

def Reached (engine : TextEngine T) (config : ReplicaConfig) (shared : SharedReplica T) : Prop :=
  BlockReplica.Reachable engine config shared.replica

def Editable (engine : TextEngine T) (config : ReplicaConfig) (commit : Commit T)
    (shared : SharedReplica T) : Prop :=
  Reached engine config shared ∧ commit.Runs engine config shared.replica

theorem deliver_reached (delivery : Delivery) (batches : List RichTextEventBatch) :
    Leads (Reached engine config) (Reached engine config)
      (deliver engine config delivery batches) := by
  intro shared hreached
  have hdelivered := hreached.delivered delivery.fuel batches
  rw [deliver]
  cases hresult : BlockReplica.applyRemoteEvents engine config delivery.fuel batches
      shared.replica with
  | ok result replica =>
    rw [hresult] at hdelivered
    exact hdelivered
  | error error replica =>
    rw [hresult] at hdelivered
    exact hdelivered

theorem transact_reached {shared : SharedReplica T} (hreached : Reached engine config shared)
    (author : Option Nat) (fuel : Nat) {context : TransactionContext T}
    (outcome : Except ReplicaError Unit)
    (hruns : TransactionContext.CallbackRun engine config.replicaId (.start shared.replica.state)
      context) :
    Reached engine config
      (finalState (transact engine config author fuel context outcome shared)) := by
  obtain ⟨announced, hfinal⟩ := @transact_final T engine config author fuel context outcome shared
  rw [hfinal]
  exact hreached.transacted fuel outcome hruns

section

variable (index : Nat)
include index

theorem commitContent_reached (commit : Commit T) :
    Leads (Editable engine config commit) (Reached engine config)
      (commitContent engine config index commit) := by
  cases commit with
  | failed => exact Leads.throw (fun _ h => h.1) _
  | matching publishes =>
    apply Leads.bind
    · exact Leads.modify fun _ h => h.1
    · exact fun _ => publish_leads (fun _ h => h) publishes
  | replaced fuel context outcome publishes =>
    have hlogged : Leads (Editable engine config (.replaced fuel context outcome publishes))
        (Editable engine config (.replaced fuel context outcome publishes))
        (modify fun shared => shared.update index (·.logDiff shared.replica.integrated) :
          Method T Unit) := Leads.modify fun _ h => h
    refine hlogged.chain ?_ fun _ h => h.1
    intro _
    apply Leads.bind
    · exact fun shared h => transact_reached h.1 _ fuel outcome h.2
    · exact fun _ => publish_leads (fun _ h => h) publishes

theorem commitEditorState_reached (commit : Commit T) :
    Leads (Editable engine config commit) (Reached engine config)
      (commitEditorState engine config index commit) :=
  leads_anyBinding (fun _ h => h.1) fun _ =>
    Leads.ite (Leads.pure (fun _ h => h.1) _) (commitContent_reached index commit)

theorem editorUpdated_reached (commit : Commit T) :
    Leads (Editable engine config commit) (Reached engine config)
      (editorUpdated engine config index commit) :=
  leads_anyBinding (fun _ h => h.1) fun _ => Leads.ite (Leads.pure (fun _ h => h.1) _) <|
    Leads.ite (Leads.modify fun _ h => h.1) (commitEditorState_reached index commit)

theorem compositionStart_reached :
    Leads (Reached engine config) (Reached engine config) (compositionStart (T := T) index) :=
  leads_anyBinding (fun _ h => h) fun _ =>
    Leads.ite (Leads.pure (fun _ h => h) _) (Leads.modify fun _ h => h)

theorem flushEditor_reached (commit : Commit T) :
    Leads (Editable engine config commit) (Reached engine config)
      (flushEditor engine config index commit) := by
  have hstop : Leads (Editable engine config commit) (Editable engine config commit)
      (modify (update index fun binding => { binding with isComposing := false }) :
        Method T Unit) := Leads.modify fun _ h => h
  refine hstop.chain ?_ fun _ h => h.1
  intro _
  apply Leads.bind
  · exact leads_anyBinding (fun _ h => h.1) fun _ =>
      Leads.ite (commitEditorState_reached index commit) (Leads.pure (fun _ h => h.1) _)
  · exact fun _ => Leads.modify fun _ h => h

theorem flushQueue_reached (delivery : Delivery) :
    Leads (Reached engine config) (Reached engine config)
      (flushQueue engine config index delivery) := by
  refine leads_anyBinding (fun _ h => h) ?_
  intro binding
  cases binding.queuedRemoteBatches with
  | nil => exact Leads.pure (fun _ h => h) _
  | cons batch batches =>
    apply Leads.ite
    · exact Leads.bind (Leads.modify fun _ h => h) fun _ => deliver_reached delivery _
    · exact Leads.throw (fun _ h => h) _

theorem flushComposition_reached (flush : Flush T) :
    Leads (Editable engine config flush.commit) (Reached engine config)
      (flushComposition engine config index flush) := by
  refine leads_anyBinding (fun _ h => h.1) ?_
  intro binding
  apply Leads.ite
  · exact Leads.pure (fun _ h => h.1) _
  refine (flushEditor_reached index flush.commit).bind ?_
  intro _
  refine (flushQueue_reached index flush.delivery).bind ?_
  intro _
  exact leads_anyBinding (fun _ h => h) fun _ =>
    Leads.ite (Leads.modify fun _ h => h) (Leads.pure (fun _ h => h) _)

theorem bindingApply_reached (delivery : Delivery) (batches : List RichTextEventBatch) :
    Leads (Reached engine config) (Reached engine config)
      (bindingApply engine config index delivery batches) :=
  leads_anyBinding (fun _ h => h) fun _ => Leads.ite (Leads.modify fun _ h => h) <|
    Leads.ite (deliver_reached delivery batches) (Leads.throw (fun _ h => h) _)

end

end SharedReplica

theorem Action.apply_reached {shared : SharedReplica T}
    (h : SharedReplica.Reached engine config shared) {action : Action T}
    (hruns : action.Runs engine config shared) :
    SharedReplica.Reached engine config (action.apply engine config shared) := by
  cases action with
  | opened outcome => exact h.subscribed true
  | updated index commit => exact editorUpdated_reached index commit shared ⟨h, hruns⟩
  | composing index => exact compositionStart_reached index shared h
  | flushed index flush =>
    exact flushComposition_reached index flush shared ⟨h, hruns⟩
  | received index delivery batches =>
    exact bindingApply_reached index delivery batches shared h
  | delivered delivery batches => exact deliver_reached delivery batches shared h
  | transacted fuel context outcome =>
    exact transact_reached h none fuel outcome hruns
  | destroyed index => exact h

end Reachability

section Attentive

structure Attentive (shared : SharedReplica T) : Prop where
  one : ∀ {left right : Nat} {first second : LexicalBinding},
    shared.bindings[left]? = some first → shared.bindings[right]? = some second →
    first.destroyed = false → second.destroyed = false → left = right
  current : ∀ {index : Nat} {binding : LexicalBinding}, shared.bindings[index]? = some binding →
    binding.destroyed = false → binding.missed = false
  diffs : ∀ {index : Nat} {binding : LexicalBinding}, shared.bindings[index]? = some binding →
    ∀ diff ∈ binding.diffs, diff.missed = false

/-- A delivery that throws integrates nothing: documents can be read. -/
def Readable (engine : TextEngine T) (config : ReplicaConfig) : Prop :=
  ∀ {fuel : Nat} {batches : List RichTextEventBatch} {replica final : BlockReplica T}
    {error : ReplicaError}, BlockReplica.Reachable engine config replica →
    BlockReplica.applyRemoteEvents engine config fuel batches replica = .error error final →
      final.integrated = replica.integrated

variable {change : Nat → LexicalBinding → LexicalBinding} {shared : SharedReplica T}
    {replica : BlockReplica T}

theorem Attentive.mapIdx (h : Attentive shared) {announced : List RichTextEventBatch}
    (hdestroyed : ∀ index binding, (change index binding).destroyed = false →
      binding.destroyed = false)
    (hcurrent : ∀ index binding, shared.bindings[index]? = some binding →
      binding.destroyed = false → (change index binding).missed = false)
    (hdiffs : ∀ index binding, shared.bindings[index]? = some binding →
      ∀ diff ∈ (change index binding).diffs, diff.missed = false) :
    Attentive { replica, bindings := shared.bindings.mapIdx change, announced } where
  one hleft hright hfirst hsecond := by
    rw [getElem?_mapIdx] at hleft hright
    obtain ⟨first, hfirst', rfl⟩ := Option.map_eq_some_iff.mp hleft
    obtain ⟨second, hsecond', rfl⟩ := Option.map_eq_some_iff.mp hright
    exact h.one hfirst' hsecond' (hdestroyed _ _ hfirst) (hdestroyed _ _ hsecond)
  current hbinding hlive := by
    rw [getElem?_mapIdx] at hbinding
    obtain ⟨original, horiginal, rfl⟩ := Option.map_eq_some_iff.mp hbinding
    exact hcurrent _ original horiginal (hdestroyed _ _ hlive)
  diffs hbinding := by
    rw [getElem?_mapIdx] at hbinding
    obtain ⟨original, horiginal, rfl⟩ := Option.map_eq_some_iff.mp hbinding
    exact hdiffs _ original horiginal

theorem Settled.mapIdx (h : Settled shared) {announced : List RichTextEventBatch}
    (hdestroyed : ∀ index binding, (change index binding).destroyed = binding.destroyed)
    (hcomposing : ∀ index binding, (change index binding).isComposing = binding.isComposing) :
    Settled { replica, bindings := shared.bindings.mapIdx change, announced } := by
  intro index binding hbinding hlive
  rw [getElem?_mapIdx] at hbinding
  obtain ⟨original, horiginal, rfl⟩ := Option.map_eq_some_iff.mp hbinding
  rw [hdestroyed] at hlive
  rw [hcomposing]
  exact h index original horiginal hlive

theorem Attentive.unmoved (h : Attentive shared) {announced : List RichTextEventBatch}
    (hunmoved : ∀ index binding, LexicalBinding.Unmoved binding (change index binding))
    (hcurrent : ∀ index binding, shared.bindings[index]? = some binding →
      binding.destroyed = false → (change index binding).missed = false) :
    Attentive { replica, bindings := shared.bindings.mapIdx change, announced } := by
  refine h.mapIdx ?_ hcurrent ?_
  · exact fun index binding hlive => (hunmoved index binding).destroyed.symm.trans hlive
  · intro index binding hbinding
    rw [(hunmoved index binding).diffs]
    exact h.diffs hbinding

theorem Settled.unmoved (h : Settled shared) {announced : List RichTextEventBatch}
    (hunmoved : ∀ index binding, LexicalBinding.Unmoved binding (change index binding)) :
    Settled { replica, bindings := shared.bindings.mapIdx change, announced } :=
  h.mapIdx (fun index binding => (hunmoved index binding).destroyed)
    fun index binding => (hunmoved index binding).isComposing

structure Watched (engine : TextEngine T) (config : ReplicaConfig) (shared : SharedReplica T) :
    Prop where
  reachable : BlockReplica.Reachable engine config shared.replica
  attentive : Attentive shared

namespace SharedReplica

variable {change : LexicalBinding → LexicalBinding} {shared : SharedReplica T}

theorem watched_update (h : Watched engine config shared) (index : Nat)
    (hdestroyed : ∀ binding, (change binding).destroyed = false → binding.destroyed = false)
    (hmissed : ∀ binding, binding.missed = false → (change binding).missed = false)
    (hdiffs : ∀ binding, shared.bindings[index]? = some binding →
      (∀ diff ∈ binding.diffs, diff.missed = false) →
      ∀ diff ∈ (change binding).diffs, diff.missed = false) :
    Watched engine config (shared.update index change) where
  reachable := h.reachable
  attentive := by
    apply h.attentive.mapIdx
    · intro other binding hlive
      split at hlive
      · exact hdestroyed binding hlive
      · exact hlive
    · intro other binding hbinding hlive
      have hcurrent := h.attentive.current hbinding hlive
      split
      · exact hmissed binding hcurrent
      · exact hcurrent
    · intro other binding hbinding
      have hbefore := h.attentive.diffs hbinding
      split
      · next heq => exact hdiffs binding (heq ▸ hbinding) hbefore
      · exact hbefore

theorem settled_update (h : Settled shared) (index : Nat)
    (hdestroyed : ∀ binding, (change binding).destroyed = binding.destroyed)
    (hcomposing : ∀ binding, (change binding).isComposing = binding.isComposing) :
    Settled (shared.update index change) := by
  apply h.mapIdx
  · intro other binding
    split
    · exact hdestroyed binding
    · rfl
  · intro other binding
    split
    · exact hcomposing binding
    · rfl

structure Committing (engine : TextEngine T) (config : ReplicaConfig) (index : Nat)
    (commit : Commit T) (shared : SharedReplica T) : Prop where
  watched : Watched engine config shared
  runs : commit.Runs engine config shared.replica
  wakes : commit.WakesNothing config shared.replica
  lives : ∃ binding, shared.bindings[index]? = some binding ∧ binding.destroyed = false

theorem deliver_watched (hreadable : Readable engine config) {delivery : Delivery}
    (hcompletes : delivery.Completes) (batches : List RichTextEventBatch) :
    Leads (fun shared => Watched engine config shared ∧ Settled shared)
      (fun shared => Watched engine config shared ∧ Settled shared)
      (deliver engine config delivery batches) := by
  intro shared ⟨hwatched, hsettled⟩
  have hreachable := hwatched.reachable.delivered delivery.fuel batches
  rw [deliver]
  cases hresult : BlockReplica.applyRemoteEvents engine config delivery.fuel batches
      shared.replica with
  | error error replica =>
    rw [hresult] at hreachable
    have hsame := hreadable hwatched.reachable hresult
    refine ⟨⟨hreachable, ?_⟩,
      hsettled.unmoved fun _ binding => moveOn_unmoved _ _ binding⟩
    refine hwatched.attentive.unmoved
      (fun _ binding => moveOn_unmoved _ _ binding) ?_
    intro index binding hbinding hlive
    rw [hsame, moveOn_same]
    exact hwatched.attentive.current hbinding hlive
  | ok result replica =>
    rw [hresult] at hreachable
    obtain ⟨incoming, staged, plan, -, -, -, hintegrated, -, hids⟩ :=
      BlockReplica.applyRemoteEvents_ok hresult
    refine ⟨⟨hreachable, ?_⟩,
      hsettled.unmoved fun _ binding => delivered_unmoved _ _ _ binding _⟩
    refine hwatched.attentive.unmoved
      (fun _ binding => delivered_unmoved _ _ _ binding _) ?_
    intro index binding hbinding hlive
    simp only
    split
    · next hnothing =>
        have hready : plan.ready = [] := by
          rw [hids] at hnothing
          have hlength := congrArg List.length hnothing
          rw [length_insertionSort, length_map] at hlength
          exact length_eq_zero_iff.mp hlength
        rw [hready, append_nil] at hintegrated
        rw [hintegrated, moveOn_same]
        exact hwatched.attentive.current hbinding hlive
    · have hmoved := moveOn_unmoved shared.replica.integrated replica.integrated
        binding
      rw [hcompletes index]
      apply onRemote_missed
      · rw [hmoved.destroyed]
        exact hlive
      · rw [hmoved.isComposing]
        exact hsettled index binding hbinding hlive

theorem transact_settled (author : Option Nat) (fuel : Nat) (context : TransactionContext T)
    (outcome : Except ReplicaError Unit) :
    Leads Settled Settled (transact engine config author fuel context outcome) := by
  intro shared hsettled
  obtain ⟨announced, hfinal⟩ := @transact_final T engine config author fuel context outcome shared
  rw [hfinal]
  exact hsettled.unmoved fun _ binding => transacted_unmoved _ _ binding _

theorem transact_watched (hwatched : Watched engine config shared)
    {author : Option Nat} (fuel : Nat) {context : TransactionContext T}
    {outcome : Except ReplicaError Unit}
    (hruns : TransactionContext.CallbackRun engine config.replicaId (.start shared.replica.state)
      context)
    (hauthor : ∀ {index : Nat} {binding : LexicalBinding}, shared.bindings[index]? = some binding →
      binding.destroyed = false →
        some index = author ∧ BlockReplica.WakesNothing config shared.replica context outcome) :
    Watched engine config
      (finalState (transact engine config author fuel context outcome shared)) := by
  obtain ⟨announced, hfinal⟩ := @transact_final T engine config author fuel context outcome shared
  rw [hfinal]
  refine ⟨hwatched.reachable.transacted fuel outcome hruns, hwatched.attentive.unmoved
    (fun _ binding => transacted_unmoved _ _ binding _) ?_⟩
  intro index binding hbinding hlive
  obtain ⟨hindex, hwakes⟩ := hauthor hbinding hlive
  rw [if_pos hindex]
  have htransacted := BlockReplica.transact_transacted engine config fuel context outcome
    shared.replica
  obtain ⟨own, hown, hafter⟩ :=
    htransacted.integrated_own hwatched.reachable.consistent.index hwakes
  rw [hafter]
  exact committed_missed hown (hwatched.attentive.current hbinding hlive)

section

variable (index : Nat)
include index

section

variable (commit : Commit T)
include commit

theorem commitContent_settled :
    Leads Settled Settled (commitContent engine config index commit) := by
  cases commit with
  | failed => exact Leads.throw (fun _ h => h) _
  | matching publishes =>
    apply Leads.bind
    · apply Leads.modify
      intro shared hsettled
      exact settled_update hsettled index (fun _ => rfl) fun _ => rfl
    · exact fun _ => publish_leads (fun _ h => h) publishes
  | replaced fuel context outcome publishes =>
    apply Leads.bind
    · apply Leads.modify
      intro shared hsettled
      exact settled_update hsettled index (fun _ => rfl) fun _ => rfl
    · intro _
      exact Leads.bind (transact_settled _ _ _ _) fun _ => publish_leads (fun _ h => h) publishes

theorem logDiff_committing :
    Leads (Committing engine config index commit) (Committing engine config index commit)
      (modify fun shared => shared.update index (·.logDiff shared.replica.integrated) :
        Method T Unit) := by
  apply Leads.modify
  intro shared ⟨hwatched, hruns, hwakes, binding, hbinding, hlive⟩
  refine ⟨?_, hruns, hwakes, ?_⟩
  · apply watched_update hwatched index
    · exact fun _ h => h
    · exact fun _ h => h
    · intro found hfound hdiffs diff hdiff
      rw [hbinding] at hfound
      cases hfound
      cases mem_append.mp hdiff with
      | inl hbefore => exact hdiffs diff hbefore
      | inr hnow =>
        rw [mem_singleton.mp hnow]
        exact hwatched.attentive.current hbinding hlive
  · rw [update, getElem?_mapIdx, hbinding, Option.map_some, if_pos rfl]
    exact ⟨_, rfl, hlive⟩

theorem commitContent_watched :
    Leads (Committing engine config index commit) (Watched engine config)
      (commitContent engine config index commit) := by
  cases commit with
  | failed => exact Leads.throw (fun _ h => h.watched) _
  | matching publishes =>
    apply Leads.bind
    · apply Leads.modify
      intro shared hcommitting
      exact watched_update hcommitting.watched index (fun _ h => h) (fun _ _ => rfl) fun _ _ h => h
    · exact fun _ => publish_leads (fun _ h => h) publishes
  | replaced fuel context outcome publishes =>
    refine (logDiff_committing index _).chain ?_ fun _ h => h.watched
    intro _
    apply Leads.bind
    · intro shared ⟨hwatched, hruns, hwakes, binding, hbinding, hlive⟩
      apply transact_watched hwatched fuel hruns
      intro other found hfound hothers
      exact ⟨congrArg some (hwatched.attentive.one hfound hbinding hothers hlive), hwakes⟩
    · exact fun _ => publish_leads (fun _ h => h) publishes

/-- What a commit needs but for the binding's life. -/
def Ready (engine : TextEngine T) (config : ReplicaConfig) (commit : Commit T)
    (shared : SharedReplica T) : Prop :=
  Watched engine config shared ∧ commit.Runs engine config shared.replica ∧
    commit.WakesNothing config shared.replica

theorem commitEditorState_watched : Leads (Ready engine config commit) (Watched engine config)
      (commitEditorState engine config index commit) := by
  refine leads_getBinding ?_ fun _ h => h.1
  intro binding
  cases hdestroyed : binding.destroyed with
  | true => exact Leads.pure (fun _ h => h.1.1) _
  | false =>
    refine (commitContent_watched index commit).mono ?_ fun _ h => h
    intro shared ⟨⟨hwatched, hruns, hwakes⟩, hbinding⟩
    exact ⟨hwatched, hruns, hwakes, binding, hbinding, hdestroyed⟩

theorem commitEditorState_settled :
    Leads Settled Settled (commitEditorState engine config index commit) :=
  leads_anyBinding (fun _ h => h) fun _ =>
    Leads.ite (Leads.pure (fun _ h => h) _) (commitContent_settled index commit)

omit commit in
/-- Fields that are no ghosts may change freely, but nobody comes back to life. -/
theorem update_watched {before : SharedReplica T → Prop}
    (hbefore : ∀ shared, before shared → Watched engine config shared)
    (hdestroyed : ∀ binding, (change binding).destroyed = binding.destroyed)
    (hmissed : ∀ binding, (change binding).missed = binding.missed)
    (hdiffs : ∀ binding, (change binding).diffs = binding.diffs) :
    Leads before (Watched engine config) (modify (update index change) : Method T Unit) := by
  apply Leads.modify
  intro shared hshared
  apply watched_update (hbefore shared hshared) index
  · intro binding hlive
    rwa [hdestroyed] at hlive
  · intro binding hcurrent
    rwa [hmissed]
  · intro binding hbinding hdiff
    rwa [hdiffs]

theorem editorUpdated_watched : Leads (Ready engine config commit) (Watched engine config)
      (editorUpdated engine config index commit) := by
  refine leads_anyBinding (fun _ h => h.1) ?_
  intro binding
  apply Leads.ite
  · exact Leads.pure (fun _ h => h.1) _
  apply Leads.ite
  · exact update_watched index (fun _ h => h.1) (fun _ => rfl) (fun _ => rfl) fun _ => rfl
  · exact commitEditorState_watched index commit

omit commit in
theorem compositionStart_watched :
    Leads (Watched engine config) (Watched engine config) (compositionStart (T := T) index) :=
  leads_anyBinding (fun _ h => h) fun _ => Leads.ite (Leads.pure (fun _ h => h) _) <|
    update_watched index (fun _ h => h) (fun _ => rfl) (fun _ => rfl) fun _ => rfl

theorem stopComposing_settled : Leads (fun shared => Ready engine config commit shared ∧
        ∃ binding, shared.bindings[index]? = some binding ∧ binding.destroyed = false)
      (fun shared => Ready engine config commit shared ∧ Settled shared)
      (modify (update index fun binding => { binding with isComposing := false }) :
        Method T Unit) := by
  apply Leads.modify
  intro shared ⟨⟨hwatched, hruns, hwakes⟩, binding, hbinding, hlive⟩
  have hstopped : Watched engine config
      (shared.update index fun binding => { binding with isComposing := false }) :=
    watched_update hwatched index (fun _ h => h) (fun _ h => h) fun _ _ h => h
  refine ⟨⟨hstopped, hruns, hwakes⟩, ?_⟩
  intro other found hfound hothers
  rw [update, getElem?_mapIdx] at hfound
  obtain ⟨original, horiginal, rfl⟩ := Option.map_eq_some_iff.mp hfound
  split at hothers
  · next heq => rw [if_pos heq]
  · next hne =>
      exact absurd (hwatched.attentive.one horiginal hbinding hothers hlive) hne

omit commit in
theorem update_quiet {before : SharedReplica T → Prop}
    (hbefore : ∀ shared, before shared → Watched engine config shared ∧ Settled shared)
    (hdestroyed : ∀ binding, (change binding).destroyed = binding.destroyed)
    (hcomposing : ∀ binding, (change binding).isComposing = binding.isComposing)
    (hmissed : ∀ binding, (change binding).missed = binding.missed)
    (hdiffs : ∀ binding, (change binding).diffs = binding.diffs) :
    Leads before (fun shared => Watched engine config shared ∧ Settled shared)
      (modify (update index change) : Method T Unit) := by
  have hwatched := update_watched index (fun shared h => (hbefore shared h).1) hdestroyed hmissed
    hdiffs
  have hsettled : Leads before Settled (modify (update index change) : Method T Unit) := by
    apply Leads.modify
    intro shared hshared
    exact settled_update (hbefore shared hshared).2 index hdestroyed hcomposing
  intro shared hshared
  exact ⟨hwatched shared hshared, hsettled shared hshared⟩

theorem flushCommit_watched :
    Leads (fun shared => Ready engine config commit shared ∧ Settled shared)
      (fun shared => Watched engine config shared ∧ Settled shared)
      (flushCommit engine config index commit) := by
  refine leads_anyBinding (fun _ h => ⟨h.1.1, h.2⟩) ?_
  intro binding
  apply Leads.ite
  · exact (commitEditorState_watched index commit).and (commitEditorState_settled index commit)
  · exact Leads.pure (fun _ h => ⟨h.1.1, h.2⟩) _

theorem flushEditor_watched : Leads (fun shared => Ready engine config commit shared ∧
        ∃ binding, shared.bindings[index]? = some binding ∧ binding.destroyed = false)
      (fun shared => Watched engine config shared ∧ Settled shared)
      (flushEditor engine config index commit) := by
  refine (stopComposing_settled index commit).chain ?_ fun _ h => ⟨h.1.1, h.2⟩
  intro _
  refine (flushCommit_watched index commit).chain ?_ fun _ h => h
  exact fun _ => update_quiet index (fun _ h => h) (fun _ => rfl) (fun _ => rfl) (fun _ => rfl)
    fun _ => rfl

end

omit index in
theorem flushQueue_watched (hreadable : Readable engine config) (index : Nat)
    {delivery : Delivery} (hcompletes : delivery.Completes) :
    Leads (fun shared => Watched engine config shared ∧ Settled shared)
      (fun shared => Watched engine config shared ∧ Settled shared)
      (flushQueue engine config index delivery) := by
  refine leads_anyBinding (fun _ h => h) ?_
  intro binding
  cases binding.queuedRemoteBatches with
  | nil => exact Leads.pure (fun _ h => h) _
  | cons batch batches =>
    apply Leads.ite
    · apply Leads.bind
      · exact update_quiet index (fun _ h => h) (fun _ => rfl) (fun _ => rfl) (fun _ => rfl)
          fun _ => rfl
      · exact fun _ => deliver_watched hreadable hcompletes _
    · exact Leads.throw (fun _ h => h) _

theorem flushMaterialize_watched (materialization : Materialization) :
    Leads (Watched engine config) (Watched engine config)
      (flushMaterialize (T := T) index materialization) := by
  refine leads_anyBinding (fun _ h => h) ?_
  intro binding
  apply Leads.ite
  · apply Leads.modify
    intro shared hwatched
    apply watched_update hwatched index
    · intro binding hlive
      rwa [(materialize_unmoved _ _ _).destroyed] at hlive
    · intro binding hcurrent
      exact materialize_missed materialization hcurrent
    · intro binding hbinding hdiffs
      rwa [(materialize_unmoved _ _ _).diffs]
  · exact Leads.pure (fun _ h => h) _

end

theorem flushComposition_watched (hreadable : Readable engine config) (index : Nat)
    {flush : Flush T} (hcompletes : flush.delivery.Completes) :
    Leads (Ready engine config flush.commit) (Watched engine config)
      (flushComposition engine config index flush) := by
  refine leads_getBinding ?_ fun _ h => h.1
  intro binding
  cases hdestroyed : binding.destroyed with
  | true => exact Leads.pure (fun _ h => h.1.1) _
  | false =>
    have heditor := (flushEditor_watched index flush.commit).mono
      (fun shared (h : Ready engine config flush.commit shared ∧ _) =>
        ⟨h.1, binding, h.2, hdestroyed⟩) fun _ h => h
    refine heditor.chain ?_ fun _ h => h.1
    intro _
    refine (flushQueue_watched hreadable index hcompletes).chain ?_ fun _ h => h.1
    intro _
    exact (flushMaterialize_watched index flush.materialization).mono (fun _ h => h.1) fun _ h => h

theorem bindingApply_watched (hreadable : Readable engine config) (index : Nat)
    {delivery : Delivery} (hcompletes : delivery.Completes) (batches : List RichTextEventBatch) :
    Leads (fun shared => Watched engine config shared ∧
        (Settled shared ∨ ∃ binding, shared.bindings[index]? = some binding ∧
          binding.destroyed = false))
      (Watched engine config) (bindingApply engine config index delivery batches) := by
  refine leads_getBinding ?_ fun _ h => h.1
  intro binding
  split
  · exact update_watched index (fun _ h => h.1.1) (fun _ => rfl) (fun _ => rfl) fun _ => rfl
  · next hcomposing =>
      apply Leads.ite
      · refine (deliver_watched hreadable hcompletes batches).mono ?_ fun _ h => h.1
        intro shared ⟨⟨hwatched, hquiet⟩, hbinding⟩
        refine ⟨hwatched, ?_⟩
        cases hquiet with
        | inl hsettled => exact hsettled
        | inr hexists =>
          obtain ⟨found, hfound, hlive⟩ := hexists
          rw [hbinding] at hfound
          cases hfound
          intro other composing hother hothers
          have hsame := hwatched.attentive.one hother hbinding hothers hlive
          rw [hsame, hbinding] at hother
          cases hother
          exact Bool.eq_false_iff.mpr hcomposing
      · exact Leads.throw (fun _ h => h.1.1) _

theorem openBinding_watched (h : Watched engine config shared)
    (hnone : NoneLives shared) : Watched engine config (shared.openBinding .completed) := by
  have hcases : ∀ {index : Nat} {binding : LexicalBinding},
      (shared.openBinding .completed).bindings[index]? = some binding →
      shared.bindings[index]? = some binding ∨ (index = shared.bindings.length ∧
        binding = opened.materialize shared.replica.integrated .completed) := by
    intro index binding hbinding
    exact (getElem?_concat_eq_some.mp hbinding).imp_right fun hnew => ⟨hnew.1, hnew.2.symm⟩
  refine ⟨h.reachable.subscribed true, ⟨?_, ?_, ?_⟩⟩
  · intro left right first second hleft hright hfirst hsecond
    cases hcases hleft with
    | inl hold => rw [hnone left first hold] at hfirst; cases hfirst
    | inr hnew =>
      cases hcases hright with
      | inl hold => rw [hnone right second hold] at hsecond; cases hsecond
      | inr hsame => rw [hnew.1, hsame.1]
  · intro index binding hbinding hlive
    cases hcases hbinding with
    | inl hold => exact h.attentive.current hold hlive
    | inr hnew => rw [hnew.2]; rfl
  · intro index binding hbinding
    cases hcases hbinding with
    | inl hold => exact h.attentive.diffs hold
    | inr hnew =>
      rw [hnew.2]
      intro diff hdiff
      cases hdiff

theorem destroy_watched (h : Watched engine config shared)
    (index : Nat) : Watched engine config (shared.destroy index) := by
  apply watched_update h index
  · intro binding hlive
    split at hlive
    · exact hlive
    · cases hlive
  · intro binding hcurrent
    split
    · exact hcurrent
    · exact hcurrent
  · intro binding hbinding hdiffs
    split
    · exact hdiffs
    · exact hdiffs

end SharedReplica

theorem Action.apply_watched (hreadable : Readable engine config)
    (h : Watched engine config shared) {action : Action T}
    (hruns : action.Runs engine config shared) (hattended : action.Attended config shared) :
    Watched engine config (action.apply engine config shared) := by
  cases action with
  | opened outcome =>
    obtain ⟨rfl, hnone⟩ := hattended
    exact openBinding_watched h hnone
  | updated index commit =>
    exact editorUpdated_watched index commit shared ⟨h, hruns, hattended⟩
  | composing index => exact compositionStart_watched index shared h
  | flushed index flush =>
    exact flushComposition_watched hreadable index hattended.2 shared
      ⟨h, hruns, hattended.1⟩
  | received index delivery batches =>
    exact bindingApply_watched hreadable index hattended.1 batches shared
      ⟨h, hattended.2⟩
  | delivered delivery batches =>
    exact (deliver_watched hreadable hattended.1 batches shared ⟨h, hattended.2⟩).1
  | transacted fuel context outcome =>
    apply transact_watched h fuel hruns
    intro index binding hbinding hlive
    rw [hattended index binding hbinding] at hlive
    cases hlive
  | destroyed index => exact destroy_watched h index

theorem Interleaving.watched (hreadable : Readable engine config)
    (h : Interleaving engine config (fun shared action => action.Attended config shared) shared) :
    Watched engine config shared := by
  induction h with
  | start reachable =>
    exact ⟨reachable, (fun h => by cases h), (fun h => by cases h), fun h => by cases h⟩
  | step action earlier runs allows ih => exact action.apply_watched hreadable ih runs allows

end Attentive

/-- What a commit diffs against is what its content was made from exactly if the editor missed
no change; where every step is attended it misses none. -/
theorem commits_diff_shown_iff :
    (∀ shared : SharedReplica T, Interleaving engine config (fun _ _ => True) shared →
      ∀ binding ∈ shared.bindings, ∀ diff ∈ binding.diffs,
        (diff.shown = some diff.integrated ↔ diff.missed = false)) ∧
    (Readable engine config → ∀ shared : SharedReplica T,
      Interleaving engine config (fun shared action => action.Attended config shared) shared →
      ∀ binding ∈ shared.bindings, ∀ diff ∈ binding.diffs,
        diff.missed = false ∧ diff.shown = some diff.integrated) := by
  constructor
  · intro shared h binding hbinding diff hdiff
    obtain ⟨index, hindex⟩ := mem_iff_getElem?.mp hbinding
    exact (h.tracked index binding hindex).diffs diff hdiff
  · intro hreadable shared h binding hbinding diff hdiff
    obtain ⟨index, hindex⟩ := mem_iff_getElem?.mp hbinding
    have hmissed := (h.watched hreadable).attentive.diffs hindex diff hdiff
    exact ⟨hmissed, ((h.tracked index binding hindex).diffs diff hdiff).mpr hmissed⟩

/-- Where every document can be read, a delivery that throws integrates nothing. -/
theorem readable_of_document
    (h : ∀ text, ∃ document next, engine.document text = .ok document next) :
    Readable engine config := by
  intro fuel batches replica final error _ herror
  have hdelivered := BlockReplica.applyRemoteEvents_delivered engine config fuel batches replica
  rw [herror, finalState_error] at hdelivered
  cases hdelivered with
  | rejected => rfl
  | @failed _ _ plan _ _ parsed stages plans fails =>
    obtain ⟨state, hstate⟩ := @BlockReplica.integrateReady_state T engine plan replica
    rw [fails, finalState_error] at hstate
    rw [hstate]
  | @committed _ staged plan next _ parsed stages plans integrates same =>
    have hread : ∀ replica : BlockReplica T, ∀ newlyIntegrated,
        ∃ last, BlockReplica.notifyRemote engine newlyIntegrated replica = .ok ⟨⟩ last := by
      intro replica newlyIntegrated
      rw [BlockReplica.notifyRemote]
      split
      · exact ⟨replica, rfl⟩
      · exact BlockReplica.notify_ok_iff.mpr fun _ => h replica.state.text
    obtain ⟨last, hlast⟩ := hread (next.commit staged.values plan.ready plan)
      ((plan.ready.map (·.batchId)).insertionSort (· ≤ ·))
    rw [BlockReplica.applyRemoteEvents_eq parsed stages plans, BlockReplica.settleDelivery,
      bind_of_ok integrates, bind_of_ok (modify_run _), bind_of_ok hlast, bind_of_ok get_run]
      at herror
    cases herror

section Composed

open BlockReplica

def typed (event : RichTextEvent) (content : Text) : Text :=
  match event.operation, event.effect with
  | .insert index added, .textInsert _ _ =>
    content.take (index - 1) ++ added ++ content.drop (index - 1)
  | .delete index length, .textDelete _ =>
    content.take (index - 1) ++ content.drop (index - 1 + length)
  | _, _ => content

/-- A text engine for one block and events that come one after another. -/
def plainText : TextEngine Text where
  empty := []
  validateLocalOperation _ _ := .ok true
  advanceWithEvent _ := pure ()
  applyRemoteEvents _ := pure ()
  integrateRaw event := modify (typed event)
  applyEffect _ _ := pure ()
  settle := pure ()
  document := do
    return ⟨[{ id := BOOTSTRAP_BLOCK_ID, type := .paragraph, text := ← get,
               attrs := DEFAULT_BLOCK_FIELDS.toBlockAttributes, marks := [] }]⟩

def blankReplica : BlockReplica Text where
  state := {
    eventGraph := [BOOTSTRAP_EVENT_ID]
    currentVersion := [BOOTSTRAP_EVENT_ID]
    nextSequenceNumber := 0
    causal := [BOOTSTRAP_EVENT_ID]
    blocks := InsertionMap.empty.set BOOTSTRAP_BLOCK_ID ⟨BOOTSTRAP_EVENT_ID, none⟩
    text := [] }
  batchesById := InsertionMap.empty.set BOOTSTRAP_BATCH_ID BOOTSTRAP_BATCH
  eventOwner := InsertionMap.empty.set BOOTSTRAP_EVENT_ID BOOTSTRAP_BATCH_ID
  integrated := []
  pending := .empty
  waiting := .empty
  listening := false

theorem create_plainText : create plainText = .ok blankReplica := rfl

/-- `a` becomes `h`: what a commit of `h` makes of a document that shows `a`. -/
def retyped (state : ReplicaState Text) : TransactionContext Text :=
  let removed := finalState (TransactionContext.edit (ReplicaState.editText plainText
    alice.replicaId 0 (.delete 1 1) (fun _ _ => .ok (.textDelete BOOTSTRAP_BLOCK_ID))
    "EG-walker rejected a non-empty text delete") (.start state))
  finalState (TransactionContext.edit (ReplicaState.editText plainText alice.replicaId 0
    (.insert 1 (text "h")) (fun _ _ => .ok (.textInsert BOOTSTRAP_BLOCK_ID (text "h")))
    "EG-walker rejected a non-empty encoded text insert") removed)

theorem retyped_run {state : ReplicaState Text} {removed typed : TransactionContext Text}
    (hremoved : TransactionContext.edit (ReplicaState.editText plainText alice.replicaId 0
      (.delete 1 1) (fun _ _ => .ok (.textDelete BOOTSTRAP_BLOCK_ID))
      "EG-walker rejected a non-empty text delete") (.start state) = .ok ⟨⟩ removed)
    (htyped : TransactionContext.edit (ReplicaState.editText plainText alice.replicaId 0
      (.insert 1 (text "h")) (fun _ _ => .ok (.textInsert BOOTSTRAP_BLOCK_ID (text "h")))
      "EG-walker rejected a non-empty encoded text insert") removed = .ok ⟨⟩ typed) :
    TransactionContext.CallbackRun plainText alice.replicaId (.start state) typed :=
  .edited 0 _ _ _ hremoved (.edited 0 _ _ _ htyped (.done typed))

def uniformly (outcome : Materialization) : Delivery where
  captures := true
  fuel := 8
  outcomes _ := outcome

/-- The editor shows the empty document. -/
def shownEmpty : SharedReplica Text :=
  (Action.opened .completed).apply plainText alice ⟨blankReplica, [], []⟩

def retype (shared : SharedReplica Text) : Commit Text :=
  .replaced 8 (retyped shared.replica.state) (.ok ()) true

/-- The user composes while `a` arrives past the binding. -/
def composedOver : SharedReplica Text :=
  let arrived := (Action.delivered (uniformly .completed) [opener]).apply plainText alice
    ((Action.composing 0).apply plainText alice shownEmpty)
  (Action.updated 0 .failed).apply plainText alice arrived

/-- `a` arrives and cannot be shown. -/
def shownLate : SharedReplica Text :=
  (Action.delivered (uniformly .failed) [opener]).apply plainText alice shownEmpty

theorem shownEmpty_run : Interleaving plainText alice (fun _ _ => True) shownEmpty :=
  .step (.opened .completed) (.start (.created create_plainText)) trivial trivial

theorem composedOver_run : Interleaving plainText alice (fun _ _ => True) composedOver :=
  .step (.updated 0 .failed) (.step (.delivered (uniformly .completed) [opener])
    (.step (.composing 0) shownEmpty_run trivial trivial) trivial trivial) trivial trivial

theorem shownLate_run : Interleaving plainText alice (fun _ _ => True) shownLate :=
  .step (.delivered (uniformly .failed) [opener]) shownEmpty_run trivial trivial

def compositionEnd : Action Text :=
  .flushed 0 ⟨retype composedOver, uniformly .completed, .completed⟩

/-- The user types `h` into the editor that still shows the empty document. -/
def lateEdit : Action Text := .updated 0 (retype shownLate)

/-- In both cases the content `h` was made from the empty document and is compared with `a`, and
the commit's batch deletes `a`. -/
theorem commits_undo_remote :
    ((Interleaving plainText alice (fun _ _ => True) (compositionEnd.apply plainText alice
        composedOver) ∧
      composedOver.replica.state.text = text "a" ∧
      (compositionEnd.apply plainText alice composedOver).replica.state.text = text "h") ∧
      ∃ binding ∈ (compositionEnd.apply plainText alice composedOver).bindings,
        ∃ diff ∈ binding.diffs, diff.integrated = [opener] ∧ diff.shown = some []) ∧
    (Interleaving plainText alice (fun _ _ => True) (lateEdit.apply plainText alice shownLate) ∧
      shownLate.replica.state.text = text "a" ∧
      (lateEdit.apply plainText alice shownLate).replica.state.text = text "h") ∧
      ∃ binding ∈ (lateEdit.apply plainText alice shownLate).bindings,
        ∃ diff ∈ binding.diffs, diff.integrated = [opener] ∧ diff.shown = some [] := by
  have hcomposed : compositionEnd.Runs plainText alice composedOver :=
    retyped_run rfl rfl
  have hlate : lateEdit.Runs plainText alice shownLate := retyped_run rfl rfl
  refine ⟨⟨⟨.step _ composedOver_run hcomposed trivial, rfl, rfl⟩, ?_⟩,
    ⟨.step _ shownLate_run hlate trivial, rfl, rfl⟩, ?_⟩
  · exact ⟨_, mem_singleton.mpr rfl, _, mem_singleton.mpr rfl, rfl, rfl⟩
  · exact ⟨_, mem_singleton.mpr rfl, _, mem_singleton.mpr rfl, rfl, rfl⟩

/-- Both halves on an interleaving of its own: what was composed over, and a document that was
shown before `h` was typed into it. -/
theorem commits_diff_shown_typed :
    (∀ binding ∈ (compositionEnd.apply plainText alice composedOver).bindings,
      ∀ diff ∈ binding.diffs, (diff.shown = some diff.integrated ↔ diff.missed = false)) ∧
    ∀ binding ∈ ((Action.updated 0 (retype shownEmpty)).apply plainText alice shownEmpty).bindings,
      ∀ diff ∈ binding.diffs, diff.missed = false ∧ diff.shown = some diff.integrated := by
  have hreadable : Readable plainText alice := readable_of_document fun content => ⟨_, _, rfl⟩
  have hcomposed : compositionEnd.Runs plainText alice composedOver := retyped_run rfl rfl
  have hattended : Interleaving plainText alice
      (fun shared action => action.Attended alice shared) shownEmpty := by
    apply Interleaving.step (.opened .completed) (.start (.created create_plainText)) trivial
    exact ⟨rfl, fun index binding hbinding => by cases hbinding⟩
  have htyped : Action.Attended alice shownEmpty (.updated 0 (retype shownEmpty)) := by
    intro batch _ key entry hparked
    cases hparked
  obtain ⟨hexact, hsound⟩ := @commits_diff_shown_iff Text plainText alice
  refine ⟨hexact _ (.step _ composedOver_run hcomposed trivial), ?_⟩
  exact hsound hreadable _ (.step _ hattended (retyped_run rfl rfl) htyped)

end Composed

end Softmaple.DocSession
