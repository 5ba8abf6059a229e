import Softmaple.BlockModel.SettledReplica

/-!
Runs of deliveries and transactions that all return. As long as no transaction takes the number
of a parked event, each batch of the run is integrated once, after all that leads to it, or it
waits for a parent that is not integrated.
-/
namespace Softmaple.BlockModel.BlockReplica

open StateMethod CausalRelease List

variable {T : Type} {engine : TextEngine T} {config : ReplicaConfig} {replica : BlockReplica T}

section Deliveries

variable {incoming : List RichTextEventBatch} {staged : InsertionMap Text RichTextEventBatch}
  {owners : InsertionMap Text Text} {input : List RichTextEventBatch} {fuel : Nat}
  {plan : IntegrationPlan} {last : ReplicaState T}

theorem Settled.staged_apart (h : Settled replica) (hstaged : Staged replica incoming staged owners) :
    (replica.applied.flatMap (·.eventIds) ++
      (held replica staged.values).flatMap (·.eventIds)).Nodup := by
  have hparts := h.apart
  rw [known, flatMap_append] at hparts
  obtain ⟨happlied, -, hdisjoint⟩ := nodup_append.mp hparts
  have hheld := (h.consistent.planInput hstaged).produced
  apply nodup_append.mpr
  refine ⟨happlied, hheld, ?_⟩
  intro left hleft right hright heq
  rw [held, flatMap_append] at hright
  cases mem_append.mp hright with
  | inr hpending => exact hdisjoint left hleft right hpending heq
  | inl hnew =>
    obtain ⟨batch, hbatch, hmem⟩ := mem_flatMap.mp hnew
    have hunowned := hstaged.unowned right ((hstaged.claimed right).mpr ⟨batch, hbatch, hmem⟩)
    obtain ⟨other, hother, hin⟩ := mem_flatMap.mp hleft
    rw [heq] at hin
    have howned : replica.eventOwner.has right = true := by
      apply (h.consistent.owned right).mpr
      cases mem_cons.mp hother with
      | inl hboot =>
        rw [hboot] at hin
        exact Or.inl (mem_singleton.mp hin)
      | inr hintegrated => exact Or.inr (Or.inl ⟨other, hintegrated, hin⟩)
    rw [howned] at hunowned
    cases hunowned

theorem Accepts.extends {batches : List RichTextEventBatch} {first last : ReplicaState T}
    (h : Accepts engine batches first last) :
    ReplicaState.Extends first last (batches.flatMap (·.eventIds)) := by
  rw [Accepts] at h
  split at h
  · next hempty =>
      rw [h, hempty]
      exact ReplicaState.Extends.refl first
  · exact ReplicaState.integrateBatches_extends h

theorem Settled.delivery (h : Settled replica) (hparse : parseBatches config input = .ok incoming)
    (hstaged : Staged replica incoming staged owners)
    (hplan : planIntegration fuel replica staged.values [] = .ok plan)
    {next : BlockReplica T} (hready : integrateReady engine plan replica = .ok ⟨⟩ next) :
    Committing replica staged.values [] staged.values plan replica.state next.state where
  adds := ReplicaState.Extends.refl _
  index := h.consistent.index
  plans := ⟨fuel, hplan⟩
  integrates := (accepts_of_integrateReady hready).extends
  consistent := by
    obtain ⟨state, rfl, hgrows, -⟩ := integrateReady_ok hready
    exact h.consistent.withState (h.consistent.hasIntegrated.grows hgrows)
  input := by
    obtain ⟨state, rfl, -, hgraph⟩ := integrateReady_ok hready
    exact h.consistent.commitInput hparse hstaged hplan hgraph
  mem_stored batch := by rw [or_iff_left not_mem_nil]
  order := trivial
  apart := by
    rw [append_nil]
    exact h.staged_apart hstaged
  unknown batch hbatch := InsertionMap.has_eq_false.mp (hstaged.mem hbatch).2.2
  distinct := by
    rw [hstaged.ids]
    exact staged.nodup

end Deliveries

section Transactions

variable {context : TransactionContext T} {outcome : Except ReplicaError Unit}
  {batch : RichTextEventBatch} {plan : IntegrationPlan} {fuel : Nat}

theorem parseBatch_parents {isSafeLinkUrl : Text → Bool} {raw out : RichTextEventBatch}
    (h : parseBatch isSafeLinkUrl raw = .ok out) :
    ∀ parent ∈ out.parentVersion, parent ∈ raw.parentVersion := by
  obtain ⟨batchId, -, h⟩ := except_bind_eq_ok.mp h
  obtain ⟨parents, hparents, h⟩ := except_bind_eq_ok.mp h
  obtain ⟨events, -, h⟩ := except_bind_eq_ok.mp h
  cases events with
  | nil => cases h
  | cons first rest =>
    obtain ⟨⟨⟩, -, h⟩ := except_bind_eq_ok.mp h
    obtain ⟨⟨⟩, -, h⟩ := except_bind_eq_ok.mp h
    obtain ⟨⟨⟩, -, h⟩ := except_bind_eq_ok.mp h
    obtain ⟨⟨⟩, -, h⟩ := except_bind_eq_ok.mp h
    cases Except.ok.inj h
    rw [(parseVersion_eq_ok.mp hparents).2.2]
    intro parent hparent
    exact (mem_insertionSort _).mp hparent

theorem finished_parents (h : finished config context outcome = .ok (some batch)) :
    ∀ parent ∈ batch.parentVersion, parent ∈ context.initialParentVersion := by
  obtain ⟨-, ⟨-, hnone⟩ | ⟨first, rest, made, -, hmade, hparse⟩⟩ := finished_eq_ok h
  · cases hnone
  · cases hmade
    exact parseBatch_parents hparse

def ClearNumbers (config : ReplicaConfig) (replica : BlockReplica T)
    (context : TransactionContext T) : Prop :=
  ∀ numbers, ReplicaState.FirstUnused config.replicaId replica.state numbers →
    numbers.length = context.events.length → ∀ n ∈ numbers, ∀ parked ∈ replica.pendingBatches,
      Codec.formatEventId config.replicaId n ∉ parked.eventIds

theorem Settled.transaction (h : Settled replica)
    (hrun : TransactionContext.CallbackRun engine config.replicaId (.start replica.state) context)
    (hfinish : finished config context (.ok ()) = .ok (some batch))
    (hclear : ClearNumbers config replica context)
    (hplan : planIntegration fuel { replica with state := context.state } [] batch.eventIds =
      .ok plan) {next : BlockReplica T}
    (hready : integrateReady engine plan { replica with state := context.state } = .ok ⟨⟩ next) :
    Committing replica [] [batch] [batch] plan context.state next.state := by
  obtain ⟨hfailure, hids, -, hparse⟩ := finished_ok hfinish
  obtain ⟨numbers, hfirst, hlength, hnumbers, hname⟩ := transaction_numbers hrun hfinish
  have hfresh := (freshIds_iff h.consistent hfirst hnumbers hname).mpr (hclear numbers hfirst hlength)
  have hcallback := hrun.run (.start config.replicaId replica.state)
  have hcontext := h.consistent.withState (h.consistent.hasIntegrated.grows hcallback.grows)
  have hadds : ReplicaState.Extends replica.state context.state batch.eventIds := by
    rw [hids]
    exact hrun.extends (fun _ => ReplicaState.Extends.refl _) hfailure
  have hown : [batch].flatMap (·.eventIds) = batch.eventIds := flatMap_singleton _ _
  obtain ⟨state, rfl, hgrows, hgraph⟩ := integrateReady_ok hready
  refine ⟨hown ▸ hadds, hcontext.index, ⟨fuel, hown ▸ hplan⟩,
    (accepts_of_integrateReady hready).extends,
    hcontext.withState (hcontext.hasIntegrated.grows hgrows), ?_, ?_, ⟨?_, trivial⟩, ?_, ?_,
    nodup_singleton _⟩
  · refine hcontext.transactionInput hfinish hplan ?_ hgraph
    intro id hmem
    obtain ⟨event, hevent, rfl⟩ := mem_map.mp hmem
    exact hgrows.eventGraph _ (hcallback.recorded event hevent)
  · intro other
    rw [mem_singleton, or_iff_right not_mem_nil]
  · intro parent hparent
    have hfrontier := finished_parents hfinish parent hparent
    rw [hcallback.parents] at hfrontier
    exact decide_eq_true (h.current parent ((mem_insertionSort _).mp hfrontier))
  · have hparts := h.apart
    rw [known, flatMap_append] at hparts
    obtain ⟨happlied, hpending, hdisjoint⟩ := nodup_append.mp hparts
    rw [flatMap_append, hown, held, nil_append]
    apply nodup_append.mpr
    refine ⟨nodup_append.mpr ⟨happlied, hadds.distinct, ?_⟩, hpending, ?_⟩
    · intro left hleft right hright heq
      rw [← h.causal, heq] at hleft
      exact hadds.fresh right hright hleft
    · intro left hleft right hright heq
      cases mem_append.mp hleft with
      | inl hbefore => exact hdisjoint left hbefore right hright heq
      | inr hnow =>
        obtain ⟨parked, hparked, hin⟩ := mem_flatMap.mp hright
        have hunowned := hfresh.events left hnow
        rw [heq, (h.consistent.owned right).mpr (Or.inr (Or.inr ⟨parked, hparked, hin⟩))]
          at hunowned
        cases hunowned
  · intro other hother
    rw [mem_singleton.mp hother]
    exact InsertionMap.has_eq_false.mp hfresh.batchId

variable {final : BlockReplica T}

theorem transact_eq_ok {result : Option RichTextEventBatch}
    (h : transact engine config fuel context outcome replica = .ok result final) :
    finished config context outcome = .ok none ∧ result = none ∧
        final = { replica with state := context.state } ∨
      ∃ batch plan, finished config context outcome = .ok (some batch) ∧
        planIntegration fuel { replica with state := context.state } [] batch.eventIds = .ok plan ∧
        settleTransaction engine config batch plan { replica with state := context.state } =
          .ok result final := by
  cases hfinish : finished config context outcome with
  | error error =>
    rw [transact, bind_of_ok (modify_run _), hfinish] at h
    simp only at h
    split at h
    · obtain ⟨thrown, state, hrecover, -⟩ :=
        @recover_eq T engine error { replica with state := context.state }
      rw [seqRight_eq_bind, bind_of_error hrecover] at h
      cases h
    · cases h
  | ok made =>
    cases made with
    | none =>
      rw [transact, bind_of_ok (modify_run _), hfinish] at h
      cases h
      exact .inl ⟨rfl, rfl, rfl⟩
    | some batch =>
      cases hplan : planIntegration fuel { replica with state := context.state } []
          batch.eventIds with
      | error error =>
        rw [transact, bind_of_ok (modify_run _), hfinish] at h
        simp only at h
        rw [bind_of_ok get_run, hplan, bind_of_error ofExcept_error_run] at h
        cases h
      | ok plan => exact .inr ⟨batch, plan, rfl, hplan, transact_eq hfinish hplan ▸ h⟩

theorem transact_some {result : RichTextEventBatch}
    (h : transact engine config fuel context outcome replica = .ok (some result) final) :
    ∃ plan next state, finished config context outcome = .ok (some result) ∧
      planIntegration fuel { replica with state := context.state } [] result.eventIds = .ok plan ∧
      integrateReady engine plan { replica with state := context.state } = .ok ⟨⟩ next ∧
      final = { next.commit [result] (result :: plan.ready) plan with state } ∧
      ReplicaState.SameHistory next.state state := by
  obtain ⟨-, hnone, -⟩ | ⟨batch, plan, hfinish, hplan, h⟩ := transact_eq_ok h
  · cases hnone
  · obtain ⟨⟨⟩, next, hready, hrest⟩ := bind_eq_ok.mp h
    obtain ⟨state, hfinal, hsame⟩ := @settleTransaction_ok T _ engine config batch plan next hready
    rw [h, finalState_ok] at hfinal
    obtain ⟨⟨⟩, recorded, hcommit, hrest⟩ := bind_eq_ok.mp hrest
    obtain ⟨⟨⟩, notified, hnotify, hrest⟩ := bind_eq_ok.mp hrest
    obtain ⟨clone, unchanged, hclone, hreturn⟩ := bind_eq_ok.mp hrest
    cases hreturn
    obtain ⟨-, -, -, hparse⟩ := finished_ok hfinish
    have hparsed : (parseBatch config.isSafeLinkUrl batch).mapError ReplicaError.wire = .ok batch := by
      rw [hparse]
      rfl
    rw [hparsed] at hclone
    cases (ofExcept_eq_ok.mp hclone).1
    exact ⟨plan, next, state, hfinish, hplan, hready, hfinal, hsame⟩

/-- A transaction that returns nothing made no edit. -/
theorem transact_none (h : transact engine config fuel context outcome replica = .ok none final) :
    context.failure = none ∧ context.events = [] ∧ final = { replica with state := context.state } := by
  obtain ⟨hfinish, -, hfinal⟩ | ⟨batch, plan, -, -, h⟩ := transact_eq_ok h
  · obtain ⟨hfailure, ⟨hevents, -⟩ | ⟨first, rest, made, -, hmade, -⟩⟩ := finished_eq_ok hfinish
    · exact ⟨hfailure, hevents, hfinal⟩
    · cases hmade
  · obtain ⟨⟨⟩, next, hready, h⟩ := bind_eq_ok.mp h
    obtain ⟨⟨⟩, recorded, hcommit, h⟩ := bind_eq_ok.mp h
    obtain ⟨⟨⟩, notified, hnotify, h⟩ := bind_eq_ok.mp h
    obtain ⟨clone, unchanged, hclone, hreturn⟩ := bind_eq_ok.mp h
    cases hreturn

end Transactions

section Runs

variable (engine : TextEngine T) (config : ReplicaConfig)

/-- A run of calls that all return. `given` are the batches they parsed or made, and every
transaction that makes one is `allowed`. -/
inductive PlanRun (allowed : BlockReplica T → TransactionContext T → Prop) :
    List RichTextEventBatch → BlockReplica T → Prop where
  | created {replica : BlockReplica T} (creates : create engine = .ok replica) :
      PlanRun allowed [BOOTSTRAP_BATCH] replica
  | read {given : List RichTextEventBatch} {replica : BlockReplica T} (text : T)
      (earlier : PlanRun allowed given replica) :
      PlanRun allowed given { replica with state := { replica.state with text } }
  | subscribed {given : List RichTextEventBatch} {replica : BlockReplica T} (listening : Bool)
      (earlier : PlanRun allowed given replica) : PlanRun allowed given { replica with listening }
  | delivered {given input incoming : List RichTextEventBatch} {replica final : BlockReplica T}
      {result : ApplyRichTextEventsResult} (fuel : Nat)
      (parses : parseBatches config input = .ok incoming)
      (returns : applyRemoteEvents engine config fuel input replica = .ok result final)
      (earlier : PlanRun allowed given replica) : PlanRun allowed (given ++ incoming) final
  | transacted {given : List RichTextEventBatch} {replica final : BlockReplica T}
      {context : TransactionContext T} {batch : RichTextEventBatch} (fuel : Nat)
      (runs : TransactionContext.CallbackRun engine config.replicaId (.start replica.state) context)
      (permitted : allowed replica context)
      (returns : transact engine config fuel context (.ok ()) replica = .ok (some batch) final)
      (earlier : PlanRun allowed given replica) : PlanRun allowed (given ++ [batch]) final
  | idle {given : List RichTextEventBatch} {replica final : BlockReplica T}
      {context : TransactionContext T} (fuel : Nat)
      (runs : TransactionContext.CallbackRun engine config.replicaId (.start replica.state) context)
      (returns : transact engine config fuel context (.ok ()) replica = .ok none final)
      (earlier : PlanRun allowed given replica) : PlanRun allowed given final

variable {engine config} {given : List RichTextEventBatch}

theorem create_settled (h : create engine = .ok replica) :
    Settled replica ∧ replica.known = [BOOTSTRAP_BATCH] := by
  have hconsistent := create_consistent h
  obtain ⟨state, hstate, hreturn⟩ := except_bind_eq_ok.mp h
  obtain ⟨hcausal, hcurrent⟩ := ReplicaState.create_extends hstate
  cases hreturn
  refine ⟨⟨hconsistent, hcausal, ?_, ⟨?_, trivial⟩, nodup_singleton _, ?_, ?_, ?_⟩, rfl⟩
  · intro id hid
    rw [hcausal, hcurrent id hid]
    exact mem_cons_self
  · intro parent hparent
    cases hparent
  · intro key entry hget
    cases hget
  · intro eventId batchIds hget
    cases hget
  · intro key batch
    rw [InsertionMap.get?_set]
    constructor
    · intro hget
      split at hget
      · next hkey =>
          rw [← Option.some.inj hget, hkey]
          exact ⟨rfl, mem_cons_self⟩
      · cases hget
    · rintro ⟨hid, hmem⟩
      have hbatch : batch = BOOTSTRAP_BATCH := mem_singleton.mp hmem
      rw [← hid, hbatch]
      exact if_pos rfl

variable {final : BlockReplica T}

theorem Settled.delivered (h : Settled replica) {input incoming : List RichTextEventBatch}
    {result : ApplyRichTextEventsResult} {fuel : Nat}
    (hparse : parseBatches config input = .ok incoming)
    (hreturns : applyRemoteEvents engine config fuel input replica = .ok result final) :
    Settled final ∧ ∀ batch, batch ∈ final.known ↔ batch ∈ replica.known ∨ batch ∈ incoming := by
  obtain ⟨found, unchanged, hget, hrest⟩ := bind_eq_ok.mp hreturns
  cases hget
  obtain ⟨parsed, same, hparsing, hrest⟩ := bind_eq_ok.mp hrest
  obtain ⟨hparsed, rfl⟩ := ofExcept_eq_ok.mp hparsing
  rw [hparse] at hparsed
  cases hparsed
  obtain ⟨staged, checked, hstaging, hrest⟩ := bind_eq_ok.mp hrest
  obtain ⟨hstage, rfl⟩ := ofExcept_eq_ok.mp hstaging
  obtain ⟨plan, decided, hplanning, hsettle⟩ := bind_eq_ok.mp hrest
  obtain ⟨hplan, rfl⟩ := ofExcept_eq_ok.mp hplanning
  obtain ⟨⟨⟩, next, hready, -⟩ := bind_eq_ok.mp hsettle
  obtain ⟨owners, hstaged⟩ := stage_ok hstage
  have hcommit := h.delivery hparse hstaged hplan hready
  obtain ⟨state, hfinal, hsame⟩ := settleDelivery_ok staged.values hready
  obtain ⟨kept, rfl, -⟩ := integrateReady_ok hready
  rw [hsettle, finalState_ok] at hfinal
  rw [hfinal]
  refine ⟨hcommit.settled_after h hsame, ?_⟩
  intro batch
  have hknown := @Committing.known_iff T _ _ _ _ _ _ _ h hcommit batch
  refine hknown.trans (or_congr_right' ?_)
  intro hnew
  constructor
  · intro hmem
    exact (hstaged.mem hmem).2.1
  · intro hmem
    cases (stage_keeps hstage).2 batch hmem with
    | inl hbefore => exact absurd (h.recorded.mp hbefore).2 hnew
    | inr hget => exact mem_map_of_mem (InsertionMap.mem_entries.mpr hget)

theorem Settled.transacted (h : Settled replica) {context : TransactionContext T}
    {batch : RichTextEventBatch} {fuel : Nat}
    (hrun : TransactionContext.CallbackRun engine config.replicaId (.start replica.state) context)
    (hclear : ClearNumbers config replica context)
    (hreturns : transact engine config fuel context (.ok ()) replica = .ok (some batch) final) :
    Settled final ∧ ∀ other, other ∈ final.known ↔ other ∈ replica.known ∨ other ∈ [batch] := by
  obtain ⟨plan, next, state, hfinish, hplan, hready, rfl, hsame⟩ := transact_some hreturns
  have hcommit := h.transaction hrun hfinish hclear hplan hready
  obtain ⟨kept, rfl, -⟩ := integrateReady_ok hready
  exact ⟨hcommit.settled_after h hsame, fun other => hcommit.known_iff h⟩

theorem Settled.idle (h : Settled replica) {context : TransactionContext T}
    {fuel : Nat}
    (hrun : TransactionContext.CallbackRun engine config.replicaId (.start replica.state) context)
    (hreturns : transact engine config fuel context (.ok ()) replica = .ok none final) :
    Settled final ∧ final.known = replica.known := by
  obtain ⟨hfailure, hevents, rfl⟩ := transact_none hreturns
  have hcallback := hrun.run (.start config.replicaId replica.state)
  have hextends : ReplicaState.Extends replica.state context.state [] := by
    have hadds := hrun.extends (fun _ => ReplicaState.Extends.refl replica.state) hfailure
    rwa [hevents] at hadds
  have hcausal := hextends.causal
  rw [append_nil] at hcausal
  refine ⟨⟨h.consistent.withState (h.consistent.hasIntegrated.grows hcallback.grows),
    hcausal.trans h.causal, ?_, h.order, h.apart, ?_, h.waiting, h.recorded⟩, rfl⟩
  · intro id hid
    rw [hcausal]
    exact h.current id ((hextends.current id hid).resolve_right not_mem_nil)
  · intro key entry hget
    rw [hcausal]
    exact h.awaits hget

theorem PlanRun.settled (h : PlanRun engine config (ClearNumbers config) given replica) :
    Settled replica ∧ ∀ batch, batch ∈ given ↔ batch ∈ replica.known := by
  induction h with
  | created creates =>
    obtain ⟨hsettled, hknown⟩ := create_settled creates
    exact ⟨hsettled, fun batch => by rw [hknown]⟩
  | read text earlier ih =>
    refine ⟨?_, ih.2⟩
    exact ih.1.withState ⟨rfl, rfl, rfl, rfl⟩
  | subscribed listening earlier ih =>
    obtain ⟨hsettled, hknown⟩ := ih
    have hconsistent := hsettled.consistent
    refine ⟨⟨⟨⟨hconsistent.index.keyed, hconsistent.index.missing, hconsistent.index.waits,
      hconsistent.index.once⟩, hconsistent.stored, hconsistent.owned, hconsistent.bootstrap,
      hconsistent.graph, hconsistent.produced, hconsistent.named⟩, hsettled.causal,
      hsettled.current, hsettled.order, hsettled.apart, hsettled.awaits, hsettled.waiting,
      hsettled.recorded⟩, hknown⟩
  | delivered fuel parses returns earlier ih =>
    obtain ⟨hsettled, hknown⟩ := ih.1.delivered parses returns
    refine ⟨hsettled, fun batch => ?_⟩
    rw [hknown, mem_append, ih.2]
  | transacted fuel runs permitted returns earlier ih =>
    obtain ⟨hsettled, hknown⟩ := ih.1.transacted runs permitted returns
    refine ⟨hsettled, fun batch => ?_⟩
    rw [hknown, mem_append, ih.2]
  | idle fuel runs returns earlier ih =>
    obtain ⟨hsettled, hknown⟩ := ih.1.idle runs returns
    refine ⟨hsettled, fun batch => ?_⟩
    rw [hknown, ih.2]

end Runs

section Planning

abbrev Leads : List RichTextEventBatch → RichTextEventBatch → RichTextEventBatch → Prop :=
  Precedes (·.parentVersion) RichTextEventBatch.eventIds

/-- Every batch that leads to this one, and the batch itself, has its parents among the given. -/
def AncestorsKnown (given : List RichTextEventBatch) (batch : RichTextEventBatch) : Prop :=
  ∀ before, Relation.ReflTransGen (Leads given) before batch →
    ∀ parent ∈ before.parentVersion, ∃ other ∈ given, parent ∈ other.eventIds

/-- Where the given batches are: integrated once and in order, or parked once. -/
structure PlannedBatches (given : List RichTextEventBatch) (replica : BlockReplica T) : Prop where
  once : replica.applied.Nodup
  order : CausalOrder (·.parentVersion) RichTextEventBatch.eventIds (fun _ => False) replica.applied
  drawn : ∀ batch ∈ replica.applied, batch ∈ given
  integrated : ∀ batch ∈ given, batch ∈ replica.applied ↔ AncestorsKnown given batch
  parked : ∀ batch ∈ given, batch ∉ replica.applied ↔
    ∃ entry, replica.pending.get? batch.batchId = some entry ∧ entry.batch = batch
  missing : ∀ key entry, replica.pending.get? key = some entry →
    entry.batch.batchId = key ∧ entry.batch ∈ given ∧
      entry.missing ∈ entry.batch.parentVersion ∧ ¬ replica.Available entry.missing
  waits : ∀ eventId key, key ∈ (replica.waiting.get? eventId).getD [] ↔
    ∃ entry, replica.pending.get? key = some entry ∧ entry.missing = eventId
  sets : ∀ eventId batchIds, replica.waiting.get? eventId = some batchIds →
    batchIds ≠ [] ∧ batchIds.Nodup
  kept : ∀ batch ∈ given, replica.getBatch batch.batchId = some batch

/-- With enough rounds there is a plan, and it readies each batch once, after its parents. -/
def PlansInOrder (replica : BlockReplica T) (staged : List RichTextEventBatch)
    (arrived : List Text) : Prop :=
  ∃ bound plan, (∀ fuel, bound ≤ fuel → planIntegration fuel replica staged arrived = .ok plan) ∧
    BatchOrder replica plan.ready ∧ plan.ready.Nodup

theorem PlanInput.plansInOrder {staged : List RichTextEventBatch} {arrived : List Text}
    (h : PlanInput replica staged arrived) : PlansInOrder replica staged arrived := by
  obtain ⟨bound, plan, hplan⟩ := planIntegration_settles h
  have hspec := planIntegration_spec h (hplan bound (Nat.le_refl _))
  exact ⟨bound, plan, hplan, hspec.order, hspec.nodup⟩

variable {given : List RichTextEventBatch}

theorem Settled.applied_nodup (h : Settled replica) : replica.known.Nodup :=
  nodup_of_produced (fun _ hbatch => h.named hbatch) h.apart

theorem Settled.mem_applied_iff (h : Settled replica)
    (hgiven : ∀ batch, batch ∈ given ↔ batch ∈ replica.known) {batch : RichTextEventBatch}
    (hbatch : batch ∈ given) : batch ∈ replica.applied ↔
      Grounded (·.parentVersion) RichTextEventBatch.eventIds given batch := by
  refine mem_iff_grounded h.order (nodup_append.mp h.applied_nodup).1 ?_ ?_ ?_ hbatch
  · intro other hother
    exact (hgiven other).mpr (mem_append_left _ hother)
  · intro left hleft right hright event hevent hother
    exact producer_unique h.apart ((hgiven left).mp hleft) ((hgiven right).mp hright) hevent hother
  · intro other hother hout
    have hpending := (mem_append.mp ((hgiven other).mp hother)).resolve_left hout
    obtain ⟨entry, hentry, rfl⟩ := (mem_pendingBatches h.consistent.index).mp hpending
    refine ⟨entry.missing, h.consistent.index.missing hentry, ?_⟩
    intro before hbefore hevent
    apply h.awaits hentry
    rw [h.causal]
    exact mem_flatMap.mpr ⟨before, hbefore, hevent⟩

theorem Settled.parked_iff (h : Settled replica)
    (hgiven : ∀ batch, batch ∈ given ↔ batch ∈ replica.known) {batch : RichTextEventBatch}
    (hbatch : batch ∈ given) : batch ∉ replica.applied ↔
      ∃ entry, replica.pending.get? batch.batchId = some entry ∧ entry.batch = batch := by
  rw [← mem_pendingBatches h.consistent.index]
  have hknown := (hgiven batch).mp hbatch
  constructor
  · exact (mem_append.mp hknown).resolve_left
  · intro hpending happlied
    exact (nodup_append.mp h.applied_nodup).2.2 batch happlied batch hpending rfl

/-- In a run whose transactions take no parked number the given batches are where they belong
exactly if none that could be integrated leads to itself; and every further plan is in order. -/
theorem plannedBatches_iff_acyclic (h : PlanRun engine config (ClearNumbers config) given replica) :
    (PlannedBatches given replica ↔
      ∀ batch ∈ given, AncestorsKnown given batch → ¬ Relation.TransGen (Leads given) batch batch) ∧
    (∀ input incoming staged, parseBatches config input = .ok incoming →
      stage replica .empty .empty incoming = .ok staged →
      PlansInOrder replica staged.values []) ∧
    ∀ context batch,
      TransactionContext.CallbackRun engine config.replicaId (.start replica.state) context →
      finished config context (.ok ()) = .ok (some batch) → ClearNumbers config replica context →
      PlansInOrder { replica with state := context.state } [] batch.eventIds := by
  obtain ⟨hsettled, hgiven⟩ := h.settled
  refine ⟨⟨?_, ?_⟩, ?_, ?_⟩
  · intro hplanned batch hbatch hknown
    have hmem := (hplanned.integrated batch hbatch).mpr hknown
    exact ((hsettled.mem_applied_iff hgiven hbatch).mp hmem).acyclic batch .refl
  · intro hacyclic
    refine ⟨(nodup_append.mp hsettled.applied_nodup).1, hsettled.order, ?_, ?_,
      fun batch hbatch => hsettled.parked_iff hgiven hbatch, ?_,
      fun eventId key => hsettled.consistent.index.waits, ?_, ?_⟩
    · intro batch hbatch
      exact (hgiven batch).mpr (mem_append_left _ hbatch)
    · intro batch hbatch
      rw [hsettled.mem_applied_iff hgiven hbatch]
      constructor
      · exact fun hgrounded => hgrounded.complete
      · intro hknown
        refine ⟨hknown, ?_⟩
        intro before hleads hcycle
        obtain ⟨next, hfirst, -⟩ := Relation.TransGen.head'_iff.mp hcycle
        exact hacyclic before hfirst.1 (fun other hother => hknown other (hother.trans hleads)) hcycle
    · intro key entry hget
      refine ⟨hsettled.consistent.index.keyed hget, ?_, hsettled.consistent.index.missing hget, ?_⟩
      · apply (hgiven _).mpr
        apply mem_append_right
        apply (mem_pendingBatches hsettled.consistent.index).mpr
        rw [hsettled.consistent.index.keyed hget]
        exact ⟨entry, hget, rfl⟩
      · intro havailable
        exact hsettled.awaits hget (of_decide_eq_true havailable)
    · intro eventId batchIds hget
      refine ⟨hsettled.waiting eventId batchIds hget, ?_⟩
      have honce := hsettled.consistent.index.once eventId
      rwa [hget] at honce
    · intro batch hbatch
      exact hsettled.recorded.mpr ⟨rfl, (hgiven batch).mp hbatch⟩
  · intro input incoming staged _ hstage
    obtain ⟨owners, hstaged⟩ := stage_ok hstage
    exact (hsettled.consistent.planInput hstaged).plansInOrder
  · intro context batch hrun hfinish hclear
    obtain ⟨numbers, hfirst, hlength, hnumbers, hname⟩ := transaction_numbers hrun hfinish
    have hfresh := (freshIds_iff hsettled.consistent hfirst hnumbers hname).mpr
      (hclear numbers hfirst hlength)
    exact (hsettled.consistent.transactionPlan hrun hfinish hfresh).plansInOrder

theorem acyclic_of_pair {given : List RichTextEventBatch} {first second : RichTextEventBatch}
    (hne : first ≠ second) (h : ∀ before ∈ given, ∀ item ∈ given,
      (∃ event ∈ before.eventIds, event ∈ item.parentVersion) → before = first ∧ item = second)
    (batch : RichTextEventBatch) : ¬ Relation.TransGen (Leads given) batch batch := by
  intro hcycle
  obtain ⟨next, hfirst, hrest⟩ := Relation.TransGen.head'_iff.mp hcycle
  obtain ⟨before, -, hlast⟩ := Relation.TransGen.tail'_iff.mp hcycle
  have hnext : next ∈ given := by
    cases Relation.ReflTransGen.cases_head hrest with
    | inl heq =>
      rw [heq]
      exact hfirst.1
    | inr hstep =>
      obtain ⟨_, hleads, -⟩ := hstep
      exact hleads.1
  have hsecond := (h before hlast.1 batch hfirst.1 hlast.2).2
  exact hne ((h batch hfirst.1 next hnext hfirst.2).1.symm.trans hsecond)

/-- The replica after `batch` arrived ahead of its parent and a greeting was typed. -/
def greeted (batch : RichTextEventBatch) : BlockReplica Unit :=
  finalState (transact quietText alice 8 (greeting (ahead batch)) (.ok ()) (ahead batch))

/-- A batch of this replica's own past, parked after a restore, loses its name to a new one. -/
theorem parked_batch_lost : ∃ given replica,
    PlanRun quietText alice (fun _ _ => True) given replica ∧
      (∀ batch, ¬ Relation.TransGen (Leads given) batch batch) ∧ ¬ PlannedBatches given replica := by
  let restored := typing (text "alice:0") (text "bob:0")
  have hparse : parseBatches alice [restored] = .ok [restored] := rfl
  have hrun : PlanRun quietText alice (fun _ _ => True)
      ([BOOTSTRAP_BATCH] ++ [restored] ++ [greetingBatch]) (greeted restored) :=
    .transacted 8 (greeting_run (ahead restored) rfl) trivial rfl
      (.delivered 8 hparse rfl (.created create_quietText))
  refine ⟨_, _, hrun, @acyclic_of_pair _ BOOTSTRAP_BATCH greetingBatch (by decide) (by decide), ?_⟩
  intro hplanned
  have hkept := hplanned.kept restored (by decide)
  exact absurd hkept (by decide)

/-- The conditions hold while a batch of someone else waits: a greeting does not take its ID. -/
theorem greeting_beside_parked :
    PlannedBatches [BOOTSTRAP_BATCH, typing (text "bob:1") (text "bob:0"), greetingBatch]
      (greeted (typing (text "bob:1") (text "bob:0"))) := by
  let waiting := typing (text "bob:1") (text "bob:0")
  have hclear : ClearNumbers alice (ahead waiting) (greeting (ahead waiting)) := by
    intro numbers _ _ n _ parked hparked hmem
    have hparked : parked = waiting := mem_singleton.mp hparked
    rw [hparked] at hmem
    have hname := congrArg head? (mem_singleton.mp hmem)
    exact absurd hname (by
      have hhead : (Codec.formatEventId alice.replicaId n).head? = (text "alice").head? := rfl
      rw [hhead]
      decide)
  have hparse : parseBatches alice [waiting] = .ok [waiting] := rfl
  have hrun : PlanRun quietText alice (ClearNumbers alice)
      ([BOOTSTRAP_BATCH] ++ [waiting] ++ [greetingBatch]) (greeted waiting) :=
    .transacted 8 (greeting_run (ahead waiting) rfl) hclear rfl
      (.delivered 8 hparse rfl (.created create_quietText))
  apply (plannedBatches_iff_acyclic hrun).1.mpr
  intro batch _ _
  exact @acyclic_of_pair _ BOOTSTRAP_BATCH greetingBatch (by decide) (by decide) batch

end Planning

end Softmaple.BlockModel.BlockReplica
