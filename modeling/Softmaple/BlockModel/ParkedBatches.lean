import Softmaple.BlockModel.ReplicaRuns

/-!
What parked batches do to good ones. They are integrated in the same step as
the batch that wakes them, so that batch is integrated exactly if all of them
are accepted after it. A transaction takes the first unused sequence numbers,
and clashes with a parked batch exactly if that batch has one of them.
-/
namespace Softmaple.BlockModel.BlockReplica

open StateMethod CausalRelease List

variable {T : Type} {engine : TextEngine T} {config : ReplicaConfig} {replica : BlockReplica T}

/-- The batches can be integrated one after the other, which leads from `state` to `next`. -/
def Accepts (engine : TextEngine T) (batches : List RichTextEventBatch)
    (state next : ReplicaState T) : Prop :=
  if batches = [] then next = state
  else ReplicaState.integrateBatches engine batches state = .ok ⟨⟩ next

/-- The parked batches that `before` and the events of `arrived` wake, in a causal order. -/
structure WokenBy (replica : BlockReplica T) (arrived : List Text)
    (before woken : List RichTextEventBatch) : Prop where
  order : BatchOrder replica (before ++ woken)
  nodup : (before ++ woken).Nodup
  parked : ∀ batch ∈ woken, batch ∈ replica.pendingBatches
  complete : Awaits replica arrived → ∀ batch ∈ replica.pendingBatches, batch ∉ woken →
    ∃ parent ∈ batch.parentVersion,
      ¬ After RichTextEventBatch.eventIds replica.Available (before ++ woken) parent

theorem PlanSpec.wokenBy {arrived : List Text} {staged woken : List RichTextEventBatch}
    {plan : IntegrationPlan} (h : PlanSpec replica staged arrived plan)
    (hready : plan.ready = staged ++ woken)
    (hapart : ∀ batch ∈ staged, batch ∉ replica.pendingBatches) :
    WokenBy replica arrived staged woken where
  order := hready ▸ h.order
  nodup := hready ▸ h.nodup
  parked batch hbatch := by
    have hnodup : (staged ++ woken).Nodup := hready ▸ h.nodup
    have hin : batch ∈ plan.ready := hready ▸ mem_append_right _ hbatch
    cases mem_append.mp (h.held batch hin) with
    | inl hstaged => exact absurd rfl ((nodup_append.mp hnodup).2.2 _ hstaged _ hbatch)
    | inr hpending => exact hpending
  complete hawaits batch hbatch hnot := by
    by_contra hall
    push Not at hall
    have hreleased : batch ∈ plan.ready := by
      apply (h.released hawaits batch).mpr
      refine ⟨plan.ready ++ [batch], ?_, ?_, mem_append_right _ mem_cons_self⟩
      · rw [causalOrder_concat, hready]
        exact ⟨hready ▸ h.order, hall⟩
      · intro other hother
        cases mem_append.mp hother with
        | inl hin => exact h.held other hin
        | inr hsame =>
          rw [mem_singleton.mp hsame]
          exact mem_append_right _ hbatch
    rw [hready] at hreleased
    cases mem_append.mp hreleased with
    | inl hstaged => exact hapart batch hstaged hbatch
    | inr hwoken => exact hnot hwoken

section Integration

variable {plan : IntegrationPlan} {state : ReplicaState T}

theorem integrateReady_of_accepts (h : Accepts engine plan.ready replica.state state) :
    integrateReady engine plan replica = .ok ⟨⟩ { replica with state } := by
  rw [Accepts] at h
  rw [integrateReady]
  by_cases hempty : plan.ready = []
  · rw [if_pos hempty] at h
    rw [if_pos hempty, h]
  · rw [if_neg hempty] at h
    rw [if_neg hempty, h]

theorem accepts_of_integrateReady {next : BlockReplica T}
    (h : integrateReady engine plan replica = .ok ⟨⟩ next) :
    Accepts engine plan.ready replica.state next.state := by
  rw [integrateReady] at h
  rw [Accepts]
  by_cases hempty : plan.ready = []
  · rw [if_pos hempty] at h
    rw [if_pos hempty]
    cases h
    rfl
  · rw [if_neg hempty] at h
    rw [if_neg hempty]
    split at h
    · next state hintegrate =>
        cases h
        exact hintegrate
    · next error state hintegrate =>
        obtain ⟨thrown, rebuilt, hrecover, -⟩ := @recover_eq T engine error { replica with state }
        rw [hrecover] at h
        cases h

theorem notify_ok_iff : (∃ last, notify engine replica = .ok ⟨⟩ last) ↔ (replica.listening = true →
      ∃ document text, engine.document replica.state.text = .ok document text) := by
  rw [notify]
  cases hlistening : replica.listening with
  | false => simp
  | true =>
    rw [ReplicaState.liftText]
    cases hread : engine.document replica.state.text with
    | ok document text => simp
    | error error text => simp

end Integration

section Delivery

/-- A new batch that parses, produces nothing that has an owner, has its parents integrated and
is accepted by itself. -/
structure GoodBatch (engine : TextEngine T) (config : ReplicaConfig) (replica : BlockReplica T)
    (raw batch : RichTextEventBatch) : Prop where
  parsed : parseBatch config.isSafeLinkUrl raw = .ok batch
  unknown : replica.batchesById.has batch.batchId = false
  unowned : ∀ id ∈ batch.eventIds, replica.eventOwner.has id = false
  parents : ∀ parent ∈ batch.parentVersion, replica.Available parent
  valid : ∃ next, Accepts engine [batch] replica.state next

variable {raw batch : RichTextEventBatch}

theorem GoodBatch.parseBatches (h : GoodBatch engine config replica raw batch) :
    parseBatches config [raw] = .ok [batch] := by
  have hparse : [raw].mapM (parseBatch config.isSafeLinkUrl) = .ok [batch] :=
    except_mapM_eq_ok.mpr (.cons h.parsed .nil)
  rw [BlockReplica.parseBatches, hparse]
  rfl

theorem GoodBatch.stage (h : GoodBatch engine config replica raw batch) :
    ∃ staged, stage replica .empty .empty [batch] = .ok staged ∧ staged.values = [batch] := by
  obtain ⟨owners, hclaim⟩ := @claimOwners_ends T replica .empty batch.batchId batch.eventIds
    (parseBatch_named h.parsed).2 fun id hid => ⟨rfl, h.unowned id hid⟩
  refine ⟨InsertionMap.empty.set batch.batchId batch, ?_, rfl⟩
  rw [BlockReplica.stage, InsertionMap.has_eq_false.mp h.unknown]
  exact except_bind_eq_ok.mpr ⟨owners, hclaim, rfl⟩

theorem delivery_integrates_iff (h : Reachable engine config replica)
    (hgood : GoodBatch engine config replica raw batch) :
    ∃ woken, WokenBy replica [] [batch] woken ∧ ∃ bound, ∀ fuel, bound ≤ fuel →
      (batch ∈ (finalState (applyRemoteEvents engine config fuel [raw] replica)).integrated ↔
        ∃ next, Accepts engine (batch :: woken) replica.state next) := by
  have hconsistent := h.consistent
  obtain ⟨staged, hstage, hvalues⟩ := hgood.stage
  obtain ⟨owners, hstaged⟩ := stage_ok hstage
  have hinput := hconsistent.planInput hstaged
  obtain ⟨bound, plan, hplan⟩ := planIntegration_settles hinput
  have hspec := planIntegration_spec hinput (hplan bound (Nat.le_refl _))
  obtain ⟨woken, hready⟩ :=
    planIntegration_single hgood.parents (hvalues ▸ hplan bound (Nat.le_refl _))
  refine ⟨woken, ?_, bound, ?_⟩
  · apply (hvalues ▸ hspec).wokenBy hready
    intro other hother hpending
    rw [mem_singleton.mp hother] at hpending
    have hstored := (hconsistent.stored batch.batchId).mpr
      (Or.inr (Or.inr (hconsistent.index.has_of_mem hpending)))
    rw [hgood.unknown] at hstored
    cases hstored
  · intro fuel hfuel
    rw [applyRemoteEvents_eq hgood.parseBatches hstage (hplan fuel hfuel), ← hready]
    cases hintegrate : integrateReady engine plan replica with
    | ok _ next =>
      obtain ⟨state, hfinal, -⟩ := settleDelivery_ok staged.values hintegrate
      rw [hfinal, sameRecords_commit.integrated]
      constructor
      · exact fun _ => ⟨next.state, accepts_of_integrateReady hintegrate⟩
      · intro _
        apply mem_append_right
        rw [hready]
        exact mem_cons_self
    | error error next =>
      rw [settleDelivery, bind_of_error hintegrate]
      obtain ⟨state, rfl, -⟩ := integrateReady_error hconsistent.hasIntegrated hintegrate
      constructor
      · intro hmem
        have hstored := (hconsistent.stored batch.batchId).mpr
          (Or.inr (Or.inl (mem_map_of_mem hmem)))
        rw [hgood.unknown] at hstored
        cases hstored
      · rintro ⟨next, haccepts⟩
        rw [integrateReady_of_accepts haccepts] at hintegrate
        cases hintegrate

end Delivery

section Transaction

open TransactionContext ReplicaState

variable {context : TransactionContext T} {batch : RichTextEventBatch}

/-- The batch and event IDs are those of no integrated or parked batch. -/
structure FreshIds (replica : BlockReplica T) (batch : RichTextEventBatch) : Prop where
  batchId : replica.batchesById.has batch.batchId = false
  events : ∀ id ∈ batch.eventIds, replica.eventOwner.has id = false

theorem formatEventId_ne_bootstrap {replicaId : Text} {sequence : Nat} (h : sequence ≤ maxSafeInteger) :
    Codec.formatEventId replicaId sequence ≠ BOOTSTRAP_BATCH_ID := by
  intro heq
  have hsplit := Codec.splitLastColon_append replicaId (Codec.decimal sequence)
    (Codec.colon_not_mem_decimal h)
  have hname : Codec.splitLastColon BOOTSTRAP_BATCH_ID =
      some (text "softmaple:block-model:bootstrap", text "v1") := by decide
  rw [← Codec.formatEventId, heq, hname] at hsplit
  have hdigits := Codec.digits_decimalDigits _ sequence (Codec.decimal_lt h)
  have hsuffix : Codec.decimal sequence = text "v1" :=
    (congrArg Prod.snd (Option.some.inj hsplit)).symm
  rw [Codec.decimal] at hsuffix
  rw [hsuffix] at hdigits
  exact absurd (hdigits _ mem_cons_self) (by decide)

theorem transaction_numbers
    (hrun : CallbackRun engine config.replicaId (.start replica.state) context)
    (hfinish : finished config context (.ok ()) = .ok (some batch)) :
    ∃ numbers, FirstUnused config.replicaId replica.state numbers ∧
      numbers.length = context.events.length ∧
      batch.eventIds = numbers.map (Codec.formatEventId config.replicaId) ∧
      ∃ n ∈ numbers, batch.batchId = Codec.formatEventId config.replicaId n := by
  obtain ⟨hfailure, hids, hid, -⟩ := finished_ok hfinish
  obtain ⟨numbers, hfirst, hnumbers, -⟩ :=
    (hrun.run (.start config.replicaId replica.state)).numbered hfailure
  have hlength := congrArg List.length hnumbers
  rw [length_map, length_map] at hlength
  refine ⟨numbers, hfirst, hlength.symm, hids.trans hnumbers, ?_⟩
  obtain ⟨event, hevent, heq⟩ := Option.map_eq_some_iff.mp hid
  have hmem : event.id ∈ numbers.map (Codec.formatEventId config.replicaId) := by
    rw [← hnumbers]
    exact mem_map_of_mem (mem_of_mem_head? hevent)
  obtain ⟨n, hn, hname⟩ := mem_map.mp hmem
  exact ⟨n, hn, heq.symm.trans hname.symm⟩

theorem freshIds_iff {numbers : List Nat} (h : Consistent replica)
    (hfirst : FirstUnused config.replicaId replica.state numbers)
    (hids : batch.eventIds = numbers.map (Codec.formatEventId config.replicaId))
    (hid : ∃ n ∈ numbers, batch.batchId = Codec.formatEventId config.replicaId n) :
    FreshIds replica batch ↔ ∀ n ∈ numbers, ∀ parked ∈ replica.pendingBatches,
      Codec.formatEventId config.replicaId n ∉ parked.eventIds := by
  constructor
  · intro hfresh n hn parked hparked hmem
    have hown : Codec.formatEventId config.replicaId n ∈ batch.eventIds := by
      rw [hids]
      exact mem_map_of_mem hn
    have hunowned := hfresh.events _ hown
    rw [(h.owned _).mpr (Or.inr (Or.inr ⟨parked, hparked, hmem⟩))] at hunowned
    cases hunowned
  · intro hclear
    constructor
    · obtain ⟨n, hn, hname⟩ := hid
      rw [Bool.eq_false_iff]
      intro hhas
      rcases (h.stored batch.batchId).mp hhas with hbootstrap | hintegrated | hpending
      · rw [hname] at hbootstrap
        exact formatEventId_ne_bootstrap (hfirst.unused n hn).2.1 hbootstrap
      · obtain ⟨other, hother, heq⟩ := mem_map.mp hintegrated
        have hnamed := h.named other (Or.inl hother)
        rw [heq, hname] at hnamed
        exact (hfirst.unused n hn).2.2 (h.graph other hother _ hnamed)
      · obtain ⟨entry, hentry⟩ := InsertionMap.has_iff.mp hpending
        have hkey := h.index.keyed hentry
        have hparked : entry.batch ∈ replica.pendingBatches :=
          (mem_pendingBatches h.index).mpr ⟨entry, hkey ▸ hentry, rfl⟩
        have hnamed := h.named entry.batch (Or.inr hparked)
        rw [hkey, hname] at hnamed
        exact hclear n hn entry.batch hparked hnamed
    · intro id hmem
      rw [hids] at hmem
      obtain ⟨n, hn, rfl⟩ := mem_map.mp hmem
      rw [Bool.eq_false_iff]
      intro hhas
      rcases (h.owned _).mp hhas with hbootstrap | ⟨other, hother, hin⟩ | ⟨parked, hparked, hin⟩
      · exact (hfirst.unused n hn).2.2 (hbootstrap ▸ h.bootstrap)
      · exact (hfirst.unused n hn).2.2 (h.graph other hother _ hin)
      · exact hclear n hn parked hparked hin

theorem getBatch_transact (h : Consistent replica)
    (hrun : CallbackRun engine config.replicaId (.start replica.state) context)
    (hfinish : finished config context (.ok ()) = .ok (some batch))
    (hfresh : FreshIds replica batch) (fuel : Nat) :
    ∀ parked ∈ replica.pendingBatches,
      (finalState (transact engine config fuel context (.ok ()) replica)).getBatch parked.batchId =
        replica.getBatch parked.batchId := by
  intro parked hparked
  have hgrows := (hrun.run (.start config.replicaId replica.state)).grows
  have hcontext := h.withState (h.hasIntegrated.grows hgrows)
  have hne : parked.batchId ≠ batch.batchId := by
    intro heq
    have hstored := (h.stored parked.batchId).mpr (Or.inr (Or.inr (h.index.has_of_mem hparked)))
    rw [heq, hfresh.batchId] at hstored
    cases hstored
  have htransacted := transact_transacted engine config fuel context (.ok ()) replica
  generalize finalState (transact engine config fuel context (.ok ()) replica) = final
    at htransacted
  cases htransacted with
  | dropped => rfl
  | recovered recovers =>
    obtain ⟨state, rfl, -⟩ := recover_has hcontext.hasIntegrated recovers
    rfl
  | failed finishes plans fails =>
    obtain ⟨state, rfl, -⟩ := integrateReady_error hcontext.hasIntegrated fails
    rfl
  | committed finishes plans integrates same =>
    obtain ⟨state, rfl, -⟩ := integrateReady_ok integrates
    rw [hfinish] at finishes
    cases finishes
    rw [getBatch, sameRecords_commit.batchesById]
    apply InsertionMap.get?_setAll_of_not_mem
    intro hmem
    exact hne (mem_singleton.mp hmem)

theorem Consistent.transactionPlan (h : Consistent replica)
    (hrun : CallbackRun engine config.replicaId (.start replica.state) context)
    (hfinish : finished config context (.ok ()) = .ok (some batch))
    (hfresh : FreshIds replica batch) :
    PlanInput { replica with state := context.state } [] batch.eventIds := by
  have hcallback := hrun.run (.start config.replicaId replica.state)
  have hcontext := h.withState (h.hasIntegrated.grows hcallback.grows)
  obtain ⟨-, hids, -, hparse⟩ := finished_ok hfinish
  refine ⟨hcontext.index, ?_, nodup_pendingIds hcontext.index, ?_⟩
  · intro id hmem
    rw [hids] at hmem
    obtain ⟨event, hevent, rfl⟩ := mem_map.mp hmem
    exact decide_eq_true (hcallback.indexed event hevent)
  · apply nodup_append.mpr
    refine ⟨(parseBatch_named hparse).2, h.produced, ?_⟩
    intro left hleft right hright heq
    obtain ⟨parked, hparked, hin⟩ := mem_flatMap.mp hright
    have hunowned := hfresh.events left hleft
    rw [heq, (h.owned right).mpr (Or.inr (Or.inr ⟨parked, hparked, hin⟩))] at hunowned
    cases hunowned

theorem transaction_commits_iff (h : Reachable engine config replica)
    (hrun : CallbackRun engine config.replicaId (.start replica.state) context)
    (hfinish : finished config context (.ok ()) = .ok (some batch))
    (hfresh : FreshIds replica batch) :
    ∃ woken, WokenBy { replica with state := context.state } batch.eventIds [] woken ∧
      ∃ bound, ∀ fuel, bound ≤ fuel →
        ((∃ final, transact engine config fuel context (.ok ()) replica = .ok (some batch) final ∧
            batch ∈ final.integrated) ↔
          ∃ next, Accepts engine woken context.state next ∧ (replica.listening = true →
              ∃ document text, engine.document next.text = .ok document text)) := by
  have hconsistent := h.consistent
  obtain ⟨-, -, -, hparse⟩ := finished_ok hfinish
  have hinput := hconsistent.transactionPlan hrun hfinish hfresh
  obtain ⟨bound, plan, hplan⟩ := planIntegration_settles hinput
  have hspec := planIntegration_spec hinput (hplan bound (Nat.le_refl _))
  refine ⟨plan.ready, hspec.wokenBy rfl fun other hother => absurd hother not_mem_nil,
    bound, ?_⟩
  intro fuel hfuel
  rw [transact_eq hfinish (hplan fuel hfuel)]
  constructor
  · rintro ⟨final, hresult, -⟩
    obtain ⟨⟨⟩, integrated, hintegrate, hrest⟩ := bind_eq_ok.mp hresult
    obtain ⟨⟨⟩, committed, hcommit, hrest⟩ := bind_eq_ok.mp hrest
    cases hcommit
    obtain ⟨⟨⟩, notified, hnotify, -⟩ := bind_eq_ok.mp hrest
    refine ⟨integrated.state, accepts_of_integrateReady hintegrate, ?_⟩
    obtain ⟨state, rfl, -⟩ := integrateReady_ok hintegrate
    have hreadable := notify_ok_iff.mp ⟨notified, hnotify⟩
    rw [sameRecords_commit.listening, sameRecords_commit.state] at hreadable
    exact hreadable
  · rintro ⟨next, haccepts, hreadable⟩
    have hintegrate := @integrateReady_of_accepts T engine { replica with state := context.state }
      plan next haccepts
    have hnotify : ∃ last, notify engine (({ replica with state := next }).commit [batch]
        (batch :: plan.ready) plan) = .ok ⟨⟩ last := by
      rw [notify_ok_iff, sameRecords_commit.listening, sameRecords_commit.state]
      exact hreadable
    obtain ⟨last, hnotify⟩ := hnotify
    obtain ⟨state, hlast, -⟩ := @notify_same T engine
      (({ replica with state := next }).commit [batch] (batch :: plan.ready) plan)
    rw [hnotify, finalState_ok] at hlast
    have hclone : (parseBatch config.isSafeLinkUrl batch).mapError ReplicaError.wire =
        .ok batch := by rw [hparse]; rfl
    refine ⟨last, ?_, ?_⟩
    · rw [settleTransaction, bind_of_ok hintegrate, bind_of_ok (modify_run _), bind_of_ok hnotify,
        hclone, bind_of_ok ofExcept_ok_run]
      rfl
    · rw [hlast, sameRecords_commit.integrated]
      exact mem_append_right _ mem_cons_self

/-- Parked batches neither block nor clash with good work exactly if a new batch, or the batch of a
transaction, is accepted together with those it wakes, and no parked batch has one of the
sequence numbers that the transaction takes. -/
theorem parked_harmless_iff (h : Reachable engine config replica) :
    (∀ raw batch, GoodBatch engine config replica raw batch →
      ∃ woken, WokenBy replica [] [batch] woken ∧ ∃ bound, ∀ fuel, bound ≤ fuel →
        (batch ∈ (finalState (applyRemoteEvents engine config fuel [raw] replica)).integrated ↔
          ∃ next, Accepts engine (batch :: woken) replica.state next)) ∧
    ∀ context batch, CallbackRun engine config.replicaId (.start replica.state) context →
      finished config context (.ok ()) = .ok (some batch) →
      ∃ numbers, FirstUnused config.replicaId replica.state numbers ∧
        numbers.length = context.events.length ∧
        (FreshIds replica batch ↔ ∀ n ∈ numbers, ∀ parked ∈ replica.pendingBatches,
          Codec.formatEventId config.replicaId n ∉ parked.eventIds) ∧
        (FreshIds replica batch → (∀ fuel, ∀ parked ∈ replica.pendingBatches,
            (finalState (transact engine config fuel context (.ok ()) replica)).getBatch
              parked.batchId = replica.getBatch parked.batchId) ∧
          ∃ woken, WokenBy { replica with state := context.state } batch.eventIds [] woken ∧
            ∃ bound, ∀ fuel, bound ≤ fuel →
              ((∃ final, transact engine config fuel context (.ok ()) replica =
                  .ok (some batch) final ∧ batch ∈ final.integrated) ↔
                ∃ next, Accepts engine woken context.state next ∧ (replica.listening = true →
                    ∃ document text, engine.document next.text = .ok document text))) := by
  constructor
  · intro raw batch hgood
    exact delivery_integrates_iff h hgood
  · intro context batch hrun hfinish
    obtain ⟨numbers, hfirst, hlength, hids, hid⟩ := transaction_numbers hrun hfinish
    refine ⟨numbers, hfirst, hlength, freshIds_iff h.consistent hfirst hids hid, ?_⟩
    intro hfresh
    exact ⟨getBatch_transact h.consistent hrun hfinish hfresh,
      transaction_commits_iff h hrun hfinish hfresh⟩

end Transaction

section Poisoned

/-- A text engine that takes everything. -/
def quietText : TextEngine Unit where
  empty := ()
  validateLocalOperation _ _ := .ok true
  advanceWithEvent _ := pure ()
  applyRemoteEvents _ := pure ()
  integrateRaw _ := pure ()
  applyEffect _ _ := pure ()
  settle := pure ()
  document := pure ⟨[]⟩

def alice : ReplicaConfig where
  isSafeLinkUrl _ := false
  replicaId := text "alice"

def newReplica : BlockReplica Unit where
  state := {
    eventGraph := [BOOTSTRAP_EVENT_ID]
    currentVersion := [BOOTSTRAP_EVENT_ID]
    nextSequenceNumber := 0
    causal := [BOOTSTRAP_EVENT_ID]
    blocks := InsertionMap.empty.set BOOTSTRAP_BLOCK_ID ⟨BOOTSTRAP_EVENT_ID, none⟩
    text := () }
  batchesById := InsertionMap.empty.set BOOTSTRAP_BATCH_ID BOOTSTRAP_BATCH
  eventOwner := InsertionMap.empty.set BOOTSTRAP_EVENT_ID BOOTSTRAP_BATCH_ID
  integrated := []
  pending := .empty
  waiting := .empty
  listening := false

theorem create_quietText : create quietText = .ok newReplica := rfl

/-- A batch of one event that types `a` into the first block. -/
def typing (id parent : Text) : RichTextEventBatch where
  batchId := id
  parentVersion := [parent]
  events := [{
    id
    parentVersion := [parent]
    timestamp := 0
    operation := .insert 1 (text "a")
    effect := .textInsert BOOTSTRAP_BLOCK_ID (text "a") }]

def poison (id parent : Text) : RichTextEventBatch where
  batchId := id
  parentVersion := [parent]
  events := [{
    id
    parentVersion := [parent]
    timestamp := 0
    operation := .insert 2 METADATA_MARKER
    effect := .blockDelete BOOTSTRAP_BLOCK_ID }]

/-- The new replica after `batch` arrived ahead of its parent. -/
def ahead (batch : RichTextEventBatch) : BlockReplica Unit :=
  finalState (applyRemoteEvents quietText alice 8 [batch] newReplica)

theorem ahead_reachable (batch : RichTextEventBatch) : Reachable quietText alice (ahead batch) :=
  .delivered 8 [batch] (.created create_quietText)

/-- The first event of `bob`, which `poison` waits for. -/
def opener : RichTextEventBatch := typing (text "bob:0") BOOTSTRAP_EVENT_ID

def poisoned : BlockReplica Unit := ahead (poison (text "bob:1") (text "bob:0"))

theorem goodOpener : GoodBatch quietText alice poisoned opener opener where
  parsed := rfl
  unknown := by decide
  unowned := by decide
  parents parent hparent := by
    rw [mem_singleton.mp hparent]
    rfl
  valid := ⟨_, rfl⟩

/-- A transaction that types `h`. -/
def greeting (replica : BlockReplica Unit) : TransactionContext Unit :=
  finalState (TransactionContext.edit (ReplicaState.editText quietText alice.replicaId 0
    (.insert 1 (text "h")) (fun _ _ => .ok (.textInsert BOOTSTRAP_BLOCK_ID (text "h")))
    "EG-walker rejected a text insert") (.start replica.state))

def greetingBatch : RichTextEventBatch where
  batchId := text "alice:0"
  parentVersion := [BOOTSTRAP_EVENT_ID]
  events := [{
    id := text "alice:0"
    parentVersion := [BOOTSTRAP_EVENT_ID]
    timestamp := 0
    operation := .insert 1 (text "h")
    effect := .textInsert BOOTSTRAP_BLOCK_ID (text "h") }]

theorem greeting_run (replica : BlockReplica Unit) {context : TransactionContext Unit}
    (h : TransactionContext.edit (ReplicaState.editText quietText alice.replicaId 0
      (.insert 1 (text "h")) (fun _ _ => .ok (.textInsert BOOTSTRAP_BLOCK_ID (text "h")))
      "EG-walker rejected a text insert") (.start replica.state) = .ok ⟨⟩ context) :
    TransactionContext.CallbackRun quietText alice.replicaId (.start replica.state) context :=
  .edited 0 _ _ _ h (.done context)

/-- A poisoned batch that waits takes down the good batch and the transaction it waits for, and a
batch of this replica's own past, parked after a restore, is overwritten. -/
theorem parked_harms :
    (Reachable quietText alice poisoned ∧ GoodBatch quietText alice poisoned opener opener ∧
      ∃ last, applyRemoteEvents quietText alice 8 [opener] poisoned =
        .error .bootstrapDeleted last ∧ opener ∉ last.integrated) ∧
    (∃ replica context, Reachable quietText alice replica ∧
      TransactionContext.CallbackRun quietText alice.replicaId (.start replica.state) context ∧
      finished alice context (.ok ()) = .ok (some greetingBatch) ∧
      ∃ last, transact quietText alice 8 context (.ok ()) replica = .error .bootstrapDeleted last) ∧
    ∃ replica context, Reachable quietText alice replica ∧
      TransactionContext.CallbackRun quietText alice.replicaId (.start replica.state) context ∧
      replica.getBatch (text "alice:0") = some (typing (text "alice:0") (text "bob:0")) ∧
      ∃ last, transact quietText alice 8 context (.ok ()) replica = .ok (some greetingBatch) last ∧
        last.getBatch (text "alice:0") = some greetingBatch := by
  refine ⟨⟨ahead_reachable _, goodOpener, _, rfl, by decide⟩, ?_, ?_⟩
  · let waiting := ahead (poison (text "bob:1") (text "alice:0"))
    exact ⟨waiting, greeting waiting, ahead_reachable _, greeting_run waiting rfl, rfl, _, rfl⟩
  · let restored := ahead (typing (text "alice:0") (text "bob:0"))
    exact ⟨restored, greeting restored, ahead_reachable _, greeting_run restored rfl, rfl, _, rfl,
      rfl⟩

/-- The conditions at the poisoned replica: `opener` is a good batch, and a greeting takes the
number 0, which no parked batch has. -/
theorem parked_harmless_poisoned :
    (∃ woken, WokenBy poisoned [] [opener] woken ∧ ∃ bound, ∀ fuel, bound ≤ fuel →
      (opener ∈ (finalState (applyRemoteEvents quietText alice fuel [opener] poisoned)).integrated ↔
        ∃ next, Accepts quietText (opener :: woken) poisoned.state next)) ∧
    ∃ numbers, ReplicaState.FirstUnused alice.replicaId poisoned.state numbers ∧
      numbers.length = 1 ∧
      (FreshIds poisoned greetingBatch ↔ ∀ n ∈ numbers, ∀ parked ∈ poisoned.pendingBatches,
        Codec.formatEventId alice.replicaId n ∉ parked.eventIds) := by
  obtain ⟨hdelivery, htransaction⟩ := parked_harmless_iff (ahead_reachable
    (poison (text "bob:1") (text "bob:0")))
  refine ⟨hdelivery opener opener goodOpener, ?_⟩
  obtain ⟨numbers, hfirst, hlength, hfresh, -⟩ :=
    htransaction (greeting poisoned) greetingBatch (greeting_run poisoned rfl) rfl
  exact ⟨numbers, hfirst, hlength, hfresh⟩

end Poisoned

end Softmaple.BlockModel.BlockReplica

namespace Softmaple.BlockModel.BlockReplica

open StateMethod List

variable {T : Type} {replica : BlockReplica T}

/-- `getBatch` finds it. -/
def Holds (replica : BlockReplica T) (batchId : Text) : Prop :=
  replica.batchesById.has batchId = true

theorem Consistent.holds_iff (h : Consistent replica) (batchId : Text) : replica.Holds batchId ↔
      batchId = BOOTSTRAP_BATCH_ID ∨ batchId ∈ replica.integrated.map (·.batchId) ∨
        replica.pending.has batchId = true :=
  h.stored batchId

theorem holds_of_getBatch {batchId : Text} {batch : RichTextEventBatch}
    (h : replica.getBatch batchId = some batch) : replica.Holds batchId :=
  InsertionMap.has_iff.mpr ⟨batch, h⟩

def KeepsHeld (first last : BlockReplica T) : Prop :=
  ∀ batchId, first.Holds batchId → last.Holds batchId

theorem keepsHeld_commit (replica : BlockReplica T) (stored integrated : List RichTextEventBatch)
    (plan : IntegrationPlan) : KeepsHeld replica (replica.commit stored integrated plan) := by
  intro batchId hheld
  rw [Holds, sameRecords_commit.batchesById]
  exact InsertionMap.has_setAll.mpr (Or.inr hheld)

section Deliveries

variable {engine : TextEngine T} {config : ReplicaConfig} {fuel : Nat}
  {input incoming : List RichTextEventBatch} {staged : InsertionMap Text RichTextEventBatch}

variable {final : BlockReplica T}

theorem Delivered.keepsHeld
    (h : Delivered engine config fuel input replica final) : KeepsHeld replica final := by
  obtain ⟨state, rfl⟩ | ⟨stored, plan, state, last, rfl⟩ := h.state_or_commit
  · exact fun _ h => h
  · exact fun batchId hheld => keepsHeld_commit { replica with state } _ _ _ batchId hheld

theorem Transacted.keepsHeld {context : TransactionContext T} {outcome : Except ReplicaError Unit}
    (h : Transacted engine config fuel context outcome replica final) :
    KeepsHeld replica final := by
  obtain ⟨state, rfl⟩ | ⟨batch, plan, state, last, -, -, rfl⟩ := h.state_or_commit
  · exact fun _ h => h
  · exact fun batchId hheld => keepsHeld_commit { replica with state } _ _ _ batchId hheld

theorem stage_covers {owners : InsertionMap Text Text}
    {before : InsertionMap Text RichTextEventBatch}
    (h : stage replica before owners incoming = .ok staged) :
    (∀ batchId, before.has batchId = true → staged.has batchId = true) ∧
      ∀ batch ∈ incoming, replica.Holds batch.batchId ∨ staged.has batch.batchId = true := by
  induction incoming generalizing before owners with
  | nil =>
    cases h
    exact ⟨fun _ hbefore => hbefore, fun _ hmem => absurd hmem not_mem_nil⟩
  | cons batch rest ih =>
    rw [stage] at h
    split at h
    · next existing hexisting =>
        split at h
        · obtain ⟨hgrows, hrest⟩ := ih h
          refine ⟨hgrows, ?_⟩
          intro other hother
          cases mem_cons.mp hother with
          | inr hmem => exact hrest other hmem
          | inl heq =>
            rw [heq]
            cases hknown : replica.batchesById.get? batch.batchId with
            | some known => exact Or.inl (InsertionMap.has_iff.mpr ⟨known, hknown⟩)
            | none =>
              rw [hknown] at hexisting
              exact Or.inr (hgrows _ (InsertionMap.has_iff.mpr ⟨existing, hexisting⟩))
        · cases h
    · obtain ⟨next, -, hrest⟩ := except_bind_eq_ok.mp h
      obtain ⟨hgrows, hcovered⟩ := ih hrest
      refine ⟨?_, ?_⟩
      · intro batchId hbefore
        apply hgrows
        rw [InsertionMap.has_set, hbefore, Bool.or_true]
      · intro other hother
        cases mem_cons.mp hother with
        | inr hmem => exact hcovered other hmem
        | inl heq =>
          rw [heq]
          exact Or.inr (hgrows _ (InsertionMap.has_iff.mpr ⟨batch, InsertionMap.get?_set_self⟩))

theorem parseBatches_parses (h : parseBatches config input = .ok incoming)
    {raw : RichTextEventBatch} (hraw : raw ∈ input) :
    ∃ batch ∈ incoming, parseBatch config.isSafeLinkUrl raw = .ok batch := by
  have hmatched := exists_matched (parseBatches_ok h).flip hraw
  exact hmatched

/-- A delivery that returns leaves nothing of it behind. -/
theorem holds_of_applyRemoteEvents {result : ApplyRichTextEventsResult}
    (h : applyRemoteEvents engine config fuel input replica = .ok result final)
    {raw : RichTextEventBatch} (hraw : raw ∈ input) : final.Holds raw.batchId := by
  obtain ⟨incoming, staged, plan, hparse, hstage, -, -, hstored, -⟩ := applyRemoteEvents_ok h
  obtain ⟨batch, hbatch, hparsed⟩ := parseBatches_parses hparse hraw
  rw [← (parseBatch_eq_ok hparsed).1, Holds, hstored]
  apply InsertionMap.has_setAll.mpr
  cases (stage_covers hstage).2 batch hbatch with
  | inl hheld => exact Or.inr hheld
  | inr hhas =>
    obtain ⟨owners, hstaged⟩ := stage_ok hstage
    apply Or.inl
    rw [map_map]
    have hkey := InsertionMap.mem_keys.mpr hhas
    rw [← hstaged.ids] at hkey
    exact hkey

end Deliveries

end Softmaple.BlockModel.BlockReplica
