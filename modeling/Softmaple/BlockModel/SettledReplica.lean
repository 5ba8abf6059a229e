import Softmaple.BlockModel.ParkedBatches

/-!
What a method that returns adds to the history of a replica: its events and nothing else, in
the event graph and in the causal index alike, and none of them was there.
-/
namespace Softmaple.BlockModel

open StateMethod List

variable {T : Type}

namespace ReplicaState

/-- The events `ids` were added, in this order. -/
structure Extends (first last : ReplicaState T) (ids : List Text) : Prop where
  causal : last.causal = first.causal ++ ids
  current : ∀ id ∈ last.currentVersion, id ∈ first.currentVersion ∨ id ∈ ids
  fresh : ∀ id ∈ ids, id ∉ first.causal
  distinct : ids.Nodup

theorem Extends.refl (state : ReplicaState T) : Extends state state [] where
  causal := (append_nil _).symm
  current _ hid := Or.inl hid
  fresh _ hid := absurd hid not_mem_nil
  distinct := nodup_nil

theorem Extends.trans {first second third : ReplicaState T} {ids more : List Text}
    (h : Extends first second ids) (k : Extends second third more) :
    Extends first third (ids ++ more) where
  causal := by rw [k.causal, h.causal, append_assoc]
  current id hid := by
    cases k.current id hid with
    | inl hbefore =>
      cases h.current id hbefore with
      | inl hfirst => exact Or.inl hfirst
      | inr hids => exact Or.inr (mem_append_left _ hids)
    | inr hmore => exact Or.inr (mem_append_right _ hmore)
  fresh id hid := by
    cases mem_append.mp hid with
    | inl hids => exact h.fresh id hids
    | inr hmore =>
      intro hcausal
      apply k.fresh id hmore
      rw [h.causal]
      exact mem_append_left _ hcausal
  distinct := by
    refine nodup_append.mpr ⟨h.distinct, k.distinct, ?_⟩
    intro left hleft right hright heq
    apply k.fresh right hright
    rw [h.causal, ← heq]
    exact mem_append_right _ hleft

theorem SameHistory.extends {first last : ReplicaState T} (h : SameHistory first last) :
    Extends first last [] where
  causal := by rw [h.causal, append_nil]
  current id hid := by
    rw [h.currentVersion] at hid
    exact Or.inl hid
  fresh _ hid := absurd hid not_mem_nil
  distinct := nodup_nil

variable {engine : TextEngine T} {first last : ReplicaState T}

theorem addCausal_eq {eventId : Text} {parents : List Text}
    (h : addCausal eventId parents first = .ok ⟨⟩ last) :
    last = { first with causal := first.causal ++ [eventId] } ∧ eventId ∉ first.causal := by
  rw [addCausal] at h
  split at h
  · cases h
  · next hnew =>
      split at h
      · cases h
      · cases h
        exact ⟨rfl, hnew⟩

variable {event : RichTextEvent}

theorem integrateEvent_extends (h : integrateEvent engine event first = .ok ⟨⟩ last) :
    last.causal = first.causal ++ [event.id] ∧ last.currentVersion = first.currentVersion ∧
      event.id ∉ first.causal := by
  obtain ⟨⟨⟩, indexed, hindex, hrest⟩ := bind_eq_ok.mp h
  obtain ⟨rfl, hnew⟩ := addCausal_eq hindex
  obtain ⟨⟨⟩, raw, hraw, heffect⟩ := bind_eq_ok.mp hrest
  obtain ⟨⟨⟩, marked, hmarker, happly⟩ := bind_eq_ok.mp heffect
  have hsame : SameHistory _ last :=
    chains_sameHistory.trans ((liftText_same _).of_ok hraw)
      (chains_sameHistory.trans ((applyMarker_same _ _).of_ok hmarker)
        ((liftText_same _).of_ok happly))
  exact ⟨hsame.causal, hsame.currentVersion, hnew⟩

theorem integrateOne_extends
    (h : (do addRemoteEvent event; integrateEvent engine event) first = .ok ⟨⟩ last) :
    Extends first last [event.id] := by
  obtain ⟨⟨⟩, added, hadd, hintegrate⟩ := bind_eq_ok.mp h
  rw [addRemoteEvent] at hadd
  split at hadd
  · cases hadd
  · cases hadd
    obtain ⟨hcausal, hcurrent, hnew⟩ := integrateEvent_extends hintegrate
    refine ⟨hcausal, ?_, ?_, nodup_singleton _⟩
    · intro id hid
      rw [hcurrent, addEvent] at hid
      cases mem_append.mp hid with
      | inl hbefore => exact Or.inl (mem_of_mem_filter hbefore)
      | inr hnow => exact Or.inr hnow
    · intro id hid
      rw [mem_singleton.mp hid]
      exact hnew

theorem forM_extends {method : RichTextEvent → Method T Unit}
    (hmethod : ∀ {event first last}, method event first = .ok ⟨⟩ last →
      Extends first last [event.id]) {events : List RichTextEvent}
    (h : events.forM method first = .ok ⟨⟩ last) : Extends first last (events.map (·.id)) := by
  induction events generalizing first with
  | nil =>
    cases h
    exact Extends.refl _
  | cons event events ih =>
    obtain ⟨⟨⟩, middle, hfirst, hrest⟩ := bind_eq_ok.mp h
    exact (hmethod hfirst).trans (ih hrest)

theorem integrateRemote_extends {events : List RichTextEvent}
    (h : integrateRemote engine events first = .ok ⟨⟩ last) :
    Extends first last (events.map (·.id)) := by
  obtain ⟨⟨⟩, applied, happly, hloop⟩ := bind_eq_ok.mp h
  exact ((liftText_same _).of_ok happly).extends.trans (forM_extends integrateOne_extends hloop)

theorem integrateBatches_extends {batches : List RichTextEventBatch}
    (h : integrateBatches engine batches first = .ok ⟨⟩ last) :
    Extends first last (batches.flatMap (·.eventIds)) := by
  obtain ⟨⟨⟩, integrated, hevents, hsettle⟩ := bind_eq_ok.mp h
  have hids : (batches.flatMap (·.events)).map (·.id) = batches.flatMap (·.eventIds) := by
    rw [map_flatMap]
    rfl
  have hall : Extends first integrated ((batches.flatMap (·.events)).map (·.id)) := by
    rw [integrateEvents] at hevents
    split at hevents
    · exact forM_extends integrateRemote_extends hevents
    · exact integrateRemote_extends hevents
  have hlast := hall.trans ((liftText_same _).of_ok hsettle).extends
  rwa [append_nil, hids] at hlast

theorem create_extends {state : ReplicaState T} (h : create engine = .ok state) :
    state.causal = [BOOTSTRAP_EVENT_ID] ∧
      ∀ id ∈ state.currentVersion, id = BOOTSTRAP_EVENT_ID := by
  rw [create] at h
  cases hresult : integrateBatches engine [BOOTSTRAP_BATCH] (blank engine) with
  | error error last => rw [hresult] at h; cases h
  | ok _ last =>
    rw [hresult] at h
    cases h
    have hextends := integrateBatches_extends hresult
    refine ⟨hextends.causal, ?_⟩
    intro id hid
    cases hextends.current id hid with
    | inl hblank => exact absurd hblank not_mem_nil
    | inr hmem => exact mem_singleton.mp hmem

theorem appendLocal_extends {replicaId : Text} {timestamp : Int}
    {operation : SerializedTextOperation} {event : GraphEvent}
    (h : appendLocal engine replicaId timestamp operation first = .ok event last) :
    last.causal = first.causal ∧
      ∀ id ∈ last.currentVersion, id ∈ first.currentVersion ∨ id = event.id := by
  obtain ⟨id, named, hname, h⟩ := bind_eq_ok.mp h
  have hnamed : named.causal = first.causal ∧ named.currentVersion = first.currentVersion := by
    rw [generateEventId] at hname
    split at hname
    · cases hname
    · cases hname
      exact ⟨rfl, rfl⟩
  obtain ⟨found, state, hget, h⟩ := bind_eq_ok.mp h
  cases hget
  obtain ⟨⟨⟩, added, hset, h⟩ := bind_eq_ok.mp h
  cases hset
  obtain ⟨⟨⟩, advanced, hadvance, h⟩ := bind_eq_ok.mp h
  have hsame := (liftText_same _).of_ok hadvance
  cases h
  refine ⟨hsame.causal.trans hnamed.1, ?_⟩
  intro other hother
  rw [hsame.currentVersion, addEvent] at hother
  cases mem_append.mp hother with
  | inl hbefore =>
    rw [← hnamed.2]
    exact Or.inl (mem_of_mem_filter hbefore)
  | inr hnow => exact Or.inr (mem_singleton.mp hnow)

theorem editText_extends {replicaId : Text} {timestamp : Int} {operation : SerializedTextOperation}
    {effectFor : ReplicaState T → GraphEvent → Except ReplicaError RichTextEffect}
    {rejection : String}
    (h : editText engine replicaId timestamp operation effectFor rejection first =
      .ok event last) : Extends first last [event.id] := by
  obtain ⟨result, appended, happend, h⟩ := bind_eq_ok.mp h
  cases result with
  | none => cases h
  | some graphEvent =>
    obtain ⟨found, state, hget, happend⟩ := bind_eq_ok.mp happend
    cases hget
    obtain ⟨valid, state, hvalid, happend⟩ := bind_eq_ok.mp happend
    obtain ⟨-, hunchanged⟩ := ofExcept_eq_ok.mp hvalid
    rw [hunchanged] at happend
    have happended : appended.causal = first.causal ∧
        ∀ id ∈ appended.currentVersion, id ∈ first.currentVersion ∨ id = graphEvent.id := by
      split at happend
      · obtain ⟨appendedEvent, added, happend, hmap⟩ := bind_eq_ok.mp happend
        cases hmap
        exact appendLocal_extends happend
      · cases happend
    obtain ⟨found, read, hget, h⟩ := bind_eq_ok.mp h
    cases hget
    obtain ⟨effect, unchanged, heffect, h⟩ := bind_eq_ok.mp h
    have hread := (ofExcept_eq_ok.mp heffect).2
    rw [hread] at h
    obtain ⟨⟨⟩, integrated, hintegrate, h⟩ := bind_eq_ok.mp h
    obtain ⟨⟨⟩, settled, hsettle, h⟩ := bind_eq_ok.mp h
    have hsame := (liftText_same _).of_ok hsettle
    cases h
    obtain ⟨hcausal, hcurrent, hnew⟩ := integrateEvent_extends hintegrate
    have hid : (fromGraphEvent graphEvent effect).id = graphEvent.id := rfl
    refine ⟨?_, ?_, ?_, nodup_singleton _⟩
    · rw [hsame.causal, hcausal, happended.1]
    · intro id hmem
      rw [hsame.currentVersion, hcurrent] at hmem
      rw [hid, mem_singleton]
      exact happended.2 id hmem
    · intro id hmem
      rw [mem_singleton.mp hmem, ← happended.1]
      exact hnew

end ReplicaState

namespace TransactionContext

open ReplicaState

variable {engine : TextEngine T} {replicaId : Text} {first last : TransactionContext T}

theorem CallbackRun.extends (hrun : CallbackRun engine replicaId first last)
    {start : ReplicaState T}
    (h : first.failure = none → Extends start first.state (first.events.map (·.id))) :
    last.failure = none → Extends start last.state (last.events.map (·.id)) := by
  induction hrun with
  | done context => exact h
  | read text rest ih =>
    apply ih
    intro hfailure
    exact ⟨(h hfailure).causal, (h hfailure).current, (h hfailure).fresh, (h hfailure).distinct⟩
  | edited timestamp operation effectFor rejection result rest ih =>
    apply ih
    obtain ⟨husable, event, state, hedit, rfl⟩ := edit_eq_ok result
    intro _
    rw [map_append]
    exact (h husable).trans (editText_extends hedit)
  | failed timestamp operation effectFor rejection error result rest ih =>
    apply ih
    intro hfailure
    cases edit_eq_error result with
    | inl hsame =>
      rw [hsame.1, hsame.2] at hfailure
      cases hfailure
    | inr hfailed =>
      obtain ⟨-, state, -, rfl⟩ := hfailed
      cases hfailure

end TransactionContext

end Softmaple.BlockModel

namespace Softmaple.BlockModel.BlockReplica

open CausalRelease List

variable {T : Type}

section Waiting

def NoEmptyWait (replica : BlockReplica T) : Prop :=
  ∀ eventId batchIds, replica.waiting.get? eventId = some batchIds → batchIds ≠ []

variable {replica : BlockReplica T}

theorem noEmptyWait_unpark (h : NoEmptyWait replica) (batchId : Text) :
    NoEmptyWait (replica.unpark batchId) := by
  intro eventId batchIds hget
  cases hpending : replica.pending.get? batchId with
  | none =>
    rw [unpark, hpending] at hget
    exact h _ _ hget
  | some removed =>
    rw [waiting_unpark hpending] at hget
    split at hget
    · exact h _ _ hget
    · split at hget
      · rw [InsertionMap.get?_erase] at hget
        split at hget
        · cases hget
        · exact h _ _ hget
      · next hleft =>
          rw [InsertionMap.get?_set] at hget
          split at hget
          · cases hget
            exact hleft
          · exact h _ _ hget

theorem noEmptyWait_park (h : NoEmptyWait replica) (batchId : Text) (entry : PendingBatch) :
    NoEmptyWait (replica.park batchId entry) := by
  intro eventId batchIds hget
  rw [park] at hget
  simp only [InsertionMap.get?_set] at hget
  split at hget
  · cases hget
    split
    · next hmem => exact ne_nil_of_mem hmem
    · exact append_ne_nil_of_right_ne_nil _ (cons_ne_nil _ _)
  · exact noEmptyWait_unpark h batchId _ _ hget

theorem noEmptyWait_commit (h : NoEmptyWait replica) (stored integrated : List RichTextEventBatch)
    (plan : IntegrationPlan) : NoEmptyWait (replica.commit stored integrated plan) := by
  have hunparked : ∀ (batchIds : List Text) {current : BlockReplica T}, NoEmptyWait current →
      NoEmptyWait (batchIds.foldl unpark current) := by
    intro batchIds
    induction batchIds with
    | nil => exact fun hcurrent => hcurrent
    | cons batchId batchIds ih => exact fun hcurrent => ih (noEmptyWait_unpark hcurrent batchId)
  have hparked : ∀ (entries : List (Text × PendingBatch)) {current : BlockReplica T},
      NoEmptyWait current →
      NoEmptyWait (entries.foldl (fun current entry => current.park entry.1 entry.2) current) := by
    intro entries
    induction entries with
    | nil => exact fun hcurrent => hcurrent
    | cons entry entries ih => exact fun hcurrent => ih (noEmptyWait_park hcurrent entry.1 entry.2)
  rw [commit, foldl_store]
  exact hparked _ (hunparked _ (fun eventId batchIds => h eventId batchIds))

end Waiting

def applied (replica : BlockReplica T) : List RichTextEventBatch :=
  BOOTSTRAP_BATCH :: replica.integrated

def known (replica : BlockReplica T) : List RichTextEventBatch :=
  replica.applied ++ replica.pendingBatches

structure Settled (replica : BlockReplica T) : Prop where
  consistent : Consistent replica
  causal : replica.state.causal = replica.applied.flatMap (·.eventIds)
  current : ∀ id ∈ replica.state.currentVersion, id ∈ replica.state.causal
  order : CausalOrder (·.parentVersion) RichTextEventBatch.eventIds (fun _ => False) replica.applied
  apart : (replica.known.flatMap (·.eventIds)).Nodup
  awaits : ∀ {key entry}, replica.pending.get? key = some entry →
    entry.missing ∉ replica.state.causal
  waiting : NoEmptyWait replica
  recorded : ∀ {key batch}, replica.batchesById.get? key = some batch ↔
    batch.batchId = key ∧ batch ∈ replica.known

section Known

variable {replica : BlockReplica T}

theorem Settled.named (h : Settled replica) {batch : RichTextEventBatch}
    (hbatch : batch ∈ replica.known) : ∃ id, id ∈ batch.eventIds := by
  cases mem_append.mp hbatch with
  | inr hpending => exact ⟨_, h.consistent.named batch (Or.inr hpending)⟩
  | inl happlied =>
    cases mem_cons.mp happlied with
    | inl heq => exact ⟨BOOTSTRAP_EVENT_ID, heq ▸ mem_cons_self⟩
    | inr hmem => exact ⟨_, h.consistent.named batch (Or.inl hmem)⟩

variable {batches : List RichTextEventBatch}

theorem nodup_of_produced (hsome : ∀ batch ∈ batches, ∃ id, id ∈ batch.eventIds)
    (h : (batches.flatMap (·.eventIds)).Nodup) : batches.Nodup := by
  obtain ⟨-, hapart⟩ := nodup_flatMap.mp h
  apply List.Pairwise.imp_of_mem _ hapart
  intro left right hleft _ hdisjoint heq
  obtain ⟨id, hid⟩ := hsome left hleft
  exact hdisjoint hid (heq ▸ hid)

theorem nodup_ids_of_named (hnamed : ∀ batch ∈ batches, batch.batchId ∈ batch.eventIds)
    (h : (batches.flatMap (·.eventIds)).Nodup) : (batches.map (·.batchId)).Nodup := by
  obtain ⟨-, hapart⟩ := nodup_flatMap.mp h
  rw [List.Nodup, pairwise_map]
  apply List.Pairwise.imp_of_mem _ hapart
  intro left right hleft hright hdisjoint heq
  exact hdisjoint (hnamed left hleft) (heq ▸ hnamed right hright)

theorem producer_unique
    (h : (batches.flatMap (·.eventIds)).Nodup) {left right : RichTextEventBatch} {id : Text}
    (hleft : left ∈ batches) (hright : right ∈ batches) (hid : id ∈ left.eventIds)
    (hother : id ∈ right.eventIds) : left = right := by
  by_contra hne
  obtain ⟨-, hapart⟩ := nodup_flatMap.mp h
  have hdisjoint := List.Pairwise.forall_of_forall_of_flip
    (R := fun left right => left ≠ right → List.Disjoint left.eventIds right.eventIds)
    (fun _ _ hsame => absurd rfl hsame)
    (hapart.imp (by intro _ _ hdisjoint _; exact hdisjoint))
    (hapart.imp (by intro _ _ hdisjoint _; exact hdisjoint.symm))
  exact hdisjoint hleft hright hne hid hother

theorem Settled.available_iff (h : Settled replica) {id : Text} :
    replica.Available id ↔ After RichTextEventBatch.eventIds (fun _ => False) replica.applied id := by
  rw [Available, ReplicaState.hasEvent, decide_eq_true_iff, h.causal, mem_flatMap, After,
    false_or]

theorem Settled.withState (h : Settled replica) {state : ReplicaState T}
    (hsame : ReplicaState.SameHistory replica.state state) : Settled { replica with state } where
  consistent := h.consistent.withState (h.consistent.hasIntegrated.grows hsame.grows)
  causal := hsame.causal.trans h.causal
  current id hid := by
    rw [hsame.currentVersion] at hid
    rw [hsame.causal]
    exact h.current id hid
  order := h.order
  apart := h.apart
  awaits hget := by
    rw [hsame.causal]
    exact h.awaits hget
  waiting := h.waiting
  recorded := h.recorded

end Known

section Commit

variable {replica : BlockReplica T} {fresh own stored : List RichTextEventBatch}
  {plan : IntegrationPlan} {context last : ReplicaState T} {fuel : Nat}

abbrev committed (replica : BlockReplica T) (own stored : List RichTextEventBatch)
    (plan : IntegrationPlan) (last : ReplicaState T) : BlockReplica T :=
  ({ replica with state := last } : BlockReplica T).commit stored (own ++ plan.ready) plan

/-- The batches `own` are integrated, and a plan for the `fresh` ones is carried out after them. -/
structure Committing (replica : BlockReplica T) (fresh own stored : List RichTextEventBatch)
    (plan : IntegrationPlan) (context last : ReplicaState T) : Prop where
  adds : ReplicaState.Extends replica.state context (own.flatMap (·.eventIds))
  index : ParkedIndex { replica with state := context }
  plans : ∃ fuel, planIntegration fuel { replica with state := context } fresh
    (own.flatMap (·.eventIds)) = .ok plan
  integrates : ReplicaState.Extends context last (plan.ready.flatMap (·.eventIds))
  consistent : Consistent { replica with state := last }
  input : CommitInput { replica with state := last } fresh stored (own ++ plan.ready) plan
  mem_stored : ∀ batch, batch ∈ stored ↔ batch ∈ fresh ∨ batch ∈ own
  order : CausalOrder (·.parentVersion) RichTextEventBatch.eventIds replica.Available own
  apart : ((replica.applied ++ own).flatMap (·.eventIds) ++
    (held replica fresh).flatMap (·.eventIds)).Nodup
  unknown : ∀ batch ∈ stored, replica.batchesById.get? batch.batchId = none
  distinct : (stored.map (·.batchId)).Nodup

theorem state_committed : (replica.committed own stored plan last).state = last :=
  sameRecords_commit.state

theorem applied_committed :
    (replica.committed own stored plan last).applied = replica.applied ++ (own ++ plan.ready) := by
  rw [applied, applied, sameRecords_commit.integrated, cons_append]

namespace Committing

section

variable (h : Settled replica)
variable (hcommit : Committing replica fresh own stored plan context last)
include h hcommit

theorem planInput :
    PlanInput { replica with state := context } fresh (own.flatMap (·.eventIds)) where
  index := hcommit.index
  available id hid := by
    refine decide_eq_true ?_
    change id ∈ context.causal
    rw [hcommit.adds.causal]
    exact mem_append_right _ hid
  ids := by
    refine nodup_ids_of_named ?_ (nodup_append.mp hcommit.apart).2.1
    intro batch hbatch
    cases mem_append.mp hbatch with
    | inl hfresh => exact hcommit.input.named batch ((hcommit.mem_stored batch).mpr (Or.inl hfresh))
    | inr hpending => exact h.consistent.named batch (Or.inr hpending)
  produced := by
    have hapart := hcommit.apart
    rw [flatMap_append, append_assoc] at hapart
    exact (nodup_append.mp hapart).2.1

theorem spec :
    PlanSpec { replica with state := context } fresh (own.flatMap (·.eventIds)) plan := by
  obtain ⟨fuel, hplan⟩ := hcommit.plans
  exact planIntegration_spec (hcommit.planInput h) hplan

theorem pending_of_ready {key : Text} {entry : PendingBatch}
    (hget : (replica.committed own stored plan last).pending.get? key = some entry) : entry.batch ∉ plan.ready := by
  intro hready
  rw [get?_pending_commit] at hget
  cases hparked : plan.parked.get? key with
  | some later =>
    rw [hparked, Option.some_or] at hget
    cases hget
    exact ((hcommit.spec h).parked hparked).2.2.1 hready
  | none =>
    rw [hparked, Option.none_or] at hget
    split at hget
    · cases hget
    · next hnot =>
        apply hnot
        rw [← hcommit.index.keyed hget]
        exact mem_map_of_mem hready

variable {batch : RichTextEventBatch}

theorem mem_held :
    batch ∈ plan.ready ++ (replica.committed own stored plan last).pendingBatches ↔ batch ∈ held replica fresh := by
  have hspec := hcommit.spec h
  have hindex := hcommit.input.index hcommit.consistent.index
  have hparked : ∀ {other : RichTextEventBatch} {entry : PendingBatch},
      other ∈ held replica fresh → plan.parked.get? other.batchId = some entry →
      other ∈ (replica.committed own stored plan last).pendingBatches := by
    intro other entry hother hget
    obtain ⟨hid, hheld, -⟩ := hspec.parked hget
    have heq := (hcommit.planInput h).eq_of_id hheld hother hid
    exact (mem_pendingBatches hindex).mpr ⟨entry, get?_pending_parked hget, heq⟩
  constructor
  · intro hmem
    cases mem_append.mp hmem with
    | inl hready => exact hspec.held batch hready
    | inr hpending => exact hcommit.input.pendingBatches_after hcommit.consistent.index hpending
  · intro hmem
    rw [mem_append]
    cases mem_append.mp hmem with
    | inl hfresh =>
      cases hspec.staged batch hfresh with
      | inl hready => exact Or.inl hready
      | inr hhas =>
        obtain ⟨entry, hentry⟩ := InsertionMap.has_iff.mp hhas
        exact Or.inr (hparked hmem hentry)
    | inr hpending =>
      obtain ⟨entry, hentry, hbatch⟩ := (mem_pendingBatches h.consistent.index).mp hpending
      cases hget : plan.parked.get? batch.batchId with
      | some later => exact Or.inr (hparked hmem hget)
      | none =>
        by_cases hready : batch.batchId ∈ plan.ready.map (·.batchId)
        · obtain ⟨other, hother, hid⟩ := mem_map.mp hready
          left
          rw [← (hcommit.planInput h).eq_of_id (hspec.held other hother) hmem hid]
          exact hother
        · right
          refine (mem_pendingBatches hindex).mpr ⟨entry, ?_, hbatch⟩
          rw [get?_pending_commit, hget, Option.none_or, if_neg hready]
          exact hentry

theorem known_iff :
    batch ∈ (replica.committed own stored plan last).known ↔ batch ∈ replica.known ∨ batch ∈ stored := by
  have hheld := @mem_held T replica fresh own stored plan context last h hcommit batch
  rw [known, known, applied, applied, sameRecords_commit.integrated, hcommit.mem_stored]
  rw [mem_append, held, mem_append] at hheld
  simp only [mem_append, mem_cons]
  constructor
  · rintro ((hboot | hbefore | hown | hready) | hpending)
    · exact Or.inl (Or.inl (Or.inl hboot))
    · exact Or.inl (Or.inl (Or.inr hbefore))
    · exact Or.inr (Or.inr hown)
    · exact (hheld.mp (Or.inl hready)).elim (fun hf => Or.inr (Or.inl hf)) fun hp => Or.inl (Or.inr hp)
    · exact (hheld.mp (Or.inr hpending)).elim (fun hf => Or.inr (Or.inl hf)) fun hp => Or.inl (Or.inr hp)
  · rintro (((hboot | hbefore) | hpending) | hfresh | hown)
    · exact Or.inl (Or.inl hboot)
    · exact Or.inl (Or.inr (Or.inl hbefore))
    · exact (hheld.mpr (Or.inr hpending)).elim (fun hr => Or.inl (Or.inr (Or.inr (Or.inr hr)))) Or.inr
    · exact (hheld.mpr (Or.inl hfresh)).elim (fun hr => Or.inl (Or.inr (Or.inr (Or.inr hr)))) Or.inr
    · exact Or.inl (Or.inr (Or.inr (Or.inl hown)))

omit h in
theorem causal_eq : last.causal = replica.state.causal ++
      (own.flatMap (·.eventIds) ++ plan.ready.flatMap (·.eventIds)) := by
  rw [hcommit.integrates.causal, hcommit.adds.causal, append_assoc]

theorem causalOrder : CausalOrder (·.parentVersion) RichTextEventBatch.eventIds (fun _ => False)
      (replica.applied ++ (own ++ plan.ready)) := by
  refine causalOrder_append.mpr ⟨h.order, causalOrder_append.mpr ⟨?_, ?_⟩⟩
  · exact hcommit.order.mono fun id hid => h.available_iff.mp hid
  · apply (hcommit.spec h).order.mono
    intro id hid
    have hid : id ∈ context.causal := of_decide_eq_true hid
    rw [hcommit.adds.causal] at hid
    cases mem_append.mp hid with
    | inl hbefore => exact Or.inl (h.available_iff.mp (decide_eq_true hbefore))
    | inr hown => exact Or.inr (mem_flatMap.mp hown)

theorem missing_new {key : Text} {entry : PendingBatch}
    (hget : (replica.committed own stored plan last).pending.get? key = some entry) : entry.missing ∉ last.causal := by
  have hready := hcommit.pending_of_ready h hget
  rw [get?_pending_commit] at hget
  rw [hcommit.causal_eq]
  cases hparked : plan.parked.get? key with
  | some later =>
    rw [hparked, Option.some_or] at hget
    cases hget
    obtain ⟨-, -, -, -, hmissing⟩ := (hcommit.spec h).parked hparked
    intro hmem
    rw [← append_assoc, ← hcommit.adds.causal] at hmem
    cases mem_append.mp hmem with
    | inl hcausal => exact hmissing (Or.inl (decide_eq_true hcausal))
    | inr hnow => exact hmissing (Or.inr (mem_flatMap.mp hnow))
  | none =>
    rw [hparked, Option.none_or] at hget
    split at hget
    · cases hget
    · obtain ⟨fuel, hplan⟩ := hcommit.plans
      have huntouched := planIntegration_untouched (hcommit.planInput h) hplan hget hready hparked
      intro hmem
      cases mem_append.mp hmem with
      | inl hbefore => exact h.awaits hget hbefore
      | inr hnow => exact huntouched hnow

theorem recorded {key : Text} :
    (replica.committed own stored plan last).batchesById.get? key = some batch ↔ batch.batchId = key ∧
        batch ∈ (replica.committed own stored plan last).known := by
  rw [hcommit.known_iff h, sameRecords_commit.batchesById]
  have hkeys : (stored.map fun batch => (batch.batchId, batch)).map Prod.fst =
      stored.map (·.batchId) := map_map
  by_cases hkey : key ∈ stored.map (·.batchId)
  · obtain ⟨added, hadded, rfl⟩ := mem_map.mp hkey
    have hget : (replica.batchesById.setAll
        (stored.map fun batch => (batch.batchId, batch))).get? added.batchId = some added :=
      InsertionMap.get?_setAll_of_mem (hkeys ▸ hcommit.distinct)
        (mem_map.mpr ⟨added, hadded, rfl⟩)
    rw [hget]
    constructor
    · intro hsame
      rw [← Option.some.inj hsame]
      exact ⟨rfl, Or.inr hadded⟩
    · rintro ⟨hid, hbefore | hstored⟩
      · have hrecord := h.recorded.mpr ⟨hid, hbefore⟩
        rw [hcommit.unknown added hadded] at hrecord
        cases hrecord
      · rw [inj_on_of_nodup_map hcommit.distinct hstored hadded hid]
  · rw [InsertionMap.get?_setAll_of_not_mem (hkeys ▸ hkey), h.recorded]
    constructor
    · exact fun hbefore => ⟨hbefore.1, Or.inl hbefore.2⟩
    · rintro ⟨hid, hbefore | hstored⟩
      · exact ⟨hid, hbefore⟩
      · exact absurd (hid ▸ mem_map_of_mem hstored) hkey

theorem nodup_known :
    ((replica.committed own stored plan last).known.flatMap (·.eventIds)).Nodup := by
  have hindex := hcommit.input.index hcommit.consistent.index
  have happlied : (replica.committed own stored plan last).known =
      (replica.applied ++ own) ++ (plan.ready ++ (replica.committed own stored plan last).pendingBatches) := by
    rw [known, applied_committed]
    simp only [append_assoc]
  rw [happlied, flatMap_append]
  refine nodup_produced ?_ (fun batch hbatch => (hcommit.mem_held h).mp hbatch) hcommit.apart
  apply nodup_append.mpr
  refine ⟨(hcommit.spec h).nodup, (nodup_pendingIds hindex).of_map, ?_⟩
  intro left hleft right hright heq
  obtain ⟨entry, hentry, hbatch⟩ := (mem_pendingBatches hindex).mp hright
  apply hcommit.pending_of_ready h hentry
  rw [hbatch, ← heq]
  exact hleft

theorem settled : Settled (replica.committed own stored plan last) where
  consistent := hcommit.consistent.commit hcommit.input
  causal := by
    rw [state_committed, applied_committed, hcommit.causal_eq, h.causal,
      ← flatMap_append, ← flatMap_append]
  current id hid := by
    rw [state_committed] at hid ⊢
    rw [hcommit.causal_eq]
    cases hcommit.integrates.current id hid with
    | inr hready => exact mem_append_right _ (mem_append_right _ hready)
    | inl hcontext =>
      cases hcommit.adds.current id hcontext with
      | inl hbefore => exact mem_append_left _ (h.current id hbefore)
      | inr hown => exact mem_append_right _ (mem_append_left _ hown)
  order := by
    rw [applied_committed]
    exact hcommit.causalOrder h
  apart := hcommit.nodup_known h
  awaits hget := by
    rw [state_committed]
    exact hcommit.missing_new h hget
  waiting := by
    apply noEmptyWait_commit
    exact h.waiting
  recorded := hcommit.recorded h

/-- So does what follows the commit, which only fills the text's caches. -/
theorem settled_after {state : ReplicaState T} (hsame : ReplicaState.SameHistory last state) :
    Settled { replica.committed own stored plan last with state } := by
  apply (hcommit.settled h).withState
  rw [state_committed]
  exact hsame

end

end Committing

end Commit

end Softmaple.BlockModel.BlockReplica
