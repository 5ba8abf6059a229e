import Softmaple.BlockModel.BlockReplica

/-!
What the methods of a replica's state do to the event graph and the causal
index: whether they return or throw, they only add events, and a delivery that
returns has added all of its own. Local edits take the next free sequence
numbers of the replica.
-/
namespace Softmaple.BlockModel.ReplicaState

open StateMethod

variable {T : Type}

structure Grows (first last : ReplicaState T) : Prop where
  eventGraph : ∀ id ∈ first.eventGraph, id ∈ last.eventGraph
  causal : ∀ id ∈ first.causal, id ∈ last.causal

theorem chains_grows : Chains (Grows (T := T)) where
  refl _ := ⟨fun _ h => h, fun _ h => h⟩
  trans h k := ⟨fun id hid => k.eventGraph id (h.eventGraph id hid),
    fun id hid => k.causal id (h.causal id hid)⟩

theorem Grows.refl (state : ReplicaState T) : Grows state state := chains_grows.refl state

variable {first : ReplicaState T}

theorem Grows.trans {second third : ReplicaState T} (h : Grows first second)
    (k : Grows second third) : Grows first third := chains_grows.trans h k

/-- Only the text and the blocks may differ. -/
structure SameHistory (first last : ReplicaState T) : Prop where
  eventGraph : last.eventGraph = first.eventGraph
  currentVersion : last.currentVersion = first.currentVersion
  nextSequenceNumber : last.nextSequenceNumber = first.nextSequenceNumber
  causal : last.causal = first.causal

theorem chains_sameHistory : Chains (SameHistory (T := T)) where
  refl _ := ⟨rfl, rfl, rfl, rfl⟩
  trans h k := ⟨k.eventGraph.trans h.eventGraph, k.currentVersion.trans h.currentVersion,
    k.nextSequenceNumber.trans h.nextSequenceNumber, k.causal.trans h.causal⟩

variable {last : ReplicaState T}

theorem SameHistory.grows (h : SameHistory first last) : Grows first last where
  eventGraph id hid := by rw [h.eventGraph]; exact hid
  causal id hid := by rw [h.causal]; exact hid

theorem liftText_same {α : Type} (method : EStateM ReplicaError T α) :
    Within SameHistory (liftText method) := by
  intro state
  rw [liftText]
  cases method state.text with
  | ok a text => exact ⟨rfl, rfl, rfl, rfl⟩
  | error error text => exact ⟨rfl, rfl, rfl, rfl⟩

theorem liftText_grows {α : Type} (method : EStateM ReplicaError T α) :
    Within Grows (liftText method) := (liftText_same method).mono SameHistory.grows

theorem createBlock_same (eventId : Text) (blockId : BlockId) (source : Option BlockId) :
    Within SameHistory (createBlock (T := T) eventId blockId source) := by
  intro state
  rw [createBlock]
  by_cases hmarker : state.hasBlockMarker blockId = true
  · rw [if_pos hmarker]
    exact ⟨rfl, rfl, rfl, rfl⟩
  · rw [if_neg hmarker]
    by_cases hsource : source.isNone = true
    · simp only [hsource, if_true]
      exact ⟨rfl, rfl, rfl, rfl⟩
    · simp only [hsource]
      cases assertAcyclicLineage (state.blocks.set blockId ⟨eventId, source⟩)
          ((state.blocks.set blockId ⟨eventId, source⟩).entries.length + 1) [] (some blockId) with
      | error error => exact ⟨rfl, rfl, rfl, rfl⟩
      | ok _ => exact ⟨rfl, rfl, rfl, rfl⟩

theorem applyMarker_same (eventId : Text) (effect : RichTextEffect) :
    Within SameHistory (applyMarker (T := T) eventId effect) := by
  cases effect with
  | bootstrap blockId fields => exact createBlock_same eventId blockId none
  | blockCreate blockId source fields => exact createBlock_same eventId blockId source
  | blockDelete blockId | blockJoin blockId =>
    exact Within.ite (Within.throw chains_sameHistory _) (Within.pure chains_sameHistory _)
  | blockSet _ _ | markSet _ _ _ _ _ | textInsert _ _ | textDelete _ =>
    exact Within.pure chains_sameHistory _

structure KeepsGraph (first last : ReplicaState T) : Prop where
  eventGraph : last.eventGraph = first.eventGraph
  currentVersion : last.currentVersion = first.currentVersion
  nextSequenceNumber : last.nextSequenceNumber = first.nextSequenceNumber
  causal : ∀ id ∈ first.causal, id ∈ last.causal

theorem chains_keepsGraph : Chains (KeepsGraph (T := T)) where
  refl _ := ⟨rfl, rfl, rfl, fun _ h => h⟩
  trans h k := ⟨k.eventGraph.trans h.eventGraph, k.currentVersion.trans h.currentVersion,
    k.nextSequenceNumber.trans h.nextSequenceNumber, fun id hid => k.causal id (h.causal id hid)⟩

theorem SameHistory.keepsGraph (h : SameHistory first last) : KeepsGraph first last :=
  ⟨h.eventGraph, h.currentVersion, h.nextSequenceNumber,
    fun id hid => by rw [h.causal]; exact hid⟩

theorem KeepsGraph.grows (h : KeepsGraph first last) : Grows first last :=
  ⟨fun id hid => by rw [h.eventGraph]; exact hid, h.causal⟩

theorem addCausal_keepsGraph (eventId : Text) (parents : List Text) :
    Within KeepsGraph (addCausal (T := T) eventId parents) := by
  intro state
  rw [addCausal]
  by_cases hmem : eventId ∈ state.causal
  · rw [if_pos hmem]
    exact chains_keepsGraph.refl state
  · rw [if_neg hmem]
    cases parents.find? fun parent => decide (parent ∉ state.causal) with
    | some parent => exact chains_keepsGraph.refl state
    | none => exact ⟨rfl, rfl, rfl, fun id hid => List.mem_append_left _ hid⟩

variable (engine : TextEngine T)

theorem applyEffect_keepsGraph (eventId : Text) (effect : RichTextEffect) :
    Within KeepsGraph (applyEffect engine eventId effect) :=
  Within.bind chains_keepsGraph ((applyMarker_same eventId effect).mono SameHistory.keepsGraph)
    fun _ => (liftText_same _).mono SameHistory.keepsGraph

theorem integrateEvent_keepsGraph (event : RichTextEvent) :
    Within KeepsGraph (integrateEvent engine event) :=
  Within.bind chains_keepsGraph (addCausal_keepsGraph _ _) fun _ =>
    Within.bind chains_keepsGraph ((liftText_same _).mono SameHistory.keepsGraph) fun _ =>
      applyEffect_keepsGraph engine _ _

theorem integrateEvent_grows (event : RichTextEvent) : Within Grows (integrateEvent engine event) :=
  (integrateEvent_keepsGraph engine event).mono KeepsGraph.grows

theorem addEvent_grows (eventId : Text) (parents : List Text) (state : ReplicaState T) :
    Grows state (addEvent eventId parents state) :=
  ⟨fun _ hid => List.mem_append_left _ hid, fun _ hid => hid⟩

theorem addRemoteEvent_grows (event : RichTextEvent) :
    Within Grows (addRemoteEvent (T := T) event) := by
  intro state
  rw [addRemoteEvent]
  split
  · exact Grows.refl state
  · exact addEvent_grows _ _ state

theorem integrateOne_grows (event : RichTextEvent) :
    Within Grows (do addRemoteEvent event; integrateEvent engine event) :=
  Within.bind chains_grows (addRemoteEvent_grows event) fun _ => integrateEvent_grows engine event

theorem integrateRemote_grows (events : List RichTextEvent) :
    Within Grows (integrateRemote engine events) :=
  Within.bind chains_grows (liftText_grows _) fun _ =>
    Within.forM chains_grows (integrateOne_grows engine) events

theorem integrateEvents_grows (events : List RichTextEvent) :
    Within Grows (integrateEvents engine events) :=
  Within.ite (Within.forM chains_grows (fun event => integrateRemote_grows engine [event]) events)
    (integrateRemote_grows engine events)

theorem integrateBatches_grows (batches : List RichTextEventBatch) :
    Within Grows (integrateBatches engine batches) :=
  Within.bind chains_grows (integrateEvents_grows engine _) fun _ => liftText_grows _

variable {engine}

theorem addCausal_mem {eventId : Text} {parents : List Text}
    (h : addCausal eventId parents first = .ok ⟨⟩ last) : eventId ∈ last.causal := by
  rw [addCausal] at h
  split at h
  · cases h
  · cases hfind : parents.find? fun parent => decide (parent ∉ first.causal) with
    | some parent => rw [hfind] at h; cases h
    | none =>
      rw [hfind] at h
      cases h
      simp

theorem integrateOne_mem {event : RichTextEvent}
    (h : (do addRemoteEvent event; integrateEvent engine event) first = .ok ⟨⟩ last) :
    event.id ∈ last.eventGraph ∧ event.id ∈ last.causal := by
  obtain ⟨⟨⟩, added, hadd, h⟩ := bind_eq_ok.mp h
  obtain ⟨⟨⟩, indexed, hindex, h⟩ := bind_eq_ok.mp h
  have hlast : Grows indexed last :=
    (Within.bind chains_grows (liftText_grows (engine.integrateRaw event)) fun _ =>
      (applyEffect_keepsGraph engine event.id event.effect).mono KeepsGraph.grows).of_ok h
  have hindexed : event.id ∈ indexed.causal := addCausal_mem hindex
  have hgrows : Grows added indexed := ((addCausal_keepsGraph _ _).of_ok hindex).grows
  refine ⟨hlast.eventGraph _ (hgrows.eventGraph _ ?_), hlast.causal _ hindexed⟩
  rw [addRemoteEvent] at hadd
  split at hadd
  · cases hadd
  · cases hadd
    simp [addEvent]

theorem integrateRemote_mem {events : List RichTextEvent}
    (h : integrateRemote engine events first = .ok ⟨⟩ last) :
    ∀ event ∈ events, event.id ∈ last.eventGraph ∧ event.id ∈ last.causal := by
  obtain ⟨⟨⟩, applied, -, hloop⟩ := bind_eq_ok.mp h
  intro event hevent
  obtain ⟨before, after, hone, hrest⟩ :=
    forM_eq_ok chains_grows (integrateOne_grows engine) hloop hevent
  obtain ⟨hgraph, hcausal⟩ := integrateOne_mem hone
  exact ⟨hrest.eventGraph _ hgraph, hrest.causal _ hcausal⟩

theorem integrateBatches_mem {batches : List RichTextEventBatch}
    (h : integrateBatches engine batches first = .ok ⟨⟩ last) :
    ∀ batch ∈ batches, ∀ id ∈ batch.eventIds, id ∈ last.eventGraph ∧ id ∈ last.causal := by
  obtain ⟨⟨⟩, integrated, hevents, hsettle⟩ := bind_eq_ok.mp h
  have hlast := (liftText_grows engine.settle).of_ok hsettle
  have hall : ∀ event ∈ batches.flatMap (·.events),
      event.id ∈ integrated.eventGraph ∧ event.id ∈ integrated.causal := by
    rw [integrateEvents] at hevents
    split at hevents
    · intro event hevent
      obtain ⟨before, after, hone, hrest⟩ := forM_eq_ok chains_grows
        (fun event => integrateRemote_grows engine [event]) hevents hevent
      obtain ⟨hgraph, hcausal⟩ := integrateRemote_mem hone event (List.mem_singleton_self event)
      exact ⟨hrest.eventGraph _ hgraph, hrest.causal _ hcausal⟩
    · exact integrateRemote_mem hevents
  intro batch hbatch id hid
  obtain ⟨event, hevent, rfl⟩ := List.mem_map.mp hid
  obtain ⟨hgraph, hcausal⟩ := hall event (List.mem_flatMap.mpr ⟨batch, hbatch, hevent⟩)
  exact ⟨hlast.eventGraph _ hgraph, hlast.causal _ hcausal⟩

theorem create_mem {state : ReplicaState T} (h : create engine = .ok state) :
    BOOTSTRAP_EVENT_ID ∈ state.eventGraph := by
  rw [create] at h
  cases hresult : integrateBatches engine [BOOTSTRAP_BATCH] (blank engine) with
  | error error last => rw [hresult] at h; cases h
  | ok _ last =>
    rw [hresult] at h
    cases h
    exact (integrateBatches_mem hresult BOOTSTRAP_BATCH List.mem_cons_self _ List.mem_cons_self).1

section Edits

theorem freeSequence_spec {replicaId : Text} {eventGraph : List Text} {fuel start sequence : Nat}
    (h : freeSequence replicaId eventGraph fuel start = some sequence) :
    start ≤ sequence ∧ sequence ≤ maxSafeInteger ∧
      Codec.formatEventId replicaId sequence ∉ eventGraph ∧
      ∀ n, start ≤ n → n < sequence → Codec.formatEventId replicaId n ∈ eventGraph := by
  induction fuel generalizing start with
  | zero => cases h
  | succ fuel ih =>
    rw [freeSequence] at h
    by_cases hsafe : maxSafeInteger < start
    · rw [if_pos hsafe] at h
      cases h
    · rw [if_neg hsafe] at h
      by_cases hmem : Codec.formatEventId replicaId start ∈ eventGraph
      · rw [if_pos hmem] at h
        obtain ⟨hstart, hmax, hfree, hused⟩ := ih h
        refine ⟨by omega, hmax, hfree, ?_⟩
        intro n hn hlt
        by_cases heq : n = start
        · rw [heq]
          exact hmem
        · exact hused n (by omega) hlt
      · rw [if_neg hmem] at h
        cases h
        exact ⟨le_refl _, by omega, hmem, fun n hn hlt => absurd hlt (by omega)⟩

structure Edited (replicaId : Text) (first last : ReplicaState T) (eventId : Text)
    (sequence : Nat) : Prop where
  eventId_eq : eventId = Codec.formatEventId replicaId sequence
  start : first.nextSequenceNumber ≤ sequence
  safe : sequence ≤ maxSafeInteger
  free : Codec.formatEventId replicaId sequence ∉ first.eventGraph
  used : ∀ n, first.nextSequenceNumber ≤ n → n < sequence →
    Codec.formatEventId replicaId n ∈ first.eventGraph
  eventGraph : last.eventGraph = first.eventGraph ++ [eventId]
  nextSequenceNumber : last.nextSequenceNumber = min (sequence + 1) maxSafeInteger

theorem generateEventId_grows (replicaId : Text) :
    Within Grows (generateEventId (T := T) replicaId) := by
  intro state
  rw [generateEventId]
  cases freeSequence replicaId state.eventGraph (state.eventGraph.length + 1)
      state.nextSequenceNumber with
  | none => exact Grows.refl state
  | some sequence => exact ⟨fun _ h => h, fun _ h => h⟩

variable (engine)

theorem appendLocal_grows (replicaId : Text) (timestamp : Int)
    (operation : SerializedTextOperation) :
    Within Grows (appendLocal engine replicaId timestamp operation) := by
  apply Within.bind chains_grows (generateEventId_grows replicaId)
  intro id state
  apply (addEvent_grows id state.currentVersion state).trans
  change Grows _ (finalState ((liftText (engine.advanceWithEvent _) >>= fun _ => pure _)
    (addEvent id state.currentVersion state)))
  exact Within.bind chains_grows (liftText_grows _) (fun _ => Within.pure chains_grows _) _

theorem applyLocalOperation_grows (replicaId : Text) (timestamp : Int)
    (operation : SerializedTextOperation) :
    Within Grows (applyLocalOperation engine replicaId timestamp operation) := by
  apply Within.bind chains_grows (Within.get chains_grows)
  intro state
  apply Within.bind chains_grows (Within.ofExcept chains_grows _)
  intro valid
  apply Within.ite
  · exact Within.bind chains_grows (appendLocal_grows engine replicaId timestamp operation)
      fun _ => Within.pure chains_grows _
  · exact Within.pure chains_grows _

theorem integrateLocal_keepsGraph
    (effectFor : ReplicaState T → GraphEvent → Except ReplicaError RichTextEffect)
    (graphEvent : GraphEvent) : Within KeepsGraph (integrateLocal engine effectFor graphEvent) := by
  apply Within.bind chains_keepsGraph (Within.get chains_keepsGraph)
  intro state
  apply Within.bind chains_keepsGraph (Within.ofExcept chains_keepsGraph _)
  intro effect
  apply Within.bind chains_keepsGraph (integrateEvent_keepsGraph engine _)
  intro _
  exact Within.bind chains_keepsGraph ((liftText_same _).mono SameHistory.keepsGraph)
    fun _ => Within.pure chains_keepsGraph _

theorem editText_grows (replicaId : Text) (timestamp : Int) (operation : SerializedTextOperation)
    (effectFor : ReplicaState T → GraphEvent → Except ReplicaError RichTextEffect)
    (rejection : String) :
    Within Grows (editText engine replicaId timestamp operation effectFor rejection) := by
  apply Within.bind chains_grows (applyLocalOperation_grows engine replicaId timestamp operation)
  intro graphEvent
  cases graphEvent with
  | none => exact Within.throw chains_grows _
  | some graphEvent =>
    exact (integrateLocal_keepsGraph engine effectFor graphEvent).mono KeepsGraph.grows

variable {engine}

theorem appendLocal_edited {replicaId : Text} {timestamp : Int}
    {operation : SerializedTextOperation} {first last : ReplicaState T} {event : GraphEvent}
    (h : appendLocal engine replicaId timestamp operation first = .ok event last) :
    ∃ sequence, Edited replicaId first last event.id sequence := by
  obtain ⟨id, named, hname, h⟩ := bind_eq_ok.mp h
  rw [generateEventId] at hname
  cases hfree : freeSequence replicaId first.eventGraph (first.eventGraph.length + 1)
      first.nextSequenceNumber with
  | none => rw [hfree] at hname; cases hname
  | some sequence =>
    rw [hfree] at hname
    obtain ⟨hstart, hsafe, hunused, hused⟩ := freeSequence_spec hfree
    cases hname
    refine ⟨sequence, ?_⟩
    obtain ⟨found, state, hget, h⟩ := bind_eq_ok.mp h
    cases hget
    obtain ⟨⟨⟩, added, hset, h⟩ := bind_eq_ok.mp h
    cases hset
    obtain ⟨⟨⟩, advanced, hadvance, h⟩ := bind_eq_ok.mp h
    have hsame := (liftText_same _).of_ok hadvance
    cases h
    exact ⟨rfl, hstart, hsafe, hunused, hused, hsame.eventGraph, hsame.nextSequenceNumber⟩

section

variable {event : RichTextEvent} {operation : SerializedTextOperation} {timestamp : Int} {replicaId : Text} {last first : ReplicaState T} {effectFor : ReplicaState T → GraphEvent → Except ReplicaError RichTextEffect} {rejection : String}
  (h : editText engine replicaId timestamp operation effectFor rejection first = .ok event last)
include h

theorem editText_edited : ∃ sequence, Edited replicaId first last event.id sequence := by
  obtain ⟨result, appended, happend, h⟩ := bind_eq_ok.mp h
  cases result with
  | none => cases h
  | some graphEvent =>
    obtain ⟨found, state, hget, happend⟩ := bind_eq_ok.mp happend
    cases hget
    obtain ⟨valid, state, hvalid, happend⟩ := bind_eq_ok.mp happend
    have hkept := (integrateLocal_keepsGraph engine effectFor graphEvent).of_ok h
    have hid : event.id = graphEvent.id := by
      obtain ⟨found, read, hget, h⟩ := bind_eq_ok.mp h
      obtain ⟨effect, unchanged, heffect, h⟩ := bind_eq_ok.mp h
      obtain ⟨⟨⟩, integrated, -, h⟩ := bind_eq_ok.mp h
      obtain ⟨⟨⟩, settled, -, h⟩ := bind_eq_ok.mp h
      cases h
      rfl
    have hstate : state = first := by
      cases hresult : engine.validateLocalOperation first.text operation with
      | error error => rw [hresult] at hvalid; cases hvalid
      | ok _ => rw [hresult] at hvalid; cases hvalid; rfl
    by_cases hgo : valid = true
    · rw [if_pos hgo] at happend
      obtain ⟨appendedEvent, last', happend, hmap⟩ := bind_eq_ok.mp happend
      cases hmap
      rw [hstate] at happend
      obtain ⟨sequence, hedited⟩ := appendLocal_edited happend
      refine ⟨sequence, ⟨?_, hedited.start, hedited.safe, hedited.free, hedited.used, ?_, ?_⟩⟩
      · rw [hid, hedited.eventId_eq]
      · rw [hkept.eventGraph, hedited.eventGraph, hid]
      · rw [hkept.nextSequenceNumber, hedited.nextSequenceNumber]
    · rw [if_neg hgo] at happend
      cases happend

theorem editText_indexed : event.id ∈ last.causal := by
  obtain ⟨result, appended, -, h⟩ := bind_eq_ok.mp h
  cases result with
  | none => cases h
  | some graphEvent =>
    obtain ⟨found, read, hget, h⟩ := bind_eq_ok.mp h
    obtain ⟨effect, unchanged, heffect, h⟩ := bind_eq_ok.mp h
    obtain ⟨⟨⟩, integrated, hintegrate, h⟩ := bind_eq_ok.mp h
    obtain ⟨⟨⟩, settled, hsettle, h⟩ := bind_eq_ok.mp h
    cases h
    obtain ⟨⟨⟩, indexed, hindex, hrest⟩ := bind_eq_ok.mp hintegrate
    have hrest : Grows indexed integrated :=
      (Within.bind chains_grows (liftText_grows _) fun _ =>
        (applyEffect_keepsGraph engine _ _).mono KeepsGraph.grows).of_ok hrest
    have hsettled : Grows integrated last := (liftText_grows _).of_ok hsettle
    exact (hrest.trans hsettled).causal _ (addCausal_mem hindex)

end

end Edits

end Softmaple.BlockModel.ReplicaState
