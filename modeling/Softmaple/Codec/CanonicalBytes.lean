import Softmaple.Codec.StoredOrder

/-!
The bytes of a graph are those of its events in the encoding order, whatever
order they were added in and however many of them are packed.
-/
namespace Softmaple.Codec

open ReadyTraversal List StoredGraph

theorem eq_of_map_eq {α β : Type} {f : α → β} {values other : List α}
    (hinj : ∀ a ∈ values, ∀ b ∈ other, f a = f b → a = b) (h : values.map f = other.map f) :
    values = other := by
  induction values generalizing other with
  | nil => exact (map_eq_nil_iff.mp h.symm).symm
  | cons value rest ih =>
    cases other with
    | nil => cases h
    | cons first others =>
      rw [map_cons, map_cons] at h
      obtain ⟨hfirst, hrest⟩ := List.cons.inj h
      rw [hinj value mem_cons_self first mem_cons_self hfirst]
      congr 1
      apply ih _ hrest
      intro a ha b hb
      exact hinj a (mem_cons_of_mem _ ha) b (mem_cons_of_mem _ hb)

namespace StoredGraph

variable {Metadata : Type} {platform : Platform Metadata} {graph other : StoredGraph Metadata}

def rankIn (graph other : StoredGraph Metadata) (rank : Nat) : Nat :=
  (other.events.map (·.id)).idxOf (graph.idAt rank)

section Same

variable (h : graph.Valid platform) (hother : other.Valid platform)
  (hsame : graph.events.Perm other.events)

include h hother hsame

theorem count_eq : other.count = graph.count := by
  rw [← length_events h, ← length_events hother, hsame.length_eq]

variable {rank : Nat}

theorem events_rankIn (hrank : rank < graph.count) : graph.rankIn other rank < graph.count ∧
      other.events[graph.rankIn other rank]? = graph.events[rank]? := by
  obtain ⟨event, hcolumns⟩ := exists_columnsAt h hrank
  have hevent : graph.events[rank]? = some event := by
    rw [events_getElem? h hrank, hcolumns.eventAt]
  have hmem := hsame.mem_iff.mp (mem_of_getElem? hevent)
  obtain ⟨position, hposition⟩ := mem_iff_getElem?.mp hmem
  obtain ⟨hlt, hget⟩ := List.getElem?_eq_some_iff.mp hposition
  have hindex : graph.rankIn other rank = position := by
    have hlength : position < (other.events.map (·.id)).length := by rwa [length_map]
    have hid : (other.events.map (·.id))[position] = graph.idAt rank := by
      rw [getElem_map, hget, hcolumns.id]
    rw [rankIn, ← hid]
    exact List.Nodup.idxOf_getElem hother.ids_nodup position hlength
  rw [length_events hother, count_eq h hother hsame] at hlt
  rw [hindex, hevent]
  exact ⟨hlt, hposition⟩

theorem idAt_rankIn (hrank : rank < graph.count) :
    other.idAt (graph.rankIn other rank) = graph.idAt rank := by
  obtain ⟨hlt, hevents⟩ := events_rankIn h hother hsame hrank
  obtain ⟨event, hcolumns⟩ := exists_columnsAt h hrank
  rw [events_getElem? h hrank, hcolumns.eventAt] at hevents
  rw [(columnsAt_of_getElem? hother hevents).2.id, hcolumns.id]

theorem parentRanksAt_rankIn (hrank : rank < graph.count) : other.parentRanksAt (graph.rankIn other rank) =
      (graph.parentRanksAt rank).map (graph.rankIn other) := by
  obtain ⟨hlt, hevents⟩ := events_rankIn h hother hsame hrank
  obtain ⟨event, hcolumns⟩ := exists_columnsAt h hrank
  have hevent : graph.events[rank]? = some event := by
    rw [events_getElem? h hrank, hcolumns.eventAt]
  rw [hevent] at hevents
  have hids := parentVersion_ids hother hevents
  rw [parentVersion_ids h hevent] at hids
  have hparentLt : ∀ parent ∈ graph.parentRanksAt rank, parent < graph.count :=
    fun parent hparent => Nat.lt_trans (hcolumns.earlier parent hparent) hrank
  apply eq_of_map_eq _ (hids.symm.trans _)
  · intro parent hparent source hsource
    obtain ⟨own, hown, rfl⟩ := mem_map.mp hsource
    have hearlier := (columnsAt_of_getElem? hother hevents).2.earlier parent hparent
    rw [← count_eq h hother hsame] at hlt
    apply idAt_injective hother (Nat.lt_trans hearlier hlt)
    rw [count_eq h hother hsame]
    exact (events_rankIn h hother hsame (hparentLt own hown)).1
  · rw [map_map]
    apply map_congr_left
    intro parent hparent
    exact (idAt_rankIn h hother hsame (hparentLt parent hparent)).symm

variable (hregular : graph.RegularIds) (hotherRegular : other.RegularIds)

include hregular hotherRegular

theorem agents_rankIn (hrank : rank < graph.count) :
    other.replicaAt (graph.rankIn other rank) = graph.replicaAt rank ∧
      (graph.replicaAt rank ≠ none →
        other.sequenceAt (graph.rankIn other rank) = graph.sequenceAt rank) := by
  have hlt := (events_rankIn h hother hsame hrank).1
  have hparse := parse_of_idAt h hregular hrank
  have hotherParse := parse_of_idAt hother hotherRegular (count_eq h hother hsame ▸ hlt)
  rw [idAt_rankIn h hother hsame hrank, hparse] at hotherParse
  cases hagent : graph.replicaAt rank with
  | none =>
    rw [hagent, Option.map_none] at hotherParse
    exact ⟨Option.map_eq_none_iff.mp hotherParse.symm, fun hne => absurd rfl hne⟩
  | some agent =>
    rw [hagent, Option.map_some] at hotherParse
    obtain ⟨otherAgent, hotherAgent, heq⟩ := Option.map_eq_some_iff.mp hotherParse.symm
    obtain ⟨hsameAgent, hsequence⟩ := Prod.mk.inj heq
    rw [hotherAgent, hsameAgent]
    exact ⟨rfl, fun _ => hsequence⟩

omit hother hsame hotherRegular in
theorem eventId_injective {second : Nat} (hrank : rank < graph.count)
    (hsecond : second < graph.count)
    (heq : graph.idView.eventId rank = graph.idView.eventId second) : rank = second := by
  apply idAt_injective h hrank hsecond
  have hparse := parse_of_idAt h hregular hrank
  have hsecondParse := parse_of_idAt h hregular hsecond
  rw [EventIdView.eventId, EventIdView.eventId] at heq
  simp only [idView] at heq
  cases hagent : graph.replicaAt rank with
  | none =>
    rw [hagent] at heq
    cases hsecondAgent : graph.replicaAt second with
    | none =>
      rw [hsecondAgent] at heq
      exact EventId.custom.inj heq
    | some agent =>
      rw [hsecondAgent] at heq
      cases heq
  | some agent =>
    rw [hagent] at heq hparse
    cases hsecondAgent : graph.replicaAt second with
    | none =>
      rw [hsecondAgent] at heq
      cases heq
    | some secondAgent =>
      rw [hsecondAgent] at heq hsecondParse
      obtain ⟨hsameAgent, hsequence⟩ := EventId.canonical.inj heq
      rw [(parseEventId_eq_some hparse).1, (parseEventId_eq_some hsecondParse).1, hsameAgent,
        hsequence]

theorem sameEvents : SameEvents graph.count (graph.rankIn other) graph.parentRanksAt
    other.parentRanksAt graph.idView other.idView where
  lt rank hrank := (events_rankIn h hother hsame hrank).1
  injective rank hrank second hsecond heq := by
    apply idAt_injective h hrank hsecond
    rw [← idAt_rankIn h hother hsame hrank, heq, idAt_rankIn h hother hsame hsecond]
  surjective rank hrank := by
    have hotherRank : rank < other.count := by rwa [count_eq h hother hsame]
    have hback := events_rankIn hother h hsame.symm hotherRank
    refine ⟨other.rankIn graph rank, ?_, ?_⟩
    · rw [← count_eq h hother hsame]
      exact hback.1
    · have hlt : other.rankIn graph rank < graph.count := by
        rw [← count_eq h hother hsame]
        exact hback.1
      apply idAt_injective hother _ hotherRank
      · rw [idAt_rankIn h hother hsame hlt, idAt_rankIn hother h hsame.symm hotherRank]
      · rw [count_eq h hother hsame]
        exact (events_rankIn h hother hsame hlt).1
  parents_eq rank hrank := parentRanksAt_rankIn h hother hsame hrank
  agentAt rank hrank := (agents_rankIn h hother hsame hregular hotherRegular hrank).1
  sequenceAt rank hrank := (agents_rankIn h hother hsame hregular hotherRegular hrank).2
  idAt rank hrank := idAt_rankIn h hother hsame hrank
  distinct rank hrank second hsecond := eventId_injective h hregular hrank hsecond

theorem orderedEvents_eq : eventsInOrder other.events other.encodingOrder =
    eventsInOrder graph.events graph.encodingOrder := by
  obtain ⟨hcount, hruns⟩ := replayRuns_hold h
  obtain ⟨hotherCount, hotherRuns⟩ := replayRuns_hold hother
  have hearlier := earlierParents h
  have hotherEarlier := earlierParents hother
  have hmeasures := hruns.eventMeasures_hold (hcount ▸ hearlier)
  have hotherMeasures := hotherRuns.eventMeasures_hold (hotherCount ▸ hotherEarlier)
  have hsameCount := count_eq h hother hsame
  rw [hcount] at hmeasures
  rw [hotherCount, hsameCount] at hotherMeasures
  have horder : other.encodingOrder = graph.encodingOrder.map (graph.rankIn other) := by
    rw [encodingOrder, encodingOrder, hsameCount]
    exact (sameEvents h hother hsame hregular hotherRegular).branchOrder_eq hearlier hmeasures
      hotherMeasures
  rw [horder, eventsInOrder, eventsInOrder, filterMap_map]
  apply filterMap_congr
  intro rank hrank
  have hlt := mem_range.mp ((encodingOrder_spec h).1.mem_iff.mp hrank)
  exact (events_rankIn h hother hsame hlt).2

end Same

section Frontier

variable (h : graph.Valid platform)

include h

theorem ids_eq : graph.events.map (·.id) = (List.range graph.count).map graph.idAt := by
  apply ext_getElem?
  intro rank
  by_cases hrank : rank < graph.count
  · rw [ids_getElem? h hrank, getElem?_map, getElem?_range hrank]
    rfl
  · rw [getElem?_eq_none (by rw [length_map, length_events h]; omega),
      getElem?_eq_none (by rw [length_map, length_range]; omega)]

theorem frontier_perm : (graph.frontier.map graph.idAt).Perm (childless graph.events) := by
  have hchildless : childless graph.events = ((List.range graph.count).filter fun rank =>
      ∀ other < graph.count, rank ∉ graph.parentRanksAt other).map graph.idAt := by
    rw [childless, ids_eq h, filter_map]
    congr 1
    apply filter_congr
    intro rank hrank
    rw [mem_range] at hrank
    rw [Function.comp_apply, decide_eq_decide]
    constructor
    · intro hnot other hother hmem
      apply hnot
      obtain ⟨event, hcolumns⟩ := exists_columnsAt h hother
      have hevent : graph.events[other]? = some event := by
        rw [events_getElem? h hother, hcolumns.eventAt]
      refine ⟨event, mem_of_getElem? hevent, ?_⟩
      rw [parentVersion_ids h hevent]
      exact mem_map_of_mem hmem
    · intro hall hex
      obtain ⟨event, hmem, hparent⟩ := hex
      obtain ⟨other, hevent⟩ := mem_iff_getElem?.mp hmem
      obtain ⟨hother, hcolumns⟩ := columnsAt_of_getElem? h hevent
      rw [parentVersion_ids h hevent] at hparent
      obtain ⟨parent, hin, heq⟩ := mem_map.mp hparent
      have hlt := Nat.lt_trans (hcolumns.earlier parent hin) hother
      apply hall other hother
      rwa [← idAt_injective h hlt hrank heq]
  rw [hchildless]
  exact h.frontier.map _

end Frontier

variable {events : List GraphEvent}

theorem eventsInOrder_perm {order : List Nat}
    (h : order.Perm (List.range events.length)) : (eventsInOrder events order).Perm events := by
  have hall := h.filterMap (events[·]?)
  rwa [filterMap_range_getElem?] at hall

theorem childless_perm {others : List GraphEvent} (h : events.Perm others) :
    (childless events).Perm (childless others) := by
  have hfilter : childless others = (others.map (·.id)).filter fun id =>
      ¬ ∃ event ∈ events, id ∈ event.parentVersion.ids := by
    rw [childless]
    apply filter_congr
    intro id _
    simp only [h.mem_iff]
  rw [hfilter]
  exact (h.map _).filter _

theorem binary_frontier {metadata : Metadata} {frontier : List Text}
    (hnodup : (events.map (·.id)).Nodup) (h : frontier.Perm (childless events)) :
    (encodeTopologicallyOrderedEventsBinary platform events metadata (some frontier)).toOption.map
        (·.binary) =
      (encodeTopologicallyOrderedEventsBinary platform events metadata none).toOption.map
        (·.binary) := by
  rw [encodeTopologicallyOrderedEventsBinary, encodeTopologicallyOrderedEventsBinary]
  by_cases hobject : platform.isObject metadata = true
  swap
  · simp [hobject]
  simp only [hobject, Bool.not_true, Bool.false_eq_true, if_false]
  cases hencode : encodeEvents .empty events with
  | error error => rfl
  | ok state =>
    have hfrontier := (encodedHolds_empty.encodeEvents hencode).frontier_eq
    have hresolves : Succeeds (resolveFrontierOrder (childless events) (some frontier)) := by
      apply resolveFrontierOrder_perm (hnodup.filter _)
      intro order horder
      rwa [← Option.some.inj horder]
    obtain ⟨result, hresolved⟩ := hresolves
    rw [nil_append] at hfrontier
    simp only [hfrontier]
    rw [hresolved, resolveFrontierOrder]
    cases encodeEgw4 platform ⟨state.rows, state.ids, state.overrideCount, state.insertedText,
      metadata⟩ with
    | error error => rfl
    | ok binary => rfl

section Bytes

variable (h : graph.Valid platform) (hregular : graph.RegularIds)

include h hregular

theorem orderedColumns_eq {order : List Nat} (horder : order.Perm (List.range graph.count)) :
    (encodeTopologicalColumnsBinary platform graph.topologicalColumnSource (some order)
        graph.metadata graph.frontier).toOption =
      (encodeTopologicallyOrderedEventsBinary platform (eventsInOrder graph.events order)
        graph.metadata (some (graph.frontier.map graph.idAt))).toOption := by
  apply encodeTopologicalColumnsBinary_eq (presents h hregular)
  · rw [horder.length_eq, length_range]
    rfl
  · exact fun rank hrank => mem_range.mp (horder.mem_iff.mp hrank)
  · intro rank hrank
    exact mem_range.mp (mem_of_mem_filter (h.frontier.mem_iff.mp hrank))

theorem binary_eq : (graph.encodeTopologicalBinary platform).toOption.map (·.binary) =
    (encodeTopologicallyOrderedEventsBinary platform
      (eventsInOrder graph.events graph.encodingOrder) graph.metadata none).toOption.map
      (·.binary) := by
  have hperm := (encodingOrder_spec h).1
  have hevents : (eventsInOrder graph.events graph.encodingOrder).Perm graph.events := by
    apply eventsInOrder_perm
    rwa [length_events h]
  rw [encodeTopologicalBinary_eq h, orderedColumns_eq h hregular hperm]
  apply binary_frontier
  · exact (hevents.map _).nodup_iff.mpr h.ids_nodup
  · exact (frontier_perm h).trans (childless_perm hevents.symm)

end Bytes

/-- Graphs of the same events have the same bytes, and both encoders agree on every order. -/
theorem canonicalBytes (h : graph.Valid platform) (hother : other.Valid platform)
    (hregular : graph.RegularIds) (hotherRegular : other.RegularIds)
    (hsame : graph.events.Perm other.events) (hmetadata : graph.metadata = other.metadata) :
    (graph.encodeTopologicalBinary platform).toOption.map (·.binary) =
        (other.encodeTopologicalBinary platform).toOption.map (·.binary) ∧
      ∀ order : List Nat, order.Perm (List.range graph.count) →
        (encodeTopologicalColumnsBinary platform graph.topologicalColumnSource (some order)
            graph.metadata graph.frontier).toOption =
          (encodeTopologicallyOrderedEventsBinary platform (eventsInOrder graph.events order)
            graph.metadata (some (graph.frontier.map graph.idAt))).toOption := by
  constructor
  · rw [binary_eq h hregular, binary_eq hother hotherRegular,
      orderedEvents_eq h hother hsame hregular hotherRegular, hmetadata]
  · intro order horder
    exact orderedColumns_eq h hregular horder

end StoredGraph

section Concurrent

def rootInsert (id : Text) : TailEvent where
  id := id
  operation := .insert (.ofInt 0) (ascii "a")
  timestamp := .ofInt 0
  parentRanks := []

/-- Two first events of two replicas, in the order they arrived. -/
def concurrentInserts (first second : Text) (agents : List Text) : StoredGraph Unit where
  packed := none
  tail := [rootInsert first, rootInsert second]
  agents := agents
  metadata := ()
  frontier := [0, 1]

theorem valid_concurrentInserts {first second : Text} {agents : List Text}
    (hne : first ≠ second) (hfirst : (parseEventId first).map (·.1) = some (agents.getD 0 []))
    (hsecond : (parseEventId second).map (·.1) = some (agents.getD 1 []))
    (hagents : agents.length = 2) :
    (concurrentInserts first second agents).Valid storedPlatform where
  packed packed hpacked := nomatch hpacked
  ids_nodup := by
    have hids : (concurrentInserts first second agents).events.map (·.id) = [first, second] := rfl
    rw [hids]
    simp [hne]
  parents index event hevent := by
    have hmem := mem_of_getElem? hevent
    have hparents : event.parentRanks = [] := by
      cases mem_cons.mp hmem with
      | inl heq => rw [heq]; rfl
      | inr hrest => rw [mem_singleton.mp hrest]; rfl
    rw [hparents]
    exact ⟨nodup_nil, by simp⟩
  agents rank hrank replicaId hreplica := by
    have hcases : rank = 0 ∨ rank = 1 := by
      have hlt : rank < 2 := hrank
      omega
    cases hcases with
    | inl hzero =>
      rw [hzero] at hreplica
      have hsame := hfirst.symm.trans hreplica
      rw [← Option.some.inj hsame, getD_eq_getElem _ _ (by omega)]
      exact getElem_mem _
    | inr hone =>
      rw [hone] at hreplica
      have hsame := hsecond.symm.trans hreplica
      rw [← Option.some.inj hsame, getD_eq_getElem _ _ (by omega)]
      exact getElem_mem _
  frontier := List.Perm.refl _

theorem regularIds_concurrentInserts {first second : Text} {agents : List Text}
    (hfirst : first ≠ []) (hsecond : second ≠ []) :
    (concurrentInserts first second agents).RegularIds where
  ne_nil event hevent := by
    have hid : event.id ∈ (concurrentInserts first second agents).events.map (·.id) :=
      mem_map_of_mem hevent
    have hids : (concurrentInserts first second agents).events.map (·.id) = [first, second] := rfl
    rw [hids, mem_cons, mem_singleton] at hid
    cases hid with
    | inl heq => rwa [heq]
    | inr heq => rwa [heq]
  sequences packed hpacked := nomatch hpacked

theorem concurrentInserts_canonicalBytes :
    let graph := concurrentInserts (ascii "r:0") (ascii "s:0") [ascii "r", ascii "s"]
    let other := concurrentInserts (ascii "s:0") (ascii "r:0") [ascii "s", ascii "r"]
    (graph.encodeTopologicalBinary storedPlatform).toOption.map (·.binary) =
        (other.encodeTopologicalBinary storedPlatform).toOption.map (·.binary) ∧
      ∀ order : List Nat, order.Perm (List.range graph.count) →
        (encodeTopologicalColumnsBinary storedPlatform graph.topologicalColumnSource (some order)
            graph.metadata graph.frontier).toOption =
          (encodeTopologicallyOrderedEventsBinary storedPlatform (eventsInOrder graph.events order)
            graph.metadata (some (graph.frontier.map graph.idAt))).toOption :=
  canonicalBytes (valid_concurrentInserts (by decide) (by decide) (by decide) rfl)
    (valid_concurrentInserts (by decide) (by decide) (by decide) rfl)
    (regularIds_concurrentInserts (by decide) (by decide))
    (regularIds_concurrentInserts (by decide) (by decide)) (List.Perm.swap _ _ _) rfl

end Concurrent

theorem exists_of_any {α : Type} {result : Except CodecError α} {p : α → Prop} [DecidablePred p]
    (h : result.toOption.any (fun value => decide (p value)) = true) :
    ∃ value, result = .ok value ∧ p value := by
  cases hresult : result with
  | error error =>
    rw [hresult] at h
    cases h
  | ok value =>
    rw [hresult] at h
    exact ⟨value, rfl, of_decide_eq_true h⟩

/-- Three inserts: the last two sequences a replica could have, and one after them. The
second ID is past the safe range, which the decoder does not notice. -/
def lastSequencePayload : List Byte :=
  [4, 69, 71, 87, 52, 3, 2, 1, 114, 1, 115, 0, 5, 255, 255, 255, 255, 255, 255, 255, 15, 2, 2, 0,
    6, 1, 12, 0, 18, 4, 34, 77, 24, 64, 112, 223, 3, 0, 0, 128, 97, 98, 99, 0, 0, 0, 0, 12, 0, 2,
    123, 125, 228, 230, 31, 217].map Utf8.byte

/-- The payload is decoded, and the two encoders write its events differently. -/
theorem lastSequence_bytes : ∃ packed : PackedGraph Unit,
    decodeEgw4GraphSteps storedPlatform lastSequencePayload none = .ok packed ∧
      (packed.events.map (·.id)).Nodup ∧
      (encodeTopologicalColumnsBinary storedPlatform
          (fromPackedBase packed).topologicalColumnSource (some [0, 1, 2]) ()
          (fromPackedBase packed).frontier).toOption.map (·.binary) ≠
        (encodeTopologicallyOrderedEventsBinary storedPlatform
          (eventsInOrder packed.events [0, 1, 2]) () none).toOption.map (·.binary) := by
  apply exists_of_any
  decide +kernel

end Softmaple.Codec

namespace Softmaple.Codec

open ReadyTraversal List StoredGraph

theorem topological_of_splits {seen : List Text} {events : List GraphEvent}
    (h : ∀ before event after, events = before ++ event :: after →
      event.id ∉ seen ++ before.map (·.id) ∧
        ∀ parent ∈ event.parentVersion.ids, parent ∈ seen ++ before.map (·.id)) :
    Topological seen events := by
  induction events generalizing seen with
  | nil => trivial
  | cons event rest ih =>
    obtain ⟨hnew, hparents⟩ := h [] event rest rfl
    rw [map_nil, append_nil] at hnew hparents
    refine ⟨hnew, hparents, ?_⟩
    apply ih
    intro before other after hsplit
    have hlater := h (event :: before) other after (by rw [hsplit]; rfl)
    rwa [map_cons, ← singleton_append, ← append_assoc] at hlater

namespace StoredGraph

variable {Metadata : Type} {platform : Platform Metadata}

theorem topological_eventsInOrder {graph : StoredGraph Metadata} (h : graph.Valid platform)
    {order : List Nat} (hperm : order.Perm (List.range graph.count))
    (hfirst : ParentsFirst graph.parentRanksAt order) :
    Topological [] (eventsInOrder graph.events order) := by
  have hlt : ∀ rank ∈ order, rank < graph.count :=
    fun rank hrank => mem_range.mp (hperm.mem_iff.mp hrank)
  have hnodup : order.Nodup := hperm.nodup_iff.mpr nodup_range
  apply topological_of_splits
  intro before event after hsplit
  rw [eventsInOrder, filterMap_eq_append_iff] at hsplit
  obtain ⟨ranks, others, rfl, hbefore, hothers⟩ := hsplit
  obtain ⟨none, rank, later, rfl, hnone, hevent, -⟩ := filterMap_eq_cons_iff.mp hothers
  have hempty : none = [] := by
    cases none with
    | nil => rfl
    | cons first rest =>
      have hfirstLt := hlt first (by simp)
      have hmissing := hnone first mem_cons_self
      rw [getElem?_eq_none_iff, length_events h] at hmissing
      omega
  rw [hempty, nil_append] at hlt hfirst hnodup
  obtain ⟨hrank, hcolumns⟩ := columnsAt_of_getElem? h hevent
  have hmem : ∀ other < graph.count,
      (graph.idAt other ∈ [] ++ before.map (·.id) ↔ other ∈ ranks) := by
    intro other hother
    rw [nil_append, ← hbefore, mem_map]
    constructor
    · intro hex
      obtain ⟨source, hsource, hid⟩ := hex
      obtain ⟨position, hposition, hget⟩ := mem_filterMap.mp hsource
      obtain ⟨hpositionLt, hat⟩ := columnsAt_of_getElem? h hget
      rw [← hat.id] at hid
      rwa [← idAt_injective h hpositionLt hother hid]
    · intro hin
      obtain ⟨source, hat⟩ := exists_columnsAt h hother
      refine ⟨source, mem_filterMap.mpr ⟨other, hin, ?_⟩, hat.id.symm⟩
      rw [events_getElem? h hother, hat.eventAt]
  constructor
  · rw [← hcolumns.id, hmem rank hrank]
    intro hin
    exact (disjoint_of_nodup_append hnodup) hin mem_cons_self
  · intro parentId hparent
    rw [parentVersion_ids h hevent] at hparent
    obtain ⟨parent, hin, rfl⟩ := mem_map.mp hparent
    rw [hmem parent (Nat.lt_trans (hcolumns.earlier parent hin) hrank)]
    exact hfirst ranks rank later rfl parent hin

end StoredGraph

section Decoded

variable {Metadata : Type} {platform : Platform Metadata} {packed : PackedGraph Metadata}

/-- The canonical ID runs end at a safe sequence. -/
def SafeSequences (packed : PackedGraph Metadata) : Prop :=
  ∀ run ∈ packed.columns.idRuns, run.custom = false →
    run.startSequence + run.length ≤ maxSafeInteger + 1

variable (h : ColumnsRead platform packed.columns) (hbuild : buildGraph packed.columns = .ok packed)
  (hsafe : SafeSequences packed)

include h hsafe

theorem graphColumns_of_read : GraphColumns packed.columns where
  count := h.count
  idRuns run hrun := by
    obtain ⟨strings, hstrings, hruns⟩ := h.idRuns
    have hread := hruns run hrun
    exact ⟨hstrings.ne_nil _ hread.replicaId, hread.length_pos, hread.custom, hsafe run hrun⟩
  tiles := h.tiles
  overrides := h.overrides

include hbuild

theorem nodup_events_of_read : (packed.events.map (·.id)).Nodup := by
  have hcolumns := graphColumns_of_read h hsafe
  obtain ⟨hnodup, heq⟩ := (PackedColumns.buildGraph_eq_ok hcolumns).mp hbuild
  have hids : packed.events.map (·.id) = packed.columns.ids := by
    apply ext_getElem?
    intro offset
    by_cases hlt : offset < packed.columns.count
    · rw [ids_getElem? h hbuild hlt, (buildGraph_fields hbuild).2.1]
      exact EventIdRunIndex.idAt_eq hcolumns.idRuns hcolumns.tiles offset
    · rw [getElem?_eq_none (by rw [length_map, length_events h hbuild]; omega),
        getElem?_eq_none (by rw [PackedColumns.length_ids hcolumns]; omega)]
  rwa [hids]

omit h hbuild hsafe in
theorem fromPackedBase_events : (fromPackedBase packed).events = packed.events := by
  have hcount : (fromPackedBase packed).count = packed.columns.count := rfl
  rw [events, PackedGraph.events, hcount]
  apply filterMap_congr
  intro rank hrank
  exact if_pos (mem_range.mp hrank)

theorem fromPackedBase_frontier : (fromPackedBase packed).frontier =
    (List.range packed.columns.count).filter fun lv =>
      ∀ other < packed.columns.count, lv ∉ explicitParents packed.columns.overrides other := by
  have hcolumns := graphColumns_of_read h hsafe
  obtain ⟨hnodup, heq⟩ := (PackedColumns.buildGraph_eq_ok hcolumns).mp hbuild
  have hfrontier : packed.frontier = packed.columns.graph.frontier :=
    congrArg PackedGraph.frontier heq
  have hindex := (buildGraph_fields hbuild).2.1
  rw [fromPackedBase]
  simp only
  rw [hfrontier, hindex, PackedColumns.graph]
  simp only
  rw [filterMap_filterMap]
  conv_rhs => rw [← filterMap_some (l := List.filter _ _)]
  apply filterMap_congr
  intro lv hlv
  have hlt : lv < packed.columns.ids.length := by
    rw [PackedColumns.length_ids hcolumns]
    exact mem_range.mp (mem_of_mem_filter hlv)
  have hget := getElem?_eq_getElem hlt
  rw [hget, Option.bind_some]
  apply EventIdRunIndex.localVersionOf_of_idAt hcolumns.idRuns hnodup
  exact (EventIdRunIndex.idAt_eq hcolumns.idRuns hcolumns.tiles lv).trans hget

theorem valid_fromPackedBase : (fromPackedBase packed).Valid platform where
  packed base hbase := by
    rw [← Option.some.inj hbase]
    exact ⟨h, hbuild⟩
  ids_nodup := by
    rw [fromPackedBase_events]
    exact nodup_events_of_read h hbuild hsafe
  parents index event hevent := nomatch hevent
  agents rank hrank replicaId hreplica := by
    rw [replicaAt, columnAt_packed rfl hrank, Option.getD_some] at hreplica
    obtain ⟨run, hrun, hagent⟩ := Option.bind_eq_some_iff.mp hreplica
    apply mem_eraseDups.mpr
    exact mem_filterMap.mpr ⟨run, mem_of_find?_eq_some hrun, hagent⟩
  frontier := by
    rw [fromPackedBase_frontier h hbuild hsafe]
    apply List.Perm.of_eq
    apply filter_congr
    intro lv _
    rw [decide_eq_decide]
    apply forall_congr'
    intro other
    apply forall_congr'
    intro hother
    have hparents : (fromPackedBase packed).parentRanksAt other =
        explicitParents packed.columns.overrides other := by
      rw [parentRanksAt, columnAt_packed rfl hother, Option.getD_some,
        (buildGraph_fields hbuild).2.2]
      exact h.overrides.explicit.parentsAt_eq hother
    rw [hparents]

/-- What a decoded graph always is. -/
structure WellFormedGraph (events : List GraphEvent) : Prop where
  nodup : (events.map (·.id)).Nodup
  earlier : ∀ position event, events[position]? = some event →
    event.parentVersion.ids.Nodup ∧ ∀ parent ∈ event.parentVersion.ids,
      parent ∈ (events.take position).map (·.id)
  wellFormed : ∀ event ∈ events, WellFormedEvent event
  timestamp : ∀ event ∈ events, ∃ value, event.timestamp.safeInteger? = some value

theorem wellFormedGraph_of_read : WellFormedGraph packed.events := by
  have hvalid := valid_fromPackedBase h hbuild hsafe
  have hsame : (fromPackedBase packed).events = packed.events :=
    fromPackedBase_events
  have hcount : (fromPackedBase packed).count = packed.columns.count := rfl
  obtain ⟨rows, hrows⟩ := h.exists_rows
  have hmatches := hrows.rowMatches_events h hbuild
  have hrowAt : ∀ event ∈ packed.events, ∃ row, RowMatches event row := by
    intro event hmem
    obtain ⟨offset, hevent⟩ := mem_iff_getElem?.mp hmem
    have hlt := (List.getElem?_eq_some_iff.mp hevent).1
    rw [hmatches.length_eq] at hlt
    exact ⟨_, rowMatches_getElem? hmatches hevent (getElem?_eq_getElem hlt)⟩
  have hearlier : ∀ position event, packed.events[position]? = some event →
      ∀ parent ∈ event.parentVersion.ids, parent ∈ (packed.events.take position).map (·.id) := by
    intro position event hevent parent hparent
    rw [← hsame] at hevent
    obtain ⟨hposition, hcolumns⟩ := columnsAt_of_getElem? hvalid hevent
    rw [StoredGraph.parentVersion_ids hvalid hevent] at hparent
    obtain ⟨rank, hrank, rfl⟩ := mem_map.mp hparent
    have hlt := hcolumns.earlier rank hrank
    have hget := StoredGraph.ids_getElem? hvalid (Nat.lt_trans hlt hposition)
    rw [hsame] at hget
    rw [map_take]
    apply mem_of_getElem? (i := rank)
    rwa [getElem?_take_of_lt hlt]
  refine ⟨nodup_events_of_read h hbuild hsafe, ?_, ?_, ?_⟩
  · exact fun position event hevent => ⟨event.parentVersion.nodup, hearlier position event hevent⟩
  · intro event hmem
    obtain ⟨row, hrow⟩ := hrowAt event hmem
    apply wellFormedEvent_of_span (ids_wellFormed h hbuild event hmem).1 _ hrow.span hrow.wellFormed
    intro hnil
    obtain ⟨position, hevent⟩ := mem_iff_getElem?.mp hmem
    obtain ⟨parent, hparent, hid⟩ := mem_map.mp (hearlier position event hevent [] hnil)
    exact (ids_wellFormed h hbuild parent (mem_of_mem_take hparent)).1 hid
  · intro event hmem
    obtain ⟨row, hrow⟩ := hrowAt event hmem
    exact ⟨row.timestamp, hrow.timestamp⟩

end Decoded

section Reencode

variable {Metadata : Type} {platform : Platform Metadata} {packed : PackedGraph Metadata}

def PackedGraph.orderedEvents (packed : PackedGraph Metadata) : List GraphEvent :=
  eventsInOrder packed.events (fromPackedBase packed).encodingOrder

/-- A decoded graph is well formed, and encoding it again gives it back exactly when its
events, in the encoding order, fit the columns and read back. -/
theorem decoded_reencodes_iff (hframes : LosslessFrames platform)
    (hjson : ∀ text metadata, platform.parse text = some metadata →
      platform.isObject metadata = true → JsonReturns platform metadata metadata)
    {bytes : List Byte} {maxEvents : Option Nat}
    (h : decodeEgw4GraphSteps platform bytes maxEvents = .ok packed) (hsafe : SafeSequences packed) :
    WellFormedGraph packed.events ∧
      ((∃ encoding, (fromPackedBase packed).encodeTopologicalBinary platform =
          .ok encoding ∧
        DecodesTo platform encoding.binary none packed.orderedEvents packed.columns.metadata) ↔
      FitsColumns platform packed.orderedEvents packed.columns.metadata ∧
        ReadsBack packed.orderedEvents) := by
  obtain ⟨hread, hbuild⟩ := decodeEgw4GraphSteps_eq_ok h
  have hwell := wellFormedGraph_of_read hread hbuild hsafe
  refine ⟨hwell, ?_⟩
  have hvalid := valid_fromPackedBase hread hbuild hsafe
  have hsame : (fromPackedBase packed).events = packed.events :=
    fromPackedBase_events
  have hcount : (fromPackedBase packed).count = packed.columns.count := rfl
  have hregular : (fromPackedBase packed).RegularIds := by
    constructor
    · intro event hevent
      rw [hsame] at hevent
      exact (hwell.wellFormed event hevent).id_ne_nil
    · intro base hbase
      rw [← Option.some.inj hbase]
      exact hsafe
  obtain ⟨hperm, hfirst⟩ := encodingOrder_spec hvalid
  have hevents : packed.orderedEvents.Perm packed.events := by
    apply eventsInOrder_perm
    rwa [length_events hread hbuild]
  obtain ⟨hobject, text, -, hparse⟩ := hread.metadata
  have htopological : Topological [] packed.orderedEvents := by
    have hwire := topological_eventsInOrder hvalid hperm hfirst
    rwa [hsame] at hwire
  have hfrontier : ((fromPackedBase packed).frontier.map
      (fromPackedBase packed).idAt).Perm (childless packed.orderedEvents) := by
    have hchildless := frontier_perm hvalid
    rw [hsame] at hchildless
    exact hchildless.trans (childless_perm hevents.symm)
  have hsucceeds : Succeeds ((fromPackedBase packed).encodeTopologicalBinary platform) ↔
      FitsColumns platform packed.orderedEvents packed.columns.metadata := by
    have hcolumns := orderedColumns_eq hvalid hregular hperm
    rw [hsame] at hcolumns
    rw [encodeTopologicalBinary_eq hvalid, succeeds_of_toOption hcolumns]
    apply succeeds_encode_iff _ htopological _ hobject
    · intro order horder
      rw [← Option.some.inj horder]
      exact hfrontier
    · exact fun event hevent => hwell.wellFormed event (hevents.mem_iff.mp hevent)
    · rw [hevents.length_eq, length_events hread hbuild]
      exact hread.count
  have hnodup : (packed.orderedEvents.map (·.id)).Nodup :=
    (hevents.map _).nodup_iff.mpr hwell.nodup
  constructor
  · intro hex
    obtain ⟨encoding, hencode, hdecodes⟩ := hex
    exact ⟨hsucceeds.mp ⟨encoding, hencode⟩, readsBack_of_decodesTo hnodup hdecodes⟩
  · intro hboth
    obtain ⟨encoding, hencode⟩ := hsucceeds.mpr hboth.1
    refine ⟨encoding, hencode, ?_⟩
    rw [encodeTopologicalBinary_eq hvalid] at hencode
    have hencodes := Encodes.columns (presents hvalid hregular) hperm (fun rank hrank =>
      mem_range.mp (mem_of_mem_filter (hvalid.frontier.mem_iff.mp hrank))) hencode
    rw [hsame] at hencodes
    exact (hencodes.decodesTo_iff hframes (hjson text _ hparse hobject) (by simp)).mpr hboth.2

end Reencode

section Payloads

/-- A document of one insert. -/
def firstInsertPayload : List Byte :=
  [4, 69, 71, 87, 52, 1, 1, 1, 114, 0, 2, 0, 3, 1, 4, 0, 16, 4, 34, 77, 24, 64, 112, 223, 1, 0, 0,
    128, 97, 0, 0, 0, 0, 6, 0, 2, 123, 125, 192, 101, 164, 196].map Utf8.byte

theorem firstInsertPayload_reencodes : ∃ packed : PackedGraph Unit,
    decodeEgw4GraphSteps storedPlatform firstInsertPayload none = .ok packed ∧
    WellFormedGraph packed.events ∧
      ((∃ encoding, (fromPackedBase packed).encodeTopologicalBinary storedPlatform =
          .ok encoding ∧
        DecodesTo storedPlatform encoding.binary none packed.orderedEvents
          packed.columns.metadata) ↔
      FitsColumns storedPlatform packed.orderedEvents packed.columns.metadata ∧
        ReadsBack packed.orderedEvents) := by
  have hchecked : (decodeEgw4GraphSteps storedPlatform firstInsertPayload none).toOption.any
      (fun packed => decide (∀ run ∈ packed.columns.idRuns, run.custom = false →
        run.startSequence + run.length ≤ maxSafeInteger + 1)) = true := by
    decide +kernel
  obtain ⟨packed, hdecode, hsafe⟩ := exists_of_any hchecked
  exact ⟨packed, hdecode,
    decoded_reencodes_iff losslessFrames_stored (fun _ _ _ _ => jsonReturns_stored) hdecode hsafe⟩

/-- A document of one delete, of the code unit at the last safe index. -/
def lastIndexDeletePayload : List Byte :=
  [4, 69, 71, 87, 52, 1, 1, 1, 114, 0, 2, 0, 3, 1, 5, 1, 11, 4, 34, 77, 24, 64, 112, 223, 0, 0, 0,
    0, 6, 0, 2, 123, 125, 140, 178, 91, 151].map Utf8.byte

/-- The decoder accepts the delete; the encoder refuses its end. -/
theorem lastIndexDelete_not_reencoded : ∃ packed : PackedGraph Unit,
    decodeEgw4GraphSteps storedPlatform lastIndexDeletePayload none = .ok packed ∧
      ((fromPackedBase packed).encodeTopologicalBinary storedPlatform).toOption =
        none := by
  apply exists_of_any
  decide +kernel

end Payloads

end Softmaple.Codec
