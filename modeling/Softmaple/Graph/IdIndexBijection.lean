import Softmaple.Graph.IdIndexSort

/-!
Whole runs of an index of event IDs. Local versions and IDs stay inverse to one another
as long as no step appends an ID that a custom run of the payload holds in canonical
form, and the count stays a safe integer.
-/
namespace Softmaple.Graph

open List

open Codec (JsNumber parseEventId formatEventId)
open PayloadIdRun (WellFormed WellFormedUpTo)
open EventIdRunIndex (EndsUnsafe)

/-- What is done to an index. Its table of agents is shared with others. -/
inductive IndexStep where
  | append (id : Text)
  | appendCanonical (agent sequence : Nat)
  | truncate (count : JsNumber)
  | idAt (offset limit : Nat)
  | localVersionOf (id : Text) (limit : Nat)
  | shareAgents (agents : AgentTable)
  deriving DecidableEq, Repr

namespace IndexStep

def next (index : EventIdRunIndex) : IndexStep → EventIdRunIndex
  | .append id => (index.append id).2
  | .appendCanonical agent sequence => (index.appendCanonical agent sequence).2
  | .truncate count => (index.truncate count).2
  | .idAt offset limit => (index.idAt offset limit).2
  | .localVersionOf id limit => (index.localVersionOf id limit).2
  | .shareAgents agents => { index with agents := agents }

/-- The outcome of appending, and the ID it appends: a canonical one has a known agent and a
safe sequence. -/
inductive Appending (index : EventIdRunIndex) :
    IndexStep → Text → Except EventIdIndexError Nat × EventIdRunIndex → Prop
  | append (id : Text) : Appending index (.append id) id (index.append id)
  | appendCanonical {agent sequence : Nat} {name : Text} :
      index.agents.nameOf agent = some name → sequence ≤ maxSafeInteger →
        Appending index (.appendCanonical agent sequence) (formatEventId name sequence)
          (index.appendCanonical agent sequence)

inductive Allowed (index : EventIdRunIndex) : IndexStep → Prop
  | append {step : IndexStep} {id : Text}
      {outcome : Except EventIdIndexError Nat × EventIdRunIndex} :
      Appending index step id outcome → index.count ≤ maxSafeInteger →
        (∀ run ∈ index.parsedCustomRuns, run.replicaId ≠ id) → Allowed index step
  | truncate (count : JsNumber) : Allowed index (.truncate count)
  | idAt (offset limit : Nat) : Allowed index (.idAt offset limit)
  | localVersionOf (id : Text) (limit : Nat) : Allowed index (.localVersionOf id limit)
  | shareAgents {agents : AgentTable} :
      index.agents.Extends agents → Allowed index (.shareAgents agents)

end IndexStep

namespace EventIdRunIndex

/-- An index is made empty or from a payload that ends no run past the safe sequences. -/
inductive Starts : EventIdRunIndex → Prop
  | new {agents : AgentTable} : agents.Sound → Starts (new agents)
  | fromRuns {agents : AgentTable} {runs : List PayloadIdRun} {expectedCount : JsNumber}
      {index : EventIdRunIndex} : agents.Sound → (∀ run ∈ runs, ¬ EndsUnsafe run) →
        fromRuns runs expectedCount agents = .ok index → Starts index

inductive Runs : EventIdRunIndex → List IndexStep → EventIdRunIndex → Prop
  | nil {index : EventIdRunIndex} : Runs index [] index
  | cons {index final : EventIdRunIndex} {step : IndexStep} {steps : List IndexStep} :
      step.Allowed index → Runs (step.next index) steps final → Runs index (step :: steps) final

/-- The ID of a version and the version of an ID are inverse, and the maximum of a replica
is the greatest sequence among the IDs below the limit. -/
structure PartialBijection (index : EventIdRunIndex) : Prop where
  indexed : ∀ id version, (index.localVersionOf id index.count).1 = some version →
    version < index.count ∧
      ((index.localVersionOf id index.count).2.idAt version index.count).1 = some id
  listed : ∀ version < index.count, ∃ id, (index.idAt version index.count).1 = some id ∧
    ((index.idAt version index.count).2.localVersionOf id index.count).1 = some version
  maximum : ∀ replicaId, ∀ limit ≤ index.count, ∀ maximum,
    index.maximumSequenceBefore replicaId limit = some maximum ↔
      (∃ version < limit, ∃ id, (index.idAt version index.count).1 = some id ∧
        parseEventId id = some (replicaId, maximum)) ∧
      ∀ version < limit, ∀ id, (index.idAt version index.count).1 = some id →
        ∀ sequence, parseEventId id = some (replicaId, sequence) → sequence ≤ maximum

/-- An indexed ID is refused and leaves the index, up to the agents looked up last. A fresh
one gets the version `count`. -/
structure AppendsOnce (index : EventIdRunIndex) (id : Text)
    (outcome : Except EventIdIndexError Nat × EventIdRunIndex) : Prop where
  refused : (index.localVersionOf id index.count).1.isSome →
    outcome.1 = .error (.eventAlreadyExists id) ∧
      outcome.2 = { index with agents := outcome.2.agents } ∧
        outcome.2.agents.names = index.agents.names
  accepted : (index.localVersionOf id index.count).1 = none →
    outcome.1 = .ok index.count ∧ outcome.2.count = index.count + 1 ∧
      (outcome.2.idAt index.count outcome.2.count).1 = some id

/-- Two states of an index answer alike for a view. -/
structure SameView (view : EventIdRunIndexView) (index later : EventIdRunIndex) : Prop where
  count : view.count ≤ later.count
  has : ∀ id, view.has later id = view.has index id
  offsetOf : ∀ id, view.offsetOf later id = view.offsetOf index id
  idAt : ∀ offset, view.idAt later offset = view.idAt index offset
  maximum : ∀ replicaId, view.maximumSequenceForReplica later replicaId =
    view.maximumSequenceForReplica index replicaId

variable {index start final : EventIdRunIndex} {steps : List IndexStep} {id : Text}
  {offset limit : Nat}

theorem Starts.indexed (h : Starts index) : index.Indexed maxSafeInteger := by
  cases h with
  | new hagents => exact indexed_new hagents
  | fromRuns hagents hsafe hok => exact fromRuns_indexed hagents hsafe hok

theorem runBefore_snd (index : EventIdRunIndex) (offset limit : Nat) :
    ∃ hint, (index.runBefore offset limit).2 = { index with offsetRunHint := hint } := by
  unfold runBefore
  split_ifs
  · exact ⟨index.offsetRunHint, rfl⟩
  · exact ⟨index.offsetRunHint, rfl⟩
  · split
    · exact ⟨index.offsetRunHint, rfl⟩
    · split
      · exact ⟨_, rfl⟩
      · split
        · exact ⟨_, rfl⟩
        · exact ⟨index.offsetRunHint, rfl⟩

theorem idAt_snd (index : EventIdRunIndex) (offset limit : Nat) :
    ∃ hint, (index.idAt offset limit).2 = { index with offsetRunHint := hint } := by
  obtain ⟨hint, hlooked⟩ := index.runBefore_snd offset limit
  refine ⟨hint, ?_⟩
  rw [← hlooked, idAt]
  rcases index.runBefore offset limit with ⟨found, looked⟩
  cases found <;> rfl

section

variable (h : index.Indexed maxSafeInteger)
include h

theorem Indexed.anew_hint (hint : Nat) :
    ({ index with offsetRunHint := hint } : EventIdRunIndex).Indexed maxSafeInteger :=
  h.anew h.placed.filed.agents.refl rfl rfl rfl rfl rfl

theorem Indexed.anew_agents {agents : AgentTable} (hextends : index.agents.Extends agents) :
    ({ index with agents := agents } : EventIdRunIndex).Indexed maxSafeInteger :=
  h.anew hextends rfl rfl rfl rfl rfl

theorem Indexed.idAt_fst (hlimit : limit ≤ index.eventCount) :
    (index.idAt offset limit).1 = (index.ids.take limit)[offset]? :=
  (h.idAt_spec (Nat.le_succ _) hlimit).1

theorem Indexed.localVersionOf_fst {version : Nat} :
    (index.localVersionOf id limit).1 = some version ↔ (index.ids.take limit)[version]? = some id :=
  (h.placed.localVersionOf_spec (Nat.le_refl _)).1 version

theorem Indexed.take_ids : index.ids.take index.eventCount = index.ids :=
  take_of_length_le (Nat.le_of_eq h.placed.filed.length_ids)

theorem Indexed.idAt_count : (index.idAt offset index.count).1 = index.ids[offset]? := by
  rw [count, h.idAt_fst (Nat.le_refl _), h.take_ids]

theorem Indexed.localVersionOf_count {version : Nat} :
    (index.localVersionOf id index.count).1 = some version ↔ index.ids[version]? = some id := by
  rw [h.localVersionOf_fst, count, h.take_ids]

theorem Indexed.indexed_iff : (index.localVersionOf id index.count).1.isSome ↔ id ∈ index.ids := by
  rw [Option.isSome_iff_exists, mem_iff_getElem?]
  exact exists_congr fun version => h.localVersionOf_count

theorem Indexed.maximum_iff {replicaId : Text} {maximum : Nat} :
    index.maximumSequenceBefore replicaId limit = some maximum ↔
      (∃ version < limit, ∃ id, (index.idAt version index.count).1 = some id ∧
        parseEventId id = some (replicaId, maximum)) ∧
      ∀ version < limit, ∀ id, (index.idAt version index.count).1 = some id →
        ∀ sequence, parseEventId id = some (replicaId, sequence) → sequence ≤ maximum := by
  have hmem : ∀ id, id ∈ index.ids.take limit ↔
      ∃ version < limit, (index.idAt version index.count).1 = some id := by
    intro id
    rw [mem_iff_getElem?]
    refine exists_congr fun version => ?_
    rw [h.idAt_count, getElem?_take]
    split_ifs with hlt
    · simp [hlt]
    · simp [hlt]
  rw [h.maximumSequenceBefore_spec (Nat.le_refl _), IsMaximumSequence]
  simp only [hmem]
  constructor
  · rintro ⟨⟨id, ⟨version, hlt, hid⟩, hparse⟩, hgreatest⟩
    exact ⟨⟨version, hlt, id, hid, hparse⟩, fun later hlater other hother sequence hsequence =>
      hgreatest other ⟨later, hlater, hother⟩ sequence hsequence⟩
  · rintro ⟨⟨version, hlt, id, hid, hparse⟩, hgreatest⟩
    exact ⟨⟨id, ⟨version, hlt, hid⟩, hparse⟩, fun other ⟨later, hlater, hother⟩ sequence hsequence =>
      hgreatest later hlater other hother sequence hsequence⟩

theorem Indexed.partialBijection : index.PartialBijection := by
  have hlength : index.ids.length = index.count := h.placed.filed.length_ids
  refine ⟨?_, ?_, fun replicaId limit _ maximum => h.maximum_iff⟩
  · intro id version hversion
    have hid := h.localVersionOf_count.mp hversion
    obtain ⟨agents, hextends, hlooked⟩ :=
      (@Placed.localVersionOf_spec _ _ _ index.count id h.placed (Nat.le_refl _)).2
    refine ⟨?_, ?_⟩
    · rw [← hlength]
      exact (List.getElem?_eq_some_iff.mp hid).1
    · rw [hlooked]
      exact (h.anew_agents hextends).idAt_count.trans hid
  · intro version hlt
    obtain ⟨id, hid⟩ : ∃ id, index.ids[version]? = some id :=
      ⟨_, getElem?_eq_getElem (hlength.symm ▸ hlt)⟩
    obtain ⟨hint, hlooked⟩ := index.idAt_snd version index.count
    refine ⟨id, h.idAt_count.trans hid, ?_⟩
    rw [hlooked]
    exact (h.anew_hint hint).localVersionOf_count.mpr hid

theorem Indexed.appends {step : IndexStep}
    {outcome : Except EventIdIndexError Nat × EventIdRunIndex}
    (happending : step.Appending index id outcome) (hcount : index.count ≤ maxSafeInteger)
    (hfresh : ∀ run ∈ index.parsedCustomRuns, run.replicaId ≠ id) :
    index.Appends id outcome ∧ step.next index = outcome.2 := by
  cases happending with
  | append => exact ⟨h.append_spec hcount hfresh, rfl⟩
  | appendCanonical hname hsafe => exact ⟨h.appendCanonical_spec hcount hname hsafe hfresh, rfl⟩

theorem Indexed.appendsOnce
    {outcome : Except EventIdIndexError Nat × EventIdRunIndex} (happends : index.Appends id outcome) :
    index.AppendsOnce id outcome := by
  refine ⟨fun hsome => happends.refused (h.indexed_iff.mp hsome), fun hnone => ?_⟩
  have hnew : id ∉ index.ids := by
    rw [← h.indexed_iff, hnone]
    exact Bool.false_ne_true
  obtain ⟨hok, hids, hcount⟩ := happends.accepted hnew
  refine ⟨hok, hcount, ?_⟩
  rw [happends.indexed.idAt_count, hids, count, ← h.placed.filed.length_ids,
    getElem?_concat_length]

theorem Indexed.step_spec {step : IndexStep} (hstep : step.Allowed index) :
    (step.next index).Indexed maxSafeInteger ∧
      ((∃ more, (step.next index).ids = index.ids ++ more) ∨
        ∃ count kept, step = .truncate count ∧ count.safeNatural? = some kept ∧
          (step.next index).ids = index.ids.take kept) := by
  have hsame : ∀ {other : EventIdRunIndex}, other.runs = index.runs →
      ∃ more, other.ids = index.ids ++ more := fun hruns =>
    ⟨[], by rw [append_nil, ids, ids, hruns]⟩
  cases hstep with
  | append happending hcount hfresh =>
    rename_i id outcome
    obtain ⟨happends, hnext⟩ := h.appends happending hcount hfresh
    rw [hnext]
    refine ⟨happends.indexed, .inl ?_⟩
    by_cases hid : id ∈ index.ids
    · rw [(happends.refused hid).2.1]
      exact hsame rfl
    · exact ⟨[id], (happends.accepted hid).2.1⟩
  | truncate count =>
    cases hkept : count.safeNatural? with
    | none =>
      have hrefused := @truncate_error index count fun kept hsome => by
        rw [hkept] at hsome
        cases hsome
      rw [IndexStep.next, hrefused]
      exact ⟨h, .inl (hsame rfl)⟩
    | some kept =>
      by_cases hle : kept ≤ index.eventCount
      · obtain ⟨next, htruncate, hnext, hids, -⟩ := h.truncate_ok hkept hle
        rw [IndexStep.next, htruncate]
        exact ⟨hnext, .inr ⟨count, kept, rfl, hkept, hids⟩⟩
      · have hrefused := @truncate_error index count fun other hsome => by
          rw [hkept] at hsome
          rw [← Option.some.inj hsome]
          exact not_le.mp hle
        rw [IndexStep.next, hrefused]
        exact ⟨h, .inl (hsame rfl)⟩
  | idAt offset limit =>
    obtain ⟨hint, hlooked⟩ := index.idAt_snd offset limit
    rw [IndexStep.next, hlooked]
    exact ⟨h.anew_hint hint, .inl (hsame rfl)⟩
  | localVersionOf id limit =>
    obtain ⟨agents, hextends, hlooked⟩ :=
      (@Placed.localVersionOf_spec _ _ _ limit id h.placed (Nat.le_refl _)).2
    rw [IndexStep.next, hlooked]
    exact ⟨h.anew_agents hextends, .inl (hsame rfl)⟩
  | shareAgents hextends => exact ⟨h.anew_agents hextends, .inl (hsame rfl)⟩

end

/-- No step of the run truncates below a limit. -/
def KeepsAbove (limit : Nat) (steps : List IndexStep) : Prop :=
  ∀ count kept, .truncate count ∈ steps → count.safeNatural? = some kept → limit ≤ kept

theorem Runs.indexed (hrun : Runs start steps final) (h : start.Indexed maxSafeInteger) :
    final.Indexed maxSafeInteger := by
  induction hrun with
  | nil => exact h
  | cons hstep _ ih => exact ih (h.step_spec hstep).1

theorem Runs.take_ids (hrun : Runs start steps final) (h : start.Indexed maxSafeInteger)
    (hlimit : limit ≤ start.count) (hkeeps : KeepsAbove limit steps) :
    limit ≤ final.count ∧ final.ids.take limit = start.ids.take limit := by
  induction hrun with
  | nil => exact ⟨hlimit, rfl⟩
  | @cons index final step steps hstep _ ih =>
    obtain ⟨hnext, hids⟩ := h.step_spec hstep
    have hlength : index.ids.length = index.count := h.placed.filed.length_ids
    have hnextLength : (step.next index).ids.length = (step.next index).count :=
      hnext.placed.filed.length_ids
    rw [← hlength] at hlimit
    obtain ⟨hle, htake⟩ : limit ≤ (step.next index).count ∧
        (step.next index).ids.take limit = index.ids.take limit := by
      rw [← hnextLength]
      obtain ⟨more, hmore⟩ | ⟨truncated, kept, rfl, hkept, hcut⟩ := hids
      · rw [hmore, length_append, take_append_of_le_length hlimit]
        exact ⟨Nat.le_trans hlimit (Nat.le_add_right _ _), rfl⟩
      · have hkeptLe := hkeeps truncated kept mem_cons_self hkept
        rw [hcut, length_take, take_take, Nat.min_eq_left hkeptLe]
        exact ⟨Nat.le_min.mpr ⟨hkeptLe, hlimit⟩, rfl⟩
    obtain ⟨hfinal, hsame⟩ := ih hnext hle fun truncated kept hmem =>
      hkeeps truncated kept (mem_cons_of_mem _ hmem)
    exact ⟨hfinal, hsame.trans htake⟩

theorem Indexed.sameView (h : start.Indexed maxSafeInteger) (hfinal : final.Indexed maxSafeInteger)
    {view : EventIdRunIndexView} (hlimit : view.count ≤ start.count)
    (hle : view.count ≤ final.count)
    (hids : final.ids.take view.count = start.ids.take view.count) :
    SameView view start final := by
  have hoffset : ∀ id, view.offsetOf final id = view.offsetOf start id := by
    intro id
    apply Option.ext
    intro version
    unfold EventIdRunIndexView.offsetOf
    rw [hfinal.localVersionOf_fst, h.localVersionOf_fst, hids]
  refine ⟨hle, fun id => congrArg Option.isSome (hoffset id), hoffset, fun offset => ?_,
    fun replicaId => ?_⟩
  · unfold EventIdRunIndexView.idAt
    rw [hfinal.idAt_fst hle, h.idAt_fst hlimit, hids]
  · apply Option.ext
    intro maximum
    unfold EventIdRunIndexView.maximumSequenceForReplica
    rw [hfinal.maximumSequenceBefore_spec (Nat.le_refl _),
      h.maximumSequenceBefore_spec (Nat.le_refl _), hids]

theorem wellFormedUpTo_iff {runs : List PayloadIdRun} {expectedCount : JsNumber} :
    WellFormedUpTo maxSafeInteger runs expectedCount ↔
      WellFormedUpTo (maxSafeInteger + 1) runs expectedCount ∧ ¬ ∃ run ∈ runs, EndsUnsafe run := by
  have hinjective : ∀ {first second : Nat}, JsNumber.ofInt first = JsNumber.ofInt second →
      first = second := by
    intro first second heq
    simpa [JsNumber.ofInt] using heq
  constructor
  · rintro ⟨total, payload, hcount, htotal, rfl, htiles, hvalid, hapart⟩
    refine ⟨⟨total, payload, hcount, htotal, rfl, htiles, fun run hrun => ?_, hapart⟩, ?_⟩
    · obtain ⟨hne, hpos, hstart, hsingle, hend⟩ := hvalid run hrun
      exact ⟨hne, hpos, hstart, hsingle, fun hcustom => Nat.le_succ_of_le (hend hcustom)⟩
    · rintro ⟨run, hrun, hcustom, startSequence, length, hstart, hlength, heq⟩
      obtain ⟨original, horiginal, rfl⟩ := mem_map.mp hrun
      have hend := (hvalid original horiginal).sequence hcustom
      rw [hinjective hstart, hinjective hlength] at hend
      omega
  · rintro ⟨⟨total, payload, hcount, htotal, rfl, htiles, hvalid, hapart⟩, hsafe⟩
    refine ⟨total, payload, hcount, htotal, rfl, htiles, fun run hrun => ?_, hapart⟩
    obtain ⟨hne, hpos, hstart, hsingle, hend⟩ := hvalid run hrun
    refine ⟨hne, hpos, hstart, hsingle, fun hcustom => ?_⟩
    have hne : run.startSequence + run.length ≠ maxSafeInteger + 2 := fun heq =>
      hsafe ⟨PayloadIdRun.ofRun run, mem_map_of_mem hrun, hcustom, run.startSequence,
        run.length, rfl, rfl, heq⟩
    have := hend hcustom
    omega

def digitId (value : Nat) : Text := [Utf8.unit 97, Codec.colon, Codec.digit value]

def parsedCustomPayload : List PayloadIdRun :=
  [⟨digitId 5, .ofInt 0, .ofInt 0, .ofInt 1, true⟩]

/-- A payload of the last safe sequence and the one after it. -/
def unsafePayload : List PayloadIdRun :=
  [⟨[Utf8.unit 97], .ofInt maxSafeInteger, .ofInt 0, .ofInt 2, false⟩]

end EventIdRunIndex

end Softmaple.Graph
