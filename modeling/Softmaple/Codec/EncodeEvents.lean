import Softmaple.Codec.IdRuns

/-!
What the encoder's loop over events leaves: the rows and ID runs of a
topological order of checked events, parents resolved to their positions.
-/
namespace Softmaple.Codec

open List

def isDefaultParents (positions parents : List Text) : Bool :=
  match positions.getLast? with
  | none => parents = []
  | some previous => parents = [previous]

theorem idxOf?_eq_some {list : List Text} {a : Text} (h : a ∈ list) :
    list.idxOf? a = some (list.idxOf a) := by
  cases hindex : list.idxOf? a with
  | none => exact absurd h (idxOf?_eq_none_iff.mp hindex)
  | some index => rw [idxOf_eq_getD_idxOf?, hindex, Option.getD_some]

theorem parentPositions_eq_ok {positions : List Text} {id : Text} {parents : List Text}
    {ranks : List Nat} :
    parentPositions positions id parents = .ok ranks ↔
      (∀ parent ∈ parents, parent ∈ positions) ∧ ranks = parents.map positions.idxOf := by
  induction parents generalizing ranks with
  | nil => simp [parentPositions, eq_comm]
  | cons parent rest ih =>
    rw [parentPositions, forall_mem_cons, map_cons]
    by_cases hmem : parent ∈ positions
    · rw [idxOf?_eq_some hmem]
      simp only
      cases hrest : parentPositions positions id rest with
      | error error =>
        refine iff_of_false (by simp [Except.map]) fun h => ?_
        have := ih.mpr ⟨h.1.2, rfl⟩
        rw [hrest] at this
        cases this
      | ok others =>
        obtain ⟨hall, heq⟩ := ih.mp hrest
        simp only [Except.map, Except.ok.injEq, heq]
        exact ⟨fun h => ⟨⟨hmem, hall⟩, h.symm⟩, fun h => h.2.symm⟩
    · rw [idxOf?_eq_none_iff.mpr hmem]
      exact iff_of_false (by simp) fun h => hmem h.1.1

theorem succeeds_parentPositions {positions : List Text} {id : Text} {parents : List Text} :
    Succeeds (parentPositions positions id parents) ↔ ∀ parent ∈ parents, parent ∈ positions := by
  constructor
  · intro h
    obtain ⟨ranks, h⟩ := h
    exact (parentPositions_eq_ok.mp h).1
  · exact fun h => ⟨_, parentPositions_eq_ok.mpr ⟨h, rfl⟩⟩

def EventEncoderState.push (state : EventEncoderState) (event : GraphEvent)
    (checked : CheckedEvent) (parents : List Nat) : EventEncoderState :=
  let isDefault := isDefaultParents state.positions event.parentVersion.ids
  { positions := state.positions ++ [event.id]
    hasChild := state.hasChild ++ parents
    rows := state.rows ++ [checked.row (if isDefault then none else some parents)]
    insertedText := state.insertedText ++ checked.insertedText
    ids := state.ids.appendId event.id
    overrideCount := state.overrideCount + if isDefault then 0 else 1 }

variable {state : EventEncoderState}

theorem encodeEvent_eq (event : GraphEvent) (hnodup : state.positions.Nodup) :
    encodeEvent state event =
      match assertEvent event state.positions.length with
      | .error error => .error error
      | .ok checked =>
        if event.id ∈ state.positions then .error (.duplicateEventId event.id)
        else
          match parentPositions state.positions event.id event.parentVersion.ids with
          | .error error => .error error
          | .ok parents => .ok (state.push event checked parents) := by
  rw [encodeEvent]
  cases hassert : assertEvent event state.positions.length with
  | error error => rfl
  | ok checked =>
    simp only
    by_cases hduplicate : event.id ∈ state.positions
    · simp only [if_pos hduplicate]
    simp only [if_neg hduplicate]
    cases hlast : state.positions.getLast? with
    | none =>
      have hnil : state.positions = [] := getLast?_eq_none_iff.mp hlast
      rw [if_neg (by simp [hnil])]
      cases hparents : parentPositions state.positions event.id event.parentVersion.ids with
      | error error => rfl
      | ok parents =>
        have hmap := (parentPositions_eq_ok.mp hparents).2
        have hdefault : isDefaultParents state.positions event.parentVersion.ids =
            decide (parents = []) := by
          rw [isDefaultParents, hlast, hmap]
          simp
        simp only [EventEncoderState.push, hdefault]
        by_cases hempty : parents = []
        · simp [hempty, hnil]
        · simp [hempty, hnil]
    | some previous =>
      obtain ⟨before, hbefore⟩ := getLast?_eq_some_iff.mp hlast
      have hne : state.positions.length ≠ 0 := by simp [hbefore]
      by_cases hsingle : event.parentVersion.ids = [previous]
      · rw [if_pos ⟨hne, by simp [hsingle]⟩]
        have hnot : previous ∉ before := by
          rw [hbefore, nodup_append] at hnodup
          exact fun hmem => hnodup.2.2 previous hmem previous (by simp) rfl
        have hindex : state.positions.idxOf previous = state.positions.length - 1 := by
          rw [hbefore, idxOf_append_of_notMem hnot]
          simp
        have hparents : parentPositions state.positions event.id event.parentVersion.ids =
            .ok [state.positions.length - 1] := by
          apply parentPositions_eq_ok.mpr
          rw [hsingle, ← hindex]
          exact ⟨by simp [hbefore], rfl⟩
        have hdefault : isDefaultParents state.positions event.parentVersion.ids = true := by
          rw [isDefaultParents, hlast]
          simp [hsingle]
        rw [hparents]
        simp [EventEncoderState.push, hdefault]
      · rw [if_neg fun h => hsingle (by simpa [eq_comm] using h.2)]
        have hdefault : isDefaultParents state.positions event.parentVersion.ids = false := by
          rw [isDefaultParents, hlast]
          simp [hsingle]
        cases hparents : parentPositions state.positions event.id event.parentVersion.ids with
        | error error => rfl
        | ok parents =>
          simp [EventEncoderState.push, hdefault, Nat.pos_of_ne_zero hne]

def Topological : List Text → List GraphEvent → Prop
  | _, [] => True
  | seen, event :: rest => event.id ∉ seen ∧ (∀ parent ∈ event.parentVersion.ids, parent ∈ seen) ∧
      Topological (seen ++ [event.id]) rest

variable {events : List GraphEvent}

theorem succeeds_encodeEvents (hnodup : state.positions.Nodup) :
    Succeeds (encodeEvents state events) ↔ Topological state.positions events ∧
      ∀ event ∈ events, ∀ offset, Succeeds (assertEvent event offset) := by
  have hoffset : ∀ (event : GraphEvent) (offset other : Nat),
      Succeeds (assertEvent event offset) → Succeeds (assertEvent event other) := by
    intro event offset other h
    unfold assertEvent at h ⊢
    split at h
    · exact absurd h (not_succeeds_error _)
    next hid =>
      rw [if_neg hid]
      exact h
  induction events generalizing state with
  | nil => simp [encodeEvents, Topological, succeeds_ok]
  | cons event rest ih =>
    rw [encodeEvents, encodeEvent_eq event hnodup, Topological, forall_mem_cons]
    cases hassert : assertEvent event state.positions.length with
    | error error =>
      refine iff_of_false (not_succeeds_error error) fun h => ?_
      have := h.2.1 state.positions.length
      rw [hassert] at this
      exact not_succeeds_error error this
    | ok checked =>
      have hchecked : ∀ offset, Succeeds (assertEvent event offset) := fun offset =>
        hoffset event _ offset ⟨checked, hassert⟩
      simp only
      by_cases hduplicate : event.id ∈ state.positions
      · rw [if_pos hduplicate]
        exact iff_of_false (not_succeeds_error _) fun h => h.1.1 hduplicate
      · rw [if_neg hduplicate]
        cases hparents : parentPositions state.positions event.id event.parentVersion.ids with
        | error error =>
          refine iff_of_false (not_succeeds_error _) fun h => ?_
          have hparts : Succeeds
              (parentPositions state.positions event.id event.parentVersion.ids) :=
            succeeds_parentPositions.mpr h.1.2.1
          rw [hparents] at hparts
          exact not_succeeds_error _ hparts
        | ok parents =>
          have hall := (parentPositions_eq_ok.mp hparents).1
          have hpushed : (state.push event checked parents).positions.Nodup :=
            hnodup.append (nodup_singleton _) (by simpa using hduplicate)
          constructor
          · intro h
            obtain ⟨htopological, hrest⟩ := (ih hpushed).mp h
            exact ⟨⟨hduplicate, hall, htopological⟩, hchecked, hrest⟩
          · intro h
            exact (ih hpushed).mpr ⟨h.1.2.2, h.2.2⟩

def Operation.span? : Operation → Option (Nat × Nat)
  | .insert index text => index.safeNatural?.map (·, text.length)
  | .delete index length =>
    match index.safeNatural?, length.safeNatural? with
    | some index, some length => some (index, length)
    | _, _ => none

def Operation.insertedText : Operation → Text
  | .insert _ text => text
  | .delete _ _ => []

def Operation.isInsert : Operation → Bool
  | .insert _ _ => true
  | .delete _ _ => false

def Operation.EndsSafely (operation : Operation) : Prop :=
  ∃ index length, operation.span? = some (index, length) ∧ index + length ≤ maxSafeInteger

variable {checked : CheckedEvent}

theorem checkColumns_eq_ok {id : Text} {timestamp : JsNumber} {operation : Operation}
    :
    checkColumns id timestamp operation = .ok checked ↔
      timestamp.safeInteger? = some checked.timestamp ∧
      operation.span? = some (checked.operationIndex, checked.operationLength) ∧
      checked.operationIndex + checked.operationLength ≤ maxSafeInteger ∧
      Utf8.wellFormed operation.insertedText = true ∧
      checked.isInsert = operation.isInsert ∧ checked.insertedText = operation.insertedText := by
  obtain ⟨isInsert, index, length, text, time⟩ := checked
  rw [checkColumns]
  cases timestamp.safeInteger? with
  | none => simp
  | some safe =>
    cases operation with
    | insert number inserted =>
      simp only [Operation.index, Operation.span?, Operation.insertedText, Operation.isInsert]
      cases number.safeNatural? with
      | none => simp
      | some natural =>
        simp only [Option.map_some]
        by_cases hwell : Utf8.wellFormed inserted = true
        · by_cases hend : natural + inserted.length ≤ maxSafeInteger
          · simp only [hwell, isSafeInteger, hend, decide_true, Bool.not_true,
              Bool.false_eq_true, if_false, Except.ok.injEq, CheckedEvent.mk.injEq,
              Option.some.injEq, Prod.mk.injEq, true_and]
            constructor
            · intro h
              obtain ⟨rfl, rfl, rfl, rfl, rfl⟩ := h
              exact ⟨rfl, ⟨rfl, rfl⟩, hend, rfl, rfl⟩
            · intro h
              obtain ⟨rfl, ⟨rfl, rfl⟩, -, rfl, rfl⟩ := h
              exact ⟨rfl, rfl, rfl, rfl, rfl⟩
          · simp only [hwell, isSafeInteger, hend, decide_false, Bool.not_true, Bool.not_false,
              Bool.false_eq_true, if_false, if_true, reduceCtorEq, Option.some.injEq,
              Prod.mk.injEq, false_iff]
            intro h
            obtain ⟨-, ⟨rfl, rfl⟩, hle, -⟩ := h
            exact hend hle
        · simp only [hwell, Bool.not_false, if_true, reduceCtorEq, Bool.false_eq_true,
            false_and, and_false]
    | delete number count =>
      simp only [Operation.index, Operation.span?, Operation.insertedText, Operation.isInsert]
      cases number.safeNatural? with
      | none => simp
      | some natural =>
        cases count.safeNatural? with
        | none => simp
        | some total =>
          by_cases hend : natural + total ≤ maxSafeInteger
          · simp only [isSafeInteger, hend, decide_true, Bool.not_true, Bool.false_eq_true,
              if_false, Except.ok.injEq, CheckedEvent.mk.injEq, Option.some.injEq,
              Prod.mk.injEq, Utf8.wellFormed, true_and]
            constructor
            · intro h
              obtain ⟨rfl, rfl, rfl, rfl, rfl⟩ := h
              exact ⟨rfl, ⟨rfl, rfl⟩, hend, rfl, rfl⟩
            · intro h
              obtain ⟨rfl, ⟨rfl, rfl⟩, -, rfl, rfl⟩ := h
              exact ⟨rfl, rfl, rfl, rfl, rfl⟩
          · simp only [isSafeInteger, hend, decide_false, Bool.not_false, if_true,
              reduceCtorEq, Option.some.injEq, Prod.mk.injEq, false_iff]
            intro h
            obtain ⟨-, ⟨rfl, rfl⟩, hle, -⟩ := h
            exact hend hle

theorem succeeds_checkColumns {id : Text} {timestamp : JsNumber} {operation : Operation} :
    Succeeds (checkColumns id timestamp operation) ↔
      (∃ value, timestamp.safeInteger? = some value) ∧ operation.EndsSafely ∧
        Utf8.wellFormed operation.insertedText = true := by
  constructor
  · intro h
    obtain ⟨checked, h⟩ := h
    obtain ⟨htime, hspan, hend, hwell, -⟩ := checkColumns_eq_ok.mp h
    exact ⟨⟨_, htime⟩, ⟨_, _, hspan, hend⟩, hwell⟩
  · intro h
    obtain ⟨⟨value, htime⟩, ⟨index, length, hspan, hend⟩, hwell⟩ := h
    exact ⟨⟨operation.isInsert, index, length, operation.insertedText, value⟩,
      checkColumns_eq_ok.mpr ⟨htime, hspan, hend, hwell, rfl, rfl⟩⟩

def RowOf (before : List Text) (event : GraphEvent) (row : Egw4Row) : Prop :=
  ∃ checked, checkColumns event.id event.timestamp event.operation = .ok checked ∧
    (∀ parent ∈ event.parentVersion.ids, parent ∈ before) ∧
    row = checked.row (if isDefaultParents before event.parentVersion.ids then none
      else some (event.parentVersion.ids.map before.idxOf))

/-- What the loop holds after the events `done`. -/
structure EncodedHolds (state : EventEncoderState) (done : List GraphEvent) : Prop where
  positions : state.positions = done.map (·.id)
  nodup : state.positions.Nodup
  ids : IdRunsHold state.ids state.positions
  length_rows : state.rows.length = done.length
  row : ∀ position event row, done[position]? = some event →
    state.rows[position]? = some row → RowOf (state.positions.take position) event row
  overrideCount : state.overrideCount = (parentOverrides 0 state.rows).length
  text : state.insertedText = done.flatMap (·.operation.insertedText)
  hasChild : ∀ position, position ∈ state.hasChild ↔ ∃ event ∈ done,
    ∃ parent ∈ event.parentVersion.ids, state.positions.idxOf parent = position

theorem parentOverrides_append (position : Nat) (rows : List Egw4Row) (row : Egw4Row) :
    parentOverrides position (rows ++ [row]) = parentOverrides position rows ++
      match row.overrideParents with
      | some parents => [(position + rows.length, parents)]
      | none => [] := by
  induction rows generalizing position with
  | nil => simp only [nil_append, parentOverrides]; cases row.overrideParents <;> rfl
  | cons first rest ih =>
    simp only [cons_append, parentOverrides, ih, length_cons]
    have hadd : position + 1 + rest.length = position + (rest.length + 1) := by omega
    rw [hadd]
    cases first.overrideParents with
    | some parents => rfl
    | none => rfl

theorem encodedHolds_empty : EncodedHolds .empty [] where
  positions := rfl
  nodup := nodup_nil
  ids := idRunsHold_empty
  length_rows := rfl
  row := by simp
  overrideCount := rfl
  text := rfl
  hasChild := by simp [EventEncoderState.empty]

variable {done : List GraphEvent}

theorem EncodedHolds.parent_mem
    (h : EncodedHolds state done) {event : GraphEvent} (hevent : event ∈ done) {parent : Text}
    (hparent : parent ∈ event.parentVersion.ids) : parent ∈ state.positions := by
  obtain ⟨index, hget⟩ := mem_iff_getElem?.mp hevent
  have hlt := (List.getElem?_eq_some_iff.mp hget).1
  rw [← h.length_rows] at hlt
  obtain ⟨-, -, hall, -⟩ := h.row index event _ hget (getElem?_eq_getElem hlt)
  exact mem_of_mem_take (hall parent hparent)

theorem EncodedHolds.push (h : EncodedHolds state done) {event : GraphEvent}
    (hchecked : checkColumns event.id event.timestamp event.operation = .ok checked)
    (hid : event.id ≠ []) (hnew : event.id ∉ state.positions)
    (hparents : ∀ parent ∈ event.parentVersion.ids, parent ∈ state.positions) :
    EncodedHolds (state.push event checked (event.parentVersion.ids.map state.positions.idxOf))
      (done ++ [event]) := by
  have hlength : state.positions.length = done.length := by rw [h.positions, length_map]
  have hindex : ∀ parent ∈ state.positions,
      (state.positions ++ [event.id]).idxOf parent = state.positions.idxOf parent :=
    fun parent hmem => idxOf_append_of_mem hmem
  constructor
  · simp [EventEncoderState.push, h.positions]
  · exact h.nodup.append (nodup_singleton _) (by simpa using hnew)
  · exact h.ids.appendId hid
  · simp [EventEncoderState.push, h.length_rows]
  · intro position other row hother hrow
    by_cases hlt : position < done.length
    · rw [getElem?_append_left hlt] at hother
      simp only [EventEncoderState.push] at hrow
      rw [getElem?_append_left (by rw [h.length_rows]; exact hlt)] at hrow
      have hold := h.row position other row hother hrow
      simp only [EventEncoderState.push]
      rwa [take_append_of_le_length (by omega)]
    · have heq : position = done.length := by
        have := (List.getElem?_eq_some_iff.mp hother).1
        rw [length_append, length_singleton] at this
        omega
      subst heq
      rw [getElem?_concat_length] at hother
      cases hother
      simp only [EventEncoderState.push] at hrow ⊢
      rw [← h.length_rows, getElem?_concat_length] at hrow
      cases hrow
      rw [← hlength, take_left]
      exact ⟨checked, hchecked, hparents, rfl⟩
  · simp only [EventEncoderState.push]
    rw [parentOverrides_append, length_append, ← h.overrideCount]
    cases isDefaultParents state.positions event.parentVersion.ids with
    | true => rfl
    | false => rfl
  · simp only [EventEncoderState.push, flatMap_append, flatMap_singleton]
    rw [h.text, (checkColumns_eq_ok.mp hchecked).2.2.2.2.2]
  · intro position
    simp only [EventEncoderState.push, mem_append, h.hasChild, mem_map,
      mem_singleton]
    constructor
    · intro hor
      cases hor with
      | inl hold =>
        obtain ⟨other, hother, parent, hparent, heq⟩ := hold
        have hmem := h.parent_mem hother hparent
        exact ⟨other, .inl hother, parent, hparent, by rw [hindex parent hmem, heq]⟩
      | inr hnewParent =>
        obtain ⟨parent, hparent, heq⟩ := hnewParent
        exact ⟨event, .inr rfl, parent, hparent, by
          rw [hindex parent (hparents parent hparent), heq]⟩
    · intro hex
      obtain ⟨other, hother, parent, hparent, heq⟩ := hex
      cases hother with
      | inl hold =>
        have hmem := h.parent_mem hold hparent
        rw [hindex parent hmem] at heq
        exact .inl ⟨other, hold, parent, hparent, heq⟩
      | inr hnewEvent =>
        rw [hnewEvent] at hparent
        rw [hindex parent (hparents parent hparent)] at heq
        exact .inr ⟨parent, hparent, heq⟩

theorem assertEvent_eq_ok {event : GraphEvent} {offset : Nat}
    (h : assertEvent event offset = .ok checked) :
    event.id ≠ [] ∧ [] ∉ event.parentVersion.ids ∧
      checkColumns event.id event.timestamp event.operation = .ok checked := by
  rw [assertEvent] at h
  split at h
  · cases h
  next hid =>
    split at h
    · cases h
    next hparent => exact ⟨hid, hparent, h⟩

theorem filterMap_zipIdx_childless {α : Type} (idOf : α → Text) {hasChild : List Nat}
    {isParent : α → Prop} [DecidablePred isParent] {items : List α} {start : Nat}
    (h : ∀ position item, items[position]? = some item →
      (start + position ∈ hasChild ↔ isParent item)) :
    ((items.map idOf).zipIdx start).filterMap
        (fun (id, position) => if position ∈ hasChild then none else some id) =
      (items.filter fun item => ¬ isParent item).map idOf := by
  induction items generalizing start with
  | nil => rfl
  | cons item rest ih =>
    have hhead := h 0 item rfl
    have hrest : ∀ position other, rest[position]? = some other →
        (start + 1 + position ∈ hasChild ↔ isParent other) := by
      intro position other hget
      have hnext := h (position + 1) other hget
      rwa [← Nat.add_assoc, Nat.add_right_comm] at hnext
    have htail := ih hrest
    rw [Nat.add_zero] at hhead
    rw [map_cons, zipIdx_cons, filterMap_cons, filter_cons]
    simp only
    rw [htail]
    by_cases hparent : isParent item
    · rw [if_pos (hhead.mpr hparent), if_neg (by simpa using hparent)]
    · rw [if_neg (fun hmem => hparent (hhead.mp hmem)), if_pos (by simpa using hparent),
        map_cons]

/-- The events no other event has as a parent, by ID and in order. -/
def childless (events : List GraphEvent) : List Text :=
  (events.map (·.id)).filter fun id => ¬ ∃ event ∈ events, id ∈ event.parentVersion.ids

theorem EncodedHolds.frontier_eq (h : EncodedHolds state events) : state.frontier = childless events := by
  have hparent : ∀ position id, state.positions[position]? = some id →
      (0 + position ∈ state.hasChild ↔ ∃ event ∈ events, id ∈ event.parentVersion.ids) := by
    intro position id hget
    obtain ⟨hlt, hid⟩ := List.getElem?_eq_some_iff.mp hget
    have hindex : state.positions.idxOf id = position := by
      rw [← hid]
      exact List.Nodup.idxOf_getElem h.nodup position hlt
    rw [Nat.zero_add, h.hasChild]
    constructor
    · intro hex
      obtain ⟨event, hevent, parent, hmem, heq⟩ := hex
      have hsome := getElem?_idxOf (h.parent_mem hevent hmem)
      rw [heq, hget] at hsome
      exact ⟨event, hevent, by rwa [Option.some.inj hsome]⟩
    · intro hex
      obtain ⟨event, hevent, hmem⟩ := hex
      exact ⟨event, hevent, id, hmem, hindex⟩
  have hmap := filterMap_zipIdx_childless (fun id => id) hparent
  rw [map_id', map_id'] at hmap
  rw [EventEncoderState.frontier, hmap, childless, h.positions]

theorem EncodedHolds.encodeEvents {next : EventEncoderState}
    (h : EncodedHolds state done) (hencode : Codec.encodeEvents state events = .ok next) :
    EncodedHolds next (done ++ events) := by
  induction events generalizing state done with
  | nil =>
    cases hencode
    rwa [append_nil]
  | cons event rest ih =>
    rw [Codec.encodeEvents, encodeEvent_eq event h.nodup] at hencode
    cases hassert : assertEvent event state.positions.length with
    | error error =>
      rw [hassert] at hencode
      cases hencode
    | ok checked =>
      rw [hassert] at hencode
      simp only at hencode
      by_cases hduplicate : event.id ∈ state.positions
      · rw [if_pos hduplicate] at hencode
        cases hencode
      rw [if_neg hduplicate] at hencode
      cases hparents : parentPositions state.positions event.id event.parentVersion.ids with
      | error error =>
        rw [hparents] at hencode
        cases hencode
      | ok parents =>
        rw [hparents] at hencode
        obtain ⟨hall, rfl⟩ := parentPositions_eq_ok.mp hparents
        obtain ⟨hid, -, hchecked⟩ := assertEvent_eq_ok hassert
        have hrest := ih (h.push hchecked hid hduplicate hall) hencode
        rwa [append_assoc] at hrest

theorem mem_parentOverrides {n position : Nat} {rows : List Egw4Row} {parents : List Nat}
    (h : (position, parents) ∈ parentOverrides n rows) :
    ∃ k row, position = n + k ∧ rows[k]? = some row ∧ row.overrideParents = some parents := by
  induction rows generalizing n with
  | nil => cases h
  | cons first rest ih =>
    have hlater : (position, parents) ∈ parentOverrides (n + 1) rest →
        ∃ k row, position = n + k ∧ (first :: rest)[k]? = some row ∧
          row.overrideParents = some parents := by
      intro hmem
      obtain ⟨k, row, heq, hget, hrow⟩ := ih hmem
      exact ⟨k + 1, row, by omega, by simpa using hget, hrow⟩
    rw [parentOverrides] at h
    cases hfirst : first.overrideParents with
    | none =>
      rw [hfirst] at h
      exact hlater h
    | some own =>
      rw [hfirst] at h
      cases mem_cons.mp h with
      | inl heq =>
        cases heq
        exact ⟨0, first, rfl, rfl, hfirst⟩
      | inr hmem => exact hlater hmem

theorem length_parentOverrides_le (n : Nat) (rows : List Egw4Row) :
    (parentOverrides n rows).length ≤ rows.length := by
  induction rows generalizing n with
  | nil => exact Nat.le_refl 0
  | cons first rest ih =>
    rw [parentOverrides]
    cases first.overrideParents with
    | none => exact Nat.le_succ_of_le (ih (n + 1))
    | some own => exact Nat.succ_le_succ (ih (n + 1))

theorem succeeds_writeOverrides {overrides : List (Nat × List Nat)} {size : Nat}
    (hsize : size ≤ egw4MaxEvents)
    (h : ∀ override ∈ overrides, override.1 < size ∧ override.2.length ≤ override.1) (next : Nat) :
    ∀ part ∈ writeOverrides next overrides, Succeeds part := by
  have hsmall := small_safe hsize
  induction overrides generalizing next with
  | nil => simp [writeOverrides]
  | cons override rest ih =>
    obtain ⟨position, parents⟩ := override
    obtain ⟨⟨hlt, hlength⟩, hrest⟩ := forall_mem_cons.mp h
    simp only at hlt hlength
    have hmany : egw4ManyParents = 3 := rfl
    simp only [writeOverrides]
    rw [forall_mem_append, forall_mem_append]
    refine ⟨⟨?_, ?_⟩, ih hrest _⟩
    · split
      · exact forall_mem_singleton.mpr (succeeds_writeVarint.mpr (by omega))
      · rw [forall_mem_cons]
        exact ⟨succeeds_writeVarint.mpr (by omega),
          forall_mem_singleton.mpr (succeeds_writeVarint.mpr (by omega))⟩
    · intro part hpart
      obtain ⟨parent, -, rfl⟩ := mem_map.mp hpart
      exact succeeds_writeVarint.mpr (by omega)

section Payload

variable {Metadata : Type} {platform : Platform Metadata}

structure PayloadFits (platform : Platform Metadata) (events : List GraphEvent)
    (metadata : Metadata) : Prop where
  ids : ∀ event ∈ events, (encodeText (idString event.id)).length ≤ maxSafeInteger
  content : (platform.compress
    (encodeText (events.flatMap (·.operation.insertedText)))).length ≤ maxSafeInteger
  metadata : (encodeText (platform.stringify metadata)).length ≤ maxSafeInteger

def Timestamps (events : List GraphEvent) (values : List Int) : Prop :=
  events.map (·.timestamp.safeInteger?) = values.map some

namespace EncodedHolds

variable {state : EventEncoderState} {events : List GraphEvent}

section

variable (h : EncodedHolds state events)
include h

theorem rowAt {position : Nat} {row : Egw4Row} (hrow : state.rows[position]? = some row) :
    ∃ event, events[position]? = some event ∧ RowOf (state.positions.take position) event row := by
  have hlt := (List.getElem?_eq_some_iff.mp hrow).1
  rw [h.length_rows] at hlt
  exact ⟨_, getElem?_eq_getElem hlt,
    h.row position _ row (getElem?_eq_getElem hlt) hrow⟩

theorem rowsSafe : RowsSafe state.rows := by
  intro row hrow
  obtain ⟨position, hget⟩ := mem_iff_getElem?.mp hrow
  obtain ⟨event, -, checked, hchecked, -, rfl⟩ := h.rowAt hget
  exact (checkColumns_eq_ok.mp hchecked).2.2.1

theorem timestamps : Timestamps events (state.rows.map (·.timestamp)) := by
  apply ext_getElem?
  intro position
  simp only [getElem?_map]
  cases hrow : state.rows[position]? with
  | none =>
    have hle := getElem?_eq_none_iff.mp hrow
    rw [h.length_rows] at hle
    rw [getElem?_eq_none hle]
    rfl
  | some row =>
    obtain ⟨event, hevent, checked, hchecked, -, rfl⟩ := h.rowAt hrow
    rw [hevent]
    simp only [Option.map_some, (checkColumns_eq_ok.mp hchecked).1]
    rfl

theorem succeeds_writeParentOverrides (hcount : events.length ≤ egw4MaxEvents) :
    Succeeds (writeParentOverrides state.rows state.overrideCount) := by
  have hoverrides : ∀ override ∈ parentOverrides 0 state.rows,
      override.1 < state.rows.length ∧ override.2.length ≤ override.1 := by
    intro override hmem
    obtain ⟨position, row, hposition, hget, hparents⟩ := mem_parentOverrides hmem
    rw [Nat.zero_add] at hposition
    have hlt := (List.getElem?_eq_some_iff.mp hget).1
    obtain ⟨event, -, checked, -, hall, rfl⟩ := h.rowAt hget
    refine ⟨by omega, ?_⟩
    simp only [CheckedEvent.row] at hparents
    split at hparents
    · cases hparents
    · rw [← Option.some.inj hparents, length_map, hposition]
      have hle := (event.parentVersion.nodup.subperm hall).length_le
      exact Nat.le_trans hle (length_take_le _ _)
  have hsmall := small_safe hcount
  have hle := length_parentOverrides_le 0 state.rows
  rw [h.length_rows] at hle
  have hparts : Succeeds (concat (writeVarint state.overrideCount ::
      writeOverrides 0 (parentOverrides 0 state.rows))) := by
    rw [succeeds_concat, forall_mem_cons]
    refine ⟨succeeds_writeVarint.mpr (by rw [h.overrideCount]; omega), ?_⟩
    exact succeeds_writeOverrides (by rw [h.length_rows]; exact hcount) hoverrides 0
  obtain ⟨bytes, hbytes⟩ := hparts
  refine ⟨bytes, ?_⟩
  simp only [writeParentOverrides, hbytes]
  rw [if_pos h.overrideCount.symm]

theorem succeeds_encodeEgw4 (hcount : events.length ≤ egw4MaxEvents) {metadata : Metadata} :
    Succeeds (encodeEgw4 platform ⟨state.rows, state.ids, state.overrideCount,
      state.insertedText, metadata⟩) ↔
      (∀ delta ∈ deltas 0 (state.rows.map (·.timestamp)), ZigZagRange delta) ∧
        PayloadFits platform events metadata := by
  have hlength : state.positions.length = events.length := by rw [h.positions, length_map]
  have hrows : state.rows.length ≤ egw4MaxEvents := by rw [h.length_rows]; exact hcount
  have hsmall := small_safe hrows
  have hids := h.ids.succeeds_write (by rw [hlength]; exact hcount)
  have hlengths : Succeeds (writeUnsignedRuns (state.rows.map (·.operationLength))) := by
    apply (succeeds_writeUnsignedRuns (by rwa [length_map])).mpr
    intro value hvalue
    obtain ⟨row, hrow, rfl⟩ := mem_map.mp hvalue
    have := h.rowsSafe row hrow
    omega
  have hspans := succeeds_writeOperationSpans h.rowsSafe hrows
  have htimes : (state.rows.map (·.timestamp)).length ≤ egw4MaxEvents := by rwa [length_map]
  have hdeltas := succeeds_writeDeltaSegments htimes
  have hmagic : Succeeds (writeBytes egw4Magic) := succeeds_writeBytes.mpr (by decide)
  have hvarint : Succeeds (writeVarint state.rows.length) := succeeds_writeVarint.mpr (by omega)
  rw [encodeEgw4, if_neg (by simpa using hrows), if_neg (by
    simp [h.ids.events, hlength, h.length_rows]), succeeds_map, succeeds_concat]
  simp only [forall_mem_cons, not_mem_nil, false_implies, implies_true, and_true]
  rw [hids, hdeltas, h.text, h.positions]
  constructor
  · intro hparts
    obtain ⟨-, -, hfits, -, -, -, hcontent, hrange, hmetadata⟩ := hparts
    exact ⟨hrange, fun event hevent => hfits _ (mem_map_of_mem hevent),
      succeeds_writeBytes.mp hcontent, succeeds_writeBytes.mp hmetadata⟩
  · intro hparts
    obtain ⟨hrange, hfits⟩ := hparts
    refine ⟨hmagic, hvarint, ?_, h.succeeds_writeParentOverrides hcount, hlengths, hspans,
      succeeds_writeBytes.mpr hfits.content, hrange, succeeds_writeBytes.mpr hfits.metadata⟩
    intro id hid
    obtain ⟨event, hevent, rfl⟩ := mem_map.mp hid
    exact hfits.ids event hevent

end

end EncodedHolds

end Payload

end Softmaple.Codec

namespace Softmaple.Codec

open List

def Operation.lengthNumber : Operation → JsNumber
  | .insert _ text => .ofInt text.length
  | .delete _ length => length

structure PresentsEvent (source : TopologicalColumnSource) (idAt : Nat → Option Text) (rank : Nat)
    (event : GraphEvent) : Prop where
  id : source.idAt rank = event.id
  agent : ∀ agent, source.useStringIdAt rank = false → source.agentAt rank = some agent →
    parseEventId event.id = some (source.agentName agent, source.sequenceAt rank)
  custom : source.useStringIdAt rank = false → source.agentAt rank = none →
    parseEventId event.id = none
  isInsert : source.isInsertAt rank = event.operation.isInsert
  index : source.operationIndexAt rank = event.operation.index
  length : source.operationLengthAt rank = event.operation.lengthNumber
  text : source.isInsertAt rank = true → source.insertedTextAt rank = event.operation.insertedText
  timestamp : source.timestampAt rank = event.timestamp
  parents : (source.parentRanksAt rank).map idAt = event.parentVersion.ids.map some

/-- A graph's columns, by insertion rank. -/
structure Presents (source : TopologicalColumnSource) (events : List GraphEvent) : Prop where
  count : source.count = events.length
  ids_nodup : (events.map (·.id)).Nodup
  id_ne_nil : ∀ event ∈ events, event.id ≠ []
  event : ∀ rank event, events[rank]? = some event →
    PresentsEvent source (fun rank => events[rank]?.map (·.id)) rank event

variable {source : TopologicalColumnSource} {events : List GraphEvent}

namespace PresentsEvent

variable {idAt : Nat → Option Text} {rank : Nat} {event : GraphEvent}

theorem assertColumnEvent_eq (h : PresentsEvent source idAt rank event) :
    assertColumnEvent source rank =
      checkColumns event.id event.timestamp event.operation := by
  rw [assertColumnEvent, checkColumns, h.timestamp, h.id]
  cases event.timestamp.safeInteger? with
  | none => rfl
  | some time =>
    have hindex := h.index
    have hinsert := h.isInsert
    have hlength := h.length
    have htext := h.text
    simp only
    rw [hindex]
    cases event.operation.index.safeNatural? with
    | none => rfl
    | some index =>
      cases hoperation : event.operation with
      | insert number text =>
        rw [hoperation] at hinsert hlength htext
        have hisInsert : source.isInsertAt rank = true := hinsert
        have hinserted : source.insertedTextAt rank = text := htext hisInsert
        simp only [hisInsert, hinserted, hlength, Operation.lengthNumber,
          safeNatural?_ofInt, Bool.true_and, if_true]
        by_cases hwell : Utf8.wellFormed text = true
        · by_cases hsmall : text.length ≤ maxSafeInteger
          · simp [hwell, hsmall]
          · have hlarge : ¬ index + text.length ≤ maxSafeInteger := by omega
            simp [hwell, hsmall, isSafeInteger, hlarge]
        · simp [hwell]
      | delete number length =>
        rw [hoperation] at hinsert hlength
        have hisInsert : source.isInsertAt rank = false := hinsert
        simp only [hisInsert, hlength, Operation.lengthNumber, Bool.false_and,
          Bool.false_eq_true, if_false]

end PresentsEvent

namespace Presents

theorem id_injective (h : Presents source events) {rank other : Nat}
    (hrank : rank < events.length) (hother : other < events.length)
    (heq : source.idAt rank = source.idAt other) : rank = other := by
  have hleft := (h.event rank _ (getElem?_eq_getElem hrank)).id
  have hright := (h.event other _ (getElem?_eq_getElem hother)).id
  rw [hleft, hright] at heq
  apply (getElem?_inj (by rwa [length_map]) h.ids_nodup).mp
  rw [getElem?_map, getElem?_map, getElem?_eq_getElem hrank,
    getElem?_eq_getElem hother, Option.map_some, Option.map_some, heq]

theorem parentIds (h : Presents source events) {rank : Nat} {event : GraphEvent}
    (hevent : events[rank]? = some event) :
    (source.parentRanksAt rank).map source.idAt = event.parentVersion.ids ∧
      ∀ parent ∈ source.parentRanksAt rank, parent < events.length := by
  have hparents := (h.event rank event hevent).parents
  have hlt : ∀ parent ∈ source.parentRanksAt rank, parent < events.length := by
    intro parent hparent
    have hmem : (events[parent]?.map (·.id)) ∈ event.parentVersion.ids.map some := by
      rw [← hparents]
      exact mem_map_of_mem hparent
    obtain ⟨id, -, hid⟩ := mem_map.mp hmem
    by_contra hge
    rw [getElem?_eq_none (by omega)] at hid
    cases hid
  refine ⟨?_, hlt⟩
  apply map_injective_iff.mpr (Option.some_injective _)
  rw [← hparents, map_map]
  apply map_congr_left
  intro parent hparent
  have hget := getElem?_eq_getElem (hlt parent hparent)
  simp only [Function.comp_apply]
  rw [hget, (h.event parent _ hget).id]
  rfl

end Presents

structure SameState (source : TopologicalColumnSource) (columns : ColumnEncoderState)
    (state : EventEncoderState) : Prop where
  positions : state.positions = columns.ranks.map source.idAt
  rank_lt : ∀ rank ∈ columns.ranks, rank < source.count
  rows : columns.rows = state.rows
  insertedText : columns.insertedText = state.insertedText
  overrideCount : columns.overrideCount = state.overrideCount
  nodup : state.positions.Nodup
  ids : columns.ids.SameRuns state.ids
  agents : AgentsHold source.agentName columns.ids
  idRuns : IdRunsHold columns.ids state.positions
  hasChild : state.hasChild = columns.hasChild.map columns.ranks.idxOf
  child_mem : ∀ rank ∈ columns.hasChild, rank ∈ columns.ranks

theorem sameState_empty : SameState source .empty .empty where
  positions := rfl
  rank_lt := by simp [ColumnEncoderState.empty]
  rows := rfl
  insertedText := rfl
  overrideCount := rfl
  nodup := nodup_nil
  ids := ⟨rfl, rfl, rfl⟩
  agents := by simp [AgentsHold, ColumnEncoderState.empty, Egw4IdRuns.empty]
  idRuns := idRunsHold_empty
  hasChild := rfl
  child_mem := by simp [ColumnEncoderState.empty]

namespace Presents

section

variable (h : Presents source events)
include h

variable {ranks : List Nat}

theorem idxOf_idAt {rank : Nat}
    (hranks : ∀ other ∈ ranks, other < events.length) (hrank : rank < events.length) :
    (ranks.map source.idAt).idxOf (source.idAt rank) = ranks.idxOf rank := by
  induction ranks with
  | nil => rfl
  | cons first rest ih =>
    obtain ⟨hfirst, hrest⟩ := forall_mem_cons.mp hranks
    rw [map_cons, idxOf_cons, idxOf_cons, ih hrest]
    by_cases heq : first = rank
    · rw [heq, beq_self_eq_true, beq_self_eq_true]
    · have hne : source.idAt first ≠ source.idAt rank :=
        fun hsame => heq (h.id_injective hfirst hrank hsame)
      rw [beq_false_of_ne heq, beq_false_of_ne hne]

theorem mem_idAt {rank : Nat}
    (hranks : ∀ other ∈ ranks, other < events.length) (hrank : rank < events.length) :
    source.idAt rank ∈ ranks.map source.idAt ↔ rank ∈ ranks := by
  constructor
  · intro hmem
    obtain ⟨other, hother, heq⟩ := mem_map.mp hmem
    rwa [← h.id_injective (hranks other hother) hrank heq]
  · exact mem_map_of_mem

theorem rankPositions_eq {parents : List Nat} (rank : Nat) (hranks : ∀ other ∈ ranks, other < events.length)
    (hparents : ∀ parent ∈ parents, parent < events.length) :
    rankPositions source ranks rank parents =
      parentPositions (ranks.map source.idAt) (source.idAt rank) (parents.map source.idAt) := by
  induction parents with
  | nil => rfl
  | cons parent rest ih =>
    obtain ⟨hparent, hrest⟩ := forall_mem_cons.mp hparents
    rw [rankPositions, map_cons, parentPositions, ih hrest]
    by_cases hmem : parent ∈ ranks
    · have hid := (h.mem_idAt hranks hparent).mpr hmem
      have hindex : ranks.idxOf? parent = some (ranks.idxOf parent) := by
        cases hfind : ranks.idxOf? parent with
        | none => exact absurd hmem (idxOf?_eq_none_iff.mp hfind)
        | some index => rw [idxOf_eq_getD_idxOf?, hfind, Option.getD_some]
      rw [hindex, idxOf?_eq_some hid, h.idxOf_idAt hranks hparent]
    · have hid := fun hmemId => hmem ((h.mem_idAt hranks hparent).mp hmemId)
      rw [idxOf?_eq_none_iff.mpr hmem, idxOf?_eq_none_iff.mpr hid]

theorem usesDefaultParentRank_eq {rank : Nat} {event : GraphEvent} (hevent : events[rank]? = some event)
    (hranks : ∀ other ∈ ranks, other < events.length) : usesDefaultParentRank source ranks rank =
      isDefaultParents (ranks.map source.idAt) event.parentVersion.ids := by
  obtain ⟨hids, hlt⟩ := h.parentIds hevent
  rw [usesDefaultParentRank, isDefaultParents, getLast?_map, ← hids]
  cases hlast : ranks.getLast? with
  | none => simp
  | some previous =>
    have hprevious := hranks previous (mem_of_getLast? hlast)
    simp only [Option.map_some, decide_eq_decide]
    constructor
    · intro heq
      rw [heq, map_singleton]
    · intro heq
      obtain ⟨parent, hparents, hid⟩ := map_eq_singleton_iff.mp heq
      have hparent := hlt parent (by rw [hparents]; exact mem_singleton_self parent)
      rw [hparents, h.id_injective hparent hprevious hid]

theorem assertEvent_eq {rank : Nat} {event : GraphEvent}
    (hevent : events[rank]? = some event) (offset : Nat) :
    assertEvent event offset = checkColumns event.id event.timestamp event.operation := by
  have hid := h.id_ne_nil event (mem_of_getElem? hevent)
  obtain ⟨hids, hlt⟩ := h.parentIds hevent
  have hparents : [] ∉ event.parentVersion.ids := by
    intro hmem
    rw [← hids] at hmem
    obtain ⟨parent, hparent, hnil⟩ := mem_map.mp hmem
    have hget := getElem?_eq_getElem (hlt parent hparent)
    rw [(h.event parent _ hget).id] at hnil
    exact h.id_ne_nil _ (mem_of_getElem? hget) hnil
  rw [assertEvent, if_neg hid, if_neg hparents]

end

end Presents

variable {columns : ColumnEncoderState}

variable {state : EventEncoderState}

theorem SameState.idOfRank
    (h : Presents source events) (hsame : SameState source columns state) {rank : Nat}
    {event : GraphEvent} (hevent : events[rank]? = some event) :
    (appendColumnId columns.ids source rank).SameRuns (state.ids.appendId event.id) ∧
      AgentsHold source.agentName (appendColumnId columns.ids source rank) := by
  have hpresents := h.event rank event hevent
  rw [appendColumnId, hpresents.id]
  cases hstring : source.useStringIdAt rank with
  | true => exact appendId_same hsame.agents hsame.ids
  | false =>
    simp only [Bool.false_eq_true, if_false]
    cases hagent : source.agentAt rank with
    | none =>
      have hparse := hpresents.custom hstring hagent
      rw [Egw4IdRuns.appendId, hparse]
      exact appendCustom_same hsame.agents hsame.ids
    | some agent =>
      have hparse := hpresents.agent agent hstring hagent
      exact appendCanonical_same hsame.idRuns hsame.agents hsame.ids hparse

/-- Both encoders fail, or both go on in the same state. -/
def SameOutcome (source : TopologicalColumnSource) :
    Except CodecError ColumnEncoderState → Except CodecError EventEncoderState → Prop
  | .ok columns, .ok state => SameState source columns state
  | .error _, .error _ => True
  | _, _ => False

theorem SameState.encodeRank
    (h : Presents source events) (hsame : SameState source columns state) {rank : Nat}
    {event : GraphEvent} (hevent : events[rank]? = some event) :
    SameOutcome source (Codec.encodeRank source columns rank) (encodeEvent state event) := by
  have hlt := (List.getElem?_eq_some_iff.mp hevent).1
  have hpresents := h.event rank event hevent
  have hranks : ∀ other ∈ columns.ranks, other < events.length := by
    rw [← h.count]
    exact hsame.rank_lt
  obtain ⟨hids, hparents⟩ := h.parentIds hevent
  have hmem : event.id ∈ state.positions ↔ rank ∈ columns.ranks := by
    rw [hsame.positions, ← hpresents.id, h.mem_idAt hranks hlt]
  rw [Codec.encodeRank, encodeEvent_eq event hsame.nodup, h.assertEvent_eq hevent,
    hpresents.assertColumnEvent_eq]
  by_cases hduplicate : rank ∈ columns.ranks
  · rw [if_pos (.inl hduplicate)]
    cases checkColumns event.id event.timestamp event.operation with
    | error error => trivial
    | ok checked =>
      simp only
      rw [if_pos (hmem.mpr hduplicate)]
      trivial
  rw [if_neg (by rw [h.count, not_or, Nat.not_le]; exact ⟨hduplicate, hlt⟩)]
  cases hchecked : checkColumns event.id event.timestamp event.operation with
  | error error => trivial
  | ok checked =>
    simp only
    rw [if_neg (fun hid => hduplicate (hmem.mp hid)), h.rankPositions_eq rank hranks hparents,
      ← hsame.positions, hpresents.id, hids, h.usesDefaultParentRank_eq hevent hranks,
      ← hsame.positions]
    cases hpositions : parentPositions state.positions event.id event.parentVersion.ids with
    | error error => trivial
    | ok parents =>
      obtain ⟨hall, hmap⟩ := parentPositions_eq_ok.mp hpositions
      obtain ⟨hidRuns, hagents⟩ := hsame.idOfRank h hevent
      have hnew : event.id ∉ state.positions := fun hid => hduplicate (hmem.mp hid)
      have hparentRanks : ∀ parent ∈ source.parentRanksAt rank, parent ∈ columns.ranks := by
        intro parent hparent
        apply (h.mem_idAt hranks (hparents parent hparent)).mp
        rw [← hsame.positions]
        apply hall
        rw [← hids]
        exact mem_map_of_mem hparent
      have hmapped : parents = (source.parentRanksAt rank).map columns.ranks.idxOf := by
        rw [hmap, ← hids, map_map]
        apply map_congr_left
        intro parent hparent
        rw [Function.comp_apply, hsame.positions, h.idxOf_idAt hranks (hparents parent hparent)]
      have hstate : state.push event checked parents =
          { positions := state.positions ++ [event.id]
            hasChild := state.hasChild ++ parents
            rows := state.rows ++ [checked.row
              (if !isDefaultParents state.positions event.parentVersion.ids then some parents
                else none)]
            insertedText := state.insertedText ++ checked.insertedText
            ids := state.ids.appendId event.id
            overrideCount := state.overrideCount +
              if !isDefaultParents state.positions event.parentVersion.ids then 1 else 0 } := by
        rw [EventEncoderState.push]
        cases isDefaultParents state.positions event.parentVersion.ids with
        | true => rfl
        | false => rfl
      simp only [hstate]
      constructor
      · rw [map_append, map_singleton, hpresents.id, hsame.positions]
      · intro other hother
        cases mem_append.mp hother with
        | inl hold => exact hsame.rank_lt other hold
        | inr heq =>
          rw [mem_singleton.mp heq, h.count]
          exact hlt
      · simp only
        rw [hsame.rows]
      · simp only
        rw [hsame.insertedText]
      · simp only
        rw [hsame.overrideCount]
      · exact hsame.nodup.append (nodup_singleton _) (by simpa using hnew)
      · exact hidRuns
      · exact hagents
      · exact ((hsame.idRuns.of_same hsame.ids.symm).appendId
          (h.id_ne_nil event (mem_of_getElem? hevent))).of_same hidRuns
      · simp only
        rw [map_append, hsame.hasChild, hmapped]
        congr 1
        · apply map_congr_left
          intro child hchild
          rw [idxOf_append_of_mem (hsame.child_mem child hchild)]
        · apply map_congr_left
          intro parent hparent
          rw [idxOf_append_of_mem (hparentRanks parent hparent)]
      · intro child hchild
        cases mem_append.mp hchild with
        | inl hold => exact mem_append_left _ (hsame.child_mem child hold)
        | inr hparent => exact mem_append_left _ (hparentRanks child hparent)

def eventsInOrder (events : List GraphEvent) (order : List Nat) : List GraphEvent :=
  order.filterMap (events[·]?)

theorem SameState.encodeRanks
    (h : Presents source events) (hsame : SameState source columns state) {order : List Nat}
    (horder : ∀ rank ∈ order, rank < events.length) :
    SameOutcome source (Codec.encodeRanks source columns order)
      (encodeEvents state (eventsInOrder events order)) := by
  induction order generalizing columns state with
  | nil => exact hsame
  | cons rank rest ih =>
    obtain ⟨hrank, hrest⟩ := forall_mem_cons.mp horder
    have hget := getElem?_eq_getElem hrank
    have hstep := hsame.encodeRank h hget
    rw [eventsInOrder, filterMap_cons, hget, Codec.encodeRanks]
    simp only
    rw [encodeEvents]
    cases hcolumns : Codec.encodeRank source columns rank with
    | error error =>
      rw [hcolumns] at hstep
      cases hevents : encodeEvent state events[rank] with
      | error other => trivial
      | ok next =>
        rw [hevents] at hstep
        exact hstep.elim
    | ok nextColumns =>
      rw [hcolumns] at hstep
      cases hevents : encodeEvent state events[rank] with
      | error other =>
        rw [hevents] at hstep
        exact hstep.elim
      | ok next =>
        rw [hevents] at hstep
        exact ih hstep hrest

theorem ranks_encodeRanks {next : ColumnEncoderState} {order : List Nat}
    (h : Codec.encodeRanks source columns order = .ok next) :
    next.ranks = columns.ranks ++ order := by
  induction order generalizing columns with
  | nil =>
    cases h
    rw [append_nil]
  | cons rank rest ih =>
    rw [Codec.encodeRanks] at h
    cases hstep : Codec.encodeRank source columns rank with
    | error error =>
      rw [hstep] at h
      cases h
    | ok state =>
      rw [hstep] at h
      have hranks : state.ranks = columns.ranks ++ [rank] := by
        rw [Codec.encodeRank] at hstep
        split at hstep
        · cases hstep
        · split at hstep
          · cases hstep
          · split at hstep
            · cases hstep
            · cases hstep
              rfl
      rw [ih h, hranks, append_assoc, singleton_append]

section Frontier

variable {columns : ColumnEncoderState} {state : EventEncoderState}

theorem SameState.frontier_eq (hsame : SameState source columns state)
    (hnodup : columns.ranks.Nodup) :
    state.frontier = (columns.ranks.filter (· ∉ columns.hasChild)).map source.idAt := by
  have hchild : ∀ position rank, columns.ranks[position]? = some rank →
      (position ∈ state.hasChild ↔ rank ∈ columns.hasChild) := by
    intro position rank hget
    obtain ⟨hlt, hrank⟩ := List.getElem?_eq_some_iff.mp hget
    have hindex : columns.ranks.idxOf rank = position := by
      rw [← hrank]
      exact List.Nodup.idxOf_getElem hnodup position hlt
    rw [hsame.hasChild, mem_map]
    constructor
    · intro hex
      obtain ⟨child, hmem, heq⟩ := hex
      have hsome := getElem?_idxOf (hsame.child_mem child hmem)
      rw [heq, hget] at hsome
      rwa [Option.some.inj hsome]
    · intro hmem
      exact ⟨rank, hmem, hindex⟩
  rw [EventEncoderState.frontier, hsame.positions]
  apply filterMap_zipIdx_childless source.idAt
  intro position rank hget
  rw [Nat.zero_add]
  exact hchild position rank hget

theorem SameState.resolveFrontier (h : Presents source events)
    (hsame : SameState source columns state) (hperm : columns.ranks.Perm (List.range source.count))
    {frontierRanks : List Nat} (hfrontier : ∀ rank ∈ frontierRanks, rank < source.count) :
    resolveFrontierRanks source frontierRanks columns =
      resolveFrontierOrder state.frontier (some (frontierRanks.map source.idAt)) := by
  have hnodup : columns.ranks.Nodup := hperm.nodup_iff.mpr nodup_range
  have hranks : ∀ rank ∈ columns.ranks, rank < events.length := by
    rw [← h.count]
    exact hsame.rank_lt
  have hinjective : ∀ rank ∈ frontierRanks, ∀ other ∈ frontierRanks,
      source.idAt rank = source.idAt other → rank = other := by
    intro rank hrank other hother heq
    have hlt := hfrontier rank hrank
    have hlt' := hfrontier other hother
    rw [h.count] at hlt hlt'
    exact h.id_injective hlt hlt' heq
  have hlength : state.frontier.length =
      ((List.range source.count).filter (· ∉ columns.hasChild)).length := by
    rw [hsame.frontier_eq hnodup, length_map]
    exact (hperm.filter _).length_eq
  have hmem : ∀ rank, rank < source.count → (source.idAt rank ∈ state.frontier ↔
        rank ∈ (List.range source.count).filter (· ∉ columns.hasChild) ∧
          rank ∈ columns.ranks) := by
    intro rank hlt
    have hall : ∀ other ∈ columns.ranks.filter (· ∉ columns.hasChild), other < events.length :=
      fun other hother => hranks other (mem_of_mem_filter hother)
    have hrank : rank ∈ columns.ranks := hperm.mem_iff.mpr (mem_range.mpr hlt)
    rw [hsame.frontier_eq hnodup, h.mem_idAt hall (by rwa [← h.count]), mem_filter,
      mem_filter, hperm.mem_iff]
    constructor
    · exact fun hboth => ⟨hboth, hboth.1⟩
    · exact fun hboth => hboth.1
  have hids : (frontierRanks.map source.idAt).Nodup ↔ frontierRanks.Nodup :=
    ⟨List.Nodup.of_map _, fun hold => hold.map_on hinjective⟩
  have hcondition : (frontierRanks.all (fun rank =>
        decide (rank ∈ (List.range source.count).filter (· ∉ columns.hasChild)) &&
          decide (rank ∈ columns.ranks)) &&
      decide frontierRanks.Nodup && decide (frontierRanks.length =
        ((List.range source.count).filter (· ∉ columns.hasChild)).length)) =
      ((frontierRanks.map source.idAt).all (fun id => decide (id ∈ state.frontier)) &&
        decide (frontierRanks.map source.idAt).Nodup &&
        decide ((frontierRanks.map source.idAt).length = state.frontier.length)) := by
    have hall : frontierRanks.all (fun rank =>
          decide (rank ∈ (List.range source.count).filter (· ∉ columns.hasChild)) &&
            decide (rank ∈ columns.ranks)) =
        (frontierRanks.map source.idAt).all (fun id => decide (id ∈ state.frontier)) := by
      rw [all_map, Bool.eq_iff_iff, all_eq_true, all_eq_true]
      apply forall₂_congr
      intro rank hrank
      rw [Function.comp_apply, decide_eq_decide.mpr (hmem rank (hfrontier rank hrank)),
        Bool.decide_and]
    rw [length_map, hlength, decide_eq_decide.mpr hids, hall]
  rw [resolveFrontierRanks, resolveFrontierOrder, hcondition]

end Frontier

theorem encodeTopologicalColumnsBinary_eq {Metadata : Type} {platform : Platform Metadata}
    (h : Presents source events) {order : List Nat} (hlength : order.length = source.count)
    (horder : ∀ rank ∈ order, rank < source.count) {metadata : Metadata} {frontierRanks : List Nat}
    (hfrontier : ∀ rank ∈ frontierRanks, rank < source.count) :
    (encodeTopologicalColumnsBinary platform source (some order) metadata frontierRanks).toOption =
      (encodeTopologicallyOrderedEventsBinary platform (eventsInOrder events order) metadata
        (some (frontierRanks.map source.idAt))).toOption := by
  rw [encodeTopologicalColumnsBinary, encodeTopologicallyOrderedEventsBinary]
  by_cases hobject : platform.isObject metadata = true
  swap
  · simp [hobject]
  simp only [hobject, Bool.not_true, Bool.false_eq_true, if_false, Option.map_some,
    Option.getD_some, hlength, ne_eq, not_true_eq_false]
  have houtcome : SameOutcome source (encodeRanks source .empty order)
      (encodeEvents .empty (eventsInOrder events order)) := by
    apply sameState_empty.encodeRanks h
    rwa [← h.count]
  cases hcolumns : encodeRanks source .empty order with
  | error error =>
    cases hevents : encodeEvents .empty (eventsInOrder events order) with
    | error other => rfl
    | ok state =>
      rw [hcolumns, hevents] at houtcome
      exact houtcome.elim
  | ok columns =>
    cases hevents : encodeEvents .empty (eventsInOrder events order) with
    | error other =>
      rw [hcolumns, hevents] at houtcome
      exact houtcome.elim
    | ok state =>
      rw [hcolumns, hevents] at houtcome
      have hsame : SameState source columns state := houtcome
      have hranks : columns.ranks = order := ranks_encodeRanks hcolumns
      have hnodup : columns.ranks.Nodup := by
        apply List.Nodup.of_map source.idAt
        rw [← hsame.positions]
        exact hsame.nodup
      have hperm : columns.ranks.Perm (List.range source.count) := by
        apply (hnodup.subperm ?_).perm_of_length_le
        · rw [length_range, hranks, hlength]
        · intro rank hrank
          exact mem_range.mpr (hsame.rank_lt rank hrank)
      simp only
      rw [hsame.resolveFrontier h hperm hfrontier]
      cases resolveFrontierOrder state.frontier (some (frontierRanks.map source.idAt)) with
      | error error => rfl
      | ok frontier =>
        simp only
        rw [encodeEgw4, encodeEgw4, hsame.rows, hsame.ids.write_eq, hsame.ids.2.2,
          hsame.insertedText, hsame.overrideCount]

end Softmaple.Codec
