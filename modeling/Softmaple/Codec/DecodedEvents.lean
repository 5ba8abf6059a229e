import Softmaple.Codec.DecodedColumns

/-!
The events of a decoded graph. Whatever an accepted payload spells, each event
has the numbers of its row, a well-formed text and earlier parents.
-/
namespace Softmaple.Codec

open List

section Ids

theorem wellFormed_formatEventId {replicaId : Text} {sequence : Nat}
    (h : Utf8.wellFormed replicaId = true) (hsequence : sequence ≤ maxSafeInteger + 1) :
    Utf8.wellFormed (formatEventId replicaId sequence) = true := by
  have hlt : sequence < 10 ^ (maxSafeSequenceDigits - 1 + 1) := by
    rw [maxSafeInteger] at hsequence
    rw [maxSafeSequenceDigits]
    omega
  rw [formatEventId, Utf8.wellFormed_append h]
  apply Utf8.wellFormed_of_plain
  intro codeUnit hmem
  have hval : codeUnit.val < 0xd800 := by
    cases mem_cons.mp hmem with
    | inl heq =>
      rw [heq]
      decide
    | inr hdigit =>
      have hdigits := digits_decimalDigits _ sequence hlt codeUnit hdigit
      simp only [isDigit, Bool.and_eq_true, decide_eq_true_eq] at hdigits
      omega
  simp only [Utf8.isHigh, Utf8.isLow, Bool.and_eq_false_iff, decide_eq_false_iff_not]
  omega

theorem formatEventId_ne_nil (replicaId : Text) (sequence : Nat) :
    formatEventId replicaId sequence ≠ [] := by
  rw [formatEventId]
  exact append_ne_nil_of_right_ne_nil _ (cons_ne_nil _ _)

theorem exists_run_of_tiles {runs : List IdRun} {start stop offset : Nat}
    (htiles : Tiles start runs stop) (hle : start ≤ offset) (hlt : offset < stop) :
    ∃ run ∈ runs, run.startEventOffset ≤ offset ∧ offset < run.startEventOffset + run.length := by
  induction runs generalizing start with
  | nil =>
    have heq : start = stop := htiles
    omega
  | cons run rest ih =>
    obtain ⟨hoffset, hrest⟩ := htiles
    by_cases hinside : offset < start + run.length
    · exact ⟨run, mem_cons_self, by omega, by omega⟩
    · obtain ⟨other, hother, hbounds⟩ := ih hrest (by omega)
      exact ⟨other, mem_cons_of_mem _ hother, hbounds⟩

theorem exists_idAt {runs : List IdRun} {count offset : Nat} {strings : List Text}
    (hstrings : StringsValid strings) (hruns : ∀ run ∈ runs, run.Readable strings)
    (htiles : Tiles 0 runs count) (hlt : offset < count) :
    ∃ id, EventIdRunIndex.idAt ⟨runs, count⟩ offset = some id ∧ id ≠ [] ∧
      Utf8.wellFormed id = true := by
  obtain ⟨run, hmem, hbounds⟩ := exists_run_of_tiles htiles (Nat.zero_le _) hlt
  have hfound : (runs.find? fun run => decide (run.startEventOffset ≤ offset) &&
      decide (offset < run.startEventOffset + run.length)).isSome = true := by
    rw [find?_isSome]
    refine ⟨run, hmem, ?_⟩
    rw [Bool.and_eq_true, decide_eq_true_eq, decide_eq_true_eq]
    exact hbounds
  obtain ⟨found, hfind⟩ := Option.isSome_iff_exists.mp hfound
  have hread := hruns found (mem_of_find?_eq_some hfind)
  have hinside := find?_some hfind
  rw [Bool.and_eq_true, decide_eq_true_eq, decide_eq_true_eq] at hinside
  have hne := hstrings.ne_nil _ hread.replicaId
  have hwell := hstrings.wellFormed _ hread.replicaId
  have hcount : ¬ (⟨runs, count⟩ : EventIdRunIndex).eventCount ≤ offset := Nat.not_le.mpr hlt
  rw [EventIdRunIndex.idAt, if_neg hcount, EventIdRunIndex.runBefore, hfind, Option.map_some]
  refine ⟨_, rfl, ?_⟩
  cases hcustom : found.custom with
  | true =>
    rw [if_pos rfl]
    exact ⟨hne, hwell⟩
  | false =>
    have hend := hread.sequence hcustom
    rw [if_neg Bool.false_ne_true]
    exact ⟨formatEventId_ne_nil _ _, wellFormed_formatEventId hwell (by omega)⟩

end Ids

section Inserts

theorem wellFormed_slice {content : Text} {start length : Nat}
    (h : Utf8.wellFormed content = true) (hend : start + length ≤ content.length)
    (hfirst : ∀ codeUnit, content[start]? = some codeUnit → isLowSurrogate codeUnit = false)
    (hlast : ∀ codeUnit, content[start + length - 1]? = some codeUnit →
      isHighSurrogate codeUnit = false) :
    Utf8.wellFormed ((content.drop start).take length) = true := by
  have hdrop : Utf8.wellFormed (content.drop start) = true := by
    rw [← take_append_drop start content] at h
    refine (Utf8.wellFormed_cut h ?_).2
    intro _ _ low hlow _
    rw [head?_drop] at hlow
    exact hfirst low hlow
  by_cases hzero : length = 0
  · rw [hzero]
    rfl
  · rw [← take_append_drop length (content.drop start)] at hdrop
    refine (Utf8.wellFormed_cut hdrop ?_).1
    intro high hhigh low _ htrue
    rw [getLast?_eq_getElem?, length_take, length_drop,
      Nat.min_eq_left (by omega), getElem?_take_of_lt (by omega), getElem?_drop] at hhigh
    have hnot := hlast high (by rw [← hhigh]; congr 1; omega)
    have hsame : Utf8.isHigh high = isHighSurrogate high := rfl
    rw [hsame, hnot] at htrue
    cases htrue

theorem checkInserts_spec {content : Text} {offset : Nat} {items : List (OperationEntry × Nat)}
    (h : checkInserts content offset items = .ok ()) :
    ∀ item ∈ items, item.1.isInsert = true → item.2 ≠ 0 →
      (∀ codeUnit, content[item.1.insertStart]? = some codeUnit → isLowSurrogate codeUnit = false) ∧
      ∀ codeUnit, content[item.1.insertStart + item.2 - 1]? = some codeUnit →
        isHighSurrogate codeUnit = false := by
  induction items generalizing offset with
  | nil => simp
  | cons item rest ih =>
    obtain ⟨entry, length⟩ := item
    rw [checkInserts] at h
    simp only at h
    obtain ⟨hcheck, hrest⟩ := (ite_eq_iff.mp h).resolve_left (by rintro ⟨-, ⟨⟩⟩)
    rw [forall_mem_cons]
    refine ⟨?_, ih hrest⟩
    intro hinsert hne
    simp only at hinsert hne
    simp only [hinsert, Bool.true_and, ne_eq, hne, not_false_eq_true, decide_true,
      Bool.or_eq_true, not_or, Bool.not_eq_true] at hcheck
    refine ⟨?_, ?_⟩
    · intro codeUnit hget
      have hlow := hcheck.1
      simp only at hget
      rw [hget] at hlow
      exact hlow
    · intro codeUnit hget
      have hhigh := hcheck.2
      simp only at hget
      rw [hget] at hhigh
      exact hhigh

end Inserts

section Rows

theorem exists_timed_rows {timestamps : List Int} {rows : List Egw4Row} (inserted : Nat)
    (hlength : timestamps.length = rows.length) (hread : ∀ row ∈ rows, RowRead row) :
    ∃ timed, timed.map (·.timestamp) = timestamps ∧
      timed.map (·.operationLength) = rows.map (·.operationLength) ∧
      entriesFrom inserted timed = entriesFrom inserted rows ∧
      insertedTotal timed = insertedTotal rows ∧ ∀ row ∈ timed, RowRead row := by
  induction rows generalizing timestamps inserted with
  | nil =>
    rw [length_eq_zero_iff.mp hlength]
    exact ⟨[], rfl, rfl, rfl, rfl, by simp⟩
  | cons row rest ih =>
    cases timestamps with
    | nil => cases hlength
    | cons timestamp others =>
      obtain ⟨hrow, hrest⟩ := forall_mem_cons.mp hread
      obtain ⟨timed, htimes, hlengths, hentries, htotal, htimedRead⟩ :=
        ih (inserted + row.insertedLength) (Nat.succ.inj hlength) hrest
      refine ⟨{ row with timestamp := timestamp } :: timed, ?_, ?_, ?_, ?_, ?_⟩
      · rw [map_cons, htimes]
      · rw [map_cons, hlengths, map_cons]
      · rw [entriesFrom, entriesFrom]
        exact congrArg _ hentries
      · rw [insertedTotal_cons, htotal, insertedTotal_cons]
        rfl
      · rw [forall_mem_cons]
        exact ⟨⟨hrow.index, hrow.insertEnd⟩, htimedRead⟩

variable {Metadata : Type} {platform : Platform Metadata} {columns : PackedColumns Metadata}

structure DecodedRows (columns : PackedColumns Metadata) (rows : List Egw4Row) : Prop where
  lengths : rows.map (·.operationLength) = columns.operationLengths
  timestamps : rows.map (·.timestamp) = columns.timestamps
  operations : entriesFrom 0 rows = columns.operations
  total : insertedTotal rows = columns.insertedContent.length
  read : ∀ row ∈ rows, RowRead row

theorem ColumnsRead.exists_rows (h : ColumnsRead platform columns) :
    ∃ rows, DecodedRows columns rows := by
  obtain ⟨rows, hlengths, hentries, htotal, hread⟩ := h.operations.rows
  have hcount : columns.timestamps.length = rows.length := by
    rw [h.timestamps.1, ← h.lengths.1, ← hlengths, length_map]
  obtain ⟨timed, htimes, htimedLengths, htimedEntries, htimedTotal, htimedRead⟩ :=
    exists_timed_rows 0 hcount hread
  rw [Nat.zero_add] at htotal
  exact ⟨timed, htimedLengths.trans hlengths, htimes, htimedEntries.trans hentries,
    htimedTotal.trans htotal, htimedRead⟩

end Rows

section Graph

variable {Metadata : Type} {platform : Platform Metadata} {columns : PackedColumns Metadata}
  {graph : PackedGraph Metadata}

theorem buildGraph_fields (h : buildGraph columns = .ok graph) :
    graph.columns = columns ∧ graph.idIndex = ⟨columns.idRuns, columns.count⟩ ∧
      graph.runs = GraphRuns.fromExplicitParents columns.count columns.overrides := by
  have hruns : (if columns.overrides = [] then GraphRuns.linear columns.count
      else GraphRuns.fromExplicitParents columns.count columns.overrides) =
      GraphRuns.fromExplicitParents columns.count columns.overrides := by
    split
    · next hnil => rw [hnil, ExplicitParents.linear_eq]
    · rfl
  have hindex : ∀ index, EventIdRunIndex.fromRuns columns.idRuns columns.count = .ok index →
      index = ⟨columns.idRuns, columns.count⟩ := by
    intro index hfrom
    rw [EventIdRunIndex.fromRuns] at hfrom
    split at hfrom
    · cases hfrom
    · split at hfrom
      · cases hfrom
      · split at hfrom
        · cases hfrom
        · exact (Except.ok.inj hfrom).symm
  rw [buildGraph] at h
  cases hfrom : EventIdRunIndex.fromRuns columns.idRuns columns.count with
  | error error =>
    rw [hfrom] at h
    cases h
  | ok index =>
    rw [hfrom] at h
    simp only [hruns] at h
    split at h
    · cases h
    · cases h
      exact ⟨rfl, hindex index hfrom, rfl⟩

def Egw4Row.operationIn (row : Egw4Row) (content : Text) (start : Nat) : Operation :=
  if row.isInsert then
    .insert (.ofInt row.operationIndex) ((content.drop start).take row.operationLength)
  else .delete (.ofInt row.operationIndex) (.ofInt row.operationLength)

variable {rows : List Egw4Row} {offset : Nat}

variable {row : Egw4Row}

theorem Egw4Row.insertedTotal_le (h : rows[offset]? = some row) :
    insertedTotal (rows.take offset) + row.insertedLength ≤ insertedTotal rows := by
  obtain ⟨hlt, hget⟩ := List.getElem?_eq_some_iff.mp h
  have hsplit : rows.take offset ++ row :: rows.drop (offset + 1) = rows := by
    rw [← hget, cons_getElem_drop_succ, take_append_drop]
  have htotal := congrArg insertedTotal hsplit
  rw [insertedTotal_append, insertedTotal_cons] at htotal
  omega

theorem safeInteger?_ofInt {value : Int} (h : isSafeInt value = true) :
    (JsNumber.ofInt value).safeInteger? = some value := by
  rw [JsNumber.ofInt, JsNumber.safeInteger?, if_pos ⟨Rat.den_intCast value, h⟩]
  rfl

theorem DecodedRows.columns_at (hrows : DecodedRows columns rows)
    (hrow : rows[offset]? = some row) :
    columns.operations[offset]? = some ⟨row.isInsert, row.operationIndex,
        if row.isInsert then insertedTotal (rows.take offset) else 0⟩ ∧
      columns.operationLengths[offset]? = some row.operationLength ∧
      columns.timestamps[offset]? = some row.timestamp := by
  refine ⟨?_, ?_, ?_⟩
  · have hentry := entriesFrom_getElem? 0 rows offset
    rwa [hrow, Option.map_some, Nat.zero_add, hrows.operations] at hentry
  · rw [← hrows.lengths, getElem?_map, hrow]
    rfl
  · rw [← hrows.timestamps, getElem?_map, hrow]
    rfl

theorem DecodedRows.length_slice (hrows : DecodedRows columns rows)
    (hrow : rows[offset]? = some row)
    (hinsert : row.isInsert = true) :
    ((columns.insertedContent.drop (insertedTotal (rows.take offset))).take
      row.operationLength).length = row.operationLength := by
  have hend := Egw4Row.insertedTotal_le hrow
  rw [hrows.total, Egw4Row.insertedLength, if_pos hinsert] at hend
  rw [length_take, length_drop, Nat.min_eq_left (by omega)]

theorem DecodedRows.rowMatches (hrows : DecodedRows columns rows)
    (h : ColumnsRead platform columns)
    (hrow : rows[offset]? = some row) (id : Text) (parentVersion : EventIdSet) :
    RowMatches ⟨id, row.operationIn columns.insertedContent (insertedTotal (rows.take offset)),
      parentVersion, .ofInt row.timestamp⟩ row := by
  have hmem := mem_of_getElem? hrow
  have hread := hrows.read row hmem
  have hlength : row.operationLength ≤ maxSafeInteger := by
    apply h.lengths.2
    rw [← hrows.lengths]
    exact mem_map_of_mem hmem
  have htime : isSafeInt row.timestamp = true := by
    apply h.timestamps.2
    rw [← hrows.timestamps]
    exact mem_map_of_mem hmem
  have hindex : (JsNumber.ofInt row.operationIndex).safeNatural? = some row.operationIndex := by
    rw [safeNatural?_ofInt, if_pos hread.index]
  cases hinsert : row.isInsert with
  | false =>
    have hoperation : row.operationIn columns.insertedContent (insertedTotal (rows.take offset)) =
        .delete (.ofInt row.operationIndex) (.ofInt row.operationLength) := by
      rw [Egw4Row.operationIn, hinsert, if_neg Bool.false_ne_true]
    rw [hoperation]
    refine ⟨hinsert, ?_, safeInteger?_ofInt htime, rfl⟩
    rw [Operation.span?, hindex, safeNatural?_ofInt, if_pos hlength]
  | true =>
    have hoperation : row.operationIn columns.insertedContent
        (insertedTotal (rows.take offset)) = .insert (.ofInt row.operationIndex)
        ((columns.insertedContent.drop (insertedTotal (rows.take offset))).take
          row.operationLength) := by
      rw [Egw4Row.operationIn, hinsert, if_pos rfl]
    have hend := Egw4Row.insertedTotal_le hrow
    rw [hrows.total, Egw4Row.insertedLength, if_pos hinsert] at hend
    rw [hoperation]
    refine ⟨hinsert, ?_, safeInteger?_ofInt htime, ?_⟩
    · rw [Operation.span?, hindex, Option.map_some, hrows.length_slice hrow hinsert]
    · by_cases hzero : row.operationLength = 0
      · rw [hzero]
        rfl
      obtain ⟨hentry, hlengthAt, -⟩ := hrows.columns_at hrow
      rw [hinsert, if_pos rfl] at hentry
      have hzip : (columns.operations.zip columns.operationLengths)[offset]? =
          some (⟨true, row.operationIndex, insertedTotal (rows.take offset)⟩,
            row.operationLength) :=
        getElem?_zip_eq_some.mpr ⟨hentry, hlengthAt⟩
      obtain ⟨hfirst, hlast⟩ := checkInserts_spec h.inserts _ (mem_of_getElem? hzip) rfl hzero
      exact wellFormed_slice h.wellFormed hend hfirst hlast

theorem DecodedRows.eventAt (hrows : DecodedRows graph.columns rows)
    (h : ColumnsRead platform graph.columns) (hbuild : buildGraph graph.columns = .ok graph)
    (hlt : offset < graph.columns.count) :
    ∃ id row, rows[offset]? = some row ∧ graph.idIndex.idAt offset = some id ∧ id ≠ [] ∧
      Utf8.wellFormed id = true ∧ graph.eventAt offset = some
        ⟨id, row.operationIn graph.columns.insertedContent (insertedTotal (rows.take offset)),
          .ofList ((explicitParents graph.columns.overrides offset).filterMap graph.idIndex.idAt),
          .ofInt row.timestamp⟩ := by
  obtain ⟨-, hindex, hruns⟩ := buildGraph_fields hbuild
  obtain ⟨strings, hstrings, hidRuns⟩ := h.idRuns
  obtain ⟨id, hid, hne, hwell⟩ := exists_idAt hstrings hidRuns h.tiles hlt
  rw [← hindex] at hid
  have hlength : rows.length = graph.columns.count := by
    rw [← h.lengths.1, ← hrows.lengths, length_map]
  obtain ⟨row, hrow⟩ : ∃ row, rows[offset]? = some row :=
    ⟨_, getElem?_eq_getElem (by omega)⟩
  refine ⟨id, row, hrow, hid, hne, hwell, ?_⟩
  obtain ⟨hentry, hlengthAt, htimestamp⟩ := hrows.columns_at hrow
  have hparents : graph.runs.parentsAt offset = explicitParents graph.columns.overrides offset := by
    rw [hruns]
    exact h.overrides.explicit.parentsAt_eq hlt
  have hoperation : graph.operationAt offset = some (row.operationIn
      graph.columns.insertedContent (insertedTotal (rows.take offset))) := by
    rw [PackedGraph.operationAt, hentry, hlengthAt, Egw4Row.operationIn]
    cases row.isInsert with
    | true => rfl
    | false => rfl
  rw [PackedGraph.eventAt, hid, hoperation, htimestamp, hparents]

theorem map_some_filterMap {α β : Type} {f : α → Option β} {values : List α}
    (h : ∀ value ∈ values, (f value).isSome = true) :
    (values.filterMap f).map some = values.map f := by
  induction values with
  | nil => rfl
  | cons value rest ih =>
    obtain ⟨hvalue, hrest⟩ := forall_mem_cons.mp h
    obtain ⟨result, hresult⟩ := Option.isSome_iff_exists.mp hvalue
    rw [filterMap_cons_some hresult, map_cons, ih hrest, map_cons, hresult]

theorem map_some_events (h : ColumnsRead platform graph.columns)
    (hbuild : buildGraph graph.columns = .ok graph) :
    graph.events.map some = (List.range graph.columns.count).map graph.eventAt := by
  obtain ⟨rows, hrows⟩ := h.exists_rows
  apply map_some_filterMap
  intro offset hoffset
  obtain ⟨id, row, -, -, -, -, hevent⟩ := hrows.eventAt h hbuild (mem_range.mp hoffset)
  rw [hevent]
  rfl

theorem length_events (h : ColumnsRead platform graph.columns)
    (hbuild : buildGraph graph.columns = .ok graph) :
    graph.events.length = graph.columns.count := by
  have hlength := congrArg List.length (map_some_events h hbuild)
  rwa [length_map, length_map, length_range] at hlength

theorem events_getElem? (h : ColumnsRead platform graph.columns)
    (hbuild : buildGraph graph.columns = .ok graph)
    (hlt : offset < graph.columns.count) : graph.events[offset]? = graph.eventAt offset := by
  have hget : (graph.events.map some)[offset]? =
      ((List.range graph.columns.count).map graph.eventAt)[offset]? := by
    rw [map_some_events h hbuild]
  have hlength : offset < graph.events.length := by rwa [length_events h hbuild]
  rw [getElem?_map, getElem?_map, getElem?_range hlt,
    getElem?_eq_getElem hlength] at hget
  rw [getElem?_eq_getElem hlength]
  exact Option.some.inj hget

theorem DecodedRows.rowMatches_events (hrows : DecodedRows graph.columns rows)
    (h : ColumnsRead platform graph.columns) (hbuild : buildGraph graph.columns = .ok graph) :
    List.Forall₂ RowMatches graph.events rows := by
  have hlength : rows.length = graph.columns.count := by
    rw [← h.lengths.1, ← hrows.lengths, length_map]
  apply forall₂_iff_get.mpr
  refine ⟨by rw [length_events h hbuild, hlength], ?_⟩
  intro offset hevent hrow
  obtain ⟨id, row, hrowAt, -, -, -, heventAt⟩ := hrows.eventAt h hbuild (hlength ▸ hrow)
  have hevents := events_getElem? h hbuild (hlength ▸ hrow)
  rw [heventAt, getElem?_eq_getElem hevent] at hevents
  rw [getElem?_eq_getElem hrow] at hrowAt
  rw [get_eq_getElem, get_eq_getElem, Option.some.inj hevents, Option.some.inj hrowAt]
  exact hrows.rowMatches h (hrowAt ▸ getElem?_eq_getElem hrow) id _

theorem explicitParents_valid {count : Nat} {overrides : List (Nat × List Nat)}
    (h : OverridesValid count 0 overrides) (lv : Nat) :
    (∀ parent ∈ explicitParents overrides lv, parent < lv) ∧
      (explicitParents overrides lv).Nodup := by
  rw [explicitParents]
  cases hlookup : overrides.lookup lv with
  | some parents =>
    have hparents := h.parents _ (mem_of_lookup hlookup)
    exact ⟨hparents.1, hparents.2.1⟩
  | none =>
    by_cases hpos : 0 < lv
    · simp only [if_pos hpos, forall_mem_singleton, nodup_singleton, and_true]
      omega
    · simp [hpos]

theorem EventIdSet.ids_ofList {ids : List Text} (h : ids.Nodup) :
    (EventIdSet.ofList ids).ids = ids := by
  have hset := EventIdSet.ofList_ids ⟨ids, h⟩
  simp only at hset
  rw [hset]

variable (h : ColumnsRead platform graph.columns) (hbuild : buildGraph graph.columns = .ok graph)

section Parents

include h hbuild

theorem ids_getElem? {offset : Nat} (hlt : offset < graph.columns.count) :
    (graph.events.map (·.id))[offset]? = graph.idIndex.idAt offset := by
  obtain ⟨rows, hrows⟩ := h.exists_rows
  obtain ⟨id, row, -, hid, -, -, hevent⟩ := hrows.eventAt h hbuild hlt
  rw [getElem?_map, events_getElem? h hbuild hlt, hevent, hid]
  rfl

theorem ids_wellFormed : ∀ event ∈ graph.events, event.id ≠ [] ∧
    Utf8.wellFormed event.id = true := by
  intro event hmem
  obtain ⟨offset, hget⟩ := mem_iff_getElem?.mp hmem
  have hlt := (List.getElem?_eq_some_iff.mp hget).1
  rw [length_events h hbuild] at hlt
  obtain ⟨rows, hrows⟩ := h.exists_rows
  obtain ⟨id, row, -, -, hne, hwell, hevent⟩ := hrows.eventAt h hbuild hlt
  rw [events_getElem? h hbuild hlt, hevent] at hget
  rw [← Option.some.inj hget]
  exact ⟨hne, hwell⟩

theorem parentVersion_ids (hnodup : (graph.events.map (·.id)).Nodup) {offset : Nat}
    {event : GraphEvent} (hevent : graph.events[offset]? = some event) :
    event.parentVersion.ids.map some =
      (explicitParents graph.columns.overrides offset).map graph.idIndex.idAt := by
  have hlength := length_events h hbuild
  have hlt := (List.getElem?_eq_some_iff.mp hevent).1
  rw [hlength] at hlt
  obtain ⟨rows, hrows⟩ := h.exists_rows
  obtain ⟨id, row, -, -, -, -, hat⟩ := hrows.eventAt h hbuild hlt
  obtain ⟨hearlier, hdistinct⟩ := explicitParents_valid h.overrides offset
  have hsome : ((explicitParents graph.columns.overrides offset).filterMap
      graph.idIndex.idAt).map some =
      (explicitParents graph.columns.overrides offset).map graph.idIndex.idAt := by
    apply map_some_filterMap
    intro parent hparent
    have hparentLt := Nat.lt_trans (hearlier parent hparent) hlt
    rw [← ids_getElem? h hbuild hparentLt, getElem?_eq_getElem (by
      rw [length_map, hlength]
      exact hparentLt)]
    rfl
  have hidsNodup : ((explicitParents graph.columns.overrides offset).filterMap
      graph.idIndex.idAt).Nodup := by
    apply List.Nodup.of_map some
    rw [hsome]
    apply hdistinct.map_on
    intro parent hparent other hother heq
    have hparentLt := Nat.lt_trans (hearlier parent hparent) hlt
    have hotherLt := Nat.lt_trans (hearlier other hother) hlt
    rw [← ids_getElem? h hbuild hparentLt, ← ids_getElem? h hbuild hotherLt] at heq
    have hinside : parent < (graph.events.map (·.id)).length := by
      rw [length_map, hlength]
      exact hparentLt
    exact (getElem?_inj hinside hnodup).mp heq
  rw [events_getElem? h hbuild hlt, hat] at hevent
  rw [← Option.some.inj hevent]
  simp only
  rw [EventIdSet.ids_ofList hidsNodup, hsome]

theorem readsBack_events (hnodup : (graph.events.map (·.id)).Nodup) : ReadsBack graph.events := by
  obtain ⟨rows, hrows⟩ := h.exists_rows
  have hlength := length_events h hbuild
  refine ⟨fun event hevent => (ids_wellFormed h hbuild event hevent).2, ?_, ?_⟩
  · rw [← insertedTotal_eq (hrows.rowMatches_events h hbuild), hrows.total]
    exact h.operations.total_le
  · have hedges := (edgesFit_iff_edgesAt h.overrides.ascending
      (fun entry hentry => (h.overrides.bounds entry hentry).2) h.count).mp h.edges
    have hparents : ∀ position event, graph.events[position]? = some event →
        (explicitParents graph.columns.overrides position).length =
          event.parentVersion.ids.length := by
      intro position event hevent
      have hids := congrArg List.length (parentVersion_ids h hbuild hnodup hevent)
      rw [length_map, length_map] at hids
      exact hids.symm
    intro position hposition
    rw [← edgesAt_eq hparents hposition, hlength]
    exact hedges position (hlength ▸ hposition)

end Parents

end Graph

end Softmaple.Codec
