import Softmaple.Codec.ReadIdColumns

/-!
Reading back the length, operation and timestamp columns. Each is read into
numbers up to a bound; a column that does not fit is given up and read again.
-/
namespace Softmaple.Codec

open ListReader List

theorem reads_narrowOrWide {α : Type} {narrow wide : BinaryReader (Option α)} {empty a : α}
    {tokens : List Byte} {fits : Prop} (hnarrow : ReadsWithin narrow tokens fits a)
    (hwide : Reads wide tokens (some a)) : Reads (readNarrowOrWide narrow wide empty) tokens a := by
  intro rest
  rw [readNarrowOrWide, run_bind_of_ok (show remaining.run (tokens ++ rest) = .ok _ from rfl)]
  obtain ⟨hread, hgive⟩ := hnarrow rest
  by_cases hfits : fits
  · rw [run_bind_of_ok (hread hfits)]
    rfl
  · obtain ⟨left, hleft⟩ := hgive hfits
    rw [run_bind_of_ok hleft]
    simp only
    rw [run_bind_of_ok (show (rewind (tokens ++ rest)).run left = .ok _ from rfl),
      run_bind_of_ok (hwide rest)]
    rfl

section Lengths

variable {max count : Nat}

theorem readsWithin_literals {values : List Nat} {bytes : List Byte}
    (h : concat (values.map writeVarint) = .ok bytes) :
    ReadsWithin (readLiterals max values.length) bytes (∀ value ∈ values, value ≤ max) values := by
  induction values generalizing bytes with
  | nil =>
    cases h
    exact .of_reads (reads_pure _) (by simp)
  | cons value rest ih =>
    obtain ⟨first, more, hfirst, hmore, rfl⟩ := concat_cons_eq_ok.mp h
    have hread : ReadsWithin (readLiterals max (value :: rest).length) (first ++ more)
        (¬ max < value ∧ ∀ value ∈ rest, value ≤ max) (value :: rest) := by
      apply ReadsWithin.bind (reads_writeVarint hfirst)
      apply ReadsWithin.guard
      exact (ih hmore).map (value :: ·)
    apply hread.congr
    rw [forall_mem_cons, Nat.not_lt]

theorem readsWithin_unsignedRuns {fuel filled : Nat} {runs : List UnsignedRun} {bytes : List Byte}
    (h : concat (runs.flatMap (·.write)) = .ok bytes) (hne : ∀ run ∈ runs, run.values ≠ [])
    (hcount : filled + (runs.flatMap (·.values)).length = count)
    (hfuel : (runs.flatMap (·.values)).length ≤ fuel) :
    ReadsWithin (readUnsignedRunsInto max count fuel filled) bytes
      (∀ value ∈ runs.flatMap (·.values), value ≤ max) (runs.flatMap (·.values)) := by
  induction runs generalizing fuel filled bytes with
  | nil =>
    cases h
    simp only [flatMap_nil, length_nil, Nat.add_zero] at hcount
    apply ReadsWithin.of_reads _ (by simp)
    cases fuel with
    | zero => exact reads_pure _
    | succ fuel =>
      rw [readUnsignedRunsInto, if_pos (by omega)]
      exact reads_pure _
  | cons run rest ih =>
    obtain ⟨hrun, hrest⟩ := forall_mem_cons.mp hne
    have hpos : 0 < run.values.length := length_pos_iff.mpr hrun
    rw [flatMap_cons, length_append] at hcount hfuel
    rw [flatMap_cons] at h
    obtain ⟨own, more, hown, hmore, rfl⟩ := concat_append_eq_ok.mp h
    cases fuel with
    | zero => omega
    | succ fuel =>
      rw [readUnsignedRunsInto, if_neg (by omega), flatMap_cons]
      have hnext : ReadsWithin
          (readUnsignedRunsInto max count fuel (filled + run.values.length)) more
          (∀ value ∈ rest.flatMap (·.values), value ≤ max) (rest.flatMap (·.values)) :=
        ih hmore hrest (by omega) (by omega)
      cases run with
      | repeated length value =>
        simp only [UnsignedRun.values, length_replicate] at hpos hcount hfuel hnext
        obtain ⟨first, tail, hfirst, htail, rfl⟩ := concat_cons_eq_ok.mp hown
        obtain ⟨second, none, hsecond, hnone, rfl⟩ := concat_cons_eq_ok.mp htail
        cases hnone
        rw [append_nil, append_assoc]
        have hhalf : length * 2 / 2 = length := by omega
        have heven : length * 2 % 2 = 0 := by omega
        have hall : (¬ max < value ∧ ∀ value ∈ rest.flatMap (·.values), value ≤ max) ↔
            ∀ other ∈ List.replicate length value ++ rest.flatMap (·.values),
              other ≤ max := by
          rw [forall_mem_append, forall_mem_replicate, Nat.not_lt]
          simp [Nat.ne_of_gt hpos]
        apply ReadsWithin.congr _ hall
        apply ReadsWithin.bind (reads_writeVarint hfirst)
        simp only [hhalf, heven, if_true]
        apply ReadsWithin.require (by
          simp only [Bool.and_eq_true, decide_eq_true_eq]
          omega)
        apply ReadsWithin.bind (reads_writeVarint hsecond)
        apply ReadsWithin.guard
        exact hnext.map (List.replicate length value ++ ·)
      | literal values =>
        simp only [UnsignedRun.values] at hpos hcount hfuel hnext
        obtain ⟨first, tail, hfirst, htail, rfl⟩ := concat_cons_eq_ok.mp hown
        have hlength := length_le_concat_varints htail
        have hhalf : (values.length * 2 + 1) / 2 = values.length := by omega
        have hodd : ¬ (values.length * 2 + 1) % 2 = 0 := by omega
        rw [append_assoc, UnsignedRun.values]
        apply ReadsWithin.congr _ forall_mem_append.symm
        apply ReadsWithin.bind (reads_writeVarint hfirst)
        simp only [hhalf, hodd, if_false]
        apply ReadsWithin.require (by
          simp only [Bool.and_eq_true, decide_eq_true_eq]
          omega)
        apply ReadsWithin.of_remaining
        intro left
        apply ReadsWithin.require (by
          rw [decide_eq_true_eq, length_append, length_append]
          omega)
        refine ReadsWithin.bind_option (readsWithin_literals htail) ?_ ?_
        · rfl
        · exact hnext.map (values ++ ·)

theorem reads_lengths {values : List Nat} {bytes : List Byte}
    (h : writeUnsignedRuns values = .ok bytes) (hsafe : ∀ value ∈ values, value ≤ maxSafeInteger) :
    Reads (readLengths values.length) bytes values := by
  obtain ⟨hvalues, hne⟩ := unsignedRuns_values values.length values (Nat.le_refl _)
  have hlength : (0 + ((unsignedRuns values.length values).flatMap (·.values)).length) =
      values.length := by
    rw [hvalues, Nat.zero_add]
  have hread : ∀ max, ReadsWithin (readUnsignedRunsInto max values.length values.length 0) bytes
      (∀ value ∈ values, value ≤ max) values := by
    intro max
    have hruns : ReadsWithin (readUnsignedRunsInto max values.length values.length 0) bytes
        (∀ value ∈ (unsignedRuns values.length values).flatMap (·.values), value ≤ max)
        ((unsignedRuns values.length values).flatMap (·.values)) :=
      readsWithin_unsignedRuns h hne hlength (by rw [hvalues])
    rwa [hvalues] at hruns
  exact reads_narrowOrWide (hread uint32Max) ((hread maxSafeInteger).reads hsafe)

end Lengths

section Operations

variable {max : Nat}

def Egw4Row.insertedLength (row : Egw4Row) : Nat := if row.isInsert then row.operationLength else 0

def insertedTotal (rows : List Egw4Row) : Nat := (rows.map (·.insertedLength)).sum

/-- The operation columns of rows whose inserted text starts at `inserted`. -/
def entriesFrom : Nat → List Egw4Row → List OperationEntry
  | _, [] => []
  | inserted, row :: rest =>
    ⟨row.isInsert, row.operationIndex, if row.isInsert then inserted else 0⟩ ::
      entriesFrom (inserted + row.insertedLength) rest

theorem insertedTotal_cons (row : Egw4Row) (rest : List Egw4Row) :
    insertedTotal (row :: rest) = row.insertedLength + insertedTotal rest := by
  rw [insertedTotal, map_cons, sum_cons, insertedTotal]

theorem insertedTotal_append (rows more : List Egw4Row) :
    insertedTotal (rows ++ more) = insertedTotal rows + insertedTotal more := by
  rw [insertedTotal, map_append, sum_append, insertedTotal, insertedTotal]

theorem entriesFrom_append (inserted : Nat) (rows more : List Egw4Row) :
    entriesFrom inserted (rows ++ more) =
      entriesFrom inserted rows ++ entriesFrom (inserted + insertedTotal rows) more := by
  induction rows generalizing inserted with
  | nil => rfl
  | cons row rest ih =>
    rw [cons_append, entriesFrom, ih, entriesFrom, insertedTotal_cons, Nat.add_assoc]
    rfl

variable {rows : List Egw4Row}

theorem insertedTotal_deletes (h : ∀ row ∈ rows, row.isInsert = false) :
    insertedTotal rows = 0 := by
  induction rows with
  | nil => rfl
  | cons row rest ih =>
    obtain ⟨hrow, hrest⟩ := forall_mem_cons.mp h
    rw [insertedTotal_cons, ih hrest, Egw4Row.insertedLength, hrow]
    rfl

theorem BackspacesFrom.deletes {cursor after : Nat}
    (h : BackspacesFrom cursor rows after) : ∀ row ∈ rows, row.isInsert = false := by
  induction rows generalizing cursor with
  | nil => simp
  | cons row rest ih =>
    obtain ⟨hdelete, -, hrest⟩ := h
    exact forall_mem_cons.mpr ⟨hdelete, ih hrest⟩

theorem expandInserts_eq {filled index after inserted : Nat}
    (h : InsertsFrom index rows after) (hsafe : RowsSafe rows)
    (htotal : inserted + insertedTotal rows ≤ uint32Max) :
    expandInserts max filled index inserted (rows.map (·.operationLength)) =
      .ok (if ∀ row ∈ rows, row.operationIndex ≤ max then
        some (entriesFrom inserted rows, after, inserted + insertedTotal rows) else none) := by
  induction rows generalizing filled index inserted with
  | nil =>
    rw [h]
    simp [expandInserts, entriesFrom, insertedTotal]
  | cons row rest ih =>
    obtain ⟨hinsert, hindex, hrest⟩ := h
    obtain ⟨hrow, hsafe⟩ := forall_mem_cons.mp hsafe
    have hlength : row.insertedLength = row.operationLength := by
      rw [Egw4Row.insertedLength, hinsert]
      rfl
    rw [insertedTotal_cons, hlength] at htotal
    rw [map_cons, expandInserts]
    by_cases hmax : max < index
    · have hnot : ¬ ∀ other ∈ row :: rest, other.operationIndex ≤ max := by
        intro hall
        have := hall row mem_cons_self
        omega
      rw [if_pos hmax, if_neg hnot]
    · have hend : (!isSafeInteger (index + row.operationLength)) = false := by
        rw [isSafeInteger, Bool.not_eq_false', decide_eq_true_eq]
        omega
      rw [if_neg hmax, hend, if_neg (by decide), if_neg (by omega),
        ih hrest hsafe (by omega)]
      have hiff : (∀ other ∈ row :: rest, other.operationIndex ≤ max) ↔
          ∀ other ∈ rest, other.operationIndex ≤ max := by
        rw [forall_mem_cons]
        exact and_iff_right (by omega)
      rw [if_congr hiff rfl rfl]
      by_cases hfits : ∀ other ∈ rest, other.operationIndex ≤ max
      · simp only [if_pos hfits]
        rw [entriesFrom, hinsert, hlength, insertedTotal_cons, hlength, hindex, Nat.add_assoc]
        rfl
      · simp only [if_neg hfits]

theorem expandBackspaces_eq {filled cursor after : Nat}
    (h : BackspacesFrom cursor rows after) (inserted : Nat) :
    expandBackspaces max filled cursor (rows.map (·.operationLength)) =
      .ok (if ∀ row ∈ rows, row.operationIndex ≤ max then some (entriesFrom inserted rows, after)
        else none) := by
  induction rows generalizing filled cursor inserted with
  | nil =>
    rw [h]
    simp [expandBackspaces, entriesFrom]
  | cons row rest ih =>
    obtain ⟨hdelete, hcursor, hrest⟩ := h
    have hindex : cursor - row.operationLength = row.operationIndex := by omega
    rw [map_cons, expandBackspaces, if_neg (by omega), hindex]
    by_cases hmax : max < row.operationIndex
    · have hnot : ¬ ∀ other ∈ row :: rest, other.operationIndex ≤ max := by
        intro hall
        have := hall row mem_cons_self
        omega
      rw [if_pos hmax, if_neg hnot]
    · rw [if_neg hmax, ih hrest (inserted + row.insertedLength)]
      have hiff : (∀ other ∈ row :: rest, other.operationIndex ≤ max) ↔
          ∀ other ∈ rest, other.operationIndex ≤ max := by
        rw [forall_mem_cons]
        exact and_iff_right (by omega)
      rw [if_congr hiff rfl rfl]
      by_cases hfits : ∀ other ∈ rest, other.operationIndex ≤ max
      · simp only [if_pos hfits]
        rw [entriesFrom, hdelete]
        rfl
      · simp only [if_neg hfits]

theorem entriesFrom_deletes {anchor inserted : Nat}
    (h : ∀ row ∈ rows, row.isInsert = false ∧ row.operationIndex = anchor) :
    entriesFrom inserted rows = List.replicate rows.length ⟨false, anchor, 0⟩ := by
  induction rows generalizing inserted with
  | nil => rfl
  | cons row rest ih =>
    obtain ⟨⟨hdelete, hindex⟩, hrest⟩ := forall_mem_cons.mp h
    rw [entriesFrom, ih hrest, hdelete, hindex, length_cons, replicate_succ]
    rfl

theorem readsWithin_operationSpans {fuel filled cursor inserted : Nat}
    {spans : List OperationSpan} {chunks : List (List Egw4Row)} {bytes : List Byte}
    (hspans : List.Forall₂ SpanRows spans chunks)
    (h : concat (writeSpans cursor spans) = .ok bytes) (hcursor : cursor ≤ maxSafeInteger)
    (hsafe : RowsSafe chunks.flatten) (htotal : inserted + insertedTotal chunks.flatten ≤ uint32Max)
    (hfuel : chunks.flatten.length ≤ fuel) :
    ReadsWithin (readOperationSpansInto max fuel filled cursor inserted
        (chunks.flatten.map (·.operationLength))) bytes
      (∀ row ∈ chunks.flatten, row.operationIndex ≤ max)
      (entriesFrom inserted chunks.flatten, inserted + insertedTotal chunks.flatten) := by
  induction hspans generalizing fuel filled cursor inserted bytes with
  | nil =>
    cases h
    apply ReadsWithin.of_reads _ (by simp)
    cases fuel with
    | zero => exact reads_pure _
    | succ fuel =>
      rw [readOperationSpansInto, if_pos (by simp)]
      exact reads_pure _
  | @cons span rows spans chunks hspan _ ih =>
    obtain ⟨first, tail, hfirst, htail, rfl⟩ := concat_cons_eq_ok.mp h
    obtain ⟨second, more, hsecond, hmore, rfl⟩ := concat_cons_eq_ok.mp htail
    rw [flatten_cons, length_append] at hfuel
    rw [flatten_cons, insertedTotal_append, ← Nat.add_assoc] at htotal
    obtain ⟨hown, hrest⟩ := forall_mem_append.mp (flatten_cons ▸ hsafe)
    obtain ⟨hanchor, hafter⟩ := hspan.safe hown
    have hpos : 0 < rows.length := length_pos_iff.mpr hspan.nonempty
    have hnext : ReadsWithin (readOperationSpansInto max (fuel - 1) (filled + rows.length)
        span.cursorAfter (inserted + insertedTotal rows)
        (chunks.flatten.map (·.operationLength))) more
        (∀ row ∈ chunks.flatten, row.operationIndex ≤ max)
        (entriesFrom (inserted + insertedTotal rows) chunks.flatten,
          inserted + insertedTotal rows + insertedTotal chunks.flatten) :=
      ih hmore hafter hrest htotal (by omega)
    have htake : ((rows ++ chunks.flatten).map (·.operationLength)).take rows.length =
        rows.map (·.operationLength) := by
      rw [map_append, take_left' (length_map _)]
    have hdrop : ((rows ++ chunks.flatten).map (·.operationLength)).drop rows.length =
        chunks.flatten.map (·.operationLength) := by
      rw [map_append, drop_left' (length_map _)]
    have hne : ¬ (rows ++ chunks.flatten).map (·.operationLength) = [] := by
      simp [hspan.nonempty]
    cases fuel with
    | zero => omega
    | succ fuel =>
      rw [Nat.add_sub_cancel] at hnext
      rw [flatten_cons, entriesFrom_append, insertedTotal_append, ← Nat.add_assoc,
        readOperationSpansInto, if_neg hne]
      apply ReadsWithin.congr _ forall_mem_append.symm
      rw [← hspan.length] at hfirst
      have hcode : span.kind.code < 4 := by cases span.kind <;> decide
      have hkind : (rows.length * 4 + span.kind.code) % 4 = span.kind.code := by omega
      have hcount : (rows.length * 4 + span.kind.code - span.kind.code) / 4 = rows.length := by
        omega
      have hanchors := unwrapAnchor_wrapAnchorDelta hcursor hanchor
      apply ReadsWithin.bind (reads_writeVarint hfirst)
      simp only [hkind, hcount]
      apply ReadsWithin.require (by
        simp only [Bool.and_eq_true, decide_eq_true_eq, length_map, length_append]
        omega)
      apply ReadsWithin.bind (reads_writeZigZagVarint hsecond)
      simp only [hanchors, htake, hdrop]
      cases hspanKind : span.kind with
      | insert =>
        have hexpand : expandInserts max filled span.anchor inserted
            (rows.map (·.operationLength)) =
            .ok (if ∀ row ∈ rows, row.operationIndex ≤ max then
              some (entriesFrom inserted rows, span.cursorAfter,
                inserted + insertedTotal rows) else none) :=
          expandInserts_eq (hspan.insert hspanKind) hown (by omega)
        rw [if_pos rfl, ← nil_append more]
        refine ReadsWithin.bind_option (ReadsWithin.lift hexpand) ?_ ?_
        · rfl
        · exact hnext.map fun rest => (entriesFrom inserted rows ++ rest.1, rest.2)
      | delete =>
        obtain ⟨hsame, hdeletes⟩ := hspan.delete hspanKind
        have hzero := insertedTotal_deletes fun row hrow => (hdeletes row hrow).1
        have hfits : (¬ max < span.anchor ∧ ∀ row ∈ chunks.flatten, row.operationIndex ≤ max) ↔
            (∀ row ∈ rows, row.operationIndex ≤ max) ∧
              ∀ row ∈ chunks.flatten, row.operationIndex ≤ max := by
          apply and_congr_left
          intro _
          rw [Nat.not_lt]
          constructor
          · intro hle row hrow
            rw [(hdeletes row hrow).2]
            exact hle
          · intro hrows
            obtain ⟨row, hrow⟩ := exists_mem_of_ne_nil rows hspan.nonempty
            rw [← (hdeletes row hrow).2]
            exact hrows row hrow
        rw [hsame, hzero, Nat.add_zero] at hnext
        rw [if_neg (by decide), if_pos rfl, hzero, Nat.add_zero,
          entriesFrom_deletes hdeletes]
        apply ReadsWithin.congr _ hfits
        apply ReadsWithin.guard
        exact hnext.map fun rest =>
          (List.replicate rows.length ⟨false, span.anchor, 0⟩ ++ rest.1, rest.2)
      | backspace =>
        have hback := hspan.backspace hspanKind
        have hzero := insertedTotal_deletes hback.deletes
        have hexpand : expandBackspaces max filled span.anchor (rows.map (·.operationLength)) =
            .ok (if ∀ row ∈ rows, row.operationIndex ≤ max then
              some (entriesFrom inserted rows, span.cursorAfter) else none) :=
          expandBackspaces_eq hback inserted
        rw [hzero, Nat.add_zero] at hnext
        rw [if_neg (by decide), if_neg (by decide), if_pos rfl, hzero, Nat.add_zero,
          ← nil_append more]
        refine ReadsWithin.bind_option (ReadsWithin.lift hexpand) ?_ ?_
        · rfl
        · exact hnext.map fun rest => (entriesFrom inserted rows ++ rest.1, rest.2)

theorem reads_operations {bytes : List Byte}
    (h : writeOperationSpans rows = .ok bytes) (hsafe : RowsSafe rows)
    (htotal : insertedTotal rows ≤ uint32Max) :
    Reads (readOperations (rows.map (·.operationLength))) bytes
      (entriesFrom 0 rows, insertedTotal rows) := by
  obtain ⟨chunks, hchunks, hspans⟩ := operationSpans_spec rows.length rows (Nat.le_refl _)
  have hlength : chunks.flatten.length = (rows.map (·.operationLength)).length := by
    rw [← hchunks, length_map]
  have hread : ∀ max, ReadsWithin (readOperationSpansInto max
      (rows.map (·.operationLength)).length 0 0 0 (rows.map (·.operationLength))) bytes
      (∀ row ∈ rows, row.operationIndex ≤ max) (entriesFrom 0 rows, insertedTotal rows) := by
    intro max
    have hspan : ReadsWithin (readOperationSpansInto max (rows.map (·.operationLength)).length 0 0 0
        (chunks.flatten.map (·.operationLength))) bytes
        (∀ row ∈ chunks.flatten, row.operationIndex ≤ max)
        (entriesFrom 0 chunks.flatten, 0 + insertedTotal chunks.flatten) := by
      apply readsWithin_operationSpans hspans h (Nat.zero_le _) (hchunks ▸ hsafe)
      · rw [← hchunks, Nat.zero_add]
        exact htotal
      · exact Nat.le_of_eq hlength
    rw [← hchunks, Nat.zero_add] at hspan
    exact hspan
  apply reads_narrowOrWide (hread uint32Max)
  apply (hread maxSafeInteger).reads
  intro row hrow
  exact Nat.le_trans (Nat.le_add_right _ _) (hsafe row hrow)

end Operations

end Softmaple.Codec
