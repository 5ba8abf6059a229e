import Softmaple.Codec.RoundTrip

/-!
What the columns of an accepted payload hold. Each column bounds itself while it
is expanded; only ID runs and deletes are let through past the last safe integer.
-/
namespace Softmaple.Codec

open ListReader List

section Numbers

theorem readVarintLoop_le {fuel value multiplier result : Nat} {input rest : List Byte}
    (h : readVarintLoop fuel value multiplier input = .ok (result, rest)) :
    result ≤ maxSafeInteger := by
  induction fuel generalizing value multiplier input with
  | zero => cases h
  | succ fuel ih =>
    cases input with
    | nil => cases h
    | cons byte input =>
      rw [readVarintLoop] at h
      split at h
      · cases h
      next hsafe =>
        split at h
        · cases h
          omega
        · exact ih h

theorem ensures_varint : Ensures readVarint (· ≤ maxSafeInteger) :=
  ⟨fun _ _ _ hrun => readVarintLoop_le hrun⟩

theorem ensures_zigZagVarint : Ensures readZigZagVarint ZigZagRange := by
  apply Ensures.map
  apply ensures_varint.mono
  intro value hvalue
  have hencode := zigzagEncode_safe_iff (zigzagDecode value)
  rw [maxSafeInteger] at hvalue
  rw [ZigZagRange, zigzagDecode]
  split
  · omega
  · omega

theorem wellFormed_of_decodeTextStrict {bytes : List Byte} {text : Text}
    (h : decodeTextStrict bytes = .ok text) : Utf8.wellFormed text = true := by
  rw [decodeTextStrict] at h
  cases hsome : Utf8.decode bytes with
  | none =>
    rw [hsome] at h
    cases h
  | some decoded =>
    rw [hsome] at h
    rw [← Except.ok.inj h]
    exact Utf8.wellFormed_decode hsome

theorem ensures_strictString :
    Ensures readStrictString fun text => Utf8.wellFormed text = true := by
  apply (Ensures.trivial readVarint).bind
  intro length _
  apply (Ensures.trivial (readByteView length)).bind
  intro bytes _
  apply Ensures.lift
  intro text hdecode
  exact wellFormed_of_decodeTextStrict hdecode

end Numbers

section Ids

structure StringsValid (strings : List Text) : Prop where
  nodup : strings.Nodup
  ne_nil : ∀ string ∈ strings, string ≠ []
  wellFormed : ∀ string ∈ strings, Utf8.wellFormed string = true

theorem ensures_stringsLoop (left : Nat) {done : List Text} (h : StringsValid done) :
    Ensures (readStringsLoop left done) StringsValid := by
  induction left generalizing done with
  | zero => exact Ensures.pure h
  | succ left ih =>
    rw [readStringsLoop]
    apply ensures_strictString.bind
    intro string hwell
    apply Ensures.require
    intro hne
    apply Ensures.require
    intro hnew
    apply ih
    have hnot : string ∉ done := of_decide_eq_true hnew
    refine ⟨?_, ?_, ?_⟩
    · exact h.nodup.append (nodup_singleton _) (by simpa using hnot)
    · rw [forall_mem_append, forall_mem_singleton]
      exact ⟨h.ne_nil, of_decide_eq_true hne⟩
    · rw [forall_mem_append, forall_mem_singleton]
      exact ⟨h.wellFormed, hwell⟩

theorem ensures_strings : Ensures readStrings StringsValid := by
  apply (Ensures.trivial readVarint).bind
  intro count _
  apply (Ensures.trivial remaining).bind
  intro rest _
  apply Ensures.require
  intro _
  exact ensures_stringsLoop count ⟨nodup_nil, by simp, by simp⟩

/-- A run as it is read: its end may be one past the last sequence. -/
structure IdRun.Readable (strings : List Text) (run : IdRun) : Prop where
  replicaId : run.replicaId ∈ strings
  length_pos : 0 < run.length
  custom : run.custom = true →
    run.length = 1 ∧ run.startSequence = 0 ∧ parseEventId run.replicaId = none
  sequence : run.custom = false → run.startSequence + run.length ≤ maxSafeInteger + 2

/-- The doubled rounding lets one sum past the limit through. -/
theorem le_of_numberAdd_safe {a b : Nat} (h : isSafeInteger (numberAdd a b - 1) = true) :
    a + b ≤ maxSafeInteger + 2 ∧ numberAdd a b ≤ maxSafeInteger + 1 := by
  have hmax : maxSafeInteger = 9007199254740991 := rfl
  rw [isSafeInteger, decide_eq_true_eq] at h
  rw [numberAdd] at h ⊢
  split at h
  · next hexact =>
      rw [if_pos hexact]
      omega
  · next hrounded =>
      rw [if_neg hrounded]
      split at h
      · next hdown =>
          rw [if_pos hdown]
          omega
      · next hup =>
          rw [if_neg hup]
          omega

theorem ensures_idRunsLoop {strings : List Text} {count fuel run covered : Nat}
    {nextSequence : List Nat} (hle : covered ≤ count) (hfuel : count - covered ≤ fuel)
    (hnext : ∀ sequence ∈ nextSequence, sequence ≤ maxSafeInteger + 1) :
    Ensures (readIdRunsLoop strings count fuel run covered nextSequence) fun runs =>
      Tiles covered runs count ∧ ∀ run ∈ runs, run.Readable strings := by
  induction fuel generalizing run covered nextSequence with
  | zero =>
    apply Ensures.pure
    exact ⟨by rw [Tiles]; omega, by simp⟩
  | succ fuel ih =>
    rw [readIdRunsLoop]
    by_cases hdone : count ≤ covered
    · rw [if_pos hdone]
      apply Ensures.pure
      exact ⟨by rw [Tiles]; omega, by simp⟩
    rw [if_neg hdone]
    apply ensures_varint.bind
    intro head _
    cases hstring : strings[head / 2]? with
    | none => exact Ensures.fail
    | some string =>
      have hmem := mem_of_getElem? hstring
      simp only
      by_cases hcustom : head % 2 = 1
      · rw [if_pos hcustom]
        apply Ensures.require
        intro hparse
        apply (ih (by omega) (by omega) hnext).bind
        intro rest hrest
        apply Ensures.pure
        refine ⟨⟨rfl, hrest.1⟩, ?_⟩
        rw [forall_mem_cons]
        refine ⟨⟨hmem, Nat.one_pos, ?_, by simp⟩, hrest.2⟩
        intro _
        exact ⟨rfl, rfl, Option.isNone_iff_eq_none.mp hparse⟩
      · rw [if_neg hcustom]
        apply ensures_varint.bind
        intro packedLength _
        apply Ensures.require
        intro hlength
        rw [Bool.and_eq_true, decide_eq_true_eq, decide_eq_true_eq] at hlength
        -- the run from its start on, however that was found
        have hrun : ∀ startSequence, startSequence ≤ maxSafeInteger + 1 → Ensures (do
            let endSequence := numberAdd startSequence (packedLength / 2)
            require (isSafeInteger (endSequence - 1)) (.idRunSequence run)
            let rest ← readIdRunsLoop strings count fuel (run + 1)
              (covered + packedLength / 2) (nextSequence.set (head / 2) endSequence)
            return (⟨string, startSequence, covered, packedLength / 2, false⟩ : IdRun) :: rest)
            fun runs => Tiles covered runs count ∧ ∀ run ∈ runs, run.Readable strings := by
          intro startSequence hstart
          apply Ensures.require
          intro hsafe
          obtain ⟨hsum, hend⟩ := le_of_numberAdd_safe hsafe
          have hset : ∀ sequence ∈ nextSequence.set (head / 2)
              (numberAdd startSequence (packedLength / 2)), sequence ≤ maxSafeInteger + 1 := by
            intro sequence hsequence
            cases mem_or_eq_of_mem_set hsequence with
            | inl hold => exact hnext sequence hold
            | inr heq => rwa [heq]
          apply (ih (by omega) (by omega) hset).bind
          intro rest hrest
          apply Ensures.pure
          refine ⟨⟨rfl, hrest.1⟩, ?_⟩
          rw [forall_mem_cons]
          exact ⟨⟨hmem, Nat.pos_of_ne_zero hlength.1, by simp, fun _ => hsum⟩, hrest.2⟩
        by_cases hjumped : packedLength % 2 = 1
        · rw [if_pos hjumped]
          apply ensures_varint.bind
          intro startSequence hstart
          exact hrun startSequence (Nat.le_succ_of_le hstart)
        · rw [if_neg hjumped]
          apply hrun
          rw [getD_eq_getElem?_getD]
          cases hget : nextSequence[head / 2]? with
          | none => exact Nat.zero_le _
          | some sequence => exact hnext sequence (mem_of_getElem? hget)

theorem ensures_idRuns (strings : List Text) (count : Nat) :
    Ensures (readIdRuns strings count) fun runs =>
      Tiles 0 runs count ∧ ∀ run ∈ runs, run.Readable strings := by
  apply ensures_idRunsLoop (Nat.zero_le _) (Nat.sub_le _ _)
  intro sequence hsequence
  rw [eq_of_mem_replicate hsequence]
  exact Nat.zero_le _

end Ids

section Overrides

theorem ensures_parents (offset left : Nat) :
    Ensures (readParents offset left) fun parents =>
      parents.length = left ∧ ∀ parent ∈ parents, parent < offset := by
  induction left with
  | zero => exact Ensures.pure ⟨rfl, by simp⟩
  | succ left ih =>
    rw [readParents]
    apply ensures_varint.bind
    intro distance _
    apply Ensures.require
    intro hdistance
    rw [Bool.and_eq_true, decide_eq_true_eq, decide_eq_true_eq] at hdistance
    apply ih.bind
    intro rest hrest
    apply Ensures.pure
    rw [length_cons, forall_mem_cons]
    exact ⟨by rw [hrest.1], by omega, hrest.2⟩

structure OverrideRead (count next : Nat) (edges : Int)
    (result : (Nat × List Nat) × Int) : Prop where
  next_le : next ≤ result.1.1
  lt_count : result.1.1 < count
  earlier : ∀ parent ∈ result.1.2, parent < result.1.1
  nodup : result.1.2.Nodup
  not_default : result.1.2 ≠ defaultParents result.1.1
  edges_eq : result.2 = edges + result.1.2.length - if 0 < result.1.1 then 1 else 0
  edges_le : result.2 ≤ uint32Max

theorem ensures_override (count next : Nat) (edges : Int) :
    Ensures (readOverride count next edges) (OverrideRead count next edges) := by
  apply ensures_varint.bind
  intro head _
  apply Ensures.require
  intro hoffset
  have hparents : ∀ eventParents : Nat, Ensures (do
      let rest ← remaining
      require (decide (eventParents ≤ next + (head - head % 4) / 4) &&
        decide (eventParents ≤ rest.length))
        (CodecError.invalidParentCount (next + (head - head % 4) / 4) eventParents)
      let parents ← readParents (next + (head - head % 4) / 4) eventParents
      require parents.Nodup (.repeatedParent (next + (head - head % 4) / 4))
      require (parents ≠ defaultParents (next + (head - head % 4) / 4))
        (.redundantOverride (next + (head - head % 4) / 4))
      let edgeCount : Int :=
        edges + eventParents - if 0 < next + (head - head % 4) / 4 then 1 else 0
      require (edgeCount ≤ uint32Max) .tooManyEdges
      return ((next + (head - head % 4) / 4, parents), edgeCount))
      (OverrideRead count next edges) := by
    intro eventParents
    apply (Ensures.trivial remaining).bind
    intro rest _
    apply Ensures.require
    intro _
    apply (ensures_parents _ eventParents).bind
    intro parents hparents
    apply Ensures.require
    intro hnodup
    apply Ensures.require
    intro hdefault
    apply Ensures.require
    intro hedges
    apply Ensures.pure
    refine ⟨Nat.le_add_right _ _, of_decide_eq_true hoffset, hparents.2,
      of_decide_eq_true hnodup, of_decide_eq_true hdefault, ?_, of_decide_eq_true hedges⟩
    simp only
    rw [hparents.1]
  by_cases hfew : head % 4 < egw4ManyParents
  · simp only [if_pos hfew]
    exact hparents _
  · simp only [if_neg hfew]
    apply Ensures.bind (Ensures.trivial _)
    intro eventParents _
    exact hparents eventParents

theorem ensures_overridesLoop (count left : Nat) {next : Nat} {edges : Int}
    (hedges : edges ≤ uint32Max) :
    Ensures (readOverridesLoop count left next edges) fun overrides =>
      OverridesValid count next overrides ∧ EdgesFit edges overrides := by
  induction left generalizing next edges with
  | zero => exact Ensures.pure ⟨⟨List.Pairwise.nil, by simp, by simp⟩, trivial⟩
  | succ left ih =>
    rw [readOverridesLoop]
    apply (ensures_override count next edges).bind
    intro result hresult
    obtain ⟨⟨offset, parents⟩, edgeCount⟩ := result
    apply (ih hresult.edges_le).bind
    intro rest hrest
    apply Ensures.pure
    have hle := hresult.next_le
    have hlt := hresult.lt_count
    have hsum := hresult.edges_eq
    have hmax := hresult.edges_le
    simp only at hle hlt hsum hmax
    refine ⟨⟨?_, ?_, ?_⟩, ?_⟩
    · apply pairwise_cons.mpr
      exact ⟨fun entry hentry => (hrest.1.bounds entry hentry).1, hrest.1.ascending⟩
    · rw [forall_mem_cons]
      refine ⟨⟨hle, hlt⟩, ?_⟩
      intro entry hentry
      have hbounds := hrest.1.bounds entry hentry
      simp only at hbounds
      exact ⟨by omega, hbounds.2⟩
    · rw [forall_mem_cons]
      exact ⟨⟨hresult.earlier, hresult.nodup, hresult.not_default⟩, hrest.1.parents⟩
    · rw [EdgesFit, ← hsum]
      exact ⟨hmax, hrest.2⟩

theorem ensures_parentOverrides {count : Nat} (hcount : count ≤ egw4MaxEvents) :
    Ensures (readParentOverrides count) fun overrides =>
      OverridesValid count 0 overrides ∧ EdgesFit (count - 1 : Nat) overrides := by
  apply (Ensures.trivial readVarint).bind
  intro overrideCount _
  apply (Ensures.trivial remaining).bind
  intro rest _
  apply Ensures.require
  intro _
  apply ensures_overridesLoop
  have hmax : uint32Max = 0xffffffff := rfl
  have hevents : egw4MaxEvents = 33554432 := rfl
  omega

end Overrides

section Lengths

variable {max count : Nat}

theorem ensures_narrowOrWide {α : Type} {narrow wide : BinaryReader (Option α)} {empty : α}
    {post : α → Prop} {gave gaveWide : Prop} (hnarrow : Ensures narrow (SomeOr gave post))
    (hwide : Ensures wide (SomeOr gaveWide post)) (hnot : ¬ gaveWide) :
    Ensures (readNarrowOrWide narrow wide empty) post := by
  apply (Ensures.trivial remaining).bind
  intro start _
  apply hnarrow.bind
  intro result hresult
  cases result with
  | some values => exact Ensures.pure hresult
  | none =>
    apply (Ensures.trivial _).bind
    intro _ _
    apply hwide.bind
    intro result hwideResult
    apply Ensures.pure
    cases result with
    | none => exact absurd hwideResult hnot
    | some values => exact hwideResult

/-- A column of `count` numbers that gave up only below the widest range. -/
theorem ensures_literals (left : Nat) :
    Ensures (readLiterals max left) (SomeOr (max < maxSafeInteger) fun values =>
      values.length = left ∧ ∀ value ∈ values, value ≤ maxSafeInteger) := by
  induction left with
  | zero =>
    apply Ensures.pure
    exact ⟨rfl, by simp⟩
  | succ left ih =>
    rw [readLiterals]
    apply ensures_varint.bind
    intro value hvalue
    by_cases hmax : max < value
    · rw [if_pos hmax]
      apply Ensures.pure
      exact Nat.lt_of_lt_of_le hmax hvalue
    · rw [if_neg hmax]
      apply ih.map_option (value :: ·)
      intro rest hrest
      rw [length_cons, forall_mem_cons]
      exact ⟨by rw [hrest.1], hvalue, hrest.2⟩

theorem ensures_unsignedRuns {fuel filled : Nat} (hfilled : filled ≤ count)
    (hfuel : count - filled ≤ fuel) :
    Ensures (readUnsignedRunsInto max count fuel filled) (SomeOr (max < maxSafeInteger)
      fun values => values.length = count - filled ∧ ∀ value ∈ values, value ≤ maxSafeInteger) := by
  induction fuel generalizing filled with
  | zero =>
    apply Ensures.pure
    exact ⟨by rw [length_nil]; omega, by simp⟩
  | succ fuel ih =>
    rw [readUnsignedRunsInto]
    by_cases hdone : count ≤ filled
    · rw [if_pos hdone]
      apply Ensures.pure
      exact ⟨by rw [length_nil]; omega, by simp⟩
    rw [if_neg hdone]
    apply ensures_varint.bind
    intro head _
    apply Ensures.require
    intro hlength
    rw [Bool.and_eq_true, decide_eq_true_eq, decide_eq_true_eq] at hlength
    have hnext : Ensures (readUnsignedRunsInto max count fuel (filled + head / 2))
        (SomeOr (max < maxSafeInteger) fun values => values.length = count - (filled + head / 2) ∧
          ∀ value ∈ values, value ≤ maxSafeInteger) := ih (by omega) (by omega)
    by_cases hrepeat : head % 2 = 0
    · rw [if_pos hrepeat]
      apply ensures_varint.bind
      intro value hvalue
      by_cases hmax : max < value
      · rw [if_pos hmax]
        apply Ensures.pure
        exact Nat.lt_of_lt_of_le hmax hvalue
      · rw [if_neg hmax]
        apply hnext.map_option (List.replicate (head / 2) value ++ ·)
        intro rest hrest
        rw [length_append, length_replicate, forall_mem_append]
        refine ⟨by omega, ?_, hrest.2⟩
        intro other hother
        rw [eq_of_mem_replicate hother]
        exact hvalue
    · rw [if_neg hrepeat]
      apply (Ensures.trivial remaining).bind
      intro rest _
      apply Ensures.require
      intro _
      refine (ensures_literals (head / 2)).bind_option rfl ?_
      intro values hvalues
      apply hnext.map_option (values ++ ·)
      intro rest hrest
      rw [length_append, forall_mem_append]
      exact ⟨by omega, hvalues.2, hrest.2⟩

theorem ensures_lengths (count : Nat) : Ensures (readLengths count) fun lengths =>
    lengths.length = count ∧ ∀ length ∈ lengths, length ≤ maxSafeInteger := by
  have hread : ∀ max, Ensures (readUnsignedRunsInto max count count 0)
      (SomeOr (max < maxSafeInteger) fun lengths =>
        lengths.length = count ∧ ∀ length ∈ lengths, length ≤ maxSafeInteger) := fun max =>
    ensures_unsignedRuns (Nat.zero_le _) (Nat.sub_le _ _)
  exact ensures_narrowOrWide (hread uint32Max) (hread maxSafeInteger) (Nat.lt_irrefl _)

end Lengths

section Operations

variable {max : Nat}

structure RowRead (row : Egw4Row) : Prop where
  index : row.operationIndex ≤ maxSafeInteger
  insertEnd : row.isInsert = true → row.operationIndex + row.operationLength ≤ maxSafeInteger

/-- Entries of operations with the given lengths, their text from `inserted` to `total`. -/
structure OperationsRead (inserted : Nat) (lengths : List Nat) (entries : List OperationEntry)
    (total : Nat) : Prop where
  rows : ∃ rows, rows.map (·.operationLength) = lengths ∧ entriesFrom inserted rows = entries ∧
    inserted + insertedTotal rows = total ∧ ∀ row ∈ rows, RowRead row
  total_le : total ≤ uint32Max

namespace OperationsRead

variable {inserted middle total : Nat} {lengths more : List Nat}
  {entries later : List OperationEntry}

theorem nil (h : inserted ≤ uint32Max) : OperationsRead inserted [] [] inserted :=
  ⟨⟨[], rfl, rfl, rfl, by simp⟩, h⟩

theorem append (h : OperationsRead inserted lengths entries middle)
    (hmore : OperationsRead middle more later total) :
    OperationsRead inserted (lengths ++ more) (entries ++ later) total := by
  obtain ⟨⟨rows, hlengths, hentries, hmiddle, hrows⟩, -⟩ := h
  obtain ⟨⟨others, hmoreLengths, hlater, htotal, hothers⟩, hle⟩ := hmore
  refine ⟨⟨rows ++ others, ?_, ?_, ?_, ?_⟩, hle⟩
  · rw [map_append, hlengths, hmoreLengths]
  · rw [entriesFrom_append, hentries, hmiddle, hlater]
  · rw [insertedTotal_append, ← Nat.add_assoc, hmiddle, htotal]
  · exact forall_mem_append.mpr ⟨hrows, hothers⟩

theorem insert {index length : Nat} (h : inserted + length ≤ uint32Max)
    (hend : index + length ≤ maxSafeInteger) :
    OperationsRead inserted [length] [⟨true, index, inserted⟩] (inserted + length) := by
  refine ⟨⟨[⟨true, index, length, 0, none⟩], rfl, rfl, rfl, ?_⟩, h⟩
  rw [forall_mem_singleton]
  exact ⟨Nat.le_trans (Nat.le_add_right _ _) hend, fun _ => hend⟩

theorem delete {index : Nat} (h : inserted ≤ uint32Max) (hindex : index ≤ maxSafeInteger)
    (length : Nat) :
    OperationsRead inserted [length] [⟨false, index, 0⟩] inserted := by
  refine ⟨⟨[⟨false, index, length, 0, none⟩], rfl, rfl, rfl, ?_⟩, h⟩
  rw [forall_mem_singleton]
  exact ⟨hindex, by simp⟩

theorem deletes {index : Nat} (h : inserted ≤ uint32Max) (hindex : index ≤ maxSafeInteger)
    (lengths : List Nat) : OperationsRead inserted lengths
      (List.replicate lengths.length ⟨false, index, 0⟩) inserted := by
  induction lengths with
  | nil => exact nil h
  | cons length rest ih => exact (delete h hindex length).append ih

end OperationsRead

theorem expandInserts_read {filled index inserted : Nat} {lengths : List Nat}
    {result : Option (List OperationEntry × Nat × Nat)} (hindex : index ≤ maxSafeInteger)
    (hinserted : inserted ≤ uint32Max)
    (h : expandInserts max filled index inserted lengths = .ok result) :
    SomeOr (max < maxSafeInteger) (fun result =>
      OperationsRead inserted lengths result.1 result.2.2 ∧ result.2.1 ≤ maxSafeInteger)
      result := by
  induction lengths generalizing filled index inserted result with
  | nil =>
    cases h
    exact ⟨.nil hinserted, hindex⟩
  | cons length rest ih =>
    rw [expandInserts] at h
    by_cases hmax : max < index
    · rw [if_pos hmax] at h
      cases h
      exact Nat.lt_of_lt_of_le hmax hindex
    rw [if_neg hmax] at h
    by_cases hend : isSafeInteger (index + length) = true
    · rw [hend, Bool.not_true, if_neg (by decide)] at h
      by_cases hrange : uint32Max < inserted + length
      · rw [if_pos hrange] at h
        cases h
      rw [if_neg hrange] at h
      have hsafe := of_decide_eq_true hend
      cases hexpand : expandInserts max (filled + 1) (index + length) (inserted + length) rest with
      | error error =>
        rw [hexpand] at h
        cases h
      | ok expanded =>
        have hexpanded := ih hsafe (Nat.not_lt.mp hrange) hexpand
        rw [hexpand] at h
        cases expanded with
        | none =>
          cases h
          exact hexpanded
        | some expanded =>
          cases h
          refine ⟨?_, hexpanded.2⟩
          exact (OperationsRead.insert (Nat.not_lt.mp hrange) hsafe).append hexpanded.1
    · rw [Bool.not_eq_true] at hend
      rw [hend, Bool.not_false, if_pos rfl] at h
      cases h

theorem expandBackspaces_read {filled index inserted : Nat} {lengths : List Nat}
    {result : Option (List OperationEntry × Nat)} (hindex : index ≤ maxSafeInteger)
    (hinserted : inserted ≤ uint32Max)
    (h : expandBackspaces max filled index lengths = .ok result) :
    SomeOr (max < maxSafeInteger) (fun result =>
      OperationsRead inserted lengths result.1 inserted ∧ result.2 ≤ maxSafeInteger) result := by
  induction lengths generalizing filled index result with
  | nil =>
    cases h
    exact ⟨.nil hinserted, hindex⟩
  | cons length rest ih =>
    rw [expandBackspaces] at h
    by_cases hless : index < length
    · rw [if_pos hless] at h
      cases h
    rw [if_neg hless] at h
    have hstart : index - length ≤ maxSafeInteger := by omega
    by_cases hmax : max < index - length
    · rw [if_pos hmax] at h
      cases h
      exact Nat.lt_of_lt_of_le hmax hstart
    rw [if_neg hmax] at h
    cases hexpand : expandBackspaces max (filled + 1) (index - length) rest with
    | error error =>
      rw [hexpand] at h
      cases h
    | ok expanded =>
      have hexpanded := ih hstart hexpand
      rw [hexpand] at h
      cases expanded with
      | none =>
        cases h
        exact hexpanded
      | some expanded =>
        cases h
        refine ⟨?_, hexpanded.2⟩
        exact (OperationsRead.delete hinserted hstart length).append hexpanded.1

theorem ensures_operationSpans {fuel filled cursor inserted : Nat} {lengths : List Nat}
    (hcursor : cursor ≤ maxSafeInteger) (hinserted : inserted ≤ uint32Max)
    (hfuel : lengths.length ≤ fuel) :
    Ensures (readOperationSpansInto max fuel filled cursor inserted lengths)
      (SomeOr (max < maxSafeInteger) fun result =>
        OperationsRead inserted lengths result.1 result.2) := by
  induction fuel generalizing filled cursor inserted lengths with
  | zero =>
    rw [length_eq_zero_iff.mp (Nat.le_zero.mp hfuel)]
    exact Ensures.pure (.nil hinserted)
  | succ fuel ih =>
    rw [readOperationSpansInto]
    by_cases hdone : lengths = []
    · rw [if_pos hdone, hdone]
      exact Ensures.pure (.nil hinserted)
    rw [if_neg hdone]
    apply ensures_varint.bind
    intro head _
    apply Ensures.require
    intro hlength
    rw [Bool.and_eq_true, decide_eq_true_eq, decide_eq_true_eq] at hlength
    obtain ⟨length, hlengthEq⟩ : ∃ length, (head - head % 4) / 4 = length := ⟨_, rfl⟩
    simp only [hlengthEq] at hlength ⊢
    apply ensures_zigZagVarint.bind
    intro delta hdelta
    have hanchor := unwrapAnchor_le hcursor hdelta
    have hrest : (lengths.drop length).length ≤ fuel := by
      rw [length_drop]
      omega
    have hsplit : lengths.take length ++ lengths.drop length = lengths :=
      take_append_drop _ _
    by_cases hinsert : head % 4 = SpanKind.insert.code
    · rw [if_pos hinsert]
      refine (Ensures.lift fun _ => expandInserts_read hanchor hinserted).bind_option rfl ?_
      intro expanded hexpanded
      obtain ⟨entries, index, total⟩ := expanded
      apply (ih hexpanded.2 hexpanded.1.total_le hrest).map_option
        fun later => (entries ++ later.1, later.2)
      intro later hlater
      rw [← hsplit]
      exact hexpanded.1.append hlater
    rw [if_neg hinsert]
    by_cases hdelete : head % 4 = SpanKind.delete.code
    · rw [if_pos hdelete]
      by_cases hmax : max < unwrapAnchor cursor delta
      · rw [if_pos hmax]
        exact Ensures.pure (Nat.lt_of_lt_of_le hmax hanchor)
      · rw [if_neg hmax]
        apply (ih hanchor hinserted hrest).map_option fun later =>
          (List.replicate length ⟨false, unwrapAnchor cursor delta, 0⟩ ++ later.1, later.2)
        intro later hlater
        have hdeletes := OperationsRead.deletes hinserted hanchor (lengths.take length)
        rw [length_take, Nat.min_eq_left hlength.2] at hdeletes
        rw [← hsplit]
        exact hdeletes.append hlater
    rw [if_neg hdelete]
    by_cases hback : head % 4 = SpanKind.backspace.code
    · rw [if_pos hback]
      refine (Ensures.lift fun _ => expandBackspaces_read hanchor hinserted).bind_option rfl ?_
      intro expanded hexpanded
      obtain ⟨entries, index⟩ := expanded
      apply (ih hexpanded.2 hinserted hrest).map_option fun later => (entries ++ later.1, later.2)
      intro later hlater
      rw [← hsplit]
      exact hexpanded.1.append hlater
    · rw [if_neg hback]
      exact Ensures.fail

theorem ensures_operations (lengths : List Nat) :
    Ensures (readOperations lengths) fun result => OperationsRead 0 lengths result.1 result.2 := by
  have hread : ∀ max, Ensures (readOperationSpansInto max lengths.length 0 0 0 lengths)
      (SomeOr (max < maxSafeInteger) fun result =>
        OperationsRead 0 lengths result.1 result.2) := fun max =>
    ensures_operationSpans (Nat.zero_le _) (Nat.zero_le _) (Nat.le_refl _)
  exact ensures_narrowOrWide (hread uint32Max) (hread maxSafeInteger) (Nat.lt_irrefl _)

end Operations

section Timestamps

variable {min max : Int}

def ValuesRead (length : Nat) (values : List Int) : Prop :=
  values.length = length ∧ ∀ value ∈ values, isSafeInt value = true

def Narrower (min max : Int) : Prop := -maxSafeInteger < min ∨ max < maxSafeInteger

theorem ensures_outOfRange {α : Type} {post : α → Prop} {value : Int} {offset : Nat}
    (hout : value < min ∨ max < value) :
    Ensures (lift (outOfRange value offset) : BinaryReader (Option α))
      (SomeOr (Narrower min max) post) := by
  apply Ensures.lift
  intro result hresult
  rw [outOfRange] at hresult
  cases hsafe : isSafeInt value with
  | false =>
    rw [hsafe] at hresult
    cases hresult
  | true =>
    rw [hsafe] at hresult
    cases hresult
    simp only [isSafeInt, Bool.and_eq_true, decide_eq_true_eq] at hsafe
    have : Narrower min max := by
      rw [Narrower]
      omega
    exact this

theorem safe_of_inRange {value : Int} (hmin : -maxSafeInteger ≤ min) (hmax : max ≤ maxSafeInteger)
    (hrange : min ≤ value ∧ value ≤ max) : isSafeInt value = true := by
  simp only [isSafeInt, Bool.and_eq_true, decide_eq_true_eq]
  omega

theorem ensures_deltas (hmin : -maxSafeInteger ≤ min) (hmax : max ≤ maxSafeInteger) (left : Nat)
    {filled : Nat} {previous : Int} :
    Ensures (readDeltas min max left filled previous)
      (SomeOr (Narrower min max) (ValuesRead left)) := by
  induction left generalizing filled previous with
  | zero =>
    apply Ensures.pure
    exact ⟨rfl, by simp⟩
  | succ left ih =>
    rw [readDeltas]
    apply (Ensures.trivial readZigZagVarint).bind
    intro delta _
    by_cases hout : previous + delta < min ∨ max < previous + delta
    · simp only [if_pos hout]
      exact ensures_outOfRange hout
    · simp only [if_neg hout]
      apply ih.map_option ((previous + delta) :: ·)
      intro rest hrest
      refine ⟨by rw [length_cons, hrest.1], ?_⟩
      rw [forall_mem_cons]
      exact ⟨safe_of_inRange hmin hmax (by omega), hrest.2⟩

theorem ValuesRead.append {length more : Nat} {values later : List Int}
    (h : ValuesRead length values) (hlater : ValuesRead more later) :
    ValuesRead (length + more) (values ++ later) := by
  refine ⟨by rw [length_append, h.1, hlater.1], ?_⟩
  exact forall_mem_append.mpr ⟨h.2, hlater.2⟩

theorem ensures_deltaSegments (hmin : -maxSafeInteger ≤ min) (hmax : max ≤ maxSafeInteger)
    {count fuel filled : Nat} {previous step : Int} (hfilled : filled ≤ count)
    (hfuel : count - filled ≤ fuel) :
    Ensures (readDeltaSegmentsInto min max count fuel filled previous step)
      (SomeOr (Narrower min max) (ValuesRead (count - filled))) := by
  induction fuel generalizing filled previous step with
  | zero =>
    apply Ensures.pure
    exact ⟨by rw [length_nil]; omega, by simp⟩
  | succ fuel ih =>
    rw [readDeltaSegmentsInto]
    by_cases hdone : count ≤ filled
    · rw [if_pos hdone]
      apply Ensures.pure
      exact ⟨by rw [length_nil]; omega, by simp⟩
    rw [if_neg hdone]
    apply (Ensures.trivial readVarint).bind
    intro head _
    apply Ensures.require
    intro hlength
    rw [Bool.and_eq_true, decide_eq_true_eq, decide_eq_true_eq] at hlength
    obtain ⟨length, hlengthEq⟩ : ∃ length, (head - head % 4) / 4 = length := ⟨_, rfl⟩
    simp only [hlengthEq] at hlength ⊢
    have hcount : count - filled = length + (count - (filled + length)) := by omega
    by_cases hliteral : head % 4 = SegmentMode.literal.code
    · rw [if_pos hliteral]
      apply (Ensures.trivial remaining).bind
      intro left _
      apply Ensures.require
      intro _
      refine (ensures_deltas hmin hmax length).bind_option rfl ?_
      intro values hvalues
      apply (ih (by omega) (by omega)).map_option (values ++ ·)
      intro rest hrest
      rw [hcount]
      exact hvalues.append hrest
    rw [if_neg hliteral]
    by_cases hunknown : head % 4 ≠ SegmentMode.sameStep.code ∧ head % 4 ≠ SegmentMode.newStep.code
    · rw [if_pos hunknown]
      exact Ensures.fail
    rw [if_neg hunknown]
    apply (Ensures.trivial readZigZagVarint).bind
    intro delta _
    -- a segment of equal steps, once its step is known
    have hsteps : ∀ step : Int, Ensures (if previous + delta < min ∨ max < previous + delta then
          lift (outOfRange (previous + delta) filled)
        else if previous + delta + step * (length - 1 : Nat) < min ∨
            max < previous + delta + step * (length - 1 : Nat) then
          lift (outOfRange (previous + delta + step * (length - 1 : Nat)) (filled + length - 1))
        else do
          let rest ← readDeltaSegmentsInto min max count fuel (filled + length)
            (previous + delta + step * (length - 1 : Nat)) step
          return rest.map (((List.range length).map fun (position : Nat) =>
            previous + delta + step * position) ++ ·))
        (SomeOr (Narrower min max) (ValuesRead (count - filled))) := by
      intro step
      by_cases hfirst : previous + delta < min ∨ max < previous + delta
      · rw [if_pos hfirst]
        exact ensures_outOfRange hfirst
      rw [if_neg hfirst]
      by_cases hlast : previous + delta + step * (length - 1 : Nat) < min ∨
          max < previous + delta + step * (length - 1 : Nat)
      · rw [if_pos hlast]
        exact ensures_outOfRange hlast
      rw [if_neg hlast]
      apply (ih (by omega) (by omega)).map_option
      intro rest hrest
      rw [hcount]
      apply ValuesRead.append _ hrest
      refine ⟨by rw [length_map, length_range], ?_⟩
      intro value hvalue
      have hinside : InRange min max ((List.range length).map fun (position : Nat) =>
          previous + delta + step * position) :=
        (inRange_progression (Nat.pos_of_ne_zero hlength.1)).mpr ⟨by omega, by omega⟩
      exact safe_of_inRange hmin hmax (hinside value hvalue)
    by_cases hnew : head % 4 = SegmentMode.newStep.code
    · rw [if_pos hnew]
      apply (Ensures.trivial readZigZagVarint).bind
      intro newStep _
      exact hsteps newStep
    · rw [if_neg hnew]
      exact hsteps step

theorem ensures_timestamps (count : Nat) : Ensures (readTimestamps count) (ValuesRead count) := by
  have hread : ∀ min max : Int, -maxSafeInteger ≤ min → max ≤ maxSafeInteger →
      Ensures (readDeltaSegmentsInto min max count count 0 0 0)
        (SomeOr (Narrower min max) (ValuesRead count)) := fun min max hmin hmax =>
    ensures_deltaSegments hmin hmax (Nat.zero_le _) (Nat.sub_le _ _)
  apply ensures_narrowOrWide (hread int32Min int32Max (by decide) (by decide))
    (hread (-maxSafeInteger) maxSafeInteger (Int.le_refl _) (Int.le_refl _))
  rw [Narrower]
  omega

end Timestamps

section Columns

variable {Metadata : Type} {platform : Platform Metadata}

theorem ensures_insertedContent (operations : List OperationEntry) (expectedLength : Nat)
    (lengths : List Nat) :
    Ensures (readInsertedContent platform operations expectedLength lengths) fun content =>
      content.length = expectedLength ∧ Utf8.wellFormed content = true ∧
        checkInserts content 0 (operations.zip lengths) = .ok () := by
  apply (Ensures.trivial readVarint).bind
  intro compressedLength _
  apply (Ensures.trivial (readByteView compressedLength)).bind
  intro compressed _
  apply Ensures.bind (Ensures.trivial _)
  intro decompressed _
  apply Ensures.bind (Ensures.lift fun _ => wellFormed_of_decodeTextStrict)
  intro content hwell
  apply Ensures.require
  intro hlength
  apply Ensures.bind (Ensures.lift fun _ hcheck => hcheck)
  intro _ hcheck
  exact Ensures.pure ⟨of_decide_eq_true hlength, hwell, hcheck⟩

def MetadataRead (platform : Platform Metadata) (metadata : Metadata) : Prop :=
  platform.isObject metadata = true ∧
    ∃ text, Utf8.wellFormed text = true ∧ platform.parse text = some metadata

theorem ensures_metadata : Ensures (readMetadata platform) (MetadataRead platform) := by
  constructor
  intro input metadata rest hrun
  rw [readMetadata] at hrun
  simp only at hrun
  cases hread : readStrictString.run input with
  | error error =>
    rw [hread] at hrun
    cases hrun
  | ok result =>
    obtain ⟨text, left⟩ := result
    have hwell := ensures_strictString.of_run input text left hread
    rw [hread] at hrun
    simp only at hrun
    cases hparse : platform.parse text with
    | none =>
      rw [hparse] at hrun
      cases hrun
    | some parsed =>
      rw [hparse] at hrun
      simp only at hrun
      split at hrun
      · next hobject =>
          cases hrun
          exact ⟨hobject, text, hwell, hparse⟩
      · cases hrun

structure ColumnsRead (platform : Platform Metadata) (columns : PackedColumns Metadata) :
    Prop where
  count : columns.count ≤ egw4MaxEvents
  tiles : Tiles 0 columns.idRuns columns.count
  idRuns : ∃ strings, StringsValid strings ∧ ∀ run ∈ columns.idRuns, run.Readable strings
  overrides : OverridesValid columns.count 0 columns.overrides
  edges : EdgesFit (columns.count - 1 : Nat) columns.overrides
  lengths : columns.operationLengths.length = columns.count ∧
    ∀ length ∈ columns.operationLengths, length ≤ maxSafeInteger
  operations : OperationsRead 0 columns.operationLengths columns.operations
    columns.insertedContent.length
  wellFormed : Utf8.wellFormed columns.insertedContent = true
  inserts : checkInserts columns.insertedContent 0
    (columns.operations.zip columns.operationLengths) = .ok ()
  timestamps : ValuesRead columns.count columns.timestamps
  metadata : MetadataRead platform columns.metadata

theorem ensures_columns (maxEvents : Option Nat) :
    Ensures (readColumns platform maxEvents) (ColumnsRead platform) := by
  apply (Ensures.trivial readVarint).bind
  intro magicLength _
  apply (Ensures.trivial (readByteView magicLength)).bind
  intro magic _
  apply Ensures.require
  intro _
  apply (Ensures.trivial readVarint).bind
  intro count _
  apply Ensures.require
  intro hcount
  apply Ensures.require
  intro _
  apply ensures_strings.bind
  intro strings hstrings
  apply (ensures_idRuns strings count).bind
  intro idRuns hruns
  apply (ensures_parentOverrides (of_decide_eq_true hcount)).bind
  intro overrides hoverrides
  apply (ensures_lengths count).bind
  intro lengths hlengths
  apply (ensures_operations lengths).bind
  intro operations hoperations
  apply (ensures_insertedContent operations.1 operations.2 lengths).bind
  intro content hcontent
  apply (ensures_timestamps count).bind
  intro timestamps htimestamps
  apply ensures_metadata.bind
  intro metadata hmetadata
  apply (Ensures.trivial remaining).bind
  intro rest _
  apply Ensures.require
  intro _
  apply Ensures.pure
  rw [← hcontent.1] at hoperations
  exact ⟨of_decide_eq_true hcount, hruns.1, ⟨strings, hstrings, hruns.2⟩, hoverrides.1,
    hoverrides.2, hlengths, hoperations, hcontent.2.1, hcontent.2.2, htimestamps, hmetadata⟩

theorem decodeEgw4GraphSteps_eq_ok {bytes : List Byte} {maxEvents : Option Nat}
    {graph : PackedGraph Metadata} (h : decodeEgw4GraphSteps platform bytes maxEvents = .ok graph) :
    ColumnsRead platform graph.columns ∧ buildGraph graph.columns = .ok graph := by
  rw [decodeEgw4GraphSteps] at h
  cases hchecksum : verifyChecksum bytes with
  | error error =>
    rw [hchecksum] at h
    cases h
  | ok payload =>
    rw [hchecksum] at h
    simp only at h
    cases hread : (readColumns platform maxEvents).run payload with
    | error error =>
      rw [hread] at h
      cases h
    | ok result =>
      obtain ⟨columns, rest⟩ := result
      rw [hread] at h
      have hcolumns := (ensures_columns maxEvents).of_run payload columns rest hread
      have hgraph : graph.columns = columns := by
        simp only [buildGraph] at h
        split at h
        · cases h
        · split at h
          · cases h
          · cases h
            rfl
      rw [hgraph]
      exact ⟨hcolumns, h⟩

end Columns

end Softmaple.Codec
