import Softmaple.Replay.ReplayDocuments

/-!
A replay that joins edits against one that applies each: the text with the pending edit is the text
that the other one has.
-/
namespace Softmaple.Replay

open ExceptAgreement (Agree)
open Rope (Represents)

variable {γ : Type} {textOf : γ → Text}

inductive Mirrors (textOf : γ → Text) : LinearReplay γ → Text → Prop where
  | intro {document : ReplayDocument} {pending : PendingEdit γ} {base : Text}
      (hdocument : Holds document base) (hwell : Utf8.wellFormed base = true)
      (hpending : PendingOk textOf base pending) :
      Mirrors textOf ⟨document, pending⟩ (pending.applied textOf base)

theorem mirrors_start {document : ReplayDocument} {text : Text} (h : Holds document text)
    (hwell : Utf8.wellFormed text = true) : Mirrors textOf ⟨document, .none⟩ text :=
  @Mirrors.intro γ textOf document .none text h hwell trivial

section Steps

variable {replay : LinearReplay γ} {text : Text}

theorem Mirrors.flush (h : Mirrors textOf replay text) :
    Agree AnyError (fun flushed text => Holds flushed.document text ∧ Utf8.wellFormed text = true)
      (replay.flush textOf) (.ok text) := by
  cases h with
  | @intro document pending base hdocument hwell hpending =>
    have hresult := hpending.wellFormed hwell
    cases pending with
    | none => exact .ok ⟨hdocument, hwell⟩
    | insert index length content =>
      exact (hdocument.insert hpending.2.2.2.1 (textOf content)).map_ok fun _ hnext =>
        ⟨hnext, hresult⟩
    | delete index length =>
      exact (hdocument.delete hpending.2.1).map_ok fun _ hnext => ⟨hnext, hresult⟩

def Checks (text : Text) (operation : ExternalOperation)
    (check : ReplayDocument → Except ReplayError Unit) : Prop :=
  ∀ document, Holds document text → (check document = .ok () ↔ Admits text operation)

theorem Mirrors.begin (h : Mirrors textOf replay text) {operation : ExternalOperation}
    {check : ReplayDocument → Except ReplayError Unit} {pending : PendingEdit γ}
    (hcheck : Checks text operation check) (hpending : Admits text operation → PendingOk textOf text pending)
    (happlied : pending.applied textOf text = operation.applyTo text) :
    Agree AnyError (Mirrors textOf) (replay.begin textOf check pending) (applyPlain text operation) := by
  refine h.flush.bind_ok fun flushed hflushed => ?_
  refine agree_checked (hcheck _ hflushed.1) fun hadmits => ?_
  rw [← happlied]
  exact .intro hflushed.1 hflushed.2 (hpending hadmits)

theorem Mirrors.delete (h : Mirrors textOf replay text) {index length : Nat}
    {check : Nat → Nat → ReplayDocument → Except ReplayError Unit} (hlength : 0 < length)
    (hcheck : Checks text (.delete index length) (check index length)) :
    Agree AnyError (Mirrors textOf) (replay.delete textOf check index length)
      (applyPlain text (.delete index length)) := by
  have hbegin : Agree AnyError (Mirrors textOf)
      (replay.begin textOf (check index length) (.delete index length))
      (applyPlain text (.delete index length)) :=
    h.begin hcheck (fun hadmits => ⟨hlength, hadmits (Nat.ne_of_gt hlength)⟩) rfl
  cases h with
  | @intro document pending base hdocument hwell hpending =>
    rw [LinearReplay.delete]
    cases pending with
    | none => exact hbegin
    | insert pendingIndex pendingLength content => exact hbegin
    | delete pendingIndex pendingLength =>
      obtain ⟨hsome, hend, hstart, hstop⟩ := hpending
      dsimp only
      split
      · next hsame =>
          subst hsame
          obtain ⟨hadmits, hdeleted⟩ := join_delete hwell hsome hend hstart hstop hlength
          rw [hdocument.length_eq]
          split
          · next hbeyond =>
              rw [applyPlain, if_neg fun h => by have := (hadmits.mp h).1; omega]
              exact .error trivial
          · next hwithin =>
              refine agree_checked (hdocument.boundary.trans ⟨fun hcut => hadmits.mpr ⟨by omega, hcut⟩,
                fun h => (hadmits.mp h).2⟩) fun h => ?_
              rw [PendingEdit.applied, ExternalOperation.applyTo, hdeleted]
              exact .intro hdocument hwell ⟨by omega, by omega, hstart, (hadmits.mp h).2⟩
      · split
        · next hbefore =>
            subst hbefore
            obtain ⟨hadmits, hdeleted⟩ := join_backspace hwell hsome hend hstart hstop hlength
            refine agree_checked (hdocument.boundary.trans hadmits.symm) fun h => ?_
            rw [PendingEdit.applied, ExternalOperation.applyTo, hdeleted]
            refine .intro hdocument hwell ⟨by omega, by omega, hadmits.mp h, ?_⟩
            rwa [Nat.add_comm pendingLength, ← Nat.add_assoc]
        · exact hbegin

theorem applyPlain_typed {base content : Text} {index : Nat} (hwell : Utf8.wellFormed base = true)
    (hindex : index ≤ base.length) (hcut : base.splitsScalar index = false)
    (hcontent : Utf8.wellFormed content = true) (typed : Text) :
    applyPlain (base.splice index content) (.insert (index + content.length) typed) =
      .ok (base.splice index (content ++ typed)) := by
  obtain ⟨hadmits, hsame⟩ := join_insert hwell hindex hcut hcontent typed
  rw [applyPlain, if_pos hadmits, ExternalOperation.applyTo, hsame]

end Steps

section Packed

variable {packed : PackedLinearReplayView} {replay : LinearReplay ContentRange} {text : Text}
  {offset : Nat}

theorem PackedLinearReplayView.validOperation (h : offset < packed.count) :
    ValidOperation (packed.operationAt offset) := by
  rw [operationAt]
  split
  · next hinsert => exact ⟨packed.index_safe offset h, packed.insert_wellFormed offset h hinsert⟩
  · exact ⟨packed.index_safe offset h, packed.length_safe offset h⟩

theorem length_contentText {contentStart length : Nat}
    (hwithin : contentStart + length ≤ packed.insertedContent.length) :
    (contentText packed ⟨contentStart, contentStart + length⟩).length = length := by
  rw [contentText, PackedLinearReplayView.sliceInsertedContent, Rope.length_sliceText _ hwithin,
    Nat.add_sub_cancel_left]

theorem contentText_join {content : ContentRange} {length : Nat}
    (hsome : 0 < (contentText packed content).length)
    (hend : content.stop + length ≤ packed.insertedContent.length) :
    contentText packed ⟨content.start, content.stop + length⟩ =
      contentText packed content ++ contentText packed ⟨content.stop, content.stop + length⟩ := by
  rw [contentText, PackedLinearReplayView.sliceInsertedContent,
    Rope.length_sliceText _ (by omega)] at hsome
  have hstart : content.start ≤ content.stop := by omega
  exact (Rope.sliceText_join packed.insertedContent hstart (Nat.le_add_right _ _) hend).symm

theorem PackedLinearReplayView.not_changes (h : offset < packed.count)
    (hlength : packed.operationLengthAt offset = 0) : ¬ Changes (packed.operationAt offset) := by
  rw [operationAt]
  split
  · next hinsert =>
      have hslice := length_contentText (packed.insert_within offset h hinsert)
      rw [hlength] at hslice ⊢
      exact not_not.mpr (List.eq_nil_of_length_eq_zero hslice)
  · exact not_not.mpr hlength

theorem Mirrors.insertEvent (h : Mirrors (contentText packed) replay text) {index length contentStart : Nat}
    (hsafe : isSafeInteger index = true) (hlength : 0 < length)
    (hwithin : contentStart + length ≤ packed.insertedContent.length)
    (hwell : Utf8.wellFormed (contentText packed ⟨contentStart, contentStart + length⟩) = true) :
    Agree AnyError (Mirrors (contentText packed))
      (PackedLinearReplay.insertEvent packed replay index length contentStart)
      (applyPlain text (.insert index (contentText packed ⟨contentStart, contentStart + length⟩))) := by
  have hslice := length_contentText hwithin
  have hsome : contentText packed ⟨contentStart, contentStart + length⟩ ≠ [] := by
    apply List.ne_nil_of_length_pos
    rwa [hslice]
  have hcheck : Checks text (.insert index (contentText packed ⟨contentStart, contentStart + length⟩))
      (checkInsert index) := fun document hdocument => (hdocument.checkInsert_iff hsafe).trans
    ⟨fun hadmits _ => hadmits, fun hadmits => hadmits hsome⟩
  have hbegin : Agree AnyError (Mirrors (contentText packed))
      (replay.begin (contentText packed) (checkInsert index)
        (.insert index length ⟨contentStart, contentStart + length⟩))
      (applyPlain text (.insert index (contentText packed ⟨contentStart, contentStart + length⟩))) :=
    h.begin hcheck (fun hadmits => ⟨hslice, hlength, hwell, hadmits hsome⟩) rfl
  cases h with
  | @intro document pending base hdocument hbase hpending =>
    rw [PackedLinearReplay.insertEvent]
    cases pending with
    | none => exact hbegin
    | delete pendingIndex pendingLength => exact hbegin
    | insert pendingIndex pendingLength content =>
      dsimp only
      split
      · next hjoins =>
          obtain ⟨hcontentLength, hcontentPos, hcontent, hindex, hcut⟩ := hpending
          obtain ⟨rfl, rfl⟩ := hjoins
          have hjoined := contentText_join (by rwa [hcontentLength]) hwithin
          rw [PendingEdit.applied, ← hcontentLength, applyPlain_typed hbase hindex hcut hcontent,
            ← hjoined, hcontentLength]
          refine .ok (.intro hdocument hbase ⟨?_, by omega, ?_, hindex, hcut⟩)
          · rw [hjoined, List.length_append, hcontentLength, hslice]
          · rw [hjoined, Utf8.wellFormed_append hcontent, hwell]
      · exact hbegin

theorem Mirrors.packedEvent (h : Mirrors (contentText packed) replay text) (hoffset : offset < packed.count) :
    Agree AnyError (Mirrors (contentText packed)) (PackedLinearReplay.event packed replay offset)
      (applyPlain text (packed.operationAt offset)) := by
  rw [PackedLinearReplay.event]
  dsimp only
  split
  · next hlength =>
      rw [applyPlain_unchanged (packed.not_changes hoffset hlength)]
      exact .ok h
  · next hlength =>
      split
      · next hinsert =>
          rw [PackedLinearReplayView.operationAt, if_pos hinsert]
          exact h.insertEvent (packed.index_safe offset hoffset) (Nat.pos_of_ne_zero hlength)
            (packed.insert_within offset hoffset hinsert)
            (packed.insert_wellFormed offset hoffset hinsert)
      · next hdelete =>
          have hoperation : packed.operationAt offset =
              .delete (packed.operationIndexAt offset) (packed.operationLengthAt offset) := by
            rw [PackedLinearReplayView.operationAt, if_neg hdelete]
          rw [hoperation]
          have hpos := Nat.pos_of_ne_zero hlength
          refine h.delete hpos fun document hdocument =>
            (hdocument.checkDelete_iff (packed.index_safe offset hoffset) hpos).trans ?_
          exact ⟨fun hadmits _ => hadmits, fun hadmits => hadmits hlength⟩

end Packed

section Coalesced

variable {replay : CoalescedLinearReplay} {text : Text}

theorem checkCoalesced_iff {operation : ExternalOperation} (hvalid : ValidOperation operation) :
    Checks text operation (checkCoalesced operation) := by
  intro document hdocument
  have hvalidate := hdocument.validate hvalid
  rw [checkCoalesced]
  cases hresult : validateLocalOperation document operation with
  | error failure =>
    rw [hresult, applyPlain] at hvalidate
    refine ⟨(by rintro ⟨⟩), fun hadmits => ?_⟩
    rw [if_pos hadmits] at hvalidate
    cases hvalidate
  | ok checked =>
    rw [hresult, applyPlain] at hvalidate
    refine ⟨fun _ => ?_, fun _ => rfl⟩
    by_contra hrefused
    rw [if_neg hrefused] at hvalidate
    cases hvalidate

theorem Mirrors.coalesceInsert (h : Mirrors List.flatten replay text) {index : Nat} {content : Text}
    (hvalid : ValidOperation (.insert index content)) (hsome : content ≠ []) :
    Agree AnyError (Mirrors List.flatten) (coalesceInsert replay index content.length content)
      (applyPlain text (.insert index content)) := by
  have hpos : 0 < content.length := List.length_pos_iff.mpr hsome
  have hsingle : [content].flatten = content := List.append_nil content
  have hbegin : Agree AnyError (Mirrors List.flatten)
      (replay.begin List.flatten (checkCoalesced (.insert index content))
        (.insert index content.length [content]))
      (applyPlain text (.insert index content)) :=
    h.begin (checkCoalesced_iff hvalid)
      (fun hadmits => ⟨by rw [hsingle], hpos, by rw [hsingle]; exact hvalid.2, hadmits hsome⟩)
      (by rw [PendingEdit.applied, hsingle]; rfl)
  cases h with
  | @intro document pending base hdocument hbase hpending =>
    rw [Replay.coalesceInsert]
    cases pending with
    | none => exact hbegin
    | delete pendingIndex pendingLength => exact hbegin
    | insert pendingIndex pendingLength parts =>
      dsimp only
      split
      · next hplace =>
          obtain ⟨hpartsLength, hpartsPos, hparts, hindex, hcut⟩ := hpending
          have hjoined : (parts ++ [content]).flatten = parts.flatten ++ content := by
            rw [List.flatten_append, hsingle]
          rw [hplace, PendingEdit.applied, ← hpartsLength,
            applyPlain_typed hbase hindex hcut hparts, ← hjoined, hpartsLength]
          refine .ok (.intro hdocument hbase ⟨?_, by omega, ?_, hindex, hcut⟩)
          · rw [hjoined, List.length_append, hpartsLength]
          · rw [hjoined, Utf8.wellFormed_append hparts, hvalid.2]
      · exact hbegin

theorem Mirrors.chainEvent (h : Mirrors List.flatten replay text) {operation : ExternalOperation}
    (hvalid : ValidOperation operation) : Agree AnyError (Mirrors List.flatten)
      (chainEvent replay operation) (applyPlain text operation) := by
  by_cases hchanges : Changes operation
  · cases operation with
    | insert index inserted =>
      rw [Replay.chainEvent, if_neg hchanges]
      exact h.coalesceInsert hvalid hchanges
    | delete index length =>
      rw [Replay.chainEvent, if_neg hchanges, coalesceDelete]
      exact h.delete (Nat.pos_of_ne_zero hchanges) (checkCoalesced_iff hvalid)
  · rw [applyPlain_unchanged hchanges]
    cases operation with
    | insert index inserted =>
      rw [Replay.chainEvent, if_pos (not_not.mp hchanges)]
      exact .ok h
    | delete index length =>
      rw [Replay.chainEvent, if_pos (not_not.mp hchanges)]
      exact .ok h

theorem coalesceEvent_eq {plan : PackedLinearReplayView} {orderIndex : Nat}
    (h : orderIndex < plan.count) :
    coalesceEvent plan replay orderIndex = chainEvent replay (plan.operationAt orderIndex) := by
  rw [coalesceEvent, PackedLinearReplayView.operationAt]
  dsimp only
  cases hinsert : plan.isInsertAt orderIndex with
  | true =>
    have hslice : (plan.sliceInsertedContent (plan.insertStartAt orderIndex)
        (plan.insertStartAt orderIndex + plan.operationLengthAt orderIndex)).length =
        plan.operationLengthAt orderIndex :=
      length_contentText (plan.insert_within orderIndex h hinsert)
    rw [if_pos rfl, if_pos rfl, Replay.chainEvent, hslice]
    by_cases hlength : plan.operationLengthAt orderIndex = 0
    · rw [hlength] at hslice
      rw [if_pos hlength, hlength, if_pos (List.eq_nil_of_length_eq_zero hslice)]
    · rw [if_neg hlength, if_neg fun hempty => hlength (by rw [← hslice, hempty]; rfl)]
  | false => rw [if_neg Bool.false_ne_true, if_neg Bool.false_ne_true, Replay.chainEvent]

end Coalesced

end Softmaple.Replay

namespace Softmaple.Replay

open ExceptAgreement (Agree)
open Rope (Represents PersistentUtf16Rope)

section Steps

theorem mem_offsets {start stop offset : Nat} :
    offset ∈ offsets start stop ↔ start ≤ offset ∧ offset < stop := by
  rw [offsets, List.mem_range'_1]
  omega

theorem offsets_append {start middle stop : Nat} (hfirst : start ≤ middle) (hlast : middle ≤ stop) :
    offsets start stop = offsets start middle ++ offsets middle stop := by
  obtain ⟨first, rfl⟩ := Nat.exists_eq_add_of_le hfirst
  obtain ⟨last, rfl⟩ := Nat.exists_eq_add_of_le hlast
  rw [offsets, offsets, offsets, Nat.add_sub_cancel_left, Nat.add_sub_cancel_left, Nat.add_assoc,
    Nat.add_sub_cancel_left]
  exact (List.range'_append_1).symm

theorem advance_chunks (packed : PackedLinearReplayView) {replay : LinearReplay ContentRange}
    {offset endOffset : Nat} (hle : offset ≤ endOffset) {chunks : List Nat}
    (hchunks : endOffset ≤ offset + chunks.sum) :
    chunks.foldlM (PackedLinearReplay.advance packed) ⟨replay, offset, endOffset⟩ =
      (⟨·, endOffset, endOffset⟩) <$>
        (offsets offset endOffset).foldlM (PackedLinearReplay.event packed) replay := by
  induction chunks generalizing replay offset with
  | nil =>
    obtain rfl : offset = endOffset := Nat.le_antisymm hle hchunks
    rw [offsets, Nat.sub_self]
    rfl
  | cons maxEvents chunks ih =>
    rw [List.sum_cons] at hchunks
    have hstep : offset ≤ min endOffset (offset + maxEvents) := by omega
    have hcover : endOffset ≤ min endOffset (offset + maxEvents) + chunks.sum := by omega
    rw [List.foldlM_cons, PackedLinearReplay.advance, bind_map_left,
      offsets_append hstep (Nat.min_le_left endOffset (offset + maxEvents)), List.foldlM_append,
      map_bind]
    congr 1
    funext next
    rw [Nat.max_eq_right hstep]
    exact ih (Nat.min_le_left _ _) hcover

theorem coalescedSteps_chunks (plan : PackedLinearReplayView) {replay : CoalescedLinearReplay}
    {start stop : Nat} (hle : start ≤ stop) {chunks : List Nat} (hchunks : stop ≤ start + chunks.sum) :
    replayCoalescedSteps plan stop replay start chunks =
      replayCoalescedPackedLinearRange plan replay start stop := by
  induction chunks generalizing replay start with
  | nil =>
    obtain rfl : start = stop := Nat.le_antisymm hle hchunks
    rw [replayCoalescedSteps, replayCoalescedPackedLinearRange, offsets, Nat.sub_self]
    rfl
  | cons chunkEvents chunks ih =>
    rw [List.sum_cons] at hchunks
    have hstep : start ≤ min stop (start + chunkEvents) := by omega
    have hcover : stop ≤ min stop (start + chunkEvents) + chunks.sum := by omega
    rw [replayCoalescedSteps, replayCoalescedPackedLinearRange, replayCoalescedPackedLinearRange,
      offsets_append hstep (Nat.min_le_left stop (start + chunkEvents)), List.foldlM_append]
    congr 1
    funext next
    exact ih (Nat.min_le_left _ _) hcover

end Steps

/-- One operation at a time, to the rope of the last document. -/
def replayedRope (operationAt : Nat → ExternalOperation) (start stop : Nat)
    (document : PersistentUtf16Rope) : Except ReplayError PersistentUtf16Rope := do
  let edited ← replayOneAtATime operationAt start stop (.persistent document)
  edited.finish

/-- Both fail, or both give ropes of one text. -/
def SameOutcome (first second : Except ReplayError PersistentUtf16Rope) : Prop :=
  Agree (fun _ _ => True) (fun rope other => rope.toText = other.toText) first second

section Runs

variable {rope : PersistentUtf16Rope} {text : Text} {start stop : Nat}

def replayPlain (operationAt : Nat → ExternalOperation) (start stop : Nat) (text : Text) :
    Except Unit Text :=
  (offsets start stop).foldlM (fun text rank => applyPlain text (operationAt rank)) text

variable {operationAt : Nat → ExternalOperation}

theorem Holds.replayOneAtATime {document : ReplayDocument} (h : Holds document text)
    (hvalid : ∀ rank, start ≤ rank → rank < stop → ValidOperation (operationAt rank)) :
    Agree AnyError Represents (replayOneAtATime operationAt start stop document >>= (·.finish))
      (replayPlain operationAt start stop text) := by
  have hrun : Agree AnyError Holds (Replay.replayOneAtATime operationAt start stop document)
      (replayPlain operationAt start stop text) := by
    refine Agree.foldlM _ (fun rank hrank document text hdocument => ?_) h
    obtain ⟨hlow, hhigh⟩ := mem_offsets.mp hrank
    exact hdocument.apply (hvalid rank hlow hhigh)
  rw [← bind_pure (replayPlain operationAt start stop text)]
  exact hrun.bind fun document text hdocument => hdocument.finish

theorem Mirrors.finish {γ : Type} {textOf : γ → Text} {replay : LinearReplay γ}
    (h : Mirrors textOf replay text) :
    Agree AnyError Represents (replay.flush textOf >>= fun flushed => flushed.document.finish)
      (.ok text) :=
  h.flush.bind_ok fun _ hflushed => hflushed.1.finish

section

variable (hrope : Represents rope text)
include hrope

theorem same_outcome {result : Except ReplayError PersistentUtf16Rope}
    (hvalid : ∀ rank, start ≤ rank → rank < stop → ValidOperation (operationAt rank))
    (h : Agree AnyError Represents result (replayPlain operationAt start stop text)) :
    SameOutcome result (replayedRope operationAt start stop rope) :=
  h.join ((Holds.persistent hrope).replayOneAtATime hvalid) (fun _ _ _ _ _ => trivial)
    fun _ _ _ hfirst hsecond => hfirst.toText.trans hsecond.toText.symm

theorem packed_agrees (hwell : Utf8.wellFormed text = true)
    (packed : PackedLinearReplayView) (hle : start ≤ stop) (hstop : stop ≤ packed.count)
    {chunks : List Nat} (hchunks : stop ≤ start + chunks.sum) :
    Agree AnyError Represents (replayPackedLinear packed rope stop start chunks)
      (replayPlain packed.operationAt start stop text) := by
  have hstart : Mirrors (contentText packed) (PackedLinearReplay.start rope stop start).replay text := by
    rw [PackedLinearReplay.start]
    dsimp only
    split
    · exact mirrors_start (.startDocument hrope) hwell
    · exact mirrors_start (.persistent hrope) hwell
  have hrun : Agree AnyError (Mirrors (contentText packed))
      ((offsets start stop).foldlM (PackedLinearReplay.event packed)
        (PackedLinearReplay.start rope stop start).replay)
      (replayPlain packed.operationAt start stop text) := by
    refine Agree.foldlM _ (fun offset hoffset replay text h => ?_) hstart
    exact h.packedEvent (by have := (mem_offsets.mp hoffset).2; omega)
  have hchunked : chunks.foldlM (PackedLinearReplay.advance packed) (.start rope stop start) = _ :=
    advance_chunks packed hle hchunks
  rw [replayPackedLinear, hchunked, bind_map_left,
    ← bind_pure (replayPlain packed.operationAt start stop text)]
  refine hrun.bind fun replay text h => ?_
  rw [PackedLinearReplay.finish, if_pos (Nat.le_refl stop)]
  exact h.finish

theorem coalesced_agrees (hwell : Utf8.wellFormed text = true)
    (plan : PackedLinearReplayView) (hle : start ≤ stop) (hstop : stop ≤ plan.count)
    {chunks : List Nat} (hchunks : stop ≤ start + chunks.sum) :
    Agree AnyError Represents (replayCoalescedSections plan rope start stop chunks)
      (replayPlain plan.operationAt start stop text) := by
  have hstart : Mirrors List.flatten ⟨.transient (.start rope), .none⟩ text :=
    mirrors_start (.startDocument hrope) hwell
  have hrun : Agree AnyError (Mirrors List.flatten)
      (replayCoalescedPackedLinearRange plan ⟨.transient (.start rope), .none⟩ start stop)
      (replayPlain plan.operationAt start stop text) := by
    refine Agree.foldlM _ (fun offset hoffset replay text h => ?_) hstart
    have hlt : offset < plan.count := by have := (mem_offsets.mp hoffset).2; omega
    rw [coalesceEvent_eq hlt]
    exact h.chainEvent (plan.validOperation hlt)
  rw [replayCoalescedSections, coalescedSteps_chunks plan hle hchunks,
    ← bind_pure (replayPlain plan.operationAt start stop text)]
  exact hrun.bind fun replay text h => h.finish

theorem chain_agrees (hwell : Utf8.wellFormed text = true)
    (hvalid : ∀ rank, start ≤ rank → rank < stop → ValidOperation (operationAt rank)) :
    Agree AnyError Represents (replayChain operationAt start stop rope)
      (replayPlain operationAt start stop text) := by
  rw [replayChain]
  split
  · exact (Holds.startDocument hrope).replayOneAtATime hvalid
  · have hstart : Mirrors List.flatten ⟨.persistent rope, .none⟩ text :=
      mirrors_start (.persistent hrope) hwell
    have hrun : Agree AnyError (Mirrors List.flatten)
        ((offsets start stop).foldlM (fun replay rank => chainEvent replay (operationAt rank))
          ⟨.persistent rope, .none⟩)
        (replayPlain operationAt start stop text) := by
      refine Agree.foldlM _ (fun rank hrank replay text h => ?_) hstart
      obtain ⟨hlow, hhigh⟩ := mem_offsets.mp hrank
      exact h.chainEvent (hvalid rank hlow hhigh)
    rw [← bind_pure (replayPlain operationAt start stop text)]
    exact hrun.bind fun replay text h => h.finish

end

end Runs

theorem coalesced_replay_eq_one_at_a_time {rope : PersistentUtf16Rope} {text : Text}
    (hrope : Represents rope text) (hwell : Utf8.wellFormed text = true) {start stop : Nat}
    (hle : start ≤ stop) {chunks : List Nat} (hchunks : stop ≤ start + chunks.sum) :
    (∀ packed : PackedLinearReplayView, stop ≤ packed.count →
      SameOutcome (replayPackedLinear packed rope stop start chunks)
        (replayedRope packed.operationAt start stop rope) ∧
      SameOutcome (replayCoalescedSections packed rope start stop chunks)
        (replayedRope packed.operationAt start stop rope)) ∧
    ∀ operationAt : Nat → ExternalOperation,
      (∀ rank, start ≤ rank → rank < stop → ValidOperation (operationAt rank)) →
      SameOutcome (replayChain operationAt start stop rope)
        (replayedRope operationAt start stop rope) := by
  refine ⟨fun packed hstop => ?_, fun operationAt hvalid =>
    same_outcome hrope hvalid (chain_agrees hrope hwell hvalid)⟩
  have hvalid : ∀ rank, start ≤ rank → rank < stop → ValidOperation (packed.operationAt rank) :=
    fun rank _ hhigh => packed.validOperation (by omega)
  exact ⟨same_outcome hrope hvalid (packed_agrees hrope hwell packed hle hstop hchunks),
    same_outcome hrope hvalid (coalesced_agrees hrope hwell packed hle hstop hchunks)⟩

/-- Two typed characters, and a delete before them. -/
def typedAndDeleted : PackedLinearReplayView where
  count := 3
  isInsertAt offset := decide (offset < 2)
  operationIndexAt offset := [2, 3, 0].getD offset 0
  operationLengthAt _ := 1
  insertStartAt offset := offset
  insertedContent := [99, 100]
  index_safe := by decide
  length_safe := by decide
  insert_within := by decide
  insert_wellFormed := by decide

theorem typedAndDeleted_replays :
    (SameOutcome (replayPackedLinear typedAndDeleted (.ofText [97, 98]) 3 0 [2, 1])
        (replayedRope typedAndDeleted.operationAt 0 3 (.ofText [97, 98])) ∧
      SameOutcome (replayCoalescedSections typedAndDeleted (.ofText [97, 98]) 0 3 [2, 1])
        (replayedRope typedAndDeleted.operationAt 0 3 (.ofText [97, 98]))) ∧
    SameOutcome (replayChain typedAndDeleted.operationAt 0 3 (.ofText [97, 98]))
      (replayedRope typedAndDeleted.operationAt 0 3 (.ofText [97, 98])) := by
  have hreplay := @coalesced_replay_eq_one_at_a_time (.ofText [97, 98]) [97, 98]
    (Rope.ofText_represents [97, 98]) (by decide) 0 3 (by decide) [2, 1] (by decide)
  exact ⟨hreplay.1 typedAndDeleted le_rfl,
    hreplay.2 typedAndDeleted.operationAt fun _ _ => typedAndDeleted.validOperation⟩

end Softmaple.Replay
