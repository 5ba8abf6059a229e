import Softmaple.Codec.EncodeEvents
import Softmaple.Codec.Egw4Decoder

/-!
Reading back the strings, the ID runs and the parent overrides that the encoder
writes.
-/
namespace Softmaple.Codec

open ListReader List

theorem map_eq_ok {ε α β : Type} {f : α → β} {result : Except ε α} {b : β} :
    result.map f = .ok b ↔ ∃ a, result = .ok a ∧ f a = b := by
  cases result with
  | error error => simp [Except.map]
  | ok a => simp [Except.map]

variable {bytes : List Byte}

theorem concat_cons_eq_ok {part : Written} {rest : List Written} :
    concat (part :: rest) = .ok bytes ↔ ∃ first more, part = .ok first ∧
      concat rest = .ok more ∧ bytes = first ++ more := by
  cases part with
  | error error => simp [concat]
  | ok first =>
    rw [concat]
    cases concat rest with
    | error error => simp [Except.map]
    | ok more => simp [Except.map, eq_comm]

theorem concat_append_eq_ok {parts more : List Written} :
    concat (parts ++ more) = .ok bytes ↔ ∃ first second, concat parts = .ok first ∧
      concat more = .ok second ∧ bytes = first ++ second := by
  induction parts generalizing bytes with
  | nil => simp [concat]
  | cons part rest ih =>
    rw [cons_append, concat_cons_eq_ok]
    constructor
    · intro h
      obtain ⟨first, tail, hpart, htail, rfl⟩ := h
      obtain ⟨second, third, hrest, hmore, rfl⟩ := ih.mp htail
      exact ⟨first ++ second, third, concat_cons_eq_ok.mpr ⟨first, second, hpart, hrest, rfl⟩,
        hmore, (append_assoc _ _ _).symm⟩
    · intro h
      obtain ⟨left, third, hleft, hmore, rfl⟩ := h
      obtain ⟨first, second, hpart, hrest, rfl⟩ := concat_cons_eq_ok.mp hleft
      exact ⟨first, second ++ third, hpart, ih.mpr ⟨second, third, hrest, hmore, rfl⟩,
        append_assoc _ _ _⟩

theorem length_le_concat {parts : List Written} (h : concat parts = .ok bytes)
    (hpos : ∀ own, .ok own ∈ parts → 0 < own.length) : parts.length ≤ bytes.length := by
  induction parts generalizing bytes with
  | nil => exact Nat.zero_le _
  | cons part rest ih =>
    obtain ⟨first, more, hfirst, hmore, rfl⟩ := concat_cons_eq_ok.mp h
    have hown := hpos first (by rw [hfirst]; exact mem_cons_self)
    have hrest := ih hmore fun own hmem => hpos own (mem_cons_of_mem _ hmem)
    rw [length_cons, length_append]
    omega

theorem length_le_concat_varints {values : List Nat}
    (h : concat (values.map writeVarint) = .ok bytes) : values.length ≤ bytes.length := by
  have hle : (values.map writeVarint).length ≤ bytes.length := by
    apply length_le_concat h
    intro own hmem
    obtain ⟨value, -, hvalue⟩ := mem_map.mp hmem
    rw [(writeVarint_eq_ok.mp hvalue).2]
    exact varintBytes_pos _ _
  rwa [length_map] at hle

theorem length_le_concat_zigZags {values : List Int}
    (h : concat (values.map writeZigZagVarint) = .ok bytes) : values.length ≤ bytes.length := by
  have hle : (values.map writeZigZagVarint).length ≤ bytes.length := by
    apply length_le_concat h
    intro own hmem
    obtain ⟨value, -, hvalue⟩ := mem_map.mp hmem
    rw [(writeZigZagVarint_eq_ok.mp hvalue).2]
    exact varintBytes_pos _ _
  rwa [length_map] at hle

theorem reads_writeVarint {value : Nat} (h : writeVarint value = .ok bytes) :
    Reads readVarint bytes value := by
  obtain ⟨hsafe, rfl⟩ := writeVarint_eq_ok.mp h
  exact reads_varint hsafe

theorem reads_writeZigZagVarint {value : Int}
    (h : writeZigZagVarint value = .ok bytes) : Reads readZigZagVarint bytes value := by
  obtain ⟨hrange, rfl⟩ := writeZigZagVarint_eq_ok.mp h
  exact reads_zigZagVarint hrange

theorem reads_writeString {string : Text}
    (h : writeString string = .ok bytes) (hwell : Utf8.wellFormed string = true) :
    Reads readStrictString bytes string := by
  obtain ⟨hsafe, rfl⟩ := writeBytes_eq_ok.mp h
  have hdecode : decodeTextStrict (encodeText string) = .ok string := by
    rw [decodeTextStrict, encodeText, Utf8.decode_encode, (Utf8.toWellFormed_eq_iff string).mpr hwell]
  apply (reads_varint hsafe).bind
  have htake : Reads (readByteView (encodeText string).length) (encodeText string)
      (encodeText string) := reads_take _ _
  exact htake.bind_nil (reads_lift hdecode)

theorem reads_stringsLoop {strings done : List Text}
    (h : concat (strings.map writeString) = .ok bytes) (hnodup : (done ++ strings).Nodup)
    (hne : ∀ string ∈ strings, string ≠ [])
    (hwell : ∀ string ∈ strings, Utf8.wellFormed string = true) :
    Reads (readStringsLoop strings.length done) bytes (done ++ strings) := by
  induction strings generalizing done bytes with
  | nil =>
    cases h
    rw [append_nil]
    exact reads_pure done
  | cons string rest ih =>
    obtain ⟨first, more, hfirst, hmore, rfl⟩ := concat_cons_eq_ok.mp h
    obtain ⟨hstring, hrest⟩ := forall_mem_cons.mp hne
    obtain ⟨hstringWell, hrestWell⟩ := forall_mem_cons.mp hwell
    have hnot : string ∉ done := by
      rw [nodup_append] at hnodup
      exact fun hmem => hnodup.2.2 string hmem string mem_cons_self rfl
    rw [append_cons] at hnodup ⊢
    apply (reads_writeString hfirst hstringWell).bind
    apply Reads.require (by simpa using hstring)
    apply Reads.require (by simpa using hnot)
    exact ih hmore hnodup hrest hrestWell

def placeRuns (strings : List Text) : Nat → List IdRunState → List IdRun
  | _, [] => []
  | covered, run :: rest =>
    ⟨strings.getD run.string [], if run.custom then 0 else run.startSequence, covered, run.length,
      run.custom⟩ :: placeRuns strings (covered + run.length) rest

def totalLength (runs : List IdRunState) : Nat := (runs.map (·.length)).sum

theorem totalLength_cons (run : IdRunState) (rest : List IdRunState) :
    totalLength (run :: rest) = run.length + totalLength rest := by
  rw [totalLength, map_cons, sum_cons, totalLength]

theorem reads_idRunsLoop {strings : List Text} {count fuel run covered : Nat}
    {nextSequence : List Nat} {runs : List IdRunState}
    (h : concat (Egw4IdRuns.writeRuns runs nextSequence) = .ok bytes)
    (hshapes : ∀ run ∈ runs, RunShape strings run) (hcount : covered + totalLength runs = count)
    (hfuel : totalLength runs ≤ fuel) :
    Reads (readIdRunsLoop strings count fuel run covered nextSequence) bytes
      (placeRuns strings covered runs) := by
  induction runs generalizing fuel run covered nextSequence bytes with
  | nil =>
    cases h
    simp only [totalLength, map_nil, sum_nil, Nat.add_zero] at hcount
    cases fuel with
    | zero => exact reads_pure []
    | succ fuel =>
      rw [readIdRunsLoop, if_pos (by omega)]
      exact reads_pure []
  | cons state rest ih =>
    obtain ⟨hshape, hrest⟩ := forall_mem_cons.mp hshapes
    have hpos := hshape.length_pos
    rw [totalLength_cons] at hcount hfuel
    have hget : strings[state.string]? = some (strings.getD state.string []) := by
      rw [getElem?_eq_getElem hshape.string_lt, getD_eq_getElem _ _ hshape.string_lt]
    cases fuel with
    | zero => omega
    | succ fuel =>
      rw [Egw4IdRuns.writeRuns] at h
      rw [readIdRunsLoop, if_neg (by omega), placeRuns]
      cases hcustom : state.custom with
      | true =>
        obtain ⟨hone, hparse⟩ := hshape.custom hcustom
        rw [if_pos hcustom] at h
        obtain ⟨first, more, hfirst, hmore, rfl⟩ := concat_cons_eq_ok.mp h
        have hodd : (state.string * 2 + 1) % 2 = 1 := by omega
        have hhalf : (state.string * 2 + 1) / 2 = state.string := by omega
        apply (reads_writeVarint hfirst).bind
        rw [hhalf, hget]
        simp only [hodd, if_true]
        apply Reads.require (by rw [hparse]; rfl)
        rw [hone] at hcount hfuel ⊢
        apply (ih hmore hrest (by omega) (by omega)).bind_nil
        exact reads_pure _
      | false =>
        have hsequence := hshape.sequence hcustom
        rw [if_neg (by simp [hcustom])] at h
        obtain ⟨first, packed, hfirst, hpacked, rfl⟩ := concat_cons_eq_ok.mp h
        obtain ⟨second, tail, hsecond, htail, rfl⟩ := concat_cons_eq_ok.mp hpacked
        obtain ⟨jump, more, hjump, hmore, rfl⟩ := concat_append_eq_ok.mp htail
        have heven : ¬ state.string * 2 % 2 = 1 := by omega
        have hhalf : state.string * 2 / 2 = state.string := by omega
        apply (reads_writeVarint hfirst).bind
        rw [hhalf, hget]
        simp only [heven, if_false]
        apply (reads_writeVarint hsecond).bind
        have hpacked : ∀ jumped : Nat, jumped ≤ 1 →
            (state.length * 2 + jumped) / 2 = state.length := by omega
        have hlength : (decide (state.length ≠ 0) &&
            decide (state.length ≤ count - covered)) = true := by
          simp only [Bool.and_eq_true, decide_eq_true_eq]
          omega
        have hnext : numberAdd state.startSequence state.length =
            state.startSequence + state.length := numberAdd_of_le hsequence
        have hsafe : isSafeInteger (state.startSequence + state.length - 1) = true := by
          rw [isSafeInteger, decide_eq_true_eq]
          omega
        by_cases hjumped : state.startSequence ≠ nextSequence.getD state.string 0
        · have hodd : (state.length * 2 + 1) % 2 = 1 := by omega
          simp only [if_pos hjumped, hpacked 1 (Nat.le_refl 1), hodd, if_true] at hjump ⊢
          apply Reads.require hlength
          obtain ⟨start, none, hstart, hnone, rfl⟩ := concat_cons_eq_ok.mp hjump
          cases hnone
          rw [append_nil]
          apply (reads_writeVarint hstart).bind
          simp only [hnext]
          apply Reads.require hsafe
          apply (ih hmore hrest (by omega) (by omega)).bind_nil
          exact reads_pure _
        · have hnotOdd : ¬ (state.length * 2 + 0) % 2 = 1 := by omega
          have heq : nextSequence.getD state.string 0 = state.startSequence :=
            (not_not.mp hjumped).symm
          simp only [if_neg hjumped, hpacked 0 (Nat.zero_le 1), hnotOdd, if_false] at hjump ⊢
          cases hjump
          apply Reads.require hlength
          rw [heq]
          apply (reads_pure state.startSequence).bind
          simp only [hnext]
          apply Reads.require hsafe
          apply (ih hmore hrest (by omega) (by omega)).bind_nil
          exact reads_pure _

section PlaceRuns

variable {strings : List Text}

theorem placeRuns_ids (covered : Nat) (runs : List IdRunState) :
    (placeRuns strings covered runs).flatMap (·.ids) = runs.flatMap (·.ids strings) := by
  induction runs generalizing covered with
  | nil => rfl
  | cons state rest ih =>
    rw [placeRuns, flatMap_cons, flatMap_cons, ih]
    congr 1
    rw [IdRun.ids, IdRunState.ids]
    cases state.custom with
    | true => rfl
    | false => rfl

theorem placeRuns_tiles (covered : Nat) (runs : List IdRunState) :
    Tiles covered (placeRuns strings covered runs) (covered + totalLength runs) := by
  induction runs generalizing covered with
  | nil => rfl
  | cons state rest ih =>
    rw [placeRuns, totalLength_cons, ← Nat.add_assoc]
    exact ⟨rfl, ih (covered + state.length)⟩

theorem placeRuns_valid {runs : List IdRunState} (hshapes : ∀ run ∈ runs, RunShape strings run)
    (hne : ∀ string ∈ strings, string ≠ []) (covered : Nat) :
    ∀ run ∈ placeRuns strings covered runs, run.Valid := by
  induction runs generalizing covered with
  | nil => simp [placeRuns]
  | cons state rest ih =>
    obtain ⟨hshape, hrest⟩ := forall_mem_cons.mp hshapes
    rw [placeRuns, forall_mem_cons]
    refine ⟨⟨?_, hshape.length_pos, ?_, ?_⟩, ih hrest _⟩
    · apply hne
      rw [getD_eq_getElem _ _ hshape.string_lt]
      exact getElem_mem _
    · intro hcustom
      exact ⟨(hshape.custom hcustom).1, if_pos hcustom, (hshape.custom hcustom).2⟩
    · intro hcustom
      have hsequence := hshape.sequence hcustom
      simp only [show state.custom = false from hcustom, Bool.false_eq_true, if_false]
      exact hsequence

end PlaceRuns

section Overrides

variable {bytes : List Byte}

theorem reads_parents {offset : Nat} {parents : List Nat}
    (h : concat (parents.map fun parent => writeVarint (offset - parent)) = .ok bytes)
    (hlt : ∀ parent ∈ parents, parent < offset) :
    Reads (readParents offset parents.length) bytes parents := by
  induction parents generalizing bytes with
  | nil =>
    cases h
    exact reads_pure []
  | cons parent rest ih =>
    obtain ⟨first, more, hfirst, hmore, rfl⟩ := concat_cons_eq_ok.mp h
    obtain ⟨hparent, hrest⟩ := forall_mem_cons.mp hlt
    apply (reads_writeVarint hfirst).bind
    apply Reads.require
    · simp only [Bool.and_eq_true, decide_eq_true_eq]
      omega
    apply (ih hmore hrest).bind_nil
    rw [Nat.sub_sub_self (by omega)]
    exact reads_pure _

def EdgesFit : Int → List (Nat × List Nat) → Prop
  | _, [] => True
  | edgeCount, (offset, parents) :: rest =>
    edgeCount + parents.length - (if 0 < offset then 1 else 0) ≤ uint32Max ∧
      EdgesFit (edgeCount + parents.length - if 0 < offset then 1 else 0) rest

/-- Overrides as a payload can hold them, from `next` on. -/
structure OverridesValid (count next : Nat) (overrides : List (Nat × List Nat)) : Prop where
  ascending : overrides.Pairwise fun entry other => entry.1 < other.1
  bounds : ∀ entry ∈ overrides, next ≤ entry.1 ∧ entry.1 < count
  parents : ∀ entry ∈ overrides, (∀ parent ∈ entry.2, parent < entry.1) ∧ entry.2.Nodup ∧
    entry.2 ≠ defaultParents entry.1

theorem length_parents_le {offset : Nat} {parents : List Nat}
    (hlt : ∀ parent ∈ parents, parent < offset) (hnodup : parents.Nodup) :
    parents.length ≤ offset := by
  have hsub : parents ⊆ List.range offset := fun parent hparent =>
    mem_range.mpr (hlt parent hparent)
  have hle := (hnodup.subperm hsub).length_le
  rwa [length_range] at hle

theorem reads_override {count next offset : Nat} {edgeCount : Int} {parents : List Nat}
    {header : List Byte} (hle : next ≤ offset) (hlt : offset < count)
    (hheader : concat (if parents.length < egw4ManyParents then
        [writeVarint ((offset - next) * 4 + parents.length)]
      else [writeVarint ((offset - next) * 4 + egw4ManyParents),
        writeVarint (parents.length - egw4ManyParents)]) = .ok header)
    (hparents : concat (parents.map fun parent => writeVarint (offset - parent)) = .ok bytes)
    (hearlier : ∀ parent ∈ parents, parent < offset) (hnodup : parents.Nodup)
    (hdefault : parents ≠ defaultParents offset)
    (hedges : edgeCount + parents.length - (if 0 < offset then 1 else 0) ≤ uint32Max) :
    Reads (readOverride count next edgeCount) (header ++ bytes)
      ((offset, parents), edgeCount + parents.length - if 0 < offset then 1 else 0) := by
  have hcount := length_parents_le hearlier hnodup
  have hmany : egw4ManyParents = 3 := rfl
  have hbytes : parents.length ≤ bytes.length := by
    have hvarints : concat ((parents.map fun parent => offset - parent).map writeVarint) =
        .ok bytes := by
      rw [map_map]
      exact hparents
    have hlength := length_le_concat_varints hvarints
    rwa [length_map] at hlength
  -- what follows the parent count
  have htail : Reads (do
      let rest ← remaining
      require (decide (parents.length ≤ offset) && decide (parents.length ≤ rest.length))
        (CodecError.invalidParentCount offset parents.length)
      let found ← readParents offset parents.length
      require found.Nodup (.repeatedParent offset)
      require (found ≠ defaultParents offset) (.redundantOverride offset)
      let edges : Int := edgeCount + parents.length - if 0 < offset then 1 else 0
      require (edges ≤ uint32Max) .tooManyEdges
      return ((offset, found), edges)) bytes
      ((offset, parents), edgeCount + parents.length - if 0 < offset then 1 else 0) := by
    apply Reads.of_remaining
    intro rest
    apply Reads.require
    · simp only [Bool.and_eq_true, decide_eq_true_eq, length_append]
      omega
    apply (reads_parents hparents hearlier).bind_nil
    apply Reads.require (decide_eq_true hnodup)
    apply Reads.require (decide_eq_true hdefault)
    exact Reads.require (decide_eq_true hedges) (reads_pure _)
  by_cases hfew : parents.length < egw4ManyParents
  · rw [if_pos hfew] at hheader
    obtain ⟨first, none, hfirst, hnone, rfl⟩ := concat_cons_eq_ok.mp hheader
    cases hnone
    have hcode : ((offset - next) * 4 + parents.length) % 4 = parents.length := by omega
    have hoffset : next + ((offset - next) * 4 + parents.length - parents.length) / 4 = offset := by
      omega
    rw [append_nil]
    apply (reads_writeVarint hfirst).bind
    simp only [hcode, hoffset, if_pos hfew]
    apply Reads.require (decide_eq_true hlt)
    exact (reads_pure parents.length).bind htail
  · rw [if_neg hfew] at hheader
    obtain ⟨first, second, hfirst, hsecond, rfl⟩ := concat_cons_eq_ok.mp hheader
    obtain ⟨extra, none, hextra, hnone, rfl⟩ := concat_cons_eq_ok.mp hsecond
    cases hnone
    have hcode : ((offset - next) * 4 + egw4ManyParents) % 4 = egw4ManyParents := by omega
    have hoffset : next + ((offset - next) * 4 + egw4ManyParents - egw4ManyParents) / 4 =
        offset := by omega
    rw [append_nil, append_assoc]
    apply (reads_writeVarint hfirst).bind
    simp only [hcode, hoffset, if_neg (Nat.lt_irrefl egw4ManyParents)]
    apply Reads.require (decide_eq_true hlt)
    have hread := (reads_writeVarint hextra).map (egw4ManyParents + ·)
    rw [show egw4ManyParents + (parents.length - egw4ManyParents) = parents.length by omega] at hread
    exact hread.bind htail

variable {overrides : List (Nat × List Nat)}

theorem reads_overridesLoop {count next : Nat} {edgeCount : Int}
    (h : concat (writeOverrides next overrides) = .ok bytes)
    (hvalid : OverridesValid count next overrides) (hedges : EdgesFit edgeCount overrides) :
    Reads (readOverridesLoop count overrides.length next edgeCount) bytes overrides := by
  induction overrides generalizing next edgeCount bytes with
  | nil =>
    cases h
    exact reads_pure []
  | cons entry rest ih =>
    obtain ⟨offset, parents⟩ := entry
    obtain ⟨hle, hlt⟩ := hvalid.bounds _ mem_cons_self
    obtain ⟨hearlier, hnodup, hdefault⟩ := hvalid.parents _ mem_cons_self
    obtain ⟨hfirst, hascending⟩ := pairwise_cons.mp hvalid.ascending
    have hrest : OverridesValid count (offset + 1) rest := by
      refine ⟨hascending, ?_, ?_⟩
      · intro other hother
        have hless := hfirst other hother
        have hbounds := hvalid.bounds other (mem_cons_of_mem _ hother)
        exact ⟨hless, hbounds.2⟩
      · intro other hother
        exact hvalid.parents other (mem_cons_of_mem _ hother)
    rw [writeOverrides] at h
    obtain ⟨left, third, hleft, hthird, rfl⟩ := concat_append_eq_ok.mp h
    obtain ⟨header, second, hheader, hsecond, rfl⟩ := concat_append_eq_ok.mp hleft
    apply (reads_override hle hlt hheader hsecond hearlier hnodup hdefault hedges.1).bind
    apply (ih hthird hrest hedges.2).bind_nil
    exact reads_pure _

/-- Every override takes a byte. -/
theorem length_overrides_le {next : Nat}
    (h : concat (writeOverrides next overrides) = .ok bytes) : overrides.length ≤ bytes.length := by
  induction overrides generalizing next bytes with
  | nil => exact Nat.zero_le _
  | cons entry rest ih =>
    obtain ⟨offset, parents⟩ := entry
    rw [writeOverrides] at h
    obtain ⟨left, third, hleft, hthird, rfl⟩ := concat_append_eq_ok.mp h
    obtain ⟨header, second, hheader, hsecond, rfl⟩ := concat_append_eq_ok.mp hleft
    have hpos : 1 ≤ header.length := by
      by_cases hfew : parents.length < egw4ManyParents
      · rw [if_pos hfew] at hheader
        have hone : concat ([(offset - next) * 4 + parents.length].map writeVarint) =
            .ok header := hheader
        exact length_le_concat_varints hone
      · rw [if_neg hfew] at hheader
        have htwo : concat ([(offset - next) * 4 + egw4ManyParents,
            parents.length - egw4ManyParents].map writeVarint) = .ok header := hheader
        have hle := length_le_concat_varints htwo
        simp only [length_cons, length_nil] at hle
        omega
    have hrest := ih hthird
    simp only [length_cons, length_append]
    omega

theorem reads_parentOverrides {count : Nat}
    (h : concat (writeVarint overrides.length :: writeOverrides 0 overrides) = .ok bytes)
    (hvalid : OverridesValid count 0 overrides) (hedges : EdgesFit (count - 1 : Nat) overrides) :
    Reads (readParentOverrides count) bytes overrides := by
  obtain ⟨first, more, hfirst, hmore, rfl⟩ := concat_cons_eq_ok.mp h
  have hlength := length_overrides_le hmore
  have hcount : overrides.length ≤ count := by
    have hmap : (overrides.map (·.1)).Nodup := by
      rw [List.Nodup, pairwise_map]
      exact hvalid.ascending.imp fun hlt => Nat.ne_of_lt hlt
    have hsub : overrides.map (·.1) ⊆ List.range count := by
      intro offset hoffset
      obtain ⟨entry, hentry, rfl⟩ := mem_map.mp hoffset
      exact mem_range.mpr (hvalid.bounds entry hentry).2
    have hle := (hmap.subperm hsub).length_le
    rwa [length_map, length_range] at hle
  apply (reads_writeVarint hfirst).bind
  apply Reads.of_remaining
  intro rest
  apply Reads.require
  · simp only [Bool.and_eq_true, decide_eq_true_eq, length_append]
    omega
  · exact reads_overridesLoop hmore hvalid hedges

end Overrides

end Softmaple.Codec
