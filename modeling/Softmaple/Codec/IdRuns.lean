import Softmaple.Codec.EncodeAcceptance
import Mathlib.Data.List.Perm.Subperm
import Mathlib.Data.List.Nodup

/-!
The ID runs of a payload stand for the events' IDs in wire order: appending an
ID appends it, whatever run takes it.
-/
namespace Softmaple.Codec

open List Egw4IdRuns

def idString (id : Text) : Text :=
  match parseEventId id with
  | some (replicaId, _) => replicaId
  | none => id

def IdRunState.ids (strings : List Text) (run : IdRunState) : List Text :=
  let string := strings.getD run.string []
  if run.custom then [string]
  else (List.range run.length).map fun offset =>
    formatEventId string (run.startSequence + offset)

structure RunShape (strings : List Text) (run : IdRunState) : Prop where
  string_lt : run.string < strings.length
  length_pos : 0 < run.length
  custom : run.custom = true → run.length = 1 ∧ parseEventId (strings.getD run.string []) = none
  sequence : run.custom = false → run.startSequence + run.length ≤ maxSafeInteger + 1

structure IdRunsHold (ids : Egw4IdRuns) (all : List Text) : Prop where
  strings_nodup : ids.strings.Nodup
  strings_ne_nil : ∀ string ∈ ids.strings, string ≠ []
  shape : ∀ run ∈ ids.runs, RunShape ids.strings run
  ids_eq : ids.runs.reverse.flatMap (·.ids ids.strings) = all
  events : ids.events = all.length
  mem_strings : ∀ string, string ∈ ids.strings ↔ ∃ id ∈ all, idString id = string

namespace Egw4IdRuns

theorem intern_spec (ids : Egw4IdRuns) (string : Text) :
    (ids.intern string).2.strings[(ids.intern string).1]? = some string ∧
      (∃ more, (ids.intern string).2.strings = ids.strings ++ more ∧
        ((more = [] ∧ string ∈ ids.strings) ∨ (more = [string] ∧ string ∉ ids.strings))) ∧
      (ids.intern string).2.runs = ids.runs ∧ (ids.intern string).2.events = ids.events ∧
      (ids.intern string).2.stringByAgent = ids.stringByAgent := by
  rw [intern]
  cases hindex : ids.strings.idxOf? string with
  | some index =>
    have hget : ids.strings[index]? = some string := by
      obtain ⟨hlt, heq, -⟩ := idxOf?_eq_some_iff.mp hindex
      rw [getElem?_eq_getElem hlt, heq]
    exact ⟨hget, ⟨[], (append_nil _).symm, .inl ⟨rfl, mem_of_getElem? hget⟩⟩, rfl,
      rfl, rfl⟩
  | none =>
    have hnot : string ∉ ids.strings := idxOf?_eq_none_iff.mp hindex
    exact ⟨by simp, ⟨[string], rfl, .inr ⟨rfl, hnot⟩⟩, rfl, rfl, rfl⟩

end Egw4IdRuns

theorem RunShape.mono {strings more : List Text} {run : IdRunState} (h : RunShape strings run) :
    RunShape (strings ++ more) run ∧ run.ids (strings ++ more) = run.ids strings := by
  have hget : (strings ++ more).getD run.string [] = strings.getD run.string [] :=
    getD_append _ _ _ _ h.string_lt
  refine ⟨⟨?_, h.length_pos, ?_, h.sequence⟩, ?_⟩
  · rw [length_append]
    exact Nat.lt_of_lt_of_le h.string_lt (Nat.le_add_right _ _)
  · rw [hget]
    exact h.custom
  · rw [IdRunState.ids, IdRunState.ids, hget]

theorem idRunsHold_empty : IdRunsHold .empty [] where
  strings_nodup := nodup_nil
  strings_ne_nil := by simp [empty]
  shape := by simp [empty]
  ids_eq := rfl
  events := rfl
  mem_strings := by simp [empty]

namespace IdRunsHold

variable {ids : Egw4IdRuns} {all : List Text} {id : Text}

section

variable (h : IdRunsHold ids all)
include h

theorem intern (hne : idString id ≠ []) : let interned := (ids.intern (idString id)).2
    interned.strings.Nodup ∧ (∀ string ∈ interned.strings, string ≠ []) ∧
      (∀ run ∈ interned.runs, RunShape interned.strings run) ∧
      interned.runs.reverse.flatMap (·.ids interned.strings) = all ∧
      interned.events = all.length ∧
      ∀ string, string ∈ interned.strings ↔ ∃ other ∈ all ++ [id], idString other = string := by
  obtain ⟨-, ⟨more, hstrings, hcases⟩, hruns, hevents, -⟩ := ids.intern_spec (idString id)
  intro interned
  change (ids.intern (idString id)).2.strings.Nodup ∧ _
  have hids : ∀ run ∈ ids.runs, run.ids (ids.strings ++ more) = run.ids ids.strings :=
    fun run hrun => (h.shape run hrun).mono.2
  refine ⟨?_, ?_, ?_, ?_, by rw [hevents, h.events], ?_⟩
  · rw [hstrings]
    cases hcases with
    | inl hold =>
      rw [hold.1, append_nil]
      exact h.strings_nodup
    | inr hnew =>
      rw [hnew.1]
      exact h.strings_nodup.append (nodup_singleton _) (by simpa using hnew.2)
  · intro string hmem
    rw [hstrings, mem_append] at hmem
    cases hmem with
    | inl hold => exact h.strings_ne_nil string hold
    | inr hmore =>
      cases hcases with
      | inl hold =>
        rw [hold.1] at hmore
        cases hmore
      | inr hnew =>
        rw [hnew.1, mem_singleton] at hmore
        rwa [hmore]
  · rw [hruns, hstrings]
    exact fun run hrun => (h.shape run hrun).mono.1
  · rw [hruns, hstrings, ← h.ids_eq]
    apply flatMap_congr
    intro run hrun
    exact hids run (mem_reverse.mp hrun)
  · intro string
    rw [hstrings, mem_append, h.mem_strings]
    constructor
    · intro hor
      cases hor with
      | inl hold =>
        obtain ⟨other, hother, heq⟩ := hold
        exact ⟨other, mem_append_left _ hother, heq⟩
      | inr hmore =>
        cases hcases with
        | inl hold =>
          rw [hold.1] at hmore
          cases hmore
        | inr hnew =>
          rw [hnew.1, mem_singleton] at hmore
          exact ⟨id, by simp, hmore.symm⟩
    · intro hex
      obtain ⟨other, hother, heq⟩ := hex
      cases mem_append.mp hother with
      | inl hold => exact .inl ⟨other, hold, heq⟩
      | inr hlast =>
        rw [mem_singleton] at hlast
        rw [hlast] at heq
        cases hcases with
        | inl hold =>
          rw [← heq]
          exact .inl ((h.mem_strings _).mp hold.2)
        | inr hnew =>
          right
          rw [hnew.1, mem_singleton, heq]

theorem push (hne : idString id ≠ []) (run : IdRunState)
    {pushed : Egw4IdRuns} (hstrings : pushed.strings = (ids.intern (idString id)).2.strings)
    (hruns : pushed.runs = run :: (ids.intern (idString id)).2.runs)
    (hevents : pushed.events = (ids.intern (idString id)).2.events + 1)
    (hshape : RunShape (ids.intern (idString id)).2.strings run)
    (hids : run.ids (ids.intern (idString id)).2.strings = [id]) :
    IdRunsHold pushed (all ++ [id]) := by
  obtain ⟨hnodup, hnonempty, hshapes, hall, hcount, hmem⟩ := h.intern hne
  constructor
  · rwa [hstrings]
  · rwa [hstrings]
  · rw [hruns, hstrings]
    exact forall_mem_cons.mpr ⟨hshape, hshapes⟩
  · rw [hruns, hstrings, reverse_cons, flatMap_append, hall]
    simp [hids]
  · rw [hevents, hcount, length_append, length_singleton]
  · rwa [hstrings]

theorem appendCustom (hne : id ≠ []) (hparse : parseEventId id = none) :
    IdRunsHold (ids.appendCustom id) (all ++ [id]) := by
  have hstring : idString id = id := by rw [idString, hparse]
  obtain ⟨hget, -⟩ := ids.intern_spec id
  have hlt := (List.getElem?_eq_some_iff.mp hget).1
  have hgetD : (ids.intern id).2.strings.getD (ids.intern id).1 [] = id := by
    rw [getD_eq_getElem?_getD, hget]
    rfl
  have hne' : idString id ≠ [] := by rwa [hstring]
  refine h.push hne' ⟨(ids.intern id).1, 0, 1, true⟩ ?_ ?_ ?_ ?_ ?_
  · rw [hstring]
    rfl
  · rw [hstring]
    rfl
  · rw [hstring]
    rfl
  · rw [hstring]
    exact ⟨hlt, Nat.one_pos, fun _ => ⟨rfl, by rw [hgetD, hparse]⟩, by simp⟩
  · rw [hstring, IdRunState.ids, if_pos rfl, hgetD]

theorem appendId (hne : id ≠ []) : IdRunsHold (ids.appendId id) (all ++ [id]) := by
  rw [Egw4IdRuns.appendId]
  cases hparse : parseEventId id with
  | none => exact h.appendCustom hne hparse
  | some parsed =>
    obtain ⟨replicaId, sequence⟩ := parsed
    obtain ⟨hformat, hreplica, hsafe⟩ := parseEventId_eq_some hparse
    have hstring : idString id = replicaId := by rw [idString, hparse]
    obtain ⟨hget, -⟩ := ids.intern_spec replicaId
    have hlt := (List.getElem?_eq_some_iff.mp hget).1
    have hgetD : (ids.intern replicaId).2.strings.getD (ids.intern replicaId).1 [] =
        replicaId := by
      rw [getD_eq_getElem?_getD, hget]
      rfl
    have hpush : IdRunsHold
        ((ids.intern replicaId).2.pushCanonical (ids.intern replicaId).1 sequence)
        (all ++ [id]) := by
      have hne' : idString id ≠ [] := by rwa [hstring]
      refine h.push hne' ⟨(ids.intern replicaId).1, sequence, 1, false⟩ ?_ ?_ ?_ ?_ ?_
      · rw [hstring]
        rfl
      · rw [hstring]
        rfl
      · rw [hstring]
        rfl
      · rw [hstring]
        exact ⟨hlt, Nat.one_pos, by simp, fun _ => Nat.succ_le_succ hsafe⟩
      · rw [hstring, IdRunState.ids, if_neg (by simp), hgetD, hformat]
        simp
    simp only
    cases hruns : ids.runs with
    | nil => exact hpush
    | cons last older =>
      simp only
      split
      · next hextend =>
          simp only [Bool.and_eq_true, Bool.not_eq_eq_eq_not, Bool.not_true,
            decide_eq_true_eq] at hextend
          obtain ⟨⟨hcustom, hsequence⟩, hlast⟩ := hextend
          have hshapes := h.shape
          have hids := h.ids_eq
          rw [hruns] at hshapes hids
          obtain ⟨hshape, hothers⟩ := forall_mem_cons.mp hshapes
          have hlastD : ids.strings.getD last.string [] = replicaId := by
            rw [getD_eq_getElem?_getD, hlast]
            rfl
          have hgrown : ({ last with length := last.length + 1 } : IdRunState).ids ids.strings =
              last.ids ids.strings ++ [id] := by
            simp only [IdRunState.ids, hcustom, Bool.false_eq_true, if_false, hlastD,
              range_succ, map_append, map_singleton, hsequence, hformat]
          constructor
          · exact h.strings_nodup
          · exact h.strings_ne_nil
          · rw [extend, forall_mem_cons]
            refine ⟨⟨hshape.string_lt, Nat.succ_pos _, ?_, ?_⟩, hothers⟩
            · intro htrue
              exact absurd (hcustom.symm.trans htrue) (by decide)
            · intro _
              change last.startSequence + (last.length + 1) ≤ _
              omega
          · rw [reverse_cons, flatMap_append] at hids
            rw [← hids, extend, reverse_cons, flatMap_append]
            simp only [flatMap_cons, flatMap_nil, append_nil, hgrown,
              append_assoc]
          · change ids.events + 1 = _
            rw [h.events, length_append, length_singleton]
          · intro string
            change string ∈ ids.strings ↔ _
            rw [h.mem_strings]
            constructor
            · intro hex
              obtain ⟨other, hother, heq⟩ := hex
              exact ⟨other, mem_append_left _ hother, heq⟩
            · intro hex
              obtain ⟨other, hother, heq⟩ := hex
              cases mem_append.mp hother with
              | inl hold => exact ⟨other, hold, heq⟩
              | inr hnew =>
                rw [mem_singleton] at hnew
                rw [hnew, hstring] at heq
                rw [← heq]
                exact (h.mem_strings _).mp (mem_of_getElem? hlast)
      · exact hpush

theorem length_strings_le : ids.strings.length ≤ all.length := by
  have hsub : ids.strings ⊆ all.map idString := by
    intro string hmem
    obtain ⟨id, hid, heq⟩ := (h.mem_strings string).mp hmem
    exact mem_map.mpr ⟨id, hid, heq⟩
  have hle := (h.strings_nodup.subperm hsub).length_le
  rwa [length_map] at hle

theorem length_run_le {run : IdRunState} (hrun : run ∈ ids.runs) : run.length ≤ all.length := by
  have hlength : (run.ids ids.strings).length = run.length := by
    rw [IdRunState.ids]
    by_cases hcustom : run.custom = true
    · simp [hcustom, ((h.shape run hrun).custom hcustom).1]
    · simp [hcustom]
  obtain ⟨before, after, heq⟩ := append_of_mem (mem_reverse.mpr hrun)
  have hids := h.ids_eq
  rw [heq] at hids
  rw [← hids, ← hlength]
  simp only [flatMap_append, flatMap_cons, length_append]
  omega

theorem succeeds_writeRuns (hall : all.length ≤ egw4MaxEvents) :
    ∀ (runs : List IdRunState) (nextSequence : List Nat), (∀ run ∈ runs, run ∈ ids.runs) →
      ∀ part ∈ writeRuns runs nextSequence, Succeeds part := by
  intro runs
  induction runs with
  | nil => simp [writeRuns]
  | cons run rest ih =>
    intro nextSequence hruns
    obtain ⟨hrun, hrest⟩ := forall_mem_cons.mp hruns
    have hshape := h.shape run hrun
    have hsmall := small_safe hall
    have hstring := h.length_strings_le
    have hlt := hshape.string_lt
    have hlength := h.length_run_le hrun
    rw [writeRuns]
    by_cases hcustom : run.custom = true
    · rw [if_pos hcustom, forall_mem_cons]
      exact ⟨succeeds_writeVarint.mpr (by omega), ih nextSequence hrest⟩
    · have hsequence := hshape.sequence (by simpa using hcustom)
      have hpos := hshape.length_pos
      simp only [if_neg hcustom]
      rw [forall_mem_cons, forall_mem_cons, forall_mem_append]
      refine ⟨succeeds_writeVarint.mpr (by omega),
        succeeds_writeVarint.mpr (by split <;> omega), ?_, ih _ hrest⟩
      split
      · exact forall_mem_singleton.mpr (succeeds_writeVarint.mpr (by omega))
      · simp

theorem succeeds_write (hall : all.length ≤ egw4MaxEvents) : Succeeds ids.write ↔
      ∀ id ∈ all, (encodeText (idString id)).length ≤ maxSafeInteger := by
  have hsmall := small_safe hall
  have hcount := h.length_strings_le
  rw [write, succeeds_concat, forall_mem_append, forall_mem_cons]
  constructor
  · intro hparts id hid
    have hstring := (h.mem_strings _).mpr ⟨id, hid, rfl⟩
    exact succeeds_writeBytes.mp (hparts.1.2 _ (mem_map_of_mem hstring))
  · intro hfits
    refine ⟨⟨succeeds_writeVarint.mpr (by omega), ?_⟩, ?_⟩
    · intro part hpart
      obtain ⟨string, hstring, rfl⟩ := mem_map.mp hpart
      obtain ⟨id, hid, heq⟩ := (h.mem_strings string).mp hstring
      rw [← heq]
      exact succeeds_writeBytes.mpr (hfits id hid)
    · exact h.succeeds_writeRuns hall _ _ fun run hrun => mem_reverse.mp hrun

end

end IdRunsHold

section Agents

def AgentsHold (agentName : Nat → Text) (ids : Egw4IdRuns) : Prop :=
  ∀ agent string, ids.stringByAgent.lookup agent = some string →
    ids.strings[string]? = some (agentName agent)

/-- The same payload: the agent cache is not written. -/
def Egw4IdRuns.SameRuns (ids other : Egw4IdRuns) : Prop :=
  ids.strings = other.strings ∧ ids.runs = other.runs ∧ ids.events = other.events

variable {other ids : Egw4IdRuns}

theorem Egw4IdRuns.SameRuns.symm (h : ids.SameRuns other) : other.SameRuns ids :=
  ⟨h.1.symm, h.2.1.symm, h.2.2.symm⟩

theorem Egw4IdRuns.SameRuns.write_eq (h : ids.SameRuns other) :
    ids.write = other.write := by
  rw [write, write, h.1, h.2.1]

theorem IdRunsHold.of_same {all : List Text} (h : IdRunsHold other all)
    (hsame : ids.SameRuns other) : IdRunsHold ids all := by
  obtain ⟨hstrings, hruns, hevents⟩ := hsame
  constructor
  · rw [hstrings]
    exact h.strings_nodup
  · rw [hstrings]
    exact h.strings_ne_nil
  · rw [hstrings, hruns]
    exact h.shape
  · rw [hstrings, hruns]
    exact h.ids_eq
  · rw [hevents]
    exact h.events
  · rw [hstrings]
    exact h.mem_strings

theorem idxOf?_of_getElem? {strings : List Text} {index : Nat} {string : Text}
    (hnodup : strings.Nodup) (h : strings[index]? = some string) :
    strings.idxOf? string = some index := by
  obtain ⟨hlt, heq⟩ := List.getElem?_eq_some_iff.mp h
  rw [← heq]
  exact idxOf?_eq_some_iff.mpr ⟨hlt, rfl, fun other hother => by
    intro hsame
    have := (List.Nodup.getElem_inj_iff hnodup).mp hsame
    omega⟩

def Egw4IdRuns.agentString (ids : Egw4IdRuns) (agent : Nat) (replicaId : Text) :
    Nat × Egw4IdRuns :=
  match ids.stringByAgent.lookup agent with
  | some string => (string, ids)
  | none =>
    let (string, ids) := ids.intern replicaId
    (string, { ids with stringByAgent := (agent, string) :: ids.stringByAgent })

variable {agentName : Nat → Text}

/-- What `appendCanonical` does with the index of the agent's string. -/
def Egw4IdRuns.appendString (ids : Egw4IdRuns) (string sequence : Nat) : Egw4IdRuns :=
  match ids.runs with
  | last :: older =>
    if !last.custom && last.string = string && last.startSequence + last.length = sequence then
      ids.extend last older
    else ids.pushCanonical string sequence
  | [] => ids.pushCanonical string sequence

theorem agentString_spec (agent : Nat) (hnodup : ids.strings.Nodup) (hagents : AgentsHold agentName ids) :
    (ids.agentString agent (agentName agent)).1 = (ids.intern (agentName agent)).1 ∧
      (ids.agentString agent (agentName agent)).2.SameRuns (ids.intern (agentName agent)).2 ∧
      AgentsHold agentName (ids.agentString agent (agentName agent)).2 := by
  obtain ⟨hget, ⟨more, hstrings, -⟩, hruns, hevents, hcache⟩ := ids.intern_spec (agentName agent)
  rw [agentString]
  cases hlookup : ids.stringByAgent.lookup agent with
  | some string =>
    have hindex := idxOf?_of_getElem? hnodup (hagents agent string hlookup)
    refine ⟨by simp [Egw4IdRuns.intern, hindex], ?_, hagents⟩
    simp [Egw4IdRuns.intern, hindex, Egw4IdRuns.SameRuns]
  | none =>
    refine ⟨rfl, ⟨rfl, rfl, rfl⟩, ?_⟩
    intro other string hother
    simp only [lookup_cons] at hother
    change (ids.intern (agentName agent)).2.strings[string]? = _
    split at hother
    · next heq =>
        cases hother
        rw [beq_iff_eq.mp heq]
        exact hget
    · rw [hcache] at hother
      have hold := hagents other string hother
      rw [hstrings, List.getElem?_append_left (List.getElem?_eq_some_iff.mp hold).1, hold]

theorem Egw4IdRuns.SameRuns.intern (h : ids.SameRuns other)
    (string : Text) : (ids.intern string).1 = (other.intern string).1 ∧
      (ids.intern string).2.SameRuns (other.intern string).2 := by
  rw [Egw4IdRuns.intern, Egw4IdRuns.intern, ← h.1]
  split
  · exact ⟨rfl, h⟩
  · exact ⟨rfl, rfl, h.2⟩

theorem AgentsHold.mono {next : Egw4IdRuns} {more : List Text}
    (h : AgentsHold agentName ids) (hcache : next.stringByAgent = ids.stringByAgent)
    (hstrings : next.strings = ids.strings ++ more) : AgentsHold agentName next := by
  intro agent string hlookup
  rw [hcache] at hlookup
  have hold := h agent string hlookup
  rw [hstrings, List.getElem?_append_left (List.getElem?_eq_some_iff.mp hold).1, hold]

theorem appendCustom_same {id : Text} (hagents : AgentsHold agentName ids) (hsame : ids.SameRuns other) :
    (ids.appendCustom id).SameRuns (other.appendCustom id) ∧
      AgentsHold agentName (ids.appendCustom id) := by
  obtain ⟨hstring, hstrings, hruns, hevents⟩ := hsame.intern id
  obtain ⟨-, ⟨more, hmore, -⟩, -, -, hcache⟩ := ids.intern_spec id
  refine ⟨⟨hstrings, ?_, ?_⟩, hagents.mono hcache hmore⟩
  · simp only [appendCustom]
    rw [hstring, hruns]
  · simp only [appendCustom]
    rw [hevents]

theorem appendId_same {id : Text} (hagents : AgentsHold agentName ids) (hsame : ids.SameRuns other) :
    (ids.appendId id).SameRuns (other.appendId id) ∧ AgentsHold agentName (ids.appendId id) := by
  rw [Egw4IdRuns.appendId, Egw4IdRuns.appendId]
  cases hparse : parseEventId id with
  | none => exact appendCustom_same hagents hsame
  | some parsed =>
    obtain ⟨replicaId, sequence⟩ := parsed
    obtain ⟨hstring, hstrings, hruns, hevents⟩ := hsame.intern replicaId
    obtain ⟨-, ⟨more, hmore, -⟩, -, -, hcache⟩ := ids.intern_spec replicaId
    have hpush : ((ids.intern replicaId).2.pushCanonical (ids.intern replicaId).1 sequence).SameRuns
          ((other.intern replicaId).2.pushCanonical (other.intern replicaId).1 sequence) ∧
        AgentsHold agentName
          ((ids.intern replicaId).2.pushCanonical (ids.intern replicaId).1 sequence) := by
      refine ⟨⟨hstrings, ?_, ?_⟩, hagents.mono hcache hmore⟩
      · simp only [pushCanonical]
        rw [hstring, hruns]
      · simp only [pushCanonical]
        rw [hevents]
    simp only
    rw [← hsame.2.1, ← hsame.1]
    cases ids.runs with
    | nil => exact hpush
    | cons last older =>
      simp only
      split
      · refine ⟨⟨hsame.1, rfl, ?_⟩, hagents⟩
        change ids.events + 1 = other.events + 1
        rw [hsame.2.2]
      · exact hpush

theorem appendCanonical_same {all : List Text}
    {id : Text} {agent sequence : Nat} (h : IdRunsHold ids all) (hagents : AgentsHold agentName ids)
    (hsame : ids.SameRuns other) (hparse : parseEventId id = some (agentName agent, sequence)) :
    (ids.appendCanonical agent (agentName agent) sequence).SameRuns (other.appendId id) ∧
      AgentsHold agentName (ids.appendCanonical agent (agentName agent) sequence) := by
  obtain ⟨hstring, ⟨hstrings, hruns, hevents⟩, hcache⟩ :=
    agentString_spec agent h.strings_nodup hagents
  obtain ⟨hget, ⟨more, hmore, hcases⟩, hinternRuns, hinternEvents, -⟩ :=
    ids.intern_spec (agentName agent)
  have hintern := hsame.intern (agentName agent)
  have hpush : (((ids.agentString agent (agentName agent)).2.pushCanonical
      (ids.agentString agent (agentName agent)).1 sequence)).SameRuns
      ((other.intern (agentName agent)).2.pushCanonical
        (other.intern (agentName agent)).1 sequence) := by
    refine ⟨hstrings.trans hintern.2.1, ?_, ?_⟩
    · simp only [pushCanonical]
      rw [hstring, hintern.1, hruns, hintern.2.2.1]
    · simp only [pushCanonical]
      rw [hevents, hintern.2.2.2]
  have hequation : ids.appendCanonical agent (agentName agent) sequence =
      (ids.agentString agent (agentName agent)).2.appendString
        (ids.agentString agent (agentName agent)).1 sequence := rfl
  rw [hequation, appendString, Egw4IdRuns.appendId, hparse]
  simp only
  rw [hruns, hinternRuns, ← hsame.2.1]
  cases hlist : ids.runs with
  | nil => exact ⟨hpush, hcache⟩
  | cons last older =>
    simp only
    have hlt := (h.shape last (by rw [hlist]; exact mem_cons_self)).string_lt
    have hlast : last.string = (ids.agentString agent (agentName agent)).1 ↔
        other.strings[last.string]? = some (agentName agent) := by
      rw [hstring, ← hsame.1]
      constructor
      · intro heq
        rw [heq] at hlt ⊢
        rwa [hmore, List.getElem?_append_left hlt] at hget
      · intro hsome
        rw [Egw4IdRuns.intern, idxOf?_of_getElem? h.strings_nodup hsome]
    by_cases hextend : last.custom = false ∧
        last.string = (ids.agentString agent (agentName agent)).1 ∧
        last.startSequence + last.length = sequence
    · obtain ⟨hcustom, hsame', hsequence⟩ := hextend
      have hsome := hlast.mp hsame'
      rw [if_pos (by simp [hcustom, hsame', hsequence]),
        if_pos (by simp [hcustom, hsome, hsequence])]
      have hintern' : (ids.intern (agentName agent)).2 = ids := by
        rw [← hsame.1] at hsome
        rw [Egw4IdRuns.intern, idxOf?_of_getElem? h.strings_nodup hsome]
      rw [hintern'] at hstrings hruns hevents
      refine ⟨⟨hstrings.trans hsame.1, rfl, ?_⟩, hcache⟩
      change (ids.agentString agent (agentName agent)).2.events + 1 = other.events + 1
      rw [hevents, hsame.2.2]
    · rw [if_neg (by simpa [and_assoc] using hextend), if_neg (by
        simp only [Bool.and_eq_true, Bool.not_eq_eq_eq_not, Bool.not_true, decide_eq_true_eq]
        intro hall
        exact hextend ⟨hall.1.1, hlast.mpr hall.2, hall.1.2⟩)]
      exact ⟨hpush, hcache⟩

end Agents

end Softmaple.Codec
