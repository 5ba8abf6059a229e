import Softmaple.Codec.BinaryIo

/-!
Events as callers hand them over (`core/invariants.ts`). IDs are strings and
numbers are doubles; `cloneRemoteEvent` decides what a replica takes from an
untyped candidate.
-/
namespace Softmaple.Codec

inductive JsNumber where
  | nan
  | infinity (negative : Bool)
  | finite (value : Rat)
  deriving DecidableEq, Repr

namespace JsNumber

def isFinite : JsNumber → Bool
  | .finite _ => true
  | _ => false

def safeInteger? : JsNumber → Option Int
  | .finite value => if value.den = 1 ∧ isSafeInt value.num then some value.num else none
  | _ => none

def safeNatural? (number : JsNumber) : Option Nat :=
  match number.safeInteger? with
  | some value => if value < 0 then none else some value.toNat
  | none => none

def ofInt (value : Int) : JsNumber := .finite value

theorem eq_ofInt_of_safeInteger? {number : JsNumber} {value : Int}
    (h : number.safeInteger? = some value) : number = .ofInt value ∧ isSafeInt value = true := by
  cases number with
  | nan => cases h
  | infinity negative => cases h
  | finite rat =>
    rw [safeInteger?] at h
    split at h
    · next hsafe =>
        have hnum : rat.num = value := Option.some.inj h
        rw [← hnum]
        refine ⟨?_, hsafe.2⟩
        rw [ofInt, Rat.coe_int_num_of_den_eq_one hsafe.1]
    · cases h

theorem eq_ofInt_of_safeNatural? {number : JsNumber} {value : Nat}
    (h : number.safeNatural? = some value) :
    number = .ofInt value ∧ value ≤ maxSafeInteger := by
  rw [safeNatural?] at h
  cases hinteger : number.safeInteger? with
  | none =>
    rw [hinteger] at h
    cases h
  | some integer =>
    obtain ⟨heq, hsafe⟩ := eq_ofInt_of_safeInteger? hinteger
    rw [hinteger] at h
    simp only at h
    split at h
    · cases h
    · next hnonneg =>
        have hvalue : integer.toNat = value := Option.some.inj h
        have hcast : (value : Int) = integer := by omega
        rw [hcast]
        refine ⟨heq, ?_⟩
        simp only [isSafeInt, Bool.and_eq_true, decide_eq_true_eq] at hsafe
        omega

end JsNumber

theorem safeNatural?_ofInt (n : Nat) :
    (JsNumber.ofInt n).safeNatural? = if n ≤ maxSafeInteger then some n else none := by
  have hsafe : isSafeInt (n : Int) = decide (n ≤ maxSafeInteger) := by
    rw [isSafeInt, Bool.eq_iff_iff, Bool.and_eq_true, decide_eq_true_eq, decide_eq_true_eq,
      decide_eq_true_eq]
    omega
  rw [JsNumber.safeNatural?, JsNumber.ofInt, JsNumber.safeInteger?]
  simp only [Rat.den_intCast, Rat.num_intCast, true_and, hsafe, decide_eq_true_eq]
  by_cases h : n ≤ maxSafeInteger
  · simp [h]
  · simp [h]

inductive JsValue where
  | number (value : JsNumber)
  | string (value : Text)
  | other
  deriving DecidableEq, Repr

inductive Operation where
  | insert (index : JsNumber) (text : Text)
  | delete (index length : JsNumber)
  deriving DecidableEq, Repr

def Operation.index : Operation → JsNumber
  | .insert index _ => index
  | .delete index _ => index

structure EventIdSet where
  ids : List Text
  nodup : ids.Nodup

namespace EventIdSet

def empty : EventIdSet := ⟨[], List.nodup_nil⟩

def add (set : EventIdSet) (id : Text) : EventIdSet :=
  if h : id ∈ set.ids then set
  else ⟨set.ids ++ [id], by
    rw [List.nodup_append]
    refine ⟨set.nodup, by simp, fun a ha b hb => ?_⟩
    rw [List.mem_singleton] at hb
    rw [hb]
    exact fun heq => h (heq ▸ ha)⟩

end EventIdSet

structure GraphEvent where
  id : Text
  operation : Operation
  parentVersion : EventIdSet
  timestamp : JsNumber

/-- A caller's operation, its fields not checked. -/
structure CandidateOperation where
  type : JsValue
  index : JsValue
  text : JsValue
  length : JsValue

/-- A caller's event; `parentVersion` is `none` when it is not a set. -/
structure CandidateEvent where
  id : JsValue
  operation : Option CandidateOperation
  parentVersion : Option (List JsValue)
  timestamp : JsValue

inductive RemoteEventError where
  | invalidId
  | parentVersionNotSet (id : Text)
  | nonStringParent (id : Text)
  | ownParent (id : Text)
  | invalidTimestamp (id : Text)
  | invalidOperation (id : Text)
  | invalidInsert (id : Text)
  | invalidDelete (id : Text)
  | unknownOperationType (id : Text)
  | invalidOperationIndex (id : Text)
  | invalidDeleteLength (id : Text)
  | loneSurrogate (id : Text)
  deriving DecidableEq, Repr

/-- The code units of an ASCII string. -/
def ascii (text : String) : Text := text.toList.map fun char => Utf8.unit char.toNat

def operationTypeInsert : Text := ascii "insert"

def operationTypeDelete : Text := ascii "delete"

def cloneParents (id : Text) : List JsValue → EventIdSet → Except RemoteEventError EventIdSet
  | [], parents => .ok parents
  | .string parent :: rest, parents =>
    if parent = [] then .error (.nonStringParent id)
    else if parent = id then .error (.ownParent id)
    else cloneParents id rest (parents.add parent)
  | _ :: _, _ => .error (.nonStringParent id)

def cloneOperation (id : Text) (operation : CandidateOperation) :
    Except RemoteEventError Operation :=
  if operation.type = .string operationTypeInsert then
    match operation.index, operation.text with
    | .number index, .string text => .ok (.insert index text)
    | _, _ => .error (.invalidInsert id)
  else if operation.type = .string operationTypeDelete then
    match operation.index, operation.length with
    | .number index, .number length => .ok (.delete index length)
    | _, _ => .error (.invalidDelete id)
  else .error (.unknownOperationType id)

def assertRemoteEventWellFormed (event : GraphEvent) : Except RemoteEventError Unit :=
  match event.operation.index.safeNatural? with
  | none => .error (.invalidOperationIndex event.id)
  | some _ =>
    match event.operation with
    | .insert _ text =>
      if Utf8.wellFormed text then .ok () else .error (.loneSurrogate event.id)
    | .delete _ length =>
      match length.safeNatural? with
      | none => .error (.invalidDeleteLength event.id)
      | some _ => .ok ()

/-- Validate and detach a caller-owned event. -/
def cloneRemoteEvent (candidate : CandidateEvent) : Except RemoteEventError GraphEvent :=
  match candidate.id with
  | .string id =>
    if id = [] then .error .invalidId
    else
      match candidate.parentVersion with
      | none => .error (.parentVersionNotSet id)
      | some values =>
        match cloneParents id values .empty with
        | .error error => .error error
        | .ok parents =>
          match candidate.timestamp with
          | .number timestamp =>
            if timestamp.isFinite then
              match candidate.operation with
              | none => .error (.invalidOperation id)
              | some operation =>
                match cloneOperation id operation with
                | .error error => .error error
                | .ok operation =>
                  let cloned : GraphEvent := ⟨id, operation, parents, timestamp⟩
                  match assertRemoteEventWellFormed cloned with
                  | .error error => .error error
                  | .ok () => .ok cloned
            else .error (.invalidTimestamp id)
          | _ => .error (.invalidTimestamp id)
  | _ => .error .invalidId

structure WellFormedEvent (event : GraphEvent) : Prop where
  id_ne_nil : event.id ≠ []
  parent_ne_nil : ∀ parent ∈ event.parentVersion.ids, parent ≠ []
  index : ∃ index, event.operation.index.safeNatural? = some index
  text : ∀ index text, event.operation = .insert index text → Utf8.wellFormed text = true
  length : ∀ index length, event.operation = .delete index length →
    ∃ value, length.safeNatural? = some value

theorem EventIdSet.mem_add {set : EventIdSet} {id other : Text} :
    other ∈ (set.add id).ids ↔ other ∈ set.ids ∨ other = id := by
  rw [add]
  split
  · next h =>
      constructor
      · exact .inl
      · intro hor
        cases hor with
        | inl hmem => exact hmem
        | inr heq => rwa [heq]
  · simp

theorem cloneParents_ne_nil {id : Text} {values : List JsValue} {parents result : EventIdSet}
    (h : cloneParents id values parents = .ok result)
    (hparents : ∀ parent ∈ parents.ids, parent ≠ []) : ∀ parent ∈ result.ids, parent ≠ [] := by
  induction values generalizing parents with
  | nil =>
    cases h
    exact hparents
  | cons value rest ih =>
    cases value with
    | number _ => cases h
    | other => cases h
    | string parent =>
      rw [cloneParents] at h
      split at h
      · cases h
      next hne =>
        split at h
        · cases h
        apply ih h
        intro other hother
        cases EventIdSet.mem_add.mp hother with
        | inl hmem => exact hparents other hmem
        | inr heq => rwa [heq]

theorem assertRemoteEventWellFormed_ok {event : GraphEvent}
    (h : assertRemoteEventWellFormed event = .ok ()) :
    (∃ index, event.operation.index.safeNatural? = some index) ∧
      (∀ index text, event.operation = .insert index text → Utf8.wellFormed text = true) ∧
      ∀ index length, event.operation = .delete index length →
        ∃ value, length.safeNatural? = some value := by
  rw [assertRemoteEventWellFormed] at h
  cases hindex : event.operation.index.safeNatural? with
  | none =>
    rw [hindex] at h
    cases h
  | some value =>
    rw [hindex] at h
    refine ⟨⟨value, rfl⟩, ?_, ?_⟩
    · intro index text heq
      rw [heq] at h
      by_contra hno
      simp [hno] at h
    · intro index length heq
      rw [heq] at h
      cases hlength : length.safeNatural? with
      | none => simp [hlength] at h
      | some value => exact ⟨value, rfl⟩

theorem cloneRemoteEvent_wellFormed {candidate : CandidateEvent} {event : GraphEvent}
    (h : cloneRemoteEvent candidate = .ok event) :
    WellFormedEvent event ∧ event.timestamp.isFinite = true := by
  obtain ⟨candidateId, operation, parentVersion, timestamp⟩ := candidate
  cases candidateId with
  | number _ => cases h
  | other => cases h
  | string id =>
    simp only [cloneRemoteEvent] at h
    split at h
    · cases h
    next hid =>
      cases parentVersion with
      | none => cases h
      | some values =>
        simp only at h
        cases hparents : cloneParents id values .empty with
        | error error => simp [hparents] at h
        | ok parents =>
          rw [hparents] at h
          cases timestamp with
          | string _ => cases h
          | other => cases h
          | number timestamp =>
            simp only at h
            split at h
            · next hfinite =>
                cases operation with
                | none => cases h
                | some operation =>
                  simp only at h
                  cases hoperation : cloneOperation id operation with
                  | error error => simp [hoperation] at h
                  | ok cloned =>
                    rw [hoperation] at h
                    simp only at h
                    split at h
                    · cases h
                    · next hassert =>
                        cases h
                        obtain ⟨hindex, htext, hlength⟩ :=
                          assertRemoteEventWellFormed_ok hassert
                        refine ⟨⟨hid, ?_, hindex, htext, hlength⟩, hfinite⟩
                        exact cloneParents_ne_nil hparents (by simp [EventIdSet.empty])
            · cases h

end Softmaple.Codec
