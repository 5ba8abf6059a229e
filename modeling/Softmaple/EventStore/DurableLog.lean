import Softmaple.EventStore.AppendSteps

/-!
The event log under any sequence of appends and page reads. The transaction of
a call is one step; a call that met a unique violation reads the stored hashes
up to three times afterwards, between the steps of others. A reader follows
the cursors of its pages while the log grows.
-/
namespace Softmaple.EventStore

open BlockModel StateMethod List

inductive CallPhase where
  | verifying (attemptsLeft : Nat)
  | answered (result : Except AppendError (List Text))

structure Call where
  request : AppendCall
  phase : CallPhase

structure Reader where
  cursor : Text
  received : List RichTextEventBatch

namespace Reader

def start : Reader := ⟨Json.decimal 0, []⟩

def take (reader : Reader) (page : EventPage) : Reader :=
  ⟨page.nextCursor, reader.received ++ page.batches⟩

end Reader

structure Service where
  log : EventLog
  calls : List Call
  reader : Reader

section Steps

variable (sha256 : Text → Text) (sendText : Text → Option Text) (isSafeLinkUrl : Text → Bool)
  (documentId : Text) (traffic : Set RichTextEventBatch)

def batchIds (batches : List RichTextEventBatch) : List Text := batches.map (·.batchId)

def runTransaction (log : EventLog) (call : AppendCall) : EventLog × CallPhase :=
  match appendTransaction sha256 sendText documentId call log with
  | .ok appended => (appended, .answered (.ok (batchIds call.batches)))
  | .error .uniqueViolation => (log, .verifying CONFLICT_VERIFY_ATTEMPTS)
  | .error error => (log, .answered (.error error))

def verifyCall (log : EventLog) (call : Call) : Call :=
  match call.phase with
  | .verifying (attemptsLeft + 1) =>
    match verifyExistingBatches sha256 sendText log call.request.batches with
    | .ok true => { call with phase := .answered (.ok (batchIds call.request.batches)) }
    | .ok false =>
      if attemptsLeft = 0 then
        { call with phase :=
            .answered (.error (storedEventIdConflict documentId call.request.batches)) }
      else { call with phase := .verifying attemptsLeft }
    | .error error => { call with phase := .answered (.error error) }
  | _ => call

inductive Step : Service → Service → Prop where
  | append (service : Service) (request : AppendCall)
      (hcarried : ∀ batch ∈ request.batches, batch ∈ traffic) :
      Step service { service with
        log := (runTransaction sha256 sendText documentId service.log request).1
        calls := service.calls ++
          [⟨request, (runTransaction sha256 sendText documentId service.log request).2⟩] }
  | interrupted (service : Service) (request : AppendCall) :
      Step service { service with calls := service.calls ++ [⟨request, .answered (.error .database)⟩] }
  | verify (service : Service) (before : List Call) (call : Call) (after : List Call)
      (hcalls : service.calls = before ++ call :: after) :
      Step service { service with
        calls := before ++ verifyCall sha256 sendText documentId service.log call :: after }
  | read (service : Service) (page : EventPage)
      (hpage : readEventPage isSafeLinkUrl service.log service.reader.cursor = some page) :
      Step service { service with reader := service.reader.take page }
  | restart (service : Service) : Step service { service with reader := .start }

/-- A service whose document has no events yet, after any steps. -/
inductive Reachable : Service → Prop where
  | start : Reachable ⟨.empty, [], .start⟩
  | step {service next : Service} (h : Reachable service)
      (hstep : Step sha256 sendText isSafeLinkUrl documentId traffic service next) : Reachable next

/-- `later` is reached from `service`. -/
inductive Leads : Service → Service → Prop where
  | refl (service : Service) : Leads service service
  | step {service middle later : Service} (h : Leads service middle)
      (hstep : Step sha256 sendText isSafeLinkUrl documentId traffic middle later) :
      Leads service later

end Steps

section Calls

variable {sha256 : Text → Text} {sendText : Text → Option Text} {isSafeLinkUrl : Text → Bool}
  {documentId : Text} {traffic : Set RichTextEventBatch} {log : EventLog} {request : AppendCall}
  {call : Call}

def CallInvariant (traffic : Set RichTextEventBatch) (log : EventLog) (call : Call) : Prop :=
  match call.phase with
  | .verifying _ =>
    (∀ batch ∈ call.request.batches, batch ∈ traffic) ∧
      (incomingEventIds call.request.batches).Nodup
  | .answered (.ok ids) =>
    ids = batchIds call.request.batches ∧ (incomingEventIds call.request.batches).Nodup ∧
      ∀ batch ∈ call.request.batches, Holds log batch
  | .answered (.error _) => True

theorem CallInvariant.mono {appended : EventLog} (h : CallInvariant traffic log call)
    (hgrows : log.batches <+: appended.batches) : CallInvariant traffic appended call := by
  obtain ⟨request, phase⟩ := call
  match phase, h with
  | .verifying _, h => exact h
  | .answered (.ok _), ⟨hids, hnodup, hall⟩ =>
    exact ⟨hids, hnodup, fun batch hbatch => (hall batch hbatch).mono hgrows⟩
  | .answered (.error _), _ => trivial

theorem nodup_of_uniqueViolation
    (h : appendTransaction sha256 sendText documentId request log = .error .uniqueViolation) :
    (incomingEventIds request.batches).Nodup := by
  by_contra hnot
  unfold appendTransaction at h
  rw [if_pos hnot] at h
  cases h

theorem runTransaction_keeps (hsend : SendsDatabaseText sendText)
    (hcollision : CollisionFree sha256 traffic)
    (hcarried : ∀ batch ∈ request.batches, batch ∈ traffic)
    (hinv : LogInvariant sha256 traffic log) :
    LogInvariant sha256 traffic (runTransaction sha256 sendText documentId log request).1 ∧
      log.batches <+: (runTransaction sha256 sendText documentId log request).1.batches ∧
      CallInvariant traffic (runTransaction sha256 sendText documentId log request).1
        ⟨request, (runTransaction sha256 sendText documentId log request).2⟩ := by
  unfold runTransaction
  split
  · next appended hok =>
      obtain ⟨hkept, hgrows, hall⟩ := appendTransaction_keeps hsend hcollision hcarried hinv hok
      exact ⟨hkept, hgrows, rfl, (appendTransaction_eq_ok.mp hok).1, hall⟩
  · next hviolation =>
      exact ⟨hinv, prefix_refl _, hcarried, nodup_of_uniqueViolation hviolation⟩
  · exact ⟨hinv, prefix_refl _, trivial⟩

theorem verifyCall_keeps (hcollision : CollisionFree sha256 traffic)
    (hinv : LogInvariant sha256 traffic log) (h : CallInvariant traffic log call) :
    CallInvariant traffic log (verifyCall sha256 sendText documentId log call) := by
  obtain ⟨request, phase⟩ := call
  match phase, h with
  | .answered (.ok _), h => exact h
  | .answered (.error _), h => exact h
  | .verifying 0, h => exact h
  | .verifying (attemptsLeft + 1), ⟨hcarried, hnodup⟩ =>
    unfold verifyCall
    dsimp only
    split
    · next hverified =>
        exact ⟨rfl, hnodup, holds_of_verified hcollision hcarried hinv hverified⟩
    · split
      · trivial
      · exact ⟨hcarried, hnodup⟩
    · trivial

end Calls

section Reading

variable {sha256 : Text → Text} {isSafeLinkUrl : Text → Bool} {traffic : Set RichTextEventBatch}
  {log : EventLog}

theorem bigInt_decimal (value : Nat) : bigInt (Json.decimal value) = some value := by
  have hdigits : (Json.decimal value).all Json.isDigit = true :=
    all_eq_true.mpr (Json.isDigit_decimal value)
  rw [bigInt, if_pos ⟨Json.decimal_ne_nil value, hdigits⟩, Json.readDecimal_decimal]

def receivedRows (log : EventLog) (cursor : Nat) : List BatchRow :=
  Paging.upTo (·.id) cursor log.batches

def pageRows (log : EventLog) (cursor : Nat) : List BatchRow :=
  (Paging.after (·.id) cursor log.batches).take REPAIR_PAGE_SIZE

section

variable (hparsed : ∀ batch ∈ traffic, parseBatch isSafeLinkUrl batch = .ok batch)
include hparsed

theorem parsePayloads {rows : List BatchRow} (h : ∀ row ∈ rows, row.payload ∈ traffic) :
    (rows.mapM fun row => (parseBatch isSafeLinkUrl row.payload).toOption) =
      some (rows.map (·.payload)) := by
  induction rows with
  | nil => rfl
  | cons row rows ih =>
    rw [forall_mem_cons] at h
    rw [mapM_cons, hparsed _ h.1, ih h.2]
    rfl

theorem readEventPage_of_bigInt
    (hinv : LogInvariant sha256 traffic log) {cursor : Text} {value : Nat}
    (hcursor : bigInt cursor = some value) : readEventPage isSafeLinkUrl log cursor = some {
      batches := (pageRows log value).map (·.payload)
      nextCursor := ((pageRows log value).getLast?.map fun row => Json.decimal row.id).getD cursor
      complete := decide ((Paging.after (·.id) value log.batches).length ≤ REPAIR_PAGE_SIZE) } := by
  have hrows : ((log.batches.filter fun row => decide (value < row.id)).take
      (REPAIR_PAGE_SIZE + 1)).take REPAIR_PAGE_SIZE = pageRows log value := by
    rw [take_take, Nat.min_eq_left (Nat.le_succ _)]
    rfl
  have hcarried : ∀ row ∈ pageRows log value, row.payload ∈ traffic := fun row hrow =>
    hinv.carried row (Paging.mem_after.mp (mem_of_mem_take hrow)).1
  unfold readEventPage
  rw [hcursor]
  dsimp only [Option.bind_eq_bind, Option.bind_some]
  rw [hrows, parsePayloads hparsed hcarried]
  simp only [Option.bind_some, Option.pure_def, Option.some.injEq, EventPage.mk.injEq, true_and]
  rw [decide_eq_decide, length_take]
  change min _ (Paging.after (·.id) value log.batches).length ≤ _ ↔ _
  omega

theorem readEventPage_decimal (hinv : LogInvariant sha256 traffic log) (cursor : Nat) :
    readEventPage isSafeLinkUrl log (Json.decimal cursor) = some {
      batches := (pageRows log cursor).map (·.payload)
      nextCursor := Json.decimal (Paging.nextCursor (·.id) cursor (pageRows log cursor))
      complete := decide ((Paging.after (·.id) cursor log.batches).length ≤ REPAIR_PAGE_SIZE) } := by
  rw [readEventPage_of_bigInt hparsed hinv (bigInt_decimal cursor)]
  simp only [Option.some.injEq, EventPage.mk.injEq, true_and, and_true]
  unfold Paging.nextCursor
  cases (pageRows log cursor).getLast? <;> rfl

end

end Reading

section Runs

variable {sha256 : Text → Text} {sendText : Text → Option Text} {isSafeLinkUrl : Text → Bool}
  {documentId : Text} {traffic : Set RichTextEventBatch} {log appended : EventLog}
  {service next later : Service}

def CursorOf (log : EventLog) (cursor : Nat) : Prop :=
  cursor = 0 ∨ ∃ row ∈ log.batches, row.id = cursor

structure ReaderInvariant (log : EventLog) (reader : Reader) (cursor : Nat) : Prop where
  text : reader.cursor = Json.decimal cursor
  cursorOf : CursorOf log cursor
  received : reader.received = (receivedRows log cursor).map (·.payload)

structure ServiceInvariant (sha256 : Text → Text) (traffic : Set RichTextEventBatch)
    (service : Service) : Prop where
  log : LogInvariant sha256 traffic service.log
  calls : ∀ call ∈ service.calls, CallInvariant traffic service.log call
  reader : ∃ cursor, ReaderInvariant service.log service.reader cursor

theorem readerInvariant_start (hinv : LogInvariant sha256 traffic log) :
    ReaderInvariant log .start 0 where
  text := rfl
  cursorOf := Or.inl rfl
  received := by
    have hnone : receivedRows log 0 = [] :=
      filter_eq_nil_iff.mpr fun row hrow => by
        rw [decide_eq_true_eq]
        exact Nat.not_le.mpr (hinv.positive row hrow)
    rw [hnone]
    rfl

theorem ReaderInvariant.mono {reader : Reader} {cursor : Nat} (h : ReaderInvariant log reader cursor)
    (hinv : LogInvariant sha256 traffic appended) (hgrows : log.batches <+: appended.batches) :
    ReaderInvariant appended reader cursor := by
  obtain ⟨more, hmore⟩ := hgrows
  have hnew : ∀ row ∈ more, cursor < row.id := by
    intro row hrow
    cases h.cursorOf with
    | inl hzero =>
      rw [hzero]
      exact hinv.positive row (by rw [← hmore]; exact mem_append_right _ hrow)
    | inr hstored =>
      obtain ⟨last, hlast, rfl⟩ := hstored
      have hincreasing := hinv.increasing
      rw [← hmore] at hincreasing
      exact (pairwise_append.mp hincreasing).2.2 last hlast row hrow
  have hsame : receivedRows appended cursor = receivedRows log cursor := by
    rw [receivedRows, ← hmore]
    exact Paging.upTo_append_of_gt hnew
  refine ⟨h.text, h.cursorOf.imp_right ?_, by rw [hsame]; exact h.received⟩
  rintro ⟨row, hrow, hid⟩
  exact ⟨row, by rw [← hmore]; exact mem_append_left _ hrow, hid⟩

theorem receivedRows_nextCursor (hinv : LogInvariant sha256 traffic log) (cursor : Nat) :
    receivedRows log (Paging.nextCursor (·.id) cursor (pageRows log cursor)) =
      receivedRows log cursor ++ pageRows log cursor :=
  Paging.upTo_nextCursor hinv.increasing

theorem ReaderInvariant.take {reader : Reader} {cursor : Nat} {page : EventPage}
    (h : ReaderInvariant log reader cursor) (hinv : LogInvariant sha256 traffic log)
    (hparsed : ∀ batch ∈ traffic, parseBatch isSafeLinkUrl batch = .ok batch)
    (hpage : readEventPage isSafeLinkUrl log reader.cursor = some page) :
    ReaderInvariant log (reader.take page)
      (Paging.nextCursor (·.id) cursor (pageRows log cursor)) := by
  rw [h.text, readEventPage_decimal hparsed hinv, Option.some.injEq] at hpage
  subst hpage
  refine ⟨rfl, ?_, ?_⟩
  · by_cases hnil : pageRows log cursor = []
    · rw [hnil]
      exact h.cursorOf
    · have hlast : ∃ row ∈ pageRows log cursor,
          Paging.nextCursor (·.id) cursor (pageRows log cursor) = row.id :=
        Paging.nextCursor_mem hnil
      obtain ⟨row, hrow, hnext⟩ := hlast
      exact Or.inr ⟨row, (Paging.mem_after.mp (mem_of_mem_take hrow)).1, hnext.symm⟩
  · rw [receivedRows_nextCursor hinv, map_append, ← h.received]
    rfl

theorem Step.keeps (hsend : SendsDatabaseText sendText) (hcollision : CollisionFree sha256 traffic)
    (hparsed : ∀ batch ∈ traffic, parseBatch isSafeLinkUrl batch = .ok batch)
    (hstep : Step sha256 sendText isSafeLinkUrl documentId traffic service next)
    (h : ServiceInvariant sha256 traffic service) :
    ServiceInvariant sha256 traffic next ∧ service.log.batches <+: next.log.batches := by
  obtain ⟨cursor, hreader⟩ := h.reader
  cases hstep with
  | append request hcarried =>
    obtain ⟨hinv, hgrows, hcall⟩ := runTransaction_keeps hsend hcollision hcarried h.log
    refine ⟨⟨hinv, ?_, cursor, hreader.mono hinv hgrows⟩, hgrows⟩
    intro call hmem
    cases mem_append.mp hmem with
    | inl hold => exact (h.calls call hold).mono hgrows
    | inr hnew =>
      rw [mem_singleton.mp hnew]
      exact hcall
  | interrupted request =>
    refine ⟨⟨h.log, ?_, h.reader⟩, prefix_refl _⟩
    intro call hmem
    cases mem_append.mp hmem with
    | inl hold => exact h.calls call hold
    | inr hnew =>
      rw [mem_singleton.mp hnew]
      trivial
  | verify before call after hcalls =>
    refine ⟨⟨h.log, ?_, h.reader⟩, prefix_refl _⟩
    have hheld := h.calls
    rw [hcalls, forall_mem_append, forall_mem_cons] at hheld
    rw [forall_mem_append, forall_mem_cons]
    exact ⟨hheld.1, verifyCall_keeps hcollision h.log hheld.2.1, hheld.2.2⟩
  | read page hpage =>
    exact ⟨⟨h.log, h.calls, _, hreader.take h.log hparsed hpage⟩, prefix_refl _⟩
  | restart =>
    exact ⟨⟨h.log, h.calls, 0, readerInvariant_start h.log⟩, prefix_refl _⟩

theorem logInvariant_empty : LogInvariant sha256 traffic .empty where
  increasing := List.Pairwise.nil
  positive _ h := absurd h not_mem_nil
  carried _ h := absurd h not_mem_nil
  database _ h := absurd h not_mem_nil
  batchId _ h := absurd h not_mem_nil
  payloadHash _ h := absurd h not_mem_nil
  eventIdRows := rfl
  batchIdsDistinct := nodup_nil
  eventIdsDistinct := nodup_nil
  parentsFirst := parentsFirst_nil

theorem Reachable.invariant (hsend : SendsDatabaseText sendText)
    (hcollision : CollisionFree sha256 traffic)
    (hparsed : ∀ batch ∈ traffic, parseBatch isSafeLinkUrl batch = .ok batch)
    (h : Reachable sha256 sendText isSafeLinkUrl documentId traffic service) :
    ServiceInvariant sha256 traffic service := by
  induction h with
  | start =>
    have hempty : LogInvariant sha256 traffic .empty := logInvariant_empty
    exact ⟨hempty, fun _ hmem => absurd hmem not_mem_nil, 0, readerInvariant_start hempty⟩
  | step _ hstep ih => exact (hstep.keeps hsend hcollision hparsed ih).1

theorem Leads.keeps (hsend : SendsDatabaseText sendText) (hcollision : CollisionFree sha256 traffic)
    (hparsed : ∀ batch ∈ traffic, parseBatch isSafeLinkUrl batch = .ok batch)
    (hleads : Leads sha256 sendText isSafeLinkUrl documentId traffic service later)
    (h : ServiceInvariant sha256 traffic service) :
    ServiceInvariant sha256 traffic later ∧ service.log.batches <+: later.log.batches := by
  induction hleads with
  | refl => exact ⟨h, prefix_refl _⟩
  | step _ hstep ih =>
    obtain ⟨hmiddle, hgrows⟩ := ih
    obtain ⟨hlater, hmore⟩ := hstep.keeps hsend hcollision hparsed hmiddle
    exact ⟨hlater, hgrows.trans hmore⟩

end Runs

section Contract

variable (sha256 : Text → Text) (sendText : Text → Option Text) (isSafeLinkUrl : Text → Bool)
  (documentId : Text) (traffic : Set RichTextEventBatch)

/-- The contract of the durable event log, as it stands after some run. -/
structure DurableLog (service : Service) : Prop where
  batchIdsDistinct : (service.log.batches.map (·.batchId)).Nodup
  eventIdsDistinct : (service.log.batches.flatMap (·.payload.eventIds)).Nodup
  parentsFirst : ParentsFirst (service.log.batches.map (·.payload))
  hashKept : ∀ later, Leads sha256 sendText isSafeLinkUrl documentId traffic service later →
    service.log.batches <+: later.log.batches ∧
      ∀ row ∈ service.log.batches, ∀ other ∈ later.log.batches,
        other.batchId = row.batchId → other.payloadHash = row.payloadHash
  throwKeepsLog : ∀ request,
    (∀ ids, (runTransaction sha256 sendText documentId service.log request).2 ≠
      .answered (.ok ids)) →
    (runTransaction sha256 sendText documentId service.log request).1 = service.log
  repeatKeepsLog : ∀ call ∈ service.calls, ∀ ids, call.phase = .answered (.ok ids) →
    ids = batchIds call.request.batches ∧
      ∀ again : AppendCall, again.batches = call.request.batches →
        runTransaction sha256 sendText documentId service.log again = (service.log, .answered (
            if hasWriteAccess again.role.toList then .ok ids
            else .error (.authorization (text "actor no longer has document write access"))))
  reads : ∃ page, readEventPage isSafeLinkUrl service.log service.reader.cursor = some page ∧
    service.reader.received ++ page.batches <+: service.log.batches.map (·.payload) ∧
      (page.complete = true →
        service.reader.received ++ page.batches = service.log.batches.map (·.payload)) ∧
      (page.complete = false → page.batches.length = REPAIR_PAGE_SIZE)

variable {sha256 sendText isSafeLinkUrl documentId traffic} {service : Service}

theorem throw_keeps_log (log : EventLog) (request : AppendCall)
    (h : ∀ ids, (runTransaction sha256 sendText documentId log request).2 ≠ .answered (.ok ids)) :
    (runTransaction sha256 sendText documentId log request).1 = log := by
  unfold runTransaction at h ⊢
  split at h
  · exact absurd rfl (h _)
  · rfl
  · rfl

theorem ServiceInvariant.repeat_keeps_log (hsend : SendsDatabaseText sendText)
    (hinv : ServiceInvariant sha256 traffic service) {call : Call} (hcall : call ∈ service.calls)
    {ids : List Text} (hphase : call.phase = .answered (.ok ids)) :
    ids = batchIds call.request.batches ∧
      ∀ again : AppendCall, again.batches = call.request.batches →
        runTransaction sha256 sendText documentId service.log again = (service.log, .answered (
            if hasWriteAccess again.role.toList then .ok ids
            else .error (.authorization (text "actor no longer has document write access")))) := by
  have hheld := hinv.calls call hcall
  unfold CallInvariant at hheld
  rw [hphase] at hheld
  obtain ⟨hids, hnodup, hall⟩ := hheld
  refine ⟨hids, ?_⟩
  intro again hagain
  rw [← hagain] at hnodup hall hids
  unfold runTransaction
  cases haccess : hasWriteAccess again.role.toList with
  | true =>
    rw [appendTransaction_of_holds hsend hinv.log hnodup haccess hall, hids]
    rfl
  | false =>
    have hrefused : appendTransaction sha256 sendText documentId again service.log =
        .error (.authorization (text "actor no longer has document write access")) := by
      unfold appendTransaction
      rw [if_neg (not_not.mpr hnodup), haccess]
      rfl
    rw [hrefused]
    rfl

theorem ServiceInvariant.reads
    (hparsed : ∀ batch ∈ traffic, parseBatch isSafeLinkUrl batch = .ok batch)
    (hinv : ServiceInvariant sha256 traffic service) :
    ∃ page, readEventPage isSafeLinkUrl service.log service.reader.cursor = some page ∧
      service.reader.received ++ page.batches <+: service.log.batches.map (·.payload) ∧
        (page.complete = true →
          service.reader.received ++ page.batches = service.log.batches.map (·.payload)) ∧
        (page.complete = false → page.batches.length = REPAIR_PAGE_SIZE) := by
  obtain ⟨cursor, hreader⟩ := hinv.reader
  have hpage := readEventPage_decimal hparsed hinv.log cursor
  rw [← hreader.text] at hpage
  have hsplit : receivedRows service.log cursor ++ Paging.after (·.id) cursor service.log.batches =
      service.log.batches :=
    Paging.upTo_append_after hinv.log.increasing
  refine ⟨_, hpage, ?_, ?_, ?_⟩
  · rw [hreader.received, ← map_append]
    apply List.IsPrefix.map
    refine ⟨(Paging.after (·.id) cursor service.log.batches).drop REPAIR_PAGE_SIZE, ?_⟩
    rw [append_assoc, pageRows, take_append_drop]
    exact hsplit
  · intro hcomplete
    have hall := take_of_length_le (of_decide_eq_true hcomplete)
    dsimp only
    rw [hreader.received, ← map_append, pageRows, hall, hsplit]
  · intro hincomplete
    have hmore := of_decide_eq_false hincomplete
    dsimp only
    rw [length_map, pageRows, length_take]
    omega

/-- The log keeps its contract under every run of appends, verifications and reads. -/
theorem durable_log (hsend : SendsDatabaseText sendText) (hcollision : CollisionFree sha256 traffic)
    (hparsed : ∀ batch ∈ traffic, parseBatch isSafeLinkUrl batch = .ok batch)
    (h : Reachable sha256 sendText isSafeLinkUrl documentId traffic service) :
    DurableLog sha256 sendText isSafeLinkUrl documentId traffic service := by
  have hinv := h.invariant hsend hcollision hparsed
  refine ⟨hinv.log.batchIdsDistinct, ?_, hinv.log.parentsFirst, ?_, throw_keeps_log service.log,
    fun call hcall ids hphase => hinv.repeat_keeps_log hsend hcall hphase, hinv.reads hparsed⟩
  · have hstored := hinv.log.eventIdsDistinct
    rw [hinv.log.storedEventIds_eq, flatMap_map] at hstored
    exact hstored
  · intro later hleads
    obtain ⟨hlater, hgrows⟩ := hleads.keeps hsend hcollision hparsed hinv
    refine ⟨hgrows, ?_⟩
    intro row hrow other hother hsame
    have heq : other = row :=
      inj_on_of_nodup_map hlater.log.batchIdsDistinct hother (hgrows.subset hrow) hsame
    rw [heq]

def bootstrapDigest : Text :=
  text "c6ffd2e375f7b64601c9b7c7e0fc3e06cdc1ccf990752bf0c8a2b4b07139b9c9"

def bootstrapCall : AppendCall where
  actorId := text "6f6a0b0e-58c1-4d4c-9a0e-0c5a8e6f2a11"
  batches := [BOOTSTRAP_BATCH]
  role := some .owner
  skipped _ := 0

theorem durable_log_bootstrap : ∃ service : Service,
    service.log.batches.map (·.payload) = [BOOTSTRAP_BATCH] ∧
      DurableLog (fun _ => bootstrapDigest) some (fun _ => true) (text "document")
        {BOOTSTRAP_BATCH} service := by
  refine ⟨_, ?_, durable_log (fun _ _ => rfl) ?_ ?_ (.step .start (.append _ bootstrapCall ?_))⟩
  · decide +kernel
  · rw [CollisionFree, Set.image_singleton]
    exact Set.injOn_singleton _ _
  · rintro batch rfl
    decide +kernel
  · intro batch hbatch
    exact mem_singleton.mp hbatch

end Contract

end Softmaple.EventStore
