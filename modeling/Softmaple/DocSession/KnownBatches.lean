import Softmaple.DocSession.SessionController
import Softmaple.DocSession.QueuedBatches

/-!
What a session knows, its replica holds. Along every collaboration in which no
application throws and no queue is dropped, a known batch is integrated, parked
or queued in a living binding, and the repair cursor never passes a stored
batch that is not known.
-/
namespace Softmaple.DocSession

open BlockModel StateMethod SharedReplica List SessionController

variable {T : Type}

namespace SessionController

structure Accounted (engine : TextEngine T) (config : ReplicaConfig)
    (session : SessionController T) : Prop where
  reached : SharedReplica.Reached engine config session.shared
  known : ∀ batchId ∈ session.knownBatches,
    session.shared.replica.Holds batchId ∨ Queued session.shared batchId
  bound : ∀ index, session.bindingRef = some index → Lives session.shared index

variable {engine : TextEngine T} {config : ReplicaConfig} {session : SessionController T}

variable {shared : SharedReplica T}

theorem accounted_follow (hreached : SharedReplica.Reached engine config shared)
    (hknown : ∀ batchId ∈ session.knownBatches,
      shared.replica.Holds batchId ∨ Queued shared batchId)
    (hbound : ∀ index, session.bindingRef = some index → Lives shared index) :
    Accounted engine config (session.follow shared) where
  reached := hreached
  known := by
    intro batchId hmem
    simp only [follow] at hmem ⊢
    split at hmem
    · exact hknown batchId hmem
    · cases mem_append.mp hmem with
      | inl hold => exact hknown batchId hold
      | inr hnew =>
        obtain ⟨batch, hbatch⟩ := Option.isSome_iff_exists.mp (mem_filter.mp hnew).2
        exact Or.inl (BlockReplica.holds_of_getBatch hbatch)
  bound := hbound

theorem Accounted.known_after (h : Accounted engine config session)
    (hkeeps : Action.Keeps session.bindingRef session.shared shared) :
    ∀ batchId ∈ session.knownBatches, shared.replica.Holds batchId ∨ Queued shared batchId := by
  intro batchId hmem
  cases h.known batchId hmem with
  | inl hheld => exact Or.inl (hkeeps.held batchId hheld)
  | inr hqueued => exact hkeeps.queued batchId hqueued

theorem Accounted.bound_after (h : Accounted engine config session)
    (hkeeps : Action.Keeps session.bindingRef session.shared shared) :
    ∀ index, session.bindingRef = some index → Lives shared index :=
  fun index hindex => hkeeps.lives index hindex (h.bound index hindex)

@[simp] theorem follow_shared (shared : SharedReplica T) :
    (session.follow shared).shared = shared := rfl

@[simp] theorem follow_bindingRef (shared : SharedReplica T) :
    (session.follow shared).bindingRef = session.bindingRef := rfl

theorem known_follow (shared : SharedReplica T) {batchId : Text}
    (h : batchId ∈ session.knownBatches) : batchId ∈ (session.follow shared).knownBatches := by
  rw [follow]
  split
  · exact h
  · exact mem_append_left _ h

structure Continues (first last : SessionController T) : Prop where
  known : ∀ batchId ∈ first.knownBatches, batchId ∈ last.knownBatches
  bindingRef : last.bindingRef = first.bindingRef
  synced : last.synced = first.synced
  active : last.activeRepairRequestId = first.activeRepairRequestId
  repairCursor : last.repairCursor = first.repairCursor
  requests : last.requests = first.requests
  held : BlockReplica.KeepsHeld first.shared.replica last.shared.replica

theorem chains_continues : Chains (Continues (T := T)) where
  refl _ := ⟨fun _ h => h, rfl, rfl, rfl, rfl, rfl, fun _ h => h⟩
  trans h k := ⟨fun batchId hmem => k.known batchId (h.known batchId hmem),
    k.bindingRef.trans h.bindingRef, k.synced.trans h.synced, k.active.trans h.active,
    k.repairCursor.trans h.repairCursor, k.requests.trans h.requests,
    fun batchId hheld => k.held batchId (h.held batchId hheld)⟩

theorem continues_follow (session : SessionController T)
    (hheld : BlockReplica.KeepsHeld session.shared.replica shared.replica) :
    Continues session (session.follow shared) :=
  ⟨fun _ => known_follow shared, rfl, rfl, rfl, rfl, rfl, hheld⟩

theorem deliverBatch_keepsBatches (bindingRef : Option Nat) (delivery : Delivery)
    (batch : RichTextEventBatch) :
    Within KeepsBatches (deliverBatch engine config bindingRef delivery batch) := by
  cases bindingRef with
  | none => exact deliver_keepsBatches delivery [batch]
  | some index => exact respects_keepsBatches.bindingApply index delivery [batch]

theorem onShared_continues {method : SharedReplica.Method T Unit}
    (h : Within KeepsBatches method) : Within Continues (onShared method) := by
  intro session
  have hstep := h session.shared
  rw [onShared]
  cases hresult : method session.shared with
  | ok _ shared =>
    rw [hresult] at hstep
    exact continues_follow session hstep.held
  | error error shared =>
    rw [hresult] at hstep
    exact continues_follow session hstep.held

theorem applyBatch_continues (deliveries : Text → Delivery) (batch : RichTextEventBatch) :
    Within Continues (applyBatch engine config deliveries batch) := by
  apply Within.bind chains_continues (Within.get chains_continues)
  intro session
  apply Within.ite (Within.pure chains_continues _)
  apply Within.bind chains_continues
  · apply Within.modify
    intro session
    exact ⟨fun _ h => mem_append_left _ h, rfl, rfl, rfl, rfl, rfl, fun _ h => h⟩
  · exact fun _ => onShared_continues (deliverBatch_keepsBatches _ _ _)

theorem applyBatches_continues (deliveries : Text → Delivery) (batches : List RichTextEventBatch) :
    Within Continues (applyBatches engine config deliveries batches) :=
  Within.forM chains_continues (applyBatch_continues deliveries) batches

theorem deliverBatch_reached (bindingRef : Option Nat) (delivery : Delivery)
    (batch : RichTextEventBatch) :
    Leads (SharedReplica.Reached engine config) (SharedReplica.Reached engine config)
      (deliverBatch engine config bindingRef delivery batch) := by
  cases bindingRef with
  | none => exact deliver_reached delivery [batch]
  | some index => exact bindingApply_reached index delivery [batch]

theorem deliverBatch_accounts {bindingRef : Option Nat} {delivery : Delivery}
    {batch : RichTextEventBatch} {first last : SharedReplica T}
    (hbound : ∀ index, bindingRef = some index → Lives first index)
    (h : deliverBatch engine config bindingRef delivery batch first = .ok ⟨⟩ last) :
    last.replica.Holds batch.batchId ∨ Queued last batch.batchId := by
  cases bindingRef with
  | none => exact Or.inl (deliver_holds h (mem_singleton.mpr rfl))
  | some index =>
    obtain ⟨binding, hbinding, hlive⟩ := hbound index rfl
    obtain ⟨found, unchanged, hget, happly⟩ := bind_eq_ok.mp h
    rw [getBinding, hbinding] at hget
    cases hget
    split at happly
    · cases happly
      refine Or.inr ⟨index, { binding with
        queuedRemoteBatches := binding.queuedRemoteBatches ++ [batch] }, ?_, hlive, ?_⟩
      · rw [update, getElem?_mapIdx, hbinding, Option.map_some, if_pos rfl]
      · rw [map_append]
        exact mem_append_right _ (mem_singleton.mpr rfl)
    · split at happly
      · exact Or.inl (deliver_holds happly (mem_singleton.mpr rfl))
      · cases happly

theorem applyBatch_accounted {deliveries : Text → Delivery} {batch : RichTextEventBatch}
    {last : SessionController T} (h : Accounted engine config session)
    (hresult : applyBatch engine config deliveries batch session = .ok ⟨⟩ last) :
    Accounted engine config last ∧ batch.batchId ∈ last.knownBatches := by
  obtain ⟨found, unchanged, hget, hrest⟩ := bind_eq_ok.mp hresult
  cases hget
  split at hrest
  · next hknown =>
      cases hrest
      exact ⟨h, hknown⟩
  · obtain ⟨⟨⟩, marked, hmark, happly⟩ := bind_eq_ok.mp hrest
    cases hmark
    rw [onShared] at happly
    split at happly
    · next _ shared hdelivered =>
        cases happly
        have hkeeps : Action.Keeps session.bindingRef session.shared shared :=
          Action.keeps_of_keepsBatches ((deliverBatch_keepsBatches _ _ _).of_ok hdelivered)
        have hreached : SharedReplica.Reached engine config shared := by
          have hfinal := deliverBatch_reached session.bindingRef (deliveries batch.batchId) batch
            session.shared h.reached
          rw [hdelivered] at hfinal
          exact hfinal
        refine ⟨accounted_follow hreached ?_ (h.bound_after hkeeps), ?_⟩
        · intro batchId hmem
          cases mem_append.mp hmem with
          | inl hold => exact h.known_after hkeeps batchId hold
          | inr hnew =>
            rw [mem_singleton.mp hnew]
            exact deliverBatch_accounts h.bound hdelivered
        · exact known_follow shared (mem_append_right _ (mem_singleton.mpr rfl))
    · cases happly

theorem applyBatches_accounted {deliveries : Text → Delivery} {batches : List RichTextEventBatch}
    {last : SessionController T} (h : Accounted engine config session)
    (hresult : applyBatches engine config deliveries batches session = .ok ⟨⟩ last) :
    Accounted engine config last ∧ ∀ batch ∈ batches, batch.batchId ∈ last.knownBatches := by
  induction batches generalizing session with
  | nil =>
    cases hresult
    exact ⟨h, fun _ hmem => absurd hmem not_mem_nil⟩
  | cons batch batches ih =>
    have hsteps : (applyBatch engine config deliveries batch >>=
        fun _ => applyBatches engine config deliveries batches) session = .ok ⟨⟩ last := hresult
    obtain ⟨⟨⟩, middle, hfirst, hrest⟩ := bind_eq_ok.mp hsteps
    obtain ⟨hmiddle, hknown⟩ := applyBatch_accounted h hfirst
    obtain ⟨hlast, hothers⟩ := ih hmiddle hrest
    refine ⟨hlast, ?_⟩
    intro other hother
    cases mem_cons.mp hother with
    | inl heq =>
      rw [heq]
      exact ((applyBatches_continues deliveries batches).of_ok hrest).known _ hknown
    | inr hmem => exact hothers other hmem

end SessionController

/-- A session, the stored history and the repair responses sent so far. -/
structure Collaboration (T : Type) where
  session : SessionController T
  rows : List EventRow
  responses : List RepairResponse

namespace SessionEvent

/-- The transactions of a step edit the state that the replica is in. -/
def Runs (engine : TextEngine T) (config : ReplicaConfig) (session : SessionController T) :
    SessionEvent T → Prop
  | .acted action => action.Runs engine config session.shared
  | .ready | .repairResponse _ _ | .event _ _ | .restored _ _ | .closed | .bound _ => True

def Arrives (responses : List RepairResponse) : SessionEvent T → Prop
  | .repairResponse _ response => response ∈ responses
  | .ready | .event _ _ | .restored _ _ | .closed | .bound _ | .acted _ => True

/-- No application of a new batch throws, no queue is dropped, and a binding is bound while it
lives. -/
def Lossless (engine : TextEngine T) (config : ReplicaConfig) (session : SessionController T) :
    SessionEvent T → Prop
  | .repairResponse deliveries response =>
    session.activeRepairRequestId = some response.requestId →
      ∃ last, applyBatches engine config deliveries response.page.batches
        session = .ok ⟨⟩ last
  | .event deliveries batches =>
    ∃ last, applyBatches engine config deliveries batches session = .ok ⟨⟩ last
  | .bound (some index) => Lives session.shared index
  | .acted action => action.Lossless engine config session.bindingRef session.shared
  | .ready | .restored _ _ | .closed | .bound none => True

/-- The repair completes while nothing is queued and the bound binding does not compose. -/
def Unhindered (session : SessionController T) : SessionEvent T → Prop
  | .repairResponse _ response => response.page.complete = true →
      (∀ batchId, ¬ Queued session.shared batchId) ∧
        ∀ index binding, session.bindingRef = some index →
          session.shared.bindings[index]? = some binding → binding.isComposing = false
  | .ready | .event _ _ | .restored _ _ | .closed | .bound _ | .acted _ => True

end SessionEvent

/-- What a sequence of allowed steps makes of a new session and an empty history. The server
answers any request at any time, and frames arrive late, twice or not at all. -/
inductive Collaborates (engine : TextEngine T) (config : ReplicaConfig)
    (allowed : SessionController T → SessionEvent T → Prop) : Collaboration T → Prop where
  | start {replica : BlockReplica T} (isPublic : Bool)
      (creates : BlockReplica.create engine = .ok replica) :
      Collaborates engine config allowed
        ⟨.create { replica with listening := true } isPublic, [], []⟩
  | stored {world : Collaboration T} (row : EventRow)
      (earlier : Collaborates engine config allowed world) (positive : 0 < row.id)
      (newest : ∀ other ∈ world.rows, other.id < row.id) :
      Collaborates engine config allowed { world with rows := world.rows ++ [row] }
  | answered {world : Collaboration T} {request : RepairRequest}
      (earlier : Collaborates engine config allowed world)
      (asks : request ∈ world.session.requests) :
      Collaborates engine config allowed { world with
        responses := world.responses ++
          [⟨request.requestId, readEventPage world.rows request.afterCursor⟩] }
  | stepped {world : Collaboration T} (event : SessionEvent T)
      (earlier : Collaborates engine config allowed world)
      (runs : event.Runs engine config world.session) (arrives : event.Arrives world.responses)
      (allows : allowed world.session event) :
      Collaborates engine config allowed
        { world with session := event.apply engine config world.session }

section Repair

variable {rows : List EventRow} {known : List Text} {page : EventPage} {cursor : Nat}

structure Passed (rows : List EventRow) (known : List Text) (cursor : Nat) : Prop where
  stored : cursor = 0 ∨ ∃ row ∈ rows, row.id = cursor
  known : ∀ row ∈ rows, row.id ≤ cursor → row.batch.batchId ∈ known

structure Covers (rows : List EventRow) (afterCursor : Nat) (page : EventPage) : Prop where
  stored : page.nextCursor = afterCursor ∨ ∃ row ∈ rows, row.id = page.nextCursor
  rows : ∀ row ∈ rows, afterCursor < row.id → row.id ≤ page.nextCursor → row.batch ∈ page.batches

theorem Passed.mono (h : Passed rows known cursor) {more : List Text}
    (hmore : ∀ batchId ∈ known, batchId ∈ more) : Passed rows more cursor :=
  ⟨h.stored, fun row hrow hle => hmore _ (h.known row hrow hle)⟩

theorem Passed.append (h : Passed rows known cursor) {row : EventRow} (hpositive : 0 < row.id)
    (hnewest : ∀ other ∈ rows, other.id < row.id) : Passed (rows ++ [row]) known cursor where
  stored := by
    cases h.stored with
    | inl hzero => exact Or.inl hzero
    | inr hrow =>
      obtain ⟨other, hother, heq⟩ := hrow
      exact Or.inr ⟨other, mem_append_left _ hother, heq⟩
  known := by
    intro other hother hle
    cases mem_append.mp hother with
    | inl hold => exact h.known other hold hle
    | inr hnew =>
      rw [mem_singleton.mp hnew] at hle
      cases h.stored with
      | inl hzero => omega
      | inr hrow =>
        obtain ⟨last, hlast, heq⟩ := hrow
        have hlt := hnewest last hlast
        omega

theorem Covers.append {afterCursor : Nat} (h : Covers rows afterCursor page) {row : EventRow}
    (hnewest : ∀ other ∈ rows, other.id < row.id) :
    Covers (rows ++ [row]) afterCursor page where
  stored := by
    cases h.stored with
    | inl hsame => exact Or.inl hsame
    | inr hrow =>
      obtain ⟨other, hother, heq⟩ := hrow
      exact Or.inr ⟨other, mem_append_left _ hother, heq⟩
  rows := by
    intro other hother hafter hle
    cases mem_append.mp hother with
    | inl hold => exact h.rows other hold hafter hle
    | inr hnew =>
      rw [mem_singleton.mp hnew] at hafter hle
      cases h.stored with
      | inl hsame => omega
      | inr hrow =>
        obtain ⟨last, hlast, heq⟩ := hrow
        have hlt := hnewest last hlast
        omega

def Ordered (rows : List EventRow) : Prop := rows.Pairwise fun first second => first.id < second.id

theorem readEventPage_covers (h : Ordered rows) (afterCursor : Nat) :
    Covers rows afterCursor (readEventPage rows afterCursor) := by
  let after := rows.filter fun row => decide (afterCursor < row.id)
  have hafter : after.Pairwise fun first second => first.id < second.id :=
    h.sublist filter_sublist
  have hpage : readEventPage rows afterCursor =
      { batches := (after.take REPAIR_PAGE_SIZE).map (·.batch)
        nextCursor := ((after.take REPAIR_PAGE_SIZE).getLast?.map (·.id)).getD afterCursor
        complete := decide (after.length ≤ REPAIR_PAGE_SIZE) } := rfl
  rw [hpage]
  cases hlast : (after.take REPAIR_PAGE_SIZE).getLast? with
  | none =>
    refine ⟨Or.inl rfl, ?_⟩
    intro row _ hbefore hle
    exact absurd hle (Nat.not_le_of_lt hbefore)
  | some last =>
    have hmem := mem_of_getLast? hlast
    refine ⟨Or.inr ⟨last, ?_, rfl⟩, ?_⟩
    · exact (mem_filter.mp (mem_of_mem_take hmem)).1
    · intro row hrow hbefore hle
      have hin : row ∈ after.take REPAIR_PAGE_SIZE ++ after.drop REPAIR_PAGE_SIZE := by
        rw [take_append_drop]
        exact mem_filter.mpr ⟨hrow, decide_eq_true hbefore⟩
      cases mem_append.mp hin with
      | inl hpageRow => exact mem_map.mpr ⟨row, hpageRow, rfl⟩
      | inr hlater =>
        -- A row that the page leaves out comes after the page's last one.
        rw [← take_append_drop REPAIR_PAGE_SIZE after] at hafter
        have hlt := (pairwise_append.mp hafter).2.2 last hmem row hlater
        exact absurd hle (Nat.not_le_of_lt hlt)

theorem Passed.next (h : Passed rows known cursor) (hcovers : Covers rows cursor page)
    (hknown : ∀ batch ∈ page.batches, batch.batchId ∈ known) : Passed rows known page.nextCursor where
  stored := by
    cases hcovers.stored with
    | inl hsame =>
      rw [hsame]
      exact h.stored
    | inr hrow => exact Or.inr hrow
  known := by
    intro row hrow hle
    by_cases hbefore : row.id ≤ cursor
    · exact h.known row hrow hbefore
    · exact hknown row.batch (hcovers.rows row hrow (by omega) hle)

end Repair

structure Repairing (engine : TextEngine T) (config : ReplicaConfig) (world : Collaboration T) :
    Prop where
  accounted : world.session.Accounted engine config
  ordered : Ordered world.rows
  positive : ∀ row ∈ world.rows, 0 < row.id
  requests : ∀ request ∈ world.session.requests,
    Passed world.rows world.session.knownBatches request.afterCursor
  responses : ∀ response ∈ world.responses, ∃ request ∈ world.session.requests,
    Covers world.rows request.afterCursor response.page
  cursor : ∀ cursor, world.session.repairCursor = some cursor →
    Passed world.rows world.session.knownBatches cursor
  idle : world.session.synced = true → world.session.activeRepairRequestId = none

namespace Repairing

variable {engine : TextEngine T} {config : ReplicaConfig} {world : Collaboration T}
  {session : SessionController T}

section

variable (h : Repairing engine config world)
include h

theorem continues (haccounted : session.Accounted engine config)
    (hcontinues : SessionController.Continues world.session session) :
    Repairing engine config { world with session } where
  accounted := haccounted
  ordered := h.ordered
  positive := h.positive
  requests request hrequest := by
    rw [hcontinues.requests] at hrequest
    exact (h.requests request hrequest).mono hcontinues.known
  responses response hresponse := by
    obtain ⟨request, hrequest, hcovers⟩ := h.responses response hresponse
    exact ⟨request, by rw [hcontinues.requests]; exact hrequest, hcovers⟩
  cursor cursor hcursor := by
    rw [hcontinues.repairCursor] at hcursor
    exact (h.cursor cursor hcursor).mono hcontinues.known
  idle hsynced := by
    rw [hcontinues.synced] at hsynced
    rw [hcontinues.active]
    exact h.idle hsynced

theorem requestRepair {afterCursor : Nat} (hsynced : world.session.synced = false)
    (hpassed : Passed world.rows world.session.knownBatches afterCursor) :
    Repairing engine config { world with
      session := finalState (requestRepair afterCursor world.session) } where
  accounted := ⟨h.accounted.reached, h.accounted.known, h.accounted.bound⟩
  ordered := h.ordered
  positive := h.positive
  requests request hrequest := by
    cases mem_append.mp hrequest with
    | inl hold => exact h.requests request hold
    | inr hnew =>
      rw [mem_singleton.mp hnew]
      exact hpassed
  responses response hresponse := by
    obtain ⟨request, hrequest, hcovers⟩ := h.responses response hresponse
    exact ⟨request, mem_append_left _ hrequest, hcovers⟩
  cursor := h.cursor
  idle hnow := by
    have hbefore : world.session.synced = true := hnow
    rw [hsynced] at hbefore
    cases hbefore

theorem passed_zero : Passed world.rows world.session.knownBatches 0 :=
  ⟨Or.inl rfl, fun row hrow hle => absurd (h.positive row hrow) (by omega)⟩

theorem passed_cursor :
    Passed world.rows world.session.knownBatches (world.session.repairCursor.getD 0) := by
  cases hcursor : world.session.repairCursor with
  | none => exact h.passed_zero
  | some cursor => exact h.cursor cursor hcursor

theorem ready : Repairing engine config { world with
      session := finalState (ready world.session) } := by
  have hoffline : Repairing engine config { world with
      session := { world.session with synced := false } } :=
    ⟨⟨h.accounted.reached, h.accounted.known, h.accounted.bound⟩, h.ordered, h.positive,
      h.requests, h.responses, h.cursor, fun hsynced => by cases hsynced⟩
  exact hoffline.requestRepair rfl h.passed_cursor

omit h in
theorem passed_advance {rows : List EventRow} {known : List Text} {nextCursor cursor : Nat}
    {repairCursor : Option Nat} (hnext : Passed rows known nextCursor)
    (hcursor : ∀ cursor, repairCursor = some cursor → Passed rows known cursor)
    (h : advance nextCursor repairCursor = some cursor) :
    Passed rows known cursor := by
  cases repairCursor with
  | none =>
    cases h
    exact hnext
  | some before =>
    rw [advance, Option.some.injEq] at h
    split at h
    · exact h ▸ hnext
    · exact h ▸ hcursor before rfl

theorem finishRepair {page : EventPage} (hsynced : world.session.synced = false)
    (hnext : Passed world.rows world.session.knownBatches page.nextCursor) :
    Repairing engine config { world with
      session := finalState (SessionController.finishRepair page world.session) } := by
  have hadvanced : Repairing engine config { world with
      session := { world.session with
        repairCursor := advance page.nextCursor world.session.repairCursor } } :=
    ⟨⟨h.accounted.reached, h.accounted.known, h.accounted.bound⟩, h.ordered, h.positive,
      h.requests, h.responses, fun cursor hcursor => passed_advance hnext h.cursor hcursor, h.idle⟩
  rw [SessionController.finishRepair, bind_of_ok (modify_run _)]
  split
  · exact ⟨⟨h.accounted.reached, h.accounted.known, h.accounted.bound⟩, h.ordered, h.positive,
      h.requests, h.responses, hadvanced.cursor, fun _ => rfl⟩
  · exact hadvanced.requestRepair hsynced hnext

theorem repairResponse {deliveries : Text → Delivery}
    {response : RepairResponse} (hresponse : response ∈ world.responses)
    (hlossless : (SessionEvent.repairResponse deliveries response).Lossless engine config
      world.session) : Repairing engine config { world with
      session := finalState (SessionController.repairResponse engine config deliveries response
        world.session) } := by
  rw [SessionController.repairResponse, bind_of_ok get_run]
  split
  · next hactive =>
      obtain ⟨last, hlast⟩ := hlossless hactive
      obtain ⟨haccounted, hknown⟩ := applyBatches_accounted h.accounted hlast
      have hcontinues :=
        (applyBatches_continues deliveries response.page.batches).of_ok hlast
      have happlied := h.continues haccounted hcontinues
      obtain ⟨request, hrequest, hcovers⟩ := happlied.responses response hresponse
      rw [bind_of_ok hlast]
      apply happlied.finishRepair
      · rw [hcontinues.synced, ← Bool.not_eq_true]
        intro hsynced
        rw [h.idle hsynced] at hactive
        cases hactive
      · exact (happlied.requests request hrequest).next hcovers hknown
  · exact h

theorem restore (delivery : Delivery) (batches : List RichTextEventBatch) :
    Repairing engine config { world with
      session := finalState (SessionController.restore engine config delivery batches
        world.session) } := by
  have hkeeps := @SharedReplica.deliver_keepsBatches T engine config delivery batches
  have hcontinues : ∀ {shared : SharedReplica T}, KeepsBatches world.session.shared shared →
      SharedReplica.Reached engine config shared →
      Repairing engine config { world with session := world.session.follow shared } := by
    intro shared hstep hreached
    have hkept : Action.Keeps world.session.bindingRef world.session.shared shared :=
      Action.keeps_of_keepsBatches hstep
    exact h.continues (accounted_follow hreached
      (h.accounted.known_after hkept) (h.accounted.bound_after hkept))
      (continues_follow world.session hstep.held)
  have hreached := deliver_reached delivery batches world.session.shared
    h.accounted.reached
  cases hresult : deliver engine config delivery batches world.session.shared with
  | error error shared =>
    have hfailed : onShared (deliver engine config delivery batches)
        world.session = .error error (world.session.follow shared) := by
      rw [onShared, hresult]
    rw [hresult] at hreached
    rw [SessionController.restore, bind_of_error hfailed]
    exact hcontinues (hkeeps.of_error hresult) hreached
  | ok _ shared =>
    have hdone : onShared (deliver engine config delivery batches)
        world.session = .ok ⟨⟩ (world.session.follow shared) := by
      rw [onShared, hresult]
    rw [hresult] at hreached
    rw [SessionController.restore, bind_of_ok hdone]
    have hfollowed := hcontinues (hkeeps.of_ok hresult) hreached
    apply hfollowed.continues
    · refine ⟨hfollowed.accounted.reached, ?_, hfollowed.accounted.bound⟩
      intro batchId hmem
      cases mem_append.mp hmem with
      | inl hold => exact hfollowed.accounted.known batchId hold
      | inr hnew =>
        obtain ⟨batch, hbatch, rfl⟩ := mem_map.mp hnew
        exact Or.inl (deliver_holds hresult hbatch)
    · exact ⟨fun _ hmem => mem_append_left _ hmem, rfl, rfl, rfl, rfl, rfl, fun _ hheld => hheld⟩

theorem step {event : SessionEvent T}
    (hruns : event.Runs engine config world.session) (harrives : event.Arrives world.responses)
    (hlossless : event.Lossless engine config world.session) : Repairing engine config { world with
      session := event.apply engine config world.session } := by
  cases event with
  | ready => exact h.ready
  | repairResponse deliveries response => exact h.repairResponse harrives hlossless
  | event deliveries batches =>
    obtain ⟨last, hlast⟩ := hlossless
    have hfinal : SessionEvent.apply engine config world.session (.event deliveries batches) =
        last := by
      rw [SessionEvent.apply, hlast, finalState_ok]
    rw [hfinal]
    exact h.continues (applyBatches_accounted h.accounted hlast).1
      ((applyBatches_continues deliveries batches).of_ok hlast)
  | restored delivery batches => exact h.restore delivery batches
  | closed =>
    exact ⟨⟨h.accounted.reached, h.accounted.known, h.accounted.bound⟩, h.ordered, h.positive,
      h.requests, h.responses, h.cursor, fun hsynced => by cases hsynced⟩
  | bound binding =>
    refine ⟨⟨h.accounted.reached, h.accounted.known, ?_⟩, h.ordered, h.positive,
      h.requests, h.responses, h.cursor, h.idle⟩
    intro index hindex
    cases hindex
    exact hlossless
  | acted action =>
    have hkeeps := Action.apply_keeps hlossless
    exact h.continues (accounted_follow
      (Action.apply_reached h.accounted.reached hruns) (h.accounted.known_after hkeeps)
      (h.accounted.bound_after hkeeps))
      (continues_follow world.session hkeeps.held)

theorem stored {row : EventRow} (hpositive : 0 < row.id)
    (hnewest : ∀ other ∈ world.rows, other.id < row.id) :
    Repairing engine config { world with rows := world.rows ++ [row] } where
  accounted := h.accounted
  ordered := by
    apply pairwise_append.mpr
    refine ⟨h.ordered, pairwise_singleton _ _, ?_⟩
    intro other hother last hlast
    rw [mem_singleton.mp hlast]
    exact hnewest other hother
  positive other hother := by
    cases mem_append.mp hother with
    | inl hold => exact h.positive other hold
    | inr hnew =>
      rw [mem_singleton.mp hnew]
      exact hpositive
  requests request hrequest := (h.requests request hrequest).append hpositive hnewest
  responses response hresponse := by
    obtain ⟨request, hrequest, hcovers⟩ := h.responses response hresponse
    exact ⟨request, hrequest, hcovers.append hnewest⟩
  cursor cursor hcursor := (h.cursor cursor hcursor).append hpositive hnewest
  idle := h.idle

theorem answered {request : RepairRequest} (hrequest : request ∈ world.session.requests) :
    Repairing engine config { world with
      responses := world.responses ++
        [⟨request.requestId, readEventPage world.rows request.afterCursor⟩] } where
  accounted := h.accounted
  ordered := h.ordered
  positive := h.positive
  requests := h.requests
  responses response hresponse := by
    cases mem_append.mp hresponse with
    | inl hold => exact h.responses response hold
    | inr hnew =>
      rw [mem_singleton.mp hnew]
      exact ⟨request, hrequest, readEventPage_covers h.ordered request.afterCursor⟩
  cursor := h.cursor
  idle := h.idle

end

end Repairing

variable {engine : TextEngine T} {config : ReplicaConfig}
  {allowed : SessionController T → SessionEvent T → Prop} {world : Collaboration T}

theorem repairing_start {replica : BlockReplica T} (isPublic : Bool)
    (hcreate : BlockReplica.create engine = .ok replica) :
    Repairing engine config ⟨.create { replica with listening := true } isPublic, [], []⟩ where
  accounted := by
    have hreachable : BlockReplica.Reachable engine config { replica with listening := true } :=
      (BlockReplica.Reachable.created hcreate).subscribed true
    refine ⟨hreachable, ?_, fun index hindex => by cases hindex⟩
    intro batchId hmem
    obtain ⟨batch, hbatch, rfl⟩ := mem_map.mp hmem
    have hin : batch ∈ replica.batchesById.values :=
      (mem_insertionSort _).mp hbatch
    obtain ⟨state, -, hreturn⟩ := except_bind_eq_ok.mp hcreate
    cases hreturn
    rw [mem_singleton.mp hin]
    exact Or.inl (InsertionMap.has_iff.mpr ⟨BOOTSTRAP_BATCH, rfl⟩)
  ordered := List.Pairwise.nil
  positive row hrow := by cases hrow
  requests request hrequest := by cases hrequest
  responses response hresponse := by cases hresponse
  cursor cursor hcursor := by cases hcursor
  idle hsynced := by cases hsynced

theorem Collaborates.repairing (h : Collaborates engine config allowed world)
    (hallowed : ∀ session event, allowed session event → event.Lossless engine config session) :
    Repairing engine config world := by
  induction h with
  | start isPublic creates => exact repairing_start isPublic creates
  | stored row earlier positive newest ih => exact ih.stored positive newest
  | answered earlier asks ih => exact ih.answered asks
  | stepped event earlier runs arrives allows ih =>
    exact ih.step runs arrives (hallowed _ _ allows)

section Synced

/-- Nothing is queued, and what arrives is applied at once. -/
structure Direct (bindingRef : Option Nat) (shared : SharedReplica T) : Prop where
  empty : ∀ batchId, ¬ Queued shared batchId
  still : ∀ index binding, bindingRef = some index → shared.bindings[index]? = some binding →
    binding.isComposing = false

theorem Direct.unmoved {bindingRef : Option Nat} {shared : SharedReplica T}
    (h : Direct bindingRef shared) {replica : BlockReplica T}
    {announced : List RichTextEventBatch} {change : Nat → LexicalBinding → LexicalBinding}
    (hunmoved : ∀ index binding, LexicalBinding.Unmoved binding (change index binding)) :
    Direct bindingRef { replica, bindings := shared.bindings.mapIdx change, announced } where
  empty batchId := by
    intro ⟨index, binding, hbinding, hlive, hmem⟩
    rw [getElem?_mapIdx] at hbinding
    obtain ⟨original, horiginal, rfl⟩ := Option.map_eq_some_iff.mp hbinding
    rw [(hunmoved index original).destroyed] at hlive
    rw [(hunmoved index original).queue] at hmem
    exact h.empty batchId ⟨index, original, horiginal, hlive, hmem⟩
  still index binding hindex hbinding := by
    rw [getElem?_mapIdx] at hbinding
    obtain ⟨original, horiginal, rfl⟩ := Option.map_eq_some_iff.mp hbinding
    rw [(hunmoved index original).isComposing]
    exact h.still index original hindex horiginal

theorem deliver_direct (bindingRef : Option Nat) (delivery : Delivery)
    (batches : List RichTextEventBatch) :
    Leads (Direct bindingRef) (Direct bindingRef)
      (deliver engine config delivery batches) := by
  intro shared hdirect
  rw [deliver]
  cases BlockReplica.applyRemoteEvents engine config delivery.fuel batches shared.replica with
  | error error replica =>
    exact hdirect.unmoved fun _ binding => LexicalBinding.moveOn_unmoved _ _ binding
  | ok result replica =>
    exact hdirect.unmoved fun _ binding => LexicalBinding.delivered_unmoved _ _ _ binding _

theorem deliverBatch_direct (bindingRef : Option Nat) (delivery : Delivery)
    (batch : RichTextEventBatch) :
    Leads (Direct bindingRef) (Direct bindingRef)
      (deliverBatch engine config bindingRef delivery batch) := by
  cases bindingRef with
  | none => exact deliver_direct none delivery [batch]
  | some index =>
    refine leads_getBinding ?_ fun _ h => h
    intro binding
    split
    · next hcomposing =>
        intro shared ⟨hdirect, hbinding⟩
        rw [hdirect.still index binding rfl hbinding] at hcomposing
        cases hcomposing
    · apply Leads.ite
      · exact (deliver_direct (some index) delivery [batch]).mono (fun _ h => h.1) fun _ h => h
      · exact Leads.throw (fun _ h => h.1) _

def Delivering (session : SessionController T) : Prop := Direct session.bindingRef session.shared

theorem onShared_delivering {bindingRef : Option Nat} {method : SharedReplica.Method T Unit}
    (h : Leads (Direct bindingRef) (Direct bindingRef) method) :
    Leads (fun session => session.bindingRef = bindingRef ∧ Delivering session) Delivering
      (onShared method) := by
  intro session ⟨hbound, hdirect⟩
  rw [Delivering, hbound] at hdirect
  have hafter := h session.shared hdirect
  rw [onShared]
  cases hresult : method session.shared with
  | ok _ shared =>
    rw [hresult, ← hbound] at hafter
    exact hafter
  | error error shared =>
    rw [hresult, ← hbound] at hafter
    exact hafter

theorem applyBatch_delivering (deliveries : Text → Delivery) (batch : RichTextEventBatch) :
    Leads Delivering Delivering
      (applyBatch engine config deliveries batch) := by
  intro session hdelivering
  rw [applyBatch, bind_of_ok get_run]
  split
  · exact hdelivering
  · rw [bind_of_ok (modify_run _)]
    exact onShared_delivering (deliverBatch_direct session.bindingRef _ batch) _ ⟨rfl, hdelivering⟩

theorem applyBatches_delivering (deliveries : Text → Delivery) (batches : List RichTextEventBatch) :
    Leads Delivering Delivering
      (applyBatches engine config deliveries batches) := by
  induction batches with
  | nil => exact Leads.pure (fun _ h => h) _
  | cons batch batches ih => exact (applyBatch_delivering deliveries batch).bind fun _ => ih

def Caught (world : Collaboration T) : Prop :=
  world.session.synced = true → ∀ cursor, world.session.repairCursor = some cursor →
    ∀ row ∈ world.rows, row.id ≤ cursor → world.session.shared.replica.Holds row.batch.batchId

theorem Caught.continues (h : Caught world) {session : SessionController T}
    (hcontinues : SessionController.Continues world.session session) :
    Caught { world with session } := by
  intro hsynced cursor hcursor row hrow hle
  rw [hcontinues.synced] at hsynced
  rw [hcontinues.repairCursor] at hcursor
  exact hcontinues.held _ (h hsynced cursor hcursor row hrow hle)

theorem Caught.stored (h : Caught world) (hrepairing : Repairing engine config world)
    {row : EventRow} (hnewest : ∀ other ∈ world.rows, other.id < row.id) (hpositive : 0 < row.id) :
    Caught { world with rows := world.rows ++ [row] } := by
  intro hsynced cursor hcursor other hother hle
  cases mem_append.mp hother with
  | inl hold => exact h hsynced cursor hcursor other hold hle
  | inr hnew =>
    rw [mem_singleton.mp hnew] at hle
    cases (hrepairing.cursor cursor hcursor).stored with
    | inl hzero => omega
    | inr hrow =>
      obtain ⟨last, hlast, heq⟩ := hrow
      have hlt := hnewest last hlast
      omega

theorem SessionController.restore_continues (delivery : Delivery)
    (batches : List RichTextEventBatch) :
    Within Continues (restore engine config delivery batches) := by
  apply Within.bind chains_continues
  · exact onShared_continues (deliver_keepsBatches delivery batches)
  · intro _
    apply Within.modify
    intro session
    exact ⟨fun _ h => mem_append_left _ h, rfl, rfl, rfl, rfl, rfl, fun _ h => h⟩

/-- A repair that completes while nothing is queued leaves every known batch held. -/
theorem Caught.repairResponse (h : Caught world) (hrepairing : Repairing engine config world)
    {deliveries : Text → Delivery} {response : RepairResponse}
    (hresponse : response ∈ world.responses)
    (hlossless : (SessionEvent.repairResponse deliveries response).Lossless engine config
      world.session)
    (hunhindered : (SessionEvent.repairResponse deliveries response).Unhindered world.session) :
    Caught { world with
      session := finalState (SessionController.repairResponse engine config deliveries response
        world.session) } := by
  have hnext := hrepairing.repairResponse hresponse hlossless
  rw [SessionController.repairResponse, bind_of_ok get_run] at hnext ⊢
  split
  · next hactive =>
      obtain ⟨last, hlast⟩ := hlossless hactive
      rw [if_pos hactive, bind_of_ok hlast] at hnext
      rw [bind_of_ok hlast]
      have hcontinues :=
        (applyBatches_continues deliveries response.page.batches).of_ok hlast
      rw [SessionController.finishRepair, bind_of_ok (modify_run _)] at hnext ⊢
      split
      · next hcomplete =>
          obtain ⟨hempty, hstill⟩ := hunhindered hcomplete
          have hdelivering : Delivering last := by
            have hfinal : Delivering (finalState (applyBatches engine config
                deliveries response.page.batches world.session)) :=
              applyBatches_delivering deliveries response.page.batches world.session
                ⟨hempty, hstill⟩
            rw [hlast] at hfinal
            exact hfinal
          rw [if_pos hcomplete] at hnext
          intro _ cursor hcursor row hrow hle
          have hknown := (hnext.cursor cursor hcursor).known row hrow hle
          cases hnext.accounted.known _ hknown with
          | inl hheld => exact hheld
          | inr hqueued => exact absurd hqueued (hdelivering.empty _)
      · intro hsynced
        have hbefore : last.synced = true := hsynced
        rw [hcontinues.synced] at hbefore
        rw [hrepairing.idle hbefore] at hactive
        cases hactive
  · exact h

theorem Caught.step (h : Caught world) (hrepairing : Repairing engine config world)
    {event : SessionEvent T} (harrives : event.Arrives world.responses)
    (hlossless : event.Lossless engine config world.session)
    (hunhindered : event.Unhindered world.session) :
    Caught { world with session := event.apply engine config world.session } := by
  cases event with
  | ready => intro hsynced; cases hsynced
  | repairResponse deliveries response =>
    exact h.repairResponse hrepairing harrives hlossless hunhindered
  | event deliveries batches =>
    exact h.continues (applyBatches_continues deliveries batches world.session)
  | restored delivery batches =>
    exact h.continues (restore_continues delivery batches world.session)
  | closed => intro hsynced; cases hsynced
  | bound binding => exact h
  | acted action =>
    exact h.continues
      (continues_follow world.session (Action.apply_keeps hlossless).held)

theorem Collaborates.caught (h : Collaborates engine config allowed world)
    (hlossless : ∀ session event, allowed session event → event.Lossless engine config session)
    (hunhindered : ∀ session event, allowed session event → event.Unhindered session) :
    Caught world := by
  induction h with
  | start isPublic creates => intro hsynced; cases hsynced
  | stored row earlier positive newest ih =>
    exact ih.stored (earlier.repairing hlossless) newest positive
  | answered earlier asks ih => exact ih
  | stepped event earlier runs arrives allows ih =>
    exact ih.step (earlier.repairing hlossless) arrives (hlossless _ _ allows)
      (hunhindered _ _ allows)

end Synced

/-- The batch is integrated or parked, or is the bootstrap that every replica starts from. -/
def InReplica (replica : BlockReplica T) (batchId : Text) : Prop :=
  batchId = BOOTSTRAP_BATCH_ID ∨ batchId ∈ replica.integrated.map (·.batchId) ∨
    replica.pending.has batchId = true

/-- Along a lossless collaboration the session holds what it knows and knows what is stored up to
its cursor; if besides no repair completes over a queue, a synced session holds it. -/
theorem known_batches_held : (∀ world : Collaboration T,
      Collaborates engine config (fun session event => event.Lossless engine config session) world →
      (∀ batchId ∈ world.session.knownBatches,
        InReplica world.session.shared.replica batchId ∨ Queued world.session.shared batchId) ∧
      ∀ cursor, world.session.repairCursor = some cursor →
        ∀ row ∈ world.rows, row.id ≤ cursor → row.batch.batchId ∈ world.session.knownBatches) ∧
    (∀ world : Collaboration T,
      Collaborates engine config (fun session event =>
        event.Lossless engine config session ∧ event.Unhindered session) world →
      world.session.synced = true → ∀ cursor, world.session.repairCursor = some cursor →
        ∀ row ∈ world.rows, row.id ≤ cursor →
          InReplica world.session.shared.replica row.batch.batchId) := by
  constructor
  · intro world h
    have hrepairing := h.repairing fun _ _ hlossless => hlossless
    refine ⟨?_, fun cursor hcursor => (hrepairing.cursor cursor hcursor).known⟩
    intro batchId hknown
    cases hrepairing.accounted.known batchId hknown with
    | inl hheld => exact Or.inl ((hrepairing.accounted.reached.consistent.holds_iff _).mp hheld)
    | inr hqueued => exact Or.inr hqueued
  · intro world h hsynced cursor hcursor row hrow hle
    have hrepairing := h.repairing fun _ _ hboth => hboth.1
    have hheld := h.caught (fun _ _ hboth => hboth.1) (fun _ _ hboth => hboth.2) hsynced cursor
      hcursor row hrow hle
    exact (hrepairing.accounted.reached.consistent.holds_iff _).mp hheld

section Dropped

open BlockReplica

def promptly (_ : Text) : Delivery := uniformly .completed

def newSession : SessionController Unit := .create { newReplica with listening := true } false

def composingSession : SessionController Unit :=
  let opened := (SessionEvent.acted (.opened .completed)).apply quietText alice newSession
  (SessionEvent.acted (.composing 0)).apply quietText alice (opened.bindBinding (some 0))

/-- A stored batch arrives and is queued; then the editor goes away. -/
def unmounted : SessionController Unit :=
  let received := (SessionEvent.event promptly [opener]).apply quietText alice composingSession
  (SessionEvent.acted (.destroyed 0)).apply quietText alice (received.bindBinding none)

def openerRow : EventRow := ⟨1, opener⟩

def reconnected : SessionController Unit := SessionEvent.ready.apply quietText alice unmounted

def openerPage : RepairResponse := ⟨0, ⟨[opener], 1, true⟩⟩

def repaired : SessionController Unit :=
  (SessionEvent.repairResponse promptly openerPage).apply quietText alice reconnected

theorem unmounted_run : Collaborates quietText alice (fun _ _ => True)
    ⟨unmounted, [openerRow], []⟩ := by
  have hnew : Collaborates quietText alice (fun _ _ => True) ⟨newSession, [], []⟩ :=
    .start false create_quietText
  have hopened := Collaborates.stepped (.acted (.opened .completed)) hnew trivial trivial trivial
  have hbound := Collaborates.stepped (.bound (some 0)) hopened trivial trivial trivial
  have hcomposing := Collaborates.stepped (.acted (.composing 0)) hbound trivial trivial trivial
  have hstored := Collaborates.stored openerRow hcomposing (Nat.one_pos) fun other hother => by
    cases hother
  have hreceived := Collaborates.stepped (.event promptly [opener]) hstored trivial trivial trivial
  have hunbound := Collaborates.stepped (.bound none) hreceived trivial trivial trivial
  exact Collaborates.stepped (.acted (.destroyed 0)) hunbound trivial trivial trivial

theorem repaired_run : Collaborates quietText alice (fun _ _ => True)
    ⟨repaired, [openerRow], [openerPage]⟩ := by
  have hready := Collaborates.stepped .ready unmounted_run trivial trivial trivial
  have hanswered : Collaborates quietText alice (fun _ _ => True)
      ⟨reconnected, [openerRow], [openerPage]⟩ :=
    .answered hready (mem_singleton.mpr rfl)
  exact Collaborates.stepped (.repairResponse promptly openerPage) hanswered trivial
    (mem_singleton.mpr rfl) trivial

def poisonRow : EventRow := ⟨1, poison (text "bob:0") BOOTSTRAP_EVENT_ID⟩

/-- A stored batch arrives and its application throws; the session reconnects and repairs. -/
def skipped : SessionController Unit :=
  let thrown := (SessionEvent.event promptly [poisonRow.batch]).apply quietText alice newSession
  (SessionEvent.repairResponse promptly ⟨0, ⟨[poisonRow.batch], 1, true⟩⟩).apply quietText alice
    (SessionEvent.ready.apply quietText alice thrown.closed)

theorem skipped_run : ∃ responses, Collaborates quietText alice (fun _ _ => True)
    ⟨skipped, [poisonRow], responses⟩ := by
  have hnew : Collaborates quietText alice (fun _ _ => True) ⟨newSession, [], []⟩ :=
    .start false create_quietText
  have hstored := Collaborates.stored poisonRow hnew (Nat.one_pos) fun other hother => by
    cases hother
  have hthrown := Collaborates.stepped (.event promptly [poisonRow.batch]) hstored trivial trivial
    trivial
  have hclosed := Collaborates.stepped .closed hthrown trivial trivial trivial
  have hready := Collaborates.stepped .ready hclosed trivial trivial trivial
  have hanswered := hready.answered (mem_singleton.mpr rfl)
  exact ⟨_, Collaborates.stepped
    (.repairResponse promptly ⟨0, ⟨[poisonRow.batch], 1, true⟩⟩) hanswered trivial
    (mem_singleton.mpr rfl) trivial⟩

/-- A batch that was queued when the editor went away, and one whose application threw: the
session is synced past both, knows them, and does not have them. -/
theorem known_batch_lost :
    (Collaborates quietText alice (fun _ _ => True) ⟨repaired, [openerRow], [openerPage]⟩ ∧
      repaired.synced = true ∧ repaired.repairCursor = some openerRow.id ∧
      opener.batchId ∈ repaired.knownBatches ∧
      ¬ InReplica repaired.shared.replica opener.batchId ∧
      ¬ Queued repaired.shared opener.batchId) ∧
    (∃ responses, Collaborates quietText alice (fun _ _ => True)
      ⟨skipped, [poisonRow], responses⟩) ∧
      skipped.synced = true ∧ skipped.repairCursor = some poisonRow.id ∧
      poisonRow.batch.batchId ∈ skipped.knownBatches ∧
      ¬ InReplica skipped.shared.replica poisonRow.batch.batchId ∧
      ¬ Queued skipped.shared poisonRow.batch.batchId := by
  refine ⟨⟨repaired_run, rfl, rfl, by decide, by unfold InReplica; decide, ?_⟩,
    skipped_run, rfl, rfl, by decide, by unfold InReplica; decide, ?_⟩
  · intro ⟨index, binding, hbinding, hlive, _⟩
    have hmem := mem_of_getElem? hbinding
    rw [mem_singleton.mp hmem] at hlive
    cases hlive
  · intro ⟨index, binding, hbinding, _, _⟩
    cases hbinding

def asking : SessionController Unit := SessionEvent.ready.apply quietText alice newSession

def gotPage : SessionEvent Unit := .repairResponse promptly openerPage

def synchronized : SessionController Unit := gotPage.apply quietText alice asking

theorem gotPage_lossless : gotPage.Lossless quietText alice asking := by
  intro _
  have hreturned : returned (applyBatches quietText alice promptly [opener]
      asking) = true := by
    decide +kernel
  obtain ⟨⟨⟩, last, hlast⟩ := exists_of_returned hreturned
  exact ⟨last, hlast⟩

theorem gotPage_unhindered : gotPage.Unhindered asking := by
  intro _
  refine ⟨?_, fun index binding hindex => by cases hindex⟩
  intro batchId ⟨index, binding, hbinding, _⟩
  cases hbinding

theorem synchronized_run {allowed : SessionController Unit → SessionEvent Unit → Prop}
    (hready : allowed newSession .ready) (hpage : allowed asking gotPage) :
    Collaborates quietText alice allowed ⟨synchronized, [openerRow], [openerPage]⟩ := by
  have hnew : Collaborates quietText alice allowed ⟨newSession, [], []⟩ :=
    .start false create_quietText
  have hstored := Collaborates.stored openerRow hnew (Nat.one_pos) fun other hother => by
    cases hother
  have hasked : Collaborates quietText alice allowed ⟨asking, [openerRow], []⟩ :=
    .stepped .ready hstored trivial trivial hready
  have hanswered : Collaborates quietText alice allowed ⟨asking, [openerRow], [openerPage]⟩ :=
    .answered hasked (mem_singleton.mpr rfl)
  have harrives : gotPage.Arrives [openerPage] := mem_singleton.mpr rfl
  have hdone := Collaborates.stepped gotPage hanswered trivial harrives hpage
  exact hdone

theorem known_batches_held_synchronized : (∀ batchId ∈ synchronized.knownBatches,
      InReplica synchronized.shared.replica batchId ∨ Queued synchronized.shared batchId) ∧
    InReplica synchronized.shared.replica opener.batchId := by
  obtain ⟨hknown, hsynced⟩ := @known_batches_held Unit quietText alice
  have hlossless : Collaborates quietText alice (fun session event =>
      event.Lossless quietText alice session) ⟨synchronized, [openerRow], [openerPage]⟩ :=
    synchronized_run trivial gotPage_lossless
  have hboth : Collaborates quietText alice (fun session event =>
      event.Lossless quietText alice session ∧ event.Unhindered session)
      ⟨synchronized, [openerRow], [openerPage]⟩ :=
    synchronized_run ⟨trivial, trivial⟩ ⟨gotPage_lossless, gotPage_unhindered⟩
  exact ⟨(hknown _ hlossless).1, hsynced _ hboth rfl 1 rfl openerRow (mem_singleton.mpr rfl)
    (Nat.le_refl 1)⟩

end Dropped

end Softmaple.DocSession
