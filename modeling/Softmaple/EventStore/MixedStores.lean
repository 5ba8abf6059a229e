import Softmaple.EventStore.StoreAgreement
import Softmaple.EventStore.DurableLog

/-!
Both stores writing one log and reading its pages. Every history they produce
keeps the invariant of the log, and on it they answer alike exactly for
requests and cursors of the kinds named here.
-/
namespace Softmaple.EventStore

open BlockModel StateMethod List

section Histories

variable {sha256 : Text → Text} {sendText : Text → Option Text} {isSafeLinkUrl : Text → Bool}
  {collation : Text → Text → Prop} [DecidableRel collation] {documentId : Text}
  {call : AppendCall} {traffic : Set RichTextEventBatch} {log appended later : EventLog}

theorem accepted_of_supabaseAppend {ids : List Text}
    (h : supabaseAppend collation documentId sha256 call log = .ok (appended, ids)) :
    AllDatabase call ∧ 1 ≤ call.batches.length ∧ call.batches.length ≤ 64 := by
  have hdatabase : AllDatabase call := by
    by_contra hnot
    rw [supabaseAppend_refused hnot] at h
    cases h
  refine ⟨hdatabase, ?_⟩
  by_contra hsize
  have hall : ¬ ((call.batches.map (rpcBatch sha256)).all fun batch =>
      isDatabaseBatch batch.payload) = false := by
    rw [all_map, Bool.not_eq_false]
    exact all_eq_true.mpr hdatabase
  have hraised : appendDocumentEventBatches collation documentId call
      (call.batches.map (rpcBatch sha256)) log =
        .error (raiseUnavailable "batches must contain between 1 and 64 event batches") := by
    dsimp only [appendDocumentEventBatches]
    rw [if_neg hall, length_map, if_pos hsize]
  rw [supabaseAppend_of_error hraised] at h
  cases h

theorem StoreStep.keeps (hsend : SendsDatabaseText sendText)
    (hcollision : CollisionFree sha256 traffic)
    (hparsed : ∀ batch ∈ traffic, parseBatch isSafeLinkUrl batch = .ok batch)
    (hdigest : ∀ value, isPayloadHash (sha256 value) = true)
    (hstep : StoreStep sha256 sendText collation documentId traffic log appended)
    (hinv : LogInvariant sha256 traffic log) :
    LogInvariant sha256 traffic appended ∧ log.batches <+: appended.batches := by
  cases hstep with
  | prisma call hcarried h =>
    obtain ⟨hkept, hgrows, -⟩ := appendTransaction_keeps hsend hcollision hcarried hinv h
    exact ⟨hkept, hgrows⟩
  | supabase call hcarried ids h =>
    obtain ⟨hdatabase, hsize⟩ := accepted_of_supabaseAppend h
    have hrequest : Request sha256 isSafeLinkUrl traffic call :=
      ⟨hsize, hcarried, fun batch hbatch => hparsed batch (hcarried batch hbatch), hdigest⟩
    -- The Prisma store accepts the same request with the same log.
    have hagree : Agree (prismaAppend sha256 sendText documentId call log [])
        (supabaseAppend collation documentId sha256 call log) :=
      agree_of_database hsend hcollision hrequest hinv hdatabase
        fun later hlater => absurd hlater not_mem_nil
    rw [h] at hagree
    cases htransaction : appendTransaction sha256 sendText documentId call log with
    | ok stored =>
      rw [prismaAppend_of_ok htransaction] at hagree
      have hstored : stored = appended := congrArg Prod.fst hagree
      rw [hstored] at htransaction
      obtain ⟨hkept, hgrows, -⟩ :=
        appendTransaction_keeps hsend hcollision hcarried hinv htransaction
      exact ⟨hkept, hgrows⟩
    | error error =>
      by_cases hviolation : error = .uniqueViolation
      · rw [hviolation] at htransaction
        rw [prismaAppend_of_uniqueViolation htransaction rfl] at hagree
        exact hagree.elim
      · rw [prismaAppend_of_error htransaction hviolation] at hagree
        exact hagree.elim

theorem Follows.keeps (hsend : SendsDatabaseText sendText)
    (hcollision : CollisionFree sha256 traffic)
    (hparsed : ∀ batch ∈ traffic, parseBatch isSafeLinkUrl batch = .ok batch)
    (hdigest : ∀ value, isPayloadHash (sha256 value) = true)
    (h : Follows sha256 sendText collation documentId traffic log later)
    (hinv : LogInvariant sha256 traffic log) :
    LogInvariant sha256 traffic later ∧ log.batches <+: later.batches := by
  induction h with
  | refl => exact ⟨hinv, prefix_refl _⟩
  | tail _ hstep ih =>
    obtain ⟨hkept, hgrows⟩ := hstep.keeps hsend hcollision hparsed hdigest ih.1
    exact ⟨hkept, ih.2.trans hgrows⟩

end Histories

section Pages

variable {sha256 : Text → Text} {isSafeLinkUrl : Text → Bool} {traffic : Set RichTextEventBatch}
  {log : EventLog} {cursor : Text} {value : Nat}

theorem max_of_increasing {rows : List BatchRow} (h : Paging.Increasing (·.id) rows) :
    (rows.map (·.id)).max? = rows.getLast?.map (·.id) := by
  cases eq_nil_or_concat rows with
  | inl hnil =>
    rw [hnil]
    rfl
  | inr hlast =>
    obtain ⟨before, last, rfl⟩ := hlast
    rw [concat_eq_append] at h ⊢
    rw [getLast?_concat, Option.map_some, max?_eq_some_iff]
    constructor
    · exact mem_map_of_mem (mem_append_right _ (mem_singleton_self _))
    · intro id hid
      obtain ⟨row, hrow, rfl⟩ := mem_map.mp hid
      cases mem_append.mp hrow with
      | inl hbefore =>
        exact ((pairwise_append.mp h).2.2 row hbefore last (mem_singleton_self _)).le
      | inr hend => rw [mem_singleton.mp hend]

/-- The page of the RPC on the same rows. -/
theorem supabaseRead_of_bigInt
    (hparsed : ∀ batch ∈ traffic, parseBatch isSafeLinkUrl batch = .ok batch)
    (hinv : LogInvariant sha256 traffic log) (hcursor : bigInt cursor = some value)
    (hrange : value < 2 ^ 63) :
    supabaseRead isSafeLinkUrl log cursor = some {
      batches := (pageRows log value).map (·.payload)
      nextCursor := Json.decimal (((pageRows log value).getLast?.map (·.id)).getD value)
      complete := decide ((Paging.after (·.id) value log.batches).length ≤ REPAIR_PAGE_SIZE) } := by
  have hargument : bigintArgument cursor = some value := by
    rw [bigintArgument, hcursor, Option.filter_some, decide_eq_true hrange]
    rfl
  have hincreasing : Paging.Increasing (·.id) (pageRows log value) :=
    (hinv.increasing.sublist filter_sublist).sublist (take_sublist _ _)
  have hpage : readDocumentEventPage log value (some 100) = {
      batches := (pageRows log value).map (·.payload)
      nextCursor := Json.decimal (((pageRows log value).getLast?.map (·.id)).getD value)
      complete :=
        decide ((Paging.after (·.id) value log.batches).length ≤ REPAIR_PAGE_SIZE) } := by
    have hrows : ((log.batches.filter fun row => decide (value < row.id)).take
        (pageSize (some 100) + 1)).take (pageSize (some 100)) = pageRows log value := by
      rw [take_take, Nat.min_eq_left (Nat.le_succ _)]
      rfl
    unfold readDocumentEventPage
    dsimp only
    rw [hrows, max_of_increasing hincreasing]
    simp only [EventPage.mk.injEq, true_and]
    rw [decide_eq_decide, length_take]
    change min (100 + 1) (Paging.after (·.id) value log.batches).length ≤ 100 ↔ _ ≤ 100
    omega
  have hcarried : ∀ row ∈ pageRows log value, row.payload ∈ traffic := fun row hrow =>
    hinv.carried row (Paging.mem_after.mp (mem_of_mem_take hrow)).1
  have hparse : ((pageRows log value).map (·.payload)).mapM
      (fun batch => (parseBatch isSafeLinkUrl batch).toOption) =
        some ((pageRows log value).map (·.payload)) := by
    rw [mapM_map]
    exact parsePayloads hparsed hcarried
  unfold supabaseRead
  rw [hargument]
  dsimp only [Option.bind_eq_bind, Option.bind_some]
  rw [hpage]
  have hvalid : ∀ value, ¬ (Json.decimal value = [] ∨
      (Json.decimal value).all Json.isDigit = false) := by
    intro value
    rw [not_or, Bool.not_eq_false]
    exact ⟨Json.decimal_ne_nil value, all_eq_true.mpr (Json.isDigit_decimal value)⟩
  rw [if_neg (hvalid _), hparse]
  rfl

theorem pages_agree_iff (hparsed : ∀ batch ∈ traffic, parseBatch isSafeLinkUrl batch = .ok batch)
    (hinv : LogInvariant sha256 traffic log) (hcursor : bigInt cursor = some value)
    (hrange : value < 2 ^ 63) :
    readEventPage isSafeLinkUrl log cursor = supabaseRead isSafeLinkUrl log cursor ↔
      cursor = Json.decimal value ∨ ∃ row ∈ log.batches, value < row.id := by
  rw [readEventPage_of_bigInt hparsed hinv hcursor,
    supabaseRead_of_bigInt hparsed hinv hcursor hrange]
  simp only [Option.some.injEq, EventPage.mk.injEq, true_and, and_true]
  cases hrows : pageRows log value with
  | nil =>
    have hnone : ¬ ∃ row ∈ log.batches, value < row.id := by
      rintro ⟨row, hrow, hbeyond⟩
      have hafter : row ∈ Paging.after (·.id) value log.batches :=
        Paging.mem_after.mpr ⟨hrow, hbeyond⟩
      cases take_eq_nil_iff.mp hrows with
      | inl hzero => cases hzero
      | inr hnil =>
        rw [hnil] at hafter
        cases hafter
    rw [or_iff_left hnone]
    rfl
  | cons row rows =>
    have hbeyond : ∃ row ∈ log.batches, value < row.id := by
      have hmem : row ∈ pageRows log value := by
        rw [hrows]
        exact mem_cons_self
      exact ⟨row, Paging.mem_after.mp (mem_of_mem_take hmem)⟩
    refine ⟨fun _ => Or.inr hbeyond, fun _ => ?_⟩
    rw [getLast?_eq_getLast_of_ne_nil (cons_ne_nil row rows)]
    rfl

end Pages

section Stores

variable {sha256 : Text → Text} {sendText : Text → Option Text} {isSafeLinkUrl : Text → Bool}
  {collation : Text → Text → Prop} [DecidableRel collation] {documentId : Text}
  {call : AppendCall} {traffic : Set RichTextEventBatch} {log : EventLog} {logs : List EventLog}
  {cursor : Text} {value : Nat}

/-- On every history of both stores: they answer a request alike when the database can hold it,
or when Prisma's store too gets as far as the database with it, and they read the same page when
the cursor has no leading zeros or the page has rows. -/
theorem stores_agree_iff (hsend : SendsDatabaseText sendText)
    (hcollision : CollisionFree sha256 traffic)
    (hparsed : ∀ batch ∈ traffic, parseBatch isSafeLinkUrl batch = .ok batch)
    (hdigest : ∀ value, isPayloadHash (sha256 value) = true)
    (hlog : Follows sha256 sendText collation documentId traffic .empty log)
    (hlogs : ∀ later ∈ logs, Follows sha256 sendText collation documentId traffic log later)
    (hsize : 1 ≤ call.batches.length ∧ call.batches.length ≤ 64)
    (hcarried : ∀ batch ∈ call.batches, batch ∈ traffic)
    (hcursor : bigInt cursor = some value) (hrange : value < 2 ^ 63) :
    Agree (prismaAppend sha256 sendText documentId call log logs)
          (supabaseAppend collation documentId sha256 call log) ∧
        readEventPage isSafeLinkUrl log cursor = supabaseRead isSafeLinkUrl log cursor ↔
      (AllDatabase call ∨ StopsAtDatabase sha256 sendText documentId call log) ∧
        (cursor = Json.decimal value ∨ ∃ row ∈ log.batches, value < row.id) := by
  obtain ⟨hinv, -⟩ := hlog.keeps hsend hcollision hparsed hdigest logInvariant_empty
  have hlater : ∀ later ∈ logs,
      LogInvariant sha256 traffic later ∧ log.batches <+: later.batches := fun later hmem =>
    (hlogs later hmem).keeps hsend hcollision hparsed hdigest hinv
  have hrequest : Request sha256 isSafeLinkUrl traffic call :=
    ⟨hsize, hcarried, fun batch hbatch => hparsed batch (hcarried batch hbatch), hdigest⟩
  rw [pages_agree_iff hparsed hinv hcursor hrange]
  apply and_congr_left'
  by_cases hdatabase : AllDatabase call
  · constructor
    · intro _
      exact Or.inl hdatabase
    · intro _
      exact agree_of_database hsend hcollision hrequest hinv hdatabase hlater
  · rw [agree_refused_iff hsend hdatabase, or_iff_right hdatabase]

theorem stores_agree_bootstrap :
    Agree (prismaAppend (fun _ => bootstrapDigest) some (text "document") bootstrapCall .empty [])
        (supabaseAppend (· ≤ ·) (text "document") (fun _ => bootstrapDigest) bootstrapCall .empty) ∧
      readEventPage (fun _ => true) .empty (Json.decimal 0) =
        supabaseRead (fun _ => true) .empty (Json.decimal 0) := by
  have hcollision : CollisionFree (fun _ => bootstrapDigest) {BOOTSTRAP_BATCH} := by
    rw [CollisionFree, Set.image_singleton]
    exact Set.injOn_singleton _ _
  refine (stores_agree_iff (fun _ _ => rfl) hcollision ?_ ?_ .refl
    (fun _ h => absurd h not_mem_nil) ?_ ?_ (bigInt_decimal 0) (by decide)).mpr
    ⟨Or.inl ?_, Or.inl rfl⟩
  · rintro batch rfl
    decide +kernel
  · intro value
    decide +kernel
  · decide
  · intro batch hbatch
    exact mem_singleton.mp hbatch
  · intro batch hbatch
    rw [mem_singleton.mp hbatch]
    decide +kernel

/-- The first page of a document without events, asked for with two zeros, and a viewer's request
with a null character: the stores differ on both. -/
theorem stores_differ : ∃ call : AppendCall, (1 ≤ call.batches.length ∧ call.batches.length ≤ 64) ∧
      (∀ batch ∈ call.batches, parseBatch (fun _ => true) batch = .ok batch) ∧
      ¬ Agree (prismaAppend (fun _ => bootstrapDigest) some (text "document") call .empty [])
        (supabaseAppend (· ≤ ·) (text "document") (fun _ => bootstrapDigest) call .empty) ∧
      bigInt (text "00") = some 0 ∧
      readEventPage (fun _ => true) .empty (text "00") ≠
        supabaseRead (fun _ => true) .empty (text "00") := by
  refine ⟨{
    actorId := text "6f6a0b0e-58c1-4d4c-9a0e-0c5a8e6f2a11"
    batches := [{
      batchId := text "event"
      parentVersion := [BOOTSTRAP_EVENT_ID]
      events := [{
        id := text "event"
        parentVersion := [BOOTSTRAP_EVENT_ID]
        timestamp := 0
        operation := .insert 1 [Utf8.unit 0]
        effect := .textInsert BOOTSTRAP_BLOCK_ID [Utf8.unit 0] }] }]
    role := some .viewer
    skipped := fun _ => 0 }, by decide, ?_, ?_, by decide +kernel, by decide +kernel⟩
  · intro batch hbatch
    rw [mem_singleton.mp hbatch]
    decide +kernel
  · have hrefused : ∀ batch, isDatabaseBatch batch = false →
        ∀ call : AppendCall, call.batches = [batch] → ¬ AllDatabase call := by
      intro batch hbatch call hcall hall
      rw [hall batch (by rw [hcall]; exact mem_singleton_self _)] at hbatch
      cases hbatch
    rw [agree_refused_iff (fun _ _ => rfl) (hrefused _ (by decide +kernel) _ rfl)]
    intro hstops
    exact absurd hstops.2.1 (by decide)

end Stores

end Softmaple.EventStore
