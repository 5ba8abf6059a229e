import Softmaple.BlockModel.BlockReplica
import Softmaple.Lib.CausalRelease

/-!
What `planIntegration` makes ready. The invariant of the wake loop splits the
held batches into the ready ones, those parked on an event that was not popped
yet, and those not looked at; an event is popped once, so the loop ends, and
the ready batches are the released ones in a causal order.
-/
namespace Softmaple.BlockModel.BlockReplica

open CausalRelease InsertionMap List

variable {T : Type}

structure ParkedIndex (replica : BlockReplica T) : Prop where
  keyed : ∀ {key entry}, replica.pending.get? key = some entry → entry.batch.batchId = key
  missing : ∀ {key entry}, replica.pending.get? key = some entry →
    entry.missing ∈ entry.batch.parentVersion
  waits : ∀ {eventId key}, key ∈ (replica.waiting.get? eventId).getD [] ↔
    ∃ entry, replica.pending.get? key = some entry ∧ entry.missing = eventId
  once : ∀ eventId, ((replica.waiting.get? eventId).getD []).Nodup

def pendingBatches (replica : BlockReplica T) : List RichTextEventBatch :=
  replica.pending.values.map (·.batch)

/-- The batches a plan decides on: those that arrive and those already parked. -/
def held (replica : BlockReplica T) (staged : List RichTextEventBatch) :
    List RichTextEventBatch :=
  staged ++ replica.pendingBatches

def Available (replica : BlockReplica T) (eventId : Text) : Prop :=
  replica.state.hasEvent eventId = true

abbrev BatchOrder (replica : BlockReplica T) : List RichTextEventBatch → Prop :=
  CausalOrder (·.parentVersion) RichTextEventBatch.eventIds replica.Available

structure PlanInput (replica : BlockReplica T) (staged : List RichTextEventBatch)
    (arrived : List Text) : Prop where
  index : ParkedIndex replica
  available : ∀ eventId ∈ arrived, replica.Available eventId
  ids : ((held replica staged).map (·.batchId)).Nodup
  produced : (arrived ++ (held replica staged).flatMap (·.eventIds)).Nodup

/-- No parked batch waits for an event that the state had before `arrived`. -/
def Awaits (replica : BlockReplica T) (arrived : List Text) : Prop :=
  ∀ {key entry}, replica.pending.get? key = some entry →
    ¬ replica.Available entry.missing ∨ entry.missing ∈ arrived

variable {batch : RichTextEventBatch}

variable {replica : BlockReplica T}

theorem mem_pendingBatches (hindex : ParkedIndex replica) : batch ∈ replica.pendingBatches ↔
      ∃ entry, replica.pending.get? batch.batchId = some entry ∧ entry.batch = batch := by
  rw [pendingBatches, mem_map]
  constructor
  · rintro ⟨entry, hentry, rfl⟩
    obtain ⟨pair, hpair, rfl⟩ := mem_map.mp hentry
    have hget : replica.pending.get? pair.1 = some pair.2 := mem_entries.mp hpair
    rw [hindex.keyed hget]
    exact ⟨pair.2, hget, rfl⟩
  · rintro ⟨entry, hget, rfl⟩
    exact ⟨entry, mem_map_of_mem (mem_entries.mpr hget), rfl⟩

theorem ParkedIndex.mem_pending (hindex : ParkedIndex replica)
    {key : Text} {entry : PendingBatch} (hget : replica.pending.get? key = some entry) :
    entry.batch ∈ replica.pendingBatches :=
  (mem_pendingBatches hindex).mpr ⟨entry, by rw [hindex.keyed hget]; exact hget, rfl⟩

theorem ParkedIndex.mem_held (hindex : ParkedIndex replica)
    {staged : List RichTextEventBatch} {key : Text} {entry : PendingBatch}
    (hget : replica.pending.get? key = some entry) : entry.batch ∈ held replica staged :=
  mem_append_right _ (hindex.mem_pending hget)

theorem missingParent_some {state : ReplicaState T} {planned : List Text} {missing : Text}
    (h : missingParent state planned batch = some missing) :
    missing ∈ batch.parentVersion ∧ ¬ state.hasEvent missing = true ∧ missing ∉ planned := by
  refine ⟨mem_of_find?_eq_some h, ?_⟩
  simpa using find?_some h

theorem missingParent_none {state : ReplicaState T} {planned : List Text}
    (h : missingParent state planned batch = none) :
    ∀ parent ∈ batch.parentVersion, state.hasEvent parent = true ∨ parent ∈ planned := by
  intro parent hparent
  have hnot := find?_eq_none.mp h parent hparent
  by_cases hhas : state.hasEvent parent = true
  · exact Or.inl hhas
  · right
    simpa [hhas] using hnot

variable {replica : BlockReplica T} {staged : List RichTextEventBatch} {arrived : List Text}

structure Draws (replica : BlockReplica T) (staged : List RichTextEventBatch)
    (planning : Planning) : Prop where
  ready : ∀ batch ∈ planning.ready, batch ∈ held replica staged
  parked : ∀ {key entry}, planning.parked.get? key = some entry →
    entry.batch.batchId = key ∧ entry.batch ∈ held replica staged ∧
      entry.missing ∈ entry.batch.parentVersion

variable {planning : Planning}

theorem Draws.evaluate (h : Draws replica staged planning) (hbatch : batch ∈ held replica staged) :
    Draws replica staged (planning.evaluate replica.state batch) := by
  cases hmissing : missingParent replica.state planning.planned batch with
  | none =>
    rw [Planning.evaluate, hmissing]
    refine ⟨forall_mem_append.mpr ⟨h.ready, ?_⟩, ?_⟩
    · intro other hother
      rw [mem_singleton.mp hother]
      exact hbatch
    · intro key entry hget
      obtain ⟨hkey, hget⟩ := get?_erase_eq_some.mp hget
      exact h.parked hget
  | some missing =>
    rw [Planning.evaluate, hmissing]
    refine ⟨h.ready, ?_⟩
    intro key entry hget
    obtain ⟨hkey, rfl⟩ | ⟨hkey, hget⟩ := get?_set_eq_some.mp hget
    · exact ⟨hkey.symm, hbatch, (missingParent_some hmissing).1⟩
    · exact h.parked hget

theorem Draws.foldl_evaluate {queue : List RichTextEventBatch}
    (h : Draws replica staged planning) (hqueue : ∀ batch ∈ queue, batch ∈ held replica staged) :
    Draws replica staged (queue.foldl (Planning.evaluate replica.state) planning) := by
  induction queue generalizing planning with
  | nil => exact h
  | cons batch queue ih =>
    rw [forall_mem_cons] at hqueue
    exact ih (h.evaluate hqueue.1) hqueue.2

variable {batches : InsertionMap Text PendingBatch}

variable {keys : List Text}

theorem waiters_draw {woken : List RichTextEventBatch} (h : waiters batches keys = .ok woken) :
    ∀ batch ∈ woken, ∃ key entry, batches.get? key = some entry ∧ entry.batch = batch := by
  have hall := StateMethod.except_mapM_eq_ok.mp h
  intro batch hbatch
  induction hall with
  | nil => cases hbatch
  | @cons key first keys rest hkey hrest ih =>
    cases mem_cons.mp hbatch with
    | inl heq =>
      cases hget : batches.get? key with
      | none => rw [hget] at hkey; cases hkey
      | some entry =>
        rw [hget] at hkey
        exact ⟨key, entry, hget, (Except.ok.inj hkey).trans heq.symm⟩
    | inr hin => exact ih (StateMethod.except_mapM_eq_ok.mpr hrest) hin

variable {fuel : Nat}

/-- What holds at the end and before each round, if it does after it, holds at the start. -/
theorem wakeLoop_induction {final : Planning} {motive : Nat → Planning → Prop}
    (hdone : ∀ fuel, final.woken = [] → motive fuel final)
    (hround : ∀ fuel planning eventId woken waiting parked, planning.woken = eventId :: woken →
      waiters replica.pending ((replica.waiting.get? eventId).getD []) = .ok waiting →
      waiters planning.parked ((planning.parkedByMissing.get? eventId).getD []) = .ok parked →
      motive fuel ((waiting ++ parked).foldl (Planning.evaluate replica.state)
        { planning with woken, parkedByMissing := planning.parkedByMissing.erase eventId }) →
      motive (fuel + 1) planning)
    (hloop : wakeLoop replica fuel planning = .ok final) : motive fuel planning := by
  induction fuel generalizing planning with
  | zero =>
    cases hwoken : planning.woken with
    | nil => rw [wakeLoop, hwoken] at hloop; cases hloop; exact hdone 0 hwoken
    | cons eventId woken => rw [wakeLoop, hwoken] at hloop; cases hloop
  | succ fuel ih =>
    cases hwoken : planning.woken with
    | nil => rw [wakeLoop, hwoken] at hloop; cases hloop; exact hdone _ hwoken
    | cons eventId woken =>
      rw [wakeLoop, hwoken] at hloop
      obtain ⟨waiting, hwaiting, hloop⟩ := StateMethod.except_bind_eq_ok.mp hloop
      obtain ⟨parked, hparked, hloop⟩ := StateMethod.except_bind_eq_ok.mp hloop
      exact hround fuel planning eventId woken waiting parked hwoken hwaiting hparked (ih hloop)

theorem wakeLoop_draws {final : Planning} (hindex : ParkedIndex replica)
    (h : Draws replica staged planning) (hloop : wakeLoop replica fuel planning = .ok final) :
    Draws replica staged final := by
  refine wakeLoop_induction (motive := fun _ planning => Draws replica staged planning →
    Draws replica staged final) (fun _ _ h => h) ?_ hloop h
  intro fuel planning eventId woken waiting parked hwoken hwaiting hparked ih h
  have hpopped : Draws replica staged { planning with
        woken
        parkedByMissing := planning.parkedByMissing.erase eventId } := ⟨h.ready, h.parked⟩
  apply ih (hpopped.foldl_evaluate _)
  intro batch hbatch
  cases mem_append.mp hbatch with
  | inl hin =>
    obtain ⟨key, entry, hget, rfl⟩ := waiters_draw hwaiting batch hin
    exact hindex.mem_held hget
  | inr hin =>
    obtain ⟨key, entry, hget, rfl⟩ := waiters_draw hparked batch hin
    exact (h.parked hget).2.1

theorem planIntegration_draws {plan : IntegrationPlan} (hindex : ParkedIndex replica)
    (hplan : planIntegration fuel replica staged arrived = .ok plan) :
    (∀ batch ∈ plan.ready, batch ∈ held replica staged) ∧
      ∀ {key entry}, plan.parked.get? key = some entry →
        entry.batch.batchId = key ∧ entry.batch ∈ held replica staged ∧
          entry.missing ∈ entry.batch.parentVersion := by
  obtain ⟨final, hloop, hfinish⟩ := StateMethod.except_bind_eq_ok.mp hplan
  cases hfinish
  have hstart : Draws replica staged ⟨[], .empty, .empty, [], arrived.reverse⟩ := by
    constructor
    · intro batch hbatch
      cases hbatch
    · intro key entry hget
      cases hget
  have hstaged : ∀ batch ∈ staged, batch ∈ held replica staged :=
    fun batch hbatch => mem_append_left _ hbatch
  have hfinal := wakeLoop_draws hindex (hstart.foldl_evaluate hstaged) hloop
  exact ⟨hfinal.ready, hfinal.parked⟩

namespace PlanInput

theorem batches_nodup (h : PlanInput replica staged arrived) : (held replica staged).Nodup :=
  List.Nodup.of_map _ h.ids

theorem eq_of_id (h : PlanInput replica staged arrived) {left right : RichTextEventBatch}
    (hleft : left ∈ held replica staged) (hright : right ∈ held replica staged)
    (hid : left.batchId = right.batchId) : left = right :=
  inj_on_of_nodup_map h.ids hleft hright hid

end PlanInput

/-- The plan in the making. `popped` are the events taken off the stack, `queue` the batches
that are about to be looked at. -/
structure Planned (replica : BlockReplica T) (staged : List RichTextEventBatch)
    (arrived popped : List Text) (queue : List RichTextEventBatch) (planning : Planning) :
    Prop where
  events : (popped ++ planning.woken).Perm (arrived ++ planning.ready.flatMap (·.eventIds))
  planned : planning.planned = planning.ready.flatMap (·.eventIds)
  order : BatchOrder replica planning.ready
  nodup : (planning.ready ++ queue).Nodup
  held : ∀ batch ∈ planning.ready ++ queue, batch ∈ BlockReplica.held replica staged
  keyed : ∀ {key entry}, planning.parked.get? key = some entry →
    entry.batch.batchId = key ∧ entry.batch ∈ BlockReplica.held replica staged ∧
      entry.batch ∉ planning.ready
  parked : ∀ {key entry}, planning.parked.get? key = some entry → entry.batch ∉ queue →
    entry.missing ∈ entry.batch.parentVersion ∧ ¬ replica.Available entry.missing ∧
      entry.missing ∉ popped
  waits : ∀ {eventId key}, key ∈ (planning.parkedByMissing.get? eventId).getD [] ↔
    ∃ entry, planning.parked.get? key = some entry ∧ entry.missing = eventId ∧ entry.batch ∉ queue
  once : ∀ eventId, ((planning.parkedByMissing.get? eventId).getD []).Nodup
  complete : ∀ batch ∈ BlockReplica.held replica staged,
    batch ∈ planning.ready ∨ batch ∈ queue ∨ planning.parked.has batch.batchId = true ∨
      ∃ entry, replica.pending.get? batch.batchId = some entry ∧ entry.batch = batch ∧
        entry.missing ∉ popped
  touched : ∀ {key entry}, replica.pending.get? key = some entry → entry.missing ∉ popped →
    entry.batch ∉ planning.ready ∧ entry.batch ∉ queue ∧ planning.parked.get? key = none

namespace Planned

variable {popped : List Text} {queue : List RichTextEventBatch} {planning : Planning}
  {batch : RichTextEventBatch}

theorem start (h : PlanInput replica staged arrived) :
    Planned replica staged arrived [] staged ⟨[], .empty, .empty, [], arrived.reverse⟩ where
  events := by
    simp only [nil_append, flatMap_nil, append_nil]
    exact reverse_perm arrived
  planned := rfl
  order := trivial
  nodup := (nodup_append.mp h.batches_nodup).1
  held batch hbatch := mem_append_left _ hbatch
  keyed hget := nomatch hget
  parked hget := nomatch hget
  waits := by
    intro eventId key
    constructor
    · intro hmem
      cases hmem
    · rintro ⟨entry, hget, -⟩
      cases hget
  once _ := nodup_nil
  complete batch hbatch := by
    cases mem_append.mp hbatch with
    | inl hstaged => exact Or.inr (Or.inl hstaged)
    | inr hpending =>
      obtain ⟨entry, hget, heq⟩ := (mem_pendingBatches h.index).mp hpending
      exact Or.inr (Or.inr (Or.inr ⟨entry, hget, heq, not_mem_nil⟩))
  touched := by
    intro key entry hget _
    refine ⟨not_mem_nil, ?_, rfl⟩
    intro hstaged
    exact (nodup_append.mp h.batches_nodup).2.2 _ hstaged _ (h.index.mem_pending hget) rfl

theorem not_popped (hinput : PlanInput replica staged arrived)
    (h : Planned replica staged arrived popped queue planning) {missing : Text}
    (havailable : ¬ replica.Available missing) (hplanned : missing ∉ planning.planned) :
    missing ∉ popped := by
  intro hpopped
  have hmem : missing ∈ arrived ++ planning.ready.flatMap (·.eventIds) :=
    h.events.subset (mem_append_left _ hpopped)
  cases mem_append.mp hmem with
  | inl harrived => exact havailable (hinput.available missing harrived)
  | inr hready => exact hplanned (h.planned ▸ hready)

theorem evaluate_ready (hinput : PlanInput replica staged arrived)
    (h : Planned replica staged arrived popped (batch :: queue) planning)
    (hnone : missingParent replica.state planning.planned batch = none) :
    Planned replica staged arrived popped queue { planning with
        ready := planning.ready ++ [batch]
        parked := planning.parked.erase batch.batchId
        planned := planning.planned ++ batch.eventIds
        woken := batch.eventIds.reverse ++ planning.woken } := by
  have hheld : batch ∈ BlockReplica.held replica staged := h.held batch (by simp)
  have hsplit := nodup_append.mp h.nodup
  have hother : ∀ {key : Text} {entry : PendingBatch}, key ≠ batch.batchId →
      planning.parked.get? key = some entry → entry.batch ≠ batch := by
    intro key entry hne hget heq
    exact hne (by rw [← (h.keyed hget).1, heq])
  refine ⟨?_, ?_, ?_, ?_, ?_, ?_, ?_, ?_, h.once, ?_, ?_⟩
  · have hperm : (popped ++ (batch.eventIds.reverse ++ planning.woken)).Perm
        ((popped ++ planning.woken) ++ batch.eventIds) := by
      rw [append_assoc]
      apply List.Perm.append_left
      exact perm_append_comm.trans ((reverse_perm _).append_left _)
    rw [flatMap_append, flatMap_singleton, ← append_assoc arrived]
    exact hperm.trans (h.events.append_right _)
  · rw [flatMap_append, flatMap_singleton, h.planned]
  · apply causalOrder_concat.mpr
    refine ⟨h.order, ?_⟩
    intro parent hparent
    cases missingParent_none hnone parent hparent with
    | inl havailable => exact Or.inl havailable
    | inr hplanned =>
      rw [h.planned, mem_flatMap] at hplanned
      exact Or.inr hplanned
  · have hnodup := h.nodup
    rwa [append_cons] at hnodup
  · intro other hother
    rw [← append_cons] at hother
    exact h.held other hother
  · intro key entry hget
    obtain ⟨hkey, hget⟩ := get?_erase_eq_some.mp hget
    obtain ⟨hid, hin, hnot⟩ := h.keyed hget
    refine ⟨hid, hin, ?_⟩
    intro hmem
    cases mem_append.mp hmem with
    | inl hready => exact hnot hready
    | inr hsingle => exact hother hkey hget (mem_singleton.mp hsingle)
  · intro key entry hget hqueue
    obtain ⟨hkey, hget⟩ := get?_erase_eq_some.mp hget
    apply h.parked hget
    rw [mem_cons, not_or]
    exact ⟨hother hkey hget, hqueue⟩
  · intro eventId key
    rw [h.waits]
    constructor
    · rintro ⟨entry, hget, hmissing, hqueue⟩
      rw [mem_cons, not_or] at hqueue
      have hkey : key ≠ batch.batchId := by
        intro hkey
        exact hqueue.1 (hinput.eq_of_id (h.keyed hget).2.1 hheld ((h.keyed hget).1.trans hkey))
      refine ⟨entry, ?_, hmissing, hqueue.2⟩
      rw [get?_erase_of_ne hkey]
      exact hget
    · rintro ⟨entry, hget, hmissing, hqueue⟩
      obtain ⟨hkey, hget⟩ := get?_erase_eq_some.mp hget
      refine ⟨entry, hget, hmissing, ?_⟩
      rw [mem_cons, not_or]
      exact ⟨hother hkey hget, hqueue⟩
  · intro other hin
    by_cases heq : other = batch
    · exact Or.inl (by rw [heq]; simp)
    · cases h.complete other hin with
      | inl hready => exact Or.inl (mem_append_left _ hready)
      | inr hrest =>
        right
        cases hrest with
        | inl hqueue => exact Or.inl ((mem_cons.mp hqueue).resolve_left heq)
        | inr hrest =>
          right
          cases hrest with
          | inl hparked =>
            left
            have hid : other.batchId ≠ batch.batchId :=
              fun hid => heq (hinput.eq_of_id hin hheld hid)
            rw [has, get?_erase_of_ne hid]
            exact hparked
          | inr huntouched => exact Or.inr huntouched
  · intro key entry hget hpopped
    obtain ⟨hready, hqueue, hparked⟩ := h.touched hget hpopped
    rw [mem_cons, not_or] at hqueue
    refine ⟨?_, hqueue.2, ?_⟩
    · intro hmem
      cases mem_append.mp hmem with
      | inl hin => exact hready hin
      | inr hsingle => exact hqueue.1 (mem_singleton.mp hsingle)
    · rw [get?_erase]
      by_cases hkey : key = batch.batchId
      · rw [if_pos hkey]
      · rw [if_neg hkey]
        exact hparked

theorem evaluate_parked (hinput : PlanInput replica staged arrived)
    (h : Planned replica staged arrived popped (batch :: queue) planning) {missing : Text}
    (hsome : missingParent replica.state planning.planned batch = some missing) :
    Planned replica staged arrived popped queue { planning with
        parked := planning.parked.set batch.batchId ⟨batch, missing⟩
        parkedByMissing := planning.parkedByMissing.set missing
          ((planning.parkedByMissing.get? missing).getD [] ++ [batch.batchId]) } := by
  obtain ⟨hparent, havailable, hplanned⟩ := missingParent_some hsome
  have hpopped : missing ∉ popped := not_popped hinput h havailable hplanned
  have hheld : batch ∈ BlockReplica.held replica staged := h.held batch (by simp)
  obtain ⟨hreadyNodup, hqueueNodup, hdisjoint⟩ := nodup_append.mp h.nodup
  have hready : batch ∉ planning.ready :=
    fun hmem => hdisjoint batch hmem batch mem_cons_self rfl
  have hqueue : batch ∉ queue := (nodup_cons.mp hqueueNodup).1
  have hother : ∀ {key : Text} {entry : PendingBatch}, key ≠ batch.batchId →
      planning.parked.get? key = some entry → entry.batch ≠ batch := by
    intro key entry hne hget heq
    exact hne (by rw [← (h.keyed hget).1, heq])
  have hsame : ∀ {key : Text} {entry : PendingBatch}, key = batch.batchId →
      planning.parked.get? key = some entry → entry.batch = batch := by
    intro key entry hkey hget
    exact hinput.eq_of_id (h.keyed hget).2.1 hheld ((h.keyed hget).1.trans hkey)
  have hwaits : ∀ eventId key, key ∈ (planning.parkedByMissing.get? eventId).getD [] →
      key ≠ batch.batchId := by
    intro eventId key hmem hkey
    obtain ⟨entry, hget, -, hnot⟩ := h.waits.mp hmem
    rw [mem_cons, not_or] at hnot
    exact hnot.1 (hsame hkey hget)
  refine ⟨h.events, h.planned, h.order, ?_, ?_, ?_, ?_, ?_, ?_, ?_, ?_⟩
  · exact h.nodup.sublist (List.Sublist.append_left (sublist_cons_self _ _) _)
  · intro other hmem
    apply h.held other
    cases mem_append.mp hmem with
    | inl hin => exact mem_append_left _ hin
    | inr hin => exact mem_append_right _ (mem_cons_of_mem _ hin)
  · intro key entry hget
    obtain ⟨hkey, rfl⟩ | ⟨hkey, hget⟩ := get?_set_eq_some.mp hget
    · exact ⟨hkey.symm, hheld, hready⟩
    · exact h.keyed hget
  · intro key entry hget hnot
    obtain ⟨hkey, rfl⟩ | ⟨hkey, hget⟩ := get?_set_eq_some.mp hget
    · exact ⟨hparent, havailable, hpopped⟩
    · apply h.parked hget
      rw [mem_cons, not_or]
      exact ⟨hother hkey hget, hnot⟩
  · intro eventId key
    rw [get?_set, get?_set]
    by_cases hkey : key = batch.batchId
    · rw [if_pos hkey]
      constructor
      · intro hmem
        refine ⟨⟨batch, missing⟩, rfl, ?_, hqueue⟩
        by_contra hne
        rw [if_neg (Ne.symm hne)] at hmem
        exact hwaits eventId key hmem hkey
      · rintro ⟨entry, hentry, hmissing, -⟩
        cases hentry
        rw [if_pos hmissing.symm, hkey]
        simp
    · rw [if_neg hkey]
      have hlist : key ∈ (if eventId = missing then
            some ((planning.parkedByMissing.get? missing).getD [] ++ [batch.batchId])
            else planning.parkedByMissing.get? eventId).getD [] ↔
          key ∈ (planning.parkedByMissing.get? eventId).getD [] := by
        by_cases heq : eventId = missing
        · rw [if_pos heq, heq]
          simp [hkey]
        · rw [if_neg heq]
      rw [hlist, h.waits]
      constructor
      · rintro ⟨entry, hget, hmissing, hnot⟩
        exact ⟨entry, hget, hmissing, fun hin => hnot (mem_cons_of_mem _ hin)⟩
      · rintro ⟨entry, hget, hmissing, hnot⟩
        refine ⟨entry, hget, hmissing, ?_⟩
        rw [mem_cons, not_or]
        exact ⟨hother hkey hget, hnot⟩
  · intro eventId
    rw [get?_set]
    by_cases heq : eventId = missing
    · rw [if_pos heq]
      apply nodup_append.mpr
      refine ⟨h.once missing, nodup_singleton _, ?_⟩
      intro key hkey other hsingle
      rw [mem_singleton.mp hsingle]
      exact hwaits missing key hkey
    · rw [if_neg heq]
      exact h.once eventId
  · intro other hin
    by_cases heq : other = batch
    · exact Or.inr (Or.inr (Or.inl (by rw [heq]; simp)))
    · cases h.complete other hin with
      | inl hin => exact Or.inl hin
      | inr hrest =>
        right
        cases hrest with
        | inl hin => exact Or.inl ((mem_cons.mp hin).resolve_left heq)
        | inr hrest =>
          right
          cases hrest with
          | inl hparked =>
            left
            rw [has_set, hparked, Bool.or_true]
          | inr huntouched => exact Or.inr huntouched
  · intro key entry hget hnot
    obtain ⟨hin, hnotQueue, hparked⟩ := h.touched hget hnot
    rw [mem_cons, not_or] at hnotQueue
    refine ⟨hin, hnotQueue.2, ?_⟩
    have hkey : key ≠ batch.batchId := by
      intro hkey
      exact hnotQueue.1 (hinput.eq_of_id (hinput.index.mem_held hget) hheld
        ((hinput.index.keyed hget).trans hkey))
    rw [get?_set_of_ne hkey]
    exact hparked

theorem evaluate (hinput : PlanInput replica staged arrived)
    (h : Planned replica staged arrived popped (batch :: queue) planning) :
    Planned replica staged arrived popped queue (planning.evaluate replica.state batch) := by
  cases hmissing : missingParent replica.state planning.planned batch with
  | none =>
    rw [Planning.evaluate, hmissing]
    exact evaluate_ready hinput h hmissing
  | some missing =>
    rw [Planning.evaluate, hmissing]
    exact evaluate_parked hinput h hmissing

theorem foldl_evaluate (hinput : PlanInput replica staged arrived)
    (h : Planned replica staged arrived popped queue planning) :
    Planned replica staged arrived popped []
      (queue.foldl (Planning.evaluate replica.state) planning) := by
  induction queue generalizing planning with
  | nil => exact h
  | cons batch queue ih => exact ih (h.evaluate hinput)

end Planned

theorem waiters_eq (h : ∀ key ∈ keys, ∃ entry, batches.get? key = some entry) :
    waiters batches keys = .ok (keys.filterMap fun key => (batches.get? key).map (·.batch)) := by
  induction keys with
  | nil => rfl
  | cons key keys ih =>
    obtain ⟨entry, hentry⟩ := h key mem_cons_self
    have hrest := ih fun other hother => h other (mem_cons_of_mem _ hother)
    rw [waiters] at hrest ⊢
    rw [mapM_cons, hrest, hentry, filterMap_cons, hentry]
    rfl

def named (batches : InsertionMap Text PendingBatch) (keys : List Text) :
    List RichTextEventBatch :=
  keys.filterMap fun key => (batches.get? key).map (·.batch)

theorem mem_named : batch ∈ named batches keys ↔
      ∃ key ∈ keys, ∃ entry, batches.get? key = some entry ∧ entry.batch = batch := by
  rw [named, mem_filterMap]
  apply exists_congr
  intro key
  apply and_congr_right
  intro _
  rw [Option.map_eq_some_iff]

theorem nodup_named (hkeyed : ∀ {key entry}, batches.get? key = some entry → entry.batch.batchId = key)
    (hnodup : keys.Nodup) : (named batches keys).Nodup := by
  apply hnodup.filterMap
  intro left right batch hleft hright
  rw [Option.mem_def, Option.map_eq_some_iff] at hleft hright
  obtain ⟨first, hfirst, hbatch⟩ := hleft
  obtain ⟨second, hsecond, hsame⟩ := hright
  rw [← hkeyed hfirst, ← hkeyed hsecond, hbatch, hsame]

namespace Planned

variable {popped : List Text} {planning : Planning} {eventId : Text} {woken : List Text}

theorem nodup_events {queue : List RichTextEventBatch} (hinput : PlanInput replica staged arrived)
    (h : Planned replica staged arrived popped queue planning) :
    (popped ++ planning.woken).Nodup := by
  apply h.events.nodup_iff.mpr
  apply nodup_produced (nodup_append.mp h.nodup).1 _ hinput.produced
  exact fun batch hbatch => h.held batch (mem_append_left _ hbatch)

def wakes (replica : BlockReplica T) (planning : Planning) (eventId : Text) :
    List RichTextEventBatch :=
  named replica.pending ((replica.waiting.get? eventId).getD []) ++
    named planning.parked ((planning.parkedByMissing.get? eventId).getD [])

theorem pop (hinput : PlanInput replica staged arrived)
    (h : Planned replica staged arrived popped [] planning)
    (hwoken : planning.woken = eventId :: woken) :
    Planned replica staged arrived (popped ++ [eventId]) (wakes replica planning eventId)
      { planning with
        woken
        parkedByMissing := planning.parkedByMissing.erase eventId } := by
  have hfresh : eventId ∉ popped := by
    have hnodup := h.nodup_events hinput
    rw [hwoken] at hnodup
    exact fun hmem => (nodup_append.mp hnodup).2.2 _ hmem _ mem_cons_self rfl
  -- A woken pending batch was not looked at before, so it is neither ready nor parked.
  have hpending : ∀ {batch : RichTextEventBatch},
      batch ∈ named replica.pending ((replica.waiting.get? eventId).getD []) →
        ∃ entry, replica.pending.get? batch.batchId = some entry ∧ entry.batch = batch ∧
          entry.missing = eventId := by
    intro batch hmem
    obtain ⟨key, hkey, entry, hget, rfl⟩ := mem_named.mp hmem
    obtain ⟨other, hother, hmissing⟩ := hinput.index.waits.mp hkey
    have heq : entry = other := Option.some.inj (hget.symm.trans hother)
    rw [hinput.index.keyed hget]
    exact ⟨entry, hget, rfl, by rw [heq]; exact hmissing⟩
  have hparked : ∀ {batch : RichTextEventBatch},
      batch ∈ named planning.parked ((planning.parkedByMissing.get? eventId).getD []) →
        ∃ entry, planning.parked.get? batch.batchId = some entry ∧ entry.batch = batch ∧
          entry.missing = eventId := by
    intro batch hmem
    obtain ⟨key, hkey, entry, hget, rfl⟩ := mem_named.mp hmem
    obtain ⟨other, hother, hmissing, -⟩ := h.waits.mp hkey
    have heq : entry = other := Option.some.inj (hget.symm.trans hother)
    rw [(h.keyed hget).1]
    exact ⟨entry, hget, rfl, by rw [heq]; exact hmissing⟩
  have hname : ∀ {key : Text} {entry : PendingBatch}, planning.parked.get? key = some entry →
      entry.missing = eventId → entry.batch ∈ wakes replica planning eventId := by
    intro key entry hget hmissing
    apply mem_append_right
    exact mem_named.mpr
      ⟨key, h.waits.mpr ⟨entry, hget, hmissing, not_mem_nil⟩, entry, hget, rfl⟩
  refine ⟨?_, h.planned, h.order, ?_, ?_, h.keyed, ?_, ?_, ?_, ?_, ?_⟩
  · have hevents := h.events
    rw [hwoken, append_cons] at hevents
    exact hevents
  · have hready := h.nodup
    rw [append_nil] at hready
    have hwakes : (wakes replica planning eventId).Nodup := by
      apply nodup_append.mpr
      refine ⟨nodup_named hinput.index.keyed (hinput.index.once eventId),
        nodup_named (fun hget => (h.keyed hget).1) (h.once eventId), ?_⟩
      intro left hleft right hright heq
      obtain ⟨entry, hget, hbatch, hmissing⟩ := hpending hleft
      obtain ⟨other, hother, -, -⟩ := hparked hright
      have hnone := (h.touched hget (by rw [hmissing]; exact hfresh)).2.2
      rw [heq, hother] at hnone
      cases hnone
    apply nodup_append.mpr
    refine ⟨hready, hwakes, ?_⟩
    intro left hleft right hright heq
    cases mem_append.mp hright with
    | inl hin =>
      obtain ⟨entry, hget, hbatch, hmissing⟩ := hpending hin
      have hnot := (h.touched hget (by rw [hmissing]; exact hfresh)).1
      rw [hbatch, ← heq] at hnot
      exact hnot hleft
    | inr hin =>
      obtain ⟨entry, hget, hbatch, -⟩ := hparked hin
      have hnot := (h.keyed hget).2.2
      rw [hbatch, ← heq] at hnot
      exact hnot hleft
  · intro batch hmem
    cases mem_append.mp hmem with
    | inl hready => exact h.held batch (mem_append_left _ hready)
    | inr hwakes =>
      cases mem_append.mp hwakes with
      | inl hin =>
        obtain ⟨entry, hget, hbatch, -⟩ := hpending hin
        rw [← hbatch]
        exact hinput.index.mem_held hget
      | inr hin =>
        obtain ⟨entry, hget, hbatch, -⟩ := hparked hin
        rw [← hbatch]
        exact (h.keyed hget).2.1
  · intro key entry hget hnot
    obtain ⟨hparent, havailable, hpopped⟩ := h.parked hget not_mem_nil
    refine ⟨hparent, havailable, ?_⟩
    intro hmem
    cases mem_append.mp hmem with
    | inl hold => exact hpopped hold
    | inr hnew => exact hnot (hname hget (mem_singleton.mp hnew))
  · intro other key
    rw [get?_erase]
    by_cases heq : other = eventId
    · rw [if_pos heq]
      constructor
      · intro hmem
        cases hmem
      · rintro ⟨entry, hget, hmissing, hnot⟩
        exact absurd (hname hget (hmissing.trans heq)) hnot
    · rw [if_neg heq, h.waits]
      apply exists_congr
      intro entry
      apply and_congr_right
      intro hget
      apply and_congr_right
      intro hmissing
      refine ⟨fun _ => ?_, fun _ => not_mem_nil⟩
      intro hmem
      cases mem_append.mp hmem with
      | inl hin =>
        obtain ⟨waiting, hwaiting, hbatch, heventId⟩ := hpending hin
        have hnone := (h.touched hwaiting (by rw [heventId]; exact hfresh)).2.2
        rw [(h.keyed hget).1, hget] at hnone
        cases hnone
      | inr hin =>
        obtain ⟨parked, hgetParked, -, heventId⟩ := hparked hin
        rw [(h.keyed hget).1, hget] at hgetParked
        rw [← Option.some.inj hgetParked, hmissing] at heventId
        exact heq heventId
  · intro other
    rw [get?_erase]
    by_cases heq : other = eventId
    · rw [if_pos heq]
      exact nodup_nil
    · rw [if_neg heq]
      exact h.once other
  · intro batch hin
    cases h.complete batch hin with
    | inl hready => exact Or.inl hready
    | inr hrest =>
      right
      cases hrest.resolve_left not_mem_nil with
      | inl hhas => exact Or.inr (Or.inl hhas)
      | inr huntouched =>
        obtain ⟨entry, hget, hbatch, hmissing⟩ := huntouched
        by_cases heq : entry.missing = eventId
        · left
          apply mem_append_left
          exact mem_named.mpr ⟨batch.batchId,
            hinput.index.waits.mpr ⟨entry, hget, heq⟩, entry, hget, hbatch⟩
        · refine Or.inr (Or.inr ⟨entry, hget, hbatch, ?_⟩)
          rw [mem_append, mem_singleton, not_or]
          exact ⟨hmissing, heq⟩
  · intro key entry hget hnot
    rw [mem_append, mem_singleton, not_or] at hnot
    obtain ⟨hready, -, hnone⟩ := h.touched hget hnot.1
    refine ⟨hready, ?_, hnone⟩
    intro hmem
    cases mem_append.mp hmem with
    | inl hin =>
      obtain ⟨waiting, hwaiting, -, heventId⟩ := hpending hin
      rw [hinput.index.keyed hget, hget] at hwaiting
      rw [← Option.some.inj hwaiting] at heventId
      exact hnot.2 heventId
    | inr hin =>
      obtain ⟨parked, hgetParked, -, -⟩ := hparked hin
      rw [hinput.index.keyed hget, hnone] at hgetParked
      cases hgetParked

theorem stuck (hinput : PlanInput replica staged arrived) (hawaits : Awaits replica arrived)
    (h : Planned replica staged arrived popped [] planning) (hwoken : planning.woken = [])
    {batch : RichTextEventBatch} (hin : batch ∈ BlockReplica.held replica staged)
    (hnot : batch ∉ planning.ready) :
    ∃ parent ∈ batch.parentVersion,
      ¬ After RichTextEventBatch.eventIds replica.Available planning.ready parent := by
  have hevents := h.events
  rw [hwoken, append_nil] at hevents
  have hlater : ∀ {missing : Text}, ¬ replica.Available missing → missing ∉ popped →
      ¬ After RichTextEventBatch.eventIds replica.Available planning.ready missing := by
    intro missing havailable hpopped hafter
    cases hafter with
    | inl hhas => exact havailable hhas
    | inr hproduced =>
      obtain ⟨other, hready, hmem⟩ := hproduced
      apply hpopped
      apply hevents.symm.subset
      apply mem_append_right
      exact mem_flatMap.mpr ⟨other, hready, hmem⟩
  cases (h.complete batch hin).resolve_left hnot with
  | inl hqueue => cases hqueue
  | inr hrest =>
    cases hrest with
    | inl hhas =>
      obtain ⟨entry, hget⟩ := has_iff.mp hhas
      obtain ⟨hparent, havailable, hpopped⟩ := h.parked hget not_mem_nil
      have heq : entry.batch = batch :=
        hinput.eq_of_id (h.keyed hget).2.1 hin (h.keyed hget).1
      rw [heq] at hparent
      exact ⟨entry.missing, hparent, hlater havailable hpopped⟩
    | inr huntouched =>
      obtain ⟨entry, hget, hbatch, hpopped⟩ := huntouched
      have hparent := hinput.index.missing hget
      rw [hbatch] at hparent
      refine ⟨entry.missing, hparent, hlater ?_ hpopped⟩
      apply (hawaits hget).resolve_right
      intro harrived
      exact hpopped (hevents.symm.subset (mem_append_left _ harrived))

end Planned

section

variable (hinput : PlanInput replica staged arrived)
include hinput

theorem Planned.waiters_wakes {popped : List Text}
    (h : Planned replica staged arrived popped [] planning) (eventId : Text) :
    waiters replica.pending ((replica.waiting.get? eventId).getD []) =
        .ok (named replica.pending ((replica.waiting.get? eventId).getD [])) ∧
      waiters planning.parked ((planning.parkedByMissing.get? eventId).getD []) =
        .ok (named planning.parked ((planning.parkedByMissing.get? eventId).getD [])) := by
  constructor
  · refine waiters_eq fun key hkey => ?_
    obtain ⟨entry, hget, -⟩ := hinput.index.waits.mp hkey
    exact ⟨entry, hget⟩
  · refine waiters_eq fun key hkey => ?_
    obtain ⟨entry, hget, -⟩ := h.waits.mp hkey
    exact ⟨entry, hget⟩

theorem wakeLoop_planned {popped : List Text} {final : Planning}
    (h : Planned replica staged arrived popped [] planning)
    (hloop : wakeLoop replica fuel planning = .ok final) :
    ∃ last, final.woken = [] ∧ Planned replica staged arrived last [] final := by
  refine wakeLoop_induction (motive := fun _ planning => ∀ popped,
    Planned replica staged arrived popped [] planning →
      ∃ last, final.woken = [] ∧ Planned replica staged arrived last [] final)
    (fun _ hwoken popped h => ⟨popped, hwoken, h⟩) ?_ hloop popped h
  intro fuel planning eventId woken waiting parked hwoken hwaiting hparked ih popped h
  have hwoke := h.waiters_wakes hinput eventId
  rw [hwaiting, hparked] at hwoke
  cases hwoke.1
  cases hwoke.2
  exact ih _ ((h.pop hinput hwoken).foldl_evaluate hinput)

theorem wakeLoop_ends {popped : List Text} (h : Planned replica staged arrived popped [] planning)
    (hfuel : arrived.length + ((held replica staged).flatMap (·.eventIds)).length ≤
      popped.length + fuel) : ∃ final, wakeLoop replica fuel planning = .ok final := by
  induction fuel generalizing popped planning with
  | zero =>
    cases hwoken : planning.woken with
    | nil =>
      rw [wakeLoop, hwoken]
      exact ⟨planning, rfl⟩
    | cons eventId woken =>
      have hlength := h.events.length_eq
      have hready : (planning.ready.flatMap (·.eventIds)).length ≤
          ((held replica staged).flatMap (·.eventIds)).length :=
        length_produced_le (nodup_append.mp h.nodup).1
          fun batch hbatch => h.held batch (mem_append_left _ hbatch)
      rw [hwoken] at hlength
      simp only [length_append, length_cons] at hlength
      omega
  | succ fuel ih =>
    cases hwoken : planning.woken with
    | nil =>
      rw [wakeLoop, hwoken]
      exact ⟨planning, rfl⟩
    | cons eventId woken =>
      obtain ⟨hwaiting, hparked⟩ := h.waiters_wakes hinput eventId
      obtain ⟨final, hfinal⟩ := ih ((h.pop hinput hwoken).foldl_evaluate hinput)
        (by rw [length_append, length_singleton]; omega)
      refine ⟨final, ?_⟩
      rw [wakeLoop, hwoken]
      simp only [hwaiting, hparked]
      exact hfinal

structure PlanSpec (replica : BlockReplica T) (staged : List RichTextEventBatch)
    (arrived : List Text) (plan : IntegrationPlan) : Prop where
  order : BatchOrder replica plan.ready
  nodup : plan.ready.Nodup
  held : ∀ batch ∈ plan.ready, batch ∈ BlockReplica.held replica staged
  released : Awaits replica arrived → ∀ batch, batch ∈ plan.ready ↔
    Released (·.parentVersion) RichTextEventBatch.eventIds replica.Available
      (· ∈ BlockReplica.held replica staged) batch
  parked : ∀ {key entry}, plan.parked.get? key = some entry →
    entry.batch.batchId = key ∧ entry.batch ∈ BlockReplica.held replica staged ∧
      entry.batch ∉ plan.ready ∧ entry.missing ∈ entry.batch.parentVersion ∧
      ¬ After RichTextEventBatch.eventIds replica.Available plan.ready entry.missing
  staged : ∀ batch ∈ staged, batch ∈ plan.ready ∨ plan.parked.has batch.batchId = true

theorem planIntegration_spec {plan : IntegrationPlan}
    (hplan : planIntegration fuel replica staged arrived = .ok plan) :
    PlanSpec replica staged arrived plan := by
  obtain ⟨final, hloop, hfinish⟩ := StateMethod.except_bind_eq_ok.mp hplan
  cases hfinish
  obtain ⟨popped, hempty, hfinal⟩ :=
    wakeLoop_planned hinput ((Planned.start hinput).foldl_evaluate hinput) hloop
  have hready := hfinal.nodup
  rw [append_nil] at hready
  have hheld : ∀ other ∈ final.ready, other ∈ BlockReplica.held replica staged :=
    fun other hother => hfinal.held other (mem_append_left _ hother)
  refine ⟨hfinal.order, hready, hheld, ?_, ?_, ?_⟩
  · intro hawaits batch
    exact mem_iff_released hfinal.order hheld fun other => hfinal.stuck hinput hawaits hempty
  · intro key entry hget
    obtain ⟨hid, hin, hnot⟩ := hfinal.keyed hget
    obtain ⟨hparent, havailable, hpopped⟩ := hfinal.parked hget not_mem_nil
    refine ⟨hid, hin, hnot, hparent, ?_⟩
    intro hafter
    cases hafter with
    | inl hhas => exact havailable hhas
    | inr hproduced =>
      obtain ⟨other, hother, hmem⟩ := hproduced
      have hevents := hfinal.events
      rw [hempty, append_nil] at hevents
      apply hpopped
      apply hevents.symm.subset
      exact mem_append_right _ (mem_flatMap.mpr ⟨other, hother, hmem⟩)
  · intro batch hstaged
    cases hfinal.complete batch (mem_append_left _ hstaged) with
    | inl hin => exact Or.inl hin
    | inr hrest =>
      right
      cases hrest.resolve_left not_mem_nil with
      | inl hhas => exact hhas
      | inr huntouched =>
        obtain ⟨entry, hget, hbatch, -⟩ := huntouched
        have hpending : batch ∈ replica.pendingBatches :=
          (mem_pendingBatches hinput.index).mpr ⟨entry, hget, hbatch⟩
        exact absurd rfl ((nodup_append.mp hinput.batches_nodup).2.2 _ hstaged _ hpending)

theorem planIntegration_untouched {plan : IntegrationPlan}
    (hplan : planIntegration fuel replica staged arrived = .ok plan) {key : Text}
    {entry : PendingBatch} (hget : replica.pending.get? key = some entry)
    (hready : entry.batch ∉ plan.ready) (hparked : plan.parked.get? key = none) :
    entry.missing ∉ arrived ++ plan.ready.flatMap (·.eventIds) := by
  obtain ⟨final, hloop, hfinish⟩ := StateMethod.except_bind_eq_ok.mp hplan
  cases hfinish
  obtain ⟨popped, hempty, hfinal⟩ :=
    wakeLoop_planned hinput ((Planned.start hinput).foldl_evaluate hinput) hloop
  have hkey := hinput.index.keyed hget
  have hheld : entry.batch ∈ BlockReplica.held replica staged := hinput.index.mem_held hget
  have hevents := hfinal.events
  rw [hempty, append_nil] at hevents
  cases (hfinal.complete entry.batch hheld).resolve_left hready with
  | inl hqueue => cases hqueue
  | inr hrest =>
    cases hrest with
    | inl hhas =>
      rw [hkey, has_iff] at hhas
      obtain ⟨other, hother⟩ := hhas
      rw [hother] at hparked
      cases hparked
    | inr huntouched =>
      obtain ⟨other, hother, -, hpopped⟩ := huntouched
      rw [hkey, hget] at hother
      cases hother
      intro hmem
      exact hpopped (hevents.symm.subset hmem)

theorem planIntegration_ends
    (hfuel : arrived.length + ((held replica staged).flatMap (·.eventIds)).length ≤ fuel) :
    ∃ plan, planIntegration fuel replica staged arrived = .ok plan := by
  obtain ⟨final, hloop⟩ := wakeLoop_ends hinput
    ((Planned.start hinput).foldl_evaluate hinput) (by simpa using hfuel)
  refine ⟨⟨final.ready, final.parked⟩, ?_⟩
  rw [planIntegration, hloop]
  rfl

end

section Rounds

variable {replica : BlockReplica T} {staged : List RichTextEventBatch} {arrived : List Text}

variable {fuel : Nat} {planning : Planning}

/-- Rounds left over change nothing. -/
theorem wakeLoop_more {final : Planning} {more : Nat} (hle : fuel ≤ more)
    (h : wakeLoop replica fuel planning = .ok final) : wakeLoop replica more planning = .ok final := by
  refine wakeLoop_induction (motive := fun fuel planning => ∀ more, fuel ≤ more →
    wakeLoop replica more planning = .ok final) ?_ ?_ h more hle
  · intro _ hwoken more _
    rw [wakeLoop, hwoken]
  · intro fuel planning eventId woken waiting parked hwoken hwaiting hparked ih more hle
    cases more with
    | zero => cases hle
    | succ more =>
      rw [wakeLoop, hwoken]
      exact StateMethod.except_bind_eq_ok.mpr ⟨waiting, hwaiting,
        StateMethod.except_bind_eq_ok.mpr ⟨parked, hparked, ih more (Nat.le_of_succ_le_succ hle)⟩⟩

variable {plan : IntegrationPlan}

theorem planIntegration_more {more : Nat} (hle : fuel ≤ more)
    (h : planIntegration fuel replica staged arrived = .ok plan) :
    planIntegration more replica staged arrived = .ok plan := by
  obtain ⟨final, hloop, hplan⟩ := StateMethod.except_bind_eq_ok.mp h
  exact StateMethod.except_bind_eq_ok.mpr ⟨final, wakeLoop_more hle hloop, hplan⟩

theorem planIntegration_settles (hinput : PlanInput replica staged arrived) :
    ∃ bound plan, ∀ fuel, bound ≤ fuel →
      planIntegration fuel replica staged arrived = .ok plan := by
  obtain ⟨plan, hplan⟩ := planIntegration_ends hinput (Nat.le_refl _)
  exact ⟨_, plan, fun fuel hfuel => planIntegration_more hfuel hplan⟩

theorem evaluate_extends (state : ReplicaState T) (planning : Planning)
    (batch : RichTextEventBatch) : planning.ready <+: (planning.evaluate state batch).ready := by
  rw [Planning.evaluate]
  split
  · exact prefix_append _ _
  · exact prefix_refl _

theorem foldl_evaluate_extends (state : ReplicaState T) (queue : List RichTextEventBatch)
    (planning : Planning) :
    planning.ready <+: (queue.foldl (Planning.evaluate state) planning).ready := by
  induction queue generalizing planning with
  | nil => exact prefix_refl _
  | cons batch queue ih => exact (evaluate_extends state planning batch).trans (ih _)

theorem wakeLoop_extends {final : Planning}
    (h : wakeLoop replica fuel planning = .ok final) : planning.ready <+: final.ready := by
  refine wakeLoop_induction (motive := fun _ planning => planning.ready <+: final.ready)
    (fun _ _ => prefix_refl _) ?_ h
  intro fuel planning eventId woken waiting parked hwoken hwaiting hparked ih
  exact (foldl_evaluate_extends replica.state (waiting ++ parked) { planning with
      woken
      parkedByMissing := planning.parkedByMissing.erase eventId }).trans ih

theorem wakeLoop_idle {final : Planning} (hindex : ParkedIndex replica)
    (hidle : ∀ {key entry}, replica.pending.get? key = some entry →
      entry.missing ∉ planning.woken)
    (hparked : ∀ eventId, planning.parkedByMissing.get? eventId = none)
    (h : wakeLoop replica fuel planning = .ok final) : final.ready = planning.ready := by
  refine wakeLoop_induction (motive := fun _ planning =>
    (∀ key entry, replica.pending.get? key = some entry → entry.missing ∉ planning.woken) →
      (∀ eventId, planning.parkedByMissing.get? eventId = none) → final.ready = planning.ready)
    (fun _ _ _ _ => rfl) ?_ h (fun _ _ => hidle) hparked
  intro fuel planning eventId woken waiting parked hwoken hwaiting hnone ih hidle hparked
  have hnobody : (replica.waiting.get? eventId).getD [] = [] := by
    rw [eq_nil_iff_forall_not_mem]
    intro key hkey
    obtain ⟨entry, hentry, hmissing⟩ := hindex.waits.mp hkey
    apply hidle key entry hentry
    rw [hwoken, hmissing]
    exact mem_cons_self
  rw [hnobody] at hwaiting
  rw [hparked] at hnone
  cases hwaiting
  cases hnone
  apply ih
  · intro key entry hentry hmem
    apply hidle key entry hentry
    rw [hwoken]
    exact mem_cons_of_mem _ hmem
  · intro other
    exact get?_erase.trans (by rw [hparked, ite_self])

theorem planIntegration_idle (hindex : ParkedIndex replica)
    (hidle : ∀ {key entry}, replica.pending.get? key = some entry → entry.missing ∉ arrived)
    (h : planIntegration fuel replica [] arrived = .ok plan) : plan.ready = [] := by
  obtain ⟨final, hloop, hplan⟩ := StateMethod.except_bind_eq_ok.mp h
  cases hplan
  exact wakeLoop_idle hindex (fun hentry hmem => hidle hentry (mem_reverse.mp hmem))
    (fun _ => rfl) hloop

theorem planIntegration_single {batch : RichTextEventBatch}
    (hparents : ∀ parent ∈ batch.parentVersion, replica.Available parent)
    (h : planIntegration fuel replica [batch] [] = .ok plan) :
    ∃ woken, plan.ready = batch :: woken := by
  obtain ⟨final, hloop, hplan⟩ := StateMethod.except_bind_eq_ok.mp h
  cases hplan
  have hnone : missingParent replica.state [] batch = none := by
    rw [missingParent, find?_eq_none]
    intro parent hparent
    have havailable : replica.state.hasEvent parent = true := hparents parent hparent
    rw [havailable, Bool.not_true, Bool.false_and]
    exact Bool.false_ne_true
  have hfirst : [batch] <+: final.ready := by
    have hprefix := wakeLoop_extends hloop
    rw [foldl_cons, foldl_nil, Planning.evaluate] at hprefix
    simp only [hnone, nil_append] at hprefix
    exact hprefix
  obtain ⟨woken, hready⟩ := hfirst
  exact ⟨woken, hready.symm⟩

end Rounds

end Softmaple.BlockModel.BlockReplica
