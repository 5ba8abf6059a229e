import Softmaple.EgWalker.EventId
import Softmaple.Lib.KeyedList

/-!
The connection lease stores of the Nitro host (`utils/realtime/memoryLeases.ts`,
`utils/realtime/redisLeases.ts`), one scope each, and what both keep: the IDs
whose lease has not expired.
-/
namespace Softmaple.Realtime

open KeyedList List

inductive LeaseAcquireResult where
  | acquired
  | duplicate
  | full
  deriving DecidableEq, Repr

structure LeaseEntry where
  connectionId : Text
  expiresAt : Nat
  deriving DecidableEq, Repr

/-- `ConnectionLeaseStore`, on the state of one scope. -/
structure ConnectionLeaseStore (ρ : Type) where
  empty : ρ
  tryAcquire : (now : Nat) → (connectionId : Text) → (maxConnections ttlMs : Nat) → ρ →
    ρ × LeaseAcquireResult
  refresh : (now : Nat) → (connectionId : Text) → (ttlMs : Nat) → ρ → ρ × Bool
  release : (now : Nat) → (connectionId : Text) → ρ → ρ

def purgeLeases (now : Nat) (entries : List LeaseEntry) : List LeaseEntry :=
  entries.filter fun entry => now < entry.expiresAt

def leaseIds (entries : List LeaseEntry) : List Text := entries.map (·.connectionId)

namespace MemoryConnectionLeaseStore

def tryAcquire (now : Nat) (connectionId : Text) (maxConnections ttlMs : Nat)
    (entries : List LeaseEntry) : List LeaseEntry × LeaseAcquireResult :=
  let entries := purgeLeases now entries
  if connectionId ∈ leaseIds entries then (entries, .duplicate)
  else if maxConnections ≤ entries.length then (entries, .full)
  else (put (·.connectionId) ⟨connectionId, now + ttlMs⟩ entries, .acquired)

def refresh (now : Nat) (connectionId : Text) (ttlMs : Nat) (entries : List LeaseEntry) :
    List LeaseEntry × Bool :=
  let entries := purgeLeases now entries
  if connectionId ∈ leaseIds entries then
    (put (·.connectionId) ⟨connectionId, now + ttlMs⟩ entries, true)
  else (entries, false)

def release (_now : Nat) (connectionId : Text) (entries : List LeaseEntry) : List LeaseEntry :=
  delete (·.connectionId) connectionId entries

def store : ConnectionLeaseStore (List LeaseEntry) := ⟨[], tryAcquire, refresh, release⟩

end MemoryConnectionLeaseStore

structure RedisLeases where
  scores : List LeaseEntry
  keyExpiresAt : Nat
  deriving DecidableEq, Repr

namespace RedisConnectionLeaseStore

def access (now : Nat) (leases : RedisLeases) : List LeaseEntry :=
  if leases.keyExpiresAt < now then [] else leases.scores

/-- `ACQUIRE_LEASE_LUA`. -/
def tryAcquire (now : Nat) (connectionId : Text) (maxConnections ttlMs : Nat)
    (leases : RedisLeases) : RedisLeases × LeaseAcquireResult :=
  let scores := purgeLeases now (access now leases)
  if connectionId ∈ leaseIds scores then ({ leases with scores := scores }, .duplicate)
  else if maxConnections ≤ scores.length then ({ leases with scores := scores }, .full)
  else
    (⟨put (·.connectionId) ⟨connectionId, now + ttlMs⟩ scores, now + max (ttlMs * 2) 60000⟩,
      .acquired)

/-- `REFRESH_LEASE_LUA`. -/
def refresh (now : Nat) (connectionId : Text) (ttlMs : Nat) (leases : RedisLeases) :
    RedisLeases × Bool :=
  let scores := purgeLeases now (access now leases)
  if connectionId ∈ leaseIds scores then
    (⟨put (·.connectionId) ⟨connectionId, now + ttlMs⟩ scores, now + max (ttlMs * 2) 60000⟩, true)
  else ({ leases with scores := scores }, false)

def release (now : Nat) (connectionId : Text) (leases : RedisLeases) : RedisLeases :=
  { leases with scores := delete (·.connectionId) connectionId (access now leases) }

def store : ConnectionLeaseStore RedisLeases := ⟨⟨[], 0⟩, tryAcquire, refresh, release⟩

end RedisConnectionLeaseStore

structure LeasesIds {ρ : Type} (store : ConnectionLeaseStore ρ) (sound : ρ → Prop)
    (ids : Nat → ρ → List Text) : Prop where
  sound_empty : sound store.empty
  ids_empty : ∀ now, ids now store.empty = []
  nodup : ∀ {now leases}, sound leases → (ids now leases).Nodup
  later : ∀ {now later leases}, now ≤ later → ids later leases ⊆ ids now leases
  acquired : ∀ {now connectionId maxConnections ttlMs leases}, sound leases →
    (store.tryAcquire now connectionId maxConnections ttlMs leases).2 = .acquired →
      sound (store.tryAcquire now connectionId maxConnections ttlMs leases).1 ∧
      connectionId ∉ ids now leases ∧
      ids now (store.tryAcquire now connectionId maxConnections ttlMs leases).1 ⊆
        connectionId :: ids now leases ∧
      (ids now (store.tryAcquire now connectionId maxConnections ttlMs leases).1).length ≤
        maxConnections
  rejected : ∀ {now connectionId maxConnections ttlMs leases}, sound leases →
    (store.tryAcquire now connectionId maxConnections ttlMs leases).2 ≠ .acquired →
      sound (store.tryAcquire now connectionId maxConnections ttlMs leases).1 ∧
      ids now (store.tryAcquire now connectionId maxConnections ttlMs leases).1 ⊆ ids now leases
  refreshed : ∀ now connectionId ttlMs {leases}, sound leases →
    sound (store.refresh now connectionId ttlMs leases).1 ∧
      ids now (store.refresh now connectionId ttlMs leases).1 ⊆ ids now leases ∧
      ((store.refresh now connectionId ttlMs leases).2 = true ↔ connectionId ∈ ids now leases)
  released : ∀ now connectionId {leases}, sound leases →
    sound (store.release now connectionId leases) ∧
      ids now (store.release now connectionId leases) ⊆ ids now leases

section Entries

variable {now later : Nat} {connectionId : Text} {entries : List LeaseEntry}

def UniqueLeases (entries : List LeaseEntry) : Prop := (leaseIds entries).Nodup

theorem UniqueLeases.purge (h : UniqueLeases entries) (now : Nat) :
    UniqueLeases (purgeLeases now entries) :=
  (filter_sublist.map _).nodup h

variable {expiresAt : Nat}

theorem UniqueLeases.put (h : UniqueLeases entries) :
    UniqueLeases (put (·.connectionId) ⟨connectionId, expiresAt⟩ entries) :=
  unique_put h

theorem purge_later (hlater : now ≤ later) :
    leaseIds (purgeLeases later entries) ⊆ leaseIds (purgeLeases now entries) := by
  intro id hid
  obtain ⟨entry, hentry, rfl⟩ := mem_map.mp hid
  obtain ⟨hmem, hlive⟩ := mem_filter.mp hentry
  exact mem_map_of_mem (mem_filter.mpr
    ⟨hmem, decide_eq_true (Nat.lt_of_le_of_lt hlater (of_decide_eq_true hlive))⟩)

theorem purge_purge : purgeLeases now (purgeLeases now entries) = purgeLeases now entries :=
  filter_eq_self.mpr fun _ hmem => (mem_filter.mp hmem).2

theorem purge_subset : leaseIds (purgeLeases now entries) ⊆ leaseIds entries :=
  map_subset _ fun _ hmem => mem_of_mem_filter hmem

theorem ids_put (h : UniqueLeases entries) :
    leaseIds (put (·.connectionId) ⟨connectionId, expiresAt⟩ entries) ⊆
      connectionId :: leaseIds entries := by
  intro id hid
  obtain ⟨entry, hentry, rfl⟩ := mem_map.mp hid
  cases mem_cons.mp ((put_perm h).mem_iff.mp hentry) with
  | inl heq =>
    rw [heq]
    exact mem_cons_self
  | inr hmem => exact mem_cons_of_mem _ (mem_map_of_mem (mem_delete.mp hmem).1)

theorem purge_delete : leaseIds (purgeLeases now (delete (·.connectionId) connectionId entries)) ⊆
      leaseIds (purgeLeases now entries) := by
  intro id hid
  obtain ⟨entry, hentry, rfl⟩ := mem_map.mp hid
  obtain ⟨hmem, hlive⟩ := mem_filter.mp hentry
  exact mem_map_of_mem (mem_filter.mpr ⟨(mem_delete.mp hmem).1, hlive⟩)

theorem purge_put (h : UniqueLeases entries) (hpurged : purgeLeases now entries = entries) :
    leaseIds (purgeLeases now (put (·.connectionId) ⟨connectionId, expiresAt⟩ entries)) ⊆
      connectionId :: leaseIds (purgeLeases now entries) := by
  rw [hpurged]
  exact List.Subset.trans purge_subset (ids_put h)

theorem length_purge_put (hfresh : connectionId ∉ leaseIds entries) :
    (leaseIds (purgeLeases now
      (put (·.connectionId) ⟨connectionId, expiresAt⟩ entries))).length ≤ entries.length + 1 := by
  have hput : (put (·.connectionId) (⟨connectionId, expiresAt⟩ : LeaseEntry) entries).length =
      entries.length + 1 := length_put_of_absent hfresh
  unfold leaseIds
  rw [length_map, ← hput]
  exact length_filter_le _ _

end Entries

theorem memory_leasesIds : LeasesIds MemoryConnectionLeaseStore.store UniqueLeases
      (fun now entries => leaseIds (purgeLeases now entries)) where
  sound_empty := nodup_nil
  ids_empty := fun _ => rfl
  nodup := fun hsound => hsound.purge _
  later := purge_later
  acquired := by
    intro now connectionId maxConnections ttlMs entries hsound hresult
    have hpurged : UniqueLeases (purgeLeases now entries) := hsound.purge now
    dsimp only [MemoryConnectionLeaseStore.store, MemoryConnectionLeaseStore.tryAcquire] at hresult ⊢
    split at hresult
    · cases hresult
    · next hfresh =>
        split at hresult
        · cases hresult
        · next hroom =>
            rw [if_neg hfresh, if_neg hroom]
            refine ⟨hpurged.put, hfresh, ?_, ?_⟩
            · have hput : leaseIds (purgeLeases now (put (·.connectionId)
                  ⟨connectionId, now + ttlMs⟩ (purgeLeases now entries))) ⊆
                  connectionId :: leaseIds (purgeLeases now (purgeLeases now entries)) :=
                purge_put hpurged purge_purge
              rw [purge_purge] at hput
              exact hput
            · exact Nat.le_trans (length_purge_put hfresh) (Nat.lt_of_not_le hroom)
  rejected := by
    intro now connectionId maxConnections ttlMs entries hsound hresult
    dsimp only [MemoryConnectionLeaseStore.store, MemoryConnectionLeaseStore.tryAcquire] at hresult ⊢
    split at hresult
    · next hheld =>
        rw [if_pos hheld, purge_purge]
        exact ⟨hsound.purge now, List.Subset.refl _⟩
    · next hfresh =>
        rw [if_neg hfresh]
        split at hresult
        · next hfull =>
            rw [if_pos hfull, purge_purge]
            exact ⟨hsound.purge now, List.Subset.refl _⟩
        · exact absurd rfl hresult
  refreshed := by
    intro now connectionId ttlMs entries hsound
    have hpurged : UniqueLeases (purgeLeases now entries) := hsound.purge now
    dsimp only [MemoryConnectionLeaseStore.store, MemoryConnectionLeaseStore.refresh]
    split
    · next hheld =>
        refine ⟨hpurged.put, ?_, iff_of_true rfl hheld⟩
        have hput : leaseIds (purgeLeases now (put (·.connectionId)
            ⟨connectionId, now + ttlMs⟩ (purgeLeases now entries))) ⊆
            connectionId :: leaseIds (purgeLeases now (purgeLeases now entries)) :=
          purge_put hpurged purge_purge
        rw [purge_purge] at hput
        exact List.Subset.trans hput (cons_subset.mpr ⟨hheld, List.Subset.refl _⟩)
    · next hgone =>
        refine ⟨hpurged, ?_, iff_of_false Bool.false_ne_true hgone⟩
        rw [purge_purge]
        exact List.Subset.refl _
  released := by
    intro now connectionId entries hsound
    exact ⟨(filter_sublist.map _).nodup hsound, purge_delete⟩

section Redis

open RedisConnectionLeaseStore

variable {now later : Nat} {leases : RedisLeases}

def redisIds (now : Nat) (leases : RedisLeases) : List Text :=
  leaseIds (purgeLeases now (access now leases))

theorem access_sound (h : UniqueLeases leases.scores) : UniqueLeases (access now leases) := by
  unfold access
  split
  · exact nodup_nil
  · exact h

theorem access_subset : leaseIds (purgeLeases now (access now leases)) ⊆
    leaseIds (purgeLeases now leases.scores) := by
  unfold access
  split
  · intro id hid
    cases hid
  · exact List.Subset.refl _

theorem length_access : (leaseIds (purgeLeases now (access now leases))).length ≤
    (leaseIds (purgeLeases now leases.scores)).length := by
  unfold access
  split
  · exact Nat.zero_le _
  · exact Nat.le_refl _

theorem redis_tryAcquire (now : Nat) (connectionId : Text) (maxConnections ttlMs : Nat)
    (leases : RedisLeases) :
    (RedisConnectionLeaseStore.store.tryAcquire now connectionId maxConnections ttlMs leases).1.scores =
        (MemoryConnectionLeaseStore.store.tryAcquire now connectionId maxConnections ttlMs
          (access now leases)).1 ∧
      (RedisConnectionLeaseStore.store.tryAcquire now connectionId maxConnections ttlMs leases).2 =
        (MemoryConnectionLeaseStore.store.tryAcquire now connectionId maxConnections ttlMs
          (access now leases)).2 := by
  dsimp only [RedisConnectionLeaseStore.store, MemoryConnectionLeaseStore.store,
    RedisConnectionLeaseStore.tryAcquire, MemoryConnectionLeaseStore.tryAcquire]
  split
  · exact ⟨rfl, rfl⟩
  · split <;> exact ⟨rfl, rfl⟩

theorem redis_refresh_memory (now : Nat) (connectionId : Text) (ttlMs : Nat)
    (leases : RedisLeases) :
    (RedisConnectionLeaseStore.store.refresh now connectionId ttlMs leases).1.scores =
        (MemoryConnectionLeaseStore.store.refresh now connectionId ttlMs (access now leases)).1 ∧
      (RedisConnectionLeaseStore.store.refresh now connectionId ttlMs leases).2 =
        (MemoryConnectionLeaseStore.store.refresh now connectionId ttlMs (access now leases)).2 := by
  dsimp only [RedisConnectionLeaseStore.store, MemoryConnectionLeaseStore.store,
    RedisConnectionLeaseStore.refresh, MemoryConnectionLeaseStore.refresh]
  split <;> exact ⟨rfl, rfl⟩

theorem redisIds_later (hlater : now ≤ later) : redisIds later leases ⊆ redisIds now leases := by
  unfold redisIds access
  split
  · intro id hid
    cases hid
  · next hkept =>
      rw [if_neg fun hexpired => hkept (Nat.lt_of_lt_of_le hexpired hlater)]
      exact purge_later hlater

end Redis

theorem redis_leasesIds :
    LeasesIds RedisConnectionLeaseStore.store (fun leases => UniqueLeases leases.scores)
      redisIds where
  sound_empty := nodup_nil
  ids_empty := by
    intro now
    unfold redisIds RedisConnectionLeaseStore.access
    split <;> rfl
  nodup := fun hsound => (access_sound hsound).purge _
  later := redisIds_later
  acquired := by
    intro now connectionId maxConnections ttlMs leases hsound hresult
    obtain ⟨hscores, hsame⟩ := redis_tryAcquire now connectionId maxConnections ttlMs leases
    obtain ⟨hunique, hfresh, hids, hlength⟩ :=
      memory_leasesIds.acquired (access_sound hsound) (hsame.symm.trans hresult)
    rw [← hscores] at hunique hids hlength
    exact ⟨hunique, hfresh, List.Subset.trans access_subset hids,
      Nat.le_trans length_access hlength⟩
  rejected := by
    intro now connectionId maxConnections ttlMs leases hsound hresult
    obtain ⟨hscores, hsame⟩ := redis_tryAcquire now connectionId maxConnections ttlMs leases
    obtain ⟨hunique, hids⟩ :=
      memory_leasesIds.rejected (access_sound hsound) fun heq => hresult (hsame.trans heq)
    rw [← hscores] at hunique hids
    exact ⟨hunique, List.Subset.trans access_subset hids⟩
  refreshed := by
    intro now connectionId ttlMs leases hsound
    obtain ⟨hscores, hsame⟩ := redis_refresh_memory now connectionId ttlMs leases
    have haccess : UniqueLeases (RedisConnectionLeaseStore.access now leases) := access_sound hsound
    obtain ⟨hunique, hids, hresult⟩ := memory_leasesIds.refreshed now connectionId ttlMs haccess
    rw [← hscores] at hunique hids
    refine ⟨hunique, List.Subset.trans access_subset hids, ?_⟩
    rw [hsame]
    exact hresult
  released := by
    intro now connectionId leases hsound
    have haccess : UniqueLeases (RedisConnectionLeaseStore.access now leases) := access_sound hsound
    obtain ⟨hunique, hids⟩ := memory_leasesIds.released now connectionId haccess
    exact ⟨hunique, List.Subset.trans access_subset hids⟩

end Softmaple.Realtime

/-!
The lease objects of the realtime limiters (`realtime-connection-limiter.ts`,
`realtime-presence-connection-limiter.ts`) over one store: a call of `refresh`
or `release` reads the object's flag at once and reaches the store later. The
store knows a lease by its peer ID only.
-/
namespace Softmaple.Realtime

open List

structure LeaseObject where
  scope : Text
  peerId : Text
  ttlMs : Nat
  released : Bool
  deriving DecidableEq, Repr

inductive LeaseOperation where
  | refresh
  | release
  deriving DecidableEq, Repr

structure LeaseCall where
  lease : Nat
  operation : LeaseOperation
  deriving DecidableEq, Repr

structure LeaseWorld (ρ : Type) where
  now : Nat
  scopes : Text → ρ
  leases : List LeaseObject
  calls : List LeaseCall

inductive LeaseAction where
  | elapse (duration : Nat)
  | acquire (scope peerId : Text) (maxConnections ttlMs : Nat)
  | refresh (lease : Nat)
  | release (lease : Nat)
  | deliver (place : Nat)
  deriving DecidableEq, Repr

namespace LeaseWorld

variable {ρ : Type} (store : ConnectionLeaseStore ρ)

def start : LeaseWorld ρ := ⟨0, fun _ => store.empty, [], []⟩

def setScope (world : LeaseWorld ρ) (scope : Text) (leases : ρ) : LeaseWorld ρ :=
  { world with scopes := fun other => if other = scope then leases else world.scopes other }

def acquire (world : LeaseWorld ρ) (scope peerId : Text) (maxConnections ttlMs : Nat) :
    LeaseWorld ρ :=
  let outcome := store.tryAcquire world.now peerId maxConnections ttlMs (world.scopes scope)
  let world := world.setScope scope outcome.1
  match outcome.2 with
  | .acquired => { world with leases := world.leases ++ [⟨scope, peerId, ttlMs, false⟩] }
  | _ => world

def refresh (world : LeaseWorld ρ) (lease : Nat) : LeaseWorld ρ :=
  match world.leases[lease]? with
  | some object =>
    if object.released then world else { world with calls := world.calls ++ [⟨lease, .refresh⟩] }
  | none => world

def release (world : LeaseWorld ρ) (lease : Nat) : LeaseWorld ρ :=
  match world.leases[lease]? with
  | some object =>
    if object.released then world
    else
      { world with
        leases := world.leases.set lease { object with released := true }
        calls := world.calls ++ [⟨lease, .release⟩] }
  | none => world

def serve (world : LeaseWorld ρ) (object : LeaseObject) : LeaseOperation → LeaseWorld ρ
  | .refresh => world.setScope object.scope
      (store.refresh world.now object.peerId object.ttlMs (world.scopes object.scope)).1
  | .release => world.setScope object.scope
      (store.release world.now object.peerId (world.scopes object.scope))

def deliver (world : LeaseWorld ρ) (place : Nat) : LeaseWorld ρ :=
  match world.calls[place]? with
  | some call =>
    match world.leases[call.lease]? with
    | some object => serve store { world with calls := world.calls.eraseIdx place } object call.operation
    | none => world
  | none => world

def step (world : LeaseWorld ρ) : LeaseAction → LeaseWorld ρ
  | .elapse duration => { world with now := world.now + duration }
  | .acquire scope peerId maxConnections ttlMs =>
    acquire store world scope peerId maxConnections ttlMs
  | .refresh lease => world.refresh lease
  | .release lease => world.release lease
  | .deliver place => deliver store world place

def run (world : LeaseWorld ρ) (actions : List LeaseAction) : LeaseWorld ρ :=
  actions.foldl (step store) world

/-- Its `refresh` would return true. -/
def valid (world : LeaseWorld ρ) (lease : Nat) : Bool :=
  match world.leases[lease]? with
  | some object =>
    !object.released &&
      (store.refresh world.now object.peerId object.ttlMs (world.scopes object.scope)).2
  | none => false

def SamePeer (world : LeaseWorld ρ) (lease other : Nat) : Prop :=
  ∃ object later, world.leases[lease]? = some object ∧ world.leases[other]? = some later ∧
    object.scope = later.scope ∧ object.peerId = later.peerId

def Over (world : LeaseWorld ρ) (lease : Nat) (object : LeaseObject) : Prop :=
  object.released = true ∧ ∀ call ∈ world.calls, call.lease ≠ lease

/-- An acquire that finds no unexpired lease under its peer ID comes when every earlier lease object
of the peer ID is over. -/
def Meets (world : LeaseWorld ρ) : LeaseAction → Prop
  | .acquire scope peerId _ ttlMs =>
    (store.refresh world.now peerId ttlMs (world.scopes scope)).2 = true ∨
      ∀ lease object, world.leases[lease]? = some object → object.scope = scope →
        object.peerId = peerId → world.Over lease object
  | _ => True

def RunMeets : LeaseWorld ρ → List LeaseAction → Prop
  | _, [] => True
  | world, action :: actions => Meets store world action ∧ RunMeets (step store world action) actions

def validIn (world : LeaseWorld ρ) (scope : Text) : List Nat :=
  (List.range world.leases.length).filter fun lease =>
    valid store world lease && (world.leases[lease]?.any fun object => object.scope = scope)

structure ExclusiveLeases (world : LeaseWorld ρ) : Prop where
  exclusive : ∀ lease other, valid store world lease = true → valid store world other = true →
    world.SamePeer lease other → lease = other
  lasting : ∀ actions, RunMeets store world actions → ∀ lease < world.leases.length,
    valid store (run store world actions) lease = true → valid store world lease = true
  undelivered : ∀ call ∈ world.calls, ∀ later, call.lease < later → ¬world.SamePeer call.lease later
  inert : ∀ lease later, lease < later → world.SamePeer lease later →
    step store world (.refresh lease) = world ∧ step store world (.release lease) = world
  capacity : ∀ scope peerId maxConnections ttlMs,
    Meets store world (.acquire scope peerId maxConnections ttlMs) →
    world.leases.length < (acquire store world scope peerId maxConnections ttlMs).leases.length →
    (validIn store (acquire store world scope peerId maxConnections ttlMs) scope).length ≤
      maxConnections

end LeaseWorld

end Softmaple.Realtime
