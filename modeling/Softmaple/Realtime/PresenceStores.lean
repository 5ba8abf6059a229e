import Softmaple.EgWalker.EventId
import Softmaple.Lib.AnswerRefinement
import Softmaple.Lib.Json
import Softmaple.Lib.KeyedList

/-!
The three presence stores: `MemoryPresenceRoomStore` and
`RedisPresenceRoomStore` of the Nitro host (`utils/realtime`), behind its
`realtimePresenceStore`, and the Durable Object's
`createDurableObjectPresenceStore`. A room's members are a list keyed by
connection ID; `JSON.parse` gives back what `JSON.stringify` wrote, so a Redis
hash holds the records themselves.
-/
namespace Softmaple.Realtime

open Json KeyedList AnswerRefinement

structure PresenceMemberRecord (π : Type) where
  clock : Int
  connectionId : Text
  userId : Text
  payload : π
  deriving DecidableEq, Repr

structure ExpiredPresenceMember where
  connectionId : Text
  userId : Text
  deriving DecidableEq, Repr

inductive StoreRequest (π : Type) where
  | setMember (member : PresenceMemberRecord π) (ttlMs : Nat)
  | refreshMember (connectionId : Text) (ttlMs : Nat)
  | getMember (connectionId : Text)
  | removeMember (connectionId : Text)
  | listMembers
  deriving DecidableEq, Repr

inductive StoreAnswer (π : Type) where
  | thrown
  | stored
  | refreshed (alive : Bool)
  | member (found : Option (PresenceMemberRecord π))
  | removed (found : Option (PresenceMemberRecord π))
  | page (members : List (PresenceMemberRecord π)) (expired : List ExpiredPresenceMember)
  deriving DecidableEq, Repr

/-- The members and the lapsed of a page come in any order. -/
def SameAnswer {π : Type} : StoreAnswer π → StoreAnswer π → Prop
  | .page members expired, .page others lapsed => members.Perm others ∧ expired.Perm lapsed
  | answer, other => answer = other

/-- A call, and how long after the one before. -/
structure StoreCall (π : Type) where
  elapsed : Nat
  roomId : Text
  request : StoreRequest π
  deriving DecidableEq, Repr

structure StoreState (ρ : Type) where
  now : Nat
  rooms : Text → ρ

variable {π ρ : Type}

def StoreState.update (state : StoreState ρ) (now : Nat) (roomId : Text) (room : ρ) : StoreState ρ :=
  ⟨now, fun other => if other = roomId then room else state.rooms other⟩

def storeMachine (empty : ρ) (exec : Nat → StoreRequest π → ρ → ρ × StoreAnswer π) :
    Machine (StoreState ρ) (StoreCall π) (StoreAnswer π) where
  start := ⟨0, fun _ => empty⟩
  exec state call :=
    let now := state.now + call.elapsed
    let outcome := exec now call.request (state.rooms call.roomId)
    (state.update now call.roomId outcome.1, outcome.2)

structure StoredMember (π : Type) where
  expiresAt : Nat
  member : PresenceMemberRecord π
  deriving DecidableEq, Repr

namespace StoredMember

def connectionId (entry : StoredMember π) : Text := entry.member.connectionId

def lapsed (now : Nat) (entry : StoredMember π) : Bool := decide (entry.expiresAt ≤ now)

def live (now : Nat) (entry : StoredMember π) : Bool := decide (now < entry.expiresAt)

/-- The lapsed member as `listMembers` reports it. -/
def report (entry : StoredMember π) : ExpiredPresenceMember :=
  ⟨entry.member.connectionId, entry.member.userId⟩

end StoredMember

open StoredMember

/-- What a store is for: the members that have not lapsed, and the lapsed ones that no
`listMembers` has reported. -/
structure Membership (π : Type) where
  current : List (StoredMember π)
  unreported : List (StoredMember π)

namespace Membership

def lapse (now : Nat) (members : Membership π) : Membership π where
  current := members.current.filter (live now)
  unreported := members.unreported ++ members.current.filter (lapsed now)

def exec (now : Nat) (request : StoreRequest π) (members : Membership π) :
    Membership π × StoreAnswer π :=
  let members := members.lapse now
  match request with
  | .setMember member ttlMs =>
    ({ members with current := put connectionId ⟨now + ttlMs, member⟩ members.current }, .stored)
  | .refreshMember wanted ttlMs =>
    match find connectionId wanted members.current with
    | none => (members, .refreshed false)
    | some entry =>
      ({ members with
        current := put connectionId ⟨now + ttlMs, entry.member⟩ members.current },
        .refreshed true)
  | .getMember wanted => (members, .member ((find connectionId wanted members.current).map (·.member)))
  | .removeMember wanted =>
    ({ members with current := delete connectionId wanted members.current },
      .removed ((find connectionId wanted members.current).map (·.member)))
  | .listMembers =>
    ({ members with unreported := [] },
      .page (members.current.map (·.member)) (members.unreported.map report))

def machine : Machine (StoreState (Membership π)) (StoreCall π) (StoreAnswer π) :=
  storeMachine ⟨[], []⟩ exec

end Membership

def presenceUserId (member : PresenceMemberRecord π) : Text :=
  if member.userId = [] then literal "unknown" else member.userId

namespace MemoryPresenceRoomStore

def exec (now : Nat) (request : StoreRequest π) (entries : List (StoredMember π)) :
    List (StoredMember π) × StoreAnswer π :=
  let kept := entries.filter (live now)
  match request with
  | .setMember member ttlMs =>
    if member.connectionId = [] then (entries, .thrown)
    else (put connectionId ⟨now + ttlMs, member⟩ kept, .stored)
  | .refreshMember wanted ttlMs =>
    match find connectionId wanted kept with
    | none => (kept, .refreshed false)
    | some current => (put connectionId ⟨now + ttlMs, current.member⟩ kept, .refreshed true)
  | .getMember wanted => (kept, .member ((find connectionId wanted kept).map (·.member)))
  | .removeMember wanted =>
    (delete connectionId wanted entries,
      .removed ((find connectionId wanted entries).map (·.member)))
  | .listMembers =>
    (kept, .page (kept.map (·.member))
      ((entries.filter (lapsed now)).map fun entry =>
        ⟨entry.member.connectionId, presenceUserId entry.member⟩))

def machine : Machine (StoreState (List (StoredMember π))) (StoreCall π) (StoreAnswer π) :=
  storeMachine [] exec

end MemoryPresenceRoomStore

structure RedisRoom (π : Type) where
  users : List (Text × PresenceMemberRecord π)
  expiry : List (Text × Nat)
  keysExpireAt : Nat
  deriving DecidableEq, Repr

namespace RedisPresenceRoomStore

def access (now : Nat) (room : RedisRoom π) : RedisRoom π :=
  if room.keysExpireAt < now then ⟨[], [], room.keysExpireAt⟩ else room

def keyTtl (ttlMs : Nat) : Nat := max (ttlMs * 2) 60000

/-- `PURGE_EXPIRED_LUA`, and `parseExpiredMembers` on its result. -/
def purgeExpired (now : Nat) (room : RedisRoom π) : RedisRoom π × List ExpiredPresenceMember :=
  let room := access now room
  let expiredIds := (room.expiry.filter fun entry => entry.2 ≤ now).map (·.1)
  ({ room with
      users := room.users.filter fun user => user.1 ∉ expiredIds
      expiry := room.expiry.filter fun entry => now < entry.2 },
    (expiredIds.filter fun id => id ≠ []).map fun id =>
      ⟨id, ((find Prod.fst id room.users).map fun user => presenceUserId user.2).getD
        (literal "unknown")⟩)

/-- `SET_USER_LUA`. -/
def setUser (now : Nat) (member : PresenceMemberRecord π) (ttlMs : Nat) (room : RedisRoom π) :
    RedisRoom π :=
  let room := access now room
  { users := put Prod.fst (member.connectionId, member) room.users
    expiry := put Prod.fst (member.connectionId, now + ttlMs) room.expiry
    keysExpireAt := now + keyTtl ttlMs }

/-- `REFRESH_USER_LUA`: it purges the expiry set only. -/
def refreshUser (now : Nat) (wanted : Text) (ttlMs : Nat) (room : RedisRoom π) :
    RedisRoom π × Bool :=
  let room := access now room
  let expiry := room.expiry.filter fun entry => now < entry.2
  match find Prod.fst wanted room.users with
  | none => ({ room with expiry := expiry }, false)
  | some _ =>
    ({ room with
        expiry := put Prod.fst (wanted, now + ttlMs) expiry
        keysExpireAt := now + keyTtl ttlMs }, true)

def exec (now : Nat) (request : StoreRequest π) (room : RedisRoom π) :
    RedisRoom π × StoreAnswer π :=
  match request with
  | .setMember member ttlMs =>
    if member.connectionId = [] then (room, .thrown)
    else (setUser now member ttlMs (purgeExpired now room).1, .stored)
  | .refreshMember wanted ttlMs =>
    let refreshed := refreshUser now wanted ttlMs room
    (refreshed.1, .refreshed refreshed.2)
  | .getMember wanted =>
    let purged := (purgeExpired now room).1
    (purged, .member ((find Prod.fst wanted purged.users).map (·.2)))
  | .removeMember wanted =>
    let room := access now room
    ({ room with
        users := delete Prod.fst wanted room.users
        expiry := delete Prod.fst wanted room.expiry },
      .removed ((find Prod.fst wanted room.users).map (·.2)))
  | .listMembers =>
    let purged := purgeExpired now room
    (purged.1, .page (purged.1.users.map (·.2)) purged.2)

def machine : Machine (StoreState (RedisRoom π)) (StoreCall π) (StoreAnswer π) :=
  storeMachine ⟨[], [], 0⟩ exec

end RedisPresenceRoomStore

namespace DurableObjectPresenceStore

/-- The object's storage holds the keys of one room. -/
def exec (now : Nat) (request : StoreRequest π) (entries : List (StoredMember π)) :
    List (StoredMember π) × StoreAnswer π :=
  match request with
  | .setMember member ttlMs => (put connectionId ⟨now + ttlMs, member⟩ entries, .stored)
  | .refreshMember wanted ttlMs =>
    match find connectionId wanted entries with
    | none => (entries, .refreshed false)
    | some stored =>
      if stored.expiresAt ≤ now then (delete connectionId wanted entries, .refreshed false)
      else (put connectionId ⟨now + ttlMs, stored.member⟩ entries, .refreshed true)
  | .getMember wanted =>
    match find connectionId wanted entries with
    | none => (entries, .member none)
    | some stored =>
      if stored.expiresAt ≤ now then (delete connectionId wanted entries, .member none)
      else (entries, .member (some stored.member))
  | .removeMember wanted =>
    match find connectionId wanted entries with
    | none => (entries, .removed none)
    | some stored =>
      (delete connectionId wanted entries,
        .removed (if now < stored.expiresAt then some stored.member else none))
  | .listMembers =>
    (entries.filter fun entry => !entry.lapsed now,
      .page ((entries.filter fun entry => !entry.lapsed now).map (·.member))
        ((entries.filter (lapsed now)).map report))

def machine : Machine (StoreState (List (StoredMember π))) (StoreCall π) (StoreAnswer π) :=
  storeMachine [] exec

end DurableObjectPresenceStore

section Conditions

/-- No other call than `listMembers` comes to a lapsed record that it would purge or return; the
two IDs that the Nitro stores read are not empty. -/
def MemoryMeets (now : Nat) (entries : List (StoredMember π)) : StoreRequest π → Prop
  | .setMember member _ =>
    (∀ entry ∈ entries, entry.lapsed now = false) ∧ member.connectionId ≠ [] ∧ member.userId ≠ []
  | .refreshMember _ _ | .getMember _ => ∀ entry ∈ entries, entry.lapsed now = false
  | .removeMember wanted =>
    ∀ entry ∈ entries, entry.connectionId = wanted → entry.lapsed now = false
  | .listMembers => True

def DurableObjectMeets (now : Nat) (entries : List (StoredMember π)) : StoreRequest π → Prop
  | .setMember member _ =>
    ∀ entry ∈ entries, entry.connectionId = member.connectionId → entry.lapsed now = false
  | .refreshMember wanted _ | .getMember wanted | .removeMember wanted =>
    ∀ entry ∈ entries, entry.connectionId = wanted → entry.lapsed now = false
  | .listMembers => True

/-- As in memory, and the keys have not expired as long as they hold a member. -/
def RedisMeets (now : Nat) (room : RedisRoom π) (request : StoreRequest π) : Prop :=
  (room.expiry = [] ∨ now ≤ room.keysExpireAt) ∧
    match request with
    | .setMember member _ =>
      (∀ entry ∈ room.expiry, now < entry.2) ∧ member.connectionId ≠ [] ∧ member.userId ≠ []
    | .refreshMember _ _ | .getMember _ => ∀ entry ∈ room.expiry, now < entry.2
    | .removeMember wanted => ∀ entry ∈ room.expiry, entry.1 = wanted → now < entry.2
    | .listMembers => True

def onRoom (meets : Nat → ρ → StoreRequest π → Prop) (state : StoreState ρ) (call : StoreCall π) :
    Prop :=
  meets (state.now + call.elapsed) (state.rooms call.roomId) call.request

end Conditions

end Softmaple.Realtime
