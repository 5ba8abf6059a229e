import Softmaple.Presence.RoomCalls

/-!
Whose record a connection ID names. A peer takes on the ID before the limiter
has admitted it, and its cleanup removes what is stored under the ID. Where a
peer that has begun to store its record is the only one of its room ID that has
hold of the connection ID, nobody removes the record while the peer lives, and
no Leave for it is published on account of another.
-/
namespace Softmaple.Presence.OwnRecords

open Json KeyedList AsyncTasks List
open CollabHost (PresenceIdentity)

/-- The peer was asked to leave, or its room is closed. -/
def Leaving (state : State) (place : PeerRef) : Prop :=
  (state.peers place).leaveRequested = true ∨ (state.rooms place.room).closed = true

section Claims

variable (services : PresenceServices)

def Beside (place other : PeerRef) : Prop :=
  other ≠ place ∧ services.roomId other.room = services.roomId place.room

/-- A peer that has begun to store its record is the only one to have hold of its connection ID, and
when it has joined no Leave for the record of another is still to be published. -/
def Undisputed : Mark → RoomView → Prop
  | .takes place connectionId, view => ∀ other, Beside services place other →
      .stores other connectionId ∈ view.trace → Leaving view.state other
  | .stores place connectionId, view => ∀ other, Beside services place other →
      (view.state.peers other).connectionId ≠ some connectionId
  | .joins place connectionId, view => ∀ queue, ∀ lapsed ∈ view.state.lapsing queue,
      lapsed.roomId = services.roomId place.room → lapsed.connectionId = connectionId →
        lapsed.owner = place
  | _, _ => True

/-- A Leave for the connection ID of a peer that has joined and lives is on its own account. -/
def OwnLeave : Mark → RoomView → Prop
  | .leaves roomId connectionId account, view => ∀ place, services.roomId place.room = roomId →
      .joins place connectionId ∈ view.trace → ¬Leaving view.state place → account = place
  | _, _ => True

def Owned (state : State) (place : PeerRef) (connectionId : Text) : Prop :=
  ∀ stored ∈ state.members (services.roomId place.room),
    stored.member.connectionId = connectionId → stored.owner = place

def Taken (trace : List Mark) (roomId connectionId : Text) (owner : PeerRef) : Prop :=
  services.roomId owner.room = roomId ∧ .takes owner connectionId ∈ trace

structure Records (view : RoomView) : Prop where
  unique : ∀ roomId, Unique (·.member.connectionId) (view.state.members roomId)
  bound : ∀ roomId, ∀ stored ∈ view.state.members roomId,
    stored.expiresAt ≤ view.state.now + services.policy.memberTtlMs
  recorded : ∀ roomId, ∀ stored ∈ view.state.members roomId,
    Taken services view.trace roomId stored.member.connectionId stored.owner
  lapsed : ∀ queue, ∀ lapsed ∈ view.state.lapsing queue,
    Taken services view.trace lapsed.roomId lapsed.connectionId lapsed.owner

structure Inv (view : RoomView) : Prop extends Records services view where
  taken : ∀ place connectionId, (view.state.peers place).connectionId = some connectionId →
    .takes place connectionId ∈ view.trace
  stores : ∀ place connectionId, .stores place connectionId ∈ view.trace →
    .takes place connectionId ∈ view.trace
  joins : ∀ place connectionId, .joins place connectionId ∈ view.trace →
    .stores place connectionId ∈ view.trace
  joined : ∀ place, (view.state.peers place).joined = true →
    ∃ connectionId, .joins place connectionId ∈ view.trace
  sole : ∀ place connectionId, .stores place connectionId ∈ view.trace →
    ¬Leaving view.state place → ∀ other, Beside services place other →
      (view.state.peers other).connectionId ≠ some connectionId
  owned : ∀ place connectionId, .joins place connectionId ∈ view.trace →
    ¬Leaving view.state place → Owned services view.state place connectionId
  published : ∀ place connectionId, .joins place connectionId ∈ view.trace →
    ¬Leaving view.state place → ∀ queue, ∀ lapsed ∈ view.state.lapsing queue,
      lapsed.roomId = services.roomId place.room → lapsed.connectionId = connectionId →
        lapsed.owner = place

/-- What has not lapsed of the record of a peer that lives stays, and stays its own. -/
structure Keeps (first second : RoomView) : Prop where
  records : ∀ place connectionId, .stores place connectionId ∈ first.trace →
    ¬Leaving second.state place → ∀ stored ∈ first.state.members (services.roomId place.room),
      stored.member.connectionId = connectionId → second.state.now < stored.expiresAt →
        ∃ later ∈ second.state.members (services.roomId place.room),
          later.member.connectionId = connectionId ∧ stored.expiresAt ≤ later.expiresAt
  owned : ∀ place connectionId, .stores place connectionId ∈ first.trace →
    ¬Leaving second.state place → Owned services first.state place connectionId →
      Owned services second.state place connectionId

structure Guar (job : Job) (first second : RoomView) : Prop where
  trace : first.trace <+: second.trace
  now : first.state.now ≤ second.state.now
  leaving : ∀ place, Leaving first.state place → Leaving second.state place
  keeps : Keeps services first second
  connectionId : ∀ place, job.queue ≠ some (.peer place) →
    (second.state.peers place).connectionId = (first.state.peers place).connectionId
  lapsing : ∀ queue, job.queue ≠ some queue → second.state.lapsing queue = first.state.lapsing queue

structure Rely (lane : Option Queue) (first second : RoomView) : Prop where
  trace : first.trace <+: second.trace
  now : first.state.now ≤ second.state.now
  leaving : ∀ place, Leaving first.state place → Leaving second.state place
  keeps : Keeps services first second
  connectionId : ∀ place, lane = some (.peer place) →
    (second.state.peers place).connectionId = (first.state.peers place).connectionId
  lapsing : ∀ queue, lane = some queue → second.state.lapsing queue = first.state.lapsing queue

end Claims

variable {services : PresenceServices} {first second third : RoomView}

theorem Records.later (h : Records services first) (htrace : first.trace <+: second.trace)
    (hnow : first.state.now ≤ second.state.now)
    (hmembers : second.state.members = first.state.members)
    (hlapsing : second.state.lapsing = first.state.lapsing) : Records services second where
  unique roomId := by
    rw [hmembers]
    exact h.unique roomId
  bound roomId stored hstored := by
    rw [hmembers] at hstored
    exact Nat.le_trans (h.bound roomId stored hstored) (Nat.add_le_add_right hnow _)
  recorded roomId stored hstored := by
    rw [hmembers] at hstored
    exact (h.recorded roomId stored hstored).imp_right fun htakes => htrace.subset htakes
  lapsed queue lapsed hlapsed := by
    rw [hlapsing] at hlapsed
    exact (h.lapsed queue lapsed hlapsed).imp_right fun htakes => htrace.subset htakes

theorem Keeps.of_members (hmembers : second.state.members = first.state.members) : Keeps services first second where
  records place connectionId _ _ stored hstored hkey _ := by
    rw [hmembers]
    exact ⟨stored, hstored, hkey, Nat.le_refl _⟩
  owned place connectionId _ _ howned := by
    unfold Owned
    rw [hmembers]
    exact howned

theorem Keeps.trans (h : Keeps services first second) (hnext : Keeps services second third)
    (htrace : first.trace <+: second.trace) (hnow : second.state.now ≤ third.state.now)
    (hleaving : ∀ place, Leaving second.state place → Leaving third.state place) :
    Keeps services first third where
  records place connectionId hstores hlives stored hstored hkey hlive := by
    have hbefore : ¬Leaving second.state place := fun hleaves => hlives (hleaving place hleaves)
    obtain ⟨middle, hmiddle, hsame, hlonger⟩ := h.records place connectionId hstores hbefore stored
      hstored hkey (Nat.lt_of_le_of_lt hnow hlive)
    obtain ⟨later, hlater, hagain, hlongest⟩ := hnext.records place connectionId
      (htrace.subset hstores) hlives middle hmiddle hsame (Nat.lt_of_lt_of_le hlive hlonger)
    exact ⟨later, hlater, hagain, Nat.le_trans hlonger hlongest⟩
  owned place connectionId hstores hlives howned := by
    have hbefore : ¬Leaving second.state place := fun hleaves => hlives (hleaving place hleaves)
    exact hnext.owned place connectionId (htrace.subset hstores) hlives
      (h.owned place connectionId hstores hbefore howned)

theorem Guar.refl (job : Job) (view : RoomView) : Guar services job view view :=
  ⟨prefix_rfl, Nat.le_refl _, fun _ h => h, .of_members rfl, fun _ _ => rfl,
    fun _ _ => rfl⟩

theorem Rely.refl (lane : Option Queue) (view : RoomView) : Rely services lane view view :=
  ⟨prefix_rfl, Nat.le_refl _, fun _ h => h, .of_members rfl, fun _ _ => rfl,
    fun _ _ => rfl⟩

theorem Rely.trans {lane : Option Queue} (h : Rely services lane first second)
    (hnext : Rely services lane second third) : Rely services lane first third where
  trace := h.trace.trans hnext.trace
  now := Nat.le_trans h.now hnext.now
  leaving place hplace := hnext.leaving place (h.leaving place hplace)
  keeps := h.keeps.trans hnext.keeps h.trace hnext.now hnext.leaving
  connectionId place hlane := (hnext.connectionId place hlane).trans (h.connectionId place hlane)
  lapsing queue hlane := (hnext.lapsing queue hlane).trans (h.lapsing queue hlane)

theorem Rely.of_guar {lane : Option Queue} {job : Job} (h : Guar services job first second)
    (hlane : lane = none ∨ job.queue ≠ lane) : Rely services lane first second := by
  have hother : ∀ own, lane = some own → job.queue ≠ some own := by
    intro own hown hqueue
    cases hlane with
    | inl hnone => cases hnone.symm.trans hown
    | inr hne => exact hne (hqueue.trans hown.symm)
  exact ⟨h.trace, h.now, h.leaving, h.keeps, fun place hown => h.connectionId place (hother _ hown),
    fun queue hown => h.lapsing queue (hother _ hown)⟩

def Claims : Mark → RoomView → Prop
  | .stores place connectionId, view =>
    (view.state.peers place).connectionId = some connectionId
  | .joins place connectionId, view => .stores place connectionId ∈ view.trace
  | _, _ => True

structure Condition (services : PresenceServices) where
  holds : Mark → RoomView → Prop
  undisputed : ∀ mark view, Inv services view → Claims mark view → holds mark view →
    Undisputed services mark view

def discipline (condition : Condition services) : Discipline (system services) where
  cond := condition.holds
  ensures mark view := Undisputed services mark view ∧ OwnLeave services mark view
  inv := Inv services
  rest _ _ := True
  guar := Guar services
  rely := Rely services
  waits _ _ _ := True
  guar_refl := Guar.refl
  rely_refl := Rely.refl
  rely_trans := Rely.trans
  rely_none h := ⟨h.trace, h.now, h.leaving, h.keeps, fun _ hnone => (by cases hnone),
    fun _ hnone => (by cases hnone)⟩
  rely_of_guar h _ _ hlane := Rely.of_guar h hlane
  rest_of_rely _ _ := trivial
  waits_of_rely _ _ := trivial

section Changes

variable (services) in
structure Fit (view : RoomView) (roomId : Text) (items : List StoredMember) : Prop where
  unique : Unique (·.member.connectionId) items
  bound : ∀ stored ∈ items, stored.expiresAt ≤ view.state.now + services.policy.memberTtlMs
  recorded : ∀ stored ∈ items,
    Taken services view.trace roomId stored.member.connectionId stored.owner

variable (services) in
structure Renewal (view : RoomView) (roomId : Text) (items others : List StoredMember) : Prop where
  fit : Fit services view roomId others
  records : ∀ place connectionId, services.roomId place.room = roomId →
    .stores place connectionId ∈ view.trace → ¬Leaving view.state place → ∀ stored ∈ items,
      stored.member.connectionId = connectionId → view.state.now < stored.expiresAt →
        ∃ later ∈ others, later.member.connectionId = connectionId ∧
          stored.expiresAt ≤ later.expiresAt
  owned : ∀ place connectionId, services.roomId place.room = roomId →
    .stores place connectionId ∈ view.trace → ¬Leaving view.state place →
      (∀ stored ∈ items, stored.member.connectionId = connectionId → stored.owner = place) →
        ∀ stored ∈ others, stored.member.connectionId = connectionId → stored.owner = place

theorem Inv.fit (h : Inv services first) (roomId : Text) :
    Fit services first roomId (first.state.members roomId) :=
  ⟨h.unique roomId, h.bound roomId, h.recorded roomId⟩

variable {roomId : Text} {items others rest : List StoredMember}

theorem Renewal.refl (h : Fit services first roomId items) :
    Renewal services first roomId items items :=
  ⟨h, fun _ _ _ _ _ stored hstored hkey _ => ⟨stored, hstored, hkey, Nat.le_refl _⟩,
    fun _ _ _ _ _ howned => howned⟩

theorem Renewal.trans (h : Renewal services first roomId items others)
    (hnext : Renewal services first roomId others rest) :
    Renewal services first roomId items rest where
  fit := hnext.fit
  records place connectionId hroom hstores hlives stored hstored hkey hlive := by
    obtain ⟨middle, hmiddle, hsame, hlonger⟩ :=
      h.records place connectionId hroom hstores hlives stored hstored hkey hlive
    obtain ⟨later, hlater, hagain, hlongest⟩ := hnext.records place connectionId hroom hstores hlives
      middle hmiddle hsame (Nat.lt_of_lt_of_le hlive hlonger)
    exact ⟨later, hlater, hagain, Nat.le_trans hlonger hlongest⟩
  owned place connectionId hroom hstores hlives howned :=
    hnext.owned place connectionId hroom hstores hlives
      (h.owned place connectionId hroom hstores hlives howned)

variable (services) in
structure Quiet (first second : RoomView) : Prop where
  trace : first.trace <+: second.trace
  stores : ∀ place connectionId, .stores place connectionId ∈ second.trace →
    .stores place connectionId ∈ first.trace
  joins : ∀ place connectionId, .joins place connectionId ∈ second.trace →
    .joins place connectionId ∈ first.trace
  now : first.state.now ≤ second.state.now
  leaving : ∀ place, Leaving first.state place → Leaving second.state place
  joined : ∀ place, (second.state.peers place).joined = true →
    (first.state.peers place).joined = true
  connectionId : ∀ place connectionId, (second.state.peers place).connectionId = some connectionId →
      (first.state.peers place).connectionId = some connectionId
  members : ∀ roomId, Renewal services first roomId (first.state.members roomId)
    (second.state.members roomId)
  lapsing : ∀ queue, ∀ lapsed ∈ second.state.lapsing queue, lapsed ∈ first.state.lapsing queue ∨
    ∃ stored ∈ first.state.members lapsed.roomId, State.lapsedMember lapsed.roomId stored = lapsed

namespace Quiet

theorem inv (h : Quiet services first second) (hinv : Inv services first) : Inv services second where
  unique roomId := (h.members roomId).fit.unique
  bound roomId stored hstored :=
    Nat.le_trans ((h.members roomId).fit.bound stored hstored) (Nat.add_le_add_right h.now _)
  recorded roomId stored hstored := by
    obtain ⟨hroom, htakes⟩ := (h.members roomId).fit.recorded stored hstored
    exact ⟨hroom, h.trace.subset htakes⟩
  lapsed queue lapsed hlapsed := by
    cases h.lapsing queue lapsed hlapsed with
    | inl hold =>
      obtain ⟨hroom, htakes⟩ := hinv.lapsed queue lapsed hold
      exact ⟨hroom, h.trace.subset htakes⟩
    | inr hread =>
      obtain ⟨stored, hstored, heq⟩ := hread
      obtain ⟨hroom, htakes⟩ := hinv.recorded lapsed.roomId stored hstored
      rw [← heq]
      exact ⟨hroom, h.trace.subset htakes⟩
  taken place connectionId hhas :=
    h.trace.subset (hinv.taken place connectionId (h.connectionId place connectionId hhas))
  stores place connectionId hstores :=
    h.trace.subset (hinv.stores place connectionId (h.stores place connectionId hstores))
  joins place connectionId hjoins :=
    h.trace.subset (hinv.joins place connectionId (h.joins place connectionId hjoins))
  joined place hjoined := by
    obtain ⟨connectionId, hjoins⟩ := hinv.joined place (h.joined place hjoined)
    exact ⟨connectionId, h.trace.subset hjoins⟩
  sole place connectionId hstores hlives other hother hhas :=
    hinv.sole place connectionId (h.stores place connectionId hstores)
      (fun hleaves => hlives (h.leaving place hleaves)) other hother
      (h.connectionId other connectionId hhas)
  owned place connectionId hjoins hlives := by
    have hold := h.joins place connectionId hjoins
    have hbefore : ¬Leaving first.state place := fun hleaves => hlives (h.leaving place hleaves)
    exact (h.members _).owned place connectionId rfl (hinv.joins place connectionId hold) hbefore
      (hinv.owned place connectionId hold hbefore)
  published place connectionId hjoins hlives queue lapsed hlapsed hroom hkey := by
    have hold := h.joins place connectionId hjoins
    have hbefore : ¬Leaving first.state place := fun hleaves => hlives (h.leaving place hleaves)
    cases h.lapsing queue lapsed hlapsed with
    | inl hthere => exact hinv.published place connectionId hold hbefore queue lapsed hthere hroom hkey
    | inr hread =>
      obtain ⟨stored, hstored, heq⟩ := hread
      rw [← heq] at hkey ⊢
      rw [hroom] at hstored
      exact hinv.owned place connectionId hold hbefore stored hstored hkey

theorem keeps (h : Quiet services first second) : Keeps services first second where
  records place connectionId hstores hlives stored hstored hkey hlive :=
    (h.members _).records place connectionId rfl hstores
      (fun hleaves => hlives (h.leaving place hleaves)) stored hstored hkey
      (Nat.lt_of_le_of_lt h.now hlive)
  owned place connectionId hstores hlives howned :=
    (h.members _).owned place connectionId rfl hstores
      (fun hleaves => hlives (h.leaving place hleaves)) howned

theorem allows {condition : Condition services} {job : Job} (h : Quiet services first second)
    (hinv : Inv services first)
    (hconnectionId : ∀ place, job.queue ≠ some (.peer place) →
      (second.state.peers place).connectionId = (first.state.peers place).connectionId)
    (hlapsing : ∀ queue, job.queue ≠ some queue →
      second.state.lapsing queue = first.state.lapsing queue) :
    (discipline condition).Allows job first second :=
  ⟨⟨h.trace, h.now, h.leaving, h.keeps, hconnectionId, hlapsing⟩, h.inv hinv⟩

end Quiet

/-- A change that leaves alone the records, the connection IDs and the Leaves to be published. -/
structure Still (first second : RoomView) : Prop where
  trace : first.trace <+: second.trace
  stores : ∀ place connectionId, .stores place connectionId ∈ second.trace →
    .stores place connectionId ∈ first.trace
  joins : ∀ place connectionId, .joins place connectionId ∈ second.trace →
    .joins place connectionId ∈ first.trace
  calm : first.state.Calm second.state

namespace Still

theorem leaving (h : Still first second) (place : PeerRef) (hplace : Leaving first.state place) :
    Leaving second.state place :=
  hplace.imp (h.calm.leaveRequested place) (h.calm.closed place.room)

theorem quiet (h : Still first second) (hinv : Inv services first) : Quiet services first second where
  trace := h.trace
  stores := h.stores
  joins := h.joins
  now := h.calm.now
  leaving := h.leaving
  joined := h.calm.joined
  connectionId place connectionId hhas := (h.calm.connectionId place).symm.trans hhas
  members roomId := by
    rw [h.calm.members]
    exact .refl (hinv.fit roomId)
  lapsing queue lapsed hlapsed := by
    rw [h.calm.lapsing] at hlapsed
    exact .inl hlapsed

theorem allows {condition : Condition services} (h : Still first second) (job : Job)
    (hinv : Inv services first) : (discipline condition).Allows job first second :=
  (h.quiet hinv).allows hinv (fun place _ => h.calm.connectionId place)
    fun queue _ => congrFun h.calm.lapsing queue

theorem state {view : RoomView} {after : State} (h : view.state.Calm after) :
    Still view { view with state := after } :=
  ⟨prefix_rfl, fun _ _ h => h, fun _ _ h => h, h⟩

theorem lanes (view : RoomView) (lanes : Queue → List Job) : Still view { view with lanes := lanes } :=
  ⟨prefix_rfl, fun _ _ h => h, fun _ _ h => h, .refl _⟩

theorem mark {view : RoomView} {mark : Mark}
    (hstores : ∀ place connectionId, mark ≠ .stores place connectionId)
    (hjoins : ∀ place connectionId, mark ≠ .joins place connectionId) :
    Still view { view with trace := view.trace ++ [mark] } := by
  have hold : ∀ other, other ≠ mark → other ∈ view.trace ++ [mark] → other ∈ view.trace := by
    intro other hne hother
    cases mem_append.mp hother with
    | inl hthere => exact hthere
    | inr hnew => exact absurd (mem_singleton.mp hnew) hne
  exact ⟨prefix_append _ _, fun place connectionId => hold _ (hstores place connectionId).symm,
    fun place connectionId => hold _ (hjoins place connectionId).symm, .refl _⟩

end Still

end Changes

section Stores

variable {view : RoomView} {roomId : Text} {items : List StoredMember}

namespace Renewal

section

variable (h : Fit services view roomId items)
include h

theorem filter {keep : StoredMember → Bool}
    (hkeep : ∀ stored, view.state.now < stored.expiresAt → keep stored = true) :
    Renewal services view roomId items (items.filter keep) where
  fit := ⟨h.unique.filter keep, fun stored hstored => h.bound stored (mem_filter.mp hstored).1,
    fun stored hstored => h.recorded stored (mem_filter.mp hstored).1⟩
  records _ _ _ _ _ stored hstored hkey hlive :=
    ⟨stored, mem_filter.mpr ⟨hstored, hkeep stored hlive⟩, hkey, Nat.le_refl _⟩
  owned _ _ _ _ _ howned stored hstored := howned stored (mem_filter.mp hstored).1

theorem put {item : StoredMember}
    (hexpires : item.expiresAt = view.state.now + services.policy.memberTtlMs)
    (htaken : Taken services view.trace roomId item.member.connectionId item.owner)
    (howner : ∀ place, services.roomId place.room = roomId →
      .stores place item.member.connectionId ∈ view.trace → ¬Leaving view.state place →
      (∀ stored ∈ items, stored.member.connectionId = item.member.connectionId →
        stored.owner = place) → item.owner = place) :
    Renewal services view roomId items (KeyedList.put (·.member.connectionId) item items) where
  fit := by
    refine ⟨unique_put h.unique, fun stored hstored => ?_, fun stored hstored => ?_⟩
    · cases mem_put hstored with
      | inl heq => exact heq ▸ Nat.le_of_eq hexpires
      | inr hold => exact h.bound stored hold.1
    · cases mem_put hstored with
      | inl heq => exact heq ▸ htaken
      | inr hold => exact h.recorded stored hold.1
  records place connectionId _ _ _ stored hstored hkey _ := by
    by_cases hsame : stored.member.connectionId = item.member.connectionId
    · refine ⟨item, (mem_put_iff h.unique).mpr (.inl rfl), hsame.symm.trans hkey, ?_⟩
      rw [hexpires]
      exact h.bound stored hstored
    · exact ⟨stored, (mem_put_iff h.unique).mpr (.inr ⟨hstored, hsame⟩), hkey, Nat.le_refl _⟩
  owned place connectionId hroom hstores hlives howned stored hstored hkey := by
    cases mem_put hstored with
    | inl heq =>
      rw [heq] at hkey ⊢
      rw [← hkey] at hstores howned
      exact howner place hroom hstores hlives howned
    | inr hold => exact howned stored hold.1 hkey

theorem delete {wanted : Text}
    (hnone : ∀ place, services.roomId place.room = roomId → .stores place wanted ∈ view.trace →
      Leaving view.state place) : Renewal services view roomId items
      (KeyedList.delete (·.member.connectionId) wanted items) where
  fit := ⟨h.unique.filter _, fun stored hstored => h.bound stored (mem_delete.mp hstored).1,
    fun stored hstored => h.recorded stored (mem_delete.mp hstored).1⟩
  records place connectionId hroom hstores hlives stored hstored hkey _ := by
    refine ⟨stored, mem_delete.mpr ⟨hstored, fun hwanted => ?_⟩, hkey, Nat.le_refl _⟩
    rw [← hkey, hwanted] at hstores
    exact hlives (hnone place hroom hstores)
  owned place connectionId _ _ _ howned stored hstored := howned stored (mem_delete.mp hstored).1

theorem adopt {connectionId : Text} {owner : PeerRef}
    (htaken : Taken services view.trace roomId connectionId owner)
    (hsole : ∀ place, services.roomId place.room = roomId →
      .stores place connectionId ∈ view.trace → ¬Leaving view.state place → owner = place) :
    Renewal services view roomId items (items.map fun stored =>
      if stored.member.connectionId = connectionId then { stored with owner := owner }
      else stored) where
  fit := by
    refine ⟨?_, fun stored hstored => ?_, fun stored hstored => ?_⟩
    · unfold KeyedList.Unique
      rw [map_map]
      refine Eq.mp (congrArg List.Nodup (map_congr_left fun stored _ => ?_)) h.unique
      dsimp only [Function.comp_apply]
      split <;> rfl
    · obtain ⟨old, hold, heq⟩ := mem_map.mp hstored
      rw [← heq]
      split
      · exact h.bound old hold
      · exact h.bound old hold
    · obtain ⟨old, hold, heq⟩ := mem_map.mp hstored
      rw [← heq]
      split
      · next hkey => exact hkey ▸ htaken
      · exact h.recorded old hold
  records place other _ _ _ stored hstored hkey _ := by
    refine ⟨_, mem_map_of_mem hstored, ?_, ?_⟩
    · split
      · exact hkey
      · exact hkey
    · split <;> exact Nat.le_refl _
  owned place other hroom hstores hlives howned stored hstored hkey := by
    obtain ⟨old, hold, heq⟩ := mem_map.mp hstored
    rw [← heq] at hkey ⊢
    split
    · next hsame =>
        rw [if_pos hsame] at hkey
        have hother : connectionId = other := hsame.symm.trans hkey
        rw [hother] at hsole
        exact hsole place hroom hstores hlives
    · next hdiff =>
        rw [if_neg hdiff] at hkey
        exact howned old hold hkey

end

end Renewal

theorem setMembers_self (state : State) (roomId : Text) :
    state.setMembers roomId (state.members roomId) = state := by
  unfold State.setMembers
  congr 1
  funext other
  split
  · next heq => rw [heq]
  · rfl

theorem setMembers_setMembers (state : State) (roomId : Text) (items others : List StoredMember) :
    (state.setMembers roomId items).setMembers roomId others = state.setMembers roomId others := by
  unfold State.setMembers
  congr 1
  funext other
  dsimp only
  split <;> rfl

@[simp] theorem setMembers_members (state : State) (roomId : Text) (items : List StoredMember) :
    (state.setMembers roomId items).members roomId = items := if_pos rfl

variable (services) in
def Renews (view : RoomView) (roomId : Text) (after : State) : Prop :=
  ∃ others, after = view.state.setMembers roomId others ∧
    Renewal services view roomId (view.state.members roomId) others

theorem Renews.storeCall {β : Type} {exec : State → β × State} (hinv : Inv services view)
    (choice : StoreChoice)
    (hexec : ∀ items, Fit services view roomId items →
      ∃ others, (exec (view.state.setMembers roomId items)).2 = view.state.setMembers roomId others ∧
        Renewal services view roomId items others) :
    Renews services view roomId (view.state.storeCall roomId choice exec).2 := by
  have hdrop : Renewal services view roomId (view.state.members roomId)
      ((view.state.members roomId).filter fun stored =>
        decide (view.state.now < stored.expiresAt) || !choice.drops stored.member.connectionId) :=
    Renewal.filter (hinv.fit roomId) fun stored hlive => by rw [decide_eq_true hlive, Bool.true_or]
  obtain ⟨others, hafter, hrenewal⟩ := hexec _ hdrop.fit
  have hrenews : Renews services view roomId (exec (view.state.drop roomId choice.drops)).2 :=
    ⟨others, hafter, hdrop.trans hrenewal⟩
  unfold State.storeCall
  dsimp only
  split
  · dsimp only
    split
    · exact hrenews
    · exact ⟨_, (setMembers_self _ _).symm, .refl (hinv.fit roomId)⟩
  · exact hrenews

theorem Renews.quiet {after : State} (h : Renews services view roomId after)
    (hinv : Inv services view) : Quiet services view { view with state := after } := by
  obtain ⟨others, rfl, hrenewal⟩ := h
  refine ⟨prefix_rfl, fun _ _ h => h, fun _ _ h => h, Nat.le_refl _, fun _ h => h, fun _ h => h,
    fun _ _ h => h, fun other => ?_, fun _ _ h => .inl h⟩
  dsimp only [State.setMembers]
  split
  · next heq =>
      rw [heq]
      exact hrenewal
  · exact .refl (hinv.fit other)

end Stores

section Assertions

theorem Quiet.rely {lane : Option Queue} (h : Quiet services first second)
    (hconnectionId : ∀ place, lane = some (.peer place) →
      (second.state.peers place).connectionId = (first.state.peers place).connectionId)
    (hlapsing : ∀ queue, lane = some queue →
      second.state.lapsing queue = first.state.lapsing queue) :
    Rely services lane first second :=
  ⟨h.trace, h.now, h.leaving, h.keeps, hconnectionId, hlapsing⟩

theorem Still.rely (h : Still first second) (hinv : Inv services first) (lane : Option Queue) :
    Rely services lane first second :=
  (h.quiet hinv).rely (fun place _ => h.calm.connectionId place)
    fun queue _ => congrFun h.calm.lapsing queue

theorem Renews.rely {roomId : Text} {after : State} (h : Renews services first roomId after)
    (hinv : Inv services first) (lane : Option Queue) :
    Rely services lane first { first with state := after } := by
  have hquiet := h.quiet hinv
  obtain ⟨others, rfl, -⟩ := h
  exact hquiet.rely (fun _ _ => rfl) fun _ _ => rfl

theorem Renews.allows {condition : Condition services} {roomId : Text} {after : State}
    (h : Renews services first roomId after) (hinv : Inv services first) (job : Job) :
    (discipline condition).Allows job first { first with state := after } := by
  have hquiet := h.quiet hinv
  obtain ⟨others, rfl, -⟩ := h
  exact hquiet.allows hinv (fun _ _ => rfl) fun _ _ => rfl

variable (services) in
def Steadfast (job : Job) (assertion : RoomView → Prop) : Prop :=
  ∀ first second, assertion first → Rely services job.queue first second → assertion second

def Has (place : PeerRef) (connectionId : Option Text) (view : RoomView) : Prop :=
  (view.state.peers place).connectionId = connectionId

variable (services) in
def Secured (place : PeerRef) (connectionId : Text) (view : RoomView) : Prop :=
  .stores place connectionId ∈ view.trace ∧
    (Leaving view.state place ∨ Owned services view.state place connectionId)

def speaks : Mark → Bool
  | .takes _ _ | .stores _ _ | .joins _ _ | .leaves _ _ _ => true
  | _ => false

theorem Still.plain {view : RoomView} {mark : Mark} (hplain : speaks mark = false) :
    Still view { view with trace := view.trace ++ [mark] } := by
  refine .mark (fun place connectionId hsame => ?_) fun place connectionId hsame => ?_
  · rw [hsame] at hplain
    cases hplain
  · rw [hsame] at hplain
    cases hplain

theorem ensures_of_plain {mark : Mark} (hplain : speaks mark = false) (view : RoomView) :
    Undisputed services mark view ∧ OwnLeave services mark view := by
  cases mark with
  | takes | stores | joins | leaves => cases hplain
  | _ => exact ⟨trivial, trivial⟩

namespace Steadfast

variable {condition : Condition services} {job : Job} {assertion other : RoomView → Prop}

theorem trivial (job : Job) : Steadfast services job fun _ => True := fun _ _ _ _ => True.intro

theorem and (h : Steadfast services job assertion) (hother : Steadfast services job other) :
    Steadfast services job fun view => assertion view ∧ other view :=
  fun first second hfirst hrely =>
    ⟨h first second hfirst.1 hrely, hother first second hfirst.2 hrely⟩

theorem leaving (job : Job) (place : PeerRef) :
    Steadfast services job fun view => Leaving view.state place :=
  fun _ _ hleaves hrely => hrely.leaving place hleaves

theorem passed (job : Job) (mark : Mark) : Steadfast services job fun view => mark ∈ view.trace :=
  fun _ _ hmark hrely => hrely.trace.subset hmark

theorem has {place : PeerRef} (hqueue : job.queue = some (.peer place)) (connectionId : Option Text) :
    Steadfast services job (Has place connectionId) :=
  fun _ _ hhas hrely => (hrely.connectionId place hqueue).trans hhas

theorem secured (job : Job) (place : PeerRef) (connectionId : Text) :
    Steadfast services job (Secured services place connectionId) := by
  intro first second hsecured hrely
  refine ⟨hrely.trace.subset hsecured.1, ?_⟩
  by_cases hleaves : Leaving second.state place
  · exact .inl hleaves
  · cases hsecured.2 with
    | inl hbefore => exact absurd (hrely.leaving place hbefore) hleaves
    | inr howned => exact .inr (hrely.keeps.owned place connectionId hsecured.1 hleaves howned)

theorem lapsing {queue : Queue} (hqueue : job.queue = some queue) (expired : List LapsedMember) :
    Steadfast services job fun view => view.state.lapsing queue = expired :=
  fun _ _ hexpired hrely => (hrely.lapsing queue hqueue).trans hexpired

section

variable (h : Steadfast services job assertion)
include h

theorem stable : (discipline condition).Stable job assertion :=
  fun first second hfirst _ hlater _ => h first second hfirst hlater.1

theorem calmly : Calmly (discipline condition) job assertion := by
  have hstill : ∀ view after, assertion view → Inv services view → Still view after →
      (discipline condition).Allows job view after ∧ assertion after :=
    fun view after hview hinv hafter =>
      ⟨hafter.allows job hinv, h view after hview (hafter.rely hinv job.queue)⟩
  have hplain : ∀ mark view, speaks mark = false → assertion view → Inv services view →
      (Undisputed services mark view ∧ OwnLeave services mark view) ∧
        (discipline condition).Allows job view { view with trace := view.trace ++ [mark] } ∧
        assertion { view with trace := view.trace ++ [mark] } :=
    fun mark view hspeaks hview hinv =>
      ⟨ensures_of_plain hspeaks view, hstill view _ hview hinv (.plain hspeaks)⟩
  exact
    { stable := h.stable
      routine := fun view state hview hinv hroutine =>
        hstill view _ hview hinv (.state hroutine.calm)
      sends := fun peer frame view => hplain (.sends peer frame) view rfl
      fanout := fun room view hview hinv => by
        obtain ⟨hallows, hafter⟩ := hstill view _ hview hinv (.lanes view _)
        exact ⟨hallows, True.intro, hafter⟩
      calm := fun view state hview hinv hcalm => hstill view _ hview hinv (.state hcalm)
      received := fun message view => hplain (.received message) view rfl }

theorem plain {mark : Mark} (hplain : speaks mark = false) :
    (discipline condition).Maintains job assertion (Async.mark mark : RoomAsync Unit) := by
  refine Discipline.Triple.mark fun view hview hinv _ => ?_
  have hstill : Still view { view with trace := view.trace ++ [mark] } := .plain hplain
  exact ⟨ensures_of_plain hplain view, hstill.allows job hinv, h view _ hview (hstill.rely hinv _)⟩

theorem store {request : Request} (roomId : Text) {result : Answer request → RoomView → Prop}
    (hresult : ∀ answer, Steadfast services job (result answer))
    (hserve : ∀ view, assertion view → Inv services view → ∀ choice answer after,
      serve services.policy request choice view.state = some (answer, after) →
        Renews services view roomId after ∧ result answer { view with state := after }) :
    (discipline condition).Triple job assertion (Async.call request : RoomAsync (Answer request))
      fun answer view => result answer view ∧ assertion view := by
  refine Discipline.Triple.call h.stable (fun view hview hinv choice answer after hafter => ?_)
    fun answer => ((hresult answer).and h).stable
  obtain ⟨hrenews, hanswer⟩ := hserve view hview hinv choice answer after hafter
  exact ⟨hrenews.allows hinv job, hanswer, h view _ hview (hrenews.rely hinv _)⟩

theorem call {request : Request} (roomId : Text)
    (hserve : ∀ view, assertion view → Inv services view → ∀ choice answer after,
      serve services.policy request choice view.state = some (answer, after) →
        Renews services view roomId after) : (discipline condition).Maintains job assertion
      (Async.call request : RoomAsync (Answer request)) := by
  refine Discipline.Triple.call h.stable (fun view hview hinv choice answer after hafter => ?_)
    fun _ => h.stable
  have hrenews := hserve view hview hinv choice answer after hafter
  exact ⟨hrenews.allows hinv job, h view _ hview (hrenews.rely hinv _)⟩

end

theorem body {start : RoomView → Prop} {work : RoomAsync Unit}
    (hwork : (discipline condition).Triple job start work fun _ _ => True) :
    Discipline.Triple.Body (discipline condition) job start work := by
  refine .consequence hwork (fun view hview _ => hview.1) fun _ view _ hinv lane hlane => ?_
  have hstill : Still view (view.pop (some lane)) := .lanes view _
  have hallows : (discipline condition).Allows job view (view.pop (some lane)) :=
    hstill.allows job hinv
  obtain ⟨hguar, hafter⟩ := hallows
  exact ⟨hguar, hafter, True.intro⟩

end Steadfast

end Assertions

end Softmaple.Presence.OwnRecords
