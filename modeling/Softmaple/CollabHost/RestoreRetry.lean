import Softmaple.CollabHost.AlarmArmed
import Mathlib.Data.List.Nodup

/-!
`ensureRoom` and `restoreAttachedSockets` of a woken room object
(`document-room-do.ts`, `presence-room-do.ts`), one call after another. A call
that comes during a restore awaits the same promise.
-/
namespace Softmaple.CollabHost

open List

structure SocketAttachment where
  roomId : String
  peerId : String
  /-- When the socket was accepted, as long as it awaits its `Auth`. -/
  connectedAt : Option Nat
  deriving DecidableEq, Repr

/-- A socket of the object, by its place; `attachment` is `none` when it does not parse. -/
structure HeldSocket where
  attachment : Option SocketAttachment
  isOpen : Bool
  deriving DecidableEq, Repr

structure PeerEntry where
  peerId : String
  socket : Nat
  deriving DecidableEq, Repr

structure PeerRoom where
  members : List PeerEntry
  sessions : List PeerEntry
  deriving DecidableEq, Repr

inductive CloseReason where
  | invalid
  | duplicate (owner : Nat)
  | failed
  deriving DecidableEq, Repr

structure SocketClosing where
  socket : Nat
  reason : CloseReason
  deriving DecidableEq, Repr

structure RoomState where
  roomId : Option String
  room : Option PeerRoom
  /-- The promise of a restore that went through. -/
  initialized : Bool
  peers : List PeerEntry
  sockets : List HeldSocket
  alarm : Option Nat
  deriving DecidableEq, Repr

structure RoomWorld where
  state : RoomState
  discarded : List PeerRoom
  closings : List SocketClosing
  deriving DecidableEq, Repr

structure EnsureCall where
  roomId : String
  services : Bool
  interrupted : Option Nat
  joins : Nat → Bool
  resumes : Nat → Bool
  alarmFails : Bool
  intervalFails : Bool
  now : Nat

inductive EnsureResult where
  | room
  | mismatch
  | failed
  deriving DecidableEq, Repr

section Registration

inductive Verdict where
  | skipped
  | invalid
  | duplicate (owner : Nat)
  | registered (peer : PeerEntry)
  deriving DecidableEq, Repr

namespace Verdict

def peer? : Verdict → Option PeerEntry
  | .registered peer => some peer
  | _ => none

def reason? : Verdict → Option CloseReason
  | .invalid => some .invalid
  | .duplicate owner => some (.duplicate owner)
  | _ => none

end Verdict

def registerSocket (roomId : String) (peers : List PeerEntry) (place : Nat) (socket : HeldSocket) :
    Verdict :=
  if socket.isOpen = false then .skipped
  else
    match socket.attachment with
    | none => .invalid
    | some attachment =>
      if attachment.roomId ≠ roomId then .invalid
      else
        match peers.find? fun peer => peer.peerId = attachment.peerId with
        | some owner => .duplicate owner.socket
        | none => .registered ⟨attachment.peerId, place⟩

def registerSockets (roomId : String) : List PeerEntry → Nat → List HeldSocket → List Verdict
  | _, _, [] => []
  | peers, place, socket :: sockets =>
    let verdict := registerSocket roomId peers place socket
    verdict :: registerSockets roomId (peers ++ verdict.peer?.toList) (place + 1) sockets

def HeldSocket.close (socket : HeldSocket) : HeldSocket := { socket with isOpen := false }

def closeRefused : List Verdict → List HeldSocket → List HeldSocket
  | verdict :: verdicts, socket :: sockets =>
    (if verdict.reason?.isSome then socket.close else socket) :: closeRefused verdicts sockets
  | _, sockets => sockets

def refusals (verdicts : List Verdict) (place : Nat) : List SocketClosing :=
  match verdicts with
  | [] => []
  | verdict :: verdicts =>
    (verdict.reason?.toList.map fun reason => ⟨place, reason⟩) ++ refusals verdicts (place + 1)

def restoredPeers (verdicts : List Verdict) : List PeerEntry := verdicts.filterMap Verdict.peer?

end Registration

section Storage

def acceptedSocket (place : Nat) (socket : HeldSocket) : AcceptedSocket :=
  ⟨place, socket.attachment.bind (·.connectedAt), !socket.isOpen⟩

def heldAuthSockets (sockets : List HeldSocket) : List PendingAuthSocket :=
  collectPendingAuthSockets (sockets.mapIdx acceptedSocket)

/-- `scheduleAlarmAt`, or `none` where the storage fails. -/
def scheduleAlarmAt (fails : Bool) (instant alarm : Option Nat) : Option (Option Nat) :=
  match instant with
  | none => some alarm
  | some instant =>
    if fails then none
    else some (if ∀ scheduled ∈ alarm, instant < scheduled then some instant else alarm)

def ensureAlarmScheduled (fails : Bool) (now : Nat) (alarm : Option Nat) : Option (Option Nat) :=
  if fails then none
  else some (if alarm = none then some (now + PRESENCE_ALARM_INTERVAL_MS) else alarm)

end Storage

namespace PeerRoom

def empty : PeerRoom := ⟨[], []⟩

def join (peers : List PeerEntry) (room : PeerRoom) : PeerRoom :=
  { room with members := room.members ++ peers }

def resume (peers : List PeerEntry) (room : PeerRoom) : PeerRoom :=
  { room with sessions := room.sessions ++ peers }

def leave (peers : List PeerEntry) (room : PeerRoom) : PeerRoom where
  members := room.members.filter fun member => member ∉ peers
  sessions := room.sessions.filter fun member => member ∉ peers

end PeerRoom

namespace RoomState

def closeAt (places : List Nat) (sockets : List HeldSocket) : List HeldSocket :=
  sockets.mapIdx fun place socket => if place ∈ places then socket.close else socket

def deletePeers (deleted peers : List PeerEntry) : List PeerEntry :=
  peers.filter fun peer => peer.peerId ∉ deleted.map (·.peerId)

def awaitsAuth (state : RoomState) (peer : PeerEntry) : Bool :=
  (state.sockets[peer.socket]?.bind (·.attachment)).any (·.connectedAt.isSome)

/-- `peer.fail` and `peers.delete`: the socket is closed and the peer leaves its room. -/
def failPeers (failed : List PeerEntry) (state : RoomState) : RoomState :=
  { state with
    room := state.room.map (PeerRoom.leave failed)
    peers := deletePeers failed state.peers
    sockets := closeAt (failed.map (·.socket)) state.sockets }

def register (verdicts : List Verdict) (state : RoomState) : RoomState :=
  { state with
    peers := state.peers ++ restoredPeers verdicts
    sockets := closeRefused verdicts state.sockets }

def unjoined (call : EnsureCall) (restored : List PeerEntry) : List PeerEntry :=
  restored.filter fun peer => call.joins peer.socket = false

def joinPeers (call : EnsureCall) (restored : List PeerEntry) (state : RoomState) : RoomState :=
  failPeers (unjoined call restored) { state with
      room := state.room.map (PeerRoom.join (restored.filter fun peer => call.joins peer.socket)) }

/-- The peers whose session is to be resumed: still registered, and past their `Auth`. -/
def resumable (restored : List PeerEntry) (state : RoomState) : List PeerEntry :=
  restored.filter fun peer => peer ∈ state.peers ∧ state.awaitsAuth peer = false

def unresumed (call : EnsureCall) (restored : List PeerEntry) (state : RoomState) : List PeerEntry :=
  (state.resumable restored).filter fun peer => call.resumes peer.socket = false

def resumePeers (call : EnsureCall) (restored : List PeerEntry) (state : RoomState) : RoomState :=
  failPeers (unresumed call restored state) { state with
      room := state.room.map (PeerRoom.resume
        ((state.resumable restored).filter fun peer => call.resumes peer.socket)) }

def restorePeers (call : EnsureCall) (restored : List PeerEntry) (state : RoomState) : RoomState :=
  resumePeers call restored (joinPeers call restored state)

/-- `transportClosed` and `peers.delete`: the peer leaves its room, its socket stays open. -/
def discardRestoredPeers (restored : List PeerEntry) (state : RoomState) : RoomState :=
  { state with
    room := state.room.map (PeerRoom.leave restored)
    peers := deletePeers restored state.peers }

end RoomState

open RoomState

def failures (call : EnsureCall) (restored : List PeerEntry) (state : RoomState) :
    List SocketClosing :=
  (unjoined call restored ++ unresumed call restored (joinPeers call restored state)).map
    fun peer => ⟨peer.socket, .failed⟩

namespace RoomWorld

def woken (sockets : List HeldSocket) (alarm : Option Nat) : RoomWorld :=
  ⟨⟨none, none, false, [], sockets, alarm⟩, [], []⟩

def restoreAttachedSockets (call : EnsureCall) (world : RoomWorld) : RoomWorld × Bool :=
  let verdicts := registerSockets call.roomId world.state.peers 0 world.state.sockets
  match call.interrupted with
  | some visited =>
    let verdicts := verdicts.take visited
    let left := discardRestoredPeers (restoredPeers verdicts) (register verdicts world.state)
    (⟨{ left with room := none }, left.room.toList ++ world.discarded,
      world.closings ++ refusals verdicts 0⟩, false)
  | none =>
    let registered := register verdicts world.state
    let restored := restorePeers call (restoredPeers verdicts) registered
    let closings := world.closings ++ refusals verdicts 0 ++
      failures call (restoredPeers verdicts) registered
    match scheduleAlarmAt call.alarmFails
        (earliestAuthDeadline (heldAuthSockets restored.sockets)) restored.alarm with
    | none => (⟨restored, world.discarded, closings⟩, false)
    | some alarm =>
      (⟨{ restored with alarm := alarm, initialized := true }, world.discarded, closings⟩, true)

def serve (host : RoomHost) (call : EnsureCall) (world : RoomWorld) : RoomWorld × EnsureResult :=
  match host with
  | .document => (world, .room)
  | .presence =>
    match ensureAlarmScheduled call.intervalFails call.now world.state.alarm with
    | none => (world, .failed)
    | some alarm => ({ world with state := { world.state with alarm := alarm } }, .room)

def createRoom (call : EnsureCall) (world : RoomWorld) : RoomWorld :=
  if world.state.room = none then
    { world with
      state := { world.state with
        roomId := some call.roomId
        room := if call.services then some PeerRoom.empty else none } }
  else world

def ensureRoom (host : RoomHost) (call : EnsureCall) (world : RoomWorld) :
    RoomWorld × EnsureResult :=
  if ∃ roomId ∈ world.state.roomId, roomId ≠ call.roomId then (world, .mismatch)
  else
    let created := createRoom call world
    if created.state.room = none then (created, .failed)
    else if created.state.initialized then serve host call created
    else
      match restoreAttachedSockets call created with
      | (restored, true) => serve host call restored
      | (restored, false) => (restored, .failed)

def run (host : RoomHost) (world : RoomWorld) (calls : List EnsureCall) : RoomWorld :=
  calls.foldl (fun world call => (ensureRoom host call world).1) world

end RoomWorld

end Softmaple.CollabHost

namespace Softmaple.CollabHost

open List

section Walk

theorem peer?_of_reason? {verdict : Verdict} (h : verdict.reason?.isSome = true) :
    verdict.peer? = none := by
  cases verdict with
  | registered peer => cases h
  | _ => rfl

theorem registerSocket_close (roomId : String) (peers : List PeerEntry) (place : Nat)
    (socket : HeldSocket) : registerSocket roomId peers place socket.close = .skipped := rfl

/-- A walk over what a cut walk has left registers and closes what the whole walk would have. -/
theorem registerSockets_closeRefused (roomId : String) (sockets : List HeldSocket)
    (peers : List PeerEntry) (place visited : Nat) :
    restoredPeers (registerSockets roomId peers place
        (closeRefused ((registerSockets roomId peers place sockets).take visited) sockets)) =
      restoredPeers (registerSockets roomId peers place sockets) ∧
    closeRefused (registerSockets roomId peers place
        (closeRefused ((registerSockets roomId peers place sockets).take visited) sockets))
        (closeRefused ((registerSockets roomId peers place sockets).take visited) sockets) =
      closeRefused (registerSockets roomId peers place sockets) sockets := by
  induction sockets generalizing peers place visited with
  | nil => cases visited <;> exact ⟨rfl, rfl⟩
  | cons socket sockets ih =>
    cases visited with
    | zero => exact ⟨rfl, rfl⟩
    | succ visited =>
      obtain ⟨hpeers, hclosed⟩ :=
        ih (peers ++ (registerSocket roomId peers place socket).peer?.toList) (place + 1) visited
      simp only [registerSockets, take_succ_cons, closeRefused]
      by_cases hrefused : (registerSocket roomId peers place socket).reason?.isSome = true
      · rw [if_pos hrefused, registerSocket_close]
        rw [peer?_of_reason? hrefused] at hpeers hclosed ⊢
        constructor
        · unfold restoredPeers at hpeers ⊢
          rw [filterMap_cons_none rfl, filterMap_cons_none (peer?_of_reason? hrefused)]
          simpa [Verdict.peer?] using hpeers
        · simpa [Verdict.reason?, Verdict.peer?] using hclosed
      · rw [if_neg hrefused]
        constructor
        · simp only [restoredPeers, filterMap_cons]
          simp only [restoredPeers] at hpeers
          rw [hpeers]
        · rw [hclosed, if_neg hrefused]

variable {roomId : String} {place : Nat} {peers : List PeerEntry}

variable {socket : HeldSocket}

theorem registerSocket_registered {peer : PeerEntry}
    (h : (registerSocket roomId peers place socket).peer? = some peer) :
    socket.isOpen = true ∧ peer.socket = place ∧ peer.peerId ∉ peers.map (·.peerId) := by
  unfold registerSocket at h
  split at h
  · cases h
  · next hopen =>
      split at h
      · cases h
      · split at h
        · cases h
        · split at h
          · cases h
          · next hfresh =>
              cases h
              refine ⟨Bool.eq_true_of_not_eq_false hopen, rfl, fun hold => ?_⟩
              obtain ⟨other, hother, hsame⟩ := mem_map.mp hold
              exact find?_eq_none.mp hfresh other hother (decide_eq_true hsame)

theorem registerSocket_duplicate {owner : Nat}
    (h : (registerSocket roomId peers place socket).reason? = some (.duplicate owner)) :
    ∃ peer ∈ peers, peer.socket = owner := by
  unfold registerSocket at h
  split at h
  · cases h
  · split at h
    · cases h
    · split at h
      · cases h
      · split at h
        · next found hfound =>
            cases h
            exact ⟨found, mem_of_find?_eq_some hfound, rfl⟩
        · cases h

theorem registerSocket_open (hopen : socket.isOpen = true)
    (hkept : (registerSocket roomId peers place socket).reason?.isSome = false) :
    ∃ peer, (registerSocket roomId peers place socket).peer? = some peer ∧ peer.socket = place := by
  unfold registerSocket at hkept ⊢
  rw [hopen, if_neg Bool.true_eq_false_eq_False] at hkept ⊢
  split at hkept
  · cases hkept
  · split at hkept
    · cases hkept
    · next hroom =>
        split at hkept
        · cases hkept
        · rw [if_neg hroom]
          exact ⟨⟨_, place⟩, rfl, rfl⟩

theorem restoredPeers_cons (verdict : Verdict) (verdicts : List Verdict) :
    restoredPeers (verdict :: verdicts) = verdict.peer?.toList ++ restoredPeers verdicts := by
  unfold restoredPeers
  rw [filterMap_cons]
  cases verdict.peer? <;> rfl

variable {sockets : List HeldSocket}

theorem mem_restoredPeers {peer : PeerEntry}
    (h : peer ∈ restoredPeers (registerSockets roomId peers place sockets)) :
    place ≤ peer.socket ∧ peer.peerId ∉ peers.map (·.peerId) := by
  induction sockets generalizing peers place with
  | nil => cases h
  | cons socket sockets ih =>
    simp only [registerSockets, restoredPeers_cons] at h
    cases mem_append.mp h with
    | inl hhead =>
      obtain ⟨-, hplace, hfresh⟩ := registerSocket_registered (Option.mem_toList.mp hhead)
      exact ⟨Nat.le_of_eq hplace.symm, hfresh⟩
    | inr hmem =>
      obtain ⟨hplace, hfresh⟩ := ih hmem
      refine ⟨Nat.le_of_succ_le hplace, fun hold => hfresh ?_⟩
      rw [map_append]
      exact mem_append_left _ hold

theorem nodup_restoredPeers (roomId : String) (sockets : List HeldSocket) (peers : List PeerEntry)
    (place : Nat) :
    ((restoredPeers (registerSockets roomId peers place sockets)).map (·.peerId)).Nodup ∧
      ((restoredPeers (registerSockets roomId peers place sockets)).map (·.socket)).Nodup := by
  induction sockets generalizing peers place with
  | nil => exact ⟨nodup_nil, nodup_nil⟩
  | cons socket sockets ih =>
    simp only [registerSockets, restoredPeers_cons]
    obtain ⟨hids, hplaces⟩ :=
      ih (peers ++ (registerSocket roomId peers place socket).peer?.toList) (place + 1)
    cases hpeer : (registerSocket roomId peers place socket).peer? with
    | none =>
      rw [hpeer] at hids hplaces
      exact ⟨hids, hplaces⟩
    | some peer =>
      rw [hpeer] at hids hplaces
      simp only [Option.toList_some, singleton_append, map_cons, nodup_cons]
      refine ⟨⟨fun hmem => ?_, hids⟩, fun hmem => ?_, hplaces⟩
      · obtain ⟨other, hother, hsame⟩ := mem_map.mp hmem
        refine (mem_restoredPeers hother).2 ?_
        rw [hsame, map_append]
        exact mem_append_right _ (mem_singleton.mpr rfl)
      · obtain ⟨other, hother, hsame⟩ := mem_map.mp hmem
        have hplace := (registerSocket_registered hpeer).2.1
        have hlater := (mem_restoredPeers hother).1
        omega

theorem open_closeRefused {index : Nat}
    (h : (closeRefused (registerSockets roomId peers place sockets) sockets)[index]? = some socket)
    (hopen : socket.isOpen = true) :
    ∃ peer ∈ restoredPeers (registerSockets roomId peers place sockets),
      peer.socket = place + index := by
  induction sockets generalizing peers place index with
  | nil => cases h
  | cons head sockets ih =>
    simp only [registerSockets, closeRefused] at h
    simp only [registerSockets, restoredPeers_cons]
    cases index with
    | zero =>
      rw [getElem?_cons_zero] at h
      cases hrefused : (registerSocket roomId peers place head).reason?.isSome with
      | true =>
        rw [hrefused, if_pos rfl] at h
        cases h
        cases hopen
      | false =>
        rw [hrefused, if_neg Bool.false_ne_true] at h
        cases h
        obtain ⟨peer, hpeer, hplace⟩ := registerSocket_open hopen hrefused
        exact ⟨peer, mem_append_left _ (Option.mem_toList.mpr hpeer), hplace⟩
    | succ index =>
      rw [getElem?_cons_succ] at h
      obtain ⟨peer, hpeer, hplace⟩ := ih h
      exact ⟨peer, mem_append_right _ hpeer, by omega⟩

theorem refusals_not_own {visited : Nat} (hpeers : ∀ peer ∈ peers, peer.socket < place) :
    ∀ closing ∈ refusals ((registerSockets roomId peers place sockets).take visited) place,
      closing.reason ≠ .duplicate closing.socket := by
  induction sockets generalizing peers place visited with
  | nil =>
    intro closing hclosing
    cases visited <;> cases hclosing
  | cons socket sockets ih =>
    cases visited with
    | zero =>
      intro closing hclosing
      cases hclosing
    | succ visited =>
      intro closing hclosing
      simp only [registerSockets, take_succ_cons, refusals] at hclosing
      cases mem_append.mp hclosing with
      | inl hhead =>
        obtain ⟨reason, hreason, rfl⟩ := mem_map.mp hhead
        intro hown
        have hsame : reason = .duplicate place := hown
        have hduplicate := Option.mem_toList.mp hreason
        rw [hsame] at hduplicate
        obtain ⟨owner, howner, hplace⟩ := registerSocket_duplicate hduplicate
        have hbefore := hpeers owner howner
        omega
      | inr hrest =>
        refine ih ?_ closing hrest
        intro peer hpeer
        cases mem_append.mp hpeer with
        | inl hold => exact Nat.lt_succ_of_lt (hpeers peer hold)
        | inr hnew =>
          have hplace := (registerSocket_registered (Option.mem_toList.mp hnew)).2.1
          omega

theorem refusals_not_own_whole (hpeers : ∀ peer ∈ peers, peer.socket < place) :
    ∀ closing ∈ refusals (registerSockets roomId peers place sockets) place,
      closing.reason ≠ .duplicate closing.socket := by
  intro closing hclosing
  rw [← take_length (l := registerSockets roomId peers place sockets)] at hclosing
  exact refusals_not_own hpeers closing hclosing

end Walk

section Outcome

open RoomState

variable {call : EnsureCall} {restored : List PeerEntry} {state : RoomState}

variable {sockets : List HeldSocket}

theorem getElem?_closeAt {places : List Nat} {place : Nat}
    {socket : HeldSocket} (h : (closeAt places sockets)[place]? = some socket)
    (hopen : socket.isOpen = true) : sockets[place]? = some socket ∧ place ∉ places := by
  unfold closeAt at h
  rw [getElem?_mapIdx] at h
  obtain ⟨before, hbefore, hclosed⟩ := Option.map_eq_some_iff.mp h
  split at hclosed
  · rw [← hclosed] at hopen
    cases hopen
  · next hkept =>
      rw [hbefore, hclosed]
      exact ⟨rfl, hkept⟩

theorem mem_deletePeers {deleted peers : List PeerEntry} {peer : PeerEntry}
    (hmem : peer ∈ peers) (hids : (peers.map (·.peerId)).Nodup)
    (hsub : ∀ other ∈ deleted, other ∈ peers) (hkept : peer ∉ deleted) :
    peer ∈ deletePeers deleted peers := by
  refine mem_filter.mpr ⟨hmem, decide_eq_true fun hid => ?_⟩
  obtain ⟨other, hother, hsame⟩ := mem_map.mp hid
  have heq := inj_on_of_nodup_map hids (hsub other hother) hmem hsame
  rw [heq] at hother
  exact hkept hother

theorem filter_socket {peers kept : List PeerEntry} {peer : PeerEntry}
    (hplaces : (peers.map (·.socket)).Nodup) (hsub : kept.Sublist peers) (hmem : peer ∈ kept) :
    kept.filter (fun other => other.socket = peer.socket) = [peer] := by
  have hnodup : (kept.map (·.socket)).Nodup := (hsub.map _).nodup hplaces
  have hkept : kept.Nodup := hnodup.of_map _
  have hall : ∀ other ∈ kept.filter (fun other => other.socket = peer.socket), other = peer := by
    intro other hother
    obtain ⟨hin, hsame⟩ := mem_filter.mp hother
    exact inj_on_of_nodup_map hnodup hin hmem (of_decide_eq_true hsame)
  have hself : peer ∈ kept.filter (fun other => other.socket = peer.socket) :=
    mem_filter.mpr ⟨hmem, decide_eq_true rfl⟩
  have hperm : (kept.filter fun other => other.socket = peer.socket).Perm [peer] :=
    (perm_ext_iff_of_nodup (hkept.filter _) (nodup_singleton peer)).mpr fun other =>
      ⟨fun hother => mem_singleton.mpr (hall other hother), fun hother => by
        rw [mem_singleton.mp hother]
        exact hself⟩
  exact perm_singleton.mp hperm

/-- Every open socket of the room has one peer object, and it is joined to the current room. -/
def SocketsHosted (state : RoomState) : Prop :=
  ∀ place socket attachment, state.sockets[place]? = some socket → socket.isOpen = true →
    socket.attachment = some attachment → some attachment.roomId = state.roomId →
    ∃ room peer, state.room = some room ∧
      state.peers.filter (fun other => other.socket = place) = [peer] ∧
      room.members.filter (fun other => other.socket = place) = [peer]

def walked (roomId : String) (sockets : List HeldSocket) (alarm : Option Nat) : RoomState :=
  ⟨some roomId, some PeerRoom.empty, false, restoredPeers (registerSockets roomId [] 0 sockets),
    closeRefused (registerSockets roomId [] 0 sockets) sockets, alarm⟩

theorem hosted_restorePeers {roomId : String} {alarm : Option Nat} :
    SocketsHosted (restorePeers call (walked roomId sockets alarm).peers (walked roomId sockets alarm)) := by
  intro place socket attachment hsocket hopen _ _
  let peers := restoredPeers (registerSockets roomId [] 0 sockets)
  let joined := joinPeers call peers (walked roomId sockets alarm)
  obtain ⟨hids, hplaces⟩ := nodup_restoredPeers roomId sockets [] 0
  obtain ⟨hjoined, hresumed⟩ := getElem?_closeAt hsocket hopen
  obtain ⟨hwalked, hunjoined⟩ := getElem?_closeAt hjoined hopen
  obtain ⟨peer, hpeer, hplace⟩ := open_closeRefused hwalked hopen
  rw [Nat.zero_add] at hplace
  subst hplace
  have hjoin : peer ∉ unjoined call peers := fun hmem =>
    hunjoined (mem_map_of_mem hmem)
  have hresume : peer ∉ unresumed call peers joined := fun hmem =>
    hresumed (mem_map_of_mem hmem)
  have hjoins : peer ∈ peers.filter fun other => call.joins other.socket := by
    refine mem_filter.mpr ⟨hpeer, Bool.eq_true_of_not_eq_false fun hfails => hjoin ?_⟩
    exact mem_filter.mpr ⟨hpeer, decide_eq_true hfails⟩
  have hkept : peer ∈ deletePeers (unjoined call peers) peers :=
    mem_deletePeers hpeer hids (fun other hother => mem_of_mem_filter hother) hjoin
  refine ⟨_, peer, rfl, ?_, ?_⟩
  · refine filter_socket hplaces (filter_sublist.trans filter_sublist) ?_
    refine mem_deletePeers hkept ((filter_sublist.map _).nodup hids) ?_ hresume
    intro other hother
    have hresumable := mem_of_mem_filter hother
    exact (of_decide_eq_true (mem_filter.mp hresumable).2).1
  · refine filter_socket hplaces
      (filter_sublist.trans (filter_sublist.trans filter_sublist)) ?_
    exact mem_filter.mpr ⟨mem_filter.mpr ⟨hjoins, decide_eq_true hjoin⟩,
      decide_eq_true hresume⟩

def settled (call : EnsureCall) (state : RoomState) : RoomState :=
  let restored := restorePeers call state.peers state
  { restored with
    alarm := (scheduleAlarmAt false (earliestAuthDeadline (heldAuthSockets restored.sockets))
      restored.alarm).getD none
    initialized := true }

def served (host : RoomHost) (now : Nat) (state : RoomState) : RoomState :=
  match host with
  | .document => state
  | .presence => { state with alarm := (ensureAlarmScheduled false now state.alarm).getD none }

theorem served_served (host : RoomHost) (now later : Nat) (state : RoomState) :
    served host later (served host now state) = served host now state := by
  cases host with
  | document => rfl
  | presence =>
    cases halarm : state.alarm with
    | none => simp [served, ensureAlarmScheduled, halarm]
    | some instant => simp [served, ensureAlarmScheduled, halarm]

theorem initialized_served (host : RoomHost) (now : Nat) (state : RoomState) :
    (served host now state).initialized = state.initialized ∧
      (served host now state).room = state.room := by
  cases host <;> exact ⟨rfl, rfl⟩

theorem hosted_served {host : RoomHost} {now : Nat} {roomId : String}
    {alarm : Option Nat} :
    SocketsHosted (served host now (settled call (walked roomId sockets alarm))) := by
  have hhosted : SocketsHosted (restorePeers call (walked roomId sockets alarm).peers
      (walked roomId sockets alarm)) := hosted_restorePeers
  cases host with
  | document => exact hhosted
  | presence => exact hhosted

theorem scheduleAlarmAt_ok (instant alarm : Option Nat) :
    ∃ next, scheduleAlarmAt false instant alarm = some next := by
  cases instant <;> exact ⟨_, rfl⟩

end Outcome

namespace RoomWorld

open RoomState

variable {host : RoomHost} {call : EnsureCall} {sockets : List HeldSocket} {alarm : Option Nat}
  {world : RoomWorld} {calls : List EnsureCall}

structure Pristine (sockets : List HeldSocket) (alarm : Option Nat) (state : RoomState) : Prop where
  room : state.room = none
  initialized : state.initialized = false
  peers : state.peers = []
  alarm : state.alarm = alarm
  walk : ∀ roomId, (∀ known ∈ state.roomId, known = roomId) →
    restoredPeers (registerSockets roomId [] 0 state.sockets) =
        restoredPeers (registerSockets roomId [] 0 sockets) ∧
      closeRefused (registerSockets roomId [] 0 state.sockets) state.sockets =
        closeRefused (registerSockets roomId [] 0 sockets) sockets

inductive Progress (host : RoomHost) (sockets : List HeldSocket) (alarm : Option Nat)
    (calls : List EnsureCall) (state : RoomState) : Prop where
  | pristine (left : Pristine sockets alarm state)
  | restored {restoring : EnsureCall} (mem : restoring ∈ calls)
      (eq : state = settled restoring (walked restoring.roomId sockets alarm))
  | served {restoring succeeding : EnsureCall} (mem : restoring ∈ calls)
      (later : succeeding ∈ calls)
      (eq : state =
        served host succeeding.now (settled restoring (walked restoring.roomId sockets alarm)))

structure Sound (host : RoomHost) (sockets : List HeldSocket) (alarm : Option Nat)
    (calls : List EnsureCall) (world : RoomWorld) : Prop where
  progress : Progress host sockets alarm calls world.state
  discarded : ∀ room ∈ world.discarded, room = PeerRoom.empty
  closings : ∀ closing ∈ world.closings, closing.reason ≠ .duplicate closing.socket

theorem Progress.more {state : RoomState} (h : Progress host sockets alarm calls state) :
    Progress host sockets alarm (calls ++ [call]) state := by
  cases h with
  | pristine hleft => exact .pristine hleft
  | restored hmem heq => exact .restored (mem_append_left _ hmem) heq
  | served hmem hlater heq =>
    exact .served (mem_append_left _ hmem) (mem_append_left _ hlater) heq

theorem Sound.more (h : Sound host sockets alarm calls world) :
    Sound host sockets alarm (calls ++ [call]) world :=
  ⟨h.progress.more, h.discarded, h.closings⟩

def Answered (host : RoomHost) (sockets : List HeldSocket) (alarm : Option Nat)
    (calls : List EnsureCall) (outcome : RoomWorld × EnsureResult) : Prop :=
  Sound host sockets alarm calls outcome.1 ∧
    (outcome.2 = .room → ∃ restoring ∈ calls, ∃ succeeding ∈ calls, outcome.1.state =
        served host succeeding.now (settled restoring (walked restoring.roomId sockets alarm)))

theorem answered_of_not_room {result : EnsureResult} (h : Sound host sockets alarm calls world)
    (hresult : result ≠ .room) : Answered host sockets alarm calls (world, result) :=
  ⟨h, fun heq => absurd heq hresult⟩

theorem serve_cases (host : RoomHost) (call : EnsureCall) (world : RoomWorld) :
    serve host call world = (world, .failed) ∨ serve host call world =
        ({ world with state := served host call.now world.state }, .room) := by
  cases host with
  | document => exact .inr rfl
  | presence =>
    unfold serve ensureAlarmScheduled
    cases call.intervalFails with
    | true => exact .inl rfl
    | false => exact .inr rfl

theorem answered_serve {restoring : EnsureCall} (hcall : call ∈ calls) (hmem : restoring ∈ calls)
    (hstate : world.state = settled restoring (walked restoring.roomId sockets alarm) ∨
      ∃ succeeding ∈ calls, world.state = served host succeeding.now
        (settled restoring (walked restoring.roomId sockets alarm)))
    (h : Sound host sockets alarm calls world) :
    Answered host sockets alarm calls (serve host call world) := by
  cases serve_cases host call world with
  | inl hfailed =>
    rw [hfailed]
    exact answered_of_not_room h (fun heq => by cases heq)
  | inr hserved =>
    rw [hserved]
    obtain ⟨succeeding, hlater, heq⟩ : ∃ succeeding ∈ calls,
        served host call.now world.state = served host succeeding.now
          (settled restoring (walked restoring.roomId sockets alarm)) := by
      cases hstate with
      | inl hrestored => exact ⟨call, hcall, by rw [hrestored]⟩
      | inr hbefore =>
        obtain ⟨succeeding, hlater, heq⟩ := hbefore
        exact ⟨succeeding, hlater, by rw [heq, served_served]⟩
    exact ⟨⟨.served hmem hlater heq, h.discarded, h.closings⟩,
      fun _ => ⟨restoring, hmem, succeeding, hlater, heq⟩⟩

theorem Pristine.named {state : RoomState} {roomId : String} (h : Pristine sockets alarm state)
    (hroom : ∀ known ∈ state.roomId, known = roomId) :
    Pristine sockets alarm { state with roomId := some roomId } where
  room := h.room
  initialized := h.initialized
  peers := h.peers
  alarm := h.alarm
  walk := by
    intro other hother
    have hsame := hother roomId rfl
    rw [← hsame]
    exact h.walk roomId hroom

/-- The object as a restore finds it. -/
def opened (roomId : String) (world : RoomWorld) : RoomWorld :=
  { world with state := { world.state with roomId := some roomId, room := some PeerRoom.empty } }

theorem register_opened (h : Pristine sockets alarm world.state)
    (hroom : ∀ known ∈ world.state.roomId, known = call.roomId) :
    register (registerSockets call.roomId (opened call.roomId world).state.peers 0
        (opened call.roomId world).state.sockets) (opened call.roomId world).state =
      walked call.roomId sockets alarm ∧
    restoredPeers (registerSockets call.roomId (opened call.roomId world).state.peers 0
        (opened call.roomId world).state.sockets) = (walked call.roomId sockets alarm).peers := by
  obtain ⟨hrestored, hclosed⟩ := h.walk call.roomId hroom
  unfold register opened walked
  rw [h.peers, h.initialized, h.alarm, hrestored, hclosed, nil_append]
  exact ⟨rfl, rfl⟩

theorem failures_not_own {restored : List PeerEntry} {state : RoomState} :
    ∀ closing ∈ failures call restored state, closing.reason ≠ .duplicate closing.socket := by
  intro closing hclosing
  obtain ⟨peer, -, rfl⟩ := mem_map.mp hclosing
  intro heq
  cases heq

theorem sound_interrupted {visited : Nat} (h : Sound host sockets alarm calls world)
    (hpristine : Pristine sockets alarm world.state)
    (hroom : ∀ known ∈ world.state.roomId, known = call.roomId)
    (hcut : call.interrupted = some visited) :
    Sound host sockets alarm calls (restoreAttachedSockets call (opened call.roomId world)).1 := by
  have hpeers : (opened call.roomId world).state.peers = [] := hpristine.peers
  unfold restoreAttachedSockets
  rw [hcut, hpeers]
  refine ⟨.pristine ⟨rfl, hpristine.initialized, ?_, hpristine.alarm, ?_⟩, ?_, ?_⟩
  · change deletePeers _ (world.state.peers ++ _) = []
    rw [hpristine.peers, nil_append]
    refine filter_eq_nil_iff.mpr fun peer hpeer hkept => ?_
    exact of_decide_eq_true hkept (mem_map_of_mem hpeer)
  · intro roomId hknown
    have hsame := hknown call.roomId rfl
    rw [← hsame]
    obtain ⟨hrestored, hclosed⟩ := hpristine.walk call.roomId hroom
    obtain ⟨hagain, hreclosed⟩ :=
      registerSockets_closeRefused call.roomId world.state.sockets [] 0 visited
    exact ⟨hagain.trans hrestored, hreclosed.trans hclosed⟩
  · intro room hmem
    cases mem_append.mp hmem with
    | inl hleft =>
      obtain rfl : room = PeerRoom.leave _ PeerRoom.empty := by
        exact (mem_singleton.mp hleft)
      rfl
    | inr hold => exact h.discarded room hold
  · intro closing hclosing
    cases mem_append.mp hclosing with
    | inl hold => exact h.closings closing hold
    | inr hnew => exact refusals_not_own (fun peer hpeer => by cases hpeer) closing hnew

theorem sound_restored (h : Sound host sockets alarm calls world)
    (hpristine : Pristine sockets alarm world.state)
    (hroom : ∀ known ∈ world.state.roomId, known = call.roomId)
    (hwhole : call.interrupted = none) (hwritten : call.alarmFails = false) (hcall : call ∈ calls) :
    (restoreAttachedSockets call (opened call.roomId world)).2 = true ∧
      (restoreAttachedSockets call (opened call.roomId world)).1.state =
        settled call (walked call.roomId sockets alarm) ∧
      Sound host sockets alarm calls (restoreAttachedSockets call (opened call.roomId world)).1 := by
  obtain ⟨hwalked, hpeers⟩ := register_opened hpristine hroom
  obtain ⟨next, hnext⟩ := scheduleAlarmAt_ok
    (earliestAuthDeadline (heldAuthSockets (restorePeers call (walked call.roomId sockets alarm).peers
      (walked call.roomId sockets alarm)).sockets))
    (restorePeers call (walked call.roomId sockets alarm).peers
      (walked call.roomId sockets alarm)).alarm
  have hstate : (restoreAttachedSockets call (opened call.roomId world)).2 = true ∧
      (restoreAttachedSockets call (opened call.roomId world)).1.state =
        settled call (walked call.roomId sockets alarm) := by
    unfold restoreAttachedSockets settled
    rw [hwhole]
    dsimp only
    rw [hwalked, hpeers, hwritten, hnext]
    exact ⟨rfl, rfl⟩
  refine ⟨hstate.1, hstate.2, .restored hcall hstate.2, ?_, ?_⟩
  · unfold restoreAttachedSockets
    rw [hwhole]
    dsimp only
    rw [hwalked, hpeers, hwritten, hnext]
    exact h.discarded
  · unfold restoreAttachedSockets
    rw [hwhole]
    dsimp only
    rw [hwalked, hpeers, hwritten, hnext]
    intro closing hclosing
    cases mem_append.mp hclosing with
    | inr hfailed => exact failures_not_own closing hfailed
    | inl hmem =>
      cases mem_append.mp hmem with
      | inl hold => exact h.closings closing hold
      | inr hnew =>
        have hnone : ∀ peer ∈ (opened call.roomId world).state.peers, peer.socket < 0 := by
          intro peer hpeer
          rw [show (opened call.roomId world).state.peers = [] from hpristine.peers] at hpeer
          cases hpeer
        exact refusals_not_own_whole hnone closing hnew

theorem createRoom_pristine (h : Pristine sockets alarm world.state) : createRoom call world =
      if call.services then opened call.roomId world
      else { world with state := { world.state with roomId := some call.roomId } } := by
  unfold createRoom
  rw [if_pos h.room]
  split
  · rfl
  · rw [← h.room]

def Same (call : EnsureCall) (world : RoomWorld) : Prop :=
  ∀ known ∈ world.state.roomId, known = call.roomId

theorem ensureRoom_mismatch (h : ¬Same call world) : ensureRoom host call world = (world, .mismatch) := by
  refine if_pos (Classical.byContradiction fun hnone => h fun known hknown => ?_)
  exact Classical.byContradiction fun hother => hnone ⟨known, hknown, hother⟩

section

variable (h : Same call world)
include h

theorem ensureRoom_same : ensureRoom host call world =
      if (createRoom call world).state.room = none then (createRoom call world, .failed)
      else if (createRoom call world).state.initialized then serve host call (createRoom call world)
      else match restoreAttachedSockets call (createRoom call world) with
        | (restored, true) => serve host call restored
        | (restored, false) => (restored, .failed) := by
  refine if_neg fun hother => ?_
  obtain ⟨known, hknown, hdiffers⟩ := hother
  exact hdiffers (h known hknown)

theorem ensureRoom_initialized (hopen : world.state.room ≠ none)
    (hinitialized : world.state.initialized = true) :
    ensureRoom host call world = serve host call world := by
  have hcreated : createRoom call world = world := if_neg hopen
  rw [ensureRoom_same h, hcreated, if_neg hopen, if_pos hinitialized]

section

variable (hpristine : Pristine sockets alarm world.state)
include hpristine

theorem ensureRoom_unserved (hservices : call.services = false) : ensureRoom host call world =
      ({ world with state := { world.state with roomId := some call.roomId } }, .failed) := by
  rw [ensureRoom_same h, createRoom_pristine hpristine, hservices, if_neg Bool.false_ne_true,
    if_pos hpristine.room]

theorem ensureRoom_pristine (hservices : call.services = true) : ensureRoom host call world =
      match restoreAttachedSockets call (opened call.roomId world) with
      | (restored, true) => serve host call restored
      | (restored, false) => (restored, .failed) := by
  have hfresh : (opened call.roomId world).state.initialized = false := hpristine.initialized
  rw [ensureRoom_same h, createRoom_pristine hpristine, hservices, if_pos rfl,
    if_neg (fun heq => by cases heq), hfresh, if_neg Bool.false_ne_true]

theorem ensureRoom_interrupted {visited : Nat} (hservices : call.services = true)
    (hcut : call.interrupted = some visited) : ensureRoom host call world =
      ((restoreAttachedSockets call (opened call.roomId world)).1, .failed) := by
  have hresult : (restoreAttachedSockets call (opened call.roomId world)).2 = false := by
    unfold restoreAttachedSockets
    rw [hcut]
  rw [ensureRoom_pristine h hpristine hservices]
  split
  · next heq =>
      rw [heq] at hresult
      cases hresult
  · next heq => rw [heq]

theorem ensureRoom_restored (hservices : call.services = true)
    (hrestored : (restoreAttachedSockets call (opened call.roomId world)).2 = true) :
    ensureRoom host call world =
      serve host call (restoreAttachedSockets call (opened call.roomId world)).1 := by
  rw [ensureRoom_pristine h hpristine hservices]
  split
  · next heq => rw [heq]
  · next heq =>
      rw [heq] at hrestored
      cases hrestored

end

end

theorem answered_ensureRoom (h : Sound host sockets alarm calls world)
    (hwritten : call.alarmFails = false) :
    Answered host sockets alarm (calls ++ [call]) (ensureRoom host call world) := by
  have hcall : call ∈ calls ++ [call] := mem_append_right _ (mem_singleton.mpr rfl)
  have hmore : Sound host sockets alarm (calls ++ [call]) world := h.more
  by_cases hsame : Same call world
  · cases hmore.progress with
    | restored hmem heq =>
      rw [ensureRoom_initialized hsame (by rw [heq]; exact Option.some_ne_none _) (by rw [heq]; rfl)]
      exact answered_serve hcall hmem (.inl heq) hmore
    | served hmem hlater heq =>
      have hkept := initialized_served host
      rw [ensureRoom_initialized hsame
        (by rw [heq, (hkept _ _).2]; exact Option.some_ne_none _)
        (by rw [heq, (hkept _ _).1]; rfl)]
      exact answered_serve hcall hmem (.inr ⟨_, hlater, heq⟩) hmore
    | pristine hpristine =>
      cases hservices : call.services with
      | false =>
        rw [ensureRoom_unserved hsame hpristine hservices]
        refine answered_of_not_room ?_ fun heq => by cases heq
        exact ⟨.pristine (hpristine.named hsame), h.discarded, h.closings⟩
      | true =>
        cases hcut : call.interrupted with
        | some visited =>
          rw [ensureRoom_interrupted hsame hpristine hservices hcut]
          exact answered_of_not_room (sound_interrupted hmore hpristine hsame hcut)
            fun heq => by cases heq
        | none =>
          obtain ⟨hresult, hstate, hsound⟩ :=
            sound_restored hmore hpristine hsame hcut hwritten hcall
          rw [ensureRoom_restored hsame hpristine hservices hresult]
          exact answered_serve hcall hcall (.inl hstate) hsound
  · rw [ensureRoom_mismatch hsame]
    exact answered_of_not_room hmore fun heq => by cases heq

theorem sound_run {pending : List EnsureCall} (h : Sound host sockets alarm calls world)
    (hwritten : ∀ call ∈ pending, call.alarmFails = false) :
    Sound host sockets alarm (calls ++ pending) (run host world pending) := by
  induction pending generalizing calls world with
  | nil =>
    rw [append_nil]
    exact h
  | cons call pending ih =>
    have hstep := answered_ensureRoom h (hwritten call mem_cons_self)
    have hrest := ih hstep.1 fun other hother => hwritten other (mem_cons_of_mem _ hother)
    rw [append_assoc] at hrest
    exact hrest

theorem sound_woken (host : RoomHost) (sockets : List HeldSocket) (alarm : Option Nat) :
    Sound host sockets alarm [] (woken sockets alarm) where
  progress := .pristine ⟨rfl, rfl, rfl, rfl, fun _ _ => ⟨rfl, rfl⟩⟩
  discarded := fun room hmem => by cases hmem
  closings := fun closing hmem => by cases hmem

/-- A restore that nothing holds up, with the joins and resumes of one call and the time of one. -/
def atOnce (restoring succeeding : EnsureCall) : EnsureCall :=
  { restoring with
    services := true
    interrupted := none
    alarmFails := false
    intervalFails := false
    now := succeeding.now }

theorem ensureRoom_atOnce (host : RoomHost) (restoring succeeding : EnsureCall)
    (sockets : List HeldSocket) (alarm : Option Nat) :
    (ensureRoom host (atOnce restoring succeeding) (woken sockets alarm)).2 = .room ∧
    (ensureRoom host (atOnce restoring succeeding) (woken sockets alarm)).1.state =
      served host succeeding.now (settled restoring (walked restoring.roomId sockets alarm)) := by
  have hpristine : Pristine sockets alarm (woken sockets alarm).state :=
    ⟨rfl, rfl, rfl, rfl, fun _ _ => ⟨rfl, rfl⟩⟩
  have hsame : Same (atOnce restoring succeeding) (woken sockets alarm) := fun _ hknown => by
    cases hknown
  have hsound : Sound host sockets alarm ([] ++ [atOnce restoring succeeding])
      (woken sockets alarm) := (sound_woken host sockets alarm).more
  obtain ⟨hresult, hstate, -⟩ :=
    sound_restored hsound hpristine hsame rfl rfl (mem_singleton.mpr rfl)
  rw [ensureRoom_restored hsame hpristine rfl hresult]
  cases host with
  | document => exact ⟨rfl, hstate⟩
  | presence =>
    refine ⟨rfl, ?_⟩
    change served .presence succeeding.now _ = _
    rw [hstate]
    rfl

/-- As long as no alarm write at the end of a restore fails: no socket is closed as a duplicate of
itself, no discarded room keeps a peer, and a call that gets its room leaves every open socket with
one peer object in it, in the state that one call would have left at once. -/
theorem restore_retried (h : ∀ call ∈ calls, call.alarmFails = false) :
    (∀ closing ∈ (run host (woken sockets alarm) calls).closings,
        closing.reason ≠ .duplicate closing.socket) ∧
      (∀ room ∈ (run host (woken sockets alarm) calls).discarded,
        room.members = [] ∧ room.sessions = []) ∧
      ∀ call, call.alarmFails = false →
        (ensureRoom host call (run host (woken sockets alarm) calls)).2 = .room →
        SocketsHosted (ensureRoom host call (run host (woken sockets alarm) calls)).1.state ∧
          ∃ restoring ∈ calls ++ [call], ∃ succeeding ∈ calls ++ [call],
            (ensureRoom host (atOnce restoring succeeding) (woken sockets alarm)).2 = .room ∧
            (ensureRoom host call (run host (woken sockets alarm) calls)).1.state =
              (ensureRoom host (atOnce restoring succeeding) (woken sockets alarm)).1.state := by
  have hsound := sound_run (sound_woken host sockets alarm) h
  rw [nil_append] at hsound
  refine ⟨hsound.closings, ?_, ?_⟩
  · intro room hmem
    rw [hsound.discarded room hmem]
    exact ⟨rfl, rfl⟩
  · intro call hwritten hroom
    obtain ⟨restoring, hmem, succeeding, hlater, heq⟩ :=
      (answered_ensureRoom hsound hwritten).2 hroom
    have honce := ensureRoom_atOnce host restoring succeeding sockets alarm
    refine ⟨?_, restoring, hmem, succeeding, hlater, honce.1, heq.trans honce.2.symm⟩
    rw [heq]
    exact hosted_served

/-- A socket that awaits its `Auth`, and one of a resumed session. -/
def heldSockets : List HeldSocket :=
  [⟨some ⟨"d", "a", some 0⟩, true⟩, ⟨some ⟨"d", "b", none⟩, true⟩]

def heldCall (interrupted : Option Nat) (alarmFails : Bool) : EnsureCall :=
  ⟨"d", true, interrupted, fun _ => true, fun _ => true, alarmFails, false, 0⟩

theorem restore_retried_interrupted : SocketsHosted (ensureRoom .document (heldCall none false)
      (run .document (woken heldSockets none) [heldCall (some 1) false])).1.state := by
  have hwritten : ∀ call ∈ [heldCall (some 1) false], call.alarmFails = false := by
    intro call hmem
    rw [mem_singleton.mp hmem]
    rfl
  exact ((restore_retried hwritten).2.2 (heldCall none false) rfl (by decide +kernel)).1

/-- After a failed alarm write the next call closes every restored socket as a duplicate of
itself. -/
theorem restore_not_retried : ∃ closing ∈ (run .document (woken heldSockets none)
        [heldCall none true, heldCall none false]).closings,
      closing.reason = .duplicate closing.socket :=
  ⟨⟨0, .duplicate 0⟩, by decide +kernel, rfl⟩

end RoomWorld

end Softmaple.CollabHost
