import Softmaple.CollabHost.AuthDeadline
import Softmaple.Lib.AsyncTasks

/-!
The one alarm of a room object (`document-room-do.ts`, `presence-room-do.ts`):
upgrades, messages, closes, alarms and wake-ups as tasks that interleave at
every await. A read of the alarm and the write it decides on are two segments.
-/
namespace Softmaple.CollabHost

open TaskPool List

def PRESENCE_ALARM_INTERVAL_MS : Nat := 30000

inductive RoomHost where
  | document
  | presence
  deriving DecidableEq, Repr

structure AlarmState where
  now : Nat
  alarm : Option Nat
  sockets : List AcceptedSocket
  deriving DecidableEq, Repr

inductive MessageOutcome where
  | unchanged
  | authenticated
  | closed
  deriving DecidableEq, Repr

/-- How `fetch` leaves the socket it accepted: a failed join closes it, and the close may throw. -/
inductive UpgradeOutcome where
  | joined
  | abandoned
  | resisted
  deriving DecidableEq, Repr

/-- What a handler runs between two awaits. -/
inductive AlarmSegment where
  | restore (dropped : List Nat)
  | armEarliest
  | ensureAlarmScheduled
  | setInterval
  | accept (id : Nat) (outcome : UpgradeOutcome)
  | abandon (id : Nat)
  | deliver (id : Nat) (outcome : MessageOutcome)
  | sweepRoom
  | armLiveness
  | scheduleAlarmAt (instant : Nat)
  | setAlarm (instant : Nat)
  deriving DecidableEq, Repr

def pendingAuthSockets (state : AlarmState) : List PendingAuthSocket :=
  collectPendingAuthSockets state.sockets

def closeSockets (ids : List Nat) (sockets : List AcceptedSocket) : List AcceptedSocket :=
  sockets.map fun socket => if socket.id ∈ ids then { socket with closing := true } else socket

/-- A disconnected socket is no longer among the object's. -/
def removeSocket (id : Nat) (sockets : List AcceptedSocket) : List AcceptedSocket :=
  sockets.filter fun socket => socket.id ≠ id

def authenticateSocket (id : Nat) (sockets : List AcceptedSocket) : List AcceptedSocket :=
  sockets.map fun socket => if socket.id = id then { socket with connectedAt := none } else socket

/-- `scheduleAlarmAt` with a time that may be null. -/
def scheduleOptional (instant : Option Nat) : List AlarmSegment :=
  instant.toList.map .scheduleAlarmAt

def runSegment (state : AlarmState) : AlarmSegment → AlarmState × List AlarmSegment
  | .restore dropped => ({ state with sockets := closeSockets dropped state.sockets }, [.armEarliest])
  | .armEarliest => (state, scheduleOptional (earliestAuthDeadline (pendingAuthSockets state)))
  | .ensureAlarmScheduled => (state, if state.alarm = none then [.setInterval] else [])
  | .setInterval => ({ state with alarm := some (state.now + PRESENCE_ALARM_INTERVAL_MS) }, [])
  | .accept id outcome =>
    ({ state with sockets := state.sockets ++ [⟨id, some state.now, false⟩] },
      match outcome with
      | .joined => [.scheduleAlarmAt (authDeadlineFrom state.now)]
      | .abandoned => [.abandon id]
      | .resisted => [])
  | .abandon id => ({ state with sockets := closeSockets [id] state.sockets }, [])
  | .deliver _ .unchanged => (state, [])
  | .deliver id .authenticated => ({ state with sockets := authenticateSocket id state.sockets }, [])
  | .deliver id .closed => ({ state with sockets := closeSockets [id] state.sockets }, [])
  | .sweepRoom => (state, [])
  | .armLiveness =>
    (state, if state.sockets = [] then []
      else [.scheduleAlarmAt (state.now + PRESENCE_ALARM_INTERVAL_MS)])
  | .scheduleAlarmAt instant =>
    (state, if ∀ scheduled ∈ state.alarm, instant < scheduled then [.setAlarm instant] else [])
  | .setAlarm instant => ({ state with alarm := some instant }, [])

/-- `ensureRoom`: the sockets a restore drops where there is one, and the presence interval. -/
def ensureRoomSegments (host : RoomHost) (restores : Option (List Nat)) : List AlarmSegment :=
  restores.toList.map .restore ++
    match host with
    | .document => []
    | .presence => [.ensureAlarmScheduled]

/-- The rest of `alarm` after its sweep of the deadlines. -/
def alarmSegments (host : RoomHost) (room : Option (Option (List Nat))) (next : Option Nat) :
    List AlarmSegment :=
  match host with
  | .document => scheduleOptional next
  | .presence =>
    room.toList.flatMap (fun restores => ensureRoomSegments .presence restores ++ [.sweepRoom]) ++
      .armLiveness :: scheduleOptional next

abbrev AlarmWorld := Pool AlarmState AlarmSegment

/-- `resists` are the sockets whose close throws in the sweep; `room` is what the presence alarm
finds to restore, if it knows its room. -/
inductive AlarmAction where
  | elapse (duration : Nat)
  | upgrade (id : Nat) (restores : Option (List Nat)) (outcome : UpgradeOutcome)
  | message (id : Nat) (restores : Option (List Nat)) (outcome : MessageOutcome)
  | close (id : Nat)
  | fire (resists : List Nat) (room : Option (Option (List Nat)))
  | resume (place : Nat)
  deriving DecidableEq, Repr

namespace AlarmWorld

def start : AlarmWorld := ⟨⟨0, none, []⟩, []⟩

def sweep (world : AlarmWorld) : AuthDeadlineSweep :=
  planAuthDeadlineSweep (pendingAuthSockets world.state) world.state.now

def fire (host : RoomHost) (world : AlarmWorld) (resists : List Nat)
    (room : Option (Option (List Nat))) : AlarmWorld :=
  let closed := (world.sweep.expired.map (·.id)).filter fun id => id ∉ resists
  Pool.spawn ⟨{ world.state with alarm := none, sockets := closeSockets closed world.state.sockets },
    world.tasks⟩ (alarmSegments host room world.sweep.nextDeadline)

def step (host : RoomHost) (world : AlarmWorld) : AlarmAction → AlarmWorld
  | .elapse duration => { world with state := { world.state with now := world.state.now + duration } }
  | .upgrade id restores outcome =>
    world.spawn (ensureRoomSegments host restores ++ [.accept id outcome])
  | .message id restores outcome =>
    world.spawn (ensureRoomSegments host restores ++ [.deliver id outcome])
  | .close id =>
    { world with state := { world.state with sockets := removeSocket id world.state.sockets } }
  | .fire resists room =>
    match world.state.alarm with
    | none => world
    | some instant => if instant ≤ world.state.now then fire host world resists room else world
  | .resume place => Pool.resume runSegment world place

def run (host : RoomHost) (world : AlarmWorld) (actions : List AlarmAction) : AlarmWorld :=
  actions.foldl (step host) world

/-- A `setAlarm` that a read has decided on. -/
def isWrite : AlarmSegment → Bool
  | .setInterval | .setAlarm _ => true
  | _ => false

def isRead : AlarmSegment → Bool
  | .ensureAlarmScheduled | .scheduleAlarmAt _ => true
  | _ => false

/-- No close of the sweep or of a failed upgrade throws, and no call reads the alarm between the
read and the write of another. -/
def Meets (world : AlarmWorld) : AlarmAction → Prop
  | .upgrade _ _ outcome => outcome ≠ .resisted
  | .fire resists _ => ∀ socket ∈ world.sweep.expired, socket.id ∉ resists
  | .resume place => ∀ segment, world.next place = some segment → isRead segment = true →
      ∀ other ∈ world.pending, isWrite other = false
  | _ => True

def RunMeets (host : RoomHost) : AlarmWorld → List AlarmAction → Prop
  | _, [] => True
  | world, action :: actions => Meets world action ∧ RunMeets host (world.step host action) actions

end AlarmWorld

end Softmaple.CollabHost

namespace Softmaple.CollabHost

open TaskPool List

def dueBy (now : Nat) (entry : PendingAuthSocket) : Nat := max entry.deadline now

section Sockets

variable {sockets : List AcceptedSocket} {entry : PendingAuthSocket}

theorem mem_collect_closeSockets {ids : List Nat}
    (h : entry ∈ collectPendingAuthSockets (closeSockets ids sockets)) :
    entry ∈ collectPendingAuthSockets sockets ∧ entry.socket.id ∉ ids := by
  rw [mem_collectPendingAuthSockets] at h
  obtain ⟨hmem, hopen, hconnected⟩ := h
  obtain ⟨socket, hsocket, hclosed⟩ := mem_map.mp hmem
  split at hclosed
  · rw [← hclosed] at hopen
    cases hopen
  · next hid =>
      rw [← hclosed] at hopen hconnected ⊢
      refine ⟨?_, hid⟩
      rw [mem_collectPendingAuthSockets, ← hclosed]
      exact ⟨hsocket, hopen, hconnected⟩

theorem mem_collect_removeSocket {id : Nat}
    (h : entry ∈ collectPendingAuthSockets (removeSocket id sockets)) :
    entry ∈ collectPendingAuthSockets sockets := by
  rw [mem_collectPendingAuthSockets] at h ⊢
  exact ⟨mem_of_mem_filter h.1, h.2⟩

theorem mem_collect_authenticateSocket {id : Nat}
    (h : entry ∈ collectPendingAuthSockets (authenticateSocket id sockets)) :
    entry ∈ collectPendingAuthSockets sockets := by
  rw [mem_collectPendingAuthSockets] at h ⊢
  obtain ⟨hmem, hopen, connectedAt, hconnected, hdeadline⟩ := h
  obtain ⟨socket, hsocket, hauthenticated⟩ := mem_map.mp hmem
  split at hauthenticated
  · rw [← hauthenticated] at hconnected
    cases hconnected
  · rw [← hauthenticated] at hopen hconnected ⊢
    exact ⟨hsocket, hopen, connectedAt, hconnected, hdeadline⟩

theorem mem_collect_append {id connectedAt : Nat}
    (h : entry ∈ collectPendingAuthSockets (sockets ++ [⟨id, some connectedAt, false⟩])) :
    entry ∈ collectPendingAuthSockets sockets ∨
      entry = ⟨authDeadlineFrom connectedAt, ⟨id, some connectedAt, false⟩⟩ := by
  unfold collectPendingAuthSockets at h ⊢
  rw [filterMap_append, mem_append] at h
  cases h with
  | inl hold => exact .inl hold
  | inr hnew => exact .inr (mem_singleton.mp hnew)

end Sockets

namespace AlarmWorld

def Arms (segment : AlarmSegment) (instant : Nat) : Prop :=
  segment = .scheduleAlarmAt instant ∨ segment = .setAlarm instant

inductive Covered (state : AlarmState) (pending : List AlarmSegment) (entry : PendingAuthSocket) :
    Prop where
  | alarm {instant : Nat} (scheduled : state.alarm = some instant)
      (early : instant ≤ dueBy state.now entry)
  | segment {segment : AlarmSegment} {instant : Nat} (mem : segment ∈ pending)
      (arms : Arms segment instant) (early : instant ≤ dueBy state.now entry)
  | abandoned (mem : AlarmSegment.abandon entry.socket.id ∈ pending)

/-- A decided write never moves the alarm later, and no failed upgrade resists its close. -/
def Allowed (alarm : Option Nat) : AlarmSegment → Prop
  | .setInterval => alarm = none
  | .setAlarm instant => ∀ scheduled ∈ alarm, instant ≤ scheduled
  | .accept _ outcome => outcome ≠ .resisted
  | _ => True

structure Armed (state : AlarmState) (pending : List AlarmSegment) : Prop where
  covered : ∀ entry ∈ pendingAuthSockets state, Covered state pending entry
  writes : pending.countP isWrite ≤ 1
  allowed : ∀ segment ∈ pending, Allowed state.alarm segment

variable {state : AlarmState} {pending : List AlarmSegment}

variable {entry : PendingAuthSocket}

theorem Covered.mono {next : AlarmState} {later : List AlarmSegment}
    (h : Covered state pending entry)
    (halarm : next.alarm = state.alarm) (hnow : state.now ≤ next.now)
    (hpending : ∀ segment ∈ pending, segment ∈ later) : Covered next later entry := by
  have hdue : dueBy state.now entry ≤ dueBy next.now entry := max_le_max (Nat.le_refl _) hnow
  cases h with
  | alarm hscheduled hearly => exact .alarm (halarm.trans hscheduled) (Nat.le_trans hearly hdue)
  | segment hmem harms hearly =>
    exact .segment (hpending _ hmem) harms (Nat.le_trans hearly hdue)
  | abandoned hmem => exact .abandoned (hpending _ hmem)

variable {others : List AlarmSegment}

theorem Armed.of_perm (h : Armed state pending) (hperm : pending.Perm others) : Armed state others where
  covered := fun entry hentry =>
    (h.covered entry hentry).mono rfl (Nat.le_refl _) fun _ hmem => hperm.mem_iff.mp hmem
  writes := by
    rw [← hperm.countP_eq]
    exact h.writes
  allowed := fun segment hmem => h.allowed segment (hperm.mem_iff.mpr hmem)

variable {segment : AlarmSegment}

variable {alarm : Option Nat}

theorem Allowed.of_not_write {next : Option Nat}
    (h : Allowed alarm segment) (hwrite : isWrite segment = false) : Allowed next segment := by
  cases segment with
  | setInterval => cases hwrite
  | setAlarm instant => cases hwrite
  | accept id outcome => exact h
  | _ => trivial

theorem Covered.drop (h : Covered state (segment :: others) entry)
    (hquiet : ∀ instant, ¬Arms segment instant) (hkept : segment ≠ .abandon entry.socket.id) :
    Covered state others entry := by
  cases h with
  | alarm hscheduled hearly => exact .alarm hscheduled hearly
  | segment hmem harms hearly =>
    cases hmem with
    | head => exact absurd harms (hquiet _)
    | tail _ hothers => exact .segment hothers harms hearly
  | abandoned hmem =>
    cases hmem with
    | head => exact absurd rfl hkept
    | tail _ hothers => exact .abandoned hothers

theorem Armed.quiet {next : AlarmState} {more : List AlarmSegment} (h : Armed state (segment :: others))
    (hquiet : ∀ instant, ¬Arms segment instant) (hwrite : isWrite segment = false)
    (halarm : next.alarm = state.alarm) (hnow : next.now = state.now)
    (hsockets : ∀ entry ∈ pendingAuthSockets next,
      (entry ∈ pendingAuthSockets state ∧ segment ≠ .abandon entry.socket.id) ∨
        Covered next (more ++ others) entry)
    (hmore : ∀ added ∈ more, isWrite added = false ∧ Allowed next.alarm added) :
    Armed next (more ++ others) where
  covered := by
    intro entry hentry
    cases hsockets entry hentry with
    | inl hold =>
      have hcovered := (h.covered entry hold.1).drop hquiet hold.2
      exact hcovered.mono halarm (Nat.le_of_eq hnow.symm) fun _ hmem =>
        mem_append_right more hmem
    | inr hnew => exact hnew
  writes := by
    have hnone : more.countP isWrite = 0 := countP_eq_zero.mpr fun added hadded => by
      rw [(hmore added hadded).1]
      exact Bool.false_ne_true
    have hcount := h.writes
    rw [countP_cons, hwrite] at hcount
    rw [countP_append, hnone]
    simpa using hcount
  allowed := by
    intro added hadded
    cases mem_append.mp hadded with
    | inl hmem => exact (hmore added hmem).2
    | inr hmem =>
      rw [halarm]
      exact h.allowed added (mem_cons_of_mem _ hmem)

theorem not_write_of_count
    (hcount : (segment :: others).countP isWrite ≤ 1) (hwrite : isWrite segment = true) :
    ∀ other ∈ others, isWrite other = false := by
  rw [countP_cons, if_pos hwrite] at hcount
  have hzero : others.countP isWrite = 0 := by omega
  intro other hother
  exact Bool.eq_false_iff.mpr (countP_eq_zero.mp hzero other hother)

variable {instant : Nat}

theorem Armed.write (h : Armed state (segment :: others)) (hwrite : isWrite segment = true)
    (hearlier : ∀ scheduled ∈ state.alarm, instant ≤ scheduled)
    (harms : ∀ armed, Arms segment armed → armed = instant)
    (hkept : ∀ id, segment ≠ .abandon id) : Armed { state with alarm := some instant } others where
  covered := by
    intro entry hentry
    cases h.covered entry hentry with
    | alarm hscheduled hearly =>
      exact .alarm rfl (Nat.le_trans (hearlier _ hscheduled) hearly)
    | segment hmem hsegment hearly =>
      cases hmem with
      | head =>
        rw [harms _ hsegment] at hearly
        exact .alarm rfl hearly
      | tail _ hothers => exact .segment hothers hsegment hearly
    | abandoned hmem =>
      cases hmem with
      | head => exact absurd rfl (hkept _)
      | tail _ hothers => exact .abandoned hothers
  writes := by
    have hcount := h.writes
    rw [countP_cons, if_pos hwrite] at hcount
    omega
  allowed := fun other hother =>
    (h.allowed other (mem_cons_of_mem _ hother)).of_not_write
      (not_write_of_count h.writes hwrite other hother)

theorem Armed.decide {write : AlarmSegment} (h : Armed state (segment :: others))
    (hothers : ∀ other ∈ others, isWrite other = false)
    (harms : ∀ instant, Arms segment instant → Arms write instant)
    (hkept : ∀ id, segment ≠ .abandon id) (hallowed : Allowed state.alarm write) :
    Armed state (write :: others) where
  covered := by
    intro entry hentry
    cases h.covered entry hentry with
    | alarm hscheduled hearly => exact .alarm hscheduled hearly
    | segment hmem hsegment hearly =>
      cases hmem with
      | head => exact .segment mem_cons_self (harms _ hsegment) hearly
      | tail _ hmore => exact .segment (mem_cons_of_mem _ hmore) hsegment hearly
    | abandoned hmem =>
      cases hmem with
      | head => exact absurd rfl (hkept _)
      | tail _ hmore => exact .abandoned (mem_cons_of_mem _ hmore)
  writes := by
    have hzero : others.countP isWrite = 0 := countP_eq_zero.mpr fun other hother => by
      rw [hothers other hother]
      exact Bool.false_ne_true
    rw [countP_cons, hzero]
    split
    · exact Nat.le_refl 1
    · exact Nat.zero_le 1
  allowed := by
    intro other hother
    cases hother with
    | head => exact hallowed
    | tail _ hmem => exact h.allowed other (mem_cons_of_mem _ hmem)

theorem arms_scheduleAlarmAt {armed : Nat} (h : Arms (.scheduleAlarmAt instant) armed) :
    armed = instant := by
  cases h with
  | inl heq => cases heq; rfl
  | inr heq => cases heq

theorem arms_setAlarm {armed : Nat} (h : Arms (.setAlarm instant) armed) :
    armed = instant := by
  cases h with
  | inl heq => cases heq
  | inr heq => cases heq; rfl

theorem mem_scheduleOptional {instant : Option Nat}
    (h : segment ∈ scheduleOptional instant) : isWrite segment = false ∧ Allowed alarm segment := by
  obtain ⟨value, -, rfl⟩ := mem_map.mp h
  exact ⟨rfl, trivial⟩

theorem covered_scheduleEarliest {earliest : Option Nat}
    (h : ∃ instant, earliest = some instant ∧ instant ≤ entry.deadline)
    (hpending : ∀ segment ∈ scheduleOptional earliest, segment ∈ pending) :
    Covered state pending entry := by
  obtain ⟨instant, hinstant, hle⟩ := h
  refine .segment (hpending (.scheduleAlarmAt instant) ?_) (.inl rfl)
    (Nat.le_trans hle (Nat.le_max_left _ _))
  rw [hinstant]
  exact mem_singleton.mpr rfl

theorem armed_scheduleAlarmAt (h : Armed state (.scheduleAlarmAt instant :: others))
    (hothers : ∀ other ∈ others, isWrite other = false) :
    Armed (runSegment state (.scheduleAlarmAt instant)).1
      ((runSegment state (.scheduleAlarmAt instant)).2 ++ others) := by
  dsimp only [runSegment]
  split
  · next hlater =>
      refine h.decide hothers ?_ (fun id heq => by cases heq) ?_
      · intro armed harms
        rw [arms_scheduleAlarmAt harms]
        exact .inr rfl
      · intro scheduled hscheduled
        exact Nat.le_of_lt (hlater scheduled hscheduled)
  · next hlater =>
      -- the alarm is set for this instant or before, so the alarm covers what the segment did
      obtain ⟨scheduled, hscheduled, hle⟩ : ∃ scheduled, state.alarm = some scheduled ∧
          scheduled ≤ instant := by
        cases halarm : state.alarm with
        | none =>
          rw [halarm] at hlater
          exact absurd (fun _ hmem => by cases hmem) hlater
        | some scheduled =>
          refine ⟨scheduled, rfl, Nat.le_of_not_lt fun hlt => hlater ?_⟩
          rw [halarm]
          intro other hother
          cases hother
          exact hlt
      refine ⟨?_, ?_, fun other hother => h.allowed other (mem_cons_of_mem _ hother)⟩
      · intro entry hentry
        cases h.covered entry hentry with
        | alarm hset hearly => exact .alarm hset hearly
        | segment hmem harms hearly =>
          cases hmem with
          | head =>
            rw [arms_scheduleAlarmAt harms] at hearly
            exact .alarm hscheduled (Nat.le_trans hle hearly)
          | tail _ hmore => exact .segment hmore harms hearly
        | abandoned hmem =>
          cases hmem with
          | tail _ hmore => exact .abandoned hmore
      · exact Nat.le_trans (countP_eq_zero.mpr fun other hother => by
          rw [hothers other hother]
          exact Bool.false_ne_true).le (Nat.zero_le 1)

theorem armed_runSegment (h : Armed state (segment :: others))
    (hmeets : isRead segment = true → ∀ other ∈ others, isWrite other = false) :
    Armed (runSegment state segment).1 ((runSegment state segment).2 ++ others) := by
  cases segment with
  | restore dropped =>
    refine h.quiet ?_ rfl rfl rfl ?_ ?_
    · rintro instant (heq | heq) <;> cases heq
    · intro entry hentry
      exact .inl ⟨(mem_collect_closeSockets hentry).1, fun heq => by cases heq⟩
    · intro added hadded
      rw [mem_singleton.mp hadded]
      exact ⟨rfl, trivial⟩
  | armEarliest =>
    refine h.quiet ?_ rfl rfl rfl ?_ fun added hadded => mem_scheduleOptional hadded
    · rintro instant (heq | heq) <;> cases heq
    · intro entry hentry
      exact .inr (covered_scheduleEarliest (earliestAuthDeadline_le hentry) fun _ hmem =>
        mem_append_left others hmem)
  | ensureAlarmScheduled =>
    dsimp only [runSegment]
    split
    · next halarm =>
        refine h.decide (hmeets rfl) ?_ (fun id heq => by cases heq) halarm
        rintro instant (heq | heq) <;> cases heq
    · refine h.quiet ?_ rfl rfl rfl ?_ fun added hadded => by cases hadded
      · rintro instant (heq | heq) <;> cases heq
      · intro entry hentry
        exact .inl ⟨hentry, fun heq => by cases heq⟩
  | setInterval =>
    have hunset := h.allowed .setInterval mem_cons_self
    refine h.write rfl ?_ ?_ fun id heq => by cases heq
    · intro scheduled hscheduled
      rw [hunset] at hscheduled
      cases hscheduled
    · rintro armed (heq | heq) <;> cases heq
  | accept id outcome =>
    have haccepted := h.allowed (.accept id outcome) mem_cons_self
    refine h.quiet ?_ rfl rfl rfl ?_ ?_
    · rintro instant (heq | heq) <;> cases heq
    · intro entry hentry
      cases mem_collect_append hentry with
      | inl hold => exact .inl ⟨hold, fun heq => by cases heq⟩
      | inr hnew =>
        right
        cases outcome with
        | joined =>
          refine .segment (mem_cons_self) (.inl rfl) ?_
          rw [hnew]
          exact Nat.le_max_left _ _
        | abandoned =>
          refine .abandoned ?_
          rw [hnew]
          exact mem_cons_self
        | resisted => exact absurd rfl haccepted
    · intro added hadded
      cases outcome with
      | joined =>
        rw [mem_singleton.mp hadded]
        exact ⟨rfl, trivial⟩
      | abandoned =>
        rw [mem_singleton.mp hadded]
        exact ⟨rfl, trivial⟩
      | resisted => cases hadded
  | abandon id =>
    refine h.quiet ?_ rfl rfl rfl ?_ fun added hadded => by cases hadded
    · rintro instant (heq | heq) <;> cases heq
    · intro entry hentry
      obtain ⟨hmem, hkept⟩ := mem_collect_closeSockets hentry
      refine .inl ⟨hmem, fun heq => hkept ?_⟩
      cases heq
      exact mem_cons_self
  | deliver id outcome =>
    refine h.quiet ?_ (by rfl) ?_ ?_ ?_ ?_
    · rintro instant (heq | heq) <;> cases heq
    · cases outcome <;> rfl
    · cases outcome <;> rfl
    · intro entry hentry
      refine .inl ⟨?_, fun heq => by cases heq⟩
      cases outcome with
      | unchanged => exact hentry
      | authenticated => exact mem_collect_authenticateSocket hentry
      | closed => exact (mem_collect_closeSockets hentry).1
    · intro added hadded
      cases outcome <;> cases hadded
  | sweepRoom =>
    refine h.quiet ?_ rfl rfl rfl ?_ fun added hadded => by cases hadded
    · rintro instant (heq | heq) <;> cases heq
    · intro entry hentry
      exact .inl ⟨hentry, fun heq => by cases heq⟩
  | armLiveness =>
    refine h.quiet ?_ rfl rfl rfl ?_ ?_
    · rintro instant (heq | heq) <;> cases heq
    · intro entry hentry
      exact .inl ⟨hentry, fun heq => by cases heq⟩
    · intro added hadded
      dsimp only [runSegment] at hadded
      split at hadded
      · cases hadded
      · rw [mem_singleton.mp hadded]
        exact ⟨rfl, trivial⟩
  | scheduleAlarmAt instant => exact armed_scheduleAlarmAt h (hmeets rfl)
  | setAlarm instant =>
    have hearlier := h.allowed (.setAlarm instant) mem_cons_self
    exact h.write rfl hearlier (fun armed => arms_setAlarm) fun id heq => by cases heq

theorem Armed.grow {next : AlarmState} {more : List AlarmSegment}
    (h : Armed state pending) (halarm : next.alarm = state.alarm) (hnow : state.now ≤ next.now)
    (hsockets : ∀ entry ∈ pendingAuthSockets next, entry ∈ pendingAuthSockets state)
    (hmore : ∀ added ∈ more, isWrite added = false ∧ Allowed next.alarm added) :
    Armed next (pending ++ more) where
  covered := fun entry hentry =>
    (h.covered entry (hsockets entry hentry)).mono halarm hnow fun _ hmem =>
      mem_append_left more hmem
  writes := by
    have hnone : more.countP isWrite = 0 := countP_eq_zero.mpr fun added hadded => by
      rw [(hmore added hadded).1]
      exact Bool.false_ne_true
    rw [countP_append, hnone]
    exact h.writes
  allowed := by
    intro added hadded
    cases mem_append.mp hadded with
    | inl hmem =>
      rw [halarm]
      exact h.allowed added hmem
    | inr hmem => exact (hmore added hmem).2

variable {host : RoomHost}

theorem mem_ensureRoomSegments {restores : Option (List Nat)}
    (h : segment ∈ ensureRoomSegments host restores) :
    isWrite segment = false ∧ Allowed alarm segment := by
  cases mem_append.mp h with
  | inl hrestore =>
    obtain ⟨dropped, -, rfl⟩ := mem_map.mp hrestore
    exact ⟨rfl, trivial⟩
  | inr hinterval =>
    cases host with
    | document => cases hinterval
    | presence =>
      rw [mem_singleton.mp hinterval]
      exact ⟨rfl, trivial⟩

theorem mem_alarmSegments {room : Option (Option (List Nat))}
    {next : Option Nat} (h : segment ∈ alarmSegments host room next) :
    isWrite segment = false ∧ Allowed alarm segment := by
  cases host with
  | document => exact mem_scheduleOptional h
  | presence =>
    cases mem_append.mp h with
    | inl hroom =>
      obtain ⟨restores, -, hmem⟩ := mem_flatMap.mp hroom
      cases mem_append.mp hmem with
      | inl hensure => exact mem_ensureRoomSegments hensure
      | inr hsweep =>
        rw [mem_singleton.mp hsweep]
        exact ⟨rfl, trivial⟩
    | inr hrest =>
      cases hrest with
      | head => exact ⟨rfl, trivial⟩
      | tail _ hnext => exact mem_scheduleOptional hnext

theorem scheduleOptional_subset {room : Option (Option (List Nat))}
    {next : Option Nat} (h : segment ∈ scheduleOptional next) :
    segment ∈ alarmSegments host room next := by
  cases host with
  | document => exact h
  | presence => exact mem_append_right _ (mem_cons_of_mem _ h)

variable {world : AlarmWorld}

section

variable (h : Armed world.state world.pending)
include h

theorem armed_fire {resists : List Nat} {room : Option (Option (List Nat))}
    (hmeets : ∀ socket ∈ world.sweep.expired, socket.id ∉ resists) :
    Armed (fire host world resists room).state (fire host world resists room).pending := by
  unfold fire
  rw [Pool.state_spawn, Pool.pending_spawn]
  refine ⟨?_, ?_, ?_⟩
  · intro entry hentry
    obtain ⟨hmem, hopen⟩ := mem_collect_closeSockets hentry
    have hlater : world.state.now < entry.deadline := by
      refine Nat.lt_of_not_le fun hexpired => hopen ?_
      have hsocket := mem_expired hmem hexpired
      exact mem_filter.mpr
        ⟨mem_map_of_mem hsocket, decide_eq_true (hmeets entry.socket hsocket)⟩
    have hnext := nextDeadline_le hmem hlater
    exact covered_scheduleEarliest hnext fun _ hsegment =>
      mem_append_right _ (scheduleOptional_subset hsegment)
  · have hnone : (alarmSegments host room world.sweep.nextDeadline).countP isWrite = 0 :=
      countP_eq_zero.mpr fun added hadded => by
        have hquiet : isWrite added = false ∧ Allowed none added := mem_alarmSegments hadded
        rw [hquiet.1]
        exact Bool.false_ne_true
    rw [countP_append, hnone]
    exact h.writes
  · intro segment hsegment
    cases mem_append.mp hsegment with
    | inr hadded => exact (mem_alarmSegments hadded).2
    | inl hmem =>
      have hallowed := h.allowed segment hmem
      cases segment with
      | setInterval => rfl
      | setAlarm instant =>
        intro scheduled hscheduled
        cases hscheduled
      | accept id outcome => exact hallowed
      | _ => trivial

theorem armed_spawn {task : List AlarmSegment}
    (htask : ∀ added ∈ task, isWrite added = false ∧ Allowed world.state.alarm added) :
    Armed (world.spawn task).state (world.spawn task).pending := by
  rw [Pool.state_spawn, Pool.pending_spawn]
  exact h.grow rfl (Nat.le_refl _) (fun _ hmem => hmem) htask

theorem armed_step {action : AlarmAction} (hmeets : Meets world action) :
    Armed (world.step host action).state (world.step host action).pending := by
  cases action with
  | elapse duration =>
    have hgrown : Armed { world.state with now := world.state.now + duration }
        (world.pending ++ []) :=
      h.grow rfl (Nat.le_add_right _ _) (fun _ hmem => hmem) fun _ hadded => by cases hadded
    rw [append_nil] at hgrown
    exact hgrown
  | upgrade id restores outcome =>
    refine armed_spawn h fun added hadded => ?_
    cases mem_append.mp hadded with
    | inl hensure => exact mem_ensureRoomSegments hensure
    | inr haccept =>
      rw [mem_singleton.mp haccept]
      exact ⟨rfl, hmeets⟩
  | message id restores outcome =>
    refine armed_spawn h fun added hadded => ?_
    cases mem_append.mp hadded with
    | inl hensure => exact mem_ensureRoomSegments hensure
    | inr hdeliver =>
      rw [mem_singleton.mp hdeliver]
      exact ⟨rfl, trivial⟩
  | close id =>
    have hgrown : Armed { world.state with sockets := removeSocket id world.state.sockets }
        (world.pending ++ []) :=
      h.grow rfl (Nat.le_refl _) (fun _ hmem => mem_collect_removeSocket hmem)
        fun _ hadded => by cases hadded
    rw [append_nil] at hgrown
    exact hgrown
  | fire resists room =>
    dsimp only [step]
    split
    · exact h
    · split
      · exact armed_fire h hmeets
      · exact h
  | resume place =>
    change Armed (Pool.resume runSegment world place).state (Pool.resume runSegment world place).pending
    cases hnext : world.next place with
    | none =>
      rw [Pool.resume_of_next_none hnext]
      exact h
    | some segment =>
      obtain ⟨others, hbefore, hafter⟩ : ∃ others,
          world.pending.Perm (segment :: others) ∧ (Pool.resume runSegment world place).pending.Perm
            ((runSegment world.state segment).2 ++ others) := Pool.pending_resume hnext
      rw [Pool.state_resume hnext]
      refine (armed_runSegment (h.of_perm hbefore) ?_).of_perm hafter.symm
      intro hread other hother
      exact hmeets segment hnext hread other (hbefore.mem_iff.mpr (mem_cons_of_mem _ hother))

omit h in
theorem armed_start : Armed start.state start.pending where
  covered := fun entry hentry => by cases hentry
  writes := Nat.zero_le 1
  allowed := fun segment hmem => by cases hmem

theorem armed_run {actions : List AlarmAction} (hmeets : RunMeets host world actions) :
    Armed (world.run host actions).state (world.run host actions).pending := by
  induction actions generalizing world with
  | nil => exact h
  | cons action actions ih => exact ih (armed_step h hmeets.1) hmeets.2

end

/-- The object has its alarm set for every open socket that awaits its `Auth`. -/
def DeadlineArmed (state : AlarmState) : Prop :=
  ∀ entry ∈ pendingAuthSockets state, ∃ instant, state.alarm = some instant ∧
    instant ≤ dueBy state.now entry

def NeverLater (before after : Option Nat) : Prop :=
  ∀ scheduled ∈ before, ∀ replaced ∈ after, replaced ≤ scheduled

theorem Armed.deadlineArmed (h : Armed state []) : DeadlineArmed state := by
  intro entry hentry
  cases h.covered entry hentry with
  | alarm hscheduled hearly => exact ⟨_, hscheduled, hearly⟩
  | segment hmem => cases hmem
  | abandoned hmem => cases hmem

theorem neverLater_refl (alarm : Option Nat) : NeverLater alarm alarm := by
  intro scheduled hscheduled replaced hreplaced
  rw [hscheduled] at hreplaced
  cases hreplaced
  exact Nat.le_refl _

theorem neverLater_runSegment
    (h : Allowed state.alarm segment) : NeverLater state.alarm (runSegment state segment).1.alarm := by
  cases segment with
  | setInterval =>
    intro scheduled hscheduled
    have hunset : state.alarm = none := h
    rw [hunset] at hscheduled
    cases hscheduled
  | setAlarm instant =>
    intro scheduled hscheduled replaced hreplaced
    cases hreplaced
    exact h scheduled hscheduled
  | deliver id outcome => cases outcome <;> exact neverLater_refl state.alarm
  | _ => exact neverLater_refl state.alarm

theorem neverLater_step (action : AlarmAction) (h : Armed world.state world.pending) :
    NeverLater world.state.alarm (world.step host action).state.alarm := by
  cases action with
  | fire resists room =>
    dsimp only [step]
    split
    · exact neverLater_refl _
    · split
      · intro scheduled hscheduled replaced hreplaced
        cases hreplaced
      · exact neverLater_refl _
  | resume place =>
    change NeverLater world.state.alarm (Pool.resume runSegment world place).state.alarm
    cases hnext : world.next place with
    | none =>
      rw [Pool.resume_of_next_none hnext]
      exact neverLater_refl _
    | some segment =>
      rw [Pool.state_resume hnext]
      exact neverLater_runSegment (h.allowed segment (Pool.next_mem hnext))
  | _ => exact neverLater_refl _

/-- One upgrade of a document room, run to its end. -/
def firstUpgrade : List AlarmAction :=
  [.upgrade 0 none .joined, .resume 0, .resume 0, .resume 0]

end AlarmWorld

end Softmaple.CollabHost
