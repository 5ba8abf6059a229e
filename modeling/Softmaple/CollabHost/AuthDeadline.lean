import Mathlib.Data.List.Basic
import Mathlib.Order.MinMax

/-!
The authentication deadline of an accepted socket
(`collab-cloudflare/src/auth-deadline.ts`).
-/
namespace Softmaple.CollabHost

def INITIAL_AUTH_TIMEOUT_MS : Nat := 10000

/-- A socket of the object: when it was accepted, as long as its attachment awaits an `Auth`, and
whether it is closing. -/
structure AcceptedSocket where
  id : Nat
  connectedAt : Option Nat
  closing : Bool
  deriving DecidableEq, Repr

structure PendingAuthSocket where
  deadline : Nat
  socket : AcceptedSocket
  deriving DecidableEq, Repr

structure AuthDeadlineSweep where
  expired : List AcceptedSocket
  nextDeadline : Option Nat
  deriving DecidableEq, Repr

def authDeadlineFrom (connectedAt : Nat) : Nat := connectedAt + INITIAL_AUTH_TIMEOUT_MS

def pendingAuth (socket : AcceptedSocket) : Option PendingAuthSocket :=
  if socket.closing then none
  else socket.connectedAt.map fun connectedAt => ⟨authDeadlineFrom connectedAt, socket⟩

def collectPendingAuthSockets (sockets : List AcceptedSocket) : List PendingAuthSocket :=
  sockets.filterMap pendingAuth

def earliestAuthDeadline (pending : List PendingAuthSocket) : Option Nat :=
  pending.foldl (fun earliest entry => some (earliest.elim entry.deadline (min · entry.deadline))) none

def planAuthDeadlineSweep (pending : List PendingAuthSocket) (now : Nat) : AuthDeadlineSweep where
  expired := (pending.filter fun entry => entry.deadline ≤ now).map (·.socket)
  nextDeadline := earliestAuthDeadline (pending.filter fun entry => now < entry.deadline)

variable {entry : PendingAuthSocket}

theorem mem_collectPendingAuthSockets {sockets : List AcceptedSocket} :
    entry ∈ collectPendingAuthSockets sockets ↔
      entry.socket ∈ sockets ∧ entry.socket.closing = false ∧
        ∃ connectedAt, entry.socket.connectedAt = some connectedAt ∧
          entry.deadline = authDeadlineFrom connectedAt := by
  unfold collectPendingAuthSockets
  rw [List.mem_filterMap]
  constructor
  · rintro ⟨socket, hmem, hpending⟩
    unfold pendingAuth at hpending
    split at hpending
    · cases hpending
    · next hopen =>
        obtain ⟨connectedAt, hconnected, rfl⟩ := Option.map_eq_some_iff.mp hpending
        exact ⟨hmem, Bool.eq_false_iff.mpr hopen, connectedAt, hconnected, rfl⟩
  · rintro ⟨hmem, hopen, connectedAt, hconnected, hdeadline⟩
    refine ⟨entry.socket, hmem, ?_⟩
    unfold pendingAuth
    rw [hopen, if_neg Bool.false_ne_true, hconnected, Option.map_some, ← hdeadline]

variable {pending : List PendingAuthSocket}

theorem earliestAuthDeadline_le (h : entry ∈ pending) :
    ∃ earliest, earliestAuthDeadline pending = some earliest ∧ earliest ≤ entry.deadline := by
  have hfold : ∀ (rest : List PendingAuthSocket) (start : Option Nat),
      (∀ bound ∈ start, ∃ earliest, rest.foldl (fun earliest entry =>
        some (earliest.elim entry.deadline (min · entry.deadline))) start = some earliest ∧
          earliest ≤ bound) ∧
      ∀ later ∈ rest, ∃ earliest, rest.foldl (fun earliest entry =>
        some (earliest.elim entry.deadline (min · entry.deadline))) start = some earliest ∧
          earliest ≤ later.deadline := by
    intro rest
    induction rest with
    | nil =>
      intro start
      constructor
      · intro bound hbound
        exact ⟨bound, hbound, Nat.le_refl bound⟩
      · intro later hlater
        cases hlater
    | cons head rest ih =>
      intro start
      obtain ⟨hstart, hrest⟩ := ih (some (start.elim head.deadline (min · head.deadline)))
      obtain ⟨earliest, hearliest, hle⟩ := hstart _ rfl
      rw [List.foldl_cons]
      constructor
      · intro bound hbound
        refine ⟨earliest, hearliest, Nat.le_trans hle ?_⟩
        rw [hbound]
        exact min_le_left bound head.deadline
      · intro later hlater
        cases hlater with
        | head =>
          refine ⟨earliest, hearliest, Nat.le_trans hle ?_⟩
          cases start with
          | none => exact Nat.le_refl _
          | some bound => exact min_le_right bound head.deadline
        | tail _ hmem => exact hrest later hmem
  exact (hfold pending none).2 entry h

theorem mem_expired {now : Nat} (h : entry ∈ pending) (hnow : entry.deadline ≤ now) :
    entry.socket ∈ (planAuthDeadlineSweep pending now).expired :=
  List.mem_map_of_mem (List.mem_filter.mpr ⟨h, decide_eq_true hnow⟩)

theorem nextDeadline_le {now : Nat} (h : entry ∈ pending) (hnow : now < entry.deadline) :
    ∃ next, (planAuthDeadlineSweep pending now).nextDeadline = some next ∧ next ≤ entry.deadline :=
  earliestAuthDeadline_le (List.mem_filter.mpr ⟨h, decide_eq_true hnow⟩)

end Softmaple.CollabHost
