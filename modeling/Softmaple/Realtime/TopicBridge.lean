import Mathlib.Data.List.Basic

/-!
One channel of a `TopicBridge` over `RedisRealtimeBus`, held by any number of
presence fan-out subscriptions. The subscriber connection is two queues: the
commands Redis has not taken yet, and what it has answered or pushed and has not
arrived yet. A call that awaits something is a phase of its holder.
-/
namespace Softmaple.Realtime

inductive Command where
  | subscribe
  | unsubscribe (holder : Nat)
  deriving DecidableEq

/-- A message carries its decoded payload, none where `decodePayload` gives null. -/
inductive Reply (δ : Type) where
  | subscribed (succeeded : Bool)
  | unsubscribed (holder : Nat)
  | message (payload : Option δ)

inductive Phase where
  /-- `subscribe` of the bus awaits the pending SUBSCRIBE. -/
  | subscribing
  /-- The pending SUBSCRIBE is settled and `subscribe` has not gone on. -/
  | answered (succeeded : Bool)
  /-- `subscribe` is settled and `retain` has not gone on. -/
  | returned (succeeded : Bool)
  | held
  /-- `release` awaits the UNSUBSCRIBE. -/
  | releasing
  | gone
  deriving DecidableEq

/-- The fan-out's peer stays in the hub from before `retain` until it fails or is released. -/
def Phase.listens : Phase → Bool
  | releasing | gone => false
  | _ => true

structure Holder (δ : Type) where
  phase : Phase
  /-- How many messages were published when its `retain` resolved. -/
  since : Nat
  received : List δ

structure Topic (δ : Type) where
  refCount : Option Nat
  /-- The handler that the stored unsubscriber takes out. -/
  unsubscriber : Option Nat
  /-- The bus's handlers, named by the holder whose `retain` made them. -/
  handlers : List Nat
  pendingSubscribe : Bool
  commands : List Command
  replies : List (Reply δ)
  subscribed : Bool
  published : List (Option δ)
  holders : List (Holder δ)

namespace Topic

variable {δ : Type}

def empty : Topic δ := ⟨none, none, [], false, [], [], false, [], []⟩

def setPhase (topic : Topic δ) (holder : Nat) (phase : Phase) : Topic δ :=
  { topic with holders := topic.holders.modify holder fun old => { old with phase := phase } }

def publishLocal (payload : δ) (holders : List (Holder δ)) : List (Holder δ) :=
  holders.map fun holder =>
    if holder.phase.listens then { holder with received := holder.received ++ [payload] } else holder

/-- `RedisRealtimeBus.dispatch`, each handler being the bridge's `publishLocal`. -/
def dispatch (topic : Topic δ) : Option δ → Topic δ
  | none => topic
  | some payload =>
    { topic with
      holders := topic.handlers.foldl (fun holders _ => publishLocal payload holders) topic.holders }

/-- `RedisRealtimeBus.subscribe` up to its `await`, for a new holder. -/
def subscribe (topic : Topic δ) : Topic δ :=
  let shouldSubscribe := topic.handlers.isEmpty
  let pending := shouldSubscribe || topic.pendingSubscribe
  { topic with
    handlers := topic.handlers ++ [topic.holders.length]
    commands := if shouldSubscribe then topic.commands ++ [.subscribe] else topic.commands
    pendingSubscribe := pending
    holders := topic.holders ++ [⟨if pending then .subscribing else .returned true, 0, []⟩] }

/-- `RedisRealtimeBus.subscribe` after its `await`. -/
def returnSubscribe (topic : Topic δ) (holder : Nat) : Bool → Topic δ
  | true => topic.setPhase holder (.returned true)
  | false =>
    { topic with handlers := topic.handlers.erase holder }.setPhase holder (.returned false)

/-- The function that `RedisRealtimeBus.subscribe` returns, called by a holder's `release`. -/
def unsubscribe (topic : Topic δ) (handler holder : Nat) : Topic δ :=
  if topic.handlers = [] then topic.setPhase holder .gone
  else if topic.handlers.erase handler = [] then
    { topic with handlers := [], commands := topic.commands ++ [Command.unsubscribe holder] }.setPhase
      holder .releasing
  else { topic with handlers := topic.handlers.erase handler }.setPhase holder .gone

/-- `TopicBridge.retain` by a new holder, up to its `await`. -/
def retain (topic : Topic δ) : Topic δ :=
  let current := topic.refCount.getD 0
  let counted := { topic with refCount := some (current + 1) }
  if current > 0 then
    { counted with holders := topic.holders ++ [⟨.held, topic.published.length, []⟩] }
  else counted.subscribe

/-- `TopicBridge.retain` once the bus's `subscribe` is settled. -/
def returnRetain (topic : Topic δ) (holder : Nat) : Bool → Topic δ
  | true =>
    { topic with
      unsubscriber := some holder
      holders := topic.holders.modify holder fun old =>
        { old with phase := .held, since := topic.published.length } }
  | false =>
    let next := topic.refCount.getD 1
    { topic with refCount := if next ≤ 1 then none else some (next - 1) }.setPhase holder .gone

/-- `TopicBridge.release` by a holder. -/
def release (topic : Topic δ) (holder : Nat) : Topic δ :=
  let current := topic.refCount.getD 0
  if current ≤ 1 then
    let cleared := { topic with refCount := none, unsubscriber := none }
    match topic.unsubscriber with
    | some handler => cleared.unsubscribe handler holder
    | none => cleared.setPhase holder .gone
  else { topic with refCount := some (current - 1) }.setPhase holder .gone

/-- Redis takes a command; `succeeds` is about a SUBSCRIBE. -/
def take (topic : Topic δ) (succeeds : Bool) : Command → Topic δ
  | .subscribe =>
    { topic with
      subscribed := topic.subscribed || succeeds
      replies := topic.replies ++ [.subscribed succeeds] }
  | .unsubscribe holder =>
    { topic with subscribed := false, replies := topic.replies ++ [.unsubscribed holder] }

/-- The `finally` of the pending SUBSCRIBE runs before its awaiting callers. -/
def arrive (topic : Topic δ) : Reply δ → Topic δ
  | .message payload => topic.dispatch payload
  | .unsubscribed holder => topic.setPhase holder .gone
  | .subscribed succeeded =>
    { topic with
      pendingSubscribe := false
      holders := topic.holders.map fun holder =>
        if holder.phase = .subscribing then { holder with phase := .answered succeeded }
        else holder }

def publish (topic : Topic δ) (payload : Option δ) : Topic δ :=
  { topic with
    published := topic.published ++ [payload]
    replies := if topic.subscribed then topic.replies ++ [.message payload] else topic.replies }

inductive Action (δ : Type) where
  | retain
  | release (holder : Nat)
  | take (succeeds : Bool)
  | arrive
  | publish (payload : Option δ)
  | returnSubscribe (holder : Nat)
  | returnRetain (holder : Nat)

def act (topic : Topic δ) : Action δ → Option (Topic δ)
  | .retain => some topic.retain
  | .publish payload => some (topic.publish payload)
  | .take succeeds =>
    match topic.commands with
    | [] => none
    | command :: commands => some ({ topic with commands := commands }.take succeeds command)
  | .arrive =>
    match topic.replies with
    | [] => none
    | reply :: replies => some ({ topic with replies := replies }.arrive reply)
  | .release holder =>
    match topic.holders[holder]?.map Holder.phase with
    | some .held => some (topic.release holder)
    | _ => none
  | .returnSubscribe holder =>
    match topic.holders[holder]?.map Holder.phase with
    | some (.answered succeeded) => some (topic.returnSubscribe holder succeeded)
    | _ => none
  | .returnRetain holder =>
    match topic.holders[holder]?.map Holder.phase with
    | some (.returned succeeded) => some (topic.returnRetain holder succeeded)
    | _ => none

/-- A run from the channel nobody holds, each step of which is admitted. -/
inductive TopicRun (admits : Topic δ → Action δ → Prop) : Topic δ → Prop where
  | start : TopicRun admits empty
  | step {topic next : Topic δ} {action : Action δ} (run : TopicRun admits topic)
      (admitted : admits topic action) (stepped : topic.act action = some next) :
      TopicRun admits next

def heldCount (holders : List (Holder δ)) : Nat := holders.countP (·.phase = .held)

def message? : Reply δ → Option (Option δ)
  | .message payload => some payload
  | _ => none

/-- What was published since a held holder's `retain` resolved has reached it or is on the way. -/
def Serves (topic : Topic δ) : Prop :=
  ∀ holder ∈ topic.holders, holder.phase = .held → List.Subperm (topic.published.drop holder.since)
      (holder.received.map some ++ topic.replies.filterMap message?)

/-- No `retain` and no `release` is pending. -/
def Settled (topic : Topic δ) : Prop :=
  ∀ holder ∈ topic.holders, holder.phase = .held ∨ holder.phase = .gone

/-- One handler and a subscription while somebody holds the channel, neither otherwise. -/
def Balanced (topic : Topic δ) : Prop :=
  if 0 < heldCount topic.holders then topic.handlers.length = 1 ∧ topic.subscribed = true
  else topic.handlers = [] ∧ topic.subscribed = false

end Topic
end Softmaple.Realtime
