import Mathlib.Data.List.Perm.Subperm
import Softmaple.Realtime.TopicBridge

/-!
A channel serves its holders as long as `retain` finds a positive count only
once Redis has taken the first holder's SUBSCRIBE. The calls on the channel then
go through the stages of one subscription after another.
-/
namespace Softmaple.Realtime.Topic

open List

variable {δ : Type} {topic next : Topic δ}

/-- A `retain` that skips the SUBSCRIBE finds it taken, and no null goes to a holder. -/
def Admits (topic : Topic δ) : Action δ → Prop
  | .retain => 0 < topic.refCount.getD 0 → topic.commands = [] ∧ topic.subscribed = true
  | .publish none => heldCount topic.holders = 0
  | _ => True

/-- How far the latest subscription of the channel is. -/
inductive Stage where
  | idle
  | asked (holder : Nat)
  | taken (holder : Nat) (succeeded : Bool)
  | answered (holder : Nat) (succeeded : Bool)
  | returned (holder : Nat) (succeeded : Bool)
  | serving (holder : Nat)

namespace Stage

/-- The holder whose `retain` is pending, and where it stands. -/
def calling : Stage → Option (Nat × Phase)
  | idle | serving _ => none
  | asked holder | taken holder _ => some (holder, .subscribing)
  | answered holder succeeded => some (holder, .answered succeeded)
  | returned holder succeeded => some (holder, .returned succeeded)

def handlers : Stage → List Nat
  | idle | returned _ false => []
  | asked holder | taken holder _ | answered holder _ | returned holder true | serving holder =>
    [holder]

def unsubscriber : Stage → Option Nat
  | serving holder => some holder
  | _ => none

def pending : Stage → Bool
  | asked _ | taken _ _ => true
  | _ => false

def commands : Stage → List Command
  | asked _ => [.subscribe]
  | _ => []

def answers : Stage → List Bool
  | taken _ succeeded => [succeeded]
  | _ => []

def serves : Stage → Bool
  | idle | asked _ => false
  | taken _ succeeded | answered _ succeeded | returned _ succeeded => succeeded
  | serving _ => true

/-- An UNSUBSCRIBE of the subscription before may still be on its way to Redis. -/
def Early : Stage → Prop
  | idle | asked _ => True
  | _ => False

end Stage

def answer? : Reply δ → Option Bool
  | .subscribed succeeded => some succeeded
  | _ => none

def unsubscribed? : Reply δ → Option Nat
  | .unsubscribed holder => some holder
  | _ => none

def countOf : Nat → Option Nat
  | 0 => none
  | count + 1 => some (count + 1)

@[simp]
theorem countOf_getD (count : Nat) : (countOf count).getD 0 = count := by
  cases count with
  | zero => rfl
  | succ count => rfl

/-- A holder misses nothing of what was published since its `retain` resolved. -/
structure Reaches (published : List (Option δ)) (replies : List (Reply δ)) (holder : Holder δ) :
    Prop where
  since : holder.since ≤ published.length
  decoded : none ∉ published.drop holder.since
  sublist : List.Sublist (published.drop holder.since)
    (holder.received.map some ++ replies.filterMap message?)

def phaseOf (holders : List (Holder δ)) (id : Nat) : Option Phase := holders[id]?.map Holder.phase

/-- At most one `retain` is pending, and the leavers await their UNSUBSCRIBE. -/
structure Seats (holders : List (Holder δ)) (calling : Option (Nat × Phase)) (leavers : List Nat) :
    Prop where
  releasing : ∀ id ∈ leavers, phaseOf holders id = some .releasing
  others : ∀ id phase, phaseOf holders id = some phase →
    phase = .held ∨ phase = .releasing ∨ phase = .gone ∨ calling = some (id, phase)
  calling : ∀ id phase, calling = some (id, phase) → phaseOf holders id = some phase

structure Fits (topic : Topic δ) (stage : Stage) (leaving : List Nat) : Prop where
  handlers : topic.handlers = stage.handlers
  unsubscriber : topic.unsubscriber = stage.unsubscriber
  pending : topic.pendingSubscribe = stage.pending
  commands : topic.commands = leaving.map .unsubscribe ++ stage.commands
  early : leaving ≠ [] → stage.Early
  subscribed : leaving = [] → topic.subscribed = stage.serves
  answers : topic.replies.filterMap answer? = stage.answers
  distinct : (topic.replies.filterMap unsubscribed? ++ leaving).Nodup
  seats : Seats topic.holders stage.calling (topic.replies.filterMap unsubscribed? ++ leaving)
  count : topic.refCount = countOf (heldCount topic.holders + stage.calling.toList.length)
  held : 0 < heldCount topic.holders → stage.serves = true
  last : ∀ id, stage = .serving id → 0 < heldCount topic.holders
  reaches : ∀ holder ∈ topic.holders, holder.phase = .held →
    Reaches topic.published topic.replies holder

theorem fits_empty : Fits (empty : Topic δ) .idle [] where
  handlers := rfl
  unsubscriber := rfl
  pending := rfl
  commands := rfl
  early := fun h => absurd rfl h
  subscribed := fun _ => rfl
  answers := rfl
  distinct := nodup_nil
  seats := ⟨fun _ h => absurd h not_mem_nil, fun _ _ h => (by cases h), fun _ _ h => (by cases h)⟩
  count := rfl
  held := fun h => absurd h (Nat.lt_irrefl 0)
  last := fun _ h => by cases h
  reaches := fun _ h => absurd h not_mem_nil

section Holders

variable {holders : List (Holder δ)} {id : Nat} {holder : Holder δ} {f : Holder δ → Holder δ}

theorem phaseOf_modify (holders : List (Holder δ)) (id other : Nat) {phase : Phase}
    (hf : ∀ holder, (f holder).phase = phase) :
    phaseOf (holders.modify id f) other =
      if id = other then (phaseOf holders other).map fun _ => phase else phaseOf holders other := by
  unfold phaseOf
  rw [getElem?_modify]
  cases holders[other]? with
  | none => split <;> rfl
  | some holder =>
    split
    · exact congrArg some (hf holder)
    · rfl

theorem phaseOf_append (holders : List (Holder δ)) (holder : Holder δ) (id : Nat) :
    phaseOf (holders ++ [holder]) id =
      if id = holders.length then some holder.phase else phaseOf holders id := by
  unfold phaseOf
  rw [getElem?_append]
  split
  · next hlt => rw [if_neg (Nat.ne_of_lt hlt)]
  · next hge =>
      split
      · next heq =>
          rw [heq, Nat.sub_self]
          rfl
      · rw [getElem?_eq_none (by rw [length_singleton]; omega),
          getElem?_eq_none (by omega)]

theorem phaseOf_length (holders : List (Holder δ)) : phaseOf holders holders.length = none := by
  unfold phaseOf
  rw [getElem?_eq_none (Nat.le_refl _)]
  rfl

variable {leavers : List Nat}

theorem Seats.modify {calling calling' : Option (Nat × Phase)} {leavers' : List Nat}
    {phase : Phase} (h : Seats holders calling leavers) (hin : (phaseOf holders id).isSome)
    (hf : ∀ holder, (f holder).phase = phase)
    (hrest : ∀ other phase, other ≠ id →
      (calling = some (other, phase) ↔ calling' = some (other, phase)))
    (hself : ∀ other, calling' = some (id, other) → other = phase)
    (hphase : phase = .held ∨ phase = .releasing ∨ phase = .gone ∨ calling' = some (id, phase))
    (hleavers : ∀ other ∈ leavers', other ≠ id ∧ other ∈ leavers ∨ other = id ∧ phase = .releasing) :
    Seats (holders.modify id f) calling' leavers' := by
  obtain ⟨old, hold⟩ := Option.isSome_iff_exists.mp hin
  have hnew : phaseOf (holders.modify id f) id = some phase := by
    rw [phaseOf_modify holders id id hf, if_pos rfl, hold]
    rfl
  have hkept : ∀ other, other ≠ id → phaseOf (holders.modify id f) other = phaseOf holders other := by
    intro other hother
    rw [phaseOf_modify holders id other hf, if_neg (Ne.symm hother)]
  refine ⟨?_, ?_, ?_⟩
  · intro other hother
    obtain ⟨hne, hmem⟩ | ⟨rfl, rfl⟩ := hleavers other hother
    · rw [hkept other hne]
      exact h.releasing other hmem
    · exact hnew
  · intro other seen hseen
    by_cases hother : other = id
    · subst hother
      rw [hnew] at hseen
      cases hseen
      exact hphase
    · rw [hkept other hother] at hseen
      exact (h.others other seen hseen).imp_right
        (.imp_right (.imp_right (hrest other seen hother).mp))
  · intro other seen hseen
    by_cases hother : other = id
    · subst hother
      rw [hself seen hseen]
      exact hnew
    · rw [hkept other hother]
      exact h.calling other seen ((hrest other seen hother).mpr hseen)

section

variable {old : Phase} (h : Seats holders (some (id, old)) leavers)
include h

theorem Seats.not_leaving (hold : old ≠ .releasing) : ∀ other ∈ leavers, other ≠ id := by
  rintro other hmem rfl
  cases (h.calling other old rfl).symm.trans (h.releasing other hmem)
  exact hold rfl

theorem Seats.turn {new : Phase} (hold : old ≠ .releasing) (hf : ∀ holder, (f holder).phase = new) :
    Seats (holders.modify id f) (some (id, new)) leavers := by
  refine h.modify (Option.isSome_of_eq_some (h.calling id old rfl)) hf ?_ ?_
    (.inr (.inr (.inr rfl))) fun other hmem => .inl ⟨h.not_leaving hold other hmem, hmem⟩
  · intro other phase hother
    constructor
    · intro heq
      cases heq
      exact absurd rfl hother
    · intro heq
      cases heq
      exact absurd rfl hother
  · intro other heq
    cases heq
    rfl

/-- The pending `retain` is settled. -/
theorem Seats.settle {new : Phase} (hold : old ≠ .releasing)
    (hf : ∀ holder, (f holder).phase = new) (hnew : new = .held ∨ new = .gone) :
    Seats (holders.modify id f) none leavers := by
  refine h.modify (Option.isSome_of_eq_some (h.calling id old rfl)) hf ?_ (fun _ heq => by cases heq)
    (hnew.imp_right fun hgone => .inr (.inl hgone))
    fun other hmem => .inl ⟨h.not_leaving hold other hmem, hmem⟩
  intro other phase hother
  constructor
  · intro heq
    cases heq
    exact absurd rfl hother
  · intro heq
    cases heq

end

theorem Seats.join {calling calling' : Option (Nat × Phase)}
    (h : Seats holders calling leavers) (holder : Holder δ)
    (hnew : holder.phase = .held ∧ calling' = calling ∨
      calling = none ∧ calling' = some (holders.length, holder.phase)) :
    Seats (holders ++ [holder]) calling' leavers := by
  have hkept (other : Nat) (phase : Phase) (hother : phaseOf holders other = some phase) :
      phaseOf (holders ++ [holder]) other = some phase := by
    rw [phaseOf_append, if_neg, hother]
    rintro rfl
    rw [phaseOf_length] at hother
    cases hother
  refine ⟨fun other hmem => hkept other _ (h.releasing other hmem), ?_, ?_⟩
  · intro other phase hphase
    rw [phaseOf_append] at hphase
    split at hphase
    · next hlast =>
        cases hphase
        obtain ⟨hheld, -⟩ | ⟨-, hcalling⟩ := hnew
        · exact .inl hheld
        · rw [hcalling, hlast]
          exact .inr (.inr (.inr rfl))
    · obtain hheld | hreleasing | hgone | hcalling := h.others other phase hphase
      · exact .inl hheld
      · exact .inr (.inl hreleasing)
      · exact .inr (.inr (.inl hgone))
      · obtain ⟨-, hsame⟩ | ⟨hnone, -⟩ := hnew
        · exact .inr (.inr (.inr (hsame.trans hcalling)))
        · rw [hnone] at hcalling
          cases hcalling
  · intro other phase hcalling
    obtain ⟨-, hsame⟩ | ⟨-, hcalls⟩ := hnew
    · exact hkept other phase (h.calling other phase (hsame ▸ hcalling))
    · cases hcalls.symm.trans hcalling
      rw [phaseOf_append, if_pos rfl]

theorem heldCount_modify (hholder : holders[id]? = some holder) :
    heldCount (holders.modify id f) + (if holder.phase = .held then 1 else 0) =
      heldCount holders + (if (f holder).phase = .held then 1 else 0) := by
  induction holders generalizing id with
  | nil => cases hholder
  | cons first rest ih =>
    cases id with
    | zero =>
      cases hholder
      simp only [heldCount, modify_zero_cons, countP_cons, decide_eq_true_eq]
      omega
    | succ id =>
      have hrest := ih hholder
      simp only [heldCount, modify_succ_cons, countP_cons] at hrest ⊢
      omega

theorem mem_modify {other : Holder δ} (h : other ∈ holders.modify id f) :
    other ∈ holders ∨ ∃ old ∈ holders, other = f old := by
  obtain ⟨place, hplace⟩ := mem_iff_getElem?.mp h
  rw [getElem?_modify] at hplace
  obtain ⟨old, hold, hnew⟩ := Option.map_eq_some_iff.mp hplace
  have hmem := mem_of_getElem? hold
  split at hnew
  · exact .inr ⟨old, hmem, hnew.symm⟩
  · exact .inl (hnew ▸ hmem)

end Holders

theorem countOf_ne_zero {count : Nat} (h : count ≠ 0) : countOf count = some count := by
  cases count with
  | zero => exact absurd rfl h
  | succ count => rfl

variable {stage : Stage}

theorem Stage.commands_of_not_early (h : ¬stage.Early) : stage.commands = [] := by
  cases stage with
  | asked id => exact absurd trivial h
  | _ => rfl

theorem Stage.not_early_of_serves (h : stage.serves = true) : ¬stage.Early := by
  cases stage with
  | idle | asked _ => cases h
  | _ => exact id

theorem Stage.calls {id : Nat} {phase : Phase} (h : stage.calling = some (id, phase)) :
    phase ≠ .held ∧ phase ≠ .releasing ∧ phase ≠ .gone := by
  cases stage with
  | idle | serving _ => cases h
  | _ =>
    cases h
    exact ⟨nofun, nofun, nofun⟩

theorem Stage.handlers_of_serves (h : stage.serves = true) :
    ∃ id, stage.handlers = [id] := by
  cases stage with
  | idle | asked _ => cases h
  | taken id _ | answered id _ | serving id => exact ⟨id, rfl⟩
  | returned id succeeded =>
    cases h
    exact ⟨id, rfl⟩

section Steps

variable {stage : Stage} {leaving : List Nat}

theorem Fits.open_of_held (h : Fits topic stage leaving) (hheld : 0 < heldCount topic.holders) :
    leaving = [] ∧ topic.commands = [] ∧ topic.subscribed = true := by
  have hserves := h.held hheld
  have hnot := Stage.not_early_of_serves hserves
  have hleaving : leaving = [] := by
    by_contra hne
    exact hnot (h.early hne)
  refine ⟨hleaving, ?_, (h.subscribed hleaving).trans hserves⟩
  rw [h.commands, hleaving, Stage.commands_of_not_early hnot]
  rfl

variable {holders : List (Holder δ)}

variable {holder : Holder δ}

theorem heldCount_pos (hmem : holder ∈ holders) (h : holder.phase = .held) : 0 < heldCount holders :=
  countP_pos_iff.mpr ⟨holder, hmem, decide_eq_true h⟩

theorem Fits.publish (h : Fits topic stage leaving) {payload : Option δ}
    (hadmits : topic.Admits (.publish payload)) : Fits (topic.publish payload) stage leaving := by
  have hreplies {α : Type} (f : Reply δ → Option α) (hf : f (.message payload) = none) :
      (topic.publish payload).replies.filterMap f = topic.replies.filterMap f := by
    unfold Topic.publish
    dsimp only
    split
    · rw [filterMap_append, filterMap_cons_none hf, filterMap_nil, append_nil]
    · rfl
  refine { h with answers := ?_, distinct := ?_, seats := ?_, reaches := ?_ }
  · exact (hreplies answer? rfl).trans h.answers
  · rw [hreplies unsubscribed? rfl]
    exact h.distinct
  · rw [hreplies unsubscribed? rfl]
    exact h.seats
  · intro holder hmem hphase
    have hcount := heldCount_pos hmem hphase
    have hreach := h.reaches holder hmem hphase
    unfold Topic.publish
    dsimp only
    rw [if_pos (h.open_of_held hcount).2.2]
    cases payload with
    | none => exact absurd hadmits (Nat.ne_of_gt hcount)
    | some payload =>
      refine ⟨?_, ?_, ?_⟩
      · rw [length_append]
        exact Nat.le_add_right_of_le hreach.since
      · rw [drop_append_of_le_length hreach.since, mem_append, not_or]
        exact ⟨hreach.decoded, by simp⟩
      · rw [drop_append_of_le_length hreach.since, filterMap_append, ← append_assoc]
        exact hreach.sublist.append_right _

theorem Fits.take (h : Fits topic stage leaving) {succeeds : Bool} {command : Command}
    {commands : List Command} (hcommands : topic.commands = command :: commands) :
    ∃ stage leaving, Fits ({ topic with commands := commands }.take succeeds command) stage leaving := by
  have hall := h.commands.symm.trans hcommands
  have hnone : heldCount topic.holders = 0 := by
    by_contra hne
    rw [(h.open_of_held (Nat.pos_of_ne_zero hne)).2.1] at hcommands
    cases hcommands
  have hreaches {published : List (Option δ)} {replies : List (Reply δ)} :
      ∀ holder ∈ topic.holders, holder.phase = .held → Reaches published replies holder :=
    fun holder hmem hphase => absurd hnone (Nat.ne_of_gt (heldCount_pos hmem hphase))
  cases leaving with
  | cons id leaving =>
    obtain ⟨rfl, rfl⟩ := List.cons.inj hall
    have hearly := h.early (cons_ne_nil _ _)
    have hlist : (topic.replies ++ [Reply.unsubscribed id]).filterMap unsubscribed? ++ leaving =
        topic.replies.filterMap unsubscribed? ++ id :: leaving := by
      rw [filterMap_append, append_assoc]
      rfl
    refine ⟨stage, leaving, { h with
      commands := rfl, early := fun _ => hearly, subscribed := fun _ => ?_, answers := ?_,
      distinct := ?_, seats := ?_, reaches := hreaches }⟩
    · cases stage with
      | idle | asked _ => rfl
      | _ => exact hearly.elim
    · unfold Topic.take
      rw [filterMap_append]
      exact (append_nil _).trans h.answers
    · unfold Topic.take
      rw [hlist]
      exact h.distinct
    · unfold Topic.take
      rw [hlist]
      exact h.seats
  | nil =>
    cases stage with
    | asked id =>
      obtain ⟨rfl, rfl⟩ := List.cons.inj hall
      have hlist : (topic.replies ++ [Reply.subscribed succeeds]).filterMap unsubscribed? =
          topic.replies.filterMap unsubscribed? := by
        rw [filterMap_append]
        exact append_nil _
      refine ⟨.taken id succeeds, [], { h with
        commands := rfl, early := fun hne => absurd rfl hne, subscribed := fun _ => ?_,
        answers := ?_, distinct := ?_, seats := ?_, held := ?_, last := ?_,
        reaches := hreaches }⟩
      · unfold Topic.take
        dsimp only
        rw [h.subscribed rfl]
        rfl
      · unfold Topic.take
        rw [filterMap_append, h.answers]
        rfl
      · unfold Topic.take
        rw [hlist]
        exact h.distinct
      · unfold Topic.take
        rw [hlist]
        exact h.seats
      · intro hpos
        exact absurd hnone (Nat.ne_of_gt hpos)
      · intro other hother
        cases hother
    | _ => cases hall

theorem phases_publishLocal (payload : δ) (holders : List (Holder δ)) :
    (publishLocal payload holders).map Holder.phase = holders.map Holder.phase := by
  unfold publishLocal
  rw [map_map]
  congr 1
  funext holder
  simp only [Function.comp_apply]
  split <;> rfl

theorem phases_dispatch (topic : Topic δ) (payload : Option δ) :
    (topic.dispatch payload).holders.map Holder.phase = topic.holders.map Holder.phase := by
  cases payload with
  | none => rfl
  | some payload =>
    unfold dispatch
    dsimp only
    induction topic.handlers generalizing topic with
    | nil => rfl
    | cons handler handlers ih =>
      rw [foldl_cons]
      exact (ih { topic with holders := publishLocal payload topic.holders }).trans
        (phases_publishLocal payload topic.holders)

theorem heldCount_congr {holders' : List (Holder δ)}
    (h : holders'.map Holder.phase = holders.map Holder.phase) :
    heldCount holders' = heldCount holders := by
  have hcount (list : List (Holder δ)) :
      heldCount list = (list.map Holder.phase).countP (· = .held) := by
    rw [countP_map]
    rfl
  rw [hcount, hcount, h]

theorem Seats.congr {holders' : List (Holder δ)} {calling : Option (Nat × Phase)}
    {leavers : List Nat} (h : Seats holders calling leavers)
    (hphases : holders'.map Holder.phase = holders.map Holder.phase) :
    Seats holders' calling leavers := by
  have hsame : phaseOf holders' = phaseOf holders := by
    funext id
    unfold phaseOf
    rw [← getElem?_map, ← getElem?_map, hphases]
  refine ⟨?_, ?_, ?_⟩
  · rw [hsame]
    exact h.releasing
  · rw [hsame]
    exact h.others
  · rw [hsame]
    exact h.calling

variable {replies : List (Reply δ)} {published : List (Option δ)}

theorem Reaches.fresh (h : holder.since = published.length) : Reaches published replies holder := by
  refine ⟨Nat.le_of_eq h, ?_, ?_⟩
  · rw [h, drop_length]
    exact not_mem_nil
  · rw [h, drop_length]
    exact nil_sublist _

theorem Reaches.pass {payload : δ} (h : Reaches published (.message (some payload) :: replies) holder) :
    Reaches published replies { holder with received := holder.received ++ [payload] } := by
  refine ⟨h.since, h.decoded, ?_⟩
  rw [map_append, append_assoc]
  exact h.sublist

theorem Reaches.skip {reply : Reply δ} (h : Reaches published (reply :: replies) holder)
    (hreply : message? reply = none ∨ message? reply = some none) :
    Reaches published replies holder := by
  refine ⟨h.since, h.decoded, ?_⟩
  have hsublist := h.sublist
  cases hreply with
  | inl hnone =>
    rw [filterMap_cons_none hnone] at hsublist
    exact hsublist
  | inr hnull =>
    rw [filterMap_cons_some hnull] at hsublist
    have hkept : (published.drop holder.since).filter Option.isSome =
        published.drop holder.since := by
      rw [filter_eq_self]
      rintro (_ | payload) hmem
      · exact absurd hmem h.decoded
      · rfl
    rw [← hkept]
    refine (hsublist.filter _).trans ?_
    rw [filter_append, filter_cons_of_neg Bool.false_ne_true, ← filter_append]
    exact filter_sublist

section

variable (h : Fits topic stage leaving)
include h

theorem Fits.arrive_message {payload : Option δ}
    (hreplies : topic.replies = .message payload :: replies) :
    Fits ({ topic with replies := replies }.dispatch payload) stage leaving := by
  have hanswers := h.answers
  have hdistinct := h.distinct
  have hseats := h.seats
  have hreaches := h.reaches
  rw [hreplies] at hanswers hdistinct hseats hreaches
  have hphases := phases_dispatch { topic with replies := replies } payload
  have hsame : ({ topic with replies := replies }.dispatch payload) = { topic with
      replies := replies
      holders := ({ topic with replies := replies }.dispatch payload).holders } := by
    cases payload <;> rfl
  rw [hsame]
  refine { h with
    answers := hanswers, distinct := hdistinct, seats := hseats.congr hphases,
    count := h.count.trans ?_, held := ?_, last := ?_, reaches := ?_ }
  · rw [heldCount_congr hphases]
  · rw [heldCount_congr hphases]
    exact h.held
  · rw [heldCount_congr hphases]
    exact h.last
  · intro holder hmem hphase
    cases payload with
    | none => exact (hreaches holder hmem hphase).skip (.inr rfl)
    | some payload =>
      have hserves := h.held (heldCount_congr hphases ▸ heldCount_pos hmem hphase)
      obtain ⟨id, hhandlers⟩ := Stage.handlers_of_serves hserves
      unfold dispatch at hmem
      dsimp only at hmem
      rw [h.handlers, hhandlers] at hmem
      obtain ⟨old, hold, rfl⟩ := mem_map.mp hmem
      by_cases hlistens : old.phase.listens = true
      · rw [if_pos hlistens] at hphase ⊢
        exact (hreaches old hold hphase).pass
      · rw [if_neg hlistens] at hphase
        rw [hphase] at hlistens
        exact absurd rfl hlistens

variable {id : Nat}

omit h in
theorem phaseOf_eq_some {phase : Phase} (h : phaseOf holders id = some phase) :
    ∃ holder, holders[id]? = some holder ∧ holder.phase = phase :=
  Option.map_eq_some_iff.mp h

omit h in
theorem heldCount_move {old : Phase} (new : Phase)
    (h : phaseOf holders id = some old) (hold : old ≠ .held) (hnew : new ≠ .held) :
    heldCount (holders.modify id fun holder => { holder with phase := new }) = heldCount holders := by
  obtain ⟨holder, hholder, rfl⟩ := phaseOf_eq_some h
  have hcount := heldCount_modify (f := fun holder => { holder with phase := new }) hholder
  rw [if_neg hold, if_neg hnew] at hcount
  exact hcount

omit h in
theorem reaches_modify {new : Phase} (hnew : new ≠ .held)
    (h : ∀ holder ∈ holders, holder.phase = .held → Reaches published replies holder) :
    ∀ holder ∈ holders.modify id fun holder => { holder with phase := new },
      holder.phase = .held → Reaches published replies holder := by
  intro holder hmem hphase
  obtain hmem | ⟨old, -, rfl⟩ := mem_modify hmem
  · exact h holder hmem hphase
  · exact absurd hphase hnew

theorem Fits.arrive_unsubscribed (hreplies : topic.replies = .unsubscribed id :: replies) :
    Fits ({ topic with replies := replies }.setPhase id .gone) stage leaving := by
  have hanswers := h.answers
  have hdistinct := h.distinct
  have hseats := h.seats
  have hreaches := h.reaches
  rw [hreplies] at hanswers hdistinct hseats hreaches
  have hlist : (Reply.unsubscribed id :: replies).filterMap unsubscribed? ++ leaving =
      id :: (replies.filterMap unsubscribed? ++ leaving) := rfl
  rw [hlist] at hdistinct hseats
  obtain ⟨hnot, hdistinct⟩ := nodup_cons.mp hdistinct
  have hphase := hseats.releasing id mem_cons_self
  have hcount := heldCount_move .gone hphase (by decide) (by decide)
  refine { h with
    answers := hanswers, distinct := hdistinct, seats := ?_, count := h.count.trans ?_, held := ?_,
    last := ?_, reaches := reaches_modify (by decide) ?_ }
  · refine hseats.modify (Option.isSome_of_eq_some hphase) (fun _ => rfl) (fun _ _ _ => Iff.rfl) ?_
      (.inr (.inr (.inl rfl))) ?_
    · intro other hcalling
      have hother := hphase.symm.trans (hseats.calling id other hcalling)
      cases hother
      exact absurd rfl (Stage.calls hcalling).2.1
    · intro other hmem
      exact .inl ⟨fun heq => hnot (heq ▸ hmem), mem_cons_of_mem _ hmem⟩
  · rw [← hcount]
    rfl
  · exact fun hpos => h.held (hcount ▸ hpos)
  · exact fun other hother => hcount.symm ▸ h.last other hother
  · exact fun holder hmem hheld => (hreaches holder hmem hheld).skip (.inl rfl)

omit h in
theorem map_subscribing {leavers : List Nat}
    (h : Seats holders (some (id, .subscribing)) leavers) (new : Phase) :
    holders.map (fun holder =>
        if holder.phase = .subscribing then { holder with phase := new } else holder) =
      holders.modify id fun holder => { holder with phase := new } := by
  apply ext_getElem?
  intro place
  rw [getElem?_map, getElem?_modify]
  cases hholder : holders[place]? with
  | none => rfl
  | some holder =>
    have hphase : phaseOf holders place = some holder.phase :=
      Option.map_eq_some_iff.mpr ⟨holder, hholder, rfl⟩
    refine congrArg some ?_
    dsimp only
    by_cases hplace : id = place
    · subst hplace
      rw [if_pos rfl, if_pos (Option.some.inj (hphase.symm.trans (h.calling id _ rfl)))]
    · rw [if_neg hplace, if_neg]
      · intro hcalls
        rw [hcalls] at hphase
        obtain hother | hother | hother | hother := h.others place _ hphase
        · cases hother
        · cases hother
        · cases hother
        · cases hother
          exact hplace rfl

theorem Fits.arrive_subscribed {succeeded : Bool}
    (hreplies : topic.replies = .subscribed succeeded :: replies) :
    ∃ stage, Fits ({ topic with replies := replies }.arrive (.subscribed succeeded)) stage
      leaving := by
  have hanswers := h.answers
  have hdistinct := h.distinct
  have hseats := h.seats
  have hreaches := h.reaches
  rw [hreplies] at hanswers hdistinct hseats hreaches
  cases stage with
  | taken id answer =>
    obtain ⟨rfl, hnone⟩ := List.cons.inj hanswers
    have hcalls := hseats.calling id .subscribing rfl
    have hcount := heldCount_move (.answered succeeded) hcalls (by decide) nofun
    have hnext : { topic with replies := replies }.arrive (.subscribed succeeded) = { topic with
        replies := replies, pendingSubscribe := false,
        holders := topic.holders.modify id fun holder =>
          { holder with phase := .answered succeeded } } := by
      rw [← map_subscribing hseats]
      rfl
    rw [hnext]
    exact ⟨.answered id succeeded, { h with
      pending := rfl, early := h.early, answers := hnone, distinct := hdistinct,
      seats := hseats.turn (by decide) fun _ => rfl,
      count := h.count.trans (by rw [hcount]; rfl), held := fun hpos => h.held (hcount ▸ hpos),
      last := nofun,
      reaches := reaches_modify nofun fun holder hmem hheld =>
        (hreaches holder hmem hheld).skip (.inl rfl) }⟩
  | _ => cases hanswers

theorem Fits.calling_of {phase : Phase} (hphase : phaseOf topic.holders id = some phase)
    (hcalls : phase ≠ .held ∧ phase ≠ .releasing ∧ phase ≠ .gone) :
    stage.calling = some (id, phase) := by
  obtain hheld | hreleasing | hgone | hcalling := h.seats.others id phase hphase
  · exact absurd hheld hcalls.1
  · exact absurd hreleasing hcalls.2.1
  · exact absurd hgone hcalls.2.2
  · exact hcalling

theorem Fits.returnSubscribe {succeeded : Bool}
    (hphase : phaseOf topic.holders id = some (.answered succeeded)) :
    ∃ stage, Fits (topic.returnSubscribe id succeeded) stage leaving := by
  have hcalling := h.calling_of hphase ⟨nofun, nofun, nofun⟩
  have hcount := heldCount_move (.returned succeeded) hphase nofun nofun
  cases stage with
  | answered other answer =>
    cases hcalling
    have hnext : topic.returnSubscribe id succeeded = { topic with
        handlers := (Stage.returned id succeeded).handlers
        holders := topic.holders.modify id fun holder =>
          { holder with phase := .returned succeeded } } := by
      cases succeeded with
      | true =>
        rw [show (Stage.returned id true).handlers = topic.handlers from h.handlers.symm]
        rfl
      | false =>
        have herase : (Stage.answered id false).handlers.erase id = [] :=
          erase_cons_head id []
        unfold Topic.returnSubscribe
        rw [h.handlers, herase]
        rfl
    rw [hnext]
    exact ⟨.returned id succeeded, { h with
      handlers := rfl, unsubscriber := h.unsubscriber,
      seats := h.seats.turn nofun fun _ => rfl,
      count := h.count.trans (by rw [hcount]; rfl), held := fun hpos => h.held (hcount ▸ hpos),
      last := nofun, reaches := reaches_modify nofun h.reaches }⟩
  | _ => cases hcalling

theorem Fits.returnRetain {succeeded : Bool}
    (hphase : phaseOf topic.holders id = some (.returned succeeded)) :
    ∃ stage, Fits (topic.returnRetain id succeeded) stage leaving := by
  have hcalling := h.calling_of hphase ⟨nofun, nofun, nofun⟩
  cases stage with
  | returned other answer =>
    cases hcalling
    have hearly : leaving = [] := by
      by_contra hne
      exact h.early hne
    cases succeeded with
    | true =>
      obtain ⟨holder, hholder, hwas⟩ := phaseOf_eq_some hphase
      have hcount := heldCount_modify (f := fun old =>
        { old with phase := .held, since := topic.published.length }) hholder
      rw [hwas, if_neg nofun, if_pos rfl] at hcount
      refine ⟨.serving id, { h with
        unsubscriber := rfl, early := h.early,
        seats := h.seats.settle nofun (fun _ => rfl) (.inl rfl), count := h.count.trans ?_,
        held := fun _ => rfl, last := fun _ _ => ?_, reaches := ?_ }⟩
      · exact congrArg countOf hcount.symm
      · exact Nat.lt_of_lt_of_eq (Nat.succ_pos _) hcount.symm
      · intro other hmem hheld
        obtain hmem | ⟨old, -, rfl⟩ := mem_modify hmem
        · exact h.reaches other hmem hheld
        · exact Reaches.fresh rfl
    | false =>
      have hnone : heldCount topic.holders = 0 := by
        by_contra hne
        cases h.held (Nat.pos_of_ne_zero hne)
      have hcount := (heldCount_move .gone hphase nofun nofun).trans hnone
      have hnext : topic.returnRetain id false =
          { topic with refCount := none }.setPhase id .gone := by
        unfold Topic.returnRetain
        rw [h.count, hnone]
        rfl
      rw [hnext]
      exact ⟨.idle, { h with
        early := fun hne => absurd hearly hne, subscribed := h.subscribed,
        seats := h.seats.settle nofun (fun _ => rfl) (.inr rfl),
        count := (congrArg countOf hcount).symm,
        held := fun hpos => absurd hcount (Nat.ne_of_gt hpos), last := nofun,
        reaches := reaches_modify nofun h.reaches }⟩
  | _ => cases hcalling

theorem Fits.retain (hadmits : topic.Admits .retain) :
    ∃ stage, Fits topic.retain stage leaving := by
  have hcurrent : topic.refCount.getD 0 =
      heldCount topic.holders + stage.calling.toList.length := by
    rw [h.count, countOf_getD]
  have hreaches {holder : Holder δ} {phase : Phase} {since : Nat}
      (hsince : phase = .held → since = topic.published.length)
      (hmem : holder ∈ topic.holders ++ [⟨phase, since, []⟩]) (hheld : holder.phase = .held) :
      Reaches topic.published topic.replies holder := by
    cases mem_append.mp hmem with
    | inl hold => exact h.reaches holder hold hheld
    | inr hnew =>
      cases mem_singleton.mp hnew
      exact Reaches.fresh (hsince hheld)
  by_cases hpos : 0 < topic.refCount.getD 0
  · obtain ⟨hcommands, hsubscribed⟩ := hadmits hpos
    have hleaving : leaving = [] := by
      have hnil := h.commands.symm.trans hcommands
      exact map_eq_nil_iff.mp (append_eq_nil_iff.mp hnil).1
    have hcount : heldCount (topic.holders ++ [⟨.held, topic.published.length, []⟩]) =
        heldCount topic.holders + 1 := countP_append
    have hnext : topic.retain = { topic with
        refCount := some (topic.refCount.getD 0 + 1),
        holders := topic.holders ++ [⟨.held, topic.published.length, []⟩] } := by
      unfold Topic.retain
      exact if_pos hpos
    rw [hnext]
    refine ⟨stage, { h with
      seats := h.seats.join _ (.inl ⟨rfl, rfl⟩), count := ?_,
      held := fun _ => (h.subscribed hleaving).symm.trans hsubscribed,
      last := fun _ _ => hcount ▸ Nat.succ_pos _,
      reaches := fun holder hmem => hreaches (fun _ => rfl) hmem }⟩
    dsimp only
    rw [hcount, hcurrent, Nat.add_right_comm]
    exact (countOf_ne_zero (by omega)).symm
  · have hnone : heldCount topic.holders = 0 := by omega
    have hquiet : stage.calling.toList.length = 0 := by omega
    cases stage with
    | serving other => exact absurd hnone (Nat.ne_of_gt (h.last other rfl))
    | idle =>
      have hcount : heldCount (topic.holders ++ [⟨.subscribing, 0, []⟩]) =
          heldCount topic.holders := countP_append
      have hnext : topic.retain = { topic with
          refCount := some 1, handlers := [topic.holders.length], pendingSubscribe := true,
          commands := leaving.map Command.unsubscribe ++ [.subscribe],
          holders := topic.holders ++ [⟨.subscribing, 0, []⟩] } := by
        unfold Topic.retain Topic.subscribe
        dsimp only
        have hcommands : topic.commands = leaving.map Command.unsubscribe :=
          h.commands.trans (append_nil _)
        rw [if_neg hpos, h.handlers, hcommands, Nat.eq_zero_of_not_pos hpos]
        rfl
      rw [hnext]
      exact ⟨.asked topic.holders.length, { h with
        handlers := rfl, unsubscriber := h.unsubscriber, pending := rfl, commands := rfl,
        early := fun _ => trivial,
        seats := h.seats.join _ (.inr ⟨rfl, rfl⟩),
        count := by rw [hcount, hnone]; rfl,
        held := fun hpos => absurd (hcount.trans hnone) (Nat.ne_of_gt hpos), last := nofun,
        reaches := fun holder hmem => @hreaches holder .subscribing 0 nofun hmem }⟩
    | _ => cases hquiet

theorem Fits.release (hphase : phaseOf topic.holders id = some .held) :
    ∃ stage leaving, Fits (topic.release id) stage leaving := by
  obtain ⟨holder, hholder, hheld⟩ := phaseOf_eq_some hphase
  obtain ⟨rfl, hcommands, hsubscribed⟩ :=
    h.open_of_held (heldCount_pos (mem_of_getElem? hholder) hheld)
  have hcurrent : topic.refCount.getD 0 =
      heldCount topic.holders + stage.calling.toList.length := by
    rw [h.count, countOf_getD]
  have hcount (new : Phase) (hnew : new ≠ .held) :
      heldCount (topic.holders.modify id fun holder => { holder with phase := new }) + 1 =
        heldCount topic.holders := by
    have hmoved := heldCount_modify (f := fun holder => { holder with phase := new }) hholder
    rw [if_pos hheld, if_neg hnew] at hmoved
    exact hmoved
  have hnot : ∀ other ∈ topic.replies.filterMap unsubscribed? ++ [], other ≠ id := by
    rintro other hmem rfl
    cases hphase.symm.trans (h.seats.releasing other hmem)
  have hself (other : Phase) (hcalling : stage.calling = some (id, other)) : False := by
    cases hphase.symm.trans (h.seats.calling id other hcalling)
    exact (Stage.calls hcalling).1 rfl
  have hin := Option.isSome_of_eq_some hphase
  by_cases hlast : topic.refCount.getD 0 ≤ 1
  · have hone := hcount .releasing nofun
    cases stage with
    | serving handler =>
      have hnext : topic.release id = { topic with
          refCount := none, unsubscriber := none, handlers := [],
          commands := [.unsubscribe id],
          holders := topic.holders.modify id fun holder =>
            { holder with phase := .releasing } } := by
        have herase : (Stage.serving handler).handlers.erase handler = [] :=
          erase_cons_head handler []
        unfold Topic.release Topic.unsubscribe
        dsimp only
        rw [if_pos hlast, h.unsubscriber, h.handlers, hcommands]
        dsimp only [Stage.unsubscriber]
        rw [if_neg nofun, if_pos herase]
        rfl
      rw [hnext]
      have hnone : heldCount (topic.holders.modify id fun holder =>
          { holder with phase := .releasing }) = 0 := by omega
      refine ⟨.idle, [id], { h with
        handlers := rfl, unsubscriber := rfl, pending := h.pending, commands := rfl,
        early := fun _ => trivial, subscribed := nofun, answers := h.answers, distinct := ?_,
        seats := ?_, count := (congrArg countOf hnone).symm,
        held := fun hpos => absurd hnone (Nat.ne_of_gt hpos), last := nofun,
        reaches := reaches_modify nofun h.reaches }⟩
      · have hdistinct := h.distinct
        rw [append_nil] at hdistinct hnot
        exact nodup_append.mpr ⟨hdistinct, by simp, by
          intro other hmem last hlast
          cases mem_singleton.mp hlast
          exact hnot other hmem⟩
      · refine h.seats.modify hin (fun _ => rfl) (fun _ _ _ => Iff.rfl) nofun (.inr (.inl rfl)) ?_
        intro other hmem
        cases mem_append.mp hmem with
        | inl hold =>
          have hleft := mem_append_left [] hold
          exact .inl ⟨hnot other hleft, hleft⟩
        | inr hnew => exact .inr ⟨mem_singleton.mp hnew, rfl⟩
    | idle => cases h.held (by omega)
    | _ =>
      have hcalls : topic.refCount.getD 0 = heldCount topic.holders + 1 := hcurrent
      omega
  · have hone := hcount .gone nofun
    have hnext : topic.release id = { topic with
        refCount := some (topic.refCount.getD 0 - 1),
        holders := topic.holders.modify id fun holder => { holder with phase := .gone } } := by
      unfold Topic.release
      exact if_neg hlast
    rw [hnext]
    refine ⟨stage, [], { h with
      seats := ?_, count := ?_, held := ?_, last := ?_, reaches := reaches_modify nofun h.reaches }⟩
    · exact h.seats.modify hin (fun _ => rfl) (fun _ _ _ => Iff.rfl)
        (fun other hcalling => (hself other hcalling).elim) (.inr (.inr (.inl rfl)))
        fun other hmem => .inl ⟨hnot other hmem, hmem⟩
    · dsimp only
      rw [countOf_ne_zero (by omega)]
      exact congrArg some (by omega)
    · intro _
      exact h.held (by omega)
    · intro handler hserving
      subst hserving
      have hcalls : topic.refCount.getD 0 = heldCount topic.holders := hcurrent
      dsimp only
      omega

theorem Fits.act {action : Action δ}
    (hadmits : topic.Admits action) (hact : topic.act action = some next) :
    ∃ stage leaving, Fits next stage leaving := by
  cases action with
  | retain =>
    cases hact
    obtain ⟨stage, hnext⟩ := h.retain hadmits
    exact ⟨stage, leaving, hnext⟩
  | publish payload =>
    cases hact
    exact ⟨stage, leaving, h.publish hadmits⟩
  | take succeeds =>
    unfold Topic.act at hact
    dsimp only at hact
    split at hact
    · cases hact
    · next hcommands =>
        cases hact
        exact h.take hcommands
  | arrive =>
    unfold Topic.act at hact
    dsimp only at hact
    split at hact
    · cases hact
    · next reply replies hreplies =>
        cases hact
        cases reply with
        | message payload => exact ⟨stage, leaving, h.arrive_message hreplies⟩
        | unsubscribed id => exact ⟨stage, leaving, h.arrive_unsubscribed hreplies⟩
        | subscribed succeeded =>
          obtain ⟨stage, hnext⟩ := h.arrive_subscribed hreplies
          exact ⟨stage, leaving, hnext⟩
  | release id =>
    unfold Topic.act at hact
    dsimp only at hact
    split at hact
    · next hphase =>
        cases hact
        exact h.release hphase
    · cases hact
  | returnSubscribe id =>
    unfold Topic.act at hact
    dsimp only at hact
    split at hact
    · next hphase =>
        cases hact
        obtain ⟨stage, hnext⟩ := h.returnSubscribe hphase
        exact ⟨stage, leaving, hnext⟩
    · cases hact
  | returnRetain id =>
    unfold Topic.act at hact
    dsimp only at hact
    split at hact
    · next hphase =>
        cases hact
        obtain ⟨stage, hnext⟩ := h.returnRetain hphase
        exact ⟨stage, leaving, hnext⟩
    · cases hact

theorem Fits.serves : Serves topic :=
  fun holder hmem hheld => (h.reaches holder hmem hheld).sublist.subperm

theorem Fits.balanced (hsettled : Settled topic) : Balanced topic := by
  have hphases (id : Nat) (phase : Phase) (hphase : phaseOf topic.holders id = some phase) :
      phase = .held ∨ phase = .gone := by
    obtain ⟨holder, hholder, rfl⟩ := phaseOf_eq_some hphase
    exact hsettled holder (mem_of_getElem? hholder)
  have hleaving : leaving = [] := by
    rw [eq_nil_iff_forall_not_mem]
    intro id hmem
    cases hphases id _ (h.seats.releasing id (mem_append_right _ hmem)) with
    | inl hheld => cases hheld
    | inr hgone => cases hgone
  have hcalling : stage.calling = none := by
    rw [Option.eq_none_iff_forall_ne_some]
    rintro ⟨id, phase⟩ hcalling
    have hcalls := Stage.calls hcalling
    exact (hphases id phase (h.seats.calling id phase hcalling)).elim hcalls.1 hcalls.2.2
  have hsubscribed := h.subscribed hleaving
  unfold Balanced
  cases stage with
  | idle =>
    rw [if_neg fun hpos => Bool.false_ne_true (h.held hpos)]
    exact ⟨h.handlers, hsubscribed⟩
  | serving handler =>
    rw [if_pos (h.last handler rfl), h.handlers]
    exact ⟨rfl, hsubscribed⟩
  | _ => cases hcalling

end

end Steps

theorem TopicRun.fits (run : TopicRun Admits topic) : ∃ stage leaving, Fits topic stage leaving := by
  induction run with
  | start => exact ⟨.idle, [], fits_empty⟩
  | step run admitted stepped ih =>
    obtain ⟨stage, leaving, h⟩ := ih
    exact h.act admitted stepped

/-- Where no `retain` overtakes a SUBSCRIBE, holders miss nothing and nothing is left over. -/
theorem TopicRun.serves_balanced (run : TopicRun Admits topic) :
    Serves topic ∧ (Settled topic → Balanced topic) := by
  obtain ⟨stage, leaving, h⟩ := run.fits
  exact ⟨h.serves, h.balanced⟩

/-- The second holder comes once Redis has taken the SUBSCRIBE, before its answer arrives. -/
theorem TopicRun.serves_balanced_second :
    let topic : Topic Nat := ⟨some 2, none, [0], false, [], [], true, [some 7],
      [⟨.answered true, 0, [7]⟩, ⟨.held, 0, [7]⟩]⟩
    Serves topic ∧ (Settled topic → Balanced topic) := by
  have first := @TopicRun.step Nat Admits _ _ .retain .start nofun rfl
  have taken := @TopicRun.step Nat Admits _ _ (.take true) first trivial rfl
  have second := @TopicRun.step Nat Admits _ _ .retain taken (fun _ => ⟨rfl, rfl⟩) rfl
  have sent := @TopicRun.step Nat Admits _ _ (.publish (some 7)) second trivial rfl
  have answered := @TopicRun.step Nat Admits _ _ .arrive sent trivial rfl
  exact TopicRun.serves_balanced (@TopicRun.step Nat Admits _ _ .arrive answered trivial rfl)

/-- A second holder's `retain` resolves before the SUBSCRIBE and misses a message. -/
theorem not_serves_overtaking : ¬∀ topic : Topic Nat, TopicRun (fun _ _ => True) topic →
      Serves topic ∧ (Settled topic → Balanced topic) := by
  intro hall
  have first := @TopicRun.step Nat (fun _ _ => True) _ _ .retain .start trivial rfl
  have second := @TopicRun.step Nat (fun _ _ => True) _ _ .retain first trivial rfl
  have missed := @TopicRun.step Nat (fun _ _ => True) _ _ (.publish (some 7)) second trivial rfl
  have hserves := (hall _ missed).1 ⟨.held, 0, []⟩ (.tail _ (.head _)) rfl
  exact absurd hserves.length_le (by decide)

end Softmaple.Realtime.Topic
