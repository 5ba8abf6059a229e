import Softmaple.Presence.RecordOwners

/-!
The work of the peers, for the records of the store: a cleanup removes what is
stored under the connection ID of a peer that leaves, and so nothing of a peer
that lives.
-/
namespace Softmaple.Presence.OwnRecords

open Json KeyedList AsyncTasks List
open CollabHost (PresenceIdentity)

variable {services : PresenceServices} {condition : Condition services} {job : Job}
  {assertion : RoomView → Prop}

theorem fanoutSteady : FanoutSteady (discipline condition) where
  steady room := (Steadfast.trivial (.fanout room)).calmly.toSteady
  leaves room view hinv lane hlane := by
    have hstill : Still view (view.pop (some lane)) := .lanes view _
    exact ⟨(hstill.allows (.fanout room) hinv).1, (hstill.quiet hinv).inv hinv, trivial⟩

theorem plain (job : Job) {mark : Mark} (hplain : speaks mark = false) :
    (discipline condition).Maintains job (fun _ => True) (Async.mark mark : RoomAsync Unit) :=
  (Steadfast.trivial job).plain hplain

/-- Routine work, which needs nothing. -/
theorem calmly (job : Job) : Calmly (discipline condition) job fun _ => True :=
  (Steadfast.trivial job).calmly

section Services

variable {view : RoomView}

variable {after : State} {choice : StoreChoice} {connectionId : Text}

theorem removeMember_renews {place : PeerRef} (hinv : Inv services view)
    (hleaves : Leaving view.state place) (hhas : Has place (some connectionId) view)
    {answer : Option (Option PresenceMemberRecord)}
    (hserve : serve services.policy (.removeMember (services.roomId place.room) connectionId) choice
      view.state = some (answer, after)) :
    Renews services view (services.roomId place.room) after := by
  have hafter : _ = after := congrArg Prod.snd (Option.some.inj hserve)
  rw [← hafter]
  refine Renews.storeCall hinv choice fun items hfit => ⟨_, setMembers_setMembers _ _ _ _, ?_⟩
  rw [setMembers_members]
  refine Renewal.delete hfit fun other hroom hstores => ?_
  by_cases hself : other = place
  · rw [hself]
    exact hleaves
  · by_contra hlives
    exact hinv.sole other connectionId hstores hlives place ⟨Ne.symm hself, hroom.symm⟩ hhas

theorem setMember_renews {message : MessageId} {member : PresenceMemberRecord}
    (hinv : Inv services view) (hhas : Has message.state (some member.connectionId) view)
    {answer : Option Unit}
    (hserve : serve services.policy
      (.setMember (services.roomId message.state.room) member message) choice view.state =
        some (answer, after)) :
    Renews services view (services.roomId message.state.room) after ∧
      (answer = some () → Owned services after message.state member.connectionId) := by
  have hafter : _ = after := congrArg Prod.snd (Option.some.inj hserve)
  constructor
  · rw [← hafter]
    refine Renews.storeCall hinv choice fun items hfit => ⟨_, setMembers_setMembers _ _ _ _, ?_⟩
    rw [setMembers_members]
    refine Renewal.put hfit rfl ⟨rfl, hinv.taken _ _ hhas⟩ fun place hroom hstores hlives _ => ?_
    by_contra hother
    exact hinv.sole place _ hstores hlives message.state ⟨hother, hroom.symm⟩ hhas
  · intro hanswer
    have hfirst : _ = answer := congrArg Prod.fst (Option.some.inj hserve)
    rw [hanswer] at hfirst
    unfold State.storeCall at hafter hfirst
    dsimp only at hafter hfirst
    split at hfirst
    · cases hfirst
    · next hanswers =>
        rw [if_neg hanswers] at hafter
        rw [← hafter]
        intro stored hstored hkey
        dsimp only [State.storeMember] at hstored
        rw [setMembers_members] at hstored
        cases mem_put hstored with
        | inl heq => rw [heq]
        | inr hold => exact absurd hkey hold.2

theorem liveMember_mem {state : State} {roomId : Text} {stored : StoredMember}
    (h : state.liveMember roomId connectionId = some stored) :
    stored ∈ state.members roomId ∧ stored.member.connectionId = connectionId :=
  find_mem (Option.filter_eq_some_iff.mp h).1

theorem getMember_renews {roomId : Text} (hinv : Inv services view)
    {answer : Option (Option StoredMember)}
    (hserve : serve services.policy (.getMember roomId connectionId) choice view.state =
      some (answer, after)) :
    Renews services view roomId after ∧
      ∀ stored, answer = some (some stored) → stored.member.connectionId = connectionId := by
  have hafter : _ = after := congrArg Prod.snd (Option.some.inj hserve)
  constructor
  · rw [← hafter]
    exact Renews.storeCall hinv choice fun items hfit => ⟨items, rfl, .refl hfit⟩
  · intro stored hanswer
    have hfirst : _ = answer := congrArg Prod.fst (Option.some.inj hserve)
    rw [hanswer] at hfirst
    unfold State.storeCall at hfirst
    dsimp only at hfirst
    split at hfirst
    · cases hfirst
    · exact (liveMember_mem (Option.some.inj hfirst)).2

theorem refreshMember_renews {roomId : Text} (hinv : Inv services view)
    {answer : Option Bool}
    (hserve : serve services.policy (.refreshMember roomId connectionId) choice view.state =
      some (answer, after)) : Renews services view roomId after := by
  have hafter : _ = after := congrArg Prod.snd (Option.some.inj hserve)
  rw [← hafter]
  refine Renews.storeCall hinv choice fun items hfit => ?_
  split
  · next stored hlive =>
      obtain ⟨hmem, -⟩ := liveMember_mem hlive
      rw [setMembers_members] at hmem
      refine ⟨_, setMembers_setMembers _ _ _ _, ?_⟩
      rw [setMembers_members]
      refine Renewal.put hfit rfl (hfit.recorded stored hmem) fun place _ _ _ howned => ?_
      exact howned stored hmem rfl
  · exact ⟨items, rfl, .refl hfit⟩

end Services

section Reset

def Departs (place : PeerRef) (connectionId : Option Text) (view : RoomView) : Prop :=
  Has place connectionId view ∧ Leaving view.state place

theorem requestLeave_spec (job : Job) (place : PeerRef) :
    (discipline condition).Triple job (fun _ => True) (requestLeave place)
      fun _ view => Leaving view.state place := by
  refine .modify fun view hview hinv => ?_
  have hcalm : ∀ peer : PeerState, peer.Calm { peer with leaveRequested := true } :=
    fun _ => ⟨rfl, fun h => h, fun _ => rfl⟩
  refine ⟨((calmly job).calm view _ hview hinv (State.Calm.setPeer view.state place hcalm)).1, ?_⟩
  refine .inl ?_
  dsimp only [State.setPeer]
  rw [if_pos rfl]

theorem isStopped_spec (job : Job) (place : PeerRef) :
    (discipline condition).Triple job assertion (isStopped place)
      fun stopped view => (stopped = true → Leaving view.state place) ∧ assertion view := by
  refine .bind (getRoom_spec place.room) fun room => .bind (getPeer_spec place) fun peer =>
    .pure fun view hview _ => ⟨fun hstopped => ?_, hview.2.2⟩
  rw [← hview.1, ← hview.2.1] at hstopped
  exact (Bool.or_eq_true _ _).mp hstopped

variable {place : PeerRef} (hqueue : job.queue = some (.peer place))
include hqueue

theorem departs_steadfast (connectionId : Option Text) :
    Steadfast services job (Departs place connectionId) :=
  (Steadfast.has hqueue connectionId).and (Steadfast.leaving job place)

theorem publishLeave_spec (connectionId userId : Text) :
    (discipline condition).Maintains job (Departs place (some connectionId))
      (publishLeave services place.room connectionId userId place) := by
  have hsteadfast : Steadfast services job (Departs place (some connectionId)) :=
    departs_steadfast hqueue _
  refine .bind (Discipline.Triple.mark fun view hview hinv _ => ?_) fun _ =>
    hsteadfast.calmly.publish _
  have hstill : Still view { view with trace := view.trace ++
      [.leaves (services.roomId place.room) connectionId place] } := by
    refine .mark ?_ ?_
    · intro other connectionId hsame
      cases hsame
    · intro other connectionId hsame
      cases hsame
  refine ⟨⟨trivial, fun other hroom hjoins hlives => ?_⟩, hstill.allows job hinv,
    hsteadfast view _ hview (hstill.rely hinv _)⟩
  by_contra hother
  exact hinv.sole other connectionId (hinv.joins other connectionId hjoins) hlives place
    ⟨hother, hroom.symm⟩ hview.1

theorem removeMember_spec (connectionId : Option Text) :
    (discipline condition).Maintains job (Departs place connectionId)
      (removeMember services place.room connectionId) := by
  cases connectionId with
  | none => exact .pure
  | some connectionId =>
    refine .bind ((departs_steadfast hqueue (some connectionId)).call
      (services.roomId place.room) ?_) fun _ => .pure
    exact fun view hview hinv _ _ _ hserve => removeMember_renews hinv hview.2 hview.1 hserve

theorem endSession_spec (connectionId : Option Text) (identity : Option PresenceIdentity)
    (wasJoined : Bool) (endReason : PresenceSessionEndReason) :
    (discipline condition).Maintains job (Departs place connectionId)
      (endSession services place connectionId identity wasJoined endReason) := by
  unfold Presence.endSession
  split
  · refine .bind ((departs_steadfast hqueue _).calmly.endHook _ _) fun _ => ?_
    split
    · exact .bind (publishLeave_spec hqueue _ _) fun _ => .pure
    · exact .pure
  · exact .pure

theorem forgetPeer_spec :
    (discipline condition).Maintains job (fun _ => True) (forgetPeer place true) := by
  refine .bind (.modify fun view _ hinv => ⟨?_, trivial⟩) fun _ => ?_
  · refine Quiet.allows ?_ hinv (fun other hother => ?_) fun _ _ => rfl
    · refine ⟨prefix_rfl, fun _ _ h => h, fun _ _ h => h, Nat.le_refl _, fun other hleaves => ?_,
        fun other hjoined => ?_, fun other connectionId hhas => ?_, fun roomId =>
          .refl (hinv.fit roomId), fun _ _ h => .inl h⟩
      · refine hleaves.imp_left fun hasked => ?_
        dsimp only [State.setPeer]
        split
        · next heq => exact heq ▸ hasked
        · exact hasked
      · dsimp only [State.setPeer] at hjoined
        split at hjoined
        · next heq => exact heq ▸ hjoined
        · exact hjoined
      · dsimp only [State.setPeer] at hhas
        split at hhas
        · cases hhas
        · exact hhas
    · dsimp only [State.setPeer]
      rw [if_neg]
      intro hself
      exact hother (hself ▸ hqueue)
  · refine .bind ((calmly job).setPeer fun _ => ⟨rfl, fun h => h, fun h => h⟩) fun _ => ?_
    refine (calmly job).setRoom fun _ => rfl

theorem resetState_spec (endReason : PresenceSessionEndReason) :
    (discipline condition).Triple job (fun view => Leaving view.state place)
      (resetState services place true endReason) fun _ _ => True := by
  have hleaves : Calmly (discipline condition) job fun view => Leaving view.state place :=
    (Steadfast.leaving job place).calmly
  refine Discipline.Triple.bind (hleaves.clearHeartbeatTimer place) fun _ => ?_
  refine Discipline.Triple.bind (hleaves.releaseFanout fanoutSteady place) fun _ => ?_
  refine Discipline.Triple.bind (maintains_getPeer place) fun peer => ?_
  refine Discipline.Triple.bind (hleaves.setPeer fun _ => ⟨rfl, fun h => h, fun h => h⟩) fun _ => ?_
  refine Discipline.Triple.bind (hleaves.releaseLease _) fun _ => ?_
  refine Discipline.Triple.bind (getPeer_spec place) fun peer => ?_
  have hdeparts : Calmly (discipline condition) job (Departs place peer.connectionId) :=
    (departs_steadfast hqueue peer.connectionId).calmly
  refine .weaken (.bind (removeMember_spec hqueue peer.connectionId) fun removed => ?_)
    fun view hview _ => ⟨congrArg PeerState.connectionId hview.1, hview.2⟩
  refine Discipline.Triple.bind (maintains_getPeer place) fun peer => ?_
  refine Discipline.Triple.bind
    (hdeparts.setPeer fun _ => ⟨rfl, fun h => (by cases h), fun h => h⟩) fun _ => ?_
  refine Discipline.Triple.bind (endSession_spec hqueue _ _ _ endReason) fun _ => ?_
  exact .weaken (forgetPeer_spec hqueue) fun _ _ _ => trivial

theorem closeAndReset_spec (code : Nat) (reason : String) (endReason : PresenceSessionEndReason) :
    (discipline condition).Maintains job (fun _ => True)
      (closeAndReset services place code reason endReason) :=
  Discipline.Triple.bind (requestLeave_spec job place) fun _ =>
    .bind ((Steadfast.leaving job place).calmly.closePeer place code reason) fun _ =>
      resetState_spec hqueue endReason

theorem resetAndClose_spec (code : Nat) (reason : String) (endReason : PresenceSessionEndReason) :
    (discipline condition).Maintains job (fun _ => True)
      (resetAndClose services place code reason endReason) :=
  Discipline.Triple.bind (requestLeave_spec job place) fun _ =>
    .bind (resetState_spec hqueue endReason) fun _ => (calmly job).closePeer place code reason

theorem resetStopped_spec : (discipline condition).Triple job (fun view => Leaving view.state place)
      (resetStopped services place) fun _ _ => True :=
  .bind (maintains_getRoom place.room) fun _ => resetState_spec hqueue _

theorem rejectAuth_spec :
    (discipline condition).Maintains job (fun _ => True) (rejectAuth services place) :=
  Discipline.Triple.bind (requestLeave_spec job place) fun _ =>
    .bind (resetState_spec hqueue _) fun _ =>
      .bind ((calmly job).sendIgnoringFailure place _) fun _ => (calmly job).closePeer place _ _

end Reset

section Admission

theorem peers_setPeer (state : State) (place other : PeerRef) (update : PeerState → PeerState) :
    (state.setPeer place update).peers other =
      if other = place then update (state.peers place) else state.peers other := rfl

theorem leaving_setPeer (state : State) (place other : PeerRef) {update : PeerState → PeerState}
    (hupdate : ∀ peer : PeerState, (update peer).leaveRequested = peer.leaveRequested) :
    Leaving (state.setPeer place update) other ↔ Leaving state other := by
  unfold Leaving
  rw [peers_setPeer]
  refine or_congr_left (iff_of_eq (congrArg (· = true) ?_))
  split
  · next heq => exact heq ▸ hupdate _
  · rfl

variable (services) in
def Takes (place : PeerRef) (connectionId : Text) (view : RoomView) : Prop :=
  Undisputed services (.takes place connectionId) view ∧ .takes place connectionId ∈ view.trace

theorem takes_mark (job : Job) (place : PeerRef) (connectionId : Text) :
    (discipline condition).Triple job (fun _ => True)
      (Async.mark (.takes place connectionId) : RoomAsync Unit)
      fun _ => Takes services place connectionId := by
  refine Discipline.Triple.mark fun view _ hinv hholds => ?_
  have hundisputed := condition.undisputed (.takes place connectionId) view hinv trivial hholds
  have hstill : Still view { view with trace := view.trace ++ [.takes place connectionId] } := by
    refine .mark ?_ ?_
    · intro other connectionId hsame
      cases hsame
    · intro other connectionId hsame
      cases hsame
  refine ⟨⟨hundisputed, trivial⟩, hstill.allows job hinv, fun other hother hstores => ?_,
    mem_append_right _ mem_cons_self⟩
  exact hundisputed other hother (hstill.stores other connectionId hstores)

variable {place : PeerRef} (hqueue : job.queue = some (.peer place))
include hqueue

theorem takes_setPeer (connectionId : Text) {update : PeerState → PeerState}
    (hupdate : ∀ peer : PeerState, (update peer).connectionId = some connectionId ∧
      (update peer).joined = peer.joined ∧ (update peer).leaveRequested = peer.leaveRequested) :
    (discipline condition).Triple job (Takes services place connectionId) (setPeer place update)
      fun _ => Has place (some connectionId) := by
  refine .modify fun view hview hinv => ?_
  obtain ⟨hundisputed, htakes⟩ := hview
  have hleaving : ∀ other, Leaving (view.state.setPeer place update) other ↔
      Leaving view.state other :=
    fun other => leaving_setPeer view.state place other fun peer => (hupdate peer).2.2
  refine ⟨⟨⟨prefix_rfl, Nat.le_refl _, fun other => (hleaving other).mpr, .of_members rfl,
    fun other hother => ?_, fun _ _ => rfl⟩, ?_⟩, ?_⟩
  · rw [peers_setPeer, if_neg]
    intro hself
    exact hother (hself ▸ hqueue)
  · refine ⟨hinv.toRecords.later prefix_rfl (Nat.le_refl _) rfl rfl, fun other wanted hhas => ?_,
      hinv.stores, hinv.joins, fun other hjoined => ?_, fun other wanted hstores hlives rival hrival => ?_,
      fun other wanted hjoins hlives => ?_, fun other wanted hjoins hlives => ?_⟩
    · dsimp only at hhas
      rw [peers_setPeer] at hhas
      split at hhas
      · next heq =>
          rw [(hupdate _).1] at hhas
          cases hhas
          exact heq ▸ htakes
      · exact hinv.taken other wanted hhas
    · dsimp only at hjoined
      rw [peers_setPeer] at hjoined
      split at hjoined
      · next heq =>
          rw [(hupdate _).2.1] at hjoined
          exact heq ▸ hinv.joined place hjoined
      · exact hinv.joined other hjoined
    · have hbefore : ¬Leaving view.state other := fun hleaves => hlives ((hleaving other).mpr hleaves)
      dsimp only
      rw [peers_setPeer]
      split
      · next heq =>
          intro hsame
          rw [(hupdate _).1] at hsame
          cases hsame
          rw [heq] at hrival
          exact hbefore (hundisputed other ⟨hrival.1.symm, hrival.2.symm⟩ hstores)
      · exact hinv.sole other wanted hstores hbefore rival hrival
    · exact hinv.owned other wanted hjoins fun hleaves => hlives ((hleaving other).mpr hleaves)
    · exact hinv.published other wanted hjoins fun hleaves => hlives ((hleaving other).mpr hleaves)
  · dsimp only [Has]
    rw [peers_setPeer, if_pos rfl]
    exact (hupdate _).1

theorem retainAndGoOn_spec {goOn : RoomAsync Unit}
    (hgoOn : (discipline condition).Maintains job (fun _ => True) goOn) :
    (discipline condition).Maintains job (fun _ => True) (do
      if ← isStopped place then Presence.resetStopped services place
      else if ← retainFanout services place then
        if ← isStopped place then Presence.resetStopped services place
        else goOn
      else Presence.closeAndReset services place 1011 "Presence runtime unavailable" .peerLeft) := by
  have hstops : ∀ {goes : RoomAsync Unit}, (discipline condition).Maintains job (fun _ => True) goes →
      (discipline condition).Maintains job (fun _ => True) (do
        if ← isStopped place then Presence.resetStopped services place else goes) := by
    intro goes hgoes
    refine Discipline.Triple.bind (isStopped_spec job place) fun stopped => ?_
    split
    · next hstopped =>
        exact .weaken (resetStopped_spec hqueue) fun view hview _ => hview.1 hstopped
    · exact .weaken hgoes fun _ _ _ => trivial
  refine hstops (.bind ((calmly job).retainFanout fanoutSteady place) fun retained => ?_)
  split
  · exact hstops hgoOn
  · exact closeAndReset_spec hqueue _ _ _

omit hqueue in
theorem establish_spec (job : Job) (place : PeerRef) (auth : PresenceAuthPayload)
    (identity : PresenceIdentity) :
    (discipline condition).Maintains job (fun _ => True) (establish services place auth identity) :=
  .bind maintains_now fun _ =>
    .bind ((calmly job).setPeer fun _ => ⟨rfl, fun h => h, fun h => h⟩) fun _ =>
      .bind ((calmly job).persistSnapshot place) fun _ => (calmly job).sendIgnoringFailure place _

theorem admitPeer_spec (auth : PresenceAuthPayload) (identity : PresenceIdentity) :
    (discipline condition).Maintains job (fun _ => True) (admitPeer services place auth identity) := by
  refine Discipline.Triple.bind (isStopped_spec job place) fun stopped => ?_
  split
  · next hstopped =>
      exact .weaken (resetStopped_spec hqueue) fun view hview _ => hview.1 hstopped
  · refine .weaken (.bind (takes_mark job place _) fun _ => ?_) fun _ _ _ => trivial
    refine .bind (takes_setPeer hqueue _ fun _ => ⟨rfl, rfl, rfl⟩) fun _ => ?_
    refine .weaken (.bind ((calmly job).acquire _ _) fun admission => ?_) fun _ _ _ => trivial
    split
    · exact rejectAuth_spec hqueue
    · exact closeAndReset_spec hqueue _ _ _
    · refine .bind ((calmly job).setPeer fun _ => ⟨rfl, fun h => h, fun h => h⟩) fun _ => ?_
      exact retainAndGoOn_spec hqueue (establish_spec job place auth identity)

omit hqueue in
theorem authenticate_spec (message : MessageId) (envelope : PresenceEnvelope) :
    (discipline condition).Maintains (.authenticate message) (fun _ => True)
      (authenticate services message envelope) := by
  refine .bind (plain (.authenticate message) rfl) fun _ => ?_
  split
  · exact rejectAuth_spec rfl
  · split
    · exact rejectAuth_spec rfl
    · refine .bind ((calmly _).authorize _ _ _ _) fun answer => ?_
      split
      · exact admitPeer_spec rfl _ _
      · exact rejectAuth_spec rfl

omit hqueue in
theorem reestablish_spec (job : Job) (place : PeerRef) :
    (discipline condition).Maintains job (fun _ => True) (reestablish services place) := by
  refine .bind maintains_now fun time => ?_
  refine .bind ((calmly job).setPeer fun _ => ⟨rfl, fun h => h, fun h => h⟩) fun _ => ?_
  refine .bind (maintains_getPeer place) fun peer => ?_
  split
  · exact (calmly job).setPeer fun _ => ⟨rfl, fun h => h, fun h => h⟩
  · exact .pure

omit hqueue in
theorem Inv.mark {view : RoomView} {step : Mark} (hinv : Inv services view)
    (hundisputed : Undisputed services step view)
    (hstored : ∀ place connectionId, .stores place connectionId = step → Has place (some connectionId) view)
    (hjoined : ∀ place connectionId, .joins place connectionId = step →
      Secured services place connectionId view) :
    Inv services { view with trace := view.trace ++ [step] } := by
  have hgrows : view.trace <+: view.trace ++ [step] := prefix_append _ _
  have hmarks {other : Mark} (hmem : other ∈ view.trace ++ [step]) : other ∈ view.trace ∨ other = step :=
    (mem_append.mp hmem).imp_right mem_singleton.mp
  refine ⟨hinv.toRecords.later hgrows (Nat.le_refl _) rfl rfl, fun other wanted hother =>
    hgrows.subset (hinv.taken other wanted hother), fun other wanted hmem => ?_, fun other wanted hmem => ?_,
    fun other hother => ?_, fun other wanted hmem hlives rival hrival => ?_,
    fun other wanted hmem hlives => ?_, fun other wanted hmem hlives => ?_⟩
  · cases hmarks hmem with
    | inl hold => exact hgrows.subset (hinv.stores other wanted hold)
    | inr hnew => exact hgrows.subset (hinv.taken other wanted (hstored other wanted hnew))
  · cases hmarks hmem with
    | inl hold => exact hgrows.subset (hinv.joins other wanted hold)
    | inr hnew => exact hgrows.subset (hjoined other wanted hnew).1
  · obtain ⟨wanted, hmem⟩ := hinv.joined other hother
    exact ⟨wanted, hgrows.subset hmem⟩
  · cases hmarks hmem with
    | inl hold => exact hinv.sole other wanted hold hlives rival hrival
    | inr hnew =>
      rw [← hnew] at hundisputed
      exact hundisputed rival hrival
  · cases hmarks hmem with
    | inl hold => exact hinv.owned other wanted hold hlives
    | inr hnew => exact (hjoined other wanted hnew).2.resolve_left hlives
  · cases hmarks hmem with
    | inl hold => exact hinv.published other wanted hold hlives
    | inr hnew =>
      rw [← hnew] at hundisputed
      exact hundisputed

omit hqueue in
theorem stores_mark (job : Job) (place : PeerRef) (connectionId : Text) :
    (discipline condition).Triple job (Has place (some connectionId))
      (Async.mark (.stores place connectionId) : RoomAsync Unit) fun _ view =>
        Has place (some connectionId) view ∧ .stores place connectionId ∈ view.trace := by
  refine Discipline.Triple.mark fun view hhas hinv hholds => ?_
  have hundisputed := condition.undisputed (.stores place connectionId) view hinv hhas hholds
  refine ⟨⟨hundisputed, trivial⟩, ⟨⟨prefix_append _ _, Nat.le_refl _, fun _ h => h, .of_members rfl,
    fun _ _ => rfl, fun _ _ => rfl⟩, hinv.mark hundisputed ?_ nofun⟩, hhas,
    mem_append_right _ mem_cons_self⟩
  intro other wanted hsame
  cases hsame
  exact hhas

omit hqueue in
theorem joins_mark (job : Job) (place : PeerRef) (connectionId : Text) :
    (discipline condition).Triple job (Secured services place connectionId)
      (Async.mark (.joins place connectionId) : RoomAsync Unit)
      fun _ view => .joins place connectionId ∈ view.trace := by
  refine Discipline.Triple.mark fun view hsecured hinv hholds => ?_
  have hundisputed := condition.undisputed (.joins place connectionId) view hinv hsecured.1 hholds
  refine ⟨⟨hundisputed, trivial⟩, ⟨⟨prefix_append _ _, Nat.le_refl _, fun _ h => h, .of_members rfl,
    fun _ _ => rfl, fun _ _ => rfl⟩, hinv.mark hundisputed nofun ?_⟩,
    mem_append_right _ mem_cons_self⟩
  intro other wanted hsame
  cases hsame
  exact hsecured

omit hqueue in
theorem joined_setPeer (job : Job) (place : PeerRef) (connectionId : Text) :
    (discipline condition).Triple job (fun view => .joins place connectionId ∈ view.trace)
      (setPeer place fun peer => { peer with joined := true }) fun _ _ => True := by
  refine .modify fun view hjoins hinv => ?_
  let joined : PeerState → PeerState := fun peer => { peer with joined := true }
  have hsame : ∀ other, ((view.state.setPeer place joined).peers other).connectionId =
      (view.state.peers other).connectionId := by
    intro other
    rw [peers_setPeer]
    split
    · next heq => rw [heq]
    · rfl
  have hleaving : ∀ other, Leaving (view.state.setPeer place joined) other ↔
      Leaving view.state other :=
    fun other => leaving_setPeer view.state place other fun _ => rfl
  refine ⟨⟨⟨prefix_rfl, Nat.le_refl _, fun other => (hleaving other).mpr, .of_members rfl,
    fun other _ => hsame other, fun _ _ => rfl⟩, ?_⟩, trivial⟩
  refine ⟨hinv.toRecords.later prefix_rfl (Nat.le_refl _) rfl rfl, fun other wanted hhas =>
    hinv.taken other wanted ((hsame other).symm.trans hhas), hinv.stores, hinv.joins,
    fun other hjoined => ?_, fun other wanted hstores hlives rival hrival hhas => ?_,
    fun other wanted hjoins hlives => ?_, fun other wanted hjoins hlives => ?_⟩
  · by_cases heq : other = place
    · rw [heq]
      exact ⟨connectionId, hjoins⟩
    · refine hinv.joined other ?_
      have hjoined : ((view.state.setPeer place joined).peers other).joined = true := hjoined
      rw [peers_setPeer, if_neg heq] at hjoined
      exact hjoined
  · exact hinv.sole other wanted hstores (fun hleaves => hlives ((hleaving other).mpr hleaves)) rival
      hrival ((hsame rival).symm.trans hhas)
  · exact hinv.owned other wanted hjoins fun hleaves => hlives ((hleaving other).mpr hleaves)
  · exact hinv.published other wanted hjoins fun hleaves => hlives ((hleaving other).mpr hleaves)

omit hqueue in
theorem adopt_spec (job : Job) (place : PeerRef) (connectionId : Text) :
    (discipline condition).Triple job
      (fun view => Has place (some connectionId) view ∧ .stores place connectionId ∈ view.trace)
      (Async.modify fun all => all.adopt (services.roomId place.room) connectionId place :
        RoomAsync Unit)
      fun _ => Secured services place connectionId := by
  refine .modify fun view hview hinv => ?_
  have hrenews : Renews services view (services.roomId place.room)
      (view.state.adopt (services.roomId place.room) connectionId place) := by
    refine ⟨_, rfl, Renewal.adopt (hinv.fit _) ⟨rfl, hinv.stores _ _ hview.2⟩
      fun other hroom hstores hlives => ?_⟩
    by_contra hother
    exact hinv.sole other connectionId hstores hlives place ⟨hother, hroom.symm⟩ hview.1
  refine ⟨hrenews.allows hinv job, hview.2, .inr fun stored hstored hkey => ?_⟩
  dsimp only [State.adopt] at hstored
  rw [setMembers_members] at hstored
  obtain ⟨old, hold, heq⟩ := mem_map.mp hstored
  rw [← heq] at hkey ⊢
  split
  · rfl
  · next hdiff =>
      rw [if_neg hdiff] at hkey
      exact absurd hkey hdiff

omit hqueue in
theorem resumeJoined_spec (job : Job) (place : PeerRef) (resumed : PresenceRoomResumeState) :
    (discipline condition).Triple job (Has place (some resumed.connectionId))
      (resumeJoined services place resumed) fun _ _ => True := by
  unfold Presence.resumeJoined
  split
  · refine .bind (stores_mark job place _) fun _ => .bind (adopt_spec job place _) fun _ => ?_
    exact .bind (joins_mark job place _) fun _ => joined_setPeer job place _
  · refine .weaken ((calmly job).setPeer fun _ => ⟨rfl, fun h => (by cases h), fun h => h⟩) ?_
    exact fun _ _ _ => trivial

theorem readmitPeer_spec (resumed : PresenceRoomResumeState) (identity : PresenceIdentity) :
    (discipline condition).Maintains job (fun _ => True)
      (readmitPeer services place resumed identity) := by
  refine Discipline.Triple.bind (takes_mark job place _) fun _ => ?_
  refine .bind (takes_setPeer hqueue _ fun _ => ⟨rfl, rfl, rfl⟩) fun _ => ?_
  refine .bind (resumeJoined_spec job place resumed) fun _ => ?_
  refine .bind ((calmly job).acquire _ _) fun admission => ?_
  split
  · exact closeAndReset_spec hqueue _ _ _
  · exact closeAndReset_spec hqueue _ _ _
  · refine .bind ((calmly job).setPeer fun _ => ⟨rfl, fun h => h, fun h => h⟩) fun _ => ?_
    exact retainAndGoOn_spec hqueue (reestablish_spec job place)

omit hqueue in
theorem resumeSession_spec (place : PeerRef) (resumed : PresenceRoomResumeState) :
    (discipline condition).Maintains (.resume place) (fun _ => True)
      (resumeSession services place resumed) := by
  refine .bind ((calmly _).refreshSession _ _) fun answer => ?_
  split
  · exact closeAndReset_spec rfl _ _ _
  · refine Discipline.Triple.bind (isStopped_spec _ place) fun stopped => ?_
    split
    · next hstopped =>
        exact .weaken (resetStopped_spec rfl) fun view hview _ => hview.1 hstopped
    · refine .weaken ?_ fun _ _ _ => trivial
      split
      · split
        · exact readmitPeer_spec rfl resumed _
        · exact closeAndReset_spec rfl _ _ _
      · exact closeAndReset_spec rfl _ _ _

theorem refreshAuthorizationForMessage_spec : (discipline condition).Maintains job (fun _ => True)
      (refreshAuthorizationForMessage services place) := by
  refine .bind maintains_now fun time => .bind (maintains_getPeer place) fun peer => ?_
  split
  · exact .bind (calmly job).yield fun _ => .pure
  · split
    · refine .bind ((calmly job).refreshSession _ _) fun answer => ?_
      split
      · exact .bind (resetAndClose_spec hqueue _ _ _) fun _ => .pure
      · refine .bind (maintains_isPeerLive place) fun live => ?_
        split
        · exact .pure
        · split
          · refine .bind maintains_now fun time => ?_
            refine .bind ((calmly job).setPeer fun _ => ⟨rfl, fun h => h, fun h => h⟩) fun _ => ?_
            exact .bind ((calmly job).persistSnapshot place) fun _ => .pure
          · exact .bind (resetAndClose_spec hqueue _ _ _) fun _ => .pure
    · exact .pure

end Admission

section Expired

variable {queue : Queue} (hqueue : job.queue = some queue)
include hqueue

theorem setLapsing_allows {view : RoomView} {lapsed : List LapsedMember} (hinv : Inv services view)
    (hlapsed : ∀ one ∈ lapsed, one ∈ view.state.lapsing queue) :
    (discipline condition).Allows job view
      { view with state := view.state.setLapsing queue lapsed } := by
  refine Quiet.allows ?_ hinv (fun _ _ => rfl) fun other hother => if_neg ?_
  · refine ⟨prefix_rfl, fun _ _ h => h, fun _ _ h => h, Nat.le_refl _, fun _ h => h, fun _ h => h,
      fun _ _ h => h, fun roomId => .refl (hinv.fit roomId), fun other one hone => .inl ?_⟩
    dsimp only [State.setLapsing] at hone
    split at hone
    · next heq => exact heq ▸ hlapsed one hone
    · exact hone
  · intro hself
    exact hother (hself ▸ hqueue)

theorem listMembers_spec (roomId : Text) :
    (discipline condition).Triple job (fun _ => True) (listMembers roomId queue)
      fun answer view => ∀ page, answer = some page →
        (∀ one ∈ page.2, one.roomId = roomId) ∧ view.state.lapsing queue = page.2 := by
  refine Discipline.Triple.call (Steadfast.trivial job).stable
    (fun view _ hinv choice answer after hserve => ?_) fun answer => ?_
  · have hrenews : Renews services view roomId (view.state.storeCall roomId choice fun state =>
        (state.page roomId, state.drop roomId fun _ => true)).2 :=
      Renews.storeCall hinv choice fun items hfit => by
        refine ⟨_, setMembers_setMembers _ _ _ _, ?_⟩
        rw [setMembers_members]
        refine Renewal.filter hfit fun stored hlive => ?_
        exact (Bool.or_eq_true _ _).mpr (.inl (decide_eq_true hlive))
    have hanswer : (view.state.storeCall roomId choice fun state =>
        (state.page roomId, state.drop roomId fun _ => true)).1 = answer :=
      congrArg Prod.fst (Option.some.inj hserve)
    have hafter : _ = after := congrArg Prod.snd (Option.some.inj hserve)
    dsimp only at hafter
    rw [hanswer] at hafter
    cases answer with
    | none =>
      rw [← hafter]
      exact ⟨hrenews.allows hinv job, fun page hpage => by cases hpage⟩
    | some page =>
      have hpage : (view.state.drop roomId choice.drops).page roomId = page := by
        unfold State.storeCall at hanswer
        dsimp only at hanswer
        split at hanswer
        · cases hanswer
        · exact Option.some.inj hanswer
      have hread : ∀ one ∈ page.2, ∃ stored ∈ view.state.members roomId,
          State.lapsedMember roomId stored = one := by
        intro one hone
        rw [← hpage] at hone
        obtain ⟨stored, hstored, heq⟩ := mem_map.mp hone
        have hmem := (mem_filter.mp hstored).1
        dsimp only [State.drop] at hmem
        rw [setMembers_members] at hmem
        exact ⟨stored, (mem_filter.mp hmem).1, heq⟩
      have hrooms : ∀ one ∈ page.2, one.roomId = roomId := by
        intro one hone
        obtain ⟨stored, -, heq⟩ := hread one hone
        rw [← heq]
        rfl
      have hquiet := hrenews.quiet hinv
      rw [← hafter]
      obtain ⟨others, hothers, -⟩ := hrenews
      rw [hothers] at hquiet ⊢
      refine ⟨Quiet.allows { hquiet with lapsing := fun other one hone => ?_ } hinv (fun _ _ => rfl)
        fun other hother => if_neg ?_, fun other hother => ?_⟩
      · dsimp only [State.setLapsing] at hone
        split at hone
        · obtain ⟨stored, hstored, heq⟩ := hread one hone
          refine .inr ⟨stored, ?_, ?_⟩
          · rw [hrooms one hone]
            exact hstored
          · rw [hrooms one hone]
            exact heq
        · exact .inl hone
      · intro hself
        exact hother (hself ▸ hqueue)
      · cases hother
        exact ⟨hrooms, if_pos rfl⟩
  · exact Steadfast.stable fun first second hfirst hrely page hpage =>
      (hfirst page hpage).imp_right fun hlapsing => (hrely.lapsing queue hqueue).trans hlapsing

theorem publishExpired_spec (room : Nat) (expired : List LapsedMember)
    (hrooms : ∀ one ∈ expired, one.roomId = services.roomId room) :
    (discipline condition).Triple job (fun view => view.state.lapsing queue = expired)
      (publishExpired services room queue expired) fun _ _ => True := by
  induction expired with
  | nil => exact .pure fun _ _ _ => trivial
  | cons first rest ih =>
    have hsteadfast : Steadfast services job fun view => view.state.lapsing queue = rest :=
      Steadfast.lapsing hqueue rest
    have htakes : (discipline condition).Triple job
        (fun view => view.state.lapsing queue = first :: rest)
        (Async.modify fun state => state.setLapsing queue rest : RoomAsync Unit) fun _ view =>
          OwnLeave services (.leaves (services.roomId room) first.connectionId first.owner) view ∧
            view.state.lapsing queue = rest := by
      refine .modify fun view hlapsing hinv => ⟨setLapsing_allows hqueue hinv ?_, ?_, if_pos rfl⟩
      · intro one hone
        rw [hlapsing]
        exact mem_cons_of_mem _ hone
      · intro place hroom hjoins hlives
        refine hinv.published place _ hjoins hlives queue first ?_ ?_ rfl
        · rw [hlapsing]
          exact mem_cons_self
        · rw [hrooms first mem_cons_self]
          exact hroom.symm
    refine .bind htakes fun _ => .bind (.bind ?_ fun _ => hsteadfast.calmly.publish _)
      fun published => ?_
    · refine Discipline.Triple.mark fun view hview hinv _ => ?_
      have hstill : Still view { view with trace := view.trace ++
          [.leaves (services.roomId room) first.connectionId first.owner] } := by
        refine .mark ?_ ?_
        · intro other connectionId hsame
          cases hsame
        · intro other connectionId hsame
          cases hsame
      exact ⟨⟨trivial, hview.1⟩, hstill.allows job hinv,
        hsteadfast view _ hview.2 (hstill.rely hinv _)⟩
    · split
      · exact ih fun one hone => hrooms one (mem_cons_of_mem _ hone)
      · have hclears : (discipline condition).Triple job (fun view => view.state.lapsing queue = rest)
            (Async.modify fun state => state.setLapsing queue [] : RoomAsync Unit)
            fun _ _ => True :=
          .modify fun view _ hinv => ⟨setLapsing_allows hqueue hinv fun _ hnone => (by cases hnone), trivial⟩
        exact .bind hclears fun _ => .pure fun _ _ _ => trivial

end Expired

end Softmaple.Presence.OwnRecords
