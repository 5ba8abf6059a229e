import Softmaple.Presence.RecordCleanup

/-!
The messages, the sweeps and the calls of the rooms, for the records of the
store, and what follows for whole runs.
-/
namespace Softmaple.Presence.OwnRecords

open Json KeyedList AsyncTasks
open CollabHost (PresenceIdentity)

variable {services : PresenceServices} {condition : Condition services} {job : Job}

section Messages

variable (message : MessageId)

/-- Work that needs nothing. -/
theorem forgets {β : Type} {pre : RoomView → Prop} {function : RoomAsync β}
    (hfunction : (discipline condition).Maintains job (fun _ => True) function) :
    (discipline condition).Triple job pre function fun _ _ => True :=
  .weaken hfunction fun _ _ _ => trivial

theorem announceJoin_spec (connectionId : Text) (member : PresenceMemberRecord) :
    (discipline condition).Triple (.message message) (Secured services message.state connectionId)
      (announceJoin services message.state connectionId member) fun _ _ => True := by
  have hsecured : Calmly (discipline condition) (.message message)
      (Secured services message.state connectionId) := (Steadfast.secured _ _ _).calmly
  refine Discipline.Triple.bind (hsecured.refreshLease message.state true) fun alive => ?_
  split
  · exact forgets (resetAndClose_spec rfl _ _ _)
  · exact forgets (resetAndClose_spec rfl _ _ _)
  · refine .bind (joins_mark _ message.state connectionId) fun _ => ?_
    refine .bind (joined_setPeer _ message.state connectionId) fun _ => ?_
    refine .bind ((calmly _).persistSnapshot message.state) fun _ => ?_
    refine .bind ((calmly _).setPeer fun _ => ⟨rfl, fun h => h, fun h => h⟩) fun _ => ?_
    refine .bind ((calmly _).publish _) fun published => ?_
    split
    · exact .pure fun _ _ _ => trivial
    · exact resetAndClose_spec rfl _ _ _

theorem setMember_spec (member : PresenceMemberRecord) :
    (discipline condition).Triple (.message message)
      (fun view => Has message.state (some member.connectionId) view ∧
        .stores message.state member.connectionId ∈ view.trace)
      (setMember (services.roomId message.state.room) member message) fun answer view =>
        answer = some () → Secured services message.state member.connectionId view := by
  have hstored : Steadfast services (.message message) fun view =>
      Has message.state (some member.connectionId) view ∧
        .stores message.state member.connectionId ∈ view.trace :=
    (Steadfast.has rfl _).and (Steadfast.passed _ _)
  refine .consequence (hstored.store (services.roomId message.state.room) (fun answer => ?_)
    fun view hview hinv choice answer after hserve => ?_) (fun _ hview _ => hview)
    fun answer view hview _ => hview.1
  · exact fun first second hfirst hrely hanswer =>
      Steadfast.secured _ _ _ first second (hfirst hanswer) hrely
  · obtain ⟨hrenews, howned⟩ := setMember_renews hinv hview.1 hserve
    exact ⟨hrenews, fun hanswer => ⟨hview.2, .inr (howned hanswer)⟩⟩

theorem receiveJoin_spec : (discipline condition).Maintains (.message message) (fun _ => True)
      (receiveJoin services message) := by
  refine Discipline.Triple.bind (getPeer_spec message.state) fun peer => ?_
  split
  · exact forgets (closeAndReset_spec rfl _ _ _)
  · split
    · next identity connectionId hidentity hconnectionId =>
        have hnow : (discipline condition).Triple (.message message)
            (fun view => view.state.peers message.state = peer ∧ True) now
            fun _ => Has message.state (some connectionId) := by
          refine .consequence maintains_now (fun _ hview _ => hview) fun _ view hview _ => ?_
          rw [Has, hview.1]
          exact hconnectionId
        refine .bind hnow fun time => ?_
        split
        · exact forgets (resetAndClose_spec rfl _ _ _)
        · next member hmember =>
            have hkey := services.codec.createMember_connectionId hmember
            rw [← hkey]
            refine .bind (stores_mark _ message.state _) fun _ => ?_
            refine .bind (setMember_spec message member) fun stored => ?_
            split
            · exact forgets (resetAndClose_spec rfl _ _ _)
            · exact .weaken (announceJoin_spec message _ member) fun view hview _ => hview rfl
    · exact .pure fun _ _ _ => trivial

theorem receiveSync_spec : (discipline condition).Maintains (.message message) (fun _ => True)
      (receiveSync services message.state) := by
  refine Discipline.Triple.bind (listMembers_spec rfl _) fun answer => ?_
  split
  · exact forgets (resetAndClose_spec rfl _ _ _)
  · next members expired =>
      have hpublishes : (discipline condition).Triple (.message message)
          (fun view => ∀ page, some (members, expired) = some page →
            (∀ one ∈ page.2, one.roomId = services.roomId message.state.room) ∧
              view.state.lapsing (.peer message.state) = page.2)
          (publishExpired services message.state.room (.peer message.state) expired)
          fun _ _ => True := by
        intro next known view hview hinv hnext
        obtain ⟨hrooms, hlapsing⟩ := hview _ rfl
        exact publishExpired_spec rfl message.state.room expired hrooms next known view hlapsing hinv
          hnext
      refine .bind hpublishes fun published => ?_
      split
      · exact (calmly _).sendIgnoringFailure message.state _
      · exact resetAndClose_spec rfl _ _ _

theorem receiveHeartbeat_spec (envelope : PresenceEnvelope) :
    (discipline condition).Maintains (.message message) (fun _ => True)
      (receiveHeartbeat services message.state envelope) := by
  unfold Presence.receiveHeartbeat
  split
  · exact resetAndClose_spec rfl _ _ _
  · refine .bind (maintains_getPeer message.state) fun peer => ?_
    split
    · exact .pure
    · refine .bind ((calmly _).refreshLease message.state false) fun lease => ?_
      split
      · exact resetAndClose_spec rfl _ _ _
      · refine .bind ((Steadfast.trivial _).call (services.roomId message.state.room)
          fun view _ hinv _ _ _ hserve => refreshMember_renews hinv hserve) fun alive => ?_
        split
        · exact resetAndClose_spec rfl _ _ _
        · refine .bind (maintains_getPeer message.state) fun peer => ?_
          split
          · exact resetAndClose_spec rfl _ _ _
          · exact (calmly _).sendIgnoringFailure message.state _

theorem announceUpdate_spec (connectionId : Text) (patch : PresencePatch) (updates : Json .value)
    (userId : Text) :
    (discipline condition).Maintains (.message message) (fun _ => True)
      (announceUpdate services message.state connectionId patch updates userId) := by
  refine .bind ((calmly _).refreshLease message.state true) fun alive => ?_
  split
  · exact resetAndClose_spec rfl _ _ _
  · exact resetAndClose_spec rfl _ _ _
  · refine .bind ((calmly _).publish _) fun published => ?_
    split
    · exact .pure
    · exact resetAndClose_spec rfl _ _ _

theorem applyUpdate_spec (userId : Text) (current : StoredMember) (patch : PresencePatch) :
    (discipline condition).Triple (.message message)
      (Has message.state (some current.member.connectionId))
      (applyUpdate services message current.member.connectionId userId current patch)
      fun _ _ => True := by
  have hhas : Steadfast services (.message message)
      (Has message.state (some current.member.connectionId)) := Steadfast.has rfl _
  unfold Presence.applyUpdate
  split
  · exact forgets (plain _ rfl)
  · split
    · exact forgets (resetAndClose_spec rfl _ _ _)
    · refine .bind maintains_now fun time => ?_
      split
      · exact forgets (resetAndClose_spec rfl _ _ _)
      · next updates member happlies =>
          have hkey := services.codec.applyPatch_connectionId happlies
          refine .bind (hhas.call (services.roomId message.state.room)
            fun view hview hinv _ _ _ hserve => (setMember_renews hinv ?_ hserve).1) fun stored => ?_
          · rw [hkey]
            exact hview
          · split
            · exact forgets (resetAndClose_spec rfl _ _ _)
            · exact forgets (announceUpdate_spec message _ _ _ _)

theorem getMember_spec (connectionId : Text) :
    (discipline condition).Triple (.message message) (Has message.state (some connectionId))
      (getMember (services.roomId message.state.room) connectionId) fun found view =>
        (∀ stored, found = some (some stored) → stored.member.connectionId = connectionId) ∧
          Has message.state (some connectionId) view :=
  (Steadfast.has rfl _).store (services.roomId message.state.room)
    (fun _ _ _ hfirst _ => hfirst) fun _ _ hinv _ _ _ hserve => getMember_renews hinv hserve

theorem receiveUpdate_spec (envelope : PresenceEnvelope) :
    (discipline condition).Maintains (.message message) (fun _ => True)
      (receiveUpdate services message envelope) := by
  refine Discipline.Triple.bind (getPeer_spec message.state) fun peer => ?_
  split
  · next connectionId identity hconnectionId hidentity =>
      have hhas : ∀ view : RoomView, view.state.peers message.state = peer ∧ True → Inv services view →
          Has message.state (some connectionId) view := by
        intro view hview _
        rw [Has, hview.1]
        exact hconnectionId
      refine .weaken (.bind (getMember_spec message connectionId) fun found => ?_) hhas
      refine .assume fun hfound => ?_
      split
      · exact forgets (resetAndClose_spec rfl _ _ _)
      · split
        · exact forgets (resetAndClose_spec rfl _ _ _)
        · next current hcurrent =>
            split
            · exact forgets (resetAndClose_spec rfl _ _ _)
            · have hkey := hfound current (congrArg some (Option.filter_eq_some_iff.mp hcurrent).1)
              rw [← hkey]
              exact applyUpdate_spec message _ current _
  · exact .pure fun _ _ _ => trivial

theorem dispatch_spec (kind : PresenceMessageKind) (envelope : PresenceEnvelope) :
    (discipline condition).Maintains (.message message) (fun _ => True)
      (dispatch services message kind envelope) := by
  refine .bind (plain _ rfl) fun _ => ?_
  cases kind with
  | join => exact receiveJoin_spec message
  | sync => exact receiveSync_spec message
  | heartbeat => exact receiveHeartbeat_spec message envelope
  | update => exact receiveUpdate_spec message envelope
  | leave => exact closeAndReset_spec rfl _ _ _
  | auth => exact .pure

end Messages

section Jobs

section

variable {begins : RoomView → Prop} (hbegins : ∀ job, Steadfast services job begins)
include hbegins

theorem perform_spec {other : Job} {work : RoomAsync Unit}
    (hwork : (discipline condition).Triple other begins work fun _ _ => True) :
    (discipline condition).Maintains job begins (Async.perform other work) := by
  refine Discipline.Triple.perform (fun first second hfirst _ hlater _ =>
    hbegins .call first second hfirst hlater.1) (Steadfast.body hwork) (fun view hview hinv => ?_)
    (hbegins job).stable
  have hstill : Still view (view.push other.queue other) := .lanes view _
  have hafter : begins (view.push other.queue other) := hbegins job view _ hview (hstill.rely hinv _)
  exact ⟨hstill.allows job hinv, hafter, trivial, hafter⟩

theorem detach_spec {other : Job} {work : RoomAsync Unit}
    (hwork : (discipline condition).Triple other begins work fun _ _ => True) :
    (discipline condition).Maintains job begins (Async.detach other work) := by
  refine Discipline.Triple.detach (fun first second hfirst _ hlater _ =>
    hbegins .call first second hfirst hlater.1) (Steadfast.body hwork) fun view hview hinv => ?_
  have hstill : Still view (view.push other.queue other) := .lanes view _
  have hafter : begins (view.push other.queue other) := hbegins job view _ hview (hstill.rely hinv _)
  exact ⟨hstill.allows job hinv, hafter, hafter⟩

theorem all_spec {jobs : List (Job × RoomAsync Unit)}
    (hworks : ∀ made ∈ jobs, (discipline condition).Triple made.1 begins made.2 fun _ _ => True) :
    (discipline condition).Maintains job begins (Async.all jobs) := by
  have hall : (discipline condition).Triple job (fun view => begins view ∧ begins view)
      (Async.all jobs) fun _ => begins := by
    refine Discipline.Triple.all (fun first second hfirst _ hlater _ =>
      hbegins .call first second hfirst hlater.1) (hbegins job).stable
      (fun made hmade => Steadfast.body (hworks made hmade)) (fun made _ view hview _ hinv => ?_)
      fun _ _ _ _ => trivial
    have hstill : Still view (view.push made.1.queue made.1) := .lanes view _
    have hafter : begins (view.push made.1.queue made.1) :=
      hbegins job view _ hview (hstill.rely hinv _)
    exact ⟨hstill.allows job hinv, hafter, hafter⟩
  exact .weaken hall fun _ hview _ => ⟨hview, hview⟩

end

theorem enqueueReset_spec (place : PeerRef) (endReason : PresenceSessionEndReason) :
    (discipline condition).Triple job (fun view => Leaving view.state place)
      (enqueue (.reset place) (resetState services place true endReason)) fun _ _ => True :=
  .consequence (perform_spec (fun job => Steadfast.leaving job place) (resetState_spec rfl endReason))
    (fun _ hview _ => hview) fun _ _ _ _ => trivial

theorem closings_spec (places : List PeerRef) (code : Nat) (reason : String)
    (endReason : PresenceSessionEndReason) :
    (discipline condition).Triple job (fun view => ∀ place ∈ places, Leaving view.state place)
      (Async.all (places.map (closing services code reason endReason))) fun _ _ => True := by
  have hbegins : ∀ job, Steadfast services job fun view => ∀ place ∈ places, Leaving view.state place :=
    fun _ _ _ hleaves hrely place hplace => hrely.leaving place (hleaves place hplace)
  refine .consequence (all_spec hbegins fun made hmade => ?_) (fun _ hview _ => hview)
    fun _ _ _ _ => trivial
  obtain ⟨place, hplace, rfl⟩ := List.mem_map.mp hmade
  refine .weaken ?_ fun view hview _ => hview place hplace
  exact .bind ((Steadfast.leaving (.closing place) place).calmly.closePeer place code reason)
    fun _ => enqueueReset_spec place endReason

theorem requestLeaves_spec (places : List PeerRef) :
    (discipline condition).Triple job (fun _ => True) (requestLeaves places)
      fun _ view => ∀ place ∈ places, Leaving view.state place := by
  refine .modify fun view hview hinv => ?_
  refine ⟨((calmly job).calm view _ hview hinv (State.Calm.requestLeaves places view.state)).1, ?_⟩
  exact fun place hplace =>
    .inl (State.leaveRequested_requestLeaves places view.state place hplace)

theorem sweepLocked_spec (room time : Nat) (callingPeer caller : Option PeerRef) :
    (discipline condition).Maintains (.maintenance room caller) (fun _ => True)
      (sweepLocked services room time callingPeer) := by
  refine .bind .get fun all => .bind (plain _ rfl) fun _ => ?_
  refine Discipline.Triple.bind (requestLeaves_spec _) fun _ => .bind (closings_spec _ _ _ _) fun _ => ?_
  refine .bind (listMembers_spec rfl _) fun answer => ?_
  split
  · exact .pure fun _ _ _ => trivial
  · next members lapsed =>
      intro next known view hview hinv hnext
      obtain ⟨hrooms, hlapsing⟩ := hview _ rfl
      have hpublishes : (discipline condition).Triple (.maintenance room caller)
          (fun view => view.state.lapsing (.maintenance room) = lapsed)
          (publishExpired services room (.maintenance room) lapsed) fun _ _ => True :=
        publishExpired_spec rfl room lapsed hrooms
      exact Discipline.Triple.bind hpublishes (fun _ => .pure fun _ _ _ => trivial) next known view
        hlapsing hinv hnext

theorem maintenance_spec (room : Nat) (caller : Option PeerRef) {work : RoomAsync Unit}
    (hwork : (discipline condition).Maintains (.maintenance room caller) (fun _ => True) work) :
    (discipline condition).Maintains job (fun _ => True)
      (withMessageMaintenanceLock room caller work) :=
  perform_spec Steadfast.trivial hwork

theorem maintain_spec (place : PeerRef) :
    (discipline condition).Maintains job (fun _ => True) (maintain services place) := by
  refine .bind (maintenance_spec place.room (some place) ?_) fun _ => plain job rfl
  exact .bind maintains_now fun time => sweepLocked_spec _ _ _ _

theorem processMessage_keeps (message : MessageId) (kind : PresenceMessageKind)
    (envelope : PresenceEnvelope) :
    (discipline condition).Maintains (.message message) (fun _ => True)
      (processMessage services message kind envelope) := by
  refine .bind (maintains_isPeerLive message.state) fun live => ?_
  split
  · refine .bind (refreshAuthorizationForMessage_spec rfl) fun goes => ?_
    split
    · refine .bind (maintains_isPeerLive message.state) fun live => ?_
      split
      · split
        · refine .bind (plain _ rfl) fun _ => .bind ((calmly _).rearmHeartbeat message.state) fun _ => ?_
          refine .bind (maintain_spec message.state) fun _ =>
            .bind (maintains_isPeerLive message.state) fun live => ?_
          split
          · exact dispatch_spec message kind envelope
          · exact .pure
        · exact .bind ((calmly _).rearmHeartbeat message.state) fun _ =>
            dispatch_spec message kind envelope
      · exact .pure
    · exact .pure
  · exact .pure

theorem calling : Calling (discipline condition) (fun _ _ => True)
    fun place view => Leaving view.state place where
  calmly := calmly .call
  calm _ view _ _ hinv hcalm := (calmly .call).calm view _ trivial hinv hcalm
  persisted _ := plain .call rfl
  message message kind envelope :=
    perform_spec Steadfast.trivial (processMessage_keeps message kind envelope)
  authenticate message envelope := perform_spec Steadfast.trivial (authenticate_spec message envelope)
  resume place resumed := perform_spec Steadfast.trivial (resumeSession_spec place resumed)
  asks _ _ hasked := .inl hasked
  stays place := (Steadfast.leaving .call place).calmly.toRoutinely
  reset place endReason := enqueueReset_spec place endReason
  detached place endReason :=
    .consequence (detach_spec (fun job => Steadfast.leaving job place) (resetState_spec rfl endReason))
      (fun _ hview _ => hview) fun _ _ _ _ => trivial
  sends recipients frame := by
    refine all_spec Steadfast.trivial fun made hmade => ?_
    obtain ⟨place, -, rfl⟩ := List.mem_map.mp hmade
    exact .bind ((calmly .sending).callOutside fun choice _ => ⟨choice, rfl⟩) fun _ => .pure fun _ _ _ => trivial
  closes places code reason endReason := closings_spec places code reason endReason
  sweep room time := maintenance_spec room none (sweepLocked_spec _ _ _ _)

theorem enters : (discipline condition).Enters := calling.enters fanoutSteady

theorem sound_start : (discipline condition).Sound start := by
  refine Discipline.sound_of_idle rfl ⟨⟨fun _ => List.nodup_nil, ?_, ?_, ?_⟩, ?_, ?_, ?_, ?_, ?_, ?_, ?_⟩
    fun _ => trivial
  · intro roomId stored hstored
    cases hstored
  · intro roomId stored hstored
    cases hstored
  · intro queue lapsed hlapsed
    cases hlapsed
  · intro place connectionId hhas
    cases hhas
  · intro place connectionId hmem
    cases hmem
  · intro place connectionId hmem
    cases hmem
  · intro place hjoined
    cases hjoined
  · intro place connectionId hmem
    cases hmem
  · intro place connectionId hmem
    cases hmem
  · intro place connectionId hmem
    cases hmem

end Jobs

section Runs

variable (services)

def TakenOnce (trace : List Mark) : Prop :=
  ∀ place other connectionId, .takes place connectionId ∈ trace →
    .takes other connectionId ∈ trace →
      services.roomId other.room = services.roomId place.room → other = place

def undisputed : Condition services where
  holds := Undisputed services
  undisputed _ _ _ _ h := h

theorem TakenOnce.undisputed {mark : Mark} {view : RoomView} (hinv : Inv services view)
    (hclaims : Claims mark view) (h : TakenOnce services (view.trace ++ [mark])) :
    Undisputed services mark view := by
  have hold : ∀ {place connectionId}, .takes place connectionId ∈ view.trace →
      .takes place connectionId ∈ view.trace ++ [mark] := fun hmem => List.mem_append_left _ hmem
  cases mark with
  | takes place connectionId =>
    intro other hother hstores
    exact absurd (h place other connectionId (List.mem_append_right _ List.mem_cons_self)
      (hold (hinv.stores other connectionId hstores)) hother.2) hother.1
  | stores place connectionId =>
    intro other hother hhas
    exact absurd (h place other connectionId (hold (hinv.taken place connectionId hclaims))
      (hold (hinv.taken other connectionId hhas)) hother.2) hother.1
  | joins place connectionId =>
    intro queue lapsed hlapsed hroom hkey
    obtain ⟨howner, htakes⟩ := hinv.lapsed queue lapsed hlapsed
    rw [hkey] at htakes
    exact h place lapsed.owner connectionId (hold (hinv.stores place connectionId hclaims))
      (hold htakes) (howner.trans hroom)
  | _ => trivial

def takenOnce : Condition services where
  holds mark view := TakenOnce services (view.trace ++ [mark])
  undisputed _ _ hinv hclaims h := h.undisputed services hinv hclaims

theorem TakenOnce.runMeets (earlier later : List RoomAction) {middle after : RoomWorld}
    (hearlier : World.run (system services) start earlier = some middle)
    (hlater : World.run (system services) middle later = some after)
    (h : TakenOnce services after.trace) :
    World.RunMeets (system services) (Undisputed services) start earlier ∧
      World.RunMeets (system services) (Undisputed services) middle later := by
  have hcond : ∀ before mark, before ++ [mark] <+: after.trace →
      TakenOnce services (before ++ [mark]) := by
    intro before mark hinit place other connectionId hplace hother
    exact h place other connectionId (hinit.subset hplace) (hinit.subset hother)
  have hgrows := World.run_trace later hlater
  obtain ⟨hfirst, -⟩ := World.runMeets_of_trace earlier hearlier
    fun before mark hinit => hcond before mark (hinit.trans hgrows)
  obtain ⟨hsecond, -⟩ := World.runMeets_of_trace later hlater hcond
  have henters : (discipline (takenOnce services)).Enters := enters
  obtain ⟨hmiddle, -⟩ := Discipline.Sound.run henters earlier sound_start hfirst hearlier
  exact ⟨(Discipline.Sound.runMeets henters earlier sound_start hfirst).imp
    (fun _ _ hboth => hboth.1) earlier, (Discipline.Sound.runMeets henters later hmiddle hsecond).imp
    (fun _ _ hboth => hboth.1) later⟩

/-- Where no connection ID is disputed, no Leave for that of a peer that has joined and lives is
published on account of another, and the store keeps the record of a peer from when it stores it. -/
theorem own_record_kept (earlier later : List RoomAction) {middle after : RoomWorld}
    (hearlier : World.run (system services) start earlier = some middle)
    (hlater : World.run (system services) middle later = some after)
    (hfirst : World.RunMeets (system services) (Undisputed services) start earlier)
    (hsecond : World.RunMeets (system services) (Undisputed services) middle later) :
    World.RunMeets (system services) (OwnLeave services) start earlier ∧
      World.RunMeets (system services) (OwnLeave services) middle later ∧
      (∀ place, (middle.state.peers place).joined = true →
        ∃ connectionId, .joins place connectionId ∈ middle.trace ∧
          .stores place connectionId ∈ middle.trace) ∧
      ∀ place connectionId stored, .stores place connectionId ∈ middle.trace →
        ¬Leaving after.state place →
        middle.state.findMember (services.roomId place.room) connectionId = some stored →
        after.state.now < stored.expiresAt →
          ∃ kept, after.state.findMember (services.roomId place.room) connectionId = some kept ∧
            stored.expiresAt ≤ kept.expiresAt := by
  have henters : (discipline (undisputed services)).Enters := enters
  obtain ⟨hmiddle, -⟩ := Discipline.Sound.run henters earlier sound_start hfirst hearlier
  obtain ⟨hafter, hrely⟩ := Discipline.Sound.run henters later hmiddle hsecond hlater
  have hinv : Inv services (middle.view (system services)) := hmiddle.inv
  refine ⟨(Discipline.Sound.runMeets henters earlier sound_start hfirst).imp
    (fun _ _ hboth => hboth.2) earlier, (Discipline.Sound.runMeets henters later hmiddle hsecond).imp
    (fun _ _ hboth => hboth.2) later, fun place hjoined => ?_,
    fun place connectionId stored hstores hlives hfound hlive => ?_⟩
  · obtain ⟨connectionId, hjoins⟩ := hinv.joined place hjoined
    exact ⟨connectionId, hjoins, hinv.joins place connectionId hjoins⟩
  · obtain ⟨hmem, hkey⟩ := find_mem hfound
    obtain ⟨kept, hkept, hsame, hlonger⟩ :=
      hrely.keeps.records place connectionId hstores hlives stored hmem hkey hlive
    exact ⟨kept, find_eq_some (hafter.inv.unique _) hkept hsame, hlonger⟩

end Runs

section Samples

/-- While a peer has joined, the limiter refuses another with the same connection ID. -/
def sampleRival : List RoomAction :=
  [.invoke (.join 0 1), .invoke (.receive 0 1 (sampleMessage "a" 0)), .resume 0, .resume 1] ++
    answered 1 none ++ answered 1 none ++ answered 1 none ++ [.resume 1, .serve 1 (sampleChoice none)]

instance (state : State) (place : PeerRef) : Decidable (Leaving state place) :=
  inferInstanceAs (Decidable (_ ∨ _))

theorem sample_joins : ∃ middle,
    World.run (system (sampleServices .background)) start sampleJoins = some middle ∧
      .stores ⟨0, 0, 0⟩ (literal "c") ∈ middle.trace ∧ .joins ⟨0, 0, 0⟩ (literal "c") ∈ middle.trace ∧
      ∃ stored, middle.state.findMember (literal "r") (literal "c") = some stored ∧
        stored.owner = ⟨0, 0, 0⟩ ∧ stored.expiresAt = 1000 := by
  have hjoins : (World.run (system (sampleServices .background)) start sampleJoins).map
      (fun middle => (middle.trace.any fun
        | .stores place connectionId => place = ⟨0, 0, 0⟩ && connectionId = literal "c"
        | _ => false, middle.trace.any fun
        | .joins place connectionId => place = ⟨0, 0, 0⟩ && connectionId = literal "c"
        | _ => false, (middle.state.findMember (literal "r") (literal "c")).map fun stored =>
          (stored.owner, stored.expiresAt))) = some (true, true, some (⟨0, 0, 0⟩, 1000)) := by
    decide +kernel
  obtain ⟨middle, hmiddle, hjoined⟩ := Option.map_eq_some_iff.mp hjoins
  obtain ⟨hstores, hrest⟩ := Prod.mk.inj hjoined
  obtain ⟨hjoins, hfound⟩ := Prod.mk.inj hrest
  obtain ⟨stored, hmember, hfields⟩ := Option.map_eq_some_iff.mp hfound
  obtain ⟨howner, hexpires⟩ := Prod.mk.inj hfields
  have hmem {test : Mark → Bool} {mark : Mark} (htest : ∀ other, test other = true → mark = other)
      (hany : middle.trace.any test = true) : mark ∈ middle.trace := by
    obtain ⟨other, hother, hholds⟩ := List.any_eq_true.mp hany
    exact htest other hholds ▸ hother
  refine ⟨middle, hmiddle, hmem (fun mark hmark => ?_) hstores, hmem (fun mark hmark => ?_) hjoins, stored,
    hmember, howner, hexpires⟩
  · cases mark with
    | stores place connectionId =>
      obtain ⟨hplace, hkey⟩ := Bool.and_eq_true_iff.mp hmark
      rw [of_decide_eq_true hplace, of_decide_eq_true hkey]
    | _ => cases hmark
  · cases mark with
    | joins place connectionId =>
      obtain ⟨hplace, hkey⟩ := Bool.and_eq_true_iff.mp hmark
      rw [of_decide_eq_true hplace, of_decide_eq_true hkey]
    | _ => cases hmark

theorem own_record_lost : ∃ middle after,
    World.run (system (sampleServices .background)) start sampleJoins = some middle ∧
      World.run (system (sampleServices .background)) middle sampleRival = some after ∧
      .joins ⟨0, 0, 0⟩ (literal "c") ∈ middle.trace ∧ ¬Leaving after.state ⟨0, 0, 0⟩ ∧
      (∃ stored, middle.state.findMember (literal "r") (literal "c") = some stored ∧
        stored.owner = ⟨0, 0, 0⟩ ∧ after.state.now < stored.expiresAt) ∧
      after.state.findMember (literal "r") (literal "c") = none := by
  have hloses : ((World.run (system (sampleServices .background)) start sampleJoins).bind fun middle =>
      World.run (system (sampleServices .background)) middle sampleRival).map (fun after =>
        (decide (Leaving after.state ⟨0, 0, 0⟩), after.state.now,
          (after.state.findMember (literal "r") (literal "c")).isNone)) =
      some (false, 0, true) := by decide +kernel
  obtain ⟨middle, hmiddle, -, hjoins, stored, hmember, howner, hexpires⟩ := sample_joins
  rw [hmiddle, Option.bind_some] at hloses
  obtain ⟨after, hafter, hlost⟩ := Option.map_eq_some_iff.mp hloses
  obtain ⟨hlives, hrest⟩ := Prod.mk.inj hlost
  obtain ⟨hnow, hnone⟩ := Prod.mk.inj hrest
  refine ⟨middle, after, hmiddle, hafter, hjoins, of_decide_eq_false hlives, ⟨stored, hmember, howner, ?_⟩,
    Option.isNone_iff_eq_none.mp hnone⟩
  rw [hnow, hexpires]
  decide

theorem own_record_kept_joins : ∃ middle after,
    World.run (system (sampleServices .background)) start sampleJoins = some middle ∧
      World.run (system (sampleServices .background)) middle [.invoke (.elapse 1)] = some after ∧
      World.RunMeets (system (sampleServices .background)) (OwnLeave (sampleServices .background)) start
        sampleJoins ∧
      ∃ kept, after.state.findMember (literal "r") (literal "c") = some kept ∧
        1000 ≤ kept.expiresAt := by
  have hwaits : ((World.run (system (sampleServices .background)) start sampleJoins).bind fun middle =>
      World.run (system (sampleServices .background)) middle [.invoke (.elapse 1)]).map (fun after =>
        (decide (Leaving after.state ⟨0, 0, 0⟩), after.state.now, after.trace.all fun
            | .takes place _ => place = ⟨0, 0, 0⟩
            | _ => true)) = some (false, 1, true) := by decide +kernel
  obtain ⟨middle, hmiddle, hstores, -, stored, hmember, -, hexpires⟩ := sample_joins
  rw [hmiddle, Option.bind_some] at hwaits
  obtain ⟨after, hafter, hstays⟩ := Option.map_eq_some_iff.mp hwaits
  obtain ⟨hlives, hrest⟩ := Prod.mk.inj hstays
  obtain ⟨hnow, htakers⟩ := Prod.mk.inj hrest
  have htaken : TakenOnce (sampleServices .background) after.trace := by
    have htaker : ∀ place connectionId, .takes place connectionId ∈ after.trace → place = ⟨0, 0, 0⟩ :=
      fun place connectionId hmem => of_decide_eq_true (List.all_eq_true.mp htakers _ hmem)
    intro place other connectionId hplace hother _
    rw [htaker place connectionId hplace, htaker other connectionId hother]
  obtain ⟨hfirst, hsecond⟩ := htaken.runMeets (sampleServices .background) sampleJoins _ hmiddle hafter
  obtain ⟨hleaves, -, -, hkept⟩ :=
    own_record_kept (sampleServices .background) sampleJoins _ hmiddle hafter hfirst hsecond
  have hlive : after.state.now < stored.expiresAt := by
    rw [hnow, hexpires]
    decide
  obtain ⟨kept, hkeeps, hlonger⟩ :=
    hkept ⟨0, 0, 0⟩ (literal "c") stored hstores (of_decide_eq_false hlives) hmember hlive
  rw [hexpires] at hlonger
  exact ⟨middle, after, hmiddle, hafter, hleaves, kept, hkeeps, hlonger⟩

end Samples

end Softmaple.Presence.OwnRecords
