import Softmaple.Realtime.PresenceStores

/-!
The presence stores answer as a map with expiry, as long as a lapsed record is
met by `listMembers` first: every other call purges or returns what it finds
lapsed without a report.
-/
namespace Softmaple.Realtime

open Json KeyedList AnswerRefinement StoredMember List

variable {π ρ τ : Type}

/-- Related states and the same answer. -/
def Agree (related : ρ → τ → Prop) (left : ρ × StoreAnswer π) (right : τ × StoreAnswer π) : Prop :=
  related left.1 right.1 ∧ SameAnswer left.2 right.2

variable {calls : List (StoreCall π)}

theorem storeMachine_refines {empty : ρ} {blank : τ} {exec : Nat → StoreRequest π → ρ → ρ × StoreAnswer π}
    {exec' : Nat → StoreRequest π → τ → τ × StoreAnswer π}
    {meets : Nat → ρ → StoreRequest π → Prop} (related : Nat → ρ → τ → Prop)
    (hmono : ∀ now later room other, now ≤ later → related now room other →
      related later room other)
    (hstep : ∀ now room other request, related now room other → meets now room request →
      Agree (related now) (exec now request room) (exec' now request other))
    (hstart : related 0 empty blank)
    (h : (storeMachine empty exec).Allows (onRoom meets) (storeMachine empty exec).start calls) :
    List.Forall₂ SameAnswer ((storeMachine empty exec).run calls)
      ((storeMachine blank exec').run calls) := by
  have hsimulates : (storeMachine empty exec).Simulates (storeMachine blank exec') (onRoom meets)
      (fun state other => state.now = other.now ∧
        ∀ roomId, related state.now (state.rooms roomId) (other.rooms roomId)) SameAnswer := by
    intro state other call hrelated hmeets
    obtain ⟨hnow, hrooms⟩ := hrelated
    have hlater : ∀ roomId, related (state.now + call.elapsed) (state.rooms roomId)
        (other.rooms roomId) := fun roomId =>
      hmono _ _ _ _ (Nat.le_add_right _ _) (hrooms roomId)
    obtain ⟨hnext, hanswer⟩ := hstep _ _ _ call.request (hlater call.roomId) hmeets
    dsimp only [storeMachine, StoreState.update]
    rw [← hnow]
    refine ⟨⟨rfl, fun roomId => ?_⟩, hanswer⟩
    split
    · exact hnext
    · exact hlater roomId
  exact hsimulates.answers ⟨rfl, fun _ => hstart⟩ h

theorem lapsed_eq_not_live (now : Nat) (entry : StoredMember π) :
    entry.lapsed now = !entry.live now := by
  unfold lapsed live
  rw [Bool.eq_iff_iff, Bool.not_eq_true', decide_eq_true_eq, decide_eq_false_iff_not, Nat.not_lt]

structure Mirrors (now : Nat) (entries : List (StoredMember π)) (members : Membership π) : Prop where
  unique : Unique connectionId entries
  perm : entries.Perm (members.current ++ members.unreported)
  unreported : ∀ entry ∈ members.unreported, entry.lapsed now = true

theorem Mirrors.mono {now later : Nat} {entries : List (StoredMember π)} {members : Membership π}
    (h : Mirrors now entries members) (hlater : now ≤ later) : Mirrors later entries members :=
  ⟨h.unique, h.perm, fun entry hmem =>
    decide_eq_true (Nat.le_trans (of_decide_eq_true (h.unreported entry hmem)) hlater)⟩

section Lapse

variable {now : Nat} {entries : List (StoredMember π)} {members : Membership π}

section

variable (h : Mirrors now entries members)
include h

theorem Mirrors.lapse : Mirrors now entries (members.lapse now) where
  unique := h.unique
  perm := by
    have hsplit : ((members.current.filter (live now)) ++
        members.current.filter (lapsed now)).Perm members.current := by
      have hnot : members.current.filter (lapsed now) =
          members.current.filter fun entry => !entry.live now :=
        filter_congr fun entry _ => lapsed_eq_not_live now entry
      rw [hnot]
      exact filter_append_perm _ _
    have hswap : ((members.current.filter (live now)) ++ (members.unreported ++
        members.current.filter (lapsed now))).Perm (members.current ++ members.unreported) := by
      refine (List.Perm.append_left _ perm_append_comm).trans ?_
      rw [← append_assoc]
      exact hsplit.append_right _
    exact h.perm.trans hswap.symm
  unreported := by
    intro entry hmem
    cases mem_append.mp hmem with
    | inl hold => exact h.unreported entry hold
    | inr hnew => exact of_mem_filter hnew

theorem Mirrors.filter : (entries.filter (live now)).Perm (members.lapse now).current ∧
      (entries.filter (lapsed now)).Perm (members.lapse now).unreported := by
  have hlapse := h.lapse
  have hcurrent : ∀ entry ∈ (members.lapse now).current, entry.live now = true :=
    fun entry hmem => of_mem_filter hmem
  have hlive : ((members.lapse now).current ++ (members.lapse now).unreported).filter (live now) =
      (members.lapse now).current := by
    rw [filter_append, filter_eq_self.mpr hcurrent, filter_eq_nil_iff.mpr,
      append_nil]
    intro entry hmem hlive
    have hlapsed := hlapse.unreported entry hmem
    rw [lapsed_eq_not_live, hlive] at hlapsed
    cases hlapsed
  have hover : ((members.lapse now).current ++ (members.lapse now).unreported).filter (lapsed now) =
      (members.lapse now).unreported := by
    rw [filter_append, filter_eq_self.mpr hlapse.unreported, filter_eq_nil_iff.mpr,
      nil_append]
    intro entry hmem hlapsed
    rw [lapsed_eq_not_live, hcurrent entry hmem] at hlapsed
    cases hlapsed
  constructor
  · rw [← hlive]
    exact hlapse.perm.filter _
  · rw [← hover]
    exact hlapse.perm.filter _

theorem Mirrors.find {wanted : Text}
    (hlive : ∀ entry ∈ entries, entry.connectionId = wanted → entry.lapsed now = false) :
    (∀ entry ∈ (members.lapse now).unreported, entry.connectionId ≠ wanted) ∧
      find connectionId wanted entries = find connectionId wanted (members.lapse now).current := by
  have hlapse := h.lapse
  have habsent : ∀ entry ∈ (members.lapse now).unreported, entry.connectionId ≠ wanted := by
    intro entry hmem hwanted
    have hin := hlapse.perm.mem_iff.mpr (mem_append_right _ hmem)
    have hlapsed := hlapse.unreported entry hmem
    rw [hlive entry hin hwanted] at hlapsed
    cases hlapsed
  refine ⟨habsent, ?_⟩
  rw [find_perm h.unique hlapse.perm]
  unfold KeyedList.find
  rw [find?_append, find?_eq_none.mpr fun entry hmem hkey =>
    habsent entry hmem (of_decide_eq_true hkey), Option.or_none]

theorem Mirrors.put {entry : StoredMember π}
    (habsent : ∀ other ∈ (members.lapse now).unreported, other.connectionId ≠ entry.connectionId) :
    Mirrors now (put connectionId entry entries)
      { members.lapse now with current := put connectionId entry (members.lapse now).current } where
  unique := unique_put h.unique
  perm := by
    have hlapse := h.lapse
    have hcurrent : Unique connectionId (members.lapse now).current :=
      (sublist_append_left _ _).map _ |>.nodup (h.unique.perm hlapse.perm)
    have hkept : (delete connectionId entry.connectionId entries).Perm
        (delete connectionId entry.connectionId (members.lapse now).current ++
          (members.lapse now).unreported) := by
      rw [← delete_of_absent habsent]
      unfold delete
      rw [← filter_append]
      exact hlapse.perm.filter _
    refine (put_perm h.unique).trans ((hkept.cons entry).trans ?_)
    exact ((put_perm hcurrent).append_right _).symm
  unreported := h.lapse.unreported

theorem Mirrors.delete {wanted : Text}
    (habsent : ∀ other ∈ (members.lapse now).unreported, other.connectionId ≠ wanted) :
    Mirrors now (delete connectionId wanted entries) { members.lapse now with
        current := delete connectionId wanted (members.lapse now).current } where
  unique := h.unique.filter _
  perm := by
    rw [← delete_of_absent habsent]
    unfold KeyedList.delete
    rw [← filter_append]
    exact h.lapse.perm.filter _
  unreported := by
    intro entry hmem
    exact h.lapse.unreported entry hmem

/-- After `listMembers`. -/
theorem Mirrors.page :
    Mirrors now (entries.filter (live now)) { members.lapse now with unreported := [] } where
  unique := h.unique.filter _
  perm := by
    rw [append_nil]
    exact h.filter.1
  unreported := fun entry hmem => by cases hmem

end

end Lapse

section Steps

variable {now : Nat} {entries : List (StoredMember π)} {members : Membership π}

variable {entry : StoredMember π}

theorem not_lapsed (h : entry.lapsed now = false) : now < entry.expiresAt :=
  Nat.lt_of_not_le (of_decide_eq_false h)

theorem filter_live_of_none (h : ∀ entry ∈ entries, entry.lapsed now = false) :
    entries.filter (live now) = entries :=
  filter_eq_self.mpr fun entry hmem => decide_eq_true (not_lapsed (h entry hmem))

theorem durableObject_step {request : StoreRequest π} (h : Mirrors now entries members)
    (hmeets : DurableObjectMeets now entries request) :
    Agree (Mirrors now) (DurableObjectPresenceStore.exec now request entries)
      (members.exec now request) := by
  cases request with
  | setMember member ttlMs =>
    exact ⟨h.put (h.find hmeets).1, rfl⟩
  | refreshMember wanted ttlMs =>
    obtain ⟨habsent, hfind⟩ := h.find hmeets
    unfold DurableObjectPresenceStore.exec Membership.exec
    dsimp only
    rw [← hfind]
    cases hfound : find connectionId wanted entries with
    | none => exact ⟨h.lapse, rfl⟩
    | some stored =>
      obtain ⟨hmem, hkey⟩ := find_mem hfound
      have hlive := not_lapsed (hmeets stored hmem hkey)
      dsimp only
      rw [if_neg (Nat.not_le.mpr hlive)]
      refine ⟨h.put ?_, rfl⟩
      rw [← hkey] at habsent
      exact habsent
  | getMember wanted =>
    obtain ⟨-, hfind⟩ := h.find hmeets
    unfold DurableObjectPresenceStore.exec Membership.exec
    dsimp only
    rw [← hfind]
    cases hfound : find connectionId wanted entries with
    | none => exact ⟨h.lapse, rfl⟩
    | some stored =>
      obtain ⟨hmem, hkey⟩ := find_mem hfound
      have hlive := not_lapsed (hmeets stored hmem hkey)
      dsimp only
      rw [if_neg (Nat.not_le.mpr hlive)]
      exact ⟨h.lapse, rfl⟩
  | removeMember wanted =>
    obtain ⟨habsent, hfind⟩ := h.find hmeets
    have hdeleted := h.delete habsent
    unfold DurableObjectPresenceStore.exec Membership.exec
    dsimp only
    rw [← hfind]
    cases hfound : find connectionId wanted entries with
    | none =>
      rw [delete_of_absent (find_eq_none.mp hfound)] at hdeleted
      exact ⟨hdeleted, rfl⟩
    | some stored =>
      obtain ⟨hmem, hkey⟩ := find_mem hfound
      dsimp only
      rw [if_pos (not_lapsed (hmeets stored hmem hkey))]
      exact ⟨hdeleted, rfl⟩
  | listMembers =>
    have hkept : (entries.filter fun entry => !entry.lapsed now) = entries.filter (live now) :=
      filter_congr fun entry _ => by rw [lapsed_eq_not_live, Bool.not_not]
    obtain ⟨hcurrent, hunreported⟩ := h.filter
    unfold DurableObjectPresenceStore.exec Membership.exec
    dsimp only
    rw [hkept]
    exact ⟨h.page, hcurrent.map _, hunreported.map _⟩

def Named (entries : List (StoredMember π)) : Prop :=
  ∀ entry ∈ entries, entry.member.connectionId ≠ [] ∧ entry.member.userId ≠ []

theorem Named.put (h : Named entries) (hentry : entry.member.connectionId ≠ [] ∧ entry.member.userId ≠ [])
    (hunique : Unique connectionId entries) : Named (KeyedList.put connectionId entry entries) := by
  intro other hother
  cases mem_cons.mp ((put_perm hunique).mem_iff.mp hother) with
  | inl heq =>
    rw [heq]
    exact hentry
  | inr hmem => exact h other (mem_delete.mp hmem).1

theorem Named.filter (h : Named entries) (keep : StoredMember π → Bool) :
    Named (entries.filter keep) :=
  fun entry hmem => h entry (mem_of_mem_filter hmem)

theorem Named.report (h : Named entries) (hmem : entry ∈ entries) :
    (⟨entry.member.connectionId, presenceUserId entry.member⟩ : ExpiredPresenceMember) =
      entry.report := by
  unfold presenceUserId
  rw [if_neg (h entry hmem).2]
  rfl

theorem Named.found {wanted : Text} (h : Named entries)
    (hfound : KeyedList.find connectionId wanted entries = some entry) :
    entry.member.connectionId ≠ [] ∧ entry.member.userId ≠ [] :=
  h entry (find_mem hfound).1

theorem memory_step {request : StoreRequest π} (h : Mirrors now entries members)
    (hnamed : Named entries) (hmeets : MemoryMeets now entries request) :
    Agree (fun entries members => Mirrors now entries members ∧ Named entries)
      (MemoryPresenceRoomStore.exec now request entries) (members.exec now request) := by
  cases request with
  | setMember member ttlMs =>
    obtain ⟨hnone, hconnection, huser⟩ := hmeets
    have habsent := (h.find fun entry hmem (_ : entry.connectionId = member.connectionId) =>
      hnone entry hmem).1
    unfold MemoryPresenceRoomStore.exec Membership.exec
    dsimp only
    rw [filter_live_of_none hnone, if_neg hconnection]
    exact ⟨⟨h.put habsent, hnamed.put ⟨hconnection, huser⟩ h.unique⟩, rfl⟩
  | refreshMember wanted ttlMs =>
    have hnone : ∀ entry ∈ entries, entry.lapsed now = false := hmeets
    obtain ⟨habsent, hfind⟩ := h.find fun entry hmem (_ : entry.connectionId = wanted) =>
      hnone entry hmem
    unfold MemoryPresenceRoomStore.exec Membership.exec
    dsimp only
    rw [filter_live_of_none hnone, ← hfind]
    cases hfound : find connectionId wanted entries with
    | none => exact ⟨⟨h.lapse, hnamed⟩, rfl⟩
    | some stored =>
      have hkey := (find_mem hfound).2
      have hids := hnamed.found hfound
      refine ⟨⟨h.put ?_, hnamed.put hids h.unique⟩, rfl⟩
      rw [← hkey] at habsent
      exact habsent
  | getMember wanted =>
    have hnone : ∀ entry ∈ entries, entry.lapsed now = false := hmeets
    obtain ⟨-, hfind⟩ := h.find fun entry hmem (_ : entry.connectionId = wanted) =>
      hnone entry hmem
    unfold MemoryPresenceRoomStore.exec Membership.exec
    dsimp only
    rw [filter_live_of_none hnone, ← hfind]
    exact ⟨⟨h.lapse, hnamed⟩, rfl⟩
  | removeMember wanted =>
    obtain ⟨habsent, hfind⟩ := h.find hmeets
    unfold MemoryPresenceRoomStore.exec Membership.exec
    dsimp only
    rw [← hfind]
    exact ⟨⟨h.delete habsent, hnamed.filter _⟩, rfl⟩
  | listMembers =>
    obtain ⟨hcurrent, hunreported⟩ := h.filter
    have hreport : ((entries.filter (lapsed now)).map fun entry =>
        (⟨entry.member.connectionId, presenceUserId entry.member⟩ : ExpiredPresenceMember)) =
        (entries.filter (lapsed now)).map report :=
      map_congr_left fun entry hmem => hnamed.report (mem_of_mem_filter hmem)
    unfold MemoryPresenceRoomStore.exec Membership.exec
    dsimp only
    rw [hreport]
    exact ⟨⟨h.page, hnamed.filter _⟩, hcurrent.map _, hunreported.map _⟩

end Steps

section Redis

variable {now : Nat} {entries : List (StoredMember π)} {room : RedisRoom π}

def userOf (entry : StoredMember π) : Text × PresenceMemberRecord π :=
  (entry.connectionId, entry.member)

def expiryOf (entry : StoredMember π) : Text × Nat := (entry.connectionId, entry.expiresAt)

theorem userOf_key (entry : StoredMember π) : (userOf entry).1 = entry.connectionId := rfl

theorem expiryOf_key (entry : StoredMember π) : (expiryOf entry).1 = entry.connectionId := rfl

structure InStep (entries : List (StoredMember π)) (room : RedisRoom π) : Prop where
  users : room.users = entries.map userOf
  expiry : room.expiry = entries.map expiryOf

section

variable (h : InStep entries room)
include h

theorem InStep.access (hkeys : room.expiry = [] ∨ now ≤ room.keysExpireAt) :
    InStep entries (RedisPresenceRoomStore.access now room) := by
  unfold RedisPresenceRoomStore.access
  split
  · next hexpired =>
      cases hkeys with
      | inl hempty =>
        have hnone : entries = [] := map_eq_nil_iff.mp (h.expiry.symm.trans hempty)
        rw [hnone]
        exact ⟨rfl, rfl⟩
      | inr hlater => exact absurd hexpired (Nat.not_lt.mpr hlater)
  · exact h

theorem InStep.find (wanted : Text) : (KeyedList.find Prod.fst wanted room.users).map (·.2) =
      (KeyedList.find connectionId wanted entries).map (·.member) := by
  rw [h.users, find_map userOf_key, Option.map_map]
  rfl

theorem InStep.put {entry : StoredMember π} {keysExpireAt : Nat} :
    InStep (KeyedList.put connectionId entry entries)
      ⟨KeyedList.put Prod.fst (userOf entry) room.users,
        KeyedList.put Prod.fst (expiryOf entry) room.expiry, keysExpireAt⟩ := by
  constructor
  · rw [h.users, ← map_put userOf_key]
  · rw [h.expiry, ← map_put expiryOf_key]

theorem InStep.delete {wanted : Text} {keysExpireAt : Nat} :
    InStep (KeyedList.delete connectionId wanted entries)
      ⟨KeyedList.delete Prod.fst wanted room.users, KeyedList.delete Prod.fst wanted room.expiry,
        keysExpireAt⟩ := by
  constructor
  · rw [h.users, ← map_delete userOf_key]
  · rw [h.expiry, ← map_delete expiryOf_key]

omit h in
theorem expiredIds_map (now : Nat) (entries : List (StoredMember π)) :
    ((entries.map expiryOf).filter fun entry => entry.2 ≤ now).map (·.1) =
      (entries.filter (lapsed now)).map connectionId := by
  rw [filter_map, map_map]
  rfl

omit h in
theorem mem_expiredIds {entry : StoredMember π} (hunique : Unique connectionId entries)
    (hmem : entry ∈ entries) :
    entry.connectionId ∈ (entries.filter (lapsed now)).map connectionId ↔
      entry.lapsed now = true := by
  constructor
  · intro hid
    obtain ⟨other, hother, hsame⟩ := mem_map.mp hid
    obtain ⟨hin, hlapsed⟩ := mem_filter.mp hother
    rw [← hunique.eq_of_mem hin hmem hsame]
    exact hlapsed
  · intro hlapsed
    exact mem_map_of_mem (mem_filter.mpr ⟨hmem, hlapsed⟩)

theorem purgeExpired_inStep (hunique : Unique connectionId entries)
    (hnamed : Named entries) (hkeys : room.expiry = [] ∨ now ≤ room.keysExpireAt) :
    InStep (entries.filter (live now)) (RedisPresenceRoomStore.purgeExpired now room).1 ∧
      (RedisPresenceRoomStore.purgeExpired now room).2 =
        (entries.filter (lapsed now)).map report := by
  have haccess := h.access hkeys
  unfold RedisPresenceRoomStore.purgeExpired
  dsimp only
  rw [haccess.users, haccess.expiry, expiredIds_map]
  refine ⟨⟨?_, ?_⟩, ?_⟩
  · dsimp only
    rw [filter_map]
    congr 1
    refine filter_congr fun entry hmem => ?_
    rw [Function.comp_apply, Bool.eq_iff_iff, decide_eq_true_eq]
    have hid : entry.connectionId ∈ (entries.filter (lapsed now)).map connectionId ↔
        entry.lapsed now = true := mem_expiredIds hunique hmem
    change ¬entry.connectionId ∈ _ ↔ _
    rw [hid, lapsed_eq_not_live, Bool.not_eq_true', Bool.not_eq_false]
  · dsimp only
    rw [filter_map]
    rfl
  · have hall : ((entries.filter (lapsed now)).map connectionId).filter (fun id => id ≠ []) =
        (entries.filter (lapsed now)).map connectionId := by
      refine filter_eq_self.mpr fun id hid => ?_
      obtain ⟨entry, hentry, rfl⟩ := mem_map.mp hid
      exact decide_eq_true (hnamed entry (mem_of_mem_filter hentry)).1
    rw [hall, map_map]
    refine map_congr_left fun entry hmem => ?_
    have hin := mem_of_mem_filter hmem
    rw [Function.comp_apply, find_map userOf_key, find_eq_some hunique hin rfl, ← hnamed.report hin]
    rfl

theorem purgeExpired_none (hunique : Unique connectionId entries)
    (hnamed : Named entries) (hkeys : room.expiry = [] ∨ now ≤ room.keysExpireAt)
    (hnone : ∀ entry ∈ room.expiry, now < entry.2) : (∀ entry ∈ entries, entry.lapsed now = false) ∧
      InStep entries (RedisPresenceRoomStore.purgeExpired now room).1 := by
  have hlive : ∀ entry ∈ entries, entry.lapsed now = false := by
    intro entry hmem
    refine decide_eq_false (Nat.not_le.mpr (hnone (expiryOf entry) ?_))
    rw [h.expiry]
    exact mem_map_of_mem hmem
  have hpurged := (purgeExpired_inStep h hunique hnamed hkeys).1
  rw [filter_live_of_none hlive] at hpurged
  exact ⟨hlive, hpurged⟩

end

theorem keysExpireAt_purgeExpired (now : Nat) (room : RedisRoom π) :
    (RedisPresenceRoomStore.purgeExpired now room).1.keysExpireAt = room.keysExpireAt := by
  unfold RedisPresenceRoomStore.purgeExpired RedisPresenceRoomStore.access
  dsimp only
  split <;> rfl

def RedisMirrors (now : Nat) (room : RedisRoom π) (members : Membership π) : Prop :=
  ∃ entries, InStep entries room ∧ Mirrors now entries members ∧ Named entries

variable {members : Membership π}

theorem redis_set {member : PresenceMemberRecord π} {ttlMs : Nat}
    (h : RedisMirrors now room members)
    (hmeets : RedisMeets now room (.setMember member ttlMs)) :
    Agree (RedisMirrors now) (RedisPresenceRoomStore.exec now (.setMember member ttlMs) room)
      (members.exec now (.setMember member ttlMs)) := by
  obtain ⟨entries, hstep, hmirrors, hnamed⟩ := h
  obtain ⟨hkeys, hnone, hconnection, huser⟩ := hmeets
  obtain ⟨hlive, hpurged⟩ := purgeExpired_none hstep hmirrors.unique hnamed hkeys hnone
  have habsent := (hmirrors.find fun entry hmem
    (_ : entry.connectionId = member.connectionId) => hlive entry hmem).1
  have haccess : InStep entries (RedisPresenceRoomStore.access now
      (RedisPresenceRoomStore.purgeExpired now room).1) := by
    refine hpurged.access ?_
    rw [keysExpireAt_purgeExpired, hpurged.expiry]
    cases hkeys with
    | inl hempty =>
      left
      rw [← hstep.expiry]
      exact hempty
    | inr hlater => exact .inr hlater
  unfold RedisPresenceRoomStore.exec RedisPresenceRoomStore.setUser Membership.exec
  dsimp only
  rw [if_neg hconnection]
  exact ⟨⟨put connectionId ⟨now + ttlMs, member⟩ entries, haccess.put, hmirrors.put habsent,
    hnamed.put ⟨hconnection, huser⟩ hmirrors.unique⟩, rfl⟩

theorem redis_refresh {wanted : Text} {ttlMs : Nat} (h : RedisMirrors now room members)
    (hmeets : RedisMeets now room (.refreshMember wanted ttlMs)) :
    Agree (RedisMirrors now) (RedisPresenceRoomStore.exec now (.refreshMember wanted ttlMs) room)
      (members.exec now (.refreshMember wanted ttlMs)) := by
  obtain ⟨entries, hstep, hmirrors, hnamed⟩ := h
  obtain ⟨hkeys, hnone⟩ := hmeets
  obtain ⟨hlive, -⟩ := purgeExpired_none hstep hmirrors.unique hnamed hkeys hnone
  obtain ⟨habsent, hfind⟩ := hmirrors.find fun entry hmem
    (_ : entry.connectionId = wanted) => hlive entry hmem
  have haccess := hstep.access hkeys
  have hexpiry : ((RedisPresenceRoomStore.access now room).expiry.filter fun entry =>
      now < entry.2) = (RedisPresenceRoomStore.access now room).expiry := by
    refine filter_eq_self.mpr fun entry hmem => ?_
    rw [haccess.expiry] at hmem
    obtain ⟨stored, hstored, rfl⟩ := mem_map.mp hmem
    exact decide_eq_true (not_lapsed (hlive stored hstored))
  unfold RedisPresenceRoomStore.exec RedisPresenceRoomStore.refreshUser Membership.exec
  dsimp only
  rw [hexpiry, haccess.users, find_map userOf_key, ← hfind]
  cases hfound : KeyedList.find connectionId wanted entries with
  | none => exact ⟨⟨entries, ⟨rfl, haccess.expiry⟩, hmirrors.lapse, hnamed⟩, rfl⟩
  | some stored =>
    obtain ⟨hmem, hsame⟩ := find_mem hfound
    have hids := hnamed.found hfound
    rw [← hsame] at habsent
    refine ⟨⟨put connectionId ⟨now + ttlMs, stored.member⟩ entries, ⟨?_, ?_⟩,
      hmirrors.put habsent, hnamed.put hids hmirrors.unique⟩, rfl⟩
    · have hput : (put connectionId ⟨now + ttlMs, stored.member⟩ entries).map userOf =
          put Prod.fst (userOf stored) (entries.map userOf) := map_put userOf_key _ _
      have hunique : Unique Prod.fst (entries.map userOf) := by
        unfold KeyedList.Unique
        rw [map_map]
        exact hmirrors.unique
      rw [hput, put_of_mem hunique (mem_map_of_mem hmem)]
      rfl
    · have hput : (put connectionId ⟨now + ttlMs, stored.member⟩ entries).map expiryOf =
          put Prod.fst (stored.connectionId, now + ttlMs) (entries.map expiryOf) :=
        map_put expiryOf_key _ _
      rw [hput, hsame, ← haccess.expiry]
      rfl

theorem redis_step {request : StoreRequest π}
    (h : RedisMirrors now room members) (hmeets : RedisMeets now room request) :
    Agree (RedisMirrors now) (RedisPresenceRoomStore.exec now request room)
      (members.exec now request) := by
  cases request with
  | setMember member ttlMs => exact redis_set h hmeets
  | refreshMember wanted ttlMs => exact redis_refresh h hmeets
  | getMember wanted =>
    obtain ⟨entries, hstep, hmirrors, hnamed⟩ := h
    obtain ⟨hkeys, hnone⟩ := hmeets
    obtain ⟨hlive, hpurged⟩ := purgeExpired_none hstep hmirrors.unique hnamed hkeys hnone
    have hfind := (hmirrors.find fun entry hmem
      (_ : entry.connectionId = wanted) => hlive entry hmem).2
    refine ⟨⟨entries, hpurged, hmirrors.lapse, hnamed⟩, ?_⟩
    unfold RedisPresenceRoomStore.exec Membership.exec
    dsimp only
    rw [hpurged.find, hfind]
    rfl
  | removeMember wanted =>
    obtain ⟨entries, hstep, hmirrors, hnamed⟩ := h
    obtain ⟨hkeys, hlive⟩ := hmeets
    have hown : ∀ entry ∈ entries, entry.connectionId = wanted → entry.lapsed now = false := by
      intro entry hmem hwanted
      refine decide_eq_false (Nat.not_le.mpr (hlive (expiryOf entry) ?_ hwanted))
      rw [hstep.expiry]
      exact mem_map_of_mem hmem
    obtain ⟨habsent, hfind⟩ := hmirrors.find hown
    have haccess := hstep.access hkeys
    refine ⟨⟨delete connectionId wanted entries, haccess.delete, hmirrors.delete habsent,
      hnamed.filter _⟩, ?_⟩
    unfold RedisPresenceRoomStore.exec Membership.exec
    dsimp only
    rw [haccess.find, hfind]
    rfl
  | listMembers =>
    obtain ⟨entries, hstep, hmirrors, hnamed⟩ := h
    obtain ⟨hpurged, hreported⟩ := purgeExpired_inStep hstep hmirrors.unique hnamed hmeets.1
    obtain ⟨hcurrent, hunreported⟩ := hmirrors.filter
    refine ⟨⟨entries.filter (live now), hpurged, hmirrors.page, hnamed.filter _⟩, ?_, ?_⟩
    · rw [hpurged.users, map_map]
      exact hcurrent.map _
    · rw [hreported]
      exact hunreported.map _

end Redis

theorem mirrors_empty (now : Nat) : Mirrors now ([] : List (StoredMember π)) ⟨[], []⟩ where
  unique := nodup_nil
  perm := .nil
  unreported := fun entry hmem => by cases hmem

theorem named_nil : Named ([] : List (StoredMember π)) :=
  fun entry hmem => by cases hmem

theorem memory_refines (h : MemoryPresenceRoomStore.machine.Allows (onRoom MemoryMeets)
      MemoryPresenceRoomStore.machine.start calls) :
    List.Forall₂ SameAnswer (MemoryPresenceRoomStore.machine.run calls)
      (Membership.machine.run calls) :=
  storeMachine_refines (fun now entries members => Mirrors now entries members ∧ Named entries)
    (fun _ _ _ _ hlater hrelated => ⟨hrelated.1.mono hlater, hrelated.2⟩)
    (fun _ _ _ _ hrelated => memory_step hrelated.1 hrelated.2) ⟨mirrors_empty 0, named_nil⟩ h

theorem redis_refines (h : RedisPresenceRoomStore.machine.Allows (onRoom RedisMeets)
      RedisPresenceRoomStore.machine.start calls) :
    List.Forall₂ SameAnswer (RedisPresenceRoomStore.machine.run calls)
      (Membership.machine.run calls) := by
  refine storeMachine_refines RedisMirrors ?_ ?_ ?_ h
  · rintro now later room members hlater ⟨entries, hstep, hmirrors, hnamed⟩
    exact ⟨entries, hstep, hmirrors.mono hlater, hnamed⟩
  · exact fun _ _ _ _ => redis_step
  · exact ⟨[], ⟨rfl, rfl⟩, mirrors_empty 0, named_nil⟩

theorem durableObject_refines (h : DurableObjectPresenceStore.machine.Allows (onRoom DurableObjectMeets)
      DurableObjectPresenceStore.machine.start calls) :
    List.Forall₂ SameAnswer (DurableObjectPresenceStore.machine.run calls)
      (Membership.machine.run calls) := by
  refine storeMachine_refines Mirrors (fun _ _ _ _ hlater hmirrors => hmirrors.mono hlater) ?_
    (mirrors_empty 0) h
  exact fun _ _ _ _ => durableObject_step

def idleMember : PresenceMemberRecord Unit := ⟨0, literal "c", literal "u", ()⟩

/-- A member that is refreshed, lapses and is reported. -/
def reportedRun : List (StoreCall Unit) :=
  [⟨0, [], .setMember idleMember 10⟩, ⟨5, [], .refreshMember (literal "c") 10⟩,
    ⟨10, [], .listMembers⟩, ⟨0, [], .getMember (literal "c")⟩]

/-- A member that lapses before its refresh, its removal or its read. -/
def lapsedRun (request : StoreRequest Unit) : List (StoreCall Unit) :=
  [⟨0, [], .setMember idleMember 10⟩, ⟨10, [], request⟩, ⟨0, [], .listMembers⟩]

end Softmaple.Realtime
