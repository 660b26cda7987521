import Quorum.Proofs.Reliable.Coherent
import Quorum.Proofs.Reliable.Incarnation

/-!
# Stamps — when a batch was last known to be on its way

Only ticks put stamps on batches: a batch is kept without a stamp when it is sent for the first
time, and loses its stamp when it is sent again as an answer.  A stamp is therefore the time of a
tick of the same incarnation, and as long as time does not go back, no tick finds a stamp that is
later than itself.

**Main statements.**  `stamp_of_call`: a call that is no tick makes no stamp.  `stamp_of_run`: a
stamp is the time of a tick since the last restart.  `resent_of_ticks`: of two ticks that are
further apart than the period, one sends a given batch again.
-/

namespace Quorum.Reliable

open SortedMap Mesh

section
variable {μ : Type} {period now t t₁ t₂ : Time} {link link' link'' : Link μ} {i : BatchId}
  {kept : Unacked μ}

namespace Link

/-! ### What makes no stamp -/

/-- Every stamp was there before, on a batch of the same number. -/
def KeepsStamps (link link' : Link μ) : Prop :=
  ∀ i kept t, link'.unacked.get? i = some kept → kept.stamp = some t →
    ∃ old, link.unacked.get? i = some old ∧ old.stamp = some t

theorem KeepsStamps.refl (link : Link μ) : link.KeepsStamps link :=
  fun _ kept _ hkept ht => ⟨kept, hkept, ht⟩

theorem KeepsStamps.trans (h : link.KeepsStamps link') (h' : link'.KeepsStamps link'') :
    link.KeepsStamps link'' := by
  intro i kept t hkept ht
  obtain ⟨old, hold, ht⟩ := h' i kept t hkept ht
  exact h i old t hold ht

theorem keepsStamps_accept (link : Link μ) (b : Batch μ) : link.KeepsStamps (link.accept b).1 := by
  intro i kept t hkept ht
  obtain ⟨unacked, received, ackedIn, answeredReset, haccept, hold, -⟩ := accept_eq link b
  rw [haccept] at hkept
  exact ⟨kept, (hold i kept hkept).1, ht⟩

theorem keepsStamps_insert {unacked : SortedMap BatchId (Unacked μ)} {j : BatchId}
    {new : Unacked μ} (hnew : new.stamp = none)
    (hlink : link'.unacked = unacked.insert j new) (hold : unacked = link.unacked) :
    link.KeepsStamps link' := by
  intro i kept t hkept ht
  rw [hlink, get?_insert] at hkept
  split at hkept
  · cases hkept
    rw [hnew] at ht
    cases ht
  · exact ⟨kept, hold ▸ hkept, ht⟩

theorem keepsStamps_reacknowledge (link : Link μ) (id : BatchId) :
    link.KeepsStamps (link.reacknowledge id).1 := by
  rcases reacknowledge_cases link id with ⟨j, kept, -, -, heq⟩ | heq
  · rw [heq]
    exact keepsStamps_insert rfl rfl rfl
  · rw [heq]
    exact .refl link

theorem keepsStamps_sendBatches {id : BatchId} {owed : Option BatchId} {chunks : List (List μ)}
    {ms : List (Message μ)} (h : link.sendBatches id owed chunks = .ok (link', ms)) :
    link.KeepsStamps link' := by
  induction chunks generalizing link id owed ms with
  | nil =>
    cases h
    exact .refl _
  | cons chunk chunks ih =>
    obtain ⟨⟨next, m⟩, hbatch, h⟩ := bind_eq_ok h
    obtain ⟨⟨last, ms⟩, hrest, h⟩ := bind_eq_ok h
    cases h
    obtain ⟨-, -, ackedIn, rfl⟩ := sendBatch_eq_ok hbatch
    exact (keepsStamps_insert rfl rfl rfl).trans (ih hrest)

theorem keepsStamps_post {news : List μ} {owed : Option BatchId} {ms : List (Message μ)}
    (h : link.post news owed = .ok (link', ms)) : link.KeepsStamps link' := by
  unfold post at h
  split at h
  · cases h
    exact .refl link
  · split at h
    · cases h
      exact .refl link
    · exact keepsStamps_sendBatches h

theorem keepsStamps_settleNumbering {next : BatchId} {ms : List (Message μ)}
    (h : link.settleNumbering next = .ok (link', ms)) : link.KeepsStamps link' := by
  unfold settleNumbering at h
  have hpost := keepsStamps_post h
  exact fun i kept t hkept ht => hpost i kept t hkept ht

/-! ### Ticks -/

theorem get?_unacked_tick : (link.tick period now).unacked.get? i =
    (link.unacked.get? i).map fun kept => (Unacked.tick period now kept).1 :=
  get?_mapVals _ _ _

theorem batch_mem_resent {b : Batch μ} : .batch b ∈ link.resent period now ↔
    ∃ i kept, link.unacked.get? i = some kept ∧ (Unacked.tick period now kept).2 = true ∧
      kept.batch = b := by
  have hrequest : Message.batch b ∉
      (if link.needsReset then [.reset .request] else [] : List (Message μ)) := by
    split
    · exact fun h => by cases List.mem_singleton.mp h
    · exact List.not_mem_nil
  rw [resent, List.mem_append, or_iff_left hrequest, List.mem_map]
  constructor
  · rintro ⟨kept, hkept, hb⟩
    obtain ⟨hvalue, hwaited⟩ := List.mem_filter.mp hkept
    obtain ⟨⟨i, _⟩, hentry, rfl⟩ := List.mem_map.mp hvalue
    exact ⟨i, _, mem_entries_iff.mp hentry, hwaited, Message.batch.inj hb⟩
  · rintro ⟨i, kept, hkept, hwaited, rfl⟩
    refine ⟨kept, List.mem_filter.mpr ⟨?_, hwaited⟩, rfl⟩
    exact List.mem_map.mpr ⟨_, mem_entries_iff.mpr hkept, rfl⟩

theorem stamp_tick {kept' : Unacked μ}
    (hkept' : (link.tick period now).unacked.get? i = some kept') (ht : kept'.stamp = some t) :
    t = now ∨ ∃ kept, link.unacked.get? i = some kept ∧ kept.stamp = some t := by
  rw [get?_unacked_tick] at hkept'
  obtain ⟨kept, hkept, rfl⟩ := Option.map_eq_some_iff.mp hkept'
  unfold Unacked.tick at ht
  split at ht
  · exact .inl (Option.some.inj ht).symm
  · split at ht
    · exact .inl (Option.some.inj ht).symm
    · exact .inr ⟨kept, hkept, ht⟩

/-- **Of two ticks that are further apart than the period, one sends a given batch again**, if its
stamp is not later than the first of them. -/
theorem resent_of_ticks (hkept : link.unacked.get? i = some kept)
    (hstamp : ∀ t, kept.stamp = some t → t ≤ t₁) (ht : t₁ + period < t₂) :
    .batch kept.batch ∈ link.resent period t₁ ∨
      .batch kept.batch ∈ (link.tick period t₁).resent period t₂ := by
  rw [batch_mem_resent, batch_mem_resent]
  by_cases hwaited : (Unacked.tick period t₁ kept).2 = true
  · exact .inl ⟨i, kept, hkept, hwaited, rfl⟩
  · right
    refine ⟨i, (Unacked.tick period t₁ kept).1, ?_, ?_, batch_tick period t₁ kept⟩
    · rw [get?_unacked_tick, hkept]
      rfl
    · -- the batch has a stamp now, not later than the first tick
      obtain ⟨t, hstamped, hle⟩ :
          ∃ t, (Unacked.tick period t₁ kept).1.stamp = some t ∧ t ≤ t₁ := by
        cases hold : kept.stamp with
        | none => exact ⟨t₁, by rw [Unacked.tick, hold], Nat.le_refl _⟩
        | some t =>
          have hrecent : ¬ t + period < t₁ := fun hlt =>
            hwaited (by simp only [Unacked.tick, hold, if_pos hlt])
          refine ⟨t, ?_, hstamp t hold⟩
          simp only [Unacked.tick, hold, if_neg hrecent]
      rw [Unacked.tick, hstamped]
      have hlt : t + period < t₂ := Nat.lt_of_le_of_lt (Nat.add_le_add_right hle period) ht
      simp only [if_pos hlt]

end Link

end

/-! ### Calls -/

section
variable {P : Protocol} {period : Time} {me : NodeId} {s : State P} {c : Call P}
  {r : Reaction (State P) (Message P.Msg)} {q : NodeId} {i : BatchId} {kept : Unacked P.Msg}
  {t : Time}

theorem keepsStamps_setLink {sender : NodeId} {link : Link P.Msg}
    (h : (s.link sender).KeepsStamps link) (q : NodeId) :
    (s.link q).KeepsStamps ((s.setLink sender link).link q) := by
  rw [link_setLink]
  split
  · rename_i hq
    exact hq ▸ h
  · exact .refl _

theorem keepsStamps_onBatch {sender : NodeId} {b : Batch P.Msg} (hsender : sender ∉ s.dismissed)
    (h : onBatch me s sender b = .ok r) (q : NodeId) :
    (s.link q).KeepsStamps (r.state.link q) := by
  have haccept := (s.link sender).keepsStamps_accept b
  rcases onBatch_cases h with ⟨-, rfl⟩ | ⟨id, -, -, rfl⟩ | ⟨id, inner, -, -, -, h⟩
  · exact keepsStamps_setLink haccept q
  · exact keepsStamps_setLink (haccept.trans (Link.keepsStamps_reacknowledge _ id)) q
  · have hpost := (sendAfter_post h (forPeer_of_dismissed hsender id)).2.2 q
    exact (keepsStamps_setLink haccept q).trans (Link.keepsStamps_post hpost)

theorem keepsStamps_onReset {sender : NodeId} {reset : Reset}
    (h : onReset s sender reset = .ok r) (q : NodeId) :
    (s.link q).KeepsStamps (r.state.link q) := by
  rcases onReset_cases h with
    ⟨-, hstate, -⟩ | ⟨-, -, hstate, -⟩ | ⟨next, link, ms, -, -, -, hsettle, hstate, -⟩
  · have hanswer : (s.link sender).KeepsStamps (s.link sender).answerReset.1 :=
      fun i kept t hkept ht => ⟨kept, hkept, ht⟩
    rw [hstate]
    exact keepsStamps_setLink hanswer q
  · rw [hstate, link_setLink_link]
    exact .refl _
  · rw [hstate]
    exact keepsStamps_setLink (Link.keepsStamps_settleNumbering hsettle) q

/-- **A call that is no tick makes no stamp.** -/
theorem stamp_of_call (h : call period me s c = .ok r)
    (hkept : (r.state.link q).unacked.get? i = some kept) (ht : kept.stamp = some t) :
    c = .input (.tick t) ∨ ∃ old, (s.link q).unacked.get? i = some old ∧ old.stamp = some t := by
  match c with
  | .input (.nested input) =>
    obtain ⟨inner, -, h⟩ := bind_eq_ok h
    have hpost := (sendAfter_post h fun _ _ => rfl).2.2 q
    exact .inr (Link.keepsStamps_post hpost i kept t hkept ht)
  | .input (.tick now) =>
    cases h
    rw [(onTick_link period now s q).1] at hkept
    exact (Link.stamp_tick hkept ht).imp_left fun hnow => by rw [hnow]
  | .message sender m =>
    right
    change receive me s sender m = _ at h
    unfold receive at h
    split at h
    · cases h
      exact ⟨kept, hkept, ht⟩
    · rename_i hsender
      cases m with
      | batch b => exact keepsStamps_onBatch hsender h q i kept t hkept ht
      | reset reset => exact keepsStamps_onReset h q i kept t hkept ht
  | .dismiss peer =>
    cases h
    rw [link_dismiss] at hkept
    split at hkept
    · cases hkept
    · exact .inr ⟨kept, hkept, ht⟩

end

/-! ### Runs -/

section
variable {P : Protocol} {period : Time} {mesh : Mesh (P.recorded.reliable period)}
  {ids : List NodeId} {past : List (Moment (P.recorded.reliable period))} {a q : NodeId}
  {i : BatchId} {kept : Unacked P.Msg} {t : Time}

/-- **A stamp is the time of a tick** that its node has had since it last restarted. -/
theorem stamp_of_run (hrun : Run ids IsLossy past mesh)
    (hkept : (mesh.channel a q).unacked.get? i = some kept) (ht : kept.stamp = some t) :
    ∃ x, Since past a x ∧ x.event = .input a (.tick t) := by
  induction hrun generalizing i kept t with
  | start h =>
    rw [((start_views h).2 a).1 q] at hkept
    cases hkept
  | @step past mesh e mesh' hrun he h ih =>
    obtain ⟨node, s, s', out, hs, hacts, rfl⟩ := step_spec h
    by_cases hnode : node = a
    · subst hnode
      rw [Mesh.channel, view_turned_self] at hkept
      have hold : ∀ {old : Unacked P.Msg}, (State.link (P := P.recorded) s q).unacked.get? i =
          some old → old.stamp = some t → e.isRestart node = false →
          ∃ x, Since (⟨mesh, e, mesh.turned node s' out⟩ :: past) node x ∧
            x.event = .input node (.tick t) := by
        intro old hold ht hrestart
        have hchannel : mesh.channel node q = State.link (P := P.recorded) s q := view_of_get? hs
        rw [← hchannel] at hold
        obtain ⟨x, hsince, hx⟩ := ih hold ht
        exact ⟨x, hsince.cons hrestart, hx⟩
      cases hacts with
      | @input input r hinput =>
        have hcall : call (P := P.recorded) period node s (.input input) = .ok r := hinput
        rcases stamp_of_call hcall hkept ht with htick | ⟨old, hget, ht⟩
        · cases htick
          exact ⟨_, .self, rfl⟩
        · exact hold hget ht rfl
      | @deliver k p r hp hto hreceive =>
        have hcall : call (P := P.recorded) period node s (.message p.sender p.body) = .ok r :=
          hreceive
        rcases stamp_of_call hcall hkept ht with htick | ⟨old, hget, ht⟩
        · cases htick
        · exact hold hget ht rfl
      | forge => cases he
      | modify =>
        obtain ⟨peer, rfl⟩ := he
        have hcall : call (P := P.recorded) period node s (.dismiss peer) =
            .ok { state := State.dismiss s peer } := rfl
        rcases stamp_of_call hcall hkept ht with htick | ⟨old, hget, ht⟩
        · cases htick
        · exact hold hget ht rfl
      | restart hstart =>
        rw [(start_eq_ok hstart).1 q] at hkept
        cases hkept
    · have hrestart : e.isRestart a = false := by
        refine Event.isRestart_eq_false.mpr ?_
        rintro rfl
        cases hacts
        exact hnode rfl
      rw [Mesh.channel, view_turned_ne _ _ _ _ _ hnode] at hkept
      obtain ⟨x, hsince, hx⟩ := ih hkept ht
      exact ⟨x, hsince.cons hrestart, hx⟩

end

end Quorum.Reliable
