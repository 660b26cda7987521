import Quorum.Proofs.Reliable.Act

/-!
# Coherent — a channel finds the batch that carried an acknowledgement

For a number received, a channel remembers the number of its own batch that carried the
acknowledgement.  As long as that batch is kept, it is found under this number, and it does carry
the acknowledgement: numbers are given in increasing order, and what is given up about a batch is
given up in both places.

**Main statements.**  `Link.Coherent.act`: every act on a channel keeps this.
`State.Coherent.call`: so does every call of a node.
-/

namespace Quorum.Reliable

open SortedMap

section
variable {μ : Type} {link link' : Link μ}

/-- What is kept is found under its own number, and where the carrier of an acknowledgement is kept,
it carries the acknowledgement. -/
structure Link.Coherent (link : Link μ) : Prop where
  own : ∀ j kept, link.unacked.get? j = some kept → kept.batch.id = some j
  /-- Carriers have got their numbers from this channel. -/
  below : ∀ i j, link.ackedIn.get? i = some j →
    ∃ next, link.nextId = some next ∧ j.toNat < next.toNat
  carries : ∀ i j kept, link.ackedIn.get? i = some j → link.unacked.get? j = some kept →
    i ∈ kept.batch.acks

namespace Link

theorem coherent_empty : ({} : Link μ).Coherent := ⟨nofun, nofun, nofun⟩

/-- Nothing is found that was not found before. -/
structure Forgets (link link' : Link μ) : Prop where
  nextId : link'.nextId = link.nextId
  unacked : ∀ j kept', link'.unacked.get? j = some kept' →
    ∃ kept, link.unacked.get? j = some kept ∧ kept.batch = kept'.batch
  ackedIn : ∀ i j, link'.ackedIn.get? i = some j → link.ackedIn.get? i = some j

theorem Forgets.refl (link : Link μ) : link.Forgets link :=
  ⟨rfl, fun _ kept h => ⟨kept, h, rfl⟩, fun _ _ h => h⟩

theorem Forgets.trans {link'' : Link μ} (h : link.Forgets link') (h' : link'.Forgets link'') :
    link.Forgets link'' where
  nextId := h'.nextId.trans h.nextId
  unacked j kept'' hkept'' := by
    obtain ⟨kept', hkept', hsame'⟩ := h'.unacked j kept'' hkept''
    obtain ⟨kept, hkept, hsame⟩ := h.unacked j kept' hkept'
    exact ⟨kept, hkept, hsame.trans hsame'⟩
  ackedIn i j hi := h.ackedIn i j (h'.ackedIn i j hi)

theorem Coherent.forgets (hlink : link.Coherent) (h : link.Forgets link') : link'.Coherent where
  own j kept' hkept' := by
    obtain ⟨kept, hkept, hsame⟩ := h.unacked j kept' hkept'
    rw [← hsame]
    exact hlink.own j kept hkept
  below i j hi := by
    rw [h.nextId]
    exact hlink.below i j (h.ackedIn i j hi)
  carries i j kept' hi hkept' := by
    obtain ⟨kept, hkept, hsame⟩ := h.unacked j kept' hkept'
    rw [← hsame]
    exact hlink.carries i j kept (h.ackedIn i j hi) hkept

/-! ### Receiving -/

theorem get?_of_filter {κ α : Type} [Ranked κ] {m : SortedMap κ α} {keep : κ → α → Bool} {k : κ}
    {a : α} (h : (m.filter keep).get? k = some a) : m.get? k = some a := by
  rw [get?_filter, Option.filter_eq_some_iff] at h
  exact h.1

theorem forgets_acked (link : Link μ) (id : BatchId) : link.Forgets (link.acked id) := by
  unfold acked
  split
  · exact ⟨rfl, fun j kept h => ⟨kept, get?_of_filter h, rfl⟩, fun i j h => get?_of_filter h⟩
  · exact .refl link

theorem forgets_foldl_acked (link : Link μ) (acks : List BatchId) :
    link.Forgets (acks.foldl acked link) := by
  induction acks generalizing link with
  | nil => exact .refl link
  | cons ack acks ih => exact (forgets_acked link ack).trans (ih _)

theorem forgets_forgetPrevious (link : Link μ) : link.Forgets link.forgetPrevious := by
  unfold forgetPrevious
  split
  · exact .refl link
  · exact ⟨rfl, (Forgets.refl link).unacked, fun i j h => get?_of_filter h⟩

/-- **Taking note of a batch is forgetting.** -/
theorem forgets_accept (link : Link μ) (b : Batch μ) : link.Forgets (link.accept b).1 := by
  have hacked := forgets_foldl_acked link b.acks
  unfold accept
  dsimp only
  cases b.id with
  | none => exact hacked
  | some id =>
    have hforget := hacked.trans (forgets_forgetPrevious _)
    dsimp only
    by_cases hrun : (b.acks.foldl acked link).startsNewRun id
    · simp only [if_pos hrun]
      exact ⟨hforget.nextId, hforget.unacked, hforget.ackedIn⟩
    · simp only [if_neg hrun]
      exact ⟨hacked.nextId, hacked.unacked, hacked.ackedIn⟩

/-- What acknowledges a number again is the batch that carried the acknowledgement, which is kept,
or the acknowledgement alone. -/
theorem reacknowledge_cases (link : Link μ) (id : BatchId) :
    (∃ j kept, link.ackedIn.get? id = some j ∧ link.unacked.get? j = some kept ∧
      link.reacknowledge id =
        ({ link with unacked := link.unacked.insert j { kept with stamp := none } },
          .batch kept.batch)) ∨
    link.reacknowledge id = (link, .batch { acks := [id] }) := by
  unfold reacknowledge
  dsimp only
  split
  · rename_i carrier kept hcarrier
    obtain ⟨j, hj, hcarrier⟩ := Option.bind_eq_some_iff.mp hcarrier
    obtain ⟨kept', hkept, hcarrier⟩ := Option.bind_eq_some_iff.mp hcarrier
    cases hcarrier
    exact .inl ⟨_, _, hj, hkept, rfl⟩
  · exact .inr rfl

theorem forgets_reacknowledge (link : Link μ) (id : BatchId) :
    link.Forgets (link.reacknowledge id).1 := by
  rcases reacknowledge_cases link id with ⟨j, kept, -, hkept, heq⟩ | heq
  · rw [heq]
    refine ⟨rfl, fun i kept' hkept' => ?_, fun _ _ h => h⟩
    rw [get?_insert] at hkept'
    split at hkept'
    · rename_i hrank
      cases hkept'
      exact ⟨kept, Ranked.rank_inj hrank ▸ hkept, rfl⟩
    · exact ⟨kept', hkept', rfl⟩
  · rw [heq]
    exact .refl link

theorem forgets_tick (period now : Time) (link : Link μ) :
    link.Forgets (link.tick period now) := by
  refine ⟨rfl, fun j kept' hkept' => ?_, fun _ _ h => h⟩
  change (link.unacked.mapVals _).get? j = some kept' at hkept'
  rw [get?_mapVals] at hkept'
  obtain ⟨kept, hkept, rfl⟩ := Option.map_eq_some_iff.mp hkept'
  exact ⟨kept, hkept, (batch_tick period now kept).symm⟩

/-! ### Sending -/

/-- A new batch is the carrier of the acknowledgement that it takes along, and of no other. -/
theorem ackedIn_sendBatch {id : BatchId} {msgs : List μ} {owed : Option BatchId} {m : Message μ}
    (h : link.sendBatch id msgs owed = .ok (link', m)) : ∀ i j, link'.ackedIn.get? i = some j →
      (owed = some i ∧ j = id) ∨ link.ackedIn.get? i = some j := by
  unfold Link.sendBatch at h
  split at h
  · cases h
  · cases h
    intro i j hi
    cases owed with
    | none => exact .inr hi
    | some ack =>
      change (link.ackedIn.insert ack id).get? i = some j at hi
      rw [get?_insert] at hi
      split at hi
      · rename_i hrank
        cases hi
        exact .inl ⟨congrArg some (Ranked.rank_inj hrank), rfl⟩
      · exact .inr hi

/-- A new batch is kept under its number, which no other carrier has. -/
theorem Coherent.sendBatch (hlink : link.Coherent) {id : BatchId} {msgs : List μ}
    {owed : Option BatchId} {m : Message μ} (h : link.sendBatch id msgs owed = .ok (link', m))
    (hid : link.nextId = some id) : link'.Coherent ∧ link'.nextId = some (id + 1) := by
  have hcarrier : ∀ i j, link.ackedIn.get? i = some j → j.toNat < id.toNat := by
    intro i j hi
    obtain ⟨next, hnext, hlt⟩ := hlink.below i j hi
    cases hid.symm.trans hnext
    exact hlt
  have hcarried := ackedIn_sendBatch h
  obtain ⟨hsucc, rfl, ackedIn, rfl⟩ := sendBatch_eq_ok h
  refine ⟨⟨fun j kept hkept => ?_, fun i j hi => ?_, fun i j kept hi hkept => ?_⟩, rfl⟩
  · rw [get?_insert] at hkept
    split at hkept
    · rename_i hrank
      cases hkept
      exact congrArg some (Ranked.rank_inj hrank)
    · exact hlink.own j kept hkept
  · refine ⟨id + 1, rfl, ?_⟩
    rcases hcarried i j hi with ⟨-, rfl⟩ | hi
    · omega
    · have hlt := hcarrier i j hi
      omega
  · rw [get?_insert] at hkept
    rcases hcarried i j hi with ⟨howed, rfl⟩ | hi
    · rw [if_pos rfl] at hkept
      cases hkept
      exact Option.mem_toList.mpr howed
    · split at hkept
      · rename_i hrank
        have hlt := hcarrier i j hi
        rw [Ranked.rank_inj hrank] at hlt
        exact absurd hlt (Nat.lt_irrefl _)
      · exact hlink.carries i j kept hi hkept

theorem Coherent.sendBatches (hlink : link.Coherent) {id : BatchId} {owed : Option BatchId}
    {chunks : List (List μ)} {ms : List (Message μ)}
    (h : link.sendBatches id owed chunks = .ok (link', ms)) (hid : link.nextId = some id) :
    link'.Coherent := by
  induction chunks generalizing link id owed ms with
  | nil =>
    cases h
    exact hlink
  | cons chunk chunks ih =>
    obtain ⟨⟨next, m⟩, hbatch, h⟩ := bind_eq_ok h
    obtain ⟨⟨last, ms⟩, hrest, h⟩ := bind_eq_ok h
    cases h
    obtain ⟨hnext, hid'⟩ := hlink.sendBatch hbatch hid
    exact ih hnext hrest hid'

/-- **Sending keeps a channel coherent.** -/
theorem Coherent.post (hlink : link.Coherent) {news : List μ} {owed : Option BatchId}
    {ms : List (Message μ)} (h : link.post news owed = .ok (link', ms)) : link'.Coherent := by
  unfold Link.post at h
  split at h
  · cases h
    exact hlink
  · split at h
    · cases h
      exact ⟨hlink.own, hlink.below, hlink.carries⟩
    · rename_i id hid
      exact hlink.sendBatches h hid

/-- Before the numbering is settled there is no carrier, so the new numbers are above all. -/
theorem Coherent.settleNumbering (hlink : link.Coherent) (hid : link.nextId = none)
    {next : BatchId} {ms : List (Message μ)} (h : link.settleNumbering next = .ok (link', ms)) :
    link'.Coherent := by
  have hsettled :
      Coherent { link with nextId := some next, resetSent := false, pending := {} } := by
    refine ⟨hlink.own, fun i j hi => ?_, hlink.carries⟩
    obtain ⟨next', hnext', -⟩ := hlink.below i j hi
    rw [hid] at hnext'
    cases hnext'
  exact hsettled.post h

/-- **Every act keeps a channel coherent.** -/
theorem Coherent.act (hlink : link.Coherent) {period : Time} {came : Option (Message μ)}
    {news : List μ} {ms : List (Message μ)} (h : link.Act period came news link' ms) :
    link'.Coherent := by
  cases h with
  | send h => exact hlink.post h
  | @acks b hid => exact hlink.forgets (forgets_accept link b)
  | @again b id hid hreceived =>
    exact hlink.forgets ((forgets_accept link b).trans (forgets_reacknowledge _ id))
  | @fresh b id _ _ _ hid hfresh h => exact (hlink.forgets (forgets_accept link b)).post h
  | request hr => exact ⟨hlink.own, hlink.below, hlink.carries⟩
  | ignore hr h => exact hlink
  | settle hr hid hnext h => exact hlink.settleNumbering hid h
  | tick now => exact hlink.forgets (forgets_tick period now link)

end Link

end

/-! ### Nodes -/

section
variable {P : Protocol} {period : Time} {me : NodeId} {s : State P} {c : Call P}
  {r : Reaction (State P) (Message P.Msg)}

/-- All channels are coherent, and there is none to a peer that has left. -/
structure State.Coherent (s : State P) : Prop where
  links : ∀ q, (s.link q).Coherent
  gone : ∀ q ∈ s.dismissed, s.link q = {}

theorem coherent_start (nested : P.State) : ({ nested } : State P).Coherent :=
  ⟨fun _ => Link.coherent_empty, fun _ hq => absurd hq List.not_mem_nil⟩

/-- **Every call keeps the channels of a node coherent.** -/
theorem State.Coherent.call (hs : s.Coherent) (h : call period me s c = .ok r) :
    r.state.Coherent where
  links q := by
    by_cases hq : q ∈ r.state.dismissed
    · rw [(call_dismissed h hq (hs.gone q)).1]
      exact Link.coherent_empty
    · obtain ⟨-, nested, -, -, hact⟩ := call_act h hq
      exact (hs.links q).act hact
  gone q hq := (call_dismissed h hq (hs.gone q)).1

theorem State.Coherent.dismiss (hs : s.Coherent) (peer : NodeId) : (s.dismiss peer).Coherent :=
  hs.call (show Reliable.call 0 peer s (.dismiss peer) = .ok { state := s.dismiss peer } from rfl)

end

end Quorum.Reliable
