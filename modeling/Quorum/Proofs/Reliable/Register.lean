import Quorum.Proofs.Reliable.Act
import Quorum.Proofs.Reliable.Posting
import Quorum.Proofs.SortedMap

/-!
# Register — the batches of a channel and their numbers

A channel that has its numbering settled gives out consecutive numbers.  A `Register` of a channel
lists the batches that have got one, in order, and says what the channel remembers of them: the
next number, and the batches that are still kept.  An act on the channel adds batches to the
register and sends them, or sends again what is kept; what it takes in goes into batches or waits,
in order.

**Main statements.**  `Register.post`: sending adds to the register.  `Register.act`: so does every
act.
-/

namespace Quorum.Reliable

open SortedMap Link

section
variable {μ : Type}

/-! ### Batches with numbers -/

def numbered (ms : List (Message μ)) : List (Batch μ) :=
  ms.filterMap fun
    | .batch b => if b.id.isSome then some b else none
    | .reset _ => none

theorem mem_numbered {ms : List (Message μ)} {b : Batch μ} :
    b ∈ numbered ms ↔ .batch b ∈ ms ∧ b.id ≠ none := by
  simp only [numbered, List.mem_filterMap]
  constructor
  · rintro ⟨m, hm, h⟩
    cases m with
    | batch b' =>
      obtain ⟨hid, h⟩ := Option.ite_none_right_eq_some.mp h
      cases h
      exact ⟨hm, Option.isSome_iff_ne_none.mp hid⟩
    | reset r => cases h
  · rintro ⟨hb, hid⟩
    exact ⟨_, hb, if_pos (Option.isSome_iff_ne_none.mpr hid)⟩

@[simp] theorem numbered_nil : numbered ([] : List (Message μ)) = [] := rfl

theorem numbered_append (ms ms' : List (Message μ)) :
    numbered (ms ++ ms') = numbered ms ++ numbered ms' :=
  List.filterMap_append

theorem numbered_cons_of_id {b : Batch μ} {id : BatchId} (hid : b.id = some id)
    (ms : List (Message μ)) : numbered (.batch b :: ms) = b :: numbered ms :=
  List.filterMap_cons_some (if_pos (by rw [hid]; rfl))

theorem numbered_ackAlone (owed : Option BatchId) :
    numbered (ackAlone owed : List (Message μ)) = [] := by
  cases owed <;> rfl

theorem numbered_buffer (link : Link μ) (msgs : List μ) :
    numbered (link.buffer msgs).2 = [] := by
  cases hsent : link.resetSent <;> simp [buffer, hsent, numbered]

theorem numbers_eq (ms : List (Message μ)) : numbers ms = (numbered ms).filterMap (·.id) := by
  rw [numbers, numbered, List.filterMap_filterMap]
  refine congrArg (List.filterMap · ms) (funext fun m => ?_)
  cases m with
  | batch b => cases hid : b.id <;> simp [Message.number?, hid]
  | reset r => rfl

theorem mem_numbers {ms : List (Message μ)} {i : BatchId} :
    i ∈ numbers ms ↔ ∃ b, .batch b ∈ ms ∧ b.id = some i := by
  simp only [numbers_eq, List.mem_filterMap, mem_numbered]
  refine exists_congr fun b => ⟨fun h => ⟨h.1.1, h.2⟩, fun h => ⟨⟨h.1, ?_⟩, h.2⟩⟩
  rw [h.2]
  exact Option.some_ne_none i

/-- The batches of a list have consecutive numbers, the first one `base`. -/
def Consecutive (base : Nat) (bs : List (Batch μ)) : Prop :=
  ∀ k b, bs[k]? = some b → ∃ i, b.id = some i ∧ i.toNat = base + k

section
variable {base : Nat} {bs : List (Batch μ)}

theorem Consecutive.nil (base : Nat) : Consecutive base ([] : List (Batch μ)) := by
  intro k b h
  cases h

theorem Consecutive.concat (h : Consecutive base bs) {b : Batch μ} {i : BatchId}
    (hid : b.id = some i) (hi : i.toNat = base + bs.length) : Consecutive base (bs ++ [b]) := by
  intro k b' hk
  rcases Nat.lt_or_ge k bs.length with hlt | hge
  · rw [List.getElem?_append_left hlt] at hk
    exact h k b' hk
  · rw [List.getElem?_append_right hge, List.getElem?_singleton] at hk
    obtain ⟨hzero, hk⟩ := Option.ite_none_right_eq_some.mp hk
    cases hk
    exact ⟨i, hid, by omega⟩

theorem Consecutive.id_of_mem (h : Consecutive base bs) {b : Batch μ} (hb : b ∈ bs) :
    ∃ i, b.id = some i ∧ base ≤ i.toNat ∧ i.toNat < base + bs.length := by
  obtain ⟨k, hk⟩ := List.getElem?_of_mem hb
  obtain ⟨i, hid, hi⟩ := h k b hk
  have hlt := (List.getElem?_eq_some_iff.mp hk).1
  exact ⟨i, hid, by omega, by omega⟩

theorem Consecutive.eq_of_id_eq (h : Consecutive base bs) {b b' : Batch μ} (hb : b ∈ bs)
    (hb' : b' ∈ bs) (hid : b.id = b'.id) : b = b' := by
  obtain ⟨k, hk⟩ := List.getElem?_of_mem hb
  obtain ⟨k', hk'⟩ := List.getElem?_of_mem hb'
  obtain ⟨i, hi, hnumber⟩ := h k b hk
  obtain ⟨i', hi', hnumber'⟩ := h k' b' hk'
  rw [hi, hi'] at hid
  cases hid
  obtain rfl : k = k' := by omega
  rw [hk] at hk'
  exact Option.some.inj hk'

theorem Consecutive.numbers (h : Consecutive base bs) :
    (bs.filterMap (·.id)).map UInt32.toNat = List.range' base bs.length := by
  induction bs generalizing base with
  | nil => rfl
  | cons b bs ih =>
    obtain ⟨i, hid, hi⟩ := h 0 b rfl
    have hrest : Consecutive (base + 1) bs := by
      intro k b' hk
      obtain ⟨i', hid', hi'⟩ := h (k + 1) b' hk
      exact ⟨i', hid', by omega⟩
    rw [List.filterMap_cons_some hid, List.map_cons, ih hrest, hi, List.length_cons,
      List.range'_succ]
    rfl

end

/-- A batch that carries something and not too much, and one acknowledgement at most. -/
structure Batch.WellSized (b : Batch μ) : Prop where
  one_le : 1 ≤ b.msgs.length
  le_max : b.msgs.length ≤ maxBatch
  acks_le : b.acks.length ≤ 1

/-! ### The register of a channel -/

/-- The channel has given numbers, from `base` on, to the batches `bs`. -/
structure Register (base : Nat) (bs : List (Batch μ)) (link : Link μ) : Prop where
  consecutive : Consecutive base bs
  sized : ∀ b ∈ bs, b.WellSized
  next : ∀ id, link.nextId = some id → id.toNat = base + bs.length
  unsettled : link.nextId = none → bs = []
  kept : ∀ i kept, link.unacked.get? i = some kept → kept.batch ∈ bs ∧ kept.batch.id = some i
  /-- Messages wait for the handshake only. -/
  flushed : link.nextId ≠ none → link.pending.toList = []

/-- What an act on a channel does with its register: the batches `new` are added. -/
structure Advance (link : Link μ) (came : Option (Message μ)) (news : List μ)
    (new : List (Batch μ)) (link' : Link μ) (ms : List (Message μ)) : Prop where
  /-- What is sent with a number is new, or all of it is kept. -/
  sends : numbered ms = new ∨ (new = [] ∧ ∀ b ∈ numbered ms, ∃ i kept,
    link'.unacked.get? i = some kept ∧ kept.batch = b)
  /-- What is taken in goes into batches, or waits, in order. -/
  conserved : new.flatMap (·.msgs) ++ link'.pending.toList = link.pending.toList ++ news
  /-- What is kept is new, or was kept and is not acknowledged. -/
  keeps : ∀ i, link'.unacked.contains i → (∃ b ∈ new, b.id = some i) ∨
    (link.unacked.contains i ∧ ∀ m ∈ came, i ∉ m.acks)

variable {base : Nat} {bs : List (Batch μ)} {link link' : Link μ} {came : Option (Message μ)}
  {news : List μ} {ms : List (Message μ)}

theorem Register.start (base : Nat) : Register base [] ({} : Link μ) where
  consecutive := .nil base
  sized _ hb := absurd hb List.not_mem_nil
  next _ hid := by cases hid
  unsettled _ := rfl
  kept _ _ hkept := by cases hkept
  flushed h := absurd rfl h

/-- A register is about the numbering, what waits, and which batches are kept. -/
theorem Register.congr (hreg : Register base bs link) (hnext : link'.nextId = link.nextId)
    (hpending : link'.pending = link.pending)
    (hkept : ∀ i kept', link'.unacked.get? i = some kept' →
      ∃ kept, link.unacked.get? i = some kept ∧ kept.batch = kept'.batch) :
    Register base bs link' where
  consecutive := hreg.consecutive
  sized := hreg.sized
  next := by rw [hnext]; exact hreg.next
  unsettled := by rw [hnext]; exact hreg.unsettled
  kept := fun i kept' h => by
    obtain ⟨kept, h, hsame⟩ := hkept i kept' h
    rw [← hsame]
    exact hreg.kept i kept h
  flushed := by rw [hnext, hpending]; exact hreg.flushed

theorem Advance.quiet (hpending : link'.pending = link.pending)
    (hsends : ∀ b ∈ numbered ms, ∃ i kept, link'.unacked.get? i = some kept ∧ kept.batch = b)
    (hkeeps : ∀ i, link'.unacked.contains i →
      link.unacked.contains i ∧ ∀ m ∈ came, i ∉ m.acks) :
    Advance link came [] [] link' ms where
  sends := .inr ⟨rfl, hsends⟩
  conserved := by rw [hpending, List.flatMap_nil, List.nil_append, List.append_nil]
  keeps := fun i hi => .inr (hkeeps i hi)

/-! ### Sending -/

theorem Register.sendBatch (hreg : Register base bs link) {id : BatchId} {msgs : List μ}
    {owed : Option BatchId} {m : Message μ}
    (h : link.sendBatch id msgs owed = .ok (link', m)) (hid : link.nextId = some id)
    (hpos : 1 ≤ msgs.length) (hmax : msgs.length ≤ maxBatch) :
    ∃ b : Batch μ, m = .batch b ∧ b.id = some id ∧ b.msgs = msgs ∧
      Register base (bs ++ [b]) link' ∧ link'.nextId = some (id + 1) ∧
      link'.pending = link.pending ∧
      ∀ i, link'.unacked.contains i ↔ i = id ∨ link.unacked.contains i := by
  obtain ⟨hsucc, rfl, ackedIn, rfl⟩ := sendBatch_eq_ok h
  have hnumber := hreg.next id hid
  refine ⟨_, rfl, rfl, rfl, ?_, rfl, rfl, fun i => ?_⟩
  · exact
      { consecutive := hreg.consecutive.concat rfl hnumber
        sized := fun b hb => by
          rcases List.mem_append.mp hb with hb | hb
          · exact hreg.sized b hb
          · rw [List.mem_singleton.mp hb]
            exact ⟨hpos, hmax, Option.length_toList_le⟩
        next := fun id' hid' => by
          cases hid'
          rw [List.length_append, List.length_singleton]
          omega
        unsettled := fun hnone => by cases hnone
        kept := fun i kept hkept => by
          change (link.unacked.insert id _).get? i = some kept at hkept
          rw [get?_insert] at hkept
          split at hkept
          · rename_i hrank
            cases hkept
            exact ⟨List.mem_append_right _ (List.mem_singleton_self _),
              congrArg some (Ranked.rank_inj hrank)⟩
          · obtain ⟨hmem, hkey⟩ := hreg.kept i kept hkept
            exact ⟨List.mem_append_left _ hmem, hkey⟩
        flushed := fun _ => hreg.flushed (by rw [hid]; exact Option.some_ne_none id) }
  · change (link.unacked.insert id _).contains i ↔ _
    rw [contains_insert]
    exact or_congr_left eq_comm

theorem Register.sendBatches (hreg : Register base bs link) {id : BatchId}
    {owed : Option BatchId} {chunks : List (List μ)}
    (h : link.sendBatches id owed chunks = .ok (link', ms)) (hid : link.nextId = some id)
    (hchunks : ∀ chunk ∈ chunks, 1 ≤ chunk.length ∧ chunk.length ≤ maxBatch) :
    Register base (bs ++ numbered ms) link' ∧ link'.nextId ≠ none ∧
      link'.pending = link.pending ∧ (numbered ms).flatMap (·.msgs) = chunks.flatten ∧
      ∀ i, link'.unacked.contains i →
        (∃ b ∈ numbered ms, b.id = some i) ∨ link.unacked.contains i := by
  induction chunks generalizing link id owed ms bs with
  | nil =>
    cases h
    refine ⟨?_, ?_, rfl, rfl, fun i hi => .inr hi⟩
    · rw [numbered_nil, List.append_nil]
      exact hreg
    · rw [hid]
      exact Option.some_ne_none id
  | cons chunk chunks ih =>
    obtain ⟨⟨next, m⟩, hbatch, h⟩ := bind_eq_ok h
    obtain ⟨⟨last, ms⟩, hrest, h⟩ := bind_eq_ok h
    cases h
    obtain ⟨hchunk, hchunks⟩ := List.forall_mem_cons.mp hchunks
    obtain ⟨b, rfl, hb, hmsgs, hreg', hnext, hpending, hkept⟩ :=
      hreg.sendBatch hbatch hid hchunk.1 hchunk.2
    obtain ⟨hlast, hsettled, hpending', hcarried, hkept'⟩ := ih hreg' hrest hnext hchunks
    rw [numbered_cons_of_id hb]
    refine ⟨?_, hsettled, hpending'.trans hpending, ?_, fun i hi => ?_⟩
    · rw [← List.singleton_append, ← List.append_assoc]
      exact hlast
    · rw [List.flatMap_cons, hmsgs, hcarried, List.flatten_cons]
    · rcases hkept' i hi with ⟨b', hb', hid'⟩ | hi
      · exact .inl ⟨b', List.mem_cons_of_mem _ hb', hid'⟩
      · rcases (hkept i).mp hi with rfl | hi
        · exact .inl ⟨b, List.mem_cons_self .., hb⟩
        · exact .inr hi

theorem Register.buffer (hreg : Register base bs link) (hid : link.nextId = none) (news : List μ)
    (owed : Option BatchId) :
    let sent := (link.buffer news).2 ++ ackAlone owed
    Register base (bs ++ numbered sent) (link.buffer news).1 ∧
      Advance link none news (numbered sent) (link.buffer news).1 sent ∧
      ((link.buffer news).1.nextId = none ↔ link.nextId = none) := by
  have hnone : numbered ((link.buffer news).2 ++ ackAlone owed) = [] := by
    rw [numbered_append, numbered_ackAlone, List.append_nil, numbered_buffer]
  dsimp only
  rw [hnone, List.append_nil]
  refine ⟨?_, ?_, Iff.rfl⟩
  · exact { hreg with flushed := fun hsettled => absurd hid hsettled }
  · exact
      { sends := .inl hnone
        conserved := by rw [List.flatMap_nil, List.nil_append, Link.buffer, Fifo.toList_pushAll]
        keeps := fun i hi => .inr ⟨hi, nofun⟩ }

/-- **Sending adds to the register.** -/
theorem Register.post (hreg : Register base bs link) {owed : Option BatchId}
    (h : link.post news owed = .ok (link', ms)) :
    Register base (bs ++ numbered ms) link' ∧ Advance link none news (numbered ms) link' ms ∧
      (link'.nextId = none ↔ link.nextId = none) := by
  unfold Link.post at h
  split at h
  · rename_i hnil
    cases h
    rw [List.isEmpty_iff.mp hnil, numbered_ackAlone, List.append_nil]
    refine ⟨hreg, .quiet rfl ?_ fun i hi => ⟨hi, nofun⟩, Iff.rfl⟩
    rw [numbered_ackAlone]
    exact fun b hb => absurd hb List.not_mem_nil
  · split at h
    · rename_i hid
      cases h
      exact hreg.buffer hid news owed
    · rename_i id hid
      obtain ⟨hreg', hsettled, hpending, hcarried, hkept⟩ :=
        hreg.sendBatches h hid fun chunk hchunk =>
          ⟨List.length_pos_iff.mpr (ne_nil_of_mem_pieces (by decide) hchunk),
            length_le_of_mem_pieces hchunk⟩
      have hsome : link.nextId ≠ none := by
        rw [hid]
        exact Option.some_ne_none id
      refine ⟨hreg', ?_, iff_of_false hsettled hsome⟩
      exact
        { sends := .inl rfl
          conserved := by
            rw [hcarried, flatten_pieces (by decide) (Nat.le_refl _), hpending,
              hreg.flushed hsome, List.append_nil, List.nil_append]
          keeps := fun i hi => (hkept i hi).imp_right fun hi => ⟨hi, nofun⟩ }

theorem not_mem_acks_reset {reset : Reset} {i : BatchId} :
    ∀ m ∈ some (Message.reset reset : Message μ), i ∉ m.acks := by
  intro m hm
  cases hm
  exact List.not_mem_nil

/-- When the numbering is settled, the register starts with the number after the answer. -/
theorem Register.settleNumbering (hreg : Register base bs link) {latest next : BatchId}
    (hid : link.nextId = none) (hnext : latest.next? = some next)
    (h : link.settleNumbering next = .ok (link', ms)) :
    Register (latest.toNat + 1) (bs ++ numbered ms) link' ∧
      Advance link (some (.reset ⟨true, latest⟩)) [] (numbered ms) link' ms ∧
      link'.nextId ≠ none := by
  obtain rfl := hreg.unsettled hid
  have hbase := BatchId.next?_eq_some.mp hnext
  have hstart : Register (latest.toNat + 1) []
      { link with nextId := some next, resetSent := false, pending := {} } :=
    { consecutive := .nil _
      sized := hreg.sized
      next := fun id hid => by
        cases hid
        exact hbase
      unsettled := fun _ => rfl
      kept := hreg.kept
      flushed := fun _ => rfl }
  obtain ⟨hreg', hadvance, hsettled⟩ := hstart.post h
  refine ⟨hreg', ?_, fun hnone => Option.some_ne_none next (hsettled.mp hnone)⟩
  exact
    { sends := hadvance.sends
      conserved := by simpa using hadvance.conserved
      keeps := fun i hi => (hadvance.keeps i hi).imp_right fun h => ⟨h.1, not_mem_acks_reset⟩ }

/-! ### Acts -/

theorem Register.accept (hreg : Register base bs link) (b : Batch μ) :
    Register base bs (link.accept b).1 ∧ (link.accept b).1.nextId = link.nextId ∧
      (link.accept b).1.pending = link.pending ∧
      ∀ i, (link.accept b).1.unacked.contains i → link.unacked.contains i ∧ i ∉ b.acks := by
  obtain ⟨unacked, received, ackedIn, answeredReset, haccept, hold, -⟩ := accept_eq link b
  rw [haccept]
  refine ⟨hreg.congr rfl rfl fun i kept hkept => ⟨kept, (hold i kept hkept).1, rfl⟩, rfl, rfl,
    fun i hi => ?_⟩
  obtain ⟨kept, hkept⟩ := get?_of_contains hi
  exact ⟨contains_of_get? (hold i kept hkept).1, (hold i kept hkept).2⟩

/-- A batch that comes again has the register stay as it is, and something kept sent again. -/
theorem Register.reacknowledge (hreg : Register base bs link) (id : BatchId) :
    Register base bs (link.reacknowledge id).1 ∧
      (link.reacknowledge id).1.nextId = link.nextId ∧
      (link.reacknowledge id).1.pending = link.pending ∧
      (∀ b ∈ numbered [(link.reacknowledge id).2], ∃ i kept,
        (link.reacknowledge id).1.unacked.get? i = some kept ∧ kept.batch = b) ∧
      ∀ i, (link.reacknowledge id).1.unacked.contains i → link.unacked.contains i := by
  simp only [Link.reacknowledge]
  split
  · rename_i carrier kept hcarrier
    obtain ⟨i, -, hcarrier⟩ := Option.bind_eq_some_iff.mp hcarrier
    obtain ⟨kept', hkept, hcarrier⟩ := Option.bind_eq_some_iff.mp hcarrier
    cases hcarrier
    refine ⟨hreg.congr rfl rfl fun i kept' hkept' => ?_, rfl, rfl, fun b hb => ?_, fun i hi => ?_⟩
    · change (link.unacked.insert carrier _).get? i = some kept' at hkept'
      rw [get?_insert] at hkept'
      split at hkept'
      · rename_i hrank
        cases hkept'
        exact ⟨kept, Ranked.rank_inj hrank ▸ hkept, rfl⟩
      · exact ⟨kept', hkept', rfl⟩
    · obtain ⟨hb, -⟩ := mem_numbered.mp hb
      cases List.mem_singleton.mp hb
      exact ⟨carrier, _, get?_insert_self .., rfl⟩
    · rcases contains_insert.mp hi with rfl | hi
      · exact contains_of_get? hkept
      · exact hi
  · refine ⟨hreg, rfl, rfl, fun b hb => ?_, fun i hi => hi⟩
    obtain ⟨hb, hid⟩ := mem_numbered.mp hb
    cases List.mem_singleton.mp hb
    exact absurd rfl hid

/-- A tick leaves the register as it is, and sends again what is kept. -/
theorem Register.tick (hreg : Register base bs link) (period now : Time) :
    Register base bs (link.tick period now) ∧
      (∀ b ∈ numbered (link.resent period now), ∃ i kept,
        (link.tick period now).unacked.get? i = some kept ∧ kept.batch = b) ∧
      ∀ i, (link.tick period now).unacked.contains i → link.unacked.contains i := by
  refine ⟨hreg.congr rfl rfl fun i kept' hkept' => ?_, fun b hb => ?_, fun i hi => ?_⟩
  · change (link.unacked.mapVals _).get? i = some kept' at hkept'
    rw [get?_mapVals] at hkept'
    obtain ⟨kept, hkept, rfl⟩ := Option.map_eq_some_iff.mp hkept'
    exact ⟨kept, hkept, (batch_tick period now kept).symm⟩
  · obtain ⟨hb, -⟩ := mem_numbered.mp hb
    rcases (tick_turn period now link).sends b hb with hnone | ⟨i, kept, hkept, rfl⟩ | ⟨hid, -⟩
    · cases hnone
    · refine ⟨i, (Unacked.tick period now kept).1, ?_, batch_tick period now kept⟩
      change (link.unacked.mapVals _).get? i = _
      rw [get?_mapVals, hkept]
      rfl
    · have hid' := (mem_numbered.mp ‹b ∈ numbered _›).2
      exact absurd hid hid'
  · change ((link.unacked.mapVals _).get? i).isSome at hi
    rw [get?_mapVals, Option.isSome_map] at hi
    exact hi

/-- What an act makes of a register: it adds the batches `new`, and the numbers are counted from
`base'` on, which is another number than before only if the act settles the numbering. -/
structure Register.Grows (base : Nat) (bs : List (Batch μ)) (link : Link μ)
    (came : Option (Message μ)) (news : List μ) (base' : Nat) (new : List (Batch μ))
    (link' : Link μ) (ms : List (Message μ)) : Prop where
  register : Register base' (bs ++ new) link'
  advance : Advance link came news new link' ms
  settled : link.nextId ≠ none → base' = base ∧ link'.nextId ≠ none
  settles : link.nextId = none → link'.nextId ≠ none →
    ∃ latest, came = some (.reset ⟨true, latest⟩) ∧ base' = latest.toNat + 1

theorem Register.Grows.keeping {new : List (Batch μ)} (hregister : Register base (bs ++ new) link')
    (hadvance : Advance link came news new link' ms)
    (hsettled : link'.nextId = none ↔ link.nextId = none) :
    Register.Grows base bs link came news base new link' ms where
  register := hregister
  advance := hadvance
  settled h := ⟨rfl, fun hnone => h (hsettled.mp hnone)⟩
  settles h h' := absurd (hsettled.mpr h) h'

theorem Register.Grows.quiet (hregister : Register base bs link')
    (hnext : link'.nextId = link.nextId) (hpending : link'.pending = link.pending)
    (hsends : ∀ b ∈ numbered ms, ∃ i kept, link'.unacked.get? i = some kept ∧ kept.batch = b)
    (hkeeps : ∀ i, link'.unacked.contains i →
      link.unacked.contains i ∧ ∀ m ∈ came, i ∉ m.acks) :
    Register.Grows base bs link came [] base [] link' ms :=
  .keeping (by rwa [List.append_nil]) (.quiet hpending hsends hkeeps) (by rw [hnext])

/-- **Every act adds to the register.**  It starts with the number after the answer that settles
the numbering. -/
theorem Register.act (hreg : Register base bs link) {period : Time}
    (h : link.Act period came news link' ms) :
    ∃ base' new, Register.Grows base bs link came news base' new link' ms := by
  cases h with
  | send h =>
    obtain ⟨hreg', hadvance, hsettled⟩ := hreg.post h
    exact ⟨_, _, .keeping hreg' hadvance hsettled⟩
  | @acks b hid =>
    obtain ⟨hreg', hnext, hpending, hkept⟩ := hreg.accept b
    refine ⟨_, _, .quiet hreg' hnext hpending (fun b hb => absurd hb List.not_mem_nil)
      fun i hi => ⟨(hkept i hi).1, fun m hm => ?_⟩⟩
    cases hm
    exact (hkept i hi).2
  | @again b id hid hreceived =>
    obtain ⟨hreg', hnext, hpending, hkept⟩ := hreg.accept b
    obtain ⟨hreg'', hnext', hpending', hsends, hkept'⟩ := hreg'.reacknowledge id
    refine ⟨_, _, .quiet hreg'' (hnext'.trans hnext) (hpending'.trans hpending) hsends
      fun i hi => ?_⟩
    have hi := hkept i (hkept' i hi)
    refine ⟨hi.1, fun m hm => ?_⟩
    cases hm
    exact hi.2
  | @fresh b id _ _ _ hid hfresh h =>
    obtain ⟨hreg', hnext, hpending, hkept⟩ := hreg.accept b
    obtain ⟨hreg'', hadvance, hsettled⟩ := hreg'.post h
    refine ⟨_, _, .keeping hreg'' ⟨hadvance.sends, ?_, fun i hi => ?_⟩ (by rw [hsettled, hnext])⟩
    · rw [hadvance.conserved, hpending]
    · refine (hadvance.keeps i hi).imp_right fun h => ⟨(hkept i h.1).1, fun m hm => ?_⟩
      cases hm
      exact (hkept i h.1).2
  | request hr =>
    exact ⟨_, _, .quiet { hreg with } rfl rfl (fun b hb => absurd hb List.not_mem_nil)
      fun i hi => ⟨hi, not_mem_acks_reset⟩⟩
  | ignore hr h =>
    exact ⟨_, _, .quiet hreg rfl rfl (fun b hb => absurd hb List.not_mem_nil)
      fun i hi => ⟨hi, not_mem_acks_reset⟩⟩
  | @settle r next _ _ hr hid hnext h =>
    obtain ⟨hreg', hadvance, hsettled⟩ := hreg.settleNumbering hid hnext h
    obtain ⟨isResponse, latest⟩ := r
    cases hr
    exact ⟨_, _, hreg', hadvance, fun h => absurd hid h, fun _ _ => ⟨latest, rfl, rfl⟩⟩
  | tick now =>
    obtain ⟨hreg', hsends, hkept⟩ := hreg.tick period now
    exact ⟨_, _, .quiet hreg' rfl rfl hsends fun i hi => ⟨hkept i hi, nofun⟩⟩

end

end Quorum.Reliable
