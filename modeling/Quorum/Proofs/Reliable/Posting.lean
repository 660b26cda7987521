import Mathlib.Data.List.Basic
import Quorum.Proofs.Reliable.Channel
import Quorum.Proofs.SortedMap

/-!
# Posting — what sending to a peer comes to

What is sent on a channel is looked at by what the peer makes of it: the numbers of batches, their
acknowledgements and nested messages, reset requests and their answers.  `Posted` tells all of
this for nested messages that are sent to a peer with an acknowledgement that is owed to it.

**Main statements.**  `post_ok` and `post_posted`: sending does not fail as long as there are
numbers, and what it comes to.  `settle_ok` and `settle_posted`: the same for what was waiting when
the numbering is settled.
-/

namespace Quorum.Reliable

open SortedMap

section
variable {μ : Type}

/-! ### Messages -/

namespace Message

def number? : Message μ → Option BatchId
  | batch b => b.id
  | reset _ => none

def acks : Message μ → List BatchId
  | batch b => b.acks
  | reset _ => []

def msgs : Message μ → List μ
  | batch b => b.msgs
  | reset _ => []

def asks : Message μ → Bool
  | batch _ => false
  | reset r => !r.isResponse

/-- The number that an answer to a reset request tells. -/
def answer? : Message μ → Option BatchId
  | batch _ => none
  | reset r => if r.isResponse then some r.latest else none

/-- How many messages, at most, are sent in a row because of this one, with itself and not
counting those that carry nested messages. -/
def weight : Message μ → Nat
  | batch b => if b.id.isSome then 2 else 1
  | reset r => if r.isResponse then 1 else 2

/-- A batch is not too long, acknowledges one batch at most, and has a number if it carries
anything. -/
def Light : Message μ → Prop
  | batch b => b.msgs.length ≤ maxBatch ∧ b.acks.length ≤ 1 ∧ (b.id = none → b.msgs = [])
  | reset _ => True

end Message

def numbers (ms : List (Message μ)) : List BatchId := ms.filterMap Message.number?

def acksIn (ms : List (Message μ)) : List BatchId := ms.flatMap Message.acks

def carried (ms : List (Message μ)) : List μ := ms.flatMap Message.msgs

def requests (ms : List (Message μ)) : Nat := ms.countP Message.asks

def answers (ms : List (Message μ)) : List BatchId := ms.filterMap Message.answer?

def weight : List (Message μ) → Nat
  | [] => 0
  | m :: ms => m.weight + weight ms

section
variable (m : Message μ) (ms ms' : List (Message μ))

@[simp] theorem numbers_append : numbers (ms ++ ms') = numbers ms ++ numbers ms' :=
  List.filterMap_append

@[simp] theorem acksIn_append : acksIn (ms ++ ms') = acksIn ms ++ acksIn ms' :=
  List.flatMap_append

@[simp] theorem carried_append : carried (ms ++ ms') = carried ms ++ carried ms' :=
  List.flatMap_append

@[simp] theorem requests_append : requests (ms ++ ms') = requests ms + requests ms' :=
  List.countP_append

@[simp] theorem answers_append : answers (ms ++ ms') = answers ms ++ answers ms' :=
  List.filterMap_append

@[simp] theorem weight_append : weight (ms ++ ms') = weight ms + weight ms' := by
  induction ms with
  | nil => exact (Nat.zero_add _).symm
  | cons m ms ih => rw [List.cons_append, weight, weight, ih, Nat.add_assoc]

@[simp] theorem numbers_nil : numbers ([] : List (Message μ)) = [] := rfl
@[simp] theorem acksIn_nil : acksIn ([] : List (Message μ)) = [] := rfl
@[simp] theorem carried_nil : carried ([] : List (Message μ)) = [] := rfl
@[simp] theorem requests_nil : requests ([] : List (Message μ)) = 0 := rfl
@[simp] theorem answers_nil : answers ([] : List (Message μ)) = [] := rfl
@[simp] theorem weight_nil : weight ([] : List (Message μ)) = 0 := rfl

@[simp] theorem numbers_cons : numbers (m :: ms) = m.number?.toList ++ numbers ms := by
  cases h : m.number? <;> simp [numbers, h]

@[simp] theorem acksIn_cons : acksIn (m :: ms) = m.acks ++ acksIn ms := rfl

@[simp] theorem carried_cons : carried (m :: ms) = m.msgs ++ carried ms := rfl

@[simp] theorem requests_cons : requests (m :: ms) = requests ms + m.asks.toNat := by
  cases h : m.asks <;> simp [requests, h]

@[simp] theorem answers_cons : answers (m :: ms) = m.answer?.toList ++ answers ms := by
  cases h : m.answer? <;> simp [answers, h]

@[simp] theorem weight_cons : weight (m :: ms) = m.weight + weight ms := rfl

end

end

namespace Link
variable {μ : Type} {link link' : Link μ}

/-! ### An acknowledgement alone -/

section
variable (owed : Option BatchId)

theorem append_ackAlone_none (ms : List (Message μ)) : ms ++ ackAlone none = ms :=
  List.append_nil ms

theorem numbers_ackAlone : numbers (ackAlone (μ := μ) owed) = [] := by cases owed <;> rfl
theorem acksIn_ackAlone : acksIn (ackAlone (μ := μ) owed) = owed.toList := by cases owed <;> rfl
theorem carried_ackAlone : carried (ackAlone (μ := μ) owed) = [] := by cases owed <;> rfl
theorem requests_ackAlone : requests (ackAlone (μ := μ) owed) = 0 := by cases owed <;> rfl
theorem answers_ackAlone : answers (ackAlone (μ := μ) owed) = [] := by cases owed <;> rfl
theorem weight_ackAlone : weight (ackAlone (μ := μ) owed) = owed.toList.length := by
  cases owed <;> rfl

theorem light_ackAlone {m : Message μ} (hm : m ∈ ackAlone owed) : m.Light := by
  cases owed with
  | none => cases hm
  | some id =>
    rw [List.mem_singleton.mp hm]
    exact ⟨Nat.zero_le _, le_rfl, fun _ => rfl⟩

end

/-! ### Pieces -/

theorem length_le_of_mem_pieces {size fuel : Nat} {l piece : List μ}
    (h : piece ∈ pieces size fuel l) : piece.length ≤ size := by
  induction fuel generalizing l with
  | zero => cases h
  | succ fuel ih =>
    cases l with
    | nil => cases h
    | cons a l =>
      rw [pieces] at h
      · rcases List.mem_cons.mp h with rfl | h
        · exact List.length_take_le _ _
        · exact ih h
      · exact List.cons_ne_nil a l

theorem length_pieces_le {size : Nat} (hsize : 0 < size) (fuel : Nat) (l : List μ) :
    (pieces size fuel l).length ≤ l.length := by
  induction fuel generalizing l with
  | zero => exact Nat.zero_le _
  | succ fuel ih =>
    cases l with
    | nil => exact le_rfl
    | cons a l =>
      have hrest := ih ((a :: l).drop size)
      rw [List.length_drop, List.length_cons] at hrest
      rw [pieces, List.length_cons, List.length_cons]
      · omega
      · exact List.cons_ne_nil a l

theorem pieces_ne_nil {size fuel : Nat} {l : List μ} (hl : l ≠ []) (hfuel : 0 < fuel) :
    pieces size fuel l ≠ [] := by
  cases fuel with
  | zero => omega
  | succ fuel =>
    cases l with
    | nil => exact absurd rfl hl
    | cons a l =>
      rw [pieces]
      · exact List.cons_ne_nil _ _
      · exact List.cons_ne_nil a l

/-! ### Batches with numbers -/

/-- What sending pieces as batches with numbers comes to. -/
structure Numbered (link : Link μ) (owed : Option BatchId) (chunks : List (List μ))
    (link' : Link μ) (ms : List (Message μ)) : Prop where
  same : ∃ nextId unacked ackedIn, link' = { link with nextId, unacked, ackedIn }
  isSome : link'.nextId.isSome
  top : link'.top = link.top + chunks.length
  numbers : (numbers ms).map UInt32.toNat = List.range' link.top chunks.length
  kept : ∀ i, link'.unacked.contains i → link.unacked.contains i ∨ i ∈ Reliable.numbers ms
  acks : acksIn ms = if chunks = [] then [] else owed.toList
  carried : carried ms = chunks.flatten
  requests : requests ms = 0
  answers : answers ms = []
  weight : weight ms = 2 * chunks.length
  light : (∀ chunk ∈ chunks, chunk.length ≤ maxBatch) → ∀ m ∈ ms, m.Light

theorem sendBatch_ok (link : Link μ) (id : BatchId) (hid : id.toNat + 1 < UInt32.size)
    (msgs : List μ) (owed : Option BatchId) :
    ∃ link' m, link.sendBatch id msgs owed = .ok (link', m) ∧
      link'.nextId = some (id + 1) ∧ (id + 1).toNat = id.toNat + 1 := by
  have hnext : id.next? = some (id + 1) := by rw [BatchId.next?, if_pos hid]
  simp only [sendBatch, hnext]
  exact ⟨_, _, rfl, rfl, BatchId.next?_eq_some.mp hnext⟩

theorem sendBatches_ok {id : BatchId} {owed : Option BatchId} {chunks : List (List μ)}
    (hroom : id.toNat + chunks.length < UInt32.size) :
    ∃ link' ms, link.sendBatches id owed chunks = .ok (link', ms) := by
  induction chunks generalizing link id owed with
  | nil => exact ⟨link, [], rfl⟩
  | cons chunk chunks ih =>
    rw [List.length_cons] at hroom
    obtain ⟨next, m, hbatch, -, hnext⟩ := sendBatch_ok link id (by omega) chunk owed
    obtain ⟨last, ms, hrest⟩ : ∃ last ms, next.sendBatches (id + 1) none chunks = .ok (last, ms) :=
      ih (by rw [hnext]; omega)
    refine ⟨last, m :: ms, ?_⟩
    rw [sendBatches, hbatch]
    change (next.sendBatches (id + 1) none chunks).bind _ = _
    rw [hrest]
    rfl

theorem Numbered.nil {id : BatchId} (hid : link.nextId = some id) (owed : Option BatchId) :
    Numbered link owed [] link [] where
  same := ⟨_, _, _, rfl⟩
  isSome := by rw [hid]; rfl
  top := rfl
  numbers := rfl
  kept _ hi := .inl hi
  acks := rfl
  carried := rfl
  requests := rfl
  answers := rfl
  weight := rfl
  light _ _ hm := absurd hm List.not_mem_nil

/-- A batch is sent before others, and carries what is owed. -/
theorem Numbered.cons {next : Link μ} {id : BatchId} {owed : Option BatchId} {chunk : List μ}
    {chunks : List (List μ)} {m : Message μ} {ms : List (Message μ)}
    (hbatch : link.sendBatch id chunk owed = .ok (next, m)) (hid : link.nextId = some id)
    (h : Numbered next none chunks link' ms) :
    Numbered link owed (chunk :: chunks) link' (m :: ms) := by
  obtain ⟨hnext, rfl, ackedIn, rfl⟩ := sendBatch_eq_ok hbatch
  obtain ⟨nextId, unacked, ackedIn', hsame⟩ := h.same
  have htop : link.top = id.toNat := by rw [Link.top, hid]
  have htop' := h.top
  have hnumbers := h.numbers
  simp only [Link.top] at htop' hnumbers
  rw [hnext] at htop' hnumbers
  exact
    { same := ⟨nextId, unacked, ackedIn', hsame⟩
      isSome := h.isSome
      top := by
        simp only [Link.top, hid, List.length_cons]
        omega
      numbers := by
        simp [Message.number?, htop, List.range'_succ, hnumbers]
      kept := fun i hi => by
        rw [numbers_cons, List.mem_append]
        rcases h.kept i hi with hbefore | hlater
        · rcases contains_insert.mp hbefore with rfl | hold
          · exact .inr (.inl (List.mem_singleton_self _))
          · exact .inl hold
        · exact .inr (.inr hlater)
      acks := by
        rw [acksIn_cons, h.acks]
        simp [Message.acks]
      carried := by
        simp [Message.msgs, h.carried]
      requests := by
        simp [Message.asks, h.requests]
      answers := by
        simp [Message.answer?, h.answers]
      weight := by
        simp [Message.weight, h.weight]
        omega
      light := fun hchunks m hm => by
        obtain ⟨hchunk, hchunks⟩ := List.forall_mem_cons.mp hchunks
        rcases List.mem_cons.mp hm with rfl | hm
        · exact ⟨hchunk, Option.length_toList_le, fun hnone => by cases hnone⟩
        · exact h.light hchunks m hm }

theorem sendBatches_numbered {id : BatchId} {owed : Option BatchId} {chunks : List (List μ)}
    {ms : List (Message μ)} (h : link.sendBatches id owed chunks = .ok (link', ms))
    (hid : link.nextId = some id) : Numbered link owed chunks link' ms := by
  induction chunks generalizing link id owed ms with
  | nil =>
    cases h
    exact .nil hid owed
  | cons chunk chunks ih =>
    obtain ⟨⟨next, m⟩, hbatch, h⟩ := bind_eq_ok h
    obtain ⟨⟨last, ms⟩, hrest, h⟩ := bind_eq_ok h
    cases h
    obtain ⟨-, -, ackedIn, rfl⟩ := sendBatch_eq_ok hbatch
    exact .cons hbatch hid (ih hrest rfl)

/-! ### Posting -/

/-- What sending nested messages, with an acknowledgement if one is owed, comes to. -/
structure Posted (link : Link μ) (news : List μ) (owed : Option BatchId) (link' : Link μ)
    (ms : List (Message μ)) : Prop where
  received : link'.received = link.received
  answeredReset : link'.answeredReset = link.answeredReset
  asked : requests ms + link.resetSent.toNat = link'.resetSent.toNat
  settled : (link.nextId.isSome → link.resetSent = false) →
    link'.nextId.isSome → link'.resetSent = false
  top_le : link.top ≤ link'.top
  room : link'.top + link'.pending.length ≤ link.top + link.pending.length + news.length
  distinct : (numbers ms).Nodup
  fresh : ∀ i ∈ numbers ms, link.top ≤ i.toNat ∧ i.toNat < link'.top
  kept : ∀ i, link'.unacked.contains i → link.unacked.contains i ∨ i ∈ numbers ms
  acks : acksIn ms = owed.toList
  answers : answers ms = []
  supplied : ∀ m, m ∈ link'.pending.toList ∨ m ∈ carried ms ↔ m ∈ link.pending.toList ∨ m ∈ news
  light : ∀ m ∈ ms, m.Light
  requests_le : requests ms ≤ news.length
  weight : weight ms + 2 * link'.pending.length ≤
    owed.toList.length + 2 * (link.pending.length + news.length + requests ms)

theorem Posted.supplied_append {news : List μ} {owed : Option BatchId} {ms : List (Message μ)}
    (h : Posted link news owed link' ms) (out : List (Message μ)) (m : μ) :
    m ∈ link'.pending.toList ∨ m ∈ Reliable.carried (out ++ ms) ↔
      (m ∈ link.pending.toList ∨ m ∈ Reliable.carried out) ∨ m ∈ news := by
  rw [carried_append, List.mem_append, or_left_comm, h.supplied, or_left_comm, or_assoc]

theorem posted_ackAlone (link : Link μ) (owed : Option BatchId) :
    Posted link [] owed link (ackAlone owed) where
  received := rfl
  answeredReset := rfl
  asked := by rw [requests_ackAlone, Nat.zero_add]
  settled h := h
  top_le := le_rfl
  room := le_rfl
  distinct := by rw [numbers_ackAlone]; exact List.nodup_nil
  fresh i hi := by rw [numbers_ackAlone] at hi; cases hi
  kept _ hi := .inl hi
  acks := acksIn_ackAlone owed
  answers := answers_ackAlone owed
  supplied m := by rw [carried_ackAlone]
  light _ hm := light_ackAlone owed hm
  requests_le := by rw [requests_ackAlone]; exact le_rfl
  weight := by
    rw [weight_ackAlone]
    omega

theorem posted_buffer (hid : link.nextId = none) {news : List μ} (hnews : news ≠ [])
    (owed : Option BatchId) :
    Posted link news owed (link.buffer news).1 ((link.buffer news).2 ++ ackAlone owed) := by
  have hlength : (link.pending.pushAll news).length = link.pending.length + news.length := by
    rw [← Fifo.length_toList, Fifo.toList_pushAll, List.length_append, Fifo.length_toList]
  have hpos : 0 < news.length := List.length_pos_iff.mpr hnews
  have hrequests : requests (link.buffer news).2 + link.resetSent.toNat = 1 := by
    cases hsent : link.resetSent <;> simp [buffer, hsent, Message.asks, Reset.request]
  have hother : numbers (link.buffer news).2 = [] ∧ acksIn (link.buffer news).2 = [] ∧
      answers (link.buffer news).2 = [] ∧ carried (link.buffer news).2 = [] ∧
      Reliable.weight (link.buffer news).2 = 2 * requests (link.buffer news).2 ∧
      ∀ m ∈ (link.buffer news).2, m.Light := by
    cases hsent : link.resetSent <;>
      simp [buffer, hsent, Message.number?, Message.acks, Message.answer?, Message.msgs,
        Message.weight, Message.asks, Message.Light, Reset.request]
  obtain ⟨hnumbers, hacks, hanswers, hcarried, hweight, hlight⟩ := hother
  exact
    { received := rfl
      answeredReset := rfl
      asked := by
        rw [requests_append, requests_ackAlone]
        exact hrequests
      settled := fun _ h => by
        rw [show (link.buffer news).1.nextId = link.nextId from rfl, hid] at h
        cases h
      top_le := le_rfl
      room := by
        change link.top + (link.pending.pushAll news).length ≤ _
        omega
      distinct := by simp [hnumbers, numbers_ackAlone]
      fresh := fun i hi => by simp [hnumbers, numbers_ackAlone] at hi
      kept := fun _ hi => .inl hi
      acks := by simp [hacks, acksIn_ackAlone]
      answers := by simp [hanswers, answers_ackAlone]
      supplied := fun m => by
        rw [carried_append, hcarried, carried_ackAlone]
        simp [buffer]
      light := fun m hm => by
        rcases List.mem_append.mp hm with hm | hm
        · exact hlight m hm
        · exact light_ackAlone owed hm
      requests_le := by
        rw [requests_append, requests_ackAlone]
        omega
      weight := by
        change _ + 2 * (link.pending.pushAll news).length ≤ _
        rw [weight_append, hweight, weight_ackAlone, requests_append, requests_ackAlone]
        omega }

theorem posted_pieces (hid : link.nextId.isSome) {news : List μ} (hnews : news ≠ [])
    {owed : Option BatchId} {ms : List (Message μ)}
    (h : Numbered link owed (pieces maxBatch news.length news) link' ms) :
    Posted link news owed link' ms := by
  obtain ⟨nextId, unacked, ackedIn, rfl⟩ := h.same
  have hcount : (pieces maxBatch news.length news).length ≤ news.length :=
    length_pieces_le (by decide) _ _
  have hne : pieces maxBatch news.length news ≠ [] :=
    pieces_ne_nil hnews (List.length_pos_iff.mpr hnews)
  have htop := h.top
  have hdistinct : ((numbers ms).map UInt32.toNat).Nodup := by
    rw [h.numbers]
    exact List.nodup_range'
  exact
    { received := rfl
      answeredReset := rfl
      asked := by rw [h.requests, Nat.zero_add]
      settled := fun h _ => h hid
      top_le := by omega
      room := by
        change _ + link.pending.length ≤ _
        omega
      distinct := hdistinct.of_map _
      fresh := fun i hi => by
        have hmem := List.mem_map_of_mem (f := UInt32.toNat) hi
        rw [h.numbers, List.mem_range'_1] at hmem
        omega
      kept := h.kept
      acks := by rw [h.acks, if_neg hne]
      answers := h.answers
      supplied := fun m => by
        rw [h.carried, flatten_pieces (by decide) le_rfl]
      light := h.light fun chunk hchunk => length_le_of_mem_pieces hchunk
      requests_le := by
        rw [h.requests]
        exact Nat.zero_le _
      weight := by
        change _ + 2 * link.pending.length ≤ _
        rw [h.weight]
        omega }

/-- **Sending does not fail as long as there are numbers.** -/
theorem post_ok {news : List μ} (hroom : link.top + news.length < UInt32.size)
    (owed : Option BatchId) : ∃ link' ms, link.post news owed = .ok (link', ms) := by
  unfold post
  split
  · exact ⟨link, _, rfl⟩
  · cases hid : link.nextId with
    | none => exact ⟨_, _, rfl⟩
    | some id =>
      have htop : link.top = id.toNat := by rw [Link.top, hid]
      have hcount : (pieces maxBatch news.length news).length ≤ news.length :=
        length_pieces_le (by decide) _ _
      exact sendBatches_ok (by omega)

/-- **What sending comes to.** -/
theorem post_posted {news : List μ} {owed : Option BatchId} {ms : List (Message μ)}
    (h : link.post news owed = .ok (link', ms)) : Posted link news owed link' ms := by
  unfold post at h
  split at h
  · rename_i hnil
    cases h
    rw [List.isEmpty_iff.mp hnil]
    exact posted_ackAlone link owed
  · rename_i hnews
    have hnews : news ≠ [] := fun hnil => hnews (List.isEmpty_iff.mpr hnil)
    split at h
    · rename_i hid
      cases h
      exact posted_buffer hid hnews owed
    · rename_i id hid
      exact posted_pieces (by rw [hid]; rfl) hnews (sendBatches_numbered h hid)

theorem waiting_post {news : List μ} {owed : Option BatchId} {ms : List (Message μ)}
    (h : link.post news owed = .ok (link', ms))
    (hwaiting : link.pending.toList ≠ [] → link.resetSent = true) :
    link'.pending.toList ≠ [] → link'.resetSent = true := by
  unfold post at h
  split at h
  · cases h
    exact hwaiting
  · split at h
    · cases h
      exact fun _ => rfl
    · rename_i id hid
      obtain ⟨nextId, unacked, ackedIn, rfl⟩ := (sendBatches_numbered h hid).same
      exact hwaiting

/-! ### The numbering settled -/

theorem settle_ok {next : BatchId}
    (hroom : next.toNat + link.pending.length < UInt32.size) :
    ∃ link' ms, link.settleNumbering next = .ok (link', ms) := by
  refine post_ok ?_ none
  rw [Fifo.length_toList]
  exact hroom

/-- **What was waiting goes out when the numbering is settled.** -/
theorem settle_posted {next : BatchId} {ms : List (Message μ)}
    (h : link.settleNumbering next = .ok (link', ms)) :
    Posted { link with nextId := some next, resetSent := false } [] none link' ms ∧
      link'.pending.toList = [] := by
  have hposted := post_posted h
  have hsame : link'.resetSent = false ∧ link'.pending = {} := by
    unfold settleNumbering post at h
    split at h
    · cases h
      exact ⟨rfl, rfl⟩
    · obtain ⟨nextId, unacked, ackedIn, rfl⟩ := (sendBatches_numbered h rfl).same
      exact ⟨rfl, rfl⟩
  obtain ⟨hsent, hpending⟩ := hsame
  have hrequests : requests ms = 0 := by
    have hasked := hposted.asked
    rw [hsent] at hasked
    exact (Nat.add_eq_zero_iff.mp hasked).1
  have hroom : link'.top + link'.pending.length ≤
      next.toNat + ({} : Fifo μ).length + link.pending.toList.length := hposted.room
  have hweight : Reliable.weight ms + 2 * link'.pending.length ≤
      0 + 2 * (({} : Fifo μ).length + link.pending.toList.length + requests ms) := hposted.weight
  have hempty : ({} : Fifo μ).length = 0 := rfl
  rw [Fifo.length_toList, hempty] at hroom hweight
  refine ⟨?_, by rw [hpending]; rfl⟩
  exact
    { received := hposted.received
      answeredReset := hposted.answeredReset
      asked := hposted.asked
      settled := hposted.settled
      top_le := hposted.top_le
      room := by
        change _ ≤ next.toNat + link.pending.length + 0
        omega
      distinct := hposted.distinct
      fresh := hposted.fresh
      kept := hposted.kept
      acks := hposted.acks
      answers := hposted.answers
      supplied := fun m => by
        rw [hposted.supplied m]
        simp
      light := hposted.light
      requests_le := hrequests.le
      weight := by
        change _ ≤ 0 + 2 * (link.pending.length + 0 + requests ms)
        omega }

end Link

end Quorum.Reliable
