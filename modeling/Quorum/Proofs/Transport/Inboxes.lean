import Mathlib.Data.List.Basic
import Quorum.Proofs.Randomness.Loss
import Quorum.Transport.MemoryNetwork

/-!
# Inboxes — what becomes of the frames that are sent

Nodes are registered and unregistered, inboxes are closed by their readers, frames are sent and
read, in any order.  The books kept of all this tell what a network has come to: a frame that is
sent goes into one inbox or is lost, and both are counted; what goes into an inbox comes out of it
in the same order and once.  Which of the frames sent survive has been decided before anything
happens.

**Main statements.**  `apply_applies`: what one event does.  `Accounts.next`: what one event adds to
the books.  `conservation_of_frames`: the network after any events.
-/

namespace Quorum.Transport.MemoryNetwork

open Randomness Signing

/-! ### Events -/

/-- What a transport is given to send. -/
structure Sending (S : Scheme) where
  secret : S.Secret
  recipient : NodeId
  channel : Channel
  msgType : UInt8
  payload : Bytes

def Sending.frame {S : Scheme} (m : Sending S) : Frame S :=
  Frame.signed m.secret m.channel m.msgType m.payload

/-- What may happen to a network. -/
inductive Event (S : Scheme) where
  /-- A node is registered with a new inbox. -/
  | register (node : NodeId) (capacity : Nat)
  /-- A node is registered with an inbox that there is already. -/
  | connect (node : NodeId) (inbox : InboxId)
  | unregister (node : NodeId)
  /-- The reader of an inbox goes away. -/
  | close (inbox : InboxId)
  | send (m : Sending S)
  /-- The reader of an inbox asks for a frame. -/
  | recv (inbox : InboxId)

def Event.isSend {S : Scheme} : Event S → Bool
  | .send _ => true
  | _ => false

section
variable {S : Scheme} {net after : MemoryNetwork S} {e : Event S} {node : NodeId} {i j : InboxId}
  {b : Inbox S} {f : Frame S}

/-- The network after an event. -/
def apply (net : MemoryNetwork S) : Event S → Except Fault (MemoryNetwork S)
  | .register node capacity => (·.1) <$> net.register node capacity
  | .connect node inbox => .ok (net.connect node inbox)
  | .unregister node => .ok (net.unregister node)
  | .close inbox => .ok (net.close inbox)
  | .send m => net.send m.secret m.recipient m.channel m.msgType m.payload
  | .recv inbox => .ok (net.recv inbox).1

/-- The node is registered with the inbox, which is open and has room. -/
def Admits (net : MemoryNetwork S) (node : NodeId) (i : InboxId) : Prop :=
  net.routes.get? node = some i ∧
    ∃ b, net.inboxes[i]? = some b ∧ b.isOpen = true ∧ b.frames.length < b.capacity

theorem accepting?_eq_some : net.accepting? node = some i ↔ net.Admits node i := by
  simp only [accepting?, Admits, bind, Option.bind_eq_some_iff]
  constructor
  · rintro ⟨j, hroute, b, hb, h⟩
    split at h
    · rename_i hroom
      cases h
      exact ⟨hroute, b, hb, hroom⟩
    · cases h
  · rintro ⟨hroute, b, hb, hroom⟩
    exact ⟨i, hroute, b, hb, if_pos hroom⟩

def framesIn (net : MemoryNetwork S) (i : InboxId) : List (Frame S) :=
  (net.inboxes[i]?.map (·.frames.toList)).getD []

theorem framesIn_eq (h : net.inboxes[i]? = some b) : net.framesIn i = b.frames.toList := by
  rw [framesIn, h]
  rfl

/-! ### What one event does -/

/-- What an event makes of a network. -/
inductive Applies (net : MemoryNetwork S) : Event S → MemoryNetwork S → Prop where
  | register {node : NodeId} {capacity : Nat} : Applies net (.register node capacity)
      { net with
        inboxes := net.inboxes.push { capacity }
        routes := net.routes.insert node net.inboxes.size }
  | connect {node : NodeId} {i : InboxId} : Applies net (.connect node i) (net.connect node i)
  | unregister {node : NodeId} : Applies net (.unregister node) (net.unregister node)
  | close {i : InboxId} : Applies net (.close i) (net.close i)
  | carried {m : Sending S} {i : InboxId} {loss : Loss} (hdraw : net.loss.draw = .ok (true, loss))
      (hadmits : net.Admits m.recipient i) : Applies net (.send m)
        { net with
          loss
          inboxes := net.inboxes.modify i fun b => { b with frames := b.frames.push m.frame }
          delivered := net.delivered + 1 }
  | lost {m : Sending S} {survives : Bool} {loss : Loss}
      (hdraw : net.loss.draw = .ok (survives, loss))
      (hlost : survives = true → ∀ i, ¬ net.Admits m.recipient i) :
      Applies net (.send m) { net with loss, dropped := net.dropped + 1 }
  | taken {i : InboxId} {b : Inbox S} {f : Frame S} {frames : Fifo (Frame S)}
      (hb : net.inboxes[i]? = some b) (hopen : b.isOpen = true)
      (hpop : b.frames.pop? = some (f, frames)) (hf : (net.recv i).2 = .frame f) :
      Applies net (.recv i)
        { net with inboxes := net.inboxes.modify i fun b => { b with frames } }
  /-- There is nothing to read. -/
  | nothing {i : InboxId} (hf : ∀ f, (net.recv i).2 ≠ .frame f)
      (hb : ∀ b, net.inboxes[i]? = some b → b.isOpen = true → b.frames.toList = []) :
      Applies net (.recv i) net

theorem applies_send {m : Sending S} (h : net.apply (.send m) = .ok after) :
    net.Applies (.send m) after := by
  simp only [apply, send, route] at h
  split at h
  · cases h
  · rename_i survives loss hdraw
    split at h
    · rename_i i hi
      cases h
      cases survives with
      | false => cases hi
      | true => exact .carried hdraw (accepting?_eq_some.mp hi)
    · rename_i hnone
      cases h
      refine .lost hdraw fun hsurvives i hadmits => ?_
      rw [if_pos hsurvives] at hnone
      exact nomatch hnone.symm.trans (accepting?_eq_some.mpr hadmits)

theorem applies_recv (i : InboxId) : net.Applies (.recv i) (net.recv i).1 := by
  cases hb : net.inboxes[i]? with
  | none =>
    have hrecv : net.recv i = (net, .noInbox) := by rw [recv, hb]
    rw [hrecv]
    exact .nothing (fun f => by rw [hrecv]; nofun) fun b h => nomatch hb.symm.trans h
  | some b =>
    cases hopen : b.isOpen with
    | false =>
      have hrecv : net.recv i = (net, .noInbox) := by simp [recv, hb, hopen]
      rw [hrecv]
      refine .nothing (fun f => by rw [hrecv]; nofun) fun b' h hopen' => ?_
      cases hb.symm.trans h
      exact nomatch hopen.symm.trans hopen'
    | true =>
      cases hpop : b.frames.pop? with
      | some x =>
        have hrecv : net.recv i =
            ({ net with inboxes := net.inboxes.modify i fun b => { b with frames := x.2 } },
              .frame x.1) := by
          simp [recv, hb, hopen, hpop]
        rw [hrecv]
        exact .taken hb hopen hpop (by rw [hrecv])
      | none =>
        have hrecv : net.recv i = (net, if net.isRouted i then .empty else .closed) := by
          simp [recv, hb, hopen, hpop]
        rw [hrecv]
        refine .nothing (fun f => ?_) fun b' h _ => ?_
        · rw [hrecv]
          dsimp only
          split <;> nofun
        · cases hb.symm.trans h
          exact Fifo.toList_of_pop?_none hpop

/-- **What an event does.** -/
theorem apply_applies (h : net.apply e = .ok after) : net.Applies e after := by
  cases e with
  | register node capacity =>
    simp only [apply, MemoryNetwork.register] at h
    split at h
    · cases h
      exact .register
    · cases h
  | connect node i => cases h; exact .connect
  | unregister node => cases h; exact .unregister
  | close i => cases h; exact .close
  | send m => exact applies_send h
  | recv i => cases h; exact applies_recv i

end

/-! ### Histories -/

/-- One event, with the network before and after it. -/
structure Occurrence (S : Scheme) where
  before : MemoryNetwork S
  event : Event S
  after : MemoryNetwork S

/-- `History chance seed log net`: the events of the log, the first one first, have taken a new
network to `net`, and none of them has failed. -/
inductive History {S : Scheme} (chance : Chance) (seed : UInt64) :
    List (Occurrence S) → MemoryNetwork S → Prop where
  | start : History chance seed [] { loss := .seeded chance seed }
  | next {log : List (Occurrence S)} {net after : MemoryNetwork S} {e : Event S}
      (h : History chance seed log net) (hafter : net.apply e = .ok after) :
      History chance seed (log ++ [⟨net, e, after⟩]) after

section
variable {S : Scheme} {chance : Chance} {seed : UInt64} {log earlier later : List (Occurrence S)}
  {x : Occurrence S} {net after : MemoryNetwork S} {e : Event S} {m : Sending S} {node : NodeId}
  {i j : InboxId}

theorem History.split (h : History chance seed log net) (hlog : log = earlier ++ x :: later) :
    History chance seed earlier x.before ∧ x.before.apply x.event = .ok x.after := by
  induction h generalizing later with
  | start => exact absurd hlog.symm (by simp)
  | @next log net after e h hafter ih =>
    rcases List.eq_nil_or_concat later with rfl | ⟨init, last, rfl⟩
    · obtain ⟨rfl, hx⟩ := List.append_inj' hlog rfl
      cases hx
      exact ⟨h, hafter⟩
    · rw [List.concat_eq_append, ← List.cons_append, ← List.append_assoc] at hlog
      exact ih (List.append_inj' hlog rfl).1

def sendCount (log : List (Occurrence S)) : Nat := log.countP (·.event.isSend)

/-- The frame that an event has put into an inbox: it is counted as delivered, and its recipient is
registered with the inbox. -/
def Occurrence.put? (x : Occurrence S) (i : InboxId) : Option (Frame S) :=
  match x.event with
  | .send m =>
    if x.before.delivered < x.after.delivered ∧ x.before.routes.get? m.recipient = some i then
      some m.frame
    else none
  | _ => none

/-- The frame that an event has taken out of an inbox. -/
def Occurrence.taken? (x : Occurrence S) (i : InboxId) : Option (Frame S) :=
  match x.event with
  | .recv j =>
    match (x.before.recv j).2 with
    | .frame f => if i = j then some f else none
    | _ => none
  | _ => none

/-- The inbox that a node is registered with after an event, given the one before. -/
def Occurrence.registration (x : Occurrence S) (node : NodeId) (before : Option InboxId) :
    Option InboxId :=
  match x.event with
  | .register n _ => if n = node then some x.before.inboxes.size else before
  | .connect n i => if n = node then some i else before
  | .unregister n => if n = node then none else before
  | .close _ | .send _ | .recv _ => before

def Event.capacity? : Event S → Option Nat
  | .register _ capacity => some capacity
  | _ => none

def putInto (log : List (Occurrence S)) (i : InboxId) : List (Frame S) := log.filterMap (·.put? i)

def takenFrom (log : List (Occurrence S)) (i : InboxId) : List (Frame S) :=
  log.filterMap (·.taken? i)

/-- The inbox that a node is registered with: the last registration counts. -/
def registration (log : List (Occurrence S)) (node : NodeId) : Option InboxId :=
  log.foldl (fun before x => x.registration node before) none

def capacities (log : List (Occurrence S)) : List Nat := log.filterMap (·.event.capacity?)

/-- The reader of an inbox has gone away. -/
def Closed (log : List (Occurrence S)) (i : InboxId) : Prop :=
  ∃ x ∈ log, x.event = .close i ∧ i < x.before.inboxes.size

theorem putInto_concat : putInto (log ++ [x]) i = putInto log i ++ (x.put? i).toList := by
  rw [putInto, List.filterMap_append]
  cases h : x.put? i <;> simp [putInto, h]

theorem takenFrom_concat : takenFrom (log ++ [x]) i = takenFrom log i ++ (x.taken? i).toList := by
  rw [takenFrom, List.filterMap_append]
  cases h : x.taken? i <;> simp [takenFrom, h]

theorem registration_concat :
    registration (log ++ [x]) node = x.registration node (registration log node) := by
  rw [registration, List.foldl_append]
  rfl

theorem closed_concat : Closed (log ++ [x]) i ↔
    Closed log i ∨ (x.event = .close i ∧ i < x.before.inboxes.size) := by
  simp [Closed, or_and_right, exists_or]

/-! ### The books -/

/-- What the books of a network say after the events of a log. -/
structure Accounts (chance : Chance) (seed : UInt64) (log : List (Occurrence S))
    (net : MemoryNetwork S) : Prop where
  sends : net.delivered + net.dropped = sendCount log
  loss : net.loss = .after chance (Key.ofSeed seed) (sendCount log)
  routes : ∀ node, net.routes.get? node = registration log node
  capacities : net.inboxes.toList.map (·.capacity) = capacities log
  isOpen : ∀ i b, net.inboxes[i]? = some b → (b.isOpen = true ↔ ¬ Closed log i)
  /-- No inbox has been closed before it was there. -/
  closed : ∀ i, Closed log i → i < net.inboxes.size
  order : ∀ i, ¬ Closed log i → putInto log i = takenFrom log i ++ net.framesIn i
  taken : ∀ i, takenFrom log i <+: putInto log i

theorem getElem?_modify_eq_some {inboxes : Array (Inbox S)} {g : Inbox S → Inbox S}
    {i j : InboxId} {b : Inbox S} : (inboxes.modify i g)[j]? = some b ↔
      ∃ b', inboxes[j]? = some b' ∧ b = if i = j then g b' else b' := by
  rw [Array.getElem?_modify]
  split
  · rw [Option.map_eq_some_iff]
    exact exists_congr fun b' => and_congr_right fun _ => eq_comm
  · simp

theorem framesIn_modify (g : Inbox S → Inbox S) (i j : InboxId) (loss : Loss)
    (routes : SortedMap NodeId InboxId) (delivered dropped : Nat) :
    framesIn { loss, inboxes := net.inboxes.modify i g, routes, delivered, dropped } j =
      if i = j then (net.inboxes[i]?.map fun b => (g b).frames.toList).getD []
      else net.framesIn j := by
  simp only [framesIn, Array.getElem?_modify]
  split
  · rename_i hij
    subst hij
    rw [Option.map_map]
    rfl
  · rfl

theorem framesIn_push (capacity : Nat) (j : InboxId) (routes : SortedMap NodeId InboxId) :
    framesIn { net with inboxes := net.inboxes.push { capacity }, routes } j =
      net.framesIn j := by
  simp only [framesIn, Array.getElem?_push]
  split
  · rename_i hj
    rw [hj, Array.getElem?_eq_none (Nat.le_refl _)]
    rfl
  · rfl

theorem map_capacity_modify (inboxes : Array (Inbox S)) (i : InboxId) (g : Inbox S → Inbox S)
    (h : ∀ b, (g b).capacity = b.capacity) :
    (inboxes.modify i g).toList.map (·.capacity) = inboxes.toList.map (·.capacity) := by
  refine List.ext_getElem? fun j => ?_
  simp only [List.getElem?_map, Array.getElem?_toList, Array.getElem?_modify]
  split
  · rw [Option.map_map]
    exact congrArg (Option.map · _) (funext h)
  · rfl

theorem Applies.counts (h : net.Applies e after) : after.delivered + after.dropped =
    net.delivered + net.dropped + if e.isSend then 1 else 0 := by
  cases h with
  | carried | lost =>
    simp only [Event.isSend, if_true]
    omega
  | register | connect | unregister | close | taken | nothing => rfl

theorem Applies.loss {key : Key} {k : Nat} (h : net.Applies e after)
    (hloss : net.loss = .after chance key k) :
    after.loss = .after chance key (k + if e.isSend then 1 else 0) := by
  cases h with
  | carried hdraw | lost hdraw =>
    rw [hloss, Loss.draw_after] at hdraw
    exact hdraw.2.2
  | register | connect | unregister | close | taken | nothing => exact hloss

theorem Applies.routes (h : net.Applies e after) (node : NodeId) : after.routes.get? node =
    Occurrence.registration ⟨net, e, after⟩ node (net.routes.get? node) := by
  cases h with
  | register | connect =>
    refine (SortedMap.get?_insert ..).trans ?_
    simp only [Occurrence.registration, Ranked.rank_eq_iff]
  | unregister =>
    refine (SortedMap.get?_erase ..).trans ?_
    simp only [Occurrence.registration, Ranked.rank_eq_iff, eq_comm]
  | close | carried | lost | taken | nothing => rfl

theorem Applies.capacities (h : net.Applies e after) :
    after.inboxes.toList.map (·.capacity) =
      net.inboxes.toList.map (·.capacity) ++ e.capacity?.toList := by
  cases h with
  | register => simp [Event.capacity?]
  | close | carried | taken =>
    refine Eq.trans ?_ (List.append_nil _).symm
    exact map_capacity_modify _ _ _ fun _ => rfl
  | connect | unregister | lost | nothing => exact (List.append_nil _).symm

theorem Applies.size_le (h : net.Applies e after) : net.inboxes.size ≤ after.inboxes.size := by
  have hlength := congrArg List.length h.capacities
  simp only [List.length_append, List.length_map, Array.length_toList] at hlength
  omega

/-- An inbox is open if it has not been closed. -/
theorem Applies.isOpen {b : Inbox S} (h : net.Applies e after) (hb : after.inboxes[i]? = some b) :
    b.isOpen = true ↔ (∀ b', net.inboxes[i]? = some b' → b'.isOpen = true) ∧
      ¬ (e = .close i ∧ i < net.inboxes.size) := by
  cases h with
  | register =>
    rw [Array.getElem?_push] at hb
    split at hb
    · rename_i hi
      cases hb
      exact iff_of_true rfl
        ⟨fun b' hb' => absurd hb' (by simp [hi]), fun hclose => nomatch hclose.1⟩
    · simp [hb]
  | connect | unregister | lost | nothing =>
    have hb : net.inboxes[i]? = some b := hb
    simp [hb]
  | carried | taken =>
    obtain ⟨b', hb', rfl⟩ := getElem?_modify_eq_some.mp hb
    rw [hb']
    split <;> simp
  | close =>
    obtain ⟨b', hb', rfl⟩ := getElem?_modify_eq_some.mp hb
    obtain ⟨hi, -⟩ := Array.getElem?_eq_some_iff.mp hb'
    rw [hb']
    split
    · rename_i hij
      simp [hij, hi]
    · rename_i hij
      simp [hij]

theorem taken?_of_frame {f : Frame S} (h : (net.recv j).2 = .frame f) :
    Occurrence.taken? ⟨net, .recv j, after⟩ i = if i = j then some f else none := by
  simp only [Occurrence.taken?, h]

theorem taken?_of_no_frame (h : ∀ f, (net.recv j).2 ≠ .frame f) :
    Occurrence.taken? ⟨net, .recv j, after⟩ i = none := by
  unfold Occurrence.taken?
  dsimp only
  split
  · rename_i f hf
    exact absurd hf (h f)
  · rfl

/-- **What was in an inbox, and is put into it, comes out of it or stays**, in this order. -/
theorem Applies.frames (h : net.Applies e after) (hopen : ¬ (e = .close i ∧ i < net.inboxes.size)) :
    net.framesIn i ++ (Occurrence.put? ⟨net, e, after⟩ i).toList =
      (Occurrence.taken? ⟨net, e, after⟩ i).toList ++ after.framesIn i := by
  cases h with
  | register => exact (List.append_nil _).trans (framesIn_push _ i _).symm
  | connect | unregister => exact List.append_nil _
  | @close j =>
    refine (List.append_nil _).trans (Eq.symm ((framesIn_modify ..).trans ?_))
    split
    · rename_i hij
      subst hij
      -- an inbox that is not there cannot be closed
      have hnone : net.inboxes[j]? = none :=
        Array.getElem?_eq_none (Nat.not_lt.mp fun hlt => hopen ⟨rfl, hlt⟩)
      simp [framesIn, hnone]
    · rfl
  | @carried m j loss hdraw hadmits =>
    obtain ⟨hroute, b, hb, -, -⟩ := hadmits
    change net.framesIn i ++ (if net.delivered < net.delivered + 1 ∧
        net.routes.get? m.recipient = some i then some m.frame else none).toList = [] ++ _
    rw [framesIn_modify, hroute, hb]
    by_cases hij : j = i
    · subst hij
      simp [framesIn_eq hb]
    · simp [hij]
  | lost =>
    change net.framesIn i ++ (if net.delivered < net.delivered ∧ _ then _ else none).toList = _
    rw [if_neg fun hlt => Nat.lt_irrefl _ hlt.1]
    exact List.append_nil _
  | @taken j b f frames hb hopen hpop hf =>
    rw [taken?_of_frame hf, framesIn_modify, hb]
    by_cases hij : j = i
    · subst hij
      rw [framesIn_eq hb, Fifo.toList_of_pop? hpop]
      simp [Occurrence.put?]
    · simp [Occurrence.put?, hij, Ne.symm hij]
  | @nothing j hf hb =>
    rw [taken?_of_no_frame hf]
    exact List.append_nil _

theorem Applies.open_of_taken? {f : Frame S} (h : net.Applies e after)
    (hf : Occurrence.taken? ⟨net, e, after⟩ i = some f) :
    ∃ b, net.inboxes[i]? = some b ∧ b.isOpen = true := by
  cases h with
  | @taken j b f' frames hb hopen hpop hf' =>
    rw [taken?_of_frame hf'] at hf
    split at hf
    · rename_i hij
      exact ⟨b, hij ▸ hb, hopen⟩
    · cases hf
  | nothing hnothing =>
    rw [taken?_of_no_frame hnothing] at hf
    cases hf
  | register | connect | unregister | close | carried | lost => cases hf

/-! ### What an event adds to the books -/

theorem Accounts.start : Accounts (S := S) chance seed [] { loss := .seeded chance seed } where
  sends := rfl
  loss := (Loss.after_zero chance seed).symm
  routes _ := rfl
  capacities := rfl
  isOpen _ _ hb := nomatch hb
  closed _ hclosed := by simp [Closed] at hclosed
  order _ _ := rfl
  taken _ := List.prefix_rfl

/-- **What an event adds to the books.** -/
theorem Accounts.next (h : Accounts chance seed log net) (he : net.Applies e after) :
    Accounts chance seed (log ++ [⟨net, e, after⟩]) after := by
  have hcount : sendCount (log ++ [⟨net, e, after⟩]) =
      sendCount log + if e.isSend then 1 else 0 := by
    simp [sendCount, List.countP_append, List.countP_singleton]
  have horder : ∀ i, ¬ Closed (log ++ [⟨net, e, after⟩]) i →
      putInto (log ++ [⟨net, e, after⟩]) i =
        takenFrom (log ++ [⟨net, e, after⟩]) i ++ after.framesIn i := by
    intro i hclosed
    rw [closed_concat, not_or] at hclosed
    rw [putInto_concat, takenFrom_concat, h.order i hclosed.1, List.append_assoc,
      he.frames hclosed.2, List.append_assoc]
  refine ⟨?_, ?_, fun node => ?_, ?_, fun i b hb => ?_, fun i hclosed => ?_, horder, fun i => ?_⟩
  · rw [he.counts, h.sends, hcount]
  · rw [he.loss h.loss, hcount]
  · rw [he.routes, registration_concat, h.routes]
  · rw [he.capacities, h.capacities, MemoryNetwork.capacities, MemoryNetwork.capacities,
      List.filterMap_append]
    cases hcapacity : e.capacity? <;> simp [hcapacity]
  · rw [he.isOpen hb, closed_concat, not_or]
    refine and_congr_left fun _ => ⟨fun hall hclosed => ?_, fun hclosed b' hb' => ?_⟩
    · have hget := Array.getElem?_eq_getElem (h.closed i hclosed)
      exact (h.isOpen i _ hget).mp (hall _ hget) hclosed
    · exact (h.isOpen i b' hb').mpr hclosed
  · have hle := he.size_le
    rcases closed_concat.mp hclosed with hclosed | ⟨-, hlt⟩
    · exact Nat.lt_of_lt_of_le (h.closed i hclosed) hle
    · exact Nat.lt_of_lt_of_le hlt hle
  · by_cases hclosed : Closed (log ++ [⟨net, e, after⟩]) i
    · -- nothing is taken out any more
      have hnone : Occurrence.taken? ⟨net, e, after⟩ i = none := by
        refine Option.eq_none_iff_forall_ne_some.mpr fun f hf => ?_
        obtain ⟨b, hb, hopen⟩ := he.open_of_taken? hf
        rcases closed_concat.mp hclosed with hclosed | ⟨hclose, -⟩
        · exact (h.isOpen i b hb).mp hopen hclosed
        · subst hclose
          cases hf
      rw [takenFrom_concat, putInto_concat, hnone, Option.toList_none, List.append_nil]
      exact (h.taken i).trans (List.prefix_append _ _)
    · exact ⟨_, (horder i hclosed).symm⟩

theorem History.accounts (h : History chance seed log net) : Accounts chance seed log net := by
  induction h with
  | start => exact .start
  | next _ hafter ih => exact ih.next (apply_applies hafter)

/-! ### The network after any events -/

/-- What becomes of a frame that is sent.  If it survives, and its recipient is registered with an
open inbox that has room, it goes to the end of this inbox and is counted as delivered; or else it
is counted as lost.  No other inbox changes. -/
def Occurrence.Sends (x : Occurrence S) (m : Sending S) (survives : Bool) : Prop :=
  (∃ i, survives = true ∧ x.before.Admits m.recipient i ∧
      x.after.delivered = x.before.delivered + 1 ∧ x.after.dropped = x.before.dropped ∧
      x.after.framesIn i = x.before.framesIn i ++ [m.frame] ∧
      ∀ j, j ≠ i → x.after.framesIn j = x.before.framesIn j) ∨
    ((survives = true → ∀ i, ¬ x.before.Admits m.recipient i) ∧
      x.after.delivered = x.before.delivered ∧ x.after.dropped = x.before.dropped + 1 ∧
      ∀ j, x.after.framesIn j = x.before.framesIn j)

/-- **A frame that is sent is delivered to one inbox, or lost.** -/
theorem Accounts.sends_of_applies (h : Accounts chance seed log net)
    (he : net.Applies (.send m) after) : Occurrence.Sends ⟨net, .send m, after⟩ m
      (chance.survives (Key.ofSeed seed) (sendCount log)) := by
  cases he with
  | @carried _ i loss hdraw hadmits =>
    rw [h.loss, Loss.draw_after] at hdraw
    obtain ⟨hroute, b, hb, hroom⟩ := hadmits
    refine .inl ⟨i, hdraw.2.1.symm, ⟨hroute, b, hb, hroom⟩, rfl, rfl, ?_, fun j hj => ?_⟩
    · refine (framesIn_modify ..).trans ?_
      rw [if_pos rfl, hb]
      simp [framesIn_eq hb]
    · exact (framesIn_modify ..).trans (if_neg (Ne.symm hj))
  | lost hdraw hlost =>
    rw [h.loss, Loss.draw_after] at hdraw
    rw [hdraw.2.1] at hlost
    exact .inr ⟨hlost, rfl, rfl, fun _ => rfl⟩

/-- **A reader gets the frames in the order in which they were delivered**, each of them once. -/
theorem Accounts.recv_eq_frame (h : Accounts chance seed log net) {f : Frame S} :
    (net.recv i).2 = .frame f ↔ ∃ b, net.inboxes[i]? = some b ∧ b.isOpen = true ∧
      (putInto log i)[(takenFrom log i).length]? = some f := by
  have hnext : ∀ b, net.inboxes[i]? = some b → b.isOpen = true →
      (putInto log i)[(takenFrom log i).length]? = b.frames.toList[0]? := by
    intro b hb hopen
    rw [h.order i ((h.isOpen i b hb).mp hopen), framesIn_eq hb,
      List.getElem?_append_right (Nat.le_refl _), Nat.sub_self]
  generalize hafter : (net.recv i).1 = after
  have he : net.Applies (.recv i) after := hafter ▸ applies_recv i
  cases he with
  | @taken _ b f' frames hb hopen hpop hf =>
    have hfirst := hnext b hb hopen
    rw [Fifo.toList_of_pop? hpop, List.getElem?_cons_zero] at hfirst
    rw [hf, hfirst]
    simp [hb, hopen]
  | nothing hf hb =>
    refine iff_of_false (hf f) ?_
    rintro ⟨b, hget, hopen, hfirst⟩
    rw [hnext b hget hopen, hb b hget hopen] at hfirst
    cases hfirst

theorem Accounts.apply_ok (h : Accounts chance seed log net) (hchance : chance ≠ .negative)
    (he : ∀ node capacity, e = .register node capacity → validCapacity capacity = true) :
    ∃ after, net.apply e = .ok after := by
  cases e with
  | register node capacity =>
    simp only [apply, MemoryNetwork.register, if_pos (he node capacity rfl)]
    exact ⟨_, rfl⟩
  | send m =>
    obtain ⟨survives, loss, hdraw⟩ : ∃ survives loss, net.loss.draw = .ok (survives, loss) :=
      ⟨_, _, by rw [h.loss]; exact Loss.draw_after.mpr ⟨hchance, rfl, rfl⟩⟩
    simp only [apply, send, route, hdraw]
    split <;> exact ⟨_, rfl⟩
  | connect | unregister | close | recv => exact ⟨_, rfl⟩

/-- **Frames are conserved.**  In a network with any chance and seed, whatever has happened to it:
every frame sent has been counted, as delivered or as lost.  A frame is delivered exactly if it
survives and its recipient is registered, at that moment, with an open inbox that has room; then it
is put at the end of that inbox and of no other.  Whether the `k`-th frame sent survives depends on
the chance, the seed and `k`.  What has been taken out of an inbox is what has been put into it, in
the same order and without a gap; what is left is in the inbox, and comes next, as long as the inbox
is open.  A node is registered with the inbox that its last registration gave it, and an inbox has
the capacity that it was made with and is open until it is closed.  Nothing fails, if the chance is
that of a probability, but a registration that asks for an impossible capacity. -/
theorem conservation_of_frames (h : History chance seed log net) :
    net.delivered + net.dropped = sendCount log ∧
      (∀ earlier x later m, log = earlier ++ x :: later → x.event = .send m →
        x.Sends m (chance.survives (Key.ofSeed seed) (sendCount earlier))) ∧
      (∀ i, takenFrom log i <+: putInto log i ∧
        (∀ b, net.inboxes[i]? = some b → b.isOpen = true →
          putInto log i = takenFrom log i ++ b.frames.toList) ∧
        ∀ f, (net.recv i).2 = .frame f ↔ ∃ b, net.inboxes[i]? = some b ∧ b.isOpen = true ∧
          (putInto log i)[(takenFrom log i).length]? = some f) ∧
      (∀ node, net.routes.get? node = registration log node) ∧
      net.inboxes.toList.map (·.capacity) = capacities log ∧
      (∀ i b, net.inboxes[i]? = some b → (b.isOpen = true ↔ ¬ Closed log i)) ∧
      (chance ≠ .negative → ∀ e,
        (∀ node capacity, e = .register node capacity → validCapacity capacity = true) →
          ∃ after, net.apply e = .ok after) := by
  have haccounts := h.accounts
  refine ⟨haccounts.sends, fun earlier x later m hlog hm => ?_, fun i =>
    ⟨haccounts.taken i, fun b hb hopen => ?_, fun f => haccounts.recv_eq_frame⟩, haccounts.routes,
    haccounts.capacities, haccounts.isOpen, fun hchance e he => haccounts.apply_ok hchance he⟩
  · obtain ⟨hearlier, hafter⟩ := h.split hlog
    obtain ⟨before, _, after⟩ := x
    subst hm
    exact hearlier.accounts.sends_of_applies (apply_applies hafter)
  · rw [← framesIn_eq hb]
    exact haccounts.order i ((haccounts.isOpen i b hb).mp hopen)

/-! ### A network with losses -/

/-- The history of further events, if none of them fails. -/
def follow (log : List (Occurrence S)) (net : MemoryNetwork S) :
    List (Event S) → Option (List (Occurrence S) × MemoryNetwork S)
  | [] => some (log, net)
  | e :: es => do
    let after ← (net.apply e).toOption
    follow (log ++ [⟨net, e, after⟩]) after es

theorem History.follow {log' : List (Occurrence S)} {net' : MemoryNetwork S} {es : List (Event S)}
    (h : History chance seed log net) (hes : net.follow log es = some (log', net')) :
    History chance seed log' net' ∧ log'.map (·.event) = log.map (·.event) ++ es := by
  induction es generalizing log net with
  | nil =>
    cases hes
    exact ⟨h, (List.append_nil _).symm⟩
  | cons e es ih =>
    obtain ⟨after, hafter, hes⟩ := Option.bind_eq_some_iff.mp hes
    cases happly : net.apply e with
    | error fault =>
      rw [happly] at hafter
      cases hafter
    | ok next =>
      rw [happly] at hafter
      cases hafter
      obtain ⟨hhistory, hevents⟩ := ih (h.next happly) hes
      exact ⟨hhistory, by rw [hevents]; simp⟩

end

def sample (k : UInt8) (recipient : NodeId) : Event .ed25519 :=
  .send ⟨sampleSeed 0, recipient, default, protocolTraffic, [k]⟩

/-- Of eight frames two are lost at random, one for lack of room, one because its inbox is closed
and one because its recipient is not registered.  Inbox 0 is given to another node while there is a
frame in it. -/
def eightFrames : List (Event .ed25519) :=
  [.register ⟨1⟩ 1, sample 0 ⟨1⟩, sample 1 ⟨1⟩, .register ⟨1⟩ 2, sample 2 ⟨1⟩, .connect ⟨2⟩ 0,
    .recv 0, sample 3 ⟨2⟩, sample 4 ⟨2⟩, sample 5 ⟨2⟩, .close 1, sample 6 ⟨1⟩, .unregister ⟨2⟩,
    sample 7 ⟨2⟩, .recv 0]

/-- The other three are delivered, and two of them have been read from one inbox. -/
theorem conservation_of_eight_frames :
    ∃ log net, History (S := .ed25519) (.below (3 <<< 62)) 36 log net ∧
      log.map (·.event) = eightFrames ∧ net.delivered = 3 ∧ net.dropped = 5 ∧
      (putInto log 0).length = 2 ∧ takenFrom log 0 = putInto log 0 := by
  have hcheck : (follow [] { loss := .seeded (.below (3 <<< 62)) 36 } eightFrames).any
      (fun x => x.2.delivered = 3 ∧ sendCount x.1 = 8 ∧ (putInto x.1 0).length = 2 ∧
        (takenFrom x.1 0).length = 2) = true := by
    decide +kernel
  obtain ⟨⟨log, net⟩, hfollow, hcheck⟩ := (Option.any_eq_true _ _).mp hcheck
  obtain ⟨hdelivered, hsends, hput, htaken⟩ := of_decide_eq_true hcheck
  obtain ⟨h, hevents⟩ := History.start.follow hfollow
  obtain ⟨hcount, -, horder, -⟩ := conservation_of_frames h
  dsimp only at hdelivered hsends hput htaken
  refine ⟨log, net, h, hevents, hdelivered, by omega, hput, ?_⟩
  exact (horder 0).1.eq_of_length (htaken.trans hput.symm)

end Quorum.Transport.MemoryNetwork
