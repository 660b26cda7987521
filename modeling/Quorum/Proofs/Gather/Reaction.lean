import Mathlib.Data.Fintype.Basic
import Quorum.Gather
import Quorum.Proofs.Broadcast.Reaction
import Quorum.Proofs.SortedMap

/-!
# Reaction — what one event does to one node of a gather

An event of a gather is an event of one of its broadcasts: the message or the input goes to that
broadcast, what it sends goes out with its index, and the others are left alone.  After each event
the node looks whether enough broadcasts have delivered.

**Main statements.**  `receive_eq_ok` and `input_eq_ok`: an event goes to one broadcast.
`part_lift`: what it sends carries its index.  `Frozen`: the output is the first quorum of values
delivered; `frozen_lift` keeps it.
-/

namespace Quorum

namespace Committee
variable {c : Committee} {id : NodeId}

theorem indexOf?_eq_some {i : Fin c.size} (h : c.indexOf? id = some i) :
    c.members.get i = id ∧ i.val < UInt16.size := by
  obtain ⟨j, hj, h⟩ := Option.bind_eq_some_iff.mp h
  split at h
  · rename_i hlt
    cases h
    exact ⟨(List.finIdxOf?_eq_some_iff.mp hj).1, hlt⟩
  · cases h

theorem exists_indexOf? (hsize : c.size ≤ UInt16.size) (hid : id ∈ c) :
    ∃ i, c.indexOf? id = some i := by
  have hsome : (c.members.finIdxOf? id).isSome := by
    rw [List.isSome_finIdxOf?]
    exact List.contains_iff_mem.mpr hid
  obtain ⟨i, hi⟩ := Option.isSome_iff_exists.mp hsome
  have hlt : i.val < c.size := i.isLt
  refine ⟨i, ?_⟩
  rw [indexOf?, hi, Option.bind_some, if_pos (by omega)]

end Committee

namespace Gather

variable {c : Committee} {me sender : NodeId} {s : State c}

/-! ### One broadcast -/

/-- The message of a broadcast behind its route, if it has this index. -/
def inner? (i : Fin c.size) (m : Message) : Option Broadcast.Message :=
  if m.subsystem = broadcastSubsystem ∧ m.index.toNat = i then some m.inner else none

/-- What one broadcast has sent. -/
def part (i : Fin c.size) (out : List (Outgoing Message)) : List (Outgoing Broadcast.Message) :=
  out.filterMap fun o => (inner? i o.body).map fun m => ⟨o.recipient, m⟩

@[simp] theorem broadcasts_settle (s : State c) : (settle s).broadcasts = s.broadcasts := by
  unfold settle
  split <;> rfl

@[simp] theorem inputGiven_settle (s : State c) : (settle s).inputGiven = s.inputGiven := by
  unfold settle
  split <;> rfl

@[simp] theorem get_initial (i : Fin c.size) : (State.initial c).broadcasts.get i = {} :=
  Vector.getElem_replicate i.isLt

theorem get_set {α : Type} {n : Nat} (v : Vector α n) (i j : Fin n) (a : α) :
    (v.set i a i.isLt).get j = if i = j then a else v.get j := by
  refine (Vector.getElem_set i.isLt j.isLt).trans ?_
  simp only [Fin.ext_iff]
  rfl

/-- **An event changes one broadcast.** -/
theorem broadcasts_lift (s : State c) (i j : Fin c.size)
    (r : Reaction Broadcast.State Broadcast.Message) :
    (lift s i r).state.broadcasts.get j = if i = j then r.state else s.broadcasts.get j := by
  have hset : (lift s i r).state.broadcasts = s.broadcasts.set i r.state := by simp [lift]
  rw [hset, get_set]

theorem inputGiven_lift (s : State c) (i : Fin c.size)
    (r : Reaction Broadcast.State Broadcast.Message) :
    (lift s i r).state.inputGiven = s.inputGiven :=
  inputGiven_settle _

/-- **What a broadcast sends carries its index.** -/
theorem part_lift (s : State c) (i j : Fin c.size) (hi : i.val < UInt16.size)
    (r : Reaction Broadcast.State Broadcast.Message) :
    part j (lift s i r).sent = if i = j then r.sent else [] := by
  have hindex : (UInt16.ofNat i).toNat = i.val := by
    rw [UInt16.toNat_ofNat']
    exact Nat.mod_eq_of_lt hi
  simp only [part, lift, List.filterMap_map]
  split
  · rename_i hij
    subst hij
    refine (List.filterMap_congr fun o _ => ?_).trans List.filterMap_some
    simp [inner?, Outgoing.map, hindex]
  · rename_i hij
    have hne : i.val ≠ j.val := fun heq => hij (Fin.ext heq)
    refine List.filterMap_eq_nil_iff.mpr ?_
    intro o _
    simp [inner?, Outgoing.map, hindex, hne]

/-- **A message goes to the broadcast of its index.** -/
theorem receive_eq_ok {m : Message} {r : Reaction (State c) Message}
    (h : receive c s sender m = .ok r) : m.subsystem = broadcastSubsystem ∧
      ∃ i : Fin c.size, i.val = m.index.toNat ∧
        r = lift s i
          (Broadcast.receive c (broadcaster c i) (s.broadcasts.get i) sender m.inner) := by
  unfold receive at h
  split at h
  · rename_i hroute
    cases h
    exact ⟨hroute.1, ⟨m.index.toNat, hroute.2⟩, rfl, rfl⟩
  · cases h

theorem receive_ok {m : Message} (hsubsystem : m.subsystem = broadcastSubsystem)
    (hindex : m.index.toNat < c.size) (s : State c) (sender : NodeId) :
    ∃ r, receive c s sender m = .ok r := by
  rw [receive, dif_pos ⟨hsubsystem, hindex⟩]
  exact ⟨_, rfl⟩

/-- **The input goes to the node's own broadcast.** -/
theorem input_eq_ok {v : Bytes} {r : Reaction (State c) Message}
    (h : input c me s v = .ok r) : s.inputGiven = false ∧ ∃ i b, c.indexOf? me = some i ∧
      Broadcast.input c (broadcaster c i) me (s.broadcasts.get i) v = .ok b ∧
      r = lift { s with inputGiven := true } i b := by
  unfold input at h
  split at h
  · cases h
  · rename_i hgiven
    split at h
    · cases h
    · rename_i i hi
      change (Broadcast.input c (broadcaster c i) me (s.broadcasts.get i) v).bind _ = _ at h
      cases hb : Broadcast.input c (broadcaster c i) me (s.broadcasts.get i) v with
      | error fault =>
        rw [hb] at h
        cases h
      | ok b =>
        rw [hb] at h
        cases h
        exact ⟨by simpa using hgiven, i, b, hi, hb, rfl⟩

theorem input_ok {v : Bytes} {i : Fin c.size} {b : Reaction Broadcast.State Broadcast.Message}
    (hgiven : s.inputGiven = false) (hi : c.indexOf? me = some i)
    (hb : Broadcast.input c (broadcaster c i) me (s.broadcasts.get i) v = .ok b) :
    input c me s v = .ok (lift { s with inputGiven := true } i b) := by
  rw [input, if_neg (by simp [hgiven]), hi]
  change (Broadcast.input c (broadcaster c i) me (s.broadcasts.get i) v).bind _ = _
  rw [hb]
  rfl

/-! ### Values delivered -/

theorem broadcaster_injective (hc : c.members.Nodup) : Function.Injective (broadcaster c) :=
  List.nodup_iff_injective_get.mp hc

def deliverers (s : State c) : Finset (Fin c.size) :=
  Finset.univ.filter fun i => (s.broadcasts.get i).delivered.isSome

@[simp] theorem mem_deliverers {i : Fin c.size} :
    i ∈ deliverers s ↔ (s.broadcasts.get i).delivered.isSome := by
  simp [deliverers]

theorem deliverers_settle (s : State c) : deliverers (settle s) = deliverers s := by
  simp only [deliverers, broadcasts_settle]

/-- **In one event one broadcast delivers, at most.** -/
theorem card_deliverers_lift (s : State c) (i : Fin c.size)
    (r : Reaction Broadcast.State Broadcast.Message) :
    (deliverers (lift s i r).state).card ≤ (deliverers s).card + 1 := by
  have hmore : deliverers (lift s i r).state ⊆ insert i (deliverers s) := by
    intro j hj
    rw [mem_deliverers, broadcasts_lift] at hj
    rw [Finset.mem_insert, mem_deliverers]
    by_cases hij : i = j
    · exact .inl hij.symm
    · rw [if_neg hij] at hj
      exact .inr hj
  exact (Finset.card_le_card hmore).trans (Finset.card_insert_le i (deliverers s))

theorem length_broadcasts (s : State c) : s.broadcasts.toList.length = c.members.length :=
  Vector.length_toList

theorem mem_zip_broadcasts {id : NodeId} {b : Broadcast.State} :
    (id, b) ∈ c.members.zip s.broadcasts.toList ↔
      ∃ i : Fin c.size, broadcaster c i = id ∧ s.broadcasts.get i = b := by
  rw [List.mem_iff_getElem]
  constructor
  · rintro ⟨k, hk, heq⟩
    rw [List.getElem_zip] at heq
    rw [List.length_zip] at hk
    cases heq
    exact ⟨⟨k, (Nat.lt_min.mp hk).1⟩, rfl, rfl⟩
  · rintro ⟨i, rfl, rfl⟩
    have hlt : i.val < (c.members.zip s.broadcasts.toList).length := by
      rw [List.length_zip, length_broadcasts, Nat.min_self]
      exact i.isLt
    refine ⟨i, hlt, ?_⟩
    rw [List.getElem_zip]
    rfl

/-- **The values delivered, by broadcaster.** -/
theorem get?_delivered (hc : c.members.Nodup) {id : NodeId} {v : Bytes} :
    (delivered s).get? id = some v ↔
      ∃ i : Fin c.size, broadcaster c i = id ∧ (s.broadcasts.get i).delivered = some v := by
  have hkeys : (c.members.zip s.broadcasts.toList).Pairwise fun a b => a.1 ≠ b.1 := by
    have hfst : (c.members.zip s.broadcasts.toList).map Prod.fst = c.members :=
      List.map_fst_zip (length_broadcasts s).ge
    rw [← hfst] at hc
    exact List.pairwise_map.mp hc
  rw [delivered, SortedMap.get?_ofList]
  · simp only [List.mem_filterMap, Prod.exists, mem_zip_broadcasts, Option.map_eq_some_iff,
      Prod.mk.injEq]
    constructor
    · rintro ⟨_, _, ⟨i, rfl, rfl⟩, w, hw, rfl, rfl⟩
      exact ⟨i, rfl, hw⟩
    · rintro ⟨i, rfl, hv⟩
      exact ⟨_, _, ⟨i, rfl, rfl⟩, v, hv, rfl, rfl⟩
  · rw [List.Nodup, List.pairwise_map, List.pairwise_filterMap]
    refine hkeys.imp ?_
    intro a b hne e he e' he'
    obtain ⟨_, -, rfl⟩ := Option.map_eq_some_iff.mp he
    obtain ⟨_, -, rfl⟩ := Option.map_eq_some_iff.mp he'
    exact hne

theorem size_delivered (hc : c.members.Nodup) (s : State c) :
    (delivered s).size = (deliverers s).card := by
  have hkeys : (delivered s).keys.toFinset = (deliverers s).image (broadcaster c) := by
    ext id
    simp only [List.mem_toFinset, SortedMap.mem_keys, Option.isSome_iff_exists, get?_delivered hc,
      Finset.mem_image, mem_deliverers]
    constructor
    · rintro ⟨v, i, hid, hv⟩
      exact ⟨i, ⟨v, hv⟩, hid⟩
    · rintro ⟨i, ⟨v, hv⟩, hid⟩
      exact ⟨v, i, hid, hv⟩
  rw [← SortedMap.card_keys, hkeys,
    Finset.card_image_of_injective _ (broadcaster_injective hc)]

/-! ### The output -/

/-- A node waits until a quorum has delivered; then it keeps what there is. -/
structure Frozen (s : State c) : Prop where
  waits : s.output = none → (delivered s).size < c.quorum
  full : ∀ out, s.output = some out → out.size = c.quorum
  entries : ∀ out, s.output = some out → ∀ id v, out.get? id = some v →
    (delivered s).get? id = some v

theorem frozen_initial (hc : c.members.Nodup) (hne : c.members ≠ []) :
    Frozen (State.initial c) where
  waits _ := by
    have hnobody : deliverers (State.initial c) = ∅ := by
      ext i
      simp
    have hquorum := Committee.two_mul_faults_lt_quorum hne
    rw [size_delivered hc, hnobody, Finset.card_empty]
    omega
  full out hout := by cases hout
  entries out hout := by cases hout

/-- Looking whether there are enough values keeps the output what it should be. -/
theorem frozen_settle (hwaits : s.output = none → (delivered s).size ≤ c.quorum)
    (hfull : ∀ out, s.output = some out → out.size = c.quorum)
    (hentries : ∀ out, s.output = some out → ∀ id v, out.get? id = some v →
      (delivered s).get? id = some v) : Frozen (settle s) := by
  unfold settle
  split
  · rename_i henough
    obtain ⟨hnone, henough⟩ := henough
    have hnone : s.output = none := by simpa using hnone
    have hsize : (delivered s).size = c.quorum := by
      have := hwaits hnone
      omega
    exact
      { waits := fun h => by cases h
        full := fun out hout => by
          cases hout
          exact hsize
        entries := fun out hout id v hv => by
          cases hout
          exact hv }
  · rename_i hnot
    refine ⟨fun hnone => ?_, hfull, hentries⟩
    by_contra hlt
    exact hnot ⟨by simp [hnone], by omega⟩

/-- **An event of a broadcast that takes nothing back keeps the output what it should be.** -/
theorem frozen_lift (hc : c.members.Nodup) (hs : Frozen s) {i : Fin c.size}
    {r : Reaction Broadcast.State Broadcast.Message}
    (hkeeps : ∀ v, (s.broadcasts.get i).delivered = some v → r.state.delivered = some v) :
    Frozen (lift s i r).state := by
  refine frozen_settle ?_ hs.full ?_
  · -- one more at most has delivered
    intro hnone
    have hcard : (deliverers (settle _)).card ≤ _ := card_deliverers_lift s i r
    rw [deliverers_settle] at hcard
    have hbefore := hs.waits hnone
    rw [size_delivered hc] at hbefore ⊢
    omega
  · intro out hout id v hv
    obtain ⟨j, hid, hdelivered⟩ := (get?_delivered hc).mp (hs.entries out hout id v hv)
    refine (get?_delivered hc).mpr ⟨j, hid, ?_⟩
    rw [get_set]
    split
    · rename_i hij
      subst hij
      exact hkeeps v hdelivered
    · exact hdelivered

theorem frozen_input (hc : c.members.Nodup) (hs : Frozen s) {v : Bytes}
    {r : Reaction (State c) Message} (h : input c me s v = .ok r) : Frozen r.state := by
  obtain ⟨-, i, b, -, hb, rfl⟩ := input_eq_ok h
  obtain ⟨-, -, hstate, -⟩ := Broadcast.input_eq_ok hb
  have hgiven : Frozen { s with inputGiven := true } := ⟨hs.waits, hs.full, hs.entries⟩
  refine frozen_lift hc hgiven fun w hw => ?_
  rw [hstate]
  exact hw

theorem frozen_receive (hc : c.members.Nodup) (hs : Frozen s) {m : Message}
    {r : Reaction (State c) Message} (h : receive c s sender m = .ok r) : Frozen r.state := by
  obtain ⟨-, i, -, rfl⟩ := receive_eq_ok h
  exact frozen_lift hc hs fun w hw => Broadcast.delivered_receive_of_some hw

end Gather

end Quorum
