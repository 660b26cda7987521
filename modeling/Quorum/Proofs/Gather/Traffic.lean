import Mathlib.Data.Finset.Prod
import Quorum.Proofs.Gather.Completion
import Quorum.Proofs.Tame

/-!
# Traffic — how much a gather sends, and whether it can be read

From one node to another each broadcast sends one message of each kind, so a gather sends three
times as many as there are members.  Every message leads to a broadcast and carries an input.

**Main statements.**  `length_between_le`: the bound on the messages from one node to another.
`given_of_sent`: every message carries an input.  `short_iff`: which inputs can be sent.  `tame`: a
gather is tame.
-/

namespace Quorum.Gather

open Mesh

variable {c : Committee} {faulty : Finset NodeId} {past : List (Moment (.gather c))}
variable {mesh : Mesh (.gather c)} {ids : List NodeId}

theorem exists_nth (hrun : Run ids Event.IsAsynchronous past mesh) {x y : NodeId} {m : Message}
    (hp : (⟨x, y, m⟩ : Packet Message) ∈ mesh.pool) :
    ∃ i : Fin c.size, i.val = m.index.toNat ∧ inner? i m = some m.inner ∧
      (⟨x, y, m.inner⟩ : Packet Broadcast.Message) ∈ ((nth i).mesh mesh).pool := by
  have hroutes : Routes c m := routed_of_run hrun hp
  have hinner : inner? ⟨m.index.toNat, hroutes.2⟩ m = some m.inner := if_pos ⟨hroutes.1, rfl⟩
  exact ⟨_, rfl, hinner, Projection.mem_pool.mpr ⟨m, hp, hinner⟩⟩

theorem recipient_of_run (hrun : Run ids Event.IsAsynchronous past mesh) {x y : NodeId}
    {m : Message} (hp : (⟨x, y, m⟩ : Packet Message) ∈ mesh.pool) : y ∈ c := by
  obtain ⟨i, -, -, hshown⟩ := exists_nth hrun hp
  obtain ⟨past', hseen⟩ := (nth i).seen_of_run hrun
  exact Broadcast.recipient_of_run hseen.run hshown

def key (m : Message) : ℕ × Broadcast.Kind := (m.index.toNat, m.inner.kind)

section
variable (hc : c.members.Nodup) (hf : faulty.card ≤ c.faults)
  (hrun : Run (c.correct faulty) Event.IsAsynchronous past mesh)
include hc hf hrun

theorem pairwise_nth (i : Fin c.size) : mesh.pool.toList.Pairwise fun p q =>
    ∀ a ∈ (nth i).packet? p, ∀ b ∈ (nth i).packet? q, a ≠ b := by
  obtain ⟨past', hseen⟩ := (nth i).seen_of_run hrun
  have hnodup := Broadcast.nodup_pool hc hf hseen.run
  rw [Projection.mesh, Array.toList_filterMap] at hnodup
  exact List.pairwise_filterMap.mp hnodup

/-- **A node sends another one at most one message of each broadcast and each kind.** -/
theorem pairwise_pool : mesh.pool.toList.Pairwise fun p q => ∀ x y (m m' : Message),
    p = ⟨x, y, m⟩ → q = ⟨x, y, m'⟩ → key m ≠ key m' := by
  refine List.pairwise_iff_getElem.mpr fun k k' hk hk' hlt x y m m' hp hq heq => ?_
  obtain ⟨hindex, hkind⟩ := Prod.mk.inj heq
  have hpool : (⟨x, y, m⟩ : Packet Message) ∈ mesh.pool :=
    Array.mem_toList_iff.mp (hp ▸ List.getElem_mem hk)
  have hpool' : (⟨x, y, m'⟩ : Packet Message) ∈ mesh.pool :=
    Array.mem_toList_iff.mp (hq ▸ List.getElem_mem hk')
  obtain ⟨i, hi, hinner, hshown⟩ := exists_nth hrun hpool
  obtain ⟨i', hi', hinner', hshown'⟩ := exists_nth hrun hpool'
  obtain rfl : i = i' := Fin.ext (by rw [hi, hi', hindex])
  obtain ⟨past', hseen⟩ := (nth i).seen_of_run hrun
  -- both show in one broadcast, where the node declares one value of this kind
  have hsame : m.inner = m'.inner := by
    obtain ⟨subsystem, index, kind, v⟩ := m
    obtain ⟨subsystem', index', kind', v'⟩ := m'
    cases hkind
    rw [(Broadcast.joint_of_run hf hseen.run).unique x y y kind v v' hshown hshown']
  have hne := List.pairwise_iff_getElem.mp (pairwise_nth hc hf hrun i) k k' hk hk' hlt
    ⟨x, y, m.inner⟩ (by rw [hp]; exact congrArg (Option.map _) hinner)
    ⟨x, y, m'.inner⟩ (by rw [hq]; exact congrArg (Option.map _) hinner')
  exact hne (by rw [hsame])

/-- **A node sends another one at most three messages for each member.** -/
theorem length_between_le (x y : NodeId) :
    (between x y mesh.pool.toList).length ≤ 3 * c.size := by
  let kinds : Finset Broadcast.Kind := {.initial, .echo, .ready}
  let msgs : List Message := between x y mesh.pool.toList
  have hnodup : (msgs.map key).Nodup := nodup_map_between (pairwise_pool hc hf hrun) x y
  have hkeys : (msgs.map key).toFinset ⊆ Finset.range c.size ×ˢ kinds := by
    intro k hk
    obtain ⟨m, hm, rfl⟩ := List.mem_map.mp (List.mem_toFinset.mp hk)
    have hroutes : Routes c m :=
      routed_of_run hrun (Array.mem_toList_iff.mp (mem_between.mp hm))
    refine Finset.mem_product.mpr ⟨Finset.mem_range.mpr hroutes.2, ?_⟩
    cases hkind : m.inner.kind <;> simp [key, kinds, hkind]
  have hcard := Finset.card_le_card hkeys
  rw [List.toFinset_card_of_nodup hnodup, List.length_map, Finset.card_product,
    Finset.card_range, Nat.mul_comm] at hcard
  exact hcard

/-- **Every message carries an input, if nobody is faulty.** -/
theorem given_of_sent (hall : faulty = ∅) {x y : NodeId} {m : Message}
    (hp : (⟨x, y, m⟩ : Packet Message) ∈ mesh.pool) :
    ∃ z ∈ past, ∃ id, z.event = .input id m.inner.value := by
  obtain ⟨i, -, -, hshown⟩ := exists_nth hrun hp
  obtain ⟨past', hseen⟩ := (nth i).seen_of_run hrun
  have hb : broadcaster c i ∈ c.correct faulty := by
    rw [hall, Committee.correct_empty]
    exact List.get_mem c.members i
  obtain ⟨z, hz, hv⟩ :=
    (input_nth_iff hc hrun hseen).mp (Broadcast.input_of_sent hf hseen.run hb hshown)
  exact ⟨z, hz, _, hv⟩

end

/-! ### Where nobody is faulty -/

/-- A value that is short enough for the encoding of the messages that carry it. -/
def Short (v : Bytes) : Prop := v.length + 9 < UInt32.size

/-- **A value is short exactly if the messages that carry it can be sent and read.** -/
theorem short_iff {m : Message} (hsubsystem : m.subsystem = broadcastSubsystem)
    (hindex : m.index.toNat < c.size) :
    Short m.inner.value ↔ Reliable.Fits encode (read c).decode m := by
  unfold Short
  constructor
  · intro h
    obtain ⟨bytes, hencode, hlength, hdecode⟩ :=
      read_encode hsubsystem hindex (by omega : m.inner.value.length < UInt32.size)
    exact ⟨bytes, hencode, by omega, hdecode⟩
  · rintro ⟨bytes, hencode, hlength, -⟩
    by_cases hvalue : m.inner.value.length < UInt32.size
    · obtain ⟨bytes', hencode', hlength', -⟩ := read_encode hsubsystem hindex hvalue
      rw [hencode] at hencode'
      cases hencode'
      omega
    · have herror : encode m = .error (.lengthTooLarge m.inner.value.length) := by
        rw [encode, Routed.encodeBody, Broadcast.Message.encode, Wire.putBytes, if_neg hvalue]
        rfl
      rw [hencode] at herror
      cases herror

/-- **A gather of distinct members, each with an index, is tame.** -/
theorem tame (hc : c.members.Nodup) (hsize : c.size ≤ UInt16.size) :
    Tame (.gather c) c.members Short (3 * c.size) := by
  have hf : (∅ : Finset NodeId).card ≤ c.faults := Nat.zero_le _
  have hhonest : ∀ past (mesh : Mesh (.gather c)),
      Run c.members (Event.IsHonest Short) past mesh →
        Run (c.correct ∅) Event.IsAsynchronous past mesh := by
    intro past mesh hrun
    rw [Committee.correct_empty]
    exact hrun.mono fun e he => he.isAsynchronous
  refine
    { start := fun id hid => ⟨State.initial c, if_pos hid⟩
      input := ?_
      receive := fun past mesh hrun p hp s hs => receive_of_sent (hhonest past mesh hrun) hp s
      recipient := fun past mesh hrun p hp => recipient_of_run (hhonest past mesh hrun) hp
      traffic := fun past mesh hrun => length_between_le hc hf (hhonest past mesh hrun)
      readable := ?_ }
  · intro past mesh hrun id s v hs hv hnew
    refine input_of_new hc hf (hhonest past mesh hrun) hsize hs ?_ v
    intro x hx w hw
    exact hnew w ⟨x, hx, hw⟩
  · intro past mesh hrun p hp
    obtain ⟨hsubsystem, hindex⟩ := routed_of_run (hhonest past mesh hrun) hp
    obtain ⟨z, hz, id, hv⟩ := given_of_sent hc hf (hhonest past mesh hrun) rfl hp
    have hshort : Short (p.body : Message).inner.value := by
      have hmay := (hrun.step_of_mem hz).2
      rw [hv] at hmay
      exact hmay
    exact (short_iff hsubsystem hindex).mp hshort

end Quorum.Gather
