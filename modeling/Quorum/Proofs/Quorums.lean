import Mathlib.Data.Finset.Card
import Quorum.Broadcast.Tally
import Quorum.Committee

/-!
# Quorums — how many votes leave no doubt

The arithmetic of a committee of which at most `faults` members are faulty: which sets of members
contain a correct one, which two of them share a correct one, and what the correct members alone
amount to.  A tally without repeated votes counts sets of members (`card_voters`).
-/

namespace Quorum

namespace Committee
variable {c : Committee} {faulty : Finset NodeId}

def memberSet (c : Committee) : Finset NodeId := c.members.toFinset

@[simp] theorem mem_memberSet {id : NodeId} : id ∈ c.memberSet ↔ id ∈ c := List.mem_toFinset

def correct (c : Committee) (faulty : Finset NodeId) : List NodeId :=
  c.members.filter (· ∉ faulty)

@[simp] theorem mem_correct {id : NodeId} : id ∈ c.correct faulty ↔ id ∈ c ∧ id ∉ faulty := by
  rw [correct, List.mem_filter, decide_eq_true_iff]
  rfl

theorem correct_empty (c : Committee) : c.correct ∅ = c.members := by
  simp [correct]

theorem card_memberSet_le : c.memberSet.card ≤ c.size := List.toFinset_card_le c.members

theorem exists_correct (hf : faulty.card ≤ c.faults) {voters : Finset NodeId}
    (h : c.faults < voters.card) : ∃ x ∈ voters, x ∉ faulty :=
  Finset.exists_mem_notMem_of_card_lt_card (by omega)

/-- **Two echo quorums share a correct member.** -/
theorem exists_correct_inter (hf : faulty.card ≤ c.faults) {A B : Finset NodeId}
    (hA : A ⊆ c.memberSet) (hB : B ⊆ c.memberSet) (ha : c.echoThreshold ≤ A.card)
    (hb : c.echoThreshold ≤ B.card) : ∃ x, x ∈ A ∧ x ∈ B ∧ x ∉ faulty := by
  have hunion : (A ∪ B).card ≤ c.size :=
    (Finset.card_le_card (Finset.union_subset hA hB)).trans card_memberSet_le
  have hinter := Finset.card_union_add_card_inter A B
  have hbig : c.faults < (A ∩ B).card := by
    unfold echoThreshold at ha hb
    omega
  obtain ⟨x, hx, hcorrect⟩ := exists_correct hf hbig
  exact ⟨x, (Finset.mem_inter.mp hx).1, (Finset.mem_inter.mp hx).2, hcorrect⟩

theorem quorum_le_card_correct (hc : c.members.Nodup) (hf : faulty.card ≤ c.faults) :
    c.quorum ≤ (c.memberSet \ faulty).card := by
  have hcard : c.memberSet.card = c.size := List.toFinset_card_of_nodup hc
  have hsdiff := Finset.le_card_sdiff faulty c.memberSet
  unfold quorum
  omega

theorem echoThreshold_le_quorum (hne : c.members ≠ []) : c.echoThreshold ≤ c.quorum := by
  have hpos : 0 < c.size := List.length_pos_iff.mpr hne
  unfold echoThreshold quorum faults
  omega

theorem two_mul_faults_lt_quorum (hne : c.members ≠ []) : 2 * c.faults < c.quorum := by
  have hpos : 0 < c.size := List.length_pos_iff.mpr hne
  unfold quorum faults
  omega

theorem two_mul_faults_lt_card_correct (hc : c.members.Nodup) (hne : c.members ≠ [])
    (hf : faulty.card ≤ c.faults) : 2 * c.faults < (c.memberSet \ faulty).card :=
  (two_mul_faults_lt_quorum hne).trans_le (quorum_le_card_correct hc hf)

end Committee

namespace Broadcast.Tally
variable {t : Tally} {value : Bytes}

def voters (t : Tally) (value : Bytes) : Finset NodeId :=
  ((t.votes.filter fun vote => vote.2 = value).map (·.1)).toFinset

@[simp] theorem mem_voters {x : NodeId} : x ∈ t.voters value ↔ (x, value) ∈ t.votes := by
  simp only [voters, List.mem_toFinset, List.mem_map, List.mem_filter, decide_eq_true_eq]
  constructor
  · rintro ⟨⟨y, w⟩, ⟨hmem, rfl⟩, rfl⟩
    exact hmem
  · intro h
    exact ⟨(x, value), ⟨h, rfl⟩, rfl⟩

/-- **A tally without repeated votes counts the voters.** -/
theorem card_voters (h : t.votes.Nodup) : (t.voters value).card = t.count value := by
  rw [voters, List.toFinset_card_of_nodup, List.length_map, count, List.countP_eq_length_filter]
  refine (h.filter _).map_on ?_
  rintro ⟨x, v⟩ hx ⟨y, w⟩ hy hxy
  have hv : v = value := by simpa using (List.mem_filter.mp hx).2
  have hw : w = value := by simpa using (List.mem_filter.mp hy).2
  rw [hv, hw, show x = y from hxy]

theorem card_le_count (h : t.votes.Nodup) {A : Finset NodeId}
    (hA : ∀ x ∈ A, (x, value) ∈ t.votes) : A.card ≤ t.count value := by
  rw [← card_voters h]
  exact Finset.card_le_card fun x hx => mem_voters.mpr (hA x hx)

theorem count_le_count_cast (t : Tally) (voter : NodeId) (v value : Bytes) :
    t.count value ≤ (t.cast voter v).count value := by
  unfold cast
  split
  · exact le_rfl
  · exact (List.sublist_cons_self ..).countP_le

theorem count_cast_of_ne {t : Tally} {voter : NodeId} {v value : Bytes} (h : v ≠ value) :
    (t.cast voter v).count value = t.count value := by
  unfold cast
  split
  · rfl
  · exact List.countP_cons_of_neg (by simpa using h)

end Broadcast.Tally

end Quorum
