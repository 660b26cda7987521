import Quorum.Reliable.ReceivedIds

/-!
# ReceivedIds — the numbers received as a set

Whatever the watermark and the sparse numbers above it are, they stand for a set of numbers.  No
operation is about anything else: raising the watermark does not change the set, and the other
two add to it.

**Main statements.**  `contains_insert`: one number is added.  `contains_forgetThrough`: every
number up to a bound is added.  `contains_latest` and `WellFormed.le_latest`: the latest number is
in the set, and no larger one is.  `WellFormed.above_eq_nil_iff`: nothing is above the watermark
exactly if the set has no gaps.
-/

namespace Quorum.Reliable

theorem BatchId.next?_eq_some {id next : BatchId} :
    BatchId.next? id = some next ↔ next.toNat = id.toNat + 1 := by
  have hnext := next.toNat_lt
  have hsize : UInt32.size = 2 ^ 32 := rfl
  unfold BatchId.next?
  split
  · rename_i hlt
    rw [Option.some.injEq, ← UInt32.toNat_inj, UInt32.toNat_add]
    have hone : (1 : UInt32).toNat = 1 := rfl
    omega
  · constructor
    · intro h
      cases h
    · intro h
      omega

theorem BatchId.next?_eq_none {id : BatchId} :
    BatchId.next? id = none ↔ id.toNat + 1 = UInt32.size := by
  have hid := id.toNat_lt
  have hsize : UInt32.size = 2 ^ 32 := rfl
  unfold BatchId.next?
  split
  · rename_i hlt
    exact iff_of_false (Option.some_ne_none _) (by omega)
  · rename_i hle
    exact iff_of_true rfl (by omega)

theorem BatchId.exists_next {id x : BatchId} (h : id < x) : ∃ next, id.next? = some next := by
  refine Option.ne_none_iff_exists'.mp fun hnone => ?_
  have hlt := UInt32.lt_iff_toNat_lt.mp h
  have hsize := x.toNat_lt
  rw [BatchId.next?_eq_none] at hnone
  change id.toNat + 1 = 2 ^ 32 at hnone
  omega

theorem BatchId.le_max {a b x : BatchId} : x ≤ max a b ↔ x ≤ a ∨ x ≤ b := by
  change x ≤ (if a ≤ b then b else a) ↔ _
  split <;> simp only [UInt32.le_iff_toNat_le] at * <;> omega

namespace ReceivedIds

theorem contains_iff {ids : ReceivedIds} {x : BatchId} :
    ids.contains x ↔ x ≤ ids.watermark ∨ x ∈ ids.above := by
  simp only [contains, decide_eq_true_eq]

/-- Raising the watermark does not change the set. -/
theorem contains_compact (watermark : BatchId) (above : List BatchId) (x : BatchId) :
    (compact watermark above).contains x ↔ x ≤ watermark ∨ x ∈ above := by
  induction above generalizing watermark with
  | nil => simp [compact, contains_iff]
  | cons id above ih =>
    unfold compact
    split
    · rename_i hnext
      rw [ih, List.mem_cons, ← or_assoc]
      refine or_congr_left ?_
      -- the numbers up to the next watermark are those up to the last one, and itself
      rw [BatchId.next?_eq_some] at hnext
      rw [UInt32.le_iff_toNat_le, UInt32.le_iff_toNat_le, ← UInt32.toNat_inj]
      omega
    · exact contains_iff

theorem mem_insertSorted (id x : BatchId) (above : List BatchId) :
    x ∈ insertSorted id above ↔ x = id ∨ x ∈ above := by
  induction above with
  | nil => simp [insertSorted]
  | cons id' above ih =>
    unfold insertSorted
    split
    · simp
    · rw [List.mem_cons, ih, List.mem_cons]
      exact or_left_comm

/-- **Insertion adds its number.** -/
theorem contains_insert (ids : ReceivedIds) (id x : BatchId) :
    (ids.insert id).contains x ↔ x = id ∨ ids.contains x := by
  unfold insert
  split
  · rename_i hid
    refine ⟨.inr, fun h => ?_⟩
    rcases h with rfl | h
    · exact hid
    · exact h
  · rw [contains_compact, mem_insertSorted, contains_iff]
    exact or_left_comm

theorem record_fst (ids : ReceivedIds) (id : BatchId) :
    (ids.record id).1 = true ↔ ids.contains id = false := by
  unfold record
  split <;> simp_all

theorem record_snd (ids : ReceivedIds) (id : BatchId) : (ids.record id).2 = ids.insert id := by
  unfold record
  split
  · rename_i hcontains
    rw [insert, if_pos hcontains]
  · rfl

theorem contains_forgetThrough (ids : ReceivedIds) (id x : BatchId) :
    (ids.forgetThrough id).contains x ↔ x ≤ id ∨ ids.contains x := by
  have hmax : x ≤ max ids.watermark id ↔ x ≤ ids.watermark ∨ x ≤ id := BatchId.le_max
  rw [forgetThrough, contains_compact, List.mem_filter, contains_iff, hmax, decide_eq_true_iff]
  by_cases hx : x ≤ id
  · simp [hx]
  · have hlt : id < x := UInt32.not_le.mp hx
    simp [hx, hlt]

theorem contains_zero (ids : ReceivedIds) : ids.contains 0 :=
  contains_iff.mpr (.inl (UInt32.le_iff_toNat_le.mpr (Nat.zero_le _)))

theorem contains_empty {x : BatchId} (hx : x ≠ 0) : ({} : ReceivedIds).contains x = false := by
  rw [Bool.eq_false_iff, Ne, contains_iff]
  rintro (h | h)
  · refine hx (UInt32.toNat_inj.mp ?_)
    have hzero : x.toNat ≤ 0 := UInt32.le_iff_toNat_le.mp h
    exact Nat.le_zero.mp hzero
  · cases h

theorem contains_latest (ids : ReceivedIds) : ids.contains ids.latest := by
  unfold latest
  cases h : ids.above.getLast? with
  | none => exact contains_iff.mpr (.inl (UInt32.le_iff_toNat_le.mpr (Nat.le_refl _)))
  | some id => exact contains_iff.mpr (.inr (List.mem_of_getLast? h))

/-! ### Well-formed records -/

/-- The sparse numbers are increasing and above the watermark, which is as high as it can be. -/
structure WellFormed (ids : ReceivedIds) : Prop where
  sorted : ids.above.Pairwise (· < ·)
  above : ∀ x ∈ ids.above, ids.watermark < x
  gap : ∀ x ∈ ids.above, ids.watermark.next? ≠ some x

theorem wellFormed_bare (watermark : BatchId) : ({ watermark } : ReceivedIds).WellFormed where
  sorted := .nil
  above := fun _ hx => absurd hx List.not_mem_nil
  gap := fun _ hx => absurd hx List.not_mem_nil

theorem wellFormed_empty : ({} : ReceivedIds).WellFormed := wellFormed_bare 0

theorem wellFormed_compact {watermark : BatchId} {above : List BatchId}
    (hsorted : above.Pairwise (· < ·)) (habove : ∀ x ∈ above, watermark < x) :
    (compact watermark above).WellFormed := by
  induction above generalizing watermark with
  | nil => exact wellFormed_bare watermark
  | cons id above ih =>
    obtain ⟨hfirst, hrest⟩ := List.pairwise_cons.mp hsorted
    unfold compact
    split
    · exact ih hrest hfirst
    · rename_i hgap
      refine ⟨hsorted, habove, List.forall_mem_cons.mpr ⟨hgap, fun x hx hnext => ?_⟩⟩
      -- the first of the sparse numbers lies in between
      have hid : watermark < id := habove id (List.mem_cons_self ..)
      have hx : id < x := hfirst x hx
      rw [BatchId.next?_eq_some] at hnext
      rw [UInt32.lt_iff_toNat_lt] at hid hx
      change x.toNat = watermark.toNat + 1 at hnext
      omega

theorem pairwise_insertSorted {id : BatchId} {above : List BatchId}
    (hsorted : above.Pairwise (· < ·)) (hid : id ∉ above) :
    (insertSorted id above).Pairwise (· < ·) := by
  induction above with
  | nil => exact List.pairwise_singleton _ _
  | cons id' above ih =>
    obtain ⟨hfirst, hrest⟩ := List.pairwise_cons.mp hsorted
    obtain ⟨hne, hid⟩ := List.ne_and_not_mem_of_not_mem_cons hid
    unfold insertSorted
    split
    · rename_i hlt
      exact List.pairwise_cons.mpr
        ⟨List.forall_mem_cons.mpr ⟨hlt, fun x hx => UInt32.lt_trans hlt (hfirst x hx)⟩, hsorted⟩
    · rename_i hle
      refine List.pairwise_cons.mpr ⟨fun x hx => ?_, ih hrest hid⟩
      rcases (mem_insertSorted id x above).mp hx with rfl | hx
      · exact UInt32.lt_of_le_of_ne (UInt32.not_lt.mp hle) (Ne.symm hne)
      · exact hfirst x hx

theorem WellFormed.insertSorted {ids : ReceivedIds} (h : ids.WellFormed) {id : BatchId}
    (hid : ids.contains id = false) : (ReceivedIds.insertSorted id ids.above).Pairwise (· < ·) ∧
      ∀ x ∈ ReceivedIds.insertSorted id ids.above, ids.watermark < x := by
  rw [Bool.eq_false_iff, Ne, contains_iff, not_or] at hid
  refine ⟨pairwise_insertSorted h.sorted hid.2, fun x hx => ?_⟩
  rcases (mem_insertSorted id x ids.above).mp hx with rfl | hx
  · exact UInt32.not_le.mp hid.1
  · exact h.above x hx

theorem WellFormed.insert {ids : ReceivedIds} (h : ids.WellFormed) (id : BatchId) :
    (ids.insert id).WellFormed := by
  unfold ReceivedIds.insert
  split
  · exact h
  · rename_i hid
    obtain ⟨hsorted, habove⟩ := h.insertSorted (Bool.eq_false_iff.mpr hid)
    exact wellFormed_compact hsorted habove

theorem WellFormed.filter {ids : ReceivedIds} (h : ids.WellFormed) (id : BatchId) :
    (ids.above.filter fun x => id < x).Pairwise (· < ·) ∧
      ∀ x ∈ ids.above.filter fun x => id < x, max ids.watermark id < x := by
  refine ⟨h.sorted.sublist List.filter_sublist, fun x hx => ?_⟩
  obtain ⟨hx, hid⟩ := List.mem_filter.mp hx
  refine UInt32.not_le.mp fun hle => ?_
  rcases BatchId.le_max.mp hle with hle | hle
  · exact UInt32.not_le.mpr (h.above x hx) hle
  · exact UInt32.not_le.mpr (of_decide_eq_true hid) hle

theorem WellFormed.forgetThrough {ids : ReceivedIds} (h : ids.WellFormed) (id : BatchId) :
    (ids.forgetThrough id).WellFormed :=
  wellFormed_compact (h.filter id).1 (h.filter id).2

/-- **No number in the set is larger than the latest.** -/
theorem WellFormed.le_latest {ids : ReceivedIds} (h : ids.WellFormed) {x : BatchId}
    (hx : ids.contains x) : x ≤ ids.latest := by
  rw [contains_iff] at hx
  unfold latest
  rcases List.eq_nil_or_concat ids.above with hnil | ⟨init, last, hlast⟩
  · rw [hnil] at hx ⊢
    exact hx.resolve_right List.not_mem_nil
  · rw [List.concat_eq_append] at hlast
    have hsorted := h.sorted
    have hmem : last ∈ ids.above := hlast ▸ List.mem_append_right _ (List.mem_singleton_self _)
    rw [hlast, List.pairwise_append] at hsorted
    rw [hlast, List.getLast?_append, List.getLast?_singleton]
    change x ≤ last
    rcases hx with hx | hx
    · exact UInt32.le_trans hx (UInt32.le_of_lt (h.above last hmem))
    · rw [hlast] at hx
      rcases List.mem_append.mp hx with hx | hx
      · exact UInt32.le_of_lt (hsorted.2.2 x hx last (List.mem_singleton_self _))
      · rw [List.mem_singleton.mp hx]
        exact UInt32.le_refl _

/-! ### Gaps -/

/-- **The sparse set is empty if and only if there is no gap**: everything below a number of the set
is in the set. -/
theorem WellFormed.above_eq_nil_iff {ids : ReceivedIds} (h : ids.WellFormed) :
    ids.above = [] ↔ ∀ i j, i < j → ids.contains j → ids.contains i := by
  constructor
  · intro hnil i j hlt hj
    rw [contains_iff, hnil, or_iff_left List.not_mem_nil] at hj ⊢
    exact UInt32.le_trans (UInt32.le_of_lt hlt) hj
  · intro hclosed
    cases habove : ids.above with
    | nil => rfl
    | cons x rest =>
      have hx : x ∈ ids.above := habove ▸ List.mem_cons_self ..
      have hlt := UInt32.lt_iff_toNat_lt.mp (h.above x hx)
      -- the number after the watermark is the one that is missing
      obtain ⟨next, hnext⟩ := BatchId.exists_next (h.above x hx)
      have hsucc := BatchId.next?_eq_some.mp hnext
      have hne : next.toNat ≠ x.toNat := fun hsame =>
        h.gap x hx (UInt32.toNat_inj.mp hsame ▸ hnext)
      have hcontains := hclosed next x (UInt32.lt_iff_toNat_lt.mpr (by omega))
        (contains_iff.mpr (.inr hx))
      rw [contains_iff, UInt32.le_iff_toNat_le, habove] at hcontains
      have hsorted := h.sorted
      rw [habove, List.pairwise_cons] at hsorted
      rcases hcontains with hle | hmem
      · omega
      · rcases List.mem_cons.mp hmem with rfl | hmem
        · exact absurd rfl hne
        · have hle := UInt32.lt_iff_toNat_lt.mp (hsorted.1 next hmem)
          omega

end ReceivedIds

end Quorum.Reliable
