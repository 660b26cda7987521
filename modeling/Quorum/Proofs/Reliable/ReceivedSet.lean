import Mathlib.Data.List.Induction
import Quorum.Proofs.Reliable.ReceivedIds

/-!
# ReceivedSet — the numbers received after any calls

A record of received numbers begins empty, and is told in any order that a number has come, or that
everything up to a number is to count as received.  After any such calls it is the set of the
numbers that it was told of, kept as tightly as it can be: nothing that could be below the watermark
stands above it.  The watermark is raised by a loop, which takes one number after the other out of
the sparse set and stops at the first one that is missing.

**Main statements.**  `exists_raises`: the loop ends, whatever it begins with.  `Raises.unique` and
`raises_compact`: what it ends with.  `wellFormed_after`, `contains_after`: what any calls make of a
record.  `represents_set`: the record after any calls.
-/

namespace Quorum.Reliable

namespace ReceivedIds

/-! ### The loop that raises the watermark -/

/-- One pass of the loop: the number after the watermark is taken out of the sparse set, if it is
there, and becomes the watermark. -/
def raise? (ids : ReceivedIds) : Option ReceivedIds :=
  ids.watermark.next?.bind fun next =>
    if next ∈ ids.above then some { watermark := next, above := ids.above.erase next } else none

/-- `Raises ids last`: the loop takes the record `ids` to `last`, and stops there. -/
inductive Raises : ReceivedIds → ReceivedIds → Prop where
  | stop {ids : ReceivedIds} (h : ids.raise? = none) : Raises ids ids
  | pass {ids next last : ReceivedIds} (h : ids.raise? = some next) (hlast : Raises next last) :
      Raises ids last

theorem raise?_eq_some {ids next : ReceivedIds} : ids.raise? = some next ↔
    ids.watermark.next? = some next.watermark ∧ next.watermark ∈ ids.above ∧
      next.above = ids.above.erase next.watermark := by
  rw [raise?, Option.bind_eq_some_iff]
  constructor
  · rintro ⟨id, hid, h⟩
    split at h
    · rename_i hmem
      cases h
      exact ⟨hid, hmem, rfl⟩
    · cases h
  · rintro ⟨hid, hmem, habove⟩
    refine ⟨_, hid, ?_⟩
    rw [if_pos hmem, ← habove]

theorem length_of_raise? {ids next : ReceivedIds} (h : ids.raise? = some next) :
    next.above.length < ids.above.length := by
  obtain ⟨-, hmem, habove⟩ := raise?_eq_some.mp h
  have hpos := List.length_pos_of_mem hmem
  rw [habove, List.length_erase_of_mem hmem]
  omega

/-- **The loop ends**, whatever it begins with. -/
theorem exists_raises (ids : ReceivedIds) : ∃ last, Raises ids last := by
  induction hlength : ids.above.length using Nat.strongRecOn generalizing ids with
  | ind n ih =>
    subst hlength
    cases h : ids.raise? with
    | none => exact ⟨ids, .stop h⟩
    | some next =>
      obtain ⟨last, hlast⟩ := ih _ (length_of_raise? h) next rfl
      exact ⟨last, .pass h hlast⟩

/-- The loop has one way to end. -/
theorem Raises.unique {ids last last' : ReceivedIds} (h : Raises ids last)
    (h' : Raises ids last') : last = last' := by
  induction h with
  | stop hstop =>
    cases h' with
    | stop => rfl
    | pass hpass => exact nomatch hstop.symm.trans hpass
  | pass hpass _ ih =>
    cases h' with
    | stop hstop => exact nomatch hstop.symm.trans hpass
    | pass hpass' hlast =>
      cases hpass.symm.trans hpass'
      exact ih hlast

/-- **The loop raises the watermark through the front of increasing numbers above it.** -/
theorem raises_compact {watermark : BatchId} {above : List BatchId}
    (hsorted : above.Pairwise (· < ·)) (habove : ∀ x ∈ above, watermark < x) :
    Raises { watermark, above } (compact watermark above) := by
  induction above generalizing watermark with
  | nil =>
    refine .stop (Option.eq_none_iff_forall_ne_some.mpr fun next h => ?_)
    exact absurd (raise?_eq_some.mp h).2.1 List.not_mem_nil
  | cons id above ih =>
    obtain ⟨hfirst, hrest⟩ := List.pairwise_cons.mp hsorted
    unfold compact
    split
    · rename_i hnext
      refine .pass (raise?_eq_some.mpr ⟨hnext, List.mem_cons_self, ?_⟩) (ih hrest hfirst)
      rw [List.erase_cons_head]
    · rename_i hgap
      refine .stop (Option.eq_none_iff_forall_ne_some.mpr fun next h => ?_)
      obtain ⟨hnext, hmem, -⟩ := raise?_eq_some.mp h
      -- only the first of the numbers can be the one after the watermark
      rcases List.mem_cons.mp hmem with hid | hmem
      · exact hgap (hid ▸ hnext)
      · have hsucc := BatchId.next?_eq_some.mp hnext
        have hid := UInt32.lt_iff_toNat_lt.mp (habove id List.mem_cons_self)
        have hlt := UInt32.lt_iff_toNat_lt.mp (hfirst _ hmem)
        dsimp only at hsucc
        omega

/-! ### Any calls -/

/-- What a record is told. -/
inductive Operation where
  /-- A number has come. -/
  | insert (id : BatchId)
  /-- Everything up to a number counts as received. -/
  | forgetThrough (id : BatchId)
  deriving DecidableEq, Repr

def Operation.id : Operation → BatchId
  | insert id | forgetThrough id => id

def apply (ids : ReceivedIds) : Operation → ReceivedIds
  | .insert id => (ids.record id).2
  | .forgetThrough id => ids.forgetThrough id

def after (ops : List Operation) : ReceivedIds := ops.foldl apply {}

/-- What operations tell of a number: it has come, or counts as received, or is zero, which is no
number of a batch. -/
def Told (ops : List Operation) (x : BatchId) : Prop :=
  x = 0 ∨ .insert x ∈ ops ∨ ∃ id, .forgetThrough id ∈ ops ∧ x ≤ id

theorem after_concat (ops : List Operation) (op : Operation) :
    after (ops ++ [op]) = (after ops).apply op := by
  rw [after, List.foldl_append]
  rfl

theorem WellFormed.apply {ids : ReceivedIds} (h : ids.WellFormed) (op : Operation) :
    (ids.apply op).WellFormed := by
  cases op with
  | insert id =>
    rw [ReceivedIds.apply, record_snd]
    exact h.insert id
  | forgetThrough id => exact h.forgetThrough id

theorem wellFormed_after (ops : List Operation) : (after ops).WellFormed := by
  induction ops using List.reverseRecOn with
  | nil => exact wellFormed_empty
  | append_singleton ops op ih =>
    rw [after_concat]
    exact ih.apply op

theorem told_concat {ops : List Operation} {op : Operation} {x : BatchId} :
    Told (ops ++ [op]) x ↔ Told ops x ∨ op = .insert x ∨ ∃ id, op = .forgetThrough id ∧ x ≤ id := by
  simp only [Told, List.mem_append, List.mem_singleton, or_and_right, exists_or, @eq_comm _ op]
  grind

/-- **A record holds what it was told of**, and nothing else. -/
theorem contains_after (ops : List Operation) (x : BatchId) :
    (after ops).contains x ↔ Told ops x := by
  induction ops using List.reverseRecOn with
  | nil =>
    constructor
    · intro hx
      by_cases hzero : x = 0
      · exact .inl hzero
      · exact absurd hx (Bool.eq_false_iff.mp (contains_empty hzero))
    · rintro (rfl | hx | ⟨id, hid, -⟩)
      · exact contains_zero _
      · exact absurd hx List.not_mem_nil
      · exact absurd hid List.not_mem_nil
  | append_singleton ops op ih =>
    rw [after_concat, told_concat, ← ih]
    cases op with
    | insert id =>
      rw [apply, record_snd, contains_insert, or_comm, @eq_comm _ x]
      simp
    | forgetThrough id =>
      rw [apply, contains_forgetThrough, or_comm]
      simp

/-! ### The watermark -/

theorem WellFormed.lt_above {ids : ReceivedIds} (h : ids.WellFormed) {x : BatchId}
    (hx : x ∈ ids.above) : ids.watermark.toNat + 1 < x.toNat := by
  have hlt := UInt32.lt_iff_toNat_lt.mp (h.above x hx)
  have hgap : x.toNat ≠ ids.watermark.toNat + 1 := fun heq =>
    h.gap x hx (BatchId.next?_eq_some.mpr heq)
  omega

/-- **The watermark is the end of the longest prefix that is all received.** -/
theorem WellFormed.le_watermark_iff {ids : ReceivedIds} (h : ids.WellFormed) {x : BatchId} :
    x ≤ ids.watermark ↔ ∀ y ≤ x, ids.contains y := by
  constructor
  · intro hx y hy
    exact contains_iff.mpr (.inl (UInt32.le_trans hy hx))
  · refine fun hall => UInt32.not_lt.mp fun hx => ?_
    -- the number after the watermark is missing
    obtain ⟨next, hnext⟩ := BatchId.exists_next hx
    have hx := UInt32.lt_iff_toNat_lt.mp hx
    have hsucc := BatchId.next?_eq_some.mp hnext
    rcases contains_iff.mp (hall next (UInt32.le_iff_toNat_le.mpr (by omega))) with hle | hmem
    · have hle := UInt32.le_iff_toNat_le.mp hle
      omega
    · exact h.gap next hmem hnext

theorem latest_after (ops : List Operation) :
    (after ops).latest = 0 ∨ ∃ op ∈ ops, op.id = (after ops).latest := by
  have hlatest := (contains_after ops _).mp (contains_latest _)
  rcases hlatest with hzero | hcame | ⟨id, hid, hle⟩
  · exact .inl hzero
  · exact .inr ⟨_, hcame, rfl⟩
  · -- everything up to `id` is in the record, and nothing above its latest number
    have hcontains := (contains_after ops id).mpr
      (.inr (.inr ⟨id, hid, UInt32.le_refl id⟩))
    have hge := (wellFormed_after ops).le_latest hcontains
    exact .inr ⟨_, hid, UInt32.le_antisymm hge hle⟩

/-- **A record of received numbers is a set.**  After any operations on an empty record it contains
zero, the numbers that have come, and all numbers up to one that everything up to counts as
received; a number is put on record as a new one exactly if it was not in the record; the latest
number is the largest one of all operations, and zero if there are none; no sparse number is at most
one above the watermark, so that the watermark is the end of the longest prefix that is all
received.  Both operations raise the watermark by a loop that ends, with the record that they lead
to; and the loop ends whatever it begins with, and in one way. -/
theorem represents_set (ops : List Operation) :
    let ids := after ops
    (∀ x, ids.contains x ↔ x = 0 ∨ .insert x ∈ ops ∨ ∃ id, .forgetThrough id ∈ ops ∧ x ≤ id) ∧
      (∀ x, (ids.record x).1 = true ↔ ids.contains x = false) ∧
      ((∀ op ∈ ops, op.id ≤ ids.latest) ∧
        (ids.latest = 0 ∨ ∃ op ∈ ops, op.id = ids.latest)) ∧
      (ids.above.Pairwise (· < ·) ∧ (∀ y ∈ ids.above, ids.watermark.toNat + 1 < y.toNat) ∧
        ∀ x, x ≤ ids.watermark ↔ ∀ y ≤ x, ids.contains y) ∧
      (∀ x, ids.contains x = false →
        Raises { ids with above := insertSorted x ids.above } (ids.record x).2) ∧
      (∀ x, Raises
        { watermark := max ids.watermark x, above := ids.above.filter fun y => x < y }
        (ids.forgetThrough x)) ∧
      ∀ start : ReceivedIds, ∃! last, Raises start last := by
  intro ids
  have h : ids.WellFormed := wellFormed_after ops
  refine ⟨contains_after ops, record_fst ids, ⟨fun op hop => ?_, latest_after ops⟩,
    ⟨h.sorted, fun y hy => h.lt_above hy, fun x => h.le_watermark_iff⟩, fun x hx => ?_,
    fun x => ?_, fun start => ?_⟩
  · refine h.le_latest ((contains_after ops op.id).mpr ?_)
    cases op with
    | insert id => exact .inr (.inl hop)
    | forgetThrough id => exact .inr (.inr ⟨id, hop, UInt32.le_refl id⟩)
  · obtain ⟨hsorted, habove⟩ := h.insertSorted hx
    rw [record_snd, insert, if_neg (Bool.eq_false_iff.mp hx)]
    exact raises_compact hsorted habove
  · exact raises_compact (h.filter x).1 (h.filter x).2
  · obtain ⟨last, hlast⟩ := exists_raises start
    exact ⟨last, hlast, fun last' hlast' => hlast'.unique hlast⟩

/-- A number that comes late closes the gap below the last one. -/
example : after [.insert 1, .insert 2, .insert 5, .insert 9, .forgetThrough 7, .insert 8] =
    { watermark := 9 } := by
  decide

end ReceivedIds

end Quorum.Reliable
