import Mathlib.Data.Finset.Card
import Mathlib.Data.List.Nodup
import Quorum.SortedMap

/-!
# SortedMap — keys and sizes

**Main statements.**  `contains_ofList`: the map of a list has the keys of the list.  `get?_ofList`:
if they are different, it has the entries of the list.  `card_keys`: a map has as many entries as
keys.
-/

namespace Quorum.SortedMap

variable {κ α β : Type} [Ranked κ]

theorem mapVals_insert (m : SortedMap κ α) (f : α → β) (k : κ) (v : α) :
    (m.insert k v).mapVals f = (m.mapVals f).insert k (f v) := by
  refine ext_get? fun q => ?_
  simp only [get?_mapVals, get?_insert]
  split <;> rfl

theorem contains_insert {m : SortedMap κ α} {k q : κ} {v : α} :
    (m.insert k v).contains q ↔ k = q ∨ m.contains q := by
  rw [contains, get?_insert, contains]
  by_cases hq : k = q
  · simp [hq]
  · rw [if_neg fun hr => hq (Ranked.rank_inj hr)]
    exact ⟨.inr, fun h => h.resolve_left hq⟩

theorem contains_foldl_insert {l : List (κ × α)} {m : SortedMap κ α} {k : κ} :
    (l.foldl (fun m e => m.insert e.1 e.2) m).contains k ↔ (∃ e ∈ l, e.1 = k) ∨ m.contains k := by
  induction l generalizing m with
  | nil => simp
  | cons first l ih =>
    rw [List.foldl_cons, ih, contains_insert, List.exists_mem_cons_iff, or_assoc]
    exact or_left_comm

theorem contains_ofList {l : List (κ × α)} {k : κ} :
    (ofList l).contains k ↔ ∃ e ∈ l, e.1 = k := by
  rw [ofList, contains_foldl_insert]
  exact or_iff_left nofun

theorem mem_keys {m : SortedMap κ α} {k : κ} : k ∈ m.keys ↔ (m.get? k).isSome := by
  rw [keys, List.mem_map, Option.isSome_iff_exists]
  constructor
  · rintro ⟨⟨k, v⟩, he, rfl⟩
    exact ⟨v, mem_entries_iff.mp he⟩
  · rintro ⟨v, hv⟩
    exact ⟨(k, v), mem_entries_iff.mpr hv, rfl⟩

theorem nodup_keys (m : SortedMap κ α) : m.keys.Nodup := by
  rw [keys, List.Nodup, List.pairwise_map]
  exact m.sorted.imp fun hlt heq => absurd hlt (by rw [heq]; exact Nat.lt_irrefl _)

theorem card_keys [DecidableEq κ] (m : SortedMap κ α) : m.keys.toFinset.card = m.size := by
  rw [List.toFinset_card_of_nodup m.nodup_keys, keys, List.length_map, size]

theorem get?_foldl_insert {l : List (κ × α)} {m : SortedMap κ α} (h : (l.map (·.1)).Nodup) {k : κ}
    {v : α} : (l.foldl (fun m e => m.insert e.1 e.2) m).get? k = some v ↔
      (k, v) ∈ l ∨ ((∀ e ∈ l, e.1 ≠ k) ∧ m.get? k = some v) := by
  induction l generalizing m with
  | nil => simp
  | cons first l ih =>
    obtain ⟨hfirst, hl⟩ := List.nodup_cons.mp h
    rw [List.foldl_cons, ih hl, List.mem_cons, List.forall_mem_cons]
    by_cases hk : first.1 = k
    · subst hk
      have hnot : ∀ e ∈ l, e.1 ≠ first.1 := by
        intro e he heq
        exact hfirst (List.mem_map.mpr ⟨e, he, heq⟩)
      have habsent : (first.1, v) ∉ l := fun he => hnot _ he rfl
      rw [get?_insert_self]
      constructor
      · rintro (he | ⟨-, hv⟩)
        · exact absurd he habsent
        · exact .inl (.inl (by rw [← Option.some.inj hv]))
      · rintro ((he | he) | ⟨⟨hne, -⟩, -⟩)
        · exact .inr ⟨hnot, by rw [← he]⟩
        · exact absurd he habsent
        · exact absurd rfl hne
    · rw [get?_insert_ne _ _ hk]
      have hne : (k, v) ≠ first := fun heq => hk (by rw [← heq])
      simp [hk, hne]

theorem get?_ofList {l : List (κ × α)} (h : (l.map (·.1)).Nodup) {k : κ} {v : α} :
    (ofList l).get? k = some v ↔ (k, v) ∈ l := by
  rw [ofList, get?_foldl_insert h, get?_empty]
  simp

end Quorum.SortedMap
