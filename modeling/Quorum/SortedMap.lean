/-!
# SortedMap — finite maps listed in key order

A finite map is the list of its entries in strictly increasing key order.  The order of keys is
the order of their `Ranked.rank`, a number that tells keys apart.  Since the list is canonical,
two maps with the same look-ups are equal (`SortedMap.ext_get?`).

**Main statements.**  `get?_insert`, `get?_erase`, `get?_mapKeyed`, `get?_filter`: what each
operation does to the look-ups.
-/

namespace Quorum

/-- Keys that are told apart, and ordered, by a number. -/
class Ranked (κ : Type) where
  rank : κ → Nat
  /-- Different keys have different numbers. -/
  rank_inj : ∀ {a b : κ}, rank a = rank b → a = b

open Ranked (rank rank_inj)

instance : Ranked UInt32 := ⟨UInt32.toNat, UInt32.toNat_inj.mp⟩

section
variable {κ α β : Type} [Ranked κ]

theorem Ranked.rank_eq_iff {a b : κ} : rank a = rank b ↔ a = b :=
  ⟨rank_inj, fun h => h ▸ rfl⟩

/-- A finite map: entries in strictly increasing key order. -/
structure SortedMap (κ α : Type) [Ranked κ] where
  /-- Every key with its value, smallest key first. -/
  entries : List (κ × α)
  /-- Keys strictly increase. -/
  sorted : entries.Pairwise fun a b => rank a.1 < rank b.1

namespace SortedMap

/-! ### Operations -/

def empty : SortedMap κ α := ⟨[], .nil⟩

instance : Inhabited (SortedMap κ α) := ⟨empty⟩

instance : EmptyCollection (SortedMap κ α) := ⟨empty⟩

/-- The value behind the first entry for `k`. -/
def lookup (k : κ) : List (κ × α) → Option α
  | [] => none
  | (k', v) :: rest => if rank k' = rank k then some v else lookup k rest

def get? (m : SortedMap κ α) (k : κ) : Option α := lookup k m.entries

/-- The value at a key, or `default` if there is none. -/
def getD (m : SortedMap κ α) (k : κ) (default : α) : α := (m.get? k).getD default

/-- Whether a key has a value. -/
def contains (m : SortedMap κ α) (k : κ) : Bool := (m.get? k).isSome

/-- Puts an entry in its place, in front of the first larger key. -/
def insertEntry (k : κ) (v : α) : List (κ × α) → List (κ × α)
  | [] => [(k, v)]
  | (k', v') :: rest =>
    if rank k < rank k' then (k, v) :: (k', v') :: rest
    else if rank k = rank k' then (k, v) :: rest
    else (k', v') :: insertEntry k v rest

theorem mem_insertEntry {k : κ} {v : α} {l : List (κ × α)} {e : κ × α}
    (h : e ∈ insertEntry k v l) : e = (k, v) ∨ e ∈ l := by
  induction l with
  | nil => simpa [insertEntry] using h
  | cons head rest ih =>
    obtain ⟨k', v'⟩ := head
    unfold insertEntry at h
    split at h
    · simpa using h
    · split at h
      · rcases List.mem_cons.mp h with h | h
        · exact .inl h
        · exact .inr (List.mem_cons_of_mem _ h)
      · rcases List.mem_cons.mp h with h | h
        · exact .inr (by simp [h])
        · exact (ih h).imp id (List.mem_cons_of_mem _)

theorem sorted_insertEntry (k : κ) (v : α) {l : List (κ × α)}
    (h : l.Pairwise fun a b => rank a.1 < rank b.1) :
    (insertEntry k v l).Pairwise fun a b => rank a.1 < rank b.1 := by
  induction l with
  | nil => simp [insertEntry]
  | cons head rest ih =>
    obtain ⟨k', v'⟩ := head
    obtain ⟨hhead, hrest⟩ := List.pairwise_cons.mp h
    unfold insertEntry
    split
    next hlt =>
      refine List.pairwise_cons.mpr ⟨fun e he => ?_, h⟩
      rcases List.mem_cons.mp he with rfl | he
      · exact hlt
      · exact Nat.lt_trans hlt (hhead e he)
    next hnlt =>
      split
      next heq => exact List.pairwise_cons.mpr ⟨fun e he => heq ▸ hhead e he, hrest⟩
      next hne =>
        refine List.pairwise_cons.mpr ⟨fun e he => ?_, ih hrest⟩
        rcases mem_insertEntry he with rfl | he
        · exact Nat.lt_of_le_of_ne (Nat.not_lt.mp hnlt) (fun h => hne h.symm)
        · exact hhead e he

/-- Sets the value at a key. -/
def insert (m : SortedMap κ α) (k : κ) (v : α) : SortedMap κ α :=
  ⟨insertEntry k v m.entries, sorted_insertEntry k v m.sorted⟩

/-- Keeps the entries that pass a test. -/
def filter (m : SortedMap κ α) (keep : κ → α → Bool) : SortedMap κ α :=
  ⟨m.entries.filter fun e => keep e.1 e.2, m.sorted.filter _⟩

def erase (m : SortedMap κ α) (k : κ) : SortedMap κ α := m.filter fun k' _ => rank k' ≠ rank k

/-- Changes every value, in the light of its key. -/
def mapKeyed (m : SortedMap κ α) (f : κ → α → β) : SortedMap κ β :=
  ⟨m.entries.map fun e => (e.1, f e.1 e.2), by
    rw [List.pairwise_map]
    exact m.sorted⟩

/-- Changes every value. -/
def mapVals (m : SortedMap κ α) (f : α → β) : SortedMap κ β := m.mapKeyed fun _ => f

/-- The map of a list of entries; of two entries for one key the later counts. -/
def ofList (l : List (κ × α)) : SortedMap κ α :=
  l.foldl (fun m e => m.insert e.1 e.2) empty

/-- The keys in increasing order. -/
def keys (m : SortedMap κ α) : List κ := m.entries.map (·.1)

/-- The values in key order. -/
def values (m : SortedMap κ α) : List α := m.entries.map (·.2)

def size (m : SortedMap κ α) : Nat := m.entries.length

/-! ### Look-ups -/

theorem lookup_eq_none_of_lt {k : κ} {l : List (κ × α)} (h : ∀ e ∈ l, rank k < rank e.1) :
    lookup k l = none := by
  induction l with
  | nil => rfl
  | cons head rest ih =>
    obtain ⟨k', v⟩ := head
    have hk : rank k < rank k' := h (k', v) (List.mem_cons_self ..)
    have hne : rank k' ≠ rank k := by omega
    rw [lookup, if_neg hne]
    exact ih fun e he => h e (List.mem_cons_of_mem _ he)

theorem lookup_insertEntry (k q : κ) (v : α) (l : List (κ × α)) :
    lookup q (insertEntry k v l) = if rank k = rank q then some v else lookup q l := by
  induction l with
  | nil => rfl
  | cons head rest ih =>
    obtain ⟨k', v'⟩ := head
    unfold insertEntry
    split
    · rfl
    · split
      next heq =>
        by_cases hq : rank k = rank q
        · simp [lookup, hq]
        · simp [lookup, hq, ← heq]
      next hne =>
        rw [lookup, ih, lookup]
        by_cases hq : rank k' = rank q
        · have hkq : rank k ≠ rank q := fun h => hne (h.trans hq.symm)
          simp [hq, hkq]
        · simp [hq]

/-- **Insertion changes the value at its key and nowhere else.** -/
theorem get?_insert (m : SortedMap κ α) (k q : κ) (v : α) :
    (m.insert k v).get? q = if rank k = rank q then some v else m.get? q :=
  lookup_insertEntry k q v m.entries

@[simp] theorem get?_insert_self (m : SortedMap κ α) (k : κ) (v : α) :
    (m.insert k v).get? k = some v := by simp [get?_insert]

theorem get?_insert_ne (m : SortedMap κ α) {k q : κ} (v : α) (h : k ≠ q) :
    (m.insert k v).get? q = m.get? q := by
  rw [get?_insert, if_neg fun hr => h (rank_inj hr)]

@[simp] theorem get?_empty (k : κ) : (empty : SortedMap κ α).get? k = none := rfl

theorem lookup_filter (keep : κ → α → Bool) (q : κ) {l : List (κ × α)}
    (h : l.Pairwise fun a b => rank a.1 < rank b.1) :
    lookup q (l.filter fun e => keep e.1 e.2) = (lookup q l).filter (keep q) := by
  induction l with
  | nil => rfl
  | cons head rest ih =>
    obtain ⟨k', v⟩ := head
    obtain ⟨hhead, hrest⟩ := List.pairwise_cons.mp h
    by_cases hq : rank k' = rank q
    · obtain rfl := rank_inj hq
      have habsent : lookup k' (rest.filter fun e => keep e.1 e.2) = none :=
        lookup_eq_none_of_lt fun e he => hhead e (List.mem_filter.mp he).1
      by_cases hk : keep k' v = true
      · simp [lookup, hk, Option.filter]
      · simp [lookup, hk, Option.filter, habsent]
    · by_cases hk : keep k' v = true
      · simp [lookup, hk, hq, ih hrest]
      · simp [lookup, hk, hq, ih hrest]

theorem get?_filter (m : SortedMap κ α) (keep : κ → α → Bool) (q : κ) :
    (m.filter keep).get? q = (m.get? q).filter (keep q) := lookup_filter keep q m.sorted

/-- **Erasure removes its key and nothing else.** -/
theorem get?_erase (m : SortedMap κ α) (k q : κ) :
    (m.erase k).get? q = if rank q = rank k then none else m.get? q := by
  rw [erase, get?_filter]
  by_cases h : rank q = rank k
  · cases m.get? q <;> simp [Option.filter, h]
  · cases m.get? q <;> simp [Option.filter, h]

theorem lookup_mapKeyed (f : κ → α → β) (q : κ) (l : List (κ × α)) :
    lookup q (l.map fun e => (e.1, f e.1 e.2)) = (lookup q l).map (f q) := by
  induction l with
  | nil => rfl
  | cons head rest ih =>
    by_cases hq : rank head.1 = rank q
    · simp [lookup, rank_inj hq]
    · simp [lookup, hq, ih]

theorem get?_mapKeyed (m : SortedMap κ α) (f : κ → α → β) (q : κ) :
    (m.mapKeyed f).get? q = (m.get? q).map (f q) := lookup_mapKeyed f q m.entries

theorem get?_mapVals (m : SortedMap κ α) (f : α → β) (q : κ) :
    (m.mapVals f).get? q = (m.get? q).map f := get?_mapKeyed m (fun _ => f) q

theorem lookup_of_mem {e : κ × α} {l : List (κ × α)}
    (h : l.Pairwise fun a b => rank a.1 < rank b.1) (he : e ∈ l) :
    lookup e.1 l = some e.2 := by
  induction l with
  | nil => cases he
  | cons head rest ih =>
    obtain ⟨hhead, hrest⟩ := List.pairwise_cons.mp h
    rcases List.mem_cons.mp he with rfl | he
    · simp [lookup]
    · have hne : rank head.1 ≠ rank e.1 := Nat.ne_of_lt (hhead e he)
      simp [lookup, hne, ih hrest he]

theorem mem_of_lookup {k : κ} {v : α} {l : List (κ × α)} (h : lookup k l = some v) :
    (k, v) ∈ l := by
  induction l with
  | nil => simp [lookup] at h
  | cons head rest ih =>
    obtain ⟨k', v'⟩ := head
    by_cases hk : rank k' = rank k
    · obtain rfl := rank_inj hk
      simp only [lookup, if_pos, Option.some.injEq] at h
      simp [h]
    · simp only [lookup, if_neg hk] at h
      exact List.mem_cons_of_mem _ (ih h)

/-- **The entries are the look-ups that succeed.** -/
theorem mem_entries_iff {m : SortedMap κ α} {k : κ} {v : α} :
    (k, v) ∈ m.entries ↔ m.get? k = some v :=
  ⟨fun h => lookup_of_mem m.sorted h, mem_of_lookup⟩

theorem ext_entries {m m' : SortedMap κ α} (h : m.entries = m'.entries) : m = m' := by
  cases m
  cases m'
  cases h
  rfl

theorem entries_eq_of_lookup {l l' : List (κ × α)}
    (hl : l.Pairwise fun a b => rank a.1 < rank b.1)
    (hl' : l'.Pairwise fun a b => rank a.1 < rank b.1)
    (h : ∀ k, lookup k l = lookup k l') : l = l' := by
  induction l generalizing l' with
  | nil =>
    cases l' with
    | nil => rfl
    | cons head rest => have := h head.1; simp [lookup] at this
  | cons head rest ih =>
    cases l' with
    | nil => have := h head.1; simp [lookup] at this
    | cons head' rest' =>
      obtain ⟨hhead, hrest⟩ := List.pairwise_cons.mp hl
      obtain ⟨hhead', hrest'⟩ := List.pairwise_cons.mp hl'
      have hmem : head ∈ head' :: rest' :=
        mem_of_lookup (by rw [← h head.1]; exact lookup_of_mem hl (List.mem_cons_self ..))
      have hmem' : head' ∈ head :: rest :=
        mem_of_lookup (by rw [h head'.1]; exact lookup_of_mem hl' (List.mem_cons_self ..))
      have heq : head = head' := by
        rcases List.mem_cons.mp hmem with h1 | h1
        · exact h1
        · rcases List.mem_cons.mp hmem' with h2 | h2
          · exact h2.symm
          · exact absurd (Nat.lt_trans (hhead _ h2) (hhead' _ h1)) (Nat.lt_irrefl _)
      subst heq
      congr 1
      refine ih hrest hrest' fun k => ?_
      by_cases hk : rank head.1 = rank k
      · rw [lookup_eq_none_of_lt fun e he => hk ▸ hhead e he,
          lookup_eq_none_of_lt fun e he => hk ▸ hhead' e he]
      · simpa [lookup, hk] using h k

/-- **Two maps with the same look-ups are equal.** -/
theorem ext_get? {m m' : SortedMap κ α} (h : ∀ k, m.get? k = m'.get? k) : m = m' :=
  ext_entries (entries_eq_of_lookup m.sorted m'.sorted h)

instance [DecidableEq κ] [DecidableEq α] : DecidableEq (SortedMap κ α) := fun m m' =>
  decidable_of_iff (m.entries = m'.entries) ⟨ext_entries, fun h => h ▸ rfl⟩

end SortedMap

end

end Quorum
