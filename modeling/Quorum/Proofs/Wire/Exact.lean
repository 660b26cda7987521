import Quorum.Proofs.Wire.Reader

/-!
# Exact — readers that accept what is written, and nothing else

A grammar tells which byte strings write a value.  A reader is exact for a grammar if it takes from
the front of its input the writing of the value that it returns, and takes it whatever follows.  The
readers of single fields are exact, and so are exact readers in a row.

**Main statements.**  `Exact.bind` and `Exact.times`: readers in a row, and a reader used several
times.  `exact_u8`, `exact_bool`, `exact_u16`, `exact_u32`, `exact_bytes`: single fields.
-/

namespace Quorum.Wire

/-! ### Writing -/

theorem bind_ok_iff {ε α β : Type} {x : Except ε α} {f : α → Except ε β} {b : β} :
    (x >>= f) = .ok b ↔ ∃ a, x = .ok a ∧ f a = .ok b := by
  cases x with
  | error e => exact ⟨nofun, fun ⟨_, h, _⟩ => nomatch h⟩
  | ok a => exact ⟨fun h => ⟨a, rfl, h⟩, fun ⟨_, h, hb⟩ => Except.ok.inj h ▸ hb⟩

theorem pure_ok_iff {ε α : Type} {a b : α} : (pure a : Except ε α) = .ok b ↔ b = a := by
  rw [show (pure a : Except ε α) = .ok a from rfl, Except.ok.injEq, eq_comm]

theorem putBytes_eq_ok {v bs : Bytes} : putBytes v = .ok bs ↔
    v.length < UInt32.size ∧ bs = putU32 (UInt32.ofNat v.length) ++ v := by
  by_cases h : v.length < UInt32.size
  · rw [Reader.putBytes_ok h, Except.ok.injEq, eq_comm]
    exact (and_iff_right h).symm
  · rw [putBytes, if_neg h]
    exact iff_of_false (fun h' => by cases h') fun h' => h h'.1

theorem putCount_eq_ok {n : Nat} {bs : Bytes} : putCount n = .ok bs ↔
    n < UInt16.size ∧ bs = putU16 (UInt16.ofNat n) := by
  by_cases h : n < UInt16.size
  · rw [Reader.putCount_ok h, Except.ok.injEq, eq_comm]
    exact (and_iff_right h).symm
  · rw [putCount, if_neg h]
    exact iff_of_false (fun h' => by cases h') fun h' => h h'.1

namespace Reader

variable {α β : Type} {r : Reader α} {f : α → Reader β} {g : α → Bytes → Prop}
  {input rest : Bytes}

/-- The reader takes exactly the writings of the grammar `g` from the front of its input. -/
def Exact (r : Reader α) (g : α → Bytes → Prop) : Prop :=
  ∀ input a rest, r input = .ok a rest ↔ ∃ bs, g a bs ∧ input = bs ++ rest

/-! ### Readers in a row -/

theorem bind_eq_ok {b : β} : (r >>= f) input = .ok b rest ↔
    ∃ a middle, r input = .ok a middle ∧ f a middle = .ok b rest := by
  change EStateM.bind r f input = _ ↔ _
  unfold EStateM.bind
  cases r input with
  | ok a middle =>
    refine ⟨fun h => ⟨a, middle, rfl, h⟩, ?_⟩
    rintro ⟨_, _, heq, h⟩
    cases heq
    exact h
  | error e middle =>
    refine ⟨nofun, ?_⟩
    rintro ⟨_, _, heq, -⟩
    cases heq

theorem pure_eq_ok {a b : α} : (pure a : Reader α) input = .ok b rest ↔ b = a ∧ input = rest := by
  rw [pure_apply, EStateM.Result.ok.injEq]
  exact and_congr_left fun _ => eq_comm

theorem throw_ne_ok {e : DecodeError} {a : α} : (throw e : Reader α) input ≠ .ok a rest := nofun

theorem Exact.congr {g' : α → Bytes → Prop} (h : r.Exact g) (hg : ∀ a bs, g a bs ↔ g' a bs) :
    r.Exact g' := by
  intro input a rest
  rw [h]
  exact exists_congr fun bs => and_congr_left fun _ => hg a bs

theorem exact_pure (a : α) : (pure a : Reader α).Exact fun b bs => b = a ∧ bs = [] := by
  intro input b rest
  rw [pure_eq_ok]
  constructor
  · rintro ⟨rfl, rfl⟩
    exact ⟨[], ⟨rfl, rfl⟩, rfl⟩
  · rintro ⟨bs, ⟨rfl, rfl⟩, rfl⟩
    exact ⟨rfl, rfl⟩

/-- **Exact readers in a row are exact**: they take one writing behind the other. -/
theorem Exact.bind {g' : α → β → Bytes → Prop} (hr : r.Exact g) (hf : ∀ a, (f a).Exact (g' a)) :
    (r >>= f).Exact fun b bs => ∃ a xs ys, g a xs ∧ g' a b ys ∧ bs = xs ++ ys := by
  intro input b rest
  rw [bind_eq_ok]
  constructor
  · rintro ⟨a, middle, ha, hb⟩
    obtain ⟨xs, hxs, rfl⟩ := (hr _ _ _).mp ha
    obtain ⟨ys, hys, rfl⟩ := (hf a _ _ _).mp hb
    exact ⟨xs ++ ys, ⟨a, xs, ys, hxs, hys, rfl⟩, (List.append_assoc ..).symm⟩
  · rintro ⟨_, ⟨a, xs, ys, hxs, hys, rfl⟩, rfl⟩
    exact ⟨a, ys ++ rest, (hr _ _ _).mpr ⟨xs, hxs, List.append_assoc ..⟩,
      (hf a _ _ _).mpr ⟨ys, hys, rfl⟩⟩

theorem Exact.map {k : α → β} (hr : r.Exact g) :
    (do return k (← r) : Reader β).Exact fun b bs => ∃ a, g a bs ∧ b = k a := by
  refine (hr.bind fun a => exact_pure (k a)).congr fun b bs => ?_
  constructor
  · rintro ⟨a, xs, ys, hxs, ⟨rfl, rfl⟩, rfl⟩
    exact ⟨a, by rwa [List.append_nil], rfl⟩
  · rintro ⟨a, hbs, rfl⟩
    exact ⟨a, bs, [], hbs, ⟨rfl, rfl⟩, (List.append_nil _).symm⟩

/-! ### Fields -/

theorem exact_take (n : Nat) : (take n).Exact fun v bs => v.length = n ∧ bs = v := by
  intro input v rest
  constructor
  · intro h
    unfold take at h
    dsimp only at h
    split at h
    · cases h
    · rename_i hlength
      cases h
      refine ⟨input.take n, ⟨?_, rfl⟩, (List.take_append_drop n input).symm⟩
      have hle := List.length_take_le n input
      omega
  · rintro ⟨_, ⟨hlength, rfl⟩, rfl⟩
    exact take_append hlength rest

theorem exact_u8 : u8.Exact fun v bs => bs = putU8 v := by
  intro input v rest
  constructor
  · intro h
    cases input with
    | nil => cases h
    | cons first input =>
      cases h
      exact ⟨putU8 v, rfl, rfl⟩
  · rintro ⟨_, rfl, rfl⟩
    exact u8_put v rest

/-- **A byte other than 0 and 1 is no truth value.** -/
theorem exact_bool : bool.Exact fun v bs => bs = putBool v := by
  intro input v rest
  constructor
  · intro h
    obtain ⟨b, middle, hb, hv⟩ := bind_eq_ok.mp h
    obtain ⟨_, rfl, hinput⟩ := (exact_u8 _ _ _).mp hb
    split at hv
    · rename_i hzero
      obtain ⟨rfl, rfl⟩ := pure_eq_ok.mp hv
      exact ⟨_, rfl, by rw [hinput, hzero]; rfl⟩
    · split at hv
      · rename_i hone
        obtain ⟨rfl, rfl⟩ := pure_eq_ok.mp hv
        exact ⟨_, rfl, by rw [hinput, hone]; rfl⟩
      · exact absurd hv throw_ne_ok
  · rintro ⟨_, rfl, rfl⟩
    exact bool_put v rest

theorem exact_u16 : u16.Exact fun v bs => bs = putU16 v := by
  refine ((exact_take 2).map (k := fun bs => UInt16.ofNat bs.toNatBE)).congr fun v bs => ?_
  constructor
  · rintro ⟨_, ⟨hlength, rfl⟩, rfl⟩
    have hlt := Bytes.toNatBE_lt bs
    have hwriting := Bytes.ofNatBE_toNatBE bs
    rw [hlength] at hlt hwriting
    rw [putU16, UInt16.toNat_ofNat_of_lt' hlt, hwriting]
  · rintro rfl
    have hlt : v.toNat < 256 ^ 2 := v.toNat_lt
    refine ⟨putU16 v, ⟨Bytes.length_ofNatBE 2 v.toNat, rfl⟩, ?_⟩
    rw [putU16, Bytes.toNatBE_ofNatBE, Nat.mod_eq_of_lt hlt, UInt16.ofNat_toNat]

theorem exact_u32 : u32.Exact fun v bs => bs = putU32 v := by
  refine ((exact_take 4).map (k := fun bs => UInt32.ofNat bs.toNatBE)).congr fun v bs => ?_
  constructor
  · rintro ⟨_, ⟨hlength, rfl⟩, rfl⟩
    have hlt := Bytes.toNatBE_lt bs
    have hwriting := Bytes.ofNatBE_toNatBE bs
    rw [hlength] at hlt hwriting
    rw [putU32, UInt32.toNat_ofNat_of_lt' hlt, hwriting]
  · rintro rfl
    have hlt : v.toNat < 256 ^ 4 := v.toNat_lt
    refine ⟨putU32 v, ⟨Bytes.length_ofNatBE 4 v.toNat, rfl⟩, ?_⟩
    rw [putU32, Bytes.toNatBE_ofNatBE, Nat.mod_eq_of_lt hlt, UInt32.ofNat_toNat]

/-- **A byte string behind its length has one writing.** -/
theorem exact_bytes : bytes.Exact fun v bs => putBytes v = .ok bs := by
  refine (exact_u32.bind fun n => exact_take n.toNat).congr fun v bs => ?_
  rw [putBytes_eq_ok]
  constructor
  · rintro ⟨n, _, _, rfl, ⟨hlength, rfl⟩, rfl⟩
    rw [hlength, UInt32.ofNat_toNat]
    exact ⟨n.toNat_lt, rfl⟩
  · rintro ⟨hlength, rfl⟩
    exact ⟨_, _, v, rfl, ⟨(UInt32.toNat_ofNat_of_lt' hlength).symm, rfl⟩, rfl⟩

/-! ### Sequences -/

/-- The writings of a sequence: those of its elements, one behind the other. -/
def Each (g : α → Bytes → Prop) : List α → Bytes → Prop
  | [], bs => bs = []
  | a :: l, bs => ∃ xs ys, g a xs ∧ Each g l ys ∧ bs = xs ++ ys

theorem Each.congr {g' : α → Bytes → Prop} {l : List α} {bs : Bytes}
    (h : ∀ a ∈ l, ∀ bs, g a bs ↔ g' a bs) : Each g l bs ↔ Each g' l bs := by
  induction l generalizing bs with
  | nil => exact Iff.rfl
  | cons a l ih =>
    obtain ⟨ha, hl⟩ := List.forall_mem_cons.mp h
    exact exists₂_congr fun xs ys => and_congr (ha xs) (and_congr_left fun _ => ih hl)

theorem each_and {p : α → Prop} {l : List α} {bs : Bytes} :
    Each (fun a bs => p a ∧ g a bs) l bs ↔ (∀ a ∈ l, p a) ∧ Each g l bs := by
  induction l generalizing bs with
  | nil => exact (and_iff_right fun _ h => absurd h List.not_mem_nil).symm
  | cons a l ih =>
    simp only [Each, ih, List.forall_mem_cons]
    constructor
    · rintro ⟨xs, ys, ⟨ha, hxs⟩, ⟨hl, hys⟩, hbs⟩
      exact ⟨⟨ha, hl⟩, xs, ys, hxs, hys, hbs⟩
    · rintro ⟨⟨ha, hl⟩, xs, ys, hxs, hys, hbs⟩
      exact ⟨xs, ys, ⟨ha, hxs⟩, ⟨hl, hys⟩, hbs⟩

theorem each_eq {put : α → Bytes} {l : List α} {bs : Bytes} :
    Each (fun a bs => bs = put a) l bs ↔ bs = l.flatMap put := by
  induction l generalizing bs with
  | nil => exact Iff.rfl
  | cons a l ih => simp only [Each, ih, List.flatMap_cons, exists_and_left, exists_eq_left]

theorem Exact.timesAux (hr : r.Exact g) (n : Nat) (done : Array α) :
    (timesAux r n done).Exact fun all bs =>
      ∃ l : List α, all = done ++ l ∧ l.length = n ∧ Each g l bs := by
  induction n generalizing done with
  | zero =>
    refine (exact_pure done).congr fun all bs => ?_
    constructor
    · rintro ⟨rfl, rfl⟩
      exact ⟨[], by simp, rfl, rfl⟩
    · rintro ⟨l, rfl, hlength, hbs⟩
      obtain rfl := List.length_eq_zero_iff.mp hlength
      exact ⟨by simp, hbs⟩
  | succ n ih =>
    refine (hr.bind fun a => ih (done.push a)).congr fun all bs => ?_
    constructor
    · rintro ⟨a, xs, ys, hxs, ⟨l, rfl, rfl, hys⟩, rfl⟩
      exact ⟨a :: l, by simp, rfl, xs, ys, hxs, hys, rfl⟩
    · rintro ⟨l, rfl, hlength, hbs⟩
      cases l with
      | nil => cases hlength
      | cons a l =>
        obtain ⟨xs, ys, hxs, hys, rfl⟩ := hbs
        exact ⟨a, xs, ys, hxs, ⟨l, by simp, Nat.succ.inj hlength, hys⟩, rfl⟩

/-- **A reader used several times is exact if it is.** -/
theorem Exact.times (hr : r.Exact g) (n : Nat) :
    (times n r).Exact fun l bs => l.length = n ∧ Each g l bs := by
  refine (hr.timesAux n #[]).map.congr fun l bs => ?_
  constructor
  · rintro ⟨_, ⟨l, rfl, hlength, hbs⟩, rfl⟩
    rw [show (#[] ++ l : Array α).toList = l by simp]
    exact ⟨hlength, hbs⟩
  · rintro ⟨hlength, hbs⟩
    exact ⟨#[] ++ l, ⟨l, rfl, hlength, hbs⟩, by simp⟩

/-! ### Whole inputs -/

theorem decode_eq_ok {a : α} : r.decode input = .ok a ↔ ∃ rest, r input = .ok a rest := by
  unfold decode
  cases r input with
  | ok b rest => simp
  | error e rest => simp

theorem decode_bind {b : β} (hr : r.Exact g) : (r >>= f).decode input = .ok b ↔
    ∃ a xs ys, g a xs ∧ input = xs ++ ys ∧ (f a).decode ys = .ok b := by
  rw [decode_eq_ok]
  constructor
  · rintro ⟨rest, h⟩
    obtain ⟨a, ys, ha, hb⟩ := bind_eq_ok.mp h
    obtain ⟨xs, hxs, rfl⟩ := (hr _ _ _).mp ha
    exact ⟨a, xs, ys, hxs, rfl, decode_eq_ok.mpr ⟨rest, hb⟩⟩
  · rintro ⟨a, xs, ys, hxs, rfl, h⟩
    obtain ⟨rest, hb⟩ := decode_eq_ok.mp h
    exact ⟨rest, bind_eq_ok.mpr ⟨a, ys, (hr _ _ _).mpr ⟨xs, hxs, rfl⟩, hb⟩⟩

theorem decode_finish {a b : α} :
    (do finish; return a : Reader α).decode input = .ok b ↔ input = [] ∧ b = a := by
  rw [decode_eq_ok]
  constructor
  · rintro ⟨rest, h⟩
    obtain ⟨_, middle, hfinish, hb⟩ := bind_eq_ok.mp h
    obtain ⟨rfl, rfl⟩ := pure_eq_ok.mp hb
    unfold finish at hfinish
    split at hfinish
    · rename_i hnil
      exact ⟨hnil, rfl⟩
    · cases hfinish
  · rintro ⟨rfl, rfl⟩
    exact ⟨[], rfl⟩

end Reader

end Quorum.Wire
