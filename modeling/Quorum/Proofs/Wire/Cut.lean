import Quorum.Proofs.Wire.Transparency

/-!
# Cut — what is missing of a message, or too much, is noticed

Every message tells where it ends: by the fixed width of its fields, by the lengths and counts in
front of what varies, or by the message inside it, which then goes up to the end.  A reader that
gets only the beginning of a message runs out of input, and does not take offence at anything else
before that.  A reader that gets more than a message says how much is left.

**Main statements.**  `Delimits.bind`: readers in a row.  `Delimits.bind_closes`: a reader that is
last in the row.  `closes_readBody`: a message that goes up to the end.  `Stack.rigid` and
`cut_or_padded`: the messages of every stack.
-/

namespace Quorum

namespace Wire

namespace Reader

variable {α β : Type} {r : Reader α} {f : α → Reader β} {input rest : Bytes}

def Starved (x : EStateM.Result DecodeError Bytes α) : Prop :=
  ∃ needed remaining left, x = .error (.endOfInput needed remaining) left ∧ remaining < needed

/-- The reader takes `bs` for `a`, whatever follows, and runs out of input without the end of it. -/
structure Needs (r : Reader α) (bs : Bytes) (a : α) : Prop where
  enough : ∀ more, r (bs ++ more) = .ok a more
  cut : ∀ p t, bs = p ++ t → t ≠ [] → Starved (r p)

/-- The reader needs all that it takes. -/
def Delimits (r : Reader α) : Prop :=
  ∀ input a rest, r input = .ok a rest → ∃ bs, input = bs ++ rest ∧ r.Needs bs a

/-- The reader needs all of its input, and no more. -/
structure Spans (r : Reader α) (input : Bytes) : Prop where
  cut : ∀ p t, input = p ++ t → t ≠ [] → Starved (r p)
  padded : ∀ t, t ≠ [] → ∃ left, r (input ++ t) = .error (.trailing t.length) left

/-- The reader goes up to the end. -/
def Closes (r : Reader α) : Prop := ∀ input a rest, r input = .ok a rest → r.Spans input

/-! ### Readers in a row -/

theorem bind_of_error {e : DecodeError} {left : Bytes} (h : r input = .error e left) :
    (r >>= f) input = .error e left := by
  change EStateM.bind r f input = _
  rw [EStateM.bind, h]

theorem Starved.bind (h : Starved (r input)) : Starved ((r >>= f) input) := by
  obtain ⟨needed, remaining, left, herror, hlt⟩ := h
  exact ⟨needed, remaining, left, bind_of_error herror, hlt⟩

theorem delimits_pure (a : α) : (pure a : Reader α).Delimits := by
  intro input b rest h
  obtain ⟨rfl, rfl⟩ := pure_eq_ok.mp h
  refine ⟨[], rfl, fun more => rfl, fun p t hpt ht => ?_⟩
  exact absurd (List.append_eq_nil_iff.mp hpt.symm).2 ht

theorem delimits_throw (e : DecodeError) : (throw e : Reader α).Delimits :=
  fun _ _ _ h => absurd h throw_ne_ok

theorem closes_throw (e : DecodeError) : (throw e : Reader α).Closes :=
  fun _ _ _ h => absurd h throw_ne_ok

theorem Needs.cut_append {xs ys p t : Bytes} {a : α} (hx : r.Needs xs a)
    (hy : ∀ p t, ys = p ++ t → t ≠ [] → Starved (f a p)) (hpt : xs ++ ys = p ++ t) (ht : t ≠ []) :
    Starved ((r >>= f) p) := by
  rcases List.append_eq_append_iff.mp hpt with ⟨more, rfl, hys⟩ | ⟨lost, hxs, rfl⟩
  · rw [bind_of_ok (hx.enough more)]
    exact hy more t hys ht
  · by_cases hlost : lost = []
    · subst hlost
      rw [List.append_nil] at hxs
      subst hxs
      rw [bind_of_ok ((congrArg r (List.append_nil xs)).symm.trans (hx.enough []))]
      exact hy [] ys rfl ht
    · exact (hx.cut p lost hxs hlost).bind

/-- **Readers that need all they take may stand in a row.** -/
theorem Delimits.bind (hr : r.Delimits) (hf : ∀ a, (f a).Delimits) : (r >>= f).Delimits := by
  intro input b rest h
  obtain ⟨a, middle, ha, hb⟩ := bind_eq_ok.mp h
  obtain ⟨xs, rfl, hx⟩ := hr _ _ _ ha
  obtain ⟨ys, rfl, hy⟩ := hf a _ _ _ hb
  refine ⟨xs ++ ys, (List.append_assoc ..).symm, fun more => ?_, fun p t => ?_⟩
  · rw [List.append_assoc, bind_of_ok (hx.enough _)]
    exact hy.enough more
  · exact hx.cut_append hy.cut

/-- **The last reader in a row may be one that goes up to the end.** -/
theorem Delimits.bind_closes (hr : r.Delimits) (hf : ∀ a, (f a).Closes) : (r >>= f).Closes := by
  intro input b rest h
  obtain ⟨a, middle, ha, hb⟩ := bind_eq_ok.mp h
  obtain ⟨xs, rfl, hx⟩ := hr _ _ _ ha
  have hy := hf a _ _ _ hb
  refine ⟨fun p t => hx.cut_append hy.cut, fun t ht => ?_⟩
  rw [List.append_assoc, bind_of_ok (hx.enough _)]
  exact hy.padded t ht

theorem Closes.bind (hr : r.Closes) : (r >>= f).Closes := by
  intro input b rest h
  obtain ⟨a, middle, ha, -⟩ := bind_eq_ok.mp h
  refine ⟨fun p t hpt ht => ((hr _ _ _ ha).cut p t hpt ht).bind, fun t ht => ?_⟩
  obtain ⟨left, hleft⟩ := (hr _ _ _ ha).padded t ht
  exact ⟨left, bind_of_error hleft⟩

theorem closes_finish : finish.Closes := by
  intro input a rest h
  unfold finish at h
  split at h
  · rename_i hnil
    subst hnil
    refine ⟨fun p t hpt ht => absurd (List.append_eq_nil_iff.mp hpt.symm).2 ht, fun t ht => ?_⟩
    exact ⟨t, if_neg ht⟩
  · cases h

/-! ### Fields -/

/-- A reader that is exact for a grammar needs all it takes if it runs out of input on what is cut
off. -/
theorem Exact.delimits {g : α → Bytes → Prop} (h : r.Exact g)
    (hcut : ∀ a p t, g a (p ++ t) → t ≠ [] → Starved (r p)) : r.Delimits := by
  intro input a rest ha
  obtain ⟨bs, hbs, rfl⟩ := (h _ _ _).mp ha
  refine ⟨bs, rfl, fun more => (h _ _ _).mpr ⟨bs, hbs, rfl⟩, ?_⟩
  rintro p t rfl ht
  exact hcut a p t hbs ht

theorem delimits_take (n : Nat) : (take n).Delimits := by
  refine (exact_take n).delimits fun v p t hv ht => ?_
  obtain ⟨hlength, heq⟩ := hv
  have hshort : p.length < n := by
    have hpos := List.length_pos_iff.mpr ht
    rw [← hlength, ← heq, List.length_append]
    omega
  have htake : (p.take n).length < n := (List.length_take_le' n p).trans_lt hshort
  exact ⟨n, p.length, p, if_pos htake, hshort⟩

theorem delimits_u8 : u8.Delimits := by
  refine exact_u8.delimits fun v p t hv ht => ?_
  obtain rfl : p = [] := by
    have hlength := congrArg List.length hv
    have hpos := List.length_pos_iff.mpr ht
    rw [List.length_append, show (putU8 v).length = 1 from rfl] at hlength
    exact List.length_eq_zero_iff.mp (by omega)
  exact ⟨1, 0, [], rfl, Nat.one_pos⟩

theorem delimits_bool : bool.Delimits := by
  refine delimits_u8.bind fun b => ?_
  split
  · exact delimits_pure _
  · split
    · exact delimits_pure _
    · exact delimits_throw _

theorem delimits_u16 : u16.Delimits := (delimits_take 2).bind fun _ => delimits_pure _

theorem delimits_u32 : u32.Delimits := (delimits_take 4).bind fun _ => delimits_pure _

theorem delimits_bytes : bytes.Delimits := delimits_u32.bind fun _ => delimits_take _

theorem Delimits.timesAux (h : r.Delimits) (n : Nat) (done : Array α) :
    (timesAux r n done).Delimits := by
  induction n generalizing done with
  | zero => exact delimits_pure done
  | succ n ih => exact h.bind fun a => ih (done.push a)

theorem Delimits.times (h : r.Delimits) (n : Nat) : (times n r).Delimits :=
  (h.timesAux n #[]).bind fun _ => delimits_pure _

end Reader

/-! ### Whole messages -/

/-- Of what is read as a message nothing can be cut off, and nothing can be put behind it. -/
structure Rigid {μ : Type} (decode : Bytes → Except DecodeError μ) : Prop where
  cut : ∀ {p t m}, decode (p ++ t) = .ok m → t ≠ [] →
    ∃ needed remaining, decode p = .error (.endOfInput needed remaining) ∧ remaining < needed
  padded : ∀ {b m t}, decode b = .ok m → t ≠ [] → decode (b ++ t) = .error (.trailing t.length)

section
variable {μ ν : Type} {decode : Bytes → Except DecodeError μ}

theorem Rigid.map (h : Rigid decode) (f : μ → ν) : Rigid fun bytes => (decode bytes).map f where
  cut hm ht := by
    obtain ⟨m, hm, -⟩ := map_eq_ok hm
    obtain ⟨needed, remaining, hcut, hlt⟩ := h.cut hm ht
    exact ⟨needed, remaining, by rw [hcut]; rfl, hlt⟩
  padded hm ht := by
    obtain ⟨m, hm, -⟩ := map_eq_ok hm
    rw [h.padded hm ht]
    rfl

theorem Reader.Closes.rigid {r : Reader μ} (h : r.Closes) : Rigid r.decode where
  cut hm ht := by
    obtain ⟨rest, hok⟩ := Reader.decode_eq_ok.mp hm
    obtain ⟨needed, remaining, left, herror, hlt⟩ := (h _ _ _ hok).cut _ _ rfl ht
    exact ⟨needed, remaining, by rw [Reader.decode, herror], hlt⟩
  padded hm ht := by
    obtain ⟨rest, hok⟩ := Reader.decode_eq_ok.mp hm
    obtain ⟨left, herror⟩ := (h _ _ _ hok).padded _ ht
    rw [Reader.decode, herror]

end

end Wire

open Wire Wire.Reader

/-! ### The messages of the protocols -/

theorem PingPong.closes_read : PingPong.read.Closes := by
  refine delimits_u8.bind_closes fun tag => ?_
  split
  · exact delimits_u8.bind_closes fun _ => closes_finish.bind
  · exact closes_throw _

theorem Broadcast.closes_read : Broadcast.Message.read.Closes := by
  refine delimits_u8.bind_closes fun tag => ?_
  split
  · exact delimits_bytes.bind_closes fun _ => closes_finish.bind
  · exact closes_throw _

/-- **A routed message goes up to the end if the messages inside do.** -/
theorem Routed.closes_readBody {μ : Type} {decode : UInt8 → UInt16 → Bytes → Except DecodeError μ}
    (h : ∀ subsystem index, Rigid (decode subsystem index)) :
    (Routed.readBody decode).Closes := by
  refine delimits_u8.bind_closes fun subsystem => delimits_u16.bind_closes fun index => ?_
  intro input m rest hm
  rw [bind_of_ok (rest_apply input)] at hm
  cases hdecode : decode subsystem index input with
  | error e =>
    rw [hdecode] at hm
    exact absurd hm throw_ne_ok
  | ok inner =>
    refine ⟨fun p t hpt ht => ?_, fun t ht => ⟨[], ?_⟩⟩
    · subst hpt
      obtain ⟨needed, remaining, hcut, hlt⟩ := (h subsystem index).cut hdecode ht
      refine ⟨needed, remaining, [], ?_, hlt⟩
      rw [bind_of_ok (rest_apply p), hcut]
      rfl
    · rw [bind_of_ok (rest_apply (input ++ t)), (h subsystem index).padded hdecode ht]
      rfl

theorem Gather.rigid_decodeInner (c : Committee) (subsystem : UInt8) (index : UInt16) :
    Rigid (Gather.decodeInner c subsystem index) := by
  unfold Gather.decodeInner
  split
  · exact Broadcast.closes_read.rigid
  · exact ⟨nofun, nofun⟩

theorem Gather.closes_read (c : Committee) : (Gather.read c).Closes := by
  refine delimits_u8.bind_closes fun tag => ?_
  split
  · exact (Routed.closes_readBody (Gather.rigid_decodeInner c)).bind
  · exact closes_throw _

namespace Reliable.Message
variable {μ : Type} (decode : Bytes → Except DecodeError μ)

theorem delimits_readNumber : readNumber.Delimits := by
  refine delimits_bool.bind fun numbered => ?_
  split
  · exact delimits_u32.bind fun _ => delimits_pure _
  · exact delimits_pure _

/-- The length in front of a nested message tells where it ends, whatever reads it. -/
theorem delimits_readInner : (readInner decode).Delimits := by
  refine delimits_bytes.bind fun bytes => ?_
  split
  · exact delimits_pure _
  · exact delimits_throw _

theorem delimits_readBatch : (readBatch decode).Delimits :=
  delimits_readNumber.bind fun _ => delimits_u16.bind fun msgs =>
    ((delimits_readInner decode).times msgs.toNat).bind fun _ => delimits_u16.bind fun acks =>
      (delimits_u32.times acks.toNat).bind fun _ => delimits_pure _

theorem closes_read : (read decode).Closes := by
  refine delimits_u8.bind_closes fun tag => ?_
  split
  · exact (delimits_readBatch decode).bind_closes fun _ => closes_finish.bind
  · split
    · exact delimits_bool.bind_closes fun _ => delimits_u32.bind_closes fun _ => closes_finish.bind
    · exact closes_throw _

end Reliable.Message

/-! ### Stacks -/

/-- **The messages of every stack are rigid.** -/
theorem Stack.rigid (S : Stack) : Rigid S.protocol.decode := by
  induction S with
  | pingPong expect => exact PingPong.closes_read.rigid
  | broadcast c broadcaster => exact Broadcast.closes_read.rigid
  | gather c => exact (Gather.closes_read c).rigid
  | selfDelivering limit nested ih => exact ih
  | reliable period nested ih => exact (Reliable.Message.closes_read _).rigid
  | enveloped nested ih => exact ih.map _
  | stamped period nested ih => exact (Reliable.Message.closes_read _).rigid.map _

/-- **Truncation and padding are noticed.**  For a byte string that a stack reads as a message, with
any number of layers, a part of it from the front lacks some bytes, and nothing else is found wrong
with it; and of a longer one it is said how many bytes are too many. -/
theorem cut_or_padded (S : Stack) {b : Bytes} {m : S.protocol.Msg}
    (h : S.protocol.decode b = .ok m) :
    (∀ p, p <+: b → p ≠ b → ∃ needed remaining,
      S.protocol.decode p = .error (.endOfInput needed remaining) ∧ remaining < needed) ∧
    ∀ t, t ≠ [] → S.protocol.decode (b ++ t) = .error (.trailing t.length) := by
  refine ⟨?_, fun t ht => S.rigid.padded h ht⟩
  rintro p ⟨t, rfl⟩ hne
  refine S.rigid.cut h ?_
  rintro rfl
  exact hne (List.append_nil p).symm

/-- A batch with an echo of a broadcast in a gather: without its last byte it lacks that byte. -/
theorem cut_or_padded_echo :
    let S : Stack := .reliable 1 (.selfDelivering 3 (.gather ⟨[⟨1⟩, ⟨2⟩]⟩))
    let b : Bytes := [1, 1, 0, 0, 0, 5, 0, 1, 0, 0, 0, 10, 1, 0, 0, 1, 2, 0, 0, 0, 1, 7, 0, 0]
    (∃ m, S.protocol.decode b = .ok m) ∧
      (∃ needed remaining,
        S.protocol.decode b.dropLast = .error (.endOfInput needed remaining) ∧
          remaining < needed) ∧
      S.protocol.decode (b ++ [0, 0, 0]) = .error (.trailing 3) := by
  intro S b
  obtain ⟨m, hm⟩ : ∃ m, S.protocol.decode b = .ok m := ⟨_, rfl⟩
  obtain ⟨hcut, hpadded⟩ := cut_or_padded S hm
  exact ⟨⟨m, hm⟩, hcut b.dropLast b.dropLast_prefix (by decide), hpadded [0, 0, 0] (by decide)⟩

end Quorum
