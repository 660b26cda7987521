import Quorum.Proofs.Bytes
import Quorum.Wire.Reader
import Quorum.Wire.Writer

/-!
# Reader — reading back the fields that were written

Each field of the wire format is read back as it was written, whatever follows it, and what
follows is left.  Readers in a row read what was written in a row (`bind_of_ok`).

**Main statements.**  `u8_put`, `bool_put`, `u16_put`, `u32_put`, `bytes_put`: single fields.
`times_put`: a sequence of elements.
-/

namespace Quorum.Wire.Reader

variable {α β : Type}

theorem pure_apply (a : α) (input : Bytes) : (pure a : Reader α) input = .ok a input := rfl

theorem bind_of_ok {r : Reader α} {f : α → Reader β} {input rest : Bytes} {a : α}
    (h : r input = .ok a rest) : (r >>= f) input = f a rest := by
  change EStateM.bind r f input = _
  rw [EStateM.bind, h]

theorem decode_of_ok {r : Reader α} {input : Bytes} {a : α} (rest : Bytes)
    (h : r input = .ok a rest) :
    r.decode input = .ok a := by
  rw [decode, h]

theorem rest_apply (input : Bytes) : rest input = .ok input [] := rfl

theorem finish_nil : finish [] = .ok () [] := rfl

theorem take_append {bs : Bytes} {n : Nat} (h : bs.length = n) (rest : Bytes) :
    take n (bs ++ rest) = .ok bs rest := by
  subst h
  simp [take]

theorem u8_put (v : UInt8) (rest : Bytes) : u8 (putU8 v ++ rest) = .ok v rest := rfl

theorem bool_put (v : Bool) (rest : Bytes) : bool (putBool v ++ rest) = .ok v rest := by
  cases v <;> rfl

theorem u16_put (v : UInt16) (rest : Bytes) : u16 (putU16 v ++ rest) = .ok v rest := by
  have hlt : v.toNat < 256 ^ 2 := v.toNat_lt
  refine (bind_of_ok (take_append (Bytes.length_ofNatBE 2 v.toNat) rest)).trans ?_
  rw [Bytes.toNatBE_ofNatBE, Nat.mod_eq_of_lt hlt, UInt16.ofNat_toNat]
  rfl

theorem u32_put (v : UInt32) (rest : Bytes) : u32 (putU32 v ++ rest) = .ok v rest := by
  have hlt : v.toNat < 256 ^ 4 := v.toNat_lt
  refine (bind_of_ok (take_append (Bytes.length_ofNatBE 4 v.toNat) rest)).trans ?_
  rw [Bytes.toNatBE_ofNatBE, Nat.mod_eq_of_lt hlt, UInt32.ofNat_toNat]
  rfl

/-! ### Lengths and counts -/

theorem putBytes_ok {v : Bytes} (h : v.length < UInt32.size) :
    putBytes v = .ok (putU32 (UInt32.ofNat v.length) ++ v) := by
  rw [putBytes, if_pos h, putU32, UInt32.toNat_ofNat_of_lt' h]

theorem putCount_ok {n : Nat} (h : n < UInt16.size) :
    putCount n = .ok (putU16 (UInt16.ofNat n)) := by
  rw [putCount, if_pos h, putU16, UInt16.toNat_ofNat_of_lt' h]

theorem bytes_put {v : Bytes} (h : v.length < UInt32.size) (rest : Bytes) :
    bytes (putU32 (UInt32.ofNat v.length) ++ v ++ rest) = .ok v rest := by
  rw [List.append_assoc]
  refine (bind_of_ok (u32_put _ _)).trans ?_
  rw [UInt32.toNat_ofNat_of_lt' h]
  exact take_append rfl rest

theorem timesAux_put {element : Reader α} {put : α → Bytes} {l : List α}
    (h : ∀ a ∈ l, ∀ rest, element (put a ++ rest) = .ok a rest) (done : Array α) (rest : Bytes) :
    timesAux element l.length done (l.flatMap put ++ rest) = .ok (done ++ l) rest := by
  induction l generalizing done with
  | nil => simp [timesAux, pure_apply]
  | cons a l ih =>
    rw [List.flatMap_cons, List.append_assoc, List.length_cons, timesAux,
      bind_of_ok (h a (List.mem_cons_self ..) _),
      ih (fun b hb => h b (List.mem_cons_of_mem _ hb))]
    simp

theorem times_put {element : Reader α} {put : α → Bytes} {l : List α}
    (h : ∀ a ∈ l, ∀ rest, element (put a ++ rest) = .ok a rest) (rest : Bytes) :
    times l.length element (l.flatMap put ++ rest) = .ok l rest := by
  refine (bind_of_ok (timesAux_put h #[] rest)).trans ?_
  rw [pure_apply]
  simp

end Quorum.Wire.Reader
