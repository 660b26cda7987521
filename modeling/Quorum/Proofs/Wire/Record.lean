import Quorum.Proofs.Wire.Exact
import Quorum.Wire.Field

/-!
# Record — records are read as they were written

A record is a list of fields of any kinds, and its schema tells the kinds.  The reader of a schema
takes from the front of its input the writing of a record of that schema, and accepts nothing else.
So a record has one writing, and a byte string is the writing of one record of the schema at most.

**Main statements.**  `exact_get`: one field.  `exact_getRecord`: the fields of a schema.
`putRecord_ok_iff`: which records can be written.  `record_read_iff_written`: reading and writing
are inverse.
-/

namespace Quorum.Wire

theorem putRecord_cons {field : Field} {fields : List Field} {bs : Bytes} :
    putRecord (field :: fields) = .ok bs ↔
      ∃ xs ys, field.put = .ok xs ∧ putRecord fields = .ok ys ∧ bs = xs ++ ys := by
  rw [putRecord, bind_ok_iff]
  refine exists_congr fun xs => ?_
  rw [bind_ok_iff, ← exists_and_left]
  refine exists_congr fun ys => ?_
  rw [pure_ok_iff]

/-- Only a byte string can be too long. -/
theorem Field.put_ok_iff (field : Field) :
    (∃ bs, field.put = .ok bs) ↔ ∀ v, field = .bytes v → v.length < UInt32.size := by
  cases field with
  | bytes v =>
    simp only [put, putBytes_eq_ok, Field.bytes.injEq, forall_eq']
    exact ⟨fun ⟨_, hlength, _⟩ => hlength, fun hlength => ⟨_, hlength, rfl⟩⟩
  | u8 | bool | u16 | u32 => exact ⟨nofun, fun _ => ⟨_, rfl⟩⟩

/-- **A record can be written exactly if the lengths of its byte strings can.** -/
theorem putRecord_ok_iff (fields : List Field) :
    (∃ bs, putRecord fields = .ok bs) ↔
      ∀ v, Field.bytes v ∈ fields → v.length < UInt32.size := by
  induction fields with
  | nil => exact ⟨nofun, fun _ => ⟨[], rfl⟩⟩
  | cons field fields ih =>
    have hcons : (∃ bs, putRecord (field :: fields) = .ok bs) ↔
        (∃ xs, field.put = .ok xs) ∧ ∃ ys, putRecord fields = .ok ys := by
      simp only [putRecord_cons]
      constructor
      · rintro ⟨_, xs, ys, hxs, hys, rfl⟩
        exact ⟨⟨xs, hxs⟩, ys, hys⟩
      · rintro ⟨⟨xs, hxs⟩, ys, hys⟩
        exact ⟨xs ++ ys, xs, ys, hxs, hys, rfl⟩
    rw [hcons, field.put_ok_iff, ih, ← forall_and]
    refine forall_congr' fun v => ?_
    rw [List.mem_cons, or_imp, eq_comm]

namespace Reader

/-- **A field is read as it was written.** -/
theorem exact_get (kind : Kind) :
    kind.get.Exact fun field bs => field.kind = kind ∧ field.put = .ok bs := by
  -- a field of this kind is its value, and the reader of the value is exact
  cases kind with
  | u8 =>
    refine (exact_u8.map (k := Field.u8)).congr fun field bs => ?_
    cases field <;> simp [Field.kind, Field.put, eq_comm]
  | bool =>
    refine (exact_bool.map (k := Field.bool)).congr fun field bs => ?_
    cases field <;> simp [Field.kind, Field.put, eq_comm]
  | u16 =>
    refine (exact_u16.map (k := Field.u16)).congr fun field bs => ?_
    cases field <;> simp [Field.kind, Field.put, eq_comm]
  | u32 =>
    refine (exact_u32.map (k := Field.u32)).congr fun field bs => ?_
    cases field <;> simp [Field.kind, Field.put, eq_comm]
  | bytes =>
    refine (exact_bytes.map (k := Field.bytes)).congr fun field bs => ?_
    cases field <;> simp [Field.kind, Field.put]

/-- **A record is read as it was written**, whatever its schema and whatever follows. -/
theorem exact_getRecord (kinds : List Kind) : (getRecord kinds).Exact fun fields bs =>
    fields.map Field.kind = kinds ∧ putRecord fields = .ok bs := by
  induction kinds with
  | nil =>
    refine (exact_pure []).congr fun fields bs => ?_
    constructor
    · rintro ⟨rfl, rfl⟩
      exact ⟨rfl, rfl⟩
    · rintro ⟨hkinds, hbs⟩
      obtain rfl := List.map_eq_nil_iff.mp hkinds
      cases hbs
      exact ⟨rfl, rfl⟩
  | cons kind kinds ih =>
    refine ((exact_get kind).bind fun field => ih.map (k := (field :: ·))).congr
      fun fields bs => ?_
    constructor
    · rintro ⟨field, xs, ys, ⟨hkind, hxs⟩, ⟨rest, ⟨hkinds, hys⟩, rfl⟩, rfl⟩
      exact ⟨congrArg₂ List.cons hkind hkinds, putRecord_cons.mpr ⟨xs, ys, hxs, hys, rfl⟩⟩
    · rintro ⟨hkinds, hbs⟩
      obtain ⟨field, rest, rfl, hkind, hrest⟩ := List.map_eq_cons_iff.mp hkinds
      obtain ⟨xs, ys, hxs, hys, rfl⟩ := putRecord_cons.mp hbs
      exact ⟨field, xs, ys, ⟨hkind, hxs⟩, ⟨rest, ⟨hrest, hys⟩, rfl⟩, rfl⟩

/-- **Reading and writing are inverse on every schema.**  A byte string is read to its end as a
record exactly if the record has this schema and is written as this byte string; and with anything
behind it, exactly then the same record is read, and what stood behind it is left.  A record is
written whenever none of its byte strings is too long for the length in front of it. -/
theorem record_read_iff_written (kinds : List Kind) (fields : List Field) (b t : Bytes) :
    ((do let read ← getRecord kinds; finish; return read : Reader (List Field)).decode b =
          .ok fields ↔
        fields.map Field.kind = kinds ∧ putRecord fields = .ok b) ∧
      (getRecord kinds (b ++ t) = .ok fields t ↔
        fields.map Field.kind = kinds ∧ putRecord fields = .ok b) ∧
      ((∃ written, putRecord fields = .ok written) ↔
        ∀ v, Field.bytes v ∈ fields → v.length < UInt32.size) := by
  refine ⟨?_, ?_, putRecord_ok_iff fields⟩
  · rw [decode_bind (exact_getRecord kinds)]
    constructor
    · rintro ⟨read, xs, ys, hread, rfl, hfinish⟩
      obtain ⟨rfl, rfl⟩ := decode_finish.mp hfinish
      rwa [List.append_nil]
    · intro hwritten
      exact ⟨fields, b, [], hwritten, (List.append_nil b).symm, decode_finish.mpr ⟨rfl, rfl⟩⟩
  · rw [exact_getRecord kinds]
    constructor
    · rintro ⟨bs, hwritten, hinput⟩
      rwa [List.append_cancel_right hinput]
    · intro hwritten
      exact ⟨b, hwritten, rfl⟩

/-- Numbers are big-endian, and a byte string stands behind its length. -/
example : putRecord [.u8 7, .bool true, .u16 0x0102, .u32 0x0a0b0c0d, .bytes [104, 105]] =
    .ok [7, 1, 0x01, 0x02, 0x0a, 0x0b, 0x0c, 0x0d, 0, 0, 0, 2, 104, 105] := by
  decide

end Reader

end Quorum.Wire
