import Quorum.Proofs.Gather.Completion
import Quorum.Proofs.Reliable.Codec

/-!
# Codec — the messages of a gather are those that lead to a broadcast

A message of a broadcast has one writing, and so has the message of a gather around it.  A reader
of the committee takes it exactly if its route leads to a broadcast; and this is also when a node
can receive it, and what a node sends.  The envelopes around both in memory are not written, and are
empty when the message has been read.

**Main statements.**  `decode_broadcast` and `decode_gather`: reading is the inverse of writing.
`codec_routes`: what is read is received without fault, and what is sent is read.
-/

namespace Quorum

open Wire Wire.Reader

namespace Broadcast

theorem Kind.ofTag?_eq_some {tag : UInt8} {kind : Kind} :
    Kind.ofTag? tag = some kind ↔ tag = kind.tag := by
  constructor
  · intro h
    unfold Kind.ofTag? at h
    split at h
    · rename_i htag
      cases h
      exact htag
    · split at h
      · rename_i htag
        cases h
        exact htag
      · split at h
        · rename_i htag
          cases h
          exact htag
        · cases h
  · rintro rfl
    exact Kind.ofTag?_tag kind

theorem Message.encode_eq_ok {m : Message} {bs : Bytes} : m.encode = .ok bs ↔
    ∃ value, putBytes m.value = .ok value ∧ bs = putU8 m.kind.tag ++ value := by
  unfold Message.encode
  simp only [bind_ok_iff, pure_ok_iff]

/-- **A message of a broadcast has one writing.** -/
theorem decode_broadcast {m : Message} {bs : Bytes} :
    Message.read.decode bs = .ok m ↔ m.encode = .ok bs := by
  unfold Message.read
  rw [decode_bind exact_u8, Message.encode_eq_ok]
  constructor
  · rintro ⟨tag, _, body, rfl, rfl, h⟩
    cases hkind : Kind.ofTag? tag with
    | none =>
      rw [hkind] at h
      cases h
    | some kind =>
      rw [hkind] at h
      obtain ⟨value, bytes, _, hvalue, rfl, hend⟩ := (decode_bind exact_bytes).mp h
      obtain ⟨rfl, rfl⟩ := decode_finish.mp hend
      exact ⟨bytes, hvalue, by rw [Kind.ofTag?_eq_some.mp hkind, List.append_nil]⟩
  · rintro ⟨bytes, hvalue, rfl⟩
    refine ⟨m.kind.tag, _, bytes, rfl, rfl, ?_⟩
    rw [Kind.ofTag?_tag]
    exact (decode_bind exact_bytes).mpr ⟨m.value, bytes, [], hvalue, (List.append_nil _).symm,
      decode_finish.mpr ⟨rfl, rfl⟩⟩

theorem Message.encode_ok_iff {m : Message} :
    (∃ bs, m.encode = .ok bs) ↔ m.value.length < 2 ^ 32 := by
  simp only [Message.encode_eq_ok, putBytes_eq_ok]
  constructor
  · rintro ⟨_, _, ⟨hlength, -⟩, -⟩
    exact hlength
  · intro hlength
    exact ⟨_, _, ⟨hlength, rfl⟩, rfl⟩

end Broadcast

namespace Gather

variable {c : Committee} {m : Message} {bs : Bytes}

theorem readBody_eq_ok {μ : Type} {decode : UInt8 → UInt16 → Bytes → Except DecodeError μ}
    {m : Routed μ} {input rest : Bytes} : Routed.readBody decode input = .ok m rest ↔
      rest = [] ∧ ∃ inner, decode m.subsystem m.index inner = .ok m.inner ∧
        input = putU8 m.subsystem ++ (putU16 m.index ++ inner) := by
  constructor
  · intro h
    obtain ⟨subsystem, _, hsubsystem, hroute⟩ := Reader.bind_eq_ok.mp h
    obtain ⟨_, rfl, rfl⟩ := (exact_u8 _ _ _).mp hsubsystem
    obtain ⟨index, inner, hindex, hinner⟩ := Reader.bind_eq_ok.mp hroute
    obtain ⟨_, rfl, rfl⟩ := (exact_u16 _ _ _).mp hindex
    obtain ⟨_, _, hrest, hinner⟩ := Reader.bind_eq_ok.mp hinner
    rw [rest_apply] at hrest
    cases hrest
    cases hdecode : decode subsystem index inner with
    | ok n =>
      simp only [hdecode] at hinner
      obtain ⟨rfl, rfl⟩ := pure_eq_ok.mp hinner
      exact ⟨rfl, inner, hdecode, rfl⟩
    | error e =>
      simp only [hdecode] at hinner
      exact absurd hinner throw_ne_ok
  · rintro ⟨rfl, inner, hdecode, rfl⟩
    rw [Routed.readBody, bind_of_ok (u8_put _ _), bind_of_ok (u16_put _ _),
      bind_of_ok (rest_apply inner), hdecode]
    rfl

theorem encode_eq_ok : encode m = .ok bs ↔ ∃ inner, m.inner.encode = .ok inner ∧
    bs = putU8 1 ++ (putU8 m.subsystem ++ (putU16 m.index ++ inner)) := by
  unfold encode Routed.encodeBody
  simp only [bind_ok_iff, pure_ok_iff]
  constructor
  · rintro ⟨_, ⟨inner, hinner, rfl⟩, rfl⟩
    exact ⟨inner, hinner, by rw [List.append_assoc]⟩
  · rintro ⟨inner, hinner, rfl⟩
    exact ⟨_, ⟨inner, hinner, rfl⟩, by rw [List.append_assoc]⟩

theorem decodeInner_eq_ok {inner : Bytes} :
    decodeInner c m.subsystem m.index inner = .ok m.inner ↔
      Routes c m ∧ m.inner.encode = .ok inner := by
  unfold decodeInner
  split
  · rename_i hroutes
    rw [Broadcast.decode_broadcast]
    exact (and_iff_right hroutes).symm
  · rename_i hroutes
    exact iff_of_false nofun fun h => hroutes h.1

/-- **A message of a gather has one writing, and is read if it leads to a broadcast.** -/
theorem decode_gather : (read c).decode bs = .ok m ↔ Routes c m ∧ encode m = .ok bs := by
  unfold read
  rw [decode_bind exact_u8, encode_eq_ok]
  constructor
  · rintro ⟨tag, _, body, rfl, rfl, h⟩
    split at h
    · rename_i htag
      obtain ⟨rest, hread⟩ := decode_eq_ok.mp h
      obtain ⟨m', _, hbody, hfinish⟩ := Reader.bind_eq_ok.mp hread
      obtain ⟨rfl, inner, hinner, rfl⟩ := readBody_eq_ok.mp hbody
      obtain ⟨-, rfl⟩ := decode_finish.mp (decode_eq_ok.mpr ⟨rest, hfinish⟩)
      obtain ⟨hroutes, hencode⟩ := decodeInner_eq_ok.mp hinner
      exact ⟨hroutes, inner, hencode, by rw [htag]⟩
    · cases h
  · rintro ⟨hroutes, inner, hencode, rfl⟩
    refine ⟨1, _, _, rfl, rfl, ?_⟩
    rw [if_pos rfl]
    have hbody := readBody_eq_ok.mpr
      ⟨rfl, inner, (decodeInner_eq_ok (c := c)).mpr ⟨hroutes, hencode⟩, rfl⟩
    refine decode_of_ok [] ?_
    rw [bind_of_ok hbody]
    rfl

theorem encode_ok_iff : (∃ bs, encode m = .ok bs) ↔ m.inner.value.length < 2 ^ 32 := by
  rw [← Broadcast.Message.encode_ok_iff]
  simp only [encode_eq_ok]
  constructor
  · rintro ⟨_, inner, hinner, -⟩
    exact ⟨inner, hinner⟩
  · rintro ⟨inner, hinner⟩
    exact ⟨_, inner, hinner, rfl⟩

theorem routes_sent {me : NodeId} {s : State c} {r : Reaction (State c) Message}
    (h : (∃ v, (Protocol.gather c).input me s v = .ok r) ∨
      ∃ sender m, (Protocol.gather c).receive me s sender m = .ok r) :
    ∀ o ∈ r.sent, Routes c o.body := by
  intro o ho
  rcases h with ⟨v, h⟩ | ⟨sender, m, h⟩
  · obtain ⟨-, i, b, -, -, rfl⟩ := input_eq_ok (input_of_protocol h)
    exact routes_lift ho
  · obtain ⟨-, i, -, rfl⟩ := receive_eq_ok (receive_of_protocol h)
    exact routes_lift ho

/-- A gather with its messages as they are in memory: in an envelope, and with the message of the
broadcast in another one. -/
abbrev inMemory (c : Committee) : Protocol := (Protocol.gather c).enveloped.enveloped

/-- Envelopes do not change where a message leads. -/
theorem routes_sent_inMemory {me : NodeId} {s : State c} {r : Reaction (State c) (inMemory c).Msg}
    (h : (∃ v, (inMemory c).input me s v = .ok r) ∨
      ∃ sender m, (inMemory c).receive me s sender m = .ok r) :
    ∀ o ∈ r.sent, Routes c o.body.body.body := by
  obtain ⟨bare, hbare, rfl⟩ : ∃ bare, ((∃ v, (Protocol.gather c).input me s v = .ok bare) ∨
      ∃ sender m, (Protocol.gather c).receive me s sender m = .ok bare) ∧
      r = (bare.labelled fun _ o => Envelope.outgoing o.recipient).labelled
        fun _ o => Envelope.outgoing o.recipient := by
    rcases h with ⟨v, h⟩ | ⟨sender, m, h⟩
    · obtain ⟨_, hinner, rfl⟩ := map_eq_ok h
      obtain ⟨bare, hbare, rfl⟩ := map_eq_ok hinner
      exact ⟨bare, .inl ⟨v, hbare⟩, rfl⟩
    · obtain ⟨_, hinner, rfl⟩ := map_eq_ok h
      obtain ⟨bare, hbare, rfl⟩ := map_eq_ok hinner
      exact ⟨bare, .inr ⟨_, _, hbare⟩, rfl⟩
  intro o ho
  obtain ⟨_, hinner, rfl⟩ := List.mem_map.mp ho
  obtain ⟨plain, hplain, rfl⟩ := List.mem_map.mp hinner
  exact routes_sent hbare plain hplain

/-- **Reading, receiving and sending agree on the routes.**  A byte string is read as a message
exactly if it is its writing, the route leads to a broadcast of the committee and both envelopes are
empty.  Whoever it comes from, a node in any state then receives it without fault.  And whatever a
node sends, in any state, every member of the committee reads as it was sent, up to envelopes. -/
theorem codec_routes (c : Committee) :
    (∀ bytes m, (inMemory c).decode bytes = .ok m ↔
      (m.label = {} ∧ m.body.label = {} ∧ m.body.body.subsystem = 0 ∧
        m.body.body.index.toNat < c.size ∧ m.body.body.inner.value.length < 2 ^ 32) ∧
        (inMemory c).encode m = .ok bytes) ∧
    (∀ bytes m, (inMemory c).decode bytes = .ok m → ∀ me s sender,
      ∃ r, (inMemory c).receive me s sender m = .ok r) ∧
    ∀ me s r, ((∃ v, (inMemory c).input me s v = .ok r) ∨
        ∃ sender m, (inMemory c).receive me s sender m = .ok r) →
      ∀ o ∈ r.sent, o.body.body.body.inner.value.length < 2 ^ 32 →
        ∃ bytes, (inMemory c).encode o.body = .ok bytes ∧
          (inMemory c).decode bytes = .ok ⟨{}, {}, o.body.body.body⟩ := by
  have hread : ∀ bytes m, (inMemory c).decode bytes = .ok m ↔
      (m.label = {} ∧ m.body.label = {} ∧ Routes c m.body.body) ∧
        (inMemory c).encode m = .ok bytes :=
    Labelled.decode_iff (Labelled.decode_iff fun _ _ => decode_gather)
  refine ⟨fun bytes m => (hread bytes m).trans ⟨?_, ?_⟩, fun bytes m h me s sender => ?_,
    fun me s r h o ho hlength => ?_⟩
  · rintro ⟨⟨houter, hinner, hsubsystem, hindex⟩, hencode⟩
    exact ⟨⟨houter, hinner, hsubsystem, hindex, encode_ok_iff.mp ⟨bytes, hencode⟩⟩, hencode⟩
  · rintro ⟨⟨houter, hinner, hsubsystem, hindex, -⟩, hencode⟩
    exact ⟨⟨houter, hinner, hsubsystem, hindex⟩, hencode⟩
  · obtain ⟨⟨-, -, hsubsystem, hindex⟩, -⟩ := (hread bytes m).mp h
    obtain ⟨r, hr⟩ := receive_ok hsubsystem hindex s sender
    have hbare : (Protocol.gather c).receive me s sender m.body.body = .ok r :=
      congrArg (Except.mapError _) hr
    exact ⟨_, congrArg (fun x => Except.map _ (Except.map _ x)) hbare⟩
  · obtain ⟨bytes, hencode⟩ := encode_ok_iff.mpr hlength
    exact ⟨bytes, hencode, (hread _ _).mpr ⟨⟨rfl, rfl, routes_sent_inMemory h o ho⟩, hencode⟩⟩

/-- The second of two members reads an echo in its own broadcast, receives it in the name of the
first, and what it sends when it is given a value is read by both. -/
theorem codec_routes_of_two :
    let c : Committee := ⟨[⟨1⟩, ⟨2⟩]⟩
    let echo : (inMemory c).Msg := ⟨{}, {}, 0, 1, .echo, [7]⟩
    let initial (id : NodeId) : (inMemory c).Msg :=
      ⟨.outgoing id, .outgoing id, 0, 1, .initial, [7]⟩
    (inMemory c).decode [1, 0, 0, 1, 2, 0, 0, 0, 1, 7] = .ok echo ∧
    (∃ r, (inMemory c).receive ⟨2⟩ (State.initial c) ⟨1⟩ echo = .ok r) ∧
    ∃ r, (inMemory c).input ⟨2⟩ (State.initial c) [7] = .ok r ∧
      r.sent = [⟨⟨1⟩, initial ⟨1⟩⟩, ⟨⟨2⟩, initial ⟨2⟩⟩] ∧
      ∀ o ∈ r.sent, ∃ bytes, (inMemory c).encode o.body = .ok bytes ∧
        (inMemory c).decode bytes = .ok ⟨{}, {}, o.body.body.body⟩ := by
  intro c echo initial
  have hread : (inMemory c).decode [1, 0, 0, 1, 2, 0, 0, 0, 1, 7] = .ok echo :=
    ((codec_routes c).1 _ _).mpr ⟨⟨rfl, rfl, rfl, by decide, by decide⟩,
      show encode echo.body.body = .ok _ by decide⟩
  obtain ⟨r, hr, hsent⟩ : ∃ r, (inMemory c).input ⟨2⟩ (State.initial c) [7] = .ok r ∧
      r.sent = [⟨⟨1⟩, initial ⟨1⟩⟩, ⟨⟨2⟩, initial ⟨2⟩⟩] := ⟨_, rfl, rfl⟩
  refine ⟨hread, (codec_routes c).2.1 _ _ hread ⟨2⟩ (State.initial c) ⟨1⟩, r, hr, hsent,
    fun o ho => (codec_routes c).2.2 _ _ _ (.inl ⟨[7], hr⟩) o ho ?_⟩
  rw [hsent] at ho
  rcases List.mem_pair.mp ho with rfl | rfl
  · decide
  · decide

end Gather

end Quorum
