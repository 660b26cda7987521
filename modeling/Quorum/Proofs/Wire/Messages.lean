import Quorum.Gather
import Quorum.Proofs.Wire.Reader
import Quorum.Reliable

/-!
# Messages — what is sent can be read

A message of a broadcast can be written and read back if its value is short enough, and so can the
message of a gather that carries it.  A batch can if its messages can, and they and its
acknowledgements are not too many.

**Main statements.**  `Broadcast.Message.read_encode`, `Gather.read_encode`,
`Reliable.Message.read_encode`.
-/

namespace Quorum

open Wire

namespace Broadcast

theorem Kind.ofTag?_tag (k : Kind) : Kind.ofTag? k.tag = some k := by
  cases k <;> decide

/-- **A message of a broadcast can be read if its value is short enough.** -/
theorem Message.read_encode {m : Message} (h : m.value.length < UInt32.size) :
    ∃ bytes, m.encode = .ok bytes ∧ bytes.length = m.value.length + 5 ∧
      Message.read bytes = .ok m [] := by
  refine ⟨putU8 m.kind.tag ++ (putU32 (UInt32.ofNat m.value.length) ++ m.value), ?_, ?_, ?_⟩
  · rw [encode, Reader.putBytes_ok h]
    rfl
  · simp [putU8, putU32]
    omega
  · have hvalue := Reader.bytes_put h []
    rw [List.append_nil] at hvalue
    rw [read, Reader.bind_of_ok (Reader.u8_put _ _)]
    simp only [Kind.ofTag?_tag]
    rw [Reader.bind_of_ok hvalue, Reader.bind_of_ok Reader.finish_nil]
    rfl

end Broadcast

namespace Gather

/-- **A message of a gather can be read if it leads to a broadcast and its value is short
enough.** -/
theorem read_encode {c : Committee} {m : Message} (hsubsystem : m.subsystem = broadcastSubsystem)
    (hindex : m.index.toNat < c.size) (h : m.inner.value.length < UInt32.size) :
    ∃ bytes, encode m = .ok bytes ∧ bytes.length = m.inner.value.length + 9 ∧
      (read c).decode bytes = .ok m := by
  obtain ⟨inner, hencode, hlength, hread⟩ := Broadcast.Message.read_encode h
  refine ⟨putU8 1 ++ (putU8 m.subsystem ++ (putU16 m.index ++ inner)), ?_, ?_, ?_⟩
  · rw [encode, Routed.encodeBody, hencode]
    simp [bind, Except.bind, pure, Except.pure]
  · simp [putU8, putU16, hlength]
    omega
  · have hinner : decodeInner c m.subsystem m.index inner = .ok m.inner := by
      rw [decodeInner, if_pos ⟨hsubsystem, hindex⟩]
      exact Reader.decode_of_ok _ hread
    have hbody : Routed.readBody (decodeInner c)
        (putU8 m.subsystem ++ (putU16 m.index ++ inner)) = .ok m [] := by
      rw [Routed.readBody, Reader.bind_of_ok (Reader.u8_put _ _),
        Reader.bind_of_ok (Reader.u16_put _ _), Reader.bind_of_ok (Reader.rest_apply inner),
        hinner]
      rfl
    refine Reader.decode_of_ok [] ?_
    rw [read, Reader.bind_of_ok (Reader.u8_put _ _), if_pos rfl, Reader.bind_of_ok hbody,
      Reader.bind_of_ok Reader.finish_nil]
    rfl

end Gather

namespace Reliable

section
variable {μ : Type} {encode : μ → Except EncodeError Bytes} {decode : Bytes → Except DecodeError μ}

def putMsg (encode : μ → Except EncodeError Bytes) (m : μ) : Bytes :=
  match encode m with
  | .ok bytes => putU32 (UInt32.ofNat bytes.length) ++ bytes
  | .error _ => []

theorem putMsg_eq {m : μ} {bytes : Bytes} (h : encode m = .ok bytes) :
    putMsg encode m = putU32 (UInt32.ofNat bytes.length) ++ bytes := by
  rw [putMsg, h]

/-- A nested message fits into a batch, and can be read. -/
def Fits (encode : μ → Except EncodeError Bytes) (decode : Bytes → Except DecodeError μ) (m : μ) :
    Prop :=
  ∃ bytes, encode m = .ok bytes ∧ bytes.length < UInt32.size ∧ decode bytes = .ok m

theorem foldlM_push {msgs : List μ} (h : ∀ m ∈ msgs, Fits encode decode m) (parts : Array Bytes) :
    msgs.foldlM (fun parts m => do return parts.push (← putBytes (← encode m))) parts =
      .ok (parts ++ msgs.map (putMsg encode)) := by
  induction msgs generalizing parts with
  | nil => simp [pure, Except.pure]
  | cons m msgs ih =>
    obtain ⟨bytes, hencode, hlength, -⟩ := h m (List.mem_cons_self ..)
    rw [List.foldlM_cons, hencode]
    change (do let parts ← (do return parts.push (← putBytes bytes)); _) = _
    rw [Reader.putBytes_ok hlength]
    refine (ih (fun m' hm' => h m' (List.mem_cons_of_mem _ hm')) _).trans ?_
    simp [putMsg_eq hencode]

theorem putMsgs_ok {msgs : List μ} (h : ∀ m ∈ msgs, Fits encode decode m) :
    putMsgs encode msgs = .ok (msgs.flatMap (putMsg encode)) := by
  rw [putMsgs, foldlM_push h]
  simp [bind, Except.bind, pure, Except.pure, List.flatMap_def]

theorem readInner_put {m : μ} (h : Fits encode decode m) (rest : Bytes) :
    Message.readInner decode (putMsg encode m ++ rest) = .ok m rest := by
  obtain ⟨bytes, hencode, hlength, hdecode⟩ := h
  rw [putMsg_eq hencode, Message.readInner, Reader.bind_of_ok (Reader.bytes_put hlength rest),
    hdecode]
  rfl

def putNumber (id : Option BatchId) : Bytes := putBool id.isSome ++ (id.map putU32).getD []

theorem readNumber_put (id : Option BatchId) (rest : Bytes) :
    Message.readNumber (putNumber id ++ rest) = .ok id rest := by
  rw [putNumber, List.append_assoc, Message.readNumber, Reader.bind_of_ok (Reader.bool_put _ _)]
  cases id with
  | none => rfl
  | some id =>
    rw [Option.isSome_some, if_pos rfl, Option.map_some, Option.getD_some,
      Reader.bind_of_ok (Reader.u32_put _ _)]
    rfl

def putBatch (encode : μ → Except EncodeError Bytes) (b : Batch μ) : Bytes :=
  putNumber b.id ++ (putU16 (UInt16.ofNat b.msgs.length) ++ (b.msgs.flatMap (putMsg encode) ++
    (putU16 (UInt16.ofNat b.acks.length) ++ b.acks.flatMap putU32)))

/-- What can be written and read: a reset, or a batch of not too many messages that fit. -/
def Message.Readable (encode : μ → Except EncodeError Bytes)
    (decode : Bytes → Except DecodeError μ) : Message μ → Prop
  | .batch b => (∀ m ∈ b.msgs, Fits encode decode m) ∧ b.msgs.length < UInt16.size ∧
    b.acks.length < UInt16.size
  | .reset _ => True

/-- **A message between channels can be read if it is a reset, or a batch of not too many messages
that fit.** -/
theorem Message.read_encode {m : Message μ} (h : m.Readable encode decode) :
    ∃ bytes, m.encode encode = .ok bytes ∧ (Message.read decode).decode bytes = .ok m := by
  cases m with
  | reset r =>
    refine ⟨_, rfl, Reader.decode_of_ok [] ?_⟩
    rw [List.append_assoc, read, Reader.bind_of_ok (Reader.u8_put _ _), if_neg (by decide),
      if_pos rfl, Reader.bind_of_ok (Reader.bool_put _ _)]
    have hlatest := Reader.u32_put r.latest []
    rw [List.append_nil] at hlatest
    rw [Reader.bind_of_ok hlatest, Reader.bind_of_ok Reader.finish_nil]
    rfl
  | batch b =>
    obtain ⟨hfits, hmsgs, hacks⟩ := h
    have hbody : b.encodeBody encode = .ok (putBatch encode b) := by
      rw [Batch.encodeBody, Reader.putCount_ok hmsgs, putMsgs_ok hfits, Reader.putCount_ok hacks]
      obtain ⟨id, msgs, acks⟩ := b
      cases id <;> simp [bind, Except.bind, pure, Except.pure, putBatch, putNumber]
    have hlast : Reader.times b.acks.length Reader.u32 (b.acks.flatMap putU32 ++ []) =
        .ok b.acks [] :=
      Reader.times_put (fun ack _ rest => Reader.u32_put ack rest) []
    rw [List.append_nil] at hlast
    have hread : readBatch decode (putBatch encode b) = .ok b [] := by
      rw [readBatch, putBatch, Reader.bind_of_ok (readNumber_put b.id _),
        Reader.bind_of_ok (Reader.u16_put _ _), UInt16.toNat_ofNat_of_lt' hmsgs,
        Reader.bind_of_ok (Reader.times_put (fun m hm rest => readInner_put (hfits m hm) rest) _),
        Reader.bind_of_ok (Reader.u16_put _ _), UInt16.toNat_ofNat_of_lt' hacks,
        Reader.bind_of_ok hlast]
      rfl
    have hencode : Message.encode encode (.batch b) = .ok (putU8 1 ++ putBatch encode b) := by
      rw [Message.encode, hbody]
      rfl
    refine ⟨_, hencode, Reader.decode_of_ok [] ?_⟩
    rw [read, Reader.bind_of_ok (Reader.u8_put _ _), if_pos rfl, Reader.bind_of_ok hread,
      Reader.bind_of_ok Reader.finish_nil]
    rfl

end

end Reliable

end Quorum
