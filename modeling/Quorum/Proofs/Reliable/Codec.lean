import Quorum.Labelled
import Quorum.PingPong
import Quorum.Proofs.Reliable.Posting
import Quorum.Proofs.Wire.Exact
import Quorum.Proofs.Wire.Messages

/-!
# Codec — the wire format of reliable channels has one writing for each message

What is written of a batch and what is read as one is compared with the same grammar: a flag with
the number, and two counted sequences.  If a nested message is read exactly from its own encoding,
then so is a message between channels, and this again can be nested in another channel.  Envelope
and stamp are not written: a message that has been read has neither.

**Main statements.**  `encodeBody_eq_ok` and `exact_readBatch`: both sides of the grammar of a
batch.  `decode_iff_encode`: reading a message is the inverse of writing it.
-/

namespace Quorum

open Wire Wire.Reader

/-- **A message is read without its label.** -/
theorem Labelled.decode_iff {α μ : Type} {unwritten : α} {normal : μ → Prop}
    {encode : μ → Except EncodeError Bytes} {decode : Bytes → Except DecodeError μ}
    (h : ∀ bytes m, decode bytes = .ok m ↔ normal m ∧ encode m = .ok bytes) (bytes : Bytes)
    (m : Labelled α μ) : Labelled.decode unwritten decode bytes = .ok m ↔
      (m.label = unwritten ∧ normal m.body) ∧ m.encode encode = .ok bytes := by
  rw [and_assoc, Labelled.encode, ← h, Labelled.decode]
  constructor
  · intro hm
    obtain ⟨body, hbody, rfl⟩ := map_eq_ok hm
    exact ⟨rfl, hbody⟩
  · rintro ⟨rfl, hbody⟩
    rw [hbody]
    rfl

namespace Reliable

section
variable {μ : Type} {encode : μ → Except EncodeError Bytes} {decode : Bytes → Except DecodeError μ}

/-! ### The grammar of a batch -/

/-- The writings of a batch whose nested messages have the writings `g`. -/
def Batch.Written (g : μ → Bytes → Prop) (b : Batch μ) (bs : Bytes) : Prop :=
  b.msgs.length < UInt16.size ∧ b.acks.length < UInt16.size ∧ ∃ msgs, Each g b.msgs msgs ∧
    bs = putNumber b.id ++ (putU16 (UInt16.ofNat b.msgs.length) ++ (msgs ++
      (putU16 (UInt16.ofNat b.acks.length) ++ b.acks.flatMap putU32)))

/-- The writing of a nested message: its encoding behind the length of that. -/
def Enclosed (encode : μ → Except EncodeError Bytes) (m : μ) (bs : Bytes) : Prop :=
  ∃ bytes, encode m = .ok bytes ∧ putBytes bytes = .ok bs

/-- What is written behind the parts that are there already. -/
theorem foldlM_push_eq_ok {msgs : List μ} {parts : Array Bytes} {bs : Bytes} :
    (do let parts ← msgs.foldlM (fun (parts : Array Bytes) m => do
          return parts.push (← putBytes (← encode m))) parts
        return parts.toList.flatten) = .ok bs ↔
      ∃ more, Each (Enclosed encode) msgs more ∧ bs = parts.toList.flatten ++ more := by
  induction msgs generalizing parts with
  | nil => simp [Each, pure_ok_iff]
  | cons m msgs ih =>
    rw [List.foldlM_cons, bind_assoc, bind_ok_iff]
    simp only [ih]
    constructor
    · rintro ⟨_, hpart, more, hmore, rfl⟩
      obtain ⟨bytes, hencode, hpart⟩ := bind_ok_iff.mp hpart
      obtain ⟨part, hput, hpart⟩ := bind_ok_iff.mp hpart
      obtain rfl := pure_ok_iff.mp hpart
      exact ⟨part ++ more, ⟨part, more, ⟨bytes, hencode, hput⟩, hmore, rfl⟩, by simp⟩
    · rintro ⟨_, ⟨part, more, ⟨bytes, hencode, hput⟩, hmore, rfl⟩, rfl⟩
      refine ⟨parts.push part, ?_, more, hmore, by simp⟩
      exact bind_ok_iff.mpr ⟨bytes, hencode, bind_ok_iff.mpr ⟨part, hput, rfl⟩⟩

theorem encodeBody_eq (b : Batch μ) : b.encodeBody encode = (do
    let msgCount ← putCount b.msgs.length
    let msgs ← putMsgs encode b.msgs
    let ackCount ← putCount b.acks.length
    return putNumber b.id ++ msgCount ++ msgs ++ ackCount ++ b.acks.flatMap putU32) := by
  unfold Batch.encodeBody
  cases b.id <;> rfl

/-- **What is written of a batch.** -/
theorem encodeBody_eq_ok {b : Batch μ} {bs : Bytes} :
    b.encodeBody encode = .ok bs ↔ b.Written (Enclosed encode) bs := by
  have hmsgs : ∀ bs, putMsgs encode b.msgs = .ok bs ↔ Each (Enclosed encode) b.msgs bs := by
    intro bs
    rw [putMsgs, foldlM_push_eq_ok]
    simp
  unfold Batch.Written
  simp only [encodeBody_eq, bind_ok_iff, pure_ok_iff, putCount_eq_ok, hmsgs, List.append_assoc]
  constructor
  · rintro ⟨_, ⟨hcount, rfl⟩, msgs, hwritten, _, ⟨hacks, rfl⟩, rfl⟩
    exact ⟨hcount, hacks, msgs, hwritten, rfl⟩
  · rintro ⟨hcount, hacks, msgs, hwritten, rfl⟩
    exact ⟨_, ⟨hcount, rfl⟩, msgs, hwritten, _, ⟨hacks, rfl⟩, rfl⟩

/-! ### Reading a batch -/

theorem exact_readNumber : Message.readNumber.Exact fun id bs => bs = putNumber id := by
  intro input id rest
  constructor
  · intro h
    obtain ⟨some?, middle, hflag, hid⟩ := Reader.bind_eq_ok.mp h
    obtain ⟨_, rfl, rfl⟩ := (exact_bool _ _ _).mp hflag
    cases some? with
    | false =>
      obtain ⟨rfl, rfl⟩ := pure_eq_ok.mp hid
      exact ⟨_, rfl, rfl⟩
    | true =>
      obtain ⟨_, ⟨n, rfl, rfl⟩, rfl⟩ := (exact_u32.map (k := some) _ _ _).mp hid
      exact ⟨_, rfl, (List.append_assoc ..).symm⟩
  · rintro ⟨_, rfl, rfl⟩
    exact readNumber_put id rest

/-- The bytes of a nested message are read by the nested reader. -/
theorem exact_readInner : (Message.readInner decode).Exact fun m bs =>
    ∃ bytes, decode bytes = .ok m ∧ putBytes bytes = .ok bs := by
  intro input m rest
  constructor
  · intro h
    obtain ⟨bytes, middle, hbytes, hm⟩ := Reader.bind_eq_ok.mp h
    obtain ⟨bs, hbs, rfl⟩ := (exact_bytes _ _ _).mp hbytes
    cases hdecode : decode bytes with
    | ok m' =>
      rw [hdecode] at hm
      obtain ⟨rfl, rfl⟩ := pure_eq_ok.mp hm
      exact ⟨bs, ⟨bytes, hdecode, hbs⟩, rfl⟩
    | error e =>
      rw [hdecode] at hm
      exact absurd hm throw_ne_ok
  · rintro ⟨bs, ⟨bytes, hdecode, hbs⟩, rfl⟩
    refine Reader.bind_eq_ok.mpr ⟨bytes, rest, (exact_bytes _ _ _).mpr ⟨bs, hbs, rfl⟩, ?_⟩
    rw [hdecode]
    rfl

/-- **What is read as a batch.** -/
theorem exact_readBatch : (Message.readBatch decode).Exact
    (Batch.Written fun m bs => ∃ bytes, decode bytes = .ok m ∧ putBytes bytes = .ok bs) := by
  have hinner : (Message.readInner decode).Exact _ := exact_readInner
  have hread := exact_readNumber.bind fun id => exact_u16.bind fun n =>
    (hinner.times n.toNat).bind fun msgs => exact_u16.bind fun k =>
      (exact_u32.times k.toNat).map (k := fun acks => ({ id, msgs, acks } : Batch μ))
  refine Exact.congr hread fun b bs => ?_
  simp only [each_eq]
  constructor
  · rintro ⟨id, _, _, rfl, ⟨n, _, _, rfl, ⟨msgs, _, _, ⟨hcount, hmsgs⟩, ⟨k, _, _, rfl,
      ⟨acks, ⟨hacks, rfl⟩, rfl⟩, rfl⟩, rfl⟩, rfl⟩, rfl⟩
    have hn := n.toNat_lt
    have hk := k.toNat_lt
    refine ⟨hcount ▸ hn, hacks ▸ hk, _, hmsgs, ?_⟩
    rw [hcount, hacks, UInt16.ofNat_toNat, UInt16.ofNat_toNat]
  · rintro ⟨hcount, hacks, msgs, hmsgs, rfl⟩
    exact ⟨b.id, _, _, rfl, ⟨_, _, _, rfl, ⟨b.msgs, msgs, _,
      ⟨(UInt16.toNat_ofNat_of_lt' hcount).symm, hmsgs⟩, ⟨_, _, _, rfl,
      ⟨b.acks, ⟨(UInt16.toNat_ofNat_of_lt' hacks).symm, rfl⟩, rfl⟩, rfl⟩, rfl⟩, rfl⟩, rfl⟩

theorem Batch.Written.congr {g g' : μ → Bytes → Prop} {b : Batch μ} {bs : Bytes}
    (h : ∀ m ∈ b.msgs, ∀ bs, g m bs ↔ g' m bs) : b.Written g bs ↔ b.Written g' bs :=
  and_congr_right fun _ => and_congr_right fun _ => exists_congr fun _ =>
    and_congr_left fun _ => Each.congr h

theorem Batch.written_and {p : μ → Prop} {g : μ → Bytes → Prop} {b : Batch μ} {bs : Bytes} :
    b.Written (fun m bs => p m ∧ g m bs) bs ↔ (∀ m ∈ b.msgs, p m) ∧ b.Written g bs := by
  simp only [Batch.Written, each_and]
  constructor
  · rintro ⟨hmsgs, hacks, msgs, ⟨hp, hwritten⟩, hbs⟩
    exact ⟨hp, hmsgs, hacks, msgs, hwritten, hbs⟩
  · rintro ⟨hp, hmsgs, hacks, msgs, hwritten, hbs⟩
    exact ⟨hmsgs, hacks, msgs, ⟨hp, hwritten⟩, hbs⟩

/-! ### Messages -/

/-- The writings of a message whose nested messages have the writings `g`. -/
def Message.Written (g : μ → Bytes → Prop) : Message μ → Bytes → Prop
  | .batch b, bs => ∃ body, b.Written g body ∧ bs = putU8 1 ++ body
  | .reset r, bs => bs = putU8 2 ++ (putBool r.isResponse ++ putU32 r.latest)

theorem encode_eq_ok {m : Message μ} {bs : Bytes} :
    m.encode encode = .ok bs ↔ m.Written (Enclosed encode) bs := by
  cases m with
  | batch b =>
    change (do return putU8 1 ++ (← b.encodeBody encode)) = .ok bs ↔ _
    simp only [bind_ok_iff, pure_ok_iff, encodeBody_eq_ok]
    exact Iff.rfl
  | reset r =>
    change Except.ok _ = _ ↔ bs = _
    rw [Except.ok.injEq, eq_comm, List.append_assoc]

theorem decode_eq_ok {m : Message μ} {bs : Bytes} : (Message.read decode).decode bs = .ok m ↔
    m.Written (fun m bs => ∃ bytes, decode bytes = .ok m ∧ putBytes bytes = .ok bs) bs := by
  unfold Message.read
  rw [decode_bind exact_u8]
  constructor
  · rintro ⟨tag, _, body, rfl, rfl, h⟩
    split at h
    · rename_i htag
      obtain ⟨b, _, _, hbody, rfl, hend⟩ := (decode_bind exact_readBatch).mp h
      obtain ⟨rfl, rfl⟩ := decode_finish.mp hend
      exact ⟨_, hbody, by rw [htag, List.append_nil]⟩
    · split at h
      · rename_i htag
        obtain ⟨isResponse, _, _, rfl, rfl, hlatest⟩ := (decode_bind exact_bool).mp h
        obtain ⟨latest, _, _, rfl, rfl, hend⟩ := (decode_bind exact_u32).mp hlatest
        obtain ⟨rfl, rfl⟩ := decode_finish.mp hend
        rw [htag, List.append_nil]
        rfl
      · cases h
  · intro h
    cases m with
    | batch b =>
      obtain ⟨body, hbody, rfl⟩ := h
      refine ⟨1, _, body, rfl, rfl, ?_⟩
      rw [if_pos rfl]
      exact (decode_bind exact_readBatch).mpr ⟨b, body, [], hbody, (List.append_nil _).symm,
        decode_finish.mpr ⟨rfl, rfl⟩⟩
    | reset r =>
      obtain rfl := h
      refine ⟨2, _, _, rfl, rfl, ?_⟩
      rw [if_neg (by decide), if_pos rfl]
      exact (decode_bind exact_bool).mpr ⟨r.isResponse, _, _, rfl, rfl,
        (decode_bind exact_u32).mpr ⟨r.latest, _, [], rfl, (List.append_nil _).symm,
          decode_finish.mpr ⟨rfl, rfl⟩⟩⟩

/-- The normal form of a message, if nested messages have the normal form `normal`: a batch counts
its nested messages and acknowledgements with 16 bits, and the length of every nested encoding
with 32. -/
def Message.Normal (normal : μ → Prop) (encode : μ → Except EncodeError Bytes) :
    Message μ → Prop
  | .batch b => b.msgs.length ≤ 65535 ∧ b.acks.length ≤ 65535 ∧ ∀ m ∈ b.msgs, normal m ∧
      ∃ bytes, encode m = .ok bytes ∧ bytes.length < 2 ^ 32
  | .reset _ => True

/-- The normal form of a message in memory: nothing but what is written. -/
def InMemory.Normal (normal : μ → Prop) (encode : μ → Except EncodeError Bytes)
    (m : InMemory μ) : Prop :=
  m.label = {} ∧ m.body.label = none ∧ m.body.body.Normal normal encode

theorem each_enclosed {msgs : List μ}
    (h : ∀ m ∈ msgs, ∃ bytes, encode m = .ok bytes ∧ bytes.length < 2 ^ 32) :
    ∃ bs, Each (Enclosed encode) msgs bs := by
  induction msgs with
  | nil => exact ⟨[], rfl⟩
  | cons m msgs ih =>
    obtain ⟨⟨bytes, hencode, hlength⟩, hmsgs⟩ := List.forall_mem_cons.mp h
    obtain ⟨rest, hrest⟩ := ih hmsgs
    exact ⟨_, _, rest, ⟨bytes, hencode, putBytes_ok hlength⟩, hrest, rfl⟩

theorem forall_of_each_enclosed {msgs : List μ} {bs : Bytes} (h : Each (Enclosed encode) msgs bs) :
    ∀ m ∈ msgs, ∃ bytes, encode m = .ok bytes ∧ bytes.length < 2 ^ 32 := by
  induction msgs generalizing bs with
  | nil => exact fun m hm => absurd hm List.not_mem_nil
  | cons m msgs ih =>
    obtain ⟨_, _, ⟨bytes, hencode, hput⟩, hrest, -⟩ := h
    exact List.forall_mem_cons.mpr ⟨⟨bytes, hencode, (putBytes_eq_ok.mp hput).1⟩, ih hrest⟩

/-- **The messages that can be written are those in normal form**, as far as their nested messages
are. -/
theorem normal_iff_encode {normal : μ → Prop} {m : Message μ} :
    m.Normal normal encode ↔ (∀ n ∈ m.msgs, normal n) ∧ ∃ bs, m.encode encode = .ok bs := by
  cases m with
  | batch b =>
    simp only [encode_eq_ok]
    constructor
    · rintro ⟨hmsgs, hacks, hnormal⟩
      obtain ⟨msgs, hwritten⟩ := each_enclosed fun m hm => (hnormal m hm).2
      exact ⟨fun m hm => (hnormal m hm).1, _, _,
        ⟨Nat.lt_succ_of_le hmsgs, Nat.lt_succ_of_le hacks, msgs, hwritten, rfl⟩, rfl⟩
    · rintro ⟨hnormal, _, _, ⟨hmsgs, hacks, msgs, hwritten, -⟩, -⟩
      exact ⟨Nat.le_of_lt_succ hmsgs, Nat.le_of_lt_succ hacks, fun m hm =>
        ⟨hnormal m hm, forall_of_each_enclosed hwritten m hm⟩⟩
  | reset r => exact ⟨fun _ => ⟨fun n hn => absurd hn List.not_mem_nil, _, rfl⟩, fun _ => trivial⟩

section
variable {normal : μ → Prop}
  (hnested : ∀ bytes m, decode bytes = .ok m ↔ normal m ∧ encode m = .ok bytes)
include hnested

/-- **What is read is what is written**, of messages in normal form. -/
theorem decode_iff_written (bs : Bytes) (m : Message μ) :
    (Message.read decode).decode bs = .ok m ↔
      m.Normal normal encode ∧ m.encode encode = .ok bs := by
  have henclosed : ∀ m bs, (∃ bytes, decode bytes = .ok m ∧ putBytes bytes = .ok bs) ↔
      normal m ∧ Enclosed encode m bs := by
    intro m bs
    simp only [hnested, Enclosed, and_assoc, exists_and_left]
  have hread : (Message.read decode).decode bs = .ok m ↔
      (∀ n ∈ m.msgs, normal n) ∧ m.encode encode = .ok bs := by
    rw [decode_eq_ok, encode_eq_ok]
    cases m with
    | batch b =>
      change (∃ body, b.Written _ body ∧ _) ↔ _ ∧ ∃ body, b.Written _ body ∧ _
      simp only [Batch.Written.congr fun m _ => henclosed m, Batch.written_and, and_assoc,
        exists_and_left]
      exact Iff.rfl
    | reset r => exact (and_iff_right fun n hn => absurd hn List.not_mem_nil).symm
  rw [hread, normal_iff_encode]
  constructor
  · rintro ⟨hnormal, hencode⟩
    exact ⟨⟨hnormal, bs, hencode⟩, hencode⟩
  · rintro ⟨⟨hnormal, -⟩, hencode⟩
    exact ⟨hnormal, hencode⟩

/-- **A byte string is read as a message exactly if it is the writing of that message, and the
message is in normal form**: its envelope is empty and it has no stamp.  So a message in normal form
can be written and is read back, and no two byte strings are read as the same message. -/
theorem decode_iff_encode :
    (∀ bytes m, InMemory.decode decode bytes = .ok m ↔
      m.Normal normal encode ∧ m.encode encode = .ok bytes) ∧
    (∀ m : InMemory μ, m.Normal normal encode →
      ∃ bytes, m.encode encode = .ok bytes ∧ InMemory.decode decode bytes = .ok m) ∧
    ∀ bytes bytes' m, InMemory.decode decode bytes = .ok m →
      InMemory.decode decode bytes' = .ok m → bytes = bytes' := by
  have hiff : ∀ bytes m, InMemory.decode decode bytes = .ok m ↔
      m.Normal normal encode ∧ m.encode encode = .ok bytes :=
    Labelled.decode_iff (Labelled.decode_iff (decode_iff_written hnested))
  refine ⟨hiff, fun m hm => ?_, fun bytes bytes' m h h' => ?_⟩
  · obtain ⟨bytes, hencode⟩ := (normal_iff_encode.mp hm.2.2).2
    exact ⟨bytes, hencode, (hiff bytes m).mpr ⟨hm, hencode⟩⟩
  · have hsame := ((hiff bytes m).mp h).2.symm.trans ((hiff bytes' m).mp h').2
    exact Except.ok.inj hsame

end

end

/-! ### Pings in channels -/

/-- A ping has one writing. -/
theorem decode_ping {bytes : Bytes} {ping : PingPong.Ping} :
    PingPong.read.decode bytes = .ok ping ↔ True ∧ Except.ok (PingPong.encode ping) =
      (.ok bytes : Except EncodeError Bytes) := by
  rw [true_and, Except.ok.injEq]
  unfold PingPong.read
  rw [decode_bind exact_u8]
  constructor
  · rintro ⟨tag, _, body, rfl, rfl, h⟩
    split at h
    · rename_i htag
      obtain ⟨ttl, _, _, rfl, rfl, hend⟩ := (decode_bind exact_u8).mp h
      obtain ⟨rfl, rfl⟩ := decode_finish.mp hend
      rw [htag, List.append_nil]
      rfl
    · cases h
  · rintro rfl
    refine ⟨1, _, _, rfl, rfl, ?_⟩
    rw [if_pos rfl]
    exact (decode_bind exact_u8).mpr ⟨ping.ttl, _, [], rfl, (List.append_nil _).symm,
      decode_finish.mpr ⟨rfl, rfl⟩⟩

/-- A ping in a numbered batch that travels in a batch of another channel, behind an
acknowledgement: the theorem for the inner channel is what it takes for the outer one. -/
theorem decode_iff_encode_twice :
    let decodePing := Labelled.decode ({} : Envelope) PingPong.read.decode
    let encodePing := Labelled.encode fun ping => Except.ok (PingPong.encode ping)
    (∀ bytes m, decodePing bytes = .ok m ↔ (m.label = {} ∧ True) ∧ encodePing m = .ok bytes) ∧
    InMemory.decode (InMemory.decode decodePing)
      [1, 0, 0, 1, 0, 0, 0, 16, 1, 1, 0, 0, 0, 7, 0, 1, 0, 0, 0, 2, 1, 3, 0, 0, 0, 1, 0, 0, 0, 9] =
      .ok ⟨{}, none, .batch
        { msgs := [⟨{}, none, .batch { id := some 7, msgs := [⟨{}, ⟨3⟩⟩] }⟩], acks := [9] }⟩ := by
  intro decodePing encodePing
  have hping : ∀ bytes m, decodePing bytes = .ok m ↔
      (m.label = {} ∧ True) ∧ encodePing m = .ok bytes :=
    Labelled.decode_iff fun _ _ => decode_ping
  have hinner := (decode_iff_encode hping).1
  refine ⟨hping, ((decode_iff_encode hinner).1 _ _).mpr
    ⟨⟨rfl, rfl, by decide, by decide, ?_⟩, rfl⟩⟩
  refine List.forall_mem_singleton.mpr ⟨⟨rfl, rfl, by decide, by decide, ?_⟩, _, rfl, by decide⟩
  exact List.forall_mem_singleton.mpr ⟨⟨rfl, trivial⟩, _, rfl, by decide⟩

end Reliable

end Quorum
