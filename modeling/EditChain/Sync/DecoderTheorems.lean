import EditChain.Sync.Decoder

/-!
# Framing does not see how the stream is cut

The decoder reads one frame after another, and it asks for more at every proper part of a frame.
So what it has handed out depends only on the bytes that have arrived, not on the chunks they
arrived in, and what it keeps is the beginning of one frame.
-/

namespace EditChain.Sync

open Core Fallible ByteString UnitReader

variable [PostcardReader]

/-! ## One frame -/

/-- What is at the front of the bytes of a decoder. -/
def nextFrame (bytes : Bytes) : Next Unit Message IoError :=
  match slice? bytes 0 4 with
  | none => .more
  | some header =>
    if leNat header = 0 ∨ maxFrameBytes < leNat header then
      .bad (invalid "invalid peer frame length")
    else
      match slice? bytes 4 (leNat header + 4) with
      | none => .more
      | some payload =>
        match decodeMessage payload with
        | .error error => .bad error
        | .ok message => .unit message (leNat header + 4) ()

/-- A header with a length that a frame can have. -/
def Announces (bytes : Bytes) (length : ℕ) : Prop :=
  ∃ header, slice? bytes 0 4 = some header ∧ leNat header = length ∧ length ≠ 0
    ∧ length ≤ maxFrameBytes

omit [PostcardReader] in
lemma Announces.append {bytes : Bytes} {length : ℕ} (h : Announces bytes length) (more : Bytes) :
    Announces (bytes ++ more) length := by
  obtain ⟨header, hheader, hlength⟩ := h
  refine ⟨header, ?_, hlength⟩
  rw [slice?_append (slice?_eq_some.mp hheader).2.1, hheader]

lemma nextFrame_of_announces {bytes : Bytes} {length : ℕ} (h : Announces bytes length) :
    nextFrame bytes
      = match slice? bytes 4 (length + 4) with
        | none => .more
        | some payload =>
          match decodeMessage payload with
          | .error error => .bad error
          | .ok message => .unit message (length + 4) () := by
  obtain ⟨header, hheader, rfl, hpos, hle⟩ := h
  have hfits : ¬ (leNat header = 0 ∨ maxFrameBytes < leNat header) := by omega
  unfold nextFrame
  simp only [hheader, if_neg hfits]

/-- A found frame has an announced length and a payload that decodes. -/
lemma nextFrame_eq_unit {bytes : Bytes} {message : Message} {n : ℕ} {t : Unit} :
    nextFrame bytes = .unit message n t
      ↔ ∃ length payload, Announces bytes length ∧ n = length + 4
        ∧ slice? bytes 4 (length + 4) = some payload ∧ decodeMessage payload = .ok message := by
  constructor
  · intro h
    unfold nextFrame at h
    split at h
    · cases h
    · next header hheader =>
      split at h
      · cases h
      · next hfits =>
        split at h
        · cases h
        · next payload hpayload =>
          split at h
          · cases h
          · next found hfound =>
            cases h
            exact ⟨leNat header, payload, ⟨header, hheader, rfl, by omega, by omega⟩, rfl,
              hpayload, hfound⟩
  · rintro ⟨length, payload, hannounces, rfl, hpayload, hmessage⟩
    rw [nextFrame_of_announces hannounces, hpayload]
    simp only [hmessage]

/-- More is asked for only where the bytes are shorter than what is announced. -/
lemma nextFrame_eq_more {bytes : Bytes} (h : nextFrame bytes = .more) :
    bytes.length < maxFrameBytes + 4 := by
  unfold nextFrame at h
  split at h
  · next hheader =>
    have := (slice?_eq_none (Nat.zero_le 4)).mp hheader
    omega
  · next header hheader =>
    split at h
    · cases h
    · next hfits =>
      split at h
      · next hpayload =>
        have := (slice?_eq_none (Nat.le_add_left 4 _)).mp hpayload
        omega
      · next payload hpayload =>
        split at h
        · cases h
        · cases h

lemma nextFrame_append_unit {bytes : Bytes} {message : Message} {n : ℕ} {t : Unit} (more : Bytes)
    (h : nextFrame bytes = .unit message n t) :
    nextFrame (bytes ++ more) = .unit message n t := by
  obtain ⟨length, payload, hannounces, hn, hpayload, hmessage⟩ := nextFrame_eq_unit.mp h
  refine nextFrame_eq_unit.mpr ⟨length, payload, hannounces.append more, hn, ?_, hmessage⟩
  rw [slice?_append (slice?_eq_some.mp hpayload).2.1, hpayload]

lemma nextFrame_append_bad {bytes : Bytes} {error : IoError} (more : Bytes)
    (h : nextFrame bytes = .bad error) : nextFrame (bytes ++ more) = .bad error := by
  unfold nextFrame at h ⊢
  split at h
  · cases h
  · next header hheader =>
    rw [slice?_append (slice?_eq_some.mp hheader).2.1, hheader]
    split at h
    · next hfits =>
      simp only [if_pos hfits]
      exact h
    · next hfits =>
      simp only [if_neg hfits]
      split at h
      · cases h
      · next payload hpayload =>
        rw [slice?_append (slice?_eq_some.mp hpayload).2.1, hpayload]
        exact h

/-- The frames of a stream as units. -/
def frameReader : UnitReader UInt8 Unit Message IoError where
  next _ := nextFrame
  size_pos h := by
    obtain ⟨length, payload, -, hn, -⟩ := nextFrame_eq_unit.mp h
    omega
  size_le h := by
    obtain ⟨length, payload, -, hn, hpayload, -⟩ := nextFrame_eq_unit.mp h
    have := (slice?_eq_some.mp hpayload).2.1
    omega
  unit_take h := by
    obtain ⟨length, payload, hannounces, hn, hpayload, hmessage⟩ := nextFrame_eq_unit.mp h
    obtain ⟨header, hheader, hlength⟩ := hannounces
    refine nextFrame_eq_unit.mpr ⟨length, payload, ⟨header, ?_, hlength⟩, hn, ?_, hmessage⟩
    · rw [slice?_take (Nat.zero_le 4) (by omega), hheader]
    · rw [slice?_take (by omega) (by omega), hpayload]
  unit_append more h := nextFrame_append_unit more h
  bad_append more h := nextFrame_append_bad more h

lemma frameReader_next (bytes : Bytes) : frameReader.next () bytes = nextFrame bytes := rfl

/-! ## One chunk -/

namespace FrameDecoder

/-- One turn of the loop. -/
lemma exec_takeFrames_succ (fuel : ℕ) (messages : List Message) (decoder : FrameDecoder) :
    (takeFrames (fuel + 1) messages).exec decoder
      = match nextFrame decoder.bytes with
        | .more => (.ok messages, decoder)
        | .bad error => (.error error, decoder)
        | .unit message n _ =>
          (takeFrames fuel (messages ++ [message])).exec ⟨decoder.bytes.drop n⟩ := by
  conv_lhs => unfold takeFrames
  unfold nextFrame
  rw [exec_bind_of_ok (exec_get decoder)]
  cases hheader : slice? decoder.bytes 0 4 with
  | none => rfl
  | some header =>
    simp only
    rw [exec_guard]
    split
    · rfl
    · cases hpayload : slice? decoder.bytes 4 (leNat header + 4) with
      | none => rfl
      | some payload =>
        simp only
        rw [exec_bind, exec_lift]
        cases decodeMessage payload with
        | error error => rfl
        | ok message => rfl

/-- The messages read, unless the reading ended with an error. -/
def outcome (messages : List Message) : Ending IoError → Except IoError (List Message)
  | .bad error => .error error
  | .clean | .more => .ok messages

/-- The loop takes all frames there are, given as many turns as there are bytes. -/
lemma exec_takeFrames (fuel : ℕ) (messages : List Message) (decoder : FrameDecoder)
    (hfuel : decoder.bytes.length ≤ fuel) :
    (takeFrames fuel messages).exec decoder
      = (outcome (messages ++ (frameReader.run () decoder.bytes).units.map Prod.snd)
          (frameReader.run () decoder.bytes).ending,
        ⟨decoder.bytes.drop (frameReader.run () decoder.bytes).consumed⟩) := by
  induction fuel generalizing messages decoder with
  | zero =>
    have hempty : decoder.bytes = [] := List.length_eq_zero_iff.mp (by omega)
    rw [hempty]
    simp only [run_nil, List.map_nil, List.append_nil, List.drop_nil, outcome]
    show (Except.ok messages, decoder) = _
    rw [← hempty]
  | succ fuel ih =>
    rw [exec_takeFrames_succ]
    by_cases hempty : decoder.bytes = []
    · rw [hempty]
      simp only [run_nil, List.map_nil, List.append_nil, List.drop_nil, outcome]
      show (Except.ok messages, decoder) = _
      rw [← hempty]
    · cases hnext : nextFrame decoder.bytes with
      | more =>
        have hnext' : frameReader.next () decoder.bytes = .more := hnext
        rw [run_of_more hempty hnext']
        simp [outcome]
      | bad error =>
        have hnext' : frameReader.next () decoder.bytes = .bad error := hnext
        rw [run_of_bad hempty hnext']
        simp [outcome]
      | unit message n t =>
        have hnext' : frameReader.next () decoder.bytes = .unit message n t := hnext
        have hpos := frameReader.size_pos hnext'
        have hle := frameReader.size_le hnext'
        have hshorter : (decoder.bytes.drop n).length ≤ fuel := by
          rw [List.length_drop]
          omega
        simp only
        rw [ih _ ⟨decoder.bytes.drop n⟩ hshorter, run_of_unit hnext']
        simp [Scan.prepend, Scan.shift, List.drop_drop, Function.comp_def]

/-- The decoder after some bytes, and the messages handed out for them. -/
structure Delivered (decoder : FrameDecoder) (received : Bytes) (messages : List Message) :
    Prop where
  bytes : decoder.bytes = received.drop (frameReader.run () received).consumed
  messages : messages = (frameReader.run () received).units.map Prod.snd
  sound : ∀ error, (frameReader.run () received).ending ≠ .bad error

lemma delivered_nil : Delivered {} [] [] where
  bytes := by simp
  messages := by simp
  sound := by simp

/-- The loop works on what was kept and the chunk. -/
lemma exec_push {chunk : Bytes} (hchunk : chunk.length ≤ maxFrameBytes) (decoder : FrameDecoder) :
    (push chunk).exec decoder
      = (outcome ((frameReader.run () (decoder.bytes ++ chunk)).units.map Prod.snd)
          (frameReader.run () (decoder.bytes ++ chunk)).ending,
        ⟨(decoder.bytes ++ chunk).drop
          (frameReader.run () (decoder.bytes ++ chunk)).consumed⟩) := by
  have hfits : ¬ maxFrameBytes < chunk.length := by omega
  unfold push
  rw [exec_guard, if_neg hfits, exec_bind_of_ok (exec_modify _ decoder),
    exec_bind_of_ok (exec_get _), exec_takeFrames _ _ _ (Nat.le_refl _), List.nil_append]

lemma length_le_of_push {chunk : Bytes} {decoder decoder' : FrameDecoder} {out : List Message}
    (h : (push chunk).exec decoder = (.ok out, decoder')) : chunk.length ≤ maxFrameBytes := by
  by_contra hlong
  unfold push at h
  rw [exec_guard, if_pos (by omega)] at h
  cases h

/-- Reading what was kept and the chunk is reading everything that has arrived. -/
lemma Delivered.run_eq {decoder : FrameDecoder} {received : Bytes} {messages : List Message}
    (h : Delivered decoder received messages) (chunk : Bytes) :
    frameReader.run () (received ++ chunk)
      = ((frameReader.run () (decoder.bytes ++ chunk)).shift
          (frameReader.run () received).consumed).prepend (frameReader.run () received).units := by
  rw [run_append () received chunk h.sound,
    List.drop_append_of_le_length (consumed_le () received), ← h.bytes]

/-- A push hands out the messages that the chunk completes. -/
lemma Delivered.push {decoder : FrameDecoder} {received chunk : Bytes} {messages : List Message}
    (h : Delivered decoder received messages) (hchunk : chunk.length ≤ maxFrameBytes)
    (hsound : ∀ error, (frameReader.run () (received ++ chunk)).ending ≠ .bad error) :
    ∃ out decoder', (FrameDecoder.push chunk).exec decoder = (.ok out, decoder')
      ∧ Delivered decoder' (received ++ chunk) (messages ++ out) := by
  have hrun := h.run_eq chunk
  have hkept : decoder.bytes ++ chunk
      = (received ++ chunk).drop (frameReader.run () received).consumed := by
    rw [List.drop_append_of_le_length (consumed_le () received), ← h.bytes]
  rw [exec_push hchunk]
  refine ⟨(frameReader.run () (decoder.bytes ++ chunk)).units.map Prod.snd, _,
    Prod.ext ?_ rfl, ?_, ?_, hsound⟩
  · show outcome _ _ = .ok _
    have hending : (frameReader.run () (decoder.bytes ++ chunk)).ending
        = (frameReader.run () (received ++ chunk)).ending := by
      rw [hrun]
      rfl
    cases hcase : (frameReader.run () (decoder.bytes ++ chunk)).ending with
    | clean => rfl
    | more => rfl
    | bad error => exact absurd (hending.symm.trans hcase) (hsound error)
  · show (decoder.bytes ++ chunk).drop _ = _
    rw [hrun, hkept, List.drop_drop]
    rfl
  · rw [hrun, h.messages]
    simp [Scan.prepend, Scan.shift, Function.comp_def]

/-- A push that succeeds found no malformed frame. -/
lemma Delivered.of_push {decoder decoder' : FrameDecoder} {received chunk : Bytes}
    {messages out : List Message} (h : Delivered decoder received messages)
    (hpush : (FrameDecoder.push chunk).exec decoder = (.ok out, decoder')) :
    Delivered decoder' (received ++ chunk) (messages ++ out) := by
  have hchunk := length_le_of_push hpush
  have hsound : ∀ error, (frameReader.run () (received ++ chunk)).ending ≠ .bad error := by
    intro error hbad
    rw [h.run_eq chunk] at hbad
    have hending : (frameReader.run () (decoder.bytes ++ chunk)).ending = .bad error := hbad
    rw [exec_push hchunk, hending] at hpush
    cases hpush
  obtain ⟨found, next, hfound, hnext⟩ := h.push hchunk hsound
  rw [hpush] at hfound
  cases hfound
  exact hnext

/-! ## A stream of chunks -/

/-- Chunks whose bytes hold no malformed frame are all taken, and after each of them the messages
handed out are those of the bytes so far. -/
lemma Delivered.pushAll {chunks : List Bytes} {decoder : FrameDecoder} {received : Bytes}
    {messages : List Message} (h : Delivered decoder received messages)
    (hchunks : ∀ chunk ∈ chunks, chunk.length ≤ maxFrameBytes)
    (hsound : ∀ k error, (frameReader.run () (received ++ (chunks.take k).flatten)).ending
      ≠ .bad error) :
    ∃ outs decoder', (FrameDecoder.pushAll chunks).exec decoder = (.ok outs, decoder')
      ∧ Delivered decoder' (received ++ chunks.flatten) (messages ++ outs.flatten)
      ∧ ∀ k, messages ++ (outs.take k).flatten
        = (frameReader.run () (received ++ (chunks.take k).flatten)).units.map Prod.snd := by
  induction chunks generalizing decoder received messages with
  | nil => exact ⟨[], decoder, rfl, by simpa using h, by simpa using h.messages⟩
  | cons chunk chunks ih =>
    have hsound₁ : ∀ error, (frameReader.run () (received ++ chunk)).ending ≠ .bad error := by
      intro error
      have := hsound 1 error
      simpa using this
    obtain ⟨out, next, hpush, hnext⟩ := h.push (hchunks chunk List.mem_cons_self) hsound₁
    obtain ⟨outs, last, hlast, hdelivered, htakes⟩ := ih hnext
      (fun other hother => hchunks other (List.mem_cons_of_mem _ hother)) (by
        intro k error
        have := hsound (k + 1) error
        simpa [List.append_assoc] using this)
    refine ⟨out :: outs, last, ?_, by simpa [List.append_assoc] using hdelivered, ?_⟩
    · unfold FrameDecoder.pushAll
      rw [exec_bind_of_ok hpush, exec_bind_of_ok hlast]
      rfl
    · intro k
      cases k with
      | zero => simpa using h.messages
      | succ k => simpa [List.append_assoc] using htakes k

/-- Chunks that were all taken hold no malformed frame. -/
lemma Delivered.of_pushAll {chunks : List Bytes} {decoder decoder' : FrameDecoder}
    {received : Bytes} {messages : List Message} {outs : List (List Message)}
    (h : Delivered decoder received messages)
    (hpush : (FrameDecoder.pushAll chunks).exec decoder = (.ok outs, decoder')) :
    Delivered decoder' (received ++ chunks.flatten) (messages ++ outs.flatten) := by
  induction chunks generalizing decoder received messages outs with
  | nil =>
    cases hpush
    simpa using h
  | cons chunk chunks ih =>
    unfold FrameDecoder.pushAll at hpush
    obtain ⟨out, next, hout, hpush⟩ := exec_bind_eq_ok.mp hpush
    obtain ⟨later, last, hlater, hpush⟩ := exec_bind_eq_ok.mp hpush
    cases hpush
    have := ih (h.of_push hout) hlater
    simpa [List.append_assoc] using this

/-- What is kept asks for more. -/
lemma length_lt_of_push {chunk : Bytes} {decoder decoder' : FrameDecoder} {out : List Message}
    (hpush : (push chunk).exec decoder = (.ok out, decoder')) :
    decoder'.bytes.length < maxFrameBytes + 4 := by
  rw [exec_push (length_le_of_push hpush)] at hpush
  generalize decoder.bytes ++ chunk = bytes at hpush
  have hkept : decoder'.bytes = bytes.drop (frameReader.run () bytes).consumed := by
    rw [← (Prod.mk.inj hpush).2]
  cases hending : (frameReader.run () bytes).ending with
  | bad error =>
    rw [hending] at hpush
    cases hpush
  | clean =>
    rw [hkept, (clean_iff_consumed () bytes).mp hending, List.drop_length]
    simp
  | more =>
    rw [hkept]
    exact nextFrame_eq_more (next_of_more hending)

end FrameDecoder

/-! ## Encoded messages -/

/-- A length and as many bytes of payload. -/
def IsFrame (frame : Bytes) : Prop :=
  ∃ payload : Bytes, payload ≠ [] ∧ payload.length ≤ maxFrameBytes
    ∧ frame = leBytes 4 payload.length ++ payload

omit [PostcardReader] in
/-- The first four bytes of a frame announce the rest. -/
lemma announces_frame {payload : Bytes} (hpayload : payload ≠ [])
    (hle : payload.length ≤ maxFrameBytes) (rest : Bytes) :
    Announces (leBytes 4 payload.length ++ rest) payload.length := by
  have hpos : payload.length ≠ 0 := fun hzero => hpayload (List.length_eq_zero_iff.mp hzero)
  have hfits : payload.length < 256 ^ 4 := lt_of_le_of_lt hle (by decide)
  refine ⟨leBytes 4 payload.length, ?_, leNat_leBytes hfits, hpos, hle⟩
  exact slice?_middle [] (leBytes 4 payload.length) rest rfl (by simp)

/-- A frame at the front is found when its payload decodes. -/
lemma nextFrame_frame {payload : Bytes} (hpayload : payload ≠ [])
    (hle : payload.length ≤ maxFrameBytes) (rest : Bytes) :
    nextFrame (leBytes 4 payload.length ++ (payload ++ rest))
      = match decodeMessage payload with
        | .error error => .bad error
        | .ok message => .unit message (payload.length + 4) () := by
  have hslice : slice? (leBytes 4 payload.length ++ (payload ++ rest)) 4 (payload.length + 4)
      = some payload := slice?_middle _ _ _ (by simp) (by simp [Nat.add_comm])
  rw [nextFrame_of_announces (announces_frame hpayload hle _), hslice]

/-- A part of a frame is not enough. -/
lemma nextFrame_cut {payload part : Bytes} (hpayload : payload ≠ [])
    (hle : payload.length ≤ maxFrameBytes) (hpart : part <+: leBytes 4 payload.length ++ payload)
    (hcut : part.length < (leBytes 4 payload.length ++ payload).length) :
    nextFrame part = .more := by
  rw [List.length_append, length_leBytes] at hcut
  by_cases hshort : part.length < 4
  · unfold nextFrame
    rw [(slice?_eq_none (Nat.zero_le 4)).mpr hshort]
  · -- the header is there, and part of the payload
    obtain ⟨rest, rfl⟩ : leBytes 4 payload.length <+: part :=
      List.prefix_of_prefix_length_le (List.prefix_append _ _) hpart (by simp; omega)
    rw [nextFrame_of_announces (announces_frame hpayload hle _),
      (slice?_eq_none (Nat.le_add_left 4 _)).mpr (by omega)]

/-- The reading of a stream of frames, with a payload that does not decode as its only obstacle, is
clean. -/
lemma clean_of_frames {frames : List Bytes} (hframes : ∀ frame ∈ frames, IsFrame frame)
    (hsound : ∀ error, (frameReader.run () frames.flatten).ending ≠ .bad error) :
    (frameReader.run () frames.flatten).ending = .clean := by
  induction frames with
  | nil => simp
  | cons frame frames ih =>
    obtain ⟨payload, hpayload, hle, rfl⟩ := hframes frame List.mem_cons_self
    have hrest := fun other hother => hframes other (List.mem_cons_of_mem _ hother)
    have hnext := nextFrame_frame hpayload hle frames.flatten
    rw [← List.append_assoc, ← frameReader_next] at hnext
    rw [List.flatten_cons] at hsound ⊢
    have hne : leBytes 4 payload.length ++ payload ++ frames.flatten ≠ [] := by simp [hpayload]
    cases hdecode : decodeMessage payload with
    | error error =>
      rw [hdecode] at hnext
      exact absurd (by rw [run_of_bad hne hnext]) (hsound error)
    | ok message =>
      rw [hdecode] at hnext
      have hdrop : (leBytes 4 payload.length ++ payload ++ frames.flatten).drop
          (payload.length + 4) = frames.flatten := by
        rw [List.drop_append_of_le_length (by simp [Nat.add_comm]),
          List.drop_of_length_le (by simp [Nat.add_comm]), List.nil_append]
      rw [run_of_unit hnext, hdrop] at hsound ⊢
      exact ih hrest hsound

/-- What is read cleanly is a stream of frames. -/
lemma frames_of_clean {bytes : Bytes} (h : (frameReader.run () bytes).ending = .clean) :
    ∃ frames : List Bytes, (∀ frame ∈ frames, IsFrame frame) ∧ bytes = frames.flatten := by
  generalize () = state at h
  induction state, bytes using run_induction (R := frameReader) with
  | nil state => exact ⟨[], by simp, rfl⟩
  | more state bytes hne hmore => simp [run_of_more hne hmore] at h
  | bad state bytes error hne hbad => simp [run_of_bad hne hbad] at h
  | unit state bytes message n next hunit ih =>
    rw [run_of_unit hunit] at h
    obtain ⟨frames, hframes, hrest⟩ := ih h
    obtain ⟨length, payload, hannounces, rfl, hpayload, -⟩ := nextFrame_eq_unit.mp hunit
    obtain ⟨header, hheader, rfl, hpos, hle⟩ := hannounces
    have hlength : payload.length = leNat header := by
      rw [length_slice? hpayload]
      omega
    have hheaderLength : header.length = 4 := length_slice? hheader
    have hheaderBytes : header = leBytes 4 payload.length := by
      rw [hlength, ← hheaderLength, leBytes_leNat]
    refine ⟨(leBytes 4 payload.length ++ payload) :: frames, ?_, ?_⟩
    · intro frame hframe
      rcases List.mem_cons.mp hframe with rfl | hframe
      · exact ⟨payload, fun hnil => hpos (by rw [← hlength, hnil]; rfl), by omega, rfl⟩
      · exact hframes frame hframe
    · obtain ⟨-, -, htake⟩ := slice?_eq_some.mp hheader
      obtain ⟨-, -, hpart⟩ := slice?_eq_some.mp hpayload
      rw [List.flatten_cons, ← hrest, ← hheaderBytes]
      calc bytes = bytes.take 4 ++ bytes.drop 4 := (List.take_append_drop 4 bytes).symm
        _ = header ++ (payload ++ bytes.drop (leNat header + 4)) := by
          rw [hpart, slice_append_drop bytes (by omega), htake, List.drop_zero]
        _ = header ++ payload ++ bytes.drop (leNat header + 4) := (List.append_assoc ..).symm

/-- The bytes so far end at a frame boundary exactly when nothing is kept. -/
lemma FrameDecoder.Delivered.finish_iff {decoder : FrameDecoder} {received : Bytes}
    {messages : List Message} (h : Delivered decoder received messages) :
    decoder.finish = .ok ()
      ↔ ∃ frames : List Bytes, (∀ frame ∈ frames, IsFrame frame) ∧ received = frames.flatten := by
  have hle := consumed_le (R := frameReader) () received
  have hempty : decoder.finish = .ok () ↔ decoder.bytes = [] := by
    unfold finish
    split <;> simp_all
  have hclean : decoder.bytes = [] ↔ (frameReader.run () received).ending = .clean := by
    rw [clean_iff_consumed, h.bytes, List.drop_eq_nil_iff]
    omega
  rw [hempty, hclean]
  constructor
  · exact frames_of_clean
  · rintro ⟨frames, hframes, rfl⟩
    exact clean_of_frames hframes h.sound

omit [PostcardReader] in
lemma Message.payload_ne_nil (message : Message) : message.payload ≠ [] := by
  cases message <;> simp [Message.payload, Postcard.u32, Postcard.varint]

omit [PostcardReader] in
lemma encodeMessage_eq_ok {message : Message} {frame : Bytes} :
    encodeMessage message = .ok frame
      ↔ message.payload.length ≤ maxFrameBytes
        ∧ frame = leBytes 4 message.payload.length ++ message.payload := by
  unfold encodeMessage
  rw [guard_eq_ok, guard_eq_ok, pure_eq_ok]
  constructor
  · rintro ⟨hle, -, rfl⟩
    exact ⟨by omega, rfl⟩
  · rintro ⟨hle, rfl⟩
    have : maxFrameBytes < 2 ^ 32 := by decide
    exact ⟨by omega, by omega, rfl⟩

omit [PostcardReader] in
/-- Each message has its frame. -/
lemma forall_of_mapM_encodeMessage {messages : List Message} {frames : List Bytes}
    (h : messages.mapM encodeMessage = .ok frames) :
    List.Forall₂ (fun message frame => encodeMessage message = .ok frame) messages frames := by
  induction messages generalizing frames with
  | nil =>
    cases h
    exact .nil
  | cons message messages ih =>
    rw [List.mapM_cons] at h
    obtain ⟨frame, hframe, h⟩ := bind_eq_ok.mp h
    obtain ⟨later, hlater, h⟩ := bind_eq_ok.mp h
    cases h
    exact .cons hframe (ih hlater)

omit [PostcardReader] in
lemma isFrame_of_encoded {messages : List Message} {frames : List Bytes}
    (h : List.Forall₂ (fun message frame => encodeMessage message = .ok frame) messages frames) :
    ∀ frame ∈ frames, IsFrame frame := by
  induction h with
  | nil => simp
  | @cons message frame messages frames hframe _ ih =>
    obtain ⟨hle, rfl⟩ := encodeMessage_eq_ok.mp hframe
    exact List.forall_mem_cons.mpr ⟨⟨message.payload, message.payload_ne_nil, hle, rfl⟩, ih⟩

/-- The frames of messages that are read back are written units. -/
lemma writes_encoded {messages : List Message} {frames : List Bytes}
    (hframes : List.Forall₂ (fun message frame => encodeMessage message = .ok frame) messages frames)
    (hround : ∀ message ∈ messages,
      PostcardReader.takeMessage message.payload = .ok (message, [])) :
    Writes frameReader () (frames.zip messages) := by
  induction hframes with
  | nil => exact .nil ()
  | @cons message frame messages frames hframe _ ih =>
    obtain ⟨hle, rfl⟩ := encodeMessage_eq_ok.mp hframe
    have hdecode : decodeMessage message.payload = .ok message := by
      unfold decodeMessage
      rw [guard_eq_ok, hround message List.mem_cons_self]
      exact ⟨by omega, rfl⟩
    rw [List.zip_cons_cons]
    refine .cons ?_ ?_ (ih fun other hother => hround other (List.mem_cons_of_mem _ hother))
    · have hnext := nextFrame_frame message.payload_ne_nil hle []
      rw [List.append_nil, hdecode] at hnext
      rw [List.length_append, length_leBytes, Nat.add_comm]
      exact hnext
    · intro part hpart _ hcut
      exact nextFrame_cut message.payload_ne_nil hle hpart hcut

/-! ## The stream -/

/-- Exactly the messages whose frames have arrived completely have been handed out, in order. -/
def HandedOut (messages : List Message) (frames : List Bytes) (received : Bytes)
    (out : List Message) : Prop :=
  ∃ count ≤ messages.length, out = messages.take count
    ∧ ∀ i ≤ messages.length, i ≤ count ↔ (frames.take i).flatten.length ≤ received.length

omit [PostcardReader] in
lemma contents_zip {frames : List Bytes} {messages : List Message}
    (hlength : frames.length = messages.length) :
    contents (frames.zip messages) = frames.flatten := by
  rw [contents, List.flatMap_def, List.map_fst_zip (by omega)]

omit [PostcardReader] in
lemma take_zip (frames : List Bytes) (messages : List Message) (i : ℕ) :
    (frames.take i).zip (messages.take i) = (frames.zip messages).take i := by
  rw [List.zip_eq_zipWith, List.zip_eq_zipWith, List.take_zipWith]

/-- What is read from a beginning of the stream is what has arrived completely. -/
lemma handedOut_of_run {messages out : List Message} {frames : List Bytes} {received : Bytes}
    (hlength : frames.length = messages.length)
    (hwrites : Writes frameReader () (frames.zip messages)) (hstart : received <+: frames.flatten)
    (hout : out = (frameReader.run () received).units.map Prod.snd) :
    HandedOut messages frames received out := by
  obtain ⟨count, hcount, hwhole, -, harrived⟩ :=
    exists_whole received.length (frames.zip messages)
  have hzip : (frames.zip messages).length = messages.length := by simp [hlength]
  rw [hzip] at hcount harrived
  rw [← contents_zip hlength] at hstart
  refine ⟨count, hcount, ?_, fun i hi => ?_⟩
  · rw [hout, (run_of_writes hwrites hstart).1, hwhole, List.map_take,
      List.map_snd_zip (by omega)]
  · rw [harrived i hi, ← take_zip, contents_zip (by simp [hlength])]

/-- A beginning of the stream that is read cleanly consists of whole frames. -/
lemma boundary_of_clean {messages : List Message} {frames : List Bytes} {received : Bytes}
    (hlength : frames.length = messages.length)
    (hwrites : Writes frameReader () (frames.zip messages)) (hstart : received <+: frames.flatten)
    (hclean : (frameReader.run () received).ending = .clean) :
    ∃ i, received = (frames.take i).flatten := by
  obtain ⟨count, -, -, hconsumed, -⟩ := exists_whole received.length (frames.zip messages)
  rw [← take_zip, contents_zip (by simp [hlength])] at hconsumed
  have hwhole := (clean_iff_consumed () received).mp hclean
  have hcontents := hstart
  rw [← contents_zip hlength] at hcontents
  rw [(run_of_writes hwrites hcontents).2.1, hconsumed] at hwhole
  refine ⟨count, ?_⟩
  have htake : (frames.take count).flatten <+: frames.flatten := by
    conv_rhs => rw [← List.take_append_drop count frames, List.flatten_append]
    exact List.prefix_append _ _
  have hle := List.prefix_of_prefix_length_le hstart htake (by omega)
  exact hle.eq_of_length hwhole.symm

/-- However a stream of encoded messages is cut into chunks, the decoder hands out each message with
the chunk that completes its frame, and it is at rest exactly at the frame boundaries. Whatever the
bytes are, it never keeps more than the beginning of one frame. -/
theorem framing_ignores_fragmentation {messages : List Message} {frames : List Bytes}
    (hround : ∀ message ∈ messages,
      PostcardReader.takeMessage message.payload = .ok (message, []))
    (hframes : messages.mapM encodeMessage = .ok frames) :
    (∀ chunks : List Bytes, (∀ chunk ∈ chunks, chunk.length ≤ maxFrameBytes)
      → chunks.flatten <+: frames.flatten
      → ∃ outs decoder, (FrameDecoder.pushAll chunks).exec {} = (.ok outs, decoder)
        ∧ (∀ k, HandedOut messages frames (chunks.take k).flatten (outs.take k).flatten)
        ∧ (decoder.finish = .ok () ↔ ∃ i, chunks.flatten = (frames.take i).flatten)
        ∧ (chunks.flatten = frames.flatten → outs.flatten = messages))
    ∧ (∀ chunks outs decoder, (FrameDecoder.pushAll chunks).exec {} = (.ok outs, decoder)
      → (decoder.finish = .ok () ↔ ∃ frames : List Bytes, (∀ frame ∈ frames, IsFrame frame)
        ∧ chunks.flatten = frames.flatten))
    ∧ ∀ decoder chunk out decoder', (FrameDecoder.push chunk).exec decoder = (.ok out, decoder')
      → decoder'.bytes.length < maxFrameBytes + 4 := by
  refine ⟨fun chunks hchunks hstart => ?_, fun chunks outs decoder hpush => ?_,
    fun decoder chunk out decoder' hpush => FrameDecoder.length_lt_of_push hpush⟩
  · have hencoded := forall_of_mapM_encodeMessage hframes
    have hlength : frames.length = messages.length := hencoded.length_eq.symm
    have hwrites := writes_encoded hencoded hround
    have hpart : ∀ k, (chunks.take k).flatten <+: frames.flatten := by
      intro k
      refine List.IsPrefix.trans ?_ hstart
      conv_rhs => rw [← List.take_append_drop k chunks, List.flatten_append]
      exact List.prefix_append _ _
    have hsound : ∀ k error, (frameReader.run () ([] ++ (chunks.take k).flatten)).ending
        ≠ .bad error := by
      intro k error
      have hcontents := hpart k
      rw [← contents_zip hlength] at hcontents
      rw [List.nil_append, (run_of_writes hwrites hcontents).2.2]
      split <;> simp
    obtain ⟨outs, decoder, hpush, hdelivered, htakes⟩ :=
      FrameDecoder.delivered_nil.pushAll hchunks hsound
    rw [List.nil_append, List.nil_append] at hdelivered
    refine ⟨outs, decoder, hpush, fun k => ?_, ?_, fun hall => ?_⟩
    · have hout := htakes k
      rw [List.nil_append, List.nil_append] at hout
      exact handedOut_of_run hlength hwrites (hpart k) hout
    · rw [hdelivered.finish_iff]
      constructor
      · rintro ⟨others, hothers, hflatten⟩
        have hclean := clean_of_frames hothers (by rw [← hflatten]; exact hdelivered.sound)
        rw [← hflatten] at hclean
        exact boundary_of_clean hlength hwrites hstart hclean
      · rintro ⟨i, hi⟩
        exact ⟨frames.take i, fun frame hframe =>
          isFrame_of_encoded hencoded frame (List.mem_of_mem_take hframe), hi⟩
    · obtain ⟨count, hcount, hout, harrived⟩ :=
        handedOut_of_run hlength hwrites hstart hdelivered.messages
      have hlast : messages.length ≤ count := by
        rw [harrived _ (Nat.le_refl _), ← hlength, List.take_length, hall]
      rw [hout, List.take_of_length_le hlast]
  · have hdelivered := FrameDecoder.delivered_nil.of_pushAll hpush
    rw [List.nil_append] at hdelivered
    exact hdelivered.finish_iff

section Witness

omit [PostcardReader]

/-- The serialization library on confirmations of a small position. -/
@[reducible] def positionReader : PostcardReader where
  takeMessage
    | 7 :: position :: rest =>
      if position < 128 then .ok (.checked position.toNat, rest)
      else .error ⟨"unexpected end of input"⟩
    | _ => .error ⟨"unexpected end of input"⟩

/-- Two frames in three chunks, cut in a header, behind a header and in a payload. -/
theorem framing_ignores_fragmentation_positions :
    ∃ outs decoder, (@FrameDecoder.pushAll positionReader
        [[2, 0], [0, 0, 7, 5, 2, 0, 0, 0], [7, 6]]).exec {} = (.ok outs, decoder)
      ∧ outs.flatten = [.checked 5, .checked 6] := by
  have hall := @framing_ignores_fragmentation positionReader [.checked 5, .checked 6]
    [[2, 0, 0, 0, 7, 5], [2, 0, 0, 0, 7, 6]] (by decide) (by rfl)
  obtain ⟨outs, decoder, hpush, -, -, hmessages⟩ :=
    hall.1 [[2, 0], [0, 0, 7, 5, 2, 0, 0, 0], [7, 6]] (by decide) (by decide)
  exact ⟨outs, decoder, hpush, hmessages (by decide)⟩

end Witness

end EditChain.Sync
