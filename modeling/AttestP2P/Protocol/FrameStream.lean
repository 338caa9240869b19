import AttestP2P.Protocol.Frame

/-!
# A stream of frames

A `FrameDecoder` fed with a stream, chunk by chunk, however it is cut.  TCP promises the order of
the bytes and nothing about where one chunk ends and the next one begins, so whatever the decoder
returns had better be a matter of the bytes alone.

It is, with one exception that concerns errors: a chunk that makes `push` throw takes with it the
frames that are complete in the same chunk, and which these are depends on the cuts.  Therefore the
two cases are apart.

* `pushAll_of_valid`: a stream without a malformed header is cut in one way only, and all of its
  payloads are returned.
* `pushAll_of_malformed`: a stream with one makes the decoder throw, sooner or later.
* `frame_codec_round_trip`: what `encodeFrame` wrote is returned, and what is returned and kept is
  what was fed in.
-/

set_option autoImplicit false

namespace AttestP2P

open Buffer

namespace FrameDecoder

/-- `new FrameDecoder(max)`, with an empty buffer. -/
def new (max : ℕ) : FrameDecoder := ⟨max, []⟩

/-- The decoder after some chunks, and all the payloads it has returned; it is not used any more
when it throws. -/
def pushAll (d : FrameDecoder) : List Buffer → FrameDecoder × Except String (List Buffer)
  | [] => (d, .ok [])
  | c :: cs =>
    match d.push c with
    | (d, .error e) => (d, .error e)
    | (d, .ok now) =>
      let r := pushAll d cs
      (r.1, r.2.map fun later ↦ now ++ later)

variable {d : FrameDecoder}

/-- The first chunk, and the others after it: their frames follow one another. -/
theorem pushAll_cons_eq_ok {c : Buffer} {cs frames : List Buffer} {d' : FrameDecoder}
    (h : d.pushAll (c :: cs) = (d', .ok frames)) :
    ∃ d₁ now later, d.push c = (d₁, .ok now) ∧ d₁.pushAll cs = (d', .ok later) ∧
      frames = now ++ later := by
  rw [pushAll] at h
  cases hpush : d.push c with
  | mk d₁ r =>
    rw [hpush] at h
    cases r with
    | error e => exact nomatch (Prod.mk.inj h).2
    | ok now =>
      dsimp only at h
      cases hrest : d₁.pushAll cs with
      | mk d₂ r =>
        rw [hrest] at h
        cases r with
        | error e => exact nomatch (Prod.mk.inj h).2
        | ok later =>
          obtain ⟨rfl, hframes⟩ := Prod.mk.inj h
          exact ⟨d₁, now, later, rfl, hrest, (Except.ok.inj hframes).symm⟩

/-- **Cutting a stream into chunks makes no difference** as long as it is well formed. -/
theorem pushAll_of_valid (hd : cutFrame d.max d.buf = .more) {cs : List Buffer}
    (h : (frameCutter d.max).malformed ((frameCutter d.max).split (d.buf ++ cs.flatten)).2 = none) :
    d.pushAll cs = (⟨d.max, ((frameCutter d.max).split (d.buf ++ cs.flatten)).2⟩,
      .ok (((frameCutter d.max).split (d.buf ++ cs.flatten)).1.map fun f ↦ f.drop 4)) := by
  induction cs generalizing d with
  | nil =>
    have hsplit : (frameCutter d.max).split d.buf = ([], d.buf) := Cutter.split_of_more hd
    rw [List.flatten_nil, List.append_nil, hsplit]
    rfl
  | cons c cs ih =>
    rw [List.flatten_cons, ← List.append_assoc] at h ⊢
    have hnow := Cutter.malformed_of_append h
    rw [Cutter.split_append] at h ⊢
    have hlater := ih (d := ⟨d.max, ((frameCutter d.max).split (d.buf ++ c)).2⟩)
      (Cutter.cut_rest_of_not_malformed hnow) h
    rw [pushAll, push_of_valid hnow]
    dsimp only at hlater ⊢
    rw [hlater, List.map_append]
    rfl

theorem pushAll_of_malformed (hd : cutFrame d.max d.buf = .more) {cs : List Buffer} {e : String}
    (h : (frameCutter d.max).malformed ((frameCutter d.max).split (d.buf ++ cs.flatten)).2 =
      some e) : (d.pushAll cs).2 = .error e := by
  induction cs generalizing d with
  | nil =>
    have hsplit : (frameCutter d.max).split d.buf = ([], d.buf) := Cutter.split_of_more hd
    rw [List.flatten_nil, List.append_nil, hsplit, Cutter.malformed_eq_some] at h
    exact absurd (hd.symm.trans h) nofun
  | cons c cs ih =>
    rw [List.flatten_cons, ← List.append_assoc] at h
    rw [pushAll]
    cases hnow : (frameCutter d.max).malformed ((frameCutter d.max).split (d.buf ++ c)).2 with
    | some e' =>
      -- what comes later does not mend the buffer
      rw [Cutter.malformed_append hnow] at h
      rw [push_of_malformed hnow, Option.some.inj h]
    | none =>
      rw [Cutter.split_append] at h
      have hlater := ih (d := ⟨d.max, ((frameCutter d.max).split (d.buf ++ c)).2⟩)
        (Cutter.cut_rest_of_not_malformed hnow) h
      rw [push_of_valid hnow]
      dsimp only at hlater ⊢
      rw [hlater]
      rfl

end FrameDecoder

/-! ## Complete frames -/

/-- A frame that is complete is what `encodeFrame` makes of its payload. -/
theorem encodeFrame_drop {max : ℕ} {frame : Buffer} (h : (frameCutter max).Complete frame) :
    encodeFrame (frame.drop 4) = .ok frame := by
  obtain ⟨hlen, -, hn, -⟩ := cutFrame_eq_item.mp h
  have htake : (frame.take 4).length = 4 := List.length_take_of_le hlen
  have hread : frame.readUInt32BE 0 = BigEndian.ofBE (frame.take 4) := rfl
  have hlt : frame.readUInt32BE 0 < 2 ^ 32 := by
    have hbound := BigEndian.ofBE_lt (frame.take 4)
    rw [htake] at hbound
    rw [hread]
    exact hbound
  have hpayload : (frame.drop 4).length = frame.readUInt32BE 0 := by
    rw [List.length_drop]
    omega
  have hheader : uint32BE (frame.readUInt32BE 0) = frame.take 4 := by
    have hback := BigEndian.toBE_ofBE (frame.take 4)
    rw [htake] at hback
    rw [hread]
    exact hback
  rw [encodeFrame_eq_ok (hpayload ▸ hlt), frameBytes, hpayload, hheader, List.take_append_drop]

/-- What needs more input is shorter than the longest frame. -/
theorem length_of_more {max : ℕ} {buf : Buffer} (h : cutFrame max buf = .more) :
    buf.length < 4 + max := by
  by_cases hlen : buf.length < 4
  · omega
  · rw [cutFrame_of_le (by omega)] at h
    split at h
    · cases h
    · next hmax =>
      split at h
      · next hshort => omega
      · cases h

/-! ## Round trips -/

theorem frameBytes_of_encodeFrame {body bytes : Buffer} (h : encodeFrame body = .ok bytes) :
    body.length < 2 ^ 32 ∧ bytes = frameBytes body := by
  rw [encodeFrame] at h
  split at h
  · next hlen => exact ⟨hlen, (Except.ok.inj h).symm⟩
  · cases h

theorem frameBytes_of_mapM {payloads encoded : List Buffer}
    (h : payloads.mapM encodeFrame = .ok encoded) :
    (∀ p ∈ payloads, p.length < 2 ^ 32) ∧ encoded = payloads.map frameBytes := by
  induction payloads generalizing encoded with
  | nil =>
    obtain rfl := Except.ok.inj h
    exact ⟨by simp, rfl⟩
  | cons p payloads ih =>
    rw [List.mapM_cons] at h
    cases hp : encodeFrame p with
    | error e =>
      rw [hp] at h
      cases h
    | ok bytes =>
      cases hps : payloads.mapM encodeFrame with
      | error e =>
        rw [hp, hps] at h
        cases h
      | ok rest =>
        rw [hp, hps] at h
        obtain rfl := Except.ok.inj h
        obtain ⟨hlen, rfl⟩ := frameBytes_of_encodeFrame hp
        obtain ⟨hlens, rfl⟩ := ih hps
        exact ⟨List.forall_mem_cons.mpr ⟨hlen, hlens⟩, rfl⟩

/-- Complete frames are encoded again from their payloads, to the same bytes. -/
theorem mapM_encodeFrame_drop {max : ℕ} {frames : List Buffer}
    (h : ∀ f ∈ frames, (frameCutter max).Complete f) :
    (frames.map fun f ↦ f.drop 4).mapM encodeFrame = .ok frames := by
  induction frames with
  | nil => rfl
  | cons f frames ih =>
    rw [List.map_cons, List.mapM_cons, encodeFrame_drop (h f List.mem_cons_self),
      ih fun g hg ↦ h g (List.mem_cons_of_mem f hg)]
    rfl

/-- Encoded payloads and part of one more are decoded, and the part is kept. -/
theorem pushAll_encoded {max : ℕ} {payloads encoded : List Buffer} {last bytes part : Buffer}
    {chunks : List Buffer} (hmax : ∀ p ∈ payloads, p.length ≤ max)
    (hencoded : payloads.mapM encodeFrame = .ok encoded) (hlast : last.length ≤ max)
    (hbytes : encodeFrame last = .ok bytes) (hpart : part <+: bytes) (hstrict : part ≠ bytes)
    (hchunks : chunks.flatten = encoded.flatten ++ part) :
    (FrameDecoder.new max).pushAll chunks = (⟨max, part⟩, .ok payloads) := by
  obtain ⟨hlens, rfl⟩ := frameBytes_of_mapM hencoded
  obtain ⟨hlen, rfl⟩ := frameBytes_of_encodeFrame hbytes
  obtain ⟨c, hc⟩ := hpart
  have hne : c ≠ [] := by
    rintro rfl
    exact hstrict (by rw [← hc, List.append_nil])
  have hmore : (frameCutter max).cut part = .more :=
    (complete_frameBytes hlast hlen).cut_of_append hc hne
  have hcomplete : ∀ x ∈ payloads.map frameBytes, (frameCutter max).Complete x := by
    intro x hx
    obtain ⟨p, hp, rfl⟩ := List.mem_map.mp hx
    exact complete_frameBytes (hmax p hp) (hlens p hp)
  have hsplit : (frameCutter max).split ([] ++ chunks.flatten) =
      (payloads.map frameBytes, part) := by
    rw [List.nil_append, hchunks, Cutter.split_flatten_append hcomplete,
      Cutter.split_of_more hmore, List.append_nil]
  have hpayloads : (payloads.map frameBytes).map (fun f ↦ f.drop 4) = payloads := by
    rw [List.map_map]
    exact (List.map_congr_left fun p _ ↦ drop_frameBytes p).trans (List.map_id payloads)
  have hvalid : (frameCutter max).malformed ((frameCutter max).split ([] ++ chunks.flatten)).2 =
      none := by
    rw [hsplit, Cutter.malformed, hmore]
  rw [FrameDecoder.pushAll_of_valid (d := .new max) rfl hvalid]
  show (FrameDecoder.mk max ((frameCutter max).split ([] ++ chunks.flatten)).2,
    Except.ok (((frameCutter max).split ([] ++ chunks.flatten)).1.map _)) = _
  rw [hsplit, hpayloads]

/-- What a decoder returns and keeps is what it was fed with. -/
theorem encoded_pushAll {max : ℕ} {chunks : List Buffer} {d : FrameDecoder} {frames : List Buffer}
    (h : (FrameDecoder.new max).pushAll chunks = (d, .ok frames)) :
    (∃ encoded, frames.mapM encodeFrame = .ok encoded ∧
      encoded.flatten ++ d.buf = chunks.flatten) ∧ d.buf.length < 4 + max := by
  have hfresh : cutFrame (FrameDecoder.new max).max (FrameDecoder.new max).buf = .more := rfl
  cases hbad : (frameCutter max).malformed ((frameCutter max).split ([] ++ chunks.flatten)).2 with
  | some e =>
    have hthrow := FrameDecoder.pushAll_of_malformed hfresh hbad
    rw [h] at hthrow
    cases hthrow
  | none =>
    rw [FrameDecoder.pushAll_of_valid hfresh hbad, Prod.mk.injEq, Except.ok.injEq] at h
    obtain ⟨rfl, rfl⟩ := h
    refine ⟨⟨_, mapM_encodeFrame_drop fun f hf ↦ Cutter.complete_of_mem_split hf, ?_⟩, ?_⟩
    · exact Cutter.flatten_split _
    · exact length_of_more (Cutter.cut_rest_of_not_malformed hbad)

/-- **The round trip of the frame codec.**  Feeding a fresh decoder with the encodings of some
payloads and part of one more returns the payloads, and keeps the part; and whatever a decoder is
fed with, if it does not throw, then the encodings of what it returns, followed by what it keeps,
are what it was fed with, and it keeps less than a frame. -/
theorem frame_codec_round_trip (max : ℕ) :
    (∀ (payloads encoded : List Buffer) (last bytes part : Buffer) (chunks : List Buffer),
      (∀ p ∈ payloads, p.length ≤ max) → payloads.mapM encodeFrame = .ok encoded →
      last.length ≤ max → encodeFrame last = .ok bytes → part <+: bytes → part ≠ bytes →
      chunks.flatten = encoded.flatten ++ part →
      (FrameDecoder.new max).pushAll chunks = (⟨max, part⟩, .ok payloads)) ∧
    ∀ (chunks : List Buffer) (d : FrameDecoder) (frames : List Buffer),
      (FrameDecoder.new max).pushAll chunks = (d, .ok frames) →
      (∃ encoded, frames.mapM encodeFrame = .ok encoded ∧
          encoded.flatten ++ d.buf = chunks.flatten) ∧ d.buf.length < 4 + max :=
  ⟨fun _ _ _ _ _ _ hmax hencoded hlast hbytes hpart hstrict hchunks ↦
    pushAll_encoded hmax hencoded hlast hbytes hpart hstrict hchunks,
    fun _ _ _ h ↦ encoded_pushAll h⟩

theorem frame_codec_round_trip_sample :
    (FrameDecoder.new 4).pushAll [[0, 0], [0, 2, 1, 2, 0, 0, 0, 0], [], [0, 0, 0]] =
        (⟨4, [0, 0, 0]⟩, .ok [[1, 2], []]) ∧
      (∃ encoded, [[1, 2], []].mapM encodeFrame = .ok encoded ∧
        encoded.flatten ++ [0, 0, 0] =
          [[0, 0], [0, 2, 1, 2, 0, 0, 0, 0], [], [0, 0, 0]].flatten) ∧
      ([0, 0, 0] : Buffer).length < 4 + 4 := by
  have hdecode := (frame_codec_round_trip 4).1 [[1, 2], []] [[0, 0, 0, 2, 1, 2], [0, 0, 0, 0]] [7]
    [0, 0, 0, 1, 7] [0, 0, 0] [[0, 0], [0, 2, 1, 2, 0, 0, 0, 0], [], [0, 0, 0]] (by decide) rfl
    (by decide) rfl (by decide) (by decide) rfl
  exact ⟨hdecode, (frame_codec_round_trip 4).2 _ _ _ hdecode⟩

end AttestP2P
