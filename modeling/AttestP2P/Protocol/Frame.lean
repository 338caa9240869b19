import AttestP2P.Config
import AttestP2P.Lib.Framing

/-!
# Length-prefixed frames

`src/protocol/frame.js`: a session sends each message as

    len(4) | payload(len)

and `FrameDecoder` cuts the stream of received chunks into frames again.

The decoder keeps what it has received and not cut off yet.  A chunk is put behind it, and then
frames are cut off as long as there are complete ones.  A length that is above the bound of the
decoder throws, and the frames of this chunk that came before it are lost with it: `push` returns
all of its payloads or none.  The buffer stays as it was when the exception was thrown.

One step of that loop is `cutFrame`, and `frameCutter` is an instance of `Lib.Framing`, whose
lemmas say how a stream splits.  So `push` is what the library says of the buffered bytes, by
`push_of_valid` and `push_of_malformed`, and nothing after this module unfolds the loop.
-/

set_option autoImplicit false

namespace AttestP2P

open Buffer

/-- `encodeFrame`; `writeUInt32BE` throws on a length that does not fit. -/
def encodeFrame (body : Buffer) : Except String Buffer :=
  if body.length < 2 ^ 32 then .ok (uint32BE body.length ++ body) else .error "ERR_OUT_OF_RANGE"

/-- The bytes of a frame: the length of the body in four bytes, and the body. -/
def frameBytes (body : Buffer) : Buffer := uint32BE body.length ++ body

/-- One turn of the loop of `push`: wait for more, refuse a length beyond the maximum, or cut off a
frame. -/
def cutFrame (max : ℕ) (buf : Buffer) : Cut String :=
  if buf.length < 4 then .more
  else
    let len := buf.readUInt32BE 0
    if len > max then
      .bad ("Frame trop grande (" ++ toString len ++ " > " ++ toString max ++ ")")
    else if buf.length < 4 + len then .more
    else .item (4 + len)

theorem cutFrame_of_le {max : ℕ} {buf : Buffer} (h : 4 ≤ buf.length) :
    cutFrame max buf =
      if buf.readUInt32BE 0 > max then
        .bad
          ("Frame trop grande (" ++ toString (buf.readUInt32BE 0) ++ " > " ++ toString max ++ ")")
      else if buf.length < 4 + buf.readUInt32BE 0 then .more
      else .item (4 + buf.readUInt32BE 0) := by
  rw [cutFrame, if_neg (by omega)]

theorem four_le_of_cutFrame {max : ℕ} {buf : Buffer} (h : cutFrame max buf ≠ .more) :
    4 ≤ buf.length := by
  by_contra hlt
  exact h (by rw [cutFrame, if_pos (by omega)])

/-- All that it takes for a frame to be complete. -/
theorem cutFrame_eq_item {max : ℕ} {buf : Buffer} {n : ℕ} :
    cutFrame max buf = .item n ↔
      4 ≤ buf.length ∧ buf.readUInt32BE 0 ≤ max ∧ n = 4 + buf.readUInt32BE 0 ∧ n ≤ buf.length := by
  refine ⟨fun h ↦ ?_, fun ⟨hlen, hmax, hn, hle⟩ ↦ ?_⟩
  · have hlen := four_le_of_cutFrame (by rw [h]; simp : cutFrame max buf ≠ .more)
    rw [cutFrame_of_le hlen] at h
    split at h
    · cases h
    · split at h
      · cases h
      · obtain rfl := Cut.item.inj h
        exact ⟨hlen, by omega, rfl, by omega⟩
  · rw [cutFrame_of_le hlen, if_neg (by omega), if_neg (by omega), hn]

/-- The frame format, as a decoder of streams. -/
def frameCutter (max : ℕ) : Cutter UInt8 String where
  cut := cutFrame max
  item_pos h := by
    have hn := (cutFrame_eq_item.mp h).2.2.1
    omega
  item_le h := (cutFrame_eq_item.mp h).2.2.2
  item_append c h := by
    obtain ⟨hlen, hmax, hn, hle⟩ := cutFrame_eq_item.mp h
    rw [cutFrame_eq_item, readUInt32BE_append_left c hlen, List.length_append]
    exact ⟨by omega, hmax, hn, by omega⟩
  item_take {b n} h := by
    obtain ⟨hlen, hmax, hn, hle⟩ := cutFrame_eq_item.mp h
    have htake : (b.take n).length = n := List.length_take_of_le hle
    rw [← List.take_append_drop n b, readUInt32BE_append_left _ (by omega)] at hmax hn
    exact cutFrame_eq_item.mpr ⟨by omega, hmax, hn, htake.ge⟩
  bad_append {b e} c h := by
    have hlen := four_le_of_cutFrame (by rw [h]; simp : cutFrame max b ≠ .more)
    rw [cutFrame_of_le hlen] at h
    rw [cutFrame_of_le (by rw [List.length_append]; omega), readUInt32BE_append_left c hlen]
    split at h
    · next hmax => rw [if_pos hmax, h]
    · split at h <;> cases h

/-- The fields of a `FrameDecoder`: the maximum, and the bytes that make no frame yet. -/
structure FrameDecoder where
  max : ℕ
  buf : Buffer

namespace FrameDecoder

/-- `push`: the decoder afterwards, and the payloads of the complete frames.  When it throws, the
buffer starts with the header of the frame that is too large. -/
def push (d : FrameDecoder) (chunk : Buffer) : FrameDecoder × Except String (List Buffer) :=
  let s := (frameCutter d.max).split (d.buf ++ chunk)
  ({ d with buf := s.2 },
    match cutFrame d.max s.2 with
    | .bad e => .error e
    | _ => .ok (s.1.map fun frame ↦ frame.drop 4))

section
variable {d : FrameDecoder} {chunk : Buffer}

theorem push_of_malformed {e : String}
    (h : (frameCutter d.max).malformed ((frameCutter d.max).split (d.buf ++ chunk)).2 = some e) :
    d.push chunk =
      ({ d with buf := ((frameCutter d.max).split (d.buf ++ chunk)).2 }, .error e) := by
  have hcut : cutFrame d.max ((frameCutter d.max).split (d.buf ++ chunk)).2 = .bad e :=
    Cutter.malformed_eq_some.mp h
  simp only [push, hcut]

theorem push_of_valid
    (h : (frameCutter d.max).malformed ((frameCutter d.max).split (d.buf ++ chunk)).2 = none) :
    d.push chunk = ({ d with buf := ((frameCutter d.max).split (d.buf ++ chunk)).2 },
      .ok (((frameCutter d.max).split (d.buf ++ chunk)).1.map fun frame ↦ frame.drop 4)) := by
  have hcut : cutFrame d.max ((frameCutter d.max).split (d.buf ++ chunk)).2 = .more :=
    Cutter.cut_rest_of_not_malformed h
  simp only [push, hcut]

end

end FrameDecoder

/-! ## Streams of frames -/

theorem encodeFrame_eq_ok {body : Buffer} (h : body.length < 2 ^ 32) :
    encodeFrame body = .ok (frameBytes body) := by
  rw [encodeFrame, if_pos h, frameBytes]

theorem drop_frameBytes (body : Buffer) : (frameBytes body).drop 4 = body :=
  List.drop_left' (length_uint32BE _)

theorem complete_frameBytes {max : ℕ} {body : Buffer} (hmax : body.length ≤ max)
    (h : body.length < 2 ^ 32) : (frameCutter max).Complete (frameBytes body) := by
  have hlen : (frameBytes body).length = 4 + body.length := by
    rw [frameBytes, List.length_append, length_uint32BE]
  have hread : (frameBytes body).readUInt32BE 0 = body.length := readUInt32BE_append (a := []) rfl h
  show cutFrame max (frameBytes body) = .item (frameBytes body).length
  rw [cutFrame_eq_item, hread]
  exact ⟨by omega, hmax, hlen, le_rfl⟩

/-- **A decoder on part of a stream of frames** returns the frames that are complete and never
throws: what it returns, what it keeps and what is still to come make up the stream. -/
theorem push_of_stream {d : FrameDecoder} {chunk later : Buffer} {frames : List Buffer}
    (hmax : ∀ f ∈ frames, f.length ≤ d.max) (hd : d.max < 2 ^ 32)
    (hstream : d.buf ++ (chunk ++ later) = (frames.map frameBytes).flatten) :
    ∃ now rest d', d.push chunk = (d', .ok now) ∧ d'.max = d.max ∧ frames = now ++ rest ∧
      d'.buf ++ later = (rest.map frameBytes).flatten := by
  have hcomplete : ∀ x ∈ frames.map frameBytes, (frameCutter d.max).Complete x := by
    intro x hx
    obtain ⟨f, hf, rfl⟩ := List.mem_map.mp hx
    exact complete_frameBytes (hmax f hf) (by have := hmax f hf; omega)
  rw [← List.append_assoc] at hstream
  obtain ⟨zs, hzs, hrest⟩ := Cutter.split_prefix hcomplete hstream
  obtain ⟨now, rest, rfl, hnow, rfl⟩ := List.map_eq_append_iff.mp hzs
  have hpayloads : ((frameCutter d.max).split (d.buf ++ chunk)).1.map (fun f ↦ f.drop 4) = now := by
    rw [← hnow, List.map_map]
    exact (List.map_congr_left fun f _ ↦ drop_frameBytes f).trans (List.map_id now)
  refine ⟨now, rest, ⟨d.max, ((frameCutter d.max).split (d.buf ++ chunk)).2⟩, ?_, rfl, rfl, ?_⟩
  · have hmore : cutFrame d.max ((frameCutter d.max).split (d.buf ++ chunk)).2 = .more := by
      rcases hrest with ⟨hnil, -⟩ | ⟨z, zs', c, hz, hne, hc, -⟩
      · rw [hnil]
        rfl
      · refine (hcomplete z ?_).cut_of_append hc hne
        rw [List.map_append, hz]
        exact List.mem_append_right _ List.mem_cons_self
    rw [FrameDecoder.push]
    simp only [hmore, hpayloads]
  · rcases hrest with ⟨hnil, hlater⟩ | ⟨z, zs', c, hz, -, hc, hlater⟩
    · rw [hnil, hlater]
      rfl
    · rw [hlater, ← List.append_assoc, hc, hz, List.flatten_cons]

end AttestP2P
