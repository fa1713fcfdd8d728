import Mathlib.Data.List.Induction
import Topia.Common

/-!
# Frames of the RPC protocol

`EncodeMessage`, `DecodeMessage` and `IODecodeMessage` of `api/rpc/protocol.go`.  The sizes of the
parts are `uint32`, and so are the sums of the decoder.  A slice of Go reaches up to the capacity:
`spare` is what stands in the array behind the data.  `none` is a panic.
-/

namespace Topia.Rpc.Protocol

open List Option

def StartCipher : UInt8 := 0x05
def HeadSize : Nat := 21

structure Header where
  Sc : UInt8
  RequestIdSize : Nat
  MethodNameSize : Nat
  AuthCodeSize : Nat
  ErrMsgSize : Nat
  PayloadSize : Nat

def Header.Sized (h : Header) : Prop :=
  h.RequestIdSize < 2 ^ 32 ∧ h.MethodNameSize < 2 ^ 32 ∧ h.AuthCodeSize < 2 ^ 32 ∧
    h.ErrMsgSize < 2 ^ 32 ∧ h.PayloadSize < 2 ^ 32

variable (E : Type) (buf : Bytes) (st size : Nat)

structure Parts where
  MsgType : UInt8
  RequestId : Bytes
  MethodName : Bytes
  AuthCode : Bytes
  ErrMsg : E
  Payload : Bytes

structure Message extends Parts E where
  Header : Header

inductive DecodeError where
  | read
  | wrongStartCipher
  | json

abbrev Decoded := ExceptT DecodeError Option

def putUint32 (n : Nat) : Bytes := [n / 2 ^ 24, n / 2 ^ 16, n / 2 ^ 8, n].map UInt8.ofNat

def slice : Bytes := (buf.drop st).take size

def headerOf : Header :=
  let size (i : Nat) := setBytes (slice buf i 4)
  ⟨StartCipher, size 1, size 5, size 9, size 13, size 17⟩

def DecodeHeader (data spare : Bytes) : Decoded Header :=
  match data.head? with
  | none => none
  | some sc =>
    if sc ≠ StartCipher then some (.error .wrongStartCipher)
    else if (data ++ spare).length < HeadSize then none
    else some (.ok (headerOf (data ++ spare)))

def part : Option (Bytes × Nat) :=
  let endI := (st + size) % 2 ^ 32
  if st ≤ endI ∧ endI ≤ buf.length then some (slice buf st (endI - st), endI) else none

namespace Header

variable (h : Header) (base : Nat)

/-- Where the error record and the payload begin, and where the payload ends, without a wrap. -/
def errMsgStart : Nat := base + 1 + h.RequestIdSize + h.MethodNameSize + h.AuthCodeSize
def payloadStart : Nat := h.errMsgStart base + h.ErrMsgSize
def finish : Nat := h.payloadStart base + h.PayloadSize

def bodyLen : Nat := h.finish 0 % 2 ^ 32

theorem finish_eq : h.finish base = base + 1 + h.RequestIdSize + h.MethodNameSize +
    h.AuthCodeSize + h.ErrMsgSize + h.PayloadSize := rfl

theorem lt_finish : base < h.finish base := by
  rw [finish_eq]
  omega

theorem finish_add (n : Nat) : h.finish (n + base) = n + h.finish base := by
  rw [finish_eq, finish_eq]
  omega

end Header

variable {E : Type}

section Decode

variable (unmarshal : Bytes → Option E)

def DecodeMessageV2 (data spare : Bytes) (header : Header) (headSize : Nat) :
    Decoded (Message E) := show Option _ from do
  let msgType ← data[headSize]?
  let (requestId, st) ← part (data ++ spare) (headSize + 1) header.RequestIdSize
  let (methodName, st) ← part (data ++ spare) st header.MethodNameSize
  let (authCode, st) ← part (data ++ spare) st header.AuthCodeSize
  let (errMsgBytes, st) ← part (data ++ spare) st header.ErrMsgSize
  match unmarshal errMsgBytes with
  | none => some (.error .json)
  | some errMsg => do
    let (payload, _) ← part (data ++ spare) st header.PayloadSize
    some (.ok ⟨⟨msgType, requestId, methodName, authCode, errMsg, payload⟩, header⟩)

def DecodeMessage (data spare : Bytes) : Decoded (Message E) := do
  let header ← DecodeHeader data spare
  DecodeMessageV2 unmarshal data spare header HeadSize

variable (buf r : Bytes) (base : Nat) (h : Header)

def readFull (n : Nat) : Decoded (Bytes × Bytes) :=
  if n ≤ r.length then some (.ok (r.take n, r.drop n)) else some (.error .read)

def IODecodeMessage : Decoded (Message E × Bytes) := do
  let (first, r) ← readFull r 1
  if first ≠ [StartCipher] then throw .wrongStartCipher
  let (others, r) ← readFull r (HeadSize - 1)
  let header ← DecodeHeader (first ++ others) []
  let (bodyData, r) ← readFull r header.bodyLen
  let m ← DecodeMessageV2 unmarshal bodyData [] header 0
  return (m, r)

/-- The message whose parts are the ranges behind `base` that the header describes. -/
def messageAt (errMsg : E) : Message E :=
  ⟨⟨buf.getD base 0, slice buf (base + 1) h.RequestIdSize,
    slice buf (base + 1 + h.RequestIdSize) h.MethodNameSize,
    slice buf (base + 1 + h.RequestIdSize + h.MethodNameSize) h.AuthCodeSize, errMsg,
    slice buf (h.payloadStart base) h.PayloadSize⟩, h⟩

/-- The data have all these ranges, and the parts of `m` are those. -/
def Exact (m : Message E) : Prop :=
  h.finish base ≤ buf.length ∧
    unmarshal (slice buf (h.errMsgStart base) h.ErrMsgSize) = some m.ErrMsg ∧
    m = messageAt buf base h m.ErrMsg

def DecodeRight (data spare : Bytes) : Prop :=
  ∃ result, DecodeMessage unmarshal data spare = some result ∧
    ∀ m, result = .ok m → Exact unmarshal data HeadSize (headerOf data) m

def IODecodeRight : Prop :=
  ∃ result, IODecodeMessage unmarshal r = some result ∧
    ∀ m rest, result = .ok (m, rest) → Exact unmarshal r HeadSize (headerOf r) m ∧
      rest = r.drop ((headerOf r).finish HeadSize)

end Decode

section Parts

variable {buf data spare : Bytes} {st size base : Nat} {h : Header}
  {unmarshal : Bytes → Option E}

/-- A part up to `endI` is inside the buffer, and its end does not wrap. -/
def Fits (buf : Bytes) (endI : Nat) : Prop := endI ≤ buf.length ∧ endI < 2 ^ 32

theorem part_some (hfits : Fits buf (st + size)) :
    part buf st size = some (slice buf st size, st + size) := by
  rw [part, Nat.mod_eq_of_lt hfits.2, if_pos ⟨Nat.le_add_right _ _, hfits.1⟩,
    Nat.add_sub_cancel_left]

theorem fits_of_part (hst : st < 2 ^ 32) (hsize : size < 2 ^ 32) {r : Bytes × Nat}
    (hpart : part buf st size = some r) :
    Fits buf (st + size) ∧ r = (slice buf st size, st + size) := by
  have hfits : Fits buf (st + size) := by
    by_contra hfits
    unfold Fits at hfits
    rw [part, if_neg (by omega)] at hpart
    cases hpart
  rw [part_some hfits] at hpart
  exact ⟨hfits, (some.inj hpart).symm⟩

theorem Fits.mono {m n : Nat} (hfits : Fits buf (m + n)) : Fits buf m :=
  ⟨Nat.le_of_add_right_le hfits.1, Nat.lt_of_add_right_lt hfits.2⟩

theorem DecodeMessageV2_eq (hbase : base < data.length)
    (hfits : Fits (data ++ spare) (h.payloadStart base)) :
    DecodeMessageV2 unmarshal data spare h base =
      match unmarshal (slice (data ++ spare) (h.errMsgStart base) h.ErrMsgSize) with
      | none => some (.error .json)
      | some errMsg => (part (data ++ spare) (h.payloadStart base) h.PayloadSize).bind fun p =>
          some (.ok { messageAt (data ++ spare) base h errMsg with Payload := p.1 }) := by
  have hE : Fits (data ++ spare)
      (base + 1 + h.RequestIdSize + h.MethodNameSize + h.AuthCodeSize + h.ErrMsgSize) := hfits
  have hA := hE.mono
  have hM := hA.mono
  have hmsgType : (data ++ spare).getD base 0 = data[base] := by
    simp [getD_eq_getElem?_getD, getElem?_append_left hbase, hbase]
  rw [DecodeMessageV2, getElem?_eq_getElem hbase]
  simp only [part_some hM.mono, part_some hM, part_some hA, part_some hE, bind_eq_bind,
    bind_some]
  rw [← hmsgType]
  rfl

theorem DecodeMessageV2_ok (hbase : base < data.length)
    (hfits : Fits (data ++ spare) (h.finish base)) {errMsg : E}
    (herr : unmarshal (slice (data ++ spare) (h.errMsgStart base) h.ErrMsgSize) = some errMsg) :
    DecodeMessageV2 unmarshal data spare h base =
      some (.ok (messageAt (data ++ spare) base h errMsg)) := by
  rw [DecodeMessageV2_eq hbase hfits.mono, herr]
  simp only [part_some hfits, bind_some]
  rfl

theorem fits_of_decode (hh : h.Sized) (hhead : base + 1 < 2 ^ 32)
    {d : Except DecodeError (Message E)}
    (hdecode : DecodeMessageV2 unmarshal data spare h base = some d) :
    base < data.length ∧ Fits (data ++ spare) (h.payloadStart base) := by
  obtain ⟨hR, hM, hA, hE, hP⟩ := hh
  obtain ⟨msgType, hmsgType, hdecode⟩ := bind_eq_some_iff.mp hdecode
  obtain ⟨_, hpart, hdecode⟩ := bind_eq_some_iff.mp hdecode
  obtain ⟨hfits, rfl⟩ := fits_of_part hhead hR hpart
  obtain ⟨_, hpart, hdecode⟩ := bind_eq_some_iff.mp hdecode
  obtain ⟨hfits, rfl⟩ := fits_of_part hfits.2 hM hpart
  obtain ⟨_, hpart, hdecode⟩ := bind_eq_some_iff.mp hdecode
  obtain ⟨hfits, rfl⟩ := fits_of_part hfits.2 hA hpart
  obtain ⟨_, hpart, hdecode⟩ := bind_eq_some_iff.mp hdecode
  exact ⟨(List.getElem?_eq_some_iff.mp hmsgType).1, (fits_of_part hfits.2 hE hpart).1⟩

end Parts

section Slices

variable {buf spare : Bytes} {st n : Nat}

theorem slice_append (hlen : st + n ≤ buf.length) :
    slice (buf ++ spare) st n = slice buf st n := by
  rw [slice, slice, drop_append_of_le_length (by omega),
    take_append_of_le_length (by rw [length_drop]; omega)]

theorem slice_behind (a b : Bytes) : slice (a ++ b) (a.length + st) n = slice b st n := by
  rw [slice, slice, drop_length_add_append]

theorem slice_at {a b c : Bytes} (hbuf : buf = a ++ (b ++ c)) (hst : st = a.length) :
    slice buf st b.length = b := by
  rw [hbuf, hst, ← Nat.add_zero a.length, slice_behind]
  exact take_left

theorem setBytes_append (b : Bytes) (x : UInt8) :
    setBytes (b ++ [x]) = setBytes b * 256 + x.toNat :=
  foldl_append

theorem setBytes_lt (b : Bytes) : setBytes b < 256 ^ b.length := by
  induction b using reverseRecOn with
  | nil => decide
  | append_singleton b x ih =>
    have hx := x.toNat_lt
    rw [setBytes_append, length_append, length_singleton, Nat.pow_succ]
    omega

theorem headerOf_sized (buf : Bytes) : (headerOf buf).Sized := by
  have hsize : ∀ i, setBytes (slice buf i 4) < 2 ^ 32 := fun i =>
    Nat.lt_of_lt_of_le (setBytes_lt _)
      (Nat.pow_le_pow_right (n := 256) (by decide) (length_take_le 4 _))
  exact ⟨hsize _, hsize _, hsize _, hsize _, hsize _⟩

theorem headerOf_append (spare : Bytes) (hlen : HeadSize ≤ buf.length) :
    headerOf (buf ++ spare) = headerOf buf := by
  unfold HeadSize at hlen
  simp only [headerOf]
  rw [slice_append, slice_append, slice_append, slice_append, slice_append] <;> omega

end Slices

section Right

variable (unmarshal : Bytes → Option E) {buf data spare r : Bytes} {base : Nat} {h : Header}

theorem exact_inside {m : Message E} (pre rest : Bytes) (hlen : h.finish base ≤ data.length) :
    Exact unmarshal (pre ++ (data ++ rest)) (pre.length + base) h m ↔
      Exact unmarshal data base h m := by
  have hslice : ∀ st n, st + n ≤ data.length →
      slice (pre ++ (data ++ rest)) (pre.length + st) n = slice data st n := fun st n hn => by
    rw [slice_behind, slice_append hn]
  have hmsgType : (pre ++ (data ++ rest)).getD (pre.length + base) 0 = data.getD base 0 := by
    rw [getD_eq_getElem?_getD, getD_eq_getElem?_getD, getElem?_append_right (Nat.le_add_right _ _),
      Nat.add_sub_cancel_left,
      getElem?_append_left (Nat.lt_of_lt_of_le (h.lt_finish base) hlen)]
  have hsum : h.finish (pre.length + base) ≤ (pre ++ (data ++ rest)).length := by
    rw [Header.finish_add, length_append, length_append]
    omega
  unfold Exact messageAt
  simp only [hmsgType, hlen, hsum, true_and, Header.payloadStart, Header.errMsgStart]
  rw [Header.finish_eq] at hlen
  simp only [Nat.add_assoc] at hslice hlen ⊢
  rw [hslice _ _ (by omega), hslice _ _ (by omega), hslice _ _ (by omega), hslice _ _ (by omega),
    hslice _ _ (by omega)]

/-- The type byte is in the data, the error record in the array behind them at most, and the
payload, where it is read, in the data. -/
def DecodeFits (data spare : Bytes) (h : Header) (base : Nat) : Prop :=
  base < data.length ∧ Fits (data ++ spare) (h.payloadStart base) ∧
    (unmarshal (slice (data ++ spare) (h.errMsgStart base) h.ErrMsgSize) ≠ none →
      Fits data (h.finish base))

theorem decodeMessageV2_right_iff (spare : Bytes) (hh : h.Sized) (hhead : base + 1 < 2 ^ 32) :
    (∃ result, DecodeMessageV2 unmarshal data spare h base = some result ∧
        ∀ m, result = .ok m → Exact unmarshal data base h m) ↔
      DecodeFits unmarshal data spare h base := by
  constructor
  · rintro ⟨result, hresult, hexact⟩
    obtain ⟨hbase, hfits⟩ := fits_of_decode hh hhead hresult
    refine ⟨hbase, hfits, fun herr => ?_⟩
    obtain ⟨errMsg, herr⟩ := ne_none_iff_exists'.mp herr
    rw [DecodeMessageV2_eq hbase hfits, herr] at hresult
    obtain ⟨_, hpart, hok⟩ := bind_eq_some_iff.mp hresult
    obtain ⟨-, hsmall⟩ := (fits_of_part hfits.2 hh.2.2.2.2 hpart).1
    exact ⟨(hexact _ (some.inj hok).symm).1, hsmall⟩
  · rintro ⟨hbase, hfits, hpayload⟩
    cases herr : unmarshal (slice (data ++ spare) (h.errMsgStart base) h.ErrMsgSize) with
    | none =>
      rw [DecodeMessageV2_eq hbase hfits, herr]
      exact ⟨_, rfl, fun m hm => by cases hm⟩
    | some errMsg =>
      obtain ⟨hlen, hsmall⟩ := hpayload (by rw [herr]; exact some_ne_none _)
      have hall : Fits (data ++ spare) (h.finish base) :=
        ⟨Nat.le_trans hlen (length_append ▸ Nat.le_add_right _ _), hsmall⟩
      refine ⟨_, DecodeMessageV2_ok hbase hall herr, fun m hm => ?_⟩
      cases hm
      have hinside := exact_inside unmarshal (m := messageAt (data ++ spare) base h errMsg) []
        spare hlen
      rw [nil_append, length_nil, Nat.zero_add] at hinside
      exact hinside.mp ⟨hall.1, herr, rfl⟩

theorem decodeRight_iff : DecodeRight unmarshal data spare ↔
    data ≠ [] ∧ (data.head? = some StartCipher →
      DecodeFits unmarshal data spare (headerOf data) HeadSize) := by
  rcases data with _ | ⟨sc, tail⟩
  · exact iff_of_false (fun ⟨_, hresult, _⟩ => by cases hresult) fun h => h.1 rfl
  unfold DecodeRight DecodeMessage DecodeHeader
  simp only [head?_cons, some.injEq, ne_eq, reduceCtorEq, not_false_eq_true, true_and]
  by_cases hsc : sc = StartCipher
  · simp only [hsc, not_true_eq_false, if_false, forall_const]
    set data := StartCipher :: tail
    by_cases hlen : HeadSize < data.length
    · rw [if_neg (by rw [length_append]; omega), headerOf_append spare (Nat.le_of_lt hlen)]
      exact decodeMessageV2_right_iff unmarshal spare (headerOf_sized data) (by decide)
    · refine iff_of_false (fun ⟨result, hresult, _⟩ => ?_) fun hfits => hlen hfits.1
      split_ifs at hresult
      · cases hresult
      · exact hlen (fits_of_decode (headerOf_sized _) (by decide) hresult).1
  · simp only [hsc, not_false_eq_true, if_true, false_implies, iff_true]
    exact ⟨_, rfl, fun m hm => by cases hm⟩

/-- A whole frame is in the stream, as far as the wrapped length of its body says. -/
def Arrived (r : Bytes) : Prop :=
  r.head? = some StartCipher ∧ HeadSize + (headerOf r).bodyLen ≤ r.length

theorem DecodeHeader_take (hsc : r.head? = some StartCipher) (hlen : HeadSize ≤ r.length) :
    DecodeHeader (r.take HeadSize) [] = some (.ok (headerOf r)) := by
  have htake : (r.take HeadSize).length = HeadSize := length_take_of_le hlen
  have hhead : (r.take HeadSize).head? = some StartCipher := by
    rw [head?_take, if_neg (by decide), hsc]
  have hheader := headerOf_append (r.drop HeadSize) (Nat.le_of_eq htake.symm)
  rw [take_append_drop] at hheader
  simp only [DecodeHeader, hhead, ne_eq, not_true_eq_false, if_false, append_nil, htake,
    Nat.lt_irrefl, hheader]

theorem IODecodeMessage_of_header (hsc : r.head? = some StartCipher) (hlen : HeadSize ≤ r.length) :
    IODecodeMessage unmarshal r = (do
      let (bodyData, rest) ← readFull (r.drop HeadSize) (headerOf r).bodyLen
      let m ← DecodeMessageV2 unmarshal bodyData [] (headerOf r) 0
      return (m, rest)) := by
  have hheader := DecodeHeader_take hsc hlen
  rcases r with _ | ⟨sc, tail⟩
  · cases hsc
  cases hsc
  have hfirst : readFull (StartCipher :: tail) 1 = some (.ok ([StartCipher], tail)) := by
    simp [readFull]
  have hothers : readFull tail (HeadSize - 1) = some (.ok (tail.take 20, tail.drop 20)) :=
    if_pos (Nat.le_of_succ_le_succ hlen)
  have hheader : DecodeHeader ([StartCipher] ++ tail.take 20) [] =
      some (.ok (headerOf (StartCipher :: tail))) := hheader
  unfold IODecodeMessage
  show (readFull tail (HeadSize - 1) >>= _) = _
  rw [hothers]
  show (DecodeHeader ([StartCipher] ++ tail.take 20) [] >>= _) = _
  rw [hheader]
  rfl

theorem IODecodeMessage_eq (hr : Arrived r) : IODecodeMessage unmarshal r = (do
    let m ← DecodeMessageV2 unmarshal (slice r HeadSize (headerOf r).bodyLen) [] (headerOf r) 0
    return (m, r.drop (HeadSize + (headerOf r).bodyLen))) := by
  rw [IODecodeMessage_of_header unmarshal hr.1 (Nat.le_of_add_right_le hr.2), readFull,
    if_pos (by rw [length_drop]; exact Nat.le_sub_of_add_le' hr.2), drop_drop]
  rfl

theorem IODecodeMessage_error (hr : ¬ Arrived r) :
    ∃ err, IODecodeMessage unmarshal r = some (.error err) := by
  by_cases hhead : r.head? = some StartCipher ∧ HeadSize ≤ r.length
  · obtain ⟨hsc, hlen⟩ := hhead
    have hbody : ¬ (headerOf r).bodyLen ≤ (r.drop HeadSize).length := fun hle =>
      hr ⟨hsc, by rw [length_drop] at hle; omega⟩
    rw [IODecodeMessage_of_header unmarshal hsc hlen, readFull, if_neg hbody]
    exact ⟨_, rfl⟩
  · rcases r with _ | ⟨sc, tail⟩
    · exact ⟨_, rfl⟩
    have hfirst : readFull (sc :: tail) 1 = some (.ok ([sc], tail)) := by simp [readFull]
    unfold IODecodeMessage
    by_cases hsc : sc = StartCipher
    · subst hsc
      have hothers : readFull tail (HeadSize - 1) = some (.error .read) :=
        if_neg fun hlen => hhead ⟨rfl, Nat.succ_le_succ hlen⟩
      show ∃ err, (readFull tail (HeadSize - 1) >>= _) = _
      rw [hothers]
      exact ⟨_, rfl⟩
    · exact ⟨.wrongStartCipher, (if_pos (by simpa using hsc : [sc] ≠ [StartCipher])).trans rfl⟩

theorem ioDecodeRight_iff : IODecodeRight unmarshal r ↔
    (Arrived r → (headerOf r).finish 0 < 2 ^ 32) := by
  by_cases hr : Arrived r
  · have hsized := headerOf_sized r
    have hbody : (slice r HeadSize (headerOf r).bodyLen).length = (headerOf r).bodyLen :=
      length_take_of_le (by rw [length_drop]; exact Nat.le_sub_of_add_le' hr.2)
    unfold IODecodeRight
    rw [IODecodeMessage_eq unmarshal hr]
    refine ⟨fun ⟨result, hresult, _⟩ _ => ?_, fun hsmall => ?_⟩
    · -- the payload begins inside the body, so a wrap would have made the body too short for it
      obtain ⟨d, hd, -⟩ := bind_eq_some_iff.mp hresult
      obtain ⟨-, hlen, -⟩ := fits_of_decode hsized (by decide) hd
      rw [append_nil, hbody, Header.bodyLen] at hlen
      have hpayload := hsized.2.2.2.2
      unfold Header.finish at hlen ⊢
      omega
    · have hfinish : (headerOf r).bodyLen = (headerOf r).finish 0 := Nat.mod_eq_of_lt (hsmall hr)
      have hfits : Fits (slice r HeadSize (headerOf r).bodyLen) ((headerOf r).finish 0) :=
        ⟨by rw [hbody, hfinish], hsmall hr⟩
      obtain ⟨d, hd, hexact⟩ := (decodeMessageV2_right_iff unmarshal [] hsized
        (by decide)).mpr ⟨Nat.lt_of_lt_of_le (Header.lt_finish _ _) hfits.1,
          by rw [append_nil]; exact hfits.mono, fun _ => hfits⟩
      rw [hd]
      cases d with
      | error err => exact ⟨_, rfl, fun m rest hm => by cases hm⟩
      | ok m =>
        refine ⟨_, rfl, fun m rest hm => ?_⟩
        cases hm
        have hinside := (exact_inside unmarshal (r.take HeadSize)
          (r.drop (HeadSize + (headerOf r).bodyLen)) hfits.1).mpr (hexact m rfl)
        rw [slice, ← drop_drop, take_append_drop, take_append_drop,
          length_take_of_le (Nat.le_of_add_right_le hr.2), Nat.add_zero] at hinside
        refine ⟨hinside, ?_⟩
        rw [hfinish, ← Header.finish_add]
        rfl
  · obtain ⟨err, herr⟩ := IODecodeMessage_error unmarshal hr
    exact iff_of_true ⟨_, herr, fun m rest hm => by cases hm⟩ fun h => absurd h hr

end Right

section Encode

variable {buf : Bytes}

/-- `json.Marshal` and `json.Unmarshal` of the error record, which has strings and integers only. -/
structure ErrCodec (E : Type) where
  marshal : E → Bytes
  unmarshal : Bytes → Option E
  unmarshal_marshal : ∀ e, unmarshal (marshal e) = some e

variable (codec : ErrCodec E) (p : Parts E)

def sizes : Header :=
  ⟨StartCipher, p.RequestId.length, p.MethodName.length, p.AuthCode.length,
    (codec.marshal p.ErrMsg).length, p.Payload.length⟩

def headerBytes (h : Header) : Bytes :=
  StartCipher :: (putUint32 h.RequestIdSize ++ putUint32 h.MethodNameSize ++
    putUint32 h.AuthCodeSize ++ putUint32 h.ErrMsgSize ++ putUint32 h.PayloadSize)

def bodyBytes : Bytes :=
  p.MsgType :: (p.RequestId ++ p.MethodName ++ p.AuthCode ++ codec.marshal p.ErrMsg ++ p.Payload)

def EncodeMessage : Bytes := headerBytes (sizes codec p) ++ bodyBytes codec p

structure Frame where
  parts : Parts E
  small : (EncodeMessage codec parts).length < 2 ^ 32

variable {codec} in
def Frame.message (f : Frame codec) : Message E := ⟨f.parts, sizes codec f.parts⟩

def Reads (unmarshal : Bytes → Option E) : Bytes → List (Message E) → Bytes → Prop
  | r, [], rest => r = rest
  | r, m :: ms, rest =>
    ∃ r', IODecodeMessage unmarshal r = some (.ok (m, r')) ∧ Reads unmarshal r' ms rest

variable {codec p}

theorem setBytes_putUint32 {n : Nat} (hn : n < 2 ^ 32) : setBytes (putUint32 n) = n := by
  simp [setBytes, putUint32]
  omega

theorem headerOf_headerBytes {h : Header} (hh : h.Sized) (hsc : h.Sc = StartCipher) (buf : Bytes) :
    headerOf (headerBytes h ++ buf) = h := by
  obtain ⟨sc, R, M, A, E, P⟩ := h
  cases hsc
  obtain ⟨hR, hM, hA, hE, hP⟩ := hh
  show Header.mk StartCipher (setBytes (putUint32 R)) (setBytes (putUint32 M))
    (setBytes (putUint32 A)) (setBytes (putUint32 E)) (setBytes (putUint32 P)) = _
  rw [setBytes_putUint32 hR, setBytes_putUint32 hM, setBytes_putUint32 hA, setBytes_putUint32 hE,
    setBytes_putUint32 hP]
  rfl

theorem length_bodyBytes : (bodyBytes codec p).length = (sizes codec p).finish 0 := by
  simp [bodyBytes, sizes, Header.finish_eq]
  omega

theorem messageAt_bodyBytes (pre rest : Bytes) :
    messageAt (pre ++ (bodyBytes codec p ++ rest)) pre.length (sizes codec p) p.ErrMsg =
      ⟨p, sizes codec p⟩ := by
  obtain ⟨mt, R, M, A, e, P⟩ := p
  have hmt : (pre ++ (bodyBytes codec ⟨mt, R, M, A, e, P⟩ ++ rest)).getD pre.length 0 = mt := by
    simp [bodyBytes, getD_eq_getElem?_getD]
  have hR := slice_at (a := pre ++ [mt]) (b := R) (c := M ++ A ++ codec.marshal e ++ P ++ rest) rfl
    rfl
  have hM := slice_at (a := pre ++ [mt] ++ R) (b := M) (c := A ++ codec.marshal e ++ P ++ rest) rfl
    rfl
  have hA := slice_at (a := pre ++ [mt] ++ R ++ M) (b := A) (c := codec.marshal e ++ P ++ rest) rfl
    rfl
  have hP := slice_at (a := pre ++ [mt] ++ R ++ M ++ A ++ codec.marshal e) (b := P) (c := rest) rfl
    rfl
  simp only [messageAt, hmt]
  simp [sizes, Header.payloadStart, Header.errMsgStart, bodyBytes, Nat.add_assoc, Nat.add_comm,
    Nat.add_left_comm] at hR hM hA hP ⊢
  exact ⟨hR, hM, hA, hP⟩

theorem errMsg_bodyBytes (pre rest : Bytes) :
    slice (pre ++ (bodyBytes codec p ++ rest)) ((sizes codec p).errMsgStart pre.length)
      (sizes codec p).ErrMsgSize = codec.marshal p.ErrMsg :=
  slice_at (a := pre ++ p.MsgType :: (p.RequestId ++ p.MethodName ++ p.AuthCode))
    (c := p.Payload ++ rest) (by simp [bodyBytes])
    (by simp [sizes, Header.errMsgStart]; omega)

theorem sizes_sized (hsmall : (bodyBytes codec p).length < 2 ^ 32) : (sizes codec p).Sized := by
  rw [length_bodyBytes, Header.finish_eq] at hsmall
  unfold Header.Sized
  omega

theorem decode_bodyBytes (pre spare : Bytes)
    (hsmall : (pre ++ bodyBytes codec p).length < 2 ^ 32) :
    DecodeMessageV2 codec.unmarshal (pre ++ bodyBytes codec p) spare (sizes codec p) pre.length =
      some (.ok ⟨p, sizes codec p⟩) := by
  have hfinish : (sizes codec p).finish pre.length = (pre ++ bodyBytes codec p).length := by
    rw [length_append, length_bodyBytes, ← Header.finish_add]
    rfl
  have hfits : Fits (pre ++ bodyBytes codec p ++ spare) ((sizes codec p).finish pre.length) :=
    ⟨by rw [hfinish]; simp, hfinish ▸ hsmall⟩
  have herr := codec.unmarshal_marshal p.ErrMsg
  rw [← errMsg_bodyBytes pre spare, ← append_assoc] at herr
  rw [DecodeMessageV2_ok (by simp [bodyBytes]) hfits herr, append_assoc, messageAt_bodyBytes]

section Frames

variable (f : Frame codec) (rest : Bytes)

theorem Frame.body_small : (bodyBytes codec f.parts).length < 2 ^ 32 :=
  Nat.lt_of_le_of_lt (by rw [EncodeMessage, length_append]; omega) f.small

theorem Frame.headerOf_eq :
    headerOf (EncodeMessage codec f.parts ++ rest) = sizes codec f.parts := by
  rw [EncodeMessage, append_assoc]
  exact headerOf_headerBytes (sizes_sized f.body_small) rfl _

theorem IODecodeMessage_frame :
    IODecodeMessage codec.unmarshal (EncodeMessage codec f.parts ++ rest) =
      some (.ok (f.message, rest)) := by
  have hlen : (bodyBytes codec f.parts).length = (sizes codec f.parts).bodyLen := by
    rw [Header.bodyLen, ← length_bodyBytes, Nat.mod_eq_of_lt f.body_small]
  have hframe : HeadSize + (sizes codec f.parts).bodyLen =
      (EncodeMessage codec f.parts).length := by
    rw [← hlen, EncodeMessage, length_append]
    rfl
  have hslice : slice (EncodeMessage codec f.parts ++ rest) HeadSize
      (sizes codec f.parts).bodyLen = bodyBytes codec f.parts := by
    rw [← hlen]
    exact slice_at (a := headerBytes (sizes codec f.parts)) (c := rest)
      (by rw [EncodeMessage, append_assoc]) rfl
  have harrived : Arrived (EncodeMessage codec f.parts ++ rest) :=
    ⟨rfl, by rw [f.headerOf_eq, hframe, length_append]; omega⟩
  have hdecode : DecodeMessageV2 codec.unmarshal (bodyBytes codec f.parts) [] (sizes codec f.parts)
      0 = some (.ok f.message) := decode_bodyBytes [] [] f.body_small
  rw [IODecodeMessage_eq codec.unmarshal harrived, f.headerOf_eq, hslice, hframe, drop_left,
    hdecode]
  rfl

theorem DecodeMessage_frame (spare : Bytes) :
    DecodeMessage codec.unmarshal (EncodeMessage codec f.parts) spare = some (.ok f.message) := by
  have hhead : (EncodeMessage codec f.parts).head? = some StartCipher := rfl
  have hlen : ¬ (EncodeMessage codec f.parts ++ spare).length < HeadSize := by
    rw [EncodeMessage, append_assoc, length_append]
    exact Nat.not_lt.mpr (Nat.le_add_right HeadSize _)
  simp only [DecodeMessage, DecodeHeader, hhead, ne_eq, not_true_eq_false, if_false, if_neg hlen,
    f.headerOf_eq]
  exact decode_bodyBytes (headerBytes (sizes codec f.parts)) spare f.small

/-- **A stream of frames is read back.**  The calls of `IODecodeMessage` return the messages in
their order and leave what stands behind the frames; `DecodeMessage` of one frame, with any array
behind it, gives the same message. -/
theorem frames_read_back (frames : List (Frame codec)) :
    Reads codec.unmarshal ((frames.flatMap fun f => EncodeMessage codec f.parts) ++ rest)
        (frames.map Frame.message) rest ∧
      (frames.map fun f => f.message.toParts) = frames.map Frame.parts ∧
      ∀ (f : Frame codec) (spare : Bytes),
        DecodeMessage codec.unmarshal (EncodeMessage codec f.parts) spare = some (.ok f.message) ∧
          IODecodeMessage codec.unmarshal (EncodeMessage codec f.parts) =
            some (.ok (f.message, [])) := by
  refine ⟨?_, rfl, fun f spare => ⟨DecodeMessage_frame f spare, ?_⟩⟩
  · induction frames with
    | nil => rfl
    | cons f frames ih =>
      refine ⟨_, ?_, ih⟩
      rw [flatMap_cons, append_assoc]
      exact IODecodeMessage_frame f _
  · have hread := IODecodeMessage_frame f []
    rwa [append_nil] at hread

def plainErr : ErrCodec Bytes := ⟨id, some, fun _ => rfl⟩

def pingFrame : Frame plainErr :=
  ⟨⟨1, ascii "id", ascii "ping", [], ascii "\x7b\x7d", [7]⟩, by decide⟩

theorem pings_read_back :
    Reads plainErr.unmarshal
      (([pingFrame, pingFrame].flatMap fun f => EncodeMessage plainErr f.parts) ++ [9])
      [pingFrame.message, pingFrame.message] [9] :=
  (frames_read_back [9] [pingFrame, pingFrame]).1

end Frames

end Encode

section Total

/-- **Where the decoders are total and exact.**  `DecodeMessage` needs a byte, and behind the right
first byte a whole header, the error record inside the array and, where it is decoded, the payload
inside the data.  `IODecodeMessage` is wrong on the streams whose sizes have a sum beyond `uint32`
when a wrapped body arrives. -/
theorem decoding_right_iff (unmarshal : Bytes → Option E) (data spare r : Bytes) :
    (DecodeRight unmarshal data spare ↔
        data ≠ [] ∧ (data.head? = some StartCipher →
          DecodeFits unmarshal data spare (headerOf data) HeadSize)) ∧
      (IODecodeRight unmarshal r ↔ (Arrived r → (headerOf r).finish 0 < 2 ^ 32)) :=
  ⟨decodeRight_iff unmarshal, ioDecodeRight_iff unmarshal⟩

/-- One byte, a payload behind the data, and a stream whose sizes have the sum `2 ^ 32`. -/
theorem decoders_panic :
    DecodeMessage (fun _ => some ()) [StartCipher] [] = none ∧
      (∃ m, DecodeMessage (fun text => if text = ascii "\x7b\x7d" then some () else none)
        (headerBytes ⟨StartCipher, 0, 0, 0, 2, 1⟩ ++ 1 :: ascii "\x7b\x7d") [7] = some (.ok m) ∧
        m.Payload = [7]) ∧
      IODecodeMessage (fun _ => some ())
        (headerBytes ⟨StartCipher, 2 ^ 32 - 1, 0, 0, 0, 0⟩) = none := by
  refine ⟨rfl, ⟨_, rfl, rfl⟩, rfl⟩

end Total

end Topia.Rpc.Protocol
